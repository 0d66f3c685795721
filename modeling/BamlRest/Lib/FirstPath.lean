import Mathlib.Data.Set.Basic

/-!
# Depth-first walks in order

A depth-first walk that follows the references of a node from left to right, keeps the path to the
node at hand, and does not open a node that it has closed.

* `Avoids`: a node is reached without a step onto given nodes.
* `behind`: what is closed once some nodes have been walked from a path.
* `FirstPath`: the paths that such a walk takes, each with what is closed by then.
* `Sweep`: what a walk from some nodes does to the closed ones, and its rules: for no node, for one
  node after another, for a node that is not opened and for one that is.
-/

namespace BamlRest

open List

variable {α : Type*} (opens : α → List α → Prop) (memo : α → Prop)

/-- A node is reached from another without a step onto the nodes of a list. -/
inductive Avoids (S : List α) (a : α) : α → Prop where
  | refl (h : a ∉ S) : Avoids S a a
  | tail {b c ns} (h : Avoids S a b) (ho : opens b ns) (hc : c ∈ ns) (hS : c ∉ S) : Avoids S a c

/-- The nodes to be kept that a walk from some nodes closes, with a path it does not step onto. -/
def behind (S names : List α) : Set α := {y | memo y ∧ ∃ m ∈ names, Avoids opens S m y}

/-- A path that the walk takes, the last node first, and the nodes that are closed by then. A node
is opened unless it is on the path or closed. -/
inductive FirstPath (roots : List α) : List α → Set α → Prop where
  | start {before n after} (h : roots = before ++ n :: after) :
    FirstPath roots [n] (behind opens memo [] before)
  | step {n path closed before m after} (h : FirstPath roots (n :: path) closed) (hpath : n ∉ path)
    (hnew : n ∉ closed) (ho : opens n (before ++ m :: after)) :
    FirstPath roots (m :: n :: path) (closed ∪ behind opens memo (n :: path) before)

/-- What is closed and not on the path has everything behind it closed. -/
def Swept (path : List α) (closed : Set α) : Prop :=
  ∀ x ∈ closed, x ∉ path → behind opens memo path [x] ⊆ closed

/-- The effect of walking some nodes, from a path. -/
structure Sweep (path names : List α) (closed closed' : Set α) : Prop where
  grows : closed ⊆ closed'
  swept : Swept opens memo path closed'
  covers : behind opens memo path names ⊆ closed'
  only : closed' ⊆ closed ∪ behind opens memo path names

variable {opens memo} {S path names : List α} {a n x y : α} {closed closed' closed'' : Set α}

theorem Avoids.not_mem (h : Avoids opens S a y) : a ∉ S := by
  induction h with
  | refl h => exact h
  | tail _ _ _ _ ih => exact ih

theorem Avoids.mono {T : List α} (h : Avoids opens S a y) (hsub : T ⊆ S) : Avoids opens T a y := by
  induction h with
  | refl h => exact .refl fun ha => h (hsub ha)
  | tail _ ho hc hS ih => exact ih.tail ho hc fun hc => hS (hsub hc)

theorem Avoids.head {ns b} (ha : a ∉ S) (ho : opens a ns) (hb : b ∈ ns) (h : Avoids opens S b y) :
    Avoids opens S a y := by
  induction h with
  | refl h => exact (Avoids.refl ha).tail ho hb h
  | tail _ ho' hc hS ih => exact ih.tail ho' hc hS

/-- A way that may meet a node avoids it, or goes on from its last visit there. -/
theorem Avoids.last_visit (n : α) (h : Avoids opens S a y) : Avoids opens (n :: S) a y ∨ y = n ∨
    ∃ ns, opens n ns ∧ ∃ m ∈ ns, Avoids opens (n :: S) m y := by
  classical
  induction h with
  | refl h =>
    by_cases ha : a = n
    · exact .inr (.inl ha)
    · exact .inl (.refl (by simp [ha, h]))
  | @tail b c ns _ ho hc hS ih =>
    by_cases hcn : c = n
    · exact .inr (.inl hcn)
    have hnot : c ∉ n :: S := by simp [hcn, hS]
    rcases ih with h | rfl | ⟨ms, hms, m, hm, h⟩
    · exact .inl (h.tail ho hc hnot)
    · exact .inr (.inr ⟨ns, ho, c, hc, .refl hnot⟩)
    · exact .inr (.inr ⟨ms, hms, m, hm, h.tail ho hc hnot⟩)

theorem behind_append (S xs ys : List α) :
    behind opens memo S (xs ++ ys) = behind opens memo S xs ∪ behind opens memo S ys := by
  ext y
  simp only [behind, mem_append, Set.mem_union]
  constructor
  · rintro ⟨hy, m, hm | hm, h⟩
    · exact .inl ⟨hy, m, hm, h⟩
    · exact .inr ⟨hy, m, hm, h⟩
  · rintro (⟨hy, m, hm, h⟩ | ⟨hy, m, hm, h⟩)
    · exact ⟨hy, m, .inl hm, h⟩
    · exact ⟨hy, m, .inr hm, h⟩

@[simp] theorem behind_nil (S : List α) : behind opens memo S [] = ∅ := by
  simp [behind]

theorem mem_behind_singleton :
    y ∈ behind opens memo path [n] ↔ memo y ∧ Avoids opens path n y := by
  simp [behind]

theorem Sweep.nil (h : Swept opens memo path closed) : Sweep opens memo path [] closed closed :=
  ⟨Set.Subset.rfl, h, by simp, by simp⟩

theorem Sweep.append {xs ys} (h : Sweep opens memo path xs closed closed')
    (h' : Sweep opens memo path ys closed' closed'') :
    Sweep opens memo path (xs ++ ys) closed closed'' where
  grows := h.grows.trans h'.grows
  swept := h'.swept
  covers := by
    rw [behind_append]
    exact Set.union_subset (h.covers.trans h'.grows) h'.covers
  only := by
    intro y hy
    rw [behind_append]
    rcases h'.only hy with hy | hy
    · exact (h.only hy).imp_right .inl
    · exact .inr (.inr hy)

/-- A node on the path, one that is closed and one that is not to be kept and has no references are
not opened. -/
theorem Sweep.known (h : Swept opens memo path closed)
    (hn : n ∈ path ∨ n ∈ closed ∨ ¬memo n ∧ ∀ ns, ¬opens n ns) :
    Sweep opens memo path [n] closed closed where
  grows := Set.Subset.rfl
  swept := h
  covers := by
    intro y hy
    obtain ⟨hmemo, hav⟩ := mem_behind_singleton.mp hy
    rcases hn with hn | hn | ⟨hn, hnone⟩
    · exact absurd hn hav.not_mem
    · exact h n hn hav.not_mem hy
    · have hall : ∀ {z}, Avoids opens path n z → z = n := by
        intro z hz
        induction hz with
        | refl => rfl
        | tail _ ho _ _ ih => exact absurd (ih ▸ ho) (hnone _)
      exact absurd (hall hav ▸ hmemo) hn
  only := Set.subset_union_left

theorem Swept.push (h : Swept opens memo path closed) (hsub : closed ⊆ closed')
    (honly : ∀ y ∈ closed', y ∈ closed ∨ y = n) : Swept opens memo (n :: path) closed' := by
  intro x hx hnot y hy
  obtain ⟨hmemo, hav⟩ := mem_behind_singleton.mp hy
  rw [mem_cons, not_or] at hnot
  refine hsub (h x ((honly x hx).resolve_right hnot.1) hnot.2 ?_)
  exact mem_behind_singleton.mpr ⟨hmemo, hav.mono (subset_cons_self _ _)⟩

/-- A node is opened, its references are walked in order, and it is closed. -/
theorem Sweep.opened {closed₀ closed₁} (hn : n ∉ path) (ho : opens n names)
    (hfun : ∀ ns, opens n ns → ns = names) (honly : ∀ y ∈ closed₀, y ∈ closed ∨ memo n ∧ y = n)
    (hgrows : closed ⊆ closed₀) (h : Sweep opens memo (n :: path) names closed₀ closed₁)
    (hclose : ∀ y, y ∈ closed' ↔ y ∈ closed₁ ∨ memo n ∧ y = n) :
    Sweep opens memo path [n] closed closed' := by
  have hself : ∀ y, memo n ∧ y = n → y ∈ behind opens memo path [n] := by
    rintro y ⟨hmemo, rfl⟩
    exact mem_behind_singleton.mpr ⟨hmemo, .refl hn⟩
  -- from the last visit to the node on, the way goes through one of its references
  have hlast : ∀ y, memo y → (y = n ∨ ∃ ns, opens n ns ∧ ∃ m ∈ ns, Avoids opens (n :: path) m y) →
      y ∈ closed' := by
    rintro y hmemo (rfl | ⟨ns, hns, m, hm, hav⟩)
    · exact (hclose y).mpr (.inr ⟨hmemo, rfl⟩)
    · cases hfun ns hns
      exact (hclose y).mpr (.inl (h.covers ⟨hmemo, m, hm, hav⟩))
  refine ⟨fun y hy => (hclose y).mpr (.inl (h.grows (hgrows hy))), ?_, ?_, ?_⟩
  · intro x hx hnot y hy
    obtain ⟨hmemo, hav⟩ := mem_behind_singleton.mp hy
    rcases hav.last_visit n with hav | hav
    · have hxn : x ∉ n :: path := hav.not_mem
      rw [mem_cons, not_or] at hxn
      have hx₁ := ((hclose x).mp hx).resolve_right fun h => hxn.1 h.2
      refine (hclose y).mpr (.inl (h.swept x hx₁ hav.not_mem ?_))
      exact mem_behind_singleton.mpr ⟨hmemo, hav⟩
    · exact hlast y hmemo hav
  · intro y hy
    obtain ⟨hmemo, hav⟩ := mem_behind_singleton.mp hy
    rcases hav.last_visit n with hav | hav
    · exact absurd mem_cons_self hav.not_mem
    · exact hlast y hmemo hav
  · intro y hy
    rcases (hclose y).mp hy with hy | hy
    · rcases h.only hy with hy | ⟨hmemo, m, hm, hav⟩
      · exact (honly y hy).imp_right (hself y)
      · refine .inr (mem_behind_singleton.mpr ⟨hmemo, ?_⟩)
        exact .head hn ho hm (hav.mono (subset_cons_self _ _))
    · exact .inr (hself y hy)

end BamlRest
