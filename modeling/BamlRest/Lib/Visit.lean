import BamlRest.Lib.Search

/-!
# Depth-first walks

A walk over a graph that keeps a list of what it has seen.
-/

namespace BamlRest

open List

universe u

variable {α : Type u} {ε : Type*}

/-- Walk from each of a list of nodes, with what was seen from the nodes before. -/
def visitAll (walk : List α → α → Run ε (List α)) : List α → List α → Run ε (List α)
  | seen, [] => .ok seen
  | seen, c :: cs => walk seen c >>= fun seen => visitAll walk seen cs

variable [DecidableEq α] (node : α → Except ε (List α))

/-- Walk from a node. The check of a node fails or gives its children. -/
def visit : ℕ → List α → α → Run ε (List α)
  | 0, _, _ => .out
  | n + 1, seen, a =>
    if a ∈ seen then .ok seen
    else
      match node a with
      | .error e => .fail e
      | .ok cs => visitAll (visit n) (a :: seen) cs

/-- A node leads to another. -/
def Child (a b : α) : Prop := ∃ cs, node a = .ok cs ∧ b ∈ cs

/-- What a search has added to the nodes seen. -/
structure Visited (seen : List α) (roots : List α) (seen' : List α) : Prop where
  subset : seen ⊆ seen'
  starts : roots ⊆ seen'
  closed : ∀ x ∈ seen', x ∈ seen ∨ ∃ cs, node x = .ok cs ∧ cs ⊆ seen'
  reached : ∀ x ∈ seen', x ∈ seen ∨ ∃ a ∈ roots, Relation.ReflTransGen (Child node) a x

variable {node}

omit [DecidableEq α] in
theorem Visited.refl (seen) : Visited node seen [] seen :=
  ⟨List.Subset.refl _, nil_subset _, fun _ hx => .inl hx, fun _ hx => .inl hx⟩

omit [DecidableEq α] in
theorem Visited.cons {seen seen₁ seen₂} {c : α} {cs}
    (hc : Visited node seen [c] seen₁) (hcs : Visited node seen₁ cs seen₂) :
    Visited node seen (c :: cs) seen₂ where
  subset := List.Subset.trans hc.subset hcs.subset
  starts := cons_subset.mpr ⟨hcs.subset (hc.starts mem_cons_self), hcs.starts⟩
  closed := by
    intro x hx
    rcases hcs.closed x hx with hx | hx
    · rcases hc.closed x hx with hx | ⟨ds, hds, hsub⟩
      · exact .inl hx
      · exact .inr ⟨ds, hds, List.Subset.trans hsub hcs.subset⟩
    · exact .inr hx
  reached := by
    intro x hx
    rcases hcs.reached x hx with hx | ⟨a, ha, hax⟩
    · rcases hc.reached x hx with hx | ⟨a, ha, hax⟩
      · exact .inl hx
      · cases mem_singleton.mp ha
        exact .inr ⟨c, mem_cons_self, hax⟩
    · exact .inr ⟨a, mem_cons_of_mem _ ha, hax⟩

variable {seen' seen cs : List α} {a : α}

omit [DecidableEq α] in
theorem Visited.ofChildren (hcs : node a = .ok cs)
    (h : Visited node (a :: seen) cs seen') : Visited node seen [a] seen' where
  subset := fun _ hx => h.subset (mem_cons_of_mem _ hx)
  starts := cons_subset.mpr ⟨h.subset mem_cons_self, nil_subset _⟩
  closed := by
    intro x hx
    rcases h.closed x hx with hx | hx
    · rcases mem_cons.mp hx with rfl | hx
      · exact .inr ⟨cs, hcs, h.starts⟩
      · exact .inl hx
    · exact .inr hx
  reached := by
    intro x hx
    rcases h.reached x hx with hx | ⟨c, hc, hcx⟩
    · rcases mem_cons.mp hx with rfl | hx
      · exact .inr ⟨x, mem_cons_self, .refl⟩
      · exact .inl hx
    · exact .inr ⟨a, mem_cons_self, .head ⟨cs, hcs, hc⟩ hcx⟩

omit [DecidableEq α] in
theorem visited_of_visitAll {walk : List α → α → Run ε (List α)}
    (hwalk : ∀ seen a seen', walk seen a = .ok seen' → Visited node seen [a] seen') (h : visitAll walk seen cs = .ok seen') :
    Visited node seen cs seen' := by
  induction cs generalizing seen with
  | nil =>
    cases h
    exact .refl _
  | cons c cs ih =>
    rw [visitAll] at h
    cases hc : walk seen c with
    | out | fail e =>
      rw [hc] at h
      cases h
    | ok seen₁ =>
      rw [hc] at h
      exact (hwalk seen c seen₁ hc).cons (ih h)

variable {n : ℕ}

theorem visited_of_visit (h : visit node n seen a = .ok seen') : Visited node seen [a] seen' := by
  induction n generalizing seen seen' a with
  | zero => cases h
  | succ n ih =>
    rw [visit] at h
    split at h
    case isTrue ha =>
      cases h
      exact ⟨List.Subset.refl _, cons_subset.mpr ⟨ha, nil_subset _⟩,
        fun _ hx => .inl hx, fun _ hx => .inl hx⟩
    case isFalse ha =>
      cases hnode : node a with
      | error e =>
        rw [hnode] at h
        cases h
      | ok cs =>
        rw [hnode] at h
        exact .ofChildren hnode (visited_of_visitAll (fun _ _ _ => ih) h)

theorem mem_visit_iff (h : visit node n [] a = .ok seen) (x : α) :
    x ∈ seen ↔ Relation.ReflTransGen (Child node) a x := by
  have hvisited := visited_of_visit h
  constructor
  · intro hx
    rcases hvisited.reached x hx with hx | ⟨b, hb, hbx⟩
    · exact absurd hx not_mem_nil
    · cases mem_singleton.mp hb
      exact hbx
  intro hx
  induction hx with
  | refl => exact hvisited.starts mem_cons_self
  | tail _ hchild ih =>
    obtain ⟨cs, hcs, hc⟩ := hchild
    rcases hvisited.closed _ ih with hx | ⟨ds, hds, hsub⟩
    · exact absurd hx not_mem_nil
    · rw [hcs] at hds
      cases hds
      exact hsub hc

theorem node_of_mem_visit {x : α} (h : visit node n [] a = .ok seen)
    (hx : x ∈ seen) : ∃ cs, node x = .ok cs := by
  rcases (visited_of_visit h).closed x hx with hx | ⟨cs, hcs, -⟩
  · exact absurd hx not_mem_nil
  · exact ⟨cs, hcs⟩

/-! ### Fuel -/

/-- How many nodes are left. -/
def unseen (nodes seen : List α) : ℕ := (nodes.filter (· ∉ seen)).length

theorem unseen_anti (nodes) (h : seen ⊆ seen') : unseen nodes seen' ≤ unseen nodes seen := by
  refine List.Sublist.length_le (monotone_filter_right nodes fun x hx => ?_)
  simp only [decide_eq_true_eq] at hx ⊢
  exact fun hmem => hx (h hmem)

theorem unseen_lt {nodes} (ha : a ∈ nodes) (hseen : a ∉ seen) :
    unseen nodes (a :: seen) < unseen nodes seen := by
  unfold unseen
  induction nodes with
  | nil => exact absurd ha not_mem_nil
  | cons b nodes ih =>
    have hle := unseen_anti nodes (subset_cons_self a seen)
    unfold unseen at hle
    by_cases hb : a = b
    · subst hb
      simp only [filter_cons, mem_cons, hseen]
      simpa using Nat.lt_succ_of_le hle
    have hrec := ih ((mem_cons.mp ha).resolve_left hb)
    by_cases hbs : b ∈ seen
    · simpa [filter_cons, hbs] using hrec
    · simpa [filter_cons, hbs, Ne.symm hb] using hrec

omit [DecidableEq α] in
theorem visitAll_ne_out {walk : List α → α → Run ε (List α)}
    (hsub : ∀ seen a seen', walk seen a = .ok seen' → seen ⊆ seen')
    (hwalk : ∀ seen', seen ⊆ seen' → ∀ a, walk seen' a ≠ .out) : visitAll walk seen cs ≠ .out := by
  induction cs generalizing seen with
  | nil => simp [visitAll]
  | cons c cs ih =>
    rw [visitAll]
    cases hc : walk seen c with
    | out => exact absurd hc (hwalk seen (List.Subset.refl _) c)
    | fail e => simp
    | ok seen₁ =>
      rw [Run.ok_bind]
      exact ih fun seen' hs => hwalk seen' (List.Subset.trans (hsub _ _ _ hc) hs)

/-- **Every walk ends** when only the nodes of a list have children. -/
theorem visit_ne_out {inner} (hinner : ∀ a cs, node a = .ok cs → cs ≠ [] → a ∈ inner)
    (hn : unseen inner seen < n) (a : α) : visit node n seen a ≠ .out := by
  induction n generalizing seen a with
  | zero => exact absurd hn (Nat.not_lt_zero _)
  | succ n ih =>
    rw [visit]
    split
    case isTrue => simp
    case isFalse ha =>
      cases hnode : node a with
      | error e => simp
      | ok cs =>
        cases cs with
        | nil => simp [visitAll]
        | cons c cs =>
          have hlt := unseen_lt (hinner a _ hnode (cons_ne_nil _ _)) ha
          refine visitAll_ne_out (fun _ _ _ h => (visited_of_visit h).subset) fun seen' hs b => ?_
          have hle := unseen_anti inner hs
          exact ih (by omega) b

end BamlRest
