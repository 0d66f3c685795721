import Mathlib

/-!
# Selection by comparing pairs

A comparison that is not transitive cannot be sorted by.
-/

namespace BamlRest

open List

universe u

variable {α : Type u} (before : α → α → Prop) [DecidableRel before]

/-- The best so far, against the rest. -/
def scan (best : α) : List α → α
  | [] => best
  | x :: l => scan (if before x best then x else best) l

omit [DecidableRel before] in
/-- One element beats all others. -/
def Dominates (l : List α) (d : α) : Prop := d ∈ l ∧ ∀ x ∈ l, x ≠ d → before d x

variable {before}

theorem scan_mem (best : α) (l) : scan before best l ∈ best :: l := by
  induction l generalizing best with
  | nil => exact mem_singleton.mpr rfl
  | cons x l ih =>
    rw [scan]
    have hmem := ih (if before x best then x else best)
    split_ifs at hmem ⊢
    · exact mem_cons_of_mem _ hmem
    rcases mem_cons.mp hmem with h | h
    · exact mem_cons.mpr (.inl h)
    · exact mem_cons_of_mem _ (mem_cons_of_mem _ h)

theorem scan_eq_self {d : α} {l} (h : ∀ x ∈ l, ¬before x d) : scan before d l = d := by
  induction l with
  | nil => rfl
  | cons x l ih =>
    rw [scan, if_neg (h x mem_cons_self)]
    exact ih fun y hy => h y (mem_cons_of_mem _ hy)

/-- **The scan ends at the dominating element.** -/
theorem scan_eq_of_dominates (hasymm : ∀ a b, before a b → ¬before b a) {d best : α} {l}
    (h : Dominates before (best :: l) d) : scan before best l = d := by
  obtain ⟨hmem, hbefore⟩ := h
  have hirrefl : ∀ a, ¬before a a := fun a ha => hasymm a a ha ha
  induction l generalizing best with
  | nil => exact (mem_singleton.mp hmem).symm
  | cons x l ih =>
    rw [scan]
    by_cases hbest : best = d
    · subst hbest
      have hrest : ∀ y ∈ x :: l, ¬before y best := by
        intro y hy
        by_cases hyd : y = best
        · exact hyd ▸ hirrefl y
        · exact hasymm _ _ (hbefore y (mem_cons_of_mem _ hy) hyd)
      rw [if_neg (hrest x mem_cons_self)]
      exact scan_eq_self fun y hy => hrest y (mem_cons_of_mem _ hy)
    have hmem' : d ∈ x :: l := (mem_cons.mp hmem).resolve_left (Ne.symm hbest)
    by_cases hx : x = d
    · subst hx
      rw [if_pos (hbefore best mem_cons_self hbest)]
      exact ih mem_cons_self fun y hy => hbefore y (mem_cons_of_mem _ hy)
    have hl : d ∈ l := (mem_cons.mp hmem').resolve_left (Ne.symm hx)
    refine ih (mem_cons_of_mem _ hl) fun y hy hyd => ?_
    rcases mem_cons.mp hy with rfl | hy
    · split_ifs
      · exact hbefore x (mem_cons_of_mem _ mem_cons_self) hx
      · exact hbefore best mem_cons_self hbest
    · exact hbefore y (mem_cons_of_mem _ (mem_cons_of_mem _ hy)) hyd

omit [DecidableRel before] in
theorem Dominates.perm {d : α} {l l'} (h : Dominates before l d) (hl : l.Perm l') :
    Dominates before l' d :=
  ⟨hl.mem_iff.mp h.1, fun x hx => h.2 x (hl.mem_iff.mpr hx)⟩

end BamlRest
