import Mathlib

/-!
# Splitting at a delimiter

`strings.Contains` and `strings.Split` over lists: a list is cut at the occurrences of a delimiter,
from left to right.
-/

namespace BamlRest.Delimiter

open List

variable {α : Type*} [DecidableEq α]

/-- `strings.Contains`. -/
def hasInfix (d : List α) : List α → Bool
  | [] => d.isPrefixOf []
  | x :: s => d.isPrefixOf (x :: s) || hasInfix d s

variable {s : List α}

theorem hasInfix_iff {d} : hasInfix d s ↔ d <:+: s := by
  induction s with
  | nil => simp [hasInfix]
  | cons x s ih =>
    rw [hasInfix, Bool.or_eq_true, ih, isPrefixOf_iff_prefix, infix_cons_iff]

theorem hasInfix_eq_false_iff {d} : hasInfix d s = false ↔ ¬d <:+: s := by
  rw [← hasInfix_iff, Bool.not_eq_true]

/-- Cut a list at the occurrences of a delimiter, after its first elements have been left out. -/
def splitFrom (d : List α) : ℕ → List α → List (List α)
  | _, [] => [[]]
  | skip + 1, _ :: s => splitFrom d skip s
  | 0, x :: s =>
    if d.isPrefixOf (x :: s) then [] :: splitFrom d (d.length - 1) s
    else (splitFrom d 0 s).modifyHead (x :: ·)

/-- `strings.Split`, for a delimiter that is not empty. -/
def split (d s : List α) : List (List α) := splitFrom d 0 s

variable {d : List α}

@[simp]
theorem split_nil (d : List α) : split d [] = [[]] := rfl

theorem splitFrom_ne_nil (d : List α) (skip : ℕ) (s : List α) : splitFrom d skip s ≠ [] := by
  induction s generalizing skip with
  | nil =>
    rw [splitFrom]
    exact cons_ne_nil _ _
  | cons x s ih =>
    cases skip with
    | succ skip => exact ih skip
    | zero =>
      rw [splitFrom]
      split
      · exact cons_ne_nil _ _
      · rw [Ne, modifyHead_eq_nil_iff]
        exact ih 0

theorem splitFrom_append (d p s : List α) : splitFrom d p.length (p ++ s) = split d s := by
  induction p with
  | nil => rfl
  | cons x p ih => exact ih

theorem split_append_left (hd : d ≠ []) (s : List α) : split d (d ++ s) = [] :: split d s := by
  obtain ⟨x, d, rfl⟩ := exists_cons_of_ne_nil hd
  have hpre : (x :: d).isPrefixOf (x :: (d ++ s)) = true :=
    isPrefixOf_iff_prefix.mpr ⟨s, rfl⟩
  rw [split, cons_append, splitFrom, if_pos hpre]
  congr 1
  exact splitFrom_append (x :: d) d s

variable {x : α}

theorem split_cons_of_not (h : ¬d <+: x :: s) :
    split d (x :: s) = (split d s).modifyHead (x :: ·) := by
  rw [split, splitFrom, if_neg (mt isPrefixOf_iff_prefix.mp h)]
  rfl

theorem split_eq_singleton (h : ¬d <:+: s) : split d s = [s] := by
  induction s with
  | nil => rfl
  | cons x s ih =>
    rw [infix_cons_iff, not_or] at h
    rw [split_cons_of_not h.1, ih h.2]
    rfl

variable {c : List α}

theorem prefix_of_split {cs} (h : split d s = c :: cs) : c <+: s := by
  induction s generalizing c cs with
  | nil =>
    cases h
    exact prefix_rfl
  | cons x s ih =>
    by_cases hpre : d <+: x :: s
    · rw [split, splitFrom, if_pos <| isPrefixOf_iff_prefix.mpr hpre] at h
      cases h
      exact nil_prefix
    rw [split_cons_of_not hpre] at h
    obtain ⟨c', cs', hs⟩ := exists_cons_of_ne_nil (splitFrom_ne_nil d 0 s)
    change split d s = _ at hs
    rw [hs] at h
    cases h
    exact cons_prefix_cons.mpr ⟨rfl, ih hs⟩

theorem not_infix_of_mem_splitFrom (hd : d ≠ []) {skip : ℕ}
    (h : c ∈ splitFrom d skip s) : ¬d <:+: c := by
  induction s generalizing skip c with
  | nil =>
    rw [splitFrom, mem_singleton] at h
    subst h
    rwa [infix_nil]
  | cons x s ih =>
    cases skip with
    | succ skip =>
      rw [splitFrom] at h
      exact ih h
    | zero =>
      by_cases hpre : d <+: x :: s
      · rw [splitFrom, if_pos <| isPrefixOf_iff_prefix.mpr hpre, mem_cons] at h
        rcases h with rfl | h
        · rwa [infix_nil]
        · exact ih h
      change c ∈ split d (x :: s) at h
      obtain ⟨c', cs, hs⟩ := exists_cons_of_ne_nil (splitFrom_ne_nil d 0 s)
      have hsplit : split d (x :: s) = (x :: c') :: cs := by
        rw [split_cons_of_not hpre]
        change (splitFrom d 0 s).modifyHead _ = _
        rw [hs]
        rfl
      rw [hsplit, mem_cons] at h
      rcases h with rfl | h
      · rw [infix_cons_iff, not_or]
        have hmem : c' ∈ splitFrom d 0 s := hs ▸ mem_cons_self
        exact ⟨fun hc => hpre (hc.trans (prefix_of_split hsplit)), ih hmem⟩
      · have hmem : c ∈ splitFrom d 0 s := hs ▸ mem_cons_of_mem _ h
        exact ih hmem

theorem not_infix_of_mem_split (hd : d ≠ []) (h : c ∈ split d s) : ¬d <:+: c :=
  not_infix_of_mem_splitFrom hd h

theorem infix_of_mem_splitFrom {skip : ℕ} (h : c ∈ splitFrom d skip s) : c <:+: s := by
  induction s generalizing skip c with
  | nil =>
    rw [splitFrom, mem_singleton] at h
    exact h ▸ infix_rfl
  | cons x s ih =>
    cases skip with
    | succ skip =>
      rw [splitFrom] at h
      exact (ih h).trans (suffix_cons x s).isInfix
    | zero =>
      rw [splitFrom] at h
      split at h
      · rcases mem_cons.mp h with rfl | h
        · exact nil_infix
        · exact (ih h).trans (suffix_cons x s).isInfix
      obtain ⟨c', cs, hs⟩ := exists_cons_of_ne_nil (splitFrom_ne_nil d 0 s)
      rw [hs, modifyHead_cons] at h
      rcases mem_cons.mp h with rfl | h
      · exact (cons_prefix_cons.mpr ⟨rfl, prefix_of_split hs⟩).isInfix
      · have hmem : c ∈ splitFrom d 0 s := hs ▸ mem_cons_of_mem _ h
        exact (ih hmem).trans (suffix_cons x s).isInfix

theorem infix_of_mem_split (h : c ∈ split d s) : c <:+: s :=
  infix_of_mem_splitFrom h

theorem infix_of_length_split (h : (split d s).length ≠ 1) : d <:+: s := by
  by_contra hnot
  rw [split_eq_singleton hnot] at h
  exact h rfl

/-! ### Texts without the first element of the delimiter -/

variable {a : List α}

omit [DecidableEq α] in
theorem infix_append_iff_of_notMem (hx : x ∉ a) : x :: d <:+: a ++ s ↔ x :: d <:+: s := by
  induction a with
  | nil => rfl
  | cons y a ih =>
    rw [mem_cons, not_or] at hx
    rw [cons_append, infix_cons_iff, ih hx.2, cons_prefix_cons]
    exact or_iff_right fun h => hx.1 h.1

omit [DecidableEq α] in
theorem infix_append_iff_of_getLast_notMem {b} (hx : x ∉ b) :
    d ++ [x] <:+: s ++ b ↔ d ++ [x] <:+: s := by
  have hs : (d ++ [x]).reverse <:+: s.reverse ↔ d ++ [x] <:+: s := reverse_infix
  rw [← reverse_infix, ← hs, reverse_append, reverse_append]
  exact infix_append_iff_of_notMem (by rwa [mem_reverse])

theorem split_append_of_notMem (hx : x ∉ a) (s : List α) :
    split (x :: d) (a ++ s) = (split (x :: d) s).modifyHead (a ++ ·) := by
  induction a with
  | nil =>
    obtain ⟨c, cs, hs⟩ := exists_cons_of_ne_nil (splitFrom_ne_nil (x :: d) 0 s)
    change split (x :: d) s = _ at hs
    rw [nil_append, hs]
    rfl
  | cons y a ih =>
    rw [mem_cons, not_or] at hx
    have hpre : ¬x :: d <+: y :: (a ++ s) := fun h => hx.1 (cons_prefix_cons.mp h).1
    rw [cons_append, split_cons_of_not hpre, ih hx.2, modifyHead_modifyHead]
    rfl

/-! ### Replacing -/

/-- `strings.ReplaceAll`, of a list that is not empty. -/
def replaceAll (d new s : List α) : List α := new.intercalate (split d s)

@[simp]
theorem replaceAll_nil (d new : List α) : replaceAll d new [] = [] := by
  simp [replaceAll, List.intercalate]

theorem replaceAll_append_left (hd : d ≠ []) (new s : List α) :
    replaceAll d new (d ++ s) = new ++ replaceAll d new s := by
  obtain ⟨c, cs, hs⟩ := exists_cons_of_ne_nil (splitFrom_ne_nil d 0 s)
  change split d s = _ at hs
  rw [replaceAll, replaceAll, split_append_left hd, hs]
  simp [List.intercalate]

theorem replaceAll_cons_of_not (h : ¬d <+: x :: s) (new : List α) :
    replaceAll d new (x :: s) = x :: replaceAll d new s := by
  obtain ⟨c, cs, hs⟩ := exists_cons_of_ne_nil (splitFrom_ne_nil d 0 s)
  change split d s = _ at hs
  rw [replaceAll, replaceAll, split_cons_of_not h, hs]
  cases cs <;> simp [List.intercalate]

/-! ### Delimiters without borders -/

omit [DecidableEq α] in
/-- Nothing but the whole delimiter is both at its beginning and at its end. -/
def Borderless (d : List α) : Prop := ∀ p, p ≠ [] → p <+: d → p <:+ d → p = d

instance (d : List α) : Decidable (Borderless d) :=
  decidable_of_iff (∀ p ∈ d.inits, p ≠ [] → p <:+ d → p = d)
    ⟨fun h p hne hpre => h p ((mem_inits p d).mpr hpre) hne,
      fun h p hp hne => h p hne ((mem_inits p d).mp hp)⟩

omit [DecidableEq α] in
theorem Borderless.prefix_left (hd : Borderless d) {b} (ha : a ≠ [])
    (h : d <+: a ++ (d ++ b)) : d <+: a := by
  by_contra hnot
  -- the end of the first occurrence is the beginning of the second one
  have hlt : a.length < d.length := by
    by_contra hle
    exact hnot (prefix_of_prefix_length_le h (prefix_append _ _) (Nat.le_of_not_lt hle))
  obtain ⟨p, rfl⟩ : a <+: d :=
    prefix_of_prefix_length_le (prefix_append _ _) h hlt.le
  have hpre : p <+: a ++ p := by
    have hp : p <+: a ++ p ++ b := (prefix_append_right_inj a).mp h
    exact prefix_of_prefix_length_le hp (prefix_append _ _) (by simp)
  have hne : p ≠ [] := by
    rintro rfl
    simp at hlt
  have heq := hd p hne hpre (suffix_append _ _)
  have hlen := congrArg List.length heq
  rw [length_append] at hlen
  exact ha (length_eq_zero_iff.mp (by omega))

theorem split_append (hd : Borderless d) (hne : d ≠ []) (a b : List α) :
    split d (a ++ (d ++ b)) = split d a ++ split d b := by
  induction hn : a.length using Nat.strong_induction_on generalizing a with
  | _ n ih =>
    cases a with
    | nil =>
      rw [nil_append, split_append_left hne, split_nil]
      rfl
    | cons x a =>
      by_cases hpre : d <+: x :: a
      · obtain ⟨a', ha'⟩ := hpre
        have hlt : a'.length < n := by
          have hpos := length_pos_iff.mpr hne
          have hlen := congrArg List.length ha'
          rw [length_append] at hlen
          omega
        rw [← ha', List.append_assoc, split_append_left hne, split_append_left hne, ih _ hlt a' rfl,
          cons_append]
      have hpre' : ¬d <+: x :: (a ++ (d ++ b)) := fun h =>
        hpre (hd.prefix_left (cons_ne_nil _ _) h)
      have hlt : a.length < n := by
        rw [length_cons] at hn
        omega
      rw [cons_append, split_cons_of_not hpre', split_cons_of_not hpre, ih _ hlt a rfl]
      obtain ⟨c, cs, hs⟩ := exists_cons_of_ne_nil (splitFrom_ne_nil d 0 a)
      change split d a = _ at hs
      rw [hs]
      rfl

end BamlRest.Delimiter
