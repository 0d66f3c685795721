import BamlRest.Text.Utf8

/-!
# Compatibility decomposition

`internal/debaml/bamlunicode/nfkd.go`: a text is taken apart character by character, and the
combining characters between two starters, those of class 0, are sorted by their class. A text is the
list of its characters: the loop `range s` of the source decodes UTF-8, and `string(out)` encodes it
again, before and after everything that is modelled.

* `canonicalOrder`, `NFKD` follow the source; the generated tables are the parameter `Tables`, of
  which `nfkd_16_0_0_gen.go` bears out `Tables.Complete` and `Tables.KeepsJamo`.
* `canonicalOrder_exact`: ordering is a stable sort of every run, and both functions change nothing
  the second time.
-/

namespace BamlRest.Unicode

open List

section

variable {α : Type*} (cc : α → ℕ)

/-- The innermost loop of `canonicalOrder`: the sorted part of the run, last character first. -/
def insertRune (r : α) : List α → List α
  | [] => [r]
  | x :: sorted => if cc x > cc r then x :: insertRune r sorted else r :: x :: sorted

/-- The insertion sort of one run. -/
def sortRun (run : List α) : List α :=
  (run.foldl (fun sorted r => insertRune cc r sorted) []).reverse

/-- The outer loop of `canonicalOrder`, with the run that has been scanned. -/
def orderFrom (run : List α) : List α → List α
  | [] => sortRun cc run
  | r :: s => if cc r = 0 then sortRun cc run ++ r :: orderFrom [] s else orderFrom (run ++ [r]) s

def canonicalOrder (s : List α) : List α := orderFrom cc [] s

/-- A maximal run of characters that are not starters, with what is around it. -/
structure IsRun (a run b : List α) : Prop where
  nonstarter : ∀ r ∈ run, cc r ≠ 0
  before : ∀ r ∈ a.getLast?, cc r = 0
  after : ∀ r ∈ b.head?, cc r = 0

/-! ### One run -/

theorem insertRune_eq (r : α) (sorted) :
    insertRune cc r sorted = sorted.orderedInsert (fun a b => cc b ≤ cc a) r := by
  induction sorted with
  | nil => rfl
  | cons x sorted ih =>
    rw [insertRune, orderedInsert_cons, ih]
    by_cases h : cc x ≤ cc r
    · rw [if_neg (by omega), if_pos h]
    · rw [if_pos (by omega), if_neg h]

theorem sortRun_eq (run) :
    sortRun cc run = (run.reverse.insertionSort fun a b => cc b ≤ cc a).reverse := by
  have hinsert : (fun sorted r => insertRune cc r sorted) =
      fun sorted r => sorted.orderedInsert (fun a b => cc b ≤ cc a) r := by
    funext sorted r
    exact insertRune_eq cc r sorted
  rw [sortRun, hinsert, insertionSort, foldr_reverse]

theorem sortRun_perm (run) : (sortRun cc run).Perm run := by
  rw [sortRun_eq]
  exact (reverse_perm _).trans ((perm_insertionSort _ _).trans (reverse_perm run))

instance instTotalCcc : Std.Total fun a b : α => cc b ≤ cc a := ⟨fun a b => Nat.le_total (cc b) (cc a)⟩

instance instTransCcc : IsTrans α fun a b => cc b ≤ cc a := ⟨fun _ _ _ hab hbc => hbc.trans hab⟩

theorem sortRun_sorted (run) : (sortRun cc run).Pairwise (cc · ≤ cc ·) := by
  rw [sortRun_eq, pairwise_reverse]
  exact pairwise_insertionSort _ _

theorem sortRun_of_sorted {run} (h : run.Pairwise (cc · ≤ cc ·)) : sortRun cc run = run := by
  rw [sortRun_eq, Pairwise.insertionSort_eq (pairwise_reverse.mpr h), reverse_reverse]

/-- The sort is stable: the characters of one class stay in their order. -/
theorem sortRun_stable (run) (k : ℕ) :
    (sortRun cc run).filter (cc · = k) = run.filter (cc · = k) := by
  have hsame : (run.filter (cc · = k)).reverse.Pairwise fun a b => cc b ≤ cc a := by
    refine pairwise_of_forall_mem_list fun a ha b hb => ?_
    simp only [mem_reverse, mem_filter, decide_eq_true_eq] at ha hb
    omega
  have hsub : run.filter (cc · = k) <+ sortRun cc run := by
    rw [sortRun_eq, ← reverse_sublist, reverse_reverse]
    exact sublist_insertionSort hsame (reverse_sublist.mpr filter_sublist)
  have hle := hsub.filter (cc · = k)
  rw [filter_filter, funext fun a => Bool.and_self (decide (cc a = k))] at hle
  exact (hle.eq_of_length ((sortRun_perm cc run).filter _).length_eq.symm).symm

/-! ### The runs of a text -/

variable {cc} {run s : List α}

theorem orderFrom_perm (run s) : (orderFrom cc run s).Perm (run ++ s) := by
  induction s generalizing run with
  | nil => simpa [orderFrom] using sortRun_perm cc run
  | cons r s ih =>
    rw [orderFrom]
    split_ifs
    · exact (sortRun_perm cc run).append ((ih []).cons r)
    · simpa using ih (run ++ [r])

theorem length_canonicalOrder (s) : (canonicalOrder cc s).length = s.length :=
  (orderFrom_perm [] s).length_eq

theorem orderFrom_starter {r : α} (hr : cc r = 0) (run a b) :
    orderFrom cc run (a ++ r :: b) = orderFrom cc run a ++ r :: canonicalOrder cc b := by
  induction a generalizing run with
  | nil => simp [orderFrom, canonicalOrder, hr]
  | cons x a ih =>
    rw [cons_append, orderFrom, orderFrom]
    split_ifs
    · rw [ih, append_assoc, cons_append]
    · exact ih _

theorem orderFrom_run (hrun : ∀ r ∈ s, cc r ≠ 0) (b) :
    orderFrom cc run (s ++ b) = orderFrom cc (run ++ s) b := by
  induction s generalizing run with
  | nil => rw [nil_append, append_nil]
  | cons r s ih =>
    rw [cons_append, orderFrom, if_neg (hrun r mem_cons_self), append_cons run r s]
    exact ih fun x hx => hrun x (mem_cons_of_mem _ hx)

theorem orderFrom_of_head {b} (hb : ∀ r ∈ b.head?, cc r = 0) :
    orderFrom cc run b = sortRun cc run ++ canonicalOrder cc b := by
  cases b with
  | nil => simp [orderFrom, canonicalOrder, sortRun]
  | cons r b =>
    have hr := hb r rfl
    simp [orderFrom, canonicalOrder, sortRun, hr]

theorem canonicalOrder_run {a b} (h : IsRun cc a run b) : canonicalOrder cc (a ++ run ++ b) =
      canonicalOrder cc a ++ sortRun cc run ++ canonicalOrder cc b := by
  have hrest : canonicalOrder cc (run ++ b) = sortRun cc run ++ canonicalOrder cc b := by
    rw [canonicalOrder, orderFrom_run h.nonstarter, nil_append, orderFrom_of_head h.after]
  rcases eq_nil_or_concat' a with rfl | ⟨a, r, rfl⟩
  · simpa [canonicalOrder, orderFrom, sortRun] using hrest
  have hr : cc r = 0 := h.before r (by simp)
  have hcut := orderFrom_starter hr [] a
  simp only [canonicalOrder, append_assoc, cons_append, nil_append] at hcut hrest ⊢
  rw [hcut, hcut, hrest]
  simp [orderFrom, sortRun]

theorem canonicalOrder_orderFrom (hrun : ∀ r ∈ run, cc r ≠ 0) (s) :
    canonicalOrder cc (orderFrom cc run s) = orderFrom cc run s := by
  have hsort : ∀ run : List α, (∀ r ∈ run, cc r ≠ 0) →
      canonicalOrder cc (sortRun cc run) = sortRun cc run := by
    intro run hrun
    have hsorted : orderFrom cc [] (sortRun cc run ++ []) = orderFrom cc ([] ++ sortRun cc run) [] :=
      orderFrom_run (fun r hr => hrun r ((sortRun_perm cc run).mem_iff.mp hr)) []
    rw [append_nil, nil_append, orderFrom, sortRun_of_sorted cc (sortRun_sorted cc run)] at hsorted
    exact hsorted
  induction s generalizing run with
  | nil => exact hsort run hrun
  | cons r s ih =>
    rw [orderFrom]
    split_ifs with hr
    · have hcut := orderFrom_starter hr [] (sortRun cc run) (orderFrom cc [] s)
      rw [ih (by simp)] at hcut
      exact hcut.trans (congrArg (· ++ _) (hsort run hrun))
    refine ih fun x hx => ?_
    rcases mem_append.mp hx with hx | hx
    · exact hrun x hx
    · cases mem_singleton.mp hx
      exact hr

end

/-! ### Decomposition -/

/-- The tables of the package. -/
structure Tables where
  combiningClass : ℕ → ℕ
  lookupNFKD : ℕ → Option (List ℕ)

def hangulSBase : ℕ := 0xAC00
def hangulLBase : ℕ := 0x1100
def hangulVBase : ℕ := 0x1161
def hangulTBase : ℕ := 0x11A7
def hangulTCount : ℕ := 28
def hangulNCount : ℕ := 21 * hangulTCount
def hangulSCount : ℕ := 19 * hangulNCount

/-- A Hangul syllable. -/
def IsHangul (r : ℕ) : Prop := r ≥ hangulSBase ∧ r < hangulSBase + hangulSCount

instance instDecidableIsHangul (r : ℕ) : Decidable (IsHangul r) := inferInstanceAs (Decidable (_ ∧ _))

/-- `appendHangulDecomposition`: what is appended. -/
def hangulDecomposition (s : ℕ) : List ℕ :=
  let sIndex := s - hangulSBase
  let l := hangulLBase + sIndex / hangulNCount
  let v := hangulVBase + sIndex % hangulNCount / hangulTCount
  let t := hangulTBase + sIndex % hangulTCount
  if t ≠ hangulTBase then [l, v, t] else [l, v]

/-- `appendDecomposed`: what is appended. -/
def decomposed (tb : Tables) (r : ℕ) : List ℕ :=
  if IsHangul r then hangulDecomposition r else (tb.lookupNFKD r).getD [r]

/-- `NFKD`, on the characters of a text. -/
def NFKD (tb : Tables) (s : List ℕ) : List ℕ :=
  canonicalOrder tb.combiningClass (s.flatMap (decomposed tb))

/-- The characters that a Hangul syllable is made of. -/
def IsJamo (r : ℕ) : Prop :=
  0x1100 ≤ r ∧ r < 0x1113 ∨ 0x1161 ≤ r ∧ r < 0x1176 ∨ 0x11A8 ≤ r ∧ r < 0x11C3

/-- Every expansion is complete, and leaves no Hangul syllable. -/
def Tables.Complete (tb : Tables) : Prop :=
  ∀ r e, tb.lookupNFKD r = some e → ∀ x ∈ e, tb.lookupNFKD x = none ∧ ¬IsHangul x

/-- No part of a Hangul syllable has an expansion. The committed index has no entry for one. -/
def Tables.KeepsJamo (tb : Tables) : Prop := ∀ r, IsJamo r → tb.lookupNFKD r = none

theorem isJamo_of_mem {r x : ℕ} (hr : IsHangul r) (hx : x ∈ hangulDecomposition r) : IsJamo x := by
  unfold hangulDecomposition at hx
  dsimp only at hx
  simp only [IsHangul, hangulSBase, hangulSCount, hangulNCount, hangulTCount, IsJamo] at hr ⊢
  split at hx
  all_goals
    simp only [mem_cons, not_mem_nil, or_false, hangulSBase, hangulLBase, hangulVBase, hangulTBase,
      hangulNCount, hangulTCount] at *
    omega

theorem not_isHangul_of_isJamo {x : ℕ} (hx : IsJamo x) : ¬IsHangul x := by
  simp only [IsHangul, hangulSBase, hangulSCount, hangulNCount, hangulTCount, IsJamo] at hx ⊢
  omega

theorem decomposed_of_mem {tb} (h : tb.Complete) (hjamo : tb.KeepsJamo) {r x : ℕ} (hx : x ∈ decomposed tb r) :
    decomposed tb x = [x] := by
  have hfixed : tb.lookupNFKD x = none ∧ ¬IsHangul x := by
    rw [decomposed] at hx
    split_ifs at hx with hr
    · have hj := isJamo_of_mem hr hx
      exact ⟨hjamo x hj, not_isHangul_of_isJamo hj⟩
    cases hlook : tb.lookupNFKD r with
    | none =>
      rw [hlook] at hx
      cases mem_singleton.mp hx
      exact ⟨hlook, hr⟩
    | some e =>
      rw [hlook] at hx
      exact h r e hlook x hx
  rw [decomposed, if_neg hfixed.2, hfixed.1]
  rfl

/-- **Canonical ordering**: a permutation that leaves the starters where they are and sorts every run
between them, with a stable sort. It changes nothing the second time. Nor does decomposition, if the
expansions of the table are complete and no part of a Hangul syllable has one. -/
theorem canonicalOrder_exact :
    (∀ (α : Type) (cc : α → ℕ) (s : List α),
      (canonicalOrder cc s).Perm s ∧
      (∀ (i : ℕ) (r : α), s[i]? = some r → cc r = 0 → (canonicalOrder cc s)[i]? = some r) ∧
      (∀ a run b, s = a ++ run ++ b → IsRun cc a run b →
        ∃ a' run' b', canonicalOrder cc s = a' ++ run' ++ b' ∧ a'.length = a.length ∧
          run'.Perm run ∧ run'.Pairwise (cc · ≤ cc ·) ∧
          ∀ k, run'.filter (cc · = k) = run.filter (cc · = k)) ∧
      canonicalOrder cc (canonicalOrder cc s) = canonicalOrder cc s) ∧
    ∀ tb : Tables, tb.Complete → tb.KeepsJamo → ∀ s, NFKD tb (NFKD tb s) = NFKD tb s := by
  refine ⟨fun α cc s => ⟨orderFrom_perm [] s, ?_, ?_, canonicalOrder_orderFrom (by simp) s⟩, ?_⟩
  · intro i r hi hr
    obtain ⟨hlt, hget⟩ := List.getElem?_eq_some_iff.mp hi
    have hs : s = s.take i ++ r :: s.drop (i + 1) := by
      rw [← hget, getElem_cons_drop, take_append_drop]
    have hcut : canonicalOrder cc (s.take i ++ r :: s.drop (i + 1)) =
        canonicalOrder cc (s.take i) ++ r :: canonicalOrder cc (s.drop (i + 1)) :=
      orderFrom_starter hr [] _ _
    have hlen : (canonicalOrder cc (s.take i)).length = i := by
      rw [length_canonicalOrder, length_take, min_eq_left hlt.le]
    rw [← hs] at hcut
    rw [hcut, getElem?_append_right hlen.le, hlen, Nat.sub_self, getElem?_cons_zero]
  · rintro a run b rfl hrun
    exact ⟨_, _, _, canonicalOrder_run hrun, length_canonicalOrder a, sortRun_perm cc run,
      sortRun_sorted cc run, sortRun_stable cc run⟩
  intro tb h hjamo s
  have hfix : ∀ x ∈ NFKD tb s, decomposed tb x = [x] := by
    intro x hx
    obtain ⟨r, -, hr⟩ := mem_flatMap.mp ((orderFrom_perm [] _).mem_iff.mp hx)
    exact decomposed_of_mem h hjamo hr
  have hflat : (NFKD tb s).flatMap (decomposed tb) = NFKD tb s := by
    rw [flatMap_congr hfix, flatMap_singleton']
  rw [NFKD, hflat]
  exact canonicalOrder_orderFrom (by simp) _

/-- A letter with an accent, and two combining characters. -/
def accentTable : Tables where
  combiningClass r := if r = 0x301 then 230 else if r = 0x323 then 220 else 0
  lookupNFKD r := if r = 0xE9 then some [0x65, 0x301] else none

theorem canonicalOrder_exact_accents :
    NFKD accentTable [0xE9, 0x323, 0xAC01] = [0x65, 0x323, 0x301, 0x1100, 0x1161, 0x11A8] ∧
      NFKD accentTable (NFKD accentTable [0xE9, 0x323, 0xAC01]) =
        NFKD accentTable [0xE9, 0x323, 0xAC01] := by
  refine ⟨by decide +kernel, canonicalOrder_exact.2 accentTable ?_ ?_ _⟩
  · intro r e he x hx
    simp only [accentTable] at he
    split_ifs at he
    cases he
    simp only [mem_cons, not_mem_nil, or_false] at hx
    rcases hx with rfl | rfl <;> exact ⟨rfl, by decide⟩
  intro r hr
  refine if_neg ?_
  rintro rfl
  simp [IsJamo] at hr

end BamlRest.Unicode
