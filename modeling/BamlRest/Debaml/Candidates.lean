import BamlRest.Lib.Dominant
import BamlRest.Text.Bytes

/-!
# Candidates and their order

`internal/debaml/coerce.go`: the errors of the coercer, the flags that a coercion accumulates, and
the selection among several successful coercions (`pickBest`).

* `pickBest`: the selection.
* `pickBest_dominating`: a candidate that beats all others is selected.
-/

namespace BamlRest

open List

/-! ### Errors -/

inductive Piece where
  | text (s : String)
  | str (b : Bytes)
  | quoted (b : Bytes)
  | int (n : ℤ)
  | bool (b : Bool)
  deriving DecidableEq

abbrev Message := List Piece

/-- The errors of the coercer, by what its callers ask of them. -/
inductive CoerceError where
  /-- `unsupported`: native cannot tell what BAML does -/
  | unsupported (m : Message)
  /-- `provenErr`: BAML fails here too, and the caller may fall back -/
  | proven (m : Message)
  /-- `mismatchError`: BAML fails here too, which is claimed -/
  | mismatch (m : Message)
  | allArmsFailed
  | hard (m : Message)
  deriving DecidableEq

namespace CoerceError

/-- The text of `ErrDeBAMLParseUnsupported`, before a reason. -/
def parserUnsupported : Message := [.text "bamlutils: de-BAML parser unsupported: "]

/-- `Error`. -/
def message : CoerceError → Message
  | unsupported m => parserUnsupported ++ m
  | proven m => parserUnsupported ++ m
  | mismatch m => m
  | allArmsFailed =>
    parserUnsupported ++ [.text "union: every non-null arm provably failed (internal signal)"]
  | hard m => m

end CoerceError

/-! ### Flags -/

inductive CandKind where
  /-- a string, an integer, a float or a boolean -/
  | scalar
  | enum
  | null
  | list
  | map
  | cls
  deriving DecidableEq

def CandKind.isComposite : CandKind → Bool
  | list | map | cls => true
  | scalar | enum | null => false

/-- `candidate`: one coerced arm or item. -/
structure Candidate where
  output : Bytes
  originIndex : ℕ := 0
  kind : CandKind := .scalar
  score : ℕ := 0
  singleToArray : Bool := false
  itemsEmpty : Bool := false
  arrayItemErrors : ℕ := 0
  firstItemMarkdown : Bool := false
  hasJsonToString : Bool := false
  hasFirstMatch : Bool := false
  hasUnionMatch : Bool := false
  unionArmIdx : ℕ := 0
  classPropCount : ℕ := 0
  classAllDefault : Bool := false
  classSingleImplied : Bool := false
  scoreUnknown : Bool := false

/-- `candidate.isDefaultList`: an empty list made from a value that is no list. -/
def Candidate.isDefaultList (c : Candidate) : Bool :=
  c.kind = .list && c.itemsEmpty && c.singleToArray

def nullCandidate (originIndex : ℕ) : Candidate :=
  { output := "null", originIndex, kind := .null, score := 110 }

/-! ### The order -/

/-- Prefer the candidate without a mark; `none` if both or neither have it. -/
def unlike (a b : Bool) : Option ℤ :=
  if a && !b then some 1 else if !a && b then some (-1) else none

/-- The special cases of `cmpCandidates` for two lists. -/
def cmpLists (a b : Candidate) : Option ℤ :=
  unlike a.singleToArray b.singleToArray <|>
    unlike a.firstItemMarkdown b.firstItemMarkdown <|>
    if a.arrayItemErrors = 0 ∧ 0 < b.arrayItemErrors ∧ b.itemsEmpty then some (-1)
    else if 0 < a.arrayItemErrors ∧ b.arrayItemErrors = 0 ∧ a.itemsEmpty then some 1
    else none

/-- The special cases of `cmpCandidates` for two classes. -/
def cmpClasses (targetIsUnion : Bool) (a b : Candidate) : Option ℤ :=
  (if targetIsUnion then unlike a.classSingleImplied b.classSingleImplied else none) <|>
    unlike a.classAllDefault b.classAllDefault

/-- A scalar cast from JSON or picked from an array, against a composite. -/
def cmpComposite (a b : Candidate) : Option ℤ :=
  if !a.kind.isComposite && b.kind.isComposite && (a.hasJsonToString || a.hasFirstMatch) then some 1
  else if a.kind.isComposite && !b.kind.isComposite && (b.hasJsonToString || b.hasFirstMatch) then
    some (-1)
  else none

def cmpNat (m n : ℕ) : ℤ := if m < n then -1 else if n < m then 1 else 0

/-- The end of `cmpCandidates`: non-default, score, index. -/
def cmpGeneric (a b : Candidate) : ℤ :=
  if a.isDefaultList ≠ b.isDefaultList then if !a.isDefaultList then -1 else 1
  else if a.score ≠ b.score then cmpNat a.score b.score
  else cmpNat a.originIndex b.originIndex

/-- `cmpCandidates`: negative if the first candidate ranks before the second. -/
def cmpCandidates (targetIsUnion : Bool) (a b : Candidate) : ℤ :=
  let special :=
    (if a.kind = .list ∧ b.kind = .list then cmpLists a b else none) <|>
      (if a.kind = .cls ∧ b.kind = .cls then cmpClasses targetIsUnion a b else none) <|>
      cmpComposite a b
  special.getD (cmpGeneric a b)

/-- `pickBest`: the index of the candidate that wins. -/
def pickBest (targetIsUnion : Bool) (cands : List Candidate) : Except CoerceError ℕ :=
  match cands.zipIdx with
  | [] => .error (.unsupported [.text "pick_best: empty candidate set"])
  | c :: cs =>
    if cands.any (·.scoreUnknown) then
      .error (.unsupported [.text ("pick_best: a candidate carries a flag whose BAML score weight " ++
        "is unproven (map key kept leniently) — declining rather than ranking it")])
    else if cs.isEmpty then .ok 0
    else
      let best := scan (fun x y => cmpCandidates targetIsUnion x.1 y.1 < 0) c cs
      if (c :: cs).any fun x => x.2 ≠ best.2 ∧ 0 < cmpCandidates targetIsUnion best.1 x.1 then
        .error (.unsupported [.text ("pick_best: candidate comparator is not a total order on this " ++
          "set (BAML sort_by is intransitive here) — declining")])
      else .ok best.2

/-! ### The comparison is antisymmetric -/

theorem unlike_swap (a b : Bool) : unlike b a = (unlike a b).map Neg.neg := by
  cases a <;> cases b <;> rfl

theorem cmpNat_swap (m n : ℕ) : cmpNat n m = -cmpNat m n := by
  unfold cmpNat
  split_ifs <;> omega

theorem map_orElse (f : ℤ → ℤ) (x y : Option ℤ) : (x <|> y).map f = (x.map f <|> y.map f) := by
  cases x <;> rfl

theorem cmpLists_swap (a b) : cmpLists b a = (cmpLists a b).map Neg.neg := by
  unfold cmpLists
  rw [map_orElse, map_orElse, unlike_swap a.singleToArray, unlike_swap a.firstItemMarkdown]
  congr 2
  split_ifs <;> first | rfl | grind

theorem cmpClasses_swap (t : Bool) (a b) : cmpClasses t b a = (cmpClasses t a b).map Neg.neg := by
  unfold cmpClasses
  rw [map_orElse, unlike_swap a.classSingleImplied, unlike_swap a.classAllDefault]
  cases t <;> rfl

theorem cmpComposite_swap (a b) : cmpComposite b a = (cmpComposite a b).map Neg.neg := by
  unfold cmpComposite
  cases a.kind.isComposite <;> cases b.kind.isComposite <;> simp

theorem cmpGeneric_swap (a b) : cmpGeneric b a = -cmpGeneric a b := by
  unfold cmpGeneric
  rw [cmpNat_swap a.score, cmpNat_swap a.originIndex]
  by_cases hscore : a.score = b.score
  · cases a.isDefaultList <;> cases b.isDefaultList <;> simp [hscore]
  · cases a.isDefaultList <;> cases b.isDefaultList <;> simp [hscore, Ne.symm hscore]

/-- **The comparison is antisymmetric**, special cases and all. -/
theorem cmpCandidates_swap (t : Bool) (a b) : cmpCandidates t b a = -cmpCandidates t a b := by
  have hspecial : ∀ x : Option ℤ, (x.map Neg.neg).getD (-cmpGeneric a b) =
      -x.getD (cmpGeneric a b) := by
    intro x
    cases x <;> rfl
  simp only [cmpCandidates]
  rw [← hspecial, map_orElse, map_orElse, cmpGeneric_swap a b, cmpLists_swap a b,
    cmpClasses_swap t a b, cmpComposite_swap a b]
  by_cases hlist : a.kind = .list ∧ b.kind = .list
  · have hcls : ¬(a.kind = .cls ∧ b.kind = .cls) := by simp [hlist.1]
    rw [if_pos hlist, if_pos hlist.symm, if_neg hcls, if_neg fun h => hcls h.symm]
    rfl
  rw [if_neg hlist, if_neg fun h => hlist h.symm]
  by_cases hcls : a.kind = .cls ∧ b.kind = .cls
  · rw [if_pos hcls, if_pos hcls.symm]
    rfl
  · rw [if_neg hcls, if_neg fun h => hcls h.symm]
    rfl

def RanksBefore (targetIsUnion : Bool) (a b : Candidate) : Prop :=
  cmpCandidates targetIsUnion a b < 0

theorem ranksBefore_asymm (t : Bool) (a b) (h : RanksBefore t a b) : ¬RanksBefore t b a := by
  unfold RanksBefore at h ⊢
  rw [cmpCandidates_swap t a b]
  omega

theorem cmpNat_eq_zero {m n : ℕ} (h : cmpNat m n = 0) : m = n := by
  unfold cmpNat at h
  split_ifs at h <;> omega

theorem ne_zero_of_special {t a b} {x : ℤ}
    (h : ((if a.kind = .list ∧ b.kind = .list then cmpLists a b else none) <|>
      (if a.kind = .cls ∧ b.kind = .cls then cmpClasses t a b else none) <|>
      cmpComposite a b) = some x) : x ≠ 0 := by
  have hor : ∀ {y z : Option ℤ}, (y <|> z) = some x → y = some x ∨ z = some x := by
    intro y z hyz
    cases y with
    | none => exact .inr hyz
    | some y => exact .inl hyz
  have hunlike : ∀ {p q : Bool}, unlike p q = some x → x ≠ 0 := by
    intro p q hpq
    cases p <;> cases q <;> simp [unlike] at hpq <;> omega
  rcases hor h with h | h
  · split_ifs at h
    rcases hor h with h | h
    · exact hunlike h
    rcases hor h with h | h
    · exact hunlike h
    · split_ifs at h <;> simp at h <;> omega
  rcases hor h with h | h
  · split_ifs at h
    rcases hor h with h | h
    · split_ifs at h
      exact hunlike h
    · exact hunlike h
  · unfold cmpComposite at h
    split_ifs at h <;> simp at h <;> omega

theorem originIndex_eq_of_cmpCandidates {t a b}
    (h : cmpCandidates t a b = 0) : a.originIndex = b.originIndex := by
  simp only [cmpCandidates] at h
  cases hspecial : ((if a.kind = .list ∧ b.kind = .list then cmpLists a b else none) <|>
      (if a.kind = .cls ∧ b.kind = .cls then cmpClasses t a b else none) <|>
      cmpComposite a b) with
  | some x =>
    rw [hspecial] at h
    exact absurd h (ne_zero_of_special hspecial)
  | none =>
    rw [hspecial, Option.getD_none] at h
    unfold cmpGeneric at h
    split_ifs at h with hdefault hempty hscore
    · cases h
    · exact absurd (cmpNat_eq_zero h) hscore
    · exact cmpNat_eq_zero h

/-! ### The selection -/

section

variable {t : Bool} {cands : List Candidate}

theorem pickBest_cons {c cs}
    (hzip : cands.zipIdx = c :: cs) (hknown : ∀ c ∈ cands, c.scoreUnknown = false) :
    pickBest t cands = let best := scan (fun x y => cmpCandidates t x.1 y.1 < 0) c cs
      if (c :: cs).any fun x => x.2 ≠ best.2 ∧ 0 < cmpCandidates t best.1 x.1 then
        .error (.unsupported [.text ("pick_best: candidate comparator is not a total order on " ++
          "this set (BAML sort_by is intransitive here) — declining")])
      else .ok best.2 := by
  have hany : cands.any (·.scoreUnknown) = false := by
    rw [any_eq_false]
    intro c hc
    simp [hknown c hc]
  have hfirst : c.2 = 0 := by
    cases cands with
    | nil => cases hzip
    | cons d ds =>
      rw [zipIdx_cons] at hzip
      cases hzip
      rfl
  unfold pickBest
  rw [hzip]
  simp only [hany, Bool.false_eq_true, if_false]
  cases cs with
  | nil => simp [scan, hfirst]
  | cons d ds => rfl

theorem dominates_zipIdx_iff (hdistinct : (cands.map (·.originIndex)).Nodup) {c : Candidate}
    {i : ℕ} : Dominates (fun x y : Candidate × ℕ => RanksBefore t x.1 y.1) cands.zipIdx (c, i) ↔
      cands[i]? = some c ∧ Dominates (RanksBefore t) cands c := by
  have hnodup : cands.Nodup := List.Nodup.of_map _ hdistinct
  constructor
  · rintro ⟨hmem, hbefore⟩
    have hget : cands[i]? = some c := mk_mem_zipIdx_iff_getElem?.mp hmem
    refine ⟨hget, mem_of_getElem? hget, fun d hd hdc => ?_⟩
    obtain ⟨j, hj⟩ := mem_iff_getElem?.mp hd
    exact hbefore (d, j) (mk_mem_zipIdx_iff_getElem?.mpr hj) fun h => hdc (congrArg Prod.fst h)
  rintro ⟨hget, hmem, hbefore⟩
  refine ⟨mk_mem_zipIdx_iff_getElem?.mpr hget, ?_⟩
  rintro ⟨d, j⟩ hdj hne
  have hj : cands[j]? = some d := mk_mem_zipIdx_iff_getElem?.mp hdj
  refine hbefore d (mem_of_getElem? hj) fun hdc => hne ?_
  subst hdc
  have hlt : j < cands.length := (List.getElem?_eq_some_iff.mp hj).1
  rw [(getElem?_inj hlt hnodup).mp (hj.trans hget.symm)]

theorem pickBest_of_dominates (hdistinct : (cands.map (·.originIndex)).Nodup)
    (hknown : ∀ c ∈ cands, c.scoreUnknown = false) {i : ℕ} {c}
    (hget : cands[i]? = some c) (hc : Dominates (RanksBefore t) cands c) :
    pickBest t cands = .ok i := by
  have hdom := (dominates_zipIdx_iff hdistinct).mpr ⟨hget, hc⟩
  cases hzip : cands.zipIdx with
  | nil =>
    rw [hzip] at hdom
    exact absurd hdom.1 not_mem_nil
  | cons x xs =>
    rw [hzip] at hdom
    have hscan : scan (fun x y => cmpCandidates t x.1 y.1 < 0) x xs = (c, i) :=
      scan_eq_of_dominates (fun a b => ranksBefore_asymm t a.1 b.1) hdom
    rw [pickBest_cons hzip hknown, hscan]
    refine if_neg ?_
    simp only [Bool.not_eq_true, any_eq_false, decide_eq_true_eq, not_and, not_lt]
    intro y hy hyi
    exact le_of_lt (hdom.2 y hy fun h => hyi (congrArg Prod.snd h))

theorem dominates_of_pickBest (hdistinct : (cands.map (·.originIndex)).Nodup)
    (hknown : ∀ c ∈ cands, c.scoreUnknown = false) {i : ℕ} (h : pickBest t cands = .ok i) :
    ∃ c, cands[i]? = some c ∧ Dominates (RanksBefore t) cands c := by
  cases hzip : cands.zipIdx with
  | nil =>
    unfold pickBest at h
    rw [hzip] at h
    cases h
  | cons x xs =>
    rw [pickBest_cons hzip hknown] at h
    have hbest : scan (fun x y => cmpCandidates t x.1 y.1 < 0) x xs ∈ x :: xs := scan_mem x xs
    revert h hbest
    generalize scan (fun x y => cmpCandidates t x.1 y.1 < 0) x xs = best
    intro h hbest
    dsimp only at h
    split_ifs at h with hany
    cases h
    refine ⟨best.1, (dominates_zipIdx_iff hdistinct).mp ⟨hzip ▸ hbest, fun y hy hne => ?_⟩⟩
    simp only [Bool.not_eq_true, any_eq_false, decide_eq_true_eq, not_and, not_lt] at hany
    have hbest' := mk_mem_zipIdx_iff_getElem?.mp (hzip ▸ hbest : best ∈ cands.zipIdx)
    have hy' := mk_mem_zipIdx_iff_getElem?.mp (hy : (y.1, y.2) ∈ cands.zipIdx)
    have hindex : y.2 ≠ best.2 := by
      intro heq
      rw [heq, hbest'] at hy'
      exact hne (Prod.ext (Option.some.inj hy').symm heq)
    refine lt_of_le_of_ne (hany y (hzip ▸ hy) hindex) fun hzero => hindex ?_
    -- two candidates that compare equal have one index
    have horigin := originIndex_eq_of_cmpCandidates hzero
    have hlt : y.2 < (cands.map (·.originIndex)).length := by
      rw [length_map]
      exact (List.getElem?_eq_some_iff.mp hy').1
    refine (getElem?_inj hlt hdistinct).mp ?_
    rw [getElem?_map, getElem?_map, hy', hbest', Option.map_some, Option.map_some, horigin]

theorem pickBest_eq_error (hdistinct : (cands.map (·.originIndex)).Nodup)
    (hknown : ∀ c ∈ cands, c.scoreUnknown = false) (hne : cands ≠ [])
    (h : ¬∃ c, Dominates (RanksBefore t) cands c) :
    pickBest t cands = .error (.unsupported [.text ("pick_best: candidate comparator is not a " ++
      "total order on this set (BAML sort_by is intransitive here) — declining")]) := by
  cases hzip : cands.zipIdx with
  | nil => exact absurd (zipIdx_eq_nil_iff.mp hzip) hne
  | cons x xs =>
    rw [pickBest_cons hzip hknown]
    dsimp only
    split_ifs with hany
    · rfl
    exfalso
    refine h ?_
    have hok : pickBest t cands = .ok (scan (fun x y => cmpCandidates t x.1 y.1 < 0) x xs).2 := by
      rw [pickBest_cons hzip hknown]
      exact if_neg hany
    obtain ⟨c, -, hc⟩ := dominates_of_pickBest hdistinct hknown hok
    exact ⟨c, hc⟩

end

/-- **What `pickBest` selects**: the candidate that ranks strictly before every other one. It
declines exactly when there is none, and the order of the list does not matter. -/
theorem pickBest_dominating (t : Bool) (cands : List Candidate)
    (hdistinct : (cands.map (·.originIndex)).Nodup)
    (hknown : ∀ c ∈ cands, c.scoreUnknown = false) :
    (∀ i, pickBest t cands = .ok i ↔
        ∃ c, cands[i]? = some c ∧ Dominates (RanksBefore t) cands c) ∧
      ((∃ e, pickBest t cands = .error e) ↔ ¬∃ c, Dominates (RanksBefore t) cands c) ∧
      ∀ cands' : List Candidate, cands'.Perm cands →
        (pickBest t cands').map (cands'[·]?) = (pickBest t cands).map (cands[·]?) := by
  have hiff : ∀ i, pickBest t cands = .ok i ↔
      ∃ c, cands[i]? = some c ∧ Dominates (RanksBefore t) cands c := by
    intro i
    constructor
    · exact dominates_of_pickBest hdistinct hknown
    · rintro ⟨c, hget, hc⟩
      exact pickBest_of_dominates hdistinct hknown hget hc
  refine ⟨hiff, ⟨?_, ?_⟩, ?_⟩
  · rintro ⟨e, he⟩ ⟨c, hc⟩
    obtain ⟨i, hi⟩ := mem_iff_getElem?.mp hc.1
    rw [pickBest_of_dominates hdistinct hknown hi hc] at he
    cases he
  · intro hnone
    cases hpick : pickBest t cands with
    | error e => exact ⟨e, rfl⟩
    | ok i =>
      obtain ⟨c, -, hc⟩ := (hiff i).mp hpick
      exact absurd ⟨c, hc⟩ hnone
  intro cands' hperm
  have hdistinct' : (cands'.map (·.originIndex)).Nodup :=
    (hperm.map _).nodup_iff.mpr hdistinct
  have hknown' : ∀ c ∈ cands', c.scoreUnknown = false :=
    fun c hc => hknown c (hperm.mem_iff.mp hc)
  by_cases hdom : ∃ c, Dominates (RanksBefore t) cands c
  · obtain ⟨c, hc⟩ := hdom
    have hc' := hc.perm hperm.symm
    obtain ⟨i, hi⟩ := mem_iff_getElem?.mp hc.1
    obtain ⟨j, hj⟩ := mem_iff_getElem?.mp hc'.1
    rw [pickBest_of_dominates hdistinct hknown hi hc,
      pickBest_of_dominates hdistinct' hknown' hj hc']
    simp [Except.map, hi, hj]
  have hdom' : ¬∃ c, Dominates (RanksBefore t) cands' c :=
    fun ⟨c, hc⟩ => hdom ⟨c, hc.perm hperm⟩
  cases cands with
  | nil => rw [hperm.eq_nil]
  | cons d ds =>
    have hne' : cands' ≠ [] := by
      rintro rfl
      exact absurd hperm.symm.eq_nil (cons_ne_nil d ds)
    rw [pickBest_eq_error hdistinct hknown (cons_ne_nil d ds) hdom,
      pickBest_eq_error hdistinct' hknown' hne' hdom']
    rfl

def readClass : Candidate := { output := [], originIndex := 0, kind := .cls, score := 111 }

def defaultClass : Candidate :=
  { output := [], originIndex := 1, kind := .cls, score := 100, classAllDefault := true }

/-- The class that was read ranks before the one made of defaults, whatever the scores. -/
theorem pickBest_dominating_classes :
    pickBest true [defaultClass, readClass] = .ok 1 ∧
      Dominates (RanksBefore true) [defaultClass, readClass] readClass := by
  have hpick : pickBest true [defaultClass, readClass] = .ok 1 := by decide +kernel
  obtain ⟨c, hc, hdom⟩ :=
    ((pickBest_dominating true [defaultClass, readClass] (by decide) (by decide)).1 1).mp hpick
  cases hc
  exact ⟨hpick, hdom⟩

/-- With null, the three come before each other in a circle. -/
example : pickBest true [readClass, defaultClass, nullCandidate 2] = .error (.unsupported
    [.text ("pick_best: candidate comparator is not a total order on this set " ++
      "(BAML sort_by is intransitive here) — declining")]) := by
  decide +kernel

end BamlRest
