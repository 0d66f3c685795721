import BamlRest.Debaml.Strict
import BamlRest.Text.Brackets

/-!
# Comments in a model's answer

`internal/debaml/extract.go`, `stripJSONComments`: a pass over the text that replaces every comment
outside a string by a space.

* `stripJSONComments_safe`: JSON stays as it is, and no comment is left outside a string.
-/

namespace BamlRest

/-! ### The pass -/

/-- The state of the scan outside comments: the string it is in, with its delimiter and whether a
backslash came before, and the last significant byte outside strings, zero at the start. -/
structure ScanState where
  str : Option (UInt8 × Bool)
  lastSig : UInt8

open ScanState

namespace ScanState

def start : ScanState := ⟨none, 0⟩

def opens (lastSig c : UInt8) : Option UInt8 :=
  if c = '"' then some '"'.toUInt8
  else if c = '\'' ∧ (lastSig = 0 ∨ lastSig = '{' ∨ lastSig = '[' ∨ lastSig = ',' ∨ lastSig = ':')
  then some '\''.toUInt8
  else none

def next (st : ScanState) (c : UInt8) : ScanState :=
  match st.str with
  | some (q, escaped) =>
    if escaped then ⟨some (q, false), st.lastSig⟩
    else if c = '\\' then ⟨some (q, true), st.lastSig⟩
    else if c = q then ⟨none, c⟩
    else st
  | none =>
    match opens st.lastSig c with
    | some q => ⟨some (q, false), st.lastSig⟩
    | none => if isWS c then st else ⟨none, c⟩

def comment (st : ScanState) (c d : UInt8) : Bool :=
  st.str.isNone && c = '/' && (d = '*' || d = '/')

end ScanState

/-- Where the pass is: in the text, or in a comment that started in a state of the scan. -/
inductive StripMode where
  | text (st : ScanState)
  | block (st : ScanState)
  | line (st : ScanState)

/-- The loops of `stripJSONComments`. -/
def stripFrom : StripMode → Bytes → Bytes
  | _, [] => []
  | .text _, [c] => [c]
  | .text st, c :: d :: s =>
    if st.comment c d then ' '.toUInt8 :: stripFrom (if d = '*' then .block st else .line st) s
    else c :: stripFrom (.text (st.next c)) (d :: s)
  | .block _, [_] => []
  | .block st, c :: d :: s =>
    if c = '*' ∧ d = '/' then stripFrom (.text st) s else stripFrom (.block st) (d :: s)
  -- the newline is left to the text
  | .line st, c :: s =>
    if c = '\n' then c :: stripFrom (.text (st.next c)) s else stripFrom (.line st) s

/-- `strings.Contains` of a comment marker. -/
def containsMarker : Bytes → Bool
  | c :: d :: s => (c = '/' && (d = '*' || d = '/')) || containsMarker (d :: s)
  | _ => false

def stripJSONComments (s : Bytes) : Bytes :=
  if containsMarker s then stripFrom (.text .start) s else s

/-- The delimiter of the string that each byte of a text is in, as the scan follows strings. -/
def ScanState.quotes (st : ScanState) : Bytes → List (Option UInt8)
  | [] => []
  | c :: s => st.str.map Prod.fst :: (st.next c).quotes s

def MarkerAt (s : Bytes) (i : ℕ) : Prop :=
  s[i]? = some '/'.toUInt8 ∧ (s[i + 1]? = some '*'.toUInt8 ∨ s[i + 1]? = some '/'.toUInt8)

instance decidableMarkerAt (s : Bytes) (i : ℕ) : Decidable (MarkerAt s i) := inferInstanceAs (Decidable (_ ∧ _))

/-! ### Texts without comments -/

def ScanState.clean : ScanState → Bytes → Bool
  | st, c :: d :: s => !st.comment c d && (st.next c).clean (d :: s)
  | _, _ => true

section

variable {st : ScanState} {c : UInt8} {s : Bytes}

theorem clean_cons_iff : st.clean (c :: s) = true ↔
    (∀ d ∈ s.head?, st.comment c d = false) ∧ (st.next c).clean s = true := by
  cases s with
  | nil => simp [clean]
  | cons d s => simp [clean]

theorem stripFrom_of_clean (h : st.clean s = true) : stripFrom (.text st) s = s := by
  induction s generalizing st with
  | nil => rfl
  | cons c s ih =>
    obtain ⟨hcomment, hclean⟩ := clean_cons_iff.mp h
    cases s with
    | nil => rfl
    | cons d s =>
      rw [stripFrom, hcomment d rfl, if_neg Bool.false_ne_true, ih hclean]

/-- The scan state in which the pass goes on, outside strings when it is in a comment. -/
def StripMode.follows : StripMode → ScanState → Prop
  | .text st, st' => st = st'
  | .block st, st' | .line st, st' => st = st' ∧ st.str = none

theorem comment_eq_false (hc : c ≠ '/'.toUInt8) (d : UInt8) : st.comment c d = false := by
  simp only [comment, decide_eq_false hc, Bool.and_false, Bool.false_and]

theorem opens_eq_none {l} (hquote : c ≠ '"'.toUInt8) (hsingle : c ≠ '\''.toUInt8) :
    opens l c = none := by
  rw [opens, if_neg hquote, if_neg fun h => hsingle h.1]

theorem next_plain {l} (hquote : c ≠ '"'.toUInt8) (hsingle : c ≠ '\''.toUInt8) :
    (⟨none, l⟩ : ScanState).next c = if isWS c then ⟨none, l⟩ else ⟨none, c⟩ := by
  simp only [next, opens_eq_none hquote hsingle]

theorem next_ws (hst : st.str = none) (hc : isWS c = true) (hquote : c ≠ '"'.toUInt8)
    (hsingle : c ≠ '\''.toUInt8) : st.next c = st := by
  obtain ⟨str, l⟩ := st
  cases hst
  rw [next_plain hquote hsingle, if_pos hc]

theorem head?_stripFrom {d} (hd : d ≠ '/'.toUInt8) :
    (stripFrom (.text st) (d :: s)).head? = some d := by
  cases s with
  | nil => rfl
  | cons e s =>
    rw [stripFrom, comment_eq_false hd, if_neg Bool.false_ne_true]
    rfl

/-- **The pass leaves no comment.** -/
theorem clean_stripFrom (m : StripMode) (s : Bytes) (st : ScanState) (hm : m.follows st) :
    st.clean (stripFrom m s) = true := by
  induction m, s using stripFrom.induct generalizing st with
  | case1 m => cases m <;> rfl
  | case2 st' c => rfl
  | case3 st' c d s hcomment ih =>
    cases hm
    -- the comment becomes a space
    have hstr : st'.str = none := by
      simp only [comment, Bool.and_eq_true, Option.isNone_iff_eq_none] at hcomment
      exact hcomment.1.1
    rw [stripFrom, if_pos hcomment, clean_cons_iff]
    refine ⟨fun e _ => comment_eq_false (by decide) e, ?_⟩
    rw [next_ws hstr rfl (by decide) (by decide)]
    refine ih st' ?_
    split_ifs <;> exact ⟨rfl, hstr⟩
  | case4 st' c d s hcomment ih =>
    cases hm
    rw [stripFrom, if_neg hcomment, clean_cons_iff]
    refine ⟨fun e he => ?_, ih _ rfl⟩
    -- after a slash outside strings, the next byte of the text is no slash and no star
    by_contra hmarker
    simp only [comment, Bool.not_eq_false, Bool.and_eq_true, Bool.or_eq_true,
      decide_eq_true_eq] at hmarker hcomment
    obtain ⟨hopen, he'⟩ := hmarker
    have hd : d ≠ '/'.toUInt8 := by
      intro hd
      exact hcomment ⟨hopen, .inr hd⟩
    rw [head?_stripFrom hd, Option.mem_some_iff] at he
    exact hcomment ⟨hopen, he ▸ he'⟩
  | case5 st' c => rfl
  | case6 st' c d s hclose ih =>
    rw [stripFrom, if_pos hclose]
    exact ih st hm.1
  | case7 st' c d s hclose ih =>
    rw [stripFrom, if_neg hclose]
    exact ih st hm
  | case8 st' s ih =>
    obtain ⟨rfl, hstr⟩ := hm
    rw [stripFrom, if_pos rfl, clean_cons_iff]
    exact ⟨fun e _ => comment_eq_false (by decide) e, ih _ rfl⟩
  | case9 st' c s hline ih =>
    rw [stripFrom, if_neg hline]
    exact ih st hm

theorem quotes_of_marker {i : ℕ} (h : st.clean s = true) (hi : MarkerAt s i) :
    ∃ q, (st.quotes s)[i]? = some (some q) := by
  induction s generalizing st i with
  | nil => simp [MarkerAt] at hi
  | cons c s ih =>
    obtain ⟨hcomment, hclean⟩ := clean_cons_iff.mp h
    cases i with
    | zero =>
      obtain ⟨hc, hd⟩ := hi
      rw [List.getElem?_cons_zero, Option.some.injEq] at hc
      cases hstr : st.str with
      | some q => exact ⟨q.1, by simp [quotes, hstr]⟩
      | none =>
        -- outside strings the scan would have met a comment
        cases s with
        | nil => simp at hd
        | cons d s =>
          have hcd := hcomment d rfl
          simp only [zero_add, List.getElem?_cons_succ, List.getElem?_cons_zero,
            Option.some.injEq] at hd
          simp only [comment, hstr, Option.isNone_none, Bool.true_and, hc,
            decide_true, Bool.or_eq_false_iff, decide_eq_false_iff_not] at hcd
          exact absurd hd (not_or.mpr hcd)
    | succ i =>
      rw [quotes, List.getElem?_cons_succ]
      exact ih hclean hi

theorem clean_of_containsMarker (h : containsMarker s = false) : st.clean s = true := by
  induction s generalizing st with
  | nil => rfl
  | cons c s ih =>
    cases s with
    | nil => rfl
    | cons d s =>
      rw [containsMarker, Bool.or_eq_false_iff] at h
      rw [clean_cons_iff]
      refine ⟨fun e he => ?_, ih h.2⟩
      cases he
      rw [comment, Bool.and_assoc, h.1, Bool.and_false]

/-! ### Strict JSON -/

theorem clean_run {esc esc' l raw} (h : QuoteState.run ⟨true, esc⟩ raw = some ⟨true, esc'⟩)
    (hs : (⟨some ('"'.toUInt8, esc'), l⟩ : ScanState).clean s = true) :
    (⟨some ('"'.toUInt8, esc), l⟩ : ScanState).clean (raw ++ s) = true := by
  induction raw generalizing esc with
  | nil =>
    cases h
    exact hs
  | cons b raw ih =>
    rw [QuoteState.run, if_pos rfl, QuoteState.step] at h
    rw [List.cons_append, clean_cons_iff]
    refine ⟨fun d _ => rfl, ?_⟩
    rw [next]
    dsimp only
    split_ifs at h ⊢ with hesc
    · exact ih h
    · exact ih h
    · cases raw with
      | nil => cases h
      | cons b raw => simp [QuoteState.run] at h
    rw [Bool.not_eq_true] at hesc
    subst hesc
    exact ih h

theorem isLooseByte_plain : ∀ b : UInt8, isLooseByte b = true →
    b ≠ '/'.toUInt8 ∧ b ≠ '"'.toUInt8 ∧ b ≠ '\''.toUInt8 :=
  forall_byte (by decide +kernel)

theorem clean_cons_plain {l} (hslash : c ≠ '/'.toUInt8) (hquote : c ≠ '"'.toUInt8)
    (hsingle : c ≠ '\''.toUInt8) (hs : ∀ l, (⟨none, l⟩ : ScanState).clean s = true) :
    (⟨none, l⟩ : ScanState).clean (c :: s) = true := by
  rw [clean_cons_iff, next_plain hquote hsingle]
  refine ⟨fun d _ => comment_eq_false hslash d, ?_⟩
  split_ifs
  · exact hs l
  · exact hs c

theorem clean_nested {t} (ht : Nested t) (l : UInt8)
    (hs : ∀ l, (⟨none, l⟩ : ScanState).clean s = true) :
    (⟨none, l⟩ : ScanState).clean (t ++ s) = true := by
  induction ht generalizing l s with
  | nil => exact hs l
  | @byte b hb =>
    obtain ⟨hslash, hquote, hsingle⟩ := isLooseByte_plain b hb
    exact clean_cons_plain hslash hquote hsingle hs
  | @str raw hraw =>
    rw [List.cons_append, List.append_assoc, List.singleton_append, clean_cons_iff]
    refine ⟨fun d _ => comment_eq_false (by decide) d, ?_⟩
    refine clean_run (QuoteState.run_content hraw) ?_
    rw [clean_cons_iff]
    exact ⟨fun d _ => rfl, hs '"'.toUInt8⟩
  | append _ _ iha ihb =>
    rw [List.append_assoc]
    exact iha l fun l => ihb l hs
  | object _ ih | array _ ih =>
    rw [List.cons_append, List.append_assoc, List.singleton_append]
    exact clean_cons_plain (by decide) (by decide) (by decide) fun l =>
      ih l fun l => clean_cons_plain (by decide) (by decide) (by decide) hs

theorem clean_of_derivesText {j} (h : DerivesText j s) : start.clean s = true := by
  obtain ⟨w, c, w', hw, hc, hw', rfl⟩ := h
  have hnested : Nested (w ++ (c ++ w')) :=
    .append (nested_of_ws hw) (.append (nested_of_derives hc) (nested_of_ws hw'))
  have hclean := clean_nested hnested 0 (s := []) fun _ => rfl
  rwa [List.append_nil] at hclean

end

/-! ### The whole pass -/

theorem clean_stripJSONComments (s : Bytes) : start.clean (stripJSONComments s) = true := by
  rw [stripJSONComments]
  split_ifs with h
  · exact clean_stripFrom _ s _ rfl
  · exact clean_of_containsMarker (by simpa using h)

theorem stripJSONComments_of_clean {s} (h : start.clean s = true) : stripJSONComments s = s := by
  rw [stripJSONComments]
  split_ifs
  · exact stripFrom_of_clean h
  · rfl

/-- **Comment stripping is safe**: a JSON text is left as it is, every comment marker that is left
is in a string as the scan follows strings, and a second pass changes nothing. -/
theorem stripJSONComments_safe (s : Bytes) :
    ((∃ j, DerivesText j s) → stripJSONComments s = s) ∧
      (∀ i, MarkerAt (stripJSONComments s) i →
        ∃ q, (ScanState.start.quotes (stripJSONComments s))[i]? = some (some q)) ∧
      stripJSONComments (stripJSONComments s) = stripJSONComments s := by
  refine ⟨?_, fun i hi => quotes_of_marker (clean_stripJSONComments s) hi,
    stripJSONComments_of_clean (clean_stripJSONComments s)⟩
  rintro ⟨j, hj⟩
  exact stripJSONComments_of_clean (clean_of_derivesText hj)

/-- A JSON text with a marker in a string. -/
theorem stripJSONComments_safe_string :
    stripJSONComments (bytes "\"//\"") = bytes "\"//\"" := by
  refine (stripJSONComments_safe _).1 ?_
  have hdecode : strictDecode (bytes "\"//\"") = some (.string false (bytes "//")) := by
    decide +kernel
  obtain ⟨j, -, hj⟩ := strictDecode_eq_some_iff.mp hdecode
  exact ⟨j, hj⟩

/-- A marker in a single-quoted string stays, though no double quote is near. -/
theorem stripJSONComments_keeps_single :
    stripJSONComments (bytes "['//'] // c") = bytes "['//']  " ∧
      MarkerAt (bytes "['//']  ") 2 ∧
      (ScanState.start.quotes (bytes "['//']  "))[2]? = some (some '\''.toUInt8) := by
  decide +kernel

end BamlRest
