import BamlRest.Debaml.Strict
import BamlRest.Text.Brackets

/-!
# Closing a truncated answer

`internal/debaml/complete_final.go`: `completeUnclosedFinal` scans a text once, keeping for every
open container the length of the output up to which it could be closed as it stands, and then closes
what the end of the text leaves open: it completes a string, trims or drops an unfinished number,
drops a key without a value, and appends the missing brackets.
-/

namespace BamlRest

open List

/-! ### The scan -/

/-- `frame`: an open container. -/
structure CompleteFrame where
  arr : Bool
  /-- output length at the last safely closeable point of this frame -/
  safeLen : ℕ
  /-- object: a colon was seen, so the next string is a value -/
  expectValue : Bool
  /-- object: a key was closed, but there is no colon yet -/
  pendingKey : Bool

/-- `inStr`, with `strQuote`, `esc` and `strIsKey`, which are read inside a string only. -/
inductive CompleteMode where
  | outside
  | string (quote : UInt8) (esc isKey : Bool)

/-- The variables of the scan; the innermost frame comes first. -/
structure CompleteState where
  out : Bytes
  fr : List CompleteFrame
  mode : CompleteMode
  /-- output index of a trailing unquoted token that ran to the end of the text -/
  trailTokStart : Option ℕ

def onTop (g : CompleteFrame → CompleteFrame) : List CompleteFrame → List CompleteFrame
  | [] => []
  | f :: fr => g f :: fr

/-- `commit`: the content of the innermost frame up to here is complete. -/
def CompleteState.commit (st : CompleteState) : CompleteState :=
  { st with fr := onTop (fun f => { f with safeLen := st.out.length }) st.fr }

def inKeyPos : List CompleteFrame → Bool
  | [] => false
  | f :: _ => !f.arr && !f.expectValue

/-- A byte that ends an unquoted token; a key also ends at its colon. -/
def endsToken (key : Bool) (d : UInt8) : Bool :=
  d = ',' || d = '}' || d = ']' || isWS d || (key && d = ':')

/-- An unquoted token at the front of `s`, and what follows it. -/
def completeToken (st : CompleteState) (s : Bytes) : CompleteState × Bytes :=
  let key := inKeyPos st.fr
  let tok := s.takeWhile (!endsToken key ·)
  let rest := s.dropWhile (!endsToken key ·)
  let st1 := { st with out := st.out ++ tok }
  if key then ({ st1 with fr := onTop (fun f => { f with pendingKey := true }) st1.fr }, rest)
  else
    let st2 := { st1 with fr := onTop (fun f => { f with expectValue := false }) st1.fr }
    if rest = [] then ({ st2 with trailTokStart := some st.out.length }, rest)
    else (st2.commit, rest)

def completeStep (st : CompleteState) (c : UInt8) (r : Bytes) : CompleteState × Bytes :=
  let st1 := { st with out := st.out ++ [c] }
  match st.mode with
  | .string quote esc isKey =>
    if esc then ({ st1 with mode := .string quote false isKey }, r)
    else if c = '\\' then ({ st1 with mode := .string quote true isKey }, r)
    else if c = quote then
      let st2 := { st1 with mode := .outside }
      if isKey then ({ st2 with fr := onTop (fun f => { f with pendingKey := true }) st2.fr }, r)
      else (st2.commit, r)
    else (st1, r)
  | .outside =>
    if c = '"' ∨ c = '\'' then
      ({ st1 with
          mode := .string c false (inKeyPos st.fr)
          fr := onTop (fun f => if f.arr then f else { f with expectValue := false }) st.fr }, r)
    else if c = '{' ∨ c = '[' then
      ({ st1 with fr := ⟨c = '[', st.out.length + 1, false, false⟩ :: st.fr }, r)
    else if c = '}' ∨ c = ']' then (({ st1 with fr := st.fr.tail } : CompleteState).commit, r)
    else if c = ':' then
      ({ st1 with
          fr := onTop (fun f => { f with expectValue := true, pendingKey := false }) st.fr }, r)
    else if c = ',' then
      ({ st1 with
          fr := onTop (fun f => { f with expectValue := false, pendingKey := false }) st.fr }, r)
    else if isWS c then (st1, r)
    else completeToken st (c :: r)

/-- The body of the loop of `completeUnclosedFinal`. -/
def completeF (rec : CompleteState × Bytes → CompleteState) : CompleteState × Bytes → CompleteState
  | (st, []) => st
  | (st, c :: r) => rec (completeStep st c r)

/-- The loop of `completeUnclosedFinal`. -/
def completeLoop (st : CompleteState) (s : Bytes) : CompleteState :=
  fixBy (fun a : CompleteState × Bytes => a.2.length) completeF (fun a => a.1) (st, s)

/-! ### The repair -/

def isNumPunct (b : UInt8) : Bool := b = '.' || b = 'e' || b = 'E' || b = '+' || b = '-'

def closers (fr : List CompleteFrame) : Bytes :=
  fr.map fun f => if f.arr then ']' else '}'

/-- The output without what cannot be closed, the string that was open completed. -/
def repair (st : CompleteState) (top : CompleteFrame) : Bytes :=
  match st.mode with
  | .string quote esc isKey =>
    if isKey then st.out.take top.safeLen
    else st.out ++ (if esc then ['\\'.toUInt8] else []) ++ [quote]
  | .outside =>
    match st.trailTokStart with
    | some n =>
      let tok := st.out.drop n
      if tok.any isDigit then st.out.take n ++ (tok.reverse.dropWhile isNumPunct).reverse
      else if tok.all isNumPunct then st.out.take top.safeLen
      else st.out
    | none =>
      if !top.arr && (top.expectValue || top.pendingKey) then st.out.take top.safeLen else st.out

def finish (st : CompleteState) : Bytes :=
  match st.fr with
  | [] => st.out
  | top :: _ => repair st top ++ closers st.fr

def completeUnclosedFinal (s : Bytes) : Bytes × Bool :=
  let st := completeLoop ⟨[], [], .outside, none⟩ s
  if st.fr = [] then (s, false) else (finish st, true)

/-! ### The recursion equation -/

theorem completeToken_length_lt {st c} (hc : ∀ key, endsToken key c = false) (r) :
    (completeToken st (c :: r)).2.length < (c :: r).length := by
  have hlt : ∀ key, ((c :: r).dropWhile (!endsToken key ·)).length < (c :: r).length := by
    intro key
    rw [dropWhile_cons_of_pos (by simp [hc key])]
    exact Nat.lt_succ_of_le (length_dropWhile_le _ r)
  simp only [completeToken]
  split_ifs <;> exact hlt _

theorem completeStep_length_lt (st) (c : UInt8) (r) :
    (completeStep st c r).2.length < (c :: r).length := by
  have hr : r.length < (c :: r).length := Nat.lt_succ_self _
  simp only [completeStep]
  split
  · split_ifs <;> exact hr
  split_ifs with h1 h2 h3 h4 h5 h6
  · exact hr
  · exact hr
  · exact hr
  · exact hr
  · exact hr
  · exact hr
  refine completeToken_length_lt (fun key => ?_) r
  obtain ⟨hbrace, hbracket⟩ := not_or.mp h3
  simp only [endsToken, decide_eq_false h5, decide_eq_false hbrace, decide_eq_false hbracket, h6,
    decide_eq_false h4, Bool.and_false, Bool.or_false]

theorem completeLoop_nil (st) : completeLoop st [] = st := rfl

theorem completeLoop_cons (st) (c : UInt8) (r) :
    completeLoop st (c :: r) = completeLoop (completeStep st c r).1 (completeStep st c r).2 := by
  have heq : ∀ a, fixBy (fun a : CompleteState × Bytes => a.2.length) completeF (fun a => a.1) a =
      completeF (fun b => completeLoop b.1 b.2) a := by
    refine fixBy_eq_of_shrinking fun f g a h => ?_
    obtain ⟨st, _ | ⟨c, r⟩⟩ := a
    · rfl
    · exact h _ (completeStep_length_lt st c r)
  exact heq (st, c :: r)

theorem completeStep_out (st) (c : UInt8) (r) :
    (completeStep st c r).1.out ++ (completeStep st c r).2 = st.out ++ c :: r := by
  have hbyte : st.out ++ [c] ++ r = st.out ++ c :: r := by simp
  have htoken : (completeToken st (c :: r)).1.out ++ (completeToken st (c :: r)).2 =
      st.out ++ c :: r := by
    simp only [completeToken]
    split_ifs <;> simp [CompleteState.commit, takeWhile_append_dropWhile]
  simp only [completeStep]
  split
  · split_ifs <;> exact hbyte
  split_ifs
  · exact hbyte
  · exact hbyte
  · exact hbyte
  · exact hbyte
  · exact hbyte
  · exact hbyte
  · exact htoken

theorem completeLoop_out (st s) : (completeLoop st s).out = st.out ++ s := by
  induction hn : s.length using Nat.strong_induction_on generalizing st s with
  | _ n ih =>
    cases s with
    | nil => simp [completeLoop_nil]
    | cons c r =>
      rw [completeLoop_cons, ih _ (hn ▸ completeStep_length_lt st c r) _ _ rfl, completeStep_out]

/-! ### Single steps -/

def between (out : Bytes) (fr : List CompleteFrame) : CompleteState := ⟨out, fr, .outside, none⟩

def inside (out : Bytes) (fr : List CompleteFrame) (esc isKey : Bool) : CompleteState :=
  ⟨out, fr, .string '"' esc isKey, none⟩

section

variable {out r : Bytes} {fr : List CompleteFrame} {f : CompleteFrame}

theorem completeLoop_ws {w} (hw : Ws w) :
    completeLoop (between out fr) (w ++ r) = completeLoop (between (out ++ w) fr) r := by
  induction w generalizing out with
  | nil => rw [append_nil, nil_append]
  | cons b w ih =>
    have hstep : completeStep (between out fr) b (w ++ r) = (between (out ++ [b]) fr, w ++ r) := by
      have hb := hw b (by simp)
      have hne : ∀ b : UInt8, isWS b → ¬(b = '"' ∨ b = '\'') ∧
          ¬(b = '{' ∨ b = '[') ∧ ¬(b = '}' ∨ b = ']') ∧
          ¬b = ':' ∧ ¬b = ',' := by
        intro b hb
        refine ⟨?_, ?_, ?_, ?_, ?_⟩ <;> grind [isWS]
      obtain ⟨h1, h2, h3, h4, h5⟩ := hne b hb
      simp only [completeStep, between, if_neg h1, if_neg h2, if_neg h3, if_neg h4, if_neg h5,
        if_pos hb]
    rw [cons_append, completeLoop_cons, hstep, ih fun b' hb' => hw b' (by simp [hb'])]
    simp

theorem completeLoop_open (arr : Bool) :
    completeLoop (between out fr) ((if arr then '[' else '{') :: r) =
      completeLoop (between (out ++ [if arr then '['.toUInt8 else '{'.toUInt8])
        (⟨arr, out.length + 1, false, false⟩ :: fr)) r := by
  rw [completeLoop_cons]
  cases arr <;> rfl

theorem completeLoop_close (arr : Bool) :
    completeLoop (between out (f :: fr)) ((if arr then ']' else '}') :: r) =
      completeLoop ((between (out ++ [if arr then ']'.toUInt8 else '}'.toUInt8]) fr).commit) r := by
  rw [completeLoop_cons]
  cases arr <;> rfl

theorem completeLoop_colon : completeLoop (between out (f :: fr)) (':'.toUInt8 :: r) =
      completeLoop (between (out ++ [':'.toUInt8])
        ({ f with expectValue := true, pendingKey := false } :: fr)) r := by
  rw [completeLoop_cons]
  rfl

theorem completeLoop_comma : completeLoop (between out (f :: fr)) (','.toUInt8 :: r) =
      completeLoop (between (out ++ [','.toUInt8])
        ({ f with expectValue := false, pendingKey := false } :: fr)) r := by
  rw [completeLoop_cons]
  rfl

theorem completeLoop_quote : completeLoop (between out (f :: fr)) ('"'.toUInt8 :: r) =
      completeLoop (inside (out ++ ['"'.toUInt8])
        ((if f.arr then f else { f with expectValue := false }) :: fr) false
        (!f.arr && !f.expectValue)) r := by
  rw [completeLoop_cons]
  rfl

theorem completeLoop_content {esc esc' isKey raw}
    (h : QuoteState.run ⟨true, esc⟩ raw = some ⟨true, esc'⟩) :
    completeLoop (inside out fr esc isKey) (raw ++ r) =
      completeLoop (inside (out ++ raw) fr esc' isKey) r := by
  induction raw generalizing out esc with
  | nil => cases h; rw [append_nil, nil_append]
  | cons b raw ih =>
    rw [QuoteState.run, if_pos rfl] at h
    obtain ⟨esc1, hesc1, hstep⟩ : ∃ esc1, QuoteState.step ⟨true, esc⟩ b = ⟨true, esc1⟩ ∧
        completeStep (inside out fr esc isKey) b (raw ++ r) =
          (inside (out ++ [b]) fr esc1 isKey, raw ++ r) := by
      cases esc with
      | true => exact ⟨false, rfl, rfl⟩
      | false =>
        by_cases hb : b = '\\'
        · subst hb; exact ⟨true, rfl, rfl⟩
        by_cases hq : b = '"'
        · subst hq
          cases raw with
          | nil => cases h
          | cons b' raw => cases h
        refine ⟨false, ?_, ?_⟩
        · simp only [QuoteState.step, Bool.false_eq_true, if_false, if_neg hb, if_neg hq]
        · simp only [completeStep, inside, Bool.false_eq_true, if_false, if_neg hb, if_neg hq]
    rw [hesc1] at h
    rw [cons_append, completeLoop_cons, hstep, ih h]
    simp

theorem completeLoop_unquote : completeLoop (inside out fr false false) ('"'.toUInt8 :: r) =
      completeLoop (between (out ++ ['"'.toUInt8]) fr).commit r := by
  rw [completeLoop_cons]
  rfl

theorem completeLoop_unquoteKey :
    completeLoop (inside out (f :: fr) false true) ('"'.toUInt8 :: r) =
      completeLoop (between (out ++ ['"'.toUInt8]) ({ f with pendingKey := true } :: fr)) r := by
  rw [completeLoop_cons]
  rfl

theorem completeLoop_scalar {tok} (hkey : inKeyPos (f :: fr) = false) (hne : tok ≠ [])
    (htok : ∀ b ∈ tok, isScalarByte b) (hr : Follow r) :
    completeLoop (between out (f :: fr)) (tok ++ r) = if r = [] then
        ⟨out ++ tok, { f with expectValue := false } :: fr, .outside, some out.length⟩
      else
        completeLoop (between (out ++ tok)
          ({ f with expectValue := false, safeLen := (out ++ tok).length } :: fr)) r := by
  have hbyte : ∀ b : UInt8, isScalarByte b → endsToken false b = false ∧
      ¬(b = '"' ∨ b = '\'') ∧ ¬(b = '{' ∨ b = '[') ∧
      ¬(b = '}' ∨ b = ']') ∧ ¬b = ':' ∧ ¬b = ',' ∧
      ¬isWS b := forall_byte (by decide +kernel)
  have hin : ∀ b ∈ tok, (!endsToken false b) = true := fun b hb => by
    rw [(hbyte b (htok b hb)).1]; rfl
  have hstop : ∀ b, r.head? = some b → endsToken false b := by
    intro b hb
    rcases hr b hb with hws | rfl | rfl | rfl
    · simp [endsToken, hws]
    · rfl
    · rfl
    · rfl
  have htake : (tok ++ r).takeWhile (!endsToken false ·) = tok := by
    rw [takeWhile_append_of_pos hin]
    cases r with
    | nil => simp
    | cons b r => simp [hstop b rfl]
  have hdrop : (tok ++ r).dropWhile (!endsToken false ·) = r := by
    rw [dropWhile_append_of_pos hin]
    cases r with
    | nil => rfl
    | cons b r => simp [hstop b rfl]
  have htoken : completeToken (between out (f :: fr)) (tok ++ r) =
      if r = [] then
        (⟨out ++ tok, { f with expectValue := false } :: fr, .outside, some out.length⟩, r)
      else (between (out ++ tok)
        ({ f with expectValue := false, safeLen := (out ++ tok).length } :: fr), r) := by
    simp only [completeToken, between, hkey, htake, hdrop, Bool.false_eq_true, if_false]
    rfl
  cases tok with
  | nil => exact absurd rfl hne
  | cons c tok =>
    obtain ⟨-, h1, h2, h3, h4, h5, h6⟩ := hbyte c (htok c (by simp))
    have hstep : completeStep (between out (f :: fr)) c (tok ++ r) =
        completeToken (between out (f :: fr)) (c :: (tok ++ r)) := by
      simp only [completeStep, between, if_neg h1, if_neg h2, if_neg h3, if_neg h4, if_neg h5,
        if_neg h6]
    rw [cons_append] at htoken ⊢
    rw [completeLoop_cons, hstep, htoken]
    split_ifs with hnil
    · rw [hnil, completeLoop_nil]
    · rfl

end

/-! ### Complete pieces -/

/-- What the scan does on a complete piece of each syntactic category, whatever follows: it comes
back to the frame it was in, which a value commits up to its end. -/
def Scans : Symbol → Bytes → Prop
  | .value _, c => ∀ out f fr r, inKeyPos (f :: fr) = false →
      (r = [] → c.head?.any isScalarByte = false) → Follow r →
      ∃ e, completeLoop (between out (f :: fr)) (c ++ r) =
        completeLoop (between (out ++ c)
          ({ f with expectValue := e, safeLen := (out ++ c).length } :: fr)) r
  | .elems _, c | .elemsTail _, c => ∀ out f fr r, f.arr →
      ∃ f', f'.arr ∧ completeLoop (between out (f :: fr)) (c ++ ']'.toUInt8 :: r) =
        completeLoop (between (out ++ c) (f' :: fr)) (']'.toUInt8 :: r)
  | .members _, c => ∀ out f fr r, f.arr = false → f.expectValue = false →
      ∃ f', f'.arr = false ∧ completeLoop (between out (f :: fr)) (c ++ '}'.toUInt8 :: r) =
        completeLoop (between (out ++ c) (f' :: fr)) ('}'.toUInt8 :: r)
  | .membersTail _, c => ∀ out f fr r, f.arr = false →
      ∃ f', f'.arr = false ∧ completeLoop (between out (f :: fr)) (c ++ '}'.toUInt8 :: r) =
        completeLoop (between (out ++ c) (f' :: fr)) ('}'.toUInt8 :: r)

variable {c : Bytes}

theorem scans_scalar {j} (hne : c ≠ []) (hc : ∀ b ∈ c, isScalarByte b) : Scans (.value j) c := by
  intro out f fr r hkey hr hfollow
  refine ⟨false, ?_⟩
  have hrne : r ≠ [] := by
    cases c with
    | nil => exact absurd rfl hne
    | cons b c =>
      intro hnil
      have hb := hr hnil
      rw [head?_cons, Option.any_some, hc b (by simp)] at hb
      cases hb
  rw [completeLoop_scalar hkey hne hc hfollow, if_neg hrne]

variable {out raw : Bytes} {f : CompleteFrame} {fr : List CompleteFrame}

theorem completeLoop_key {r} (hraw : StrState.body.run raw = some .body) (harr : f.arr = false)
    (hexp : f.expectValue = false) :
    completeLoop (between out (f :: fr)) ('"'.toUInt8 :: (raw ++ '"'.toUInt8 :: r)) =
      completeLoop (between (out ++ '"'.toUInt8 :: (raw ++ ['"'.toUInt8]))
        ({ f with pendingKey := true } :: fr)) r := by
  obtain ⟨arr, safeLen, expectValue, pendingKey⟩ := f
  subst harr hexp
  rw [completeLoop_quote, completeLoop_content (QuoteState.run_content hraw)]
  exact (completeLoop_unquoteKey).trans (by simp)

theorem completeLoop_string {r}
    (hraw : StrState.body.run raw = some .body) (hkey : inKeyPos (f :: fr) = false) :
    ∃ e, completeLoop (between out (f :: fr)) ('"'.toUInt8 :: (raw ++ '"'.toUInt8 :: r)) =
      completeLoop (between (out ++ '"'.toUInt8 :: (raw ++ ['"'.toUInt8]))
        ({ f with expectValue := e,
                  safeLen := (out ++ '"'.toUInt8 :: (raw ++ ['"'.toUInt8])).length } :: fr)) r := by
  obtain ⟨arr, safeLen, expectValue, pendingKey⟩ := f
  refine ⟨if arr then expectValue else false, ?_⟩
  have hisKey : (!arr && !expectValue) = false := hkey
  rw [completeLoop_quote]
  simp only [hisKey]
  rw [completeLoop_content (QuoteState.run_content hraw), completeLoop_unquote]
  cases arr <;> simp [between, CompleteState.commit, onTop]

def opener (arr : Bool) : UInt8 := if arr then '[' else '{'

def closer (arr : Bool) : UInt8 := if arr then ']' else '}'

theorem scans_container {j} (arr : Bool)
    (hinner : ∀ out f fr r, f.arr = arr → f.expectValue = false →
      ∃ f', f'.arr = arr ∧ completeLoop (between out (f :: fr)) (c ++ closer arr :: r) =
        completeLoop (between (out ++ c) (f' :: fr)) (closer arr :: r)) :
    Scans (.value j) (opener arr :: (c ++ [closer arr])) := by
  intro out f fr r hkey hr hfollow
  refine ⟨f.expectValue, ?_⟩
  obtain ⟨f', -, hscan⟩ := hinner (out ++ [opener arr]) ⟨arr, out.length + 1, false, false⟩
    (f :: fr) r rfl rfl
  rw [cons_append, append_assoc, singleton_append]
  exact (completeLoop_open arr).trans (hscan.trans ((completeLoop_close arr).trans
    (by simp [between, CompleteState.commit, onTop, opener, closer])))

/-- The key of a member, with its colon and the white space around them. -/
def keyText (w raw w1 w2 : Bytes) : Bytes :=
  w ++ '"'.toUInt8 :: (raw ++ '"'.toUInt8 :: (w1 ++ ':'.toUInt8 :: w2))

theorem keyText_append (w raw w1 w2 s) :
    w ++ '"'.toUInt8 :: (raw ++ '"'.toUInt8 :: (w1 ++ ':'.toUInt8 :: (w2 ++ s))) =
      keyText w raw w1 w2 ++ s := by
  simp [keyText]

theorem completeLoop_keyText {w w1 w2} (hw : Ws w)
    (hraw : StrState.body.run raw = some .body) (hw1 : Ws w1) (hw2 : Ws w2) {s} (harr : f.arr = false)
    (hexp : f.expectValue = false) :
    completeLoop (between out (f :: fr)) (keyText w raw w1 w2 ++ s) =
      completeLoop (between (out ++ keyText w raw w1 w2)
        ({ f with expectValue := true, pendingKey := false } :: fr)) s := by
  rw [← keyText_append, completeLoop_ws hw, completeLoop_key hraw harr hexp, completeLoop_ws hw1,
    completeLoop_colon, completeLoop_ws hw2]
  simp [keyText]

theorem scans_of_derives {x} (h : Derives x c) : Scans x c := by
  induction h with
  | null => exact scans_scalar (by decide) null_bytes
  | bool b => exact scans_scalar (by cases b <;> decide) (bool_bytes b)
  | @num tok h =>
    exact scans_scalar (by rintro rfl; exact absurd h (by decide)) (isNumber_bytes h)
  | @str raw t h =>
    intro out f fr r hkey hr hfollow
    simp only [cons_append, append_assoc, nil_append]
    exact completeLoop_string h.run hkey
  | @arrNil w hw =>
    exact scans_container true fun out f fr r harr _ => ⟨f, harr, completeLoop_ws hw⟩
  | arr _ ih => exact scans_container true fun out f fr r harr _ => ih out f fr r harr
  | @objNil w hw =>
    exact scans_container false fun out f fr r harr _ => ⟨f, harr, completeLoop_ws hw⟩
  | obj _ ih => exact scans_container false ih
  | @elem j js w c w' t hw hv hw' ht ihv iht =>
    intro out f fr r harr
    have hkey : inKeyPos (f :: fr) = false := by simp [inKeyPos, harr]
    obtain ⟨e, hvalue⟩ := ihv (out ++ w) f fr (w' ++ (t ++ ']'.toUInt8 :: r)) hkey (by simp)
      (Follow.ws_append hw' (follow_elemsTail ht r))
    obtain ⟨f', harr', htail⟩ := iht (out ++ w ++ c ++ w')
      { f with expectValue := e, safeLen := (out ++ w ++ c).length } fr r harr
    refine ⟨f', harr', ?_⟩
    simp only [append_assoc] at hvalue htail ⊢
    rw [completeLoop_ws hw, hvalue, completeLoop_ws hw', append_assoc, append_assoc, htail]
  | elemsEnd =>
    intro out f fr r harr
    exact ⟨f, harr, by simp⟩
  | @elemsMore js c _ ih =>
    intro out f fr r harr
    obtain ⟨f', harr', hscan⟩ := ih (out ++ [','.toUInt8])
      { f with expectValue := false, pendingKey := false } fr r harr
    refine ⟨f', harr', ?_⟩
    rw [cons_append, completeLoop_comma, hscan]
    simp
  | @member k j fs w raw w1 w2 c w3 t hw hk hw1 hw2 hv hw3 ht ihv iht =>
    intro out f fr r harr hexp
    obtain ⟨e, hvalue⟩ := ihv (out ++ keyText w raw w1 w2)
      { f with expectValue := true, pendingKey := false } fr (w3 ++ (t ++ '}'.toUInt8 :: r))
      (by simp [inKeyPos]) (by simp) (Follow.ws_append hw3 (follow_membersTail ht r))
    obtain ⟨f', harr', htail⟩ := iht (out ++ keyText w raw w1 w2 ++ c ++ w3)
      { f with
          expectValue := e, pendingKey := false
          safeLen := (out ++ keyText w raw w1 w2 ++ c).length } fr r harr
    refine ⟨f', harr', ?_⟩
    rw [keyText_append, append_assoc, completeLoop_keyText hw hk.run hw1 hw2 harr hexp,
      append_assoc, append_assoc, hvalue, completeLoop_ws hw3, htail]
    simp only [append_assoc]
  | membersEnd =>
    intro out f fr r harr
    exact ⟨f, harr, by simp⟩
  | @membersMore fs c _ ih =>
    intro out f fr r harr
    obtain ⟨f', harr', hscan⟩ := ih (out ++ [','.toUInt8])
      { f with expectValue := false, pendingKey := false } fr r harr rfl
    refine ⟨f', harr', ?_⟩
    rw [cons_append, completeLoop_comma, hscan]
    simp

end BamlRest
