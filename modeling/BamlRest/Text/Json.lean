import BamlRest.Text.Utf8

/-!
# JSON texts

The JSON grammar as Go's `encoding/json` reads it, over byte strings.
-/

namespace BamlRest

open List Option

inductive Json where
  | null
  | bool (b : Bool)
  | num (tok : Bytes)
  | str (s : Bytes)
  | arr (js : List Json)
  | obj (fs : List (Bytes × Json))

/-! ### Numbers -/

def isDigit (b : UInt8) : Bool := '0' ≤ b && b ≤ '9'

inductive NumState where
  | neg
  | zero
  /-- inside an integer part that starts with `1`..`9` -/
  | int
  | dot
  | frac
  | exp
  | expSign
  | expDigits

def NumState.accepting : NumState → Bool
  | .zero | .int | .frac | .expDigits => true
  | .neg | .dot | .exp | .expSign => false

/-- The state after one more byte of the number, none where the byte does not continue it. -/
def NumState.step : NumState → UInt8 → Option NumState
  | .neg, b => if b = '0' then some .zero else if isDigit b then some .int else none
  | .zero, b => if b = '.' then some .dot else if b = 'e' ∨ b = 'E' then some .exp else none
  | .int, b =>
    if isDigit b then some .int else if b = '.' then some .dot
    else if b = 'e' ∨ b = 'E' then some .exp else none
  | .dot, b => if isDigit b then some .frac else none
  | .frac, b => if isDigit b then some .frac else if b = 'e' ∨ b = 'E' then some .exp else none
  | .exp, b =>
    if b = '+' ∨ b = '-' then some .expSign else if isDigit b then some .expDigits else none
  | .expSign, b => if isDigit b then some .expDigits else none
  | .expDigits, b => if isDigit b then some .expDigits else none

def NumState.start (b : UInt8) : Option NumState :=
  if b = '-' then some .neg else NumState.step .neg b

/-- The rest of a number from a state: the bytes that continue it and what follows them. -/
def scanNumberFrom : NumState → Bytes → Option (Bytes × Bytes)
  | q, [] => if q.accepting then some ([], []) else none
  | q, b :: s =>
    match q.step b with
    | some q' => (scanNumberFrom q' s).map fun (t, r) => (b :: t, r)
    | none => if q.accepting then some ([], b :: s) else none

def scanNumber : Bytes → Option (Bytes × Bytes)
  | [] => none
  | b :: s =>
    match NumState.start b with
    | some q => (scanNumberFrom q s).map fun (t, r) => (b :: t, r)
    | none => none

def isNumber (t : Bytes) : Bool := scanNumber t = some (t, [])

/-! ### Strings -/

def isHex (b : UInt8) : Bool :=
  isDigit b || ('a' ≤ b && b ≤ 'f') || ('A' ≤ b && b ≤ 'F')

inductive StrState where
  | body
  | esc
  /-- inside `\uXXXX`, with this many digits to go after the next one -/
  | hex (k : ℕ)
  deriving DecidableEq

/-- The bytes that may follow a backslash, apart from `u`. -/
def isSimpleEscape (b : UInt8) : Bool :=
  b = '"' || b = '\\' || b = '/' || b = 'b' || b = 'f' || b = 'n' || b = 'r' || b = 't'

/-- The state after one more byte of the string, none where the string may not hold it. -/
def StrState.step : StrState → UInt8 → Option StrState
  | .body, b => if b = '\\' then some .esc else if b < 0x20 ∨ b = '"' then none else some .body
  | .esc, b => if b = 'u' then some (.hex 3) else if isSimpleEscape b then some .body else none
  | .hex 0, b => if isHex b then some .body else none
  | .hex (k + 1), b => if isHex b then some (.hex k) else none

/-- The rest of a string from a state: its bytes up to the closing quote, and what follows the
quote. -/
def scanString : StrState → Bytes → Option (Bytes × Bytes)
  | _, [] => none
  | q, b :: s =>
    if q = .body ∧ b = '"' then some ([], s)
    else
      match q.step b with
      | some q' => (scanString q' s).map fun (t, r) => (b :: t, r)
      | none => none

def StrState.run : StrState → Bytes → Option StrState
  | q, [] => some q
  | q, b :: s => (q.step b).bind fun q' => q'.run s

def hexVal (b : UInt8) : ℕ :=
  if isDigit b then b.toNat - 0x30
  else if 'a' ≤ b then b.toNat - 0x61 + 10 else b.toNat - 0x41 + 10

/-- `getu4`: the code unit of a leading `\uXXXX`. -/
def getu4 : Bytes → Option ℕ
  | c :: u :: h1 :: h2 :: h3 :: h4 :: _ =>
    if c = '\\' ∧ u = 'u' ∧ isHex h1 ∧ isHex h2 ∧ isHex h3 ∧ isHex h4 then
      some (hexVal h1 * 4096 + hexVal h2 * 256 + hexVal h3 * 16 + hexVal h4)
    else none
  | _ => none

/-- `utf16.DecodeRune` on a first code unit and an optional second one. -/
def decodeSurrogates (r1 : ℕ) (r2 : Option ℕ) : Option ℕ :=
  match r2 with
  | none => none
  | some r2 =>
    if 0xD800 ≤ r1 ∧ r1 < 0xDC00 ∧ 0xDC00 ≤ r2 ∧ r2 < 0xE000 then
      some ((r1 - 0xD800) * 1024 + (r2 - 0xDC00) + 0x10000)
    else none

def simpleEscape (e : UInt8) : Option UInt8 :=
  if e = '"' ∨ e = '\\' ∨ e = '/' ∨ e = '\'' then some e
  else if e = 'b' then some 0x08
  else if e = 'f' then some 0x0c
  else if e = 'n' then some 0x0a
  else if e = 'r' then some 0x0d
  else if e = 't' then some 0x09
  else none

/-- The first item of a string's raw bytes: the bytes it stands for and its length. -/
def unquoteItem (s : Bytes) : Option (Bytes × ℕ) :=
  match s with
  | [] => none
  | c :: r =>
    if c = '\\' then
      match r with
      | [] => none
      | e :: _ =>
        if e = 'u' then
          match getu4 s with
          | none => none
          | some rr =>
            if 0xD800 ≤ rr ∧ rr < 0xE000 then
              match decodeSurrogates rr (getu4 (s.drop 6)) with
              | some dec => some (encodeRune dec, 12)
              | none => some (encodeRune runeError, 6)
            else some (encodeRune rr, 6)
        else (simpleEscape e).map fun b => ([b], 2)
    else if c = '"' ∨ c < 0x20 then none
    else if c < 0x80 then some ([c], 1)
    else some (encodeRune (decodeRune s).1, (decodeRune s).2)

/-- `unquote`: the content of a string, from its raw bytes between the quotes. -/
def unquote : Bytes → Option Bytes :=
  fixBy List.length
    (fun rec s =>
      if s = [] then some []
      else (unquoteItem s).bind fun (t, n) => (rec (s.drop n)).map (t ++ ·))
    (fun _ => none)

/-! ### Runs of the automata -/

def NumState.run : NumState → Bytes → Option NumState
  | q, [] => some q
  | q, b :: s => (q.step b).bind fun q' => q'.run s

theorem scanNumberFrom_eq_some_iff {q s t r} :
    scanNumberFrom q s = some (t, r) ↔ s = t ++ r ∧ ∃ q', q.run t = some q' ∧ q'.accepting ∧
        ∀ b, r.head? = some b → q'.step b = none := by
  induction s generalizing q t with
  | nil =>
    cases ha : q.accepting with
    | false =>
      simp only [scanNumberFrom, ha, Bool.false_eq_true, if_false, reduceCtorEq, false_iff]
      rintro ⟨hs, q', hq', hacc, -⟩
      obtain ⟨rfl, rfl⟩ := append_eq_nil_iff.mp hs.symm
      simp only [NumState.run, some.injEq] at hq'
      rw [← hq', ha] at hacc
      exact absurd hacc (by simp)
    | true =>
      simp only [scanNumberFrom, ha, if_true, some.injEq, Prod.mk.injEq]
      constructor
      · rintro ⟨rfl, rfl⟩
        exact ⟨rfl, q, rfl, ha, by simp⟩
      · rintro ⟨hs, -⟩
        obtain ⟨rfl, rfl⟩ := append_eq_nil_iff.mp hs.symm
        exact ⟨rfl, rfl⟩
  | cons b s ih =>
    cases hb : q.step b with
    | some q1 =>
      simp only [scanNumberFrom, hb, map_eq_some_iff, Prod.exists, Prod.mk.injEq]
      constructor
      · rintro ⟨t', r', h, rfl, rfl⟩
        obtain ⟨rfl, q', hq', hrest⟩ := ih.mp h
        exact ⟨rfl, q', by simp [NumState.run, hb, hq'], hrest⟩
      rintro ⟨hs, q', hq', hacc, hr⟩
      cases t with
      | nil =>
        simp only [nil_append] at hs
        simp only [NumState.run, some.injEq] at hq'
        subst hq'
        rw [hr b (by simp [← hs])] at hb
        exact absurd hb (by simp)
      | cons c t =>
        simp only [cons_append, cons.injEq] at hs
        obtain ⟨rfl, rfl⟩ := hs
        simp only [NumState.run, hb, bind_some] at hq'
        exact ⟨t, r, ih.mpr ⟨rfl, q', hq', hacc, hr⟩, rfl, rfl⟩
    | none =>
      simp only [scanNumberFrom, hb]
      constructor
      · intro h
        split at h
        · next ha =>
          simp only [some.injEq, Prod.mk.injEq] at h
          obtain ⟨rfl, rfl⟩ := h
          exact ⟨rfl, q, rfl, ha, by simpa using hb⟩
        · exact absurd h (by simp)
      rintro ⟨hs, q', hq', hacc, -⟩
      cases t with
      | nil =>
        simp only [NumState.run, some.injEq] at hq'
        simp only [nil_append] at hs
        rw [if_pos (hq' ▸ hacc), hs]
      | cons c t =>
        simp only [cons_append, cons.injEq] at hs
        obtain ⟨rfl, rfl⟩ := hs
        simp [NumState.run, hb] at hq'

theorem scanNumber_eq_some_iff {s t r} : scanNumber s = some (t, r) ↔
      s = t ++ r ∧ ∃ b u q q', t = b :: u ∧ NumState.start b = some q ∧ q.run u = some q' ∧
        q'.accepting ∧ ∀ c, r.head? = some c → q'.step c = none := by
  cases s with
  | nil =>
    simp only [scanNumber, reduceCtorEq, false_iff]
    rintro ⟨hs, b, u, -, -, rfl, -⟩
    simp at hs
  | cons b s =>
    cases hb : NumState.start b with
    | none =>
      simp only [scanNumber, hb, reduceCtorEq, false_iff]
      rintro ⟨hs, c, u, q, -, rfl, hq, -⟩
      simp only [cons_append, cons.injEq] at hs
      rw [← hs.1, hb] at hq
      exact absurd hq (by simp)
    | some q =>
      simp only [scanNumber, hb, map_eq_some_iff, Prod.exists, Prod.mk.injEq]
      constructor
      · rintro ⟨t', r', h, rfl, rfl⟩
        obtain ⟨rfl, q', hrun, hrest⟩ := scanNumberFrom_eq_some_iff.mp h
        exact ⟨rfl, b, t', q, q', rfl, hb, hrun, hrest⟩
      rintro ⟨hs, c, u, q1, q', rfl, hq1, hrun, hrest⟩
      simp only [cons_append, cons.injEq] at hs
      obtain ⟨rfl, rfl⟩ := hs
      rw [hb, some.injEq] at hq1
      subst hq1
      exact ⟨u, r, scanNumberFrom_eq_some_iff.mpr ⟨rfl, q', hrun, hrest⟩, rfl, rfl⟩

theorem scanString_eq_some_iff {q s t r} :
    scanString q s = some (t, r) ↔ s = t ++ '"'.toUInt8 :: r ∧ q.run t = some .body := by
  induction s generalizing q t with
  | nil => simp [scanString]
  | cons b s ih =>
    rw [scanString]
    by_cases hend : q = .body ∧ b = '"'
    · obtain ⟨rfl, rfl⟩ := hend
      simp only [and_self, if_true, some.injEq, Prod.mk.injEq]
      constructor
      · rintro ⟨rfl, rfl⟩
        exact ⟨rfl, rfl⟩
      rintro ⟨hs, hrun⟩
      cases t with
      | nil => simpa using hs
      | cons c t =>
        simp only [cons_append, cons.injEq] at hs
        rw [← hs.1] at hrun
        simp [StrState.run, StrState.step] at hrun
    · rw [if_neg hend]
      cases hb : q.step b with
      | none =>
        simp only [reduceCtorEq, false_iff]
        rintro ⟨hs, hrun⟩
        cases t with
        | nil =>
          simp only [nil_append, cons.injEq] at hs
          simp only [StrState.run, some.injEq] at hrun
          exact hend ⟨hrun, hs.1⟩
        | cons c t =>
          simp only [cons_append, cons.injEq] at hs
          simp [StrState.run, ← hs.1, hb] at hrun
      | some q' =>
        simp only [map_eq_some_iff, Prod.exists, Prod.mk.injEq]
        constructor
        · rintro ⟨t', r', h, rfl, rfl⟩
          obtain ⟨rfl, hrun⟩ := ih.mp h
          exact ⟨rfl, by simp [StrState.run, hb, hrun]⟩
        rintro ⟨hs, hrun⟩
        cases t with
        | nil =>
          simp only [nil_append, cons.injEq] at hs
          simp only [StrState.run, some.injEq] at hrun
          exact absurd ⟨hrun, hs.1⟩ hend
        | cons c t =>
          simp only [cons_append, cons.injEq] at hs
          obtain ⟨rfl, rfl⟩ := hs
          simp only [StrState.run, hb, bind_some] at hrun
          exact ⟨t, r, ih.mpr ⟨rfl, hrun⟩, rfl, rfl⟩

/-! ### The grammar -/

def Ws (w : Bytes) : Prop := ∀ b ∈ w, isWS b

/-- The raw bytes between the quotes of a string, and the content they stand for. -/
structure IsStr (raw t : Bytes) : Prop where
  run : StrState.body.run raw = some .body
  content : unquote raw = some t

/-- A syntactic category of the grammar, with the tree a text of it stands for. -/
inductive Symbol where
  | value (j : Json)
  /-- one or more elements, with the commas between them -/
  | elems (js : List Json)
  | elemsTail (js : List Json)
  /-- one or more members, with the commas between them -/
  | members (fs : List (Bytes × Json))
  | membersTail (fs : List (Bytes × Json))

inductive Derives : Symbol → Bytes → Prop where
  | null : Derives (.value .null) "null"
  | bool (b : Bool) : Derives (.value (.bool b)) (bytes (if b then "true" else "false"))
  | num {tok} (h : isNumber tok) : Derives (.value (.num tok)) tok
  | str {raw t} (h : IsStr raw t) :
      Derives (.value (.str t)) ('"'.toUInt8 :: (raw ++ ['"'.toUInt8]))
  | arrNil {w} (hw : Ws w) : Derives (.value (.arr [])) ('['.toUInt8 :: (w ++ [']'.toUInt8]))
  | arr {js c} (h : Derives (.elems js) c) :
      Derives (.value (.arr js)) ('['.toUInt8 :: (c ++ [']'.toUInt8]))
  | objNil {w} (hw : Ws w) : Derives (.value (.obj [])) ('{'.toUInt8 :: (w ++ ['}'.toUInt8]))
  | obj {fs c} (h : Derives (.members fs) c) :
      Derives (.value (.obj fs)) ('{'.toUInt8 :: (c ++ ['}'.toUInt8]))
  | elem {j js w c w' t} (hw : Ws w)
      (h : Derives (.value j) c) (hw' : Ws w') (ht : Derives (.elemsTail js) t) :
      Derives (.elems (j :: js)) (w ++ (c ++ (w' ++ t)))
  | elemsEnd : Derives (.elemsTail []) []
  | elemsMore {js c} (h : Derives (.elems js) c) : Derives (.elemsTail js) (','.toUInt8 :: c)
  | member {k j fs w raw w1 w2 c w3 t}
      (hw : Ws w) (hk : IsStr raw k) (hw1 : Ws w1) (hw2 : Ws w2) (h : Derives (.value j) c)
      (hw3 : Ws w3) (ht : Derives (.membersTail fs) t) : Derives (.members ((k, j) :: fs))
        (w ++ '"'.toUInt8 :: (raw ++ '"'.toUInt8 ::
          (w1 ++ ':'.toUInt8 :: (w2 ++ (c ++ (w3 ++ t))))))
  | membersEnd : Derives (.membersTail []) []
  | membersMore {fs c} (h : Derives (.members fs) c) : Derives (.membersTail fs) (','.toUInt8 :: c)

def DerivesText (j : Json) (s : Bytes) : Prop :=
  ∃ w c w', Ws w ∧ Derives (.value j) c ∧ Ws w' ∧ s = w ++ (c ++ w')

end BamlRest
