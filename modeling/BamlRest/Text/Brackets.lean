import BamlRest.Text.Scalars
import BamlRest.Text.Strings

/-!
# Texts with nested brackets

The scanners that look for the end of a JSON text do not parse it: they follow quotes and count
brackets.
-/

namespace BamlRest

/-! ### Quotes -/

/-- Whether a scan is in a double-quoted string, and after a backslash there. -/
structure QuoteState where
  inString : Bool
  escaped : Bool
  deriving DecidableEq

open QuoteState

def QuoteState.start : QuoteState := ⟨false, false⟩

def QuoteState.step (q : QuoteState) (c : UInt8) : QuoteState :=
  if q.escaped then ⟨true, false⟩
  else if c = '\\' then ⟨true, true⟩
  else if c = '"' then ⟨false, false⟩
  else ⟨true, false⟩

def QuoteState.string : QuoteState := ⟨true, false⟩

def QuoteState.run (q : QuoteState) : Bytes → Option QuoteState
  | [] => some q
  | b :: s => if q.inString then (q.step b).run s else none

theorem QuoteState.run_append (q : QuoteState) (a b : Bytes) :
    q.run (a ++ b) = (q.run a).bind (·.run b) := by
  induction a generalizing q with
  | nil => rfl
  | cons c a ih =>
    simp only [List.cons_append, run]
    split_ifs
    · exact ih _
    · rfl

theorem QuoteState.run_plain {b : UInt8} (hesc : b ≠ '\\') (hquote : b ≠ '"')
    (s) : string.run (b :: s) = string.run s := by
  simp only [run, step, string, Bool.false_eq_true, if_true, if_false, if_neg hesc, if_neg hquote]

theorem isHex_ne : ∀ b : UInt8, isHex b → b ≠ '\\' ∧ b ≠ '"' := by
  grind [isHex, isDigit]

variable {raw : Bytes}

theorem QuoteState.run_content (h : StrState.body.run raw = some .body) :
    string.run raw = some .string := by
  refine StrState.run_body_rec h rfl fun raw _ hitem ih => ?_
  cases hitem with
  | @simple e raw he hrun => exact ih raw (by simp) hrun
  | @unicode h1 h2 h3 h4 raw hex1 hex2 hex3 hex4 hrun =>
    change string.run (h1 :: h2 :: h3 :: h4 :: raw) = _
    rw [run_plain (isHex_ne _ hex1).1 (isHex_ne _ hex1).2,
      run_plain (isHex_ne _ hex2).1 (isHex_ne _ hex2).2,
      run_plain (isHex_ne _ hex3).1 (isHex_ne _ hex3).2,
      run_plain (isHex_ne _ hex4).1 (isHex_ne _ hex4).2, ih raw (by simp +arith) hrun]
  | @plain b raw hesc hquote _ hrun =>
    rw [run_plain hesc hquote, ih raw (by simp) hrun]

variable {b a : Bytes}

theorem QuoteState.run_prefix (h : StrState.body.run (a ++ b) = some .body) :
    ∃ esc, string.run a = some ⟨true, esc⟩ := by
  have hrun := run_content h
  rw [run_append, Option.bind_eq_some_iff] at hrun
  obtain ⟨⟨inString, esc⟩, ha, hb⟩ := hrun
  cases b with
  | nil => cases hb; exact ⟨false, ha⟩
  | cons c b =>
    rw [run] at hb
    split_ifs at hb with hin
    exact ⟨esc, by rw [ha, show inString = true from hin]⟩

/-! ### Nesting -/

def isLooseByte (b : UInt8) : Bool := isWS b || b = ',' || b = ':' || isScalarByte b

theorem isLooseByte_ne : ∀ b : UInt8, isLooseByte b →
    b ≠ '"' ∧ b ≠ '{' ∧ b ≠ '}' ∧ b ≠ '[' ∧ b ≠ ']' :=
  forall_byte (by decide +kernel)

/-- A text whose brackets nest: loose bytes, whole strings and bracketed texts in any order. -/
inductive Nested : Bytes → Prop where
  | nil : Nested []
  | byte {b : UInt8} (h : isLooseByte b) : Nested [b]
  | str {raw : Bytes} (h : StrState.body.run raw = some .body) :
      Nested ('"'.toUInt8 :: (raw ++ ['"'.toUInt8]))
  | append {a b : Bytes} (ha : Nested a) (hb : Nested b) : Nested (a ++ b)
  | object {c} (h : Nested c) : Nested ('{'.toUInt8 :: (c ++ ['}'.toUInt8]))
  | array {c} (h : Nested c) : Nested ('['.toUInt8 :: (c ++ [']'.toUInt8]))

variable {w : Bytes}

theorem nested_of_loose (h : ∀ b ∈ w, isLooseByte b) : Nested w := by
  induction w with
  | nil => exact .nil
  | cons b w ih =>
    simp only [List.mem_cons, forall_eq_or_imp] at h
    exact .append (.byte h.1) (ih h.2)

theorem Nested.cons {b : UInt8} {w : Bytes} (hb : isLooseByte b) (h : Nested w) : Nested (b :: w) :=
  .append (.byte hb) h

theorem nested_of_ws (h : Ws w) : Nested w :=
  nested_of_loose fun b hb => by simp [isLooseByte, h b hb]

theorem nested_of_scalar (h : ∀ b ∈ w, isScalarByte b) : Nested w :=
  nested_of_loose fun b hb => by simp [isLooseByte, h b hb]

variable {c : Bytes}

theorem nested_of_derives {x : Symbol} (h : Derives x c) : Nested c := by
  induction h with
  | null => exact nested_of_scalar null_bytes
  | bool b => exact nested_of_scalar (bool_bytes b)
  | num h => exact nested_of_scalar (isNumber_bytes h)
  | str h => exact .str h.run
  | arrNil hw => exact .array (nested_of_ws hw)
  | arr _ ih => exact .array ih
  | objNil hw => exact .object (nested_of_ws hw)
  | obj _ ih => exact .object ih
  | elem hw _ hw' _ ihv iht =>
    exact .append (nested_of_ws hw) (.append ihv (.append (nested_of_ws hw') iht))
  | elemsEnd | membersEnd => exact .nil
  | elemsMore _ ih | membersMore _ ih => exact .cons (by decide) ih
  | @member k j fs w raw w1 w2 c w3 t hw hk hw1 hw2 _ hw3 _ ihv iht =>
    have hrest : Nested (w1 ++ ':'.toUInt8 :: (w2 ++ (c ++ (w3 ++ t)))) :=
      .append (nested_of_ws hw1) (.cons (by decide)
        (.append (nested_of_ws hw2) (.append ihv (.append (nested_of_ws hw3) iht))))
    have hmember := Nested.append (nested_of_ws hw) (.append (.str hk.run) hrest)
    simpa using hmember

theorem derives_bracketed {j : Json} (h : Derives (.value j) c)
    (hopen : c.head? = some '{'.toUInt8 ∨ c.head? = some '['.toUInt8) :
    ∃ d, Nested d ∧ (c = '{'.toUInt8 :: (d ++ ['}'.toUInt8]) ∨
      c = '['.toUInt8 :: (d ++ [']'.toUInt8])) := by
  cases h with
  | null => exact absurd hopen (by decide)
  | bool b => exact absurd hopen (by cases b <;> decide)
  | num h =>
    simp only [isNumber, decide_eq_true_eq] at h
    obtain ⟨-, b, u, q, q', rfl, hb, -⟩ := scanNumber_eq_some_iff.mp h
    obtain ⟨-, h1, -, h2, -⟩ := startsScalar_ne _ (startsScalar_of_number hb)
    simp only [List.head?_cons, Option.some.injEq] at hopen
    exact absurd hopen (not_or.mpr ⟨h2, h1⟩)
  | str h => exact absurd hopen (by simp)
  | arrNil hw => exact ⟨_, nested_of_ws hw, .inr rfl⟩
  | arr h => exact ⟨_, nested_of_derives h, .inr rfl⟩
  | objNil hw => exact ⟨_, nested_of_ws hw, .inl rfl⟩
  | obj h => exact ⟨_, nested_of_derives h, .inl rfl⟩

/-! ### Balance -/

/-- Follow the brackets of a text outside its strings: the containers that are open, `true` for an
array, and the state of the quotes. -/
def balance : List Bool → QuoteState → Bytes → Option (List Bool × QuoteState)
  | st, q, [] => some (st, q)
  | st, q, c :: s =>
    if q.inString then balance st (q.step c) s
    else if c = '"' then balance st .string s
    else if c = '{' then balance (false :: st) q s
    else if c = '[' then balance (true :: st) q s
    else if c = '}' ∨ c = ']' then
      match st with
      | [] => none
      | arr :: st => if arr = decide (c = ']') then balance st q s else none
    else balance st q s

/-- Every bracket outside strings is closed by its partner, and no string is left open. -/
def bracketBalanced (s : Bytes) : Bool := balance [] .start s = some ([], .start)

theorem balance_append (st : List Bool) (q a b) :
    balance st q (a ++ b) = (balance st q a).bind fun x => balance x.1 x.2 b := by
  induction a generalizing st q with
  | nil => rfl
  | cons c a ih =>
    rw [List.cons_append, balance.eq_def st q (c :: (a ++ b)), balance.eq_def st q (c :: a)]
    simp only [ih]
    split_ifs <;> try rfl
    cases st with
    | nil => rfl
    | cons arr st =>
      simp only
      split_ifs <;> rfl

theorem balance_frame {st st' q q' s} (h : balance st q s = some (st', q')) (base : List Bool) :
    balance (st ++ base) q s = some (st' ++ base, q') := by
  induction s generalizing st q with
  | nil => cases h; rfl
  | cons c s ih =>
    rw [balance.eq_def] at h ⊢
    simp only at h ⊢
    split_ifs at h ⊢ with hin hquote hbrace hbracket hclose
    · exact ih h
    · exact ih h
    · exact ih h
    · exact ih h
    · cases st with
      | nil => cases h
      | cons arr st =>
        simp only [List.cons_append] at h ⊢
        split_ifs at h ⊢
        exact ih h
    · exact ih h

def Neutral (t : Bytes) : Prop := ∀ st, balance st .start t = some (st, .start)

theorem Neutral.nil : Neutral [] := fun _ => rfl

theorem Neutral.append (ha : Neutral a) (hb : Neutral b) : Neutral (a ++ b) := by
  intro st
  rw [balance_append, ha]
  exact hb st

theorem neutral_byte {b} (hb : isLooseByte b) : Neutral [b] := by
  intro st
  obtain ⟨h1, h2, h3, h4, h5⟩ := isLooseByte_ne b hb
  simp only [balance, start, Bool.false_eq_true, if_false, if_neg h1, if_neg h2,
    if_neg h4, h3, h5, or_self]

theorem balance_run {st q q'} (h : q.run raw = some q') : balance st q raw = some (st, q') := by
  induction raw generalizing q with
  | nil => cases h; rfl
  | cons b raw ih =>
    rw [run] at h
    split_ifs at h with hq
    rw [balance.eq_def]
    simp only [if_pos hq, ih h]

theorem neutral_string (h : string.run raw = some .string) :
    Neutral ('"'.toUInt8 :: (raw ++ ['"'.toUInt8])) := by
  intro st
  change balance st .string (raw ++ ['"'.toUInt8]) = _
  rw [balance_append, balance_run h]
  rfl

theorem neutral_object (h : Neutral c) : Neutral ('{'.toUInt8 :: (c ++ ['}'.toUInt8])) := by
  intro st
  change balance (false :: st) .start (c ++ ['}'.toUInt8]) = _
  rw [balance_append, h]
  rfl

theorem neutral_array (h : Neutral c) : Neutral ('['.toUInt8 :: (c ++ [']'.toUInt8])) := by
  intro st
  change balance (true :: st) .start (c ++ [']'.toUInt8]) = _
  rw [balance_append, h]
  rfl

theorem neutral_of_nested {t : Bytes} (h : Nested t) : Neutral t := by
  induction h with
  | nil => exact .nil
  | byte hb => exact neutral_byte hb
  | str h => exact neutral_string (run_content h)
  | append _ _ iha ihb => exact iha.append ihb
  | object _ ih => exact neutral_object ih
  | array _ ih => exact neutral_array ih

theorem not_neutral_open (h : Neutral (a ++ b)) (arr : Bool) :
    ¬Neutral ((if arr then '[' else '{') :: a) := by
  intro hopen
  have hab := h []
  rw [balance_append, Option.bind_eq_some_iff] at hab
  obtain ⟨⟨st, q⟩, ha, -⟩ := hab
  have hframe : balance [] .start ((if arr then '[' else '{') :: a) =
      some (st ++ [arr], q) := by
    cases arr <;> exact balance_frame ha _
  rw [hopen []] at hframe
  simp at hframe

end BamlRest
