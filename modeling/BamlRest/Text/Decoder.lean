import BamlRest.Text.Json

/-!
# The token stream of `encoding/json`

`json.Decoder.Token` over a text held in memory, with `UseNumber`: the decoder keeps the rest of the
text, the position inside the innermost container and a stack of the positions around it.
-/

namespace BamlRest

/-- The position of the decoder inside the innermost container. -/
inductive TokenState where
  | topValue
  | arrayStart
  | arrayValue
  | arrayComma
  | objectStart
  | objectKey
  | objectColon
  | objectValue
  | objectComma
  deriving DecidableEq

/-- `tokenValueAllowed`. -/
def TokenState.valueAllowed : TokenState → Bool
  | .topValue | .arrayStart | .arrayValue | .objectValue => true
  | _ => false

/-- `tokenValueEnd`: the position after a complete value. -/
def TokenState.valueEnd : TokenState → TokenState
  | .arrayStart | .arrayValue => .arrayComma
  | .objectValue => .objectComma
  | q => q

/-- A token. The delimiters are `{`, `}`, `[` and `]`. -/
inductive Token where
  | delim (c : UInt8)
  | str (s : Bytes)
  | num (tok : Bytes)
  | bool (b : Bool)
  | null
  deriving DecidableEq

structure Decoder where
  rest : Bytes
  state : TokenState
  stack : List TokenState
  deriving DecidableEq

/-- What a call of `Token` returns. -/
inductive TokenResult where
  | eof
  | error
  | token (t : Token) (d : Decoder)
  deriving DecidableEq

open TokenResult

/-- The literal `lit` at the front of a text. -/
def scanLiteral (lit s : Bytes) : Option Bytes :=
  if lit.isPrefixOf s then some (s.drop lit.length) else none

def scanScalar (s : Bytes) : Option (Token × Bytes) :=
  match s with
  | [] => none
  | b :: r =>
    if b = '"' then
      (scanString .body r).bind fun (raw, r') => (unquote raw).map fun t => (.str t, r')
    else if b = 't' then (scanLiteral "true" s).map fun r' => (.bool true, r')
    else if b = 'f' then (scanLiteral "false" s).map fun r' => (.bool false, r')
    else if b = 'n' then (scanLiteral "null" s).map fun r' => (.null, r')
    else (scanNumber s).map fun (t, r') => (.num t, r')

/-- Close a container: back to the position around it, after a value. -/
def closeDelim (c : UInt8) (stack : List TokenState) (r : Bytes) : TokenResult :=
  match stack with
  | [] => .error
  | q :: stack => .token (.delim c) ⟨r, q.valueEnd, stack⟩

/-- `Decoder.Token`, on the rest of the text. -/
def nextToken (q : TokenState) (stack : List TokenState) : Bytes → TokenResult
  | [] => .eof
  | c :: r =>
    if isWS c then nextToken q stack r
    else if c = '[' then
      if q.valueAllowed then .token (.delim c) ⟨r, .arrayStart, q :: stack⟩ else .error
    else if c = ']' then
      if q = .arrayStart ∨ q = .arrayComma then closeDelim c stack r else .error
    else if c = '{' then
      if q.valueAllowed then .token (.delim c) ⟨r, .objectStart, q :: stack⟩ else .error
    else if c = '}' then
      if q = .objectStart ∨ q = .objectComma then closeDelim c stack r else .error
    else if c = ':' then
      if q = .objectColon then nextToken .objectValue stack r else .error
    else if c = ',' then
      if q = .arrayComma then nextToken .arrayValue stack r
      else if q = .objectComma then nextToken .objectKey stack r
      else .error
    else if c = '"' ∧ (q = .objectStart ∨ q = .objectKey) then
      match (scanString .body r).bind fun (raw, r') => (unquote raw).map fun t => (t, r') with
      | some (t, r') => .token (.str t) ⟨r', .objectColon, stack⟩
      | none => .error
    else if q.valueAllowed then
      match scanScalar (c :: r) with
      | some (t, r') => .token t ⟨r', q.valueEnd, stack⟩
      | none => .error
    else .error

def Decoder.token (d : Decoder) : TokenResult := nextToken d.state d.stack d.rest

/-- `json.NewDecoder` on a text. -/
def newDecoder (s : Bytes) : Decoder := ⟨s, .topValue, []⟩

/-! ### Progress -/

variable {s : Bytes} {t : Token}

theorem scanScalar_length_lt {r} (h : scanScalar s = some (t, r)) : r.length < s.length := by
  have hlit : ∀ {lit : Bytes} {u : Token}, 0 < lit.length →
      (scanLiteral lit s).map (fun r' => (u, r')) = some (t, r) → r.length < s.length := by
    intro lit u hpos hl
    simp only [scanLiteral, Option.map_eq_some_iff, Prod.mk.injEq] at hl
    obtain ⟨r', hr', -, rfl⟩ := hl
    split at hr'
    · next hpre =>
      obtain rfl : s.drop lit.length = r' := Option.some.inj hr'
      have := (List.isPrefixOf_iff_prefix.mp hpre).length_le
      rw [List.length_drop]
      omega
    · exact absurd hr' (by simp)
  cases s with
  | nil => simp [scanScalar] at h
  | cons b s =>
    simp only [scanScalar] at h
    split at h
    · simp only [Option.bind_eq_some_iff, Prod.exists, Option.map_eq_some_iff, Prod.mk.injEq] at h
      obtain ⟨raw, r', hscan, u, -, -, rfl⟩ := h
      obtain ⟨rfl, -⟩ := scanString_eq_some_iff.mp hscan
      simp only [List.length_cons, List.length_append]
      omega
    split at h
    · exact hlit (by decide) h
    split at h
    · exact hlit (by decide) h
    split at h
    · exact hlit (by decide) h
    simp only [Option.map_eq_some_iff, Prod.exists, Prod.mk.injEq] at h
    obtain ⟨tok, r', hscan, -, rfl⟩ := h
    obtain ⟨hs, c, u, -, -, rfl, -⟩ := scanNumber_eq_some_iff.mp hscan
    rw [hs]
    simp only [List.length_cons, List.length_append]
    omega

/-- What a call of `Token` can do, from a position and the rest of the text. -/
inductive TokenRead (stack : List TokenState) :
    TokenState → Bytes → Token → Decoder → Prop where
  | ws {q c r t d} (hc : isWS c) (h : TokenRead stack q r t d) : TokenRead stack q (c :: r) t d
  | colon {r t d} (h : TokenRead stack .objectValue r t d) :
      TokenRead stack .objectColon (':'.toUInt8 :: r) t d
  | arrayComma {r t d} (h : TokenRead stack .arrayValue r t d) :
      TokenRead stack .arrayComma (','.toUInt8 :: r) t d
  | objectComma {r t d} (h : TokenRead stack .objectKey r t d) :
      TokenRead stack .objectComma (','.toUInt8 :: r) t d
  | openArray {q r} (hq : q.valueAllowed) :
      TokenRead stack q ('['.toUInt8 :: r) (.delim '[') ⟨r, .arrayStart, q :: stack⟩
  | openObject {q r} (hq : q.valueAllowed) :
      TokenRead stack q ('{'.toUInt8 :: r) (.delim '{') ⟨r, .objectStart, q :: stack⟩
  | closeArray {q r q0 st} (hq : q = .arrayStart ∨ q = .arrayComma) (hs : stack = q0 :: st) :
      TokenRead stack q (']'.toUInt8 :: r) (.delim ']') ⟨r, q0.valueEnd, st⟩
  | closeObject {q r q0 st} (hq : q = .objectStart ∨ q = .objectComma) (hs : stack = q0 :: st) :
      TokenRead stack q ('}'.toUInt8 :: r) (.delim '}') ⟨r, q0.valueEnd, st⟩
  | key {q raw r t} (hq : q = .objectStart ∨ q = .objectKey) (ht : IsStr raw t) :
      TokenRead stack q ('"'.toUInt8 :: (raw ++ '"'.toUInt8 :: r)) (.str t) ⟨r, .objectColon, stack⟩
  | scalar {q s t r} (hq : q.valueAllowed) (ht : scanScalar s = some (t, r)) :
      TokenRead stack q s t ⟨r, q.valueEnd, stack⟩

variable {stack : List TokenState} {d : Decoder}

theorem tokenRead_of_closeDelim {c r} (h : closeDelim c stack r = .token t d) :
    ∃ q st, stack = q :: st ∧ t = .delim c ∧ d = ⟨r, q.valueEnd, st⟩ := by
  cases stack with
  | nil => simp [closeDelim] at h
  | cons q st =>
    simp only [closeDelim, token.injEq] at h
    exact ⟨q, st, rfl, h.1.symm, h.2.symm⟩

/-- **Every token that `Token` returns is read in one of these ways.** -/
theorem tokenRead_of_nextToken {q} (h : nextToken q stack s = .token t d) : TokenRead stack q s t d := by
  induction s generalizing q with
  | nil => simp [nextToken] at h
  | cons c r ih =>
    rw [nextToken] at h
    by_cases hws : isWS c
    · rw [if_pos hws] at h
      exact .ws hws (ih h)
    rw [if_neg hws] at h
    by_cases hc : c = '['
    · rw [if_pos hc] at h
      subst hc
      split at h
      · next hq =>
        obtain ⟨rfl, rfl⟩ := token.inj h
        exact .openArray hq
      · cases h
    rw [if_neg hc] at h
    by_cases hc : c = ']'
    · rw [if_pos hc] at h
      subst hc
      split at h
      · next hq =>
        obtain ⟨q0, st, hs, rfl, rfl⟩ := tokenRead_of_closeDelim h
        exact .closeArray hq hs
      · cases h
    rw [if_neg hc] at h
    by_cases hc : c = '{'
    · rw [if_pos hc] at h
      subst hc
      split at h
      · next hq =>
        obtain ⟨rfl, rfl⟩ := token.inj h
        exact .openObject hq
      · cases h
    rw [if_neg hc] at h
    by_cases hc : c = '}'
    · rw [if_pos hc] at h
      subst hc
      split at h
      · next hq =>
        obtain ⟨q0, st, hs, rfl, rfl⟩ := tokenRead_of_closeDelim h
        exact .closeObject hq hs
      · cases h
    rw [if_neg hc] at h
    by_cases hc : c = ':'
    · rw [if_pos hc] at h
      subst hc
      split at h
      · next hq => exact hq ▸ .colon (ih h)
      · cases h
    rw [if_neg hc] at h
    by_cases hc : c = ','
    · rw [if_pos hc] at h
      subst hc
      split at h
      · next hq => exact hq ▸ .arrayComma (ih h)
      split at h
      · next hq => exact hq ▸ .objectComma (ih h)
      · cases h
    rw [if_neg hc] at h
    by_cases hc : c = '"' ∧ (q = .objectStart ∨ q = .objectKey)
    · rw [if_pos hc] at h
      obtain ⟨rfl, hq⟩ := hc
      split at h
      · next t' r' hs =>
        simp only [Option.bind_eq_some_iff, Prod.exists, Option.map_eq_some_iff,
          Prod.mk.injEq] at hs
        obtain ⟨raw, r'', hscan, u, hu, rfl, rfl⟩ := hs
        obtain ⟨rfl, hrun⟩ := scanString_eq_some_iff.mp hscan
        obtain ⟨rfl, rfl⟩ := token.inj h
        exact .key hq ⟨hrun, hu⟩
      · cases h
    rw [if_neg hc] at h
    split at h
    · next hq =>
      split at h
      · next t' r' hs =>
        obtain ⟨rfl, rfl⟩ := token.inj h
        exact .scalar hq hs
      · cases h
    · cases h

theorem TokenRead.length_lt {q} (h : TokenRead stack q s t d) : d.rest.length < s.length := by
  induction h with
  | ws _ _ ih => exact Nat.lt_succ_of_lt ih
  | colon _ ih => exact Nat.lt_succ_of_lt ih
  | arrayComma _ ih => exact Nat.lt_succ_of_lt ih
  | objectComma _ ih => exact Nat.lt_succ_of_lt ih
  | openArray | openObject | closeArray | closeObject => simp
  | key _ _ =>
    simp only [List.length_cons, List.length_append]
    omega
  | scalar _ ht => exact scanScalar_length_lt ht

end BamlRest
