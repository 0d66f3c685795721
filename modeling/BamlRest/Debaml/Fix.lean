import BamlRest.Debaml.Value

/-!
# The fixing parsers

`internal/debaml/fix.go`: the conservative fixing pass `fixParse` over a candidate span and its
streaming variant `streamFix`, which closes what the end of input leaves open and marks it
incomplete.
-/

namespace BamlRest

open Option List

/-- The collection around a value: it determines what ends a bare scalar. -/
inductive Term where
  | top
  | objectValue
  | arrayValue
  deriving DecidableEq

/-- The byte ends a bare value there. -/
def Term.has : Term → UInt8 → Bool
  | .top, _ => false
  | .objectValue, b => b = ',' || b = '}'
  | .arrayValue, b => b = ',' || b = ']'

/-! ### Keys and bare scalars -/

def keyBailBytes : Bytes := "\x7b\x7d[],\"'`"

def scalarBailBytes : Bytes := "\x7b\x7d[]:\"'`"

/-- `parseUnquotedKey`: the key, none where it declines, and the position it stops at. -/
def parseUnquotedKey (s : Bytes) : Option Bytes × Bytes :=
  let inKey (c : UInt8) : Bool := !(c = ':' || isWS c || c ∈ keyBailBytes)
  let run := s.takeWhile inKey
  let rest := s.dropWhile inKey
  if rest.head?.any (· ∈ keyBailBytes) then (none, rest)
  else if trimSpace run = [] then (none, rest)
  else (some (trimSpace run), rest)

/-- The run of a bare scalar and what follows it, none at a byte outside the subset. -/
def scalarRun (term : Term) (s : Bytes) : Option (Bytes × Bytes) :=
  let inRun (c : UInt8) : Bool := !(isWS c || term.has c || c ∈ scalarBailBytes)
  let run := s.takeWhile inRun
  let rest := s.dropWhile inRun
  if rest.head?.any (fun c => !isWS c && !term.has c) then none
  else if trimSpace run = [] then none
  else some (run, rest)

def keyword (s : Bytes) : Option Value :=
  if s = "true" then some (.bool false true)
  else if s = "false" then some (.bool false false)
  else if s = "null" then some (.null false)
  else none

/-- A bare token: a keyword, a number, or a string. -/
def classifyScalar (raw : Bytes) : Option Value :=
  let s := trimSpace raw
  match keyword s with
  | some v => some v
  | none => if jsonValid s then some (.number false false s) else none

def classifyScalarSerde (raw : Bytes) : Option Value :=
  let s := trimSpace raw
  match keyword s with
  | some v => some v
  | none => if bamlNumberToken s then some (.number false false s) else some (.string false s)

def classifyScalarMode (raw : Bytes) (nm : NumMode) : Option Value :=
  if nm = .serde then classifyScalarSerde raw else classifyScalar raw

variable {s : Bytes} {v : Value}

theorem leaf_of_keyword (h : keyword s = some v) : v.IsLeaf := by
  simp only [keyword] at h
  split_ifs at h <;> cases h <;> exact ⟨rfl, rfl⟩

variable {nm : NumMode}

theorem leaf_of_classifyScalarMode {raw} (h : classifyScalarMode raw nm = some v) : v.IsLeaf := by
  simp only [classifyScalarMode] at h
  split at h
  · simp only [classifyScalarSerde] at h
    split at h
    · next hk => exact leaf_of_keyword (h ▸ hk)
    · split at h <;> cases h <;> exact ⟨rfl, rfl⟩
  simp only [classifyScalar] at h
  split at h
  · next hk => exact leaf_of_keyword (h ▸ hk)
  · split at h <;> cases h
    exact ⟨rfl, rfl⟩

def closesValue (b : UInt8) : Bool := b = ' ' || b = '\n' || b = '}'

/-- `parseUnquotedScalar`. -/
def parseUnquotedScalar (nm : NumMode) (term : Term) (s : Bytes) : Option (Value × Bytes) :=
  (scalarRun term s).bind fun (raw, rest) =>
    match skipWS rest with
    | [] => none
    | c :: r =>
      if !term.has c then none
      else if term = .objectValue ∧ c = ',' ∧ !r.head?.any closesValue then none
      else (classifyScalarMode raw nm).map fun v => (v, c :: r)

/-! ### Quoted strings -/

/-- `decodeDoubleQuoteEscape`: the byte an escape of the set of BAML stands for. -/
def decodeDoubleQuoteEscape (e : UInt8) : Option UInt8 :=
  if e = '"' then some '"'
  else if e = '\\' then some '\\'
  else if e = 'n' then some '\n'
  else if e = 't' then some '\t'
  else if e = 'r' then some '\r'
  else if e = 'b' then some 0x08
  else if e = 'f' then some 0x0c
  else none

/-- What reading a string came to. -/
inductive StrRead where
  | err (rest : Bytes)
  | closed (s rest : Bytes)
  | eof (s : Bytes)

open StrRead

def StrRead.push (b : UInt8) : StrRead → StrRead
  | .err r => .err r
  | .closed s r => .closed (b :: s) r
  | .eof s => .eof (b :: s)

/-- The loop of `parseDoubleQuoted` (`embedded := true`) and of `parseDoubleQuotedStream`, which
declines an escaped quote. -/
def readDoubleQuoted (embedded : Bool) : Bytes → StrRead
  | [] => .eof []
  | c :: r =>
    if c = '\\' then
      match r with
      | [] => .eof [c]
      | e :: r' =>
        if !embedded && e = '"' then .err (c :: e :: r')
        else
          match decodeDoubleQuoteEscape e with
          | some b => (readDoubleQuoted embedded r').push b
          | none => (readDoubleQuoted embedded (e :: r')).push c
    else if c = '"' then .closed [] r
    else (readDoubleQuoted embedded r).push c

theorem readDoubleQuoted_quote (embedded : Bool) (r) :
    readDoubleQuoted embedded ('"'.toUInt8 :: r) = .closed [] r := by
  rw [readDoubleQuoted.eq_def]
  rfl

theorem readDoubleQuoted_plain (embedded : Bool) {c : UInt8} (h1 : c ≠ '\\') (h2 : c ≠ '"') (r) :
    readDoubleQuoted embedded (c :: r) = (readDoubleQuoted embedded r).push c := by
  rw [readDoubleQuoted.eq_def]
  simp only [h1, h2, if_false]

theorem readDoubleQuoted_escaped_quote (r) :
    readDoubleQuoted false ('\\'.toUInt8 :: '"'.toUInt8 :: r) =
      .err ('\\'.toUInt8 :: '"'.toUInt8 :: r) := by
  rw [readDoubleQuoted.eq_def]
  rfl

theorem readDoubleQuoted_escape (embedded : Bool) {e b}
    (he : decodeDoubleQuoteEscape e = some b) (hq : embedded ∨ e ≠ '"') (r) :
    readDoubleQuoted embedded ('\\'.toUInt8 :: e :: r) = (readDoubleQuoted embedded r).push b := by
  have hnot : (!embedded && decide (e = '"')) = false := by
    rcases hq with rfl | hq
    · rfl
    · rw [decide_eq_false hq, Bool.and_false]
  rw [readDoubleQuoted.eq_def]
  simp only [if_true, hnot, Bool.false_eq_true, if_false, he]

theorem readDoubleQuoted_literal (embedded : Bool) {e} (he : decodeDoubleQuoteEscape e = none) (r) :
    readDoubleQuoted embedded ('\\'.toUInt8 :: e :: r) =
      (readDoubleQuoted embedded (e :: r)).push '\\' := by
  have hnot : (!embedded && decide (e = '"')) = false := by
    have hq : e ≠ '"' := by rintro rfl; cases he
    rw [decide_eq_false hq, Bool.and_false]
  rw [readDoubleQuoted.eq_def]
  simp only [if_true, hnot, Bool.false_eq_true, if_false, he]

variable {x : StrRead} {r t : Bytes}

theorem StrRead.push_eq_closed_iff {b} :
    x.push b = .closed t r ↔ ∃ t', t = b :: t' ∧ x = .closed t' r := by
  cases x <;> simp [push, and_left_comm, eq_comm]

/-- The loop of `parseSingleQuoted` and `parseSingleQuotedStream`. -/
def readSingleQuoted : Bytes → StrRead
  | [] => .eof []
  | c :: r =>
    if c = '\\' then .err (c :: r)
    else if c = '\'' then .closed [] r
    else (readSingleQuoted r).push c

def tripleQuoted (s : Bytes) : Bool := (bytes "\"\"\"").isPrefixOf s

def StrRead.closed? : StrRead → Option (Bytes × Bytes)
  | .closed s r => some (s, r)
  | .err _ | .eof _ => none

/-- `parseDoubleQuoted`, at the opening quote. -/
def parseDoubleQuoted (s : Bytes) : Option (Bytes × Bytes) :=
  if tripleQuoted s then none else (readDoubleQuoted true s.tail).closed?

/-- `parseSingleQuoted`, at the opening quote. -/
def parseSingleQuoted (s : Bytes) : Option (Bytes × Bytes) := (readSingleQuoted s.tail).closed?

/-- `parseDoubleQuotedStream`, at the opening quote. -/
def parseDoubleQuotedStream (s : Bytes) : StrRead :=
  if tripleQuoted s then .err s else readDoubleQuoted false s.tail

/-- `parseSingleQuotedStream`, at the opening quote. -/
def parseSingleQuotedStream (s : Bytes) : StrRead := readSingleQuoted s.tail

def StrRead.value : StrRead → Option (Value × Bytes)
  | .err _ => none
  | .closed s r => some (.string false s, r)
  | .eof s => some (.string true s, [])

/-- `parseKey`. -/
def parseKey (s : Bytes) : Option (Bytes × Bytes) :=
  match skipWS s with
  | [] => none
  | c :: r =>
    if c = '"' then parseDoubleQuoted (c :: r)
    else if c = '\'' then parseSingleQuoted (c :: r)
    else if c = '`' then none
    else
      match parseUnquotedKey (c :: r) with
      | (some key, rest) => some (key, rest)
      | (none, _) => none

/-- A streaming key: only a closed string is one. The position is kept on failure. -/
def StrRead.key : StrRead → Option Bytes × Bytes
  | .err r => (none, r)
  | .closed s r => (some s, r)
  | .eof _ => (none, [])

/-- `parseKeyStream`: the key, none where it is unfinished or unparseable, and the position. -/
def parseKeyStream (s : Bytes) : Option Bytes × Bytes :=
  match skipWS s with
  | [] => (none, [])
  | c :: r =>
    if c = '"' then (parseDoubleQuotedStream (c :: r)).key
    else if c = '\'' then (parseSingleQuotedStream (c :: r)).key
    else if c = '`' then (none, c :: r)
    else parseUnquotedKey (c :: r)

/-! ### The final parser -/

/-- A call of `parseValue`, or a round of the loop of `parseObject` or `parseArray`. -/
inductive FixCall where
  | value (term : Term) (s : Bytes)
  | object (fs : List Field) (s : Bytes)
  | array (vs : List Value) (s : Bytes)

open FixCall

def FixCall.text : FixCall → Bytes
  | .value _ s | .object _ s | .array _ s => s

/-- A round of a loop may start with a value, and a value that opens a container takes the
bracket off the text. -/
def FixCall.size : FixCall → ℕ
  | .value _ s => 2 * s.length
  | .object _ s | .array _ s => 2 * s.length + 1

section

variable (nm : NumMode) (rec : FixCall → Option (Value × Bytes))

/-- The body of `parseValue`. -/
def parseValueF (term : Term) (s : Bytes) : Option (Value × Bytes) :=
  match skipWS s with
  | [] => none
  | c :: r =>
    if c = '{' then rec (.object [] r)
    else if c = '[' then rec (.array [] r)
    else if c = '"' then (parseDoubleQuoted (c :: r)).map fun (t, r') => (.string false t, r')
    else if c = '\'' then (parseSingleQuoted (c :: r)).map fun (t, r') => (.string false t, r')
    else if c = '`' ∨ c = '/' ∨ c = '#' then none
    else parseUnquotedScalar nm term (c :: r)

/-- One round of the loop of `parseObject`. -/
def parseObjectF (fs : List Field) (s : Bytes) : Option (Value × Bytes) :=
  match skipWS s with
  | [] => none
  | c :: r =>
    if c = '}' then some (.object false fs, r)
    else if c = ',' then rec (.object fs r)
    else
      (parseKey (c :: r)).bind fun (key, s1) =>
        match skipWS s1 with
        | [] => none
        | c1 :: s2 =>
          if c1 ≠ ':' then none
          else
            (rec (.value .objectValue s2)).bind fun (v, s3) =>
              match skipWS s3 with
              | [] => none
              | c3 :: s4 =>
                if c3 = '}' then some (.object false (fs ++ [(key, v)]), s4)
                else if c3 = ',' then rec (.object (fs ++ [(key, v)]) s4)
                else none

/-- One round of the loop of `parseArray`. -/
def parseArrayF (vs : List Value) (s : Bytes) : Option (Value × Bytes) :=
  match skipWS s with
  | [] => none
  | c :: r =>
    if c = ']' then some (.array false vs, r)
    else if c = ',' then rec (.array vs r)
    else
      (rec (.value .arrayValue (c :: r))).bind fun (v, s1) =>
        match skipWS s1 with
        | [] => none
        | c1 :: s2 =>
          if c1 = ']' then some (.array false (vs ++ [v]), s2)
          else if c1 = ',' then rec (.array (vs ++ [v]) s2)
          else none

/-- The bodies of the mutually recursive functions of the final parser. -/
def fixF : FixCall → Option (Value × Bytes)
  | .value term s => parseValueF nm rec term s
  | .object fs s => parseObjectF rec fs s
  | .array vs s => parseArrayF rec vs s

end

/-- `parseValue`, `parseObject` and `parseArray`. -/
def fixCall (nm : NumMode) : FixCall → Option (Value × Bytes) :=
  fixBy FixCall.size (fixF nm) (fun _ => none)

def startsContainer (s : Bytes) : Bool :=
  (skipWS s).head?.any fun (c : UInt8) => c = '{' || c = '['

/-- `fixParseMode`. -/
def fixParseMode (s : Bytes) (nm : NumMode) : Option Value :=
  if !startsContainer s then none
  else
    match fixCall nm (.value .top s) with
    | some (v, r) => if skipWS r = [] then some v else none
    | none => none

/-- `fixParse`. -/
def fixParse (s : Bytes) : Option Value := fixParseMode s .legacy

/-! ### The streaming parser -/

def isPossibleUnquotedValue (span : Bytes) : Bool :=
  let s := trimSpace span
  let parses : Bool := match parseFloat s with
    | .ok _ => true
    | .rangeErr _ | .syntaxErr => false
  let foldsTo (w : Bytes) : Bool := s.map lowerByte = w
  let longS : Bool := s.length = 6 && (s.take 3).map lowerByte = "fal" &&
    (s.drop 3).take 2 = [0xc5, 0xbf] && (s.drop 5).map lowerByte = "e"
  parses || foldsTo "true" || foldsTo "false" || longS ||
    foldsTo "null" || !(' ' ∈ span || '(' ∈ span)

/-- `greedyObjectValueTail`: the scan from the byte after `span`, which starts at the value. -/
def greedyObjectValueTail : Bytes → Bytes → Option (Value × Bytes)
  | span, [] => some (.string true span, [])
  | span, c :: r =>
    if c = ',' then
      match r with
      | [] => some (.string false span, c :: r)
      | n :: r' =>
        if n = '\n' then some (.string false span, c :: n :: r')
        else if n = ' ' then
          if isPossibleUnquotedValue span then some (.string false span, c :: n :: r') else none
        else greedyObjectValueTail (span ++ [c]) (n :: r')
    else if c = '}' then some (.string false span, c :: r)
    else greedyObjectValueTail (span ++ [c]) r

def parseUnquotedScalarStream (nm : NumMode) (term : Term) (s : Bytes) : Option (Value × Bytes) :=
  (scalarRun term s).bind fun (raw, rest) =>
    match skipWS rest with
    | [] =>
      match classifyScalarMode raw nm with
      | some v => some (v.markIncomplete, [])
      | none => some (.string true raw, [])
    | c :: r =>
      if !term.has c then none
      else if term = .objectValue ∧ c = ',' ∧ r.head?.any (fun n => !closesValue n) then
        greedyObjectValueTail (raw ++ rest.takeWhile isWS) (c :: r)
      else (classifyScalarMode raw nm).map fun v => (v, c :: r)

section

variable (nm : NumMode) (rec : FixCall → Option (Value × Bytes))

/-- The body of `parseValueStream`. -/
def parseValueStreamF (term : Term) (s : Bytes) : Option (Value × Bytes) :=
  match s with
  | [] => none
  | c :: r =>
    if c = '{' then rec (.object [] r)
    else if c = '[' then rec (.array [] r)
    else if c = '"' then (parseDoubleQuotedStream (c :: r)).value
    else if c = '\'' then (parseSingleQuotedStream (c :: r)).value
    else if c = '`' ∨ c = '/' ∨ c = '#' then none
    else parseUnquotedScalarStream nm term (c :: r)

/-- One round of the loop of `parseObjectStream`. -/
def parseObjectStreamF (fs : List Field) (s : Bytes) : Option (Value × Bytes) :=
  match skipWS s with
  | [] => some (.object true fs, [])
  | c :: r =>
    if c = '}' then some (.object false fs, r)
    else if c = ',' then rec (.object fs r)
    else
      match parseKeyStream (c :: r) with
      | (none, s1) => some (.object true fs, s1)
      | (some key, s1) =>
        match skipWS s1 with
        | [] => some (.object true fs, [])
        | c1 :: s2 =>
          if c1 ≠ ':' then none
          else
            match skipWS s2 with
            | [] => some (.object true fs, [])
            | c2 :: r2 =>
              (rec (.value .objectValue (c2 :: r2))).bind fun (v, s3) =>
                match skipWS s3 with
                | [] => some (.object true (fs ++ [(key, v)]), [])
                | c3 :: s4 =>
                  if c3 = '}' then some (.object false (fs ++ [(key, v)]), s4)
                  else if c3 = ',' then rec (.object (fs ++ [(key, v)]) s4)
                  else none

/-- One round of the loop of `parseArrayStream`. -/
def parseArrayStreamF (vs : List Value) (s : Bytes) : Option (Value × Bytes) :=
  match skipWS s with
  | [] => some (.array true vs, [])
  | c :: r =>
    if c = ']' then some (.array false vs, r)
    else if c = ',' then rec (.array vs r)
    else if c = '/' ∧ r = [] then some (.array true vs, [])
    else
      (rec (.value .arrayValue (c :: r))).bind fun (v, s1) =>
        match skipWS s1 with
        | [] => some (.array true (vs ++ [v]), [])
        | c1 :: s2 =>
          if c1 = ']' then some (.array false (vs ++ [v]), s2)
          else if c1 = ',' then rec (.array (vs ++ [v]) s2)
          else none

/-- The bodies of the mutually recursive functions of the streaming parser. -/
def streamF : FixCall → Option (Value × Bytes)
  | .value term s => parseValueStreamF nm rec term s
  | .object fs s => parseObjectStreamF rec fs s
  | .array vs s => parseArrayStreamF rec vs s

end

/-- `parseValueStream`, `parseObjectStream` and `parseArrayStream`. -/
def streamCall (nm : NumMode) : FixCall → Option (Value × Bytes) :=
  fixBy FixCall.size (streamF nm) (fun _ => none)

/-- `streamFixMode`. -/
def streamFixMode (s : Bytes) (nm : NumMode) : Option Value :=
  if !startsContainer s then none
  else
    match streamCall nm (.value .top (skipWS s)) with
    | some (v, r) => if skipWS r = [] then some v else none
    | none => none

/-- `streamFix`. -/
def streamFix (s : Bytes) : Option Value := streamFixMode s .legacy

/-! ### Readers take bytes off the text -/

theorem length_lt_of_skipWS {c} (h : skipWS s = c :: r) : r.length + 1 ≤ s.length := by
  have hle := length_skipWS_le s
  rwa [h, length_cons] at hle

theorem parseUnquotedKey_length_le (s) : (parseUnquotedKey s).2.length ≤ s.length := by
  simp only [parseUnquotedKey]
  split_ifs <;> exact length_dropWhile_le _ s

variable {term : Term}

theorem scalarRun_length_lt {raw rest}
    (h : scalarRun term s = some (raw, rest)) : rest.length < s.length := by
  simp only [scalarRun] at h
  split_ifs at h with h1 h2
  cases h
  have hsplit := congrArg List.length
    (takeWhile_append_dropWhile (p := fun c => !(isWS c || term.has c || c ∈ scalarBailBytes))
      (l := s))
  have hpos : 0 < (s.takeWhile fun c => !(isWS c || term.has c || c ∈ scalarBailBytes)).length :=
    length_pos_iff.mpr fun hnil => h2 (by rw [hnil]; rfl)
  rw [length_append] at hsplit
  omega

def StrRead.rest : StrRead → Bytes
  | .err r | .closed _ r => r
  | .eof _ => []

@[simp] theorem StrRead.rest_push (b : UInt8) (x : StrRead) : (x.push b).rest = x.rest := by
  cases x <;> rfl

theorem readDoubleQuoted_length_le (embedded : Bool) (s : Bytes) :
    (readDoubleQuoted embedded s).rest.length ≤ s.length := by
  fun_induction readDoubleQuoted embedded s with
  | case1 => exact Nat.le_refl _
  | case2 => exact Nat.zero_le _
  | case3 => exact Nat.le_refl _
  | case4 r' e _ b _ ih => simp only [rest_push, length_cons]; omega
  | case5 r' e _ _ ih => simp only [rest_push, length_cons] at ih ⊢; omega
  | case6 => exact Nat.le_succ _
  | case7 c r _ _ ih => simp only [rest_push, length_cons]; omega

theorem readSingleQuoted_length_le (s : Bytes) : (readSingleQuoted s).rest.length ≤ s.length := by
  induction s with
  | nil => simp [readSingleQuoted, rest]
  | cons c r ih =>
    rw [readSingleQuoted]
    split_ifs
    · simp [rest]
    · simp [rest]
    · simp only [rest_push, length_cons]
      omega

theorem StrRead.rest_of_closed? (h : x.closed? = some (t, r)) : x = .closed t r := by
  cases x <;> simp_all [closed?]

theorem parseDoubleQuoted_length_le (h : parseDoubleQuoted s = some (t, r)) :
    r.length ≤ s.length := by
  simp only [parseDoubleQuoted] at h
  split_ifs at h
  have hle := readDoubleQuoted_length_le true s.tail
  rw [rest_of_closed? h, rest, length_tail] at hle
  omega

theorem parseSingleQuoted_length_le (h : parseSingleQuoted s = some (t, r)) :
    r.length ≤ s.length := by
  have hle := readSingleQuoted_length_le s.tail
  rw [rest_of_closed? h, rest, length_tail] at hle
  omega

theorem parseDoubleQuotedStream_length_le (s) :
    (parseDoubleQuotedStream s).rest.length ≤ s.length := by
  simp only [parseDoubleQuotedStream]
  split_ifs
  · exact Nat.le_refl _
  · have hle := readDoubleQuoted_length_le false s.tail
    rw [length_tail] at hle
    omega

theorem parseSingleQuotedStream_length_le (s) :
    (parseSingleQuotedStream s).rest.length ≤ s.length := by
  have hle := readSingleQuoted_length_le s.tail
  rw [length_tail] at hle
  exact Nat.le_trans hle (Nat.sub_le _ _)

theorem StrRead.rest_of_value (h : x.value = some (v, r)) : x.rest = r := by
  cases x <;> simp_all [value, rest]

theorem StrRead.key_snd (x : StrRead) : x.key.2 = x.rest := by
  cases x <;> rfl

theorem parseKey_length_le {key} (h : parseKey s = some (key, r)) : r.length ≤ s.length := by
  simp only [parseKey] at h
  have hws := length_skipWS_le s
  split at h
  · cases h
  next c r' hs =>
  rw [hs] at hws
  split_ifs at h
  · exact Nat.le_trans (parseDoubleQuoted_length_le h) hws
  · exact Nat.le_trans (parseSingleQuoted_length_le h) hws
  have hle := parseUnquotedKey_length_le (c :: r')
  split at h
  · next key' rest hk =>
    cases h
    rw [hk] at hle
    exact Nat.le_trans hle hws
  · cases h

theorem parseKeyStream_length_le (s : Bytes) : (parseKeyStream s).2.length ≤ s.length := by
  simp only [parseKeyStream]
  have hws := length_skipWS_le s
  split
  · exact Nat.zero_le _
  next c r hs =>
  rw [hs] at hws
  split_ifs
  · rw [key_snd]
    exact Nat.le_trans (parseDoubleQuotedStream_length_le _) hws
  · rw [key_snd]
    exact Nat.le_trans (parseSingleQuotedStream_length_le _) hws
  · exact hws
  · exact Nat.le_trans (parseUnquotedKey_length_le _) hws

theorem parseUnquotedScalar_length_le
    (h : parseUnquotedScalar nm term s = some (v, r)) : r.length ≤ s.length := by
  simp only [parseUnquotedScalar, bind_eq_some_iff, Prod.exists] at h
  obtain ⟨raw, rest, hrun, h⟩ := h
  have hle := Nat.le_trans (length_skipWS_le rest) (scalarRun_length_lt hrun).le
  split at h
  · cases h
  next c r' hs =>
  split_ifs at h
  obtain ⟨v', -, he⟩ := map_eq_some_iff.mp h
  cases he
  rwa [hs] at hle

theorem greedyObjectValueTail_length_le {span}
    (h : greedyObjectValueTail span s = some (v, r)) : r.length ≤ s.length := by
  fun_induction greedyObjectValueTail span s with
  | case1 => cases h; exact Nat.le_refl _
  | case2 => cases h; exact Nat.le_refl _
  | case3 => cases h; exact Nat.le_refl _
  | case4 => cases h; exact Nat.le_refl _
  | case5 => cases h
  | case6 _ _ _ _ _ ih => exact Nat.le_succ_of_le (ih h)
  | case7 => cases h; exact Nat.le_refl _
  | case8 _ _ _ _ _ ih => exact Nat.le_succ_of_le (ih h)

theorem parseUnquotedScalarStream_length_lt (h : parseUnquotedScalarStream nm term s = some (v, r)) : r.length < s.length := by
  simp only [parseUnquotedScalarStream, bind_eq_some_iff, Prod.exists] at h
  obtain ⟨raw, rest, hrun, h⟩ := h
  have hlt := Nat.lt_of_le_of_lt (length_skipWS_le rest) (scalarRun_length_lt hrun)
  split at h
  · split at h <;> cases h <;> exact Nat.zero_lt_of_lt hlt
  next c r' hs =>
  rw [hs] at hlt
  split_ifs at h
  · exact Nat.lt_of_le_of_lt (greedyObjectValueTail_length_le h) hlt
  · obtain ⟨v', -, he⟩ := map_eq_some_iff.mp h
    cases he
    exact hlt

/-! ### The recursion equations -/

/-- A call leaves less text than it was given. -/
def FixShrinks (c : FixCall) (x : Option (Value × Bytes)) : Prop :=
  ∀ v r, x = some (v, r) → r.length ≤ c.text.length

section

open SameWithin

variable (nm : NumMode) {f g : FixCall → Option (Value × Bytes)} {c : FixCall}

theorem calls_same (hg : ∀ c, FixShrinks c (g c)) (h : ∀ b, b.size < c.size → f b = g b) :
    (∀ fs t n, 2 * t.length + 1 < c.size → t.length ≤ n →
      SameWithin length n (f (.object fs t)) (g (.object fs t))) ∧
    (∀ vs t n, 2 * t.length + 1 < c.size → t.length ≤ n →
      SameWithin length n (f (.array vs t)) (g (.array vs t))) ∧
    ∀ term t n, 2 * t.length < c.size → t.length ≤ n →
      SameWithin length n (f (.value term t)) (g (.value term t)) :=
  ⟨fun _ _ _ hb hn => ⟨h _ hb, fun v r hr => (hg _ v r hr).trans hn⟩,
    fun _ _ _ hb hn => ⟨h _ hb, fun v r hr => (hg _ v r hr).trans hn⟩,
    fun _ _ _ hb hn => ⟨h _ hb, fun v r hr => (hg _ v r hr).trans hn⟩⟩

/-- The final parser makes its calls at shorter texts, and it takes bytes off the text. -/
theorem fixF_same (hg : ∀ c, FixShrinks c (g c)) (h : ∀ b, b.size < c.size → f b = g b) :
    SameWithin length c.text.length (fixF nm f c) (fixF nm g c) := by
  obtain ⟨hobject, harray, hvalue⟩ := calls_same hg h
  cases c with
  | value term s =>
    simp only [fixF, parseValueF, size, text] at hobject harray ⊢
    split
    · exact none
    next c r hs =>
    have hlen := length_lt_of_skipWS hs
    refine ite (hobject _ _ _ (by omega) (by omega)) (ite (harray _ _ _ (by omega) (by omega))
      (ite (refl ?_) (ite (refl ?_) (ite none
        (refl fun _ _ h => (parseUnquotedScalar_length_le h).trans hlen)))))
    all_goals
      intro v r' h
      obtain ⟨⟨t, r1⟩, ht, ⟨⟩⟩ := map_eq_some_iff.mp h
    · exact (parseDoubleQuoted_length_le ht).trans hlen
    · exact (parseSingleQuoted_length_le ht).trans hlen
  | object fs s =>
    simp only [fixF, parseObjectF, size, text] at hobject hvalue ⊢
    split
    · exact none
    next c r hs =>
    have hlen := length_lt_of_skipWS hs
    refine ite (some (by omega)) (ite (hobject _ _ _ (by omega) (by omega)) ?_)
    refine bind (refl fun _ _ h => parseKey_length_le h) fun key s1 (hlen1 : _ ≤ r.length + 1) => ?_
    dsimp only
    split
    · exact none
    next c1 s2 hs1 =>
    have hlen2 := length_lt_of_skipWS hs1
    refine ite none (bind (hvalue _ _ _ (by omega) le_rfl) fun v s3 hlen3 => ?_)
    dsimp only
    split
    · exact none
    next c3 s4 hs3 =>
    have hlen4 := length_lt_of_skipWS hs3
    exact ite (some (by omega)) (ite (hobject _ _ _ (by omega) (by omega)) none)
  | array vs s =>
    simp only [fixF, parseArrayF, size, text] at harray hvalue ⊢
    split
    · exact none
    next c r hs =>
    have hlen := length_lt_of_skipWS hs
    refine ite (some (by omega)) (ite (harray _ _ _ (by omega) (by omega)) ?_)
    refine bind (hvalue _ (c :: r) _ (by rw [length_cons]; omega) hlen) fun v s1 hlen1 => ?_
    dsimp only
    split
    · exact none
    next c1 s2 hs1 =>
    have hlen2 := length_lt_of_skipWS hs1
    exact ite (some (by omega)) (ite (harray _ _ _ (by omega) (by omega)) none)

/-- The streaming parser does so too. -/
theorem streamF_same (hg : ∀ c, FixShrinks c (g c)) (h : ∀ b, b.size < c.size → f b = g b) :
    SameWithin length c.text.length (streamF nm f c) (streamF nm g c) := by
  obtain ⟨hobject, harray, hvalue⟩ := calls_same hg h
  cases c with
  | value term s =>
    simp only [streamF, parseValueStreamF, size, text] at hobject harray ⊢
    split
    · exact none
    next c r =>
    rw [length_cons] at hobject harray
    refine ite (hobject _ _ _ (by omega) (Nat.le_succ _)) (ite (harray _ _ _ (by omega)
      (Nat.le_succ _)) (ite (refl fun v r' h => ?_) (ite (refl fun v r' h => ?_) (ite none
        (refl fun _ _ h => (parseUnquotedScalarStream_length_lt h).le)))))
    · exact rest_of_value h ▸ parseDoubleQuotedStream_length_le (c :: r)
    · exact rest_of_value h ▸ parseSingleQuotedStream_length_le (c :: r)
  | object fs s =>
    simp only [streamF, parseObjectStreamF, size, text] at hobject hvalue ⊢
    split
    · exact some (Nat.zero_le _)
    next c r hs =>
    have hlen := length_lt_of_skipWS hs
    refine ite (some (by omega)) (ite (hobject _ _ _ (by omega) (by omega)) ?_)
    have hlen1 : _ ≤ r.length + 1 := parseKeyStream_length_le (c :: r)
    split
    · next s1 hkey =>
      rw [hkey] at hlen1
      exact some (hlen1.trans hlen)
    next key s1 hkey =>
    replace hlen1 : s1.length ≤ r.length + 1 := by rwa [hkey] at hlen1
    split
    · exact some (Nat.zero_le _)
    next c1 s2 hs1 =>
    have hlen2 := length_lt_of_skipWS hs1
    refine ite none ?_
    split
    · exact some (Nat.zero_le _)
    next c2 r2 hs2 =>
    have hlen3 := length_lt_of_skipWS hs2
    refine bind (hvalue _ (c2 :: r2) _ (by rw [length_cons]; omega) hlen3) fun v s3 hlen4 => ?_
    dsimp only
    split
    · exact some (Nat.zero_le _)
    next c3 s4 hs3 =>
    have hlen5 := length_lt_of_skipWS hs3
    exact ite (some (by omega)) (ite (hobject _ _ _ (by omega) (by omega)) none)
  | array vs s =>
    simp only [streamF, parseArrayStreamF, size, text] at harray hvalue ⊢
    split
    · exact some (Nat.zero_le _)
    next c r hs =>
    have hlen := length_lt_of_skipWS hs
    refine ite (some (by omega)) (ite (harray _ _ _ (by omega) (by omega)) ?_)
    refine ite (some (Nat.zero_le _)) ?_
    refine bind (hvalue _ (c :: r) _ (by rw [length_cons]; omega) hlen) fun v s1 hlen1 => ?_
    dsimp only
    split
    · exact some (Nat.zero_le _)
    next c1 s2 hs1 =>
    have hlen2 := length_lt_of_skipWS hs1
    exact ite (some (by omega)) (ite (harray _ _ _ (by omega) (by omega)) none)

end

theorem fixF_shrinks (nm f) (hf : ∀ c, FixShrinks c (f c)) (c) : FixShrinks c (fixF nm f c) :=
  (fixF_same nm hf fun _ _ => rfl).2

theorem streamF_shrinks (nm f) (hf : ∀ c, FixShrinks c (f c)) (c) : FixShrinks c (streamF nm f c) :=
  (streamF_same nm hf fun _ _ => rfl).2

theorem fixCall_shrinks (nm c) : FixShrinks c (fixCall nm c) :=
  fixBy_ok (P := FixShrinks) (by simp [FixShrinks]) (fixF_shrinks nm) c

theorem streamCall_shrinks (nm c) : FixShrinks c (streamCall nm c) :=
  fixBy_ok (P := FixShrinks) (by simp [FixShrinks]) (streamF_shrinks nm) c

theorem fixCall_eq (nm c) : fixCall nm c = fixF nm (fixCall nm) c :=
  fixBy_eq (P := FixShrinks) (by simp [FixShrinks]) (fixF_shrinks nm)
    (fun _ _ _ hg _ h => (fixF_same nm hg h).1) c

theorem streamCall_eq (nm c) : streamCall nm c = streamF nm (streamCall nm) c :=
  fixBy_eq (P := FixShrinks) (by simp [FixShrinks]) (streamF_shrinks nm)
    (fun _ _ _ hg _ h => (streamF_same nm hg h).1) c

end BamlRest
