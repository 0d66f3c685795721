import BamlRest.Text.Json

/-!
# Binary64 numbers and `strconv`

IEEE 754 binary64 values with exact rational rounding, and the functions of Go's `strconv` and
`math` packages on them.
-/

namespace BamlRest

/-- A binary64 value; `fin neg m e` stands for `± m * 2 ^ e`. -/
inductive F64 where
  | nan
  | inf (neg : Bool)
  | fin (neg : Bool) (m : ℕ) (e : ℤ)
  deriving DecidableEq

namespace F64

/-- `p * b ^ k` over `q` as a fraction of natural numbers. -/
def scale (b p q : ℕ) (k : ℤ) : ℕ × ℕ :=
  if 0 ≤ k then (p * b ^ k.toNat, q) else (p, q * b ^ (-k).toNat)

/-- The fraction `p / q` is below one. -/
def belowOne (f : ℕ × ℕ) : Bool := f.1 < f.2

/-- The nearest value to `± p / q`, ties to even; an infinity beyond the finite range. -/
def roundRat (neg : Bool) (p q : ℕ) : F64 :=
  if p = 0 then .fin neg 0 0
  else
    let e0 : ℤ := (p.log2 : ℤ) - q.log2
    let e := if belowOne (scale 2 p q (-e0)) then e0 - 1 else e0
    let k := max (e - 52) (-1074)
    let (a, b) := scale 2 p q (-k)
    let m := a / b
    let r := a % b
    let m := if b < 2 * r ∨ (b = 2 * r ∧ m % 2 = 1) then m + 1 else m
    let (m, k) := if m = 2 ^ 53 then (2 ^ 52, k + 1) else (m, k)
    if 971 < k then .inf neg else .fin neg m k

def ratio (m : ℕ) (e : ℤ) : ℕ × ℕ := scale 2 m 1 e

def isNaN : F64 → Bool
  | .nan => true
  | _ => false

def isInf : F64 → Bool
  | .inf _ => true
  | _ => false

/-- `float64(n)` for an integer. -/
def ofInt (n : ℤ) : F64 := roundRat (n < 0) n.natAbs 1

end F64

/-! ### Integers -/

/-- The digits of a decimal numeral, none where a byte is no digit. -/
def decimalNat : ℕ → Bytes → Option ℕ
  | n, [] => some n
  | n, b :: s => if isDigit b then decimalNat (n * 10 + (b.toNat - 0x30)) s else none

/-- `strconv.ParseUint(s, 10, 64)`. -/
def parseUint64 (s : Bytes) : Option ℕ :=
  if s = [] then none
  else (decimalNat 0 s).bind fun n => if n < 2 ^ 64 then some n else none

/-- `strconv.ParseInt(s, 10, 64)`. -/
def parseInt64 (s : Bytes) : Option ℤ :=
  match s with
  | [] => none
  | b :: r =>
    let neg : Bool := b = '-'
    let ds := if b = '+' ∨ b = '-' then r else s
    (parseUint64 ds).bind fun n =>
      if !neg && 2 ^ 63 ≤ n then none
      else if neg && 2 ^ 63 < n then none
      else some (if neg then -(n : ℤ) else n)

/-! ### `strconv.ParseFloat` -/

/-- The outcome of `strconv.ParseFloat`. A range error comes with the infinity returned. -/
inductive FloatParse where
  | ok (f : F64)
  | rangeErr (f : F64)
  | syntaxErr

def lowerByte (b : UInt8) : UInt8 := if 'A' ≤ b && b ≤ 'Z' then b + 0x20 else b

/-- The infinities and NaN, in any case; only the infinities take a sign. -/
def specialFloat (s : Bytes) : Option F64 :=
  let word (w : Bytes) (t : Bytes) : Bool := t.map lowerByte = w
  let isInfinity (t : Bytes) : Bool := word "inf" t || word "infinity" t
  match s with
  | [] => none
  | b :: r =>
    if b = '+' ∨ b = '-' then if isInfinity r then some (.inf (b = '-')) else none
    else if isInfinity s then some (.inf false)
    else if word "nan" s then some .nan
    else none

/-- What the mantissa loop of `readFloat` has read. -/
structure Mantissa where
  value : ℕ := 0
  fracDigits : ℕ := 0
  sawDot : Bool := false
  sawDigits : Bool := false
  underscores : Bool := false

/-- The mantissa loop of `readFloat`. -/
def readMantissa (hex : Bool) : Mantissa → Bytes → Mantissa × Bytes
  | m, [] => (m, [])
  | m, c :: s =>
    if c = '_' then readMantissa hex { m with underscores := true } s
    else if c = '.' then
      if m.sawDot then (m, c :: s) else readMantissa hex { m with sawDot := true } s
    else if isDigit c || (hex && isHex c) then
      readMantissa hex
        { m with
          value := m.value * (if hex then 16 else 10) + hexVal c
          fracDigits := if m.sawDot then m.fracDigits + 1 else m.fracDigits
          sawDigits := true } s
    else (m, c :: s)

/-- The exponent digits of `readFloat`; beyond 10000 more digits are ignored. -/
def readExponent : ℕ → Bool → Bytes → ℕ × Bool × Bytes
  | e, us, [] => (e, us, [])
  | e, us, c :: s =>
    if c = '_' then readExponent e true s
    else if isDigit c then readExponent (if e < 10000 then e * 10 + hexVal c else e) us s
    else (e, us, c :: s)

/-- The class of the last byte in `underscoreOK`. -/
inductive Saw where
  | start
  | digit
  | underscore
  | other
  deriving DecidableEq

/-- The loop of `underscoreOK`: every underscore stands between digits. -/
def underscoreLoop (hex : Bool) : Saw → Bytes → Bool
  | saw, [] => saw ≠ .underscore
  | saw, c :: s =>
    if isDigit c || (hex && isHex c) then underscoreLoop hex .digit s
    else if c = '_' then if saw = .digit then underscoreLoop hex .underscore s else false
    else if saw = .underscore then false
    else underscoreLoop hex .other s

/-- `underscoreOK` on a numeral without its sign. A base prefix counts as a digit. -/
def underscoreOK : Bytes → Bool
  | z :: x :: s =>
    let x' := lowerByte x
    if z = '0' ∧ (x' = 'b' ∨ x' = 'o' ∨ x' = 'x') then underscoreLoop (x' = 'x') .digit s
    else underscoreLoop false .start (z :: x :: s)
  | s => underscoreLoop false .start s

/-- The exponent part of a numeral: none on a syntax error. The flag says that an underscore
was read. -/
def readExponentPart (expChar : UInt8) : Bytes → Option (ℤ × Bool × Bytes)
  | [] => some (0, false, [])
  | c :: s =>
    if lowerByte c ≠ expChar then some (0, false, c :: s)
    else
      let neg : Bool := s.head? = some '-'.toUInt8
      let ds := if s.head? = some '-'.toUInt8 ∨ s.head? = some '+'.toUInt8 then s.tail else s
      match ds with
      | [] => none
      | d :: _ =>
        if isDigit d then
          let (e, us, r) := readExponent 0 false ds
          some (if neg then -(e : ℤ) else e, us, r)
        else none

/-- `readFloat` and the conversion after it, on a numeral without its sign. -/
def readFloat (neg : Bool) (s : Bytes) : FloatParse :=
  let hex : Bool := match s with
    | z :: x :: _ :: _ => z = '0' && lowerByte x = 'x'
    | _ => false
  let (m, r) := readMantissa hex {} (if hex then s.drop 2 else s)
  if !m.sawDigits then .syntaxErr
  else if hex && (r.head?.map lowerByte ≠ some 'p'.toUInt8) then .syntaxErr
  else
    match readExponentPart (if hex then 'p' else 'e') r with
    | none => .syntaxErr
    | some (e, us, rest) =>
      if rest ≠ [] then .syntaxErr
      else if (m.underscores || us) && !underscoreOK s then .syntaxErr
      else
        let (p, q) :=
          if hex then F64.scale 2 m.value 1 (e - 4 * m.fracDigits)
          else F64.scale 10 m.value 1 (e - m.fracDigits)
        let f := F64.roundRat neg p q
        if f.isInf then .rangeErr f else .ok f

/-- `strconv.ParseFloat(s, 64)`. -/
def parseFloat (s : Bytes) : FloatParse :=
  match specialFloat s with
  | some f => .ok f
  | none =>
    match s with
    | [] => .syntaxErr
    | b :: r => if b = '+' ∨ b = '-' then readFloat (b = '-') r else readFloat false s

/-! ### `strconv.FormatFloat` -/

def natDigits (n : ℕ) : Bytes := (Nat.toDigits 10 n).map Char.toUInt8

/-- `±` in front of a numeral. -/
def signed (neg : Bool) (s : Bytes) : Bytes := if neg then 0x2d :: s else s

end BamlRest
