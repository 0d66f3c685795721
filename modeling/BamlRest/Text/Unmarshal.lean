import BamlRest.Debaml.Strict

/-!
# `json.Unmarshal`

What Go's `encoding/json` stores in an `any`, in a map and in a struct of strings.
-/

namespace BamlRest

/-- What an `any` holds after decoding. The keys of a map are distinct. -/
inductive Any where
  | null
  | bool (b : Bool)
  | number (f : F64)
  | string (s : Bytes)
  | array (items : List Any)
  | map (entries : List (Bytes × Any))

/-- `m[k] = v`. -/
def assign {β : Type*} (m : List (Bytes × β)) (k : Bytes) (v : β) : List (Bytes × β) :=
  if m.any (·.1 == k) then m.map fun e => if e.1 = k then (k, v) else e else m ++ [(k, v)]

/-- `m[k]`. -/
def lookup {β : Type*} (m : List (Bytes × β)) (k : Bytes) : Option β :=
  (m.find? (·.1 == k)).map (·.2)

mutual

def Value.depth : Value → ℕ
  | .array _ vs => depthList vs + 1
  | .object _ fs => depthFields fs + 1
  | _ => 0

def Value.depthList : List Value → ℕ
  | [] => 0
  | v :: vs => max v.depth (depthList vs)

def Value.depthFields : List (Bytes × Value) → ℕ
  | [] => 0
  | (_, v) :: fs => max v.depth (depthFields fs)

end

mutual

/-- What is stored for a value; a number that is out of range is an error. -/
def Any.ofValue : Value → Option Any
  | .null _ => some .null
  | .bool _ b => some (.bool b)
  | .number _ _ tok =>
    match parseFloat tok with
    | .ok f => some (.number f)
    | _ => none
  | .string _ s => some (.string s)
  | .array _ vs => (ofValues vs).map .array
  | .object _ fs => (ofFields [] fs).map .map

def Any.ofValues : List Value → Option (List Any)
  | [] => some []
  | v :: vs =>
    match ofValue v with
    | none => none
    | some x => (ofValues vs).map (x :: ·)

def Any.ofFields (m : List (Bytes × Any)) : List (Bytes × Value) → Option (List (Bytes × Any))
  | [] => some m
  | (k, v) :: fs =>
    match ofValue v with
    | none => none
    | some x => ofFields (assign m k x) fs

end

def unmarshalValue (s : Bytes) : Option Value :=
  (strictDecode s).filter fun v => v.depth ≤ 10000

/-- `json.Unmarshal` into an `any`. -/
def unmarshalAny (s : Bytes) : Option Any := (unmarshalValue s).bind Any.ofValue

/-- `json.Unmarshal` into a nil `map[string]any`, which stays nil for `null`. -/
def unmarshalMap (s : Bytes) : Option (List (Bytes × Any)) :=
  match unmarshalAny s with
  | some .null => some []
  | some (.map entries) => some entries
  | _ => none

/-! ### Structs of strings -/

/-- `foldName`, as far as it matters to names in ASCII: letters in upper case, and the two other
runes that fold to a letter of ASCII. -/
def foldName : Bytes → Bytes
  | 0xc5 :: 0xbf :: s => 'S'.toUInt8 :: foldName s
  | 0xe2 :: 0x84 :: 0xaa :: s => 'K'.toUInt8 :: foldName s
  | b :: s => (if 'a' ≤ b && b ≤ 'z' then b - 0x20 else b) :: foldName s
  | [] => []

/-- The field of a struct that a key belongs to: the one of this name, or else the first one whose
name is the same up to case. -/
def structField (names : List Bytes) (key : Bytes) : Option Bytes :=
  if key ∈ names then some key else names.find? fun n => foldName n = foldName key

def storeStrings (names : List Bytes) (m : List (Bytes × Bytes)) :
    List (Bytes × Value) → Option (List (Bytes × Bytes))
  | [] => some m
  | (k, v) :: fs =>
    match structField names k, v with
    | some n, .string _ s => storeStrings names (assign m n s) fs
    | some _, .null _ | none, _ => storeStrings names m fs
    | some _, _ => none

/-- `json.Unmarshal` into a struct of strings; a field without an entry is empty. -/
def unmarshalStrings (names : List Bytes) (s : Bytes) : Option (List (Bytes × Bytes)) :=
  match unmarshalValue s with
  | some (.null _) => some []
  | some (.object _ fs) => storeStrings names [] fs
  | _ => none

end BamlRest
