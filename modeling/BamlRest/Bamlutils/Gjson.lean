import BamlRest.Bamlutils.StdJson

/-!
# JSON as `gjson` shows it

Provider responses are read with `gjson`, which looks up paths in the text of a document without
decoding the whole of it. The library is the parameter `Gjson`, with the law that lookups in a valid
text are lookups in the value `Doc` that it stands for; `stdGjson` is an instance that reads by the
grammar of JSON.
-/

namespace BamlRest.BuildRequest

/-- A JSON value; `raw` is its text in the document, and a string also has the text it stands for. -/
inductive Doc where
  | null
  | bool (b : Bool)
  | num (raw : Bytes)
  | str (raw text : Bytes)
  | arr (raw : Bytes) (items : List Doc)
  | obj (raw : Bytes) (members : List (Bytes × Doc))

/-- A part of a path that is a position in an array. -/
def arrayIndex (part : Bytes) : Option ℕ :=
  if part ≠ [] ∧ part.all (fun b => '0' ≤ b && b ≤ '9') then
    some (part.foldl (fun n b => n * 10 + (b.toNat - 48)) 0)
  else none

/-- The value that a path leads to. -/
def Doc.find : List Bytes → Doc → Option Doc
  | [], d => some d
  | part :: path, .obj _ members =>
    members.findSome? fun m => if m.1 = part then Doc.find path m.2 else none
  | part :: path, .arr _ items =>
    (arrayIndex part).bind fun i => items[i]?.bind (Doc.find path)
  | _ :: _, _ => none

/-- The `gjson` library. -/
structure Gjson where
  valid : Bytes → Bool
  /-- `gjson.Get`, of a text that need not be valid. -/
  lookup : Bytes → List Bytes → Option Doc
  tree : Bytes → Doc
  inside : Bytes → List Bytes → Option Doc
  number : Bytes → Bytes
  truthy : Doc → Bool
  /-- Lookups in a valid text are lookups in its value. -/
  lookup_of_valid : ∀ text path, valid text →
    lookup text path = match tree text with
      | .str raw _ => inside raw path
      | d => d.find path
  not_blank : ∀ text, valid text → trimSpace text ≠ []

namespace Gjson

variable (gj : Gjson)

def get (d : Doc) (path : List Bytes) : Option Doc :=
  match d with
  | .str raw _ => gj.inside raw path
  | d => d.find path

theorem lookup_eq_get {text} (h : gj.valid text) : gj.lookup text = gj.get (gj.tree text) :=
  funext fun path => gj.lookup_of_valid text path h

def string : Option Doc → Bytes
  | none | some .null => []
  | some (.bool b) => if b then "true" else "false"
  | some (.num raw) => gj.number raw
  | some (.str _ text) => text
  | some (.arr raw _) | some (.obj raw _) => raw

/-- `Result.Bool`, false for a result that does not exist. -/
def boolOf (r : Option Doc) : Bool := r.any gj.truthy

end Gjson

/-- The text of a result whose `Type` is `gjson.String`. -/
def stringOf : Option Doc → Option Bytes
  | some (.str _ text) => some text
  | _ => none

/-- `Result.Type`, printed. -/
def typeName : Option Doc → Bytes
  | none | some .null => "Null"
  | some (.bool b) => if b then "True" else "False"
  | some (.num _) => "Number"
  | some (.str _ _) => "String"
  | some (.arr _ _) | some (.obj _ _) => "JSON"

/-- `Result.IsArray`, with the elements that `ForEach` goes through. -/
def itemsOf : Option Doc → Option (List Doc)
  | some (.arr _ items) => some items
  | _ => none

def isObject : Option Doc → Bool
  | some (.obj _ _) => true
  | _ => false

/-! ### An instance -/

/-- The value of a text without white space around it, to the depth `n`. -/
def treeOf : ℕ → Bytes → Doc
  | 0, _ | _ + 1, [] => .null
  | n + 1, b :: t =>
    if b = '{' then
      .obj (b :: t) (((stdJson.members (b :: t)).getD []).map fun m => (m.1, treeOf n m.2))
    else if b = '[' then .arr (b :: t) (((stdJson.elements (b :: t)).getD []).map (treeOf n))
    else if b = '"' then .str (b :: t) ((stdJson.unquote (b :: t)).getD [])
    else if b = 't' || b = 'f' then .bool (b = 't')
    else if b = 'n' then .null
    else .num (b :: t)

/-- Lookups by the grammar of JSON. In a text that is not valid, and in the text of a string, this
instance finds nothing. -/
def stdGjson : Gjson where
  valid text := jsonValid text && !(trimSpace text).isEmpty
  tree text := treeOf text.length (trimSpace text)
  lookup text path :=
    if jsonValid text then
      match treeOf text.length (trimSpace text) with
      | .str _ _ => none
      | d => d.find path
    else none
  inside _ _ := none
  number raw := raw
  truthy
    | .bool b => b
    | .num raw => raw ≠ bytes "0"
    | .str _ text => text ∈ [bytes "1", bytes "t", bytes "true"]
    | _ => false
  lookup_of_valid text path h := if_pos ((Bool.and_eq_true _ _).mp h).1
  not_blank text h := by simpa using ((Bool.and_eq_true _ _).mp h).2

mutual

/-- Whether two values are the same. -/
def Doc.same : Doc → Doc → Bool
  | .null, .null => true
  | .bool a, .bool b => a = b
  | .num a, .num b => a = b
  | .str a t, .str b u => a = b && t = u
  | .arr a xs, .arr b ys => a = b && sameItems xs ys
  | .obj a ms, .obj b ns => a = b && sameMembers ms ns
  | _, _ => false

def Doc.sameItems : List Doc → List Doc → Bool
  | [], [] => true
  | x :: xs, y :: ys => same x y && sameItems xs ys
  | _, _ => false

def Doc.sameMembers : List (Bytes × Doc) → List (Bytes × Doc) → Bool
  | [], [] => true
  | (k, x) :: ms, (l, y) :: ns => k = l && same x y && sameMembers ms ns
  | _, _ => false

end

mutual

theorem Doc.eq_of_same {a b : Doc} (h : a.same b) : a = b := by
  cases a <;> cases b <;> simp_all [same]
  · exact eq_of_sameItems h.2
  · exact eq_of_sameMembers h.2

theorem Doc.eq_of_sameItems {xs ys : List Doc} (h : sameItems xs ys) : xs = ys := by
  cases xs <;> cases ys <;> simp_all [sameItems]
  exact ⟨eq_of_same h.1, eq_of_sameItems h.2⟩

theorem Doc.eq_of_sameMembers {ms ns : List (Bytes × Doc)} (h : sameMembers ms ns) : ms = ns := by
  rcases ms with - | ⟨⟨k, x⟩, ms⟩ <;> rcases ns with - | ⟨⟨l, y⟩, ns⟩ <;> simp_all [sameMembers]
  exact ⟨eq_of_same h.1.2, eq_of_sameMembers h.2⟩

end

end BamlRest.BuildRequest
