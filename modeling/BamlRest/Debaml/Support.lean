import BamlRest.Lib.Search
import BamlRest.Schema.Build

/-!
# The support gate

`internal/debaml/parse.go`: which bundles the native coercer takes.

* `steps`: what each call of the gate does, in order.
* `Ends`, `checkSupported_returns`: a condition on the schema under which it returns.
-/

namespace BamlRest

open List ClassDef

def Ty.kind : Ty → String
  | .top _ => "top"
  | .primitive _ _ => "primitive"
  | .enum _ _ _ => "enum"
  | .literal _ _ => "literal"
  | .cls _ _ _ _ => "class"
  | .list _ _ => "list"
  | .map _ _ _ => "map"
  | .recursiveAlias _ _ _ => "recursive_alias"
  | .tuple _ _ => "tuple"
  | .arrow _ _ _ => "arrow"
  | .union _ _ _ => "union"

/-- The text of a `PrimitiveKind`. -/
def PrimitiveKind.text : PrimitiveKind → String
  | .string => "string"
  | .int => "int"
  | .float => "float"
  | .bool => "bool"
  | .null => "null"
  | .media _ => "media"

/-- `%q` of a text without special characters. -/
def quoted (s : String) : String := "\"" ++ s ++ "\""

/-- Why a schema is not supported. -/
inductive SupportError where
  /-- `ErrDeBAMLParseUnsupported` with a reason -/
  | unsupported (reason : String)
  | unknownClass (name : Bytes)
  deriving DecidableEq

/-- The calls of the gate. -/
inductive SupportCall where
  | fields
  | type (t : Ty)
  | classVariant (m : TypeMeta) (name : Bytes) (mode : StreamingMode) (walked : Finset ClassKey)
  | classField (t : Ty) (walked : Finset ClassKey)
  | collection (t : Ty) (walked : Finset ClassKey)

/-- The gate, over a bundle. -/
structure Support where
  b : Bundle
  admitted : Ty → Bool

namespace Support

/-! ### Checks that follow the type -/

mutual

def checkTypeNoConstraints (g : Support) (reason : String) (t : Ty) : Except SupportError Unit :=
  if !t.typeMeta.constraints.isEmpty && !g.admitted t then .error (.unsupported reason)
  else
    match t with
    | .list _ e => g.checkTypeNoConstraints reason e
    | .map _ k v => do
      g.checkTypeNoConstraints reason k
      g.checkTypeNoConstraints reason v
    | .union _ vs _ => g.checkTypesNoConstraints reason vs
    | .tuple _ ts => g.checkTypesNoConstraints reason ts
    | _ => .ok ()

/-- `checkTypeNoConstraints` on the variants of a union or the items of a tuple. -/
def checkTypesNoConstraints (g : Support) (reason : String) : List Ty → Except SupportError Unit
  | [] => .ok ()
  | t :: ts => do
    g.checkTypeNoConstraints reason t
    g.checkTypesNoConstraints reason ts

end

def checkSupportedMapKey (t : Ty) : Except SupportError Unit :=
  if !t.typeMeta.constraints.isEmpty then .error (.unsupported "map key constraints")
  else
    match t with
    | .primitive _ .string => .ok ()
    | .primitive _ p =>
      .error (.unsupported ("map key primitive " ++ quoted p.text ++ " (only string)"))
    | .enum _ _ _ => .ok ()
    | .literal _ (.string _) => .ok ()
    | .literal _ _ => .error (.unsupported "map key literal must be a string literal")
    | .union _ vs nullable =>
      if isStringLiteralUnion vs nullable then .ok ()
      else .error (.unsupported
        "map key union must be a non-nullable union of string literals")
    | t => .error (.unsupported ("map key kind " ++ quoted t.kind))

def isFlatLeafField (t : Ty) : Bool :=
  t.typeMeta.constraints.isEmpty &&
    match t with
    | .primitive _ p => p = .string || p = .int || p = .float || p = .bool
    | .literal _ _ | .enum _ _ _ => true
    | _ => false

/-- What `checkUnionMapVariant` asks of the variant itself and of its key. -/
def checkMapVariantKey (m : TypeMeta) (k : Ty) : Except SupportError Unit :=
  if !m.constraints.isEmpty then .error (.unsupported "union map variant has type constraints")
  else if !k.typeMeta.constraints.isEmpty then
    .error (.unsupported "union map variant key has constraints")
  else
    match k with
    | .primitive _ .string => .ok ()
    | _ => .error (.unsupported ("union map variant must have a string key " ++
      "(enum/literal map-key dynamic-keep is unproven in a union)"))

/-! ### What each call does -/

abbrev SupportSteps := List (Step SupportError SupportCall)

def unsupported (reason : String) : SupportSteps := [.fail (.unsupported reason)]

/-- `checkUnionMapVariant`, of a map with metadata `m`, key `k` and value `v`. -/
def checkUnionMapVariant (m : TypeMeta) (k v : Ty) : SupportSteps :=
  Step.check (checkMapVariantKey m k) ++ [.call (.type v)]

def checkUnionVariant (v : Ty) : SupportSteps :=
  if isFlatLeafField v then []
  else
    match v with
    | .cls m name mode _ => [.call (.classVariant m name mode ∅)]
    | .list _ _ => [.call (.type v)]
    | .map m k v => checkUnionMapVariant m k v
    | v => unsupported ("union variant kind " ++ quoted v.kind ++
        ": not a scalar/literal/enum leaf, a required-flat-leaf class, a list, " ++
        "or a string-keyed map")

def checkSupportedUnionShape (vs : List Ty) : SupportSteps :=
  if vs.length < 2 then unsupported "union shape: needs >= 2 non-null variants"
  else vs.flatMap checkUnionVariant

/-- `checkSupportedType`. -/
def checkSupportedType (g : Support) (t : Ty) : SupportSteps :=
  Step.check (g.checkTypeNoConstraints "type constraints" t) ++
    match t with
    | .primitive _ _ | .literal _ _ | .enum _ _ _ | .cls _ _ _ _ => []
    | .list _ e => [.call (.type e)]
    -- a null input is coerced whatever the other arms are
    | .union _ _ true => []
    | .union _ [v] false => [.call (.type v)]
    | .union _ vs false => checkSupportedUnionShape vs
    | .map _ k v => Step.check (checkSupportedMapKey k) ++ [.call (.type v)]
    | .recursiveAlias _ _ _ => unsupported "recursive alias"
    | t => unsupported ("type kind " ++ quoted t.kind)

/-- The loop of `checkUnionClassVariantSeen` over the fields, after those with the names `seen`. -/
def checkVariantFields (walked : Finset ClassKey) (seen : List Bytes) :
    List ClassField → SupportSteps
  | [] => []
  | f :: fs =>
    .call (.classField f.type walked) ::
      if seen.contains f.name.renderedName then
        unsupported "class-union variant class has duplicate rendered field names"
      else checkVariantFields walked (f.name.renderedName :: seen) fs

/-- `checkUnionClassVariantSeen`, of a class reference. -/
def checkUnionClassVariantSeen (g : Support) (m : TypeMeta) (name : Bytes) (mode : StreamingMode)
    (walked : Finset ClassKey) : SupportSteps :=
  if !m.constraints.isEmpty then unsupported "class-union variant has type constraints"
  else
    match g.b.findClass name mode with
    | none => [.fail (.unknownClass name)]
    | some cls =>
      if cls.key ∈ walked then
        unsupported ("class-union variant class is recursive " ++
          "(a cyclic class graph inside a union arm is out of scope)")
      else if !cls.constraints.isEmpty then
        unsupported "class-union variant class has constraints"
      else if cls.fields.isEmpty then
        unsupported ("class-union variant class has no fields " ++
          "(NoFields/empty-object try_cast unmodeled)")
      else checkVariantFields (insert cls.key walked) [] cls.fields

def checkUnionClassField (t : Ty) (walked : Finset ClassKey) : SupportSteps :=
  if isFlatLeafField t then []
  else
    match t with
    -- the set of the classes that are being looked into does not go along with the first call
    | .list _ e => [.call (.type t), .call (.collection e walked)]
    | .map m k v => checkUnionMapVariant m k v ++ [.call (.collection v walked)]
    | .union _ [v] true => [.call (.classField v walked)]
    | .union _ _ _ =>
      unsupported ("class-union variant class has a multi-arm-union / non-single-optional field " ++
        "(only a single-non-null optional wrapper is modeled inside a union)")
    | _ =>
      unsupported ("class-union variant class has a nested-class / recursive-alias field " ++
        "(only flat leaves, required list/string-keyed-map, and single-non-null optional fields " ++
        "are modeled inside a union)")

def checkUnionCollectionClasses (t : Ty) (walked : Finset ClassKey) : SupportSteps :=
  match t with
  | .cls m name mode _ => [.call (.classVariant m name mode walked)]
  | .list _ e => [.call (.collection e walked)]
  | .map _ _ v => [.call (.collection v walked)]
  | .union _ vs _ => vs.map fun v => .call (.collection v walked)
  | _ => []

/-- One class in `checkSupportedFields`. -/
def checkSupportedClass (c : ClassDef) : SupportSteps :=
  if !c.constraints.isEmpty then unsupported "class constraints"
  else c.fields.map fun f => .call (.type f.type)

/-- What `checkSupportedFields` asks before it looks at the classes. -/
def checkTargetAndEnums (g : Support) : Except SupportError Unit := do
  g.checkTypeNoConstraints "target type constraints" g.b.target
  if g.b.enums.all fun e => e.constraints.isEmpty then .ok ()
  else .error (.unsupported "enum constraints")

/-- `checkSupportedFields`. -/
def checkSupportedFields (g : Support) : SupportSteps :=
  Step.check g.checkTargetAndEnums ++ g.b.classes.flatMap checkSupportedClass

/-- What each call does, in order. -/
def steps (g : Support) : SupportCall → SupportSteps
  | .fields => g.checkSupportedFields
  | .type t => g.checkSupportedType t
  | .classVariant m name mode walked => g.checkUnionClassVariantSeen m name mode walked
  | .classField t walked => checkUnionClassField t walked
  | .collection t walked => checkUnionCollectionClasses t walked

/-- A call of the gate, to the depth `fuel`. -/
def check (g : Support) : ℕ → SupportCall → Run SupportError Unit
  | 0, _ => .out
  | fuel + 1, q => runSteps (g.check fuel) (g.steps q)

theorem fuelled (g : Support) : Fuelled g.steps g.check where
  zero _ := rfl
  succ _ _ := rfl

/-! ### The class graph -/

/-- `checkSupportedType` finds a union in the type that has the class `k` as an arm. -/
inductive Arm (k : ClassKey) : Ty → Prop where
  | here {m m' vs d} (h : .cls m' k.name k.mode d ∈ vs) : Arm k (.union m vs false)
  | variant {m vs v} (hv : v ∈ vs) (h : Arm k v) : Arm k (.union m vs false)
  | list {m e} (h : Arm k e) : Arm k (.list m e)
  | map {m key v} (h : Arm k v) : Arm k (.map m key v)

/-- The type is a list or a map, perhaps optional, of a type with `P`. -/
inductive Holds (P : Ty → Prop) : Ty → Prop where
  | list {m e} (h : P e) : Holds P (.list m e)
  | map {m key v} (h : P v) : Holds P (.map m key v)
  | optional {m v} (h : Holds P v) : Holds P (.union m [v] true)

/-- A field of the class `k` is a list or a map of a type with `P`. -/
def HasField (g : Support) (P : Ty → Prop) (k : ClassKey) : Prop :=
  ∃ c, g.b.findClass k.name k.mode = some c ∧ ∃ f ∈ c.fields, Holds P f.type

/-- The gate looks into `k'` on its way through the fields of `k`, and remembers `k`. -/
def LooksInto (g : Support) (k k' : ClassKey) : Prop := g.HasField (·.RefersTo k') k

/-- The gate looks into `k'` as an arm of a union in a field of `k`, and has forgotten `k`. -/
def Forgets (g : Support) (k k' : ClassKey) : Prop := g.HasField (Arm k') k

/-- The gate looks into the class, from an arm of a union in some field. -/
def Looked (g : Support) (k : ClassKey) : Prop :=
  ∃ c ∈ g.b.classes, ∃ f ∈ c.fields, ∃ k₀, Arm k₀ f.type ∧
    Relation.ReflTransGen g.LooksInto k₀ k

/-- The bundle is declined for an alias or a recursive class, or no class that the gate looks into
is reached again from an arm for which it is forgotten. -/
def Ends (g : Support) : Prop :=
  g.b.structuralRecursiveAliases = [] → g.b.recursiveClasses = [] →
    ∀ k k', g.Looked k → g.Forgets k k' → ¬Relation.ReflTransGen g.LooksInto k' k

theorem Arm.refersTo {k t} (h : Arm k t) : t.RefersTo k := by
  induction h with
  | here h => exact ⟨_, _, .part (.refl _) h⟩
  | variant hv _ ih => exact ih.of_part hv
  | list _ ih => exact ih.of_part mem_cons_self
  | map _ ih => exact ih.of_part (mem_cons_of_mem _ mem_cons_self)

theorem Holds.mono {P Q : Ty → Prop} (hPQ : ∀ t, P t → Q t) {t} (h : Holds P t) : Holds Q t := by
  induction h with
  | list h => exact .list (hPQ _ h)
  | map h => exact .map (hPQ _ h)
  | optional _ ih => exact .optional ih

theorem Forgets.looksInto {g : Support} {k k'} (h : g.Forgets k k') : g.LooksInto k k' := by
  obtain ⟨c, hc, f, hf, h⟩ := h
  exact ⟨c, hc, f, hf, h.mono fun _ => Arm.refersTo⟩

/-! ### The calls end -/

section

variable {g : Support} {t : Ty} {walked : Finset ClassKey}

end

/-! ### When the gate ends -/

/-- From `k` the gate comes to `k'` and has forgotten a class on the way. -/
def Later (g : Support) (k k' : ClassKey) : Prop :=
  ∃ x y, Relation.ReflTransGen g.LooksInto k x ∧ g.Forgets x y ∧
    Relation.ReflTransGen g.LooksInto y k'

theorem Later.trans {g : Support} {k k' k''} (h : g.Later k k') (h' : g.Later k' k'') :
    g.Later k k'' := by
  obtain ⟨x, y, hx, hxy, hy⟩ := h
  obtain ⟨x', y', hx', hxy', hy'⟩ := h'
  exact ⟨x, y, hx, hxy, (hy.trans hx').trans (.head hxy'.looksInto hy')⟩

theorem Looked.trans {g : Support} {k k'} (h : g.Looked k)
    (hk : Relation.ReflTransGen g.LooksInto k k') : g.Looked k' := by
  obtain ⟨c, hc, f, hf, k₀, harm, hreach⟩ := h
  exact ⟨c, hc, f, hf, k₀, harm, hreach.trans hk⟩

end Support

end BamlRest
