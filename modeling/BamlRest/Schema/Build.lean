import BamlRest.Schema.Dynamic
import BamlRest.Schema.Order

/-!
# Lowering a dynamic output schema

`internal/schema/build.go`: `FromDynamicOutputSchema` turns the caller's schema into a bundle.
-/

namespace BamlRest

/-- The class around the output properties. -/
def dynamicOutputClassName : Bytes := "Baml_Rest_DynamicOutput"

/-- `RefKind`, as a resolver may return it. -/
inductive RefKind where
  | cls
  | enum
  | unknown (kind : Bytes)

/-- `RefResolver`; none for a name it does not recognise. -/
abbrev RefResolver := Bytes → Option RefKind

/-- A step into a type specification. -/
inductive SpecStep where
  | items
  | inner
  | keys
  | values
  | oneOf (i : ℕ)
  deriving DecidableEq

/-- The position of a type specification: a property of a class, and the way into it. -/
structure SpecPath where
  cls : Bytes
  property : Bytes
  steps : List SpecStep
  deriving DecidableEq

/-- One step further. -/
def SpecPath.push (p : SpecPath) (s : SpecStep) : SpecPath := ⟨p.cls, p.property, p.steps ++ [s]⟩

/-- What `FromDynamicOutputSchema` can complain about. -/
inductive BuildError where
  | reservedClass
  | classAndEnum (name : Bytes)
  | nilEnum (name : Bytes)
  | nilEnumValue (name : Bytes) (i : ℕ)
  | nilClass (name : Bytes)
  | nilProperty (cls property : Bytes)
  | nilSpec (path : SpecPath)
  | typeAndRef (path : SpecPath)
  | noTypeOrRef (path : SpecPath)
  | requires (path : SpecPath) (type : Bytes)
  | literalValue (path : SpecPath) (type : Bytes)
  | unknownType (path : SpecPath) (type : Bytes)
  | ambiguousRef (path : SpecPath) (name : Bytes)
  | unresolvedRef (path : SpecPath) (name : Bytes)
  | resolverKind (path : SpecPath) (kind name : Bytes)
  | index (e : SchemaError)
  deriving DecidableEq

/-- `strPtr`; an empty text is nil. -/
def strPtr (s : Bytes) : Option Bytes := if s = [] then none else some s

/-- A primitive type without metadata. -/
def Ty.prim (p : PrimitiveKind) : Ty := .primitive .zero p

/-! ### Unions -/

mutual

/-- The variants of a union without constraints, or the type. -/
def flattenForUnion : Ty → List Ty
  | .union m vs nullable =>
    if m.constraints.isEmpty then
      flattenVariants vs ++ (if nullable then [nullType] else [])
    else [.union m vs nullable]
  | .top m => [.top m]
  | .primitive m p => [.primitive m p]
  | .enum m n d => [.enum m n d]
  | .literal m l => [.literal m l]
  | .cls m n s d => [.cls m n s d]
  | .list m e => [.list m e]
  | .map m k v => [.map m k v]
  | .recursiveAlias m n s => [.recursiveAlias m n s]
  | .tuple m ts => [.tuple m ts]
  | .arrow m ts r => [.arrow m ts r]

/-- The variants of all of them. -/
def flattenVariants : List Ty → List Ty
  | [] => []
  | v :: vs => flattenForUnion v ++ flattenVariants vs

end

/-- The loop of `simplifyUnion`: null set aside, the first of equal variants kept. -/
def dedupVariants : List Ty → List Ty → List Ty
  | variants, [] => variants
  | variants, t :: ts =>
    if t.isNull || variants.contains t then dedupVariants variants ts
    else dedupVariants (variants ++ [t]) ts

/-- `simplifyUnion`: flat, without repetitions, and null as a flag. -/
def simplifyUnion (choices : List Ty) : Ty :=
  let flattened := flattenVariants choices
  let hasNull := flattened.any Ty.isNull
  match dedupVariants [] flattened with
  | [] => nullType
  | [v] => if hasNull then .union .zero [v] true else v
  | vs => .union .zero vs hasNull

/-- A union, unless there is one choice. -/
def makeUnion : List Ty → Ty
  | [t] => t
  | choices => simplifyUnion choices

/-- The type or null. -/
def makeOptional (inner : Ty) : Ty :=
  if inner.isNull then inner else makeUnion [inner, nullType]

/-! ### Types -/

/-- `builder`: what the names of a schema stand for. -/
structure Builder where
  resolver : Option RefResolver
  classNames : List Bytes
  enumNames : List Bytes

/-- `resolveRef`: a class or an enum of the schema, or what the resolver says. -/
def Builder.resolveRef (b : Builder) (name : Bytes) (path : SpecPath) : Except BuildError Ty :=
  let isClass := b.classNames.contains name
  let isEnum := b.enumNames.contains name
  if isClass && isEnum then .error (.ambiguousRef path name)
  else if isClass then .ok (.cls .zero name .nonStreaming true)
  else if isEnum then .ok (.enum .zero name true)
  else
    match b.resolver.bind (· name) with
    | some .cls => .ok (.cls .zero name .nonStreaming false)
    | some .enum => .ok (.enum .zero name false)
    | some (.unknown kind) => .error (.resolverKind path kind name)
    | none => .error (.unresolvedRef path name)

/-- The integer that a float is. -/
def F64.toInt? : F64 → Option ℤ
  | .fin neg m e =>
    let (p, q) := F64.ratio m e
    if p % q = 0 then some (if neg then -((p / q : ℕ) : ℤ) else (p / q : ℕ)) else none
  | .nan | .inf _ => none

/-- `toInt64`, none on an error. -/
def toInt64 : AnyValue → Option ℤ
  | .int n => some n
  | .float f => f.toInt?.bind fun n => if 2 ^ 53 ≤ n ∨ n ≤ -2 ^ 53 then none else some n
  | .number tok => parseInt64 tok
  | .nil | .string _ | .bool _ | .int32 _ | .other => none

mutual

/-- `builder.convertType` on the fields of a type specification. -/
def convertSpec (b : Builder) (path : SpecPath) : DynamicTypeSpec → Except BuildError Ty
  | ⟨type, ref, items, inner, oneOf, keys, values, value⟩ =>
    if ref ≠ [] then
      if type ≠ [] then .error (.typeAndRef path) else b.resolveRef ref path
    else if type = [] then .error (.noTypeOrRef path)
    else if type = "string" then .ok (.prim .string)
    else if type = "int" then .ok (.prim .int)
    else if type = "float" then .ok (.prim .float)
    else if type = "bool" then .ok (.prim .bool)
    else if type = "null" then .ok (.prim .null)
    else if type = "list" then
      if items.isNone then .error (.requires path type)
      else do return .list .zero (← convertOption b (path.push .items) items)
    else if type = "optional" then
      if inner.isNone then .error (.requires path type)
      else do return makeOptional (← convertOption b (path.push .inner) inner)
    else if type = "map" then
      if keys.isNone || values.isNone then .error (.requires path type)
      else do
        let key ← convertOption b (path.push .keys) keys
        let val ← convertOption b (path.push .values) values
        return .map .zero key val
    else if type = "union" then
      if oneOf.isEmpty then .error (.requires path type)
      else do return makeUnion (← convertOneOf b path 0 oneOf)
    else if type = "literal_string" then
      match value with
      | .string s => .ok (.literal .zero (.string s))
      | _ => .error (.literalValue path type)
    else if type = "literal_int" then
      match toInt64 value with
      | some n => .ok (.literal .zero (.int n))
      | none => .error (.literalValue path type)
    else if type = "literal_bool" then
      match value with
      | .bool v => .ok (.literal .zero (.bool v))
      | _ => .error (.literalValue path type)
    else .error (.unknownType path type)

/-- `builder.convertSpec`. -/
def convertOption (b : Builder) (path : SpecPath) : Option DynamicTypeSpec → Except BuildError Ty
  | none => .error (.nilSpec path)
  | some s => convertSpec b path s

/-- The variants of a `one_of`. -/
def convertOneOf (b : Builder) (path : SpecPath) (i : ℕ) :
    List (Option DynamicTypeSpec) → Except BuildError (List Ty)
  | [] => .ok []
  | s :: ss => do
    let v ← convertOption b (path.push (.oneOf i)) s
    let vs ← convertOneOf b path (i + 1) ss
    return v :: vs

end

/-! ### Definitions -/

/-- The values of an enum. -/
def buildEnumValues (name : Bytes) (i : ℕ) :
    List (Option DynamicEnumValue) → Except BuildError (List EnumValue)
  | [] => .ok []
  | none :: _ => .error (.nilEnumValue name i)
  | some v :: vs => do
    let rest ← buildEnumValues name (i + 1) vs
    return if v.skip then rest
      else ⟨⟨v.name, strPtr v.aliasName⟩, strPtr v.description⟩ :: rest

/-- `buildEnum`. -/
def buildEnum (name : Bytes) : Option DynamicEnum → Except BuildError EnumDef
  | none => .error (.nilEnum name)
  | some e => do
    let values ← buildEnumValues name 0 e.values
    return ⟨⟨name, strPtr e.aliasName⟩, values, []⟩

/-- The fields of a class. -/
def Builder.buildFields (b : Builder) (className : Bytes) :
    List (Bytes × Option DynamicProperty) → Except BuildError (List ClassField)
  | [] => .ok []
  | (name, none) :: _ => .error (.nilProperty className name)
  | (name, some p) :: ps => do
    let type ← convertSpec b ⟨className, name, []⟩ p.spec
    let rest ← b.buildFields className ps
    return ⟨⟨name, strPtr p.aliasName⟩, type, strPtr p.description, false⟩ :: rest

/-- The enums of the schema. -/
def buildEnums : List (Bytes × Option DynamicEnum) → Except BuildError (List EnumDef)
  | [] => .ok []
  | (name, e) :: es => do
    let def_ ← buildEnum name e
    let rest ← buildEnums es
    return def_ :: rest

/-- The classes of the schema. -/
def Builder.buildClasses (b : Builder) :
    List (Bytes × Option DynamicClass) → Except BuildError (List ClassDef)
  | [] => .ok []
  | (name, none) :: _ => .error (.nilClass name)
  | (name, some c) :: cs => do
    let fields ← b.buildFields name c.properties.entries
    let rest ← b.buildClasses cs
    return ⟨⟨name, strPtr c.aliasName⟩, strPtr c.description, .nonStreaming, fields, [],
      ⟨false, false, false⟩⟩ :: rest

/-- The synthetic class, as a type. -/
def dynamicTarget : Ty := .cls .zero dynamicOutputClassName .nonStreaming true

/-- The definitions that are reached. -/
def reachableBundle (enumDefs : List EnumDef) (classDefs : List ClassDef) : Bundle :=
  let order := orderByReachability dynamicTarget enumDefs classDefs []
  ⟨dynamicTarget, order.enumsOut, order.classesOut, [], []⟩

/-- `FromDynamicOutputSchema`, once the names are classified. -/
def Builder.lower (b : Builder) (s : DynamicOutputSchema) : Except BuildError Bundle := do
  let enumDefs ← buildEnums s.enums.entries
  let syntheticFields ← b.buildFields dynamicOutputClassName s.properties.entries
  let classDefs ← b.buildClasses s.classes.entries
  let synthetic : ClassDef := ⟨⟨dynamicOutputClassName, none⟩, none, .nonStreaming, syntheticFields,
    [], ⟨false, false, false⟩⟩
  let bundle := reachableBundle enumDefs (synthetic :: classDefs)
  match bundle.rebuildIndexes with
  | .error e => .error (.index e)
  | .ok _ => .ok bundle

/-- `FromDynamicOutputSchema`. -/
def fromDynamicOutputSchema (s : DynamicOutputSchema) (resolver : Option RefResolver) :
    Except BuildError Bundle :=
  let classNames := dynamicOutputClassName :: s.classes.keys
  if s.classes.keys.contains dynamicOutputClassName then .error .reservedClass
  else
    match s.enums.keys.find? classNames.contains with
    | some name => .error (.classAndEnum name)
    | none => Builder.lower ⟨resolver, classNames, s.enums.keys⟩ s

/-! ### What lowering guarantees -/

theorem exists_of_bind_ok {ε α β : Type} {x} {f : α → Except ε β} {b : β}
    (h : (x >>= f) = .ok b) : ∃ a, x = .ok a ∧ f a = .ok b := by
  cases x with
  | error e => cases h
  | ok a => exact ⟨a, rfl, h⟩

theorem Builder.buildClasses_mode {b : Builder} {cs : List (Bytes × Option DynamicClass)}
    {defs : List ClassDef} (h : b.buildClasses cs = .ok defs) :
    ∀ c ∈ defs, c.mode = .nonStreaming := by
  induction cs generalizing defs with
  | nil =>
    cases h
    simp
  | cons c cs ih =>
    obtain ⟨name, _ | c⟩ := c
    · cases h
    rw [Builder.buildClasses] at h
    obtain ⟨fields, -, h⟩ := exists_of_bind_ok h
    obtain ⟨rest, hrest, h⟩ := exists_of_bind_ok h
    cases h
    simpa using ih hrest

theorem fromDynamicOutputSchema_eq_ok {s : DynamicOutputSchema} {resolver : Option RefResolver}
    {b : Bundle} (h : fromDynamicOutputSchema s resolver = .ok b) :
    ∃ enumDefs classDefs, (∀ c ∈ classDefs, c.mode = .nonStreaming) ∧
      b = reachableBundle enumDefs classDefs := by
  simp only [fromDynamicOutputSchema] at h
  split_ifs at h
  split at h
  · cases h
  obtain ⟨enumDefs, -, h⟩ := exists_of_bind_ok h
  obtain ⟨fields, -, h⟩ := exists_of_bind_ok h
  obtain ⟨classDefs, hclasses, h⟩ := exists_of_bind_ok h
  simp only at h
  split at h
  · cases h
  · cases h
    exact ⟨_, _, by simpa using Builder.buildClasses_mode hclasses, rfl⟩

section

variable {enumDefs : List EnumDef} {classDefs : List ClassDef}

/-- The class names of a bundle and the classes its fields refer to. -/
def Bundle.refEdge (b : Bundle) (k k' : ClassKey) : Prop :=
  ∃ c, b.findClass k.name k.mode = some c ∧ ∃ f ∈ c.fields, f.type.RefersTo k'

theorem Bundle.findClass_of_refersTo {b : Bundle} (h : b.validateOutput = .ok ()) {t : Ty}
    (ht : b.HasType t) {k : ClassKey} (hk : t.RefersTo k) :
    ∃ c, b.findClass k.name k.mode = some c := by
  obtain ⟨m, d, hsub⟩ := hk
  obtain ⟨x, hx, htx⟩ := ht
  obtain ⟨⟨path, hvalid⟩, -⟩ := b.validateOutput_type h ⟨x, hx, Ty.Sub.trans hsub htx⟩
  rw [validateType] at hvalid
  split_ifs at hvalid with hfound
  exact Option.isSome_iff_exists.mp hfound

/-- **In a lowered bundle that is valid, every class can be reached from the target.** -/
theorem reachableBundle_reached (h : (reachableBundle enumDefs classDefs).validateOutput = .ok ())
    {c : ClassDef} (hc : c ∈ (reachableBundle enumDefs classDefs).classes) :
    Relation.ReflTransGen (reachableBundle enumDefs classDefs).refEdge
      ⟨dynamicOutputClassName, .nonStreaming⟩ c.key := by
  have hlisted := orderByReachability_reached enumDefs classDefs .zero dynamicOutputClassName
    .nonStreaming true
  -- along a path in the declared classes, every class is found in the bundle
  have hpath : ∀ k, Relation.ReflTransGen (classEdge classDefs)
      ⟨dynamicOutputClassName, .nonStreaming⟩ k →
      (∃ c, (reachableBundle enumDefs classDefs).findClass k.name k.mode = some c) ∧
        Relation.ReflTransGen (reachableBundle enumDefs classDefs).refEdge
          ⟨dynamicOutputClassName, .nonStreaming⟩ k := by
    intro k hk
    induction hk with
    | refl =>
      exact ⟨Bundle.findClass_of_refersTo h (Bundle.hasType_target _) ⟨_, _, .refl _⟩, .refl⟩
    | @tail k k' _ hedge ih =>
      obtain ⟨c, hfind, f, hf, hk'⟩ := hedge
      obtain ⟨⟨c', hc'⟩, hreach⟩ := ih
      obtain ⟨hmem, hkey⟩ := Bundle.mem_of_findClass hc'
      have heq : c' = c := by
        have hfind' := (hlisted c' hmem).1
        rw [hkey] at hfind'
        exact Option.some.inj (hfind'.symm.trans hfind)
      subst heq
      exact ⟨Bundle.findClass_of_refersTo h (Bundle.hasType_field hmem hf) hk',
        hreach.tail ⟨c', hc', f, hf, hk'⟩⟩
  exact (hpath c.key (hlisted c hc).2).2

end

end BamlRest
