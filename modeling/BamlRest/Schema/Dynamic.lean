import BamlRest.Text.Float64

/-!
# The dynamic output schema

`bamlutils/interfaces.go`, `bamlutils/dynamic.go`, `bamlutils/orderedmap.go`: the schema a caller
sends along with a request. A nil pointer of the source is `none`.
-/

namespace BamlRest

/-- `OrderedMap`: entries in insertion order, no key twice. -/
structure OrderedMap (α : Type) where
  entries : List (Bytes × α)
  nodup : (entries.map Prod.fst).Nodup

namespace OrderedMap

variable {α : Type}

/-- No entry. -/
def empty : OrderedMap α := ⟨[], List.nodup_nil⟩

/-- The keys in their order. -/
def keys (m : OrderedMap α) : List Bytes := m.entries.map Prod.fst

/-- The value of a key. -/
def get (m : OrderedMap α) (key : Bytes) : Option α :=
  (m.entries.find? fun e => e.1 = key).map Prod.snd

end OrderedMap

/-- A decoded JSON value (`any`), as far as literals tell them apart. -/
inductive AnyValue where
  | nil
  | string (s : Bytes)
  | bool (b : Bool)
  | int (n : ℤ)
  | int32 (n : ℤ)
  | float (f : F64)
  | number (tok : Bytes)
  | other

/-- `DynamicTypeSpec`. -/
structure DynamicTypeSpec where
  type : Bytes
  ref : Bytes
  items : Option DynamicTypeSpec
  inner : Option DynamicTypeSpec
  oneOf : List (Option DynamicTypeSpec)
  keys : Option DynamicTypeSpec
  values : Option DynamicTypeSpec
  value : AnyValue

@[elab_as_elim]
theorem DynamicTypeSpec.induction {P : DynamicTypeSpec → Prop}
    (mk : ∀ type ref items inner oneOf keys values value, (∀ s, items = some s → P s) →
      (∀ s, inner = some s → P s) → (∀ s, some s ∈ oneOf → P s) → (∀ s, keys = some s → P s) →
      (∀ s, values = some s → P s) → P ⟨type, ref, items, inner, oneOf, keys, values, value⟩)
    (s) : P s :=
  @DynamicTypeSpec.rec P (fun o => ∀ s, o = some s → P s) (fun l => ∀ s, some s ∈ l → P s)
    mk (fun _ h => nomatch h) (fun _ hs _ h => Option.some.inj h ▸ hs)
    (fun _ h => absurd h List.not_mem_nil)
    (fun _ _ ho hl _ h => (List.mem_cons.mp h).elim (fun e => ho _ e.symm) (hl _)) s

/-- A reference by name. -/
def refSpec (name : Bytes) : DynamicTypeSpec := ⟨[], name, none, none, [], none, none, .nil⟩

/-- A type that is named by its word alone. -/
def plainType (type : Bytes) : DynamicTypeSpec := ⟨type, [], none, none, [], none, none, .nil⟩

/-- The union of `choices`. -/
def oneOfSpec (choices : List DynamicTypeSpec) : DynamicTypeSpec :=
  ⟨"union", [], none, none, choices.map some, none, none, .nil⟩

/-- `DynamicProperty`: the fields of a type specification, a description and an alias. -/
structure DynamicProperty where
  spec : DynamicTypeSpec
  description : Bytes
  aliasName : Bytes

/-- A property without a description and an alias. -/
def plainProperty (spec : DynamicTypeSpec) : Option DynamicProperty := some ⟨spec, [], []⟩

/-- `DynamicClass`. -/
structure DynamicClass where
  description : Bytes
  aliasName : Bytes
  properties : OrderedMap (Option DynamicProperty)

/-- `DynamicEnumValue`. -/
structure DynamicEnumValue where
  name : Bytes
  description : Bytes
  aliasName : Bytes
  skip : Bool

/-- `DynamicEnum`. -/
structure DynamicEnum where
  description : Bytes
  aliasName : Bytes
  values : List (Option DynamicEnumValue)

/-- `DynamicOutputSchema`. -/
structure DynamicOutputSchema where
  properties : OrderedMap (Option DynamicProperty)
  classes : OrderedMap (Option DynamicClass)
  enums : OrderedMap (Option DynamicEnum)

end BamlRest
