import BamlRest.Text.Bytes

/-!
# Parsed files

`bamlutils/bamlparser`: the declarations that the static schema builder reads, and the index of
their names from `internal/nativeschema/build.go`.
-/

namespace BamlRest.NativeSchema

/-- `Value`, as far as the arguments of an attribute tell values apart. -/
inductive AttrArg where
  | literal (s : Bytes)
  | raw (s : Bytes)
  | other
  deriving DecidableEq

structure Attribute where
  name : Bytes
  block : Bool
  hasParens : Bool
  args : List AttrArg
  rawArgs : Bytes
  deriving DecidableEq

/-- `TypeExpr`, by its kind. A nil pointer is `missing`. -/
inductive TypeExpr where
  | missing
  | unsupported (attributes : List Attribute) (reason : Bytes)
  | primitive (attributes : List Attribute) (name : Bytes)
  | media (attributes : List Attribute) (name : Bytes)
  | nameRef (attributes : List Attribute) (name : Bytes) (namespaced path : Bool)
  | list (attributes : List Attribute) (elem : TypeExpr) (dims : ℕ)
  | map (attributes : List Attribute) (key value : TypeExpr)
  | union (attributes : List Attribute) (variants : List TypeExpr) (nullable : Bool)
  | literal (attributes : List Attribute) (kind value : Bytes)
  | tuple (attributes : List Attribute) (items : List TypeExpr)
  | group (attributes : List Attribute) (inner : TypeExpr)

namespace TypeExpr

@[elab_as_elim]
theorem induction {P : TypeExpr → Prop} (missing : P missing)
    (unsupported : ∀ as r, P (unsupported as r)) (primitive : ∀ as n, P (primitive as n))
    (media : ∀ as n, P (media as n)) (nameRef : ∀ as n ns p, P (nameRef as n ns p))
    (list : ∀ as e d, P e → P (list as e d)) (map : ∀ as k v, P k → P v → P (map as k v))
    (union : ∀ as vs n, (∀ v ∈ vs, P v) → P (union as vs n))
    (literal : ∀ as k v, P (literal as k v))
    (tuple : ∀ as ts, (∀ t ∈ ts, P t) → P (tuple as ts)) (group : ∀ as t, P t → P (group as t))
    (t) : P t :=
  @TypeExpr.rec P (fun ts => ∀ t ∈ ts, P t) missing unsupported primitive media nameRef list map
    union literal tuple group (fun _ h => absurd h List.not_mem_nil)
    (fun _ _ ht hts _ h => (List.mem_cons.mp h).elim (fun e => e ▸ ht) (hts _)) t

end TypeExpr

/-- `TypeMember`: a field of a class or a value of an enum. -/
structure TypeMember where
  name : Bytes
  type : TypeExpr
  attributes : List Attribute

/-- `TypeBlock`, without its keyword. `hasArgs` says that there is a list of named arguments. -/
structure TypeBlock where
  name : Bytes
  hasArgs : Bool
  fields : List TypeMember
  attributes : List Attribute
  hasUnsupportedContent : Bool

structure TypeAlias where
  name : Bytes
  expr : TypeExpr
  attributes : List Attribute

/-- `FunctionBlock`, as far as its return type goes. -/
structure FunctionBlock where
  name : Bytes
  ret : TypeExpr

/-- `Item`. Blocks with other keywords and other items are not looked at. -/
inductive Item where
  | cls (tb : TypeBlock)
  | enum (tb : TypeBlock)
  | typeAlias (a : TypeAlias)
  | function (fn : FunctionBlock)
  | other

/-- `SourceFile`: the items of a file, which may be missing. -/
abbrev SourceFile := Option (List Item)

def itemsOf (files : List SourceFile) : List Item := files.flatMap fun f => f.getD []

/-! ### The index -/

/-- A map that is filled in the order of a list, later entries over earlier ones. -/
def lastEntry {β : Type} (entries : List (Bytes × β)) (name : Bytes) : Option β :=
  (entries.reverse.find? fun e => e.1 = name).map Prod.snd

theorem lastEntry_isSome {β : Type} {entries : List (Bytes × β)} {name : Bytes} :
    (lastEntry entries name).isSome ↔ name ∈ entries.map Prod.fst := by
  simp [lastEntry]

/-- `schemaTypeIndex`: the declarations of each category in order, those without a name left out. -/
structure SchemaTypeIndex where
  classDecls : List (Bytes × TypeBlock)
  enumDecls : List (Bytes × TypeBlock)
  aliasDecls : List (Bytes × TypeAlias)

namespace SchemaTypeIndex

variable (idx : SchemaTypeIndex)

def classes (name : Bytes) : Option TypeBlock := lastEntry idx.classDecls name

def enums (name : Bytes) : Option TypeBlock := lastEntry idx.enumDecls name

def aliases (name : Bytes) : Option TypeAlias := lastEntry idx.aliasDecls name

/-- `classDeclOrder`: a name that is declared again keeps its first place. -/
def classDeclOrder : List Bytes := (idx.classDecls.map Prod.fst).eraseDups

def aliasDeclOrder : List Bytes := (idx.aliasDecls.map Prod.fst).eraseDups

def declared : List Bytes :=
  idx.classDecls.map Prod.fst ++ idx.enumDecls.map Prod.fst ++ idx.aliasDecls.map Prod.fst

def isAmbiguous (name : Bytes) : Bool := 1 < idx.declared.count name

def Distinct : Prop := idx.declared.Nodup

end SchemaTypeIndex

def buildSchemaTypeIndex (files : List SourceFile) : SchemaTypeIndex where
  classDecls := (itemsOf files).filterMap fun
    | .cls tb => if tb.name = [] then none else some (tb.name, tb)
    | _ => none
  enumDecls := (itemsOf files).filterMap fun
    | .enum tb => if tb.name = [] then none else some (tb.name, tb)
    | _ => none
  aliasDecls := (itemsOf files).filterMap fun
    | .typeAlias a => if a.name = [] then none else some (a.name, a)
    | _ => none

end BamlRest.NativeSchema
