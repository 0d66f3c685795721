import BamlRest.Text.Bytes

/-!
# The schema model

`internal/schema/schema.go`: the types an answer can have, and the bundle of definitions a target
type refers to.
-/

namespace BamlRest

/-- `StreamingMode`. -/
inductive StreamingMode where
  | nonStreaming
  | streaming
  deriving DecidableEq

/-- `StreamingBehavior`: the three streaming attributes. -/
structure StreamingBehavior where
  needed : Bool
  done : Bool
  state : Bool
  deriving DecidableEq

def StreamingBehavior.isZero (s : StreamingBehavior) : Bool := !s.needed && !s.done && !s.state

/-- `@check` or `@assert`. -/
inductive ConstraintLevel where
  | check
  | assert
  deriving DecidableEq

/-- `Constraint`. -/
structure Constraint where
  level : ConstraintLevel
  expression : Bytes
  label : Option Bytes
  deriving DecidableEq

/-- `TypeMeta`. -/
structure TypeMeta where
  constraints : List Constraint
  stream : StreamingBehavior
  deriving DecidableEq

/-- No constraints, and nothing about streaming. -/
def TypeMeta.zero : TypeMeta := ⟨[], ⟨false, false, false⟩⟩

/-- The kinds of media. -/
inductive MediaKind where
  | image
  | audio
  | pdf
  | video
  deriving DecidableEq

/-- `PrimitiveKind`, a media primitive with its subtype. -/
inductive PrimitiveKind where
  | string
  | int
  | float
  | bool
  | null
  | media (kind : MediaKind)
  deriving DecidableEq

/-- `LiteralValue`. -/
inductive LiteralValue where
  | string (s : Bytes)
  | int (n : ℤ)
  | bool (b : Bool)
  deriving DecidableEq

/-- `Type`. -/
inductive Ty where
  | top (m : TypeMeta)
  | primitive (m : TypeMeta) (p : PrimitiveKind)
  | enum (m : TypeMeta) (name : Bytes) (dynamic : Bool)
  | literal (m : TypeMeta) (l : LiteralValue)
  | cls (m : TypeMeta) (name : Bytes) (mode : StreamingMode) (dynamic : Bool)
  | list (m : TypeMeta) (elem : Ty)
  | map (m : TypeMeta) (key value : Ty)
  | recursiveAlias (m : TypeMeta) (name : Bytes) (mode : StreamingMode)
  | tuple (m : TypeMeta) (items : List Ty)
  | arrow (m : TypeMeta) (params : List Ty) (ret : Ty)
  | union (m : TypeMeta) (variants : List Ty) (nullable : Bool)

namespace Ty

@[elab_as_elim]
theorem induction {P : Ty → Prop} (top : ∀ m, P (top m)) (primitive : ∀ m p, P (primitive m p))
    (enum : ∀ m n d, P (enum m n d)) (literal : ∀ m l, P (literal m l))
    (cls : ∀ m n s d, P (cls m n s d)) (list : ∀ m e, P e → P (list m e))
    (map : ∀ m k v, P k → P v → P (map m k v)) (recursiveAlias : ∀ m n s, P (recursiveAlias m n s))
    (tuple : ∀ m ts, (∀ t ∈ ts, P t) → P (tuple m ts))
    (arrow : ∀ m ts r, (∀ t ∈ ts, P t) → P r → P (arrow m ts r))
    (union : ∀ m ts n, (∀ t ∈ ts, P t) → P (union m ts n)) (t : Ty) : P t :=
  @Ty.rec P (fun ts => ∀ t ∈ ts, P t) top primitive enum literal cls list map recursiveAlias tuple
    arrow union (fun _ h => absurd h List.not_mem_nil)
    (fun _ _ ht hts _ h => (List.mem_cons.mp h).elim (fun e => e ▸ ht) (hts _)) t

mutual

/-- Equality of types, decided (`reflect.DeepEqual`). -/
def beq : Ty → Ty → Bool
  | top m, top m' => m == m'
  | primitive m p, primitive m' p' => m == m' && p == p'
  | enum m n d, enum m' n' d' => m == m' && n == n' && d == d'
  | literal m l, literal m' l' => m == m' && l == l'
  | cls m n s d, cls m' n' s' d' => m == m' && n == n' && s == s' && d == d'
  | list m e, list m' e' => m == m' && beq e e'
  | map m k v, map m' k' v' => m == m' && beq k k' && beq v v'
  | recursiveAlias m n s, recursiveAlias m' n' s' => m == m' && n == n' && s == s'
  | tuple m ts, tuple m' ts' => m == m' && beqList ts ts'
  | arrow m ts r, arrow m' ts' r' => m == m' && beqList ts ts' && beq r r'
  | union m ts n, union m' ts' n' => m == m' && beqList ts ts' && n == n'
  | _, _ => false

/-- Types that are equal one by one. -/
def beqList : List Ty → List Ty → Bool
  | [], [] => true
  | t :: ts, t' :: ts' => beq t t' && beqList ts ts'
  | _, _ => false

end

theorem beqList_iff {ts ts'} (h : ∀ t ∈ ts, ∀ t', beq t t' ↔ t = t') :
    beqList ts ts' ↔ ts = ts' := by
  induction ts generalizing ts' with
  | nil => cases ts' <;> simp [beqList]
  | cons t ts ih =>
    cases ts' with
    | nil => simp [beqList]
    | cons t' ts' =>
      simp only [List.mem_cons, forall_eq_or_imp] at h
      simp [beqList, h.1 t', ih h.2]

theorem beq_iff (t t' : Ty) : beq t t' ↔ t = t' := by
  induction t using Ty.induction generalizing t' with
  | top m => cases t' <;> simp [beq]
  | primitive m p => cases t' <;> simp [beq]
  | enum m n d => cases t' <;> simp [beq, and_assoc]
  | literal m l => cases t' <;> simp [beq]
  | cls m n s d => cases t' <;> simp [beq, and_assoc]
  | list m e ih => cases t' <;> simp [beq, ih]
  | map m k v ihk ihv => cases t' <;> simp [beq, ihk, ihv, and_assoc]
  | recursiveAlias m n s => cases t' <;> simp [beq, and_assoc]
  | tuple m ts ih => cases t' <;> simp [beq, beqList_iff ih]
  | arrow m ts r ih ihr => cases t' <;> simp [beq, beqList_iff ih, ihr, and_assoc]
  | union m ts n ih => cases t' <;> simp [beq, beqList_iff ih, and_assoc]

instance : DecidableEq Ty := fun t t' => decidable_of_iff _ (beq_iff t t')

/-- `Type.Meta`. -/
def typeMeta : Ty → TypeMeta
  | top m | primitive m _ | enum m _ _ | literal m _ | cls m _ _ _ | list m _ | map m _ _
  | recursiveAlias m _ _ | tuple m _ | arrow m _ _ | union m _ _ => m

/-- The types that a type is made of. -/
def parts : Ty → List Ty
  | list _ e => [e]
  | map _ k v => [k, v]
  | tuple _ ts => ts
  | arrow _ ts r => ts ++ [r]
  | union _ ts _ => ts
  | top _ | primitive _ _ | enum _ _ _ | literal _ _ | cls _ _ _ _ | recursiveAlias _ _ _ => []

theorem parts_induction {P : Ty → Prop} (h : ∀ t, (∀ s ∈ t.parts, P s) → P t) (t : Ty) : P t := by
  induction t using Ty.induction with
  | list m e ih => exact h _ (by simpa [parts] using ih)
  | map m k v ihk ihv => exact h _ (by simpa [parts] using ⟨ihk, ihv⟩)
  | tuple m ts ih => exact h _ ih
  | arrow m ts r ih ihr =>
    refine h _ fun s hs => ?_
    rcases List.mem_append.mp hs with hs | hs
    · exact ih s hs
    · exact List.mem_singleton.mp hs ▸ ihr
  | union m ts n ih => exact h _ ih
  | _ => exact h _ fun s hs => absurd hs List.not_mem_nil

end Ty

/-- `Name`: the canonical name and the name shown to the model. -/
structure Name where
  name : Bytes
  aliasName : Option Bytes
  deriving DecidableEq

/-- The alias, or the name. -/
def Name.renderedName (n : Name) : Bytes := n.aliasName.getD n.name

/-- `EnumValue`. -/
structure EnumValue where
  name : Name
  description : Option Bytes
  deriving DecidableEq

/-- `EnumDef`. -/
structure EnumDef where
  name : Name
  values : List EnumValue
  constraints : List Constraint
  deriving DecidableEq

/-- `ClassField`. -/
structure ClassField where
  name : Name
  type : Ty
  description : Option Bytes
  streamingNeeded : Bool
  deriving DecidableEq

/-- `ClassKey`. -/
structure ClassKey where
  name : Bytes
  mode : StreamingMode
  deriving DecidableEq

/-- `ClassDef`. -/
structure ClassDef where
  name : Name
  description : Option Bytes
  mode : StreamingMode
  fields : List ClassField
  constraints : List Constraint
  stream : StreamingBehavior
  deriving DecidableEq

/-- The key of a class. -/
def ClassDef.key (c : ClassDef) : ClassKey := ⟨c.name.name, c.mode⟩

/-- `RecursiveAliasDef`. -/
structure RecursiveAliasDef where
  name : Bytes
  target : Ty
  deriving DecidableEq

/-- `Bundle`. The indexes are rebuilt from the lists, so a lookup is a search. -/
structure Bundle where
  target : Ty
  enums : List EnumDef
  classes : List ClassDef
  recursiveClasses : List Bytes
  structuralRecursiveAliases : List RecursiveAliasDef
  deriving DecidableEq

namespace Bundle

/-- `FindEnum`. -/
def findEnum (b : Bundle) (name : Bytes) : Option EnumDef :=
  b.enums.find? fun e => e.name.name = name

/-- `FindClass`. -/
def findClass (b : Bundle) (name : Bytes) (mode : StreamingMode) : Option ClassDef :=
  b.classes.find? fun c => c.key = ⟨name, mode⟩

/-- `FindRecursiveAlias`. -/
def findRecursiveAlias (b : Bundle) (name : Bytes) : Option RecursiveAliasDef :=
  b.structuralRecursiveAliases.find? fun a => a.name = name

theorem mem_of_findClass {b : Bundle} {name : Bytes} {mode : StreamingMode} {c : ClassDef}
    (h : b.findClass name mode = some c) : c ∈ b.classes ∧ c.key = ⟨name, mode⟩ :=
  ⟨List.mem_of_find?_eq_some h, by simpa using List.find?_some h⟩

end Bundle

end BamlRest
