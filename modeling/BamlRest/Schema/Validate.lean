import BamlRest.Schema.Types

/-!
# Validation of a bundle

`internal/schema/index.go`, `internal/schema/validate.go`: the uniqueness checks made while the
indexes are rebuilt, and the structural checks on every type of a bundle.
-/

namespace BamlRest

open List

/-- A step into a type. -/
inductive PathStep where
  | elem
  | key
  | value
  | variant (i : ℕ)
  | item (i : ℕ)
  | param (i : ℕ)
  | ret
  deriving DecidableEq

/-- Where a type stands in the bundle. -/
inductive PathRoot where
  | target
  | field (cls field : Bytes)
  | recursiveAlias (name : Bytes)
  deriving DecidableEq

/-- A position in a type of the bundle. -/
structure TypePath where
  root : PathRoot
  steps : List PathStep
  deriving DecidableEq

/-- One step further. -/
def TypePath.push (p : TypePath) (s : PathStep) : TypePath := ⟨p.root, p.steps ++ [s]⟩

/-- What `ValidateOutput` can complain about. -/
inductive SchemaError where
  | duplicateEnum (name : Bytes)
  | duplicateClass (key : ClassKey)
  | duplicateAlias (name : Bytes)
  | duplicateName (owner name : Bytes)
  | duplicateRenderedName (owner rendered : Bytes)
  | unresolvedEnum (path : TypePath) (name : Bytes)
  | unresolvedClass (path : TypePath) (key : ClassKey)
  | unresolvedAlias (path : TypePath) (name : Bytes)
  | mapKey (path : TypePath)
  | noVariants (path : TypePath)
  | nullVariant (path : TypePath) (i : ℕ)
  | unresolvedRecursiveClass (i : ℕ) (name : Bytes)
  | notOutput (path : TypePath) (kind : Ty)
  deriving DecidableEq

/-- The first error of a list. -/
def checkAll {ε α : Type*} (f : α → Except ε Unit) : List α → Except ε Unit
  | [] => .ok ()
  | a :: l => match f a with
    | .error e => .error e
    | .ok _ => checkAll f l

theorem checkAll_eq_ok {ε α : Type*} {f : α → Except ε Unit} {l} :
    checkAll f l = .ok () ↔ ∀ a ∈ l, f a = .ok () := by
  induction l with
  | nil => simp [checkAll]
  | cons a l ih =>
    rw [checkAll]
    cases h : f a with
    | error e => simp [h]
    | ok u => simp [h, ih]

/-- The first error of two. -/
def andThen {ε : Type*} (x y : Except ε Unit) : Except ε Unit :=
  match x with
  | .error e => .error e
  | .ok _ => y

theorem andThen_eq_ok {ε : Type*} {x y : Except ε Unit} :
    andThen x y = .ok () ↔ x = .ok () ∧ y = .ok () := by
  cases x <;> simp [andThen]

theorem andThen_eq_error {ε : Type*} {x y : Except ε Unit} {e : ε} (h : andThen x y = .error e) :
    x = .error e ∨ y = .error e := by
  cases x with
  | error e' => exact .inl h
  | ok _ => exact .inr h

/-! ### `RebuildIndexes` -/

/-- `rebuildIndexes` of an enum or a class: no canonical name twice, no rendered name twice. -/
def rebuildNames (owner : Bytes) : List Bytes → List Bytes → List Name → Except SchemaError Unit
  | _, _, [] => .ok ()
  | byName, byRendered, n :: ns =>
    if n.name ∈ byName then .error (.duplicateName owner n.name)
    else if n.renderedName ∈ byRendered then .error (.duplicateRenderedName owner n.renderedName)
    else rebuildNames owner (n.name :: byName) (n.renderedName :: byRendered) ns

/-- No value occurs twice. -/
def EnumDef.rebuildIndexes (e : EnumDef) : Except SchemaError Unit :=
  rebuildNames e.name.name [] [] (e.values.map EnumValue.name)

/-- No field occurs twice. -/
def ClassDef.rebuildIndexes (c : ClassDef) : Except SchemaError Unit :=
  rebuildNames c.name.name [] [] (c.fields.map ClassField.name)

/-- A loop of `RebuildIndexes`: no key twice, and every definition passes its own check. -/
def rebuildDefs {α κ : Type} [DecidableEq κ] (key : α → κ) (dup : κ → SchemaError)
    (check : α → Except SchemaError Unit) : List κ → List α → Except SchemaError Unit
  | _, [] => .ok ()
  | seen, a :: l =>
    if key a ∈ seen then .error (dup (key a))
    else andThen (check a) (rebuildDefs key dup check (key a :: seen) l)

/-- `RebuildIndexes`, as a check. -/
def Bundle.rebuildIndexes (b : Bundle) : Except SchemaError Unit :=
  andThen (rebuildDefs (·.name.name) .duplicateEnum EnumDef.rebuildIndexes [] b.enums)
    (andThen (rebuildDefs ClassDef.key .duplicateClass ClassDef.rebuildIndexes [] b.classes)
      (rebuildDefs RecursiveAliasDef.name .duplicateAlias (fun _ => .ok ()) []
        b.structuralRecursiveAliases))

/-! ### `validateType` -/

/-- `isNull`: the null primitive. -/
def Ty.isNull : Ty → Bool
  | .primitive _ .null => true
  | _ => false

mutual

/-- `isStringLiteralUnion` on the variants of a union. -/
def isStringLiteralVariants : List Ty → Bool
  | [] => true
  | v :: vs => isStringLiteralVariant v && isStringLiteralVariants vs

/-- A string literal, or a union of them. -/
def isStringLiteralVariant : Ty → Bool
  | .literal _ (.string _) => true
  | .union _ vs nullable => !nullable && !vs.isEmpty && isStringLiteralVariants vs
  | _ => false

end

/-- A union of string literals. -/
def isStringLiteralUnion (vs : List Ty) (nullable : Bool) : Bool :=
  !nullable && !vs.isEmpty && isStringLiteralVariants vs

/-- `isValidMapKey`. -/
def isValidMapKey : Ty → Bool
  | .primitive _ p => p = .string
  | .enum _ _ _ => true
  | .literal _ l => match l with
    | .string _ => true
    | _ => false
  | .union _ vs nullable => isStringLiteralUnion vs nullable
  | _ => false

mutual

/-- `validateType`. -/
def validateType (b : Bundle) (path : TypePath) : Ty → Except SchemaError Unit
  | .top _ | .primitive _ _ | .literal _ _ => .ok ()
  | .enum _ name _ =>
    if (b.findEnum name).isSome then .ok () else .error (.unresolvedEnum path name)
  | .cls _ name mode _ =>
    if (b.findClass name mode).isSome then .ok () else .error (.unresolvedClass path ⟨name, mode⟩)
  | .recursiveAlias _ name _ =>
    if (b.findRecursiveAlias name).isSome then .ok () else .error (.unresolvedAlias path name)
  | .list _ e => validateType b (path.push .elem) e
  | .map _ k v =>
    if isValidMapKey k then
      andThen (validateType b (path.push .key) k) (validateType b (path.push .value) v)
    else .error (.mapKey path)
  | .union _ vs nullable =>
    if vs.isEmpty && !nullable then .error (.noVariants path) else validateVariants b path 0 vs
  | .tuple _ ts => validateItems b path .item 0 ts
  | .arrow _ ts r =>
    andThen (validateItems b path .param 0 ts) (validateType b (path.push .ret) r)

/-- The variants of a union, none of which is null. -/
def validateVariants (b : Bundle) (path : TypePath) (i : ℕ) : List Ty → Except SchemaError Unit
  | [] => .ok ()
  | v :: vs =>
    if v.isNull then .error (.nullVariant path i)
    else andThen (validateType b (path.push (.variant i)) v) (validateVariants b path (i + 1) vs)

/-- The types of a tuple or an arrow. -/
def validateItems (b : Bundle) (path : TypePath) (step : ℕ → PathStep) (i : ℕ) :
    List Ty → Except SchemaError Unit
  | [] => .ok ()
  | t :: ts =>
    andThen (validateType b (path.push (step i)) t) (validateItems b path step (i + 1) ts)

end

mutual

/-- `walkType`: a check on a type and on everything in it. -/
def walkType (fn : Ty → TypePath → Except SchemaError Unit) (path : TypePath) :
    Ty → Except SchemaError Unit
  | .list m e => andThen (fn (.list m e) path) (walkType fn (path.push .elem) e)
  | .map m k v =>
    andThen (fn (.map m k v) path)
      (andThen (walkType fn (path.push .key) k) (walkType fn (path.push .value) v))
  | .union m vs nullable =>
    andThen (fn (.union m vs nullable) path) (walkTypes fn path .variant 0 vs)
  | .tuple m ts => andThen (fn (.tuple m ts) path) (walkTypes fn path .item 0 ts)
  | .arrow m ts r =>
    andThen (fn (.arrow m ts r) path)
      (andThen (walkTypes fn path .param 0 ts) (walkType fn (path.push .ret) r))
  | .top m => fn (.top m) path
  | .primitive m p => fn (.primitive m p) path
  | .enum m n d => fn (.enum m n d) path
  | .literal m l => fn (.literal m l) path
  | .cls m n s d => fn (.cls m n s d) path
  | .recursiveAlias m n s => fn (.recursiveAlias m n s) path

/-- The types in order. -/
def walkTypes (fn : Ty → TypePath → Except SchemaError Unit) (path : TypePath)
    (step : ℕ → PathStep) (i : ℕ) : List Ty → Except SchemaError Unit
  | [] => .ok ()
  | t :: ts =>
    andThen (walkType fn (path.push (step i)) t) (walkTypes fn path step (i + 1) ts)

end

/-- Tuples, arrows, `top` and media are no output. -/
def rejectNonOutput (t : Ty) (path : TypePath) : Except SchemaError Unit :=
  match t with
  | .tuple _ _ | .arrow _ _ _ | .top _ | .primitive _ (.media _) => .error (.notOutput path t)
  | _ => .ok ()

namespace Bundle

/-- The root types of a bundle, in the order of `eachRootType`. -/
def rootTypes (b : Bundle) : List (Ty × TypePath) :=
  (b.target, ⟨.target, []⟩) ::
    (b.classes.flatMap fun c => c.fields.map fun f =>
      (f.type, ⟨.field c.name.name f.name.name, []⟩)) ++
    b.structuralRecursiveAliases.map fun a => (a.target, ⟨.recursiveAlias a.name, []⟩)

/-- The first error over the types of the bundle. -/
def eachRootType (b : Bundle) (fn : Ty → TypePath → Except SchemaError Unit) :
    Except SchemaError Unit :=
  checkAll (fun x => fn x.1 x.2) b.rootTypes

/-- The class is there in one of the modes. -/
def classExists (b : Bundle) (name : Bytes) : Bool :=
  (b.findClass name .nonStreaming).isSome || (b.findClass name .streaming).isSome

/-- `Validate`. -/
def validate (b : Bundle) : Except SchemaError Unit :=
  andThen b.rebuildIndexes
    (andThen (b.eachRootType fun t path => validateType b path t)
      (checkAll (fun x => if b.classExists x.1 then .ok ()
        else .error (.unresolvedRecursiveClass x.2 x.1)) b.recursiveClasses.zipIdx))

/-- `ValidateOutput`. -/
def validateOutput (b : Bundle) : Except SchemaError Unit :=
  andThen b.validate (b.eachRootType fun t path => walkType rejectNonOutput path t)

end Bundle

/-! ### What validation guarantees -/

/-- A type within a type. -/
inductive Ty.Sub : Ty → Ty → Prop where
  | refl (t : Ty) : Ty.Sub t t
  | part {s t u : Ty} (h : Ty.Sub s t) (ht : t ∈ u.parts) : Ty.Sub s u

variable {b : Bundle} {i : ℕ} {ts : List Ty} {t : Ty}

theorem validateVariants_mem {path : TypePath}
    (h : validateVariants b path i ts = .ok ()) (ht : t ∈ ts) :
    t.isNull = false ∧ ∃ path', validateType b path' t = .ok () := by
  induction ts generalizing i with
  | nil => cases ht
  | cons v vs ih =>
    rw [validateVariants] at h
    split_ifs at h with hnull
    obtain ⟨hv, hvs⟩ := andThen_eq_ok.mp h
    rcases mem_cons.mp ht with rfl | ht
    · exact ⟨by simpa using hnull, _, hv⟩
    · exact ih hvs ht

theorem validateItems_mem {path : TypePath} {step : ℕ → PathStep} (h : validateItems b path step i ts = .ok ()) (ht : t ∈ ts) :
    ∃ path', validateType b path' t = .ok () := by
  induction ts generalizing i with
  | nil => cases ht
  | cons v vs ih =>
    rw [validateItems] at h
    obtain ⟨hv, hvs⟩ := andThen_eq_ok.mp h
    rcases mem_cons.mp ht with rfl | ht
    · exact ⟨_, hv⟩
    · exact ih hvs ht

variable {s : Ty}

theorem validateType_part {path : TypePath}
    (h : validateType b path t = .ok ()) (hs : s ∈ t.parts) :
    ∃ path', validateType b path' s = .ok () := by
  cases t with
  | top | primitive | enum | literal | cls | recursiveAlias => cases hs
  | list m e =>
    cases mem_singleton.mp hs
    exact ⟨_, h⟩
  | map m k v =>
    rw [validateType] at h
    split_ifs at h
    obtain ⟨hk, hv⟩ := andThen_eq_ok.mp h
    rcases mem_cons.mp hs with rfl | hs
    · exact ⟨_, hk⟩
    · cases mem_singleton.mp hs
      exact ⟨_, hv⟩
  | tuple m ts => exact validateItems_mem (by rwa [validateType] at h) hs
  | arrow m ts r =>
    rw [validateType] at h
    obtain ⟨hts, hr⟩ := andThen_eq_ok.mp h
    rcases mem_append.mp hs with hs | hs
    · exact validateItems_mem hts hs
    · cases mem_singleton.mp hs
      exact ⟨_, hr⟩
  | union m vs nullable =>
    rw [validateType] at h
    split_ifs at h
    exact (validateVariants_mem h hs).2

theorem validateType_sub {path} (hs : Ty.Sub s t)
    (h : validateType b path t = .ok ()) : ∃ path', validateType b path' s = .ok () := by
  induction hs generalizing path with
  | refl => exact ⟨_, h⟩
  | part _ ht ih =>
    obtain ⟨path', h'⟩ := validateType_part h ht
    exact ih h'

variable {fn : Ty → TypePath → Except SchemaError Unit}

theorem walkType_self {path : TypePath} (h : walkType fn path t = .ok ()) : fn t path = .ok () := by
  cases t with
  | top | primitive | enum | literal | cls | recursiveAlias => rwa [walkType] at h
  | list | map | tuple | arrow | union =>
    rw [walkType] at h
    exact (andThen_eq_ok.mp h).1

theorem walkTypes_mem {path : TypePath}
    {step : ℕ → PathStep} (h : walkTypes fn path step i ts = .ok ()) (ht : t ∈ ts) : ∃ path', walkType fn path' t = .ok () := by
  induction ts generalizing i with
  | nil => cases ht
  | cons v vs ih =>
    rw [walkTypes] at h
    obtain ⟨hv, hvs⟩ := andThen_eq_ok.mp h
    rcases mem_cons.mp ht with rfl | ht
    · exact ⟨_, hv⟩
    · exact ih hvs ht

theorem walkType_part {path : TypePath} (h : walkType fn path t = .ok ()) (hs : s ∈ t.parts) :
    ∃ path', walkType fn path' s = .ok () := by
  cases t with
  | top | primitive | enum | literal | cls | recursiveAlias => cases hs
  | list m e =>
    cases mem_singleton.mp hs
    rw [walkType] at h
    exact ⟨_, (andThen_eq_ok.mp h).2⟩
  | map m k v =>
    rw [walkType] at h
    obtain ⟨hk, hv⟩ := andThen_eq_ok.mp (andThen_eq_ok.mp h).2
    rcases mem_cons.mp hs with rfl | hs
    · exact ⟨_, hk⟩
    · cases mem_singleton.mp hs
      exact ⟨_, hv⟩
  | tuple m ts =>
    rw [walkType] at h
    exact walkTypes_mem (andThen_eq_ok.mp h).2 hs
  | arrow m ts r =>
    rw [walkType] at h
    obtain ⟨hts, hr⟩ := andThen_eq_ok.mp (andThen_eq_ok.mp h).2
    rcases mem_append.mp hs with hs | hs
    · exact walkTypes_mem hts hs
    · cases mem_singleton.mp hs
      exact ⟨_, hr⟩
  | union m vs nullable =>
    rw [walkType] at h
    exact walkTypes_mem (andThen_eq_ok.mp h).2 hs

theorem walkType_sub {path}
    (hs : Ty.Sub s t) (h : walkType fn path t = .ok ()) : ∃ path', fn s path' = .ok () := by
  induction hs generalizing path with
  | refl => exact ⟨_, walkType_self h⟩
  | part _ ht ih =>
    obtain ⟨path', h'⟩ := walkType_part h ht
    exact ih h'

/-- The type occurs in the bundle. -/
def Bundle.HasType (b : Bundle) (t : Ty) : Prop := ∃ x ∈ b.rootTypes, Ty.Sub t x.1

theorem Bundle.hasType_target (b : Bundle) : b.HasType b.target :=
  ⟨_, mem_cons_self, .refl _⟩

theorem Bundle.hasType_field {c} (hc : c ∈ b.classes) {f}
    (hf : f ∈ c.fields) : b.HasType f.type := by
  refine ⟨(f.type, ⟨.field c.name.name f.name.name, []⟩), ?_, .refl _⟩
  refine mem_cons_of_mem _ (mem_append_left _ (mem_flatMap.mpr ⟨c, hc, ?_⟩))
  exact mem_map.mpr ⟨f, hf, rfl⟩

theorem Ty.Sub.trans {u : Ty} (hst : Ty.Sub s t) (htu : Ty.Sub t u) : Ty.Sub s u := by
  induction htu with
  | refl => exact hst
  | part _ hu ih => exact .part ih hu

theorem Bundle.HasType.part {b : Bundle} {t s : Ty} (h : b.HasType t) (hs : s ∈ t.parts) :
    b.HasType s := by
  obtain ⟨x, hx, ht⟩ := h
  exact ⟨x, hx, Ty.Sub.trans (.part (.refl s) hs) ht⟩

/-- **Every type of an accepted bundle is structurally valid and can be the type of an answer.** -/
theorem Bundle.validateOutput_type (h : b.validateOutput = .ok ()) (ht : b.HasType t) :
    (∃ path, validateType b path t = .ok ()) ∧ ∃ path, rejectNonOutput t path = .ok () := by
  obtain ⟨hvalid, hwalk⟩ := andThen_eq_ok.mp h
  obtain ⟨x, hx, hsub⟩ := ht
  have hroot := checkAll_eq_ok.mp (andThen_eq_ok.mp (andThen_eq_ok.mp hvalid).2).1 x hx
  exact ⟨validateType_sub hsub hroot, walkType_sub hsub (checkAll_eq_ok.mp hwalk x hx)⟩

end BamlRest
