import BamlRest.NativeSchema.Recursion
import BamlRest.Schema.Build

/-!
# Static descriptors

`internal/nativeschema/build.go`: `buildFunctionDescriptor` lowers the return type of a function,
and the definitions it leads to, into a bundle.
-/

namespace BamlRest.NativeSchema

/-- Why the arguments of a constraint are declined. -/
inductive ConstraintArgs where
  | noParens
  | noExpression
  | notClosed
  | trailing
  | badLabel (label : Bytes)
  deriving DecidableEq

/-- Why a function is declined. -/
inductive DeclineError where
  | noReturn (function : Bytes)
  | missingType
  | attribute (a : Attribute)
  | stringArg (a : Attribute)
  | duplicate (a : Attribute)
  | constraint (a : Attribute) (e : ConstraintArgs)
  | unsupported (reason : Bytes)
  | unknownPrimitive (name : Bytes)
  | unknownMedia (name : Bytes)
  | intLiteral (value : Bytes)
  | floatLiteral
  | literalKind (kind : Bytes)
  | pathName (name : Bytes)
  | ambiguous (name : Bytes)
  | unresolved (name : Bytes)
  /-- `recursed during lowering but was not detected as recursive` -/
  | classRecursed (name : Bytes)
  | bodyContent (name : Bytes)
  | namedArgs (name : Bytes)
  | noFieldType (cls field : Bytes)
  | enumDescription (name : Bytes)
  | enumStream (name : Bytes)
  | enumValueType (name value : Bytes)
  | aliasAttribute (name : Bytes) (a : Attribute)
  | invalidAlias (name : Bytes)
  | aliasCycle (name : Bytes) (size : ℕ)
  /-- `recursed while inlining but was not detected as recursive` -/
  | aliasRecursed (name : Bytes)
  | unparsedAlias (name : Bytes)
  | unparsedStructural (name : Bytes)
  /-- an error in the attributes of a class or an enum -/
  | inBlock (name : Bytes) (e : DeclineError)
  /-- an error in a field of a class or a value of an enum -/
  | inMember (name member : Bytes) (e : DeclineError)
  | emptyName (path : TypePath)
  | nullVariant (path : TypePath) (i : ℕ)
  | schema (e : SchemaError)
  deriving DecidableEq

/-- The error says that the recursion analysis is inconsistent with lowering. -/
def DeclineError.isInconsistency : DeclineError → Bool
  | .classRecursed _ | .aliasRecursed _ => true
  | .inBlock _ e | .inMember _ _ e => e.isInconsistency
  | _ => false

/-! ### Attributes -/

/-- The one string argument of an attribute. -/
def attributeStringArg (a : Attribute) : Except DeclineError Bytes :=
  match a.args with
  | [.literal s] | [.raw s] => .ok s
  | _ => .error (.stringArg a)

/-- `@check` and `@assert`. -/
def isConstraintAttr (name : Bytes) : Bool := name = "check" || name = "assert"

/-- `applyStreamAttribute`; none for an attribute that is not about streaming. -/
def applyStreamAttribute (sb : StreamingBehavior) (a : Attribute) : Option StreamingBehavior :=
  if a.name = "stream.done" then some { sb with done := true }
  else if a.name = "stream.not_null" then some { sb with needed := true }
  else if a.name = "stream.with_state" then some { sb with state := true }
  else none

/-- The spelling of a name. -/
def isBareIdentifier (s : Bytes) : Bool :=
  s.head?.any (fun c => !isDigit c) && s.all fun c =>
    c = '_' || ('A' ≤ c && c ≤ 'Z') || ('a' ≤ c && c ≤ 'z') || isDigit c

/-- `strings.Cut`. -/
def cutAt (sep : Bytes) : Bytes → Option (Bytes × Bytes)
  | [] => if sep = [] then some ([], []) else none
  | b :: s =>
    if sep.isPrefixOf (b :: s) then some ([], (b :: s).drop sep.length)
    else (cutAt sep s).map fun p => (b :: p.1, p.2)

/-- The label and the expression of a constraint. -/
def splitConstraintArgs (rawArgs : Bytes) : Except ConstraintArgs (Option Bytes × Bytes) :=
  match cutAt "\x7b\x7b" rawArgs with
  | none => .error .noExpression
  | some (before, rest) =>
    match cutAt "\x7d\x7d" rest with
    | none => .error .notClosed
    | some (expression, trailing) =>
      if trimSpace trailing ≠ [] then .error .trailing
      else
        let labelPart := trimSpace before
        let labelPart := trimSpace
          (if (bytes ",").isSuffixOf labelPart then labelPart.dropLast else labelPart)
        if labelPart = [] then .ok (none, expression)
        else if isBareIdentifier labelPart then .ok (some labelPart, expression)
        else .error (.badLabel labelPart)

/-- `constraintFromAttribute`. -/
def constraintFromAttribute (a : Attribute) : Except DeclineError Constraint :=
  if !a.hasParens then .error (.constraint a .noParens)
  else
    match splitConstraintArgs a.rawArgs with
    | .error e => .error (.constraint a e)
    | .ok (label, expression) =>
      .ok ⟨if a.name = "assert" then .assert else .check, expression, label⟩

/-- `fieldMeta` and `blockMeta`. -/
structure MemberMeta where
  aliasName : Option Bytes
  description : Option Bytes
  constraints : List Constraint
  stream : StreamingBehavior

/-- No attribute was met. -/
def MemberMeta.zero : MemberMeta := ⟨none, none, [], ⟨false, false, false⟩⟩

/-- One round of the loops of `extractFieldMeta` and `extractBlockMeta`, for attributes that are to
be of one form or the other. -/
def MemberMeta.add (block : Bool) (m : MemberMeta) (a : Attribute) :
    Except DeclineError MemberMeta :=
  if a.block ≠ block then .error (.attribute a)
  else if a.name = "alias" then
    match attributeStringArg a with
    | .error e => .error e
    | .ok v => if m.aliasName.isSome then .error (.duplicate a) else .ok { m with aliasName := some v }
  else if a.name = "description" then
    match attributeStringArg a with
    | .error e => .error e
    | .ok v =>
      if m.description.isSome then .error (.duplicate a) else .ok { m with description := some v }
  else if isConstraintAttr a.name then
    match constraintFromAttribute a with
    | .error e => .error e
    | .ok c => .ok { m with constraints := m.constraints ++ [c] }
  else
    match applyStreamAttribute m.stream a with
    | some stream => .ok { m with stream := stream }
    | none => .error (.attribute a)

/-- The loop over the attributes. -/
def extractMeta (block : Bool) : MemberMeta → List Attribute → Except DeclineError MemberMeta
  | m, [] => .ok m
  | m, a :: as =>
    match m.add block a with
    | .error e => .error e
    | .ok m => extractMeta block m as

/-- `extractFieldMeta`. -/
def extractFieldMeta (attrs : List Attribute) : Except DeclineError MemberMeta :=
  extractMeta false .zero attrs

/-- `extractBlockMeta`. -/
def extractBlockMeta (attrs : List Attribute) : Except DeclineError MemberMeta :=
  extractMeta true .zero attrs

/-- `extractMemberMeta`: an alias and a description, nothing else. -/
def extractMemberMeta : MemberMeta → List Attribute → Except DeclineError MemberMeta
  | m, [] => .ok m
  | m, a :: as =>
    if a.name = "alias" ∨ a.name = "description" then
      match m.add false a with
      | .error e => .error e
      | .ok m => extractMemberMeta m as
    else .error (.attribute a)

/-- `@skip` leaves a member out. -/
def hasSkipAttribute (attrs : List Attribute) : Bool :=
  attrs.any fun a => !a.block && a.name = "skip"

namespace TypeExpr

/-- The attributes of a node. -/
def attributes : TypeExpr → List Attribute
  | missing => []
  | unsupported as _ | primitive as _ | media as _ | nameRef as _ _ _ | list as _ _ | map as _ _
  | union as _ _ | literal as _ _ | tuple as _ | group as _ => as

/-- The copy that `lowerFieldType` makes: the outermost node has no attributes. -/
def stripAttributes : TypeExpr → TypeExpr
  | missing => missing
  | unsupported _ r => unsupported [] r
  | primitive _ n => primitive [] n
  | media _ n => media [] n
  | nameRef _ n ns p => nameRef [] n ns p
  | list _ e d => list [] e d
  | map _ k v => map [] k v
  | union _ vs n => union [] vs n
  | literal _ k v => literal [] k v
  | tuple _ ts => tuple [] ts
  | group _ t => group [] t

/-- A type that was not written. -/
def isMissing : TypeExpr → Bool
  | missing => true
  | _ => false

end TypeExpr

/-- The attributes of a member, and of its type. -/
def memberAttributes (m : TypeMember) : List Attribute := m.attributes ++ m.type.attributes

/-! ### Types without names -/

/-- `lowerPrimitive`. -/
def lowerPrimitive (name : Bytes) : Except DeclineError Ty :=
  if name = "string" then .ok (.prim .string)
  else if name = "int" then .ok (.prim .int)
  else if name = "float" then .ok (.prim .float)
  else if name = "bool" then .ok (.prim .bool)
  else if name = "null" then .ok (.prim .null)
  else .error (.unknownPrimitive name)

/-- `lowerMedia`. -/
def lowerMedia (name : Bytes) : Except DeclineError Ty :=
  if name = "image" then .ok (.prim (.media .image))
  else if name = "audio" then .ok (.prim (.media .audio))
  else if name = "pdf" then .ok (.prim (.media .pdf))
  else if name = "video" then .ok (.prim (.media .video))
  else .error (.unknownMedia name)

/-- `lowerLiteral`. -/
def lowerLiteral (kind value : Bytes) : Except DeclineError Ty :=
  if kind = "string" then .ok (.literal .zero (.string value))
  else if kind = "int" then
    match parseInt64 value with
    | some n => .ok (.literal .zero (.int n))
    | none => .error (.intLiteral value)
  else if kind = "bool" then .ok (.literal .zero (.bool (value = "true")))
  else if kind = "float" then .error .floatLiteral
  else .error (.literalKind kind)

/-- The loop of `lowerList`. -/
def nestLists : ℕ → Ty → Ty
  | 0, t => t
  | n + 1, t => nestLists n (.list .zero t)

/-- `normalizeDescriptorUnion`. -/
def normalizeDescriptorUnion (choices : List Ty) (nullable : Bool) : Ty :=
  let flattened := flattenVariants choices ++ if nullable then [nullType] else []
  let hasNull := flattened.any Ty.isNull
  match dedupVariants [] flattened with
  | [] => nullType
  | [v] => if hasNull then .union .zero [v] true else v
  | vs => .union .zero vs hasNull

/-- A type with other metadata. -/
def setMeta (m : TypeMeta) : Ty → Ty
  | .top _ => .top m
  | .primitive _ p => .primitive m p
  | .enum _ n d => .enum m n d
  | .literal _ l => .literal m l
  | .cls _ n s d => .cls m n s d
  | .list _ e => .list m e
  | .map _ k v => .map m k v
  | .recursiveAlias _ n s => .recursiveAlias m n s
  | .tuple _ ts => .tuple m ts
  | .arrow _ ts r => .arrow m ts r
  | .union _ vs n => .union m vs n

/-! ### Lowering -/

/-- `descriptorBuilder`: the definitions in order of discovery, and the active path. -/
structure DescriptorBuilder where
  classes : List (Bytes × ClassDef)
  enums : List (Bytes × EnumDef)
  structuralAliases : List (Bytes × Option Ty)
  classVisiting : List Bytes
  aliasVisiting : List Bytes

/-- `newDescriptorBuilder`. -/
def DescriptorBuilder.new : DescriptorBuilder := ⟨[], [], [], [], []⟩

/-- A computation on the descriptor that is being built. -/
abbrev Lowering (β : Type) := DescriptorBuilder → Run DeclineError (β × DescriptorBuilder)

/-- The first lines of `lowerType`: a node with attributes is declined. -/
def declining {β : Type} (attrs : List Attribute) (r : Run DeclineError β) : Run DeclineError β :=
  match attrs with
  | a :: _ => .fail (.attribute a)
  | [] => r

/-- A type without names. -/
def leaf (r : Except DeclineError Ty) : Lowering Ty := fun b =>
  match r with
  | .error e => .fail e
  | .ok t => .ok (t, b)

mutual

/-- `descriptorBuilder.lowerType`; `ref` lowers a plain name. -/
def lowerType (ref : Bytes → Lowering Ty) : TypeExpr → Lowering Ty
  | .missing, _ => .fail .missingType
  | .unsupported as reason, _ =>
    declining as (.fail (.unsupported (if reason = [] then "unsupported type" else reason)))
  | .primitive as name, b => declining as (leaf (lowerPrimitive name) b)
  | .media as name, b => declining as (leaf (lowerMedia name) b)
  | .nameRef as name namespaced path, b =>
    declining as (if namespaced || path then .fail (.pathName name) else ref name b)
  | .list as elem dims, b => declining as do
    let (t, b) ← lowerType ref elem b
    return (nestLists (max dims 1) t, b)
  | .map as key value, b => declining as do
    let (k, b) ← lowerType ref key b
    let (v, b) ← lowerType ref value b
    return (.map .zero k v, b)
  | .union as variants nullable, b => declining as do
    let (choices, b) ← lowerTypes ref variants b
    return (normalizeDescriptorUnion choices nullable, b)
  | .literal as kind value, b => declining as (leaf (lowerLiteral kind value) b)
  | .tuple as items, b => declining as do
    let (ts, b) ← lowerTypes ref items b
    return (.tuple .zero ts, b)
  | .group as inner, b => declining as (lowerType ref inner b)

/-- Types from left to right. -/
def lowerTypes (ref : Bytes → Lowering Ty) : List TypeExpr → Lowering (List Ty)
  | [], b => .ok ([], b)
  | t :: ts, b => do
    let (t, b) ← lowerType ref t b
    let (ts, b) ← lowerTypes ref ts b
    return (t :: ts, b)

end

/-- The loop of `ensureClass` over the fields. -/
def lowerFields (ref : Bytes → Lowering Ty) (name : Bytes) : List TypeMember → Lowering (List ClassField)
  | [], b => .ok ([], b)
  | m :: ms, b =>
    if m.type.isMissing then .fail (.noFieldType name m.name)
    else if hasSkipAttribute (memberAttributes m) then lowerFields ref name ms b
    else
      match extractFieldMeta (memberAttributes m) with
      | .error e => .fail (.inMember name m.name e)
      | .ok fm =>
        match lowerType ref m.type.stripAttributes b with
        | .out => .out
        | .fail e => .fail (.inMember name m.name e)
        | .ok (ft, b) => do
          let (fields, b) ← lowerFields ref name ms b
          return (⟨⟨m.name, fm.aliasName⟩, setMeta ⟨fm.constraints, fm.stream⟩ ft, fm.description,
            false⟩ :: fields, b)

/-- The loop of `ensureEnum` over the values. -/
def lowerEnumValues (name : Bytes) : List TypeMember → Except DeclineError (List EnumValue)
  | [] => .ok []
  | m :: ms =>
    if !m.type.isMissing then .error (.enumValueType name m.name)
    else if hasSkipAttribute m.attributes then lowerEnumValues name ms
    else
      match extractMemberMeta .zero m.attributes with
      | .error e => .error (.inMember name m.name e)
      | .ok vm => (lowerEnumValues name ms).map (⟨⟨m.name, vm.aliasName⟩, vm.description⟩ :: ·)

/-- `ensureEnum`: an enum is lowered once. -/
def ensureEnum (name : Bytes) (tb : TypeBlock) (b : DescriptorBuilder) :
    Except DeclineError DescriptorBuilder :=
  if (b.enums.map Prod.fst).contains name then .ok b
  else if tb.hasUnsupportedContent then .error (.bodyContent name)
  else if tb.hasArgs then .error (.namedArgs name)
  else
    match extractBlockMeta tb.attributes with
    | .error e => .error (.inBlock name e)
    | .ok block =>
      if block.description.isSome then .error (.enumDescription name)
      else if !block.stream.isZero then .error (.enumStream name)
      else (lowerEnumValues name tb.fields).map fun values =>
        { b with enums := b.enums ++ [(name, ⟨⟨name, block.aliasName⟩, values, block.constraints⟩)] }

section

variable (idx : SchemaTypeIndex) (info : RecursionInfo)

/-- `ensureClass`: a class is lowered once, and one under way is not entered again. -/
def ensureClass (ref : Bytes → Lowering Ty) (name : Bytes) (tb : TypeBlock) (b : DescriptorBuilder) :
    Run DeclineError DescriptorBuilder :=
  if (b.classes.map Prod.fst).contains name then .ok b
  else if b.classVisiting.contains name then
    if info.recursiveClass name then .ok b else .fail (.classRecursed name)
  else if tb.hasUnsupportedContent then .fail (.bodyContent name)
  else if tb.hasArgs then .fail (.namedArgs name)
  else
    match extractBlockMeta tb.attributes with
    | .error e => .fail (.inBlock name e)
    | .ok block => do
      let (fields, b) ← lowerFields ref name tb.fields
        { b with classVisiting := name :: b.classVisiting }
      return { b with
        classVisiting := b.classVisiting.erase name
        classes := b.classes ++ [(name, ⟨⟨name, block.aliasName⟩, block.description, .nonStreaming,
          fields, block.constraints, block.stream⟩)] }

/-- `ensureStructuralAlias`: it is registered before its target is lowered. -/
def ensureStructuralAlias (ref : Bytes → Lowering Ty) (name : Bytes) (a : TypeAlias)
    (b : DescriptorBuilder) : Run DeclineError DescriptorBuilder :=
  if (b.structuralAliases.map Prod.fst).contains name then .ok b
  else if a.expr.isMissing then .fail (.unparsedStructural name)
  else do
    let (target, b) ← lowerType ref a.expr
      { b with structuralAliases := b.structuralAliases ++ [(name, none)] }
    return { b with structuralAliases :=
      b.structuralAliases.map fun e => if e.1 = name then (name, some target) else e }

/-- `resolveAlias`: a structural alias is kept, another one is expanded. -/
def resolveAlias (ref : Bytes → Lowering Ty) (name : Bytes) (a : TypeAlias) : Lowering Ty := fun b =>
  match a.attributes with
  | attr :: _ => .fail (.aliasAttribute name attr)
  | [] =>
    if info.invalidAlias name then .fail (.invalidAlias name)
    else if info.structuralAlias name then
      if 1 < info.structuralAliasCycleSize name then
        .fail (.aliasCycle name (info.structuralAliasCycleSize name))
      else do
        let b ← ensureStructuralAlias ref name a b
        return (.recursiveAlias .zero name .nonStreaming, b)
    else if b.aliasVisiting.contains name then .fail (.aliasRecursed name)
    else if a.expr.isMissing then .fail (.unparsedAlias name)
    else do
      let (t, b) ← lowerType ref a.expr { b with aliasVisiting := name :: b.aliasVisiting }
      return (t, { b with aliasVisiting := b.aliasVisiting.erase name })

/-- `descriptorBuilder.lowerNameRef` on a plain name. -/
def lowerNameRef : ℕ → Bytes → Lowering Ty
  | 0, _, _ => .out
  | fuel + 1, name, b =>
    if idx.isAmbiguous name then .fail (.ambiguous name)
    else
      match idx.classes name with
      | some tb => do
        let b ← ensureClass info (lowerNameRef fuel) name tb b
        return (.cls .zero name .nonStreaming false, b)
      | none =>
        match idx.enums name with
        | some tb =>
          match ensureEnum name tb b with
          | .error e => .fail e
          | .ok b => .ok (.enum .zero name false, b)
        | none =>
          match idx.aliases name with
          | some a => resolveAlias info (lowerNameRef fuel) name a b
          | none => .fail (.unresolved name)

end

/-! ### The bundle -/

mutual

/-- `lowerDescriptorType`: the same type, if every reference has a name and no variant is null. -/
def checkDescriptorType (path : TypePath) : Ty → Except DeclineError Unit
  | .top _ | .primitive _ _ | .literal _ _ => .ok ()
  | .enum _ name _ | .cls _ name _ _ | .recursiveAlias _ name _ =>
    if name = [] then .error (.emptyName path) else .ok ()
  | .list _ e => checkDescriptorType (path.push .elem) e
  | .map _ k v =>
    andThen (checkDescriptorType (path.push .key) k) (checkDescriptorType (path.push .value) v)
  | .union _ vs _ => checkDescriptorVariants path 0 vs
  | .tuple _ ts => checkDescriptorTypes path .item 0 ts
  | .arrow _ ts r =>
    andThen (checkDescriptorTypes path .param 0 ts) (checkDescriptorType (path.push .ret) r)

/-- `lowerUnion`. -/
def checkDescriptorVariants (path : TypePath) (i : ℕ) : List Ty → Except DeclineError Unit
  | [] => .ok ()
  | v :: vs =>
    if v.isNull then .error (.nullVariant path i)
    else andThen (checkDescriptorType (path.push (.variant i)) v)
      (checkDescriptorVariants path (i + 1) vs)

/-- `lowerTypeSlice`. -/
def checkDescriptorTypes (path : TypePath) (step : ℕ → PathStep) (i : ℕ) :
    List Ty → Except DeclineError Unit
  | [] => .ok ()
  | t :: ts =>
    andThen (checkDescriptorType (path.push (step i)) t) (checkDescriptorTypes path step (i + 1) ts)

end

/-- `FromStaticDescriptor`. -/
def fromStaticDescriptor (d : Bundle) : Except DeclineError Bundle :=
  match checkAll (fun x => checkDescriptorType x.2 x.1) d.rootTypes with
  | .error e => .error e
  | .ok _ =>
    match d.validate with
    | .error e => .error (.schema e)
    | .ok _ => .ok d

namespace DescriptorBuilder

variable (info : RecursionInfo) (b : DescriptorBuilder)

/-- The structural aliases that were finished. -/
def orderedStructuralAliases : List RecursiveAliasDef :=
  b.structuralAliases.filterMap fun e => e.2.map fun t => ⟨e.1, t⟩

/-- The bundle in the order of discovery. -/
def discovered (target : Ty) : Bundle where
  target := target
  enums := b.enums.map Prod.snd
  classes := b.classes.map Prod.snd
  recursiveClasses := (b.classes.map Prod.fst).filter info.recursiveClass
  structuralRecursiveAliases := b.orderedStructuralAliases

/-- The recursive classes, cycle by cycle. -/
def orderRecursiveClasses (classNames : List Bytes) : List Bytes :=
  (classNames.flatMap info.classCycleOf).eraseDups

/-- The bundle in the order of the renderer. -/
def reorderByReachability (internal : Bundle) : Bundle :=
  let order := orderByReachability internal.target internal.enums internal.classes
    internal.structuralRecursiveAliases
  { internal with
    enums := order.enumsOut.filterMap fun e => b.enums.lookup e.name.name
    classes := order.classesOut.filterMap fun c => b.classes.lookup c.name.name
    recursiveClasses := orderRecursiveClasses info (order.classesOut.map (·.name.name))
    structuralRecursiveAliases := order.aliasesOut.filterMap fun name =>
      b.orderedStructuralAliases.find? fun a => a.name = name }

end DescriptorBuilder

/-- `buildFunctionDescriptor`, with the recursion analysis of the project. -/
def buildWith (idx : SchemaTypeIndex) (info : RecursionInfo) (fuel : ℕ) (fn : FunctionBlock) :
    Run DeclineError Bundle :=
  if fn.ret.isMissing then .fail (.noReturn fn.name)
  else do
    let (target, b) ← lowerType (lowerNameRef idx info fuel) fn.ret .new
    match fromStaticDescriptor (b.discovered info target) with
    | .error e => .fail e
    | .ok internal =>
      match internal.validateOutput with
      | .error e => .fail (.schema e)
      | .ok _ => return b.reorderByReachability info internal

/-- `buildFunctionDescriptor`. -/
def buildFunctionDescriptor (files : List SourceFile) (fn : FunctionBlock) :
    Run DeclineError Bundle :=
  let idx := buildSchemaTypeIndex files
  match analyzeRecursion idx with
  | none => .out
  | some info => buildWith idx info (idx.declared.length + 1) fn

end BamlRest.NativeSchema
