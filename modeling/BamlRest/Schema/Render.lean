import BamlRest.Lib.Search
import BamlRest.Schema.Order

/-!
# Rendering the output format

`internal/schema/outputformat`: the text that tells the model which answer is expected.
-/

namespace BamlRest

/-! ### Options -/

/-- A text option: by the renderer, given, or none. -/
inductive StringSetting where
  | auto
  | always (s : Bytes)
  | never

/-- A given text that is not empty. -/
def StringSetting.alwaysNonEmpty : StringSetting → Option Bytes
  | .always s => if s = [] then none else some s
  | .auto | .never => none

/-- Which classes are hoisted. -/
inductive HoistClasses where
  | auto
  | all
  | subset (names : List Bytes)

/-- How maps are written. -/
inductive MapStyle where
  | angle
  | object

/-- `Options`. The setting `orSplitter` is `OrSplitter` where it is set. -/
structure RenderOptions where
  prefixSetting : StringSetting
  orSplitter : Option Bytes
  enumValuePrefix : StringSetting
  hoistedClassPrefix : StringSetting
  hoistClasses : HoistClasses
  alwaysHoistEnums : Bool
  mapStyle : MapStyle
  quoteClassFields : Bool

/-- The zero value of `Options`. -/
def RenderOptions.zero : RenderOptions :=
  ⟨.auto, none, .auto, .auto, .auto, false, .angle, false⟩

namespace RenderOptions

/-- `Options.orSplitter`. -/
def orSplitterText (o : RenderOptions) : Bytes := o.orSplitter.getD " or "

/-- `Options.enumValuePrefix`. -/
def enumValuePrefixText (o : RenderOptions) : Bytes :=
  match o.enumValuePrefix with
  | .always s => s
  | .never => []
  | .auto => "- "

/-- What a hoisted class is called. -/
def typePrefixWord (o : RenderOptions) : Bytes :=
  o.hoistedClassPrefix.alwaysNonEmpty.getD "schema"

end RenderOptions

/-! ### Texts -/

/-- `strings.ReplaceAll(s, "\n", "\n" + indent)`. -/
def indentLines (indent s : Bytes) : Bytes :=
  s.flatMap fun (b : UInt8) => if b = '\n' then b :: indent else [b]

def literalDisplay : LiteralValue → Bytes := literalDisplayKey

/-- A value of the enum has a description. -/
def enumHasDescription (e : EnumDef) : Bool := e.values.any (·.description.isSome)

/-- `a` or `an`. -/
def indefiniteArticle : Bytes → Bytes
  | [] => "a"
  | b :: _ => if (bytes "aAeEiIoOuU").contains b then "an" else "a"

/-! ### Unions -/

/-- What a union is to the renderer. -/
inductive ViewKind where
  | null
  | optional
  | oneOf
  | oneOfOptional

/-- `unionView`. -/
def unionView (vs : List Ty) (nullable : Bool) : ViewKind :=
  match vs with
  | [] => .null
  | [_] => .optional
  | _ => if nullable then .oneOfOptional else .oneOf

/-- A union that admits null. -/
def unionIsOptional (vs : List Ty) (nullable : Bool) : Bool :=
  match vs with
  | [] | [_] => true
  | _ => nullable

/-- The variants, and null if it is one. -/
def unionIterIncludeNull (vs : List Ty) (nullable : Bool) : List Ty :=
  if unionIsOptional vs nullable then vs ++ [nullType] else vs

/-- A primitive type, or lists of one. -/
def isPrimitive : Ty → Bool
  | .primitive _ _ => true
  | .list _ e => isPrimitive e
  | _ => false

/-! ### The renderer -/

/-- What `Render` can complain about. -/
inductive RenderError where
  | validate (e : SchemaError)
  | enumNotFound (name : Bytes)
  | classNotFound (name : Bytes)
  | notSupported (t : Ty)
  | hoistSubset (names : List Bytes)
  deriving DecidableEq

/-- `orderedSet.add`. -/
def addOnce (s : List Bytes) (x : Bytes) : List Bytes := if s.contains x then s else s ++ [x]

/-- What is hoisted. -/
structure RenderCtx where
  hoistedEnums : List Bytes
  hoistedClasses : List Bytes

/-- `renderer`, with the hoisted definitions. -/
structure Renderer where
  b : Bundle
  opts : RenderOptions
  ctx : RenderCtx

namespace Renderer

/-- A class that is written by its name. -/
def isHoistedClass (r : Renderer) : Ty → Bool
  | .cls _ name _ _ => r.ctx.hoistedClasses.contains name
  | _ => false

/-- A hoisted enum. -/
def enumToString (r : Renderer) (e : EnumDef) : Bytes :=
  e.name.renderedName ++ bytes "\n----" ++ e.values.flatMap fun v =>
    bytes "\n" ++ r.opts.enumValuePrefixText ++ v.name.renderedName ++
      (match v.description with
        | some d => ": " ++ indentLines "  " d
        | none => [])

/-- An enum inside a type: its name if it is hoisted, its values otherwise. -/
def enumRender (r : Renderer) (e : EnumDef) : Bytes :=
  if r.ctx.hoistedEnums.contains e.name.name then e.name.renderedName
  else joinWith r.opts.orSplitterText
    (e.values.map fun v => "'" ++ v.name.renderedName ++ "'")

/-- A description as comment lines. -/
def descriptionLines : Option Bytes → Bytes
  | none => []
  | some d =>
    let d := trimSpace d
    if d = [] then []
    else ((d.splitOn '\n'.toUInt8).flatMap fun line => bytes "  // " ++ line ++ bytes "\n") ++
      "\n"

section

variable (r : Renderer) (rec : Ty → Run RenderError Bytes)

/-- A hoisted class by its name, anything else in full. -/
def renderPossiblyHoisted (t : Ty) : Run RenderError Bytes :=
  match t with
  | .cls _ name _ _ => if r.ctx.hoistedClasses.contains name then .ok name else rec t
  | _ => rec t

/-- The variants of a union. -/
def renderMembers : List Ty → Run RenderError (List Bytes)
  | [] => .ok []
  | t :: ts => do
    let s ← r.renderPossiblyHoisted rec t
    let rest ← renderMembers ts
    return s :: rest

/-- The fields of a class. -/
def fieldsRender : List ClassField → Run RenderError Bytes
  | [] => .ok []
  | f :: fs => do
    let typeStr ← r.renderPossiblyHoisted rec f.type
    let rest ← fieldsRender fs
    let comment := match f.description with
      | some d => "  // " ++ indentLines "  // " d ++ "\n"
      | none => []
    let name := if r.opts.quoteClassFields then
        "  \"" ++ f.name.renderedName ++ "\": "
      else "  " ++ f.name.renderedName ++ ": "
    return comment ++ name ++ indentLines "  " typeStr ++ ",\n" ++ rest

/-- A class in braces. -/
def classRender (c : ClassDef) : Run RenderError Bytes := do
  let fields ← r.fieldsRender rec c.fields
  return "\x7b\n" ++ descriptionLines c.description ++ fields ++ "\x7d"

/-- A list. -/
def listRender (inner : Ty) : Run RenderError Bytes := do
  let isHoisted := match inner with
    | .cls _ name _ _ => r.ctx.hoistedClasses.contains name
    | .recursiveAlias _ name _ => (r.b.findRecursiveAlias name).isSome
    | _ => false
  let innerStr ← r.renderPossiblyHoisted rec inner
  let complex := match inner with
    | .primitive _ _ => false
    | .enum _ _ _ => decide (15 < innerStr.length)
    | .union _ vs nullable => !(unionIterIncludeNull vs nullable).any isPrimitive
    | _ => true
  let isUnion := match inner with
    | .union _ _ _ => true
    | _ => false
  return if !isHoisted && complex then
      "[\n  " ++ indentLines "  " innerStr ++ "\n]"
    else if isUnion then "(" ++ innerStr ++ ")[]"
    else innerStr ++ "[]"

/-- A map in the chosen style. -/
def mapRender (key value : Ty) : Run RenderError Bytes := do
  let k ← r.renderPossiblyHoisted rec key
  let v ← r.renderPossiblyHoisted rec value
  return match r.opts.mapStyle with
    | .object => "\x7b" ++ k ++ ": " ++ v ++ "\x7d"
    | .angle => "map<" ++ k ++ ", " ++ v ++ ">"

/-- The body of `renderer.innerTypeRender`; `rec` stands for the recursive calls. -/
def innerTypeRenderF (t : Ty) : Run RenderError Bytes :=
  match t with
  | .primitive _ (.media _) => .fail (.notSupported t)
  | .primitive _ p => .ok (primitiveDisplay p)
  | .literal _ l => .ok (literalDisplay l)
  | .enum _ name _ =>
    match r.b.findEnum name with
    | none => .fail (.enumNotFound name)
    | some e => .ok (r.enumRender e)
  | .cls _ name mode _ =>
    match r.b.findClass name mode with
    | none => .fail (.classNotFound name)
    | some c => r.classRender rec c
  | .recursiveAlias _ name _ => .ok name
  | .list _ e => r.listRender rec e
  | .union _ vs nullable => do
    let parts ← r.renderMembers rec (unionIterIncludeNull vs nullable)
    return joinWith r.opts.orSplitterText parts
  | .map _ k v => r.mapRender rec k v
  | .tuple _ _ | .arrow _ _ _ | .top _ => .fail (.notSupported t)

end

/-- `renderer.innerTypeRender`, to the depth `fuel`. -/
def innerTypeRender (r : Renderer) : ℕ → Ty → Run RenderError Bytes
  | 0, _ => .out
  | fuel + 1, t => r.innerTypeRenderF (r.innerTypeRender fuel) t

/-- The text of a `PrimitiveKind`. -/
def primitiveName : PrimitiveKind → Bytes
  | .media _ => "media"
  | p => primitiveDisplay p

/-- The text before a schema, when none is given. -/
def autoPrefix (r : Renderer) : Option Bytes :=
  match r.b.target with
  | .primitive _ .string => none
  | .primitive _ p => some ("Answer as " ++ indefiniteArticle (primitiveName p) ++ " ")
  | .literal _ _ => some "Answer using this specific value:\n"
  | .enum _ _ _ => some "Answer with any of the categories:\n"
  | .cls _ name _ _ =>
    let ending := if r.ctx.hoistedClasses.contains name then bytes " " else bytes "\n"
    some ("Answer in JSON using this " ++ r.opts.typePrefixWord ++ ":" ++ ending)
  | .recursiveAlias _ _ _ =>
    some ("Answer in JSON using this " ++ r.opts.typePrefixWord ++ ": ")
  | .list _ _ => some "Answer with a JSON Array using this schema:\n"
  | .union _ vs nullable =>
    match unionView vs nullable with
    | .null => some "Answer ONLY with null:\n"
    | .optional => some "Answer in JSON using this schema:\n"
    | .oneOf | .oneOfOptional => some "Answer in JSON using any of these schemas:\n"
  | .map _ _ _ => some "Answer in JSON using this schema:\n"
  | .tuple _ _ | .arrow _ _ _ | .top _ => none

/-- `renderer.prefix`. -/
def schemaPrefix (r : Renderer) : Option Bytes :=
  match r.opts.prefixSetting with
  | .always s => some s
  | .never => none
  | .auto => r.autoPrefix

/-- The schema of the target. -/
def message (r : Renderer) (fuel : ℕ) (prefixPresent : Bool) : Run RenderError (Option Bytes) :=
  match r.b.target with
  | .enum _ name _ =>
    match r.b.findEnum name with
    | none => .fail (.enumNotFound name)
    | some e => .ok (some (r.enumToString e))
  | .primitive m .string =>
    if prefixPresent then do return some (← r.innerTypeRender fuel (.primitive m .string))
    else .ok none
  | t => do return some (← r.innerTypeRender fuel t)

/-- A definition under its name, with the prefix for hoisted classes. -/
def definition (r : Renderer) (name sep body : Bytes) : Bytes :=
  match r.opts.hoistedClassPrefix.alwaysNonEmpty with
  | some p => p ++ " " ++ name ++ sep ++ body
  | none => name ++ sep ++ body

/-- `renderer.classDefinitions`, for the given hoisted classes. -/
def classDefinitions (r : Renderer) (fuel : ℕ) : List Bytes → Run RenderError (List Bytes)
  | [] => .ok []
  | name :: names => do
    let body ← r.innerTypeRender fuel (.cls .zero name .nonStreaming false)
    let rest ← r.classDefinitions fuel names
    return r.definition name " " body :: rest

/-- `renderer.aliasDefinitions`, for the given aliases. -/
def aliasDefinitions (r : Renderer) (fuel : ℕ) :
    List RecursiveAliasDef → Run RenderError (List Bytes)
  | [] => .ok []
  | a :: as => do
    let target ← r.innerTypeRender fuel a.target
    let rest ← r.aliasDefinitions fuel as
    return r.definition a.name " = " target :: rest

/-- `renderer.enumDefinitions`, for the given hoisted enums. -/
def enumDefinitions (r : Renderer) (targetIsHoistedEnum : Bool) (pre : Option Bytes) :
    List Bytes → Run RenderError (List Bytes)
  | [] => .ok []
  | name :: names =>
    match r.b.findEnum name with
    | none => .fail (.enumNotFound name)
    | some e => do
      let rest ← r.enumDefinitions targetIsHoistedEnum pre names
      let folded := if targetIsHoistedEnum && name = e.name.name then pre.getD [] else []
      return (folded ++ r.enumToString e) :: rest

/-- The rest of `renderer.render`, once the hoisted definitions are known. -/
def renderText (r : Renderer) (fuel : ℕ) : Run RenderError Bytes := do
  let pre := r.schemaPrefix
  let message ← r.message fuel pre.isSome
  let message := match r.b.target with
    | .cls _ name _ _ => if r.ctx.hoistedClasses.contains name then some name else message
    | _ => message
  let targetIsHoistedEnum := match r.b.target with
    | .enum _ name _ => r.ctx.hoistedEnums.contains name
    | _ => false
  let message := if targetIsHoistedEnum then none else message
  let classDefs ← r.classDefinitions fuel r.ctx.hoistedClasses
  let aliasDefs ← r.aliasDefinitions fuel r.b.structuralRecursiveAliases
  let enumDefs ← r.enumDefinitions targetIsHoistedEnum pre r.ctx.hoistedEnums
  let blank := bytes "\n\n"
  let enumText := if enumDefs.isEmpty then [] else
    joinWith blank enumDefs ++ (if targetIsHoistedEnum then [] else blank)
  let classText := if classDefs.isEmpty then [] else joinWith blank classDefs ++ blank
  let aliasText := if aliasDefs.isEmpty then [] else joinWith (bytes "\n") aliasDefs ++ blank
  let prefixText := if targetIsHoistedEnum then [] else pre.getD []
  let text := enumText ++ classText ++ aliasText ++ prefixText ++ message.getD []
  return (text.reverse.dropWhile (· = '\n'.toUInt8)).reverse

end Renderer

/-- Enums with many values or with descriptions are hoisted. -/
def hoistedEnums (b : Bundle) (opts : RenderOptions) : List Bytes :=
  (b.enums.filter fun e => decide (6 < e.values.length) || enumHasDescription e ||
    opts.alwaysHoistEnums).foldl (fun s e => addOnce s e.name.name) []

/-- The classes that are hoisted: the recursive ones, and those the options ask for. -/
def hoistedClasses (b : Bundle) (opts : RenderOptions) : Except RenderError (List Bytes) :=
  let recursive := b.recursiveClasses.foldl addOnce []
  match opts.hoistClasses with
  | .auto => .ok recursive
  | .all => .ok ((b.classes.map (·.name.name)).foldl addOnce recursive)
  | .subset names =>
    let notFound := (names.filter (!b.classExists ·)).foldl addOnce []
    if notFound.isEmpty then .ok ((names.filter b.classExists).foldl addOnce recursive)
    else .error (.hoistSubset notFound)

/-- `Render`, to the depth `fuel`. -/
def render (fuel : ℕ) (b : Bundle) (opts : RenderOptions) : Run RenderError Bytes :=
  match b.validateOutput with
  | .error e => .fail (.validate e)
  | .ok _ =>
    match hoistedClasses b opts with
    | .error e => .fail e
    | .ok classes => Renderer.renderText ⟨b, opts, ⟨hoistedEnums b opts, classes⟩⟩ fuel

end BamlRest
