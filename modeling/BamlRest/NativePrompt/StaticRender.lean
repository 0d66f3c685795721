import BamlRest.NativePrompt.StaticTemplate

/-!
# Static prompts

`RenderStatic` renders the template of a function with the values of its arguments, and reads the
messages off the result.

* `bindValue`, `prepareStatic`, `renderStatic`: the stages.
* `renderStatic_structure`: the values do not change the kind and the roles of the prompt.
-/

namespace BamlRest.NativePrompt

open List Delimiter

/-! ### Values -/

/-- An argument, as it arrives. -/
inductive StaticValue where
  | null
  | string (s : Bytes)
  | int (i : Int64)
  | float (f : F64)
  | bool (b : Bool)
  | enum (typeName canonical : Bytes)
  | cls (typeName : Bytes) (fields : List (Bytes × StaticValue))
  | list (items : List StaticValue)
  | unknown

/-- An argument, as the engine gets it. -/
inductive HostValue where
  | string (s : Bytes)
  | int (i : Int64)
  | float (f : F64)
  | bool (b : Bool)
  | enum (enumName canonical : Bytes) (alias_ : Option Bytes)
  | cls (fields : List (Bytes × Option Bytes × HostValue))
  | list (items : List HostValue)

/-! ### Types -/

/-- Names that arguments may not take. -/
def reservedGlobalNames : List Bytes := ["ctx", "_"]

namespace Universe

/-- `checkEdge`: a type refers to what the universe has. -/
def checkEdge (u : Universe) : ValueType → Bool
  | .mk .enum _ e c el => c = [] && el.isNone && (u.enum? e).isSome
  | .mk .cls _ e c el => e = [] && el.isNone && (u.cls? c).isSome
  | .mk .list _ e c (some el) => e = [] && c = [] && el.kind ≠ .list && u.checkEdge el
  | .mk .list _ _ _ none | .mk .unknown _ _ _ _ => false
  | .mk _ _ e c el => e = [] && c = [] && el.isNone

/-- An enum with a fresh name and distinct members. -/
def validEnum (seen : List Bytes) (e : ResolvedEnum) : Bool :=
  e.name ≠ [] && e.name ∉ reservedGlobalNames && e.name ∉ seen && e.members ≠ [] &&
    e.members.all (fun m => m.canonical ≠ []) && decide (e.members.map (·.canonical)).Nodup

/-- All enums are valid, with distinct names. -/
def validEnums (seen : List Bytes) : List ResolvedEnum → Bool
  | [] => true
  | e :: es => validEnum seen e && validEnums (e.name :: seen) es

/-- A class with a fresh name and distinct fields. -/
def validClass (u : Universe) (seen : List Bytes) (c : ResolvedClass) : Bool :=
  c.name ≠ [] && c.name ∉ seen && (u.enum? c.name).isNone &&
    c.fields.all (fun f => f.canonical ≠ []) && decide (c.fields.map (·.canonical)).Nodup

/-- All classes are valid, with distinct names. -/
def validClasses (u : Universe) (seen : List Bytes) : List ResolvedClass → Bool
  | [] => true
  | c :: cs => u.validClass seen c && u.validClasses (c.name :: seen) cs

/-- `assertAcyclic`: no class of the type contains itself. -/
def assertAcyclic (u : Universe) : ℕ → List Bytes → ValueType → Bool
  | 0, _, _ => false
  | fuel + 1, onPath, t =>
    match t.kind with
    | .list =>
      match t.elem with
      | none => true
      | some el => u.assertAcyclic fuel onPath el
    | .cls =>
      if t.className ∈ onPath then false
      else
        match u.cls? t.className with
        | none => true
        | some c => c.fields.all fun f => u.assertAcyclic fuel (t.className :: onPath) f.type
    | _ => true

end Universe

/-- `validateUniverse`; every failure is a decline for the descriptor. -/
def validateUniverse (u : Universe) : Except Feature Universe :=
  if Universe.validEnums [] u.projectEnums && u.validClasses [] u.classes &&
      u.classes.all (fun c => c.fields.all fun f => u.checkEdge f.type) then .ok u
  else .error .staticDescriptor

/-- A declared argument; a type that was not lowered is `none`. -/
structure Argument where
  name : Bytes
  valueType : Option ValueType

/-- One declared argument. -/
def checkArg (u : Universe) (seen : List Bytes) (a : Argument) : Except Feature (Bytes × ValueType) :=
  if a.name = [] ∨ a.name ∈ reservedGlobalNames ∨ (u.enum? a.name).isSome then .error .staticArgType
  else if a.name ∈ seen then .error .staticArgValue
  else
    match a.valueType with
    | none => .error .staticArgType
    | some t =>
      if !u.checkEdge t then .error .staticArgType
      else if !u.assertAcyclic (2 * u.classes.length + 3) [] t then .error .enumClassValue
      else .ok (a.name, t)

/-- All declared arguments, with distinct names. -/
def checkArgs (u : Universe) (seen : List Bytes) :
    List Argument → Except Feature (List (Bytes × ValueType))
  | [] => .ok []
  | a :: as =>
    match checkArg u seen a with
    | .error err => .error err
    | .ok d => (checkArgs u (a.name :: seen) as).map (d :: ·)

/-- `checkV3ArgDeclarations`: the arguments with their types. -/
def checkV3ArgDeclarations (args : List Argument) (u : Universe) :
    Except Feature (List (Bytes × ValueType)) :=
  checkArgs u [] args

/-! ### Binding -/

/-- Infinities and NaN have no literal. -/
def finite (f : F64) : Bool := !f.isNaN && !f.isInf

/-- The cases of `bindValue` for a value that is no class and no list. -/
def bindLeaf (u : Universe) (want : ValueType) (got : StaticValue) : Except Feature HostValue :=
  match want.kind, got with
  | _, .null => .error .staticArgValue
  | .string, .string s => if validUtf8 s then .ok (.string s) else .error .staticArgValue
  | .int, .int i => .ok (.int i)
  | .float, .float f => if finite f then .ok (.float f) else .error .staticArgValue
  | .bool, .bool b => .ok (.bool b)
  | .enum, .enum typeName canonical =>
    if typeName ≠ want.enumName then .error .staticArgValue
    else
      match u.member? want.enumName canonical with
      | none => .error .staticArgValue
      | some m => .ok (.enum want.enumName m.canonical m.alias_)
  | .unknown, _ => .error .staticArgType
  | _, _ => .error .staticArgValue

mutual

/-- `bindValue`: an argument against its type. -/
def bindValue (u : Universe) (want : ValueType) : StaticValue → Except Feature HostValue
  | .cls typeName fields =>
    if want.nullable ∨ want.kind = .null ∨ want.kind = .unknown then .error .staticArgType
    else if want.kind ≠ .cls ∨ typeName ≠ want.className then .error .staticArgValue
    else
      let declared := ((u.cls? want.className).map (·.fields)).getD []
      if fields.length ≠ declared.length then .error .staticArgValue
      else (bindFields u declared fields).map .cls
  | .list items =>
    if want.nullable ∨ want.kind = .null ∨ want.kind = .unknown then .error .staticArgType
    else if want.kind ≠ .list then .error .staticArgValue
    else
      match want.elem with
      | none => .error .staticArgType
      | some el => (bindItems u el items).map .list
  | got =>
    if want.nullable ∨ want.kind = .null then .error .staticArgType else bindLeaf u want got

/-- The fields of a class value, each against its declaration. -/
def bindFields (u : Universe) (declared : List ResolvedClassField) :
    List (Bytes × StaticValue) → Except Feature (List (Bytes × Option Bytes × HostValue))
  | [] => .ok []
  | (canonical, got) :: fields =>
    match declared with
    | [] => .ok []
    | d :: declared =>
      if canonical ≠ d.canonical then .error .staticArgValue
      else
        match bindValue u d.type got with
        | .error err => .error err
        | .ok v => (bindFields u declared fields).map ((d.canonical, d.alias_, v) :: ·)

/-- The elements of a list value. -/
def bindItems (u : Universe) (el : ValueType) : List StaticValue → Except Feature (List HostValue)
  | [] => .ok []
  | got :: items =>
    match bindValue u el got with
    | .error err => .error err
    | .ok v => (bindItems u el items).map (v :: ·)

end

/-- The value prints something that is no whitespace. -/
def renderedNonWhitespaceV3 (u : Universe) (want : ValueType) (got : StaticValue) : Bool :=
  match want.kind, got with
  | .string, .string s => trimSpace s ≠ []
  | .string, _ => false
  | .enum, .enum _ canonical =>
    match u.member? want.enumName canonical with
    | none => false
    | some m => trimSpace (m.alias_.getD m.canonical) ≠ []
  | .enum, _ => false
  | _, _ => true

/-- An argument that is bound. -/
structure ArgBinding where
  name : Bytes
  vtype : ValueType
  value : HostValue
  nonWS : Bool

/-- The loop of `bindV3Args`, for as many values as arguments. -/
def bindArgs (u : Universe) : List (Bytes × ValueType) → List (Bytes × StaticValue) →
    Except Feature (List ArgBinding)
  | (name, t) :: args, (vname, v) :: values =>
    if vname ≠ name then .error .staticArgValue
    else
      match bindValue u t v with
      | .error err => .error err
      | .ok bound =>
        (bindArgs u args values).map (⟨name, t, bound, renderedNonWhitespaceV3 u t v⟩ :: ·)
  | _, _ => .ok []

/-- `bindV3Args`. -/
def bindV3Args (args : List (Bytes × ValueType)) (values : List (Bytes × StaticValue))
    (u : Universe) : Except Feature (List ArgBinding) :=
  if values.length ≠ args.length then .error .staticArgValue else bindArgs u args values

/-- `newTypeGate`. -/
def newTypeGate (bindings : List ArgBinding) (u : Universe) : TypeGate :=
  ⟨bindings.map fun b => (b.name, b.vtype), u⟩

/-! ### Templates -/

/-- `[]rune(s)`. -/
def runesF : ℕ → Bytes → List ℕ
  | 0, _ => []
  | fuel + 1, s =>
    match s with
    | [] => []
    | b :: r => (decodeRune (b :: r)).1 :: runesF fuel ((b :: r).drop (decodeRune (b :: r)).2)

/-- The code points of a text. -/
def runes (s : Bytes) : List ℕ := runesF s.length s

/-- `char::is_whitespace` of Rust. -/
def isRustWhitespace (c : ℕ) : Bool :=
  c ∈ [0x09, 0x0a, 0x0b, 0x0c, 0x0d, 0x20, 0x85, 0xA0, 0x1680, 0x2000, 0x2001, 0x2002, 0x2003, 0x2004,
    0x2005, 0x2006, 0x2007, 0x2008, 0x2009, 0x200A, 0x2028, 0x2029, 0x202F, 0x205F, 0x3000]

/-- The indentation of a line, in code points. -/
def leadingWhitespaceRunes (s : Bytes) : ℕ := ((runes s).takeWhile isRustWhitespace).length

/-- `dedentTrim`: the common indentation goes, and blank space around. -/
def dedentTrim (t : Bytes) : Bytes :=
  let lines := split [0x0a] t
  let widths := (lines.filter fun ln => trimSpace ln ≠ []).map leadingWhitespaceRunes
  let minWS := widths.min?.getD 0
  trimSpace (joinWith [0x0a] (lines.map fun ln => ((runes ln).drop minWS).flatMap encodeRune))

/-! ### Markers -/

/-- The checks of the pieces of a chat. At odd places there are the markers. -/
def checkChunks (expectedRoles : List Bytes) (i : ℕ) : List Bytes → Bool
  | [] => true
  | chunk :: chunks =>
    (if i % 2 = 1 then
      isRoleMarker chunk &&
        match parseRoleMarker chunk with
        | .ok (role, allowDupe, meta_) =>
          !allowDupe && meta_.isEmpty && expectedRoles[(i - 1) / 2]? == some role
        | .error _ => false
    else !hasInfix roleMarkerPrefix chunk && !hasInfix roleMarkerSuffix chunk) &&
      checkChunks expectedRoles (i + 1) chunks

/-- `validateRenderedMarkers`: the rendered text has the markers of the template and no others. -/
def validateRenderedMarkers (rendered : Bytes) (expectedRoles : List Bytes) : Except Feature Unit :=
  if [mediaDelim, mediaMarkerPrefix, mediaMarkerSuffix].any (hasInfix · rendered) then
    .error .reservedDelimiter
  else if expectedRoles.length = 0 then
    if hasInfix roleDelim rendered || hasInfix roleMarkerPrefix rendered ||
        hasInfix roleMarkerSuffix rendered then .error .reservedDelimiter
    else .ok ()
  else
    let chunks := split roleDelim rendered
    if chunks.length ≠ 2 * expectedRoles.length + 1 then .error .reservedDelimiter
    else if checkChunks expectedRoles 0 chunks then .ok ()
    else .error .reservedDelimiter

/-! ### Rendering -/

/-- `promptdescriptor.Function`, with the return descriptor as `R`. -/
structure Function (R : Type*) where
  version : ℤ
  method : Bytes
  client : Bytes
  provider : Bytes
  returnVersion : ℤ
  returnMethod : Bytes
  returnBundle : R
  macros : ℕ
  inputValues : Universe
  args : List Argument
  prompt : Bytes

/-- What is computed elsewhere: the lowered return type, its output format, and the template engine
with the output format, the enums of the project and the variables. -/
structure Engine (R B : Type*) where
  fromStaticDescriptor : R → Option B
  renderOutputFormat : B → Option Bytes
  render : Bytes → Bytes → List ResolvedEnum → List (Bytes × HostValue) → Option Bytes

/-- Declined, or failed in the engine. -/
inductive RenderError where
  | declined (feature : Feature)
  | engine
  | lower (err : LowerError)

variable {R B : Type*} (eng : Engine R B) (fn : Function R)

/-- What is checked of the function before its template. -/
def checkStaticEnvelope : Except Feature B :=
  if fn.version ≠ 3 ∨ fn.method = [] ∨ fn.client = [] ∨ fn.provider = [] ∨ fn.returnVersion ≠ 1 ∨
      fn.returnMethod ≠ fn.method then .error .staticDescriptor
  else
    match eng.fromStaticDescriptor fn.returnBundle with
    | none => .error .staticDescriptor
    | some bundle => .ok bundle

/-- The steps of `prepareStatic` that do not look at the values: the lowered return type, the types,
and the arguments. -/
def prepareTypes : Except Feature (B × Universe × List (Bytes × ValueType)) :=
  match checkStaticEnvelope eng fn with
  | .error err => .error err
  | .ok bundle =>
    if fn.macros ≠ 0 then .error .templateString
    else
      match validateUniverse fn.inputValues with
      | .error err => .error err
      | .ok u => (checkV3ArgDeclarations fn.args u).map fun decls => (bundle, u, decls)

/-- The output format, if the template asks for it. -/
def outputFormatFor (bundle : B) (events : List EvtKind) : Except Feature Bytes :=
  if .outputFormat ∈ events then
    match eng.renderOutputFormat bundle with
    | none => .error .staticDescriptor
    | some block => .ok block
  else .ok []

/-- The event prints something. -/
def isContentful (bindings : List ArgBinding) (outputFormat : Bytes) : EvtKind → Bool
  | .text | .enumPredicate => true
  | .interp arg => (lookup (bindings.map fun b => (b.name, b.nonWS)) arg).getD false
  | .outputFormat => trimSpace outputFormat ≠ []
  | .role _ => false

/-- `prepareStatic`: the rendered text. -/
def prepareStatic (values : List (Bytes × StaticValue)) : Except RenderError Bytes :=
  match prepareTypes eng fn with
  | .error err => .error (.declined err)
  | .ok (bundle, u, decls) =>
    match bindV3Args decls values u with
    | .error err => .error (.declined err)
    | .ok bindings =>
      match analyzeTemplate fn.prompt (newTypeGate bindings u) with
      | .error err => .error (.declined err)
      | .ok events =>
        match outputFormatFor eng bundle events with
        | .error err => .error (.declined err)
        | .ok outputFormat =>
          match validateChatLayout events (isContentful bindings outputFormat) with
          | .error err => .error (.declined err)
          | .ok _ =>
            match eng.render (dedentTrim fn.prompt) outputFormat u.projectEnums
                (bindings.map fun b => (b.name, b.value)) with
            | none => .error .engine
            | some rendered =>
              match validateRenderedMarkers rendered (roleSequence events) with
              | .error err => .error (.declined err)
              | .ok _ => .ok rendered

/-- `RenderStatic`. -/
def renderStatic (values : List (Bytes × StaticValue)) : Except RenderError RenderedPrompt :=
  match prepareStatic eng fn values with
  | .error err => .error err
  | .ok rendered =>
    match lower rendered with
    | .error err => .error (.lower err)
    | .ok p => .ok p

/-! ## Validated texts -/

/-- A chunk without media. -/
structure IsPlain (chunk : Bytes) : Prop where
  delim : ¬mediaDelim <:+: chunk
  media : isMediaMarker chunk = false

theorem not_isMarker_of_not_infix {before after chunk} (h : ¬before <:+: chunk) :
    isMarker before after chunk = false := by
  by_contra hmarker
  rw [Bool.not_eq_false, isMarker, Bool.and_eq_true] at hmarker
  have hpre := isPrefixOf_iff_prefix.mp hmarker.1
  exact h hpre.isInfix

theorem lowerFrom_of_checkChunks {expectedRoles rs} {k : ℕ}
    (hroles : expectedRoles.drop k = rs) {chunks} (hlen : chunks.length = 2 * rs.length)
    (hcheck : checkChunks expectedRoles (2 * k + 1) chunks)
    (hplain : ∀ c ∈ chunks, IsPlain c) (messages) :
    ∃ new, lowerFrom messages chunks = .ok (messages ++ new) ∧ new.length = rs.length ∧
      ∀ i role, rs[i]? = some role → ∃ body, chunks[2 * i + 1]? = some body ∧
        new[i]? = some ⟨role, false, [], textParts body⟩ := by
  induction rs generalizing k chunks messages with
  | nil =>
    obtain rfl : chunks = [] := length_eq_zero_iff.mp hlen
    exact ⟨[], by simp [lowerFrom], rfl, fun i role h => (by cases h)⟩
  | cons r rs ih =>
    obtain ⟨marker, body, chunks, rfl⟩ : ∃ marker body cs, chunks = marker :: body :: cs := by
      rcases chunks with _ | ⟨marker, _ | ⟨body, cs⟩⟩
      · simp at hlen
      · simp only [length_cons, length_nil] at hlen
        omega
      · exact ⟨marker, body, cs, rfl⟩
    have hr : expectedRoles[k]? = some r := by
      rw [← head?_drop, hroles]
      rfl
    have hdrop : expectedRoles.drop (k + 1) = rs := by
      rw [← tail_drop, hroles]
      rfl
    rw [checkChunks, checkChunks, if_pos (by omega), if_neg (by omega), Bool.and_eq_true,
      Bool.and_eq_true, Bool.and_eq_true, Bool.and_eq_true] at hcheck
    obtain ⟨⟨hmarker, hparse⟩, ⟨hbody, -⟩, hrest⟩ := hcheck
    have hmsg : parseRoleMarker marker = .ok (r, false, []) := by
      cases h : parseRoleMarker marker with
      | error err =>
        rw [h] at hparse
        cases hparse
      | ok p =>
        obtain ⟨role, allowDupe, meta_⟩ := p
        rw [h] at hparse
        have hk : (2 * k + 1 - 1) / 2 = k := by omega
        simp only [hk, hr] at hparse
        simp_all
    have hrole : isRoleMarker body = false :=
      not_isMarker_of_not_infix (hasInfix_eq_false_iff.mp (by simpa using hbody))
    have hplainBody := hplain body (by simp)
    obtain ⟨new, hnew, hnewlen, hget⟩ := ih (k := k + 1) hdrop
      (by simp only [length_cons] at hlen; omega) hrest
      (fun c hc => hplain c (by simp [hc])) (messages ++ [⟨r, false, [], textParts body⟩])
    refine ⟨⟨r, false, [], textParts body⟩ :: new, ?_, by simp [hnewlen], fun i role hi => ?_⟩
    · rw [lowerFrom_cons_of_ok (lowerChunk_of_marker hmarker hmsg),
        lowerFrom_cons_of_ok (lowerChunk_of_text hrole hplainBody.delim hplainBody.media)]
      simpa using hnew
    cases i with
    | zero =>
      cases hi
      exact ⟨body, rfl, rfl⟩
    | succ i =>
      obtain ⟨b, hb, hmsg⟩ := hget i role hi
      exact ⟨b, hb, hmsg⟩

theorem validateRenderedMarkers_eq_ok {rendered roles}
    (h : validateRenderedMarkers rendered roles = .ok ()) : (∀ c, c <:+: rendered → IsPlain c) ∧
      (roles = [] → ¬roleDelim <:+: rendered) ∧
      (roles ≠ [] → (split roleDelim rendered).length = 2 * roles.length + 1 ∧
        checkChunks roles 0 (split roleDelim rendered)) := by
  unfold validateRenderedMarkers at h
  split at h
  case isTrue => cases h
  case isFalse hmedia =>
    simp only [any_cons, any_nil, Bool.or_false, Bool.or_eq_true, not_or,
      Bool.not_eq_true, hasInfix_eq_false_iff] at hmedia
    obtain ⟨hdelim, hpre, -⟩ := hmedia
    refine ⟨fun c hc => ⟨fun h => hdelim (h.trans hc), ?_⟩, ?_, ?_⟩
    · exact not_isMarker_of_not_infix fun h => hpre (h.trans hc)
    · rintro rfl
      rw [if_pos length_nil] at h
      split at h
      case isTrue => cases h
      case isFalse hnone =>
        simp only [Bool.or_eq_true, not_or, Bool.not_eq_true, hasInfix_eq_false_iff] at hnone
        exact hnone.1.1
    intro hroles
    rw [if_neg (by rwa [length_eq_zero_iff])] at h
    dsimp only at h
    split at h
    case isTrue => cases h
    case isFalse hlen =>
      split at h
      case isFalse => cases h
      case isTrue hcheck => exact ⟨not_not.mp hlen, hcheck⟩

theorem lower_of_no_roles {rendered} (h : validateRenderedMarkers rendered [] = .ok ()) :
    lower rendered = .ok (.completion rendered) := by
  obtain ⟨hplain, hrole, -⟩ := validateRenderedMarkers_eq_ok h
  have hmedia := (hplain rendered infix_rfl).delim
  rw [lower, hasInfix_eq_false_iff.mpr (hrole rfl), hasInfix_eq_false_iff.mpr hmedia]
  rfl

theorem lower_of_roles {rendered roles} (hroles : roles ≠ [])
    (h : validateRenderedMarkers rendered roles = .ok ()) :
    ∃ pre rest, split roleDelim rendered = pre :: rest ∧
      (trimSpace pre ≠ [] → ∃ err, lower rendered = .error err) ∧
      (trimSpace pre = [] → ∃ messages, lower rendered = .ok (.chat messages) ∧
        messages.length = roles.length ∧ ∀ i role, roles[i]? = some role →
          ∃ body, (split roleDelim rendered)[2 * i + 2]? = some body ∧
            messages[i]? = some ⟨role, false, [], textParts body⟩) := by
  obtain ⟨hplain, -, hchunks⟩ := validateRenderedMarkers_eq_ok h
  obtain ⟨hlen, hcheck⟩ := hchunks hroles
  have hpos := length_pos_iff.mpr hroles
  have hchat : lower rendered = (lowerFrom [] (split roleDelim rendered)).map .chat := by
    have hdelim : roleDelim <:+: rendered := infix_of_length_split (by omega)
    rw [lower, hasInfix_iff.mpr hdelim]
    rfl
  have hall : ∀ c ∈ split roleDelim rendered, IsPlain c := fun c hc =>
    hplain c (infix_of_mem_split hc)
  rw [hchat]
  cases hsplit : split roleDelim rendered with
  | nil =>
    rw [hsplit] at hlen
    cases hlen
  | cons pre rest =>
    rw [hsplit] at hlen hcheck hall
    rw [checkChunks, if_neg (by omega), Bool.and_eq_true, Bool.and_eq_true] at hcheck
    obtain ⟨⟨hbefore, -⟩, hrest⟩ := hcheck
    have hrole : isRoleMarker pre = false :=
      not_isMarker_of_not_infix (hasInfix_eq_false_iff.mp (by simpa using hbefore))
    obtain ⟨hdelim, hmarker⟩ := hall pre mem_cons_self
    refine ⟨pre, rest, rfl, fun hblank => ⟨.beforeFirstRole, ?_⟩, fun hblank => ?_⟩
    · rw [lowerFrom, lowerChunk, hrole, if_neg Bool.false_ne_true,
        parseBody_of_text hdelim hmarker, textParts, if_neg hblank]
      rfl
    obtain ⟨messages, hmessages, hcount, hget⟩ := lowerFrom_of_checkChunks (k := 0) rfl
      (by simpa using hlen) hrest (fun c hc => hall c (mem_cons_of_mem _ hc)) []
    rw [lowerFrom_cons_of_ok (lowerChunk_nil_of_blank hrole hdelim hmarker hblank), hmessages]
    exact ⟨messages, rfl, hcount, hget⟩

/-! ## The structure of a static prompt -/

/-- The roles of a chat. -/
def RenderedPrompt.roles : RenderedPrompt → Option (List Bytes)
  | .completion _ => none
  | .chat messages => some (messages.map (·.role))

theorem roles_of_lower {rendered roles p}
    (h : validateRenderedMarkers rendered roles = .ok ()) (hp : lower rendered = .ok p) :
    p.roles = if roles = [] then none else some roles := by
  by_cases hroles : roles = []
  · subst hroles
    rw [lower_of_no_roles h] at hp
    cases hp
    rfl
  obtain ⟨pre, rest, -, herror, hchat⟩ := lower_of_roles hroles h
  by_cases hblank : trimSpace pre = []
  · obtain ⟨messages, hmessages, hlen, hget⟩ := hchat hblank
    rw [hmessages] at hp
    cases hp
    rw [if_neg hroles, RenderedPrompt.roles]
    congr 1
    refine ext_getElem? fun i => ?_
    rw [getElem?_map]
    cases hi : roles[i]? with
    | none =>
      rw [List.getElem?_eq_none_iff, ← hlen, ← List.getElem?_eq_none_iff] at hi
      rw [hi]
      rfl
    | some role =>
      obtain ⟨body, -, hmsg⟩ := hget i role hi
      rw [hmsg]
      rfl
  · obtain ⟨err, herr⟩ := herror hblank
    rw [herr] at hp
    cases hp

theorem newTypeGate_of_bindV3Args {decls : List (Bytes × ValueType)}
    {values : List (Bytes × StaticValue)} {u : Universe} {bindings : List ArgBinding}
    (h : bindV3Args decls values u = .ok bindings) : newTypeGate bindings u = ⟨decls, u⟩ := by
  have hbind : ∀ (decls : List (Bytes × ValueType)) (values : List (Bytes × StaticValue))
      (bindings : List ArgBinding), values.length = decls.length →
      bindArgs u decls values = .ok bindings →
      bindings.map (fun b => (b.name, b.vtype)) = decls := by
    intro decls
    induction decls with
    | nil =>
      intro values bindings hlen hb
      obtain rfl : values = [] := length_eq_zero_iff.mp hlen
      cases hb
      rfl
    | cons d decls ih =>
      intro values bindings hlen hb
      cases values with
      | nil => cases hlen
      | cons v values =>
        obtain ⟨name, t⟩ := d
        obtain ⟨vname, v⟩ := v
        rw [bindArgs] at hb
        split at hb
        case isTrue => cases hb
        case isFalse =>
          cases hv : bindValue u t v with
          | error err =>
            rw [hv] at hb
            cases hb
          | ok bound =>
            rw [hv] at hb
            cases hrest : bindArgs u decls values with
            | error err =>
              rw [hrest] at hb
              cases hb
            | ok rest =>
              rw [hrest] at hb
              cases hb
              rw [map_cons, ih values rest (Nat.succ.inj hlen) hrest]
  unfold bindV3Args at h
  split at h
  case isTrue => cases h
  case isFalse hlen =>
    rw [newTypeGate, hbind decls values bindings (not_not.mp hlen) h]

theorem roles_of_renderStatic {values p} (h : renderStatic eng fn values = .ok p) :
    ∃ bundle u decls events, prepareTypes eng fn = .ok (bundle, u, decls) ∧
      analyzeTemplate fn.prompt ⟨decls, u⟩ = .ok events ∧
      p.roles = if roleSequence events = [] then none else some (roleSequence events) := by
  unfold renderStatic at h
  split at h
  case h_1 => cases h
  case h_2 rendered hprepare =>
    unfold prepareStatic at hprepare
    split at hprepare
    case h_1 => cases hprepare
    case h_2 bundle u decls htypes =>
      split at hprepare
      case h_1 => cases hprepare
      case h_2 bindings hbind =>
        rw [newTypeGate_of_bindV3Args hbind] at hprepare
        split at hprepare
        case h_1 => cases hprepare
        case h_2 events hevents =>
          refine ⟨bundle, u, decls, events, htypes, hevents, ?_⟩
          split at hprepare
          case h_1 => cases hprepare
          case h_2 =>
            split at hprepare
            case h_1 => cases hprepare
            case h_2 =>
              split at hprepare
              case h_1 => cases hprepare
              case h_2 =>
                split at hprepare
                case h_1 => cases hprepare
                case h_2 hvalid =>
                  cases hprepare
                  split at h
                  case h_1 => cases h
                  case h_2 p' hlower =>
                    cases h
                    exact roles_of_lower hvalid hlower

/-- The values of a static prompt do not change its structure. A text whose markers are validated is
read as a completion if no roles are expected, and otherwise as one message for each of them with the
text up to the next delimiter, if the text before the first one is blank. So any two vectors of
arguments give prompts of one kind, with the same roles. -/
theorem renderStatic_structure :
    (∀ rendered roles, validateRenderedMarkers rendered roles = .ok () →
      (roles = [] → lower rendered = .ok (.completion rendered)) ∧
      (roles ≠ [] → (∀ pre, (split roleDelim rendered).head? = some pre → trimSpace pre = []) →
        ∃ messages, lower rendered = .ok (.chat messages) ∧ messages.length = roles.length ∧
          ∀ i role, roles[i]? = some role →
            ∃ body, (split roleDelim rendered)[2 * i + 2]? = some body ∧
              messages[i]? = some ⟨role, false, [], textParts body⟩)) ∧
    ∀ (R B : Type) (eng : Engine R B) (fn : Function R) (values values' : List (Bytes × StaticValue))
      (p p' : RenderedPrompt), renderStatic eng fn values = .ok p →
        renderStatic eng fn values' = .ok p' → p.roles = p'.roles := by
  refine ⟨fun rendered roles h => ⟨?_, fun hroles hpre => ?_⟩, ?_⟩
  · rintro rfl
    exact lower_of_no_roles h
  · obtain ⟨pre, rest, hsplit, -, hchat⟩ := lower_of_roles hroles h
    exact hchat (hpre pre (by rw [hsplit]; rfl))
  intro R B eng fn values values' p p' hp hp'
  obtain ⟨bundle, u, decls, events, htypes, hevents, hroles⟩ := roles_of_renderStatic eng fn hp
  obtain ⟨_, _, _, events', htypes', hevents', hroles'⟩ := roles_of_renderStatic eng fn hp'
  rw [htypes] at htypes'
  cases htypes'
  rw [hevents] at hevents'
  cases hevents'
  rw [hroles, hroles']

/-- A function with one argument, which is the text of its one message. -/
def greet : Function Unit where
  version := 3
  method := "Greet"
  client := "c"
  provider := "openai"
  returnVersion := 1
  returnMethod := "Greet"
  returnBundle := ()
  macros := 0
  inputValues := ⟨[], []⟩
  args := [⟨"name", some (.mk .string false [] [] none)⟩]
  prompt := "\x7b\x7b _.role(\"user\") \x7d\x7d\x7b\x7b name \x7d\x7d"

/-- The template of `greet`, rendered. -/
def greetEngine : Engine Unit Unit where
  fromStaticDescriptor := some
  renderOutputFormat := fun _ => some []
  render := fun _ _ _ vars =>
    some (roleDelim ++ ":baml-start-baml:\x7b\"role\":\"user\"\x7d:baml-end-baml:" ++ roleDelim ++
      match lookup vars "name" with
      | some (.string s) => s
      | _ => [])

theorem renderStatic_structure_greet :
    ∃ p p', renderStatic greetEngine greet [(bytes "name", .string (bytes "Ada"))] = .ok p ∧
      renderStatic greetEngine greet [(bytes "name", .string (bytes ":baml-end"))] = .ok p' ∧
      p.roles = some [bytes "user"] ∧ p.roles = p'.roles := by
  have hok (s : Bytes) (h : (renderStatic greetEngine greet [(bytes "name", .string s)]).toOption.map
      (·.roles) = some (some [bytes "user"])) :
      ∃ p, renderStatic greetEngine greet [(bytes "name", .string s)] = .ok p ∧
        p.roles = some [bytes "user"] := by
    cases hp : renderStatic greetEngine greet [(bytes "name", .string s)] with
    | error err =>
      rw [hp] at h
      cases h
    | ok p =>
      rw [hp] at h
      exact ⟨p, rfl, Option.some.inj h⟩
  obtain ⟨p, hp, hroles⟩ := hok (bytes "Ada") (by decide +kernel)
  obtain ⟨p', hp', -⟩ := hok (bytes ":baml-end") (by decide +kernel)
  exact ⟨p, p', hp, hp', hroles,
    renderStatic_structure.2 _ _ greetEngine greet _ _ p p' hp hp'⟩

end BamlRest.NativePrompt
