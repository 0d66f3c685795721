import BamlRest.NativePrompt.Lower

/-!
# The templates of static prompts

A static prompt is rendered natively only if every tag of its template is of a form on a short list.
-/

namespace BamlRest.NativePrompt

/-- The features that a prompt or an input is declined for. -/
inductive Feature where
  | templateString
  | macro_
  | callableOutputFmt
  | unknownFilter
  | pyFormatMethod
  | unrecognizedPrompt
  | unsupportedMediaKind
  | invalidMedia
  | nilOutputSchema
  | staticDescriptor
  | staticArgType
  | staticArgValue
  | roleCallShape
  | chatLayout
  | enumClassValue
  | enumComparison
  | unsupportedCtx
  | reservedDelimiter

/-! ### Segments -/

/-- `strings.Index`. -/
def index (sub : Bytes) : Bytes → Option ℕ
  | [] => if sub = [] then some 0 else none
  | b :: s => if sub.isPrefixOf (b :: s) then some 0 else (index sub s).map (· + 1)

/-- What a segment of a template is. -/
inductive SegKind where
  | text
  | expr
  | stmt
  | comment

/-- `segment`: a stretch of text or the inside of a tag. -/
structure Segment where
  kind : SegKind
  body : Bytes
  plusControl : Bool

/-- An opening delimiter, with its closing one. -/
structure TagOpen where
  opening : Bytes
  closing : Bytes
  kind : SegKind

/-- The three kinds of tags. -/
def tagOpens : List TagOpen :=
  [⟨"\x7b\x7b", "\x7d\x7d", .expr⟩, ⟨"\x7b%", "%\x7d", .stmt⟩,
   ⟨"\x7b#", "#\x7d", .comment⟩]

/-- What minijinja trims inside a tag. -/
def isMJSpace (b : UInt8) : Bool := b = ' ' || b = '\t' || b = '\n' || b = '\r'

/-- `mjTrimSpace`, on both sides. -/
def mjTrimSpace (s : Bytes) : Bytes :=
  ((s.dropWhile isMJSpace).reverse.dropWhile isMJSpace).reverse

/-- The inside of a tag without its whitespace control. -/
def trimTagInner (s : Bytes) : Bytes :=
  let s := if s.head? = some '-'.toUInt8 then s.tail else s
  let s := if s.getLast? = some '-'.toUInt8 then s.dropLast else s
  mjTrimSpace s

/-- `+` asks to keep whitespace, which is declined. -/
def hasPlusControl (inner : Bytes) : Bool :=
  inner.head? = some '+'.toUInt8 || inner.getLast? = some '+'.toUInt8

/-- The tag that opens first, with its position. -/
def nextTag (src : Bytes) : Option (ℕ × TagOpen) :=
  tagOpens.foldl (fun best t =>
    match index t.opening src, best with
    | none, best => best
    | some idx, none => some (idx, t)
    | some idx, some (idx', t') => if idx < idx' then some (idx, t) else some (idx', t')) none

/-- The loop of `scanSegments`. Every round reads a tag, so that there are not more rounds than
bytes. -/
def scanSegmentsF : ℕ → Bytes → Except Feature (List Segment)
  | 0, _ => .ok []
  | fuel + 1, src =>
    if src = [] then .ok []
    else
      match nextTag src with
      | none => .ok [⟨.text, src, false⟩]
      | some (idx, tag) =>
        let before := if 0 < idx then [Segment.mk .text (src.take idx) false] else []
        let rest := src.drop (idx + tag.opening.length)
        match index tag.closing rest with
        | none => .error .unrecognizedPrompt
        | some rel =>
          let inner := rest.take rel
          (scanSegmentsF fuel (rest.drop (rel + tag.closing.length))).map
            (before ++ ⟨tag.kind, trimTagInner inner, hasPlusControl inner⟩ :: ·)

/-- `scanSegments`. -/
def scanSegments (src : Bytes) : Except Feature (List Segment) := scanSegmentsF src.length src

/-! ### Tokens -/

/-- The kinds of tokens of an expression. -/
inductive TokKind where
  | ident
  | string
  | number
  | op
  deriving DecidableEq

/-- A token, with where it starts and ends. -/
structure Token where
  kind : TokKind
  text : Bytes
  hasEscape : Bool
  start : ℕ
  stop : ℕ

/-- The first byte of an identifier. -/
def isIdentStart (c : UInt8) : Bool := c = '_' || ('a' ≤ c && c ≤ 'z') || ('A' ≤ c && c ≤ 'Z')

/-- A further byte of an identifier. -/
def isIdentContinue (c : UInt8) : Bool := isIdentStart c || ('0' ≤ c && c ≤ '9')

/-- `scanString`, behind the opening quote: the content, how many bytes were read, and whether one of
them was a backslash. -/
def scanStringBody (q : UInt8) : Bytes → Option (Bytes × ℕ × Bool)
  | [] => none
  | c :: s =>
    if c = '\\' then
      match s with
      | [] => none
      | e :: s =>
        if e = '\\' ∨ e = '"' ∨ e = '\'' ∨ e = 'n' ∨ e = 'r' ∨ e = 't' then
          (scanStringBody q s).map fun (val, n, _) => (e :: val, n + 2, true)
        else none
    else if c = q then some ([], 1, false)
    else (scanStringBody q s).map fun (val, n, esc) => (c :: val, n + 1, esc)

/-- The operators of two bytes. -/
def mjMultiOps : List Bytes :=
  ["==", "!=", "<=", ">=", "**", "//"]

/-- The longest operator at the front. -/
def scanOp (s : Bytes) : Option Bytes :=
  match mjMultiOps.find? (·.isPrefixOf s) with
  | some op => some op
  | none =>
    match s with
    | [] => none
    | c :: _ => if c ∈ bytes "()[]\x7b\x7d.,:;|~+-*/%<>=!" then some [c] else none

/-- One token from the front, and how many bytes it takes. -/
def scanToken (pos : ℕ) : Bytes → Option (Token × ℕ)
  | [] => none
  | c :: s =>
    if isIdentStart c then
      let text := c :: s.takeWhile isIdentContinue
      some (⟨.ident, text, false, pos, pos + text.length⟩, text.length)
    else if '0' ≤ c && c ≤ '9' then
      let text := c :: s.takeWhile fun b => ('0' ≤ b && b ≤ '9') || b = '.'
      some (⟨.number, text, false, pos, pos + text.length⟩, text.length)
    else if c = '"' ∨ c = '\'' then
      (scanStringBody c s).map fun (val, n, esc) =>
        (⟨.string, val, esc, pos, pos + (n + 1)⟩, n + 1)
    else
      (scanOp (c :: s)).map fun op => (⟨.op, op, false, pos, pos + op.length⟩, op.length)

/-- The loop of `mjTokenize`, a token or a white space in every round. -/
def mjTokenizeF : ℕ → ℕ → Bytes → Option (List Token)
  | 0, _, _ => some []
  | fuel + 1, pos, s =>
    match s with
    | [] => some []
    | c :: r =>
      if isMJSpace c then mjTokenizeF fuel (pos + 1) r
      else
        match scanToken pos (c :: r) with
        | none => none
        | some (t, n) => (mjTokenizeF fuel (pos + n) ((c :: r).drop n)).map (t :: ·)

/-- `mjTokenize`; `none` if a string is not closed or a byte starts no token. -/
def mjTokenize (s : Bytes) : Option (List Token) := mjTokenizeF s.length 0 s

namespace Token

/-- The token is the operator. -/
def isOp (t : Token) (op : String) : Bool := t.kind = .op && t.text = bytes op

/-- The token is the identifier. -/
def isIdent (t : Token) (name : String) : Bool := t.kind = .ident && t.text = bytes name

/-- Nothing stands between two tokens. -/
def glued (a b : Token) : Bool := a.stop = b.start

/-- `_.role` and `_.chat` both open a message. -/
def isRoleMethod (t : Token) : Bool :=
  t.kind = .ident && (t.text = "role" || t.text = "chat")

/-- The roles that are accepted. -/
def isStdRole (s : Bytes) : Bool :=
  s = "system" || s = "user" || s = "assistant"

/-- A string literal that names an accepted role. -/
def isStdRoleToken (t : Token) : Bool := t.kind = .string && !t.hasEscape && isStdRole t.text

end Token

/-- The operator is among the tokens. -/
def hasOpTok (toks : List Token) (op : String) : Bool := toks.any (·.isOp op)

/-- Words that are no names of arguments. -/
def mjReserved : List Bytes :=
  ["true", "false", "none", "null", "True", "False", "None", "and", "or", "not", "in", "is", "if",
   "else", "elif", "for", "endfor", "endif", "do", "with", "without", "set", "block", "endblock",
   "filter", "endfilter", "macro", "endmacro", "call", "endcall", "import", "from", "include",
   "extends", "as", "recursive", "loop", "self"].map bytes

/-! ### Types -/

/-- The kinds of types of arguments. -/
inductive ValueKind where
  | string
  | int
  | float
  | bool
  | null
  | enum
  | cls
  | list
  | unknown
  deriving DecidableEq

/-- `ResolvedValueType`. -/
inductive ValueType where
  | mk (kind : ValueKind) (nullable : Bool) (enumName className : Bytes) (elem : Option ValueType)

namespace ValueType

/-- The kind of a type. -/
def kind : ValueType → ValueKind
  | mk k _ _ _ _ => k

/-- The type admits null. -/
def nullable : ValueType → Bool
  | mk _ n _ _ _ => n

/-- The enum, for an enum type. -/
def enumName : ValueType → Bytes
  | mk _ _ e _ _ => e

/-- The class, for a class type. -/
def className : ValueType → Bytes
  | mk _ _ _ c _ => c

/-- The element type, for a list. -/
def elem : ValueType → Option ValueType
  | mk _ _ _ _ e => e

/-- Values that the engine prints as BAML does: no class, and no list of one. -/
def directlyRenderable : ValueType → Bool
  | mk .cls _ _ _ _ => false
  | mk .list _ _ _ none => false
  | mk .list _ _ _ (some e) => e.directlyRenderable
  | mk _ _ _ _ _ => true

end ValueType

/-- A member of an enum, with its alias. -/
structure ResolvedEnumMember where
  canonical : Bytes
  alias_ : Option Bytes

/-- An enum of the project. -/
structure ResolvedEnum where
  name : Bytes
  members : List ResolvedEnumMember

/-- A field of a class, with its alias and type. -/
structure ResolvedClassField where
  canonical : Bytes
  alias_ : Option Bytes
  type : ValueType

/-- A class of the project. -/
structure ResolvedClass where
  name : Bytes
  fields : List ResolvedClassField

/-- `InputValueUniverse`, and what `validateUniverse` makes an index of. -/
structure Universe where
  projectEnums : List ResolvedEnum
  classes : List ResolvedClass

namespace Universe

/-- The enum of a name. -/
def enum? (u : Universe) (name : Bytes) : Option ResolvedEnum :=
  u.projectEnums.find? fun e => e.name = name

/-- The class of a name. -/
def cls? (u : Universe) (name : Bytes) : Option ResolvedClass :=
  u.classes.find? fun c => c.name = name

/-- `u.enumMembers[enumName][canonical]`. -/
def member? (u : Universe) (enumName canonical : Bytes) : Option ResolvedEnumMember :=
  (u.enum? enumName).bind fun e => e.members.find? fun m => m.canonical = canonical

end Universe

/-- `typeGate`: the types of the arguments, and of the project. -/
structure TypeGate where
  args : List (Bytes × ValueType)
  types : Universe

/-- What a segment contributes to the prompt. -/
inductive EvtKind where
  | text
  | interp (arg : Bytes)
  | outputFormat
  | role (role : Bytes)
  | enumPredicate
  deriving DecidableEq

/-- An operand of an enum comparison. -/
structure EnumOperand where
  enumName : Bytes
  member : Bytes
  width : ℕ

/-- The operand is a member, not an argument. -/
def EnumOperand.isMember (o : EnumOperand) : Bool := o.member ≠ []

namespace TypeGate

variable (g : TypeGate)

/-- The name is that of an argument. -/
def isBoundArg (name : Bytes) : Bool := (lookup g.args name).isSome

/-- An argument that may be printed as it is. -/
def isRenderableArg (name : Bytes) : Bool :=
  match lookup g.args name with
  | some vt => vt.directlyRenderable
  | none => false

/-- `readEnumOperand`, at the first of the tokens. -/
def readEnumOperand : List Token → Option EnumOperand
  | [] => none
  | t :: rest =>
    if t.kind ≠ .ident ∨ t.text ∈ mjReserved then none
    else
      let argument : Option EnumOperand :=
        match lookup g.args t.text with
        | some vt => if vt.kind = .enum then some ⟨vt.enumName, [], 1⟩ else none
        | none => none
      match rest with
      | dot :: m :: _ =>
        if dot.isOp "." ∧ m.kind = .ident ∧ t.glued dot ∧ dot.glued m then
          if (g.types.member? t.text m.text).isSome then some ⟨t.text, m.text, 3⟩ else none
        else argument
      | _ => argument

/-- `isCanonicalString`, at the first of the tokens. -/
def isCanonicalString (enumName : Bytes) : List Token → Bool
  | [] => false
  | t :: _ => t.kind = .string && !t.hasEscape && (g.types.member? enumName t.text).isSome

/-- `==` between an enum operand and another one, or a member's name, on either side. -/
def matchEquality (toks : List Token) : Bool :=
  match toks with
  | s :: eq :: e :: rest =>
    if s.kind = .string ∧ eq.isOp "==" then
      match g.readEnumOperand (e :: rest) with
      | some right => 2 + right.width = toks.length && g.isCanonicalString right.enumName toks
      | none => false
    else matchOperands toks
  | _ => matchOperands toks
where
  matchOperands (toks : List Token) : Bool :=
    match g.readEnumOperand toks with
    | none => false
    | some left =>
      match toks.drop left.width with
      | [] => false
      | eq :: rest =>
        if !eq.isOp "==" then false
        else if rest.head?.any (·.kind = .string) then
          rest.length = 1 && g.isCanonicalString left.enumName rest
        else
          match g.readEnumOperand rest with
          | none => false
          | some right =>
            right.width = rest.length && left.enumName = right.enumName &&
              (left.isMember || right.isMember)

/-- `in` between a member and the list of one name, or the other way round. -/
def matchMembership (toks : List Token) : Bool :=
  match toks with
  | [t0, t1, t2, t3, t4, t5, t6] =>
    if t0.kind = .string ∧ t1.isIdent "in" ∧ t2.isOp "[" then
      match g.readEnumOperand [t3, t4, t5, t6] with
      | none => false
      | some m =>
        m.isMember && m.width = 3 && t6.isOp "]" && g.isCanonicalString m.enumName toks
    else if t3.isIdent "in" ∧ t4.isOp "[" ∧ t6.isOp "]" then
      match g.readEnumOperand toks with
      | none => false
      | some m =>
        m.isMember && m.width = 3 && g.isCanonicalString m.enumName [t5, t6]
    else false
  | _ => false

/-- The comparisons of enums that are allowed. -/
def matchEnumPredicate (toks : List Token) : Bool := g.matchEquality toks || g.matchMembership toks

end TypeGate

/-! ### Expressions -/

/-- `matchAllowlist`: the expressions that are allowed, and what they contribute. -/
def matchAllowlist (toks : List Token) (g : TypeGate) : Option EvtKind :=
  match toks with
  | [t] =>
    if t.kind = .ident ∧ g.isRenderableArg t.text ∧ t.text ∉ mjReserved then some (.interp t.text)
    else none
  | _ =>
    if g.matchEnumPredicate toks then some .enumPredicate
    else
      match toks with
      | [t0, t1, t2] =>
        if t0.isIdent "ctx" ∧ t1.isOp "." ∧ t2.isIdent "output_format" ∧ t0.glued t1 ∧ t1.glued t2 then
          some .outputFormat
        else none
      | [t0, t1, t2, t3, t4, t5] =>
        if t0.isIdent "_" ∧ t1.isOp "." ∧ t2.isRoleMethod ∧ t0.glued t1 ∧ t1.glued t2 ∧
            t3.isOp "(" ∧ t4.isStdRoleToken ∧ t5.isOp ")" then
          some (.role t4.text)
        else none
      | [t0, t1, t2, t3, t4, t5, t6, t7] =>
        if t0.isIdent "_" ∧ t1.isOp "." ∧ t2.isRoleMethod ∧ t0.glued t1 ∧ t1.glued t2 ∧
            t3.isOp "(" ∧ t4.isIdent "role" ∧ t5.isOp "=" ∧ t6.isStdRoleToken ∧ t7.isOp ")" then
          some (.role t6.text)
        else none
      | _ => none

/-- A call of a method is among the tokens. -/
def hasMethodCall : List Token → Bool
  | a :: b :: c :: rest =>
    (a.isOp "." && b.kind = .ident && c.isOp "(") || hasMethodCall (b :: c :: rest)
  | _ => false

/-- A comparison is among the tokens. -/
def hasComparisonToken (toks : List Token) : Bool :=
  toks.any fun t =>
    (t.kind = .op && t.text ∈ ["==", "!=", "<", "<=", ">", ">="].map bytes) ||
      (t.kind = .ident && t.text ∈ ["in", "not", "is"].map bytes)

/-- Why an expression on `ctx` is declined. -/
def classifyCtxDecline (toks : List Token) : Feature :=
  match toks with
  | _ :: t1 :: t2 :: t3 :: _ =>
    if t1.isOp "." ∧ t2.isIdent "output_format" ∧ (t3.isOp "(" ∨ t3.isOp "[") then .callableOutputFmt
    else if t1.isOp "[" ∧ t2.kind = .string ∧ t2.text = "output_format" ∧ t3.isOp "]" then
      .callableOutputFmt
    else .unsupportedCtx
  | _ => .unsupportedCtx

/-- Why an expression is declined. -/
def classifyExprDecline (toks : Option (List Token)) (g : TypeGate) : Feature :=
  match toks with
  | none | some [] => .unrecognizedPrompt
  | some (t :: rest) =>
    let toks := t :: rest
    if hasOpTok toks "|" then .unknownFilter
    else if hasComparisonToken toks then .enumComparison
    else if t.isIdent "ctx" then classifyCtxDecline toks
    else if t.isIdent "_" then .roleCallShape
    else if hasMethodCall toks then .pyFormatMethod
    else if hasOpTok toks "[" || hasOpTok toks "]" then .unrecognizedPrompt
    else if hasOpTok toks "." then .enumClassValue
    else if rest = [] ∧ t.kind = .ident ∧ t.text ∉ mjReserved ∧ g.isBoundArg t.text then
      .enumClassValue
    else .unrecognizedPrompt

/-- `classifyExpr`. -/
def classifyExpr (inner : Bytes) (g : TypeGate) : Except Feature EvtKind :=
  match mjTokenize inner with
  | none => .error (classifyExprDecline none g)
  | some toks =>
    -- filters are refused before the forms are looked at
    if hasOpTok toks "|" then .error .unknownFilter
    else
      match matchAllowlist toks g with
      | some ev => .ok ev
      | none => .error (classifyExprDecline (some toks) g)

/-- The identifier at the front, perhaps empty. -/
def leadingIdent : Bytes → Bytes
  | [] => []
  | c :: s => if isIdentStart c then c :: s.takeWhile isIdentContinue else []

/-- Why a statement is declined. -/
def declineStatement (inner : Bytes) : Feature :=
  if leadingIdent inner ∈ ["macro", "import", "include", "extends", "from", "call"].map bytes then
    .macro_
  else .unrecognizedPrompt

/-! ### Templates -/

/-- The events of one segment. -/
def segmentEvents (g : TypeGate) (s : Segment) : Except Feature (List EvtKind) :=
  match s.kind with
  | .text => .ok (if trimSpace s.body = [] then [] else [.text])
  | .comment => if s.plusControl then .error .unrecognizedPrompt else .ok []
  | .stmt => .error (declineStatement s.body)
  | .expr => (classifyExpr s.body g).map fun ev => [ev]

/-- `collectEvents`. -/
def collectEvents (g : TypeGate) : List Segment → Except Feature (List EvtKind)
  | [] => .ok []
  | s :: segs =>
    match segmentEvents g s with
    | .error err => .error err
    | .ok evs => (collectEvents g segs).map (evs ++ ·)

/-- `analyzeTemplate`. Whether the output format is used can be told from the events. -/
def analyzeTemplate (src : Bytes) (g : TypeGate) : Except Feature (List EvtKind) :=
  match scanSegments src with
  | .error err => .error err
  | .ok segs => collectEvents g segs

/-- The roles of the messages, in order. -/
def roleSequence (events : List EvtKind) : List Bytes :=
  events.filterMap fun
    | .role r => some r
    | _ => none

/-- A role, and whether its message has content. -/
abbrev LayoutMsg := Bytes × Bool

/-- The loop of `validateChatLayout`; the messages come in reverse. -/
def layoutMessages (contentful : EvtKind → Bool) (preRoleContent : Bool) (msgs : List LayoutMsg) :
    List EvtKind → Except Feature (List LayoutMsg)
  | [] => .ok msgs
  | .role r :: evs =>
    match msgs with
    | [] => if preRoleContent then .error .chatLayout
      else layoutMessages contentful preRoleContent [(r, false)] evs
    | m :: _ => if m.1 = r then .error .chatLayout
      else layoutMessages contentful preRoleContent ((r, false) :: msgs) evs
  | ev :: evs =>
    if !contentful ev then layoutMessages contentful preRoleContent msgs evs
    else
      match msgs with
      | [] => layoutMessages contentful true [] evs
      | m :: ms => layoutMessages contentful preRoleContent ((m.1, true) :: ms) evs

/-- `validateChatLayout`: content in every message and none before the first, and no role twice in a
row. -/
def validateChatLayout (events : List EvtKind) (contentful : EvtKind → Bool) :
    Except Feature Unit :=
  match layoutMessages contentful false [] events with
  | .error err => .error err
  | .ok msgs => if msgs.all (·.2) then .ok () else .error .chatLayout

end BamlRest.NativePrompt
