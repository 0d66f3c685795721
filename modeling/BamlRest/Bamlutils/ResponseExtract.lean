import BamlRest.Bamlutils.SseExtract

/-!
# The text of a whole response

`bamlutils/buildrequest/response_extract.go`: the answer of a provider that does not stream, with
the errors for responses that do not have the expected shape.
-/

namespace BamlRest.BuildRequest

/-- What a loop over the blocks of a response has collected. -/
structure Gathered where
  text : Bytes := []
  reasoning : Bytes := []
  found : Bool := false

/-- The three texts that are returned; the parser and the wire get the same one. -/
def Gathered.parts (g : Gathered) : DeltaParts := ⟨g.text, g.text, g.reasoning⟩

section

variable (gj : Gjson) (provider : Bytes) (get : List Bytes → Option Doc) (includeReasoning : Bool)

def failWith {α : Type} (text : Bytes) : Except Bytes α := .error (provider ++ ": " ++ text)

def notObject {α : Type} (array : Bytes) (item : Doc) : Except Bytes α :=
  failWith provider
    ("non-object element in " ++ array ++ " (got " ++ typeName (some item) ++ ")")

def unexpectedType {α : Type} (field : Bytes) (r : Option Doc) : Except Bytes α :=
  failWith provider
    ("unexpected type for " ++ field ++ " (got " ++ typeName r ++ ")")

/-- The error for a refusal; an empty explanation, or one that is not a string, is not shown. -/
def refused {α : Type} (refusal : Option Doc) : Except Bytes α :=
  failWith provider ("model refused request: " ++
    match stringOf refusal with
    | some (c :: text) => c :: text
    | _ => "unknown reason")

/-- The `type` of an element, which has to be an object with one. -/
def elementType (array element : Bytes) (item : Doc) : Except Bytes Bytes :=
  if !isObject (some item) then notObject provider array item
  else
    match stringOf (gj.get item ["type"]) with
    | some (c :: type) => .ok (c :: type)
    | _ => failWith provider (element ++ " missing required 'type' field")

/-! ### Chat completions -/

def openAIContentPart (g : Gathered) (part : Doc) : Except Bytes Gathered := do
  let type ← elementType gj provider "content array" "content array element" part
  if type = "text" then
    match stringOf (gj.get part ["text"]) with
    | some text => pure { g with text := g.text ++ text }
    | none =>
      unexpectedType provider "content part text field" (gj.get part ["text"])
  else if type = "refusal" then refused provider (gj.get part ["refusal"])
  else pure g

/-- `extractReasoning`, in `extractOpenAIContent`. -/
def openAIReasoning : Bytes :=
  if !includeReasoning then []
  else (stringOf (get ["choices", "0", "message", "reasoning_content"])).getD
    []

/-- The text that `extractOpenAIContent` returns, or its error. -/
def openAIText : Except Bytes Bytes :=
  match get ["choices", "0", "message", "refusal"] with
  | none | some .null =>
    match get ["choices", "0", "message", "content"] with
    | some (.str _ text) => .ok text
    | some (.arr _ items) => (items.foldlM (openAIContentPart gj provider) {}).map (·.text)
    | some .null => .ok []
    | some content =>
      failWith provider
        ("unexpected content type in response (got " ++ typeName (some content) ++ ")")
    | none =>
      failWith provider (bytes
        "could not extract text content from response (choices[0].message.content not found)")
  | some refusal => refused provider (some refusal)

def extractOpenAIContent : Except Bytes DeltaParts :=
  (openAIText gj provider get).map fun text => ⟨text, text, openAIReasoning get includeReasoning⟩

/-! ### Messages -/

def anthropicBlock (g : Gathered) (block : Doc) : Except Bytes Gathered := do
  let type ← elementType gj provider "content array" "content array element" block
  if type = "text" then
    match stringOf (gj.get block ["text"]) with
    | some text => pure { g with text := g.text ++ text }
    | none => unexpectedType provider "text block" (gj.get block ["text"])
  else if type = "thinking" then
    match stringOf (gj.get block ["thinking"]) with
    | some text => pure (if includeReasoning then { g with reasoning := g.reasoning ++ text } else g)
    | none => unexpectedType provider "thinking block" (gj.get block ["thinking"])
  else pure g

def extractAnthropicContent : Except Bytes DeltaParts :=
  match itemsOf (get ["content"]) with
  | some items => (items.foldlM (anthropicBlock gj provider includeReasoning) {}).map (·.parts)
  | none =>
    failWith provider
      "could not extract text content from response (content array not found)"

/-! ### Gemini -/

def geminiPart (g : Gathered) (part : Doc) : Except Bytes Gathered :=
  if !isObject (some part) then notObject provider "parts array" part
  else if gj.boolOf (gj.get part ["thought"]) then
    -- a thought is left out, whatever its text is
    .ok (if includeReasoning then
      { g with reasoning := g.reasoning ++ (stringOf (gj.get part ["text"])).getD [] } else g)
  else
    match gj.get part ["text"] with
    | none => .ok g
    | some (.str _ text) => .ok { g with text := g.text ++ text }
    | some text => unexpectedType provider "part text field" (some text)

def extractGeminiContent : Except Bytes DeltaParts :=
  match itemsOf (get ["candidates", "0", "content", "parts"]) with
  | some items => (items.foldlM (geminiPart gj provider includeReasoning) {}).map (·.parts)
  | none =>
    failWith provider (bytes
      "could not extract text content from response (candidates[0].content.parts not found)")

/-! ### Responses -/

def messageEntry (g : Gathered) (entry : Doc) : Except Bytes Gathered := do
  let type ← elementType gj provider "message content array"
    "message content element" entry
  if type = "output_text" then
    match stringOf (gj.get entry ["text"]) with
    | some text => pure { g with text := g.text ++ text }
    | none =>
      unexpectedType provider "output_text text field" (gj.get entry ["text"])
  else if type = "refusal" then refused provider (gj.get entry ["refusal"])
  else pure g

def appendOpenAIResponsesReasoningSummary (item : Doc) (reasoning : Bytes) : Bytes :=
  match itemsOf (gj.get item ["summary"]) with
  | some entries => entries.foldl (fun reasoning entry =>
      reasoning ++ (stringOf (gj.get entry ["text"])).getD []) reasoning
  | none => reasoning

def outputItem (g : Gathered) (item : Doc) : Except Bytes Gathered := do
  let type ← elementType gj provider "output array" "output array element" item
  if type = "message" then
    match itemsOf (gj.get item ["content"]) with
    | some entries => entries.foldlM (messageEntry gj provider) { g with found := true }
    | none => failWith provider "message item has no content array"
  else if type = "reasoning" then
    pure (if includeReasoning then
      { g with reasoning := appendOpenAIResponsesReasoningSummary gj item g.reasoning } else g)
  else pure g

def extractOpenAIResponsesContent : Except Bytes DeltaParts :=
  match itemsOf (get ["output"]) with
  | some items =>
    items.foldlM (outputItem gj provider includeReasoning) {} >>= fun g =>
      if g.found then .ok g.parts
      else failWith provider "no message item found in output array"
  | none =>
    failWith provider "could not extract text content from response (output array not found)"

/-! ### Converse -/

def bedrockBlock (g : Gathered) (block : Doc) : Except Bytes Gathered :=
  if !isObject (some block) then notObject provider "content array" block
  else
    match gj.get block ["text"] with
    | some (.str _ text) => .ok { g with text := g.text ++ text, found := true }
    | some text => unexpectedType provider "text block" (some text)
    | none =>
      match gj.get block ["reasoningContent"] with
      | some (.obj raw members) =>
        let reasoningText := gj.get (.obj raw members) ["reasoningText"]
        .ok { g with
          found := true
          reasoning := g.reasoning ++
            if includeReasoning && isObject reasoningText then
              (stringOf (reasoningText.bind fun rt => gj.get rt ["text"])).getD []
            else [] }
      | _ => .ok g

def extractAWSBedrockContent : Except Bytes DeltaParts :=
  match get ["output", "message"] with
  | some (.obj raw members) =>
    match itemsOf (gj.get (.obj raw members) ["content"]) with
    | some items =>
      items.foldlM (bedrockBlock gj provider includeReasoning) {} >>= fun g =>
        if g.found then .ok g.parts
        else
          failWith provider "output.message.content array has no recognised content blocks"
    | none => failWith provider "output.message.content is not an array"
  | _ =>
    failWith provider
      "could not extract text content from response (output.message not found)"

def dispatchResponseContent : Except Bytes DeltaParts :=
  match providerFamily provider with
  | some .openAI => extractOpenAIContent gj provider get includeReasoning
  | some .anthropic => extractAnthropicContent gj provider get includeReasoning
  | some .openAIResponses => extractOpenAIResponsesContent gj provider get includeReasoning
  | some .google => extractGeminiContent gj provider get includeReasoning
  | some .awsBedrock => extractAWSBedrockContent gj provider get includeReasoning
  | none => .error ("unsupported provider for non-streaming extraction: " ++ provider)

end

/-- `ExtractResponseContent`, and its twin for bytes. -/
def extractResponseContent (gj : Gjson) (provider responseBody : Bytes) (includeReasoning : Bool) :
    Except Bytes DeltaParts :=
  if trimSpace responseBody = [] then
    .error ("provider " ++ provider ++ ": empty response body")
  else if !gj.valid responseBody then
    .error ("provider " ++ provider ++ ": response body is not valid JSON")
  else dispatchResponseContent gj provider (gj.lookup responseBody) includeReasoning

end BamlRest.BuildRequest
