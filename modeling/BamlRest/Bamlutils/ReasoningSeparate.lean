import BamlRest.Bamlutils.ResponseExtract

/-!
# Reasoning does not reach the answer

Responses and events carry the reasoning of a model beside its answer. What the parser is given
depends neither on whether reasoning is asked for nor on what it says.

* `reasoning_separate`: for responses and for events of every provider.
-/

namespace BamlRest.BuildRequest

open Except

/-! ### Blanking -/

namespace Doc

def blank : Doc → Doc
  | .str _ _ => .str [] []
  | d => d

/-- An object with the values of a key changed. Its text goes, since it has theirs in it. -/
def mapKey (key : Bytes) (f : Doc → Doc) : Doc → Doc
  | .obj _ members => .obj [] (members.map fun m => if m.1 = key then (m.1, f m.2) else m)
  | d => d

def mapItems (f : Doc → Doc) : Doc → Doc
  | .arr _ items => .arr [] (items.map f)
  | d => d

/-- What the part `0` of a path leads to, changed: the elements of an array, or the values of that
key in an object. -/
def mapFirst (f : Doc → Doc) (d : Doc) : Doc := mapKey "0" f (mapItems f d)

end Doc

open Doc

def blankThought (gj : Gjson) (part : Doc) : Doc :=
  if gj.boolOf (gj.get part ["thought"]) then part.mapKey "text" .blank else part

/-- The reasoning of a whole response. -/
def responseBlank (gj : Gjson) : ProviderFamily → Doc → Doc
  | .openAI =>
    .mapKey "choices" (.mapFirst (.mapKey "message"
      (.mapKey "reasoning_content" .blank)))
  | .anthropic => .mapKey "content" (.mapItems (.mapKey "thinking" .blank))
  | .openAIResponses =>
    .mapKey "output" (.mapItems (.mapKey "summary"
      (.mapItems (.mapKey "text" .blank))))
  | .google =>
    .mapKey "candidates" (.mapFirst (.mapKey "content" (.mapKey "parts"
      (.mapItems (blankThought gj)))))
  | .awsBedrock =>
    .mapKey "output" (.mapKey "message" (.mapKey "content"
      (.mapItems (.mapKey "reasoningContent" (.mapKey "reasoningText"
        (.mapKey "text" .blank))))))

/-- The reasoning of an event. An event of Bedrock is one debug text without fields for reasoning, so
there is nothing to blank in it: that half of what is shown about events says only that the text
alone decides. -/
def eventBlank (gj : Gjson) : ProviderFamily → Doc → Doc
  | .openAI =>
    .mapKey "choices" (.mapFirst (.mapKey "delta"
      (.mapKey "reasoning_content" .blank)))
  | .anthropic => .mapKey "delta" (.mapKey "thinking" .blank)
  | .openAIResponses => fun d =>
    if gj.string (gj.get d ["type"]) = "response.reasoning_summary_text.delta" then
      .mapKey "delta" .blank d
    else d
  | .google => responseBlank gj .google
  | .awsBedrock => id

/-! ### Lookups in a changed document -/

section

variable {gj : Gjson} {f g : Doc → Doc} {key part : Bytes} {path : List Bytes}

theorem Doc.find_mapKey_of_ne (h : part ≠ key) (d : Doc) :
    (d.mapKey key f).find (part :: path) = d.find (part :: path) := by
  cases d with
  | obj raw members =>
    rw [mapKey, find, find, List.findSome?_map]
    congr 1
    funext m
    by_cases hm : m.1 = key
    · simp [hm, h.symm]
    · simp [hm]
  | _ => rfl

theorem findSome?_eq_map {α β : Type} {p q : α → Option β} {g : β → β}
    (h : ∀ a, p a = (q a).map g) (l : List α) : l.findSome? p = (l.findSome? q).map g := by
  induction l with
  | nil => rfl
  | cons a l ih =>
    rw [List.findSome?_cons, List.findSome?_cons, h a, ih]
    cases q a <;> rfl

theorem Doc.find_mapKey_obj (h : ∀ v : Doc, (f v).find path = (v.find path).map g) (raw : Bytes)
    (members : List (Bytes × Doc)) : ((obj raw members).mapKey part f).find (part :: path) =
      ((obj raw members).find (part :: path)).map g := by
  rw [mapKey, find, find, List.findSome?_map]
  refine findSome?_eq_map ?_ members
  intro m
  by_cases hm : m.1 = part
  · simp [hm, h]
  · simp [hm]

theorem Doc.find_mapKey (hpart : arrayIndex part = none)
    (h : ∀ v : Doc, (f v).find path = (v.find path).map g) (d : Doc) :
    (d.mapKey part f).find (part :: path) = (d.find (part :: path)).map g := by
  cases d with
  | obj raw members => exact find_mapKey_obj h raw members
  | arr raw items => simp [mapKey, find, hpart]
  | _ => rfl

theorem Doc.find_mapFirst (h : ∀ v : Doc, (f v).find path = (v.find path).map g) (d : Doc) :
    (d.mapFirst f).find (bytes "0" :: path) = (d.find (bytes "0" :: path)).map g := by
  have hzero : arrayIndex "0" = some 0 := by rfl
  cases d with
  | obj raw members => exact find_mapKey_obj h raw members
  | arr raw items =>
    change (arr [] (items.map f)).find _ = _
    simp only [find, hzero, Option.bind_some, List.getElem?_map]
    cases items[0]? with
    | none => rfl
    | some v => exact h v
  | _ => rfl

theorem get_mapKey_of_ne (h : part ≠ key) (d : Doc) :
    gj.get (d.mapKey key f) (part :: path) = gj.get d (part :: path) := by
  cases d with
  | str raw text => rfl
  | obj raw members => exact find_mapKey_of_ne h (.obj raw members)
  | _ => rfl

theorem get_mapKey (hpart : arrayIndex part = none)
    (h : ∀ v : Doc, (f v).find path = (v.find path).map g) {d : Doc}
    (hd : ∀ raw text, d ≠ .str raw text) :
    gj.get (d.mapKey part f) (part :: path) = (gj.get d (part :: path)).map g := by
  cases d with
  | str raw text => exact absurd rfl (hd raw text)
  | obj raw members => exact find_mapKey hpart h (.obj raw members)
  | _ => exact find_mapKey hpart h _

/-! ### What a result shows of a changed value -/

theorem find_nil_map (v : Doc) : (f v).find [] = (v.find []).map f := rfl

theorem stringOf_map_blank (r) : stringOf (r.map blank) = (stringOf r).map fun _ => [] := by
  rcases r with - | d
  · rfl
  · cases d <;> rfl

theorem typeName_map_blank (r) : typeName (r.map blank) = typeName r := by
  rcases r with - | d
  · rfl
  · cases d <;> rfl

theorem itemsOf_map_mapItems (r) : itemsOf (r.map (mapItems f)) = (itemsOf r).map (List.map f) := by
  rcases r with - | d
  · rfl
  · cases d <;> rfl

@[simp]
theorem isObject_mapKey (d : Doc) : isObject (some (d.mapKey key f)) = isObject (some d) := by
  cases d <;> rfl

@[simp]
theorem typeName_mapKey (d : Doc) : typeName (some (d.mapKey key f)) = typeName (some d) := by
  cases d <;> rfl

end

/-! ### The flag -/

def answer (r : Except Bytes DeltaParts) : Except Bytes (Bytes × Bytes) :=
  r.map fun parts => (parts.parseable, parts.raw)

theorem foldlM_map_eq {α β γ ε : Type} {view : α → γ} {step step' : α → β → Except ε α}
    (hstep : ∀ a a' b, view a = view a' → (step a b).map view = (step' a' b).map view)
    (l : List β) {a a' : α} (h : view a = view a') :
    (l.foldlM step a).map view = (l.foldlM step' a').map view := by
  induction l generalizing a a' with
  | nil => exact congrArg ok h
  | cons b l ih =>
    have hb := hstep a a' b h
    rw [List.foldlM_cons, List.foldlM_cons]
    cases ha : step a b with
    | error e =>
      rw [ha] at hb
      cases ha' : step' a' b with
      | error e' =>
        rw [ha'] at hb
        cases hb
        rfl
      | ok c' =>
        rw [ha'] at hb
        cases hb
    | ok c =>
      rw [ha] at hb
      cases ha' : step' a' b with
      | error e' =>
        rw [ha'] at hb
        cases hb
      | ok c' =>
        rw [ha'] at hb
        exact ih (ok.inj hb)

def Gathered.view (g : Gathered) : Bytes × Bool := (g.text, g.found)

open BuildRequest.Gathered

theorem answer_of_view {r r'} (h : r.map view = r'.map view)
    {finish : Gathered → Except Bytes DeltaParts}
    (hfinish : ∀ g g' : Gathered, g.view = g'.view → answer (finish g) = answer (finish g')) :
    answer (r >>= finish) = answer (r' >>= finish) := by
  cases r with
  | error e =>
    cases r' with
    | error e' =>
      cases h
      rfl
    | ok g' => cases h
  | ok g =>
    cases r' with
    | error e' => cases h
    | ok g' => exact hfinish g g' (ok.inj h)

theorem answer_parts {g g' : Gathered} (h : g.view = g'.view) :
    answer (.ok g.parts) = answer (.ok g'.parts) := by
  have htext : g.text = g'.text := congrArg Prod.fst h
  simp [answer, Except.map, parts, htext]

section

/-- Two steps of an extraction show the same, after the same. -/
def SameView (f f' : Gathered → Doc → Except Bytes Gathered) : Prop :=
  ∀ g g' d, g.view = g'.view → (f g d).map view = (f' g' d).map view

variable (gj : Gjson) (provider : Bytes) (get : List Bytes → Option Doc) (i i' : Bool)

theorem view_anthropicBlock : SameView (anthropicBlock gj provider i) (anthropicBlock gj provider i') := by
  rintro ⟨text, reasoning, found⟩ ⟨text', reasoning', found'⟩ block ⟨⟩
  unfold anthropicBlock
  cases elementType gj provider _ _ block with
  | error e => rfl
  | ok type =>
    simp only [bind, Except.bind]
    by_cases htext : type = "text"
    · rw [if_pos htext, if_pos htext]
      cases stringOf (gj.get block ["text"]) <;> rfl
    rw [if_neg htext, if_neg htext]
    by_cases hthinking : type = "thinking"
    · rw [if_pos hthinking, if_pos hthinking]
      cases stringOf (gj.get block ["thinking"]) with
      | none => rfl
      | some t => cases i <;> cases i' <;> rfl
    · rw [if_neg hthinking, if_neg hthinking]
      rfl

theorem view_geminiPart : SameView (geminiPart gj provider i) (geminiPart gj provider i') := by
  rintro ⟨text, reasoning, found⟩ ⟨text', reasoning', found'⟩ part ⟨⟩
  unfold geminiPart
  cases isObject (some part) with
  | false => rfl
  | true =>
    cases gj.boolOf (gj.get part ["thought"]) with
    | true => cases i <;> cases i' <;> rfl
    | false =>
      rcases gj.get part ["text"] with - | d
      · rfl
      · cases d <;> rfl

theorem view_messageEntry : SameView (messageEntry gj provider) (messageEntry gj provider) := by
  rintro ⟨text, reasoning, found⟩ ⟨text', reasoning', found'⟩ entry ⟨⟩
  unfold messageEntry
  cases elementType gj provider _ _ entry with
  | error e => rfl
  | ok type =>
    simp only [bind, Except.bind]
    split_ifs
    · cases stringOf (gj.get entry ["text"]) <;> rfl
    · rfl
    · rfl

theorem view_outputItem : SameView (outputItem gj provider i) (outputItem gj provider i') := by
  intro g g' item h
  have htext : g.text = g'.text := congrArg Prod.fst h
  have hfound : g.found = g'.found := congrArg Prod.snd h
  unfold outputItem
  cases elementType gj provider _ _ item with
  | error e => rfl
  | ok type =>
    simp only [bind, Except.bind]
    by_cases hmessage : type = "message"
    · rw [if_pos hmessage, if_pos hmessage]
      cases itemsOf (gj.get item ["content"]) with
      | none => rfl
      | some entries =>
        refine foldlM_map_eq (view_messageEntry gj provider) entries ?_
        simp [view, htext]
    rw [if_neg hmessage, if_neg hmessage]
    by_cases hreasoning : type = "reasoning"
    · rw [if_pos hreasoning, if_pos hreasoning]
      cases i <;> cases i' <;> simp [Except.map, pure, Except.pure, view, htext, hfound]
    · simp [if_neg hreasoning, Except.map, pure, Except.pure, h]

theorem view_bedrockBlock : SameView (bedrockBlock gj provider i) (bedrockBlock gj provider i') := by
  rintro ⟨text, reasoning, found⟩ ⟨text', reasoning', found'⟩ block ⟨⟩
  unfold bedrockBlock
  cases isObject (some block) with
  | false => rfl
  | true =>
    rcases gj.get block ["text"] with - | d
    · rcases gj.get block ["reasoningContent"] with - | d
      · rfl
      · cases d <;> rfl
    · cases d <;> rfl

/-- **Responses: the flag does not matter.** -/
theorem answer_dispatchResponseContent : answer (dispatchResponseContent gj provider get i) =
      answer (dispatchResponseContent gj provider get i') := by
  unfold dispatchResponseContent
  rcases providerFamily provider with - | family
  · rfl
  cases family with
  | openAI =>
    change answer (extractOpenAIContent gj provider get i) = _
    unfold extractOpenAIContent
    cases openAIText gj provider get <;> rfl
  | anthropic =>
    change answer (extractAnthropicContent gj provider get i) = _
    unfold extractAnthropicContent
    cases itemsOf (get ["content"]) with
    | none => rfl
    | some items =>
      exact answer_of_view (foldlM_map_eq (view_anthropicBlock gj provider i i') items rfl)
        fun g g' h => answer_parts h
  | google =>
    change answer (extractGeminiContent gj provider get i) = _
    unfold extractGeminiContent
    cases itemsOf (get ["candidates", "0", "content", "parts"]) with
    | none => rfl
    | some items =>
      exact answer_of_view (foldlM_map_eq (view_geminiPart gj provider i i') items rfl)
        fun g g' h => answer_parts h
  | openAIResponses =>
    change answer (extractOpenAIResponsesContent gj provider get i) = _
    unfold extractOpenAIResponsesContent
    cases itemsOf (get ["output"]) with
    | none => rfl
    | some items =>
      refine answer_of_view (foldlM_map_eq (view_outputItem gj provider i i') items rfl) ?_
      intro g g' h
      rw [show g.found = g'.found from congrArg Prod.snd h]
      split_ifs
      · exact answer_parts h
      · rfl
  | awsBedrock =>
    change answer (extractAWSBedrockContent gj provider get i) = _
    unfold extractAWSBedrockContent
    rcases get ["output", "message"] with - | message
    · rfl
    cases message with
    | obj raw members =>
      dsimp only
      cases itemsOf (gj.get (.obj raw members) ["content"]) with
      | none => rfl
      | some items =>
        refine answer_of_view (foldlM_map_eq (view_bedrockBlock gj provider i i') items rfl) ?_
        intro g g' h
        rw [show g.found = g'.found from congrArg Prod.snd h]
        split_ifs
        · exact answer_parts h
        · rfl
    | _ => rfl

theorem googlePart_text {acc acc'}
    (h : (acc.parseable, acc.raw) = (acc'.parseable, acc'.raw)) (part : Doc) :
    ((googlePart gj i acc part).parseable, (googlePart gj i acc part).raw) =
      ((googlePart gj i' acc' part).parseable, (googlePart gj i' acc' part).raw) := by
  obtain ⟨parseable, raw, reasoning⟩ := acc
  obtain ⟨parseable', raw', reasoning'⟩ := acc'
  cases h
  unfold googlePart
  cases stringOf (gj.get part ["text"]) with
  | none => rfl
  | some text =>
    dsimp only
    split_ifs <;> simp [DeltaParts.append, DeltaParts.ofText]

theorem foldl_googlePart_text (parts : List Doc) {acc acc'}
    (h : (acc.parseable, acc.raw) = (acc'.parseable, acc'.raw)) :
    ((parts.foldl (googlePart gj i) acc).parseable, (parts.foldl (googlePart gj i) acc).raw) =
      ((parts.foldl (googlePart gj i') acc').parseable,
        (parts.foldl (googlePart gj i') acc').raw) := by
  induction parts generalizing acc acc' with
  | nil => exact h
  | cons part parts ih => exact ih (googlePart_text gj i i' h part)

/-- **Events: the flag does not matter.** -/
theorem answer_extractDeltaParts :
    answer (extractDeltaParts gj get i provider) = answer (extractDeltaParts gj get i' provider) := by
  unfold extractDeltaParts
  rcases providerFamily provider with - | family
  · rfl
  cases family with
  | openAI => rfl
  | openAIResponses =>
    simp only [openAIResponsesDelta]
    split_ifs <;> rfl
  | anthropic =>
    simp only [anthropicDelta]
    split_ifs <;> rfl
  | google =>
    simp only [googleDelta]
    cases itemsOf (get ["candidates", "0", "content", "parts"]) with
    | none => rfl
    | some parts => exact congrArg ok (foldl_googlePart_text gj i i' parts rfl)
  | awsBedrock => rfl

end

/-! ### The reasoning

With the flag off, the extractors do not look at the reasoning, except for its type. -/

section

variable {gj : Gjson} {provider : Bytes}

/-- The field names that the extractors read are no positions, and those that they keep apart
differ. -/
theorem names_apart : arrayIndex "thinking" = none ∧ arrayIndex "reasoningContent" = none ∧
    arrayIndex "choices" = none ∧ arrayIndex "candidates" = none ∧
    arrayIndex "content" = none ∧ arrayIndex "parts" = none ∧
    arrayIndex "message" = none ∧ arrayIndex "output" = none ∧
    arrayIndex "delta" = none ∧ bytes "type" ≠ bytes "thinking" ∧
    bytes "text" ≠ bytes "thinking" ∧ bytes "type" ≠ bytes "summary" ∧
    bytes "content" ≠ bytes "summary" ∧ bytes "thought" ≠ bytes "text" ∧
    bytes "text" ≠ bytes "reasoningContent" ∧ bytes "content" ≠ bytes "reasoning_content" ∧
    bytes "refusal" ≠ bytes "reasoning_content" ∧ bytes "type" ≠ bytes "delta" ∧
    bytes "response.reasoning_summary_text.delta" ≠ bytes "response.output_text.delta" := by
  decide

theorem elementType_mapKey {key : Bytes} (h : "type" ≠ key) {f : Doc → Doc}
    (array element) (d : Doc) : elementType gj provider array element (d.mapKey key f) =
      elementType gj provider array element d := by
  unfold elementType notObject
  rw [isObject_mapKey, typeName_mapKey, get_mapKey_of_ne h]

theorem get_mapKey_blank {key} (hkey : arrayIndex key = none) (raw)
    (members) : gj.get ((obj raw members).mapKey key .blank) [key] =
      (gj.get (.obj raw members) [key]).map blank :=
  get_mapKey hkey find_nil_map (by simp)

theorem anthropicBlock_blank (g) (block : Doc) :
    anthropicBlock gj provider false g (block.mapKey "thinking" .blank) =
      anthropicBlock gj provider false g block := by
  cases block with
  | obj raw members =>
    unfold anthropicBlock unexpectedType
    rw [elementType_mapKey (by simp [names_apart]), get_mapKey_of_ne (by simp [names_apart]),
      get_mapKey_blank (by simp [names_apart]), stringOf_map_blank, typeName_map_blank]
    cases stringOf (gj.get (.obj raw members) ["thinking"]) <;> rfl
  | _ => rfl

theorem outputItem_blank (g) (item : Doc) (f : Doc → Doc) :
    outputItem gj provider false g (item.mapKey "summary" f) =
      outputItem gj provider false g item := by
  unfold outputItem
  rw [elementType_mapKey (by simp [names_apart]), get_mapKey_of_ne (by simp [names_apart])]
  rfl

theorem geminiPart_blank (g) (part : Doc) : geminiPart gj provider false g (blankThought gj part) =
      geminiPart gj provider false g part := by
  unfold blankThought
  split_ifs with hthought
  · unfold geminiPart notObject
    rw [isObject_mapKey, typeName_mapKey, get_mapKey_of_ne (by simp [names_apart]), hthought]
    rfl
  · rfl

theorem googlePart_blank (acc) (part : Doc) :
    googlePart gj false acc (blankThought gj part) = googlePart gj false acc part := by
  unfold blankThought
  split_ifs with hthought
  · -- a thought adds nothing, whether it has a text or not
    have hskip : ∀ p : Doc, gj.boolOf (gj.get p ["thought"]) →
        googlePart gj false acc p = acc := by
      intro p hp
      unfold googlePart
      cases stringOf (gj.get p ["text"]) with
      | none => rfl
      | some text => simp [hp]
    rw [hskip part hthought, hskip]
    rwa [get_mapKey_of_ne (by simp [names_apart])]
  · rfl

theorem bedrockBlock_blank (g) (block : Doc) {key} {f : Doc → Doc} :
    bedrockBlock gj provider false g (block.mapKey "reasoningContent" (.mapKey key f)) =
      bedrockBlock gj provider false g block := by
  cases block with
  | obj raw members =>
    unfold bedrockBlock
    rw [get_mapKey_of_ne (by simp [names_apart]), get_mapKey (by simp [names_apart]) find_nil_map (by simp)]
    rcases gj.get (.obj raw members) ["reasoningContent"] with - | d
    · rfl
    · cases d <;> rfl
  | _ => rfl

theorem foldlM_map_of_blind {α β : Type} {f : β → β} {step : α → β → Except Bytes α}
    (h : ∀ a b, step a (f b) = step a b) (l : List β) (a : α) :
    (l.map f).foldlM step a = l.foldlM step a := by
  rw [List.foldlM_map]
  congr 1
  funext a b
  exact h a b

theorem get_openAI_blank {holder key : Bytes} (hholder : arrayIndex holder = none)
    (hkey : key ≠ "reasoning_content") {d : Doc} (hd : ∀ raw text, d ≠ .str raw text) :
    gj.get (d.mapKey "choices" (.mapFirst (.mapKey holder
        (.mapKey "reasoning_content" .blank)))) ["choices", "0", holder, key] =
      gj.get d ["choices", "0", holder, key] := by
  have hfield : ∀ v : Doc, (v.mapKey "reasoning_content" .blank).find [key] =
      (v.find [key]).map id := by
    intro v
    rw [find_mapKey_of_ne hkey, Option.map_id]
    rfl
  have hchoices : arrayIndex "choices" = none := by simp [names_apart]
  rw [get_mapKey hchoices (find_mapFirst (find_mapKey hholder hfield)) hd, Option.map_id]
  rfl

theorem get_google_blank {d : Doc} (hd : ∀ raw text, d ≠ .str raw text) :
    gj.get (responseBlank gj .google d) ["candidates", "0", "content", "parts"] =
      (gj.get d ["candidates", "0", "content", "parts"]).map (mapItems (blankThought gj)) :=
  get_mapKey (by simp [names_apart]) (find_mapFirst (find_mapKey (by simp [names_apart])
    (find_mapKey (by simp [names_apart]) find_nil_map))) hd

/-- **Responses: the reasoning does not matter.** -/
theorem dispatchResponseContent_blank {family}
    (hfamily : providerFamily provider = some family) (d : Doc) :
    dispatchResponseContent gj provider (gj.get (responseBlank gj family d)) false =
      dispatchResponseContent gj provider (gj.get d) false := by
  by_cases hstr : ∃ raw text, d = .str raw text
  · obtain ⟨raw, text, rfl⟩ := hstr
    cases family <;> rfl
  have hd : ∀ raw text, d ≠ .str raw text := fun raw text h => hstr ⟨raw, text, h⟩
  unfold dispatchResponseContent
  rw [hfamily]
  cases family with
  | openAI =>
    change extractOpenAIContent gj provider _ false = extractOpenAIContent gj provider _ false
    unfold extractOpenAIContent openAIText responseBlank
    rw [get_openAI_blank (by simp [names_apart]) (by simp [names_apart]) hd,
      get_openAI_blank (by simp [names_apart]) (by simp [names_apart]) hd]
    rfl
  | anthropic =>
    change extractAnthropicContent gj provider _ false = extractAnthropicContent gj provider _ false
    unfold extractAnthropicContent responseBlank
    rw [get_mapKey (by simp [names_apart]) find_nil_map hd, itemsOf_map_mapItems]
    cases itemsOf (gj.get d ["content"]) with
    | none => rfl
    | some items =>
      exact congrArg (Except.map parts) (foldlM_map_of_blind anthropicBlock_blank items {})
  | openAIResponses =>
    change extractOpenAIResponsesContent gj provider _ false =
      extractOpenAIResponsesContent gj provider _ false
    unfold extractOpenAIResponsesContent responseBlank
    rw [get_mapKey (by simp [names_apart]) find_nil_map hd, itemsOf_map_mapItems]
    cases itemsOf (gj.get d ["output"]) with
    | none => rfl
    | some items =>
      exact congrArg (· >>= _) (foldlM_map_of_blind (fun g item => outputItem_blank g item _) items {})
  | google =>
    change extractGeminiContent gj provider _ false = extractGeminiContent gj provider _ false
    unfold extractGeminiContent
    rw [get_google_blank hd, itemsOf_map_mapItems]
    cases itemsOf (gj.get d _) with
    | none => rfl
    | some items =>
      exact congrArg (Except.map parts) (foldlM_map_of_blind geminiPart_blank items {})
  | awsBedrock =>
    change extractAWSBedrockContent gj provider _ false = extractAWSBedrockContent gj provider _ false
    unfold extractAWSBedrockContent responseBlank
    rw [get_mapKey (by simp [names_apart]) (find_mapKey (by simp [names_apart]) find_nil_map) hd]
    rcases gj.get d ["output", "message"] with - | message
    · rfl
    cases message with
    | obj raw members =>
      rw [Option.map_some, mapKey]
      dsimp only
      rw [← mapKey, get_mapKey (by simp [names_apart]) find_nil_map (by simp), itemsOf_map_mapItems]
      cases itemsOf (gj.get (.obj raw members) ["content"]) with
      | none => rfl
      | some items =>
        exact congrArg (· >>= _)
          (foldlM_map_of_blind (fun g block => bedrockBlock_blank g block) items {})
    | _ => rfl

/-- **Events: the reasoning does not matter.** -/
theorem extractDeltaParts_blank {family}
    (hfamily : providerFamily provider = some family) (d : Doc) :
    extractDeltaParts gj (gj.get (eventBlank gj family d)) false provider =
      extractDeltaParts gj (gj.get d) false provider := by
  unfold extractDeltaParts
  rw [hfamily]
  cases family with
  | openAI =>
    refine congrArg ok ?_
    by_cases hstr : ∃ raw text, d = .str raw text
    · obtain ⟨raw, text, rfl⟩ := hstr
      rfl
    unfold openAIDelta eventBlank
    rw [get_openAI_blank (by simp [names_apart]) (by simp [names_apart])
      fun raw text h => hstr ⟨raw, text, h⟩]
    rfl
  | openAIResponses =>
    refine congrArg ok ?_
    simp only [eventBlank]
    split_ifs with htype
    · unfold openAIResponsesDelta
      rw [get_mapKey_of_ne (by simp [names_apart]), htype]
      rfl
    · rfl
  | anthropic =>
    refine congrArg ok ?_
    have hfield : ∀ {key : Bytes}, key ≠ "thinking" →
        gj.get (eventBlank gj .anthropic d) ["delta", key] =
          gj.get d ["delta", key] := by
      intro key hkey
      by_cases hstr : ∃ raw text, d = .str raw text
      · obtain ⟨raw, text, rfl⟩ := hstr
        rfl
      have hdelta : arrayIndex "delta" = none := by simp [names_apart]
      have hother : ∀ v : Doc, (v.mapKey "thinking" .blank).find [key] =
          (v.find [key]).map id := by
        intro v
        rw [find_mapKey_of_ne hkey, Option.map_id]
        rfl
      rw [eventBlank, get_mapKey hdelta hother fun raw text h => hstr ⟨raw, text, h⟩, Option.map_id]
      rfl
    unfold anthropicDelta
    rw [hfield (by simp [names_apart]), hfield (by simp [names_apart]), eventBlank,
      get_mapKey_of_ne (by simp [names_apart])]
    rfl
  | google =>
    refine congrArg ok ?_
    by_cases hstr : ∃ raw text, d = .str raw text
    · obtain ⟨raw, text, rfl⟩ := hstr
      rfl
    unfold googleDelta eventBlank
    rw [get_google_blank fun raw text h => hstr ⟨raw, text, h⟩, itemsOf_map_mapItems]
    cases itemsOf (gj.get d _) with
    | none => rfl
    | some items =>
      refine List.foldl_map.trans ?_
      congr 1
      funext acc part
      exact googlePart_blank acc part
  | awsBedrock => rfl

end

/-- A document of a provider with its reasoning blanked; of another provider nothing is. -/
def blankFor (blank : ProviderFamily → Doc → Doc) (provider : Bytes) (d : Doc) : Doc :=
  match providerFamily provider with
  | some family => blank family d
  | none => d

section

variable (gj : Gjson) (provider : Bytes)

theorem answer_dispatchResponseContent_of_blank (d d' : Doc) (i i' : Bool)
    (h : blankFor (responseBlank gj) provider d = blankFor (responseBlank gj) provider d') :
    answer (dispatchResponseContent gj provider (gj.get d) i) =
      answer (dispatchResponseContent gj provider (gj.get d') i') := by
  rw [answer_dispatchResponseContent gj provider _ i false,
    answer_dispatchResponseContent gj provider _ i' false]
  cases hfamily : providerFamily provider with
  | none => simp [dispatchResponseContent, hfamily]
  | some family =>
    simp only [blankFor, hfamily] at h
    rw [← dispatchResponseContent_blank hfamily d, h, dispatchResponseContent_blank hfamily d']

theorem answer_extractDeltaParts_of_blank (d d' : Doc) (i i' : Bool)
    (h : blankFor (eventBlank gj) provider d = blankFor (eventBlank gj) provider d') :
    answer (extractDeltaParts gj (gj.get d) i provider) =
      answer (extractDeltaParts gj (gj.get d') i' provider) := by
  rw [answer_extractDeltaParts gj provider _ i false, answer_extractDeltaParts gj provider _ i' false]
  cases hfamily : providerFamily provider with
  | none => simp [extractDeltaParts, hfamily]
  | some family =>
    simp only [blankFor, hfamily] at h
    rw [← extractDeltaParts_blank hfamily d, h, extractDeltaParts_blank hfamily d']

end

/-- **Reasoning does not reach the answer.** The texts for the parser and for the wire, and the
errors, are the same with reasoning and without, and for two valid documents that are equal once
their reasoning is blanked. This holds of whole responses and of streamed events. -/
theorem reasoning_separate (gj : Gjson) (provider : Bytes) (i i' : Bool) :
    (∀ body, answer (extractResponseContent gj provider body i) =
      answer (extractResponseContent gj provider body i')) ∧
    (∀ body body', gj.valid body = true → gj.valid body' = true →
      blankFor (responseBlank gj) provider (gj.tree body) =
        blankFor (responseBlank gj) provider (gj.tree body') →
      answer (extractResponseContent gj provider body i) =
        answer (extractResponseContent gj provider body' i')) ∧
    (∀ get, answer (extractDeltaParts gj get i provider) =
      answer (extractDeltaParts gj get i' provider)) ∧
    ∀ text text', gj.valid text = true → gj.valid text' = true →
      blankFor (eventBlank gj) provider (gj.tree text) =
        blankFor (eventBlank gj) provider (gj.tree text') →
      answer (extractDeltaPartsFromText gj provider text i) =
        answer (extractDeltaPartsFromText gj provider text' i') := by
  refine ⟨?_, ?_, fun get => answer_extractDeltaParts gj provider get i i', ?_⟩
  · intro body
    unfold extractResponseContent
    split_ifs
    · rfl
    · rfl
    · exact answer_dispatchResponseContent gj provider _ i i'
  · intro body body' hbody hbody' h
    have hresponse : ∀ {b : Bytes} (j : Bool), gj.valid b = true →
        extractResponseContent gj provider b j =
          dispatchResponseContent gj provider (gj.get (gj.tree b)) j := by
      intro b j hb
      rw [extractResponseContent, if_neg (gj.not_blank b hb), hb, gj.lookup_eq_get hb]
      rfl
    rw [hresponse i hbody, hresponse i' hbody']
    exact answer_dispatchResponseContent_of_blank gj provider _ _ i i' h
  intro text text' htext htext' h
  unfold extractDeltaPartsFromText
  rw [gj.lookup_eq_get htext, gj.lookup_eq_get htext']
  exact answer_extractDeltaParts_of_blank gj provider _ _ i i' h

/-- A response of Anthropic with a thought and an answer. -/
def thoughtBody (thought : Bytes) : Bytes :=
  bytes "\x7b\"content\":[\x7b\"type\":\"thinking\",\"thinking\":" ++ quote thought ++
    bytes "\x7d,\x7b\"type\":\"text\",\"text\":\"yes\"\x7d]\x7d"

/-- Two thoughts, one of them asked for, and one answer. -/
theorem reasoning_separate_thoughts :
    let a := thoughtBody (bytes "a")
    let b := thoughtBody (bytes "b")
    answer (extractResponseContent stdGjson (bytes "anthropic") a true) =
        answer (extractResponseContent stdGjson (bytes "anthropic") b false) ∧
      extractResponseContent stdGjson (bytes "anthropic") a true =
        .ok ⟨bytes "yes", bytes "yes", bytes "a"⟩ := by
  intro a b
  refine ⟨(reasoning_separate stdGjson (bytes "anthropic") true false).2.1 a b
    (by decide +kernel) (by decide +kernel) (Doc.eq_of_same ?_), by decide +kernel⟩
  decide +kernel

end BamlRest.BuildRequest
