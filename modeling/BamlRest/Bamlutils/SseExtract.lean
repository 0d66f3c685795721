import BamlRest.Bamlutils.BedrockDebug
import BamlRest.Bamlutils.Gjson
import BamlRest.Bamlutils.StreamCadence

/-!
# Deltas of streamed events

`bamlutils/sse/extract.go`: what an event of a provider adds to the text of a call, and the
extractor that goes through the growing list of events of a call from tick to tick.

* `extractFrom`: one tick of the extractor.
* `extractFrom_incremental`: ticks add up to the whole text.
-/

namespace BamlRest.BuildRequest

open List

/-! ### The parts of an event -/

inductive ProviderFamily where
  | openAI
  | openAIResponses
  | anthropic
  | google
  | awsBedrock
  deriving DecidableEq

def providerFamily (provider : Bytes) : Option ProviderFamily :=
  if provider ∈ [bytes "openai", bytes "openai-generic", bytes "azure-openai", bytes "ollama",
      "openrouter"] then some .openAI
  else if provider = "openai-responses" then some .openAIResponses
  else if provider = "anthropic" then some .anthropic
  else if provider ∈ [bytes "google-ai", bytes "vertex-ai"] then some .google
  else if provider = "aws-bedrock" then some .awsBedrock
  else none

namespace DeltaParts

def empty : DeltaParts := ⟨[], [], []⟩

def ofText (text : Bytes) : DeltaParts := ⟨text, text, []⟩

def append (d e : DeltaParts) : DeltaParts :=
  ⟨d.parseable ++ e.parseable, d.raw ++ e.raw, d.reasoning ++ e.reasoning⟩

@[simp]
theorem append_empty (d : DeltaParts) : d.append empty = d := by
  simp [append, empty]

@[simp]
theorem empty_append (d) : empty.append d = d := by
  simp [append, empty]

theorem append_assoc (d e f : DeltaParts) : (d.append e).append f = d.append (e.append f) := by
  simp [append]

end DeltaParts

section

variable (gj : Gjson) (get : List Bytes → Option Doc) (includeReasoning : Bool)

def openAIDelta : DeltaParts :=
  let delta := gj.string (get ["choices", "0", "delta", "content"])
  let reasoning := get ["choices", "0", "delta", "reasoning_content"]
  ⟨delta, delta, if includeReasoning then (stringOf reasoning).getD [] else []⟩

def openAIResponsesDelta : DeltaParts :=
  let type := gj.string (get ["type"])
  if type = "response.output_text.delta" then
    match stringOf (get ["delta"]) with
    | some text => .ofText text
    | none => .empty
  else if type = "response.reasoning_summary_text.delta" then
    if !includeReasoning then .empty
    else ⟨[], [], (stringOf (get ["delta"])).getD []⟩
  else .empty

def anthropicDelta : DeltaParts :=
  if gj.string (get ["type"]) = "content_block_delta" then
    let type := gj.string (get ["delta", "type"])
    if type = "text_delta" then .ofText (gj.string (get ["delta", "text"]))
    else if type = "thinking_delta" then
      if !includeReasoning then .empty
      else ⟨[], [], gj.string (get ["delta", "thinking"])⟩
    else .empty
  else .empty

def googlePart (acc : DeltaParts) (part : Doc) : DeltaParts :=
  match stringOf (gj.get part ["text"]) with
  | none => acc
  | some text =>
    if gj.boolOf (gj.get part ["thought"]) then
      if includeReasoning then acc.append ⟨[], [], text⟩ else acc
    else acc.append (.ofText text)

def googleDelta : DeltaParts :=
  match itemsOf (get ["candidates", "0", "content", "parts"]) with
  | some parts => parts.foldl (googlePart gj includeReasoning) .empty
  | none => .empty

def extractDeltaParts (provider : Bytes) : Except Bytes DeltaParts :=
  match providerFamily provider with
  | some .openAI => .ok (openAIDelta gj get includeReasoning)
  | some .openAIResponses => .ok (openAIResponsesDelta gj get includeReasoning)
  | some .anthropic => .ok (anthropicDelta gj get includeReasoning)
  | some .google => .ok (googleDelta gj get includeReasoning)
  | some .awsBedrock => .ok (.ofText (extractBedrockFromDebug (gj.string (get ["debug"]))))
  | none => .error ("unsupported provider: " ++ provider)

end

/-- `ExtractDeltaPartsFromText`, and its twin for bytes. -/
def extractDeltaPartsFromText (gj : Gjson) (provider rawText : Bytes) (includeReasoning : Bool) :
    Except Bytes DeltaParts :=
  extractDeltaParts gj (gj.lookup rawText) includeReasoning provider

/-! ### The extractor -/

/-- An event; `none` when its text cannot be read. -/
abbrev SSEChunk := Option Bytes

def chunkParts (gj : Gjson) (includeReasoning : Bool) (provider : Bytes) (chunk : SSEChunk) :
    DeltaParts :=
  match chunk with
  | none => .empty
  | some rawText =>
    match extractDeltaPartsFromText gj provider rawText includeReasoning with
    | .error _ => .empty
    | .ok parts => parts

/-- The loop over events that appends what they contribute to three buffers. -/
def writeChunks (gj : Gjson) (includeReasoning : Bool) (provider : Bytes) (buffers : DeltaParts)
    (chunks : List SSEChunk) : DeltaParts :=
  chunks.foldl (fun acc chunk => acc.append (chunkParts gj includeReasoning provider chunk)) buffers

/-- `IncrementalExtractor`; its three buffers are the channels of a `DeltaParts`. -/
structure IncrementalExtractor extends DeltaParts where
  callCount : ℤ
  cursor : ℕ
  includeReasoning : Bool

def newIncrementalExtractor (includeReasoning : Bool) : IncrementalExtractor :=
  { DeltaParts.empty with callCount := 0, cursor := 0, includeReasoning }

/-- `ExtractResult`: the deltas and the full texts of the three channels. -/
structure ExtractResult where
  delta : DeltaParts
  full : DeltaParts
  reset : Bool

structure Tick where
  callCount : ℤ
  provider : Bytes
  chunks : List SSEChunk

def extractFrom (gj : Gjson) (e : IncrementalExtractor) (t : Tick) :
    ExtractResult × IncrementalExtractor :=
  if t.callCount = 0 then (⟨.empty, .empty, false⟩, e)
  else
    let isFirstExtraction : Bool := e.callCount = 0
    let isRetry : Bool := !isFirstExtraction && t.callCount ≠ e.callCount
    let chunksDecreased : Bool := !isFirstExtraction && t.chunks.length < e.cursor
    if isFirstExtraction || isRetry || chunksDecreased then
      let full := writeChunks gj e.includeReasoning t.provider .empty t.chunks
      (⟨full, full, isRetry || chunksDecreased⟩,
        { full with
          callCount := t.callCount, cursor := t.chunks.length
          includeReasoning := e.includeReasoning })
    else
      -- each part is written to the buffer of the deltas and to that of the extractor
      let fresh := t.chunks.drop e.cursor
      let delta := writeChunks gj e.includeReasoning t.provider .empty fresh
      let full := writeChunks gj e.includeReasoning t.provider e.toDeltaParts fresh
      (⟨delta, full, false⟩,
        { full with
          callCount := e.callCount, cursor := t.chunks.length
          includeReasoning := e.includeReasoning })

structure StreamingCall where
  provider : Bytes
  chunks : List SSEChunk

def extractDeltaContent (gj : Gjson) (provider : Bytes) (chunk : SSEChunk)
    (includeReasoning : Bool) : Except Bytes Bytes :=
  match chunk with
  | none => .error "failed to get chunk text"
  | some rawText => (extractDeltaPartsFromText gj provider rawText includeReasoning).map (·.raw)

def getCurrentContent (gj : Gjson) (calls : List StreamingCall) (includeReasoning : Bool) : Bytes :=
  match calls.getLast? with
  | none => []
  | some call =>
    call.chunks.foldl (fun text chunk =>
      match extractDeltaContent gj call.provider chunk includeReasoning with
      | .error _ => text
      | .ok delta => text ++ delta) []

/-! ### Writing and full texts -/

section

variable (gj : Gjson) (includeReasoning : Bool)

def fullParts (provider : Bytes) (chunks : List SSEChunk) : DeltaParts :=
  writeChunks gj includeReasoning provider .empty chunks

variable {gj includeReasoning} {provider : Bytes}

theorem writeChunks_append (buffers chunks more) :
    writeChunks gj includeReasoning provider buffers (chunks ++ more) =
      writeChunks gj includeReasoning provider
        (writeChunks gj includeReasoning provider buffers chunks) more :=
  foldl_append

theorem writeChunks_eq (buffers : DeltaParts) (chunks : List SSEChunk) :
    writeChunks gj includeReasoning provider buffers chunks =
      buffers.append (fullParts gj includeReasoning provider chunks) := by
  induction chunks using List.reverseRecOn with
  | nil => exact (DeltaParts.append_empty buffers).symm
  | append_singleton chunks chunk ih =>
    rw [fullParts, writeChunks_append, writeChunks_append, ih]
    exact DeltaParts.append_assoc _ _ _

theorem fullParts_append (chunks more) : fullParts gj includeReasoning provider (chunks ++ more) =
      (fullParts gj includeReasoning provider chunks).append
        (fullParts gj includeReasoning provider more) := by
  rw [fullParts, writeChunks_append, writeChunks_eq]
  rfl

theorem fullParts_singleton (chunk) : fullParts gj includeReasoning provider [chunk] =
      chunkParts gj includeReasoning provider chunk :=
  DeltaParts.empty_append _

theorem getCurrentContent_append (calls provider chunks) :
    getCurrentContent gj (calls ++ [⟨provider, chunks⟩]) includeReasoning =
      (fullParts gj includeReasoning provider chunks).raw := by
  rw [getCurrentContent, getLast?_concat]
  dsimp only
  induction chunks using List.reverseRecOn with
  | nil => rfl
  | append_singleton chunks chunk ih =>
    rw [foldl_append, ih, fullParts_append, fullParts_singleton, foldl_cons, foldl_nil]
    cases chunk with
    | none => exact (append_nil _).symm
    | some rawText =>
      simp only [extractDeltaContent, chunkParts]
      cases extractDeltaPartsFromText gj provider rawText includeReasoning with
      | error _ => exact (append_nil _).symm
      | ok parts => rfl

end

/-! ### A reader of the results -/

abbrev Consumer := DeltaParts

def Consumer.read (c : Consumer) (r : ExtractResult) : Consumer :=
  (if r.reset then DeltaParts.empty else c).append r.delta

def tickStep (gj : Gjson) (s : IncrementalExtractor × Consumer) (t : Tick) :
    IncrementalExtractor × Consumer :=
  ((extractFrom gj s.1 t).2, Consumer.read s.2 (extractFrom gj s.1 t).1)

def runTicks (gj : Gjson) (s : IncrementalExtractor × Consumer) (ticks : List Tick) :
    IncrementalExtractor × Consumer :=
  ticks.foldl (tickStep gj) s

def Continues (t u : Tick) : Prop :=
  u.callCount = t.callCount →
    u.provider = t.provider ∧ (t.chunks <+: u.chunks ∨ u.chunks.length < t.chunks.length)

def Orderly (ticks : List Tick) : Prop :=
  (ticks.filter (·.callCount ≠ 0)).IsChain Continues

/-- What holds of the extractor and the reader after the last tick that did something. -/
def Follows (gj : Gjson) (includeReasoning : Bool) :
    Option Tick → IncrementalExtractor × Consumer → Prop
  | none, s => s = (newIncrementalExtractor includeReasoning, .empty)
  | some t, s =>
    t.callCount ≠ 0 ∧
      s = ({ fullParts gj includeReasoning t.provider t.chunks with
              callCount := t.callCount, cursor := t.chunks.length, includeReasoning },
            fullParts gj includeReasoning t.provider t.chunks)

section

variable {gj : Gjson} {includeReasoning : Bool} {last : Option Tick}
  {s : IncrementalExtractor × Consumer}

theorem tickStep_zero {t} (ht : t.callCount = 0) : tickStep gj s t = s := by
  have hread : Consumer.read s.2 ⟨.empty, .empty, false⟩ = s.2 := DeltaParts.append_empty s.2
  rw [tickStep, extractFrom, if_pos ht, hread]

theorem follows_rebuild {t} (ht : t.callCount ≠ 0)
    (hinc : s.1.includeReasoning = includeReasoning) (hbuild : (s.1.callCount = 0 ∧ s.2 = .empty) ∨
      (s.1.callCount ≠ 0 ∧ (t.callCount ≠ s.1.callCount ∨ t.chunks.length < s.1.cursor))) :
    Follows gj includeReasoning (some t) (tickStep gj s t) ∧
      (extractFrom gj s.1 t).1.full = fullParts gj includeReasoning t.provider t.chunks := by
  obtain ⟨e, c⟩ := s
  dsimp only at hinc hbuild
  subst hinc
  rcases hbuild with ⟨hcall, hc⟩ | ⟨hcall, hnew⟩
  · subst hc
    simp [tickStep, extractFrom, ht, hcall, Follows, fullParts, Consumer.read]
  have hreset : (!decide (e.callCount = 0) && decide (t.callCount ≠ e.callCount) ||
      !decide (e.callCount = 0) && decide (t.chunks.length < e.cursor)) = true := by
    simpa [hcall] using hnew
  simp only [tickStep, extractFrom, if_neg ht, Bool.or_assoc, hreset, Bool.or_true, if_true,
    Consumer.read, Follows, fullParts, DeltaParts.empty_append]
  exact ⟨⟨ht, trivial⟩, trivial⟩

theorem follows_extend {u t}
    (hs : Follows gj includeReasoning (some u) s) (hcall : t.callCount = u.callCount)
    (hprovider : t.provider = u.provider) (hchunks : u.chunks <+: t.chunks) :
    Follows gj includeReasoning (some t) (tickStep gj s t) ∧
      (extractFrom gj s.1 t).1.full = fullParts gj includeReasoning t.provider t.chunks := by
  obtain ⟨hu, rfl⟩ := hs
  obtain ⟨more, hmore⟩ := hchunks
  have hdrop : t.chunks.drop u.chunks.length = more := by rw [← hmore, drop_left]
  have hlt : ¬t.chunks.length < u.chunks.length := by
    rw [← hmore, length_append]
    omega
  have hfull : writeChunks gj includeReasoning t.provider
      (fullParts gj includeReasoning u.provider u.chunks) more =
        fullParts gj includeReasoning t.provider t.chunks := by
    rw [writeChunks_eq, ← hprovider, ← fullParts_append, hmore]
  have hread : (fullParts gj includeReasoning u.provider u.chunks).append
      (writeChunks gj includeReasoning t.provider .empty more) =
        fullParts gj includeReasoning t.provider t.chunks := by
    rw [← hfull]
    exact (writeChunks_eq _ more).symm
  simp only [tickStep, extractFrom, hu, hcall, hlt, hdrop, decide_false, ne_eq, not_true_eq_false, Bool.not_false, Bool.and_false, Bool.or_false,
    Bool.false_eq_true, if_false, Consumer.read, Follows, not_false_eq_true, true_and]
  rw [hread, ← hcall, hfull]
  exact ⟨rfl, rfl⟩

/-- **The step**: after a tick that does something, the reader and the extractor have the text of
its list, and so does the result. -/
theorem follows_tickStep {t} (ht : t.callCount ≠ 0) (hs : Follows gj includeReasoning last s)
    (hlast : ∀ u ∈ last, Continues u t) : Follows gj includeReasoning (some t) (tickStep gj s t) ∧
      (extractFrom gj s.1 t).1.full = fullParts gj includeReasoning t.provider t.chunks := by
  cases last with
  | none =>
    cases hs
    exact follows_rebuild ht rfl (.inl ⟨rfl, rfl⟩)
  | some u =>
    by_cases hcall : t.callCount = u.callCount
    · obtain ⟨hprovider, hchunks | hshort⟩ := hlast u rfl hcall
      · exact follows_extend hs hcall hprovider hchunks
      · obtain ⟨hu, rfl⟩ := hs
        exact follows_rebuild ht rfl (.inr ⟨hu, .inr hshort⟩)
    · obtain ⟨hu, rfl⟩ := hs
      exact follows_rebuild ht rfl (.inr ⟨hu, .inl hcall⟩)

/-- **The run**: the invariant holds after every orderly list of ticks, for the last of them that
did something. -/
theorem follows_runTicks (ticks) (hs : Follows gj includeReasoning last s)
    (horderly : (last.toList ++ ticks.filter (·.callCount ≠ 0)).IsChain Continues) :
    Follows gj includeReasoning ((ticks.filter (·.callCount ≠ 0)).getLast?.or last)
      (runTicks gj s ticks) := by
  induction ticks generalizing last s with
  | nil => simpa [runTicks] using hs
  | cons t ticks ih =>
    by_cases ht : t.callCount = 0
    · rw [filter_cons_of_neg (by simpa using ht)] at horderly ⊢
      rw [runTicks, foldl_cons, tickStep_zero ht]
      exact ih hs horderly
    rw [filter_cons_of_pos (by simpa using ht)] at horderly ⊢
    have hlast : ∀ u ∈ last, Continues u t := by
      rintro u rfl
      exact (isChain_cons_cons.mp horderly).1
    have hrest : ((some t).toList ++ ticks.filter (·.callCount ≠ 0)).IsChain Continues :=
      horderly.suffix (suffix_append _ _)
    have h := ih (follows_tickStep ht hs hlast).1 hrest
    rw [getLast?_cons, Option.some_or, ← Option.or_some]
    exact h

end

/-- **Incremental extraction is full extraction.** After every orderly list of ticks, a tick with a
call leaves a reader of the deltas with the full text of the list of events, on every channel. The
result reports the same text, and the raw channel is what `GetCurrentContent` gives. -/
theorem extractFrom_incremental (gj : Gjson) (includeReasoning : Bool) (history : List Tick)
    (t : Tick) (horderly : Orderly (history ++ [t])) (ht : t.callCount ≠ 0)
    (calls : List StreamingCall) :
    let s := runTicks gj (newIncrementalExtractor includeReasoning, .empty) history
    Consumer.read s.2 (extractFrom gj s.1 t).1 =
        fullParts gj includeReasoning t.provider t.chunks ∧
      (extractFrom gj s.1 t).1.full = fullParts gj includeReasoning t.provider t.chunks ∧
      getCurrentContent gj (calls ++ [⟨t.provider, t.chunks⟩]) includeReasoning =
        (fullParts gj includeReasoning t.provider t.chunks).raw := by
  intro s
  rw [Orderly, filter_append, filter_cons_of_pos (by simpa using ht), filter_nil]
    at horderly
  have hbefore : (history.filter (·.callCount ≠ 0)).IsChain Continues :=
    horderly.prefix (prefix_append _ _)
  have hs : Follows gj includeReasoning ((history.filter (·.callCount ≠ 0)).getLast?.or none) s :=
    @follows_runTicks _ _ none _ history rfl hbefore
  rw [Option.or_none] at hs
  have hlast : ∀ u ∈ (history.filter (·.callCount ≠ 0)).getLast?, Continues u t := fun u hu =>
    (isChain_append.mp horderly).2.2 u hu t (by simp)
  obtain ⟨⟨-, hstep⟩, hfull⟩ := follows_tickStep ht hs hlast
  exact ⟨congrArg Prod.snd hstep, hfull, getCurrentContent_append calls _ _⟩

/-- An event of OpenAI with a text in it. -/
def contentEvent (text : Bytes) : Bytes :=
  bytes "\x7b\"choices\":[\x7b\"delta\":\x7b\"content\":" ++ quote text ++ bytes "\x7d\x7d]\x7d"

/-- A list that grows with an unreadable event, becomes shorter and grows again. -/
theorem extractFrom_incremental_ticks :
    let event (text : String) : SSEChunk := some (contentEvent (bytes text))
    let tick (chunks : List SSEChunk) : Tick := ⟨1, bytes "openai", chunks⟩
    let history := [tick [event "a"], tick [event "a", none, event "b"], ⟨0, [], []⟩,
      tick [event "c"]]
    let s := runTicks stdGjson (newIncrementalExtractor false, .empty) history
    Consumer.read s.2 (extractFrom stdGjson s.1 (tick [event "c", event "d"])).1 =
      ⟨bytes "cd", bytes "cd", []⟩ := by
  intro event tick history s
  have horderly : Orderly (history ++ [tick [event "c", event "d"]]) := by
    refine .cons_cons ?_ (.cons_cons ?_ (.cons_cons ?_ (.singleton _)))
    · exact fun _ => ⟨rfl, .inl ⟨_, rfl⟩⟩
    · exact fun _ => ⟨rfl, .inr (by decide)⟩
    · exact fun _ => ⟨rfl, .inl ⟨_, rfl⟩⟩
  refine (extractFrom_incremental stdGjson false history _ horderly (by decide) []).1.trans ?_
  decide +kernel

end BamlRest.BuildRequest
