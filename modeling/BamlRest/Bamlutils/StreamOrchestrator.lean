import BamlRest.Bamlutils.Retry
import BamlRest.Bamlutils.RoundRobinResolve
import BamlRest.Bamlutils.StreamCadence

/-!
# Streaming through the orchestrator

`RunStreamOrchestration` serves one streaming request: it runs a single client or the children of a
fallback chain, each attempt under the retry policy, and sends frames on a channel.
-/

namespace BamlRest.BuildRequest

/-! ### Errors -/

/-- What `errors.As` and `errors.Is` can tell of one error. -/
inductive ErrorKind where
  | foreign
  | canceled
  | deadlineExceeded
  | terminal (retryTerminal : Bool)
  | rawCarrying (raw : Bytes)
  | outputParse
  | nativeStreamTerminal
  | nativeStreamFailedNil
  | unsupportedProvider (provider : Bytes)
  | unsupportedChildProvider (provider child : Bytes)
  | bedrockNotConfigured
  | bedrockChildNotConfigured
  | legacyChildNotConfigured
  | failedToBuildRequest
  | streamError
  | deltaExtractionFailed
  | failedToParseFinal
  | failedToParseNativeFinal
  | bothNativeSeams
  | nativeParsersMissing
  | unknownOracleDisposition (disposition : UInt8)
  | unknownDisposition (disposition : UInt8)

/-- An error with those it wraps. -/
inductive StreamError where
  | mk (kind : ErrorKind) (wraps : List StreamError)

namespace StreamError

mutual

/-- `errors.As`: the first error of the tree with a property, the error itself before what it
wraps. -/
def as {α : Type} (p : ErrorKind → Option α) : StreamError → Option α
  | .mk kind wraps =>
    match p kind with
    | some a => some a
    | none => asAny p wraps

def asAny {α : Type} (p : ErrorKind → Option α) : List StreamError → Option α
  | [] => none
  | e :: es =>
    match e.as p with
    | some a => some a
    | none => asAny p es

end

mutual

/-- The error as `retry` sees it. -/
def toGo : StreamError → Retry.GoError
  | .mk kind wraps =>
    .mk (match kind with
      | .terminal b => some b
      | .nativeStreamTerminal => some true
      | _ => none) (toGoAll wraps)

def toGoAll : List StreamError → List Retry.GoError
  | [] => []
  | e :: es => e.toGo :: toGoAll es

end

/-- The retry loop stops at it. -/
def isTerminal (err : StreamError) : Bool :=
  Retry.isTerminal err.toGo

/-- A native attempt failed after it had claimed the transport. -/
def isNativeStreamTerminal (err : StreamError) : Bool :=
  (err.as fun | .nativeStreamTerminal => some () | _ => none).isSome

/-- `errors.Is(err, context.Canceled) || errors.Is(err, context.DeadlineExceeded)`. -/
def isCancellation (err : StreamError) : Bool :=
  (err.as fun | .canceled => some () | _ => none).isSome ||
    (err.as fun | .deadlineExceeded => some () | _ => none).isSome

/-- The raw text that an error carries. -/
def rawFromError (err : StreamError) : Bytes :=
  (err.as fun | .rawCarrying raw => some raw | _ => none).getD []

/-- `newRawError`; without a text it adds nothing. -/
def newRawError (err : StreamError) (raw : Bytes) : StreamError :=
  if raw = [] then err else .mk (.rawCarrying raw) [err]

/-- `wrapOutputParse` of a formatted error. -/
def outputParse (kind : ErrorKind) (err : StreamError) : StreamError :=
  .mk .outputParse [.mk kind [err]]

/-- `newNativeStreamTerminalError`. -/
def newNativeStreamTerminalError (err : Option StreamError) (raw : Bytes) : StreamError :=
  newRawError (.mk .nativeStreamTerminal [err.getD (.mk .nativeStreamFailedNil [])]) raw

theorem isTerminal_newNative (err raw) : (newNativeStreamTerminalError err raw).isTerminal := by
  unfold newNativeStreamTerminalError newRawError isTerminal Retry.isTerminal
  split <;> simp [toGo, toGoAll, Retry.GoError.asTerminal, Retry.GoError.asTerminalAny]

theorem isNativeStreamTerminal_newNative (err raw) :
    (newNativeStreamTerminalError err raw).isNativeStreamTerminal := by
  unfold newNativeStreamTerminalError newRawError isNativeStreamTerminal
  split <;> simp [as, asAny]

end StreamError

/-! ### Configuration and frames -/

/-- The two kinds of metadata. -/
inductive MetadataPhase where
  | planned
  | outcome
  deriving DecidableEq

/-- `Metadata`, as far as the orchestrator reads or writes it. -/
structure Metadata where
  phase : MetadataPhase
  attempt : Int64
  client : Bytes
  provider : Bytes
  strategy : Bytes
  chain : List Bytes
  legacyChildren : List Bytes
  retryMax : Option Int64
  retryPolicy : Bytes
  retryCount : Option Int64
  winnerClient : Bytes
  winnerProvider : Bytes
  winnerPath : Bytes
  winnerEngine : Bytes
  plannedEngine : Bytes
  upstreamDurMs : Option Int64
  fallbackTargets : List (Bytes × Bytes)
  fallbackRoundRobin : List (Bytes × RoundRobinInfo)

/-- `StreamConfig`, with the parsers that are arguments of the orchestrator. -/
structure StreamConfig where
  provider : Bytes
  clientOverride : Bytes
  retryPolicy : Option Retry.Policy
  needsPartials : Bool
  needsRaw : Bool
  includeReasoning : Bool
  softFinalParse : Bool
  parseThrottleInterval : Int64
  fallbackChain : List Bytes
  clientProviders : List (Bytes × Bytes)
  legacyChildren : List (Bytes × Bool)
  fallbackTargets : List (Bytes × Bytes)
  metadataPlan : Option Metadata
  hasNewMetadataResult : Bool
  hasBuildBedrockStreamRequest : Bool
  hasLegacyStreamChild : Bool
  nativeAttemptEnabled : Bool
  hasNativeAttempt : Bool
  nativeOracleAttemptEnabled : Bool
  hasNativeOracleAttempt : Bool
  hasNativeParseStream : Bool
  hasNativeParseFinal : Bool
  plannedEngine : Bytes
  hasParseStream : Bool

namespace StreamConfig

variable (cfg : StreamConfig)

/-- `ClientProviders[child]`. -/
def clientProvider (child : Bytes) : Bytes := (lookup cfg.clientProviders child).getD []

/-- `LegacyChildren[child]`. -/
def isLegacyChild (child : Bytes) : Bool := (lookup cfg.legacyChildren child).getD false

/-- The client that a child stands for. -/
def target (child : Bytes) : Bytes :=
  if cfg.isLegacyChild child then child
  else
    match lookup cfg.fallbackTargets child with
    | some t => if t ≠ [] then t else child
    | none => child

/-- The plan that is announced, if metadata is asked for. -/
def metadata : Option Metadata := if cfg.hasNewMetadataResult then cfg.metadataPlan else none

end StreamConfig

/-- The providers with a request builder. -/
def supportedProviders : List Bytes :=
  ["openai", "openai-generic", "azure-openai", "ollama",
    "openrouter", "openai-responses", "anthropic", "google-ai",
    "vertex-ai", "aws-bedrock"]

/-- `IsProviderSupported`. -/
def isProviderSupported (provider : Bytes) : Bool :=
  provider ∈ supportedProviders

/-- The provider with a stream protocol of its own. -/
def awsBedrock : Bytes := "aws-bedrock"

namespace StreamConfig

variable (cfg : StreamConfig)

/-- The check of the children, with `bedrockInChain`. -/
def validateChildren : List Bytes → Bool → Except StreamError Bool
  | [], bedrockInChain => .ok bedrockInChain
  | child :: chain, bedrockInChain =>
    if cfg.isLegacyChild child then validateChildren chain bedrockInChain
    else
      let provider := cfg.clientProvider child
      if provider = [] || !isProviderSupported provider then
        .error (.mk (.unsupportedChildProvider provider child) [])
      else validateChildren chain (bedrockInChain || provider = awsBedrock)

/-- What is checked before the first attempt. -/
def validate : Option StreamError :=
  if cfg.fallbackChain = [] then
    if cfg.provider = [] || !isProviderSupported cfg.provider then
      some (.mk (.unsupportedProvider cfg.provider) [])
    else if cfg.provider = awsBedrock && !cfg.hasBuildBedrockStreamRequest then
      some (.mk .bedrockNotConfigured [])
    else none
  else if cfg.legacyChildren ≠ [] && !cfg.hasLegacyStreamChild then
    some (.mk .legacyChildNotConfigured [])
  else
    match cfg.validateChildren cfg.fallbackChain false with
    | .error err => some err
    | .ok bedrockInChain =>
      if bedrockInChain && !cfg.hasBuildBedrockStreamRequest then
        some (.mk .bedrockChildNotConfigured [])
      else none

end StreamConfig

/-- A frame, as the arguments of `newResult` and `NewMetadataResult`. -/
inductive StreamFrame (V : Type) where
  | metadata (md : Metadata)
  | heartbeat
  | stream (value : Option V) (raw reasoning : Bytes)
  | reset
  | final (value : Option V) (raw reasoning : Bytes)
  | error (raw : Bytes) (err : StreamError)

/-- A child attempt: the attempt of the retry policy, and the position in the chain. -/
structure Window where
  attempt : Int64
  child : ℕ

/-- A frame that was sent, and the child attempt that was going on. -/
structure Sent (V : Type) where
  window : Window
  frame : StreamFrame V

/-- What the orchestration keeps, and what it has sent. -/
structure StreamState (V : Type) where
  heartbeatSent : Bool
  sawStreamFrame : Bool
  plannedMetadataOnce : Bool
  nativeWinnerEngine : Bytes
  winnerClient : Bytes
  winnerProvider : Bytes
  winnerPath : Bytes
  finalRetryCount : Int64
  /-- how often the channel and the context have been looked at -/
  polls : ℕ
  window : Window
  out : List (Sent V)

/-- Nothing was sent. -/
def StreamState.initial (V : Type) : StreamState V :=
  ⟨false, false, false, [], [], [], [], 0, 0, ⟨0, 0⟩, []⟩

/-! ### What the outside does -/

/-- What a `select` finds: room in the channel, no room, or the context done. -/
inductive Poll where
  | room
  | full
  | done (err : StreamError)

/-- What the clock and the partial parser answer while one event is handled. -/
structure TickAnswers (V : Type) where
  nowCheck : ℤ
  nowSet : ℤ
  parse : Bytes → Except StreamError (Option V)

/-- The stream of an SSE response: its events, and the error it ends with. -/
structure SseHandle (V : Type) where
  events : List (Bytes × TickAnswers V)
  err : Option StreamError

/-- The stream of an AWS response: events of a type that only the extractor looks at, and errors of
the decoder. -/
structure AwsHandle (V E : Type) where
  events : List (Except StreamError E × TickAnswers V)

/-- A step of the native route. -/
inductive NativeStep (V : Type) where
  | sendHeaders
  | emitDelta (delta : DeltaParts) (answers : TickAnswers V)

/-- A step of the route with values that are resolved elsewhere. -/
inductive OracleStep (V : Type) where
  | sendHeaders
  | emitResolved (event : StreamCadenceEvent V)

/-- A native attempt. Declining asserts that nothing was called. -/
inductive NativeRun (V : Type) where
  | declined
  | completed (steps : List (NativeStep V)) (winnerEngine : Bytes)
  | failedAfterClaim (steps : List (NativeStep V)) (err : Option StreamError)
      (rawDiagnostic : Bytes)
  | unknown (steps : List (NativeStep V)) (disposition : UInt8)

/-- An oracle-owned native attempt. Declining asserts that nothing was called. -/
inductive OracleRun (V : Type) where
  | declined
  | completed (steps : List (OracleStep V)) (final : Option V) (raw reasoning : Bytes)
      (winnerEngine : Bytes)
  | failedAfterClaim (steps : List (OracleStep V)) (err : Option StreamError)
      (rawDiagnostic : Bytes)
  | unknown (steps : List (OracleStep V)) (disposition : UInt8)

/-- What a child gives: the final result, the raw text and the reasoning. -/
abbrev ChildResult (V : Type) := Except StreamError (Option V × Bytes × Bytes)

/-- A legacy child: how often it sends a heartbeat, and what it returns. -/
structure LegacyRun (V : Type) where
  heartbeats : ℕ
  result : ChildResult V

/-- The callbacks and the transports during one child attempt. -/
structure ChildWorld (V Req E : Type) where
  legacyStreamChild : Bytes → Bytes → Bool → LegacyRun V
  nativeOracleAttempt : Bytes → Bytes → OracleRun V
  nativeAttempt : Bytes → Bytes → NativeRun V
  buildRequest : Bytes → Except StreamError Req
  buildBedrockStreamRequest : Bytes → Except StreamError Req
  executeStreamCallback : Req → Except StreamError (SseHandle V)
  executeAWSStream : Req → Except StreamError (AwsHandle V E)
  parseFinal : Bytes → Except StreamError (Option V)
  nativeParseFinal : Bytes → Except StreamError (Option V)
  /-- the time since the start, when the outcome is sent -/
  upstreamDurMs : Int64

/-- Everything that answers from outside. -/
structure StreamWorld (V Req E : Type) where
  poll : ℕ → Poll
  extractDeltaPartsFromBytes : Bytes → Bytes → Bool → Except StreamError DeltaParts
  extractBedrockStreamDelta : E → Bool → Except StreamError DeltaParts
  child : Window → ChildWorld V Req E

/-! ### Sending -/

/-- A computation of the orchestration. -/
abbrev StreamM (V : Type) := StateM (StreamState V)

variable {V Req E : Type} (cfg : StreamConfig) (w : StreamWorld V Req E)

/-- A `select`. -/
def select : StreamM V Poll := do
  let s ← get
  set { s with polls := s.polls + 1 }
  pure (w.poll s.polls)

/-- A frame goes out, tagged with its window. -/
def send (frame : StreamFrame V) : StreamM V Unit :=
  modify fun s => { s with out := s.out ++ [⟨s.window, frame⟩] }

/-- A send with a `default` case. -/
def trySend (frame : StreamFrame V) : StreamM V Unit := do
  match ← select w with
  | .room => send frame
  | .full | .done _ => pure ()

/-- A frame goes out unless the context is done. -/
def sendOrDone (frame : StreamFrame V) : StreamM V (Option StreamError) := do
  match ← select w with
  | .room | .full =>
    send frame
    pure none
  | .done err => pure (some err)

/-- `ctx.Err()`, or a `select` on the context with a `default` case. -/
def ctxErr : StreamM V (Option StreamError) := do
  match ← select w with
  | .room | .full => pure none
  | .done err => pure (some err)

/-- The plan, before everything else. -/
def emitPlannedMetadata : StreamM V Unit :=
  match cfg.metadata with
  | none => pure ()
  | some plan => do
    let s ← get
    if s.plannedMetadataOnce then pure ()
    else
      set { s with plannedMetadataOnce := true }
      trySend w (.metadata { plan with phase := .planned, attempt := 0 })

/-- One heartbeat in each window. -/
def sendHeartbeat : StreamM V Unit := do
  let s ← get
  if s.heartbeatSent then pure ()
  else
    set { s with heartbeatSent := true }
    trySend w .heartbeat
  emitPlannedMetadata cfg w

/-- `trySendPartialShared`: a partial result is dropped if there is no room. -/
def trySendPartialShared (parsed : Option V) (rawDelta reasoningDelta : Bytes) :
    StreamM V (Option StreamError) := do
  match ← select w with
  | .room =>
    send (.stream parsed rawDelta reasoningDelta)
    modify fun s => { s with sawStreamFrame := true }
    pure none
  | .done err => pure (some err)
  | .full => pure none

/-! ### Children -/

/-- The throttle of the parser in a window. -/
def newCadence (hasParser : Bool) : StreamCadenceConfig :=
  ⟨cfg.needsPartials, cfg.needsRaw, cfg.parseThrottleInterval, hasParser, .parseErrorsAreNoEvent⟩

/-- One delta through the shared cadence; a candidate that is nil is no result. -/
def cadenceDelta (hasParser : Bool) (d : DeltaParts) (answers : TickAnswers V)
    (acc : StreamAccumulator) : StreamM V (Option StreamError × StreamAccumulator) :=
  (newCadence cfg hasParser).delta
    (fun ev => trySendPartialShared w ev.value ev.raw ev.reasoning)
    ⟨d, answers.nowCheck, answers.nowSet,
      fun text => (answers.parse text).map fun candidate => (candidate, candidate.isSome)⟩ acc

/-- The end of a stream: the final parse, or the raw text alone if that is allowed. -/
def finish (parsed : Except StreamError (Option V)) (raw reasoning : Bytes) :
    StreamM V (ChildResult V) :=
  match parsed with
  | .ok final => pure (.ok (final, raw, reasoning))
  | .error err => do
    let failed : ChildResult V :=
      .error (.newRawError (.outputParse .failedToParseFinal err) raw)
    if cfg.needsPartials && cfg.needsRaw && cfg.softFinalParse then
      match ← ctxErr w with
      | none => pure (if err.isCancellation then failed else .ok (none, raw, reasoning))
      | some _ => pure failed
    else pure failed

/-- The throttled parse of the bedrock transport, which has its own clock. -/
def bedrockParse (answers : TickAnswers V) (acc : StreamAccumulator) :
    Option V × StreamAccumulator :=
  if cfg.hasParseStream && (cfg.parseThrottleInterval = 0 ||
      timeSub answers.nowCheck acc.lastParseTime ≥ cfg.parseThrottleInterval) then
    let acc := { acc with lastParseTime := answers.nowSet }
    match answers.parse acc.parseable with
    | .ok candidate => (candidate, acc)
    | .error _ => (none, acc)
  else (none, acc)

/-- One delta of a Bedrock stream. -/
def bedrockDelta (d : DeltaParts) (answers : TickAnswers V) (acc : StreamAccumulator) :
    StreamM V (Option StreamError × StreamAccumulator) :=
  if d.isEmpty then pure (none, acc)
  else
    let acc := acc.add d
    if cfg.needsPartials && d.parseable = [] then
      if cfg.needsRaw then do
        let err ← trySendPartialShared w none d.raw d.reasoning
        pure (err, acc)
      else pure (none, acc)
    else if cfg.needsPartials then
      match bedrockParse cfg answers acc with
      | (some parsed, acc) => do
        let raw := if cfg.needsRaw then d.raw else []
        let reasoning := if cfg.needsRaw then d.reasoning else []
        let err ← trySendPartialShared w (some parsed) raw reasoning
        pure (err, acc)
      | (none, acc) =>
        if cfg.needsRaw then do
          let err ← trySendPartialShared w none d.raw d.reasoning
          pure (err, acc)
        else pure (none, acc)
    else pure (none, acc)

/-- The events of a Bedrock stream. -/
def bedrockEvents : List (Except StreamError E × TickAnswers V) → StreamAccumulator →
    StreamM V (Except StreamError StreamAccumulator)
  | [], acc => pure (.ok acc)
  | (.error err, _) :: _, acc => pure (.error (.newRawError (.mk .streamError [err]) acc.raw))
  | (.ok ev, answers) :: events, acc =>
    match w.extractBedrockStreamDelta ev cfg.includeReasoning with
    | .error err => pure (.error (.newRawError (.mk .deltaExtractionFailed [err]) acc.raw))
    | .ok d => do
      match ← bedrockDelta cfg w d answers acc with
      | (some err, _) => pure (.error err)
      | (none, acc) => bedrockEvents events acc

/-- `tryOneBedrockStreamChild`. -/
def tryOneBedrockStreamChild (c : ChildWorld V Req E) (clientOverride : Bytes) :
    StreamM V (ChildResult V) :=
  if !cfg.hasBuildBedrockStreamRequest then pure (.error (.mk .bedrockNotConfigured []))
  else
    match c.buildBedrockStreamRequest clientOverride with
    | .error err => pure (.error (.mk .failedToBuildRequest [err]))
    | .ok req =>
      match c.executeAWSStream req with
      | .error err => pure (.error err)
      | .ok resp => do
        sendHeartbeat cfg w
        match ← bedrockEvents cfg w resp.events .empty with
        | .error err => pure (.error err)
        | .ok acc => finish cfg w (c.parseFinal acc.parseable) acc.raw acc.reasoning

def nativeEngineMarker : Bytes := "native"

def nativeBAMLParseEngineMarker : Bytes := "native_baml_parse"

/-- The markers that may be reported of a winner. -/
def allowedWinnerEngine (e : Bytes) : Bytes :=
  if e = nativeEngineMarker ∨ e = nativeBAMLParseEngineMarker then e else nativeEngineMarker

/-- The markers that may be announced. -/
def allowedPlannedEngine (e : Bytes) : Bytes :=
  if e = nativeEngineMarker then e else []

/-- The engine of the attempt that won. -/
def setNativeWinnerEngine (e : Bytes) : StreamM V Unit :=
  modify fun s => { s with nativeWinnerEngine := allowedWinnerEngine e }

/-- The calls of an oracle-owned native transport. An event with nothing in it is not sent. -/
def oracleSteps : List (OracleStep V) → StreamM V Unit
  | [] => pure ()
  | .sendHeaders :: steps => do
    sendHeartbeat cfg w
    oracleSteps steps
  | .emitResolved ev :: steps => do
    if !ev.hasPartial && ev.raw = [] && ev.reasoning = [] then pure ()
    else
      let _ ← trySendPartialShared w ev.value ev.raw ev.reasoning
    oracleSteps steps

/-- The oracle-owned native seam; `none` when the child goes on without it. -/
def tryNativeOracle (c : ChildWorld V Req E) (provider clientOverride : Bytes) :
    StreamM V (Option (ChildResult V)) :=
  if cfg.nativeOracleAttemptEnabled && cfg.hasNativeOracleAttempt then
    if cfg.nativeAttemptEnabled && cfg.hasNativeAttempt then
      pure (some (.error (.newNativeStreamTerminalError (some (.mk .bothNativeSeams [])) [])))
    else
      match c.nativeOracleAttempt provider clientOverride with
      | .declined => pure none
      | .completed steps final raw reasoning winnerEngine => do
        oracleSteps cfg w steps
        setNativeWinnerEngine winnerEngine
        pure (some (.ok (final, raw, reasoning)))
      | .failedAfterClaim steps err rawDiagnostic => do
        oracleSteps cfg w steps
        pure (some (.error (.newNativeStreamTerminalError err rawDiagnostic)))
      | .unknown steps disposition => do
        oracleSteps cfg w steps
        pure (some (.error (.newNativeStreamTerminalError
          (some (.mk (.unknownOracleDisposition disposition) [])) [])))
  else pure none

/-- The steps of the native route. -/
def nativeSteps : List (NativeStep V) → StreamAccumulator → StreamM V StreamAccumulator
  | [], acc => pure acc
  | .sendHeaders :: steps, acc => do
    sendHeartbeat cfg w
    nativeSteps steps acc
  | .emitDelta d answers :: steps, acc => do
    let (_, acc) ← cadenceDelta cfg w cfg.hasNativeParseStream d answers acc
    nativeSteps steps acc

/-- The native seam; `none` when the child goes on without it. -/
def tryNative (c : ChildWorld V Req E) (provider clientOverride : Bytes) :
    StreamM V (Option (ChildResult V)) :=
  if cfg.nativeAttemptEnabled && cfg.hasNativeAttempt then
    if !cfg.hasNativeParseStream || !cfg.hasNativeParseFinal then
      pure (some (.error (.newNativeStreamTerminalError (some (.mk .nativeParsersMissing [])) [])))
    else
      match c.nativeAttempt provider clientOverride with
      | .declined => pure none
      | .completed steps winnerEngine => do
        let acc ← nativeSteps cfg w steps .empty
        match c.nativeParseFinal acc.parseable with
        | .error err =>
          pure (some (.error (.newNativeStreamTerminalError
            (some (.outputParse .failedToParseNativeFinal err)) acc.raw)))
        | .ok final =>
          setNativeWinnerEngine winnerEngine
          pure (some (.ok (final, acc.raw, acc.reasoning)))
      | .failedAfterClaim steps err rawDiagnostic => do
        let acc ← nativeSteps cfg w steps .empty
        let raw := if rawDiagnostic = [] then acc.raw else rawDiagnostic
        pure (some (.error (.newNativeStreamTerminalError err raw)))
      | .unknown steps disposition => do
        let _ ← nativeSteps cfg w steps .empty
        pure (some (.error (.newNativeStreamTerminalError
          (some (.mk (.unknownDisposition disposition) [])) [])))
  else pure none

/-- `ForEach` with its callback: the error of the callback, and what has been accumulated. -/
def forEach (provider : Bytes) : List (Bytes × TickAnswers V) → StreamAccumulator →
    StreamM V (Option StreamError × StreamAccumulator)
  | [], acc => pure (none, acc)
  | (data, answers) :: events, acc =>
    match w.extractDeltaPartsFromBytes provider data cfg.includeReasoning with
    | .error err =>
      pure (some (.newRawError (.mk .deltaExtractionFailed [err]) acc.raw), acc)
    | .ok d => do
      match ← cadenceDelta cfg w cfg.hasParseStream d answers acc with
      | (some err, acc) => pure (some err, acc)
      | (none, acc) => forEach provider events acc

/-- The part of `tryOneStreamChild` after the native seams. -/
def tryBaml (c : ChildWorld V Req E) (provider clientOverride : Bytes) :
    StreamM V (ChildResult V) :=
  match c.buildRequest clientOverride with
  | .error err => pure (.error (.mk .failedToBuildRequest [err]))
  | .ok req =>
    match c.executeStreamCallback req with
    | .error err => pure (.error err)
    | .ok handle => do
      sendHeartbeat cfg w
      match ← forEach cfg w provider handle.events .empty with
      | (some callbackErr, _) => pure (.error callbackErr)
      | (none, acc) =>
        match handle.err with
        | some err => pure (.error (.newRawError (.mk .streamError [err]) acc.raw))
        | none => finish cfg w (c.parseFinal acc.parseable) acc.raw acc.reasoning

/-- `tryOneStreamChild`: the route that the provider and the configuration choose. -/
def tryOneStreamChild (c : ChildWorld V Req E) (provider clientOverride : Bytes) :
    StreamM V (ChildResult V) :=
  if provider = awsBedrock then tryOneBedrockStreamChild cfg w c clientOverride
  else do
    match ← tryNativeOracle cfg w c provider clientOverride with
    | some result => pure result
    | none =>
      match ← tryNative cfg w c provider clientOverride with
      | some result => pure result
      | none => tryBaml cfg w c provider clientOverride

/-- The heartbeats of a child on the older path. -/
def legacyHeartbeats : ℕ → StreamM V Unit
  | 0 => pure ()
  | n + 1 => do
    sendHeartbeat cfg w
    legacyHeartbeats n

/-- A child of a chain, on its own path. -/
def tryFallbackChild (c : ChildWorld V Req E) (child : Bytes) : StreamM V (ChildResult V) :=
  if cfg.isLegacyChild child then do
    let run := c.legacyStreamChild child (cfg.clientProvider child) cfg.needsRaw
    legacyHeartbeats cfg w run.heartbeats
    pure run.result
  else tryOneStreamChild cfg w c (cfg.clientProvider child) (cfg.target child)

/-! ### Attempts -/

/-- The plan with what became of it. -/
def outcomeOf (plan : Metadata) (s : StreamState V) (upstreamDurMs : Int64) : Metadata :=
  { plan with
    phase := .outcome
    attempt := 0
    retryMax := none
    retryPolicy := []
    chain := []
    legacyChildren := []
    fallbackTargets := []
    fallbackRoundRobin := []
    strategy := []
    provider := []
    retryCount := some s.finalRetryCount
    winnerClient := s.winnerClient
    winnerProvider := s.winnerProvider
    winnerPath := s.winnerPath
    winnerEngine := s.nativeWinnerEngine
    plannedEngine := allowedPlannedEngine cfg.plannedEngine
    upstreamDurMs := some upstreamDurMs }

/-- The outcome, before the final frame. -/
def emitOutcomeMetadata : StreamM V Unit :=
  match cfg.metadata with
  | none => pure ()
  | some plan => do
    let s ← get
    let _ ← sendOrDone w (.metadata (outcomeOf cfg plan s (w.child s.window).upstreamDurMs))

/-- The final frame. -/
def finalFrame (final : Option V) (raw reasoning : Bytes) : StreamFrame V :=
  .final final (if cfg.needsRaw then raw else []) (if cfg.needsRaw then reasoning else [])

/-- The outcome and the final frame. -/
def emitFinal (final : Option V) (raw reasoning : Bytes) : StreamM V (Option StreamError) := do
  emitOutcomeMetadata cfg w
  sendOrDone w (finalFrame cfg final raw reasoning)

/-- The winner is noted, and its result sent. -/
def emitWinner (client provider path : Bytes) (attempt : Int64) (final : Option V)
    (raw reasoning : Bytes) : StreamM V (Option V × Option StreamError) := do
  modify fun s => { s with
    winnerClient := client
    winnerProvider := provider
    winnerPath := path
    finalRetryCount := attempt }
  match ← emitFinal cfg w final raw reasoning with
  | some err => pure (none, some err)
  | none => pure (final, none)

def pathBuildRequest : Bytes := "buildrequest"

def pathLegacy : Bytes := "legacy"

/-- The reset before a new window. The error is that of the context. -/
def resetFrame : StreamM V (Option StreamError) := do
  let s ← get
  if cfg.needsPartials && s.sawStreamFrame then sendOrDone w .reset else pure none

/-- A new window has sent nothing. -/
def clearFlags : StreamM V Unit :=
  modify fun s => { s with sawStreamFrame := false, heartbeatSent := false }

/-- A window begins. -/
def enter (window : Window) : StreamM V Unit :=
  modify fun s => { s with window }

/-- The reset between two children of a chain. -/
def handOff (i : ℕ) (lastErr : Option StreamError) : StreamM V (Option StreamError) :=
  if i > 0 && lastErr.isSome then do
    match ← resetFrame cfg w with
    | some err => pure (some err)
    | none =>
      clearFlags
      pure none
  else pure none

/-- The loop of `attemptFull` over the chain. -/
def fallbackLoop (attempt : Int64) : ℕ → List Bytes → Option StreamError →
    StreamM V (Option V × Option StreamError)
  | _, [], lastErr => pure (none, lastErr)
  | i, child :: chain, lastErr => do
    match ← ctxErr w with
    | some err => pure (none, some err)
    | none =>
      match ← handOff cfg w i lastErr with
      | some err => pure (none, some err)
      | none =>
        enter ⟨attempt, i⟩
        match ← tryFallbackChild cfg w (w.child ⟨attempt, i⟩) child with
        | .ok (final, raw, reasoning) =>
          emitWinner cfg w (cfg.target child) (cfg.clientProvider child)
            (if cfg.isLegacyChild child then pathLegacy else pathBuildRequest) attempt final raw
            reasoning
        | .error err =>
          if err.isNativeStreamTerminal then pure (none, some err)
          else fallbackLoop attempt (i + 1) chain (some err)

/-- One attempt: the client, or the children of its chain in order. -/
def attemptFull (attempt : Int64) : StreamM V (Option V × Option StreamError) :=
  if cfg.fallbackChain = [] then do
    enter ⟨attempt, 0⟩
    match ← tryOneStreamChild cfg w (w.child ⟨attempt, 0⟩) cfg.provider cfg.clientOverride with
    | .error err => pure (none, some err)
    | .ok (final, raw, reasoning) =>
      emitWinner cfg w ((cfg.metadataPlan.map (·.client)).getD []) cfg.provider pathBuildRequest
        attempt final raw reasoning
  else fallbackLoop cfg w attempt 0 cfg.fallbackChain none

/-- The reset between two attempts. -/
def onRetry (_ : Int64) : StreamM V Unit := do
  let _ ← resetFrame cfg w
  clearFlags

/-- `RunStreamOrchestration`. -/
def runStreamOrchestration : StreamM V (Option StreamError) := do
  emitPlannedMetadata cfg w
  match cfg.validate with
  | some err => pure (some err)
  | none =>
    let (_, err) ← Retry.executeM none StreamError.isTerminal (fun _ => ctxErr w)
      (attemptFull cfg w) (some (onRetry cfg w)) cfg.retryPolicy
    match err with
    | none => pure none
    | some err =>
      match ← ctxErr w with
      | some _ => pure none
      | none =>
        let _ ← sendOrDone w (.error err.rawFromError err)
        pure none

end BamlRest.BuildRequest
