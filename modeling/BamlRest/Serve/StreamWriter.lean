import BamlRest.Lib.Effects
import BamlRest.Bamlutils.SseClient

/-!
# Publishing a stream as server-sent events

The server hands the results of a worker to `consumeStream`, which publishes them as frames of
server-sent events.
-/

namespace BamlRest.Serve

open Option List Effects Sse

/-! ### Frames -/

/-- The `data:` lines of a payload that is not empty. -/
def appendDataLines (rest : Bytes) : Bytes :=
  match _h : rest.span (· ≠ '\n'.toUInt8) with
  | (line, []) => bytes "data: " ++ line ++ ['\n'.toUInt8]
  | (line, _ :: rest') =>
    bytes "data: " ++ line ++ ['\n'.toUInt8] ++
      -- a payload that ends in a line feed has an empty last line
      (if rest' = [] then bytes "data: \n" else appendDataLines rest')
termination_by rest.length
decreasing_by
  rw [span_eq_takeWhile_dropWhile, Prod.mk.injEq] at _h
  have hlen := (dropWhile_suffix (· ≠ '\n') (l := rest)).length_le
  rw [_h.2, length_cons] at hlen
  exact hlen

/-- `appendSSEEventFrame`. -/
def appendSSEEventFrame (eventType payload : Bytes) : Bytes :=
  (if eventType ≠ [] then bytes "event: " ++ eventType ++ ['\n'.toUInt8] else []) ++
    (if payload ≠ [] then appendDataLines payload else []) ++ ['\n'.toUInt8]

/-- `appendSSECommentFrame`. -/
def appendSSECommentFrame (comment : Bytes) : Bytes :=
  ": " ++ comment ++ "\n\n"

/-- The lines of a frame. -/
def frameLines (eventType payload : Bytes) : List Bytes :=
  (if eventType ≠ [] then [fieldLine "event" eventType] else []) ++
    (if payload ≠ [] then (splitLF payload).map (fieldLine "data") else []) ++ [[]]

theorem splitLF_of_not_mem {s} (h : '\n'.toUInt8 ∉ s) : splitLF s = [s] := by
  induction s with
  | nil => rfl
  | cons b s ih =>
    simp only [mem_cons, not_or] at h
    rw [splitLF, if_neg (Ne.symm h.1), ih h.2]

theorem appendDataLines_eq (rest) :
    appendDataLines rest = unlines ((splitLF rest).map (fieldLine (bytes "data"))) := by
  have hbytes : bytes "data: " = bytes "data" ++ [':'.toUInt8, ' '.toUInt8] := by decide
  have hempty : bytes "data: \n" = unlines [fieldLine (bytes "data") []] := by decide
  have hline : ∀ line : Bytes, bytes "data: " ++ line ++ ['\n'.toUInt8] =
      unlines [fieldLine (bytes "data") line] := by
    intro line
    simp [hbytes, unlines, fieldLine]
  fun_induction appendDataLines rest with
  | case1 rest line h =>
    rw [span_eq_takeWhile_dropWhile, Prod.mk.injEq] at h
    have hrest : '\n'.toUInt8 ∉ rest := by
      intro hmem
      have := dropWhile_eq_nil_iff.mp h.2 _ hmem
      simp at this
    have hsame : line = rest := by
      rw [← h.1, ← append_nil (rest.takeWhile _), ← h.2, takeWhile_append_dropWhile]
    rw [hline, hsame, splitLF_of_not_mem hrest]
    rfl
  | case2 rest line b rest' h ih =>
    rw [span_eq_takeWhile_dropWhile, Prod.mk.injEq] at h
    have hb : b = '\n'.toUInt8 := by
      have := head?_dropWhile_not (· ≠ '\n'.toUInt8) rest
      rw [h.2] at this
      exact not_not.mp (of_decide_eq_false this)
    have hnot : '\n'.toUInt8 ∉ line := by
      rw [← h.1]
      intro hmem
      have := mem_takeWhile_imp hmem
      simp at this
    have hrest : rest = line ++ '\n'.toUInt8 :: rest' := by
      rw [← hb, ← h.2, ← h.1, takeWhile_append_dropWhile]
    rw [hrest, splitLF_append hnot, hline]
    split
    case isTrue hnil =>
      rw [hnil, hempty]
      simp [splitLF, unlines]
    case isFalse hne =>
      rw [ih]
      simp [unlines]

theorem appendSSEEventFrame_eq (eventType payload) :
    appendSSEEventFrame eventType payload = unlines (frameLines eventType payload) := by
  have hbytes : bytes "event: " = bytes "event" ++ [':'.toUInt8, ' '.toUInt8] := by decide
  unfold appendSSEEventFrame frameLines
  rw [appendDataLines_eq]
  split <;> split <;> simp [unlines, fieldLine, hbytes]

/-- One write on the connection: a whole frame, under the lock of the publisher. -/
inductive Write where
  | event (type payload : Bytes)
  | comment (text : Bytes)
  deriving DecidableEq

namespace Write

/-- The bytes of a write. -/
def frame : Write → Bytes
  | .event type payload => appendSSEEventFrame type payload
  | .comment text => appendSSECommentFrame text

/-- An event, not a comment. -/
def isEvent : Write → Bool
  | .event .. => true
  | .comment _ => false

end Write

/-! ### The publisher -/

/-- `StreamResultKind`. -/
inductive StreamResultKind where
  | stream
  | final
  | error
  | heartbeat
  | metadata
  deriving DecidableEq

/-- `workerplugin.StreamResult`; an error is its message. -/
structure StreamResult where
  kind : StreamResultKind
  data : Bytes
  raw : Bytes
  reasoning : Bytes
  error : Option Bytes
  stacktrace : Bytes
  reset : Bool
  errorCode : Bytes
  errorDetails : Bytes

open StreamResult

/-- `sonic.Marshal` on the two records that are published. A JSON text is not empty. -/
structure Sonic where
  callWithRaw : Bytes → Bytes → Bytes → Option Bytes
  errorEnvelope : Bytes → Bytes → Bytes → Option Bytes
  callWithRaw_ne_nil : ∀ {data raw reasoning p}, callWithRaw data raw reasoning = some p → p ≠ []
  errorEnvelope_ne_nil : ∀ {msg code details p}, errorEnvelope msg code details = some p → p ≠ []

/-- A handler of a stream: the mode, the libraries, the transformations of the data, if any, and
the connection, which says of each write whether it succeeds. `classifyStreamResultError` asks
`errors.As` for the types in the tree of the worker's error, of which a result here keeps the message
only; it is a parameter, and the theorems hold for every classification. -/
structure Handler where
  needsRaw : Bool
  sonic : Sonic
  classifyStreamResultError : StreamResult → Bytes × Bytes
  flatten : Option (Bytes → Option Bytes)
  finalReorder : Option (Bytes → Except Bytes Bytes)
  conn : ℕ → Bool

/-- The writes that succeeded, how many were tried, and whether the stream was cancelled. -/
structure Connection where
  writes : List Write
  tries : ℕ
  cancelled : Bool

/-- Nothing written yet. -/
def Connection.fresh : Connection := ⟨[], 0, false⟩

/-- Publishing, with its effect on the connection. -/
abbrev PublishM := StateM Connection

/-- The type of the last event. -/
def sseEventFinal : Bytes := "final"

/-- The type that tells the client to start over. -/
def sseEventReset : Bytes := "reset"

/-- The type of an error. -/
def sseEventError : Bytes := "error"

/-- The type of metadata. -/
def sseEventMetadata : Bytes := "metadata"

namespace Handler

variable (h : Handler)

/-- `writeEvent`; the result says that there was no error. -/
def writeEvent (eventType payload : Bytes) : PublishM Bool := do
  let s ← get
  if h.conn s.tries then
    modify fun s =>
      { s with writes := s.writes ++ [.event eventType payload], tries := s.tries + 1 }
    pure true
  else
    modify fun s => { s with tries := s.tries + 1, cancelled := true }
    pure false

/-- The data itself, or a record with the raw text and the reasoning. -/
def formatPayload (data raw reasoning : Bytes) : Option Bytes :=
  if !h.needsRaw then some data else h.sonic.callWithRaw data raw reasoning

/-- `PublishData` and `PublishFinal`, which differ in the type of the event. -/
def publishPayload (eventType data raw reasoning : Bytes) : PublishM Bool :=
  match h.formatPayload data raw reasoning with
  | none => do
    modify fun s => { s with cancelled := true }
    pure false
  | some payload => h.writeEvent eventType payload

/-- `PublishData`. -/
def publishData (data raw reasoning : Bytes) : PublishM Bool :=
  h.publishPayload [] data raw reasoning

/-- `PublishFinal`. -/
def publishFinal (data raw reasoning : Bytes) : PublishM Bool :=
  h.publishPayload sseEventFinal data raw reasoning

/-- `PublishReset`. -/
def publishReset : PublishM Bool :=
  h.writeEvent sseEventReset "\x7b\x7d"

/-- `PublishMetadata`. -/
def publishMetadata (payload : Bytes) : PublishM Bool :=
  h.writeEvent sseEventMetadata payload

/-- `PublishError`; the message itself if the record cannot be written. -/
def publishError (errMsg code details : Bytes) : PublishM Bool :=
  match h.sonic.errorEnvelope errMsg code details with
  | none => h.writeEvent sseEventError errMsg
  | some payload => h.writeEvent sseEventError payload

/-- The reset of a frame that is marked. -/
def publishResetOf (r : StreamResult) : PublishM Bool :=
  if r.reset then h.publishReset else pure true

/-- A reset clears what was accumulated. -/
def accumulated (r : StreamResult) (text : Bytes) : Bytes :=
  if r.reset then [] else text

/-- `FlattenDynamicOutput`, if it is asked for; on an error the data stays. -/
def flattened (data : Bytes) : Bytes :=
  match h.flatten with
  | some f => (f data).getD data
  | none => data

/-- A final frame, transformed if a transformation is set. -/
def publishReordered (r : StreamResult) : PublishM Bool := do
  let raw := if h.needsRaw then r.raw else []
  let reasoning := if h.needsRaw then r.reasoning else []
  match h.finalReorder with
  | none => h.publishFinal (h.flattened r.data) raw reasoning
  | some applyFinal =>
    match applyFinal (h.flattened r.data) with
    | .error msg =>
      let _ ← h.publishError msg "internal_error" []
      pure false
    | .ok data => h.publishFinal data raw reasoning

/-- `consumeStream`, with the accumulated raw text and reasoning. -/
def consumeStream : Bytes → Bytes → List StreamResult → PublishM Unit
  | _, _, [] => pure ()
  | raw, reasoning, r :: rs =>
    match r.kind with
    | .heartbeat => consumeStream raw reasoning rs
    | .error =>
      match r.error with
      | none => consumeStream raw reasoning rs
      | some msg => do
        let (code, details) := h.classifyStreamResultError r
        let _ ← h.publishError msg code details
        consumeStream raw reasoning rs
    | .metadata => do
      if ← h.publishResetOf r then
        if r.data ≠ [] then
          if ← h.publishMetadata r.data then
            consumeStream (accumulated r raw) (accumulated r reasoning) rs
          else pure ()
        else consumeStream (accumulated r raw) (accumulated r reasoning) rs
      else pure ()
    | .stream => do
      if ← h.publishResetOf r then
        -- a pure reset publishes no data
        if r.reset && r.data = [] && r.raw = [] && r.reasoning = [] then
          consumeStream (accumulated r raw) (accumulated r reasoning) rs
        else
          let raw := accumulated r raw ++ (if h.needsRaw then r.raw else [])
          let reasoning := accumulated r reasoning ++ (if h.needsRaw then r.reasoning else [])
          if ← h.publishData (h.flattened r.data) (if h.needsRaw then raw else [])
              (if h.needsRaw then reasoning else []) then
            consumeStream raw reasoning rs
          else pure ()
      else pure ()
    | .final => do
      if ← h.publishResetOf r then
        if ← h.publishReordered r then
          consumeStream (accumulated r raw) (accumulated r reasoning) rs
        else pure ()
      else pure ()

end Handler

/-! ### What is published -/

namespace StreamResult

variable (r : StreamResult)

/-- The frame is published behind a reset. -/
def clears : Bool :=
  r.reset && (r.kind = .metadata || r.kind = .stream || r.kind = .final)

/-- A stream frame that says nothing but to start over. -/
def isPureReset : Bool :=
  r.kind = .stream && r.reset && r.data = [] && r.raw = [] && r.reasoning = []

/-- Metadata and final frames carry data, and so do stream frames other than pure resets. -/
def Carries : Prop :=
  match r.kind with
  | .metadata | .final => r.data ≠ []
  | .stream => r.isPureReset = true ∨ r.data ≠ []
  | .error => r.error ≠ none
  | .heartbeat => True

end StreamResult

/-- The frames since the last one that began with a reset event, that one included. -/
def sinceReset (rs : List StreamResult) : List StreamResult :=
  rs.foldl (fun since r => if r.clears then [r] else since ++ [r]) []

/-- A text of the stream frames since the last reset. -/
def textSince (text : StreamResult → Bytes) (rs : List StreamResult) : Bytes :=
  ((sinceReset rs).filter (·.kind = .stream)).flatMap text

/-- The raw deltas of the stream frames since the last reset. -/
def rawSince (rs : List StreamResult) : Bytes :=
  textSince (·.raw) rs

/-- The reasoning deltas of the stream frames since the last reset. -/
def reasoningSince (rs : List StreamResult) : Bytes :=
  textSince (·.reasoning) rs

theorem textSince_append (text : StreamResult → Bytes) (rs r) :
    textSince text (rs ++ [r]) = (if r.clears then [] else textSince text rs) ++
        if r.kind = .stream then text r else [] := by
  have hsince : sinceReset (rs ++ [r]) = if r.clears then [r] else sinceReset rs ++ [r] := by
    simp [sinceReset]
  unfold textSince
  rw [hsince]
  split <;> by_cases hk : r.kind = .stream <;> simp [hk]

namespace Handler

variable (h : Handler)

/-- The events of a frame after some others: first a reset if it is marked, then the frame itself. -/
def eventsOf (before : List StreamResult) (r : StreamResult) : Option (List Event) :=
  let resets : List Event := if r.clears then [⟨sseEventReset, "\x7b\x7d", []⟩] else []
  match r.kind with
  | .metadata => some (resets ++ [⟨sseEventMetadata, r.data, []⟩])
  | .stream =>
    if r.isPureReset then some resets
    else
      (h.formatPayload r.data (rawSince (before ++ [r])) (reasoningSince (before ++ [r]))).map
        fun payload => resets ++ [⟨[], payload, []⟩]
  | .final =>
    (h.formatPayload r.data r.raw r.reasoning).map fun payload =>
      resets ++ [⟨sseEventFinal, payload, []⟩]
  | .error =>
    r.error.bind fun msg =>
      (h.sonic.errorEnvelope msg (h.classifyStreamResultError r).1
        (h.classifyStreamResultError r).2).map fun payload => [⟨sseEventError, payload, []⟩]
  | .heartbeat => some []

/-- The events of some frames after others. -/
def publishedFrom : List StreamResult → List StreamResult → Option (List Event)
  | _, [] => some []
  | before, r :: rs => do
    let evs ← h.eventsOf before r
    let rest ← publishedFrom (before ++ [r]) rs
    pure (evs ++ rest)

/-- The events that should be published. -/
def published (rs : List StreamResult) : Option (List Event) :=
  h.publishedFrom [] rs

/-- Nothing transforms the data, and the connection never fails. -/
structure Plain : Prop where
  flatten : h.flatten = none
  finalReorder : h.finalReorder = none
  conn : ∀ n, h.conn n

/-- The writes that make events. -/
def writesOf (evs : List Event) : List Write :=
  evs.map fun ev => .event ev.type ev.data

variable {h}

theorem run_writeEvent (hconn : ∀ n, h.conn n) (eventType payload s) :
    (h.writeEvent eventType payload).run s =
      (true, { s with writes := s.writes ++ [.event eventType payload], tries := s.tries + 1 }) := by
  rw [writeEvent, run_bind, run_get, if_pos (hconn _)]
  rfl

/-- What was written between two states. -/
def Wrote (s s' : Connection) (evs : List Event) : Prop :=
  s'.writes = s.writes ++ writesOf evs

theorem Wrote.trans {s s' s'' evs evs'} (h₁ : Wrote s s' evs)
    (h₂ : Wrote s' s'' evs') : Wrote s s'' (evs ++ evs') := by
  rw [Wrote, h₂, h₁, List.append_assoc, writesOf, writesOf, writesOf, map_append]

/-- The computation succeeds and writes the events. -/
def Publishes (m : PublishM Bool) (evs : List Event) : Prop :=
  ∀ s, (m.run s).1 = true ∧ Wrote s (m.run s).2 evs

theorem Publishes.then {m k evs evs'}
    (hm : Publishes m evs) (hk : ∀ s, Wrote s (k.run s).2 evs') (s) :
    Wrote s ((do if ← m then k else pure () : PublishM Unit).run s).2 (evs ++ evs') := by
  obtain ⟨htrue, hwrote⟩ := hm s
  rw [run_bind, htrue, if_pos rfl]
  exact hwrote.trans (hk _)

theorem publishes_writeEvent (hconn : ∀ n, h.conn n) (eventType payload) :
    Publishes (h.writeEvent eventType payload) [⟨eventType, payload, []⟩] := by
  intro s
  rw [run_writeEvent hconn]
  exact ⟨rfl, rfl⟩

theorem publishes_resetOf (hconn : ∀ n, h.conn n) (r) : Publishes (h.publishResetOf r)
      (if r.reset then [⟨sseEventReset, "\x7b\x7d", []⟩] else []) := by
  unfold publishResetOf
  split
  · exact publishes_writeEvent hconn _ _
  · exact fun s => ⟨rfl, (append_nil _).symm⟩

theorem publishes_payload (hconn : ∀ n, h.conn n) {eventType data raw reasoning payload}
    (hformat : h.formatPayload data raw reasoning = some payload) :
    Publishes (h.publishPayload eventType data raw reasoning) [⟨eventType, payload, []⟩] := by
  rw [publishPayload, hformat]
  exact publishes_writeEvent hconn _ _

theorem formatPayload_ite (data raw reasoning) :
    h.formatPayload data (if h.needsRaw then raw else []) (if h.needsRaw then reasoning else []) =
      h.formatPayload data raw reasoning := by
  unfold formatPayload
  cases h.needsRaw <;> rfl

theorem publishes_reordered (hp : h.Plain) {r payload}
    (hformat : h.formatPayload r.data r.raw r.reasoning = some payload) :
    Publishes (h.publishReordered r) [⟨sseEventFinal, payload, []⟩] := by
  rw [publishReordered, hp.finalReorder]
  refine publishes_payload hp.conn ?_
  rw [flattened, hp.flatten, formatPayload_ite, hformat]

/-- What `consumeStream` has accumulated, if the raw text is asked for. -/
def Accumulated (h : Handler) (before : List StreamResult) (raw reasoning : Bytes) : Prop :=
  h.needsRaw = true → raw = rawSince before ∧ reasoning = reasoningSince before

theorem Accumulated.append {before raw reasoning}
    (hacc : Accumulated h before raw reasoning) (r) : Accumulated h (before ++ [r])
      ((if r.clears then [] else raw) ++ if r.kind = .stream then r.raw else [])
      ((if r.clears then [] else reasoning) ++ if r.kind = .stream then r.reasoning else []) := by
  intro hneeds
  obtain ⟨rfl, rfl⟩ := hacc hneeds
  exact ⟨(textSince_append ..).symm, (textSince_append ..).symm⟩

theorem Accumulated.formatPayload {rs raw reasoning}
    (hacc : Accumulated h rs raw reasoning) (data) :
    h.formatPayload data (if h.needsRaw then raw else []) (if h.needsRaw then reasoning else []) =
      h.formatPayload data (rawSince rs) (reasoningSince rs) := by
  rw [formatPayload_ite]
  unfold Handler.formatPayload
  cases hneeds : h.needsRaw with
  | false => rfl
  | true =>
    obtain ⟨rfl, rfl⟩ := hacc hneeds
    rfl

theorem wrote_consumeStream (hp : h.Plain) {before rs raw reasoning}
    (hcarry : ∀ r ∈ rs, r.Carries) (hacc : Accumulated h before raw reasoning) {evs}
    (hevs : h.publishedFrom before rs = some evs) (s) :
    Wrote s ((h.consumeStream raw reasoning rs).run s).2 evs := by
  induction rs generalizing before raw reasoning evs s with
  | nil =>
    cases hevs
    exact (append_nil _).symm
  | cons r rs ih =>
    have hr := hcarry r (mem_cons_self ..)
    have ih := fun {raw reasoning} hacc {evs} => @ih (before ++ [r]) raw reasoning
      (fun r' hr' => hcarry r' (mem_cons_of_mem _ hr')) hacc evs
    have hacc := hacc.append r
    rw [publishedFrom] at hevs
    obtain ⟨first, hfirst, hevs⟩ := bind_eq_some_iff.mp hevs
    obtain ⟨rest, hrest, hevs⟩ := bind_eq_some_iff.mp hevs
    cases hevs
    unfold eventsOf at hfirst
    unfold Carries at hr
    have hreset := publishes_resetOf hp.conn r
    rw [consumeStream]
    cases hkind : r.kind with
    | heartbeat =>
      simp only [hkind, clears, reduceCtorEq, decide_false, Bool.or_false,
        Bool.and_false, Bool.false_eq_true, if_false, append_nil] at hacc
      rw [hkind] at hfirst
      cases hfirst
      exact ih hacc hrest s
    | error =>
      simp only [hkind, clears, reduceCtorEq, decide_false, Bool.or_false,
        Bool.and_false, Bool.false_eq_true, if_false, append_nil] at hacc
      rw [hkind] at hfirst
      obtain ⟨msg, hmsg, hfirst⟩ := bind_eq_some_iff.mp hfirst
      obtain ⟨payload, hpayload, rfl⟩ := map_eq_some_iff.mp hfirst
      simp only [hmsg, run_bind]
      have hwrote : Publishes (h.publishError msg (h.classifyStreamResultError r).1
          (h.classifyStreamResultError r).2) [⟨sseEventError, payload, []⟩] := by
        rw [publishError, hpayload]
        exact publishes_writeEvent hp.conn _ _
      exact (hwrote s).2.trans (ih hacc hrest _)
    | metadata =>
      simp only [hkind, clears, reduceCtorEq, decide_false, decide_true,
        Bool.true_or, Bool.and_true, if_false, append_nil] at hacc hfirst hr
      cases hfirst
      rw [List.append_assoc]
      refine hreset.then (fun s => ?_) s
      rw [if_pos hr]
      exact (publishes_writeEvent hp.conn _ _).then (fun s => ih hacc hrest s) s
    | final =>
      simp only [hkind, clears, reduceCtorEq, decide_false, decide_true,
        Bool.or_true, Bool.and_true, if_false, append_nil] at hacc hfirst
      obtain ⟨payload, hpayload, rfl⟩ := map_eq_some_iff.mp hfirst
      rw [List.append_assoc]
      refine hreset.then (fun s => ?_) s
      exact (publishes_reordered hp hpayload).then (fun s => ih hacc hrest s) s
    | stream =>
      simp only [hkind, clears, reduceCtorEq, decide_false, decide_true, Bool.or_true,
        Bool.true_or, Bool.and_true, if_true] at hacc hfirst
      have hpure : r.isPureReset =
          (r.reset && r.data = [] && r.raw = [] && r.reasoning = []) := by
        simp [isPureReset, hkind]
      rw [hpure] at hfirst
      by_cases hcond : (r.reset && r.data = [] && r.raw = [] && r.reasoning = []) = true
      · rw [if_pos hcond] at hfirst
        cases hfirst
        simp only [Bool.and_eq_true, decide_eq_true_eq] at hcond
        rw [hcond.1.2, hcond.2, append_nil, append_nil] at hacc
        refine hreset.then (fun s => ?_) s
        rw [if_pos (by simp [hcond])]
        exact ih hacc hrest s
      rw [if_neg hcond] at hfirst
      obtain ⟨payload, hpayload, rfl⟩ := map_eq_some_iff.mp hfirst
      have hacc' : Accumulated h (before ++ [r])
          (accumulated r raw ++ if h.needsRaw then r.raw else [])
          (accumulated r reasoning ++ if h.needsRaw then r.reasoning else []) := by
        intro hneeds
        rw [if_pos hneeds, if_pos hneeds]
        exact hacc hneeds
      have hformat := hacc'.formatPayload (h.flattened r.data)
      rw [flattened, hp.flatten, hpayload] at hformat
      rw [List.append_assoc]
      refine hreset.then (fun s => ?_) s
      rw [if_neg hcond, flattened, hp.flatten]
      exact (publishes_payload hp.conn hformat).then (fun s => ih hacc' hrest s) s

/-- The types of events that are published. -/
def eventTypes : List Bytes :=
  [[], sseEventFinal, sseEventReset, sseEventError, sseEventMetadata]

/-- An event as the publisher writes it. -/
structure Proper (ev : Event) : Prop where
  type : ev.type ∈ eventTypes
  id : ev.id = []
  data : ev.data ≠ []

theorem formatPayload_ne_nil {data raw reasoning payload} (hdata : data ≠ [])
    (hformat : h.formatPayload data raw reasoning = some payload) : payload ≠ [] := by
  unfold Handler.formatPayload at hformat
  split at hformat
  · cases hformat
    exact hdata
  · exact h.sonic.callWithRaw_ne_nil hformat

theorem proper_of_eventsOf {before r} (hr : r.Carries)
    {evs} (hevs : h.eventsOf before r = some evs) : ∀ ev ∈ evs, Proper ev := by
  have hresets : ∀ ev ∈ (if r.clears then [(⟨sseEventReset, "\x7b\x7d", []⟩ : Event)] else []),
      Proper ev := by
    intro ev hev
    split at hev
    · rw [mem_singleton.mp hev]
      exact ⟨by decide, rfl, by decide⟩
    · cases hev
  have happend : ∀ {type payload : Bytes}, type ∈ eventTypes → payload ≠ [] →
      ∀ ev ∈ (if r.clears then [(⟨sseEventReset, "\x7b\x7d", []⟩ : Event)] else []) ++
        [⟨type, payload, []⟩], Proper ev := by
    intro type payload htype hpayload ev hev
    rcases mem_append.mp hev with hev | hev
    · exact hresets ev hev
    · rw [mem_singleton.mp hev]
      exact ⟨htype, rfl, hpayload⟩
  unfold eventsOf at hevs
  unfold Carries at hr
  cases hkind : r.kind with
  | heartbeat =>
    rw [hkind] at hevs
    cases hevs
    simp
  | error =>
    rw [hkind] at hevs
    obtain ⟨msg, -, hevs⟩ := bind_eq_some_iff.mp hevs
    obtain ⟨payload, hpayload, rfl⟩ := map_eq_some_iff.mp hevs
    intro ev hev
    rw [mem_singleton.mp hev]
    have htype : sseEventError ∈ eventTypes := by decide
    exact ⟨htype, rfl, h.sonic.errorEnvelope_ne_nil hpayload⟩
  | metadata =>
    rw [hkind] at hevs hr
    cases hevs
    exact happend (by decide) hr
  | final =>
    rw [hkind] at hevs hr
    obtain ⟨payload, hpayload, rfl⟩ := map_eq_some_iff.mp hevs
    exact happend (by decide) (formatPayload_ne_nil hr hpayload)
  | stream =>
    rw [hkind] at hevs hr
    by_cases hpure : r.isPureReset
    · simp only [hpure, if_true] at hevs
      cases hevs
      exact hresets
    simp only [hpure, if_false, Bool.false_eq_true] at hevs
    obtain ⟨payload, hpayload, rfl⟩ := map_eq_some_iff.mp hevs
    exact happend (by decide) (formatPayload_ne_nil (hr.resolve_left hpure) hpayload)

theorem proper_of_publishedFrom {before rs} (hcarry : ∀ r ∈ rs, r.Carries)
    {evs} (hevs : h.publishedFrom before rs = some evs) : ∀ ev ∈ evs, Proper ev := by
  induction rs generalizing before evs with
  | nil =>
    cases hevs
    simp
  | cons r rs ih =>
    rw [publishedFrom] at hevs
    obtain ⟨first, hfirst, hevs⟩ := bind_eq_some_iff.mp hevs
    obtain ⟨rest, hrest, hevs⟩ := bind_eq_some_iff.mp hevs
    cases hevs
    intro ev hev
    rcases mem_append.mp hev with hev | hev
    · exact proper_of_eventsOf (hcarry r (mem_cons_self ..)) hfirst ev hev
    · exact ih (fun r hr => hcarry r (mem_cons_of_mem _ hr)) hrest ev hev

end Handler

end BamlRest.Serve
