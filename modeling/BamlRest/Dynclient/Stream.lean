import BamlRest.Serve.StreamWriter

/-!
# The stream of the in-process client

`dynclient/stream.go` turns the frames of a worker into events by itself, without the HTTP endpoint.
Both deliver the same stream: what `Next` returns is what `consumeStream` hands to its publisher.

* `Settings.received`: the events that the calls of `Next` return.
* `Settings.publications`: the calls that `consumeStream` makes of a publisher; by
  `sends_consumeStream` they are what `Serve.Handler.consumeStream` writes to the connection.
* `received_eq_published`: the events are those of the publications.
-/

namespace BamlRest.Dynclient

open List Serve

/-- What both sides are given: the functions of the output schema, `none` where they fail, the
order flag and the stream mode. -/
structure Settings (M : Type) where
  flattenDynamicOutput : Bytes → Option Bytes
  injectAbsentOptionals : Bytes → Option Bytes
  reorderDynamicOutputBySchema : Bytes → Option Bytes
  sortDynamicOutput : Bytes → Option Bytes
  unmarshalMetadata : Bytes → Option M
  preserveSchemaOrder : Bool
  needRaw : Bool

/-- `EventKind`. -/
inductive EventKind where
  | partial_
  | final
  | reset
  | metadata

/-- `Event`; a nil `Data` is `none`. -/
structure Event (M : Type) where
  kind : EventKind
  data : Option Bytes := none
  raw : Bytes := []
  reasoning : Bytes := []
  metadata : Option M := none

/-- `Stream`. The end is latched in `terminated`: an error, or `none` for `io.EOF`. -/
structure Stream (M : Type) where
  rawAccum : Bytes
  reasonAccum : Bytes
  pending : List (Event M)
  terminated : Option (Option Bytes)

variable {M : Type} (cfg : Settings M)

namespace Settings

/-- `flattenIfPresent`. -/
def flattenIfPresent (data : Bytes) : Option (Option Bytes) :=
  if data = [] then some none else (cfg.flattenDynamicOutput data).map some

/-- The transformations that `finalEvent` makes of a final frame. -/
def transformFinal (data : Bytes) : Option Bytes :=
  (cfg.injectAbsentOptionals data).bind fun injected =>
    if cfg.preserveSchemaOrder then cfg.reorderDynamicOutputBySchema injected
    else cfg.sortDynamicOutput injected

/-- `partialEvent`: the event, if any, and the accumulated texts. -/
def partialEvent (raw reasoning : Bytes) (r : StreamResult) :
    Option (Option (Event M) × Bytes × Bytes) :=
  (cfg.flattenIfPresent r.data).map fun flattened =>
    if flattened = none ∧ (cfg.needRaw = false ∨ r.raw = [] ∧ r.reasoning = []) then
      (none, raw, reasoning)
    else if cfg.needRaw then
      (some { kind := .partial_, data := flattened, raw := raw ++ r.raw,
              reasoning := reasoning ++ r.reasoning }, raw ++ r.raw, reasoning ++ r.reasoning)
    else (some { kind := .partial_, data := flattened }, raw, reasoning)

/-- `finalEvent`. -/
def finalEvent (r : StreamResult) : Option (Event M) :=
  (cfg.flattenIfPresent r.data).bind fun flattened =>
    (match flattened with
      | none => some none
      | some d => (cfg.transformFinal d).map some).map fun data =>
        if cfg.needRaw then { kind := .final, data, raw := r.raw, reasoning := r.reasoning }
        else { kind := .final, data }

/-- The payload of a frame and the accumulated texts after it, or the error. -/
def payload (raw reasoning : Bytes) (r : StreamResult) :
    Except Bytes (Option (Event M) × Bytes × Bytes) :=
  match r.kind with
  | .error => .error (r.error.getD [])
  | .heartbeat => .ok (none, raw, reasoning)
  | .stream =>
    match cfg.partialEvent raw reasoning r with
    | none => .error []
    | some p => .ok p
  | .final =>
    match cfg.finalEvent r with
    | none => .error []
    | some ev => .ok (some ev, raw, reasoning)
  | .metadata =>
    if r.data = [] then .ok (none, raw, reasoning)
    else
      match cfg.unmarshalMetadata r.data with
      | none => .error []
      | some md => .ok (some { kind := .metadata, metadata := some md }, raw, reasoning)

/-- `translate`: the event to return, the one to queue, and the stream. -/
def translate (s : Stream M) (r : StreamResult) :
    Except Bytes (Option (Event M) × Option (Event M) × Stream M) :=
  (cfg.payload (if r.reset then [] else s.rawAccum) (if r.reset then [] else s.reasonAccum) r).map
    fun (ev, raw, reasoning) =>
      let s := { s with rawAccum := raw, reasonAccum := reasoning }
      if r.reset then (some { kind := .reset }, ev, s) else (ev, none, s)

/-- The loop of `Next`: an event or the end, with the stream and the frames that are left. -/
def nextLoop (s : Stream M) : List StreamResult → Option (Event M) × Stream M × List StreamResult
  | [] => (none, { s with terminated := some none }, [])
  | r :: rs =>
    match cfg.translate s r with
    | .error err => (none, { s with terminated := some (some err) }, rs)
    | .ok (ev, extra, s) =>
      let s := { s with pending := s.pending ++ extra.toList }
      match ev with
      | some ev => (some ev, s, rs)
      | none => nextLoop s rs

/-- `Next`, when the context is not done. -/
def next (s : Stream M) (rs : List StreamResult) :
    Option (Event M) × Stream M × List StreamResult :=
  if s.terminated.isSome then (none, s, rs)
  else
    match s.pending with
    | ev :: pending => (some ev, { s with pending }, rs)
    | [] => cfg.nextLoop s rs

/-- The events that at most `n` calls of `Next` return before the end or the error. -/
def received : ℕ → Stream M → List StreamResult → List (Event M)
  | 0, _, _ => []
  | n + 1, s, rs =>
    match cfg.next s rs with
    | (some ev, s, rs) => ev :: received n s rs
    | (none, _, _) => []

/-! ### The endpoint -/

/-- A call of the `StreamPublisher`. -/
inductive Publication where
  | reset
  | metadata (data : Bytes)
  | data (data raw reasoning : Bytes)
  | final (data raw reasoning : Bytes)
  | error (msg : Bytes)

/-- `consumeStream` for a dynamic method, as the calls of a publisher that never fails. -/
def publications (raw reasoning : Bytes) : List StreamResult → List Publication
  | [] => []
  | r :: rs =>
    let resets := if r.reset then [Publication.reset] else []
    let raw' := if r.reset then [] else raw
    let reasoning' := if r.reset then [] else reasoning
    let flattened := (cfg.flattenDynamicOutput r.data).getD r.data
    match r.kind with
    | .heartbeat => publications raw reasoning rs
    | .error => (r.error.map .error).toList ++ publications raw reasoning rs
    | .metadata =>
      resets ++ (if r.data ≠ [] then [.metadata r.data] else []) ++ publications raw' reasoning' rs
    | .stream =>
      if r.reset && r.data = [] && r.raw = [] && r.reasoning = [] then
        resets ++ publications raw' reasoning' rs
      else if cfg.needRaw then
        resets ++ .data flattened (raw' ++ r.raw) (reasoning' ++ r.reasoning) ::
          publications (raw' ++ r.raw) (reasoning' ++ r.reasoning) rs
      else resets ++ .data flattened [] [] :: publications raw' reasoning' rs
    | .final =>
      match cfg.transformFinal flattened with
      | none => resets ++ [.error []]
      | some d =>
        resets ++ .final d (if cfg.needRaw then r.raw else [])
          (if cfg.needRaw then r.reasoning else []) :: publications raw' reasoning' rs

/-- The event of the client that a publication stands for. -/
def eventOf : Publication → Option (Event M)
  | .reset => some { kind := .reset }
  | .metadata data => some { kind := .metadata, metadata := cfg.unmarshalMetadata data }
  | .data data raw reasoning => some { kind := .partial_, data := some data, raw, reasoning }
  | .final data raw reasoning => some { kind := .final, data := some data, raw, reasoning }
  | .error _ => none

/-- A frame that carries what it should and can be translated. -/
structure Proper (r : StreamResult) : Prop where
  carries : r.Carries
  metadata : r.kind = .metadata → (cfg.unmarshalMetadata r.data).isSome
  flatten : r.kind = .stream ∨ r.kind = .final → r.data ≠ [] →
    (cfg.flattenDynamicOutput r.data).isSome
  transform : r.kind = .final → ∀ d ∈ cfg.flattenDynamicOutput r.data, (cfg.transformFinal d).isSome
  unmarked : r.kind = .error ∨ r.kind = .heartbeat → r.reset = false

/-- Error frames occur only last. -/
def ErrorLast : List StreamResult → Prop
  | [] => True
  | r :: rs => (r.kind = .error → rs = []) ∧ ErrorLast rs

/-! ### One frame -/

variable {cfg}

/-- The step: the client gets what is published, and both sides accumulate the same. -/
theorem payload_publications {r} (h : cfg.Proper r) (herr : r.kind ≠ .error)
    (raw reasoning) : ∃ ev raw₁ reasoning₁,
      cfg.payload (if r.reset then [] else raw) (if r.reset then [] else reasoning) r =
        .ok (ev, raw₁, reasoning₁) ∧
      ∀ rs, (cfg.publications raw reasoning (r :: rs)).filterMap cfg.eventOf =
        (if r.reset then [{ kind := .reset }] else []) ++ ev.toList ++
          (cfg.publications raw₁ reasoning₁ rs).filterMap cfg.eventOf := by
  have hcarry := h.carries
  rw [StreamResult.Carries] at hcarry
  have hresets : (if r.reset then [Publication.reset] else []).filterMap cfg.eventOf =
      if r.reset then [{ kind := .reset }] else [] := by
    cases r.reset <;> rfl
  generalize hraw' : (if r.reset then [] else raw) = raw'
  generalize hreasoning' : (if r.reset then [] else reasoning) = reasoning'
  unfold payload
  cases hkind : r.kind with
  | error => exact absurd hkind herr
  | heartbeat =>
    have hreset := h.unmarked (.inr hkind)
    simp only [hreset, Bool.false_eq_true, if_false] at hraw' hreasoning'
    subst hraw' hreasoning'
    exact ⟨none, raw, reasoning, rfl, fun rs => by simp [publications, hkind, hreset]⟩
  | metadata =>
    rw [hkind] at hcarry
    obtain ⟨md, hmd⟩ := Option.isSome_iff_exists.mp (h.metadata hkind)
    refine ⟨some { kind := .metadata, metadata := some md }, raw', reasoning', ?_, fun rs => ?_⟩
    · rw [if_neg hcarry, hmd]
    · simp [publications, hkind, hcarry, hresets, eventOf, hmd, hraw', hreasoning']
  | final =>
    rw [hkind] at hcarry
    obtain ⟨d, hd⟩ := Option.isSome_iff_exists.mp (h.flatten (.inr hkind) hcarry)
    obtain ⟨d', hd'⟩ := Option.isSome_iff_exists.mp (h.transform hkind d hd)
    refine ⟨some ⟨.final, some d', if cfg.needRaw then r.raw else [],
      if cfg.needRaw then r.reasoning else [], none⟩, raw', reasoning', ?_, fun rs => ?_⟩
    · cases hraw : cfg.needRaw <;> simp [finalEvent, flattenIfPresent, hcarry, hd, hd', hraw]
    · simp [publications, hkind, hd, hd', hresets, eventOf, hraw', hreasoning']
  | stream =>
    rw [hkind] at hcarry
    rcases hcarry with hpure | hdata
    · simp only [StreamResult.isPureReset, Bool.and_eq_true, decide_eq_true_eq] at hpure
      obtain ⟨⟨⟨⟨-, hreset⟩, hdata⟩, hraw⟩, hreasoning⟩ := hpure
      refine ⟨none, raw', reasoning', ?_, fun rs => ?_⟩
      · simp [partialEvent, flattenIfPresent, hdata, hraw, hreasoning]
      rw [hreset, if_pos rfl] at hraw' hreasoning'
      subst hraw' hreasoning'
      simp [publications, hkind, hreset, hdata, hraw, hreasoning, eventOf]
    obtain ⟨d, hd⟩ := Option.isSome_iff_exists.mp (h.flatten (.inl hkind) hdata)
    cases hraw : cfg.needRaw with
    | true =>
      refine ⟨some ⟨.partial_, some d, raw' ++ r.raw, reasoning' ++ r.reasoning, none⟩,
        raw' ++ r.raw, reasoning' ++ r.reasoning, ?_, fun rs => ?_⟩
      · simp [partialEvent, flattenIfPresent, hdata, hd, hraw]
      · simp [publications, hkind, hdata, hraw, hd, hresets, eventOf, hraw', hreasoning']
    | false =>
      refine ⟨some { kind := .partial_, data := some d }, raw', reasoning', ?_, fun rs => ?_⟩
      · simp [partialEvent, flattenIfPresent, hdata, hd, hraw]
      · simp [publications, hkind, hdata, hraw, hd, hresets, eventOf, hraw', hreasoning']

/-! ### The run -/

theorem received_publications (rs) (hproper : ∀ r ∈ rs, cfg.Proper r)
    (hlast : ErrorLast rs) (raw reasoning) {n : ℕ} (hn : 2 * rs.length < n) :
    cfg.received n ⟨raw, reasoning, [], none⟩ rs =
      (cfg.publications raw reasoning rs).filterMap cfg.eventOf := by
  induction rs generalizing raw reasoning n with
  | nil =>
    obtain ⟨n, rfl⟩ : ∃ m, n = m + 1 := ⟨n - 1, by omega⟩
    rfl
  | cons r rs ih =>
    obtain ⟨n, rfl⟩ : ∃ m, n = m + 1 := ⟨n - 1, by omega⟩
    have hr := hproper r mem_cons_self
    have ih := @ih (fun r hr => hproper r (mem_cons_of_mem _ hr)) hlast.2
    rw [length_cons] at hn
    by_cases herr : r.kind = .error
    · -- the error ends the stream on both sides
      obtain rfl := hlast.1 herr
      cases hmsg : r.error <;>
        simp [received, next, nextLoop, translate, payload, publications, herr, hmsg, eventOf,
          Except.map]
    obtain ⟨ev, raw₁, reasoning₁, hpayload, hpub⟩ := payload_publications hr herr raw reasoning
    rw [hpub]
    cases hreset : r.reset with
    | true =>
      have hnext : cfg.received (n + 1) ⟨raw, reasoning, [], none⟩ (r :: rs) =
          { kind := .reset } :: cfg.received n ⟨raw₁, reasoning₁, ev.toList, none⟩ rs := by
        simp only [hreset, if_true] at hpayload
        simp [received, next, nextLoop, translate, hpayload, hreset, Except.map]
      rw [hnext]
      cases ev with
      | none => simpa using ih raw₁ reasoning₁ (by omega)
      | some ev =>
        obtain ⟨n, rfl⟩ : ∃ m, n = m + 1 := ⟨n - 1, by omega⟩
        have hrest := ih raw₁ reasoning₁ (n := n) (by omega)
        simp [received, next, hrest]
    | false =>
      simp only [hreset, Bool.false_eq_true, if_false] at hpayload
      cases ev with
      | none =>
        have hskip : cfg.received (n + 1) ⟨raw, reasoning, [], none⟩ (r :: rs) =
            cfg.received (n + 1) ⟨raw₁, reasoning₁, [], none⟩ rs := by
          simp [received, next, nextLoop, translate, hpayload, hreset, Except.map]
        rw [hskip]
        simpa using ih raw₁ reasoning₁ (n := n + 1) (by omega)
      | some ev =>
        have hrest := ih raw₁ reasoning₁ (n := n) (by omega)
        simp [received, next, nextLoop, translate, hpayload, hreset, Except.map, hrest]

end Settings

/-! ### The endpoint's publisher -/

section

variable {S : Type} {cfg}

/-- The functions of `bamlutils` over a schema; a nil schema is `none`. -/
structure SchemaFunctions (S : Type) where
  injectAbsentOptionals : Bytes → Option S → Except Bytes Bytes
  reorderDynamicOutputBySchema : Bytes → Option S → Except Bytes Bytes
  sortDynamicOutput : Bytes → Except Bytes Bytes

/-- `dynamicFinalReorder`. -/
structure DynamicFinalReorder (S : Type) where
  schema : Option S
  enabled : Bool

/-- `applyFinal`. Unlike `finalEvent` it may have no receiver, and no schema to order by. -/
def applyFinal (f : SchemaFunctions S) (d : Option (DynamicFinalReorder S)) (data : Bytes) :
    Except Bytes Bytes :=
  match d with
  | none => .ok data
  | some d => do
    let injected ← f.injectAbsentOptionals data d.schema
    if d.enabled then
      match d.schema with
      | none => .ok injected
      | some s => f.reorderDynamicOutputBySchema injected (some s)
    else f.sortDynamicOutput injected

/-- The client and a dynamic handler of the endpoint are for one schema and one mode, and nothing
keeps the handler from writing. -/
structure Settings.Serves (cfg : Settings M) (f : SchemaFunctions S) (s : S) (h : Handler) : Prop where
  inject : ∀ d, (f.injectAbsentOptionals d (some s)).toOption = cfg.injectAbsentOptionals d
  reorder : ∀ d, (f.reorderDynamicOutputBySchema d (some s)).toOption =
    cfg.reorderDynamicOutputBySchema d
  sort : ∀ d, (f.sortDynamicOutput d).toOption = cfg.sortDynamicOutput d
  flatten : h.flatten = some cfg.flattenDynamicOutput
  finalReorder : h.finalReorder = some (applyFinal f (some ⟨some s, cfg.preserveSchemaOrder⟩))
  needsRaw : h.needsRaw = cfg.needRaw
  conn : ∀ n, h.conn n
  formats : ∀ data raw reasoning, (h.formatPayload data raw reasoning).isSome

/-- On a schema, both make the same of a final frame. -/
theorem Settings.Serves.applyFinal {f : SchemaFunctions S} {s h} (hs : cfg.Serves f s h) (data) :
    (applyFinal f (some ⟨some s, cfg.preserveSchemaOrder⟩) data).toOption =
      cfg.transformFinal data := by
  rw [transformFinal, ← hs.inject]
  cases hinj : f.injectAbsentOptionals data (some s) with
  | error => simp [Dynclient.applyFinal, hinj, bind, Except.bind, Except.toOption]
  | ok d =>
    simp only [Dynclient.applyFinal, hinj, bind, Except.bind, Except.toOption, Option.bind]
    cases cfg.preserveSchemaOrder
    · exact hs.sort d
    · exact hs.reorder d

theorem Settings.Serves.flattened {f : SchemaFunctions S} {s h} (hs : cfg.Serves f s h) (data) :
    h.flattened data = (cfg.flattenDynamicOutput data).getD data := by
  rw [Handler.flattened, hs.flatten]

/-- The event that a publisher writes for a publication. -/
inductive Delivers (h : Handler) : Settings.Publication → Sse.Event → Prop where
  | reset : Delivers h .reset ⟨sseEventReset, "\x7b\x7d", []⟩
  | metadata {data} : Delivers h (.metadata data) ⟨sseEventMetadata, data, []⟩
  | data {data raw reasoning p} (hp : h.formatPayload data raw reasoning = some p) :
    Delivers h (.data data raw reasoning) ⟨[], p, []⟩
  | final {data raw reasoning p} (hp : h.formatPayload data raw reasoning = some p) :
    Delivers h (.final data raw reasoning) ⟨sseEventFinal, p, []⟩
  | error {msg p} : Delivers h (.error msg) ⟨sseEventError, p, []⟩

/-- The publications that are written between two states of the connection. -/
def Sends (h : Handler) (c c' : Connection) (ps : List Settings.Publication) : Prop :=
  ∃ evs, Forall₂ (Delivers h) ps evs ∧ Handler.Wrote c c' evs

variable {h : Handler}

theorem Sends.nil (c) : Sends h c c [] :=
  ⟨[], .nil, (append_nil _).symm⟩

theorem Sends.of_publishes {m : PublishM Bool} {p ev} (hm : Handler.Publishes m [ev])
    (hp : Delivers h p ev) (c) : (m.run c).1 = true ∧ Sends h c (m.run c).2 [p] :=
  ⟨(hm c).1, [ev], .cons hp .nil, (hm c).2⟩

theorem Sends.trans {c c' c'' ps ps'} (h₁ : Sends h c c' ps) (h₂ : Sends h c' c'' ps') :
    Sends h c c'' (ps ++ ps') := by
  obtain ⟨evs, hps, hw⟩ := h₁
  obtain ⟨evs', hps', hw'⟩ := h₂
  exact ⟨evs ++ evs', rel_append hps hps', hw.trans hw'⟩

theorem Sends.then {m : PublishM Bool} {k : PublishM Unit} {ps ps'}
    (hm : ∀ c, (m.run c).1 = true ∧ Sends h c (m.run c).2 ps)
    (hk : ∀ c, Sends h c (k.run c).2 ps') (c) :
    Sends h c ((do if ← m then k else pure () : PublishM Unit).run c).2 (ps ++ ps') := by
  rw [Effects.run_bind, (hm c).1, if_pos rfl]
  exact (hm c).2.trans (hk _)

theorem sends_error (hconn : ∀ n, h.conn n) (msg code details msg' c) :
    Sends h c ((h.publishError msg code details).run c).2 [.error msg'] := by
  unfold Handler.publishError
  cases h.sonic.errorEnvelope msg code details
  all_goals exact (Sends.of_publishes (Handler.publishes_writeEvent hconn _ _) .error c).2

theorem sends_payload {f : SchemaFunctions S} {s} (hs : cfg.Serves f s h) {eventType p} {data raw reasoning}
    (hp : ∀ x, h.formatPayload data raw reasoning = some x → Delivers h p ⟨eventType, x, []⟩) (c) :
    ((h.publishPayload eventType data raw reasoning).run c).1 = true ∧
      Sends h c ((h.publishPayload eventType data raw reasoning).run c).2 [p] := by
  obtain ⟨x, hx⟩ := Option.isSome_iff_exists.mp (hs.formats data raw reasoning)
  exact Sends.of_publishes (Handler.publishes_payload hs.conn hx) (hp x hx) c

theorem sends_resetOf (hconn : ∀ n, h.conn n) (r : StreamResult) (c) :
    ((h.publishResetOf r).run c).1 = true ∧
      Sends h c ((h.publishResetOf r).run c).2 (if r.reset then [.reset] else []) := by
  unfold Handler.publishResetOf
  split
  · exact Sends.of_publishes (Handler.publishes_writeEvent hconn _ _) .reset c
  · exact ⟨rfl, .nil c⟩

theorem sends_reordered {f : SchemaFunctions S} {s} (hs : cfg.Serves f s h) (r : StreamResult) (c) :
    match cfg.transformFinal ((cfg.flattenDynamicOutput r.data).getD r.data) with
    | none => ((h.publishReordered r).run c).1 = false ∧
      Sends h c ((h.publishReordered r).run c).2 [.error []]
    | some d => ((h.publishReordered r).run c).1 = true ∧
      Sends h c ((h.publishReordered r).run c).2 [.final d (if cfg.needRaw then r.raw else [])
        (if cfg.needRaw then r.reasoning else [])] := by
  unfold Handler.publishReordered
  rw [← hs.applyFinal, hs.finalReorder, hs.needsRaw, hs.flattened]
  dsimp only
  cases applyFinal f (some ⟨some s, cfg.preserveSchemaOrder⟩)
      ((cfg.flattenDynamicOutput r.data).getD r.data) with
  | error msg => exact ⟨rfl, sends_error hs.conn _ _ _ _ c⟩
  | ok d => exact sends_payload hs (fun x => .final) c

/-- `consumeStream` makes its publisher write the publications, in their order. -/
theorem sends_consumeStream {f : SchemaFunctions S} {s} (hs : cfg.Serves f s h) (rs raw reasoning c) :
    Sends h c ((h.consumeStream raw reasoning rs).run c).2 (cfg.publications raw reasoning rs) := by
  induction rs generalizing raw reasoning c with
  | nil => exact .nil c
  | cons r rs ih =>
    have hreset := sends_resetOf hs.conn r
    rw [Handler.consumeStream, Settings.publications]
    cases hkind : r.kind with
    | heartbeat => exact ih raw reasoning c
    | error =>
      cases hmsg : r.error with
      | none => exact ih raw reasoning c
      | some msg => exact (sends_error hs.conn _ _ _ _ c).trans (ih raw reasoning _)
    | metadata =>
      dsimp only
      rw [append_assoc]
      refine Sends.then hreset (fun c => ?_) c
      split
      · exact Sends.then (Sends.of_publishes (Handler.publishes_writeEvent hs.conn _ _) .metadata)
          (ih _ _) c
      · exact ih _ _ c
    | stream =>
      by_cases hpure : (r.reset && r.data = [] && r.raw = [] && r.reasoning = []) = true
      · simp only [hpure, if_true]
        exact Sends.then hreset (ih _ _) c
      simp only [hpure]
      rw [← hs.flattened, hs.needsRaw]
      cases cfg.needRaw with
      | true =>
        refine Sends.then hreset (fun c => ?_) c
        exact Sends.then (sends_payload hs fun x => .data) (ih _ _) c
      | false =>
        refine Sends.then hreset (fun c => ?_) c
        simp only [Bool.false_eq_true, if_false, append_nil]
        exact Sends.then (sends_payload hs fun x => .data) (ih _ _) c
    | final =>
      have hfinal := sends_reordered hs r
      dsimp only
      cases ht : cfg.transformFinal ((cfg.flattenDynamicOutput r.data).getD r.data) with
      | none =>
        rw [ht] at hfinal
        refine Sends.then hreset (fun c => ?_) c
        rw [Effects.run_bind, (hfinal c).1]
        exact (hfinal c).2
      | some d =>
        rw [ht] at hfinal
        refine Sends.then hreset (fun c => ?_) c
        exact Sends.then hfinal (ih _ _) c

end

/-- **The client and the endpoint deliver the same stream.** -/
theorem received_eq_published (cfg : Settings M) (rs : List StreamResult)
    (hproper : ∀ r ∈ rs, cfg.Proper r) (hlast : Settings.ErrorLast rs) {n : ℕ}
    (hn : 2 * rs.length < n) :
    cfg.received n ⟨[], [], [], none⟩ rs = (cfg.publications [] [] rs).filterMap cfg.eventOf :=
  Settings.received_publications rs hproper hlast [] [] hn

/-- Settings whose transformations change nothing. -/
def plain : Settings Bytes := ⟨some, some, some, some, some, true, true⟩

/-- A run that starts over after its first data frame. -/
def restarted : List StreamResult :=
  [⟨.stream, "1", "a", [], none, [], false, [], []⟩, ⟨.stream, [], [], [], none, [], true, [], []⟩,
    ⟨.final, "2", "b", [], none, [], false, [], []⟩]

theorem received_eq_published_restarted :
    (plain.received 7 ⟨[], [], [], none⟩ restarted).length = 3 ∧
    plain.received 7 ⟨[], [], [], none⟩ restarted =
      (plain.publications [] [] restarted).filterMap plain.eventOf := by
  refine ⟨by decide, received_eq_published plain restarted (fun r hr => ?_) ?_ (by decide)⟩
  · simp only [restarted, mem_cons, not_mem_nil, or_false] at hr
    rcases hr with rfl | rfl | rfl <;>
      exact ⟨by simp only [StreamResult.Carries]; decide, fun _ => rfl, fun _ _ => rfl,
        fun _ _ _ => rfl, by simp⟩
  · simp [restarted, Settings.ErrorLast]

end BamlRest.Dynclient
