import BamlRest.Bamlutils.Retry
import BamlRest.Pool.Errors

/-!
# Streams through the worker pool

`CallStream` forwards the results of a worker, and starts over with another worker when the first
one fails.

* `forward`, `callStream`: one attempt, and the retry loop.
* `callStream_protocol`: what the client gets.
-/

namespace BamlRest.Pool

open List Bool

/-! ## Frames and attempts -/

/-- `StreamResultKind`; the number comes from the worker. -/
inductive Kind where
  | stream
  | final
  | error
  | heartbeat
  | metadata
  | other (n : ℕ)
  deriving DecidableEq

/-- A result of a worker, as the pool sees it. -/
structure StreamResult where
  kind : Kind
  data : Bytes
  raw : Bytes
  reasoning : Bytes
  error : Option Error
  stacktrace : Bytes
  reset : Bool
  errorCode : Bytes
  errorDetails : Option Bytes
  deriving DecidableEq

open StreamResult

/-- The stream ends with it. -/
def StreamResult.isTerminal (r : StreamResult) : Bool :=
  r.kind = .final || r.kind = .error

/-- The result tells the client to start over. -/
@[simps kind data reset]
def StreamResult.mark (r : StreamResult) : StreamResult :=
  { r with reset := true }

/-- The result without its mark. -/
def StreamResult.content (r : StreamResult) : StreamResult :=
  { r with reset := false }

@[simp] theorem StreamResult.content_mark (r : StreamResult) : r.mark.content = r.content := rfl

@[simp] theorem StreamResult.isTerminal_content (r : StreamResult) :
    r.content.isTerminal = r.isTerminal := rfl

/-- `workerHandle`, with the lines of its standard error that are kept. -/
structure Handle where
  id : ℕ
  stderrTail : Option (List Bytes)

/-- The answer of the worker to a call. `attemptCancelled` is set when the hung detection has
cancelled the attempt. -/
inductive Answer where
  | failed (err : Error) (attemptCancelled : Bool)
  | results (results : List StreamResult)

/-- What happens in an attempt: whether a retry finds a worker, which one, and its answer. -/
structure Attempt where
  noWorker : Option Error
  handle : Handle
  answer : Answer

/-- The four ways to call a method. -/
inductive StreamMode where
  | call
  | stream
  | callWithRaw
  | streamWithRaw
  deriving DecidableEq

def StreamMode.needsPartials : StreamMode → Bool
  | .stream | .streamWithRaw => true
  | .call | .callWithRaw => false

/-- The settings of the pool that `CallStream` reads. -/
structure Config where
  maxRetries : Int64
  disableStreamInfrastructureRetries : Bool

/-- The JSON library on the metadata: the phase of an event, and the event with another attempt
number. -/
structure MetadataCodec where
  phase : Bytes → Bytes
  rewrite : Bytes → Int64 → Option Bytes
  phase_rewrite : ∀ data n data', rewrite data n = some data' →
    (phase data' = "outcome" ↔ phase data = "outcome")

variable (codec : MetadataCodec)

/-- `isPlannedMetadata`: metadata that is sent before the worker has done anything. -/
def isPlannedMetadata (r : StreamResult) : Bool :=
  r.kind = .metadata && codec.phase r.data ≠ "outcome"

/-- Stamp the attempt number onto a metadata event, if it can be decoded. -/
def stamp (currentAttempt : Int64) (r : StreamResult) : StreamResult :=
  if r.kind = .metadata && !r.data.isEmpty then
    match codec.rewrite r.data currentAttempt with
    | some data => { r with data := data }
    | none => r
  else r

/-! ## One attempt -/

/-- How an attempt ended. -/
inductive Ending where
  | terminal
  | retryable (err : Option Error)
  | closed

/-- What the loop over the results of an attempt has sent. -/
structure Forwarded where
  sent : List StreamResult
  sentAnyResults : Bool
  ending : Ending

def forward (needsReset suppressStreamRetries : Bool) (currentAttempt : Int64) :
    Bool → Bool → List StreamResult → Forwarded
  | _, sentAnyResults, [] => ⟨[], sentAnyResults, .closed⟩
  | injectedReset, sentAnyResults, r :: results =>
    let planned := isPlannedMetadata codec r
    if r.kind = .heartbeat then
      forward needsReset suppressStreamRetries currentAttempt injectedReset sentAnyResults results
    else
      let r := stamp codec currentAttempt r
      if r.kind = .error && isRetryableWorkerError r.error then
        ⟨[], sentAnyResults, .retryable r.error⟩
      else
        let mark := needsReset && !injectedReset && !planned && !suppressStreamRetries
        let r := if mark then r.mark else r
        let sentAnyResults := if planned then sentAnyResults else true
        if r.isTerminal then ⟨[r], sentAnyResults, .terminal⟩
        else
          let f := forward needsReset suppressStreamRetries currentAttempt (injectedReset || mark)
            sentAnyResults results
          { f with sent := r :: f.sent }

/-! ## The attempts -/

/-- `sendStreamError`. -/
def streamError (err : Error) : StreamResult where
  kind := .error
  data := []
  raw := []
  reasoning := []
  error := some err
  stacktrace := []
  reset := false
  errorCode := []
  errorDetails := none

def withWorkerStderr (err : Error) (h : Option Handle) : Error :=
  match h with
  | none => err
  | some h =>
    match h.stderrTail with
    | none => err
    | some lines =>
      let tail := (bytes "\n").intercalate lines
      if tail = [] then err
      else
        errorf (err.text ++ "\n--- worker " ++ bytes (toString h.id) ++
          " stderr (last " ++ bytes (toString lines.length) ++ " lines) ---\n" ++ tail)
          [err]

/-- What the retry loop keeps. -/
structure RetryState where
  attempt : Int64
  currentAttempt : Int64
  lastFailed : Option Handle
  lastRetryableErr : Option Error
  sentAnyResults : Bool

def RetryState.init : RetryState := ⟨0, 0, none, none, false⟩

def RetryState.noWorkerError (st : RetryState) (err : Error) : Error :=
  withWorkerStderr
    (errorf (errPoolRetriesExhausted.text ++ ": retry failed, no workers available: " ++
      err.text) [errPoolRetriesExhausted, err]) st.lastFailed

def RetryState.exhaustedError (st : RetryState) : Error :=
  withWorkerStderr
    (match st.lastRetryableErr with
    | some err => errorf (errPoolRetriesExhausted.text ++ ": " ++ err.text)
        [errPoolRetriesExhausted, err]
    | none => errorf (errPoolRetriesExhausted.text ++ " (no terminal stream frame)")
        [errPoolRetriesExhausted])
    st.lastFailed

def RetryState.retry (st : RetryState) (handle : Handle) : RetryState :=
  { st with attempt := st.attempt + 1, lastFailed := some handle }

/-- The loop over the attempts: the frames that are sent in each of them, and at the end. -/
def retryLoop (maxStreamRetries : Int64) (suppressStreamRetries : Bool) :
    RetryState → List Attempt → Option (List (List StreamResult))
  | st, [] =>
    if st.attempt ≤ maxStreamRetries then none else some [[streamError st.exhaustedError]]
  | st, b :: bs =>
    if st.attempt ≤ maxStreamRetries then
      let retrying := 0 < st.attempt
      let st := if retrying then { st with currentAttempt := st.currentAttempt + 1 } else st
      match if retrying then b.noWorker else none with
      | some err => some [[streamError (st.noWorkerError err)]]
      | none =>
        match b.answer with
        | .failed err attemptCancelled =>
          if isRetryableWorkerError (some err) || attemptCancelled then
            (retryLoop maxStreamRetries suppressStreamRetries
              { st.retry b.handle with lastRetryableErr := some err } bs).map ([] :: ·)
          else some [[streamError err]]
        | .results results =>
          let f := forward codec st.sentAnyResults suppressStreamRetries st.currentAttempt false
            st.sentAnyResults results
          let st := { st with sentAnyResults := f.sentAnyResults }
          match f.ending with
          | .terminal => some [f.sent]
          | .retryable err =>
            (retryLoop maxStreamRetries suppressStreamRetries
              { st.retry b.handle with lastRetryableErr := err } bs).map (f.sent :: ·)
          | .closed =>
            (retryLoop maxStreamRetries suppressStreamRetries (st.retry b.handle) bs).map
              (f.sent :: ·)
    else some [[streamError st.exhaustedError]]

def Config.suppressStreamRetries (cfg : Config) (mode : StreamMode) : Bool :=
  cfg.disableStreamInfrastructureRetries && mode.needsPartials

def Config.maxStreamRetries (cfg : Config) (mode : StreamMode) : Int64 :=
  if cfg.suppressStreamRetries mode then 0 else cfg.maxRetries

/-- `CallStream`, from the first worker on: the frames that the channel delivers before it closes,
by attempt. -/
def callStream (cfg : Config) (mode : StreamMode) (bs : List Attempt) :
    Option (List (List StreamResult)) :=
  retryLoop codec (cfg.maxStreamRetries mode) (cfg.suppressStreamRetries mode) .init bs

/-! ## What an attempt sends -/

/-- The frames of an attempt that reach the client, as the worker marked them. -/
def delivered (currentAttempt : Int64) : List StreamResult → List StreamResult
  | [] => []
  | r :: results =>
    if r.kind = .heartbeat then delivered currentAttempt results
    else
      let r := stamp codec currentAttempt r
      if r.kind = .error && isRetryableWorkerError r.error then []
      else if r.isTerminal then [r]
      else r :: delivered currentAttempt results

def endingOf (currentAttempt : Int64) : List StreamResult → Ending
  | [] => .closed
  | r :: results =>
    if r.kind = .heartbeat then endingOf currentAttempt results
    else
      let r := stamp codec currentAttempt r
      if r.kind = .error && isRetryableWorkerError r.error then .retryable r.error
      else if r.isTerminal then .terminal
      else endingOf currentAttempt results

def markFirst : List StreamResult → List StreamResult
  | [] => []
  | r :: rest =>
    if isPlannedMetadata codec r then r :: markFirst rest else r.mark :: rest

variable {codec}

@[simp] theorem kind_stamp (n r) : (stamp codec n r).kind = r.kind := by
  unfold stamp
  split
  · split <;> rfl
  · rfl

@[simp] theorem reset_stamp (n r) : (stamp codec n r).reset = r.reset := by
  unfold stamp
  split
  · split <;> rfl
  · rfl

variable (codec) in
@[simp] theorem isPlannedMetadata_stamp (n r) :
    isPlannedMetadata codec (stamp codec n r) = isPlannedMetadata codec r := by
  unfold stamp
  split
  · split
    · rename_i data hdata
      have := codec.phase_rewrite _ _ _ hdata
      simp only [isPlannedMetadata, ne_eq, this]
    · rfl
  · rfl

@[simp] theorem isTerminal_mark (r : StreamResult) : r.mark.isTerminal = r.isTerminal := rfl

theorem isPlannedMetadata_content (r) :
    isPlannedMetadata codec r.content = isPlannedMetadata codec r := rfl

@[simp] theorem isPlannedMetadata_mark (r) :
    isPlannedMetadata codec r.mark = isPlannedMetadata codec r := rfl

variable {r : StreamResult}

theorem not_planned_of_isTerminal (h : r.isTerminal) : isPlannedMetadata codec r = false := by
  have hkind : r.kind ≠ .metadata := by
    rintro hkind
    simp [isTerminal, hkind] at h
  simp [isPlannedMetadata, hkind]

theorem forward_eq (needsReset suppress injected sentAny : Bool) (n : Int64)
    (results : List StreamResult) : forward codec needsReset suppress n injected sentAny results =
      ⟨if needsReset && !injected && !suppress then markFirst codec (delivered codec n results)
        else delivered codec n results,
        sentAny || (delivered codec n results).any fun r => !isPlannedMetadata codec r,
        endingOf codec n results⟩ := by
  induction results generalizing injected sentAny with
  | nil => simp [forward, delivered, markFirst, endingOf]
  | cons r results ih =>
    rw [forward, delivered, endingOf]
    by_cases hbeat : r.kind = .heartbeat
    · simp only [hbeat, if_true]
      exact ih injected sentAny
    simp only [hbeat, if_false]
    by_cases herr : (r.kind = .error && isRetryableWorkerError (stamp codec n r).error) = true
    · simp [herr, markFirst]
    have hplanned := isPlannedMetadata_stamp codec n r
    simp only [kind_stamp, herr, Bool.false_eq_true, if_false]
    cases hp : isPlannedMetadata codec r with
    | true =>
      have hterm : (stamp codec n r).isTerminal = false := by
        by_contra hterm
        rw [not_planned_of_isTerminal (by simpa using hterm)] at hplanned
        simp [hp] at hplanned
      simp only [Bool.not_true, Bool.and_false, Bool.false_and, Bool.false_eq_true, if_false,
        hterm, ih, Bool.or_false, if_true, markFirst, hplanned, hp, any_cons,
        Bool.false_or]
      split <;> rfl
    | false =>
      simp only [Bool.not_false, Bool.and_true, Bool.false_eq_true, if_false, ih]
      cases hm : (needsReset && !injected && !suppress) with
      | true =>
        cases ht : (stamp codec n r).isTerminal <;> simp [ht, markFirst, hplanned, hp]
      | false =>
        cases ht : (stamp codec n r).isTerminal <;> simp [ht, hm, hplanned, hp]

/-! ### The end of an attempt -/

/-- The only terminal result is the last one. -/
def EndsOnce (l : List StreamResult) : Prop :=
  ∃ l' last, l = l' ++ [last] ∧ last.isTerminal ∧ ∀ r ∈ l', r.isTerminal = false

theorem endsOnce_streamError (err) : EndsOnce [streamError err] :=
  ⟨[], streamError err, rfl, rfl, fun _ h => by cases h⟩

variable {l' l : List StreamResult}

theorem EndsOnce.append (hl : ∀ r ∈ l, r.isTerminal = false)
    (h : EndsOnce l') : EndsOnce (l ++ l') := by
  obtain ⟨init, last, rfl, hlast, hinit⟩ := h
  refine ⟨l ++ init, last, by rw [List.append_assoc], hlast, fun r hr => ?_⟩
  rcases mem_append.mp hr with hr | hr
  · exact hl r hr
  · exact hinit r hr

/-- An attempt that ends with a terminal frame sends one, and others send none. -/
def Ending.Describes : Ending → List StreamResult → Prop
  | .terminal, l => EndsOnce l
  | .retryable _, l | .closed, l => ∀ r ∈ l, r.isTerminal = false

theorem Ending.Describes.cons {e : Ending} {r : StreamResult} {l : List StreamResult}
    (h : e.Describes l) (hr : r.isTerminal = false) : e.Describes (r :: l) := by
  cases e with
  | terminal => exact EndsOnce.append (l := [r]) (by simpa using hr) h
  | retryable | closed => exact forall_mem_cons.mpr ⟨hr, h⟩

variable (codec) in
theorem describes_delivered (n results) :
    (endingOf codec n results).Describes (delivered codec n results) := by
  induction results with
  | nil => exact fun _ h => by cases h
  | cons r results ih =>
    rw [endingOf, delivered]
    by_cases hbeat : r.kind = .heartbeat
    · rwa [if_pos hbeat, if_pos hbeat]
    rw [if_neg hbeat, if_neg hbeat]
    dsimp only
    by_cases herr : ((stamp codec n r).kind = .error &&
        isRetryableWorkerError (stamp codec n r).error) = true
    · rw [if_pos herr, if_pos herr]
      exact fun _ h => by cases h
    rw [if_neg herr, if_neg herr]
    cases ht : (stamp codec n r).isTerminal with
    | true => exact ⟨[], stamp codec n r, rfl, ht, fun _ h => by cases h⟩
    | false => exact ih.cons ht

theorem EndsOnce.congr (h : EndsOnce l)
    (heq : l.map isTerminal = l'.map isTerminal) : EndsOnce l' := by
  obtain ⟨init, last, rfl, hlast, hinit⟩ := h
  rw [map_append, eq_comm, map_eq_append_iff] at heq
  obtain ⟨init', rest, rfl, hinit', hrest⟩ := heq
  obtain ⟨last', rfl, hlast'⟩ := map_eq_singleton_iff.mp hrest
  refine ⟨init', last', rfl, hlast'.trans hlast, fun r hr => ?_⟩
  have hmem : r.isTerminal ∈ init.map isTerminal :=
    hinit' ▸ mem_map_of_mem hr
  obtain ⟨r', hr', heq⟩ := mem_map.mp hmem
  exact heq.symm.trans (hinit r' hr')

variable (codec) in
theorem markFirst_cases (l) :
    (∃ l₁ r l₂, l = l₁ ++ r :: l₂ ∧ (∀ x ∈ l₁, isPlannedMetadata codec x) ∧
      isPlannedMetadata codec r = false ∧ markFirst codec l = l₁ ++ r.mark :: l₂) ∨
    (∀ x ∈ l, isPlannedMetadata codec x) ∧ markFirst codec l = l := by
  induction l with
  | nil => exact .inr ⟨fun _ h => (by cases h), rfl⟩
  | cons r l ih =>
    rw [markFirst]
    cases hr : isPlannedMetadata codec r with
    | false => exact .inl ⟨[], r, l, rfl, fun _ h => (by cases h), hr, rfl⟩
    | true =>
      rcases ih with ⟨l₁, r', l₂, rfl, hl₁, hr', hmark⟩ | ⟨hl, hmark⟩
      · exact .inl ⟨r :: l₁, r', l₂, rfl, forall_mem_cons.mpr ⟨hr, hl₁⟩, hr', by simp [hmark]⟩
      · exact .inr ⟨forall_mem_cons.mpr ⟨hr, hl⟩, by simp [hmark]⟩

theorem map_content_markFirst (l : List StreamResult) :
    (markFirst codec l).map content = l.map content := by
  rcases markFirst_cases codec l with ⟨l₁, r, l₂, rfl, -, -, hmark⟩ | ⟨-, hmark⟩
  · simp [hmark]
  · rw [hmark]

/-- What an attempt lets through. -/
def sent (codec : MetadataCodec) (needsReset suppress : Bool) (n : Int64)
    (results : List StreamResult) : List StreamResult :=
  if needsReset && !suppress then markFirst codec (delivered codec n results)
  else delivered codec n results

variable (codec) in
theorem map_content_sent (needsReset suppress : Bool) (n results) :
    (sent codec needsReset suppress n results).map content =
      (delivered codec n results).map content := by
  unfold sent
  split
  · exact map_content_markFirst _
  · rfl

theorem exists_mem_of_map_content_eq (h : l.map content = l'.map content)
    (hr : r ∈ l) : ∃ r' ∈ l', r'.content = r.content := by
  have hmem : r.content ∈ l'.map content := h ▸ mem_map_of_mem hr
  exact mem_map.mp hmem

variable (codec) in
theorem describes_sent (needsReset suppress : Bool) (n : Int64) (results : List StreamResult) :
    (endingOf codec n results).Describes (sent codec needsReset suppress n results) := by
  have hdel := describes_delivered codec n results
  have hmap := map_content_sent codec needsReset suppress n results
  cases he : endingOf codec n results with
  | terminal =>
    rw [he] at hdel
    have hterm := congrArg (List.map isTerminal) hmap
    simp only [map_map, Function.comp_def, isTerminal_content] at hterm
    exact EndsOnce.congr hdel hterm.symm
  | retryable | closed =>
    rw [he] at hdel
    intro r hr
    obtain ⟨r', hr', heq⟩ := exists_mem_of_map_content_eq hmap hr
    rw [← r.isTerminal_content, ← heq, r'.isTerminal_content]
    exact hdel r' hr'

/-! ## Runs of the loop -/

/-- The runs of the loop over the attempts, from an attempt number and whether content was sent. -/
inductive Run (codec : MetadataCodec) (max : Int64) (suppress : Bool) :
    Int64 → Bool → List Attempt → List (List StreamResult) → Prop where
  | exhausted {attempt sentAny bs} (h : ¬attempt ≤ max)
      (err : Error) : Run codec max suppress attempt sentAny bs [[streamError err]]
  | refused {attempt sentAny b bs} (h : attempt ≤ max) (err : Error) :
      Run codec max suppress attempt sentAny (b :: bs) [[streamError err]]
  | failed {attempt : Int64} {sentAny : Bool} {b : Attempt} {bs : List Attempt}
      {groups : List (List StreamResult)} (h : attempt ≤ max)
      (hrest : Run codec max suppress (attempt + 1) sentAny bs groups) :
      Run codec max suppress attempt sentAny (b :: bs) ([] :: groups)
  | finished {attempt : Int64} {sentAny : Bool} {b : Attempt} {bs : List Attempt}
      {results : List StreamResult} (h : attempt ≤ max) (hb : b.answer = .results results)
      (n : Int64) (hend : endingOf codec n results = .terminal) :
      Run codec max suppress attempt sentAny (b :: bs) [sent codec sentAny suppress n results]
  | broken {attempt : Int64} {sentAny : Bool} {b : Attempt} {bs : List Attempt}
      {groups : List (List StreamResult)} {results : List StreamResult} (h : attempt ≤ max)
      (hb : b.answer = .results results) (n : Int64) (hend : endingOf codec n results ≠ .terminal)
      (hrest : Run codec max suppress (attempt + 1)
        (sentAny || (delivered codec n results).any fun r => !isPlannedMetadata codec r) bs
        groups) : Run codec max suppress attempt sentAny (b :: bs)
        (sent codec sentAny suppress n results :: groups)

variable {max : Int64} {suppress : Bool} {bs : List Attempt} {groups : List (List StreamResult)}

theorem run_of_retryLoop {st} (h : retryLoop codec max suppress st bs = some groups) :
    Run codec max suppress st.attempt st.sentAnyResults bs groups := by
  induction bs generalizing st groups with
  | nil =>
    rw [retryLoop] at h
    split at h
    · cases h
    · cases h
      exact .exhausted ‹_› _
  | cons b bs ih =>
    rw [retryLoop] at h
    split at h
    · rename_i hle
      dsimp only at h
      generalize hst : (if 0 < st.attempt then
        { st with currentAttempt := st.currentAttempt + 1 } else st) = st' at h
      have hattempt : st'.attempt = st.attempt := by
        rw [← hst]
        split <;> rfl
      have hsent : st'.sentAnyResults = st.sentAnyResults := by
        rw [← hst]
        split <;> rfl
      rw [← hattempt] at hle ⊢
      rw [← hsent]
      split at h
      · cases h
        exact .refused hle _
      split at h
      · -- the call failed
        split at h
        · obtain ⟨rest, hrest, rfl⟩ := Option.map_eq_some_iff.mp h
          exact .failed hle (ih hrest)
        · cases h
          exact .refused hle _
      rename_i results hb
      rw [forward_eq] at h
      simp only [Bool.not_false, Bool.and_true] at h
      split at h
      · cases h
        exact .finished hle hb _ ‹_›
      · rename_i err hend
        obtain ⟨rest, hrest, rfl⟩ := Option.map_eq_some_iff.mp h
        exact .broken hle hb _ (by simp [hend]) (ih hrest)
      rename_i hend
      obtain ⟨rest, hrest, rfl⟩ := Option.map_eq_some_iff.mp h
      exact .broken hle hb _ (by simp [hend]) (ih hrest)
    · cases h
      exact .exhausted ‹_› _

theorem isSome_retryLoop (hmax : max.toInt + 1 < 2 ^ 63) (suppress : Bool)
    {st} (hbs : max.toInt + 1 - st.attempt.toInt ≤ bs.length) :
    (retryLoop codec max suppress st bs).isSome := by
  have hmax' : max < Int64.maxValue := by
    rw [Int64.lt_iff_toInt_lt, Int64.toInt_maxValue]
    omega
  induction bs generalizing st with
  | nil =>
    have hover : ¬st.attempt ≤ max := by
      rw [Int64.le_iff_toInt_le]
      simp at hbs
      omega
    rw [retryLoop, if_neg hover]
    rfl
  | cons b bs ih =>
    rw [retryLoop]
    split
    · rename_i hle
      have hstep := Retry.toInt_add_one (Int64.lt_of_le_of_lt hle hmax')
      have hnext : max.toInt + 1 - (st.attempt + 1).toInt ≤ bs.length := by
        rw [length_cons] at hbs
        push_cast at hbs
        omega
      dsimp only
      generalize hst : (if 0 < st.attempt then
        { st with currentAttempt := st.currentAttempt + 1 } else st) = st'
      have hattempt : st'.attempt = st.attempt := by
        rw [← hst]
        split <;> rfl
      rw [← hattempt] at hnext
      split
      · rfl
      split
      · split
        · rw [Option.isSome_map]
          exact ih hnext
        · rfl
      split
      · rfl
      · rw [Option.isSome_map]
        exact ih hnext
      · rw [Option.isSome_map]
        exact ih hnext
    · rfl

/-! ### What a run sends -/

variable {attempt : Int64} {sentAny : Bool}

theorem Run.endsOnce (h : Run codec max suppress attempt sentAny bs groups) :
    EndsOnce groups.flatten := by
  induction h with
  | exhausted h err | refused h err => simpa using endsOnce_streamError err
  | failed h hrest ih => simpa using ih
  | @finished attempt sentAny b bs results h hb n hend =>
    have hdesc := describes_sent codec sentAny suppress n results
    rw [hend] at hdesc
    rwa [flatten_singleton]
  | @broken attempt sentAny b bs groups results h hb n hend hrest ih =>
    have hdesc := describes_sent codec sentAny suppress n results
    rw [flatten_cons]
    refine ih.append fun r hr => ?_
    cases he : endingOf codec n results with
    | terminal => exact absurd he hend
    | retryable | closed =>
      rw [he] at hdesc
      exact hdesc r hr

/-! ## The client -/

/-- Neither a heartbeat nor planned metadata. -/
def isKept (codec : MetadataCodec) (r : StreamResult) : Bool :=
  r.kind ≠ .heartbeat && !isPlannedMetadata codec r

/-- A client takes a frame: it discards what it has at a mark, and keeps the frame if it is
content. -/
def hold (codec : MetadataCodec) (held : List StreamResult) (r : StreamResult) :
    List StreamResult :=
  let held := if r.reset then [] else held
  if isKept codec r then held ++ [r] else held

/-- What the client holds in the end. -/
def consume (codec : MetadataCodec) (l : List StreamResult) : List StreamResult :=
  l.foldl (hold codec) []

theorem map_content_foldl_hold {held held'}
    (h : held.map content = held'.map content) (l : List StreamResult) :
    (l.foldl (hold codec) held).map content = (l.foldl (hold codec) held').map content := by
  induction l generalizing held held' with
  | nil => exact h
  | cons r l ih =>
    refine ih ?_
    unfold hold
    split <;> split <;> simp [h]

theorem foldl_hold_of_planned (hl : ∀ x ∈ l, isPlannedMetadata codec x) (held : List StreamResult) :
    l.foldl (hold codec) held = held ∨ l.foldl (hold codec) held = [] := by
  induction l generalizing held with
  | nil => exact .inl rfl
  | cons r l ih =>
    obtain ⟨hr, hl⟩ := forall_mem_cons.mp hl
    have hstep : hold codec held r = held ∨ hold codec held r = [] := by
      unfold hold isKept
      split <;> simp [hr]
    rw [foldl_cons]
    rcases hstep with hstep | hstep
    · rw [hstep]
      exact ih hl held
    · rw [hstep]
      exact .inr ((ih hl []).elim id id)

theorem foldl_hold_markFirst (hr : r ∈ l)
    (hkept : isPlannedMetadata codec r = false) (hbeat : ∀ x ∈ l, x.kind ≠ .heartbeat)
    (held : List StreamResult) : ((markFirst codec l).foldl (hold codec) held).map content =
      (consume codec l).map content := by
  rcases markFirst_cases codec l with ⟨l₁, r', l₂, rfl, hl₁, hr', hmark⟩ | ⟨hl, -⟩
  · have hb : r'.kind ≠ .heartbeat := hbeat r' (by simp)
    have hfirst : l₁.foldl (hold codec) [] = [] := (foldl_hold_of_planned hl₁ []).elim id id
    rw [hmark, consume, foldl_append, foldl_append, foldl_cons, foldl_cons, hfirst]
    apply map_content_foldl_hold
    simp [hold, isKept, hb, hr']
  · rw [hl r hr] at hkept
    cases hkept

theorem consume_eq_filter (hl : ∀ r ∈ l, r.reset = false) :
    consume codec l = l.filter (isKept codec) := by
  have hfold : ∀ held, l.foldl (hold codec) held = held ++ l.filter (isKept codec) := by
    induction l with
    | nil => simp
    | cons r l ih =>
      intro held
      obtain ⟨hr, hl⟩ := forall_mem_cons.mp hl
      rw [foldl_cons, ih hl, hold, hr, filter_cons]
      cases isKept codec r <;> simp
  simpa [consume] using hfold []

theorem exists_of_mem_delivered {n results} (h : r ∈ delivered codec n results) :
    ∃ x ∈ results, x.kind ≠ .heartbeat ∧ r = stamp codec n x := by
  induction results with
  | nil => cases h
  | cons x results ih =>
    have hlater : r ∈ delivered codec n results →
        ∃ y ∈ x :: results, y.kind ≠ .heartbeat ∧ r = stamp codec n y := fun h =>
      let ⟨y, hy, hrest⟩ := ih h
      ⟨y, mem_cons_of_mem x hy, hrest⟩
    rw [delivered] at h
    by_cases hbeat : x.kind = .heartbeat
    · rw [if_pos hbeat] at h
      exact hlater h
    have hfirst : ∃ y ∈ x :: results, y.kind ≠ .heartbeat ∧ stamp codec n x = stamp codec n y :=
      ⟨x, mem_cons_self, hbeat, rfl⟩
    rw [if_neg hbeat] at h
    dsimp only at h
    split at h
    · cases h
    split at h
    · cases mem_singleton.mp h
      exact hfirst
    rcases mem_cons.mp h with rfl | h
    · exact hfirst
    · exact hlater h

/-! ### The marks -/

def poolMarks (sent delivered : List StreamResult) : ℕ :=
  (sent.zip delivered).countP fun p => p.1.reset && !p.2.reset

theorem poolMarks_self (l) : poolMarks l l = 0 := by
  induction l with
  | nil => rfl
  | cons r l ih =>
    rw [poolMarks, zip_cons_cons, countP_cons_of_neg]
    · exact ih
    · simp

theorem poolMarks_append (l r r') : poolMarks (l ++ r) (l ++ r') = poolMarks r r' := by
  rw [poolMarks, zip_append rfl, countP_append]
  have hself := poolMarks_self l
  rw [poolMarks] at hself
  rw [hself, Nat.zero_add, poolMarks]

theorem poolMarks_markFirst_le (l) : poolMarks (markFirst codec l) l ≤ 1 := by
  rcases markFirst_cases codec l with ⟨l₁, r, l₂, rfl, -, -, hmark⟩ | ⟨-, hmark⟩
  · have hself := poolMarks_self l₂
    rw [poolMarks] at hself
    rw [hmark, poolMarks_append, poolMarks, zip_cons_cons, countP_cons, hself]
    split <;> omega
  · rw [hmark, poolMarks_self]
    exact Nat.zero_le 1

/-- What is sent in an attempt: nothing, an error of the pool or of the call, or the frames of the
worker, of which the pool marks one at most, and none unless content was sent earlier. -/
def Sends (codec : MetadataCodec) (earlier : Prop) (b : Option Attempt)
    (group : List StreamResult) : Prop :=
  group = [] ∨ (∃ err, group = [streamError err]) ∨
    ∃ b' results n, b = some b' ∧ b'.answer = .results results ∧
      group.map StreamResult.content = (delivered codec n results).map StreamResult.content ∧
      poolMarks group (delivered codec n results) ≤ 1 ∧
      (poolMarks group (delivered codec n results) ≠ 0 → earlier)

theorem sends_sent {b results} (hb : b.answer = .results results) (sentAny suppress : Bool) (n) :
    Sends codec (sentAny = true) (some b) (sent codec sentAny suppress n results) := by
  refine .inr (.inr ⟨b, results, n, rfl, hb, ?_⟩)
  unfold sent
  split
  · rename_i h
    exact ⟨map_content_markFirst _, poolMarks_markFirst_le _, fun _ => (and_eq_true_iff.mp h).1⟩
  · rw [poolMarks_self]
    exact ⟨rfl, Nat.zero_le 1, fun h => absurd rfl h⟩

theorem Sends.imp {P Q : Prop} {b group}
    (h : Sends codec P b group) (hPQ : P → Q) : Sends codec Q b group := by
  rcases h with h | h | ⟨b', results, n, hb, hanswer, hmap, hle, hne⟩
  · exact .inl h
  · exact .inr (.inl h)
  · exact .inr (.inr ⟨b', results, n, hb, hanswer, hmap, hle, fun h => hPQ (hne h)⟩)

theorem Run.sends (h : Run codec max suppress attempt sentAny bs groups)
    (k : ℕ) {group} (hk : groups[k]? = some group) : Sends codec (sentAny = true ∨
      ∃ g ∈ groups.take k, ∃ r ∈ g, isPlannedMetadata codec r = false) bs[k]? group := by
  induction h generalizing k with
  | exhausted h err | refused h err =>
    have hmem := mem_of_getElem? hk
    exact .inr (.inl ⟨err, mem_singleton.mp hmem⟩)
  | failed h hrest ih =>
    cases k with
    | zero => exact .inl (by simpa using hk.symm)
    | succ k => simpa using ih k (by simpa using hk)
  | @finished attempt sentAny b bs results h hb n hend =>
    cases k with
    | zero =>
      obtain rfl : sent codec sentAny suppress n results = group := by simpa using hk
      exact (sends_sent hb sentAny suppress n).imp Or.inl
    | succ k => simp at hk
  | @broken attempt sentAny b bs groups results h hb n hend hrest ih =>
    cases k with
    | zero =>
      obtain rfl : sent codec sentAny suppress n results = group := by simpa using hk
      exact (sends_sent hb sentAny suppress n).imp Or.inl
    | succ k =>
      refine (ih k (by simpa using hk)).imp ?_
      rintro (hany | ⟨g, hg, hr⟩)
      · rcases or_eq_true_iff.mp hany with hany | hany
        · exact .inl hany
        obtain ⟨r, hr, hplanned⟩ := any_eq_true.mp hany
        obtain ⟨r', hr', heq⟩ := exists_mem_of_map_content_eq
          (map_content_sent codec sentAny suppress n results).symm hr
        refine .inr ⟨_, mem_cons_self, r', hr', ?_⟩
        rw [← isPlannedMetadata_content, heq, isPlannedMetadata_content]
        simpa using hplanned
      · exact .inr ⟨g, mem_cons_of_mem _ hg, hr⟩

theorem Run.ne_nil (h : Run codec max suppress attempt sentAny bs groups) : groups ≠ [] := by
  cases h <;> simp

theorem suppressed_now (h : attempt ≤ max)
    (hsup : suppress → max = 0 ∧ (attempt = 0 ∧ sentAny = false ∨ attempt = 1))
    (hs : suppress) : attempt = 0 ∧ sentAny = false := by
  obtain ⟨rfl, hnow | rfl⟩ := hsup hs
  · exact hnow
  · exact absurd h (by decide)

theorem suppressed_next {sentAny'} (h : attempt ≤ max)
    (hsup : suppress → max = 0 ∧ (attempt = 0 ∧ sentAny = false ∨ attempt = 1)) :
    suppress → max = 0 ∧ (attempt + 1 = 0 ∧ sentAny' = false ∨ attempt + 1 = 1) := by
  intro hs
  obtain ⟨rfl, -⟩ := suppressed_now h hsup hs
  exact ⟨(hsup hs).1, Or.inr (by decide)⟩

theorem Run.holds (h : Run codec max suppress attempt sentAny bs groups)
    (hsup : suppress → max = 0 ∧ (attempt = 0 ∧ sentAny = false ∨ attempt = 1))
    (held : List StreamResult) (hheld : sentAny = false → held = []) {last}
    (hlast : groups.flatten.getLast? = some last) (hfinal : last.kind = .final) :
    ∃ b results n, bs[groups.length - 1]? = some b ∧ b.answer = .results results ∧
      (groups.flatten.foldl (hold codec) held).map content =
        (consume codec (delivered codec n results)).map content := by
  induction h generalizing held with
  | exhausted h err | refused h err =>
    cases hlast
    cases hfinal
  | @failed attempt sentAny b bs groups h hrest ih =>
    have hlen : 0 < groups.length := length_pos_of_ne_nil hrest.ne_nil
    obtain ⟨b', results, n, hb, hrest⟩ := ih (suppressed_next h hsup) held hheld hlast
    refine ⟨b', results, n, ?_, hrest⟩
    rwa [length_cons, Nat.add_sub_cancel, ← Nat.succ_pred_eq_of_pos hlen]
  | @finished attempt sentAny b bs results h hb n hend =>
    refine ⟨b, results, n, rfl, hb, ?_⟩
    rw [flatten_singleton]
    cases hmark : sentAny && !suppress with
    | true =>
      -- the last frame is content, so that one is marked
      have hdesc := describes_delivered codec n results
      rw [hend] at hdesc
      obtain ⟨l, r, hl, hterm, -⟩ := hdesc
      rw [sent, if_pos hmark]
      exact foldl_hold_markFirst (r := r) (by simp [hl]) (not_planned_of_isTerminal hterm)
        (fun x hx => (by
          obtain ⟨y, -, hy, rfl⟩ := exists_of_mem_delivered hx
          rwa [kind_stamp])) held
    | false =>
      have hsent : sentAny = false := by
        cases hs : suppress with
        | false => simpa [hs] using hmark
        | true => exact (suppressed_now h hsup hs).2
      rw [sent, if_neg (by simp [hmark]), hheld hsent, consume]
  | @broken attempt sentAny b bs groups results h hb n hend hrest ih =>
    have hlen : 0 < groups.length := length_pos_of_ne_nil hrest.ne_nil
    have hlast' : groups.flatten.getLast? = some last := by
      obtain ⟨l, r, hl, -⟩ := hrest.endsOnce
      rw [flatten_cons, hl, ← List.append_assoc, getLast?_concat] at hlast
      rw [hl, getLast?_concat, hlast]
    have hheld' : (sentAny || (delivered codec n results).any fun r => !isPlannedMetadata codec r) =
        false → (sent codec sentAny suppress n results).foldl (hold codec) held = [] := by
      intro hnone
      obtain ⟨hsent, hany⟩ := or_eq_false_iff.mp hnone
      have hplanned : ∀ r ∈ delivered codec n results, isPlannedMetadata codec r := by
        simpa using hany
      rw [hheld hsent, sent, if_neg (by simp [hsent])]
      exact (foldl_hold_of_planned hplanned []).elim id id
    rw [flatten_cons, foldl_append]
    obtain ⟨b', results', n', hb', hrest'⟩ := ih (suppressed_next h hsup) _ hheld' hlast'
    refine ⟨b', results', n', ?_, hrest'⟩
    rwa [length_cons, Nat.add_sub_cancel, ← Nat.succ_pred_eq_of_pos hlen]

/-! ## The protocol -/

variable (codec)

/-- For all that the workers may do: when enough attempts are given for the bound on the retries,
the channel closes. It has delivered one terminal frame, the last one. If it is a final result, a
client that discards its state at every mark holds what it would hold if the last attempt had been
the only one, which is all the content of that attempt when the worker has not marked any of its
frames. In each attempt the pool marks one frame at most, and none unless an earlier attempt has
sent content. -/
theorem callStream_protocol (cfg : Config) (mode : StreamMode) (bs : List Attempt) :
    ((cfg.maxStreamRetries mode).toInt + 1 < 2 ^ 63 →
      (cfg.maxStreamRetries mode).toInt + 1 ≤ bs.length →
      (callStream codec cfg mode bs).isSome = true) ∧
    ∀ groups, callStream codec cfg mode bs = some groups →
      EndsOnce groups.flatten ∧
      (∀ last, groups.flatten.getLast? = some last → last.kind = .final →
        ∃ b results n, bs[groups.length - 1]? = some b ∧ b.answer = .results results ∧
          (consume codec groups.flatten).map StreamResult.content =
            (consume codec (delivered codec n results)).map StreamResult.content ∧
          ((∀ r ∈ results, r.reset = false) →
            consume codec (delivered codec n results) =
              (delivered codec n results).filter (isKept codec))) ∧
      ∀ k group, groups[k]? = some group →
        Sends codec (∃ g ∈ groups.take k, ∃ r ∈ g, isPlannedMetadata codec r = false) bs[k]?
          group := by
  refine ⟨fun hmax hbs => isSome_retryLoop hmax _ (by simpa [RetryState.init] using hbs),
    fun groups h => ?_⟩
  have hrun := run_of_retryLoop h
  have hsup : cfg.suppressStreamRetries mode = true → cfg.maxStreamRetries mode = 0 ∧
      ((0 : Int64) = 0 ∧ false = false ∨ (0 : Int64) = 1) := by
    intro hs
    exact ⟨if_pos hs, Or.inl ⟨rfl, rfl⟩⟩
  refine ⟨hrun.endsOnce, fun last hlast hfinal => ?_, fun k group hk => ?_⟩
  · obtain ⟨b, results, n, hb, hanswer, hheld⟩ :=
      hrun.holds hsup [] (fun _ => rfl) hlast hfinal
    refine ⟨b, results, n, hb, hanswer, hheld, fun hunmarked => consume_eq_filter fun r hr => ?_⟩
    obtain ⟨x, hx, -, rfl⟩ := exists_of_mem_delivered hr
    rw [reset_stamp, hunmarked x hx]
  · refine (hrun.sends k hk).imp fun hearlier => hearlier.resolve_left ?_
    exact Bool.false_ne_true

/-! ### Two streams -/

def phaseCodec : MetadataCodec where
  phase := fun data => data
  rewrite := fun data _ => some data
  phase_rewrite := fun _ _ _ h => by rw [Option.some.inj h]

def frame (kind : Kind) (data : Bytes) (reset : Bool) : StreamResult :=
  ⟨kind, data, [], [], none, [], reset, [], none⟩

def answers (results : List StreamResult) : Attempt :=
  ⟨none, ⟨0, none⟩, .results results⟩

/-- A worker that sends content and dies, and another one that answers: the first frame of the
second one is marked. -/
theorem callStream_protocol_retry :
    ∃ groups, callStream phaseCodec ⟨1, false⟩ .stream
        [answers [frame .stream (bytes "a") false],
          answers [frame .stream (bytes "b") false, frame .final (bytes "c") false]] =
        some groups ∧
      EndsOnce groups.flatten ∧
      (consume phaseCodec groups.flatten).map StreamResult.content =
        [frame .stream (bytes "b") false, frame .final (bytes "c") false] := by
  obtain ⟨hsome, hspec⟩ := callStream_protocol phaseCodec ⟨1, false⟩ .stream
    [answers [frame .stream (bytes "a") false],
      answers [frame .stream (bytes "b") false, frame .final (bytes "c") false]]
  obtain ⟨groups, hgroups⟩ := Option.isSome_iff_exists.mp (hsome (by decide) (by decide))
  have hval : groups = [[frame .stream (bytes "a") false],
      [frame .stream (bytes "b") true, frame .final (bytes "c") false]] :=
    Option.some.inj (hgroups.symm.trans (by decide +kernel))
  obtain ⟨hends, hholds, -⟩ := hspec groups hgroups
  obtain ⟨b, results, n, hb, hanswer, hheld, hunmarked⟩ :=
    hholds (frame .final (bytes "c") false) (by rw [hval]; rfl) rfl
  rw [hval] at hb
  cases hb
  cases hanswer
  refine ⟨groups, hgroups, hends, ?_⟩
  rw [hheld, hunmarked (by decide +kernel)]
  rfl

/-- A worker that retries itself marks a frame of its own. The mark reaches the client, in the
first attempt, and the client does not hold all the content of the attempt at the end. -/
theorem mark_of_worker_passes :
    ∃ group, callStream phaseCodec ⟨2, false⟩ .stream
        [answers [frame .stream (bytes "a") false, frame .stream [] true,
          frame .final (bytes "b") false]] = some [group] ∧
      group.any StreamResult.reset = true ∧
      consume phaseCodec group ≠ group.filter (isKept phaseCodec) := by
  refine ⟨[frame .stream (bytes "a") false, frame .stream [] true,
    frame .final (bytes "b") false], ?_, ?_, ?_⟩
  · decide +kernel
  · rfl
  · decide +kernel

end BamlRest.Pool
