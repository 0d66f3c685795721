import BamlRest.Bamlutils.StreamOrchestrator

/-!
# The frames of a stream

The frames of one run of the orchestrator follow a protocol, whatever the children do and whichever
partial results are dropped.

* `Watched`, `Clean`: what the frames sent so far satisfy.
* `runStreamOrchestration_protocol`: the frames of every run satisfy `Protocol`.
-/

namespace BamlRest.BuildRequest

open List Effects

variable {V Req E : Type}

/-! ### Kinds of frames -/

namespace StreamFrame

def isPlanned : StreamFrame V → Bool
  | .metadata md => md.phase = .planned
  | _ => false

def isOutcome : StreamFrame V → Bool
  | .metadata md => md.phase = .outcome
  | _ => false

def isPartial : StreamFrame V → Bool
  | .stream .. => true
  | _ => false

def isReset : StreamFrame V → Bool
  | .reset => true
  | _ => false

def isTerminal : StreamFrame V → Bool
  | .final .. | .error .. => true
  | _ => false

def isHeartbeat : StreamFrame V → Bool
  | .heartbeat => true
  | _ => false

end StreamFrame

open StreamFrame

/-! ### What a child attempt may do -/

def Settled (cfg : StreamConfig) (s : StreamState V) : Prop :=
  cfg.metadata = none ∨ s.plannedMetadataOnce

/-- A child attempt sends heartbeats and, if it may, partial results, and raises the flag with the
first of these. -/
structure Grows (cfg : StreamConfig) (partials : Bool) (s s' : StreamState V) : Prop where
  window : s'.window = s.window
  settled : Settled cfg s'
  sent : ∃ fs, s'.out = s.out ++ fs ∧
    (∀ f ∈ fs, f.window = s.window ∧ (f.frame.isHeartbeat ∨ partials ∧ f.frame.isPartial)) ∧
    s'.sawStreamFrame = (s.sawStreamFrame || fs.any (·.frame.isPartial))

/-- `Grows` once the planned metadata is settled. -/
def Within (cfg : StreamConfig) (partials : Bool) (s s' : StreamState V) : Prop :=
  Settled cfg s → Grows cfg partials s s'

section

variable {cfg : StreamConfig} {partials : Bool} {s s' s'' : StreamState V}

theorem Grows.trans (h : Grows cfg partials s s') (h' : Grows cfg partials s' s'') :
    Grows cfg partials s s'' := by
  obtain ⟨fs, hout, hfs, hsaw⟩ := h.sent
  obtain ⟨fs', hout', hfs', hsaw'⟩ := h'.sent
  refine ⟨h'.window.trans h.window, h'.settled, fs ++ fs', ?_, ?_, ?_⟩
  · rw [hout', hout, append_assoc]
  · intro f hf
    rcases mem_append.mp hf with hf | hf
    · exact hfs f hf
    · rw [← h.window]
      exact hfs' f hf
  · rw [hsaw', hsaw, any_append, Bool.or_assoc]

theorem Grows.mono (h : Grows cfg partials s s') : Grows cfg true s s' := by
  obtain ⟨fs, hout, hfs, hsaw⟩ := h.sent
  exact ⟨h.window, h.settled, fs, hout,
    fun f hf => ⟨(hfs f hf).1, (hfs f hf).2.imp_right fun hp => ⟨rfl, hp.2⟩⟩, hsaw⟩

theorem Grows.of_silent (hs : Settled cfg s) (hwindow : s'.window = s.window)
    (honce : s'.plannedMetadataOnce = s.plannedMetadataOnce) (hout : s'.out = s.out)
    (hsaw : s'.sawStreamFrame = s.sawStreamFrame) : Grows cfg partials s s' := by
  refine ⟨hwindow, hs.imp_right honce.trans, [], ?_, ?_, ?_⟩
  · rw [hout, append_nil]
  · simp
  · simp [hsaw]

instance : Std.Refl (Within (V := V) cfg partials) :=
  ⟨fun _ hs => .of_silent hs rfl rfl rfl rfl⟩

instance : IsTrans (StreamState V) (Within cfg partials) :=
  ⟨fun _ _ _ h h' hs => (h hs).trans (h' (h hs).settled)⟩

end

section Children

variable {cfg : StreamConfig} {w : StreamWorld V Req E} {partials : Bool}

theorem moves_select : Moves (Within cfg partials) (select w) :=
  fun _ hs => .of_silent hs rfl rfl rfl rfl

theorem moves_ctxErr : Moves (Within cfg partials) (ctxErr w) := by
  refine moves_select.bind fun p => ?_
  cases p <;> exact .pure _

theorem moves_send_heartbeat : Moves (Within cfg partials) (send (V := V) .heartbeat) := by
  intro s hs
  refine ⟨rfl, hs, [⟨s.window, .heartbeat⟩], rfl, ?_, ?_⟩
  · simp [isHeartbeat]
  · exact (Bool.or_false _).symm

theorem moves_emitPlannedMetadata : Moves (Within cfg partials) (emitPlannedMetadata cfg w) := by
  intro s hs
  unfold emitPlannedMetadata
  cases hmd : cfg.metadata with
  | none => exact .of_silent hs rfl rfl rfl rfl
  | some plan =>
    rcases hs with hs | hs
    · rw [hmd] at hs
      cases hs
    · simp only [run_bind, run_get, hs, if_true]
      exact .of_silent (.inr hs) rfl rfl rfl rfl

theorem moves_sendHeartbeat : Moves (Within cfg partials) (sendHeartbeat cfg w) := by
  have hsend : Moves (Within cfg partials) (trySend w .heartbeat) := by
    refine moves_select.bind fun p => ?_
    cases p with
    | room => exact moves_send_heartbeat
    | full | done => exact .pure _
  intro s
  unfold sendHeartbeat
  rw [run_bind, run_get]
  by_cases hb : s.heartbeatSent
  · rw [if_pos hb]
    exact moves_emitPlannedMetadata s
  rw [if_neg hb]
  -- the flag of the heartbeat is not one of the protocol
  have hset : Within cfg partials s { s with heartbeatSent := true } :=
    fun hs => .of_silent hs rfl rfl rfl rfl
  exact IsTrans.trans _ _ _ hset (hsend.bind (fun _ => moves_emitPlannedMetadata) _)

theorem moves_trySendPartialShared (v raw reasoning) :
    Moves (Within cfg true) (trySendPartialShared w v raw reasoning) := by
  refine moves_select.bind fun p => ?_
  cases p with
  | room =>
    intro s hs
    refine ⟨rfl, hs, [⟨s.window, .stream v raw reasoning⟩], rfl, ?_, ?_⟩
    · simp [isPartial]
    · exact (Bool.or_true _).symm
  | full | done => exact .pure _

theorem moves_cadenceDelta (hasParser : Bool) (d answers acc) :
    Moves (Within cfg cfg.needsPartials) (cadenceDelta cfg w hasParser d answers acc) := by
  obtain ⟨r, heq⟩ | ⟨hneeds, ev, acc', heq⟩ := (newCadence cfg hasParser).delta_cases
    (fun ev => trySendPartialShared w ev.value ev.raw ev.reasoning)
    ⟨d, answers.nowCheck, answers.nowSet,
      fun text => (answers.parse text).map fun candidate => (candidate, candidate.isSome)⟩ acc
  · rw [cadenceDelta, heq]
    exact .pure _
  change cfg.needsPartials = true at hneeds
  rw [cadenceDelta, heq, hneeds]
  exact (moves_trySendPartialShared _ _ _).bind fun _ => .pure _

theorem bedrockDelta_cases (d answers acc) : (∃ r, bedrockDelta cfg w d answers acc = pure r) ∨
      cfg.needsPartials ∧ ∃ v raw reasoning acc', bedrockDelta cfg w d answers acc = (do
        let err ← trySendPartialShared w v raw reasoning
        pure (err, acc')) := by
  unfold bedrockDelta
  dsimp only
  cases hneeds : cfg.needsPartials with
  | false =>
    simp only [Bool.false_and, Bool.false_eq_true, if_false]
    split <;> exact .inl ⟨_, rfl⟩
  | true =>
    repeat' split
    all_goals first | exact .inl ⟨_, rfl⟩ | exact .inr ⟨rfl, _, _, _, _, rfl⟩

theorem moves_bedrockDelta (d answers acc) :
    Moves (Within cfg cfg.needsPartials) (bedrockDelta cfg w d answers acc) := by
  obtain ⟨r, heq⟩ | ⟨hneeds, v, raw, reasoning, acc', heq⟩ := bedrockDelta_cases d answers acc
  · rw [heq]
    exact .pure _
  · rw [heq, hneeds]
    exact (moves_trySendPartialShared v raw reasoning).bind fun _ => .pure _

theorem moves_finish (parsed raw reasoning) :
    Moves (Within cfg partials) (finish cfg w parsed raw reasoning) := by
  cases parsed with
  | ok final => exact .pure _
  | error err =>
    refine .ite (fun _ => moves_ctxErr.bind fun e => ?_) fun _ => .pure _
    cases e <;> exact .pure _

theorem moves_bedrockEvents (events acc) :
    Moves (Within cfg cfg.needsPartials) (bedrockEvents cfg w events acc) := by
  fun_induction bedrockEvents cfg w events acc with
  | case1 | case2 | case3 => exact .pure _
  | case4 ev answers events acc d hd ih =>
    refine (moves_bedrockDelta d answers acc).bind fun r => ?_
    obtain ⟨_ | err, acc⟩ := r
    · exact ih acc
    · exact .pure _

theorem moves_tryOneBedrockStreamChild (c clientOverride) :
    Moves (Within cfg cfg.needsPartials) (tryOneBedrockStreamChild cfg w c clientOverride) := by
  refine .ite (fun _ => .pure _) fun _ => ?_
  cases c.buildBedrockStreamRequest clientOverride with
  | error err => exact .pure _
  | ok req =>
    dsimp only
    cases c.executeAWSStream req with
    | error err => exact .pure _
    | ok resp =>
      refine moves_sendHeartbeat.bind fun _ => (moves_bedrockEvents _ _).bind fun r => ?_
      cases r with
      | error err => exact .pure _
      | ok acc => exact moves_finish _ _ _

theorem moves_forEach (provider events acc) :
    Moves (Within cfg cfg.needsPartials) (forEach cfg w provider events acc) := by
  fun_induction forEach cfg w provider events acc with
  | case1 | case2 => exact .pure _
  | case3 data answers events acc d hd ih =>
    refine (moves_cadenceDelta cfg.hasParseStream d answers acc).bind fun r => ?_
    obtain ⟨_ | err, acc⟩ := r
    · exact ih acc
    · exact .pure _

theorem moves_tryBaml (c provider clientOverride) :
    Moves (Within cfg cfg.needsPartials) (tryBaml cfg w c provider clientOverride) := by
  unfold tryBaml
  cases c.buildRequest clientOverride with
  | error err => exact .pure _
  | ok req =>
    dsimp only
    cases c.executeStreamCallback req with
    | error err => exact .pure _
    | ok handle =>
      refine moves_sendHeartbeat.bind fun _ => (moves_forEach _ _ _).bind fun r => ?_
      obtain ⟨_ | callbackErr, acc⟩ := r
      · dsimp only
        cases handle.err with
        | some err => exact .pure _
        | none => exact moves_finish _ _ _
      · exact .pure _

theorem moves_nativeSteps (steps acc) :
    Moves (Within cfg cfg.needsPartials) (nativeSteps cfg w steps acc) := by
  induction steps generalizing acc with
  | nil => exact .pure _
  | cons step steps ih =>
    cases step with
    | sendHeaders => exact moves_sendHeartbeat.bind fun _ => ih acc
    | emitDelta d answers => exact (moves_cadenceDelta _ d answers acc).bind fun r => ih r.2

theorem moves_oracleSteps (steps) : Moves (Within cfg true) (oracleSteps cfg w steps) := by
  induction steps with
  | nil => exact .pure _
  | cons step steps ih =>
    cases step with
    | sendHeaders => exact moves_sendHeartbeat.bind fun _ => ih
    | emitResolved ev =>
      refine Moves.ite (fun _ => ih) fun _ => ?_
      exact (moves_trySendPartialShared _ _ _).bind fun _ => ih

theorem moves_legacyHeartbeats (n : ℕ) :
    Moves (Within cfg partials) (legacyHeartbeats cfg w n) := by
  induction n with
  | zero => exact .pure _
  | succ n ih => exact moves_sendHeartbeat.bind fun _ => ih

def Ends : ChildResult V → Prop
  | .ok _ => True
  | .error err => err.isTerminal = true ∧ err.isNativeStreamTerminal

variable (cfg) in
def Tried (m : StreamM V (ChildResult V)) : Prop :=
  ∀ s, Settled cfg s → Grows cfg true s (m.run s).2 ∧
    (Grows cfg cfg.needsPartials s (m.run s).2 ∨ Ends (m.run s).1)

theorem Tried.of_moves {m : StreamM V (ChildResult V)} (h : Moves (Within cfg cfg.needsPartials) m) :
    Tried cfg m :=
  fun s hs => ⟨(h s hs).mono, Or.inl (h s hs)⟩

theorem Ends.newNative (err raw) : Ends (V := V) (.error (.newNativeStreamTerminalError err raw)) :=
  ⟨StreamError.isTerminal_newNative err raw, StreamError.isNativeStreamTerminal_newNative err raw⟩

theorem moves_setNativeWinnerEngine (e) :
    Moves (Within cfg partials) (setNativeWinnerEngine (V := V) e) :=
  .modify fun _ hs => .of_silent hs rfl rfl rfl rfl

theorem moves_tryNativeOracle (c provider clientOverride) :
    Moves (Within cfg true) (tryNativeOracle cfg w c provider clientOverride) := by
  refine .ite (fun _ => .ite (fun _ => .pure _) fun _ => ?_) fun _ => .pure _
  cases c.nativeOracleAttempt provider clientOverride with
  | declined => exact .pure _
  | completed steps final raw reasoning winnerEngine =>
    exact (moves_oracleSteps steps).bind fun _ =>
      (moves_setNativeWinnerEngine winnerEngine).bind fun _ => .pure _
  | failedAfterClaim steps | unknown steps =>
    exact (moves_oracleSteps steps).bind fun _ => .pure _

theorem tryNativeOracle_result (c provider clientOverride)
    (s) : (tryNativeOracle cfg w c provider clientOverride).run s = (none, s) ∨
      ∃ r, ((tryNativeOracle cfg w c provider clientOverride).run s).1 = some r ∧ Ends r := by
  unfold tryNativeOracle
  split
  · split
    · exact .inr ⟨_, rfl, .newNative _ _⟩
    cases c.nativeOracleAttempt provider clientOverride with
    | declined => exact .inl rfl
    | completed => exact .inr ⟨_, rfl, trivial⟩
    | failedAfterClaim | unknown => exact .inr ⟨_, rfl, .newNative _ _⟩
  · exact .inl rfl

theorem moves_tryNative (c provider clientOverride) :
    Moves (Within cfg cfg.needsPartials) (tryNative cfg w c provider clientOverride) := by
  refine .ite (fun _ => .ite (fun _ => .pure _) fun _ => ?_) fun _ => .pure _
  cases c.nativeAttempt provider clientOverride with
  | declined => exact .pure _
  | completed steps winnerEngine =>
    refine (moves_nativeSteps steps .empty).bind fun acc => ?_
    cases c.nativeParseFinal acc.parseable with
    | error err => exact .pure _
    | ok final => exact (moves_setNativeWinnerEngine winnerEngine).bind fun _ => .pure _
  | failedAfterClaim steps | unknown steps =>
    exact (moves_nativeSteps steps .empty).bind fun _ => .pure _

theorem tried_tryOneStreamChild (c provider clientOverride) :
    Tried cfg (tryOneStreamChild cfg w c provider clientOverride) := by
  unfold tryOneStreamChild
  split
  · exact .of_moves (moves_tryOneBedrockStreamChild c clientOverride)
  intro s hs
  have hmoves := moves_tryNativeOracle (w := w) c provider clientOverride s hs
  rw [run_bind]
  rcases tryNativeOracle_result c provider clientOverride s with hnone | ⟨r, hsome, hends⟩
  · rw [hnone]
    refine Tried.of_moves (.bind (moves_tryNative c provider clientOverride) fun r => ?_) s hs
    cases r with
    | none => exact moves_tryBaml c provider clientOverride
    | some r => exact .pure _
  · rw [hsome]
    exact ⟨hmoves, Or.inr hends⟩

theorem tried_tryFallbackChild (c child) : Tried cfg (tryFallbackChild cfg w c child) := by
  unfold tryFallbackChild
  split
  · exact .of_moves ((moves_legacyHeartbeats _).bind fun _ => .pure _)
  · exact tried_tryOneStreamChild c _ _

end Children

/-! ### Partial results and resets -/

/-- The child attempt whose partial results were sent since the last reset, after one more
frame. -/
def mark (o : Option Window) (f : Sent V) : Option Window :=
  match f.frame with
  | .reset => none
  | .stream .. => some f.window
  | _ => o

/-- The child attempt whose partial results were sent since the last reset. -/
def pending (fs : List (Sent V)) : Option Window :=
  fs.foldl mark none

/-- A reset follows a partial result, and partial results of different child attempts are separated
by a reset. -/
def Watched : Option Window → List (Sent V) → Prop
  | _, [] => True
  | o, f :: fs =>
    (match f.frame with
      | .reset => o ≠ none
      | .stream .. => o = none ∨ o = some f.window
      | _ => True) ∧ Watched (mark o f) fs

theorem watched_append (o : Option Window) (fs fs' : List (Sent V)) :
    Watched o (fs ++ fs') ↔ Watched o fs ∧ Watched (fs.foldl mark o) fs' := by
  induction fs generalizing o with
  | nil => simp [Watched]
  | cons f fs ih => simp only [cons_append, Watched, foldl_cons, ih, and_assoc]

theorem watched_of_window {win : Window} {fs : List (Sent V)}
    (hfs : ∀ f ∈ fs, f.window = win ∧ (f.frame.isHeartbeat ∨ f.frame.isPartial))
    {o : Option Window} (ho : o = none ∨ o = some win) : Watched o fs ∧
      fs.foldl mark o = if fs.any (·.frame.isPartial) then some win else o := by
  induction fs generalizing o with
  | nil => simp [Watched]
  | cons f fs ih =>
    have htail := fun f hf => hfs f (mem_cons_of_mem _ hf)
    obtain ⟨hwin, hkind⟩ := hfs f (mem_cons_self ..)
    obtain ⟨_, frame⟩ := f
    subst hwin
    cases frame with
    | stream v raw reasoning =>
      obtain ⟨hw, hm⟩ := ih htail (.inr rfl)
      exact ⟨⟨ho, hw⟩, hm.trans (ite_self _)⟩
    | heartbeat =>
      obtain ⟨hw, hm⟩ := ih htail ho
      exact ⟨⟨trivial, hw⟩, hm⟩
    | metadata | reset | final | error =>
      simp [isHeartbeat, isPartial] at hkind

/-! ### Before and after a child attempt -/

/-- A log without an end: the planned metadata comes first if at all, then heartbeats, partial
results and resets, in order. -/
structure OpenLog (out : List (Sent V)) : Prop where
  planned : ∃ head rest, out = head ++ rest ∧
    (head = [] ∨ ∃ f, head = [f] ∧ f.frame.isPlanned) ∧
    ∀ f ∈ rest, f.frame.isHeartbeat ∨ f.frame.isPartial ∨ f.frame.isReset
  watched : Watched none out

theorem OpenLog.append {out fs : List (Sent V)} (h : OpenLog out)
    (hfs : ∀ f ∈ fs, f.frame.isHeartbeat ∨ f.frame.isPartial ∨ f.frame.isReset)
    (hw : Watched (pending out) fs) : OpenLog (out ++ fs) := by
  obtain ⟨head, rest, rfl, hhead, hrest⟩ := h.planned
  refine ⟨⟨head, rest ++ fs, append_assoc .., hhead, ?_⟩, (watched_append ..).mpr ⟨h.watched, hw⟩⟩
  intro f hf
  rcases mem_append.mp hf with hf | hf
  · exact hrest f hf
  · exact hfs f hf

/-- Between two attempts, or after the last one has failed. -/
structure Open (cfg : StreamConfig) (s : StreamState V) : Prop where
  settled : Settled cfg s
  log : OpenLog s.out

/-- Before a child attempt: the flag is clear, and nothing partial has been sent since the last
reset. -/
structure Clean (cfg : StreamConfig) (s : StreamState V) : Prop extends Open cfg s where
  saw : s.sawStreamFrame = false
  nothing : pending s.out = none

/-- After a child attempt that was not the last: the flag says whether something partial has been
sent since the last reset, and this only happens where a reset will follow. -/
structure Dirty (cfg : StreamConfig) (s : StreamState V) : Prop extends Open cfg s where
  saw : s.sawStreamFrame = (pending s.out).isSome
  asked : pending s.out ≠ none → cfg.needsPartials

section Attempts

variable {cfg : StreamConfig} {w : StreamWorld V Req E} {s s' : StreamState V}

theorem Clean.grows {partials : Bool} (h : Clean cfg s) (hg : Grows cfg partials s s') :
    Open cfg s' ∧ s'.sawStreamFrame = (pending s'.out).isSome ∧
      (pending s'.out ≠ none → partials) := by
  obtain ⟨fs, hout, hfs, hsaw⟩ := hg.sent
  have hkind : ∀ f ∈ fs, f.window = s.window ∧ (f.frame.isHeartbeat ∨ f.frame.isPartial) :=
    fun f hf => ⟨(hfs f hf).1, (hfs f hf).2.imp_right And.right⟩
  obtain ⟨hw, hm⟩ := watched_of_window hkind (.inl rfl)
  rw [← h.nothing] at hw
  have hmark : pending s'.out = if fs.any (·.frame.isPartial) then some s.window else none := by
    rw [pending, hout, foldl_append, ← pending, h.nothing, hm]
  refine ⟨⟨hg.settled, ?_⟩, ?_, ?_⟩
  · rw [hout]
    exact h.log.append (fun f hf => (hkind f hf).2.imp_right Or.inl) hw
  · rw [hsaw, h.saw, hmark]
    cases fs.any (·.frame.isPartial) <;> rfl
  intro hne
  rw [hmark] at hne
  obtain ⟨f, hf, hp⟩ : ∃ f ∈ fs, f.frame.isPartial := by
    by_contra hnone
    have hany : fs.any (·.frame.isPartial) = false := by
      rw [any_eq_false]
      intro f hf hp
      exact hnone ⟨f, hf, hp⟩
    rw [hany] at hne
    exact hne rfl
  rcases (hfs f hf).2 with hb | hb
  · cases hfr : f.frame <;> rw [hfr] at hb hp <;> simp [isHeartbeat,
      isPartial] at hb hp
  · exact hb.1

/-! ### Ends -/

variable (cfg w) in
/-- A child attempt that gave a result, under the names the outcome metadata has for it. -/
inductive Produced : Window → Bytes → Bytes → Bytes → Option V × Bytes × Bytes → Prop where
  | single {attempt r s s'} (hchain : cfg.fallbackChain = []) (hs : s.window = ⟨attempt, 0⟩)
      (hrun : (tryOneStreamChild cfg w (w.child ⟨attempt, 0⟩) cfg.provider
        cfg.clientOverride).run s = (.ok r, s')) :
      Produced ⟨attempt, 0⟩ ((cfg.metadataPlan.map (·.client)).getD []) cfg.provider
        pathBuildRequest r
  | chain {win child r s s'}
      (hchild : cfg.fallbackChain[win.child]? = some child) (hs : s.window = win)
      (hrun : (tryFallbackChild cfg w (w.child win) child).run s = (.ok r, s')) :
      Produced win (cfg.target child) (cfg.clientProvider child)
        (if cfg.isLegacyChild child then pathLegacy else pathBuildRequest) r

structure Names (md : Metadata) (win : Window) (client provider path : Bytes) : Prop where
  phase : md.phase = .outcome
  client : md.winnerClient = client
  provider : md.winnerProvider = provider
  path : md.winnerPath = path
  retryCount : md.retryCount = some win.attempt

variable (cfg w) in
inductive Tail : List (Sent V) → Prop where
  | error (win : Window) (raw : Bytes) (err : StreamError) : Tail [⟨win, .error raw err⟩]
  | final {win client provider path final raw reasoning}
      (h : Produced cfg w win client provider path (final, raw, reasoning)) :
      Tail [⟨win, finalFrame cfg final raw reasoning⟩]
  | outcome {win : Window} {client provider path : Bytes} {final : Option V}
      {raw reasoning : Bytes} {md : Metadata}
      (h : Produced cfg w win client provider path (final, raw, reasoning))
      (hmd : Names md win client provider path) :
      Tail [⟨win, .metadata md⟩, ⟨win, finalFrame cfg final raw reasoning⟩]

variable (cfg w) in
def Closed (out : List (Sent V)) : Prop :=
  ∃ body tail, out = body ++ tail ∧ OpenLog body ∧ Tail cfg w tail

variable (cfg w) in
/-- What holds after an attempt: the log is closed, or the attempt has failed. -/
def After : Option StreamError → StreamState V → Prop
  | none, s => Closed cfg w s.out
  | some _, s => Open cfg s

/-! ### Attempts of a run that is never cancelled -/

variable (w) in
def NeverDone : Prop :=
  ∀ n err, w.poll n ≠ .done err

theorem run_select (s) : (select w).run s = (w.poll s.polls, { s with polls := s.polls + 1 }) := rfl

theorem run_ctxErr (h : NeverDone w) (s) :
    (ctxErr w).run s = (none, { s with polls := s.polls + 1 }) := by
  rw [ctxErr, run_bind, run_select]
  cases hp : w.poll s.polls with
  | room | full => rfl
  | done err => exact absurd hp (h _ _)

theorem run_sendOrDone (h : NeverDone w) (frame s) : (sendOrDone w frame).run s =
      (none, { s with polls := s.polls + 1, out := s.out ++ [⟨s.window, frame⟩] }) := by
  rw [sendOrDone, run_bind, run_select]
  cases hp : w.poll s.polls with
  | room | full => rfl
  | done err => exact absurd hp (h _ _)

variable {path provider client reasoning raw : Bytes} {attempt : Int64} {final : Option V}

theorem run_emitWinner (h : NeverDone w) (hs : Open cfg s) (hattempt : s.window.attempt = attempt)
    (hprod : Produced cfg w s.window client provider path (final, raw, reasoning)) :
    ((emitWinner cfg w client provider path attempt final raw reasoning).run s).1.2 = none ∧
      Closed cfg w
        ((emitWinner cfg w client provider path attempt final raw reasoning).run s).2.out := by
  unfold emitWinner emitFinal emitOutcomeMetadata
  cases hmd : cfg.metadata with
  | none =>
    simp only [run_bind, run_modify, run_pure, run_sendOrDone h]
    exact ⟨trivial, s.out, _, rfl, hs.log, .final hprod⟩
  | some plan =>
    simp only [run_bind, run_modify, run_get, run_pure, run_sendOrDone h, append_assoc]
    exact ⟨trivial, s.out, _, rfl, hs.log,
      .outcome hprod ⟨rfl, rfl, rfl, rfl, congrArg some hattempt.symm⟩⟩

theorem Clean.tried {m} (hm : Tried cfg m) (hs : Clean cfg s) :
    Open cfg (m.run s).2 ∧ (Dirty cfg (m.run s).2 ∨ Ends (m.run s).1) := by
  obtain ⟨hgrows, hends⟩ := hm s hs.settled
  refine ⟨(hs.grows hgrows).1, hends.imp_left fun hg => ?_⟩
  obtain ⟨hopen, hsaw, hasked⟩ := hs.grows hg
  exact ⟨hopen, hsaw, hasked⟩

theorem run_enter (win : Window) (s : StreamState V) :
    (enter win).run s = ((), { s with window := win }) := rfl

theorem Clean.enter (hs : Clean cfg s) (win) : Clean cfg { s with window := win } :=
  ⟨⟨hs.settled, hs.log⟩, hs.saw, hs.nothing⟩

theorem Dirty.reset (h : NeverDone w) (hs : Dirty cfg s) : ((resetFrame cfg w).run s).1 = none ∧
      Clean cfg (clearFlags.run ((resetFrame cfg w).run s).2).2 := by
  unfold resetFrame
  rw [run_bind, run_get]
  by_cases hreset : (cfg.needsPartials && s.sawStreamFrame) = true
  · rw [if_pos hreset, run_sendOrDone h]
    rw [Bool.and_eq_true, hs.saw] at hreset
    have hlog : OpenLog (s.out ++ [⟨s.window, .reset⟩]) := by
      refine hs.log.append ?_ ⟨?_, trivial⟩
      · simp [isReset]
      · exact Option.isSome_iff_ne_none.mp hreset.2
    refine ⟨rfl, ⟨⟨hs.settled, hlog⟩, rfl, ?_⟩⟩
    exact foldl_append ..
  rw [if_neg hreset]
  refine ⟨rfl, ⟨⟨hs.settled, hs.log⟩, rfl, ?_⟩⟩
  by_contra hne
  change pending s.out ≠ none at hne
  refine hreset ?_
  rw [hs.asked hne, hs.saw, Option.isSome_iff_ne_none.mpr hne]
  rfl

variable (cfg w) in
/-- What an attempt leaves: if it has failed, but not for good, another one may begin. -/
def Attempted (r : (Option V × Option StreamError) × StreamState V) : Prop :=
  After cfg w r.1.2 r.2 ∧ ∀ err, r.1.2 = some err → err.isTerminal = false → Dirty cfg r.2

theorem Attempted.of_emitWinner (h : NeverDone w) (hs : Open cfg s)
    (hattempt : s.window.attempt = attempt)
    (hprod : Produced cfg w s.window client provider path (final, raw, reasoning)) :
    Attempted cfg w ((emitWinner cfg w client provider path attempt final raw reasoning).run s) := by
  obtain ⟨hnone, hclosed⟩ := run_emitWinner h hs hattempt hprod
  rw [Attempted, hnone]
  exact ⟨hclosed, fun err herr => by cases herr⟩

theorem handOff_clean (h : NeverDone w) {i : ℕ} {lastErr}
    (hs : lastErr = none ∧ Clean cfg s ∨ lastErr ≠ none ∧ 0 < i ∧ Dirty cfg s) :
    ((handOff cfg w i lastErr).run s).1 = none ∧ Clean cfg ((handOff cfg w i lastErr).run s).2 := by
  unfold handOff
  obtain ⟨rfl, hs⟩ | ⟨hne, hi, hs⟩ := hs
  · rw [if_neg (by simp)]
    exact ⟨rfl, hs⟩
  obtain ⟨hnone, hclean⟩ := hs.reset h
  have hcond : (decide (i > 0) && lastErr.isSome) = true := by
    simp [hi, Option.isSome_iff_ne_none.mpr hne]
  rw [if_pos hcond, run_bind, hnone]
  exact ⟨rfl, hclean⟩

theorem attempted_fallbackLoop (h : NeverDone w) (attempt : Int64) (i : ℕ) (chain : List Bytes)
    (lastErr : Option StreamError) (hchain : cfg.fallbackChain.drop i = chain)
    (hend : chain = [] → lastErr ≠ none)
    (hs : lastErr = none ∧ Clean cfg s ∨ lastErr ≠ none ∧ 0 < i ∧ Dirty cfg s) :
    Attempted cfg w ((fallbackLoop cfg w attempt i chain lastErr).run s) := by
  induction chain generalizing i lastErr s with
  | nil =>
    obtain ⟨hnone, -⟩ | ⟨hne, -, hs⟩ := hs
    · exact absurd hnone (hend rfl)
    · obtain ⟨err, rfl⟩ := Option.ne_none_iff_exists'.mp hne
      exact ⟨hs.toOpen, fun _ _ _ => hs⟩
  | cons child chain ih =>
    have hchild : cfg.fallbackChain[i]? = some child := by
      rw [← head?_drop, hchain]
      rfl
    have hdrop : cfg.fallbackChain.drop (i + 1) = chain := by
      rw [← tail_drop, hchain]
      rfl
    have hs' : lastErr = none ∧ Clean cfg { s with polls := s.polls + 1 } ∨
        lastErr ≠ none ∧ 0 < i ∧ Dirty cfg { s with polls := s.polls + 1 } :=
      hs.imp (fun hs => ⟨hs.1, ⟨⟨hs.2.settled, hs.2.log⟩, hs.2.saw, hs.2.nothing⟩⟩)
        fun hs => ⟨hs.1, hs.2.1, ⟨⟨hs.2.2.settled, hs.2.2.log⟩, hs.2.2.saw, hs.2.2.asked⟩⟩
    obtain ⟨hnone, hclean⟩ := handOff_clean h hs'
    have hclean := hclean.enter ⟨attempt, i⟩
    have htried : Tried cfg (tryFallbackChild cfg w (w.child ⟨attempt, i⟩) child) :=
      tried_tryFallbackChild _ _
    obtain ⟨hopen, hdirty⟩ := hclean.tried htried
    have hwin := (htried _ hclean.settled).1.window
    rw [fallbackLoop, run_bind, run_ctxErr h]
    simp only [run_bind, hnone, run_enter]
    generalize hrun : (tryFallbackChild cfg w (w.child ⟨attempt, i⟩) child).run _ = r
      at hopen hdirty hwin ⊢
    obtain ⟨⟨err⟩ | ⟨final, raw, reasoning⟩, s'⟩ := r
    · dsimp only at hopen hdirty ⊢
      by_cases hnative : err.isNativeStreamTerminal
      · rw [if_pos hnative]
        refine ⟨hopen, fun err' herr hterm => hdirty.resolve_right fun hends => ?_⟩
        cases herr
        rw [hends.1] at hterm
        cases hterm
      rw [if_neg hnative]
      have hdirty := hdirty.resolve_right fun hends => hnative hends.2
      exact ih (i + 1) (some err) hdrop (fun _ => by simp)
        (.inr ⟨by simp, Nat.succ_pos i, hdirty⟩)
    refine .of_emitWinner h hopen (by rw [hwin]) ?_
    rw [hwin]
    exact .chain hchild rfl hrun

theorem attempted_attemptFull (h : NeverDone w) (attempt : Int64) (hs : Clean cfg s) :
    Attempted cfg w ((attemptFull cfg w attempt).run s) := by
  unfold attemptFull
  by_cases hchain : cfg.fallbackChain = []
  · have hclean := hs.enter ⟨attempt, 0⟩
    have htried : Tried cfg (tryOneStreamChild cfg w (w.child ⟨attempt, 0⟩) cfg.provider
      cfg.clientOverride) := tried_tryOneStreamChild _ _ _
    obtain ⟨hopen, hdirty⟩ := hclean.tried htried
    have hwin := (htried _ hclean.settled).1.window
    rw [if_pos hchain]
    simp only [run_bind, run_enter]
    generalize hrun : (tryOneStreamChild cfg w (w.child ⟨attempt, 0⟩) cfg.provider
      cfg.clientOverride).run _ = r at hopen hdirty hwin ⊢
    obtain ⟨⟨err⟩ | ⟨final, raw, reasoning⟩, s'⟩ := r
    · refine ⟨hopen, fun err' herr hterm => hdirty.resolve_right fun hends => ?_⟩
      cases herr
      rw [hends.1] at hterm
      cases hterm
    refine .of_emitWinner h hopen (by rw [hwin]) ?_
    rw [hwin]
    exact .single hchain rfl hrun
  · rw [if_neg hchain]
    exact attempted_fallbackLoop h attempt 0 _ none rfl (fun hnil => absurd hnil hchain)
      (.inl ⟨rfl, hs⟩)

theorem clean_emitPlannedMetadata : Clean cfg ((emitPlannedMetadata cfg w).run (.initial V)).2 := by
  unfold emitPlannedMetadata
  cases hmd : cfg.metadata with
  | none =>
    exact ⟨⟨Or.inl hmd, ⟨[], [], rfl, Or.inl rfl, by simp⟩, trivial⟩, rfl, rfl⟩
  | some plan =>
    change Clean cfg ((trySend w (.metadata { plan with phase := .planned, attempt := 0 })).run
      { StreamState.initial V with plannedMetadataOnce := true }).2
    rw [trySend, run_bind, run_select]
    cases w.poll (StreamState.initial V).polls with
    | room =>
      refine ⟨⟨Or.inr rfl, ⟨[_], [], rfl, Or.inr ⟨_, rfl, rfl⟩, by simp⟩, trivial, trivial⟩, rfl, rfl⟩
    | full | done =>
      exact ⟨⟨Or.inr rfl, ⟨[], [], rfl, Or.inl rfl, by simp⟩, trivial⟩, rfl, rfl⟩

theorem closed_runStreamOrchestration (h : NeverDone w) (hvalid : cfg.validate = none)
    (hmax : ∀ p, cfg.retryPolicy = some p → p.maxRetries ≠ Int64.maxValue) :
    Closed cfg w ((runStreamOrchestration cfg w).run (.initial V)).2.out := by
  have hrule : Retry.Uncancelled StreamError.isTerminal (fun _ => ctxErr w) (attemptFull cfg w)
      (onRetry cfg w) (Clean cfg) (Dirty cfg) (After cfg w) := by
    refine ⟨fun _ s => by rw [run_ctxErr h], fun _ s hs => ?_, fun _ s hs => ?_,
      fun a s hs => (attempted_attemptFull h a hs).1,
      fun a s e hs => (attempted_attemptFull h a hs).2 e, fun _ s hs => (hs.reset h).2⟩
    · rw [run_ctxErr h]
      exact ⟨⟨hs.settled, hs.log⟩, hs.saw, hs.nothing⟩
    · rw [run_ctxErr h]
      exact ⟨⟨hs.settled, hs.log⟩, hs.saw, hs.asked⟩
  have hafter := hrule.executeM none hmax _ (clean_emitPlannedMetadata (w := w))
  unfold runStreamOrchestration
  simp only [run_bind, hvalid]
  generalize (Retry.executeM none StreamError.isTerminal (fun _ => ctxErr w) (attemptFull cfg w)
    (some (onRetry cfg w)) cfg.retryPolicy).run _ = r at hafter ⊢
  obtain ⟨⟨_, _ | err⟩, s⟩ := r
  · exact hafter
  · simp only [run_bind, run_ctxErr h, run_sendOrDone h]
    exact ⟨s.out, _, rfl, hafter.log, .error _ _ _⟩

/-! ### The protocol -/

variable (cfg w) in
structure Protocol (out : List (Sent V)) : Prop where
  /-- planned metadata stands before every other frame, and so comes once at most -/
  planned : ∀ pre f post, out = pre ++ f :: post → f.frame.isPlanned → pre = []
  /-- one reset between consecutive partial results of different child attempts; between two
  that are not consecutive there is such a pair, with its reset, for each change of the attempt -/
  between : ∀ pre p mid q post, out = pre ++ p :: mid ++ q :: post → p.frame.isPartial →
    q.frame.isPartial → (∀ f ∈ mid, f.frame.isPartial = false) → p.window ≠ q.window →
      mid.countP (·.frame.isReset) = 1
  /-- a partial result since the last reset before each reset -/
  reset : ∀ pre r post, out = pre ++ r :: post → r.frame.isReset →
    ∃ before p since, pre = before ++ p :: since ∧ p.frame.isPartial ∧
      ∀ f ∈ since, f.frame.isReset = false
  terminal : ∃ body t, out = body ++ [t] ∧ t.frame.isTerminal ∧
    ∀ f ∈ body, f.frame.isTerminal = false
  /-- the outcome stands right before the final frame, and names the child attempt whose result this
  is -/
  outcome : ∀ pre o post, out = pre ++ o :: post → o.frame.isOutcome →
    ∃ md client provider path final raw reasoning, o.frame = .metadata md ∧
      post = [⟨o.window, finalFrame cfg final raw reasoning⟩] ∧
      Produced cfg w o.window client provider path (final, raw, reasoning) ∧
      Names md o.window client provider path

section

variable {fs : List (Sent V)}

theorem quiet_none (hfs : ∀ f ∈ fs, f.frame.isPartial = false) (hw : Watched none fs) :
    fs.countP (·.frame.isReset) = 0 ∧ pending fs = none := by
  induction fs with
  | nil => exact ⟨rfl, rfl⟩
  | cons f fs ih =>
    obtain ⟨win, frame⟩ := f
    have hf := hfs _ (mem_cons_self ..)
    cases frame with
    | reset => exact absurd rfl hw.1
    | stream => cases hf
    | metadata | heartbeat | final | error =>
      have := ih (fun f hf => hfs f (mem_cons_of_mem _ hf)) hw.2
      exact ⟨by rw [countP_cons_of_neg (by simp [isReset]), this.1], this.2⟩

theorem quiet_some {win} (hfs : ∀ f ∈ fs, f.frame.isPartial = false) (hw : Watched (some win) fs) :
    fs.foldl mark (some win) = some win ∨ fs.countP (·.frame.isReset) = 1 := by
  induction fs with
  | nil => exact .inl rfl
  | cons f fs ih =>
    have htail := fun f hf => hfs f (mem_cons_of_mem _ hf)
    obtain ⟨win', frame⟩ := f
    have hf := hfs _ (mem_cons_self ..)
    cases frame with
    | reset =>
      right
      rw [countP_cons_of_pos (by rfl), (quiet_none htail hw.2).1]
    | stream => cases hf
    | metadata | heartbeat | final | error =>
      rw [countP_cons_of_neg (by simp [isReset])]
      exact ih htail hw.2

theorem exists_of_mark {o} (h : fs.foldl mark o ≠ none) :
    (o ≠ none ∧ ∀ f ∈ fs, f.frame.isReset = false) ∨
      ∃ before p since, fs = before ++ p :: since ∧ p.frame.isPartial ∧
        ∀ f ∈ since, f.frame.isReset = false := by
  induction fs generalizing o with
  | nil => exact .inl ⟨h, by simp⟩
  | cons f fs ih =>
    rcases ih h with ⟨ho, hfs⟩ | ⟨before, p, since, rfl, hp, hsince⟩
    · obtain ⟨win, frame⟩ := f
      cases frame with
      | reset => exact absurd rfl ho
      | stream v raw reasoning => exact .inr ⟨[], _, fs, rfl, rfl, hfs⟩
      | metadata | heartbeat | final | error =>
        refine .inl ⟨ho, fun f hf => ?_⟩
        rcases mem_cons.mp hf with rfl | hf
        · rfl
        · exact hfs f hf
    · exact .inr ⟨f :: before, p, since, rfl, hp, hsince⟩

theorem watched_of_quiet (hfs : ∀ f ∈ fs, f.frame.isPartial = false ∧ f.frame.isReset = false)
    (o) : Watched o fs := by
  induction fs generalizing o with
  | nil => trivial
  | cons f fs ih =>
    have hf := hfs f (mem_cons_self ..)
    refine ⟨?_, ih (fun f hf => hfs f (mem_cons_of_mem _ hf)) _⟩
    obtain ⟨win, frame⟩ := f
    cases frame with
    | reset => cases hf.2
    | stream => cases hf.1
    | metadata | heartbeat | final | error => trivial

end

variable {out : List (Sent V)}

theorem OpenLog.kinds (h : OpenLog out) :
    ∀ f ∈ out, f.frame.isTerminal = false ∧ f.frame.isOutcome = false := by
  obtain ⟨head, rest, rfl, hhead, hrest⟩ := h.planned
  intro f hf
  have hkind : f.frame.isPlanned ∨ f.frame.isHeartbeat ∨ f.frame.isPartial ∨ f.frame.isReset := by
    rcases mem_append.mp hf with hf | hf
    · obtain rfl | ⟨g, rfl, hg⟩ := hhead
      · cases hf
      · rw [mem_singleton.mp hf]
        exact .inl hg
    · exact .inr (hrest f hf)
  cases hfr : f.frame with
  | metadata md =>
    rw [hfr] at hkind
    have hphase : md.phase = .planned := by
      simpa [isPlanned, isHeartbeat, isPartial, isReset] using hkind
    exact ⟨rfl, by simp [isOutcome, hphase]⟩
  | heartbeat | stream | reset => exact ⟨rfl, rfl⟩
  | final | error =>
    rw [hfr] at hkind
    simp [isPlanned, isHeartbeat, isPartial, isReset] at hkind

variable {tail : List (Sent V)}

theorem Tail.split (h : Tail cfg w tail) :
    (∃ pre t, tail = pre ++ [t] ∧ t.frame.isTerminal ∧ ∀ f ∈ pre, f.frame.isTerminal = false) ∧
      ∀ f ∈ tail, (f.frame.isPartial = false ∧ f.frame.isReset = false) ∧
        f.frame.isPlanned = false := by
  cases h with
  | error win raw err =>
    refine ⟨⟨[], _, rfl, rfl, by simp⟩, fun f hf => ?_⟩
    rw [mem_singleton.mp hf]
    exact ⟨⟨rfl, rfl⟩, rfl⟩
  | final =>
    refine ⟨⟨[], _, rfl, rfl, by simp⟩, fun f hf => ?_⟩
    rw [mem_singleton.mp hf]
    exact ⟨⟨rfl, rfl⟩, rfl⟩
  | @outcome win _ _ _ _ _ _ md _ hmd =>
    refine ⟨⟨[_], _, rfl, rfl, by simp [isTerminal]⟩, fun f hf => ?_⟩
    rcases mem_cons.mp hf with rfl | hf
    · exact ⟨⟨rfl, rfl⟩, by simp [isPlanned, hmd.phase]⟩
    · rw [mem_singleton.mp hf]
      exact ⟨⟨rfl, rfl⟩, rfl⟩

theorem Closed.planned (h : Closed cfg w out) (pre)
    (f post) (heq : out = pre ++ f :: post) (hf : f.frame.isPlanned) : pre = [] := by
  obtain ⟨body, tail, rfl, hbody, htail⟩ := h
  obtain ⟨head, rest, rfl, hhead, hrest⟩ := hbody.planned
  have hnot : f ∉ rest ++ tail := by
    intro hmem
    rcases mem_append.mp hmem with hmem | hmem
    · have := hrest f hmem
      cases hfr : f.frame <;> simp [hfr, isPlanned, isHeartbeat,
        isPartial, isReset] at hf this
    · rw [(htail.split.2 f hmem).2] at hf
      cases hf
  have hlater : ∀ pre' : List (Sent V), rest ++ tail ≠ pre' ++ f :: post := by
    intro pre' heq'
    rw [heq'] at hnot
    exact hnot (mem_append_right _ (mem_cons_self ..))
  rw [append_assoc] at heq
  obtain rfl | ⟨g, rfl, -⟩ := hhead
  · exact absurd heq (hlater pre)
  cases pre with
  | nil => rfl
  | cons g' pre => exact absurd (cons.inj heq).2 (hlater pre)

theorem mark_of_isPartial {f : Sent V} (hf : f.frame.isPartial) (o) : mark o f = some f.window := by
  cases hfr : f.frame <;> simp [hfr, isPartial] at hf
  simp [mark, hfr]

variable {post pre : List (Sent V)}

theorem Watched.between {mid : List (Sent V)} {p q : Sent V}
    (hw : Watched none (pre ++ p :: mid ++ q :: post)) (hp : p.frame.isPartial)
    (hq : q.frame.isPartial) (hmid : ∀ f ∈ mid, f.frame.isPartial = false)
    (hne : p.window ≠ q.window) : mid.countP (·.frame.isReset) = 1 := by
  rw [append_assoc, watched_append, cons_append] at hw
  obtain ⟨-, -, hw⟩ := hw
  rw [mark_of_isPartial hp, watched_append] at hw
  refine (quiet_some hmid hw.1).resolve_left fun hsame => ?_
  have hlast := hw.2.1
  cases hfr : q.frame <;> simp [hfr, isPartial] at hq
  rw [hsame, hfr] at hlast
  simp [hne] at hlast

theorem Watched.reset {r} (hw : Watched none (pre ++ r :: post)) (hr : r.frame.isReset) :
    ∃ before p since, pre = before ++ p :: since ∧ p.frame.isPartial ∧
      ∀ f ∈ since, f.frame.isReset = false := by
  have hmark := ((watched_append ..).mp hw).2.1
  cases hfr : r.frame <;> simp [hfr, isReset] at hr
  rw [hfr] at hmark
  exact (exists_of_mark hmark).resolve_left fun h => h.1 rfl

theorem Tail.outcome_split {c o} (h : Tail cfg w tail)
    (heq : tail = c ++ o :: post) (ho : o.frame.isOutcome) :
    ∃ md client provider path final raw reasoning, o.frame = .metadata md ∧
      post = [⟨o.window, finalFrame cfg final raw reasoning⟩] ∧
      Produced cfg w o.window client provider path (final, raw, reasoning) ∧
      Names md o.window client provider path := by
  have hlast : ∀ {f : Sent V} {c : List (Sent V)}, f.frame.isOutcome = false →
      [f] ≠ c ++ o :: post := by
    intro f c hf heq
    have hmem : o ∈ c ++ o :: post := mem_append_right _ (mem_cons_self ..)
    rw [← heq, mem_singleton] at hmem
    rw [hmem, hf] at ho
    cases ho
  cases h with
  | error | final => exact absurd heq (hlast rfl)
  | outcome hprod hmd =>
    cases c with
    | nil =>
      obtain ⟨rfl, rfl⟩ := cons.inj heq
      exact ⟨_, _, _, _, _, _, _, rfl, rfl, hprod, hmd⟩
    | cons g c => exact absurd (cons.inj heq).2 (hlast rfl)

theorem Closed.protocol (h : Closed cfg w out) : Protocol cfg w out := by
  have hplanned := h.planned
  obtain ⟨body, tail, rfl, hbody, htail⟩ := h
  obtain ⟨⟨before, t, hsplit, hterm, hbefore⟩, hquiet⟩ := htail.split
  have hw : Watched none (body ++ tail) :=
    (watched_append ..).mpr ⟨hbody.watched, watched_of_quiet (fun f hf => (hquiet f hf).1) _⟩
  refine ⟨hplanned, fun pre p mid q post heq => Watched.between (heq ▸ hw),
    fun pre r post heq => Watched.reset (heq ▸ hw), ?_, ?_⟩
  · refine ⟨body ++ before, t, by rw [hsplit, append_assoc], hterm, fun f hf => ?_⟩
    rcases mem_append.mp hf with hf | hf
    · exact (hbody.kinds f hf).1
    · exact hbefore f hf
  intro pre o post heq ho
  -- the outcome is not in the body
  rcases append_eq_append_iff.mp heq with ⟨c, -, heq⟩ | ⟨c, heq, hpost⟩
  · exact htail.outcome_split heq ho
  cases c with
  | nil => exact htail.outcome_split (c := []) hpost.symm ho
  | cons g c =>
    obtain ⟨rfl, -⟩ := cons.inj hpost
    have hmem : o ∈ body := heq ▸ mem_append_right _ (mem_cons_self ..)
    rw [(hbody.kinds o hmem).2] at ho
    cases ho

/-- For every provider or fallback chain, retry policy whose `MaxRetries` is below the largest
`int`, behaviour of the children and choice of the sends that are dropped, a run with a valid
configuration whose context is never done follows the protocol. -/
theorem runStreamOrchestration_protocol (h : NeverDone w) (hvalid : cfg.validate = none)
    (hmax : ∀ p, cfg.retryPolicy = some p → p.maxRetries ≠ Int64.maxValue) :
    Protocol cfg w ((runStreamOrchestration cfg w).run (.initial V)).2.out :=
  (closed_runStreamOrchestration h hvalid hmax).protocol

end Attempts

/-! ### A run -/

def pairConfig : StreamConfig where
  provider := []
  clientOverride := []
  retryPolicy := none
  needsPartials := true
  needsRaw := true
  includeReasoning := false
  softFinalParse := false
  parseThrottleInterval := 0
  fallbackChain := ["A", "B"]
  clientProviders := [("A", "openai"), ("B", "openai")]
  legacyChildren := []
  fallbackTargets := []
  metadataPlan := some ⟨.planned, 0, "A", [], [], [], [], none, [], none, [], [], [], [], [],
    none, [], []⟩
  hasNewMetadataResult := true
  hasBuildBedrockStreamRequest := false
  hasLegacyStreamChild := false
  nativeAttemptEnabled := false
  hasNativeAttempt := false
  nativeOracleAttemptEnabled := false
  hasNativeOracleAttempt := false
  hasNativeParseStream := false
  hasNativeParseFinal := false
  plannedEngine := []
  hasParseStream := true

/-- The first child breaks off after an event; the second one streams to its end. -/
def flakyWorld : StreamWorld Unit Unit Unit where
  poll _ := .room
  extractDeltaPartsFromBytes _ data _ := .ok ⟨data, data, []⟩
  extractBedrockStreamDelta _ _ := .ok ⟨[], [], []⟩
  child win :=
    { legacyStreamChild _ _ _ := ⟨0, .error (.mk .foreign [])⟩
      nativeOracleAttempt _ _ := .declined
      nativeAttempt _ _ := .declined
      buildRequest _ := .ok ()
      buildBedrockStreamRequest _ := .ok ()
      executeStreamCallback _ :=
        .ok ⟨[("text", ⟨0, 0, fun _ => .ok (some ())⟩)],
          if win.child = 0 then some (.mk .foreign []) else none⟩
      executeAWSStream _ := .ok ⟨[]⟩
      parseFinal _ := .ok (some ())
      nativeParseFinal _ := .ok (some ())
      upstreamDurMs := 0 }

theorem runStreamOrchestration_protocol_pair :
    (((runStreamOrchestration pairConfig flakyWorld).run (.initial Unit)).2.out.map fun f =>
        (f.window.child, f.frame.isPartial, f.frame.isReset, f.frame.isTerminal)) =
      [(0, false, false, false), (0, false, false, false), (0, true, false, false),
        (0, false, true, false), (1, false, false, false), (1, true, false, false),
        (1, false, false, false), (1, false, false, true)] ∧
    Protocol pairConfig flakyWorld
      ((runStreamOrchestration pairConfig flakyWorld).run (.initial Unit)).2.out :=
  ⟨by decide +kernel,
    runStreamOrchestration_protocol (fun _ _ h => by cases h) (by decide +kernel)
      (fun _ h => by cases h)⟩

end BamlRest.BuildRequest
