import BamlRest.Lib.Interleave
import BamlRest.Text.Bytes

/-!
# The deadlines of a streamed body

`firstBodyIdleReader` reads a body under two deadlines: one until the first byte, and one from each
byte to the next. Every window of the watchdog has a timer of its own.

* `Turn`: what the reader and the timers do.
* `stream_deadlines`: when a stream is cut off.
-/

namespace BamlRest.ExactStream

open Function Interleave Option List

/-- The threads: the one that reads, those that call `Close`, the callbacks of the windows, the
clock, and the one that may cancel the context. -/
inductive ThreadId where
  | reader
  | closer (n : ℕ)
  | callback (window : ℕ)
  | clock
  | caller
  deriving DecidableEq

/-- An error of the body, with what `isClosedConnErr` says about it. -/
structure BodyError where
  text : Bytes
  isClosedConnErr : Bool
  deriving DecidableEq

inductive CtxError where
  | canceled
  | deadlineExceeded
  deriving DecidableEq

inductive ReadError where
  | body (err : BodyError)
  | ctx (err : CtxError)
  | firstBodyTimeout
  | idleTimeout
  deriving DecidableEq

def ReadError.isTimeout : ReadError → Bool
  | .firstBodyTimeout | .idleTimeout => true
  | _ => false

/-- `streamDeadlinePhase`. -/
inductive Phase where
  | firstBody
  | idle

/-- What `newExactStreamBody` is given: the two timeouts, and whether there is an `onFirstBody`. -/
structure Params where
  onFirstBody : Bool
  firstBodyTimeout : ℤ
  idleTimeout : ℤ

/-- The fields of `byteProgressWatchdog` and of `firstBodyIdleReader`. -/
structure Memory where
  mu : Option ThreadId
  fired : Bool
  timer : Option ℕ
  gen : ℕ
  closed : Bool
  expired : List ℕ
  sawFirstByte : Bool
  timedOutPhase : Phase
  ctxErr : Option CtxError
  firstBodySignals : ℕ
  /-- The windows whose callbacks have closed the connection, each with the generation of the
  watchdog when the callback took the lock. -/
  severed : List (ℕ × ℕ)

namespace Memory

def new : Memory := ⟨none, false, none, 0, false, [], false, .firstBody, none, 0, []⟩

/-- `arm`, under the lock. -/
def arm (m : Memory) : Memory :=
  if m.closed then m else { m with gen := m.gen + 1, timer := some (m.gen + 1) }

/-- `stop`, under the lock. -/
def stop (m : Memory) : Memory := { m with gen := m.gen + 1, timer := none }

/-- `markClosed`, under the lock. -/
def markClosed (m : Memory) : Memory := { m with closed := true, gen := m.gen + 1, timer := none }

/-- `armIdle`, under the lock. -/
def armIdle (p : Params) (m : Memory) : Memory := if p.idleTimeout ≤ 0 then m.stop else m.arm

theorem exists_armIdle (p : Params) (m : Memory) :
    ∃ gen timer, m.armIdle p = { m with gen := gen, timer := timer } ∧ m.gen ≤ gen ∧
      ∀ k, timer = some k → k = gen ∨ m.timer = some k := by
  unfold armIdle arm
  split
  · exact ⟨m.gen + 1, none, rfl, Nat.le_succ _, fun k hk => (by cases hk)⟩
  split
  · exact ⟨m.gen, m.timer, rfl, le_rfl, fun k hk => .inr hk⟩
  · exact ⟨m.gen + 1, some (m.gen + 1), rfl, Nat.le_succ _,
      fun k hk => .inl (some.inj hk).symm⟩

end Memory

/-! ## Where a thread stands -/

inductive Stage where
  | lock
  | body
  | unlock
  deriving DecidableEq

/-- The places in `Read`, after the read of the body. -/
inductive ReadPc where
  | got (bs : Bytes) (err : Option BodyError)
  | armIdle (bs : Bytes) (firstByte : Bool) (stage : Stage)
  | signal (bs : Bytes) (err : Option BodyError)
  | hasFired (bs : Bytes) (err : BodyError)
  | stop (bs : Bytes) (err : BodyError) (stage : Stage)
  | ctxErr
  | phase
  deriving DecidableEq

/-- The places in `Close`. -/
inductive ClosePc where
  | mark (stage : Stage)
  | closer
  deriving DecidableEq

/-- The places in `fire` and in `onDeadline`, with the generation of the watchdog when the lock was
taken and with the value of `sawFirstByte` that was loaded. -/
inductive FirePc where
  | check (gen : ℕ)
  | drop
  | unlock (gen : ℕ)
  | load (gen : ℕ)
  | store (gen : ℕ) (saw : Bool)
  | close (gen : ℕ) (saw : Bool)
  | dropped
  | done (saw : Bool)
  deriving DecidableEq

inductive Pc where
  | idle
  | read (pc : ReadPc)
  | close (pc : ClosePc)
  | fire (pc : FirePc)
  deriving DecidableEq

/-- A thread. The reading thread keeps what the reads of the body gave and what its calls of `Read`
returned. -/
structure Thread where
  pc : Pc
  reads : List (Bytes × Option BodyError)
  returned : List (Bytes × Option ReadError)

/-- What a turn may choose: the result of a read of the body, and why the context ends. -/
inductive Choice where
  | go
  | read (bs : Bytes) (err : Option BodyError)
  | cancel (err : CtxError)
  deriving DecidableEq

/-! ## Turns -/

def Thread.finish (t : Thread) (bs : Bytes) (err : Option ReadError) : Thread :=
  { t with pc := .idle, returned := t.returned ++ [(bs, err)] }

variable (p : Params)

/-- A turn of `Read`. -/
def read (m : Memory) (t : Thread) : ReadPc → Option (Memory × Thread)
  | .got [] err =>
    if m.fired then some (m, { t with pc := .read .ctxErr })
    else
      match err with
      | none => some (m, t.finish [] none)
      | some err => some (m, { t with pc := .read (.stop [] err .lock) })
  | .got (b :: bs) err =>
    let firstByte := !m.sawFirstByte
    some ({ m with sawFirstByte := true },
      { t with pc := .read (match err with
        | none => .armIdle (b :: bs) firstByte .lock
        | some err =>
          if firstByte && p.onFirstBody then .signal (b :: bs) (some err)
          else .hasFired (b :: bs) err) })
  | .armIdle bs firstByte .lock =>
    if m.mu = none then
      some ({ m with mu := some .reader }, { t with pc := .read (.armIdle bs firstByte .body) })
    else none
  | .armIdle bs firstByte .body =>
    some (m.armIdle p, { t with pc := .read (.armIdle bs firstByte .unlock) })
  | .armIdle bs firstByte .unlock =>
    some ({ m with mu := none },
      if firstByte && p.onFirstBody then { t with pc := .read (.signal bs none) }
      else t.finish bs none)
  | .signal bs err =>
    some ({ m with firstBodySignals := m.firstBodySignals + 1 },
      match err with
      | none => t.finish bs none
      | some err => { t with pc := .read (.hasFired bs err) })
  | .hasFired bs err =>
    if m.fired && err.isClosedConnErr then some (m, t.finish bs none)
    else some (m, { t with pc := .read (.stop bs err .lock) })
  | .stop bs err .lock =>
    if m.mu = none then
      some ({ m with mu := some .reader }, { t with pc := .read (.stop bs err .body) })
    else none
  | .stop bs err .body => some (m.stop, { t with pc := .read (.stop bs err .unlock) })
  | .stop bs err .unlock => some ({ m with mu := none }, t.finish bs (some (.body err)))
  | .ctxErr =>
    match m.ctxErr with
    | some err => some (m, t.finish [] (some (.ctx err)))
    | none => some (m, { t with pc := .read .phase })
  | .phase =>
    some (m, t.finish [] (some (match m.timedOutPhase with
      | .firstBody => .firstBodyTimeout
      | .idle => .idleTimeout)))

/-- A turn of `Close`. -/
def close (i : ThreadId) (m : Memory) (t : Thread) : ClosePc → Option (Memory × Thread)
  | .mark .lock =>
    if m.mu = none then some ({ m with mu := some i }, { t with pc := .close (.mark .body) })
    else none
  | .mark .body => some (m.markClosed, { t with pc := .close (.mark .unlock) })
  | .mark .unlock => some ({ m with mu := none }, { t with pc := .close .closer })
  | .closer => some (m, { t with pc := .idle })

/-- A turn of `fire`, for the window `k`. -/
def fire (k : ℕ) (m : Memory) (t : Thread) : FirePc → Option (Memory × Thread)
  | .check gen =>
    if m.closed ∨ k % 2 ^ 64 ≠ m.gen % 2 ^ 64 ∨ m.fired then some (m, { t with pc := .fire .drop })
    else some ({ m with fired := true }, { t with pc := .fire (.unlock gen) })
  | .drop => some ({ m with mu := none }, { t with pc := .fire .dropped })
  | .unlock gen => some ({ m with mu := none }, { t with pc := .fire (.load gen) })
  | .load gen => some (m, { t with pc := .fire (.store gen m.sawFirstByte) })
  | .store gen saw =>
    some ({ m with timedOutPhase := if saw then .idle else .firstBody },
      { t with pc := .fire (.close gen saw) })
  | .close gen saw =>
    some ({ m with severed := m.severed ++ [(k, gen)] }, { t with pc := .fire (.done saw) })
  | .dropped | .done _ => none

def program : Program ThreadId Memory Thread Choice := fun i c m t =>
  match i, t.pc, c with
  | .reader, .idle, .read bs err =>
    some (m, { t with pc := .read (.got bs err), reads := t.reads ++ [(bs, err)] })
  | .reader, .read pc, .go => read p m t pc
  | .closer _, .idle, .go => some (m, { t with pc := .close (.mark .lock) })
  | .closer n, .close pc, .go => close (.closer n) m t pc
  | .callback k, .idle, .go =>
    -- the timer has expired, and `fire` takes the lock
    if k ∈ m.expired ∧ m.mu = none then
      some ({ m with mu := some (.callback k) }, { t with pc := .fire (.check m.gen) })
    else none
  | .callback k, .fire pc, .go => fire k m t pc
  | .clock, .idle, .go =>
    match m.timer with
    | some k => some ({ m with timer := none, expired := m.expired ++ [k] }, t)
    | none => none
  | .caller, .idle, .cancel err =>
    if m.ctxErr = none then some ({ m with ctxErr := some err }, t) else none
  | _, _, _ => none

/-- `newExactStreamBody`, when there is something to watch or to call. -/
def init : Config ThreadId Memory Thread :=
  ⟨if p.firstBodyTimeout > 0 then Memory.new.arm else .new, fun _ => ⟨.idle, [], []⟩⟩

inductive Turn (i : ThreadId) (m : Memory) (t : Thread) : Choice → Memory → Thread → Prop where
  | readBody (bs : Bytes) (err : Option BodyError) (hi : i = .reader) (hpc : t.pc = .idle) :
      Turn i m t (.read bs err) m
        { t with pc := .read (.got bs err), reads := t.reads ++ [(bs, err)] }
  | emptyFired (err : Option BodyError) (hi : i = .reader) (hpc : t.pc = .read (.got [] err))
      (hfired : m.fired) : Turn i m t .go m { t with pc := .read .ctxErr }
  | emptyReturn (hi : i = .reader) (hpc : t.pc = .read (.got [] none)) (hfired : m.fired = false) :
      Turn i m t .go m (t.finish [] none)
  | emptyStop (err : BodyError) (hi : i = .reader) (hpc : t.pc = .read (.got [] (some err)))
      (hfired : m.fired = false) : Turn i m t .go m { t with pc := .read (.stop [] err .lock) }
  | swapArm (b : UInt8) (bs : Bytes) (hi : i = .reader) (hpc : t.pc = .read (.got (b :: bs) none)) :
      Turn i m t .go { m with sawFirstByte := true }
        { t with pc := .read (.armIdle (b :: bs) (!m.sawFirstByte) .lock) }
  | swapSignal (b : UInt8) (bs : Bytes) (err : BodyError) (hi : i = .reader)
      (hpc : t.pc = .read (.got (b :: bs) (some err))) :
      Turn i m t .go { m with sawFirstByte := true }
        { t with pc := .read (.signal (b :: bs) (some err)) }
  | swapFired (b : UInt8) (bs : Bytes) (err : BodyError) (hi : i = .reader)
      (hpc : t.pc = .read (.got (b :: bs) (some err))) :
      Turn i m t .go { m with sawFirstByte := true } { t with pc := .read (.hasFired (b :: bs) err) }
  | armLock (bs : Bytes) (firstByte : Bool) (hi : i = .reader)
      (hpc : t.pc = .read (.armIdle bs firstByte .lock)) (hfree : m.mu = none) :
      Turn i m t .go { m with mu := some i } { t with pc := .read (.armIdle bs firstByte .body) }
  | armBody (bs : Bytes) (firstByte : Bool) (hi : i = .reader)
      (hpc : t.pc = .read (.armIdle bs firstByte .body)) (gen : ℕ) (timer : Option ℕ)
      (hgen : m.gen ≤ gen) (htimer : ∀ k, timer = some k → k = gen ∨ m.timer = some k) :
      Turn i m t .go { m with gen := gen, timer := timer }
        { t with pc := .read (.armIdle bs firstByte .unlock) }
  | armSignal (bs : Bytes) (firstByte : Bool) (hi : i = .reader)
      (hpc : t.pc = .read (.armIdle bs firstByte .unlock)) :
      Turn i m t .go { m with mu := none } { t with pc := .read (.signal bs none) }
  | armReturn (bs : Bytes) (firstByte : Bool) (hi : i = .reader)
      (hpc : t.pc = .read (.armIdle bs firstByte .unlock)) :
      Turn i m t .go { m with mu := none } (t.finish bs none)
  | signalReturn (bs : Bytes) (hi : i = .reader) (hpc : t.pc = .read (.signal bs none)) :
      Turn i m t .go { m with firstBodySignals := m.firstBodySignals + 1 } (t.finish bs none)
  | signalFired (bs : Bytes) (err : BodyError) (hi : i = .reader)
      (hpc : t.pc = .read (.signal bs (some err))) :
      Turn i m t .go { m with firstBodySignals := m.firstBodySignals + 1 }
        { t with pc := .read (.hasFired bs err) }
  | firedReturn (bs : Bytes) (err : BodyError) (hi : i = .reader)
      (hpc : t.pc = .read (.hasFired bs err)) : Turn i m t .go m (t.finish bs none)
  | firedStop (bs : Bytes) (err : BodyError) (hi : i = .reader)
      (hpc : t.pc = .read (.hasFired bs err)) :
      Turn i m t .go m { t with pc := .read (.stop bs err .lock) }
  | stopLock (bs : Bytes) (err : BodyError) (hi : i = .reader)
      (hpc : t.pc = .read (.stop bs err .lock)) (hfree : m.mu = none) :
      Turn i m t .go { m with mu := some i } { t with pc := .read (.stop bs err .body) }
  | stopBody (bs : Bytes) (err : BodyError) (hi : i = .reader)
      (hpc : t.pc = .read (.stop bs err .body)) :
      Turn i m t .go m.stop { t with pc := .read (.stop bs err .unlock) }
  | stopReturn (bs : Bytes) (err : BodyError) (hi : i = .reader)
      (hpc : t.pc = .read (.stop bs err .unlock)) :
      Turn i m t .go { m with mu := none } (t.finish bs (some (.body err)))
  | ctxReturn (err : CtxError) (hi : i = .reader) (hpc : t.pc = .read .ctxErr) :
      Turn i m t .go m (t.finish [] (some (.ctx err)))
  | ctxPhase (hi : i = .reader) (hpc : t.pc = .read .ctxErr) :
      Turn i m t .go m { t with pc := .read .phase }
  | phaseReturn (err : ReadError) (hi : i = .reader) (hpc : t.pc = .read .phase)
      (herr : err = match m.timedOutPhase with
        | .firstBody => .firstBodyTimeout
        | .idle => .idleTimeout) :
      Turn i m t .go m (t.finish [] (some err))
  | closeStart (hi : i ≠ .reader) (hpc : t.pc = .idle) :
      Turn i m t .go m { t with pc := .close (.mark .lock) }
  | closeLock (hi : i ≠ .reader) (hpc : t.pc = .close (.mark .lock)) (hfree : m.mu = none) :
      Turn i m t .go { m with mu := some i } { t with pc := .close (.mark .body) }
  | closeMark (hi : i ≠ .reader) (hpc : t.pc = .close (.mark .body)) :
      Turn i m t .go m.markClosed { t with pc := .close (.mark .unlock) }
  | closeUnlock (hi : i ≠ .reader) (hpc : t.pc = .close (.mark .unlock)) :
      Turn i m t .go { m with mu := none } { t with pc := .close .closer }
  | closeEnd (hi : i ≠ .reader) (hpc : t.pc = .close .closer) : Turn i m t .go m { t with pc := .idle }
  | fireLock (k : ℕ) (hi : i = .callback k) (hpc : t.pc = .idle) (hexpired : k ∈ m.expired)
      (hfree : m.mu = none) :
      Turn i m t .go { m with mu := some i } { t with pc := .fire (.check m.gen) }
  | fireDrop (gen : ℕ) (hi : i ≠ .reader) (hpc : t.pc = .fire (.check gen)) :
      Turn i m t .go m { t with pc := .fire .drop }
  | fireSwap (k gen : ℕ) (hi : i = .callback k) (hpc : t.pc = .fire (.check gen))
      (hgen : k % 2 ^ 64 = m.gen % 2 ^ 64) (hfired : m.fired = false) :
      Turn i m t .go { m with fired := true } { t with pc := .fire (.unlock gen) }
  | fireDropped (hi : i ≠ .reader) (hpc : t.pc = .fire .drop) :
      Turn i m t .go { m with mu := none } { t with pc := .fire .dropped }
  | fireUnlock (gen : ℕ) (hi : i ≠ .reader) (hpc : t.pc = .fire (.unlock gen)) :
      Turn i m t .go { m with mu := none } { t with pc := .fire (.load gen) }
  | fireLoad (gen : ℕ) (hi : i ≠ .reader) (hpc : t.pc = .fire (.load gen)) :
      Turn i m t .go m { t with pc := .fire (.store gen m.sawFirstByte) }
  | fireStore (gen : ℕ) (saw : Bool) (hi : i ≠ .reader) (hpc : t.pc = .fire (.store gen saw)) :
      Turn i m t .go { m with timedOutPhase := if saw then .idle else .firstBody }
        { t with pc := .fire (.close gen saw) }
  | fireClose (k gen : ℕ) (saw : Bool) (hi : i = .callback k)
      (hpc : t.pc = .fire (.close gen saw)) :
      Turn i m t .go { m with severed := m.severed ++ [(k, gen)] }
        { t with pc := .fire (.done saw) }
  | expire (k : ℕ) (hi : i ≠ .reader) (hpc : t.pc = .idle) (htimer : m.timer = some k) :
      Turn i m t .go { m with timer := none, expired := m.expired ++ [k] } t
  | cancel (err : CtxError) (hi : i ≠ .reader) (hpc : t.pc = .idle) :
      Turn i m t (.cancel err) { m with ctxErr := some err } t

variable {i : ThreadId} {c : Choice} {m m' : Memory} {t t' : Thread}

theorem turn_of_read {p pc} (hpc : t.pc = .read pc) (h : read p m t pc = some (m', t')) :
    Turn .reader m t .go m' t' := by
  unfold read at h
  split at h
  case h_1 err =>
    cases hfired : m.fired with
    | true =>
      rw [if_pos hfired] at h
      cases h
      exact .emptyFired err rfl hpc hfired
    | false =>
      rw [hfired, if_neg Bool.false_ne_true] at h
      cases err with
      | none =>
        cases h
        exact .emptyReturn rfl hpc hfired
      | some err =>
        cases h
        exact .emptyStop err rfl hpc hfired
  case h_2 b bs err =>
    cases err with
    | none =>
      cases h
      exact .swapArm b bs rfl hpc
    | some err =>
      dsimp only at h
      split at h <;> cases h
      · exact .swapSignal b bs err rfl hpc
      · exact .swapFired b bs err rfl hpc
  case h_3 bs firstByte =>
    obtain ⟨hfree, h⟩ := ite_none_right_eq_some.mp h
    cases h
    exact .armLock bs firstByte rfl hpc hfree
  case h_4 bs firstByte =>
    obtain ⟨gen, timer, harm, hgen, htimer⟩ := m.exists_armIdle p
    rw [harm] at h
    cases h
    exact .armBody bs firstByte rfl hpc gen timer hgen htimer
  case h_5 bs firstByte =>
    split at h <;> cases h
    · exact .armSignal bs firstByte rfl hpc
    · exact .armReturn bs firstByte rfl hpc
  case h_6 bs err =>
    cases err with
    | none =>
      cases h
      exact .signalReturn bs rfl hpc
    | some err =>
      cases h
      exact .signalFired bs err rfl hpc
  case h_7 bs err =>
    split at h <;> cases h
    · exact .firedReturn bs err rfl hpc
    · exact .firedStop bs err rfl hpc
  case h_8 bs err =>
    obtain ⟨hfree, h⟩ := ite_none_right_eq_some.mp h
    cases h
    exact .stopLock bs err rfl hpc hfree
  case h_9 bs err =>
    cases h
    exact .stopBody bs err rfl hpc
  case h_10 bs err =>
    cases h
    exact .stopReturn bs err rfl hpc
  case h_11 =>
    split at h <;> cases h
    · exact .ctxReturn _ rfl hpc
    · exact .ctxPhase rfl hpc
  case h_12 =>
    cases h
    exact .phaseReturn _ rfl hpc rfl

theorem turn_of_close {n : ℕ} {pc} (hpc : t.pc = .close pc)
    (h : close (.closer n) m t pc = some (m', t')) : Turn (.closer n) m t .go m' t' := by
  have hi : ThreadId.closer n ≠ .reader := fun hc => (by cases hc)
  unfold close at h
  split at h
  case h_1 =>
    obtain ⟨hfree, h⟩ := ite_none_right_eq_some.mp h
    cases h
    exact .closeLock hi hpc hfree
  case h_2 =>
    cases h
    exact .closeMark hi hpc
  case h_3 =>
    cases h
    exact .closeUnlock hi hpc
  case h_4 =>
    cases h
    exact .closeEnd hi hpc

theorem turn_of_fire {k : ℕ} {pc} (hpc : t.pc = .fire pc)
    (h : fire k m t pc = some (m', t')) : Turn (.callback k) m t .go m' t' := by
  have hi : ThreadId.callback k ≠ .reader := fun hc => (by cases hc)
  cases pc with
  | check gen =>
    rw [fire] at h
    split at h
    case isTrue =>
      cases h
      exact .fireDrop gen hi hpc
    case isFalse hfires =>
      cases h
      simp only [not_or, Bool.not_eq_true, not_not] at hfires
      exact .fireSwap k gen rfl hpc hfires.2.1 hfires.2.2
  | drop =>
    cases h
    exact .fireDropped hi hpc
  | unlock gen =>
    cases h
    exact .fireUnlock gen hi hpc
  | load gen =>
    cases h
    exact .fireLoad gen hi hpc
  | store gen saw =>
    cases h
    exact .fireStore gen saw hi hpc
  | close gen saw =>
    cases h
    exact .fireClose k gen saw rfl hpc
  | dropped => cases h
  | done saw => cases h

theorem turn_of_program {p} (h : program p i c m t = some (m', t')) : Turn i m t c m' t' := by
  unfold program at h
  split at h
  case h_1 bs err hpc =>
    cases h
    exact .readBody bs err rfl hpc
  case h_2 hpc => exact turn_of_read hpc h
  case h_3 hpc =>
    cases h
    exact .closeStart (fun hc => (by cases hc)) hpc
  case h_4 hpc => exact turn_of_close hpc h
  case h_5 k hpc =>
    obtain ⟨⟨hexpired, hfree⟩, h⟩ := ite_none_right_eq_some.mp h
    cases h
    exact .fireLock k rfl hpc hexpired hfree
  case h_6 hpc => exact turn_of_fire hpc h
  case h_7 hpc =>
    split at h <;> cases h
    case h_1 k htimer => exact .expire k (fun hc => (by cases hc)) hpc htimer
  case h_8 err hpc =>
    obtain ⟨-, h⟩ := ite_none_right_eq_some.mp h
    cases h
    exact .cancel err (fun hc => (by cases hc)) hpc
  case h_9 => cases h

/-! ## Invariants -/

def Pc.holdsLock : Pc → Bool
  | .read (.armIdle _ _ .body) | .read (.armIdle _ _ .unlock) => true
  | .read (.stop _ _ .body) | .read (.stop _ _ .unlock) => true
  | .close (.mark .body) | .close (.mark .unlock) => true
  | .fire (.check _) | .fire .drop | .fire (.unlock _) => true
  | _ => false

/-- The thread has set `fired`. -/
def Pc.hasFired : Pc → Bool
  | .fire (.unlock _) | .fire (.load _) | .fire (.store _ _) | .fire (.close _ _) => true
  | .fire (.done _) => true
  | _ => false

def Pc.hasSevered : Pc → Bool
  | .fire (.done _) => true
  | _ => false

def Pc.hasRecorded : Pc → Bool
  | .fire (.close _ true) | .fire (.done true) => true
  | _ => false

theorem Pc.hasFired_of_hasSevered {pc : Pc} (h : pc.hasSevered) : pc.hasFired := by
  unfold hasSevered at h
  split at h
  · rfl
  · cases h

theorem Pc.hasFired_of_hasRecorded {pc : Pc} (h : pc.hasRecorded) : pc.hasFired := by
  unfold hasRecorded at h
  split at h
  · rfl
  · rfl
  · cases h

def Pc.sawByte : Pc → Bool
  | .fire (.store _ true) | .fire (.close _ true) | .fire (.done true) => true
  | _ => false

theorem Pc.sawByte_of_hasRecorded {pc : Pc} (h : pc.hasRecorded) : pc.sawByte := by
  unfold hasRecorded at h
  split at h
  · rfl
  · rfl
  · cases h

/-- The window began no later than the generation, and is taken for the same one. -/
def Matches (i : ThreadId) (gen : ℕ) : Prop :=
  ∀ k, i = .callback k → k ≤ gen ∧ k % 2 ^ 64 = gen % 2 ^ 64

/-- What the callback of a window knows: the generation does not change while it holds the lock, and
it goes on with a generation that matches only. -/
def Fires (m : Memory) (i : ThreadId) : Pc → Prop
  | .fire (.check gen) => m.gen = gen ∧ ∀ k, i = .callback k → k ≤ gen
  | .fire (.unlock gen) | .fire (.load gen) => Matches i gen
  | .fire (.store gen _) | .fire (.close gen _) => Matches i gen
  | _ => True

/-- The bytes of the call of `Read`. -/
def ReadPc.bytes : ReadPc → Bytes
  | .got bs _ | .armIdle bs _ _ | .signal bs _ | .hasFired bs _ | .stop bs _ _ => bs
  | .ctxErr | .phase => []

/-- What the read of the body gave, if `Read` has not returned it yet. -/
def Pc.inHand : Pc → List Bytes
  | .read pc => [pc.bytes]
  | _ => []

/-- The bytes of the call of `Read` that have been noted in `sawFirstByte`. -/
def Pc.noted : Pc → Bytes
  | .read (.got _ _) => []
  | .read pc => pc.bytes
  | _ => []

/-- The bytes that the calls of `Read` have returned. -/
def delivered (s : Config ThreadId Memory Thread) : Bytes :=
  (s.threads .reader).returned.flatMap Prod.fst

variable {s s' : Config ThreadId Memory Thread}

structure Inv (s : Config ThreadId Memory Thread) : Prop where
  locked : Locked Memory.mu (fun t => t.pc.holdsLock = true) s
  flagged : Flagged Memory.fired (fun t => t.pc.hasFired = true) s
  timer : ∀ k, s.mem.timer = some k → k ≤ s.mem.gen
  expired : ∀ k ∈ s.mem.expired, k ≤ s.mem.gen
  fires : ∀ i, Fires s.mem i (s.threads i).pc
  once : s.mem.severed ≠ [] →
    s.mem.severed.length = 1 ∧ ∃ i, (s.threads i).pc.hasSevered = true
  severed : ∀ k gen, (k, gen) ∈ s.mem.severed → k ≤ gen ∧ k % 2 ^ 64 = gen % 2 ^ 64
  sees : ∀ i, (s.threads i).pc.sawByte = true → s.mem.sawFirstByte
  phase : s.mem.timedOutPhase = .idle ↔ ∃ i, (s.threads i).pc.hasRecorded = true
  reads : (s.threads .reader).reads.map Prod.fst =
    (s.threads .reader).returned.map Prod.fst ++ (s.threads .reader).pc.inHand
  saw : s.mem.sawFirstByte ↔ delivered s ++ (s.threads .reader).pc.noted ≠ []
  timeouts : ∀ r ∈ (s.threads .reader).returned, ∀ err, r.2 = some err → err.isTimeout →
    r.1 = []

/-! ### The watchdog -/

theorem locked_turn (h : Inv s) (ht : Turn i s.mem (s.threads i) c m t) :
    Locked Memory.mu (fun t => t.pc.holdsLock = true) ⟨m, update s.threads i t⟩ := by
  apply h.locked.update
  cases ht
  case armLock hpc hfree | stopLock hpc hfree | closeLock hpc hfree | fireLock hpc _ hfree =>
    exact .acquire hfree rfl
  case armSignal hpc | armReturn hpc | stopReturn hpc | closeUnlock hpc | fireDropped hpc |
      fireUnlock hpc =>
    exact .release (by rw [hpc]; rfl) (by simp [Pc.holdsLock, Thread.finish])
  all_goals exact .keep rfl (by simp [‹(s.threads i).pc = _›, Pc.holdsLock, Thread.finish])

theorem flagged_turn (h : Inv s) (ht : Turn i s.mem (s.threads i) c m t) :
    Flagged Memory.fired (fun t => t.pc.hasFired = true) ⟨m, update s.threads i t⟩ := by
  apply h.flagged.update
  cases ht
  case fireSwap hfired => exact .acquire hfired rfl rfl
  all_goals exact .keep rfl (by simp [‹(s.threads i).pc = _›, Pc.hasFired, Thread.finish])

theorem timer_turn (h : Inv s) (ht : Turn i s.mem (s.threads i) c m t) (k : ℕ)
    (hk : m.timer = some k) : k ≤ m.gen := by
  cases ht
  case armBody gen timer hgen htimer =>
    exact (htimer k hk).elim (fun heq => heq.le) fun hk => (h.timer k hk).trans hgen
  case stopBody | closeMark | expire => cases hk
  all_goals exact h.timer k hk

theorem expired_turn (h : Inv s) (ht : Turn i s.mem (s.threads i) c m t) (k : ℕ)
    (hk : k ∈ m.expired) : k ≤ m.gen := by
  cases ht
  case armBody hgen _ => exact (h.expired k hk).trans hgen
  case stopBody | closeMark => exact (h.expired k hk).trans (Nat.le_succ _)
  case expire htimer =>
    rcases mem_append.mp hk with hk | hk
    · exact h.expired k hk
    · cases mem_singleton.mp hk
      exact h.timer k htimer
  all_goals exact h.expired k hk

theorem Fires.mono {j} {pc : Pc} (h : Fires m j pc)
    (hgen : pc.holdsLock → m'.gen = m.gen) : Fires m' j pc := by
  unfold Fires at h ⊢
  split at h
  case h_1 => exact ⟨(hgen rfl).trans h.1, h.2⟩
  all_goals exact h

theorem fires_turn (h : Inv s) (ht : Turn i s.mem (s.threads i) c m t) (j) :
    Fires m j (update s.threads i t j).pc := by
  by_cases hij : j = i
  · subst hij
    rw [update_self]
    have hown := h.fires j
    cases ht
    case fireLock k hi hpc hexpired hfree =>
      subst hi
      refine ⟨rfl, fun k' hk' => ?_⟩
      cases hk'
      exact h.expired k hexpired
    case fireSwap k gen hi hpc hgen hfired =>
      subst hi
      rw [hpc] at hown
      obtain ⟨rfl, hle⟩ := hown
      intro k' hk'
      cases hk'
      exact ⟨hle k rfl, hgen⟩
    case fireUnlock gen hi hpc | fireLoad gen hi hpc =>
      rw [hpc] at hown
      exact hown
    case fireStore gen saw hi hpc =>
      rw [hpc] at hown
      exact hown
    case expire hpc _ | cancel hpc =>
      rw [hpc]
      trivial
    all_goals trivial
  · rw [update_of_ne hij]
    refine (h.fires j).mono fun hlock => ?_
    have hnot : (s.threads i).pc.holdsLock = true → False :=
      fun hi => hij (h.locked.unique hlock hi)
    cases ht
    case armBody bs firstByte hi hpc gen timer hgen htimer => exact (hnot (by rw [hpc]; rfl)).elim
    case stopBody hpc | closeMark hpc => exact (hnot (by rw [hpc]; rfl)).elim
    all_goals rfl

theorem once_turn (h : Inv s) (ht : Turn i s.mem (s.threads i) c m t) (hne : m.severed ≠ []) :
    m.severed.length = 1 ∧ ∃ j, (update s.threads i t j).pc.hasSevered = true := by
  by_cases hclose : ∃ gen saw, (s.threads i).pc = .fire (.close gen saw)
  · obtain ⟨gen, saw, hpc⟩ := hclose
    have hnil : s.mem.severed = [] := by
      by_contra hsevered
      obtain ⟨-, j, hj⟩ := h.once hsevered
      cases h.flagged.unique j i (Pc.hasFired_of_hasSevered hj) (by rw [hpc]; rfl)
      rw [hpc] at hj
      cases hj
    cases ht
    case fireClose => exact ⟨by simp [hnil], i, by rw [update_self]; rfl⟩
    all_goals simp_all
  have hsame : m.severed = s.mem.severed := by
    cases ht
    case fireClose k gen saw hi hpc => exact (hclose ⟨gen, saw, hpc⟩).elim
    all_goals rfl
  rw [hsame] at hne ⊢
  obtain ⟨hlen, j, hj⟩ := h.once hne
  refine ⟨hlen, j, ?_⟩
  by_cases hij : j = i
  · subst hij
    rw [update_self]
    -- a callback that is done has no turn
    cases ht
    all_goals simp_all [Pc.hasSevered]
  · rwa [update_of_ne hij]

theorem severed_turn (h : Inv s) (ht : Turn i s.mem (s.threads i) c m t) (k gen : ℕ)
    (hk : (k, gen) ∈ m.severed) : k ≤ gen ∧ k % 2 ^ 64 = gen % 2 ^ 64 := by
  cases ht
  case fireClose k' gen' saw hi hpc =>
    rcases mem_append.mp hk with hk | hk
    · exact h.severed k gen hk
    cases mem_singleton.mp hk
    have hown := h.fires i
    rw [hpc] at hown
    exact hown k hi
  all_goals exact h.severed k gen hk

theorem sees_turn (h : Inv s) (ht : Turn i s.mem (s.threads i) c m t) (j)
    (hj : (update s.threads i t j).pc.sawByte = true) : m.sawFirstByte := by
  have hmono : s.mem.sawFirstByte → m.sawFirstByte := by
    intro hsaw
    cases ht
    case swapArm | swapSignal | swapFired => rfl
    all_goals exact hsaw
  by_cases hij : j = i
  · subst hij
    rw [update_self] at hj
    cases ht
    case fireLoad gen hi hpc =>
      cases hsaw : s.mem.sawFirstByte with
      | true => rfl
      | false =>
        rw [hsaw] at hj
        cases hj
    case fireStore gen saw hi hpc =>
      cases saw with
      | true => exact h.sees j (by rw [hpc]; rfl)
      | false => cases hj
    case fireClose k gen saw hi hpc =>
      cases saw with
      | true => exact h.sees j (by rw [hpc]; rfl)
      | false => cases hj
    case expire | cancel => exact h.sees j hj
    all_goals cases hj
  · rw [update_of_ne hij] at hj
    exact hmono (h.sees j hj)

theorem phase_turn (h : Inv s) (ht : Turn i s.mem (s.threads i) c m t) :
    m.timedOutPhase = .idle ↔ ∃ j, (update s.threads i t j).pc.hasRecorded = true := by
  have hsame (hphase : m.timedOutPhase = s.mem.timedOutPhase)
      (hrecorded : t.pc.hasRecorded = (s.threads i).pc.hasRecorded) :
      m.timedOutPhase = .idle ↔ ∃ j, (update s.threads i t j).pc.hasRecorded = true := by
    rw [hphase, h.phase]
    refine exists_congr fun j => ?_
    by_cases hij : j = i
    · subst hij
      rw [update_self, hrecorded]
    · rw [update_of_ne hij]
  cases ht
  case fireStore gen saw hi hpc =>
    cases saw with
    | true => exact iff_of_true rfl ⟨i, by rw [update_self]; rfl⟩
    | false =>
      refine iff_of_false (fun hc => (by cases hc)) ?_
      rintro ⟨j, hj⟩
      by_cases hij : j = i
      · subst hij
        rw [update_self] at hj
        cases hj
      -- the other callback would have fired as well
      rw [update_of_ne hij] at hj
      exact hij (h.flagged.unique j i (Pc.hasFired_of_hasRecorded hj) (by rw [hpc]; rfl))
  case fireClose k gen saw hi hpc =>
    exact hsame rfl (by cases saw <;> simp [hpc, Pc.hasRecorded])
  all_goals exact hsame rfl (by simp [‹(s.threads i).pc = _›, Pc.hasRecorded, Thread.finish])

/-! ### The reading thread -/

theorem saw_of_ne_reader (ht : Turn i m t c m' t') (hi : i ≠ .reader) :
    m'.sawFirstByte = m.sawFirstByte := by
  cases ht
  case swapArm hr _ | swapSignal hr _ | swapFired hr _ => exact absurd hr hi
  all_goals rfl

theorem reads_turn (ht : Turn i m t c m' t') (hi : i = .reader)
    (h : t.reads.map Prod.fst = t.returned.map Prod.fst ++ t.pc.inHand) :
    t'.reads.map Prod.fst = t'.returned.map Prod.fst ++ t'.pc.inHand := by
  cases ht
  all_goals simp_all [Pc.inHand, ReadPc.bytes, Thread.finish]

theorem saw_turn (ht : Turn i m t c m' t') (hi : i = .reader)
    (h : m.sawFirstByte ↔ t.returned.flatMap Prod.fst ++ t.pc.noted ≠ []) :
    m'.sawFirstByte ↔ t'.returned.flatMap Prod.fst ++ t'.pc.noted ≠ [] := by
  cases ht
  all_goals simp_all [Pc.noted, ReadPc.bytes, Thread.finish, Memory.stop]

theorem timeouts_turn (ht : Turn i m t c m' t')
    (h : ∀ r ∈ t.returned, ∀ err, r.2 = some err → err.isTimeout → r.1 = []) :
    ∀ r ∈ t'.returned, ∀ err, r.2 = some err → err.isTimeout → r.1 = [] := by
  have happend (r : Bytes × Option ReadError)
      (hr : ∀ err, r.2 = some err → err.isTimeout → r.1 = []) :
      ∀ r' ∈ t.returned ++ [r], ∀ err, r'.2 = some err → err.isTimeout → r'.1 = [] := by
    intro r' hr'
    rcases mem_append.mp hr' with hr' | hr'
    · exact h r' hr'
    · cases mem_singleton.mp hr'
      exact hr
  cases ht
  case emptyReturn | ctxReturn | phaseReturn => exact happend _ fun _ _ _ => rfl
  case armReturn | signalReturn | firedReturn => exact happend _ fun _ herr => (by cases herr)
  case stopReturn bs err hi hpc =>
    refine happend _ fun err' herr' htimeout => ?_
    cases herr'
    cases htimeout
  all_goals exact h

/-! ### Runs -/

theorem inv_init (p) : Inv (init p) where
  locked := fun _ h => (by cases h)
  flagged := by
    have hfired : (init p).mem.fired = false := by
      unfold init
      split <;> rfl
    exact ⟨fun _ h => (by cases h), fun _ _ h => (by cases h), fun h => (by rw [hfired] at h; cases h)⟩
  timer := by
    unfold init
    split
    · rintro k ⟨⟩
      exact le_rfl
    · rintro k ⟨⟩
  expired := by
    unfold init
    split <;> exact fun k hk => absurd hk not_mem_nil
  fires := fun _ => trivial
  once := by
    unfold init
    split <;> exact fun h => absurd rfl h
  severed := by
    unfold init
    split <;> exact fun k gen hk => absurd hk not_mem_nil
  sees := fun _ h => (by cases h)
  phase := by
    unfold init
    split <;> exact iff_of_false (fun h => (by cases h)) fun ⟨_, h⟩ => (by cases h)
  reads := rfl
  saw := by
    unfold init
    split <;> exact iff_of_false (fun h => (by cases h)) fun h => absurd rfl h
  timeouts := fun _ hr => absurd hr not_mem_nil

theorem inv_next {p turn} (h : Inv s) (hnext : (program p).next turn s = some s') : Inv s' := by
  obtain ⟨m, t, hprogram, rfl⟩ := Program.next_eq_some_iff.mp hnext
  have ht := turn_of_program hprogram
  have hreader : (turn.1 = .reader ∧ update s.threads turn.1 t .reader = t ∧
      s.threads .reader = s.threads turn.1) ∨
      turn.1 ≠ .reader ∧ update s.threads turn.1 t .reader = s.threads .reader := by
    by_cases hi : turn.1 = .reader
    · refine .inl ⟨hi, ?_, by rw [hi]⟩
      rw [← hi, update_self]
    · exact .inr ⟨hi, update_of_ne (Ne.symm hi) _ _⟩
  exact {
    locked := locked_turn h ht
    flagged := flagged_turn h ht
    timer := timer_turn h ht
    expired := expired_turn h ht
    fires := fires_turn h ht
    once := once_turn h ht
    severed := severed_turn h ht
    sees := sees_turn h ht
    phase := phase_turn h ht
    reads := by
      rcases hreader with ⟨hi, hupdate, hsame⟩ | ⟨-, hupdate⟩
      · dsimp only
        rw [hupdate]
        exact reads_turn ht hi (hsame ▸ h.reads)
      dsimp only
      rw [hupdate]
      exact h.reads
    saw := by
      unfold delivered
      rcases hreader with ⟨hi, hupdate, hsame⟩ | ⟨hi, hupdate⟩
      · dsimp only
        rw [hupdate]
        exact saw_turn ht hi (hsame ▸ h.saw)
      dsimp only
      rw [hupdate, saw_of_ne_reader ht hi]
      exact h.saw
    timeouts := by
      rcases hreader with ⟨-, hupdate, hsame⟩ | ⟨-, hupdate⟩
      · dsimp only
        rw [hupdate]
        exact timeouts_turn ht (hsame ▸ h.timeouts)
      dsimp only
      rw [hupdate]
      exact h.timeouts }

variable {p : Params} {Ok : ThreadId × Choice → Config ThreadId Memory Thread → Prop}

theorem inv_of_reaches (h : Program.Reaches (program p) Ok (init p) s) : Inv s :=
  h.invariant (inv_init p) fun _ _ _ _ hinv hnext => inv_next hinv hnext

/-- The callback that fired has recorded that the first byte had come. -/
def Recorded (s : Config ThreadId Memory Thread) : Prop :=
  ∃ i, (s.threads i).pc.hasRecorded = true

/-- A call of `Read` has returned an error, and no bytes. -/
def Fails (err : ReadError) (s s' : Config ThreadId Memory Thread) : Prop :=
  (s'.threads .reader).returned = (s.threads .reader).returned ++ [([], some err)]

theorem phase_of_fails {turn err}
    (hnext : (program p).next turn s = some s') (hfails : Fails err s s')
    (htimeout : err.isTimeout) : (s.threads .reader).pc = .read .phase ∧
      err = match s.mem.timedOutPhase with
        | .firstBody => .firstBodyTimeout
        | .idle => .idleTimeout := by
  obtain ⟨m, t, hprogram, rfl⟩ := Program.next_eq_some_iff.mp hnext
  obtain ⟨i, c⟩ := turn
  dsimp only at hprogram hfails
  unfold Fails at hfails
  by_cases hi : i = .reader
  · subst hi
    dsimp only at hfails
    rw [update_self] at hfails
    have hlast {bs : Bytes} {e : Option ReadError}
        (h : (s.threads .reader).returned ++ [(bs, e)] =
          (s.threads .reader).returned ++ [([], some err)]) : e = some err :=
      congrArg Prod.snd (singleton_inj.mp (append_cancel_left h))
    cases turn_of_program hprogram
    case phaseReturn err' hi hpc herr =>
      cases hlast hfails
      exact ⟨hpc, herr⟩
    case emptyReturn | armReturn | signalReturn | firedReturn => cases hlast hfails
    case stopReturn | ctxReturn =>
      cases hlast hfails
      cases htimeout
    all_goals exact absurd hfails.symm (by simp)
  · dsimp only at hfails
    rw [update_of_ne (Ne.symm hi)] at hfails
    exact absurd hfails.symm (by simp)

/-- A deadline severs the connection at most once, and for a window that was replaced only after
2^64 other windows. The calls of `Read` return what the reads of the body gave, in order, and a
timeout without bytes. A timeout names the right deadline if and only if no byte was delivered
before it or the callback that fired has recorded the first byte. -/
theorem stream_deadlines (h : Program.Reaches (program p) Ok (init p) s) :
    s.mem.severed.length ≤ 1 ∧
      (∀ k gen, (k, gen) ∈ s.mem.severed → (k = gen ↔ gen < k + 2 ^ 64)) ∧
      (s.threads .reader).reads.map Prod.fst =
        (s.threads .reader).returned.map Prod.fst ++ (s.threads .reader).pc.inHand ∧
      (∀ r ∈ (s.threads .reader).returned, ∀ err, r.2 = some err → err.isTimeout = true →
        r.1 = []) ∧
      ∀ turn s' err, (program p).next turn s = some s' → Fails err s s' → err.isTimeout = true →
        ((err = .firstBodyTimeout ↔ delivered s = []) ↔ delivered s = [] ∨ Recorded s) := by
  have hinv := inv_of_reaches h
  refine ⟨?_, fun k gen hk => ?_, hinv.reads, hinv.timeouts, fun turn s' err hnext hfails hout => ?_⟩
  · by_cases hnil : s.mem.severed = []
    · rw [hnil]
      exact Nat.zero_le _
    · exact (hinv.once hnil).1.le
  · obtain ⟨hle, hmod⟩ := hinv.severed k gen hk
    omega
  obtain ⟨hpc, herr⟩ := phase_of_fails hnext hfails hout
  have hsaw : s.mem.sawFirstByte = true ↔ delivered s ≠ [] := by
    simpa only [hpc, Pc.noted, ReadPc.bytes, List.append_nil] using hinv.saw
  have hfirst : err = .firstBodyTimeout ↔ ¬Recorded s := by
    rw [Recorded, ← hinv.phase, herr]
    cases s.mem.timedOutPhase <;> simp
  have hrecorded : Recorded s → delivered s ≠ [] := by
    rintro ⟨i, hi⟩
    exact hsaw.mp (hinv.sees i (Pc.sawByte_of_hasRecorded hi))
  rw [hfirst]
  by_cases hr : Recorded s
  · simp [hr, hrecorded hr]
  · simp [hr]

instance (err : ReadError) (s s' : Config ThreadId Memory Thread) : Decidable (Fails err s s') :=
  inferInstanceAs (Decidable (_ = _))

theorem exists_fails {turns : List (ThreadId × Choice)} {err : ReadError}
    {Q : Config ThreadId Memory Thread → Bool}
    (h : ((program p).exec (fun _ _ => true) turns (init p)).any (fun s =>
      Q s && ((program p).next (.reader, .go) s).any fun s' => Fails err s s') = true) :
    ∃ s s', Program.Reaches (program p) (fun _ _ => true = true) (init p) s ∧
      (program p).next (.reader, .go) s = some s' ∧ Fails err s s' ∧ Q s := by
  obtain ⟨s, hs, hend⟩ := (any_eq_true _ _).mp h
  obtain ⟨hq, hnext⟩ := Bool.and_eq_true_iff.mp hend
  obtain ⟨s', hs', hfails⟩ := (any_eq_true _ _).mp hnext
  exact ⟨s, s', Program.reaches_of_exec hs, hs', of_decide_eq_true hfails, hq⟩

/-- No body comes, and the callback of the first window closes the connection. -/
def stall : List (ThreadId × Choice) :=
  (.clock, .go) :: List.replicate 6 (.callback 1, .go) ++
    [(.reader, .read [] (some ⟨"use of closed network connection", true⟩)), (.reader, .go),
      (.reader, .go)]

theorem stream_deadlines_stall :
    ∃ s s', Program.Reaches (program ⟨false, 1, 1⟩) (fun _ _ => true = true) (init ⟨false, 1, 1⟩) s ∧
      (program ⟨false, 1, 1⟩).next (.reader, .go) s = some s' ∧ Fails .firstBodyTimeout s s' ∧
      s.mem.severed = [(1, 1)] ∧
      ((ReadError.firstBodyTimeout = .firstBodyTimeout ↔ delivered s = []) ↔
        delivered s = [] ∨ Recorded s) := by
  have hend : ((program ⟨false, 1, 1⟩).exec (fun _ _ => true) stall (init ⟨false, 1, 1⟩)).any
      (fun s => decide (s.mem.severed = [(1, 1)]) &&
        ((program ⟨false, 1, 1⟩).next (.reader, .go) s).any fun s' =>
          Fails .firstBodyTimeout s s') = true := by
    decide +kernel
  obtain ⟨s, s', hreaches, hnext, hfails, hsevered⟩ := exists_fails hend
  exact ⟨s, s', hreaches, hnext, hfails, of_decide_eq_true hsevered,
    (stream_deadlines hreaches).2.2.2.2 _ s' _ hnext hfails rfl⟩

def endWhileFiring : List (ThreadId × Choice) :=
  (.reader, .read [0x61] none) :: List.replicate 4 (.reader, .go) ++
    [(.clock, .go), (.callback 1, .go), (.callback 1, .go),
      (.reader, .read [] (some ⟨"EOF", false⟩)), (.reader, .go), (.reader, .go)]

/-- A timeout of the first body is returned after a byte. -/
theorem firstBodyTimeout_after_byte :
    ∃ s s', Program.Reaches (program ⟨false, 0, 1⟩) (fun _ _ => true = true) (init ⟨false, 0, 1⟩) s ∧
      (program ⟨false, 0, 1⟩).next (.reader, .go) s = some s' ∧ Fails .firstBodyTimeout s s' ∧
      delivered s = [0x61] := by
  have hend : ((program ⟨false, 0, 1⟩).exec (fun _ _ => true) endWhileFiring
      (init ⟨false, 0, 1⟩)).any (fun s => decide (delivered s = [0x61]) &&
        ((program ⟨false, 0, 1⟩).next (.reader, .go) s).any fun s' =>
          Fails .firstBodyTimeout s s') = true := by
    decide +kernel
  obtain ⟨s, s', hreaches, hnext, hfails, hdelivered⟩ := exists_fails hend
  exact ⟨s, s', hreaches, hnext, hfails, of_decide_eq_true hdelivered⟩

end BamlRest.ExactStream
