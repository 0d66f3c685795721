import BamlRest.Lib.Interleave
import BamlRest.Text.Bytes

/-!
# Restarts of workers under concurrent calls

A worker that fails is replaced: `restartWorker` starts another one, swaps it into the slot and
kills the old one.
-/

namespace BamlRest.HotSwap

open Interleave

abbrev ThreadId := ℕ

/-- `*workerHandle`. -/
structure HandleRef where
  id : ℕ
  serial : ℕ
  deriving DecidableEq

/-- A channel that is closed when a restart of the handle ends. -/
structure ChanRef where
  handle : HandleRef
  serial : ℕ
  deriving DecidableEq

/-- `workerHandle`: `restartMu` with the thread that holds it, `restartCond` with the threads that
wait, and whether the worker was started and killed. -/
structure Handle where
  healthy : Bool
  restartPending : ℤ
  restarting : Bool
  restartMu : Option ThreadId
  restartCond : List ThreadId
  restartDone : Option ChanRef
  started : Bool
  killed : Bool

/-- Who runs a restart: a caller, the goroutine of `dispatchRestart`, or that of `awaitRestart`,
which closes a channel at the end. -/
inductive Origin where
  | call
  | dispatched
  | awaited (done : ChanRef)
  deriving DecidableEq

/-- A goroutine that is started. -/
inductive Goroutine where
  | restart (origin : Origin) (failed : HandleRef)
  | reap (failed : HandleRef)
  deriving DecidableEq

/-- `Pool`, with what its pointers point to. -/
structure Memory where
  size : ℕ
  workers : ℕ → Option HandleRef
  handle : HandleRef → Handle
  isOpen : ChanRef → Bool
  writer : Option ThreadId
  readers : ℕ
  restartMu : Option ThreadId
  restartWG : ℕ
  closed : Bool
  drainClosed : Bool
  doneClosed : Bool
  ready : List Goroutine
  nextHandle : ℕ
  nextChan : ℕ

def Handle.new (started : Bool) : Handle := ⟨started, 0, false, none, [], none, started, false⟩

/-- A pool of the given size, with its workers started. -/
def Memory.new (size : ℕ) : Memory where
  size := size
  workers := fun k => if k < size then some ⟨k, 0⟩ else none
  handle := fun h => .new (decide (h.id < size ∧ h.serial = 0))
  isOpen := fun _ => false
  writer := none
  readers := 0
  restartMu := none
  restartWG := 0
  closed := false
  drainClosed := false
  doneClosed := false
  ready := []
  nextHandle := 1
  nextChan := 0

namespace Memory

/-- A handle is changed. -/
@[simps]
def setHandle (m : Memory) (h : HandleRef) (f : Handle → Handle) : Memory :=
  { m with handle := Function.update m.handle h (f (m.handle h)) }

/-- The process of a worker is killed. -/
@[simps!]
def kill (m : Memory) (h : HandleRef) : Memory :=
  m.setHandle h fun x => { x with killed := true }

/-- A goroutine is ready to run. -/
@[simps]
def spawn (m : Memory) (g : Goroutine) : Memory :=
  { m with ready := g :: m.ready }

/-- Start a worker for a slot. What is not started yet is as good as new. -/
@[simps!]
def startHandle (m : Memory) (id : ℕ) : Memory :=
  { m.setHandle ⟨id, m.nextHandle⟩ fun x => { x with healthy := true, started := true } with
    nextHandle := m.nextHandle + 1 }

/-- A channel to wait on. -/
@[simps]
def makeChan (m : Memory) (h : HandleRef) : Memory :=
  { m with isOpen := Function.update m.isOpen ⟨h, m.nextChan⟩ true, nextChan := m.nextChan + 1 }

/-- Everyone who waits wakes up. -/
@[simps]
def closeChan (m : Memory) (ch : ChanRef) : Memory :=
  { m with isOpen := Function.update m.isOpen ch false }

@[simps]
def setWriter (m : Memory) (i : Option ThreadId) : Memory := { m with writer := i }

@[simps]
def setRestartMu (m : Memory) (i : Option ThreadId) : Memory := { m with restartMu := i }

end Memory

/-! ## Where a thread stands -/

/-- The places in `restartWorker`. -/
inductive RestartPc where
  | earlyCheck
  | cas
  | loserLock
  | loserCheck
  | loserEnter
  | loserWait
  | loserUnlock
  | pubLock
  | publish
  | pubUnlock
  | doubleCheck
  | doubleClosed (stale : Bool)
  | startStop
  | starting
  | startErr
  | failLock
  | failMark
  | failUnlock
  | failKill
  | swapLock (new : HandleRef)
  | swapClosed (new : HandleRef)
  | swapSlot (new : HandleRef)
  | dropUnlock (new : HandleRef)
  | dropKill (new : HandleRef)
  | swapUnlock
  | swapKill
  | finLock
  | finStore
  | finClose
  | finBroadcast
  | finUnlock
  | pendingDone
  | wgDone
  | closeDone
  deriving DecidableEq

/-- The places in `dispatchRestart`, and before it those of `killWorkerAndRetry`. -/
inductive DispatchPc where
  | markUnhealthy
  | kill
  | lock
  | check
  | add
  | pend
  | unlock
  | refuse
  | spawn
  deriving DecidableEq

/-- The places in `awaitRestart`; `snap` is `snapshotRestartState`. -/
inductive AwaitPc where
  | snapLock (sawPending : Bool)
  | snapDone (sawPending : Bool)
  | snapPending (sawPending : Bool) (ch : Option ChanRef)
  | snapRestarting (sawPending : Bool) (ch : Option ChanRef)
  | snapUnlock (sawPending : Bool) (ch : Option ChanRef) (visible : Bool)
  | poll
  | drainCheck
  | spawn
  | wait (ch : ChanRef)
  deriving DecidableEq

/-- The places in `Close`. -/
inductive ClosePc where
  | swap
  | drain
  | done
  | fence
  | unfence
  | snapshot
  | kill (todo : List HandleRef)
  | wait
  deriving DecidableEq

/-- The places in `reapWorkerStartResult`. -/
inductive ReapPc where
  | wait
  | kill (late : HandleRef)
  deriving DecidableEq

/-- Where a thread stands. -/
inductive Pc where
  | idle
  | restart (origin : Origin) (failed : HandleRef) (pc : RestartPc)
  | dispatch (handle : HandleRef) (pc : DispatchPc)
  | await (handle : HandleRef) (pc : AwaitPc)
  | close (pc : ClosePc)
  | reap (failed : HandleRef) (pc : ReapPc)
  | ended
  /-- the `Close` that has closed the pool has returned -/
  | closed
  deriving DecidableEq

def Pc.inProgress : Pc → Bool
  | .idle | .ended | .closed => false
  | _ => true

/-- What may be called from outside. -/
inductive Call where
  | restartWorker (failed : HandleRef)
  | dispatchRestart (handle : HandleRef)
  | killWorkerAndRetry (handle : HandleRef)
  | awaitRestart (handle : HandleRef)
  | close
  deriving DecidableEq

/-- What a turn may choose: the call or the goroutine to run, how a start ends, and which case of a
`select` is taken. -/
inductive Choice where
  | start (call : Call)
  | run (g : Goroutine)
  | go
  | started
  | startFailed
  | timedOut
  | stopped
  | received
  | drained
  | cancelled
  deriving DecidableEq

/-! ## Turns -/

/-- The end of `restartWorker`. -/
def Origin.returns (origin : Origin) (failed : HandleRef) : Pc :=
  match origin with
  | .call => .ended
  | .dispatched => .restart origin failed .pendingDone
  | .awaited _ => .restart origin failed .closeDone

/-- A turn of `restartWorker`. -/
def restartWorker (hasTimeout : Bool) (i : ThreadId) (origin : Origin) (failed : HandleRef)
    (c : Choice) (m : Memory) (pc : RestartPc) : Option (Memory × Pc) :=
  let at_ := Pc.restart origin failed
  match pc, c with
  | .earlyCheck, .go =>
    if m.writer = none then
      if m.workers failed.id = some failed then some (m, at_ .cas)
      else some (m, origin.returns failed)
    else none
  | .cas, .go =>
    if (m.handle failed).restarting then some (m, at_ .loserLock)
    else some (m.setHandle failed fun h => { h with restarting := true }, at_ .pubLock)
  -- the restart of another thread is in progress
  | .loserLock, .go =>
    if (m.handle failed).restartMu = none then
      some (m.setHandle failed fun h => { h with restartMu := some i }, at_ .loserCheck)
    else none
  | .loserCheck, .go =>
    if (m.handle failed).restarting then some (m, at_ .loserEnter)
    else some (m, at_ .loserUnlock)
  | .loserEnter, .go =>
    some (m.setHandle failed fun h =>
      { h with restartMu := none, restartCond := i :: h.restartCond }, at_ .loserWait)
  | .loserWait, .go =>
    if i ∈ (m.handle failed).restartCond then none else some (m, at_ .loserLock)
  | .loserUnlock, .go =>
    some (m.setHandle failed fun h => { h with restartMu := none }, origin.returns failed)
  -- publish the channel
  | .pubLock, .go =>
    if (m.handle failed).restartMu = none then
      some (m.setHandle failed fun h => { h with restartMu := some i }, at_ .publish)
    else none
  | .publish, .go =>
    some ((m.makeChan failed).setHandle failed fun h =>
      { h with restartDone := some ⟨failed, m.nextChan⟩ }, at_ .pubUnlock)
  | .pubUnlock, .go =>
    some (m.setHandle failed fun h => { h with restartMu := none }, at_ .doubleCheck)
  -- look again
  | .doubleCheck, .go =>
    if m.writer = none then
      some ({ m with readers := m.readers + 1 },
        at_ (.doubleClosed (m.workers failed.id ≠ some failed)))
    else none
  | .doubleClosed stale, .go =>
    some ({ m with readers := m.readers - 1 },
      if stale || m.closed then at_ .finLock else at_ .startStop)
  -- startWorkerWithStop
  | .startStop, .go => some (m, if m.doneClosed then at_ .finLock else at_ .starting)
  | .starting, .started => some (m.startHandle failed.id, at_ (.swapLock ⟨failed.id, m.nextHandle⟩))
  | .starting, .startFailed => some (m, at_ .startErr)
  | .starting, .timedOut =>
    if hasTimeout then some (m.spawn (.reap failed), at_ .startErr) else none
  | .starting, .stopped =>
    if m.doneClosed then some (m.spawn (.reap failed), at_ .finLock) else none
  -- the start has failed
  | .startErr, .go => some (m, if m.closed then at_ .finLock else at_ .failLock)
  | .failLock, .go =>
    if m.writer = none ∧ m.readers = 0 then some (m.setWriter (some i), at_ .failMark) else none
  | .failMark, .go =>
    if m.workers failed.id = some failed then
      some (m.setHandle failed fun h => { h with healthy := false }, at_ .failUnlock)
    else some (m, at_ .failUnlock)
  | .failUnlock, .go => some (m.setWriter none, at_ .failKill)
  | .failKill, .go => some (m.kill failed, at_ .finLock)
  -- swap the new worker in
  | .swapLock new, .go =>
    if m.writer = none ∧ m.readers = 0 then some (m.setWriter (some i), at_ (.swapClosed new))
    else none
  | .swapClosed new, .go =>
    some (m, if m.closed then at_ (.dropUnlock new) else at_ (.swapSlot new))
  | .swapSlot new, .go =>
    if m.workers failed.id = some failed then
      some ({ m with workers := Function.update m.workers failed.id (some new) }, at_ .swapUnlock)
    else some (m, at_ (.dropUnlock new))
  | .dropUnlock new, .go => some (m.setWriter none, at_ (.dropKill new))
  | .dropKill new, .go => some (m.kill new, at_ .finLock)
  | .swapUnlock, .go => some (m.setWriter none, at_ .swapKill)
  | .swapKill, .go => some (m.kill failed, at_ .finLock)
  -- finishRestart
  | .finLock, .go =>
    if (m.handle failed).restartMu = none then
      some (m.setHandle failed fun h => { h with restartMu := some i }, at_ .finStore)
    else none
  | .finStore, .go =>
    some (m.setHandle failed fun h => { h with restarting := false }, at_ .finClose)
  | .finClose, .go =>
    match (m.handle failed).restartDone with
    | some ch =>
      some ((m.closeChan ch).setHandle failed fun h => { h with restartDone := none },
        at_ .finBroadcast)
    | none => some (m, at_ .finBroadcast)
  | .finBroadcast, .go =>
    some (m.setHandle failed fun h => { h with restartCond := [] }, at_ .finUnlock)
  | .finUnlock, .go =>
    some (m.setHandle failed fun h => { h with restartMu := none }, origin.returns failed)
  -- the goroutine around the call
  | .pendingDone, .go =>
    some (m.setHandle failed fun h => { h with restartPending := h.restartPending - 1 },
      at_ .wgDone)
  | .wgDone, .go =>
    match origin with
    | .dispatched => some ({ m with restartWG := m.restartWG - 1 }, .ended)
    | _ => none
  | .closeDone, .go =>
    match origin with
    | .awaited ch => some (m.closeChan ch, .ended)
    | _ => none
  | _, _ => none

/-- A turn of `dispatchRestart`, or of what precedes it in `killWorkerAndRetry`. -/
def dispatchRestart (i : ThreadId) (handle : HandleRef) (c : Choice) (m : Memory)
    (pc : DispatchPc) : Option (Memory × Pc) :=
  let at_ := Pc.dispatch handle
  match pc, c with
  | .markUnhealthy, .go =>
    some (m.setHandle handle fun h => { h with healthy := false }, at_ .kill)
  | .kill, .go => some (m.kill handle, at_ .lock)
  | .lock, .go =>
    if m.restartMu = none then some (m.setRestartMu (some i), at_ .check) else none
  | .check, .go => some (m, if m.closed then at_ .refuse else at_ .add)
  | .refuse, .go => some (m.setRestartMu none, .ended)
  | .add, .go => some ({ m with restartWG := m.restartWG + 1 }, at_ .pend)
  | .pend, .go =>
    some (m.setHandle handle fun h => { h with restartPending := h.restartPending + 1 },
      at_ .unlock)
  | .unlock, .go => some (m.setRestartMu none, at_ .spawn)
  | .spawn, .go => some (m.spawn (.restart .dispatched handle), .ended)
  | _, _ => none

/-- A turn of `awaitRestart`. -/
def awaitRestart (i : ThreadId) (handle : HandleRef) (c : Choice) (m : Memory) (pc : AwaitPc) :
    Option (Memory × Pc) :=
  let at_ := Pc.await handle
  match pc, c with
  | .snapLock saw, .go =>
    if (m.handle handle).restartMu = none then
      some (m.setHandle handle fun h => { h with restartMu := some i }, at_ (.snapDone saw))
    else none
  | .snapDone saw, .go => some (m, at_ (.snapPending saw (m.handle handle).restartDone))
  | .snapPending saw ch, .go =>
    if 0 < (m.handle handle).restartPending then some (m, at_ (.snapUnlock saw ch true))
    else some (m, at_ (.snapRestarting saw ch))
  | .snapRestarting saw ch, .go =>
    some (m, at_ (.snapUnlock saw ch ((m.handle handle).restarting || ch.isSome)))
  | .snapUnlock saw ch visible, .go =>
    some (m.setHandle handle fun h => { h with restartMu := none },
      match ch with
      | some ch => at_ (.wait ch)
      | none => if visible then at_ .poll else if saw then .ended else at_ .drainCheck)
  | .poll, .go => if m.drainClosed then none else some (m, at_ (.snapLock true))
  | .poll, .drained => if m.drainClosed then some (m, .ended) else none
  | .poll, .cancelled => some (m, .ended)
  | .drainCheck, .go => some (m, if m.drainClosed then .ended else at_ .spawn)
  | .spawn, .go =>
    some ((m.makeChan handle).spawn (.restart (.awaited ⟨handle, m.nextChan⟩) handle),
      at_ (.wait ⟨handle, m.nextChan⟩))
  | .wait ch, .received => if m.isOpen ch then none else some (m, .ended)
  | .wait _, .drained => if m.drainClosed then some (m, .ended) else none
  | .wait _, .cancelled => some (m, .ended)
  | _, _ => none

/-- A turn of `Close`. -/
def close (i : ThreadId) (c : Choice) (m : Memory) (pc : ClosePc) : Option (Memory × Pc) :=
  match pc, c with
  | .swap, .go =>
    if m.closed then some (m, .ended) else some ({ m with closed := true }, .close .drain)
  | .drain, .go => some ({ m with drainClosed := true }, .close .done)
  | .done, .go => some ({ m with doneClosed := true }, .close .fence)
  | .fence, .go =>
    if m.restartMu = none then some (m.setRestartMu (some i), .close .unfence) else none
  | .unfence, .go => some (m.setRestartMu none, .close .snapshot)
  | .snapshot, .go =>
    if m.writer = none then
      some (m, .close (.kill ((List.range m.size).filterMap m.workers)))
    else none
  | .kill (h :: todo), .go => some (m.kill h, .close (.kill todo))
  | .kill [], .go => some (m, .close .wait)
  | .wait, .go => if m.restartWG = 0 then some (m, .closed) else none
  | _, _ => none

/-- A turn of `reapWorkerStartResult`, for a start that nobody waits for any more. -/
def reap (failed : HandleRef) (c : Choice) (m : Memory) (pc : ReapPc) : Option (Memory × Pc) :=
  match pc, c with
  | .wait, .started => some (m.startHandle failed.id, .reap failed (.kill ⟨failed.id, m.nextHandle⟩))
  | .wait, .startFailed => some (m, .ended)
  | .kill late, .go => some (m.kill late, .ended)
  | _, _ => none

def Call.handle : Call → Option HandleRef
  | .restartWorker h | .dispatchRestart h | .killWorkerAndRetry h | .awaitRestart h => some h
  | .close => none

def Call.entry : Call → Pc
  | .restartWorker failed => .restart .call failed .earlyCheck
  | .dispatchRestart h => .dispatch h .lock
  | .killWorkerAndRetry h => .dispatch h .markUnhealthy
  | .awaitRestart h => .await h (.snapLock false)
  | .close => .close .swap

def Goroutine.entry : Goroutine → Pc
  | .restart origin failed => .restart origin failed .earlyCheck
  | .reap failed => .reap failed .wait

/-- One turn of a thread. -/
def program (hasTimeout : Bool) : Program ThreadId Memory Pc Choice := fun i c m pc =>
  match pc with
  | .idle =>
    match c with
    | .start call =>
      if call.handle.all fun h => (m.handle h).started then some (m, call.entry) else none
    | .run g => if g ∈ m.ready then some ({ m with ready := m.ready.erase g }, g.entry) else none
    | _ => none
  | .restart origin failed pc => restartWorker hasTimeout i origin failed c m pc
  | .dispatch h pc => dispatchRestart i h c m pc
  | .await h pc => awaitRestart i h c m pc
  | .close pc => close i c m pc
  | .reap failed pc => reap failed c m pc
  | .ended | .closed => none

abbrev State := Config ThreadId Memory Pc

/-- No thread has started. -/
def init (size : ℕ) : State := ⟨.new size, fun _ => .idle⟩

/-- Nothing runs, and nothing is about to. -/
def Quiescent (s : State) : Prop :=
  s.mem.ready = [] ∧ ∀ i, (s.threads i).inProgress = false

/-! ## What a turn can do -/

/-- The turns of a thread, one constructor for each outcome of an atomic step. -/
inductive Turn (i : ThreadId) (m : Memory) : Pc → Memory → Pc → Prop where
  | start (call : Call) : Turn i m .idle m call.entry
  | run {g} (h : g ∈ m.ready) : Turn i m .idle { m with ready := m.ready.erase g } g.entry
  -- restartWorker
  | earlyHit {o f} (h : m.workers f.id = some f) :
      Turn i m (.restart o f .earlyCheck) m (.restart o f .cas)
  | earlyStale {o f} : Turn i m (.restart o f .earlyCheck) m (o.returns f)
  | casLose {o f} : Turn i m (.restart o f .cas) m (.restart o f .loserLock)
  | casWin {o f} (h : (m.handle f).restarting = false) :
      Turn i m (.restart o f .cas) (m.setHandle f fun h => { h with restarting := true })
        (.restart o f .pubLock)
  | loserLock {o f} (h : (m.handle f).restartMu = none) :
      Turn i m (.restart o f .loserLock) (m.setHandle f fun h => { h with restartMu := some i })
        (.restart o f .loserCheck)
  | loserStays {o f} (h : (m.handle f).restarting = true) :
      Turn i m (.restart o f .loserCheck) m (.restart o f .loserEnter)
  | loserLeaves {o f} : Turn i m (.restart o f .loserCheck) m (.restart o f .loserUnlock)
  | loserEnter {o f} : Turn i m (.restart o f .loserEnter)
        (m.setHandle f fun h => { h with restartMu := none, restartCond := i :: h.restartCond })
        (.restart o f .loserWait)
  | loserWoken {o f} (h : i ∉ (m.handle f).restartCond) :
      Turn i m (.restart o f .loserWait) m (.restart o f .loserLock)
  | loserUnlock {o f} :
      Turn i m (.restart o f .loserUnlock) (m.setHandle f fun h => { h with restartMu := none })
        (o.returns f)
  | pubLock {o f} (h : (m.handle f).restartMu = none) :
      Turn i m (.restart o f .pubLock) (m.setHandle f fun h => { h with restartMu := some i })
        (.restart o f .publish)
  | publish {o f} : Turn i m (.restart o f .publish)
        ((m.makeChan f).setHandle f fun h => { h with restartDone := some ⟨f, m.nextChan⟩ })
        (.restart o f .pubUnlock)
  | pubUnlock {o f} :
      Turn i m (.restart o f .pubUnlock) (m.setHandle f fun h => { h with restartMu := none })
        (.restart o f .doubleCheck)
  | doubleCheck {o f} (stale : Bool) :
      Turn i m (.restart o f .doubleCheck) { m with readers := m.readers + 1 }
        (.restart o f (.doubleClosed stale))
  | doubleStale {o f stale} :
      Turn i m (.restart o f (.doubleClosed stale)) { m with readers := m.readers - 1 }
        (.restart o f .finLock)
  | doubleFresh {o f stale} :
      Turn i m (.restart o f (.doubleClosed stale)) { m with readers := m.readers - 1 }
        (.restart o f .startStop)
  | startStop {o f} : Turn i m (.restart o f .startStop) m (.restart o f .finLock)
  | startGo {o f} : Turn i m (.restart o f .startStop) m (.restart o f .starting)
  | started {o f} : Turn i m (.restart o f .starting) (m.startHandle f.id)
        (.restart o f (.swapLock ⟨f.id, m.nextHandle⟩))
  | startFailed {o f} : Turn i m (.restart o f .starting) m (.restart o f .startErr)
  | timedOut {o f} : Turn i m (.restart o f .starting) (m.spawn (.reap f)) (.restart o f .startErr)
  | stopped {o f} : Turn i m (.restart o f .starting) (m.spawn (.reap f)) (.restart o f .finLock)
  | errClosed {o f} : Turn i m (.restart o f .startErr) m (.restart o f .finLock)
  | errOpen {o f} : Turn i m (.restart o f .startErr) m (.restart o f .failLock)
  | failLock {o f} (h : m.writer = none) :
      Turn i m (.restart o f .failLock) (m.setWriter (some i)) (.restart o f .failMark)
  | failMark {o f} :
      Turn i m (.restart o f .failMark) (m.setHandle f fun h => { h with healthy := false })
        (.restart o f .failUnlock)
  | failSkip {o f} : Turn i m (.restart o f .failMark) m (.restart o f .failUnlock)
  | failUnlock {o f} :
      Turn i m (.restart o f .failUnlock) (m.setWriter none) (.restart o f .failKill)
  | failKill {o f} : Turn i m (.restart o f .failKill) (m.kill f) (.restart o f .finLock)
  | swapLock {o f new} (h : m.writer = none) :
      Turn i m (.restart o f (.swapLock new)) (m.setWriter (some i))
        (.restart o f (.swapClosed new))
  | swapClosed {o f new} :
      Turn i m (.restart o f (.swapClosed new)) m (.restart o f (.dropUnlock new))
  | swapOpen {o f new} (h : m.closed = false) :
      Turn i m (.restart o f (.swapClosed new)) m (.restart o f (.swapSlot new))
  | install {o f new} (h : m.workers f.id = some f) : Turn i m (.restart o f (.swapSlot new))
        { m with workers := Function.update m.workers f.id (some new) } (.restart o f .swapUnlock)
  | swapStale {o f new} : Turn i m (.restart o f (.swapSlot new)) m (.restart o f (.dropUnlock new))
  | dropUnlock {o f new} :
      Turn i m (.restart o f (.dropUnlock new)) (m.setWriter none) (.restart o f (.dropKill new))
  | dropKill {o f new} :
      Turn i m (.restart o f (.dropKill new)) (m.kill new) (.restart o f .finLock)
  | swapUnlock {o f} :
      Turn i m (.restart o f .swapUnlock) (m.setWriter none) (.restart o f .swapKill)
  | swapKill {o f} : Turn i m (.restart o f .swapKill) (m.kill f) (.restart o f .finLock)
  | finLock {o f} (h : (m.handle f).restartMu = none) :
      Turn i m (.restart o f .finLock) (m.setHandle f fun h => { h with restartMu := some i })
        (.restart o f .finStore)
  | finStore {o f} :
      Turn i m (.restart o f .finStore) (m.setHandle f fun h => { h with restarting := false })
        (.restart o f .finClose)
  | finClose {o f ch} (h : (m.handle f).restartDone = some ch) : Turn i m (.restart o f .finClose)
        ((m.closeChan ch).setHandle f fun h => { h with restartDone := none })
        (.restart o f .finBroadcast)
  | finCloseNone {o f} (h : (m.handle f).restartDone = none) :
      Turn i m (.restart o f .finClose) m (.restart o f .finBroadcast)
  | finBroadcast {o f} :
      Turn i m (.restart o f .finBroadcast) (m.setHandle f fun h => { h with restartCond := [] })
        (.restart o f .finUnlock)
  | finUnlock {o f} :
      Turn i m (.restart o f .finUnlock) (m.setHandle f fun h => { h with restartMu := none })
        (o.returns f)
  | pendingDone {o f} : Turn i m (.restart o f .pendingDone)
        (m.setHandle f fun h => { h with restartPending := h.restartPending - 1 })
        (.restart o f .wgDone)
  | wgDone {f} :
      Turn i m (.restart .dispatched f .wgDone) { m with restartWG := m.restartWG - 1 } .ended
  | closeDone {f ch} : Turn i m (.restart (.awaited ch) f .closeDone) (m.closeChan ch) .ended
  -- dispatchRestart
  | markUnhealthy {h} :
      Turn i m (.dispatch h .markUnhealthy) (m.setHandle h fun x => { x with healthy := false })
        (.dispatch h .kill)
  | dispatchKill {h} : Turn i m (.dispatch h .kill) (m.kill h) (.dispatch h .lock)
  | dispatchLock {h} (hmu : m.restartMu = none) :
      Turn i m (.dispatch h .lock) (m.setRestartMu (some i)) (.dispatch h .check)
  | dispatchClosed {h} : Turn i m (.dispatch h .check) m (.dispatch h .refuse)
  | dispatchOpen {h} (hopen : m.closed = false) : Turn i m (.dispatch h .check) m (.dispatch h .add)
  | refuse {h} : Turn i m (.dispatch h .refuse) (m.setRestartMu none) .ended
  | add {h} :
      Turn i m (.dispatch h .add) { m with restartWG := m.restartWG + 1 } (.dispatch h .pend)
  | pend {h} : Turn i m (.dispatch h .pend)
        (m.setHandle h fun x => { x with restartPending := x.restartPending + 1 })
        (.dispatch h .unlock)
  | dispatchUnlock {h} : Turn i m (.dispatch h .unlock) (m.setRestartMu none) (.dispatch h .spawn)
  | dispatchSpawn {h} : Turn i m (.dispatch h .spawn) (m.spawn (.restart .dispatched h)) .ended
  -- awaitRestart
  | snapLock {h saw} (hmu : (m.handle h).restartMu = none) :
      Turn i m (.await h (.snapLock saw)) (m.setHandle h fun x => { x with restartMu := some i })
        (.await h (.snapDone saw))
  | snapDone {h saw} :
      Turn i m (.await h (.snapDone saw)) m (.await h (.snapPending saw (m.handle h).restartDone))
  | snapPending {h saw ch} :
      Turn i m (.await h (.snapPending saw ch)) m (.await h (.snapUnlock saw ch true))
  | snapNotPending {h saw ch} :
      Turn i m (.await h (.snapPending saw ch)) m (.await h (.snapRestarting saw ch))
  | snapRestarting {h saw ch} (visible : Bool) :
      Turn i m (.await h (.snapRestarting saw ch)) m (.await h (.snapUnlock saw ch visible))
  | snapWait {h saw visible ch} : Turn i m (.await h (.snapUnlock saw (some ch) visible))
        (m.setHandle h fun x => { x with restartMu := none }) (.await h (.wait ch))
  | snapPoll {h saw visible} : Turn i m (.await h (.snapUnlock saw none visible))
        (m.setHandle h fun x => { x with restartMu := none }) (.await h .poll)
  | snapEnd {h saw visible} : Turn i m (.await h (.snapUnlock saw none visible))
        (m.setHandle h fun x => { x with restartMu := none }) .ended
  | snapNothing {h saw visible} : Turn i m (.await h (.snapUnlock saw none visible))
        (m.setHandle h fun x => { x with restartMu := none }) (.await h .drainCheck)
  | pollAgain {h} : Turn i m (.await h .poll) m (.await h (.snapLock true))
  | pollEnd {h} : Turn i m (.await h .poll) m .ended
  | drainEnd {h} : Turn i m (.await h .drainCheck) m .ended
  | drainOpen {h} : Turn i m (.await h .drainCheck) m (.await h .spawn)
  | awaitSpawn {h} : Turn i m (.await h .spawn)
        ((m.makeChan h).spawn (.restart (.awaited ⟨h, m.nextChan⟩) h))
        (.await h (.wait ⟨h, m.nextChan⟩))
  | waitEnd {h ch} : Turn i m (.await h (.wait ch)) m .ended
  -- Close
  | closeAgain : Turn i m (.close .swap) m .ended
  | closeSwap : Turn i m (.close .swap) { m with closed := true } (.close .drain)
  | closeDrain : Turn i m (.close .drain) { m with drainClosed := true } (.close .done)
  | closeStop : Turn i m (.close .done) { m with doneClosed := true } (.close .fence)
  | fence (h : m.restartMu = none) :
      Turn i m (.close .fence) (m.setRestartMu (some i)) (.close .unfence)
  | unfence : Turn i m (.close .unfence) (m.setRestartMu none) (.close .snapshot)
  | snapshot (h : m.writer = none) : Turn i m (.close .snapshot) m
        (.close (.kill ((List.range m.size).filterMap m.workers)))
  | closeKill {h todo} : Turn i m (.close (.kill (h :: todo))) (m.kill h) (.close (.kill todo))
  | closeKilled : Turn i m (.close (.kill [])) m (.close .wait)
  | closeWait : Turn i m (.close .wait) m .closed
  -- reapWorkerStartResult
  | reapStarted {f} :
      Turn i m (.reap f .wait) (m.startHandle f.id) (.reap f (.kill ⟨f.id, m.nextHandle⟩))
  | reapFailed {f} : Turn i m (.reap f .wait) m .ended
  | reapKill {f late} : Turn i m (.reap f (.kill late)) (m.kill late) .ended

variable {hasTimeout : Bool} {i : ThreadId} {c : Choice} {m m' : Memory} {pc' : Pc}

theorem turn_of_restartWorker {o f pc}
    (h : restartWorker hasTimeout i o f c m pc = some (m', pc')) :
    Turn i m (.restart o f pc) m' pc' := by
  unfold restartWorker at h
  split at h
  all_goals try contradiction
  all_goals try split at h
  all_goals try contradiction
  all_goals try split at h
  all_goals cases h
  all_goals constructor
  all_goals try assumption
  all_goals simp_all

theorem turn_of_dispatchRestart {h pc}
    (heq : dispatchRestart i h c m pc = some (m', pc')) : Turn i m (.dispatch h pc) m' pc' := by
  unfold dispatchRestart at heq
  split at heq
  all_goals try contradiction
  all_goals try split at heq
  all_goals try contradiction
  all_goals cases heq
  all_goals constructor
  all_goals simp_all

theorem turn_of_awaitRestart {h pc}
    (heq : awaitRestart i h c m pc = some (m', pc')) : Turn i m (.await h pc) m' pc' := by
  unfold awaitRestart at heq
  split at heq
  all_goals try contradiction
  all_goals try split at heq
  all_goals try contradiction
  all_goals try split at heq
  all_goals try split at heq
  all_goals cases heq
  all_goals constructor
  all_goals assumption

theorem turn_of_close {pc} (heq : close i c m pc = some (m', pc')) :
    Turn i m (.close pc) m' pc' := by
  unfold close at heq
  split at heq
  all_goals try contradiction
  all_goals try split at heq
  all_goals try contradiction
  all_goals cases heq
  all_goals constructor
  all_goals assumption

theorem turn_of_reap {f pc} (heq : reap f c m pc = some (m', pc')) :
    Turn i m (.reap f pc) m' pc' := by
  unfold reap at heq
  split at heq
  all_goals try contradiction
  all_goals cases heq
  all_goals constructor

theorem turn_of_program {pc : Pc} (h : program hasTimeout i c m pc = some (m', pc')) :
    Turn i m pc m' pc' := by
  cases pc with
  | idle =>
    cases c with
    | start call =>
      obtain ⟨-, h⟩ := Option.ite_none_right_eq_some.mp h
      cases h
      exact .start call
    | run g =>
      obtain ⟨hg, h⟩ := Option.ite_none_right_eq_some.mp h
      cases h
      exact .run hg
    | go | started | startFailed | timedOut | stopped | received | drained | cancelled => cases h
  | restart o f pc => exact turn_of_restartWorker h
  | dispatch f pc => exact turn_of_dispatchRestart h
  | await f pc => exact turn_of_awaitRestart h
  | close pc => exact turn_of_close h
  | reap f pc => exact turn_of_reap h
  | ended | closed => cases h

theorem turn_of_next {turn s s'} (h : (program hasTimeout).next turn s = some s') :
    ∃ m' pc', Turn turn.1 s.mem (s.threads turn.1) m' pc' ∧
      s' = ⟨m', Function.update s.threads turn.1 pc'⟩ := by
  obtain ⟨m', pc', hP, rfl⟩ := Program.next_eq_some_iff.mp h
  exact ⟨m', pc', turn_of_program hP, rfl⟩

end BamlRest.HotSwap
