import BamlRest.Lib.Interleave
import BamlRest.Pool.Errors

/-!
# Graceful shutdown

`Shutdown` lets the requests finish that were admitted, and admits no more.

* `program`, `Turn`: the turns of the threads.
* `Inv`: the invariant.
* `graceful_drain`, `inFlight_exact`: admitted requests finish first, and each is counted.
-/

namespace BamlRest.Drain

open Function Interleave Program List
open Pool (Error errorf errPoolUnavailable)

abbrev ThreadId := ℕ

/-- The `sync.Once` of a request, and the thread that is about to return its function or that runs
it. -/
inductive Once where
  | reserved (by_ : ThreadId)
  | fresh
  | running (by_ : ThreadId)
  | subtracted (by_ : ThreadId)
  | finished

namespace Once

def isReturned : Once → Bool
  | .reserved _ => false
  | _ => true

def isCalled : Once → Bool
  | .reserved _ | .fresh => false
  | _ => true

def isOutstanding : Once → Bool
  | .reserved _ | .fresh | .running _ => true
  | .subtracted _ | .finished => false

end Once

/-- What the calls use of `Pool`. The `atomic.Int64` is an integer: it is the number of requests that
are outstanding (`inFlight_exact`), each of which has a goroutine, so that it is far from wrapping. -/
structure Memory where
  admissionMu : Option ThreadId
  closed : Bool
  draining : Bool
  logicalInFlight : ℤ
  requests : List Once

def Memory.new : Memory := ⟨none, false, false, 0, []⟩

/-! ## Where a thread stands -/

/-- The places in `beginLogicalRequest`. -/
inductive BeginPc where
  | lock
  | closedCheck
  | drainingCheck
  | add
  | unlock (result : Except Error ℕ)
  deriving DecidableEq

/-- The places in the function that `beginLogicalRequest` returns. -/
inductive DonePc where
  | enter
  | add
  | leave
  deriving DecidableEq

/-- The places in `Shutdown`, up to its call of `Close`. -/
inductive ShutdownPc where
  | lock
  | store
  | unlock
  | load
  | select
  deriving DecidableEq

/-- The places in `Close`; `closing` is all that follows the two flags. -/
inductive ClosePc where
  | swap
  | store
  | closing
  deriving DecidableEq

/-- Where a thread stands. -/
inductive Pc where
  | idle
  | begin (pc : BeginPc)
  | done (request : ℕ) (pc : DonePc)
  | shutdown (pc : ShutdownPc)
  | close (pc : ClosePc)
  deriving DecidableEq

/-- A thread, with what its calls of `beginLogicalRequest` have returned: an error, or the number of
the request. -/
structure Thread where
  pc : Pc
  results : List (Except Error ℕ)

/-- What a thread may call. -/
inductive Call where
  | beginLogicalRequest
  | done (request : ℕ)
  | shutdown
  | close
  deriving DecidableEq

/-- What a turn may choose: the call to make, and the case of the `select` of `Shutdown`. -/
inductive Choice where
  | start (call : Call)
  | go
  | tick
  | expired
  deriving DecidableEq

/-! ## Turns -/

def errClosed : Error :=
  errorf "pool unavailable: pool is closed" [errPoolUnavailable]

def errDraining : Error :=
  errorf "pool unavailable: pool is draining, not accepting new requests"
    [errPoolUnavailable]

/-- A turn of `beginLogicalRequest`. -/
def beginLogicalRequest (i : ThreadId) (m : Memory) (t : Thread) :
    BeginPc → Option (Memory × Thread)
  | .lock =>
    if m.admissionMu = none then
      some ({ m with admissionMu := some i }, { t with pc := .begin .closedCheck })
    else none
  | .closedCheck =>
    if m.closed then some (m, { t with pc := .begin (.unlock (.error errClosed)) })
    else some (m, { t with pc := .begin .drainingCheck })
  | .drainingCheck =>
    if m.draining then some (m, { t with pc := .begin (.unlock (.error errDraining)) })
    else some (m, { t with pc := .begin .add })
  | .add =>
    some ({ m with
      logicalInFlight := m.logicalInFlight + 1, requests := m.requests ++ [.reserved i] },
      { t with pc := .begin (.unlock (.ok m.requests.length)) })
  | .unlock result =>
    -- the deferred unlock, and the return
    some ({ m with
      admissionMu := none,
      requests := match result with
        | .ok r => m.requests.set r .fresh
        | .error _ => m.requests },
      ⟨.idle, t.results ++ [result]⟩)

/-- A turn of the function that `beginLogicalRequest` returned for a request. -/
def done (i : ThreadId) (r : ℕ) (m : Memory) (t : Thread) : DonePc → Option (Memory × Thread)
  | .enter =>
    match m.requests[r]? with
    | some .fresh =>
      some ({ m with requests := m.requests.set r (.running i) }, { t with pc := .done r .add })
    | some .finished => some (m, { t with pc := .idle })
    | _ => none
  | .add =>
    some ({ m with
      logicalInFlight := m.logicalInFlight - 1, requests := m.requests.set r (.subtracted i) },
      { t with pc := .done r .leave })
  | .leave => some ({ m with requests := m.requests.set r .finished }, { t with pc := .idle })

/-- A turn of `Shutdown`. -/
def shutdown (i : ThreadId) (c : Choice) (m : Memory) (t : Thread) (pc : ShutdownPc) :
    Option (Memory × Thread) :=
  match pc, c with
  | .lock, .go =>
    if m.admissionMu = none then
      some ({ m with admissionMu := some i }, { t with pc := .shutdown .store })
    else none
  | .store, .go => some ({ m with draining := true }, { t with pc := .shutdown .unlock })
  | .unlock, .go => some ({ m with admissionMu := none }, { t with pc := .shutdown .load })
  | .load, .go =>
    if m.logicalInFlight = 0 then some (m, { t with pc := .close .swap })
    else some (m, { t with pc := .shutdown .select })
  | .select, .tick => some (m, { t with pc := .shutdown .load })
  | .select, .expired => some (m, { t with pc := .close .swap })
  | _, _ => none

/-- A turn of `Close`. -/
def close (m : Memory) (t : Thread) : ClosePc → Option (Memory × Thread)
  | .swap =>
    if m.closed then some (m, { t with pc := .idle })
    else some ({ m with closed := true }, { t with pc := .close .store })
  | .store => some ({ m with draining := true }, { t with pc := .close .closing })
  | .closing => some (m, { t with pc := .idle })

/-- A call. Nobody has the function of a request that is not returned yet. -/
def start (m : Memory) (t : Thread) : Call → Option (Memory × Thread)
  | .beginLogicalRequest => some (m, { t with pc := .begin .lock })
  | .done r =>
    if (m.requests[r]?).any Once.isReturned then some (m, { t with pc := .done r .enter }) else none
  | .shutdown => some (m, { t with pc := .shutdown .lock })
  | .close => some (m, { t with pc := .close .swap })

/-- One turn of a thread. -/
def program : Program ThreadId Memory Thread Choice := fun i c m t =>
  match t.pc, c with
  | .idle, .start call => start m t call
  | .begin pc, .go => beginLogicalRequest i m t pc
  | .done r pc, .go => done i r m t pc
  | .shutdown pc, c => shutdown i c m t pc
  | .close pc, .go => close m t pc
  | _, _ => none

/-- No thread has started. -/
def init : Config ThreadId Memory Thread := ⟨.new, fun _ => ⟨.idle, []⟩⟩

/-- The context of no `Shutdown` expires, and `Close` is called by `Shutdown` only. -/
def Graceful (turn : ThreadId × Choice) (_ : Config ThreadId Memory Thread) : Prop :=
  turn.2 ≠ .expired ∧ turn.2 ≠ .start .close

/-- The turns, one constructor for each outcome. -/
inductive Turn (i : ThreadId) (m : Memory) (t : Thread) : Choice → Memory → Thread → Prop where
  | startBegin (hpc : t.pc = .idle) :
      Turn i m t (.start .beginLogicalRequest) m { t with pc := .begin .lock }
  | startDone (r : ℕ) (hpc : t.pc = .idle) (hr : (m.requests[r]?).any Once.isReturned = true) :
      Turn i m t (.start (.done r)) m { t with pc := .done r .enter }
  | startShutdown (hpc : t.pc = .idle) :
      Turn i m t (.start .shutdown) m { t with pc := .shutdown .lock }
  | startClose (hpc : t.pc = .idle) : Turn i m t (.start .close) m { t with pc := .close .swap }
  | beginLock (hpc : t.pc = .begin .lock) (hfree : m.admissionMu = none) :
      Turn i m t .go { m with admissionMu := some i } { t with pc := .begin .closedCheck }
  | beginClosed (hpc : t.pc = .begin .closedCheck) (hclosed : m.closed) :
      Turn i m t .go m { t with pc := .begin (.unlock (.error errClosed)) }
  | beginOpen (hpc : t.pc = .begin .closedCheck) (hclosed : m.closed = false) :
      Turn i m t .go m { t with pc := .begin .drainingCheck }
  | beginDraining (hpc : t.pc = .begin .drainingCheck) (hdraining : m.draining) :
      Turn i m t .go m { t with pc := .begin (.unlock (.error errDraining)) }
  | beginAdmit (hpc : t.pc = .begin .drainingCheck) (hdraining : m.draining = false) :
      Turn i m t .go m { t with pc := .begin .add }
  | beginAdd (hpc : t.pc = .begin .add) : Turn i m t .go { m with
          logicalInFlight := m.logicalInFlight + 1, requests := m.requests ++ [.reserved i] }
        { t with pc := .begin (.unlock (.ok m.requests.length)) }
  | beginReject (err : Error) (hpc : t.pc = .begin (.unlock (.error err))) :
      Turn i m t .go { m with admissionMu := none } ⟨.idle, t.results ++ [.error err]⟩
  | beginReturn (r : ℕ) (hpc : t.pc = .begin (.unlock (.ok r))) :
      Turn i m t .go { m with admissionMu := none, requests := m.requests.set r .fresh }
        ⟨.idle, t.results ++ [.ok r]⟩
  | doneEnter (r : ℕ) (hpc : t.pc = .done r .enter) (hr : m.requests[r]? = some .fresh) :
      Turn i m t .go { m with requests := m.requests.set r (.running i) }
        { t with pc := .done r .add }
  | doneAgain (r : ℕ) (hpc : t.pc = .done r .enter) (hr : m.requests[r]? = some .finished) :
      Turn i m t .go m { t with pc := .idle }
  | doneAdd (r : ℕ) (hpc : t.pc = .done r .add) : Turn i m t .go { m with
          logicalInFlight := m.logicalInFlight - 1, requests := m.requests.set r (.subtracted i) }
        { t with pc := .done r .leave }
  | doneLeave (r : ℕ) (hpc : t.pc = .done r .leave) :
      Turn i m t .go { m with requests := m.requests.set r .finished } { t with pc := .idle }
  | shutdownLock (hpc : t.pc = .shutdown .lock) (hfree : m.admissionMu = none) :
      Turn i m t .go { m with admissionMu := some i } { t with pc := .shutdown .store }
  | shutdownStore (hpc : t.pc = .shutdown .store) :
      Turn i m t .go { m with draining := true } { t with pc := .shutdown .unlock }
  | shutdownUnlock (hpc : t.pc = .shutdown .unlock) :
      Turn i m t .go { m with admissionMu := none } { t with pc := .shutdown .load }
  | shutdownZero (hpc : t.pc = .shutdown .load) (hzero : m.logicalInFlight = 0) :
      Turn i m t .go m { t with pc := .close .swap }
  | shutdownWait (hpc : t.pc = .shutdown .load) (hpos : m.logicalInFlight ≠ 0) :
      Turn i m t .go m { t with pc := .shutdown .select }
  | shutdownTick (hpc : t.pc = .shutdown .select) :
      Turn i m t .tick m { t with pc := .shutdown .load }
  | shutdownExpired (hpc : t.pc = .shutdown .select) :
      Turn i m t .expired m { t with pc := .close .swap }
  | closeAgain (hpc : t.pc = .close .swap) (hclosed : m.closed) :
      Turn i m t .go m { t with pc := .idle }
  | closeSwap (hpc : t.pc = .close .swap) (hclosed : m.closed = false) :
      Turn i m t .go { m with closed := true } { t with pc := .close .store }
  | closeStore (hpc : t.pc = .close .store) :
      Turn i m t .go { m with draining := true } { t with pc := .close .closing }
  | closeEnd (hpc : t.pc = .close .closing) : Turn i m t .go m { t with pc := .idle }

variable {i : ThreadId} {c : Choice} {m m' : Memory} {t t' : Thread}

theorem turn_of_start {call} (hpc : t.pc = .idle) (h : start m t call = some (m', t')) :
    Turn i m t (.start call) m' t' := by
  cases call with
  | beginLogicalRequest =>
    cases h
    exact .startBegin hpc
  | done r =>
    obtain ⟨hr, h⟩ := Option.ite_none_right_eq_some.mp h
    cases h
    exact .startDone r hpc hr
  | shutdown =>
    cases h
    exact .startShutdown hpc
  | close =>
    cases h
    exact .startClose hpc

variable {pc : BeginPc}

theorem turn_of_begin (hpc : t.pc = .begin pc)
    (h : beginLogicalRequest i m t pc = some (m', t')) : Turn i m t .go m' t' := by
  cases pc with
  | lock =>
    obtain ⟨hfree, h⟩ := Option.ite_none_right_eq_some.mp h
    cases h
    exact .beginLock hpc hfree
  | closedCheck =>
    cases hclosed : m.closed <;> rw [beginLogicalRequest, hclosed] at h <;> cases h
    · exact .beginOpen hpc hclosed
    · exact .beginClosed hpc hclosed
  | drainingCheck =>
    cases hdraining : m.draining <;> rw [beginLogicalRequest, hdraining] at h <;> cases h
    · exact .beginAdmit hpc hdraining
    · exact .beginDraining hpc hdraining
  | add =>
    cases h
    exact .beginAdd hpc
  | unlock result =>
    cases result with
    | error err =>
      cases h
      exact .beginReject err hpc
    | ok r =>
      cases h
      exact .beginReturn r hpc

variable {r : ℕ}

theorem turn_of_done {pc} (hpc : t.pc = .done r pc)
    (h : done i r m t pc = some (m', t')) : Turn i m t .go m' t' := by
  cases pc with
  | enter =>
    rw [done] at h
    split at h
    case h_1 hr =>
      cases h
      exact .doneEnter r hpc hr
    case h_2 hr =>
      cases h
      exact .doneAgain r hpc hr
    case h_3 => cases h
  | add =>
    cases h
    exact .doneAdd r hpc
  | leave =>
    cases h
    exact .doneLeave r hpc

theorem turn_of_shutdown {pc} (hpc : t.pc = .shutdown pc)
    (h : shutdown i c m t pc = some (m', t')) : Turn i m t c m' t' := by
  unfold shutdown at h
  split at h
  case h_1 =>
    obtain ⟨hfree, h⟩ := Option.ite_none_right_eq_some.mp h
    cases h
    exact .shutdownLock hpc hfree
  case h_2 =>
    cases h
    exact .shutdownStore hpc
  case h_3 =>
    cases h
    exact .shutdownUnlock hpc
  case h_4 =>
    split at h <;> cases h
    case isTrue hzero => exact .shutdownZero hpc hzero
    case isFalse hpos => exact .shutdownWait hpc hpos
  case h_5 =>
    cases h
    exact .shutdownTick hpc
  case h_6 =>
    cases h
    exact .shutdownExpired hpc
  case h_7 => cases h

theorem turn_of_close {pc} (hpc : t.pc = .close pc) (h : close m t pc = some (m', t')) :
    Turn i m t .go m' t' := by
  cases pc with
  | swap =>
    cases hclosed : m.closed <;> rw [close, hclosed] at h <;> cases h
    · exact .closeSwap hpc hclosed
    · exact .closeAgain hpc hclosed
  | store =>
    cases h
    exact .closeStore hpc
  | closing =>
    cases h
    exact .closeEnd hpc

theorem turn_of_program (h : program i c m t = some (m', t')) : Turn i m t c m' t' := by
  unfold program at h
  split at h
  case h_1 hpc => exact turn_of_start hpc h
  case h_2 hpc => exact turn_of_begin hpc h
  case h_3 hpc => exact turn_of_done hpc h
  case h_4 hpc => exact turn_of_shutdown hpc h
  case h_5 hpc => exact turn_of_close hpc h
  case h_6 => cases h

/-! ## Invariants -/

variable {s s' : Config ThreadId Memory Thread}

/-- The thread holds `admissionMu`. -/
def Pc.holdsLock : Pc → Bool
  | .begin .closedCheck | .begin .drainingCheck | .begin .add | .begin (.unlock _) => true
  | .shutdown .store | .shutdown .unlock => true
  | _ => false

def Pc.isAdmitting : Pc → Bool
  | .begin .add | .begin (.unlock (.ok _)) => true
  | _ => false

/-- The thread has set `draining`. -/
def Pc.isDraining : Pc → Bool
  | .shutdown .unlock | .shutdown .load | .shutdown .select | .close _ => true
  | _ => false

/-- `Close` has been called. -/
def Pc.isClosing : Pc → Bool
  | .close _ => true
  | _ => false

def Once.owner : Once → Option ThreadId
  | .reserved i | .running i | .subtracted i => some i
  | .fresh | .finished => none

/-- The request that a thread is busy with. -/
def Owns (requests : List Once) (i : ThreadId) : Pc → Prop
  | .begin (.unlock (.ok r)) => requests[r]? = some (.reserved i)
  | .done r .add => requests[r]? = some (.running i)
  | .done r .leave => requests[r]? = some (.subtracted i)
  | _ => True

/-- What holds in every reachable state. -/
structure Inv (s : Config ThreadId Memory Thread) : Prop where
  locked : Locked Memory.admissionMu (fun t => t.pc.holdsLock = true) s
  held : ∀ i, s.mem.admissionMu = some i → (s.threads i).pc.holdsLock = true
  owns : ∀ i, Owns s.mem.requests i (s.threads i).pc
  counted : s.mem.logicalInFlight = s.mem.requests.countP Once.isOutstanding
  admitting : ∀ i, (s.threads i).pc.isAdmitting = true → s.mem.draining = false
  draining : ∀ i, (s.threads i).pc.isDraining = true → s.mem.draining
  drained : ∀ i, (s.threads i).pc.isClosing = true → s.mem.logicalInFlight = 0

theorem inv_init : Inv init where
  locked := fun _ h => (by cases h)
  held := fun _ h => (by cases h)
  owns := fun _ => trivial
  counted := rfl
  admitting := fun _ h => (by cases h)
  draining := fun _ h => (by cases h)
  drained := fun _ h => (by cases h)

theorem locked_turn (h : Inv s) (ht : Turn i s.mem (s.threads i) c m t) :
    Locked Memory.admissionMu (fun t => t.pc.holdsLock = true) ⟨m, update s.threads i t⟩ := by
  apply h.locked.update
  cases ht
  case beginLock hpc hfree => exact .acquire hfree rfl
  case shutdownLock hpc hfree => exact .acquire hfree rfl
  case beginReject err hpc => exact .release (by rw [hpc]; rfl) (by simp [Pc.holdsLock])
  case beginReturn r hpc => exact .release (by rw [hpc]; rfl) (by simp [Pc.holdsLock])
  case shutdownUnlock hpc => exact .release (by rw [hpc]; rfl) (by simp [Pc.holdsLock])
  all_goals exact .keep rfl (by simp [‹(s.threads i).pc = _›, Pc.holdsLock])

theorem held_turn (h : Inv s) (ht : Turn i s.mem (s.threads i) c m t) (j)
    (hj : m.admissionMu = some j) : (update s.threads i t j).pc.holdsLock = true := by
  by_cases hij : j = i
  · subst hij
    rw [update_self]
    -- the thread has just taken the mutex, or has kept it
    cases ht
    case beginLock | shutdownLock => rfl
    case beginReject | beginReturn | shutdownUnlock => cases hj
    all_goals
      have hholds := h.held j hj
      simp_all [Pc.holdsLock]
  rw [update_of_ne hij]
  apply h.held
  cases ht
  case beginLock | shutdownLock => exact absurd (Option.some.inj hj).symm hij
  case beginReject | beginReturn | shutdownUnlock => cases hj
  all_goals exact hj

variable {requests : List Once}

theorem Owns.set {j} {pc : Pc} (h : Owns requests j pc)
    {o} (hr : requests[r]? = some o) (ho : o.owner ≠ some j) (o') :
    Owns (requests.set r o') j pc := by
  have hkeep : ∀ {k : ℕ} {x : Once}, requests[k]? = some x → x.owner = some j →
      (requests.set r o')[k]? = some x := by
    intro k x hk hx
    have hne : r ≠ k := by
      rintro rfl
      rw [hr] at hk
      cases hk
      exact ho hx
    rw [getElem?_set_ne hne, hk]
  unfold Owns at h ⊢
  split
  all_goals first | exact hkeep h rfl | trivial

theorem Owns.append {j} {pc : Pc} (h : Owns requests j pc) (o) : Owns (requests ++ [o]) j pc := by
  have hkeep : ∀ {k : ℕ} {x : Once}, requests[k]? = some x → (requests ++ [o])[k]? = some x := by
    intro k x hk
    rw [List.getElem?_append_left (List.getElem?_eq_some_iff.mp hk).1, hk]
  unfold Owns at h ⊢
  split
  all_goals first | exact hkeep h | trivial

theorem owns_turn (h : Inv s) (ht : Turn i s.mem (s.threads i) c m t) (j) :
    Owns m.requests j (update s.threads i t j).pc := by
  have hown := h.owns i
  by_cases hij : j = i
  · subst hij
    rw [update_self]
    cases ht
    case beginAdd => simp [Owns]
    case doneEnter r hpc hr =>
      exact List.getElem?_set_self (List.getElem?_eq_some_iff.mp hr).1
    case doneAdd r hpc =>
      rw [hpc] at hown
      exact List.getElem?_set_self (List.getElem?_eq_some_iff.mp hown).1
    all_goals trivial
  rw [update_of_ne hij]
  have hother := h.owns j
  have hne : some i ≠ some j := fun heq => hij (Option.some.inj heq).symm
  cases ht
  case beginAdd => exact hother.append _
  case beginReturn r hpc | doneAdd r hpc | doneLeave r hpc =>
    rw [hpc] at hown
    exact hother.set hown hne _
  case doneEnter r hpc hr => exact hother.set hr (fun heq => (by cases heq)) _
  all_goals exact hother

theorem countP_set_add {o} (hr : requests[r]? = some o) (o') :
    (requests.set r o').countP Once.isOutstanding + (if o.isOutstanding then 1 else 0) =
      requests.countP Once.isOutstanding + (if o'.isOutstanding then 1 else 0) := by
  obtain ⟨hlt, hget⟩ := List.getElem?_eq_some_iff.mp hr
  have hpos : (if o.isOutstanding then 1 else 0) ≤ requests.countP Once.isOutstanding := by
    split
    case isTrue ho => exact countP_pos_iff.mpr ⟨o, mem_of_getElem? hr, ho⟩
    case isFalse => exact Nat.zero_le _
  rw [countP_set hlt, hget]
  omega

theorem counted_turn (h : Inv s) (ht : Turn i s.mem (s.threads i) c m t) :
    m.logicalInFlight = m.requests.countP Once.isOutstanding := by
  have hown := h.owns i
  have hcounted := h.counted
  cases ht
  case beginAdd =>
    simp [hcounted, countP_append, countP_cons, Once.isOutstanding]
  case beginReturn r hpc =>
    rw [hpc] at hown
    have hset := countP_set_add hown .fresh
    simp only [Once.isOutstanding, if_true] at hset
    dsimp only
    omega
  case doneEnter r hpc hr =>
    have hset := countP_set_add hr (.running i)
    simp only [Once.isOutstanding, if_true] at hset
    dsimp only
    omega
  case doneAdd r hpc =>
    rw [hpc] at hown
    have hset := countP_set_add hown (.subtracted i)
    simp only [Once.isOutstanding, if_true, Bool.false_eq_true, if_false] at hset
    dsimp only
    omega
  case doneLeave r hpc =>
    rw [hpc] at hown
    have hset := countP_set_add hown .finished
    simp only [Once.isOutstanding, Bool.false_eq_true, if_false] at hset
    dsimp only
    omega
  all_goals exact hcounted

theorem admitting_turn (h : Inv s) (ht : Turn i s.mem (s.threads i) c m t) (j)
    (hj : (update s.threads i t j).pc.isAdmitting = true) : m.draining = false := by
  by_cases hij : j = i
  · subst hij
    rw [update_self] at hj
    cases ht
    case beginAdmit hpc hdraining => exact hdraining
    case beginAdd hpc => exact h.admitting j (by rw [hpc]; rfl)
    all_goals cases hj
  rw [update_of_ne hij] at hj
  have hfalse := h.admitting j hj
  have hlock : (s.threads j).pc.holdsLock = true := by
    revert hj
    cases (s.threads j).pc with
    | begin pc => cases pc <;> first | exact fun _ => rfl | exact fun hj => (by cases hj)
    | _ => exact fun hj => (by cases hj)
  cases ht
  case shutdownStore hpc =>
    exact absurd (h.locked.unique (i := i) (by simp [hpc, Pc.holdsLock]) hlock).symm hij
  case closeStore hpc =>
    rw [h.draining i (by rw [hpc]; rfl)] at hfalse
    cases hfalse
  all_goals exact hfalse

theorem draining_turn (h : Inv s) (hc : c ≠ .start .close)
    (ht : Turn i s.mem (s.threads i) c m t) (j)
    (hj : (update s.threads i t j).pc.isDraining = true) : m.draining := by
  by_cases hij : j = i
  · subst hij
    rw [update_self] at hj
    cases ht
    case startClose => exact absurd rfl hc
    case shutdownStore | closeStore => rfl
    all_goals first | cases hj; done | exact h.draining j (by rw [‹(s.threads j).pc = _›]; rfl)
  rw [update_of_ne hij] at hj
  have htrue := h.draining j hj
  cases ht
  case shutdownStore | closeStore => rfl
  all_goals exact htrue

theorem Pc.isDraining_of_isClosing {pc : Pc} (h : pc.isClosing) : pc.isDraining := by
  cases pc with
  | close pc => rfl
  | _ => cases h

theorem drained_turn (h : Inv s) (hok : Graceful (i, c) s)
    (ht : Turn i s.mem (s.threads i) c m t) (j)
    (hj : (update s.threads i t j).pc.isClosing = true) : m.logicalInFlight = 0 := by
  by_cases hij : j = i
  · subst hij
    rw [update_self] at hj
    cases ht
    case startClose => exact absurd rfl hok.2
    case shutdownExpired => exact absurd rfl hok.1
    case shutdownZero hpc hzero => exact hzero
    all_goals first | cases hj; done | exact h.drained j (by rw [‹(s.threads j).pc = _›]; rfl)
  rw [update_of_ne hij] at hj
  have hzero := h.drained j hj
  cases ht
  case beginAdd hpc =>
    have hfalse := h.admitting i (by rw [hpc]; rfl)
    rw [h.draining j (Pc.isDraining_of_isClosing hj)] at hfalse
    cases hfalse
  case doneAdd r hpc =>
    -- the request is still counted
    have hown := h.owns i
    rw [hpc] at hown
    have hpos : 0 < s.mem.requests.countP Once.isOutstanding :=
      countP_pos_iff.mpr ⟨_, mem_of_getElem? hown, rfl⟩
    have hcounted := h.counted
    omega
  all_goals exact hzero

theorem Inv.next (h : Inv s) {turn} (hok : Graceful turn s)
    (hnext : program.next turn s = some s') : Inv s' := by
  obtain ⟨m, t, hP, rfl⟩ := next_eq_some_iff.mp hnext
  have ht := turn_of_program hP
  exact {
    locked := locked_turn h ht
    held := held_turn h ht
    owns := owns_turn h ht
    counted := counted_turn h ht
    admitting := admitting_turn h ht
    draining := draining_turn h hok.2 ht
    drained := drained_turn h hok ht }

theorem inv_of_reaches (h : Reaches program Graceful init s) : Inv s :=
  h.invariant inv_init fun _ _ _ hok hu hnext => hu.next hok hnext

/-! ## After the drain has begun -/

theorem rejects_turn (h : Inv s) (hdraining : s.mem.draining)
    (ht : Turn i s.mem (s.threads i) c m t) :
    m.draining ∧ m.requests.length = s.mem.requests.length ∧ (t.results = (s.threads i).results ∨
        ∃ err, t.results = (s.threads i).results ++ [.error err]) := by
  have hadmit : (s.threads i).pc.isAdmitting = false := by
    by_contra hadmit
    rw [h.admitting i (by simpa using hadmit)] at hdraining
    cases hdraining
  cases ht
  case beginAdd hpc | beginReturn r hpc =>
    rw [hpc] at hadmit
    cases hadmit
  case beginReject err hpc => exact ⟨hdraining, rfl, Or.inr ⟨err, rfl⟩⟩
  case shutdownStore | closeStore => exact ⟨rfl, rfl, Or.inl rfl⟩
  case doneEnter | doneAdd | doneLeave => exact ⟨hdraining, length_set, Or.inl rfl⟩
  all_goals exact ⟨hdraining, rfl, Or.inl rfl⟩

/-- No request is admitted between two configurations, and the calls that returned have failed. -/
structure Rejects (s s' : Config ThreadId Memory Thread) : Prop where
  draining : s'.mem.draining
  requests : s'.mem.requests.length = s.mem.requests.length
  results : ∀ i, ∃ errs : List Error,
    (s'.threads i).results = (s.threads i).results ++ errs.map .error

theorem rejects_of_reaches (h : Inv s) (hdraining : s.mem.draining)
    (hs : Reaches program Graceful s s') : Rejects s s' := by
  have hrefl : Rejects s s := ⟨hdraining, rfl, fun i => ⟨[], by simp⟩⟩
  refine (hs.invariant (I := fun u => Inv u ∧ Rejects s u) ⟨h, hrefl⟩ ?_).2
  rintro ⟨i, c⟩ u v hok ⟨hu, htrue, hlen, hresults⟩ hnext
  refine ⟨hu.next hok hnext, ?_⟩
  obtain ⟨m, t, hP, rfl⟩ := next_eq_some_iff.mp hnext
  obtain ⟨hdraining', hlen', hresult⟩ := rejects_turn hu htrue (turn_of_program hP)
  refine ⟨hdraining', hlen'.trans hlen, fun j => ?_⟩
  obtain ⟨errs, herrs⟩ := hresults j
  dsimp only
  by_cases hij : j = i
  · subst hij
    rw [update_self]
    rcases hresult with hsame | ⟨err, herr⟩
    · exact ⟨errs, hsame.trans herrs⟩
    · exact ⟨errs ++ [err], by simp [herr, herrs]⟩
  · rw [update_of_ne hij]
    exact ⟨errs, herrs⟩

/-- A thread has run on its own up to the end of a call that failed. -/
structure Rejected (i : ThreadId) (s s' : Config ThreadId Memory Thread) : Prop where
  reaches : Program.Reaches program Graceful s s'
  free : s'.mem.admissionMu = none
  result : ∃ err, s'.threads i = ⟨.idle, (s.threads i).results ++ [.error err]⟩
  others : ∀ j, j ≠ i → s'.threads j = s.threads j

theorem reaches_go (h : program i .go s.mem (s.threads i) = some (m, t)) :
    Reaches program Graceful s ⟨m, update s.threads i t⟩ := by
  have hok : Graceful (i, .go) s := ⟨fun hc => (by cases hc), fun hc => (by cases hc)⟩
  exact .step .refl hok (next_eq_some_iff.mpr ⟨m, t, h, rfl⟩)

theorem program_begin (hpc : t.pc = .begin pc) :
    program i .go m t = beginLogicalRequest i m t pc := by
  simp only [program, hpc]

theorem program_shutdown {pc} (hpc : t.pc = .shutdown pc) :
    program i c m t = shutdown i c m t pc := by
  simp only [program, hpc]

theorem pc_update (threads : ThreadId → Thread) (i t) : (update threads i t i).pc = t.pc := by
  rw [update_self]

theorem rejected_of_unlock {err} (hpc : (s.threads i).pc = .begin (.unlock (.error err))) :
    ∃ s', Rejected i s s' :=
  ⟨_, reaches_go (program_begin hpc), rfl, ⟨err, update_self ..⟩,
    fun _ hj => update_of_ne hj _ _⟩

theorem rejected_of_go {pc : Pc} (h : program i .go s.mem (s.threads i) =
      some (m, { s.threads i with pc := pc }))
    (hs : ∃ s', Rejected i ⟨m, update s.threads i { s.threads i with pc := pc }⟩ s') :
    ∃ s', Rejected i s s' := by
  obtain ⟨s', hreaches, hfree, ⟨err, herr⟩, hothers⟩ := hs
  refine ⟨s', (reaches_go h).trans hreaches, hfree, ⟨err, ?_⟩, fun j hj => ?_⟩
  · rw [herr]
    simp
  · rw [hothers j hj]
    exact update_of_ne hj _ _

theorem rejected_of_drainingCheck (hdraining : s.mem.draining)
    (hpc : (s.threads i).pc = .begin .drainingCheck) : ∃ s', Rejected i s s' := by
  have hturn : program i .go s.mem (s.threads i) =
      some (s.mem, { s.threads i with pc := .begin (.unlock (.error errDraining)) }) := by
    rw [program_begin hpc, beginLogicalRequest, if_pos hdraining]
  exact rejected_of_go hturn (rejected_of_unlock (pc_update ..))

theorem rejected_of_closedCheck (hdraining : s.mem.draining)
    (hpc : (s.threads i).pc = .begin .closedCheck) : ∃ s', Rejected i s s' := by
  cases hclosed : s.mem.closed with
  | false =>
    have hturn : program i .go s.mem (s.threads i) =
        some (s.mem, { s.threads i with pc := .begin .drainingCheck }) := by
      rw [program_begin hpc, beginLogicalRequest, if_neg (by simp [hclosed])]
    refine rejected_of_go hturn (rejected_of_drainingCheck hdraining ?_)
    exact pc_update ..
  | true =>
    have hturn : program i .go s.mem (s.threads i) =
        some (s.mem, { s.threads i with pc := .begin (.unlock (.error errClosed)) }) := by
      rw [program_begin hpc, beginLogicalRequest, if_pos hclosed]
    exact rejected_of_go hturn (rejected_of_unlock (pc_update ..))

theorem rejected_of_lock (hdraining : s.mem.draining) (hfree : s.mem.admissionMu = none)
    (hpc : (s.threads i).pc = .begin .lock) : ∃ s', Rejected i s s' := by
  have hturn : program i .go s.mem (s.threads i) =
      some ({ s.mem with admissionMu := some i }, { s.threads i with pc := .begin .closedCheck }) := by
    rw [program_begin hpc, beginLogicalRequest, if_pos hfree]
  refine rejected_of_go hturn (rejected_of_closedCheck hdraining ?_)
  exact pc_update ..

theorem rejected_of_holdsLock (h : Inv s) (hdraining : s.mem.draining)
    (hpc : (s.threads i).pc = .begin pc) (hlock : pc ≠ .lock) : ∃ s', Rejected i s s' := by
  have hadmit : (s.threads i).pc.isAdmitting = false := by
    by_contra hadmit
    rw [h.admitting i (by simpa using hadmit)] at hdraining
    cases hdraining
  rw [hpc] at hadmit
  cases pc with
  | lock => exact absurd rfl hlock
  | closedCheck => exact rejected_of_closedCheck hdraining hpc
  | drainingCheck => exact rejected_of_drainingCheck hdraining hpc
  | add => cases hadmit
  | unlock result =>
    cases result with
    | error err => exact rejected_of_unlock hpc
    | ok r => cases hadmit

theorem exists_free (h : Inv s) (hdraining : s.mem.draining) :
    ∃ s', Reaches program Graceful s s' ∧ s'.mem.admissionMu = none ∧
      ∀ j, (s.threads j).pc.holdsLock = false → s'.threads j = s.threads j := by
  cases hlock : s.mem.admissionMu with
  | none => exact ⟨s, .refl, hlock, fun _ _ => rfl⟩
  | some i =>
    have hheld := h.held i hlock
    have hne : ∀ j, (s.threads j).pc.holdsLock = false → j ≠ i := by
      rintro j hj rfl
      rw [hheld] at hj
      cases hj
    have hunlock : ∀ u, (u.threads i).pc = .shutdown .unlock →
        (∀ j, j ≠ i → u.threads j = s.threads j) → Reaches program Graceful s u →
        ∃ s', Reaches program Graceful s s' ∧ s'.mem.admissionMu = none ∧
          ∀ j, (s.threads j).pc.holdsLock = false → s'.threads j = s.threads j := by
      intro u hpc hothers hu
      refine ⟨_, hu.trans (reaches_go (program_shutdown hpc)), rfl, fun j hj => ?_⟩
      exact (update_of_ne (hne j hj) _ _).trans (hothers j (hne j hj))
    cases hpc : (s.threads i).pc with
    | begin pc =>
      have hbegin : pc ≠ .lock := by
        rintro rfl
        rw [hpc] at hheld
        cases hheld
      obtain ⟨s', hs'⟩ := rejected_of_holdsLock h hdraining hpc hbegin
      exact ⟨s', hs'.reaches, hs'.free, fun j hj => hs'.others j (hne j hj)⟩
    | shutdown pc =>
      cases pc with
      | store =>
        refine hunlock _ ?_ ?_ (reaches_go (program_shutdown hpc))
        · exact pc_update ..
        · exact fun j hj => update_of_ne hj _ _
      | unlock => exact hunlock s hpc (fun _ _ => rfl) .refl
      | _ =>
        rw [hpc] at hheld
        cases hheld
    | _ =>
      rw [hpc] at hheld
      cases hheld

theorem exists_rejected (h : Inv s) (hdraining : s.mem.draining)
    (hpc : (s.threads i).pc = .begin pc) : ∃ s', Reaches program Graceful s s' ∧
      ∃ err, s'.threads i = ⟨.idle, (s.threads i).results ++ [.error err]⟩ := by
  by_cases hlock : pc = .lock
  · subst hlock
    obtain ⟨u, hu, hfree, hothers⟩ := exists_free h hdraining
    have hsame : u.threads i = s.threads i := hothers i (by rw [hpc]; rfl)
    obtain ⟨s', hs'⟩ := rejected_of_lock (rejects_of_reaches h hdraining hu).draining hfree
      (hsame ▸ hpc)
    exact ⟨s', hu.trans hs'.reaches, hsame ▸ hs'.result⟩
  · obtain ⟨s', hs'⟩ := rejected_of_holdsLock h hdraining hpc hlock
    exact ⟨s', hs'.reaches, hs'.result⟩

/-- When `Shutdown` starts closing the workers, every request that was admitted has called its
function. After `draining` was set no request is admitted: every call of `beginLogicalRequest` that
returns has failed, and every call can run to its end. -/
theorem graceful_drain (hs : Program.Reaches program Graceful init s) :
    (∀ i, (s.threads i).pc.isClosing = true → ∀ o ∈ s.mem.requests, o.isCalled = true) ∧
    (s.mem.draining = true →
      (∀ s', Program.Reaches program Graceful s s' →
        s'.mem.requests.length = s.mem.requests.length ∧
        ∀ i, ∃ errs : List Error,
          (s'.threads i).results = (s.threads i).results ++ errs.map .error) ∧
      ∀ i pc, (s.threads i).pc = .begin pc →
        ∃ s', Program.Reaches program Graceful s s' ∧
          ∃ err, s'.threads i = ⟨.idle, (s.threads i).results ++ [.error err]⟩) := by
  have hinv := inv_of_reaches hs
  refine ⟨fun i hi o ho => ?_, fun hdraining => ⟨fun s' hs' => ?_, fun i pc hpc => ?_⟩⟩
  · have hcount : s.mem.requests.countP Once.isOutstanding = 0 := by
      have hcounted := hinv.counted
      rw [hinv.drained i hi] at hcounted
      omega
    have hnot := List.countP_eq_zero.mp hcount o ho
    cases o <;> first | rfl | exact absurd rfl hnot
  · have hrejects := rejects_of_reaches hinv hdraining hs'
    exact ⟨hrejects.requests, hrejects.results⟩
  · exact exists_rejected hinv hdraining hpc

/-- A request is admitted, `Shutdown` finds it in flight, and goes on after it has ended. -/
def admitThenShutdown : List (ThreadId × Choice) :=
  (0, .start .beginLogicalRequest) :: List.replicate 5 (0, .go) ++
    (1, .start .shutdown) :: List.replicate 4 (1, .go) ++
    (0, .start (.done 0)) :: List.replicate 3 (0, .go) ++
    [(1, .tick), (1, .go), (2, .start .beginLogicalRequest)]

/-- The request has called its function when `Shutdown` closes the pool, and the other one can only
fail. -/
theorem graceful_drain_admitted : ∃ s, Program.Reaches program Graceful init s ∧
    (s.threads 1).pc = .close .swap ∧ (s.threads 0).results = [.ok 0] ∧
    (∀ o ∈ s.mem.requests, o.isCalled = true) ∧
    ∃ s', Program.Reaches program Graceful s s' ∧
      ∃ err, s'.threads 2 = ⟨.idle, (s.threads 2).results ++ [.error err]⟩ := by
  have hend : (program.exec (fun turn _ => turn.2 ≠ .expired ∧ turn.2 ≠ .start .close)
      admitThenShutdown init).any (fun s => (s.threads 1).pc = .close .swap ∧
        (s.threads 0).results = [.ok 0] ∧ (s.threads 2).pc = .begin .lock ∧
        s.mem.draining = true) = true := by
    decide +kernel
  obtain ⟨s, hs, hend⟩ := (Option.any_eq_true _ _).mp hend
  obtain ⟨hclose, hresults, hbegin, hdraining⟩ := of_decide_eq_true hend
  have hreaches : Program.Reaches program Graceful init s := by
    refine (Program.reaches_of_exec hs).invariant .refl fun _ _ _ hok hu hnext => ?_
    exact .step hu (by simpa [Graceful] using hok) hnext
  obtain ⟨hcalled, hrejects⟩ := graceful_drain hreaches
  exact ⟨s, hreaches, hclose, hresults, hcalled 1 (by rw [hclose]; rfl),
    (hrejects hdraining).2 2 .lock hbegin⟩

/-- However often the functions of the requests are called, the counter that `Shutdown` reads is the
number of requests that are outstanding. -/
theorem inFlight_exact (hs : Program.Reaches program Graceful init s) :
    s.mem.logicalInFlight = s.mem.requests.countP Once.isOutstanding :=
  (inv_of_reaches hs).counted

theorem inFlight_exact_admitted : ∃ s : Config ThreadId Memory Thread,
    s.mem.logicalInFlight = 1 ∧
      s.mem.logicalInFlight = s.mem.requests.countP Once.isOutstanding := by
  refine ⟨_, ?_, inFlight_exact ((@Program.reaches_of_exec _ _ _ _ _ program _ _
    (fun turn _ => turn.2 ≠ .expired ∧ turn.2 ≠ .start .close) (admitThenShutdown.take 6)
    rfl).invariant .refl fun _ _ _ hok hu hnext => ?_)⟩
  · rfl
  · exact .step hu (by simpa [Graceful] using hok) hnext

end BamlRest.Drain
