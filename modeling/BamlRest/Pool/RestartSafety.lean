import BamlRest.Pool.RestartWaiters

/-!
# Restarts are safe

This module follows the workers of a pool through every interleaving of restarts and `Close`.

* `Inv`: the invariant, over `Locks` and `Wakes`.
* `restart_safe`: no worker is lost or left running.
-/

namespace BamlRest.HotSwap

open Function Interleave

variable {hasTimeout : Bool} {i j : ThreadId} {m m' : Memory} {pc pc' : Pc} {h : HandleRef}
  {s s' : State}

/-! ## What belongs to a handle -/

/-- The worker that a thread installs is for the slot of the handle that it restarts, and the
channel that a thread waits for is of the handle that it waits for. -/
def Pc.Tagged : Pc → Prop
  | .restart _ f (.swapLock new) | .restart _ f (.swapClosed new)
  | .restart _ f (.swapSlot new) => new.id = f.id
  | .await h (.snapPending _ ch) | .await h (.snapRestarting _ ch)
  | .await h (.snapUnlock _ ch _) => ∀ c, ch = some c → c.handle = h
  | .await h (.wait c) => c.handle = h
  | _ => True

/-- A slot holds a handle of its number, and a handle a channel that was made for it. -/
structure Memory.Tagged (m : Memory) : Prop where
  slot : ∀ k h, m.workers k = some h → k < m.size ∧ h.id = k
  done : ∀ h ch, (m.handle h).restartDone = some ch → ch.handle = h

/-- What belongs to a handle, in the memory and in the threads. -/
structure Tagged (s : State) : Prop where
  mem : s.mem.Tagged
  threads : ∀ i, (s.threads i).Tagged

theorem tagged_init (size : ℕ) : Tagged (init size) where
  mem := by
    refine ⟨fun k h hk => ?_, fun h ch hch => by cases hch⟩
    obtain ⟨hlt, hh⟩ := Option.ite_none_right_eq_some.mp hk
    cases hh
    exact ⟨hlt, rfl⟩
  threads := fun _ => trivial

theorem Memory.Tagged.of_turn (hm : m.Tagged) (hpc : pc.Tagged) (ht : Turn i m pc m' pc') :
    m'.Tagged := by
  cases ht
  case install o f new hslot =>
    refine ⟨fun k h hk => ?_, hm.done⟩
    by_cases heq : k = f.id
    · subst heq
      cases (update_self ..).symm.trans hk
      exact ⟨(hm.slot _ _ hslot).1, hpc⟩
    · exact hm.slot k h ((update_of_ne heq ..).symm.trans hk)
  case publish o f =>
    refine ⟨hm.slot, fun h ch hch => ?_⟩
    by_cases heq : h = f
    · subst heq
      rw [Memory.setHandle_handle, update_self] at hch
      cases hch
      rfl
    · exact hm.done h ch (by simpa [update_of_ne heq] using hch)
  case finClose o f ch' _ =>
    refine ⟨hm.slot, fun h ch hch => ?_⟩
    by_cases heq : h = f
    · subst heq
      rw [Memory.setHandle_handle, update_self] at hch
      cases hch
    · exact hm.done h ch (by simpa [update_of_ne heq] using hch)
  all_goals refine ⟨hm.slot, fun h ch hch => hm.done h ch (Eq.trans (Eq.symm ?_) hch)⟩
  all_goals first
    | rfl
    | exact proj_kill Handle.restartDone (fun _ => rfl) _ h
    | exact proj_startHandle Handle.restartDone (fun _ => rfl) _ h
    | exact proj_setHandle Handle.restartDone (fun _ => by rfl) h

theorem Pc.Tagged.of_turn (hpc : pc.Tagged) (hm : m.Tagged) (ht : Turn i m pc m' pc') :
    pc'.Tagged := by
  cases ht
  case start o | run o _ | earlyStale o _ | loserUnlock o _ | finUnlock o _ => cases o <;> trivial
  case started | awaitSpawn => exact rfl
  case snapDone f _ => exact fun c hc => hm.done f c hc
  case snapWait => exact hpc _ rfl
  all_goals trivial

theorem Tagged.update (hs : Tagged s) (ht : Turn i s.mem (s.threads i) m' pc') :
    Tagged ⟨m', update s.threads i pc'⟩ where
  mem := hs.mem.of_turn (hs.threads i) ht
  threads := by
    intro j
    by_cases heq : j = i
    · subst heq
      simpa using (hs.threads j).of_turn hs.mem ht
    · simpa [update_of_ne heq] using hs.threads j

/-! ## Workers -/

/-- The new worker that a thread has not installed yet. -/
def Pc.carries : Pc → Option HandleRef
  | .restart _ _ (.swapLock new) | .restart _ _ (.swapClosed new) | .restart _ _ (.swapSlot new)
  | .restart _ _ (.dropUnlock new) | .restart _ _ (.dropKill new) => some new
  | .restart _ f .swapUnlock | .restart _ f .swapKill => some f
  | .reap _ (.kill late) => some late
  | _ => none

/-- A worker that was started has been killed, is in its slot, or is about to be installed or
killed. -/
def Kept (s : State) : Prop :=
  ∀ h, (s.mem.handle h).started = true → (s.mem.handle h).killed = true ∨
    s.mem.workers h.id = some h ∨ ∃ d, (s.threads d).carries = some h

theorem kept_init (size : ℕ) : Kept (init size) := by
  intro h hh
  have hnew : h.id < size ∧ h.serial = 0 := of_decide_eq_true hh
  refine .inr (.inl ?_)
  show (if h.id < size then some (⟨h.id, 0⟩ : HandleRef) else none) = some h
  rw [if_pos hnew.1, ← hnew.2]

theorem started_of_turn (ht : Turn i m pc m' pc') (hh : (m'.handle h).started = true) :
    (m.handle h).started ∨ pc'.carries = some h := by
  cases ht
  case started o f | reapStarted f =>
    by_cases heq : h = ⟨f.id, m.nextHandle⟩
    · subst heq
      exact .inr rfl
    · exact .inl (by simpa [update_of_ne heq] using hh)
  all_goals refine .inl (Eq.trans (Eq.symm ?_) hh)
  all_goals first
    | rfl
    | exact proj_kill Handle.started (fun _ => rfl) _ h
    | exact proj_setHandle Handle.started (fun _ => by rfl) h

theorem killed_kill (x) (hh : (m.handle h).killed = true) : ((m.kill x).handle h).killed := by
  by_cases heq : h = x
  · subst heq
    simp
  · simpa [update_of_ne heq] using hh

theorem killed_of_turn (ht : Turn i m pc m' pc') (hh : (m.handle h).killed = true) :
    (m'.handle h).killed := by
  cases ht
  all_goals first
    | exact hh
    | exact killed_kill _ hh
    | exact (proj_startHandle Handle.killed (fun _ => rfl) _ h).trans hh
    | exact (proj_setHandle Handle.killed (fun _ => by rfl) h).trans hh

theorem workers_of_turn (ht : Turn i m pc m' pc') :
    m'.workers = m.workers ∨ ∃ o f new, pc = .restart o f (.swapSlot new) ∧
      m.workers f.id = some f ∧ m'.workers = update m.workers f.id (some new) ∧
      pc'.carries = some f := by
  cases ht
  case install o f new hslot => exact .inr ⟨o, f, new, rfl, hslot, rfl, rfl⟩
  all_goals exact .inl rfl

theorem carries_of_turn (ht : Turn i m pc m' pc') (htag : pc.Tagged) (hpc : pc.carries = some h) :
    pc'.carries = some h ∨ (m'.handle h).killed = true ∨ m'.workers h.id = some h := by
  cases ht
  case install o f new _ =>
    cases hpc
    have hid : h.id = f.id := htag
    exact .inr (.inr (by simp [hid]))
  case dropKill | swapKill | reapKill =>
    cases hpc
    exact .inr (.inl (by simp))
  all_goals first
    | exact .inl hpc
    | cases hpc

theorem Kept.update (hs : Kept s) (htag : Tagged s) (ht : Turn i s.mem (s.threads i) m' pc') :
    Kept ⟨m', update s.threads i pc'⟩ := by
  intro h hh
  have hown (hpc : pc'.carries = some h) :
      ∃ d, (Function.update s.threads i pc' d).carries = some h :=
    ⟨i, by rwa [update_self]⟩
  rcases started_of_turn ht hh with hstarted | hpc
  · rcases hs h hstarted with hkilled | hslot | ⟨d, hd⟩
    · exact .inl (killed_of_turn ht hkilled)
    · rcases workers_of_turn ht with hsame | ⟨o, f, new, hpc, hf, hworkers, hcarries⟩
      · exact .inr (.inl ((congrFun hsame h.id).trans hslot))
      by_cases heq : h.id = f.id
      · rw [heq, hf] at hslot
        cases hslot
        exact .inr (.inr (hown hcarries))
      refine .inr (.inl ?_)
      show m'.workers h.id = some h
      rw [hworkers, update_of_ne heq, hslot]
    by_cases heq : d = i
    · subst heq
      rcases carries_of_turn ht (htag.threads d) hd with hcarries | hkilled | hslot
      · exact .inr (.inr (hown hcarries))
      · exact .inl hkilled
      · exact .inr (.inl hslot)
    · exact .inr (.inr ⟨d, by simpa [update_of_ne heq] using hd⟩)
  · exact .inr (.inr (hown hpc))

/-! ## Close -/

/-- The pool is being closed. -/
def Pc.closing : Pc → Bool
  | .close .swap => false
  | .close _ | .closed => true
  | _ => false

/-- `Close` has gone past the lock of the restarts. -/
def Pc.fenced : Pc → Bool
  | .close .unfence | .close .snapshot | .close (.kill _) | .close .wait | .closed => true
  | _ => false

def Pc.adds : Pc → Bool
  | .dispatch _ .add => true
  | _ => false

def Pc.installs : Pc → Bool
  | .restart _ _ (.swapSlot _) => true
  | _ => false

/-- The workers that `Close` has found in the slots and has not killed yet. -/
def Pc.todo : Pc → Option (List HandleRef)
  | .close (.kill todo) => some todo
  | .close .wait | .closed => some []
  | _ => none

/-- The invariant of `Close`. -/
structure Closing (s : State) : Prop where
  closed : ∀ i, (s.threads i).closing = true → s.mem.closed
  begun : s.mem.closed → ∃ i, (s.threads i).closing = true
  fenced : Barred (fun pc : Pc => pc.fenced = true) (fun pc => pc.adds = true) s
  snapped : Barred (fun pc : Pc => pc.todo.isSome = true) (fun pc => pc.installs = true) s
  covered : ∀ i todo, (s.threads i).todo = some todo →
    ∀ k h, s.mem.workers k = some h → (s.mem.handle h).killed = true ∨ h ∈ todo

theorem closing_init (size : ℕ) : Closing (init size) where
  closed := fun _ h => by cases h
  begun := fun h => by cases h
  fenced := fun _ _ h => by cases h
  snapped := fun _ _ h => by cases h
  covered := fun _ _ h => by cases h

theorem Pc.closing_of_fenced (hpc : pc.fenced) : pc.closing := by
  cases pc with
  | close p => cases p <;> first | rfl | cases hpc
  | closed => rfl
  | idle | restart | dispatch | await | reap | ended => cases hpc

theorem Pc.fenced_of_todo (hpc : pc.todo.isSome) : pc.fenced := by
  cases pc with
  | close p => cases p <;> first | rfl | cases hpc
  | closed => rfl
  | idle | restart | dispatch | await | reap | ended => cases hpc

theorem closed_of_turn (ht : Turn i m pc m' pc') (hm : m.closed) : m'.closed := by
  cases ht
  case closeSwap => rfl
  all_goals exact hm

theorem closing_of_closed (ht : Turn i m pc m' pc') (hm : m'.closed) : m.closed ∨ pc'.closing := by
  cases ht
  case closeSwap => exact .inr rfl
  all_goals exact .inl hm

theorem closing_of_turn (ht : Turn i m pc m' pc') (hpc : pc.closing) : pc'.closing := by
  cases ht
  all_goals first
    | exact hpc
    | cases hpc

theorem Origin.closing_returns (o : Origin) (f : HandleRef) : (o.returns f).closing = false := by
  cases o <;> rfl

theorem Call.closing_entry (call : Call) : call.entry.closing = false := by
  cases call <;> rfl

theorem Goroutine.closing_entry (g : Goroutine) : g.entry.closing = false := by
  cases g <;> rfl

theorem closed_of_closing (ht : Turn i m pc m' pc') (hpc : pc'.closing) :
    pc.closing ∨ m'.closed := by
  cases ht
  case closeSwap => exact .inr rfl
  case start call =>
    rw [call.closing_entry] at hpc
    cases hpc
  case run g _ =>
    rw [g.closing_entry] at hpc
    cases hpc
  case earlyStale o f | loserUnlock o f | finUnlock o f =>
    rw [o.closing_returns f] at hpc
    cases hpc
  all_goals exact .inl hpc

theorem fenced_of_turn (ht : Turn i m pc m' pc') (hpc : pc'.fenced) :
    pc.fenced ∨ pc.closing ∧ m.restartMu = none := by
  cases ht
  case fence hmu => exact .inr ⟨rfl, hmu⟩
  case start o | run o _ | earlyStale o _ | loserUnlock o _ | finUnlock o _ => cases o <;> cases hpc
  all_goals exact .inl hpc

theorem adds_of_turn (ht : Turn i m pc m' pc') (hpc : pc'.adds) : m.closed = false := by
  cases ht
  case dispatchOpen hopen => exact hopen
  case start o | run o _ | earlyStale o _ | loserUnlock o _ | finUnlock o _ => cases o <;> cases hpc
  all_goals cases hpc

theorem installs_of_turn (ht : Turn i m pc m' pc') (hpc : pc'.installs) : m.closed = false := by
  cases ht
  case swapOpen hopen => exact hopen
  case start o | run o _ | earlyStale o _ | loserUnlock o _ | finUnlock o _ => cases o <;> cases hpc
  all_goals cases hpc

theorem Pc.holdsRestarts_of_adds (hpc : pc.adds) : pc.holdsRestarts := by
  cases pc with
  | dispatch f p => cases p <;> first | rfl | cases hpc
  | idle | restart | await | close | reap | ended | closed => cases hpc

theorem Pc.holdsSlots_of_installs (hpc : pc.installs) : pc.holdsSlots := by
  cases pc with
  | restart o f p => cases p <;> first | rfl | cases hpc
  | idle | dispatch | await | close | reap | ended | closed => cases hpc

theorem todo_of_turn (ht : Turn i m pc m' pc') {todo} (hpc : pc'.todo = some todo) :
    (∃ todo', pc.todo = some todo' ∧ ∀ x ∈ todo', (m'.handle x).killed = true ∨ x ∈ todo) ∨
      pc.fenced ∧ m.writer = none ∧ todo = (List.range m.size).filterMap m.workers := by
  cases ht
  case snapshot hfree =>
    cases hpc
    exact .inr ⟨rfl, hfree, rfl⟩
  case closeKill x xs =>
    cases hpc
    refine .inl ⟨x :: todo, rfl, fun y hy => ?_⟩
    rcases List.mem_cons.mp hy with rfl | hy
    · exact .inl (by simp)
    · exact .inr hy
  case closeKilled | closeWait =>
    cases hpc
    exact .inl ⟨[], rfl, fun _ h => .inr h⟩
  case start o | run o _ | earlyStale o _ | loserUnlock o _ | finUnlock o _ => cases o <;> cases hpc
  all_goals cases hpc

theorem restartWG_of_turn (ht : Turn i m pc m' pc') : m'.restartWG ≤ m.restartWG ∨ pc.adds := by
  cases ht
  case add h => exact .inr rfl
  case wgDone => exact .inl (Nat.sub_le ..)
  all_goals exact .inl le_rfl

theorem Closing.fenced_update (hs : Closing s) (hl : Locks s)
    (ht : Turn i s.mem (s.threads i) m' pc') :
    Barred (fun pc : Pc => pc.fenced = true) (fun pc => pc.adds = true)
      ⟨m', update s.threads i pc'⟩ := by
  refine hs.fenced.update hl.restarts (fun _ => Pc.holdsRestarts_of_adds)
    (fun k hk => hs.closed k (Pc.closing_of_fenced hk)) (fun hpc => ?_) fun hpc => ?_
  · exact (fenced_of_turn ht hpc).imp_right (And.imp_left (hs.closed i))
  · exact .inr (by rw [adds_of_turn ht hpc]; exact Bool.false_ne_true)

theorem Closing.snapped_update (hs : Closing s) (hl : Locks s)
    (ht : Turn i s.mem (s.threads i) m' pc') :
    Barred (fun pc : Pc => pc.todo.isSome = true) (fun pc => pc.installs = true)
      ⟨m', update s.threads i pc'⟩ := by
  have hclosed (k : ThreadId) (hk : (s.threads k).fenced = true) : s.mem.closed :=
    hs.closed k (Pc.closing_of_fenced hk)
  refine hs.snapped.update hl.slots (fun _ => Pc.holdsSlots_of_installs)
    (fun k hk => hclosed k (Pc.fenced_of_todo hk)) (fun hpc => ?_) fun hpc => ?_
  · obtain ⟨todo, htodo⟩ := Option.isSome_iff_exists.mp hpc
    rcases todo_of_turn ht htodo with ⟨todo', htodo', -⟩ | ⟨hfenced, hfree, -⟩
    · exact .inl (by rw [htodo']; rfl)
    · exact .inr ⟨hclosed i hfenced, hfree⟩
  · exact .inr (by rw [installs_of_turn ht hpc]; exact Bool.false_ne_true)

theorem Closing.covered_update (hs : Closing s) (htag : Tagged s)
    (ht : Turn i s.mem (s.threads i) m' pc') (j todo)
    (hj : (update s.threads i pc' j).todo = some todo) (k : ℕ) (h : HandleRef)
    (hk : m'.workers k = some h) : (m'.handle h).killed = true ∨ h ∈ todo := by
  have hkept {j : ThreadId} {todo : List HandleRef} (hj : (s.threads j).todo = some todo) :
      (m'.handle h).killed ∨ h ∈ todo := by
    rcases workers_of_turn ht with hsame | ⟨o, f, new, hpc, -⟩
    · rw [hsame] at hk
      exact (hs.covered j todo hj k h hk).imp_left (killed_of_turn ht)
    · exact absurd (by rw [hpc]; rfl) (hs.snapped j i (by simp [hj]))
  by_cases heq : j = i
  · subst heq
    rw [update_self] at hj
    rcases todo_of_turn ht hj with ⟨todo', htodo', hdone⟩ | ⟨-, -, rfl⟩
    · exact (hkept htodo').elim Or.inl (hdone h)
    rcases workers_of_turn ht with hsame | ⟨o, f, new, hpc, -, -, hcarries⟩
    · rw [hsame] at hk
      refine .inr (List.mem_filterMap.mpr ⟨k, ?_, hk⟩)
      exact List.mem_range.mpr (htag.mem.slot k h hk).1
    -- the thread that installs a worker is not the one that closes the pool
    rw [hpc] at ht
    cases ht <;> cases hj
  · rw [update_of_ne heq] at hj
    exact hkept hj

theorem Closing.update (hs : Closing s) (hl : Locks s) (htag : Tagged s)
    (ht : Turn i s.mem (s.threads i) m' pc') : Closing ⟨m', update s.threads i pc'⟩ where
  closed := by
    intro j hj
    dsimp only at hj ⊢
    by_cases heq : j = i
    · subst heq
      rw [update_self] at hj
      exact (closed_of_closing ht hj).elim (fun h => closed_of_turn ht (hs.closed j h)) id
    · rw [update_of_ne heq] at hj
      exact closed_of_turn ht (hs.closed j hj)
  begun := by
    intro hclosed
    dsimp only at hclosed ⊢
    rcases closing_of_closed ht hclosed with hbefore | hpc
    · obtain ⟨j, hj⟩ := hs.begun hbefore
      by_cases heq : j = i
      · subst heq
        exact ⟨j, by rw [update_self]; exact closing_of_turn ht hj⟩
      · exact ⟨j, by rwa [update_of_ne heq]⟩
    · exact ⟨i, by rwa [update_self]⟩
  fenced := hs.fenced_update hl ht
  snapped := hs.snapped_update hl ht
  covered := hs.covered_update htag ht

/-! ## Every interleaving -/

/-- What holds in every reachable state. -/
structure Inv (s : State) : Prop where
  locks : Locks s
  wakes : Wakes s
  tagged : Tagged s
  kept : Kept s
  closing : Closing s

theorem inv_init (size : ℕ) : Inv (init size) :=
  ⟨locks_init size, wakes_init size, tagged_init size, kept_init size, closing_init size⟩

variable {turn : ThreadId × Choice}

theorem Inv.next (hs : Inv s) (h : (program hasTimeout).next turn s = some s') : Inv s' := by
  obtain ⟨m', pc', ht, rfl⟩ := turn_of_next h
  exact ⟨hs.locks.update ht, hs.wakes.update hs.locks ht, hs.tagged.update ht,
    hs.kept.update hs.tagged ht, hs.closing.update hs.locks hs.tagged ht⟩

theorem Inv.of_reaches {size : ℕ}
    (h : (program hasTimeout).Reaches (fun _ _ => True) (init size) s) : Inv s :=
  h.invariant (inv_init size) fun _ _ _ _ hs hnext => hs.next hnext

def Pc.waitsFor : Pc → Option HandleRef
  | .restart _ f .loserWait => some f
  | .await h (.wait _) => some h
  | _ => none

/-- A thread that waits can go on: it was signalled, or its channel is closed. -/
def Woken (hasTimeout : Bool) (s : State) (i : ThreadId) : Prop :=
  ((program hasTimeout).next (i, .go) s).isSome = true ∨
    ((program hasTimeout).next (i, .received) s).isSome

/-- The thread waits for the goroutine that it has started itself, which is still to end. -/
def WaitsForOwn (s : State) (i : ThreadId) : Prop :=
  ∃ h ch, s.threads i = .await h (.wait ch) ∧ Awaited s ch

variable {f : HandleRef}

theorem woken_of_signalled {o}
    (hi : s.threads i = .restart o f .loserWait) (hcond : i ∉ (s.mem.handle f).restartCond) :
    Woken hasTimeout s i := by
  left
  simp [Program.next, program, hi, restartWorker, hcond]

theorem woken_of_closed {ch} (hi : s.threads i = .await f (.wait ch))
    (hch : s.mem.isOpen ch = false) : Woken hasTimeout s i := by
  right
  simp [Program.next, program, hi, awaitRestart, hch]

theorem Pc.waitsFor_eq_some (hpc : pc.waitsFor = some h) :
    (∃ o, pc = .restart o h .loserWait) ∨ ∃ ch, pc = .await h (.wait ch) := by
  cases pc with
  | restart o f p =>
    cases p
    case loserWait =>
      cases hpc
      exact .inl ⟨o, rfl⟩
    all_goals cases hpc
  | await f p =>
    cases p
    case wait ch =>
      cases hpc
      exact .inr ⟨ch, rfl⟩
    all_goals cases hpc
  | idle | dispatch | close | reap | ended | closed => cases hpc

theorem Inv.waits (hs : Inv s) (hi : (s.threads i).waitsFor = some h) :
    Woken hasTimeout s i ∨ (∃ d, Restarts (s.threads d) h) ∨ WaitsForOwn s i := by
  rcases Pc.waitsFor_eq_some hi with ⟨o, hpc⟩ | ⟨ch, hpc⟩
  · by_cases hcond : i ∈ (s.mem.handle h).restartCond
    · exact .inr (.inl (hs.wakes.waiting i h hcond))
    · exact .inl (woken_of_signalled hpc hcond)
  cases hopen : s.mem.isOpen ch with
  | false => exact .inl (woken_of_closed hpc hopen)
  | true =>
    have htag : ch.handle = h := by
      have := hs.tagged.threads i
      rwa [hpc] at this
    rcases hs.wakes.opened ch hopen with ⟨d, hd, -⟩ | hawaited
    · exact .inr (.inl ⟨d, htag ▸ Pc.restarts_of_publishes hd⟩)
    · exact .inr (.inr ⟨h, ch, hpc, hawaited⟩)

theorem Inv.wakes_at_end (hs : Inv s) (hnext : (program hasTimeout).next turn s = some s') {d}
    (hd : Restarts (s.threads d) h) (hd' : ¬Restarts (s'.threads d) h)
    (hi : (s'.threads i).waitsFor = some h) : Woken hasTimeout s' i ∨ WaitsForOwn s' i := by
  have hs' := hs.next hnext
  obtain ⟨m', pc', ht, rfl⟩ := turn_of_next hnext
  have heq : d = turn.1 := by
    by_contra hne
    exact hd' (by simpa [update_of_ne hne] using hd)
  subst heq
  simp only [update_self] at hd'
  obtain ⟨hcloses, hcond⟩ := (restarts_of_turn ht hd).resolve_left hd'
  rcases Pc.waitsFor_eq_some hi with ⟨o, hpc⟩ | ⟨ch, hpc⟩
  · refine .inl (woken_of_signalled hpc ?_)
    show i ∉ (m'.handle h).restartCond
    rw [hcond]
    exact List.not_mem_nil
  cases hopen : m'.isOpen ch with
  | false => exact .inl (woken_of_closed hpc hopen)
  | true =>
    have htag : ch.handle = h := by
      have := hs'.tagged.threads i
      rwa [hpc] at this
    rcases hs'.wakes.opened ch hopen with ⟨e, he, -⟩ | hawaited
    · -- only the thread whose restart has ended had published a channel
      exfalso
      rw [htag] at he
      by_cases heq : e = turn.1
      · subst heq
        simp only [update_self] at he
        exact hd' (Pc.restarts_of_publishes he)
      · simp only [update_of_ne heq] at he
        exact heq (hs.wakes.eq_of_publishes hs.locks hcloses he)
    · exact .inr ⟨h, ch, hpc, hawaited⟩

theorem wakes_own_at_end
    (hnext : (program hasTimeout).next turn s = some s') {d ch p} (hd : s.threads d = .restart (.awaited ch) f p)
    (hd' : s'.threads d = .ended) (hi : s'.threads i = .await h (.wait ch)) :
    Woken hasTimeout s' i := by
  obtain ⟨m', pc', ht, rfl⟩ := turn_of_next hnext
  by_cases heq : d = turn.1
  · subst heq
    simp only [update_self] at hd'
    rcases awaited_of_turn ht hd with ⟨p', hp'⟩ | hclosed
    · rw [hd'] at hp'
      cases hp'
    · exact woken_of_closed hi hclosed
  simp only [update_of_ne heq] at hd'
  rw [hd] at hd'
  cases hd'

theorem Inv.quiescent (hs : Inv s) (hq : Quiescent s) (hh : (s.mem.handle h).started = true) :
    (s.mem.handle h).killed ∨ s.mem.closed = false ∧ s.mem.workers h.id = some h := by
  rcases hs.kept h hh with hkilled | hslot | ⟨d, hd⟩
  · exact .inl hkilled
  · cases hclosed : s.mem.closed with
    | false => exact .inr ⟨rfl, hslot⟩
    | true =>
      obtain ⟨i, hi⟩ := hs.closing.begun hclosed
      have hpc : s.threads i = .closed := by
        have hrest := hq.2 i
        cases hpc : s.threads i
        case closed => rfl
        all_goals
          rw [hpc] at hi hrest
          first | cases hi | cases hrest
      refine .inl ((hs.closing.covered i [] (by rw [hpc]; rfl) _ h hslot).resolve_right ?_)
      exact List.not_mem_nil
  · exfalso
    have hrest := hq.2 d
    cases hpc : s.threads d
    all_goals
      rw [hpc] at hd hrest
      first | cases hd | cases hrest

/-- Restarts are safe in every interleaving of restarts, waiters and `Close`. Of the starts for a
handle one is waited for by a restart; when nothing is in progress, every worker that was started
is killed or in its slot of a pool that is not closed; who waits for a restart waits for one that is
in progress and can go on when it ends; while `Close` waits for the registered restarts none is
added; and after `Close` no worker is installed. -/
theorem restart_safe (hasTimeout : Bool) (size : ℕ) (s : State)
    (h : (program hasTimeout).Reaches (fun _ _ => True) (init size) s) :
    (∀ i j o o' f, s.threads i = .restart o f .starting → s.threads j = .restart o' f .starting →
      i = j) ∧
    (Quiescent s → ∀ f, (s.mem.handle f).started = true →
      (s.mem.handle f).killed = true ∨ s.mem.closed = false ∧ s.mem.workers f.id = some f) ∧
    (∀ i f, (s.threads i).waitsFor = some f →
      Woken hasTimeout s i ∨ (∃ d, Restarts (s.threads d) f) ∨ WaitsForOwn s i) ∧
    ∀ turn s', (program hasTimeout).next turn s = some s' →
      (∀ d f, Restarts (s.threads d) f → ¬Restarts (s'.threads d) f →
        ∀ i, (s'.threads i).waitsFor = some f → Woken hasTimeout s' i ∨ WaitsForOwn s' i) ∧
      (∀ d ch f p, s.threads d = .restart (.awaited ch) f p → s'.threads d = .ended →
        ∀ i f', s'.threads i = .await f' (.wait ch) → Woken hasTimeout s' i) ∧
      ((∃ i, s.threads i = .close .wait ∨ s.threads i = .closed) →
        s'.mem.restartWG ≤ s.mem.restartWG) ∧
      ((∃ i, s.threads i = .closed) → s'.mem.workers = s.mem.workers) := by
  have hs := Inv.of_reaches h
  refine ⟨fun i j o o' f hi hj => ?_, fun hq f hf => hs.quiescent hq hf,
    fun i f hi => hs.waits hi, fun turn s' hnext => ⟨fun d f hd hd' i hi => ?_,
      fun d ch f p hd hd' i f' hi => wakes_own_at_end hnext hd hd' hi, ?_, ?_⟩⟩
  · exact (hs.locks.flag f).unique i j (by rw [hi]; rfl) (by rw [hj]; rfl)
  · exact hs.wakes_at_end hnext hd hd' hi
  · rintro ⟨i, hi⟩
    obtain ⟨m', pc', ht, rfl⟩ := turn_of_next hnext
    refine (restartWG_of_turn ht).resolve_right (hs.closing.fenced i turn.1 ?_)
    rcases hi with hi | hi <;> rw [hi] <;> rfl
  rintro ⟨i, hi⟩
  obtain ⟨m', pc', ht, rfl⟩ := turn_of_next hnext
  refine (workers_of_turn ht).resolve_right ?_
  rintro ⟨o, f, new, hpc, -⟩
  exact hs.closing.snapped i turn.1 (by rw [hi]; rfl) (by rw [hpc]; rfl)

def restartTurns (i : ThreadId) : List (ThreadId × Choice) :=
  (i, .start (.restartWorker ⟨0, 0⟩)) :: List.replicate 8 (i, .go)

/-- A restart that replaces the worker, and then `Close`. -/
def restartThenClose : List (ThreadId × Choice) :=
  restartTurns 0 ++ (0, .started) :: List.replicate 10 (0, .go) ++
    (1, .start .close) :: List.replicate 9 (1, .go)

/-- After both have returned, the worker and its replacement are killed. -/
theorem restart_safe_of_replaced :
    ∃ s, (program true).exec (fun _ _ => true) restartThenClose (init 1) = some s ∧
      s.threads 1 = .closed ∧ s.mem.workers 0 = some ⟨0, 1⟩ ∧
      (s.mem.handle ⟨0, 0⟩).killed = true ∧ (s.mem.handle ⟨0, 1⟩).killed = true := by
  obtain ⟨s, hs⟩ : ∃ s, (program true).exec (fun _ _ => true) restartThenClose (init 1) = some s :=
    Option.isSome_iff_exists.mp (by decide +kernel)
  have hend : ((program true).exec (fun _ _ => true) restartThenClose (init 1)).map (fun s =>
      ([0, 1].map s.threads, s.mem.ready, s.mem.closed, s.mem.workers 0,
        [(⟨0, 0⟩ : HandleRef), ⟨0, 1⟩].map fun f => (s.mem.handle f).started)) =
      some ([.ended, .closed], [], true, some ⟨0, 1⟩, [true, true]) := by
    decide +kernel
  rw [hs, Option.map_some, Option.some.injEq] at hend
  simp only [List.map_cons, List.map_nil, Prod.mk.injEq, List.cons.injEq, and_true] at hend
  obtain ⟨⟨h0, h1⟩, hready, hclosed, hslot, hold, hnew⟩ := hend
  have hq : Quiescent s := by
    refine ⟨hready, fun i => ?_⟩
    by_cases hi : i ∈ restartThenClose.map Prod.fst
    · have hi' : i = 0 ∨ i = 1 := by
        revert hi
        simp [restartThenClose, restartTurns]
      rcases hi' with rfl | rfl
      · rw [h0]
        rfl
      · rw [h1]
        rfl
    · rw [Program.threads_of_exec hs hi]
      rfl
  have hreach : (program true).Reaches (fun _ _ => True) (init 1) s := by
    refine (Program.reaches_of_exec hs).invariant .refl fun _ _ _ _ hu hnext => ?_
    exact .step hu trivial hnext
  have hkilled (f : HandleRef) (hf : (s.mem.handle f).started = true) :
      (s.mem.handle f).killed = true := by
    refine ((restart_safe true 1 s hreach).2.1 hq f hf).resolve_right fun hopen => ?_
    rw [hclosed] at hopen
    cases hopen.1
  exact ⟨s, hs, h1, hslot, hkilled _ hold, hkilled _ hnew⟩

/-- A restart whose start runs out of time, its goroutine that waits for the worker, and another
restart of the handle. -/
def restartAfterTimeout : List (ThreadId × Choice) :=
  restartTurns 0 ++ (0, .timedOut) :: List.replicate 10 (0, .go) ++
    (2, .run (.reap ⟨0, 0⟩)) :: restartTurns 1

/-- Two starts for the handle are in progress: the one that was given up, and the next one. -/
theorem second_start_after_timeout :
    ∃ s, (program true).exec (fun _ _ => true) restartAfterTimeout (init 1) = some s ∧
      s.threads 0 = .ended ∧ s.threads 1 = .restart .call ⟨0, 0⟩ .starting ∧
      s.threads 2 = .reap ⟨0, 0⟩ .wait := by
  have hend : ((program true).exec (fun _ _ => true) restartAfterTimeout (init 1)).map (fun s =>
      [0, 1, 2].map s.threads) =
      some [.ended, .restart .call ⟨0, 0⟩ .starting, .reap ⟨0, 0⟩ .wait] := by
    decide +kernel
  obtain ⟨s, hs, hthreads⟩ := Option.map_eq_some_iff.mp hend
  simp only [List.map_cons, List.map_nil, List.cons.injEq, and_true] at hthreads
  exact ⟨s, hs, hthreads⟩

end BamlRest.HotSwap
