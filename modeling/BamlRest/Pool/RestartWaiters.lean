import BamlRest.Pool.Restart

/-!
# Who waits for a restart

A thread that finds a restart in progress waits on the condition variable of the handle, and a
caller of `awaitRestart` on a channel.
-/

namespace BamlRest.HotSwap

open Function Interleave Handle

/-! ## Locks and flags -/

/-- The places from the compare-and-swap that won to the store that clears the flag. -/
def RestartPc.owns : RestartPc → Bool
  | .pubLock | .publish | .pubUnlock | .doubleCheck | .doubleClosed _ | .startStop | .starting
  | .startErr | .failLock | .failMark | .failUnlock | .failKill | .swapLock _ | .swapClosed _
  | .swapSlot _ | .dropUnlock _ | .dropKill _ | .swapUnlock | .swapKill | .finLock
  | .finStore => true
  | _ => false

def RestartPc.holdsHandle : RestartPc → Bool
  | .loserCheck | .loserEnter | .loserUnlock | .publish | .pubUnlock | .finStore | .finClose
  | .finBroadcast | .finUnlock => true
  | _ => false

/-- The worker whose restart a thread performs. -/
def Pc.owns : Pc → Option HandleRef
  | .restart _ f pc => if pc.owns then some f else none
  | _ => none

/-- The handle whose lock a thread holds. -/
def Pc.holdsHandle : Pc → Option HandleRef
  | .restart _ f pc => if pc.holdsHandle then some f else none
  | .await h (.snapDone _) | .await h (.snapPending _ _) | .await h (.snapRestarting _ _)
  | .await h (.snapUnlock _ _ _) => some h
  | _ => none

/-- The thread holds the lock of the slots. -/
def Pc.holdsSlots : Pc → Bool
  | .restart _ _ .failMark | .restart _ _ .failUnlock | .restart _ _ (.swapClosed _)
  | .restart _ _ (.swapSlot _) | .restart _ _ (.dropUnlock _) | .restart _ _ .swapUnlock => true
  | _ => false

/-- The thread holds the lock of the restarts. -/
def Pc.holdsRestarts : Pc → Bool
  | .dispatch _ .check | .dispatch _ .refuse | .dispatch _ .add | .dispatch _ .pend
  | .dispatch _ .unlock => true
  | .close .unfence => true
  | _ => false

variable {i j : ThreadId} {m m' : Memory} {pc pc' : Pc} {h : HandleRef}

theorem proj_setHandle {α : Type*} (π : Handle → α) {x} {f : Handle → Handle}
    (hf : ∀ y, π (f y) = π y) (h : HandleRef) :
    π ((m.setHandle x f).handle h) = π (m.handle h) := by
  by_cases heq : h = x
  · subst heq
    simp [hf]
  · simp [update_of_ne heq]

theorem proj_kill {α : Type*} (π : Handle → α) (hf : ∀ y, π { y with killed := true } = π y)
    (x h : HandleRef) : π ((m.kill x).handle h) = π (m.handle h) :=
  proj_setHandle π hf h

theorem proj_startHandle {α : Type*} (π : Handle → α)
    (hf : ∀ y, π { y with healthy := true, started := true } = π y) (id : ℕ) (h : HandleRef) :
    π ((m.startHandle id).handle h) = π (m.handle h) :=
  proj_setHandle π hf h

theorem Origin.inert_returns (o : Origin) (f : HandleRef) :
    (o.returns f).owns = none ∧ (o.returns f).holdsHandle = none ∧
      (o.returns f).holdsSlots = false ∧ (o.returns f).holdsRestarts = false := by
  cases o <;> exact ⟨rfl, rfl, rfl, rfl⟩

theorem Call.inert_entry (call : Call) :
    call.entry.owns = none ∧ call.entry.holdsHandle = none ∧ call.entry.holdsSlots = false ∧
      call.entry.holdsRestarts = false := by
  cases call <;> exact ⟨rfl, rfl, rfl, rfl⟩

theorem Goroutine.inert_entry (g : Goroutine) :
    g.entry.owns = none ∧ g.entry.holdsHandle = none ∧ g.entry.holdsSlots = false ∧
      g.entry.holdsRestarts = false := by
  cases g <;> exact ⟨rfl, rfl, rfl, rfl⟩

theorem slotsLock_of_turn (ht : Turn i m pc m' pc') :
    LockStep i m.writer m'.writer (pc.holdsSlots = true) (pc'.holdsSlots = true) := by
  cases ht
  case failLock h => exact .acquire h rfl
  case swapLock h => exact .acquire h rfl
  case failUnlock => exact .release rfl Bool.false_ne_true
  case dropUnlock => exact .release rfl Bool.false_ne_true
  case swapUnlock => exact .release rfl Bool.false_ne_true
  case start call => exact .keep rfl (by simp [call.inert_entry.2.2.1])
  case run g h => exact .keep rfl (by simp [g.inert_entry.2.2.1])
  case earlyStale o f | loserUnlock o f | finUnlock o f =>
    exact .keep rfl (by simp [(o.inert_returns f).2.2.1])
  all_goals exact .keep rfl id

theorem restartsLock_of_turn (ht : Turn i m pc m' pc') :
    LockStep i m.restartMu m'.restartMu (pc.holdsRestarts = true) (pc'.holdsRestarts = true) := by
  cases ht
  case dispatchLock h => exact .acquire h rfl
  case fence h => exact .acquire h rfl
  case refuse | dispatchUnlock | unfence => exact .release rfl Bool.false_ne_true
  case start call => exact .keep rfl (by simp [call.inert_entry.2.2.2])
  case run g h => exact .keep rfl (by simp [g.inert_entry.2.2.2])
  case earlyStale o f | loserUnlock o f | finUnlock o f =>
    exact .keep rfl (by simp [(o.inert_returns f).2.2.2])
  all_goals exact .keep rfl id

theorem handleLock_of_turn (ht : Turn i m pc m' pc') (h : HandleRef) :
    LockStep i (m.handle h).restartMu (m'.handle h).restartMu (pc.holdsHandle = some h)
      (pc'.holdsHandle = some h) := by
  cases ht
  case loserLock o f hmu | pubLock o f hmu | finLock o f hmu | snapLock f saw hmu =>
    by_cases heq : h = f
    · subst heq
      exact .acquire hmu (by simp)
    · exact .keep (by simp [update_of_ne heq]) fun hh =>
        absurd (Option.some.inj hh).symm heq
  case loserEnter o f | pubUnlock o f | snapWait f _ _ _ | snapPoll f _ _ | snapEnd f _ _
     | snapNothing f _ _ =>
    by_cases heq : h = f
    · subst heq
      exact .release rfl (fun hh => (by cases hh))
    · exact .keep (by simp [update_of_ne heq]) (fun hh => (by cases hh))
  case loserUnlock o f | finUnlock o f =>
    have hreturns := (o.inert_returns f).2.1
    by_cases heq : h = f
    · subst heq
      exact .release rfl (by simp [hreturns])
    · exact .keep (by simp [update_of_ne heq]) (by simp [hreturns])
  case start call => exact .keep rfl (by simp [call.inert_entry.2.1])
  case run g _ => exact .keep rfl (by simp [g.inert_entry.2.1])
  case earlyStale o f => exact .keep rfl (by simp [(o.inert_returns f).2.1])
  all_goals refine .keep ?_ id
  all_goals first
    | rfl
    | exact proj_kill restartMu (fun _ => rfl) _ h
    | exact proj_startHandle restartMu (fun _ => rfl) _ h
    | exact proj_setHandle restartMu (fun _ => by rfl) h

/-! ## The flag -/

theorem flag_of_turn (ht : Turn i m pc m' pc') (h : HandleRef) :
    FlagStep (m.handle h).restarting (m'.handle h).restarting (pc.owns = some h)
      (pc'.owns = some h) := by
  cases ht
  case casWin o f hflag =>
    by_cases heq : h = f
    · subst heq
      exact .acquire hflag (by simp) rfl
    · exact .keep (by simp [update_of_ne heq])
        (by simp [Pc.owns, RestartPc.owns, Ne.symm heq])
  case finStore o f =>
    by_cases heq : h = f
    · subst heq
      exact .release rfl (fun hh => (by cases hh)) (by simp)
    · exact .keep (by simp [update_of_ne heq])
        (by simp [Pc.owns, RestartPc.owns, Ne.symm heq])
  case start call => exact .keep rfl (by rw [call.inert_entry.1]; exact Iff.rfl)
  case run g _ => exact .keep rfl (by rw [g.inert_entry.1]; exact Iff.rfl)
  case earlyStale o f => exact .keep rfl (by rw [(o.inert_returns f).1]; exact Iff.rfl)
  case loserUnlock o f | finUnlock o f =>
    refine .keep ?_ (by rw [(o.inert_returns f).1]; exact Iff.rfl)
    exact proj_setHandle restarting (fun _ => by rfl) h
  all_goals refine .keep ?_ Iff.rfl
  all_goals first
    | rfl
    | exact proj_kill restarting (fun _ => rfl) _ h
    | exact proj_startHandle restarting (fun _ => rfl) _ h
    | exact proj_setHandle restarting (fun _ => by rfl) h

/-- Locks and flags are held by the threads at the places where they are held. -/
structure Locks (s : State) : Prop where
  handle : ∀ h, Locked (fun m : Memory => (m.handle h).restartMu)
    (fun pc : Pc => pc.holdsHandle = some h) s
  slots : Locked Memory.writer (fun pc => pc.holdsSlots = true) s
  restarts : Locked Memory.restartMu (fun pc => pc.holdsRestarts = true) s
  flag : ∀ h, Flagged (fun m : Memory => (m.handle h).restarting)
    (fun pc : Pc => pc.owns = some h) s

theorem locks_init (size : ℕ) : Locks (init size) where
  handle := fun _ _ h => by cases h
  slots := fun _ h => by cases h
  restarts := fun _ h => by cases h
  flag := fun _ => ⟨fun _ h => (by cases h), fun _ _ h => (by cases h), fun h => (by cases h)⟩

variable {s : State}

theorem Locks.update (hs : Locks s) (ht : Turn i s.mem (s.threads i) m' pc') :
    Locks ⟨m', update s.threads i pc'⟩ where
  handle := fun h => (hs.handle h).update (handleLock_of_turn ht h)
  slots := hs.slots.update (slotsLock_of_turn ht)
  restarts := hs.restarts.update (restartsLock_of_turn ht)
  flag := fun h => (hs.flag h).update (flag_of_turn ht h)

/-! ## Waiters -/

/-- The handle whose flag a thread has cleared, before it has woken the waiters. -/
def Pc.closes : Pc → Option HandleRef
  | .restart _ f .finClose | .restart _ f .finBroadcast => some f
  | _ => none

/-- The thread restarts the handle, from the compare-and-swap to the broadcast. -/
def Restarts (pc : Pc) (h : HandleRef) : Prop :=
  pc.owns = some h ∨ pc.closes = some h

/-- The handle whose channel a thread has published, before it has closed it. -/
def Pc.publishes : Pc → Option HandleRef
  | .restart _ _ .pubLock | .restart _ _ .publish => none
  | .restart _ f .finClose => some f
  | pc => pc.owns

/-- The goroutine that will close the channel is about to run, or in progress. -/
def Awaited (s : State) (ch : ChanRef) : Prop :=
  .restart (.awaited ch) ch.handle ∈ s.mem.ready ∨
    ∃ d pc, s.threads d = .restart (.awaited ch) ch.handle pc

/-- Who waits is woken. -/
structure Wakes (s : State) : Prop where
  entering : ∀ i o f, s.threads i = .restart o f .loserEnter → (s.mem.handle f).restarting = true
  late : ∀ d d' h, (s.threads d').closes = some h → (s.threads d).owns = some h →
    ∃ o, s.threads d = .restart o h .pubLock
  waiting : ∀ i h, i ∈ (s.mem.handle h).restartCond → ∃ d, Restarts (s.threads d) h
  opened : ∀ ch, s.mem.isOpen ch →
    (∃ d, (s.threads d).publishes = some ch.handle ∧
      (s.mem.handle ch.handle).restartDone = some ch) ∨ Awaited s ch

theorem Origin.closes_returns (o : Origin) (f : HandleRef) : (o.returns f).closes = none := by
  cases o <;> rfl

theorem Call.closes_entry (call : Call) : call.entry.closes = none := by
  cases call <;> rfl

theorem Goroutine.closes_entry (g : Goroutine) : g.entry.closes = none := by
  cases g <;> rfl

theorem closes_of_turn (ht : Turn i m pc m' pc') (hpc : pc'.closes = some h) :
    pc.closes = some h ∨ pc.owns = some h := by
  cases ht
  case finStore o f => exact .inr hpc
  case finClose o f ch hch | finCloseNone o f hch => exact .inl hpc
  case start call =>
    rw [call.closes_entry] at hpc
    cases hpc
  case run g hg =>
    rw [g.closes_entry] at hpc
    cases hpc
  case earlyStale o f | loserUnlock o f | finUnlock o f =>
    rw [o.closes_returns f] at hpc
    cases hpc
  all_goals cases hpc

theorem restarts_of_turn (ht : Turn i m pc m' pc') (hpc : Restarts pc h) :
    Restarts pc' h ∨ pc.closes = some h ∧ (m'.handle h).restartCond = [] := by
  cases ht
  case finStore o f => exact .inl (.inr (hpc.elim id (fun h => (by cases h))))
  case finClose o f ch hch | finCloseNone o f hch =>
    exact .inl (.inr (hpc.elim (fun h => (by cases h)) id))
  case finBroadcast o f =>
    rcases hpc with hpc | hpc
    · cases hpc
    · cases hpc
      exact .inr ⟨rfl, by simp⟩
  all_goals
    rcases hpc with hpc | hpc
    · first
      | exact .inl (.inl hpc)
      | cases hpc
    · cases hpc

theorem mem_restartCond_of_turn (ht : Turn i m pc m' pc') (hj : j ∈ (m'.handle h).restartCond) :
    j ∈ (m.handle h).restartCond ∨ ∃ o, pc = .restart o h .loserEnter := by
  cases ht
  case loserEnter o f =>
    by_cases heq : h = f
    · subst heq
      exact .inr ⟨o, rfl⟩
    · exact .inl (by simpa [update_of_ne heq] using hj)
  case finBroadcast o f =>
    by_cases heq : h = f
    · subst heq
      simp at hj
    · exact .inl (by simpa [update_of_ne heq] using hj)
  all_goals refine .inl ?_
  all_goals first
    | exact hj
    | exact (proj_kill restartCond (fun _ => rfl) _ h) ▸ hj
    | exact (proj_startHandle restartCond (fun _ => rfl) _ h) ▸ hj
    | rwa [proj_setHandle restartCond (fun _ => by rfl) h] at hj

theorem restartDone_of_turn (ht : Turn i m pc m' pc') {ch}
    (hch : (m.handle h).restartDone = some ch) :
    (m'.handle h).restartDone = some ch ∨ (∃ o, pc = .restart o h .publish) ∨
      m'.isOpen ch = false := by
  cases ht
  case publish o f =>
    by_cases heq : h = f
    · subst heq
      exact .inr (.inl ⟨o, rfl⟩)
    · exact .inl (by simpa [update_of_ne heq] using hch)
  case finClose o f ch' hch' =>
    by_cases heq : h = f
    · subst heq
      rw [hch] at hch'
      cases hch'
      exact .inr (.inr (by simp))
    · exact .inl (by simpa [update_of_ne heq] using hch)
  all_goals refine .inl ?_
  all_goals first
    | exact hch
    | exact (proj_kill restartDone (fun _ => rfl) _ h).trans hch
    | exact (proj_startHandle restartDone (fun _ => rfl) _ h).trans hch
    | exact (proj_setHandle restartDone (fun _ => by rfl) h).trans hch

theorem isOpen_of_turn (ht : Turn i m pc m' pc') {ch} (hch : m'.isOpen ch) : m.isOpen ch ∨
      ((∃ o, pc' = .restart o ch.handle .pubUnlock) ∧ (m'.handle ch.handle).restartDone = some ch) ∨
      .restart (.awaited ch) ch.handle ∈ m'.ready := by
  cases ht
  case publish o f =>
    by_cases heq : ch = ⟨f, m.nextChan⟩
    · subst heq
      exact .inr (.inl ⟨⟨o, rfl⟩, by simp⟩)
    · exact .inl (by simpa [update_of_ne heq] using hch)
  case awaitSpawn f =>
    by_cases heq : ch = ⟨f, m.nextChan⟩
    · subst heq
      exact .inr (.inr (by simp))
    · exact .inl (by simpa [update_of_ne heq] using hch)
  case finClose o f ch' _ | closeDone f ch' =>
    by_cases heq : ch = ch'
    · subst heq
      simp at hch
    · exact .inl (by simpa [update_of_ne heq] using hch)
  all_goals exact .inl hch

theorem publishes_of_turn (ht : Turn i m pc m' pc') (hpc : pc.publishes = some h) :
    pc'.publishes = some h ∨ (m'.handle h).restartDone = none := by
  cases ht
  case finClose o f ch hch =>
    cases hpc
    exact .inr (by simp)
  case finCloseNone o f hch =>
    cases hpc
    exact .inr hch
  all_goals first
    | exact .inl hpc
    | cases hpc

theorem ready_of_turn (ht : Turn i m pc m' pc') {g} (hg : g ∈ m.ready) :
    g ∈ m'.ready ∨ pc' = g.entry := by
  cases ht
  case run g' hg' =>
    by_cases heq : g = g'
    · exact .inr (by rw [heq])
    · exact .inl ((List.mem_erase_of_ne heq).mpr hg)
  case timedOut | stopped | dispatchSpawn | awaitSpawn => exact .inl (List.mem_cons_of_mem _ hg)
  all_goals exact .inl hg

theorem awaited_of_turn (ht : Turn i m pc m' pc') {ch f p} (hpc : pc = .restart (.awaited ch) f p) :
    (∃ p', pc' = .restart (.awaited ch) f p') ∨ m'.isOpen ch = false := by
  subst hpc
  cases ht
  case closeDone => exact .inr (by simp)
  all_goals exact .inl ⟨_, rfl⟩

theorem Awaited.update (ht : Turn i s.mem (s.threads i) m' pc') {ch}
    (h : Awaited s ch) (hopen : m'.isOpen ch) : Awaited ⟨m', update s.threads i pc'⟩ ch := by
  rcases h with hready | ⟨d, p, hd⟩
  · rcases ready_of_turn ht hready with hready | hpc
    · exact .inl hready
    · exact .inr ⟨i, .earlyCheck, (update_self ..).trans hpc⟩
  by_cases heq : d = i
  · subst heq
    rcases awaited_of_turn ht hd with ⟨p', hpc⟩ | hclosed
    · exact .inr ⟨d, p', (update_self ..).trans hpc⟩
    · rw [hclosed] at hopen
      cases hopen
  · exact .inr ⟨d, p, (update_of_ne heq ..).trans hd⟩

theorem restarting_of_entering (ht : Turn i m pc m' pc') {o}
    (hpc : pc' = .restart o h .loserEnter) : (m'.handle h).restarting = true := by
  cases ht
  case loserStays o f hflag =>
    cases hpc
    exact hflag
  case start o | run o _ | earlyStale o _ | loserUnlock o _ | finUnlock o _ => cases o <;> cases hpc
  all_goals cases hpc

theorem restarting_of_turn (ht : Turn i m pc m' pc') (hflag : (m.handle h).restarting = true) :
    (m'.handle h).restarting ∨ pc.holdsHandle = some h := by
  cases ht
  case finStore o f =>
    by_cases heq : h = f
    · subst heq
      exact .inr rfl
    · exact .inl (by simpa [update_of_ne heq] using hflag)
  case casWin o f _ =>
    by_cases heq : h = f
    · subst heq
      exact .inl (by simp)
    · exact .inl (by simpa [update_of_ne heq] using hflag)
  all_goals refine .inl ?_
  all_goals first
    | exact hflag
    | exact (proj_kill restarting (fun _ => rfl) _ h).trans hflag
    | exact (proj_startHandle restarting (fun _ => rfl) _ h).trans hflag
    | exact (proj_setHandle restarting (fun _ => by rfl) h).trans hflag

theorem owns_of_turn (ht : Turn i m pc m' pc') (hpc : pc'.owns = some h) :
    pc.owns = some h ∨ ∃ o, pc' = .restart o h .pubLock := by
  cases ht
  case casWin o f _ =>
    cases hpc
    exact .inr ⟨o, rfl⟩
  case start call =>
    rw [call.inert_entry.1] at hpc
    cases hpc
  case run g _ =>
    rw [g.inert_entry.1] at hpc
    cases hpc
  case earlyStale o f | loserUnlock o f | finUnlock o f =>
    rw [(o.inert_returns f).1] at hpc
    cases hpc
  case finStore o f => cases hpc
  all_goals exact .inl hpc

theorem restartMu_of_pubLock (ht : Turn i m pc m' pc') {o}
    (hpc : pc = .restart o h .pubLock) : (m.handle h).restartMu = none := by
  cases ht
  case pubLock hmu =>
    cases hpc
    exact hmu
  all_goals cases hpc

theorem Pc.holdsHandle_of_closes (hpc : pc.closes = some h) : pc.holdsHandle = some h := by
  cases pc with
  | restart o f p => cases p <;> first | exact hpc | cases hpc
  | idle | dispatch | await | close | reap | ended | closed => cases hpc

theorem Pc.owns_of_closes (hpc : pc.closes = some h) : pc.owns = none := by
  cases pc with
  | restart o f p => cases p <;> first | rfl | cases hpc
  | idle | dispatch | await | close | reap | ended | closed => cases hpc

theorem Pc.restarts_of_publishes (hpc : pc.publishes = some h) : Restarts pc h := by
  cases pc with
  | restart o f p => cases p <;> first | exact .inl hpc | exact .inr hpc
  | idle | dispatch | await | close | reap | ended | closed => cases hpc

theorem wakes_init (size : ℕ) : Wakes (init size) where
  entering := fun _ _ _ h => by cases h
  late := fun _ _ _ h => by cases h
  waiting := fun _ _ h => by cases h
  opened := fun _ h => by cases h

theorem Wakes.entering_update (hs : Wakes s) (hl : Locks s)
    (ht : Turn i s.mem (s.threads i) m' pc') (j o f)
    (hj : update s.threads i pc' j = .restart o f .loserEnter) : (m'.handle f).restarting := by
  by_cases heq : j = i
  · subst heq
    rw [update_self] at hj
    exact restarting_of_entering ht hj
  rw [update_of_ne heq] at hj
  rcases restarting_of_turn ht (hs.entering j o f hj) with hflag | hholds
  · exact hflag
  · exact absurd ((hl.handle f).unique (by rw [hj]; rfl) hholds) heq

theorem Wakes.late_update (hs : Wakes s) (hl : Locks s) (ht : Turn i s.mem (s.threads i) m' pc')
    (d d') (h : HandleRef) (hd' : (update s.threads i pc' d').closes = some h)
    (hd : (update s.threads i pc' d).owns = some h) :
    ∃ o, update s.threads i pc' d = .restart o h .pubLock := by
  by_cases heq' : d' = i
  · subst heq'
    rw [update_self] at hd'
    by_cases heq : d = d'
    · subst heq
      rw [update_self, Pc.owns_of_closes hd'] at hd
      cases hd
    rw [update_of_ne heq] at hd ⊢
    rcases closes_of_turn ht hd' with hclosed | howns
    · exact hs.late d d' h hclosed hd
    · exact absurd ((hl.flag h).unique d d' hd howns) heq
  rw [update_of_ne heq'] at hd'
  by_cases heq : d = i
  · subst heq
    rw [update_self] at hd ⊢
    rcases owns_of_turn ht hd with howns | hwon
    · -- it is at the lock, which the other one holds
      obtain ⟨o, hpc⟩ := hs.late d d' h hd' howns
      have hheld : (s.mem.handle h).restartMu = some d' :=
        hl.handle h d' (Pc.holdsHandle_of_closes hd')
      rw [restartMu_of_pubLock ht hpc] at hheld
      cases hheld
    · exact hwon
  · rw [update_of_ne heq] at hd ⊢
    exact hs.late d d' h hd' hd

theorem Wakes.not_publish (hs : Wakes s) (hl : Locks s) {d o}
    (hd : (s.threads d).publishes = some h) (hi : s.threads i = .restart o h .publish) : False := by
  have howns : (s.threads i).owns = some h := by rw [hi]; rfl
  rcases Pc.restarts_of_publishes hd with hd' | hd'
  · cases (hl.flag h).unique d i hd' howns
    rw [hi] at hd
    cases hd
  obtain ⟨o', hi'⟩ := hs.late i d h hd' howns
  rw [hi] at hi'
  cases hi'

theorem Wakes.eq_of_publishes (hs : Wakes s) (hl : Locks s) {d d'}
    (hd : (s.threads d).closes = some h) (hd' : (s.threads d').publishes = some h) : d' = d := by
  rcases Pc.restarts_of_publishes hd' with howns | hcloses
  · obtain ⟨o, hpc⟩ := hs.late d' d h hd howns
    rw [hpc] at hd'
    cases hd'
  · exact (hl.handle h).unique (Pc.holdsHandle_of_closes hcloses) (Pc.holdsHandle_of_closes hd)

theorem Wakes.opened_update (hs : Wakes s) (hl : Locks s) (ht : Turn i s.mem (s.threads i) m' pc')
    (ch) (hch : m'.isOpen ch) : (∃ d, (update s.threads i pc' d).publishes = some ch.handle ∧
      (m'.handle ch.handle).restartDone = some ch) ∨ Awaited ⟨m', update s.threads i pc'⟩ ch := by
  rcases isOpen_of_turn ht hch with hold | ⟨⟨o, hpc⟩, hdone⟩ | hready
  · rcases hs.opened ch hold with ⟨d, hd, hdone⟩ | hawaited
    · rcases restartDone_of_turn ht hdone with hdone' | ⟨o, hpc⟩ | hclosed
      · left
        by_cases heq : d = i
        · subst heq
          rcases publishes_of_turn ht hd with hpc | hnone
          · exact ⟨d, by rwa [update_self], hdone'⟩
          · rw [hnone] at hdone'
            cases hdone'
        · exact ⟨d, by rwa [update_of_ne heq], hdone'⟩
      · exact (hs.not_publish hl hd hpc).elim
      · rw [hclosed] at hch
        cases hch
    · exact .inr (hawaited.update ht hch)
  · exact .inl ⟨i, by rw [update_self, hpc]; rfl, hdone⟩
  · exact .inr (.inl hready)

theorem Wakes.waiting_update (hs : Wakes s) (hl : Locks s) (ht : Turn i s.mem (s.threads i) m' pc')
    (j) (h : HandleRef) (hj : j ∈ (m'.handle h).restartCond) :
    ∃ d, Restarts (update s.threads i pc' d) h := by
  have hcover : (∃ d, Restarts (s.threads d) h) →
      ∃ d, Restarts (update s.threads i pc' d) h := by
    rintro ⟨d, hd⟩
    by_cases heq : d = i
    · subst heq
      rcases restarts_of_turn ht hd with hd | ⟨-, hnone⟩
      · exact ⟨d, by rwa [update_self]⟩
      · rw [hnone] at hj
        cases hj
    · exact ⟨d, by rwa [update_of_ne heq]⟩
  rcases mem_restartCond_of_turn ht hj with hj | ⟨o, hpc⟩
  · exact hcover (hs.waiting j h hj)
  · obtain ⟨d, hd⟩ := (hl.flag h).held (hs.entering i o h hpc)
    exact hcover ⟨d, Or.inl hd⟩

theorem Wakes.update (hs : Wakes s) (hl : Locks s) (ht : Turn i s.mem (s.threads i) m' pc') :
    Wakes ⟨m', update s.threads i pc'⟩ where
  entering := hs.entering_update hl ht
  late := hs.late_update hl ht
  waiting := hs.waiting_update hl ht
  opened := hs.opened_update hl ht

end BamlRest.HotSwap
