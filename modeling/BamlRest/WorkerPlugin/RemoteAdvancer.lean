import BamlRest.Bamlutils.RoundRobin
import BamlRest.WorkerPlugin.SharedState

/-!
# Round robin over the shared counters of the host

A pool-managed worker does not count by itself: `RemoteAdvancer.Advance` asks the host for
`FetchAdd(client, 1, request id)` and applies the modulus locally.

* `SharedStateStore.fetchAdd`: the store, one call at a time; by `SharedState.fetchAdd_alone` this is
  what the concurrent `SharedState.fetchAdd` does when no other call comes in between.
* `RemoteAdvancer.advance`: the call of a worker.
* `advance_rotates_iff`: when the calls of a client visit its children in turn.
-/

namespace BamlRest

/-! ## The store, one call at a time -/

/-- `SharedStateStore`: the counters with their initial values, and the cached answers by key and
operation id. -/
structure SharedStateStore where
  initialValue : Bytes → UInt64
  counters : Bytes → Option UInt64
  idem : Bytes × Bytes → Option UInt64

namespace SharedStateStore

/-- `NewSharedStateStore`. -/
def new (initialValue : Bytes → UInt64) : SharedStateStore where
  initialValue := initialValue
  counters := fun _ => none
  idem := fun _ => none

/-- `convertSharedStateSeeds` and the callback of `pool.New`: a configured start, read as
unsigned, or a random offset. -/
def poolInitialValue (starts : Bytes → Option Int64) (rand : Bytes → UInt32) (key : Bytes) :
    UInt64 :=
  match starts key with
  | some seed => seed.toUInt64
  | none => (rand key).toUInt64

def counterFor (s : SharedStateStore) (key : Bytes) : UInt64 :=
  (s.counters key).getD (s.initialValue key)

/-- `counter.Add(delta) - delta`. -/
def add (s : SharedStateStore) (key : Bytes) (delta : UInt64) : UInt64 × SharedStateStore :=
  let added := s.counterFor key + delta
  (added - delta, { s with counters := Function.update s.counters key (some added) })

/-- `FetchAdd`. Without an operation id nothing is cached. -/
def fetchAdd (s : SharedStateStore) (key : Bytes) (delta : UInt64) (opID : Bytes) :
    UInt64 × SharedStateStore :=
  if opID = [] then s.add key delta
  else
    match s.idem (key, opID) with
    | some previous => (previous, s)
    | none =>
      let (previous, s') := s.add key delta
      (previous, { s' with idem := Function.update s'.idem (key, opID) (some previous) })

variable (s : SharedStateStore) {key opID : Bytes} (delta : UInt64)

theorem fetchAdd_of_uncached (h : opID = [] ∨ s.idem (key, opID) = none) :
    (s.fetchAdd key delta opID).1 = s.counterFor key ∧
      (s.fetchAdd key delta opID).2.counterFor key = s.counterFor key + delta := by
  rcases h with rfl | h
  · simp [fetchAdd, add, counterFor]
  · by_cases hop : opID = [] <;> simp [fetchAdd, add, counterFor, h, hop]

theorem counterFor_fetchAdd_of_ne {other} (h : other ≠ key) :
    (s.fetchAdd other delta opID).2.counterFor key = s.counterFor key := by
  unfold fetchAdd
  split
  · simp [add, counterFor, Function.update_of_ne h.symm]
  split
  · rfl
  · simp [add, counterFor, Function.update_of_ne h.symm]

theorem idem_fetchAdd {other otherOp}
    (h : s.idem (other, otherOp) = none) (hne : other = key → opID ≠ otherOp) :
    (s.fetchAdd key delta opID).2.idem (other, otherOp) = none := by
  unfold fetchAdd
  split
  · exact h
  split
  · exact h
  have hkey : (other, otherOp) ≠ (key, opID) := by
    intro heq
    obtain ⟨h1, h2⟩ := Prod.mk.inj heq
    exact hne h1 h2.symm
  simp only [add, Function.update_of_ne hkey]
  exact h

end SharedStateStore

/-! ### Calls that nothing disturbs -/

namespace SharedState

open Function Relation

variable {ttl : ℤ} {i : CallId} {m : Memory} {a : FetchArgs}

/-- The turns of a call while no other call takes one. -/
def Alone (ttl : ℤ) (i : CallId) : Memory × Pc → Memory × Pc → Prop :=
  ReflTransGen fun x y => Turn ttl i x.1 x.2 y.1 y.2

theorem Alone.turn {x : Memory × Pc} {m m' pc pc'} (h : Alone ttl i x (m, pc))
    (hturn : Turn ttl i m pc m' pc') : Alone ttl i x (m', pc') :=
  h.tail hturn

theorem Alone.append {x y z : Memory × Pc} (h : Alone ttl i x y) (h' : Alone ttl i y z) :
    Alone ttl i x z :=
  h.trans h'

/-- Every registered scope is live, and all but one are free. -/
def FreeScopes (held : Option ScopeRef) (m : Memory) : Prop :=
  ∀ opID sc, m.scopes opID = some sc → sc.serial < m.nextScope ∧ (m.scope sc).deleted = false ∧
    (some sc ≠ held → (m.scope sc).holder = none)

/-- No call is in progress: the scopes are free, and every cached advance has ended. -/
structure Resting (m : Memory) : Prop where
  scopes : FreeScopes none m
  idem : ∀ k e, m.idem k = some e → e.serial < m.nextEntry ∧ (m.entry e).once = .done

/-- The store that a memory stands for. -/
structure Stores (m : Memory) (s : SharedStateStore) : Prop where
  counters : m.counters = s.counters
  idem : ∀ k, (m.idem k).map (fun e => (m.entry e).previous) = s.idem k

/-- Two memories with the same counters and the same cache. -/
structure SameCache (m m' : Memory) : Prop where
  counters : m'.counters = m.counters
  idem : m'.idem = m.idem
  entry : m'.entry = m.entry
  nextEntry : m'.nextEntry = m.nextEntry

theorem FreeScopes.setScope {held held' sc} {f : Scope → Scope} (hm : FreeScopes held m)
    (hheld : held = none ∨ held = some sc)
    (hf : (m.scope sc).deleted = false → (f (m.scope sc)).deleted = false)
    (hfree : some sc ≠ held' → (f (m.scope sc)).holder = none) :
    FreeScopes held' (m.setScope sc f) := by
  intro opID sc' hsc'
  obtain ⟨hlt, hlive, hother⟩ := hm opID sc' hsc'
  by_cases heq : sc' = sc
  · subst heq
    rw [Memory.setScope_scope, update_self]
    exact ⟨hlt, hf hlive, hfree⟩
  · rw [Memory.setScope_scope, update_of_ne heq]
    refine ⟨hlt, hlive, fun _ => hother ?_⟩
    rcases hheld with rfl | rfl
    · exact Option.some_ne_none _
    · simpa using heq

theorem FreeScopes.newScope (hm : FreeScopes none m) (opID) : FreeScopes none
    { (m.setScope ⟨opID, m.nextScope⟩ fun _ => ⟨none, some [], 0, false⟩).setScopes opID
        (some ⟨opID, m.nextScope⟩) with nextScope := m.nextScope + 1 } := by
  intro opID' sc hsc
  by_cases heq : sc = ⟨opID, m.nextScope⟩
  · subst heq
    exact ⟨Nat.lt_succ_self _, by simp, by simp⟩
  have hold : m.scopes opID' = some sc := by
    by_cases hop : opID' = opID
    · subst hop
      simp [Ne.symm heq] at hsc
    · simpa [update_of_ne hop] using hsc
  obtain ⟨hlt, hfree⟩ := hm opID' sc hold
  exact ⟨hlt.trans (Nat.lt_succ_self _), by simpa [update_of_ne heq] using hfree⟩

variable (ttl i a)

/-- From the stamp on, for a scope that is registered: its lock is taken and the key is in it. -/
theorem alone_addKey {sc} (hm : FreeScopes none m) (hsc : m.scopes a.opID = some sc) : ∃ m',
    Alone ttl i (m, .fetch a (.stamp sc)) (m', .fetch a (.loadIdem sc)) ∧
      FreeScopes (some sc) m' ∧ SameCache m m' := by
  obtain ⟨-, hlive, hholder⟩ := hm _ _ hsc
  have hstart : Alone ttl i (m, .fetch a (.stamp sc)) _ := .refl
  refine ⟨_, (((hstart.turn .stamp).turn (.lock ?_)).turn (.isLive ?_)).turn .addKey, ?_,
    rfl, rfl, rfl, rfl⟩
  · simpa using hholder (Option.some_ne_none _)
  · simpa using hlive
  have hstamp : FreeScopes none (m.setScope sc fun s => { s with lastAccessedNano := a.now }) :=
    hm.setScope (.inl rfl) id fun _ => hholder (Option.some_ne_none _)
  have hlock : FreeScopes (some sc) ((m.setScope sc fun s =>
      { s with lastAccessedNano := a.now }).setScope sc fun s => { s with holder := some i }) :=
    hstamp.setScope (.inl rfl) id fun h => absurd rfl h
  exact hlock.setScope (.inr rfl) id fun h => absurd rfl h

/-- The scope of the request, which may be a new one, with the key in it. -/
theorem alone_scope (hm : FreeScopes none m) : ∃ m' sc,
    Alone ttl i (m, .fetch a .loadScope) (m', .fetch a (.loadIdem sc)) ∧
      FreeScopes (some sc) m' ∧ SameCache m m' := by
  have hstart : Alone ttl i (m, .fetch a .loadScope) _ := .refl
  cases hsc : m.scopes a.opID with
  | some sc =>
    obtain ⟨m', hrun, hadded⟩ := alone_addKey ttl i a hm hsc
    exact ⟨m', sc, (hstart.turn (.loadScopeHit hsc)).append hrun, hadded⟩
  | none =>
    obtain ⟨m', hrun, hfree, hsame⟩ := alone_addKey ttl i a (hm.newScope a.opID) (update_self ..)
    exact ⟨m', _, ((hstart.turn (.loadScopeMiss hsc)).turn (.storeScopeNew hsc)).append hrun, hfree,
      hsame.counters, hsame.idem, hsame.entry, hsame.nextEntry⟩

/-- The entry of the request, which may be a new one. -/
theorem alone_entry (hm : FreeScopes none m) : ∃ m' e,
    Alone ttl i (m, .fetch a .loadScope) (m', .fetch a (.once e)) ∧ FreeScopes none m' ∧
      m'.counters = m.counters ∧ m'.idem = update m.idem (a.key, a.opID) (some e) ∧
      (m.idem (a.key, a.opID) = some e ∧ m'.entry = m.entry ∧ m'.nextEntry = m.nextEntry ∨
        m.idem (a.key, a.opID) = none ∧ e.serial = m.nextEntry ∧
          m'.entry = update m.entry e ⟨.fresh, 0⟩ ∧ m'.nextEntry = m.nextEntry + 1) := by
  obtain ⟨m₀, sc, hrun, hfree, hsame⟩ := alone_scope ttl i a hm
  cases hidem : m.idem (a.key, a.opID) with
  | some e =>
    have hrun := (hrun.turn (.loadIdemHit (by rw [hsame.idem, hidem]))).turn .unlock
    refine ⟨_, e, hrun, hfree.setScope (.inr rfl) id fun _ => rfl, hsame.counters, ?_,
      .inl ⟨rfl, hsame.entry, hsame.nextEntry⟩⟩
    rw [← hidem, update_eq_self]
    exact hsame.idem
  | none =>
    have hnone : m₀.idem (a.key, a.opID) = none := by rw [hsame.idem, hidem]
    have hrun := ((hrun.turn (.loadIdemMiss hnone)).turn (.storeIdemNew hnone)).turn .unlock
    have hfree' : FreeScopes (some sc) { (m₀.setEntry ⟨a.key, a.opID, m₀.nextEntry⟩
        fun _ => ⟨.fresh, 0⟩).setIdem a.key a.opID (some ⟨a.key, a.opID, m₀.nextEntry⟩) with
          nextEntry := m₀.nextEntry + 1 } := hfree
    refine ⟨_, _, hrun, hfree'.setScope (.inr rfl) id fun _ => rfl, hsame.counters, ?_,
      .inr ⟨rfl, hsame.nextEntry, ?_, ?_⟩⟩
    · rw [← hsame.idem]
      rfl
    · rw [← hsame.entry]
      rfl
    · rw [← hsame.nextEntry]
      rfl

/-- The counter of the key, which may be a new one. -/
theorem alone_counter (m : Memory) (e) (init : UInt64) : ∃ history,
    Alone ttl i (m, .fetch a (.counterLoad e)) ({ m with
      counters := update m.counters a.key (some ((m.counters a.key).getD init)), history },
        .fetch a (.add e)) := by
  have hstart : Alone ttl i (m, .fetch a (.counterLoad e)) _ := .refl
  cases hv : m.counters a.key with
  | some v =>
    refine ⟨m.history, ?_⟩
    rw [Option.getD_some, ← hv, update_eq_self]
    exact hstart.turn (.counterHit hv)
  | none => exact ⟨_, (hstart.turn (.counterMiss hv init)).turn (.counterStoreNew hv)⟩

/-- The advance of a new entry. -/
theorem alone_advance {e} (h : (m.entry e).once = .fresh) (v : UInt64)
    (hv : (m.counters a.key).getD v = v) : ∃ history,
    Alone ttl i (m, .fetch a (.once e)) ({ m with
      counters := update m.counters a.key (some (v + a.delta))
      entry := update m.entry e ⟨.done, v + a.delta - a.delta⟩
      history }, .fetched a (v + a.delta - a.delta)) := by
  have hstart : Alone ttl i (m, .fetch a (.once e)) _ := .refl
  obtain ⟨history, hcounter⟩ := alone_counter ttl i a
    (m.setEntry e fun x => { x with once := .running i }) (some e) v
  have hrun := (((((hstart.turn (.onceBegin h)).append hcounter).turn
    (.addEntry (update_self ..))).turn .setPrevious).turn .onceDone).turn .readPrevious
  refine ⟨history ++ [.advanced i (some e) a.key a.delta (v + a.delta - a.delta)], ?_⟩
  simpa [Memory.setEntry, Memory.setCounter, Memory.log, hv] using hrun

variable {a}

theorem Stores.counterFor {s : SharedStateStore} (hs : Stores m s) (key) :
    (m.counters key).getD (s.counterFor key) = s.counterFor key := by
  rw [hs.counters, SharedStateStore.counterFor]
  cases s.counters key <;> rfl

/-- **`FetchAdd` alone is the `FetchAdd` of the store**: without other calls in between it returns
what the store returns, and leaves a memory that stands for the store after it. -/
theorem fetchAdd_alone {s : SharedStateStore} (hm : Resting m) (hs : Stores m s) (key delta opID now) :
    ∃ m', Alone ttl i (m, .idle)
        (m', .fetched ⟨key, delta, opID, now⟩ (s.fetchAdd key delta opID).1) ∧
      Resting m' ∧ Stores m' (s.fetchAdd key delta opID).2 := by
  have hidle : Alone ttl i (m, .idle) (m, .idle) := .refl
  have hstart := hidle.turn (.start (.fetchAdd key delta opID now))
  simp only [Call.entry] at hstart
  unfold SharedStateStore.fetchAdd
  split_ifs at hstart ⊢ with hop
  · obtain ⟨history, hrun⟩ := alone_counter ttl i ⟨key, delta, opID, now⟩ m none (s.counterFor key)
    have hrun := (hstart.append hrun).turn (.addPlain (update_self ..))
    rw [hs.counterFor] at hrun
    refine ⟨_, hrun, ⟨hm.scopes, hm.idem⟩, ?_, hs.idem⟩
    rw [SharedStateStore.add, ← hs.counters]
    exact update_idem ..
  obtain ⟨m₁, e, hentered, hfree, hcounters, hidem, hentry⟩ :=
    alone_entry ttl i ⟨key, delta, opID, now⟩ hm.scopes
  rcases hentry with ⟨hold, hentry, hnext⟩ | ⟨hold, hserial, hentry, hnext⟩
  · -- the answer is cached
    have hcached : s.idem (key, opID) = some (m.entry e).previous := by rw [← hs.idem, hold]; rfl
    rw [← hold, update_eq_self] at hidem
    have hdone : (m₁.entry e).once = .done := by rw [hentry]; exact (hm.idem _ _ hold).2
    have hrun := ((hstart.append hentered).turn (.onceOver hdone)).turn .readPrevious
    rw [hcached]
    refine ⟨m₁, hentry ▸ hrun, ⟨hfree, ?_⟩, hcounters.trans hs.counters, ?_⟩
    · rw [hidem, hentry, hnext]
      exact hm.idem
    · rw [hidem, hentry]
      exact hs.idem
  have hmiss : s.idem (key, opID) = none := by rw [← hs.idem, hold]; rfl
  obtain ⟨history, hrun⟩ := @alone_advance ttl i m₁ ⟨key, delta, opID, now⟩ e
    (by rw [hentry, update_self]) (s.counterFor key) (by rw [hcounters, hs.counterFor])
  have hne : ∀ k e', m.idem k = some e' → e' ≠ e := fun k e' he' heq =>
    absurd (hm.idem k e' he').1 (by rw [heq, hserial]; exact lt_irrefl _)
  rw [hmiss]
  refine ⟨_, (hstart.append hentered).append hrun, ⟨hfree, ?_⟩, ?_, ?_⟩
  · intro k e' he'
    simp only [hidem, hentry, hnext, update_idem] at he' ⊢
    by_cases hk : k = (key, opID)
    · rw [hk, update_self, Option.some.injEq] at he'
      rw [← he', hserial, update_self]
      exact ⟨Nat.lt_succ_self _, rfl⟩
    · rw [update_of_ne hk] at he'
      obtain ⟨hlt, hdone⟩ := hm.idem k e' he'
      rw [update_of_ne (hne k e' he')]
      exact ⟨hlt.trans (Nat.lt_succ_self _), hdone⟩
  · simp [SharedStateStore.add, hcounters, hs.counters]
  · intro k
    simp only [hidem, hentry, update_idem, SharedStateStore.add]
    by_cases hk : k = (key, opID)
    · rw [hk, update_self, update_self, Option.map_some, update_self]
    · rw [update_of_ne hk, update_of_ne hk, ← hs.idem]
      refine Option.map_congr fun e' he' => ?_
      rw [update_of_ne (hne k e' he')]

end SharedState

/-! ## The remote advancer -/

/-- The errors of `RemoteAdvancer.Advance`, over the errors of the transport. -/
inductive RemoteError (ε : Type*) where
  /-- "round-robin remote advancer has no SharedState client" -/
  | noClient
  /-- "round-robin shared-state FetchAdd for %q: %w" -/
  | fetchAdd (clientName : Bytes) (cause : ε)

/-- `RemoteAdvancer`: the client of the host's store, if it was installed, and the request's
operation id. -/
structure RemoteAdvancer (σ ε : Type*) where
  client : Option (σ → Bytes → UInt64 → Bytes → Except ε UInt64 × σ)
  operationID : Bytes

def RemoteAdvancer.advance {σ ε : Type*} (r : RemoteAdvancer σ ε) (s : σ) (clientName : Bytes)
    (childCount : Int64) : Except (RemoteError ε) Int64 × σ :=
  if childCount ≤ 0 then (.ok 0, s)
  else
    match r.client with
    | none => (.error .noClient, s)
    | some fetchAdd =>
      match fetchAdd s clientName 1 r.operationID with
      | (.error e, s') => (.error (.fetchAdd clientName e), s')
      | (.ok previous, s') => (.ok (previous % childCount.toUInt64).toInt64, s')

def SharedStateStore.client (ε : Type*) (s : SharedStateStore) (key : Bytes) (delta : UInt64)
    (opID : Bytes) : Except ε UInt64 × SharedStateStore :=
  let (previous, s') := s.fetchAdd key delta opID
  (.ok previous, s')

/-- A call of `Advance` by the request with the given operation id. -/
structure RemoteCall extends AdvanceCall where
  operationID : Bytes

/-- One call against a store that is reached: it cannot fail, and its index is taken. -/
def SharedStateStore.remoteCall (s : SharedStateStore) (x : RemoteCall) :
    Int64 × SharedStateStore :=
  let r : RemoteAdvancer SharedStateStore Empty := ⟨some (client Empty), x.operationID⟩
  match r.advance s x.clientName x.childCount with
  | (.ok i, s') => (i, s')
  | (.error _, s') => (0, s')

theorem SharedStateStore.remoteCall_of_pos (s : SharedStateStore) (x : RemoteCall)
    (hn : 0 < x.childCount) : s.remoteCall x =
      (((s.fetchAdd x.clientName 1 x.operationID).1 % x.childCount.toUInt64).toInt64,
        (s.fetchAdd x.clientName 1 x.operationID).2) := by
  have hn' : ¬x.childCount ≤ 0 := by rwa [Int64.not_le]
  simp [remoteCall, RemoteAdvancer.advance, client, hn']

theorem SharedStateStore.remoteCall_of_not_pos (s : SharedStateStore) (x : RemoteCall)
    (hn : ¬0 < x.childCount) : s.remoteCall x = (0, s) := by
  have hn' : x.childCount ≤ 0 := by rwa [← Int64.not_lt]
  simp [remoteCall, RemoteAdvancer.advance, hn']

/-- The calls of one client come from different requests, none of which is cached yet. -/
def FreshRequests (name : Bytes) (s : SharedStateStore) (calls : List RemoteCall) : Prop :=
  (∀ x ∈ calls, x.clientName = name → x.operationID = [] ∨ s.idem (name, x.operationID) = none) ∧
    calls.Pairwise fun x y => x.clientName = name → y.clientName = name →
      x.operationID = y.operationID → x.operationID = []

theorem FreshRequests.tail {name : Bytes} {s : SharedStateStore} {x : RemoteCall}
    {xs : List RemoteCall} (h : FreshRequests name s (x :: xs)) :
    FreshRequests name (s.remoteCall x).2 xs := by
  obtain ⟨hidem, hpair⟩ := h
  obtain ⟨hx, hpair⟩ := List.pairwise_cons.mp hpair
  refine ⟨fun y hy hname => ?_, hpair⟩
  have hy' := hidem y (List.mem_cons_of_mem _ hy) hname
  by_cases hpos : 0 < x.childCount
  · rw [s.remoteCall_of_pos x hpos]
    by_cases hop : y.operationID = []
    · exact .inl hop
    · refine .inr (s.idem_fetchAdd 1 (hy'.resolve_left hop) fun hkey heq => ?_)
      exact hop (heq ▸ hx y hy hkey.symm hname heq)
  · rw [s.remoteCall_of_not_pos x hpos]
    exact hy'

theorem SharedStateStore.indices_eq {name n} (hn : 0 < n)
    (s : SharedStateStore) (calls : List RemoteCall)
    (hcalls : ∀ x ∈ calls, x.clientName = name → x.childCount = n)
    (hfresh : FreshRequests name s calls) :
    (indices (fun x : RemoteCall => x.clientName) remoteCall name s calls).map Int64.toNatClampNeg =
      readings (2 ^ 64) n.toNatClampNeg (s.counterFor name).toNat
        (calls.countP fun x => x.clientName = name) := by
  apply indices_eq_readings hn (fun s : SharedStateStore => s.counterFor name)
    (fun s (calls : List RemoteCall) =>
      (∀ x ∈ calls, x.clientName = name → x.childCount = n) ∧ FreshRequests name s calls)
  · rintro s x xs ⟨hcount, hfresh⟩ hx
    have hcount' := hcount x (List.mem_cons_self ..) hx
    obtain ⟨hfst, hsnd⟩ := s.fetchAdd_of_uncached 1 (hfresh.1 x (List.mem_cons_self ..) hx)
    refine ⟨?_, ?_, fun y hy => hcount y (List.mem_cons_of_mem _ hy), hfresh.tail⟩
    · rw [s.remoteCall_of_pos x (hcount' ▸ hn), hcount', hx, hfst]
    · rw [s.remoteCall_of_pos x (hcount' ▸ hn), hx]
      exact hsnd
  · rintro s x xs ⟨hcount, hfresh⟩ hx
    refine ⟨?_, fun y hy => hcount y (List.mem_cons_of_mem _ hy), hfresh.tail⟩
    by_cases hpos : 0 < x.childCount
    · rw [s.remoteCall_of_pos x hpos]
      exact s.counterFor_fetchAdd_of_ne 1 hx
    · rw [s.remoteCall_of_not_pos x hpos]
  · exact ⟨hcalls, hfresh⟩

/-! ## Fairness -/

/-- The calls of a client visit its `n` children in turn, and every `k * n` of them visit each
child `k` times, exactly when the counter does not wrap before the last call, or `n` divides
`2 ^ 64`: for the coordinator of a process, and for requests that advance the counters of the
host. The calls of other clients may come in between. -/
theorem advance_rotates_iff (name : Bytes) (n : Int64) (hn : 0 < n) :
    (∀ (c : Coordinator) (calls : List AdvanceCall),
      (∀ x ∈ calls, x.clientName = name → x.childCount = n) →
      (Rotates n.toNatClampNeg
          ((indices AdvanceCall.clientName Coordinator.call name c calls).map
            Int64.toNatClampNeg) ↔
        (c.counterFor name).toNat + calls.countP (fun x => x.clientName = name) ≤ 2 ^ 64 ∨
          n.toNatClampNeg ∣ 2 ^ 64)) ∧
    ∀ (s : SharedStateStore) (calls : List RemoteCall),
      (∀ x ∈ calls, x.clientName = name → x.childCount = n) → FreshRequests name s calls →
      (Rotates n.toNatClampNeg
          ((indices (fun x : RemoteCall => x.clientName) SharedStateStore.remoteCall name s
            calls).map Int64.toNatClampNeg) ↔
        (s.counterFor name).toNat + calls.countP (fun x => x.clientName = name) ≤ 2 ^ 64 ∨
          n.toNatClampNeg ∣ 2 ^ 64) := by
  constructor
  · intro c calls hcalls
    rw [c.indices_eq hn calls hcalls]
    exact rotates_readings_iff (UInt64.toNat_lt _) _
  intro s calls hcalls hfresh
  rw [s.indices_eq hn calls hcalls hfresh]
  exact rotates_readings_iff (UInt64.toNat_lt _) _

/-- Three children, asked for three times from the start `0`. -/
theorem advance_rotates_three :
    Rotates 3
      ((indices AdvanceCall.clientName Coordinator.call (bytes "rr")
        (Coordinator.newCoordinatorWithStarts (fun _ => some 0) fun _ => 0)
        (List.replicate 3 ⟨bytes "rr", 3⟩)).map Int64.toNatClampNeg) :=
  ((advance_rotates_iff (bytes "rr") 3 (by decide)).1 _ _
    (by simp)).mpr (.inl (by decide +kernel))

/-- Started at `-1`, a client with three children is handed child `0` twice in a row, by the
coordinator and by the host. -/
theorem advance_negative_start :
    (indices AdvanceCall.clientName Coordinator.call (bytes "rr")
        (Coordinator.newCoordinatorWithStarts (fun _ => some (-1)) fun _ => 0)
        (List.replicate 3 ⟨bytes "rr", 3⟩)).map Int64.toNatClampNeg = [0, 0, 1] ∧
      (indices (fun x : RemoteCall => x.clientName) SharedStateStore.remoteCall (bytes "rr")
        (SharedStateStore.new
          (SharedStateStore.poolInitialValue (fun _ => some (-1)) fun _ => 0))
        [⟨⟨bytes "rr", 3⟩, bytes "a"⟩, ⟨⟨bytes "rr", 3⟩, bytes "b"⟩,
          ⟨⟨bytes "rr", 3⟩, bytes "c"⟩]).map Int64.toNatClampNeg = [0, 0, 1] ∧
      ¬Rotates 3 [0, 0, 1] := by
  refine ⟨by decide +kernel, by decide +kernel, ?_⟩
  rintro ⟨hstep, -⟩
  exact absurd (hstep 0 (by decide)) (by decide)

end BamlRest
