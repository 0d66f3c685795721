import BamlRest.Lib.Interleave
import BamlRest.Text.Bytes

/-!
# The shared-state store under concurrent calls

`SharedStateStore` keeps the counters of the round-robin clients, one cached answer for each client
and request, and a scope for each request that lists the cached keys.

* `fetchAdd`, `dropScope`, `sweepOnce`: the turns of the calls.
* `Turn`: their outcomes, one by one.
-/

namespace BamlRest.SharedState

open Interleave

abbrev CallId := ℕ

/-- `*scope`. -/
structure ScopeRef where
  opID : Bytes
  serial : ℕ
  deriving DecidableEq

/-- `*idemEntry`. -/
structure EntryRef where
  key : Bytes
  opID : Bytes
  serial : ℕ
  deriving DecidableEq

/-- `scope`: its mutex with the call that holds it, the keys (`nil` after it was dropped), and the
two atomics. -/
structure Scope where
  holder : Option CallId
  keys : Option (List Bytes)
  lastAccessedNano : ℤ
  deleted : Bool

/-- `sync.Once`, with the call that runs it. -/
inductive Once where
  | fresh
  | running (i : CallId)
  | done
  deriving DecidableEq

/-- `idemEntry`. -/
structure Entry where
  once : Once
  previous : UInt64

/-- What may be called. -/
inductive Call where
  | fetchAdd (key : Bytes) (delta : UInt64) (opID : Bytes) (now : ℤ)
  | dropScope (opID : Bytes)
  | sweepOnce (now : ℤ)
  deriving DecidableEq

/-- What happens to a counter. -/
inductive Event where
  /-- a counter is stored under its key for the first time -/
  | created (key : Bytes) (value : UInt64)
  /-- `counter.Add(delta)` by a call, for an entry or for no entry -/
  | advanced (i : CallId) (entry : Option EntryRef) (key : Bytes) (delta previous : UInt64)

/-- `SharedStateStore`, with what its pointers point to. -/
structure Memory where
  counters : Bytes → Option UInt64
  idem : Bytes × Bytes → Option EntryRef
  scopes : Bytes → Option ScopeRef
  scope : ScopeRef → Scope
  entry : EntryRef → Entry
  nextScope : ℕ
  nextEntry : ℕ
  history : List Event

/-- An empty store. -/
def Memory.new : Memory where
  counters := fun _ => none
  idem := fun _ => none
  scopes := fun _ => none
  scope := fun _ => ⟨none, none, 0, true⟩
  entry := fun _ => ⟨.fresh, 0⟩
  nextScope := 0
  nextEntry := 0
  history := []

namespace Memory

@[simps]
def setScope (m : Memory) (sc : ScopeRef) (f : Scope → Scope) : Memory :=
  { m with scope := Function.update m.scope sc (f (m.scope sc)) }

@[simps]
def setEntry (m : Memory) (e : EntryRef) (f : Entry → Entry) : Memory :=
  { m with entry := Function.update m.entry e (f (m.entry e)) }

@[simps]
def log (m : Memory) (ev : Event) : Memory :=
  { m with history := m.history ++ [ev] }

@[simps]
def setIdem (m : Memory) (key opID : Bytes) (e : Option EntryRef) : Memory :=
  { m with idem := Function.update m.idem (key, opID) e }

@[simps]
def setScopes (m : Memory) (opID : Bytes) (sc : Option ScopeRef) : Memory :=
  { m with scopes := Function.update m.scopes opID sc }

@[simps]
def setCounter (m : Memory) (key : Bytes) (v : UInt64) : Memory :=
  { m with counters := Function.update m.counters key (some v) }

end Memory

/-! ## Where a call stands -/

/-- The arguments of `FetchAdd`, with the time it read. -/
structure FetchArgs where
  key : Bytes
  delta : UInt64
  opID : Bytes
  now : ℤ
  deriving DecidableEq

/-- The places in `FetchAdd`: up to `unlock` in `registerAndLoadIdem`, then in the once-guarded
advance. -/
inductive FetchPc where
  | loadScope
  | storeScope
  | stamp (sc : ScopeRef)
  | lock (sc : ScopeRef)
  | checkDeleted (sc : ScopeRef)
  | retry (sc : ScopeRef)
  | addKey (sc : ScopeRef)
  | loadIdem (sc : ScopeRef)
  | storeIdem (sc : ScopeRef)
  | unlock (sc : ScopeRef) (e : EntryRef)
  | once (e : EntryRef)
  | counterLoad (e : Option EntryRef)
  | counterStore (e : Option EntryRef) (fresh : UInt64)
  | add (e : Option EntryRef)
  | setPrevious (e : EntryRef) (previous : UInt64)
  | onceDone (e : EntryRef)
  | readPrevious (e : EntryRef)
  deriving DecidableEq

/-- The places in `DropScope`. -/
inductive DropPc where
  | loadAndDelete
  | lock (sc : ScopeRef)
  | mark (sc : ScopeRef)
  | deleteKeys (sc : ScopeRef) (todo : List Bytes) (released : ℕ)
  | clear (sc : ScopeRef) (released : ℕ)
  | unlock (sc : ScopeRef) (released : ℕ)
  deriving DecidableEq

/-- The places in `sweepOnce`: in the `Range`, with the operation ids visited so far, or in its
callback. -/
inductive SweepPc where
  | range
  | preCheck (opID : Bytes) (sc : ScopeRef)
  | lock (opID : Bytes) (sc : ScopeRef)
  | recheck (opID : Bytes) (sc : ScopeRef)
  | skip (sc : ScopeRef)
  | mark (opID : Bytes) (sc : ScopeRef)
  | unregister (opID : Bytes) (sc : ScopeRef)
  | deleteKeys (opID : Bytes) (sc : ScopeRef) (todo : List Bytes)
  | clear (sc : ScopeRef)
  | unlock (sc : ScopeRef)
  deriving DecidableEq

/-- Where a call stands. -/
inductive Pc where
  | idle
  | fetch (a : FetchArgs) (pc : FetchPc)
  | drop (opID : Bytes) (pc : DropPc)
  | sweep (cutoffNano : ℤ) (visited : List Bytes) (pc : SweepPc)
  | fetched (a : FetchArgs) (previous : UInt64)
  | dropped (opID : Bytes) (released : ℕ)
  | swept
  deriving DecidableEq

def Pc.inProgress : Pc → Bool
  | .fetch _ _ | .drop _ _ | .sweep _ _ _ => true
  | .idle | .fetched _ _ | .dropped _ _ | .swept => false

/-- What a turn may choose: the call to start, what `initialValue` returns, the pair that `Range`
visits or that it ends, and the key that the loop over a map takes next. -/
inductive Choice where
  | start (call : Call)
  | go
  | initial (value : UInt64)
  | visit (opID : Bytes)
  | finish
  | pick (key : Bytes)
  deriving DecidableEq

/-! ## Turns -/

/-- A key is added to a set, which may be nil. -/
def insertKey (key : Bytes) : Option (List Bytes) → Option (List Bytes)
  | none => some [key]
  | some ks => if key ∈ ks then some ks else some (key :: ks)

/-- A turn of `FetchAdd`. -/
def fetchAdd (i : CallId) (a : FetchArgs) (c : Choice) (m : Memory) (pc : FetchPc) :
    Option (Memory × Pc) :=
  match pc, c with
  -- registerAndLoadIdem
  | .loadScope, .go =>
    match m.scopes a.opID with
    | some sc => some (m, .fetch a (.stamp sc))
    | none => some (m, .fetch a .storeScope)
  | .storeScope, .go =>
    match m.scopes a.opID with
    | some sc => some (m, .fetch a (.stamp sc))
    | none =>
      let sc : ScopeRef := ⟨a.opID, m.nextScope⟩
      some ({ (m.setScope sc fun _ => ⟨none, some [], 0, false⟩).setScopes a.opID (some sc) with
          nextScope := m.nextScope + 1 },
        .fetch a (.stamp sc))
  | .stamp sc, .go =>
    some (m.setScope sc fun s => { s with lastAccessedNano := a.now }, .fetch a (.lock sc))
  | .lock sc, .go =>
    match (m.scope sc).holder with
    | some _ => none
    | none =>
      some (m.setScope sc fun s => { s with holder := some i }, .fetch a (.checkDeleted sc))
  | .checkDeleted sc, .go =>
    if (m.scope sc).deleted then some (m, .fetch a (.retry sc))
    else some (m, .fetch a (.addKey sc))
  | .retry sc, .go =>
    some (m.setScope sc fun s => { s with holder := none }, .fetch a .loadScope)
  | .addKey sc, .go =>
    some (m.setScope sc fun s => { s with keys := insertKey a.key s.keys },
      .fetch a (.loadIdem sc))
  | .loadIdem sc, .go =>
    match m.idem (a.key, a.opID) with
    | some e => some (m, .fetch a (.unlock sc e))
    | none => some (m, .fetch a (.storeIdem sc))
  | .storeIdem sc, .go =>
    match m.idem (a.key, a.opID) with
    | some e => some (m, .fetch a (.unlock sc e))
    | none =>
      let e : EntryRef := ⟨a.key, a.opID, m.nextEntry⟩
      some ({ (m.setEntry e fun _ => ⟨.fresh, 0⟩).setIdem a.key a.opID (some e) with
          nextEntry := m.nextEntry + 1 },
        .fetch a (.unlock sc e))
  | .unlock sc e, .go =>
    some (m.setScope sc fun s => { s with holder := none }, .fetch a (.once e))
  -- entry.once.Do
  | .once e, .go =>
    match (m.entry e).once with
    | .done => some (m, .fetch a (.readPrevious e))
    | .running _ => none
    | .fresh =>
      some (m.setEntry e fun x => { x with once := .running i },
        .fetch a (.counterLoad (some e)))
  | .counterLoad e, .initial v =>
    match m.counters a.key with
    | some _ => some (m, .fetch a (.add e))
    | none => some (m, .fetch a (.counterStore e v))
  | .counterStore e v, .go =>
    match m.counters a.key with
    | some _ => some (m, .fetch a (.add e))
    | none => some ((m.setCounter a.key v).log (.created a.key v), .fetch a (.add e))
  | .add e, .go =>
    match m.counters a.key with
    | none => none
    | some v =>
      let added := v + a.delta
      let previous := added - a.delta
      let m' := (m.setCounter a.key added).log (.advanced i e a.key a.delta previous)
      match e with
      | none => some (m', .fetched a previous)
      | some e => some (m', .fetch a (.setPrevious e previous))
  | .setPrevious e previous, .go =>
    some (m.setEntry e fun x => { x with previous := previous }, .fetch a (.onceDone e))
  | .onceDone e, .go =>
    some (m.setEntry e fun x => { x with once := .done }, .fetch a (.readPrevious e))
  | .readPrevious e, .go =>
    some (m, .fetched a (m.entry e).previous)
  | _, _ => none

/-- A turn of `DropScope`. -/
def dropScope (i : CallId) (opID : Bytes) (c : Choice) (m : Memory) (pc : DropPc) :
    Option (Memory × Pc) :=
  match pc, c with
  | .loadAndDelete, .go =>
    match m.scopes opID with
    | none => some (m, .dropped opID 0)
    | some sc => some (m.setScopes opID none, .drop opID (.lock sc))
  | .lock sc, .go =>
    match (m.scope sc).holder with
    | some _ => none
    | none => some (m.setScope sc fun s => { s with holder := some i }, .drop opID (.mark sc))
  | .mark sc, .go =>
    let keys := (m.scope sc).keys.getD []
    some (m.setScope sc fun s => { s with deleted := true },
      .drop opID (.deleteKeys sc keys keys.length))
  | .deleteKeys sc todo released, .pick key =>
    if key ∈ todo then
      some (m.setIdem key opID none, .drop opID (.deleteKeys sc (todo.erase key) released))
    else none
  | .deleteKeys sc [] released, .go => some (m, .drop opID (.clear sc released))
  | .clear sc released, .go =>
    some (m.setScope sc fun s => { s with keys := none }, .drop opID (.unlock sc released))
  | .unlock sc released, .go =>
    some (m.setScope sc fun s => { s with holder := none }, .dropped opID released)
  | _, _ => none

/-- A turn of `sweepOnce`. A visit reads the mapping that is current. By its contract `Range` may also
yield a value from earlier in the call; `sync.Map` reads a pair just before it calls back, and what
becomes of the mapping in between is a run in which the call waits at `preCheck`. -/
def sweepOnce (i : CallId) (cutoffNano : ℤ) (visited : List Bytes) (c : Choice) (m : Memory)
    (pc : SweepPc) : Option (Memory × Pc) :=
  let at_ := fun pc => Pc.sweep cutoffNano visited pc
  match pc, c with
  | .range, .visit opID =>
    if opID ∈ visited then none
    else
      match m.scopes opID with
      | none => none
      | some sc => some (m, .sweep cutoffNano (opID :: visited) (.preCheck opID sc))
  | .range, .finish => some (m, .swept)
  | .preCheck opID sc, .go =>
    if (m.scope sc).lastAccessedNano ≥ cutoffNano then some (m, at_ .range)
    else some (m, at_ (.lock opID sc))
  | .lock opID sc, .go =>
    match (m.scope sc).holder with
    | some _ => none
    | none => some (m.setScope sc fun s => { s with holder := some i }, at_ (.recheck opID sc))
  | .recheck opID sc, .go =>
    if (m.scope sc).lastAccessedNano ≥ cutoffNano then some (m, at_ (.skip sc))
    else some (m, at_ (.mark opID sc))
  | .skip sc, .go => some (m.setScope sc fun s => { s with holder := none }, at_ .range)
  | .mark opID sc, .go =>
    some (m.setScope sc fun s => { s with deleted := true }, at_ (.unregister opID sc))
  | .unregister opID sc, .go =>
    some (m.setScopes opID none, at_ (.deleteKeys opID sc ((m.scope sc).keys.getD [])))
  | .deleteKeys opID sc todo, .pick key =>
    if key ∈ todo then
      some (m.setIdem key opID none, at_ (.deleteKeys opID sc (todo.erase key)))
    else none
  | .deleteKeys _ sc [], .go => some (m, at_ (.clear sc))
  | .clear sc, .go => some (m.setScope sc fun s => { s with keys := none }, at_ (.unlock sc))
  | .unlock sc, .go => some (m.setScope sc fun s => { s with holder := none }, at_ .range)
  | _, _ => none

/-- Where a call starts. A `DropScope` without an operation id does nothing. -/
def Call.entry (ttl : ℤ) : Call → Pc
  | .fetchAdd key delta opID now =>
    if opID = [] then .fetch ⟨key, delta, opID, now⟩ (.counterLoad none)
    else .fetch ⟨key, delta, opID, now⟩ .loadScope
  | .dropScope opID => if opID = [] then .dropped opID 0 else .drop opID .loadAndDelete
  | .sweepOnce now => .sweep (now - ttl) [] .range

/-- One turn of a call. -/
def program (ttl : ℤ) : Program CallId Memory Pc Choice := fun i c m pc =>
  match pc with
  | .idle =>
    match c with
    | .start call => some (m, call.entry ttl)
    | _ => none
  | .fetch a pc => fetchAdd i a c m pc
  | .drop opID pc => dropScope i opID c m pc
  | .sweep cutoffNano visited pc => sweepOnce i cutoffNano visited c m pc
  | .fetched _ _ | .dropped _ _ | .swept => none

abbrev State := Config CallId Memory Pc

/-- No call has started. -/
def init : State := ⟨.new, fun _ => .idle⟩

/-- No call is in progress. -/
def Quiescent (s : State) : Prop :=
  ∀ i, (s.threads i).inProgress = false

/-- All the turns of a `FetchAdd` that is not disturbed, in a new scope and with a new entry. -/
def fetchTurns (i : CallId) (key opID : Bytes) (now : ℤ) (newCounter : Bool) :
    List (CallId × Choice) :=
  (i, .start (.fetchAdd key 1 opID now)) :: List.replicate 10 (i, .go) ++
    (i, .initial 0) :: List.replicate (if newCounter then 5 else 4) (i, .go)

/-! ## What a turn can do -/

/-- The turns of a call, one constructor for each outcome of an atomic step. -/
inductive Turn (ttl : ℤ) (i : CallId) (m : Memory) : Pc → Memory → Pc → Prop where
  | start (call : Call) : Turn ttl i m .idle m (call.entry ttl)
  -- FetchAdd
  | loadScopeHit {a sc} (h : m.scopes a.opID = some sc) :
      Turn ttl i m (.fetch a .loadScope) m (.fetch a (.stamp sc))
  | loadScopeMiss {a} (h : m.scopes a.opID = none) :
      Turn ttl i m (.fetch a .loadScope) m (.fetch a .storeScope)
  | storeScopeHit {a sc} (h : m.scopes a.opID = some sc) :
      Turn ttl i m (.fetch a .storeScope) m (.fetch a (.stamp sc))
  | storeScopeNew {a} (h : m.scopes a.opID = none) : Turn ttl i m (.fetch a .storeScope)
        { (m.setScope ⟨a.opID, m.nextScope⟩ fun _ => ⟨none, some [], 0, false⟩).setScopes a.opID
            (some ⟨a.opID, m.nextScope⟩) with nextScope := m.nextScope + 1 }
        (.fetch a (.stamp ⟨a.opID, m.nextScope⟩))
  | stamp {a sc} : Turn ttl i m (.fetch a (.stamp sc))
        (m.setScope sc fun s => { s with lastAccessedNano := a.now }) (.fetch a (.lock sc))
  | lock {a sc} (h : (m.scope sc).holder = none) :
      Turn ttl i m (.fetch a (.lock sc)) (m.setScope sc fun s => { s with holder := some i })
        (.fetch a (.checkDeleted sc))
  | isDeleted {a sc} (h : (m.scope sc).deleted = true) :
      Turn ttl i m (.fetch a (.checkDeleted sc)) m (.fetch a (.retry sc))
  | isLive {a sc} (h : (m.scope sc).deleted = false) :
      Turn ttl i m (.fetch a (.checkDeleted sc)) m (.fetch a (.addKey sc))
  | retry {a sc} :
      Turn ttl i m (.fetch a (.retry sc)) (m.setScope sc fun s => { s with holder := none })
        (.fetch a .loadScope)
  | addKey {a sc} : Turn ttl i m (.fetch a (.addKey sc))
        (m.setScope sc fun s => { s with keys := insertKey a.key s.keys }) (.fetch a (.loadIdem sc))
  | loadIdemHit {a sc e} (h : m.idem (a.key, a.opID) = some e) :
      Turn ttl i m (.fetch a (.loadIdem sc)) m (.fetch a (.unlock sc e))
  | loadIdemMiss {a sc} (h : m.idem (a.key, a.opID) = none) :
      Turn ttl i m (.fetch a (.loadIdem sc)) m (.fetch a (.storeIdem sc))
  | storeIdemHit {a sc e} (h : m.idem (a.key, a.opID) = some e) :
      Turn ttl i m (.fetch a (.storeIdem sc)) m (.fetch a (.unlock sc e))
  | storeIdemNew {a sc} (h : m.idem (a.key, a.opID) = none) :
      Turn ttl i m (.fetch a (.storeIdem sc))
        { (m.setEntry ⟨a.key, a.opID, m.nextEntry⟩ fun _ => ⟨.fresh, 0⟩).setIdem a.key a.opID
            (some ⟨a.key, a.opID, m.nextEntry⟩) with nextEntry := m.nextEntry + 1 }
        (.fetch a (.unlock sc ⟨a.key, a.opID, m.nextEntry⟩))
  | unlock {a sc e} :
      Turn ttl i m (.fetch a (.unlock sc e)) (m.setScope sc fun s => { s with holder := none })
        (.fetch a (.once e))
  | onceOver {a e} (h : (m.entry e).once = .done) :
      Turn ttl i m (.fetch a (.once e)) m (.fetch a (.readPrevious e))
  | onceBegin {a e} (h : (m.entry e).once = .fresh) :
      Turn ttl i m (.fetch a (.once e)) (m.setEntry e fun x => { x with once := .running i })
        (.fetch a (.counterLoad (some e)))
  | counterHit {a e v} (h : m.counters a.key = some v) :
      Turn ttl i m (.fetch a (.counterLoad e)) m (.fetch a (.add e))
  | counterMiss {a e} (h : m.counters a.key = none) (fresh : UInt64) :
      Turn ttl i m (.fetch a (.counterLoad e)) m (.fetch a (.counterStore e fresh))
  | counterStoreHit {a e v fresh} (h : m.counters a.key = some v) :
      Turn ttl i m (.fetch a (.counterStore e fresh)) m (.fetch a (.add e))
  | counterStoreNew {a e fresh} (h : m.counters a.key = none) :
      Turn ttl i m (.fetch a (.counterStore e fresh))
        ((m.setCounter a.key fresh).log (.created a.key fresh)) (.fetch a (.add e))
  | addPlain {a v} (h : m.counters a.key = some v) : Turn ttl i m (.fetch a (.add none))
        ((m.setCounter a.key (v + a.delta)).log
          (.advanced i none a.key a.delta (v + a.delta - a.delta)))
        (.fetched a (v + a.delta - a.delta))
  | addEntry {a e v} (h : m.counters a.key = some v) : Turn ttl i m (.fetch a (.add (some e)))
        ((m.setCounter a.key (v + a.delta)).log
          (.advanced i (some e) a.key a.delta (v + a.delta - a.delta)))
        (.fetch a (.setPrevious e (v + a.delta - a.delta)))
  | setPrevious {a e previous} : Turn ttl i m (.fetch a (.setPrevious e previous))
        (m.setEntry e fun x => { x with previous := previous }) (.fetch a (.onceDone e))
  | onceDone {a e} :
      Turn ttl i m (.fetch a (.onceDone e)) (m.setEntry e fun x => { x with once := .done })
        (.fetch a (.readPrevious e))
  | readPrevious {a e} :
      Turn ttl i m (.fetch a (.readPrevious e)) m (.fetched a (m.entry e).previous)
  -- DropScope
  | dropMiss {opID} (h : m.scopes opID = none) :
      Turn ttl i m (.drop opID .loadAndDelete) m (.dropped opID 0)
  | dropHit {opID sc} (h : m.scopes opID = some sc) :
      Turn ttl i m (.drop opID .loadAndDelete) (m.setScopes opID none) (.drop opID (.lock sc))
  | dropLock {opID sc} (h : (m.scope sc).holder = none) :
      Turn ttl i m (.drop opID (.lock sc)) (m.setScope sc fun s => { s with holder := some i })
        (.drop opID (.mark sc))
  | dropMark {opID sc} :
      Turn ttl i m (.drop opID (.mark sc)) (m.setScope sc fun s => { s with deleted := true })
        (.drop opID (.deleteKeys sc ((m.scope sc).keys.getD []) ((m.scope sc).keys.getD []).length))
  | dropKey {opID key sc todo} {released : ℕ} (h : key ∈ todo) :
      Turn ttl i m (.drop opID (.deleteKeys sc todo released)) (m.setIdem key opID none)
        (.drop opID (.deleteKeys sc (todo.erase key) released))
  | dropKeysEnd {opID sc} {released : ℕ} :
      Turn ttl i m (.drop opID (.deleteKeys sc [] released)) m (.drop opID (.clear sc released))
  | dropClear {opID sc} {released : ℕ} : Turn ttl i m (.drop opID (.clear sc released))
        (m.setScope sc fun s => { s with keys := none }) (.drop opID (.unlock sc released))
  | dropUnlock {opID sc} {released : ℕ} : Turn ttl i m (.drop opID (.unlock sc released))
        (m.setScope sc fun s => { s with holder := none }) (.dropped opID released)
  -- sweepOnce
  | visit {cutoff : ℤ} {visited opID sc} (h : m.scopes opID = some sc) :
      Turn ttl i m (.sweep cutoff visited .range) m
        (.sweep cutoff (opID :: visited) (.preCheck opID sc))
  | finish {cutoff : ℤ} {visited} : Turn ttl i m (.sweep cutoff visited .range) m .swept
  | preCheckFresh {cutoff : ℤ} {visited opID sc} :
      Turn ttl i m (.sweep cutoff visited (.preCheck opID sc)) m (.sweep cutoff visited .range)
  | preCheckStale {cutoff : ℤ} {visited opID sc} :
      Turn ttl i m (.sweep cutoff visited (.preCheck opID sc)) m
        (.sweep cutoff visited (.lock opID sc))
  | sweepLock {cutoff : ℤ} {visited opID sc} (h : (m.scope sc).holder = none) :
      Turn ttl i m (.sweep cutoff visited (.lock opID sc))
        (m.setScope sc fun s => { s with holder := some i })
        (.sweep cutoff visited (.recheck opID sc))
  | recheckFresh {cutoff : ℤ} {visited opID sc} :
      Turn ttl i m (.sweep cutoff visited (.recheck opID sc)) m (.sweep cutoff visited (.skip sc))
  | recheckStale {cutoff : ℤ} {visited opID sc} :
      Turn ttl i m (.sweep cutoff visited (.recheck opID sc)) m
        (.sweep cutoff visited (.mark opID sc))
  | skip {cutoff : ℤ} {visited sc} : Turn ttl i m (.sweep cutoff visited (.skip sc))
        (m.setScope sc fun s => { s with holder := none }) (.sweep cutoff visited .range)
  | sweepMark {cutoff : ℤ} {visited opID sc} : Turn ttl i m (.sweep cutoff visited (.mark opID sc))
        (m.setScope sc fun s => { s with deleted := true })
        (.sweep cutoff visited (.unregister opID sc))
  | unregister {cutoff : ℤ} {visited opID sc} :
      Turn ttl i m (.sweep cutoff visited (.unregister opID sc)) (m.setScopes opID none)
        (.sweep cutoff visited (.deleteKeys opID sc ((m.scope sc).keys.getD [])))
  | sweepKey {cutoff : ℤ} {visited : List Bytes} {opID key : Bytes} {sc : ScopeRef}
      {todo : List Bytes} (h : key ∈ todo) :
      Turn ttl i m (.sweep cutoff visited (.deleteKeys opID sc todo)) (m.setIdem key opID none)
        (.sweep cutoff visited (.deleteKeys opID sc (todo.erase key)))
  | sweepKeysEnd {cutoff : ℤ} {visited opID sc} :
      Turn ttl i m (.sweep cutoff visited (.deleteKeys opID sc [])) m
        (.sweep cutoff visited (.clear sc))
  | sweepClear {cutoff : ℤ} {visited sc} : Turn ttl i m (.sweep cutoff visited (.clear sc))
        (m.setScope sc fun s => { s with keys := none }) (.sweep cutoff visited (.unlock sc))
  | sweepUnlock {cutoff : ℤ} {visited sc} : Turn ttl i m (.sweep cutoff visited (.unlock sc))
        (m.setScope sc fun s => { s with holder := none }) (.sweep cutoff visited .range)

variable {ttl : ℤ} {i : CallId} {c : Choice} {m m' : Memory} {pc' : Pc}

theorem turn_of_fetchAdd {a pc}
    (h : fetchAdd i a c m pc = some (m', pc')) : Turn ttl i m (.fetch a pc) m' pc' := by
  unfold fetchAdd at h
  split at h
  all_goals try contradiction
  all_goals try split at h
  all_goals try contradiction
  all_goals try split at h
  all_goals cases h
  all_goals constructor
  all_goals try assumption
  all_goals simp_all

theorem turn_of_dropScope {opID pc}
    (h : dropScope i opID c m pc = some (m', pc')) : Turn ttl i m (.drop opID pc) m' pc' := by
  unfold dropScope at h
  split at h
  all_goals try contradiction
  all_goals try split at h
  all_goals try contradiction
  all_goals cases h
  all_goals constructor
  all_goals assumption

theorem turn_of_sweepOnce {cutoff : ℤ} {visited pc}
    (h : sweepOnce i cutoff visited c m pc = some (m', pc')) :
    Turn ttl i m (.sweep cutoff visited pc) m' pc' := by
  unfold sweepOnce at h
  split at h
  all_goals try contradiction
  all_goals try split at h
  all_goals try contradiction
  all_goals try split at h
  all_goals try contradiction
  all_goals cases h
  all_goals constructor
  all_goals assumption

theorem turn_of_program {pc : Pc} (h : program ttl i c m pc = some (m', pc')) :
    Turn ttl i m pc m' pc' := by
  cases pc with
  | idle =>
    cases c with
    | start call =>
      cases h
      exact .start call
    | go | initial | visit | finish | pick => cases h
  | fetch a pc => exact turn_of_fetchAdd h
  | drop opID pc => exact turn_of_dropScope h
  | sweep cutoff visited pc => exact turn_of_sweepOnce h
  | fetched | dropped | swept => cases h

theorem turn_of_next {turn s s'} (h : (program ttl).next turn s = some s') :
    ∃ m' pc', Turn ttl turn.1 s.mem (s.threads turn.1) m' pc' ∧
      s' = ⟨m', Function.update s.threads turn.1 pc'⟩ := by
  obtain ⟨m', pc', hP, rfl⟩ := Program.next_eq_some_iff.mp h
  exact ⟨m', pc', turn_of_program hP, rfl⟩

end BamlRest.SharedState
