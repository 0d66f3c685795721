import BamlRest.WorkerPlugin.SharedState

/-!
# Cached entries and their scopes

`DropScope` and `sweepOnce` reclaim cached entries through the scope that lists them, so an entry
whose scope is not registered stays for ever.

* `Inv`: the invariant of scopes and entries.
* `no_orphans`, `scope_race_free`: entries are reclaimed, and scopes changed under their mutex.
-/

namespace BamlRest.SharedState

open Function Interleave

/-! ## Pointers and locks -/

/-- The scope whose mutex a call holds. -/
def Pc.holds : Pc → Option ScopeRef
  | .fetch _ (.checkDeleted sc) | .fetch _ (.retry sc) | .fetch _ (.addKey sc)
  | .fetch _ (.loadIdem sc) | .fetch _ (.storeIdem sc) | .fetch _ (.unlock sc _) => some sc
  | .drop _ (.mark sc) | .drop _ (.deleteKeys sc _ _) | .drop _ (.clear sc _)
  | .drop _ (.unlock sc _) => some sc
  | .sweep _ _ (.recheck _ sc) | .sweep _ _ (.skip sc) | .sweep _ _ (.mark _ sc)
  | .sweep _ _ (.unregister _ sc) | .sweep _ _ (.deleteKeys _ sc _) | .sweep _ _ (.clear sc)
  | .sweep _ _ (.unlock sc) => some sc
  | _ => none

open Pc

/-- The scope that a call has a pointer to. -/
def Pc.points : Pc → Option ScopeRef
  | .fetch _ (.stamp sc) | .fetch _ (.lock sc) => some sc
  | .drop _ (.lock sc) => some sc
  | .sweep _ _ (.preCheck _ sc) | .sweep _ _ (.lock _ sc) => some sc
  | pc => pc.holds

variable {sc : ScopeRef}

theorem Pc.points_of_holds {pc : Pc} (h : pc.holds = some sc) : pc.points = some sc := by
  unfold points
  split <;> first | exact h | cases h

/-- The request that a call works for. -/
def Pc.worksFor : Pc → Option Bytes
  | .fetch a _ => some a.opID
  | .drop opID _ => some opID
  | .sweep _ _ (.preCheck opID _) | .sweep _ _ (.lock opID _) | .sweep _ _ (.recheck opID _)
  | .sweep _ _ (.mark opID _) | .sweep _ _ (.unregister opID _)
  | .sweep _ _ (.deleteKeys opID _ _) => some opID
  | _ => none

/-- The keys that a scope lists. -/
def Memory.keysOf (m : Memory) (sc : ScopeRef) : List Bytes :=
  (m.scope sc).keys.getD []

open Memory

/-- What a call knows of the scope it has locked. -/
def Established (m : Memory) : Pc → Prop
  | .fetch _ (.addKey sc) => (m.scope sc).deleted = false
  | .fetch a (.loadIdem sc) | .fetch a (.storeIdem sc) =>
    (m.scope sc).deleted = false ∧ a.key ∈ m.keysOf sc
  | .drop _ (.deleteKeys sc _ _) | .drop _ (.clear sc _) => (m.scope sc).deleted = true
  | .sweep _ _ (.unregister _ sc) | .sweep _ _ (.deleteKeys _ sc _)
  | .sweep _ _ (.clear sc) => (m.scope sc).deleted = true
  | _ => True

/-- The pointers and locks of a call. -/
structure Sound (m : Memory) (i : CallId) (pc : Pc) : Prop where
  allocated : ∀ sc, pc.points = some sc → sc.serial < m.nextScope
  tagged : ∀ sc opID, pc.points = some sc → pc.worksFor = some opID → sc.opID = opID
  locked : ∀ sc, pc.holds = some sc → (m.scope sc).holder = some i
  established : Established m pc

variable {ttl : ℤ} {i j : CallId} {m m' : Memory} {pc pc' : Pc}

theorem frame_scope (h : Turn ttl i m pc m' pc')
    (halloc : sc.serial < m.nextScope) (hsc : pc.holds ≠ some sc) :
    (m'.scope sc).keys = (m.scope sc).keys ∧ (m'.scope sc).deleted = (m.scope sc).deleted ∧
      ((m'.scope sc).holder = (m.scope sc).holder ∨ (m.scope sc).holder = none) := by
  cases h
  case storeScopeNew a h =>
    have hne : sc ≠ ⟨a.opID, m.nextScope⟩ := by
      rintro rfl
      exact lt_irrefl _ halloc
    simp [update_of_ne hne]
  case lock a sc' h =>
    by_cases heq : sc = sc'
    · subst heq
      simp [h]
    · simp [update_of_ne heq]
  case dropLock opID sc' h =>
    by_cases heq : sc = sc'
    · subst heq
      simp [h]
    · simp [update_of_ne heq]
  case sweepLock cutoff visited opID sc' h =>
    by_cases heq : sc = sc'
    · subst heq
      simp [h]
    · simp [update_of_ne heq]
  case stamp a sc' =>
    by_cases heq : sc = sc'
    · subst heq
      simp
    · simp [update_of_ne heq]
  -- the other writes to a scope are to the one that is held
  case retry a sc' | addKey a sc' | unlock a sc' _ | dropMark _ sc' | dropClear _ sc' _
     | dropUnlock _ sc' _ | skip _ _ sc' | sweepMark _ _ _ sc' | sweepClear _ _ sc'
     | sweepUnlock _ _ sc' =>
    have hne : sc ≠ sc' := fun heq => hsc (congrArg some heq.symm)
    simp [update_of_ne hne]
  all_goals exact ⟨rfl, rfl, Or.inl rfl⟩

theorem nextScope_le (h : Turn ttl i m pc m' pc') : m.nextScope ≤ m'.nextScope := by
  cases h
  case storeScopeNew => exact Nat.le_succ _
  all_goals exact le_rfl

theorem Established.congr (h : Established m pc) (hsame : ∀ sc, pc.holds = some sc →
      (m'.scope sc).keys = (m.scope sc).keys ∧ (m'.scope sc).deleted = (m.scope sc).deleted) :
    Established m' pc := by
  unfold Established at h ⊢
  unfold keysOf at *
  split <;> simp_all [holds]

variable {pci' pci : Pc}

theorem Sound.frame (hj : Sound m j pc) (h : Turn ttl i m pci m' pci')
    (hi : Sound m i pci) (hne : j ≠ i) (hsc : pc.holds = some sc) :
    (m'.scope sc).keys = (m.scope sc).keys ∧ (m'.scope sc).deleted = (m.scope sc).deleted ∧
      (m'.scope sc).holder = some j := by
  have hlock := hj.locked sc hsc
  have hfree : pci.holds ≠ some sc := by
    intro hi'
    rw [hi.locked sc hi'] at hlock
    exact hne (Option.some.inj hlock).symm
  obtain ⟨hkeys, hdel, hholder⟩ :=
    frame_scope h (hj.allocated sc (points_of_holds hsc)) hfree
  rcases hholder with hholder | hholder
  · exact ⟨hkeys, hdel, hholder.trans hlock⟩
  · rw [hholder] at hlock
    cases hlock

theorem Sound.stable (hj : Sound m j pc) (h : Turn ttl i m pci m' pci')
    (hi : Sound m i pci) (hne : j ≠ i) : Sound m' j pc where
  allocated := fun sc hsc => (hj.allocated sc hsc).trans_le (nextScope_le h)
  tagged := hj.tagged
  locked := fun _ hsc => (hj.frame h hi hne hsc).2.2
  established := hj.established.congr fun _ hsc =>
    ⟨(hj.frame h hi hne hsc).1, (hj.frame h hi hne hsc).2.1⟩

/-- A scope is registered under its own request. -/
def Registered (m : Memory) : Prop :=
  ∀ opID sc, m.scopes opID = some sc → sc.opID = opID ∧ sc.serial < m.nextScope

theorem mem_insertKey (key ks) : key ∈ (insertKey key ks).getD [] := by
  unfold insertKey
  split
  · simp
  · split <;> simp_all

variable {key : Bytes}

theorem subset_insertKey {k ks} (h : k ∈ ks.getD []) : k ∈ (insertKey key ks).getD [] := by
  unfold insertKey
  split
  · simp at h
  · split <;> simp_all

theorem entry_spec (ttl : ℤ) (m : Memory) (call : Call) :
    (call.entry ttl).points = none ∧ Established m (call.entry ttl) := by
  cases call with
  | fetchAdd key delta opID now =>
    by_cases h : opID = [] <;> simp [Call.entry, h, points, holds, Established]
  | dropScope opID =>
    by_cases h : opID = [] <;> simp [Call.entry, h, points, holds, Established]
  | sweepOnce now => exact ⟨rfl, trivial⟩

theorem Sound.of_points_eq_none (hpoints : pc.points = none) (hest : Established m pc) :
    Sound m i pc where
  allocated := fun sc hsc => by rw [hpoints] at hsc; cases hsc
  tagged := fun sc _ hsc => by rw [hpoints] at hsc; cases hsc
  locked := fun sc hsc => by rw [points_of_holds hsc] at hpoints; cases hpoints
  established := hest

theorem Sound.turn (hi : Sound m i pc) (hreg : Registered m) (h : Turn ttl i m pc m' pc') :
    Sound m' i pc' := by
  obtain ⟨halloc, htag, hlock, hest⟩ := hi
  cases h
  case start call =>
    obtain ⟨hpoints, hest⟩ := entry_spec ttl m call
    exact .of_points_eq_none hpoints hest
  -- a pointer read from the map
  case loadScopeHit a sc h | storeScopeHit a sc h =>
    obtain ⟨htag, halloc⟩ := hreg _ _ h
    constructor <;> simp_all [points, holds, worksFor, Established]
  case dropHit opID sc h =>
    obtain ⟨htag, halloc⟩ := hreg _ _ h
    constructor <;> simp_all [points, holds, worksFor, Established]
  case visit cutoff visited opID sc h =>
    obtain ⟨htag, halloc⟩ := hreg _ _ h
    constructor <;> simp_all [points, holds, worksFor, Established]
  case storeScopeNew a h =>
    constructor <;> simp [points, holds, worksFor, Established]
  -- the pointer stays, and what is established with it
  case isLive a sc h => exact ⟨halloc, htag, hlock, h⟩
  case isDeleted | loadIdemHit | storeIdemHit | storeIdemNew | recheckStale =>
    exact ⟨halloc, htag, hlock, trivial⟩
  case loadIdemMiss | dropKey | dropKeysEnd | unregister | sweepKey =>
    exact ⟨halloc, htag, hlock, hest⟩
  case recheckFresh => exact ⟨halloc, fun _ _ _ hop => (by cases hop), hlock, trivial⟩
  case sweepKeysEnd => exact ⟨halloc, fun _ _ _ hop => (by cases hop), hlock, hest⟩
  case preCheckStale => exact ⟨halloc, htag, fun _ hsc => (by cases hsc), trivial⟩
  case addKey a sc =>
    constructor <;>
      simp_all [points, holds, worksFor, Established, keysOf, mem_insertKey]
  case stamp | lock | dropLock | dropMark | dropClear | sweepLock | sweepMark | sweepClear =>
    constructor <;> simp_all [points, holds, worksFor, Established]
  all_goals exact .of_points_eq_none rfl trivial

/-! ## Live scopes -/

/-- The call is a `DropScope` that took the scope out of the map and will mark it deleted. -/
def Drops (pc : Pc) (sc : ScopeRef) : Prop :=
  pc = .drop sc.opID (.lock sc) ∨ pc = .drop sc.opID (.mark sc)

/-- A scope that is not marked deleted is registered, or about to be dropped. -/
def Accounted (s : State) : Prop :=
  ∀ sc, (s.mem.scope sc).deleted = false →
    s.mem.scopes sc.opID = some sc ∨ ∃ d, Drops (s.threads d) sc

/-- A call is about to delete the cached answer. -/
def Cleans (m : Memory) (pc : Pc) (key opID : Bytes) : Prop :=
  match pc with
  | .drop op (.deleteKeys _ todo _) => op = opID ∧ key ∈ todo
  | .sweep _ _ (.unregister op sc) => op = opID ∧ key ∈ m.keysOf sc
  | .sweep _ _ (.deleteKeys op _ todo) => op = opID ∧ key ∈ todo
  | _ => False

/-- A cached entry is listed by a scope that is not marked deleted, or about to be deleted. -/
def Covered (s : State) : Prop :=
  ∀ key opID e, s.mem.idem (key, opID) = some e →
    (∃ sc : ScopeRef, sc.opID = opID ∧ (s.mem.scope sc).deleted = false ∧
      key ∈ s.mem.keysOf sc) ∨
    ∃ d, Cleans s.mem (s.threads d) key opID

/-- A turn is safe unless it is a sweep that unregisters a scope which is not marked deleted. -/
def safeTurn (turn : CallId × Choice) (s : State) : Bool :=
  match s.threads turn.1 with
  | .sweep _ _ (.unregister opID _) =>
    match s.mem.scopes opID with
    | some sc => (s.mem.scope sc).deleted
    | none => true
  | _ => true

@[inherit_doc safeTurn]
def SafeTurn (turn : CallId × Choice) (s : State) : Prop :=
  safeTurn turn s = true

theorem not_safeTurn_iff {turn s} : ¬SafeTurn turn s ↔ ∃ cutoff visited opID sc sc',
      s.threads turn.1 = .sweep cutoff visited (.unregister opID sc) ∧
        s.mem.scopes opID = some sc' ∧ (s.mem.scope sc').deleted = false := by
  unfold SafeTurn safeTurn
  constructor
  · intro h
    split at h
    · rename_i cutoff visited opID sc hpc
      split at h
      · rename_i sc' hreg
        exact ⟨cutoff, visited, opID, sc, sc', hpc, hreg, by simpa using h⟩
      · simp at h
    · simp at h
  · rintro ⟨cutoff, visited, opID, sc, sc', hpc, hreg, hlive⟩
    simp [hpc, hreg, hlive]

/-- Nobody drops a registered scope. -/
def Exclusive (s : State) : Prop :=
  ∀ opID sc, s.mem.scopes opID = some sc → ∀ d, ¬Drops (s.threads d) sc

/-- What the turns of the allowed runs preserve. -/
structure Inv (s : State) : Prop where
  registered : Registered s.mem
  sound : ∀ i, Sound s.mem i (s.threads i)
  exclusive : Exclusive s
  accounted : Accounted s
  covered : Covered s

theorem inv_init : Inv init where
  registered := fun _ _ h => by cases h
  sound := fun _ =>
    ⟨fun _ h => (by cases h), fun _ _ h => (by cases h), fun _ h => (by cases h), trivial⟩
  exclusive := fun _ _ h => by cases h
  accounted := fun _ h => by cases h
  covered := fun _ _ _ h => by cases h

theorem Registered.turn (hreg : Registered m) (h : Turn ttl i m pc m' pc') : Registered m' := by
  intro op sc hsc
  cases h
  case storeScopeNew a h =>
    by_cases hop : op = a.opID
    · subst hop
      simp at hsc
      subst hsc
      simp
    simp [update_of_ne hop] at hsc
    obtain ⟨htag, halloc⟩ := hreg op sc hsc
    exact ⟨htag, Nat.lt_succ_of_lt halloc⟩
  case dropHit opID sc' h | unregister _ _ opID sc' =>
    by_cases hop : op = opID
    · subst hop
      simp at hsc
    · simp [update_of_ne hop] at hsc
      exact hreg op sc hsc
  all_goals exact hreg op sc hsc

/-! ### How a turn moves a scope -/

theorem Drops.points (h : Drops pc sc) : pc.points = some sc := by
  rcases h with rfl | rfl <;> rfl

theorem Drops.turn (hd : Drops pc sc) (h : Turn ttl i m pc m' pc') :
    Drops pc' sc ∨ (m'.scope sc).deleted = true := by
  rcases hd with rfl | rfl
  · cases h
    exact .inl (.inr rfl)
  · cases h
    exact .inr (by simp)

theorem Drops.of_turn (h : Turn ttl i m pc m' pc') (hd : Drops pc' sc) :
    Drops pc sc ∨ m.scopes sc.opID = some sc ∧ m'.scopes sc.opID = none := by
  cases h
  case start call =>
    cases call with
    | fetchAdd key delta opID now => by_cases hop : opID = [] <;> simp [Call.entry, hop, Drops] at hd
    | dropScope opID => by_cases hop : opID = [] <;> simp [Call.entry, hop, Drops] at hd
    | sweepOnce now => simp [Call.entry, Drops] at hd
  case dropHit opID sc' h =>
    simp only [Drops, drop.injEq, DropPc.lock.injEq, reduceCtorEq, and_false, or_false] at hd
    obtain ⟨rfl, rfl⟩ := hd
    exact .inr ⟨h, by simp⟩
  case dropLock opID sc' h =>
    simp only [Drops, drop.injEq, DropPc.mark.injEq, reduceCtorEq, and_false, false_or] at hd
    obtain ⟨rfl, rfl⟩ := hd
    exact .inl (.inl rfl)
  all_goals simp [Drops] at hd

theorem live_of_turn (h : Turn ttl i m pc m' pc') (hlive : (m'.scope sc).deleted = false) :
    (m.scope sc).deleted = false ∨ m'.scopes sc.opID = some sc := by
  cases h
  case storeScopeNew a h =>
    by_cases heq : sc = ⟨a.opID, m.nextScope⟩
    · subst heq
      exact .inr (by simp)
    · simp only [setScopes_scope, setScope_scope, update_of_ne heq] at hlive
      exact .inl hlive
  case stamp a sc' | lock a sc' _ | retry a sc' | addKey a sc' | unlock a sc' _ | dropLock _ sc' _
     | dropMark _ sc' | dropClear _ sc' _ | dropUnlock _ sc' _ | sweepLock _ _ _ sc' _
     | skip _ _ sc' | sweepMark _ _ _ sc' | sweepClear _ _ sc' | sweepUnlock _ _ sc' =>
    by_cases heq : sc = sc'
    · subst heq
      simp at hlive
      try exact .inl hlive
    · simp only [setScope_scope, update_of_ne heq] at hlive
      exact .inl hlive
  all_goals exact .inl hlive

theorem registered_of_turn (h : Turn ttl i m pc m' pc') (hsc : m.scopes sc.opID = some sc) :
    m'.scopes sc.opID = some sc ∨ Drops pc' sc ∨
      ∃ cutoff visited sc', pc = .sweep cutoff visited (.unregister sc.opID sc') := by
  cases h
  case storeScopeNew a h =>
    have hne : sc.opID ≠ a.opID := by
      intro heq
      rw [heq, h] at hsc
      cases hsc
    exact .inl (by simp [update_of_ne hne, hsc])
  case dropHit opID sc' h =>
    by_cases heq : sc.opID = opID
    · subst heq
      rw [hsc] at h
      cases h
      exact .inr (.inl (.inl rfl))
    · exact .inl (by simp [update_of_ne heq, hsc])
  case unregister cutoff visited opID sc' =>
    by_cases heq : sc.opID = opID
    · subst heq
      exact .inr (.inr ⟨_, _, _, rfl⟩)
    · exact .inl (by simp [update_of_ne heq, hsc])
  all_goals exact .inl hsc

theorem registered_before_turn (h : Turn ttl i m pc m' pc') (hsc : m'.scopes sc.opID = some sc) :
    m.scopes sc.opID = some sc ∨ sc.serial = m.nextScope := by
  cases h
  case storeScopeNew a h =>
    by_cases heq : sc.opID = a.opID
    · simp only [heq, setScopes_scopes, update_self, Option.some.injEq] at hsc
      exact .inr (by rw [← hsc])
    · exact .inl (by simpa [update_of_ne heq] using hsc)
  case dropHit opID sc' h | unregister _ _ opID sc' =>
    by_cases heq : sc.opID = opID
    · simp [heq] at hsc
    · exact .inl (by simpa [update_of_ne heq] using hsc)
  all_goals exact .inl hsc

/-! ### How a turn moves a cached entry -/

variable {opID : Bytes}

theorem cached_before_turn {e} (h : Turn ttl i m pc m' pc')
    (he : m'.idem (key, opID) = some e) : m.idem (key, opID) = some e ∨
      m'.scope = m.scope ∧ ∃ a sc, pc = .fetch a (.storeIdem sc) ∧ a.key = key ∧ a.opID = opID := by
  cases h
  case storeIdemNew a sc h =>
    by_cases heq : (key, opID) = (a.key, a.opID)
    · obtain ⟨rfl, rfl⟩ := Prod.mk.inj heq
      exact .inr ⟨rfl, a, sc, rfl, rfl, rfl⟩
    · exact .inl (by simpa [update_of_ne heq] using he)
  case dropKey op k sc todo released h | sweepKey _ _ op k sc todo h =>
    by_cases heq : (key, opID) = (k, op)
    · simp [heq] at he
    · exact .inl (by simpa [update_of_ne heq] using he)
  all_goals exact .inl he

theorem listed_of_turn (h : Turn ttl i m pc m' pc')
    (hi : Sound m i pc) (halloc : sc.serial < m.nextScope) (hlive : (m.scope sc).deleted = false)
    (hkey : key ∈ m.keysOf sc) :
    (m'.scope sc).deleted = false ∧ key ∈ m'.keysOf sc ∨ Cleans m' pc' key sc.opID := by
  unfold keysOf at hkey ⊢
  by_cases hsc : pc.holds = some sc
  · have htag := fun opID => hi.tagged sc opID (points_of_holds hsc)
    have hest := hi.established
    cases h
    case addKey a sc' =>
      cases hsc
      exact .inl (by simp [hlive, subset_insertKey hkey])
    case dropMark opID sc' =>
      cases hsc
      exact .inr ⟨(htag opID rfl).symm, hkey⟩
    case sweepMark cutoff visited opID sc' =>
      cases hsc
      exact .inr ⟨(htag opID rfl).symm, by simpa [keysOf] using hkey⟩
    case dropClear opID sc' released | sweepClear _ _ sc' =>
      cases hsc
      rw [Established, hlive] at hest
      cases hest
    case retry a sc' | unlock a sc' _ | dropUnlock _ sc' _ | skip _ _ sc' | sweepUnlock _ _ sc' =>
      cases hsc
      exact .inl (by simp [hlive, hkey])
    case storeScopeNew | stamp | lock | dropLock | sweepLock => cases hsc
    all_goals exact .inl ⟨hlive, hkey⟩
  · obtain ⟨hkeys, hdel, -⟩ := frame_scope h halloc hsc
    rw [hkeys, hdel]
    exact .inl ⟨hlive, hkey⟩

theorem Cleans.turn (hc : Cleans m pc key opID) (h : Turn ttl i m pc m' pc') :
    Cleans m' pc' key opID ∨ m'.idem (key, opID) = none := by
  cases h
  case dropKey op k sc todo released h | sweepKey _ _ op k sc todo h =>
    obtain ⟨rfl, hmem⟩ := hc
    by_cases heq : key = k
    · subst heq
      exact .inr (by simp)
    · exact .inl ⟨rfl, (List.mem_erase_of_ne heq).mpr hmem⟩
  case dropKeysEnd | sweepKeysEnd => cases hc.2
  case unregister cutoff visited op sc => exact .inl hc
  all_goals exact hc.elim

theorem Cleans.stable (hc : Cleans m pc key opID) (hj : Sound m j pc) (h : Turn ttl i m pci m' pci') (hi : Sound m i pci) (hne : j ≠ i) :
    Cleans m' pc key opID := by
  unfold Cleans at hc ⊢
  split at hc
  · exact hc
  · rename_i cutoff visited op sc
    have hsc : holds (.sweep cutoff visited (.unregister op sc)) = some sc := rfl
    rwa [keysOf, (hj.frame h hi hne hsc).1]
  · exact hc
  · exact hc.elim

variable {s s' : State} {turn : CallId × Choice}

theorem Exclusive.next (hs : Inv s) (h : (program ttl).next turn s = some s') : Exclusive s' := by
  obtain ⟨m', pc', hturn, rfl⟩ := turn_of_next h
  intro op sc hsc d hdrops
  dsimp only at hsc hdrops
  -- the scope was registered before, or no call can point to it yet
  have hbefore : Drops (s.threads d) sc ∨ m'.scopes sc.opID = none := by
    by_cases hd : d = turn.1
    · subst hd
      rw [update_self] at hdrops
      exact (Drops.of_turn hturn hdrops).imp_right And.right
    · rw [update_of_ne hd] at hdrops
      exact .inl hdrops
  obtain ⟨htag, -⟩ := (hs.registered.turn hturn) op sc hsc
  subst htag
  rcases hbefore with hbefore | hnone
  · have halloc := (hs.sound d).allocated sc hbefore.points
    rcases registered_before_turn hturn hsc with hold | hnew
    · exact hs.exclusive _ sc hold d hbefore
    · exact absurd hnew halloc.ne
  · rw [hnone] at hsc
    cases hsc

theorem Accounted.next (hs : Inv s) (hsafe : SafeTurn turn s)
    (h : (program ttl).next turn s = some s') : Accounted s' := by
  obtain ⟨m', pc', hturn, rfl⟩ := turn_of_next h
  intro sc hlive
  dsimp only at hlive ⊢
  rcases live_of_turn hturn hlive with hold | hnew
  · rcases hs.accounted sc hold with hreg | ⟨d, hd⟩
    · rcases registered_of_turn hturn hreg with hreg' | hdrops | ⟨_, _, _, hpc⟩
      · exact .inl hreg'
      · exact .inr ⟨turn.1, by rwa [update_self]⟩
      · exact absurd hsafe (not_safeTurn_iff.mpr ⟨_, _, _, _, _, hpc, hreg, hold⟩)
    refine .inr ⟨d, ?_⟩
    by_cases heq : d = turn.1
    · subst heq
      rw [update_self]
      refine (hd.turn hturn).resolve_right ?_
      rw [hlive]
      exact Bool.false_ne_true
    · rwa [update_of_ne heq]
  · exact .inl hnew

theorem not_accounted_of_unsafe (hs : Inv s) (hnot : ¬SafeTurn turn s)
    (h : (program ttl).next turn s = some s') : ¬Accounted s' := by
  obtain ⟨m', pc', hturn, rfl⟩ := turn_of_next h
  obtain ⟨cutoff, visited, opID, sc, sc', hpc, hreg, hlive⟩ := not_safeTurn_iff.mp hnot
  rw [hpc] at hturn
  obtain ⟨rfl, -⟩ := hs.registered opID sc' hreg
  cases hturn
  intro hacc
  rcases hacc sc' hlive with hreg' | ⟨d, hd⟩
  · simp at hreg'
  by_cases heq : d = turn.1
  · subst heq
    simp [Drops] at hd
  · simp only [update_of_ne heq] at hd
    exact hs.exclusive _ _ hreg d hd

theorem Inv.allocated (hs : Inv s) (h : (s.mem.scope sc).deleted = false) :
    sc.serial < s.mem.nextScope := by
  rcases hs.accounted sc h with hreg | ⟨d, hd⟩
  · exact (hs.registered _ _ hreg).2
  · exact (hs.sound d).allocated sc hd.points

theorem Covered.next (hs : Inv s) (h : (program ttl).next turn s = some s') : Covered s' := by
  obtain ⟨m', pc', hturn, rfl⟩ := turn_of_next h
  have hsound := hs.sound turn.1
  intro key opID e he
  dsimp only at he ⊢
  have hself : ∀ key opID, Cleans m' pc' key opID →
      ∃ d, Cleans m' (Function.update s.threads turn.1 pc' d) key opID :=
    fun key opID hc => ⟨turn.1, by rwa [update_self]⟩
  rcases cached_before_turn hturn he with hold | ⟨hscope, a, sc, hpc, rfl, rfl⟩
  · rcases hs.covered key opID e hold with ⟨sc, rfl, hlive, hkey⟩ | ⟨d, hd⟩
    · rcases listed_of_turn hturn hsound (hs.allocated hlive) hlive hkey with ⟨h1, h2⟩ | hc
      · exact .inl ⟨sc, rfl, h1, h2⟩
      · exact .inr (hself _ _ hc)
    by_cases heq : d = turn.1
    · subst heq
      refine .inr (hself _ _ ((hd.turn hturn).resolve_right ?_))
      rw [he]
      exact Option.some_ne_none e
    refine .inr ⟨d, ?_⟩
    rw [update_of_ne heq]
    exact hd.stable (hs.sound d) hturn hsound heq
  -- the entry is cached under the lock of a live scope that lists its key
  have hest := hsound.established
  have htag := hsound.tagged sc a.opID (by rw [hpc]; rfl) (by rw [hpc]; rfl)
  rw [hpc] at hest
  refine .inl ⟨sc, htag, ?_, ?_⟩
  · rw [hscope]
    exact hest.1
  · rw [keysOf, hscope]
    exact hest.2

theorem Inv.next (hs : Inv s) (hsafe : SafeTurn turn s)
    (h : (program ttl).next turn s = some s') : Inv s' := by
  have haccounted := Accounted.next hs hsafe h
  have hexclusive := Exclusive.next hs h
  have hcovered := Covered.next hs h
  have hsound := Program.local_next
    (fun _ _ hP hi => hi.turn hs.registered (turn_of_program hP))
    (fun _ _ _ hP hne hi hj => hj.stable (turn_of_program hP) hi hne) hs.sound h
  obtain ⟨m', pc', hturn, rfl⟩ := turn_of_next h
  exact ⟨hs.registered.turn hturn, hsound, hexclusive, haccounted, hcovered⟩

/-! ## No orphans -/

/-- Every cached entry belongs to a registered scope that lists its key. -/
def NoOrphans (m : Memory) : Prop :=
  ∀ key opID e, m.idem (key, opID) = some e →
    ∃ sc, m.scopes opID = some sc ∧ key ∈ m.keysOf sc

theorem Inv.noOrphans (hs : Inv s) (hq : Quiescent s) : NoOrphans s.mem := by
  intro key opID e he
  rcases hs.covered key opID e he with ⟨sc, rfl, hlive, hkey⟩ | ⟨d, hd⟩
  · rcases hs.accounted sc hlive with hreg | ⟨d, hd⟩
    · exact ⟨sc, hreg, hkey⟩
    · have := hq d
      rcases hd with h | h <;> simp [h, inProgress] at this
  have := hq d
  cases hpc : s.threads d with
  | fetch | drop | sweep => simp [hpc, inProgress] at this
  | idle | fetched | dropped | swept => simp [hpc, Cleans] at hd

/-- In every interleaving of `FetchAdd`, `DropScope` and `sweepOnce` in which no sweep unregisters
a scope that is not marked deleted, there are no orphans whenever no call is in progress. Such a
turn is the only one that loses a scope: after any other one, every scope that is not marked
deleted is registered or about to be dropped. -/
theorem no_orphans (ttl : ℤ) (s : State) (h : (program ttl).Reaches SafeTurn init s) :
    (Quiescent s → NoOrphans s.mem) ∧
      ∀ turn s', (program ttl).next turn s = some s' → (Accounted s' ↔ SafeTurn turn s) := by
  have hs : Inv s := h.invariant inv_init fun _ _ _ hok hI hnext => hI.next hok hnext
  refine ⟨hs.noOrphans, fun turn s' hnext => ⟨fun hacc => ?_, fun hsafe => ?_⟩⟩
  · by_contra hnot
    exact not_accounted_of_unsafe hs hnot hnext hacc
  · exact Accounted.next hs hsafe hnext

/-! ### Two runs -/

theorem quiescent_of_exec {ok : CallId × Choice → State → Bool} {turns}
    (h : (program ttl).exec ok turns init = some s) (calls : List CallId)
    (hcalls : ∀ turn ∈ turns, turn.1 ∈ calls) (hend : ∀ i ∈ calls, (s.threads i).inProgress = false) :
    Quiescent s := by
  intro i
  by_cases hi : i ∈ calls
  · exact hend i hi
  rw [Program.threads_of_exec h]
  · rfl
  intro hmem
  obtain ⟨turn, hturn, rfl⟩ := List.mem_map.mp hmem
  exact hi (hcalls turn hturn)

/-- A request that caches one entry leaves it with its scope. -/
theorem no_orphans_fetch :
    ∃ s, (program 0).exec safeTurn (fetchTurns 0 (bytes "k") (bytes "r") 0 true) init = some s ∧
      NoOrphans s.mem ∧ s.mem.idem (bytes "k", bytes "r") ≠ none := by
  obtain ⟨s, hs⟩ : ∃ s, (program 0).exec safeTurn
      (fetchTurns 0 (bytes "k") (bytes "r") 0 true) init = some s :=
    Option.isSome_iff_exists.mp (by decide +kernel)
  have hend : ((program 0).exec safeTurn (fetchTurns 0 (bytes "k") (bytes "r") 0 true) init).map
      (fun s => ((s.threads 0).inProgress, (s.mem.idem (bytes "k", bytes "r")).isSome)) =
        some (false, true) := by decide +kernel
  rw [hs, Option.map_some, Option.some.injEq, Prod.mk.injEq] at hend
  have hq : Quiescent s := quiescent_of_exec hs [0] (by decide +kernel) (by simpa using hend.1)
  refine ⟨s, hs, (no_orphans 0 s (Program.reaches_of_exec hs)).1 hq, fun hnone => ?_⟩
  rw [hnone] at hend
  cases hend.2

/-- A sweep that has found the scope of a request stale, and is overtaken by the `DropScope` of the
request and by another `FetchAdd` of it. -/
def overtakenSweep : List (CallId × Choice) :=
  fetchTurns 0 "k" "r" 0 true ++
    [(1, .start (.sweepOnce 10)), (1, .visit "r"), (1, .go)] ++
    [(2, .start (.dropScope "r")), (2, .go), (2, .go), (2, .go), (2, .pick "k"),
      (2, .go), (2, .go), (2, .go)] ++
    fetchTurns 3 "k" "r" 10 false ++
    [(1, .go), (1, .go), (1, .go), (1, .go), (1, .go), (1, .go), (1, .go), (1, .finish)]

/-- The overtaken sweep leaves an orphan when all calls have ended. -/
theorem orphan_of_overtaken_sweep :
    ∃ s, (program 1).exec (fun _ _ => true) overtakenSweep init = some s ∧
      Quiescent s ∧ ¬NoOrphans s.mem := by
  obtain ⟨s, hs⟩ : ∃ s, (program 1).exec (fun _ _ => true) overtakenSweep init = some s :=
    Option.isSome_iff_exists.mp (by decide +kernel)
  have hend : ((program 1).exec (fun _ _ => true) overtakenSweep init).map
      (fun s => ([0, 1, 2, 3].map fun i => (s.threads i).inProgress,
        (s.mem.idem (bytes "k", bytes "r")).isSome, s.mem.scopes (bytes "r"))) =
        some ([false, false, false, false], true, none) := by decide +kernel
  rw [hs, Option.map_some, Option.some.injEq, Prod.mk.injEq, Prod.mk.injEq] at hend
  obtain ⟨hthreads, hidem, hscopes⟩ := hend
  refine ⟨s, hs, quiescent_of_exec hs [0, 1, 2, 3] (by decide +kernel) ?_, fun hno => ?_⟩
  · simpa using hthreads
  obtain ⟨e, he⟩ := Option.isSome_iff_exists.mp hidem
  obtain ⟨sc, hreg, -⟩ := hno _ _ e he
  rw [hscopes] at hreg
  cases hreg

/-! ## No races -/

theorem sound_of_reaches {Ok} (h : (program ttl).Reaches Ok init s) :
    Registered s.mem ∧ ∀ i, Sound s.mem i (s.threads i) := by
  refine h.invariant (I := fun s => Registered s.mem ∧ ∀ i, Sound s.mem i (s.threads i))
    ⟨inv_init.registered, inv_init.sound⟩ fun _ _ _ _ hs hnext => ?_
  have hsound := Program.local_next (fun _ _ hP hi => hi.turn hs.1 (turn_of_program hP))
    (fun _ _ _ hP hne hi hj => hj.stable (turn_of_program hP) hi hne) hs.2 hnext
  obtain ⟨m', pc', hturn, rfl⟩ := turn_of_next hnext
  exact ⟨hs.1.turn hturn, hsound⟩

/-- In every interleaving, sweeps included, who changes the keys of a scope or deletes it holds its
mutex, and nobody else does. -/
theorem scope_race_free {Ok} (h : (program ttl).Reaches Ok init s)
    (hnext : (program ttl).next turn s = some s') (halloc : sc.serial < s.mem.nextScope)
    (hwrite : (s'.mem.scope sc).keys ≠ (s.mem.scope sc).keys ∨
      (s'.mem.scope sc).deleted ≠ (s.mem.scope sc).deleted) (i : CallId) :
    (s.threads i).holds = some sc ↔ i = turn.1 := by
  have hlocked := fun i => ((sound_of_reaches h).2 i).locked sc
  obtain ⟨m', pc', hturn, rfl⟩ := turn_of_next hnext
  have hholds : (s.threads turn.1).holds = some sc := by
    by_contra hne
    obtain ⟨hkeys, hdeleted, -⟩ := frame_scope hturn halloc hne
    exact hwrite.elim (· hkeys) (· hdeleted)
  refine ⟨fun hi => ?_, fun hi => hi ▸ hholds⟩
  exact Option.some.inj ((hlocked i hi).symm.trans (hlocked _ hholds))

/-- A request is about to add its first key. -/
theorem scope_race_free_addKey :
    ∃ s, (program 0).exec (fun _ _ => true)
        ((fetchTurns 0 (bytes "k") (bytes "r") 0 true).take 6) init = some s ∧
      s.threads 0 = .fetch ⟨bytes "k", 1, bytes "r", 0⟩ (.addKey ⟨bytes "r", 0⟩) ∧
      ∀ i, (s.threads i).holds = some ⟨bytes "r", 0⟩ ↔ i = 0 :=
  ⟨_, rfl, rfl, @scope_race_free _ 0 _ _ (0, .go) _ (@Program.reaches_of_exec _ _ _ _ _ _ _ _
    (fun _ _ => true) ((fetchTurns 0 (bytes "k") (bytes "r") 0 true).take 6) rfl) rfl (by decide)
    (by decide)⟩

end BamlRest.SharedState
