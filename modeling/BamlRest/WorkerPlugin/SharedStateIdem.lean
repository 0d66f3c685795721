import BamlRest.WorkerPlugin.SharedState

/-!
# One advance for a request

`FetchAdd` advances a counter inside the `sync.Once` of a cached entry, so that the calls of one
request share one advance. A counter that is only ever advanced hands out consecutive ranges.

* `Entries`: the invariant of the cache.
* `fetchAdd_idempotent`: one advance for all calls of a request.
-/

/-! ## Fetch-and-add -/

namespace BamlRest.Tickets

variable {α : Type*}

/-- Advances by the second component, each of which found the first one in the counter, take it
from one value to another. -/
def Consecutive [Add α] : α → List (α × α) → α → Prop
  | v, [], w => v = w
  | v, (previous, delta) :: rest, w => previous = v ∧ Consecutive (v + delta) rest w

theorem Consecutive.snoc [Add α] {v w : α} {l} (h : Consecutive v l w)
    (delta : α) : Consecutive v (l ++ [(w, delta)]) (w + delta) := by
  induction l generalizing v with
  | nil =>
    subst h
    exact ⟨rfl, rfl⟩
  | cons x rest ih => exact ⟨h.1, ih h.2⟩

theorem Consecutive.eq_add_sum [AddMonoid α] {v w : α} {l}
    (h : Consecutive v l w) : w = v + (l.map Prod.snd).sum := by
  induction l generalizing v with
  | nil => simpa [Consecutive, eq_comm] using h
  | cons x rest ih => rw [ih h.2, List.map_cons, List.sum_cons, add_assoc]

/-- The ranges that successive advances hand out. -/
def ranges : ℕ → List ℕ → List (ℕ × ℕ)
  | _, [] => []
  | n, d :: ds => (n, n + d) :: ranges (n + d) ds

theorem le_fst_of_mem_ranges {n : ℕ} {ds r} (h : r ∈ ranges n ds) : n ≤ r.1 := by
  induction ds generalizing n with
  | nil => cases h
  | cons d ds ih =>
    rcases List.mem_cons.mp h with rfl | h
    · exact le_rfl
    · exact (Nat.le_add_right n d).trans (ih h)

theorem pairwise_disjoint_ranges (n : ℕ) (ds : List ℕ) :
    (ranges n ds).Pairwise fun r r' => Disjoint (Set.Ico r.1 r.2) (Set.Ico r'.1 r'.2) := by
  induction ds generalizing n with
  | nil => exact .nil
  | cons d ds ih =>
    refine .cons (fun r hr => ?_) (ih _)
    have hle : n + d ≤ r.1 := le_fst_of_mem_ranges hr
    rw [Set.Ico_disjoint_Ico]
    exact (min_le_left _ _).trans (hle.trans (le_max_right _ _))

theorem Consecutive.fst_eq_ranges {v w l}
    (h : Consecutive v l w) {n : ℕ} (hn : UInt64.ofNat n = v) : l.map Prod.fst =
      (ranges n (l.map fun x => x.2.toNat)).map fun r => UInt64.ofNat r.1 := by
  induction l generalizing v n with
  | nil => rfl
  | cons x rest ih =>
    have hstep : UInt64.ofNat (n + x.2.toNat) = v + x.2 := by
      rw [UInt64.ofNat_add, hn, UInt64.ofNat_toNat]
    rw [List.map_cons, List.map_cons, ranges, List.map_cons, h.1, ih h.2 hstep, hn]

end BamlRest.Tickets

namespace BamlRest.SharedState

open Function Interleave Tickets

/-! ## Counters -/

/-- The values that the counter was created with. -/
def Memory.createdWith (m : Memory) (key : Bytes) : List UInt64 :=
  m.history.filterMap fun
    | .created k v => if k = key then some v else none
    | .advanced _ _ _ _ _ => none

/-- The advances of the counter, with what each of them found. -/
def Memory.advancesOf (m : Memory) (key : Bytes) : List (UInt64 × UInt64) :=
  m.history.filterMap fun
    | .advanced _ _ k delta previous => if k = key then some (previous, delta) else none
    | .created _ _ => none

/-- A counter is where its creation and its advances lead. -/
def Counted (m : Memory) : Prop :=
  ∀ key, match m.counters key with
    | none => m.createdWith key = [] ∧ m.advancesOf key = []
    | some w => ∃ v, m.createdWith key = [v] ∧ Consecutive v (m.advancesOf key) w

variable {ttl : ℤ} {i j : CallId} {m m' : Memory} {pc pc' : Pc}

theorem counters_of_turn (h : Turn ttl i m pc m' pc') :
    m'.counters = m.counters ∧ m'.history = m.history ∨
    (∃ key v, m.counters key = none ∧ m'.counters = Function.update m.counters key (some v) ∧
      m'.history = m.history ++ [.created key v]) ∨ ∃ e key delta v, m.counters key = some v ∧
      m'.counters = Function.update m.counters key (some (v + delta)) ∧
      m'.history = m.history ++ [.advanced i e key delta v] := by
  cases h
  case counterStoreNew a e fresh h => exact .inr (.inl ⟨a.key, fresh, h, rfl, rfl⟩)
  case addPlain a v h =>
    exact .inr (.inr ⟨none, a.key, a.delta, v, h, rfl, by simp⟩)
  case addEntry a e v h =>
    exact .inr (.inr ⟨some e, a.key, a.delta, v, h, rfl, by simp⟩)
  all_goals exact .inl ⟨rfl, rfl⟩

theorem Counted.turn (hm : Counted m) (h : Turn ttl i m pc m' pc') : Counted m' := by
  intro key
  have hkey := hm key
  unfold Memory.createdWith Memory.advancesOf at hkey ⊢
  rcases counters_of_turn h with ⟨hc, hh⟩ | ⟨k, v, hnone, hc, hh⟩ | ⟨e, k, delta, v, hsome, hc, hh⟩
  · rwa [hc, hh]
  · by_cases heq : key = k
    · subst heq
      rw [hnone] at hkey
      simp [hc, hh, List.filterMap_append, hkey, Consecutive]
    · simpa [hc, hh, List.filterMap_append, update_of_ne heq, Ne.symm heq] using hkey
  by_cases heq : key = k
  · subst heq
    rw [hsome] at hkey
    obtain ⟨v₀, hcreated, hadv⟩ := hkey
    simpa [hc, hh, List.filterMap_append, hcreated] using hadv.snoc delta
  · simpa [hc, hh, List.filterMap_append, update_of_ne heq, Ne.symm heq] using hkey

/-! ## Entries -/

/-- The advances for an entry: the counter, and what it held before. -/
def Memory.advancesFor (m : Memory) (e : EntryRef) : List (Bytes × UInt64) :=
  m.history.filterMap fun
    | .advanced _ e' key _ previous => if e' = some e then some (key, previous) else none
    | .created _ _ => none

/-- The entry whose `sync.Once` a call runs. -/
def Pc.runs : Pc → Option EntryRef
  | .fetch _ (.counterLoad e) | .fetch _ (.counterStore e _) | .fetch _ (.add e) => e
  | .fetch _ (.setPrevious e _) | .fetch _ (.onceDone e) => some e
  | _ => none

/-- The entry that a call works with. -/
def Pc.entry : Pc → Option EntryRef
  | .fetch _ (.unlock _ e) | .fetch _ (.once e) | .fetch _ (.readPrevious e) => some e
  | pc => pc.runs

theorem Pc.entry_of_runs {e} (h : pc.runs = some e) : pc.entry = some e := by
  unfold entry
  split <;> first | exact h | cases h

/-- An entry is cached under its own key. -/
def Cached (m : Memory) : Prop :=
  ∀ key opID e, m.idem (key, opID) = some e → e.key = key ∧ e.serial < m.nextEntry

/-- An entry has no advance before its `sync.Once` runs, and one when it is over. -/
structure Settled (m : Memory) (e : EntryRef) : Prop where
  allocated : (m.entry e).once ≠ .fresh → e.serial < m.nextEntry
  fresh : (m.entry e).once = .fresh → m.advancesFor e = []
  done : (m.entry e).once = .done → m.advancesFor e = [(e.key, (m.entry e).previous)]

/-- What a call has done to the counters so far. -/
def Progress (m : Memory) (i : CallId) : Pc → Prop
  | .idle => ∀ e key delta previous, .advanced i e key delta previous ∉ m.history
  | .fetch a (.counterLoad e) | .fetch a (.counterStore e _) | .fetch a (.add e) =>
    (e = none → a.opID = []) ∧ ∀ e', e = some e' → m.advancesFor e' = []
  | .fetch _ (.setPrevious e v) => m.advancesFor e = [(e.key, v)]
  | .fetch _ (.onceDone e) => m.advancesFor e = [(e.key, (m.entry e).previous)]
  | .fetch _ (.readPrevious e) => (m.entry e).once = .done
  | _ => True

/-- What holds of a call and the entry it works on, by its place. -/
structure Advancing (m : Memory) (i : CallId) (pc : Pc) : Prop where
  allocated : ∀ e, pc.entry = some e → e.serial < m.nextEntry
  tagged : ∀ a p e, pc = .fetch a p → pc.entry = some e → e.key = a.key
  running : ∀ e, pc.runs = some e → (m.entry e).once = .running i
  progress : Progress m i pc

theorem frame_entry (h : Turn ttl i m pc m' pc') {e} (hruns : pc.runs ≠ some e) :
    m'.advancesFor e = m.advancesFor e ∧ (m'.entry e = m.entry e ∨
        (pc.entry = some e ∧ (m.entry e).once = .fresh ∧ (m'.entry e).once = .running i) ∨
        e.serial = m.nextEntry ∧ (m'.entry e).once = .fresh) := by
  unfold Memory.advancesFor
  cases h
  case storeIdemNew a sc h =>
    by_cases heq : e = ⟨a.key, a.opID, m.nextEntry⟩
    · subst heq
      simp
    · simp [update_of_ne heq]
  case onceBegin a e' h =>
    by_cases heq : e = e'
    · subst heq
      simp [h, Pc.entry]
    · simp [update_of_ne heq]
  case setPrevious a e' previous =>
    have hne : e ≠ e' := fun heq => hruns (congrArg some heq.symm)
    simp [update_of_ne hne]
  case onceDone a e' =>
    have hne : e ≠ e' := fun heq => hruns (congrArg some heq.symm)
    simp [update_of_ne hne]
  case addEntry a e' v h =>
    have hne : e' ≠ e := fun heq => hruns (congrArg some heq)
    simp [List.filterMap_append, hne]
  case counterStoreNew | addPlain => simp [List.filterMap_append]
  all_goals exact ⟨rfl, Or.inl rfl⟩

theorem entry_kept (h : Turn ttl i m pc m' pc') (hi : Advancing m i pc) {e}
    (halloc : e.serial < m.nextEntry) (hfresh : (m.entry e).once ≠ .fresh)
    (hother : (m.entry e).once ≠ .running i) :
    m'.entry e = m.entry e ∧ m'.advancesFor e = m.advancesFor e := by
  obtain ⟨hadv, hsame | ⟨-, hf, -⟩ | ⟨hserial, -⟩⟩ :=
    frame_entry h fun hruns => hother (hi.running e hruns)
  · exact ⟨hsame, hadv⟩
  · exact absurd hf hfresh
  · exact absurd hserial halloc.ne

theorem nextEntry_le (h : Turn ttl i m pc m' pc') : m.nextEntry ≤ m'.nextEntry := by
  cases h
  case storeIdemNew => exact Nat.le_succ _
  all_goals exact le_rfl

theorem advanced_before_turn (h : Turn ttl i m pc m' pc') (hne : j ≠ i) {e : Option EntryRef}
    {key : Bytes} {delta previous : UInt64} (hev : .advanced j e key delta previous ∈ m'.history) :
    .advanced j e key delta previous ∈ m.history := by
  rcases counters_of_turn h with ⟨-, hh⟩ | ⟨_, _, -, -, hh⟩ | ⟨_, _, _, _, -, -, hh⟩
  all_goals simpa [hh, hne] using hev

theorem Cached.turn (hm : Cached m) (h : Turn ttl i m pc m' pc') : Cached m' := by
  intro key opID e he
  cases h
  case storeIdemNew a sc h =>
    by_cases heq : (key, opID) = (a.key, a.opID)
    · obtain ⟨rfl, rfl⟩ := Prod.mk.inj heq
      simp at he
      subst he
      simp
    simp [update_of_ne heq] at he
    obtain ⟨htag, halloc⟩ := hm key opID e he
    exact ⟨htag, Nat.lt_succ_of_lt halloc⟩
  case dropKey op k sc todo released h | sweepKey _ _ op k sc todo h =>
    by_cases heq : (key, opID) = (k, op)
    · simp [heq] at he
    · simp [update_of_ne heq] at he
      exact hm key opID e he
  all_goals exact hm key opID e he

theorem once_of_runs (h : Turn ttl i m pc m' pc') (hi : Advancing m i pc) {e}
    (hruns : pc.runs = some e) : (m'.entry e).once = .running i ∨
      (m'.entry e).once = .done ∧ m'.advancesFor e = [(e.key, (m'.entry e).previous)] := by
  have hrunning := hi.running e hruns
  cases h
  case onceDone a e' =>
    cases hruns
    have hprogress : m.advancesFor e = [(e.key, (m.entry e).previous)] := hi.progress
    exact .inr ⟨by simp, by simpa [Memory.advancesFor] using hprogress⟩
  case setPrevious a e' previous =>
    cases hruns
    exact .inl (by simp [hrunning])
  case counterHit | counterMiss | counterStoreHit | counterStoreNew | addEntry =>
    exact .inl hrunning
  all_goals cases hruns

theorem Settled.turn (hm : ∀ e, Settled m e) (hi : Advancing m i pc)
    (h : Turn ttl i m pc m' pc') (e) : Settled m' e := by
  by_cases hruns : pc.runs = some e
  · have halloc := (hi.allocated e (Pc.entry_of_runs hruns)).trans_le (nextEntry_le h)
    rcases once_of_runs h hi hruns with honce | ⟨honce, hadv⟩
    · constructor <;> simp [honce, halloc]
    · constructor <;> simp [honce, halloc, hadv]
  obtain ⟨hadv, hsame | ⟨hentry, -, hrunning⟩ | ⟨hserial, hfresh⟩⟩ := frame_entry h hruns
  · obtain ⟨halloc, hfresh, hdone⟩ := hm e
    refine ⟨fun honce => ?_, fun honce => ?_, fun honce => ?_⟩
    · rw [hsame] at honce
      exact (halloc honce).trans_le (nextEntry_le h)
    · rw [hsame] at honce
      rw [hadv, hfresh honce]
    · rw [hsame] at honce ⊢
      rw [hadv, hdone honce]
  · refine ⟨fun _ => (hi.allocated e hentry).trans_le (nextEntry_le h), fun honce => ?_,
      fun honce => ?_⟩
    · rw [hrunning] at honce
      cases honce
    · rw [hrunning] at honce
      cases honce
  -- the entry is new, and no advance can be for it yet
  have hold : (m.entry e).once = .fresh := by
    by_contra hne
    exact absurd hserial ((hm e).allocated hne).ne
  refine ⟨fun honce => absurd hfresh honce, fun _ => ?_, fun honce => ?_⟩
  · rw [hadv, (hm e).fresh hold]
  · rw [hfresh] at honce
    cases honce

theorem Advancing.stable (hj : Advancing m j pc) {pci pci' : Pc} (h : Turn ttl i m pci m' pci')
    (hi : Advancing m i pci) (hne : j ≠ i) : Advancing m' j pc := by
  obtain ⟨halloc, htag, hrunning, hprogress⟩ := hj
  have hkept : ∀ e, pc.runs = some e →
      m'.entry e = m.entry e ∧ m'.advancesFor e = m.advancesFor e := by
    intro e hruns
    have honce := hrunning e hruns
    refine entry_kept h hi (halloc e (Pc.entry_of_runs hruns)) ?_ ?_
    · simp [honce]
    · simp [honce, hne]
  refine ⟨fun e he => (halloc e he).trans_le (nextEntry_le h), htag, fun e he => ?_, ?_⟩
  · rw [(hkept e he).1]
    exact hrunning e he
  unfold Progress at hprogress ⊢
  split
  · exact fun e key delta previous hev =>
      hprogress e key delta previous (advanced_before_turn h hne hev)
  · exact ⟨hprogress.1, fun e he => by rw [(hkept e he).2, hprogress.2 e he]⟩
  · exact ⟨hprogress.1, fun e he => by rw [(hkept e he).2, hprogress.2 e he]⟩
  · exact ⟨hprogress.1, fun e he => by rw [(hkept e he).2, hprogress.2 e he]⟩
  · rw [(hkept _ rfl).2]
    exact hprogress
  · rw [(hkept _ rfl).1, (hkept _ rfl).2]
    exact hprogress
  · rw [(entry_kept h hi (halloc _ rfl) (by simp [hprogress]) (by simp [hprogress])).1]
    exact hprogress
  · trivial

theorem Advancing.of_entry_eq_none (hentry : pc.entry = none) (hprogress : Progress m i pc) :
    Advancing m i pc where
  allocated := fun e he => by rw [hentry] at he; cases he
  tagged := fun _ _ e _ he => by rw [hentry] at he; cases he
  running := fun e hruns => by rw [Pc.entry_of_runs hruns] at hentry; cases hentry
  progress := hprogress

theorem Call.advancing_entry (ttl : ℤ) (m : Memory) (i : CallId) (call : Call) :
    Advancing m i (call.entry ttl) := by
  cases call with
  | fetchAdd key delta opID now =>
    by_cases hop : opID = []
    · rw [entry, if_pos hop]
      exact .of_entry_eq_none rfl ⟨fun _ => hop, fun e he => (by cases he)⟩
    · rw [entry, if_neg hop]
      exact .of_entry_eq_none rfl trivial
  | dropScope opID =>
    by_cases hop : opID = []
    · rw [entry, if_pos hop]
      exact .of_entry_eq_none rfl trivial
    · rw [entry, if_neg hop]
      exact .of_entry_eq_none rfl trivial
  | sweepOnce now => exact .of_entry_eq_none rfl trivial

theorem Advancing.turn (hi : Advancing m i pc) (hcached : Cached m) (hm : ∀ e, Settled m e)
    (h : Turn ttl i m pc m' pc') : Advancing m' i pc' := by
  obtain ⟨halloc, htag, hrunning, hprogress⟩ := hi
  cases h
  case start call => exact call.advancing_entry ttl m i
  -- a pointer read from the map
  case loadIdemHit a sc e h | storeIdemHit a sc e h =>
    obtain ⟨htag, halloc⟩ := hcached _ _ _ h
    constructor <;> simp_all [Pc.entry, Pc.runs, Progress]
  case storeIdemNew a sc h => constructor <;> simp [Pc.entry, Pc.runs, Progress]
  case unlock a sc e =>
    refine ⟨halloc, fun a' p e' hpc he => ?_, fun _ hruns => (by cases hruns), trivial⟩
    cases hpc
    exact htag a _ e' rfl he
  case onceBegin a e h =>
    have hadv := (hm e).fresh h
    constructor <;> simp_all [Pc.entry, Pc.runs, Progress, Memory.advancesFor]
  case addEntry a e v h =>
    have htag' := htag a _ e rfl rfl
    constructor <;>
      simp_all [Pc.entry, Pc.runs, Progress, Memory.advancesFor, List.filterMap_append]
  case onceOver | counterHit | counterMiss | counterStoreHit | counterStoreNew | setPrevious
     | onceDone =>
    constructor <;>
      simp_all [Pc.entry, Pc.runs, Progress, Memory.advancesFor, List.filterMap_append]
  all_goals exact .of_entry_eq_none rfl trivial

/-! ## A window without `DropScope` -/

/-- Every advance that a call has made is for the entry that is cached. -/
def Through (key opID : Bytes) (m : Memory) (i : CallId) : Prop :=
  ∀ e k delta previous, .advanced i e k delta previous ∈ m.history →
    ∃ e', e = some e' ∧ m.idem (key, opID) = some e'

/-- A `FetchAdd` of the key for the operation id works on the entry that is cached, and returns
its value. -/
def Served (key opID : Bytes) (m : Memory) (i : CallId) : Pc → Prop
  | .fetch a p => a.key = key → a.opID = opID →
    (∀ e, (Pc.fetch a p).entry = some e → m.idem (key, opID) = some e) ∧ Through key opID m i
  | .fetched a v => a.key = key → a.opID = opID →
    (∃ e, m.idem (key, opID) = some e ∧ (m.entry e).once = .done ∧ (m.entry e).previous = v) ∧
      Through key opID m i
  | _ => True

/-- The call is a `DropScope` of the operation id, or a sweep. -/
def Pc.reclaims (opID : Bytes) : Pc → Prop
  | .drop op _ => op = opID
  | .sweep _ _ _ => True
  | _ => False

variable {key opID : Bytes}

theorem cached_kept (h : Turn ttl i m pc m' pc') (hpc : ¬pc.reclaims opID) {e}
    (he : m.idem (key, opID) = some e) : m'.idem (key, opID) = some e := by
  cases h
  case storeIdemNew a sc h =>
    have hne : (key, opID) ≠ (a.key, a.opID) := by
      rintro heq
      rw [heq, h] at he
      cases he
    simpa [update_of_ne hne] using he
  case dropKey op k sc todo released h =>
    have hne : (key, opID) ≠ (k, op) := fun heq => hpc (Prod.mk.inj heq).2.symm
    simpa [update_of_ne hne] using he
  case sweepKey => exact absurd trivial hpc
  all_goals exact he

theorem Through.stable (hj : Through key opID m j) (h : Turn ttl i m pc m' pc')
    (hpc : ¬pc.reclaims opID) (hne : j ≠ i) : Through key opID m' j := by
  intro e k delta previous hev
  obtain ⟨e', rfl, hidem⟩ := hj e k delta previous (advanced_before_turn h hne hev)
  exact ⟨e', rfl, cached_kept h hpc hidem⟩

theorem Served.stable (hj : Served key opID m j pc) {pci pci' : Pc}
    (h : Turn ttl i m pci m' pci') (hpc : ¬pci.reclaims opID) (hne : j ≠ i)
    (hi : Advancing m i pci) (hm : ∀ e, Settled m e) : Served key opID m' j pc := by
  unfold Served at hj ⊢
  split at hj
  · intro hkey hop
    obtain ⟨hentry, hthrough⟩ := hj hkey hop
    exact ⟨fun e he => cached_kept h hpc (hentry e he), hthrough.stable h hpc hne⟩
  · intro hkey hop
    obtain ⟨⟨e, hidem, hdone, hprev⟩, hthrough⟩ := hj hkey hop
    have hfresh : (m.entry e).once ≠ .fresh := by simp [hdone]
    have hkept := (entry_kept h hi ((hm e).allocated hfresh) hfresh (by simp [hdone])).1
    refine ⟨⟨e, cached_kept h hpc hidem, ?_, ?_⟩, hthrough.stable h hpc hne⟩
    · rw [hkept, hdone]
    · rw [hkept, hprev]
  · trivial

theorem Served.turn (hi : Served key opID m i pc) (hop : opID ≠ []) (hadv : Advancing m i pc)
    (h : Turn ttl i m pc m' pc') : Served key opID m' i pc' := by
  have hprogress := hadv.progress
  cases h
  case start call =>
    cases call with
    | fetchAdd k delta op now =>
      -- a call that has not started has made no advance
      have hthrough : Through key opID m i :=
        fun e k delta previous hev => absurd hev (hprogress e k delta previous)
      by_cases h : op = []
      · rw [Call.entry, if_pos h]
        exact fun _ hop' => absurd (hop'.symm.trans h) hop
      · rw [Call.entry, if_neg h]
        exact fun _ _ => ⟨fun e he => (by cases he), hthrough⟩
    | dropScope op => by_cases h : op = [] <;> simp [Call.entry, h, Served]
    | sweepOnce now => trivial
  case loadIdemHit a sc e h | storeIdemHit a sc e h =>
    rintro rfl rfl
    exact ⟨fun e' he => (by cases he; exact h), (hi rfl rfl).2⟩
  case storeIdemNew a sc h =>
    rintro rfl rfl
    refine ⟨fun e' he => ?_, fun e k delta previous hev => ?_⟩
    · cases he
      simp
    obtain ⟨e', -, hidem⟩ := (hi rfl rfl).2 e k delta previous hev
    rw [h] at hidem
    cases hidem
  case addPlain a v h => exact fun _ hop' => absurd (hop'.symm.trans (hprogress.1 rfl)) hop
  case addEntry a e v h =>
    intro hk hop'
    obtain ⟨hentry, hthrough⟩ := hi hk hop'
    refine ⟨hentry, fun e' k delta previous hev => ?_⟩
    rcases List.mem_append.mp hev with hev | hev
    · exact hthrough e' k delta previous hev
    · cases List.mem_singleton.mp hev
      exact ⟨e, rfl, hentry e rfl⟩
  case readPrevious a e =>
    intro hk hop'
    obtain ⟨hentry, hthrough⟩ := hi hk hop'
    exact ⟨⟨e, hentry e rfl, hprogress, rfl⟩, hthrough⟩
  case counterStoreNew a e fresh h =>
    intro hk hop'
    obtain ⟨hentry, hthrough⟩ := hi hk hop'
    refine ⟨hentry, fun e' k delta previous hev => hthrough e' k delta previous ?_⟩
    simpa using hev
  -- the entry stays, or there is none yet
  case unlock | onceOver | onceBegin | counterHit | counterMiss | counterStoreHit | setPrevious
     | onceDone =>
    exact hi
  case loadScopeHit | loadScopeMiss | storeScopeHit | storeScopeNew | stamp | lock | isDeleted
     | isLive | retry | addKey | loadIdemMiss =>
    exact fun hk hop' => ⟨fun e he => (by cases he), (hi hk hop').2⟩
  all_goals trivial

/-! ## One advance -/

/-- The invariant of the cache. -/
structure Entries (s : State) : Prop where
  counted : Counted s.mem
  cached : Cached s.mem
  settled : ∀ e, Settled s.mem e
  advancing : ∀ i, Advancing s.mem i (s.threads i)

theorem entries_init : Entries init where
  counted := fun _ => ⟨rfl, rfl⟩
  cached := fun _ _ _ h => by cases h
  settled := fun _ => ⟨fun h => absurd rfl h, fun _ => rfl, fun h => (by cases h)⟩
  advancing := fun _ =>
    ⟨fun _ h => (by cases h), fun _ _ _ h => (by cases h), fun _ h => (by cases h),
      fun _ _ _ _ h => (by cases h)⟩

variable {s s' s₁ : State} {turn : CallId × Choice}

theorem Entries.next (hs : Entries s) (h : (program ttl).next turn s = some s') : Entries s' := by
  have hadvancing := Program.local_next
    (fun _ _ hP hi => hi.turn hs.cached hs.settled (turn_of_program hP))
    (fun _ _ _ hP hne hi hj => hj.stable (turn_of_program hP) hi hne) hs.advancing h
  obtain ⟨m', pc', hturn, rfl⟩ := turn_of_next h
  exact ⟨hs.counted.turn hturn, hs.cached.turn hturn,
    Settled.turn hs.settled (hs.advancing turn.1) hturn, hadvancing⟩

/-- The call is a `DropScope` of the operation id, or a sweep. -/
def Call.reclaims (opID : Bytes) : Call → Bool
  | .fetchAdd _ _ _ _ => false
  | .dropScope op => op = opID
  | .sweepOnce _ => true

open Call

/-- A turn that starts no `DropScope` of the operation id and no sweep. -/
def keepsOut (opID : Bytes) (turn : CallId × Choice) (_ : State) : Bool :=
  match turn.2 with
  | .start call => !call.reclaims opID
  | _ => true

theorem Call.reclaims_entry (ttl : ℤ) {call : Call} (h : call.reclaims opID = false) :
    ¬(call.entry ttl).reclaims opID := by
  cases call with
  | fetchAdd k delta op now => by_cases hop : op = [] <;> simp [entry, hop, Pc.reclaims]
  | dropScope op =>
    have hne : op ≠ opID := by simpa [reclaims] using h
    by_cases hop : op = [] <;> simp [entry, hop, Pc.reclaims, hne]
  | sweepOnce now => cases h

theorem reclaims_of_turn (hok : keepsOut opID turn s) (hpc : ¬pc.reclaims opID)
    (h : program ttl turn.1 turn.2 m pc = some (m', pc')) : ¬pc'.reclaims opID := by
  obtain ⟨i, c⟩ := turn
  by_cases hidle : pc = .idle
  · subst hidle
    cases c with
    | start call =>
      cases h
      exact reclaims_entry ttl (by simpa [keepsOut] using hok)
    | go | initial | visit | finish | pick => cases h
  cases turn_of_program h
  case start => exact absurd rfl hidle
  case dropMiss | dropUnlock | finish => exact not_false
  all_goals exact hpc

/-- What holds in a window that opens in `s₁`. -/
structure Window (key opID : Bytes) (s₁ s : State) : Prop where
  entries : Entries s
  quiet : ∀ d, ¬(s.threads d).reclaims opID
  served : ∀ i, s₁.threads i = .idle → Served key opID s.mem i (s.threads i)

theorem Window.next (hop : opID ≠ []) (hs : Window key opID s₁ s)
    (hok : keepsOut opID turn s) (h : (program ttl).next turn s = some s') :
    Window key opID s₁ s' := by
  have hturn := hs.quiet turn.1
  obtain ⟨m', pc', hP, rfl⟩ := Program.next_eq_some_iff.mp h
  refine ⟨hs.entries.next h, fun d => ?_, fun i hi => ?_⟩
  · by_cases heq : d = turn.1
    · subst heq
      simpa using reclaims_of_turn hok hturn hP
    · simpa [update_of_ne heq] using hs.quiet d
  by_cases heq : i = turn.1
  · subst heq
    simpa using (hs.served _ hi).turn hop (hs.entries.advancing _) (turn_of_program hP)
  · simpa [update_of_ne heq] using (hs.served i hi).stable (turn_of_program hP) hturn heq
      (hs.entries.advancing _) hs.entries.settled

/-- In every interleaving, the calls of `FetchAdd` with one key and one operation id that start and
return in a window return one value: the window opens when no `DropScope` of the operation id and
no sweep is in progress, and none starts in it. Exactly one advance was made for the entry that
keeps the value, it was an advance of that key, and none of the calls made another one. The
advances of a key hand out disjoint ranges, modulo `2 ^ 64`, from the value its counter was created
with to the one it holds. -/
theorem fetchAdd_idempotent (ttl : ℤ) (s₁ : State)
    (h₁ : (program ttl).Reaches (fun _ _ => True) init s₁) :
    (∀ key opID s₂, opID ≠ [] → (∀ d, ¬(s₁.threads d).reclaims opID) →
      (program ttl).Reaches (fun turn s => keepsOut opID turn s = true) s₁ s₂ →
      ∀ i delta now v, s₁.threads i = .idle → s₂.threads i = .fetched ⟨key, delta, opID, now⟩ v →
        ∃ e, s₂.mem.advancesFor e = [(key, v)] ∧
          ∀ j delta' now' v', s₁.threads j = .idle →
            s₂.threads j = .fetched ⟨key, delta', opID, now'⟩ v' →
            v' = v ∧ ∀ e' k d previous,
              .advanced j e' k d previous ∈ s₂.mem.history → e' = some e) ∧
    ∀ key w, s₁.mem.counters key = some w →
      ∃ v, s₁.mem.createdWith key = [v] ∧
        (s₁.mem.advancesOf key).map Prod.fst =
          (ranges v.toNat ((s₁.mem.advancesOf key).map fun x => x.2.toNat)).map
            (fun r => UInt64.ofNat r.1) ∧
        (ranges v.toNat ((s₁.mem.advancesOf key).map fun x => x.2.toNat)).Pairwise
          (fun r r' => Disjoint (Set.Ico r.1 r.2) (Set.Ico r'.1 r'.2)) ∧
        w = v + ((s₁.mem.advancesOf key).map Prod.snd).sum := by
  have hs₁ : Entries s₁ := h₁.invariant entries_init fun _ _ _ _ hI hnext => hI.next hnext
  refine ⟨fun key opID s₂ hop hquiet h₂ i delta now v hi hret => ?_, fun key w hw => ?_⟩
  · have hwindow : Window key opID s₁ s₁ :=
      ⟨hs₁, hquiet, fun i hi => by rw [hi]; trivial⟩
    have hs₂ := h₂.invariant hwindow fun _ _ _ hok hI hnext => hI.next hop hok hnext
    have hserved := hs₂.served i hi
    rw [hret] at hserved
    obtain ⟨⟨e, hidem, hdone, rfl⟩, -⟩ := hserved rfl rfl
    obtain ⟨htag, -⟩ := hs₂.entries.cached key opID e hidem
    refine ⟨e, ?_, fun j delta' now' v' hj hret' => ?_⟩
    · rw [(hs₂.entries.settled e).done hdone, htag]
    have hserved' := hs₂.served j hj
    rw [hret'] at hserved'
    obtain ⟨⟨e', hidem', -, rfl⟩, hthrough⟩ := hserved' rfl rfl
    have heq : e' = e := Option.some.inj (hidem'.symm.trans hidem)
    refine ⟨by rw [heq], fun x k d previous hev => ?_⟩
    obtain ⟨e'', rfl, hidem''⟩ := hthrough x k d previous hev
    exact hidem''.symm.trans hidem
  · have hkey := hs₁.counted key
    rw [hw] at hkey
    obtain ⟨v, hcreated, hadv⟩ := hkey
    exact ⟨v, hcreated, hadv.fst_eq_ranges UInt64.ofNat_toNat, pairwise_disjoint_ranges _ _,
      hadv.eq_add_sum⟩

/-! ### Two runs -/

/-- A `DropScope` that has taken the scope of a request out of the map, and is overtaken by another
one of the request that finds nothing to drop. -/
def overtakenDrop : List (CallId × Choice) :=
  fetchTurns 0 "k" "r" 0 true ++
    [(1, .start (.dropScope "r")), (1, .go), (2, .start (.dropScope "r")), (2, .go)]

/-- Two calls of `FetchAdd` of the request, and between them the end of the overtaken
`DropScope`. -/
def afterOvertakenDrop : List (CallId × Choice) :=
  (3, .start (.fetchAdd "k" 1 "r" 0)) :: List.replicate 10 (3, .go) ++
    [(1, .go), (1, .go), (1, .pick "k"), (1, .go), (1, .go), (1, .go)] ++
    (4, .start (.fetchAdd "k" 1 "r" 0)) :: List.replicate 9 (4, .go) ++
    (4, .initial 0) :: List.replicate 4 (4, .go)

/-- The first call is served from the cache, the second one advances the counter again, though both
start after a `DropScope` of the request has returned and no other one starts. -/
theorem second_advance_of_overtaken_drop :
    ∃ s₁ s₂, (program 0).exec (fun _ _ => true) overtakenDrop init = some s₁ ∧
      (program 0).exec (keepsOut (bytes "r")) afterOvertakenDrop s₁ = some s₂ ∧
      s₁.threads 2 = .dropped (bytes "r") 0 ∧ s₁.threads 3 = .idle ∧ s₁.threads 4 = .idle ∧
      s₂.threads 3 = .fetched ⟨bytes "k", 1, bytes "r", 0⟩ 0 ∧
      s₂.threads 4 = .fetched ⟨bytes "k", 1, bytes "r", 0⟩ 1 := by
  obtain ⟨s₁, hs₁⟩ : ∃ s₁, (program 0).exec (fun _ _ => true) overtakenDrop init = some s₁ :=
    Option.isSome_iff_exists.mp (by decide +kernel)
  have hboth : ((program 0).exec (fun _ _ => true) overtakenDrop init).map (fun s =>
      ([2, 3, 4].map s.threads,
        ((program 0).exec (keepsOut (bytes "r")) afterOvertakenDrop s).map fun s =>
          [3, 4].map s.threads)) =
      some ([.dropped (bytes "r") 0, .idle, .idle],
        some [.fetched ⟨bytes "k", 1, bytes "r", 0⟩ 0,
          .fetched ⟨bytes "k", 1, bytes "r", 0⟩ 1]) := by
    decide +kernel
  rw [hs₁, Option.map_some, Option.some.injEq, Prod.mk.injEq, Option.map_eq_some_iff] at hboth
  obtain ⟨hthreads, s₂, hs₂, hthreads'⟩ := hboth
  simp only [List.map_cons, List.map_nil, List.cons.injEq, and_true] at hthreads hthreads'
  exact ⟨s₁, s₂, hs₁, hs₂, hthreads.1, hthreads.2.1, hthreads.2.2, hthreads'.1, hthreads'.2⟩

def fetchTwice : List (CallId × Choice) :=
  fetchTurns 0 "k" "r" 0 true ++
    (1, .start (.fetchAdd "k" 1 "r" 0)) :: List.replicate 9 (1, .go)

/-- They return the value of one advance. -/
theorem fetchAdd_idempotent_twice :
    ∃ s, (program 0).exec (keepsOut (bytes "r")) fetchTwice init = some s ∧
      s.threads 1 = .fetched ⟨bytes "k", 1, bytes "r", 0⟩ 0 ∧
      ∃ e, s.mem.advancesFor e = [(bytes "k", 0)] := by
  obtain ⟨s, hs⟩ : ∃ s, (program 0).exec (keepsOut (bytes "r")) fetchTwice init = some s :=
    Option.isSome_iff_exists.mp (by decide +kernel)
  have hret : ((program 0).exec (keepsOut (bytes "r")) fetchTwice init).map
      (fun s => s.threads 1) = some (.fetched ⟨bytes "k", 1, bytes "r", 0⟩ 0) := by
    decide +kernel
  rw [hs, Option.map_some, Option.some.injEq] at hret
  obtain ⟨e, he, -⟩ := (fetchAdd_idempotent 0 init .refl).1 (bytes "k") (bytes "r") s
    (by decide +kernel) (fun _ h => h) (Program.reaches_of_exec hs) 1 1 0 0 rfl hret
  exact ⟨s, hs, hret, e, he⟩

end BamlRest.SharedState
