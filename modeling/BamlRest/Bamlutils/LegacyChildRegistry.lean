import BamlRest.Bamlutils.ClientRegistry
import BamlRest.Lib.Visit

/-!
# The registry of a legacy child

A child of a fallback chain that is itself a strategy is run by the older path, with a registry that
has the clients in reach of the child and nothing else.

* `preflight_protects`: what the check lets through is well formed.
-/

namespace BamlRest.BuildRequest

open List

/-- The values of `X-BAML-Path-Reason` that the resolution of clients gives. -/
inductive PathReason where
  | emptyProvider
  | unsupportedProvider
  | fallbackEmptyChain
  | fallbackEmptyChildProvider
  | fallbackAllLegacy
  | roundRobin
  | fallbackRoundRobinChildLegacy
  | fallbackRoundRobinChildBuildRequest
  | invalidStrategyOverride
  | invalidProviderOverride
  | invalidRoundRobinStartOverride
  deriving DecidableEq

variable (reg : Option ClientRegistry) (intro_ : Introspected)

/-! ### Entries -/

/-- The provider of an entry: its own, or else that of the project. -/
def ClientProperty.effectiveProvider (c : ClientProperty) : Bytes :=
  if c.isProviderPresent then c.provider else intro_.provider c.name

def isResolvedStrategyParent (c : ClientProperty) : Bool :=
  isStrategyProviderName (c.effectiveProvider intro_)

def shouldDropStrategyParentForTopLevelLegacy (c : ClientProperty) : Bool :=
  isResolvedStrategyParent intro_ c && !c.isProviderPresent &&
    (lookup c.options "strategy").isNone && (lookup c.options "start").isNone

def upstreamClientRegistryProvider (c : ClientProperty) : Bytes :=
  if c.isProviderPresent then translateUpstreamProvider c.provider
  else if intro_.provider c.name ≠ [] then translateUpstreamProvider (intro_.provider c.name)
  else []

structure LegacyChildRegistryEntry where
  name : Bytes
  provider : Bytes
  options : Options

def ClientProperty.toEntry (c : ClientProperty) : LegacyChildRegistryEntry :=
  ⟨c.name, upstreamClientRegistryProvider intro_ c, c.options⟩

/-! ### The two walks -/

/-- A node of `computeReachableSubgraph`, with its children. -/
def reachableNode (name : Bytes) : Except Empty (List Bytes) :=
  let probe := (findRuntimeClient reg name).getD ⟨name, [], false, []⟩
  if isResolvedStrategyParent intro_ probe then
    match inspectStrategyOverride reg name with
    | .valid chain => .ok chain
    | .invalid => .ok []
    | .absent => .ok (intro_.chain name)
  else .ok []

/-- `resolveEffectiveProvider` of the check. -/
def preflightProvider (name : Bytes) : Bytes :=
  match findRuntimeClient reg name with
  | some c => if c.isProviderPresent && c.provider ≠ [] then c.provider else intro_.provider name
  | none => intro_.provider name

/-- A node of `FindInvalidReachableStrategyOverride`: what is wrong with it, or its children. -/
def preflightNode (name : Bytes) : Except PathReason (List Bytes) :=
  if hasInvalidProviderOverride reg name then .error .invalidProviderOverride
  else if !isStrategyProvider (preflightProvider reg intro_ name) then .ok []
  else if inspectStrategyOverride reg name = .invalid then .error .invalidStrategyOverride
  else if hasExplicitStrategyProviderWithoutStrategy reg name then .error .invalidStrategyOverride
  else if isRoundRobinProvider (preflightProvider reg intro_ name) &&
      hasInvalidStartOverride reg name then .error .invalidRoundRobinStartOverride
  else
    match inspectStrategyOverride reg name with
    | .valid chain => .ok chain
    | _ => .ok (intro_.chain name)

/-- The names that the registry and the project know. Only these can be strategies. -/
def knownNames : List Bytes := (entries reg).map (·.name) ++ intro_.providers.map Prod.fst

def walkFuel : ℕ := (knownNames reg intro_).length + 1

def computeReachableSubgraph (root : Bytes) : List Bytes :=
  match visit (reachableNode reg intro_) (walkFuel reg intro_) [] root with
  | .ok seen => seen
  | _ => []

def findInvalidReachableStrategyOverride (root : Bytes) : Option PathReason :=
  match visit (preflightNode reg intro_) (walkFuel reg intro_) [] root with
  | .fail reason => some reason
  | _ => none

/-- A client in reach is forwarded, unless it is a strategy that the request says nothing about. -/
def isForwarded (root : Bytes) (c : ClientProperty) : Bool :=
  c.name ∈ computeReachableSubgraph reg intro_ root &&
    (!isResolvedStrategyParent intro_ c || !shouldDropStrategyParentForTopLevelLegacy intro_ c)

def buildLegacyChildRegistryEntries (root : Bytes) : List LegacyChildRegistryEntry :=
  ((entries reg).filter (isForwarded reg intro_ root)).map (·.toEntry intro_)

/-! ### The walks end -/

variable {reg intro_} {name : Bytes}

theorem mem_keys_of_lookup {β : Type*} {m k} {v : β}
    (h : lookup m k = some v) : k ∈ m.map Prod.fst := by
  obtain ⟨e, he, -⟩ := Option.map_eq_some_iff.mp h
  have hk : e.1 = k := by simpa using find?_some he
  exact hk ▸ mem_map_of_mem (mem_of_find?_eq_some he)

theorem mem_knownNames (h : findRuntimeClient reg name ≠ none ∨ intro_.provider name ≠ []) :
    name ∈ knownNames reg intro_ := by
  rcases h with h | h
  · obtain ⟨c, hc⟩ := Option.ne_none_iff_exists'.mp h
    obtain ⟨hmem, rfl⟩ := mem_of_findRuntimeClient hc
    exact mem_append_left _ (mem_map_of_mem hmem)
  · cases hlookup : lookup intro_.providers name with
    | none => exact absurd (by rw [Introspected.provider, hlookup]; rfl) h
    | some p => exact mem_append_right _ (mem_keys_of_lookup hlookup)

theorem mem_knownNames_of_preflightProvider (h : preflightProvider reg intro_ name ≠ []) :
    name ∈ knownNames reg intro_ := by
  apply mem_knownNames
  unfold preflightProvider at h
  cases hc : findRuntimeClient reg name with
  | none =>
    rw [hc] at h
    exact .inr h
  | some c => exact .inl (Option.some_ne_none c)

theorem isStrategyProvider_ne_nil {provider} (h : isStrategyProvider provider) : provider ≠ [] := by
  rintro rfl
  revert h
  decide

theorem unseen_nil_lt_walkFuel : unseen (knownNames reg intro_) [] < walkFuel reg intro_ :=
  Nat.lt_succ_of_le (length_filter_le _ _)

theorem preflight_ne_out {fuel : ℕ} (h : walkFuel reg intro_ ≤ fuel) (root) :
    visit (preflightNode reg intro_) fuel [] root ≠ .out := by
  have hinner : ∀ name cs, preflightNode reg intro_ name = .ok cs → cs ≠ [] →
      name ∈ knownNames reg intro_ := by
    intro name cs hnode hne
    unfold preflightNode at hnode
    split at hnode
    · cases hnode
    split at hnode
    · cases hnode
      exact absurd rfl hne
    case isFalse hstrategy =>
      exact mem_knownNames_of_preflightProvider
        (isStrategyProvider_ne_nil (by simpa using hstrategy))
  exact visit_ne_out hinner (unseen_nil_lt_walkFuel.trans_le h) root

theorem reachable_ne_out (root) :
    visit (reachableNode reg intro_) (walkFuel reg intro_) [] root ≠ .out := by
  have hinner : ∀ name cs, reachableNode reg intro_ name = .ok cs → cs ≠ [] →
      name ∈ knownNames reg intro_ := by
    intro name cs hnode hne
    unfold reachableNode at hnode
    dsimp only at hnode
    split at hnode
    case isTrue hstrategy =>
      apply mem_knownNames
      cases hc : findRuntimeClient reg name with
      | some c => exact .inl (Option.some_ne_none c)
      | none =>
        refine .inr (isStrategyProvider_ne_nil ?_)
        rw [hc] at hstrategy
        rwa [← isStrategyProviderName_eq]
    case isFalse =>
      cases hnode
      exact absurd rfl hne
  exact visit_ne_out hinner unseen_nil_lt_walkFuel root

theorem visit_reachable (root) : visit (reachableNode reg intro_) (walkFuel reg intro_) [] root =
      .ok (computeReachableSubgraph reg intro_ root) := by
  unfold computeReachableSubgraph
  cases h : visit (reachableNode reg intro_) (walkFuel reg intro_) [] root with
  | out => exact absurd h (reachable_ne_out root)
  | fail e => exact e.elim
  | ok seen => rfl

theorem visit_of_find_eq_none {root}
    (h : findInvalidReachableStrategyOverride reg intro_ root = none) :
    ∃ seen, visit (preflightNode reg intro_) (walkFuel reg intro_) [] root = .ok seen := by
  unfold findInvalidReachableStrategyOverride at h
  cases hvisit : visit (preflightNode reg intro_) (walkFuel reg intro_) [] root with
  | out => exact absurd hvisit (preflight_ne_out le_rfl root)
  | fail e =>
    rw [hvisit] at h
    cases h
  | ok seen => exact ⟨seen, rfl⟩

/-! ### What is forwarded -/

structure Passed (reg : Option ClientRegistry) (intro_ : Introspected) (name : Bytes)
    (cs : List Bytes) : Prop where
  provider : hasInvalidProviderOverride reg name = false
  strategy : isStrategyProvider (preflightProvider reg intro_ name) →
    inspectStrategyOverride reg name ≠ .invalid ∧
      hasExplicitStrategyProviderWithoutStrategy reg name = false ∧
      (isRoundRobinProvider (preflightProvider reg intro_ name) = true →
        hasInvalidStartOverride reg name = false) ∧
      cs = resolveFallbackStrategyChain reg intro_ name

theorem passed_of_preflightNode {cs} (h : preflightNode reg intro_ name = .ok cs) :
    Passed reg intro_ name cs := by
  unfold preflightNode at h
  split at h
  · cases h
  case isFalse hprovider =>
    refine ⟨by simpa using hprovider, fun hstrategy => ?_⟩
    rw [hstrategy, Bool.not_true, if_neg Bool.false_ne_true] at h
    split at h
    · cases h
    case isFalse hvalid =>
      split at h
      · cases h
      case isFalse hexplicit =>
        split at h
        · cases h
        case isFalse hstart =>
          refine ⟨hvalid, by simpa using hexplicit, fun hrr => by simpa [hrr] using hstart, ?_⟩
          unfold resolveFallbackStrategyChain
          cases hinspect : inspectStrategyOverride reg name with
          | invalid => exact absurd hinspect hvalid
          | absent | valid chain =>
            rw [hinspect] at h
            cases h
            rfl

theorem preflightProvider_of_strategy {c} (hname : c.name = name)
    (hc : findRuntimeClient reg name = some c ∨
      findRuntimeClient reg name = none ∧ c.isProviderPresent = false)
    (h : isResolvedStrategyParent intro_ c) :
    preflightProvider reg intro_ name = c.effectiveProvider intro_ := by
  have hne : c.effectiveProvider intro_ ≠ [] :=
    isStrategyProvider_ne_nil (by rwa [← isStrategyProviderName_eq])
  unfold preflightProvider
  unfold ClientProperty.effectiveProvider at hne ⊢
  rcases hc with hc | ⟨hc, hpresent⟩
  · rw [hc]
    cases hpresent : c.isProviderPresent with
    | true =>
      rw [hpresent, if_pos rfl] at hne
      simp [hpresent, hne]
    | false => simp [hpresent, hname]
  · rw [hc, hpresent, ← hname]
    rfl

theorem reachableNode_subset {cs ds} (h : Passed reg intro_ name cs)
    (hds : reachableNode reg intro_ name = .ok ds) : ds ⊆ cs := by
  unfold reachableNode at hds
  dsimp only at hds
  split at hds
  case isFalse =>
    cases hds
    exact nil_subset _
  case isTrue hresolved =>
    have hprovider : preflightProvider reg intro_ name =
        ((findRuntimeClient reg name).getD ⟨name, [], false, []⟩).effectiveProvider intro_ := by
      refine preflightProvider_of_strategy ?_ ?_ hresolved
      · cases hc : findRuntimeClient reg name with
        | none => rfl
        | some c => exact (mem_of_findRuntimeClient hc).2
      · cases hc : findRuntimeClient reg name with
        | none => exact .inr ⟨rfl, rfl⟩
        | some c => exact .inl rfl
    have hstrategy : isStrategyProvider (preflightProvider reg intro_ name) := by
      rwa [hprovider, ← isStrategyProviderName_eq]
    obtain ⟨hvalid, -, -, rfl⟩ := h.strategy hstrategy
    unfold resolveFallbackStrategyChain
    cases hinspect : inspectStrategyOverride reg name with
    | invalid => exact absurd hinspect hvalid
    | absent | valid chain =>
      rw [hinspect] at hds
      cases hds
      exact List.Subset.refl _

theorem passed_of_reachable {root} (h : findInvalidReachableStrategyOverride reg intro_ root = none)
    (hname : name ∈ computeReachableSubgraph reg intro_ root) :
    ∃ cs, Passed reg intro_ name cs := by
  obtain ⟨seen, hseen⟩ := visit_of_find_eq_none h
  have hvisited := visited_of_visit hseen
  have hreach := (mem_visit_iff (visit_reachable root) name).mp hname
  have hmem : name ∈ seen := by
    -- along the path, the check has seen every node
    induction hreach with
    | refl => exact hvisited.starts mem_cons_self
    | tail hpath hchild ih =>
      obtain ⟨ds, hds, hd⟩ := hchild
      have hseen' := ih ((mem_visit_iff (visit_reachable root) _).mpr hpath)
      rcases hvisited.closed _ hseen' with hnil | ⟨cs, hcs, hsub⟩
      · exact absurd hnil not_mem_nil
      · exact hsub (reachableNode_subset (passed_of_preflightNode hcs) hds hd)
  obtain ⟨cs, hcs⟩ := node_of_mem_visit hseen hmem
  exact ⟨cs, passed_of_preflightNode hcs⟩

/-- An entry that has a provider if the request gives one and, if it is a strategy, has options that
parse. -/
structure WellFormed (intro_ : Introspected) (c : ClientProperty) : Prop where
  provider : c.isProviderPresent → (c.toEntry intro_).provider ≠ []
  strategy : isResolvedStrategyParent intro_ c → strategyOverride c.options ≠ .invalid
  explicit : isResolvedStrategyParent intro_ c → c.isProviderPresent →
    strategyOverride c.options ≠ .absent
  start : isResolvedStrategyParent intro_ c →
    isRoundRobinProvider (c.effectiveProvider intro_) →
    inspectStartOverride c.options ≠ .invalid

theorem wellFormed_of_passed {c cs} (hne : c.name ≠ [])
    (hc : findRuntimeClient reg c.name = some c) (h : Passed reg intro_ c.name cs) :
    WellFormed intro_ c := by
  have hinspect : inspectStrategyOverride reg c.name = strategyOverride c.options := by
    rw [inspectStrategyOverride, hc]
  have hstrategy (hresolved : isResolvedStrategyParent intro_ c) :=
    h.strategy (by
      rw [preflightProvider_of_strategy rfl (.inl hc) hresolved, ← isStrategyProviderName_eq]
      exact hresolved)
  refine ⟨fun hpresent => ?_, fun hresolved => ?_, fun hresolved hpresent => ?_,
    fun hresolved hrr => ?_⟩
  · have hprovider := h.provider
    rw [hasInvalidProviderOverride, hc] at hprovider
    rw [ClientProperty.toEntry, upstreamClientRegistryProvider, if_pos hpresent]
    exact translateUpstreamProvider_ne_nil (by simpa [hne, hpresent] using hprovider)
  · rw [← hinspect]
    exact (hstrategy hresolved).1
  · have hexplicit := (hstrategy hresolved).2.1
    rw [isResolvedStrategyParent, isStrategyProviderName_eq, ClientProperty.effectiveProvider,
      if_pos hpresent] at hresolved
    rw [← hinspect]
    simpa [hasExplicitStrategyProviderWithoutStrategy, hc, hpresent, hresolved] using hexplicit
  · have hstart := (hstrategy hresolved).2.2.1
    rw [preflightProvider_of_strategy rfl (.inl hc) hresolved] at hstart
    simpa [hasInvalidStartOverride, hc] using hstart hrr

/-- The check ends. If it finds nothing wrong in an accepted registry, the entries that are forwarded
are well formed. -/
theorem preflight_protects (reg : Option ClientRegistry) (intro_ : Introspected) (root : Bytes) :
    (∀ fuel, walkFuel reg intro_ ≤ fuel →
      visit (preflightNode reg intro_) fuel [] root ≠ .out) ∧
    (validate reg = .ok () → findInvalidReachableStrategyOverride reg intro_ root = none →
      ∃ forwarded, forwarded ⊆ entries reg ∧
        buildLegacyChildRegistryEntries reg intro_ root = forwarded.map (·.toEntry intro_) ∧
        ∀ c ∈ forwarded, WellFormed intro_ c) := by
  refine ⟨fun fuel hfuel => preflight_ne_out hfuel root, fun hvalidate hnone =>
    ⟨(entries reg).filter (isForwarded reg intro_ root), filter_subset_self _, rfl, ?_⟩⟩
  intro c hc
  obtain ⟨hmem, hforwarded⟩ := mem_filter.mp hc
  obtain ⟨hnames, hnodup⟩ := validate_ok hvalidate
  obtain ⟨cs, hcs⟩ := passed_of_reachable hnone (of_decide_eq_true (Bool.and_eq_true_iff.mp hforwarded).1)
  exact wellFormed_of_passed (hnames c hmem) (findRuntimeClient_of_nodup hnodup hmem) hcs

/-- A round-robin client of the request with a client of the request below it. -/
def tenantRegistry : ClientRegistry where
  primary := none
  clients := [
    some ⟨"Inner", "round-robin", true,
      [("strategy", .list [.string "Tenant"]), ("start", .int 1)]⟩,
    none,
    some ⟨"Tenant", "openai", true, []⟩]

theorem preflight_protects_tenant :
    buildLegacyChildRegistryEntries (some tenantRegistry) ⟨[], []⟩ (bytes "Inner") ≠ [] ∧
      ∃ forwarded, forwarded ⊆ entries (some tenantRegistry) ∧
        buildLegacyChildRegistryEntries (some tenantRegistry) ⟨[], []⟩ (bytes "Inner") =
          forwarded.map (·.toEntry ⟨[], []⟩) ∧ ∀ c ∈ forwarded, WellFormed ⟨[], []⟩ c := by
  have hne : (buildLegacyChildRegistryEntries (some tenantRegistry) ⟨[], []⟩
      (bytes "Inner")).isEmpty = false := by decide +kernel
  refine ⟨fun hnil => ?_, (preflight_protects (some tenantRegistry) ⟨[], []⟩ (bytes "Inner")).2
    (by decide +kernel) (by decide +kernel)⟩
  rw [hnil] at hne
  cases hne

/-- A name that occurs twice: the second entry is not looked at, and it is forwarded. -/
def shadowedRegistry : ClientRegistry where
  primary := none
  clients := [some ⟨"Tenant", "openai", true, []⟩, some ⟨"Tenant", [], true, []⟩]

theorem preflight_misses_shadowed :
    findInvalidReachableStrategyOverride (some shadowedRegistry) ⟨[], []⟩ (bytes "Tenant") = none ∧
      ∃ c ∈ entries (some shadowedRegistry), c.isProviderPresent = true ∧
        c.toEntry ⟨[], []⟩ ∈
          buildLegacyChildRegistryEntries (some shadowedRegistry) ⟨[], []⟩ (bytes "Tenant") ∧
        (c.toEntry ⟨[], []⟩).provider = [] := by
  have hforwarded : isForwarded (some shadowedRegistry) ⟨[], []⟩ (bytes "Tenant")
      ⟨bytes "Tenant", [], true, []⟩ = true := by decide +kernel
  have hmem : ⟨bytes "Tenant", [], true, []⟩ ∈ entries (some shadowedRegistry) :=
    mem_cons_of_mem _ mem_cons_self
  exact ⟨by decide +kernel, _, hmem, rfl, mem_map_of_mem (mem_filter.mpr ⟨hmem, hforwarded⟩),
    by decide +kernel⟩

end BamlRest.BuildRequest
