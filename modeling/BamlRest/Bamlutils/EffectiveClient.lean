import BamlRest.Bamlutils.FallbackChain

/-!
# The effective client of a request, and the metadata of the older path

`ResolveEffectiveClient` unwraps the round-robin client of a request. When an override turns out to
be invalid, it returns the client as it is, so that BAML reports the error itself.
-/

namespace BamlRest.BuildRequest

variable {σ : Type*} (r : Rotation σ) (supported : Support) (reg : Option ClientRegistry)
  (intro_ : Introspected)

/-- The client of a request: the primary one of the registry, or else the default. -/
def primaryClient (defaultClientName : Bytes) : Bytes :=
  match reg.bind (·.primary) with
  | some primary => if primary ≠ [] then primary else defaultClientName
  | none => defaultClientName

/-- `ResolveEffectiveClient`, with the advancer that `PreferAdvancer` has chosen. -/
def resolveEffectiveClient (defaultClientName : Bytes) (s : σ) :
    Except ResolveError (Bytes × Option RoundRobinInfo) :=
  let clientName := primaryClient reg defaultClientName
  match (resolve r reg intro_ clientName s).1 with
  | .ok res => .ok (res.selected, res.info)
  | .error err =>
    if err.isInvalidStrategyOverride || err.isInvalidStartOverride then .ok (clientName, none)
    else .error err

/-! ### Metadata -/

/-- What the plan says of the clients; what it says of retries is left out. -/
structure LegacyPlan where
  client : Bytes
  strategy : Bytes
  provider : Bytes
  pathReason : Option PathReason
  chain : List Bytes
  legacyChildren : List Bytes

def isInvalidOverrideReason : PathReason → Bool
  | .invalidProviderOverride | .invalidStrategyOverride | .invalidRoundRobinStartOverride => true
  | _ => false

/-- The second result of `rebuildLegacyChainMetadata`. -/
def rebuildLegacyChainMetadata (chain : List Bytes) : List (Bytes × Bool) :=
  chain.foldl (fun legacy child =>
    let p := resolveClientProvider reg intro_ child
    if p = [] || isStrategyProvider p || isUnsupported supported p then assign legacy child true
    else legacy) []

def orderedLegacyChildren (chain : List Bytes) (legacy : List (Bytes × Bool)) : List Bytes :=
  chain.filter fun child => (lookup legacy child).getD false

/-- The chain of the metadata for a fallback client, with its children for the older path. -/
def legacyChain (name : Bytes) (view : ChainView) : List Bytes × List (Bytes × Bool) :=
  if view.chain = [] ∧ ¬view.reason.any isInvalidOverrideReason then
    let chain := resolveFallbackStrategyChain reg intro_ name
    (chain, rebuildLegacyChainMetadata supported reg intro_ chain)
  else (view.chain, view.legacyChildren)

def roundRobinReason (name : Bytes) : PathReason :=
  if inspectStrategyOverride reg name = .invalid then .invalidStrategyOverride
  else if hasExplicitStrategyProviderWithoutStrategy reg name then .invalidStrategyOverride
  else if hasInvalidStartOverride reg name then .invalidRoundRobinStartOverride
  else .roundRobin

def buildLegacyMetadataPlanForClient (clientName introspectedProvider : Bytes) (s : σ) :
    LegacyPlan :=
  let provider := resolveClientProvider reg intro_ clientName
  let provider := if provider = [] ∧ ¬hasInvalidProviderOverride reg clientName
    then introspectedProvider else provider
  let provider := normalizeStrategyProvider provider
  let plan : LegacyPlan := ⟨clientName, [], [], none, [], []⟩
  if provider = [] then
    { plan with
      pathReason := if hasInvalidProviderOverride reg clientName then some .invalidProviderOverride
        else some .emptyProvider }
  else if provider = "baml-fallback" then
    -- there is no advancer here
    let view := resolveFallbackChainForClientWithAdvancer { r with advance := none } supported reg
      intro_ clientName s
    let (chain, legacy) := legacyChain supported reg intro_ clientName view
    { plan with
      strategy := "baml-fallback"
      pathReason := view.reason
      chain := chain
      legacyChildren := orderedLegacyChildren chain legacy }
  else if provider = "baml-roundrobin" then
    { plan with
      strategy := "baml-roundrobin", pathReason := some (roundRobinReason reg clientName) }
  else
    { plan with
      provider := provider
      pathReason := if isUnsupported supported provider then some .unsupportedProvider else none }

/-! ### Invalid overrides -/

/-- The options that the request gives to the client are invalid, or it makes the client a strategy
without saying which. -/
def HasInvalidOverride (name : Bytes) : Prop :=
  inspectStrategyOverride reg name = .invalid ∨
    hasExplicitStrategyProviderWithoutStrategy reg name ∨
    hasInvalidStartOverride reg name

def ResolveError.Matches (err : ResolveError) (reason : PathReason) : Prop :=
  (err.isInvalidStrategyOverride = true ∧ reason = .invalidStrategyOverride) ∨
    (err.isInvalidStartOverride = true ∧ reason = .invalidRoundRobinStartOverride)

variable {r supported reg intro_} {name : Bytes}

theorem pathReason_of_roundRobin (hrr : isRoundRobinProvider (rawClientProvider reg intro_ name))
    (introspectedProvider) (s : σ) :
    (buildLegacyMetadataPlanForClient r supported reg intro_ name introspectedProvider s).pathReason =
      some (roundRobinReason reg name) := by
  have hprovider : resolveClientProvider reg intro_ name = "baml-roundrobin" := by
    rw [resolveClientProvider_eq, normalizeStrategyProvider_of_roundRobin hrr]
  have hne : bytes "baml-roundrobin" ≠ [] := by decide
  have hnormal : normalizeStrategyProvider (bytes "baml-roundrobin") = bytes "baml-roundrobin" :=
    normalizeStrategyProvider_of_roundRobin (by rfl)
  have hfallback : bytes "baml-roundrobin" ≠ bytes "baml-fallback" := by decide
  simp [buildLegacyMetadataPlanForClient, hprovider, hne, hnormal, hfallback]

theorem roundRobinReason_of_not (h : ¬HasInvalidOverride reg name) :
    roundRobinReason reg name = .roundRobin := by
  simp only [HasInvalidOverride, not_or] at h
  simp [roundRobinReason, h.1, h.2.1, h.2.2]

theorem rawClientProvider_of_present {c} (hc : findRuntimeClient reg name = some c)
    (hpresent : c.isProviderPresent) : rawClientProvider reg intro_ name = c.provider := by
  have hfind : (entries reg).find? (fun c => c.name = name ∧ c.isProviderPresent) = some c := by
    obtain ⟨hp, pre, post, hsplit, hpre⟩ := List.find?_eq_some_iff_append.mp hc
    refine List.find?_eq_some_iff_append.mpr ⟨by simpa [hpresent] using hp, pre, post, hsplit, ?_⟩
    intro a ha
    have hne := hpre a ha
    simp_all
  rw [rawClientProvider, hfind]

theorem hasRoundRobin_of_explicit (hrr : isRoundRobinProvider (rawClientProvider reg intro_ name))
    (h : hasExplicitStrategyProviderWithoutStrategy reg name) :
    hasRoundRobinProviderWithoutStrategy reg name := by
  unfold hasExplicitStrategyProviderWithoutStrategy at h
  unfold hasRoundRobinProviderWithoutStrategy
  cases hc : findRuntimeClient reg name with
  | none =>
    rw [hc] at h
    cases h
  | some c =>
    rw [hc] at h
    simp only [Option.any_some, Bool.and_eq_true] at h ⊢
    obtain ⟨⟨hpresent, -⟩, habsent⟩ := h
    rw [rawClientProvider_of_present hc hpresent] at hrr
    exact ⟨⟨hpresent, hrr⟩, habsent⟩

theorem roundRobinReason_of_noChain {err}
    (h : roundRobinChain reg intro_ name = .error err) (hs : err.isSentinel) :
    HasInvalidOverride reg name ∧ err.Matches (roundRobinReason reg name) := by
  unfold roundRobinChain at h
  split at h
  case isTrue hinvalid =>
    cases h
    exact ⟨Or.inl hinvalid, Or.inl ⟨rfl, by simp [roundRobinReason, hinvalid]⟩⟩
  case isFalse hvalid =>
    split at h
    case isTrue hexplicit =>
      cases h
      have hstrategy : hasExplicitStrategyProviderWithoutStrategy reg name := by
        by_contra hnot
        rw [hasExplicit_of_roundRobin (by simpa using hnot)] at hexplicit
        cases hexplicit
      exact ⟨Or.inr (.inl hstrategy), Or.inl ⟨rfl, by simp [roundRobinReason, hvalid, hstrategy]⟩⟩
    case isFalse =>
      split at h <;> cases h
      cases hs

theorem hasInvalidStart_of_chain
    (hrr : isRoundRobinProvider (rawClientProvider reg intro_ name)) {chain}
    (hchain : roundRobinChain reg intro_ name = .ok chain) (h : HasInvalidOverride reg name) :
    hasInvalidStartOverride reg name ∧
      roundRobinReason reg name = .invalidRoundRobinStartOverride := by
  obtain ⟨hvalid, hrobin, -⟩ := inspectStrategyOverride_of_chain hchain
  have hexplicit : hasExplicitStrategyProviderWithoutStrategy reg name = false := by
    by_contra hnot
    rw [hasRoundRobin_of_explicit hrr (by simpa using hnot)] at hrobin
    cases hrobin
  rcases h with h | h | h
  · exact absurd h hvalid
  · rw [hexplicit] at h
    cases h
  · exact ⟨h, by simp [roundRobinReason, hvalid, hexplicit, h]⟩

theorem selectIndex_of_invalidStart (h : hasInvalidStartOverride reg name) (s : σ) (n : ℕ) :
    selectIndex r reg s name n = (.error errInvalidStartOverride, s) := by
  unfold hasInvalidStartOverride at h
  unfold selectIndex
  cases hc : findRuntimeClient reg name with
  | none =>
    rw [hc] at h
    cases h
  | some c =>
    rw [hc] at h
    have hinvalid : inspectStartOverride c.options = .invalid := of_decide_eq_true h
    simp [hinvalid]

/-- An override that is found invalid is swallowed, and the metadata name it if and only if it is one
of the client itself. -/
theorem swallowed_override_visible (r : Rotation σ) (supported : Support)
    (reg : Option ClientRegistry) (intro_ : Introspected)
    (defaultClientName introspectedProvider : Bytes) (s s' : σ) {err : ResolveError}
    (hresolve : (resolve r reg intro_ (primaryClient reg defaultClientName) s).1 = .error err)
    (hs : err.isSentinel = true) :
    resolveEffectiveClient r reg intro_ defaultClientName s =
        .ok (primaryClient reg defaultClientName, none) ∧
      ((∃ reason, (buildLegacyMetadataPlanForClient r supported reg intro_
          (primaryClient reg defaultClientName) introspectedProvider s').pathReason = some reason ∧
          err.Matches reason) ↔
        HasInvalidOverride reg (primaryClient reg defaultClientName)) := by
  generalize hname : primaryClient reg defaultClientName = name at hresolve
  constructor
  · rw [ResolveError.isSentinel] at hs
    simp [resolveEffectiveClient, hname, hresolve, hs]
  have hne : name ≠ [] := by
    rintro rfl
    rw [resolve, if_pos rfl] at hresolve
    cases hresolve
  rw [resolve, if_neg hne] at hresolve
  have hround := round_resolveFrom r reg intro_ ⟨[], name, none, s⟩
  -- nothing else than the first round can see the options of the client
  have hfirst (hrr : isRoundRobinProvider (rawClientProvider reg intro_ name) = true)
      (hiff : err.Matches (roundRobinReason reg name) ↔ HasInvalidOverride reg name) :
      (∃ reason, (buildLegacyMetadataPlanForClient r supported reg intro_ name
        introspectedProvider s').pathReason = some reason ∧ err.Matches reason) ↔
        HasInvalidOverride reg name := by
    rw [← hiff, pathReason_of_roundRobin hrr]
    simp
  have hgeneric (hnot : ¬HasInvalidOverride reg name) :
      err.Matches (roundRobinReason reg name) ↔ HasInvalidOverride reg name := by
    refine iff_of_false (fun hmatch => ?_) hnot
    rw [roundRobinReason_of_not hnot] at hmatch
    rcases hmatch with ⟨-, hc⟩ | ⟨-, hc⟩ <;> cases hc
  generalize hres : resolveFrom r reg intro_ ⟨[], name, none, s⟩ = res at hround hresolve
  cases hround with
  | cycle hseen => exact absurd hseen List.not_mem_nil
  | leaf hseen hrr => cases hresolve
  | noChain err' hrr hchain =>
    cases hresolve
    obtain ⟨hinvalid, hmatch⟩ := roundRobinReason_of_noChain hchain hs
    exact hfirst hrr (iff_of_true hmatch hinvalid)
  | noIndex chain err' s₁ hrr hchain hindex =>
    cases hresolve
    refine hfirst hrr ?_
    by_cases hinvalid : HasInvalidOverride reg name
    · obtain ⟨hstart, hreason⟩ := hasInvalidStart_of_chain hrr hchain hinvalid
      rw [selectIndex_of_invalidStart hstart] at hindex
      cases hindex
      exact iff_of_true (.inr ⟨rfl, hreason⟩) hinvalid
    · exact hgeneric hinvalid
  | outOfRange chain index s₁ hrr hchain hindex =>
    cases hresolve
    cases hs
  | next chain index s₁ selected hseen hrr hchain hindex hselected =>
    refine hfirst hrr (hgeneric fun hinvalid => ?_)
    have hstart := (hasInvalidStart_of_chain hrr hchain hinvalid).1
    rw [selectIndex_of_invalidStart hstart] at hindex
    cases hindex

def nestedProject : Introspected where
  providers := [("Outer", "baml-roundrobin"), ("Inner", "baml-roundrobin"),
    ("Leaf", "openai")]
  chains := [("Outer", ["Inner"]), ("Inner", ["Leaf"])]

def malformedStrategy (name : Bytes) : ClientRegistry :=
  ⟨none, [some ⟨name, [], false, [("strategy", .string "Leaf")]⟩]⟩

theorem swallowed_override_visible_outer :
    resolveEffectiveClient firstChild (some (malformedStrategy (bytes "Outer"))) nestedProject
        (bytes "Outer") () = .ok (bytes "Outer", none) ∧
      ∃ reason, (buildLegacyMetadataPlanForClient firstChild none
          (some (malformedStrategy (bytes "Outer"))) nestedProject (bytes "Outer") [] ()).pathReason =
          some reason ∧ ResolveError.invalidStrategyOverride.Matches reason := by
  have hresolve : (resolve firstChild (some (malformedStrategy (bytes "Outer"))) nestedProject
      (primaryClient (some (malformedStrategy (bytes "Outer"))) (bytes "Outer")) ()).1 =
      .error .invalidStrategyOverride := by decide +kernel
  have hvisible := swallowed_override_visible firstChild none
    (some (malformedStrategy (bytes "Outer"))) nestedProject (bytes "Outer") [] () () hresolve rfl
  exact ⟨hvisible.1, hvisible.2.mpr (.inl (by decide +kernel))⟩

/-- The client below has the malformed list, and the metadata of the client above do not say so. -/
theorem swallowed_override_hidden :
    (resolve firstChild (some (malformedStrategy (bytes "Inner"))) nestedProject
        (bytes "Outer") ()).1 = .error .invalidStrategyOverride ∧
      resolveEffectiveClient firstChild (some (malformedStrategy (bytes "Inner"))) nestedProject
        (bytes "Outer") () = .ok (bytes "Outer", none) ∧
      (buildLegacyMetadataPlanForClient firstChild none (some (malformedStrategy (bytes "Inner")))
        nestedProject (bytes "Outer") [] ()).pathReason = some .roundRobin := by
  decide +kernel

end BamlRest.BuildRequest
