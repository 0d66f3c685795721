import BamlRest.Bamlutils.RoundRobinResolve

/-!
# Fallback chains

The children of a fallback client are gone through twice. The plan for routing unwraps a round-robin
child to one of its leaves, which depends on the rotation; the classification for metadata does not.

* `planChildren`, `classifyChildren`: the two loops.
* `resolveFallbackChainForClientWithAdvancer_eq`: metadata sees the same chain from both.
-/

namespace BamlRest.BuildRequest

open List

/-- `FallbackChainResolution`; the chain is empty when it was rejected. -/
structure FallbackChainResolution where
  chain : List Bytes
  providers : List (Bytes × Bytes)
  legacyChildren : List (Bytes × Bool)
  targets : List (Bytes × Bytes)
  nestedRoundRobin : List (Bytes × RoundRobinInfo)
  reason : Option PathReason

/-- Errors of a plan. -/
inductive PlanError where
  | duplicateRoundRobinChild (client child : Bytes) (previous position : ℕ)
  | resolve (err : ResolveError)

/-- `isProviderSupported`, which may be nil. -/
abbrev Support := Option (Bytes → Bool)

section

variable (supported : Support)

def isUnsupported (provider : Bytes) : Bool := supported.any fun f => !f provider

def isCentralizationEligible (leaf leafProvider : Bytes) : Bool :=
  leaf ≠ [] && leafProvider ≠ [] && !isStrategyProvider leafProvider &&
    supported.any fun f => f leafProvider

end

/-! ### What the two loops share -/

/-- The chain of a fallback client, or why there is none; not of any other client. -/
def fallbackChainOf (reg : Option ClientRegistry) (intro_ : Introspected) (name : Bytes) :
    Option (Except PathReason (List Bytes)) :=
  if resolveClientProvider reg intro_ name ≠ "baml-fallback" then none
  else if inspectStrategyOverride reg name = .invalid then some (.error .invalidStrategyOverride)
  else if hasExplicitStrategyProviderWithoutStrategy reg name then
    some (.error .invalidStrategyOverride)
  else
    match resolveFallbackStrategyChain reg intro_ name with
    | [] => some (.error .fallbackEmptyChain)
    | chain => some (.ok chain)

def checkFallbackChild (reg : Option ClientRegistry) (intro_ : Introspected) (child : Bytes) :
    Except PathReason Bytes :=
  if hasInvalidProviderOverride reg child then .error .invalidProviderOverride
  else
    let p := resolveClientProvider reg intro_ child
    if p = [] then .error .fallbackEmptyChildProvider
    else if isStrategyProvider p then
      match findInvalidReachableStrategyOverride reg intro_ child with
      | some reason => .error reason
      | none => .ok p
    else .ok p

/-- What both loops keep: the providers, the children for the older path and their number, and
whether one of these is round-robin. -/
structure ChainState where
  providers : List (Bytes × Bytes)
  legacyChildren : List (Bytes × Bool)
  legacyPositions : ℕ
  roundRobinLegacy : Bool

def ChainState.new : ChainState := ⟨[], [], 0, false⟩

def ChainState.markLegacy (st : ChainState) (child : Bytes) : ChainState :=
  { st with
    legacyChildren := assign st.legacyChildren child true, legacyPositions := st.legacyPositions + 1 }

/-! ### The plan -/

variable {σ : Type*}

/-- What the plan keeps. -/
structure PlanState (σ : Type*) where
  chainState : ChainState
  targets : List (Bytes × Bytes)
  nestedRoundRobin : List (Bytes × RoundRobinInfo)
  rrChildPositions : List (Bytes × ℕ)
  centralized : Bool
  state : σ

/-- Why a plan stops. -/
inductive PlanStop where
  | rejected (reason : PathReason)
  | failed (err : PlanError)

section

variable (r : Rotation σ) (supported : Support) (reg : Option ClientRegistry)
  (intro_ : Introspected)

/-- A round-robin child that the chain has not named before, with its provider. -/
def planRoundRobinChild (child p : Bytes) (st : PlanState σ) : Except PlanStop (PlanState σ) :=
  let legacy (st : PlanState σ) : PlanState σ :=
    { st with chainState := { st.chainState with roundRobinLegacy := true }.markLegacy child }
  if supported.isNone then .ok (legacy st)
  else
    match resolve r reg intro_ child st.state with
    | (.error err, _) =>
      if err.isInvalidStrategyOverride then .error (.rejected .invalidStrategyOverride)
      else if err.isInvalidStartOverride then .error (.rejected .invalidRoundRobinStartOverride)
      else .error (.failed (.resolve err))
    | (.ok res, s) =>
      let st := { st with state := s }
      let leafProvider := resolveClientProvider reg intro_ res.selected
      if isCentralizationEligible supported res.selected leafProvider then
        .ok { st with
          chainState := { st.chainState with
            providers := assign st.chainState.providers child leafProvider }
          targets := if res.selected ≠ child then assign st.targets child res.selected
            else st.targets
          nestedRoundRobin := match res.info with
            | some info => assign st.nestedRoundRobin child info
            | none => st.nestedRoundRobin
          centralized := true }
      else
        .ok (legacy { st with
          chainState := { st.chainState with providers := assign st.chainState.providers child p } })

/-- One child of the plan for the client `name`. -/
def planChild (name : Bytes) (position : ℕ) (child : Bytes) (st : PlanState σ) :
    Except PlanStop (PlanState σ) :=
  match checkFallbackChild reg intro_ child with
  | .error reason => .error (.rejected reason)
  | .ok p =>
    let st := { st with
      chainState := { st.chainState with providers := assign st.chainState.providers child p } }
    if isRoundRobinProvider p then
      match lookup st.rrChildPositions child with
      | some previous => .error (.failed (.duplicateRoundRobinChild name child previous position))
      | none =>
        planRoundRobinChild r supported reg intro_ child p
          { st with rrChildPositions := assign st.rrChildPositions child position }
    else if isStrategyProvider p || isUnsupported supported p then
      .ok { st with chainState := st.chainState.markLegacy child }
    else .ok st

/-- The loop of the plan. -/
def planChildren (name : Bytes) (position : ℕ) :
    List Bytes → PlanState σ → Except PlanStop (PlanState σ)
  | [], st => .ok st
  | child :: children, st =>
    match planChild r supported reg intro_ name position child st with
    | .error stop => .error stop
    | .ok st => planChildren name (position + 1) children st

def FallbackChainResolution.rejected (reason : PathReason) : FallbackChainResolution :=
  ⟨[], [], [], [], [], some reason⟩

/-- `ResolveFallbackChainPlanForClient`. -/
def resolveFallbackChainPlanForClient (name : Bytes) (s : σ) : Except PlanError (Option FallbackChainResolution) :=
  match fallbackChainOf reg intro_ name with
  | none => .ok none
  | some (.error reason) => .ok (some (.rejected reason))
  | some (.ok chain) =>
    match planChildren r supported reg intro_ name 0 chain ⟨.new, [], [], [], false, s⟩ with
    | .error (.rejected reason) => .ok (some (.rejected reason))
    | .error (.failed err) => .error err
    | .ok st =>
      if st.chainState.legacyPositions = chain.length then
        .ok (some (.rejected .fallbackAllLegacy))
      else
        .ok (some ⟨chain, st.chainState.providers, st.chainState.legacyChildren, st.targets,
          st.nestedRoundRobin,
          if st.centralized then some .fallbackRoundRobinChildBuildRequest
          else if st.chainState.roundRobinLegacy then some .fallbackRoundRobinChildLegacy
          else none⟩)

/-! ### The classification -/

/-- What metadata sees of a chain; the chain is empty when there is none. -/
structure ChainView where
  chain : List Bytes
  providers : List (Bytes × Bytes)
  legacyChildren : List (Bytes × Bool)
  reason : Option PathReason
  deriving DecidableEq

def ChainView.none (reason : Option PathReason) : ChainView := ⟨[], [], [], reason⟩

def ChainState.classify (st : ChainState) (child p : Bytes) : ChainState :=
  let st := { st with providers := assign st.providers child p }
  let st := if isStrategyProvider p || isUnsupported supported p then st.markLegacy child else st
  { st with roundRobinLegacy := st.roundRobinLegacy || isRoundRobinProvider p }

def classifyChild (child : Bytes) (st : ChainState) : Except PathReason ChainState :=
  match checkFallbackChild reg intro_ child with
  | .error reason => .error reason
  | .ok p => .ok (st.classify supported child p)

/-- The loop of the classification. -/
def classifyChildren : List Bytes → ChainState → Except PathReason ChainState
  | [], st => .ok st
  | child :: children, st =>
    match classifyChild supported reg intro_ child st with
    | .error reason => .error reason
    | .ok st => classifyChildren children st

/-- The chain as metadata sees it. -/
def resolveFallbackChainLegacyClassification (name : Bytes) : ChainView :=
  match fallbackChainOf reg intro_ name with
  | none => .none none
  | some (.error reason) => .none (some reason)
  | some (.ok chain) =>
    match classifyChildren supported reg intro_ chain .new with
    | .error reason => .none (some reason)
    | .ok st =>
      if st.legacyPositions = chain.length then .none (some .fallbackAllLegacy)
      else
        ⟨chain, st.providers, st.legacyChildren,
          if st.roundRobinLegacy then some .fallbackRoundRobinChildLegacy else none⟩

/-- The view of a chain that metadata uses. It is the plan, unless the plan fails or has unwrapped a
child. -/
def resolveFallbackChainForClientWithAdvancer (name : Bytes) (s : σ) : ChainView :=
  match resolveFallbackChainPlanForClient r supported reg intro_ name s with
  | .error _ => resolveFallbackChainLegacyClassification supported reg intro_ name
  | .ok none => .none none
  | .ok (some res) =>
    if res.targets ≠ [] ∨ res.nestedRoundRobin ≠ [] then
      resolveFallbackChainLegacyClassification supported reg intro_ name
    else ⟨res.chain, res.providers, res.legacyChildren, res.reason⟩

end

/-! ## The two loops -/

theorem assign_ne_nil {β : Type*} (m k) (v : β) : assign m k v ≠ [] := by
  unfold assign
  split
  case isTrue h =>
    intro hnil
    rw [map_eq_nil_iff] at hnil
    rw [hnil] at h
    cases h
  case isFalse => simp

theorem assign_assign {β : Type*} (m k) (v w : β) : assign (assign m k v) k w = assign m k w := by
  by_cases h : m.any (·.1 == k)
  · have hv : assign m k v = m.map fun e => if e.1 = k then (k, v) else e := if_pos h
    have hany : (assign m k v).any (·.1 == k) = true := by
      obtain ⟨e, he, hk⟩ := any_eq_true.mp h
      rw [hv, any_eq_true]
      exact ⟨_, mem_map_of_mem he, by simp [beq_iff_eq.mp hk]⟩
    rw [assign, if_pos hany, hv, assign, if_pos h, map_map]
    refine map_congr_left fun e _ => ?_
    by_cases hk : e.1 = k <;> simp [hk]
  have hv : assign m k v = m ++ [(k, v)] := if_neg h
  have hmap : (m.map fun e => if e.1 = k then (k, w) else e) = m := by
    refine (map_congr_left fun e he => ?_).trans (map_id m)
    have hk : e.1 ≠ k := fun hk => h (any_eq_true.mpr ⟨e, he, beq_iff_eq.mpr hk⟩)
    simp [hk]
  rw [assign, if_pos (by simp [hv]), hv, map_append, hmap, assign, if_neg h]
  simp

variable {r : Rotation σ} {supported : Support} {reg : Option ClientRegistry}
  {intro_ : Introspected} {name : Bytes}

/-- The two loops after `k` children. -/
structure Agrees (k : ℕ) (st : PlanState σ) (cl : ChainState) : Prop where
  same : st.centralized = false →
    st.chainState = cl ∧ st.targets = [] ∧ st.nestedRoundRobin = []
  reported : st.centralized →
    st.nestedRoundRobin ≠ [] ∧ st.chainState.legacyPositions < k
  bound : st.chainState.legacyPositions ≤ k

variable {p child : Bytes}

theorem checkFallbackChild_ok (h : checkFallbackChild reg intro_ child = .ok p) :
    p = resolveClientProvider reg intro_ child ∧
      (isStrategyProvider p = true → findInvalidReachableStrategyOverride reg intro_ child = none) := by
  unfold checkFallbackChild at h
  split at h
  · cases h
  dsimp only at h
  split at h
  · cases h
  split at h
  case isTrue hstrategy =>
    split at h
    · cases h
    case h_2 hnone =>
      cases h
      exact ⟨rfl, fun _ => hnone⟩
  case isFalse hstrategy =>
    cases h
    exact ⟨rfl, fun hc => absurd hc hstrategy⟩

theorem exists_passedAll {root} (h : findInvalidReachableStrategyOverride reg intro_ root = none) :
    ∃ names, root ∈ names ∧ PassedAll reg intro_ names := by
  obtain ⟨seen, hseen⟩ := visit_of_find_eq_none h
  have hvisited := visited_of_visit hseen
  refine ⟨seen, hvisited.starts mem_cons_self, fun x hx => ?_⟩
  rcases hvisited.closed x hx with hnil | ⟨cs, hcs, hsub⟩
  · exact absurd hnil not_mem_nil
  · exact ⟨cs, passed_of_preflightNode hcs, hsub⟩

theorem resolve_error (hnodup : ((entries reg).map (·.name)).Nodup) (hplain : r.IsPlain) (hcheck : findInvalidReachableStrategyOverride reg intro_ child = none)
    {s s' : σ} {err} (h : resolve r reg intro_ child s = (.error err, s')) :
    err.isSentinel = false := by
  obtain ⟨names, hmem, hnames⟩ := exists_passedAll hcheck
  unfold resolve at h
  split at h
  · cases h
  · exact resolveFrom_error hnodup hplain hnames (u := ⟨[], child, none, s⟩) hmem h

theorem ChainState.classify_positions (supported : Support) (st : ChainState) (child p : Bytes) :
    (st.classify supported child p).legacyPositions ≤ st.legacyPositions + 1 := by
  unfold classify
  dsimp only
  split
  · exact le_rfl
  · exact Nat.le_succ _

theorem ChainState.classify_of_roundRobin (st : ChainState) (child : Bytes)
    (h : isRoundRobinProvider p) : st.classify supported child p = { st with
        providers := assign st.providers child p, roundRobinLegacy := true }.markLegacy child := by
  simp [classify, isStrategyProvider, h, markLegacy]

theorem Agrees.classify {k : ℕ} {st st' : PlanState σ} {cl : ChainState} (h : Agrees k st cl) (hstate : st'.chainState = st.chainState.classify supported child p)
    (htargets : st'.targets = st.targets) (hnested : st'.nestedRoundRobin = st.nestedRoundRobin)
    (hcentral : st'.centralized = st.centralized) :
    Agrees (k + 1) st' (cl.classify supported child p) where
  same := by
    intro hc
    obtain ⟨hsame, ht, hn⟩ := h.same (hcentral ▸ hc)
    exact ⟨by rw [hstate, hsame], htargets.trans ht, hnested.trans hn⟩
  reported := by
    intro hc
    obtain ⟨hne, hlt⟩ := h.reported (hcentral ▸ hc)
    have hle := st.chainState.classify_positions supported child p
    exact ⟨hnested ▸ hne, by rw [hstate]; omega⟩
  bound := by
    have hle := st.chainState.classify_positions supported child p
    have hbound := h.bound
    rw [hstate]
    omega

theorem Agrees.centralize {k : ℕ} {st st' : PlanState σ} {cl : ChainState} (h : Agrees k st cl)
    (hpositions : st'.chainState.legacyPositions = st.chainState.legacyPositions)
    (hnested : st'.nestedRoundRobin ≠ []) (hcentral : st'.centralized) (cl') :
    Agrees (k + 1) st' cl' where
  same := fun hc => (by rw [hcentral] at hc; cases hc)
  reported := fun _ => ⟨hnested, by have := h.bound; omega⟩
  bound := by have := h.bound; omega

theorem rawClientProvider_of_check
    (hcheck : checkFallbackChild reg intro_ child = .ok p) (hrr : isRoundRobinProvider p) :
    isRoundRobinProvider (rawClientProvider reg intro_ child) := by
  rw [(checkFallbackChild_ok hcheck).1, resolveClientProvider_eq, isRoundRobinProvider_normalize] at hrr
  exact hrr

variable (supported) in
theorem agrees_of_planRoundRobinChild (hnodup : ((entries reg).map (·.name)).Nodup)
    (hplain : r.IsPlain) {k : ℕ} {st st₁ : PlanState σ} {cl : ChainState} (h : Agrees k st cl)
    {child p : Bytes} (hcheck : checkFallbackChild reg intro_ child = .ok p)
    (hrr : isRoundRobinProvider p) (hstate : st₁.chainState =
      { st.chainState with providers := assign st.chainState.providers child p })
    (htargets : st₁.targets = st.targets) (hnested : st₁.nestedRoundRobin = st.nestedRoundRobin)
    (hcentral : st₁.centralized = st.centralized) :
    (∀ reason, planRoundRobinChild r supported reg intro_ child p st₁ ≠ .error (.rejected reason)) ∧
      ∀ st', planRoundRobinChild r supported reg intro_ child p st₁ = .ok st' →
        Agrees (k + 1) st' (cl.classify supported child p) := by
  have hlegacy : { st₁.chainState with roundRobinLegacy := true }.markLegacy child =
      st.chainState.classify supported child p := by
    rw [hstate, ChainState.classify_of_roundRobin _ _ hrr]
  unfold planRoundRobinChild
  dsimp only
  split
  case isTrue =>
    refine ⟨fun _ hc => (by cases hc), fun st' hst' => ?_⟩
    cases hst'
    exact h.classify hlegacy htargets hnested hcentral
  case isFalse =>
    split
    case h_1 err s hresolve =>
      have hstrategy : isStrategyProvider p := by simp [isStrategyProvider, hrr]
      have hsentinel :=
        resolve_error hnodup hplain ((checkFallbackChild_ok hcheck).2 hstrategy) hresolve
      rw [ResolveError.isSentinel, Bool.or_eq_false_iff] at hsentinel
      rw [hsentinel.1, hsentinel.2, if_neg Bool.false_ne_true, if_neg Bool.false_ne_true]
      exact ⟨fun _ hc => (by cases hc), fun _ hc => (by cases hc)⟩
    case h_2 res s hresolve =>
      split
      case isTrue heligible =>
        refine ⟨fun _ hc => (by cases hc), fun st' hst' => ?_⟩
        have hne : child ≠ [] := by
          rintro rfl
          rw [resolve, if_pos rfl] at hresolve
          cases hresolve
          simp [isCentralizationEligible] at heligible
        obtain ⟨info, hinfo⟩ := Option.isSome_iff_exists.mp
          (resolve_info hne (rawClientProvider_of_check hcheck hrr) hresolve)
        cases hst'
        refine h.centralize ?_ ?_ rfl _
        · dsimp only
          rw [hstate]
        · rw [hinfo]
          exact assign_ne_nil _ _ _
      case isFalse =>
        refine ⟨fun _ hc => (by cases hc), fun st' hst' => ?_⟩
        cases hst'
        refine h.classify ?_ htargets hnested hcentral
        rw [← hlegacy]
        dsimp only
        rw [hstate, assign_assign]

variable (supported intro_ name) in
theorem agrees_of_planChild (hnodup : ((entries reg).map (·.name)).Nodup) (hplain : r.IsPlain)
    {k : ℕ} {st : PlanState σ} {cl : ChainState} (h : Agrees k st cl) (child) :
    (∀ reason, planChild r supported reg intro_ name k child st = .error (.rejected reason) →
      classifyChild supported reg intro_ child cl = .error reason) ∧
    ∀ st', planChild r supported reg intro_ name k child st = .ok st' →
      ∃ cl', classifyChild supported reg intro_ child cl = .ok cl' ∧ Agrees (k + 1) st' cl' := by
  unfold planChild classifyChild
  cases hcheck : checkFallbackChild reg intro_ child with
  | error reason =>
    refine ⟨fun reason' hc => ?_, fun _ hc => (by cases hc)⟩
    cases hc
    rfl
  | ok p =>
    dsimp only
    split
    case isTrue hrr =>
      split
      · exact ⟨fun _ hc => (by cases hc), fun _ hc => (by cases hc)⟩
      have hchild := @agrees_of_planRoundRobinChild σ r supported reg intro_ hnodup hplain k st
        { st with
          chainState := { st.chainState with providers := assign st.chainState.providers child p }
          rrChildPositions := assign st.rrChildPositions child k } cl h child p hcheck hrr
        rfl rfl rfl rfl
      exact ⟨fun reason hc => absurd hc (hchild.1 reason),
        fun st' hst' => ⟨_, rfl, hchild.2 st' hst'⟩⟩
    case isFalse hrr =>
      have hrr : isRoundRobinProvider p = false := by simpa using hrr
      split
      case isTrue hlegacy =>
        refine ⟨fun _ hc => (by cases hc), fun st' hst' => ?_⟩
        cases hst'
        refine ⟨_, rfl, h.classify ?_ rfl rfl rfl⟩
        simp [ChainState.classify, hlegacy, hrr, ChainState.markLegacy]
      case isFalse hlegacy =>
        refine ⟨fun _ hc => (by cases hc), fun st' hst' => ?_⟩
        cases hst'
        refine ⟨_, rfl, h.classify ?_ rfl rfl rfl⟩
        simp [ChainState.classify, hlegacy, hrr]

variable (supported intro_ name) in
theorem agrees_of_planChildren (hnodup : ((entries reg).map (·.name)).Nodup) (hplain : r.IsPlain)
    {k : ℕ} {st cl} (h : Agrees k st cl) (children) :
    (∀ reason, planChildren r supported reg intro_ name k children st = .error (.rejected reason) →
      classifyChildren supported reg intro_ children cl = .error reason) ∧
    ∀ st', planChildren r supported reg intro_ name k children st = .ok st' →
      ∃ cl', classifyChildren supported reg intro_ children cl = .ok cl' ∧
        Agrees (k + children.length) st' cl' := by
  induction children generalizing k st cl with
  | nil =>
    refine ⟨fun _ hc => (by cases hc), fun st' hst' => ?_⟩
    cases hst'
    exact ⟨cl, rfl, h⟩
  | cons child children ih =>
    obtain ⟨hreject, hok⟩ := agrees_of_planChild supported intro_ name hnodup hplain h child
    unfold planChildren classifyChildren
    cases hchild : planChild r supported reg intro_ name k child st with
    | error stop =>
      refine ⟨fun reason hc => ?_, fun _ hc => (by cases hc)⟩
      cases hc
      rw [hreject reason hchild]
    | ok st₁ =>
      obtain ⟨cl₁, hcl₁, hagrees⟩ := hok st₁ hchild
      rw [hcl₁, length_cons, Nat.add_comm children.length, ← Nat.add_assoc]
      exact ih hagrees

/-- The view of a chain that metadata uses does not depend on the rotation. -/
theorem resolveFallbackChainForClientWithAdvancer_eq (r : Rotation σ) (supported : Support)
    (reg : Option ClientRegistry) (intro_ : Introspected) (name : Bytes) (s : σ)
    (hnodup : ((entries reg).map (·.name)).Nodup) (hplain : r.IsPlain) :
    resolveFallbackChainForClientWithAdvancer r supported reg intro_ name s =
      resolveFallbackChainLegacyClassification supported reg intro_ name := by
  unfold resolveFallbackChainForClientWithAdvancer resolveFallbackChainPlanForClient
  cases hchain : fallbackChainOf reg intro_ name with
  | none => simp [resolveFallbackChainLegacyClassification, hchain]
  | some res =>
    cases res with
    | error reason =>
      simp [resolveFallbackChainLegacyClassification, hchain, FallbackChainResolution.rejected,
        ChainView.none]
    | ok chain =>
      have hstart : Agrees 0 (⟨.new, [], [], [], false, s⟩ : PlanState σ) .new :=
        ⟨fun _ => ⟨rfl, rfl, rfl⟩, fun hc => (by cases hc), le_rfl⟩
      obtain ⟨hreject, hok⟩ :=
        agrees_of_planChildren supported intro_ name hnodup hplain hstart chain
      dsimp only
      cases hplan : planChildren r supported reg intro_ name 0 chain ⟨.new, [], [], [], false, s⟩ with
      | error stop =>
        cases stop with
        | failed err => rfl
        | rejected reason =>
          simp [resolveFallbackChainLegacyClassification, hchain, hreject reason hplan,
            FallbackChainResolution.rejected, ChainView.none]
      | ok st =>
        obtain ⟨cl, hcl, hagrees⟩ := hok st hplan
        rw [Nat.zero_add] at hagrees
        cases hcentral : st.centralized with
        | true =>
          -- something was unwrapped, and the chain is classified
          obtain ⟨hne, hlt⟩ := hagrees.reported hcentral
          simp [hlt.ne, hne]
        | false =>
          obtain ⟨hsame, htargets, hnested⟩ := hagrees.same hcentral
          simp only [resolveFallbackChainLegacyClassification, hchain, hcl, hsame]
          by_cases hall : cl.legacyPositions = chain.length
          · simp [hall, FallbackChainResolution.rejected, ChainView.none]
          · simp [hall, hcentral, htargets, hnested]

def mixedProject : Introspected where
  providers := [("Main", "baml-fallback"), ("Inner", "baml-roundrobin"),
    ("Leaf", "openai")]
  chains := [("Main", ["Inner", "Leaf"]), ("Inner", ["Leaf"])]

def failing (err : IndexError) : Rotation Unit :=
  ⟨some fun _ _ _ => (.error err, ()), fun _ _ => (0, ())⟩

theorem resolveFallbackChainForClientWithAdvancer_unavailable :
    (resolveFallbackChainForClientWithAdvancer (failing ⟨bytes "unavailable", false, false⟩)
        (some fun _ => true) none mixedProject (bytes "Main") ()).chain =
      [bytes "Inner", bytes "Leaf"] := by
  have hplain : (failing ⟨bytes "unavailable", false, false⟩).IsPlain := by
    rintro advance hadvance s name n err herr
    cases hadvance
    cases herr
    rfl
  have hnodup : ((entries none).map (·.name)).Nodup := List.nodup_nil
  rw [resolveFallbackChainForClientWithAdvancer_eq _ _ _ _ _ _ hnodup hplain]
  decide +kernel

/-- An advancer may fail with the error for invalid overrides, and the chain is rejected for it. -/
theorem resolveFallbackChainForClientWithAdvancer_sentinel :
    resolveFallbackChainForClientWithAdvancer (failing ⟨bytes "stale override", true, false⟩)
        (some fun _ => true) none mixedProject (bytes "Main") () =
      .none (some .invalidStrategyOverride) ∧
    (resolveFallbackChainLegacyClassification (some fun _ => true) none mixedProject
        (bytes "Main")).chain = [bytes "Inner", bytes "Leaf"] := by
  decide +kernel

end BamlRest.BuildRequest
