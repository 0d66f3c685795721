import BamlRest.Bamlutils.LegacyChildRegistry

/-!
# Unwrapping round-robin clients

`roundrobin.Resolve` follows the children of round-robin clients down to a client that is none.
Which child is taken depends on the options of the request, on the advancer and on chance.

* `resolve`, `Round`: the loop, and one round of it.
* `resolve_leaf`: it ends, and at a leaf.
-/

namespace BamlRest.BuildRequest

/-- An error of the selection of a child, with what `errors.Is` finds in it. -/
structure IndexError where
  text : Bytes
  isInvalidStrategyOverride : Bool
  isInvalidStartOverride : Bool
  deriving DecidableEq

def IndexError.isSentinel (err : IndexError) : Bool :=
  err.isInvalidStrategyOverride || err.isInvalidStartOverride

def errInvalidStartOverride : IndexError :=
  ⟨"roundrobin: runtime start override is invalid", false, true⟩

/-- The errors of `Resolve`. -/
inductive ResolveError where
  | cycle (client : Bytes)
  | invalidStrategyOverride
  | noChildren (client : Bytes)
  | selectChild (client : Bytes) (err : IndexError)
  | outOfRange (index : ℤ) (count : ℕ) (client : Bytes)
  deriving DecidableEq

namespace ResolveError

def isInvalidStrategyOverride : ResolveError → Bool
  | .invalidStrategyOverride => true
  | .selectChild _ err => err.isInvalidStrategyOverride
  | _ => false

def isInvalidStartOverride : ResolveError → Bool
  | .selectChild _ err => err.isInvalidStartOverride
  | _ => false

def isSentinel (err : ResolveError) : Bool :=
  err.isInvalidStrategyOverride || err.isInvalidStartOverride

end ResolveError

/-- `RoundRobinInfo`. -/
structure RoundRobinInfo where
  name : Bytes
  children : List Bytes
  index : ℤ
  selected : Bytes
  deriving DecidableEq

/-- The client that was selected. -/
structure Result where
  selected : Bytes
  info : Option RoundRobinInfo
  deriving DecidableEq

/-- An advancer, which may be nil, and `rand.IntN`. -/
structure Rotation (σ : Type*) where
  advance : Option (σ → Bytes → ℕ → Except IndexError ℤ × σ)
  intN : σ → ℕ → ℕ × σ

variable {σ : Type*} (r : Rotation σ) (reg : Option ClientRegistry) (intro_ : Introspected)

def advanceDynamic (s : σ) (childCount : ℕ) : ℤ × σ :=
  if childCount = 0 then (0, s)
  else
    let (k, s) := r.intN s childCount
    ((k % childCount : ℕ), s)

def normalizeStartIndex (start : ℤ) (childCount : ℕ) : ℤ :=
  ((start % 2 ^ 64).toNat % childCount : ℕ)

/-- The child whose turn it is. -/
def selectIndex (s : σ) (name : Bytes) (childCount : ℕ) : Except IndexError ℤ × σ :=
  let dynamic :=
    let (k, s) := advanceDynamic r s childCount
    (.ok k, s)
  match findRuntimeClient reg name with
  | some c =>
    match inspectStartOverride c.options with
    | .invalid => (.error errInvalidStartOverride, s)
    | .valid start => (.ok (normalizeStartIndex start childCount), s)
    | .absent => dynamic
  | none =>
    match r.advance with
    | none => dynamic
    | some advance => advance s name childCount

/-- The request makes the client round-robin and does not say with which children. -/
def hasRoundRobinProviderWithoutStrategy (name : Bytes) : Bool :=
  (findRuntimeClient reg name).any fun c =>
    c.isProviderPresent && isRoundRobinProvider c.provider &&
      inspectStrategyOverride reg name = .absent

def roundRobinChain (name : Bytes) : Except ResolveError (List Bytes) :=
  if inspectStrategyOverride reg name = .invalid then .error .invalidStrategyOverride
  else if hasRoundRobinProviderWithoutStrategy reg name then .error .invalidStrategyOverride
  else
    match resolveFallbackStrategyChain reg intro_ name with
    | [] => .error (.noChildren name)
    | chain => .ok chain

/-- Where the loop of `Resolve` stands. -/
structure Unwrapping (σ : Type*) where
  seen : List Bytes
  current : Bytes
  info : Option RoundRobinInfo
  state : σ

/-- One round of the loop of `Resolve`; `rest` is what follows. -/
def resolveStep (rest : Unwrapping σ → Except ResolveError Result × σ) (u : Unwrapping σ) :
    Except ResolveError Result × σ :=
  if u.current ∈ u.seen then (.error (.cycle u.current), u.state)
  else if !isRoundRobinProvider (rawClientProvider reg intro_ u.current) then
    (.ok ⟨u.current, u.info⟩, u.state)
  else
    match roundRobinChain reg intro_ u.current with
    | .error err => (.error err, u.state)
    | .ok chain =>
      match selectIndex r reg u.state u.current chain.length with
      | (.error err, s) => (.error (.selectChild u.current err), s)
      | (.ok index, s) =>
        if h : 0 ≤ index ∧ index < chain.length then
          let selected := chain.get ⟨index.toNat, by omega⟩
          rest ⟨u.current :: u.seen, selected,
            u.info.or (some ⟨u.current, chain, index, selected⟩), s⟩
        else (.error (.outOfRange index chain.length u.current), s)

/-- The loop of `Resolve`. -/
def resolveFrom : Unwrapping σ → Except ResolveError Result × σ :=
  fixBy (fun u => unseen (knownNames reg intro_) u.seen) (resolveStep r reg intro_)
    fun u => (.error (.cycle u.current), u.state)

/-- `Resolve`: round-robin clients are unwrapped until another kind is met. -/
def resolve (name : Bytes) (s : σ) : Except ResolveError Result × σ :=
  if name = [] then (.ok ⟨[], none⟩, s) else resolveFrom r reg intro_ ⟨[], name, none, s⟩

/-! ### The loop -/

variable {r reg intro_} {name : Bytes}

theorem isRoundRobinProvider_ne_nil {provider} (h : isRoundRobinProvider provider) :
    provider ≠ [] :=
  isStrategyProvider_ne_nil (by simp [isStrategyProvider, h])

theorem mem_knownNames_of_rawClientProvider (h : rawClientProvider reg intro_ name ≠ []) :
    name ∈ knownNames reg intro_ := by
  unfold rawClientProvider at h
  split at h
  case h_1 c hc =>
    have hname : c.name = name := by
      have hfound := List.find?_some hc
      exact (of_decide_eq_true hfound).1
    exact List.mem_append_left _ (hname ▸ List.mem_map_of_mem (List.mem_of_find?_eq_some hc))
  case h_2 => exact mem_knownNames (.inr h)

theorem unseen_next {seen} (hseen : name ∉ seen)
    (hrr : isRoundRobinProvider (rawClientProvider reg intro_ name)) :
    unseen (knownNames reg intro_) (name :: seen) < unseen (knownNames reg intro_) seen :=
  unseen_lt (mem_knownNames_of_rawClientProvider (isRoundRobinProvider_ne_nil hrr)) hseen

variable {u : Unwrapping σ}

theorem resolveStep_congr {f g : Unwrapping σ → Except ResolveError Result × σ}
    (h : ∀ v : Unwrapping σ,
      unseen (knownNames reg intro_) v.seen < unseen (knownNames reg intro_) u.seen → f v = g v) :
    resolveStep r reg intro_ f u = resolveStep r reg intro_ g u := by
  unfold resolveStep
  split
  · rfl
  case isFalse hseen =>
    split
    · rfl
    case isFalse hrr =>
      split
      · rfl
      split
      · rfl
      · split
        · exact h _ (unseen_next hseen (by simpa using hrr))
        · rfl

theorem resolveFrom_eq (u) :
    resolveFrom r reg intro_ u = resolveStep r reg intro_ (resolveFrom r reg intro_) u :=
  fixBy_eq_of_shrinking (F := resolveStep r reg intro_) (fun _ _ _ h => resolveStep_congr h) u

inductive Round (r : Rotation σ) (reg : Option ClientRegistry) (intro_ : Introspected)
    (u : Unwrapping σ) : Except ResolveError Result × σ → Prop where
  | cycle (hseen : u.current ∈ u.seen) : Round r reg intro_ u (.error (.cycle u.current), u.state)
  | leaf (hseen : u.current ∉ u.seen)
      (hrr : isRoundRobinProvider (rawClientProvider reg intro_ u.current) = false) :
      Round r reg intro_ u (.ok ⟨u.current, u.info⟩, u.state)
  | noChain (err : ResolveError)
      (hrr : isRoundRobinProvider (rawClientProvider reg intro_ u.current))
      (hchain : roundRobinChain reg intro_ u.current = .error err) :
      Round r reg intro_ u (.error err, u.state)
  | noIndex (chain : List Bytes) (err : IndexError) (s : σ)
      (hrr : isRoundRobinProvider (rawClientProvider reg intro_ u.current))
      (hchain : roundRobinChain reg intro_ u.current = .ok chain)
      (hindex : selectIndex r reg u.state u.current chain.length = (.error err, s)) :
      Round r reg intro_ u (.error (.selectChild u.current err), s)
  | outOfRange (chain : List Bytes) (index : ℤ) (s : σ)
      (hrr : isRoundRobinProvider (rawClientProvider reg intro_ u.current))
      (hchain : roundRobinChain reg intro_ u.current = .ok chain)
      (hindex : selectIndex r reg u.state u.current chain.length = (.ok index, s)) :
      Round r reg intro_ u (.error (.outOfRange index chain.length u.current), s)
  | next (chain : List Bytes) (index : ℤ) (s : σ) (selected : Bytes) (hseen : u.current ∉ u.seen)
      (hrr : isRoundRobinProvider (rawClientProvider reg intro_ u.current))
      (hchain : roundRobinChain reg intro_ u.current = .ok chain)
      (hindex : selectIndex r reg u.state u.current chain.length = (.ok index, s))
      (hselected : selected ∈ chain) :
      Round r reg intro_ u (resolveFrom r reg intro_ ⟨u.current :: u.seen, selected,
        u.info.or (some ⟨u.current, chain, index, selected⟩), s⟩)

variable (r reg intro_) in
theorem round_resolveFrom (u) : Round r reg intro_ u (resolveFrom r reg intro_ u) := by
  rw [resolveFrom_eq]
  unfold resolveStep
  split
  case isTrue hseen => exact .cycle hseen
  case isFalse hseen =>
    split
    case isTrue hrr => exact .leaf hseen (by simpa using hrr)
    case isFalse hrr =>
      have hrr : isRoundRobinProvider (rawClientProvider reg intro_ u.current) := by
        simpa using hrr
      split
      case h_1 err hchain => exact .noChain err hrr hchain
      case h_2 chain hchain =>
        split
        case h_1 err s hindex => exact .noIndex chain err s hrr hchain hindex
        case h_2 index s hindex =>
          split
          case isTrue hrange =>
            exact .next chain index s _ hseen hrr hchain hindex (List.getElem_mem _)
          case isFalse => exact .outOfRange chain index s hrr hchain hindex

/-! ### Errors and decisions -/

theorem inspectStrategyOverride_of_chain {chain} (h : roundRobinChain reg intro_ name = .ok chain) :
    inspectStrategyOverride reg name ≠ .invalid ∧
      hasRoundRobinProviderWithoutStrategy reg name = false ∧
      chain = resolveFallbackStrategyChain reg intro_ name := by
  unfold roundRobinChain at h
  split at h
  · cases h
  case isFalse hvalid =>
    split at h
    · cases h
    case isFalse hexplicit =>
      refine ⟨hvalid, by simpa using hexplicit, ?_⟩
      split at h <;> cases h
      rfl

def Rotation.IsPlain (r : Rotation σ) : Prop :=
  ∀ advance, r.advance = some advance → ∀ s name n err, (advance s name n).1 = .error err →
    err.isSentinel = false

variable {s : σ}

theorem selectIndex_error (hplain : r.IsPlain) (hstart : hasInvalidStartOverride reg name = false)
    {s' : σ} {n : ℕ} {err} (h : selectIndex r reg s name n = (.error err, s')) :
    err.isSentinel = false := by
  unfold selectIndex at h
  unfold hasInvalidStartOverride at hstart
  cases hdynamic : advanceDynamic r s n with
  | mk k s₁ =>
    rw [hdynamic] at h
    cases hc : findRuntimeClient reg name with
    | some c =>
      rw [hc] at h hstart
      dsimp only at h
      cases hoverride : inspectStartOverride c.options with
      | invalid => simp [hoverride] at hstart
      | valid start | absent =>
        rw [hoverride] at h
        cases h
    | none =>
      rw [hc] at h
      dsimp only at h
      cases hadvance : r.advance with
      | none =>
        rw [hadvance] at h
        cases h
      | some advance =>
        rw [hadvance] at h
        exact hplain advance hadvance s name n err (congrArg Prod.fst h)

theorem preflightProvider_of_roundRobin (hnodup : ((entries reg).map (·.name)).Nodup)
    (hrr : isRoundRobinProvider (rawClientProvider reg intro_ name)) :
    preflightProvider reg intro_ name = rawClientProvider reg intro_ name := by
  have hne := isRoundRobinProvider_ne_nil hrr
  rw [rawClientProvider_of_nodup intro_ hnodup] at hne ⊢
  unfold preflightProvider
  cases hc : findRuntimeClient reg name with
  | none => rfl
  | some c =>
    rw [hc] at hne
    cases hpresent : c.isProviderPresent with
    | true =>
      have hprovider : c.provider ≠ [] := by simpa [hpresent] using hne
      simp [hpresent, hprovider]
    | false => simp [hpresent]

theorem hasExplicit_of_roundRobin
    (h : hasExplicitStrategyProviderWithoutStrategy reg name = false) :
    hasRoundRobinProviderWithoutStrategy reg name = false := by
  unfold hasExplicitStrategyProviderWithoutStrategy at h
  unfold hasRoundRobinProviderWithoutStrategy
  cases hc : findRuntimeClient reg name with
  | none => rfl
  | some c =>
    rw [hc] at h
    cases hrr : isRoundRobinProvider c.provider with
    | true => simpa [hrr, isStrategyProvider] using h
    | false => simp [hrr]

def PassedAll (reg : Option ClientRegistry) (intro_ : Introspected) (names : List Bytes) : Prop :=
  ∀ name ∈ names, ∃ cs, Passed reg intro_ name cs ∧ cs ⊆ names

theorem resolveFrom_error (hnodup : ((entries reg).map (·.name)).Nodup) (hplain : r.IsPlain)
    {names} (hnames : PassedAll reg intro_ names) (hu : u.current ∈ names) {err}
    (h : resolveFrom r reg intro_ u = (.error err, s)) : err.isSentinel = false := by
  induction hn : unseen (knownNames reg intro_) u.seen using Nat.strong_induction_on
    generalizing u with
  | _ n ih =>
    obtain ⟨cs, hpassed, hsub⟩ := hnames u.current hu
    have hstrategy (hrr : isRoundRobinProvider (rawClientProvider reg intro_ u.current)) :=
      hpassed.strategy (by
        rw [preflightProvider_of_roundRobin hnodup hrr, isStrategyProvider, hrr, Bool.true_or])
    have hround := round_resolveFrom r reg intro_ u
    rw [h] at hround
    generalize hres : (Except.error err, s) = res at hround
    cases hround with
    | cycle hseen =>
      cases hres
      rfl
    | leaf hseen hrr => cases hres
    | noChain err' hrr hchain =>
      cases hres
      obtain ⟨hvalid, hexplicit, -⟩ := hstrategy hrr
      rw [roundRobinChain, if_neg hvalid, hasExplicit_of_roundRobin hexplicit,
        if_neg Bool.false_ne_true] at hchain
      split at hchain <;> cases hchain
      rfl
    | noIndex chain err' s' hrr hchain hindex =>
      cases hres
      obtain ⟨-, -, hstart, -⟩ := hstrategy hrr
      rw [preflightProvider_of_roundRobin hnodup hrr] at hstart
      exact selectIndex_error hplain (hstart hrr) hindex
    | outOfRange chain index s' hrr hchain hindex =>
      cases hres
      rfl
    | next chain index s' selected hseen hrr hchain hindex hselected =>
      obtain ⟨-, -, -, hcs⟩ := hstrategy hrr
      obtain ⟨-, -, rfl⟩ := inspectStrategyOverride_of_chain hchain
      exact ih _ (hn ▸ unseen_next hseen hrr) (hsub (hcs ▸ hselected)) hres.symm rfl

variable {res : Result}

theorem resolveFrom_info (hu : u.info.isSome)
    (h : resolveFrom r reg intro_ u = (.ok res, s)) : res.info.isSome := by
  induction hn : unseen (knownNames reg intro_) u.seen using Nat.strong_induction_on
    generalizing u with
  | _ n ih =>
    have hround := round_resolveFrom r reg intro_ u
    rw [h] at hround
    generalize hres : (Except.ok res, s) = out at hround
    cases hround with
    | leaf hseen hrr =>
      cases hres
      exact hu
    | next chain index s' selected hseen hrr hchain hindex hselected =>
      refine ih _ (hn ▸ unseen_next hseen hrr) ?_ hres.symm rfl
      rw [Option.isSome_or, hu, Bool.true_or]
    | _ => cases hres

theorem resolve_info (hne : name ≠ [])
    (hrr : isRoundRobinProvider (rawClientProvider reg intro_ name)) {s' : σ} (h : resolve r reg intro_ name s = (.ok res, s')) : res.info.isSome := by
  rw [resolve, if_neg hne] at h
  have hround := round_resolveFrom r reg intro_ ⟨[], name, none, s⟩
  rw [h] at hround
  generalize hres : (Except.ok res, s') = out at hround
  cases hround with
  | leaf hseen hrr' =>
    rw [hrr] at hrr'
    cases hrr'
  | next chain index s' selected hseen hrr hchain hindex hselected =>
    exact resolveFrom_info rfl hres.symm
  | _ => cases hres

/-! ### Where the loop ends -/

/-- A child of a round-robin client, of the list that the request or the project gives. -/
def RoundRobinChild (reg : Option ClientRegistry) (intro_ : Introspected) (name child : Bytes) :
    Prop :=
  isRoundRobinProvider (rawClientProvider reg intro_ name) = true ∧
    child ∈ resolveFallbackStrategyChain reg intro_ name

theorem resolveFrom_leaf (h : resolveFrom r reg intro_ u = (.ok res, s)) :
    isRoundRobinProvider (rawClientProvider reg intro_ res.selected) = false ∧
      Relation.ReflTransGen (RoundRobinChild reg intro_) u.current res.selected := by
  induction hn : unseen (knownNames reg intro_) u.seen using Nat.strong_induction_on
    generalizing u with
  | _ n ih =>
    have hround := round_resolveFrom r reg intro_ u
    rw [h] at hround
    generalize hres : (Except.ok res, s) = out at hround
    cases hround with
    | leaf hseen hrr =>
      cases hres
      exact ⟨hrr, .refl⟩
    | next chain index s' selected hseen hrr hchain hindex hselected =>
      obtain ⟨-, -, rfl⟩ := inspectStrategyOverride_of_chain hchain
      obtain ⟨hleaf, hway⟩ := ih _ (hn ▸ unseen_next hseen hrr) hres.symm rfl
      exact ⟨hleaf, .head ⟨hrr, hselected⟩ hway⟩
    | _ => cases hres

/-- **Resolution ends, at a leaf.** The loop is over after one round more than there are names, whatever
would come after. When it succeeds, the client is one that the children lead to, and it is not
round-robin unless the name to resolve is empty. -/
theorem resolve_leaf (r : Rotation σ) (reg : Option ClientRegistry) (intro_ : Introspected)
    (name : Bytes) (s : σ) :
    (∀ rest u, fuelRec (resolveStep r reg intro_) rest ((knownNames reg intro_).length + 1) u =
      resolveFrom r reg intro_ u) ∧
    ∀ res s', resolve r reg intro_ name s = (.ok res, s') →
      (name ≠ [] → isRoundRobinProvider (rawClientProvider reg intro_ res.selected) = false) ∧
        Relation.ReflTransGen (RoundRobinChild reg intro_) name res.selected := by
  constructor
  · intro rest u
    have hrounds : unseen (knownNames reg intro_) u.seen < (knownNames reg intro_).length + 1 :=
      Nat.lt_succ_of_le (List.length_filter_le _ _)
    exact fuelRec_eq_fixBy (F := resolveStep r reg intro_) (fun _ _ _ h => resolveStep_congr h) rest
      hrounds
  intro res s' h
  unfold resolve at h
  split_ifs at h with hname
  · cases h
    exact ⟨fun hne => absurd hname hne, hname ▸ .refl⟩
  · obtain ⟨hleaf, hway⟩ := resolveFrom_leaf h
    exact ⟨fun _ => hleaf, hway⟩

/-- A project with a round-robin client, one of whose children is round-robin too. -/
def nestedRoundRobin : Introspected where
  providers := [("outer", "round-robin"), ("inner", "baml-roundrobin"),
    ("leaf", "openai"), ([], "round-robin")]
  chains := [("outer", ["inner"]), ("inner", ["leaf", "outer"]),
    ([], ["leaf"])]

def firstChild : Rotation Unit := ⟨some fun _ _ _ => (.ok 0, ()), fun _ _ => (0, ())⟩

/-- Two rounds lead to the leaf. -/
theorem resolve_leaf_nested :
    isRoundRobinProvider (rawClientProvider none nestedRoundRobin (bytes "leaf")) = false ∧
      Relation.ReflTransGen (RoundRobinChild none nestedRoundRobin) (bytes "outer")
        (bytes "leaf") := by
  have hresolve : resolve firstChild none nestedRoundRobin (bytes "outer") () =
      (.ok ⟨bytes "leaf", some ⟨bytes "outer", [bytes "inner"], 0, bytes "inner"⟩⟩, ()) := by
    decide +kernel
  obtain ⟨hleaf, hway⟩ :=
    (resolve_leaf firstChild none nestedRoundRobin (bytes "outer") ()).2 _ _ hresolve
  exact ⟨hleaf (by decide +kernel), hway⟩

/-- The empty name comes back as it is, although it is that of a round-robin client. -/
theorem resolve_empty_name :
    resolve firstChild none nestedRoundRobin [] () = (.ok ⟨[], none⟩, ()) ∧
      isRoundRobinProvider (rawClientProvider none nestedRoundRobin []) = true := by
  decide +kernel

end BamlRest.BuildRequest
