import BamlRest.Text.Unmarshal

/-!
# The client registry of a request

A request may override the clients of the project: their providers, and for a client that is a
strategy the list of its children and, for round-robin, the place to start.
-/

namespace BamlRest.BuildRequest

open List

/-! ### Options -/

/-- What an option may hold: the signed integers of Go are one case, and all that no function looks
into is `other`. -/
inductive OptionValue where
  | string (s : Bytes)
  | strings (items : List Bytes)
  | list (items : List OptionValue)
  | int (n : Int64)
  | float (f : F64)
  | other

def OptionValue.asString : OptionValue → Option Bytes
  | .string s => some s
  | _ => none

/-- An option that is missing, or that does not parse, or what it says. -/
inductive Override (α : Type*) where
  | absent
  | invalid
  | valid (value : α)
  deriving DecidableEq

def normalizeToken (token : Bytes) : Bytes :=
  let token := trimSpace token
  let quoted (q : UInt8) : Bool := token.head? = some q ∧ token.getLast? = some q
  trimSpace (if 2 ≤ token.length ∧ (quoted '"' ∨ quoted '\'')
    then token.tail.dropLast else token)

def isTokenSeparator (b : UInt8) : Bool := b = ',' || b = ' ' || b = '\t' || b = '\n'

def normalizeTokens (tokens : List Bytes) : List Bytes :=
  (tokens.map normalizeToken).filter (· ≠ [])

/-- `parseBracketedString`; nil is the empty list. -/
def parseBracketedString (s : Bytes) : List Bytes :=
  let s := trimSpace s
  let s := trimSpace (if (bytes "strategy ").isPrefixOf s then s.drop 9 else s)
  if s.length < 2 ∨ s.head? ≠ some '['.toUInt8 ∨ s.getLast? ≠ some ']'.toUInt8 then []
  else if ']'.toUInt8 ∈ s.tail.dropLast ∨ '['.toUInt8 ∈ s.tail then []
  else normalizeTokens (s.tail.dropLast.splitOnP isTokenSeparator)

/-- `ParseStrategyOption`; nil is the empty list. -/
def parseStrategyOption : OptionValue → List Bytes
  | .string s => parseBracketedString s
  | .strings items => normalizeTokens items
  | .list items =>
    match items.mapM OptionValue.asString with
    | none => []
    | some items => normalizeTokens items
  | _ => []

def int32Override (n : ℤ) : Override ℤ :=
  if n < -2 ^ 31 ∨ 2 ^ 31 - 1 < n then .invalid else .valid n

/-- The options of a client. -/
abbrev Options := List (Bytes × OptionValue)

def strategyOverride (options : Options) : Override (List Bytes) :=
  match lookup options "strategy" with
  | none => .absent
  | some raw =>
    match parseStrategyOption raw with
    | [] => .invalid
    | chain => .valid chain

def inspectStartOverride (options : Options) : Override ℤ :=
  match lookup options "start" with
  | none => .absent
  | some (.int n) => int32Override n.toInt
  | some (.float (.fin neg m e)) =>
    let (p, q) := F64.ratio m e
    if p % q ≠ 0 then .invalid else int32Override (if neg then -(p / q : ℕ) else (p / q : ℕ))
  | some _ => .invalid

/-! ### Providers -/

def isRoundRobinProvider (provider : Bytes) : Bool :=
  provider = "baml-roundrobin" || provider = "baml-round-robin" ||
    provider = "round-robin"

def normalizeProvider (provider : Bytes) : Bytes :=
  if isRoundRobinProvider provider then "baml-roundrobin" else provider

def normalizeStrategyProvider (provider : Bytes) : Bytes :=
  let provider := normalizeProvider provider
  if provider = "fallback" then "baml-fallback" else provider

def isStrategyProvider (provider : Bytes) : Bool :=
  isRoundRobinProvider provider || normalizeStrategyProvider provider = "baml-fallback"

/-- `isStrategyProviderName`, of the package that `isStrategyProvider` cannot be imported into. -/
def isStrategyProviderName (provider : Bytes) : Bool :=
  provider = "round-robin" || provider = "baml-round-robin" ||
    provider = "baml-roundrobin" || provider = "fallback" ||
    provider = "baml-fallback"

def translateUpstreamProvider (provider : Bytes) : Bytes :=
  if provider = "baml-roundrobin" then "baml-round-robin" else provider

theorem normalizeStrategyProvider_of_roundRobin {provider} (h : isRoundRobinProvider provider) :
    normalizeStrategyProvider provider = "baml-roundrobin" := by
  rw [normalizeStrategyProvider, normalizeProvider, if_pos h, if_neg (by decide +kernel)]

theorem normalizeStrategyProvider_of_not {provider}
    (h : isRoundRobinProvider provider = false) : normalizeStrategyProvider provider =
      if provider = bytes "fallback" then bytes "baml-fallback" else provider := by
  have hsame : normalizeProvider provider = provider := if_neg (by simp [h])
  rw [normalizeStrategyProvider, hsame]

theorem isStrategyProviderName_eq (provider) :
    isStrategyProviderName provider = isStrategyProvider provider := by
  rw [isStrategyProvider]
  cases hrr : isRoundRobinProvider provider with
  | true =>
    simp only [isRoundRobinProvider, Bool.or_eq_true, decide_eq_true_eq] at hrr
    rcases hrr with (rfl | rfl) | rfl <;> decide
  | false =>
    rw [normalizeStrategyProvider_of_not hrr]
    simp only [isRoundRobinProvider, Bool.or_eq_false_iff, decide_eq_false_iff_not] at hrr
    obtain ⟨⟨h1, h2⟩, h3⟩ := hrr
    by_cases hf : provider = bytes "fallback" <;> simp [isStrategyProviderName, h1, h2, h3, hf]

theorem isRoundRobinProvider_normalize (provider) :
    isRoundRobinProvider (normalizeStrategyProvider provider) = isRoundRobinProvider provider := by
  cases hrr : isRoundRobinProvider provider with
  | true =>
    rw [normalizeStrategyProvider_of_roundRobin hrr]
    rfl
  | false =>
    rw [normalizeStrategyProvider_of_not hrr]
    split
    · rfl
    · exact hrr

theorem translateUpstreamProvider_ne_nil {provider} (h : provider ≠ []) :
    translateUpstreamProvider provider ≠ [] := by
  unfold translateUpstreamProvider
  split
  · decide +kernel
  · exact h

/-! ### The registry -/

/-- `ClientProperty`. -/
structure ClientProperty where
  name : Bytes
  provider : Bytes
  providerSet : Bool
  options : Options

def ClientProperty.isProviderPresent (c : ClientProperty) : Bool :=
  c.provider ≠ [] || c.providerSet

/-- `ClientRegistry`; entries of the list may be nil. -/
structure ClientRegistry where
  primary : Option Bytes
  clients : List (Option ClientProperty)

/-- What is known of the clients of the project: their providers and the children of strategies. -/
structure Introspected where
  providers : List (Bytes × Bytes)
  chains : List (Bytes × List Bytes)

namespace Introspected

/-- `introspectedProviders[name]`. -/
def provider (intro_ : Introspected) (name : Bytes) : Bytes := (lookup intro_.providers name).getD []

/-- `introspectedChains[name]`. -/
def chain (intro_ : Introspected) (name : Bytes) : List Bytes := (lookup intro_.chains name).getD []

end Introspected

def entries (reg : Option ClientRegistry) : List ClientProperty :=
  match reg with
  | none => []
  | some reg => reg.clients.reduceOption

variable (reg : Option ClientRegistry) (intro_ : Introspected)

/-- `findRuntimeClient` and `lookupRuntimeClient`: the first client of a name. -/
def findRuntimeClient (name : Bytes) : Option ClientProperty :=
  (entries reg).find? (·.name = name)

def inspectStrategyOverride (name : Bytes) : Override (List Bytes) :=
  match findRuntimeClient reg name with
  | none => .absent
  | some c => strategyOverride c.options

/-- The provider as the registry or the project spells it, in `roundrobin`. -/
def rawClientProvider (name : Bytes) : Bytes :=
  match (entries reg).find? fun c => c.name = name ∧ c.isProviderPresent with
  | some c => c.provider
  | none => intro_.provider name

/-- The provider of a client: from the registry, or as declared. -/
def resolveClientProvider (name : Bytes) : Bytes :=
  match (entries reg).find? fun c => c.name = name ∧ c.isProviderPresent with
  | some c => if c.provider = [] then [] else normalizeStrategyProvider c.provider
  | none => normalizeStrategyProvider (intro_.provider name)

def hasInvalidProviderOverride (name : Bytes) : Bool :=
  name ≠ [] && (findRuntimeClient reg name).any fun c => c.isProviderPresent && c.provider = []

def hasInvalidStartOverride (name : Bytes) : Bool :=
  (findRuntimeClient reg name).any fun c => inspectStartOverride c.options = .invalid

def hasExplicitStrategyProviderWithoutStrategy (name : Bytes) : Bool :=
  (findRuntimeClient reg name).any fun c =>
    c.isProviderPresent && isStrategyProvider c.provider &&
      inspectStrategyOverride reg name = .absent

/-- The chain of a fallback client. -/
def resolveFallbackStrategyChain (name : Bytes) : List Bytes :=
  match inspectStrategyOverride reg name with
  | .invalid => []
  | .valid chain => chain
  | .absent => intro_.chain name

theorem resolveClientProvider_eq (name) : resolveClientProvider reg intro_ name =
      normalizeStrategyProvider (rawClientProvider reg intro_ name) := by
  unfold resolveClientProvider rawClientProvider
  split
  case h_1 c hc =>
    split
    case isTrue hnil =>
      rw [hnil]
      rfl
    case isFalse => rfl
  case h_2 => rfl

variable {reg}

theorem mem_of_findRuntimeClient {name c}
    (h : findRuntimeClient reg name = some c) : c ∈ entries reg ∧ c.name = name :=
  ⟨mem_of_find?_eq_some h, by simpa using find?_some h⟩

/-! ### Accepted registries -/

/-- The errors of `Validate`: a client without a name at a place, or a name that occurs again. -/
inductive ValidateError where
  | emptyClientName (index : ℕ)
  | duplicateClientName (name : Bytes)
  deriving DecidableEq

/-- The loop of `Validate`. -/
def validateFrom (index : ℕ) (seen : List Bytes) :
    List (Option ClientProperty) → Except ValidateError Unit
  | [] => .ok ()
  | none :: cs => validateFrom (index + 1) seen cs
  | some c :: cs =>
    if c.name = [] then .error (.emptyClientName index)
    else if c.name ∈ seen then .error (.duplicateClientName c.name)
    else validateFrom (index + 1) (c.name :: seen) cs

def validate : Option ClientRegistry → Except ValidateError Unit
  | none => .ok ()
  | some reg => validateFrom 0 [] reg.clients

theorem validateFrom_ok {index : ℕ} {seen cs} (h : validateFrom index seen cs = .ok ()) :
    (∀ c ∈ cs.reduceOption, c.name ≠ [] ∧ c.name ∉ seen) ∧ (cs.reduceOption.map (·.name)).Nodup := by
  induction cs generalizing index seen with
  | nil => simp [List.reduceOption]
  | cons c cs ih =>
    cases c with
    | none => exact ih h
    | some c =>
      rw [validateFrom] at h
      split at h
      · cases h
      case isFalse hne =>
        split at h
        · cases h
        case isFalse hseen =>
          obtain ⟨hnames, hnodup⟩ := ih h
          rw [reduceOption_cons_of_some, map_cons, nodup_cons]
          refine ⟨fun c' hc' => ?_, ?_, hnodup⟩
          · rcases mem_cons.mp hc' with rfl | hc'
            · exact ⟨hne, hseen⟩
            · exact ⟨(hnames c' hc').1, fun hmem => (hnames c' hc').2 (mem_cons_of_mem _ hmem)⟩
          · intro hmem
            obtain ⟨c', hc', heq⟩ := mem_map.mp hmem
            exact (hnames c' hc').2 (heq ▸ mem_cons_self)

theorem validate_ok (h : validate reg = .ok ()) :
    (∀ c ∈ entries reg, c.name ≠ []) ∧ ((entries reg).map (·.name)).Nodup := by
  cases reg with
  | none => simp [entries]
  | some reg =>
    obtain ⟨hnames, hnodup⟩ := validateFrom_ok h
    exact ⟨fun c hc => (hnames c hc).1, hnodup⟩

theorem findRuntimeClient_of_nodup (h : ((entries reg).map (·.name)).Nodup) {c}
    (hc : c ∈ entries reg) : findRuntimeClient reg c.name = some c := by
  unfold findRuntimeClient
  generalize entries reg = cs at h hc
  induction cs with
  | nil => exact absurd hc not_mem_nil
  | cons d cs ih =>
    rw [map_cons, nodup_cons] at h
    rcases mem_cons.mp hc with rfl | hc
    · exact find?_cons_of_pos (by simp)
    · have hne : d.name ≠ c.name := fun heq => h.1 (heq ▸ mem_map_of_mem hc)
      rw [find?_cons_of_neg (by simpa using hne)]
      exact ih h.2 hc

theorem find?_and_of_nodup {cs : List ClientProperty} (h : (cs.map (·.name)).Nodup) (name)
    (q : ClientProperty → Bool) :
    cs.find? (fun c => c.name = name ∧ q c) = (cs.find? (·.name = name)).filter q := by
  induction cs with
  | nil => rfl
  | cons d cs ih =>
    rw [map_cons, nodup_cons] at h
    by_cases hd : d.name = name
    · have hnone : cs.find? (·.name = name) = none := by
        refine find?_eq_none.mpr fun c hc hname => h.1 ?_
        rw [hd, ← of_decide_eq_true hname]
        exact mem_map_of_mem hc
      cases hq : q d with
      | true => simp [hd, hq, Option.filter]
      | false =>
        rw [find?_cons_of_neg (by simp [hq]), ih h.2, hnone, find?_cons_of_pos (by simp [hd])]
        simp [hq, Option.filter]
    · simpa [hd] using ih h.2

theorem rawClientProvider_of_nodup (h : ((entries reg).map (·.name)).Nodup) (name) :
    rawClientProvider reg intro_ name = match findRuntimeClient reg name with
      | none => intro_.provider name
      | some c => if c.isProviderPresent then c.provider else intro_.provider name := by
  unfold rawClientProvider
  rw [find?_and_of_nodup h name fun c => c.isProviderPresent, ← findRuntimeClient]
  cases findRuntimeClient reg name with
  | none => rfl
  | some c => cases hpresent : c.isProviderPresent <;> simp [hpresent, Option.filter]

end BamlRest.BuildRequest
