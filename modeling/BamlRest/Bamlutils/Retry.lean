import BamlRest.Lib.Effects

/-!
# Retries

`retry.Execute` calls an operation until it succeeds, fails for good, or the attempts of the policy
are used up, and looks at the context before each attempt, before each retry and during each sleep.

* `execute`, `Attempts`: the function with its trace, and the runs of its loop.
* `execute_accounted_iff`: when the calls, the callbacks and the returned error are as they should be.
* `executeM`, `Uncancelled.executeM`: the function over effects, and its rule for a state;
  `run_executeM` says that with the trace for its effect it is `execute`.
-/

namespace BamlRest.Retry

open List Effects Int64

/-! ## Errors -/

/-- A Go error as `errors.As` sees it: what `RetryTerminal` reports if the error is a
`TerminalError`, and the errors it wraps. -/
inductive GoError where
  | mk (retryTerminal : Option Bool) (wraps : List GoError)

mutual

/-- `errors.As` with a `TerminalError` target: the first one in the tree, the error itself
before what it wraps. -/
def GoError.asTerminal : GoError → Option Bool
  | .mk (some b) _ => some b
  | .mk none wraps => asTerminalAny wraps

def GoError.asTerminalAny : List GoError → Option Bool
  | [] => none
  | e :: es =>
    match e.asTerminal with
    | some b => some b
    | none => asTerminalAny es

end

def isTerminal (err : GoError) : Bool :=
  err.asTerminal == some true

/-! ## Policies -/

/-- `StrategyConfig`; the type is compared with `"exponential_backoff"` only. -/
structure StrategyConfig where
  type : String
  delayMs : Int64
  multiplier : Float
  maxDelayMs : Int64

/-- `Strategy`: the two of the package, or another implementation. Delays are nanoseconds. -/
inductive Strategy where
  | constantDelay (delayMs : Int64)
  | exponentialBackoff (delayMs : Int64) (multiplier : Float) (maxDelayMs : Int64)
  | other (delay : Int64 → Int64)

def millisecond : Int64 := 1000000

/-- `Delay`. Go leaves the conversion of a float that is no `int64` to the implementation: amd64
gives `math.MinInt64`, `Float.toInt64` the nearest bound. Both are possible sleeps for the loop, which
asks only whether the delay is positive, and its theorems hold for every strategy. -/
def Strategy.delay : Strategy → Int64 → Int64
  | .constantDelay delayMs, _ => delayMs * millisecond
  | .exponentialBackoff delayMs multiplier maxDelayMs, attempt =>
    let delay := delayMs.toFloat * Float.pow multiplier attempt.toFloat
    let maxDelay := maxDelayMs.toFloat
    let delay := if delay > maxDelay then maxDelay else delay
    delay.toInt64 * millisecond
  | .other delay, attempt => delay attempt

structure Policy where
  maxRetries : Int64
  strategy : Option Strategy
  strategyConfig : Option StrategyConfig

/-- `DefaultDelayMs`, `DefaultMultiplier`, `DefaultMaxDelayMs`. -/
def defaultDelayMs : Int64 := 200

@[inherit_doc defaultDelayMs]
def defaultMultiplier : Float := 1.5

@[inherit_doc defaultDelayMs]
def defaultMaxDelayMs : Int64 := 10000

/-- `ResolveStrategy`: the strategy the policy ends up with. -/
def Policy.resolveStrategy (p : Policy) : Strategy :=
  match p.strategy with
  | some s => s
  | none =>
    match p.strategyConfig with
    | none => .constantDelay defaultDelayMs
    | some c =>
      let delayMs := if c.delayMs ≤ 0 then defaultDelayMs else c.delayMs
      if c.type = "exponential_backoff" then
        .exponentialBackoff delayMs
          (if c.multiplier ≤ 0 then defaultMultiplier else c.multiplier)
          (if c.maxDelayMs ≤ 0 then defaultMaxDelayMs else c.maxDelayMs)
      else .constantDelay delayMs

/-! ## The loop -/

inductive CheckPoint where
  | single
  | attempt (attempt : Int64)
  | retry (attempt : Int64)
  | sleep (attempt : Int64)

/-- What `Execute` does, as its caller sees it. -/
inductive Event where
  | call (attempt : Int64)
  | onRetry (attempt : Int64)
  | cancelled

open Event

/-- What `Execute` returns, and what it did. -/
structure Outcome (α : Type*) where
  value : α
  err : Option GoError
  trace : List Event

def Outcome.after {α : Type*} (out : Outcome α) (events : List Event) : Outcome α :=
  { out with trace := events ++ out.trace }

section

variable {α : Type*} (zero : α)
  -- `ctx`: the error of the context when a check finds it done
  (ctx : CheckPoint → Option GoError)
  (fn : Int64 → α × Option GoError)
  -- `hasOnRetry`: the callback is not nil
  (hasOnRetry : Bool)

def fires (attempt : Int64) : List Event :=
  if hasOnRetry then [.onRetry attempt] else []

theorem toInt_add_one {a b : Int64} (h : a < b) : (a + 1).toInt = a.toInt + 1 := by
  have hlt := lt_iff_toInt_lt.mp h
  have hb := b.toInt_lt
  have ha := a.le_toInt
  rw [toInt_add, toInt_one]
  apply Int.bmod_eq_of_le <;> omega

/-- The loop of `Execute`. -/
def loop (strategy : Strategy) (maxRetries totalAttempts : Int64) (attempt : Int64)
    (lastErr : Option GoError) : Outcome α :=
  if attempt < totalAttempts then
    match ctx (.attempt attempt) with
    | some e => ⟨zero, some e, [.cancelled]⟩
    | none =>
      match fn attempt with
      | (result, none) => ⟨result, none, [.call attempt]⟩
      | (_, some err) =>
        if isTerminal err then ⟨zero, some err, [.call attempt]⟩
        else if attempt ≥ maxRetries then ⟨zero, some err, [.call attempt]⟩
        else
          match ctx (.retry attempt) with
          | some e => ⟨zero, some e, [.call attempt, .cancelled]⟩
          | none =>
            let before := Event.call attempt :: fires hasOnRetry (attempt + 1)
            let next := fun _ : Unit =>
              (loop strategy maxRetries totalAttempts (attempt + 1) (some err)).after before
            if strategy.delay attempt > 0 then
              match ctx (.sleep attempt) with
              | some e => ⟨zero, some e, before ++ [.cancelled]⟩
              | none => next ()
            else next ()
  else ⟨zero, lastErr, []⟩
termination_by (totalAttempts.toInt - attempt.toInt).toNat
decreasing_by
  have hlt : attempt < totalAttempts := by assumption
  rw [toInt_add_one hlt]
  have := Int64.lt_iff_toInt_lt.mp hlt
  omega

def execute (policy : Option Policy) : Outcome α :=
  match policy with
  | none =>
    match ctx .single with
    | some e => ⟨zero, some e, [.cancelled]⟩
    | none => ⟨(fn 0).1, (fn 0).2, [.call 0]⟩
  | some policy =>
    let strategy := policy.resolveStrategy
    let maxRetries := if policy.maxRetries < 0 then 0 else policy.maxRetries
    -- the sum wraps for the largest `MaxRetries`
    let totalAttempts := maxRetries + 1
    loop zero ctx fn hasOnRetry strategy maxRetries totalAttempts 0 none

/-! ## The runs of the loop -/

variable {ctx fn hasOnRetry}

/-- A run of the loop from an attempt on: its trace, and the error it returns. -/
inductive Attempts (ctx : CheckPoint → Option GoError) (fn : Int64 → α × Option GoError)
    (hasOnRetry : Bool) (maxRetries : Int64) : Int64 → List Event → Option GoError → Prop where
  | cancelled {a e} (hctx : ctx (.attempt a) = some e) :
      Attempts ctx fn hasOnRetry maxRetries a [.cancelled] (some e)
  | success {a} (hctx : ctx (.attempt a) = none) (hfn : (fn a).2 = none) :
      Attempts ctx fn hasOnRetry maxRetries a [.call a] none
  | failure {a err} (hctx : ctx (.attempt a) = none) (hfn : (fn a).2 = some err) :
      Attempts ctx fn hasOnRetry maxRetries a [.call a] (some err)
  | cancelledRetry {a err e} (hctx : ctx (.attempt a) = none)
      (hfn : (fn a).2 = some err) (hterm : isTerminal err = false) :
      Attempts ctx fn hasOnRetry maxRetries a [.call a, .cancelled] (some e)
  | cancelledSleep {a err e} (hctx : ctx (.attempt a) = none)
      (hfn : (fn a).2 = some err) (hterm : isTerminal err = false) :
      Attempts ctx fn hasOnRetry maxRetries a
        (.call a :: fires hasOnRetry (a + 1) ++ [.cancelled]) (some e)
  | again {a err trace res} (hctx : ctx (.attempt a) = none) (hfn : (fn a).2 = some err)
      (hterm : isTerminal err = false) (hlt : a < maxRetries)
      (hnext : Attempts ctx fn hasOnRetry maxRetries (a + 1) trace res) :
      Attempts ctx fn hasOnRetry maxRetries a (.call a :: fires hasOnRetry (a + 1) ++ trace) res

theorem attempts_loop (strategy) {maxRetries totalAttempts : Int64}
    (htotal : totalAttempts.toInt = maxRetries.toInt + 1) (attempt)
    (lastErr) (hlt : attempt < totalAttempts) : Attempts ctx fn hasOnRetry maxRetries attempt
      (loop zero ctx fn hasOnRetry strategy maxRetries totalAttempts attempt lastErr).trace
      (loop zero ctx fn hasOnRetry strategy maxRetries totalAttempts attempt lastErr).err := by
  -- induction on the attempts that are left
  induction hn : (totalAttempts.toInt - attempt.toInt).toNat generalizing attempt lastErr with
  | zero =>
    have := lt_iff_toInt_lt.mp hlt
    omega
  | succ k ih =>
    rw [loop, if_pos hlt]
    cases hctx : ctx (.attempt attempt) with
    | some e => exact .cancelled hctx
    | none =>
      rcases hfn : fn attempt with ⟨result, _ | err⟩
      · exact .success hctx (by rw [hfn])
      have herr : (fn attempt).2 = some err := by rw [hfn]
      dsimp only
      by_cases hterm : isTerminal err
      · rw [if_pos hterm]
        exact .failure hctx herr
      rw [if_neg hterm]
      by_cases hlast : attempt ≥ maxRetries
      · rw [if_pos hlast]
        exact .failure hctx herr
      rw [if_neg hlast]
      have hterm' : isTerminal err = false := by simpa using hterm
      have hleft : attempt < maxRetries := by rwa [ge_iff_le, Int64.not_le] at hlast
      have hstep := toInt_add_one hlt
      have hnext := ih (attempt + 1) (some err)
        (by rw [lt_iff_toInt_lt] at hleft ⊢; omega) (by omega)
      cases hretry : ctx (.retry attempt) with
      | some e => exact .cancelledRetry hctx herr hterm'
      | none =>
        dsimp only
        split
        · cases hsleep : ctx (.sleep attempt) with
          | some e => exact .cancelledSleep hctx herr hterm'
          | none => exact .again hctx herr hterm' hleft hnext
        · exact .again hctx herr hterm' hleft hnext

/-! ## Accounting -/

def calls (trace : List Event) : List Int64 :=
  trace.filterMap fun
    | .call a => some a
    | _ => none

/-- An event after which the operation is not called again: a success, a terminal error, or a
cancellation that was observed. -/
def Ends (fn : Int64 → α × Option GoError) : Event → Prop
  | .call a => ∀ err, (fn a).2 = some err → isTerminal err
  | .onRetry _ => False
  | .cancelled => True

def Event.isCall : Event → Bool
  | .call _ => true
  | _ => false

def Event.isOnRetry : Event → Bool
  | .onRetry _ => true
  | _ => false

/-- The accounting of `Execute` for a bound on the number of calls. -/
structure Accounted (fn : Int64 → α × Option GoError) (hasOnRetry : Bool)
    (cancelledFirst : Prop) (bound : ℤ) (out : Outcome α) : Prop where
  /-- a nil error comes from a last call that returned nil -/
  nil_error : out.err = none → ∃ a, (calls out.trace).getLast? = some a ∧ (fn a).2 = none
  /-- the operation is called, unless the context was already cancelled -/
  called : ¬cancelledFirst → calls out.trace ≠ []
  bounded : ((calls out.trace).length : ℤ) ≤ bound
  ended : out.trace.Pairwise fun x y => Ends fn x → y.isCall = false
  /-- the callback fires once between two consecutive calls -/
  paced : hasOnRetry → ∀ pre mid post a b,
    out.trace = pre ++ .call a :: mid ++ .call b :: post → (∀ x ∈ mid, x.isCall = false) →
      mid.countP Event.isOnRetry = 1

theorem calls_fires (a t) : calls (.call a :: fires hasOnRetry (a + 1) ++ t) = a :: calls t := by
  cases hasOnRetry <;> rfl

namespace Attempts

variable {maxRetries a : Int64} {trace : List Event} {res : Option GoError}

theorem nil_error (h : Attempts ctx fn hasOnRetry maxRetries a trace res) (hres : res = none) :
    ∃ b, (calls trace).getLast? = some b ∧ (fn b).2 = none := by
  induction h with
  | cancelled | failure | cancelledRetry | cancelledSleep => simp at hres
  | @success a _ hfn => exact ⟨a, rfl, hfn⟩
  | again _ _ _ _ _ ih =>
    obtain ⟨b, hlast, hb⟩ := ih hres
    refine ⟨b, ?_, hb⟩
    rw [calls_fires, getLast?_cons, hlast]
    rfl

theorem called (h : Attempts ctx fn hasOnRetry maxRetries a trace res)
    (hctx : ctx (.attempt a) = none) : calls trace ≠ [] := by
  cases h with
  | cancelled hctx' => rw [hctx] at hctx'; cases hctx'
  | success | failure | cancelledRetry => simp [calls]
  | cancelledSleep | again => rw [calls_fires]; simp

theorem bounded (h : Attempts ctx fn hasOnRetry maxRetries a trace res) (hle : a ≤ maxRetries) :
    ((calls trace).length : ℤ) ≤ maxRetries.toInt - a.toInt + 1 := by
  induction h with
  | cancelled =>
    have := le_iff_toInt_le.mp hle
    simp [calls]
    omega
  | success | failure | cancelledRetry =>
    have := le_iff_toInt_le.mp hle
    simp [calls]
    omega
  | cancelledSleep =>
    have := le_iff_toInt_le.mp hle
    rw [calls_fires]
    simp [calls]
    omega
  | again _ _ _ hlt _ ih =>
    have hstep := toInt_add_one hlt
    have hlt' := lt_iff_toInt_lt.mp hlt
    have := ih (by rw [le_iff_toInt_le]; omega)
    rw [calls_fires, length_cons]
    push_cast
    omega

theorem pairwise_fires {err} (hfn : (fn a).2 = some err)
    (hterm : isTerminal err = false) (ht : trace.Pairwise fun x y => Ends fn x → y.isCall = false) :
    (call a :: fires hasOnRetry (a + 1) ++ trace).Pairwise
      fun x y => Ends fn x → y.isCall = false := by
  have hcall : ¬Ends fn (.call a) := by
    intro hends
    rw [hends err hfn] at hterm
    cases hterm
  have hend : ∀ t : List Event, (t.Pairwise fun x y => Ends fn x → y.isCall = false) →
      (call a :: t).Pairwise fun x y => Ends fn x → y.isCall = false :=
    fun t ht => pairwise_cons.mpr ⟨fun _ _ hends => absurd hends hcall, ht⟩
  cases hasOnRetry with
  | false => exact hend _ ht
  | true => exact hend _ (pairwise_cons.mpr ⟨fun _ _ hends => hends.elim, ht⟩)

theorem ended (h : Attempts ctx fn hasOnRetry maxRetries a trace res) :
    trace.Pairwise fun x y => Ends fn x → y.isCall = false := by
  induction h with
  | cancelled | success | failure => exact pairwise_singleton _ _
  | cancelledRetry => simp [isCall]
  | cancelledSleep _ hfn hterm => exact pairwise_fires hfn hterm (pairwise_singleton _ _)
  | again _ hfn hterm _ _ ih => exact pairwise_fires hfn hterm ih

theorem head (h : Attempts ctx fn hasOnRetry maxRetries a trace res) :
    trace = [.cancelled] ∨ ∃ t, trace = .call a :: t := by
  cases h with
  | cancelled => exact .inl rfl
  | success | failure | cancelledRetry | cancelledSleep | again => exact .inr ⟨_, rfl⟩

theorem paced_of_single {t} (ht : t.countP isCall ≤ 1) {pre mid post : List Event}
    {x y : Int64} (heq : t = pre ++ .call x :: mid ++ .call y :: post) : False := by
  rw [heq] at ht
  simp [countP_append, countP_cons, isCall] at ht
  omega

theorem paced (h : Attempts ctx fn true maxRetries a trace res) {pre mid post : List Event}
    {x y : Int64} (heq : trace = pre ++ .call x :: mid ++ .call y :: post)
    (hmid : ∀ e ∈ mid, e.isCall = false) : mid.countP isOnRetry = 1 := by
  generalize hb : true = b at h
  induction h generalizing pre mid with
  | cancelled | success | failure | cancelledRetry =>
    exact (paced_of_single (by simp [countP_cons, isCall]) heq).elim
  | cancelledSleep =>
    subst hb
    exact (paced_of_single (by simp [fires, countP_cons, isCall]) heq).elim
  | @again a err t res _ _ _ _ hnext ih =>
    subst hb
    change call a :: onRetry (a + 1) :: t = _ at heq
    cases pre with
    | nil =>
      have heq := (cons.inj heq).2
      cases mid with
      | nil => cases (cons.inj heq).1
      | cons e mid =>
        obtain ⟨rfl, htail⟩ := cons.inj heq
        -- the retry starts with its call, so that nothing else stands in between
        cases mid with
        | nil => rfl
        | cons e mid =>
          have he := hmid e (mem_cons_of_mem _ (mem_cons_self ..))
          rcases hnext.head with rfl | ⟨t, rfl⟩
          · have hlen := congrArg length htail
            simp at hlen
          · rw [← (cons.inj htail).1] at he
            cases he
    | cons e pre =>
      have heq := (cons.inj heq).2
      cases pre with
      | nil => cases (cons.inj heq).1
      | cons e pre => exact ih (cons.inj heq).2 hmid

end Attempts

def CheckPoint.first (policy : Option Policy) : CheckPoint :=
  match policy with
  | none => .single
  | some _ => .attempt 0

theorem execute_of_max {p : Policy} (h : p.maxRetries = maxValue) :
    execute zero ctx fn hasOnRetry (some p) = ⟨zero, none, []⟩ := by
  have hneg : ¬(maxValue : Int64) < 0 := by decide
  have hwrap : ¬(0 : Int64) < maxValue + 1 := by decide
  simp only [execute, h]
  rw [if_neg hneg, loop, if_neg hwrap]

/-- `MaxRetries`, at least zero. -/
def Policy.clamped (p : Policy) : Int64 :=
  if p.maxRetries < 0 then 0 else p.maxRetries

theorem Policy.toInt_clamped (p : Policy) : p.clamped.toInt = max p.maxRetries.toInt 0 := by
  unfold clamped
  split_ifs with h
  · have := lt_iff_toInt_lt.mp h
    rw [toInt_zero] at this ⊢
    omega
  · rw [lt_iff_toInt_lt, toInt_zero] at h
    omega

theorem Policy.clamped_add_one {p : Policy} (h : p.maxRetries ≠ maxValue) :
    (p.clamped + 1).toInt = p.clamped.toInt + 1 ∧ 0 < p.clamped + 1 := by
  have hne : p.clamped ≠ maxValue := by
    unfold Policy.clamped
    split_ifs
    · decide
    · exact h
  have hlt : p.clamped < maxValue := by
    exact Int64.lt_of_le_of_ne (Int64.le_maxValue p.clamped) hne
  have hstep := toInt_add_one hlt
  have hnonneg := p.toInt_clamped
  refine ⟨hstep, ?_⟩
  rw [lt_iff_toInt_lt, toInt_zero]
  omega

theorem attempts_execute {p : Policy} (h : p.maxRetries ≠ maxValue) :
    Attempts ctx fn hasOnRetry p.clamped 0 (execute zero ctx fn hasOnRetry (some p)).trace
      (execute zero ctx fn hasOnRetry (some p)).err := by
  obtain ⟨hstep, hlt⟩ := p.clamped_add_one h
  exact attempts_loop zero p.resolveStrategy hstep 0 none hlt

/-- `Execute` keeps its books exactly when it has no policy, or the number of attempts of its
policy is an `int`: it returns a nil error only after a call that returned nil; it calls the
operation at least once, unless the context was already cancelled, and at most
`max MaxRetries 0 + 1` times; it never calls it again after a success, a terminal error or a
cancellation that it observed; and it fires the callback once between two consecutive calls. -/
theorem execute_accounted_iff (policy : Option Policy) :
    Accounted fn hasOnRetry (∃ e, ctx (.first policy) = some e)
        (match policy with
          | none => 1
          | some p => max p.maxRetries.toInt 0 + 1)
        (execute zero ctx fn hasOnRetry policy) ↔
      ∀ p, policy = some p → p.maxRetries ≠ Int64.maxValue := by
  cases policy with
  | none =>
    simp only [reduceCtorEq, false_implies, implies_true, iff_true]
    simp only [execute, CheckPoint.first]
    cases hctx : ctx .single with
    | some e =>
      exact ⟨fun h => (by cases h), fun h => absurd ⟨e, rfl⟩ h, by simp [calls],
        pairwise_singleton _ _,
        fun _ _ _ _ _ _ heq _ =>
          (Attempts.paced_of_single (by simp [Event.isCall]) heq).elim⟩
    | none =>
      exact ⟨fun h => ⟨0, rfl, h⟩, fun _ => by simp [calls], by simp [calls],
        pairwise_singleton _ _,
        fun _ _ _ _ _ _ heq _ =>
          (Attempts.paced_of_single (by simp [countP_cons, Event.isCall]) heq).elim⟩
  | some p =>
    simp only [Option.some.injEq, forall_eq']
    constructor
    · intro h hmax
      obtain ⟨a, hlast, -⟩ := h.nil_error (by rw [execute_of_max zero hmax])
      rw [execute_of_max zero hmax] at hlast
      cases hlast
    intro hmax
    have hruns := @attempts_execute _ zero ctx fn hasOnRetry _ hmax
    have hbound := hruns.bounded (by
      rw [Int64.le_iff_toInt_le, p.toInt_clamped, Int64.toInt_zero]
      omega)
    refine ⟨hruns.nil_error, fun h => hruns.called ?_, ?_, hruns.ended, ?_⟩
    · cases hctx : ctx (.attempt 0) with
      | none => rfl
      | some e => exact absurd ⟨e, hctx⟩ h
    · rw [p.toInt_clamped, Int64.toInt_zero] at hbound
      omega
    · rintro rfl pre mid post a b heq hmid
      exact hruns.paced heq hmid

end

/-- With the largest `MaxRetries` an operation that always fails is never called, and `Execute`
returns a nil error. -/
theorem execute_maxRetries_wraps :
    execute () (fun _ => none) (fun _ => ((), some (.mk none []))) true
      (some ⟨Int64.maxValue, none, none⟩) = ⟨(), none, []⟩ :=
  execute_of_max () rfl

/-! ## Attempts with effects -/

section

variable {m : Type → Type} [Monad m] {α ε : Type} (zero : α) (terminal : ε → Bool)
  (ctx : CheckPoint → m (Option ε)) (fn : Int64 → m (α × Option ε))
  (onRetry : Option (Int64 → m Unit))

/-- The loop of `Execute`, with the effects of the context, the operation and the callback. -/
def loopM (strategy : Strategy) (maxRetries totalAttempts : Int64) (attempt : Int64)
    (lastErr : Option ε) : m (α × Option ε) :=
  if attempt < totalAttempts then do
    match ← ctx (.attempt attempt) with
    | some e => pure (zero, some e)
    | none =>
      match ← fn attempt with
      | (result, none) => pure (result, none)
      | (_, some err) =>
        if terminal err then pure (zero, some err)
        else if attempt ≥ maxRetries then pure (zero, some err)
        else
          match ← ctx (.retry attempt) with
          | some e => pure (zero, some e)
          | none =>
            onRetry.forM fun f => f (attempt + 1)
            if strategy.delay attempt > 0 then
              match ← ctx (.sleep attempt) with
              | some e => pure (zero, some e)
              | none => loopM strategy maxRetries totalAttempts (attempt + 1) (some err)
            else loopM strategy maxRetries totalAttempts (attempt + 1) (some err)
  else pure (zero, lastErr)
termination_by (totalAttempts.toInt - attempt.toInt).toNat
decreasing_by
  all_goals
    have hlt : attempt < totalAttempts := by assumption
    rw [toInt_add_one hlt]
    have := Int64.lt_iff_toInt_lt.mp hlt
    omega

/-- `Execute`, with effects. -/
def executeM (policy : Option Policy) : m (α × Option ε) :=
  match policy with
  | none => do
    match ← ctx .single with
    | some e => pure (zero, some e)
    | none => fn 0
  | some policy =>
    loopM zero terminal ctx fn onRetry policy.resolveStrategy policy.clamped (policy.clamped + 1)
      0 none

end

/-! ### The trace as an effect -/

section

variable {α : Type} (zero : α) (ctx : CheckPoint → Option GoError)
  (fn : Int64 → α × Option GoError) (hasOnRetry : Bool)

/-- The trace grows by an event. -/
def record (e : Event) : StateM (List Event) Unit := modify (· ++ [e])

/-- A check of the context, which records that it is done. -/
def recordCheck (c : CheckPoint) : StateM (List Event) (Option GoError) := do
  if (ctx c).isSome then record .cancelled
  pure (ctx c)

/-- A call of the operation, which is recorded. -/
def recordCall (a : Int64) : StateM (List Event) (α × Option GoError) := do
  record (.call a)
  pure (fn a)

/-- The callback, if it is not nil, records that it is fired. -/
def recordRetry : Option (Int64 → StateM (List Event) Unit) :=
  if hasOnRetry then some fun a => record (.onRetry a) else none

@[simp]
theorem run_recordCheck (c tr) : (recordCheck ctx c).run tr =
    (ctx c, tr ++ if (ctx c).isSome then [.cancelled] else []) := by
  cases h : ctx c <;> simp [recordCheck, record, h] <;> rfl

@[simp]
theorem run_recordCall (a tr) : (recordCall fn a).run tr = (fn a, tr ++ [.call a]) := by
  simp [recordCall, record]
  rfl

@[simp]
theorem run_recordRetry (a tr) :
    (forM (recordRetry hasOnRetry) fun f : Int64 → StateM _ Unit => f a).run tr =
      ((), tr ++ fires hasOnRetry a) := by
  cases hasOnRetry <;> simp [recordRetry, record, fires] <;> rfl

theorem run_loopM (strategy maxRetries totalAttempts attempt lastErr tr) :
    (loopM zero isTerminal (recordCheck ctx) (recordCall fn) (recordRetry hasOnRetry) strategy
        maxRetries totalAttempts attempt lastErr).run tr =
      let out := loop zero ctx fn hasOnRetry strategy maxRetries totalAttempts attempt lastErr
      ((out.value, out.err), tr ++ out.trace) := by
  fun_induction loop zero ctx fn hasOnRetry strategy maxRetries totalAttempts attempt lastErr
    generalizing tr
  all_goals
    rw [loopM]
    simp_all +zetaDelta [run_bind, run_pure, Outcome.after, -StateT.run_bind, -StateT.run_pure,
      -Int64.not_le, -Int64.not_lt]

/-- `Execute` with the trace for its effect is `Execute`: what holds of one holds of the other. -/
theorem run_executeM (policy tr) :
    (executeM zero isTerminal (recordCheck ctx) (recordCall fn) (recordRetry hasOnRetry) policy).run
        tr =
      let out := execute zero ctx fn hasOnRetry policy
      ((out.value, out.err), tr ++ out.trace) := by
  cases policy with
  | none => cases h : ctx .single <;> simp [executeM, execute, run_bind, run_pure, h, -StateT.run_bind, -StateT.run_pure]
  | some p => exact run_loopM ..

end

/-! ### A rule for effects on a state -/

section

variable {σ α ε : Type} (zero : α) {terminal : ε → Bool} {ctx : CheckPoint → StateM σ (Option ε)}
  {fn : Int64 → StateM σ (α × Option ε)} {onRetry : Int64 → StateM σ Unit}
  {P F : σ → Prop} {Q : Option ε → σ → Prop}

/-- What the rule asks of the callbacks: the context is never done, the operation is called in
states of `P`, leaves a state of `F` when its error is not terminal, and the callback leads back
to `P`. -/
structure Uncancelled (terminal : ε → Bool) (ctx : CheckPoint → StateM σ (Option ε))
    (fn : Int64 → StateM σ (α × Option ε)) (onRetry : Int64 → StateM σ Unit) (P F : σ → Prop)
    (Q : Option ε → σ → Prop) : Prop where
  never : ∀ c s, ((ctx c).run s).1 = none
  check : ∀ c s, P s → P ((ctx c).run s).2
  checkFailed : ∀ c s, F s → F ((ctx c).run s).2
  call : ∀ a s, P s → Q ((fn a).run s).1.2 ((fn a).run s).2
  failed : ∀ a s e, P s → ((fn a).run s).1.2 = some e → terminal e = false → F ((fn a).run s).2
  retry : ∀ a s, F s → P ((onRetry a).run s).2

theorem Uncancelled.loopM (h : Uncancelled terminal ctx fn onRetry P F Q) (strategy)
    {maxRetries totalAttempts : Int64} (htotal : totalAttempts.toInt = maxRetries.toInt + 1)
    (attempt lastErr) (hlt : attempt < totalAttempts) (s : σ) (hs : P s) :
    Q ((loopM zero terminal ctx fn (some onRetry) strategy maxRetries totalAttempts attempt
          lastErr).run s).1.2
      ((loopM zero terminal ctx fn (some onRetry) strategy maxRetries totalAttempts attempt
          lastErr).run s).2 := by
  -- induction on the attempts that are left
  induction hn : (totalAttempts.toInt - attempt.toInt).toNat generalizing attempt lastErr s with
  | zero =>
    have := lt_iff_toInt_lt.mp hlt
    omega
  | succ k ih =>
    rw [Retry.loopM, if_pos hlt]
    have hs := h.check (.attempt attempt) s hs
    have hcall := h.call attempt _ hs
    have hfail := fun e => h.failed attempt _ e hs
    simp only [run_bind, h.never]
    generalize (fn attempt).run ((ctx (.attempt attempt)).run s).2 = r at hcall hfail ⊢
    obtain ⟨⟨result, _ | err⟩, s'⟩ := r
    · exact hcall
    dsimp only at hcall hfail ⊢
    by_cases hterm : terminal err
    · rw [if_pos hterm]
      exact hcall
    rw [if_neg hterm]
    by_cases hlast : attempt ≥ maxRetries
    · rw [if_pos hlast]
      exact hcall
    rw [if_neg hlast]
    have hleft : attempt < maxRetries := by rwa [ge_iff_le, Int64.not_le] at hlast
    have hstep := toInt_add_one hlt
    have hleft' : attempt + 1 < totalAttempts := by
      rw [lt_iff_toInt_lt] at hleft ⊢
      omega
    have hF := h.checkFailed (.retry attempt) _ (hfail err rfl (by simpa using hterm))
    have hP := h.retry (attempt + 1) _ hF
    simp only [run_bind, h.never, Option.forM]
    split
    · simp only [run_bind, h.never]
      exact ih _ _ hleft' _ (h.check _ _ hP) (by omega)
    · exact ih _ _ hleft' _ hP (by omega)

theorem Uncancelled.executeM (h : Uncancelled terminal ctx fn onRetry P F Q)
    {policy : Option Policy} (hmax : ∀ p, policy = some p → p.maxRetries ≠ maxValue) (s : σ)
    (hs : P s) : Q ((executeM zero terminal ctx fn (some onRetry) policy).run s).1.2
      ((executeM zero terminal ctx fn (some onRetry) policy).run s).2 := by
  cases policy with
  | none =>
    simp only [Retry.executeM, run_bind, h.never]
    exact h.call 0 _ (h.check _ s hs)
  | some p =>
    obtain ⟨htotal, hlt⟩ := p.clamped_add_one (hmax p rfl)
    exact h.loopM zero _ htotal 0 none hlt s hs

end

end BamlRest.Retry
