import BamlRest.Lib.Effects
import BamlRest.Text.Bytes

/-!
# The cadence of partial results

While a child streams, every delta is added to what has been accumulated, and may give an event: a
structured partial result, the raw text alone, or both.

* `delta`, `feed`: one delta, and a window of them.
* `feed_lossless`: no text is lost.
-/

namespace BamlRest.BuildRequest

structure DeltaParts where
  parseable : Bytes
  raw : Bytes
  reasoning : Bytes
  deriving DecidableEq

def DeltaParts.isEmpty (d : DeltaParts) : Bool :=
  d.raw = [] && d.parseable = [] && d.reasoning = []

/-- `StreamCadenceEvent`; `value` is `Partial`, which may be nil. -/
structure StreamCadenceEvent (V : Type) where
  hasPartial : Bool
  value : Option V
  raw : Bytes
  reasoning : Bytes

inductive StreamCadenceParsePolicy where
  | parseErrorsAreNoEvent
  | parseErrorsAreTerminal
  deriving DecidableEq

/-- `StreamCadenceConfig`, but for its callbacks: `hasParser` says that `ParsePartial` is not nil. -/
structure StreamCadenceConfig where
  needsPartials : Bool
  needsRaw : Bool
  parseThrottleInterval : Int64
  hasParser : Bool
  parsePolicy : StreamCadenceParsePolicy

/-- `streamAccumulator`; times are nanoseconds since the zero time. -/
structure StreamAccumulator where
  parseable : Bytes
  raw : Bytes
  reasoning : Bytes
  parsed : Bool
  lastParseTime : ℤ

def StreamAccumulator.empty : StreamAccumulator := ⟨[], [], [], false, 0⟩

def StreamAccumulator.add (acc : StreamAccumulator) (d : DeltaParts) : StreamAccumulator :=
  { acc with
    parseable := acc.parseable ++ d.parseable
    raw := acc.raw ++ d.raw
    reasoning := acc.reasoning ++ d.reasoning }

/-- `Time.Sub`: the difference is cut to the range of a `Duration`. -/
def timeSub (t u : ℤ) : Int64 :=
  Int64.ofInt (max Int64.minValue.toInt (min Int64.maxValue.toInt (t - u)))

/-- A call of `Delta`: the delta, the two readings of the clock, and what `ParsePartial` answers on
the accumulated text. -/
structure CadenceTick (V ε : Type) where
  delta : DeltaParts
  nowCheck : ℤ
  nowSet : ℤ
  parse : Bytes → Except ε (Option V × Bool)

namespace StreamCadenceConfig

variable {V ε : Type} (cfg : StreamCadenceConfig)

def classifyParseError (err : ε) : Option ε :=
  if cfg.parsePolicy ≠ .parseErrorsAreTerminal then none else some err

def shouldParse (t : CadenceTick V ε) (acc : StreamAccumulator) : Bool :=
  cfg.parseThrottleInterval = 0 || !acc.parsed ||
    timeSub t.nowCheck acc.lastParseTime ≥ cfg.parseThrottleInterval

/-- The throttled parse: the structured result if there is one, or the error that stops the
stream. -/
def parsePartial (t : CadenceTick V ε) (acc : StreamAccumulator) :
    Except ε (Option (Option V)) × StreamAccumulator :=
  if cfg.hasParser && cfg.shouldParse t acc then
    let acc := { acc with parsed := true, lastParseTime := t.nowSet }
    match t.parse acc.parseable with
    | .error err =>
      match cfg.classifyParseError err with
      | some err => (.error err, acc)
      | none => (.ok none, acc)
    | .ok (candidate, present) => (.ok (if present then some candidate else none), acc)
  else (.ok none, acc)

variable {m : Type → Type} [Monad m]

/-- `Delta`: the error that stops the stream, and the accumulator after it. -/
def delta (emit : StreamCadenceEvent V → m (Option ε)) (t : CadenceTick V ε)
    (acc : StreamAccumulator) : m (Option ε × StreamAccumulator) :=
  if t.delta.isEmpty then pure (none, acc)
  else
    let acc := acc.add t.delta
    if cfg.needsPartials && t.delta.parseable = [] then
      if cfg.needsRaw then do
        let err ← emit ⟨false, none, t.delta.raw, t.delta.reasoning⟩
        pure (err, acc)
      else pure (none, acc)
    else if cfg.needsPartials then
      match cfg.parsePartial t acc with
      | (.error err, acc) => pure (some err, acc)
      | (.ok (some parsed), acc) => do
        let raw := if cfg.needsRaw then t.delta.raw else []
        let reasoning := if cfg.needsRaw then t.delta.reasoning else []
        let err ← emit ⟨true, parsed, raw, reasoning⟩
        pure (err, acc)
      | (.ok none, acc) =>
        if cfg.needsRaw then do
          let err ← emit ⟨false, none, t.delta.raw, t.delta.reasoning⟩
          pure (err, acc)
        else pure (none, acc)
    else pure (none, acc)

theorem delta_cases (emit : StreamCadenceEvent V → m (Option ε)) (t acc) :
    (∃ r, cfg.delta emit t acc = pure r) ∨ cfg.needsPartials ∧ ∃ ev acc', cfg.delta emit t acc = (do
        let err ← emit ev
        pure (err, acc')) := by
  unfold delta
  dsimp only
  cases hneeds : cfg.needsPartials with
  | false =>
    simp only [Bool.false_and, Bool.false_eq_true, if_false]
    split <;> exact .inl ⟨_, rfl⟩
  | true =>
    repeat' split
    all_goals first | exact .inl ⟨_, rfl⟩ | exact .inr ⟨rfl, _, _, rfl⟩

end StreamCadenceConfig

/-! ### Nothing is lost -/

section

variable {V ε : Type}

def collect (ev : StreamCadenceEvent V) : StateM (List (StreamCadenceEvent V)) (Option ε) := do
  modify (· ++ [ev])
  pure none

def eventTexts (evs : List (StreamCadenceEvent V)) : Bytes × Bytes :=
  (evs.flatMap (·.raw), evs.flatMap (·.reasoning))

/-- The raw text and the reasoning of the deltas of some ticks, each joined. -/
def deltaTexts (ticks : List (CadenceTick V ε)) : Bytes × Bytes :=
  (ticks.flatMap (·.delta.raw), ticks.flatMap (·.delta.reasoning))

def parseableText (ticks : List (CadenceTick V ε)) : Bytes := ticks.flatMap (·.delta.parseable)

/-- A tick whose parser answers as before on one text, and in some other way on all others. -/
def CadenceTick.onlyAt (t : CadenceTick V ε) (text : Bytes)
    (other : Bytes → Except ε (Option V × Bool)) : CadenceTick V ε :=
  { t with parse := fun s => if s = text then t.parse s else other s }

namespace StreamCadenceConfig

variable (cfg : StreamCadenceConfig)

/-- The deltas of a window, one after another, until an error stops the stream. -/
def feed : List (CadenceTick V ε) → StreamAccumulator →
    StateM (List (StreamCadenceEvent V)) (Option ε × StreamAccumulator)
  | [], acc => pure (none, acc)
  | t :: ticks, acc => do
    let (err, acc) ← cfg.delta collect t acc
    match err with
    | some err => pure (some err, acc)
    | none => feed ticks acc

variable {cfg}

theorem parsePartial_tolerant (hpolicy : cfg.parsePolicy ≠ .parseErrorsAreTerminal)
    (t : CadenceTick V ε) (acc : StreamAccumulator) :
    ∃ value acc', cfg.parsePartial t acc = (.ok value, acc') ∧ acc'.parseable = acc.parseable := by
  unfold parsePartial
  split_ifs
  · dsimp only
    cases t.parse acc.parseable with
    | error err =>
      have htolerated : cfg.classifyParseError err = none := if_pos hpolicy
      dsimp only
      rw [htolerated]
      exact ⟨_, _, rfl, rfl⟩
    | ok answer => exact ⟨_, _, rfl, rfl⟩
  · exact ⟨_, _, rfl, rfl⟩

/-- **The step**: the events of a delta carry its raw text and its reasoning. -/
theorem delta_lossless (hpartials : cfg.needsPartials) (hraw : cfg.needsRaw)
    (hpolicy : cfg.parsePolicy ≠ .parseErrorsAreTerminal) (t : CadenceTick V ε)
    (acc : StreamAccumulator) (log : List (StreamCadenceEvent V)) :
    ∃ acc' evs, (cfg.delta collect t acc).run log = ((none, acc'), log ++ evs) ∧
      eventTexts evs = (t.delta.raw, t.delta.reasoning) ∧
      acc'.parseable = acc.parseable ++ t.delta.parseable := by
  unfold delta
  cases hempty : t.delta.isEmpty with
  | true =>
    simp only [DeltaParts.isEmpty, Bool.and_eq_true, decide_eq_true_eq] at hempty
    obtain ⟨⟨hr, hp⟩, hs⟩ := hempty
    exact ⟨acc, [], by rw [List.append_nil]; rfl, by simp [eventTexts, hr, hs], by simp [hp]⟩
  | false =>
    simp only [hpartials, hraw, Bool.true_and, Bool.false_eq_true, if_false, if_true,
      decide_eq_true_eq]
    split_ifs with hp
    · exact ⟨_, [⟨false, none, t.delta.raw, t.delta.reasoning⟩], rfl, by simp [eventTexts], rfl⟩
    obtain ⟨value, acc', hparse, hacc⟩ := parsePartial_tolerant hpolicy t (acc.add t.delta)
    rw [hparse]
    cases value with
    | none =>
      exact ⟨_, [⟨false, none, t.delta.raw, t.delta.reasoning⟩], rfl, by simp [eventTexts], hacc⟩
    | some parsed =>
      exact ⟨_, [⟨true, parsed, t.delta.raw, t.delta.reasoning⟩], rfl, by simp [eventTexts], hacc⟩

theorem delta_onlyAt {m : Type → Type} [Monad m] (emit : StreamCadenceEvent V → m (Option ε))
    (t acc) (other : Bytes → Except ε (Option V × Bool)) :
    cfg.delta emit (t.onlyAt (acc.parseable ++ t.delta.parseable) other) acc =
      cfg.delta emit t acc := by
  have hparse : cfg.parsePartial (t.onlyAt (acc.parseable ++ t.delta.parseable) other)
      (acc.add t.delta) = cfg.parsePartial t (acc.add t.delta) := by
    unfold parsePartial shouldParse CadenceTick.onlyAt StreamAccumulator.add
    simp
  unfold delta
  rw [show (t.onlyAt (acc.parseable ++ t.delta.parseable) other).delta = t.delta from rfl]
  dsimp only
  rw [hparse]

/-- **The run**, from any accumulator. -/
theorem feed_lossless_from (hpartials : cfg.needsPartials) (hraw : cfg.needsRaw)
    (hpolicy : cfg.parsePolicy ≠ .parseErrorsAreTerminal) (ticks : List (CadenceTick V ε))
    (acc : StreamAccumulator) (log : List (StreamCadenceEvent V)) :
    ∃ acc' evs, (cfg.feed ticks acc).run log = ((none, acc'), log ++ evs) ∧
      eventTexts evs = deltaTexts ticks := by
  induction ticks generalizing acc log with
  | nil => exact ⟨acc, [], by rw [List.append_nil]; rfl, rfl⟩
  | cons t ticks ih =>
    obtain ⟨acc₁, evs₁, hrun₁, htexts₁, -⟩ := delta_lossless hpartials hraw hpolicy t acc log
    obtain ⟨acc₂, evs₂, hrun₂, htexts₂⟩ := ih acc₁ (log ++ evs₁)
    simp only [eventTexts, deltaTexts, Prod.mk.injEq] at htexts₁ htexts₂
    refine ⟨acc₂, evs₁ ++ evs₂, ?_, ?_⟩
    · rw [feed, Effects.run_bind, hrun₁, ← List.append_assoc]
      exact hrun₂
    · simp [eventTexts, deltaTexts, htexts₁, htexts₂]

theorem feed_onlyAt (hpartials : cfg.needsPartials) (hraw : cfg.needsRaw)
    (hpolicy : cfg.parsePolicy ≠ .parseErrorsAreTerminal) (ticks : List (CadenceTick V ε))
    (other : ℕ → Bytes → Except ε (Option V × Bool)) (acc : StreamAccumulator)
    (log : List (StreamCadenceEvent V)) : (cfg.feed (ticks.mapIdx fun i t =>
        t.onlyAt (acc.parseable ++ parseableText (ticks.take (i + 1))) (other i)) acc).run log =
      (cfg.feed ticks acc).run log := by
  induction ticks generalizing other acc log with
  | nil => rfl
  | cons t ticks ih =>
    obtain ⟨acc₁, evs₁, hrun₁, -, hacc₁⟩ := delta_lossless hpartials hraw hpolicy t acc log
    have hfirst : parseableText ((t :: ticks).take (0 + 1)) = t.delta.parseable := by
      simp [parseableText]
    have hrest : ∀ i, acc.parseable ++ parseableText ((t :: ticks).take (i + 1 + 1)) =
        acc₁.parseable ++ parseableText (ticks.take (i + 1)) := by
      intro i
      rw [hacc₁, List.take_succ_cons, parseableText, List.flatMap_cons, List.append_assoc]
      rfl
    rw [List.mapIdx_cons, feed, feed, Effects.run_bind, Effects.run_bind, hfirst, delta_onlyAt,
      hrun₁]
    simp only [hrest]
    exact ih (fun i => other (i + 1)) acc₁ (log ++ evs₁)

/-- **Nothing is lost.** When partial results and raw text are asked for and parse errors are
tolerated, no delta stops the stream, and the events of a window carry the raw text and the reasoning
of its deltas. Each parser is asked about the text accumulated by then and about no other. -/
theorem feed_lossless (hpartials : cfg.needsPartials = true) (hraw : cfg.needsRaw = true)
    (hpolicy : cfg.parsePolicy ≠ .parseErrorsAreTerminal) (ticks : List (CadenceTick V ε)) :
    (∃ acc' evs, (cfg.feed ticks .empty).run [] = ((none, acc'), evs) ∧
      eventTexts evs = deltaTexts ticks) ∧
    ∀ other : ℕ → Bytes → Except ε (Option V × Bool),
      (cfg.feed (ticks.mapIdx fun i t =>
          t.onlyAt (parseableText (ticks.take (i + 1))) (other i)) .empty).run [] =
        (cfg.feed ticks .empty).run [] := by
  constructor
  · obtain ⟨acc', evs, hrun, htexts⟩ :=
      feed_lossless_from hpartials hraw hpolicy ticks .empty []
    exact ⟨acc', evs, hrun, htexts⟩
  · intro other
    exact feed_onlyAt hpartials hraw hpolicy ticks other .empty []

end StreamCadenceConfig

/-- A throttled window: the second delta comes too early to be parsed. The values are those of the
whole text so far, and a parser that fails on every other text would do as well. -/
theorem feed_lossless_throttled :
    let cfg : StreamCadenceConfig := ⟨true, true, 10, true, .parseErrorsAreNoEvent⟩
    let tick (text : Bytes) (now : ℤ) : CadenceTick Bytes Unit :=
      ⟨⟨text, text, []⟩, now, now, fun s => .ok (some s, true)⟩
    let ticks := [tick (bytes "a") 100, tick (bytes "b") 105, tick (bytes "c") 200]
    (∃ acc' evs, (cfg.feed ticks .empty).run [] = ((none, acc'), evs) ∧
      evs = [⟨true, some (bytes "a"), bytes "a", []⟩, ⟨false, none, bytes "b", []⟩,
        ⟨true, some (bytes "abc"), bytes "c", []⟩] ∧
      eventTexts evs = (bytes "abc", [])) ∧
    (cfg.feed (ticks.mapIdx fun i t =>
        t.onlyAt (parseableText (ticks.take (i + 1))) fun _ => .error ()) .empty).run [] =
      (cfg.feed ticks .empty).run [] := by
  intro cfg tick ticks
  obtain ⟨⟨acc', evs, hrun, htexts⟩, hother⟩ :=
    @StreamCadenceConfig.feed_lossless _ _ cfg rfl rfl (by decide) ticks
  have hevs : ((cfg.feed ticks .empty).run []).2 = [⟨true, some (bytes "a"), bytes "a", []⟩,
      ⟨false, none, bytes "b", []⟩, ⟨true, some (bytes "abc"), bytes "c", []⟩] := rfl
  rw [hrun] at hevs
  exact ⟨⟨acc', evs, hrun, hevs, htexts⟩, hother fun _ _ => .error ()⟩

end

end BamlRest.BuildRequest
