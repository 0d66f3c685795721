import Mathlib

/-!
# Threads over shared memory

Threads take turns in any order.

* `Program`, `Config`, `Program.exec`: threads, and their runs.
* `Reaches.invariant`: the rule for invariants; `Locked`, `LockStep`: for locks.
-/

namespace BamlRest.Interleave

open Function

/-- What a thread does in one turn: with identities `ι`, memory `σ`, local states `τ` and
choices `κ`. -/
def Program (ι σ τ κ : Type*) : Type _ :=
  ι → κ → σ → τ → Option (σ × τ)

/-- The shared memory, and where each thread stands. -/
structure Config (ι σ τ : Type*) where
  mem : σ
  threads : ι → τ

variable {ι σ τ κ : Type*} [DecidableEq ι]

namespace Program

variable (P : Program ι σ τ κ)

/-- One turn. -/
def next (turn : ι × κ) (s : Config ι σ τ) : Option (Config ι σ τ) :=
  match P turn.1 turn.2 s.mem (s.threads turn.1) with
  | none => none
  | some (m, t) => some ⟨m, Function.update s.threads turn.1 t⟩

/-- The turns in order, as long as they are allowed. -/
def exec (ok : ι × κ → Config ι σ τ → Bool) :
    List (ι × κ) → Config ι σ τ → Option (Config ι σ τ)
  | [], s => some s
  | turn :: turns, s =>
    if ok turn s then
      match P.next turn s with
      | none => none
      | some s' => exec ok turns s'
    else none

variable {P}

variable {turn : ι × κ} {s' s : Config ι σ τ}

theorem next_eq_some_iff : P.next turn s = some s' ↔
      ∃ m t, P turn.1 turn.2 s.mem (s.threads turn.1) = some (m, t) ∧
        s' = ⟨m, update s.threads turn.1 t⟩ := by
  unfold next
  cases P turn.1 turn.2 s.mem (s.threads turn.1) with
  | none => simp
  | some r =>
    constructor
    · intro h
      exact ⟨r.1, r.2, rfl, (Option.some.inj h).symm⟩
    · rintro ⟨m, t, hr, rfl⟩
      rw [Option.some.inj hr]

variable {ok : ι × κ → Config ι σ τ → Bool} {turns : List (ι × κ)}

theorem exec_cons_eq_some_iff : P.exec ok (turn :: turns) s = some s' ↔
      ok turn s ∧ ∃ u, P.next turn s = some u ∧ P.exec ok turns u = some s' := by
  rw [exec]
  cases ok turn s with
  | false => simp
  | true => cases P.next turn s <;> simp

theorem threads_of_exec (h : P.exec ok turns s = some s') {i : ι}
    (hi : i ∉ turns.map Prod.fst) : s'.threads i = s.threads i := by
  induction turns generalizing s with
  | nil =>
    cases h
    rfl
  | cons turn turns ih =>
    obtain ⟨-, u, hu, hrest⟩ := exec_cons_eq_some_iff.mp h
    obtain ⟨m, t, -, rfl⟩ := next_eq_some_iff.mp hu
    rw [List.map_cons, List.mem_cons, not_or] at hi
    rw [ih hrest hi.2]
    exact update_of_ne hi.1 _ _

/-- Some schedule leads from one configuration to another, by turns that `Ok` allows. -/
inductive Reaches (P : Program ι σ τ κ) (Ok : ι × κ → Config ι σ τ → Prop) (s : Config ι σ τ) :
    Config ι σ τ → Prop where
  | refl : Reaches P Ok s s
  | step {u s' turn} (hu : Reaches P Ok s u) (hok : Ok turn u)
      (hnext : P.next turn u = some s') : Reaches P Ok s s'

theorem Reaches.invariant {I : Config ι σ τ → Prop} {Ok : ι × κ → Config ι σ τ → Prop} (h : Reaches P Ok s s') (hs : I s)
    (hstep : ∀ turn u v, Ok turn u → I u → P.next turn u = some v → I v) : I s' := by
  induction h with
  | refl => exact hs
  | step _ hok hnext ih => exact hstep _ _ _ hok ih hnext

theorem Reaches.trans {Ok : ι × κ → Config ι σ τ → Prop} {u v}
    (hu : Reaches P Ok s u) (hv : Reaches P Ok u v) : Reaches P Ok s v := by
  induction hv with
  | refl => exact hu
  | step _ hok hnext ih => exact .step ih hok hnext

theorem reaches_of_exec (h : P.exec ok turns s = some s') :
    Reaches P (fun turn u => ok turn u = true) s s' := by
  induction turns generalizing s with
  | nil =>
    cases h
    exact .refl
  | cons turn turns ih =>
    obtain ⟨hok, u, hu, hrest⟩ := exec_cons_eq_some_iff.mp h
    exact (Reaches.step .refl hok hu).trans (ih hrest)

theorem local_next {L : σ → ι → τ → Prop}
    (hown : ∀ m' t', P turn.1 turn.2 s.mem (s.threads turn.1) = some (m', t') →
      L s.mem turn.1 (s.threads turn.1) → L m' turn.1 t')
    (hother : ∀ m' t' j, P turn.1 turn.2 s.mem (s.threads turn.1) = some (m', t') →
      j ≠ turn.1 → L s.mem turn.1 (s.threads turn.1) → L s.mem j (s.threads j) →
      L m' j (s.threads j))
    (hs : ∀ j, L s.mem j (s.threads j)) (h : P.next turn s = some s') (j : ι) :
    L s'.mem j (s'.threads j) := by
  obtain ⟨m, t, hP, rfl⟩ := next_eq_some_iff.mp h
  by_cases hj : j = turn.1
  · subst hj
    simpa using hown m t hP (hs turn.1)
  · simpa [update_of_ne hj] using hother m t j hP hj (hs turn.1) (hs j)

end Program

/-! ### Locks -/

/-- A thread that holds the lock is the one it names. -/
def Locked (lock : σ → Option ι) (holds : τ → Prop) (s : Config ι σ τ) : Prop :=
  ∀ i, holds (s.threads i) → lock s.mem = some i

/-- What a turn of a thread may do to a lock, and to whether the thread holds it. -/
inductive LockStep (i : ι) (lock lock' : Option ι) (holds holds' : Prop) : Prop where
  | keep (hlock : lock' = lock) (hholds : holds' → holds)
  | acquire (hfree : lock = none) (hlock : lock' = some i)
  | release (hholds : holds) (hleft : ¬holds')

variable {lock : σ → Option ι} {holds : τ → Prop} {s : Config ι σ τ}

variable {i : ι}

omit [DecidableEq ι] in
theorem Locked.unique (hs : Locked lock holds s) {j : ι} (hi : holds (s.threads i))
    (hj : holds (s.threads j)) : i = j :=
  Option.some.inj ((hs i hi).symm.trans (hs j hj))

variable {m : σ} {t : τ}

theorem Locked.update (hs : Locked lock holds s)
    (h : LockStep i (lock s.mem) (lock m) (holds (s.threads i)) (holds t)) :
    Locked lock holds ⟨m, update s.threads i t⟩ := by
  intro j hj
  dsimp only at hj ⊢
  by_cases heq : j = i
  · subst heq
    rw [update_self] at hj
    cases h with
    | keep hlock hholds => exact hlock.trans (hs j (hholds hj))
    | acquire hfree hlock => exact hlock
    | release hholds hleft => exact absurd hj hleft
  rw [update_of_ne heq] at hj
  have hlocked := hs j hj
  cases h with
  | keep hlock hholds => exact hlock.trans hlocked
  | acquire hfree hlock =>
    rw [hfree] at hlocked
    cases hlocked
  | release hholds hleft => exact absurd (hs.unique hj hholds) heq

/-- The flag is set while a thread holds it, and no other thread holds it then. -/
structure Flagged (flag : σ → Bool) (holds : τ → Prop) (s : Config ι σ τ) : Prop where
  set : ∀ i, holds (s.threads i) → flag s.mem
  unique : ∀ i j, holds (s.threads i) → holds (s.threads j) → i = j
  held : flag s.mem → ∃ i, holds (s.threads i)

/-- What a turn of a thread may do to a flag, and to whether the thread holds it. -/
inductive FlagStep (flag flag' : Bool) (holds holds' : Prop) : Prop where
  | keep (hflag : flag' = flag) (hholds : holds' ↔ holds)
  | acquire (hfree : flag = false) (hset : flag') (hholds : holds')
  | release (hholds : holds) (hleft : ¬holds') (hclear : flag' = false)

variable {flag : σ → Bool}

theorem Flagged.update (hs : Flagged flag holds s)
    (h : FlagStep (flag s.mem) (flag m) (holds (s.threads i)) (holds t)) :
    Flagged flag holds ⟨m, update s.threads i t⟩ := by
  have hother : ∀ j, j ≠ i → Function.update s.threads i t j = s.threads j :=
    fun j hj => update_of_ne hj _ _
  cases h with
  | keep hflag hholds =>
    have hsame : ∀ j, holds (Function.update s.threads i t j) ↔ holds (s.threads j) := by
      intro j
      by_cases heq : j = i
      · subst heq
        rwa [update_self]
      · rw [hother j heq]
    refine ⟨fun j hj => ?_, fun j k hj hk => ?_, fun hset => ?_⟩
    · exact hflag.trans (hs.set j ((hsame j).mp hj))
    · exact hs.unique j k ((hsame j).mp hj) ((hsame k).mp hk)
    · obtain ⟨j, hj⟩ := hs.held (hflag.symm.trans hset)
      exact ⟨j, (hsame j).mpr hj⟩
  | acquire hfree hset hholds =>
    -- nobody held the flag, so that it is only the new holder
    have honly : ∀ j, holds (Function.update s.threads i t j) → j = i := by
      intro j hj
      by_contra heq
      rw [hother j heq] at hj
      rw [hs.set j hj] at hfree
      cases hfree
    refine ⟨fun _ _ => hset, fun j k hj hk => (honly j hj).trans (honly k hk).symm,
      fun _ => ⟨i, ?_⟩⟩
    dsimp only
    rwa [update_self]
  | release hholds hleft hclear =>
    have hnone : ∀ j, ¬holds (Function.update s.threads i t j) := by
      intro j hj
      by_cases heq : j = i
      · subst heq
        rw [update_self] at hj
        exact hleft hj
      · rw [hother j heq] at hj
        exact heq (hs.unique j i hj hholds)
    refine ⟨fun j hj => absurd hj (hnone j), fun j _ hj => absurd hj (hnone j), fun hset => ?_⟩
    rw [hclear] at hset
    cases hset

def Barred (past place : τ → Prop) (s : Config ι σ τ) : Prop :=
  ∀ i j, past (s.threads i) → ¬place (s.threads j)

theorem Barred.update {past place : τ → Prop} {barred : Prop} (hs : Barred past place s)
    (hlock : Locked lock holds s) (hplace : ∀ t, place t → holds t)
    (hbarred : ∀ k, past (s.threads k) → barred)
    (hpast : past t → past (s.threads i) ∨ barred ∧ lock s.mem = none)
    (hcomes : place t → place (s.threads i) ∨ ¬barred) :
    Barred past place ⟨m, update s.threads i t⟩ := by
  intro k j hk hj
  dsimp only at hk hj
  have hbefore : (∃ k, past (s.threads k)) ∨ barred ∧ lock s.mem = none := by
    by_cases heq : k = i
    · subst heq
      rw [update_self] at hk
      exact (hpast hk).imp_left fun h => ⟨k, h⟩
    · rw [update_of_ne heq] at hk
      exact .inl ⟨k, hk⟩
  have hwas : ∃ j, place (s.threads j) := by
    by_cases heq : j = i
    · subst heq
      rw [update_self] at hj
      refine (hcomes hj).elim (fun h => ⟨j, h⟩) fun hnot => absurd ?_ hnot
      exact hbefore.elim (fun ⟨k, hk⟩ => hbarred k hk) And.left
    · rw [update_of_ne heq] at hj
      exact ⟨j, hj⟩
  obtain ⟨j, hj⟩ := hwas
  rcases hbefore with ⟨k, hk⟩ | ⟨-, hfree⟩
  · exact hs k j hk hj
  · rw [hlock j (hplace _ hj)] at hfree
    cases hfree

end BamlRest.Interleave
