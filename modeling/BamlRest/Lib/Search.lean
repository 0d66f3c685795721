import Mathlib

/-!
# Recursive procedures that may not end

A recursive procedure that is not known to end is run with fuel: its result is `Run.out` when the
fuel does not suffice.

* `Run`, `Step`, `runSteps`: the results, and procedures that only check.
* `returns_of_acc`: enough fuel, where the calls are well founded.
-/

namespace BamlRest

open Relation

universe u

/-- A computation that fails, returns, or runs out of fuel. -/
inductive Run (ε : Type*) (α : Type u) where
  | out
  | fail (e : ε)
  | ok (a : α)
  deriving DecidableEq

namespace Run

variable {ε : Type*} {α β : Type u}

def bind (x : Run ε α) (f : α → Run ε β) : Run ε β :=
  match x with
  | out => out
  | fail e => fail e
  | ok a => f a

instance : Monad (Run ε) where
  pure := ok
  bind := bind

@[simp] theorem out_bind (f : α → Run ε β) : (out >>= f : Run ε β) = out := rfl

@[simp] theorem fail_bind (e : ε) (f : α → Run ε β) : (fail e >>= f : Run ε β) = fail e := rfl

@[simp] theorem ok_bind (a : α) (f : α → Run ε β) : (ok a >>= f : Run ε β) = f a := rfl

theorem bind_assoc {γ : Type u} (x : Run ε α) (f : α → Run ε β) (g : β → Run ε γ) :
    x >>= f >>= g = x >>= fun a => f a >>= g := by
  cases x <;> rfl

@[simp] theorem pure_eq_ok (a : α) : (pure a : Run ε α) = ok a := rfl

def void : Run ε α → Run ε Unit
  | out => out
  | fail e => fail e
  | ok _ => ok ()

@[simp] theorem void_ok (a : α) : void (ok a : Run ε α) = ok () := rfl

@[simp] theorem void_fail (e : ε) : void (fail e : Run ε α) = fail e := rfl

theorem void_eq_out_iff {x : Run ε α} : x.void = out ↔ x = out := by
  cases x <;> simp [void]

end Run

/-- A step of a function that only checks: it fails, or makes a call. -/
inductive Step (ε Q : Type*) where
  | fail (e : ε)
  | call (q : Q)

section

variable {ε Q : Type*}

/-- The steps in order, up to the first failure. -/
def runSteps (rec : Q → Run ε Unit) : List (Step ε Q) → Run ε Unit
  | [] => .ok ()
  | .fail e :: _ => .fail e
  | .call q :: s => rec q >>= fun _ => runSteps rec s

theorem runSteps_append (rec : Q → Run ε Unit) (s t) :
    runSteps rec (s ++ t) = runSteps rec s >>= fun _ => runSteps rec t := by
  induction s with
  | nil => rfl
  | cons x s ih =>
    cases x with
    | fail e => rfl
    | call q =>
      simp only [List.cons_append, runSteps]
      cases rec q with
      | out => rfl
      | fail e => rfl
      | ok a => exact ih

def Step.check : Except ε Unit → List (Step ε Q)
  | .error e => [.fail e]
  | .ok _ => []

variable (calls : Q → List (Step ε Q))

/-- The first thing that `q` does is to call `a`. -/
def Opens (q a : Q) : Prop := ∃ post, calls q = .call a :: post

/-- `eval` runs the steps of an invocation with one unit of fuel less. -/
structure Fuelled (eval : ℕ → Q → Run ε Unit) : Prop where
  zero : ∀ q, eval 0 q = .out
  succ : ∀ n q, eval (n + 1) q = runSteps (eval n) (calls q)

variable {calls} {eval : ℕ → Q → Run ε Unit}

variable {s : List (Step ε Q)}

theorem runSteps_mono {f g : Q → Run ε Unit} (h : ∀ q, f q ≠ .out → g q = f q) (hs : runSteps f s ≠ .out) : runSteps g s = runSteps f s := by
  induction s with
  | nil => rfl
  | cons x s ih =>
    cases x with
    | fail e => rfl
    | call q =>
      simp only [runSteps] at hs ⊢
      cases hq : f q with
      | out => simp [hq] at hs
      | fail e => rw [h q (by simp [hq]), hq]; rfl
      | ok a =>
        rw [hq] at hs
        rw [h q (by simp [hq]), hq]
        exact ih hs

variable {n : ℕ} {q : Q}

theorem Fuelled.mono (h : Fuelled calls eval) {m : ℕ} (hnm : n ≤ m)
    (hq : eval n q ≠ .out) : eval m q = eval n q := by
  induction n generalizing m q with
  | zero => exact absurd (h.zero q) hq
  | succ n ih =>
    obtain ⟨m, rfl⟩ : ∃ k, m = k + 1 := ⟨m - 1, by omega⟩
    rw [h.succ] at hq
    rw [h.succ, h.succ]
    exact runSteps_mono (fun a ha => ih (by omega) ha) hq

theorem Fuelled.exists_steps_ok (h : Fuelled calls eval)
    (hfail : ∀ e, Step.fail e ∉ s) (hcall : ∀ a, Step.call a ∈ s → ∃ n, eval n a = .ok ()) :
    ∃ n, ∀ m, n ≤ m → runSteps (eval m) s = .ok () := by
  induction s with
  | nil => exact ⟨0, fun _ _ => rfl⟩
  | cons x s ih =>
    cases x with
    | fail e => exact absurd List.mem_cons_self (hfail e)
    | call q =>
      obtain ⟨n, hn⟩ := hcall q List.mem_cons_self
      obtain ⟨n', hn'⟩ := ih (fun e he => hfail e (List.mem_cons_of_mem _ he))
        fun a ha => hcall a (List.mem_cons_of_mem _ ha)
      refine ⟨max n n', fun m hm => ?_⟩
      rw [runSteps, h.mono ((Nat.le_max_left _ _).trans hm) (by simp [hn]), hn]
      exact hn' m ((Nat.le_max_right _ _).trans hm)

theorem runSteps_eq_ok {f : Q → Run ε Unit} (hs : runSteps f s = .ok ()) :
    (∀ e, Step.fail e ∉ s) ∧ ∀ a, Step.call a ∈ s → f a = .ok () := by
  induction s with
  | nil => simp
  | cons x s ih =>
    cases x with
    | fail e => cases hs
    | call q =>
      rw [runSteps] at hs
      cases hq : f q with
      | out => rw [hq] at hs; cases hs
      | fail e => rw [hq] at hs; cases hs
      | ok a =>
        rw [hq] at hs
        obtain ⟨hfail, hcall⟩ := ih hs
        refine ⟨fun e he => ?_, fun b hb => ?_⟩
        · rcases List.mem_cons.mp he with he | he
          · cases he
          · exact hfail e he
        · rcases List.mem_cons.mp hb with hb | hb
          · cases hb; exact hq
          · exact hcall b hb

theorem Fuelled.opens (h : Fuelled calls eval) {a : Q} (hopens : Opens calls q a)
    (hq : eval (n + 1) q ≠ .out) : eval n a ≠ .out := by
  obtain ⟨post, hcalls⟩ := hopens
  intro ha
  rw [h.succ, hcalls, runSteps, ha] at hq
  exact hq rfl

/-- **Some fuel suffices when no chain of calls goes on for ever.** -/
theorem Fuelled.returns_of_acc (h : Fuelled calls eval)
    (hacc : Acc (fun a b => Step.call a ∈ calls b) q) : ∃ n, eval n q ≠ .out := by
  induction hacc with
  | intro q _ ih =>
    have hsteps : ∀ s : List (Step ε Q), (∀ a, Step.call a ∈ s → ∃ n, eval n a ≠ .out) →
        ∃ n, ∀ m, n ≤ m → runSteps (eval m) s ≠ .out := by
      intro s
      induction s with
      | nil => exact fun _ => ⟨0, fun _ _ => by simp [runSteps]⟩
      | cons x s ihs =>
        intro hs
        cases x with
        | fail e => exact ⟨0, fun _ _ => by simp [runSteps]⟩
        | call a =>
          obtain ⟨n, hn⟩ := hs a List.mem_cons_self
          obtain ⟨n', hn'⟩ := ihs fun b hb => hs b (List.mem_cons_of_mem _ hb)
          refine ⟨max n n', fun m hm => ?_⟩
          have hm' := hn' m ((Nat.le_max_right _ _).trans hm)
          rw [runSteps, h.mono ((Nat.le_max_left _ _).trans hm) hn]
          cases ha : eval n a with
          | out => exact absurd ha hn
          | fail e => simp
          | ok u => exact hm'
    obtain ⟨n, hn⟩ := hsteps (calls q) ih
    exact ⟨n + 1, by rw [h.succ]; exact hn n le_rfl⟩

/-- A cycle of first calls uses up any fuel. -/
theorem Fuelled.out_of_cycle (h : Fuelled calls eval)
    (hq : TransGen (Opens calls) q q) (n : ℕ) : eval n q = .out := by
  have hchain : ∀ {a b : Q}, TransGen (Opens calls) a b → ∀ n, eval n a ≠ .out →
      ∃ m < n, eval m b ≠ .out := by
    have hstep : ∀ {a b : Q}, Opens calls a b → ∀ n, eval n a ≠ .out → ∃ m < n, eval m b ≠ .out := by
      intro a b hab n hn
      cases n with
      | zero => exact absurd (h.zero a) hn
      | succ n => exact ⟨n, Nat.lt_succ_self n, h.opens hab hn⟩
    intro a b hab
    induction hab with
    | single hab => exact hstep hab
    | tail _ hbc ih =>
      intro n hn
      obtain ⟨m, hm, hb⟩ := ih n hn
      obtain ⟨k, hk, hc⟩ := hstep hbc m hb
      exact ⟨k, hk.trans hm, hc⟩
  induction n using Nat.strong_induction_on with
  | _ n ih =>
    by_contra hn
    obtain ⟨m, hm, hreturn⟩ := hchain hq n hn
    exact hreturn (ih m hm)

variable (calls) in
/-- A set of arguments that is closed under calls and in which nothing fails. -/
structure NeverFails (S : Q → Prop) : Prop where
  no_fail : ∀ q, S q → ∀ e, Step.fail e ∉ calls q
  call : ∀ q, S q → ∀ a, Step.call a ∈ calls q → S a

variable {S : Q → Prop}

theorem Fuelled.ok_of_no_fail (h : Fuelled calls eval) (hS : NeverFails calls S) (hq : S q)
    (hn : eval n q ≠ .out) : eval n q = .ok () := by
  induction n generalizing q with
  | zero => exact absurd (h.zero q) hn
  | succ n ih =>
    rw [h.succ] at hn ⊢
    have hsteps : ∀ s : List (Step ε Q), (∀ e, Step.fail e ∉ s) → (∀ a, Step.call a ∈ s → S a) →
        runSteps (eval n) s ≠ .out → runSteps (eval n) s = .ok () := by
      intro s
      induction s with
      | nil => intro _ _ _; rfl
      | cons x s ihs =>
        intro hf hc hs
        cases x with
        | fail e => exact absurd List.mem_cons_self (hf e)
        | call a =>
          rw [runSteps] at hs ⊢
          have ha : eval n a ≠ .out := fun ha => hs (by rw [ha]; rfl)
          rw [ih (hc a List.mem_cons_self) ha] at hs ⊢
          exact ihs (fun e he => hf e (List.mem_cons_of_mem _ he))
            (fun b hb => hc b (List.mem_cons_of_mem _ hb)) hs
    exact hsteps _ (hS.no_fail q hq) (hS.call q hq) hn

theorem Fuelled.call_returns (h : Fuelled calls eval) (hS : NeverFails calls S) {a : Q} (hq : S q)
    (hn : eval n q ≠ .out) (ha : Step.call a ∈ calls q) : ∃ m < n, eval m a ≠ .out := by
  cases n with
  | zero => exact absurd (h.zero q) hn
  | succ n =>
    have hok := h.ok_of_no_fail hS hq hn
    rw [h.succ] at hok
    exact ⟨n, Nat.lt_succ_self n, by rw [(runSteps_eq_ok hok).2 a ha]; simp⟩

end

/-! ### Cycles -/

/-- Where finitely many elements are reached, and none of them from itself, no chain is infinite. -/
theorem acc_of_no_cycle {α : Type*} {r : α → α → Prop} {a : α}
    (hfin : {x | ReflTransGen r a x}.Finite) (hno : ∀ x, ReflTransGen r a x → ¬TransGen r x x) :
    Acc (fun x y => r y x) a := by
  have hfinite : Finite {x // ReflTransGen r a x} := hfin
  have htrans : IsTrans {x // ReflTransGen r a x}
      fun x y => TransGen r y.1 x.1 := ⟨fun _ _ _ hxy hyz => hyz.trans hxy⟩
  have hirrefl : Std.Irrefl fun x y : {x // ReflTransGen r a x} =>
      TransGen r y.1 x.1 := ⟨fun x => hno x.1 x.2⟩
  have hwf := Finite.wellFounded_of_trans_of_irrefl
    fun x y : {x // ReflTransGen r a x} => TransGen r y.1 x.1
  have hacc : ∀ s : {x // ReflTransGen r a x}, Acc (fun x y => r y x) s.1 := by
    intro s
    induction s using hwf.induction with
    | _ s ih => exact ⟨s.1, fun b hb => ih ⟨b, s.2.tail hb⟩ (.single hb)⟩
  exact hacc ⟨a, .refl⟩

end BamlRest
