import Mathlib

/-!
# Recursion on a shrinking argument, by fuel

A recursive function of the source is written here as a functional `F`, whose first argument stands
for the recursive calls.

* `fuelRec`: the fixed point, for an `F` that only asks about smaller arguments.
-/

namespace BamlRest

variable {α β : Type*}

/-- Unfold the functional `F` at most `n` times, falling back to `d`. -/
def fuelRec (F : (α → β) → α → β) (d : α → β) : ℕ → α → β
  | 0 => d
  | n + 1 => F (fuelRec F d n)

/-- Unfold the functional `F` as often as the measure of the argument asks for. -/
def fixBy (μ : α → ℕ) (F : (α → β) → α → β) (d : α → β) (a : α) : β :=
  fuelRec F d (μ a + 1) a

section

variable {μ : α → ℕ} {F : (α → β) → α → β} {d : α → β} {P : α → β → Prop}

theorem fuelRec_ok (hd : ∀ a, P a (d a))
    (hOk : ∀ f, (∀ a, P a (f a)) → ∀ a, P a (F f a)) (n : ℕ) (a : α) : P a (fuelRec F d n a) := by
  induction n generalizing a with
  | zero => exact hd a
  | succ n ih => exact hOk _ ih a

theorem fuelRec_congr (hd : ∀ a, P a (d a)) (hOk : ∀ f, (∀ a, P a (f a)) → ∀ a, P a (F f a))
    (hF : ∀ f g, (∀ a, P a (f a)) → (∀ a, P a (g a)) →
      ∀ a, (∀ b, μ b < μ a → f b = g b) → F f a = F g a)
    {n m : ℕ} {a : α} (hn : μ a < n) (hm : μ a < m) : fuelRec F d n a = fuelRec F d m a := by
  induction n generalizing m a with
  | zero => exact absurd hn (Nat.not_lt_zero _)
  | succ n ih =>
    cases m with
    | zero => exact absurd hm (Nat.not_lt_zero _)
    | succ m =>
      refine hF _ _ (fuelRec_ok hd hOk n) (fuelRec_ok hd hOk m) a fun b hb => ?_
      exact ih (Nat.lt_of_lt_of_le hb (Nat.le_of_lt_succ hn))
        (Nat.lt_of_lt_of_le hb (Nat.le_of_lt_succ hm))

theorem fixBy_ok (hd : ∀ a, P a (d a))
    (hOk : ∀ f, (∀ a, P a (f a)) → ∀ a, P a (F f a)) (a : α) : P a (fixBy μ F d a) :=
  fuelRec_ok hd hOk _ a

/-- **The recursion equation**: fuelled recursion at the measure is a fixed point of `F`. -/
theorem fixBy_eq (hd : ∀ a, P a (d a)) (hOk : ∀ f, (∀ a, P a (f a)) → ∀ a, P a (F f a))
    (hF : ∀ f g, (∀ a, P a (f a)) → (∀ a, P a (g a)) →
      ∀ a, (∀ b, μ b < μ a → f b = g b) → F f a = F g a) (a : α) :
    fixBy μ F d a = F (fixBy μ F d) a := by
  change F (fuelRec F d (μ a)) a = F (fixBy μ F d) a
  refine hF _ _ (fuelRec_ok hd hOk _) (fixBy_ok hd hOk) a fun b hb => ?_
  exact fuelRec_congr hd hOk hF hb (Nat.lt_succ_self _)

theorem fixBy_eq_of_shrinking (hF : ∀ f g a, (∀ b, μ b < μ a → f b = g b) → F f a = F g a) (a : α) :
    fixBy μ F d a = F (fixBy μ F d) a :=
  fixBy_eq (P := fun _ _ => True) (fun _ => trivial) (fun _ _ _ => trivial)
    (fun f g _ _ a h => hF f g a h) a

theorem fuelRec_eq_fixBy (hF : ∀ f g a, (∀ b, μ b < μ a → f b = g b) → F f a = F g a)
    (d' : α → β) {n : ℕ} {a : α} (hn : μ a < n) : fuelRec F d' n a = fixBy μ F d a := by
  induction n generalizing a with
  | zero => exact absurd hn (Nat.not_lt_zero _)
  | succ n ih =>
    rw [fixBy_eq_of_shrinking hF]
    refine hF _ _ a ?_
    intro b hb
    exact ih (Nat.lt_of_lt_of_le hb (Nat.le_of_lt_succ hn))

end

/-! ### Readers -/

/-- Two results of a reader are the same, and what they leave is within a bound. -/
def SameWithin {α δ : Type*} (μ : δ → ℕ) (n : ℕ) (x y : Option (α × δ)) : Prop :=
  x = y ∧ ∀ a r, y = some (a, r) → μ r ≤ n

namespace SameWithin

variable {δ : Type*} {μ : δ → ℕ} {m n : ℕ} {x y x' y' : Option (α × δ)}

theorem refl (h : ∀ a r, x = some (a, r) → μ r ≤ n) : SameWithin μ n x x := ⟨rfl, h⟩

theorem none : SameWithin μ n (.none : Option (α × δ)) .none := refl nofun

theorem some {a : α} {r} (h : μ r ≤ n) : SameWithin μ n (.some (a, r)) (.some (a, r)) :=
  refl fun _ _ heq => by cases heq; exact h

theorem ite {p : Prop} [Decidable p] (h : SameWithin μ n x y) (h' : SameWithin μ n x' y') :
    SameWithin μ n (if p then x else x') (if p then y else y') := by
  split_ifs
  · exact h
  · exact h'

theorem bind {k k' : α × δ → Option (β × δ)} (h : SameWithin μ m x y)
    (hk : ∀ a r, μ r ≤ m → SameWithin μ n (k (a, r)) (k' (a, r))) :
    SameWithin μ n (x.bind k) (y.bind k') := by
  obtain ⟨rfl, hm⟩ := h
  rcases x with - | ⟨a, r⟩
  · exact none
  · exact hk a r (hm a r rfl)

end SameWithin

end BamlRest
