import Mathlib

/-!
# Computations on a state

A computation of `StateM σ` runs from every state.
-/

namespace BamlRest.Effects

variable {σ α β : Type}

theorem run_pure (a : α) (s : σ) : (pure a : StateM σ α).run s = (a, s) := rfl

theorem run_bind (m) (f : α → StateM σ β) (s : σ) :
    (m >>= f).run s = (f (m.run s).1).run (m.run s).2 := rfl

theorem run_modify (f : σ → σ) (s : σ) : (modify f : StateM σ PUnit).run s = (⟨⟩, f s) := rfl

theorem run_get (s : σ) : (get : StateM σ σ).run s = (s, s) := rfl

/-- The computation relates every state to the one it leaves. -/
def Moves (R : σ → σ → Prop) (m : StateM σ α) : Prop :=
  ∀ s, R s (m.run s).2

namespace Moves

variable {R : σ → σ → Prop} {m : StateM σ α} {f : α → StateM σ β}

theorem pure [Std.Refl R] (a : α) : Moves R (pure a : StateM σ α) :=
  fun s => Std.Refl.refl s

theorem bind [IsTrans σ R] (hm : Moves R m) (hf : ∀ a, Moves R (f a)) : Moves R (m >>= f) :=
  fun s => IsTrans.trans _ _ _ (hm s) (hf _ _)

theorem modify {g : σ → σ} (h : ∀ s, R s (g s)) : Moves R (modify g : StateM σ PUnit) :=
  h

theorem ite {m'} {c : Prop} [Decidable c] (hm : c → Moves R m)
    (hm' : ¬c → Moves R m') : Moves R (if c then m else m') := by
  split
  · exact hm ‹_›
  · exact hm' ‹_›

end Moves

end BamlRest.Effects
