import Mathlib

/-!
# Rotations read off a wrapping counter

A rotation over `n` places is kept as a counter that wraps at `M`, and the place is the value of the
counter modulo `n`.
-/

namespace BamlRest

open Nat List

/-- The places read by `m` successive ticks of a counter modulo `M` that stands at `c`. -/
def readings (M n c m : ℕ) : List ℕ :=
  (List.range m).map fun i => (c + i) % M % n

@[simp] theorem length_readings (M n c m : ℕ) : (readings M n c m).length = m := by
  simp [readings]

theorem readings_succ (M n c m : ℕ) :
    readings M n c (m + 1) = c % M % n :: readings M n ((c + 1) % M) m := by
  have hshift : ∀ i, (c + (i + 1)) % M % n = ((c + 1) % M + i) % M % n := by
    intro i
    rw [mod_add_mod, Nat.add_assoc, Nat.add_comm 1 i]
  simp [readings, range_succ_eq_map, Function.comp_def, hshift]

/-- Each place follows the one before it, and every run of `k * n` places is fair. -/
def Rotates (n : ℕ) (is : List ℕ) : Prop :=
  (∀ i (h : i + 1 < is.length), is[i + 1] = (is[i] + 1) % n) ∧
    ∀ k i, i + k * n ≤ is.length → ∀ r < n, ((is.drop i).take (k * n)).count r = k

theorem count_block {n : ℕ} (a : ℕ) {r : ℕ} (hr : r < n) :
    ((List.range n).map fun i => (a + i) % n).count r = 1 := by
  have hn : 0 < n := by omega
  apply count_eq_one_of_mem
  · apply nodup_range.map_on
    intro i hi j hj hij
    have hmod : i ≡ j [MOD n] := Nat.ModEq.add_left_cancel' a hij
    rwa [Nat.ModEq, mod_eq_of_lt (mem_range.mp hi),
      mod_eq_of_lt (mem_range.mp hj)] at hmod
  have ha := mod_lt a hn
  have hplace : (a + (n - a % n + r) % n) % n = r := by
    have hcancel : a % n + (n - a % n + r) = n + r := by omega
    rw [add_mod_mod, ← mod_add_mod, hcancel, add_mod_left, mod_eq_of_lt hr]
  exact mem_map.mpr ⟨(n - a % n + r) % n, mem_range.mpr (mod_lt _ hn), hplace⟩

theorem count_blocks {n : ℕ} (a k : ℕ) {r : ℕ} (hr : r < n) :
    ((List.range (k * n)).map fun i => (a + i) % n).count r = k := by
  induction k with
  | zero => simp
  | succ k ih =>
    have hshift : ∀ i, (a + (k * n + i)) % n = (a + i) % n := by
      intro i
      rw [Nat.add_left_comm, mul_add_mod_self_right]
    rw [succ_mul, range_add, map_append, count_append, ih, map_map]
    simp only [Function.comp_def, hshift, count_block a hr]

theorem rotates_of_mod {n : ℕ} (c m : ℕ) : Rotates n ((List.range m).map fun i => (c + i) % n) := by
  constructor
  · intro i h
    simp only [getElem_map, getElem_range]
    rw [mod_add_mod, Nat.add_assoc]
  intro k i hi r hr
  simp only [length_map, length_range] at hi
  have hwindow : (((List.range m).map fun j => (c + j) % n).drop i).take (k * n) =
      (List.range (k * n)).map fun j => (c + i + j) % n := by
    apply ext_getElem
    · simp
      omega
    · intro j h1 h2
      simp [Nat.add_assoc]
  rw [hwindow, count_blocks (c + i) k hr]

theorem rotates_readings_iff {M n c : ℕ} (hc : c < M) (m : ℕ) :
    Rotates n (readings M n c m) ↔ c + m ≤ M ∨ n ∣ M := by
  constructor
  · rintro ⟨hstep, -⟩
    by_contra hcon
    obtain ⟨hwrap, hdvd⟩ := not_or.mp hcon
    -- the tick that wraps reads `M - 1`, and the next one `0`
    have hlast := hstep (M - 1 - c) (by rw [length_readings]; omega)
    simp only [readings, getElem_map, getElem_range] at hlast
    rw [show c + (M - 1 - c + 1) = M by omega, show c + (M - 1 - c) = M - 1 by omega,
      mod_self, zero_mod, mod_eq_of_lt (show M - 1 < M by omega), mod_add_mod,
      show M - 1 + 1 = M by omega] at hlast
    exact hdvd (dvd_of_mod_eq_zero hlast.symm)
  intro h
  have hplain : readings M n c m = (List.range m).map fun i => (c + i) % n := by
    apply map_congr_left
    intro i hi
    rw [mem_range] at hi
    rcases h with hle | hdvd
    · rw [mod_eq_of_lt (show c + i < M by omega)]
    · exact mod_mod_of_dvd _ hdvd
  rw [hplain]
  exact rotates_of_mod c m

end BamlRest
