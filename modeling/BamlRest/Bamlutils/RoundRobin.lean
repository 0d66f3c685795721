import BamlRest.Text.Bytes
import BamlRest.Lib.Rotation

/-!
# The in-process round-robin coordinator

`roundrobin.Coordinator` keeps one unsigned 64-bit counter per client. `Advance` hands out the old
value of the counter modulo the number of children.
-/

namespace BamlRest

/-! ## Machine integers -/

theorem toNat_toUInt64_of_pos {n : Int64} (hn : 0 < n) :
    n.toUInt64.toNat = n.toNatClampNeg ∧ 0 < n.toNatClampNeg ∧ n.toNatClampNeg < 2 ^ 63 := by
  have hpos : (0 : ℤ) < n.toBitVec.toInt := Int64.lt_iff_toInt_lt.mp hn
  have hcond := BitVec.toInt_eq_toNat_cond n.toBitVec
  have hlt := n.toBitVec.isLt
  have hbits : n.toUInt64.toNat = n.toBitVec.toNat := rfl
  have hclamp : n.toNatClampNeg = n.toBitVec.toInt.toNat := rfl
  rw [hbits, hclamp]
  split at hcond <;> omega

theorem toNatClampNeg_mod (v) {n : Int64} (hn : 0 < n) :
    (v % n.toUInt64).toInt64.toNatClampNeg = v.toNat % n.toNatClampNeg := by
  obtain ⟨hnat, hpos, hlt⟩ := toNat_toUInt64_of_pos hn
  have hmod : (v % n.toUInt64).toNat = v.toNat % n.toNatClampNeg := by
    rw [UInt64.toNat_mod, hnat]
  have hsmall : (v % n.toUInt64).toNat < 2 ^ 63 := by
    rw [hmod]
    exact (Nat.mod_lt _ hpos).trans hlt
  have hcond := BitVec.toInt_eq_toNat_cond (v % n.toUInt64).toBitVec
  have hbits : (v % n.toUInt64).toBitVec.toNat = (v % n.toUInt64).toNat := rfl
  have hclamp : (v % n.toUInt64).toInt64.toNatClampNeg =
      (v % n.toUInt64).toBitVec.toInt.toNat := rfl
  rw [hclamp, hcond, if_pos (by rw [hbits]; omega), Int.toNat_natCast, hbits, hmod]

/-! ## The coordinator -/

/-- `Coordinator`: the counters, the configured seeds, and what the random source hands to a
client without one. -/
structure Coordinator where
  counters : Bytes → Option UInt64
  starts : Bytes → Option UInt64
  randSeed : Bytes → UInt32

namespace Coordinator

/-- `NewCoordinatorWithStarts`. A negative start is reinterpreted as unsigned. -/
def newCoordinatorWithStarts (starts : Bytes → Option Int64) (randSeed : Bytes → UInt32) :
    Coordinator where
  counters := fun _ => none
  starts := fun name => (starts name).map Int64.toUInt64
  randSeed := randSeed

/-- `counterFor`: the value of the client's counter, which the first call creates. -/
def counterFor (c : Coordinator) (clientName : Bytes) : UInt64 :=
  match c.counters clientName with
  | some v => v
  | none =>
    match c.starts clientName with
    | some seed => seed
    | none => (c.randSeed clientName).toUInt64

/-- `Advance`. A child count that is not positive leaves the coordinator as it is. -/
def advance (c : Coordinator) (clientName : Bytes) (childCount : Int64) : Int64 × Coordinator :=
  if childCount ≤ 0 then (0, c)
  else
    let added := c.counterFor clientName + 1
    let next := added - 1
    ((next % childCount.toUInt64).toInt64,
      { c with counters := Function.update c.counters clientName (some added) })

variable (c : Coordinator) (name : Bytes) {n : Int64}

theorem advance_fst (hn : 0 < n) :
    (c.advance name n).1 = (c.counterFor name % n.toUInt64).toInt64 := by
  have hn' : ¬n ≤ 0 := by rwa [Int64.not_le]
  simp [advance, hn']

theorem counterFor_advance_self (hn : 0 < n) :
    (c.advance name n).2.counterFor name = c.counterFor name + 1 := by
  have hn' : ¬n ≤ 0 := by rwa [Int64.not_le]
  simp [advance, hn', counterFor]

theorem counterFor_advance_of_ne {other} (h : other ≠ name) (k) :
    (c.advance other k).2.counterFor name = c.counterFor name := by
  unfold advance
  split
  · rfl
  · simp [counterFor, Function.update_of_ne h.symm]

end Coordinator

/-! ## Runs of calls -/

section

variable {σ κ : Type*} (client : κ → Bytes) (advance : σ → κ → Int64 × σ) (name : Bytes)

/-- The indices that a run of calls hands to the calls of one client, in order. -/
def indices : σ → List κ → List Int64
  | _, [] => []
  | s, x :: xs =>
    let (i, s') := advance s x
    if client x = name then i :: indices s' xs else indices s' xs

variable {client advance name}

theorem indices_eq_readings {n : Int64} (hn : 0 < n) (value : σ → UInt64) (I : σ → List κ → Prop)
    (hown : ∀ s x xs, I s (x :: xs) → client x = name →
      (advance s x).1 = (value s % n.toUInt64).toInt64 ∧
        value (advance s x).2 = value s + 1 ∧ I (advance s x).2 xs)
    (hother : ∀ s x xs, I s (x :: xs) → client x ≠ name →
      value (advance s x).2 = value s ∧ I (advance s x).2 xs) (s : σ) (calls) (hI : I s calls) :
    (indices client advance name s calls).map Int64.toNatClampNeg =
      readings (2 ^ 64) n.toNatClampNeg (value s).toNat
        (calls.countP fun x => client x = name) := by
  induction calls generalizing s with
  | nil => rfl
  | cons x xs ih =>
    by_cases hx : client x = name
    · obtain ⟨hindex, hvalue, hI'⟩ := hown s x xs hI hx
      have hlt : (value s).toNat < 2 ^ 64 := (value s).toNat_lt
      simp only [indices, hx, if_true, List.map_cons, decide_true, List.countP_cons_of_pos]
      rw [readings_succ, ih _ hI', hindex, toNatClampNeg_mod _ hn, hvalue, UInt64.toNat_add,
        Nat.mod_eq_of_lt hlt]
      rfl
    obtain ⟨hvalue, hI'⟩ := hother s x xs hI hx
    simp only [indices, hx, if_false, decide_false, List.countP_cons, Bool.false_eq_true,
      Nat.add_zero]
    rw [ih _ hI', hvalue]

end

/-- A call of `Advance`. -/
structure AdvanceCall where
  clientName : Bytes
  childCount : Int64

def Coordinator.call (c : Coordinator) (x : AdvanceCall) : Int64 × Coordinator :=
  c.advance x.clientName x.childCount

theorem Coordinator.indices_eq {name n} (hn : 0 < n) (c)
    (calls) (hcalls : ∀ x ∈ calls, x.clientName = name → x.childCount = n) :
    (indices AdvanceCall.clientName Coordinator.call name c calls).map Int64.toNatClampNeg =
      readings (2 ^ 64) n.toNatClampNeg (c.counterFor name).toNat
        (calls.countP fun x => x.clientName = name) := by
  apply indices_eq_readings hn (fun c : Coordinator => c.counterFor name)
    (fun _ (calls : List AdvanceCall) => ∀ x ∈ calls, x.clientName = name → x.childCount = n)
  · intro c x xs hI hx
    have hcount : x.childCount = n := hI x (List.mem_cons_self ..) hx
    unfold Coordinator.call
    rw [hx, hcount]
    exact ⟨c.advance_fst name hn, c.counterFor_advance_self name hn,
      fun y hy => hI y (List.mem_cons_of_mem _ hy)⟩
  · intro c x xs hI hx
    exact ⟨c.counterFor_advance_of_ne name hx _, fun y hy => hI y (List.mem_cons_of_mem _ hy)⟩
  · exact hcalls

end BamlRest
