import Mathlib

/-!
# Ordered trees

Trees of arrays and of objects whose members have an order, over arbitrary keys and leaves.
-/

namespace BamlRest

/-- Trees with ordered members. -/
inductive OTree (K L : Type*) where
  | leaf (l : L)
  | arr (ts : List (OTree K L))
  | obj (ms : List (K × OTree K L))

namespace OTree

variable {K L : Type*}

/-- No object has a key twice. -/
inductive Distinct : OTree K L → Prop where
  | leaf (l : L) : Distinct (.leaf l)
  | arr {ts} (h : ∀ t ∈ ts, Distinct t) : Distinct (.arr ts)
  | obj {ms} (hkeys : (ms.map Prod.fst).Nodup) (h : ∀ m ∈ ms, Distinct m.2) : Distinct (.obj ms)

mutual

/-- The nesting of a tree. -/
def depth : OTree K L → ℕ
  | .leaf _ => 0
  | .arr ts => depthAll ts + 1
  | .obj ms => depthMembers ms + 1

def depthAll : List (OTree K L) → ℕ
  | [] => 0
  | t :: ts => max (depth t) (depthAll ts)

def depthMembers : List (K × OTree K L) → ℕ
  | [] => 0
  | (_, t) :: ms => max (depth t) (depthMembers ms)

end

variable {ts : List (OTree K L)} {n : ℕ}

theorem depthAll_le_iff : depthAll ts ≤ n ↔ ∀ t ∈ ts, depth t ≤ n := by
  induction ts with
  | nil => simp [depthAll]
  | cons t ts ih => simp [depthAll, ih]

variable {ms : List (K × OTree K L)}

theorem depthMembers_le_iff : depthMembers ms ≤ n ↔ ∀ m ∈ ms, depth m.2 ≤ n := by
  induction ms with
  | nil => simp [depthMembers]
  | cons m ms ih => simp [depthMembers, ih]

theorem depth_lt_of_mem_arr {t} (h : t ∈ ts) : depth t < depth (.arr ts) := by
  rw [depth]
  exact Nat.lt_succ_of_le (depthAll_le_iff.mp le_rfl t h)

theorem depth_lt_of_mem_obj {m} (h : m ∈ ms) : depth m.2 < depth (.obj ms) := by
  rw [depth]
  exact Nat.lt_succ_of_le (depthMembers_le_iff.mp le_rfl m h)

/-! ### Sorting -/

section

variable (le : K → K → Prop) [DecidableRel le]

def sortByKey (ms : List (K × OTree K L)) : List (K × OTree K L) :=
  ms.insertionSort fun a b => le a.1 b.1

mutual

/-- The members of all objects in the order of their keys. -/
def sort : OTree K L → OTree K L
  | .leaf l => .leaf l
  | .arr ts => .arr (sortAll ts)
  | .obj ms => .obj (sortByKey le (sortMembers ms))

def sortAll : List (OTree K L) → List (OTree K L)
  | [] => []
  | t :: ts => sort t :: sortAll ts

def sortMembers : List (K × OTree K L) → List (K × OTree K L)
  | [] => []
  | (k, t) :: ms => (k, sort t) :: sortMembers ms

end

theorem sortAll_eq_map (ts : List (OTree K L)) : sortAll le ts = ts.map (sort le) := by
  induction ts with
  | nil => rfl
  | cons t ts ih => rw [sortAll, ih, List.map_cons]

theorem sortMembers_eq_map (ms : List (K × OTree K L)) :
    sortMembers le ms = ms.map fun m => (m.1, sort le m.2) := by
  induction ms with
  | nil => rfl
  | cons m ms ih => rw [sortMembers, ih, List.map_cons]

@[simp] theorem sort_arr (ts : List (OTree K L)) : sort le (.arr ts) = .arr (ts.map (sort le)) := by
  rw [sort, sortAll_eq_map]

theorem sort_obj (ms : List (K × OTree K L)) :
    sort le (.obj ms) = .obj (sortByKey le (ms.map fun m => (m.1, sort le m.2))) := by
  rw [sort, sortMembers_eq_map]

theorem perm_sortByKey (ms : List (K × OTree K L)) : (sortByKey le ms).Perm ms :=
  List.perm_insertionSort _ ms

variable (htotal : ∀ a b, le a b ∨ le b a) (htrans : ∀ a b c, le a b → le b c → le a c)
  (hanti : ∀ a b, le a b → le b a → a = b)

include htotal htrans hanti

variable {ms' ms : List (K × OTree K L)}

theorem sortByKey_eq_of_perm (h : ms.Perm ms')
    (hkeys : (ms.map Prod.fst).Nodup) : sortByKey le ms = sortByKey le ms' := by
  have hpairwise : ∀ l : List (K × OTree K L),
      (sortByKey le l).Pairwise fun a b => le a.1 b.1 := fun l =>
    haveI : Std.Total fun a b : K × OTree K L => le a.1 b.1 := ⟨fun a b => htotal a.1 b.1⟩
    haveI : IsTrans (K × OTree K L) fun a b => le a.1 b.1 :=
      ⟨fun a b c => htrans a.1 b.1 c.1⟩
    List.pairwise_insertionSort _ l
  refine List.Perm.eq_of_pairwise ?_ (hpairwise ms) (hpairwise ms')
    ((perm_sortByKey le ms).trans (h.trans (perm_sortByKey le ms').symm))
  -- two members with one key are one member
  intro a b ha hb hab hba
  have ha : a ∈ ms := (perm_sortByKey le ms).subset ha
  have hb : b ∈ ms := h.symm.subset ((perm_sortByKey le ms').subset hb)
  exact List.inj_on_of_nodup_map hkeys ha hb (hanti _ _ hab hba)

/-- **The sorted form of an object depends only on its keys and the sorted forms of its members,
in any order.** -/
theorem sort_obj_eq (hkeys : (ms.map Prod.fst).Nodup)
    (h : (ms.map fun m => (m.1, sort le m.2)).Perm (ms'.map fun m => (m.1, sort le m.2))) :
    sort le (.obj ms) = sort le (.obj ms') := by
  rw [sort_obj, sort_obj]
  refine congrArg obj (sortByKey_eq_of_perm le htotal htrans hanti h ?_)
  rw [List.map_map]
  exact hkeys

end

end OTree

end BamlRest
