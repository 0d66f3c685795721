import Mathlib.Logic.Relation
import Mathlib.Order.Defs.LinearOrder
import Mathlib.Data.List.Sort

/-!
# Strongly connected components

`internal/nativeschema/recursion.go`: `tarjanSCC` finds the components of a graph that contain a
cycle, by a depth-first search in ascending order.
-/

namespace BamlRest.NativeSchema

/-- `map[int]map[int]bool`: the keys, and the successors of a key. A node that is no key has no
successors. -/
structure Graph (α : Type) [LinearOrder α] where
  nodes : List α
  succ : α → List α
  nodes_sorted : nodes.Pairwise (· < ·)
  succ_sorted : ∀ v, (succ v).Pairwise (· < ·)
  succ_nil : ∀ v, v ∉ nodes → succ v = []

/-- `tarjanState`, the stack with its top first. -/
structure TarjanState (α : Type) where
  index : ℕ
  stack : List α
  idxOf : α → ℕ
  lowlink : α → ℕ
  onStack : α → Bool
  visited : α → Bool
  components : List (List α)

variable {α : Type} [LinearOrder α]

namespace TarjanState

/-- Before the search. -/
def start : TarjanState α :=
  ⟨0, [], fun _ => 0, fun _ => 0, fun _ => false, fun _ => false, []⟩

/-- The first statements of `strongConnect`: a node gets its index and goes on the stack. -/
def enter (t : TarjanState α) (v : α) : TarjanState α :=
  { t with
    index := t.index + 1
    stack := v :: t.stack
    idxOf := Function.update t.idxOf v t.index
    lowlink := Function.update t.lowlink v t.index
    onStack := Function.update t.onStack v true
    visited := Function.update t.visited v true }

def relax (t : TarjanState α) (v : α) (n : ℕ) : TarjanState α :=
  if n < t.lowlink v then { t with lowlink := Function.update t.lowlink v n } else t

end TarjanState

def eachSucc (rec : TarjanState α → α → Option (TarjanState α)) (v : α) :
    List α → TarjanState α → Option (TarjanState α)
  | [], t => some t
  | w :: ws, t =>
    if !t.visited w then do
      let t ← rec t w
      eachSucc rec v ws (t.relax v (t.lowlink w))
    else if t.onStack w then eachSucc rec v ws (t.relax v (t.idxOf w))
    else eachSucc rec v ws t

def popTo (v : α) : List α → Option (List α × List α)
  | [] => none
  | w :: stack =>
    if w = v then some ([w], stack) else (popTo v stack).map fun p => (w :: p.1, p.2)

/-- The position of the first smallest member, from position `i` on. -/
def minIdxFrom (i best : ℕ) (m : α) : List α → ℕ
  | [] => best
  | c :: cs => if c < m then minIdxFrom (i + 1) i c cs else minIdxFrom (i + 1) best m cs

def rotated : List α → List α
  | [] => []
  | c :: cs =>
    let minIdx := minIdxFrom 1 0 c cs
    (c :: cs).drop minIdx ++ (c :: cs).take minIdx

/-- The last statements of `strongConnect`: the root of a component takes it off the stack. -/
def finish (g : Graph α) (t : TarjanState α) (v : α) : Option (TarjanState α) :=
  if t.lowlink v ≠ t.idxOf v then some t
  else
    (popTo v t.stack).map fun p =>
      let comp := p.1.reverse
      { t with
        stack := p.2
        onStack := fun w => if w ∈ p.1 then false else t.onStack w
        components :=
          if comp.length = 1 ∧ v ∉ g.succ v then t.components else t.components ++ [rotated comp] }

/-- `strongConnect`. -/
def strongConnect (g : Graph α) : ℕ → TarjanState α → α → Option (TarjanState α)
  | 0, _, _ => none
  | fuel + 1, t, v => do
    let t ← eachSucc (strongConnect g fuel) v (g.succ v) (t.enter v)
    finish g t v

def eachNode (g : Graph α) (fuel : ℕ) : List α → TarjanState α → Option (TarjanState α)
  | [], t => some t
  | v :: vs, t =>
    if !t.visited v then do
      let t ← strongConnect g fuel t v
      eachNode g fuel vs t
    else eachNode g fuel vs t

def firstLe : List α → List α → Bool
  | c :: _, d :: _ => c ≤ d
  | _ :: _, [] => false
  | [], _ => true

/-- `tarjanSCC`. -/
def tarjanSCC (g : Graph α) : Option (List (List α)) :=
  (eachNode g (g.nodes.length + 1) g.nodes .start).map fun t =>
    t.components.insertionSort fun c d => firstLe c d = true

/-! ### Lists -/

theorem popTo_append {v : α} {s rest} (h : v ∉ s) :
    popTo v (s ++ v :: rest) = some (s ++ [v], rest) := by
  induction s with
  | nil => simp [popTo]
  | cons w s ih =>
    have hne : w ≠ v := fun heq => h (heq ▸ List.mem_cons_self)
    simp [popTo, hne, ih fun hs => h (List.mem_cons_of_mem w hs)]

theorem minIdxFrom_spec {l pre cs} {best : ℕ} {m : α} (hl : l = pre ++ cs)
    (hbest : l[best]? = some m) (hmin : ∀ c ∈ pre, m ≤ c) :
    ∃ m', l[minIdxFrom pre.length best m cs]? = some m' ∧ ∀ c ∈ l, m' ≤ c := by
  induction cs generalizing pre best m with
  | nil =>
    rw [List.append_nil] at hl
    exact ⟨m, hbest, hl ▸ hmin⟩
  | cons c cs ih =>
    have hl' : l = (pre ++ [c]) ++ cs := by simp [hl]
    have hlen : pre.length + 1 = (pre ++ [c]).length := by simp
    rw [minIdxFrom]
    split_ifs with hc
    · rw [hlen]
      refine ih hl' (by simp [hl]) fun d hd => ?_
      rcases List.mem_append.mp hd with hd | hd
      · exact hc.le.trans (hmin d hd)
      · exact (List.mem_singleton.mp hd).ge
    rw [hlen]
    refine ih hl' hbest fun d hd => ?_
    rcases List.mem_append.mp hd with hd | hd
    · exact hmin d hd
    · exact (List.mem_singleton.mp hd) ▸ not_lt.mp hc

theorem rotated_spec (l : List α) :
    (rotated l).Perm l ∧ ∀ a ∈ (rotated l).head?, ∀ c ∈ l, a ≤ c := by
  cases l with
  | nil => exact ⟨.refl _, by simp [rotated]⟩
  | cons c cs =>
    obtain ⟨m, hm, hmin⟩ : ∃ m, (c :: cs)[minIdxFrom 1 0 c cs]? = some m ∧ ∀ d ∈ c :: cs, m ≤ d :=
      @minIdxFrom_spec _ _ (c :: cs) [c] cs 0 c rfl rfl (by simp)
    obtain ⟨hlt, hget⟩ := List.getElem?_eq_some_iff.mp hm
    constructor
    · refine List.perm_append_comm.trans ?_
      rw [List.take_append_drop]
    intro a ha
    have hhead : (rotated (c :: cs)).head? = some m := by
      rw [rotated, List.drop_eq_getElem_cons hlt]
      simpa using hget
    rw [hhead] at ha
    cases ha
    exact hmin

end BamlRest.NativeSchema
