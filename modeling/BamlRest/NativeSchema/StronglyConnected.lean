import BamlRest.NativeSchema.Tarjan
import BamlRest.Lib.Visit

/-!
# The component search is correct

Nodes are white before they are visited, grey while the search below them runs, and black after
that.

* `Inv`, `Searched`: the invariant, and what a search achieves.
* `tarjanSCC_exact`: the result is the components with a cycle.
-/

namespace BamlRest.NativeSchema

open List Function

variable {α : Type}

namespace TarjanState

/-- A node that was left. -/
def Done (t : TarjanState α) (x : α) : Prop := t.visited x = true ∧ x ∉ t.stack

variable {t : TarjanState α} {x : α}

theorem done_or_mem (h : t.visited x) : t.Done x ∨ x ∈ t.stack :=
  (em (x ∈ t.stack)).symm.imp_left fun hx => ⟨h, hx⟩

/-- Part of a search: nodes are added to the stack, and what was there before stays. -/
structure Grows (t t' : TarjanState α) : Prop where
  visited : ∀ x, t.visited x → t'.visited x
  idxOf : ∀ x, t.visited x → t'.idxOf x = t.idxOf x
  index : t.index ≤ t'.index
  stack : ∃ s, t'.stack = s ++ t.stack ∧ ∀ x ∈ s, t.index ≤ t'.idxOf x

theorem Grows.refl (t : TarjanState α) : t.Grows t :=
  ⟨fun _ h => h, fun _ _ => rfl, le_rfl, [], rfl, by simp⟩

variable {t' : TarjanState α}

theorem Grows.mem_stack (h : t.Grows t') (hx : x ∈ t.stack) : x ∈ t'.stack := by
  obtain ⟨s, hs, -⟩ := h.stack
  exact hs ▸ mem_append_right s hx

theorem Grows.mem_or_le (h : t.Grows t') (hx : x ∈ t'.stack) :
    x ∈ t.stack ∨ t.index ≤ t'.idxOf x := by
  obtain ⟨s, hs, hnew⟩ := h.stack
  rw [hs] at hx
  exact (mem_append.mp hx).symm.imp id (hnew x)

theorem Grows.trans {t''} (h : t.Grows t') (h' : t'.Grows t'')
    (hvisited : ∀ x ∈ t'.stack, t'.visited x) : t.Grows t'' := by
  refine ⟨fun x hx => h'.visited x (h.visited x hx), fun x hx => ?_, h.index.trans h'.index, ?_⟩
  · rw [h'.idxOf x (h.visited x hx), h.idxOf x hx]
  obtain ⟨s, hs, hnew⟩ := h.stack
  obtain ⟨s', hs', hnew'⟩ := h'.stack
  refine ⟨s' ++ s, by rw [hs', hs, List.append_assoc], fun x hx => ?_⟩
  rcases mem_append.mp hx with hx | hx
  · exact h.index.trans (hnew' x hx)
  · have hmem : x ∈ t'.stack := hs ▸ mem_append_left _ hx
    exact (hnew x hx).trans_eq (h'.idxOf x (hvisited x hmem)).symm

end TarjanState

variable [LinearOrder α]

namespace Graph

variable (g : Graph α)

/-- An edge of the graph. -/
def Edge (v w : α) : Prop := w ∈ g.succ v

/-- A path. -/
def Reach : α → α → Prop := Relation.ReflTransGen g.Edge

/-- A node on a cycle. -/
def Cyclic (v : α) : Prop := Relation.TransGen g.Edge v v

/-- The nodes that reach each other. -/
def IsComponent (c : List α) : Prop := c ≠ [] ∧ ∀ x ∈ c, ∀ y, y ∈ c ↔ g.Reach x y ∧ g.Reach y x

variable {v : α}

theorem mem_nodes_of_edge {w : α} (h : g.Edge v w) : v ∈ g.nodes := by
  by_contra hv
  rw [Edge, g.succ_nil v hv] at h
  cases h

variable {g}

variable {c : List α}

theorem IsComponent.cyclic (hc : g.IsComponent c) (hnodup : c.Nodup) {x : α}
    (hv : v ∈ c) (hx : x ∈ c) (h : ¬(c.length = 1 ∧ ¬g.Edge v v)) : g.Cyclic x := by
  by_cases hlen : c.length = 1
  · obtain ⟨a, rfl⟩ := length_eq_one_iff.mp hlen
    cases mem_singleton.mp hv
    cases mem_singleton.mp hx
    exact .single (not_not.mp fun hedge => h ⟨hlen, hedge⟩)
  obtain ⟨y, hy, hne⟩ : ∃ y ∈ c, y ≠ x := by
    by_contra hall
    push Not at hall
    have hle : c.length ≤ [x].length :=
      (subperm_of_subset hnodup fun y hy => mem_singleton.mpr (hall y hy)).length_le
    have hpos := length_pos_of_mem hx
    rw [length_singleton] at hle
    omega
  obtain ⟨hxy, hyx⟩ := (hc.2 x hx y).mp hy
  rcases Relation.reflTransGen_iff_eq_or_transGen.mp hxy with heq | hxy
  · exact absurd heq hne
  · exact hxy.trans_left hyx

theorem IsComponent.not_cyclic (hc : g.IsComponent c) (hlen : c.length = 1) {x : α}
    (hv : v ∈ c) (hx : x ∈ c) (hedge : ¬g.Edge v v) : ¬g.Cyclic x := by
  obtain ⟨a, rfl⟩ := length_eq_one_iff.mp hlen
  cases mem_singleton.mp hv
  cases mem_singleton.mp hx
  intro hcyc
  obtain ⟨z, hvz, hzv⟩ := Relation.TransGen.head'_iff.mp hcyc
  have hz := (hc.2 _ hx z).mpr ⟨.single hvz, hzv⟩
  cases mem_singleton.mp hz
  exact hedge hvz

theorem IsComponent.perm {d} (hc : g.IsComponent c) (h : d.Perm c) : g.IsComponent d := by
  refine ⟨fun hnil => hc.1 ?_, fun x hx y => ?_⟩
  · rw [hnil] at h
    exact h.symm.eq_nil
  · rw [h.mem_iff] at hx ⊢
    exact hc.2 x hx y

end Graph

namespace TarjanState

/-- The components found so far: those of done nodes that contain a cycle. -/
structure Found (g : Graph α) (t : TarjanState α) : Prop where
  nodup : t.components.flatten.Nodup
  component : ∀ c ∈ t.components, g.IsComponent c
  smallest : ∀ c ∈ t.components, ∀ a ∈ c.head?, ∀ x ∈ c, a ≤ x
  mem : ∀ x, x ∈ t.components.flatten ↔ t.Done x ∧ g.Cyclic x

/-- The invariant of the search, with the nodes on the path. -/
structure Inv (g : Graph α) (grey : List α) (t : TarjanState α) : Prop where
  onStack : ∀ x, t.onStack x ↔ x ∈ t.stack
  visited : ∀ x ∈ t.stack, t.visited x
  sorted : t.stack.Pairwise fun x y => t.idxOf y < t.idxOf x
  lt_index : ∀ x ∈ t.stack, t.idxOf x < t.index
  mem_stack : ∀ x ∈ grey, x ∈ t.stack
  done : ∀ x, t.Done x → ∀ y, g.Edge x y → t.Done y
  black : ∀ x, t.visited x → x ∉ grey → ∀ y, g.Edge x y → t.visited y
  toGrey : ∀ y ∈ t.stack, ∃ x ∈ grey, t.idxOf x ≤ t.idxOf y ∧ g.Reach y x
  fromGrey : ∀ x ∈ grey, ∀ y ∈ t.stack, t.idxOf x ≤ t.idxOf y → g.Reach x y
  found : t.Found g

variable {g : Graph α} {grey : List α} {t t' : TarjanState α} {v x y : α}

theorem Done.reach (hinv : t.Inv g grey) (hx : t.Done x) (h : g.Reach x y) : t.Done y := by
  induction h with
  | refl => exact hx
  | tail _ hedge ih => exact hinv.done _ ih _ hedge

/-! ### Relaxing -/

section Relax

variable (t v) (n : ℕ)

@[simp] theorem relax_stack : (t.relax v n).stack = t.stack := by
  unfold relax; split_ifs <;> rfl

@[simp] theorem relax_idxOf : (t.relax v n).idxOf = t.idxOf := by
  unfold relax; split_ifs <;> rfl

@[simp] theorem relax_visited : (t.relax v n).visited = t.visited := by
  unfold relax; split_ifs <;> rfl

theorem relax_lowlink_self : (t.relax v n).lowlink v = min (t.lowlink v) n := by
  unfold relax
  split_ifs with h
  · simp [min_eq_right h.le]
  · exact (min_eq_left (not_lt.mp h)).symm

theorem relax_lowlink_of_ne {x : α} (h : x ≠ v) : (t.relax v n).lowlink x = t.lowlink x := by
  unfold relax
  split_ifs
  · simp [h]
  · rfl

end Relax

theorem Inv.relax (h : t.Inv g grey) (v : α) (n : ℕ) : (t.relax v n).Inv g grey := by
  unfold TarjanState.relax
  split_ifs
  · exact ⟨h.onStack, h.visited, h.sorted, h.lt_index, h.mem_stack, h.done, h.black, h.toGrey,
      h.fromGrey, h.found.nodup, h.found.component, h.found.smallest, h.found.mem⟩
  · exact h

theorem Grows.relax (h : t.Grows t') (v : α) (n : ℕ) : t.Grows (t'.relax v n) := by
  unfold TarjanState.relax
  split_ifs
  · exact ⟨h.visited, h.idxOf, h.index, h.stack⟩
  · exact h

end TarjanState

open TarjanState

variable {g : Graph α} {grey : List α} {t t' t₁ : TarjanState α} {v w x y : α}

/-! ### What the search does -/

/-- What a search from a node achieves. -/
structure Searched (g : Graph α) (grey : List α) (t : TarjanState α) (v : α)
    (t' : TarjanState α) : Prop where
  inv : t'.Inv g grey
  grows : t.Grows t'
  visited : t'.visited v
  lowlink : ∀ x, t.visited x → t'.lowlink x = t.lowlink x
  /-- The low link sees every edge from a new node on the stack to an old one. -/
  cross : ∀ x ∈ t'.stack, x ∉ t.stack → ∀ y ∈ t.stack, g.Edge x y → t'.lowlink v ≤ t'.idxOf y
  /-- The low link is the index of an old node that can be reached, or no index of an old node. -/
  low : t.index ≤ t'.lowlink v ∨ ∃ y ∈ t.stack, t'.idxOf y = t'.lowlink v ∧ g.Reach v y

/-- What the loop over successors has done after some of them. -/
structure Scanned (g : Graph α) (grey : List α) (t : TarjanState α) (v : α) (ws : List α)
    (t' : TarjanState α) : Prop where
  inv : t'.Inv g (v :: grey)
  grows : t.Grows t'
  visited : ∀ w ∈ ws, t'.visited w
  lowlink : ∀ x, t.visited x → x ≠ v → t'.lowlink x = t.lowlink x
  le : t'.lowlink v ≤ t'.idxOf v
  cross : ∀ x ∈ t'.stack, x ∉ t.stack → ∀ y ∈ t.stack, g.Edge x y → t'.lowlink v ≤ t'.idxOf y
  own : ∀ w ∈ ws, w ∈ t.stack → t'.lowlink v ≤ t'.idxOf w
  low : ∃ y ∈ t.stack, t'.idxOf y = t'.lowlink v ∧ g.Reach v y

/-! ### Entering a node -/

section Enter

variable (t v)

theorem TarjanState.enter_idxOf_self : (t.enter v).idxOf v = t.index := update_self ..

theorem TarjanState.enter_lowlink_self : (t.enter v).lowlink v = t.index := update_self ..

theorem TarjanState.enter_visited_self : (t.enter v).visited v = true := update_self ..

end Enter

theorem TarjanState.Inv.enter (h : t.Inv g grey) (hv : t.visited v = false)
    (hgrey : ∀ x ∈ grey, g.Reach x v) : (t.enter v).Inv g (v :: grey) := by
  have hstack : v ∉ t.stack := fun hmem => by simp [h.visited v hmem] at hv
  have hne : ∀ x ∈ t.stack, x ≠ v := fun x hx heq => hstack (heq ▸ hx)
  have hidx : ∀ x ∈ t.stack, (t.enter v).idxOf x = t.idxOf x := fun x hx =>
    update_of_ne (hne x hx) _ _
  have hself := t.enter_idxOf_self v
  have hvisited : ∀ x, x ≠ v → (t.enter v).visited x = t.visited x := fun x hx =>
    update_of_ne hx _ _
  have hdone : ∀ x, (t.enter v).Done x ↔ t.Done x := by
    intro x
    by_cases hx : x = v
    · subst hx
      simp [TarjanState.Done, TarjanState.enter, hv]
    · simp [TarjanState.Done, TarjanState.enter, hx]
  have hself_visited := t.enter_visited_self v
  refine ⟨fun x => ?_, fun x hx => ?_, ?_, fun x hx => ?_, fun x hx => ?_, fun x hx y hy => ?_,
    fun x hx hgx y hy => ?_, fun y hy => ?_, fun x hx y hy hle => ?_, ?_⟩
  · by_cases hx : x = v
    · simp [TarjanState.enter, hx]
    · simpa [TarjanState.enter, hx] using h.onStack x
  · rcases mem_cons.mp hx with rfl | hx
    · exact hself_visited
    · rw [hvisited x (hne x hx)]
      exact h.visited x hx
  · refine pairwise_cons.mpr ⟨fun x hx => ?_, ?_⟩
    · rw [hself, hidx x hx]
      exact h.lt_index x hx
    · refine h.sorted.imp_of_mem fun hx hy hlt => ?_
      rwa [hidx _ hx, hidx _ hy]
  · rcases mem_cons.mp hx with rfl | hx
    · rw [hself]
      exact Nat.lt_succ_self _
    · rw [hidx x hx]
      exact (h.lt_index x hx).trans (Nat.lt_succ_self _)
  · rcases mem_cons.mp hx with rfl | hx
    · exact mem_cons_self
    · exact mem_cons_of_mem v (h.mem_stack x hx)
  · exact (hdone y).mpr (h.done x ((hdone x).mp hx) y hy)
  · rw [mem_cons, not_or] at hgx
    rw [hvisited x hgx.1] at hx
    have hy := h.black x hx hgx.2 y hy
    by_cases heq : y = v
    · exact heq ▸ hself_visited
    · rwa [hvisited y heq]
  · rcases mem_cons.mp hy with rfl | hy
    · exact ⟨y, mem_cons_self, le_rfl, .refl⟩
    obtain ⟨x, hx, hle, hreach⟩ := h.toGrey y hy
    refine ⟨x, mem_cons_of_mem v hx, ?_, hreach⟩
    rwa [hidx x (h.mem_stack x hx), hidx y hy]
  · rcases mem_cons.mp hx with rfl | hx'
    · rcases mem_cons.mp hy with rfl | hy'
      · exact .refl
      · rw [hself, hidx y hy'] at hle
        exact absurd (h.lt_index y hy') (not_lt.mpr hle)
    rcases mem_cons.mp hy with rfl | hy'
    · exact hgrey x hx'
    · rw [hidx x (h.mem_stack x hx'), hidx y hy'] at hle
      exact h.fromGrey x hx' y hy' hle
  exact ⟨h.found.nodup, h.found.component, h.found.smallest, fun x => by
    rw [hdone]
    exact h.found.mem x⟩

theorem TarjanState.Grows.enter (hv : t.visited v = false) : t.Grows (t.enter v) := by
  have hne : ∀ x, t.visited x → x ≠ v := by
    rintro x hx rfl
    rw [hv] at hx
    cases hx
  refine ⟨fun x hx => ?_, fun x hx => update_of_ne (hne x hx) _ _, Nat.le_succ _,
    [v], rfl, fun x hx => ?_⟩
  · exact (update_of_ne (hne x hx) _ _).trans hx
  · cases mem_singleton.mp hx
    exact (t.enter_idxOf_self v).ge

theorem Scanned.start (h : t.Inv g grey) (hv : t.visited v = false)
    (hgrey : ∀ x ∈ grey, g.Reach x v) : Scanned g grey (t.enter v) v [] (t.enter v) := by
  have heq : (t.enter v).lowlink v = (t.enter v).idxOf v :=
    (t.enter_lowlink_self v).trans (t.enter_idxOf_self v).symm
  exact ⟨h.enter hv hgrey, .refl _, by simp, fun _ _ _ => rfl, heq.le, fun x hx hnot => absurd hx hnot,
    by simp, v, mem_cons_self, heq.symm, .refl⟩

/-! ### The loop over successors -/

section Scan

variable {ws : List α}

theorem Scanned.mem_of_lt (h : Scanned g grey t v ws t') (hv : v ∈ t.stack) (hinv : t.Inv g (v :: grey))
    (hy : y ∈ t'.stack) (hlt : t'.idxOf y < t'.idxOf v) : y ∈ t.stack := by
  refine (h.grows.mem_or_le hy).resolve_right fun hle => ?_
  rw [h.grows.idxOf v (hinv.visited v hv)] at hlt
  exact absurd (hlt.trans (hinv.lt_index v hv)) (not_lt.mpr hle)

theorem Scanned.skip (h : Scanned g grey t v ws t') (hvisited : t'.visited w)
    (hw : w ∉ t'.stack) : Scanned g grey t v (ws ++ [w]) t' := by
  refine ⟨h.inv, h.grows, ?_, h.lowlink, h.le, h.cross, ?_, h.low⟩
  · intro x hx
    rcases mem_append.mp hx with hx | hx
    · exact h.visited x hx
    · exact mem_singleton.mp hx ▸ hvisited
  intro x hx hmem
  rcases mem_append.mp hx with hx | hx
  · exact h.own x hx hmem
  · cases mem_singleton.mp hx
    exact absurd (h.grows.mem_stack hmem) hw

variable (hv : v ∈ t.stack) (hinv : t.Inv g (v :: grey))
include hv hinv

theorem Scanned.back (h : Scanned g grey t v ws t') (hw : w ∈ t'.stack) (hedge : g.Edge v w) :
    Scanned g grey t v (ws ++ [w]) (t'.relax v (t'.idxOf w)) := by
  have hle : (t'.relax v (t'.idxOf w)).lowlink v ≤ t'.lowlink v := by
    rw [relax_lowlink_self]
    exact min_le_left _ _
  refine ⟨h.inv.relax _ _, h.grows.relax _ _, ?_, ?_, ?_, ?_, ?_, ?_⟩
  · intro x hx
    rw [relax_visited]
    rcases mem_append.mp hx with hx | hx
    · exact h.visited x hx
    · cases mem_singleton.mp hx
      exact h.inv.visited w hw
  · intro x hx hne
    rw [relax_lowlink_of_ne _ _ _ hne]
    exact h.lowlink x hx hne
  · rw [relax_idxOf]
    exact hle.trans h.le
  · intro x hx hnew y hy hxy
    rw [relax_idxOf]
    rw [relax_stack] at hx
    exact hle.trans (h.cross x hx hnew y hy hxy)
  · intro x hx hmem
    rw [relax_idxOf]
    rcases mem_append.mp hx with hx | hx
    · exact hle.trans (h.own x hx hmem)
    cases mem_singleton.mp hx
    rw [relax_lowlink_self]
    exact min_le_right _ _
  rw [relax_idxOf, relax_lowlink_self]
  rcases le_or_gt (t'.lowlink v) (t'.idxOf w) with hmin | hmin
  · rw [min_eq_left hmin]
    exact h.low
  · rw [min_eq_right hmin.le]
    exact ⟨w, h.mem_of_lt hv hinv hw (hmin.trans_le h.le), rfl, .single hedge⟩

theorem Scanned.descend (h : Scanned g grey t v ws t') (hwhite : t'.visited w = false)
    (hedge : g.Edge v w) (hw : Searched g (v :: grey) t' w t₁) :
    Scanned g grey t v (ws ++ [w]) (t₁.relax v (t₁.lowlink w)) := by
  have hvt : t'.visited v := h.grows.visited v (hinv.visited v hv)
  have hlow : t₁.lowlink v = t'.lowlink v := hw.lowlink v hvt
  have hidx : t₁.idxOf v = t'.idxOf v := hw.grows.idxOf v hvt
  have hmin : (t₁.relax v (t₁.lowlink w)).lowlink v = min (t'.lowlink v) (t₁.lowlink w) := by
    rw [relax_lowlink_self, hlow]
  have hold : ∀ y ∈ t.stack, t₁.idxOf y = t'.idxOf y := fun y hy =>
    hw.grows.idxOf y (h.grows.visited y (hinv.visited y hy))
  refine ⟨hw.inv.relax _ _, (h.grows.trans hw.grows h.inv.visited).relax _ _, ?_, ?_, ?_, ?_, ?_, ?_⟩
  · intro x hx
    rw [relax_visited]
    rcases mem_append.mp hx with hx | hx
    · exact hw.grows.visited x (h.visited x hx)
    · exact mem_singleton.mp hx ▸ hw.visited
  · intro x hx hne
    rw [relax_lowlink_of_ne _ _ _ hne, hw.lowlink x (h.grows.visited x hx)]
    exact h.lowlink x hx hne
  · rw [relax_idxOf, hmin, hidx]
    exact (min_le_left _ _).trans h.le
  · intro x hx hnew y hy hxy
    rw [relax_stack] at hx
    rw [relax_idxOf, hmin, hold y hy]
    -- the edge leaves a node that was new before, or one that the search below `w` added
    by_cases hx' : x ∈ t'.stack
    · exact (min_le_left _ _).trans (h.cross x hx' hnew y hy hxy)
    · rw [← hold y hy]
      exact (min_le_right _ _).trans (hw.cross x hx hx' y (h.grows.mem_stack hy) hxy)
  · intro x hx hmem
    rw [relax_idxOf, hmin, hold x hmem]
    rcases mem_append.mp hx with hx | hx
    · exact (min_le_left _ _).trans (h.own x hx hmem)
    cases mem_singleton.mp hx
    rw [h.grows.visited w (hinv.visited w hmem)] at hwhite
    cases hwhite
  rw [relax_idxOf, hmin]
  rcases le_or_gt (t'.lowlink v) (t₁.lowlink w) with hle | hlt
  · rw [min_eq_left hle]
    obtain ⟨y, hy, heq, hreach⟩ := h.low
    exact ⟨y, hy, (hold y hy).trans heq, hreach⟩
  rw [min_eq_right hlt.le]
  have hltv : t₁.lowlink w < t'.idxOf v := hlt.trans_le h.le
  rcases hw.low with hle | ⟨y, hy, heq, hreach⟩
  · have := h.inv.lt_index v (h.grows.mem_stack hv)
    omega
  refine ⟨y, ?_, heq, .head hedge hreach⟩
  refine h.mem_of_lt hv hinv hy ?_
  rw [← hw.grows.idxOf y (h.inv.visited y hy), heq]
  exact hltv

end Scan

/-- **The loop over the successors**, when the search below each white one does what it should. -/
theorem eachSucc_scanned {rec : TarjanState α → α → Option (TarjanState α)} {ws done}
    (hrec : ∀ t', t.Grows t' → t'.Inv g (v :: grey) → ∀ w ∈ ws, t'.visited w = false →
      ∃ t₁, rec t' w = some t₁ ∧ Searched g (v :: grey) t' w t₁)
    (hv : v ∈ t.stack) (hinv : t.Inv g (v :: grey)) (hws : ∀ w ∈ ws, g.Edge v w)
    (h : Scanned g grey t v done t') :
    ∃ t₁, eachSucc rec v ws t' = some t₁ ∧ Scanned g grey t v (done ++ ws) t₁ := by
  induction ws generalizing done t' with
  | nil => exact ⟨t', rfl, by simpa using h⟩
  | cons w ws ih =>
    simp only [mem_cons, forall_eq_or_imp] at hrec hws
    have hedge := hws.1
    have hnext : ∀ t₂, Scanned g grey t v (done ++ [w]) t₂ →
        ∃ t₁, eachSucc rec v ws t₂ = some t₁ ∧ Scanned g grey t v (done ++ w :: ws) t₁ := by
      intro t₂ h₂
      obtain ⟨t₁, heq, h₁⟩ := ih (fun t' hg hi => (hrec t' hg hi).2) hws.2 h₂
      exact ⟨t₁, heq, by simpa using h₁⟩
    rw [eachSucc]
    cases hw : t'.visited w with
    | false =>
      obtain ⟨t₂, heq, h₂⟩ := (hrec t' h.grows h.inv).1 hw
      rw [if_pos (by simp), heq]
      exact hnext _ (h.descend hv hinv hw hedge h₂)
    | true =>
      rw [if_neg (by simp)]
      by_cases hon : t'.onStack w
      · rw [if_pos hon]
        exact hnext _ (h.back hv hinv ((h.inv.onStack w).mp hon) hedge)
      · rw [if_neg hon]
        exact hnext _ (h.skip hw fun hmem => hon ((h.inv.onStack w).mpr hmem))

/-! ### Finishing a node -/

theorem TarjanState.Found.add {c} (hfound : t.Found g) (hcomp : g.IsComponent c)
    (hnodup : c.Nodup) (hv : v ∈ c) (hnew : ∀ x ∈ c, ¬t.Done x)
    (hdone : ∀ x, t'.Done x ↔ t.Done x ∨ x ∈ c)
    (hcomps : t'.components = if c.reverse.length = 1 ∧ v ∉ g.succ v then t.components
      else t.components ++ [rotated c.reverse]) : t'.Found g := by
  rw [length_reverse] at hcomps
  obtain ⟨hperm, hsmall⟩ := rotated_spec c.reverse
  have hperm := hperm.trans c.reverse_perm
  split_ifs at hcomps with hsingle
  · refine ⟨hcomps ▸ hfound.nodup, hcomps ▸ hfound.component, hcomps ▸ hfound.smallest, fun x => ?_⟩
    rw [hcomps, hfound.mem, hdone, or_and_right]
    exact (or_iff_left fun hx => hcomp.not_cyclic hsingle.1 hv hx.1 hsingle.2 hx.2).symm
  refine ⟨?_, ?_, ?_, fun x => ?_⟩
  · rw [hcomps, flatten_concat, nodup_append]
    refine ⟨hfound.nodup, hperm.nodup_iff.mpr hnodup, ?_⟩
    rintro x hx y hy rfl
    exact hnew x (hperm.mem_iff.mp hy) ((hfound.mem x).mp hx).1
  · rw [hcomps]
    intro d hd
    rcases mem_append.mp hd with hd | hd
    · exact hfound.component d hd
    · cases mem_singleton.mp hd
      exact hcomp.perm hperm
  · rw [hcomps]
    intro d hd
    rcases mem_append.mp hd with hd | hd
    · exact hfound.smallest d hd
    cases mem_singleton.mp hd
    intro a ha x hx
    exact hsmall a ha x ((rotated_spec c.reverse).1.mem_iff.mp hx)
  · rw [hcomps, flatten_concat, mem_append, hfound.mem, hdone, hperm.mem_iff, or_and_right]
    refine or_congr_right ⟨fun hx => ⟨hx, hcomp.cyclic hnodup hv hx hsingle⟩, fun hx => hx.1⟩

section Finish

variable {ws : List α}

theorem Scanned.stack_eq (hscan : Scanned g grey (t.enter v) v ws t') :
    ∃ s, t'.stack = s ++ v :: t.stack ∧ (∀ x ∈ s, t'.idxOf v < t'.idxOf x) ∧
      t'.idxOf v = t.index ∧ ∀ y ∈ t.stack, t'.idxOf y < t'.idxOf v := by
  obtain ⟨s, hs, -⟩ := hscan.grows.stack
  have hs : t'.stack = s ++ v :: t.stack := hs
  have hsorted := hscan.inv.sorted
  rw [hs, pairwise_append, pairwise_cons] at hsorted
  exact ⟨s, hs, fun x hx => hsorted.2.2 x hx v mem_cons_self,
    (hscan.grows.idxOf v (t.enter_visited_self v)).trans (t.enter_idxOf_self v),
    fun y hy => hsorted.2.1.1 y hy⟩

theorem TarjanState.Grows.of_scanned (h : t.Inv g grey) (hv : t.visited v = false)
    (hscan : Scanned g grey (t.enter v) v ws t') : t.Grows t' := by
  refine (Grows.enter hv).trans hscan.grows fun x hx => ?_
  rcases mem_cons.mp hx with rfl | hx
  · exact t.enter_visited_self x
  · exact (Grows.enter hv).visited x (h.visited x hx)

theorem Scanned.lowlink_of_visited (hv : t.visited v = false)
    (hscan : Scanned g grey (t.enter v) v ws t') (hx : t.visited x) :
    t'.lowlink x = t.lowlink x := by
  have hne : x ≠ v := by
    rintro rfl
    rw [hv] at hx
    cases hx
  rw [hscan.lowlink x ((Grows.enter hv).visited x hx) hne]
  exact update_of_ne hne _ _

variable (h : t.Inv g grey) (hscan : Scanned g grey (t.enter v) v (g.succ v) t')
include h hscan

variable {s : List α}

theorem Scanned.edge (hs : t'.stack = s ++ v :: t.stack) (hx : x ∈ s ++ [v]) (hedge : g.Edge x y) :
    y ∈ s ++ [v] ∨ t'.Done y ∨ y ∈ t.stack ∧ t'.lowlink v ≤ t'.idxOf y := by
  have hsorted := hscan.inv.sorted
  rw [hs, pairwise_append, pairwise_cons] at hsorted
  have hvisited : t'.visited y := by
    rcases mem_append.mp hx with hx | hx
    · refine hscan.inv.black x (hscan.inv.visited x (hs ▸ mem_append_left _ hx)) ?_ y hedge
      intro hgrey
      have hbelow : x ∈ v :: t.stack := by
        rcases mem_cons.mp hgrey with rfl | hgrey
        · exact mem_cons_self
        · exact mem_cons_of_mem v (h.mem_stack x hgrey)
      exact lt_irrefl _ (hsorted.2.2 x hx x hbelow)
    · cases mem_singleton.mp hx
      exact hscan.visited y hedge
  rcases done_or_mem hvisited with hdone | hmem
  · exact .inr (.inl hdone)
  rw [hs] at hmem
  rcases mem_append.mp hmem with hy | hy
  · exact .inl (mem_append_left _ hy)
  rcases mem_cons.mp hy with rfl | hy
  · exact .inl (mem_append_right _ mem_cons_self)
  refine .inr (.inr ⟨hy, ?_⟩)
  have hy' : y ∈ (t.enter v).stack := mem_cons_of_mem v hy
  rcases mem_append.mp hx with hx | hx
  · refine hscan.cross x (hs ▸ mem_append_left _ hx) ?_ y hy' hedge
    intro hmem
    exact lt_irrefl _ (hsorted.2.2 x hx x hmem)
  · cases mem_singleton.mp hx
    exact hscan.own y hedge hy'

theorem Scanned.stay (hv : t.visited v = false) (hne : t'.lowlink v ≠ t'.idxOf v) :
    Searched g grey t v t' := by
  obtain ⟨s, hs, habove, hidx, hbelow⟩ := hscan.stack_eq
  obtain ⟨y, hmem, hyeq, hreach⟩ := hscan.low
  have hy : y ∈ t.stack := by
    rcases mem_cons.mp hmem with rfl | hy
    · exact absurd hyeq.symm hne
    · exact hy
  have hgrows := Grows.of_scanned h hv hscan
  have hi := hscan.inv
  have hvmem : v ∈ t'.stack := hi.mem_stack v mem_cons_self
  refine ⟨⟨hi.onStack, hi.visited, hi.sorted, hi.lt_index,
    fun x hx => hi.mem_stack x (mem_cons_of_mem v hx), hi.done, ?_, ?_,
    fun x hx => hi.fromGrey x (mem_cons_of_mem v hx), hi.found⟩, hgrows, hi.visited v hvmem,
    fun x hx => hscan.lowlink_of_visited hv hx, ?_, .inr ⟨y, hy, hyeq, hreach⟩⟩
  · intro x hx hgrey z hz
    by_cases hxv : x = v
    · subst hxv
      exact hscan.visited z hz
    · exact hi.black x hx (by simp [hxv, hgrey]) z hz
  · intro z hz
    obtain ⟨x, hx, hle, hzx⟩ := hi.toGrey z hz
    rcases mem_cons.mp hx with rfl | hx
    · -- `z` leads to `v`, and from there to an older node and its grey node
      obtain ⟨x', hx', hle', hyx'⟩ := hi.toGrey y (hgrows.mem_stack hy)
      have hltx : t'.idxOf x' < t'.idxOf x := hle'.trans_lt (hbelow y hy)
      rcases mem_cons.mp hx' with rfl | hx'
      · exact absurd hltx (lt_irrefl _)
      · exact ⟨x', hx', (hltx.trans_le hle).le, hzx.trans (hreach.trans hyx')⟩
    · exact ⟨x, hx, hle, hzx⟩
  intro x hx hnew z hz hxz
  have hx : x ∈ s ++ [v] := by
    rw [hs] at hx
    rcases mem_append.mp hx with hx | hx
    · exact mem_append_left _ hx
    rcases mem_cons.mp hx with rfl | hx
    · exact mem_append_right _ mem_cons_self
    · exact absurd hx hnew
  rcases hscan.edge h hs hx hxz with hmem | hdone | ⟨-, hle⟩
  · have hlow := hbelow z hz
    rcases mem_append.mp hmem with hmem | hmem
    · exact absurd (hlow.trans (habove z hmem)) (lt_irrefl _)
    · cases mem_singleton.mp hmem
      exact absurd hlow (lt_irrefl _)
  · exact absurd (hgrows.mem_stack hz) hdone.2
  · exact hle

theorem Scanned.closed (heq : t'.lowlink v = t'.idxOf v)
    (hs : t'.stack = s ++ v :: t.stack) (hx : x ∈ s ++ [v]) (hreach : g.Reach x y) :
    y ∈ s ++ [v] ∨ t'.Done y := by
  obtain ⟨s', hs', -, -, hbelow⟩ := hscan.stack_eq
  induction hreach with
  | refl => exact .inl hx
  | @tail y z _ hedge ih =>
    rcases ih with hy | hy
    · rcases hscan.edge h hs hy hedge with hz | hz | ⟨hz, hle⟩
      · exact .inl hz
      · exact .inr hz
      · exact absurd (hbelow z hz) (not_lt.mpr (heq ▸ hle))
    · exact .inr (hscan.inv.done y hy z hedge)

/-- **The nodes down to a root are a component.** -/
theorem Scanned.component (heq : t'.lowlink v = t'.idxOf v)
    (hs : t'.stack = s ++ v :: t.stack) : g.IsComponent (s ++ [v]) := by
  obtain ⟨s', hs', habove, -, hbelow⟩ := hscan.stack_eq
  cases append_cancel_right (hs.symm.trans hs')
  have hi := hscan.inv
  have hstack : ∀ x ∈ s ++ [v], x ∈ t'.stack ∧ t'.idxOf v ≤ t'.idxOf x := by
    intro x hx
    rcases mem_append.mp hx with hx | hx
    · exact ⟨hs ▸ mem_append_left _ hx, (habove x hx).le⟩
    · cases mem_singleton.mp hx
      exact ⟨hi.mem_stack v mem_cons_self, le_rfl⟩
  have hfrom : ∀ x ∈ s ++ [v], g.Reach v x := fun x hx =>
    hi.fromGrey v mem_cons_self x (hstack x hx).1 (hstack x hx).2
  have hto : ∀ x ∈ s ++ [v], g.Reach x v := by
    intro x hx
    obtain ⟨z, hz, -, hxz⟩ := hi.toGrey x (hstack x hx).1
    rcases mem_cons.mp hz with rfl | hz
    · exact hxz
    -- an older grey node can not be reached
    have hzold := h.mem_stack z hz
    rcases hscan.closed h heq hs hx hxz with hmem | hdone
    · exact absurd (hbelow z hzold) (not_lt.mpr (hstack z hmem).2)
    · exact absurd (hi.mem_stack z (mem_cons_of_mem v hz)) hdone.2
  refine ⟨by simp, fun x hx y => ⟨fun hy => ⟨(hto x hx).trans (hfrom y hy),
    (hto y hy).trans (hfrom x hx)⟩, fun ⟨hxy, hyx⟩ => ?_⟩⟩
  rcases hscan.closed h heq hs hx hxy with hy | hy
  · exact hy
  · exact absurd (hstack x hx).1 (hy.reach hi hyx).2

theorem Scanned.pop (hv : t.visited v = false) (heq : t'.lowlink v = t'.idxOf v) :
    ∃ t₁, finish g t' v = some t₁ ∧ Searched g grey t v t₁ := by
  obtain ⟨s, hs, habove, hidx, hbelow⟩ := hscan.stack_eq
  have hi := hscan.inv
  have hcomp := hscan.component h heq hs
  have hgrows := Grows.of_scanned h hv hscan
  have hvs : v ∉ s := fun hmem => lt_irrefl _ (habove v hmem)
  have hsplit : ∀ x, x ∈ t'.stack ↔ x ∈ s ++ [v] ∨ x ∈ t.stack := by
    intro x
    rw [hs]
    simp [or_assoc]
  have hold : ∀ x ∈ s ++ [v], x ∉ t.stack := by
    intro x hx hmem
    have hlt := hbelow x hmem
    rcases mem_append.mp hx with hx | hx
    · exact lt_irrefl _ (hlt.trans (habove x hx))
    · cases mem_singleton.mp hx
      exact lt_irrefl _ hlt
  have hvmem : v ∈ s ++ [v] := mem_append_right _ mem_cons_self
  have hfinish : finish g t' v = some { t' with
      stack := t.stack
      onStack := fun w => if w ∈ s ++ [v] then false else t'.onStack w
      components := if (s ++ [v]).reverse.length = 1 ∧ v ∉ g.succ v then t'.components
        else t'.components ++ [rotated (s ++ [v]).reverse] } := by
    rw [finish, if_neg (not_not.mpr heq), hs, popTo_append hvs]
    rfl
  have hdone : ∀ x, (t'.visited x = true ∧ x ∉ t.stack) ↔ t'.Done x ∨ x ∈ s ++ [v] := by
    intro x
    constructor
    · rintro ⟨hx, hnot⟩
      rcases done_or_mem hx with hx | hx
      · exact .inl hx
      · exact .inr (((hsplit x).mp hx).resolve_right hnot)
    rintro (hx | hx)
    · exact ⟨hx.1, fun hmem => hx.2 ((hsplit x).mpr (.inr hmem))⟩
    · exact ⟨hi.visited x ((hsplit x).mpr (.inl hx)), hold x hx⟩
  have hnodup : (s ++ [v]).Nodup := by
    have hsorted := hi.sorted
    rw [hs, ← singleton_append, ← List.append_assoc, pairwise_append] at hsorted
    exact hsorted.1.imp fun {x y} hlt (heq : x = y) => lt_irrefl _ (heq ▸ hlt)
  have hlow : ∀ x, t.visited x → t'.lowlink x = t.lowlink x := fun x hx =>
    hscan.lowlink_of_visited hv hx
  refine ⟨_, hfinish, ⟨?_, ?_, ?_, ?_, h.mem_stack, ?_, ?_, ?_, ?_, ?_⟩, ⟨hgrows.visited,
    hgrows.idxOf, hgrows.index, [], rfl, by simp⟩, hi.visited v ((hsplit v).mpr (.inl hvmem)), hlow,
    fun x hx hnot => absurd hx hnot, .inl (hidx.symm.trans heq.symm).le⟩
  · intro x
    by_cases hx : x ∈ s ++ [v]
    · simp only [if_pos hx]
      exact iff_of_false (by simp) (hold x hx)
    · simp only [if_neg hx]
      rw [hi.onStack, hsplit, or_iff_right hx]
  · intro x hx
    exact hi.visited x ((hsplit x).mpr (.inr hx))
  · have hsorted := hi.sorted
    rw [hs, pairwise_append, pairwise_cons] at hsorted
    exact hsorted.2.1.2
  · intro x hx
    exact hi.lt_index x ((hsplit x).mpr (.inr hx))
  · intro x hx y hy
    refine (hdone y).mpr ?_
    rcases (hdone x).mp hx with hx | hx
    · exact .inl (hi.done x hx y hy)
    · exact (hscan.closed h heq hs hx (.single hy)).symm
  · intro x hx hgrey y hy
    by_cases hxv : x = v
    · subst hxv
      exact hscan.visited y hy
    · exact hi.black x hx (by simp [hxv, hgrey]) y hy
  · intro y hy
    obtain ⟨x, hx, hle, hreach⟩ := hi.toGrey y ((hsplit y).mpr (.inr hy))
    rcases mem_cons.mp hx with rfl | hx
    · exact absurd (hbelow y hy) (not_lt.mpr hle)
    · exact ⟨x, hx, hle, hreach⟩
  · intro x hx y hy hle
    exact hi.fromGrey x (mem_cons_of_mem v hx) y ((hsplit y).mpr (.inr hy)) hle
  · exact hi.found.add hcomp hnodup hvmem (fun x hx hd => hd.2 ((hsplit x).mpr (.inl hx))) hdone rfl

end Finish

/-! ### The search below a node -/

def unvisited (g : Graph α) (t : TarjanState α) : ℕ := unseen g.nodes (g.nodes.filter t.visited)

theorem unvisited_anti (g) (h : t.Grows t') : unvisited g t' ≤ unvisited g t :=
  unseen_anti g.nodes fun x hx => by
    rw [mem_filter] at hx ⊢
    exact ⟨hx.1, h.visited x hx.2⟩

theorem unvisited_enter (hv : t.visited v = false) (hmem : v ∈ g.nodes) :
    unvisited g (t.enter v) < unvisited g t := by
  refine (unseen_anti g.nodes (cons_subset.mpr ⟨?_, fun x hx => ?_⟩)).trans_lt
    (unseen_lt hmem fun hseen => ?_)
  · exact mem_filter.mpr ⟨hmem, t.enter_visited_self v⟩
  · rw [mem_filter] at hx ⊢
    exact ⟨hx.1, (Grows.enter hv).visited x hx.2⟩
  · rw [mem_filter, hv] at hseen
    cases hseen.2

/-- **The search below a white node** does what it should, with fuel for the white nodes. -/
theorem strongConnect_searched {fuel : ℕ} (h : t.Inv g grey) (hv : t.visited v = false)
    (hgrey : ∀ x ∈ grey, g.Reach x v) (hfuel : unvisited g t < fuel) :
    ∃ t', strongConnect g fuel t v = some t' ∧ Searched g grey t v t' := by
  induction fuel generalizing t v grey with
  | zero => cases hfuel
  | succ fuel ih =>
    have hinv := h.enter hv hgrey
    have hrec : ∀ t', (t.enter v).Grows t' → t'.Inv g (v :: grey) → ∀ w ∈ g.succ v,
        t'.visited w = false →
        ∃ t₁, strongConnect g fuel t' w = some t₁ ∧ Searched g (v :: grey) t' w t₁ := by
      intro t' hgrows hinv' w hw hwhite
      refine ih hinv' hwhite (fun x hx => ?_) ?_
      · rcases mem_cons.mp hx with rfl | hx
        · exact .single hw
        · exact (hgrey x hx).tail hw
      have hanti := unvisited_anti g hgrows
      have hlt := unvisited_enter hv (g.mem_nodes_of_edge hw)
      omega
    obtain ⟨t', heach, hscan⟩ := eachSucc_scanned hrec mem_cons_self hinv (fun _ hw => hw)
      (Scanned.start h hv hgrey)
    rw [strongConnect, heach]
    rw [nil_append] at hscan
    by_cases hroot : t'.lowlink v = t'.idxOf v
    · exact hscan.pop h hv hroot
    · exact ⟨t', by simp [finish, hroot], hscan.stay h hv hroot⟩

/-! ### The whole search -/

theorem inv_start : (start : TarjanState α).Inv g [] := by
  constructor <;> simp [start, TarjanState.Done]
  exact ⟨by simp, by simp, by simp, by simp [TarjanState.Done]⟩

theorem eachNode_inv {fuel : ℕ} (vs) (h : t.Inv g []) (hfuel : unvisited g t < fuel) :
    ∃ t', eachNode g fuel vs t = some t' ∧ t'.Inv g [] ∧
      (∀ x, t.visited x → t'.visited x) ∧ ∀ v ∈ vs, t'.visited v := by
  induction vs generalizing t with
  | nil => exact ⟨t, rfl, h, fun _ hx => hx, by simp⟩
  | cons v vs ih =>
    rw [eachNode]
    cases hv : t.visited v with
    | true =>
      obtain ⟨t', heq, hinv, hmono, hall⟩ := ih h hfuel
      exact ⟨t', by simpa using heq, hinv, hmono, forall_mem_cons.mpr ⟨hmono v hv, hall⟩⟩
    | false =>
      obtain ⟨t₁, heq₁, h₁⟩ := strongConnect_searched h hv (by simp) hfuel
      obtain ⟨t', heq, hinv, hmono, hall⟩ :=
        ih h₁.inv ((unvisited_anti g h₁.grows).trans_lt hfuel)
      refine ⟨t', ?_, hinv, fun x hx => hmono x (h₁.grows.visited x hx),
        forall_mem_cons.mpr ⟨hmono v h₁.visited, hall⟩⟩
      rw [if_pos (by simp), heq₁]
      exact heq

theorem firstLe_total (c d : List α) : firstLe c d ∨ firstLe d c := by
  cases c with
  | nil => exact .inl rfl
  | cons a c =>
    cases d with
    | nil => exact .inr rfl
    | cons b d => simpa [firstLe] using le_total a b

theorem firstLe_trans {c d e : List α} (hcd : firstLe c d) (hde : firstLe d e) : firstLe c e := by
  cases c with
  | nil => rfl
  | cons a c =>
    cases d with
    | nil => cases hcd
    | cons b d =>
      cases e with
      | nil => cases hde
      | cons z e =>
        simp only [firstLe, decide_eq_true_eq] at hcd hde ⊢
        exact hcd.trans hde

/-- **The component search is correct.** It ends, and gives the components that contain a cycle: each
once, each member once, the smallest one first, and ordered by those. -/
theorem tarjanSCC_spec (g : Graph α) : ∃ comps, tarjanSCC g = some comps ∧
    (∀ c ∈ comps, g.IsComponent c ∧ ∀ a ∈ c.head?, ∀ x ∈ c, a ≤ x) ∧
    (∀ x, x ∈ comps.flatten ↔ g.Cyclic x) ∧ comps.flatten.Nodup ∧
    comps.Pairwise fun c d => ∀ a ∈ c.head?, ∀ b ∈ d.head?, a < b := by
  have hfuel : unvisited g .start < g.nodes.length + 1 :=
    Nat.lt_succ_of_le (length_filter_le _ _)
  obtain ⟨t, heq, hinv, -, hall⟩ := eachNode_inv g.nodes inv_start hfuel
  have hstack : t.stack = [] := by
    refine eq_nil_iff_forall_not_mem.mpr fun x hx => ?_
    obtain ⟨y, hy, -⟩ := hinv.toGrey x hx
    cases hy
  have : Std.Total fun c d : List α => firstLe c d = true := ⟨firstLe_total⟩
  have : IsTrans (List α) fun c d => firstLe c d = true := ⟨fun _ _ _ => firstLe_trans⟩
  have hperm := perm_insertionSort (fun c d : List α => firstLe c d = true) t.components
  have hsorted := pairwise_insertionSort (fun c d : List α => firstLe c d = true) t.components
  have hnodup := hperm.flatten.nodup_iff.mpr hinv.found.nodup
  refine ⟨_, by rw [tarjanSCC, heq]; rfl, fun c hc => ?_, fun x => ?_, hnodup, ?_⟩
  · have hc := hperm.mem_iff.mp hc
    exact ⟨hinv.found.component c hc, hinv.found.smallest c hc⟩
  · rw [hperm.flatten.mem_iff, hinv.found.mem, and_iff_right_of_imp]
    intro hcyc
    obtain ⟨y, hedge, -⟩ := Relation.TransGen.head'_iff.mp hcyc
    exact ⟨hall x (g.mem_nodes_of_edge hedge), by simp [hstack]⟩
  -- two components have no member in common
  have hdisjoint := (nodup_flatten.mp hnodup).2
  refine (hsorted.and hdisjoint).imp fun {c d} hcd a ha b hb => ?_
  obtain ⟨cs, rfl⟩ := head?_eq_some_iff.mp ha
  obtain ⟨ds, rfl⟩ := head?_eq_some_iff.mp hb
  have hle : a ≤ b := by simpa [firstLe] using hcd.1
  refine lt_of_le_of_ne hle ?_
  rintro rfl
  exact hcd.2 mem_cons_self mem_cons_self

/-- **The search finds the components with a cycle.** It ends; what it returns are components, each
with its smallest node first and its members once, in the order of their smallest nodes, and each has
two members or an edge from its only member to itself; a node in a cycle is in one of them. -/
theorem tarjanSCC_exact (g : Graph α) : ∃ comps, tarjanSCC g = some comps ∧
    (∀ c ∈ comps, g.IsComponent c ∧ c.Nodup ∧ (∃ a ∈ c.head?, ∀ x ∈ c, a ≤ x) ∧
      (2 ≤ c.length ∨ ∃ x, c = [x] ∧ g.Edge x x)) ∧
    (∀ x, (g.Edge x x ∨ ∃ y, x ≠ y ∧ g.Reach x y ∧ g.Reach y x) → ∃! c, c ∈ comps ∧ x ∈ c) ∧
    comps.Nodup ∧ comps.Pairwise fun c d => ∀ a ∈ c.head?, ∀ b ∈ d.head?, a < b := by
  obtain ⟨comps, heq, hcomp, hmem, hnodup, hsorted⟩ := tarjanSCC_spec g
  obtain ⟨hparts, hdisjoint⟩ := nodup_flatten.mp hnodup
  have hne : ∀ c ∈ comps, c ≠ [] := fun c hc => (hcomp c hc).1.1
  refine ⟨comps, heq, fun c hc => ⟨(hcomp c hc).1, hparts c hc, ?_, ?_⟩, fun x hx => ?_, ?_, hsorted⟩
  · obtain ⟨a, l, rfl⟩ := exists_cons_of_ne_nil (hne c hc)
    exact ⟨a, rfl, (hcomp _ hc).2 a rfl⟩
  · obtain ⟨a, l, rfl⟩ := exists_cons_of_ne_nil (hne c hc)
    cases l with
    | cons b l => exact .inl (by simp)
    | nil =>
      -- the only member is in a cycle, whose first edge leads back to the component
      have hcyc := (hmem a).mp (mem_flatten.mpr ⟨_, hc, mem_singleton_self a⟩)
      obtain ⟨b, hedge, hback⟩ := Relation.TransGen.head'_iff.mp hcyc
      have hb := ((hcomp _ hc).1.2 a (mem_singleton_self a) b).mpr ⟨.single hedge, hback⟩
      exact .inr ⟨a, rfl, mem_singleton.mp hb ▸ hedge⟩
  · have hcyc : g.Cyclic x := by
      rcases hx with hx | ⟨y, hxy, hto, hback⟩
      · exact .single hx
      rcases Relation.reflTransGen_iff_eq_or_transGen.mp hto with rfl | hto
      · exact absurd rfl hxy
      · exact hto.trans_left hback
    obtain ⟨c, hc, hxc⟩ := mem_flatten.mp ((hmem x).mpr hcyc)
    refine ⟨c, ⟨hc, hxc⟩, fun d ⟨hd, hxd⟩ => ?_⟩
    by_contra hcd
    have : Std.Symm (@List.Disjoint α) := ⟨fun _ _ h => List.Disjoint.symm h⟩
    exact hdisjoint.forall hd hc hcd hxd hxc
  refine hdisjoint.imp_of_mem fun {c d} hc hd hcd => ?_
  rintro rfl
  obtain ⟨a, l, rfl⟩ := exists_cons_of_ne_nil (hne c hc)
  exact hcd mem_cons_self mem_cons_self

end BamlRest.NativeSchema
