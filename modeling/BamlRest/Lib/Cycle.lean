import BamlRest.Lib.Visit

/-!
# Looking for a cycle

A depth-first search with three colours. The grey nodes are those on the way from the root to the
node at hand, and the search ends at the first node it meets that is grey.
-/

namespace BamlRest

open List Relation

universe u

variable {α : Type u}

/-- Search from each of a list of nodes, with the nodes that are black by then. -/
def findCycles (search : List α → α → Run Unit (List α)) : List α → List α → Run Unit (List α)
  | black, [] => .ok black
  | black, c :: cs => search black c >>= fun black => findCycles search black cs

variable [DecidableEq α] (node : α → Option (List α))

/-- Search from a node. A node that is not known has no children and gets no colour. -/
def findCycle : ℕ → List α → List α → α → Run Unit (List α)
  | 0, _, _, _ => .out
  | n + 1, grey, black, a =>
    match node a with
    | none => .ok black
    | some cs =>
      if a ∈ grey then .fail ()
      else if a ∈ black then .ok black
      else findCycles (findCycle n (a :: grey)) black cs >>= fun black => .ok (a :: black)

def Follows (a b : α) : Prop := ∃ cs, node a = some cs ∧ b ∈ cs

/-- Nodes that are done with: what follows them is among them or not known, and none of them is on
a cycle. -/
structure Done (black : List α) : Prop where
  closed : ∀ x ∈ black, ∀ y, Follows node x y → y ∈ black ∨ node y = none
  acyclic : ∀ x ∈ black, ¬Relation.TransGen (Follows node) x x

variable {node}

variable {search : List α → α → Run Unit (List α)} {cs black' black : List α}

omit [DecidableEq α] in
theorem findCycles_cons {c : α} (h : findCycles search black (c :: cs) = .ok black') :
    ∃ black₁, search black c = .ok black₁ ∧ findCycles search black₁ cs = .ok black' := by
  rw [findCycles] at h
  cases hc : search black c with
  | out | fail e =>
    rw [hc] at h
    cases h
  | ok black₁ =>
    rw [hc] at h
    exact ⟨black₁, rfl, h⟩

/-! ### What is reported is a cycle -/

omit [DecidableEq α] in
theorem exists_of_findCycles_fail
    (h : findCycles search black cs = .fail ()) : ∃ black' c, c ∈ cs ∧ search black' c = .fail () := by
  induction cs generalizing black with
  | nil => cases h
  | cons c cs ih =>
    rw [findCycles] at h
    cases hc : search black c with
    | out =>
      rw [hc] at h
      cases h
    | fail e => exact ⟨black, c, mem_cons_self, hc⟩
    | ok black₁ =>
      rw [hc] at h
      obtain ⟨black', c', hc', hfail⟩ := ih h
      exact ⟨black', c', mem_cons_of_mem _ hc', hfail⟩

variable {n : ℕ} {grey : List α}

theorem cycle_of_findCycle {a : α} (hgrey : ∀ g ∈ grey, TransGen (Follows node) g a)
    (h : findCycle node n grey black a = .fail ()) :
    ∃ x, ReflTransGen (Follows node) a x ∧ TransGen (Follows node) x x := by
  induction n generalizing grey black a with
  | zero => cases h
  | succ n ih =>
    rw [findCycle] at h
    cases hnode : node a with
    | none =>
      rw [hnode] at h
      cases h
    | some cs =>
      rw [hnode] at h
      dsimp only at h
      split_ifs at h with ha hblack
      · exact ⟨a, .refl, hgrey a ha⟩
      cases hall : findCycles (findCycle node n (a :: grey)) black cs with
      | out | ok black' =>
        rw [hall] at h
        cases h
      | fail e =>
        obtain ⟨black', c, hc, hfail⟩ := exists_of_findCycles_fail hall
        have hchild : Follows node a c := ⟨cs, hnode, hc⟩
        have hgrey' : ∀ g ∈ a :: grey, TransGen (Follows node) g c := by
          intro g hg
          rcases mem_cons.mp hg with rfl | hg
          · exact .single hchild
          · exact (hgrey g hg).tail hchild
        obtain ⟨x, hx, hcycle⟩ := ih hgrey' hfail
        exact ⟨x, .head hchild hx, hcycle⟩

/-! ### What is passed over is on no cycle -/

omit [DecidableEq α] in
theorem Done.reach (h : Done node black) {x y : α} (hx : x ∈ black)
    (hxy : ReflTransGen (Follows node) x y) : y ∈ black ∨ node y = none := by
  induction hxy with
  | refl => exact .inl hx
  | tail _ hstep ih =>
    rcases ih with hmem | hnone
    · exact h.closed _ hmem _ hstep
    obtain ⟨cs, hcs, -⟩ := hstep
    rw [hnone] at hcs
    cases hcs

omit [DecidableEq α] in
theorem Done.cons {black cs} {a : α} (h : Done node black) (hnode : node a = some cs)
    (hcs : ∀ c ∈ cs, c ∈ black ∨ node c = none) (ha : a ∉ black) : Done node (a :: black) where
  closed := by
    intro x hx y hxy
    rcases mem_cons.mp hx with rfl | hx
    · obtain ⟨cs', hcs', hy⟩ := hxy
      rw [hnode] at hcs'
      cases hcs'
      exact (hcs y hy).imp_left (mem_cons_of_mem _)
    · exact (h.closed x hx y hxy).imp_left (mem_cons_of_mem _)
  acyclic := by
    intro x hx hcycle
    rcases mem_cons.mp hx with rfl | hx
    · -- the cycle would go on through nodes that are done with
      obtain ⟨c, ⟨cs', hcs', hc⟩, hback⟩ := TransGen.head'_iff.mp hcycle
      rw [hnode] at hcs'
      cases hcs'
      rcases hcs c hc with hmem | hnone
      · rcases h.reach hmem hback with hmem | hnone
        · exact ha hmem
        · rw [hnone] at hnode
          cases hnode
      rcases ReflTransGen.cases_head hback with rfl | ⟨d, ⟨ds, hds, -⟩, -⟩
      · rw [hnone] at hnode
        cases hnode
      · rw [hnone] at hds
        cases hds
    · exact h.acyclic x hx hcycle

/-- What the search from some nodes has made of the black nodes. -/
structure Searched (node : α → Option (List α)) (grey black : List α) (roots : List α)
    (black' : List α) : Prop where
  done : Done node black'
  subset : black ⊆ black'
  apart : ∀ x ∈ black', x ∉ grey
  roots : ∀ c ∈ roots, c ∈ black' ∨ node c = none

omit [DecidableEq α] in
theorem searched_of_findCycles
    (hsearch : ∀ {black black' c}, Done node black → (∀ x ∈ black, x ∉ grey) →
      search black c = .ok black' → Searched node grey black [c] black') (hdone : Done node black) (hapart : ∀ x ∈ black, x ∉ grey)
    (h : findCycles search black cs = .ok black') : Searched node grey black cs black' := by
  induction cs generalizing black with
  | nil =>
    cases h
    exact ⟨hdone, List.Subset.refl _, hapart, fun _ hc => absurd hc not_mem_nil⟩
  | cons c cs ih =>
    obtain ⟨black₁, hc, hcs⟩ := findCycles_cons h
    have hfirst := hsearch hdone hapart hc
    have hrest := ih hfirst.done hfirst.apart hcs
    refine ⟨hrest.done, List.Subset.trans hfirst.subset hrest.subset, hrest.apart, fun d hd => ?_⟩
    rcases mem_cons.mp hd with rfl | hd
    · exact (hfirst.roots d mem_cons_self).imp_left (hrest.subset ·)
    · exact hrest.roots d hd

theorem searched_of_findCycle {a : α} (hdone : Done node black)
    (hapart : ∀ x ∈ black, x ∉ grey) (h : findCycle node n grey black a = .ok black') :
    Searched node grey black [a] black' := by
  induction n generalizing grey black black' a with
  | zero => cases h
  | succ n ih =>
    rw [findCycle] at h
    cases hnode : node a with
    | none =>
      rw [hnode] at h
      cases h
      exact ⟨hdone, List.Subset.refl _, hapart, fun c hc => .inr (mem_singleton.mp hc ▸ hnode)⟩
    | some cs =>
      rw [hnode] at h
      dsimp only at h
      split_ifs at h with hgrey hblack
      · cases h
        exact ⟨hdone, List.Subset.refl _, hapart, fun c hc => .inl (mem_singleton.mp hc ▸ hblack)⟩
      cases hall : findCycles (findCycle node n (a :: grey)) black cs with
      | out | fail e =>
        rw [hall] at h
        cases h
      | ok black₁ =>
        rw [hall] at h
        cases h
        have hapart' : ∀ x ∈ black, x ∉ a :: grey := by
          intro x hx hmem
          rcases mem_cons.mp hmem with rfl | hmem
          · exact hblack hx
          · exact hapart x hx hmem
        have hchildren := searched_of_findCycles (fun hd ha hc => ih hd ha hc) hdone hapart' hall
        have ha : a ∉ black₁ := fun hmem => hchildren.apart a hmem mem_cons_self
        refine ⟨hchildren.done.cons hnode hchildren.roots ha,
          fun x hx => mem_cons_of_mem _ (hchildren.subset hx), fun x hx => ?_,
          fun c hc => .inl (mem_singleton.mp hc ▸ mem_cons_self)⟩
        rcases mem_cons.mp hx with rfl | hx
        · exact hgrey
        · exact fun hmem => hchildren.apart x hx (mem_cons_of_mem _ hmem)

/-! ### Fuel -/

omit [DecidableEq α] in
theorem findCycles_ne_out (hsearch : ∀ black, ∀ c ∈ cs, search black c ≠ .out) (black) :
    findCycles search black cs ≠ .out := by
  induction cs generalizing black with
  | nil => simp [findCycles]
  | cons c cs ih =>
    rw [findCycles]
    cases hc : search black c with
    | out => exact absurd hc (hsearch black c mem_cons_self)
    | fail e => simp
    | ok black₁ => exact ih (fun black d hd => hsearch black d (mem_cons_of_mem _ hd)) black₁

/-- **The search ends** when only the nodes of a list are known. -/
theorem findCycle_ne_out {inner} (hinner : ∀ a cs, node a = some cs → a ∈ inner) (hn : unseen inner grey < n) (black) (a : α) :
    findCycle node n grey black a ≠ .out := by
  induction n generalizing grey black a with
  | zero => exact absurd hn (Nat.not_lt_zero _)
  | succ n ih =>
    rw [findCycle]
    cases hnode : node a with
    | none => simp
    | some cs =>
      dsimp only
      split_ifs with hgrey hblack
      · simp
      · simp
      have hlt := unseen_lt (hinner a cs hnode) hgrey
      have hne : findCycles (findCycle node n (a :: grey)) black cs ≠ .out :=
        findCycles_ne_out (fun black c _ => ih (by omega) black c) black
      cases hall : findCycles (findCycle node n (a :: grey)) black cs with
      | out => exact absurd hall hne
      | fail e => simp
      | ok black₁ => simp

/-- **The search is exact**: it reports a cycle if and only if one can be reached. -/
theorem findCycle_iff {inner : List α} (hinner : ∀ a cs, node a = some cs → a ∈ inner)
    (hn : inner.length < n) (a : α) :
    findCycle node n [] [] a ≠ .out ∧ (findCycle node n [] [] a = .fail () ↔
      ∃ x, ReflTransGen (Follows node) a x ∧ TransGen (Follows node) x x) := by
  have hle : unseen inner [] ≤ inner.length := length_filter_le _ _
  have hne := findCycle_ne_out hinner (lt_of_le_of_lt hle hn) [] a
  refine ⟨hne, cycle_of_findCycle fun g hg => absurd hg not_mem_nil, ?_⟩
  rintro ⟨x, hax, hcycle⟩
  cases hsearch : findCycle node n [] [] a with
  | out => exact absurd hsearch hne
  | fail e => rfl
  | ok black =>
    exfalso
    have hempty : Done node [] :=
      ⟨fun x hx => absurd hx not_mem_nil, fun x hx => absurd hx not_mem_nil⟩
    have hsearched := searched_of_findCycle hempty (fun x hx => absurd hx not_mem_nil) hsearch
    obtain ⟨y, ⟨cs, hcs, -⟩, -⟩ := TransGen.head'_iff.mp hcycle
    have hx : x ∈ black ∨ node x = none := by
      rcases hsearched.roots a mem_cons_self with hmem | hnone
      · exact hsearched.done.reach hmem hax
      rcases ReflTransGen.cases_head hax with rfl | ⟨d, ⟨ds, hds, -⟩, -⟩
      · exact .inr hnone
      · rw [hnone] at hds
        cases hds
    rcases hx with hmem | hnone
    · exact hsearched.done.acyclic x hmem hcycle
    · rw [hnone] at hcs
      cases hcs

end BamlRest
