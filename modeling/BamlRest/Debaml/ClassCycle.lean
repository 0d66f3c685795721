import BamlRest.Lib.Cycle
import BamlRest.Schema.Build

/-!
# Cycles of classes

`internal/debaml/stream_serve.go`, `typeGraphHasClassCycle`: whether the classes that the target
class refers to, directly or through other classes, refer back to each other.

* `typeGraphHasClassCycle_exact`: it finds a cycle exactly if there is one.
-/

namespace BamlRest

mutual

/-- `classRefs`: the classes a type refers to, without following the references. -/
def classRefs : Ty → List ClassKey
  | .cls _ name mode _ => [⟨name, mode⟩]
  | .list _ e => classRefs e
  | .map _ k v => classRefs k ++ classRefs v
  | .tuple _ ts => classRefsAll ts
  | .union _ vs _ => classRefsAll vs
  | .top _ | .primitive _ _ | .enum _ _ _ | .literal _ _ | .recursiveAlias _ _ _
  | .arrow _ _ _ => []

/-- `classRefs` of the items of a tuple or the variants of a union. -/
def classRefsAll : List Ty → List ClassKey
  | [] => []
  | t :: ts => classRefs t ++ classRefsAll ts

end

/-- The classes that the fields of a class refer to, if there is such a class. -/
def Bundle.fieldRefs (b : Bundle) (k : ClassKey) : Option (List ClassKey) :=
  (b.findClass k.name k.mode).map fun c => c.fields.flatMap fun f => classRefs f.type

/-- `typeGraphHasClassCycle`, to the depth `fuel`. -/
def typeGraphHasClassCycle (b : Bundle) (fuel : ℕ) : Run Unit Bool :=
  match b.target with
  | .cls _ name mode _ =>
    match findCycle b.fieldRefs fuel [] [] ⟨name, mode⟩ with
    | .out => .out
    | .fail _ => .ok true
    | .ok _ => .ok false
  | _ => .ok false

/-! ### The references of a type -/

theorem mem_classRefsAll {ts k} : k ∈ classRefsAll ts ↔ ∃ t ∈ ts, k ∈ classRefs t := by
  induction ts with
  | nil => simp [classRefsAll]
  | cons t ts ih => simp [classRefsAll, ih]

theorem Ty.refersTo_iff {t : Ty} {k} :
    t.RefersTo k ↔ (∃ m d, t = .cls m k.name k.mode d) ∨ ∃ s ∈ t.parts, s.RefersTo k := by
  constructor
  · rintro ⟨m, d, hsub⟩
    cases hsub with
    | refl => exact .inl ⟨m, d, rfl⟩
    | part h ht => exact .inr ⟨_, ht, m, d, h⟩
  rintro (⟨m, d, rfl⟩ | ⟨s, hs, h⟩)
  · exact ⟨m, d, .refl _⟩
  · exact h.of_part hs

theorem mem_classRefs_iff {b : Bundle} (hvalid : b.validateOutput = .ok ()) {t : Ty}
    (ht : b.HasType t) {k : ClassKey} : k ∈ classRefs t ↔ t.RefersTo k := by
  have hparts : ∀ {s : Ty}, (∀ s' ∈ s.parts, (k ∈ classRefs s' ↔ s'.RefersTo k)) →
      (k ∈ classRefs s ↔ ∃ s' ∈ s.parts, k ∈ classRefs s') →
      (∀ m d, s ≠ .cls m k.name k.mode d) → (k ∈ classRefs s ↔ s.RefersTo k) := by
    intro s hs hrefs hcls
    rw [Ty.refersTo_iff, hrefs]
    constructor
    · rintro ⟨s', hs', hk⟩
      exact .inr ⟨s', hs', (hs s' hs').mp hk⟩
    rintro (⟨m, d, heq⟩ | ⟨s', hs', hk⟩)
    · exact absurd heq (hcls m d)
    · exact ⟨s', hs', (hs s' hs').mpr hk⟩
  induction t using Ty.parts_induction with
  | h t ih =>
    have ih' : ∀ s ∈ t.parts, (k ∈ classRefs s ↔ s.RefersTo k) := fun s hs => ih s hs (ht.part hs)
    cases t with
    | cls m name mode d =>
      obtain ⟨kname, kmode⟩ := k
      rw [Ty.refersTo_iff]
      simp [classRefs, Ty.parts, eq_comm]
    | arrow m ts r =>
      obtain ⟨-, path, houtput⟩ := b.validateOutput_type hvalid ht
      cases houtput
    | tuple m ts | union m ts n =>
      exact hparts ih' (by simp [classRefs, Ty.parts, mem_classRefsAll]) (by simp)
    | list m e | map m e v =>
      exact hparts ih' (by simp [classRefs, Ty.parts]) (by simp)
    | _ => exact hparts ih' (by simp [classRefs, Ty.parts]) (by simp)

theorem follows_fieldRefs_iff {b : Bundle} (hvalid : b.validateOutput = .ok ()) {k k' : ClassKey} :
    Follows b.fieldRefs k k' ↔ b.refEdge k k' := by
  constructor
  · rintro ⟨refs, hrefs, hk'⟩
    obtain ⟨c, hc, rfl⟩ := Option.map_eq_some_iff.mp hrefs
    obtain ⟨f, hf, hmem⟩ := List.mem_flatMap.mp hk'
    have htype := Bundle.hasType_field (Bundle.mem_of_findClass hc).1 hf
    exact ⟨c, hc, f, hf, (mem_classRefs_iff hvalid htype).mp hmem⟩
  rintro ⟨c, hc, f, hf, hk'⟩
  have htype := Bundle.hasType_field (Bundle.mem_of_findClass hc).1 hf
  refine ⟨_, Option.map_eq_some_iff.mpr ⟨c, hc, rfl⟩, List.mem_flatMap.mpr ⟨f, hf, ?_⟩⟩
  exact (mem_classRefs_iff hvalid htype).mpr hk'

/-! ### What is reported -/

/-- Some class that a type refers to, directly or through other classes, refers back to itself. -/
def Bundle.ReachesCycle (b : Bundle) (t : Ty) : Prop :=
  ∃ k₀ k, t.RefersTo k₀ ∧ Relation.ReflTransGen b.refEdge k₀ k ∧ Relation.TransGen b.refEdge k k

/-- **Cycle detection is exact for a class**: with as much fuel as there are classes the search
ends, and it reports a cycle if and only if the target reaches one. For a target that is no class
it reports none. -/
theorem typeGraphHasClassCycle_exact (b : Bundle) (hvalid : b.validateOutput = .ok ()) (fuel : ℕ)
    (hfuel : b.classes.length < fuel) :
    (∃ r, typeGraphHasClassCycle b fuel = .ok r) ∧
      ((∃ m name mode d, b.target = .cls m name mode d) →
        (typeGraphHasClassCycle b fuel = .ok true ↔ b.ReachesCycle b.target)) ∧
      ((∀ m name mode d, b.target ≠ .cls m name mode d) →
        typeGraphHasClassCycle b fuel = .ok false) := by
  have hinner : ∀ k refs, b.fieldRefs k = some refs → k ∈ b.classes.map ClassDef.key := by
    intro k refs hrefs
    obtain ⟨c, hc, -⟩ := Option.map_eq_some_iff.mp hrefs
    obtain ⟨hmem, hkey⟩ := Bundle.mem_of_findClass hc
    exact List.mem_map.mpr ⟨c, hmem, hkey⟩
  have hsearch := findCycle_iff hinner (n := fuel) (by simpa using hfuel)
  have hedge : Follows b.fieldRefs = b.refEdge := by
    funext k k'
    exact propext (follows_fieldRefs_iff hvalid)
  by_cases htarget : ∃ m name mode d, b.target = .cls m name mode d
  · obtain ⟨m, name, mode, d, htarget⟩ := htarget
    obtain ⟨hne, hiff⟩ := hsearch ⟨name, mode⟩
    rw [hedge] at hiff
    have hreach : b.ReachesCycle b.target ↔ ∃ k, Relation.ReflTransGen b.refEdge ⟨name, mode⟩ k ∧
        Relation.TransGen b.refEdge k k := by
      rw [htarget]
      constructor
      · rintro ⟨k₀, k, hk₀, hk⟩
        rcases Ty.refersTo_iff.mp hk₀ with ⟨m', d', heq⟩ | ⟨s, hs, -⟩
        · cases heq
          exact ⟨k, hk⟩
        · exact absurd hs List.not_mem_nil
      · rintro ⟨k, hk⟩
        exact ⟨_, k, ⟨m, d, .refl _⟩, hk⟩
    have hresult : (∃ r, typeGraphHasClassCycle b fuel = .ok r) ∧
        (typeGraphHasClassCycle b fuel = .ok true ↔
          findCycle b.fieldRefs fuel [] [] ⟨name, mode⟩ = .fail ()) := by
      simp only [typeGraphHasClassCycle, htarget]
      cases hfind : findCycle b.fieldRefs fuel [] [] ⟨name, mode⟩ with
      | out => exact absurd hfind hne
      | fail e => simp
      | ok black => simp
    refine ⟨hresult.1, fun _ => ?_, fun h => absurd htarget (h m name mode d)⟩
    rw [hresult.2, hiff, hreach]
  · have hfalse : typeGraphHasClassCycle b fuel = .ok false := by
      unfold typeGraphHasClassCycle
      split
      · next heq => exact absurd ⟨_, _, _, _, heq⟩ htarget
      · rfl
    exact ⟨⟨false, hfalse⟩, fun h => absurd h htarget, fun _ => hfalse⟩

/-- A class `Node` with an optional `Node` in it, and a target. -/
def linkBundle (target : Ty) : Bundle where
  target
  enums := []
  classes := [⟨⟨"Node", none⟩, none, .nonStreaming,
    [⟨⟨"next", none⟩, .union .zero [.cls .zero "Node" .nonStreaming false] true,
      none, false⟩], [], ⟨false, false, false⟩⟩]
  recursiveClasses := []
  structuralRecursiveAliases := []

theorem linkBundle_refEdge (target : Ty) : (linkBundle target).refEdge
    ⟨"Node", .nonStreaming⟩ ⟨"Node", .nonStreaming⟩ := by
  refine ⟨_, by rfl, _, List.mem_cons_self, .zero, false, ?_⟩
  exact .part (.refl _) List.mem_cons_self

/-- A recursive class as the target. -/
theorem typeGraphHasClassCycle_exact_node :
    typeGraphHasClassCycle (linkBundle (.cls .zero (bytes "Node") .nonStreaming false)) 2 =
      .ok true := by
  refine ((typeGraphHasClassCycle_exact _ (by decide +kernel) 2 (by decide)).2.1
    ⟨_, _, _, _, rfl⟩).mpr ?_
  exact ⟨⟨bytes "Node", .nonStreaming⟩, ⟨bytes "Node", .nonStreaming⟩, ⟨.zero, false, .refl _⟩,
    .refl, .single (linkBundle_refEdge _)⟩

/-- A list of a recursive class as the target: the cycle is there and is not reported. -/
theorem typeGraphHasClassCycle_list_node :
    (linkBundle (.list .zero (.cls .zero (bytes "Node") .nonStreaming false))).validateOutput =
        .ok () ∧
      (linkBundle (.list .zero (.cls .zero (bytes "Node") .nonStreaming false))).ReachesCycle
        (.list .zero (.cls .zero (bytes "Node") .nonStreaming false)) ∧
      typeGraphHasClassCycle
        (linkBundle (.list .zero (.cls .zero (bytes "Node") .nonStreaming false))) 2 =
          .ok false := by
  refine ⟨by decide +kernel, ?_, rfl⟩
  exact ⟨⟨bytes "Node", .nonStreaming⟩, ⟨bytes "Node", .nonStreaming⟩,
    ⟨.zero, false, .part (.refl _) List.mem_cons_self⟩, .refl, .single (linkBundle_refEdge _)⟩

end BamlRest
