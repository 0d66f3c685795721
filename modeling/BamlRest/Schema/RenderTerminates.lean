import BamlRest.Schema.Build
import BamlRest.Schema.Render

/-!
# When rendering ends

A class that is not hoisted is written out where it is referred to.

* `render_returns_iff`: no class is written out inside itself.
-/

namespace BamlRest

open List Step

namespace Renderer

/-- The call for a type inside another one: none for a hoisted class. -/
def childCall (r : Renderer) (t : Ty) : List (Step RenderError Ty) :=
  if r.isHoistedClass t then [] else [.call t]

/-- What `innerTypeRender` does for a type. -/
def calls (r : Renderer) (t : Ty) : List (Step RenderError Ty) :=
  match t with
  | .primitive _ (.media _) => [.fail (.notSupported t)]
  | .primitive _ _ | .literal _ _ | .recursiveAlias _ _ _ => []
  | .enum _ name _ => if (r.b.findEnum name).isSome then [] else [.fail (.enumNotFound name)]
  | .cls _ name mode _ =>
    match r.b.findClass name mode with
    | none => [.fail (.classNotFound name)]
    | some c => c.fields.flatMap fun f => r.childCall f.type
  | .list _ e => r.childCall e
  | .union _ vs nullable => (unionIterIncludeNull vs nullable).flatMap r.childCall
  | .map _ k v => r.childCall k ++ r.childCall v
  | .tuple _ _ | .arrow _ _ _ | .top _ => [.fail (.notSupported t)]

theorem void_renderPossiblyHoisted (r : Renderer) (rec : Ty → Run RenderError Bytes) (t : Ty) :
    (r.renderPossiblyHoisted rec t).void = runSteps (fun t => (rec t).void) (r.childCall t) := by
  have hcall : (rec t).void = runSteps (fun t => (rec t).void) [.call t] := by
    simp only [runSteps]
    cases rec t <;> rfl
  cases t with
  | cls m name mode d =>
    by_cases h : r.ctx.hoistedClasses.contains name
    · have hhoisted : r.isHoistedClass (.cls m name mode d) := h
      rw [renderPossiblyHoisted, if_pos h, childCall, if_pos hhoisted]
      rfl
    have hhoisted : ¬r.isHoistedClass (.cls m name mode d) = true := h
    rw [renderPossiblyHoisted, if_neg h, childCall, if_neg hhoisted]
    exact hcall
  | _ => exact hcall

theorem void_bind_bind {ε α β γ : Type} (x : Run ε α) (y : Run ε β) (f : α → β → γ) :
    (x >>= fun a => y >>= fun b => pure (f a b)).void = x.void >>= fun _ => y.void := by
  cases x <;> cases y <;> rfl

theorem void_bind_pure {ε α β : Type} (x : Run ε α) (f : α → β) :
    (x >>= fun a => pure (f a)).void = x.void := by
  cases x <;> rfl

theorem void_renderMembers (r : Renderer) (rec : Ty → Run RenderError Bytes) (ts : List Ty) :
    (r.renderMembers rec ts).void = runSteps (fun t => (rec t).void) (ts.flatMap r.childCall) := by
  induction ts with
  | nil => rfl
  | cons t ts ih =>
    rw [renderMembers, void_bind_bind, ih, void_renderPossiblyHoisted, flatMap_cons,
      runSteps_append]

theorem void_fieldsRender (r : Renderer) (rec : Ty → Run RenderError Bytes) (fs : List ClassField) :
    (r.fieldsRender rec fs).void =
      runSteps (fun t => (rec t).void) (fs.flatMap fun f => r.childCall f.type) := by
  induction fs with
  | nil => rfl
  | cons f fs ih =>
    rw [fieldsRender, void_bind_bind, ih, void_renderPossiblyHoisted, flatMap_cons, runSteps_append]

theorem fuelled (r : Renderer) : Fuelled r.calls fun n t => (r.innerTypeRender n t).void where
  zero _ := rfl
  succ n t := by
    rw [innerTypeRender]
    cases t with
    | top | tuple | arrow | literal | recursiveAlias => rfl
    | primitive m p => cases p <;> rfl
    | enum m name d =>
      simp only [innerTypeRenderF, calls]
      cases r.b.findEnum name <;> rfl
    | cls m name mode d =>
      simp only [innerTypeRenderF, calls]
      cases r.b.findClass name mode with
      | none => rfl
      | some c =>
        simp only [classRender]
        rw [void_bind_pure, void_fieldsRender]
    | list m e =>
      simp only [innerTypeRenderF, calls, listRender]
      rw [void_bind_pure, void_renderPossiblyHoisted]
    | map m k v =>
      simp only [innerTypeRenderF, calls, mapRender]
      rw [void_bind_bind, void_renderPossiblyHoisted, void_renderPossiblyHoisted, runSteps_append]
    | union m vs nullable =>
      simp only [innerTypeRenderF, calls]
      rw [void_bind_pure, void_renderMembers]

variable {r : Renderer} {t s : Ty}

theorem mem_childCall : call s ∈ r.childCall t ↔ s = t ∧ r.isHoistedClass t = false := by
  rw [childCall]
  split_ifs with h
  · simp [h]
  · simp [Bool.eq_false_iff.mpr h]

theorem fail_notMem_childCall (r : Renderer) (e : RenderError) (t : Ty) :
    fail e ∉ r.childCall t := by
  rw [childCall]
  split_ifs <;> simp

theorem mem_unionIterIncludeNull {vs nullable}
    (h : t ∈ unionIterIncludeNull vs nullable) : t ∈ vs ∨ t = nullType := by
  rw [unionIterIncludeNull] at h
  split_ifs at h
  · simpa using h
  · exact .inl h

theorem mem_parts_of_call (h : call s ∈ r.calls t) (ht : ∀ m n md d, t ≠ .cls m n md d) :
    (s ∈ t.parts ∨ s = nullType) ∧ r.isHoistedClass s = false := by
  cases t with
  | top | tuple | arrow | literal | recursiveAlias => simp [calls] at h
  | primitive m p => cases p <;> simp [calls] at h
  | enum m name d =>
    rw [calls] at h
    split_ifs at h <;> simp at h
  | cls m n md d => exact absurd rfl (ht m n md d)
  | list m e =>
    obtain ⟨rfl, hs⟩ := mem_childCall.mp h
    exact ⟨.inl mem_cons_self, hs⟩
  | map m k v =>
    rcases mem_append.mp h with h | h
    · obtain ⟨rfl, hs⟩ := mem_childCall.mp h
      exact ⟨.inl (by simp [Ty.parts]), hs⟩
    · obtain ⟨rfl, hs⟩ := mem_childCall.mp h
      exact ⟨.inl (by simp [Ty.parts]), hs⟩
  | union m vs nullable =>
    obtain ⟨t, ht, h⟩ := mem_flatMap.mp h
    obtain ⟨rfl, hs⟩ := mem_childCall.mp h
    exact ⟨mem_unionIterIncludeNull ht, hs⟩

theorem call_of_class {m n md d} (h : call s ∈ r.calls (.cls m n md d)) :
    ∃ c, r.b.findClass n md = some c ∧ (∃ f ∈ c.fields, s = f.type) ∧ r.isHoistedClass s = false := by
  simp only [calls] at h
  cases hc : r.b.findClass n md with
  | none => simp [hc] at h
  | some c =>
    rw [hc] at h
    obtain ⟨f, hf, h⟩ := mem_flatMap.mp h
    obtain ⟨rfl, hs⟩ := mem_childCall.mp h
    exact ⟨c, rfl, ⟨f, hf, rfl⟩, hs⟩

theorem innerTypeRender_cls (r : Renderer) (N : ℕ) (m m' : TypeMeta) (n : Bytes)
    (md : StreamingMode) (d d' : Bool) :
    r.innerTypeRender N (.cls m n md d) = r.innerTypeRender N (.cls m' n md d') := by
  cases N <;> rfl

end Renderer

def inlines (b : Bundle) (hoisted : List Bytes) (k k' : ClassKey) : Prop :=
  b.refEdge k k' ∧ k'.name ∉ hoisted

namespace Renderer

/-! ### No cycle -/

theorem acc_of_refersTo {r : Renderer} (t : Ty) (ht : r.isHoistedClass t = false)
    (hrefs : ∀ k, t.RefersTo k → k.name ∉ r.ctx.hoistedClasses → ∀ m d,
      Acc (fun a b => call a ∈ r.calls b) (.cls m k.name k.mode d)) :
    Acc (fun a b => call a ∈ r.calls b) t := by
  have hnull : Acc (fun a b => call a ∈ r.calls b) nullType :=
    ⟨_, fun a ha => by cases ha⟩
  have hstep : ∀ t : Ty, (∀ m n md d, t ≠ .cls m n md d) →
      (∀ s ∈ t.parts, r.isHoistedClass s = false →
        (∀ k, s.RefersTo k → k.name ∉ r.ctx.hoistedClasses → ∀ m d,
          Acc (fun a b => call a ∈ r.calls b) (.cls m k.name k.mode d)) →
        Acc (fun a b => call a ∈ r.calls b) s) →
      (∀ k, t.RefersTo k → k.name ∉ r.ctx.hoistedClasses → ∀ m d,
        Acc (fun a b => call a ∈ r.calls b) (.cls m k.name k.mode d)) →
      Acc (fun a b => call a ∈ r.calls b) t := by
    intro t hcls hparts hrefs
    refine ⟨t, fun s hs => ?_⟩
    obtain ⟨hs | rfl, hhoisted⟩ := mem_parts_of_call hs hcls
    · exact hparts s hs hhoisted fun k hk => hrefs k (hk.of_part hs)
    · exact hnull
  induction t using Ty.induction with
  | cls m n md d =>
    refine hrefs ⟨n, md⟩ ⟨m, d, .refl _⟩ ?_ m d
    simpa [isHoistedClass] using ht
  | top | primitive | enum | literal | recursiveAlias =>
    exact hstep _ (by simp) (by simp [Ty.parts]) hrefs
  | list m e ih =>
    refine hstep _ (by simp) (fun s hs => ?_) hrefs
    cases mem_singleton.mp hs
    exact ih
  | map m k v ihk ihv =>
    refine hstep _ (by simp) (fun s hs => ?_) hrefs
    rcases mem_cons.mp hs with rfl | hs
    · exact ihk
    · cases mem_singleton.mp hs
      exact ihv
  | tuple m ts ih | union m ts n ih => exact hstep _ (by simp) ih hrefs
  | arrow m ts ret ih ihr =>
    refine hstep _ (by simp) (fun s hs => ?_) hrefs
    rcases mem_append.mp hs with hs | hs
    · exact ih s hs
    · cases mem_singleton.mp hs
      exact ihr

theorem acc_class {r : Renderer} {k : ClassKey}
    (hk : Acc (fun x y => inlines r.b r.ctx.hoistedClasses y x) k) (m) (d : Bool) :
    Acc (fun a b => call a ∈ r.calls b) (.cls m k.name k.mode d) := by
  induction hk generalizing m d with
  | intro k _ ih =>
    refine ⟨_, fun s hs => ?_⟩
    obtain ⟨c, hc, ⟨f, hf, rfl⟩, hhoisted⟩ := call_of_class hs
    exact acc_of_refersTo f.type hhoisted fun k' hk' hname m d =>
      ih k' ⟨⟨c, hc, f, hf, hk'⟩, hname⟩ m d

/-! ### Rendering a valid bundle -/

/-- The types that are rendered: those of the bundle, null, and references to its classes. -/
def Renders (r : Renderer) (t : Ty) : Prop :=
  r.b.HasType t ∨ t = nullType ∨ ∃ m n md d, t = .cls m n md d ∧ (r.b.findClass n md).isSome

section

variable {r : Renderer} (hvalid : r.b.validateOutput = .ok ())

include hvalid

variable {t : Ty}

theorem Renders.no_fail (ht : r.Renders t) (e : RenderError) : .fail e ∉ r.calls t := by
  have hclass : ∀ m n md d, (r.b.findClass n md).isSome →
      fail e ∉ r.calls (.cls m n md d) := by
    intro m n md d hfound
    obtain ⟨c, hc⟩ := Option.isSome_iff_exists.mp hfound
    simp [calls, hc, fail_notMem_childCall]
  rcases ht with ht | rfl | ⟨m, n, md, d, rfl, hfound⟩
  · obtain ⟨⟨path, hstruct⟩, path', hout⟩ := r.b.validateOutput_type hvalid ht
    cases t with
    | top | tuple | arrow => cases hout
    | literal | recursiveAlias => simp [calls]
    | primitive m p =>
      cases p with
      | media k => cases hout
      | _ => simp [calls]
    | enum m name d =>
      rw [validateType] at hstruct
      split_ifs at hstruct with hfound
      simp [calls, hfound]
    | cls m name mode d =>
      rw [validateType] at hstruct
      split_ifs at hstruct with hfound
      exact hclass m name mode d hfound
    | list m s => exact fail_notMem_childCall r e s
    | map m k v => simp [calls, fail_notMem_childCall]
    | union m vs nullable => simp [calls, fail_notMem_childCall]
  · simp [calls, nullType]
  · exact hclass m n md d hfound

omit hvalid in
theorem Renders.call {s : Ty} (ht : r.Renders t) (hs : .call s ∈ r.calls t) : r.Renders s := by
  by_cases hcls : ∃ m n md d, t = .cls m n md d
  · obtain ⟨m, n, md, d, rfl⟩ := hcls
    obtain ⟨c, hc, ⟨f, hf, rfl⟩, -⟩ := call_of_class hs
    exact .inl (Bundle.hasType_field (Bundle.mem_of_findClass hc).1 hf)
  obtain ⟨hs | rfl, -⟩ := mem_parts_of_call hs fun m n md d h => hcls ⟨m, n, md, d, h⟩
  · rcases ht with ht | rfl | ⟨m, n, md, d, rfl, -⟩
    · exact .inl (ht.part hs)
    · cases hs
    · cases hs
  · exact .inr (.inl rfl)

theorem neverFails : NeverFails r.calls r.Renders :=
  ⟨fun _ h => h.no_fail hvalid, fun _ h _ => h.call⟩

variable {n : Bytes} {md : StreamingMode} {d : Bool}

omit hvalid in
theorem isHoistedClass_of_sub {m}
    (hsub : Ty.Sub (.cls m n md d) t) (hn : n ∉ r.ctx.hoistedClasses) :
    r.isHoistedClass t = false := by
  cases hsub with
  | refl => simpa [isHoistedClass] using hn
  | part _ hpart =>
    cases t with
    | cls => cases hpart
    | _ => rfl

variable {N : ℕ}

theorem returns_part {s : Ty} (ht : r.b.HasType t) (hs : s ∈ t.parts)
    (hhoisted : r.isHoistedClass s = false) (hN : r.innerTypeRender N t ≠ .out) :
    ∃ M < N, r.innerTypeRender M s ≠ .out := by
  have hcall : .call s ∈ r.calls t := by
    obtain ⟨-, path, hout⟩ := r.b.validateOutput_type hvalid ht
    have hmem := mem_childCall.mpr ⟨rfl, hhoisted⟩
    cases t with
    | top | primitive | enum | literal | cls | recursiveAlias => cases hs
    | tuple | arrow => cases hout
    | list m e =>
      cases mem_singleton.mp hs
      exact hmem
    | map m k v =>
      rcases mem_cons.mp hs with rfl | hs
      · exact mem_append_left _ hmem
      · cases mem_singleton.mp hs
        exact mem_append_right _ hmem
    | union m vs nullable =>
      refine mem_flatMap.mpr ⟨s, ?_, hmem⟩
      rw [unionIterIncludeNull]
      split_ifs
      · exact mem_append_left _ hs
      · exact hs
  obtain ⟨M, hM, hs⟩ := r.fuelled.call_returns (neverFails hvalid) (.inl ht)
    (fun h => hN (Run.void_eq_out_iff.mp h)) hcall
  exact ⟨M, hM, fun h => hs (Run.void_eq_out_iff.mpr h)⟩

variable {k : ClassKey}

theorem returns_sub {m} (hsub : Ty.Sub (.cls m k.name k.mode d) t) (ht : r.b.HasType t)
    (hk : k.name ∉ r.ctx.hoistedClasses) (hN : r.innerTypeRender N t ≠ .out) :
    ∃ M ≤ N, r.innerTypeRender M (.cls m k.name k.mode d) ≠ .out := by
  induction hsub generalizing N with
  | refl => exact ⟨N, le_rfl, hN⟩
  | @part t u hsub htu ih =>
    have hhoisted := isHoistedClass_of_sub hsub hk
    obtain ⟨M, hM, hreturn⟩ := returns_part hvalid ht htu hhoisted hN
    obtain ⟨M', hM', hreturn'⟩ := ih (ht.part htu) hreturn
    exact ⟨M', hM'.trans hM.le, hreturn'⟩

theorem returns_inlines {k'} (h : inlines r.b r.ctx.hoistedClasses k k') (hN : r.innerTypeRender N (.cls .zero k.name k.mode false) ≠ .out) :
    ∃ M < N, r.innerTypeRender M (.cls .zero k'.name k'.mode false) ≠ .out := by
  obtain ⟨⟨c, hc, f, hf, m, d, hsub⟩, hk'⟩ := h
  have hhoisted := isHoistedClass_of_sub hsub hk'
  have hcall : .call f.type ∈ r.calls (.cls .zero k.name k.mode false) := by
    simp only [calls, hc]
    exact mem_flatMap.mpr ⟨f, hf, mem_childCall.mpr ⟨rfl, hhoisted⟩⟩
  have hrenders : r.Renders (.cls .zero k.name k.mode false) :=
    .inr (.inr ⟨_, _, _, _, rfl, by rw [hc]; rfl⟩)
  obtain ⟨M, hM, hreturn⟩ := r.fuelled.call_returns (neverFails hvalid) hrenders
    (fun h => hN (Run.void_eq_out_iff.mp h)) hcall
  obtain ⟨M', hM', hreturn'⟩ := returns_sub hvalid hsub
    (Bundle.hasType_field (Bundle.mem_of_findClass hc).1 hf) hk'
    (fun h => hreturn (Run.void_eq_out_iff.mpr h))
  exact ⟨M', hM'.trans_lt hM, by rwa [r.innerTypeRender_cls M' .zero m]⟩

theorem out_of_cycle (h : Relation.TransGen (inlines r.b r.ctx.hoistedClasses) k k) (N : ℕ) :
    r.innerTypeRender N (.cls .zero k.name k.mode false) = .out := by
  have hchain : ∀ {k k'}, Relation.TransGen (inlines r.b r.ctx.hoistedClasses) k k' → ∀ N,
      r.innerTypeRender N (.cls .zero k.name k.mode false) ≠ .out →
      ∃ M < N, r.innerTypeRender M (.cls .zero k'.name k'.mode false) ≠ .out := by
    intro k k' hkk'
    induction hkk' with
    | single hstep => exact fun N hN => returns_inlines hvalid hstep hN
    | tail _ hstep ih =>
      intro N hN
      obtain ⟨M, hM, hreturn⟩ := ih N hN
      obtain ⟨M', hM', hreturn'⟩ := returns_inlines hvalid hstep hreturn
      exact ⟨M', hM'.trans hM, hreturn'⟩
  induction N using Nat.strong_induction_on with
  | _ N ih =>
    by_contra hN
    obtain ⟨M, hM, hreturn⟩ := hchain h N hN
    exact hreturn (ih M hM)

theorem returns_class (hno : ∀ k, ¬Relation.TransGen (inlines r.b r.ctx.hoistedClasses) k k) (hfound : (r.b.findClass n md).isSome) (m : TypeMeta)
    (d : Bool) : ∃ N, (r.innerTypeRender N (.cls m n md d)).void = .ok () := by
  have hkeys : ∀ k k', inlines r.b r.ctx.hoistedClasses k k' → k' ∈ r.b.classes.map ClassDef.key := by
    rintro k k' ⟨⟨c, hc, f, hf, hk'⟩, -⟩
    obtain ⟨c', hc'⟩ := Bundle.findClass_of_refersTo hvalid
      (Bundle.hasType_field (Bundle.mem_of_findClass hc).1 hf) hk'
    obtain ⟨hmem, hkey⟩ := Bundle.mem_of_findClass hc'
    exact mem_map.mpr ⟨c', hmem, hkey⟩
  have hfin : {x | Relation.ReflTransGen (inlines r.b r.ctx.hoistedClasses) ⟨n, md⟩ x}.Finite := by
    refine ((finite_toSet (⟨n, md⟩ :: r.b.classes.map ClassDef.key))).subset fun x hx => ?_
    cases hx with
    | refl => exact mem_cons_self
    | tail _ hstep => exact mem_cons_of_mem _ (hkeys _ _ hstep)
  obtain ⟨N, hN⟩ := r.fuelled.returns_of_acc
    (acc_class (acc_of_no_cycle hfin fun k _ => hno k) m d)
  exact ⟨N, r.fuelled.ok_of_no_fail (neverFails hvalid) (.inr (.inr ⟨m, n, md, d, rfl, hfound⟩)) hN⟩

theorem classDefinitions_ne_out_iff (N : ℕ) (names : List Bytes)
    (hfound : ∀ n ∈ names, (r.b.findClass n .nonStreaming).isSome) :
    r.classDefinitions N names ≠ .out ↔
      ∀ n ∈ names, r.innerTypeRender N (.cls .zero n .nonStreaming false) ≠ .out := by
  induction names with
  | nil => simp [classDefinitions]
  | cons n names ih =>
    simp only [mem_cons, forall_eq_or_imp] at hfound
    have hrest := ih hfound.2
    have hok := r.fuelled.ok_of_no_fail (neverFails hvalid) (n := N)
      (.inr (.inr ⟨.zero, n, .nonStreaming, false, rfl, hfound.1⟩))
    simp only [mem_cons, forall_eq_or_imp, ← hrest]
    rw [classDefinitions]
    cases hn : r.innerTypeRender N (.cls .zero n .nonStreaming false) with
    | out => simp
    | fail e => rw [hn] at hok; cases hok (by simp)
    | ok body => cases r.classDefinitions N names <;> simp

omit hvalid in
theorem enumDefinitions_ne_out (r : Renderer) (b : Bool) (pre : Option Bytes)
    (names : List Bytes) : r.enumDefinitions b pre names ≠ .out := by
  induction names with
  | nil => simp [enumDefinitions]
  | cons n names ih =>
    rw [enumDefinitions]
    cases r.b.findEnum n with
    | none => simp
    | some e =>
      cases h : r.enumDefinitions b pre names with
      | out => exact absurd h ih
      | _ => simp

theorem renderText_ne_out_iff {m}
    (htarget : r.b.target = .cls m n md d) (halias : r.b.structuralRecursiveAliases = []) (N : ℕ) :
    r.renderText N ≠ .out ↔ r.innerTypeRender N (.cls m n md d) ≠ .out ∧
      r.classDefinitions N r.ctx.hoistedClasses ≠ .out := by
  have hok := r.fuelled.ok_of_no_fail (neverFails hvalid) (n := N)
    (.inl (htarget ▸ r.b.hasType_target : r.b.HasType (.cls m n md d)))
  simp only [renderText, message, htarget, halias, aliasDefinitions]
  cases hmsg : r.innerTypeRender N (.cls m n md d) with
  | out => simp
  | fail e => rw [hmsg] at hok; cases hok (by simp)
  | ok text =>
    cases r.classDefinitions N r.ctx.hoistedClasses with
    | out => simp
    | fail e => simp
    | ok defs =>
      cases henums : r.enumDefinitions false r.schemaPrefix r.ctx.hoistedEnums with
      | out => exact absurd henums (enumDefinitions_ne_out r _ _ _)
      | _ => simp

end

end Renderer

/-! ### The whole text -/

/-- The bundle is rejected, the options name a class that does not exist, or no class that is not
hoisted is written out inside itself. -/
def RenderEnds (b : Bundle) (opts : RenderOptions) : Prop :=
  ∀ hoisted, b.validateOutput = .ok () → hoistedClasses b opts = .ok hoisted →
    ∀ k, ¬Relation.TransGen (inlines b hoisted) k k

theorem mem_foldl_addOnce {s names : List Bytes} {n : Bytes} (h : n ∈ names.foldl addOnce s) :
    n ∈ s ∨ n ∈ names := by
  induction names generalizing s with
  | nil => exact .inl h
  | cons x names ih =>
    rcases ih h with h | h
    · rw [addOnce] at h
      split_ifs at h
      · exact .inl h
      rcases mem_append.mp h with h | h
      · exact .inl h
      · exact .inr (mem_cons.mpr (.inl (mem_singleton.mp h)))
    · exact .inr (mem_cons_of_mem _ h)

theorem findClass_of_hoisted {b : Bundle} (hmode : ∀ c ∈ b.classes, c.mode = .nonStreaming)
    (hrec : b.recursiveClasses = []) {opts : RenderOptions} {hoisted : List Bytes}
    (h : hoistedClasses b opts = .ok hoisted) {n : Bytes} (hn : n ∈ hoisted) :
    (b.findClass n .nonStreaming).isSome := by
  have hmem : ∀ c ∈ b.classes, c.name.name = n → (b.findClass n .nonStreaming).isSome := by
    rintro c hc rfl
    refine find?_isSome.mpr ⟨c, hc, ?_⟩
    simp [ClassDef.key, hmode c hc]
  simp only [hoistedClasses, hrec, foldl_nil] at h
  cases hopts : opts.hoistClasses with
  | auto =>
    rw [hopts] at h
    cases h
    cases hn
  | all =>
    rw [hopts] at h
    cases h
    rcases mem_foldl_addOnce hn with hn | hn
    · cases hn
    · obtain ⟨c, hc, rfl⟩ := mem_map.mp hn
      exact hmem c hc rfl
  | subset names =>
    rw [hopts] at h
    simp only at h
    split_ifs at h
    cases h
    rcases mem_foldl_addOnce hn with hn | hn
    · cases hn
    have hexists := (mem_filter.mp hn).2
    rw [Bundle.classExists, Bool.or_eq_true] at hexists
    rcases hexists with hfound | hfound
    · exact hfound
    obtain ⟨c, hc⟩ := Option.isSome_iff_exists.mp hfound
    obtain ⟨hc, hkey⟩ := Bundle.mem_of_findClass hc
    exact hmem c hc (congrArg ClassKey.name hkey)

section

variable {r : Renderer} (hvalid : r.b.validateOutput = .ok ())
  (hmode : ∀ c ∈ r.b.classes, c.mode = .nonStreaming)
  (hfound : ∀ n ∈ r.ctx.hoistedClasses, (r.b.findClass n .nonStreaming).isSome)

include hvalid hmode hfound

theorem returns_reached {k0} {N : ℕ}
    (htarget : r.innerTypeRender N (.cls .zero k0.name k0.mode false) ≠ .out)
    (hdefs : r.classDefinitions N r.ctx.hoistedClasses ≠ .out) {k}
    (hk : Relation.ReflTransGen r.b.refEdge k0 k) :
    ∃ M, r.innerTypeRender M (.cls .zero k.name k.mode false) ≠ .out := by
  induction hk with
  | refl => exact ⟨N, htarget⟩
  | @tail k k' _ hedge ih =>
    by_cases hname : k'.name ∈ r.ctx.hoistedClasses
    · have hk' : k'.mode = .nonStreaming := by
        obtain ⟨c, hc, f, hf, href⟩ := hedge
        obtain ⟨c', hc'⟩ := Bundle.findClass_of_refersTo hvalid
          (Bundle.hasType_field (Bundle.mem_of_findClass hc).1 hf) href
        obtain ⟨hmem, hkey⟩ := Bundle.mem_of_findClass hc'
        exact (congrArg ClassKey.mode hkey).symm.trans (hmode c' hmem)
      rw [hk']
      exact ⟨N, (Renderer.classDefinitions_ne_out_iff hvalid N _ hfound).mp hdefs _ hname⟩
    obtain ⟨M, hM⟩ := ih
    obtain ⟨M', -, hM'⟩ := Renderer.returns_inlines hvalid ⟨hedge, hname⟩ hM
    exact ⟨M', hM'⟩

omit hmode in
theorem exists_renderText {n md d}
    (htarget : r.b.target = .cls .zero n md d) (halias : r.b.structuralRecursiveAliases = [])
    (hno : ∀ k, ¬Relation.TransGen (inlines r.b r.ctx.hoistedClasses) k k) :
    ∃ N, r.renderText N ≠ .out := by
  have htargetFound : (r.b.findClass n md).isSome := by
    have hhas : r.b.HasType (.cls .zero n md d) := htarget ▸ r.b.hasType_target
    have href : (Ty.cls .zero n md d).RefersTo ⟨n, md⟩ := ⟨.zero, d, .refl _⟩
    obtain ⟨c, hc⟩ := Bundle.findClass_of_refersTo hvalid hhas href
    rw [hc]
    rfl
  obtain ⟨N, hN⟩ := r.fuelled.exists_steps_ok (s := .call (.cls .zero n md d) ::
      r.ctx.hoistedClasses.map fun n => .call (.cls .zero n .nonStreaming false)) (by simp) (by
    intro a ha
    rcases mem_cons.mp ha with ha | ha
    · cases ha
      exact Renderer.returns_class hvalid hno htargetFound .zero d
    obtain ⟨n', hn', ha⟩ := mem_map.mp ha
    cases ha
    exact Renderer.returns_class hvalid hno (hfound n' hn') .zero false)
  have hall := (runSteps_eq_ok (hN N le_rfl)).2
  have hreturn : ∀ a, call a ∈ call (.cls .zero n md d) ::
      r.ctx.hoistedClasses.map
        (fun n => (call (.cls .zero n .nonStreaming false) : Step RenderError Ty)) →
      r.innerTypeRender N a ≠ .out := by
    intro a ha hout
    have := hall a ha
    rw [hout] at this
    cases this
  refine ⟨N, (Renderer.renderText_ne_out_iff hvalid htarget halias N).mpr
    ⟨hreturn _ mem_cons_self, ?_⟩⟩
  exact (Renderer.classDefinitions_ne_out_iff hvalid N _ hfound).mpr fun n' hn' =>
    hreturn _ (mem_cons_of_mem _ (mem_map.mpr ⟨n', hn', rfl⟩))

end

/-- **When rendering a dynamic schema ends**: exactly when the bundle or the options are rejected,
or no class that is not hoisted is written out inside itself. -/
theorem render_returns_iff (s : DynamicOutputSchema) (resolver : Option RefResolver) (b : Bundle)
    (opts : RenderOptions) (h : fromDynamicOutputSchema s resolver = .ok b) :
    (∃ fuel, render fuel b opts ≠ .out) ↔ RenderEnds b opts := by
  obtain ⟨enumDefs, classDefs, hmodes, rfl⟩ := fromDynamicOutputSchema_eq_ok h
  have hmode : ∀ c ∈ (reachableBundle enumDefs classDefs).classes, c.mode = .nonStreaming :=
    fun c hc => hmodes c (mem_of_find?_eq_some (orderByReachability_reached enumDefs classDefs
      .zero dynamicOutputClassName .nonStreaming true c hc).1)
  cases hvalid : (reachableBundle enumDefs classDefs).validateOutput with
  | error e =>
    refine ⟨fun _ _ hv => ?_, fun _ => ⟨0, by simp [render, hvalid]⟩⟩
    rw [hvalid] at hv
    cases hv
  | ok u =>
    cases hhoisted : hoistedClasses (reachableBundle enumDefs classDefs) opts with
    | error e =>
      refine ⟨fun _ _ _ hh => ?_, fun _ => ⟨0, by simp [render, hvalid, hhoisted]⟩⟩
      rw [hhoisted] at hh
      cases hh
    | ok hoisted =>
      have hfound := fun n hn => findClass_of_hoisted hmode rfl hhoisted (n := n) hn
      have hrender : ∀ fuel, render fuel (reachableBundle enumDefs classDefs) opts =
          Renderer.renderText ⟨reachableBundle enumDefs classDefs, opts,
            ⟨hoistedEnums (reachableBundle enumDefs classDefs) opts, hoisted⟩⟩ fuel := by
        intro fuel
        simp only [render, hvalid, hhoisted]
      simp only [hrender]
      constructor
      · rintro ⟨N, hN⟩ hoisted' - hh k hcycle
        cases hhoisted.symm.trans hh
        obtain ⟨htarget, hdefs⟩ := (Renderer.renderText_ne_out_iff hvalid rfl rfl N).mp hN
        obtain ⟨c, hc⟩ : ∃ c,
            (reachableBundle enumDefs classDefs).findClass k.name k.mode = some c := by
          obtain ⟨k', ⟨⟨c, hc, -⟩, -⟩, -⟩ := Relation.TransGen.head'_iff.mp hcycle
          exact ⟨c, hc⟩
        obtain ⟨hmem, hkey⟩ := Bundle.mem_of_findClass hc
        have hreach := reachableBundle_reached hvalid hmem
        rw [hkey] at hreach
        obtain ⟨M, hM⟩ := returns_reached hvalid hmode hfound
          (by rwa [Renderer.innerTypeRender_cls _ N .zero .zero _ _ false true]) hdefs hreach
        exact hM (Renderer.out_of_cycle hvalid hcycle M)
      · intro hends
        exact exists_renderText hvalid hfound rfl rfl (hends hoisted hvalid hhoisted)

/-- One property `node`, a list cell `Node` that may refer to a next one. -/
def nodeSchema : DynamicOutputSchema where
  properties := ⟨[("node", some ⟨refSpec "Node", [], []⟩)], by decide⟩
  classes := ⟨[("Node", some ⟨[], [], ⟨[("next", some
    ⟨⟨"optional", [], none, some (refSpec "Node"), [], none, none, .nil⟩, [], []⟩)],
      by decide⟩⟩)], by decide⟩
  enums := .empty

/-- What `nodeSchema` is lowered to: `Node` is not listed as recursive. -/
def nodeBundle : Bundle where
  target := dynamicTarget
  enums := []
  classes :=
    [⟨⟨dynamicOutputClassName, none⟩, none, .nonStreaming,
        [⟨⟨"node", none⟩, .cls .zero "Node" .nonStreaming true, none, false⟩], [],
        ⟨false, false, false⟩⟩,
      ⟨⟨"Node", none⟩, none, .nonStreaming,
        [⟨⟨"next", none⟩,
          .union .zero [.cls .zero "Node" .nonStreaming true] true, none, false⟩], [],
        ⟨false, false, false⟩⟩]
  recursiveClasses := []
  structuralRecursiveAliases := []

theorem nodeSchema_lowered : fromDynamicOutputSchema nodeSchema none = .ok nodeBundle := by
  rfl

theorem nodeBundle_valid : nodeBundle.validateOutput = .ok () := by
  rfl

/-- With every class hoisted, even the recursive class is rendered. -/
theorem render_returns_iff_nodeSchema :
    fromDynamicOutputSchema nodeSchema none = .ok nodeBundle ∧
      RenderEnds nodeBundle { RenderOptions.zero with hoistClasses := .all } :=
  ⟨nodeSchema_lowered, (render_returns_iff nodeSchema none nodeBundle _ nodeSchema_lowered).mp
    ⟨5, by decide +kernel⟩⟩

/-- With the default options, rendering a list cell does not end: no class is listed as recursive,
so `Node` is written out inside itself. -/
theorem render_nodeSchema_diverges :
    fromDynamicOutputSchema nodeSchema none = .ok nodeBundle ∧
      nodeBundle.validateOutput = .ok () ∧ ∀ fuel, render fuel nodeBundle .zero = .out := by
  refine ⟨nodeSchema_lowered, nodeBundle_valid, fun fuel => ?_⟩
  have hhoisted : hoistedClasses nodeBundle .zero = .ok [] := by decide +kernel
  let r : Renderer := ⟨nodeBundle, .zero, ⟨hoistedEnums nodeBundle .zero, []⟩⟩
  have hrender : render fuel nodeBundle .zero = r.renderText fuel := by
    simp only [render, nodeBundle_valid, hhoisted]
    rfl
  have hcycle : inlines nodeBundle [] ⟨bytes "Node", .nonStreaming⟩ ⟨bytes "Node", .nonStreaming⟩ :=
    ⟨⟨_, rfl, _, mem_cons_self, .zero, true, .part (.refl _) mem_cons_self⟩, by simp⟩
  have hroot : inlines nodeBundle [] ⟨dynamicOutputClassName, .nonStreaming⟩
      ⟨bytes "Node", .nonStreaming⟩ :=
    ⟨⟨_, rfl, _, mem_cons_self, .zero, true, .refl _⟩, by simp⟩
  rw [hrender]
  by_contra hreturn
  obtain ⟨htarget, -⟩ := (r.renderText_ne_out_iff nodeBundle_valid rfl rfl fuel).mp hreturn
  rw [r.innerTypeRender_cls fuel .zero .zero _ _ true false] at htarget
  obtain ⟨M, -, hM⟩ := r.returns_inlines nodeBundle_valid hroot htarget
  exact hM (r.out_of_cycle nodeBundle_valid (.single hcycle) M)

end BamlRest
