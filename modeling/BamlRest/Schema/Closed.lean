import BamlRest.Schema.ClosedWalk
import BamlRest.Schema.UnionNormal

/-!
# A lowered schema is closed

Lowering keeps the references of a type specification and adds none, so the definitions that the
lowered types reach are those that the schema reaches.

* `fromDynamicOutputSchema_closed`: every reference of the bundle has its definition.
-/

namespace BamlRest

open List Ty

/-! ### The schema -/

/-- A reference or a string literal of a type specification. -/
inductive SpecLeaf where
  | ref (name : Bytes)
  | literal (s : Bytes)
  deriving DecidableEq

namespace DynamicTypeSpec

mutual

/-- What a specification refers to, and its string literals. Fields that its type does not use
count for nothing. -/
def leaves : DynamicTypeSpec → List SpecLeaf
  | ⟨type, ref, items, inner, oneOf, keys, values, value⟩ =>
    if ref ≠ [] then [.ref ref]
    else if type = "list" then optionLeaves items
    else if type = "optional" then optionLeaves inner
    else if type = "map" then optionLeaves keys ++ optionLeaves values
    else if type = "union" then oneOfLeaves oneOf
    else if type = "literal_string" then
      match value with
      | .string s => [.literal s]
      | _ => []
    else []

def optionLeaves : Option DynamicTypeSpec → List SpecLeaf
  | none => []
  | some s => leaves s

def oneOfLeaves : List (Option DynamicTypeSpec) → List SpecLeaf
  | [] => []
  | o :: os => optionLeaves o ++ oneOfLeaves os

end

end DynamicTypeSpec

open DynamicTypeSpec

namespace DynamicOutputSchema

variable (s : DynamicOutputSchema)

/-- The properties of a class; those of the schema itself belong to the synthetic class. -/
def propertiesOf (name : Bytes) : Option (OrderedMap (Option DynamicProperty)) :=
  if name = dynamicOutputClassName then some s.properties
  else (s.classes.get name).bind fun c => c.map DynamicClass.properties

def specs : List DynamicTypeSpec :=
  (s.properties :: s.classes.entries.filterMap fun e => e.2.map DynamicClass.properties).flatMap
    fun props => props.entries.filterMap fun e => e.2.map DynamicProperty.spec

def declares (name : Bytes) : Bool :=
  (dynamicOutputClassName :: s.classes.keys).contains name || s.enums.keys.contains name

/-- The reference is to a name of the schema, the literal has no quote in it. -/
def fits : SpecLeaf → Bool
  | .ref name => s.declares name
  | .literal l => !l.contains '"'

end DynamicOutputSchema

open DynamicOutputSchema

def schemaEdge (s : DynamicOutputSchema) (n n' : Bytes) : Prop :=
  ∃ props, s.propertiesOf n = some props ∧
    ∃ e ∈ props.entries, ∃ p, e.2 = some p ∧ .ref n' ∈ p.spec.leaves

/-! ### Lowering a type -/

/-- A node of a type that is lowered from specifications with the given leaves. -/
def NodeFrom (b : Builder) (ls : List SpecLeaf) : Ty → Prop
  | .enum _ n _ => n ∈ b.enumNames
  | .cls _ n mode _ => n ∈ b.classNames ∧ mode = .nonStreaming
  | .literal _ (.string s) => .literal s ∈ ls
  | .primitive _ (.media _) | .recursiveAlias _ _ _ | .tuple _ _ | .arrow _ _ _ | .top _ => False
  | _ => True

variable {t : Ty}

theorem NodeFrom.mono {b ls ls'} (hls : ls ⊆ ls') (h : NodeFrom b ls t) : NodeFrom b ls' t := by
  cases t with
  | literal m l =>
    cases l with
    | string s => exact hls h
    | _ => trivial
  | primitive m p => cases p <;> exact h
  | _ => exact h

/-- Types that are lowered from specifications with the given leaves. -/
structure LowersTo (b : Builder) (ls : List SpecLeaf) (ts : List Ty) : Prop where
  refs : ∀ n, n ∈ Ty.refsOf ts ↔ .ref n ∈ ls
  nodes : ∀ t ∈ ts, ∀ s, Ty.Sub s t → NodeFrom b ls s

namespace LowersTo

variable {b : Builder} {ls ls' : List SpecLeaf} {ts ts' : List Ty} {t : Ty}

theorem nil : LowersTo b [] [] := ⟨by simp [refsOf], by simp⟩

theorem append (h : LowersTo b ls ts) (h' : LowersTo b ls' ts') :
    LowersTo b (ls ++ ls') (ts ++ ts') := by
  refine ⟨fun n => ?_, fun t ht s hs => ?_⟩
  · rw [mem_append, ← h.refs, ← h'.refs]
    simp only [mem_refsOf, mem_append, or_and_right, exists_or]
  rcases mem_append.mp ht with ht | ht
  · exact (h.nodes t ht s hs).mono (subset_append_left ls ls')
  · exact (h'.nodes t ht s hs).mono (subset_append_right ls ls')

theorem leaf (hparts : t.parts = []) (hrefs : ∀ n, n ∈ t.refs ↔ .ref n ∈ ls)
    (hnode : NodeFrom b ls t) : LowersTo b ls [t] := by
  refine ⟨by simpa [refsOf] using hrefs, fun u hu s hs => ?_⟩
  cases mem_singleton.mp hu
  cases hs with
  | refl => exact hnode
  | part _ h =>
    rw [hparts] at h
    cases h

theorem wrap (h : LowersTo b ls t.parts) (hrefs : ∀ n, n ∈ t.refs ↔ n ∈ refsOf t.parts)
    (hnode : NodeFrom b ls t) : LowersTo b ls [t] := by
  refine ⟨fun n => ?_, fun u hu s hs => ?_⟩
  · simpa [refsOf, hrefs] using h.refs n
  cases mem_singleton.mp hu
  cases hs with
  | refl => exact hnode
  | part hs hu => exact h.nodes _ hu s hs

end LowersTo

/-! ### Unions -/

theorem mem_flattenForUnion {v : Ty} (h : v ∈ flattenForUnion t) : Sub v t ∨ v = nullType := by
  induction t using Ty.induction with
  | union m vs nullable ih =>
    rw [flattenForUnion] at h
    split_ifs at h with hm hnull
    · rw [flattenVariants_eq, mem_append, mem_flatMap] at h
      rcases h with ⟨u, hu, h⟩ | h
      · exact (ih u hu h).imp_left fun hsub => hsub.trans (.part (.refl u) hu)
      · exact .inr (mem_singleton.mp h)
    · rw [flattenVariants_eq, append_nil, mem_flatMap] at h
      obtain ⟨u, hu, h⟩ := h
      exact (ih u hu h).imp_left fun hsub => hsub.trans (.part (.refl u) hu)
    · cases mem_singleton.mp h
      exact .inl (.refl _)
  | _ =>
    cases mem_singleton.mp h
    exact .inl (.refl _)

theorem refsOf_append (ts ts') : refsOf (ts ++ ts') = refsOf ts ++ refsOf ts' := by
  induction ts with
  | nil => rfl
  | cons t ts ih => rw [cons_append, refsOf, refsOf, ih, List.append_assoc]

theorem refsOf_flattenForUnion (t : Ty) : refsOf (flattenForUnion t) = t.refs := by
  induction t using Ty.induction with
  | union m vs nullable ih =>
    have hvs : refsOf (flattenVariants vs) = refsOf vs := by
      induction vs with
      | nil => rfl
      | cons v vs ihvs =>
        rw [flattenVariants, refsOf_append, ih v mem_cons_self,
          ihvs fun w hw => ih w (mem_cons_of_mem v hw), refsOf]
    have hnull : refsOf (if nullable then [nullType] else []) = [] := by
      cases nullable <;> rfl
    by_cases hm : m.constraints.isEmpty
    · rw [flattenForUnion, if_pos hm, refsOf_append, hvs, hnull, append_nil, refs]
    · rw [flattenForUnion, if_neg hm]
      simp [refsOf]
  | _ => simp [flattenForUnion, refsOf]

variable {n : Bytes} {ts : List Ty}

theorem mem_refsOf_flattenVariants : n ∈ refsOf (flattenVariants ts) ↔ n ∈ refsOf ts := by
  induction ts with
  | nil => rfl
  | cons t ts ih =>
    rw [flattenVariants, refsOf_append, refsOf_flattenForUnion, refsOf, mem_append, mem_append, ih]

theorem mem_refsOf_dedupVariants : n ∈ refsOf (dedupVariants [] ts) ↔ n ∈ refsOf ts := by
  rw [mem_refsOf, mem_refsOf]
  constructor
  · rintro ⟨t, ht, hn⟩
    exact ⟨t, (mem_dedupVariants.mp ht).1, hn⟩
  rintro ⟨t, ht, hn⟩
  refine ⟨t, mem_dedupVariants.mpr ⟨ht, ?_⟩, hn⟩
  cases t with
  | primitive m p => cases hn
  | _ => rfl

section

variable {b : Builder} {ls : List SpecLeaf} {ts : List Ty}

theorem LowersTo.variants (h : LowersTo b ls ts) :
    LowersTo b ls (dedupVariants [] (flattenVariants ts)) := by
  refine ⟨fun n => ?_, fun t ht s hs => ?_⟩
  · rw [mem_refsOf_dedupVariants, mem_refsOf_flattenVariants, h.refs]
  have hmem := (mem_dedupVariants.mp ht).1
  rw [flattenVariants_eq, mem_flatMap] at hmem
  obtain ⟨u, hu, hmem⟩ := hmem
  rcases mem_flattenForUnion hmem with hsub | rfl
  · exact h.nodes u hu s (hs.trans hsub)
  cases hs with
  | refl => trivial
  | part _ hpart => cases hpart

theorem LowersTo.simplifyUnion (h : LowersTo b ls ts) : LowersTo b ls [simplifyUnion ts] := by
  have hvs := h.variants
  rcases simplifyUnion_cases ts with ⟨hnil, heq⟩ | ⟨v, hone, -, heq⟩ | ⟨-, -, heq⟩
  · rw [heq]
    refine .leaf rfl (fun n => ?_) trivial
    rw [← hvs.refs, hnil]
    rfl
  · rwa [heq, ← hone]
  · rw [heq]
    exact .wrap hvs (fun _ => Iff.rfl) trivial

theorem LowersTo.makeUnion (h : LowersTo b ls ts) : LowersTo b ls [makeUnion ts] := by
  unfold BamlRest.makeUnion
  split
  · exact h
  · exact h.simplifyUnion

variable {t : Ty}

theorem LowersTo.makeOptional (h : LowersTo b ls [t]) : LowersTo b ls [makeOptional t] := by
  unfold BamlRest.makeOptional
  split_ifs
  · exact h
  have hnull : LowersTo b [] [nullType] := .leaf rfl (by simp [nullType, Ty.refs]) trivial
  have hboth := h.append hnull
  rw [append_nil] at hboth
  exact hboth.makeUnion

/-! ### Type specifications -/

def Builder.Knows (b : Builder) (ls : List SpecLeaf) : Prop :=
  ∀ n, .ref n ∈ ls → n ∈ b.classNames ∨ n ∈ b.enumNames

open Builder

variable {path : SpecPath}

variable {name : Bytes}

theorem Builder.resolveRef_lowersTo
    (hname : b.Knows [.ref name]) (h : b.resolveRef name path = .ok t) :
    LowersTo b [.ref name] [t] := by
  rw [resolveRef] at h
  by_cases hc : name ∈ b.classNames
  · by_cases he : name ∈ b.enumNames
    · simp [hc, he] at h
    simp only [hc, he, contains_eq_mem, decide_true, decide_false, Bool.and_false,
      Bool.false_eq_true, if_false, if_true] at h
    cases h
    exact .leaf rfl (by simp [refs]) ⟨hc, rfl⟩
  have he := (hname name mem_cons_self).resolve_left hc
  simp only [hc, he, contains_eq_mem, decide_true, decide_false, Bool.false_and,
    Bool.false_eq_true, if_false, if_true] at h
  cases h
  exact .leaf rfl (by simp [refs]) he

theorem lowersTo_prim {p} (h : ∀ k, p ≠ .media k) : LowersTo b [] [.prim p] := by
  refine .leaf rfl (by simp [prim, refs]) ?_
  cases p with
  | media k => exact absurd rfl (h k)
  | _ => trivial

variable (b) in
def LowersSpec (s : DynamicTypeSpec) : Prop :=
  ∀ path t, b.Knows s.leaves → convertSpec b path s = .ok t → LowersTo b s.leaves [t]

theorem convertOption_lowersTo {o}
    (ih : ∀ s, o = some s → LowersSpec b s) (hknows : b.Knows (optionLeaves o))
    (h : convertOption b path o = .ok t) : LowersTo b (optionLeaves o) [t] := by
  cases o with
  | none => cases h
  | some s => exact ih s rfl path t hknows h

theorem convertOneOf_lowersTo {i : ℕ} {os}
    (ih : ∀ s, some s ∈ os → LowersSpec b s) (hknows : b.Knows (oneOfLeaves os))
    (h : convertOneOf b path i os = .ok ts) : LowersTo b (oneOfLeaves os) ts := by
  induction os generalizing i ts with
  | nil =>
    cases h
    exact .nil
  | cons o os ihos =>
    rw [convertOneOf] at h
    obtain ⟨v, hv, h⟩ := exists_of_bind_ok h
    obtain ⟨vs, hvs, h⟩ := exists_of_bind_ok h
    cases h
    have hhead := convertOption_lowersTo (fun s hs => ih s (hs ▸ mem_cons_self))
      (fun n hn => hknows n (mem_append_left _ hn)) hv
    exact hhead.append (ihos (fun s hs => ih s (mem_cons_of_mem o hs))
      (fun n hn => hknows n (mem_append_right _ hn)) hvs)

/-- **Lowering a specification** keeps its references, when they are to names of the schema. -/
theorem convertSpec_lowersTo (spec) : LowersSpec b spec := by
  induction spec using DynamicTypeSpec.induction with
  | mk type ref items inner oneOf keys values value ihitems ihinner ihoneOf ihkeys ihvalues =>
    intro path t hknows h
    unfold convertSpec at h
    unfold leaves at hknows ⊢
    by_cases href : ref ≠ []
    · rw [if_pos href] at h hknows ⊢
      split_ifs at h
      exact resolveRef_lowersTo hknows h
    rw [if_neg href] at h hknows ⊢
    by_cases hlist : type = "list"
    · rw [if_pos hlist] at hknows ⊢
      subst hlist
      iterate 6 rw [if_neg (by decide +kernel)] at h
      rw [if_pos rfl] at h
      split_ifs at h
      obtain ⟨e, he, h⟩ := exists_of_bind_ok h
      cases h
      exact .wrap (convertOption_lowersTo ihitems hknows he) (by simp [refs, parts, refsOf])
        trivial
    rw [if_neg hlist] at h hknows ⊢
    by_cases hopt : type = "optional"
    · rw [if_pos hopt] at hknows ⊢
      subst hopt
      iterate 6 rw [if_neg (by decide +kernel)] at h
      rw [if_pos rfl] at h
      split_ifs at h
      obtain ⟨e, he, h⟩ := exists_of_bind_ok h
      cases h
      exact (convertOption_lowersTo ihinner hknows he).makeOptional
    rw [if_neg hopt] at h hknows ⊢
    by_cases hmap : type = "map"
    · rw [if_pos hmap] at hknows ⊢
      subst hmap
      iterate 6 rw [if_neg (by decide)] at h
      rw [if_pos rfl] at h
      split_ifs at h
      obtain ⟨k, hk, h⟩ := exists_of_bind_ok h
      obtain ⟨v, hv, h⟩ := exists_of_bind_ok h
      cases h
      have hkey := convertOption_lowersTo ihkeys (fun n hn => hknows n (mem_append_left _ hn)) hk
      have hval := convertOption_lowersTo ihvalues
        (fun n hn => hknows n (mem_append_right _ hn)) hv
      exact .wrap (hkey.append hval) (by simp [refs, parts, refsOf]) trivial
    rw [if_neg hmap] at h hknows ⊢
    by_cases hunion : type = "union"
    · rw [if_pos hunion] at hknows ⊢
      subst hunion
      iterate 6 rw [if_neg (by decide +kernel)] at h
      rw [if_pos rfl] at h
      split_ifs at h
      obtain ⟨vs, hvs, h⟩ := exists_of_bind_ok h
      cases h
      exact (convertOneOf_lowersTo ihoneOf hknows hvs).makeUnion
    rw [if_neg hunion] at h hknows ⊢
    by_cases hlit : type = "literal_string"
    · rw [if_pos hlit] at hknows ⊢
      subst hlit
      iterate 6 rw [if_neg (by decide)] at h
      rw [if_pos rfl] at h
      cases value with
      | string s =>
        cases h
        exact .leaf rfl (by simp [refs]) (mem_singleton_self _)
      | _ => cases h
    rw [if_neg hlit] at h ⊢
    -- what is left is a primitive, an integer or a boolean
    split_ifs at h
    rotate_left 5
    · split at h
      · cases h
        exact .leaf rfl (by simp [refs]) trivial
      · cases h
    · split at h
      · cases h
        exact .leaf rfl (by simp [refs]) trivial
      · cases h
    all_goals exact Except.ok.inj h ▸ lowersTo_prim (by simp)

/-! ### Definitions -/

theorem Builder.buildFields_lowersTo {className : Bytes}
    {ps : List (Bytes × Option DynamicProperty)} {fields : List ClassField}
    (hknows : ∀ e ∈ ps, ∀ p, e.2 = some p → b.Knows p.spec.leaves)
    (h : b.buildFields className ps = .ok fields) :
    (∀ f ∈ fields, ∃ e ∈ ps, ∃ p, e.2 = some p ∧ LowersTo b p.spec.leaves [f.type]) ∧
      ∀ e ∈ ps, ∀ p, e.2 = some p → ∃ f ∈ fields, LowersTo b p.spec.leaves [f.type] := by
  induction ps generalizing fields with
  | nil =>
    cases h
    simp
  | cons e ps ih =>
    obtain ⟨name, _ | p⟩ := e
    · cases h
    rw [buildFields] at h
    obtain ⟨type, htype, h⟩ := exists_of_bind_ok h
    obtain ⟨rest, hrest, h⟩ := exists_of_bind_ok h
    cases h
    have hhead := convertSpec_lowersTo p.spec _ _ (hknows _ mem_cons_self p rfl) htype
    obtain ⟨hfields, hprops⟩ := ih (fun e he => hknows e (mem_cons_of_mem _ he)) hrest
    constructor
    · intro f hf
      rcases mem_cons.mp hf with rfl | hf
      · exact ⟨_, mem_cons_self, p, rfl, hhead⟩
      · obtain ⟨e, he, hlow⟩ := hfields f hf
        exact ⟨e, mem_cons_of_mem _ he, hlow⟩
    intro e he q hq
    rcases mem_cons.mp he with rfl | he
    · cases hq
      exact ⟨_, mem_cons_self, hhead⟩
    · obtain ⟨f, hf, hlow⟩ := hprops e he q hq
      exact ⟨f, mem_cons_of_mem _ hf, hlow⟩

theorem buildEnum_name {o e} (h : buildEnum name o = .ok e) : e.name.name = name := by
  cases o with
  | none => cases h
  | some o =>
    rw [buildEnum] at h
    obtain ⟨values, -, h⟩ := exists_of_bind_ok h
    cases h
    rfl

theorem find_buildEnums {es defs} (h : buildEnums es = .ok defs) (n) :
    (defs.find? fun e => e.name.name = n).isSome ↔ n ∈ es.map Prod.fst := by
  induction es generalizing defs with
  | nil =>
    cases h
    simp
  | cons e es ih =>
    rw [buildEnums] at h
    obtain ⟨def_, hdef, h⟩ := exists_of_bind_ok h
    obtain ⟨rest, hrest, h⟩ := exists_of_bind_ok h
    cases h
    have hname := buildEnum_name hdef
    rw [map_cons, mem_cons, ← ih hrest, ← hname]
    by_cases hn : def_.name.name = n
    · simp [hn]
    · simp [hn, Ne.symm hn]

theorem Builder.find_buildClasses {cs defs} (h : b.buildClasses cs = .ok defs) (n) :
    (∃ c, cs.find? (fun e => e.1 = n) = some (n, some c) ∧
      ∃ d, defs.find? (fun d => d.key = ⟨n, .nonStreaming⟩) = some d ∧
        b.buildFields n c.properties.entries = .ok d.fields) ∨
    (n ∉ cs.map Prod.fst ∧ defs.find? (fun d => d.key = ⟨n, .nonStreaming⟩) = none) := by
  induction cs generalizing defs with
  | nil =>
    cases h
    simp
  | cons e cs ih =>
    obtain ⟨name, _ | c⟩ := e
    · cases h
    rw [buildClasses] at h
    obtain ⟨fields, hfields, h⟩ := exists_of_bind_ok h
    obtain ⟨rest, hrest, h⟩ := exists_of_bind_ok h
    cases h
    by_cases hn : name = n
    · subst hn
      exact .inl ⟨c, by simp, _, find?_cons_of_pos (by simp [ClassDef.key]), hfields⟩
    rcases ih hrest with ⟨c', hc', d, hd, hlow⟩ | ⟨hnone, hd⟩
    · exact .inl ⟨c', by simpa [hn] using hc', d, by simpa [ClassDef.key, hn] using hd, hlow⟩
    · exact .inr ⟨by simpa [Ne.symm hn] using hnone, by simpa [ClassDef.key, hn] using hd⟩

end

/-! ### What validation can find -/

def SchemaError.isUnresolved : SchemaError → Bool
  | .unresolvedClass _ _ | .unresolvedEnum _ _ => true
  | _ => false

def Bundle.Resolves (b : Bundle) (t : Ty) : Prop :=
  (∀ m n dyn, Ty.Sub (.enum m n dyn) t → (b.findEnum n).isSome = true) ∧
    ∀ m n mode dyn, Ty.Sub (.cls m n mode dyn) t → (b.findClass n mode).isSome = true

theorem Bundle.Resolves.part {b : Bundle} {s t : Ty} (h : b.Resolves t) (hs : s ∈ t.parts) :
    b.Resolves s :=
  ⟨fun m n dyn hsub => h.1 m n dyn (.part hsub hs),
    fun m n mode dyn hsub => h.2 m n mode dyn (.part hsub hs)⟩

variable {e : SchemaError} {b : Bundle} {i : ℕ}

theorem validateVariants_resolves {path} (ih : ∀ t ∈ ts, ∀ path, validateType b path t = .error e →
      e.isUnresolved = false) (h : validateVariants b path i ts = .error e) :
    e.isUnresolved = false := by
  induction ts generalizing i with
  | nil => cases h
  | cons t ts ihts =>
    rw [validateVariants] at h
    split_ifs at h
    · cases h
      rfl
    rcases andThen_eq_error h with h | h
    · exact ih t mem_cons_self _ h
    · exact ihts (fun s hs => ih s (mem_cons_of_mem t hs)) h

theorem validateItems_resolves {path} {step : ℕ → PathStep} (ih : ∀ t ∈ ts, ∀ path, validateType b path t = .error e →
      e.isUnresolved = false) (h : validateItems b path step i ts = .error e) :
    e.isUnresolved = false := by
  induction ts generalizing i with
  | nil => cases h
  | cons t ts ihts =>
    rw [validateItems] at h
    rcases andThen_eq_error h with h | h
    · exact ih t mem_cons_self _ h
    · exact ihts (fun s hs => ih s (mem_cons_of_mem t hs)) h

theorem validateType_resolves {path : TypePath}
    (hres : b.Resolves t) (h : validateType b path t = .error e) : e.isUnresolved = false := by
  induction t using Ty.induction generalizing path with
  | top | primitive | literal => cases h
  | enum m n dyn =>
    rw [validateType, if_pos (hres.1 m n dyn (.refl _))] at h
    cases h
  | cls m n mode dyn =>
    rw [validateType, if_pos (hres.2 m n mode dyn (.refl _))] at h
    cases h
  | recursiveAlias m n mode =>
    rw [validateType] at h
    split_ifs at h
    cases h
    rfl
  | list m elem ih => exact ih (hres.part mem_cons_self) h
  | map m k v ihk ihv =>
    rw [validateType] at h
    split_ifs at h
    · rcases andThen_eq_error h with h | h
      · exact ihk (hres.part mem_cons_self) h
      · exact ihv (hres.part (mem_cons_of_mem k mem_cons_self)) h
    · cases h
      rfl
  | union m vs nullable ih =>
    rw [validateType] at h
    split_ifs at h
    · cases h
      rfl
    · exact validateVariants_resolves (fun t ht _ => ih t ht (hres.part ht)) h
  | tuple m ts ih => exact validateItems_resolves (fun t ht _ => ih t ht (hres.part ht)) h
  | arrow m ts r ih ihr =>
    rw [validateType] at h
    rcases andThen_eq_error h with h | h
    · exact validateItems_resolves
        (fun t ht _ => ih t ht (hres.part (mem_append_left _ ht))) h
    · exact ihr (hres.part (mem_append_right _ mem_cons_self)) h

theorem checkAll_eq_error {ε α : Type} {f : α → Except ε Unit} {l} {e : ε}
    (h : checkAll f l = .error e) : ∃ a ∈ l, f a = .error e := by
  induction l with
  | nil => cases h
  | cons a l ih =>
    rw [checkAll] at h
    cases ha : f a with
    | error e' =>
      rw [ha] at h
      cases h
      exact ⟨a, mem_cons_self, ha⟩
    | ok _ =>
      rw [ha] at h
      obtain ⟨x, hx, hfx⟩ := ih h
      exact ⟨x, mem_cons_of_mem a hx, hfx⟩

theorem Bundle.validate_resolves (hindex : b.rebuildIndexes = .ok ())
    (hrec : b.recursiveClasses = []) (hres : ∀ x ∈ b.rootTypes, b.Resolves x.1)
    (h : b.validate = .error e) : e.isUnresolved = false := by
  rw [Bundle.validate, hindex] at h
  rcases andThen_eq_error (y := b.eachRootType _ |> fun x => andThen x _) h with h | h
  · cases h
  rcases andThen_eq_error h with h | h
  · obtain ⟨x, hx, h⟩ := checkAll_eq_error h
    exact validateType_resolves (hres x hx) h
  · rw [hrec] at h
    cases h

/-! ### The whole schema -/

namespace DynamicOutputSchema

/-- The condition on a schema under which lowering is closed: names are identifiers that are no
keywords, and in the classes that the output properties lead to, references are to names of the
schema and string literals have no quotes. -/
structure Plain (s : DynamicOutputSchema) : Prop where
  names : (s.classes.keys ++ s.enums.keys).all isPlainName = true
  leaves : ∀ n, Relation.ReflTransGen (schemaEdge s) dynamicOutputClassName n →
    ∀ props, s.propertiesOf n = some props → ∀ e ∈ props.entries, ∀ p, e.2 = some p →
      ∀ l ∈ p.spec.leaves, s.fits l = true

end DynamicOutputSchema

section

variable {s : DynamicOutputSchema} {b : Builder}

structure LoweredDefs (s : DynamicOutputSchema) (b : Builder) (d : OrderDefs) : Prop where
  classNames : b.classNames = dynamicOutputClassName :: s.classes.keys
  enumNames : b.enumNames = s.enums.keys
  disjoint : ∀ n ∈ b.enumNames, n ∉ b.classNames
  findEnum : ∀ n, (d.findEnum n).isSome = true ↔ n ∈ b.enumNames
  findClass : ∀ n, (d.findClass n).isSome = true ↔ n ∈ b.classNames
  fields : ∀ n c, d.findClass n = some c → ∃ props, s.propertiesOf n = some props ∧
    b.buildFields n props.entries = .ok c.fields

variable {d : OrderDefs} (hd : LoweredDefs s b d) (hs : s.Plain)
include hd hs

theorem LoweredDefs.plain {n} (hn : n ∈ b.classNames ∨ n ∈ b.enumNames) : isPlainName n := by
  rcases hn with hn | hn
  · rw [hd.classNames] at hn
    rcases mem_cons.mp hn with rfl | hn
    · rfl
    · exact all_eq_true.mp hs.names n (mem_append_left _ hn)
  · rw [hd.enumNames] at hn
    exact all_eq_true.mp hs.names n (mem_append_right _ hn)

theorem LoweredDefs.knows {n} (hn : Relation.ReflTransGen (schemaEdge s) dynamicOutputClassName n)
    {props} (hprops : s.propertiesOf n = some props) {e} (he : e ∈ props.entries) {p}
    (hp : e.2 = some p) : b.Knows p.spec.leaves := by
  intro n' hn'
  have hfits := hs.leaves n hn props hprops e he p hp _ hn'
  rw [hd.classNames, hd.enumNames]
  simpa [fits, declares] using hfits

theorem LoweredDefs.resolved {ls} (hls : ∀ l ∈ ls, s.fits l) {t : Ty}
    (h : LowersTo b ls [t]) : t.Resolved d := by
  have hnode := h.nodes t mem_cons_self
  refine ⟨fun u hu => ?_, fun m n dyn hu => ?_, fun m n mode dyn hu => ?_⟩
  · have hu := hnode u hu
    cases u with
    | enum m n dyn => exact hd.plain hs (.inr hu)
    | cls m n mode dyn => exact ⟨hd.plain hs (.inl hu.1), hu.2⟩
    | literal m l =>
      cases l with
      | string l =>
        have hfits := hls _ hu
        intro hmem
        rw [fits, contains_eq_mem, decide_eq_true hmem] at hfits
        cases hfits
      | _ => trivial
    | primitive m p => cases p <;> exact hu
    | _ => exact hu
  · exact (hd.findEnum n).mpr (hnode _ hu)
  · exact (hd.findClass n).mpr (hnode _ hu).1

theorem LoweredDefs.nameEdge_iff {n} (hreach : Relation.ReflTransGen (schemaEdge s)
    dynamicOutputClassName n) (n') : nameEdge d n n' ↔ schemaEdge s n n' := by
  constructor
  · rintro ⟨c, hfind, f, hf, hn'⟩
    obtain ⟨props, hprops, hfields⟩ := hd.fields n c hfind
    obtain ⟨hlow, -⟩ := Builder.buildFields_lowersTo
      (fun e he p hp => hd.knows hs hreach hprops he hp) hfields
    obtain ⟨e, he, p, hp, hlow⟩ := hlow f hf
    exact ⟨props, hprops, e, he, p, hp, (hlow.refs n').mp (by simpa [refsOf] using hn')⟩
  rintro ⟨props, hprops, e, he, p, hp, hn'⟩
  have hn : n ∈ b.classNames := by
    rw [hd.classNames]
    unfold propertiesOf at hprops
    split_ifs at hprops with hsyn
    · exact hsyn ▸ mem_cons_self
    cases hget : s.classes.get n with
    | none => simp [hget] at hprops
    | some c =>
      refine mem_cons_of_mem _ ?_
      unfold OrderedMap.get at hget
      obtain ⟨x, hx, -⟩ := Option.map_eq_some_iff.mp hget
      have hkey : x.1 = n := by simpa using find?_some hx
      exact hkey ▸ mem_map_of_mem (mem_of_find?_eq_some hx)
  obtain ⟨c, hfind⟩ := Option.isSome_iff_exists.mp ((hd.findClass n).mpr hn)
  obtain ⟨props', hprops', hfields⟩ := hd.fields n c hfind
  cases hprops.symm.trans hprops'
  obtain ⟨-, hlow⟩ := Builder.buildFields_lowersTo
    (fun e he p hp => hd.knows hs hreach hprops he hp) hfields
  obtain ⟨f, hf, hlow⟩ := hlow e he p hp
  exact ⟨c, hfind, f, hf, by simpa [refsOf] using (hlow.refs n').mpr hn'⟩

theorem LoweredDefs.reached_iff (n) :
    Relation.ReflTransGen (nameEdge d) dynamicOutputClassName n ↔
      Relation.ReflTransGen (schemaEdge s) dynamicOutputClassName n := by
  constructor
  · intro h
    induction h with
    | refl => exact .refl
    | tail _ hedge ih => exact ih.tail ((hd.nameEdge_iff hs ih _).mp hedge)
  · intro h
    induction h with
    | refl => exact .refl
    | tail hn hedge ih => exact ih.tail ((hd.nameEdge_iff hs hn _).mpr hedge)

theorem LoweredDefs.closed : d.Closed dynamicOutputClassName := by
  refine ⟨fun n hn => ?_, fun n c hn hfind f hf => ?_⟩
  · by_contra hsome
    have henum := (hd.findEnum n).mp (Option.isSome_iff_ne_none.mpr hsome)
    exact hd.disjoint n henum ((hd.findClass n).mp hn)
  replace hn := (hd.reached_iff hs n).mp hn
  obtain ⟨props, hprops, hfields⟩ := hd.fields n c hfind
  obtain ⟨hlow, -⟩ := Builder.buildFields_lowersTo
    (fun e he p hp => hd.knows hs hn hprops he hp) hfields
  obtain ⟨e, he, p, hp, hlow⟩ := hlow f hf
  exact hd.resolved hs (hs.leaves n hn props hprops e he p hp) hlow

end

theorem mem_refs_of_sub {u : Ty} (hu : Sub u t) (h : n ∈ u.refs) : n ∈ t.refs := by
  induction hu with
  | refl => exact h
  | part _ hpart ih => exact mem_refs_of_part hpart ih

theorem findClass_synthetic {enumDefs : List EnumDef} {classDefs : List ClassDef}
    {fields : List ClassField} (hn : n ≠ dynamicOutputClassName) :
    OrderDefs.findClass ⟨enumDefs, ⟨⟨dynamicOutputClassName, none⟩, none, .nonStreaming, fields, [],
      ⟨false, false, false⟩⟩ :: classDefs, []⟩ n =
      classDefs.find? fun d => d.key = ⟨n, .nonStreaming⟩ :=
  find?_cons_of_neg (by simp [ClassDef.key, Ne.symm hn])

theorem fromDynamicOutputSchema_lowered {s : DynamicOutputSchema} {resolver : Option RefResolver}
    {bundle : Bundle} (h : fromDynamicOutputSchema s resolver = .ok bundle) :
    ∃ b d, LoweredDefs s b d ∧ d.aliasTargets = [] ∧
      bundle = reachableBundle d.enumDefs d.classDefs ∧ bundle.rebuildIndexes = .ok () := by
  simp only [fromDynamicOutputSchema] at h
  split_ifs at h with hreserved
  split at h
  · cases h
  rename_i hdisjoint
  obtain ⟨enumDefs, henums, h⟩ := exists_of_bind_ok h
  obtain ⟨fields, hfields, h⟩ := exists_of_bind_ok h
  obtain ⟨classDefs, hclasses, h⟩ := exists_of_bind_ok h
  simp only at h
  split at h
  · cases h
  rename_i hindex
  cases h
  refine ⟨⟨resolver, dynamicOutputClassName :: s.classes.keys, s.enums.keys⟩,
    ⟨enumDefs, _ :: classDefs, []⟩, ⟨rfl, rfl, ?_, find_buildEnums henums, ?_, ?_⟩, rfl, rfl,
    hindex⟩
  · intro n hn hmem
    have hnone := find?_eq_none.mp hdisjoint n hn
    rw [contains_eq_mem, decide_eq_true hmem] at hnone
    exact hnone rfl
  · intro n
    by_cases hn : n = dynamicOutputClassName
    · subst hn
      simp [OrderDefs.findClass, ClassDef.key]
    rw [findClass_synthetic hn, mem_cons, or_iff_right hn]
    rcases Builder.find_buildClasses hclasses n with ⟨c, hc, d, hd, -⟩ | ⟨hnone, hd⟩
    · have hmem : n ∈ s.classes.keys := mem_map_of_mem (mem_of_find?_eq_some hc)
      simp [hd, hmem]
    · exact iff_of_false (by simp [hd]) hnone
  intro n c hfind
  unfold propertiesOf
  by_cases hn : n = dynamicOutputClassName
  · subst hn
    rw [if_pos rfl]
    have hc := (find?_cons_of_pos (by simp [ClassDef.key])).symm.trans hfind
    cases hc
    exact ⟨_, rfl, hfields⟩
  rw [findClass_synthetic hn] at hfind
  rw [if_neg hn]
  rcases Builder.find_buildClasses hclasses n with ⟨c', hc', d, hd, hlow⟩ | ⟨-, hd⟩
  · cases hd.symm.trans hfind
    exact ⟨c'.properties, by simp [OrderedMap.get, hc'], hlow⟩
  · cases hd.symm.trans hfind

/-- **A lowered schema is closed**, when names, references and literals are plain. The bundle lists
the classes and the enums that the output properties lead to, each once, and the synthetic class
among them; validation resolves every reference. -/
theorem fromDynamicOutputSchema_closed {s : DynamicOutputSchema} {resolver : Option RefResolver}
    {bundle : Bundle} (h : fromDynamicOutputSchema s resolver = .ok bundle) (hs : s.Plain) :
    (bundle.classes.map (·.name.name)).Nodup ∧ (bundle.enums.map (·.name.name)).Nodup ∧
      (∀ n, n ∈ bundle.classes.map (·.name.name) ↔
        Relation.ReflTransGen (schemaEdge s) dynamicOutputClassName n ∧
          n ∈ dynamicOutputClassName :: s.classes.keys) ∧
      (∀ n, n ∈ bundle.enums.map (·.name.name) ↔
        Relation.ReflTransGen (schemaEdge s) dynamicOutputClassName n ∧ n ∈ s.enums.keys) ∧
      dynamicOutputClassName ∈ bundle.classes.map (·.name.name) ∧
      ∀ e, bundle.validate = .error e → e.isUnresolved = false := by
  obtain ⟨b, d, hd, halias, rfl, hindex⟩ := fromDynamicOutputSchema_lowered h
  have hsyn : dynamicOutputClassName ∈ b.classNames := hd.classNames ▸ mem_cons_self
  have hclosed := hd.closed hs
  obtain ⟨hnodup, hnodup', hfound, hfound', hclasses, henums⟩ := orderByReachability_exact hclosed
    halias (hd.plain hs (.inl hsyn)) ((hd.findClass _).mpr hsyn) .zero true
  refine ⟨hnodup, hnodup', fun n => ?_, fun n => ?_, ?_, ?_⟩
  · rw [← hd.classNames, ← hd.reached_iff hs, ← hd.findClass]
    exact hclasses n
  · rw [← hd.enumNames, ← hd.reached_iff hs, ← hd.findEnum]
    exact henums n
  · exact (hclasses _).mpr ⟨.refl, (hd.findClass _).mpr hsyn⟩
  intro e he
  refine Bundle.validate_resolves hindex rfl (fun x hx => ?_) he
  -- a name that is reached is listed, and found in the bundle
  have hclass : ∀ n, Relation.ReflTransGen (nameEdge d) dynamicOutputClassName n →
      (d.findClass n).isSome = true →
      ((reachableBundle d.enumDefs d.classDefs).findClass n .nonStreaming).isSome = true := by
    intro n hn hsome
    obtain ⟨c, hc, rfl⟩ := mem_map.mp ((hclasses n).mpr ⟨hn, hsome⟩)
    have hkey := find?_some (hfound c hc)
    exact find?_isSome.mpr ⟨c, hc, hkey⟩
  have henum : ∀ n, Relation.ReflTransGen (nameEdge d) dynamicOutputClassName n →
      (d.findEnum n).isSome = true →
      ((reachableBundle d.enumDefs d.classDefs).findEnum n).isSome = true := by
    intro n hn hsome
    obtain ⟨x, hx, rfl⟩ := mem_map.mp ((henums n).mpr ⟨hn, hsome⟩)
    exact find?_isSome.mpr ⟨x, hx, by simp⟩
  have hresolves : ∀ t : Ty, t.Resolved d →
      (∀ n ∈ t.refs, Relation.ReflTransGen (nameEdge d) dynamicOutputClassName n) →
      (reachableBundle d.enumDefs d.classDefs).Resolves t := by
    intro t ht hrefs
    refine ⟨fun m n dyn hsub => ?_, fun m n mode dyn hsub => ?_⟩
    · exact henum n (hrefs n (mem_refs_of_sub hsub mem_cons_self)) (ht.2.1 m n dyn hsub)
    · cases (ht.1 _ hsub).2
      exact hclass n (hrefs n (mem_refs_of_sub hsub mem_cons_self)) (ht.2.2 m n _ dyn hsub)
  rcases mem_append.mp hx with hx | hx
  · rcases mem_cons.mp hx with rfl | hx
    · refine hresolves _ (resolved_cls (hd.plain hs (.inl hsyn)) ((hd.findClass _).mpr hsyn) _ _)
        fun n hn => ?_
      cases mem_singleton.mp hn
      exact .refl
    obtain ⟨c, hc, hx⟩ := mem_flatMap.mp hx
    obtain ⟨f, hf, rfl⟩ := mem_map.mp hx
    have hway := ((hclasses _).mp (mem_map_of_mem hc)).1
    refine hresolves f.type (hclosed.fields _ c hway (hfound c hc) f hf) fun n hn => ?_
    exact hway.tail ⟨c, hfound c hc, f, hf, hn⟩
  · cases hx

/-! ### Two schemas -/

def literalSpec (l : Bytes) : DynamicTypeSpec :=
  ⟨"literal_string", [], none, none, [], none, none, .string l⟩

def optionalSpec (inner : DynamicTypeSpec) : DynamicTypeSpec :=
  ⟨"optional", [], none, some inner, [], none, none, .nil⟩

def propertyOf (name : Bytes) (spec : DynamicTypeSpec) : Bytes × Option DynamicProperty :=
  (name, some ⟨spec, [], []⟩)

/-- A class `Foo` with a property that is a string. -/
def fooClass : Bytes × Option DynamicClass :=
  ("Foo", some ⟨[], [], ⟨[propertyOf "s" (plainType "string")], by decide +kernel⟩⟩)

/-- A property that is `Foo` or one of two literals, or null. -/
def fooProperty : Bytes × Option DynamicProperty :=
  propertyOf "p" (oneOfSpec [literalSpec "x", refSpec "Foo",
    literalSpec "y", plainType "null"])

/-- The output is a `Foo` or a literal. A class that nothing refers to has a literal with quotes. -/
def plainSchema : DynamicOutputSchema :=
  ⟨⟨[fooProperty], by decide +kernel⟩, ⟨[fooClass, ("Bar", some ⟨[], [],
    ⟨[propertyOf "b" (literalSpec "\"")], by decide +kernel⟩⟩)], by decide +kernel⟩, .empty⟩

/-- The same, with a literal whose display text is that of the other property. -/
def quotedSchema : DynamicOutputSchema :=
  ⟨⟨[fooProperty, propertyOf "q" (optionalSpec (literalSpec "x\" | Foo | \"y"))],
    by decide +kernel⟩, ⟨[fooClass], by decide +kernel⟩, .empty⟩

theorem fromDynamicOutputSchema_closed_foo : plainSchema.Plain ∧
    (fromDynamicOutputSchema plainSchema none).toOption.any (fun bundle =>
      bundle.classes.map (·.name.name) = [dynamicOutputClassName, bytes "Foo"]) = true ∧
    ∀ bundle, fromDynamicOutputSchema plainSchema none = .ok bundle →
      (bundle.classes.map (·.name.name)).Nodup := by
  let names := [dynamicOutputClassName, bytes "Foo"]
  -- what the two classes have in them
  have hleaves : ∀ n ∈ names, ∀ props, plainSchema.propertiesOf n = some props →
      ∀ e ∈ props.entries, ∀ p, e.2 = some p → ∀ l ∈ p.spec.leaves,
      plainSchema.fits l = true ∧ ∀ n', l = .ref n' → n' ∈ names := by
    intro n hn props hprops e he p hp l hl
    have hall : names.all (fun n => (plainSchema.propertiesOf n).all fun props =>
        props.entries.all fun e => e.2.all fun p => p.spec.leaves.all fun l =>
          plainSchema.fits l && [.ref (bytes "Foo"), .literal (bytes "x"),
            .literal (bytes "y")].contains l) = true := by decide +kernel
    have hn := all_eq_true.mp hall n hn
    rw [hprops] at hn
    have he := all_eq_true.mp hn e he
    rw [hp] at he
    obtain ⟨hfits, hmem⟩ := (Bool.and_eq_true _ _).mp (all_eq_true.mp he l hl)
    refine ⟨hfits, ?_⟩
    rintro n' rfl
    exact mem_cons_of_mem _ (by simpa using hmem)
  have hs : plainSchema.Plain := by
    refine ⟨by decide +kernel, fun n hn props hprops e he p hp l hl => ?_⟩
    have hmem : n ∈ names := by
      clear hprops
      induction hn with
      | refl => exact mem_cons_self
      | tail _ hedge ih =>
        obtain ⟨props, hprops, e, he, p, hp, hl⟩ := hedge
        exact (hleaves _ ih props hprops e he p hp _ hl).2 _ rfl
    exact (hleaves n hmem props hprops e he p hp l hl).1
  exact ⟨hs, by decide +kernel, fun bundle h => (fromDynamicOutputSchema_closed h hs).1⟩

/-- **A class is lost.** The properties `p` and `q` have the same display text, and the walk visits
`q` first: `Foo` is not listed, though `p` refers to it, and validation finds the reference to be
unresolved. -/
theorem fromDynamicOutputSchema_quoted :
    quotedSchema.classes.keys.all isPlainName = true ∧
      SpecLeaf.ref (bytes "Foo") ∈ (quotedSchema.specs.flatMap DynamicTypeSpec.leaves) ∧
      (fromDynamicOutputSchema quotedSchema none).toOption.any (fun bundle =>
        bundle.classes.map (·.name.name) = [dynamicOutputClassName] ∧
          bundle.validate = .error (.unresolvedClass
            ⟨.field dynamicOutputClassName (bytes "p"), [.variant 1]⟩
            ⟨bytes "Foo", .nonStreaming⟩)) = true := by
  decide +kernel

end BamlRest
