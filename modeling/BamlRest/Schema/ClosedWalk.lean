import BamlRest.Schema.DisplayNames

/-!
# The walk lists all that can be reached

A type that is skipped, because one with the same display text has been visited, refers to nothing
that is not listed or waited for.
-/

namespace BamlRest

open List

section

variable (d : OrderDefs)

def OrderDefs.findEnum (n : Bytes) : Option EnumDef := d.enumDefs.find? fun e => e.name.name = n

def OrderDefs.findClass (n : Bytes) : Option ClassDef :=
  d.classDefs.find? fun c => c.key = ⟨n, .nonStreaming⟩

def Ty.Resolved (t : Ty) : Prop :=
  t.Lowered ∧ (∀ m n dyn, Ty.Sub (.enum m n dyn) t → (d.findEnum n).isSome = true) ∧
    ∀ m n s dyn, Ty.Sub (.cls m n s dyn) t → (d.findClass n).isSome = true

def nameEdge (n n' : Bytes) : Prop := ∃ c, d.findClass n = some c ∧ ∃ f ∈ c.fields, n' ∈ f.type.refs

/-- Definitions as lowering gives them: no name is that of a class and of an enum, and the types of
the fields are resolved in every class that the root leads to. -/
structure OrderDefs.Closed (root : Bytes) : Prop where
  disjoint : ∀ n, (d.findClass n).isSome = true → d.findEnum n = none
  fields : ∀ n c, Relation.ReflTransGen (nameEdge d) root n → d.findClass n = some c →
    ∀ f ∈ c.fields, f.type.Resolved d

end

variable {d : OrderDefs}

theorem Ty.Resolved.part {s t : Ty} (h : t.Resolved d) (hs : s ∈ t.parts) : s.Resolved d :=
  ⟨h.1.part hs, fun m n dyn hsub => h.2.1 m n dyn (.part hsub hs),
    fun m n mode dyn hsub => h.2.2 m n mode dyn (.part hsub hs)⟩

theorem resolved_nullType : nullType.Resolved d := by
  refine ⟨?_, ?_, ?_⟩
  · intro s hs
    cases hs with
    | refl => trivial
    | part _ h => cases h
  · intro m n dyn hs
    cases hs with
    | part _ h => cases h
  intro m n mode dyn hs
  cases hs with
  | part _ h => cases h

variable {n : Bytes}

theorem resolved_cls (hn : isPlainName n)
    (hfound : (d.findClass n).isSome = true) (m) (dyn : Bool) :
    (Ty.cls m n .nonStreaming dyn).Resolved d := by
  have hsub : ∀ s, Ty.Sub s (.cls m n .nonStreaming dyn) → s = .cls m n .nonStreaming dyn := by
    intro s hs
    cases hs with
    | refl => rfl
    | part _ h => cases h
  refine ⟨fun s hs => hsub s hs ▸ ⟨hn, rfl⟩, fun m n dyn hs => ?_, fun m n mode dyn hs => ?_⟩
  · cases hsub _ hs
  · cases hsub _ hs
    exact hfound

theorem findClass_name {c} (h : d.findClass n = some c) : c.name.name = n := by
  have hkey : c.key = ⟨n, .nonStreaming⟩ := by simpa using find?_some h
  exact congrArg ClassKey.name hkey

theorem findEnum_name {e} (h : d.findEnum n = some e) : e.name.name = n := by
  simpa using find?_some h

/-! ### Display texts of parts -/

theorem length_le_joinWith {sep s texts} (h : s ∈ texts) :
    s.length ≤ (joinWith sep texts).length := by
  induction texts with
  | nil => cases h
  | cons t texts ih =>
    cases texts with
    | nil =>
      cases mem_singleton.mp h
      exact le_rfl
    | cons t' texts =>
      rw [joinWith, length_append, length_append]
      rcases mem_cons.mp h with rfl | h
      · omega
      · have := ih h
        omega

theorem mem_displayKeys {v : Ty} {vs} (h : v ∈ vs) : displayKey v ∈ displayKeys vs := by
  induction vs with
  | nil => cases h
  | cons w vs ih =>
    rcases mem_cons.mp h with rfl | h
    · exact mem_cons_self
    · exact mem_cons_of_mem _ (ih h)

variable {t : Ty}

theorem length_displayKey_part {s : Ty} (ht : t.Lowered) (hs : s ∈ t.parts) :
    (displayKey s).length < (displayKey t).length := by
  cases t with
  | top | tuple | arrow => exact ht.node.elim
  | primitive | enum | literal | cls | recursiveAlias => cases hs
  | list m e =>
    cases mem_singleton.mp hs
    simp [displayKey, bytes]
  | map m k v =>
    rw [displayKey]
    rcases mem_cons.mp hs with rfl | hs
    · simp [bytes]
      omega
    cases mem_singleton.mp hs
    simp [bytes]
    omega
  | union m vs nullable =>
    rw [displayKey]
    have hjoin : ∀ extra, (displayKey s).length ≤
        (joinWith " | " (displayKeys vs ++ extra)).length := fun extra =>
      length_le_joinWith (mem_append_left _ (mem_displayKeys hs))
    have := hjoin (if vs.length ≤ 1 || nullable then ["null"] else [])
    simp only [length_append]
    have hparen : (bytes "(").length = 1 := rfl
    omega

/-! ### A round of the walk -/

/-- What a round of the walk can do with a resolved type. -/
inductive Visit (d : OrderDefs) (st : OrderState) (t : Ty) : OrderState → Prop where
  | skip (h : t.refs = [] ∨ displayKey t ∈ st.checked) : Visit d st t st
  | enum (n : Bytes) (e : EnumDef) (hrefs : t.refs = [n]) (hkey : displayKey t = n)
      (hnew : n ∉ st.checked) (hfind : d.findEnum n = some e) :
      Visit d st t { st with checked := n :: st.checked, enumsOut := st.enumsOut ++ [e] }
  | cls (n : Bytes) (c : ClassDef) (hrefs : t.refs = [n]) (hkey : displayKey t = n)
      (hnew : n ∉ st.checked) (hfind : d.findClass n = some c) : Visit d st t { st with
        checked := n :: st.checked
        classesOut := st.classesOut ++ [c]
        stack := pushAll (n :: st.checked) st.stack (c.fields.map ClassField.type) }
  | expand (checked : List Bytes) (ts : List Ty) (hrefs : ∀ n ∈ t.refs, ∃ s ∈ ts, n ∈ s.refs)
      (hts : ∀ s ∈ ts, s ∈ t.parts ∨ s = nullType)
      (hchecked : checked = st.checked ∨ checked = displayKey t :: st.checked) :
      Visit d st t { st with checked := checked, stack := pushAll checked st.stack ts }

variable {st : OrderState}

theorem visit_ifUnchecked {ts}
    (hrefs : ∀ n ∈ t.refs, ∃ s ∈ ts, n ∈ s.refs) (hts : ∀ s ∈ ts, s ∈ t.parts ∨ s = nullType) :
    Visit d st t (ifUnchecked st t fun st =>
      { st with stack := pushAll st.checked st.stack ts }) := by
  rw [ifUnchecked]
  split_ifs with h
  · exact .skip (.inr (mem_of_elem_eq_true h))
  · exact .expand _ ts hrefs hts (.inr rfl)

theorem visit_orderStep (ht : t.Resolved d) : Visit d st t (orderStep d st t) := by
  cases t with
  | top | recursiveAlias | tuple | arrow => exact ht.1.node.elim
  | primitive | literal => exact .skip (.inl rfl)
  | enum m n dyn =>
    obtain ⟨e, he⟩ := Option.isSome_iff_exists.mp (ht.2.1 m n dyn (.refl _))
    rw [orderStep, ifUnchecked]
    split_ifs with h
    · exact .skip (.inr (mem_of_elem_eq_true h))
    have hfind : (d.enumDefs.find? fun e => e.name.name = n) = some e := he
    simp only [hfind]
    exact .enum n e rfl rfl (by simpa [displayKey] using h) he
  | cls m n mode dyn =>
    obtain ⟨hn, rfl⟩ := ht.1.node
    obtain ⟨c, hc⟩ := Option.isSome_iff_exists.mp (ht.2.2 m n _ dyn (.refl _))
    rw [orderStep, ifUnchecked]
    split_ifs with h
    · exact .skip (.inr (mem_of_elem_eq_true h))
    have hfind : (d.classDefs.find? fun c => c.key = ⟨n, .nonStreaming⟩) = some c := hc
    simp only [hfind]
    exact .cls n c rfl rfl (by simpa [displayKey, namedDisplay] using h) hc
  | list m e =>
    refine .expand st.checked [e] ?_ ?_ (.inl rfl)
    · exact fun n hn => ⟨e, mem_singleton_self e, hn⟩
    · exact fun s hs => .inl hs
  | map m k v =>
    refine visit_ifUnchecked ?_ fun s hs => .inl hs
    intro n hn
    rcases mem_append.mp hn with hn | hn
    · exact ⟨k, by simp, hn⟩
    · exact ⟨v, by simp, hn⟩
  | union m vs nullable =>
    refine visit_ifUnchecked ?_ ?_
    · intro n hn
      obtain ⟨v, hv, hn⟩ := Ty.mem_refsOf.mp hn
      refine ⟨v, ?_, hn⟩
      rw [iterIncludeNull]
      split_ifs
      · exact mem_append_left _ hv
      · exact hv
    intro s hs
    rw [iterIncludeNull] at hs
    split_ifs at hs
    · rcases mem_append.mp hs with hs | hs
      · exact .inl hs
      · exact .inr (mem_singleton.mp hs)
    · exact .inl hs

/-! ### What the walk keeps -/

/-- A class or an enum of the name is in the output. -/
def Listed (st : OrderState) (n : Bytes) : Prop :=
  (∃ c ∈ st.classesOut, c.name.name = n) ∨ ∃ e ∈ st.enumsOut, e.name.name = n

/-- A name that is listed, or that a type on the stack refers to, one whose display text is shorter
than the bound. -/
def Owed (st : OrderState) (bound : ℕ) (n : Bytes) : Prop :=
  Listed st n ∨ ∃ s ∈ st.stack, n ∈ s.refs ∧ (displayKey s).length < bound

theorem Owed.mono {bound bound' : ℕ} (h : bound ≤ bound')
    (hn : Owed st bound n) : Owed st bound' n := by
  rcases hn with hn | ⟨s, hs, hn, hlt⟩
  · exact .inl hn
  · exact .inr ⟨s, hs, hn, hlt.trans_le h⟩

structure WalkInv (d : OrderDefs) (root : Bytes) (st : OrderState) : Prop where
  resolved : ∀ t ∈ st.stack, t.Resolved d
  reached : ∀ t ∈ st.stack, ∀ n ∈ t.refs, Relation.ReflTransGen (nameEdge d) root n
  classes : ∀ c ∈ st.classesOut, d.findClass c.name.name = some c ∧ c.name.name ∈ st.checked ∧
    Relation.ReflTransGen (nameEdge d) root c.name.name
  enums : ∀ e ∈ st.enumsOut, d.findEnum e.name.name = some e ∧ e.name.name ∈ st.checked ∧
    Relation.ReflTransGen (nameEdge d) root e.name.name
  nodupClasses : (st.classesOut.map (·.name.name)).Nodup
  nodupEnums : (st.enumsOut.map (·.name.name)).Nodup
  checked : ∀ k ∈ st.checked, ∀ n ∈ scanNames .plain k, Owed st k.length n
  fields : ∀ c ∈ st.classesOut, ∀ f ∈ c.fields, ∀ n ∈ f.type.refs, ∃ bound, Owed st bound n
  root : ∃ bound, Owed st bound root

theorem subset_pushAll (checked stack ts) : stack ⊆ pushAll checked stack ts := by
  induction ts generalizing stack with
  | nil => exact List.Subset.refl _
  | cons t ts ih =>
    refine List.Subset.trans ?_ (ih (pushIfUnchecked checked stack t))
    rw [pushIfUnchecked]
    split_ifs
    · exact List.Subset.refl _
    · exact subset_cons_self t stack

theorem mem_pushAll_self {c s ts} (h : t ∈ ts) : displayKey t ∈ c ∨ t ∈ pushAll c s ts := by
  induction ts generalizing s with
  | nil => cases h
  | cons u ts ih =>
    rcases mem_cons.mp h with rfl | h
    · by_cases hmem : displayKey t ∈ c
      · exact .inl hmem
      refine .inr (subset_pushAll c _ ts ?_)
      rw [pushIfUnchecked, if_neg (by simpa using hmem)]
      exact mem_cons_self
    · exact ih h

theorem nodup_map_append_singleton {α β : Type} {f : α → β} {l} {a : α}
    (h : (l.map f).Nodup) (ha : ∀ x ∈ l, f x ≠ f a) : ((l ++ [a]).map f).Nodup := by
  rw [map_append, nodup_append]
  refine ⟨h, by simp, ?_⟩
  intro b hb c hc
  obtain ⟨x, hx, rfl⟩ := mem_map.mp hb
  cases mem_singleton.mp hc
  exact ha x hx

section

variable {root : Bytes} {st st' : OrderState} {t : Ty}

/-- What was owed before a step is owed after it, if the type on top leaves its own names owed. -/
theorem owed_pop (hlisted : ∀ n, Listed st n → Listed st' n) (hstack : st.stack ⊆ st'.stack)
    (hown : ∀ n ∈ t.refs, Owed st' (displayKey t).length n) {bound : ℕ} {n}
    (h : Owed { st with stack := t :: st.stack } bound n) : Owed st' bound n := by
  rcases h with h | ⟨s, hs, hn, hlt⟩
  · exact .inl (hlisted n h)
  rcases mem_cons.mp hs with rfl | hs
  · exact (hown n hn).mono hlt.le
  · exact .inr ⟨s, hstack hs, hn, hlt⟩

theorem owed_of_checked (h : WalkInv d root { st with stack := t :: st.stack })
    (hlisted : ∀ n, Listed st n → Listed st' n) (hstack : st.stack ⊆ st'.stack) {s : Ty}
    (hs : s.Lowered) (hlen : (displayKey s).length ≤ (displayKey t).length)
    (hkey : displayKey s ∈ st.checked) {n} (hn : n ∈ s.refs) :
    Owed st' (displayKey s).length n := by
  rw [← scanNames_displayKey hs] at hn
  rcases h.checked _ hkey n hn with hn | ⟨u, hu, hn, hlt⟩
  · exact .inl (hlisted n hn)
  rcases mem_cons.mp hu with rfl | hu
  · exact absurd hlt (Nat.not_lt.mpr hlen)
  · exact .inr ⟨u, hstack hu, hn, hlt⟩

/-- Step lemma: after the visit of a type, each name it refers to is listed or owed. -/
theorem owed_visit (h : WalkInv d root { st with stack := t :: st.stack })
    (ht : t.Lowered) (hvisit : Visit d st t st') :
    ∀ n ∈ t.refs, Owed st' (displayKey t).length n := by
  intro n hn
  cases hvisit with
  | skip hskip =>
    rcases hskip with hrefs | hkey
    · rw [hrefs] at hn
      cases hn
    · exact owed_of_checked h (fun _ h => h) (List.Subset.refl _) ht le_rfl hkey hn
  | enum n' e hrefs hkey hnew hfind =>
    rw [hrefs] at hn
    cases mem_singleton.mp hn
    exact .inl (.inr ⟨e, by simp, findEnum_name hfind⟩)
  | cls n' c hrefs hkey hnew hfind =>
    rw [hrefs] at hn
    cases mem_singleton.mp hn
    exact .inl (.inl ⟨c, by simp, findClass_name hfind⟩)
  | expand checked ts hrefs hts hchecked =>
    obtain ⟨s, hs, hn⟩ := hrefs n hn
    rcases hts s hs with hpart | rfl
    · have hlt := length_displayKey_part ht hpart
      rcases mem_pushAll_self (c := checked) (s := st.stack) hs with hkey | hmem
      · have hkey' : displayKey s ∈ st.checked := by
          rcases hchecked with rfl | rfl
          · exact hkey
          rcases mem_cons.mp hkey with heq | hkey
          · rw [heq] at hlt
            exact absurd hlt (lt_irrefl _)
          · exact hkey
        refine (owed_of_checked h ?_ ?_ (ht.part hpart) hlt.le hkey' hn).mono hlt.le
        · exact fun _ h => h
        · exact subset_pushAll _ _ _
      · exact .inr ⟨s, hmem, hn, hlt⟩
    · cases hn

/-- A step unlists nothing. -/
theorem visit_listed (hvisit : Visit d st t st') : ∀ n, Listed st n → Listed st' n := by
  rintro n (⟨c, hc, hn⟩ | ⟨e, he, hn⟩)
  · cases hvisit with
    | cls => exact .inl ⟨c, mem_append_left _ hc, hn⟩
    | _ => exact .inl ⟨c, hc, hn⟩
  cases hvisit with
  | enum => exact .inr ⟨e, mem_append_left _ he, hn⟩
  | _ => exact .inr ⟨e, he, hn⟩

theorem visit_stack (hvisit : Visit d st t st') : st.stack ⊆ st'.stack := by
  cases hvisit with
  | skip | enum => exact List.Subset.refl _
  | cls | expand => exact subset_pushAll _ _ _

/-- **The step**: a round keeps the invariant. -/
theorem WalkInv.visit (hd : d.Closed root) (h : WalkInv d root { st with stack := t :: st.stack })
    (hvisit : Visit d st t st') : WalkInv d root st' := by
  have ht := h.resolved t mem_cons_self
  have hreach := h.reached t mem_cons_self
  have hlisted := visit_listed hvisit
  have hstack := visit_stack hvisit
  have hown := owed_visit h ht.1 hvisit
  have howed : ∀ {bound n}, Owed { st with stack := t :: st.stack } bound n → Owed st' bound n :=
    fun hn => owed_pop hlisted hstack hown hn
  have hchecked : ∀ k, k = displayKey t ∨ k ∈ st.checked → ∀ n ∈ scanNames .plain k,
      Owed st' k.length n := by
    rintro k (rfl | hk) n hn
    · rw [scanNames_displayKey ht.1] at hn
      exact hown n hn
    · exact howed (h.checked k hk n hn)
  have hfields : ∀ c ∈ st.classesOut, ∀ f ∈ c.fields, ∀ n ∈ f.type.refs,
      ∃ bound, Owed st' bound n := by
    intro c hc f hf n hn
    obtain ⟨bound, hbound⟩ := h.fields c hc f hf n hn
    exact ⟨bound, howed hbound⟩
  have hroot : ∃ bound, Owed st' bound root := by
    obtain ⟨bound, hbound⟩ := h.root
    exact ⟨bound, howed hbound⟩
  have hresolved : ∀ s ∈ st.stack, s.Resolved d := fun s hs =>
    h.resolved s (mem_cons_of_mem t hs)
  have hreached : ∀ s ∈ st.stack, ∀ n ∈ s.refs, Relation.ReflTransGen (nameEdge d) root n :=
    fun s hs => h.reached s (mem_cons_of_mem t hs)
  cases hvisit with
  | skip hskip =>
    exact ⟨hresolved, hreached, h.classes, h.enums, h.nodupClasses, h.nodupEnums,
      fun k hk => hchecked k (.inr hk), hfields, hroot⟩
  | enum n e hrefs hkey hnew hfind =>
    have hname := findEnum_name hfind
    refine ⟨hresolved, hreached, ?_, ?_, h.nodupClasses, ?_, ?_, hfields, hroot⟩
    · intro c hc
      obtain ⟨hc, hmem, hway⟩ := h.classes c hc
      exact ⟨hc, mem_cons_of_mem n hmem, hway⟩
    · intro x hx
      rcases mem_append.mp hx with hx | hx
      · obtain ⟨hx, hmem, hway⟩ := h.enums x hx
        exact ⟨hx, mem_cons_of_mem n hmem, hway⟩
      cases mem_singleton.mp hx
      subst hname
      exact ⟨hfind, mem_cons_self, hreach _ (by simp [hrefs])⟩
    · refine nodup_map_append_singleton h.nodupEnums ?_
      intro x hx heq
      exact hnew (hname ▸ heq ▸ (h.enums x hx).2.1)
    intro k hk
    rw [← hkey] at hk
    exact hchecked k (mem_cons.mp hk)
  | cls n c hrefs hkey hnew hfind =>
    have hname := findClass_name hfind
    have hn := hreach n (by simp [hrefs])
    refine ⟨?_, ?_, ?_, ?_, ?_, h.nodupEnums, ?_, ?_, hroot⟩
    · intro s hs
      rcases mem_pushAll hs with hs | hs
      · exact hresolved s hs
      · obtain ⟨f, hf, rfl⟩ := mem_map.mp hs
        exact hd.fields n c hn hfind f hf
    · intro s hs n' hn'
      rcases mem_pushAll hs with hs | hs
      · exact hreached s hs n' hn'
      · obtain ⟨f, hf, rfl⟩ := mem_map.mp hs
        exact hn.tail ⟨c, hfind, f, hf, hn'⟩
    · intro x hx
      rcases mem_append.mp hx with hx | hx
      · obtain ⟨hx, hmem, hway⟩ := h.classes x hx
        exact ⟨hx, mem_cons_of_mem n hmem, hway⟩
      cases mem_singleton.mp hx
      subst hname
      exact ⟨hfind, mem_cons_self, hn⟩
    · intro x hx
      obtain ⟨hx, hmem, hway⟩ := h.enums x hx
      exact ⟨hx, mem_cons_of_mem n hmem, hway⟩
    · refine nodup_map_append_singleton h.nodupClasses ?_
      intro x hx heq
      exact hnew (hname ▸ heq ▸ (h.classes x hx).2.1)
    · intro k hk
      rw [← hkey] at hk
      exact hchecked k (mem_cons.mp hk)
    intro x hx f hf n' hn'
    rcases mem_append.mp hx with hx | hx
    · exact hfields x hx f hf n' hn'
    cases mem_singleton.mp hx
    -- the type of the field has been checked before, or is on the stack now
    have hfield := hd.fields n c hn hfind f hf
    rcases mem_pushAll_self (c := n :: st.checked) (s := st.stack)
      (mem_map_of_mem hf) with hmem | hmem
    · rw [← hkey] at hmem
      refine ⟨_, hchecked _ (mem_cons.mp hmem) n' ?_⟩
      rwa [scanNames_displayKey hfield.1]
    · exact ⟨_, .inr ⟨f.type, hmem, hn', Nat.lt_succ_self _⟩⟩
  | expand checked ts hrefs hts hcs =>
    have hsub : st.checked ⊆ checked := by
      rcases hcs with rfl | rfl
      · exact List.Subset.refl _
      · exact subset_cons_self _ _
    refine ⟨?_, ?_, ?_, ?_, h.nodupClasses, h.nodupEnums, ?_, hfields, hroot⟩
    · intro s hs
      rcases mem_pushAll hs with hs | hs
      · exact hresolved s hs
      rcases hts s hs with hpart | rfl
      · exact ht.part hpart
      · exact resolved_nullType
    · intro s hs n hn
      rcases mem_pushAll hs with hs | hs
      · exact hreached s hs n hn
      rcases hts s hs with hpart | rfl
      · exact hreach n (Ty.mem_refs_of_part hpart hn)
      · cases hn
    · intro c hc
      obtain ⟨hc, hmem, hway⟩ := h.classes c hc
      exact ⟨hc, hsub hmem, hway⟩
    · intro e he
      obtain ⟨he, hmem, hway⟩ := h.enums e he
      exact ⟨he, hsub hmem, hway⟩
    intro k hk
    rcases hcs with rfl | rfl
    · exact hchecked k (.inr hk)
    · exact hchecked k (mem_cons.mp hk)

/-- Run lemma of the loop: what a step preserves holds at the end, with an empty stack. -/
theorem orderLoop_inv {P : OrderState → Prop}
    (hstep : ∀ t st, P { st with stack := t :: st.stack } → P (orderStep d st t)) (st)
    (h : P st) : P (orderLoop d st) ∧ (orderLoop d st).stack = [] := by
  induction hn : orderMeasure d st using Nat.strong_induction_on generalizing st with
  | _ n ih =>
    rw [orderLoop_eq, orderF]
    cases hstack : st.stack with
    | nil => exact ⟨h, hstack⟩
    | cons t stack =>
      have hst : st = { st with stack := t :: stack } := by rw [← hstack]
      refine ih _ ?_ _ (hstep t { st with stack := stack } (hst ▸ h)) rfl
      refine hn ▸ (orderMeasure_orderStep d { st with stack := stack } t).trans_le ?_
      simp [orderMeasure, hstack, weights, Nat.add_assoc]

end

/-- **The walk lists what can be reached**: exactly the classes and the enums that the root leads to,
each once. -/
theorem orderByReachability_exact {root} (hd : d.Closed root) (halias : d.aliasTargets = [])
    (hroot : isPlainName root) (hfound : (d.findClass root).isSome = true) (m) (dyn : Bool) :
    let st := orderByReachability (.cls m root .nonStreaming dyn) d.enumDefs d.classDefs []
    (st.classesOut.map (·.name.name)).Nodup ∧ (st.enumsOut.map (·.name.name)).Nodup ∧
      (∀ c ∈ st.classesOut, d.findClass c.name.name = some c) ∧
      (∀ e ∈ st.enumsOut, d.findEnum e.name.name = some e) ∧
      (∀ n, n ∈ st.classesOut.map (·.name.name) ↔
        Relation.ReflTransGen (nameEdge d) root n ∧ (d.findClass n).isSome = true) ∧
      ∀ n, n ∈ st.enumsOut.map (·.name.name) ↔
        Relation.ReflTransGen (nameEdge d) root n ∧ (d.findEnum n).isSome = true := by
  intro st
  have hdefs : (⟨d.enumDefs, d.classDefs, []⟩ : OrderDefs) = d := by rw [← halias]
  have hresolved := resolved_cls hroot hfound m dyn
  have hinit : WalkInv d root ⟨[.cls m root .nonStreaming dyn], [], [], [], []⟩ := by
    refine ⟨?_, ?_, by simp, by simp, by simp, by simp, by simp, by simp, ?_⟩
    · intro t ht
      cases mem_singleton.mp ht
      exact hresolved
    · intro t ht n hn
      cases mem_singleton.mp ht
      cases mem_singleton.mp hn
      exact .refl
    · exact ⟨_, .inr ⟨_, mem_singleton_self _, mem_singleton_self root, Nat.lt_succ_self _⟩⟩
  have hwalk : WalkInv d root st ∧ st.stack = [] := by
    have hloop := orderLoop_inv (P := WalkInv d root)
      (fun t st h => h.visit hd (visit_orderStep (h.resolved t mem_cons_self))) _ hinit
    rwa [← hdefs] at hloop ⊢
  obtain ⟨h, hempty⟩ := hwalk
  have howed : ∀ {bound n}, Owed st bound n → Listed st n := by
    rintro bound n (hn | ⟨s, hs, -⟩)
    · exact hn
    · rw [hempty] at hs
      cases hs
  have hlisted : ∀ n, Relation.ReflTransGen (nameEdge d) root n → Listed st n := by
    intro n hn
    induction hn with
    | refl =>
      obtain ⟨bound, hbound⟩ := h.root
      exact howed hbound
    | @tail n n' _ hedge ih =>
      obtain ⟨c, hfind, f, hf, hn'⟩ := hedge
      rcases ih with ⟨c', hc', hname⟩ | ⟨e, he, hname⟩
      · have heq : c' = c := by
          have hfind' := (h.classes c' hc').1
          rw [hname] at hfind'
          exact Option.some.inj (hfind'.symm.trans hfind)
        subst heq
        obtain ⟨bound, hbound⟩ := h.fields c' hc' f hf n' hn'
        exact howed hbound
      have henum := (h.enums e he).1
      rw [hname, hd.disjoint n (by rw [hfind]; rfl)] at henum
      cases henum
  refine ⟨h.nodupClasses, h.nodupEnums, fun c hc => (h.classes c hc).1,
    fun e he => (h.enums e he).1, fun n => ⟨?_, ?_⟩, fun n => ⟨?_, ?_⟩⟩
  · intro hn
    obtain ⟨c, hc, rfl⟩ := mem_map.mp hn
    obtain ⟨hfind, -, hway⟩ := h.classes c hc
    exact ⟨hway, by rw [hfind]; rfl⟩
  · rintro ⟨hway, hfound⟩
    rcases hlisted n hway with ⟨c, hc, rfl⟩ | ⟨e, he, rfl⟩
    · exact mem_map_of_mem hc
    have henum := (h.enums e he).1
    rw [hd.disjoint _ hfound] at henum
    cases henum
  · intro hn
    obtain ⟨e, he, rfl⟩ := mem_map.mp hn
    obtain ⟨hfind, -, hway⟩ := h.enums e he
    exact ⟨hway, by rw [hfind]; rfl⟩
  rintro ⟨hway, hfound⟩
  rcases hlisted n hway with ⟨c, hc, rfl⟩ | ⟨e, he, rfl⟩
  · have hnone := hd.disjoint c.name.name (by rw [(h.classes c hc).1]; rfl)
    rw [hnone] at hfound
    cases hfound
  · exact mem_map_of_mem he

end BamlRest
