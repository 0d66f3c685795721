import BamlRest.Lib.FirstPath
import BamlRest.NativeSchema.Descriptor

/-!
# The recursion analysis and lowering

Lowering follows references depth first and relies on the recursion analysis to stop. It ends for
every function.

* `InOrder`: a type expression, or the fields of a class, lower their names from left to right.
* `Opens`: what lowering follows from a name; `ClosesAtClassified`: where it comes back, it does so to
  a name that the analysis has classified.
* `lowerNameRef_turn`: what lowering one name can do.
* `lowerNameRef_lowers`, `lowerNameRef_reached`: lowering takes the paths of a depth-first walk in
  order, and all of them if it succeeds.
* `buildFunctionDescriptor_consistent`: the errors about the recursion analysis.
-/

namespace BamlRest.NativeSchema

open List

/-! ### Runs -/

/-- The run ends with a result as required, or declines; if `strict`, not with an inconsistency. -/
def Sound {β : Type} (strict : Prop) (post : β → Prop) : Run DeclineError β → Prop
  | .out => False
  | .fail e => strict → e.isInconsistency = false
  | .ok a => post a

section

variable {β γ : Type} {strict : Prop}

variable {post : β → Prop} {x : Run DeclineError β}

theorem Sound.bind {post' : γ → Prop} {f : β → Run DeclineError γ} (hx : Sound strict post x)
    (hf : ∀ a, post a → Sound strict post' (f a)) : Sound strict post' (x >>= f) := by
  cases x with
  | out => exact hx
  | fail e => exact hx
  | ok a => exact hf a hx

theorem Sound.mono {post' : β → Prop} (hx : Sound strict post x)
    (h : ∀ a, post a → post' a) : Sound strict post' x := by
  cases x with
  | out => exact hx
  | fail e => exact hx
  | ok a => exact h a hx

theorem Sound.declining {as} (hx : Sound strict post x) : Sound strict post (declining as x) := by
  cases as with
  | nil => exact hx
  | cons a as => exact fun _ => rfl

end

/-- What lowering leaves as it is: the active names, and what is not done about them. -/
structure Keeps (b b' : DescriptorBuilder) : Prop where
  classVisiting : b'.classVisiting = b.classVisiting
  aliasVisiting : b'.aliasVisiting = b.aliasVisiting
  structural : b.structuralAliases.map Prod.fst ⊆ b'.structuralAliases.map Prod.fst
  active : ∀ n ∈ b.classVisiting, n ∈ b'.classes.map Prod.fst → n ∈ b.classes.map Prod.fst

theorem Keeps.refl (b) : Keeps b b := ⟨rfl, rfl, List.Subset.refl _, fun _ _ h => h⟩

theorem Keeps.trans {b b' b''} (h : Keeps b b') (h' : Keeps b' b'') : Keeps b b'' where
  classVisiting := h'.1.trans h.1
  aliasVisiting := h'.2.trans h.2
  structural := List.Subset.trans h.3 h'.3
  active := fun n hn hc => h.4 n hn (h'.4 n (h.1 ▸ hn) hc)

/-! ### Errors of other kinds -/

section

variable {name : Bytes} {e : DeclineError}

theorem lowerPrimitive_error (h : lowerPrimitive name = .error e) : e.isInconsistency = false := by
  unfold lowerPrimitive at h
  split_ifs at h
  cases h
  rfl

theorem lowerMedia_error (h : lowerMedia name = .error e) : e.isInconsistency = false := by
  unfold lowerMedia at h
  split_ifs at h
  cases h
  rfl

theorem lowerLiteral_error {kind value}
    (h : lowerLiteral kind value = .error e) : e.isInconsistency = false := by
  unfold lowerLiteral at h
  split_ifs at h
  · split at h <;> cases h
    rfl
  · cases h
    rfl
  · cases h
    rfl

variable {a : Attribute}

theorem attributeStringArg_error
    (h : attributeStringArg a = .error e) : e.isInconsistency = false := by
  unfold attributeStringArg at h
  split at h <;> cases h
  rfl

theorem constraintFromAttribute_error
    (h : constraintFromAttribute a = .error e) : e.isInconsistency = false := by
  unfold constraintFromAttribute at h
  by_cases hparens : (!a.hasParens) = true
  · rw [if_pos hparens] at h
    cases h
    rfl
  rw [if_neg hparens] at h
  split at h <;> cases h
  rfl

variable {m : MemberMeta}

theorem MemberMeta.add_error {block}
    (h : m.add block a = .error e) : e.isInconsistency = false := by
  have hstring : ∀ e', attributeStringArg a = .error e' → e'.isInconsistency = false :=
    fun _ => attributeStringArg_error
  have hconstraint : ∀ e', constraintFromAttribute a = .error e' → e'.isInconsistency = false :=
    fun _ => constraintFromAttribute_error
  unfold MemberMeta.add at h
  grind [DeclineError.isInconsistency]

theorem extractMeta_error {block as}
    (h : extractMeta block m as = .error e) : e.isInconsistency = false := by
  induction as generalizing m with
  | nil => cases h
  | cons a as ih =>
    rw [extractMeta] at h
    cases hadd : m.add block a with
    | error e' =>
      rw [hadd] at h
      cases h
      exact MemberMeta.add_error hadd
    | ok m' =>
      rw [hadd] at h
      exact ih h

theorem extractMemberMeta_error {as}
    (h : extractMemberMeta m as = .error e) : e.isInconsistency = false := by
  induction as generalizing m with
  | nil => cases h
  | cons a as ih =>
    rw [extractMemberMeta] at h
    split_ifs at h
    · cases hadd : m.add false a with
      | error e' =>
        rw [hadd] at h
        cases h
        exact MemberMeta.add_error hadd
      | ok m' =>
        rw [hadd] at h
        exact ih h
    · cases h
      rfl

theorem lowerEnumValues_error {ms}
    (h : lowerEnumValues name ms = .error e) : e.isInconsistency = false := by
  induction ms with
  | nil => cases h
  | cons m ms ih =>
    rw [lowerEnumValues] at h
    split_ifs at h
    · cases h
      rfl
    · exact ih h
    cases hmeta : extractMemberMeta .zero m.attributes with
    | error e' =>
      rw [hmeta] at h
      cases h
      exact (extractMemberMeta_error hmeta : e'.isInconsistency = false)
    | ok vm =>
      rw [hmeta] at h
      cases hrest : lowerEnumValues name ms with
      | error e' =>
        rw [hrest] at h
        cases h
        exact ih hrest
      | ok values =>
        rw [hrest] at h
        cases h

theorem ensureEnum_sound (name tb b) :
    (∀ e, ensureEnum name tb b = .error e → e.isInconsistency = false) ∧
      ∀ b', ensureEnum name tb b = .ok b' → Keeps b b' ∧ b'.classes = b.classes ∧
        b'.structuralAliases = b.structuralAliases := by
  unfold ensureEnum
  split_ifs with hdone hbody hargs
  · exact ⟨fun e h => (nomatch h), fun b' h => Except.ok.inj h ▸ ⟨Keeps.refl b, rfl, rfl⟩⟩
  · exact ⟨fun e h => Except.error.inj h ▸ rfl, fun b' h => nomatch h⟩
  · exact ⟨fun e h => Except.error.inj h ▸ rfl, fun b' h => nomatch h⟩
  cases hmeta : extractBlockMeta tb.attributes with
  | error e' =>
    refine ⟨fun e h => ?_, fun b' h => nomatch h⟩
    cases h
    exact (extractMeta_error hmeta : e'.isInconsistency = false)
  | ok block =>
    dsimp only
    split_ifs
    · exact ⟨fun e h => Except.error.inj h ▸ rfl, fun b' h => nomatch h⟩
    · exact ⟨fun e h => Except.error.inj h ▸ rfl, fun b' h => nomatch h⟩
    cases hvalues : lowerEnumValues name tb.fields with
    | error e' =>
      refine ⟨fun e h => ?_, fun b' h => nomatch h⟩
      cases h
      exact lowerEnumValues_error hvalues
    | ok values =>
      refine ⟨fun e h => (nomatch h), fun b' h => ?_⟩
      cases h
      exact ⟨⟨rfl, rfl, List.Subset.refl _, fun _ _ h => h⟩, rfl, rfl⟩

end

/-! ### Type expressions -/

section

variable {β γ : Type} {strict : Prop} {ref : Bytes → Lowering Ty} {names xs ys : List Bytes}
  {I : List Bytes → DescriptorBuilder → Prop}

/-- Lowering the next of some names keeps an invariant that speaks of the names before it. -/
def Threads (strict : Prop) (ref : Bytes → Lowering Ty) (names : List Bytes)
    (I : List Bytes → DescriptorBuilder → Prop) : Prop :=
  ∀ before m after, names = before ++ m :: after → ∀ b, I before b →
    Sound strict (fun r => I (before ++ [m]) r.2) (ref m b)

/-- A lowering lowers some names from left to right and does nothing else to the builder. -/
def InOrder (ref : Bytes → Lowering Ty) (names : List Bytes) (l : Lowering β) : Prop :=
  ∀ strict I b, Threads strict ref names I → I [] b → Sound strict (fun r => I names r.2) (l b)

theorem Threads.left (h : Threads strict ref (xs ++ ys) I) : Threads strict ref xs I :=
  fun before m after hxs => h before m (after ++ ys) (by simp [hxs])

theorem Threads.right (h : Threads strict ref (xs ++ ys) I) :
    Threads strict ref ys fun zs => I (xs ++ zs) := by
  intro before m after hys b hb
  have := h (xs ++ before) m after (by simp [hys]) b hb
  rwa [append_assoc] at this

theorem InOrder.bind {l : Lowering β} {f : β → Lowering γ} (hl : InOrder ref xs l)
    (hf : ∀ a, InOrder ref ys (f a)) :
    InOrder ref (xs ++ ys) fun b => l b >>= fun r => f r.1 r.2 := by
  intro strict I b h hb
  refine (hl strict I b h.left hb).bind fun r hr => ?_
  exact hf r.1 strict _ r.2 h.right (by rwa [append_nil])

theorem InOrder.pure (a : β) : InOrder ref [] fun b => .ok (a, b) := fun _ _ _ _ hb => hb

theorem InOrder.map {l : Lowering β} (hl : InOrder ref names l) (g : β → γ) :
    InOrder ref names fun b => l b >>= fun r => .ok (g r.1, r.2) :=
  append_nil names ▸ hl.bind fun a => .pure (g a)

theorem InOrder.fail {e : DeclineError} (he : e.isInconsistency = false) :
    InOrder ref names fun _ => (.fail e : Run DeclineError (β × DescriptorBuilder)) :=
  fun _ _ _ _ _ _ => he

theorem InOrder.declining {l : Lowering β} (hl : InOrder ref names l) (as) :
    InOrder ref names fun b => declining as (l b) :=
  fun strict I b h hb => (hl strict I b h hb).declining

theorem InOrder.leaf {r : Except DeclineError Ty}
    (h : ∀ e, r = .error e → e.isInconsistency = false) : InOrder ref [] (leaf r) := by
  cases r with
  | error e => exact .fail (h e rfl)
  | ok t => exact .pure t

theorem lowerTypes_inOrder {ts : List TypeExpr}
    (ih : ∀ t ∈ ts, InOrder ref (t.mentions true) (lowerType ref t)) :
    InOrder ref (TypeExpr.mentionsAll true ts) (lowerTypes ref ts) := by
  induction ts with
  | nil => exact .pure _
  | cons t ts iht =>
    exact (ih t mem_cons_self).bind fun a =>
      (iht fun t ht => ih t (mem_cons_of_mem _ ht)).map (a :: ·)

theorem lowerType_inOrder (t : TypeExpr) : InOrder ref (t.mentions true) (lowerType ref t) := by
  induction t using TypeExpr.induction with
  | missing => exact .fail rfl
  | unsupported as r => exact InOrder.declining (.fail rfl) as
  | primitive as n => exact InOrder.declining (.leaf fun e => lowerPrimitive_error) as
  | media as n => exact InOrder.declining (.leaf fun e => lowerMedia_error) as
  | literal as k v => exact InOrder.declining (.leaf fun e => lowerLiteral_error) as
  | nameRef as n ns p =>
    refine InOrder.declining (l := fun b => if ns || p then .fail (.pathName n) else ref n b) ?_ as
    simp only [TypeExpr.mentions]
    split_ifs with hpath
    · exact .fail rfl
    · exact fun strict I b h hb => h [] n [] rfl b hb
  | list as e d ih => exact (ih.map (nestLists (max d 1))).declining as
  | map as k v ihk ihv => exact (ihk.bind fun k => ihv.map (Ty.map .zero k)).declining as
  | union as vs n ih =>
    exact ((lowerTypes_inOrder ih).map fun ts => normalizeDescriptorUnion ts n).declining as
  | tuple as ts ih => exact ((lowerTypes_inOrder ih).map (Ty.tuple .zero)).declining as
  | group as t ih => exact ih.declining as

theorem mentions_stripAttributes (t : TypeExpr) :
    t.stripAttributes.mentions true = t.mentions true := by
  cases t <;> rfl

/-- The names in the fields of a class that are lowered. -/
def fieldMentions (ms : List TypeMember) : List Bytes :=
  (ms.filter fun m => !hasSkipAttribute (memberAttributes m)).flatMap fun m => m.type.mentions true

theorem lowerFields_inOrder (name : Bytes) (ms : List TypeMember) :
    InOrder ref (fieldMentions ms) (lowerFields ref name ms) := by
  induction ms with
  | nil => exact .pure _
  | cons m ms ih =>
    intro strict I b h hb
    rw [lowerFields]
    split_ifs with hmissing hskip
    · exact fun _ => rfl
    · have hnames : fieldMentions (m :: ms) = fieldMentions ms := by simp [fieldMentions, hskip]
      rw [hnames] at h ⊢
      exact ih strict I b h hb
    have hnames : fieldMentions (m :: ms) = m.type.mentions true ++ fieldMentions ms := by
      simp [fieldMentions, hskip]
    rw [hnames] at h ⊢
    cases hmeta : extractFieldMeta (memberAttributes m) with
    | error e => exact fun _ => (extractMeta_error hmeta : e.isInconsistency = false)
    | ok fm =>
      have hfield := lowerType_inOrder m.type.stripAttributes strict I b
        (mentions_stripAttributes m.type ▸ h.left) hb
      rw [mentions_stripAttributes] at hfield
      dsimp only
      cases hlower : lowerType ref m.type.stripAttributes b with
      | out => rw [hlower] at hfield; exact hfield
      | fail e => rw [hlower] at hfield; exact hfield
      | ok r =>
        rw [hlower] at hfield
        exact (ih strict _ r.2 h.right (by rwa [append_nil])).bind fun r' hr' => hr'

/-- If a lowering in order succeeds, it has lowered each of its names. -/
theorem InOrder.reached {l : Lowering β} (hl : InOrder ref names l)
    (h : Threads False ref names I) {b r} (hb : I [] b) (hok : l b = .ok r) {before m after}
    (hnames : names = before ++ m :: after) : ∃ b' r', I before b' ∧ ref m b' = .ok r' := by
  by_contra hnone
  push Not at hnone
  -- otherwise the invariant cannot be kept beyond the name
  have hsound := hl False (fun zs b => I zs b ∧ zs.length ≤ before.length) b ?_ ⟨hb, Nat.zero_le _⟩
  · rw [hok] at hsound
    have hle := hsound.2
    rw [hnames, length_append, length_cons] at hle
    omega
  rintro before' m' after' hnames' b' ⟨hb', hle⟩
  have hsound := h before' m' after' hnames' b' hb'
  cases hrun : ref m' b' with
  | out => rw [hrun] at hsound; exact hsound
  | fail e => exact fun h => h.elim
  | ok r' =>
    rw [hrun] at hsound
    refine ⟨hsound, ?_⟩
    by_contra hlt
    have hlen : before'.length = before.length := by
      rw [length_append, length_singleton] at hlt
      omega
    obtain ⟨rfl, htail⟩ := append_inj (hnames'.symm.trans hnames) hlen
    cases htail
    exact hnone b' r' hb' hrun

end

/-! ### The references that lowering follows -/

section

variable (idx : SchemaTypeIndex)

/-- The names that lowering a name leads to, in order: those in the fields of a class, or in the
target of an alias that is not declined. -/
inductive Opens (n : Bytes) : List Bytes → Prop where
  | field (tb : TypeBlock) (hclass : idx.classes n = some tb)
    (hbody : tb.hasUnsupportedContent = false) (hargs : tb.hasArgs = false) :
    Opens n (fieldMentions tb.fields)
  | target (d : TypeAlias) (halias : idx.aliases n = some d) (hattrs : d.attributes = [])
    (hvalid : ¬Relation.TransGen (aliasEdge idx false) n n)
    (halone : ∀ k, Relation.TransGen (aliasEdge idx true) n k →
      Relation.TransGen (aliasEdge idx true) k n → k = n) : Opens n (d.expr.mentions true)

/-- The names that are lowered once: classes and recursive aliases. Other aliases are lowered
wherever they are mentioned. -/
def Memo (n : Bytes) : Prop := (idx.classes n).isSome = true ∨ RecursiveAlias idx n

/-- A class on a cycle of classes, or an alias on a cycle of aliases. -/
def Classified (n : Bytes) : Prop :=
  Relation.TransGen (classEdge idx) n n ∨ RecursiveAlias idx n

/-- Where the walk in order from a return type comes back to a name on its path, the name is
classified. -/
def ClosesAtClassified (ret : TypeExpr) : Prop :=
  ∀ n path closed, FirstPath (Opens idx) (Memo idx) (ret.mentions true) (n :: path) closed →
    n ∈ path → Classified idx n

variable (info : RecursionInfo)

/-- The names that a builder has registered, of those that are lowered once. -/
def registered (b : DescriptorBuilder) : Set Bytes :=
  {n | if (idx.classes n).isSome = true then n ∈ b.classes.map Prod.fst
    else info.structuralAlias n = true ∧ n ∈ b.structuralAliases.map Prod.fst}

/-- The builder knows the names on a path that leads to the name being lowered. -/
structure OnPath (path : List Bytes) (b : DescriptorBuilder) : Prop where
  nodup : path.Nodup
  declared : path ⊆ idx.declared
  classes : ∀ n, n ∈ b.classVisiting ↔ n ∈ path ∧ (idx.classes n).isSome = true
  inlined : ∀ n, n ∈ b.aliasVisiting ↔
    n ∈ path ∧ (idx.aliases n).isSome = true ∧ info.structuralAlias n = false
  structural : ∀ n ∈ path, (idx.aliases n).isSome = true → info.structuralAlias n →
    n ∈ b.structuralAliases.map Prod.fst
  active : ∀ n ∈ b.classVisiting, n ∉ b.classes.map Prod.fst
  kinds : ∀ n ∈ path, (idx.classes n).isSome = true ∨ (idx.aliases n).isSome = true

end

section

variable {idx : SchemaTypeIndex} {info : RecursionInfo} {path : List Bytes} {b b' : DescriptorBuilder}
  {n : Bytes}

theorem OnPath.keeps (h : OnPath idx info path b) (hkeeps : Keeps b b') :
    OnPath idx info path b' where
  nodup := h.nodup
  declared := h.declared
  classes := hkeeps.classVisiting ▸ h.classes
  inlined := hkeeps.aliasVisiting ▸ h.inlined
  structural := fun n hn ha hs => hkeeps.structural (h.structural n hn ha hs)
  active := fun n hn hc =>
    have hn := hkeeps.classVisiting ▸ hn
    h.active n hn (hkeeps.active n hn hc)
  kinds := h.kinds

theorem OnPath.new : OnPath idx info [] .new where
  nodup := nodup_nil
  declared := nil_subset _
  classes := by simp [DescriptorBuilder.new]
  inlined := by simp [DescriptorBuilder.new]
  structural := by simp
  active := by simp [DescriptorBuilder.new]
  kinds := by simp

theorem mem_declared_of_class (h : (idx.classes n).isSome = true) : n ∈ idx.declared :=
  mem_append_left _ (mem_append_left _ (lastEntry_isSome.mp h))

theorem mem_declared_of_alias (h : (idx.aliases n).isSome = true) : n ∈ idx.declared :=
  mem_append_right _ (lastEntry_isSome.mp h)

theorem OnPath.push (h : OnPath idx info path b) (hnot : n ∉ path)
    (hkind : (idx.classes n).isSome = true ∨ (idx.aliases n).isSome = true)
    (hclasses : ∀ k, k ∈ b'.classVisiting ↔
      k ∈ b.classVisiting ∨ k = n ∧ (idx.classes n).isSome = true)
    (hinlined : ∀ k, k ∈ b'.aliasVisiting ↔
      k ∈ b.aliasVisiting ∨ k = n ∧ (idx.aliases n).isSome = true ∧ info.structuralAlias n = false)
    (hkeys : b.structuralAliases.map Prod.fst ⊆ b'.structuralAliases.map Prod.fst)
    (hkey : (idx.aliases n).isSome = true → info.structuralAlias n →
      n ∈ b'.structuralAliases.map Prod.fst)
    (hactive : ∀ k ∈ b'.classVisiting, k ∉ b'.classes.map Prod.fst) :
    OnPath idx info (n :: path) b' where
  nodup := nodup_cons.mpr ⟨hnot, h.nodup⟩
  declared := cons_subset.mpr ⟨hkind.elim mem_declared_of_class mem_declared_of_alias, h.declared⟩
  classes := by
    intro k
    rw [hclasses, h.classes, mem_cons]
    constructor
    · rintro (⟨hk, hsk⟩ | ⟨rfl, hsk⟩)
      · exact ⟨.inr hk, hsk⟩
      · exact ⟨.inl rfl, hsk⟩
    rintro ⟨rfl | hk, hsk⟩
    · exact .inr ⟨rfl, hsk⟩
    · exact .inl ⟨hk, hsk⟩
  inlined := by
    intro k
    rw [hinlined, h.inlined, mem_cons]
    constructor
    · rintro (⟨hk, hsk⟩ | ⟨rfl, hsk⟩)
      · exact ⟨.inr hk, hsk⟩
      · exact ⟨.inl rfl, hsk⟩
    rintro ⟨rfl | hk, hsk⟩
    · exact .inr ⟨rfl, hsk⟩
    · exact .inl ⟨hk, hsk⟩
  structural := by
    intro k hk ha hstr
    rcases mem_cons.mp hk with rfl | hk
    · exact hkey ha hstr
    · exact hkeys (h.structural k hk ha hstr)
  active := hactive
  kinds := by
    intro k hk
    rcases mem_cons.mp hk with rfl | hk
    · exact hkind
    · exact h.kinds k hk

theorem mem_registered_of_class (h : (idx.classes n).isSome = true) :
    n ∈ registered idx info b ↔ n ∈ b.classes.map Prod.fst := by
  simp [registered, h]

theorem mem_registered_of_alias (h : (idx.classes n).isSome ≠ true) : n ∈ registered idx info b ↔
    info.structuralAlias n = true ∧ n ∈ b.structuralAliases.map Prod.fst := by
  simp [registered, h]

/-- What lowering a name can do: decline, meet a name on the path that is not classified, leave a
name that needs no lowering, or open it, which lowers what it leads to in order and closes it. -/
inductive Turn (idx : SchemaTypeIndex) (info : RecursionInfo) (ref : Bytes → Lowering Ty)
    (path : List Bytes) (n : Bytes) (b : DescriptorBuilder) :
    Run DeclineError (Ty × DescriptorBuilder) → Prop where
  | declined {e} (h : e.isInconsistency = false) : Turn idx info ref path n b (.fail e)
  | clash {e} (hpath : n ∈ path) (hc : ¬Classified idx n) : Turn idx info ref path n b (.fail e)
  | known {t b'} (hkeeps : Keeps b b') (hreg : registered idx info b' = registered idx info b)
    (hn : n ∈ path ∨ n ∈ registered idx info b ∨ ¬Memo idx n ∧ ∀ ns, ¬Opens idx n ns)
    (hc : n ∈ path → Classified idx n) : Turn idx info ref path n b (.ok (t, b'))
  | opened {β : Type} {l : Lowering β} {names b₀}
    (close : β × DescriptorBuilder → Ty × DescriptorBuilder) (hn : n ∉ path)
    (hnew : n ∉ registered idx info b) (ho : Opens idx n names) (hl : InOrder ref names l)
    (hpath : OnPath idx info (n :: path) b₀)
    (honly : ∀ y ∈ registered idx info b₀, y ∈ registered idx info b ∨ Memo idx n ∧ y = n)
    (hgrows : registered idx info b ⊆ registered idx info b₀)
    (hclose : ∀ r, Keeps b₀ r.2 → Keeps b (close r).2 ∧ ∀ y, y ∈ registered idx info (close r).2 ↔
      y ∈ registered idx info r.2 ∨ Memo idx n ∧ y = n) :
    Turn idx info ref path n b (l b₀ >>= fun r => .ok (close r))

variable (hdistinct : idx.Distinct) (hinfo : info.Exact idx) {ref : Bytes → Lowering Ty}
include hdistinct

/-- A name opens one list of names. -/
theorem opens_unique {xs ys} (h : Opens idx n xs) (h' : Opens idx n ys) : ys = xs := by
  have hboth : ∀ tb d, idx.classes n = some tb → idx.aliases n ≠ some d := by
    intro tb d htb hd
    rw [(hdistinct.alias (a := n) (by rw [hd]; rfl)).1] at htb
    cases htb
  cases h with
  | field tb hclass =>
    cases h' with
    | field tb' hclass' =>
      cases hclass.symm.trans hclass'
      rfl
    | target d halias => exact absurd halias (hboth tb d hclass)
  | target d halias =>
    cases h' with
    | field tb hclass => exact absurd halias (hboth tb d hclass)
    | target d' halias' =>
      cases halias.symm.trans halias'
      rfl

theorem Classified.of_class (h : Classified idx n) (hclass : (idx.classes n).isSome = true) :
    Relation.TransGen (classEdge idx) n n := by
  refine h.resolve_right fun hrec => ?_
  obtain ⟨m, ⟨d, hd, -⟩, -⟩ := Relation.TransGen.head'_iff.mp hrec
  have hnone := (hdistinct.alias (a := n) (by rw [hd]; rfl)).1
  rw [hnone] at hclass
  cases hclass

theorem Classified.of_alias (h : Classified idx n)
    (halias : (idx.aliases n).isSome = true) : RecursiveAlias idx n := by
  refine h.resolve_left fun hrec => ?_
  obtain ⟨m, ⟨tb, htb, -⟩, -⟩ := Relation.TransGen.head'_iff.mp hrec
  rw [(hdistinct.alias halias).1] at htb
  cases htb

include hinfo

/-- The turn of a class. -/
theorem ensureClass_turn {tb t} (hclass : idx.classes n = some tb) (hpath : OnPath idx info path b) :
    Turn idx info ref path n b
      (ensureClass info ref n tb b >>= fun b => .ok (t, b)) := by
  have hsome : (idx.classes n).isSome = true := by rw [hclass]; rfl
  have hno : (idx.aliases n).isSome ≠ true := by
    intro ha
    rw [(hdistinct.alias ha).1] at hsome
    cases hsome
  have hmem : n ∈ registered idx info b ↔ _ := mem_registered_of_class hsome
  unfold ensureClass
  split_ifs with hdone hvisiting hrec hbody hargs
  · have hdone := contains_iff_mem.mp hdone
    refine .known (Keeps.refl b) rfl (.inr (.inl (hmem.mpr hdone))) fun hn => ?_
    exact absurd hdone (hpath.active n ((hpath.classes n).mpr ⟨hn, hsome⟩))
  · have hn := ((hpath.classes n).mp (contains_iff_mem.mp hvisiting)).1
    exact .known (Keeps.refl b) rfl (.inl hn) fun _ => .inl ((hinfo.recursive n).mp hrec)
  · have hn := ((hpath.classes n).mp (contains_iff_mem.mp hvisiting)).1
    exact .clash hn fun hc => hrec ((hinfo.recursive n).mpr (hc.of_class hdistinct hsome))
  · exact .declined rfl
  · exact .declined rfl
  have hnot : n ∉ path := fun hn =>
    hvisiting (contains_iff_mem.mpr ((hpath.classes n).mpr ⟨hn, hsome⟩))
  have hdone : n ∉ b.classes.map Prod.fst := fun h => hdone (contains_iff_mem.mpr h)
  cases hmeta : extractBlockMeta tb.attributes with
  | error e => exact .declined (extractMeta_error hmeta : e.isInconsistency = false)
  | ok block =>
    have hpath' : OnPath idx info (n :: path) { b with classVisiting := n :: b.classVisiting } := by
      refine hpath.push hnot (.inl hsome) (by simp [hsome, or_comm]) (by simp [hno])
        (List.Subset.refl _) (fun ha => absurd ha hno) fun k hk => ?_
      rcases mem_cons.mp hk with rfl | hk
      · exact hdone
      · exact hpath.active k hk
    dsimp only
    rw [Run.bind_assoc]
    refine .opened (fun r => (t, _)) hnot (fun h => hdone (hmem.mp h))
      (.field tb hclass (by simpa using hbody) (by simpa using hargs)) (lowerFields_inOrder n tb.fields)
      hpath' (fun y hy => .inl hy) (fun y hy => hy) fun r hr => ⟨⟨?_, hr.aliasVisiting, hr.structural,
        fun k hk hc => ?_⟩, fun y => ?_⟩
    · change r.2.classVisiting.erase n = b.classVisiting
      rw [hr.classVisiting]
      exact erase_cons_head n _
    · rw [map_append, mem_append] at hc
      rcases hc with hc | hc
      · exact hr.active k (mem_cons_of_mem _ hk) hc
      · cases mem_singleton.mp hc
        exact absurd ((hpath.classes n).mp hk).1 hnot
    · by_cases hy : (idx.classes y).isSome = true
      · rw [mem_registered_of_class hy, mem_registered_of_class hy, map_append, mem_append]
        simp [Memo, hsome]
      · rw [mem_registered_of_alias hy, mem_registered_of_alias hy]
        have hne : y ≠ n := fun h => hy (h ▸ hsome)
        simp [hne]

omit hdistinct hinfo in
theorem map_fst_filled {name} {target : Ty} (l : List (Bytes × Option Ty)) :
    (l.map fun e => if e.1 = name then (name, some target) else e).map Prod.fst = l.map Prod.fst := by
  rw [map_map]
  refine map_congr_left fun e _ => ?_
  by_cases he : e.1 = name
  · simp [he]
  · simp [he]

theorem ensureStructuralAlias_turn {d t} (halias : idx.aliases n = some d)
    (ho : Opens idx n (d.expr.mentions true)) (hstr : info.structuralAlias n = true)
    (hpath : OnPath idx info path b) : Turn idx info ref path n b
      (ensureStructuralAlias ref n d b >>= fun b => .ok (t, b)) := by
  have hsome : (idx.aliases n).isSome = true := by rw [halias]; rfl
  have hno : (idx.classes n).isSome ≠ true := by simp [(hdistinct.alias hsome).1]
  have hmem : n ∈ registered idx info b ↔ _ := mem_registered_of_alias hno
  have hrec := ((hinfo.structural n).mp hstr).1
  unfold ensureStructuralAlias
  split_ifs with hdone hmissing
  · have hdone := contains_iff_mem.mp hdone
    exact .known (Keeps.refl b) rfl (.inr (.inl (hmem.mpr ⟨hstr, hdone⟩))) fun _ => .inr hrec
  · exact .declined rfl
  have hdone : n ∉ b.structuralAliases.map Prod.fst := fun h => hdone (contains_iff_mem.mpr h)
  have hnot : n ∉ path := fun hn => hdone (hpath.structural n hn hsome hstr)
  have hsub : b.structuralAliases.map Prod.fst ⊆
      (b.structuralAliases ++ [(n, none)]).map Prod.fst := by simp
  have hpath' : OnPath idx info (n :: path)
      { b with structuralAliases := b.structuralAliases ++ [(n, none)] } :=
    hpath.push hnot (.inr hsome) (by simp [hno]) (by simp [hstr]) hsub (by simp) hpath.active
  rw [Run.bind_assoc]
  refine .opened (fun r => (t, _)) hnot (fun h => hdone (hmem.mp h).2) ho
    (lowerType_inOrder d.expr) hpath' (fun y hy => ?_) (fun y hy => ?_) fun r hr =>
      ⟨⟨hr.classVisiting, hr.aliasVisiting, ?_, hr.active⟩, fun y => ?_⟩
  · by_cases hyc : (idx.classes y).isSome = true
    · rw [mem_registered_of_class hyc] at hy ⊢
      exact .inl hy
    · rw [mem_registered_of_alias hyc] at hy ⊢
      simp only [map_append, mem_append, map_cons, map_nil, mem_singleton] at hy
      exact hy.2.imp (⟨hy.1, ·⟩) (⟨.inr hrec, ·⟩)
  · by_cases hyc : (idx.classes y).isSome = true
    · rwa [mem_registered_of_class hyc] at hy ⊢
    · rw [mem_registered_of_alias hyc] at hy ⊢
      exact ⟨hy.1, hsub hy.2⟩
  · change _ ⊆ (r.2.structuralAliases.map _).map Prod.fst
    rw [map_fst_filled]
    exact List.Subset.trans hsub hr.structural
  · by_cases hyc : (idx.classes y).isSome = true
    · have hne : y ≠ n := fun h => hno (h ▸ hyc)
      rw [mem_registered_of_class hyc, mem_registered_of_class hyc]
      simp [hne]
    · rw [mem_registered_of_alias hyc, mem_registered_of_alias hyc]
      change _ ∧ y ∈ (r.2.structuralAliases.map _).map Prod.fst ↔ _
      rw [map_fst_filled]
      refine ⟨.inl, fun h => h.elim id ?_⟩
      rintro ⟨-, rfl⟩
      exact ⟨hstr, hr.structural (by simp)⟩

theorem resolveAlias_turn {d} (halias : idx.aliases n = some d) (hpath : OnPath idx info path b) :
    Turn idx info ref path n b (resolveAlias info ref n d b) := by
  have hsome : (idx.aliases n).isSome = true := by rw [halias]; rfl
  have hno : (idx.classes n).isSome ≠ true := by simp [(hdistinct.alias hsome).1]
  unfold resolveAlias
  cases hattrs : d.attributes with
  | cons a as => exact .declined rfl
  | nil =>
    dsimp only
    split_ifs with hinv hstr hsize hvisiting hmissing
    · exact .declined rfl
    · exact .declined rfl
    · refine ensureStructuralAlias_turn hdistinct hinfo halias (.target d halias hattrs ?_ ?_) hstr hpath
      · exact fun hcyc => hinv ((hinfo.invalid n).mpr hcyc)
      · exact hinfo.alone n hstr (by omega)
    · have hn := ((hpath.inlined n).mp (contains_iff_mem.mp hvisiting)).1
      refine .clash hn fun hc => hstr ((hinfo.structural n).mpr ⟨hc.of_alias hdistinct hsome, ?_⟩)
      simpa using hinv
    · exact .declined rfl
    have hplain : info.structuralAlias n = false := by simpa using hstr
    have hnotrec : ¬RecursiveAlias idx n := fun hrec =>
      hstr ((hinfo.structural n).mpr ⟨hrec, by simpa using hinv⟩)
    have hmemo : ¬Memo idx n := fun h => h.elim hno hnotrec
    have hnot : n ∉ path := fun hmem =>
      hvisiting (contains_iff_mem.mpr ((hpath.inlined n).mpr ⟨hmem, hsome, hplain⟩))
    have hpath' : OnPath idx info (n :: path) { b with aliasVisiting := n :: b.aliasVisiting } :=
      hpath.push hnot (.inr hsome) (by simp [hno]) (by simp [hsome, hplain, or_comm])
        (List.Subset.refl _) (fun _ hs => absurd hs hstr) hpath.active
    refine .opened (fun r => (r.1, _)) hnot
      (fun h => hstr ((mem_registered_of_alias hno).mp h).1) (.target d halias hattrs ?_ ?_)
      (lowerType_inOrder d.expr) hpath' (fun y hy => .inl hy) (fun y hy => hy) fun r hr =>
        ⟨⟨hr.classVisiting, ?_, hr.structural, hr.active⟩, fun y => ?_⟩
    · exact fun hcyc => hinv ((hinfo.invalid n).mpr hcyc)
    · exact fun k hk hk' => absurd (hk.trans hk') hnotrec
    · change r.2.aliasVisiting.erase n = b.aliasVisiting
      rw [hr.aliasVisiting]
      exact erase_cons_head n _
    · simp only [hmemo, false_and, or_false]
      rfl

theorem lowerNameRef_turn (fuel : ℕ) (n) (hpath : OnPath idx info path b) :
    Turn idx info (lowerNameRef idx info fuel) path n b (lowerNameRef idx info (fuel + 1) n b) := by
  rw [lowerNameRef]
  split_ifs with hambiguous
  · exact .declined rfl
  cases hclass : idx.classes n with
  | some tb => exact ensureClass_turn hdistinct hinfo hclass hpath
  | none =>
    cases henum : idx.enums n with
    | some tb =>
      obtain ⟨herr, hok⟩ := ensureEnum_sound n tb b
      have halias : (idx.aliases n).isSome ≠ true := by
        intro ha
        rw [(hdistinct.alias ha).2] at henum
        cases henum
      have hrec : ¬RecursiveAlias idx n := by
        intro hrec
        obtain ⟨m, ⟨d, hd, -⟩, -⟩ := Relation.TransGen.head'_iff.mp hrec
        exact halias (by rw [hd]; rfl)
      dsimp only
      cases hensure : ensureEnum n tb b with
      | error e => exact .declined (herr e hensure)
      | ok b' =>
        obtain ⟨hkeeps, hclasses, haliases⟩ := hok b' hensure
        refine .known hkeeps (by simp only [registered, hclasses, haliases])
          (.inr (.inr ⟨?_, fun ns ho => ?_⟩)) fun hn => ?_
        · simp [Memo, hclass, hrec]
        · cases ho with
          | field tb' htb' => cases hclass.symm.trans htb'
          | target d hd => exact halias (by rw [hd]; rfl)
        · exact absurd (hpath.kinds n hn) (by simp [hclass, halias])
    | none =>
      dsimp only
      cases halias : idx.aliases n with
      | some d => exact resolveAlias_turn hdistinct hinfo halias hpath
      | none => exact .declined rfl

/-! ### Whole lowerings -/

/-- The effect of lowering some names from a path. -/
structure After (idx : SchemaTypeIndex) (info : RecursionInfo) (path names : List Bytes)
    (b b' : DescriptorBuilder) : Prop where
  keeps : Keeps b b'
  sweep : Sweep (Opens idx) (Memo idx) path names (registered idx info b) (registered idx info b')

omit hdistinct hinfo in
theorem After.append {b'' xs ys} (h : After idx info path xs b b') (h' : After idx info path ys b' b'') :
    After idx info path (xs ++ ys) b b'' :=
  ⟨h.keeps.trans h'.keeps, h.sweep.append h'.sweep⟩

/-- A name is to be lowered from a path, and the names that the walk has closed are registered. -/
structure Ready (idx : SchemaTypeIndex) (info : RecursionInfo) (fuel : ℕ) (path : List Bytes)
    (b : DescriptorBuilder) : Prop where
  onPath : OnPath idx info path b
  swept : Swept (Opens idx) (Memo idx) path (registered idx info b)
  fuel : idx.declared.length < path.length + fuel

variable {fuel : ℕ} {strict : Prop} {roots names : List Bytes} {closed : Set Bytes}

omit hdistinct hinfo in
theorem Ready.after (h : Ready idx info fuel path b) (ha : After idx info path names b b') :
    Ready idx info fuel path b' :=
  ⟨h.onPath.keeps ha.keeps, ha.sweep.swept, h.fuel⟩

omit hdistinct hinfo in
theorem registered_new : registered idx info .new = ∅ := by
  ext y
  by_cases hy : (idx.classes y).isSome = true
  · simp [mem_registered_of_class hy, DescriptorBuilder.new]
  · simp [mem_registered_of_alias hy, DescriptorBuilder.new]

omit hdistinct hinfo in
theorem Ready.new : Ready idx info (idx.declared.length + 1) [] .new :=
  ⟨.new, by simp [Swept, registered_new], by simp⟩

omit hdistinct hinfo in
theorem Ready.push {b₀} (h : Ready idx info (fuel + 1) path b) (hpath : OnPath idx info (n :: path) b₀)
    (hgrows : registered idx info b ⊆ registered idx info b₀)
    (honly : ∀ y ∈ registered idx info b₀, y ∈ registered idx info b ∨ Memo idx n ∧ y = n) :
    Ready idx info fuel (n :: path) b₀ := by
  refine ⟨hpath, h.swept.push hgrows fun y hy => (honly y hy).imp_right And.right, ?_⟩
  have := h.fuel
  rw [length_cons]
  omega

/-- Names are lowered with the effect of a walk; if `strict`, those on the paths that it takes. -/
def NamesLower (idx : SchemaTypeIndex) (info : RecursionInfo) (strict : Prop) (roots : List Bytes)
    (fuel : ℕ) : Prop :=
  ∀ n path closed b, Ready idx info fuel path b → closed ⊆ registered idx info b →
    (strict → FirstPath (Opens idx) (Memo idx) roots (n :: path) closed) →
      Sound strict (fun r => After idx info path [n] b r.2) (lowerNameRef idx info fuel n b)

omit hdistinct hinfo in
/-- The names that a name leads to are lowered one after another. -/
theorem NamesLower.threads (ih : NamesLower idx info strict roots fuel) {p : List Bytes}
    (h : Ready idx info fuel p b)
    (hto : strict → ∀ before m after, names = before ++ m :: after → ∃ closed,
      closed ⊆ registered idx info b ∧ FirstPath (Opens idx) (Memo idx) roots (m :: p)
        (closed ∪ behind (Opens idx) (Memo idx) p before)) :
    Threads strict (lowerNameRef idx info fuel) names fun zs => After idx info p zs b := by
  intro before m after hnames b' hb'
  by_cases hs : strict
  · obtain ⟨closed, hclosed, hfirst⟩ := hto hs before m after hnames
    refine (ih m p _ b' (h.after hb') ?_ fun _ => hfirst).mono fun r hr => hb'.append hr
    exact Set.union_subset (hclosed.trans hb'.sweep.grows) hb'.sweep.covers
  · refine (ih m p ∅ b' (h.after hb') (Set.empty_subset _) fun h => absurd h hs).mono fun r hr => ?_
    exact hb'.append hr

/-- Lowering ends, and the paths it takes are those of the walk. -/
theorem lowerNameRef_lowers {ret : TypeExpr} (hcond : strict → ClosesAtClassified idx ret) (fuel : ℕ) :
    NamesLower idx info strict (ret.mentions true) fuel := by
  induction fuel with
  | zero =>
    intro n path closed b h hclosed hto
    have hle := (subperm_of_subset h.onPath.nodup h.onPath.declared).length_le
    have := h.fuel
    omega
  | succ fuel ih =>
    intro n path closed b h hclosed hto
    have hturn := lowerNameRef_turn hdistinct hinfo fuel n h.onPath
    generalize lowerNameRef idx info (fuel + 1) n b = x at hturn ⊢
    cases hturn with
    | declined he => exact fun _ => he
    | clash hn hc => exact fun hs => absurd (hcond hs n path closed (hto hs) hn) hc
    | known hkeeps hreg hn hc => exact ⟨hkeeps, by rw [hreg]; exact .known h.swept hn⟩
    | opened close hn hnew ho hl hpath honly hgrows hclose =>
      have hready := h.push hpath hgrows honly
      refine Sound.bind (hl strict _ _ (ih.threads hready fun hs before m after hnames =>
        ⟨closed, hclosed.trans hgrows, ?_⟩) ⟨Keeps.refl _, .nil hready.swept⟩) fun r hr => ?_
      · exact .step (hto hs) hn (fun h => hnew (hclosed h)) (hnames ▸ ho)
      · obtain ⟨hkeeps, hreg⟩ := hclose r hr.keeps
        exact ⟨hkeeps, .opened hn ho (fun ns hns => opens_unique hdistinct ho hns) honly hgrows
          hr.sweep hreg⟩

/-- A lowering that succeeds takes every path of the walk. -/
theorem lowerNameRef_reached {ret : TypeExpr} {r}
    (hok : lowerType (lowerNameRef idx info (idx.declared.length + 1)) ret .new = .ok r) {p closed}
    (h : FirstPath (Opens idx) (Memo idx) (ret.mentions true) p closed) :
    ∀ n path, p = n :: path → ∃ fuel b r, Ready idx info fuel path b ∧
      (∀ y ∈ registered idx info b, y ∈ closed ∨ y ∈ path) ∧
      lowerNameRef idx info fuel n b = .ok r := by
  have hlowers : ∀ fuel, NamesLower idx info False (ret.mentions true) fuel :=
    lowerNameRef_lowers hdistinct hinfo nofun
  induction h with
  | @start before n after hroots =>
    rintro n path ⟨⟩
    have hready : Ready idx info (idx.declared.length + 1) [] .new := .new
    obtain ⟨b, r, hb, hr⟩ := (lowerType_inOrder ret).reached
      ((hlowers _).threads hready nofun) ⟨Keeps.refl _, .nil hready.swept⟩ hok hroots
    refine ⟨_, b, r, hready.after hb, fun y hy => .inl ?_, hr⟩
    exact (hb.sweep.only hy).resolve_left (by simp [registered_new])
  | @step n path closed before m after h hn hnew ho ih =>
    rintro m path ⟨⟩
    obtain ⟨fuel, b, r, hready, honly, hr⟩ := ih n path rfl
    obtain ⟨fuel, rfl⟩ : ∃ k, fuel = k + 1 := by
      cases fuel with
      | zero => cases hr
      | succ k => exact ⟨k, rfl⟩
    have hturn := lowerNameRef_turn hdistinct hinfo fuel n hready.onPath
    generalize lowerNameRef idx info (fuel + 1) n b = x at hturn hr
    cases hturn with
    | declined | clash => cases hr
    | known _ _ hknown =>
      rcases hknown with hpath | hreg | ⟨-, hnone⟩
      · exact absurd hpath hn
      · exact ((honly n hreg).elim hnew hn).elim
      · exact absurd ho (hnone _)
    | @opened β l names b₀ _ _ _ ho' hl hpath honly' hgrows _ =>
      cases opens_unique hdistinct ho' ho
      have hready' := hready.push hpath hgrows honly'
      cases hrun : l b₀ with
      | out | fail e =>
        rw [hrun] at hr
        cases hr
      | ok r' =>
        obtain ⟨b', r'', hb', hr'⟩ := hl.reached ((hlowers fuel).threads hready' nofun)
          ⟨Keeps.refl _, .nil hready'.swept⟩ hrun rfl
        refine ⟨fuel, b', r'', hready'.after hb', fun y hy => ?_, hr'⟩
        rcases hb'.sweep.only hy with hy | hy
        · rcases honly' y hy with hy | ⟨-, rfl⟩
          · exact (honly y hy).imp .inl (mem_cons_of_mem _)
          · exact .inr mem_cons_self
        · exact .inl (.inr hy)

/-- A lowering that succeeds comes back to classified names only. -/
theorem closes_of_ok {ret : TypeExpr} {r}
    (hok : lowerType (lowerNameRef idx info (idx.declared.length + 1)) ret .new = .ok r) :
    ClosesAtClassified idx ret := by
  intro n path closed h hn
  obtain ⟨fuel, b, r, hready, -, hr⟩ := lowerNameRef_reached hdistinct hinfo hok h n path rfl
  cases fuel with
  | zero => cases hr
  | succ fuel =>
    have hturn := lowerNameRef_turn hdistinct hinfo fuel n hready.onPath
    generalize lowerNameRef idx info (fuel + 1) n b = x at hturn hr
    cases hturn with
    | declined | clash => cases hr
    | known _ _ _ hc => exact hc hn
    | opened _ hn' => exact absurd hn hn'

end

/-! ### The bundle -/

variable {e : DeclineError}

theorem checkDescriptorVariants_error {ts path} {i : ℕ}
    (ih : ∀ t ∈ ts, ∀ path, checkDescriptorType path t = .error e → e.isInconsistency = false)
    (h : checkDescriptorVariants path i ts = .error e) : e.isInconsistency = false := by
  induction ts generalizing i with
  | nil => cases h
  | cons t ts ihs =>
    rw [checkDescriptorVariants] at h
    split_ifs at h
    · cases h
      rfl
    rcases andThen_eq_error h with h | h
    · exact ih t mem_cons_self _ h
    · exact ihs (fun t ht => ih t (mem_cons_of_mem _ ht)) h

theorem checkDescriptorTypes_error {ts path} {step : ℕ → PathStep} {i : ℕ}
    (ih : ∀ t ∈ ts, ∀ path, checkDescriptorType path t = .error e → e.isInconsistency = false)
    (h : checkDescriptorTypes path step i ts = .error e) : e.isInconsistency = false := by
  induction ts generalizing i with
  | nil => cases h
  | cons t ts ihs =>
    rw [checkDescriptorTypes] at h
    rcases andThen_eq_error h with h | h
    · exact ih t mem_cons_self _ h
    · exact ihs (fun t ht => ih t (mem_cons_of_mem _ ht)) h

theorem checkDescriptorType_error {t : Ty} {path}
    (h : checkDescriptorType path t = .error e) : e.isInconsistency = false := by
  have hname : ∀ {name : Bytes} {path : TypePath},
      (if name = [] then Except.error (DeclineError.emptyName path) else .ok ()) = .error e →
        e.isInconsistency = false := by
    intro name path h
    split_ifs at h
    cases h
    rfl
  induction t using Ty.induction generalizing path with
  | top m => cases h
  | primitive m p => cases h
  | literal m l => cases h
  | enum m n d => exact hname h
  | cls m n s d => exact hname h
  | recursiveAlias m n s => exact hname h
  | list m e ih => exact ih h
  | map m k v ihk ihv => exact (andThen_eq_error h).elim ihk ihv
  | union m vs n ih => exact checkDescriptorVariants_error (fun t ht path => ih t ht) h
  | tuple m ts ih => exact checkDescriptorTypes_error (fun t ht path => ih t ht) h
  | arrow m ts r iht ihr =>
    exact (andThen_eq_error h).elim (checkDescriptorTypes_error fun t ht path => iht t ht) ihr

theorem fromStaticDescriptor_error {d}
    (h : fromStaticDescriptor d = .error e) : e.isInconsistency = false := by
  have hall : ∀ l : List (Ty × TypePath),
      checkAll (fun x => checkDescriptorType x.2 x.1) l = .error e → e.isInconsistency = false := by
    intro l
    induction l with
    | nil => exact fun h => nomatch h
    | cons x l ih =>
      intro h
      rw [checkAll] at h
      cases hx : checkDescriptorType x.2 x.1 with
      | error e' =>
        rw [hx] at h
        cases h
        exact checkDescriptorType_error hx
      | ok u =>
        rw [hx] at h
        exact ih h
  unfold fromStaticDescriptor at h
  split at h
  next e' hcheck =>
    cases h
    exact hall _ hcheck
  next =>
    split at h <;> cases h
    rfl

variable {idx : SchemaTypeIndex} {info : RecursionInfo} {fn : FunctionBlock}

/-- The build ends; where the walk closes at classified names only, without an inconsistency. -/
theorem buildWith_sound (hdistinct : idx.Distinct) (hinfo : info.Exact idx) {strict : Prop}
    (hcond : strict → ClosesAtClassified idx fn.ret) :
    Sound strict (fun _ => True) (buildWith idx info (idx.declared.length + 1) fn) := by
  unfold buildWith
  split_ifs with hmissing
  · exact fun _ => rfl
  have hready : Ready idx info (idx.declared.length + 1) [] .new := .new
  refine Sound.bind (lowerType_inOrder fn.ret strict _ _ ((lowerNameRef_lowers hdistinct hinfo hcond
    _).threads hready fun _ before m after hnames => ⟨∅, Set.empty_subset _, ?_⟩)
    ⟨Keeps.refl _, .nil hready.swept⟩) fun r _ => ?_
  · rw [Set.empty_union]
    exact .start hnames
  obtain ⟨target, b⟩ := r
  dsimp only
  cases hfrom : fromStaticDescriptor (b.discovered info target) with
  | error e => exact fun _ => fromStaticDescriptor_error hfrom
  | ok internal =>
    dsimp only
    cases internal.validateOutput with
    | error e => exact fun _ => rfl
    | ok u => exact trivial

/-- A build that succeeds came back to classified names only. -/
theorem closes_of_buildWith (hdistinct : idx.Distinct) (hinfo : info.Exact idx) {d}
    (hok : buildWith idx info (idx.declared.length + 1) fn = .ok d) :
    ClosesAtClassified idx fn.ret := by
  unfold buildWith at hok
  split_ifs at hok
  cases hlower : lowerType (lowerNameRef idx info (idx.declared.length + 1)) fn.ret .new with
  | out | fail e =>
    rw [hlower] at hok
    cases hok
  | ok r => exact closes_of_ok hdistinct hinfo hlower

/-- Lowering ends for every function. It does not contradict the recursion analysis if the walk in
order from the return type comes back to classified names only, and succeeds only then. -/
theorem buildFunctionDescriptor_consistent (files : List SourceFile) (fn : FunctionBlock)
    (hdistinct : (buildSchemaTypeIndex files).Distinct) :
    buildFunctionDescriptor files fn ≠ .out ∧
      (ClosesAtClassified (buildSchemaTypeIndex files) fn.ret →
        ∀ e, buildFunctionDescriptor files fn = .fail e → e.isInconsistency = false) ∧
      ∀ d, buildFunctionDescriptor files fn = .ok d →
        ClosesAtClassified (buildSchemaTypeIndex files) fn.ret := by
  obtain ⟨info, heq, hinfo⟩ := analyzeRecursion_spec hdistinct
  have hbuild : buildFunctionDescriptor files fn = buildWith (buildSchemaTypeIndex files) info
      ((buildSchemaTypeIndex files).declared.length + 1) fn := by
    simp only [buildFunctionDescriptor, heq]
  have hsound : ∀ strict : Prop, (strict → ClosesAtClassified (buildSchemaTypeIndex files) fn.ret) →
      Sound strict (fun _ => True) (buildFunctionDescriptor files fn) :=
    fun strict hcond => hbuild ▸ buildWith_sound hdistinct hinfo hcond
  refine ⟨fun hout => ?_, fun hcond e he => ?_, fun d hok => ?_⟩
  · have h := hsound False nofun
    rw [hout] at h
    exact h
  · have h := hsound True fun _ => hcond
    rw [he] at h
    exact h trivial
  · exact closes_of_buildWith hdistinct hinfo (hbuild ▸ hok)

/-- A function of no parameters that returns a named type. -/
def returning (name : Bytes) : FunctionBlock := ⟨"Parse", .nameRef [] name false false⟩

def named (name : Bytes) : TypeExpr := .nameRef [] name false false

/-- A class with a field of a recursive alias that refers to the class. -/
def jsonFiles : List SourceFile :=
  [some [.cls ⟨"A", false, [⟨"x", named "J", []⟩], [], false⟩,
    .typeAlias ⟨"J", .union [] [.list [] (named "J") 1, named "A"] false, []⟩,
    .cls ⟨"R", false, [⟨"a", named "J", []⟩, ⟨"b", named "A", []⟩], [], false⟩]]

/-- From `R` lowering comes to `A` through the alias first, and comes back to the alias only. -/
theorem buildFunctionDescriptor_consistent_json :
    (buildSchemaTypeIndex jsonFiles).Distinct ∧
      (buildFunctionDescriptor jsonFiles (returning "R")).void = .ok () ∧
      ClosesAtClassified (buildSchemaTypeIndex jsonFiles) (returning "R").ret := by
  have hdistinct : (buildSchemaTypeIndex jsonFiles).Distinct := by
    unfold SchemaTypeIndex.Distinct
    decide +kernel
  have hok : (buildFunctionDescriptor jsonFiles (returning "R")).void = .ok () := by
    decide +kernel
  refine ⟨hdistinct, hok, ?_⟩
  cases hbuild : buildFunctionDescriptor jsonFiles (returning "R") with
  | out | fail e =>
    rw [hbuild] at hok
    cases hok
  | ok d => exact (buildFunctionDescriptor_consistent jsonFiles _ hdistinct).2.2 d hbuild

/-- The alias of a class that refers to it, and a class that is recursive through a recursive alias:
lowering comes back to a name that the analysis did not classify. -/
theorem buildFunctionDescriptor_inconsistent :
    (buildSchemaTypeIndex treeFiles).Distinct ∧
      buildFunctionDescriptor treeFiles (returning "Children") =
        .fail (.inMember "Node" "children" (.aliasRecursed "Children")) ∧
      (buildSchemaTypeIndex jsonFiles).Distinct ∧
      buildFunctionDescriptor jsonFiles (returning "A") =
        .fail (.inMember "A" "x" (.classRecursed "A")) := by
  unfold SchemaTypeIndex.Distinct
  decide +kernel

end BamlRest.NativeSchema
