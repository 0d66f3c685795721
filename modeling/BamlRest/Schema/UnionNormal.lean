import BamlRest.Lib.Dedup
import BamlRest.Schema.Build

/-!
# The normal form of a union

`makeUnion` flattens nested unions, sets null aside and keeps the first of equal variants. A union
that carries constraints is kept as a unit, and a single choice is taken as it is.
-/

namespace BamlRest

open List

namespace Ty

/-- Flattening leaves the type alone: it is no union, or one with constraints. -/
def IsFlat : Ty → Prop
  | union m _ _ => m.constraints ≠ []
  | _ => True

def IsNormal : Ty → Prop
  | union m vs nullable =>
    m.constraints = [] → m = .zero ∧ vs ≠ [] ∧ (nullable = false → vs.length ≠ 1) ∧ vs.Nodup ∧
      ∀ v ∈ vs, v.IsFlat ∧ v.isNull = false
  | primitive m .null => m = .zero
  | _ => True

/-- The types other than null that a type consists of, seen as a union. -/
def members (t : Ty) : List Ty := (flattenForUnion t).filter fun v => !v.isNull

def acceptsNull (t : Ty) : Bool := (flattenForUnion t).any isNull

end Ty

/-! ### Flattening -/

theorem flattenVariants_eq (vs) : flattenVariants vs = vs.flatMap flattenForUnion := by
  induction vs with
  | nil => rfl
  | cons v vs ih => rw [flattenVariants, flatMap_cons, ih]

theorem flattenForUnion_of_isFlat {t : Ty} (h : t.IsFlat) : flattenForUnion t = [t] := by
  cases t with
  | union m vs nullable =>
    rw [flattenForUnion, if_neg]
    simpa [Ty.IsFlat] using h
  | _ => rfl

theorem isFlat_nullType : nullType.IsFlat := trivial

theorem isFlat_of_mem_flattenForUnion {t v : Ty} (h : v ∈ flattenForUnion t) : v.IsFlat := by
  induction t using Ty.induction with
  | union m vs nullable ih =>
    rw [flattenForUnion] at h
    split_ifs at h with hm hnull
    · rw [flattenVariants_eq] at h
      rcases mem_append.mp h with h | h
      · obtain ⟨w, hw, hv⟩ := mem_flatMap.mp h
        exact ih w hw hv
      · cases mem_singleton.mp h
        exact isFlat_nullType
    · rw [append_nil, flattenVariants_eq] at h
      obtain ⟨w, hw, hv⟩ := mem_flatMap.mp h
      exact ih w hw hv
    · cases mem_singleton.mp h
      simpa [Ty.IsFlat] using hm
  | _ =>
    cases mem_singleton.mp h
    trivial

theorem isFlat_of_mem_flattenVariants {vs} {v : Ty} (h : v ∈ flattenVariants vs) : v.IsFlat := by
  rw [flattenVariants_eq] at h
  obtain ⟨w, -, hv⟩ := mem_flatMap.mp h
  exact isFlat_of_mem_flattenForUnion hv

theorem flattenVariants_of_isFlat {vs} (h : ∀ v ∈ vs, v.IsFlat) : flattenVariants vs = vs := by
  induction vs with
  | nil => rfl
  | cons v vs ih =>
    rw [flattenVariants, flattenForUnion_of_isFlat (h v mem_cons_self),
      ih fun w hw => h w (mem_cons_of_mem v hw)]
    rfl

/-! ### Keeping the first of equal variants -/

theorem dedupVariants_eq (variants ts) : dedupVariants variants ts =
      variants ++ (ts.filter fun t => !t.isNull && !variants.contains t).eraseDups := by
  induction ts generalizing variants with
  | nil => simp [dedupVariants]
  | cons t ts ih =>
    rw [dedupVariants]
    cases h : (t.isNull || variants.contains t) with
    | true =>
      have ht : ¬(!t.isNull && !variants.contains t) = true := by
        rw [← Bool.not_or, h]
        decide
      rw [if_pos rfl, ih, filter_cons_of_neg (by exact ht)]
    | false =>
      have ht : (!t.isNull && !variants.contains t) = true := by rw [← Bool.not_or, h]; rfl
      rw [if_neg Bool.false_ne_true, ih, filter_cons_of_pos (by exact ht), eraseDups_cons,
        List.append_assoc, singleton_append, filter_filter]
      congr 3
      refine filter_congr ?_
      intro s _
      rw [contains_append, contains_cons, contains_nil, Bool.or_false, Bool.not_or]
      cases s.isNull <;> cases variants.contains s <;> cases s == t <;> rfl

theorem dedupVariants_nil (ts) :
    dedupVariants [] ts = (ts.filter fun t => !t.isNull).eraseDups := by
  rw [dedupVariants_eq]
  simp

theorem nodup_dedupVariants (ts) : (dedupVariants [] ts).Nodup := by
  rw [dedupVariants_nil]
  exact nodup_eraseDups _

theorem mem_dedupVariants {ts} {t : Ty} : t ∈ dedupVariants [] ts ↔ t ∈ ts ∧ t.isNull = false := by
  rw [dedupVariants_nil, mem_eraseDups, mem_filter]
  simp

theorem dedupVariants_of_nodup {vs rest} (hnodup : vs.Nodup)
    (hnull : ∀ v ∈ vs, v.isNull = false) (hrest : ∀ v ∈ rest, v.isNull) :
    dedupVariants [] (vs ++ rest) = vs := by
  have hvs : vs.filter (fun t => !t.isNull) = vs :=
    filter_eq_self.mpr fun v hv => by simp [hnull v hv]
  have hnil : rest.filter (fun t => !t.isNull) = [] :=
    filter_eq_nil_iff.mpr fun v hv => by simp [hrest v hv]
  rw [dedupVariants_nil, filter_append, hvs, hnil, append_nil]
  exact eraseDups_of_nodup hnodup

/-! ### What simplifying gives -/

theorem simplifyUnion_cases (choices) :
    (dedupVariants [] (flattenVariants choices) = [] ∧ simplifyUnion choices = nullType) ∨
    (∃ v, dedupVariants [] (flattenVariants choices) = [v] ∧
      (flattenVariants choices).any Ty.isNull = false ∧ simplifyUnion choices = v) ∨
    (dedupVariants [] (flattenVariants choices) ≠ [] ∧
      ((flattenVariants choices).any Ty.isNull = false →
        (dedupVariants [] (flattenVariants choices)).length ≠ 1) ∧
      simplifyUnion choices = .union .zero (dedupVariants [] (flattenVariants choices))
        ((flattenVariants choices).any Ty.isNull)) := by
  unfold simplifyUnion
  dsimp only
  rcases hvs : dedupVariants [] (flattenVariants choices) with - | ⟨v, - | ⟨w, vs⟩⟩
  · exact .inl ⟨rfl, rfl⟩
  · cases hnull : (flattenVariants choices).any Ty.isNull with
    | false => exact .inr (.inl ⟨v, rfl, rfl, rfl⟩)
    | true => exact .inr (.inr ⟨by simp, by simp, rfl⟩)
  · exact .inr (.inr ⟨by simp, by simp, rfl⟩)

theorem isNormal_of_isFlat {t : Ty} (hflat : t.IsFlat) (hnull : t.isNull = false) : t.IsNormal := by
  cases t with
  | union m vs nullable => exact fun h => absurd h hflat
  | primitive m p =>
    cases p with
    | null => cases hnull
    | _ => trivial
  | _ => trivial

theorem isFlat_of_mem_dedupVariants (choices) {v : Ty}
    (h : v ∈ dedupVariants [] (flattenVariants choices)) : v.IsFlat ∧ v.isNull = false := by
  obtain ⟨hv, hnull⟩ := mem_dedupVariants.mp h
  exact ⟨isFlat_of_mem_flattenVariants hv, hnull⟩

/-- **What comes out is normal.** -/
theorem simplifyUnion_normal (choices) : (simplifyUnion choices).IsNormal := by
  rcases simplifyUnion_cases choices with ⟨-, h⟩ | ⟨v, hvs, -, h⟩ | ⟨hne, hone, h⟩
  · rw [h]
    exact rfl
  · obtain ⟨hflat, hnull⟩ : v.IsFlat ∧ v.isNull = false :=
      isFlat_of_mem_dedupVariants choices (by simp [hvs])
    exact h ▸ isNormal_of_isFlat hflat hnull
  · rw [h]
    exact fun _ => ⟨rfl, hne, hone, nodup_dedupVariants _, fun v hv => isFlat_of_mem_dedupVariants _ hv⟩

theorem flattenForUnion_of_normal {vs nullable} (h : ∀ v ∈ vs, v.IsFlat) :
    flattenForUnion (.union .zero vs nullable) = vs ++ if nullable then [nullType] else [] := by
  have hzero : TypeMeta.zero.constraints.isEmpty := rfl
  rw [flattenForUnion, if_pos hzero, flattenVariants_of_isFlat h]

/-- **What comes out has the members that went in**, in the order in which they are first seen, and
allows null if one of them did. -/
theorem simplifyUnion_members {choices} (hne : flattenVariants choices ≠ []) :
    (simplifyUnion choices).members =
        ((flattenVariants choices).filter fun v => !v.isNull).eraseDups ∧
      (simplifyUnion choices).acceptsNull = (flattenVariants choices).any Ty.isNull := by
  rw [← dedupVariants_nil]
  rcases simplifyUnion_cases choices with ⟨hvs, h⟩ | ⟨v, hvs, hnull, h⟩ | ⟨-, -, h⟩
  · obtain ⟨v, hv⟩ := exists_mem_of_ne_nil _ hne
    have hnull : v.isNull := by
      by_contra hnot
      have hmem := mem_dedupVariants.mpr ⟨hv, Bool.eq_false_of_not_eq_true hnot⟩
      simp [hvs] at hmem
    rw [h, hvs, show (flattenVariants choices).any Ty.isNull = true from
      any_eq_true.mpr ⟨v, hv, hnull⟩]
    exact ⟨rfl, rfl⟩
  · obtain ⟨hflat, hv⟩ : v.IsFlat ∧ v.isNull = false :=
      isFlat_of_mem_dedupVariants choices (by simp [hvs])
    rw [h, hvs, hnull, Ty.members, Ty.acceptsNull, flattenForUnion_of_isFlat hflat]
    simp [hv]
  have hkept := fun v hv => isFlat_of_mem_dedupVariants choices (v := v) hv
  have hfilter : (dedupVariants [] (flattenVariants choices)).filter (fun v => !v.isNull) =
      dedupVariants [] (flattenVariants choices) :=
    filter_eq_self.mpr fun v hv => by simp [(hkept v hv).2]
  have hany : (dedupVariants [] (flattenVariants choices)).any Ty.isNull = false :=
    any_eq_false.mpr fun v hv => by simp [(hkept v hv).2]
  rw [h, Ty.members, Ty.acceptsNull, flattenForUnion_of_normal fun v hv => (hkept v hv).1,
    filter_append, any_append, hfilter, hany]
  cases (flattenVariants choices).any Ty.isNull with
  | false => exact ⟨append_nil _, rfl⟩
  | true => exact ⟨append_nil _, rfl⟩

theorem simplifyUnion_of_isFlat {t : Ty} (hflat : t.IsFlat) (hnull : t.isNull = false) :
    simplifyUnion [t] = t := by
  have hflatten : flattenVariants [t] = [t] :=
    flattenVariants_of_isFlat fun v hv => mem_singleton.mp hv ▸ hflat
  simp [simplifyUnion, hflatten, dedupVariants, hnull]

/-- **Normal types are left alone.** -/
theorem simplifyUnion_of_normal {t : Ty} (h : t.IsNormal) : simplifyUnion [t] = t := by
  cases t with
  | union m vs nullable =>
    by_cases hm : m.constraints = []
    · obtain ⟨rfl, hne, hone, hnodup, hvs⟩ := h hm
      have hflatten : flattenVariants [.union .zero vs nullable] =
          vs ++ if nullable then [nullType] else [] := by
        rw [flattenVariants, flattenVariants, append_nil]
        exact flattenForUnion_of_normal fun v hv => (hvs v hv).1
      have hdedup : dedupVariants [] (vs ++ if nullable then [nullType] else []) = vs := by
        refine dedupVariants_of_nodup hnodup (fun v hv => (hvs v hv).2) ?_
        cases nullable with
        | false => simp
        | true =>
          intro v hv
          cases mem_singleton.mp hv
          rfl
      have hany : (vs ++ if nullable then [nullType] else []).any Ty.isNull = nullable := by
        rw [any_append, any_eq_false.mpr fun v hv => by simp [(hvs v hv).2]]
        cases nullable <;> rfl
      rcases simplifyUnion_cases [.union .zero vs nullable] with ⟨h, -⟩ | ⟨v, h, hnull, -⟩ |
        ⟨-, -, h⟩
      · rw [hflatten, hdedup] at h
        exact absurd h hne
      · rw [hflatten] at h hnull
        rw [hdedup] at h
        rw [hany] at hnull
        exact absurd (by rw [h]; rfl) (hone hnull)
      · rw [h, hflatten, hdedup, hany]
    · exact simplifyUnion_of_isFlat hm rfl
  | primitive m p =>
    cases p with
    | null =>
      cases (show m = .zero from h)
      rfl
    | _ => exact simplifyUnion_of_isFlat trivial rfl
  | _ => exact simplifyUnion_of_isFlat trivial rfl

/-- **The normal form of `makeUnion`.** When the choices have a member, and are not a single type
that is not normal, what is built is normal, has the members of the choices in the order in which they
are first seen, allows null exactly when one of them does, and is left alone the next time. -/
theorem makeUnion_normal (choices : List Ty) (hne : flattenVariants choices ≠ [])
    (hsingle : ∀ t, choices = [t] → t.IsNormal) :
    (makeUnion choices).IsNormal ∧
      (makeUnion choices).members =
        ((flattenVariants choices).filter fun v => !v.isNull).eraseDups ∧
      (∀ v, v ∈ (makeUnion choices).members ↔ v ∈ flattenVariants choices ∧ v.isNull = false) ∧
      (makeUnion choices).acceptsNull = (flattenVariants choices).any Ty.isNull ∧
      simplifyUnion [makeUnion choices] = makeUnion choices := by
  have heq : makeUnion choices = simplifyUnion choices := by
    rcases choices with - | ⟨t, - | ⟨u, rest⟩⟩
    · rfl
    · exact (simplifyUnion_of_normal (hsingle t rfl)).symm
    · rfl
  obtain ⟨hmembers, hnull⟩ := simplifyUnion_members hne
  have hnormal := simplifyUnion_normal choices
  rw [heq]
  refine ⟨hnormal, hmembers, ?_, hnull, simplifyUnion_of_normal hnormal⟩
  intro v
  rw [hmembers, ← dedupVariants_nil]
  exact mem_dedupVariants

/-- A nested optional beside a variant that it repeats. -/
theorem makeUnion_normal_nested :
    makeUnion [.union .zero [.prim .string] true, .prim .int, .prim .string] =
        .union .zero [.prim .string, .prim .int] true ∧
      (makeUnion [.union .zero [.prim .string] true, .prim .int, .prim .string]).IsNormal := by
  refine ⟨by decide +kernel, (makeUnion_normal _ (by decide +kernel) ?_).1⟩
  intro t ht
  cases ht

/-- A single choice is taken as it is, with a union nested in it, and no choice at all gives null. -/
theorem makeUnion_single :
    makeUnion [.union .zero [.union .zero [.prim .string, .prim .int] false, .prim .null] false] =
        .union .zero [.union .zero [.prim .string, .prim .int] false, .prim .null] false ∧
      simplifyUnion
          [.union .zero [.union .zero [.prim .string, .prim .int] false, .prim .null] false] =
        .union .zero [.prim .string, .prim .int] true ∧
      makeUnion [] = nullType := by
  decide +kernel

end BamlRest
