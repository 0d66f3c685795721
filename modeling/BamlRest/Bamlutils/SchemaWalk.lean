import BamlRest.Bamlutils.SchemaMatch

/-!
# Walking a payload along its schema

`bamlutils/dynamic_order.go` and `bamlutils/dynamic_absent.go` go down a payload and its schema in
the same way: through optional types, lists and maps, into the first variant of a union that
matches, and into the declared properties of a class, whose undeclared members come last.
-/

namespace BamlRest

open List OTree Except

/-! ### The walk -/

structure Walk where
  matchType : DynamicTypeSpec → Node → Except OrderError Bool
  /-- A specification with this type and this reference is taken for a reference. -/
  byRef : Bytes → Bytes → Bool
  isClassRef : Bytes → Bool
  /-- Whether a reference may be to something that is no class. -/
  otherRef : Bytes → Except OrderError Unit
  resolveClass : Bytes → Except OrderError (Option DynamicClass)
  /-- What stands for a property that is missing. -/
  missing : Option DynamicProperty → Option Node

def undeclared (props : OrderedMap (Option DynamicProperty)) (ms : List (Bytes × Node)) :
    List (Bytes × Node) := ms.filter fun m => !props.keys.contains m.1

namespace Walk

def onEach {α β : Type} (f : α → Except OrderError β) : List α → Except OrderError (List β)
  | [] => .ok []
  | a :: as =>
    match f a with
    | .error e => .error e
    | .ok b => (onEach f as).map (b :: ·)

def onElements (f : Node → Except OrderError Node) : Node → Except OrderError Node
  | .arr ts => (onEach f ts).map .arr
  | node => .ok node

def onValues (f : Node → Except OrderError Node) : Node → Except OrderError Node
  | .obj ms => (onEach (fun m => (f m.2).map (m.1, ·)) ms).map .obj
  | node => .ok node

mutual

/-- Walk down a type; `cls` stands for the walk down a class. -/
def onType (k : Walk) (cls : Bytes → Node → Except OrderError Node) :
    DynamicTypeSpec → Node → Except OrderError Node
  | ⟨type, ref, items, inner, oneOf, _, values, _⟩, node =>
    if k.byRef type ref then
      if k.isClassRef ref then cls ref node else (k.otherRef ref).map fun _ => node
    else
      match typeWord type with
      | .optional => if isKind .null node then .ok node else onOption k cls inner node
      | .list => onElements (fun t => onOption k cls items t) node
      | .map => onValues (fun t => onOption k cls values t) node
      | .union => onOneOf k cls oneOf node
      | _ => .ok node

def onOption (k : Walk) (cls : Bytes → Node → Except OrderError Node) :
    Option DynamicTypeSpec → Node → Except OrderError Node
  | none, node => .ok node
  | some s, node => onType k cls s node

def onOneOf (k : Walk) (cls : Bytes → Node → Except OrderError Node) :
    List (Option DynamicTypeSpec) → Node → Except OrderError Node
  | [], node => .ok node
  | none :: vs, node => onOneOf k cls vs node
  | some v :: vs, node =>
    match k.matchType v node with
    | .error e => .error e
    | .ok true => onType k cls v node
    | .ok false => onOneOf k cls vs node

end

variable (k : Walk)

def onProperty (cls : Bytes → Node → Except OrderError Node) :
    Option DynamicProperty → Node → Except OrderError Node
  | none, child => .ok child
  | some p, child => k.onType cls p.spec child

/-- What an instance with members `ms` gets for a declared property. -/
def onSlot (cls : Bytes → Node → Except OrderError Node) (ms : List (Bytes × Node))
    (p : Bytes × Option DynamicProperty) : Except OrderError (Option Node) :=
  match member ms p.1 with
  | none => .ok (k.missing p.2)
  | some child => (k.onProperty cls p.2 child).map some

def onDeclared (cls : Bytes → Node → Except OrderError Node) (ms : List (Bytes × Node)) :
    List (Bytes × Option DynamicProperty) → Except OrderError (List (Bytes × Node))
  | [] => .ok []
  | p :: ps =>
    match k.onSlot cls ms p with
    | .error e => .error e
    | .ok none => onDeclared cls ms ps
    | .ok (some t) => (onDeclared cls ms ps).map ((p.1, t) :: ·)

/-- Walk down a node by the definition of its class, which may be missing. -/
def onInstance (rec : Bytes → Node → Except OrderError Node) (className : Bytes)
    (cls : Option DynamicClass) : Node → Except OrderError Node
  | .obj ms =>
    match cls with
    | none => .error (.nilClass className)
    | some c => (k.onDeclared rec ms c.properties.entries).map fun ds =>
        .obj (ds ++ undeclared c.properties ms)
  | node => .ok node

def onClassF (rec : Bytes × Node → Except OrderError Node) (p : Bytes × Node) :
    Except OrderError Node :=
  match k.resolveClass p.1 with
  | .error e => .error e
  | .ok cls => k.onInstance (fun name t => rec (name, t)) p.1 cls p.2

def onClass (name : Bytes) (node : Node) : Except OrderError Node :=
  fixBy (fun p => p.2.depth) k.onClassF (fun p => .error (.unknownClass p.1)) (name, node)

end Walk

theorem member_undeclared (props ms key) : member (undeclared props ms) key =
      if key ∈ props.keys then none else member ms key := by
  by_cases hkey : key ∈ props.keys
  · rw [if_pos hkey, member_eq_none_iff]
    intro hmem
    obtain ⟨m, hm, rfl⟩ := mem_map.mp hmem
    simpa [hkey] using (mem_filter.mp hm).2
  rw [if_neg hkey]
  unfold member undeclared
  rw [find?_filter]
  have heq : (fun m : Bytes × Node => decide (m.1 = key)) =
      fun m => decide (¬ m.1 ∈ props.keys ∧ m.1 = key) := by
    funext m
    by_cases hm : m.1 = key
    · simp [hm, hkey]
    · simp [hm]
  simp [heq]

/-! ### The recursion equation -/

namespace Walk

section

variable {k : Walk} {f g : Bytes → Node → Except OrderError Node} {d : ℕ}

theorem onEach_congr {α β : Type} {f g : α → Except OrderError β} {as}
    (h : ∀ a ∈ as, f a = g a) : onEach f as = onEach g as := by
  induction as with
  | nil => rfl
  | cons a as ih =>
    simp only [mem_cons, forall_eq_or_imp] at h
    rw [onEach, onEach, h.1, ih h.2]

theorem onType_congr (h : ∀ name t, t.depth ≤ d → f name t = g name t) (spec)
    {t} (ht : t.depth ≤ d) : k.onType f spec t = k.onType g spec t := by
  induction spec using DynamicTypeSpec.induction generalizing t with
  | mk type ref items inner oneOf keys values value ihitems ihinner ihoneOf _ ihvalues =>
    have hoption : ∀ (o : Option DynamicTypeSpec), (∀ s, o = some s → ∀ {t : Node}, t.depth ≤ d →
        k.onType f s t = k.onType g s t) → ∀ t : Node, t.depth ≤ d →
        k.onOption f o t = k.onOption g o t := by
      intro o ho t ht
      cases o with
      | none => rfl
      | some s => exact ho s rfl ht
    have honeOf : ∀ vs : List (Option DynamicTypeSpec), (∀ v, some v ∈ vs → some v ∈ oneOf) →
        k.onOneOf f vs t = k.onOneOf g vs t := by
      intro vs hvs
      induction vs with
      | nil => rfl
      | cons v vs ihvs =>
        have hrest := ihvs fun v hv => hvs v (mem_cons_of_mem _ hv)
        cases v with
        | none => exact hrest
        | some v =>
          rw [onOneOf, onOneOf, ihoneOf v (hvs v mem_cons_self) ht, hrest]
    rw [onType, onType]
    refine ite_congr rfl (fun _ => ?_) fun _ => ?_
    · exact ite_congr rfl (fun _ => h ref t ht) fun _ => rfl
    cases typeWord type with
    | optional =>
      dsimp only
      rw [hoption inner ihinner t ht]
    | list =>
      cases t with
      | arr ts =>
        refine congrArg (Except.map _) (onEach_congr fun t' ht' => hoption items ihitems t' ?_)
        exact (depth_lt_of_mem_arr ht').le.trans ht
      | _ => rfl
    | map =>
      cases t with
      | obj ms =>
        refine congrArg (Except.map _) (onEach_congr fun m hm => ?_)
        dsimp only
        rw [hoption values ihvalues m.2 ((depth_lt_of_mem_obj hm).le.trans ht)]
      | _ => rfl
    | union => exact honeOf oneOf fun _ h => h
    | _ => rfl

theorem onDeclared_congr (h : ∀ name t, t.depth ≤ d → f name t = g name t)
    {ms} (hms : ∀ m ∈ ms, m.2.depth ≤ d) (ps) : k.onDeclared f ms ps = k.onDeclared g ms ps := by
  induction ps with
  | nil => rfl
  | cons p ps ih =>
    have hslot : k.onSlot f ms p = k.onSlot g ms p := by
      unfold onSlot
      cases hm : member ms p.1 with
      | none => rfl
      | some child =>
        have hchild := hms _ (mem_of_member hm)
        cases p.2 with
        | none => rfl
        | some prop => exact congrArg (Except.map some) (onType_congr h prop.spec hchild)
    rw [onDeclared, onDeclared, hslot, ih]

end

variable {k : Walk}

theorem onClass_eq (name node) : k.onClass name node = match k.resolveClass name with
    | .error e => .error e
    | .ok cls => k.onInstance k.onClass name cls node := by
  refine fixBy_eq_of_shrinking (fun f g p h => ?_) (name, node)
  unfold onClassF
  cases k.resolveClass p.1 with
  | error e => rfl
  | ok cls =>
    dsimp only
    generalize p.2 = node at h ⊢
    cases node with
    | obj ms =>
      cases cls with
      | none => rfl
      | some c =>
        refine congrArg (Except.map _) (onDeclared_congr (d := depthMembers ms)
          (fun name t ht => h (name, t) ?_) (depthMembers_le_iff.mp le_rfl) _)
        rw [depth]
        exact Nat.lt_succ_of_le ht
    | _ => rfl

/-! ### What the walk does -/

inductive Chooses (k : Walk) (t : Node) : List (Option DynamicTypeSpec) → DynamicTypeSpec → Prop where
  | here {v vs} (h : k.matchType v t = .ok true) : Chooses k t (some v :: vs) v
  | later {v o vs} (ho : ∀ u, o = some u → k.matchType u t = .ok false) (h : Chooses k t vs v) :
      Chooses k t (o :: vs) v

variable {t : Node} {vs : List (Option DynamicTypeSpec)}

variable {v : DynamicTypeSpec}

theorem Chooses.mem {k : Walk} (h : k.Chooses t vs v) : some v ∈ vs := by
  induction h with
  | here => exact mem_cons_self
  | later _ _ ih => exact mem_cons_of_mem _ ih

def Rests (k : Walk) (spec : DynamicTypeSpec) (t : Node) : Prop :=
  match typeWord spec.type with
  | .optional => isKind .null t = true ∨ spec.inner = none
  | .list => spec.items = none ∨ ∀ ts, t ≠ .arr ts
  | .map => spec.values = none ∨ ∀ ms, t ≠ .obj ms
  | .union => ∀ u, some u ∈ spec.oneOf → k.matchType u t = .ok false
  | _ => True

def slots (out : Bytes → Option Node) (ps : List (Bytes × Option DynamicProperty)) :
    List (Bytes × Node) := ps.filterMap fun p => (out p.1).map (p.1, ·)

inductive Walks (k : Walk) : DynamicTypeSpec → Node → Node → Prop where
  /-- An instance of a class; `out` has the values of the properties. -/
  | object {spec : DynamicTypeSpec} {c : DynamicClass} {ms : List (Bytes × Node)}
      {out : Bytes → Option Node} (href : k.byRef spec.type spec.ref)
      (hcls : k.isClassRef spec.ref) (hres : k.resolveClass spec.ref = .ok (some c))
      (hmissing : ∀ p ∈ c.properties.entries, member ms p.1 = none → out p.1 = k.missing p.2)
      (hsome : ∀ p ∈ c.properties.entries, ∀ t, member ms p.1 = some t → (out p.1).isSome = true)
      (hkeep : ∀ p ∈ c.properties.entries, ∀ t, member ms p.1 = some t → p.2 = none →
        out p.1 = some t) (hwalk : ∀ p ∈ c.properties.entries, ∀ t t' prop, member ms p.1 = some t →
        out p.1 = some t' → p.2 = some prop → Walks k prop.spec t t') :
      Walks k spec (.obj ms) (.obj (slots out c.properties.entries ++ undeclared c.properties ms))
  /-- Something else where an instance is expected. -/
  | noObject {spec r t} (href : k.byRef spec.type spec.ref) (hcls : k.isClassRef spec.ref)
      (hres : k.resolveClass spec.ref = .ok r) (ht : ∀ ms, t ≠ .obj ms) : Walks k spec t t
  | otherRef {spec t} (href : k.byRef spec.type spec.ref)
      (hcls : k.isClassRef spec.ref = false) (h : k.otherRef spec.ref = .ok ()) : Walks k spec t t
  | optional {spec s t t'} (href : k.byRef spec.type spec.ref = false)
      (htype : typeWord spec.type = .optional) (hnull : isKind .null t = false)
      (hpart : spec.inner = some s) (h : Walks k s t t') : Walks k spec t t'
  | list {spec s ts ts'} (href : k.byRef spec.type spec.ref = false)
      (htype : typeWord spec.type = .list) (hpart : spec.items = some s)
      (hlen : ts.length = ts'.length) (h : ∀ p ∈ ts.zip ts', Walks k s p.1 p.2) :
      Walks k spec (.arr ts) (.arr ts')
  | map {spec s ms ms'}
      (href : k.byRef spec.type spec.ref = false) (htype : typeWord spec.type = .map)
      (hpart : spec.values = some s) (hlen : ms.length = ms'.length)
      (hkeys : ∀ p ∈ ms.zip ms', p.2.1 = p.1.1) (h : ∀ p ∈ ms.zip ms', Walks k s p.1.2 p.2.2) :
      Walks k spec (.obj ms) (.obj ms')
  | union {spec v t t'} (href : k.byRef spec.type spec.ref = false)
      (htype : typeWord spec.type = .union) (hpart : k.Chooses t spec.oneOf v)
      (h : Walks k v t t') : Walks k spec t t'
  | rest {spec t} (href : k.byRef spec.type spec.ref = false)
      (h : k.Rests spec t) : Walks k spec t t

/-! ### The walk does it -/

theorem onEach_eq_ok_iff {α β : Type} {f : α → Except OrderError β} {as bs} :
    onEach f as = .ok bs ↔ List.Forall₂ (fun a b => f a = .ok b) as bs := by
  induction as generalizing bs with
  | nil => simp only [onEach, Except.ok.injEq, forall₂_nil_left_iff, eq_comm]
  | cons a as ih =>
    rw [onEach, forall₂_cons_left_iff]
    cases hf : f a with
    | error e => simp
    | ok b =>
      cases hrest : onEach f as with
      | error e =>
        rw [hrest] at ih
        simp only [reduceCtorEq, false_iff] at ih
        simp [Except.map, ih]
      | ok rest =>
        rw [hrest] at ih
        simp only [Except.map, Except.ok.injEq] at ih ⊢
        constructor
        · rintro rfl
          exact ⟨b, rest, rfl, ih.mp rfl, rfl⟩
        · rintro ⟨_, _, rfl, h, rfl⟩
          rw [ih.mpr h]

theorem onEach_self {α : Type} {f : α → Except OrderError α} {as}
    (h : ∀ a ∈ as, f a = .ok a) : onEach f as = .ok as := by
  rw [onEach_eq_ok_iff, forall₂_same]
  exact h

variable {cls : Bytes → Node → Except OrderError Node}

theorem onElements_none (t) : onElements (fun t => k.onOption cls none t) t = .ok t := by
  cases t with
  | arr ts => exact congrArg (Except.map _) (onEach_self fun _ _ => rfl)
  | _ => rfl

theorem onValues_none (t) : onValues (fun t => k.onOption cls none t) t = .ok t := by
  cases t with
  | obj ms => exact congrArg (Except.map _) (onEach_self fun _ _ => rfl)
  | _ => rfl

theorem map_eq_ok_iff {α β : Type} {f : α → β} {x : Except OrderError α} {b : β} :
    x.map f = .ok b ↔ ∃ a, x = .ok a ∧ f a = b := by
  cases x with
  | error e => simp [Except.map]
  | ok a => simp [Except.map]

variable {t' : Node}

theorem onOneOf_eq_ok_iff : k.onOneOf cls vs t = .ok t' ↔
      (∃ v, k.Chooses t vs v ∧ k.onType cls v t = .ok t') ∨
        ((∀ u, some u ∈ vs → k.matchType u t = .ok false) ∧ t' = t) := by
  induction vs with
  | nil =>
    constructor
    · intro h
      exact .inr ⟨fun _ h => absurd h not_mem_nil, (ok.inj h).symm⟩
    · rintro (⟨v, ⟨⟩, -⟩ | ⟨-, rfl⟩)
      rfl
  | cons o vs ih =>
    have hlater : (∀ u, o = some u → k.matchType u t = .ok false) → k.onOneOf cls vs t = .ok t' →
        (∃ v, k.Chooses t (o :: vs) v ∧ k.onType cls v t = .ok t') ∨
          ((∀ u, some u ∈ o :: vs → k.matchType u t = .ok false) ∧ t' = t) := by
      intro ho h
      refine (ih.mp h).imp (fun ⟨v, hv, hwalk⟩ => ⟨v, .later ho hv, hwalk⟩) fun ⟨hall, heq⟩ => ?_
      exact ⟨fun u hu => (mem_cons.mp hu).elim (fun h => ho u h.symm) (hall u), heq⟩
    constructor
    · intro h
      cases o with
      | none => exact hlater (fun _ h => nomatch h) h
      | some v =>
        rw [onOneOf] at h
        cases hv : k.matchType v t with
        | error e => rw [hv] at h; cases h
        | ok b =>
          rw [hv] at h
          cases b with
          | true => exact .inl ⟨v, .here hv, h⟩
          | false => exact hlater (fun u hu => Option.some.inj hu ▸ hv) h
    rintro (⟨v, hv | ⟨ho, hv⟩, hwalk⟩ | ⟨hall, rfl⟩)
    · rw [onOneOf, hv]
      exact hwalk
    · have hrest := ih.mpr (.inl ⟨v, hv, hwalk⟩)
      cases o with
      | none => exact hrest
      | some u => rw [onOneOf, ho u rfl]; exact hrest
    have hrest := ih.mpr (.inr ⟨fun u hu => hall u (mem_cons_of_mem _ hu), rfl⟩)
    cases o with
    | none => exact hrest
    | some u => rw [onOneOf, hall u mem_cons_self]; exact hrest

theorem slots_cons (out : Bytes → Option Node) (p ps) :
    slots out (p :: ps) = ((out p.1).map (p.1, ·)).toList ++ slots out ps := by
  rw [slots, filterMap_cons]
  cases out p.1 <;> rfl

variable {ms : List (Bytes × Node)}

variable {ps : List (Bytes × Option DynamicProperty)}

theorem onDeclared_eq_ok_iff {ds : List (Bytes × Node)}
    (hnodup : (ps.map Prod.fst).Nodup) : k.onDeclared cls ms ps = .ok ds ↔
      ∃ out, ds = slots out ps ∧ ∀ p ∈ ps, k.onSlot cls ms p = .ok (out p.1) := by
  constructor
  · intro h
    induction ps generalizing ds with
    | nil => exact ⟨fun _ => none, (ok.inj h).symm, by simp⟩
    | cons p ps ih =>
      obtain ⟨hp, hnodup⟩ := nodup_cons.mp hnodup
      rw [onDeclared] at h
      cases hslot : k.onSlot cls ms p with
      | error e => rw [hslot] at h; cases h
      | ok o =>
        rw [hslot] at h
        have hrest : ∃ rest, k.onDeclared cls ms ps = .ok rest ∧
            ds = (o.map (p.1, ·)).toList ++ rest := by
          cases o with
          | none => exact ⟨ds, h, rfl⟩
          | some t =>
            obtain ⟨rest, hrest, rfl⟩ := map_eq_ok_iff.mp h
            exact ⟨rest, hrest, rfl⟩
        obtain ⟨rest, hrest, rfl⟩ := hrest
        obtain ⟨out, rfl, hout⟩ := ih hnodup hrest
        -- the value of this property does not touch the others
        have hother : ∀ q ∈ ps, q.1 ≠ p.1 := by
          intro q hq heq
          exact hp (mem_map.mpr ⟨q, hq, heq⟩)
        refine ⟨fun key => if key = p.1 then o else out key, ?_, ?_⟩
        · have htail : slots (fun key => if key = p.1 then o else out key) ps = slots out ps := by
            refine filterMap_congr fun q hq => ?_
            dsimp only
            rw [if_neg (hother q hq)]
          rw [slots_cons, htail, if_pos rfl]
        simp only [mem_cons, forall_eq_or_imp, if_true]
        refine ⟨hslot, fun q hq => ?_⟩
        rw [if_neg (hother q hq)]
        exact hout q hq
  · rintro ⟨out, rfl, hout⟩
    clear hnodup
    induction ps with
    | nil => rfl
    | cons p ps ih =>
      simp only [mem_cons, forall_eq_or_imp] at hout
      rw [onDeclared, hout.1, ih hout.2, slots_cons]
      cases out p.1 <;> rfl

theorem onInstance_eq_ok_iff {name : Bytes} {cls : Option DynamicClass} : k.onInstance k.onClass name cls (.obj ms) = .ok t' ↔ ∃ c out, cls = some c ∧
      (∀ p ∈ c.properties.entries, k.onSlot k.onClass ms p = .ok (out p.1)) ∧
      t' = .obj (slots out c.properties.entries ++ undeclared c.properties ms) := by
  cases cls with
  | none => simp [onInstance]
  | some c =>
    rw [onInstance, map_eq_ok_iff]
    simp only [onDeclared_eq_ok_iff c.properties.nodup]
    constructor
    · rintro ⟨_, ⟨out, rfl, hout⟩, rfl⟩
      exact ⟨c, out, rfl, hout, rfl⟩
    · rintro ⟨_, out, ⟨⟩, hout, rfl⟩
      exact ⟨_, ⟨out, rfl, hout⟩, rfl⟩

variable {spec : DynamicTypeSpec}

theorem walks_of_onType {d : ℕ} (hcls : ∀ spec t t', t.depth ≤ d → k.byRef spec.type spec.ref →
      k.isClassRef spec.ref → k.onClass spec.ref t = .ok t' → k.Walks spec t t') (ht : t.depth ≤ d)
    (h : k.onType k.onClass spec t = .ok t') : k.Walks spec t t' := by
  induction spec using DynamicTypeSpec.induction generalizing t t' with
  | mk type ref items inner oneOf keys values value ihitems ihinner ihoneOf _ ihvalues =>
    rw [onType] at h
    cases href : k.byRef type ref with
    | true =>
      rw [if_pos href] at h
      cases hclass : k.isClassRef ref with
      | true => exact hcls _ t t' ht href hclass (by rwa [if_pos hclass] at h)
      | false =>
        rw [if_neg (by simp [hclass])] at h
        obtain ⟨_, hother, rfl⟩ := map_eq_ok_iff.mp h
        exact .otherRef href hclass hother
    | false =>
      rw [if_neg (by simp [href])] at h
      cases hword : typeWord type with
      | optional =>
        rw [hword] at h
        dsimp only at h
        cases hnull : isKind .null t with
        | true =>
          rw [if_pos hnull] at h
          cases h
          exact .rest href (by simp only [Rests, hword, hnull, true_or])
        | false =>
          rw [if_neg (by simp [hnull])] at h
          cases inner with
          | none =>
            cases h
            exact .rest href (by simp only [Rests, hword, or_true])
          | some s => exact .optional href hword hnull rfl (ihinner s rfl ht h)
      | list =>
        rw [hword] at h
        cases t with
        | arr ts =>
          cases items with
          | none =>
            cases (onElements_none _).symm.trans h
            exact .rest href (by simp only [Rests, hword, true_or])
          | some s =>
            obtain ⟨ts', hts, rfl⟩ := map_eq_ok_iff.mp h
            rw [onEach_eq_ok_iff, forall₂_iff_zip] at hts
            refine .list href hword rfl hts.1 fun p hp => ihitems s rfl ?_ (hts.2 hp)
            exact (depth_lt_of_mem_arr (of_mem_zip hp).1).le.trans ht
        | _ =>
          cases h
          exact .rest href (by simp [Rests, hword])
      | map =>
        rw [hword] at h
        cases t with
        | obj ms =>
          cases values with
          | none =>
            cases (onValues_none _).symm.trans h
            exact .rest href (by simp only [Rests, hword, true_or])
          | some s =>
            obtain ⟨ms', hms, rfl⟩ := map_eq_ok_iff.mp h
            rw [onEach_eq_ok_iff, forall₂_iff_zip] at hms
            refine .map href hword rfl hms.1 (fun p hp => ?_) fun p hp => ?_
            · obtain ⟨t, -, heq⟩ := map_eq_ok_iff.mp (hms.2 hp)
              rw [← heq]
            obtain ⟨t, hwalk, heq⟩ := map_eq_ok_iff.mp (hms.2 hp)
            rw [← heq]
            refine ihvalues s rfl ?_ hwalk
            exact (depth_lt_of_mem_obj (of_mem_zip hp).1).le.trans ht
        | _ =>
          cases h
          exact .rest href (by simp [Rests, hword])
      | union =>
        rw [hword] at h
        rcases onOneOf_eq_ok_iff.mp h with ⟨v, hv, hwalk⟩ | ⟨hall, rfl⟩
        · exact .union href hword hv (ihoneOf v hv.mem ht hwalk)
        · exact .rest href (by simpa only [Rests, hword] using hall)
      | _ =>
        rw [hword] at h
        cases h
        exact .rest href (by simp only [Rests, hword])

theorem walks_of_onClass (href : k.byRef spec.type spec.ref) (hcls : k.isClassRef spec.ref)
    (h : k.onClass spec.ref t = .ok t') : k.Walks spec t t' := by
  induction hd : t.depth using Nat.strong_induction_on generalizing spec t t' with
  | _ d ih =>
    rw [onClass_eq] at h
    cases hres : k.resolveClass spec.ref with
    | error e => rw [hres] at h; cases h
    | ok cls =>
      rw [hres] at h
      cases t with
      | obj ms =>
        obtain ⟨c, out, rfl, hout, rfl⟩ := onInstance_eq_ok_iff.mp h
        refine .object href hcls hres (fun p hp hm => ?_) (fun p hp t hm => ?_)
          (fun p hp t hm hnone => ?_) fun p hp t t' prop hm ht' hprop => ?_
        · have hslot := hout p hp
          rw [onSlot, hm] at hslot
          exact (ok.inj hslot).symm
        · have hslot := hout p hp
          rw [onSlot, hm] at hslot
          obtain ⟨t', -, heq⟩ := map_eq_ok_iff.mp hslot
          rw [← heq, Option.isSome_some]
        · have hslot := hout p hp
          rw [onSlot, hm, hnone] at hslot
          exact (ok.inj hslot).symm
        have hslot := hout p hp
        rw [onSlot, hm, ht', hprop] at hslot
        obtain ⟨_, hwalk, heq⟩ := map_eq_ok_iff.mp hslot
        cases heq
        have hdepth : t.depth < d := hd ▸ depth_lt_of_mem_obj (mem_of_member hm)
        refine walks_of_onType (d := t.depth) (fun spec s s' hs href hcls h => ?_) le_rfl hwalk
        exact ih s.depth (hs.trans_lt hdepth) href hcls h rfl
      | _ =>
        cases h
        exact .noObject href hcls hres (by simp)

theorem onType_eq (cls : Bytes → Node → Except OrderError Node) (spec t) :
    k.onType cls spec t = if k.byRef spec.type spec.ref then
        if k.isClassRef spec.ref then cls spec.ref t else (k.otherRef spec.ref).map fun _ => t else
        match typeWord spec.type with
        | .optional => if isKind .null t then .ok t else k.onOption cls spec.inner t
        | .list => onElements (fun t => k.onOption cls spec.items t) t
        | .map => onValues (fun t => k.onOption cls spec.values t) t
        | .union => k.onOneOf cls spec.oneOf t
        | _ => .ok t := by
  obtain ⟨type, ref, items, inner, oneOf, keys, values, value⟩ := spec
  rw [onType]

theorem onType_of_rests (href : k.byRef spec.type spec.ref = false) (h : k.Rests spec t) :
    k.onType cls spec t = .ok t := by
  rw [onType_eq, if_neg (by simp [href])]
  unfold Rests at h
  cases hword : typeWord spec.type with
  | optional =>
    rw [hword] at h
    dsimp only at h ⊢
    rcases h with hnull | hnone
    · rw [if_pos hnull]
    · rw [hnone]
      exact ite_self _
  | list =>
    rw [hword] at h
    dsimp only at h ⊢
    cases t with
    | arr ts =>
      rw [h.resolve_right fun hts => hts ts rfl]
      exact onElements_none _
    | _ => rfl
  | map =>
    rw [hword] at h
    dsimp only at h ⊢
    cases t with
    | obj ms =>
      rw [h.resolve_right fun hms => hms ms rfl]
      exact onValues_none _
    | _ => rfl
  | union =>
    rw [hword] at h
    exact onOneOf_eq_ok_iff.mpr (.inr ⟨h, rfl⟩)
  | _ => rfl

/-- **The walk does what the relation says.** -/
theorem onType_eq_ok_iff : k.onType k.onClass spec t = .ok t' ↔ k.Walks spec t t' := by
  refine ⟨walks_of_onType (fun _ _ _ _ => walks_of_onClass) le_rfl, fun h => ?_⟩
  induction h with
  | @object spec c ms out href hcls hres hmissing hsome hkeep _ ih =>
    rw [onType_eq, if_pos href, if_pos hcls, onClass_eq, hres]
    refine onInstance_eq_ok_iff.mpr ⟨c, out, rfl, fun p hp => ?_, rfl⟩
    unfold onSlot
    cases hm : member ms p.1 with
    | none => rw [hmissing p hp hm]
    | some t =>
      obtain ⟨t', ht'⟩ := Option.isSome_iff_exists.mp (hsome p hp t hm)
      cases hprop : p.2 with
      | none => rw [hkeep p hp t hm hprop]; rfl
      | some prop =>
        refine map_eq_ok_iff.mpr ⟨t', ih p hp t t' prop hm ht' hprop, ?_⟩
        rw [ht']
  | @noObject spec r t href hcls hres ht =>
    rw [onType_eq, if_pos href, if_pos hcls, onClass_eq, hres]
    cases t with
    | obj ms => exact absurd rfl (ht ms)
    | _ => rfl
  | otherRef href hcls h =>
    rw [onType_eq, if_pos href, if_neg (by simp [hcls]), h]
    rfl
  | optional href htype hnull hpart _ ih =>
    rw [onType_eq, if_neg (by simp [href]), htype, hpart]
    dsimp only
    rw [if_neg (by simp [hnull])]
    exact ih
  | list href htype hpart hlen _ ih =>
    rw [onType_eq, if_neg (by simp [href]), htype, hpart]
    refine map_eq_ok_iff.mpr ⟨_, onEach_eq_ok_iff.mpr ?_, rfl⟩
    exact forall₂_iff_zip.mpr ⟨hlen, fun hp => ih _ hp⟩
  | map href htype hpart hlen hkeys _ ih =>
    rw [onType_eq, if_neg (by simp [href]), htype, hpart]
    refine map_eq_ok_iff.mpr ⟨_, onEach_eq_ok_iff.mpr ?_, rfl⟩
    refine forall₂_iff_zip.mpr ⟨hlen, fun hp => ?_⟩
    exact map_eq_ok_iff.mpr ⟨_, ih _ hp, by rw [← hkeys _ hp]⟩
  | union href htype hpart _ ih =>
    rw [onType_eq, if_neg (by simp [href]), htype]
    exact onOneOf_eq_ok_iff.mpr (.inl ⟨_, hpart, ih⟩)
  | rest href h => exact onType_of_rests href h

/-- The specification that stands for the root class. -/
def rootSpec : DynamicTypeSpec := refSpec dynamicOutputClassName

theorem onClass_root_eq_ok_iff (href : k.byRef [] dynamicOutputClassName)
    (hcls : k.isClassRef dynamicOutputClassName) :
    k.onClass dynamicOutputClassName t = .ok t' ↔ k.Walks rootSpec t t' := by
  rw [← onType_eq_ok_iff, onType_eq, rootSpec, refSpec, if_pos href, if_pos hcls]

/-! ### Walking again -/

variable {out : Bytes → Option Node} {m : Bytes × Node}

theorem mem_slots_iff : m ∈ slots out ps ↔ m.1 ∈ ps.map Prod.fst ∧ out m.1 = some m.2 := by
  unfold slots
  rw [mem_filterMap, mem_map]
  constructor
  · rintro ⟨p, hp, hm⟩
    obtain ⟨t, ht, rfl⟩ := Option.map_eq_some_iff.mp hm
    exact ⟨⟨p, hp, rfl⟩, ht⟩
  rintro ⟨⟨p, hp, heq⟩, ht⟩
  refine ⟨p, hp, ?_⟩
  rw [heq, ht]
  rfl

theorem map_fst_slots (out : Bytes → Option Node) (ps) :
    (slots out ps).map Prod.fst = (ps.map Prod.fst).filter fun key => (out key).isSome := by
  induction ps with
  | nil => rfl
  | cons p ps ih =>
    rw [slots_cons, map_append, ih, map_cons, filter_cons]
    cases out p.1 <;> rfl

theorem nodup_slots (out : Bytes → Option Node) (c : DynamicClass) :
    ((slots out c.properties.entries).map Prod.fst).Nodup := by
  rw [map_fst_slots]
  exact c.properties.nodup.filter _

variable {c : DynamicClass}

theorem member_slots (out : Bytes → Option Node) {key} (hkey : key ∈ c.properties.keys) :
    member (slots out c.properties.entries ++ undeclared c.properties ms) key = out key := by
  rw [member_append, member_undeclared, if_pos hkey, Option.or_none]
  cases hout : out key with
  | none =>
    rw [member_eq_none_iff, map_fst_slots, mem_filter, hout]
    simp
  | some t => exact member_of_mem (nodup_slots out c) (mem_slots_iff.mpr ⟨hkey, hout⟩)

theorem undeclared_slots (out : Bytes → Option Node) (c : DynamicClass) (ms : List (Bytes × Node)) :
    undeclared c.properties (slots out c.properties.entries ++ undeclared c.properties ms) =
      undeclared c.properties ms := by
  have hslots : undeclared c.properties (slots out c.properties.entries) = [] := by
    refine filter_eq_nil_iff.mpr fun m hm => ?_
    have hkey : m.1 ∈ c.properties.keys := (mem_slots_iff.mp hm).1
    simp [hkey]
  unfold undeclared at hslots ⊢
  rw [filter_append, hslots, nil_append, filter_filter]
  simp

theorem Walks.isKind_eq (h : k.Walks spec t t') (kind) : isKind kind t' = isKind kind t := by
  induction h with
  | optional _ _ _ _ _ ih => exact ih
  | union _ _ _ _ ih => exact ih
  | _ => rfl

theorem exists_mem_zip {α β : Type} {as : List α} {bs : List β} (hlen : as.length = bs.length)
    {b : β} (h : b ∈ bs) : ∃ a, (a, b) ∈ as.zip bs := by
  have hsnd : b ∈ (as.zip bs).map Prod.snd := by rwa [map_snd_zip hlen.ge]
  obtain ⟨p, hp, rfl⟩ := mem_map.mp hsnd
  exact ⟨p.1, hp⟩

theorem forall_zip_self {α : Type} {R : α → α → Prop} {as : List α} (h : ∀ a ∈ as, R a a) :
    ∀ p ∈ as.zip as, R p.1 p.2 :=
  fun _ hp => (forall₂_iff_zip.mp (forall₂_same.mpr h)).2 hp

theorem map_eq_of_zip {α β γ : Type} {f : β → γ} {g : α → γ} {as : List α} {bs : List β}
    (hlen : as.length = bs.length) (h : ∀ p ∈ as.zip bs, f p.2 = g p.1) : bs.map f = as.map g := by
  have hall : List.Forall₂ (fun a b => f b = g a) as bs :=
    forall₂_iff_zip.mpr ⟨hlen, fun hp => h _ hp⟩
  clear hlen h
  induction hall with
  | nil => rfl
  | cons h _ ih => rw [map_cons, map_cons, h, ih]

/-- A specification stands for a class, and the walk goes by it. -/
def Instance (k : Walk) (spec : DynamicTypeSpec) (c : DynamicClass) : Prop :=
  k.byRef spec.type spec.ref = true ∧ k.resolveClass spec.ref = .ok (some c)

/-- A property of specifications and nodes that goes down with the walk. -/
structure Closed (k : Walk) (S : DynamicTypeSpec → Node → Prop) : Prop where
  inner : ∀ {spec s t}, S spec t → typeWord spec.type = .optional → isKind .null t = false →
    spec.inner = some s → S s t
  items : ∀ {spec s ts}, S spec (.arr ts) → typeWord spec.type = .list → spec.items = some s →
    ∀ t ∈ ts, S s t
  values : ∀ {spec s ms}, S spec (.obj ms) → typeWord spec.type = .map → spec.values = some s →
    ∀ m ∈ ms, S s m.2
  oneOf : ∀ {spec v t}, S spec t → typeWord spec.type = .union → k.Chooses t spec.oneOf v → S v t
  property : ∀ {spec c ms p prop t}, S spec (.obj ms) → k.Instance spec c →
    p ∈ c.properties.entries → member ms p.1 = some t → p.2 = some prop → S prop.spec t

/-- After the walk `k`, the walk `k'` makes the choices of `k`. -/
structure Repeats (k k' : Walk) (S : DynamicTypeSpec → Node → Prop) : Prop where
  closed : k.Closed S
  byRef : ∀ {spec t}, S spec t → k'.byRef spec.type spec.ref = k.byRef spec.type spec.ref
  isClassRef : ∀ name, k'.isClassRef name = k.isClassRef name
  resolveClass : ∀ {name r}, k.resolveClass name = .ok r → k'.resolveClass name = .ok r
  otherRef : ∀ {name}, k.otherRef name = .ok () → k'.otherRef name = .ok ()
  missing_none : ∀ {p}, k.missing p = none → k'.missing p = none
  missing_some : ∀ {spec c ms p prop t}, S spec (.obj ms) → k.Instance spec c →
    p ∈ c.properties.entries → member ms p.1 = none → p.2 = some prop →
      k.missing (some prop) = some t → k'.Walks prop.spec t t
  no_match : ∀ {u t}, k.matchType u t = .ok false → k'.matchType u t = .ok false
  chooses : ∀ {spec v t t'}, S spec t → typeWord spec.type = .union → t.Distinct →
    k.Chooses t spec.oneOf v → k.Walks v t t' → k'.Chooses t' spec.oneOf v

theorem Chooses.congr {k k' : Walk} (heq : ∀ u, k'.matchType u t' = k.matchType u t)
    (h : k.Chooses t vs v) : k'.Chooses t' vs v := by
  induction h with
  | here h => exact .here (by rw [heq, h])
  | later ho _ ih => exact .later (fun u hu => by rw [heq, ho u hu]) ih

theorem Rests.again {k k' : Walk} {S : DynamicTypeSpec → Node → Prop} (hr : k.Repeats k' S)
    {spec : DynamicTypeSpec} {t : Node} (h : k.Rests spec t) : k'.Rests spec t := by
  unfold Rests at h ⊢
  cases hword : typeWord spec.type with
  | union =>
    rw [hword] at h
    exact fun u hu => hr.no_match (h u hu)
  | _ =>
    rw [hword] at h
    exact h

/-- **A second walk that makes the choices of the first changes nothing.** -/
theorem Walks.again {k k' : Walk} {S : DynamicTypeSpec → Node → Prop} (hr : k.Repeats k' S)
    {spec : DynamicTypeSpec} {t t' : Node} (h : k.Walks spec t t') (hS : S spec t)
    (ht : t.Distinct) : k'.Walks spec t' t' := by
  induction h with
  | @object spec c ms out href hcls hres hmissing hsome hkeep hwalk ih =>
    have hmember : ∀ p ∈ c.properties.entries,
        member (slots out c.properties.entries ++ undeclared c.properties ms) p.1 = out p.1 :=
      fun p hp => member_slots out (mem_map_of_mem hp)
    have hagain : k'.Walks spec (.obj (slots out c.properties.entries ++ undeclared c.properties ms))
        (.obj (slots out c.properties.entries ++ undeclared c.properties
          (slots out c.properties.entries ++ undeclared c.properties ms))) := by
      refine .object (by rw [hr.byRef hS, href]) (by rw [hr.isClassRef, hcls])
        (hr.resolveClass hres) (fun p hp hm => ?_) (fun p hp t hm => ?_)
        (fun p hp t hm _ => ?_) fun p hp t t' prop hm ht' hprop => ?_
      all_goals rw [hmember p hp] at hm
      · -- a property that is not filled in was missing
        rw [hm]
        cases hp' : member ms p.1 with
        | none => rw [hr.missing_none ((hmissing p hp hp').symm.trans hm)]
        | some t => exact absurd (hsome p hp t hp') (by simp [hm])
      · rw [hm, Option.isSome_some]
      · exact hm
      cases hm.symm.trans ht'
      cases hp' : member ms p.1 with
      | none =>
        refine hr.missing_some hS ⟨href, hres⟩ hp hp' hprop ?_
        rw [← hprop, ← hmissing p hp hp', hm]
      | some s =>
        cases ht with
        | obj _ ht =>
          exact ih p hp s t prop hp' hm hprop (hr.closed.property hS ⟨href, hres⟩ hp hp' hprop)
            (ht _ (mem_of_member hp'))
    rwa [undeclared_slots] at hagain
  | noObject href hcls hres hobj =>
    exact .noObject (by rw [hr.byRef hS, href]) (by rw [hr.isClassRef, hcls])
      (hr.resolveClass hres) hobj
  | otherRef href hcls h =>
    exact .otherRef (by rw [hr.byRef hS, href]) (by rw [hr.isClassRef, hcls]) (hr.otherRef h)
  | optional href htype hnull hpart h ih =>
    refine .optional (by rw [hr.byRef hS, href]) htype ?_ hpart
      (ih (hr.closed.inner hS htype hnull hpart) ht)
    rw [h.isKind_eq, hnull]
  | list href htype hpart hlen h ih =>
    refine .list (by rw [hr.byRef hS, href]) htype hpart rfl (forall_zip_self fun t' ht' => ?_)
    obtain ⟨t, hmem⟩ := exists_mem_zip hlen ht'
    cases ht with
    | arr ht =>
      have hold := (of_mem_zip hmem).1
      exact ih _ hmem (hr.closed.items hS htype hpart t hold) (ht t hold)
  | map href htype hpart hlen hkeys h ih =>
    refine .map (by rw [hr.byRef hS, href]) htype hpart rfl
      (forall_zip_self (R := fun m m' : Bytes × Node => m'.1 = m.1) fun _ _ => rfl)
      (forall_zip_self (R := fun m m' : Bytes × Node => k'.Walks _ m.2 m'.2) fun m' hm' => ?_)
    obtain ⟨m, hmem⟩ := exists_mem_zip hlen hm'
    cases ht with
    | obj _ ht =>
      have hold := (of_mem_zip hmem).1
      exact ih _ hmem (hr.closed.values hS htype hpart m hold) (ht m hold)
  | union href htype hpart h ih =>
    exact .union (by rw [hr.byRef hS, href]) htype (hr.chooses hS htype ht hpart h)
      (ih (hr.closed.oneOf hS htype hpart) ht)
  | rest href h => exact .rest (by rw [hr.byRef hS, href]) (h.again hr)

/-! ### What the walk keeps -/

theorem nodup_object (out : Bytes → Option Node) (c : DynamicClass)
    (hkeys : (ms.map Prod.fst).Nodup) :
    ((slots out c.properties.entries ++ undeclared c.properties ms).map Prod.fst).Nodup := by
  rw [map_append]
  refine (nodup_slots out c).append (hkeys.sublist (filter_sublist.map _)) ?_
  intro key hslot hund
  obtain ⟨m, hm, rfl⟩ := mem_map.mp hslot
  obtain ⟨m', hm', heq⟩ := mem_map.mp hund
  have hdecl : m.1 ∈ c.properties.keys := (mem_slots_iff.mp hm).1
  have hnot := (mem_filter.mp hm').2
  simp [heq, hdecl] at hnot

theorem mem_object_cases (h : m ∈ slots out c.properties.entries ++ undeclared c.properties ms) :
    (∃ p ∈ c.properties.entries, p.1 = m.1 ∧ out p.1 = some m.2) ∨ m ∈ ms := by
  rcases mem_append.mp h with h | h
  · obtain ⟨hkey, hout⟩ := mem_slots_iff.mp h
    obtain ⟨p, hp, heq⟩ := mem_map.mp hkey
    exact .inl ⟨p, hp, heq, by rw [heq, hout]⟩
  · exact .inr (mem_of_mem_filter h)

/-- What the walk fills in is a scalar that can be read back. -/
structure FillsScalars (k : Walk) (lib : JsonLibrary) (S : DynamicTypeSpec → Node → Prop) : Prop where
  closed : k.Closed S
  scalar : ∀ {spec c ms p t}, S spec (.obj ms) → k.Instance spec c → p ∈ c.properties.entries →
    member ms p.1 = none → k.missing p.2 = some t → lib.IsKey p.1 ∧ Decoded lib t ∧ t.depth = 0

variable {lib : JsonLibrary} {S : DynamicTypeSpec → Node → Prop}

theorem Walks.decoded (hfill : k.FillsScalars lib S) (h : k.Walks spec t t') (hS : S spec t)
    (ht : Decoded lib t) : Decoded lib t' := by
  induction h with
  | @object spec c ms out href hcls hres hmissing hsome hkeep hwalk ih =>
    cases ht with
    | obj hnodup hkey ht =>
      have hmem : ∀ m ∈ slots out c.properties.entries ++ undeclared c.properties ms,
          lib.IsKey m.1 ∧ Decoded lib m.2 := by
        intro m hm
        rcases mem_object_cases hm with ⟨p, hp, heq, hout⟩ | hm
        · cases hp' : member ms p.1 with
          | none =>
            have hfilled := hfill.scalar hS ⟨href, hres⟩ hp hp' ((hmissing p hp hp').symm.trans hout)
            exact ⟨heq ▸ hfilled.1, hfilled.2.1⟩
          | some t =>
            have hold := mem_of_member hp'
            refine ⟨heq ▸ hkey _ hold, ?_⟩
            cases hprop : p.2 with
            | none =>
              cases (hkeep p hp t hp' hprop).symm.trans hout
              exact ht (p.1, m.2) hold
            | some prop =>
              exact ih p hp t m.2 prop hp' hout hprop
                (hfill.closed.property hS ⟨href, hres⟩ hp hp' hprop) (ht _ hold)
        · exact ⟨hkey m hm, ht m hm⟩
      exact .obj (nodup_object out c hnodup) (fun m hm => (hmem m hm).1) fun m hm => (hmem m hm).2
  | optional _ htype hnull hpart _ ih => exact ih (hfill.closed.inner hS htype hnull hpart) ht
  | union _ htype hpart _ ih => exact ih (hfill.closed.oneOf hS htype hpart) ht
  | list _ htype hpart hlen _ ih =>
    cases ht with
    | arr ht =>
      refine .arr fun t' ht' => ?_
      obtain ⟨t, hmem⟩ := exists_mem_zip hlen ht'
      have hold := (of_mem_zip hmem).1
      exact ih _ hmem (hfill.closed.items hS htype hpart t hold) (ht t hold)
  | @map spec s ms ms' _ htype hpart hlen hkeys _ ih =>
    cases ht with
    | obj hnodup hkey ht =>
      have hfst : ms'.map Prod.fst = ms.map Prod.fst := map_eq_of_zip hlen hkeys
      refine .obj (hfst ▸ hnodup) (fun m' hm' => ?_) fun m' hm' => ?_
      · obtain ⟨m, hmem⟩ := exists_mem_zip hlen hm'
        exact (hkeys _ hmem).symm ▸ hkey m (of_mem_zip hmem).1
      · obtain ⟨m, hmem⟩ := exists_mem_zip hlen hm'
        have hold := (of_mem_zip hmem).1
        exact ih _ hmem (hfill.closed.values hS htype hpart m hold) (ht m hold)
  | _ => exact ht

theorem Walks.depth_le (hfill : k.FillsScalars lib S) (h : k.Walks spec t t') (hS : S spec t) :
    t'.depth ≤ t.depth := by
  induction h with
  | @object spec c ms out href hcls hres hmissing hsome hkeep hwalk ih =>
    rw [depth, depth]
    refine Nat.succ_le_succ (depthMembers_le_iff.mpr fun m hm => ?_)
    have hold : ∀ m ∈ ms, m.2.depth ≤ depthMembers ms := depthMembers_le_iff.mp le_rfl
    rcases mem_object_cases hm with ⟨p, hp, -, hout⟩ | hm
    · cases hp' : member ms p.1 with
      | none =>
        have hfilled := hfill.scalar hS ⟨href, hres⟩ hp hp' ((hmissing p hp hp').symm.trans hout)
        rw [hfilled.2.2]
        exact Nat.zero_le _
      | some t =>
        have hle := hold _ (mem_of_member hp')
        cases hprop : p.2 with
        | none => cases (hkeep p hp t hp' hprop).symm.trans hout; exact hle
        | some prop =>
          exact (ih p hp t m.2 prop hp' hout hprop
            (hfill.closed.property hS ⟨href, hres⟩ hp hp' hprop)).trans hle
    · exact hold m hm
  | optional _ htype hnull hpart _ ih => exact ih (hfill.closed.inner hS htype hnull hpart)
  | union _ htype hpart _ ih => exact ih (hfill.closed.oneOf hS htype hpart)
  | list _ htype hpart hlen _ ih =>
    rw [depth, depth]
    refine Nat.succ_le_succ (depthAll_le_iff.mpr fun t' ht' => ?_)
    obtain ⟨t, hmem⟩ := exists_mem_zip hlen ht'
    have hold := (of_mem_zip hmem).1
    exact (ih _ hmem (hfill.closed.items hS htype hpart t hold)).trans
      (depthAll_le_iff.mp le_rfl t hold)
  | map _ htype hpart hlen _ _ ih =>
    rw [depth, depth]
    refine Nat.succ_le_succ (depthMembers_le_iff.mpr fun m' hm' => ?_)
    obtain ⟨m, hmem⟩ := exists_mem_zip hlen hm'
    have hold := (of_mem_zip hmem).1
    exact (ih _ hmem (hfill.closed.values hS htype hpart m hold)).trans
      (depthMembers_le_iff.mp le_rfl m hold)
  | _ => exact le_rfl

end Walk

end BamlRest
