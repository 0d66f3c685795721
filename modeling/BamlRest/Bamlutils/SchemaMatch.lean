import BamlRest.Bamlutils.OrderedJson
import BamlRest.Schema.Build

/-!
# Matching a payload with its schema

`bamlutils/dynamic_order.go`: the shape check by which a variant of a union is chosen.
-/

namespace BamlRest

/-- `==` on floats. -/
def F64.numEq : F64 → F64 → Bool
  | .inf s, .inf t => s = t
  | .fin s m e, .fin t m' e' =>
    let (p, q) := F64.ratio m e
    let (p', q') := F64.ratio m' e'
    p * q' = p' * q && (s = t || m = 0)
  | _, _ => false

def isIntNumberLiteral (raw : Bytes) : Bool := raw.all fun b => b ≠ '.' && b ≠ 'e' && b ≠ 'E'

def compareLiteralInt (value : AnyValue) (raw : Bytes) : Bool :=
  match parseInt64 raw with
  | none => false
  | some n =>
    match value with
    | .int v | .int32 v => v = n
    | .float v => (F64.ofInt n).numEq v
    | _ => false

/-- What the `type` of a specification can say. -/
inductive TypeWord where
  | string
  | int
  | float
  | bool
  | null
  | optional
  | list
  | map
  | union
  | literalString
  | literalInt
  | literalBool
  | other
  deriving DecidableEq

/-- The reading of a `type`. -/
def typeWord (type : Bytes) : TypeWord :=
  if type = "string" then .string
  else if type = "int" then .int
  else if type = "float" then .float
  else if type = "bool" then .bool
  else if type = "null" then .null
  else if type = "optional" then .optional
  else if type = "list" then .list
  else if type = "map" then .map
  else if type = "union" then .union
  else if type = "literal_string" then .literalString
  else if type = "literal_int" then .literalInt
  else if type = "literal_bool" then .literalBool
  else .other

def member (ms : List (Bytes × Node)) (key : Bytes) : Option Node :=
  (ms.find? fun m => m.1 = key).map Prod.snd

def isKind (kind : LeafKind) : Node → Bool
  | .leaf l => l.kind = kind
  | _ => false

def isIntNode : Node → Bool
  | .leaf l => l.kind = .number && isIntNumberLiteral l.raw
  | _ => false

/-- `dynamicOrderWalker`, with the JSON library. -/
structure Walker where
  lib : JsonLibrary
  schema : DynamicOutputSchema
  lenient : Bool

namespace Walker

variable (w : Walker)

/-- `dynamicOrderWalker.resolveClass`; a class may have no definition. -/
def resolveClass (name : Bytes) : Except OrderError (Option DynamicClass) :=
  if name = dynamicOutputClassName then .ok (some ⟨[], [], w.schema.properties⟩)
  else
    match w.schema.classes.get name with
    | none => .error (.unknownClass name)
    | some cls => .ok cls

def isClassRef (name : Bytes) : Bool :=
  name = dynamicOutputClassName || (w.schema.classes.get name).isSome

def isEnumRef (name : Bytes) : Bool := (w.schema.enums.get name).isSome

/-! ### Matching -/

/-- A property may be missing: in the lenient walk, one of an optional type. -/
def mayBeMissing : Option DynamicProperty → Bool
  | some p => w.lenient && p.spec.type = "optional"
  | none => false

def matchesClass (name : Bytes) : Node → Except OrderError Bool
  | .obj ms =>
    match w.resolveClass name with
    | .error _ => .ok false
    | .ok none => .error (.nilClass name)
    | .ok (some cls) => .ok (cls.properties.entries.all fun p =>
        (member ms p.1).isSome || w.mayBeMissing p.2)
  | _ => .ok false

def matchesEnum (name : Bytes) : Node → Bool
  | .leaf l =>
    l.kind = .string &&
      match w.schema.enums.get name, w.lib.unquote l.raw with
      | some (some enum), some val => enum.values.any fun v =>
          match v with
          | some v => v.name = val
          | none => false
      | _, _ => false
  | _ => false

/-- A `literal_string` matches. -/
def matchesLiteralString (value : AnyValue) : Node → Bool
  | .leaf l =>
    l.kind = .string &&
      match value, w.lib.unquote l.raw with
      | .string want, some got => got = want
      | _, _ => false
  | _ => false

/-- A `literal_int` matches. -/
def matchesLiteralInt (value : AnyValue) : Node → Bool
  | .leaf l => l.kind = .number && isIntNumberLiteral l.raw && compareLiteralInt value l.raw
  | _ => false

/-- A `literal_bool` matches. -/
def matchesLiteralBool (value : AnyValue) : Node → Bool
  | .leaf l =>
    l.kind = .bool &&
      match value with
      | .bool true => l.raw = "true"
      | .bool false => l.raw = "false"
      | _ => false
  | _ => false

def allMatch (f : Node → Except OrderError Bool) : List (Bytes × Node) → Except OrderError Bool
  | [] => .ok true
  | m :: ms =>
    match f m.2 with
    | .error e => .error e
    | .ok false => .ok false
    | .ok true => allMatch f ms

def headMatches (f : Node → Except OrderError Bool) : Node → Except OrderError Bool
  | .arr [] => .ok true
  | .arr (t :: _) => f t
  | _ => .ok false

def valuesMatch (f : Node → Except OrderError Bool) : Node → Except OrderError Bool
  | .obj ms => allMatch f ms
  | _ => .ok false

mutual

def matchesType (w : Walker) : DynamicTypeSpec → Node → Except OrderError Bool
  | ⟨type, ref, items, inner, oneOf, _, values, value⟩, node =>
    if ref ≠ [] then
      if w.isClassRef ref then w.matchesClass ref node
      else if w.isEnumRef ref then .ok (w.matchesEnum ref node)
      else .ok false
    else
      match typeWord type with
      | .string => .ok (isKind .string node)
      | .int => .ok (isIntNode node)
      | .float => .ok (isKind .number node)
      | .bool => .ok (isKind .bool node)
      | .null => .ok (isKind .null node)
      | .optional => if isKind .null node then .ok true else matchesOption w false inner node
      | .list => headMatches (fun t => matchesOption w true items t) node
      | .map => valuesMatch (fun t => matchesOption w true values t) node
      | .union => matchesOneOf w oneOf node
      | .literalString => .ok (w.matchesLiteralString value node)
      | .literalInt => .ok (matchesLiteralInt value node)
      | .literalBool => .ok (matchesLiteralBool value node)
      | .other => .ok false

/-- `matchesType` of a specification that may be missing. -/
def matchesOption (w : Walker) (missing : Bool) :
    Option DynamicTypeSpec → Node → Except OrderError Bool
  | none, _ => .ok missing
  | some s, node => matchesType w s node

def matchesOneOf (w : Walker) : List (Option DynamicTypeSpec) → Node → Except OrderError Bool
  | [], _ => .ok false
  | none :: vs, node => matchesOneOf w vs node
  | some v :: vs, node =>
    match matchesType w v node with
    | .error e => .error e
    | .ok true => .ok true
    | .ok false => matchesOneOf w vs node

end

end Walker

/-! ### Members -/

variable {ms : List (Bytes × Node)} {key : Bytes}

theorem member_isSome_iff : (member ms key).isSome ↔ key ∈ ms.map Prod.fst := by
  simp [member, List.find?_isSome]

theorem member_eq_none_iff : member ms key = none ↔ key ∉ ms.map Prod.fst := by
  rw [← member_isSome_iff, Bool.not_eq_true, Option.isSome_eq_false_iff, Option.isNone_iff_eq_none]

theorem mem_of_member {t} (h : member ms key = some t) : (key, t) ∈ ms := by
  obtain ⟨m, hm, rfl⟩ := Option.map_eq_some_iff.mp h
  have hkey : m.1 = key := by simpa using List.find?_some hm
  subst hkey
  exact List.mem_of_find?_eq_some hm

theorem member_of_mem (hkeys : (ms.map Prod.fst).Nodup) {t} (h : (key, t) ∈ ms) : member ms key = some t := by
  have hsome : (member ms key).isSome = true :=
    member_isSome_iff.mpr (List.mem_map_of_mem (f := Prod.fst) h)
  obtain ⟨t', ht'⟩ := Option.isSome_iff_exists.mp hsome
  have heq := List.inj_on_of_nodup_map hkeys h (mem_of_member ht') rfl
  rw [ht', (Prod.mk.inj heq).2]

theorem member_append {ms'} (key) :
    member (ms ++ ms') key = (member ms key).or (member ms' key) := by
  unfold member
  rw [List.find?_append]
  cases ms.find? fun m => m.1 = key <;> rfl

/-! ### The check answers -/

def DynamicOutputSchema.ClassesDefined (s : DynamicOutputSchema) : Prop :=
  ∀ e ∈ s.classes.entries, e.2.isSome

namespace Walker

variable {w : Walker}

theorem resolveClass_defined (hdef : w.schema.ClassesDefined) (name) :
    w.resolveClass name ≠ .ok none := by
  intro h
  unfold resolveClass at h
  split_ifs at h
  · cases h
  cases hget : w.schema.classes.get name with
  | none => rw [hget] at h; cases h
  | some cls =>
    rw [hget] at h
    cases h
    obtain ⟨e, he, hnone⟩ := Option.map_eq_some_iff.mp hget
    have hsome := hdef e (List.mem_of_find?_eq_some he)
    rw [hnone] at hsome
    cases hsome

theorem allMatch_eq {f : Node → Except OrderError Bool} {ms} (h : ∀ m ∈ ms, ∃ b, f m.2 = .ok b) :
    ∃ b, allMatch f ms = .ok b ∧ (b = true ↔ ∀ m ∈ ms, f m.2 = .ok true) := by
  induction ms with
  | nil => exact ⟨true, rfl, by simp⟩
  | cons m ms ih =>
    simp only [List.mem_cons, forall_eq_or_imp] at h ⊢
    obtain ⟨b, hb⟩ := h.1
    rw [allMatch, hb]
    cases b with
    | false => exact ⟨false, rfl, by simp⟩
    | true =>
      obtain ⟨b, hall, hiff⟩ := ih h.2
      exact ⟨b, hall, by simp [hiff]⟩

theorem exists_matchesClass (hdef : w.schema.ClassesDefined) (name t) :
    ∃ b, w.matchesClass name t = .ok b := by
  cases t with
  | obj ms =>
    unfold matchesClass
    cases hcls : w.resolveClass name with
    | error e => exact ⟨false, rfl⟩
    | ok cls =>
      cases cls with
      | none => exact absurd hcls (resolveClass_defined hdef name)
      | some cls => exact ⟨_, rfl⟩
  | _ => exact ⟨false, rfl⟩

/-- **The check answers** when every class has a definition. -/
theorem exists_matchesType (hdef : w.schema.ClassesDefined) (spec t) :
    ∃ b, w.matchesType spec t = .ok b := by
  induction spec using DynamicTypeSpec.induction generalizing t with
  | mk type ref items inner oneOf keys values value ihitems ihinner ihoneOf _ ihvalues =>
    have hoption : ∀ (missing : Bool) (o : Option DynamicTypeSpec),
        (∀ s, o = some s → ∀ t, ∃ b, w.matchesType s t = .ok b) →
        ∀ t, ∃ b, w.matchesOption missing o t = .ok b := by
      intro missing o h t
      cases o with
      | none => exact ⟨missing, rfl⟩
      | some s => exact h s rfl t
    have honeOf : ∀ vs : List (Option DynamicTypeSpec), (∀ v, some v ∈ vs → some v ∈ oneOf) →
        ∃ b, w.matchesOneOf vs t = .ok b := by
      intro vs hvs
      induction vs with
      | nil => exact ⟨false, rfl⟩
      | cons v vs ihvs =>
        have hrest := ihvs fun v hv => hvs v (List.mem_cons_of_mem _ hv)
        cases v with
        | none => exact hrest
        | some v =>
          obtain ⟨b, hb⟩ := ihoneOf v (hvs v List.mem_cons_self) t
          rw [matchesOneOf, hb]
          cases b with
          | true => exact ⟨true, rfl⟩
          | false => exact hrest
    rw [matchesType]
    by_cases href : ref ≠ []
    · rw [if_pos href]
      split_ifs
      · exact exists_matchesClass hdef ref t
      · exact ⟨_, rfl⟩
      · exact ⟨_, rfl⟩
    rw [if_neg href]
    cases typeWord type with
    | optional =>
      dsimp only
      split_ifs
      · exact ⟨true, rfl⟩
      · exact hoption _ _ ihinner t
    | list =>
      cases t with
      | arr ts =>
        cases ts with
        | nil => exact ⟨true, rfl⟩
        | cons t ts => exact hoption _ _ ihitems t
      | _ => exact ⟨false, rfl⟩
    | map =>
      cases t with
      | obj ms =>
        obtain ⟨b, hall, -⟩ := allMatch_eq fun m (_ : m ∈ ms) => hoption true values ihvalues m.2
        exact ⟨b, hall⟩
      | _ => exact ⟨false, rfl⟩
    | union => exact honeOf oneOf fun _ h => h
    | _ => exact ⟨_, rfl⟩

/-! ### What matches -/

variable (w)

def Matches (spec : DynamicTypeSpec) (t : Node) : Prop := w.matchesType spec t = .ok true

def matchesScalar (value : AnyValue) (t : Node) : TypeWord → Bool
  | .string => isKind .string t
  | .int => isIntNode t
  | .float => isKind .number t
  | .bool => isKind .bool t
  | .null => isKind .null t
  | .literalString => w.matchesLiteralString value t
  | .literalInt => matchesLiteralInt value t
  | .literalBool => matchesLiteralBool value t
  | _ => false

/-- What a specification asks of a tree; `rec` stands for what its parts ask. -/
def MatchesF (rec : DynamicTypeSpec → Node → Prop) (spec : DynamicTypeSpec) (t : Node) : Prop :=
  if spec.ref ≠ [] then
    if w.isClassRef spec.ref then w.matchesClass spec.ref t = .ok true
    else w.isEnumRef spec.ref = true ∧ w.matchesEnum spec.ref t
  else
    match typeWord spec.type with
    | .optional => isKind .null t = true ∨ ∃ s, spec.inner = some s ∧ rec s t
    | .list => ∃ ts, t = .arr ts ∧ ∀ s, spec.items = some s → ∀ t₀ ∈ ts.head?, rec s t₀
    | .map => ∃ ms, t = .obj ms ∧ ∀ s, spec.values = some s → ∀ m ∈ ms, rec s m.2
    | .union => ∃ v, some v ∈ spec.oneOf ∧ rec v t
    | word => w.matchesScalar spec.value t word = true

variable {w}

variable {t : Node}

theorem not_matches_iff (hdef : w.schema.ClassesDefined) {spec} :
    ¬w.Matches spec t ↔ w.matchesType spec t = .ok false := by
  obtain ⟨b, hb⟩ := exists_matchesType hdef spec t
  unfold Matches
  rw [hb]
  cases b <;> simp

theorem matchesOneOf_iff (hdef : w.schema.ClassesDefined) {vs} : w.matchesOneOf vs t = .ok true ↔ ∃ v, some v ∈ vs ∧ w.Matches v t := by
  induction vs with
  | nil => simp [matchesOneOf]
  | cons o vs ih =>
    cases o with
    | none => rw [matchesOneOf, ih]; simp
    | some v =>
      rw [matchesOneOf]
      by_cases hv : w.Matches v t
      · rw [show w.matchesType v t = .ok true from hv]
        exact iff_of_true rfl ⟨v, List.mem_cons_self, hv⟩
      rw [(not_matches_iff hdef).mp hv]
      dsimp only
      rw [ih]
      simp only [List.mem_cons, Option.some.injEq]
      exact ⟨fun ⟨u, hu, h⟩ => ⟨u, .inr hu, h⟩, fun ⟨u, hu, h⟩ =>
        ⟨u, hu.resolve_left fun heq => hv (heq ▸ h), h⟩⟩

/-- **What matches**, in terms of the parts. -/
theorem matches_iff (hdef : w.schema.ClassesDefined) {spec} :
    w.Matches spec t ↔ w.MatchesF w.Matches spec t := by
  obtain ⟨type, ref, items, inner, oneOf, keys, values, value⟩ := spec
  rw [Matches, matchesType, MatchesF]
  by_cases href : ref ≠ []
  · rw [if_pos href, if_pos href]
    split_ifs with hcls henum
    · rfl
    · simp [henum]
    · simp [henum]
  rw [if_neg href, if_neg href]
  dsimp only
  cases typeWord type with
  | optional =>
    dsimp only
    split_ifs with hnull
    · simp [hnull]
    · cases inner with
      | none => simp [matchesOption, hnull]
      | some s => simp [matchesOption, hnull, Matches]
  | list =>
    dsimp only
    cases t with
    | arr ts =>
      cases ts with
      | nil => simp [headMatches]
      | cons t ts =>
        cases items with
        | none => simp [headMatches, matchesOption]
        | some s => simp [headMatches, matchesOption, Matches]
    | _ => simp [headMatches]
  | map =>
    dsimp only
    cases t with
    | obj ms =>
      cases values with
      | none =>
        obtain ⟨b, hall, hiff⟩ := allMatch_eq (f := fun t => w.matchesOption true none t)
          fun m (_ : m ∈ ms) => ⟨true, rfl⟩
        rw [valuesMatch, hall]
        simpa [matchesOption] using hiff
      | some s =>
        obtain ⟨b, hall, hiff⟩ := allMatch_eq (f := fun t => w.matchesOption true (some s) t)
          fun m (_ : m ∈ ms) => exists_matchesType hdef s m.2
        rw [valuesMatch, hall]
        simpa [matchesOption, Matches] using hiff
    | _ => simp [valuesMatch]
  | union => exact matchesOneOf_iff hdef
  | _ => simp [matchesScalar]

end Walker

end BamlRest
