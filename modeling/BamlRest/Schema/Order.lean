import BamlRest.Schema.Validate
import BamlRest.Text.Float64

/-!
# The definitions a target reaches

`internal/schema/order.go`: a walk over the type graph with a stack, which lists the enums, classes
and structural recursive aliases a target reaches.
-/

namespace BamlRest

open List

/-- The type of null. -/
def nullType : Ty := .primitive .zero .null

/-- The variants, and null if the union is optional. -/
def iterIncludeNull (vs : List Ty) (nullable : Bool) : List Ty :=
  if vs.length ≤ 1 || nullable then vs ++ [nullType] else vs

/-! ### Display texts -/

/-- The name of a primitive type. -/
def primitiveDisplay : PrimitiveKind → Bytes
  | .string => "string"
  | .int => "int"
  | .float => "float"
  | .bool => "bool"
  | .null => "null"
  | .media .image => "image"
  | .media .audio => "audio"
  | .media .pdf => "pdf"
  | .media .video => "video"

/-- `strconv.FormatInt(n, 10)`. -/
def formatInt (n : ℤ) : Bytes := signed (n < 0) (natDigits n.natAbs)

/-- `strconv.FormatBool`. -/
def formatBool (b : Bool) : Bytes := if b then "true" else "false"

/-- A literal as it is displayed. A quote inside is not escaped. -/
def literalDisplayKey : LiteralValue → Bytes
  | .string s => "\"" ++ s ++ "\""
  | .int n => formatInt n
  | .bool b => formatBool b

/-- A name with its mode. -/
def namedDisplay (name : Bytes) : StreamingMode → Bytes
  | .streaming => "Streaming." ++ name
  | .nonStreaming => name

mutual

/-- `displayKey`. -/
def displayKey : Ty → Bytes
  | .primitive _ p => primitiveDisplay p
  | .enum _ name _ => name
  | .cls _ name mode _ | .recursiveAlias _ name mode => namedDisplay name mode
  | .literal _ l => literalDisplayKey l
  | .list _ e => displayKey e ++ bytes "[]"
  | .map _ k v => bytes "map<" ++ displayKey k ++ bytes ", " ++ displayKey v ++ bytes ">"
  | .union _ vs nullable =>
    let null := if vs.length ≤ 1 || nullable then [bytes "null"] else []
    bytes "(" ++ joinWith (bytes " | ") (displayKeys vs ++ null) ++ bytes ")"
  | .tuple _ ts => bytes "(" ++ joinWith (bytes ", ") (displayKeys ts) ++ bytes ")"
  | .arrow _ ts r =>
    bytes "(" ++ joinWith (bytes ", ") (displayKeys ts) ++ bytes ") -> " ++ displayKey r
  | .top _ => bytes "ANY"

/-- The keys of several types. -/
def displayKeys : List Ty → List Bytes
  | [] => []
  | t :: ts => displayKey t :: displayKeys ts

end

/-! ### The walk -/

/-- The variables of `orderByReachability`; the top of the stack comes first. -/
structure OrderState where
  stack : List Ty
  checked : List Bytes
  enumsOut : List EnumDef
  classesOut : List ClassDef
  aliasesOut : List Bytes

/-- The definitions that can be reached. -/
structure OrderDefs where
  enumDefs : List EnumDef
  classDefs : List ClassDef
  aliasTargets : List RecursiveAliasDef

/-- A type whose key was not seen goes on the stack. -/
def pushIfUnchecked (checked : List Bytes) (stack : List Ty) (t : Ty) : List Ty :=
  if checked.contains (displayKey t) then stack else t :: stack

/-- All of them, the last on top. -/
def pushAll (checked : List Bytes) (stack ts : List Ty) : List Ty :=
  ts.foldl (pushIfUnchecked checked) stack

/-- Mark a type as checked; `visit` goes on with it, if it has not been checked before. -/
def ifUnchecked (st : OrderState) (t : Ty) (visit : OrderState → OrderState) : OrderState :=
  if st.checked.contains (displayKey t) then st
  else visit { st with checked := displayKey t :: st.checked }

/-- One round of the loop: `t` has been taken off the stack. -/
def orderStep (d : OrderDefs) (st : OrderState) (t : Ty) : OrderState :=
  match t with
  | .enum _ name _ => ifUnchecked st t fun st =>
    match d.enumDefs.find? fun e => e.name.name = name with
    | some e => { st with enumsOut := st.enumsOut ++ [e] }
    | none => st
  | .cls _ name mode _ => ifUnchecked st t fun st =>
    match d.classDefs.find? fun c => c.key = ⟨name, mode⟩ with
    | some c => { st with
        classesOut := st.classesOut ++ [c]
        stack := pushAll st.checked st.stack (c.fields.map ClassField.type) }
    | none => st
  | .list _ e => { st with stack := pushIfUnchecked st.checked st.stack e }
  | .map _ k v => ifUnchecked st t fun st =>
    { st with stack := pushAll st.checked st.stack [k, v] }
  | .union _ vs nullable => ifUnchecked st t fun st =>
    { st with stack := pushAll st.checked st.stack (iterIncludeNull vs nullable) }
  | .tuple _ ts => ifUnchecked st t fun st =>
    { st with stack := pushAll st.checked st.stack ts }
  | .recursiveAlias _ name _ => ifUnchecked st t fun st =>
    let st := { st with aliasesOut := st.aliasesOut ++ [name] }
    match d.aliasTargets.find? fun a => a.name = name with
    | some a => { st with stack := pushIfUnchecked st.checked st.stack a.target }
    | none => st
  | .primitive _ _ | .literal _ _ | .arrow _ _ _ | .top _ => st

/-- The body of the loop of `orderByReachability`. -/
def orderF (d : OrderDefs) (rec : OrderState → OrderState) (st : OrderState) : OrderState :=
  match st.stack with
  | [] => st
  | t :: stack => rec (orderStep d { st with stack := stack } t)

/-! ### The walk ends -/

mutual

/-- How often a type can make the walk go round. -/
def Ty.weight : Ty → ℕ
  | .list _ e => e.weight + 1
  | .map _ k v => k.weight + v.weight + 1
  | .union _ vs _ => weights vs + 2
  | .tuple _ ts => weights ts + 1
  | .primitive _ _ | .enum _ _ _ | .cls _ _ _ _ | .recursiveAlias _ _ _ | .literal _ _
  | .arrow _ _ _ | .top _ => 1

/-- The sum of the weights. -/
def weights : List Ty → ℕ
  | [] => 0
  | t :: ts => t.weight + weights ts

end

theorem weights_append (s t) : weights (s ++ t) = weights s + weights t := by
  induction s with
  | nil => simp [weights]
  | cons a s ih => simp [weights, ih, Nat.add_assoc]

/-- The weights of what was not seen. -/
def uncheckedWeight {α : Type} (key : α → Bytes) (w : α → ℕ) (checked : List Bytes) :
    List α → ℕ
  | [] => 0
  | a :: l => (if checked.contains (key a) then 0 else w a) + uncheckedWeight key w checked l

section

variable {α : Type} (key : α → Bytes) (w : α → ℕ) (checked : List Bytes)

theorem uncheckedWeight_cons_le (k l) :
    uncheckedWeight key w (k :: checked) l ≤ uncheckedWeight key w checked l := by
  induction l with
  | nil => exact le_rfl
  | cons a l ih =>
    simp only [uncheckedWeight]
    refine Nat.add_le_add ?_ ih
    by_cases h : checked.contains (key a)
    · simp [mem_of_elem_eq_true h]
    · split_ifs <;> simp

theorem uncheckedWeight_add_le {a : α} {l} (ha : a ∈ l) (hkey : checked.contains (key a) = false) :
    uncheckedWeight key w (key a :: checked) l + w a ≤ uncheckedWeight key w checked l := by
  induction l with
  | nil => cases ha
  | cons b l ih =>
    simp only [uncheckedWeight]
    rcases mem_cons.mp ha with rfl | ha
    · have hle := uncheckedWeight_cons_le key w checked (key a) l
      simp only [contains_cons, BEq.rfl, Bool.true_or, if_true, hkey, Bool.false_eq_true, if_false]
      omega
    have hle := ih ha
    have hb : (if (key a :: checked).contains (key b) = true then 0 else w b) ≤
        if checked.contains (key b) = true then 0 else w b := by
      by_cases h : checked.contains (key b)
      · simp [mem_of_elem_eq_true h]
      · split_ifs <;> simp
    omega

end

/-- The aliases, in both modes. -/
def OrderDefs.aliasRefs (d : OrderDefs) : List (RecursiveAliasDef × StreamingMode) :=
  d.aliasTargets.flatMap fun a => [(a, .nonStreaming), (a, .streaming)]

/-- The weight of the definitions that are not opened. -/
def pending (d : OrderDefs) (checked : List Bytes) : ℕ :=
  uncheckedWeight (fun c : ClassDef => namedDisplay c.name.name c.mode)
      (fun c => weights (c.fields.map ClassField.type)) checked d.classDefs +
    uncheckedWeight (fun a : RecursiveAliasDef × StreamingMode => namedDisplay a.1.name a.2)
      (fun a => a.1.target.weight) checked d.aliasRefs

/-- What decreases in every round. -/
def orderMeasure (d : OrderDefs) (st : OrderState) : ℕ := weights st.stack + pending d st.checked

theorem pending_cons_le (d checked k) : pending d (k :: checked) ≤ pending d checked :=
  Nat.add_le_add (uncheckedWeight_cons_le _ _ _ _ _) (uncheckedWeight_cons_le _ _ _ _ _)

variable {d : OrderDefs} {checked : List Bytes}

theorem pending_class {c} (hc : c ∈ d.classDefs)
    (hkey : checked.contains (namedDisplay c.name.name c.mode) = false) :
    pending d (namedDisplay c.name.name c.mode :: checked) +
      weights (c.fields.map ClassField.type) ≤ pending d checked := by
  have h1 := uncheckedWeight_add_le (fun c : ClassDef => namedDisplay c.name.name c.mode)
    (fun c => weights (c.fields.map ClassField.type)) checked hc hkey
  have h2 := uncheckedWeight_cons_le
    (fun a : RecursiveAliasDef × StreamingMode => namedDisplay a.1.name a.2)
    (fun a => a.1.target.weight) checked (namedDisplay c.name.name c.mode) d.aliasRefs
  simp only [pending]
  omega

theorem pending_alias {a} (ha : a ∈ d.aliasTargets) (mode)
    (hkey : checked.contains (namedDisplay a.name mode) = false) :
    pending d (namedDisplay a.name mode :: checked) + a.target.weight ≤ pending d checked := by
  have hmem : (a, mode) ∈ d.aliasRefs :=
    mem_flatMap.mpr ⟨a, ha, by cases mode <;> simp⟩
  have h1 := uncheckedWeight_cons_le (fun c : ClassDef => namedDisplay c.name.name c.mode)
    (fun c => weights (c.fields.map ClassField.type)) checked (namedDisplay a.name mode) d.classDefs
  have h2 := uncheckedWeight_add_le
    (fun a : RecursiveAliasDef × StreamingMode => namedDisplay a.1.name a.2)
    (fun a => a.1.target.weight) checked hmem hkey
  simp only [pending] at h1 h2 ⊢
  omega

theorem weights_pushIfUnchecked (checked stack) (t : Ty) :
    weights (pushIfUnchecked checked stack t) ≤ t.weight + weights stack := by
  rw [pushIfUnchecked]
  split_ifs
  · omega
  · exact le_rfl

theorem weights_pushAll (checked stack ts) :
    weights (pushAll checked stack ts) ≤ weights ts + weights stack := by
  induction ts generalizing stack with
  | nil => simp [pushAll, weights]
  | cons t ts ih =>
    have h1 := ih (pushIfUnchecked checked stack t)
    have h2 := weights_pushIfUnchecked checked stack t
    simp only [pushAll, foldl_cons, weights] at h1 ⊢
    omega

theorem weights_iterIncludeNull (vs) (nullable : Bool) :
    weights (iterIncludeNull vs nullable) ≤ weights vs + 1 := by
  rw [iterIncludeNull]
  split_ifs
  · simp [weights_append, weights, nullType, Ty.weight]
  · omega

theorem Ty.weight_pos (t : Ty) : 0 < t.weight := by
  cases t <;> simp [Ty.weight]

variable {st : OrderState} {t : Ty}

theorem orderMeasure_ifUnchecked {visit : OrderState → OrderState}
    (h : st.checked.contains (displayKey t) = false →
      orderMeasure d (visit { st with checked := displayKey t :: st.checked }) <
        t.weight + orderMeasure d st) :
    orderMeasure d (ifUnchecked st t visit) < t.weight + orderMeasure d st := by
  rw [ifUnchecked]
  split_ifs with hchecked
  · have := t.weight_pos
    omega
  · exact h (by simpa using hchecked)

theorem orderMeasure_orderStep (d st) (t : Ty) :
    orderMeasure d (orderStep d st t) < t.weight + orderMeasure d st := by
  have hle := fun k => pending_cons_le d st.checked k
  cases t with
  | top | primitive | literal | arrow =>
    simp only [orderStep, Ty.weight]
    omega
  | enum m name dyn =>
    refine orderMeasure_ifUnchecked fun _ => ?_
    have := hle (displayKey (.enum m name dyn))
    cases d.enumDefs.find? fun e => e.name.name = name with
    | none => simp only [orderMeasure, Ty.weight]; omega
    | some e => simp only [orderMeasure, Ty.weight]; omega
  | list m e =>
    have := weights_pushIfUnchecked st.checked st.stack e
    simp only [orderStep, orderMeasure, Ty.weight]
    omega
  | map m k v =>
    refine orderMeasure_ifUnchecked fun _ => ?_
    have := hle (displayKey (.map m k v))
    have := weights_pushAll (displayKey (.map m k v) :: st.checked) st.stack [k, v]
    simp only [orderMeasure, Ty.weight, weights] at *
    omega
  | union m vs nullable =>
    refine orderMeasure_ifUnchecked fun _ => ?_
    have := hle (displayKey (.union m vs nullable))
    have := weights_pushAll (displayKey (.union m vs nullable) :: st.checked) st.stack
      (iterIncludeNull vs nullable)
    have := weights_iterIncludeNull vs nullable
    simp only [orderMeasure, Ty.weight] at *
    omega
  | tuple m ts =>
    refine orderMeasure_ifUnchecked fun _ => ?_
    have := hle (displayKey (.tuple m ts))
    have := weights_pushAll (displayKey (.tuple m ts) :: st.checked) st.stack ts
    simp only [orderMeasure, Ty.weight] at *
    omega
  | cls m name mode dyn =>
    refine orderMeasure_ifUnchecked fun hkey => ?_
    cases hfind : d.classDefs.find? fun c => c.key = ⟨name, mode⟩ with
    | none =>
      have := hle (displayKey (.cls m name mode dyn))
      simp only [orderMeasure, Ty.weight]
      omega
    | some c =>
      have hc : c.key = ⟨name, mode⟩ := by simpa using find?_some hfind
      obtain ⟨rfl, rfl⟩ := ClassKey.mk.inj hc
      have := pending_class (mem_of_find?_eq_some hfind) hkey
      have := weights_pushAll (displayKey (.cls m c.name.name c.mode dyn) :: st.checked) st.stack
        (c.fields.map ClassField.type)
      simp only [orderMeasure, Ty.weight, displayKey] at *
      omega
  | recursiveAlias m name mode =>
    refine orderMeasure_ifUnchecked fun hkey => ?_
    cases hfind : d.aliasTargets.find? fun a => a.name = name with
    | none =>
      have := hle (displayKey (.recursiveAlias m name mode))
      simp only [orderMeasure, Ty.weight]
      omega
    | some a =>
      have ha : a.name = name := by simpa using find?_some hfind
      subst ha
      have := pending_alias (mem_of_find?_eq_some hfind) mode hkey
      have := weights_pushIfUnchecked (displayKey (.recursiveAlias m a.name mode) :: st.checked)
        st.stack a.target
      simp only [orderMeasure, Ty.weight, displayKey] at *
      omega

/-- The loop of `orderByReachability`. -/
def orderLoop (d : OrderDefs) (st : OrderState) : OrderState :=
  fixBy (orderMeasure d) (orderF d) id st

theorem orderLoop_eq (d st) : orderLoop d st = orderF d (orderLoop d) st := by
  refine fixBy_eq_of_shrinking (fun f g a h => ?_) st
  simp only [orderF]
  cases hstack : a.stack with
  | nil => rfl
  | cons t stack =>
    refine h _ ((orderMeasure_orderStep d { a with stack := stack } t).trans_le ?_)
    simp [orderMeasure, hstack, weights, Nat.add_assoc]

/-- `orderByReachability`; the lists of the final state are its results. -/
def orderByReachability (target : Ty) (enumDefs : List EnumDef) (classDefs : List ClassDef)
    (aliasTargets : List RecursiveAliasDef) : OrderState :=
  orderLoop ⟨enumDefs, classDefs, aliasTargets⟩ ⟨[target], [], [], [], []⟩

/-! ### Only what the target reaches -/

/-- The class occurs in the type. -/
def Ty.RefersTo (t : Ty) (k : ClassKey) : Prop := ∃ m d, Ty.Sub (.cls m k.name k.mode d) t

theorem Ty.RefersTo.of_part {s : Ty} {k} (hs : s ∈ t.parts) (h : s.RefersTo k) : t.RefersTo k := by
  obtain ⟨m, d, hsub⟩ := h
  exact ⟨m, d, .part hsub hs⟩

theorem not_refersTo_nullType (k) : ¬nullType.RefersTo k := by
  rintro ⟨m, d, hsub⟩
  cases hsub with
  | part _ ht => cases ht

/-- A field of one class refers to the other. -/
def classEdge (classDefs : List ClassDef) (k k' : ClassKey) : Prop :=
  ∃ c, classDefs.find? (fun c => c.key = k) = some c ∧ ∃ f ∈ c.fields, f.type.RefersTo k'

/-- What the walk from a class keeps: it lists classes that are reached, and has only types on its
stack that refer to such classes. -/
structure OnlyReached (d : OrderDefs) (k0 : ClassKey) (st : OrderState) : Prop where
  classes : ∀ c ∈ st.classesOut, d.classDefs.find? (fun x => x.key = c.key) = some c ∧
    Relation.ReflTransGen (classEdge d.classDefs) k0 c.key
  stack : ∀ t ∈ st.stack, ∀ k, t.RefersTo k → Relation.ReflTransGen (classEdge d.classDefs) k0 k

theorem mem_pushIfUnchecked {stack} {x : Ty}
    (h : x ∈ pushIfUnchecked checked stack t) : x ∈ stack ∨ x = t := by
  rw [pushIfUnchecked] at h
  split_ifs at h
  · exact .inl h
  · exact (mem_cons.mp h).symm

theorem mem_pushAll {stack ts} {x : Ty}
    (h : x ∈ pushAll checked stack ts) : x ∈ stack ∨ x ∈ ts := by
  induction ts generalizing stack with
  | nil => exact .inl h
  | cons t ts ih =>
    rcases ih h with h | h
    · rcases mem_pushIfUnchecked h with h | rfl
      · exact .inl h
      · exact .inr mem_cons_self
    · exact .inr (mem_cons_of_mem _ h)

variable {k0 : ClassKey}

theorem OnlyReached.push (h : OnlyReached d k0 st) {ts}
    (hts : ∀ t ∈ ts, ∀ k, t.RefersTo k → Relation.ReflTransGen (classEdge d.classDefs) k0 k) :
    OnlyReached d k0 { st with stack := pushAll st.checked st.stack ts } :=
  ⟨h.classes, fun t ht k hk => (mem_pushAll ht).elim (fun ht => h.stack t ht k hk)
    fun ht => hts t ht k hk⟩

theorem OnlyReached.ifUnchecked (h : OnlyReached d k0 st) {visit : OrderState → OrderState}
    (hvisit : ∀ st, OnlyReached d k0 st → OnlyReached d k0 (visit st)) :
    OnlyReached d k0 (ifUnchecked st t visit) := by
  rw [BamlRest.ifUnchecked]
  split_ifs
  · exact h
  · exact hvisit _ ⟨h.classes, h.stack⟩

theorem OnlyReached.orderStep (h : OnlyReached d k0 st) (halias : d.aliasTargets = [])
    (ht : ∀ k, t.RefersTo k → Relation.ReflTransGen (classEdge d.classDefs) k0 k) :
    OnlyReached d k0 (orderStep d st t) := by
  have hparts : ∀ s ∈ t.parts, ∀ k, s.RefersTo k →
      Relation.ReflTransGen (classEdge d.classDefs) k0 k := fun s hs k hk => ht k (hk.of_part hs)
  cases t with
  | top | primitive | literal | arrow => exact h
  | enum m name dyn =>
    rw [BamlRest.orderStep]
    refine h.ifUnchecked fun st hst => ?_
    cases d.enumDefs.find? fun e => e.name.name = name with
    | none => exact hst
    | some e => exact ⟨hst.classes, hst.stack⟩
  | list m e =>
    have hparts : ∀ s ∈ [e], ∀ k, s.RefersTo k → Relation.ReflTransGen _ k0 k := hparts
    exact h.push hparts
  | map m k v => exact h.ifUnchecked fun st hst => hst.push hparts
  | union m vs nullable =>
    refine h.ifUnchecked fun st hst => hst.push fun s hs k hk => ?_
    rw [iterIncludeNull] at hs
    split_ifs at hs
    · rcases mem_append.mp hs with hs | hs
      · exact hparts s hs k hk
      · cases mem_singleton.mp hs
        exact absurd hk (not_refersTo_nullType k)
    · exact hparts s hs k hk
  | tuple m ts => exact h.ifUnchecked fun st hst => hst.push hparts
  | cls m name mode dyn =>
    rw [BamlRest.orderStep]
    refine h.ifUnchecked fun st hst => ?_
    have hreach := ht ⟨name, mode⟩ ⟨m, dyn, .refl _⟩
    cases hfind : d.classDefs.find? fun c => c.key = ⟨name, mode⟩ with
    | none => exact hst
    | some c =>
      have hc : c.key = ⟨name, mode⟩ := by simpa using find?_some hfind
      have hlisted : OnlyReached d k0 { st with classesOut := st.classesOut ++ [c] } := by
        refine ⟨fun x hx => ?_, hst.stack⟩
        rcases mem_append.mp hx with hx | hx
        · exact hst.classes x hx
        · cases mem_singleton.mp hx
          exact ⟨hc ▸ hfind, hc ▸ hreach⟩
      refine hlisted.push fun s hs k hk => ?_
      obtain ⟨f, hf, rfl⟩ := mem_map.mp hs
      exact hreach.tail ⟨c, hfind, f, hf, hk⟩
  | recursiveAlias m name mode =>
    rw [BamlRest.orderStep]
    refine h.ifUnchecked fun st hst => ?_
    rw [halias]
    exact ⟨hst.classes, hst.stack⟩

/-- **The walk lists only classes that the target reaches.** -/
theorem orderByReachability_reached (enumDefs classDefs m name mode) (d : Bool) :
    ∀ c ∈ (orderByReachability (.cls m name mode d) enumDefs classDefs []).classesOut,
      classDefs.find? (fun x => x.key = c.key) = some c ∧
        Relation.ReflTransGen (classEdge classDefs) ⟨name, mode⟩ c.key := by
  have hloop : ∀ st, OnlyReached ⟨enumDefs, classDefs, []⟩ ⟨name, mode⟩ st →
      OnlyReached ⟨enumDefs, classDefs, []⟩ ⟨name, mode⟩
        (orderLoop ⟨enumDefs, classDefs, []⟩ st) := by
    refine fixBy_ok (P := fun a b => OnlyReached ⟨enumDefs, classDefs, []⟩ ⟨name, mode⟩ a →
      OnlyReached ⟨enumDefs, classDefs, []⟩ ⟨name, mode⟩ b) (fun _ h => h) fun f hf st h => ?_
    simp only [orderF]
    cases hstack : st.stack with
    | nil => exact h
    | cons t stack =>
      have hpopped : OnlyReached ⟨enumDefs, classDefs, []⟩ ⟨name, mode⟩ { st with stack := stack } :=
        ⟨h.classes, fun s hs => h.stack s (by rw [hstack]; exact mem_cons_of_mem _ hs)⟩
      exact hf _ (hpopped.orderStep rfl (h.stack t (by simp [hstack])))
  refine (hloop _ ⟨by simp, fun t ht k hk => ?_⟩).classes
  cases mem_singleton.mp ht
  obtain ⟨m', d', hsub⟩ := hk
  cases hsub with
  | refl => exact .refl
  | part _ hpart => cases hpart

end BamlRest
