import BamlRest.Text.Decoder
import BamlRest.Text.Float64

/-!
# Ordered values and the strict decoder

`internal/debaml/value.go`: the ordered JSONish value that the parsers produce and the coercion
reads, and `strictDecode`, which builds it from the token stream of `encoding/json`. A number token is
classified as in `internal/debaml/alias_number.go`.
-/

namespace BamlRest

/-! ### Number tokens

Rust's `parse::<i64>`, `parse::<u64>` and `parse::<f64>` over Go's `strconv`, and how serde_json and
the fixing parser classify a bare number token. -/

/-- `numMode`: how a parse classifies bare scalar tokens. -/
inductive NumMode where
  | legacy
  | serde
  deriving DecidableEq

def parseI64Rust (s : Bytes) : Option ℤ := parseInt64 s

/-- `parseU64Rust`: unlike Go, Rust accepts one leading `+`. -/
def parseU64Rust (s : Bytes) : Option ℕ :=
  parseUint64 (if s.head? = some '+'.toUInt8 then s.tail else s)

/-- The spellings `strconv.ParseFloat` accepts and Rust does not: underscores and hexadecimal. -/
def notRustFloat (s : Bytes) : Bool :=
  let t := if s.head? = some '+'.toUInt8 ∨ s.head? = some '-'.toUInt8 then s.tail else s
  '_' ∈ s || (bytes "0x").isPrefixOf t || (bytes "0X").isPrefixOf t

/-- `parseF64Rust`: a range error declines, the spellings of the infinities and NaN do not. -/
def parseF64Rust (s : Bytes) : Option F64 :=
  if notRustFloat s then none
  else
    match parseFloat s with
    | .ok f => some f
    | .rangeErr _ | .syntaxErr => none

def parsesFinite (s : Bytes) : Bool :=
  match parseF64Rust s with
  | some f => !f.isInf && !f.isNaN
  | none => false

/-- `serdeParsesNumber`: serde_json accepts the number token. -/
def serdeParsesNumber (tok : Bytes) : Bool := parsesFinite tok

/-- `serdeStoresAsFloat`: serde_json stores the number token as an `f64`. -/
def serdeStoresAsFloat (tok : Bytes) : Bool :=
  if tok = "-0" then true else (parseI64Rust tok).isNone

/-- `bamlNumberToken`: the fixing parser of BAML converts the bare token to a number. -/
def bamlNumberToken (s : Bytes) : Bool :=
  (parseI64Rust s).isSome || (parseU64Rust s).isSome || parsesFinite s

/-! ### Values -/

/-- `value`: an ordered JSONish value. -/
inductive Value where
  | null (incomplete : Bool)
  | bool (incomplete : Bool) (b : Bool)
  | number (incomplete : Bool) (numSerdeFloat : Bool) (tok : Bytes)
  | string (incomplete : Bool) (s : Bytes)
  | array (incomplete : Bool) (vs : List Value)
  | object (incomplete : Bool) (fs : List (Bytes × Value))

/-- `field`: one ordered object entry. -/
abbrev Field := Bytes × Value

namespace Value

/-- The `incomplete` flag of a node. -/
def incomplete : Value → Bool
  | null i | bool i _ | number i _ _ | string i _ | array i _ | object i _ => i

/-- The node is incomplete. -/
def markIncomplete : Value → Value
  | null _ => null true
  | bool _ b => bool true b
  | number _ f t => number true f t
  | string _ s => string true s
  | array _ vs => array true vs
  | object _ fs => object true fs

@[elab_as_elim]
theorem induction {P : Value → Prop} (null : ∀ i, P (null i)) (bool : ∀ i b, P (bool i b))
    (number : ∀ i f t, P (number i f t)) (string : ∀ i s, P (string i s))
    (array : ∀ i vs, (∀ v ∈ vs, P v) → P (array i vs))
    (object : ∀ i fs, (∀ f ∈ fs, P f.2) → P (object i fs)) (v) : P v :=
  @Value.rec P (fun vs => ∀ v ∈ vs, P v) (fun fs => ∀ f ∈ fs, P f.2) (fun f => P f.2)
    null bool number string array object
    (fun _ h => absurd h List.not_mem_nil)
    (fun _ _ hv hvs _ h => (List.mem_cons.mp h).elim (fun e => e ▸ hv) (hvs _))
    (fun _ h => absurd h List.not_mem_nil)
    (fun _ _ hf hfs _ h => (List.mem_cons.mp h).elim (fun e => e ▸ hf) (hfs _))
    (fun _ _ h => h) v

mutual

def beq : Value → Value → Bool
  | null i, null i' => i == i'
  | bool i b, bool i' b' => i == i' && b == b'
  | number i f t, number i' f' t' => i == i' && f == f' && t == t'
  | string i s, string i' s' => i == i' && s == s'
  | array i vs, array i' vs' => i == i' && beqList vs vs'
  | object i fs, object i' fs' => i == i' && beqFields fs fs'
  | _, _ => false

def beqList : List Value → List Value → Bool
  | [], [] => true
  | v :: vs, v' :: vs' => beq v v' && beqList vs vs'
  | _, _ => false

def beqFields : List (Bytes × Value) → List (Bytes × Value) → Bool
  | [], [] => true
  | (k, v) :: fs, (k', v') :: fs' => k == k' && beq v v' && beqFields fs fs'
  | _, _ => false

end

theorem beqList_iff {vs vs'} (h : ∀ v ∈ vs, ∀ v', beq v v' ↔ v = v') :
    beqList vs vs' ↔ vs = vs' := by
  induction vs generalizing vs' with
  | nil => cases vs' <;> simp [beqList]
  | cons v vs ih =>
    cases vs' with
    | nil => simp [beqList]
    | cons v' vs' =>
      simp only [List.mem_cons, forall_eq_or_imp] at h
      simp [beqList, h.1 v', ih h.2]

theorem beqFields_iff {fs fs'}
    (h : ∀ f ∈ fs, ∀ v', beq f.2 v' ↔ f.2 = v') : beqFields fs fs' ↔ fs = fs' := by
  induction fs generalizing fs' with
  | nil => cases fs' <;> simp [beqFields]
  | cons f fs ih =>
    cases fs' with
    | nil => simp [beqFields]
    | cons f' fs' =>
      obtain ⟨k, v⟩ := f
      obtain ⟨k', v'⟩ := f'
      simp only [List.mem_cons, forall_eq_or_imp] at h
      simp [beqFields, h.1 v', ih h.2]

theorem beq_iff (v v') : beq v v' ↔ v = v' := by
  induction v using Value.induction generalizing v' with
  | null i => cases v' <;> simp [beq]
  | bool i b => cases v' <;> simp [beq]
  | number i f t => cases v' <;> simp [beq, and_assoc]
  | string i s => cases v' <;> simp [beq]
  | array i vs ih => cases v' <;> simp [beq, beqList_iff ih]
  | object i fs ih => cases v' <;> simp [beq, beqFields_iff ih]

instance : DecidableEq Value := fun v v' => decidable_of_iff _ (beq_iff v v')

mutual

/-- The value of a JSON tree as the strict decoder builds it: complete, without number tags. -/
def ofJson : Json → Value
  | .null => null false
  | .bool b => bool false b
  | .num t => number false false t
  | .str s => string false s
  | .arr js => array false (ofElems js)
  | .obj fs => object false (ofMembers fs)

/-- `ofJson` on the elements of an array. -/
def ofElems : List Json → List Value
  | [] => []
  | j :: js => ofJson j :: ofElems js

/-- `ofJson` on the members of an object. -/
def ofMembers : List (Bytes × Json) → List Field
  | [] => []
  | (k, j) :: fs => (k, ofJson j) :: ofMembers fs

end

mutual

/-- No node is incomplete. -/
def allComplete : Value → Bool
  | null i | bool i _ | number i _ _ | string i _ => !i
  | array i vs => !i && allCompleteList vs
  | object i fs => !i && allCompleteFields fs

/-- `allComplete` of every element. -/
def allCompleteList : List Value → Bool
  | [] => true
  | v :: vs => allComplete v && allCompleteList vs

/-- `allComplete` of every field. -/
def allCompleteFields : List (Bytes × Value) → Bool
  | [] => true
  | (_, v) :: fs => allComplete v && allCompleteFields fs

end

@[simp] theorem allCompleteList_append (vs ws) :
    allCompleteList (vs ++ ws) = (allCompleteList vs && allCompleteList ws) := by
  induction vs with
  | nil => simp [allCompleteList]
  | cons v vs ih => simp [allCompleteList, ih, Bool.and_assoc]

@[simp] theorem allCompleteFields_append (fs gs) :
    allCompleteFields (fs ++ gs) = (allCompleteFields fs && allCompleteFields gs) := by
  induction fs with
  | nil => simp [allCompleteFields]
  | cons f fs ih => simp [allCompleteFields, ih, Bool.and_assoc]

theorem allCompleteFields_eq (fs) : allCompleteFields fs = allCompleteList (fs.map (·.2)) := by
  induction fs with
  | nil => rfl
  | cons f fs ih => simp [allCompleteFields, allCompleteList, ih]

/-- The values directly inside. -/
def children : Value → List Value
  | array _ vs => vs
  | object _ fs => fs.map (·.2)
  | null _ | bool _ _ | number _ _ _ | string _ _ => []

theorem allComplete_eq (v : Value) :
    v.allComplete = (!v.incomplete && allCompleteList v.children) := by
  cases v with
  | object i fs => simp [allComplete, incomplete, children, allCompleteFields_eq]
  | _ => simp [allComplete, incomplete, children, allCompleteList]

@[simp] theorem children_markIncomplete (v : Value) : v.markIncomplete.children = v.children := by
  cases v <;> rfl

@[simp] theorem incomplete_markIncomplete (v : Value) : v.markIncomplete.incomplete := by
  cases v <;> rfl

structure IsLeaf (v : Value) : Prop where
  children : v.children = []
  incomplete : v.incomplete = false

theorem IsLeaf.allComplete {v : Value} (h : v.IsLeaf) : v.allComplete := by
  rw [allComplete_eq, h.children, h.incomplete]
  rfl

theorem incomplete_eq_false_of_allComplete {v : Value} (h : v.allComplete) :
    v.incomplete = false := by
  cases v <;> simp_all [allComplete, incomplete]

end Value

/-! ### The strict decoder -/

/-- A call of `decodeToken`, `decodeObject` or `decodeArray`. -/
inductive DecodeCall where
  | token (t : Token) (d : Decoder)
  | object (fs : List Field) (d : Decoder)
  | array (vs : List Value) (d : Decoder)

open DecodeCall

def DecodeCall.decoder : DecodeCall → Decoder
  | .token _ d | .object _ d | .array _ d => d

/-- Every call of `decodeToken` opens at most one container, and every container reads a
token before its next call. -/
def DecodeCall.size : DecodeCall → ℕ
  | .token _ d => 2 * d.rest.length + 1
  | .object _ d | .array _ d => 2 * d.rest.length

section

variable (nm : NumMode) (rec : DecodeCall → Option (Value × Decoder))

/-- The body of `decodeToken`. -/
def decodeTokenF (t : Token) (d : Decoder) : Option (Value × Decoder) :=
  match t with
  | .delim c =>
    if c = '{' then rec (.object [] d) else if c = '[' then rec (.array [] d) else none
  | .str s => some (.string false s, d)
  | .num tok =>
    if nm = .serde then
      if serdeParsesNumber tok then some (.number false (serdeStoresAsFloat tok) tok, d)
      else none
    else some (.number false false tok, d)
  | .bool b => some (.bool false b, d)
  | .null => some (.null false, d)

/-- One round of the loop of `decodeObject`. -/
def decodeObjectF (fs : List Field) (d : Decoder) : Option (Value × Decoder) :=
  match d.token with
  | .token (.delim c) d1 => if c = '}' then some (.object false fs, d1) else none
  | .token (.str key) d1 =>
    match d1.token with
    | .token vtok d2 =>
      (rec (.token vtok d2)).bind fun (v, d3) => rec (.object (fs ++ [(key, v)]) d3)
    | _ => none
  | _ => none

/-- One round of the loop of `decodeArray`. -/
def decodeArrayF (vs : List Value) (d : Decoder) : Option (Value × Decoder) :=
  match d.token with
  | .token t d1 =>
    if t = .delim ']' then some (.array false vs, d1)
    else (rec (.token t d1)).bind fun (v, d2) => rec (.array (vs ++ [v]) d2)
  | _ => none

def decodeF : DecodeCall → Option (Value × Decoder)
  | .token t d => decodeTokenF nm rec t d
  | .object fs d => decodeObjectF rec fs d
  | .array vs d => decodeArrayF rec vs d

end

/-- `decodeToken`, `decodeObject` and `decodeArray`. -/
def decodeCall (nm : NumMode) : DecodeCall → Option (Value × Decoder) :=
  fixBy DecodeCall.size (decodeF nm) (fun _ => none)

/-- `strictDecodeMode`: one value, then the end of the text. -/
def strictDecodeMode (s : Bytes) (nm : NumMode) : Option Value :=
  match (newDecoder s).token with
  | .token t d =>
    match decodeCall nm (.token t d) with
    | some (v, d') => if d'.token = .eof then some v else none
    | none => none
  | _ => none

/-- `strictDecode`. -/
def strictDecode (s : Bytes) : Option Value := strictDecodeMode s .legacy

/-- `json.Valid`. -/
def jsonValid (s : Bytes) : Bool := (strictDecode s).isSome

/-! ### The recursion equations -/

def DecodeShrinks (c : DecodeCall) (r : Option (Value × Decoder)) : Prop :=
  ∀ v d, r = some (v, d) → d.rest.length ≤ c.decoder.rest.length

open SameWithin in
/-- The decoder makes its calls at shorter texts, and it takes bytes off the text. -/
theorem decodeF_same (nm) {f g : DecodeCall → Option (Value × Decoder)} {c : DecodeCall}
    (hg : ∀ c, DecodeShrinks c (g c)) (h : ∀ b, b.size < c.size → f b = g b) :
    SameWithin (·.rest.length) c.decoder.rest.length (decodeF nm f c) (decodeF nm g c) := by
  have hcall : ∀ b, b.size < c.size →
      SameWithin (·.rest.length) b.decoder.rest.length (f b) (g b) := fun b hb => ⟨h b hb, hg b⟩
  cases c with
  | token t d =>
    cases t with
    | delim e =>
      exact ite (hcall (.object [] d) (by simp [size]))
        (ite (hcall (.array [] d) (by simp [size])) none)
    | num tok => exact ite (ite (some le_rfl) none) (some le_rfl)
    | _ => exact some le_rfl
  | object fs d =>
    simp only [decodeF, decodeObjectF]
    split
    · next c d1 hd1 => exact ite (some (tokenRead_of_nextToken hd1).length_lt.le) none
    · next key d1 hd1 =>
      have h1 := (tokenRead_of_nextToken hd1).length_lt
      split
      · next vtok d2 hd2 =>
        have h2 := (tokenRead_of_nextToken hd2).length_lt
        refine bind (hcall (.token vtok d2) (by simp only [size]; omega))
          fun v d3 (h3 : _ ≤ d2.rest.length) => ?_
        have hrest := hcall (.object (fs ++ [(key, v)]) d3) (by simp only [size]; omega)
        exact ⟨hrest.1, fun v' d' hd' => (hrest.2 v' d' hd').trans (h3.trans (h2.trans h1).le)⟩
      · exact none
    · exact none
  | array vs d =>
    simp only [decodeF, decodeArrayF]
    split
    · next t d1 hd1 =>
      have h1 := (tokenRead_of_nextToken hd1).length_lt
      refine ite (some h1.le) (bind (hcall (.token t d1) (by simp only [size]; omega))
        fun v d2 (h2 : _ ≤ d1.rest.length) => ?_)
      have hrest := hcall (.array (vs ++ [v]) d2) (by simp only [size]; omega)
      exact ⟨hrest.1, fun v' d' hd' => (hrest.2 v' d' hd').trans (h2.trans h1.le)⟩
    · exact none

theorem decodeF_shrinks (nm f) (hf : ∀ c, DecodeShrinks c (f c)) (c) :
    DecodeShrinks c (decodeF nm f c) :=
  (decodeF_same nm hf fun _ _ => rfl).2

theorem decodeCall_shrinks (nm c) : DecodeShrinks c (decodeCall nm c) :=
  fixBy_ok (P := DecodeShrinks) (by simp [DecodeShrinks]) (decodeF_shrinks nm) c

theorem decodeCall_eq (nm c) : decodeCall nm c = decodeF nm (decodeCall nm) c :=
  fixBy_eq (P := DecodeShrinks) (by simp [DecodeShrinks]) (decodeF_shrinks nm)
    (fun _ _ _ hg _ h => (decodeF_same nm hg h).1) c

theorem decodeToken_eq (nm t d) :
    decodeCall nm (.token t d) = decodeTokenF nm (decodeCall nm) t d :=
  decodeCall_eq nm _

theorem decodeObject_eq (nm fs d) :
    decodeCall nm (.object fs d) = decodeObjectF (decodeCall nm) fs d :=
  decodeCall_eq nm _

theorem decodeArray_eq (nm vs d) :
    decodeCall nm (.array vs d) = decodeArrayF (decodeCall nm) vs d :=
  decodeCall_eq nm _

end BamlRest
