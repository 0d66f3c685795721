import BamlRest.Lib.FuelRec
import BamlRest.Lib.OrderedTree
import BamlRest.Text.Bytes

/-!
# Ordered JSON trees

`bamlutils/dynamic_order.go`, `bamlutils/orderedmap.go`: a payload is decoded into a tree that keeps
the order of the members and the bytes of every scalar, and written back.
-/

namespace BamlRest

open List OTree

/-! ### The JSON library -/

/-- The functions of the JSON library (`github.com/bytedance/sonic`). -/
structure JsonLibrary where
  valid : Bytes → Bool
  /-- The members of an object: the keys, and the values as `json.RawMessage`. -/
  members : Bytes → Option (List (Bytes × Bytes))
  /-- `sonic.Unmarshal` into `[]json.RawMessage` -/
  elements : Bytes → Option (List Bytes)
  quote : Bytes → Bytes
  unquote : Bytes → Option Bytes
  IsKey : Bytes → Prop
  /-- How deep a text is nested, as the library counts. -/
  depth : Bytes → ℕ
  maxDepth : ℕ∞

def writeArray (ts : List Bytes) : Bytes := '['.toUInt8 :: (joinWith (bytes ",") ts ++ [']'.toUInt8])

namespace JsonLibrary

def writeMember (lib : JsonLibrary) (m : Bytes × Bytes) : Bytes :=
  lib.quote m.1 ++ ':'.toUInt8 :: m.2

def writeObject (lib : JsonLibrary) (ms : List (Bytes × Bytes)) : Bytes :=
  '{'.toUInt8 :: (joinWith (bytes ",") (ms.map lib.writeMember) ++ ['}'.toUInt8])

/-- The texts of values without white space between the tokens, nested at most `n` deep. -/
inductive Text (lib : JsonLibrary) : ℕ → Bytes → Prop where
  | leaf {n : ℕ} {b t} (hvalid : lib.valid (b :: t) = true)
      (htrim : trimSpace (b :: t) = b :: t) (hobj : b ≠ '{') (harr : b ≠ '[') : Text lib n (b :: t)
  | arr {n : ℕ} {ts} (h : ∀ t ∈ ts, Text lib n t) : Text lib (n + 1) (writeArray ts)
  | obj {n : ℕ} {ms} (hkey : ∀ m ∈ ms, lib.IsKey m.1)
      (h : ∀ m ∈ ms, Text lib n m.2) : Text lib (n + 1) (lib.writeObject ms)

theorem Text.mono {lib : JsonLibrary} {n m : ℕ} {t : Bytes} (h : lib.Text n t) (hnm : n ≤ m) :
    lib.Text m t := by
  induction h generalizing m with
  | leaf hvalid htrim hobj harr => exact .leaf hvalid htrim hobj harr
  | arr _ ih =>
    obtain ⟨k, rfl⟩ : ∃ k, m = k + 1 := ⟨m - 1, by omega⟩
    exact .arr fun t ht => ih t ht (by omega)
  | obj hkey _ ih =>
    obtain ⟨k, rfl⟩ : ∃ k, m = k + 1 := ⟨m - 1, by omega⟩
    exact .obj hkey fun t ht => ih t ht (by omega)

structure Lawful (lib : JsonLibrary) : Prop where
  valid_word : ∀ t ∈ [bytes "null", bytes "true", bytes "false"], lib.valid t
  /-- What is written from valid scalars and keys is valid, unless it is nested too deep. -/
  valid_text : ∀ {n : ℕ} {t : Bytes}, lib.Text n t → (n : ℕ∞) ≤ lib.maxDepth → lib.valid t
  /-- The elements of an array are smaller than it. -/
  elements_inside : ∀ {s : Bytes} {ts : List Bytes}, lib.elements s = some ts →
    0 < lib.depth s ∧ (lib.depth s : ℕ∞) ≤ lib.maxDepth ∧
      ∀ t ∈ ts, t.length < s.length ∧ lib.depth t < lib.depth s
  /-- The members of an object are smaller than it. -/
  members_inside : ∀ {s : Bytes} {ms : List (Bytes × Bytes)}, lib.members s = some ms →
    0 < lib.depth s ∧ (lib.depth s : ℕ∞) ≤ lib.maxDepth ∧
      ∀ m ∈ ms, lib.IsKey m.1 ∧ m.2.length < s.length ∧ lib.depth m.2 < lib.depth s
  elements_write : ∀ {n : ℕ} {ts : List Bytes}, (∀ t ∈ ts, lib.Text n t) →
    ((n + 1 : ℕ) : ℕ∞) ≤ lib.maxDepth → lib.elements (writeArray ts) = some ts
  members_write : ∀ {n : ℕ} {ms : List (Bytes × Bytes)}, (∀ m ∈ ms, lib.IsKey m.1) →
    (∀ m ∈ ms, lib.Text n m.2) → ((n + 1 : ℕ) : ℕ∞) ≤ lib.maxDepth →
    lib.members (lib.writeObject ms) = some ms

end JsonLibrary

/-! ### Reading -/

/-- `orderedJSONKind` of a scalar. -/
inductive LeafKind where
  | null
  | bool
  | number
  | string
  deriving DecidableEq

structure Leaf where
  kind : LeafKind
  raw : Bytes
  deriving DecidableEq

/-- `orderedNode`. The keys in order and the map from keys to nodes are one list of members. -/
abbrev Node := OTree Bytes Leaf

inductive OrderError where
  | missingRootSchema
  | emptyPayload
  | invalidToken
  | invalidString
  | invalidNumber
  | library
  | trailingBytes
  | duplicateKey (key : Bytes)
  | member (key : Bytes) (e : OrderError)
  | element (i : ℕ) (e : OrderError)
  | unknownClass (name : Bytes)
  | unknownRef (name : Bytes)
  /-- a class without a definition is dereferenced -/
  | nilClass (name : Bytes)
  deriving DecidableEq

section

variable (lib : JsonLibrary)

/-- One of the words `null`, `true` and `false`. -/
def decodeWord (word : Bytes) (kind : LeafKind) (trimmed : Bytes) : Except OrderError Leaf :=
  if trimmed = word then .ok ⟨kind, trimmed⟩ else .error .invalidToken

/-- `decodeOrderedDynamicJSON` of a scalar that starts with `b`. -/
def decodeLeaf (b : UInt8) (trimmed : Bytes) : Except OrderError Leaf :=
  if b = 'n' then decodeWord "null" .null trimmed
  else if b = 't' then decodeWord "true" .bool trimmed
  else if b = 'f' then decodeWord "false" .bool trimmed
  else if b = '"' then
    if lib.valid trimmed then .ok ⟨.string, trimmed⟩ else .error .invalidString
  else if lib.valid trimmed then .ok ⟨.number, trimmed⟩ else .error .invalidNumber

def firstDuplicate (seen : List Bytes) : List (Bytes × Bytes) → Option Bytes
  | [] => none
  | (k, _) :: ms => if seen.contains k then some k else firstDuplicate (k :: seen) ms

/-- `unmarshalOrderedMap` into raw messages. -/
def unmarshalOrderedMap (data : Bytes) : Except OrderError (List (Bytes × Bytes)) :=
  match lib.members data with
  | none => .error .library
  | some ms =>
    match firstDuplicate [] ms with
    | some k => .error (.duplicateKey k)
    | none => if lib.valid data then .ok ms else .error .trailingBytes

def decodeMembers (rec : Bytes → Except OrderError Node) :
    List (Bytes × Bytes) → Except OrderError (List (Bytes × Node))
  | [] => .ok []
  | (k, raw) :: ms =>
    match rec raw with
    | .error e => .error (.member k e)
    | .ok t => (decodeMembers rec ms).map ((k, t) :: ·)

def decodeElements (rec : Bytes → Except OrderError Node) (i : ℕ) :
    List Bytes → Except OrderError (List Node)
  | [] => .ok []
  | raw :: ts =>
    match rec raw with
    | .error e => .error (.element i e)
    | .ok t => (decodeElements rec (i + 1) ts).map (t :: ·)

/-- One level of `decodeOrderedDynamicJSON`. -/
def decodeOrderedF (rec : Bytes → Except OrderError Node) (data : Bytes) :
    Except OrderError Node :=
  match trimSpace data with
  | [] => .error .emptyPayload
  | b :: t =>
    if b = '{' then
      match unmarshalOrderedMap lib data with
      | .error e => .error e
      | .ok ms => (decodeMembers rec ms).map .obj
    else if b = '[' then
      match lib.elements data with
      | none => .error .library
      | some ts => (decodeElements rec 0 ts).map .arr
    else (decodeLeaf lib b (b :: t)).map .leaf

/-- `decodeOrderedDynamicJSON`. -/
def decodeOrdered : Bytes → Except OrderError Node :=
  fixBy List.length (decodeOrderedF lib) fun _ => .error .emptyPayload

mutual

def appendTo : Node → Bytes
  | .leaf l => l.raw
  | .arr ts => writeArray (appendAll ts)
  | .obj ms => lib.writeObject (appendMembers ms)

def appendAll : List Node → List Bytes
  | [] => []
  | t :: ts => appendTo t :: appendAll ts

def appendMembers : List (Bytes × Node) → List (Bytes × Bytes)
  | [] => []
  | (k, t) :: ms => (k, appendTo t) :: appendMembers ms

end

theorem appendAll_eq_map (ts) : appendAll lib ts = ts.map (appendTo lib) := by
  induction ts with
  | nil => rfl
  | cons t ts ih => rw [appendAll, ih, map_cons]

theorem appendMembers_eq_map (ms) :
    appendMembers lib ms = ms.map fun m => (m.1, appendTo lib m.2) := by
  induction ms with
  | nil => rfl
  | cons m ms ih => rw [appendMembers, ih, map_cons]

end

/-! ### The recursion equation -/

variable {ms : List (Bytes × Bytes)}

variable {g f : Bytes → Except OrderError Node}

theorem decodeMembers_congr
    (h : ∀ m ∈ ms, f m.2 = g m.2) : decodeMembers f ms = decodeMembers g ms := by
  induction ms with
  | nil => rfl
  | cons m ms ih =>
    simp only [mem_cons, forall_eq_or_imp] at h
    rw [decodeMembers, decodeMembers, h.1, ih h.2]

variable {i : ℕ} {ts : List Bytes}

theorem decodeElements_congr
    (h : ∀ t ∈ ts, f t = g t) : decodeElements f i ts = decodeElements g i ts := by
  induction ts generalizing i with
  | nil => rfl
  | cons t ts ih =>
    simp only [mem_cons, forall_eq_or_imp] at h
    rw [decodeElements, decodeElements, h.1, ih h.2]

section

variable {lib : JsonLibrary} (hlib : lib.Lawful)

theorem members_of_unmarshal {data ms} (h : unmarshalOrderedMap lib data = .ok ms) :
    lib.members data = some ms ∧ firstDuplicate [] ms = none ∧ lib.valid data := by
  unfold unmarshalOrderedMap at h
  cases hms : lib.members data with
  | none => rw [hms] at h; cases h
  | some ms' =>
    rw [hms] at h
    cases hdup : firstDuplicate [] ms' with
    | some k => simp only [hdup] at h; cases h
    | none =>
      simp only [hdup] at h
      split_ifs at h with hvalid
      cases h
      exact ⟨rfl, hdup, hvalid⟩

include hlib

theorem decodeOrdered_eq (data) :
    decodeOrdered lib data = decodeOrderedF lib (decodeOrdered lib) data := by
  refine fixBy_eq_of_shrinking (fun f g data h => ?_) data
  unfold decodeOrderedF
  cases trimSpace data with
  | nil => rfl
  | cons b t =>
    dsimp only
    split_ifs
    · cases hms : unmarshalOrderedMap lib data with
      | error e => rfl
      | ok ms =>
        have hin := (hlib.members_inside (members_of_unmarshal hms).1).2.2
        dsimp only
        rw [decodeMembers_congr fun m hm => h m.2 (hin m hm).2.1]
    · cases hts : lib.elements data with
      | none => rfl
      | some ts =>
        have hin := (hlib.elements_inside hts).2.2
        dsimp only
        rw [decodeElements_congr fun t ht => h t (hin t ht).1]
    · rfl

end

/-! ### What is read -/

/-- The trees that reading yields: every scalar is one that is read as itself, and no object has a
key twice. -/
inductive Decoded (lib : JsonLibrary) : Node → Prop where
  | leaf {l b t} (hraw : l.raw = b :: t)
      (hdec : decodeLeaf lib b l.raw = .ok l) (htrim : trimSpace l.raw = l.raw)
      (hobj : b ≠ '{') (harr : b ≠ '[') : Decoded lib (.leaf l)
  | arr {ts : List Node} (h : ∀ t ∈ ts, Decoded lib t) : Decoded lib (.arr ts)
  | obj {ms : List (Bytes × Node)} (hkeys : (ms.map Prod.fst).Nodup)
      (hkey : ∀ m ∈ ms, lib.IsKey m.1) (h : ∀ m ∈ ms, Decoded lib m.2) : Decoded lib (.obj ms)

theorem Decoded.distinct {lib : JsonLibrary} {t : Node} (h : Decoded lib t) : t.Distinct := by
  induction h with
  | leaf => exact .leaf _
  | arr _ ih => exact .arr ih
  | obj hkeys _ _ ih => exact .obj hkeys ih

theorem decodeLeaf_raw {lib b t l} (h : decodeLeaf lib b t = .ok l) : l.raw = t := by
  unfold decodeLeaf decodeWord at h
  split_ifs at h <;> cases h <;> rfl

variable {seen : List Bytes}

theorem nodup_of_firstDuplicate (h : firstDuplicate seen ms = none) :
    (ms.map Prod.fst).Nodup ∧ ∀ m ∈ ms, m.1 ∉ seen := by
  induction ms generalizing seen with
  | nil => simp
  | cons m ms ih =>
    rw [firstDuplicate] at h
    split_ifs at h with hseen
    obtain ⟨hnodup, hnot⟩ := ih h
    have hm : m.1 ∉ seen := by simpa using hseen
    refine ⟨nodup_cons.mpr ⟨fun hmem => ?_, hnodup⟩, ?_⟩
    · obtain ⟨m', hm', hkey⟩ := mem_map.mp hmem
      exact hnot m' hm' (hkey ▸ mem_cons_self)
    · simp only [mem_cons, forall_eq_or_imp]
      exact ⟨hm, fun m' hm' hin => hnot m' hm' (mem_cons_of_mem _ hin)⟩

theorem firstDuplicate_of_nodup (hnodup : (ms.map Prod.fst).Nodup) (hseen : ∀ m ∈ ms, m.1 ∉ seen) :
    firstDuplicate seen ms = none := by
  induction ms generalizing seen with
  | nil => rfl
  | cons m ms ih =>
    simp only [mem_cons, forall_eq_or_imp] at hseen
    obtain ⟨hm, hnodup⟩ := nodup_cons.mp hnodup
    rw [firstDuplicate, if_neg (by simpa using hseen.1)]
    refine ih hnodup fun m' hm' hin => ?_
    rcases mem_cons.mp hin with heq | hin
    · exact hm (mem_map.mpr ⟨m', hm', heq⟩)
    · exact hseen.2 m' hm' hin

variable {rec : Bytes → Except OrderError Node}

theorem decodeMembers_eq_ok {ms'} (h : decodeMembers rec ms = .ok ms') :
    ms'.map Prod.fst = ms.map Prod.fst ∧
      ∀ m' ∈ ms', ∃ raw, (m'.1, raw) ∈ ms ∧ rec raw = .ok m'.2 := by
  induction ms generalizing ms' with
  | nil => cases h; simp
  | cons m ms ih =>
    rw [decodeMembers] at h
    cases hrec : rec m.2 with
    | error e => rw [hrec] at h; cases h
    | ok t =>
      rw [hrec] at h
      cases hrest : decodeMembers rec ms with
      | error e => rw [hrest] at h; cases h
      | ok rest =>
        rw [hrest] at h
        cases h
        obtain ⟨hkeys, hmem⟩ := ih hrest
        refine ⟨by rw [map_cons, map_cons, hkeys], ?_⟩
        simp only [mem_cons, forall_eq_or_imp]
        refine ⟨⟨m.2, .inl rfl, hrec⟩, fun m' hm' => ?_⟩
        obtain ⟨raw, hraw, hok⟩ := hmem m' hm'
        exact ⟨raw, .inr hraw, hok⟩

theorem decodeElements_eq_ok {ts'} (h : decodeElements rec i ts = .ok ts') :
    ∀ t' ∈ ts', ∃ raw ∈ ts, rec raw = .ok t' := by
  induction ts generalizing i ts' with
  | nil => cases h; simp
  | cons t ts ih =>
    rw [decodeElements] at h
    cases hrec : rec t with
    | error e => rw [hrec] at h; cases h
    | ok t' =>
      rw [hrec] at h
      cases hrest : decodeElements rec (i + 1) ts with
      | error e => rw [hrest] at h; cases h
      | ok rest =>
        rw [hrest] at h
        cases h
        simp only [mem_cons, forall_eq_or_imp, exists_eq_or_imp]
        exact ⟨.inl hrec, fun t' ht' => .inr (ih hrest t' ht')⟩

section

variable {lib : JsonLibrary} (hlib : lib.Lawful)

include hlib

variable {t : Node}

theorem decoded_of_decodeOrdered {data : Bytes} (h : decodeOrdered lib data = .ok t) :
    Decoded lib t ∧ t.depth ≤ lib.depth data ∧ (t.depth : ℕ∞) ≤ lib.maxDepth := by
  induction hn : data.length using Nat.strong_induction_on generalizing data t with
  | _ n ih =>
    rw [decodeOrdered_eq hlib, decodeOrderedF] at h
    cases htrim : trimSpace data with
    | nil => rw [htrim] at h; cases h
    | cons b r =>
      rw [htrim] at h
      dsimp only at h
      split_ifs at h with hobj harr
      · cases hms : unmarshalOrderedMap lib data with
        | error e => rw [hms] at h; cases h
        | ok ms =>
          rw [hms] at h
          dsimp only at h
          cases hdec : decodeMembers (decodeOrdered lib) ms with
          | error e => rw [hdec] at h; cases h
          | ok ms' =>
            rw [hdec] at h
            cases h
            obtain ⟨hmembers, hdup, -⟩ := members_of_unmarshal hms
            obtain ⟨hpos, hmax, hinside⟩ := hlib.members_inside hmembers
            obtain ⟨hkeys, hmem⟩ := decodeMembers_eq_ok hdec
            have hchild : ∀ m' ∈ ms', lib.IsKey m'.1 ∧ Decoded lib m'.2 ∧
                m'.2.depth < lib.depth data := by
              intro m' hm'
              obtain ⟨raw, hraw, hok⟩ := hmem m' hm'
              obtain ⟨hkey, hlen, hdepth⟩ := hinside _ hraw
              obtain ⟨hdecoded, hle, -⟩ := ih raw.length (hn ▸ hlen) hok rfl
              exact ⟨hkey, hdecoded, hle.trans_lt hdepth⟩
            have hle : (obj ms').depth ≤ lib.depth data := by
              have hmembers : depthMembers ms' ≤ lib.depth data - 1 :=
                depthMembers_le_iff.mpr fun m' hm' => Nat.le_sub_one_of_lt (hchild m' hm').2.2
              rw [depth]
              omega
            refine ⟨.obj (hkeys ▸ (nodup_of_firstDuplicate hdup).1) (fun m' hm' => (hchild m' hm').1)
              fun m' hm' => (hchild m' hm').2.1, hle, ?_⟩
            exact (Nat.cast_le.mpr hle).trans hmax
      · cases hts : lib.elements data with
        | none => rw [hts] at h; cases h
        | some ts =>
          rw [hts] at h
          dsimp only at h
          cases hdec : decodeElements (decodeOrdered lib) 0 ts with
          | error e => rw [hdec] at h; cases h
          | ok ts' =>
            rw [hdec] at h
            cases h
            obtain ⟨hpos, hmax, hinside⟩ := hlib.elements_inside hts
            have hchild : ∀ t' ∈ ts', Decoded lib t' ∧ t'.depth < lib.depth data := by
              intro t' ht'
              obtain ⟨raw, hraw, hok⟩ := decodeElements_eq_ok hdec t' ht'
              obtain ⟨hlen, hdepth⟩ := hinside raw hraw
              obtain ⟨hdecoded, hle, -⟩ := ih raw.length (hn ▸ hlen) hok rfl
              exact ⟨hdecoded, hle.trans_lt hdepth⟩
            have hle : (arr ts').depth ≤ lib.depth data := by
              have helements : depthAll ts' ≤ lib.depth data - 1 :=
                depthAll_le_iff.mpr fun t' ht' => Nat.le_sub_one_of_lt (hchild t' ht').2
              rw [depth]
              omega
            exact ⟨.arr fun t' ht' => (hchild t' ht').1, hle, (Nat.cast_le.mpr hle).trans hmax⟩
      · cases hleaf : decodeLeaf lib b (b :: r) with
        | error e => rw [hleaf] at h; cases h
        | ok l =>
          rw [hleaf] at h
          cases h
          have hraw := decodeLeaf_raw hleaf
          refine ⟨.leaf hraw (by rwa [hraw]) ?_ hobj harr, Nat.zero_le _, zero_le⟩
          rw [hraw, ← htrim, trimSpace_trimSpace]

theorem Decoded.text (h : Decoded lib t) : lib.Text t.depth (appendTo lib t) := by
  induction h with
  | @leaf l b r hraw hdec htrim hobj harr =>
    rw [appendTo, hraw]
    rw [hraw] at hdec htrim
    refine .leaf ?_ htrim hobj harr
    have hword : ∀ word ∈ [bytes "null", bytes "true", bytes "false"], ∀ kind,
        decodeWord word kind (b :: r) = .ok l → lib.valid (b :: r) = true := by
      intro word hword kind h
      unfold decodeWord at h
      split_ifs at h with heq
      exact heq ▸ hlib.valid_word word hword
    unfold decodeLeaf at hdec
    split_ifs at hdec with _ _ _ _ hvalid hvalid
    · exact hword _ (by simp) _ hdec
    · exact hword _ (by simp) _ hdec
    · exact hword _ (by simp) _ hdec
    · exact hvalid
    · exact hvalid
  | arr _ ih =>
    rw [appendTo, appendAll_eq_map, depth]
    refine .arr fun s hs => ?_
    obtain ⟨t, ht, rfl⟩ := mem_map.mp hs
    exact (ih t ht).mono (depthAll_le_iff.mp le_rfl t ht)
  | obj _ hkey _ ih =>
    rw [appendTo, appendMembers_eq_map, depth]
    refine .obj (fun s hs => ?_) fun s hs => ?_
    · obtain ⟨m, hm, rfl⟩ := mem_map.mp hs
      exact hkey m hm
    · obtain ⟨m, hm, rfl⟩ := mem_map.mp hs
      exact (ih m hm).mono (depthMembers_le_iff.mp le_rfl m hm)

variable {rec : Bytes → Except OrderError Node}

omit hlib in
theorem decodeElements_map {i : ℕ} {ts} (h : ∀ t ∈ ts, rec (appendTo lib t) = .ok t) :
    decodeElements rec i (ts.map (appendTo lib)) = .ok ts := by
  induction ts generalizing i with
  | nil => rfl
  | cons t ts ih =>
    simp only [mem_cons, forall_eq_or_imp] at h
    rw [map_cons, decodeElements, h.1, ih h.2]
    rfl

omit hlib in
theorem decodeMembers_map {ms} (h : ∀ m ∈ ms, rec (appendTo lib m.2) = .ok m.2) :
    decodeMembers rec (ms.map fun m => (m.1, appendTo lib m.2)) = .ok ms := by
  induction ms with
  | nil => rfl
  | cons m ms ih =>
    simp only [mem_cons, forall_eq_or_imp] at h
    rw [map_cons, decodeMembers, h.1, ih h.2]
    rfl

/-- **What is written is read back.** -/
theorem decodeOrdered_appendTo (h : Decoded lib t)
    (hdepth : (t.depth : ℕ∞) ≤ lib.maxDepth) : decodeOrdered lib (appendTo lib t) = .ok t := by
  induction h with
  | @leaf l b r hraw hdec htrim hobj harr =>
    rw [decodeOrdered_eq hlib, decodeOrderedF, appendTo, htrim, hraw]
    rw [hraw] at hdec
    dsimp only
    rw [if_neg hobj, if_neg harr, hdec]
    rfl
  | @arr ts hts ih =>
    have htext : ∀ s ∈ ts.map (appendTo lib), lib.Text (depthAll ts) s := by
      intro s hs
      obtain ⟨t, ht, rfl⟩ := mem_map.mp hs
      exact ((hts t ht).text hlib).mono (depthAll_le_iff.mp le_rfl t ht)
    have hread := hlib.elements_write htext (by rwa [depth] at hdepth)
    rw [decodeOrdered_eq hlib, decodeOrderedF, appendTo, appendAll_eq_map, writeArray,
      trimSpace_of_ends (by decide) (by decide)]
    dsimp only
    rw [if_neg (by decide), if_pos rfl, ← writeArray, hread]
    dsimp only
    rw [decodeElements_map fun t ht => ih t ht ?_]
    · rfl
    · exact (Nat.cast_le.mpr (depth_lt_of_mem_arr ht).le).trans hdepth
  | @obj ms hkeys hkey hms ih =>
    have htext : ∀ s ∈ ms.map fun m => (m.1, appendTo lib m.2),
        lib.IsKey s.1 ∧ lib.Text (depthMembers ms) s.2 := by
      intro s hs
      obtain ⟨m, hm, rfl⟩ := mem_map.mp hs
      exact ⟨hkey m hm, ((hms m hm).text hlib).mono (depthMembers_le_iff.mp le_rfl m hm)⟩
    have hread := hlib.members_write (fun s hs => (htext s hs).1) (fun s hs => (htext s hs).2)
      (by rwa [depth] at hdepth)
    have hvalid := hlib.valid_text ((Decoded.obj hkeys hkey hms).text hlib) hdepth
    rw [appendTo, appendMembers_eq_map] at hvalid
    have hdup : firstDuplicate [] (ms.map fun m => (m.1, appendTo lib m.2)) = none :=
      firstDuplicate_of_nodup (by rwa [map_map]) (by simp)
    have hmap : unmarshalOrderedMap lib (lib.writeObject (ms.map fun m => (m.1, appendTo lib m.2))) =
        .ok (ms.map fun m => (m.1, appendTo lib m.2)) := by
      rw [unmarshalOrderedMap, hread]
      dsimp only
      rw [hdup]
      dsimp only
      rw [if_pos hvalid]
    rw [decodeOrdered_eq hlib, decodeOrderedF, appendTo, appendMembers_eq_map, JsonLibrary.writeObject,
      trimSpace_of_ends (by decide) (by decide)]
    dsimp only
    rw [if_pos rfl, ← JsonLibrary.writeObject, hmap]
    dsimp only
    rw [decodeMembers_map fun m hm => ih m hm ?_]
    · rfl
    · exact (Nat.cast_le.mpr (depth_lt_of_mem_obj hm).le).trans hdepth

end

end BamlRest
