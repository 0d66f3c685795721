import BamlRest.Bamlutils.SchemaWalk
import BamlRest.Bamlutils.StdJson

/-!
# Reordering a payload by its schema

`bamlutils/dynamic_order.go`: the members of a payload are put into the order in which the schema
declares them, or sorted by their keys.

* `reorderDynamicOutputBySchema`, `sortDynamicOutput`: the two orders.
* `reorderDynamicOutputBySchema_content`: only the order changes.
-/

namespace BamlRest

open Walk List

def bytesLE : Bytes → Bytes → Bool
  | [], _ => true
  | _ :: _, [] => false
  | a :: s, b :: t => a < b || (a == b && bytesLE s t)

namespace Walker

/-- `dynamicOrderWalker.reorderType` and `reorderClass` as a walk: any reference counts, one that is
no class has to be an enum, and a missing property stays missing. -/
def reorder (w : Walker) : Walk where
  matchType := w.matchesType
  byRef _ ref := ref ≠ []
  isClassRef := w.isClassRef
  otherRef ref := if w.isEnumRef ref then .ok () else .error (.unknownRef ref)
  resolveClass := w.resolveClass
  missing _ := none

def reorderType (w : Walker) (spec : DynamicTypeSpec) (node : Node) : Except OrderError Node :=
  w.reorder.onType w.reorder.onClass spec node

def reorderClass (w : Walker) (name : Bytes) (node : Node) : Except OrderError Node :=
  w.reorder.onClass name node

end Walker

def reorderDynamicOutputBySchema (lib : JsonLibrary) (data : Bytes)
    (schema : Option DynamicOutputSchema) : Except OrderError Bytes :=
  match schema with
  | none => .error .missingRootSchema
  | some s =>
    if s.properties.entries.isEmpty then .error .missingRootSchema
    else
      match decodeOrdered lib data with
      | .error e => .error e
      | .ok node =>
        (Walker.reorderClass ⟨lib, s, false⟩ dynamicOutputClassName node).map (appendTo lib)

def alphaSortNode (node : Node) : Node := node.sort fun a b => bytesLE a b = true

def sortDynamicOutput (lib : JsonLibrary) (data : Bytes) : Except OrderError Bytes :=
  (decodeOrdered lib data).map fun node => appendTo lib (alphaSortNode node)

/-! ### Sorting -/

theorem bytesLE_total (s t) : bytesLE s t ∨ bytesLE t s := by
  induction s generalizing t with
  | nil => exact .inl rfl
  | cons a s ih =>
    cases t with
    | nil => exact .inr rfl
    | cons b t =>
      simp only [bytesLE, Bool.or_eq_true, decide_eq_true_eq, Bool.and_eq_true, beq_iff_eq]
      by_cases hab : a = b
      · subst hab
        exact (ih t).imp (fun h => .inr ⟨rfl, h⟩) fun h => .inr ⟨rfl, h⟩
      · exact (UInt8.lt_or_lt_of_ne hab).imp .inl .inl

theorem bytesLE_antisymm {s t} (hst : bytesLE s t) (hts : bytesLE t s) : s = t := by
  induction s generalizing t with
  | nil =>
    cases t with
    | nil => rfl
    | cons b t => cases hts
  | cons a s ih =>
    cases t with
    | nil => cases hst
    | cons b t =>
      simp only [bytesLE, Bool.or_eq_true, decide_eq_true_eq, Bool.and_eq_true, beq_iff_eq]
        at hst hts
      rcases hst with hab | ⟨rfl, hst⟩
      · rcases hts with hba | ⟨rfl, -⟩
        · exact absurd (UInt8.lt_trans hab hba) (UInt8.lt_irrefl a)
        · exact absurd hab (UInt8.lt_irrefl _)
      rcases hts with hba | ⟨-, hts⟩
      · exact absurd hba (UInt8.lt_irrefl a)
      · rw [ih hst hts]

theorem bytesLE_trans {s t u} (hst : bytesLE s t) (htu : bytesLE t u) : bytesLE s u := by
  induction s generalizing t u with
  | nil => rfl
  | cons a s ih =>
    cases t with
    | nil => cases hst
    | cons b t =>
      cases u with
      | nil => cases htu
      | cons c u =>
        simp only [bytesLE, Bool.or_eq_true, decide_eq_true_eq, Bool.and_eq_true, beq_iff_eq]
          at hst htu ⊢
        rcases hst with hab | ⟨rfl, hst⟩
        · rcases htu with hbc | ⟨rfl, -⟩
          · exact .inl (UInt8.lt_trans hab hbc)
          · exact .inl hab
        rcases htu with hac | ⟨rfl, htu⟩
        · exact .inl hac
        · exact .inr ⟨rfl, ih hst htu⟩

@[simp] theorem alphaSortNode_arr (ts) : alphaSortNode (.arr ts) = .arr (ts.map alphaSortNode) :=
  OTree.sort_arr _ ts

theorem alphaSortNode_obj (ms) : ∃ ms', alphaSortNode (.obj ms) = .obj ms' ∧
    ms'.Perm (ms.map fun m => (m.1, alphaSortNode m.2)) :=
  ⟨_, OTree.sort_obj _ ms, OTree.perm_sortByKey _ _⟩

theorem alphaSortNode_obj_eq {ms ms'} (hkeys : (ms.map Prod.fst).Nodup)
    (h : (ms.map fun m => (m.1, alphaSortNode m.2)).Perm
      (ms'.map fun m => (m.1, alphaSortNode m.2))) :
    alphaSortNode (.obj ms) = alphaSortNode (.obj ms') :=
  OTree.sort_obj_eq _ bytesLE_total (fun _ _ _ => bytesLE_trans) (fun _ _ => bytesLE_antisymm)
    hkeys h

theorem alphaSortNode_obj_eq_of_member {ms ms'}
    (hkeys : (ms.map Prod.fst).Nodup) (hkeys' : (ms'.map Prod.fst).Nodup)
    (h : ∀ key, (member ms' key).map alphaSortNode = (member ms key).map alphaSortNode) :
    alphaSortNode (.obj ms') = alphaSortNode (.obj ms) := by
  have hnodup : ∀ l : List (Bytes × Node), (l.map Prod.fst).Nodup →
      (l.map fun m => (m.1, alphaSortNode m.2)).Nodup := by
    intro l hl
    refine Nodup.of_map Prod.fst ?_
    rwa [map_map]
  have hmem : ∀ l : List (Bytes × Node), (l.map Prod.fst).Nodup → ∀ m : Bytes × Node,
      m ∈ l.map (fun m => (m.1, alphaSortNode m.2)) ↔
        (member l m.1).map alphaSortNode = some m.2 := by
    intro l hl m
    rw [mem_map, Option.map_eq_some_iff]
    constructor
    · rintro ⟨m', hm', rfl⟩
      exact ⟨m'.2, member_of_mem hl hm', rfl⟩
    · rintro ⟨t, ht, heq⟩
      exact ⟨(m.1, t), mem_of_member ht, by rw [heq]⟩
  refine alphaSortNode_obj_eq hkeys' ((perm_ext_iff_of_nodup (hnodup _ hkeys')
    (hnodup _ hkeys)).mpr fun m => ?_)
  rw [hmem ms' hkeys', hmem ms hkeys, h]

/-! ### Matching does not look at the order -/

namespace Walker

variable {w : Walker}

theorem isKind_sort (kind t) : isKind kind (alphaSortNode t) = isKind kind t := by
  cases t with
  | leaf l => rfl
  | arr ts => simp [isKind]
  | obj ms =>
    obtain ⟨ms', hsort, -⟩ := alphaSortNode_obj ms
    rw [hsort]
    rfl

theorem leafCheck_sort {f : Node → Bool} (harr : ∀ ts, f (.arr ts) = false)
    (hobj : ∀ ms, f (.obj ms) = false) (t) : f (alphaSortNode t) = f t := by
  cases t with
  | leaf l => rfl
  | arr ts => rw [alphaSortNode_arr, harr, harr]
  | obj ms =>
    obtain ⟨ms', hsort, -⟩ := alphaSortNode_obj ms
    rw [hsort, hobj, hobj]

theorem matchesScalar_sort (value t word) :
    w.matchesScalar value (alphaSortNode t) word = w.matchesScalar value t word :=
  leafCheck_sort (f := fun t => w.matchesScalar value t word) (fun _ => by cases word <;> rfl)
    (fun _ => by cases word <;> rfl) t

theorem matchesClass_sort (name t) :
    w.matchesClass name (alphaSortNode t) = w.matchesClass name t := by
  cases t with
  | leaf l => rfl
  | arr ts => rw [alphaSortNode_arr]; rfl
  | obj ms =>
    obtain ⟨ms', hsort, hperm⟩ := alphaSortNode_obj ms
    have hkeys : ∀ key, (member ms' key).isSome = (member ms key).isSome := by
      intro key
      rw [Bool.eq_iff_iff, member_isSome_iff, member_isSome_iff, (hperm.map Prod.fst).mem_iff,
        map_map]
      rfl
    rw [hsort]
    unfold matchesClass
    simp only [hkeys]

/-- **Matching does not look at the order of members.** -/
theorem matches_sort (hdef : w.schema.ClassesDefined) (spec t) :
    w.Matches spec (alphaSortNode t) ↔ w.Matches spec t := by
  induction spec using DynamicTypeSpec.induction generalizing t with
  | mk type ref items inner oneOf keys values value ihitems ihinner ihoneOf _ ihvalues =>
    rw [matches_iff hdef, matches_iff hdef]
    unfold MatchesF
    dsimp only
    by_cases href : ref ≠ []
    · rw [if_pos href, if_pos href, matchesClass_sort,
        leafCheck_sort (f := w.matchesEnum ref) (fun _ => rfl) fun _ => rfl]
    rw [if_neg href, if_neg href]
    cases typeWord type with
    | optional =>
      dsimp only
      rw [isKind_sort]
      exact or_congr_right (exists_congr fun s => and_congr_right fun hs => ihinner s hs t)
    | list =>
      cases t with
      | leaf l => rfl
      | arr ts =>
        rw [alphaSortNode_arr]
        simp only [OTree.arr.injEq, exists_eq_left', head?_map, Option.mem_def,
          Option.map_eq_some_iff, forall_exists_index, and_imp, forall_apply_eq_imp_iff₂]
        exact forall₂_congr fun s hs => forall₂_congr fun t₀ _ => ihitems s hs t₀
      | obj ms =>
        obtain ⟨ms', hsort, -⟩ := alphaSortNode_obj ms
        rw [hsort]
        simp
    | map =>
      cases t with
      | leaf l => rfl
      | arr ts =>
        rw [alphaSortNode_arr]
        simp
      | obj ms =>
        obtain ⟨ms', hsort, hperm⟩ := alphaSortNode_obj ms
        rw [hsort]
        simp only [OTree.obj.injEq, exists_eq_left', hperm.mem_iff, mem_map,
          forall_exists_index, and_imp, forall_apply_eq_imp_iff₂]
        exact forall₂_congr fun s hs => forall₂_congr fun m _ => ihvalues s hs m.2
    | union => exact exists_congr fun v => and_congr_right fun hv => ihoneOf v hv t
    | _ =>
      dsimp only
      rw [matchesScalar_sort]

theorem matchesType_congr (hdef : w.schema.ClassesDefined) {t t'}
    (h : alphaSortNode t' = alphaSortNode t) (spec) :
    w.matchesType spec t' = w.matchesType spec t := by
  have hiff : w.Matches spec t' ↔ w.Matches spec t := by
    rw [← matches_sort hdef spec t', h, matches_sort hdef]
  obtain ⟨b, hb⟩ := exists_matchesType hdef spec t
  obtain ⟨b', hb'⟩ := exists_matchesType hdef spec t'
  rw [Matches, Matches, hb, hb'] at hiff
  rw [hb, hb']
  cases b <;> cases b' <;> simp_all

/-! ### Reordering changes only the order -/

theorem reorder_sort {spec t t'} (h : w.reorder.Walks spec t t')
    (ht : t.Distinct) : alphaSortNode t' = alphaSortNode t := by
  induction h with
  | @object spec c ms out href hcls hres hmissing hsome hkeep hwalk ih =>
    cases ht with
    | obj hkeys ht =>
      refine alphaSortNode_obj_eq_of_member hkeys (nodup_object out c hkeys) fun key => ?_
      by_cases hkey : key ∈ c.properties.keys
      · rw [member_slots out hkey]
        obtain ⟨p, hp, rfl⟩ := mem_map.mp hkey
        cases hp' : member ms p.1 with
        | none => rw [hmissing p hp hp']; rfl
        | some t =>
          obtain ⟨t', ht'⟩ := Option.isSome_iff_exists.mp (hsome p hp t hp')
          cases hprop : p.2 with
          | none => rw [hkeep p hp t hp' hprop]
          | some prop =>
            rw [ht', Option.map_some, Option.map_some,
              ih p hp t t' prop hp' ht' hprop (ht _ (mem_of_member hp'))]
      have hslot : member (slots out c.properties.entries) key = none := by
        rw [member_eq_none_iff, map_fst_slots]
        exact fun h => hkey (mem_of_mem_filter h)
      rw [member_append, hslot, Option.none_or, member_undeclared, if_neg hkey]
  | optional _ _ _ _ _ ih => exact ih ht
  | union _ _ _ _ ih => exact ih ht
  | @list spec s ts ts' _ _ _ hlen _ ih =>
    cases ht with
    | arr ht =>
      rw [alphaSortNode_arr, alphaSortNode_arr]
      refine congrArg OTree.arr (map_eq_of_zip hlen fun p hp => ?_)
      exact ih p hp (ht _ (of_mem_zip hp).1)
  | @map spec s ms ms' _ _ _ hlen hkeys _ ih =>
    cases ht with
    | obj hnodup ht =>
      have hfst : ms'.map Prod.fst = ms.map Prod.fst := map_eq_of_zip hlen hkeys
      refine alphaSortNode_obj_eq (hfst ▸ hnodup) (Perm.of_eq ?_)
      refine map_eq_of_zip hlen fun p hp => ?_
      rw [hkeys p hp, ih p hp (ht _ (of_mem_zip hp).1)]
  | _ => rfl

theorem closed_true (k : Walk) : k.Closed fun _ _ => True :=
  ⟨fun _ _ _ _ => trivial, fun _ _ _ _ _ => trivial, fun _ _ _ _ _ => trivial,
    fun _ _ _ => trivial, fun _ _ _ _ _ => trivial⟩

theorem reorder_repeats (hdef : w.schema.ClassesDefined) :
    w.reorder.Repeats w.reorder fun _ _ => True where
  closed := closed_true _
  byRef _ := rfl
  isClassRef _ := rfl
  resolveClass h := h
  otherRef h := h
  missing_none h := h
  missing_some _ _ _ _ _ h := nomatch h
  no_match h := h
  chooses _ _ ht hv h :=
    Chooses.congr (k := w.reorder) (matchesType_congr hdef (reorder_sort h ht)) hv

theorem reorder_fillsScalars (lib) : w.reorder.FillsScalars lib fun _ _ => True :=
  ⟨closed_true _, fun _ _ _ _ h => nomatch h⟩

theorem isClassRef_root (w : Walker) : w.isClassRef dynamicOutputClassName := by
  simp [isClassRef]

theorem reorderClass_root_eq_ok_iff {t t'} :
    w.reorderClass dynamicOutputClassName t = .ok t' ↔ w.reorder.Walks rootSpec t t' :=
  onClass_root_eq_ok_iff rfl w.isClassRef_root

end Walker

section

variable {lib : JsonLibrary} (hlib : lib.Lawful)

include hlib

theorem exists_of_reorderDynamicOutputBySchema {data out s}
    (h : reorderDynamicOutputBySchema lib data (some s) = .ok out) :
    ∃ t t', decodeOrdered lib data = .ok t ∧ s.properties.entries.isEmpty = false ∧
      (Walker.reorder ⟨lib, s, false⟩).Walks rootSpec t t' ∧ appendTo lib t' = out ∧
      decodeOrdered lib out = .ok t' := by
  unfold reorderDynamicOutputBySchema at h
  dsimp only at h
  cases hempty : s.properties.entries.isEmpty with
  | true => rw [if_pos hempty] at h; cases h
  | false =>
    rw [if_neg (by simp [hempty])] at h
    cases hdec : decodeOrdered lib data with
    | error e => rw [hdec] at h; cases h
    | ok t =>
      rw [hdec] at h
      obtain ⟨t', ht', rfl⟩ := map_eq_ok_iff.mp h
      have hwalk := Walker.reorderClass_root_eq_ok_iff.mp ht'
      obtain ⟨hdecoded, -, hmax⟩ := decoded_of_decodeOrdered hlib hdec
      refine ⟨t, t', rfl, rfl, hwalk, rfl, decodeOrdered_appendTo hlib ?_ ?_⟩
      · exact hwalk.decoded (Walker.reorder_fillsScalars lib) trivial hdecoded
      · exact (Nat.cast_le.mpr (hwalk.depth_le (Walker.reorder_fillsScalars lib) trivial)).trans hmax

/-- **Reordering changes only the order of members**: the sorted payload is the same. When every
class of the schema has a definition, reordering again changes nothing. -/
theorem reorderDynamicOutputBySchema_content {data out : Bytes}
    {schema : Option DynamicOutputSchema}
    (h : reorderDynamicOutputBySchema lib data schema = .ok out) :
    (∃ sorted, sortDynamicOutput lib data = .ok sorted ∧ sortDynamicOutput lib out = .ok sorted) ∧
      ((∀ s, schema = some s → s.ClassesDefined) →
        reorderDynamicOutputBySchema lib out schema = .ok out) := by
  cases schema with
  | none => cases h
  | some s =>
    obtain ⟨t, t', hdec, hempty, hwalk, hout, hdec'⟩ := exists_of_reorderDynamicOutputBySchema hlib h
    have hdistinct := (decoded_of_decodeOrdered hlib hdec).1.distinct
    refine ⟨⟨_, by rw [sortDynamicOutput, hdec]; rfl, ?_⟩, fun hdef => ?_⟩
    · rw [sortDynamicOutput, hdec', Except.map, Walker.reorder_sort hwalk hdistinct]
    have hagain := hwalk.again (Walker.reorder_repeats (hdef s rfl)) trivial hdistinct
    unfold reorderDynamicOutputBySchema
    dsimp only
    rw [if_neg (by simp [hempty]), hdec']
    dsimp only
    rw [Walker.reorderClass_root_eq_ok_iff.mpr hagain, Except.map, hout]

end

/-! ### Two schemas -/

/-- A class with two integers, `b` before `a`. -/
def pairClass : DynamicClass :=
  ⟨[], [], [("b", plainProperty (plainType "int")),
    ("a", plainProperty (plainType "int"))], by decide +kernel⟩

/-- The property `u` is a pair. -/
def pairSchema : DynamicOutputSchema where
  properties := ⟨[("u", plainProperty (refSpec "C"))], by decide +kernel⟩
  classes := ⟨[("C", some pairClass)], by decide +kernel⟩
  enums := .empty

theorem reorderDynamicOutputBySchema_pairSchema :
    (∃ sorted, sortDynamicOutput stdJson (bytes "\x7b\"u\":\x7b\"a\":1,\"b\":2\x7d\x7d") =
        .ok sorted ∧
      sortDynamicOutput stdJson (bytes "\x7b\"u\":\x7b\"b\":2,\"a\":1\x7d\x7d") = .ok sorted) ∧
      reorderDynamicOutputBySchema stdJson (bytes "\x7b\"u\":\x7b\"b\":2,\"a\":1\x7d\x7d")
        (some pairSchema) = .ok (bytes "\x7b\"u\":\x7b\"b\":2,\"a\":1\x7d\x7d") := by
  have h : reorderDynamicOutputBySchema stdJson (bytes "\x7b\"u\":\x7b\"a\":1,\"b\":2\x7d\x7d")
      (some pairSchema) = .ok (bytes "\x7b\"u\":\x7b\"b\":2,\"a\":1\x7d\x7d") := by
    decide +kernel
  obtain ⟨hsorted, hagain⟩ := reorderDynamicOutputBySchema_content stdJson_lawful h
  refine ⟨hsorted, hagain fun s hs => ?_⟩
  cases hs
  simp [DynamicOutputSchema.ClassesDefined, pairSchema]

/-- The property `u` is a map of instances of `N`, which has no definition, or a pair. -/
def nilClassSchema : DynamicOutputSchema where
  properties := ⟨[("u", plainProperty ⟨"union", [], none, none,
    [some ⟨"map", [], none, none, [], none, some (refSpec "N"), .nil⟩,
      some (refSpec "C")], none, none, .nil⟩)], by decide +kernel⟩
  classes := ⟨[("N", none), ("C", some pairClass)], by decide +kernel⟩
  enums := .empty

/-- With a class that has no definition, the order of members may decide whether it is looked at:
reordering succeeds, and reordering its result dereferences nil. -/
theorem reorderDynamicOutputBySchema_nilClassSchema :
    reorderDynamicOutputBySchema stdJson (bytes "\x7b\"u\":\x7b\"a\":1,\"b\":\x7b\x7d\x7d\x7d")
      (some nilClassSchema) = .ok (bytes "\x7b\"u\":\x7b\"b\":\x7b\x7d,\"a\":1\x7d\x7d") ∧
    reorderDynamicOutputBySchema stdJson (bytes "\x7b\"u\":\x7b\"b\":\x7b\x7d,\"a\":1\x7d\x7d")
      (some nilClassSchema) = .error (.nilClass (bytes "N")) := by
  decide +kernel

end BamlRest
