import BamlRest.Lib.Dedup
import BamlRest.Lib.FuelRec
import BamlRest.NativeSchema.Ast
import BamlRest.NativeSchema.StronglyConnected

/-!
# Recursion analysis

`internal/nativeschema/recursion.go`: `analyzeRecursion` classifies the aliases and classes of a
project by the cycles they are on.

* `analyzeRecursion`: the classification.
* `analyzeRecursion_exact`: it is that of the cycles, and each cycle is broken.
-/

namespace BamlRest.NativeSchema

open List Relation SchemaTypeIndex

/-! ### The analysis -/

mutual

/-- `recursionAnalyzer.collectAliasRefs`, as the list of the names that are recorded. -/
def collectAliasRefs (idx : SchemaTypeIndex) (includeContainers : Bool) : TypeExpr → List Bytes
  | .nameRef _ name namespaced path =>
    if namespaced || path then [] else if (idx.aliases name).isSome then [name] else []
  | .union _ vs _ => collectAliasRefsAll idx includeContainers vs
  | .tuple _ ts => collectAliasRefsAll idx includeContainers ts
  | .group _ t => collectAliasRefs idx includeContainers t
  | .list _ e _ => if includeContainers then collectAliasRefs idx includeContainers e else []
  | .map _ k v =>
    if includeContainers then
      collectAliasRefs idx includeContainers k ++ collectAliasRefs idx includeContainers v
    else []
  | .missing | .unsupported _ _ | .primitive _ _ | .media _ _ | .literal _ _ _ => []

def collectAliasRefsAll (idx : SchemaTypeIndex) (includeContainers : Bool) :
    List TypeExpr → List Bytes
  | [] => []
  | t :: ts => collectAliasRefs idx includeContainers t ++ collectAliasRefsAll idx includeContainers ts

end

/-- `newGraph` over the positions of some names, with an edge for each reference to one of them. -/
def nameGraph (names : List Bytes) (refs : Bytes → List Bytes) : Graph ℕ where
  nodes := List.range names.length
  succ i :=
    match names[i]? with
    | none => []
    | some n => (List.range names.length).filter ((refs n).map names.idxOf).contains
  nodes_sorted := pairwise_lt_range
  succ_sorted i := by
    split
    · exact .nil
    · exact pairwise_lt_range.filter _
  succ_nil i hi := by
    rw [mem_range, not_lt] at hi
    rw [getElem?_eq_none hi]

def nameCycles (names : List Bytes) (refs : Bytes → List Bytes) : Option (List (List Bytes)) :=
  (tarjanSCC (nameGraph names refs)).map fun comps =>
    comps.map fun c => c.filterMap fun i => names[i]?

/-- The alias part of `recursionInfo`: the cycles of the two alias graphs. -/
structure AliasInfo where
  nonStructural : List (List Bytes)
  full : List (List Bytes)

namespace AliasInfo

variable (info : AliasInfo)

def invalidAlias (name : Bytes) : Bool := info.nonStructural.flatten.contains name

def structuralAlias (name : Bytes) : Bool :=
  info.full.flatten.contains name && !info.invalidAlias name

def structuralAliasCycleSize (name : Bytes) : ℕ :=
  if info.structuralAlias name then
    (info.full.find? fun c => c.contains name).elim 0 List.length
  else 0

end AliasInfo

def aliasRefs (idx : SchemaTypeIndex) (includeContainers : Bool) (name : Bytes) : List Bytes :=
  (idx.aliases name).elim [] fun a => collectAliasRefs idx includeContainers a.expr

def classifyAliases (idx : SchemaTypeIndex) : Option AliasInfo := do
  let nonStructural ← nameCycles idx.aliasDeclOrder (aliasRefs idx false)
  let full ← nameCycles idx.aliasDeclOrder (aliasRefs idx true)
  return ⟨nonStructural, full⟩

section

variable (idx : SchemaTypeIndex) (info : AliasInfo)

/-- `recursionAnalyzer.collectClassDeps` on a plain name. -/
def nameDeps (rec : List Bytes × TypeExpr → List Bytes) (visitedAlias : List Bytes) (name : Bytes) :
    List Bytes :=
  if (idx.classes name).isSome then [name]
  else if (idx.enums name).isSome then []
  else
    match idx.aliases name with
    | none => []
    | some a =>
      if info.structuralAlias name || info.invalidAlias name then []
      else if name ∈ visitedAlias then []
      else rec (name :: visitedAlias, a.expr)

mutual

/-- One call of `recursionAnalyzer.collectClassDeps`. -/
def collectClassDepsF (rec : List Bytes × TypeExpr → List Bytes) (visitedAlias : List Bytes) :
    TypeExpr → List Bytes
  | .nameRef _ name namespaced path =>
    if namespaced || path then [] else nameDeps idx info rec visitedAlias name
  | .list _ e _ => collectClassDepsF rec visitedAlias e
  | .map _ k v => collectClassDepsF rec visitedAlias k ++ collectClassDepsF rec visitedAlias v
  | .union _ vs _ => collectClassDepsAll rec visitedAlias vs
  | .tuple _ ts => collectClassDepsAll rec visitedAlias ts
  | .group _ t => collectClassDepsF rec visitedAlias t
  | .missing | .unsupported _ _ | .primitive _ _ | .media _ _ | .literal _ _ _ => []

def collectClassDepsAll (rec : List Bytes × TypeExpr → List Bytes) (visitedAlias : List Bytes) :
    List TypeExpr → List Bytes
  | [] => []
  | t :: ts => collectClassDepsF rec visitedAlias t ++ collectClassDepsAll rec visitedAlias ts

end

/-- `recursionAnalyzer.collectClassDeps`, as the list of the names that are recorded. -/
def collectClassDeps (visitedAlias : List Bytes) (t : TypeExpr) : List Bytes :=
  fixBy (fun p => unseen idx.aliasDeclOrder p.1) (fun rec p => collectClassDepsF idx info rec p.1 p.2)
    (fun _ => []) (visitedAlias, t)

def classDeps (name : Bytes) : List Bytes :=
  (idx.classes name).elim [] fun tb => tb.fields.flatMap fun m => collectClassDeps idx info [] m.type

end

/-- `recursionInfo`: the cycles of classes, next to those of aliases. -/
structure RecursionInfo extends AliasInfo where
  classCycles : List (List Bytes)

namespace RecursionInfo

variable (info : RecursionInfo)

def recursiveClass (name : Bytes) : Bool := info.classCycles.flatten.contains name

def classCycleOf (name : Bytes) : List Bytes :=
  (info.classCycles.find? fun c => c.contains name).getD []

end RecursionInfo

/-- `analyzeRecursion`. -/
def analyzeRecursion (idx : SchemaTypeIndex) : Option RecursionInfo := do
  let info ← classifyAliases idx
  let classCycles ← nameCycles idx.classDeclOrder (classDeps idx info)
  return ⟨info, classCycles⟩

/-! ### References -/

namespace TypeExpr

mutual

/-- The plain names in a type expression; those in lists and maps if `containers` is set. -/
def mentions (containers : Bool) : TypeExpr → List Bytes
  | .nameRef _ name namespaced path => if namespaced || path then [] else [name]
  | .union _ vs _ => mentionsAll containers vs
  | .tuple _ ts => mentionsAll containers ts
  | .group _ t => mentions containers t
  | .list _ e _ => if containers then mentions containers e else []
  | .map _ k v => if containers then mentions containers k ++ mentions containers v else []
  | .missing | .unsupported _ _ | .primitive _ _ | .media _ _ | .literal _ _ _ => []

def mentionsAll (containers : Bool) : List TypeExpr → List Bytes
  | [] => []
  | t :: ts => mentions containers t ++ mentionsAll containers ts

end

theorem mem_mentionsAll {containers n ts} :
    n ∈ mentionsAll containers ts ↔ ∃ t ∈ ts, n ∈ t.mentions containers := by
  induction ts with
  | nil => simp [mentionsAll]
  | cons t ts ih => simp [mentionsAll, ih]

end TypeExpr

open TypeExpr

section

variable (idx : SchemaTypeIndex)

/-- An alias refers to an alias; within lists and maps too if `containers` is set. -/
def aliasEdge (containers : Bool) (a b : Bytes) : Prop :=
  ∃ d, idx.aliases a = some d ∧ b ∈ d.expr.mentions containers ∧ (idx.aliases b).isSome = true

/-- An alias that leads back to itself. -/
def RecursiveAlias (a : Bytes) : Prop := Relation.TransGen (aliasEdge idx true) a a

/-- A type expression leads to a class, with non-recursive aliases expanded. -/
inductive ExpandsTo : TypeExpr → Bytes → Prop where
  | cls {t c} (hc : c ∈ t.mentions true) (hcls : (idx.classes c).isSome = true) : ExpandsTo t c
  | viaAlias {t a c d} (ha : a ∈ t.mentions true)
    (hd : idx.aliases a = some d) (hrec : ¬RecursiveAlias idx a) (h : ExpandsTo d.expr c) :
    ExpandsTo t c

/-- A class mentions another, directly or through aliases that are not recursive. -/
def classEdge (c c' : Bytes) : Prop :=
  ∃ tb, idx.classes c = some tb ∧ ∃ m ∈ tb.fields, ExpandsTo idx m.type c'

def bodies (n : Bytes) : List TypeExpr :=
  (idx.classes n).elim [] (fun tb => tb.fields.map TypeMember.type) ++
    (idx.aliases n).elim [] fun d => [d.expr]

/-- The definition of a class or an alias refers to a class or an alias. -/
def refEdge (n m : Bytes) : Prop :=
  (∃ t ∈ bodies idx n, m ∈ t.mentions true) ∧
    ((idx.classes m).isSome = true ∨ (idx.aliases m).isSome = true)

end

/-! ### Graphs over names -/

section

variable {names : List Bytes} {refs : Bytes → List Bytes}

theorem nameGraph_edge (hnames : names.Nodup) (i j : ℕ) : (nameGraph names refs).Edge i j ↔
    ∃ a b, names[i]? = some a ∧ names[j]? = some b ∧ b ∈ refs a := by
  unfold Graph.Edge nameGraph
  dsimp only
  cases ha : names[i]? with
  | none => simp
  | some a =>
    simp only [mem_filter, mem_range, contains_eq_mem, mem_map,
      decide_eq_true_eq, Option.some.injEq]
    constructor
    · rintro ⟨hj, b, hb, rfl⟩
      exact ⟨a, b, rfl, getElem?_idxOf (idxOf_lt_length_iff.mp hj), hb⟩
    rintro ⟨a', b, rfl, hj, hb⟩
    obtain ⟨hlt, rfl⟩ := List.getElem?_eq_some_iff.mp hj
    exact ⟨hlt, _, hb, hnames.idxOf_getElem j hlt⟩

def nameRef (names : List Bytes) (refs : Bytes → List Bytes) (a b : Bytes) : Prop :=
  a ∈ names ∧ b ∈ names ∧ b ∈ refs a

theorem nameRef_of_edge (hnames : names.Nodup) {i j : ℕ}
    (h : TransGen (nameGraph names refs).Edge i j) :
    TransGen (nameRef names refs) ((names[i]?).getD []) ((names[j]?).getD []) := by
  refine TransGen.lift (fun i => (names[i]?).getD []) (fun i j hij => ?_) i j h
  obtain ⟨a, b, ha, hb, hab⟩ := (nameGraph_edge hnames i j).mp hij
  simp only [Function.onFun, ha, hb, Option.getD_some]
  exact ⟨mem_of_getElem? ha, mem_of_getElem? hb, hab⟩

theorem edge_of_nameRef (hnames : names.Nodup) {a b} (h : TransGen (nameRef names refs) a b) :
    TransGen (nameGraph names refs).Edge (names.idxOf a) (names.idxOf b) := by
  refine TransGen.lift names.idxOf (fun a b hab => ?_) a b h
  exact (nameGraph_edge hnames _ _).mpr
    ⟨a, b, getElem?_idxOf hab.1, getElem?_idxOf hab.2.1, hab.2.2⟩

theorem nameCycles_spec (hnames : names.Nodup) (refs : Bytes → List Bytes) :
    ∃ cycles, nameCycles names refs = some cycles ∧
      (∀ n, n ∈ cycles.flatten ↔ TransGen (nameRef names refs) n n) ∧
      ∀ c ∈ cycles, ∀ a ∈ c, ∀ b, TransGen (nameRef names refs) a b →
        TransGen (nameRef names refs) b a → b ∈ c := by
  obtain ⟨comps, heq, hcomp, hmem, -⟩ := tarjanSCC_spec (nameGraph names refs)
  refine ⟨_, by rw [nameCycles, heq]; rfl, fun n => ?_, fun c hc a ha b hab hba => ?_⟩
  · have hflat : n ∈ (comps.map fun c => c.filterMap fun i => names[i]?).flatten ↔
        ∃ i, (nameGraph names refs).Cyclic i ∧ names[i]? = some n := by
      constructor
      · intro hn
        obtain ⟨l, hl, hn⟩ := mem_flatten.mp hn
        obtain ⟨c, hc, rfl⟩ := mem_map.mp hl
        obtain ⟨i, hi, hn⟩ := mem_filterMap.mp hn
        exact ⟨i, (hmem i).mp (mem_flatten.mpr ⟨c, hc, hi⟩), hn⟩
      rintro ⟨i, hi, hn⟩
      obtain ⟨c, hc, hi⟩ := mem_flatten.mp ((hmem i).mpr hi)
      exact mem_flatten.mpr ⟨_, mem_map_of_mem hc, mem_filterMap.mpr ⟨i, hi, hn⟩⟩
    rw [hflat]
    constructor
    · rintro ⟨i, hcyc, hn⟩
      have hlift := nameRef_of_edge hnames hcyc
      rwa [hn] at hlift
    intro hcyc
    obtain ⟨b, hb, -⟩ := TransGen.head'_iff.mp hcyc
    exact ⟨names.idxOf n, edge_of_nameRef hnames hcyc, getElem?_idxOf hb.1⟩
  · obtain ⟨comp, hcomps, rfl⟩ := mem_map.mp hc
    obtain ⟨i, hi, ha⟩ := mem_filterMap.mp ha
    obtain ⟨hlt, rfl⟩ := List.getElem?_eq_some_iff.mp ha
    have hidx := hnames.idxOf_getElem i hlt
    have hto := (edge_of_nameRef hnames hab).to_reflTransGen
    have hfrom := (edge_of_nameRef hnames hba).to_reflTransGen
    rw [hidx] at hto hfrom
    obtain ⟨d, hd, -⟩ := TransGen.head'_iff.mp hba
    exact mem_filterMap.mpr ⟨names.idxOf b, ((hcomp comp hcomps).1.2 i hi _).mpr ⟨hto, hfrom⟩,
      getElem?_idxOf hd.1⟩

end

/-! ### Aliases -/

section

variable {idx : SchemaTypeIndex}

theorem mem_collectAliasRefs {containers t b} : b ∈ collectAliasRefs idx containers t ↔
      b ∈ t.mentions containers ∧ (idx.aliases b).isSome = true := by
  have hall : ∀ ts : List TypeExpr, (∀ t ∈ ts, b ∈ collectAliasRefs idx containers t ↔
      b ∈ t.mentions containers ∧ (idx.aliases b).isSome = true) →
      (b ∈ collectAliasRefsAll idx containers ts ↔
        b ∈ mentionsAll containers ts ∧ (idx.aliases b).isSome = true) := by
    intro ts hts
    induction ts with
    | nil => simp [collectAliasRefsAll, mentionsAll]
    | cons t ts ih =>
      rw [collectAliasRefsAll, mentionsAll, mem_append, mem_append,
        hts t mem_cons_self, ih fun s hs => hts s (mem_cons_of_mem t hs), or_and_right]
  induction t using induction with
  | nameRef as n ns p =>
    rw [collectAliasRefs, mentions]
    split_ifs with hp ha
    · simp
    · simp +contextual [ha]
    · simp +contextual [ha]
  | list as e d ih =>
    rw [collectAliasRefs, mentions]
    cases containers <;> simp [ih]
  | map as k v ihk ihv =>
    rw [collectAliasRefs, mentions]
    cases containers <;> simp [ihk, ihv, or_and_right]
  | union as vs n ih => exact hall vs ih
  | tuple as ts ih => exact hall ts ih
  | group as t ih => exact ih
  | missing | unsupported | primitive | media | literal =>
    simp [collectAliasRefs, mentions]

variable {a : Bytes}

theorem mem_aliasDeclOrder : a ∈ idx.aliasDeclOrder ↔ (idx.aliases a).isSome = true := by
  rw [aliasDeclOrder, mem_eraseDups, aliases, lastEntry_isSome]

theorem mem_classDeclOrder {c} : c ∈ idx.classDeclOrder ↔ (idx.classes c).isSome = true := by
  rw [classDeclOrder, mem_eraseDups, classes, lastEntry_isSome]

theorem aliasEdge_iff {containers b} : aliasEdge idx containers a b ↔
    a ∈ idx.aliasDeclOrder ∧ b ∈ idx.aliasDeclOrder ∧ b ∈ aliasRefs idx containers a := by
  rw [mem_aliasDeclOrder, mem_aliasDeclOrder]
  unfold aliasEdge aliasRefs
  cases ha : idx.aliases a with
  | none => simp
  | some d =>
    simp only [Option.some.injEq, exists_eq_left', Option.isSome_some, true_and, Option.elim_some,
      mem_collectAliasRefs]
    exact ⟨fun h => ⟨h.2, h⟩, fun h => h.2⟩

/-- A list of the cycles of aliases, with the containers looked into or not. -/
structure ListsAliasCycles (idx : SchemaTypeIndex) (containers : Bool) (cycles : List (List Bytes)) :
    Prop where
  mem : ∀ a, a ∈ cycles.flatten ↔ Relation.TransGen (aliasEdge idx containers) a a
  complete : ∀ c ∈ cycles, ∀ a ∈ c, ∀ b, Relation.TransGen (aliasEdge idx containers) a b →
    Relation.TransGen (aliasEdge idx containers) b a → b ∈ c

theorem classifyAliases_spec (idx) : ∃ info, classifyAliases idx = some info ∧
    ListsAliasCycles idx false info.nonStructural ∧ ListsAliasCycles idx true info.full := by
  have hnodup : idx.aliasDeclOrder.Nodup := nodup_eraseDups _
  have hedges : ∀ containers,
      nameRef idx.aliasDeclOrder (aliasRefs idx containers) = aliasEdge idx containers := by
    intro containers
    funext a b
    exact propext aliasEdge_iff.symm
  obtain ⟨cycles, heq, hmem, hcomplete⟩ := nameCycles_spec hnodup (aliasRefs idx false)
  obtain ⟨cycles', heq', hmem', hcomplete'⟩ := nameCycles_spec hnodup (aliasRefs idx true)
  rw [hedges] at hmem hmem' hcomplete hcomplete'
  exact ⟨⟨cycles, cycles'⟩, by rw [classifyAliases, heq, heq']; rfl, ⟨hmem, hcomplete⟩, hmem',
    hcomplete'⟩

theorem mentions_mono {t : TypeExpr} {n : Bytes} (h : n ∈ t.mentions false) :
    n ∈ t.mentions true := by
  induction t using induction with
  | union as vs nl ih =>
    obtain ⟨v, hv, hn⟩ := mem_mentionsAll.mp h
    exact mem_mentionsAll.mpr ⟨v, hv, ih v hv hn⟩
  | tuple as ts ih =>
    obtain ⟨v, hv, hn⟩ := mem_mentionsAll.mp h
    exact mem_mentionsAll.mpr ⟨v, hv, ih v hv hn⟩
  | group as t ih => exact ih h
  | nameRef => exact h
  | _ => cases h

theorem RecursiveAlias.of_direct (h : TransGen (aliasEdge idx false) a a) :
    RecursiveAlias idx a := by
  have hle : aliasEdge idx false ≤ aliasEdge idx true := by
    rintro a b ⟨d, hd, hb, hb'⟩
    exact ⟨d, hd, mentions_mono hb, hb'⟩
  exact TransGen.mono hle a a h

end

section

variable {idx : SchemaTypeIndex} {info : AliasInfo}
  (hdirect : ListsAliasCycles idx false info.nonStructural)
  (hfull : ListsAliasCycles idx true info.full)
include hdirect

theorem invalidAlias_iff (a) : info.invalidAlias a ↔ TransGen (aliasEdge idx false) a a := by
  rw [AliasInfo.invalidAlias, contains_eq_mem, decide_eq_true_eq, hdirect.mem]

include hfull

theorem structuralAlias_iff (a) : info.structuralAlias a ↔
    RecursiveAlias idx a ∧ ¬TransGen (aliasEdge idx false) a a := by
  rw [AliasInfo.structuralAlias, Bool.and_eq_true, contains_eq_mem, decide_eq_true_eq, hfull.mem,
    Bool.not_eq_true', ← Bool.not_eq_true, invalidAlias_iff hdirect]
  rfl

theorem skipped_iff (a) :
    (info.structuralAlias a || info.invalidAlias a) = true ↔ RecursiveAlias idx a := by
  rw [Bool.or_eq_true, structuralAlias_iff hdirect hfull, invalidAlias_iff hdirect]
  constructor
  · rintro (h | h)
    · exact h.1
    · exact .of_direct h
  · intro h
    exact (em _).symm.imp_left fun hnot => ⟨h, hnot⟩

end

variable {idx : SchemaTypeIndex}

theorem alone_of_cycleSize {info : AliasInfo}
    (hfull : ListsAliasCycles idx true info.full) {a b : Bytes} (ha : info.structuralAlias a)
    (hsize : info.structuralAliasCycleSize a ≤ 1) (hab : TransGen (aliasEdge idx true) a b)
    (hba : TransGen (aliasEdge idx true) b a) : b = a := by
  rw [AliasInfo.structuralAliasCycleSize, if_pos ha] at hsize
  have hmem : a ∈ info.full.flatten := (hfull.mem a).mpr (hab.trans hba)
  cases hfind : info.full.find? fun c => c.contains a with
  | none =>
    obtain ⟨c, hc, hac⟩ := mem_flatten.mp hmem
    have hnot := find?_eq_none.mp hfind c hc
    rw [contains_eq_mem, decide_eq_true hac] at hnot
    exact absurd rfl hnot
  | some c =>
    rw [hfind] at hsize
    have hac : a ∈ c := by simpa using find?_some hfind
    have hbc := hfull.complete c (mem_of_find?_eq_some hfind) a hac b hab hba
    have hlen : c.length ≤ 1 := hsize
    match c, hlen, hac, hbc with
    | [x], _, hac, hbc => rw [mem_singleton.mp hac, mem_singleton.mp hbc]

/-! ### Classes -/

section

variable {idx : SchemaTypeIndex} {info : AliasInfo}

variable {visited : List Bytes} {c : Bytes}

theorem mem_collectClassDepsF {rec : List Bytes × TypeExpr → List Bytes}
    {t : TypeExpr} : c ∈ collectClassDepsF idx info rec visited t ↔
      ∃ n ∈ t.mentions true, c ∈ nameDeps idx info rec visited n := by
  have hall : ∀ ts : List TypeExpr, (∀ t ∈ ts, c ∈ collectClassDepsF idx info rec visited t ↔
      ∃ n ∈ t.mentions true, c ∈ nameDeps idx info rec visited n) →
      (c ∈ collectClassDepsAll idx info rec visited ts ↔
        ∃ n ∈ mentionsAll true ts, c ∈ nameDeps idx info rec visited n) := by
    intro ts hts
    induction ts with
    | nil => simp [collectClassDepsAll, mentionsAll]
    | cons t ts ih =>
      rw [collectClassDepsAll, mentionsAll, mem_append, hts t mem_cons_self,
        ih fun s hs => hts s (mem_cons_of_mem t hs)]
      simp only [mem_append, or_and_right, exists_or]
  induction t using induction with
  | nameRef as n ns p =>
    rw [collectClassDepsF, mentions]
    split_ifs <;> simp
  | list as e d ih => simpa [collectClassDepsF, mentions] using ih
  | map as k v ihk ihv =>
    rw [collectClassDepsF, mentions, if_pos rfl, mem_append, or_congr ihk ihv]
    simp only [mem_append, or_and_right, exists_or]
  | union as vs n ih => exact hall vs ih
  | tuple as ts ih => exact hall ts ih
  | group as t ih => exact ih
  | missing | unsupported | primitive | media | literal =>
    simp [collectClassDepsF, mentions]

theorem collectClassDepsF_congr {f g : List Bytes × TypeExpr → List Bytes}
    (h : nameDeps idx info f visited = nameDeps idx info g visited) (t) :
    collectClassDepsF idx info f visited t = collectClassDepsF idx info g visited t := by
  have hall : ∀ ts : List TypeExpr, (∀ t ∈ ts, collectClassDepsF idx info f visited t =
      collectClassDepsF idx info g visited t) →
      collectClassDepsAll idx info f visited ts = collectClassDepsAll idx info g visited ts := by
    intro ts hts
    induction ts with
    | nil => rfl
    | cons t ts ih =>
      rw [collectClassDepsAll, collectClassDepsAll, hts t mem_cons_self,
        ih fun s hs => hts s (mem_cons_of_mem t hs)]
  induction t using induction with
  | nameRef as n ns p => rw [collectClassDepsF, collectClassDepsF, h]
  | list as e d ih => exact ih
  | map as k v ihk ihv => rw [collectClassDepsF, collectClassDepsF, ihk, ihv]
  | union as vs n ih => exact hall vs ih
  | tuple as ts ih => exact hall ts ih
  | group as t ih => exact ih
  | missing | unsupported | primitive | media | literal => rfl

theorem collectClassDeps_eq (visited t) : collectClassDeps idx info visited t =
      collectClassDepsF idx info (fun p => collectClassDeps idx info p.1 p.2) visited t := by
  refine fixBy_eq_of_shrinking (fun f g p hfg => ?_) (visited, t)
  refine collectClassDepsF_congr (funext fun n => ?_) p.2
  unfold nameDeps
  cases ha : idx.aliases n with
  | none => rfl
  | some d =>
    have hmem : n ∈ idx.aliasDeclOrder := mem_aliasDeclOrder.mpr (by rw [ha]; rfl)
    dsimp only
    split_ifs with hcls henum hskip hvisited
    · rfl
    · rfl
    · rfl
    · rfl
    · exact hfg _ (unseen_lt hmem hvisited)

theorem SchemaTypeIndex.Distinct.alias (h : idx.Distinct) {a}
    (ha : (idx.aliases a).isSome = true) : idx.classes a = none ∧ idx.enums a = none := by
  rw [Distinct, declared, nodup_append] at h
  have ha : a ∈ idx.aliasDecls.map Prod.fst := lastEntry_isSome.mp ha
  constructor
  · by_contra hne
    have hc : a ∈ idx.classDecls.map Prod.fst :=
      lastEntry_isSome.mp (Option.isSome_iff_ne_none.mpr hne)
    exact h.2.2 a (mem_append_left _ hc) a ha rfl
  by_contra hne
  have he : a ∈ idx.enumDecls.map Prod.fst :=
    lastEntry_isSome.mp (Option.isSome_iff_ne_none.mpr hne)
  exact h.2.2 a (mem_append_right _ he) a ha rfl

variable (hdistinct : idx.Distinct) (hdirect : ListsAliasCycles idx false info.nonStructural)
  (hfull : ListsAliasCycles idx true info.full)

include hdirect hfull in
theorem mem_nameDeps {rec : List Bytes × TypeExpr → List Bytes} {n}
    (h : c ∈ nameDeps idx info rec visited n) :
    ((idx.classes c).isSome = true ∧ c = n) ∨ ∃ d, idx.aliases n = some d ∧ ¬RecursiveAlias idx n ∧
      n ∉ visited ∧ c ∈ rec (n :: visited, d.expr) := by
  unfold nameDeps at h
  cases ha : idx.aliases n with
  | none =>
    rw [ha] at h
    dsimp only at h
    split_ifs at h with hcls henum
    · cases mem_singleton.mp h
      exact .inl ⟨hcls, rfl⟩
    · cases h
    · cases h
  | some d =>
    rw [ha] at h
    dsimp only at h
    split_ifs at h with hcls henum hskip hvisited
    · cases mem_singleton.mp h
      exact .inl ⟨hcls, rfl⟩
    · cases h
    · cases h
    · cases h
    · exact .inr ⟨d, rfl, fun hrec => hskip ((skipped_iff hdirect hfull n).mpr hrec), hvisited, h⟩

include hdirect hfull in
theorem expandsTo_of_mem {t} (h : c ∈ collectClassDeps idx info visited t) : ExpandsTo idx t c := by
  induction hn : unseen idx.aliasDeclOrder visited using Nat.strong_induction_on
    generalizing visited t with
  | _ n ih =>
    rw [collectClassDeps_eq] at h
    obtain ⟨a, ha, hc⟩ := mem_collectClassDepsF.mp h
    rcases mem_nameDeps hdirect hfull hc with ⟨hcls, rfl⟩ | ⟨d, hd, hrec, hvisited, hc⟩
    · exact .cls ha hcls
    · have hmem : a ∈ idx.aliasDeclOrder := mem_aliasDeclOrder.mpr (by rw [hd]; rfl)
      exact .viaAlias ha hd hrec (ih _ (hn ▸ unseen_lt hmem hvisited) hc rfl)

include hdistinct hdirect hfull in
theorem mem_of_expandsTo {t} (h : ExpandsTo idx t c)
    (hvisited : ∀ v ∈ visited, ∀ a ∈ t.mentions true, (idx.aliases a).isSome = true →
      TransGen (aliasEdge idx true) v a) : c ∈ collectClassDeps idx info visited t := by
  induction h generalizing visited with
  | @cls t c hc hcls =>
    rw [collectClassDeps_eq, mem_collectClassDepsF]
    refine ⟨c, hc, ?_⟩
    rw [nameDeps, if_pos hcls]
    exact mem_cons_self
  | @viaAlias t a c d ha hd hrec _ ih =>
    have hsome : (idx.aliases a).isSome = true := by rw [hd]; rfl
    obtain ⟨hcls, henum⟩ := hdistinct.alias hsome
    have hskip : ¬(info.structuralAlias a || info.invalidAlias a) = true := fun hskip =>
      hrec ((skipped_iff hdirect hfull a).mp hskip)
    have hnew : a ∉ visited := fun hmem => hrec (hvisited a hmem a ha hsome)
    rw [collectClassDeps_eq, mem_collectClassDepsF]
    refine ⟨a, ha, ?_⟩
    rw [nameDeps, hcls, henum, hd]
    simp only [Option.isSome_none, Bool.false_eq_true, if_false, if_neg hskip, if_neg hnew]
    refine ih fun v hv b hb hbs => ?_
    have hedge : aliasEdge idx true a b := ⟨d, hd, hb, hbs⟩
    rcases mem_cons.mp hv with rfl | hv
    · exact .single hedge
    · exact (hvisited v hv a ha hsome).tail hedge

include hdistinct hdirect hfull in
theorem mem_classDeps {c'} : c' ∈ classDeps idx info c ↔ classEdge idx c c' := by
  unfold classDeps classEdge
  cases hc : idx.classes c with
  | none => simp
  | some tb =>
    simp only [Option.elim_some, mem_flatMap, Option.some.injEq, exists_eq_left']
    refine exists_congr fun m => and_congr_right fun _ => ⟨expandsTo_of_mem hdirect hfull, fun h => ?_⟩
    exact mem_of_expandsTo hdistinct hdirect hfull h (by simp)

end

theorem ExpandsTo.isClass {t c} (h : ExpandsTo idx t c) : (idx.classes c).isSome := by
  induction h with
  | cls _ h => exact h
  | viaAlias _ _ _ _ ih => exact ih

/-- What was found is what is there. -/
structure RecursionInfo.Exact (idx : SchemaTypeIndex) (info : RecursionInfo) : Prop where
  invalid : ∀ a, info.invalidAlias a ↔ Relation.TransGen (aliasEdge idx false) a a
  structural : ∀ a, info.structuralAlias a ↔
    Relation.TransGen (aliasEdge idx true) a a ∧ info.invalidAlias a = false
  recursive : ∀ c, info.recursiveClass c ↔ Relation.TransGen (classEdge idx) c c
  alone : ∀ a, info.structuralAlias a → info.structuralAliasCycleSize a ≤ 1 → ∀ b,
    Relation.TransGen (aliasEdge idx true) a b → Relation.TransGen (aliasEdge idx true) b a → b = a

theorem analyzeRecursion_spec (hdistinct : idx.Distinct) :
    ∃ info, analyzeRecursion idx = some info ∧ info.Exact idx := by
  obtain ⟨info, heq, hdirect, hfull⟩ := classifyAliases_spec idx
  have hnodup : idx.classDeclOrder.Nodup := nodup_eraseDups _
  have hedges : nameRef idx.classDeclOrder (classDeps idx info) = classEdge idx := by
    funext a b
    rw [nameRef, mem_classDeclOrder, mem_classDeclOrder, mem_classDeps hdistinct hdirect hfull]
    refine propext ⟨fun h => h.2.2, fun h => ⟨?_, ?_, h⟩⟩
    · obtain ⟨tb, htb, -⟩ := h
      rw [htb]
      rfl
    · obtain ⟨tb, htb, m, hm, hexp⟩ := h
      exact hexp.isClass
  obtain ⟨cycles, hcycles, hmem, -⟩ := nameCycles_spec hnodup (classDeps idx info)
  rw [hedges] at hmem
  refine ⟨⟨info, cycles⟩, by rw [analyzeRecursion, heq]; simp [hcycles], ?_, ?_, ?_, ?_⟩
  · exact invalidAlias_iff hdirect
  · intro a
    rw [structuralAlias_iff hdirect hfull, ← invalidAlias_iff hdirect, Bool.not_eq_true]
    rfl
  · intro c
    rw [RecursionInfo.recursiveClass, contains_eq_mem, decide_eq_true_eq, hmem]
  · exact fun a ha hsize b hab hba => alone_of_cycleSize hfull ha hsize hab hba

/-! ### Cycles -/

section

variable {idx : SchemaTypeIndex} {info : RecursionInfo}

/-- The name of a recursive class, a structural alias or an invalid alias. -/
def RecursionInfo.Marked (info : RecursionInfo) (n : Bytes) : Prop :=
  info.recursiveClass n = true ∨ info.structuralAlias n ∨ info.invalidAlias n

variable (idx info) in
/-- A reference between names that are not marked. -/
def plainEdge (n m : Bytes) : Prop := refEdge idx n m ∧ ¬info.Marked n ∧ ¬info.Marked m

variable {a : Bytes}

theorem RecursionInfo.Exact.not_recursive (h : info.Exact idx) (ha : ¬info.Marked a) :
    ¬RecursiveAlias idx a := by
  intro hrec
  cases hinv : info.invalidAlias a with
  | true => exact ha (.inr (.inr hinv))
  | false => exact ha (.inr (.inl ((h.structural a).mpr ⟨hrec, hinv⟩)))

variable (hdistinct : idx.Distinct)
include hdistinct

variable {m c : Bytes}

theorem refEdge_of_class (hc : (idx.classes c).isSome = true) (h : refEdge idx c m) :
    ∃ tb, idx.classes c = some tb ∧ ∃ f ∈ tb.fields, m ∈ f.type.mentions true := by
  obtain ⟨⟨t, ht, hm⟩, -⟩ := h
  obtain ⟨tb, htb⟩ := Option.isSome_iff_exists.mp hc
  have halias : idx.aliases c = none := by
    by_contra hne
    rw [(hdistinct.alias (Option.isSome_iff_ne_none.mpr hne)).1] at htb
    cases htb
  rw [bodies, htb, halias] at ht
  obtain ⟨f, hf, rfl⟩ := mem_map.mp (by simpa using ht)
  exact ⟨tb, htb, f, hf, hm⟩

theorem refEdge_of_alias (ha : (idx.aliases a).isSome = true) (h : refEdge idx a m) :
    ∃ d, idx.aliases a = some d ∧ m ∈ d.expr.mentions true := by
  obtain ⟨⟨t, ht, hm⟩, -⟩ := h
  obtain ⟨d, hd⟩ := Option.isSome_iff_exists.mp ha
  rw [bodies, hd, (hdistinct.alias ha).1] at ht
  cases mem_singleton.mp (by simpa using ht)
  exact ⟨d, hd, hm⟩

theorem aliasPath (ha : (idx.aliases a).isSome = true) (hpath : TransGen (plainEdge idx info) a m) :
    TransGen (aliasEdge idx true) a m ∧ (idx.aliases m).isSome = true ∨
      ∃ c, (idx.classes c).isSome = true ∧ TransGen (plainEdge idx info) a c ∧
        ReflTransGen (plainEdge idx info) c m := by
  induction hpath with
  | @single y hedge =>
    rcases hedge.1.2 with hy | hy
    · exact .inr ⟨y, hy, .single hedge, .refl⟩
    · obtain ⟨d, hd, hmem⟩ := refEdge_of_alias hdistinct ha hedge.1
      exact .inl ⟨.single ⟨d, hd, hmem, hy⟩, hy⟩
  | @tail y z hpath hedge ih =>
    rcases ih with ⟨hpath', hy⟩ | ⟨c, hc, hac, hcy⟩
    · rcases hedge.1.2 with hz | hz
      · exact .inr ⟨z, hz, hpath.tail hedge, .refl⟩
      · obtain ⟨d, hd, hmem⟩ := refEdge_of_alias hdistinct hy hedge.1
        exact .inl ⟨hpath'.tail ⟨d, hd, hmem, hz⟩, hz⟩
    · exact .inr ⟨c, hc, hac, hcy.tail hedge⟩

variable (h : info.Exact idx)
include h

theorem classEdge_of_plainEdge (hc : (idx.classes c).isSome = true)
    (hedge : plainEdge idx info c m) : ((idx.classes m).isSome = true → classEdge idx c m) ∧
      ∀ d, idx.aliases m = some d → ∀ c', ExpandsTo idx d.expr c' → classEdge idx c c' := by
  obtain ⟨tb, htb, f, hf, hm⟩ := refEdge_of_class hdistinct hc hedge.1
  exact ⟨fun hcls => ⟨tb, htb, f, hf, .cls hm hcls⟩, fun d hd c' hexp =>
    ⟨tb, htb, f, hf, .viaAlias hm hd (h.not_recursive hedge.2.2) hexp⟩⟩

theorem classPath (hc : (idx.classes c).isSome = true) (hpath : TransGen (plainEdge idx info) c m) :
    ((idx.classes m).isSome = true → TransGen (classEdge idx) c m) ∧
      ∀ d, idx.aliases m = some d → ∀ c', ExpandsTo idx d.expr c' →
        TransGen (classEdge idx) c c' := by
  induction hpath with
  | single hedge =>
    obtain ⟨hcls, halias⟩ := classEdge_of_plainEdge hdistinct h hc hedge
    exact ⟨fun hm => .single (hcls hm), fun d hd c' hexp => .single (halias d hd c' hexp)⟩
  | @tail y z hpath hedge ih =>
    have hy : (idx.classes y).isSome = true ∨ (idx.aliases y).isSome = true := by
      obtain ⟨⟨t, ht, -⟩, -⟩ := hedge.1
      rw [bodies] at ht
      cases hcls : idx.classes y with
      | some tb => exact .inl rfl
      | none =>
        cases halias : idx.aliases y with
        | some d => exact .inr rfl
        | none => simp [hcls, halias] at ht
    rcases hy with hy | hy
    · obtain ⟨hcls, halias⟩ := classEdge_of_plainEdge hdistinct h hy hedge
      exact ⟨fun hz => (ih.1 hy).tail (hcls hz),
        fun d hd c' hexp => (ih.1 hy).tail (halias d hd c' hexp)⟩
    obtain ⟨d, hd, hz⟩ := refEdge_of_alias hdistinct hy hedge.1
    exact ⟨fun hcls => ih.2 d hd z (.cls hz hcls), fun e he c' hexp =>
      ih.2 d hd c' (.viaAlias hz he (h.not_recursive hedge.2.2) hexp)⟩

/-- **No cycle without a marked name.** -/
theorem not_plain_cycle {n} (hcyc : TransGen (plainEdge idx info) n n) : False := by
  -- a class on such a cycle would be recursive
  have hclass : ∀ c, (idx.classes c).isSome = true →
      ¬TransGen (plainEdge idx info) c c := by
    intro c hc hcyc
    have hrec := (h.recursive c).mpr ((classPath hdistinct h hc hcyc).1 hc)
    obtain ⟨y, hedge, -⟩ := TransGen.head'_iff.mp hcyc
    exact hedge.2.1 (.inl hrec)
  obtain ⟨y, hyn, hedge⟩ := TransGen.tail'_iff.mp hcyc
  rcases hedge.1.2 with hn | hn
  · exact hclass n hn hcyc
  rcases aliasPath hdistinct hn hcyc with ⟨hrec, -⟩ | ⟨c, hc, hnc, hcn⟩
  · exact h.not_recursive hedge.2.2 hrec
  · exact hclass c hc (hnc.trans_right hcn)

end

theorem plainPath_of_isChain {info : RecursionInfo} {n m : Bytes}
    {rest : List Bytes} (h : List.IsChain (refEdge idx) (n :: (rest ++ [m])))
    (hplain : ∀ x ∈ n :: (rest ++ [m]), ¬info.Marked x) : TransGen (plainEdge idx info) n m := by
  induction rest generalizing n with
  | nil =>
    have hedge : refEdge idx n m := by simpa using h
    exact .single ⟨hedge, hplain n (by simp), hplain m (by simp)⟩
  | cons x rest ih =>
    rw [cons_append, isChain_cons_cons] at h
    rw [cons_append, forall_mem_cons] at hplain
    exact .head ⟨h.1, hplain.1, hplain.2 x mem_cons_self⟩ (ih h.2 hplain.2)

/-- **The analysis is exact and breaks all cycles.** An alias is invalid if it reaches itself through
direct references, structural if it reaches itself otherwise, and a class is recursive if it reaches
itself with recursive aliases left out; every cycle of references has a marked name on it. -/
theorem analyzeRecursion_exact (files : List SourceFile)
    (hdistinct : (buildSchemaTypeIndex files).Distinct) :
    ∃ info, analyzeRecursion (buildSchemaTypeIndex files) = some info ∧
      (∀ a, info.invalidAlias a = true ↔
        Relation.TransGen (aliasEdge (buildSchemaTypeIndex files) false) a a) ∧
      (∀ a, info.structuralAlias a = true ↔
        Relation.TransGen (aliasEdge (buildSchemaTypeIndex files) true) a a ∧
          info.invalidAlias a = false) ∧
      (∀ c, info.recursiveClass c = true ↔
        Relation.TransGen (classEdge (buildSchemaTypeIndex files)) c c) ∧
      ∀ n rest, List.IsChain (refEdge (buildSchemaTypeIndex files)) (n :: (rest ++ [n])) →
        ∃ m ∈ n :: rest, info.Marked m := by
  obtain ⟨info, heq, h⟩ := analyzeRecursion_spec hdistinct
  refine ⟨info, heq, h.invalid, h.structural, h.recursive, fun n rest hchain => ?_⟩
  by_contra hnone
  push Not at hnone
  refine not_plain_cycle hdistinct h (plainPath_of_isChain hchain fun x hx => hnone x ?_)
  simpa [or_comm] using hx

/-- A class with an alias that leads back to it, and a JSON-like alias. -/
def treeFiles : List SourceFile :=
  [some [.cls ⟨"Node", false, [⟨"children", .nameRef [] "Children" false false, []⟩],
      [], false⟩,
    .typeAlias ⟨"Children", .list [] (.nameRef [] "Node" false false) 1, []⟩,
    .typeAlias ⟨"Json", .union [] [.primitive [] "string",
      .list [] (.nameRef [] "Json" false false) 1] false, []⟩]]

theorem analyzeRecursion_exact_tree : let idx := buildSchemaTypeIndex treeFiles
    idx.Distinct ∧ ∃ info, analyzeRecursion idx = some info ∧
      (∀ a, info.invalidAlias a = true ↔ Relation.TransGen (aliasEdge idx false) a a) ∧
      (∀ a, info.structuralAlias a = true ↔
        Relation.TransGen (aliasEdge idx true) a a ∧ info.invalidAlias a = false) ∧
      (∀ c, info.recursiveClass c = true ↔ Relation.TransGen (classEdge idx) c c) ∧
      ∃ m ∈ [bytes "Node", bytes "Children"], info.Marked m := by
  have hdistinct : (buildSchemaTypeIndex treeFiles).Distinct := by
    unfold SchemaTypeIndex.Distinct
    decide +kernel
  obtain ⟨info, heq, hinvalid, hstructural, hrecursive, hbreaks⟩ :=
    analyzeRecursion_exact treeFiles hdistinct
  refine ⟨hdistinct, info, heq, hinvalid, hstructural, hrecursive, hbreaks _ [bytes "Children"] ?_⟩
  simp only [cons_append, nil_append, isChain_cons_cons, refEdge]
  exact ⟨by decide +kernel, by decide +kernel, .singleton _⟩

example : (analyzeRecursion (buildSchemaTypeIndex treeFiles)).any (fun info =>
    info.recursiveClass "Node" && info.structuralAlias "Json" &&
      !info.structuralAlias "Children" && !info.invalidAlias "Json") = true := by
  decide +kernel

end BamlRest.NativeSchema
