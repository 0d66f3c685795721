import BamlRest.Schema.Types

/-!
# The indexes of a bundle

A `Bundle` carries maps from keys to positions in its slices. `RebuildIndexes` clears all of them
and then fills them in stages; it stops at the first key that occurs twice. Whatever the maps held
before, afterwards each of them is empty or leads to the one definition with a key.

* `Bundle.rebuildIndexes`, `rebuildDefs`, `memberMaps`: the function and its loops.
* `Tracks`, `Exact`: what a map has while it is filled, and what it leads to in the end.
* `rebuildIndexes_eq_none_iff`: the bundles on which there is no error.
* `rebuildIndexes_coherent`: the maps before and after.
-/

namespace BamlRest.Index

open Function List

/-- A Go map from keys to positions; nil is empty. -/
abbrev PosMap (κ : Type) := κ → Option ℕ

/-- `FindEnum`, `FindClass`, `FindRecursiveAlias` and the lookups of members: nothing, or the
element at a position, or a position out of range. -/
def lookup {α κ : Type} (idx : PosMap κ) (l : List α) (k : κ) : Option (Option (ℕ × α)) :=
  (idx k).map fun i => l[i]?.map (i, ·)

/-- The keys of a list are distinct, and the map leads to the element with each of them. -/
def Exact {α κ : Type} (key : α → κ) (idx : PosMap κ) (l : List α) : Prop :=
  ∀ k, (lookup idx l k = none ∧ ∀ a ∈ l, key a ≠ k) ∨
    ∃ i a, lookup idx l k = some (some (i, a)) ∧ l[i]? = some a ∧ key a = k ∧
      ∀ j a', l[j]? = some a' → key a' = k → j = i

/-- The values of an enum or the fields of a class, with the two maps over them. -/
structure Members (α : Type) where
  items : List α
  byName : PosMap Bytes
  byRendered : PosMap Bytes

structure EnumDef where
  name : Name
  values : Members EnumValue

/-- `ClassDef`. The mode is any string. -/
structure ClassDef where
  name : Name
  mode : Bytes
  fields : Members ClassField

def ClassDef.key (c : ClassDef) : Bytes × Bytes := (c.name.name, c.mode)

def EnumDef.data (e : EnumDef) : Name × List EnumValue := (e.name, e.values.items)

def ClassDef.data (c : ClassDef) : Name × Bytes × List ClassField :=
  (c.name, c.mode, c.fields.items)

/-- `Bundle`, with its maps. -/
structure Bundle where
  enums : List EnumDef
  classes : List ClassDef
  aliases : List RecursiveAliasDef
  enumByName : PosMap Bytes
  classByKey : PosMap (Bytes × Bytes)
  aliasByName : PosMap Bytes

inductive Owner where
  | enum (name : Bytes)
  | cls (name : Bytes)

inductive IndexError where
  | duplicateEnum (name : Bytes)
  | duplicateClass (key : Bytes × Bytes)
  | duplicateAlias (name : Bytes)
  | invalidMode (cls mode : Bytes)
  | duplicateMember (owner : Owner) (name : Bytes)
  | duplicateRendered (owner : Owner) (rendered : Bytes)

/-! ### The loops -/

section

variable {α κ : Type} [DecidableEq κ]

/-- The loop of `rebuildIndexes` over the members of a definition. -/
def memberMaps (owner : Owner) (name : α → Name) (i : ℕ) (byName byRendered : PosMap Bytes) :
    List α → Except IndexError (PosMap Bytes × PosMap Bytes)
  | [] => .ok (byName, byRendered)
  | a :: as =>
    if (byName (name a).name).isSome then .error (.duplicateMember owner (name a).name)
    else if (byRendered (name a).renderedName).isSome then
      .error (.duplicateRendered owner (name a).renderedName)
    else
      memberMaps owner name (i + 1) (update byName (name a).name (some i))
        (update byRendered (name a).renderedName (some i)) as

def Members.clear (m : Members α) : Members α := ⟨m.items, fun _ => none, fun _ => none⟩

/-- `rebuildIndexes` of an enum or a class. -/
def Members.rebuild (owner : Owner) (name : α → Name) (m : Members α) :
    Members α × Option IndexError :=
  match memberMaps owner name 0 (fun _ => none) (fun _ => none) m.items with
  | .error e => (m.clear, some e)
  | .ok (byName, byRendered) => ({ m with byName, byRendered }, none)

/-- A loop of `RebuildIndexes`: the definitions after it, and the map or the error. -/
def rebuildDefs (key : α → κ) (dup : κ → IndexError) (check : α → Option IndexError)
    (rebuild : α → α × Option IndexError) (i : ℕ) (idx : PosMap κ) :
    List α → List α × Except IndexError (PosMap κ)
  | [] => ([], .ok idx)
  | a :: as =>
    match check a with
    | some e => (a :: as, .error e)
    | none =>
      if (idx (key a)).isSome then (a :: as, .error (dup (key a)))
      else
        match rebuild a with
        | (a, some e) => (a :: as, .error e)
        | (a', none) =>
          let (as, r) := rebuildDefs key dup check rebuild (i + 1) (update idx (key a) (some i)) as
          (a' :: as, r)

end

def EnumDef.rebuildIndexes (e : EnumDef) : EnumDef × Option IndexError :=
  let (values, err) := e.values.rebuild (.enum e.name.name) EnumValue.name
  ({ e with values }, err)

def ClassDef.rebuildIndexes (c : ClassDef) : ClassDef × Option IndexError :=
  let (fields, err) := c.fields.rebuild (.cls c.name.name) ClassField.name
  ({ c with fields }, err)

def validateStreamingMode (c : ClassDef) : Option IndexError :=
  if c.mode = "non_streaming" ∨ c.mode = "streaming" then none
  else some (.invalidMode c.name.name c.mode)

/-- `RebuildIndexes`: the bundle after it, and the error. -/
def Bundle.rebuildIndexes (b : Bundle) : Bundle × Option IndexError :=
  let b := { b with
    enumByName := fun _ => none, classByKey := fun _ => none, aliasByName := fun _ => none
    enums := b.enums.map fun e : EnumDef => { e with values := e.values.clear }
    classes := b.classes.map fun c : ClassDef => { c with fields := c.fields.clear } }
  match rebuildDefs (·.name.name) .duplicateEnum (fun _ => none) EnumDef.rebuildIndexes 0
    (fun _ => none) b.enums with
  | (enums, .error e) => ({ b with enums }, some e)
  | (enums, .ok enumByName) =>
    match rebuildDefs ClassDef.key .duplicateClass validateStreamingMode ClassDef.rebuildIndexes 0
      (fun _ => none) b.classes with
    | (classes, .error e) => ({ b with enums, classes }, some e)
    | (classes, .ok classByKey) =>
      match rebuildDefs (·.name) .duplicateAlias (fun _ => none) (fun a => (a, none)) 0
        (fun _ => none) b.aliases with
      | (_, .error e) => ({ b with enums, classes }, some e)
      | (_, .ok aliasByName) =>
        ({ b with enums, classes, enumByName, classByKey, aliasByName }, none)

/-! ### What a map leads to -/

section

variable {α κ : Type} {key : α → κ} {idx : PosMap κ} {l : List α}

/-- The map has the positions of the elements, by their keys. -/
def Tracks (key : α → κ) (idx : PosMap κ) (l : List α) : Prop :=
  ∀ k i, idx k = some i ↔ l[i]?.map key = some k

theorem Tracks.exact (h : Tracks key idx l) : Exact key idx l := by
  intro k
  cases hk : idx k with
  | none =>
    refine .inl ⟨by simp [lookup, hk], fun a ha heq => ?_⟩
    obtain ⟨i, hi⟩ := mem_iff_getElem?.mp ha
    have hi' := (h k i).mpr (by simp [hi, heq])
    rw [hk] at hi'
    cases hi'
  | some i =>
    obtain ⟨a, ha, hkey⟩ := Option.map_eq_some_iff.mp ((h k i).mp hk)
    refine .inr ⟨i, a, by simp [lookup, hk, ha], ha, hkey, fun j a' ha' hkey' => ?_⟩
    have hj := (h k j).mpr (by simp [ha', hkey'])
    rw [hk] at hj
    exact (Option.some.inj hj).symm

theorem Tracks.snoc [DecidableEq κ] {a : α} (h : Tracks key idx l) (hnew : ¬(idx (key a)).isSome) :
    Tracks key (update idx (key a) (some l.length)) (l ++ [a]) := by
  intro k i
  have hk := h k i
  rw [Option.not_isSome_iff_eq_none] at hnew
  -- the new key is at no position before the last, and the others keep theirs
  by_cases heq : k = key a
  · grind [update_self]
  · grind [update_of_ne]

theorem tracks_nil : Tracks key (fun _ => none) [] := fun k i => by simp

end

/-- Both maps are exact. -/
def Members.Indexed {α : Type} (name : α → Name) (m : Members α) : Prop :=
  Exact (fun a => (name a).name) m.byName m.items ∧
    Exact (fun a => (name a).renderedName) m.byRendered m.items

/-- Both maps are exact, or no lookup finds anything. -/
def Members.Sound {α : Type} (name : α → Name) (m : Members α) : Prop :=
  m.Indexed name ∨ ∀ k, lookup m.byName m.items k = none ∧ lookup m.byRendered m.items k = none

section

variable {α κ : Type} {name : α → Name}

theorem Members.sound_clear (m : Members α) : m.clear.Sound name :=
  .inr fun _ => ⟨rfl, rfl⟩

/-- Run lemma of the member loop: both maps hold the positions of all members so far. -/
theorem memberMaps_tracks {owner byName byRendered r} (done as)
    (hname : Tracks (fun a => (name a).name) byName done)
    (hrendered : Tracks (fun a => (name a).renderedName) byRendered done)
    (h : memberMaps owner name done.length byName byRendered as = .ok r) :
    Tracks (fun a => (name a).name) r.1 (done ++ as) ∧
      Tracks (fun a => (name a).renderedName) r.2 (done ++ as) := by
  induction as generalizing done byName byRendered with
  | nil =>
    cases h
    rw [append_nil]
    exact ⟨hname, hrendered⟩
  | cons a as ih =>
    rw [memberMaps] at h
    split_ifs at h with hdup hdup'
    have hrest := ih (done ++ [a]) (hname.snoc hdup) (hrendered.snoc hdup')
    rw [length_append, append_assoc] at hrest
    exact hrest h

/-- The members stay, and the maps are exact or empty. -/
theorem Members.rebuild_spec (owner) (name : α → Name) (m : Members α) :
    (m.rebuild owner name).1.items = m.items ∧ (m.rebuild owner name).1.Sound name ∧
      ((m.rebuild owner name).2 = none → (m.rebuild owner name).1.Indexed name) := by
  rw [rebuild]
  split
  · exact ⟨rfl, m.sound_clear, nofun⟩
  rename_i hok
  have htracks := memberMaps_tracks [] m.items tracks_nil tracks_nil hok
  have hindexed := And.intro htracks.1.exact htracks.2.exact
  exact ⟨rfl, .inl hindexed, fun _ => hindexed⟩

/-- What the rebuilding of one definition does: it keeps the key and the rest of the data, leaves
no stale map, and without an error it has indexed the definition. -/
structure Keeps {β : Type} (key : α → κ) (rebuild : α → α × Option IndexError) (data : α → β)
    (Sound Indexed : α → Prop) : Prop where
  key : ∀ a, key (rebuild a).1 = key a
  data : ∀ a, data (rebuild a).1 = data a
  sound : ∀ a, Sound (rebuild a).1
  indexed : ∀ a, (rebuild a).2 = none → Indexed (rebuild a).1

/-- The loops: what one rebuilding does holds of all, and without an error the map is complete. -/
theorem rebuildDefs_spec [DecidableEq κ] {β : Type} {key : α → κ} {dup check rebuild} {data : α → β}
    {Sound Indexed : α → Prop} (hkeeps : Keeps key rebuild data Sound Indexed) (done as : List α)
    {idx : PosMap κ} {as' r} (htracks : Tracks key idx done) (has : ∀ a ∈ as, Sound a)
    (h : rebuildDefs key dup check rebuild done.length idx as = (as', r)) :
    as'.map data = as.map data ∧ (∀ a ∈ as', Sound a) ∧
      ∀ idx', r = .ok idx' → Tracks key idx' (done ++ as') ∧ ∀ a ∈ as', Indexed a := by
  induction as generalizing done idx as' with
  | nil =>
    cases h
    exact ⟨rfl, has, fun idx' h => by cases h; simpa using htracks⟩
  | cons a as ih =>
    rw [rebuildDefs] at h
    split at h
    · cases h
      exact ⟨rfl, has, nofun⟩
    split_ifs at h with hdup
    · cases h
      exact ⟨rfl, has, nofun⟩
    have hdata := hkeeps.data a
    have hsound := hkeeps.sound a
    have hindexed := hkeeps.indexed a
    have htail : ∀ b ∈ as, Sound b := fun b hb => has b (mem_cons_of_mem a hb)
    have hsnoc := hkeeps.key a ▸ htracks.snoc (a := (rebuild a).1) (by rwa [hkeeps.key])
    rcases hrebuild : rebuild a with ⟨a', - | e⟩
    · rw [hrebuild] at h hdata hsound hindexed hsnoc
      cases h
      obtain ⟨hrest, hsounds, hok⟩ :=
        ih (done ++ [a']) hsnoc htail (by rw [length_append, length_singleton])
      refine ⟨by simp [hrest, hdata], by simpa using ⟨hsound, hsounds⟩, fun idx' hidx => ?_⟩
      have := hok idx' hidx
      exact ⟨by simpa using this.1, by simpa using ⟨hindexed rfl, this.2⟩⟩
    rw [hrebuild] at h hdata hsound
    cases h
    exact ⟨by simp [hdata], by simpa using ⟨hsound, htail⟩, nofun⟩

end

theorem EnumDef.keeps : Keeps (fun e : EnumDef => e.name.name) EnumDef.rebuildIndexes EnumDef.data
    (·.values.Sound EnumValue.name) (·.values.Indexed EnumValue.name) where
  key := fun _ => rfl
  data := fun e => congrArg (e.name, ·) (e.values.rebuild_spec (.enum e.name.name) EnumValue.name).1
  sound := fun e => (e.values.rebuild_spec (.enum e.name.name) EnumValue.name).2.1
  indexed := fun e => (e.values.rebuild_spec (.enum e.name.name) EnumValue.name).2.2

theorem ClassDef.keeps : Keeps ClassDef.key ClassDef.rebuildIndexes ClassDef.data
    (·.fields.Sound ClassField.name) (·.fields.Indexed ClassField.name) where
  key := fun _ => rfl
  data := fun c =>
    congrArg (c.name, c.mode, ·) (c.fields.rebuild_spec (.cls c.name.name) ClassField.name).1
  sound := fun c => (c.fields.rebuild_spec (.cls c.name.name) ClassField.name).2.1
  indexed := fun c => (c.fields.rebuild_spec (.cls c.name.name) ClassField.name).2.2

/-! ### When a rebuild succeeds -/

section

variable {α κ : Type} {key : α → κ} {name : α → Name} {idx : PosMap κ} {done : List α}

theorem Tracks.isSome_iff (h : Tracks key idx done) (k) : (idx k).isSome ↔ k ∈ done.map key := by
  rw [Option.isSome_iff_exists, mem_iff_getElem?]
  simp only [getElem?_map]
  exact exists_congr (h k)

theorem Tracks.nodup (h : Tracks key idx done) : (done.map key).Nodup := by
  refine nodup_iff_getElem?_ne_getElem?.mpr fun i j hij hj heq => ?_
  obtain ⟨k, hk⟩ : ∃ k, (done.map key)[j]? = some k := ⟨_, getElem?_eq_getElem hj⟩
  have hj' := (h k j).mpr (by rw [← getElem?_map, hk])
  have hi' := (h k i).mpr (by rw [← getElem?_map, heq, hk])
  rw [hi'] at hj'
  exact absurd (Option.some.inj hj') hij.ne

/-- A key that is there already occurs twice. -/
theorem Tracks.not_nodup (h : Tracks key idx done) {a as} (ha : (idx (key a)).isSome) :
    ¬((done ++ a :: as).map key).Nodup := by
  rw [map_append, map_cons]
  exact fun hnodup => (nodup_append.mp hnodup).2.2 _ ((h.isSome_iff _).mp ha) _ mem_cons_self rfl

/-- No two members have the same name, and no two the same rendered name. -/
def DistinctNames (name : α → Name) (as : List α) : Prop :=
  (as.map fun a => (name a).name).Nodup ∧ (as.map fun a => (name a).renderedName).Nodup

theorem memberMaps_eq_ok_iff {owner byName byRendered} (done as)
    (hname : Tracks (fun a => (name a).name) byName done)
    (hrendered : Tracks (fun a => (name a).renderedName) byRendered done) :
    (∃ r, memberMaps owner name done.length byName byRendered as = .ok r) ↔
      DistinctNames name (done ++ as) := by
  induction as generalizing done byName byRendered with
  | nil =>
    rw [append_nil]
    exact iff_of_true ⟨_, rfl⟩ ⟨hname.nodup, hrendered.nodup⟩
  | cons a as ih =>
    rw [memberMaps]
    split_ifs with hdup hdup'
    · exact iff_of_false nofun fun h => hname.not_nodup hdup h.1
    · exact iff_of_false nofun fun h => hrendered.not_nodup hdup' h.2
    have hrest := @ih _ _ (done ++ [a]) (hname.snoc hdup) (hrendered.snoc hdup')
    rwa [length_append, append_assoc] at hrest

/-- The maps of an owner are rebuilt just when its members have distinct names. -/
theorem Members.rebuild_eq_none_iff (owner) (m : Members α) :
    (m.rebuild owner name).2 = none ↔ DistinctNames name m.items := by
  have hiff := @memberMaps_eq_ok_iff _ name owner _ _ [] m.items tracks_nil tracks_nil
  rw [nil_append] at hiff
  rw [← hiff, rebuild]
  cases memberMaps owner name 0 (fun _ => none) (fun _ => none) m.items <;> simp

/-- The loop over definitions ends well just when no key repeats and each definition passes. -/
theorem rebuildDefs_eq_ok_iff [DecidableEq κ] {dup check} {rebuild : α → α × Option IndexError}
    (done as) (h : Tracks key idx done) :
    (∃ idx', (rebuildDefs key dup check rebuild done.length idx as).2 = .ok idx') ↔
      ((done ++ as).map key).Nodup ∧ ∀ a ∈ as, check a = none ∧ (rebuild a).2 = none := by
  induction as generalizing done idx with
  | nil =>
    rw [append_nil]
    exact iff_of_true ⟨_, rfl⟩ ⟨h.nodup, nofun⟩
  | cons a as ih =>
    rw [rebuildDefs]
    cases hcheck : check a with
    | some e => exact iff_of_false nofun fun ⟨_, h⟩ => by simp [hcheck] at h
    | none =>
      dsimp only
      split_ifs with hdup
      · exact iff_of_false nofun fun hall => h.not_nodup hdup hall.1
      rcases hrebuild : rebuild a with ⟨a', - | e⟩
      · have hrest := ih (done ++ [a]) (h.snoc hdup)
        rw [length_append, append_assoc] at hrest
        simpa [hcheck, hrebuild] using hrest
      · exact iff_of_false nofun fun ⟨_, h⟩ => by simp [hrebuild] at h

end

/-- The keys of the definitions and the names of their members occur once each, and the modes are
known. -/
structure Bundle.Distinct (b : Bundle) : Prop where
  enums : (b.enums.map (·.name.name)).Nodup
  values : ∀ e ∈ b.enums, DistinctNames EnumValue.name e.values.items
  classes : (b.classes.map ClassDef.key).Nodup
  modes : ∀ c ∈ b.classes, validateStreamingMode c = none
  fields : ∀ c ∈ b.classes, DistinctNames ClassField.name c.fields.items
  aliases : (b.aliases.map (·.name)).Nodup

theorem rebuildIndexes_eq_none_iff (b : Bundle) : b.rebuildIndexes.2 = none ↔ b.Distinct := by
  have henums := @rebuildDefs_eq_ok_iff _ _ (fun e : EnumDef => e.name.name) _ _ .duplicateEnum
    (fun _ => none) EnumDef.rebuildIndexes []
    (b.enums.map fun e => { e with values := e.values.clear }) tracks_nil
  have hclasses := @rebuildDefs_eq_ok_iff _ _ ClassDef.key _ _ .duplicateClass validateStreamingMode
    ClassDef.rebuildIndexes [] (b.classes.map fun c => { c with fields := c.fields.clear })
    tracks_nil
  have haliases := @rebuildDefs_eq_ok_iff _ _ RecursiveAliasDef.name _ _ .duplicateAlias
    (fun _ => none) (fun a => (a, none)) [] b.aliases tracks_nil
  simp only [nil_append, map_map, forall_mem_map, length_nil] at henums hclasses haliases
  have hvalues : ∀ e : EnumDef, (EnumDef.rebuildIndexes { e with values := e.values.clear }).2 =
      none ↔ DistinctNames EnumValue.name e.values.items :=
    fun e => e.values.clear.rebuild_eq_none_iff _
  have hfields : ∀ c : ClassDef, (ClassDef.rebuildIndexes { c with fields := c.fields.clear }).2 =
      none ↔ DistinctNames ClassField.name c.fields.items :=
    fun c => c.fields.clear.rebuild_eq_none_iff _
  have hmodes : ∀ c : ClassDef, validateStreamingMode { c with fields := c.fields.clear } =
      validateStreamingMode c := fun _ => rfl
  simp only [hvalues, hfields, hmodes, true_and] at henums hclasses
  have hall : b.rebuildIndexes.2 = none ↔
      (∃ idx, (rebuildDefs (·.name.name) .duplicateEnum (fun _ => none) EnumDef.rebuildIndexes 0
        (fun _ => none) (b.enums.map fun e => { e with values := e.values.clear })).2 = .ok idx) ∧
      (∃ idx, (rebuildDefs ClassDef.key .duplicateClass validateStreamingMode
        ClassDef.rebuildIndexes 0 (fun _ => none)
        (b.classes.map fun c => { c with fields := c.fields.clear })).2 = .ok idx) ∧
      ∃ idx, (rebuildDefs RecursiveAliasDef.name .duplicateAlias (fun _ => none)
        (fun a => (a, none)) 0 (fun _ => none) b.aliases).2 = .ok idx := by
    unfold Bundle.rebuildIndexes
    dsimp only
    split
    · next heq => simp [heq]
    next heq =>
    split
    · next heq' => simp [heq']
    next heq' =>
    split
    · next heq'' => simp [heq'']
    · next heq'' => simp [heq, heq', heq'']
  rw [hall, henums, hclasses, haliases]
  exact ⟨fun ⟨⟨h1, h2⟩, ⟨h3, h4⟩, h5⟩ => ⟨h1, h2, h3, fun c hc => (h4 c hc).1,
    fun c hc => (h4 c hc).2, h5.1⟩, fun h => ⟨⟨h.enums, h.values⟩, ⟨h.classes, fun c hc =>
      ⟨h.modes c hc, h.fields c hc⟩⟩, h.aliases, fun _ _ => ⟨trivial, trivial⟩⟩⟩

/-- **The indexes are coherent.** A rebuild changes nothing but the maps. It succeeds exactly when the
keys and names are distinct and the modes known, and then each map leads to the one definition with a
key. With an error the maps of the bundle are empty, and each
other map is exact or empty. -/
theorem rebuildIndexes_coherent (b : Bundle) : let b' := b.rebuildIndexes.1
    (b'.enums.map EnumDef.data = b.enums.map EnumDef.data ∧
      b'.classes.map ClassDef.data = b.classes.map ClassDef.data ∧ b'.aliases = b.aliases) ∧
    (b.rebuildIndexes.2 = none ↔ b.Distinct) ∧
    (b.rebuildIndexes.2 = none →
      Exact (·.name.name) b'.enumByName b'.enums ∧ Exact ClassDef.key b'.classByKey b'.classes ∧
        Exact (·.name) b'.aliasByName b'.aliases ∧
        (∀ e ∈ b'.enums, e.values.Indexed EnumValue.name) ∧
        ∀ c ∈ b'.classes, c.fields.Indexed ClassField.name) ∧
    (b.rebuildIndexes.2 ≠ none →
      (∀ k, lookup b'.enumByName b'.enums k = none) ∧
        (∀ k, lookup b'.classByKey b'.classes k = none) ∧
        (∀ k, lookup b'.aliasByName b'.aliases k = none) ∧
        (∀ e ∈ b'.enums, e.values.Sound EnumValue.name) ∧
        ∀ c ∈ b'.classes, c.fields.Sound ClassField.name) := by
  have hclear : ∀ c ∈ b.classes.map fun c => { c with fields := c.fields.clear },
      c.fields.Sound ClassField.name := forall_mem_map.mpr fun c _ => c.fields.sound_clear
  have henums := fun as r => @rebuildDefs_spec _ _ _ _ _ .duplicateEnum (fun _ => none) _ _ _ _
    EnumDef.keeps [] (b.enums.map fun e => { e with values := e.values.clear }) _ as r tracks_nil
    (forall_mem_map.mpr fun e _ => e.values.sound_clear)
  have hclasses := fun as r => @rebuildDefs_spec _ _ _ _ _ .duplicateClass validateStreamingMode
    _ _ _ _ ClassDef.keeps [] _ _ as r tracks_nil hclear
  have haliases := fun as r => @rebuildDefs_spec _ _ _ _ RecursiveAliasDef.name .duplicateAlias
    (fun _ => none) (fun a => (a, none)) id (fun _ => True) (fun _ => True)
    ⟨fun _ => rfl, fun _ => rfl, fun _ => trivial, fun _ _ => trivial⟩ [] b.aliases _ as r
    tracks_nil (fun _ _ => trivial)
  simp only [map_map, map_id] at henums hclasses haliases
  rw [and_left_comm]
  refine ⟨rebuildIndexes_eq_none_iff b, ?_⟩
  unfold Bundle.rebuildIndexes
  dsimp only
  split
  · next heq =>
    obtain ⟨hsame, hsound, -⟩ := henums _ _ heq
    refine ⟨⟨hsame, by rw [map_map]; rfl, rfl⟩, nofun, fun _ => ?_⟩
    exact ⟨fun _ => rfl, fun _ => rfl, fun _ => rfl, hsound, hclear⟩
  next heq =>
  obtain ⟨hsame, hsound, hexact⟩ := henums _ _ heq
  split
  · next heq' =>
    obtain ⟨hsame', hsound', -⟩ := hclasses _ _ heq'
    refine ⟨⟨hsame, hsame', rfl⟩, nofun, fun _ => ?_⟩
    exact ⟨fun _ => rfl, fun _ => rfl, fun _ => rfl, hsound, hsound'⟩
  next heq' =>
  obtain ⟨hsame', hsound', hexact'⟩ := hclasses _ _ heq'
  split
  · refine ⟨⟨hsame, hsame', rfl⟩, nofun, fun _ => ?_⟩
    exact ⟨fun _ => rfl, fun _ => rfl, fun _ => rfl, hsound, hsound'⟩
  next heq'' =>
  obtain ⟨rfl, -, hexact''⟩ := haliases _ _ heq''
  exact ⟨⟨hsame, hsame', rfl⟩, fun _ => ⟨(hexact _ rfl).1.exact, (hexact' _ rfl).1.exact,
    (hexact'' _ rfl).1.exact, (hexact _ rfl).2, (hexact' _ rfl).2⟩, fun hne => absurd rfl hne⟩

end BamlRest.Index
