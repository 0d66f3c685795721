import BamlRest.Debaml.Fix

/-!
# Where the streaming parser marks a value incomplete

A node is meant to be incomplete only on the rightmost path of the tree, where the input has been
cut off (`Value.spine`). The end of input marks nodes that way.

* `walk`, `quiet`: what the text says about where nodes are cut off.
* `spine_iff_abandonedLast`: when only the rightmost path is incomplete.
-/

namespace BamlRest

open List

namespace Value

mutual

/-- The completion-spine law: a node marked incomplete is the last child of its parent, and its
parent is marked incomplete. -/
def spine : Value → Bool
  | array i vs => spineList i vs
  | object i fs => spineFields i fs
  | null _ | bool _ _ | number _ _ _ | string _ _ => true

def spineList (i : Bool) : List Value → Bool
  | [] => true
  | v :: vs => v.spine && (!v.incomplete || (i && vs.isEmpty)) && spineList i vs

def spineFields (i : Bool) : List Field → Bool
  | [] => true
  | (_, v) :: fs => v.spine && (!v.incomplete || (i && fs.isEmpty)) && spineFields i fs

end

theorem spineFields_eq (i : Bool) (fs) : spineFields i fs = spineList i (fs.map (·.2)) := by
  induction fs with
  | nil => rfl
  | cons f fs ih => simp [spineFields, spineList, ih]

theorem spine_eq (v : Value) : v.spine = spineList v.incomplete v.children := by
  cases v with
  | object i fs => exact spineFields_eq i fs
  | _ => rfl

theorem spineList_append (i : Bool) (vs ws) :
    spineList i (vs ++ ws) = (spineList (i && ws.isEmpty) vs && spineList i ws) := by
  induction vs with
  | nil => simp [spineList]
  | cons v vs ih =>
    have hempty : (vs ++ ws).isEmpty = (ws.isEmpty && vs.isEmpty) := by
      cases vs <;> cases ws <;> rfl
    simp [spineList, ih, hempty, Bool.and_assoc]

variable {vs : List Value}

theorem spineList_of_allComplete (i : Bool)
    (h : ∀ v ∈ vs, v.allComplete → v.spine) (hvs : allCompleteList vs) : spineList i vs := by
  induction vs with
  | nil => rfl
  | cons v vs ih =>
    simp only [allCompleteList, Bool.and_eq_true] at hvs
    simp only [mem_cons, forall_eq_or_imp] at h
    simp [spineList, h.1 hvs.1, incomplete_eq_false_of_allComplete hvs.1, ih h.2 hvs.2]

variable {v : Value}

theorem spine_of_allComplete (h : v.allComplete) : v.spine := by
  induction v using induction with
  | null | bool | number | string => rfl
  | array i vs ih =>
    simp only [allComplete, Bool.and_eq_true] at h
    exact spineList_of_allComplete i ih h.2
  | object i fs ih =>
    simp only [allComplete, Bool.and_eq_true] at h
    rw [spine, spineFields_eq]
    refine spineList_of_allComplete i (fun v hv => ?_) (by rw [← allCompleteFields_eq]; exact h.2)
    obtain ⟨f, hf, rfl⟩ := mem_map.mp hv
    exact ih f hf

theorem spineList_of_complete (i : Bool) (h : allCompleteList vs) : spineList i vs :=
  spineList_of_allComplete i (fun _ _ => spine_of_allComplete) h

theorem spineList_append_incomplete (i : Bool) (ws)
    (hvs : allCompleteList vs) (hs : v.spine) (hi : v.incomplete) :
    spineList i (vs ++ v :: ws) = (i && ws.isEmpty) := by
  rw [spineList_append, spineList_of_complete _ hvs]
  cases ws <;> cases i <;> simp [spineList, hs, hi]

theorem spineList_append_broken (i : Bool) (ws)
    (hs : v.spine = false) : spineList i (vs ++ v :: ws) = false := by
  simp [spineList_append, spineList, hs]

end Value

open Value

/-! ### The scan -/

inductive Frame where
  | object
  | array

def skipSeparators : Bytes → Bytes := List.dropWhile fun c => isWS c || c = ','

/-- After an object has been abandoned at `s`, the containers around it receive nothing more:
the text ends, or the next key is cut off or has no value, or it cannot be read either. -/
def quiet : List Frame → Bytes → Bool
  | [], _ => true
  | .array :: _, s => skipSeparators s = [] || skipSeparators s = ['/']
  | .object :: st, s =>
    match skipSeparators s with
    | [] => true
    | c :: r =>
      if c = '}' then false
      else
        match parseKeyStream (c :: r) with
        | (none, s1) => quiet st s1
        | (some _, s1) =>
          match skipWS s1 with
          | [] => true
          | _ :: s2 => skipWS s2 = []

section

variable (nm : NumMode) (rec : List Frame × Bytes → Bool)

/-- The scan at the first byte of a value: brackets are pushed, a string or a scalar is skipped
with the reader of the parser. -/
def walkValue (st : List Frame) (term : Term) (s : Bytes) : Bool :=
  match s with
  | [] => true
  | c :: r =>
    if c = '{' then rec (.object :: st, r)
    else if c = '[' then rec (.array :: st, r)
    else
      match parseValueStreamF nm (fun _ => none) term (c :: r) with
      | some (_, r') => rec (st, r')
      | none => true

def walkF : List Frame × Bytes → Bool
  | ([], _) => true
  | (f :: st, s) =>
    match skipWS s with
    | [] => true
    | c :: r =>
      if c = ',' then rec (f :: st, r)
      else
        match f with
        | .array =>
          if c = ']' then rec (st, r)
          else if c = '/' ∧ r = [] then true
          else walkValue nm rec (.array :: st) .arrayValue (c :: r)
        | .object =>
          if c = '}' then rec (st, r)
          else
            match parseKeyStream (c :: r) with
            | (none, s1) => quiet st s1
            | (some _, s1) =>
              match skipWS s1 with
              | [] => true
              | _ :: s2 => walkValue nm rec (.object :: st) .objectValue (skipWS s2)

end

def walk (nm : NumMode) (st : List Frame) (s : Bytes) : Bool :=
  fixBy (fun a : List Frame × Bytes => a.2.length) (walkF nm) (fun _ => true) (st, s)

/-- The first object abandoned at an unreadable key, if there is one, is the last thing in the
text. -/
def abandonedLast (nm : NumMode) (s : Bytes) : Bool :=
  walkValue nm (fun a => walk nm a.1 a.2) [] .top (skipWS s)

variable {r s : Bytes}

theorem leaf_length_lt {nm term v}
    (h : parseValueStreamF nm (fun _ => none) term s = some (v, r)) : r.length < s.length := by
  cases s with
  | nil => cases h
  | cons c s =>
    rw [parseValueStreamF] at h
    split_ifs at h
    · simp only [parseDoubleQuotedStream] at h
      split_ifs at h
      · cases h
      · exact Nat.lt_succ_of_le (StrRead.rest_of_value h ▸ readDoubleQuoted_length_le false s)
    · exact Nat.lt_succ_of_le (StrRead.rest_of_value h ▸ readSingleQuoted_length_le s)
    · exact parseUnquotedScalarStream_length_lt h

theorem walkF_congr (nm) {f g : List Frame × Bytes → Bool} {a}
    (h : ∀ b, b.2.length < a.2.length → f b = g b) : walkF nm f a = walkF nm g a := by
  -- a value is scanned from at most the text that is left
  have hvalue : ∀ st term s, s.length ≤ a.2.length →
      walkValue nm f st term s = walkValue nm g st term s := by
    intro st term s hs
    cases s with
    | nil => rfl
    | cons c r =>
      rw [length_cons] at hs
      rw [walkValue, walkValue, h (.object :: st, r) hs, h (.array :: st, r) hs]
      congr 2
      split
      · next v r' hleaf =>
        have hlt := leaf_length_lt hleaf
        rw [length_cons] at hlt
        exact h (st, r') (by simp only; omega)
      · rfl
  obtain ⟨st, s⟩ := a
  cases st with
  | nil => rfl
  | cons fr st =>
    simp only [walkF]
    cases hs : skipWS s with
    | nil => rfl
    | cons c r =>
      have hlen := length_lt_of_skipWS hs
      simp only
      rw [h (fr :: st, r) hlen, h (st, r) hlen]
      congr 1
      cases fr with
      | array => simp only [hvalue _ _ (c :: r) hlen]
      | object =>
        simp only
        congr 1
        have hkey := parseKeyStream_length_le (c :: r)
        simp only [length_cons] at hkey
        split
        · rfl
        next key s1 hk =>
        rw [hk] at hkey
        simp only at hkey
        split
        · rfl
        next c1 s2 hs1 =>
        have hlen1 := length_lt_of_skipWS hs1
        have hlen2 := length_skipWS_le s2
        exact hvalue _ _ _ (by simp only; omega)

theorem walk_eq (nm st s) : walk nm st s = walkF nm (fun a => walk nm a.1 a.2) (st, s) := by
  have heq : ∀ a, fixBy (fun a : List Frame × Bytes => a.2.length) (walkF nm) (fun _ => true) a =
      walkF nm (fun b => walk nm b.1 b.2) a :=
    fixBy_eq_of_shrinking fun _ _ _ h => walkF_congr nm h
  exact heq (st, s)

/-! ### Separators -/

theorem skipSeparators_skipWS (s) : skipSeparators (skipWS s) = skipSeparators s := by
  induction s with
  | nil => rfl
  | cons c r ih =>
    by_cases hc : isWS c
    · rw [skipWS_cons_of_ws hc, ih]
      simp [skipSeparators, hc]
    · rw [skipWS_cons_of_not_ws (Bool.not_eq_true _ ▸ hc)]

theorem skipSeparators_comma (h : skipWS s = ','.toUInt8 :: r) :
    skipSeparators s = skipSeparators r := by
  rw [← skipSeparators_skipWS, h]
  simp [skipSeparators]

theorem skipSeparators_of_skipWS_cons {c} (h : skipWS s = c :: r)
    (hc : c ≠ ',') : skipSeparators s = c :: r := by
  have hws := not_ws_of_skipWS_eq_cons h
  rw [← skipSeparators_skipWS, h]
  simp only [skipSeparators]
  rw [dropWhile_cons_of_neg (by rw [hws, decide_eq_false hc]; decide)]

theorem quiet_of_skipWS_nil (h : skipWS s = []) (st) : quiet st s := by
  have hsep : skipSeparators s = [] := by rw [← skipSeparators_skipWS, h]; rfl
  rcases st with _ | ⟨_ | _, st⟩ <;> simp [quiet, hsep]

@[simp] theorem quiet_nil_text (st) : quiet st [] :=
  quiet_of_skipWS_nil rfl st

theorem walk_of_skipWS_nil {nm} (h : skipWS s = []) (st) : walk nm st s := by
  rw [walk_eq]
  cases st <;> simp [walkF, h]

/-! ### The parser against the scan -/

/-- What the parser returns, against the scan `w` of the same text inside any containers. -/
inductive Outcome (nm : NumMode) (w : List Frame → Bool) (v : Value) (r : Bytes) : Prop where
  /-- a complete value, after which the scan goes on -/
  | finished (complete : v.allComplete) (scan : ∀ st, w st = walk nm st r)
  /-- a value left open, which nothing may follow -/
  | cut (spine : v.spine) (incomplete : v.incomplete) (scan : ∀ st, w st = quiet st r)
  | broken (spine : v.spine = false) (scan : ∀ st, w st = false)

/-- The children collected so far: all complete, or all but the last, which is left open. -/
inductive Gathered : List Value → Prop where
  | complete {us} (h : Value.allCompleteList us) : Gathered us
  | pending {us u} (h : Value.allCompleteList us)
      (spine : u.spine) (incomplete : u.incomplete) : Gathered (us ++ [u])

theorem not_complete_of_pending {us u} (hi : u.incomplete) :
    allCompleteList (us ++ [u]) = false := by
  simp [allCompleteList, allComplete_eq u, hi]

/-- The scan in a container that has collected `us`. -/
def scanIn (nm : NumMode) (f : Frame) (us : List Value) (s : Bytes) (st : List Frame) : Bool :=
  if Value.allCompleteList us then walk nm (f :: st) s else quiet (f :: st) s

def Frame.close : Frame → UInt8
  | .object => '}'
  | .array => ']'

section

variable {nm : NumMode} {f : Frame} {us : List Value} {s r : Bytes} {v : Value}

theorem outcome_open {w : List Frame → Bool} (hacc : Gathered v.children) (hi : v.incomplete)
    (hscan : ∀ st, w st = quiet st r) : Outcome nm w v r := by
  refine .cut ?_ hi hscan
  rw [spine_eq, hi]
  generalize v.children = us at hacc
  cases hacc with
  | complete h => exact spineList_of_complete true h
  | pending h hs hu => exact spineList_append_incomplete true [] h hs hu

theorem scanIn_of_skipWS_nil (hs : skipWS s = []) (st) : scanIn nm f us s st := by
  simp only [scanIn, walk_of_skipWS_nil hs, quiet_of_skipWS_nil hs, ite_self]

theorem outcome_eof (hacc : Gathered v.children) (hi : v.incomplete) (hs : skipWS s = []) :
    Outcome nm (scanIn nm f v.children s) v [] :=
  outcome_open hacc hi fun st => by
    rw [scanIn_of_skipWS_nil hs, quiet_nil_text]

theorem scanIn_comma (hs : skipWS s = ','.toUInt8 :: r) (st) :
    scanIn nm f us s st = scanIn nm f us r st := by
  have hwalk : walk nm (f :: st) s = walk nm (f :: st) r := by
    rw [walk_eq, walkF, hs]
    rfl
  have hquiet : quiet (f :: st) s = quiet (f :: st) r := by
    cases f <;> simp only [quiet, skipSeparators_comma hs]
  rw [scanIn, scanIn, hwalk, hquiet]

theorem outcome_close (hacc : Gathered v.children) (hi : v.incomplete = false)
    (hs : skipWS s = f.close :: r) : Outcome nm (scanIn nm f v.children s) v r := by
  have hall := allComplete_eq v
  have hspine := spine_eq v
  rw [hi] at hall hspine
  generalize v.children = us at *
  cases hacc with
  | complete h =>
    refine .finished (by rw [hall, h]; rfl) fun st => ?_
    rw [scanIn, if_pos h, walk_eq, walkF, hs]
    cases f <;> rfl
  | pending h hu hi =>
    refine .broken (by rw [hspine, spineList_append_incomplete false [] h hu hi]; rfl)
      fun st => ?_
    rw [scanIn, if_neg (by rw [not_complete_of_pending hi]; decide)]
    cases f with
    | object => rw [quiet, skipSeparators_of_skipWS_cons hs (by decide)]; rfl
    | array =>
      rw [quiet, skipSeparators_of_skipWS_cons hs (by decide)]
      cases r <;> rfl

/-! ### The loops -/

def afterChild (f : Frame) (m : Bool → Value) (next : Bytes → Option (Value × Bytes))
    (s : Bytes) : Option (Value × Bytes) :=
  match skipWS s with
  | [] => some (m true, [])
  | c :: r => if c = f.close then some (m false, r) else if c = ',' then next r else none

variable {m : Bool → Value} {next : Bytes → Option (Value × Bytes)}

theorem afterChild_outcome (hmk : ∀ i, (m i).incomplete = i ∧ (m i).children = us)
    (hacc : Gathered us) (hnext : ∀ s', s'.length < s.length → next s' = some (v, r) →
      Outcome nm (scanIn nm f us s') v r)
    (h : afterChild f m next s = some (v, r)) : Outcome nm (scanIn nm f us s) v r := by
  simp only [afterChild] at h
  split at h
  · next hs =>
    cases h
    have hout : Outcome nm (scanIn nm f (m true).children s) (m true) [] :=
      outcome_eof (by rwa [(hmk true).2]) (hmk true).1 hs
    rwa [(hmk true).2] at hout
  next c r' hs =>
  split_ifs at h with hclose hcomma
  · cases h
    have hout : Outcome nm (scanIn nm f (m false).children s) (m false) r :=
      outcome_close (by rwa [(hmk false).2]) (hmk false).1 (hclose ▸ hs)
    rwa [(hmk false).2] at hout
  subst hcomma
  have hout := hnext r' (length_lt_of_skipWS hs) h
  rwa [← funext (scanIn_comma hs)] at hout

theorem afterChild_children (hmk : ∀ i, (m i).children = us)
    (hnext : ∀ s' v r, next s' = some (v, r) → us <+: v.children)
    (h : afterChild f m next s = some (v, r)) : us <+: v.children := by
  simp only [afterChild] at h
  split at h
  · cases h
    exact (hmk true).symm ▸ prefix_rfl
  split_ifs at h
  · cases h
    exact (hmk false).symm ▸ prefix_rfl
  · exact hnext _ v r h

theorem outcome_child {u} {w : List Frame → Bool} {s0} (hacc : Gathered us)
    (hcomplete : allCompleteList us → ∀ st, walk nm (f :: st) s0 = w (f :: st))
    (hquiet : ∀ st, quiet (f :: st) s0 = false) (hu : Outcome nm w u s)
    (hmk : ∀ i, (m i).incomplete = i ∧ (m i).children = us ++ [u])
    (hnext : ∀ s', s'.length < s.length → Gathered (us ++ [u]) → next s' = some (v, r) →
      Outcome nm (scanIn nm f (us ++ [u]) s') v r)
    (hchildren : ∀ s' v r, next s' = some (v, r) → us ++ [u] <+: v.children)
    (h : afterChild f m next s = some (v, r)) : Outcome nm (scanIn nm f us s0) v r := by
  obtain ⟨ws, hws⟩ := afterChild_children (fun i => (hmk i).2) hchildren h
  rw [List.append_assoc, singleton_append] at hws
  cases hacc with
  | pending h' hs hi =>
    -- an open child is followed by another
    refine .broken ?_ fun st => ?_
    · rw [spine_eq, ← hws, List.append_assoc, singleton_append,
        spineList_append_incomplete _ _ h' hs hi, isEmpty_cons, Bool.and_false]
    · rw [scanIn, if_neg (by rw [not_complete_of_pending hi]; decide), hquiet]
  | complete h' =>
    have hscan : ∀ st, scanIn nm f us s0 st = w (f :: st) := fun st => by
      rw [scanIn, if_pos h', hcomplete h']
    rw [funext hscan]
    cases hu with
    | finished hu hw =>
      have hus : allCompleteList (us ++ [u]) := by simp [allCompleteList, h', hu]
      have hout := afterChild_outcome hmk (.complete hus)
        (fun s' hlen hn => hnext s' hlen (.complete hus) hn) h
      have heq : ∀ st, scanIn nm f (us ++ [u]) s st = w (f :: st) := fun st => by
        rw [scanIn, if_pos hus, hw]
      rwa [funext heq] at hout
    | cut hs hi hw =>
      have hout := afterChild_outcome hmk (.pending h' hs hi)
        (fun s' hlen hn => hnext s' hlen (.pending h' hs hi) hn) h
      have heq : ∀ st, scanIn nm f (us ++ [u]) s st = w (f :: st) := fun st => by
        rw [scanIn, if_neg (by rw [not_complete_of_pending hi]; decide), hw]
      rwa [funext heq] at hout
    | broken hs hw =>
      refine .broken ?_ fun st => hw _
      rw [spine_eq, ← hws, spineList_append_broken _ _ hs]

end

def FixCall.children : FixCall → List Value
  | .value _ _ => []
  | .object fs _ => fs.map (·.2)
  | .array vs _ => vs

open FixCall

def FixCall.scan (nm : NumMode) : FixCall → List Frame → Bool
  | .value term s => fun st => walkValue nm (fun a => walk nm a.1 a.2) st term s
  | .object fs s => scanIn nm .object (fs.map (·.2)) s
  | .array vs s => scanIn nm .array vs s

def Keeps (c : FixCall) (x : Option (Value × Bytes)) : Prop :=
  ∀ v r, x = some (v, r) → c.children <+: v.children

theorem streamF_keeps (nm) (g : FixCall → Option (Value × Bytes))
    (hg : ∀ c, Keeps c (g c)) (c) : Keeps c (streamF nm g c) := by
  intro v r h
  cases c with
  | value term s => exact nil_prefix
  | object fs s =>
    simp only [streamF, parseObjectStreamF] at h
    split at h
    · cases h; exact prefix_rfl
    split at h
    · cases h; exact prefix_rfl
    split at h
    · have hkeep := hg _ v r h
      exact hkeep
    split at h
    · cases h; exact prefix_rfl
    next key s1 _ =>
    split at h
    · cases h; exact prefix_rfl
    split at h
    · cases h
    split at h
    · cases h; exact prefix_rfl
    simp only [Option.bind_eq_some_iff, Prod.exists] at h
    obtain ⟨u, s3, -, h⟩ := h
    have hkeep := afterChild_children (f := .object) (m := fun i => .object i (fs ++ [(key, u)]))
      (fun _ => rfl)
      (fun s' => hg (.object (fs ++ [(key, u)]) s')) h
    rw [map_append] at hkeep
    exact (prefix_append _ _).trans hkeep
  | array vs s =>
    simp only [streamF, parseArrayStreamF] at h
    split at h
    · cases h; exact prefix_rfl
    split at h
    · cases h; exact prefix_rfl
    split at h
    · have hkeep := hg _ v r h
      exact hkeep
    split at h
    · cases h; exact prefix_rfl
    simp only [Option.bind_eq_some_iff, Prod.exists] at h
    obtain ⟨u, s3, -, h⟩ := h
    have hkeep := afterChild_children (f := .array) (m := fun i => .array i (vs ++ [u]))
      (fun _ => rfl)
      (fun s' => hg (.array (vs ++ [u]) s')) h
    exact (prefix_append _ _).trans hkeep

theorem streamCall_keeps (nm c) : Keeps c (streamCall nm c) :=
  fixBy_ok (P := Keeps) (by simp [Keeps]) (streamF_keeps nm) c

section

variable {nm : NumMode} {s r : Bytes} {v : Value}

theorem greedyObjectValueTail_outcome {span} (h : greedyObjectValueTail span s = some (v, r)) :
    v.allComplete ∨ (v.spine = true ∧ v.incomplete ∧ r = []) := by
  fun_induction greedyObjectValueTail span s with
  | case1 => cases h; exact .inr ⟨rfl, rfl, rfl⟩
  | case2 | case3 | case4 | case7 => cases h; exact .inl rfl
  | case5 => cases h
  | case6 _ _ _ _ _ ih => exact ih h
  | case8 _ _ _ _ _ ih => exact ih h

variable {term : Term}

theorem scalar_outcome (h : parseUnquotedScalarStream nm term s = some (v, r)) :
    v.allComplete ∨ (v.spine = true ∧ v.incomplete ∧ r = []) := by
  simp only [parseUnquotedScalarStream, Option.bind_eq_some_iff, Prod.exists] at h
  obtain ⟨raw, rest, -, h⟩ := h
  split at h
  · split at h
    · next v' hv' =>
      cases h
      refine .inr ⟨?_, incomplete_markIncomplete v', rfl⟩
      rw [spine_eq, children_markIncomplete, (leaf_of_classifyScalarMode hv').children]
      rfl
    · cases h; exact .inr ⟨rfl, rfl, rfl⟩
  split_ifs at h
  · exact greedyObjectValueTail_outcome h
  obtain ⟨v', hv', he⟩ := Option.map_eq_some_iff.mp h
  cases he
  exact .inl (leaf_of_classifyScalarMode hv').allComplete

theorem leaf_outcome (h : parseValueStreamF nm (fun _ => none) term s = some (v, r)) :
    v.allComplete ∨ (v.spine = true ∧ v.incomplete ∧ r = []) := by
  have hstr : ∀ x : StrRead, x.value = some (v, r) →
      v.allComplete ∨ (v.spine = true ∧ v.incomplete ∧ r = []) := by
    intro x hx
    cases x with
    | err => cases hx
    | closed t r' => cases hx; exact .inl rfl
    | eof t => cases hx; exact .inr ⟨rfl, rfl, rfl⟩
  cases s with
  | nil => cases h
  | cons c s =>
    rw [parseValueStreamF] at h
    split_ifs at h
    · exact hstr _ h
    · exact hstr _ h
    · exact scalar_outcome h

theorem outcome_value (ih : ∀ c, c.size < (value term s).size → Gathered c.children → ∀ v r,
      streamCall nm c = some (v, r) → Outcome nm (c.scan nm) v r)
    (h : streamCall nm (.value term s) = some (v, r)) :
    Outcome nm (FixCall.scan nm (.value term s)) v r := by
  rw [streamCall_eq, streamF] at h
  cases s with
  | nil => cases h
  | cons c r1 =>
    by_cases hobj : c = '{'
    · rw [parseValueStreamF, if_pos hobj] at h
      have hout := ih (.object [] r1) (by simp only [size, length_cons]; omega)
        (.complete rfl) v r h
      have hscan : FixCall.scan nm (.value term (c :: r1)) = FixCall.scan nm (.object [] r1) := by
        funext st
        simp only [FixCall.scan, walkValue, if_pos hobj]
        rfl
      rwa [hscan]
    by_cases harr : c = '['
    · rw [parseValueStreamF, if_neg hobj, if_pos harr] at h
      have hout := ih (.array [] r1) (by simp only [size, length_cons]; omega)
        (.complete rfl) v r h
      have hscan : FixCall.scan nm (.value term (c :: r1)) = FixCall.scan nm (.array [] r1) := by
        funext st
        simp only [FixCall.scan, walkValue, if_neg hobj, if_pos harr]
        rfl
      rwa [hscan]
    have hleaf : parseValueStreamF nm (fun _ => none) term (c :: r1) = some (v, r) := by
      rw [parseValueStreamF, if_neg hobj, if_neg harr] at h ⊢
      exact h
    have hscan : ∀ st, FixCall.scan nm (.value term (c :: r1)) st = walk nm st r := by
      intro st
      simp only [FixCall.scan, walkValue, if_neg hobj, if_neg harr, hleaf]
    rcases leaf_outcome hleaf with hc | ⟨hs, hi, rfl⟩
    · exact .finished hc hscan
    · refine .cut hs hi fun st => ?_
      rw [hscan, walk_of_skipWS_nil rfl, quiet_nil_text]

theorem walk_key (nm) {c r1} (hs : skipWS s = c :: r1)
    (hclose : c ≠ '}') (hcomma : c ≠ ',') (st : List Frame) :
    walk nm (.object :: st) s = match parseKeyStream (c :: r1) with
      | (none, s1) => quiet st s1
      | (some _, s1) =>
        match skipWS s1 with
        | [] => true
        | _ :: s2 => FixCall.scan nm (.value .objectValue (skipWS s2)) (.object :: st) := by
  rw [walk_eq, walkF, hs]
  simp only [if_neg hclose, if_neg hcomma]
  rfl

theorem quiet_key {c r1} (hs : skipWS s = c :: r1) (hclose : c ≠ '}')
    (hcomma : c ≠ ',') (st : List Frame) :
    quiet (.object :: st) s = match parseKeyStream (c :: r1) with
      | (none, s1) => quiet st s1
      | (some _, s1) =>
        match skipWS s1 with
        | [] => true
        | _ :: s2 => decide (skipWS s2 = []) := by
  rw [quiet, skipSeparators_of_skipWS_cons hs hcomma]
  simp only [if_neg hclose]

theorem outcome_object {fs} (hacc : Gathered (fs.map (·.2)))
    (ih : ∀ c, c.size < (object fs s).size → Gathered c.children → ∀ v r,
      streamCall nm c = some (v, r) → Outcome nm (c.scan nm) v r)
    (h : streamCall nm (.object fs s) = some (v, r)) :
    Outcome nm (scanIn nm .object (fs.map (·.2)) s) v r := by
  rw [streamCall_eq, streamF, parseObjectStreamF] at h
  cases hs : skipWS s with
  | nil =>
    simp only [hs] at h
    cases h
    exact outcome_eof (v := .object true fs) hacc rfl hs
  | cons c r1 =>
    have hlen := length_lt_of_skipWS hs
    simp only [hs] at h
    by_cases hclose : c = '}'
    · rw [if_pos hclose] at h
      cases h
      exact outcome_close (v := .object false fs) hacc rfl (by rw [hs, hclose]; rfl)
    by_cases hcomma : c = ','
    · rw [if_neg hclose, if_pos hcomma] at h
      rw [funext (scanIn_comma (hcomma ▸ hs))]
      exact ih (.object fs r1) (by simp only [size]; omega) hacc v r h
    rw [if_neg hclose, if_neg hcomma] at h
    have hwalk := walk_key nm hs hclose hcomma
    have hquiet := quiet_key hs hclose hcomma
    have hlen1 := parseKeyStream_length_le (c :: r1)
    cases hkey : parseKeyStream (c :: r1) with
    | mk key s1 =>
      simp only [hkey, length_cons] at h hwalk hquiet hlen1
      -- an object that is left where both scans agree with `quiet st r'`
      have hopen : ∀ r', some (.object true fs, r') = some (v, r) →
          (∀ st, walk nm (.object :: st) s = quiet st r' ∧ quiet (.object :: st) s = quiet st r') →
          Outcome nm (scanIn nm .object (fs.map (·.2)) s) v r := by
        intro r' he hscan
        cases he
        refine outcome_open (v := .object true fs) hacc rfl fun st => ?_
        rw [scanIn, (hscan st).1, (hscan st).2, ite_self]
      cases key with
      | none => exact hopen s1 h fun st => ⟨hwalk st, hquiet st⟩
      | some key =>
        simp only at h hwalk hquiet
        cases hs1 : skipWS s1 with
        | nil =>
          simp only [hs1] at h hwalk hquiet
          exact hopen [] h fun st => by simp [hwalk, hquiet]
        | cons c1 s2 =>
          have hlen2 := length_lt_of_skipWS hs1
          simp only [hs1] at h hwalk hquiet
          split at h
          · cases h
          cases hs2 : skipWS s2 with
          | nil =>
            simp only [hs2] at h hwalk hquiet
            refine hopen [] h fun st => ?_
            simp [hwalk, hquiet, FixCall.scan, walkValue]
          | cons c2 r2 =>
            have hlen3 := length_lt_of_skipWS hs2
            simp only [hs2, Option.bind_eq_some_iff, Prod.exists] at h hwalk hquiet
            obtain ⟨u, s3, hu, h⟩ := h
            have hlen4 := streamCall_shrinks nm _ u s3 hu
            simp only [text, length_cons] at hlen4
            have hmap : (fs ++ [(key, u)]).map (·.2) = fs.map (·.2) ++ [u] := by simp
            refine outcome_child (f := .object) (m := fun i => .object i (fs ++ [(key, u)])) hacc
              (fun _ => hwalk) (fun st => (hquiet st).trans rfl)
              (ih (.value .objectValue (c2 :: r2))
                (by simp only [size, length_cons]; omega) (.complete rfl) u s3 hu)
              (fun i => ⟨rfl, hmap⟩) (fun s' hlen5 hacc' hn => ?_) (fun s' v r hn => ?_) h
            · have hout := ih (.object (fs ++ [(key, u)]) s')
                (by simp only [FixCall.size]; omega) (by rwa [FixCall.children, hmap]) v r hn
              rwa [FixCall.scan, hmap] at hout
            · have hkeep := streamCall_keeps nm (.object (fs ++ [(key, u)]) s') v r hn
              rwa [FixCall.children, hmap] at hkeep

theorem outcome_array {vs} (hacc : Gathered vs)
    (ih : ∀ c, c.size < (array vs s).size → Gathered c.children → ∀ v r,
      streamCall nm c = some (v, r) → Outcome nm (c.scan nm) v r)
    (h : streamCall nm (.array vs s) = some (v, r)) : Outcome nm (scanIn nm .array vs s) v r := by
  rw [streamCall_eq, streamF, parseArrayStreamF] at h
  cases hs : skipWS s with
  | nil =>
    simp only [hs] at h
    cases h
    exact outcome_eof (v := .array true vs) hacc rfl hs
  | cons c r1 =>
    have hlen := length_lt_of_skipWS hs
    simp only [hs] at h
    by_cases hclose : c = ']'.toUInt8
    · rw [if_pos hclose] at h
      cases h
      exact outcome_close (v := .array false vs) hacc rfl (by rw [hs, hclose]; rfl)
    by_cases hcomma : c = ','.toUInt8
    · rw [if_neg hclose, if_pos hcomma] at h
      rw [funext (scanIn_comma (hcomma ▸ hs))]
      exact ih (.array vs r1) (by simp only [size]; omega) hacc v r h
    rw [if_neg hclose, if_neg hcomma] at h
    have hquiet : ∀ st, quiet (.array :: st) s = decide (c :: r1 = ['/'.toUInt8]) := fun st => by
      rw [quiet, skipSeparators_of_skipWS_cons hs hcomma]
      simp
    have hwalk : ∀ st, walk nm (.array :: st) s = if c = '/'.toUInt8 ∧ r1 = [] then true
        else FixCall.scan nm (.value .arrayValue (c :: r1)) (.array :: st) := fun st => by
      rw [walk_eq, walkF, hs]
      simp only [if_neg hclose, if_neg hcomma]
      rfl
    split at h
    · next hslash =>
      cases h
      refine outcome_open (v := .array true vs) hacc rfl fun st => ?_
      rw [scanIn, hwalk, hquiet, if_pos hslash, quiet_nil_text,
        decide_eq_true (by rw [hslash.1, hslash.2]), ite_self]
    next hslash =>
    simp only [Option.bind_eq_some_iff, Prod.exists] at h
    obtain ⟨u, s3, hu, h⟩ := h
    have hlen4 := streamCall_shrinks nm _ u s3 hu
    simp only [text, length_cons] at hlen4
    refine outcome_child (f := .array) (m := fun i => .array i (vs ++ [u])) hacc
      (fun _ st => by rw [hwalk, if_neg hslash])
      (fun st => by rw [hquiet]; simpa using hslash)
      (ih (.value .arrayValue (c :: r1))
        (by simp only [size, length_cons]; omega) (.complete rfl) u s3 hu)
      (fun i => ⟨rfl, rfl⟩) (fun s' hlen5 hacc' hn => ?_) (fun s' v r hn => ?_) h
    · exact ih (.array (vs ++ [u]) s') (by simp only [size]; omega) hacc' v r hn
    · exact streamCall_keeps nm (.array (vs ++ [u]) s') v r hn

end

/-- **The parser against the scan**, for every call. -/
theorem streamCall_outcome (nm c) {v}
    (hacc : Gathered c.children) (h : streamCall nm c = some (v, r)) : Outcome nm (c.scan nm) v r := by
  induction hn : c.size using Nat.strong_induction_on generalizing c v r with
  | _ n ih =>
    have ih' : ∀ c', c'.size < c.size → Gathered c'.children → ∀ v r,
        streamCall nm c' = some (v, r) → Outcome nm (c'.scan nm) v r :=
      fun c' hc' hacc v r h => ih _ (hn ▸ hc') c' hacc h rfl
    cases c with
    | value term s => exact outcome_value ih' h
    | object fs s => exact outcome_object hacc ih' h
    | array vs s => exact outcome_array hacc ih' h

/-! ### Whole texts -/

/-- **The completion-spine law** holds of the value of a text exactly when the first object
abandoned at an unreadable key, if there is one, is the last thing in the text. -/
theorem spine_iff_abandonedLast (s : Bytes) (nm : NumMode) (v : Value)
    (h : streamFixMode s nm = some v) : v.spine = true ↔ abandonedLast nm s = true := by
  simp only [streamFixMode] at h
  split_ifs at h with hstart
  cases hcall : streamCall nm (.value .top (skipWS s)) with
  | none => simp [hcall] at h
  | some p =>
    obtain ⟨v', r⟩ := p
    simp only [hcall] at h
    split_ifs at h with hr
    cases h
    have hscan : abandonedLast nm s = FixCall.scan nm (.value .top (skipWS s)) [] := rfl
    rw [hscan]
    cases streamCall_outcome nm _ (.complete rfl) hcall with
    | finished hc hw =>
      rw [hw, walk_of_skipWS_nil hr, Value.spine_of_allComplete hc]
    | cut hs _ hw => rw [hw, quiet_of_skipWS_nil hr, hs]
    | broken hs hw => rw [hw, hs]

/-- A text that is cut off in a key keeps the law. -/
theorem spine_iff_abandonedLast_cut :
    streamFix (bytes "\x7b\"a\":[1,\x7bb") = some (.object true [(bytes "a",
        .array true [.number false false (bytes "1"), .object true []])]) ∧
      ((Value.object true [(bytes "a",
          .array true [.number false false (bytes "1"), .object true []])]).spine = true ↔
        abandonedLast .legacy (bytes "\x7b\"a\":[1,\x7bb") = true) :=
  ⟨by decide +kernel, spine_iff_abandonedLast _ .legacy _ (by decide +kernel)⟩

/-- In `[{a,1]` the object is abandoned at the comma; the array goes on, closes, and is complete
with an incomplete first element. -/
theorem spine_violated :
    streamFix (bytes "[\x7ba,1]") =
        some (.array false [.object true [], .number false false (bytes "1")]) ∧
      (Value.array false [.object true [], .number false false (bytes "1")]).spine = false := by
  decide +kernel

end BamlRest
