import BamlRest.Bamlutils.OrderedJson
import BamlRest.Debaml.Strict
import BamlRest.Text.Quote

/-!
# The JSON library of the standard library

A library that reads and writes by the grammar of `encoding/json`, without a limit on the depth. It
shows that the laws which the JSON library is trusted with can be met, and it runs.
-/

namespace BamlRest

open List

def spanValue (s : Bytes) : Option (Bytes × Bytes) :=
  match nextToken .topValue [] s with
  | .token t d => (decodeCall .legacy (.token t d)).map fun p =>
      (s.take (s.length - p.2.rest.length), p.2.rest)
  | _ => none

def spanMember : Bytes → Option ((Bytes × Bytes) × Bytes)
  | [] => none
  | q :: s =>
    if q = '"' then
      (scanString .body s).bind fun p => (unquote p.1).bind fun key =>
        match skipWS p.2 with
        | [] => none
        | c :: r =>
          if c = ':' then (spanValue (skipWS r)).map fun v => ((key, v.1), v.2) else none
    else none

/-- What follows the last item: the closing bracket and white space. -/
def atEnd (close : UInt8) (s : Bytes) : Bool :=
  match skipWS s with
  | [] => false
  | c :: r => c = close && skipWS r = []

section

variable {α : Type} (span : Bytes → Option (α × Bytes)) (close : UInt8)

/-- One or more items with commas between them, up to the closing bracket. -/
def readItems : ℕ → Bytes → Option (List α)
  | 0, _ => none
  | n + 1, s =>
    match span (skipWS s) with
    | none => none
    | some (a, r) =>
      if atEnd close r then some [a]
      else
        match skipWS r with
        | [] => none
        | c :: r' => if c = ',' then (readItems n r').map (a :: ·) else none

def readBracketed (opening : UInt8) (s : Bytes) : Option (List α) :=
  match skipWS s with
  | [] => none
  | c :: r =>
    if c = opening then
      if atEnd close r then some [] else readItems span close r.length r
    else none

end

def stdJson : JsonLibrary where
  valid := jsonValid
  members := readBracketed spanMember '}' '{'
  elements := readBracketed spanValue ']' '['
  quote := quote
  unquote raw :=
    match strictDecode raw with
    | some (.string _ s) => some s
    | _ => none
  IsKey s := validUtf8 s = true
  depth := List.length
  maxDepth := ⊤

/-! ### Items are inside -/

variable {s : Bytes}

theorem length_of_spanValue {raw r} (h : spanValue s = some (raw, r)) :
    raw.length ≤ s.length ∧ r.length ≤ s.length := by
  unfold spanValue at h
  cases htok : nextToken .topValue [] s with
  | eof => rw [htok] at h; cases h
  | error => rw [htok] at h; cases h
  | token t d =>
    rw [htok] at h
    obtain ⟨⟨v, d'⟩, hdec, heq⟩ := Option.map_eq_some_iff.mp h
    cases heq
    have hlt := (tokenRead_of_nextToken htok).length_lt
    have hle := decodeCall_shrinks .legacy (.token t d) v d' hdec
    change d'.rest.length ≤ d.rest.length at hle
    refine ⟨?_, by dsimp only; omega⟩
    rw [length_take]
    exact Nat.min_le_right _ _

theorem length_of_spanMember {r m} (h : spanMember s = some (m, r)) :
    validUtf8 m.1 ∧ m.2.length ≤ s.length ∧ r.length ≤ s.length := by
  cases s with
  | nil => cases h
  | cons q s =>
    rw [spanMember] at h
    split_ifs at h with hq
    simp only [Option.bind_eq_some_iff] at h
    obtain ⟨⟨raw, r1⟩, hscan, key, hkey, h⟩ := h
    obtain ⟨rfl, -⟩ := scanString_eq_some_iff.mp hscan
    cases hr1 : skipWS r1 with
    | nil => rw [hr1] at h; cases h
    | cons c r2 =>
      rw [hr1] at h
      dsimp only at h
      split_ifs at h with hc
      obtain ⟨v, hv, heq⟩ := Option.map_eq_some_iff.mp h
      cases heq
      have h1 := length_of_spanValue hv
      have h2 := length_skipWS_le r2
      have h3 := length_skipWS_le r1
      rw [hr1] at h3
      simp only [length_cons, length_append] at h3 ⊢
      exact ⟨validUtf8_of_unquote hkey, by omega, by omega⟩

section

variable {α : Type} {span : Bytes → Option (α × Bytes)} {close : UInt8}

variable {as : List α}

theorem exists_span_of_readItems (hspan : ∀ {s a r}, span s = some (a, r) → r.length ≤ s.length)
    {n : ℕ} {s} (h : readItems span close n s = some as) :
    ∀ a ∈ as, ∃ s' r, s'.length ≤ s.length ∧ span s' = some (a, r) := by
  induction n generalizing s as with
  | zero => cases h
  | succ n ih =>
    rw [readItems] at h
    have hskip := length_skipWS_le s
    cases hs : span (skipWS s) with
    | none => rw [hs] at h; cases h
    | some p =>
      obtain ⟨a, r⟩ := p
      rw [hs] at h
      dsimp only at h
      have hr := hspan hs
      split_ifs at h with hend
      · cases h
        simp only [mem_singleton, forall_eq]
        exact ⟨_, r, hskip, hs⟩
      have hskip' := length_skipWS_le r
      cases hr' : skipWS r with
      | nil => rw [hr'] at h; cases h
      | cons c r' =>
        rw [hr'] at h hskip'
        dsimp only at h
        split_ifs at h
        obtain ⟨as', has', rfl⟩ := Option.map_eq_some_iff.mp h
        simp only [mem_cons, forall_eq_or_imp]
        refine ⟨⟨_, r, hskip, hs⟩, fun b hb => ?_⟩
        obtain ⟨s', r'', hlen, hspan'⟩ := ih has' b hb
        simp only [length_cons] at hskip'
        exact ⟨s', r'', by omega, hspan'⟩

theorem exists_span_of_readBracketed
    (hspan : ∀ {s a r}, span s = some (a, r) → r.length ≤ s.length) {opening s} (h : readBracketed span close opening s = some as) :
    0 < s.length ∧ ∀ a ∈ as, ∃ s' r, s'.length < s.length ∧ span s' = some (a, r) := by
  unfold readBracketed at h
  have hskip := length_skipWS_le s
  cases hs : skipWS s with
  | nil => rw [hs] at h; cases h
  | cons c r =>
    rw [hs] at h hskip
    simp only [length_cons] at hskip
    dsimp only at h
    split_ifs at h
    · cases h
      exact ⟨by omega, fun _ h => absurd h not_mem_nil⟩
    refine ⟨by omega, fun a ha => ?_⟩
    obtain ⟨s', r', hlen, hspan'⟩ := exists_span_of_readItems hspan h a ha
    exact ⟨s', r', by omega, hspan'⟩

/-! ### Items are read back -/

/-- Texts of items, as they are read in front of anything that can follow an item. -/
def Spans (span : Bytes → Option (α × Bytes)) (text : Bytes) (a : α) : Prop :=
  (∃ b s, text = b :: s ∧ isWS b = false ∧ b ≠ ']' ∧ b ≠ '}') ∧
    ∀ r, Follow r → span (text ++ r) = some (a, r)

theorem follow_close (hclose : close = ']' ∨ close = '}') (r) : Follow (close :: r) := by
  rcases hclose with rfl | rfl
  · exact follow_cons_delim (by simp) r
  · exact follow_cons_delim (by simp) r

theorem atEnd_close (hclose : close = ']' ∨ close = '}') : atEnd close [close] := by
  rcases hclose with rfl | rfl <;> rfl

theorem atEnd_cons {b} (hb : isWS b = false) (hne : b ≠ close) (r) :
    atEnd close (b :: r) = false := by
  rw [atEnd, skipWS_cons_of_not_ws hb]
  simp [hne]

theorem readItems_join (hclose : close = ']' ∨ close = '}') {text : α → Bytes} (hne : as ≠ []) (h : ∀ a ∈ as, Spans span (text a) a) {n : ℕ}
    (hn : as.length ≤ n) :
    readItems span close n (joinWith "," (as.map text) ++ [close]) = some as := by
  induction as generalizing n with
  | nil => exact absurd rfl hne
  | cons a as ih =>
    obtain ⟨n, rfl⟩ : ∃ m, n = m + 1 := ⟨n - 1, by rw [length_cons] at hn; omega⟩
    simp only [mem_cons, forall_eq_or_imp] at h
    obtain ⟨⟨b, s, htext, hb, -⟩, hspan⟩ := h.1
    -- what stands before a follower is one item
    have hread : ∀ r, Follow r → span (skipWS (text a ++ r)) = some (a, r) := by
      intro r hr
      rw [htext, cons_append, skipWS_cons_of_not_ws hb, ← cons_append, ← htext, hspan r hr]
    rw [readItems]
    cases as with
    | nil =>
      change (match span (skipWS (text a ++ [close])) with
        | none => none
        | some (a, r) => _) = _
      rw [hread _ (follow_close hclose [])]
      dsimp only
      rw [if_pos (atEnd_close hclose)]
    | cons a' as =>
      have hcomma : ',' ≠ close := by rcases hclose with rfl | rfl <;> decide
      have hjoin : joinWith "," ((a :: a' :: as).map text) ++ [close] =
          text a ++ ','.toUInt8 :: (joinWith "," ((a' :: as).map text) ++ [close]) := by
        simp only [map_cons, joinWith, List.append_assoc]
        rfl
      rw [hjoin, hread _ (follow_cons_delim (by simp) _)]
      dsimp only
      rw [atEnd_cons (by decide) hcomma, if_neg (by simp), skipWS_cons_of_not_ws (by decide)]
      dsimp only
      rw [if_pos rfl, ih (cons_ne_nil _ _) h.2 (by rw [length_cons] at hn; omega)]
      rfl

theorem length_le_join {texts} (h : ∀ t ∈ texts, t ≠ []) :
    texts.length ≤ (joinWith "," texts).length := by
  induction texts with
  | nil => exact Nat.zero_le _
  | cons t texts ih =>
    simp only [mem_cons, forall_eq_or_imp] at h
    have hpos := length_pos_iff.mpr h.1
    cases texts with
    | nil => exact hpos
    | cons t' texts =>
      have hrest := ih h.2
      rw [joinWith, length_append, length_append, length_cons]
      omega

theorem readBracketed_join (hclose : close = ']' ∨ close = '}') {opening}
    (hopen : isWS opening = false) {text : α → Bytes} (h : ∀ a ∈ as, Spans span (text a) a) :
    readBracketed span close opening
      (opening :: (joinWith "," (as.map text) ++ [close])) = some as := by
  rw [readBracketed, skipWS_cons_of_not_ws hopen]
  dsimp only
  rw [if_pos rfl]
  cases as with
  | nil => exact if_pos (atEnd_close hclose)
  | cons a as =>
    obtain ⟨⟨b, s, htext, hb, hsquare, hcurly⟩, -⟩ := h a mem_cons_self
    have hne : b ≠ close := by rcases hclose with rfl | rfl <;> assumption
    have hhead : ∃ s', joinWith "," ((a :: as).map text) ++ [close] = b :: s' := by
      cases as with
      | nil => exact ⟨s ++ [close], by simp [joinWith, htext]⟩
      | cons a' as =>
        refine ⟨s ++ "," ++ joinWith "," ((a' :: as).map text) ++ [close], ?_⟩
        simp only [map_cons, joinWith, htext, cons_append]
    obtain ⟨s', hs'⟩ := hhead
    rw [if_neg (by rw [hs', atEnd_cons hb hne]; simp)]
    refine readItems_join hclose (cons_ne_nil _ _) h ?_
    have hne' : ∀ t ∈ (a :: as).map text, t ≠ [] := by
      intro t ht
      obtain ⟨a', ha', rfl⟩ := mem_map.mp ht
      obtain ⟨⟨b', s'', htext', -⟩, -⟩ := h a' ha'
      rw [htext']
      exact cons_ne_nil _ _
    have hlen := length_le_join hne'
    rw [length_map] at hlen
    rw [length_append]
    omega

end

/-! ### Texts are JSON -/

variable {j : Json} {c : Bytes}

theorem head_of_derives (h : Derives (.value j) c) :
    ∃ b s, c = b :: s ∧ isWS b = false ∧ b ≠ ']' ∧ b ≠ '}' := by
  cases h with
  | null => exact ⟨_, _, rfl, by decide⟩
  | bool b => cases b <;> exact ⟨_, _, rfl, by decide⟩
  | num h =>
    have hscan : scanNumber c = some (c, []) := by simpa [isNumber] using h
    obtain ⟨-, b, s, q, q', rfl, hstart, -⟩ := scanNumber_eq_some_iff.mp hscan
    obtain ⟨hws, -, hsquare, -, hcurly, -⟩ := startsScalar_ne b (startsScalar_of_number hstart)
    exact ⟨b, s, rfl, hws, hsquare, hcurly⟩
  | str => exact ⟨_, _, rfl, by decide⟩
  | arrNil | arr => exact ⟨_, _, rfl, by decide⟩
  | objNil | obj => exact ⟨_, _, rfl, by decide⟩

theorem spans_value (h : Derives (.value j) c) : Spans spanValue c c := by
  refine ⟨head_of_derives h, fun r hr => ?_⟩
  obtain ⟨t, d, htok, -, hdec⟩ := decode_of_derives h .topValue [] r rfl hr
  rw [spanValue, htok]
  dsimp only
  rw [hdec, Option.map_some]
  simp

theorem spans_member (h : Derives (.value j) c) {key} (hkey : validUtf8 key) :
    Spans spanMember (quote key ++ ':'.toUInt8 :: c) (key, c) := by
  refine ⟨⟨'"', _, rfl, by decide⟩, fun r hr => ?_⟩
  obtain ⟨t, ht, hvalid⟩ := isStr_quoteBody key
  cases hvalid hkey
  have htext : quote key ++ ':'.toUInt8 :: c ++ r =
      '"'.toUInt8 :: (quoteBody key ++ '"'.toUInt8 :: (':'.toUInt8 :: (c ++ r))) := by
    simp [quote]
  have hscan : scanString .body (quoteBody key ++ '"'.toUInt8 :: (':'.toUInt8 :: (c ++ r))) =
      some (quoteBody key, ':'.toUInt8 :: (c ++ r)) :=
    scanString_eq_some_iff.mpr ⟨rfl, ht.run⟩
  obtain ⟨⟨b, s, hc, hb, -⟩, hspan⟩ := spans_value h
  have hskip : skipWS (c ++ r) = c ++ r := by rw [hc, cons_append, skipWS_cons_of_not_ws hb]
  rw [htext, spanMember, if_pos rfl, hscan, Option.bind_some, ht.content, Option.bind_some,
    skipWS_cons_of_not_ws (by decide)]
  dsimp only
  rw [if_pos rfl, hskip, hspan r hr]
  rfl

theorem derives_elems {ts} (hne : ts ≠ []) (h : ∀ t ∈ ts, ∃ j, Derives (.value j) t) :
    ∃ js, Derives (.elems js) (joinWith "," ts) := by
  induction ts with
  | nil => exact absurd rfl hne
  | cons t ts ih =>
    simp only [mem_cons, forall_eq_or_imp] at h
    obtain ⟨j, hj⟩ := h.1
    have hws : Ws [] := fun _ h => absurd h not_mem_nil
    cases ts with
    | nil =>
      refine ⟨[j], ?_⟩
      have helem := Derives.elem hws hj hws .elemsEnd
      simpa [joinWith] using helem
    | cons t' ts =>
      obtain ⟨js, hjs⟩ := ih (cons_ne_nil _ _) h.2
      refine ⟨j :: js, ?_⟩
      have helem := Derives.elem hws hj hws (.elemsMore hjs)
      have hjoin : joinWith "," (t :: t' :: ts) =
          [] ++ (t ++ ([] ++ ','.toUInt8 :: joinWith "," (t' :: ts))) := by
        rw [joinWith, List.append_assoc]
        rfl
      rw [hjoin]
      exact helem

theorem derives_members {ms} (hne : ms ≠ [])
    (hkey : ∀ m ∈ ms, validUtf8 m.1) (h : ∀ m ∈ ms, ∃ j, Derives (.value j) m.2) :
    ∃ fs, Derives (.members fs) (joinWith "," (ms.map stdJson.writeMember)) := by
  induction ms with
  | nil => exact absurd rfl hne
  | cons m ms ih =>
    simp only [mem_cons, forall_eq_or_imp] at h hkey
    obtain ⟨j, hj⟩ := h.1
    obtain ⟨t, ht, -⟩ := isStr_quoteBody m.1
    have hws : Ws [] := fun _ h => absurd h not_mem_nil
    cases ms with
    | nil =>
      refine ⟨[(t, j)], ?_⟩
      have hmember := Derives.member hws ht hws hws hj hws .membersEnd
      simpa [joinWith, JsonLibrary.writeMember, stdJson, quote] using hmember
    | cons m' ms =>
      obtain ⟨fs, hfs⟩ := ih (cons_ne_nil _ _) hkey.2 h.2
      refine ⟨(t, j) :: fs, ?_⟩
      have hmember := Derives.member hws ht hws hws hj hws (.membersMore hfs)
      have hjoin : joinWith "," ((m :: m' :: ms).map stdJson.writeMember) =
          [] ++ '"'.toUInt8 :: (quoteBody m.1 ++ '"'.toUInt8 :: ([] ++ ':'.toUInt8 :: ([] ++ (m.2 ++
            ([] ++ ','.toUInt8 :: joinWith "," ((m' :: ms).map stdJson.writeMember)))))) := by
        have hcomma : bytes "," = [','] := rfl
        simp [joinWith, JsonLibrary.writeMember, stdJson, quote, hcomma]
      rw [hjoin]
      exact hmember

theorem jsonValid_iff : jsonValid s ↔ ∃ j, DerivesText j s := by
  rw [jsonValid, Option.isSome_iff_exists]
  simp only [strictDecode_eq_some_iff]
  constructor
  · rintro ⟨_, j, -, h⟩
    exact ⟨j, h⟩
  · rintro ⟨j, h⟩
    exact ⟨_, j, rfl, h⟩

theorem derives_of_trimmed (h : DerivesText j s) (htrim : trimSpace s = s) :
    Derives (.value j) s := by
  obtain ⟨w, c, w', hw, hc, hw', rfl⟩ := h
  obtain ⟨hfirst, hlast⟩ := not_ws_of_trimSpace_eq htrim
  have hnil : w = [] := by
    cases w with
    | nil => rfl
    | cons b w => exact absurd (hfirst b _ rfl) (by simp [hw b mem_cons_self])
  have hnil' : w' = [] := by
    rcases eq_nil_or_concat w' with rfl | ⟨w'', b, rfl⟩
    · rfl
    have hb := hlast b (w ++ (c ++ w'')) (by simp)
    rw [hw' b (by simp)] at hb
    cases hb
  subst hnil hnil'
  simpa using hc

theorem derives_of_text {n : ℕ} {t} (h : stdJson.Text n t) : ∃ j, Derives (.value j) t := by
  induction h with
  | leaf hvalid htrim _ _ =>
    obtain ⟨j, hj⟩ := jsonValid_iff.mp hvalid
    exact ⟨j, derives_of_trimmed hj htrim⟩
  | @arr n ts _ ih =>
    by_cases hne : ts = []
    · subst hne
      exact ⟨_, Derives.arrNil fun _ h => absurd h not_mem_nil⟩
    · obtain ⟨js, hjs⟩ := derives_elems hne ih
      exact ⟨_, .arr hjs⟩
  | @obj n ms hkey _ ih =>
    by_cases hne : ms = []
    · subst hne
      exact ⟨_, Derives.objNil fun _ h => absurd h not_mem_nil⟩
    · obtain ⟨fs, hfs⟩ := derives_members hne hkey ih
      exact ⟨_, .obj hfs⟩

/-- **The library keeps the laws.** -/
theorem stdJson_lawful : stdJson.Lawful where
  valid_word := by decide
  valid_text h _ := by
    obtain ⟨j, hj⟩ := derives_of_text h
    refine jsonValid_iff.mpr ⟨j, [], _, [], ?_, hj, ?_, by simp⟩ <;>
      exact fun _ h => absurd h not_mem_nil
  elements_inside {s ts} h := by
    obtain ⟨hpos, hinside⟩ := exists_span_of_readBracketed (fun h => (length_of_spanValue h).2) h
    refine ⟨hpos, le_top, fun t ht => ?_⟩
    obtain ⟨s', r, hlen, hspan⟩ := hinside t ht
    have hlt : t.length < s.length := (length_of_spanValue hspan).1.trans_lt hlen
    exact ⟨hlt, hlt⟩
  members_inside {s ms} h := by
    obtain ⟨hpos, hinside⟩ := exists_span_of_readBracketed (fun h => (length_of_spanMember h).2.2) h
    refine ⟨hpos, le_top, fun m hm => ?_⟩
    obtain ⟨s', r, hlen, hspan⟩ := hinside m hm
    obtain ⟨hkey, hle, -⟩ := length_of_spanMember hspan
    have hlt : m.2.length < s.length := hle.trans_lt hlen
    exact ⟨hkey, hlt, hlt⟩
  elements_write {n ts} h _ := by
    have hspans : ∀ t ∈ ts, Spans spanValue (id t) t := by
      intro t ht
      obtain ⟨j, hj⟩ := derives_of_text (h t ht)
      exact spans_value hj
    have hopen : isWS '[' = false := rfl
    have hread := readBracketed_join (.inl rfl) hopen hspans
    rwa [map_id] at hread
  members_write {n ms} hkey h _ := by
    have hspans : ∀ m ∈ ms, Spans spanMember (stdJson.writeMember m) m := by
      intro m hm
      obtain ⟨j, hj⟩ := derives_of_text (h m hm)
      exact spans_member hj (hkey m hm)
    have hopen : isWS '{' = false := rfl
    exact readBracketed_join (.inr rfl) hopen hspans

end BamlRest
