import BamlRest.Lib.Delimiter
import BamlRest.Text.Bytes

/-!
# Text in a Bedrock debug string

`bamlutils/sse/extract.go`, `extractBedrockFromDebug`: the SDK hands out events in the debug form of
Rust, in which a text stands between quotes with its special characters escaped.

* `debugString`, `extractBedrockFromDebug`: the form, and its reader.
* `extractBedrockFromDebug_eq_iff`: the texts that come back as they were.
-/

namespace BamlRest

open List Delimiter

/-! ### The extraction -/

/-- `((?:[^"\\]|\\.)*)"\)`: the group, when the expression matches at the beginning. -/
def matchText : Bytes → Option Bytes
  | [] => none
  | c :: s =>
    if c = '"' then if s.head? = some ')'.toUInt8 then some [] else none
    else if c = '\\' then
      match s with
      | [] => none
      | d :: s => if d = '\n' then none else (matchText s).map fun t => c :: d :: t
    else (matchText s).map (c :: ·)

def textOpen : Bytes := bytes "Text(\""

/-- `bedrockTextRegex.FindStringSubmatch`, the group. -/
def findText : Bytes → Option Bytes
  | [] => none
  | c :: s =>
    if textOpen.isPrefixOf (c :: s) then
      match matchText ((c :: s).drop textOpen.length) with
      | some t => some t
      | none => findText s
    else findText s

def extractBedrockFromDebug (debugStr : Bytes) : Bytes :=
  if (bytes "ContentBlockDelta").isPrefixOf debugStr then
    match findText debugStr with
    | some t => replaceAll (bytes "\\\\") (bytes "\\") (replaceAll (bytes "\\\"") (bytes "\"") t)
    | none => []
  else []

/-! ### The debug form -/

def debugByte (c : UInt8) : Bytes :=
  if c = '\\' then bytes "\\\\"
  else if c = '"' then bytes "\\\""
  else if c = '\n' then bytes "\\n"
  else if c = '\r' then bytes "\\r"
  else if c = '\t' then bytes "\\t"
  else [c]

def debugEscape (text : Bytes) : Bytes := text.flatMap debugByte

def keptByte (c : UInt8) : Bytes :=
  if c = '\n' then bytes "\\n"
  else if c = '\r' then bytes "\\r"
  else if c = '\t' then bytes "\\t"
  else [c]

def unquotedByte (c : UInt8) : Bytes := if c = '\\' then bytes "\\\\" else keptByte c

theorem debugByte_cases (c : UInt8) :
    (c = '\\'.toUInt8 ∧ debugByte c = ['\\'.toUInt8, '\\'.toUInt8] ∧
        unquotedByte c = ['\\'.toUInt8, '\\'.toUInt8] ∧ keptByte c = ['\\'.toUInt8]) ∨
      (c = '"'.toUInt8 ∧ debugByte c = ['\\'.toUInt8, '"'.toUInt8] ∧
        unquotedByte c = ['"'.toUInt8] ∧ keptByte c = ['"'.toUInt8]) ∨
      (∃ e : UInt8, e ≠ '\\'.toUInt8 ∧ e ≠ '"'.toUInt8 ∧ e ≠ '\n'.toUInt8 ∧
        debugByte c = ['\\'.toUInt8, e] ∧ unquotedByte c = ['\\'.toUInt8, e] ∧
        keptByte c = ['\\'.toUInt8, e]) ∨
      (c ≠ '\\'.toUInt8 ∧ c ≠ '"'.toUInt8 ∧ debugByte c = [c] ∧ unquotedByte c = [c] ∧
        keptByte c = [c]) := by
  by_cases h1 : c = '\\'.toUInt8
  · subst h1
    exact .inl ⟨rfl, rfl, rfl, rfl⟩
  by_cases h2 : c = '"'.toUInt8
  · subst h2
    exact .inr (.inl ⟨rfl, rfl, rfl, rfl⟩)
  by_cases h3 : c = '\n'.toUInt8
  · subst h3
    exact .inr (.inr (.inl ⟨'n'.toUInt8, by decide, by decide, by decide, rfl, rfl, rfl⟩))
  by_cases h4 : c = '\r'.toUInt8
  · subst h4
    exact .inr (.inr (.inl ⟨'r'.toUInt8, by decide, by decide, by decide, rfl, rfl, rfl⟩))
  by_cases h5 : c = '\t'.toUInt8
  · subst h5
    exact .inr (.inr (.inl ⟨'t'.toUInt8, by decide, by decide, by decide, rfl, rfl, rfl⟩))
  refine .inr (.inr (.inr ⟨h1, h2, ?_⟩))
  simp only [debugByte, unquotedByte, keptByte, if_neg h1, if_neg h2, if_neg h3, if_neg h4,
    if_neg h5, and_self]

/-! ### Finding the text -/

theorem matchText_plain {c} (h1 : c ≠ '\\'.toUInt8) (h2 : c ≠ '"'.toUInt8) (s) :
    matchText (c :: s) = (matchText s).map (c :: ·) := by
  rw [matchText.eq_def]
  dsimp only
  rw [if_neg h2, if_neg h1]

theorem matchText_debugEscape (text post) :
    matchText (debugEscape text ++ (bytes "\")" ++ post)) = some (debugEscape text) := by
  induction text with
  | nil => rfl
  | cons c text ih =>
    have hescaped : ∀ {e : UInt8}, e ≠ '\n'.toUInt8 →
        matchText ('\\'.toUInt8 :: e :: (debugEscape text ++ (bytes "\")" ++ post))) =
          some ('\\'.toUInt8 :: e :: debugEscape text) := by
      intro e he
      rw [matchText, if_neg (by decide), if_pos rfl]
      simp only [if_neg he, ih, Option.map_some]
    rw [debugEscape, flatMap_cons, List.append_assoc]
    change matchText (debugByte c ++ (debugEscape text ++ _)) = some (debugByte c ++ debugEscape text)
    rcases debugByte_cases c with ⟨-, hd, -⟩ | ⟨-, hd, -⟩ | ⟨e, -, -, he, hd, -⟩ | ⟨h1, h2, hd, -⟩
    · rw [hd]
      exact hescaped (by decide)
    · rw [hd]
      exact hescaped (by decide)
    · rw [hd]
      exact hescaped he
    · rw [hd, singleton_append, matchText_plain h1 h2, ih]
      rfl

theorem borderless_textOpen : Borderless textOpen := by decide

theorem findText_append {pre s t} (hpre : ¬textOpen <:+: pre)
    (hs : matchText s = some t) : findText (pre ++ (textOpen ++ s)) = some t := by
  induction pre with
  | nil =>
    have hopen : textOpen.isPrefixOf (textOpen ++ s) = true :=
      isPrefixOf_iff_prefix.mpr (prefix_append _ _)
    have hdrop : (textOpen ++ s).drop textOpen.length = s := drop_left
    rw [nil_append]
    change findText ('T'.toUInt8 :: (bytes "ext(\"" ++ s)) = some t
    change textOpen.isPrefixOf ('T'.toUInt8 :: (bytes "ext(\"" ++ s)) = true at hopen
    change ('T'.toUInt8 :: (bytes "ext(\"" ++ s)).drop textOpen.length = s at hdrop
    rw [findText, if_pos hopen, hdrop, hs]
  | cons c pre ih =>
    rw [infix_cons_iff, not_or] at hpre
    have hnot : ¬textOpen <+: c :: (pre ++ (textOpen ++ s)) := fun h =>
      hpre.1 (borderless_textOpen.prefix_left (cons_ne_nil _ _) h)
    rw [cons_append, findText, if_neg (mt isPrefixOf_iff_prefix.mp hnot)]
    exact ih hpre.2

/-! ### Undoing the escapes -/

theorem head?_flatMap_debugByte (text : Bytes) : (text.flatMap debugByte).head? ≠ some '"'.toUInt8 := by
  cases text with
  | nil => simp
  | cons c text =>
    rw [flatMap_cons]
    rcases debugByte_cases c with ⟨-, hd, -⟩ | ⟨-, hd, -⟩ | ⟨e, -, -, -, hd, -⟩ | ⟨-, h2, hd, -⟩
    · rw [hd]; simp
    · rw [hd]; simp
    · rw [hd]; simp
    · rw [hd]
      simpa using h2

theorem not_prefix_pair {a b c : UInt8} {s : Bytes} (h : c ≠ a ∨ s.head? ≠ some b) :
    ¬[a, b] <+: c :: s := by
  rintro ⟨t, ht⟩
  simp only [cons_append, nil_append, List.cons.injEq] at ht
  obtain ⟨hc, hs⟩ := ht
  rcases h with h | h
  · exact h hc.symm
  · exact h (by rw [← hs]; rfl)

theorem replaceAll_quote_debugEscape (text : Bytes) :
    replaceAll (bytes "\\\"") (bytes "\"") (debugEscape text) = text.flatMap unquotedByte := by
  have hpair : bytes "\\\"" = ['\\'.toUInt8, '"'.toUInt8] := rfl
  induction text with
  | nil => exact replaceAll_nil _ _
  | cons c text ih =>
    have hhead := head?_flatMap_debugByte text
    rw [debugEscape, flatMap_cons, flatMap_cons, ← ih, hpair]
    rcases debugByte_cases c with ⟨-, hd, hu, -⟩ | ⟨-, hd, hu, -⟩ | ⟨e, h1, h2, -, hd, hu, -⟩ |
      ⟨h1, -, hd, hu, -⟩
    · rw [hd, hu, cons_append, singleton_append,
        replaceAll_cons_of_not (not_prefix_pair (.inr (by simp))),
        replaceAll_cons_of_not (not_prefix_pair (.inr hhead))]
      rfl
    · rw [hd, hu, replaceAll_append_left (by simp)]
      rfl
    · rw [hd, hu, cons_append, singleton_append,
        replaceAll_cons_of_not (not_prefix_pair (.inr (by simpa using h2))),
        replaceAll_cons_of_not (not_prefix_pair (.inl h1))]
      rfl
    · rw [hd, hu, singleton_append, replaceAll_cons_of_not (not_prefix_pair (.inl h1))]
      rfl

theorem replaceAll_backslash_unquoted (text : Bytes) :
    replaceAll (bytes "\\\\") (bytes "\\") (text.flatMap unquotedByte) = text.flatMap keptByte := by
  have hpair : bytes "\\\\" = ['\\'.toUInt8, '\\'.toUInt8] := rfl
  induction text with
  | nil => exact replaceAll_nil _ _
  | cons c text ih =>
    rw [flatMap_cons, flatMap_cons, ← ih, hpair]
    rcases debugByte_cases c with ⟨-, -, hu, hk⟩ | ⟨-, -, hu, hk⟩ | ⟨e, h1, -, -, -, hu, hk⟩ |
      ⟨h1, -, -, hu, hk⟩
    · rw [hu, hk, replaceAll_append_left (by simp)]
      rfl
    · rw [hu, hk, singleton_append, replaceAll_cons_of_not (not_prefix_pair (.inl (by decide)))]
      rfl
    · rw [hu, hk, cons_append, singleton_append,
        replaceAll_cons_of_not (not_prefix_pair (.inr (by simpa using h1))),
        replaceAll_cons_of_not (not_prefix_pair (.inl h1))]
      rfl
    · rw [hu, hk, singleton_append, replaceAll_cons_of_not (not_prefix_pair (.inl h1))]
      rfl

/-! ### The whole extraction -/

/-- A debug string of a `ContentBlockDelta` with a text in it. -/
def debugString (pre text post : Bytes) : Bytes :=
  (bytes "ContentBlockDelta" ++ pre) ++ (textOpen ++ (debugEscape text ++ (bytes "\")" ++ post)))

/-- **What comes back**: the text, with the escapes of newline, carriage return and tab. -/
theorem extractBedrockFromDebug_debug {pre}
    (hpre : ¬textOpen <:+: bytes "ContentBlockDelta" ++ pre) (text post : Bytes) :
    extractBedrockFromDebug (debugString pre text post) = text.flatMap keptByte := by
  have hblock : (bytes "ContentBlockDelta").isPrefixOf (debugString pre text post) = true := by
    rw [debugString, List.append_assoc]
    exact isPrefixOf_iff_prefix.mpr (prefix_append _ _)
  have hfind := findText_append hpre (matchText_debugEscape text post)
  rw [extractBedrockFromDebug, if_pos hblock, debugString, hfind]
  dsimp only
  rw [replaceAll_quote_debugEscape, replaceAll_backslash_unquoted]

theorem mem_keptByte {b c} (h : b ∈ keptByte c) :
    b ≠ '\n'.toUInt8 ∧ b ≠ '\r'.toUInt8 ∧ b ≠ '\t'.toUInt8 := by
  unfold keptByte at h
  split_ifs at h with h1 h2 h3
  · exact (all_eq_true.mp (by rfl : (bytes "\\n").all fun b =>
      b ≠ '\n'.toUInt8 ∧ b ≠ '\r'.toUInt8 ∧ b ≠ '\t'.toUInt8) b h) |> of_decide_eq_true
  · exact (all_eq_true.mp (by rfl : (bytes "\\r").all fun b =>
      b ≠ '\n'.toUInt8 ∧ b ≠ '\r'.toUInt8 ∧ b ≠ '\t'.toUInt8) b h) |> of_decide_eq_true
  · exact (all_eq_true.mp (by rfl : (bytes "\\t").all fun b =>
      b ≠ '\n'.toUInt8 ∧ b ≠ '\r'.toUInt8 ∧ b ≠ '\t'.toUInt8) b h) |> of_decide_eq_true
  · cases mem_singleton.mp h
    exact ⟨h1, h2, h3⟩

theorem flatMap_keptByte {text : Bytes}
    (h : '\n'.toUInt8 ∉ text ∧ '\r'.toUInt8 ∉ text ∧ '\t'.toUInt8 ∉ text) :
    text.flatMap keptByte = text := by
  have hbyte : ∀ c ∈ text, keptByte c = [c] := by
    intro c hc
    have h1 : c ≠ '\n'.toUInt8 := fun heq => h.1 (heq ▸ hc)
    have h2 : c ≠ '\r'.toUInt8 := fun heq => h.2.1 (heq ▸ hc)
    have h3 : c ≠ '\t'.toUInt8 := fun heq => h.2.2 (heq ▸ hc)
    rw [keptByte, if_neg h1, if_neg h2, if_neg h3]
  rw [flatMap_congr hbyte, flatMap_singleton']

/-- **When the text comes back**: exactly when it has no newline, carriage return or tab. -/
theorem extractBedrockFromDebug_eq_iff (pre text post : Bytes)
    (hpre : ¬textOpen <:+: bytes "ContentBlockDelta" ++ pre) :
    extractBedrockFromDebug (debugString pre text post) = text ↔
      '\n'.toUInt8 ∉ text ∧ '\r'.toUInt8 ∉ text ∧ '\t'.toUInt8 ∉ text := by
  rw [extractBedrockFromDebug_debug hpre]
  constructor
  · intro h
    have hmem : ∀ b ∈ text, b ≠ '\n'.toUInt8 ∧ b ≠ '\r'.toUInt8 ∧ b ≠ '\t'.toUInt8 := by
      intro b hb
      rw [← h] at hb
      obtain ⟨c, -, hc⟩ := mem_flatMap.mp hb
      exact mem_keptByte hc
    exact ⟨fun h => (hmem _ h).1 rfl, fun h => (hmem _ h).2.1 rfl, fun h => (hmem _ h).2.2 rfl⟩
  · exact flatMap_keptByte

/-- A text with a backslash and a quote in the form that the SDK writes. -/
theorem extractBedrockFromDebug_eq_iff_quote :
    extractBedrockFromDebug (debugString (bytes "(ContentBlockDeltaEvent \x7b delta: Some(")
      (bytes "\\\"") (bytes "), content_block_index: 0 \x7d)")) = bytes "\\\"" :=
  (extractBedrockFromDebug_eq_iff _ _ _ (by
    rw [← hasInfix_iff]
    decide +kernel)).mpr (by decide +kernel)

/-- A newline comes back as a backslash and a letter. -/
theorem extractBedrockFromDebug_newline :
    extractBedrockFromDebug (debugString (bytes "(ContentBlockDeltaEvent \x7b delta: Some(")
      (bytes "a\nb") (bytes "), content_block_index: 0 \x7d)")) = bytes "a\\nb" ∧
      bytes "a\\nb" ≠ bytes "a\nb" := by
  decide +kernel

end BamlRest
