import BamlRest.Schema.Order

/-!
# The names in a display text

The walk that lists definitions tells types apart by their display texts. What a text must not lose
is which classes and enums the type refers to.
-/

namespace BamlRest

open List

/-- A byte of a name. -/
def isIdent (b : UInt8) : Bool :=
  ('a' ≤ b && b ≤ 'z') || ('A' ≤ b && b ≤ 'Z') || isDigit b ||
    b = '_'

/-- Words that are types of their own. -/
def displayKeywords : List Bytes :=
  ["string", "int", "float", "bool", "null", "true",
    "false"]

/-- A name that can be read back from a key. -/
def isPlainName (n : Bytes) : Bool :=
  n.all isIdent && n.head?.any (fun c => !isDigit c) && !displayKeywords.contains n

/-- The word, if it is a name. -/
def plainName (w : Bytes) : List Bytes := if isPlainName w then [w] else []

/-- Where the scanner is in a key. -/
inductive ScanMode where
  | plain
  | quoted
  | word (w : Bytes)

/-- The plain names in a text, outside quotes. A word before `<` is not one. -/
def scanNames : ScanMode → Bytes → List Bytes
  | .word w, [] => plainName w
  | .plain, [] | .quoted, [] => []
  | .quoted, c :: s => scanNames (if c = '"' then .plain else .quoted) s
  | .plain, c :: s =>
    scanNames (if c = '"' then .quoted else if isIdent c then .word [c] else .plain) s
  | .word w, c :: s =>
    if isIdent c then scanNames (.word (w ++ [c])) s
    else (if c = '<' then [] else plainName w) ++
      scanNames (if c = '"' then .quoted else .plain) s

namespace Ty

mutual

/-- The names that a type refers to. -/
def refs : Ty → List Bytes
  | .enum _ n _ => [n]
  | .cls _ n _ _ => [n]
  | .list _ e => refs e
  | .map _ k v => refs k ++ refs v
  | .union _ vs _ => refsOf vs
  | .tuple _ ts => refsOf ts
  | .arrow _ ts r => refsOf ts ++ refs r
  | .top _ | .primitive _ _ | .literal _ _ | .recursiveAlias _ _ _ => []

/-- The names of several types. -/
def refsOf : List Ty → List Bytes
  | [] => []
  | t :: ts => refs t ++ refsOf ts

end

theorem mem_refsOf {n ts} : n ∈ refsOf ts ↔ ∃ t ∈ ts, n ∈ t.refs := by
  induction ts with
  | nil => simp [refsOf]
  | cons t ts ih => simp [refsOf, ih]

theorem mem_refs_of_part {n} {s t : Ty} (hs : s ∈ t.parts) (h : n ∈ s.refs) : n ∈ t.refs := by
  cases t with
  | list m e =>
    cases mem_singleton.mp hs
    exact h
  | map m k v =>
    rcases mem_cons.mp hs with rfl | hs
    · exact mem_append_left _ h
    · cases mem_singleton.mp hs
      exact mem_append_right _ h
  | union m vs nullable => exact mem_refsOf.mpr ⟨s, hs, h⟩
  | tuple m ts => exact mem_refsOf.mpr ⟨s, hs, h⟩
  | arrow m ts r =>
    rcases mem_append.mp hs with hs | hs
    · exact mem_append_left _ (mem_refsOf.mpr ⟨s, hs, h⟩)
    · cases mem_singleton.mp hs
      exact mem_append_right _ h
  | top | primitive | enum | literal | cls | recursiveAlias => cases hs

/-- A node as the lowering of a plain schema makes it. -/
def LoweredNode : Ty → Prop
  | .enum _ n _ => isPlainName n = true
  | .cls _ n mode _ => isPlainName n = true ∧ mode = .nonStreaming
  | .literal _ (.string s) => '"'.toUInt8 ∉ s
  | .primitive _ (.media _) | .recursiveAlias _ _ _ | .tuple _ _ | .arrow _ _ _ | .top _ => False
  | _ => True

/-- A type that lowering gives, with plain names and no quotes in its literals. -/
def Lowered (t : Ty) : Prop := ∀ s, Sub s t → LoweredNode s

theorem Lowered.node {t : Ty} (h : t.Lowered) : LoweredNode t := h t (.refl t)

theorem Lowered.part {s t : Ty} (h : t.Lowered) (hs : s ∈ t.parts) : s.Lowered :=
  fun u hu => h u (.part hu hs)

end Ty

/-! ### Scanning -/

theorem isIdent_ne_quote {c} (h : isIdent c) : c ≠ '"' := by
  rintro rfl
  revert h
  decide

/-- Nothing follows that would lengthen a name. -/
def Delimited (rest : Bytes) : Prop :=
  ∀ c, rest.head? = some c → isIdent c = false ∧ c ≠ '<'

theorem delimited_nil : Delimited [] := by
  intro c h
  cases h

theorem delimited_cons {c} (hc : isIdent c = false) (hlt : c ≠ '<') (s) : Delimited (c :: s) := by
  intro d h
  cases h
  exact ⟨hc, hlt⟩

theorem scanNames_skip {c} (hc : isIdent c = false) (hquote : c ≠ '"') (s) :
    scanNames .plain (c :: s) = scanNames .plain s := by
  rw [scanNames, if_neg hquote, hc]
  rfl

theorem scanNames_word_end (w) {rest} (h : Delimited rest) :
    scanNames (.word w) rest = plainName w ++ scanNames .plain rest := by
  cases rest with
  | nil => simp [scanNames]
  | cons c s =>
    obtain ⟨hc, hlt⟩ := h c rfl
    rw [scanNames, scanNames, hc, if_neg Bool.false_ne_true, if_neg hlt, if_neg Bool.false_ne_true]

theorem scanNames_word (w s) (hs : s.all isIdent) {rest} (h : Delimited rest) :
    scanNames (.word w) (s ++ rest) = plainName (w ++ s) ++ scanNames .plain rest := by
  induction s generalizing w with
  | nil => simpa using scanNames_word_end w h
  | cons c s ih =>
    rw [all_cons, Bool.and_eq_true] at hs
    rw [cons_append, scanNames, if_pos hs.1, ih _ hs.2, append_assoc]
    rfl

/-- The scanner reads the names off the text. -/
def ScansTo (text : Bytes) (names : List Bytes) : Prop :=
  ∀ rest, Delimited rest → scanNames .plain (text ++ rest) = names ++ scanNames .plain rest

theorem scans_word {s} (hs : s.all isIdent) (hne : s ≠ []) : ScansTo s (plainName s) := by
  intro rest h
  cases s with
  | nil => exact absurd rfl hne
  | cons c s =>
    rw [all_cons, Bool.and_eq_true] at hs
    rw [cons_append, scanNames, if_neg (isIdent_ne_quote hs.1), if_pos hs.1,
      scanNames_word [c] s hs.2 h]
    rfl

theorem isPlainName_spec {n} (h : isPlainName n) : n.all isIdent ∧ n ≠ [] := by
  simp only [isPlainName, Bool.and_eq_true] at h
  refine ⟨h.1.1, ?_⟩
  rintro rfl
  exact absurd h.1.2 (by decide)

theorem scans_name {n} (h : isPlainName n) : ScansTo n [n] := by
  obtain ⟨hident, hne⟩ := isPlainName_spec h
  have hscan := scans_word hident hne
  rwa [plainName, if_pos h] at hscan

theorem scans_keyword {n} (h : n ∈ displayKeywords) : ScansTo n [] := by
  have hident : displayKeywords.all (fun n => n.all isIdent && !n.isEmpty && !isPlainName n) :=
    by rfl
  have hn := all_eq_true.mp hident n h
  simp only [Bool.and_eq_true, Bool.not_eq_true'] at hn
  obtain ⟨⟨hall, hne⟩, hplain⟩ := hn
  have hscan := scans_word hall (by simpa using hne)
  rwa [plainName, hplain] at hscan

theorem scans_primitive {p} (h : ∀ k, p ≠ .media k) : ScansTo (primitiveDisplay p) [] := by
  cases p with
  | media k => exact absurd rfl (h k)
  | string | int | float | bool | null => exact scans_keyword (mem_of_elem_eq_true rfl)

theorem scanNames_quoted {s} (h : '"'.toUInt8 ∉ s) (rest) :
    scanNames .quoted (s ++ ('"'.toUInt8 :: rest)) = scanNames .plain rest := by
  induction s with
  | nil => rfl
  | cons c s ih =>
    rw [mem_cons, not_or] at h
    rw [cons_append, scanNames, if_neg (Ne.symm h.1), ih h.2]

theorem isDigit_of_mem_natDigits {n : ℕ} {b} (h : b ∈ natDigits n) : isDigit b := by
  obtain ⟨c, hc, rfl⟩ := mem_map.mp h
  have hdigit := Nat.isDigit_of_mem_toDigits (by decide) (by decide) hc
  rw [Char.isDigit, Bool.and_eq_true, decide_eq_true_eq, decide_eq_true_eq] at hdigit
  have hlow : 48 ≤ c.toNat := UInt32.le_iff_toNat_le.mp hdigit.1
  have hhigh : c.toNat ≤ 57 := UInt32.le_iff_toNat_le.mp hdigit.2
  change isDigit (UInt8.ofNat c.toNat) = true
  generalize c.toNat = n at hlow hhigh
  interval_cases n <;> rfl

theorem scans_natDigits (n : ℕ) : ScansTo (natDigits n) [] := by
  have hne : natDigits n ≠ [] := by
    unfold natDigits
    exact mt map_eq_nil_iff.mp Nat.toDigits_ne_nil
  have hall : (natDigits n).all isIdent = true := by
    refine all_eq_true.mpr ?_
    intro b hb
    simp [isIdent, isDigit_of_mem_natDigits hb]
  have hplain : isPlainName (natDigits n) = false := by
    obtain ⟨c, s, hs⟩ := exists_cons_of_ne_nil hne
    have hc := isDigit_of_mem_natDigits (n := n) (b := c) (by simp [hs])
    simp [isPlainName, hs, hc]
  have hscan := scans_word hall hne
  rwa [plainName, hplain] at hscan

theorem scans_literal {l} (h : ∀ s, l = .string s → '"'.toUInt8 ∉ s) :
    ScansTo (literalDisplayKey l) [] := by
  cases l with
  | string s =>
    intro rest _
    rw [literalDisplayKey, append_assoc, append_assoc]
    exact scanNames_quoted (h s rfl) rest
  | bool b =>
    cases b <;> exact scans_keyword (mem_of_elem_eq_true rfl)
  | int n =>
    have hdigits := scans_natDigits n.natAbs
    intro rest hrest
    rw [literalDisplayKey, formatInt, signed]
    split_ifs
    · rw [cons_append, scanNames_skip (by decide) (by decide)]
      exact hdigits rest hrest
    · exact hdigits rest hrest

theorem scans_joinWith {texts names}
    (h : Forall₂ ScansTo texts names) : ScansTo (joinWith " | " texts) names.flatten := by
  induction h with
  | nil =>
    intro rest _
    rfl
  | @cons text names texts namess htext htexts ih =>
    cases htexts with
    | nil => simpa [joinWith] using htext
    | @cons text' names' texts' namess' htext' htexts' =>
      intro rest hrest
      have hbar : Delimited (" | " ++ (joinWith " | " (text' :: texts') ++ rest)) :=
        delimited_cons (by decide) (by decide) _
      rw [joinWith, append_assoc, append_assoc, htext _ hbar, flatten_cons,
        append_assoc, ← ih rest hrest]
      rfl

theorem forall₂_displayKeys {vs} (h : ∀ v ∈ vs, ScansTo (displayKey v) v.refs) :
    Forall₂ ScansTo (displayKeys vs) (vs.map Ty.refs) := by
  induction vs with
  | nil => exact .nil
  | cons v vs ih =>
    exact .cons (h v mem_cons_self) (ih fun w hw => h w (mem_cons_of_mem v hw))

theorem flatten_map_refs (vs) : (vs.map Ty.refs).flatten = Ty.refsOf vs := by
  induction vs with
  | nil => rfl
  | cons v vs ih => rw [map_cons, flatten_cons, ih, Ty.refsOf]

/-- **The names in a display text** are the references of the type, whatever follows it. -/
theorem scans_displayKey {t : Ty} (h : t.Lowered) : ScansTo (displayKey t) t.refs := by
  induction t using Ty.induction with
  | top | recursiveAlias | tuple | arrow => exact h.node.elim
  | primitive m p =>
    refine scans_primitive ?_
    rintro k rfl
    exact h.node
  | enum m n d => exact scans_name h.node
  | cls m n s d =>
    obtain ⟨hn, rfl⟩ := h.node
    exact scans_name hn
  | literal m l =>
    refine scans_literal ?_
    rintro s rfl
    exact h.node
  | list m e ih =>
    intro rest hrest
    have hbracket : Delimited ("[]" ++ rest) := delimited_cons (by decide) (by decide) _
    rw [displayKey, append_assoc, ih (h.part (mem_singleton_self e)) _ hbracket]
    rfl
  | map m k v ihk ihv =>
    intro rest hrest
    have hcomma : Delimited (", " ++ (displayKey v ++ (">" ++ rest))) :=
      delimited_cons (by decide) (by decide) _
    have hclose : Delimited (">" ++ rest) := delimited_cons (by decide) (by decide) _
    have hkey := ihk (h.part (by simp [Ty.parts])) _ hcomma
    have hvalue := ihv (h.part (by simp [Ty.parts])) _ hclose
    rw [displayKey]
    simp only [append_assoc]
    rw [Ty.refs, append_assoc]
    exact hkey.trans (congrArg (_ ++ ·) hvalue)
  | union m vs nullable ih =>
    have hvs : Forall₂ ScansTo (displayKeys vs) (vs.map Ty.refs) :=
      forall₂_displayKeys fun v hv => ih v hv (h.part hv)
    have hnull : ScansTo "null" [] := scans_keyword (mem_of_elem_eq_true rfl)
    intro rest hrest
    have hclose : Delimited (")" ++ rest) := delimited_cons (by decide) (by decide) _
    rw [displayKey, Ty.refs, ← flatten_map_refs]
    split_ifs
    · have hjoin := scans_joinWith (rel_append hvs (.cons hnull .nil)) _ hclose
      simp only [flatten_append, flatten_cons, flatten_nil, append_nil] at hjoin
      simp only [append_assoc]
      exact hjoin
    have hjoin := scans_joinWith hvs _ hclose
    simp only [append_assoc, append_nil]
    exact hjoin

theorem scanNames_displayKey {t : Ty} (h : t.Lowered) :
    scanNames .plain (displayKey t) = t.refs := by
  have hscan := scans_displayKey h [] delimited_nil
  simpa [scanNames] using hscan

end BamlRest
