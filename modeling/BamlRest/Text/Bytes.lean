import Mathlib

/-!
# Byte strings

A Go string is a sequence of bytes; the parsers of this development read it byte by byte and
special-case ASCII bytes only.
-/

namespace BamlRest

open List

abbrev Bytes := List UInt8

/-- An ASCII character stands for its byte. -/
instance instCoeCharByte : Coe Char UInt8 := ⟨Char.toUInt8⟩

instance instLawfulBEqBytes : LawfulBEq Bytes := inferInstance

@[simp, grind =] theorem toUInt8_eq_ofNat (c : Char) : c.toUInt8 = UInt8.ofNat c.toNat := rfl

def bytes (s : String) : Bytes := s.toList.map Char.toUInt8

instance instCoeStringBytes : Coe String Bytes := ⟨bytes⟩

theorem flatMap_bytes (cs : List Char) (ss : List String) :
    (String.ofList cs :: ss).flatMap bytes = cs.map Char.toUInt8 ++ ss.flatMap bytes := by
  simp [bytes]

/-! ### White space -/

def isWS (b : UInt8) : Bool := b = ' ' || b = '\t' || b = '\n' || b = '\r'

def skipWS (s : Bytes) : Bytes := s.dropWhile isWS

@[simp] theorem skipWS_nil : skipWS [] = [] := rfl

variable {b : UInt8}

theorem skipWS_cons_of_ws (h : isWS b) (s) : skipWS (b :: s) = skipWS s := by
  simp [skipWS, h]

theorem skipWS_cons_of_not_ws (h : isWS b = false) (s) : skipWS (b :: s) = b :: s := by
  simp [skipWS, h]

variable {s : Bytes}

theorem not_ws_of_skipWS_eq_cons {r} (h : skipWS s = b :: r) : isWS b = false := by
  induction s with
  | nil => simp at h
  | cons c s ih =>
    cases hc : isWS c with
    | true => exact ih (by rwa [skipWS_cons_of_ws hc] at h)
    | false =>
      rw [skipWS_cons_of_not_ws hc, cons.injEq] at h
      rw [← h.1, hc]

@[simp] theorem skipWS_skipWS (s) : skipWS (skipWS s) = skipWS s := by
  cases h : skipWS s with
  | nil => rfl
  | cons b r => exact skipWS_cons_of_not_ws (not_ws_of_skipWS_eq_cons h) r

theorem length_skipWS_le (s) : (skipWS s).length ≤ s.length :=
  length_dropWhile_le isWS s

theorem skipWS_append_of_ws {w} (hw : ∀ b ∈ w, isWS b) (s) : skipWS (w ++ s) = skipWS s := by
  induction w with
  | nil => rfl
  | cons b w ih =>
    rw [cons_append, skipWS_cons_of_ws (hw b (by simp)), ih fun b' hb' => hw b' (by simp [hb'])]

/-! ### `strings.TrimSpace` -/

/-- The UTF-8 encodings of the runes of `unicode.IsSpace`. -/
def spaceEncodings : List Bytes :=
  [[0x09], [0x0a], [0x0b], [0x0c], [0x0d], [0x20], [0xc2, 0x85], [0xc2, 0xa0],
   [0xe1, 0x9a, 0x80], [0xe2, 0x80, 0x80], [0xe2, 0x80, 0x81], [0xe2, 0x80, 0x82],
   [0xe2, 0x80, 0x83], [0xe2, 0x80, 0x84], [0xe2, 0x80, 0x85], [0xe2, 0x80, 0x86],
   [0xe2, 0x80, 0x87], [0xe2, 0x80, 0x88], [0xe2, 0x80, 0x89], [0xe2, 0x80, 0x8a],
   [0xe2, 0x80, 0xa8], [0xe2, 0x80, 0xa9], [0xe2, 0x80, 0xaf], [0xe2, 0x81, 0x9f],
   [0xe3, 0x80, 0x80]]

/-- Remove leading members of `encs`, at most `fuel` of them. -/
def stripLeading (encs : List Bytes) : ℕ → Bytes → Bytes
  | 0, s => s
  | fuel + 1, s =>
    match encs.find? (·.isPrefixOf s) with
    | some e => stripLeading encs fuel (s.drop e.length)
    | none => s

/-- Go's `strings.TrimLeftFunc(s, unicode.IsSpace)`. -/
def trimLeftSpace (s : Bytes) : Bytes := stripLeading spaceEncodings s.length s

/-- Go's `strings.TrimRightFunc(s, unicode.IsSpace)`. -/
def trimRightSpace (s : Bytes) : Bytes :=
  (stripLeading (spaceEncodings.map List.reverse) s.length s.reverse).reverse

/-- Go's `strings.TrimSpace`. -/
def trimSpace (s : Bytes) : Bytes := trimRightSpace (trimLeftSpace s)

variable {encs : List Bytes}

theorem stripLeading_cons_of_head (fuel : ℕ) (s)
    (h : ∀ e ∈ encs, e.head? ≠ some b ∧ e ≠ []) : stripLeading encs fuel (b :: s) = b :: s := by
  cases fuel with
  | zero => rfl
  | succ fuel =>
    have hfind : encs.find? (·.isPrefixOf (b :: s)) = none := by
      rw [find?_eq_none]
      intro e he hpre
      obtain ⟨hhead, hne⟩ := h e he
      cases e with
      | nil => exact hne rfl
      | cons c e =>
        simp only [isPrefixOf, Bool.and_eq_true, beq_iff_eq] at hpre
        exact hhead (by simp [hpre.1])
    simp only [stripLeading, hfind]

theorem stripLeading_nil (encs) (h : [] ∉ encs) (fuel : ℕ) : stripLeading encs fuel [] = [] := by
  cases fuel with
  | zero => rfl
  | succ fuel =>
    have hfind : encs.find? (·.isPrefixOf []) = none := by
      rw [find?_eq_none]
      rintro (_ | ⟨c, e⟩) he
      · exact absurd he h
      · simp [isPrefixOf]
    simp only [stripLeading, hfind]

theorem forall_byte {P : UInt8 → Prop} (h : ∀ i : Fin 256, P (UInt8.ofNat i)) (b : UInt8) :
    P b := by
  have hb := h ⟨b.toNat, b.toNat_lt⟩
  rwa [UInt8.ofNat_toNat] at hb

def isGraphic (b : UInt8) : Bool := 0x20 < b && b < 0x80

theorem not_graphic_of_mem_spaceEncodings {e}
    (he : e ∈ spaceEncodings ++ spaceEncodings.map reverse) :
    e ≠ [] ∧ ∀ x ∈ e, isGraphic x = false := by
  have hall : (spaceEncodings ++ spaceEncodings.map reverse).all
      (fun e => !e.isEmpty && e.all fun x => !isGraphic x) = true := by decide
  have hmem := all_eq_true.mp hall e he
  simp only [Bool.and_eq_true, Bool.not_eq_true', isEmpty_eq_false_iff, all_eq_true] at hmem
  exact hmem

theorem head_of_spaceEncodings (hb : isGraphic b) {e}
    (he : e ∈ spaceEncodings ++ spaceEncodings.map reverse) : e.head? ≠ some b ∧ e ≠ [] := by
  obtain ⟨hne, hbytes⟩ := not_graphic_of_mem_spaceEncodings he
  refine ⟨fun hhead => ?_, hne⟩
  have hfalse := hbytes b (mem_of_head? hhead)
  rw [hb] at hfalse
  cases hfalse

variable {b' : UInt8}

theorem trimSpace_of_ends (hb : isGraphic b) (hb' : isGraphic b')
    (t) : trimSpace (b :: (t ++ [b'])) = b :: (t ++ [b']) := by
  have hleft : trimLeftSpace (b :: (t ++ [b'])) = b :: (t ++ [b']) :=
    stripLeading_cons_of_head _ _ fun e he => head_of_spaceEncodings hb (mem_append_left _ he)
  have hright := stripLeading_cons_of_head (b :: (t ++ [b'])).length (b :: t).reverse
    fun e he => head_of_spaceEncodings hb' (mem_append_right _ he)
  have hrev : (b :: (t ++ [b'])).reverse = b' :: (b :: t).reverse := by simp
  rw [trimSpace, hleft, trimRightSpace, hrev, hright, ← hrev, reverse_reverse]

theorem trimSpace_of_graphic (h : ∀ b ∈ s, isGraphic b) : trimSpace s = s := by
  have hstrip : ∀ encs ⊆ spaceEncodings ++ spaceEncodings.map reverse, ∀ fuel t,
      (∀ b ∈ t, isGraphic b) → stripLeading encs fuel t = t := by
    intro encs hsub fuel t ht
    cases t with
    | nil => exact stripLeading_nil encs (fun hnil => absurd (hsub hnil) (by decide)) fuel
    | cons b t =>
      exact stripLeading_cons_of_head fuel t fun e he =>
        head_of_spaceEncodings (ht b (by simp)) (hsub he)
  have hleft : trimLeftSpace s = s := hstrip _ (subset_append_left _ _) _ s h
  have hright := hstrip _ (subset_append_right _ _) s.length s.reverse (by simpa using h)
  rw [trimSpace, hleft, trimRightSpace, hright, reverse_reverse]

theorem stripLeading_append (hencs : ∀ e ∈ encs, ∀ x ∈ e, isGraphic x = false) (hb : isGraphic b) (fuel : ℕ) (p s) :
    ∃ p', p' <:+ p ∧ stripLeading encs fuel (p ++ b :: s) = p' ++ b :: s := by
  induction fuel generalizing p with
  | zero => exact ⟨p, suffix_rfl, rfl⟩
  | succ fuel ih =>
    rw [stripLeading]
    split
    · next e he =>
      have hmem := mem_of_find?_eq_some he
      have hpre : e <+: p ++ b :: s :=
        isPrefixOf_iff_prefix.mp (by simpa using find?_some he)
      -- no space encoding reaches the visible character
      have hle : e.length ≤ p.length := by
        by_contra hlt
        obtain ⟨t, ht⟩ := hpre
        have hget : (e ++ t)[p.length]? = some b := by rw [ht]; simp
        rw [getElem?_append_left (by omega)] at hget
        have hgraphic := hencs e hmem b (mem_of_getElem? hget)
        rw [hb] at hgraphic
        cases hgraphic
      obtain ⟨p', hsuf, hstrip⟩ := ih (p.drop e.length)
      refine ⟨p', hsuf.trans (drop_suffix _ _), ?_⟩
      rw [drop_append_of_le_length hle, hstrip]
    · exact ⟨p, suffix_rfl, rfl⟩

theorem trimSpace_append (hb : isGraphic b) (hb' : isGraphic b')
    {t t'} (ht : b :: t = t' ++ [b']) (p s) :
    ∃ p' s', p' <:+ p ∧ trimSpace (p ++ (b :: t ++ s)) = p' ++ (b :: t ++ s') := by
  have hencs : ∀ e ∈ spaceEncodings ++ spaceEncodings.map reverse, ∀ x ∈ e,
      isGraphic x = false := fun e he => (not_graphic_of_mem_spaceEncodings he).2
  obtain ⟨p', hp', hleft⟩ := stripLeading_append
    (fun e he => hencs e (mem_append_left _ he)) hb (p ++ (b :: (t ++ s))).length p (t ++ s)
  have hrev : (p' ++ (b :: (t ++ s))).reverse = s.reverse ++ b' :: (t'.reverse ++ p'.reverse) := by
    rw [← cons_append, ht]
    simp
  obtain ⟨s', -, hright⟩ := stripLeading_append
    (fun e he => hencs e (mem_append_right _ he)) hb' (p' ++ (b :: (t ++ s))).length
    s.reverse (t'.reverse ++ p'.reverse)
  refine ⟨p', s'.reverse, hp', ?_⟩
  rw [cons_append, trimSpace, trimLeftSpace, hleft, trimRightSpace, hrev, hright]
  simp [ht]

theorem stripLeading_spec (hnil : [] ∉ encs) {fuel : ℕ} (hfuel : s.length ≤ fuel) :
    stripLeading encs fuel s <:+ s ∧ ∀ e ∈ encs, ¬e <+: stripLeading encs fuel s := by
  induction fuel generalizing s with
  | zero =>
    obtain rfl : s = [] := length_eq_zero_iff.mp (Nat.le_zero.mp hfuel)
    refine ⟨suffix_rfl, fun e he hpre => hnil ?_⟩
    exact prefix_nil.mp hpre ▸ he
  | succ fuel ih =>
    rw [stripLeading]
    split
    · next e he =>
      have hpos : 0 < e.length := length_pos_iff.mpr fun h =>
        hnil (h ▸ mem_of_find?_eq_some he)
      obtain ⟨hsuf, hlead⟩ := ih (s := s.drop e.length) (by rw [length_drop]; omega)
      exact ⟨hsuf.trans (drop_suffix _ _), hlead⟩
    next hnone =>
    refine ⟨suffix_rfl, fun e he hpre => ?_⟩
    have hfalse := find?_eq_none.mp hnone e he
    exact hfalse <| isPrefixOf_iff_prefix.mpr hpre

theorem stripLeading_of_no_leading (h : ∀ e ∈ encs, ¬e <+: s)
    (fuel : ℕ) : stripLeading encs fuel s = s := by
  cases fuel with
  | zero => rfl
  | succ fuel =>
    have hfind : encs.find? (·.isPrefixOf s) = none :=
      find?_eq_none.mpr fun e he hpre => h e he <| isPrefixOf_iff_prefix.mp hpre
    simp only [stripLeading, hfind]

theorem trimLeftSpace_spec (s) :
    trimLeftSpace s <:+ s ∧ ∀ e ∈ spaceEncodings, ¬e <+: trimLeftSpace s :=
  stripLeading_spec (by decide) le_rfl

theorem trimRightSpace_spec (s) : trimRightSpace s <+: s ∧
    ∀ e ∈ spaceEncodings.map reverse, ¬e <+: (trimRightSpace s).reverse := by
  have hnil : [] ∉ spaceEncodings.map reverse := by decide
  have hlen : s.reverse.length ≤ s.length := length_reverse.le
  obtain ⟨hsuf, hlead⟩ := stripLeading_spec hnil hlen
  refine ⟨reverse_suffix.mp ?_, ?_⟩
  · rwa [trimRightSpace, reverse_reverse]
  · rwa [trimRightSpace, reverse_reverse]

theorem trimSpace_infix (s) : trimSpace s <:+: s :=
  (trimRightSpace_spec _).1.isInfix.trans (trimLeftSpace_spec s).1.isInfix

theorem infix_trimSpace (hb : isGraphic b) (hb' : isGraphic b')
    {t t'} (ht : b :: t = t' ++ [b']) (h : b :: t <:+: s) : b :: t <:+: trimSpace s := by
  obtain ⟨p, r, rfl⟩ := h
  obtain ⟨p', r', -, htrim⟩ := trimSpace_append hb hb' ht p r
  rw [append_assoc, htrim]
  exact ⟨p', r', by rw [append_assoc]⟩

theorem trimSpace_cons_ne_nil (hb : isGraphic b) (s) : trimSpace (b :: s) ≠ [] := by
  have hcons : [b] <+: b :: s := cons_prefix_cons.mpr ⟨rfl, nil_prefix⟩
  have hinfix := infix_trimSpace hb hb (nil_append [b]).symm hcons.isInfix
  intro h
  rw [h] at hinfix
  cases infix_nil.mp hinfix

theorem trimSpace_trimSpace (s) : trimSpace (trimSpace s) = trimSpace s := by
  obtain ⟨-, hleft⟩ := trimLeftSpace_spec s
  obtain ⟨hpre, hright⟩ := trimRightSpace_spec (trimLeftSpace s)
  have hlead : trimLeftSpace (trimSpace s) = trimSpace s :=
    stripLeading_of_no_leading (fun e he h => hleft e he (h.trans hpre)) _
  rw [trimSpace, hlead, trimRightSpace]
  change (stripLeading _ _ (trimRightSpace (trimLeftSpace s)).reverse).reverse = _
  rw [stripLeading_of_no_leading hright, reverse_reverse]
  rfl

theorem not_ws_of_trimSpace_eq (h : trimSpace s = s) :
    (∀ b r, s = b :: r → isWS b = false) ∧ ∀ b r, s = r ++ [b] → isWS b = false := by
  have hws : ∀ b : UInt8, isWS b → [b] ∈ spaceEncodings ∧
      [b] ∈ spaceEncodings.map reverse := forall_byte (by decide +kernel)
  obtain ⟨hsuf, hleft⟩ := trimLeftSpace_spec s
  obtain ⟨hpre, hright⟩ := trimRightSpace_spec (trimLeftSpace s)
  change trimSpace s <+: _ at hpre
  change ∀ e ∈ _, ¬e <+: (trimSpace s).reverse at hright
  rw [h] at hpre hright
  have heq : trimLeftSpace s = s := hsuf.eq_of_length_le hpre.length_le
  rw [heq] at hleft
  refine ⟨fun b r hs => ?_, fun b r hs => ?_⟩
  · cases hb : isWS b with
    | false => rfl
    | true => exact absurd ⟨r, hs.symm⟩ (hleft _ (hws b hb).1)
  cases hb : isWS b with
  | false => rfl
  | true =>
    refine absurd ⟨r.reverse, ?_⟩ (hright _ (hws b hb).2)
    rw [hs, reverse_append]
    rfl

/-! ### Joining -/

/-- `strings.Join`. -/
def joinWith (sep : Bytes) : List Bytes → Bytes
  | [] => []
  | [s] => s
  | s :: t :: r => s ++ sep ++ joinWith sep (t :: r)

end BamlRest
