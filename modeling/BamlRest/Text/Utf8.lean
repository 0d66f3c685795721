import BamlRest.Lib.FuelRec
import BamlRest.Text.Bytes

/-!
# UTF-8

Go's `utf8.DecodeRune`, `utf8.EncodeRune` and `utf8.Valid` on byte strings.
-/

namespace BamlRest

open List

/-- `utf8.RuneError`, the replacement character U+FFFD. -/
def runeError : ℕ := 0xFFFD

/-- The least second byte that may follow the leading byte `x`. -/
def acceptLo (x : ℕ) : ℕ := if x = 0xE0 then 0xA0 else if x = 0xF0 then 0x90 else 0x80

/-- The greatest second byte that may follow the leading byte `x`. -/
def acceptHi (x : ℕ) : ℕ := if x = 0xED then 0x9F else if x = 0xF4 then 0x8F else 0xBF

def isCont (b : UInt8) : Bool := 0x80 ≤ b.toNat && b.toNat ≤ 0xBF

/-- `utf8.DecodeRune`: the first rune of a text and its width, `(runeError, 1)` where the text
does not start with a valid encoding. -/
def decodeRune : Bytes → ℕ × ℕ
  | [] => (runeError, 0)
  | b0 :: s1 =>
    let x := b0.toNat
    if x < 0x80 then (x, 1)
    else if x < 0xC2 ∨ 0xF4 < x then (runeError, 1)
    else
      match s1 with
      | [] => (runeError, 1)
      | b1 :: s2 =>
        let y := b1.toNat
        if y < acceptLo x ∨ acceptHi x < y then (runeError, 1)
        else if x < 0xE0 then ((x - 0xC0) * 64 + (y - 0x80), 2)
        else
          match s2 with
          | [] => (runeError, 1)
          | b2 :: s3 =>
            let z := b2.toNat
            if !isCont b2 then (runeError, 1)
            else if x < 0xF0 then ((x - 0xE0) * 4096 + (y - 0x80) * 64 + (z - 0x80), 3)
            else
              match s3 with
              | [] => (runeError, 1)
              | b3 :: _ =>
                if !isCont b3 then (runeError, 1)
                else
                  ((x - 0xF0) * 262144 + (y - 0x80) * 4096 + (z - 0x80) * 64 +
                    (b3.toNat - 0x80), 4)

/-- `utf8.EncodeRune`: surrogates and values beyond U+10FFFF are encoded as `runeError`. -/
def encodeRune (r : ℕ) : Bytes :=
  if r < 0x80 then [UInt8.ofNat r]
  else if r < 0x800 then [UInt8.ofNat (0xC0 + r / 64), UInt8.ofNat (0x80 + r % 64)]
  else if (0xD800 ≤ r ∧ r ≤ 0xDFFF) ∨ 0x10FFFF < r then [0xEF, 0xBF, 0xBD]
  else if r < 0x10000 then
    [UInt8.ofNat (0xE0 + r / 4096), UInt8.ofNat (0x80 + r / 64 % 64), UInt8.ofNat (0x80 + r % 64)]
  else
    [UInt8.ofNat (0xF0 + r / 262144), UInt8.ofNat (0x80 + r / 4096 % 64),
      UInt8.ofNat (0x80 + r / 64 % 64), UInt8.ofNat (0x80 + r % 64)]

def startsRune (s : Bytes) : Bool :=
  (decodeRune s).2 ≠ 0 && ((decodeRune s).2 ≠ 1 || (decodeRune s).1 ≠ runeError)

/-- `utf8.Valid`. -/
def validUtf8 : Bytes → Bool :=
  fixBy List.length
    (fun rec s => if s = [] then true else startsRune s && rec (s.drop (decodeRune s).2))
    (fun _ => true)

/-! ### Single encodings -/

/-- The bytes `ch` encode the rune `r`, whatever text follows them. -/
structure IsRune (ch : Bytes) (r : ℕ) : Prop where
  decode : ∀ s, decodeRune (ch ++ s) = (r, ch.length)
  encode : encodeRune r = ch
  starts : ∀ s, startsRune (ch ++ s)
  ascii_or : (∃ b : UInt8, ch = [b] ∧ b.toNat < 0x80) ∨ ∀ b ∈ ch, 0x80 ≤ b.toNat

theorem IsRune.ne_nil {ch} {r : ℕ} (h : IsRune ch r) : ch ≠ [] := by
  rintro rfl
  have hs := h.starts []
  simp [startsRune, decodeRune] at hs

theorem IsRune.length_pos {ch} {r : ℕ} (h : IsRune ch r) : 0 < ch.length :=
  length_pos_iff.mpr h.ne_nil

theorem isRune_ascii {b} (h : b.toNat < 0x80) : IsRune [b] b.toNat where
  decode s := by simp [decodeRune, h]
  encode := by simp [encodeRune, h]
  starts s := by
    have hne : b.toNat ≠ runeError := by simp only [runeError]; omega
    simp [startsRune, decodeRune, h, hne]
  ascii_or := .inl ⟨b, rfl, h⟩

private theorem ofNat_eq_of_toNat {n : ℕ} {b} (h : n = b.toNat) : UInt8.ofNat n = b := by
  rw [h, UInt8.ofNat_toNat]

theorem isRune_two {b0 b1} (h0 : 0xC2 ≤ b0.toNat) (h0' : b0.toNat < 0xE0)
    (h1 : 0x80 ≤ b1.toNat) (h1' : b1.toNat ≤ 0xBF) :
    IsRune [b0, b1] ((b0.toNat - 0xC0) * 64 + (b1.toNat - 0x80)) := by
  have hlo : acceptLo b0.toNat = 0x80 := by simp only [acceptLo]; split_ifs <;> omega
  have hhi : acceptHi b0.toNat = 0xBF := by simp only [acceptHi]; split_ifs <;> omega
  have hdec : ∀ s, decodeRune ([b0, b1] ++ s) =
      ((b0.toNat - 0xC0) * 64 + (b1.toNat - 0x80), 2) := by
    intro s
    simp only [cons_append, nil_append, decodeRune, hlo, hhi]
    rw [if_neg (by omega), if_neg (by omega), if_neg (by omega), if_pos h0']
  refine ⟨hdec, ?_, fun s => by rw [startsRune, hdec s]; simp, .inr ?_⟩
  · rw [encodeRune, if_neg (by omega), if_pos (by omega),
      ofNat_eq_of_toNat (b := b0) (by omega), ofNat_eq_of_toNat (b := b1) (by omega)]
  · intro b hb
    simp only [mem_cons, not_mem_nil, or_false] at hb
    rcases hb with rfl | rfl <;> omega

theorem isRune_three {b0 b1 b2} (h0 : 0xE0 ≤ b0.toNat) (h0' : b0.toNat < 0xF0)
    (h1 : acceptLo b0.toNat ≤ b1.toNat) (h1' : b1.toNat ≤ acceptHi b0.toNat) (h2 : isCont b2) :
    IsRune [b0, b1, b2]
      ((b0.toNat - 0xE0) * 4096 + (b1.toNat - 0x80) * 64 + (b2.toNat - 0x80)) := by
  have hdec : ∀ s, decodeRune ([b0, b1, b2] ++ s) =
      ((b0.toNat - 0xE0) * 4096 + (b1.toNat - 0x80) * 64 + (b2.toNat - 0x80), 3) := by
    intro s
    simp only [cons_append, nil_append, decodeRune]
    rw [if_neg (by omega), if_neg (by omega), if_neg (by omega), if_neg (by omega),
      if_neg (by simp [h2]), if_pos h0']
  simp only [isCont, Bool.and_eq_true, decide_eq_true_eq] at h2
  have hlo : acceptLo b0.toNat = if b0.toNat = 0xE0 then 0xA0 else 0x80 := by
    simp only [acceptLo]; split_ifs <;> omega
  have hhi : acceptHi b0.toNat = if b0.toNat = 0xED then 0x9F else 0xBF := by
    simp only [acceptHi]; split_ifs <;> omega
  rw [hlo] at h1
  rw [hhi] at h1'
  refine ⟨hdec, ?_, fun s => by rw [startsRune, hdec s]; simp, .inr ?_⟩
  · rw [encodeRune, if_neg (by split_ifs at * <;> omega), if_neg (by split_ifs at * <;> omega),
      if_neg (by split_ifs at * <;> omega), if_pos (by split_ifs at * <;> omega),
      ofNat_eq_of_toNat (b := b0) (by split_ifs at * <;> omega),
      ofNat_eq_of_toNat (b := b1) (by split_ifs at * <;> omega),
      ofNat_eq_of_toNat (b := b2) (by split_ifs at * <;> omega)]
  · intro b hb
    simp only [mem_cons, not_mem_nil, or_false] at hb
    rcases hb with rfl | rfl | rfl <;> split_ifs at * <;> omega

theorem isRune_four {b0 b1 b2 b3} (h0 : 0xF0 ≤ b0.toNat) (h0' : b0.toNat ≤ 0xF4)
    (h1 : acceptLo b0.toNat ≤ b1.toNat) (h1' : b1.toNat ≤ acceptHi b0.toNat)
    (h2 : isCont b2) (h3 : isCont b3) : IsRune [b0, b1, b2, b3]
      ((b0.toNat - 0xF0) * 262144 + (b1.toNat - 0x80) * 4096 + (b2.toNat - 0x80) * 64 +
        (b3.toNat - 0x80)) := by
  have hdec : ∀ s, decodeRune ([b0, b1, b2, b3] ++ s) =
      ((b0.toNat - 0xF0) * 262144 + (b1.toNat - 0x80) * 4096 + (b2.toNat - 0x80) * 64 +
        (b3.toNat - 0x80), 4) := by
    intro s
    simp only [cons_append, nil_append, decodeRune]
    rw [if_neg (by omega), if_neg (by omega), if_neg (by omega), if_neg (by omega),
      if_neg (by simp [h2]), if_neg (by omega), if_neg (by simp [h3])]
  simp only [isCont, Bool.and_eq_true, decide_eq_true_eq] at h2 h3
  have hlo : acceptLo b0.toNat = if b0.toNat = 0xF0 then 0x90 else 0x80 := by
    simp only [acceptLo]; split_ifs <;> omega
  have hhi : acceptHi b0.toNat = if b0.toNat = 0xF4 then 0x8F else 0xBF := by
    simp only [acceptHi]; split_ifs <;> omega
  rw [hlo] at h1
  rw [hhi] at h1'
  refine ⟨hdec, ?_, fun s => by rw [startsRune, hdec s]; simp, .inr ?_⟩
  · rw [encodeRune, if_neg (by split_ifs at * <;> omega), if_neg (by split_ifs at * <;> omega),
      if_neg (by split_ifs at * <;> omega), if_neg (by split_ifs at * <;> omega),
      ofNat_eq_of_toNat (b := b0) (by split_ifs at * <;> omega),
      ofNat_eq_of_toNat (b := b1) (by split_ifs at * <;> omega),
      ofNat_eq_of_toNat (b := b2) (by split_ifs at * <;> omega),
      ofNat_eq_of_toNat (b := b3) (by split_ifs at * <;> omega)]
  · intro b hb
    simp only [mem_cons, not_mem_nil, or_false] at hb
    rcases hb with rfl | rfl | rfl | rfl <;> split_ifs at * <;> omega

/-- **A text that starts with a valid encoding** is the encoding of a rune and a rest. -/
theorem exists_isRune {s} (h : startsRune s) : ∃ ch r rest, s = ch ++ rest ∧ IsRune ch r := by
  have herr : ∀ w, decodeRune s = (runeError, w) → w ≤ 1 → False := by
    intro w hw hle
    simp only [startsRune, hw, Bool.and_eq_true, decide_eq_true_eq, Bool.or_eq_true, ne_eq,
      not_true_eq_false, or_false] at h
    omega
  match s, herr with
  | [], herr => exact (herr 0 rfl (by omega)).elim
  | b0 :: s1, herr =>
    unfold decodeRune at herr
    by_cases hx : b0.toNat < 0x80
    · exact ⟨[b0], _, s1, rfl, isRune_ascii hx⟩
    by_cases hx2 : b0.toNat < 0xC2 ∨ 0xF4 < b0.toNat
    · simp [hx, hx2] at herr
    match s1, herr with
    | [], herr => simp [hx, hx2] at herr
    | b1 :: s2, herr =>
      by_cases hy : b1.toNat < acceptLo b0.toNat ∨ acceptHi b0.toNat < b1.toNat
      · simp [hx, hx2, hy] at herr
      by_cases hx3 : b0.toNat < 0xE0
      · refine ⟨[b0, b1], _, s2, rfl, isRune_two (by omega) hx3 ?_ ?_⟩
        · simp only [acceptLo] at hy; split_ifs at hy <;> omega
        · simp only [acceptHi] at hy; split_ifs at hy <;> omega
      match s2, herr with
      | [], herr => simp [hx, hx2, hy, hx3] at herr
      | b2 :: s3, herr =>
        by_cases hz : isCont b2
        · by_cases hx4 : b0.toNat < 0xF0
          · exact ⟨[b0, b1, b2], _, s3, rfl, isRune_three (by omega) hx4 (by omega) (by omega) hz⟩
          match s3, herr with
          | [], herr => simp [hx, hx2, hy, hx3, hz, hx4] at herr
          | b3 :: s4, herr =>
            by_cases hw : isCont b3
            · exact ⟨[b0, b1, b2, b3], _, s4, rfl,
                isRune_four (by omega) (by omega) (by omega) (by omega) hz hw⟩
            · simp [hx, hx2, hy, hx3, hz, hx4, hw] at herr
        · simp [hx, hx2, hy, hx3, hz] at herr

@[simp] theorem validUtf8_nil : validUtf8 [] := rfl

/-! ### Valid texts -/

theorem validUtf8_eq (s) :
    validUtf8 s = if s = [] then true else startsRune s && validUtf8 (s.drop (decodeRune s).2) := by
  refine fixBy_eq_of_shrinking (fun f g a h => ?_) s
  by_cases ha : a = []
  · simp [ha]
  cases hr : startsRune a with
  | false => simp [ha]
  | true =>
    obtain ⟨ch, r, rest, rfl, hch⟩ := exists_isRune hr
    have hlen := hch.length_pos
    simp only [ha, if_false, Bool.true_and, hch.decode]
    exact h _ (by simp only [length_drop, length_append]; omega)

theorem validUtf8_rune_append {ch} {r : ℕ} (h : IsRune ch r) (s) :
    validUtf8 (ch ++ s) = validUtf8 s := by
  rw [validUtf8_eq, if_neg (by simp [h.ne_nil]), h.starts, h.decode]
  simp

theorem validUtf8_cons_ascii {b} (h : b.toNat < 0x80) (s) : validUtf8 (b :: s) = validUtf8 s :=
  validUtf8_rune_append (isRune_ascii h) s

end BamlRest
