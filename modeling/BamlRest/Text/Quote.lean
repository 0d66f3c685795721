import BamlRest.Lib.Delimiter
import BamlRest.Text.Strings

/-!
# Writing JSON strings

`appendString` of Go's `encoding/json`, as `json.Marshal` calls it (with HTML escapes).
-/

namespace BamlRest

open List StrState

def hexDigit (n : ℕ) : UInt8 := UInt8.ofNat (if n < 10 then 0x30 + n else 0x61 + (n - 10))

def shortEscape (b : UInt8) : Option UInt8 :=
  if b = '"' ∨ b = '\\' then some b
  else if b = 0x08 then some 'b'
  else if b = 0x0c then some 'f'
  else if b = 0x0a then some 'n'
  else if b = 0x0d then some 'r'
  else if b = 0x09 then some 't'
  else none

/-- The bytes that `htmlSafeSet` has no escape for. -/
def isSafe (b : UInt8) : Bool :=
  0x20 ≤ b && b ≠ '"' && b ≠ '\\' && b ≠ '<' && b ≠ '>' && b ≠ '&'

def quoteByte (b : UInt8) : Bytes :=
  if isSafe b then [b]
  else
    match shortEscape b with
    | some e => ['\\', e]
    | none => "\\u00" ++ [hexDigit (b.toNat / 16), hexDigit (b.toNat % 16)]

def quoteRune (s : Bytes) : Bytes :=
  if decodeRune s = (runeError, 1) then "\\ufffd"
  else if (decodeRune s).1 = 0x2028 then "\\u2028"
  else if (decodeRune s).1 = 0x2029 then "\\u2029"
  else s.take (decodeRune s).2

def quoteBodyF (rec : Bytes → Bytes) : Bytes → Bytes
  | [] => []
  | b :: s =>
    if b < 0x80 then quoteByte b ++ rec s
    else quoteRune (b :: s) ++ rec ((b :: s).drop (decodeRune (b :: s)).2)

def quoteBody : Bytes → Bytes := fixBy List.length quoteBodyF fun _ => []

/-- `json.Marshal` of a string. -/
def quote (s : Bytes) : Bytes := '"'.toUInt8 :: (quoteBody s ++ ['"'.toUInt8])

theorem quoteBody_eq (s) : quoteBody s = quoteBodyF quoteBody s := by
  refine fixBy_eq_of_shrinking (fun f g a h => ?_) s
  cases a with
  | nil => rfl
  | cons b s =>
    have hpos := decodeRune_pos (b := b) s
    have hdrop : f ((b :: s).drop (decodeRune (b :: s)).2) =
        g ((b :: s).drop (decodeRune (b :: s)).2) :=
      h _ (by rw [length_drop, length_cons]; omega)
    rw [quoteBodyF, quoteBodyF, h s (Nat.lt_succ_self _), hdrop]

theorem quoteBody_ascii {b} (hb : b < 0x80) (s) :
    quoteBody (b :: s) = quoteByte b ++ quoteBody s := by
  rw [quoteBody_eq, quoteBodyF, if_pos hb]

theorem quoteBody_high {b} (hb : ¬b < 0x80) (s) : quoteBody (b :: s) =
    quoteRune (b :: s) ++ quoteBody ((b :: s).drop (decodeRune (b :: s)).2) := by
  rw [quoteBody_eq, quoteBodyF, if_neg hb]

/-! ### One character -/

/-- Raw bytes that stand for `t` wherever they are in a string. -/
structure Stands (item t : Bytes) : Prop where
  run : StrState.body.run item = some .body
  content : ∀ raw, unquote (item ++ raw) = (unquote raw).map (t ++ ·)

theorem simpleEscape_of_shortEscape (b : UInt8) : ∀ e ∈ shortEscape b, simpleEscape e = some b := by
  have hall : ∀ b : UInt8, (shortEscape b).all (fun e => simpleEscape e = some b) = true :=
    forall_byte (by decide +kernel)
  intro e he
  have hb := hall b
  rw [Option.mem_def.mp he] at hb
  exact of_decide_eq_true hb

theorem hexDigit_spec : ∀ b : UInt8, isHex (hexDigit (b.toNat / 16)) ∧
    isHex (hexDigit (b.toNat % 16)) ∧
    hexVal (hexDigit (b.toNat / 16)) * 16 + hexVal (hexDigit (b.toNat % 16)) = b.toNat :=
  forall_byte (by decide +kernel)

theorem isSafe_spec : ∀ b : UInt8, isSafe b → b ≠ '\\' ∧ b ≠ '"' ∧ ¬b < 0x20 := by
  grind [isSafe]

theorem run_quoteByte : ∀ b : UInt8, body.run (quoteByte b) = some .body :=
  forall_byte (by decide +kernel)

theorem stands_unicode {h1 h2 h3 h4} (hex1 : isHex h1) (hex2 : isHex h2)
    (hex3 : isHex h3) (hex4 : isHex h4) {n : ℕ}
    (hn : hexVal h1 * 4096 + hexVal h2 * 256 + hexVal h3 * 16 + hexVal h4 = n)
    (hsur : ¬(0xD800 ≤ n ∧ n < 0xE000)) :
    Stands ('\\'.toUInt8 :: 'u'.toUInt8 :: [h1, h2, h3, h4]) (encodeRune n) where
  run := by simp [run, step, hex1, hex2, hex3, hex4]
  content raw := by
    obtain ⟨m, hget, hunquote⟩ := unquote_unicode raw hex1 hex2 hex3 hex4
    rw [getu4, if_pos ⟨rfl, rfl, hex1, hex2, hex3, hex4⟩, hn] at hget
    cases hget
    rw [if_neg hsur] at hunquote
    exact hunquote

theorem stands_quoteByte {b} (hb : b < 0x80) : Stands (quoteByte b) [b] := by
  refine ⟨run_quoteByte b, fun raw => ?_⟩
  unfold quoteByte
  by_cases hsafe : isSafe b
  · obtain ⟨hesc, hquote, hctl⟩ := isSafe_spec b hsafe
    rw [if_pos hsafe]
    exact unquote_ascii hesc hquote hctl hb raw
  rw [if_neg hsafe]
  cases he : shortEscape b with
  | some e => exact unquote_simple (simpleEscape_of_shortEscape b e he) raw
  | none =>
    obtain ⟨hhi, hlo, hval⟩ := hexDigit_spec b
    have hlt : b.toNat < 0x80 := hb
    have henc : encodeRune b.toNat = [b] := (isRune_ascii hlt).encode
    have hzero : hexVal '0' = 0 := rfl
    have hvalue : hexVal '0' * 4096 + hexVal '0' * 256 +
        hexVal (hexDigit (b.toNat / 16)) * 16 + hexVal (hexDigit (b.toNat % 16)) = b.toNat := by
      simp only [hzero, Nat.zero_mul, Nat.zero_add, hval]
    have hstands := stands_unicode rfl rfl hhi hlo hvalue (by omega)
    rw [henc] at hstands
    exact hstands.content raw

theorem stands_rune {ch} {r : ℕ} (hch : IsRune ch r) (hhigh : ∀ b ∈ ch, 0x80 ≤ b.toNat) :
    Stands ch ch where
  run := by
    rw [← append_nil ch, run_high hhigh]
    rfl
  content := unquote_rune hch hhigh

theorem stands_quoteRune {b} (hb : 0x80 ≤ b.toNat) (s) : ∃ t, Stands (quoteRune (b :: s)) t ∧
      (startsRune (b :: s) = true → t = (b :: s).take (decodeRune (b :: s)).2) := by
  by_cases hstart : startsRune (b :: s) = true
  · refine ⟨_, ?_, fun _ => rfl⟩
    obtain ⟨ch, r, rest, hsplit, hch⟩ := exists_isRune hstart
    have hhigh : ∀ c ∈ ch, 0x80 ≤ c.toNat := by
      rcases hch.ascii_or with ⟨c, rfl, hc⟩ | hhigh
      · rw [cons_append, List.cons.injEq] at hsplit
        rw [hsplit.1] at hb
        omega
      · exact hhigh
    have hdec := hch.decode rest
    have hvalid : ¬(r, ch.length) = (runeError, 1) := by
      intro heq
      rw [startsRune, hsplit, hdec, heq] at hstart
      simp at hstart
    rw [quoteRune, hsplit, hdec, take_left, if_neg hvalid]
    dsimp only
    have henc := hch.encode
    split_ifs with h8 h9
    · rw [← henc, h8]
      exact stands_unicode rfl rfl rfl rfl rfl (by decide)
    · rw [← henc, h9]
      exact stands_unicode rfl rfl rfl rfl rfl (by decide)
    · exact stands_rune hch hhigh
  · refine ⟨encodeRune runeError, ?_, fun h => absurd h hstart⟩
    have herr : decodeRune (b :: s) = (runeError, 1) := by
      have hpos := decodeRune_pos (b := b) s
      simp only [startsRune, ne_eq, Bool.and_eq_true, decide_eq_true_eq, Bool.or_eq_true, not_and,
        not_or, not_not] at hstart
      exact Prod.ext (hstart (by omega)).2 (hstart (by omega)).1
    rw [quoteRune, if_pos herr]
    exact stands_unicode rfl rfl rfl rfl rfl (by decide)

/-! ### Whole strings -/

theorem StrState.run_of_run {q : StrState} {a b : Bytes} {q' : StrState} (h : q.run a = some q') :
    q.run (a ++ b) = q'.run b := by
  induction a generalizing q with
  | nil => cases h; rfl
  | cons c a ih =>
    simp only [run, Option.bind_eq_some_iff] at h
    obtain ⟨q1, hq1, hrun⟩ := h
    rw [cons_append, run, hq1, Option.bind_some, ih hrun]

theorem IsStr.cons_item {item t raw u : Bytes} (hitem : Stands item t) (h : IsStr raw u) :
    IsStr (item ++ raw) (t ++ u) where
  run := by rw [run_of_run hitem.run, h.run]
  content := by rw [hitem.content, h.content, Option.map_some]

/-- **What is written is a JSON string**, and stands for the text if that is valid. -/
theorem isStr_quoteBody (s) : ∃ t, IsStr (quoteBody s) t ∧ (validUtf8 s = true → t = s) := by
  induction hn : s.length using Nat.strong_induction_on generalizing s with
  | _ n ih =>
    cases s with
    | nil => exact ⟨[], ⟨rfl, rfl⟩, fun _ => rfl⟩
    | cons b s =>
      by_cases hb : b < 0x80
      · obtain ⟨t, ht, hvalid⟩ := ih s.length (hn ▸ Nat.lt_succ_self _) s rfl
        refine ⟨[b] ++ t, ?_, fun h => ?_⟩
        · rw [quoteBody_ascii hb]
          exact ht.cons_item (stands_quoteByte hb)
        · rw [validUtf8_cons_ascii hb] at h
          rw [hvalid h]
          rfl
      have hpos := decodeRune_pos (b := b) s
      have hlen : ((b :: s).drop (decodeRune (b :: s)).2).length < n := by
        rw [length_drop, hn]
        simp only [length_cons] at hn
        omega
      obtain ⟨t, ht, hvalid⟩ := ih _ hlen _ rfl
      obtain ⟨u, hu, hrune⟩ := stands_quoteRune (Nat.not_lt.mp hb) s
      refine ⟨u ++ t, ?_, fun h => ?_⟩
      · rw [quoteBody_high hb]
        exact ht.cons_item hu
      · rw [validUtf8_eq, if_neg (cons_ne_nil _ _), Bool.and_eq_true] at h
        rw [hrune h.1, hvalid h.2, take_append_drop]

/-! ### Only valid texts are read -/

theorem isRune_encodeRune (r : ℕ) : ∃ r', IsRune (encodeRune r) r' := by
  have hnat : ∀ n, n < 256 → (UInt8.ofNat n).toNat = n := fun n hn => by
    simpa using hn
  unfold encodeRune
  split_ifs with h1 h2 h3 h4
  · exact ⟨_, isRune_ascii (by rw [hnat r (by omega)]; exact h1)⟩
  · refine ⟨_, isRune_two ?_ ?_ ?_ ?_⟩ <;> rw [hnat _ (by omega)] <;> omega
  · exact ⟨_, isRune_three (by decide) (by decide) (by decide) (by decide) (by decide)⟩
  · have h0 := hnat (0xE0 + r / 4096) (by omega)
    have h1 := hnat (0x80 + r / 64 % 64) (by omega)
    have h2 := hnat (0x80 + r % 64) (by omega)
    refine ⟨_, isRune_three ?_ ?_ ?_ ?_ ?_⟩
    · omega
    · omega
    · rw [h0, h1, acceptLo]
      split_ifs <;> omega
    · rw [h0, h1, acceptHi]
      split_ifs <;> omega
    · simp only [isCont, h2, Bool.and_eq_true, decide_eq_true_eq]
      omega
  · have h0 := hnat (0xF0 + r / 262144) (by omega)
    have h1 := hnat (0x80 + r / 4096 % 64) (by omega)
    have h2 := hnat (0x80 + r / 64 % 64) (by omega)
    have h3 := hnat (0x80 + r % 64) (by omega)
    refine ⟨_, isRune_four ?_ ?_ ?_ ?_ ?_ ?_⟩
    · omega
    · omega
    · rw [h0, h1, acceptLo]
      split_ifs <;> omega
    · rw [h0, h1, acceptHi]
      split_ifs <;> omega
    · simp only [isCont, h2, Bool.and_eq_true, decide_eq_true_eq]
      omega
    · simp only [isCont, h3, Bool.and_eq_true, decide_eq_true_eq]
      omega

theorem simpleEscape_ascii (e : UInt8) : ∀ b ∈ simpleEscape e, b.toNat < 0x80 := by
  have hall : ∀ e : UInt8, (simpleEscape e).all (fun b => b.toNat < 0x80) = true :=
    forall_byte (by decide +kernel)
  intro b hb
  have he := hall e
  rw [Option.mem_def.mp hb] at he
  exact of_decide_eq_true he

theorem isRune_of_unquoteItem {s t} {n : ℕ} (h : unquoteItem s = some (t, n)) :
    ∃ r, IsRune t r := by
  cases s with
  | nil => cases h
  | cons c r =>
    simp only [unquoteItem] at h
    split at h
    · split at h
      · cases h
      split at h
      · split at h
        · cases h
        split at h
        · split at h <;> cases h <;> exact isRune_encodeRune _
        · cases h
          exact isRune_encodeRune _
      · obtain ⟨b, hb, he⟩ := Option.map_eq_some_iff.mp h
        cases he
        exact ⟨_, isRune_ascii (simpleEscape_ascii _ b hb)⟩
    · split_ifs at h with _ hascii
      · cases h
        exact ⟨_, isRune_ascii hascii⟩
      · cases h
        exact isRune_encodeRune _

theorem validUtf8_of_unquote {raw t} (h : unquote raw = some t) : validUtf8 t := by
  induction hn : raw.length using Nat.strong_induction_on generalizing raw t with
  | _ n ih =>
    by_cases hraw : raw = []
    · subst hraw
      cases h
      rfl
    rw [unquote_eq hraw, Option.bind_eq_some_iff] at h
    obtain ⟨⟨u, m⟩, hitem, hrest⟩ := h
    obtain ⟨t', ht', rfl⟩ := Option.map_eq_some_iff.mp hrest
    obtain ⟨r, hr⟩ := isRune_of_unquoteItem hitem
    have hpos := unquoteItem_pos hitem
    have hlen := length_pos_iff.mpr hraw
    rw [validUtf8_rune_append hr]
    exact ih _ (by rw [length_drop]; omega) ht' rfl

/-! ### Capital letters -/

def isUpper (b : UInt8) : Bool := ('A' ≤ b && b ≤ 'Z') || b = '_'

theorem quoteByte_upper : ∀ b : UInt8, isUpper b → b < 0x80 ∧ quoteByte b = [b] := by
  grind [isUpper, quoteByte, isSafe]

theorem quoteByte_not_upper : ∀ b : UInt8, isUpper b = false →
    quoteByte b ≠ [] ∧ ∀ x ∈ quoteByte b, isUpper x = false := by
  have hall : ∀ b : UInt8, isUpper b = false →
      quoteByte b ≠ [] ∧ (quoteByte b).any isUpper = false := forall_byte (by decide +kernel)
  intro b hb
  exact ⟨(hall b hb).1, fun x hx => Bool.eq_false_iff.mpr (any_eq_false.mp (hall b hb).2 x hx)⟩

theorem not_upper_of_high : ∀ b : UInt8, 0x80 ≤ b.toNat → isUpper b = false :=
  forall_byte (by decide +kernel)

/-- What is written for the first character of a text: a capital letter, or something without one. -/
inductive FirstQuoted : Bytes → Prop where
  | upper {b s} (hb : isUpper b)
      (heq : quoteBody (b :: s) = b :: quoteBody s) : FirstQuoted (b :: s)
  | other {ch s item} (hne : ch ≠ []) (hch : ∀ x ∈ ch, isUpper x = false) (hitem : item ≠ [])
      (hnot : ∀ x ∈ item, isUpper x = false) (heq : quoteBody (ch ++ s) = item ++ quoteBody s) :
      FirstQuoted (ch ++ s)

theorem quoteRune_not_upper {b s ch rest} (hsplit : b :: s = ch ++ rest)
    (hlen : (decodeRune (b :: s)).2 = ch.length) (hhigh : ∀ x ∈ ch, 0x80 ≤ x.toNat) :
    quoteRune (b :: s) ≠ [] ∧ ∀ x ∈ quoteRune (b :: s), isUpper x = false := by
  have hpos := decodeRune_pos (b := b) s
  have hall : ∀ w : Bytes, w ≠ [] → w.any isUpper = false →
      w ≠ [] ∧ ∀ x ∈ w, isUpper x = false := fun w hne hany =>
    ⟨hne, fun x hx => Bool.eq_false_iff.mpr (any_eq_false.mp hany x hx)⟩
  rw [quoteRune]
  split_ifs
  · exact hall _ (by decide) (by decide)
  · exact hall _ (by decide) (by decide)
  · exact hall _ (by decide) (by decide)
  rw [hlen, hsplit, take_left]
  refine ⟨fun h => ?_, fun x hx => not_upper_of_high x (hhigh x hx)⟩
  rw [hlen, h] at hpos
  exact absurd hpos (Nat.lt_irrefl 0)

theorem firstQuoted {s} (hs : s ≠ []) : FirstQuoted s := by
  obtain ⟨b, s, rfl⟩ := exists_cons_of_ne_nil hs
  cases hb : isUpper b with
  | true =>
    obtain ⟨hascii, hquote⟩ := quoteByte_upper b hb
    refine .upper hb ?_
    rw [quoteBody_ascii hascii, hquote]
    rfl
  | false =>
    by_cases hascii : b < 0x80
    · obtain ⟨hne, hnot⟩ := quoteByte_not_upper b hb
      have hmem : ∀ x ∈ [b], isUpper x = false := by simpa using hb
      exact .other (cons_ne_nil _ _) hmem hne hnot (quoteBody_ascii hascii s)
    obtain ⟨ch, rest, hsplit, hlen, hhigh⟩ := exists_rune_split (Nat.not_lt.mp hascii) s
    obtain ⟨hne, hnot⟩ := quoteRune_not_upper hsplit hlen hhigh
    have heq := quoteBody_high hascii s
    have hch : ch ≠ [] := by
      rintro rfl
      have hpos := decodeRune_pos (b := b) s
      rw [hlen] at hpos
      exact absurd hpos (Nat.lt_irrefl 0)
    rw [hlen, hsplit, drop_left] at heq
    rw [hsplit] at hnot hne ⊢
    exact .other hch (fun x hx => not_upper_of_high x (hhigh x hx)) hne hnot heq

theorem prefix_quoteBody_iff {d} (hd : ∀ x ∈ d, isUpper x) {s} : d <+: quoteBody s ↔ d <+: s := by
  induction d generalizing s with
  | nil => simp
  | cons c d ih =>
    simp only [mem_cons, forall_eq_or_imp] at hd
    by_cases hs : s = []
    · subst hs
      rfl
    cases firstQuoted hs with
    | @upper b s hb heq =>
      rw [heq, cons_prefix_cons, cons_prefix_cons, ih hd.2]
    | @other ch s item hne hch hitem hnot heq =>
      -- neither starts with a capital letter
      have hhead : ∀ {t : Bytes} (r : Bytes), t ≠ [] → (∀ x ∈ t, isUpper x = false) →
          ¬c :: d <+: t ++ r := by
        intro t r ht hupper hpre
        obtain ⟨x, t, rfl⟩ := exists_cons_of_ne_nil ht
        have hfalse := hupper x mem_cons_self
        rw [← (cons_prefix_cons.mp hpre).1, hd.1] at hfalse
        cases hfalse
      rw [heq]
      exact iff_of_false (hhead _ hitem hnot) (hhead _ hne hch)

/-- **A run of capital letters stands in what is written where it stands in the text.** -/
theorem infix_quoteBody_iff {c d} (hd : ∀ x ∈ c :: d, isUpper x)
    {s} : c :: d <:+: quoteBody s ↔ c :: d <:+: s := by
  induction hn : s.length using Nat.strong_induction_on generalizing s with
  | _ n ih =>
    by_cases hs : s = []
    · subst hs
      rfl
    have hskip : ∀ {t : Bytes}, (∀ x ∈ t, isUpper x = false) → c ∉ t := fun ht hc => by
      have hfalse := ht c hc
      rw [hd c mem_cons_self] at hfalse
      cases hfalse
    have hfirst := prefix_quoteBody_iff hd (s := s)
    cases firstQuoted hs with
    | @upper b s hb heq =>
      rw [heq] at hfirst ⊢
      have hlt : s.length < n := by
        rw [length_cons] at hn
        omega
      rw [infix_cons_iff, infix_cons_iff, hfirst, ih s.length hlt rfl]
    | @other ch s item hne hch hitem hnot heq =>
      have hlt : s.length < n := by
        have hpos := length_pos_iff.mpr hne
        rw [length_append] at hn
        omega
      rw [heq, Delimiter.infix_append_iff_of_notMem (hskip hnot),
        Delimiter.infix_append_iff_of_notMem (hskip hch), ih s.length hlt rfl]

end BamlRest
