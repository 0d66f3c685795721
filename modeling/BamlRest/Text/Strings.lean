import BamlRest.Text.Json

/-!
# The contents of JSON strings

The scanner of `encoding/json` runs over the raw bytes of a string one by one; `unquote` then takes
them item by item: an escape, a surrogate pair of escapes, or the encoding of a rune.
-/

namespace BamlRest

open Option List StrState

/-- The first item of an accepted string: a simple escape, a `\uXXXX`, or a plain byte. -/
inductive FirstItem : Bytes → Prop where
  | simple {e : UInt8} {raw : Bytes} (he : isSimpleEscape e)
      (hrun : StrState.body.run raw = some .body) : FirstItem ('\\'.toUInt8 :: e :: raw)
  | unicode {h1 h2 h3 h4 : UInt8} {raw : Bytes} (hex1 : isHex h1) (hex2 : isHex h2)
      (hex3 : isHex h3) (hex4 : isHex h4) (hrun : StrState.body.run raw = some .body) :
      FirstItem ('\\'.toUInt8 :: 'u'.toUInt8 :: h1 :: h2 :: h3 :: h4 :: raw)
  | plain {b : UInt8} {raw : Bytes} (hesc : b ≠ '\\') (hquote : b ≠ '"')
      (hctl : ¬b < 0x20) (hrun : StrState.body.run raw = some .body) : FirstItem (b :: raw)

theorem StrState.run_append {q q' : StrState} {a b : Bytes} (h : q.run (a ++ b) = some q') :
    ∃ q1, q.run a = some q1 ∧ q1.run b = some q' := by
  induction a generalizing q with
  | nil => exact ⟨q, rfl, h⟩
  | cons c a ih =>
    simp only [cons_append, run, bind_eq_some_iff] at h
    obtain ⟨q2, hq2, hrun⟩ := h
    obtain ⟨q1, hq1, hb⟩ := ih hrun
    exact ⟨q1, by simp [run, hq2, hq1], hb⟩

variable {raw : Bytes}

theorem StrState.run_hex {k : ℕ} (h : (hex k).run raw = some .body) :
    ∃ b raw', raw = b :: raw' ∧ isHex b ∧ match k with
      | 0 => body.run raw' = some .body
      | k + 1 => (hex k).run raw' = some .body := by
  cases raw with
  | nil => cases h
  | cons b raw =>
    cases k <;>
    · simp only [run, step, bind_eq_some_iff] at h
      obtain ⟨q, hq, hrun⟩ := h
      split at hq
      · next hb =>
        cases hq
        exact ⟨b, raw, rfl, hb, hrun⟩
      · cases hq

theorem StrState.run_body_cases (h : body.run raw = some .body)
    (hne : raw ≠ []) : FirstItem raw := by
  cases raw with
  | nil => exact absurd rfl hne
  | cons b raw =>
    simp only [run, step, bind_eq_some_iff] at h
    obtain ⟨q, hq, hrun⟩ := h
    split at hq
    · next hesc =>
      cases hq
      subst hesc
      cases raw with
      | nil => cases hrun
      | cons e raw =>
        simp only [run, step, bind_eq_some_iff] at hrun
        obtain ⟨q, hq, hrun⟩ := hrun
        split at hq
        · next hu =>
          cases hq
          subst hu
          obtain ⟨h1, raw1, rfl, hex1, hrun1⟩ := run_hex hrun
          obtain ⟨h2, raw2, rfl, hex2, hrun2⟩ := run_hex hrun1
          obtain ⟨h3, raw3, rfl, hex3, hrun3⟩ := run_hex hrun2
          obtain ⟨h4, raw4, rfl, hex4, hrun4⟩ := run_hex hrun3
          exact .unicode hex1 hex2 hex3 hex4 hrun4
        split at hq
        · next he =>
          cases hq
          exact .simple he hrun
        · cases hq
    split at hq
    · cases hq
    · next hesc hplain =>
      cases hq
      exact .plain hesc (fun hb => hplain (.inr hb)) (fun hb => hplain (.inl hb)) hrun

/-- Induction over an accepted string, item by item. -/
@[elab_as_elim] theorem StrState.run_body_rec {motive : Bytes → Prop}
    (h : body.run raw = some .body) (nil : motive [])
    (item : ∀ raw, body.run raw = some .body → FirstItem raw →
      (∀ rest, rest.length < raw.length → body.run rest = some .body → motive rest) →
      motive raw) : motive raw := by
  induction hn : raw.length using Nat.strong_induction_on generalizing raw with
  | _ n ih =>
    by_cases hne : raw = []
    · exact hne ▸ nil
    · exact item raw h (run_body_cases h hne) fun rest hlt hrun => ih _ (hn ▸ hlt) hrun rfl

/-! ### `unquote`, item by item -/

variable {b : UInt8}

theorem decodeRune_pos (s) : 0 < (decodeRune (b :: s)).2 := by
  simp only [decodeRune]
  repeat' first | exact Nat.succ_pos _ | split

variable {t s : Bytes} {n : ℕ}

theorem unquoteItem_pos (h : unquoteItem s = some (t, n)) : 0 < n := by
  cases s with
  | nil => cases h
  | cons c r =>
    simp only [unquoteItem] at h
    split at h
    · split at h
      · cases h
      split at h
      · split at h
        · cases h
        · split at h
          · split at h <;> cases h <;> decide
          · cases h; decide
      · obtain ⟨b, -, he⟩ := map_eq_some_iff.mp h
        cases he
        decide
    · split_ifs at h
      · cases h; decide
      · cases h; exact decodeRune_pos r

theorem unquote_eq (hs : s ≠ []) :
    unquote s = (unquoteItem s).bind fun (t, n) => (unquote (s.drop n)).map (t ++ ·) := by
  have heq : unquote s = if s = [] then some []
      else (unquoteItem s).bind fun (t, n) => (unquote (s.drop n)).map (t ++ ·) := by
    refine fixBy_eq_of_shrinking (fun f g a h => ?_) s
    by_cases ha : a = []
    · simp [ha]
    simp only [ha, if_false]
    refine Option.bind_congr fun ⟨t, n⟩ ht => ?_
    have hpos := unquoteItem_pos ht
    have hlen := length_pos_iff.mpr ha
    rw [h (a.drop n) (by rw [length_drop]; omega)]
  rw [heq, if_neg hs]

theorem unquote_of_item (h : unquoteItem s = some (t, n)) :
    unquote s = (unquote (s.drop n)).map (t ++ ·) := by
  have hs : s ≠ [] := by rintro rfl; cases h
  rw [unquote_eq hs, h, bind_some]

theorem unquote_simple {e} (he : simpleEscape e = some b) (raw) :
    unquote ('\\'.toUInt8 :: e :: raw) = (unquote raw).map (b :: ·) := by
  have hu : e ≠ 'u' := by rintro rfl; cases he
  have hitem : unquoteItem ('\\'.toUInt8 :: e :: raw) = some ([b], 2) := by
    rw [unquoteItem.eq_def]
    simp only [if_true, if_neg hu, he, map_some]
  exact unquote_of_item hitem

theorem unquote_ascii (hesc : b ≠ '\\') (hquote : b ≠ '"')
    (hctl : ¬b < 0x20) (hb : b < 0x80) (raw) : unquote (b :: raw) = (unquote raw).map (b :: ·) := by
  have hitem : unquoteItem (b :: raw) = some ([b], 1) := by
    rw [unquoteItem.eq_def]
    simp only [if_neg hesc, if_pos hb]
    rw [if_neg (not_or.mpr ⟨hquote, hctl⟩)]
  exact unquote_of_item hitem

theorem high_byte : ∀ b : UInt8, 0x80 ≤ b.toNat → b ≠ '\\' ∧ b ≠ '"' ∧ ¬b < 0x20 ∧ ¬b < 0x80 :=
  forall_byte (by decide +kernel)

theorem unquoteItem_high (h : 0x80 ≤ b.toNat) (raw) : unquoteItem (b :: raw) =
      some (encodeRune (decodeRune (b :: raw)).1, (decodeRune (b :: raw)).2) := by
  obtain ⟨hesc, hquote, hctl, hb⟩ := high_byte b h
  rw [unquoteItem.eq_def]
  simp only [if_neg hesc, if_neg hb]
  rw [if_neg (not_or.mpr ⟨hquote, hctl⟩)]

theorem unquote_rune {ch} {r : ℕ} (hch : IsRune ch r) (hhigh : ∀ b ∈ ch, 0x80 ≤ b.toNat)
    (raw) : unquote (ch ++ raw) = (unquote raw).map (ch ++ ·) := by
  have hitem : unquoteItem (ch ++ raw) = some (ch, ch.length) := by
    have hdec := hch.decode raw
    cases ch with
    | nil => exact absurd rfl hch.ne_nil
    | cons b ch =>
      rw [cons_append] at hdec ⊢
      rw [unquoteItem_high (hhigh b (by simp)), hdec, hch.encode]
  rw [unquote_of_item hitem, drop_left]

/-! ### Cutting a string -/

theorem acceptLo_ge (x : ℕ) : 0x80 ≤ acceptLo x := by
  simp only [acceptLo]
  split_ifs <;> omega

theorem acceptHi_le (x : ℕ) : acceptHi x ≤ 0xBF := by
  simp only [acceptHi]
  split_ifs <;> omega

variable {r : Bytes}

theorem decodeRune_append (s) (hr : ∀ c, r.head? = some c → isCont c = false) :
    decodeRune (b :: (s ++ r)) = decodeRune (b :: s) := by
  cases r with
  | nil => rw [append_nil]
  | cons c r =>
    have hc := hr c rfl
    have hout : ∀ x, c.toNat < acceptLo x ∨ acceptHi x < c.toNat := by
      intro x
      have hlo := acceptLo_ge x
      have hhi := acceptHi_le x
      simp only [isCont, Bool.and_eq_false_iff, decide_eq_false_iff_not] at hc
      omega
    -- a rune takes at most three more bytes
    rcases s with _ | ⟨b1, _ | ⟨b2, _ | ⟨b3, s⟩⟩⟩
    · simp [decodeRune, hout]
    · simp [decodeRune, hc]
    · simp [decodeRune, hc]
    · simp [decodeRune]

theorem StrState.run_high {ch} (h : ∀ b ∈ ch, 0x80 ≤ b.toNat) (raw) :
    body.run (ch ++ raw) = body.run raw := by
  induction ch with
  | nil => rfl
  | cons b ch ih =>
    simp only [mem_cons, forall_eq_or_imp] at h
    obtain ⟨hesc, hquote, hctl, -⟩ := high_byte b h.1
    rw [cons_append, run, step, if_neg hesc, if_neg (not_or.mpr ⟨hctl, hquote⟩), bind_some, ih h.2]

theorem exists_rune_split (hb : 0x80 ≤ b.toNat) (s) :
    ∃ ch rest, b :: s = ch ++ rest ∧ (decodeRune (b :: s)).2 = ch.length ∧
      ∀ x ∈ ch, 0x80 ≤ x.toNat := by
  by_cases hstart : startsRune (b :: s) = true
  · obtain ⟨ch, r, rest, hsplit, hch⟩ := exists_isRune hstart
    refine ⟨ch, rest, hsplit, by rw [hsplit, hch.decode], ?_⟩
    rcases hch.ascii_or with ⟨b', rfl, hb'⟩ | hhigh
    · simp only [cons_append, List.cons.injEq] at hsplit
      rw [hsplit.1] at hb
      omega
    · exact hhigh
  refine ⟨[b], s, rfl, ?_, by simpa using hb⟩
  have hpos := decodeRune_pos (b := b) s
  simp only [startsRune, ne_eq, Bool.and_eq_true, decide_eq_true_eq, Bool.or_eq_true, not_and,
    not_or, not_not] at hstart
  exact (hstart (by omega)).1

theorem simpleEscape_isSome : ∀ e : UInt8, isSimpleEscape e → (simpleEscape e).isSome ∧ e ≠ 'u' :=
  forall_byte (by decide +kernel)

/-- A `\uXXXX` escape for the first half of a surrogate pair. -/
def isHighSurrogate (r : ℕ) : Bool := 0xD800 ≤ r && r < 0xDC00

/-- A `\uXXXX` escape for the second half of a surrogate pair. -/
def isLowSurrogate (r : ℕ) : Bool := 0xDC00 ≤ r && r < 0xE000

def cutsPair (p q : Bytes) : Bool :=
  (getu4 (p.drop (p.length - 6))).any isHighSurrogate && (getu4 q).any isLowSurrogate

theorem take_two_of_getu4 (h : getu4 s = some n) : s.take 2 = ['\\', 'u'] := by
  rw [getu4.eq_def] at h
  split at h
  · split at h
    · next hs => rw [hs.1, hs.2.1]; rfl
    · cases h
  · cases h

theorem getu4_eq_none (h : s.take 2 ≠ ['\\', 'u']) : getu4 s = none := by
  cases hg : getu4 s with
  | none => rfl
  | some n => exact absurd (take_two_of_getu4 hg) h

theorem getu4_append (h : body.run raw = some .body) (hne : raw ≠ [])
    (r) : getu4 (raw ++ r) = getu4 raw := by
  cases run_body_cases h hne with
  | @simple e raw he hrun =>
    have hu := (simpleEscape_isSome e he).2
    have hnone : ∀ s, getu4 ('\\'.toUInt8 :: e :: s) = none := fun s =>
      getu4_eq_none fun hs => hu (List.cons.inj (List.cons.inj hs).2).1
    rw [cons_append, cons_append, hnone, hnone]
  | unicode => rfl
  | @plain b raw hesc =>
    have hnone : ∀ s, getu4 (b :: s) = none := fun s =>
      getu4_eq_none fun hs => hesc (List.cons.inj hs).1
    rw [cons_append, hnone, hnone]

theorem unquote_unicode {h1 h2 h3 h4} (raw) (hex1 : isHex h1)
    (hex2 : isHex h2) (hex3 : isHex h3) (hex4 : isHex h4) :
    ∃ n, getu4 ('\\'.toUInt8 :: 'u'.toUInt8 :: h1 :: h2 :: h3 :: h4 :: raw) = some n ∧
      unquote ('\\'.toUInt8 :: 'u'.toUInt8 :: h1 :: h2 :: h3 :: h4 :: raw) =
        if 0xD800 ≤ n ∧ n < 0xE000 then match decodeSurrogates n (getu4 raw) with
          | some dec => (unquote (raw.drop 6)).map (encodeRune dec ++ ·)
          | none => (unquote raw).map (encodeRune runeError ++ ·)
        else (unquote raw).map (encodeRune n ++ ·) := by
  have hget : getu4 ('\\'.toUInt8 :: 'u'.toUInt8 :: h1 :: h2 :: h3 :: h4 :: raw) =
      some (hexVal h1 * 4096 + hexVal h2 * 256 + hexVal h3 * 16 + hexVal h4) := by
    rw [getu4, if_pos ⟨rfl, rfl, hex1, hex2, hex3, hex4⟩]
  refine ⟨_, hget, ?_⟩
  rw [unquote_eq (by simp), unquoteItem.eq_def]
  simp only [if_true, hget, drop_succ_cons, drop_zero]
  split
  · generalize decodeSurrogates _ (getu4 raw) = dec
    cases dec <;> simp
  · simp

theorem length_of_getu4 (h : getu4 s = some n) : 6 ≤ s.length := by
  rw [getu4.eq_def] at h
  split at h
  · simp only [length_cons]
    omega
  · cases h

theorem cutsPair_of_append {a} (h : cutsPair (a ++ raw) r = false) : cutsPair raw r = false := by
  by_cases hlen : 6 ≤ raw.length
  · have hdrop : (a ++ raw).drop ((a ++ raw).length - 6) = raw.drop (raw.length - 6) := by
      rw [length_append, drop_append, drop_eq_nil_of_le (by omega), nil_append]
      congr 1
      omega
    rwa [cutsPair, hdrop] at h
  have hnone : getu4 (raw.drop (raw.length - 6)) = none := by
    cases hg : getu4 (raw.drop (raw.length - 6)) with
    | none => rfl
    | some n =>
      have hle := length_of_getu4 hg
      rw [length_drop] at hle
      omega
  rw [cutsPair, hnone]
  rfl

theorem drop_six_of_getu4 (h : body.run raw = some .body) (hg : getu4 raw = some n) :
    ∃ six rest, raw = six ++ rest ∧ six.length = 6 ∧ body.run rest = some .body := by
  have hne : raw ≠ [] := by rintro rfl; cases hg
  have htwo := take_two_of_getu4 hg
  cases run_body_cases h hne with
  | @simple e raw he hrun =>
    exact absurd (List.cons.inj (List.cons.inj htwo).2).1 (simpleEscape_isSome e he).2
  | @unicode h1 h2 h3 h4 raw _ _ _ _ hrun =>
    exact ⟨['\\', 'u', h1, h2, h3, h4], raw, rfl, rfl, hrun⟩
  | plain hesc => exact absurd (List.cons.inj htwo).1 hesc

theorem decodeSurrogates_append (h : body.run raw = some .body)
    (hcut : raw = [] → isHighSurrogate n → (getu4 r).any isLowSurrogate = false) :
    decodeSurrogates n (getu4 (raw ++ r)) = decodeSurrogates n (getu4 raw) := by
  by_cases hne : raw = []
  · subst hne
    rw [nil_append]
    cases hg : getu4 r with
    | none => rfl
    | some m =>
      have hnot : ¬(0xD800 ≤ n ∧ n < 0xDC00 ∧ 0xDC00 ≤ m ∧ m < 0xE000) := by
        rintro ⟨h1, h2, h3, h4⟩
        have hlow := hcut rfl (by simp [isHighSurrogate, h1, h2])
        simp [hg, isLowSurrogate, h3, h4] at hlow
      rw [decodeSurrogates, if_neg hnot]
      rfl
  · rw [getu4_append h hne]

/-- **A string cut between two items**: its content is the front of the whole content. -/
theorem unquote_append (h : body.run raw = some .body)
    (hrune : ∀ c, r.head? = some c → isCont c = false) (hpair : cutsPair raw r = false)
    (ht : unquote (raw ++ r) = some t) : ∃ t', unquote raw = some t' ∧ t' <+: t := by
  induction hn : raw.length using Nat.strong_induction_on generalizing raw t with
  | _ n ih =>
    -- one item `a` with the content `u`, and a rest to which the induction applies
    have hitem : ∀ {a rest u : Bytes}, raw = a ++ rest → 0 < a.length →
        body.run rest = some .body →
        unquote (raw ++ r) = (unquote (rest ++ r)).map (u ++ ·) →
        unquote raw = (unquote rest).map (u ++ ·) → ∃ t', unquote raw = some t' ∧ t' <+: t := by
      intro a rest u hraw hpos hrun hwhole hcut
      rw [hwhole, map_eq_some_iff] at ht
      obtain ⟨t1, ht1, rfl⟩ := ht
      have hlt : rest.length < n := by
        rw [← hn, hraw, length_append]
        omega
      obtain ⟨t2, ht2, hpre⟩ := ih rest.length hlt hrun (cutsPair_of_append (hraw ▸ hpair)) ht1 rfl
      rw [hcut, ht2]
      exact ⟨u ++ t2, rfl, (prefix_append_right_inj u).mpr hpre⟩
    by_cases hne : raw = []
    · exact ⟨[], by rw [hne]; rfl, nil_prefix⟩
    cases run_body_cases h hne with
    | @simple e raw he hrun =>
      obtain ⟨b, hb⟩ := isSome_iff_exists.mp (simpleEscape_isSome e he).1
      exact hitem (a := ['\\', e]) (u := [b]) rfl (Nat.succ_pos _) hrun
        (unquote_simple hb _) (unquote_simple hb _)
    | @unicode h1 h2 h3 h4 raw hex1 hex2 hex3 hex4 hrun =>
      obtain ⟨m, hm, hcut⟩ := unquote_unicode raw hex1 hex2 hex3 hex4
      obtain ⟨m', hm', hwhole⟩ := unquote_unicode (raw ++ r) hex1 hex2 hex3 hex4
      obtain rfl : m = m' := by
        have heq := getu4_append h hne r
        simp only [cons_append] at heq
        rw [hm, hm'] at heq
        exact (Option.some.inj heq).symm
      have hsame : decodeSurrogates m (getu4 (raw ++ r)) = decodeSurrogates m (getu4 raw) := by
        refine decodeSurrogates_append hrun fun hnil hhigh => ?_
        subst hnil
        have hcuts : cutsPair ['\\', 'u', h1, h2, h3, h4] r =
            (isHighSurrogate m && (getu4 r).any isLowSurrogate) := by
          rw [cutsPair]
          exact congrArg (· && _) (congrArg (Option.any isHighSurrogate) hm)
        rwa [hcuts, hhigh, Bool.true_and] at hpair
      rw [hsame] at hwhole
      have hpos : 0 < ['\\'.toUInt8, 'u'.toUInt8, h1, h2, h3, h4].length := Nat.succ_pos _
      split_ifs at hcut hwhole with hsur
      · cases hd : decodeSurrogates m (getu4 raw) with
        | none =>
          simp only [hd] at hcut hwhole
          exact hitem (a := ['\\', 'u', h1, h2, h3, h4]) rfl hpos hrun hwhole hcut
        | some dec =>
          simp only [hd] at hcut hwhole
          have hget : ∃ k, getu4 raw = some k := by
            cases hg : getu4 raw with
            | none => rw [hg] at hd; cases hd
            | some k => exact ⟨k, rfl⟩
          obtain ⟨k, hk⟩ := hget
          obtain ⟨six, rest, rfl, hsix, hrest⟩ := drop_six_of_getu4 hrun hk
          rw [List.append_assoc, ← hsix, drop_left] at hwhole
          rw [← hsix, drop_left] at hcut
          exact hitem (a := ['\\'.toUInt8, 'u'.toUInt8, h1, h2, h3, h4] ++ six) rfl
            (by rw [length_append]; omega) hrest (by simpa using hwhole) hcut
      · exact hitem (a := ['\\', 'u', h1, h2, h3, h4]) rfl hpos hrun hwhole hcut
    | @plain b raw hesc hquote hctl hrun =>
      by_cases hascii : b.toNat < 0x80
      · have hb : b < 0x80 := UInt8.lt_iff_toNat_lt.mpr hascii
        exact hitem (a := [b]) (u := [b]) rfl (Nat.succ_pos _) hrun
          (unquote_ascii hesc hquote hctl hb _) (unquote_ascii hesc hquote hctl hb _)
      have hb : 0x80 ≤ b.toNat := by omega
      obtain ⟨ch, rest, hsplit, hlen, hhigh⟩ := exists_rune_split hb raw
      have hpos := decodeRune_pos (b := b) raw
      rw [hsplit] at h
      refine hitem (u := encodeRune (decodeRune (b :: raw)).1) hsplit (by omega)
        (by rwa [run_high hhigh] at h) ?_ ?_
      · rw [cons_append, unquote_of_item (unquoteItem_high hb _), decodeRune_append raw hrune,
          hlen, ← cons_append, hsplit, List.append_assoc, drop_left]
      · rw [unquote_of_item (unquoteItem_high hb _), hlen, hsplit, drop_left]

end BamlRest
