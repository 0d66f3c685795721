import BamlRest.Text.Scalars
import BamlRest.Text.Strings

/-!
# Short escapes

`nativeserve/admission/canonreq.go`: `fixShortEscapes` rewrites `\u0008` and `\u000c` to `\b` and
`\f`. It reads a text in units: single bytes, escapes of two bytes and `\uXXXX`.

* `fixShortEscapes_exact`: it rewrites those escapes and nothing else.
-/

namespace BamlRest.Canonreq

open List StrState

def longEscBackspace : Bytes :=
  ['\\', 'u', '0', '0', '0', '8']

def longEscFormFeed : Bytes :=
  ['\\', 'u', '0', '0', '0', 'c']

/-- The loop of `fixShortEscapes`. -/
def fixLoop : Bytes → Bytes
  | [] => []
  | [b] => [b]
  | b :: c :: s =>
    if b ≠ '\\' then b :: fixLoop (c :: s)
    else
      match s with
      | h1 :: h2 :: h3 :: h4 :: r =>
        if c = 'u' ∧ h1 = '0' ∧ h2 = '0' ∧ h3 = '0' ∧ h4 = '8' then
          '\\'.toUInt8 :: 'b'.toUInt8 :: fixLoop r
        else if c = 'u' ∧ h1 = '0' ∧ h2 = '0' ∧ h3 = '0' ∧ h4 = 'c' then
          '\\'.toUInt8 :: 'f'.toUInt8 :: fixLoop r
        else b :: c :: fixLoop (h1 :: h2 :: h3 :: h4 :: r)
      | s => b :: c :: fixLoop s

def fixShortEscapes (b : Bytes) : Bytes :=
  if ¬longEscBackspace <:+: b ∧ ¬longEscFormFeed <:+: b then b else fixLoop b

/-! ### Units -/

/-- A text cut into single bytes, escapes of two bytes and escapes of six. -/
def units : Bytes → List Bytes
  | [] => []
  | [b] => [[b]]
  | b :: c :: s =>
    if b ≠ '\\' then [b] :: units (c :: s)
    else
      match s with
      | h1 :: h2 :: h3 :: h4 :: r =>
        if c = 'u' then [b, c, h1, h2, h3, h4] :: units r
        else [b, c] :: units (h1 :: h2 :: h3 :: h4 :: r)
      | s => [b, c] :: units s

def shorten (u : Bytes) : Bytes :=
  if u = longEscBackspace then ['\\', 'b']
  else if u = longEscFormFeed then ['\\', 'f'] else u

inductive IsUnit : Bytes → Prop where
  | plain {b : UInt8} (h : b ≠ '\\') : IsUnit [b]
  | simple {e : UInt8} (h : e ≠ 'u') : IsUnit ['\\', e]
  | unicode {h1 h2 h3 h4 : UInt8} (hex : ∀ h ∈ [h1, h2, h3, h4], h ≠ '\\') :
    IsUnit ['\\', 'u', h1, h2, h3, h4]

variable {u : Bytes}

theorem shorten_of_length (h : u.length ≠ 6) : shorten u = u := by
  rw [shorten, if_neg (by rintro rfl; exact h rfl), if_neg (by rintro rfl; exact h rfl)]

theorem long_inj {h1 h2 h3 h4 d : UInt8} (h : ['\\'.toUInt8, 'u'.toUInt8, h1, h2, h3, h4] =
    ['\\'.toUInt8, 'u'.toUInt8, '0'.toUInt8, '0'.toUInt8, '0'.toUInt8, d]) :
    h1 = '0' ∧ h2 = '0' ∧ h3 = '0' ∧ h4 = d := by
  simpa only [cons.injEq, true_and, and_true] using h

theorem fixLoop_plain {b : UInt8} (h : b ≠ '\\') (r) : fixLoop (b :: r) = b :: fixLoop r := by
  cases r with
  | nil => rfl
  | cons c s =>
    rw [fixLoop.eq_def]
    exact if_pos h

theorem fixLoop_unit (hu : IsUnit u) (r) : fixLoop (u ++ r) = shorten u ++ fixLoop r := by
  cases hu with
  | plain h =>
    rw [shorten_of_length (by simp)]
    exact fixLoop_plain h r
  | @simple e h =>
    rw [shorten_of_length (by simp)]
    simp only [cons_append, nil_append]
    rw [fixLoop.eq_def]
    refine (if_neg (by simp)).trans ?_
    split
    · rw [if_neg fun hc => h hc.1, if_neg fun hc => h hc.1]
    · rfl
  | @unicode h1 h2 h3 h4 hex =>
    simp only [mem_cons, not_mem_nil, or_false, forall_eq_or_imp, forall_eq] at hex
    have hrest : fixLoop (h1 :: h2 :: h3 :: h4 :: r) = h1 :: h2 :: h3 :: h4 :: fixLoop r := by
      rw [fixLoop_plain hex.1, fixLoop_plain hex.2.1, fixLoop_plain hex.2.2.1, fixLoop_plain hex.2.2.2]
    simp only [cons_append, nil_append]
    rw [fixLoop.eq_def]
    refine (if_neg (by simp)).trans ?_
    simp only [hrest, true_and]
    split_ifs with h8 hc
    · obtain ⟨rfl, rfl, rfl, rfl⟩ := h8
      rfl
    · obtain ⟨rfl, rfl, rfl, rfl⟩ := hc
      rfl
    have h8 : ¬_ = longEscBackspace := fun h => h8 (long_inj h)
    have hc : ¬_ = longEscFormFeed := fun h => hc (long_inj h)
    rw [shorten, if_neg h8, if_neg hc]
    rfl

theorem units_unit (hu : IsUnit u) (r) : units (u ++ r) = u :: units r := by
  cases hu with
  | plain h =>
    cases r with
    | nil => rfl
    | cons c s =>
      simp only [cons_append, nil_append]
      rw [units.eq_def]
      exact if_pos h
  | simple h =>
    simp only [cons_append, nil_append]
    rw [units.eq_def]
    refine (if_neg (by simp)).trans ?_
    split
    · rw [if_neg h]
    · rfl
  | unicode hex =>
    simp only [cons_append, nil_append]
    rw [units.eq_def]
    refine (if_neg (by simp)).trans ?_
    rfl

theorem IsUnit.shorten (hu : IsUnit u) : IsUnit (shorten u) := by
  unfold Canonreq.shorten
  split_ifs
  · exact .simple (by decide)
  · exact .simple (by decide)
  · exact hu

theorem shorten_ne (u) : shorten u ≠ longEscBackspace ∧ shorten u ≠ longEscFormFeed := by
  unfold shorten
  split_ifs with h1 h2
  · decide
  · decide
  · exact ⟨h1, h2⟩

theorem shorten_shorten (u) : shorten (shorten u) = shorten u := by
  obtain ⟨h1, h2⟩ := shorten_ne u
  rw [shorten, if_neg h1, if_neg h2]

section

variable {us : List Bytes}

theorem fixLoop_units (hus : ∀ u ∈ us, IsUnit u) (r) :
    fixLoop (us.flatten ++ r) = (us.map shorten).flatten ++ fixLoop r := by
  induction us with
  | nil => rfl
  | cons u us ih =>
    simp only [mem_cons, forall_eq_or_imp] at hus
    simp only [flatten_cons, map_cons, append_assoc]
    rw [fixLoop_unit hus.1, ih hus.2]

theorem units_flatten (hus : ∀ u ∈ us, IsUnit u) : units us.flatten = us := by
  induction us with
  | nil => rfl
  | cons u us ih =>
    simp only [mem_cons, forall_eq_or_imp] at hus
    rw [flatten_cons, units_unit hus.1, ih hus.2]

end

def Whole (c : Bytes) : Prop := ∃ us : List Bytes, (∀ u ∈ us, IsUnit u) ∧ us.flatten = c

variable {c : Bytes}

theorem Whole.append {d : Bytes} : Whole c → Whole d → Whole (c ++ d) := by
  rintro ⟨us, hus, rfl⟩ ⟨vs, hvs, rfl⟩
  refine ⟨us ++ vs, fun u hu => ?_, flatten_append⟩
  exact (mem_append.mp hu).elim (hus u) (hvs u)

theorem Whole.unit (hu : IsUnit u) (hc : Whole c) : Whole (u ++ c) :=
  Whole.append ⟨[u], by simpa using hu, by simp⟩ hc

theorem Whole.cons {b : UInt8} {c : Bytes} (hb : b ≠ '\\') (hc : Whole c) : Whole (b :: c) :=
  Whole.unit (.plain hb) hc

theorem whole_nil : Whole [] := ⟨[], by simp, rfl⟩

theorem whole_of_plain (h : ∀ b ∈ c, b ≠ '\\') : Whole c := by
  induction c with
  | nil => exact whole_nil
  | cons b c ih =>
    simp only [mem_cons, forall_eq_or_imp] at h
    exact (ih h.2).cons h.1

theorem fixLoop_append (hc : Whole c) (r) : fixLoop (c ++ r) = fixLoop c ++ fixLoop r := by
  obtain ⟨us, hus, rfl⟩ := hc
  have hnil := fixLoop_units hus []
  rw [append_nil] at hnil
  rw [fixLoop_units hus, hnil, fixLoop, append_nil]

theorem fixLoop_plains (h : ∀ b ∈ c, b ≠ '\\') (r) : fixLoop (c ++ r) = c ++ fixLoop r := by
  induction c with
  | nil => rfl
  | cons b c ih =>
    simp only [mem_cons, forall_eq_or_imp] at h
    rw [cons_append, fixLoop_plain h.1, ih h.2, cons_append]

/-! ### Strings -/

theorem hex_ne : ∀ b : UInt8, isHex b → b ≠ '\\' := by grind [isHex, isDigit]

theorem isUnit_unicode {h1 h2 h3 h4 : UInt8} (hex1 : isHex h1) (hex2 : isHex h2)
    (hex3 : isHex h3) (hex4 : isHex h4) : IsUnit ['\\', 'u', h1, h2, h3, h4] :=
  .unicode fun h hh => hex_ne h (by
    simp only [mem_cons, not_mem_nil, or_false] at hh
    rcases hh with rfl | rfl | rfl | rfl <;> assumption)

theorem head?_fixLoop (s) : (fixLoop s).head? = s.head? := by
  rcases s with _ | ⟨b, _ | ⟨c, s⟩⟩
  · rfl
  · rfl
  rw [fixLoop.eq_def]
  dsimp only
  split_ifs with hb
  · rfl
  have hb : b = '\\' := not_not.mp hb
  split
  · split_ifs <;> simp [hb]
  · rfl

/-- A rune ends before the next escape. -/
theorem decodeRune_fixLoop (b : UInt8) (s) : decodeRune (b :: fixLoop s) = decodeRune (b :: s) := by
  let p : UInt8 → Bool := fun c => c != '\\'
  have hsplit : s = s.takeWhile p ++ s.dropWhile p := takeWhile_append_dropWhile.symm
  have hplain : ∀ c ∈ s.takeWhile p, c ≠ '\\' := fun c hc =>
    bne_iff_ne.mp (mem_takeWhile_imp hc : p c)
  have hhead : ∀ c, (s.dropWhile p).head? = some c → isCont c = false := by
    intro c hc
    have hne := head?_dropWhile_not p s
    rw [hc] at hne
    rw [bne_eq_false_iff_eq.mp (hne : p c = false)]
    rfl
  rw [hsplit, fixLoop_plains hplain, decodeRune_append _ hhead,
    decodeRune_append _ (by rwa [head?_fixLoop])]

variable {raw : Bytes}

theorem fixLoop_simple {e : UInt8} (he : isSimpleEscape e) (raw) :
    fixLoop ('\\'.toUInt8 :: e :: raw) = '\\'.toUInt8 :: e :: fixLoop raw := by
  have hfix := fixLoop_unit (.simple (simpleEscape_isSome e he).2) raw
  rwa [shorten_of_length (by simp)] at hfix

theorem fixLoop_unicode {h1 h2 h3 h4 : UInt8} (hex1 : isHex h1) (hex2 : isHex h2)
    (hex3 : isHex h3) (hex4 : isHex h4) (raw) :
    let long := '\\'.toUInt8 :: 'u'.toUInt8 :: h1 :: h2 :: h3 :: h4 :: raw
    fixLoop long = '\\'.toUInt8 :: 'b'.toUInt8 :: fixLoop raw ∧
        h1 = '0' ∧ h2 = '0' ∧ h3 = '0' ∧ h4 = '8' ∨
      fixLoop long = '\\'.toUInt8 :: 'f'.toUInt8 :: fixLoop raw ∧
        h1 = '0' ∧ h2 = '0' ∧ h3 = '0' ∧ h4 = 'c' ∨
      fixLoop long = '\\'.toUInt8 :: 'u'.toUInt8 :: h1 :: h2 :: h3 :: h4 :: fixLoop raw := by
  have hfix := fixLoop_unit (isUnit_unicode hex1 hex2 hex3 hex4) raw
  rw [shorten] at hfix
  split_ifs at hfix with hb hf
  · exact .inl ⟨hfix, long_inj hb⟩
  · exact .inr (.inl ⟨hfix, long_inj hf⟩)
  · exact .inr (.inr hfix)

theorem whole_of_run (h : body.run raw = some .body) : Whole raw := by
  refine run_body_rec h whole_nil fun raw _ hitem ih => ?_
  cases hitem with
  | @simple e raw he hrun =>
    exact .unit (.simple (simpleEscape_isSome e he).2) (ih raw (by simp) hrun)
  | @unicode h1 h2 h3 h4 raw hex1 hex2 hex3 hex4 hrun =>
    exact .unit (isUnit_unicode hex1 hex2 hex3 hex4) (ih raw (by simp +arith) hrun)
  | @plain b raw hesc hquote hctl hrun => exact .cons hesc (ih raw (by simp) hrun)

/-- The unit is changed, or what it stands for is one of two control characters. -/
theorem getu4_fixLoop (h : body.run raw = some .body) : getu4 (fixLoop raw) = getu4 raw ∨
      getu4 (fixLoop raw) = none ∧ (getu4 raw = some 8 ∨ getu4 raw = some 12) := by
  by_cases hne : raw = []
  · exact .inl (hne ▸ rfl)
  cases run_body_cases h hne with
  | @simple e raw he hrun =>
    have hu := (simpleEscape_isSome e he).2
    have hnone : ∀ s, getu4 ('\\'.toUInt8 :: e :: s) = none := fun s =>
      getu4_eq_none fun hs => hu (cons.inj (cons.inj hs).2).1
    rw [fixLoop_simple he, hnone, hnone]
    exact .inl rfl
  | @unicode h1 h2 h3 h4 raw hex1 hex2 hex3 hex4 hrun =>
    rcases fixLoop_unicode hex1 hex2 hex3 hex4 raw with
      ⟨hfix, rfl, rfl, rfl, rfl⟩ | ⟨hfix, rfl, rfl, rfl, rfl⟩ | hfix
    all_goals rw [hfix]
    · exact .inr ⟨getu4_eq_none (by simp), .inl rfl⟩
    · exact .inr ⟨getu4_eq_none (by simp), .inr rfl⟩
    · exact .inl rfl
  | @plain b raw hesc hquote hctl hrun =>
    rw [fixLoop_plain hesc]
    have hnone : ∀ s, getu4 (b :: s) = none := fun s =>
      getu4_eq_none fun hs => hesc (cons.inj hs).1
    rw [hnone, hnone]
    exact .inl rfl

theorem decodeSurrogates_fixLoop (h : body.run raw = some .body) (n : ℕ) :
    decodeSurrogates n (getu4 (fixLoop raw)) = decodeSurrogates n (getu4 raw) := by
  rcases getu4_fixLoop h with heq | ⟨hnone, heq | heq⟩
  · rw [heq]
  · rw [hnone, heq, decodeSurrogates, decodeSurrogates, if_neg (by omega)]
  · rw [hnone, heq, decodeSurrogates, decodeSurrogates, if_neg (by omega)]

/-- The second half of a surrogate pair is not changed. -/
theorem drop_six_fixLoop (h : body.run raw = some .body) {n dec : ℕ}
    (hd : decodeSurrogates n (getu4 raw) = some dec) :
    ∃ rest, raw.drop 6 = rest ∧ (fixLoop raw).drop 6 = fixLoop rest ∧
      body.run rest = some .body ∧ rest.length < raw.length := by
  have hlow : ∀ k, getu4 raw = some k → k ≠ 8 ∧ k ≠ 12 := by
    intro k hk
    rw [hk, decodeSurrogates] at hd
    split_ifs at hd with hsur
    omega
  cases hg : getu4 raw with
  | none => rw [hg] at hd; cases hd
  | some k =>
    have hne : raw ≠ [] := by rintro rfl; cases hg
    have htwo := take_two_of_getu4 hg
    cases run_body_cases h hne with
    | @simple e raw he hrun =>
      exact absurd (cons.inj (cons.inj htwo).2).1 (simpleEscape_isSome e he).2
    | plain hesc => exact absurd (cons.inj htwo).1 hesc
    | @unicode h1 h2 h3 h4 raw hex1 hex2 hex3 hex4 hrun =>
      refine ⟨raw, rfl, ?_, hrun, by simp +arith⟩
      rcases fixLoop_unicode hex1 hex2 hex3 hex4 raw with
        ⟨-, rfl, rfl, rfl, rfl⟩ | ⟨-, rfl, rfl, rfl, rfl⟩ | hfix
      · exact absurd rfl (hlow 8 rfl).1
      · exact absurd rfl (hlow 12 rfl).2
      · rw [hfix]
        rfl

theorem run_fixLoop (h : body.run raw = some .body) : body.run (fixLoop raw) = some .body := by
  refine run_body_rec h rfl fun raw _ hitem ih => ?_
  cases hitem with
  | @simple e raw he hrun =>
    rw [fixLoop_simple he, run, step, if_pos rfl, Option.bind_some, run,
      step, if_neg (simpleEscape_isSome e he).2, if_pos he]
    exact ih raw (by simp) hrun
  | @unicode h1 h2 h3 h4 raw hex1 hex2 hex3 hex4 hrun =>
    have hrest := ih raw (by simp +arith) hrun
    rcases fixLoop_unicode hex1 hex2 hex3 hex4 raw with ⟨hfix, -⟩ | ⟨hfix, -⟩ | hfix
    all_goals rw [hfix]
    · exact hrest
    · exact hrest
    · simpa [run, step, hex1, hex2, hex3, hex4] using hrest
  | @plain b raw hesc hquote hctl hrun =>
    rw [fixLoop_plain hesc, run, step, if_neg hesc, if_neg (not_or.mpr ⟨hctl, hquote⟩)]
    exact ih raw (by simp) hrun

theorem unquote_fixLoop (h : body.run raw = some .body) : unquote (fixLoop raw) = unquote raw := by
  refine run_body_rec h rfl fun raw h hitem ih => ?_
  cases hitem with
  | @simple e raw he hrun =>
    obtain ⟨b, hb⟩ := Option.isSome_iff_exists.mp (simpleEscape_isSome e he).1
    rw [fixLoop_simple he, unquote_simple hb, unquote_simple hb, ih raw (by simp) hrun]
  | @unicode h1 h2 h3 h4 raw hex1 hex2 hex3 hex4 hrun =>
    have hrest := ih raw (by simp +arith) hrun
    obtain ⟨m, hm, hraw⟩ := unquote_unicode raw hex1 hex2 hex3 hex4
    obtain ⟨m', hm', hshort⟩ := unquote_unicode (fixLoop raw) hex1 hex2 hex3 hex4
    cases Option.some.inj (hm.symm.trans (show _ = some m' from hm'))
    -- the short forms stand for the same byte
    have hbyte : ∀ {c : UInt8} {k : ℕ}, simpleEscape c = some (UInt8.ofNat k) →
        encodeRune k = [UInt8.ofNat k] → m = k → ¬(0xD800 ≤ k ∧ k < 0xE000) →
        unquote ('\\'.toUInt8 :: c :: fixLoop raw) =
          unquote ('\\'.toUInt8 :: 'u'.toUInt8 :: h1 :: h2 :: h3 :: h4 :: raw) := by
      intro c k hc henc hmk hk
      rw [unquote_simple hc, hraw, if_neg (hmk ▸ hk), hmk, henc, hrest]
      rfl
    rcases fixLoop_unicode hex1 hex2 hex3 hex4 raw with
      ⟨hfix, rfl, rfl, rfl, rfl⟩ | ⟨hfix, rfl, rfl, rfl, rfl⟩ | hfix
    all_goals rw [hfix]
    · exact hbyte (k := 8) (by decide) (by decide) (Option.some.inj hm.symm) (by omega)
    · exact hbyte (k := 12) (by decide) (by decide) (Option.some.inj hm.symm) (by omega)
    rw [hraw, hshort, decodeSurrogates_fixLoop hrun, hrest]
    split_ifs with hsur
    · cases hd : decodeSurrogates m (getu4 raw) with
      | none => rfl
      | some dec =>
        obtain ⟨rest, hdrop, hdrop', hrun', hlt⟩ := drop_six_fixLoop hrun hd
        dsimp only
        rw [hdrop, hdrop', ih rest (by simp only [length_cons]; omega) hrun']
    · rfl
  | @plain b raw hesc hquote hctl hrun =>
    by_cases hascii : b < 0x80
    · rw [fixLoop_plain hesc, unquote_ascii hesc hquote hctl hascii,
        unquote_ascii hesc hquote hctl hascii, ih raw (by simp) hrun]
    have hb : 0x80 ≤ b.toNat := by
      rw [UInt8.lt_iff_toNat_lt] at hascii
      exact Nat.le_of_not_lt hascii
    obtain ⟨ch, rest, hsplit, hlen, hhigh⟩ := exists_rune_split hb raw
    have hpos := decodeRune_pos (b := b) raw
    have hrun' : body.run rest = some .body := by
      rw [hsplit] at h
      rwa [run_high hhigh] at h
    have hlt : rest.length < (b :: raw).length := by
      rw [hsplit, length_append]
      omega
    have hplain : ∀ x ∈ ch, x ≠ '\\'.toUInt8 := fun x hx => (high_byte x (hhigh x hx)).1
    have hdrop : (fixLoop (b :: raw)).drop ch.length = fixLoop rest := by
      rw [hsplit, fixLoop_plains hplain, drop_left]
    rw [fixLoop_plain hesc] at hdrop ⊢
    rw [unquote_of_item (unquoteItem_high hb _), unquote_of_item (unquoteItem_high hb raw),
      decodeRune_fixLoop, hlen, hdrop, hsplit, drop_left, ih rest hlt hrun']

theorem isStr_fixLoop {t : Bytes} (h : IsStr raw t) : IsStr (fixLoop raw) t :=
  ⟨run_fixLoop h.run, (unquote_fixLoop h.run).trans h.content⟩

/-! ### Texts -/

theorem ws_ne {w : Bytes} (hw : Ws w) : ∀ b ∈ w, b ≠ '\\' := by
  rintro b hb rfl
  exact absurd (hw _ hb) (by decide)

theorem scalar_ne {tok : Bytes} (h : ∀ b ∈ tok, isScalarByte b) : ∀ b ∈ tok, b ≠ '\\' := by
  rintro b hb rfl
  exact absurd (h _ hb) (by decide)

theorem whole_of_derives {sym : Symbol} (h : Derives sym c) : Whole c := by
  induction h with
  | null => exact whole_of_plain (scalar_ne null_bytes)
  | bool b => exact whole_of_plain (scalar_ne (bool_bytes b))
  | num h => exact whole_of_plain (scalar_ne (isNumber_bytes h))
  | str h => exact .cons (by decide) ((whole_of_run h.run).append (.cons (by decide) whole_nil))
  | arrNil hw => exact .cons (by decide) ((whole_of_plain (ws_ne hw)).append (.cons (by decide) whole_nil))
  | objNil hw => exact .cons (by decide) ((whole_of_plain (ws_ne hw)).append (.cons (by decide) whole_nil))
  | arr _ ih => exact .cons (by decide) (ih.append (.cons (by decide) whole_nil))
  | obj _ ih => exact .cons (by decide) (ih.append (.cons (by decide) whole_nil))
  | elem hw _ hw' _ ih iht =>
    exact (whole_of_plain (ws_ne hw)).append (ih.append ((whole_of_plain (ws_ne hw')).append iht))
  | elemsEnd => exact whole_nil
  | membersEnd => exact whole_nil
  | elemsMore _ ih => exact .cons (by decide) ih
  | membersMore _ ih => exact .cons (by decide) ih
  | member hw hk hw1 hw2 _ hw3 _ ih iht =>
    refine (whole_of_plain (ws_ne hw)).append (.cons (by decide) ((whole_of_run hk.run).append ?_))
    refine .cons (by decide) ((whole_of_plain (ws_ne hw1)).append (.cons (by decide) ?_))
    exact (whole_of_plain (ws_ne hw2)).append (ih.append ((whole_of_plain (ws_ne hw3)).append iht))

theorem derives_fixLoop {sym : Symbol} (h : Derives sym c) : Derives sym (fixLoop c) := by
  have hplain : ∀ {d : Bytes}, (∀ b ∈ d, b ≠ '\\') → fixLoop d = d := by
    intro d hd
    simpa [fixLoop] using fixLoop_plains hd []
  induction h with
  | null => exact (hplain (scalar_ne null_bytes)).symm ▸ .null
  | bool b => exact (hplain (scalar_ne (bool_bytes b))).symm ▸ .bool b
  | num h => exact (hplain (scalar_ne (isNumber_bytes h))).symm ▸ .num h
  | str h =>
    rw [fixLoop_plain (by decide), fixLoop_append (whole_of_run h.run)]
    exact .str (isStr_fixLoop h)
  | arrNil hw =>
    rw [fixLoop_plain (by decide), fixLoop_plains (ws_ne hw)]
    exact .arrNil hw
  | objNil hw =>
    rw [fixLoop_plain (by decide), fixLoop_plains (ws_ne hw)]
    exact .objNil hw
  | arr h ih =>
    rw [fixLoop_plain (by decide), fixLoop_append (whole_of_derives h)]
    exact .arr ih
  | obj h ih =>
    rw [fixLoop_plain (by decide), fixLoop_append (whole_of_derives h)]
    exact .obj ih
  | elem hw h hw' _ ih iht =>
    rw [fixLoop_plains (ws_ne hw), fixLoop_append (whole_of_derives h), fixLoop_plains (ws_ne hw')]
    exact .elem hw ih hw' iht
  | elemsEnd => exact .elemsEnd
  | membersEnd => exact .membersEnd
  | elemsMore _ ih =>
    rw [fixLoop_plain (by decide)]
    exact .elemsMore ih
  | membersMore _ ih =>
    rw [fixLoop_plain (by decide)]
    exact .membersMore ih
  | member hw hk hw1 hw2 h hw3 _ ih iht =>
    rw [fixLoop_plains (ws_ne hw), fixLoop_plain (by decide), fixLoop_append (whole_of_run hk.run),
      fixLoop_plain (by decide), fixLoop_plains (ws_ne hw1), fixLoop_plain (by decide),
      fixLoop_plains (ws_ne hw2), fixLoop_append (whole_of_derives h), fixLoop_plains (ws_ne hw3)]
    exact .member hw (isStr_fixLoop hk) hw1 hw2 ih hw3 iht

/-- Without one of the long forms there is nothing to do. -/
theorem fixShortEscapes_eq {s : Bytes} (h : Whole s) : fixShortEscapes s = fixLoop s := by
  rw [fixShortEscapes]
  split_ifs with hnone
  · obtain ⟨us, hus, rfl⟩ := h
    have hloop := fixLoop_units hus []
    rw [append_nil] at hloop
    have hsame : us.map shorten = us := by
      refine (map_congr_left fun u hu => ?_).trans (map_id us)
      have hinfix := infix_of_mem_flatten hu
      rw [shorten, if_neg (by rintro rfl; exact hnone.1 hinfix),
        if_neg (by rintro rfl; exact hnone.2 hinfix)]
      rfl
    rw [hloop, hsame, fixLoop, append_nil]
  · rfl

/-- **The short escapes of a JSON text.** The result is JSON for the same value. Cut into units, it is
the text with the two long forms shortened and every other unit as it was; it has none of the long
forms, and a second application changes nothing. -/
theorem fixShortEscapes_exact (s : Bytes) (j : Json) (h : DerivesText j s) :
    DerivesText j (fixShortEscapes s) ∧ (units s).flatten = s ∧
      units (fixShortEscapes s) = (units s).map shorten ∧
      fixShortEscapes s = ((units s).map shorten).flatten ∧
      longEscBackspace ∉ units (fixShortEscapes s) ∧ longEscFormFeed ∉ units (fixShortEscapes s) ∧
      fixShortEscapes (fixShortEscapes s) = fixShortEscapes s := by
  obtain ⟨w, c, w', hw, hc, hw', rfl⟩ := h
  have hwhole : Whole (w ++ (c ++ w')) :=
    (whole_of_plain (ws_ne hw)).append ((whole_of_derives hc).append (whole_of_plain (ws_ne hw')))
  have hjson : DerivesText j (fixLoop (w ++ (c ++ w'))) := by
    have hend := fixLoop_plains (ws_ne hw') []
    rw [append_nil, fixLoop, append_nil] at hend
    rw [fixLoop_plains (ws_ne hw), fixLoop_append (whole_of_derives hc), hend]
    exact ⟨w, _, w', hw, derives_fixLoop hc, hw', rfl⟩
  generalize w ++ (c ++ w') = s at hwhole hjson
  rw [fixShortEscapes_eq hwhole]
  obtain ⟨us, hus, rfl⟩ := hwhole
  have hloop := fixLoop_units hus []
  rw [append_nil, fixLoop, append_nil] at hloop
  have hus' : ∀ u ∈ us.map shorten, IsUnit u := by
    intro u hu
    obtain ⟨v, hv, rfl⟩ := mem_map.mp hu
    exact (hus v hv).shorten
  have hagain := fixLoop_units hus' []
  rw [append_nil, fixLoop, append_nil, map_map] at hagain
  have hidem : us.map (shorten ∘ shorten) = us.map shorten :=
    map_congr_left fun u _ => shorten_shorten u
  have hnot : ∀ l, (∀ u, shorten u ≠ l) → l ∉ us.map shorten := by
    rintro l hl hmem
    obtain ⟨v, -, hv⟩ := mem_map.mp hmem
    exact hl v hv
  refine ⟨hjson, by rw [units_flatten hus], ?_, ?_, ?_, ?_, ?_⟩
  · rw [hloop, units_flatten hus', units_flatten hus]
  · rw [hloop, units_flatten hus]
  · rw [hloop, units_flatten hus']
    exact hnot _ fun u => (shorten_ne u).1
  · rw [hloop, units_flatten hus']
    exact hnot _ fun u => (shorten_ne u).2
  · rw [hloop, fixShortEscapes_eq ⟨_, hus', rfl⟩, hagain, hidem]

/-- A long form, and the same letters after an escaped backslash. -/
theorem fixShortEscapes_exact_pair :
    DerivesText (.str [0x5c, 0x75, 0x30, 0x30, 0x30, 0x38, 0x08]) (bytes "\"\\\\u0008\\u0008\"") ∧
      fixShortEscapes (bytes "\"\\\\u0008\\u0008\"") = bytes "\"\\\\u0008\\b\"" := by
  have hstr : IsStr (bytes "\\\\u0008\\u0008") [0x5c, 0x75, 0x30, 0x30, 0x30, 0x38, 0x08] :=
    ⟨by decide +kernel, by decide +kernel⟩
  have hjson : DerivesText (.str [0x5c, 0x75, 0x30, 0x30, 0x30, 0x38, 0x08])
      (bytes "\"\\\\u0008\\u0008\"") :=
    ⟨[], _, [], by simp [Ws], .str hstr, by simp [Ws], by decide +kernel⟩
  obtain ⟨-, -, -, heq, -⟩ := fixShortEscapes_exact _ _ hjson
  exact ⟨hjson, heq.trans (by decide +kernel)⟩

end BamlRest.Canonreq
