import BamlRest.Debaml.Fix
import BamlRest.Debaml.Strict
import BamlRest.Text.Strings

/-!
# The fixing parser on valid JSON

Where a text is JSON already, the heuristics of `fixParse` find nothing to fix: it reads the value
that `strictDecode` reads, or declines.

* `fixes_of_derives`: by induction on the grammar.
* `fixParse_eq_strictDecode`: for whole texts.
-/

namespace BamlRest

open List

/-- No backslash starts a `\/` or a `\u`, taking escapes from left to right. -/
def plainEscapes : Bytes → Bool
  | [] => true
  | [_] => true
  | c :: e :: r =>
    if c = '\\' then e ≠ '/' && e ≠ 'u' && plainEscapes r else plainEscapes (e :: r)

variable {c : UInt8}

theorem plainEscapes_cons (h : c ≠ '\\') (s) : plainEscapes (c :: s) = plainEscapes s := by
  cases s with
  | nil => rfl
  | cons e s => rw [plainEscapes, if_neg h]

/-- A text on which the two parsers read strings alike. -/
structure Plain (s : Bytes) : Prop where
  utf8 : validUtf8 s
  escapes : plainEscapes s

variable {s : Bytes}

theorem Plain.of_cons (hascii : c.toNat < 0x80) (hc : c ≠ '\\') (h : Plain (c :: s)) : Plain s :=
  ⟨validUtf8_cons_ascii hascii s ▸ h.utf8, plainEscapes_cons hc s ▸ h.escapes⟩

theorem Plain.of_append {w : Bytes} (hw : ∀ b ∈ w, b.toNat < 0x80 ∧ b ≠ '\\')
    (h : Plain (w ++ s)) : Plain s := by
  induction w with
  | nil => exact h
  | cons c w ih =>
    simp only [mem_cons, forall_eq_or_imp] at hw
    exact ih hw.2 (h.of_cons hw.1.1 hw.1.2)

theorem Plain.of_ws {w : Bytes} (hw : Ws w) (h : Plain (w ++ s)) : Plain s := by
  have hbyte : ∀ b, isWS b → b.toNat < 0x80 ∧ b ≠ '\\' :=
    forall_byte (by decide +kernel)
  exact h.of_append fun b hb => hbyte b (hw b hb)

variable {ch : Bytes}

theorem Plain.of_rune {r : ℕ} (hch : IsRune ch r)
    (hhigh : ∀ b ∈ ch, 0x80 ≤ b.toNat) (h : Plain (ch ++ s)) : Plain s := by
  refine ⟨validUtf8_rune_append hch s ▸ h.utf8, ?_⟩
  have hesc := h.escapes
  clear h hch
  induction ch with
  | nil => exact hesc
  | cons b ch ih =>
    simp only [mem_cons, forall_eq_or_imp] at hhigh
    rw [cons_append, plainEscapes_cons (high_byte b hhigh.1).1] at hesc
    exact ih hhigh.2 hesc

/-! ### Strings -/

variable {r t : Bytes}

theorem readDoubleQuoted_append {embedded} (h : ∀ b ∈ ch, 0x80 ≤ b.toNat)
    (hs : readDoubleQuoted embedded s = .closed t r) :
    readDoubleQuoted embedded (ch ++ s) = .closed (ch ++ t) r := by
  induction ch with
  | nil => exact hs
  | cons b ch ih =>
    simp only [mem_cons, forall_eq_or_imp] at h
    obtain ⟨hesc, hquote, -⟩ := high_byte b h.1
    rw [cons_append, readDoubleQuoted_plain embedded hesc hquote, ih h.2]
    rfl

theorem decodeDoubleQuoteEscape_eq : ∀ e : UInt8, isSimpleEscape e → e ≠ '/' →
    e.toNat < 0x80 ∧ simpleEscape e = decodeDoubleQuoteEscape e ∧
      (decodeDoubleQuoteEscape e).isSome :=
  forall_byte (by decide +kernel)

variable {raw : Bytes}

theorem exists_rune_append {rest} (hhigh : ∀ b ∈ ch, 0x80 ≤ b.toNat)
    (h : ch ++ rest = raw ++ '"'.toUInt8 :: r) :
    ∃ raw', raw = ch ++ raw' ∧ rest = raw' ++ '"'.toUInt8 :: r := by
  rcases append_eq_append_iff.mp h with ⟨raw', hraw, hrest⟩ | ⟨t, hch, hrest⟩
  · exact ⟨raw', hraw, hrest⟩
  cases t with
  | nil => exact ⟨[], by simpa using hch.symm, by simpa using hrest.symm⟩
  | cons b t =>
    simp only [cons_append, List.cons.injEq] at hrest
    have hquote := hhigh b (by simp [hch])
    rw [← hrest.1] at hquote
    exact absurd hquote (by decide)

/-- **Strings**: the reader of the fixing parser returns the content that `unquote` gives. -/
theorem readDoubleQuoted_isStr (h : IsStr raw t) (hplain : Plain (raw ++ '"'.toUInt8 :: r)) :
    readDoubleQuoted true (raw ++ '"'.toUInt8 :: r) = .closed t r ∧ Plain r := by
  obtain ⟨hrun, hcontent⟩ := h
  induction hn : raw.length using Nat.strong_induction_on generalizing raw t with
  | _ n ih =>
    by_cases hnil : raw = []
    · subst hnil
      cases hcontent
      exact ⟨readDoubleQuoted_quote true r, hplain.of_cons (by decide) (by decide)⟩
    cases StrState.run_body_cases hrun hnil with
    | @simple e raw he hrun' =>
      have hesc := hplain.escapes
      simp only [cons_append, plainEscapes, if_true, Bool.and_eq_true, decide_eq_true_eq]
        at hesc
      obtain ⟨hascii, hsimple, hsome⟩ := decodeDoubleQuoteEscape_eq e he hesc.1.1
      obtain ⟨b, hb⟩ := Option.isSome_iff_exists.mp hsome
      rw [unquote_simple (hsimple.trans hb), Option.map_eq_some_iff] at hcontent
      obtain ⟨t', ht', rfl⟩ := hcontent
      have hutf8 := hplain.utf8
      rw [cons_append, cons_append, validUtf8_cons_ascii (by decide),
        validUtf8_cons_ascii hascii] at hutf8
      obtain ⟨hread, hrest⟩ := ih raw.length (by simp only [length_cons] at hn; omega)
        ⟨hutf8, hesc.2⟩ hrun' ht' rfl
      refine ⟨?_, hrest⟩
      rw [cons_append, cons_append, readDoubleQuoted_escape true hb (.inl rfl), hread]
      rfl
    | @unicode h1 h2 h3 h4 raw =>
      have hesc := hplain.escapes
      simp [plainEscapes] at hesc
    | @plain b raw hesc hquote hctl hrun' =>
      by_cases hascii : b.toNat < 0x80
      · have hb : b < 0x80 := UInt8.lt_iff_toNat_lt.mpr hascii
        rw [unquote_ascii hesc hquote hctl hb, Option.map_eq_some_iff] at hcontent
        obtain ⟨t', ht', rfl⟩ := hcontent
        obtain ⟨hread, hrest⟩ := ih raw.length (by simp only [length_cons] at hn; omega)
          (hplain.of_cons hascii hesc) hrun' ht' rfl
        refine ⟨?_, hrest⟩
        rw [cons_append, readDoubleQuoted_plain true hesc hquote, hread]
        rfl
      -- the text is valid, so a whole encoding starts here
      have hutf8 := hplain.utf8
      rw [validUtf8_eq, if_neg (by simp), Bool.and_eq_true] at hutf8
      obtain ⟨ch, rn, rest, hsplit, hch⟩ := exists_isRune hutf8.1
      have hhigh : ∀ b ∈ ch, 0x80 ≤ b.toNat := by
        rcases hch.ascii_or with ⟨b', rfl, hb'⟩ | hhigh
        · simp only [cons_append, List.cons.injEq] at hsplit
          exact absurd (hsplit.1 ▸ hb') hascii
        · exact hhigh
      obtain ⟨raw', hraw, hrest⟩ := exists_rune_append hhigh hsplit.symm
      rw [hraw] at hn hrun hcontent hplain ⊢
      rw [unquote_rune hch hhigh, Option.map_eq_some_iff] at hcontent
      obtain ⟨t', ht', rfl⟩ := hcontent
      rw [StrState.run_high hhigh] at hrun
      have hlen := hch.length_pos
      rw [List.append_assoc] at hplain ⊢
      obtain ⟨hread, hrest⟩ := ih raw'.length (by rw [← hn, length_append]; omega)
        (hplain.of_rune hch hhigh) hrun ht' rfl
      exact ⟨readDoubleQuoted_append hhigh hread, hrest⟩

theorem parseDoubleQuoted_isStr (h : IsStr raw t)
    (hplain : Plain ('"'.toUInt8 :: (raw ++ '"'.toUInt8 :: r))) :
    Plain r ∧ ∀ x, parseDoubleQuoted ('"'.toUInt8 :: (raw ++ '"'.toUInt8 :: r)) = some x →
      x = (t, r) := by
  obtain ⟨hread, hrest⟩ := readDoubleQuoted_isStr h (hplain.of_cons (by decide) (by decide))
  refine ⟨hrest, fun x hx => ?_⟩
  simp only [parseDoubleQuoted, tail_cons, hread] at hx
  split_ifs at hx
  exact (Option.some.inj hx).symm

/-! ### Bare scalars -/

theorem scalarByte_props : ∀ b : UInt8, isScalarByte b →
    (b.toNat < 0x80 ∧ b ≠ '\\') ∧ isGraphic b ∧ isWS b = false ∧
      b ∉ scalarBailBytes ∧ b ≠ ',' ∧ b ≠ '/' ∧ b ≠ '#' :=
  forall_byte (by decide +kernel)

theorem ne_of_not_bail {b} (hb : b ∉ scalarBailBytes) (hc : c ∈ scalarBailBytes) : b ≠ c := by
  rintro rfl
  exact hb hc

variable {tok : Bytes} {v : Value}

theorem parseUnquotedScalar_append {nm term r'} (htok : ∀ b ∈ tok, isScalarByte b) (hr : Follow r)
    (h : parseUnquotedScalar nm term (tok ++ r) = some (v, r')) :
    classifyScalarMode tok nm = some v ∧ r' = skipWS r := by
  simp only [parseUnquotedScalar, Option.bind_eq_some_iff, Prod.exists] at h
  obtain ⟨raw, rest, hrun, h⟩ := h
  have htop : term ≠ .top := by
    rintro rfl
    split at h
    · cases h
    · cases h
  set inRun : UInt8 → Bool := fun c => !(isWS c || term.has c || c ∈ scalarBailBytes) with hinRun
  have hin : ∀ b ∈ tok, inRun b := by
    intro b hb
    obtain ⟨-, -, hws, hbail, hcomma, -⟩ := scalarByte_props b (htok b hb)
    have hterm : term.has b = false := by
      cases term <;> simp only [Term.has, decide_eq_false hcomma, Bool.false_or,
        decide_eq_false_iff_not]
      all_goals exact ne_of_not_bail hbail (by decide)
    simp [hinRun, hws, hterm, hbail]
  have hstop : ∀ b, r.head? = some b → inRun b = false := by
    intro b hb
    rcases hr b hb with hws | rfl | rfl | rfl
    · simp [hinRun, hws]
    all_goals
      cases term with
      | top => exact absurd rfl htop
      | objectValue => rfl
      | arrayValue => rfl
  have htake : (tok ++ r).takeWhile inRun = tok := by
    rw [takeWhile_append_of_pos hin]
    cases r with
    | nil => simp
    | cons b r => simp [hstop b rfl]
  have hdrop : (tok ++ r).dropWhile inRun = r := by
    rw [dropWhile_append_of_pos hin]
    cases r with
    | nil => rfl
    | cons b r => simp [hstop b rfl]
  simp only [scalarRun, ← hinRun, htake, hdrop] at hrun
  split_ifs at hrun
  cases hrun
  split at h
  · cases h
  next c r1 hs =>
  split_ifs at h
  obtain ⟨v', hv', he⟩ := Option.map_eq_some_iff.mp h
  cases he
  exact ⟨hv', hs.symm⟩

theorem classifyScalar_keyword (htok : ∀ b ∈ tok, isScalarByte b)
    (hk : keyword tok = some v) : classifyScalarMode tok .legacy = some v := by
  have htrim : trimSpace tok = tok :=
    trimSpace_of_graphic fun b hb => (scalarByte_props b (htok b hb)).2.1
  rw [classifyScalarMode, if_neg (by decide), classifyScalar, htrim]
  simp only [hk]

theorem classifyScalar_number (htok : isNumber tok)
    (h : classifyScalarMode tok .legacy = some v) : v = .number false false tok := by
  have htrim : trimSpace tok = tok :=
    trimSpace_of_graphic fun b hb => (scalarByte_props b (isNumber_bytes htok b hb)).2.1
  have hk : keyword tok = none := by
    simp only [keyword]
    split_ifs with h1 h2 h3
    · rw [h1] at htok; exact absurd htok (by decide)
    · rw [h2] at htok; exact absurd htok (by decide)
    · rw [h3] at htok; exact absurd htok (by decide)
    · rfl
  rw [classifyScalarMode, if_neg (by decide), classifyScalar, htrim] at h
  simp only [hk] at h
  split at h <;> cases h
  rfl

/-! ### What the grammar derives, the fixing parser reads or declines -/

theorem derives_value_head {j c} (h : Derives (.value j) c) :
    ∃ b c', c = b :: c' ∧ isWS b = false ∧ b ≠ ',' ∧ b ≠ ']' ∧ b ≠ '}' := by
  cases h with
  | null => exact ⟨_, _, rfl, by decide⟩
  | bool b => cases b <;> exact ⟨_, _, rfl, by decide⟩
  | num h =>
    simp only [isNumber, decide_eq_true_eq] at h
    obtain ⟨-, b, u, q, q', rfl, hb, -⟩ := scanNumber_eq_some_iff.mp h
    obtain ⟨hws, -, h1, -, h2, -, h3⟩ := startsScalar_ne _ (startsScalar_of_number hb)
    exact ⟨b, u, rfl, hws, h3, h1, h2⟩
  | str | arrNil | arr | objNil | obj => exact ⟨_, _, rfl, by decide⟩

/-- The end of a round of the loop of `parseArray`, after an element. -/
def afterElem (vs : List Value) (s : Bytes) : Option (Value × Bytes) :=
  match skipWS s with
  | [] => none
  | c :: r =>
    if c = ']' then some (.array false vs, r)
    else if c = ',' then fixCall .legacy (.array vs r) else none

theorem afterElem_congr {vs s'} (h : skipWS s = skipWS s') : afterElem vs s = afterElem vs s' := by
  simp only [afterElem, h]

/-- The end of a round of the loop of `parseObject`, after a member. -/
def afterMember (fs : List Field) (s : Bytes) : Option (Value × Bytes) :=
  match skipWS s with
  | [] => none
  | c :: r =>
    if c = '}' then some (.object false fs, r)
    else if c = ',' then fixCall .legacy (.object fs r) else none

theorem afterMember_congr {fs s'} (h : skipWS s = skipWS s') :
    afterMember fs s = afterMember fs s' := by
  simp only [afterMember, h]

/-- What the fixing parser does on a plain text of each syntactic category, whatever follows. -/
def Fixes : Symbol → Bytes → Prop
  | .value j, c => ∀ r, Plain (c ++ r) → Follow r → Plain r ∧ ∀ term v r',
      fixCall .legacy (.value term (c ++ r)) = some (v, r') →
        v = .ofJson j ∧ skipWS r' = skipWS r
  | .elems js, c => ∀ r, Plain (c ++ ']'.toUInt8 :: r) → Plain r ∧ ∀ vs v r',
      fixCall .legacy (.array vs (c ++ ']'.toUInt8 :: r)) = some (v, r') →
        v = .array false (vs ++ Value.ofElems js) ∧ r' = r
  | .elemsTail js, c => ∀ r, Plain (c ++ ']'.toUInt8 :: r) → Plain r ∧ ∀ vs v r',
      afterElem vs (c ++ ']'.toUInt8 :: r) = some (v, r') →
        v = .array false (vs ++ Value.ofElems js) ∧ r' = r
  | .members fs, c => ∀ r, Plain (c ++ '}'.toUInt8 :: r) → Plain r ∧ ∀ gs v r',
      fixCall .legacy (.object gs (c ++ '}'.toUInt8 :: r)) = some (v, r') →
        v = .object false (gs ++ Value.ofMembers fs) ∧ r' = r
  | .membersTail fs, c => ∀ r, Plain (c ++ '}'.toUInt8 :: r) → Plain r ∧ ∀ gs v r',
      afterMember gs (c ++ '}'.toUInt8 :: r) = some (v, r') →
        v = .object false (gs ++ Value.ofMembers fs) ∧ r' = r

section

variable {s r r1 : Bytes} {c : UInt8} {term : Term}

theorem fixCall_value (hs : skipWS s = c :: r1) :
    fixCall .legacy (.value term s) = parseValueF .legacy (fixCall .legacy) term (c :: r1) := by
  have hskip : skipWS (c :: r1) = c :: r1 := hs ▸ skipWS_skipWS s
  rw [fixCall_eq, fixF, parseValueF, parseValueF, hs, hskip]

variable {w : Bytes}

theorem fixCall_value_ws (hw : Ws w) :
    fixCall .legacy (.value term (w ++ s)) = fixCall .legacy (.value term s) := by
  rw [fixCall_eq, fixF, parseValueF, skipWS_append_of_ws hw, ← parseValueF, ← fixF, ← fixCall_eq]

theorem fixCall_open_array :
    fixCall .legacy (.value term ('['.toUInt8 :: s)) = fixCall .legacy (.array [] s) := by
  rw [fixCall_eq, fixF, parseValueF, skipWS_cons_of_not_ws (by decide)]
  rfl

theorem fixCall_open_object :
    fixCall .legacy (.value term ('{'.toUInt8 :: s)) = fixCall .legacy (.object [] s) := by
  rw [fixCall_eq, fixF, parseValueF, skipWS_cons_of_not_ws (by decide)]
  rfl

theorem fixCall_array {vs} (hs : skipWS s = c :: r1) (hclose : c ≠ ']') (hcomma : c ≠ ',') :
    fixCall .legacy (.array vs s) = (fixCall .legacy (.value .arrayValue (c :: r1))).bind
      fun (v, s1) => afterElem (vs ++ [v]) s1 := by
  rw [fixCall_eq, fixF, parseArrayF, hs]
  simp only [if_neg hclose, if_neg hcomma]
  rfl

theorem fixCall_object {fs} (hs : skipWS s = c :: r1) (hclose : c ≠ '}')
    (hcomma : c ≠ ',') : fixCall .legacy (.object fs s) = (parseKey (c :: r1)).bind fun (key, s1) =>
      match skipWS s1 with
      | [] => none
      | c1 :: s2 =>
        if c1 ≠ ':' then none
        else (fixCall .legacy (.value .objectValue s2)).bind
          fun (v, s3) => afterMember (fs ++ [(key, v)]) s3 := by
  rw [fixCall_eq, fixF, parseObjectF, hs]
  simp only [if_neg hclose, if_neg hcomma]
  rfl

theorem fixCall_array_close {vs} (hw : Ws w) :
    fixCall .legacy (.array vs (w ++ ']'.toUInt8 :: r)) = some (.array false vs, r) := by
  rw [fixCall_eq, fixF, parseArrayF, skipWS_append_of_ws hw, skipWS_cons_of_not_ws (by decide)]
  rfl

theorem fixCall_object_close {fs} (hw : Ws w) :
    fixCall .legacy (.object fs (w ++ '}'.toUInt8 :: r)) = some (.object false fs, r) := by
  rw [fixCall_eq, fixF, parseObjectF, skipWS_append_of_ws hw, skipWS_cons_of_not_ws (by decide)]
  rfl

end

theorem fixes_scalar {j : Json} {c : Bytes} (hne : c ≠ []) (hbytes : ∀ b ∈ c, isScalarByte b = true)
    (hclass : ∀ v, classifyScalarMode c .legacy = some v → v = .ofJson j) : Fixes (.value j) c := by
  intro r hplain hr
  refine ⟨hplain.of_append fun b hb => (scalarByte_props b (hbytes b hb)).1, ?_⟩
  intro term v r' h
  cases c with
  | nil => exact absurd rfl hne
  | cons b c =>
    obtain ⟨-, -, hws, hbail, -, hslash, hhash⟩ := scalarByte_props b (hbytes b (by simp))
    have hskip := skipWS_cons_of_not_ws hws (c ++ r)
    rw [cons_append, fixCall_value hskip, parseValueF, hskip] at h
    simp only [if_neg (ne_of_not_bail hbail (show '{'.toUInt8 ∈ scalarBailBytes by decide)),
      if_neg (ne_of_not_bail hbail (show '['.toUInt8 ∈ scalarBailBytes by decide)),
      if_neg (ne_of_not_bail hbail (show '"'.toUInt8 ∈ scalarBailBytes by decide)),
      if_neg (ne_of_not_bail hbail (show '\''.toUInt8 ∈ scalarBailBytes by decide)),
      ne_of_not_bail hbail (show '`'.toUInt8 ∈ scalarBailBytes by decide), hslash, hhash,
      or_self, if_false] at h
    obtain ⟨hv, hrest⟩ := parseUnquotedScalar_append hbytes hr h
    exact ⟨hclass v hv, by rw [hrest, skipWS_skipWS]⟩

/-- **What the grammar derives, the fixing parser reads or declines.** -/
theorem fixes_of_derives {x c} (h : Derives x c) : Fixes x c := by
  induction h with
  | null =>
    refine fixes_scalar (by decide) null_bytes fun v hv => ?_
    rw [classifyScalar_keyword (v := .null false) null_bytes (by decide)] at hv
    exact (Option.some.inj hv).symm
  | bool b =>
    cases b with
    | true =>
      refine fixes_scalar (by decide) (bool_bytes true) fun v hv => ?_
      rw [classifyScalar_keyword (v := .bool false true) (bool_bytes true) (by decide)] at hv
      exact (Option.some.inj hv).symm
    | false =>
      refine fixes_scalar (by decide) (bool_bytes false) fun v hv => ?_
      rw [classifyScalar_keyword (v := .bool false false) (bool_bytes false) (by decide)] at hv
      exact (Option.some.inj hv).symm
  | @num tok h =>
    have hne : tok ≠ [] := by rintro rfl; exact absurd h (by decide)
    exact fixes_scalar hne (isNumber_bytes h) fun v hv => classifyScalar_number h hv
  | @str raw t h =>
    intro r hplain hr
    simp only [cons_append, List.append_assoc, nil_append] at hplain ⊢
    obtain ⟨hrest, hparse⟩ := parseDoubleQuoted_isStr h hplain
    refine ⟨hrest, fun term v r' hcall => ?_⟩
    have hskip := skipWS_cons_of_not_ws (b := '"') (by decide) (raw ++ '"'.toUInt8 :: r)
    rw [fixCall_value hskip, parseValueF, hskip] at hcall
    obtain ⟨x, hx, he⟩ := Option.map_eq_some_iff.mp hcall
    rw [hparse x hx] at he
    cases he
    exact ⟨rfl, rfl⟩
  | @arrNil w hw =>
    intro r hplain hr
    simp only [cons_append, List.append_assoc, nil_append] at hplain ⊢
    have hrest := ((hplain.of_cons (by decide) (by decide)).of_ws hw).of_cons (by decide)
      (by decide)
    refine ⟨hrest, fun term v r' hcall => ?_⟩
    rw [fixCall_open_array, fixCall_array_close hw] at hcall
    cases hcall
    exact ⟨rfl, rfl⟩
  | arr _ ih =>
    intro r hplain hr
    simp only [cons_append, List.append_assoc, nil_append] at hplain ⊢
    obtain ⟨hrest, hfix⟩ := ih r (hplain.of_cons (by decide) (by decide))
    refine ⟨hrest, fun term v r' hcall => ?_⟩
    rw [fixCall_open_array] at hcall
    obtain ⟨rfl, rfl⟩ := hfix [] v r' hcall
    exact ⟨rfl, rfl⟩
  | @objNil w hw =>
    intro r hplain hr
    simp only [cons_append, List.append_assoc, nil_append] at hplain ⊢
    have hrest := ((hplain.of_cons (by decide) (by decide)).of_ws hw).of_cons (by decide)
      (by decide)
    refine ⟨hrest, fun term v r' hcall => ?_⟩
    rw [fixCall_open_object, fixCall_object_close hw] at hcall
    cases hcall
    exact ⟨rfl, rfl⟩
  | obj _ ih =>
    intro r hplain hr
    simp only [cons_append, List.append_assoc, nil_append] at hplain ⊢
    obtain ⟨hrest, hfix⟩ := ih r (hplain.of_cons (by decide) (by decide))
    refine ⟨hrest, fun term v r' hcall => ?_⟩
    rw [fixCall_open_object] at hcall
    obtain ⟨rfl, rfl⟩ := hfix [] v r' hcall
    exact ⟨rfl, rfl⟩
  | @elem j js w c w' t hw hv hw' ht ihv iht =>
    intro r hplain
    simp only [List.append_assoc] at hplain ⊢
    obtain ⟨hplain1, hvalue⟩ := ihv (w' ++ (t ++ ']'.toUInt8 :: r)) (hplain.of_ws hw)
      (Follow.ws_append hw' (follow_elemsTail ht r))
    obtain ⟨hrest, htail⟩ := iht r (hplain1.of_ws hw')
    refine ⟨hrest, fun vs v r' hcall => ?_⟩
    obtain ⟨b, c', rfl, hws, hcomma, hclose, -⟩ := derives_value_head hv
    have hskip : skipWS (w ++ (b :: c' ++ (w' ++ (t ++ ']'.toUInt8 :: r)))) =
        b :: (c' ++ (w' ++ (t ++ ']'.toUInt8 :: r))) := by
      rw [skipWS_append_of_ws hw, cons_append, skipWS_cons_of_not_ws hws]
    simp only [fixCall_array hskip hclose hcomma, Option.bind_eq_some_iff, Prod.exists] at hcall
    obtain ⟨u, s1, hu, hafter⟩ := hcall
    obtain ⟨rfl, hs1⟩ := hvalue .arrayValue u s1 hu
    rw [afterElem_congr (hs1.trans (skipWS_append_of_ws hw' _))] at hafter
    obtain ⟨rfl, rfl⟩ := htail _ v r' hafter
    exact ⟨by simp [Value.ofElems], rfl⟩
  | elemsEnd =>
    intro r hplain
    refine ⟨hplain.of_cons (by decide) (by decide), fun vs v r' h => ?_⟩
    rw [nil_append, afterElem, skipWS_cons_of_not_ws (by decide)] at h
    cases h
    exact ⟨by simp [Value.ofElems], rfl⟩
  | @elemsMore js c _ ih =>
    intro r hplain
    rw [cons_append] at hplain
    obtain ⟨hrest, hfix⟩ := ih r (hplain.of_cons (by decide) (by decide))
    refine ⟨hrest, fun vs v r' h => ?_⟩
    rw [cons_append, afterElem, skipWS_cons_of_not_ws (by decide)] at h
    exact hfix vs v r' h
  | @member k j fs w raw w1 w2 c w3 t hw hk hw1 hw2 hv hw3 ht ihv iht =>
    intro r hplain
    simp only [List.append_assoc, cons_append] at hplain ⊢
    obtain ⟨hplain1, hkey⟩ := parseDoubleQuoted_isStr hk (hplain.of_ws hw)
    have hplain2 := ((hplain1.of_ws hw1).of_cons (by decide) (by decide)).of_ws hw2
    obtain ⟨hplain3, hvalue⟩ := ihv (w3 ++ (t ++ '}'.toUInt8 :: r)) hplain2
      (Follow.ws_append hw3 (follow_membersTail ht r))
    obtain ⟨hrest, htail⟩ := iht r (hplain3.of_ws hw3)
    refine ⟨hrest, fun gs v r' hcall => ?_⟩
    have hskip := skipWS_append_of_ws hw ('"'.toUInt8 :: (raw ++ '"'.toUInt8 ::
      (w1 ++ ':'.toUInt8 :: (w2 ++ (c ++ (w3 ++ (t ++ '}'.toUInt8 :: r)))))))
    rw [skipWS_cons_of_not_ws (by decide)] at hskip
    rw [fixCall_object hskip (by decide) (by decide), Option.bind_eq_some_iff] at hcall
    obtain ⟨x, hx, hcall⟩ := hcall
    rw [parseKey, skipWS_cons_of_not_ws (by decide)] at hx
    obtain rfl := hkey x hx
    simp only [skipWS_append_of_ws hw1, skipWS_cons_of_not_ws (b := ':') (by decide),
      ne_eq, not_true_eq_false, if_false, Option.bind_eq_some_iff, Prod.exists] at hcall
    obtain ⟨u, s3, hu, hafter⟩ := hcall
    rw [fixCall_value_ws hw2] at hu
    obtain ⟨rfl, hs3⟩ := hvalue .objectValue u s3 hu
    rw [afterMember_congr (hs3.trans (skipWS_append_of_ws hw3 _))] at hafter
    obtain ⟨rfl, rfl⟩ := htail _ v r' hafter
    exact ⟨by simp [Value.ofMembers], rfl⟩
  | membersEnd =>
    intro r hplain
    refine ⟨hplain.of_cons (by decide) (by decide), fun vs v r' h => ?_⟩
    rw [nil_append, afterMember, skipWS_cons_of_not_ws (by decide)] at h
    cases h
    exact ⟨by simp [Value.ofMembers], rfl⟩
  | @membersMore fs c _ ih =>
    intro r hplain
    rw [cons_append] at hplain
    obtain ⟨hrest, hfix⟩ := ih r (hplain.of_cons (by decide) (by decide))
    refine ⟨hrest, fun vs v r' h => ?_⟩
    rw [cons_append, afterMember, skipWS_cons_of_not_ws (by decide)] at h
    exact hfix vs v r' h

/-! ### Whole texts -/

/-- **The fixing parser agrees with the strict decoder** on valid UTF-8 without `\/` and `\u`
escapes. -/
theorem fixParse_eq_strictDecode (s : Bytes) (v v' : Value) (hutf8 : validUtf8 s = true)
    (hesc : plainEscapes s = true) (hstrict : strictDecode s = some v)
    (hfix : fixParse s = some v') : v' = v := by
  obtain ⟨j, rfl, w, c, w', hw, hderives, hw', rfl⟩ := strictDecode_eq_some_iff.mp hstrict
  have hplain : Plain (c ++ w') := Plain.of_ws hw ⟨hutf8, hesc⟩
  have hfollow : Follow w' := by simpa using Follow.ws_append hw' follow_nil
  obtain ⟨-, hvalue⟩ := fixes_of_derives hderives w' hplain hfollow
  simp only [fixParse, fixParseMode] at hfix
  split_ifs at hfix
  split at hfix
  · next u r hcall =>
    rw [fixCall_value_ws hw] at hcall
    split_ifs at hfix
    cases hfix
    exact (hvalue .top _ r hcall).1
  · cases hfix

/-- A text on which both parsers succeed. -/
theorem fixParse_eq_strictDecode_nested :
    strictDecode (bytes "[\"\\n\", 1 ]") =
        some (.array false [.string false [10], .number false false (bytes "1")]) ∧
      fixParse (bytes "[\"\\n\", 1 ]") =
        some (.array false [.string false [10], .number false false (bytes "1")]) := by
  have hstrict : strictDecode (bytes "[\"\\n\", 1 ]") =
      some (.array false [.string false [10], .number false false (bytes "1")]) := by
    decide +kernel
  obtain ⟨v, hfix⟩ : ∃ v, fixParse (bytes "[\"\\n\", 1 ]") = some v :=
    Option.isSome_iff_exists.mp (by decide +kernel)
  have hv := fixParse_eq_strictDecode _ _ v (by decide +kernel) (by decide +kernel) hstrict hfix
  exact ⟨hstrict, hv ▸ hfix⟩

end BamlRest
