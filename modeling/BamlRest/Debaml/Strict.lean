import BamlRest.Debaml.Value
import BamlRest.Text.Scalars

/-!
# The strict decoder accepts exactly JSON

`strictDecode` reads the token stream of `encoding/json`; this module relates it to the grammar.
-/

namespace BamlRest

open Option List DecodeCall

/-! ### Scalars in front of a delimiter -/

theorem scanLiteral_append (lit r) : scanLiteral lit (lit ++ r) = some r := by
  have hpre : lit.isPrefixOf (lit ++ r) :=
    isPrefixOf_iff_prefix.mpr (prefix_append lit r)
  simp [scanLiteral, hpre]

variable {r s : Bytes}

theorem eq_append_of_scanLiteral {lit} (h : scanLiteral lit s = some r) : s = lit ++ r := by
  simp only [scanLiteral] at h
  split at h
  · next hpre =>
    rw [← Option.some.inj h]
    have hlit := isPrefixOf_iff_prefix.mp hpre
    exact (prefix_iff_eq_append.mp hlit).symm
  · cases h

variable {t : Token}

theorem startsScalar_of_scanScalar {b}
    (h : scanScalar (b :: s) = some (t, r)) : startsScalar b := by
  simp only [scanScalar] at h
  split at h
  · next hb => subst hb; rfl
  split at h
  · next hb => subst hb; rfl
  split at h
  · next hb => subst hb; rfl
  split at h
  · next hb => subst hb; rfl
  simp only [map_eq_some_iff, Prod.exists, Prod.mk.injEq] at h
  obtain ⟨tok, r', hscan, -, -⟩ := h
  obtain ⟨hs, c, u, q, q', rfl, hc, -⟩ := scanNumber_eq_some_iff.mp hscan
  simp only [cons_append, List.cons.injEq] at hs
  exact hs.1 ▸ startsScalar_of_number hc

/-! ### Single tokens -/

variable {w : Bytes}

theorem nextToken_ws_append (hw : Ws w) (q stack)
    (s) : nextToken q stack (w ++ s) = nextToken q stack s := by
  induction w with
  | nil => rfl
  | cons b w ih =>
    rw [cons_append, nextToken, if_pos (hw b (by simp))]
    exact ih fun c hc => hw c (by simp [hc])

variable {q : TokenState}

theorem nextToken_scalar (hq : q.valueAllowed) (stack) (h : scanScalar s = some (t, r)) :
    nextToken q stack s = .token t ⟨r, q.valueEnd, stack⟩ := by
  cases s with
  | nil => simp [scanScalar] at h
  | cons b s =>
    obtain ⟨hws, h1, h2, h3, h4, h5, h6⟩ := startsScalar_ne _ (startsScalar_of_scanScalar h)
    have hkey : ¬(b = '"' ∧ (q = .objectStart ∨ q = .objectKey)) := by
      rintro ⟨-, rfl | rfl⟩ <;> cases hq
    rw [nextToken, hws, if_neg (by simp), if_neg h1, if_neg h2, if_neg h3, if_neg h4, if_neg h5,
      if_neg h6, if_neg hkey, if_pos hq, h]

variable {k : Bytes}

theorem nextToken_key (hq : q = .objectStart ∨ q = .objectKey)
    (stack) {raw} (hk : IsStr raw k) (r) :
    nextToken q stack ('"'.toUInt8 :: (raw ++ '"'.toUInt8 :: r)) =
      .token (.str k) ⟨r, .objectColon, stack⟩ := by
  have hscan : scanString .body (raw ++ '"'.toUInt8 :: r) = some (raw, r) :=
    scanString_eq_some_iff.mpr ⟨rfl, hk.run⟩
  have hkey : '"'.toUInt8 = '"'.toUInt8 ∧ (q = .objectStart ∨ q = .objectKey) := ⟨rfl, hq⟩
  rw [nextToken]
  iterate 7 rw [if_neg (by decide)]
  rw [if_pos hkey, hscan]
  simp [hk.content]

theorem nextToken_open (hq : q.valueAllowed) (stack r) :
    nextToken q stack ('['.toUInt8 :: r) = .token (.delim '[') ⟨r, .arrayStart, q :: stack⟩ ∧
    nextToken q stack ('{'.toUInt8 :: r) = .token (.delim '{') ⟨r, .objectStart, q :: stack⟩ := by
  constructor
  · rw [nextToken, if_neg (by decide), if_pos rfl, if_pos hq]
  · rw [nextToken, if_neg (by decide), if_neg (by decide), if_neg (by decide), if_pos rfl,
      if_pos hq]

theorem nextToken_closeArray (hq : q = .arrayStart ∨ q = .arrayComma) (q0 st r) :
    nextToken q (q0 :: st) (']'.toUInt8 :: r) = .token (.delim ']') ⟨r, q0.valueEnd, st⟩ := by
  rw [nextToken, if_neg (by decide), if_neg (by decide), if_pos rfl, if_pos hq]
  rfl

theorem nextToken_closeObject (hq : q = .objectStart ∨ q = .objectComma) (q0 st r) :
    nextToken q (q0 :: st) ('}'.toUInt8 :: r) = .token (.delim '}') ⟨r, q0.valueEnd, st⟩ := by
  rw [nextToken]
  iterate 4 rw [if_neg (by decide)]
  rw [if_pos rfl, if_pos hq]
  rfl

theorem nextToken_colon (stack r) :
    nextToken .objectColon stack (':'.toUInt8 :: r) = nextToken .objectValue stack r := by
  rw [nextToken]
  iterate 5 rw [if_neg (by decide)]
  rw [if_pos rfl, if_pos rfl]

theorem nextToken_arrayComma (stack r) :
    nextToken .arrayComma stack (','.toUInt8 :: r) = nextToken .arrayValue stack r := by
  rw [nextToken]
  iterate 6 rw [if_neg (by decide)]
  rw [if_pos rfl, if_pos rfl]

theorem nextToken_objectComma (stack r) :
    nextToken .objectComma stack (','.toUInt8 :: r) = nextToken .objectKey stack r := by
  rw [nextToken]
  iterate 6 rw [if_neg (by decide)]
  rw [if_pos rfl, if_neg (by decide), if_pos rfl]

/-! ### What the grammar derives, the decoder reads -/

/-- What the decoder does on a text of each syntactic category, whatever surrounds the text. -/
def Decodes : Symbol → Bytes → Prop
  | .value j, c => ∀ q stack r, q.valueAllowed → Follow r →
      ∃ t d, nextToken q stack (c ++ r) = .token t d ∧ t ≠ .delim ']' ∧
        decodeCall .legacy (.token t d) = some (.ofJson j, ⟨r, q.valueEnd, stack⟩)
  | .elems js, c => ∀ q q0 st vs r, q = .arrayStart ∨ q = .arrayValue →
      decodeCall .legacy (.array vs ⟨c ++ ']'.toUInt8 :: r, q, q0 :: st⟩) =
        some (.array false (vs ++ Value.ofElems js), ⟨r, q0.valueEnd, st⟩)
  | .elemsTail js, c => ∀ w q0 st vs r, Ws w →
      decodeCall .legacy (.array vs ⟨w ++ (c ++ ']'.toUInt8 :: r), .arrayComma, q0 :: st⟩) =
        some (.array false (vs ++ Value.ofElems js), ⟨r, q0.valueEnd, st⟩)
  | .members fs, c => ∀ q q0 st gs r, q = .objectStart ∨ q = .objectKey →
      decodeCall .legacy (.object gs ⟨c ++ '}'.toUInt8 :: r, q, q0 :: st⟩) =
        some (.object false (gs ++ Value.ofMembers fs), ⟨r, q0.valueEnd, st⟩)
  | .membersTail fs, c => ∀ w q0 st gs r, Ws w →
      decodeCall .legacy (.object gs ⟨w ++ (c ++ '}'.toUInt8 :: r), .objectComma, q0 :: st⟩) =
        some (.object false (gs ++ Value.ofMembers fs), ⟨r, q0.valueEnd, st⟩)

variable {c : Bytes}

theorem decodes_scalar {j} (ht : ∀ e, t ≠ .delim e)
    (hscan : ∀ r, Follow r → scanScalar (c ++ r) = some (t, r))
    (hdec : ∀ d, decodeTokenF .legacy (decodeCall .legacy) t d = some (.ofJson j, d)) :
    Decodes (.value j) c := by
  intro q stack r hq hr
  refine ⟨t, _, nextToken_scalar hq stack (hscan r hr), ht _, ?_⟩
  rw [decodeToken_eq, hdec]

theorem follow_elemsTail {js} (h : Derives (.elemsTail js) c) (r) :
    Follow (c ++ ']'.toUInt8 :: r) := by
  cases h with
  | elemsEnd => exact follow_cons_delim (by simp) r
  | elemsMore _ => exact follow_cons_delim (by simp) _

theorem follow_membersTail {fs}
    (h : Derives (.membersTail fs) c) (r) : Follow (c ++ '}'.toUInt8 :: r) := by
  cases h with
  | membersEnd => exact follow_cons_delim (by simp) r
  | membersMore _ => exact follow_cons_delim (by simp) _

theorem decode_closeArray (hw : Ws w) (hq : q = .arrayStart ∨ q = .arrayComma) (q0 st vs r) :
    decodeCall .legacy (.array vs ⟨w ++ ']'.toUInt8 :: r, q, q0 :: st⟩) =
      some (.array false vs, ⟨r, q0.valueEnd, st⟩) := by
  rw [decodeArray_eq, decodeArrayF, Decoder.token]
  simp only [nextToken_ws_append hw, nextToken_closeArray hq, if_true]

theorem decode_closeObject (hw : Ws w) (hq : q = .objectStart ∨ q = .objectComma) (q0 st fs r) :
    decodeCall .legacy (.object fs ⟨w ++ '}'.toUInt8 :: r, q, q0 :: st⟩) =
      some (.object false fs, ⟨r, q0.valueEnd, st⟩) := by
  rw [decodeObject_eq, decodeObjectF, Decoder.token]
  simp only [nextToken_ws_append hw, nextToken_closeObject hq, if_true]

/-- **What the grammar derives, the decoder reads**, and it leaves what follows. -/
theorem decode_of_derives {x} (h : Derives x c) : Decodes x c := by
  induction h with
  | null =>
    refine decodes_scalar (t := .null) (by simp) (fun r _ => ?_) (fun _ => rfl)
    change (scanLiteral "null" ("null" ++ r)).map _ = _
    rw [scanLiteral_append]
    rfl
  | bool b =>
    refine decodes_scalar (t := .bool b) (by simp) (fun r _ => ?_) (fun _ => rfl)
    cases b with
    | true =>
      change (scanLiteral "true" ("true" ++ r)).map _ = _
      rw [scanLiteral_append]
      rfl
    | false =>
      change (scanLiteral "false" ("false" ++ r)).map _ = _
      rw [scanLiteral_append]
      rfl
  | @num tok h =>
    refine decodes_scalar (t := .num tok) (by simp) (fun r hr => ?_) (fun _ => rfl)
    have hscan := scanNumber_append h hr
    obtain ⟨-, b, u, q, q', rfl, hb, -⟩ := scanNumber_eq_some_iff.mp hscan
    have hne : b ≠ '"' ∧ b ≠ 't' ∧ b ≠ 'f' ∧ b ≠ 'n' := by
      rcases NumState.start_eq_some hb with rfl | hd
      · decide
      · refine ⟨?_, ?_, ?_, ?_⟩ <;> rintro rfl <;> revert hd <;> decide
    obtain ⟨h1, h2, h3, h4⟩ := hne
    rw [cons_append] at hscan ⊢
    rw [scanScalar, if_neg h1, if_neg h2, if_neg h3, if_neg h4, hscan]
    rfl
  | @str raw t h =>
    refine decodes_scalar (t := .str t) (by simp) (fun r _ => ?_) (fun _ => rfl)
    have hscan : scanString .body (raw ++ '"'.toUInt8 :: r) = some (raw, r) :=
      scanString_eq_some_iff.mpr ⟨rfl, h.run⟩
    simp only [cons_append, List.append_assoc, nil_append]
    rw [scanScalar, if_pos rfl, hscan]
    simp [h.content]
  | @arrNil w hw =>
    intro q stack r hq hr
    rw [cons_append, List.append_assoc]
    refine ⟨_, _, (nextToken_open hq stack _).1, by decide, ?_⟩
    rw [decodeToken_eq, decodeTokenF, if_neg (by decide), if_pos rfl]
    exact decode_closeArray hw (.inl rfl) q stack [] r
  | arr _ ih =>
    intro q stack r hq hr
    rw [cons_append, List.append_assoc]
    refine ⟨_, _, (nextToken_open hq stack _).1, by decide, ?_⟩
    rw [decodeToken_eq, decodeTokenF, if_neg (by decide), if_pos rfl]
    exact ih .arrayStart q stack [] r (.inl rfl)
  | @objNil w hw =>
    intro q stack r hq hr
    rw [cons_append, List.append_assoc]
    refine ⟨_, _, (nextToken_open hq stack _).2, by decide, ?_⟩
    rw [decodeToken_eq, decodeTokenF, if_pos rfl]
    exact decode_closeObject hw (.inl rfl) q stack [] r
  | obj _ ih =>
    intro q stack r hq hr
    rw [cons_append, List.append_assoc]
    refine ⟨_, _, (nextToken_open hq stack _).2, by decide, ?_⟩
    rw [decodeToken_eq, decodeTokenF, if_pos rfl]
    exact ih .objectStart q stack [] r (.inl rfl)
  | @elem j js w c w' t hw _ hw' ht ihv iht =>
    intro q q0 st vs r hq
    have hqv : q.valueAllowed ∧ q.valueEnd = .arrayComma := by
      rcases hq with rfl | rfl <;> exact ⟨rfl, rfl⟩
    obtain ⟨tok, d, htok, hne, hdec⟩ := ihv q (q0 :: st) (w' ++ (t ++ ']'.toUInt8 :: r)) hqv.1
      (Follow.ws_append hw' (follow_elemsTail ht r))
    rw [decodeArray_eq, decodeArrayF, Decoder.token]
    simp only [List.append_assoc, nextToken_ws_append hw, htok]
    rw [if_neg hne, hdec, hqv.2]
    simp only [bind_some]
    rw [iht w' q0 st _ r hw']
    simp [Value.ofElems]
  | elemsEnd =>
    intro w q0 st vs r hw
    rw [nil_append, decode_closeArray hw (.inr rfl)]
    simp [Value.ofElems]
  | @elemsMore js c _ ih =>
    intro w q0 st vs r hw
    have hd : (⟨w ++ (','.toUInt8 :: c ++ ']'.toUInt8 :: r), .arrayComma, q0 :: st⟩ :
        Decoder).token = (⟨c ++ ']'.toUInt8 :: r, .arrayValue, q0 :: st⟩ : Decoder).token := by
      simp only [Decoder.token, nextToken_ws_append hw, cons_append, nextToken_arrayComma]
    rw [decodeArray_eq, decodeArrayF, hd, ← ih .arrayValue q0 st vs r (.inr rfl), decodeArray_eq,
      decodeArrayF]
  | @member k j fs w raw w1 w2 c w3 t hw hk hw1 hw2 _ hw3 ht ihv iht =>
    intro q q0 st gs r hq
    obtain ⟨tok, d, htok, -, hdec⟩ := ihv .objectValue (q0 :: st)
      (w3 ++ (t ++ '}'.toUInt8 :: r)) rfl (Follow.ws_append hw3 (follow_membersTail ht r))
    rw [decodeObject_eq, decodeObjectF, Decoder.token]
    simp only [List.append_assoc, cons_append, nextToken_ws_append hw, nextToken_key hq _ hk,
      Decoder.token, nextToken_ws_append hw1, nextToken_colon, nextToken_ws_append hw2, htok, hdec,
      bind_some]
    rw [TokenState.valueEnd, iht w3 q0 st _ r hw3]
    simp [Value.ofMembers]
  | membersEnd =>
    intro w q0 st gs r hw
    rw [nil_append, decode_closeObject hw (.inr rfl)]
    simp [Value.ofMembers]
  | @membersMore fs c _ ih =>
    intro w q0 st gs r hw
    have hd : (⟨w ++ (','.toUInt8 :: c ++ '}'.toUInt8 :: r), .objectComma, q0 :: st⟩ :
        Decoder).token = (⟨c ++ '}'.toUInt8 :: r, .objectKey, q0 :: st⟩ : Decoder).token := by
      simp only [Decoder.token, nextToken_ws_append hw, cons_append, nextToken_objectComma]
    rw [decodeObject_eq, decodeObjectF, hd, ← ih .objectKey q0 st gs r (.inr rfl), decodeObject_eq,
      decodeObjectF]

/-! ### What the decoder reads, the grammar derives -/

theorem Ws.cons {b w} (hb : isWS b) (hw : Ws w) : Ws (b :: w) := by
  intro c hc
  rcases mem_cons.mp hc with rfl | hc
  · exact hb
  · exact hw c hc

variable {stack : List TokenState} {d : Decoder}

theorem TokenRead.strip (h : TokenRead stack q s t d) :
    ∃ w s', Ws w ∧ s = w ++ s' ∧ TokenRead stack q s' t d ∧
      ∀ b r, s' = b :: r → isWS b = false := by
  induction h with
  | ws hc _ ih =>
    obtain ⟨w, s', hw, rfl, hread, hhead⟩ := ih
    exact ⟨_ :: w, s', hw.cons hc, rfl, hread, hhead⟩
  | colon h => exact ⟨[], _, by simp [Ws], rfl, .colon h, by rintro b r ⟨⟩; rfl⟩
  | arrayComma h => exact ⟨[], _, by simp [Ws], rfl, .arrayComma h, by rintro b r ⟨⟩; rfl⟩
  | objectComma h => exact ⟨[], _, by simp [Ws], rfl, .objectComma h, by rintro b r ⟨⟩; rfl⟩
  | openArray hq => exact ⟨[], _, by simp [Ws], rfl, .openArray hq, by rintro b r ⟨⟩; rfl⟩
  | openObject hq => exact ⟨[], _, by simp [Ws], rfl, .openObject hq, by rintro b r ⟨⟩; rfl⟩
  | closeArray hq hs => exact ⟨[], _, by simp [Ws], rfl, .closeArray hq hs, by rintro b r ⟨⟩; rfl⟩
  | closeObject hq hs =>
    exact ⟨[], _, by simp [Ws], rfl, .closeObject hq hs, by rintro b r ⟨⟩; rfl⟩
  | key hq ht => exact ⟨[], _, by simp [Ws], rfl, .key hq ht, by rintro b r ⟨⟩; rfl⟩
  | @scalar q s t r hq ht =>
    refine ⟨[], s, by simp [Ws], rfl, .scalar hq ht, fun b r' hs => ?_⟩
    subst hs
    exact (startsScalar_ne _ (startsScalar_of_scanScalar ht)).1

theorem derives_of_scanScalar (h : scanScalar s = some (t, r)) :
    ∃ j c, s = c ++ r ∧ Derives (.value j) c ∧
      ∀ rec d, decodeTokenF .legacy rec t d = some (.ofJson j, d) := by
  cases s with
  | nil => simp [scanScalar] at h
  | cons b s =>
    simp only [scanScalar] at h
    split at h
    · next hb =>
      subst hb
      simp only [bind_eq_some_iff, Prod.exists, map_eq_some_iff, Prod.mk.injEq] at h
      obtain ⟨raw, r', hscan, u, hu, rfl, rfl⟩ := h
      obtain ⟨rfl, hrun⟩ := scanString_eq_some_iff.mp hscan
      exact ⟨.str u, _, by simp, .str ⟨hrun, hu⟩, fun _ _ => rfl⟩
    split at h
    · obtain ⟨r', hr', he⟩ := map_eq_some_iff.mp h
      cases he
      exact ⟨.bool true, _, eq_append_of_scanLiteral hr', .bool true, fun _ _ => rfl⟩
    split at h
    · obtain ⟨r', hr', he⟩ := map_eq_some_iff.mp h
      cases he
      exact ⟨.bool false, _, eq_append_of_scanLiteral hr', .bool false, fun _ _ => rfl⟩
    split at h
    · obtain ⟨r', hr', he⟩ := map_eq_some_iff.mp h
      cases he
      exact ⟨.null, _, eq_append_of_scanLiteral hr', .null, fun _ _ => rfl⟩
    obtain ⟨⟨tok, r'⟩, hscan, he⟩ := map_eq_some_iff.mp h
    cases he
    exact ⟨.num tok, tok, (scanNumber_eq_some_iff.mp hscan).1,
      .num (isNumber_of_scanNumber hscan), fun _ _ => rfl⟩

theorem scanScalar_ne_delim {e} : scanScalar s ≠ some (.delim e, r) := by
  intro h
  obtain ⟨j, c, -, -, hdec⟩ := derives_of_scanScalar h
  have hnone := hdec (fun _ => none) ⟨r, .topValue, []⟩
  simp only [decodeTokenF, ite_self] at hnone
  cases hnone

theorem TokenRead.closeArray_inv (h : TokenRead stack q s t d) (ht : t = .delim ']') :
    (q = .arrayStart ∨ q = .arrayComma) ∧ ∃ w r q0 st, Ws w ∧ s = w ++ ']'.toUInt8 :: r ∧
      stack = q0 :: st ∧ d = ⟨r, q0.valueEnd, st⟩ := by
  induction h with
  | ws hc _ ih =>
    obtain ⟨hq, w, r, q0, st, hw, rfl, hs, hd⟩ := ih ht
    exact ⟨hq, _ :: w, r, q0, st, hw.cons hc, rfl, hs, hd⟩
  | colon _ ih => simp at ih; exact absurd ht ih
  | arrayComma _ ih => simp at ih; exact absurd ht ih
  | objectComma _ ih => simp at ih; exact absurd ht ih
  | openArray _ => simp at ht
  | openObject _ => simp at ht
  | closeArray hq hs => exact ⟨hq, [], _, _, _, by simp [Ws], rfl, hs, rfl⟩
  | closeObject _ _ => simp at ht
  | key _ _ => simp at ht
  | scalar _ h => exact absurd (ht ▸ h) scanScalar_ne_delim

theorem TokenRead.closeObject_inv (h : TokenRead stack q s t d) (ht : t = .delim '}') :
    (q = .objectStart ∨ q = .objectComma) ∧ ∃ w r q0 st, Ws w ∧ s = w ++ '}'.toUInt8 :: r ∧
      stack = q0 :: st ∧ d = ⟨r, q0.valueEnd, st⟩ := by
  induction h with
  | ws hc _ ih =>
    obtain ⟨hq, w, r, q0, st, hw, rfl, hs, hd⟩ := ih ht
    exact ⟨hq, _ :: w, r, q0, st, hw.cons hc, rfl, hs, hd⟩
  | colon _ ih => simp at ih; exact absurd ht ih
  | arrayComma _ ih => simp at ih; exact absurd ht ih
  | objectComma _ ih => simp at ih; exact absurd ht ih
  | openArray _ => simp at ht
  | openObject _ => simp at ht
  | closeArray _ _ => simp at ht
  | closeObject hq hs => exact ⟨hq, [], _, _, _, by simp [Ws], rfl, hs, rfl⟩
  | key _ _ => simp at ht
  | scalar _ h => exact absurd (ht ▸ h) scanScalar_ne_delim

theorem TokenRead.arrayComma_inv (h : TokenRead stack .arrayComma s t d) (ht : t ≠ .delim ']') :
    ∃ w r, Ws w ∧ s = w ++ ','.toUInt8 :: r ∧ TokenRead stack .arrayValue r t d := by
  obtain ⟨w, s', hw, rfl, h', hhead⟩ := h.strip
  cases h' with
  | ws hc _ => exact absurd hc (by simp [hhead _ _ rfl])
  | arrayComma h => exact ⟨w, _, hw, rfl, h⟩
  | openArray hq => cases hq
  | openObject hq => cases hq
  | closeArray _ _ => exact absurd rfl ht
  | closeObject hq _ => simp at hq
  | key hq _ => simp at hq
  | scalar hq _ => cases hq

theorem TokenRead.objectComma_inv (h : TokenRead stack .objectComma s (.str k) d) :
    ∃ w r, Ws w ∧ s = w ++ ','.toUInt8 :: r ∧ TokenRead stack .objectKey r (.str k) d := by
  obtain ⟨w, s', hw, rfl, h', hhead⟩ := h.strip
  cases h' with
  | ws hc _ => exact absurd hc (by simp [hhead _ _ rfl])
  | objectComma h => exact ⟨w, _, hw, rfl, h⟩
  | key hq _ => simp at hq
  | scalar hq _ => cases hq

theorem TokenRead.key_inv (hq : q = .objectStart ∨ q = .objectKey) (h : TokenRead stack q s (.str k) d) :
    ∃ w raw r, Ws w ∧ s = w ++ '"'.toUInt8 :: (raw ++ '"'.toUInt8 :: r) ∧ IsStr raw k ∧
      d = ⟨r, .objectColon, stack⟩ := by
  obtain ⟨w, s', hw, rfl, h', hhead⟩ := h.strip
  cases h' with
  | ws hc _ => exact absurd hc (by simp [hhead _ _ rfl])
  | key _ ht => exact ⟨w, _, _, hw, rfl, ht, rfl⟩
  | colon _ => simp at hq
  | arrayComma _ => simp at hq
  | objectComma _ => simp at hq
  | scalar hv _ => rcases hq with rfl | rfl <;> cases hv

theorem TokenRead.colon_inv (h : TokenRead stack .objectColon s t d) :
    ∃ w r, Ws w ∧ s = w ++ ':'.toUInt8 :: r ∧ TokenRead stack .objectValue r t d := by
  obtain ⟨w, s', hw, rfl, h', hhead⟩ := h.strip
  cases h' with
  | ws hc _ => exact absurd hc (by simp [hhead _ _ rfl])
  | colon h => exact ⟨w, _, hw, rfl, h⟩
  | openArray hq => cases hq
  | openObject hq => cases hq
  | closeArray hq _ => simp at hq
  | closeObject hq _ => simp at hq
  | key hq _ => simp at hq
  | scalar hq _ => cases hq

/-- What a successful call of the decoder says about the text it has read. -/
def Reads : DecodeCall → Value → Decoder → Prop
  | .token t d, v, d' => ∀ q stack s, q.valueAllowed → TokenRead stack q s t d →
      d'.state = q.valueEnd ∧ d'.stack = stack ∧
      ∃ w c j, s = w ++ (c ++ d'.rest) ∧ Ws w ∧ Derives (.value j) c ∧ v = .ofJson j
  | .array vs d, v, d' => ∀ q0 st, d.stack = q0 :: st →
      d.state = .arrayStart ∨ d.state = .arrayComma →
      d'.state = q0.valueEnd ∧ d'.stack = st ∧
      ∃ c js, d.rest = c ++ ']'.toUInt8 :: d'.rest ∧ v = .array false (vs ++ Value.ofElems js) ∧
        (d.state = .arrayStart → (Ws c ∧ js = []) ∨ Derives (.elems js) c) ∧
        (d.state = .arrayComma → ∃ w t, c = w ++ t ∧ Ws w ∧ Derives (.elemsTail js) t)
  | .object fs d, v, d' => ∀ q0 st, d.stack = q0 :: st →
      d.state = .objectStart ∨ d.state = .objectComma →
      d'.state = q0.valueEnd ∧ d'.stack = st ∧
      ∃ c gs, d.rest = c ++ '}'.toUInt8 :: d'.rest ∧
        v = .object false (fs ++ Value.ofMembers gs) ∧
        (d.state = .objectStart → (Ws c ∧ gs = []) ∨ Derives (.members gs) c) ∧
        (d.state = .objectComma → ∃ w t, c = w ++ t ∧ Ws w ∧ Derives (.membersTail gs) t)

variable {d' : Decoder} {v : Value}

theorem reads_token (ih : ∀ c, c.size < (token t d).size → ∀ v d',
      decodeCall .legacy c = some (v, d') → Reads c v d')
    (h : decodeCall .legacy (.token t d) = some (v, d')) : Reads (.token t d) v d' := by
  intro q stack s hq hread
  obtain ⟨w, s', hw, rfl, h', hhead⟩ := hread.strip
  rw [decodeToken_eq] at h
  cases h' with
  | ws hc _ => exact absurd hc (by simp [hhead _ _ rfl])
  | colon _ => cases hq
  | arrayComma _ => cases hq
  | objectComma _ => cases hq
  | openArray _ =>
    rw [decodeTokenF, if_neg (by decide), if_pos rfl] at h
    obtain ⟨h1, h2, c, js, hrest, rfl, hstart, -⟩ :=
      ih (.array [] _) (by simp [size]) v d' h q stack rfl (.inl rfl)
    simp only at hrest
    refine ⟨h1, h2, w, '['.toUInt8 :: (c ++ [']'.toUInt8]), .arr js, ?_, hw, ?_, rfl⟩
    · simp [hrest]
    · rcases hstart rfl with ⟨hc, rfl⟩ | hc
      · exact .arrNil hc
      · exact .arr hc
  | openObject _ =>
    rw [decodeTokenF, if_pos rfl] at h
    obtain ⟨h1, h2, c, gs, hrest, rfl, hstart, -⟩ :=
      ih (.object [] _) (by simp [size]) v d' h q stack rfl (.inl rfl)
    simp only at hrest
    refine ⟨h1, h2, w, '{'.toUInt8 :: (c ++ ['}'.toUInt8]), .obj gs, ?_, hw, ?_, rfl⟩
    · simp [hrest]
    · rcases hstart rfl with ⟨hc, rfl⟩ | hc
      · exact .objNil hc
      · exact .obj hc
  | closeArray _ _ =>
    rw [decodeTokenF, if_neg (by decide), if_neg (by decide)] at h
    cases h
  | closeObject _ _ =>
    rw [decodeTokenF, if_neg (by decide), if_neg (by decide)] at h
    cases h
  | key hk _ => rcases hk with rfl | rfl <;> cases hq
  | scalar _ ht =>
    obtain ⟨j, c, rfl, hc, hdec⟩ := derives_of_scanScalar ht
    rw [hdec] at h
    cases h
    exact ⟨rfl, rfl, w, c, j, rfl, hw, hc, rfl⟩

theorem reads_array {vs} (ih : ∀ c, c.size < (array vs d).size → ∀ v d',
      decodeCall .legacy c = some (v, d') → Reads c v d')
    (h : decodeCall .legacy (.array vs d) = some (v, d')) : Reads (.array vs d) v d' := by
  intro q0 st hstack hstate
  rw [decodeArray_eq, decodeArrayF] at h
  split at h
  · next t d1 hd1 =>
    have hread := tokenRead_of_nextToken hd1
    have hlen1 := hread.length_lt
    split at h
    · next ht =>
      cases h
      obtain ⟨-, w, r, q1, st1, hw, hrest, hs, rfl⟩ := hread.closeArray_inv ht
      rw [hstack, List.cons.injEq] at hs
      obtain ⟨rfl, rfl⟩ := hs
      refine ⟨rfl, rfl, w, [], hrest, by simp [Value.ofElems], fun _ => .inl ⟨hw, rfl⟩, fun _ => ?_⟩
      exact ⟨w, [], by simp, hw, .elemsEnd⟩
    next ht =>
    simp only [bind_eq_some_iff, Prod.exists] at h
    obtain ⟨v1, d2, hv1, hmore⟩ := h
    have hlen2 := decodeCall_shrinks .legacy _ v1 d2 hv1
    simp only [decoder] at hlen2
    have htok := ih (.token t d1) (by simp only [size]; omega) v1 d2 hv1
    have harr := ih (.array (vs ++ [v1]) d2) (by simp only [size]; omega) v d' hmore
    -- the element is read from the start of the array, or after a comma
    have helem : ∃ p r q, (d.state = .arrayStart ∧ p = [] ∨
        d.state = .arrayComma ∧ ∃ w, Ws w ∧ p = w ++ [','.toUInt8]) ∧ d.rest = p ++ r ∧
        (q = .arrayStart ∨ q = .arrayValue) ∧ TokenRead d.stack q r t d1 := by
      rcases hstate with hq | hq
      · exact ⟨[], d.rest, .arrayStart, .inl ⟨hq, rfl⟩, rfl, .inl rfl, hq ▸ hread⟩
      · obtain ⟨w, r, hw, hr, hread'⟩ := TokenRead.arrayComma_inv (hq ▸ hread) ht
        exact ⟨_, r, .arrayValue, .inr ⟨hq, w, hw, rfl⟩, by simp [hr], .inr rfl, hread'⟩
    obtain ⟨p, r, q, hp, hrest, hq, hread'⟩ := helem
    have hqv : q.valueAllowed = true ∧ q.valueEnd = .arrayComma := by
      rcases hq with rfl | rfl <;> exact ⟨rfl, rfl⟩
    obtain ⟨hst2, hsk2, w, c, j, hr, hw, hc, rfl⟩ := htok q d.stack r hqv.1 hread'
    obtain ⟨h1, h2, c', js, hrest2, rfl, -, hcomma⟩ :=
      harr q0 st (hsk2.trans hstack) (.inr (hst2.trans hqv.2))
    obtain ⟨w', t', rfl, hw', ht'⟩ := hcomma (hst2.trans hqv.2)
    have helems : Derives (.elems (j :: js)) (w ++ (c ++ (w' ++ t'))) := .elem hw hc hw' ht'
    refine ⟨h1, h2, p ++ (w ++ (c ++ (w' ++ t'))), j :: js, ?_, by simp [Value.ofElems],
      fun hs => ?_, fun hs => ?_⟩
    · simp [hrest, hr, hrest2]
    · rcases hp with ⟨-, rfl⟩ | ⟨hq', -⟩
      · exact .inr helems
      · rw [hs] at hq'
        cases hq'
    rcases hp with ⟨hq', -⟩ | ⟨-, w0, hw0, rfl⟩
    · rw [hs] at hq'
      cases hq'
    · exact ⟨w0, _, by simp, hw0, .elemsMore helems⟩
  · cases h

theorem reads_object {fs} (ih : ∀ c, c.size < (object fs d).size → ∀ v d',
      decodeCall .legacy c = some (v, d') → Reads c v d')
    (h : decodeCall .legacy (.object fs d) = some (v, d')) : Reads (.object fs d) v d' := by
  intro q0 st hstack hstate
  rw [decodeObject_eq, decodeObjectF] at h
  split at h
  · next e d1 hd1 =>
    have hread := tokenRead_of_nextToken hd1
    split at h
    · next he =>
      subst he
      cases h
      obtain ⟨-, w, r, q1, st1, hw, hrest, hs, rfl⟩ := hread.closeObject_inv rfl
      rw [hstack, List.cons.injEq] at hs
      obtain ⟨rfl, rfl⟩ := hs
      refine ⟨rfl, rfl, w, [], hrest, by simp [Value.ofMembers], fun _ => .inl ⟨hw, rfl⟩,
        fun _ => ?_⟩
      exact ⟨w, [], by simp, hw, .membersEnd⟩
    · cases h
  · next key d1 hd1 =>
    have hread := tokenRead_of_nextToken hd1
    have hlen1 := hread.length_lt
    split at h
    · next vtok d2 hd2 =>
      have hread2 := tokenRead_of_nextToken hd2
      have hlen2 := hread2.length_lt
      simp only [bind_eq_some_iff, Prod.exists] at h
      obtain ⟨v1, d3, hv1, hmore⟩ := h
      have hlen3 := decodeCall_shrinks .legacy _ v1 d3 hv1
      simp only [decoder] at hlen3
      have htok := ih (.token vtok d2) (by simp only [size]; omega) v1 d3 hv1
      have hobj := ih (.object (fs ++ [(key, v1)]) d3) (by simp only [size]; omega)
        v d' hmore
      -- the key is read from the start of the object, or after a comma
      have hkey : ∃ p r q, (d.state = .objectStart ∧ p = [] ∨
          d.state = .objectComma ∧ ∃ w, Ws w ∧ p = w ++ [','.toUInt8]) ∧ d.rest = p ++ r ∧
          (q = .objectStart ∨ q = .objectKey) ∧ TokenRead d.stack q r (.str key) d1 := by
        rcases hstate with hq | hq
        · exact ⟨[], d.rest, .objectStart, .inl ⟨hq, rfl⟩, rfl, .inl rfl, hq ▸ hread⟩
        · obtain ⟨w, r, hw, hr, hread'⟩ := TokenRead.objectComma_inv (hq ▸ hread)
          exact ⟨_, r, .objectKey, .inr ⟨hq, w, hw, rfl⟩, by simp [hr], .inr rfl, hread'⟩
      obtain ⟨p, r, q, hp, hrest, hq, hread'⟩ := hkey
      obtain ⟨w, raw, r1, hw, hr, hraw, rfl⟩ := TokenRead.key_inv hq hread'
      obtain ⟨w1, r2, hw1, hr1, hread3⟩ := TokenRead.colon_inv hread2
      obtain ⟨hst3, hsk3, w2, c, j, hr2, hw2, hc, rfl⟩ := htok .objectValue d.stack r2 rfl hread3
      obtain ⟨h1, h2, c', gs, hrest3, rfl, -, hcomma⟩ :=
        hobj q0 st (hsk3.trans hstack) (.inr hst3)
      obtain ⟨w', t', rfl, hw', ht'⟩ := hcomma hst3
      simp only at hr1
      have hmem : Derives (.members ((key, j) :: gs))
          (w ++ '"'.toUInt8 :: (raw ++ '"'.toUInt8 ::
            (w1 ++ ':'.toUInt8 :: (w2 ++ (c ++ (w' ++ t')))))) :=
        .member hw hraw hw1 hw2 hc hw' ht'
      refine ⟨h1, h2, p ++ (w ++ '"'.toUInt8 :: (raw ++ '"'.toUInt8 ::
            (w1 ++ ':'.toUInt8 :: (w2 ++ (c ++ (w' ++ t')))))), (key, j) :: gs, ?_,
        by simp [Value.ofMembers], fun hs => ?_, fun hs => ?_⟩
      · simp [hrest, hr, hr1, hr2, hrest3]
      · rcases hp with ⟨-, rfl⟩ | ⟨hq', -⟩
        · exact .inr hmem
        · rw [hs] at hq'
          cases hq'
      rcases hp with ⟨hq', -⟩ | ⟨-, w0, hw0, rfl⟩
      · rw [hs] at hq'
        cases hq'
      · exact ⟨w0, _, by simp, hw0, .membersMore hmem⟩
    · cases h
  · cases h

/-- **What the decoder reads, the grammar derives.** -/
theorem derives_of_decode (c) (h : decodeCall .legacy c = some (v, d)) : Reads c v d := by
  induction hn : c.size using Nat.strong_induction_on generalizing c v d with
  | _ n ih =>
    have ih' : ∀ c', c'.size < c.size → ∀ v d, decodeCall .legacy c' = some (v, d) → Reads c' v d :=
      fun c' hc' v d hd => ih _ (hn ▸ hc') c' hd rfl
    cases c with
    | token t d0 => exact reads_token ih' h
    | array vs d0 => exact reads_array ih' h
    | object fs d0 => exact reads_object ih' h

/-! ### Whole texts -/

theorem nextToken_eq_eof_iff (hq : q.valueAllowed)
    (stack s) : nextToken q stack s = .eof ↔ Ws s := by
  constructor
  · intro h
    induction s with
    | nil => simp [Ws]
    | cons c r ih =>
      cases hc : isWS c with
      | true =>
        rw [nextToken, if_pos hc] at h
        exact (ih h).cons hc
      | false =>
        exfalso
        rw [nextToken, hc] at h
        have hcolon : q ≠ .objectColon := by rintro rfl; cases hq
        have hacomma : q ≠ .arrayComma := by rintro rfl; cases hq
        have hocomma : q ≠ .objectComma := by rintro rfl; cases hq
        have hclose : ∀ e, closeDelim e stack r ≠ .eof := by
          intro e
          cases stack <;> simp [closeDelim]
        revert h
        simp only [Bool.false_eq_true, if_false, hq, if_true, hcolon, hacomma, hocomma]
        intro h
        split at h
        · cases h
        split at h
        · split at h
          · exact hclose _ h
          · cases h
        split at h
        · cases h
        split at h
        · split at h
          · exact hclose _ h
          · cases h
        split at h
        · cases h
        split at h
        · cases h
        split at h
        · split at h <;> cases h
        · split at h <;> cases h
  · intro h
    have := nextToken_ws_append h q stack []
    rw [append_nil] at this
    rw [this]
    rfl

/-- **The strict decoder accepts exactly the JSON texts**, with the value of their tree. -/
theorem strictDecode_eq_some_iff :
    strictDecode s = some v ↔ ∃ j, v = .ofJson j ∧ DerivesText j s := by
  constructor
  · intro h
    simp only [strictDecode, strictDecodeMode] at h
    split at h
    · next t d htok =>
      split at h
      · next v' d' hdec =>
        split at h
        · next heof =>
          cases h
          obtain ⟨hst, hsk, w, c, j, hs, hw, hc, rfl⟩ :=
            derives_of_decode _ hdec .topValue [] s rfl (tokenRead_of_nextToken htok)
          rw [Decoder.token, hst, hsk] at heof
          exact ⟨j, rfl, w, c, d'.rest, hw, hc, (nextToken_eq_eof_iff rfl _ _).mp heof, hs⟩
        · cases h
      · cases h
    · cases h
  · rintro ⟨j, rfl, w, c, w', hw, hc, hw', rfl⟩
    obtain ⟨t, d, htok, -, hdec⟩ :=
      decode_of_derives hc .topValue [] w' rfl
        (by simpa using Follow.ws_append hw' follow_nil)
    have hfirst : (newDecoder (w ++ (c ++ w'))).token = .token t d := by
      rw [Decoder.token, newDecoder, nextToken_ws_append hw]
      exact htok
    have heof : (⟨w', .topValue, []⟩ : Decoder).token = .eof :=
      (nextToken_eq_eof_iff rfl _ _).mpr hw'
    simp only [strictDecode, strictDecodeMode, hfirst, hdec]
    exact if_pos heof

end BamlRest
