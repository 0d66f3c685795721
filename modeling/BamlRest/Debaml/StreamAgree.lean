import BamlRest.Debaml.Fix

/-!
# The streaming parser extends the final parser

`fixParse` and `streamFix` are two recursive-descent parsers with their own readers of keys, strings
and scalars.

* `stream_agrees`: by induction on the calls.
* `streamFix_eq_of_fixParse`: for whole texts.
-/

namespace BamlRest

open Option Value

/-- How the streaming parser may answer where the final parser returns `v` and leaves `r`. -/
def Agrees (v : Value) (r : Bytes) (y : Option (Value × Bytes)) : Prop :=
  y = none ∨ (y = some (v, r) ∧ v.allComplete) ∨ ∃ v' r', y = some (v', '\\'.toUInt8 :: r')

theorem Agrees.none (v r) : Agrees v r none := .inl rfl

variable {v : Value}

theorem Agrees.same (h : v.allComplete) (r) : Agrees v r (some (v, r)) := .inr (.inl ⟨rfl, h⟩)

theorem skipWS_backslash (r) : skipWS ('\\'.toUInt8 :: r) = '\\'.toUInt8 :: r :=
  skipWS_cons_of_not_ws (by decide) r

/-! ### The readers -/

variable {nm : NumMode} {r s : Bytes}

theorem parseUnquotedScalarStream_of_final {term}
    (h : parseUnquotedScalar nm term s = some (v, r)) :
    parseUnquotedScalarStream nm term s = some (v, r) ∧ v.allComplete := by
  simp only [parseUnquotedScalar, bind_eq_some_iff, Prod.exists] at h
  obtain ⟨raw, rest, hrun, h⟩ := h
  simp only [parseUnquotedScalarStream, hrun, bind_some]
  cases hs : skipWS rest with
  | nil => simp [hs] at h
  | cons c r' =>
    simp only [hs] at h ⊢
    split_ifs at h with hterm hcomma
    obtain ⟨v', hv', he⟩ := map_eq_some_iff.mp h
    cases he
    have hnot : ¬(term = .objectValue ∧ c = ',' ∧
        r'.head?.any (fun n => !closesValue n) = true) := by
      rintro ⟨ht, hc, hn⟩
      refine hcomma ⟨ht, hc, ?_⟩
      cases r' with
      | nil => simp at hn
      | cons n r' => simpa using hn
    rw [if_neg hterm, if_neg hnot, hv']
    exact ⟨rfl, (leaf_of_classifyScalarMode hv').allComplete⟩

variable {t : Bytes}

theorem readDoubleQuoted_stream (h : readDoubleQuoted true s = .closed t r) :
    readDoubleQuoted false s = .closed t r ∨
      ∃ r', readDoubleQuoted false s = .err ('\\'.toUInt8 :: r') := by
  fun_induction readDoubleQuoted true s generalizing t with
  | case1 => cases h
  | case2 => cases h
  | case3 => simp at *
  | case4 e r' he b hb ih =>
    obtain ⟨t', rfl, hx⟩ := StrRead.push_eq_closed_iff.mp h
    by_cases hq : e = '"'
    · subst hq
      exact .inr ⟨_, readDoubleQuoted_escaped_quote r'⟩
    rw [readDoubleQuoted_escape false hb (.inr hq)]
    rcases ih hx with h' | ⟨r'', h'⟩
    · exact .inl (by rw [h']; rfl)
    · exact .inr ⟨r'', by rw [h']; rfl⟩
  | case5 e r' he hb ih =>
    obtain ⟨t', rfl, hx⟩ := StrRead.push_eq_closed_iff.mp h
    rw [readDoubleQuoted_literal false hb]
    rcases ih hx with h' | ⟨r'', h'⟩
    · exact .inl (by rw [h']; rfl)
    · exact .inr ⟨r'', by rw [h']; rfl⟩
  | case6 r' _ => exact .inl (h ▸ readDoubleQuoted_quote false r')
  | case7 c r' hc hq ih =>
    obtain ⟨t', rfl, hx⟩ := StrRead.push_eq_closed_iff.mp h
    rw [readDoubleQuoted_plain false hc hq]
    rcases ih hx with h' | ⟨r'', h'⟩
    · exact .inl (by rw [h']; rfl)
    · exact .inr ⟨r'', by rw [h']; rfl⟩

theorem parseDoubleQuotedStream_of_final (h : parseDoubleQuoted s = some (t, r)) :
    parseDoubleQuotedStream s = .closed t r ∨
      ∃ r', parseDoubleQuotedStream s = .err ('\\'.toUInt8 :: r') := by
  simp only [parseDoubleQuoted] at h
  split_ifs at h with htriple
  simp only [parseDoubleQuotedStream, htriple, Bool.false_eq_true, if_false]
  exact readDoubleQuoted_stream (StrRead.rest_of_closed? h)

theorem parseSingleQuotedStream_of_final (h : parseSingleQuoted s = some (t, r)) :
    parseSingleQuotedStream s = .closed t r :=
  StrRead.rest_of_closed? h

theorem parseKeyStream_of_final {key} (h : parseKey s = some (key, r)) :
    parseKeyStream s = (some key, r) ∨ ∃ r', parseKeyStream s = (none, '\\'.toUInt8 :: r') := by
  simp only [parseKey] at h
  simp only [parseKeyStream]
  cases hs : skipWS s with
  | nil => simp [hs] at h
  | cons c r1 =>
    simp only [hs] at h ⊢
    split_ifs at h ⊢ with h1 h2 h3
    · rcases parseDoubleQuotedStream_of_final h with h' | ⟨r', h'⟩
      · exact .inl (by rw [h']; rfl)
      · exact .inr ⟨r', by rw [h']; rfl⟩
    · exact .inl (by rw [parseSingleQuotedStream_of_final h]; rfl)
    refine .inl ?_
    split at h
    · next key' rest hk => cases h; exact hk
    · cases h

/-! ### Lockstep -/

/-- The streaming parser starts a value at its first byte, the final parser in front of the
white space before it. -/
def FixCall.stream : FixCall → FixCall
  | .value term s => .value term (skipWS s)
  | c => c

open FixCall

def FixCall.accComplete : FixCall → Bool
  | .value _ _ => true
  | .object fs _ => Value.allCompleteFields fs
  | .array vs _ => Value.allCompleteList vs

theorem agrees_value {term}
    (ih : ∀ c, c.size < (value term s).size → ∀ v r, fixCall nm c = some (v, r) →
      c.accComplete → Agrees v r (streamCall nm c.stream))
    (h : fixCall nm (.value term s) = some (v, r)) :
    Agrees v r (streamCall nm (.value term (skipWS s))) := by
  rw [fixCall_eq, fixF, parseValueF] at h
  cases hs : skipWS s with
  | nil => simp [hs] at h
  | cons c r1 =>
    have hlen := length_lt_of_skipWS hs
    rw [streamCall_eq, streamF, parseValueStreamF]
    simp only [hs] at h
    split_ifs at h ⊢ with h1 h2 h3 h4 h5
    · exact ih (.object [] r1) (by simp only [size]; omega) v r h rfl
    · exact ih (.array [] r1) (by simp only [size]; omega) v r h rfl
    · obtain ⟨⟨t, r'⟩, ht, he⟩ := map_eq_some_iff.mp h
      cases he
      rcases parseDoubleQuotedStream_of_final ht with h' | ⟨r'', h'⟩
      · rw [h']
        exact Agrees.same rfl r'
      · rw [h']
        exact Agrees.none _ _
    · obtain ⟨⟨t, r'⟩, ht, he⟩ := map_eq_some_iff.mp h
      cases he
      rw [parseSingleQuotedStream_of_final ht]
      exact Agrees.same rfl r'
    obtain ⟨h', hv⟩ := parseUnquotedScalarStream_of_final h
    rw [h']
    exact Agrees.same hv r

theorem agrees_object {fs}
    (ih : ∀ c, c.size < (object fs s).size → ∀ v r, fixCall nm c = some (v, r) →
      c.accComplete → Agrees v r (streamCall nm c.stream))
    (hfs : allCompleteFields fs) (h : fixCall nm (.object fs s) = some (v, r)) :
    Agrees v r (streamCall nm (.object fs s)) := by
  rw [fixCall_eq, fixF, parseObjectF] at h
  rw [streamCall_eq, streamF, parseObjectStreamF]
  cases hs : skipWS s with
  | nil => simp [hs] at h
  | cons c r1 =>
    have hlen := length_lt_of_skipWS hs
    simp only [hs] at h ⊢
    split at h
    · next hc =>
      cases h
      rw [if_pos hc]
      exact Agrees.same (by simpa [allComplete] using hfs) _
    next hc =>
    rw [if_neg hc]
    split at h
    · next hcomma =>
      rw [if_pos hcomma]
      exact ih (.object fs r1) (by simp only [size]; omega) v r h hfs
    next hcomma =>
    rw [if_neg hcomma]
    simp only [bind_eq_some_iff, Prod.exists] at h
    obtain ⟨key, s1, hkey, h⟩ := h
    have hlen1 := parseKey_length_le hkey
    simp only [List.length_cons] at hlen1
    rcases parseKeyStream_of_final hkey with hk | ⟨r', hk⟩
    · rw [hk]
      cases hs1 : skipWS s1 with
      | nil => simp [hs1] at h
      | cons c1 s2 =>
        have hlen2 := length_lt_of_skipWS hs1
        simp only [hs1] at h ⊢
        split at h
        · cases h
        next hcolon =>
        rw [if_neg hcolon]
        simp only [bind_eq_some_iff, Prod.exists] at h
        obtain ⟨v1, s3, hv1, h⟩ := h
        have hlen3 := fixCall_shrinks nm _ v1 s3 hv1
        simp only [text] at hlen3
        have hval := ih (.value .objectValue s2) (by simp only [size]; omega) v1 s3 hv1 rfl
        simp only [stream] at hval
        cases hs2 : skipWS s2 with
        | nil =>
          rw [fixCall_eq, fixF, parseValueF, hs2] at hv1
          cases hv1
        | cons c2 r2 =>
          rw [hs2] at hval
          simp only
          rcases hval with hval | ⟨hval, hcomp⟩ | ⟨v', r', hval⟩
          · rw [hval]
            exact Agrees.none v r
          · rw [hval, bind_some]
            cases hs3 : skipWS s3 with
            | nil => simp [hs3] at h
            | cons c3 s4 =>
              have hlen4 := length_lt_of_skipWS hs3
              have hacc : allCompleteFields (fs ++ [(key, v1)]) := by
                simp [hfs, allCompleteFields, hcomp]
              simp only [hs3] at h ⊢
              split_ifs at h ⊢
              · cases h
                exact Agrees.same (by simpa [allComplete] using hacc) _
              · exact ih (.object _ s4) (by simp only [size]; omega) v r h hacc
          -- the value stands at a backslash, after which the loop declines
          · rw [hval, bind_some, skipWS_backslash]
            exact Agrees.none v r
    · rw [hk]
      exact .inr (.inr ⟨_, r', rfl⟩)

theorem agrees_array {vs}
    (ih : ∀ c, c.size < (array vs s).size → ∀ v r, fixCall nm c = some (v, r) →
      c.accComplete → Agrees v r (streamCall nm c.stream))
    (hvs : allCompleteList vs) (h : fixCall nm (.array vs s) = some (v, r)) :
    Agrees v r (streamCall nm (.array vs s)) := by
  rw [fixCall_eq, fixF, parseArrayF] at h
  rw [streamCall_eq, streamF, parseArrayStreamF]
  cases hs : skipWS s with
  | nil => simp [hs] at h
  | cons c r1 =>
    have hlen := length_lt_of_skipWS hs
    simp only [hs] at h ⊢
    split at h
    · next hc =>
      cases h
      rw [if_pos hc]
      exact Agrees.same (by simpa [allComplete] using hvs) _
    next hc =>
    rw [if_neg hc]
    split at h
    · next hcomma =>
      rw [if_pos hcomma]
      exact ih (.array vs r1) (by simp only [size]; omega) v r h hvs
    next hcomma =>
    rw [if_neg hcomma]
    simp only [bind_eq_some_iff, Prod.exists] at h
    obtain ⟨v1, s1, hv1, h⟩ := h
    have hlen1 := fixCall_shrinks nm _ v1 s1 hv1
    simp only [text, List.length_cons] at hlen1
    have hskip : skipWS (c :: r1) = c :: r1 := hs ▸ skipWS_skipWS s
    have hval := ih (.value .arrayValue (c :: r1))
      (by simp only [size, List.length_cons]; omega) v1 s1 hv1 rfl
    simp only [stream, hskip] at hval
    -- the final parser reads no value at a lone `/`
    have hslash : ¬(c = '/' ∧ r1 = []) := by
      rintro ⟨rfl, rfl⟩
      rw [fixCall_eq] at hv1
      cases hv1
    rw [if_neg hslash]
    rcases hval with hval | ⟨hval, hcomp⟩ | ⟨v', r', hval⟩
    · rw [hval]
      exact Agrees.none v r
    · rw [hval, bind_some]
      cases hs1 : skipWS s1 with
      | nil => simp [hs1] at h
      | cons c1 s2 =>
        have hlen2 := length_lt_of_skipWS hs1
        have hacc : allCompleteList (vs ++ [v1]) := by
          simp [hvs, allCompleteList, hcomp]
        simp only [hs1] at h ⊢
        split_ifs at h ⊢
        · cases h
          exact Agrees.same (by simpa [allComplete] using hacc) _
        · exact ih (.array _ s2) (by simp only [size]; omega) v r h hacc
    · rw [hval, bind_some, skipWS_backslash]
      exact Agrees.none v r

/-- **Lockstep**: where the final parser succeeds, the streaming parser agrees. -/
theorem stream_agrees (nm c) (h : fixCall nm c = some (v, r)) (hacc : c.accComplete) :
    Agrees v r (streamCall nm c.stream) := by
  induction hn : c.size using Nat.strong_induction_on generalizing c v r with
  | _ n ih =>
    have ih' : ∀ c', c'.size < c.size → ∀ v r, fixCall nm c' = some (v, r) →
        c'.accComplete → Agrees v r (streamCall nm c'.stream) :=
      fun c' hc' v r h hacc => ih _ (hn ▸ hc') c' h hacc rfl
    cases c with
    | value term s => exact agrees_value ih' h
    | object fs s => exact agrees_object ih' hacc h
    | array vs s => exact agrees_array ih' hacc h

/-! ### Whole texts -/

/-- **The streaming parser extends the final parser**: where both succeed, they return the same
value, and no node of it is marked incomplete. -/
theorem streamFix_eq_of_fixParse (s : Bytes) (nm : NumMode) (v v' : Value)
    (h : fixParseMode s nm = some v) (h' : streamFixMode s nm = some v') :
    v' = v ∧ v'.allComplete = true := by
  simp only [fixParseMode] at h
  simp only [streamFixMode] at h'
  split_ifs at h h' with hstart
  cases hfix : fixCall nm (.value .top s) with
  | none => simp [hfix] at h
  | some p =>
    obtain ⟨v1, r⟩ := p
    simp only [hfix] at h
    split_ifs at h with hr
    cases h
    rcases stream_agrees nm (.value .top s) hfix rfl with hs | ⟨hs, hcomp⟩ | ⟨v2, r', hs⟩
    · simp only [FixCall.stream] at hs
      simp [hs] at h'
    · simp only [FixCall.stream] at hs
      simp only [hs, hr, if_true, Option.some.injEq] at h'
      exact ⟨h'.symm, h' ▸ hcomp⟩
    simp only [FixCall.stream] at hs
    simp only [hs, skipWS_backslash] at h'
    cases h'

/-- A text on which both parsers succeed. -/
theorem streamFix_eq_of_fixParse_mixed :
    let v := Value.array false [.number false false (bytes "1"), .string false (bytes "a")]
    fixParseMode (bytes "[1, 'a',]") .serde = some v ∧
      streamFixMode (bytes "[1, 'a',]") .serde = some v ∧ v.allComplete = true := by
  intro v
  have hfix : fixParseMode (bytes "[1, 'a',]") .serde = some v := by decide +kernel
  obtain ⟨v', hstream⟩ : ∃ v', streamFixMode (bytes "[1, 'a',]") .serde = some v' :=
    Option.isSome_iff_exists.mp (by decide +kernel)
  obtain ⟨rfl, hcomplete⟩ := streamFix_eq_of_fixParse _ _ v v' hfix hstream
  exact ⟨hfix, hstream, hcomplete⟩

end BamlRest
