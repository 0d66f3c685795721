import BamlRest.Debaml.Fix
import BamlRest.Debaml.Strict
import BamlRest.Text.Brackets

/-!
# The candidate in a model's answer

`internal/debaml/extract.go`: `extractCandidate` tries the whole input as JSON, then the body of a
markdown fence, then the first balanced span of brackets, and declines when more brackets follow
that span.

* `extractCandidate`, `extractBalancedSpan`: the stages.
* `extractCandidate_embedded`: JSON in prose is found.
-/

namespace BamlRest

open List QuoteState

/-! ### The scanners -/

/-- The loop of `containsUnquotedBracket`. -/
def containsUnquotedBracketFrom (q : QuoteState) : Bytes → Bool
  | [] => false
  | c :: s =>
    if q.inString then containsUnquotedBracketFrom (q.step c) s
    else if c = '"' then containsUnquotedBracketFrom ⟨true, q.escaped⟩ s
    else if c = '{' ∨ c = '[' then true
    else containsUnquotedBracketFrom q s

def containsUnquotedBracket (s : Bytes) : Bool := containsUnquotedBracketFrom .start s

def extend (p : Bytes) (x : Option (Bytes × Bytes)) : Option (Bytes × Bytes) :=
  x.map fun (t, r) => (p ++ t, r)

@[simp] theorem extend_nil (x) : extend [] x = x := by
  cases x <;> rfl

@[simp] theorem extend_extend (p q x) : extend p (extend q x) = extend (p ++ q) x := by
  cases x <;> simp [extend]

/-- The loop of `extractBalancedSpan` after its anchor: the span from here to the bracket that
closes it, and what follows. -/
def closeSpan (opening closing : UInt8) (q : QuoteState) (depth : ℕ) :
    Bytes → Option (Bytes × Bytes)
  | [] => none
  | c :: s =>
    if q.inString then extend [c] (closeSpan opening closing (q.step c) depth s)
    else if c = '"' then extend [c] (closeSpan opening closing ⟨true, q.escaped⟩ depth s)
    else if c = opening then extend [c] (closeSpan opening closing q (depth + 1) s)
    else if c = closing then
      if depth - 1 = 0 then some ([c], s)
      else extend [c] (closeSpan opening closing q (depth - 1) s)
    else extend [c] (closeSpan opening closing q depth s)

/-- The loop of `extractBalancedSpan` up to its anchor. -/
def anchorSpan (q : QuoteState) : Bytes → Option (Bytes × Bytes)
  | [] => none
  | c :: s =>
    if q.inString then anchorSpan (q.step c) s
    else if c = '"' then anchorSpan ⟨true, q.escaped⟩ s
    else if c = '{' then extend [c] (closeSpan '{' '}' q 1 s)
    else if c = '[' then extend [c] (closeSpan '[' ']' q 1 s)
    else anchorSpan q s

/-- `extractBalancedSpan`: the span, and the input after it in place of the index `end`. -/
def extractBalancedSpan (raw : Bytes) : Option (Bytes × Bytes) := anchorSpan .start raw

/-- The loop of `extractBalancedSpanStream` after its anchor: the span, what follows it, and whether
it is closed. -/
def closeSpanStream (opening closing : UInt8) (q : QuoteState) (depth : ℕ) :
    Bytes → Bytes × Bytes × Bool
  | [] => ([], [], false)
  | c :: s =>
    if q.inString then (closeSpanStream opening closing (q.step c) depth s).map (c :: ·) id
    else if c = '"' then
      (closeSpanStream opening closing ⟨true, q.escaped⟩ depth s).map (c :: ·) id
    else if c = opening then
      (closeSpanStream opening closing q (depth + 1) s).map (c :: ·) id
    else if c = closing then
      if depth - 1 = 0 then ([c], s, true)
      else (closeSpanStream opening closing q (depth - 1) s).map (c :: ·) id
    else (closeSpanStream opening closing q depth s).map (c :: ·) id

/-- The loop of `extractBalancedSpanStream` up to its anchor. -/
def anchorSpanStream (q : QuoteState) : Bytes → Option (Bytes × Bytes × Bool)
  | [] => none
  | c :: s =>
    if q.inString then anchorSpanStream (q.step c) s
    else if c = '"' then anchorSpanStream ⟨true, q.escaped⟩ s
    else if c = '{' then some ((closeSpanStream '{' '}' q 1 s).map (c :: ·) id)
    else if c = '[' then some ((closeSpanStream '[' ']' q 1 s).map (c :: ·) id)
    else anchorSpanStream q s

/-- `extractBalancedSpanStream`: the span, the input after it, and whether it is closed. -/
def extractBalancedSpanStream (raw : Bytes) : Option (Bytes × Bytes × Bool) :=
  anchorSpanStream .start raw

def isFenceLine (line : Bytes) : Bool :=
  (bytes "```").isPrefixOf (line.dropWhile fun c => c = ' ' || c = '\t')

def splitLines (raw : Bytes) : List Bytes := raw.splitOn '\n'

def extractFenceContent (raw : Bytes) : Option Bytes :=
  match (splitLines raw).dropWhile (!isFenceLine ·) with
  | [] => none
  | _ :: rest =>
    if rest.any isFenceLine then
      some (List.intercalate ['\n'] (rest.takeWhile (!isFenceLine ·)))
    else none

def decodeSpan (span : Bytes) (nm : NumMode) : Option Value :=
  match strictDecodeMode span nm with
  | some v => some v
  | none => fixParseMode span nm

def extractCandidateMode (raw : Bytes) (nm : NumMode) : Option Value :=
  let trimmed := trimSpace raw
  match (if trimmed = [] then none else strictDecodeMode trimmed nm) with
  | some v => some v
  | none =>
    match extractFenceContent raw with
    | some fence => decodeSpan (trimSpace fence) nm
    | none =>
      match extractBalancedSpan raw with
      | some (span, rest) => if containsUnquotedBracket rest then none else decodeSpan span nm
      | none => none

def extractCandidate (raw : Bytes) : Option Value := extractCandidateMode raw .legacy

/-! ### Scanning nested brackets -/

section

variable {o c : UInt8} {d : ℕ} {q q' : QuoteState} {raw r : Bytes}

theorem closeSpan_run (h : q.run raw = some q') :
    closeSpan o c q d (raw ++ r) = extend raw (closeSpan o c q' d r) := by
  induction raw generalizing q with
  | nil => cases h; rw [extend_nil, nil_append]
  | cons b raw ih =>
    rw [run] at h
    split_ifs at h with hq
    rw [cons_append, closeSpan, if_pos hq, ih h, extend_extend]
    rfl

theorem anchorSpan_run (h : q.run raw = some q') : anchorSpan q (raw ++ r) = anchorSpan q' r := by
  induction raw generalizing q with
  | nil => cases h; rfl
  | cons b raw ih =>
    rw [run] at h
    split_ifs at h with hq
    rw [cons_append, anchorSpan, if_pos hq, ih h]

def IsPair (o c : UInt8) : Prop :=
  (o = '{' ∧ c = '}') ∨ (o = '[' ∧ c = ']')

theorem closeSpan_other {b : UInt8} (hquote : b ≠ '"') (ho : b ≠ o) (hc : b ≠ c) (s) :
    closeSpan o c .start d (b :: s) = extend [b] (closeSpan o c .start d s) := by
  simp only [closeSpan, start, Bool.false_eq_true, if_false, if_neg hquote, if_neg ho, if_neg hc]

theorem closeSpan_open (ho : o ≠ '"') (s) :
    closeSpan o c .start d (o :: s) = extend [o] (closeSpan o c .start (d + 1) s) := by
  simp only [closeSpan, start, Bool.false_eq_true, if_false, if_neg ho, if_true]

theorem closeSpan_close (hquote : c ≠ '"') (ho : c ≠ o) (s) :
    closeSpan o c .start (d + 2) (c :: s) = extend [c] (closeSpan o c .start (d + 1) s) := by
  simp only [closeSpan, start, Bool.false_eq_true, if_false, if_neg hquote, if_neg ho, if_true]
  rfl

/-- **The scan passes over nested brackets**: it comes back to the depth it had. -/
theorem closeSpan_nested {t : Bytes} (hp : IsPair o c) (ht : Nested t) :
    closeSpan o c .start (d + 1) (t ++ r) = extend t (closeSpan o c .start (d + 1) r) := by
  induction ht generalizing d r with
  | nil => rw [nil_append, extend_nil]
  | @byte b hb =>
    obtain ⟨hquote, h1, h2, h3, h4⟩ := isLooseByte_ne b hb
    rcases hp with ⟨rfl, rfl⟩ | ⟨rfl, rfl⟩
    · exact closeSpan_other hquote h1 h2 r
    · exact closeSpan_other hquote h3 h4 r
  | @str raw h =>
    have hopen : closeSpan o c .start (d + 1) ('"'.toUInt8 :: (raw ++ '"'.toUInt8 :: r)) =
        extend ['"'] (closeSpan o c .string (d + 1) (raw ++ '"'.toUInt8 :: r)) := rfl
    have hclose : closeSpan o c .string (d + 1) ('"'.toUInt8 :: r) =
        extend ['"'] (closeSpan o c .start (d + 1) r) := rfl
    rw [cons_append, append_assoc, singleton_append, hopen,
      closeSpan_run (run_content h), hclose, extend_extend, extend_extend]
    rfl
  | append _ _ iha ihb => rw [append_assoc, iha, ihb, extend_extend]
  | object _ ih =>
    rw [cons_append, append_assoc, singleton_append]
    rcases hp with ⟨rfl, rfl⟩ | ⟨rfl, rfl⟩
    · rw [closeSpan_open (by decide), ih, closeSpan_close (by decide) (by decide)]
      simp [extend_extend]
    rw [closeSpan_other (by decide) (by decide) (by decide), ih,
      closeSpan_other (by decide) (by decide) (by decide)]
    simp [extend_extend]
  | array _ ih =>
    rw [cons_append, append_assoc, singleton_append]
    rcases hp with ⟨rfl, rfl⟩ | ⟨rfl, rfl⟩
    · rw [closeSpan_other (by decide) (by decide) (by decide), ih,
        closeSpan_other (by decide) (by decide) (by decide)]
      simp [extend_extend]
    · rw [closeSpan_open (by decide), ih, closeSpan_close (by decide) (by decide)]
      simp [extend_extend]

theorem anchorSpan_prose {p s : Bytes} (hp : ∀ b ∈ p, b ≠ '"' ∧ b ≠ '{' ∧ b ≠ '[') :
    anchorSpan .start (p ++ s) = anchorSpan .start s := by
  induction p with
  | nil => rfl
  | cons b p ih =>
    simp only [mem_cons, forall_eq_or_imp] at hp
    obtain ⟨⟨h1, h2, h3⟩, hrest⟩ := hp
    rw [cons_append, anchorSpan, ← ih hrest]
    simp only [start, Bool.false_eq_true, if_false, if_neg h1, if_neg h2, if_neg h3]

end

variable {j : Json} {s t p : Bytes}

theorem extractBalancedSpan_embedded (hp : ∀ b ∈ p, b ≠ '"' ∧ b ≠ '{' ∧ b ≠ '[')
    (ht : Derives (.value j) t) (hopen : t.head? = some '{'.toUInt8 ∨ t.head? = some '['.toUInt8) :
    extractBalancedSpan (p ++ (t ++ s)) = some (t, s) := by
  obtain ⟨c, hc, rfl | rfl⟩ := derives_bracketed ht hopen
  · rw [extractBalancedSpan, anchorSpan_prose hp, cons_append, append_assoc, singleton_append]
    change extend _ (closeSpan '{' '}' .start 1 (c ++ '}'.toUInt8 :: s)) = _
    rw [closeSpan_nested (.inl ⟨rfl, rfl⟩) hc]
    simp [closeSpan, extend, start]
  rw [extractBalancedSpan, anchorSpan_prose hp, cons_append, append_assoc, singleton_append]
  change extend _ (closeSpan '[' ']' .start 1 (c ++ ']'.toUInt8 :: s)) = _
  rw [closeSpan_nested (.inr ⟨rfl, rfl⟩) hc]
  simp [closeSpan, extend, start]

/-! ### More input -/

variable {rest span : Bytes}

theorem extend_eq_some {x}
    (h : extend p x = some (span, rest)) : ∃ span', x = some (span', rest) ∧ span = p ++ span' := by
  cases x with
  | none => cases h
  | some y =>
    obtain ⟨span', rest'⟩ := y
    cases h
    exact ⟨span', rfl, rfl⟩

theorem closeSpan_append {o c q} {d : ℕ} (h : closeSpan o c q d s = some (span, rest)) (t) :
    s = span ++ rest ∧ closeSpan o c q d (s ++ t) = some (span, rest ++ t) ∧
      closeSpanStream o c q d (s ++ t) = (span, rest ++ t, true) := by
  induction s generalizing q d span with
  | nil => cases h
  | cons b s ih =>
    -- a byte inside the span
    have hstep : ∀ {q' : QuoteState} {d' : ℕ},
        extend [b] (closeSpan o c q' d' s) = some (span, rest) →
        b :: s = span ++ rest ∧
          extend [b] (closeSpan o c q' d' (s ++ t)) = some (span, rest ++ t) ∧
          (closeSpanStream o c q' d' (s ++ t)).map (b :: ·) id = (span, rest ++ t, true) := by
      intro q' d' hx
      obtain ⟨span', hclose, rfl⟩ := extend_eq_some hx
      obtain ⟨hsplit, hfinal, hstream⟩ := ih hclose
      exact ⟨by rw [hsplit]; rfl, by rw [hfinal]; rfl, by rw [hstream]; rfl⟩
    rw [closeSpan] at h
    rw [cons_append, closeSpan, closeSpanStream]
    split_ifs at h ⊢
    · exact hstep h
    · exact hstep h
    · exact hstep h
    · cases h
      exact ⟨rfl, rfl, rfl⟩
    · exact hstep h
    · exact hstep h

/-- **A closed span is stable under more input**, and the streaming scan finds it as the final one
does, marked as closed. -/
theorem extractBalancedSpan_append (s span rest : Bytes)
    (h : extractBalancedSpan s = some (span, rest)) (t : Bytes) :
    (∃ pre, s = pre ++ (span ++ rest)) ∧
      extractBalancedSpan (s ++ t) = some (span, rest ++ t) ∧
      extractBalancedSpanStream (s ++ t) = some (span, rest ++ t, true) ∧
      extractBalancedSpanStream s = some (span, rest, true) := by
  have hanchor : ∀ (q : QuoteState) (t : Bytes), anchorSpan q s = some (span, rest) →
      (∃ pre, s = pre ++ (span ++ rest)) ∧ anchorSpan q (s ++ t) = some (span, rest ++ t) ∧
        anchorSpanStream q (s ++ t) = some (span, rest ++ t, true) := by
    clear h
    intro q t h
    induction s generalizing q with
    | nil => cases h
    | cons b s ih =>
      have hskip : ∀ q', anchorSpan q' s = some (span, rest) →
          (∃ pre, b :: s = pre ++ (span ++ rest)) ∧
            anchorSpan q' (s ++ t) = some (span, rest ++ t) ∧
            anchorSpanStream q' (s ++ t) = some (span, rest ++ t, true) := by
        intro q' hq'
        obtain ⟨⟨pre, hpre⟩, hrest⟩ := ih q' hq'
        exact ⟨⟨b :: pre, by rw [hpre]; rfl⟩, hrest⟩
      have hspan : ∀ o c, extend [b] (closeSpan o c q 1 s) = some (span, rest) →
          (∃ pre, b :: s = pre ++ (span ++ rest)) ∧
            extend [b] (closeSpan o c q 1 (s ++ t)) = some (span, rest ++ t) ∧
            some ((closeSpanStream o c q 1 (s ++ t)).map (b :: ·) id) =
              some (span, rest ++ t, true) := by
        intro o c hx
        obtain ⟨span', hclose, rfl⟩ := extend_eq_some hx
        obtain ⟨hsplit, hfinal, hstream⟩ := closeSpan_append hclose t
        exact ⟨⟨[], by rw [hsplit]; rfl⟩, by rw [hfinal]; rfl, by rw [hstream]; rfl⟩
      rw [anchorSpan] at h
      rw [cons_append, anchorSpan, anchorSpanStream]
      split_ifs at h ⊢
      · exact hskip _ h
      · exact hskip _ h
      · exact hspan _ _ h
      · exact hspan _ _ h
      · exact hskip _ h
  obtain ⟨hpre, hfinal, hstream⟩ := hanchor .start t h
  obtain ⟨-, -, hstream'⟩ := hanchor .start [] h
  rw [append_nil, append_nil] at hstream'
  exact ⟨hpre, hfinal, hstream, hstream'⟩

/-- A span that closes, with more brackets after it. -/
theorem extractBalancedSpan_append_object :
    extractBalancedSpan (bytes "a \x7b\"k\":\"\x7d\"\x7d b" ++ bytes " [") =
        some (bytes "\x7b\"k\":\"\x7d\"\x7d", bytes " b" ++ bytes " [") ∧
      extractBalancedSpanStream (bytes "a \x7b\"k\":\"\x7d\"\x7d b" ++ bytes " [") =
        some (bytes "\x7b\"k\":\"\x7d\"\x7d", bytes " b" ++ bytes " [", true) := by
  obtain ⟨-, hfinal, hstream, -⟩ := extractBalancedSpan_append
    (bytes "a \x7b\"k\":\"\x7d\"\x7d b") (bytes "\x7b\"k\":\"\x7d\"\x7d") (bytes " b")
    (by decide +kernel) (bytes " [")
  exact ⟨hfinal, hstream⟩

/-! ### The whole input -/

/-- The bytes of a text outside double quotes, from a state of the scan. -/
def outsideQuotes (q : QuoteState) : Bytes → Bytes
  | [] => []
  | c :: s =>
    if q.inString then outsideQuotes (q.step c) s
    else if c = '"' then outsideQuotes .string s
    else c :: outsideQuotes q s

theorem containsUnquotedBracket_eq_false (h : ∀ b ∈ outsideQuotes .start s, b ≠ '{' ∧ b ≠ '[') :
    containsUnquotedBracket s = false := by
  suffices ∀ q : QuoteState, (q.inString = false → q.escaped = false) →
      (∀ b ∈ outsideQuotes q s, b ≠ '{' ∧ b ≠ '[') →
      containsUnquotedBracketFrom q s = false from this .start (fun _ => rfl) h
  clear h
  induction s with
  | nil => intro q _ _; rfl
  | cons c s ih =>
    intro q hq h
    rw [containsUnquotedBracketFrom]
    rw [outsideQuotes] at h
    split_ifs at h ⊢ with h1 h2 h3
    · refine ih (q.step c) ?_ h
      simp only [step]
      split_ifs <;> simp
    · rw [hq (by simpa using h1)]
      exact ih .string (by simp [string]) h
    · exact absurd h3 (not_or.mpr (h c (by simp)))
    · exact ih q hq fun b hb => h b (by simp [hb])

theorem extractFenceContent_eq_none {raw}
    (h : ∀ line ∈ splitLines raw, isFenceLine line = false) : extractFenceContent raw = none := by
  have hdrop : (splitLines raw).dropWhile (!isFenceLine ·) = [] := by
    rw [dropWhile_eq_nil_iff]
    intro line hline
    rw [h line hline]
    rfl
  rw [extractFenceContent, hdrop]

theorem ws_prose {w} (hw : Ws w) : ∀ b ∈ w, b ≠ '"' ∧ b ≠ '{' ∧ b ≠ '[' := by
  have hbyte : ∀ b, isWS b → b ≠ '"' ∧ b ≠ '{' ∧ b ≠ '[' := by grind [isWS]
  exact fun b hb => hbyte b (hw b hb)

theorem extractBalancedSpan_scalar {w c w' : Bytes} (hw : Ws w)
    (hc : Derives (.value j) c) (hw' : Ws w') (hopen : ¬(c.head? = some '{'.toUInt8 ∨ c.head? = some '['.toUInt8)) :
    extractBalancedSpan (w ++ (c ++ w')) = none := by
  have hend : anchorSpan .start w' = none := by
    have hprose := anchorSpan_prose (s := []) (ws_prose hw')
    rwa [append_nil] at hprose
  have hbare : (∀ b ∈ c, isScalarByte b) → anchorSpan .start (c ++ w') = none := by
    intro hbytes
    have hloose : ∀ b ∈ c, b ≠ '"' ∧ b ≠ '{' ∧ b ≠ '[' := by
      intro b hb
      obtain ⟨h1, h2, -, h3, -⟩ := isLooseByte_ne b (by simp [isLooseByte, hbytes b hb])
      exact ⟨h1, h2, h3⟩
    rw [anchorSpan_prose hloose, hend]
  rw [extractBalancedSpan, anchorSpan_prose (ws_prose hw)]
  cases hc with
  | null => exact hbare null_bytes
  | bool b => exact hbare (bool_bytes b)
  | num h => exact hbare (isNumber_bytes h)
  | @str raw t h =>
    rw [cons_append, append_assoc, singleton_append]
    change anchorSpan .string (raw ++ '"'.toUInt8 :: w') = none
    rw [anchorSpan_run (run_content h.run)]
    exact hend
  | arrNil | arr => exact absurd (.inr rfl) hopen
  | objNil | obj => exact absurd (.inl rfl) hopen

variable {v : Value}

theorem strictDecode_span (hs : strictDecode s = some v)
    (hspan : extractBalancedSpan s = some (span, rest)) : strictDecode span = some v := by
  obtain ⟨j, rfl, w, c, w', hw, hc, hw', rfl⟩ := strictDecode_eq_some_iff.mp hs
  by_cases hopen : c.head? = some '{'.toUInt8 ∨ c.head? = some '['.toUInt8
  · rw [extractBalancedSpan_embedded (ws_prose hw) hc hopen] at hspan
    cases hspan
    exact strictDecode_eq_some_iff.mpr
      ⟨j, rfl, [], span, [], by simp [Ws], hc, by simp [Ws], by simp⟩
  · rw [extractBalancedSpan_scalar hw hc hw' hopen] at hspan
    cases hspan

theorem derives_of_strictDecode (ht : strictDecode t = some v)
    (hopen : t.head? = some '{'.toUInt8 ∨ t.head? = some '['.toUInt8)
    (hclose : t.getLast? = some '}'.toUInt8 ∨ t.getLast? = some ']'.toUInt8) :
    ∃ j, v = .ofJson j ∧ Derives (.value j) t := by
  obtain ⟨j, rfl, w, c, w', hw, hc, hw', rfl⟩ := strictDecode_eq_some_iff.mp ht
  have hwnil : w = [] := by
    cases w with
    | nil => rfl
    | cons b w =>
      have hb := hw b (by simp)
      simp only [cons_append, head?_cons, Option.some.injEq] at hopen
      rcases hopen with rfl | rfl <;> cases hb
  have hwnil' : w' = [] := by
    rcases eq_nil_or_concat w' with hnil | ⟨w1, b, hconcat⟩
    · exact hnil
    have hb := hw' b (by simp [hconcat])
    rw [hconcat, concat_eq_append, ← append_assoc, ← append_assoc,
      getLast?_append] at hclose
    simp only [getLast?_singleton, Option.some_or, Option.some.injEq] at hclose
    rcases hclose with rfl | rfl <;> cases hb
  subst hwnil hwnil'
  exact ⟨j, rfl, by simpa using hc⟩

/-- **JSON in prose is recovered exactly**: the span is the text, and the candidate its value. -/
theorem extractCandidate_embedded (p t s : Bytes) (v : Value)
    (hp : ∀ b ∈ p, b ≠ '"'.toUInt8 ∧ b ≠ '{'.toUInt8 ∧ b ≠ '['.toUInt8)
    (ht : strictDecode t = some v)
    (hopen : t.head? = some '{'.toUInt8 ∨ t.head? = some '['.toUInt8)
    (hclose : t.getLast? = some '}'.toUInt8 ∨ t.getLast? = some ']'.toUInt8)
    (hs : ∀ b ∈ outsideQuotes .start s, b ≠ '{'.toUInt8 ∧ b ≠ '['.toUInt8)
    (hfence : ∀ line ∈ splitLines (p ++ (t ++ s)), isFenceLine line = false) :
    extractCandidate (p ++ (t ++ s)) = some v ∧
      extractBalancedSpan (p ++ (t ++ s)) = some (t, s) := by
  obtain ⟨j, -, hderives⟩ := derives_of_strictDecode ht hopen hclose
  have hspan := extractBalancedSpan_embedded (s := s) hp hderives hopen
  refine ⟨?_, hspan⟩
  -- what trimming leaves has the same span, so a strict reading of it is a reading of the span
  have hwhole : ∀ v', strictDecode (trimSpace (p ++ (t ++ s))) = some v' → v' = v := by
    intro v' hv'
    obtain ⟨b, t1, rfl, hb⟩ : ∃ b t1, t = b :: t1 ∧ isGraphic b = true := by
      cases t with
      | nil => simp at hopen
      | cons b t1 =>
        simp only [head?_cons, Option.some.injEq] at hopen
        exact ⟨b, t1, rfl, by rcases hopen with rfl | rfl <;> rfl⟩
    obtain ⟨t2, b', hlast, hb'⟩ : ∃ t2 b', b :: t1 = t2 ++ [b'] ∧ isGraphic b' = true := by
      rcases hclose with hlast | hlast
      · obtain ⟨t2, ht2⟩ := getLast?_eq_some_iff.mp hlast
        exact ⟨t2, _, ht2, rfl⟩
      · obtain ⟨t2, ht2⟩ := getLast?_eq_some_iff.mp hlast
        exact ⟨t2, _, ht2, rfl⟩
    obtain ⟨p', s', hsuf, htrim⟩ := trimSpace_append hb hb' hlast p s
    have hspan' := extractBalancedSpan_embedded (s := s')
      (fun b hb => hp b (hsuf.subset hb)) hderives hopen
    rw [htrim] at hv'
    have hv := strictDecode_span hv' hspan'
    rw [ht] at hv
    exact (Option.some.inj hv).symm
  have hstrict : strictDecodeMode t .legacy = some v := ht
  simp only [extractCandidate, extractCandidateMode, extractFenceContent_eq_none hfence, hspan,
    containsUnquotedBracket_eq_false hs, decodeSpan, hstrict, Bool.false_eq_true, if_false]
  split
  · next v' hv' =>
    split_ifs at hv'
    rw [hwhole v' hv']
  · rfl

/-- An object between prose with a quoted bracket. -/
theorem extractCandidate_embedded_prose :
    extractCandidate (bytes "Answer: " ++ (bytes "\x7b\"a\":[1]\x7d" ++ bytes " (not \"[\")")) =
        some (.object false [(bytes "a", .array false [.number false false (bytes "1")])]) ∧
      extractBalancedSpan (bytes "Answer: " ++ (bytes "\x7b\"a\":[1]\x7d" ++
        bytes " (not \"[\")")) = some (bytes "\x7b\"a\":[1]\x7d", bytes " (not \"[\")") :=
  extractCandidate_embedded _ _ _ _ (by decide +kernel) (by decide +kernel) (by decide +kernel)
    (by decide +kernel) (by decide +kernel) (by decide +kernel)

end BamlRest
