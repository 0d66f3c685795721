import BamlRest.Debaml.CompleteFinal

/-!
# Closing a truncated JSON text

A JSON object or array cut anywhere is closed to a balanced text.

* `completeUnclosedFinal_sound`: what a cut text is closed to.
-/

namespace BamlRest

open List

/-! ### Truncated values -/

namespace Value

mutual

/-- The first value is the second truncated along its rightmost path. -/
def truncates : Value → Value → Bool
  | string i s, string i' s' => i == i' && s.isPrefixOf s'
  | array i vs, array i' vs' => i == i' && truncatesList vs vs'
  | object i fs, object i' fs' => i == i' && truncatesFields fs fs'
  | v, v' => decide (v = v')

/-- The elements are a prefix of the others, the last one truncated. -/
def truncatesList : List Value → List Value → Bool
  | [], _ => true
  | _ :: _, [] => false
  | v :: vs, v' :: vs' =>
    if vs.isEmpty then truncates v v' else decide (v = v') && truncatesList vs vs'

def truncatesFields : List Field → List Field → Bool
  | [], _ => true
  | _ :: _, [] => false
  | (k, v) :: fs, (k', v') :: fs' =>
    decide (k = k') &&
      (if fs.isEmpty then truncates v v' else decide (v = v') && truncatesFields fs fs')

end

theorem truncatesList_cons {v vs vs'} (hv : v.truncates v)
    (h : truncatesList vs vs') : truncatesList (v :: vs) (v :: vs') = true := by
  cases vs with
  | nil => simpa [truncatesList] using hv
  | cons w vs => simpa [truncatesList] using h

theorem truncatesFields_cons {k v fs fs'} (hv : v.truncates v) (h : truncatesFields fs fs') :
    truncatesFields ((k, v) :: fs) ((k, v) :: fs') = true := by
  cases fs with
  | nil => simpa [truncatesFields] using hv
  | cons w fs => simpa [truncatesFields] using h

theorem truncates_refl (v : Value) : v.truncates v := by
  induction v using induction with
  | null | bool | number => simp [truncates]
  | string i s => simp [truncates]
  | array i vs ih =>
    have hvs : truncatesList vs vs := by
      induction vs with
      | nil => rfl
      | cons v vs ihvs =>
        simp only [mem_cons, forall_eq_or_imp] at ih
        exact truncatesList_cons ih.1 (ihvs ih.2)
    simp [truncates, hvs]
  | object i fs ih =>
    have hfs : truncatesFields fs fs := by
      induction fs with
      | nil => rfl
      | cons f fs ihfs =>
        simp only [mem_cons, forall_eq_or_imp] at ih
        exact truncatesFields_cons ih.1 (ihfs ih.2)
    simp [truncates, hfs]

end Value

open Value

/-! ### Clean cuts -/

/-- The state of the string scanner after a part of a JSON text, none outside strings. -/
def strAt : Option StrState → Bytes → Option StrState
  | st, [] => st
  | none, b :: s => if b = '"' then strAt (some .body) s else strAt none s
  | some q, b :: s =>
    if q = .body ∧ b = '"' then strAt none s else strAt (some ((q.step b).getD .body)) s

def lastSig (p : Bytes) : Option UInt8 := (p.reverse.dropWhile isWS).head?

variable {a : Bytes}

theorem lastSig_ws {w b} (hb : isWS b = false) (hw : Ws w) : lastSig (a ++ b :: w) = some b := by
  rw [lastSig, reverse_append, reverse_cons, append_assoc,
    dropWhile_append_of_pos fun c hc => hw c (mem_reverse.mp hc)]
  simp [hb]

def cutsComma (p : Bytes) : Bool := strAt none p = none && lastSig p = some ','.toUInt8

def cutsScalar (p q : Bytes) : Bool :=
  strAt none p = none && p.getLast?.any isScalarByte && q.head?.any isScalarByte

def cutsEscape (p : Bytes) : Bool := (strAt none p).any fun q => q ≠ .body

def cutsRune (q : Bytes) : Bool := q.head?.any isCont

/-- The text `p ++ q` is cut at a place from which it can be closed without loss. -/
def cleanCut (p q : Bytes) : Bool :=
  !cutsComma p && !cutsScalar p q && !cutsEscape p && !cutsRune q && !cutsPair p q

variable {q p : Bytes}

theorem cleanCut_iff :
    cleanCut p q ↔ cutsComma p = false ∧ cutsScalar p q = false ∧ cutsEscape p = false ∧
      cutsRune q = false ∧ cutsPair p q = false := by
  simp [cleanCut, and_assoc]

theorem strAt_append (st a b) : strAt st (a ++ b) = strAt (strAt st a) b := by
  induction a generalizing st with
  | nil => rfl
  | cons c a ih =>
    cases st with
    | none =>
      simp only [cons_append, strAt]
      split_ifs <;> exact ih _
    | some q =>
      simp only [cons_append, strAt]
      split_ifs <;> exact ih _

theorem strAt_none_append {out} (h : strAt none out = none) (p) :
    strAt none (out ++ p) = strAt none p := by
  rw [strAt_append, h]

theorem strAt_run {q q' raw} (h : q.run raw = some q') : strAt (some q) raw = some q' := by
  induction raw generalizing q with
  | nil => exact h
  | cons b raw ih =>
    simp only [StrState.run, Option.bind_eq_some_iff] at h
    obtain ⟨q1, hq1, hrun⟩ := h
    have hnot : ¬(q = .body ∧ b = '"') := by
      rintro ⟨rfl, rfl⟩
      cases hq1
    rw [strAt, if_neg hnot, hq1]
    exact ih hrun

theorem strAt_nested {t} (h : Nested t) : strAt none t = none := by
  induction h with
  | nil => rfl
  | byte hb => rw [strAt, if_neg (isLooseByte_ne _ hb).1]; rfl
  | @str raw h =>
    change strAt (some .body) (raw ++ ['"'.toUInt8]) = none
    rw [strAt_append, strAt_run h]
    rfl
  | append _ _ iha ihb => rw [strAt_append, iha, ihb]
  | object _ ih =>
    change strAt none (_ ++ ['}'.toUInt8]) = none
    rw [strAt_append, ih]
    rfl
  | array _ ih =>
    change strAt none (_ ++ [']'.toUInt8]) = none
    rw [strAt_append, ih]
    rfl

theorem strAt_append_nested {out t} (h : strAt none out = none) (ht : Nested t) :
    strAt none (out ++ t) = none := by
  rw [strAt_none_append h, strAt_nested ht]

/-! ### Lists cut in two -/

theorem cut_append {b} (h : a ++ b = p ++ q) :
    (∃ a', a = p ++ a' ∧ q = a' ++ b) ∨ ∃ p', p' ≠ [] ∧ p = a ++ p' ∧ b = p' ++ q := by
  rcases append_eq_append_iff.mp h with ⟨p', hp, hb⟩ | ⟨a', ha, hq⟩
  · by_cases hnil : p' = []
    · subst hnil
      exact .inl ⟨[], by simpa using hp.symm, by simpa using hb.symm⟩
    · exact .inr ⟨p', hnil, hp, hb⟩
  · exact .inl ⟨a', ha, hq⟩

theorem cut_last {b} (h : a ++ [b] = p ++ q) (hq : q ≠ []) : ∃ a', a = p ++ a' ∧ q = a' ++ [b] := by
  rcases cut_append h with h | ⟨p', hp', -, hb⟩
  · exact h
  have hlen := congrArg length hb
  have h1 := length_pos_iff.mpr hp'
  have h2 := length_pos_iff.mpr hq
  simp only [length_append, length_singleton] at hlen
  omega

/-! ### The repair -/

theorem finish_between (out f fr) : finish (between out (f :: fr)) =
      (if !f.arr && (f.expectValue || f.pendingKey) then out.take f.safeLen else out) ++
        closers (f :: fr) := rfl

theorem finish_string (out f fr)
    (esc isKey : Bool) : finish (inside out (f :: fr) esc isKey) = (if isKey then out.take f.safeLen
        else out ++ (if esc then ['\\'.toUInt8] else []) ++ ['"'.toUInt8]) ++
        closers (f :: fr) := rfl

theorem closers_cons (f fr) : closers (f :: fr) = closer f.arr :: closers fr := rfl

def completed (out : Bytes) (fr : List CompleteFrame) (p : Bytes) : Bytes :=
  finish (completeLoop (between out fr) p)

section

variable {out p q r c : Bytes} {f : CompleteFrame} {fr : List CompleteFrame}

theorem completed_ws {w} (hw : Ws w) :
    completed out (f :: fr) w = (if !f.arr && (f.expectValue || f.pendingKey)
      then (out ++ w).take f.safeLen else out ++ w) ++ closers (f :: fr) := by
  have hscan : completeLoop (between out (f :: fr)) (w ++ []) = _ := completeLoop_ws hw
  rw [append_nil] at hscan
  rw [completed, hscan, completeLoop_nil, finish_between]

theorem completed_scalar (hkey : inKeyPos (f :: fr) = false) (hne : p ≠ [])
    (hp : ∀ b ∈ p, isScalarByte b) : completed out (f :: fr) p =
      (if p.any isDigit then out ++ (p.reverse.dropWhile isNumPunct).reverse
        else if p.all isNumPunct then (out ++ p).take f.safeLen else out ++ p) ++
        closers (f :: fr) := by
  have hscan : completeLoop (between out (f :: fr)) (p ++ []) = _ :=
    completeLoop_scalar hkey hne hp follow_nil
  rw [append_nil, if_pos rfl] at hscan
  rw [completed, hscan]
  simp only [finish, repair, drop_left, take_left]
  rfl

theorem completed_value (out) {j w} (hc : Derives (.value j) c) (hw : Ws w)
    (hkey : inKeyPos (f :: fr) = false) :
    ∃ w', Ws w' ∧ completed out (f :: fr) (c ++ w) = out ++ (c ++ w') ++ closers (f :: fr) := by
  -- a bare token right at the end is not committed; it is kept as it stands
  have hbare : (∀ b ∈ c, isScalarByte b) → c ≠ [] →
      (c.any isDigit = true → (c.reverse.dropWhile isNumPunct).reverse = c) →
      (c.any isDigit = false → c.all isNumPunct = false) → w = [] →
      ∃ w', Ws w' ∧ completed out (f :: fr) (c ++ w) = out ++ (c ++ w') ++ closers (f :: fr) := by
    intro hbytes hne hdigit hpunct hnil
    refine ⟨[], by simp [Ws], ?_⟩
    rw [hnil, append_nil, completed_scalar hkey hne hbytes]
    cases hd : c.any isDigit with
    | true => simp [hdigit hd]
    | false => simp [hpunct hd]
  -- otherwise the value has been committed
  have hcommitted : (w = [] → c.head?.any isScalarByte = false) →
      ∃ w', Ws w' ∧ completed out (f :: fr) (c ++ w) = out ++ (c ++ w') ++ closers (f :: fr) := by
    intro hend
    have hfollow : Follow w := by simpa using Follow.ws_append hw follow_nil
    obtain ⟨e, hscan⟩ := scans_of_derives hc out f fr w hkey hend hfollow
    have hclosed : completed (out ++ c)
        ({ f with expectValue := e, safeLen := (out ++ c).length } :: fr) w = _ := completed_ws hw
    rw [completed] at hclosed ⊢
    rw [hscan, hclosed]
    split_ifs with h
    · exact ⟨[], by simp [Ws], by rw [take_left]; simp [closers]⟩
    · exact ⟨w, hw, by simp [closers]⟩
  by_cases hnil : w = []
  · cases hc with
    | null => exact hbare null_bytes (by decide) (by decide) (by decide) hnil
    | bool b =>
      cases b
      · exact hbare (bool_bytes false) (by decide) (by decide) (by decide) hnil
      · exact hbare (bool_bytes true) (by decide) (by decide) (by decide) hnil
    | num h =>
      obtain ⟨t, b, rfl, hb⟩ := isNumber_getLast h
      have hpunct : ∀ b : UInt8, isDigit b → isNumPunct b = false :=
        forall_byte (by decide +kernel)
      refine hbare (isNumber_bytes h) (by simp) (fun _ => ?_) (fun hd => ?_) hnil
      · simp [hpunct b hb]
      · simp [hb] at hd
    | str | arrNil | arr | objNil | obj => exact hcommitted fun _ => rfl
  · exact hcommitted fun h => absurd h hnil

end

/-! ### Cut pieces -/

/-- The text ends with what is kept of the cut piece and the brackets that were open. -/
def Kept (out : Bytes) (fr : List CompleteFrame) (ok : Prop) (piece : Bytes → Prop)
    (text : Bytes) : Prop :=
  ∃ n, text = out ++ n ++ closers fr ∧ Neutral n ∧ (ok → piece n)

/-- The cut piece is dropped, back to the last point at which its container could be closed. -/
def Dropped (out : Bytes) (f : CompleteFrame) (fr : List CompleteFrame) (text : Bytes) : Prop :=
  text = out.take f.safeLen ++ closers (f :: fr)

def TruncValue (j : Json) (n : Bytes) : Prop :=
  ∃ j', Derives (.value j') n ∧ (Value.ofJson j').truncates (.ofJson j) = true

def TruncElems (js : List Json) (n : Bytes) : Prop :=
  ∃ js', Derives (.elems js') n ∧
    Value.truncatesList (Value.ofElems js') (Value.ofElems js)

def TruncElemsTail (js : List Json) (n : Bytes) : Prop :=
  ∃ js', Derives (.elemsTail js') n ∧
    Value.truncatesList (Value.ofElems js') (Value.ofElems js)

def TruncMembers (fs : List (Bytes × Json)) (n : Bytes) : Prop :=
  ∃ fs', Derives (.members fs') n ∧
    Value.truncatesFields (Value.ofMembers fs') (Value.ofMembers fs)

def TruncMembersTail (fs : List (Bytes × Json)) (n : Bytes) : Prop :=
  ∃ fs', Derives (.membersTail fs') n ∧
    Value.truncatesFields (Value.ofMembers fs') (Value.ofMembers fs)

def opens (c : Bytes) : Bool := c.head?.any fun (b : UInt8) => b = '{' || b = '['

/-- A cut inside a container whose content is `c`: what is kept is white space or a `piece`. -/
def CutsInner (arr : Bool) (piece : Bytes → Prop) (c : Bytes) : Prop :=
  ∀ p q out f fr r, c ++ [closer arr] = p ++ q → q ≠ [] → f.arr = arr → f.expectValue = false →
    f.pendingKey = false → f.safeLen ≤ out.length → strAt none out = none →
    Kept out (f :: fr) (cleanCut (out ++ p) (q ++ r) = true) (fun n => (Ws p ∧ n = p) ∨ piece n)
        (completed out (f :: fr) p) ∨
      Dropped out f fr (completed out (f :: fr) p)

/-- A cut after an item of a container, `c` being the rest of the content. -/
def CutsTail (arr : Bool) (piece : Bytes → Prop) (c : Bytes) : Prop :=
  ∀ p q out f fr r, c ++ [closer arr] = p ++ q → p ≠ [] → q ≠ [] → f.arr = arr →
    f.safeLen ≤ out.length → strAt none out = none →
    Kept out (f :: fr) (cleanCut (out ++ p) (q ++ r) = true) piece (completed out (f :: fr) p) ∨
      Dropped out f fr (completed out (f :: fr) p)

/-- What completing does with a cut piece `p` of each syntactic category, the rest of which is `q`
with `r` after it. -/
def Cuts : Symbol → Bytes → Prop
  | .value j, c => ∀ p q out fr r, c = p ++ q → p ≠ [] → q ≠ [] → inKeyPos fr = false →
      (∀ f ∈ fr.head?, f.safeLen ≤ out.length) → strAt none out = none →
      (fr = [] → opens c) →
      Kept out fr (cleanCut (out ++ p) (q ++ r) = true) (TruncValue j) (completed out fr p) ∨
        ∃ f fr', fr = f :: fr' ∧ opens c = false ∧ Dropped out f fr' (completed out fr p)
  | .elems js, c => CutsInner true (TruncElems js) c
  | .elemsTail js, c => CutsTail true (TruncElemsTail js) c
  | .members fs, c => CutsInner false (TruncMembers fs) c
  | .membersTail fs, c => CutsTail false (TruncMembersTail fs) c

section

variable {out p q r c : Bytes} {f : CompleteFrame} {fr : List CompleteFrame}

theorem not_clean_scalar (hout : strAt none out = none) (hp : ∀ b ∈ p, isScalarByte b)
    (hq : ∀ b ∈ q, isScalarByte b) (hpne : p ≠ []) (hqne : q ≠ []) :
    ¬cleanCut (out ++ p) (q ++ r) := by
  intro hclean
  have hcuts := (cleanCut_iff.mp hclean).2.1
  have hstr : strAt none (out ++ p) = none := strAt_append_nested hout (nested_of_scalar hp)
  have hlast : (out ++ p).getLast?.any isScalarByte = true := by
    rw [getLast?_append, getLast?_eq_some_getLast hpne]
    exact hp _ (getLast_mem hpne)
  have hhead : (q ++ r).head?.any isScalarByte = true := by
    cases q with
    | nil => exact absurd rfl hqne
    | cons b q => exact hq b (by simp)
  rw [cutsScalar, hstr, hlast, hhead] at hcuts
  cases hcuts

theorem opens_scalar (hc : ∀ b ∈ c, isScalarByte b) : opens c = false := by
  cases c with
  | nil => rfl
  | cons b c =>
    obtain ⟨-, h1, -, h2, -⟩ := isLooseByte_ne b (by simp [isLooseByte, hc b (by simp)])
    simp only [opens, head?_cons, Option.any_some, decide_eq_false h1, decide_eq_false h2,
      Bool.or_self]

variable {j : Json}

theorem cuts_scalar (hc : ∀ b ∈ c, isScalarByte b) : Cuts (.value j) c := by
  intro p q out fr r hsplit hpne hqne hkey hsafe hout hroot
  have hp : ∀ b ∈ p, isScalarByte b := fun b hb => hc b (by simp [hsplit, hb])
  have hq : ∀ b ∈ q, isScalarByte b := fun b hb => hc b (by simp [hsplit, hb])
  have hnot := not_clean_scalar (r := r) hout hp hq hpne hqne
  have hopen := opens_scalar hc
  cases fr with
  | nil => rw [hroot rfl] at hopen; cases hopen
  | cons f fr =>
    rw [completed_scalar hkey hpne hp]
    split_ifs
    · refine .inl ⟨_, rfl, neutral_of_nested (nested_of_scalar fun b hb => hp b ?_),
        fun h => absurd h hnot⟩
      have hsuffix := dropWhile_suffix isNumPunct (l := p.reverse)
      exact mem_reverse.mp (hsuffix.subset (mem_reverse.mp hb))
    · refine .inr ⟨f, fr, rfl, hopen, ?_⟩
      rw [Dropped, take_append_of_le_length (hsafe f rfl)]
    · exact .inl ⟨p, rfl, neutral_of_nested (nested_of_scalar hp), fun h => absurd h hnot⟩

variable {t raw : Bytes}

theorem clean_string {raw'} (hstr : IsStr (raw ++ raw') t) (hout : strAt none out = none)
    (hclean : cleanCut (out ++ '"'.toUInt8 :: raw) (raw' ++ ['"'.toUInt8] ++ r) = true) :
    StrState.body.run raw = some .body ∧ ∃ t', IsStr raw t' ∧ t' <+: t := by
  obtain ⟨-, -, hesc, hrune, hpair⟩ := cleanCut_iff.mp hclean
  obtain ⟨q1, hrun, hrun'⟩ := StrState.run_append hstr.run
  have hbody : q1 = .body := by
    rw [cutsEscape, strAt_none_append hout] at hesc
    change (strAt (some .body) raw).any _ = false at hesc
    rw [strAt_run hrun] at hesc
    simpa using hesc
  subst hbody
  have hrune' : ∀ c, raw'.head? = some c → isCont c = false := by
    intro c hc
    cases raw' with
    | nil => cases hc
    | cons b raw' =>
      cases hc
      simpa [cutsRune] using hrune
  have hpair' : cutsPair raw raw' = false := by
    have hlocal : cutsPair raw (raw' ++ ('"'.toUInt8 :: r)) = false :=
      cutsPair_of_append (a := out ++ ['"'.toUInt8]) (by simpa using hpair)
    by_cases hnil : raw' = []
    · rw [cutsPair, hnil, show getu4 [] = none from rfl, Option.any_none, Bool.and_false]
    · rwa [cutsPair, getu4_append hrun' hnil] at hlocal
  obtain ⟨t', ht', hpre⟩ := unquote_append hrun hrune' hpair' hstr.content
  exact ⟨hrun, t', ⟨hrun, ht'⟩, hpre⟩

theorem cuts_string (hstr : IsStr raw t) :
    Cuts (.value (.str t)) ('"'.toUInt8 :: (raw ++ ['"'.toUInt8])) := by
  intro p q out fr r hsplit hpne hqne hkey hsafe hout hroot
  cases fr with
  | nil => cases hroot rfl
  | cons f fr =>
    cases p with
    | nil => exact absurd rfl hpne
    | cons b p =>
      simp only [cons_append, cons.injEq] at hsplit
      obtain ⟨rfl, hsplit⟩ := hsplit
      obtain ⟨raw', rfl, rfl⟩ := cut_last hsplit hqne
      obtain ⟨esc, hesc⟩ := QuoteState.run_prefix hstr.run
      have hscan : completed out (f :: fr) ('"'.toUInt8 :: p) =
          out ++ '"'.toUInt8 :: (p ++ (if esc then ['\\'.toUInt8] else []) ++ ['"'.toUInt8]) ++
            closers (f :: fr) := by
        have hisKey : (!f.arr && !f.expectValue) = false := hkey
        have hcontent : completeLoop (inside (out ++ ['"'.toUInt8])
            ((if f.arr then f else { f with expectValue := false }) :: fr) false false) (p ++ []) = _ :=
          completeLoop_content hesc
        rw [append_nil, completeLoop_nil] at hcontent
        rw [completed, completeLoop_quote, hisKey, hcontent, finish_string]
        cases harr : f.arr <;> simp [closers, harr]
      refine .inl ⟨_, hscan, neutral_string ?_, fun hclean => ?_⟩
      · rw [QuoteState.run_append, hesc]
        cases esc <;> rfl
      obtain ⟨hrun, t', ht', hpre⟩ := clean_string hstr hout hclean
      rw [QuoteState.run_content hrun] at hesc
      cases hesc
      refine ⟨.str t', ?_, ?_⟩
      · simpa using Derives.str ht'
      · simpa [ofJson, truncates] using hpre

/-! ### Cut containers -/

theorem strAt_opener (hout : strAt none out = none) (arr : Bool) :
    strAt none (out ++ [opener arr]) = none := by
  rw [strAt_none_append hout]
  cases arr <;> rfl

theorem neutral_container {n} (hn : Neutral n) (arr : Bool) :
    Neutral (opener arr :: (n ++ [closer arr])) := by
  cases arr
  · exact neutral_object hn
  · exact neutral_array hn

variable {piece : Bytes → Prop}

theorem cuts_container (arr : Bool) (hinner : CutsInner arr piece c)
    (hws : ∀ w, Ws w → TruncValue j (opener arr :: (w ++ [closer arr])))
    (hpiece : ∀ n, piece n → TruncValue j (opener arr :: (n ++ [closer arr]))) :
    Cuts (.value j) (opener arr :: (c ++ [closer arr])) := by
  intro p q out fr r hsplit hpne hqne hkey hsafe hout hroot
  left
  cases p with
  | nil => exact absurd rfl hpne
  | cons b p =>
    obtain ⟨rfl, hrest⟩ := cons.inj hsplit
    have hscan : completed out fr (opener arr :: p) =
        completed (out ++ [opener arr]) (⟨arr, out.length + 1, false, false⟩ :: fr) p := by
      rw [completed, opener, completeLoop_open]
      rfl
    rw [hscan]
    rcases hinner p q (out ++ [opener arr]) ⟨arr, out.length + 1, false, false⟩ fr r hrest hqne rfl
      rfl rfl (by simp) (strAt_opener hout arr) with ⟨n, htext, hn, hok⟩ | hdropped
    · refine ⟨opener arr :: (n ++ [closer arr]), ?_, neutral_container hn arr, fun hclean => ?_⟩
      · rw [htext, closers_cons]
        simp
      rcases hok (by simpa using hclean) with ⟨hw, rfl⟩ | hn
      · exact hws n hw
      · exact hpiece n hn
    refine ⟨opener arr :: ([] ++ [closer arr]), ?_, neutral_container .nil arr,
      fun _ => hws [] (by simp [Ws])⟩
    rw [hdropped, closers_cons, take_of_length_le (by simp)]
    simp

/-! ### Cut items -/

/-- What is kept of a value with more items after it: a truncated value, the value, or the value
with a part of what follows it. -/
def TruncItem (j : Json) (c w : Bytes) (piece : Bytes → Prop) (n : Bytes) : Prop :=
  TruncValue j n ∨ (∃ w', Ws w' ∧ n = c ++ w') ∨ ∃ n', piece n' ∧ n = c ++ (w ++ n')

variable {arr : Bool} {w : Bytes}

theorem cuts_item
    (hc : Derives (.value j) c) (hcut : Cuts (.value j) c) (hw : Ws w) (ht : CutsTail arr piece t)
    (hfollow : Follow (t ++ [closer arr])) (hsplit : c ++ (w ++ (t ++ [closer arr])) = p ++ q)
    (hpne : p ≠ []) (hqne : q ≠ []) (harr : f.arr = arr) (hkey : inKeyPos (f :: fr) = false)
    (hsafe : f.safeLen ≤ out.length) (hout : strAt none out = none) :
    Kept out (f :: fr) (cleanCut (out ++ p) (q ++ r) = true) (TruncItem j c w piece)
        (completed out (f :: fr) p) ∨ Dropped out f fr (completed out (f :: fr) p) := by
  have hneutral : ∀ u, Ws u → Neutral (c ++ u) := fun u hu =>
    neutral_of_nested (.append (nested_of_derives hc) (nested_of_ws hu))
  -- the text ends with the value, or in the white space after it
  have hvalue : ∀ u, Ws u → p = c ++ u →
      Kept out (f :: fr) (cleanCut (out ++ p) (q ++ r) = true) (TruncItem j c w piece)
        (completed out (f :: fr) p) := by
    rintro u hu rfl
    obtain ⟨u', hu', htext⟩ := completed_value out hc hu hkey
    exact ⟨c ++ u', htext, hneutral u' hu', fun _ => .inr (.inl ⟨u', hu', rfl⟩)⟩
  rcases cut_append hsplit with ⟨c', hcsplit, hq⟩ | ⟨p', hp', hp, hrest⟩
  · by_cases hnil : c' = []
    · exact .inl (hvalue [] (by simp [Ws]) (by simp [hcsplit, hnil]))
    rcases hcut p c' out (f :: fr) (w ++ (t ++ [closer arr]) ++ r) hcsplit hpne hnil hkey
      (by simpa using hsafe) hout (by simp) with ⟨n, htext, hn, hok⟩ | ⟨f', fr', hfr, -, hdrop⟩
    · exact .inl ⟨n, htext, hn, fun hclean => .inl (hok (by simpa [hq] using hclean))⟩
    · cases hfr
      exact .inr hdrop
  rcases cut_append hrest with ⟨w', hwsplit, -⟩ | ⟨p'', hp'', hpw, htail⟩
  · exact .inl (hvalue p' (fun b hb => hw b (by simp [hwsplit, hb])) hp)
  left
  subst hp hpw
  have hfollow' : Follow p'' := fun b hb => hfollow b (by
    rw [htail, head?_append, hb, Option.some_or])
  obtain ⟨e, hscan⟩ := scans_of_derives hc out f fr (w ++ p'') hkey
    (fun h => absurd (append_eq_nil_iff.mp h).2 hp'') (Follow.ws_append hw hfollow')
  have hscan' : completed out (f :: fr) (c ++ (w ++ p'')) = completed (out ++ (c ++ w))
      ({ f with expectValue := e, safeLen := (out ++ c).length } :: fr) p'' := by
    rw [completed, hscan, completeLoop_ws hw, append_assoc, completed]
  rw [hscan']
  rcases ht p'' q (out ++ (c ++ w)) { f with expectValue := e, safeLen := (out ++ c).length } fr
    r htail hp'' hqne harr (by simp) (strAt_append_nested hout
      (.append (nested_of_derives hc) (nested_of_ws hw))) with ⟨n, htext, hn, hok⟩ | hdrop
  · refine ⟨c ++ (w ++ n), htext.trans (by simp [closers]), ?_, fun hclean => ?_⟩
    · simpa using (hneutral w hw).append hn
    · exact .inr (.inr ⟨n, hok (by simpa using hclean), rfl⟩)
  refine ⟨c ++ [], ?_, hneutral [] (by simp [Ws]), fun _ => .inr (.inl ⟨[], by simp [Ws], rfl⟩)⟩
  rw [hdrop, ← append_assoc, take_left]
  simp [closers]

theorem cuts_comma {piece' : Bytes → Prop} (h : CutsInner arr piece c)
    (hpiece : ∀ n, piece n → piece' (','.toUInt8 :: n)) :
    CutsTail arr piece' (','.toUInt8 :: c) := by
  intro p q out f fr r hsplit hpne hqne harr hsafe hout
  cases p with
  | nil => exact absurd rfl hpne
  | cons b p =>
    obtain ⟨rfl, hrest⟩ := cons.inj hsplit
    have hscan : completed out (f :: fr) (','.toUInt8 :: p) = completed (out ++ [','.toUInt8])
        ({ f with expectValue := false, pendingKey := false } :: fr) p := by
      rw [completed, completeLoop_comma, completed]
    have hcomma : Nested [','.toUInt8] := .byte (by decide)
    rw [hscan]
    rcases h p q (out ++ [','.toUInt8]) { f with expectValue := false, pendingKey := false } fr r
      hrest hqne harr rfl rfl (by simp; omega) (strAt_append_nested hout hcomma)
      with ⟨n, htext, hn, hok⟩ | hdrop
    · refine .inl ⟨','.toUInt8 :: n, htext.trans (by simp [closers]),
        (neutral_of_nested hcomma).append hn, fun hclean => ?_⟩
      rcases hok (by simpa using hclean) with ⟨hw, rfl⟩ | hn
      · have hcuts : cutsComma (out ++ ','.toUInt8 :: n) = true := by
          rw [cutsComma, lastSig_ws (by decide) hw, ← singleton_append, ← append_assoc,
            strAt_append_nested (strAt_append_nested hout hcomma) (nested_of_ws hw)]
          decide
        rw [(cleanCut_iff.mp hclean).1] at hcuts
        cases hcuts
      · exact hpiece n hn
    right
    rw [hdrop, Dropped, take_append_of_le_length hsafe]
    simp [closers]

theorem cutsInner_of_item (hw : Ws w)
    (h : ∀ p q out f fr r, c ++ [closer arr] = p ++ q → p ≠ [] → q ≠ [] → f.arr = arr →
      f.expectValue = false → f.pendingKey = false → f.safeLen ≤ out.length →
      strAt none out = none →
      Kept out (f :: fr) (cleanCut (out ++ p) (q ++ r) = true) (fun n => piece (w ++ n))
          (completed out (f :: fr) p) ∨ Dropped out f fr (completed out (f :: fr) p)) :
    CutsInner arr piece (w ++ c) := by
  intro p q out f fr r hsplit hqne harr hexp hpend hsafe hout
  rw [append_assoc] at hsplit
  rcases cut_append hsplit with ⟨w', rfl, rfl⟩ | ⟨p', hp', rfl, hrest⟩
  · have hp : Ws p := fun b hb => hw b (by simp [hb])
    refine .inl ⟨p, ?_, neutral_of_nested (nested_of_ws hp), fun _ => .inl ⟨hp, rfl⟩⟩
    rw [completed_ws hp, hexp, hpend, Bool.or_self, Bool.and_false, if_neg Bool.false_ne_true]
  have hscan : completed out (f :: fr) (w ++ p') = completed (out ++ w) (f :: fr) p' := by
    rw [completed, completeLoop_ws hw, completed]
  rw [hscan]
  rcases h p' q (out ++ w) f fr r hrest hp' hqne harr hexp hpend (by simp; omega)
    (strAt_append_nested hout (nested_of_ws hw)) with ⟨n, htext, hn, hok⟩ | hdrop
  · refine .inl ⟨w ++ n, htext.trans (by simp), ?_, fun hclean => ?_⟩
    · exact (neutral_of_nested (nested_of_ws hw)).append hn
    · exact .inr (hok (by simpa using hclean))
  · right
    rw [hdrop, Dropped, take_append_of_le_length hsafe]

theorem cutsInner_ws (hw : Ws w) : CutsInner arr piece w := by
  rw [← append_nil w]
  refine cutsInner_of_item hw fun p q out f fr r hsplit hpne hqne => ?_
  obtain ⟨a', hnil, -⟩ := cut_last hsplit hqne
  exact absurd (append_eq_nil_iff.mp hnil.symm).1 hpne

variable {w2 w1 : Bytes}

theorem dropped_key {a} (hraw : StrState.body.run raw = some .body) (hw1 : Ws w1)
    (hw2 : Ws w2) (hsplit : keyText [] raw w1 w2 = p ++ a) (hpne : p ≠ []) (harr : f.arr = false)
    (hexp : f.expectValue = false) (hsafe : f.safeLen ≤ out.length) :
    Dropped out f fr (completed out (f :: fr) p) := by
  obtain ⟨arr, n, e, pend⟩ := f
  cases harr
  cases hexp
  have htake : ∀ s, (out ++ s).take n = out.take n := fun s => take_append_of_le_length hsafe
  cases p with
  | nil => exact absurd rfl hpne
  | cons b p =>
    obtain ⟨rfl, hrest⟩ := cons.inj hsplit
    rcases cut_append hrest with ⟨raw', hraw', -⟩ | ⟨p2, hp2, rfl, hrest2⟩
    · -- inside the key
      obtain ⟨esc, hesc⟩ := QuoteState.run_prefix (hraw' ▸ hraw)
      have hcontent : completeLoop (inside (out ++ ['"'.toUInt8])
          (⟨false, n, false, pend⟩ :: fr) false true) (p ++ []) = _ :=
        completeLoop_content hesc
      rw [append_nil, completeLoop_nil] at hcontent
      rw [completed, completeLoop_quote]
      have hclosed : finish (inside (out ++ ['"'.toUInt8] ++ p) (⟨false, n, false, pend⟩ :: fr) esc
          true) = (out ++ ['"'.toUInt8] ++ p).take n ++ closers (⟨false, n, false, pend⟩ :: fr) := rfl
      rw [append_assoc, htake] at hclosed
      exact (congrArg finish hcontent).trans (by rwa [append_assoc])
    cases p2 with
    | nil => exact absurd rfl hp2
    | cons b p3 =>
      obtain ⟨rfl, hrest3⟩ := cons.inj hrest2
      rcases cut_append hrest3 with ⟨w1', rfl, -⟩ | ⟨p4, hp4, rfl, hrest4⟩
      · -- between the key and the colon
        have hp3 : Ws p3 := fun b hb => hw1 b (by simp [hb])
        have hclosed : completed (out ++ '"'.toUInt8 :: (raw ++ ['"'.toUInt8]))
            (⟨false, n, false, true⟩ :: fr) p3 =
            (out ++ '"'.toUInt8 :: (raw ++ ['"'.toUInt8]) ++ p3).take n ++
              closers (⟨false, n, false, true⟩ :: fr) := completed_ws hp3
        rw [append_assoc, htake] at hclosed
        rw [completed, completeLoop_key hraw rfl rfl]
        exact hclosed
      cases p4 with
      | nil => exact absurd rfl hp4
      | cons b p5 =>
        -- after the colon
        obtain ⟨rfl, rfl⟩ := cons.inj hrest4
        have hp5 : Ws p5 := fun b hb => hw2 b (by simp [hb])
        have hscan : completeLoop (between out (⟨false, n, false, pend⟩ :: fr))
            (keyText [] raw w1 p5 ++ []) = _ :=
          completeLoop_keyText (by simp [Ws]) hraw hw1 hp5 rfl rfl
        rw [append_nil, completeLoop_nil] at hscan
        have hclosed : finish (between (out ++ keyText [] raw w1 p5)
            (⟨false, n, true, false⟩ :: fr)) =
            (out ++ keyText [] raw w1 p5).take n ++ closers (⟨false, n, true, false⟩ :: fr) := rfl
        rw [htake] at hclosed
        exact (congrArg finish hscan).trans hclosed

theorem nested_keyText (hw : Ws w)
    (hraw : StrState.body.run raw = some .body) (hw1 : Ws w1) (hw2 : Ws w2) :
    Nested (keyText w raw w1 w2) := by
  have h : Nested (w ++ (('"'.toUInt8 :: (raw ++ ['"'.toUInt8])) ++
      (w1 ++ ([':'.toUInt8] ++ w2)))) :=
    .append (nested_of_ws hw) (.append (.str hraw) (.append (nested_of_ws hw1)
      (.append (.byte (by decide)) (nested_of_ws hw2))))
  simpa [keyText] using h

theorem cuts_elem {js w'} (hw : Ws w)
    (hc : Derives (.value j) c) (hw' : Ws w') (ht : Derives (.elemsTail js) t)
    (hcut : Cuts (.value j) c) (htail : Cuts (.elemsTail js) t) :
    Cuts (.elems (j :: js)) (w ++ (c ++ (w' ++ t))) := by
  refine cutsInner_of_item hw fun p q out f fr r hsplit hpne hqne harr _ _ hsafe hout => ?_
  have hkey : inKeyPos (f :: fr) = false := by simp [inKeyPos, harr]
  have hnil : Ws [] := by simp [Ws]
  refine (cuts_item (r := r) hc hcut hw' htail (follow_elemsTail ht []) (by simpa using hsplit) hpne
    hqne harr hkey hsafe hout).imp_left ?_
  rintro ⟨n, htext, hn, hok⟩
  refine ⟨n, htext, hn, fun hclean => ?_⟩
  rcases hok hclean with ⟨j', hj', htr⟩ | ⟨u, hu, rfl⟩ | ⟨n', ⟨js', hjs', htr⟩, rfl⟩
  · refine ⟨[j'], by simpa using Derives.elem hw hj' hnil .elemsEnd, ?_⟩
    simpa [ofElems, truncatesList] using htr
  · refine ⟨[j], by simpa using Derives.elem hw hc hu .elemsEnd, ?_⟩
    simp [ofElems, truncatesList, truncates_refl]
  · refine ⟨j :: js', Derives.elem hw hc hw' hjs', ?_⟩
    exact truncatesList_cons (truncates_refl _) htr

theorem cuts_member {k : Bytes} {fs : List (Bytes × Json)}
    {w3 : Bytes} (hw : Ws w) (hk : IsStr raw k) (hw1 : Ws w1) (hw2 : Ws w2)
    (hc : Derives (.value j) c) (hw3 : Ws w3) (ht : Derives (.membersTail fs) t)
    (hcut : Cuts (.value j) c) (htail : Cuts (.membersTail fs) t) :
    Cuts (.members ((k, j) :: fs)) (w ++ '"'.toUInt8 :: (raw ++ '"'.toUInt8 ::
      (w1 ++ ':'.toUInt8 :: (w2 ++ (c ++ (w3 ++ t)))))) := by
  refine cutsInner_of_item hw fun p q out f fr r hsplit hpne hqne harr hexp _ hsafe hout => ?_
  have hnil : Ws [] := by simp [Ws]
  have hkeyText : keyText [] raw w1 w2 ++ (c ++ (w3 ++ (t ++ [closer false]))) = p ++ q := by
    rw [← hsplit]
    simp [keyText]
  rcases cut_append hkeyText with ⟨a, ha, -⟩ | ⟨p', hp', rfl, hrest⟩
  · exact .inr (dropped_key hk.run hw1 hw2 ha hpne harr hexp hsafe)
  have hnested : Nested (keyText [] raw w1 w2) :=
    nested_keyText hnil hk.run hw1 hw2
  have hscan : completed out (f :: fr) (keyText [] raw w1 w2 ++ p') =
      completed (out ++ keyText [] raw w1 w2)
        ({ f with expectValue := true, pendingKey := false } :: fr) p' := by
    rw [completed, completeLoop_keyText hnil hk.run hw1 hw2 harr hexp, completed]
  rw [hscan]
  rcases cuts_item (r := r) (f := { f with expectValue := true, pendingKey := false }) hc hcut hw3
    htail (follow_membersTail ht []) hrest hp' hqne harr (by simp [inKeyPos]) (by simp; omega)
    (strAt_append_nested hout hnested) with ⟨n, htext, hn, hok⟩ | hdrop
  · left
    refine ⟨keyText [] raw w1 w2 ++ n, htext.trans (by simp [closers]),
      (neutral_of_nested hnested).append hn, fun hclean => ?_⟩
    have hmember : ∀ {j' : Json} {fs' : List (Bytes × Json)} {c' w' t' : Bytes},
        Derives (.value j') c' → Ws w' → Derives (.membersTail fs') t' →
        Derives (.members ((k, j') :: fs')) (w ++ (keyText [] raw w1 w2 ++ (c' ++ (w' ++ t')))) := by
      intro j' fs' c' w' t' hc' hw' ht'
      simpa [keyText] using Derives.member hw hk hw1 hw2 hc' hw' ht'
    rcases hok (by simpa using hclean) with ⟨j', hj', htr⟩ | ⟨u, hu, rfl⟩ |
      ⟨n', ⟨fs', hfs', htr⟩, rfl⟩
    · refine ⟨[(k, j')], by simpa using hmember hj' hnil .membersEnd, ?_⟩
      simpa [ofMembers, truncatesFields] using htr
    · refine ⟨[(k, j)], by simpa using hmember hc hu .membersEnd, ?_⟩
      simp [ofMembers, truncatesFields, truncates_refl]
    · refine ⟨(k, j) :: fs', hmember hc hw3 hfs', ?_⟩
      exact truncatesFields_cons (truncates_refl _) htr
  · right
    rw [hdrop, Dropped, take_append_of_le_length hsafe]
    rfl

end

theorem cuts_of_derives {x c} (h : Derives x c) : Cuts x c := by
  have hnilTail : ∀ arr piece, CutsTail arr piece [] := by
    intro arr piece p q out f fr r hsplit hpne hqne
    obtain ⟨a', hnil, -⟩ := cut_last hsplit hqne
    exact absurd (append_eq_nil_iff.mp hnil.symm).1 hpne
  have harrNil : ∀ js w, Ws w → TruncValue (.arr js) (opener true :: (w ++ [closer true])) :=
    fun js w hw => ⟨.arr [], .arrNil hw, by
      simp [ofJson, ofElems, truncates, truncatesList]⟩
  have hobjNil : ∀ fs w, Ws w → TruncValue (.obj fs) (opener false :: (w ++ [closer false])) :=
    fun fs w hw => ⟨.obj [], .objNil hw, by
      simp [ofJson, ofMembers, truncates, truncatesFields]⟩
  induction h with
  | null => exact cuts_scalar null_bytes
  | bool b => exact cuts_scalar (bool_bytes b)
  | num h => exact cuts_scalar (isNumber_bytes h)
  | str h => exact cuts_string h
  | arrNil hw =>
    have hinner : CutsInner true (fun _ => False) _ := cutsInner_ws hw
    exact cuts_container true hinner (harrNil []) fun _ h => h.elim
  | @arr js _ _ ih =>
    refine cuts_container true ih (harrNil js) ?_
    rintro n ⟨js', hjs', htr⟩
    exact ⟨.arr js', .arr hjs', by simpa [ofJson, truncates] using htr⟩
  | objNil hw =>
    have hinner : CutsInner false (fun _ => False) _ := cutsInner_ws hw
    exact cuts_container false hinner (hobjNil []) fun _ h => h.elim
  | @obj fs _ _ ih =>
    refine cuts_container false ih (hobjNil fs) ?_
    rintro n ⟨fs', hfs', htr⟩
    exact ⟨.obj fs', .obj hfs', by simpa [ofJson, truncates] using htr⟩
  | elem hw hc hw' ht ihc iht => exact cuts_elem hw hc hw' ht ihc iht
  | elemsEnd => exact hnilTail true _
  | elemsMore _ ih =>
    refine cuts_comma ih ?_
    rintro n ⟨js', hjs', htr⟩
    exact ⟨js', .elemsMore hjs', htr⟩
  | member hw hk hw1 hw2 hc hw3 ht ihc iht =>
    exact cuts_member hw hk hw1 hw2 hc hw3 ht ihc iht
  | membersEnd => exact hnilTail false _
  | membersMore _ ih =>
    refine cuts_comma ih ?_
    rintro n ⟨fs', hfs', htr⟩
    exact ⟨fs', .membersMore hfs', htr⟩

/-! ### The whole text -/

def Value.isContainer : Value → Bool
  | .object .. | .array .. => true
  | _ => false

theorem derives_container {j c} (hc : Derives (.value j) c) (h : (ofJson j).isContainer = true) :
    ∃ arr d, Nested d ∧ c = opener arr :: (d ++ [closer arr]) := by
  cases hc with
  | null | bool | num | str => cases h
  | arrNil hw => exact ⟨true, _, nested_of_ws hw, rfl⟩
  | arr hd => exact ⟨true, _, nested_of_derives hd, rfl⟩
  | objNil hw => exact ⟨false, _, nested_of_ws hw, rfl⟩
  | obj hd => exact ⟨false, _, nested_of_derives hd, rfl⟩

/-- **A truncated JSON object or array is closed.** The text is cut between the root's brackets:
the scan always reports a change and its text is balanced; at a clean cut the text is JSON, and
its value is the original value truncated. -/
theorem completeUnclosedFinal_sound (J p q : Bytes) (v : Value) (hJ : strictDecode J = some v)
    (hroot : v.isContainer = true) (hsplit : J = p ++ q) (hp : ¬Ws p) (hq : ¬Ws q) :
    (completeUnclosedFinal p).2 = true ∧ bracketBalanced (completeUnclosedFinal p).1 = true ∧
      (cleanCut p q = true → ∃ v', strictDecode (completeUnclosedFinal p).1 = some v' ∧
        v'.truncates v = true) := by
  obtain ⟨j, rfl, w, c, w', hw, hc, hw', rfl⟩ := strictDecode_eq_some_iff.mp hJ
  obtain ⟨arr, d, hd, hcd⟩ := derives_container hc hroot
  -- the cut is inside the root
  obtain ⟨p', c', hp', hc', rfl, rfl, hcsplit⟩ : ∃ p' c', p' ≠ [] ∧ c' ≠ [] ∧ p = w ++ p' ∧
      q = c' ++ w' ∧ c = p' ++ c' := by
    rcases cut_append hsplit with ⟨a, rfl, -⟩ | ⟨p', hp', rfl, hrest⟩
    · exact absurd (fun b hb => hw b (by simp [hb])) hp
    rcases cut_append hrest with ⟨c', rfl, rfl⟩ | ⟨p'', -, -, rfl⟩
    · refine ⟨p', c', hp', ?_, rfl, rfl, rfl⟩
      rintro rfl
      exact hq hw'
    · exact absurd (fun b hb => hw' b (by simp [hb])) hq
  have hscan : completeLoop ⟨[], [], .outside, none⟩ (w ++ p') = completeLoop (between w []) p' :=
    completeLoop_ws hw
  obtain ⟨n, htext, hn, hok⟩ : Kept w [] (cleanCut (w ++ p') (c' ++ w') = true) (TruncValue j)
      (completed w [] p') := by
    have hopens : opens c = true := by
      rw [hcd]
      cases arr <;> rfl
    rcases cuts_of_derives hc p' c' w [] w' hcsplit hp' hc' rfl (by simp)
      (strAt_nested (nested_of_ws hw)) (fun _ => hopens) with h | ⟨f, fr', hfr, -⟩
    · exact h
    · cases hfr
  have hfr : (completeLoop (between w []) p').fr ≠ [] := by
    intro hnil
    have hcopy : completed w [] p' = w ++ p' := by
      rw [completed, finish, hnil]
      exact completeLoop_out _ _
    have hpn : p' = n := by
      rw [hcopy] at htext
      simpa [closers] using htext
    subst hpn
    cases p' with
    | nil => exact hp' rfl
    | cons b p' =>
      rw [hcd] at hcsplit
      obtain ⟨rfl, hrest⟩ := List.cons.inj hcsplit
      obtain ⟨d', rfl, -⟩ := cut_last hrest hc'
      exact not_neutral_open (neutral_of_nested hd) arr hn
  have hval : completeUnclosedFinal (w ++ p') = (w ++ n, true) := by
    rw [completeUnclosedFinal, hscan]
    simp only [if_neg hfr]
    exact congrArg (·, true) (htext.trans (by simp [closers]))
  rw [hval]
  refine ⟨rfl, ?_, fun hclean => ?_⟩
  · rw [bracketBalanced, ((neutral_of_nested (nested_of_ws hw)).append hn) []]
    rfl
  obtain ⟨j', hj', htr⟩ := hok hclean
  refine ⟨.ofJson j', strictDecode_eq_some_iff.mpr ⟨j', rfl, w, n, [], hw, hj', by simp [Ws], ?_⟩,
    htr⟩
  rw [append_nil]

/-- The answer breaks off inside a string in a nested array. -/
theorem completeUnclosedFinal_sound_nested :
    strictDecode (bytes "\x7b\"k\": [1, \"xy\"], \"l\": 2\x7d") = some (.object false
        [(bytes "k", .array false [.number false false (bytes "1"), .string false (bytes "xy")]),
          (bytes "l", .number false false (bytes "2"))]) ∧
      completeUnclosedFinal (bytes "\x7b\"k\": [1, \"x") = (bytes "\x7b\"k\": [1, \"x\"]\x7d", true) ∧
      ∃ v', strictDecode (bytes "\x7b\"k\": [1, \"x\"]\x7d") = some v' ∧
        v'.truncates (.object false
          [(bytes "k", .array false [.number false false (bytes "1"), .string false (bytes "xy")]),
            (bytes "l", .number false false (bytes "2"))]) = true := by
  have hJ : strictDecode (bytes "\x7b\"k\": [1, \"xy\"], \"l\": 2\x7d") = some (.object false
      [(bytes "k", .array false [.number false false (bytes "1"), .string false (bytes "xy")]),
        (bytes "l", .number false false (bytes "2"))]) := by decide +kernel
  have htext : completeUnclosedFinal (bytes "\x7b\"k\": [1, \"x") =
      (bytes "\x7b\"k\": [1, \"x\"]\x7d", true) := by decide +kernel
  have hsound := completeUnclosedFinal_sound _ (bytes "\x7b\"k\": [1, \"x") (bytes "y\"], \"l\": 2\x7d") _
    hJ rfl rfl (fun h => absurd (h '\x7b' (by decide)) (by decide))
    (fun h => absurd (h 'y' (by decide)) (by decide))
  rw [htext] at hsound
  exact ⟨hJ, htext, hsound.2.2 (by decide +kernel)⟩

/-- A cut inside the encoding of a character, and one between the two escapes of a surrogate pair:
the string that is closed there ends with a replacement character, which is no part of the
original string. -/
theorem completeUnclosedFinal_split_character :
    (∃ v v', strictDecode [0x5B, 0x22, 0xC3, 0xA9, 0x22, 0x5D] = some v ∧
      cutsComma [0x5B, 0x22, 0xC3] = false ∧
      cutsScalar [0x5B, 0x22, 0xC3] [0xA9, 0x22, 0x5D] = false ∧
      cutsEscape [0x5B, 0x22, 0xC3] = false ∧
      strictDecode (completeUnclosedFinal [0x5B, 0x22, 0xC3]).1 = some v' ∧
      v'.truncates v = false) ∧
    ∃ v v', strictDecode (bytes "[\"\\ud83d\\ude00\"]") = some v ∧
      cutsComma (bytes "[\"\\ud83d") = false ∧
      cutsScalar (bytes "[\"\\ud83d") (bytes "\\ude00\"]") = false ∧
      cutsEscape (bytes "[\"\\ud83d") = false ∧
      strictDecode (completeUnclosedFinal (bytes "[\"\\ud83d")).1 = some v' ∧
      v'.truncates v = false :=
  ⟨⟨.array false [.string false [0xC3, 0xA9]], .array false [.string false [0xEF, 0xBF, 0xBD]],
      by decide +kernel, by decide +kernel, by decide +kernel, by decide +kernel, by decide +kernel,
      by decide +kernel⟩,
    ⟨.array false [.string false [0xF0, 0x9F, 0x98, 0x80]],
      .array false [.string false [0xEF, 0xBF, 0xBD]],
      by decide +kernel, by decide +kernel, by decide +kernel, by decide +kernel, by decide +kernel,
      by decide +kernel⟩⟩

end BamlRest
