import BamlRest.Text.Json

/-!
# The bare scalars of JSON

What the bytes of a number or keyword can be, and what may follow one.
-/

namespace BamlRest

open NumState

def Follow (r : Bytes) : Prop :=
  ∀ b, r.head? = some b → isWS b ∨ b = ',' ∨ b = ']' ∨ b = '}'

theorem follow_nil : Follow [] := by simp [Follow]

theorem follow_cons_delim {b : UInt8} (h : b = ',' ∨ b = ']' ∨ b = '}') (r) : Follow (b :: r) := by
  intro c hc
  simp only [List.head?_cons, Option.some.injEq] at hc
  exact hc ▸ .inr h

theorem Follow.ws_append {w r} (hw : Ws w) (hr : Follow r) : Follow (w ++ r) := by
  cases w with
  | nil => exact hr
  | cons b w =>
    intro c hc
    simp only [List.cons_append, List.head?_cons, Option.some.injEq] at hc
    exact .inl (hc ▸ hw b (by simp))

theorem NumState.step_follow (q : NumState) {b} (h : isWS b ∨ b = ',' ∨ b = ']' ∨ b = '}') :
    q.step b = none := by
  have hd : isDigit b = false := by
    rcases h with h | rfl | rfl | rfl
    · simp only [isWS, Bool.or_eq_true, decide_eq_true_eq] at h
      rcases h with ((rfl | rfl) | rfl) | rfl <;> rfl
    all_goals rfl
  have hne : b ≠ '0' ∧ b ≠ '.' ∧ b ≠ 'e' ∧ b ≠ 'E' ∧
      b ≠ '+' ∧ b ≠ '-' := by
    rcases h with h | rfl | rfl | rfl
    · simp only [isWS, Bool.or_eq_true, decide_eq_true_eq] at h
      rcases h with ((rfl | rfl) | rfl) | rfl <;> decide
    all_goals decide
  obtain ⟨h0, h1, h2, h3, h4, h5⟩ := hne
  cases q <;> simp only [step, hd, h0, h1, h2, h3, h4, h5, or_self, if_false,
    Bool.false_eq_true]

theorem scanNumber_append {tok r} (h : isNumber tok) (hr : Follow r) :
    scanNumber (tok ++ r) = some (tok, r) := by
  simp only [isNumber, decide_eq_true_eq] at h
  obtain ⟨-, b, u, q, q', rfl, hb, hrun, hacc, -⟩ := scanNumber_eq_some_iff.mp h
  exact scanNumber_eq_some_iff.mpr
    ⟨rfl, b, u, q, q', rfl, hb, hrun, hacc, fun c hc => q'.step_follow (hr c hc)⟩

theorem isNumber_of_scanNumber {s tok r} (h : scanNumber s = some (tok, r)) : isNumber tok := by
  obtain ⟨-, b, u, q, q', rfl, hb, hrun, hacc, -⟩ := scanNumber_eq_some_iff.mp h
  simp only [isNumber, decide_eq_true_eq]
  exact scanNumber_eq_some_iff.mpr ⟨by simp, b, u, q, q', rfl, hb, hrun, hacc, by simp⟩

theorem NumState.start_eq_some {b q} (h : start b = some q) : b = '-' ∨ isDigit b := by
  simp only [start] at h
  split at h
  · next hb => exact .inl hb
  simp only [step] at h
  split at h
  · next hb => exact .inr (by rw [hb]; rfl)
  split at h
  · next hb => exact .inr hb
  · cases h

def startsScalar (b : UInt8) : Bool :=
  b = '"' || b = 't' || b = 'f' || b = 'n' || b = '-' || isDigit b

theorem startsScalar_of_number {b q} (h : start b = some q) : startsScalar b := by
  rcases start_eq_some h with rfl | hd
  · rfl
  · simp [startsScalar, hd]

theorem startsScalar_ne : ∀ b : UInt8, startsScalar b →
    isWS b = false ∧ b ≠ '[' ∧ b ≠ ']' ∧ b ≠ '{' ∧ b ≠ '}' ∧ b ≠ ':' ∧ b ≠ ',' :=
  forall_byte (by decide +kernel)

def isScalarByte (b : UInt8) : Bool := isDigit b || b ∈ bytes "+-.eEaflnrstu"

theorem NumState.step_byte : ∀ b : UInt8, ∀ q : NumState, (q.step b).isSome = true →
    isScalarByte b = true := by
  refine forall_byte ?_
  intro i q
  cases q <;> revert i <;> decide +kernel

theorem NumState.run_bytes {q q' : NumState} {s : Bytes} (h : q.run s = some q') :
    ∀ b ∈ s, isScalarByte b := by
  induction s generalizing q with
  | nil => simp
  | cons b s ih =>
    simp only [run, Option.bind_eq_some_iff] at h
    obtain ⟨q1, hq1, hrun⟩ := h
    simp only [List.mem_cons, forall_eq_or_imp]
    exact ⟨step_byte b q (by rw [hq1]; rfl), ih hrun⟩

theorem isNumber_bytes {tok : Bytes} (h : isNumber tok = true) :
    ∀ b ∈ tok, isScalarByte b = true := by
  simp only [isNumber, decide_eq_true_eq] at h
  obtain ⟨-, b, u, q, q', rfl, hb, hrun, -⟩ := scanNumber_eq_some_iff.mp h
  simp only [List.mem_cons, forall_eq_or_imp]
  refine ⟨?_, run_bytes hrun⟩
  rcases start_eq_some hb with rfl | hd
  · rfl
  · simp [isScalarByte, hd]

theorem null_bytes : ∀ b ∈ bytes "null", isScalarByte b = true := List.all_eq_true.mp (by decide)

theorem bool_bytes (v : Bool) :
    ∀ b ∈ bytes (if v then "true" else "false"), isScalarByte b = true :=
  List.all_eq_true.mp (by cases v <;> decide)

theorem isNumber_getLast {tok} (h : isNumber tok) : ∃ t b, tok = t ++ [b] ∧ isDigit b := by
  have hstep : ∀ b : UInt8, ∀ q : NumState, (q.step b).any accepting = true →
      isDigit b := by
    refine forall_byte ?_
    intro i q
    cases q <;> revert i <;> decide +kernel
  have hrun : ∀ (u : Bytes) (q q' : NumState), q.run u = some q' → q'.accepting → u ≠ [] →
      ∃ t b, u = t ++ [b] ∧ isDigit b := by
    intro u
    induction u with
    | nil => intro _ _ _ _ hne; exact absurd rfl hne
    | cons b u ih =>
      intro q q' hq hacc _
      simp only [run, Option.bind_eq_some_iff] at hq
      obtain ⟨q1, hq1, hu⟩ := hq
      by_cases hnil : u = []
      · subst hnil
        cases hu
        exact ⟨[], b, rfl, hstep b q (by rw [hq1]; exact hacc)⟩
      · obtain ⟨t, b', rfl, hb'⟩ := ih q1 q' hu hacc hnil
        exact ⟨b :: t, b', rfl, hb'⟩
  simp only [isNumber, decide_eq_true_eq] at h
  obtain ⟨-, b, u, q, q', rfl, hb, hu, hacc, -⟩ := scanNumber_eq_some_iff.mp h
  by_cases hnil : u = []
  · subst hnil
    cases hu
    refine ⟨[], b, rfl, ?_⟩
    rcases start_eq_some hb with rfl | hd
    · cases hb; cases hacc
    · exact hd
  · obtain ⟨t, b', rfl, hb'⟩ := hrun u q q' hu hacc hnil
    exact ⟨b :: t, b', rfl, hb'⟩

end BamlRest
