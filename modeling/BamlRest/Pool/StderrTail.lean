import BamlRest.Text.Bytes

/-!
# The tail of a worker's error output

`stderr_tail.go` keeps the last lines that a worker wrote. It evicts lines for every line that is
completed and for the unfinished one at the end of every `Write`. An eviction for less never drops
what an eviction for more would keep, so the places where the output was cut do not matter.

* `snapshot_tail`: the snapshot is the tail of the output.
-/

namespace BamlRest.Pool

open List

/-! ### The buffer -/

/-- The two bounds of a buffer. Neither of them is 0. -/
structure Caps where
  maxLines : ℕ
  maxBytes : ℕ
  lines_pos : 0 < maxLines
  bytes_pos : 0 < maxBytes

/-- `stderrRingBuffer`, without its bounds. -/
structure StderrRingBuffer where
  lines : List Bytes
  curBytes : ℤ
  partial_ : Bytes

/-- `newStderrRingBuffer`: its bounds, and it is empty. -/
def newStderrRingBuffer : Caps × StderrRingBuffer :=
  (⟨100, 64 * 1024, by decide, by decide⟩, ⟨[], 0, []⟩)

namespace Caps

variable (c : Caps)

/-- The last `maxBytes` bytes of a line. -/
def cut (line : Bytes) : Bytes :=
  if c.maxBytes < line.length then line.drop (line.length - c.maxBytes) else line

/-- The loop of `enforceBounds`. -/
def evictLoop (extraLines extraBytes : ℕ) : List Bytes → ℤ → List Bytes × ℤ
  | [], cur => ([], cur)
  | l :: ls, cur =>
    if c.maxLines < (l :: ls).length + extraLines ∨ (c.maxBytes : ℤ) < cur + extraBytes then
      evictLoop extraLines extraBytes ls (cur - l.length)
    else (l :: ls, cur)

def enforceBounds (r : StderrRingBuffer) : StderrRingBuffer :=
  let kept := c.evictLoop (if r.partial_ ≠ [] then 1 else 0) r.partial_.length r.lines r.curBytes
  { r with lines := kept.1, curBytes := kept.2 }

def appendLine (line : Bytes) (r : StderrRingBuffer) : StderrRingBuffer :=
  c.enforceBounds
    { r with lines := r.lines ++ [c.cut line], curBytes := r.curBytes + (c.cut line).length }

/-- The loop of `Write`. -/
def writeLoop (rest : Bytes) (r : StderrRingBuffer) : StderrRingBuffer :=
  match _h : rest.dropWhile (· ≠ '\n'.toUInt8) with
  | [] => c.enforceBounds { r with partial_ := c.cut (r.partial_ ++ rest) }
  | _ :: rest' =>
    writeLoop rest'
      (c.appendLine (r.partial_ ++ rest.takeWhile (· ≠ '\n'.toUInt8)) { r with partial_ := [] })
termination_by rest.length
decreasing_by
  have := (dropWhile_sublist (l := rest) (· ≠ '\n'.toUInt8)).length_le
  simp only [_h, length_cons] at this
  omega

/-- `Write`: what it returns, and the buffer. -/
def write (p : Bytes) (r : StderrRingBuffer) : ℕ × StderrRingBuffer := (p.length, c.writeLoop p r)

/-- The buffer after some calls of `Write`. -/
def written (r : StderrRingBuffer) : List Bytes → StderrRingBuffer :=
  foldl (fun r p => (c.write p r).2) r

end Caps

def StderrRingBuffer.snapshot (r : StderrRingBuffer) : Bytes × ℕ :=
  if r.lines = [] ∧ r.partial_ = [] then ([], 0)
  else
    let out := r.lines ++ if r.partial_ ≠ [] then [r.partial_] else []
    (joinWith "\n" out, out.length)

/-! ### The lines of a stream -/

/-- Read one more byte, after the lines that are complete and the one that is not. -/
def lineStep : List Bytes × Bytes → UInt8 → List Bytes × Bytes
  | (ls, q), b => if b = '\n' then (ls ++ [q], []) else (ls, q ++ [b])

/-- The complete lines of a stream, and what follows the last of them. -/
def readLines (s : Bytes) : List Bytes × Bytes := s.foldl lineStep ([], [])

/-- The lines of a stream, the unfinished one among them if it is not empty. -/
def streamLines (s : Bytes) : List Bytes :=
  (readLines s).1 ++ if (readLines s).2 ≠ [] then [(readLines s).2] else []

/-! ### Eviction -/

/-- The longest end of a list of lines that fits, with so many more lines and bytes. -/
def Caps.fitting (c : Caps) (k n : ℕ) : List Bytes → List Bytes
  | [] => []
  | l :: ls =>
    if (l :: ls).length + k ≤ c.maxLines ∧ ((l :: ls).map length).sum + n ≤ c.maxBytes then l :: ls
    else c.fitting k n ls

namespace Caps

variable {c : Caps} {k k' n n' : ℕ}

theorem evictLoop_eq (ls : List Bytes) : c.evictLoop k n ls (ls.map length).sum =
      (c.fitting k n ls, ((((c.fitting k n ls).map length).sum : ℕ) : ℤ)) := by
  induction ls with
  | nil => rfl
  | cons l ls ih =>
    rw [evictLoop, fitting]
    by_cases hfit : (l :: ls).length + k ≤ c.maxLines ∧ ((l :: ls).map length).sum + n ≤ c.maxBytes
    · rw [if_neg (by omega), if_pos hfit]
    rw [if_pos (by omega), if_neg hfit, ← ih]
    congr 1
    push_cast [map_cons, sum_cons]
    ring

theorem fitting_suffix (ls : List Bytes) : c.fitting k n ls <:+ ls := by
  fun_induction c.fitting k n ls with
  | case1 | case2 => exact suffix_rfl
  | case3 l ls _ ih => exact ih.trans (suffix_cons l ls)

theorem fitting_fits (hk : k ≤ c.maxLines) (hn : n ≤ c.maxBytes) (ls : List Bytes) :
    (c.fitting k n ls).length + k ≤ c.maxLines ∧
      ((c.fitting k n ls).map length).sum + n ≤ c.maxBytes := by
  fun_induction c.fitting k n ls with
  | case1 => simpa using ⟨hk, hn⟩
  | case2 l ls hfit => exact hfit
  | case3 l ls _ ih => exact ih

/-- An eviction for less before one for more makes no difference. -/
theorem fitting_fitting (hk : k ≤ k') (hn : n ≤ n') (ls : List Bytes) :
    c.fitting k' n' (c.fitting k n ls) = c.fitting k' n' ls := by
  fun_induction c.fitting k n ls with
  | case1 | case2 => rfl
  | case3 l ls hfit ih => rw [ih, fitting, if_neg (by omega)]

theorem fitting_append {line : Bytes} (hline : line.length ≤ c.maxBytes) (ls : List Bytes) :
    c.fitting 0 0 (ls ++ [line]) = c.fitting 1 line.length ls ++ [line] := by
  induction ls with
  | nil =>
    have := c.lines_pos
    simp [fitting, hline]
    omega
  | cons l ls ih =>
    rw [cons_append, fitting, fitting, ih]
    simp only [length_cons, length_append, length_nil, map_cons, map_append, map_nil, sum_cons,
      sum_append, sum_nil, Nat.add_zero, Nat.zero_add, Nat.add_assoc]
    split_ifs <;> rfl

theorem cut_eq (line : Bytes) : c.cut line = line.drop (line.length - c.maxBytes) := by
  rw [cut]
  split_ifs with h
  · rfl
  · rw [Nat.sub_eq_zero_of_le (by omega), drop_zero]

theorem length_cut (line : Bytes) : (c.cut line).length = min line.length c.maxBytes := by
  rw [cut_eq, length_drop]
  omega

theorem cut_append (s t : Bytes) : c.cut (c.cut s ++ t) = c.cut (s ++ t) := by
  have hcut := length_cut (c := c) s
  rw [cut_eq, cut_eq (s ++ t), length_append, length_append, hcut, cut_eq,
    ← drop_append_of_le_length (Nat.sub_le _ _), drop_drop]
  congr 1
  omega

theorem cut_eq_nil {line : Bytes} : c.cut line = [] ↔ line = [] := by
  have := c.bytes_pos
  rw [← length_eq_zero_iff, length_cut, ← length_eq_zero_iff]
  omega

/-! ### The buffer and the stream -/

theorem readLines_append {t : Bytes} (ht : '\n'.toUInt8 ∉ t) (s : Bytes) :
    readLines (s ++ t) = ((readLines s).1, (readLines s).2 ++ t) := by
  induction t using reverseRecOn with
  | nil => simp
  | append_singleton t b ih =>
    rw [mem_append, not_or, mem_singleton] at ht
    rw [← append_assoc, readLines, foldl_append, ← readLines, ih ht.1, foldl_cons, lineStep,
      if_neg (Ne.symm ht.2), append_assoc]
    rfl

theorem readLines_newline (s : Bytes) :
    readLines (s ++ ['\n'.toUInt8]) = ((readLines s).1 ++ [(readLines s).2], []) := by
  rw [readLines, foldl_append, ← readLines]
  rfl

/-- The buffer holds what fits of a stream, beside the unfinished line. -/
structure Holds (c : Caps) (s : Bytes) (r : StderrRingBuffer) : Prop where
  partial_ : r.partial_ = c.cut (readLines s).2
  lines : r.lines = c.fitting (if r.partial_ ≠ [] then 1 else 0) r.partial_.length
    ((readLines s).1.map c.cut)
  curBytes : r.curBytes = ((r.lines.map length).sum : ℕ)

variable {s t : Bytes} {r : StderrRingBuffer}

theorem enforceBounds_eq (h : r.curBytes = ((r.lines.map length).sum : ℕ)) :
    let kept := c.fitting (if r.partial_ ≠ [] then 1 else 0) r.partial_.length r.lines
    c.enforceBounds r = { r with lines := kept, curBytes := ((kept.map length).sum : ℕ) } := by
  simp only [enforceBounds, h, evictLoop_eq]

theorem Holds.line (h : Holds c s r) (ht : '\n'.toUInt8 ∉ t) : Holds c (s ++ t ++ ['\n'.toUInt8])
      (c.appendLine (r.partial_ ++ t) { r with partial_ := [] }) := by
  have hlen : r.partial_.length ≤ (c.cut ((readLines s).2 ++ t)).length := by
    rw [h.partial_, length_cut, length_cut, length_append]
    omega
  have hle : (c.cut ((readLines s).2 ++ t)).length ≤ c.maxBytes := by
    rw [length_cut]
    omega
  rw [appendLine, enforceBounds_eq (by simp [h.curBytes])]
  refine ⟨?_, ?_, rfl⟩
  · rw [readLines_newline]
    rfl
  simp only [readLines_newline, readLines_append ht, h.partial_, cut_append, map_append, map_cons,
    map_nil, ne_eq, not_true_eq_false, if_false, length_nil]
  -- what was evicted for the unfinished line would be evicted for the whole one
  rw [fitting_append hle, fitting_append hle, h.lines, fitting_fitting (by split_ifs <;> omega) hlen]

theorem Holds.rest (h : Holds c s r) (ht : '\n'.toUInt8 ∉ t) :
    Holds c (s ++ t) (c.enforceBounds { r with partial_ := c.cut (r.partial_ ++ t) }) := by
  have hcut : c.cut (r.partial_ ++ t) = c.cut ((readLines s).2 ++ t) := by
    rw [h.partial_, cut_append]
  have hlen : r.partial_.length ≤ (c.cut (r.partial_ ++ t)).length := by
    rw [hcut, h.partial_, length_cut, length_cut, length_append]
    omega
  rw [enforceBounds_eq (r := { r with partial_ := c.cut (r.partial_ ++ t) }) h.curBytes]
  refine ⟨?_, ?_, rfl⟩
  · rw [readLines_append ht, hcut]
  rw [readLines_append ht]
  dsimp only
  rw [h.lines, fitting_fitting _ hlen]
  have hne : r.partial_ ≠ [] → c.cut (r.partial_ ++ t) ≠ [] := fun hr hnil =>
    hr (append_eq_nil_iff.mp (cut_eq_nil.mp hnil)).1
  split_ifs with h1 h2 <;> simp_all

theorem Holds.writeLoop (rest : Bytes) (h : Holds c s r) :
    Holds c (s ++ rest) (c.writeLoop rest r) := by
  fun_induction c.writeLoop rest r generalizing s with
  | case1 rest r hnil =>
    refine h.rest fun hmem => ?_
    simpa using dropWhile_eq_nil_iff.mp hnil _ hmem
  | case2 rest r b rest' hcons ih =>
    have hb : b = '\n' := by
      have hhead := head?_dropWhile_not (· ≠ '\n'.toUInt8) rest
      rw [hcons] at hhead
      exact not_not.mp (of_decide_eq_false hhead)
    have hline := h.line (t := rest.takeWhile (· ≠ '\n'.toUInt8)) fun hmem => by
      simpa using mem_takeWhile_imp hmem
    have hsplit := takeWhile_append_dropWhile (p := (· ≠ '\n'.toUInt8)) (l := rest)
    rw [hcons, hb] at hsplit
    have hrest := ih hline
    rwa [append_assoc, append_assoc, singleton_append, hsplit] at hrest

theorem Holds.written (chunks : List Bytes) (h : Holds c s r) :
    Holds c (s ++ chunks.flatten) (c.written r chunks) := by
  induction chunks generalizing s r with
  | nil => simpa [Caps.written] using h
  | cons p chunks ih =>
    rw [flatten_cons, ← append_assoc]
    exact ih (h.writeLoop p)

theorem Holds.snapshot (h : Holds c s r) : let out := c.fitting 0 0 ((streamLines s).map c.cut)
    r.snapshot = (joinWith "\n" out, out.length) := by
  have hout : r.lines ++ (if r.partial_ ≠ [] then [r.partial_] else []) =
      c.fitting 0 0 ((streamLines s).map c.cut) := by
    rw [streamLines, map_append, h.lines]
    by_cases hq : (readLines s).2 = []
    · simp [h.partial_, hq, cut_eq_nil.mpr]
    have hp : r.partial_ ≠ [] := by rwa [h.partial_, ne_eq, cut_eq_nil]
    have hle : (c.cut (readLines s).2).length ≤ c.maxBytes := by
      rw [length_cut]
      omega
    rw [if_pos hp, if_pos hp, if_pos hq, map_singleton, fitting_append hle, h.partial_]
  rw [StderrRingBuffer.snapshot, ← hout]
  by_cases hnil : r.lines = [] ∧ r.partial_ = []
  · rw [if_pos hnil, hnil.1, hnil.2]
    rfl
  · rw [if_neg hnil]

end Caps

/-- **The tail does not depend on the writes.** It is the longest end of the lines of the stream,
each cut to its last bytes, that fits the bounds. -/
theorem snapshot_tail (c : Caps) (chunks : List Bytes) :
    let lines := (streamLines chunks.flatten).map c.cut
    let snapshot := (c.written newStderrRingBuffer.2 chunks).snapshot
    (∀ chunks', chunks'.flatten = chunks.flatten →
      (c.written newStderrRingBuffer.2 chunks').snapshot = snapshot) ∧
    ∃ out, snapshot = (joinWith "\n" out, out.length) ∧ out = c.fitting 0 0 lines ∧ out <:+ lines ∧
      out.length ≤ c.maxLines ∧ (out.map length).sum ≤ c.maxBytes := by
  have hempty : c.Holds [] newStderrRingBuffer.2 := ⟨rfl, rfl, rfl⟩
  have hsnapshot := fun chunks => (hempty.written chunks).snapshot
  refine ⟨fun chunks' heq => ?_, _, hsnapshot chunks, rfl, Caps.fitting_suffix _, ?_⟩
  · rw [hsnapshot chunks', hsnapshot chunks, nil_append, nil_append, heq]
  · simpa using Caps.fitting_fits (Nat.zero_le _) (Nat.zero_le _) (map c.cut _)

end BamlRest.Pool
