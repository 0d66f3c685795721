import BamlRest.Text.Bytes

/-!
# Server-sent events

`sseclient` reads a stream of server-sent events twice over: `scan` sends events on a channel,
`ScanEvents` hands them to a callback.

* `scan`, `scanEvents`: the two readers.
* `readers_agree`: they deliver the same events.
-/

namespace BamlRest.Sse

open List

/-! ## Lines -/

def splitLF : Bytes → List Bytes
  | [] => [[]]
  | b :: s =>
    if b = '\n' then [] :: splitLF s
    else
      match splitLF s with
      | [] => [[b]]
      | piece :: pieces => (b :: piece) :: pieces

/-- What a reader yields: its bytes, and the error it ends with if it is not the end of the
stream. -/
structure Reader (ε : Type*) where
  data : Bytes
  err : Option ε

inductive StreamError (ε : Type*) where
  | tooLong
  | read (e : ε)
  | ctx (e : ε)
  | callback (e : ε)
  deriving DecidableEq

/-- The lines of a text: what follows the last line feed is a line if it is not empty. -/
def rawLines (s : Bytes) : List Bytes :=
  let pieces := splitLF s
  if pieces.getLast? = some [] then pieces.dropLast else pieces

def dropCR (line : Bytes) : Bytes :=
  if line.getLast? = some '\r'.toUInt8 then line.dropLast else line

/-- The scanner: lines up to the first one that does not fit the buffer, and the error it stops
with. -/
def scanLines {ε : Type*} (limit : ℕ) (r : Reader ε) : List Bytes × Option (StreamError ε) :=
  let raw := rawLines r.data
  let fit := raw.takeWhile fun line => line.length < limit
  (fit.map dropCR, if fit.length < raw.length then some .tooLong else r.err.map .read)

/-- `sseScannerMaxTokenSize`. -/
def scannerMaxTokenSize : ℕ := 1024 * 1024

/-- `bytes.TrimRight(line, "\r")`. -/
def trimRightCR (line : Bytes) : Bytes :=
  (line.reverse.dropWhile (· = '\r'.toUInt8)).reverse

/-- `parseSSELine`: the field and its value, without the first space after the colon. -/
def parseSSELine (line : Bytes) : Bytes × Bytes :=
  match line.span (· ≠ ':'.toUInt8) with
  | (field, _ :: value) =>
    match value with
    | b :: rest => (field, if b = ' ' then rest else value)
    | [] => (field, [])
  | (_, []) => (line, [])

/-! ## The two readers -/

/-- `Event`, and `EventBytes` while its callback runs. -/
structure Event where
  type : Bytes
  data : Bytes
  id : Bytes
  deriving DecidableEq

/-- What the context reports when it is looked at before the `n`-th line, and when an event is
dispatched there. -/
structure Ctx (ε : Type*) where
  atLine : ℕ → Option ε
  atSend : ℕ → Option ε

def Ctx.background (ε : Type*) : Ctx ε where
  atLine := fun _ => none
  atSend := fun _ => none

@[simp] theorem Ctx.background_atLine {ε : Type*} (n : ℕ) : (background ε).atLine n = none := rfl

@[simp] theorem Ctx.background_atSend {ε : Type*} (n : ℕ) : (background ε).atSend n = none := rfl

/-- The events that were delivered, and the error the reader returned. -/
structure Outcome (ε : Type*) where
  events : List Event
  err : Option (StreamError ε)
  deriving DecidableEq

def Outcome.cons {ε : Type*} (ev : Event) (out : Outcome ε) : Outcome ε :=
  { out with events := ev :: out.events }

section

variable {ε : Type*}

/-- The variables of `scan`. -/
structure ScanState where
  eventType : Bytes
  dataBuf : Bytes
  hasData : Bool
  eventID : Bytes

def ScanState.reset : ScanState := ⟨[], [], false, []⟩

def ScanState.event (s : ScanState) : Event := ⟨s.eventType, s.dataBuf, s.eventID⟩

/-- The `switch` of `scan`. -/
def ScanState.field (s : ScanState) (field value : Bytes) : ScanState :=
  if field = "data" then
    { s with
      dataBuf := (if s.hasData then s.dataBuf ++ ['\n'.toUInt8] else s.dataBuf) ++ value
      hasData := true }
  else if field = "event" then { s with eventType := value }
  else if field = "id" then
    if (0 : UInt8) ∈ value then s else { s with eventID := value }
  else s

/-- The loop of `scan`, before the `n`-th line. -/
def scanLoop (ctx : Ctx ε) (scanErr : Option (StreamError ε)) :
    ℕ → ScanState → List Bytes → Outcome ε
  | n, s, [] =>
    match scanErr with
    | some e => ⟨[], some e⟩
    | none =>
      if s.hasData then
        match ctx.atSend n with
        | some e => ⟨[], some (.ctx e)⟩
        | none => ⟨[s.event], none⟩
      else ⟨[], none⟩
  | n, s, line :: lines =>
    match ctx.atLine n with
    | some e => ⟨[], some (.ctx e)⟩
    | none =>
      match trimRightCR line with
      | [] =>
        if s.hasData then
          match ctx.atSend n with
          | some e => ⟨[], some (.ctx e)⟩
          | none => (scanLoop ctx scanErr (n + 1) .reset lines).cons s.event
        else scanLoop ctx scanErr (n + 1) .reset lines
      | b :: rest =>
        if b = ':' then scanLoop ctx scanErr (n + 1) s lines
        else
          let (field, value) := parseSSELine (b :: rest)
          scanLoop ctx scanErr (n + 1) (s.field field value) lines

def scan (ctx : Ctx ε) (limit : ℕ) (r : Reader ε) : Outcome ε :=
  let (lines, err) := scanLines limit r
  scanLoop ctx err 0 .reset lines

/-- The buffers of `ScanEvents`. -/
structure Buffers where
  typeBuf : Bytes
  dataBuf : Bytes
  idBuf : Bytes
  hasData : Bool

/-- What a callback returns: nil, `ErrStopScan`, or another error. -/
inductive Callback (ε : Type*) where
  | ok
  | stopScan
  | err (e : ε)

/-- `emit`: look at the context, then run the callback. `none` goes on. -/
def emit (ctx : Ctx ε) (fn : Event → Callback ε) (n : ℕ) (s : Buffers) : Option (Outcome ε) :=
  match ctx.atSend n with
  | some e => some ⟨[], some (.ctx e)⟩
  | none =>
    let ev : Event := ⟨s.typeBuf, s.dataBuf, s.idBuf⟩
    match fn ev with
    | .ok => none
    | .stopScan => some ⟨[ev], none⟩
    | .err e => some ⟨[ev], some (.callback e)⟩

/-- The loop of `ScanEvents`, before the `n`-th line. -/
def scanEventsLoop (ctx : Ctx ε) (fn : Event → Callback ε) (scanErr : Option (StreamError ε)) :
    ℕ → Buffers → List Bytes → Outcome ε
  | n, s, [] =>
    match scanErr with
    | some e => ⟨[], some e⟩
    | none =>
      if s.hasData then
        match emit ctx fn n s with
        | some out => out
        | none => ⟨[⟨s.typeBuf, s.dataBuf, s.idBuf⟩], none⟩
      else ⟨[], none⟩
  | n, s, line :: lines =>
    match ctx.atLine n with
    | some e => ⟨[], some (.ctx e)⟩
    | none =>
      match trimRightCR line with
      | [] =>
        let next := scanEventsLoop ctx fn scanErr (n + 1) ⟨[], [], [], false⟩ lines
        if s.hasData then
          match emit ctx fn n s with
          | some out => out
          | none => next.cons ⟨s.typeBuf, s.dataBuf, s.idBuf⟩
        else next
      | b :: rest =>
        if b = ':'.toUInt8 then scanEventsLoop ctx fn scanErr (n + 1) s lines
        else
          let (field, value) := parseSSELine (b :: rest)
          let s' :=
            if field = bytes "data" then
              let sep := if s.hasData then ['\n'.toUInt8] else []
              { s with dataBuf := s.dataBuf ++ sep ++ value, hasData := true }
            else if field = bytes "event" then { s with typeBuf := value }
            else if field = bytes "id" ∧ (0 : UInt8) ∉ value then { s with idBuf := value }
            else s
          scanEventsLoop ctx fn scanErr (n + 1) s' lines

def scanEvents (ctx : Ctx ε) (fn : Event → Callback ε) (limit : ℕ) (r : Reader ε) : Outcome ε :=
  let (lines, err) := scanLines limit r
  scanEventsLoop ctx fn err 0 ⟨[], [], [], false⟩ lines

/-! ## The readers agree -/

def Sim (s : ScanState) (t : Buffers) : Prop :=
  t = ⟨s.eventType, s.dataBuf, s.eventID, s.hasData⟩

theorem scanEventsLoop_eq (ctx : Ctx ε) (scanErr : Option (StreamError ε)) (lines : List Bytes)
    (n : ℕ) (s : ScanState) (t : Buffers) (h : Sim s t) :
    scanEventsLoop ctx (fun _ => .ok) scanErr n t lines = scanLoop ctx scanErr n s lines := by
  induction lines generalizing n s t with
  | nil =>
    subst h
    simp only [scanEventsLoop, scanLoop, emit]
    cases scanErr with
    | some e => rfl
    | none => cases ctx.atSend n <;> rfl
  | cons line lines ih =>
    subst h
    rw [scanEventsLoop, scanLoop]
    cases ctx.atLine n with
    | some e => rfl
    | none =>
      dsimp only
      cases trimRightCR line with
      | nil =>
        dsimp only
        have hreset := ih (n + 1) .reset ⟨[], [], [], false⟩ rfl
        rw [hreset]
        cases s.hasData with
        | false => rfl
        | true =>
          unfold emit
          cases ctx.atSend n <;> rfl
      | cons b rest =>
        dsimp only
        by_cases hb : b = ':'.toUInt8
        · rw [if_pos hb, if_pos hb]
          exact ih (n + 1) s _ rfl
        rw [if_neg hb, if_neg hb]
        apply ih
        unfold Sim ScanState.field
        by_cases hdata : (parseSSELine (b :: rest)).1 = bytes "data"
        · rw [if_pos hdata, if_pos hdata]
          cases s.hasData <;> simp
        rw [if_neg hdata, if_neg hdata]
        by_cases hevent : (parseSSELine (b :: rest)).1 = bytes "event"
        · rw [if_pos hevent, if_pos hevent]
        rw [if_neg hevent, if_neg hevent]
        by_cases hid : (parseSSELine (b :: rest)).1 = bytes "id"
        · by_cases hnul : (0 : UInt8) ∈ (parseSSELine (b :: rest)).2 <;> simp [hid, hnul]
        · simp [hid]

theorem scanEvents_eq_scan (ctx : Ctx ε) (limit : ℕ) (r : Reader ε) :
    scanEvents ctx (fun _ => .ok) limit r = scan ctx limit r :=
  scanEventsLoop_eq ctx _ _ 0 .reset _ rfl

/-! ## Writing events -/

def unlines (lines : List Bytes) : Bytes :=
  lines.flatMap (· ++ ['\n'.toUInt8])

/-- A line `name: value`. -/
def fieldLine (name value : Bytes) : Bytes :=
  name ++ ':'.toUInt8 :: ' '.toUInt8 :: value

/-- An event as lines: its id, its type, a line for each piece of its data, and a blank line. -/
def eventLines (ev : Event) : List Bytes :=
  fieldLine "id" ev.id :: fieldLine "event" ev.type ::
    ((splitLF ev.data).map (fieldLine "data") ++ [[]])

def isComment (line : Bytes) : Bool :=
  line.head? = some ':'.toUInt8

/-- An event that can be written: no carriage return in it, and no line feed in its type and id. -/
structure Event.Writable (ev : Event) : Prop where
  type_cr : '\r'.toUInt8 ∉ ev.type
  type_lf : '\n'.toUInt8 ∉ ev.type
  id_cr : '\r'.toUInt8 ∉ ev.id
  id_lf : '\n'.toUInt8 ∉ ev.id
  id_nul : (0 : UInt8) ∉ ev.id
  data_cr : '\r'.toUInt8 ∉ ev.data

/-! ### Splitting and joining -/

theorem splitLF_ne_nil (s) : splitLF s ≠ [] := by
  cases s with
  | nil => simp [splitLF]
  | cons b s =>
    unfold splitLF
    split
    · simp
    · split <;> simp

theorem splitLF_append {l} (hl : '\n'.toUInt8 ∉ l) (s) :
    splitLF (l ++ '\n'.toUInt8 :: s) = l :: splitLF s := by
  induction l with
  | nil => simp [splitLF]
  | cons b l ih =>
    simp only [mem_cons, not_or] at hl
    rw [cons_append, splitLF, if_neg (Ne.symm hl.1), ih hl.2]

variable {lines : List Bytes}

theorem rawLines_unlines (h : ∀ l ∈ lines, '\n'.toUInt8 ∉ l) :
    rawLines (unlines lines) = lines := by
  have hsplit : splitLF (unlines lines) = lines ++ [[]] := by
    induction lines with
    | nil => rfl
    | cons l lines ih =>
      have hl := h l (mem_cons_self ..)
      have htail := ih fun l' hl' => h l' (mem_cons_of_mem _ hl')
      rw [unlines, flatMap_cons, List.append_assoc, singleton_append, splitLF_append hl]
      exact congrArg (l :: ·) htail
  simp [rawLines, hsplit]

variable {b : UInt8}

theorem mem_of_mem_splitLF {s piece} (h : piece ∈ splitLF s)
    (hb : b ∈ piece) : b ∈ s ∧ b ≠ '\n' := by
  induction s generalizing piece with
  | nil =>
    rw [splitLF, mem_singleton] at h
    simp [h] at hb
  | cons c s ih =>
    unfold splitLF at h
    split at h
    · rcases mem_cons.mp h with rfl | h
      · simp at hb
      · exact ⟨mem_cons_of_mem _ (ih h hb).1, (ih h hb).2⟩
    rename_i hc
    cases hs : splitLF s with
    | nil => exact absurd hs (splitLF_ne_nil s)
    | cons p ps =>
      rw [hs] at h ih
      rcases mem_cons.mp h with rfl | h
      · rcases mem_cons.mp hb with rfl | hb
        · exact ⟨mem_cons_self .., hc⟩
        · have := ih (mem_cons_self ..) hb
          exact ⟨mem_cons_of_mem _ this.1, this.2⟩
      · have := ih (mem_cons_of_mem _ h) hb
        exact ⟨mem_cons_of_mem _ this.1, this.2⟩

theorem flatMap_splitLF (s) : (splitLF s).flatMap ('\n'.toUInt8 :: ·) = '\n'.toUInt8 :: s := by
  induction s with
  | nil => rfl
  | cons b s ih =>
    unfold splitLF
    split
    · rename_i hb
      rw [flatMap_cons, ih, hb]
      rfl
    cases hs : splitLF s with
    | nil => exact absurd hs (splitLF_ne_nil s)
    | cons p ps =>
      rw [hs, flatMap_cons, cons_append, List.cons.injEq] at ih
      simp only [flatMap_cons, cons_append, List.cons.injEq, true_and]
      exact ih.2

/-! ### Reading a line -/

variable {line : Bytes}

theorem trimRightCR_of_not_mem (h : '\r'.toUInt8 ∉ line) : trimRightCR line = line := by
  unfold trimRightCR
  cases hr : line.reverse with
  | nil => simpa using hr
  | cons b t =>
    have hb : b ∈ line := by
      rw [← mem_reverse, hr]
      exact mem_cons_self ..
    have hne : ¬b = '\r'.toUInt8 := fun heq => h (heq ▸ hb)
    rw [dropWhile_cons_of_neg (by rw [decide_eq_true_iff]; exact hne), ← hr, reverse_reverse]

theorem dropCR_of_not_mem (h : '\r'.toUInt8 ∉ line) : dropCR line = line := by
  unfold dropCR
  rw [if_neg]
  intro hlast
  exact h (mem_of_getLast? hlast)

theorem trimRightCR_cons (hb : b ≠ '\r') (t) : ∃ rest, trimRightCR (b :: t) = b :: rest := by
  unfold trimRightCR
  rw [reverse_cons, dropWhile_append]
  split
  · rw [dropWhile_cons_of_neg (by rw [decide_eq_true_iff]; exact hb)]
    exact ⟨[], rfl⟩
  · rw [reverse_append]
    exact ⟨_, rfl⟩

theorem trimRightCR_dropCR_comment (h : isComment line) :
    ∃ rest, trimRightCR (dropCR line) = ':'.toUInt8 :: rest := by
  have hcolon : ':'.toUInt8 ≠ '\r'.toUInt8 := by decide
  cases line with
  | nil => cases h
  | cons b t =>
    have hb : b = ':' := by simpa [isComment] using h
    subst hb
    unfold dropCR
    split
    · rename_i hlast
      cases t with
      | nil => exact absurd (Option.some.inj hlast) hcolon
      | cons c t => exact trimRightCR_cons hcolon _
    · exact trimRightCR_cons hcolon _

variable {name : Bytes}

theorem parseSSELine_fieldLine (hname : ':'.toUInt8 ∉ name) (value) :
    parseSSELine (fieldLine name value) = (name, value) := by
  have hspan : (fieldLine name value).span (· ≠ ':'.toUInt8) =
      (name, ':'.toUInt8 :: ' '.toUInt8 :: value) := by
    have hpos : ∀ b ∈ name, decide (b ≠ ':'.toUInt8) = true := fun b hb =>
      decide_eq_true fun heq => hname (heq ▸ hb)
    rw [span_eq_takeWhile_dropWhile, fieldLine, takeWhile_append_of_pos hpos,
      dropWhile_append_of_pos hpos]
    simp
  rw [parseSSELine, hspan]
  rfl

/-! ### Reading an event -/

/-- What `scan` delivers from some lines on, without cancellation. -/
def read (s : ScanState) (lines : List Bytes) : Outcome ε :=
  scanLoop (.background ε) none 0 s lines

theorem scanLoop_background (n : ℕ) (s lines) :
    scanLoop (.background ε) none n s lines = read s lines := by
  unfold read
  induction lines generalizing n s with
  | nil => rfl
  | cons line lines ih =>
    simp only [scanLoop, Ctx.background_atLine, Ctx.background_atSend]
    cases trimRightCR line with
    | nil =>
      dsimp only
      rw [ih (n + 1), ih (0 + 1)]
    | cons b rest =>
      dsimp only
      split
      · rw [ih (n + 1), ih (0 + 1)]
      · rw [ih (n + 1), ih (0 + 1)]

theorem read_comment (s lines) (h : isComment line) :
    (read s (dropCR line :: lines) : Outcome ε) = read s lines := by
  obtain ⟨rest, hrest⟩ := trimRightCR_dropCR_comment h
  rw [← scanLoop_background 1 s lines]
  simp [read, scanLoop, hrest]

theorem read_blank (s) (hs : s.hasData = true) (lines) :
    (read s ([] :: lines) : Outcome ε) = (read .reset lines).cons s.event := by
  rw [← scanLoop_background 1 .reset lines]
  simp [read, scanLoop, trimRightCR, hs]

theorem not_mem_fieldLine {value} (hname : b ∉ name)
    (hcolon : b ≠ ':') (hspace : b ≠ ' ') (hvalue : b ∉ value) : b ∉ fieldLine name value := by
  simp only [fieldLine, mem_append, mem_cons, not_or]
  exact ⟨hname, hcolon, hspace, hvalue⟩

def fieldNames : List Bytes := ["id", "event", "data"]

theorem read_fieldLine (s) {value} (lines)
    (hname : name ∈ fieldNames) (hcr : '\r'.toUInt8 ∉ value) :
    (read s (fieldLine name value :: lines) : Outcome ε) = read (s.field name value) lines := by
  have hnames : ∀ name ∈ fieldNames,
      name ≠ [] ∧ ':'.toUInt8 ∉ name ∧ '\r'.toUInt8 ∉ name := by decide
  obtain ⟨hne, hcolon, hcrname⟩ := hnames name hname
  have hcrline := not_mem_fieldLine hcrname (by decide) (by decide) hcr
  have hparse := parseSSELine_fieldLine hcolon value
  obtain ⟨b, rest, hline⟩ := exists_cons_of_ne_nil hne
  have hb : b ≠ ':'.toUInt8 := by
    rintro rfl
    exact hcolon (hline ▸ mem_cons_self ..)
  rw [← scanLoop_background 1 (s.field name value) lines]
  subst hline
  rw [fieldLine, cons_append] at hcrline hparse ⊢
  simp only [read, scanLoop, Ctx.background_atLine, trimRightCR_of_not_mem hcrline, if_neg hb,
    hparse]

theorem read_dataLines (s) (hs : s.hasData = true) {pieces : List Bytes}
    (hcr : ∀ piece ∈ pieces, '\r'.toUInt8 ∉ piece) (lines) :
    (read s (pieces.map (fieldLine (bytes "data")) ++ lines) : Outcome ε) =
      read { s with dataBuf := s.dataBuf ++ pieces.flatMap ('\n'.toUInt8 :: ·) } lines := by
  induction pieces generalizing s with
  | nil => simp
  | cons piece pieces ih =>
    rw [map_cons, cons_append, read_fieldLine s _ (by decide) (hcr piece (mem_cons_self ..)),
      ih _ rfl fun p hp => hcr p (mem_cons_of_mem _ hp)]
    simp [ScanState.field, hs]

theorem read_eventLines {ev : Event} (h : ev.Writable) (lines) :
    (read .reset (eventLines ev ++ lines) : Outcome ε) = (read .reset lines).cons ev := by
  obtain ⟨first, rest, hpieces⟩ := exists_cons_of_ne_nil (splitLF_ne_nil ev.data)
  have hcr : ∀ piece ∈ first :: rest, '\r'.toUInt8 ∉ piece := by
    rw [← hpieces]
    exact fun piece hp hb => h.data_cr (mem_of_mem_splitLF hp hb).1
  have hdata : first ++ rest.flatMap ('\n'.toUInt8 :: ·) = ev.data := by
    have hjoin := flatMap_splitLF ev.data
    rw [hpieces, flatMap_cons, cons_append] at hjoin
    exact (List.cons.inj hjoin).2
  rw [eventLines, hpieces, cons_append, cons_append, map_cons, cons_append,
    cons_append, List.append_assoc, read_fieldLine _ _ (by decide) h.id_cr,
    read_fieldLine _ _ (by decide) h.type_cr,
    read_fieldLine _ _ (by decide) (hcr first (mem_cons_self ..)),
    read_dataLines _ rfl fun p hp => hcr p (mem_cons_of_mem _ hp), singleton_append,
    read_blank _ rfl]
  have hid : bytes "id" ≠ bytes "data" ∧ bytes "id" ≠ bytes "event" := by decide
  have hevent : bytes "event" ≠ bytes "data" := by decide
  congr 1
  simp only [ScanState.field, ScanState.event, ScanState.reset, hid.1, hid.2, hevent, h.id_nul,
    if_true, if_false, Bool.false_eq_true, nil_append, hdata]

/-! ### Reading a stream -/

theorem read_congr {lines'} (h : ∀ s, (read s lines : Outcome ε) = read s lines') (s line) :
    (read s (line :: lines) : Outcome ε) = read s (line :: lines') := by
  have hloop : ∀ n s, scanLoop (.background ε) none n s lines =
      scanLoop (.background ε) none n s lines' := by
    intro n s
    rw [scanLoop_background, scanLoop_background, h]
  simp only [read, scanLoop, hloop]

theorem read_filter (hcr : ∀ l ∈ lines, isComment l = false → '\r'.toUInt8 ∉ l) (s) :
    (read s (lines.map dropCR) : Outcome ε) = read s (lines.filter fun l => !isComment l) := by
  induction lines generalizing s with
  | nil => rfl
  | cons line lines ih =>
    have ih' := fun s => ih (fun l hl => hcr l (mem_cons_of_mem _ hl)) s
    cases hc : isComment line with
    | true =>
      rw [map_cons, read_comment s _ hc, ih', filter_cons_of_neg (by simp [hc])]
    | false =>
      have hplain := hcr line (mem_cons_self ..) hc
      rw [map_cons, filter_cons_of_pos (by simp [hc]), dropCR_of_not_mem hplain]
      exact read_congr ih' s line

variable {events : List Event}

theorem read_events (h : ∀ ev ∈ events, ev.Writable) :
    (read .reset (events.flatMap eventLines) : Outcome ε) = ⟨events, none⟩ := by
  induction events with
  | nil => rfl
  | cons ev events ih =>
    rw [flatMap_cons, read_eventLines (h ev (mem_cons_self ..)),
      ih fun e he => h e (mem_cons_of_mem _ he)]
    rfl

theorem not_mem_eventLines {ev} (h : ev.Writable)
    (hl : line ∈ eventLines ev) : '\r'.toUInt8 ∉ line ∧ '\n'.toUInt8 ∉ line := by
  simp only [eventLines, mem_cons, mem_append, mem_map, not_mem_nil, or_false] at hl
  rcases hl with rfl | rfl | ⟨piece, hpiece, rfl⟩ | rfl
  · exact ⟨not_mem_fieldLine (by decide) (by decide) (by decide) h.id_cr,
      not_mem_fieldLine (by decide) (by decide) (by decide) h.id_lf⟩
  · exact ⟨not_mem_fieldLine (by decide) (by decide) (by decide) h.type_cr,
      not_mem_fieldLine (by decide) (by decide) (by decide) h.type_lf⟩
  · exact ⟨not_mem_fieldLine (by decide) (by decide) (by decide)
        fun hb => h.data_cr (mem_of_mem_splitLF hpiece hb).1,
      not_mem_fieldLine (by decide) (by decide) (by decide)
        fun hb => (mem_of_mem_splitLF hpiece hb).2 rfl⟩
  · exact ⟨not_mem_nil, not_mem_nil⟩

/-- The lines of a written stream: the lines of its events in order, with comments anywhere in
between. -/
structure Written (events : List Event) (lines : List Bytes) : Prop where
  events_eq : lines.filter (fun l => !isComment l) = events.flatMap eventLines
  comments : ∀ l ∈ lines, isComment l = true → '\n'.toUInt8 ∉ l

theorem Written.not_mem (h : Written events lines)
    (hw : ∀ ev ∈ events, ev.Writable) (hl : line ∈ lines)
    (hc : isComment line = false) : '\r'.toUInt8 ∉ line ∧ '\n'.toUInt8 ∉ line := by
  have hmem : line ∈ events.flatMap eventLines := by
    rw [← h.events_eq]
    exact mem_filter.mpr ⟨hl, by simp [hc]⟩
  obtain ⟨ev, hev, hline⟩ := mem_flatMap.mp hmem
  exact not_mem_eventLines (hw ev hev) hline

theorem scan_written (hw : ∀ ev ∈ events, ev.Writable) (h : Written events lines) {limit : ℕ}
    (hlimit : ∀ l ∈ lines, l.length < limit) :
    scan (.background ε) limit ⟨unlines lines, none⟩ = ⟨events, none⟩ := by
  have hlf : ∀ l ∈ lines, '\n'.toUInt8 ∉ l := by
    intro l hl
    cases hc : isComment l with
    | true => exact h.comments l hl hc
    | false => exact (h.not_mem hw hl hc).2
  have hfit : lines.takeWhile (fun l => l.length < limit) = lines :=
    takeWhile_eq_self_iff.mpr fun l hl => decide_eq_true (hlimit l hl)
  simp only [scan, scanLines, rawLines_unlines hlf, hfit, lt_irrefl, if_false, Option.map_none]
  rw [scanLoop_background, read_filter fun l hl hc => (h.not_mem hw hl hc).1, h.events_eq,
    read_events hw]

/-- The readers deliver the same events of every stream, and read back every written stream whose
lines fit the scanner. -/
theorem readers_agree :
    (∀ r : Reader ε,
      scanEvents (.background ε) (fun _ => .ok) scannerMaxTokenSize r =
        scan (.background ε) scannerMaxTokenSize r) ∧
    ∀ (events : List Event) (lines : List Bytes), (∀ ev ∈ events, ev.Writable) →
      Written events lines → (∀ l ∈ lines, l.length < scannerMaxTokenSize) →
      scan (.background ε) scannerMaxTokenSize ⟨unlines lines, none⟩ = ⟨events, none⟩ ∧
        scanEvents (.background ε) (fun _ => .ok) scannerMaxTokenSize ⟨unlines lines, none⟩ =
          ⟨events, none⟩ := by
  refine ⟨fun r => scanEvents_eq_scan _ _ r, fun events lines hw h hlimit => ?_⟩
  rw [scanEvents_eq_scan]
  exact ⟨scan_written hw h hlimit, scan_written hw h hlimit⟩

end

/-- An event with two data lines, after a keepalive. -/
theorem readers_agree_keepalive :
    scan (.background Empty) scannerMaxTokenSize
        ⟨unlines (bytes ": keepalive" :: eventLines ⟨bytes "delta", bytes "a\nb", bytes "7"⟩),
          none⟩ =
      ⟨[⟨bytes "delta", bytes "a\nb", bytes "7"⟩], none⟩ :=
  (readers_agree.2 [⟨bytes "delta", bytes "a\nb", bytes "7"⟩]
    (bytes ": keepalive" :: eventLines ⟨bytes "delta", bytes "a\nb", bytes "7"⟩)
    (by
      intro ev hev
      rw [mem_singleton.mp hev]
      exact ⟨by decide, by decide, by decide, by decide, by decide, by decide⟩)
    ⟨by decide +kernel, by decide +kernel⟩ (by decide +kernel)).1

/-- An id with a null byte is written, but not read. -/
theorem scan_id_nul :
    Written [⟨[], bytes "x", [0]⟩] (eventLines ⟨[], bytes "x", [0]⟩) ∧
      scan (.background Empty) scannerMaxTokenSize
          ⟨unlines (eventLines ⟨[], bytes "x", [0]⟩), none⟩ =
        ⟨[⟨[], bytes "x", []⟩], none⟩ := by
  refine ⟨⟨by decide +kernel, by decide +kernel⟩, by decide +kernel⟩

end BamlRest.Sse
