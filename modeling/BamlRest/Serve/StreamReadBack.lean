import BamlRest.Serve.StreamWriter

/-!
# Reading a published stream back

The bytes that `consumeStream` writes, with keepalive comments anywhere between the frames, give the
events of the worker when they are read with `ScanEvents`.

* `consumeStream_readBack`: for results without transformations whose lines the scanner takes.
-/

namespace BamlRest.Serve

open List Effects Sse Handler

/-! ### Reading back -/

/-- A payload that the scanner takes: no carriage return, and no line that is too long with the name
of its field. -/
structure Fits (payload : Bytes) : Prop where
  cr : '\r'.toUInt8 ∉ payload
  lines : ∀ line ∈ splitLF payload,
    (fieldLine "data" line).length < scannerMaxTokenSize

/-- The text of a keepalive comment. -/
def keepalive : Bytes := "keepalive"

/-- Some writes, with keepalive comments in between. -/
structure Interleaved (writes ws : List Write) : Prop where
  events : ws.filter (·.isEvent) = writes
  comments : ∀ text, .comment text ∈ ws → text = keepalive

/-- The lines of a write. -/
def Write.lines : Write → List Bytes
  | .event type payload => frameLines type payload
  | .comment text => [": " ++ text, []]

open Write

theorem Write.frame_eq (w : Write) : w.frame = unlines w.lines := by
  cases w with
  | event type payload => exact appendSSEEventFrame_eq type payload
  | comment text =>
    have hbytes : bytes "\n\n" = ['\n', '\n'] := by decide
    simp [frame, lines, appendSSECommentFrame, unlines, hbytes]

variable {ε : Type}

theorem read_reset_blank (lines) : (read .reset ([] :: lines) : Outcome ε) = read .reset lines := by
  rw [← scanLoop_background 1 .reset lines]
  simp [Sse.read, scanLoop, trimRightCR, ScanState.reset]

theorem read_keepalive (lines) :
    (read .reset ((comment keepalive).lines ++ lines) : Outcome ε) = read .reset lines := by
  have hcomment : isComment (": " ++ keepalive) := by decide
  have hplain : dropCR (": " ++ keepalive) = ": " ++ keepalive := by decide
  rw [Write.lines, cons_append, ← hplain, read_comment _ _ hcomment]
  exact read_reset_blank lines

theorem type_plain {type} (h : type ∈ eventTypes) : '\r'.toUInt8 ∉ type ∧ '\n'.toUInt8 ∉ type ∧
      (fieldLine "event" type).length < scannerMaxTokenSize := by
  have hall : ∀ type ∈ eventTypes, '\r'.toUInt8 ∉ type ∧ '\n'.toUInt8 ∉ type ∧
      (fieldLine "event" type).length < scannerMaxTokenSize := by decide
  exact hall type h

theorem read_frameLines {type payload} (htype : type ∈ eventTypes)
    (hne : payload ≠ []) (hcr : '\r'.toUInt8 ∉ payload) (lines) :
    (read .reset (frameLines type payload ++ lines) : Outcome ε) =
      (read .reset lines).cons ⟨type, payload, []⟩ := by
  obtain ⟨first, rest, hpieces⟩ := exists_cons_of_ne_nil (splitLF_ne_nil payload)
  have hcr : ∀ piece ∈ first :: rest, '\r'.toUInt8 ∉ piece := by
    rw [← hpieces]
    exact fun piece hp hb => hcr (mem_of_mem_splitLF hp hb).1
  have hdata : first ++ rest.flatMap ('\n'.toUInt8 :: ·) = payload := by
    have hjoin := flatMap_splitLF payload
    rw [hpieces, flatMap_cons, cons_append] at hjoin
    exact (List.cons.inj hjoin).2
  -- the data lines and the blank line, after the type has been read
  have hlines : ∀ s : ScanState, s.hasData = false → s.dataBuf = [] → s.eventID = [] →
      (read s ((splitLF payload).map (fieldLine "data") ++ [] :: lines) : Outcome ε) =
        (read .reset lines).cons ⟨s.eventType, payload, []⟩ := by
    intro s hs hbuf hid
    rw [hpieces, map_cons, cons_append,
      read_fieldLine _ _ (by decide) (hcr first (mem_cons_self ..)),
      read_dataLines _ rfl fun p hp => hcr p (mem_cons_of_mem _ hp), read_blank _ rfl]
    simp only [ScanState.field, ScanState.event, hs, hbuf, hid, if_true, Bool.false_eq_true,
      if_false, nil_append, hdata]
  have hevent : bytes "event" ≠ bytes "data" := by decide
  rw [frameLines, if_pos hne]
  by_cases hempty : type = []
  · rw [if_neg (not_not.mpr hempty), nil_append, List.append_assoc, singleton_append,
      hlines .reset rfl rfl rfl, hempty]
    rfl
  rw [if_pos hempty, List.append_assoc, List.append_assoc, singleton_append,
    singleton_append, read_fieldLine _ _ (by decide) (type_plain htype).1]
  refine (hlines _ ?_ ?_ ?_).trans ?_ <;> simp [ScanState.field, ScanState.reset, hevent]

theorem read_writes {evs ws} (hws : Interleaved (writesOf evs) ws) (hevs : ∀ ev ∈ evs, Proper ev)
    (hcr : ∀ ev ∈ evs, '\r'.toUInt8 ∉ ev.data) :
    (read .reset (ws.flatMap lines) : Outcome ε) = ⟨evs, none⟩ := by
  induction ws generalizing evs with
  | nil =>
    cases evs with
    | nil => rfl
    | cons ev evs => cases hws.events
  | cons w ws ih =>
    rw [flatMap_cons]
    have htail := fun text ht => hws.comments text (mem_cons_of_mem _ ht)
    cases w with
    | comment text =>
      obtain rfl := hws.comments text (mem_cons_self ..)
      rw [read_keepalive]
      exact ih ⟨hws.events, htail⟩ hevs hcr
    | event type payload =>
      have hevents := hws.events
      rw [filter_cons_of_pos rfl] at hevents
      cases evs with
      | nil => cases hevents
      | cons ev evs =>
        obtain ⟨hev, hrest⟩ := List.cons.inj hevents
        cases hev
        have hproper := hevs ev (mem_cons_self ..)
        rw [lines, read_frameLines hproper.type hproper.data
            (hcr ev (mem_cons_self ..)),
          ih ⟨hrest, htail⟩ (fun ev hev => hevs ev (mem_cons_of_mem _ hev))
            fun ev hev => hcr ev (mem_cons_of_mem _ hev)]
        obtain ⟨evType, evData, evId⟩ := ev
        obtain rfl : evId = [] := hproper.id
        rfl

theorem plain_of_mem_lines {evs ws}
    (hws : Interleaved (writesOf evs) ws) (hevs : ∀ ev ∈ evs, Proper ev)
    (hfits : ∀ ev ∈ evs, Fits ev.data) {line} (hline : line ∈ ws.flatMap lines) :
    '\r'.toUInt8 ∉ line ∧ '\n'.toUInt8 ∉ line ∧ line.length < scannerMaxTokenSize := by
  obtain ⟨w, hw, hline⟩ := mem_flatMap.mp hline
  have hblank : '\r'.toUInt8 ∉ ([] : Bytes) ∧ '\n'.toUInt8 ∉ ([] : Bytes) ∧
      ([] : Bytes).length < scannerMaxTokenSize := by decide
  cases w with
  | comment text =>
    obtain rfl := hws.comments text hw
    rcases mem_cons.mp hline with rfl | hline
    · decide
    · rw [mem_singleton.mp hline]
      exact hblank
  | event type payload =>
    have hmem : event type payload ∈ writesOf evs := by
      rw [← hws.events]
      exact mem_filter.mpr ⟨hw, rfl⟩
    obtain ⟨ev, hev, heq⟩ := mem_map.mp hmem
    cases heq
    have htype := type_plain (hevs ev hev).type
    have hfit := hfits ev hev
    rw [lines, frameLines] at hline
    rcases mem_append.mp hline with hline | hline
    · rcases mem_append.mp hline with hline | hline
      · split at hline
        · rw [mem_singleton.mp hline]
          exact ⟨not_mem_fieldLine (by decide) (by decide) (by decide) htype.1,
            not_mem_fieldLine (by decide) (by decide) (by decide) htype.2.1, htype.2.2⟩
        · cases hline
      split at hline
      · obtain ⟨piece, hpiece, rfl⟩ := mem_map.mp hline
        exact ⟨not_mem_fieldLine (by decide) (by decide) (by decide)
            fun hb => hfit.cr (mem_of_mem_splitLF hpiece hb).1,
          not_mem_fieldLine (by decide) (by decide) (by decide)
            fun hb => (mem_of_mem_splitLF hpiece hb).2 rfl, hfit.lines piece hpiece⟩
      · cases hline
    · rw [mem_singleton.mp hline]
      exact hblank

theorem flatMap_frame (ws : List Write) : ws.flatMap frame = unlines (ws.flatMap lines) := by
  rw [unlines, flatMap_assoc]
  exact congrArg (ws.flatMap ·) (funext frame_eq)

theorem scanEvents_writes {evs ws}
    (hws : Interleaved (writesOf evs) ws) (hevs : ∀ ev ∈ evs, Proper ev)
    (hfits : ∀ ev ∈ evs, Fits ev.data) :
    scanEvents (.background ε) (fun _ => .ok) scannerMaxTokenSize
        ⟨ws.flatMap frame, none⟩ = ⟨evs, none⟩ := by
  have hplain := fun line => @plain_of_mem_lines evs ws hws hevs hfits line
  have hfit : (ws.flatMap lines).takeWhile (fun l => l.length < scannerMaxTokenSize) =
      ws.flatMap lines :=
    takeWhile_eq_self_iff.mpr fun l hl => decide_eq_true (hplain l hl).2.2
  have hcr : (ws.flatMap lines).map dropCR = ws.flatMap lines :=
    (map_congr_left fun l hl => dropCR_of_not_mem (hplain l hl).1).trans (map_id' _)
  rw [scanEvents_eq_scan, flatMap_frame]
  simp only [Sse.scan, scanLines, rawLines_unlines fun l hl => (hplain l hl).2.1, hfit, lt_irrefl,
    if_false, Option.map_none, hcr]
  rw [scanLoop_background]
  exact read_writes hws hevs fun ev hev => (hfits ev hev).cr

/-- For every sequence of results whose frames carry what they should, without transformations and
on a connection that never fails: what is written, with keepalive comments anywhere between the
frames, is read back as the events that are meant, if the records can be written as JSON and the
scanner takes their lines. -/
theorem consumeStream_readBack {h : Handler} (hp : h.Plain) {rs : List StreamResult}
    (hcarry : ∀ r ∈ rs, r.Carries) {evs : List Event} (hevs : h.published rs = some evs)
    (hfits : ∀ ev ∈ evs, Fits ev.data) {ws : List Write}
    (hws : Interleaved ((h.consumeStream [] [] rs).run .fresh).2.writes ws) :
    scanEvents (.background ε) (fun _ => .ok) scannerMaxTokenSize
        ⟨ws.flatMap Write.frame, none⟩ = ⟨evs, none⟩ := by
  have hwrote : ((h.consumeStream [] [] rs).run .fresh).2.writes = Handler.writesOf evs :=
    Handler.wrote_consumeStream hp hcarry (fun _ => ⟨rfl, rfl⟩) hevs .fresh
  rw [hwrote] at hws
  exact scanEvents_writes hws (Handler.proper_of_publishedFrom hcarry hevs) hfits

/-! ### Runs -/

/-- A library that writes the two records. -/
def plainSonic : Sonic where
  callWithRaw data raw reasoning :=
    some (bytes "\x7b\"data\":" ++ data ++ bytes ",\"raw\":\"" ++ raw ++ bytes "\"" ++
      (if reasoning = [] then [] else bytes ",\"reasoning\":\"" ++ reasoning ++ bytes "\"") ++
      bytes "\x7d")
  errorEnvelope msg code _ :=
    some (bytes "\x7b\"error\":\"" ++ msg ++ bytes "\",\"code\":\"" ++ code ++ bytes "\"\x7d")
  callWithRaw_ne_nil := by
    intro data raw reasoning p hp
    cases hp
    simp [bytes]
  errorEnvelope_ne_nil := by
    intro msg code details p hp
    cases hp
    simp [bytes]

/-- A handler that asks for raw text. -/
def rawHandler : Handler where
  needsRaw := true
  sonic := plainSonic
  classifyStreamResultError _ := ("worker_error", [])
  flatten := none
  finalReorder := none
  conn _ := true

theorem rawHandler_plain : rawHandler.Plain := ⟨rfl, rfl, fun _ => rfl⟩

/-- A frame with data and a raw text. -/
def textFrame (kind : StreamResultKind) (data raw : Bytes) (reset : Bool) : StreamResult :=
  ⟨kind, data, raw, [], none, [], reset, [], []⟩

/-- Two deltas, a reset on a third one, and the final result, with a keepalive in between. -/
theorem consumeStream_readBack_reset :
    scanEvents (.background Empty) (fun _ => .ok) scannerMaxTokenSize
        ⟨[Write.event [] (bytes "\x7b\"data\":1,\"raw\":\"a\"\x7d"),
            .event [] (bytes "\x7b\"data\":2,\"raw\":\"ab\"\x7d"), .comment keepalive,
            .event sseEventReset (bytes "\x7b\x7d"),
            .event [] (bytes "\x7b\"data\":3,\"raw\":\"c\"\x7d"),
            .event sseEventFinal (bytes "\x7b\"data\":3,\"raw\":\"cd\"\x7d")].flatMap Write.frame,
          none⟩ =
      ⟨[⟨[], bytes "\x7b\"data\":1,\"raw\":\"a\"\x7d", []⟩,
        ⟨[], bytes "\x7b\"data\":2,\"raw\":\"ab\"\x7d", []⟩,
        ⟨sseEventReset, bytes "\x7b\x7d", []⟩,
        ⟨[], bytes "\x7b\"data\":3,\"raw\":\"c\"\x7d", []⟩,
        ⟨sseEventFinal, bytes "\x7b\"data\":3,\"raw\":\"cd\"\x7d", []⟩], none⟩ := by
  refine @consumeStream_readBack Empty rawHandler rawHandler_plain
    [textFrame .stream (bytes "1") (bytes "a") false, textFrame .stream (bytes "2") (bytes "b") false,
      textFrame .stream (bytes "3") (bytes "c") true, textFrame .final (bytes "3") (bytes "cd") false]
    ?_ _ (by decide +kernel) ?_ _ ⟨by decide +kernel, ?_⟩
  · simp [textFrame, StreamResult.Carries, bytes]
  · have hall : ∀ payload ∈ [bytes "\x7b\"data\":1,\"raw\":\"a\"\x7d",
        bytes "\x7b\"data\":2,\"raw\":\"ab\"\x7d", bytes "\x7b\x7d",
        bytes "\x7b\"data\":3,\"raw\":\"c\"\x7d", bytes "\x7b\"data\":3,\"raw\":\"cd\"\x7d"],
        '\r'.toUInt8 ∉ payload ∧ ∀ line ∈ splitLF payload,
          (fieldLine (bytes "data") line).length < scannerMaxTokenSize := by decide +kernel
    intro ev hev
    have hmem := hall ev.data (by
      simp only [mem_cons, not_mem_nil, or_false] at hev ⊢
      rcases hev with rfl | rfl | rfl | rfl | rfl <;> simp)
    exact ⟨hmem.1, hmem.2⟩
  · intro text htext
    simpa using htext

/-! A stream frame repeats all the raw text since the last reset, so that the lines of the events
may be too long although no frame of the worker is. -/

theorem scanLoop_err {e} (n : ℕ) (s lines) :
    (scanLoop (.background ε) (some e) n s lines).err = some e := by
  induction lines generalizing n s with
  | nil => rfl
  | cons line lines ih =>
    simp only [scanLoop, Ctx.background_atLine, Ctx.background_atSend]
    repeat' split
    all_goals exact ih _ _

theorem scanEvents_tooLong {lines} (hlf : ∀ l ∈ lines, '\n'.toUInt8 ∉ l)
    {line} (hline : line ∈ lines) (hlong : scannerMaxTokenSize ≤ line.length) :
    (scanEvents (.background ε) (fun _ => .ok) scannerMaxTokenSize ⟨unlines lines, none⟩).err =
      some .tooLong := by
  have hshort : (lines.takeWhile (fun l => l.length < scannerMaxTokenSize)).length <
      lines.length := by
    have hpre : lines.takeWhile (fun l => l.length < scannerMaxTokenSize) <+: lines :=
      takeWhile_prefix _
    refine lt_of_le_of_ne hpre.length_le fun heq => ?_
    have hall := takeWhile_eq_self_iff.mp (hpre.eq_of_length heq) line hline
    rw [decide_eq_true_iff] at hall
    omega
  rw [scanEvents_eq_scan]
  simp only [Sse.scan, scanLines, rawLines_unlines hlf, hshort, if_true]
  exact scanLoop_err _ _ _

/-- A text that fills half a line. -/
def longText : Bytes := List.replicate (scannerMaxTokenSize / 2) 'x'

theorem not_mem_longText {b : UInt8} (hb : b ≠ 'x') : b ∉ longText :=
  fun hmem => hb (mem_replicate.mp hmem).2

theorem longText_fits : Fits longText := by
  refine ⟨not_mem_longText (by decide), fun line hline => ?_⟩
  rw [splitLF_of_not_mem (not_mem_longText (by decide)), mem_singleton] at hline
  rw [hline, fieldLine, length_append, length_cons, length_cons, longText, length_replicate]
  decide

/-- The record of a raw text. -/
def rawPayload (text : Bytes) : Bytes :=
  bytes "\x7b\"data\":" ++ bytes "1" ++ bytes ",\"raw\":\"" ++ text ++ bytes "\"" ++ [] ++ bytes "\x7d"

theorem frameLines_rawPayload {text} (h : '\n'.toUInt8 ∉ text) :
    '\n'.toUInt8 ∉ fieldLine (bytes "data") (rawPayload text) ∧
      frameLines [] (rawPayload text) = [fieldLine (bytes "data") (rawPayload text), []] := by
  have hlf : '\n'.toUInt8 ∉ rawPayload text := by
    simp only [rawPayload, mem_append, not_or, h, not_false_eq_true, and_true]
    decide
  have hne : rawPayload text ≠ [] := by simp [rawPayload, bytes]
  refine ⟨not_mem_fieldLine (by decide) (by decide) (by decide) hlf, ?_⟩
  rw [frameLines, if_pos hne, splitLF_of_not_mem hlf]
  rfl

theorem published_pair (text) : rawHandler.published
        [textFrame .stream "1" text false, textFrame .stream "1" text false] =
      some [⟨[], rawPayload text, []⟩, ⟨[], rawPayload (text ++ text), []⟩] := by
  simp [published, publishedFrom, eventsOf, textFrame, rawSince,
    reasoningSince, textSince, sinceReset, StreamResult.clears, StreamResult.isPureReset,
    formatPayload, rawHandler, plainSonic, rawPayload]

theorem carries_textFrame (text) : (textFrame .stream "1" text false).Carries := by
  have hdata : bytes "1" ≠ [] := by decide
  exact .inr hdata

theorem scanEvents_pair_tooLong {text} (hlf : '\n'.toUInt8 ∉ text)
    (hlong : scannerMaxTokenSize ≤ text.length + text.length) :
    (scanEvents (.background Empty) (fun _ => .ok) scannerMaxTokenSize
      ⟨((rawHandler.consumeStream [] [] [textFrame .stream "1" text false,
            textFrame .stream "1" text false]).run .fresh).2.writes.flatMap frame,
        none⟩).err = some .tooLong := by
  have hwrote : ((rawHandler.consumeStream [] []
      [textFrame .stream "1" text false,
        textFrame .stream "1" text false]).run .fresh).2.writes =
      [.event [] (rawPayload text), .event [] (rawPayload (text ++ text))] :=
    wrote_consumeStream rawHandler_plain (by simp [carries_textFrame])
      (fun _ => ⟨rfl, rfl⟩) (published_pair text) .fresh
  have hlf' : '\n'.toUInt8 ∉ text ++ text := fun hmem => (mem_append.mp hmem).elim hlf hlf
  obtain ⟨hfirst, hlines₁⟩ := frameLines_rawPayload hlf
  obtain ⟨hsecond, hlines₂⟩ := frameLines_rawPayload hlf'
  rw [hwrote, flatMap_frame, flatMap_cons, flatMap_cons, flatMap_nil, lines,
    lines, hlines₁, hlines₂]
  have hmem : fieldLine "data" (rawPayload (text ++ text)) ∈
      [fieldLine "data" (rawPayload text), []] ++
        ([fieldLine "data" (rawPayload (text ++ text)), []] ++ []) := by simp
  refine scanEvents_tooLong ?_ hmem ?_
  · simp only [cons_append, nil_append, append_nil, mem_cons, not_mem_nil, or_false]
    rintro l (rfl | rfl | rfl | rfl)
    · exact hfirst
    · exact not_mem_nil
    · exact hsecond
    · exact not_mem_nil
  · simp only [fieldLine, rawPayload, length_append, length_cons]
    omega

/-- Two frames of a worker whose texts have no carriage return and no line near the limit of the
scanner. In raw mode the second event repeats the text of the first, and cannot be read. -/
theorem consumeStream_readBack_tooLong :
    rawHandler.Plain ∧
    (∀ r ∈ [textFrame .stream (bytes "1") longText false,
        textFrame .stream (bytes "1") longText false],
      r.Carries ∧ Fits r.data ∧ Fits r.raw ∧ Fits r.reasoning) ∧
    (scanEvents (.background Empty) (fun _ => .ok) scannerMaxTokenSize
      ⟨((rawHandler.consumeStream [] []
          [textFrame .stream (bytes "1") longText false,
            textFrame .stream (bytes "1") longText false]).run .fresh).2.writes.flatMap Write.frame,
        none⟩).err = some .tooLong := by
  refine ⟨rawHandler_plain, fun r hr => ?_, scanEvents_pair_tooLong ?_ ?_⟩
  · simp only [mem_cons, not_mem_nil, or_false, or_self] at hr
    rw [hr]
    have hdata : Fits (bytes "1") := ⟨by decide, by decide⟩
    have hreasoning : Fits [] := ⟨by decide, by decide⟩
    exact ⟨carries_textFrame longText, hdata, longText_fits, hreasoning⟩
  · exact not_mem_longText (by decide)
  · rw [longText, length_replicate]
    decide

end BamlRest.Serve
