import BamlRest.Lib.Delimiter
import BamlRest.Text.Unmarshal

/-!
# From the rendered template to the prompt

A template is rendered to one text. `lower` reads the messages of a chat off it: a role helper
leaves a marker between two delimiters, and so does a medium; what stands in between is text.
-/

namespace BamlRest.NativePrompt

open List Delimiter

/-! ### Delimiters and markers -/

/-- `roleDelim`, around the marker of a role. -/
def roleDelim : Bytes := "BAML_CHAT_ROLE_MAGIC_STRING_DELIMITER"
/-- `mediaDelim`, around the marker of a medium. -/
def mediaDelim : Bytes := "BAML_MEDIA_MAGIC_STRING_DELIMITER"

/-- Where the marker of a role starts. -/
def roleMarkerPrefix : Bytes := ":baml-start-baml:"
/-- Where it ends. -/
def roleMarkerSuffix : Bytes := ":baml-end-baml:"

/-- Where the marker of a medium starts. -/
def mediaMarkerPrefix : Bytes := ":baml-start-media:"
/-- Where it ends. -/
def mediaMarkerSuffix : Bytes := ":baml-end-media:"

/-- The key of the flag in a role marker. -/
def allowDupeRoleKey : Bytes := "__baml_allow_dupe_role__"
/-- The key of the role. -/
def roleKey : Bytes := "role"

/-- A chunk between the two ends of a marker. -/
def isMarker (before after chunk : Bytes) : Bool :=
  before.isPrefixOf chunk && after.isSuffixOf chunk

/-- `strings.TrimSuffix(strings.TrimPrefix(chunk, before), after)`. -/
def trimMarker (before after chunk : Bytes) : Bytes :=
  let s := if before.isPrefixOf chunk then chunk.drop before.length else chunk
  if after.isSuffixOf s then s.take (s.length - after.length) else s

/-- `isRoleMarker`. -/
def isRoleMarker (chunk : Bytes) : Bool := isMarker roleMarkerPrefix roleMarkerSuffix chunk

/-- `isMediaMarker`. -/
def isMediaMarker (seg : Bytes) : Bool := isMarker mediaMarkerPrefix mediaMarkerSuffix seg

/-! ### Prompts -/

/-- A medium of a message. -/
structure MediaPart where
  kind : Bytes
  url : Bytes
  base64 : Bytes
  mime : Bytes

/-- A part of a message. -/
inductive Part where
  | text (s : Bytes)
  | media (m : MediaPart)

/-- `RenderedMessage`. The metadata is nil when there is none. -/
structure RenderedMessage where
  role : Bytes
  allowDuplicateRole : Bool
  meta_ : List (Bytes × Any)
  parts : List Part

/-- A prompt: one text, or messages. -/
inductive RenderedPrompt where
  | completion (s : Bytes)
  | chat (messages : List RenderedMessage)

/-- The errors of `Lower`. -/
inductive LowerError where
  | parseRoleMarker (inner : Bytes)
  | missingRole (inner : Bytes)
  | parseMediaMarker (inner : Bytes)
  | beforeFirstRole

/-- `parseRoleMarker`: the role, whether it may repeat, and the other entries. -/
def parseRoleMarker (chunk : Bytes) : Except LowerError (Bytes × Bool × List (Bytes × Any)) :=
  let inner := trimMarker roleMarkerPrefix roleMarkerSuffix chunk
  match unmarshalMap inner with
  | none => .error (.parseRoleMarker inner)
  | some raw =>
    match lookup raw roleKey with
    | some (.string role) =>
      let allowDupe := match lookup raw allowDupeRoleKey with
        | some (.bool b) => b
        | _ => false
      .ok (role, allowDupe, raw.filter fun e => e.1 ≠ roleKey ∧ e.1 ≠ allowDupeRoleKey)
    | _ => .error (.missingRole inner)

/-- `parseMediaMarker`. -/
def parseMediaMarker (seg : Bytes) : Except LowerError MediaPart :=
  let inner := trimMarker mediaMarkerPrefix mediaMarkerSuffix seg
  match unmarshalStrings ["kind", "url", "base64", "mime"] inner with
  | none => .error (.parseMediaMarker inner)
  | some m =>
    let get (name : String) := (lookup m (bytes name)).getD []
    .ok ⟨get "kind", get "url", get "base64", get "mime"⟩

/-- A segment between media delimiters: a medium, or a text that is not blank. -/
def parseSegment (seg : Bytes) : Except LowerError (List Part) :=
  if isMediaMarker seg then (parseMediaMarker seg).map fun m => [.media m]
  else if trimSpace seg = [] then .ok []
  else .ok [.text (trimSpace seg)]

/-- The parts of the segments, up to the first error. -/
def parseSegments : List Bytes → Except LowerError (List Part)
  | [] => .ok []
  | seg :: segs =>
    match parseSegment seg with
    | .error err => .error err
    | .ok ps => (parseSegments segs).map (ps ++ ·)

/-- `parseBody`. -/
def parseBody (chunk : Bytes) : Except LowerError (List Part) :=
  parseSegments (split mediaDelim chunk)

/-- Parts go to the last message; before the first role they are an error. -/
def appendParts (messages : List RenderedMessage) (parts : List Part) :
    Except LowerError (List RenderedMessage) :=
  match messages.getLast? with
  | none => .error .beforeFirstRole
  | some m => .ok (messages.dropLast ++ [{ m with parts := m.parts ++ parts }])

/-- One chunk: a marker opens a message, anything else is content. -/
def lowerChunk (messages : List RenderedMessage) (chunk : Bytes) :
    Except LowerError (List RenderedMessage) :=
  if isRoleMarker chunk then
    (parseRoleMarker chunk).map fun (role, allowDupe, meta_) =>
      messages ++ [⟨role, allowDupe, meta_, []⟩]
  else
    match parseBody chunk with
    | .error err => .error err
    | .ok [] => .ok messages
    | .ok (p :: ps) => appendParts messages (p :: ps)

/-- The loop of `Lower` over the chunks. -/
def lowerFrom (messages : List RenderedMessage) :
    List Bytes → Except LowerError (List RenderedMessage)
  | [] => .ok messages
  | chunk :: chunks =>
    match lowerChunk messages chunk with
    | .error err => .error err
    | .ok messages' => lowerFrom messages' chunks

/-- `Lower`. -/
def lower (rendered : Bytes) : Except LowerError RenderedPrompt :=
  if !hasInfix roleDelim rendered && !hasInfix mediaDelim rendered then .ok (.completion rendered)
  else (lowerFrom [] (split roleDelim rendered)).map .chat

/-! ### Pieces without markers -/

/-- The parts of a body without media: its text, unless that is blank. -/
def textParts (body : Bytes) : List Part :=
  if trimSpace body = [] then [] else [.text (trimSpace body)]

variable {body : Bytes}

theorem parseBody_of_text (hdelim : ¬mediaDelim <:+: body)
    (hmarker : isMediaMarker body = false) : parseBody body = .ok (textParts body) := by
  rw [parseBody, split_eq_singleton hdelim, parseSegments, parseSegment, hmarker, textParts]
  by_cases hblank : trimSpace body = [] <;> simp [hblank, parseSegments, Except.map]

theorem appendParts_append (messages m parts) :
    appendParts (messages ++ [m]) parts = .ok (messages ++ [{ m with parts := m.parts ++ parts }]) := by
  rw [appendParts, getLast?_concat, dropLast_concat]

variable {messages : List RenderedMessage}

theorem lowerChunk_of_text {m} (hrole : isRoleMarker body = false) (hdelim : ¬mediaDelim <:+: body)
    (hmarker : isMediaMarker body = false) : lowerChunk (messages ++ [m]) body =
      .ok (messages ++ [{ m with parts := m.parts ++ textParts body }]) := by
  rw [lowerChunk, hrole, if_neg Bool.false_ne_true, parseBody_of_text hdelim hmarker]
  by_cases hblank : trimSpace body = []
  · simp [textParts, hblank]
  · rw [textParts, if_neg hblank]
    exact appendParts_append messages m _

theorem lowerChunk_nil_of_blank (hrole : isRoleMarker body = false)
    (hdelim : ¬mediaDelim <:+: body) (hmarker : isMediaMarker body = false)
    (hblank : trimSpace body = []) : lowerChunk [] body = .ok [] := by
  rw [lowerChunk, hrole, if_neg Bool.false_ne_true, parseBody_of_text hdelim hmarker, textParts,
    if_pos hblank]

variable {chunk : Bytes}

theorem lowerChunk_of_marker {role : Bytes}
    {allowDupe : Bool} {meta_ : List (Bytes × Any)} (hrole : isRoleMarker chunk)
    (hparse : parseRoleMarker chunk = .ok (role, allowDupe, meta_)) :
    lowerChunk messages chunk = .ok (messages ++ [⟨role, allowDupe, meta_, []⟩]) := by
  rw [lowerChunk, hrole, if_pos rfl, hparse]
  rfl

theorem lowerFrom_cons_of_ok {messages'} (h : lowerChunk messages chunk = .ok messages') (chunks) :
    lowerFrom messages (chunk :: chunks) = lowerFrom messages' chunks := by
  rw [lowerFrom, h]

/-! ### What later pieces do -/

/-- The text of the part has no delimiter in it. -/
def Part.IsClean : Part → Prop
  | .text s => ¬roleDelim <:+: s ∧ ¬mediaDelim <:+: s
  | .media _ => True

variable {parts : List Part}

theorem clean_of_parseSegment {seg} (hrole : ¬roleDelim <:+: seg)
    (hmedia : ¬mediaDelim <:+: seg) (h : parseSegment seg = .ok parts) : ∀ p ∈ parts, p.IsClean := by
  unfold parseSegment at h
  split at h
  · cases hparse : parseMediaMarker seg with
    | error err =>
      rw [hparse] at h
      cases h
    | ok m =>
      rw [hparse] at h
      cases h
      simp [Part.IsClean]
  split at h <;> cases h
  · simp
  intro p hp
  cases mem_singleton.mp hp
  have hinfix := trimSpace_infix seg
  exact ⟨fun hd => hrole (hd.trans hinfix), fun hd => hmedia (hd.trans hinfix)⟩

theorem clean_of_parseSegments {segs}
    (hsegs : ∀ seg ∈ segs, ¬roleDelim <:+: seg ∧ ¬mediaDelim <:+: seg)
    (h : parseSegments segs = .ok parts) : ∀ p ∈ parts, p.IsClean := by
  induction segs generalizing parts with
  | nil =>
    cases h
    simp
  | cons seg segs ih =>
    rw [parseSegments] at h
    cases hseg : parseSegment seg with
    | error err =>
      rw [hseg] at h
      cases h
    | ok ps =>
      rw [hseg] at h
      cases hrest : parseSegments segs with
      | error err =>
        rw [hrest] at h
        cases h
      | ok rest =>
        rw [hrest] at h
        cases h
        intro p hp
        rcases mem_append.mp hp with hp | hp
        · obtain ⟨hrole, hmedia⟩ := hsegs seg mem_cons_self
          exact clean_of_parseSegment hrole hmedia hseg p hp
        · exact ih (fun s hs => hsegs s (mem_cons_of_mem _ hs)) hrest p hp

theorem clean_of_parseBody (hchunk : ¬roleDelim <:+: chunk)
    (h : parseBody chunk = .ok parts) : ∀ p ∈ parts, p.IsClean := by
  refine clean_of_parseSegments (fun seg hseg => ⟨fun hd => hchunk ?_, ?_⟩) h
  · exact hd.trans (infix_of_mem_split hseg)
  · exact not_infix_of_mem_split (cons_ne_nil _ _) hseg

/-- What messages become as more pieces are read: the last of them gets more parts, and the others
stay as they are. -/
structure Extends (messages result : List RenderedMessage) : Prop where
  length : messages.length ≤ result.length
  grows : ∀ (k : ℕ) (x : RenderedMessage), messages[k]? = some x →
    ∃ extra : List Part, (∀ p ∈ extra, p.IsClean) ∧
      result[k]? = some { x with parts := x.parts ++ extra }
  fixed : ∀ k : ℕ, k + 1 < messages.length → result[k]? = messages[k]?

theorem Extends.refl (messages) : Extends messages messages :=
  ⟨le_rfl, fun _ x h => ⟨[], by simp, by simpa using h⟩, fun _ _ => rfl⟩

theorem Extends.trans {a b c} (hab : Extends a b) (hbc : Extends b c) : Extends a c where
  length := hab.length.trans hbc.length
  grows k x hx := by
    obtain ⟨e, he, hb⟩ := hab.grows k x hx
    obtain ⟨e', he', hc⟩ := hbc.grows k _ hb
    refine ⟨e ++ e', fun p hp => (mem_append.mp hp).elim (he p) (he' p), ?_⟩
    rw [hc, List.append_assoc]
  fixed k hk := (hbc.fixed k (hk.trans_le hab.length)).trans (hab.fixed k hk)

theorem extends_append (messages m) : Extends messages (messages ++ [m]) where
  length := by simp
  grows k x hx := by
    refine ⟨[], by simp, ?_⟩
    rw [getElem?_append_left (List.getElem?_eq_some_iff.mp hx).1, hx, append_nil]
  fixed k hk := getElem?_append_left (by omega)

variable {result : List RenderedMessage}

theorem extends_of_appendParts
    (hparts : ∀ p ∈ parts, p.IsClean) (h : appendParts messages parts = .ok result) :
    Extends messages result := by
  induction messages using List.reverseRecOn with
  | nil => cases h
  | append_singleton messages m _ =>
    rw [appendParts_append] at h
    cases h
    refine ⟨by simp, fun k x hx => ?_, fun k hk => ?_⟩
    · by_cases hk : k < messages.length
      · rw [getElem?_append_left hk] at hx ⊢
        exact ⟨[], by simp, by simpa using hx⟩
      obtain ⟨hlt, -⟩ := List.getElem?_eq_some_iff.mp hx
      obtain rfl : k = messages.length := by simp at hlt; omega
      rw [getElem?_concat_length] at hx ⊢
      cases hx
      exact ⟨parts, hparts, rfl⟩
    · have hlt : k < messages.length := by simp at hk; omega
      rw [getElem?_append_left hlt, getElem?_append_left hlt]

theorem extends_of_lowerChunk
    (hchunk : ¬roleDelim <:+: chunk) (h : lowerChunk messages chunk = .ok result) :
    Extends messages result := by
  unfold lowerChunk at h
  split at h
  · cases hparse : parseRoleMarker chunk with
    | error err =>
      rw [hparse] at h
      cases h
    | ok r =>
      rw [hparse] at h
      cases h
      exact extends_append messages _
  split at h
  case h_1 => cases h
  case h_2 =>
    cases h
    exact .refl _
  case h_3 p ps hparse => exact extends_of_appendParts (clean_of_parseBody hchunk hparse) h

theorem extends_of_lowerFrom {chunks}
    (hchunks : ∀ c ∈ chunks, ¬roleDelim <:+: c) (h : lowerFrom messages chunks = .ok result) :
    Extends messages result := by
  induction chunks generalizing messages with
  | nil =>
    cases h
    exact .refl _
  | cons c chunks ih =>
    rw [lowerFrom] at h
    cases hc : lowerChunk messages c with
    | error err =>
      rw [hc] at h
      cases h
    | ok messages' =>
      rw [hc] at h
      exact (extends_of_lowerChunk (hchunks c mem_cons_self) hc).trans
        (ih (fun d hd => hchunks d (mem_cons_of_mem _ hd)) h)

end BamlRest.NativePrompt
