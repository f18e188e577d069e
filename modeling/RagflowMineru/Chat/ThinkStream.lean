import RagflowMineru.Library.Tags

/-!
# Splitting a stream into reasoning and answer

`_stream_with_think_delta` takes the chunks of a model and yields text and the
markers `<think>` and `</think>`.  It first finds out what is new in a chunk,
which may be a piece of the text or all of the text so far; then
`_next_think_delta` hands out one piece of the text that has not been handed
out; and text is kept in a buffer until it has enough tokens.
-/

namespace RagflowMineru.Chat

open RagflowMineru.Library

/-- A string, as its characters. -/
abbrev Text := List Char

/-- `<think>` -/
def thinkTag : Text := ['<', 't', 'h', 'i', 'n', 'k', '>']

/-- `</think>` -/
def endTag : Text := ['<', '/', 't', 'h', 'i', 'n', 'k', '>']

/-- `_ThinkStreamState`. -/
structure ThinkStreamState where
  fullText : Text := []
  lastIdx : ℕ := 0
  endswithThink : Bool := false
  lastFull : Text := []
  lastModelFull : Text := []
  inThink : Bool := false
  buffer : Text := []
  deriving DecidableEq

/-- What is yielded. -/
inductive Event
  | text (value : Text)
  | marker (tag : Text)
  deriving DecidableEq

/-- `re.sub(r"(<think>|</think>)", "", s)`. -/
def removeTags (s : Text) : Text := eraseAll [thinkTag, endTag] s

/-- The end of `_next_think_delta`: all that is left is handed out, without its
tags, and a closing tag at the end of the text is looked at again. -/
def passOn (state : ThinkStreamState) (deltaAns : Text) :
    ThinkStreamState × Text :=
  let lastIdx := if endTag <:+ state.fullText then
    state.fullText.length - endTag.length else state.fullText.length
  ({ state with lastIdx := lastIdx }, removeTags deltaAns)

/-- `_next_think_delta`. -/
def nextThinkDelta (state : ThinkStreamState) : ThinkStreamState × Text :=
  let fullText := state.fullText
  if fullText = state.lastFull then (state, [])
  else
    let state := { state with lastFull := fullText }
    let deltaAns := fullText.drop state.lastIdx
    match find thinkTag deltaAns with
    | some 0 =>
        ({ state with lastIdx := state.lastIdx + thinkTag.length }, thinkTag)
    | some (n + 1) =>
        ({ state with lastIdx := state.lastIdx + (n + 1) },
          deltaAns.take (n + 1))
    | none =>
        if endTag <:+ deltaAns then
          passOn { state with endswithThink := true } deltaAns
        else if state.endswithThink then
          ({ state with endswithThink := false }, endTag)
        else passOn state deltaAns

/-- The new part of a chunk: the chunk may repeat all of the text so far. -/
def newPart (state : ThinkStreamState) (chunk : Text) :
    ThinkStreamState × Text :=
  if state.lastModelFull <+: chunk then
    ({ state with lastModelFull := chunk },
      chunk.drop state.lastModelFull.length)
  else
    ({ state with lastModelFull := state.lastModelFull ++ chunk }, chunk)

/-- Yield a marker, or put text into the buffer and yield it when it has
`min_tokens` tokens. -/
def handleDelta (numTokens : Text → ℕ) (minTokens : ℕ)
    (state : ThinkStreamState) (delta : Text) :
    ThinkStreamState × List Event :=
  if delta = [] then (state, [])
  else if delta = thinkTag ∨ delta = endTag then
    if delta = thinkTag ∧ state.inThink then (state, [])
    else if delta = endTag ∧ ¬ state.inThink then (state, [])
    else
      let flushed := if state.buffer ≠ [] then [.text state.buffer] else []
      ({ state with buffer := [], inThink := decide (delta = thinkTag) },
        flushed ++ [.marker delta])
  else
    let state := { state with buffer := state.buffer ++ delta }
    if numTokens state.buffer < minTokens then (state, [])
    else ({ state with buffer := [] }, [.text state.buffer])

/-- The piece of text that a chunk makes available, and the empty one where the
loop goes on without. -/
def chunkDelta (state : ThinkStreamState) (chunk : Text) :
    ThinkStreamState × Text :=
  if chunk = [] then (state, [])
  else
    let (state, part) := newPart state chunk
    if part = [] then (state, [])
    else nextThinkDelta { state with fullText := state.fullText ++ part }

/-- The body of the loop of `_stream_with_think_delta`. -/
def streamChunk (numTokens : Text → ℕ) (minTokens : ℕ)
    (state : ThinkStreamState) (chunk : Text) :
    ThinkStreamState × List Event :=
  let (state, delta) := chunkDelta state chunk
  handleDelta numTokens minTokens state delta

/-- What is yielded when the chunks are through. -/
def finish (state : ThinkStreamState) : List Event :=
  (if state.buffer ≠ [] then [.text state.buffer] else []) ++
    if state.endswithThink then [.marker endTag] else []

/-- The loop of `_stream_with_think_delta` from a state on. -/
def streamFrom (numTokens : Text → ℕ) (minTokens : ℕ) :
    ThinkStreamState → List Text → List Event
  | state, [] => finish state
  | state, chunk :: chunks =>
      let (state, events) := streamChunk numTokens minTokens state chunk
      events ++ streamFrom numTokens minTokens state chunks

/-- `_stream_with_think_delta`. -/
def streamWithThinkDelta (numTokens : Text → ℕ) (minTokens : ℕ)
    (chunks : List Text) : List Event :=
  streamFrom numTokens minTokens {} chunks

/-! ## What a reader sees -/

/-- A character of a text event, or a marker. -/
inductive Symbol
  | char (c : Char)
  | marker (tag : Text)
  deriving DecidableEq

/-- The characters of a text. -/
def chars (s : Text) : List Symbol := s.map Symbol.char

/-- The events without the borders between text events. -/
def transcript : List Event → List Symbol
  | [] => []
  | .text s :: events => chars s ++ transcript events
  | .marker tag :: events => Symbol.marker tag :: transcript events

@[simp] theorem chars_nil : chars [] = [] := rfl

@[simp] theorem chars_append (s t : Text) :
    chars (s ++ t) = chars s ++ chars t :=
  List.map_append

@[simp] theorem length_chars (s : Text) : (chars s).length = s.length :=
  List.length_map _

theorem chars_injective : Function.Injective chars :=
  List.map_injective_iff.mpr fun _ _ h => Symbol.char.inj h

theorem marker_not_mem_chars (tag s : Text) : Symbol.marker tag ∉ chars s := by
  simp [chars]

theorem transcript_append (es es' : List Event) :
    transcript (es ++ es') = transcript es ++ transcript es' := by
  induction es with
  | nil => rfl
  | cons e es ih =>
      cases e with
      | text s => simp [transcript, ih]
      | marker tag => simp [transcript, ih]

/-- What a piece adds to the transcript: markers that repeat are left out. -/
def symbols (inThink : Bool) (delta : Text) : List Symbol :=
  if delta = thinkTag then
    if inThink then [] else [.marker thinkTag]
  else if delta = endTag then
    if inThink then [.marker endTag] else []
  else chars delta

/-- Whether reasoning goes on after a piece. -/
def thinksAfter (inThink : Bool) (delta : Text) : Bool :=
  if delta = thinkTag then true
  else if delta = endTag then false
  else inThink

/-- The state with an empty buffer. -/
def ThinkStreamState.cleared (s : ThinkStreamState) : ThinkStreamState :=
  { s with buffer := [] }

/-- Whatever is buffered, a piece adds its symbols to what has been yielded or
buffered. -/
theorem handleDelta_spec (numTokens : Text → ℕ) (minTokens : ℕ)
    (s : ThinkStreamState) (delta : Text) :
    transcript (handleDelta numTokens minTokens s delta).2 ++
        chars (handleDelta numTokens minTokens s delta).1.buffer =
      chars s.buffer ++ symbols s.inThink delta ∧
    (handleDelta numTokens minTokens s delta).1.cleared =
      { s.cleared with inThink := thinksAfter s.inThink delta } := by
  unfold ThinkStreamState.cleared
  by_cases hempty : delta = []
  · subst hempty
    simp [handleDelta, symbols, thinksAfter, thinkTag, endTag, transcript]
  by_cases hthink : delta = thinkTag
  · subst hthink
    cases hin : s.inThink with
    | true => simp [handleDelta, symbols, thinksAfter, hin, hempty, transcript]
    | false =>
        by_cases hbuffer : s.buffer = []
        · simp [handleDelta, symbols, thinksAfter, hin, transcript, hbuffer,
            thinkTag, endTag]
        · simp [handleDelta, symbols, thinksAfter, hin, transcript, hbuffer,
            thinkTag, endTag]
  by_cases hend : delta = endTag
  · subst hend
    cases hin : s.inThink with
    | false =>
        simp [handleDelta, symbols, thinksAfter, hin, hempty, transcript,
          hthink]
    | true =>
        by_cases hbuffer : s.buffer = []
        · simp [handleDelta, symbols, thinksAfter, hin, transcript, hbuffer,
            thinkTag, endTag]
        · simp [handleDelta, symbols, thinksAfter, hin, transcript, hbuffer,
            thinkTag, endTag]
  · simp only [handleDelta, symbols, thinksAfter, if_neg hempty, hthink, hend,
      or_self, if_false]
    by_cases hfew : numTokens (s.buffer ++ delta) < minTokens
    · simp [hfew, transcript]
    · simp [hfew, transcript]

theorem nextThinkDelta_frame (s : ThinkStreamState) :
    (nextThinkDelta s).1.inThink = s.inThink ∧
    (nextThinkDelta s).1.buffer = s.buffer ∧
    nextThinkDelta s.cleared =
      ((nextThinkDelta s).1.cleared, (nextThinkDelta s).2) := by
  unfold nextThinkDelta passOn ThinkStreamState.cleared
  dsimp only
  split
  · exact ⟨rfl, rfl, rfl⟩
  · split
    · exact ⟨rfl, rfl, rfl⟩
    · exact ⟨rfl, rfl, rfl⟩
    · split_ifs <;> exact ⟨rfl, rfl, rfl⟩

/-- What a chunk makes available has nothing to do with the buffer. -/
theorem chunkDelta_frame (s : ThinkStreamState) (chunk : Text) :
    (chunkDelta s chunk).1.inThink = s.inThink ∧
    (chunkDelta s chunk).1.buffer = s.buffer ∧
    chunkDelta s.cleared chunk =
      ((chunkDelta s chunk).1.cleared, (chunkDelta s chunk).2) := by
  have hpart : (newPart s chunk).1.inThink = s.inThink ∧
      (newPart s chunk).1.buffer = s.buffer ∧
      newPart s.cleared chunk =
        ((newPart s chunk).1.cleared, (newPart s chunk).2) := by
    unfold newPart ThinkStreamState.cleared
    dsimp only
    split_ifs <;> exact ⟨rfl, rfl, rfl⟩
  obtain ⟨hthink, hbuffer, hclear⟩ := hpart
  by_cases hchunk : chunk = []
  · simp only [chunkDelta, if_pos hchunk]
    exact ⟨trivial, trivial, trivial⟩
  · simp only [chunkDelta, if_neg hchunk, hclear]
    by_cases hempty : (newPart s chunk).2 = []
    · simp only [if_pos hempty]
      exact ⟨hthink, hbuffer, trivial⟩
    · simp only [if_neg hempty]
      obtain ⟨hthink', hbuffer', hclear'⟩ := nextThinkDelta_frame
        { (newPart s chunk).1 with
          fullText := (newPart s chunk).1.fullText ++ (newPart s chunk).2 }
      exact ⟨hthink'.trans hthink, hbuffer'.trans hbuffer, hclear'⟩

/-- The state behind a chunk, apart from the buffer. -/
def afterChunk (s : ThinkStreamState) (chunk : Text) : ThinkStreamState :=
  { (chunkDelta s chunk).1.cleared with
    inThink := thinksAfter s.inThink (chunkDelta s chunk).2 }

section Shown

variable (numTokens : Text → ℕ) (minTokens : ℕ)

/-- The transcript from a state on. -/
def shown (s : ThinkStreamState) (chunks : List Text) : List Symbol :=
  transcript (streamFrom numTokens minTokens s chunks)

theorem streamChunk_spec (s : ThinkStreamState) (chunk : Text) :
    transcript (streamChunk numTokens minTokens s chunk).2 ++
        chars (streamChunk numTokens minTokens s chunk).1.buffer =
      chars s.buffer ++ symbols s.inThink (chunkDelta s chunk).2 ∧
    (streamChunk numTokens minTokens s chunk).1.cleared =
      afterChunk s chunk := by
  obtain ⟨hthink, hbuffer, -⟩ := chunkDelta_frame s chunk
  obtain ⟨hshown, hstate⟩ := handleDelta_spec numTokens minTokens
    (chunkDelta s chunk).1 (chunkDelta s chunk).2
  rw [hthink, hbuffer] at hshown
  rw [hthink] at hstate
  exact ⟨hshown, hstate⟩

/-- What is in the buffer comes first. -/
theorem shown_buffer (s : ThinkStreamState) (chunks : List Text) :
    shown numTokens minTokens s chunks =
      chars s.buffer ++ shown numTokens minTokens s.cleared chunks := by
  induction chunks generalizing s with
  | nil =>
      have hflush : transcript
          (if s.buffer ≠ [] then [.text s.buffer] else []) =
            chars s.buffer := by
        split_ifs with hbuffer
        · simp [transcript]
        · rw [not_not.mp hbuffer]
          rfl
      simp only [shown, streamFrom, finish, transcript_append, hflush]
      rfl
  | cons chunk chunks ih =>
      have hstep : ∀ s, shown numTokens minTokens s (chunk :: chunks) =
          chars s.buffer ++ (symbols s.inThink (chunkDelta s chunk).2 ++
            shown numTokens minTokens (afterChunk s chunk) chunks) := by
        intro s
        obtain ⟨hshown, hstate⟩ :=
          streamChunk_spec numTokens minTokens s chunk
        have hrest := ih (streamChunk numTokens minTokens s chunk).1
        rw [hstate] at hrest
        rw [← List.append_assoc, ← hshown, List.append_assoc, ← hrest, shown,
          streamFrom, transcript_append]
        rfl
      obtain ⟨-, -, hclear⟩ := chunkDelta_frame s chunk
      have hafter : afterChunk s.cleared chunk = afterChunk s chunk := by
        rw [afterChunk, hclear]
        rfl
      rw [hstep s, hstep s.cleared, hafter, hclear]
      rfl

/-- One chunk, from an empty buffer. -/
theorem shown_cons {s : ThinkStreamState} (hbuffer : s.buffer = [])
    (chunk : Text) (chunks : List Text) :
    shown numTokens minTokens s (chunk :: chunks) =
      symbols s.inThink (chunkDelta s chunk).2 ++
        shown numTokens minTokens (afterChunk s chunk) chunks := by
  obtain ⟨hshown, hstate⟩ := streamChunk_spec numTokens minTokens s chunk
  have hrest := shown_buffer numTokens minTokens
    (streamChunk numTokens minTokens s chunk).1 chunks
  rw [hbuffer, chars_nil, List.nil_append] at hshown
  rw [hstate] at hrest
  rw [← hshown, List.append_assoc, ← hrest, shown, streamFrom,
    transcript_append]
  rfl

theorem shown_nil {s : ThinkStreamState} (hbuffer : s.buffer = []) :
    shown numTokens minTokens s [] =
      if s.endswithThink then [.marker endTag] else [] := by
  cases hend : s.endswithThink with
  | false => simp [shown, streamFrom, finish, hbuffer, hend, transcript]
  | true => simp [shown, streamFrom, finish, hbuffer, hend, transcript]

end Shown

end RagflowMineru.Chat
