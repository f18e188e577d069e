import RagflowMineru.Chat.ThinkPhases

/-!
# What a reader gets of reasoning and answer

A stream is reasoning, in pieces that each end with `</think>` and the first of
which begins with `<think>`, followed by an answer in pieces without tags.  The
reader should get the reasoning between the two markers and the answer behind
them.  The cursor of `_next_think_delta` stays one chunk behind after each
marker, so one chunk of reasoning, or one chunk of answer behind reasoning, is
not enough to get it out; and a chunk of a plain answer that begins with the
whole text so far is taken for a repetition.
-/

namespace RagflowMineru.Chat

open RagflowMineru.Library

/-- The texts of a stream: pieces of reasoning, and pieces of an answer. -/
structure ThinkStream where
  reasoning : List Text
  answer : List Text
  reasoning_free : ∀ t ∈ reasoning, TagFree t
  answer_free : ∀ a ∈ answer, TagFree a ∧ a ≠ []

/-- The chunks of reasoning. -/
def reasoningChunks : List Text → List Text
  | [] => []
  | t :: ts => (thinkTag ++ (t ++ endTag)) :: ts.map (· ++ endTag)

/-- The chunks as the model sends them. -/
def ThinkStream.chunks (st : ThinkStream) : List Text :=
  reasoningChunks st.reasoning ++ st.answer

/-- The reader gets the reasoning between the two markers, and then the answer;
without reasoning there are no markers. -/
def Lossless (st : ThinkStream) (events : List Event) : Prop :=
  transcript events =
    if st.reasoning = [] then chars st.answer.flatten
    else Symbol.marker thinkTag :: (chars st.reasoning.flatten ++
      Symbol.marker endTag :: chars st.answer.flatten)

/-- Behind reasoning, an answer is empty or has two chunks at least, and no tag
has come about in the first two. -/
def AnswerComesOut : List Text → Prop
  | [] => True
  | [_] => False
  | a₁ :: a₂ :: _ => TagFree (a₁ ++ a₂)

/-- Without reasoning, no chunk of the answer begins with all of the text so
far.  With reasoning, there are two pieces of it at least, and the first two do
not make up a tag. -/
def ComesOut : List Text → List Text → Prop
  | [], answer => ∀ before a after, answer = before ++ a :: after →
      before ≠ [] → ¬ before.flatten <+: a
  | [_], _ => False
  | t₁ :: t₂ :: _, answer =>
      (t₁ ++ t₂ ≠ thinkTag ∧ t₁ ++ t₂ ≠ endTag) ∧ AnswerComesOut answer

/-- The text events, put together. -/
def textOf : List Event → Text
  | [] => []
  | .text s :: events => s ++ textOf events
  | .marker _ :: events => textOf events

/-- The markers in order. -/
def markersOf : List Event → List Text
  | [] => []
  | .text _ :: events => markersOf events
  | .marker tag :: events => tag :: markersOf events

/-! ## Events and transcript -/

/-- The character of a symbol. -/
def Symbol.char? : Symbol → Option Char
  | .char c => some c
  | .marker _ => none

/-- The tag of a symbol. -/
def Symbol.marker? : Symbol → Option Text
  | .char _ => none
  | .marker tag => some tag

theorem filterMap_chars (s : Text) :
    (chars s).filterMap Symbol.char? = s ∧
      (chars s).filterMap Symbol.marker? = [] := by
  induction s with
  | nil => exact ⟨rfl, rfl⟩
  | cons c s ih =>
      obtain ⟨hchar, hmarker⟩ := ih
      exact ⟨congrArg (c :: ·) hchar, hmarker⟩

theorem filterMap_transcript (events : List Event) :
    (transcript events).filterMap Symbol.char? = textOf events ∧
      (transcript events).filterMap Symbol.marker? = markersOf events := by
  induction events with
  | nil => exact ⟨rfl, rfl⟩
  | cons e events ih =>
      obtain ⟨hchar, hmarker⟩ := ih
      cases e with
      | text s =>
          obtain ⟨hs, hs'⟩ := filterMap_chars s
          rw [transcript, List.filterMap_append, List.filterMap_append, hs,
            hs', hchar, hmarker]
          exact ⟨rfl, rfl⟩
      | marker tag => exact ⟨hchar, congrArg (tag :: ·) hmarker⟩

/-- The texts are the reasoning and the answer, and the markers are the two of
the reasoning. -/
theorem Lossless.textOf_markersOf {st : ThinkStream} {events : List Event}
    (h : Lossless st events) :
    textOf events = st.reasoning.flatten ++ st.answer.flatten ∧
      markersOf events =
        if st.reasoning = [] then [] else [thinkTag, endTag] := by
  obtain ⟨htext, hmarkers⟩ := filterMap_transcript events
  obtain ⟨hr, hr'⟩ := filterMap_chars st.reasoning.flatten
  obtain ⟨ha, ha'⟩ := filterMap_chars st.answer.flatten
  rw [← htext, ← hmarkers, h]
  by_cases hempty : st.reasoning = []
  · rw [if_pos hempty, if_pos hempty, hempty]
    exact ⟨ha, ha'⟩
  · rw [if_neg hempty, if_neg hempty]
    constructor
    · rw [List.filterMap_cons_none rfl, List.filterMap_append, hr,
        List.filterMap_cons_none rfl, ha]
    · simp [List.filterMap_append, Symbol.marker?, hr', ha']

theorem chars_marker_inj {x y tag : Text} {xs ys : List Symbol} :
    chars x ++ Symbol.marker tag :: xs = chars y ++ Symbol.marker tag :: ys ↔
      x = y ∧ xs = ys := by
  induction x generalizing y with
  | nil =>
      cases y with
      | nil => simp
      | cons c y => simp [chars]
  | cons c x ih =>
      cases y with
      | nil => simp [chars]
      | cons d y =>
          simp only [chars, List.map_cons, List.cons_append, List.cons.injEq,
            Symbol.char.injEq] at ih ⊢
          rw [ih, and_assoc]

/-! ## An answer without reasoning -/

theorem length_parts_le (m : Text) (chunks : List Text) :
    (parts m chunks).flatten.length ≤ chunks.flatten.length := by
  induction chunks generalizing m with
  | nil => exact le_rfl
  | cons c chunks ih =>
      rw [parts, List.flatten_cons, List.flatten_cons, List.length_append,
        List.length_append]
      exact Nat.add_le_add (partOf_suffix m c).length_le (ih _)

/-- Nothing is lost exactly if no chunk begins with all of the text so far. -/
theorem parts_eq_iff {m : Text} (hm : m ≠ []) (chunks : List Text) :
    (parts m chunks).flatten = chunks.flatten ↔
      ∀ before a after, chunks = before ++ a :: after →
        ¬ m ++ before.flatten <+: a := by
  induction chunks generalizing m with
  | nil => simp [parts]
  | cons c chunks ih =>
      rw [parts, List.flatten_cons, List.flatten_cons]
      by_cases hrepeats : m <+: c
      · have hlost : (partOf m c).length < c.length := by
          have hpos := List.length_pos_iff.mpr hm
          have hle := hrepeats.length_le
          rw [partOf, if_pos hrepeats, List.length_drop]
          omega
        constructor
        · intro heq
          have hlengths := congrArg List.length heq
          have hrest := length_parts_le (modelAfter m c) chunks
          simp only [List.length_append] at hlengths
          omega
        · intro hfresh
          exact absurd (by simpa using hrepeats) (hfresh [] c chunks rfl)
      · rw [partOf, modelAfter, if_neg hrepeats, if_neg hrepeats,
          List.append_cancel_left_eq, ih (by simp [hm])]
        constructor
        · rintro hfresh before a after hchunks hin
          cases before with
          | nil =>
              obtain ⟨rfl, -⟩ := List.cons.inj hchunks
              exact hrepeats (by simpa using hin)
          | cons d before =>
              obtain ⟨rfl, hrest⟩ := List.cons.inj hchunks
              apply hfresh before a after hrest
              rwa [List.append_assoc]
        · rintro hfresh before a after rfl hin
          apply hfresh (c :: before) a after rfl
          rwa [List.flatten_cons, ← List.append_assoc]

section Streams

variable (numTokens : Text → ℕ) (minTokens : ℕ)

theorem answer_lossless_iff {answer : List Text}
    (hanswer : ∀ a ∈ answer, TagFree a ∧ a ≠ []) :
    shown numTokens minTokens {} answer = chars answer.flatten ↔
      ∀ before a after, answer = before ++ a :: after → before ≠ [] →
        ¬ before.flatten <+: a := by
  rw [settled_shown numTokens minTokens pending_init (Or.inl rfl) hanswer,
    chars_injective.eq_iff]
  cases answer with
  | nil => simp [parts]
  | cons c answer =>
      obtain ⟨-, hne⟩ := hanswer c List.mem_cons_self
      have hbegins : [] <+: c := List.nil_prefix
      rw [parts, partOf, modelAfter, if_pos hbegins, if_pos hbegins,
        List.length_nil, List.drop_zero, List.flatten_cons,
        List.flatten_cons, List.append_cancel_left_eq, parts_eq_iff hne]
      constructor
      · rintro hfresh before a after hchunks hbefore hin
        obtain ⟨d, before, rfl⟩ := List.exists_cons_of_ne_nil hbefore
        obtain ⟨rfl, hrest⟩ := List.cons.inj hchunks
        exact hfresh before a after hrest hin
      · rintro hfresh before a after rfl hin
        exact hfresh (c :: before) a after rfl (List.cons_ne_nil c before) hin

/-! ## Reasoning in front of an answer -/

/-- The first chunk of reasoning brings its marker. -/
theorem first_shown {t : Text} (chunks : List Text) :
    ∃ s m, Pending s (t ++ endTag) false true m ∧ thinkTag <+: m ∧
      shown numTokens minTokens {}
          ((thinkTag ++ (t ++ endTag)) :: chunks) =
        Symbol.marker thinkTag :: shown numTokens minTokens s chunks := by
  have hne : thinkTag ++ (t ++ endTag) ≠ [] := by simp [thinkTag]
  have hbegins : ([] : Text) <+: thinkTag ++ (t ++ endTag) := List.nil_prefix
  have hpart : partOf [] (thinkTag ++ (t ++ endTag)) =
      thinkTag ++ (t ++ endTag) := by
    rw [partOf, if_pos hbegins, List.length_nil, List.drop_zero]
  have hmodel : modelAfter [] (thinkTag ++ (t ++ endTag)) =
      thinkTag ++ (t ++ endTag) := by
    rw [modelAfter, if_pos hbegins]
  obtain ⟨hdelta, hafter⟩ := pending_init.think hne (by rwa [hpart]) (by
    rw [hpart]
    rfl)
  refine ⟨_, _, hafter, ?_, ?_⟩
  · rw [hmodel]
    exact List.prefix_append _ _
  · rw [shown_cons _ _ rfl, hdelta]
    rfl

/-- One piece of reasoning is joined to the answer, or lost. -/
theorem single_lossy {s : ThinkStreamState} {t m : Text}
    (hs : Pending s (t ++ endTag) false true m) (hm : thinkTag <+: m)
    (ht : TagFree t) {answer : List Text}
    (hanswer : ∀ a ∈ answer, TagFree a ∧ a ≠ []) :
    shown numTokens minTokens s answer ≠
      chars t ++ Symbol.marker endTag :: chars answer.flatten := by
  intro h
  cases answer with
  | nil =>
      rw [shown_nil _ _ hs.buffer, hs.ews] at h
      simp at h
  | cons a answer =>
      obtain ⟨ha, hne⟩ := hanswer a List.mem_cons_self
      have hanswer' : ∀ a' ∈ answer, TagFree a' ∧ a' ≠ [] := fun a' ha' =>
        hanswer a' (List.mem_cons_of_mem a ha')
      obtain ⟨hpart, hmodel⟩ := partOf_of_begins hm ha.not_begins
      have hwhole : t ++ endTag ++ partOf m a = t ++ (endTag ++ a) := by
        rw [hpart, List.append_assoc]
      have hfind : find thinkTag (t ++ (endTag ++ a)) = none := by
        rw [find_piece ht, ha.find]
        rfl
      have hend := not_endTag_suffix ha hne t
      have hremove : removeTags (t ++ (endTag ++ a)) = t ++ a := by
        rw [removeTags_piece ht, ha.removeTags]
      obtain ⟨hdelta, u', hu', -, hafter⟩ := hs.pass hne (by rwa [hpart])
        (by rwa [hwhole]) (Or.inr rfl)
      rw [hwhole] at hdelta hafter
      rw [decide_eq_false hend, hmodel] at hafter
      rw [shown_cons _ _ hs.buffer, hs.inThink, hdelta, hremove,
        settled_shown numTokens minTokens hafter hu' hanswer',
        parts_of_begins (hm.trans (List.prefix_append m a))
          fun a' ha' => (hanswer' a' ha').1] at h
      -- the only marker there can be is the piece itself
      have hmarker : Symbol.marker endTag ∈ symbols true (t ++ a) := by
        have hin : Symbol.marker endTag ∈
            symbols true (t ++ a) ++ chars answer.flatten := by
          rw [h]
          simp
        exact (List.mem_append.mp hin).resolve_right
          (marker_not_mem_chars endTag _)
      by_cases hthink : t ++ a = thinkTag
      · simp [symbols, hthink] at hmarker
      by_cases htag : t ++ a = endTag
      · have hsymbols : symbols true (t ++ a) = [Symbol.marker endTag] := by
          rw [htag]
          decide
        rw [hsymbols] at h
        have hboth : chars [] ++ Symbol.marker endTag :: chars answer.flatten =
            chars t ++ Symbol.marker endTag ::
              chars (a :: answer).flatten := h
        obtain ⟨-, hrest⟩ := chars_marker_inj.mp hboth
        have hlengths := congrArg List.length hrest
        have hpos := List.length_pos_iff.mpr hne
        simp only [length_chars, List.flatten_cons, List.length_append]
          at hlengths
        omega
      · rw [symbols, if_neg hthink, if_neg htag] at hmarker
        exact marker_not_mem_chars endTag _ hmarker

/-- The first two pieces of reasoning come out together. -/
theorem second_shown {s : ThinkStreamState} {t₁ t₂ m : Text}
    (hs : Pending s (t₁ ++ endTag) false true m) (hm : thinkTag <+: m)
    (ht₁ : TagFree t₁) (ht₂ : TagFree t₂) (chunks : List Text) :
    ∃ s' m', Pending s' endTag true (thinksAfter true (t₁ ++ t₂)) m' ∧
      thinkTag <+: m' ∧
      shown numTokens minTokens s ((t₂ ++ endTag) :: chunks) =
        symbols true (t₁ ++ t₂) ++ shown numTokens minTokens s' chunks := by
  obtain ⟨hpart, hmodel⟩ := partOf_of_begins hm (not_thinkTag_begins ht₂)
  have hne : t₂ ++ endTag ≠ [] := by simp [endTag]
  have hwhole : t₁ ++ endTag ++ partOf m (t₂ ++ endTag) =
      t₁ ++ (endTag ++ (t₂ ++ (endTag ++ []))) := by
    rw [hpart]
    simp
  have hfind : find thinkTag (t₁ ++ (endTag ++ (t₂ ++ (endTag ++ [])))) =
      none := by
    rw [find_piece ht₁, find_piece ht₂]
    rfl
  have hremove : removeTags (t₁ ++ (endTag ++ (t₂ ++ (endTag ++ [])))) =
      t₁ ++ t₂ := by
    rw [removeTags_piece ht₁, removeTags_piece ht₂]
    exact congrArg (t₁ ++ ·) (List.append_nil t₂)
  have hend : endTag <:+ t₁ ++ (endTag ++ (t₂ ++ (endTag ++ []))) :=
    ⟨t₁ ++ endTag ++ t₂, by simp⟩
  obtain ⟨hdelta, u', -, hkept, hafter⟩ := hs.pass hne (by rwa [hpart])
    (by rwa [hwhole]) (Or.inr rfl)
  rw [hwhole] at hdelta hkept hafter
  rw [decide_eq_true hend, hkept hend, hremove] at hafter
  refine ⟨_, _, hafter, ?_, ?_⟩
  · rw [hmodel]
    exact hm.trans (List.prefix_append m _)
  · rw [shown_cons _ _ hs.buffer, hs.inThink, hdelta, hremove]

/-- Behind two pieces of reasoning or more, the end of the reasoning is marked. -/
theorem rest_shown {s : ThinkStreamState} {m : Text}
    (hs : Pending s endTag true true m) (hm : thinkTag <+: m)
    {answer : List Text} (hanswer : ∀ a ∈ answer, TagFree a ∧ a ≠ []) :
    ∃ rest, shown numTokens minTokens s answer =
        Symbol.marker endTag :: rest ∧
      (rest = chars answer.flatten ↔ AnswerComesOut answer) := by
  cases answer with
  | nil =>
      rw [shown_nil _ _ hs.buffer, hs.ews]
      exact ⟨[], rfl, by simp [AnswerComesOut]⟩
  | cons a answer =>
      obtain ⟨ha, hne⟩ := hanswer a List.mem_cons_self
      obtain ⟨s', hs', hshown⟩ :=
        held_back numTokens minTokens hs hm ha hne answer
      refine ⟨shown numTokens minTokens s' answer, hshown, ?_⟩
      cases answer with
      | nil =>
          have hpos := List.length_pos_iff.mpr hne
          rw [shown_nil _ _ hs'.buffer, hs'.ews]
          refine iff_of_false ?_ id
          intro heq
          have hlengths := congrArg List.length heq
          simp at hlengths
          omega
      | cons b answer =>
          obtain ⟨hb, hne'⟩ := hanswer b (by simp)
          exact waiting_shown_iff numTokens minTokens hs'
            (hm.trans (List.prefix_append m a)) hne hb hne'
            fun c hc => hanswer c (by simp [hc])

/-- Two pieces of reasoning that make up a tag are lost. -/
theorem tag_lossy {t : Text} (htag : t = thinkTag ∨ t = endTag)
    {s : ThinkStreamState} {m r : Text} {ys : List Symbol}
    (hs : Pending s endTag true (thinksAfter true t) m) (hm : thinkTag <+: m)
    {answer : List Text} (hanswer : ∀ a ∈ answer, TagFree a ∧ a ≠ []) :
    symbols true t ++ (chars r ++ shown numTokens minTokens s answer) ≠
      chars (t ++ r) ++ Symbol.marker endTag :: ys := by
  intro h
  rcases htag with rfl | rfl
  · obtain ⟨rest, hshown, -⟩ := rest_shown numTokens minTokens hs hm hanswer
    rw [hshown] at h
    obtain ⟨heq, -⟩ := chars_marker_inj.mp h
    have hlengths := congrArg List.length heq
    have hthink : thinkTag.length = 7 := rfl
    rw [List.length_append] at hlengths
    omega
  · cases (List.cons.inj h).1

/-- Reasoning in two pieces or more, from behind the first marker on. -/
theorem pieces_lossless_iff {s₁ : ThinkStreamState} {t₁ t₂ m₁ : Text}
    (hs₁ : Pending s₁ (t₁ ++ endTag) false true m₁) (hm₁ : thinkTag <+: m₁)
    (ht₁ : TagFree t₁) (ht₂ : TagFree t₂) {ts : List Text}
    (hts : ∀ t ∈ ts, TagFree t) {answer : List Text}
    (hanswer : ∀ a ∈ answer, TagFree a ∧ a ≠ []) :
    shown numTokens minTokens s₁
        ((t₂ :: ts).map (· ++ endTag) ++ answer) =
        chars (t₁ :: t₂ :: ts).flatten ++
          Symbol.marker endTag :: chars answer.flatten ↔
      ComesOut (t₁ :: t₂ :: ts) answer := by
  obtain ⟨s₂, m₂, hs₂, hm₂, hshown₂⟩ :=
    second_shown numTokens minTokens hs₁ hm₁ ht₁ ht₂
      (ts.map (· ++ endTag) ++ answer)
  obtain ⟨s₃, m₃, hs₃, hm₃, hshown₃⟩ :=
    reasoning_shown numTokens minTokens hs₂ hm₂ hts
  have hflatten : (t₁ :: t₂ :: ts).flatten =
      t₁ ++ t₂ ++ ts.flatten := by simp
  rw [List.map_cons, List.cons_append, hshown₂, hshown₃, hflatten]
  by_cases htag : t₁ ++ t₂ = thinkTag ∨ t₁ ++ t₂ = endTag
  · refine iff_of_false
      (tag_lossy numTokens minTokens htag hs₃ hm₃ hanswer) ?_
    rintro ⟨⟨hthink, hend⟩, -⟩
    exact htag.elim hthink hend
  · obtain ⟨hthink, hend⟩ := not_or.mp htag
    have hthinks : thinksAfter true (t₁ ++ t₂) = true := by
      rw [thinksAfter, if_neg hthink, if_neg hend]
    rw [hthinks] at hs₃
    obtain ⟨rest, hrest, hout⟩ :=
      rest_shown numTokens minTokens hs₃ hm₃ hanswer
    rw [symbols, if_neg hthink, if_neg hend, hrest, ← List.append_assoc,
      ← chars_append, chars_marker_inj, and_iff_right rfl, hout,
      ComesOut, and_iff_right ⟨hthink, hend⟩]

/-- The reader gets everything exactly if the stream is long enough, no chunk of a
plain answer repeats the text so far, and no tag comes about over the border of
the chunks that come out together. -/
theorem lossless_iff (st : ThinkStream) :
    Lossless st (streamWithThinkDelta numTokens minTokens st.chunks) ↔
      ComesOut st.reasoning st.answer := by
  obtain ⟨reasoning, answer, hreasoning, hanswer⟩ := st
  change shown numTokens minTokens {} (reasoningChunks reasoning ++ answer) =
    _ ↔ ComesOut reasoning answer
  cases reasoning with
  | nil =>
      rw [if_pos rfl]
      exact answer_lossless_iff numTokens minTokens hanswer
  | cons t₁ ts =>
      rw [if_neg (List.cons_ne_nil t₁ ts)]
      have ht₁ := hreasoning t₁ List.mem_cons_self
      obtain ⟨s₁, m₁, hs₁, hm₁, hshown₁⟩ :=
        first_shown numTokens minTokens (t := t₁)
          (ts.map (· ++ endTag) ++ answer)
      rw [reasoningChunks, List.cons_append, hshown₁, List.cons.injEq,
        and_iff_right rfl]
      cases ts with
      | nil =>
          have hlossy := single_lossy numTokens minTokens hs₁ hm₁ ht₁ hanswer
          refine iff_of_false ?_ id
          simpa using hlossy
      | cons t₂ ts =>
          exact pieces_lossless_iff numTokens minTokens hs₁ hm₁ ht₁
            (hreasoning t₂ (by simp)) (fun t ht => hreasoning t (by simp [ht]))
            hanswer

end Streams

/-! ## An answer in one chunk -/

/-- Two pieces of reasoning, and an answer in one chunk. -/
def oneChunkAnswer : ThinkStream where
  reasoning := [['w', 'h'], ['y']]
  answer := [['y', 'e', 's']]
  reasoning_free := by decide
  answer_free := by decide

/-- The answer is not yielded at all. -/
theorem one_chunk_answer_lost :
    streamWithThinkDelta List.length 16 oneChunkAnswer.chunks =
        [.marker thinkTag, .text ['w', 'h', 'y'], .marker endTag] ∧
      ¬ Lossless oneChunkAnswer
        (streamWithThinkDelta List.length 16 oneChunkAnswer.chunks) := by
  have hevents : streamWithThinkDelta List.length 16 oneChunkAnswer.chunks =
      [.marker thinkTag, .text ['w', 'h', 'y'], .marker endTag] := by decide
  refine ⟨hevents, ?_⟩
  rw [hevents]
  intro hlossless
  have htexts := hlossless.textOf_markersOf.1
  exact absurd htexts (by decide)

end RagflowMineru.Chat
