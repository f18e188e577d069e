import RagflowMineru.Chat.ThinkStream

/-!
# The phases of a stream

The text that has not been handed out decides what the next chunk brings.  In
reasoning it is the last `</think>`; at the first chunk of the answer that chunk
is held back behind it; and later nothing, or a `</think>` that has come about
over the border of two chunks.
-/

namespace RagflowMineru.Chat

open RagflowMineru.Library

/-! ## Tags -/

theorem isTag {p : Text} (hp : p ∈ [thinkTag, endTag]) : IsTag '<' '>' p := by
  rw [List.mem_pair] at hp
  rcases hp with rfl | rfl
  · exact ⟨⟨_, rfl, by decide⟩, ⟨['<', 't', 'h', 'i', 'n', 'k'], rfl,
      by decide⟩⟩
  · exact ⟨⟨_, rfl, by decide⟩, ⟨['<', '/', 't', 'h', 'i', 'n', 'k'], rfl,
      by decide⟩⟩

theorem thinkTag_mem : thinkTag ∈ [thinkTag, endTag] := by simp

theorem endTag_mem : endTag ∈ [thinkTag, endTag] := by simp

/-- Neither tag occurs in `s`. -/
def TagFree (s : Text) : Prop :=
  ∀ p ∈ [thinkTag, endTag], ¬ p <:+: s

instance : DecidablePred TagFree := fun s => by
  unfold TagFree
  infer_instance

theorem TagFree.of_infix {s t : Text} (hs : TagFree s) (ht : t <:+: s) :
    TagFree t :=
  fun p hp hin => hs p hp (hin.trans ht)

/-- A closed piece of text is passed over in the search. -/
theorem find_piece {t : Text} (ht : TagFree t) (r : Text) :
    find thinkTag (t ++ (endTag ++ r)) =
      (find thinkTag r).map (· + (t.length + endTag.length)) := by
  have hend : find thinkTag (endTag ++ r) =
      (find thinkTag r).map (· + endTag.length) := by
    simp [endTag, thinkTag, find, Option.map_map, Function.comp_def,
      Nat.add_assoc]
  have happend := (isTag thinkTag_mem).find_append (ht _ thinkTag_mem)
    (['/', 't', 'h', 'i', 'n', 'k', '>'] ++ r)
  change find thinkTag (t ++ (endTag ++ r)) =
    (find thinkTag (endTag ++ r)).map (· + t.length) at happend
  rw [happend, hend, Option.map_map]
  congr 1
  funext n
  simp only [Function.comp_apply]
  omega

/-- A closed piece of text loses its tag. -/
theorem removeTags_piece {t : Text} (ht : TagFree t) (r : Text) :
    removeTags (t ++ (endTag ++ r)) = t ++ removeTags r := by
  have happend := eraseAll_append (fun p hp => isTag hp) ht
    (['/', 't', 'h', 'i', 'n', 'k', '>'] ++ r)
  change removeTags (t ++ (endTag ++ r)) = t ++ removeTags (endTag ++ r)
    at happend
  rw [happend, removeTags, eraseAll_tag_append (fun p hp => isTag hp)
    endTag_mem]
  rfl

theorem TagFree.find {t : Text} (ht : TagFree t) : find thinkTag t = none :=
  find_eq_none_iff.mpr (ht _ thinkTag_mem)

theorem TagFree.removeTags {t : Text} (ht : TagFree t) : removeTags t = t :=
  eraseAll_of_free ht

/-- The text ends with `</think>` only if that stands in it as a whole. -/
theorem not_endTag_suffix {t : Text} (ht : TagFree t) (hne : t ≠ [])
    (u : Text) : ¬ endTag <:+ u ++ (endTag ++ t) := by
  have hends := (isTag endTag_mem).not_ends (u := u ++
    ['<', '/', 't', 'h', 'i', 'n', 'k']) (ht _ endTag_mem) hne
  simpa [endTag] using hends

/-- A piece of reasoning does not begin with `<think>`. -/
theorem not_thinkTag_begins {t : Text} (ht : TagFree t) :
    ¬ thinkTag <+: t ++ endTag := by
  by_cases hempty : t = []
  · subst hempty
    decide
  · exact (isTag thinkTag_mem).not_begins (ht _ thinkTag_mem) hempty

/-- Text without tags is shown as it is. -/
theorem TagFree.symbols {t : Text} (ht : TagFree t) (inThink : Bool) :
    symbols inThink t = chars t ∧ thinksAfter inThink t = inThink := by
  have hthink : t ≠ thinkTag := by
    rintro rfl
    exact ht _ thinkTag_mem List.infix_rfl
  have hend : t ≠ endTag := by
    rintro rfl
    exact ht _ endTag_mem List.infix_rfl
  simp [Chat.symbols, thinksAfter, hthink, hend]

/-! ## One chunk -/

/-- What is new in a chunk when the text so far is `m`. -/
def partOf (m chunk : Text) : Text :=
  if m <+: chunk then chunk.drop m.length else chunk

/-- What is held to be the text so far behind a chunk. -/
def modelAfter (m chunk : Text) : Text :=
  if m <+: chunk then chunk else m ++ chunk

/-- `u` is the text that has not been handed out. -/
structure Pending (s : ThinkStreamState) (u : Text) (ews inThink : Bool)
    (m : Text) : Prop where
  rest : ∃ v, s.fullText = v ++ u ∧ s.lastIdx = v.length
  lastFull : s.lastFull = s.fullText
  ews : s.endswithThink = ews
  inThink : s.inThink = inThink
  buffer : s.buffer = []
  model : s.lastModelFull = m

theorem pending_init : Pending {} [] false false [] :=
  ⟨⟨[], rfl, rfl⟩, rfl, rfl, rfl, rfl, rfl⟩

section Steps

variable {s : ThinkStreamState} {u m chunk : Text} {ews inThink : Bool}

/-- The state in which `_next_think_delta` is called. -/
theorem Pending.chunkDelta_eq (hs : Pending s u ews inThink m)
    (hchunk : chunk ≠ []) (hpart : partOf m chunk ≠ []) :
    ∃ s' v, chunkDelta s chunk = nextThinkDelta s' ∧
      s'.fullText = v ++ (u ++ partOf m chunk) ∧ s'.lastIdx = v.length ∧
      s'.fullText ≠ s'.lastFull ∧ s'.endswithThink = ews ∧
      s'.inThink = inThink ∧ s'.buffer = [] ∧
      s'.lastModelFull = modelAfter m chunk := by
  obtain ⟨v, hfull, hidx⟩ := hs.rest
  have hnew : newPart s chunk =
      ({ s with lastModelFull := modelAfter m chunk }, partOf m chunk) := by
    rw [newPart, modelAfter, partOf, hs.model]
    split_ifs <;> rfl
  refine ⟨{ s with
    lastModelFull := modelAfter m chunk
    fullText := s.fullText ++ partOf m chunk }, v, ?_, ?_, hidx, ?_, hs.ews,
    hs.inThink, hs.buffer, rfl⟩
  · rw [chunkDelta, if_neg hchunk, hnew]
    exact if_neg hpart
  · rw [← List.append_assoc, ← hfull]
  · intro heq
    rw [hs.lastFull] at heq
    exact hpart (List.append_right_eq_self.mp heq)

/-- A repetition of the text so far adds nothing. -/
theorem Pending.repeated (hs : Pending s u ews inThink m)
    (hchunk : chunk ≠ []) (hpart : partOf m chunk = []) :
    (chunkDelta s chunk).2 = [] ∧
      Pending (afterChunk s chunk) u ews inThink (modelAfter m chunk) := by
  have hnew : newPart s chunk =
      ({ s with lastModelFull := modelAfter m chunk }, partOf m chunk) := by
    rw [newPart, modelAfter, partOf, hs.model]
    split_ifs <;> rfl
  have hdelta : chunkDelta s chunk =
      ({ s with lastModelFull := modelAfter m chunk }, []) := by
    rw [chunkDelta, if_neg hchunk, hnew]
    exact if_pos hpart
  rw [afterChunk, hdelta]
  exact ⟨rfl, hs.rest, hs.lastFull, hs.ews, hs.inThink, rfl, rfl⟩

/-- `<think>` is next. -/
theorem Pending.think {r : Text} (hs : Pending s u ews inThink m)
    (hchunk : chunk ≠ []) (hpart : partOf m chunk ≠ [])
    (hw : u ++ partOf m chunk = thinkTag ++ r) :
    (chunkDelta s chunk).2 = thinkTag ∧
      Pending (afterChunk s chunk) r ews true (modelAfter m chunk) := by
  obtain ⟨s', v, hdelta, hfull, hidx, hne, hews, hthink, hbuffer, hmodel⟩ :=
    hs.chunkDelta_eq hchunk hpart
  have hfind : find thinkTag (thinkTag ++ r) = some 0 :=
    find_self_append (by decide) r
  have hnext : nextThinkDelta s' =
      ({ s' with
        lastFull := s'.fullText
        lastIdx := s'.lastIdx + thinkTag.length }, thinkTag) := by
    simp only [nextThinkDelta, if_neg hne]
    rw [hfull, hidx, List.drop_left, hw, hfind]
  rw [afterChunk, hdelta, hnext]
  refine ⟨rfl, ⟨v ++ thinkTag, ?_, ?_⟩, rfl, hews, rfl, rfl, hmodel⟩
  · change s'.fullText = _
    rw [hfull, hw, List.append_assoc]
  · rw [List.length_append, ← hidx]
    rfl

/-- There is text in front of the next `<think>`. -/
theorem Pending.before {n : ℕ} (hs : Pending s u ews inThink m)
    (hchunk : chunk ≠ []) (hpart : partOf m chunk ≠ [])
    (hfind : find thinkTag (u ++ partOf m chunk) = some (n + 1)) :
    (chunkDelta s chunk).2 = (u ++ partOf m chunk).take (n + 1) ∧
      ∃ r, u ++ partOf m chunk =
          (u ++ partOf m chunk).take (n + 1) ++ (thinkTag ++ r) ∧
        Pending (afterChunk s chunk) (thinkTag ++ r) ews
          (thinksAfter inThink ((u ++ partOf m chunk).take (n + 1)))
          (modelAfter m chunk) := by
  obtain ⟨s', v, hdelta, hfull, hidx, hne, hews, hthink, hbuffer, hmodel⟩ :=
    hs.chunkDelta_eq hchunk hpart
  have hnext : nextThinkDelta s' =
      ({ s' with
        lastFull := s'.fullText
        lastIdx := s'.lastIdx + (n + 1) },
        (u ++ partOf m chunk).take (n + 1)) := by
    simp only [nextThinkDelta, if_neg hne]
    rw [hfull, hidx, List.drop_left, hfind]
  obtain ⟨r, hr⟩ := find_spec hfind
  rw [List.append_assoc] at hr
  rw [afterChunk, hdelta, hnext]
  refine ⟨rfl, r, hr,
    ⟨v ++ (u ++ partOf m chunk).take (n + 1), ?_, ?_⟩, rfl, hews, ?_, rfl,
    hmodel⟩
  · change s'.fullText = _
    rw [hfull, List.append_assoc, ← hr]
  · have hlength := congrArg List.length hr
    have htag : thinkTag.length = 7 := rfl
    change s'.lastIdx + (n + 1) = _
    simp only [List.length_append, List.length_take, hidx] at hlength ⊢
    omega
  · rw [hs.inThink]

/-- Text that follows the end of the reasoning is held back, and `</think>` is
handed out. -/
theorem Pending.close (hs : Pending s u true inThink m)
    (hchunk : chunk ≠ []) (hpart : partOf m chunk ≠ [])
    (hfind : find thinkTag (u ++ partOf m chunk) = none)
    (hend : ¬ endTag <:+ u ++ partOf m chunk) :
    (chunkDelta s chunk).2 = endTag ∧
      Pending (afterChunk s chunk) (u ++ partOf m chunk) false false
        (modelAfter m chunk) := by
  obtain ⟨s', v, hdelta, hfull, hidx, hne, hews, hthink, hbuffer, hmodel⟩ :=
    hs.chunkDelta_eq hchunk hpart
  have hnext : nextThinkDelta s' =
      ({ s' with
        lastFull := s'.fullText
        endswithThink := false }, endTag) := by
    simp only [nextThinkDelta, if_neg hne]
    rw [hfull, hidx, List.drop_left, hfind]
    simp only [if_neg hend, hews, if_true]
  rw [afterChunk, hdelta, hnext]
  exact ⟨rfl, ⟨v, hfull, hidx⟩, rfl, rfl, rfl, rfl, hmodel⟩

/-- All that is left is handed out, and a `</think>` at its end is kept. -/
theorem Pending.pass (hs : Pending s u ews inThink m)
    (hchunk : chunk ≠ []) (hpart : partOf m chunk ≠ [])
    (hfind : find thinkTag (u ++ partOf m chunk) = none)
    (hend : endTag <:+ u ++ partOf m chunk ∨ ews = false) :
    (chunkDelta s chunk).2 = removeTags (u ++ partOf m chunk) ∧
      ∃ u', (u' = [] ∨ u' = endTag) ∧
        (endTag <:+ u ++ partOf m chunk → u' = endTag) ∧
        Pending (afterChunk s chunk) u'
          (decide (endTag <:+ u ++ partOf m chunk))
          (thinksAfter inThink (removeTags (u ++ partOf m chunk)))
          (modelAfter m chunk) := by
  obtain ⟨s', v, hdelta, hfull, hidx, hne, hews, hthink, hbuffer, hmodel⟩ :=
    hs.chunkDelta_eq hchunk hpart
  have hnext : nextThinkDelta s' =
      ({ s' with
        lastFull := s'.fullText
        endswithThink := decide (endTag <:+ u ++ partOf m chunk)
        lastIdx := if endTag <:+ s'.fullText then
          s'.fullText.length - endTag.length else s'.fullText.length },
        removeTags (u ++ partOf m chunk)) := by
    simp only [nextThinkDelta, passOn, if_neg hne]
    rw [hidx]
    have hdrop : s'.fullText.drop v.length = u ++ partOf m chunk := by
      rw [hfull, List.drop_left]
    rw [hdrop, hfind]
    by_cases hsuffix : endTag <:+ u ++ partOf m chunk
    · simp [hsuffix]
    · have hfalse := hend.resolve_left hsuffix
      rw [hfalse] at hews
      simp [hsuffix, hews]
  rw [afterChunk, hdelta, hnext]
  refine ⟨rfl, if endTag <:+ s'.fullText then endTag else [], ?_, ?_, ?_⟩
  · split_ifs
    · exact Or.inr rfl
    · exact Or.inl rfl
  · intro hsuffix
    rw [if_pos]
    rw [hfull]
    exact hsuffix.trans (List.suffix_append _ _)
  · refine ⟨?_, rfl, rfl, ?_, rfl, hmodel⟩
    · split_ifs with hsuffix
      · obtain ⟨v', hv'⟩ := hsuffix
        refine ⟨v', hv'.symm, ?_⟩
        change s'.fullText.length - endTag.length = _
        rw [← hv', List.length_append, Nat.add_sub_cancel]
      · exact ⟨s'.fullText, (List.append_nil _).symm, rfl⟩
    · rw [hs.inThink]

end Steps

/-! ## Phases of a stream -/

/-- The new parts of the chunks. -/
def parts : Text → List Text → List Text
  | _, [] => []
  | m, chunk :: chunks => partOf m chunk :: parts (modelAfter m chunk) chunks

theorem partOf_suffix (m chunk : Text) : partOf m chunk <:+ chunk := by
  rw [partOf]
  split_ifs
  · exact List.drop_suffix _ _
  · exact List.suffix_rfl

/-- Behind a text that begins with `<think>`, every chunk that does not is new
as a whole. -/
theorem partOf_of_begins {m chunk : Text} (hm : thinkTag <+: m)
    (hchunk : ¬ thinkTag <+: chunk) :
    partOf m chunk = chunk ∧ modelAfter m chunk = m ++ chunk := by
  have hnot : ¬ m <+: chunk := fun hin => hchunk (hm.trans hin)
  rw [partOf, modelAfter, if_neg hnot, if_neg hnot]
  exact ⟨rfl, rfl⟩

theorem TagFree.not_begins {t : Text} (ht : TagFree t) : ¬ thinkTag <+: t :=
  fun hin => ht _ thinkTag_mem hin.isInfix

theorem parts_of_begins {m : Text} (hm : thinkTag <+: m) {chunks : List Text}
    (hchunks : ∀ c ∈ chunks, TagFree c) : parts m chunks = chunks := by
  induction chunks generalizing m with
  | nil => rfl
  | cons c chunks ih =>
      obtain ⟨hpart, hmodel⟩ := partOf_of_begins hm
        (hchunks c List.mem_cons_self).not_begins
      rw [parts, hpart, hmodel, ih (hm.trans (List.prefix_append m c))
        fun c' hc' => hchunks c' (List.mem_cons_of_mem c hc')]

section Phases

variable (numTokens : Text → ℕ) (minTokens : ℕ)

/-- Once nothing but a closing tag is left over, all new text is shown. -/
theorem settled_shown {s : ThinkStreamState} {u m : Text} {inThink : Bool}
    (hs : Pending s u false inThink m) (hu : u = [] ∨ u = endTag)
    {chunks : List Text} (hchunks : ∀ c ∈ chunks, TagFree c ∧ c ≠ []) :
    shown numTokens minTokens s chunks = chars (parts m chunks).flatten := by
  induction chunks generalizing s u m with
  | nil =>
      rw [shown_nil _ _ hs.buffer, hs.ews]
      rfl
  | cons c chunks ih =>
      obtain ⟨hfree, hne⟩ := hchunks c List.mem_cons_self
      have hrest : ∀ c' ∈ chunks, TagFree c' ∧ c' ≠ [] := fun c' hc' =>
        hchunks c' (List.mem_cons_of_mem c hc')
      have hpartFree := hfree.of_infix (partOf_suffix m c).isInfix
      obtain ⟨hsymbols, hthinks⟩ := hpartFree.symbols inThink
      rw [shown_cons _ _ hs.buffer, hs.inThink, parts, List.flatten_cons,
        chars_append]
      by_cases hpart : partOf m c = []
      · obtain ⟨hdelta, hafter⟩ := hs.repeated hne hpart
        rw [hdelta, ih hafter hu hrest, hpart]
        rfl
      · have hwhole : find thinkTag (u ++ partOf m c) = none ∧
            ¬ endTag <:+ u ++ partOf m c ∧
            removeTags (u ++ partOf m c) = partOf m c := by
          rcases hu with rfl | rfl
          · exact ⟨hpartFree.find, fun hin =>
              hpartFree _ endTag_mem hin.isInfix, hpartFree.removeTags⟩
          · have hnil : TagFree [] := by decide
            have hfind := find_piece hnil (partOf m c)
            have hremove := removeTags_piece hnil (partOf m c)
            rw [hpartFree.find] at hfind
            rw [hpartFree.removeTags] at hremove
            exact ⟨hfind, not_endTag_suffix hpartFree hpart [], hremove⟩
        obtain ⟨hfind, hend, hremove⟩ := hwhole
        obtain ⟨hdelta, u', hu', -, hafter⟩ :=
          hs.pass hne hpart hfind (Or.inr rfl)
        rw [decide_eq_false hend, hremove, hthinks] at hafter
        rw [hdelta, hremove, hsymbols, ih hafter hu' hrest]

/-- Pieces of reasoning behind the second are shown as they come. -/
theorem reasoning_shown {s : ThinkStreamState} {m : Text} {inThink : Bool}
    (hs : Pending s endTag true inThink m) (hm : thinkTag <+: m)
    {ts : List Text} (hts : ∀ t ∈ ts, TagFree t) :
    ∃ s' m', Pending s' endTag true inThink m' ∧ thinkTag <+: m' ∧
      ∀ chunks, shown numTokens minTokens s
          (ts.map (· ++ endTag) ++ chunks) =
        chars ts.flatten ++ shown numTokens minTokens s' chunks := by
  induction ts generalizing s m with
  | nil => exact ⟨s, m, hs, hm, fun chunks => rfl⟩
  | cons t ts ih =>
      have ht := hts t List.mem_cons_self
      have hnil : TagFree [] := by decide
      obtain ⟨hpart, hmodel⟩ := partOf_of_begins hm (not_thinkTag_begins ht)
      have hne : t ++ endTag ≠ [] := by simp [endTag]
      have hwhole : endTag ++ (t ++ endTag) =
          [] ++ (endTag ++ (t ++ (endTag ++ []))) := by simp
      have hfind : find thinkTag (endTag ++ (t ++ endTag)) = none := by
        rw [hwhole, find_piece hnil, find_piece ht]
        rfl
      have hremove : removeTags (endTag ++ (t ++ endTag)) = t := by
        rw [hwhole, removeTags_piece hnil, removeTags_piece ht]
        exact List.append_nil t
      have hend : endTag <:+ endTag ++ (t ++ endTag) :=
        ⟨endTag ++ t, List.append_assoc _ _ _⟩
      obtain ⟨hdelta, u', -, hu', hafter⟩ := hs.pass hne
        (by rwa [hpart]) (by rwa [hpart]) (Or.inl (by rwa [hpart]))
      rw [hpart] at hdelta hu' hafter
      obtain ⟨hsymbols, hthinks⟩ := ht.symbols inThink
      rw [decide_eq_true hend, hu' hend, hremove, hthinks, hmodel] at hafter
      obtain ⟨s', m', hs', hm', hshown⟩ := ih hafter
        (hm.trans (List.prefix_append m _))
        fun t' ht' => hts t' (List.mem_cons_of_mem t ht')
      refine ⟨s', m', hs', hm', ?_⟩
      intro chunks
      rw [List.map_cons, List.cons_append, shown_cons _ _ hs.buffer, hdelta,
        hremove, hs.inThink, hsymbols, hshown, List.flatten_cons,
        chars_append, List.append_assoc]

/-! ### The first chunks of an answer behind reasoning -/

/-- The chunk behind a chunk that is held back: either `<think>` has come about
over the border of two chunks, and what is in front of it is handed out with the
closing tag of the reasoning; or all is handed out. -/
theorem waiting_step {s : ThinkStreamState} {a b m : Text}
    (hs : Pending s (endTag ++ a) false false m) (hm : thinkTag <+: m)
    (hb : TagFree b) (hne : b ≠ []) (chunks : List Text) :
    (∃ p r, find thinkTag (a ++ b) = some p.length ∧
        a ++ b = p ++ (thinkTag ++ r) ∧
        Pending (afterChunk s b) (thinkTag ++ r) false false (m ++ b) ∧
        shown numTokens minTokens s (b :: chunks) =
          (if p = [] then [] else chars (endTag ++ p)) ++
            shown numTokens minTokens (afterChunk s b) chunks) ∨
    ∃ u', (u' = [] ∨ u' = endTag) ∧
      (endTag <:+ endTag ++ (a ++ b) → u' = endTag) ∧
      Pending (afterChunk s b) u'
        (decide (endTag <:+ endTag ++ (a ++ b)))
        (thinksAfter false (removeTags (a ++ b))) (m ++ b) ∧
      shown numTokens minTokens s (b :: chunks) =
        symbols false (removeTags (a ++ b)) ++
          shown numTokens minTokens (afterChunk s b) chunks := by
  have hnil : TagFree [] := by decide
  obtain ⟨hpart, hmodel⟩ := partOf_of_begins hm hb.not_begins
  have hpart' : partOf m b ≠ [] := by rwa [hpart]
  have hwhole : endTag ++ a ++ partOf m b = endTag ++ (a ++ b) := by
    rw [hpart, List.append_assoc]
  have hfind : find thinkTag (endTag ++ (a ++ b)) =
      (find thinkTag (a ++ b)).map (· + endTag.length) := by
    simpa using find_piece hnil (a ++ b)
  rw [shown_cons _ _ hs.buffer, hs.inThink]
  cases hin : find thinkTag (a ++ b) with
  | none =>
      right
      rw [hin, Option.map_none] at hfind
      obtain ⟨hdelta, u', hu', hkept, hafter⟩ :=
        hs.pass hne hpart' (by rwa [hwhole]) (Or.inr rfl)
      have hremove : removeTags (endTag ++ (a ++ b)) = removeTags (a ++ b) :=
        removeTags_piece hnil (a ++ b)
      rw [hwhole] at hkept
      rw [hwhole, hremove, hmodel] at hafter
      rw [hdelta, hwhole, hremove]
      exact ⟨u', hu', hkept, hafter, rfl⟩
  | some n =>
      left
      obtain ⟨r, hr⟩ := find_spec hin
      rw [List.append_assoc] at hr
      have hn : n ≤ (a ++ b).length := by
        have hlength := congrArg List.length hr
        simp only [List.length_append, List.length_take] at hlength ⊢
        have htag : thinkTag.length = 7 := rfl
        omega
      have htake : (endTag ++ (a ++ b)).take (n + endTag.length) =
          endTag ++ (a ++ b).take n := by
        rw [Nat.add_comm, List.take_length_add_append]
      rw [hin, Option.map_some] at hfind
      obtain ⟨hdelta, r', hr', hafter⟩ := hs.before (n := n + 7) hne hpart'
        (by rwa [hwhole])
      change _ = (_ : Text).take (n + endTag.length) at hdelta
      change _ = (_ : Text).take (n + endTag.length) ++ _ at hr'
      change Pending _ _ _ (thinksAfter false
        ((_ : Text).take (n + endTag.length))) _ at hafter
      rw [hwhole, htake] at hdelta hr' hafter
      rw [hmodel] at hafter
      refine ⟨(a ++ b).take n, r', ?_, ?_, ?_, ?_⟩
      · rw [List.length_take, min_eq_left hn]
      · rw [List.append_assoc] at hr'
        exact List.append_cancel_left hr'
      · have hthinks : thinksAfter false (endTag ++ (a ++ b).take n) =
            false := by
          simp [thinksAfter, thinkTag, endTag]
        rwa [hthinks] at hafter
      · rw [hdelta]
        congr 1
        by_cases hempty : (a ++ b).take n = []
        · rw [hempty, if_pos rfl]
          decide
        · rw [if_neg hempty]
          simp [symbols, thinkTag, endTag, hempty]

theorem length_symbols_le (inThink : Bool) (delta : Text) :
    (symbols inThink delta).length ≤ delta.length := by
  unfold symbols
  by_cases hthink : delta = thinkTag
  · subst hthink
    cases inThink <;> decide
  · by_cases hend : delta = endTag
    · subst hend
      cases inThink <;> decide
    · rw [if_neg hthink, if_neg hend, length_chars]

/-- A text in which a tag has come about loses it. -/
theorem length_removeTags {t : Text} (ht : ¬ TagFree t) :
    (removeTags t).length + 7 ≤ t.length := by
  unfold TagFree at ht
  push Not at ht
  obtain ⟨p, hp, hin⟩ := ht
  obtain ⟨p', hp', hle⟩ :=
    length_eraseAll_of_mem (fun p hp => isTag hp) hp hin
  have htag : 7 ≤ p'.length := by
    rw [List.mem_pair] at hp'
    rcases hp' with rfl | rfl
    · decide
    · decide
  rw [removeTags]
  omega

/-- The first chunk behind a closing tag is held back. -/
theorem held_back {s : ThinkStreamState} {a m : Text} {inThink : Bool}
    (hs : Pending s endTag true inThink m) (hm : thinkTag <+: m)
    (ha : TagFree a) (hne : a ≠ []) (chunks : List Text) :
    ∃ s', Pending s' (endTag ++ a) false false (m ++ a) ∧
      shown numTokens minTokens s (a :: chunks) =
        symbols inThink endTag ++ shown numTokens minTokens s' chunks := by
  obtain ⟨hpart, hmodel⟩ := partOf_of_begins hm ha.not_begins
  have hnil : TagFree [] := by decide
  have hfind : find thinkTag (endTag ++ a) = none := by
    have hpiece := find_piece hnil a
    rwa [ha.find] at hpiece
  have hend := not_endTag_suffix ha hne []
  obtain ⟨hdelta, hafter⟩ := hs.close hne (by rwa [hpart]) (by rwa [hpart])
    (by rwa [hpart])
  rw [hpart, hmodel] at hafter
  refine ⟨_, hafter, ?_⟩
  rw [shown_cons _ _ hs.buffer, hdelta, hs.inThink]

/-- When `</think>` has come about at the end of what is handed out, another
marker follows, or the next chunk is held back. -/
theorem closed_shown {s : ThinkStreamState} {m : Text} {inThink : Bool}
    (hs : Pending s endTag true inThink m) (hm : thinkTag <+: m)
    {chunks : List Text} (hchunks : ∀ c ∈ chunks, TagFree c ∧ c ≠ [])
    (hmarker : ∀ tag, Symbol.marker tag ∉
      shown numTokens minTokens s chunks) :
    ∃ c rest s', chunks = c :: rest ∧
      Pending s' (endTag ++ c) false false (m ++ c) ∧
      shown numTokens minTokens s chunks =
        shown numTokens minTokens s' rest := by
  cases chunks with
  | nil =>
      rw [shown_nil _ _ hs.buffer, hs.ews] at hmarker
      exact absurd (List.mem_singleton_self _) (hmarker endTag)
  | cons c rest =>
      obtain ⟨hfree, hne⟩ := hchunks c List.mem_cons_self
      obtain ⟨s', hs', hshown⟩ :=
        held_back numTokens minTokens hs hm hfree hne rest
      refine ⟨c, rest, s', rfl, hs', ?_⟩
      cases inThink with
      | false => exact hshown
      | true =>
          rw [hshown] at hmarker
          exact absurd (by simp [symbols, thinkTag, endTag])
            (hmarker endTag)

/-- When `<think>` has come about at the beginning of what is left, the marker
follows with the next chunk. -/
theorem opened_shown {s : ThinkStreamState} {r m : Text}
    (hs : Pending s (thinkTag ++ r) false false m) (hm : thinkTag <+: m)
    {chunks : List Text} (hchunks : ∀ c ∈ chunks, TagFree c ∧ c ≠ [])
    (hmarker : ∀ tag, Symbol.marker tag ∉
      shown numTokens minTokens s chunks) :
    chunks = [] ∧ shown numTokens minTokens s chunks = [] := by
  cases chunks with
  | nil => exact ⟨rfl, by rw [shown_nil _ _ hs.buffer, hs.ews]; rfl⟩
  | cons c rest =>
      obtain ⟨hfree, hne⟩ := hchunks c List.mem_cons_self
      obtain ⟨hpart, -⟩ := partOf_of_begins hm hfree.not_begins
      obtain ⟨hdelta, -⟩ := hs.think hne (by rwa [hpart])
        (List.append_assoc _ _ _)
      rw [shown_cons _ _ hs.buffer, hdelta, hs.inThink] at hmarker
      exact absurd (by simp [symbols]) (hmarker thinkTag)

/-- No more is shown than `a` and the chunks to come, and one character. -/
def FewShown (s : ThinkStreamState) (a : Text) (chunks : List Text) : Prop :=
  (∀ tag, Symbol.marker tag ∉ shown numTokens minTokens s chunks) →
    (shown numTokens minTokens s chunks).length ≤
      a.length + chunks.flatten.length + 1

/-- Without a marker, the chunk behind a chunk that is held back either is the
last and brings about `<think>`, or hands out what is left of the two chunks. -/
theorem waiting_cases {s : ThinkStreamState} {a b m : Text}
    (hs : Pending s (endTag ++ a) false false m) (hm : thinkTag <+: m)
    (hb : TagFree b) (hne : b ≠ []) {chunks : List Text}
    (hchunks : ∀ c ∈ chunks, TagFree c ∧ c ≠ [])
    (hmarker : ∀ tag, Symbol.marker tag ∉
      shown numTokens minTokens s (b :: chunks))
    (hfew : ∀ {c rest s' m'}, chunks = c :: rest →
      Pending s' (endTag ++ c) false false m' → thinkTag <+: m' →
      FewShown numTokens minTokens s' c rest) :
    (∃ p r, find thinkTag (a ++ b) = some p.length ∧
        a ++ b = p ++ (thinkTag ++ r) ∧
        chunks = [] ∧ shown numTokens minTokens s (b :: chunks) =
          if p = [] then [] else chars (endTag ++ p)) ∨
    (shown numTokens minTokens s (b :: chunks)).length ≤
      (removeTags (a ++ b)).length + chunks.flatten.length + 1 := by
  have hm' : thinkTag <+: m ++ b := hm.trans (List.prefix_append m b)
  rcases waiting_step numTokens minTokens hs hm hb hne chunks with
    ⟨p, r, hfind, hsplit, hafter, hshown⟩ | ⟨u', hu', hkept, hafter, hshown⟩
  · left
    have hrest : ∀ tag, Symbol.marker tag ∉
        shown numTokens minTokens (afterChunk s b) chunks := by
      intro tag hin
      apply hmarker tag
      rw [hshown]
      exact List.mem_append_right _ hin
    obtain ⟨hlast, hnone⟩ :=
      opened_shown numTokens minTokens hafter hm' hchunks hrest
    refine ⟨p, r, hfind, hsplit, hlast, ?_⟩
    rw [hshown, hnone, List.append_nil]
  · right
    have hrest : ∀ tag, Symbol.marker tag ∉
        shown numTokens minTokens (afterChunk s b) chunks := by
      intro tag hin
      apply hmarker tag
      rw [hshown]
      exact List.mem_append_right _ hin
    have hsymbols := length_symbols_le false (removeTags (a ++ b))
    rw [hshown, List.length_append]
    by_cases hend : endTag <:+ endTag ++ (a ++ b)
    · rw [decide_eq_true hend, hkept hend] at hafter
      obtain ⟨c, rest, s', rfl, hs', hsame⟩ :=
        closed_shown numTokens minTokens hafter hm' hchunks hrest
      rw [hsame] at hrest
      have hbound := hfew rfl hs' (hm'.trans (List.prefix_append _ c)) hrest
      rw [hsame, List.flatten_cons, List.length_append]
      omega
    · rw [decide_eq_false hend] at hafter
      rw [settled_shown numTokens minTokens hafter hu' hchunks,
        parts_of_begins hm' fun c hc => (hchunks c hc).1, length_chars]
      omega

/-- While a chunk `a` is held back behind reasoning, hardly more than `a` and the
chunks to come can be shown without a marker. -/
theorem fewShown_waiting {chunks : List Text} :
    ∀ {s : ThinkStreamState} {a m : Text},
      Pending s (endTag ++ a) false false m → thinkTag <+: m →
      (∀ c ∈ chunks, TagFree c ∧ c ≠ []) →
      FewShown numTokens minTokens s a chunks := by
  induction hlength : chunks.length using Nat.strong_induction_on
    generalizing chunks with
  | h n ih =>
      intro s a m hs hm hchunks hmarker
      cases chunks with
      | nil =>
          rw [shown_nil _ _ hs.buffer, hs.ews]
          simp
      | cons b chunks =>
          obtain ⟨hb, hne⟩ := hchunks b List.mem_cons_self
          have hrest : ∀ c ∈ chunks, TagFree c ∧ c ≠ [] := fun c hc =>
            hchunks c (List.mem_cons_of_mem b hc)
          rw [List.length_cons] at hlength
          have hfew : ∀ {c rest s' m'}, chunks = c :: rest →
              Pending s' (endTag ++ c) false false m' → thinkTag <+: m' →
              FewShown numTokens minTokens s' c rest := by
            rintro c rest s' m' rfl hs' hm'
            rw [List.length_cons] at hlength
            exact ih rest.length (by omega) rfl hs' hm' fun c' hc' =>
              hrest c' (List.mem_cons_of_mem c hc')
          rw [List.flatten_cons, List.length_append]
          rcases waiting_cases numTokens minTokens hs hm hb hne hrest hmarker
            hfew with ⟨p, r, -, hsplit, rfl, hshown⟩ | hle
          · have hlengths := congrArg List.length hsplit
            simp only [List.length_append] at hlengths
            have hthink : thinkTag.length = 7 := rfl
            have hend : endTag.length = 8 := rfl
            rw [hshown]
            split_ifs
            · simp
            · rw [length_chars, List.length_append]
              omega
          · have hremove := length_eraseAll_le [thinkTag, endTag] (a ++ b)
            rw [List.length_append] at hremove
            unfold removeTags at hle
            omega

/-- Behind reasoning, the second chunk of the answer gets everything out exactly
if no tag has come about over the border of the first two chunks. -/
theorem waiting_shown_iff {s : ThinkStreamState} {a b m : Text}
    (hs : Pending s (endTag ++ a) false false m) (hm : thinkTag <+: m)
    (ha : a ≠ []) (hb : TagFree b) (hne : b ≠ []) {chunks : List Text}
    (hchunks : ∀ c ∈ chunks, TagFree c ∧ c ≠ []) :
    shown numTokens minTokens s (b :: chunks) =
        chars (a :: b :: chunks).flatten ↔ TagFree (a ++ b) := by
  rw [List.flatten_cons, List.flatten_cons, ← List.append_assoc]
  constructor
  · intro hshown
    by_contra hfree
    have hmarker : ∀ tag, Symbol.marker tag ∉
        shown numTokens minTokens s (b :: chunks) := by
      intro tag
      rw [hshown]
      exact marker_not_mem_chars tag _
    have hlengths := congrArg List.length hshown
    rw [length_chars, List.length_append] at hlengths
    rcases waiting_cases numTokens minTokens hs hm hb hne hchunks hmarker
      (fun {c rest s' m'} hc hs' hm' => by
        subst hc
        exact fewShown_waiting numTokens minTokens hs' hm' fun c' hc' =>
          hchunks c' (List.mem_cons_of_mem c hc'))
      with ⟨p, r, hfind, hsplit, rfl, hcut⟩ | hle
    · by_cases hempty : p = []
      · rw [if_pos hempty] at hcut
        rw [hcut, List.length_append] at hlengths
        have hpos := List.length_pos_iff.mpr ha
        simp only [List.length_nil] at hlengths
        omega
      · rw [if_neg hempty, hshown, List.flatten_nil, List.append_nil] at hcut
        have heq := chars_injective hcut
        -- `<think>` would have to occur in front of its first occurrence
        have hfront := find_take (by decide) hfind
        rw [hsplit, List.take_left] at hfront
        have hnil : TagFree [] := by decide
        have hpiece := find_piece hnil p
        rw [List.nil_append, ← heq, hfront, hfind] at hpiece
        cases hpiece
    · have hremove := length_removeTags hfree
      omega
  · intro hfree
    have hnil : TagFree [] := by decide
    have hm' : thinkTag <+: m ++ b := hm.trans (List.prefix_append m b)
    have hend := not_endTag_suffix hfree
      (List.append_ne_nil_of_left_ne_nil ha b) []
    rw [List.nil_append] at hend
    rcases waiting_step numTokens minTokens hs hm hb hne chunks with
      ⟨p, r, -, hsplit, -⟩ | ⟨u', hu', -, hafter, hshown⟩
    · exact absurd ⟨p, r, by rw [hsplit, List.append_assoc]⟩
        (hfree _ thinkTag_mem)
    · rw [decide_eq_false hend] at hafter
      rw [hshown, settled_shown numTokens minTokens hafter hu' hchunks,
        parts_of_begins hm' fun c hc => (hchunks c hc).1, hfree.removeTags,
        (hfree.symbols false).1, ← chars_append]

end Phases

end RagflowMineru.Chat
