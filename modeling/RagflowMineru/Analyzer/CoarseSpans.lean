import RagflowMineru.Analyzer.FinePositions
import RagflowMineru.Analyzer.PositionMap
import RagflowMineru.Library.Paging

/-!
# The positions of coarse tokens

Every token gets a start and an end in the text that is tokenized, and the table takes both to
the line.
-/

namespace RagflowMineru.Analyzer

open Library

/-! ## Sentences -/

def isEnder (ch : Char) : Bool := ch ∈ ['.', '?', '!']

def isCloser (ch : Char) : Bool := ch ∈ "'\")]".toList

/-- What is behind a match at the front: blanks, an ender, closers, blanks. -/
def matchEnder (t : Text) : Option Text :=
  match t.dropWhile (· = ' ') with
  | [] => none
  | ch :: rest =>
      if isEnder ch then some ((rest.dropWhile isCloser).dropWhile (· = ' ')) else none

/-- Where the first match begins, and what is behind it. -/
def firstEnder : Text → Option (ℕ × Text)
  | [] => none
  | ch :: t =>
      match matchEnder (ch :: t) with
      | some rest => some (0, rest)
      | none => (firstEnder t).map fun p => (p.1 + 1, p.2)

/-- The loop of `SentenceSplitter`; a match at the front is passed over. -/
def sentencesFrom : ℕ → Text → List Text
  | 0, _ => []
  | n + 1, t =>
      if t = [] then []
      else
        match firstEnder t with
        | none => [t]
        | some (start, rest) =>
            (if start = 0 then [] else [t.take (t.length - rest.length)]) ++ sentencesFrom n rest

def splitSentences (t : Text) : List Text := sentencesFrom t.length t

/-- The analyzer with its own sentence splitter, and with what the regular expression of the
replacement takes for a word. -/
def withWords (a : RAGAnalyzer) (isWord : Char → Bool) : RAGAnalyzer :=
  { a with
    replaceNonWords := replaceNonWords isWord
    sentenceSplitter := splitSentences }

/-- A string with blanks is pushed in its parts, one behind the other. -/
def pushSpans (t : Text) (span : Span) : List (Text × Span) :=
  if ' ' ∈ t then layout 0 size span.1 (splitBlank t) else [(t, span)]

/-- The start of a token, by `CalculateTokensLength`. -/
def place (base : ℕ) (tks : List Text) (j : ℕ) : ℕ := base + size (tks.take j).flatten

/-- The span of a term.  The end is read without a test: there is nothing behind the table. -/
def termSpan (table : List ℕ) (stop : ℕ) (span : Span) : Option Span :=
  if span.1 < table.length then
    table[span.1]?.bind fun startPos => table[span.2]?.map fun endPos => (startPos, endPos)
  else some (stop, stop)

/-- The span of a segment that is not looked up. -/
def plainSpan (table : List ℕ) (stop : ℕ) (span : Span) : Span :=
  if span.1 < table.length ∧ span.2 < table.length then
    (table[span.1]?.getD stop, table[span.2]?.getD stop)
  else (stop, stop)

/-- The span of a token of a Chinese segment. -/
def innerSpan (table : List ℕ) (span : Span) : Span :=
  (table[span.1]?.getD 0, table[span.2]?.getD 0)

namespace RAGAnalyzer

variable (a : RAGAnalyzer)

/-- The loop with the spans. -/
def innerLoopWithSpans (tks tks1 : List Text) (base i₀ j₀ i j : ℕ) : List (Text × Span) :=
  if i < tks1.length ∧ j < tks.length then
    let tk1 := (slice tks1 i₀ i).flatten
    let tk := (slice tks j₀ j).flatten
    if tk1 ≠ tk then
      if size tk1 > size tk then innerLoopWithSpans tks tks1 base i₀ j₀ i (j + 1)
      else innerLoopWithSpans tks tks1 base i₀ j₀ (i + 1) j
    else if tks1[i]? ≠ tks[j]? then innerLoopWithSpans tks tks1 base i₀ j₀ (i + 1) (j + 1)
    else
      let same := 1 + sameCount (tks1.drop (i + 1)) (tks.drop (j + 1))
      let tokenStr := join (slice tks j (j + same))
      pushSpans (join (a.bestTokens tk)) (place base tks j₀, place base tks j₀ + size tk) ++
        (pushSpans tokenStr (place base tks j, place base tks j + size tokenStr) ++
          innerLoopWithSpans tks tks1 base (i + same) (j + same) (i + same + 1) (j + same + 1))
  else if i₀ < tks1.length then
    let tk := (slice tks j₀ tks.length).flatten
    pushSpans (join (a.bestTokens tk)) (place base tks j₀, place base tks j₀ + size tk)
  else []
  termination_by (tks1.length - i) + (tks.length - j)

/-- `TokenizeInnerWithPosition`, before the table. -/
def tokenizeInnerWithSpans (base : ℕ) (l : Text) : List (Text × Span) :=
  let tks := a.maxForward l
  let tks1 := a.maxBackward l
  let same := sameCount tks1 tks
  let tokenStr := join (slice tks 0 same)
  (if same > 0 then pushSpans tokenStr (place base tks 0, place base tks 0 + size tokenStr)
    else []) ++
    a.innerLoopWithSpans tks tks1 base same same (same + 1) (same + 1)

end RAGAnalyzer

/-- The terms that are found in a sentence, each behind the one before. -/
def locateSpans (sentence : Text) (sentenceStart : ℕ) : ℕ → List Text → List (Text × Span)
  | _, [] => []
  | pos, term :: terms =>
      match findFrom sentence term pos with
      | some i =>
          let startPos := sentenceStart + size (sentence.take i)
          (term, startPos, startPos + size term) ::
            locateSpans sentence sentenceStart (i + term.length) terms
      | none => locateSpans sentence sentenceStart pos terms

namespace RAGAnalyzer

variable (a : RAGAnalyzer)

/-- The terms of the sentences, each sentence behind the one before. -/
def sentenceSpans : ℕ → List Text → List (Text × Span)
  | _, [] => []
  | sentenceStart, sentence :: sentences =>
      locateSpans sentence sentenceStart 0 (a.wordTokenizer sentence) ++
        sentenceSpans (sentenceStart + size sentence) sentences

/-- The tokens of a segment that begins at `base`. -/
def segmentWithSpans (table : List ℕ) (stop base : ℕ) (segment : Text × Bool) :
    Option (List (Text × Span)) :=
  if !segment.2 then
    (a.sentenceSpans base (a.sentenceSplitter segment.1)).mapM fun p =>
      (termSpan table stop p.2).map fun span => (a.normalize p.1, span)
  else if isPlain segment.1 then
    some [(segment.1, plainSpan table stop (base, base + size segment.1))]
  else
    some ((a.tokenizeInnerWithSpans base segment.1).map fun p => (p.1, innerSpan table p.2))

/-- The loop over the segments. -/
def segmentLoopWithSpans (strline : Text) (table : List ℕ) (stop : ℕ) :
    ℕ → List (Text × Bool) → Option (List (Text × Span))
  | _, [] => some []
  | pos, segment :: arr =>
      if segment.1 = [] then segmentLoopWithSpans strline table stop pos arr
      else
        match findFrom strline segment.1 pos with
        | none => segmentLoopWithSpans strline table stop pos arr
        | some _ =>
            (a.segmentWithSpans table stop (size (strline.take pos)) segment).bind fun tokens =>
              (segmentLoopWithSpans strline table stop (pos + segment.1.length) arr).map
                (tokens ++ ·)

/-- The loop of the merge: from the start of the first token to the end of the last one. -/
def mergeLoopWithSpans : ℕ → List (Text × Span) → List (Text × Span)
  | 0, _ => []
  | _ + 1, [] => []
  | n + 1, p :: ps =>
      let merged := (p :: ps).take (a.mergeCount ((p :: ps).map Prod.fst))
      ((merged.map Prod.fst).flatten, p.2.1, (merged.getLast?.getD p).2.2) ::
        mergeLoopWithSpans n ((p :: ps).drop (a.mergeCount ((p :: ps).map Prod.fst)))

/-- `MergeWithPosition` -/
def mergeWithSpans (tokens : List (Text × Span)) : List (Text × Span) :=
  let filtered := tokens.filter fun p => p.1 ≠ [] ∧ p.1 ≠ [' ']
  a.mergeLoopWithSpans filtered.length filtered

/-- `TokenizeWithPosition`, with the positions. -/
def tokenizeWithSpans (isWord : Char → Bool) (line : Text) : Option (List (Text × Span)) :=
  let strline := a.convert (halfWidth isWord line)
  let table := finalPosMapping isWord a.convert line
  (a.segmentLoopWithSpans strline table (size line) 0 (splitByLang strline)).map a.mergeWithSpans

/-! ## Spans one behind the other -/

section Refines

variable {l l' : List (Text × Span)} {x y z : ℕ}

theorem Refines.append (h : Refines (x, y) l) (h' : Refines (y, z) l') (hxy : x ≤ y)
    (hyz : y ≤ z) : Refines (x, z) (l ++ l') where
  ordered p hp := (List.mem_append.mp hp).elim (h.ordered p) (h'.ordered p)
  inside p hp := by
    rcases List.mem_append.mp hp with hp | hp
    · exact ⟨(h.inside p hp).1, (h.inside p hp).2.trans hyz⟩
    · exact ⟨hxy.trans (h'.inside p hp).1, (h'.inside p hp).2⟩
  disjoint := List.pairwise_append.mpr ⟨h.disjoint, h'.disjoint, fun p hp q hq =>
    (h.inside p hp).2.trans (h'.inside q hq).1⟩

theorem Refines.widen {x' y' : ℕ} (h : Refines (x, y) l) (hx : x' ≤ x) (hy : y ≤ y') :
    Refines (x', y') l where
  ordered := h.ordered
  inside p hp := ⟨hx.trans (h.inside p hp).1, (h.inside p hp).2.trans hy⟩
  disjoint := h.disjoint

theorem Refines.sublist (h : Refines (x, y) l) (hsub : l'.Sublist l) : Refines (x, y) l' where
  ordered p hp := h.ordered p (hsub.subset hp)
  inside p hp := h.inside p (hsub.subset hp)
  disjoint := h.disjoint.sublist hsub

/-- A list that is cut: its parts lie before and behind the end of the last span in front. -/
theorem Refines.of_append {p q : Text × Span} (h : Refines (x, y) (l ++ q :: l'))
    (hp : p ∈ l ++ [q]) :
    x ≤ p.2.1 ∧ p.2.1 ≤ q.2.2 ∧ q.2.2 ≤ y ∧ Refines (q.2.2, y) l' := by
  have hq : q ∈ l ++ q :: l' := List.mem_append_right l List.mem_cons_self
  have hpq : p.2.1 ≤ q.2.2 ∧ p ∈ l ++ q :: l' := by
    rcases List.mem_append.mp hp with hp | hp
    · have hbefore := (List.pairwise_append.mp h.disjoint).2.2 p hp q List.mem_cons_self
      have hmem := List.mem_append_left (q :: l') hp
      exact ⟨(h.ordered p hmem).trans (hbefore.trans (h.ordered q hq)), hmem⟩
    · obtain rfl := List.mem_singleton.mp hp
      exact ⟨h.ordered p hq, hq⟩
  refine ⟨(h.inside p hpq.2).1, hpq.1, (h.inside q hq).2, ?_, ?_, ?_⟩
  · exact fun r hr => h.ordered r (List.mem_append_right l (List.mem_cons_of_mem q hr))
  · intro r hr
    have hdisjoint := (List.pairwise_append.mp h.disjoint).2.1
    exact ⟨List.rel_of_pairwise_cons hdisjoint hr,
      (h.inside r (List.mem_append_right l (List.mem_cons_of_mem q hr))).2⟩
  · exact (List.pairwise_append.mp h.disjoint).2.1.of_cons

end Refines

/-! ## Strings that are pushed -/

section Push

variable {t : Text} {x y stop : ℕ}

theorem map_fst_pushSpans (t : Text) (span : Span) :
    (pushSpans t span).map Prod.fst = pushSplit t := by
  rw [pushSpans, pushSplit]
  split_ifs
  · exact map_fst_layout
  · rfl

theorem size_le_of_sublist {t t' : Text} (h : t.Sublist t') : size t ≤ size t' :=
  (h.map Char.utf8Size).sum_le_sum fun _ _ => Nat.zero_le _

theorem size_filter_le (t : Text) : size (t.filter (· ≠ ' ')) ≤ size t :=
  size_le_of_sublist List.filter_sublist

/-- A string with blanks needs the room of its other characters. -/
theorem refines_pushSpans (hroom : x + size (t.filter (· ≠ ' ')) ≤ y)
    (hwhole : ' ' ∉ t → x ≤ stop ∧ stop ≤ y) : Refines (x, y) (pushSpans t (x, stop)) := by
  rw [pushSpans]
  split_ifs with hblank
  · by_cases hparts : splitBlank t = []
    · rw [hparts]
      exact refines_nil
    · have hlayout := @refines_layout_iff 0 size (splitBlank t) (x, y) hparts
      rw [width_zero, ← size_flatten, splitBlank, flatten_parts] at hlayout
      exact hlayout.mpr hroom
  · obtain ⟨hx, hy⟩ := hwhole hblank
    exact (refines_whole hx).widen le_rfl hy

theorem filter_join (ts : List Text) :
    (join ts).filter (· ≠ ' ') = ts.flatten.filter (· ≠ ' ') := by
  rw [← flatten_splitBlanks, ← splitBlank_join, splitBlank, flatten_parts]

theorem refines_pushSpans_join {ts : List Text} {n : ℕ} (hts : size ts.flatten ≤ n)
    (hstop : ' ' ∉ join ts → x ≤ stop ∧ stop ≤ x + n) :
    Refines (x, x + n) (pushSpans (join ts) (x, stop)) := by
  refine refines_pushSpans ?_ hstop
  rw [filter_join]
  exact Nat.add_le_add_left ((size_filter_le ts.flatten).trans hts) x

/-- A run of tokens lies in the room of its tokens. -/
theorem refines_run (ts : List Text) :
    Refines (x, x + size ts.flatten) (pushSpans (join ts) (x, x + size (join ts))) := by
  refine refines_pushSpans_join le_rfl fun hblank => ⟨Nat.le_add_right _ _, ?_⟩
  have hsame : (join ts).filter (· ≠ ' ') = join ts := by
    rw [List.filter_eq_self]
    intro ch hch
    exact decide_eq_true fun heq => hblank (heq ▸ hch)
  rw [← hsame, filter_join]
  exact Nat.add_le_add_left (size_filter_le ts.flatten) x

end Push

/-! ## Chinese segments -/

section Inner

variable {a : RAGAnalyzer} {tks tks1 : List Text} {base : ℕ}

theorem place_add_slice {i j : ℕ} (h : i ≤ j) :
    place base tks i + size (slice tks i j).flatten = place base tks j := by
  have htake : tks.take i ++ slice tks i j = tks.take j := by
    have hcut := List.take_append_drop i (tks.take j)
    rwa [List.take_take, Nat.min_eq_left h] at hcut
  rw [place, place, ← htake, List.flatten_append, size_append, Nat.add_assoc]

theorem place_add_rest (j : ℕ) :
    place base tks j + size (slice tks j tks.length).flatten = base + size tks.flatten := by
  rw [place, slice, List.take_length, Nat.add_assoc, ← size_append, ← List.flatten_append,
    List.take_append_drop]

theorem place_le (j : ℕ) : place base tks j ≤ base + size tks.flatten := by
  rw [← place_add_rest j]
  exact Nat.le_add_right _ _

theorem place_mono {i j : ℕ} (h : i ≤ j) : place base tks i ≤ place base tks j := by
  rw [← place_add_slice h]
  exact Nat.le_add_right _ _

theorem refines_best (hbest : ∀ t, size (a.bestTokens t).flatten ≤ size t) {t : Text} {x y : ℕ}
    (hy : x + size t = y) :
    Refines (x, y) (pushSpans (join (a.bestTokens t)) (x, x + size t)) := by
  rw [← hy]
  exact refines_pushSpans_join (hbest t) fun _ => ⟨Nat.le_add_right _ _, le_rfl⟩

theorem refines_innerLoop (hbest : ∀ t, size (a.bestTokens t).flatten ≤ size t)
    {i₀ j₀ i j : ℕ} (hj : j₀ ≤ j) :
    Refines (place base tks j₀, base + size tks.flatten)
      (a.innerLoopWithSpans tks tks1 base i₀ j₀ i j) := by
  induction i₀, j₀, i, j using RAGAnalyzer.innerLoopWithSpans.induct tks tks1 with
  | case1 i₀ j₀ i j hlt tk1 tk hdiff hsize ih =>
    rw [innerLoopWithSpans, if_pos hlt]
    simp only
    rw [if_pos hdiff, if_pos hsize]
    exact ih (hj.trans (Nat.le_succ j))
  | case2 i₀ j₀ i j hlt tk1 tk hdiff hsize ih =>
    rw [innerLoopWithSpans, if_pos hlt]
    simp only
    rw [if_pos hdiff, if_neg hsize]
    exact ih hj
  | case3 i₀ j₀ i j hlt tk1 tk hsame hdiff ih =>
    rw [innerLoopWithSpans, if_pos hlt]
    simp only
    rw [if_neg hsame, if_pos hdiff]
    exact ih (hj.trans (Nat.le_succ j))
  | case4 i₀ j₀ i j hlt tk1 tk hsame hequal same ih =>
    rw [innerLoopWithSpans, if_pos hlt]
    simp only
    rw [if_neg hsame, if_neg hequal]
    have hgap := refines_best hbest (@place_add_slice tks base j₀ j hj)
    have hrun := @refines_run (place base tks j) (slice tks j (j + same))
    rw [place_add_slice (Nat.le_add_right j same)] at hrun
    have hrest := hrun.append (ih (Nat.le_succ _)) (place_mono (Nat.le_add_right j same))
      (place_le _)
    exact hgap.append hrest (place_mono hj) (place_le _)
  | case5 i₀ j₀ i j hend hrest =>
    rw [innerLoopWithSpans, if_neg hend, if_pos hrest]
    exact refines_best hbest (place_add_rest j₀)
  | case6 i₀ j₀ i j hend hrest =>
    rw [innerLoopWithSpans, if_neg hend, if_neg hrest]
    exact refines_nil

theorem map_fst_innerLoop {i₀ j₀ i j : ℕ} :
    (a.innerLoopWithSpans tks tks1 base i₀ j₀ i j).map Prod.fst =
      (a.innerLoop tks tks1 i₀ j₀ i j).flatMap pushSplit := by
  induction i₀, j₀, i, j using RAGAnalyzer.innerLoop.induct tks tks1 with
  | case1 i₀ j₀ i j hlt tk1 tk hdiff hsize ih =>
    rw [innerLoopWithSpans, innerLoop, if_pos hlt, if_pos hlt]
    simp only
    rw [if_pos hdiff, if_pos hsize, if_pos hdiff, if_pos hsize]
    exact ih
  | case2 i₀ j₀ i j hlt tk1 tk hdiff hsize ih =>
    rw [innerLoopWithSpans, innerLoop, if_pos hlt, if_pos hlt]
    simp only
    rw [if_pos hdiff, if_neg hsize, if_pos hdiff, if_neg hsize]
    exact ih
  | case3 i₀ j₀ i j hlt tk1 tk hsame hdiff ih =>
    rw [innerLoopWithSpans, innerLoop, if_pos hlt, if_pos hlt]
    simp only
    rw [if_neg hsame, if_pos hdiff, if_neg hsame, if_pos hdiff]
    exact ih
  | case4 i₀ j₀ i j hlt tk1 tk hsame hequal same ih =>
    rw [innerLoopWithSpans, innerLoop, if_pos hlt, if_pos hlt]
    simp only
    rw [if_neg hsame, if_neg hequal, if_neg hsame, if_neg hequal, List.map_append, List.map_append,
      map_fst_pushSpans, map_fst_pushSpans, List.flatMap_cons, List.flatMap_cons]
    exact congrArg (fun rest => _ ++ (_ ++ rest)) ih
  | case5 i₀ j₀ i j hend hrest =>
    rw [innerLoopWithSpans, innerLoop, if_neg hend, if_neg hend, if_pos hrest, if_pos hrest,
      List.flatMap_singleton]
    exact map_fst_pushSpans _ _
  | case6 i₀ j₀ i j hend hrest =>
    rw [innerLoopWithSpans, innerLoop, if_neg hend, if_neg hend, if_neg hrest, if_neg hrest]
    rfl

/-- The tokens of a segment lie in the segment. -/
theorem refines_tokenizeInner (hbest : ∀ t, size (a.bestTokens t).flatten ≤ size t) {l : Text}
    (hforward : (a.maxForward l).flatten = l) :
    Refines (base, base + size l) (a.tokenizeInnerWithSpans base l) := by
  rw [tokenizeInnerWithSpans]
  generalize hsame : sameCount (a.maxBackward l) (a.maxForward l) = same
  have hinner := @refines_innerLoop a (a.maxForward l) (a.maxBackward l) base hbest same same
    (same + 1) (same + 1) (Nat.le_succ same)
  have hrun := @refines_run (place base (a.maxForward l) 0) (slice (a.maxForward l) 0 same)
  rw [place_add_slice (Nat.zero_le same)] at hrun
  have hfront : Refines (base, place base (a.maxForward l) same)
      (if same > 0 then pushSpans (join (slice (a.maxForward l) 0 same))
        (place base (a.maxForward l) 0,
          place base (a.maxForward l) 0 + size (join (slice (a.maxForward l) 0 same)))
      else []) := by
    split_ifs
    · exact hrun
    · exact refines_nil
  have hall := hfront.append hinner (Nat.le_add_right _ _) (place_le same)
  rwa [hforward] at hall

theorem map_fst_tokenizeInner (l : Text) :
    (a.tokenizeInnerWithSpans base l).map Prod.fst = a.tokenizeInnerWithPosition l := by
  rw [tokenizeInnerWithSpans, tokenizeInnerWithPosition, tokenizeInner, List.map_append,
    List.flatMap_append, map_fst_innerLoop]
  split_ifs
  · rw [map_fst_pushSpans, List.flatMap_singleton]
  · rfl

end Inner

/-! ## Sentences and their terms -/

section Sentences

variable {a : RAGAnalyzer} {sentence term : Text} {x i pos : ℕ}

theorem matchEnder_suffix {t rest : Text} (h : matchEnder t = some rest) : rest <:+ t := by
  rw [matchEnder] at h
  have hblanks := List.dropWhile_suffix (l := t) (· = ' ')
  split at h
  · cases h
  · rename_i ch behind hfront
    split_ifs at h
    obtain rfl := Option.some.inj h
    rw [hfront] at hblanks
    exact (List.dropWhile_suffix _).trans ((List.dropWhile_suffix _).trans
      ((List.suffix_cons ch behind).trans hblanks))

theorem firstEnder_suffix {t : Text} {p : ℕ × Text} (h : firstEnder t = some p) : p.2 <:+ t := by
  induction t generalizing p with
  | nil => cases h
  | cons ch t ih =>
    rw [firstEnder] at h
    split at h
    · rename_i rest hmatch
      obtain rfl := Option.some.inj h
      exact matchEnder_suffix hmatch
    · obtain ⟨q, hq, rfl⟩ := Option.map_eq_some_iff.mp h
      exact (ih hq).trans (List.suffix_cons ch t)

/-- Sentences lose what stands in front of them, and nothing is added. -/
theorem sentencesFrom_sublist (n : ℕ) (t : Text) : (sentencesFrom n t).flatten.Sublist t := by
  induction n generalizing t with
  | zero => exact List.nil_sublist t
  | succ n ih =>
    rw [sentencesFrom]
    split_ifs with ht
    · exact List.nil_sublist t
    split
    · rw [List.flatten_singleton]
    · rename_i start rest hender
      obtain ⟨front, hfront⟩ := firstEnder_suffix hender
      have htake : t.take (t.length - rest.length) = front := by
        rw [← hfront, List.length_append, Nat.add_sub_cancel, List.take_left]
      have hhead : (if start = 0 then [] else [t.take (t.length - rest.length)]).flatten.Sublist
          front := by
        rw [htake]
        split_ifs
        · exact List.nil_sublist front
        · rw [List.flatten_singleton]
      rw [List.flatten_append]
      exact (hhead.append (ih rest)).trans (hfront ▸ List.Sublist.refl _)

/-- A term is found where its characters stand. -/
theorem take_findFrom (h : findFrom sentence term pos = some i) :
    pos ≤ i ∧ sentence.take (i + term.length) = sentence.take i ++ term := by
  obtain ⟨m, hm, rfl⟩ := Option.map_eq_some_iff.mp h
  refine ⟨Nat.le_add_left pos m, ?_⟩
  obtain ⟨r, hr⟩ := find_spec hm
  generalize hrest : sentence.drop pos = rest at hr
  have hinner : rest.take (m + term.length) = rest.take m ++ term := by
    have hlength := congrArg List.length hr
    rw [List.length_append, List.length_append, List.length_take] at hlength
    rcases Nat.lt_or_ge rest.length m with hlt | hle
    · have hterm : term = [] := List.length_eq_zero_iff.mp (by omega)
      rw [hterm, List.length_nil, Nat.add_zero, List.append_nil]
    · have hfull : (rest.take m ++ term).length = m + term.length := by
        rw [List.length_append, List.length_take, Nat.min_eq_left hle]
      conv_lhs => rw [hr]
      exact List.take_left' hfull
  rw [Nat.add_comm m pos, Nat.add_assoc, @List.take_add _ sentence pos (m + term.length),
    @List.take_add _ sentence pos m, hrest, hinner, List.append_assoc]

theorem refines_locateSpans (terms : List Text) :
    Refines (x + size (sentence.take pos), x + size sentence)
      (locateSpans sentence x pos terms) := by
  induction terms generalizing pos with
  | nil => exact refines_nil
  | cons term terms ih =>
    rw [locateSpans]
    split
    · rename_i i hfind
      obtain ⟨hle, htake⟩ := take_findFrom hfind
      have hsize : size (sentence.take (i + term.length)) = size (sentence.take i) + size term := by
        rw [htake, size_append]
      have hbefore : size (sentence.take pos) ≤ size (sentence.take i) :=
        size_le_of_sublist (List.take_sublist_take_left hle)
      have hbehind : size (sentence.take (i + term.length)) ≤ size sentence :=
        size_le_of_sublist (List.take_sublist _ _)
      have hone : Refines (x + size (sentence.take pos), x + size (sentence.take (i + term.length)))
          [(term, x + size (sentence.take i), x + size (sentence.take i) + size term)] :=
        (refines_whole (Nat.le_add_right _ _)).widen (by omega) (by omega)
      exact hone.append ih (by omega) (by omega)
    · exact ih

theorem map_fst_locateSpans (terms : List Text) :
    (locateSpans sentence x pos terms).map Prod.fst =
      ((locate sentence pos terms).filter Prod.snd).map Prod.fst := by
  induction terms generalizing pos with
  | nil => rfl
  | cons term terms ih =>
    rw [locateSpans, locate]
    cases findFrom sentence term pos with
    | some i => exact congrArg (term :: ·) ih
    | none => exact ih

theorem refines_sentenceSpans (sentences : List Text) :
    Refines (x, x + size sentences.flatten) (a.sentenceSpans x sentences) := by
  induction sentences generalizing x with
  | nil => exact refines_nil
  | cons sentence sentences ih =>
    rw [sentenceSpans, List.flatten_cons, size_append, ← Nat.add_assoc]
    have hterms := @refines_locateSpans sentence x 0 (a.wordTokenizer sentence)
    exact hterms.append ih (Nat.le_add_right _ _) (Nat.le_add_right _ _)

theorem map_fst_sentenceSpans (sentences : List Text) :
    (a.sentenceSpans x sentences).map Prod.fst =
      ((sentences.flatMap fun sentence => locate sentence 0 (a.wordTokenizer sentence)).filter
        Prod.snd).map Prod.fst := by
  induction sentences generalizing x with
  | nil => rfl
  | cons sentence sentences ih =>
    rw [sentenceSpans, List.map_append, ih, map_fst_locateSpans, List.flatMap_cons,
      List.filter_append, List.map_append]

end Sentences

/-! ## The table -/

section Table

variable {table : List ℕ} {n stop x y : ℕ} {span : Span} {l : List (Text × Span)}

theorem innerSpan_le (h : Covers table n stop) (hxy : x ≤ y) (hn : y ≤ n) :
    (innerSpan table (x, y)).1 ≤ (innerSpan table (x, y)).2 ∧
      (innerSpan table (x, y)).2 ≤ stop := by
  obtain ⟨p, q, hp, hq, hle⟩ := h x y hxy hn
  rw [innerSpan, hp, hq]
  exact hle

theorem termSpan_eq (h : Covers table n stop) (hspan : span.1 ≤ span.2) (hn : span.2 ≤ n) :
    termSpan table stop span = some (innerSpan table span) := by
  obtain ⟨p, q, hp, hq, -⟩ := h span.1 span.2 hspan hn
  rw [termSpan, if_pos (List.getElem?_eq_some_iff.mp hp).1, innerSpan, hp, hq]
  rfl

theorem plainSpan_eq (h : Covers table n stop) (hspan : span.1 ≤ span.2) (hn : span.2 ≤ n) :
    plainSpan table stop span = innerSpan table span := by
  obtain ⟨p, q, hp, hq, -⟩ := h span.1 span.2 hspan hn
  rw [plainSpan, if_pos ⟨(List.getElem?_eq_some_iff.mp hp).1, (List.getElem?_eq_some_iff.mp hq).1⟩,
    innerSpan, hp, hq]
  rfl

theorem refines_innerSpan (h : Covers table n stop) (hl : Refines (x, y) l) (hy : y ≤ n)
    (f : Text → Text) :
    Refines (innerSpan table (x, y)) (l.map fun p => (f p.1, innerSpan table p.2)) where
  ordered := by
    rw [List.forall_mem_map]
    exact fun p hp => (innerSpan_le h (hl.ordered p hp) ((hl.inside p hp).2.trans hy)).1
  inside := by
    rw [List.forall_mem_map]
    intro p hp
    obtain ⟨hx, hend⟩ := hl.inside p hp
    have hstart := (hl.ordered p hp).trans (hend.trans hy)
    exact ⟨(innerSpan_le h hx hstart).1,
      (innerSpan_le h hend hy).1⟩
  disjoint := by
    refine List.pairwise_map.mpr (hl.disjoint.imp_of_mem fun {p q} hp hq hpq => ?_)
    have hstart := (hl.ordered q hq).trans ((hl.inside q hq).2.trans hy)
    exact (innerSpan_le h hpq hstart).1

end Table

/-! ## Segments -/

section Segments

variable {a : RAGAnalyzer} {table : List ℕ} {n stop base : ℕ}

/-- Every segment has its tokens, and nothing is read behind the table. -/
theorem segmentWithSpans_spec (hbest : ∀ t, size (a.bestTokens t).flatten ≤ size t)
    (hforward : ∀ t, (a.maxForward t).flatten = t)
    (hsentences : ∀ t, (a.sentenceSplitter t).flatten.Sublist t) (hcovers : Covers table n stop)
    {segment : Text × Bool} (hn : base + size segment.1 ≤ n) :
    ∃ tokens, a.segmentWithSpans table stop base segment = some tokens ∧
      tokens.map Prod.fst = a.segmentTokens segment ∧
      Refines (innerSpan table (base, base + size segment.1)) tokens := by
  have hbase : base ≤ base + size segment.1 := Nat.le_add_right _ _
  rw [segmentWithSpans, segmentTokens]
  split_ifs with hchinese hplain
  · have hspans : Refines (base, base + size segment.1)
        (a.sentenceSpans base (a.sentenceSplitter segment.1)) :=
      (refines_sentenceSpans _).widen le_rfl
        (Nat.add_le_add_left (size_le_of_sublist (hsentences segment.1)) base)
    refine ⟨_, mapM_eq_some_map fun p hp => ?_, ?_, refines_innerSpan hcovers hspans hn a.normalize⟩
    · rw [termSpan_eq hcovers (hspans.ordered p hp) ((hspans.inside p hp).2.trans hn)]
      rfl
    · have hfst := congrArg (List.map a.normalize)
        (@map_fst_sentenceSpans a base (a.sentenceSplitter segment.1))
      rw [List.map_map, List.map_map] at hfst
      rw [List.map_map]
      exact hfst
  · rw [plainSpan_eq hcovers hbase hn]
    exact ⟨_, rfl, rfl, refines_whole (innerSpan_le hcovers hbase hn).1⟩
  · have hspans := @refines_tokenizeInner a base hbest segment.1 (hforward segment.1)
    refine ⟨_, rfl, ?_, refines_innerSpan hcovers hspans hn id⟩
    rw [List.map_map, ← @map_fst_tokenizeInner a base segment.1]
    rfl

/-- Segments are found one behind the other, and so are their tokens. -/
theorem segmentLoopWithSpans_spec (hbest : ∀ t, size (a.bestTokens t).flatten ≤ size t)
    (hforward : ∀ t, (a.maxForward t).flatten = t)
    (hsentences : ∀ t, (a.sentenceSplitter t).flatten.Sublist t) {strline before : Text}
    {arr : List (Text × Bool)} (hcovers : Covers table (size strline) stop)
    (hline : before ++ (arr.map Prod.fst).flatten = strline)
    (hne : ∀ segment ∈ arr, segment.1 ≠ []) :
    ∃ tokens, a.segmentLoopWithSpans strline table stop before.length arr = some tokens ∧
      tokens.map Prod.fst = arr.flatMap a.segmentTokens ∧
      Refines (innerSpan table (size before, size strline)) tokens := by
  induction arr generalizing before with
  | nil => exact ⟨[], rfl, rfl, refines_nil⟩
  | cons segment arr ih =>
    obtain ⟨hsegment, harr⟩ := List.forall_mem_cons.mp hne
    rw [List.map_cons, List.flatten_cons] at hline
    have hbefore : size (strline.take before.length) = size before := by
      rw [← hline, List.take_left]
    have hsize : size (before ++ segment.1) = size before + size segment.1 := size_append _ _
    have hle : size before + size segment.1 ≤ size strline := by
      rw [← hline, size_append, size_append]
      omega
    obtain ⟨tokens, htokens, hfst, hrefines⟩ :=
      segmentWithSpans_spec hbest hforward hsentences hcovers hle
    obtain ⟨rest, hrest, hfstRest, hrefinesRest⟩ :=
      @ih (before ++ segment.1) (by rw [List.append_assoc, hline]) harr
    rw [List.length_append] at hrest
    rw [hsize] at hrefinesRest
    refine ⟨tokens ++ rest, ?_, ?_, ?_⟩
    · rw [segmentLoopWithSpans, if_neg hsegment, findFrom_of_append hline hsegment]
      simp only
      rw [hbefore, htokens, Option.bind_some, hrest, Option.map_some]
    · rw [List.map_append, hfst, hfstRest, List.flatMap_cons]
    · exact hrefines.append hrefinesRest
        (innerSpan_le hcovers (Nat.le_add_right _ _) hle).1
        (innerSpan_le hcovers hle le_rfl).1

end Segments

/-! ## Merging -/

section Merge

variable {a : RAGAnalyzer} {x y : ℕ}

/-- A merged token goes from the start of its first token to the end of its last one. -/
theorem refines_mergeLoop {n : ℕ} {tokens : List (Text × Span)} (h : Refines (x, y) tokens) :
    Refines (x, y) (a.mergeLoopWithSpans n tokens) := by
  induction n generalizing x tokens with
  | zero => exact refines_nil
  | succ n ih =>
    cases tokens with
    | nil => exact refines_nil
    | cons p ps =>
      rw [mergeLoopWithSpans]
      generalize hcount : a.mergeCount ((p :: ps).map Prod.fst) = m
      have hpos : 0 < m := hcount ▸ a.mergeCount_pos _
      obtain ⟨k, rfl⟩ := Nat.exists_eq_succ_of_ne_zero hpos.ne'
      have hne : (p :: ps).take (k + 1) ≠ [] := List.cons_ne_nil _ _
      generalize hmerged : (p :: ps).take (k + 1) = merged at hne
      obtain ⟨front, q, rfl⟩ : ∃ front q, merged = front ++ [q] :=
        ⟨_, _, (List.dropLast_append_getLast hne).symm⟩
      have hp : p ∈ front ++ [q] := by
        rw [← hmerged, List.take_succ_cons]
        exact List.mem_cons_self
      have hall := List.take_append_drop (k + 1) (p :: ps)
      rw [hmerged, List.append_assoc, List.singleton_append] at hall
      rw [← hall] at h
      obtain ⟨hx, hpq, hy, hrest⟩ := h.of_append hp
      simp only [List.getLast?_concat, Option.getD_some]
      have hone : Refines (x, q.2.2) [(((front ++ [q]).map Prod.fst).flatten, p.2.1, q.2.2)] :=
        (refines_whole hpq).widen hx le_rfl
      exact hone.append (ih hrest) (hx.trans hpq) hy

theorem map_fst_mergeLoop {n : ℕ} {tokens : List (Text × Span)} :
    (a.mergeLoopWithSpans n tokens).map Prod.fst = a.mergeLoop n (tokens.map Prod.fst) := by
  induction n generalizing tokens with
  | zero => rfl
  | succ n ih =>
    cases tokens with
    | nil => rfl
    | cons p ps =>
      rw [mergeLoopWithSpans, List.map_cons, ih, List.map_take, List.map_drop, List.map_cons,
        mergeLoop]

theorem refines_mergeWithSpans {tokens : List (Text × Span)} (h : Refines (x, y) tokens) :
    Refines (x, y) (a.mergeWithSpans tokens) :=
  refines_mergeLoop (h.sublist List.filter_sublist)

theorem map_fst_mergeWithSpans (tokens : List (Text × Span)) :
    (a.mergeWithSpans tokens).map Prod.fst = a.mergeWithPosition (tokens.map Prod.fst) := by
  rw [mergeWithSpans, map_fst_mergeLoop, mergeWithPosition, mergeTokens, List.filter_map,
    List.length_map]
  rfl

end Merge

end RAGAnalyzer

theorem size_bestTokens_le (trie : DartsTrie) (t : Text) :
    size (bestTokens trie t).flatten ≤ size t := by
  by_cases ht : t = []
  · rw [ht]
    exact le_rfl
  · rcases @bestTokens_cases trie t ht with hbest | hbest
    · rw [hbest]
    · rw [hbest]
      exact Nat.zero_le _

/-- Every line is tokenized with positions: nothing is read behind the table, and the spans lie in
the line, one behind the other. -/
theorem tokenizeWithSpans_refines (a : RAGAnalyzer) (trie : DartsTrie) (isWord : Char → Bool)
    (line : Text) :
    ∃ tokens, (withWords (withTrie a trie) isWord).tokenizeWithSpans isWord line = some tokens ∧
      tokens.map Prod.fst = (withWords (withTrie a trie) isWord).tokenizeWithPosition line ∧
      RAGAnalyzer.Refines (0, size line) tokens := by
  have hcovers := finalPosMapping_covers isWord a.convert line
  obtain ⟨tokens, htokens, hfst, hrefines⟩ := @RAGAnalyzer.segmentLoopWithSpans_spec
    (withWords (withTrie a trie) isWord) _ _ (size_bestTokens_le trie)
    (fun t => (maxForward_spec trie t).1) (fun t => RAGAnalyzer.sentencesFrom_sublist t.length t)
    _ [] _ hcovers (RAGAnalyzer.flatten_splitByLang _)
    (fun _ h => (RAGAnalyzer.of_mem_splitByLang h).1)
  have hend := (RAGAnalyzer.innerSpan_le hcovers (Nat.zero_le _) le_rfl).2
  refine ⟨_, congrArg (Option.map _) htokens, ?_,
    RAGAnalyzer.refines_mergeWithSpans (hrefines.widen (Nat.zero_le _) hend)⟩
  rw [RAGAnalyzer.map_fst_mergeWithSpans, hfst, ← RAGAnalyzer.segmentLoop_splitByLang]
  rfl

end RagflowMineru.Analyzer
