import RagflowMineru.MinerU.Otsl
import RagflowMineru.Nlp.Delimiters

/-!
# Elements of a Markdown text

The lines of a text are read from the top.  A line that is not blank begins an element, whose kind
says how many of the lines behind it belong to it: the elements cover all lines that are not blank
and do not overlap.  With delimiters of the user the text is cut at these instead.
-/

namespace RagflowMineru.Deepdoc

open Library MinerU
open Nlp (customDelimiters delimiterMatcher)
open Document (isSpace)

/-- What `\d` and `\w` match. -/
structure CharClasses where
  isDigit : Char → Bool
  isWord : Char → Bool

inductive ElementType where
  | header | codeBlock | listBlock | blockquote | textBlock
  deriving DecidableEq

/-- An element with its lines; one that is cut at delimiters has no type. -/
structure MdElement where
  type : Option ElementType
  content : List Char
  startLine : ℕ
  endLine : ℕ

/-! ## Lines -/

section Lines

variable (cls : CharClasses) (line : List Char)

def isBlank : Bool := strip line = []

/-- `^#{1,6}\s+.*$` -/
def isHeader : Bool :=
  let hashes := (line.takeWhile (· = '#')).length
  1 ≤ hashes && hashes ≤ 6 && (line.drop hashes).head?.any isSpace

def isFence : Bool := "```".toList.isPrefixOf (strip line)

/-- `^\s*[-*+]\s+.*$` -/
def isBullet : Bool :=
  match line.dropWhile isSpace with
  | c :: rest => c ∈ "-*+".toList && rest.head?.any isSpace
  | [] => false

/-- `^\s*\d+\.\s+.*$` -/
def isNumbered : Bool :=
  let item := line.dropWhile isSpace
  let digits := item.takeWhile cls.isDigit
  match item.drop digits.length with
  | c :: rest => digits ≠ [] && c = '.' && rest.head?.any isSpace
  | [] => false

def isQuote : Bool := ">".toList.isPrefixOf (strip line)

/-- `\s{n,}` at the start of the line -/
def indented (n : ℕ) : Bool := n ≤ (line.takeWhile isSpace).length

/-- `^\s+\w+.*$` -/
def isIndentedWord : Bool := indented line 1 && (line.dropWhile isSpace).head?.any cls.isWord

/-- The conditions that end a text block. -/
def isBlockStart : Bool :=
  isHeader line || isFence line || isBullet line || isNumbered cls line || isQuote line

/-- The condition of the loop of `_extract_list_block`; `later` is `i > start_pos`. -/
def inList (later : Bool) : Bool :=
  isBullet line || isNumbered cls line || (later && isBlank line) ||
    (later && (indented line 2 && isBullet line)) ||
    (later && (indented line 2 && isNumbered cls line)) || (later && isIndentedWord cls line)

/-- The condition of the loop of `_extract_blockquote`. -/
def inQuote (later : Bool) : Bool := isQuote line || (later && isBlank line)

end Lines

/-! ## The lines of an element -/

/-- A `while` loop over the lines from the first one of an element on. -/
def linesWhile (keeps : Bool → List Char → Bool) : Bool → List (List Char) → List (List Char)
  | _, [] => []
  | later, line :: lines => if keeps later line then line :: linesWhile keeps true lines else []

/-- The loop of `_extract_code_block`, behind the first line. -/
def codeLines : List (List Char) → List (List Char)
  | [] => []
  | line :: lines => if isFence line then [line] else line :: codeLines lines

/-- The loop of `_extract_text_block`, behind the first line. -/
def textLines (cls : CharClasses) : List (List Char) → List (List Char)
  | [] => []
  | line :: lines =>
      if isBlockStart cls line then []
      else if isBlank line then
        if lines.head?.any (isBlockStart cls) then [] else line :: textLines cls lines
      else line :: textLines cls lines

section Elements

variable (cls : CharClasses) (lines : List (List Char)) (startPos : ℕ)

/-- `"\n".join(content_lines)` with the last of the lines, or the first one if there is none. -/
def mkElement (type : ElementType) (contentLines : List (List Char)) : MdElement :=
  ⟨some type, ['\n'].intercalate contentLines, startPos, startPos + (contentLines.length - 1)⟩

def extractHeader : MdElement := mkElement startPos .header ((lines.drop startPos).take 1)

def extractCodeBlock : MdElement :=
  mkElement startPos .codeBlock
    ((lines.drop startPos).take 1 ++ codeLines (lines.drop (startPos + 1)))

def extractListBlock : MdElement :=
  mkElement startPos .listBlock
    (linesWhile (fun later line => inList cls line later) false (lines.drop startPos))

def extractBlockquote : MdElement :=
  mkElement startPos .blockquote
    (linesWhile (fun later line => inQuote line later) false (lines.drop startPos))

def extractTextBlock : MdElement :=
  mkElement startPos .textBlock
    ((lines.drop startPos).take 1 ++ textLines cls (lines.drop (startPos + 1)))

/-- The element that the line begins; a blank one begins none. -/
def elementAt (line : List Char) : Option MdElement :=
  if isHeader line then some (extractHeader lines startPos)
  else if isFence line then some (extractCodeBlock lines startPos)
  else if isBullet line || isNumbered cls line then some (extractListBlock cls lines startPos)
  else if isQuote line then some (extractBlockquote lines startPos)
  else if ¬ isBlank line then some (extractTextBlock cls lines startPos)
  else none

theorem le_endLine_of_elementAt {line : List Char} {element : MdElement}
    (h : elementAt cls lines startPos line = some element) : startPos ≤ element.endLine := by
  unfold elementAt at h
  split_ifs at h <;> obtain rfl := Option.some.inj h <;> exact Nat.le_add_right _ _

/-- The loop of `extract_elements` from a line on; `emit` is what is appended for an element. -/
def elementsFrom {β : Type} (emit : MdElement → β) (i : ℕ) : List β :=
  if hi : i < lines.length then
    match h : elementAt cls lines i (lines.get ⟨i, hi⟩) with
    | some element => emit element :: elementsFrom emit (element.endLine + 1)
    | none => elementsFrom emit (i + 1)
  else []
  termination_by lines.length - i
  decreasing_by
  · have hle := le_endLine_of_elementAt cls lines i h
    omega
  · omega

end Elements

/-- `get_delimiters`; no delimiter and an empty one are the same. -/
def getDelimiters (delimiter : Option (List Char)) : List (List Char) :=
  customDelimiters (delimiter.getD [])

/-- `text.count("\n", 0, stop)` -/
def newlinesTo (text : List Char) (stop : ℕ) : ℕ := (text.take stop).count '\n'

/-- A part of the text, if it is not blank. -/
def partElement (text : List Char) (start stop : ℕ) : List MdElement :=
  let part := (text.take stop).drop start
  if part ≠ [] ∧ strip part ≠ [] then
    [⟨none, strip part, newlinesTo text start, newlinesTo text stop⟩]
  else []

/-- The loop over the matches, with `last_end`. -/
def partElements (text : List Char) : ℕ → List (ℕ × ℕ) → List MdElement
  | lastEnd, [] => partElement text lastEnd text.length
  | lastEnd, m :: spans => partElement text lastEnd m.1 ++ partElements text m.2 spans

/-- `re.split` -/
def reSplit (dels : List (List Char)) (text : List Char) : List (List Char) :=
  ((delimiterMatcher dels).scan text).1 :: ((delimiterMatcher dels).scan text).2.map Prod.snd

/-- `extract_elements`, with `include_meta`. -/
def extractElements (cls : CharClasses) (markdownContent : List Char)
    (delimiter : Option (List Char)) : List MdElement :=
  let lines := markdownContent.splitOn '\n'
  let dels := getDelimiters delimiter
  if dels ≠ [] then
    let text := ['\n'].intercalate lines
    partElements text 0 ((delimiterMatcher dels).spans text)
  else (elementsFrom cls lines id 0).filter fun e => strip e.content ≠ []

/-- `extract_elements`, without `include_meta`. -/
def extractSections (cls : CharClasses) (markdownContent : List Char)
    (delimiter : Option (List Char)) : List (List Char) :=
  let lines := markdownContent.splitOn '\n'
  let dels := getDelimiters delimiter
  if dels ≠ [] then
    let text := ['\n'].intercalate lines
    ((reSplit dels text).filter fun p => p ≠ [] ∧ strip p ≠ []).map strip
  else (elementsFrom cls lines MdElement.content 0).filter fun s => strip s ≠ []

/-! ## Blank lines -/

section Blank

variable {cls : CharClasses} {line : List Char}

theorem isBlank_iff : isBlank line = true ↔ ∀ c ∈ line, isSpace c = true := by
  rw [isBlank, decide_eq_true_eq, strip, List.rdropWhile_eq_nil_iff]
  constructor
  · intro h
    rw [← List.dropWhile_eq_nil_iff]
    rcases hdrop : line.dropWhile isSpace with _ | ⟨c, rest⟩
    · rfl
    · have hnot := List.head_dropWhile_not isSpace (by rw [hdrop]; exact List.cons_ne_nil c rest)
      rw [hdrop] at h
      simp only [hdrop, List.head_cons] at hnot
      rw [h c List.mem_cons_self] at hnot
      cases hnot
  · intro h c hc
    exact h c ((List.dropWhile_suffix isSpace).subset hc)

theorem isBlank_eq_false_of_mem {c : Char} (hc : c ∈ line) (hspace : isSpace c = false) :
    isBlank line = false := by
  rw [← Bool.not_eq_true, isBlank_iff]
  intro h
  rw [h c hc] at hspace
  cases hspace

theorem isBlank_eq_false_of_dropWhile (h : line.dropWhile isSpace ≠ []) :
    isBlank line = false := by
  rw [← Bool.not_eq_true, isBlank_iff]
  exact fun hall => h (List.dropWhile_eq_nil_iff.mpr hall)

theorem isBlank_eq_false_of_isPrefixOf {c : Char} {mark : List Char}
    (h : (c :: mark).isPrefixOf (strip line) = true) : isBlank line = false := by
  rw [isBlank, decide_eq_false_iff_not]
  intro hnil
  rw [hnil] at h
  cases h

/-- A line that begins a block of its own is not blank. -/
theorem isBlank_eq_false_of_isBlockStart (h : isBlockStart cls line = true) :
    isBlank line = false := by
  simp only [isBlockStart, Bool.or_eq_true] at h
  rcases h with (((hheader | hfence) | hbullet) | hnumbered) | hquote
  · have hhash : '#' ∈ line := by
      rcases line with _ | ⟨c, rest⟩
      · cases hheader
      · by_cases hc : c = '#'
        · rw [hc]
          exact List.mem_cons_self
        · simp [isHeader, hc] at hheader
    exact isBlank_eq_false_of_mem hhash (by decide)
  · exact isBlank_eq_false_of_isPrefixOf hfence
  · refine isBlank_eq_false_of_dropWhile fun hnil => ?_
    rw [isBullet, hnil] at hbullet
    cases hbullet
  · refine isBlank_eq_false_of_dropWhile fun hnil => ?_
    simp [isNumbered, hnil] at hnumbered
  · exact isBlank_eq_false_of_isPrefixOf hquote

end Blank

/-! ## The lines that an element takes -/

section Taking

variable {cls : CharClasses} {lines : List (List Char)} {i : ℕ} {line : List Char}

theorem linesWhile_isPrefix (keeps : Bool → List Char → Bool) (later : Bool)
    (lines : List (List Char)) : linesWhile keeps later lines <+: lines := by
  induction lines generalizing later with
  | nil => exact List.nil_prefix
  | cons line lines ih =>
      rw [linesWhile]
      split_ifs
      · exact List.cons_prefix_cons.mpr ⟨rfl, ih true⟩
      · exact List.nil_prefix

theorem codeLines_isPrefix (lines : List (List Char)) : codeLines lines <+: lines := by
  induction lines with
  | nil => exact List.nil_prefix
  | cons line lines ih =>
      rw [codeLines]
      split_ifs
      · exact List.cons_prefix_cons.mpr ⟨rfl, List.nil_prefix⟩
      · exact List.cons_prefix_cons.mpr ⟨rfl, ih⟩

theorem textLines_isPrefix (cls : CharClasses) (lines : List (List Char)) :
    textLines cls lines <+: lines := by
  induction lines with
  | nil => exact List.nil_prefix
  | cons line lines ih =>
      rw [textLines]
      split_ifs
      · exact List.nil_prefix
      · exact List.nil_prefix
      · exact List.cons_prefix_cons.mpr ⟨rfl, ih⟩
      · exact List.cons_prefix_cons.mpr ⟨rfl, ih⟩

/-- An element that takes the line and some of the lines behind it. -/
structure TakesFrom (lines : List (List Char)) (i : ℕ) (e : MdElement) : Prop where
  startLine_eq : e.startLine = i
  le : i ≤ e.endLine
  lt : e.endLine < lines.length
  content_eq : e.content = ['\n'].intercalate ((lines.take (e.endLine + 1)).drop e.startLine)

theorem takesFrom_mkElement (type : ElementType) {rest taken : List (List Char)}
    (hdrop : lines.drop i = line :: rest) (htaken : taken <+: rest) :
    TakesFrom lines i (mkElement i type (line :: taken)) := by
  obtain ⟨behind, rfl⟩ := htaken
  have hlen : lines.length - i = (line :: (taken ++ behind)).length := by
    rw [← hdrop, List.length_drop]
  rw [List.length_cons, List.length_append] at hlen
  refine ⟨rfl, Nat.le_add_right _ _, ?_, ?_⟩
  · rw [mkElement, List.length_cons]
    dsimp only
    omega
  · have hend : i + ((line :: taken).length - 1) + 1 = i + (line :: taken).length := by
      rw [List.length_cons]
      omega
    rw [mkElement]
    dsimp only
    rw [hend, List.drop_take, Nat.add_sub_cancel_left, hdrop, ← List.cons_append, List.take_left]

/-- A line that is not blank begins an element, and a blank one none. -/
theorem elementAt_eq_none_iff : elementAt cls lines i line = none ↔ isBlank line = true := by
  constructor
  · intro h
    unfold elementAt at h
    split_ifs at h with hheader hfence hlist hquote hblank
    exact hblank
  · intro h
    have hstart : ¬ isBlockStart cls line = true := fun hstart => by
      rw [isBlank_eq_false_of_isBlockStart hstart] at h
      cases h
    simp only [isBlockStart, Bool.or_eq_true, not_or] at hstart
    obtain ⟨⟨⟨⟨hheader, hfence⟩, hbullet⟩, hnumbered⟩, hquote⟩ := hstart
    rw [elementAt, if_neg hheader, if_neg hfence, if_neg (by simp [hbullet, hnumbered]),
      if_neg hquote, if_neg (not_not.mpr h)]

theorem takesFrom_of_elementAt {rest : List (List Char)} {e : MdElement}
    (hdrop : lines.drop i = line :: rest) (h : elementAt cls lines i line = some e) :
    TakesFrom lines i e := by
  have hrest : lines.drop (i + 1) = rest := by
    rw [← List.drop_drop, hdrop]
    rfl
  unfold elementAt at h
  split_ifs at h with hheader hfence hlist hquote hblank
  · obtain rfl := Option.some.inj h
    rw [extractHeader, hdrop]
    exact takesFrom_mkElement _ hdrop List.nil_prefix
  · obtain rfl := Option.some.inj h
    rw [extractCodeBlock, hdrop, hrest]
    exact takesFrom_mkElement _ hdrop (codeLines_isPrefix rest)
  · obtain rfl := Option.some.inj h
    have hfirst : inList cls line false = true := by
      rw [inList]
      simp only [hlist, Bool.true_or]
    rw [extractListBlock, hdrop, linesWhile, if_pos hfirst]
    exact takesFrom_mkElement _ hdrop (linesWhile_isPrefix _ true rest)
  · obtain rfl := Option.some.inj h
    have hfirst : inQuote line false = true := by
      rw [inQuote, hquote, Bool.true_or]
    rw [extractBlockquote, hdrop, linesWhile, if_pos hfirst]
    exact takesFrom_mkElement _ hdrop (linesWhile_isPrefix _ true rest)
  · obtain rfl := Option.some.inj h
    rw [extractTextBlock, hdrop, hrest]
    exact takesFrom_mkElement _ hdrop (textLines_isPrefix cls rest)

end Taking

/-! ## The elements of a text -/

/-- The elements take lines from `i` on, one element behind the other, and every line from there on
that is not blank is in one of them. -/
structure CoversFrom (lines : List (List Char)) (i : ℕ) (elements : List MdElement) : Prop where
  takes : ∀ e ∈ elements, i ≤ e.startLine ∧ TakesFrom lines e.startLine e
  increasing : elements.Pairwise fun e e' => e.endLine < e'.startLine
  covers : ∀ j line, i ≤ j → lines[j]? = some line → isBlank line = false →
    elements.countP (fun e => e.startLine ≤ j ∧ j ≤ e.endLine) = 1

section Covering

variable {cls : CharClasses} {lines : List (List Char)} {i : ℕ}

theorem CoversFrom.skip {elements : List MdElement} (h : CoversFrom lines (i + 1) elements)
    (hblank : ∀ line, lines[i]? = some line → isBlank line = true) :
    CoversFrom lines i elements := by
  refine ⟨fun e he => ?_, h.increasing, fun j line hj hline hfilled => ?_⟩
  · obtain ⟨hle, htakes⟩ := h.takes e he
    exact ⟨Nat.le_of_succ_le hle, htakes⟩
  · rcases Nat.eq_or_lt_of_le hj with rfl | hlt
    · rw [hblank line hline] at hfilled
      cases hfilled
    · exact h.covers j line hlt hline hfilled

theorem CoversFrom.cons {e : MdElement} {elements : List MdElement}
    (he : TakesFrom lines i e) (h : CoversFrom lines (e.endLine + 1) elements) :
    CoversFrom lines i (e :: elements) := by
  have hstart := he.startLine_eq
  refine ⟨fun e' he' => ?_, List.pairwise_cons.mpr ⟨fun e' he' => ?_, h.increasing⟩,
    fun j line hj hline hfilled => ?_⟩
  · rcases List.mem_cons.mp he' with rfl | he'
    · exact ⟨hstart.ge, by rwa [hstart]⟩
    · obtain ⟨hle, htakes⟩ := h.takes e' he'
      exact ⟨(he.le.trans (Nat.le_succ _)).trans hle, htakes⟩
  · exact (h.takes e' he').1
  · rw [List.countP_cons]
    by_cases hin : j ≤ e.endLine
    · have hbehind : elements.countP (fun e => e.startLine ≤ j ∧ j ≤ e.endLine) = 0 := by
        rw [List.countP_eq_zero]
        intro e' he' hin'
        have hlt := (h.takes e' he').1
        have hstart' := (of_decide_eq_true hin').1
        omega
      rw [hbehind, if_pos (by simp [hstart, hj, hin])]
    · rw [h.covers j line (not_le.mp hin) hline hfilled, if_neg (by simp [hin])]

theorem coversFrom_elementsFrom (cls : CharClasses) (lines : List (List Char)) (i : ℕ) :
    CoversFrom lines i (elementsFrom cls lines id i) := by
  fun_induction elementsFrom cls lines id i with
  | case1 i hi e he ih =>
      have hdrop := List.drop_eq_getElem_cons hi
      exact CoversFrom.cons (takesFrom_of_elementAt hdrop he) ih
  | case2 i hi hnone ih =>
      refine ih.skip fun line hline => ?_
      rw [List.getElem?_eq_getElem hi] at hline
      obtain rfl := Option.some.inj hline
      exact elementAt_eq_none_iff.mp hnone
  | case3 i hi =>
      refine ⟨fun e he => absurd he List.not_mem_nil, .nil, fun j line hj hline => ?_⟩
      have hlt := (List.getElem?_eq_some_iff.mp hline).1
      exact absurd (hj.trans_lt hlt) hi

section Emitting

variable {β : Type} {emit : MdElement → β} {hi : i < lines.length}

theorem elementsFrom_of_some {e : MdElement}
    (h : elementAt cls lines i (lines.get ⟨i, hi⟩) = some e) :
    elementsFrom cls lines emit i = emit e :: elementsFrom cls lines emit (e.endLine + 1) := by
  rw [elementsFrom, dif_pos hi]
  split
  · rename_i e' he
    obtain rfl := Option.some.inj (h.symm.trans he)
    rfl
  · rename_i he
    cases h.symm.trans he

theorem elementsFrom_of_none (h : elementAt cls lines i (lines.get ⟨i, hi⟩) = none) :
    elementsFrom cls lines emit i = elementsFrom cls lines emit (i + 1) := by
  rw [elementsFrom, dif_pos hi]
  split
  · rename_i he
    cases h.symm.trans he
  · rfl

/-- What is appended for an element is all that the modes differ in. -/
theorem elementsFrom_map (emit : MdElement → β) (i : ℕ) :
    elementsFrom cls lines emit i = (elementsFrom cls lines id i).map emit := by
  fun_induction elementsFrom cls lines id i with
  | case1 i hi e he ih => rw [elementsFrom_of_some he, ih, List.map_cons, id_eq]
  | case2 i hi hnone ih => rw [elementsFrom_of_none hnone, ih]
  | case3 i hi => rw [elementsFrom, dif_neg hi, List.map_nil]

end Emitting

theorem TakesFrom.strip_content_ne_nil {e : MdElement} (h : TakesFrom lines i e)
    (hi : i < lines.length) (hblank : isBlank (lines.get ⟨i, hi⟩) = false) :
    strip e.content ≠ [] := by
  have hlines : (lines.take (e.endLine + 1)).drop e.startLine =
      lines.get ⟨i, hi⟩ :: (lines.drop (i + 1)).take (e.endLine - i) := by
    have hle := h.le
    rw [h.startLine_eq, List.drop_take, List.drop_eq_getElem_cons hi, Nat.succ_sub hle,
      List.take_succ_cons]
    rfl
  have hcontent : ∃ behind, e.content = lines.get ⟨i, hi⟩ ++ behind := by
    rw [h.content_eq, hlines]
    rcases (lines.drop (i + 1)).take (e.endLine - i) with _ | ⟨next, rest⟩
    · exact ⟨[], by simp⟩
    · exact ⟨_, by rw [List.intercalate_cons_cons, List.append_assoc]⟩
  obtain ⟨behind, hcontent⟩ := hcontent
  rw [← Bool.not_eq_true, isBlank_iff] at hblank
  have hfilled : isBlank e.content = false := by
    rw [← Bool.not_eq_true, isBlank_iff, hcontent]
    exact fun hall => hblank fun c hc => hall c (List.mem_append_left _ hc)
  exact of_decide_eq_false hfilled

/-- No element is blank, as its first line is not. -/
theorem strip_content_ne_nil (cls : CharClasses) (lines : List (List Char)) (i : ℕ) :
    ∀ e ∈ elementsFrom cls lines id i, strip e.content ≠ [] := by
  fun_induction elementsFrom cls lines id i with
  | case1 i hi e he ih =>
      have htakes := takesFrom_of_elementAt (List.drop_eq_getElem_cons hi) he
      refine List.forall_mem_cons.mpr ⟨htakes.strip_content_ne_nil hi ?_, ih⟩
      refine Bool.eq_false_iff.mpr fun hblank => ?_
      have hnone : elementAt cls lines i lines[i] = none := elementAt_eq_none_iff.mpr hblank
      exact Option.some_ne_none e (he.symm.trans hnone)
  | case2 i hi hnone ih => exact ih
  | case3 i hi => exact fun e he => absurd he List.not_mem_nil

end Covering

/-! ## The two modes -/

section Modes

theorem map_content_partElement (text : List Char) (start stop : ℕ) :
    (partElement text start stop).map MdElement.content =
      ([(text.take stop).drop start].filter fun p => p ≠ [] ∧ strip p ≠ []).map strip := by
  rw [partElement]
  by_cases h : (text.take stop).drop start ≠ [] ∧ strip ((text.take stop).drop start) ≠ []
  · rw [if_pos h, List.filter_cons_of_pos (by exact decide_eq_true h)]
    rfl
  · rw [if_neg h, List.filter_cons_of_neg (by simpa using h)]
    rfl

theorem map_content_partElements (text : List Char) (lastEnd : ℕ) (spans : List (ℕ × ℕ)) :
    (partElements text lastEnd spans).map MdElement.content =
      ((partsBetween text lastEnd spans).filter fun p => p ≠ [] ∧ strip p ≠ []).map strip := by
  induction spans generalizing lastEnd with
  | nil =>
      rw [partElements, map_content_partElement, partsBetween, List.take_length]
  | cons m spans ih =>
      rw [partElements, List.map_append, map_content_partElement, ih, partsBetween,
        ← List.map_append, ← List.filter_append]
      rfl

theorem map_content_extractElements (cls : CharClasses) (markdownContent : List Char)
    (delimiter : Option (List Char)) :
    (extractElements cls markdownContent delimiter).map MdElement.content =
      extractSections cls markdownContent delimiter := by
  rw [extractElements, extractSections]
  dsimp only
  split_ifs with hdels
  · rw [map_content_partElements, Matcher.partsBetween_spans]
    rfl
  · rw [elementsFrom_map MdElement.content, List.filter_map]
    rfl

end Modes

/-- Without delimiters the elements cover the lines that are not blank, one behind the other, and
with whatever delimiters their contents are the sections. -/
theorem extractElements_covers (cls : CharClasses) (markdownContent : List Char) :
    CoversFrom (markdownContent.splitOn '\n') 0 (extractElements cls markdownContent none) ∧
      ∀ delimiter, (extractElements cls markdownContent delimiter).map MdElement.content =
        extractSections cls markdownContent delimiter := by
  refine ⟨?_, map_content_extractElements cls markdownContent⟩
  have hall := coversFrom_elementsFrom cls (markdownContent.splitOn '\n') 0
  have hfilled := strip_content_ne_nil cls (markdownContent.splitOn '\n') 0
  have hnone : ¬ getDelimiters none ≠ [] := by decide
  rw [extractElements, if_neg hnone, List.filter_eq_self.mpr fun e he =>
    decide_eq_true (hfilled e he)]
  exact hall

end RagflowMineru.Deepdoc
