import RagflowMineru.Deepdoc.TextMerge

/-!
# Filtering forewords

What a contents heading lists is left out.  The heading and the first entry behind it are dropped,
and then the boxes up to the next one that begins as the entry does.  How an entry begins is used
as a pattern, and where only blank boxes are behind the heading, one box too many is popped.
-/

namespace RagflowMineru.Deepdoc

open Library
open Document (isSpace)
open MinerU (strip)

/-! ## Headings and entries -/

section Texts

variable (letters : Letters)

/-- `re.match(r"(contents|…|acknowledge)$", re.sub(r"( | |\u3000)+", "", text.lower()))` -/
def isContents (text : List Char) : Bool :=
  let line := (text.flatMap letters.lower).filter fun c => c ≠ ' ' ∧ c ≠ '\u3000'
  ["contents", "目录", "目次", "table of contents", "致谢", "acknowledge"].any fun heading =>
    line = heading.toList ∨ line = heading.toList ++ ['\n']

/-- `re.match(r"[0-9a-zA-Z :'.-]{5,}", text.strip())` -/
def isEng (text : List Char) : Bool :=
  5 ≤ (strip text).length ∧ ((strip text).take 5).all fun c =>
    ('0' ≤ c ∧ c ≤ '9') ∨ ('a' ≤ c ∧ c ≤ 'z') ∨ ('A' ≤ c ∧ c ≤ 'Z') ∨ isOneOf " :'.-" c

/-- `text.split()` -/
def words (text : List Char) : List (List Char) := (text.splitOnP isSpace).filter (· ≠ [])

/-- `prefix`, of a box behind a heading that is English or not. -/
def prefixOf (eng : Bool) (text : List Char) : List Char :=
  if eng then [' '].intercalate ((words (strip text)).take 2) else (strip text).take 3

/-- `re.search(r"(··|··|··)", text)`, which is one pattern three times -/
def hasDots (text : List Char) : Bool := ['·', '·'] <:+: text

end Texts

/-! ## The filter -/

/-- What the loop leaves; `patterns` are the prefixes that boxes were matched with. -/
structure Filtered where
  findit : Bool
  boxes : List TextBox
  patterns : List (List Char)

section Filter

variable (engine : List Char → List Char → Option Bool) (letters : Letters)

/-- The loop over `j`: the place of the first box that matches.  In `engine`, which is `re.match`,
`none` is an `re.error`. -/
def findMatch (pattern : List Char) : List TextBox → Option (Option ℕ)
  | [] => some none
  | b :: rest =>
      match engine pattern b.text with
      | none => none
      | some true => some (some 0)
      | some false => (findMatch pattern rest).map (Option.map (· + 1))

/-- The loop over `i`, with the boxes that are still to come; `none` is an error. -/
def filterFrom (boxes : List TextBox) : Option Filtered :=
  match boxes with
  | [] => some { findit := false, boxes := [], patterns := [] }
  | b :: rest =>
      if isContents letters b.text = false then
        (filterFrom rest).map fun out => { out with boxes := b :: out.boxes }
      else if rest.isEmpty then some { findit := true, boxes := [], patterns := [] }
      else
        match _hskip : rest.dropWhile fun b' => prefixOf (isEng b.text) b'.text = [] with
        -- the inner `break` leaves the cursor at the end, and one more box is popped
        | [] => none
        | entry :: behind =>
            if behind.isEmpty then some { findit := true, boxes := [], patterns := [] }
            else
              let pattern := prefixOf (isEng b.text) entry.text
              match findMatch engine pattern (behind.take 128) with
              | none => none
              | some found =>
                  (filterFrom (behind.drop (found.getD 0))).map fun out =>
                    { out with findit := true, patterns := pattern :: out.patterns }
termination_by boxes.length
decreasing_by
  · simp
  · have hlength := List.length_dropWhile_le
      (fun b' : TextBox => decide (prefixOf (isEng b.text) b'.text = [])) rest
    rw [_hskip] at hlength
    simp only [List.length_cons, List.length_drop] at hlength ⊢
    omega

/-- `page_dirty`, before the pages are told by their counts. -/
def pageDirty (counts : List ℕ) : List TextBox → Option (List ℕ)
  | [] => some counts
  | b :: rest =>
      if hasDots b.text then
        if b.pageNumber.natPred < counts.length then
          pageDirty (counts.modify b.pageNumber.natPred (· + 1)) rest
        else none
      else pageDirty counts rest

def filterForpages (pages : ℕ) (boxes : List TextBox) : Option Filtered :=
  match filterFrom engine letters boxes with
  | none => none
  | some out =>
      if out.findit then some out
      else
        (pageDirty (List.replicate pages 0) out.boxes).map fun counts =>
          { out with boxes := out.boxes.filter fun b => counts.getD b.pageNumber.natPred 0 ≤ 3 }

end Filter

/-! ## Never failing -/

section Regular

variable (engine : List Char → List Char → Option Bool) (letters : Letters)

/-- As a pattern the text matches what begins with it, and nothing else. -/
def StandsForItself (pattern : List Char) : Prop :=
  ∀ text, engine pattern text = some (decide (pattern <+: text))

/-- The filter ends without an error, and what it compares boxes with is compared literally. -/
def NeverFails (pages : ℕ) (boxes : List TextBox) : Prop :=
  ∃ out, filterForpages engine letters pages boxes = some out ∧
    ∀ pattern ∈ out.patterns, StandsForItself engine pattern

/-- The boxes from the first one on, of 128, that begins as the entry does. -/
def fromEntry (pattern : List Char) (behind : List TextBox) : List TextBox :=
  behind.drop (((behind.take 128).findIdx? fun b => pattern <+: b.text).getD 0)

/-- Behind every contents heading that is come to there is no box, or there is one that is not
blank; and if more boxes follow this entry, its prefix stands for itself. -/
inductive Regular : List TextBox → Prop
  | nil : Regular []
  | text {b rest} (hb : isContents letters b.text = false) (hrest : Regular rest) :
      Regular (b :: rest)
  | heading {b} (hb : isContents letters b.text = true) : Regular [b]
  | entry {b rest e} (hb : isContents letters b.text = true)
      (hskip : rest.dropWhile TextBox.isBlank = [e]) : Regular (b :: rest)
  | compared {b rest e behind} (hb : isContents letters b.text = true)
      (hskip : rest.dropWhile TextBox.isBlank = e :: behind) (hbehind : behind ≠ [])
      (hpattern : StandsForItself engine (prefixOf (isEng b.text) e.text))
      (hrest : Regular (fromEntry (prefixOf (isEng b.text) e.text) behind)) : Regular (b :: rest)

end Regular

section Prefixes

variable {t : List Char}

theorem flatten_words (t : List Char) : (words t).flatten = t.filter fun c => !isSpace c := by
  rw [words, List.flatten_filter_ne_nil, flatten_splitOnP]

theorem filter_eq_nil_iff_strip : (t.filter fun c => !isSpace c) = [] ↔ strip t = [] := by
  constructor
  · intro h
    have hall : ∀ c ∈ t, isSpace c := by simpa using h
    rw [strip, List.rdropWhile_eq_nil_iff]
    exact fun c hc => hall c ((List.dropWhile_sublist _).mem hc)
  · intro h
    rw [← filter_strip, h]
    rfl

theorem words_strip_eq_nil_iff : words (strip t) = [] ↔ strip t = [] := by
  constructor
  · intro h
    rw [← filter_eq_nil_iff_strip, ← filter_strip, ← flatten_words, h]
    rfl
  · intro h
    rw [h]
    rfl

theorem ne_nil_of_mem_words {word : List Char} (h : word ∈ words t) : word ≠ [] := by
  simpa using (List.mem_filter.mp h).2

/-- English or not, only a blank text has no prefix. -/
theorem prefixOf_eq_nil_iff (eng : Bool) : prefixOf eng t = [] ↔ strip t = [] := by
  cases eng with
  | false => simp [prefixOf]
  | true =>
      rw [prefixOf, if_pos rfl, ← words_strip_eq_nil_iff]
      rcases hwords : words (strip t) with _ | ⟨word, rest⟩
      · simp
      · have hne : word ≠ [] := ne_nil_of_mem_words (hwords ▸ List.mem_cons_self)
        rcases rest with _ | ⟨word', rest⟩ <;> simp [hne]

theorem prefixOf_eq_nil (eng : Bool) :
    (fun b : TextBox => decide (prefixOf eng b.text = [])) = TextBox.isBlank :=
  funext fun _ => decide_eq_decide.mpr (prefixOf_eq_nil_iff eng)

end Prefixes

section Steps

variable {engine : List Char → List Char → Option Bool} {letters : Letters} {b e : TextBox}
  {rest behind bxs : List TextBox}

theorem findMatch_of_standsForItself {pattern : List Char} (h : StandsForItself engine pattern)
    (bxs : List TextBox) :
    findMatch engine pattern bxs = some (bxs.findIdx? fun b => pattern <+: b.text) := by
  induction bxs with
  | nil => rfl
  | cons b bxs ih =>
      rw [findMatch, h, List.findIdx?_cons]
      by_cases hb : pattern <+: b.text
      · simp [hb]
      · simp [hb, ih]

@[simp]
theorem filterFrom_nil :
    filterFrom engine letters [] = some { findit := false, boxes := [], patterns := [] } := by
  rw [filterFrom]

theorem filterFrom_text (hb : isContents letters b.text = false) :
    filterFrom engine letters (b :: rest) =
      (filterFrom engine letters rest).map fun out => { out with boxes := b :: out.boxes } := by
  rw [filterFrom, if_pos hb]

theorem filterFrom_heading (hb : isContents letters b.text = true) :
    filterFrom engine letters [b] = some { findit := true, boxes := [], patterns := [] } := by
  rw [filterFrom, if_neg (by simp [hb]), if_pos List.isEmpty_nil]

/-- Only blank boxes are behind a heading. -/
theorem filterFrom_blank (hb : isContents letters b.text = true) (hrest : rest ≠ [])
    (hskip : rest.dropWhile TextBox.isBlank = []) :
    filterFrom engine letters (b :: rest) = none := by
  rw [filterFrom, if_neg (by simp [hb]), if_neg (by simpa using hrest)]
  rw [← prefixOf_eq_nil (isEng b.text)] at hskip
  split
  · rfl
  · simp_all

theorem filterFrom_entry (hb : isContents letters b.text = true)
    (hskip : rest.dropWhile TextBox.isBlank = [e]) :
    filterFrom engine letters (b :: rest) =
      some { findit := true, boxes := [], patterns := [] } := by
  have hrest : rest ≠ [] := by
    rintro rfl
    simp at hskip
  rw [filterFrom, if_neg (by simp [hb]), if_neg (by simpa using hrest)]
  rw [← prefixOf_eq_nil (isEng b.text)] at hskip
  split
  · simp_all
  · simp_all

theorem filterFrom_compared (hb : isContents letters b.text = true)
    (hskip : rest.dropWhile TextBox.isBlank = e :: behind) (hbehind : behind ≠ []) :
    filterFrom engine letters (b :: rest) =
      (findMatch engine (prefixOf (isEng b.text) e.text) (behind.take 128)).bind fun found =>
        (filterFrom engine letters (behind.drop (found.getD 0))).map fun out =>
          { out with
            findit := true, patterns := prefixOf (isEng b.text) e.text :: out.patterns } := by
  have hrest : rest ≠ [] := by
    rintro rfl
    simp at hskip
  rw [filterFrom, if_neg (by simp [hb]), if_neg (by simpa using hrest)]
  rw [← prefixOf_eq_nil (isEng b.text)] at hskip
  split
  · simp_all
  · next hskip' =>
      rw [hskip] at hskip'
      obtain ⟨rfl, rfl⟩ := List.cons.inj hskip'
      rw [if_neg (by simpa using hbehind)]
      dsimp only
      cases findMatch engine (prefixOf (isEng b.text) e.text) (behind.take 128) <;> rfl

/-- Without an error, a box behind the entry is looked for literally. -/
theorem filterFrom_literal (hb : isContents letters b.text = true)
    (hskip : rest.dropWhile TextBox.isBlank = e :: behind) (hbehind : behind ≠ [])
    (hpattern : StandsForItself engine (prefixOf (isEng b.text) e.text)) :
    filterFrom engine letters (b :: rest) =
      (filterFrom engine letters (fromEntry (prefixOf (isEng b.text) e.text) behind)).map
        fun out =>
          { out with
            findit := true, patterns := prefixOf (isEng b.text) e.text :: out.patterns } := by
  rw [filterFrom_compared hb hskip hbehind, findMatch_of_standsForItself hpattern, Option.bind_some,
    fromEntry]

theorem length_fromEntry_lt (pattern : List Char)
    (hskip : rest.dropWhile TextBox.isBlank = e :: behind) :
    (fromEntry pattern behind).length < (b :: rest).length := by
  have hlength := List.length_dropWhile_le TextBox.isBlank rest
  rw [hskip] at hlength
  simp only [fromEntry, List.length_cons, List.length_drop] at hlength ⊢
  omega

end Steps

/-! ## Runs -/

section Runs

variable {engine : List Char → List Char → Option Bool} {letters : Letters} {bxs : List TextBox}

theorem Regular.exists_out (h : Regular engine letters bxs) :
    ∃ out, filterFrom engine letters bxs = some out ∧
      ∀ pattern ∈ out.patterns, StandsForItself engine pattern := by
  induction h with
  | nil => exact ⟨_, filterFrom_nil, by simp⟩
  | text hb _ ih =>
      obtain ⟨out, hout, hpatterns⟩ := ih
      refine ⟨_, by rw [filterFrom_text hb, hout, Option.map_some], ?_⟩
      exact hpatterns
  | heading hb => exact ⟨_, filterFrom_heading hb, by simp⟩
  | entry hb hskip => exact ⟨_, filterFrom_entry hb hskip, by simp⟩
  | compared hb hskip hbehind hpattern _ ih =>
      obtain ⟨out, hout, hpatterns⟩ := ih
      refine ⟨_, by rw [filterFrom_literal hb hskip hbehind hpattern, hout, Option.map_some], ?_⟩
      simpa using ⟨hpattern, hpatterns⟩

theorem regular_of_filterFrom {out : Filtered} (hout : filterFrom engine letters bxs = some out)
    (hpatterns : ∀ pattern ∈ out.patterns, StandsForItself engine pattern) :
    Regular engine letters bxs := by
  induction hlength : bxs.length using Nat.strong_induction_on generalizing bxs out with
  | _ n ih =>
      subst hlength
      rcases bxs with _ | ⟨b, rest⟩
      · exact .nil
      rcases hb : isContents letters b.text
      · rw [filterFrom_text hb, Option.map_eq_some_iff] at hout
        obtain ⟨out, hout, rfl⟩ := hout
        exact .text hb (ih rest.length (by simp) hout hpatterns rfl)
      rcases hskip : rest.dropWhile TextBox.isBlank with _ | ⟨e, behind⟩
      · rcases rest with _ | ⟨b', rest⟩
        · exact .heading hb
        · rw [filterFrom_blank hb (by simp) hskip] at hout
          cases hout
      by_cases hne : behind = []
      · exact .entry hb (hne ▸ hskip)
      -- the pattern is among those of the run, whatever was found with it
      have hpattern : StandsForItself engine (prefixOf (isEng b.text) e.text) := by
        rw [filterFrom_compared hb hskip hne, Option.bind_eq_some_iff] at hout
        obtain ⟨found, -, hout⟩ := hout
        obtain ⟨out', -, rfl⟩ := Option.map_eq_some_iff.mp hout
        exact hpatterns _ List.mem_cons_self
      rw [filterFrom_literal hb hskip hne hpattern, Option.map_eq_some_iff] at hout
      obtain ⟨out', hout, rfl⟩ := hout
      exact .compared hb hskip hne hpattern
        (ih _ (length_fromEntry_lt _ hskip) hout
          (fun pattern hp => hpatterns pattern (List.mem_cons_of_mem _ hp)) rfl)

theorem findit_of_isContents {b : TextBox} {rest : List TextBox} {out : Filtered}
    (hb : isContents letters b.text = true)
    (hout : filterFrom engine letters (b :: rest) = some out) : out.findit = true := by
  rcases hskip : rest.dropWhile TextBox.isBlank with _ | ⟨e, behind⟩
  · rcases rest with _ | ⟨b', rest⟩
    · rw [filterFrom_heading hb] at hout
      cases hout
      rfl
    · rw [filterFrom_blank hb (by simp) hskip] at hout
      cases hout
  · by_cases hne : behind = []
    · rw [filterFrom_entry hb (hne ▸ hskip)] at hout
      cases hout
      rfl
    · rw [filterFrom_compared hb hskip hne, Option.bind_eq_some_iff] at hout
      obtain ⟨found, -, hout⟩ := hout
      obtain ⟨out', -, rfl⟩ := Option.map_eq_some_iff.mp hout
      rfl

/-- Where no heading was found, nothing was dropped. -/
theorem boxes_of_findit {out : Filtered} (hout : filterFrom engine letters bxs = some out)
    (hfindit : out.findit = false) : out.boxes = bxs := by
  induction bxs generalizing out with
  | nil =>
      rw [filterFrom_nil] at hout
      cases hout
      rfl
  | cons b rest ih =>
      rcases hb : isContents letters b.text
      · rw [filterFrom_text hb, Option.map_eq_some_iff] at hout
        obtain ⟨out, hout, rfl⟩ := hout
        rw [ih hout hfindit]
      · rw [findit_of_isContents hb hout] at hfindit
        cases hfindit

theorem exists_pageDirty {counts : List ℕ}
    (h : ∀ b ∈ bxs, b.pageNumber.natPred < counts.length) :
    ∃ counts', pageDirty counts bxs = some counts' := by
  induction bxs generalizing counts with
  | nil => exact ⟨counts, rfl⟩
  | cons b rest ih =>
      rw [List.forall_mem_cons] at h
      rw [pageDirty, if_pos h.1]
      split_ifs with hdots
      · exact ih (by simpa using h.2)
      · exact ih h.2

/-- On parsed pages, the filter ends as its loop does. -/
theorem neverFails_iff_filterFrom {pages : ℕ} (hpages : ∀ b ∈ bxs, b.pageNumber ≤ pages) :
    NeverFails engine letters pages bxs ↔
      ∃ out, filterFrom engine letters bxs = some out ∧
        ∀ pattern ∈ out.patterns, StandsForItself engine pattern := by
  rw [NeverFails, filterForpages]
  rcases hout : filterFrom engine letters bxs with _ | out
  · simp
  · rcases hfindit : out.findit
    · have hbound : ∀ b ∈ out.boxes,
          b.pageNumber.natPred < (List.replicate pages 0).length := by
        intro b hb
        rw [boxes_of_findit hout hfindit] at hb
        rw [List.length_replicate]
        have hpred : b.pageNumber.natPred + 1 = b.pageNumber := b.pageNumber.natPred_add_one
        have hpage : (b.pageNumber : ℕ) ≤ pages := hpages b hb
        omega
      obtain ⟨counts, hcounts⟩ := exists_pageDirty hbound
      simp [hfindit, hcounts]
    · simp [hfindit]

/-- The filter never fails exactly if a contents heading is followed by a box that is not blank or
by none, and the prefixes that boxes are compared with stand for themselves. -/
theorem neverFails_iff (engine : List Char → List Char → Option Bool) (letters : Letters)
    (pages : ℕ) (boxes : List TextBox) (hpages : ∀ b ∈ boxes, b.pageNumber ≤ pages) :
    NeverFails engine letters pages boxes ↔ Regular engine letters boxes := by
  rw [neverFails_iff_filterFrom hpages]
  constructor
  · rintro ⟨out, hout, hpatterns⟩
    exact regular_of_filterFrom hout hpatterns
  · exact Regular.exists_out

def line (text : String) : TextBox where
  pageNumber := firstPage
  x0 := 10
  x1 := 100
  top := 20
  bottom := 30
  text := text.toList
  layout := none
  colId := none

def contentsAndEntries : List TextBox :=
  [line "目录", line " ", line "第一章 绪论", line "摘要", line "第一章 绪论"]

theorem neverFails_iff_contentsAndEntries :
    NeverFails (fun pattern text => some (decide (pattern <+: text))) latinLetters 1
        contentsAndEntries ↔
      Regular (fun pattern text => some (decide (pattern <+: text))) latinLetters
        contentsAndEntries :=
  neverFails_iff _ latinLetters 1 contentsAndEntries (by decide)

/-- A blank box is all that follows the heading, and one more is popped. -/
theorem not_neverFails_blank_end :
    ¬ NeverFails (fun pattern text => some (decide (pattern <+: text))) latinLetters 1
        [line "目录", line " "] := by
  rintro ⟨out, hout, -⟩
  rw [filterForpages, filterFrom_blank (by decide) (by decide) (by decide)] at hout
  cases hout

end Runs

end RagflowMineru.Deepdoc
