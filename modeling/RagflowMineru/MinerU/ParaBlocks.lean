import Mathlib.Algebra.Order.Ring.Abs
import RagflowMineru.MinerU.Boxes
import RagflowMineru.MinerU.Otsl

/-!
# Lists and indexes among text blocks

`__is_list_or_index_block` tells from the places and the texts of its lines
whether a text block is a list, an index or plain text, and tags the lines at
which items start and end.  The box of a line is the hull of its spans, so its
left side is not right of its right side.
-/

namespace RagflowMineru.MinerU

/-- What the library for language detection and the tables of Unicode provide. -/
structure TextTools where
  isdigit : Char → Bool
  isupper : Char → Bool
  /-- Whether the category of a character begins with `C`. -/
  isOther : Char → Bool
  detectLanguage : List Char → Except String String

/-- `detect_lang`. -/
def TextTools.detectLang (tools : TextTools) (text : List Char) : Except String String :=
  if text = [] then .ok ""
  else
    let text := text.filter (· ≠ '\n')
    match tools.detectLanguage text with
    | .ok lang => .ok lang.toLower
    | .error _ =>
        (tools.detectLanguage (text.filter fun c => !tools.isOther c)).map String.toLower

structure ParaSpan where
  type : SpanType
  content : List Char
  crossPage : Bool := false
  deriving DecidableEq

structure ParaLine where
  bbox : BBox ℚ
  ordered : bbox.x0 ≤ bbox.x1
  spans : List ParaSpan
  isListStart : Bool := false
  isListEnd : Bool := false
  deriving DecidableEq

namespace ParaLine

def markStart (l : ParaLine) (b : Bool) : ParaLine := { l with isListStart := l.isListStart || b }

def markEnd (l : ParaLine) (b : Bool) : ParaLine := { l with isListEnd := l.isListEnd || b }

/-- A line without the flags that splitting sets. -/
def bare (l : ParaLine) : ParaLine :=
  { l with
    isListStart := false
    isListEnd := false
    spans := l.spans.map fun span => { span with crossPage := false } }

@[simp]
theorem bare_markStart (l : ParaLine) (b : Bool) : (l.markStart b).bare = l.bare := rfl

@[simp]
theorem bare_markEnd (l : ParaLine) (b : Bool) : (l.markEnd b).bare = l.bare := rfl

/-- `line_text`. -/
def text (l : ParaLine) : List Char :=
  (l.spans.filter (·.type = .text)).flatMap fun span => strip span.content

end ParaLine

/-- A block, with the page it is on while the paragraphs are split. -/
structure ParaBlock (δ : Type) where
  type : BlockType
  bbox : BBox ℚ
  lines : List ParaLine
  /-- The other entries. -/
  data : δ
  bboxFs : Option (BBox ℚ) := none
  linesDeleted : Bool := false
  page : Option (ℕ × ℚ × ℚ) := none

variable {δ : Type}

/-- `LIST_END_FLAG`. -/
def listEndFlag : List Char := ['.', '。', ';', '；']

/-- Python's division. -/
def divide (p q : ℚ) : Except String ℚ :=
  if q = 0 then .error "ZeroDivisionError: division by zero" else .ok (p / q)

/-- The least box around lines; `bbox` when there are none. -/
def linesBox (bbox : BBox ℚ) : List ParaLine → BBox ℚ
  | [] => bbox
  | l :: ls => ls.foldl (fun box line => box ⊔ line.bbox) l.bbox

section

variable (tools : TextTools)

/-- How the lines of a block of two or more lines lie in its box `fs`. -/
structure LineLayout where
  fs : BBox ℚ
  lineHeight : ℚ
  blockLang : String
  /-- `block_weight_radio`. -/
  weightRatio : ℚ

namespace LineLayout

variable (g : LineLayout)

def blockWeight : ℚ := g.fs.x1 - g.fs.x0

def blockHeight : ℚ := g.fs.y1 - g.fs.y0

def externalSidesNotClose (line : ParaLine) : Bool :=
  7 / 10 * g.lineHeight < line.bbox.x0 - g.fs.x0 && 7 / 10 * g.lineHeight < g.fs.x1 - line.bbox.x1

def centerClose (line : ParaLine) : Bool :=
  |(line.bbox.x0 + line.bbox.x1) / 2 - (g.fs.x0 + g.fs.x1) / 2| < g.lineHeight / 2

def leftClose (line : ParaLine) : Bool := |g.fs.x0 - line.bbox.x0| < g.lineHeight / 2

def leftNotClose (line : ParaLine) : Bool :=
  !g.leftClose line && g.lineHeight < line.bbox.x0 - g.fs.x0

def rightClose (line : ParaLine) : Bool := |g.fs.x1 - line.bbox.x1| < g.lineHeight

/-- `closed_area`. -/
def closedArea : ℚ :=
  if g.blockLang ∈ ["zh", "ja", "ko"] then 26 / 100 * g.blockWeight
  else if 1 / 2 ≤ g.weightRatio then 26 / 100 * g.blockWeight
  else 36 / 100 * g.blockWeight

def rightNotClose (line : ParaLine) : Bool :=
  !g.rightClose line && g.closedArea < g.fs.x1 - line.bbox.x1

/-- `multiple_para_flag`. -/
def multiplePara (first last : ParaLine) : Bool :=
  g.lineHeight / 2 < first.bbox.x0 - g.fs.x0 && |last.bbox.x0 - g.fs.x0| < g.lineHeight / 2 &&
    g.lineHeight < g.fs.x1 - last.bbox.x1

end LineLayout

def startsWithDigit (text : List Char) : Bool := text.head?.any tools.isdigit

def endsWithDigit (text : List Char) : Bool := text.getLast?.any tools.isdigit

def endsWithFlag (text : List Char) : Bool := text.getLast?.any (· ∈ listEndFlag)

/-- The lines at which an item ends are tagged, and the line behind each as a start. -/
def tagEnds (isEnd : ParaLine → Bool) : Bool → List ParaLine → List ParaLine
  | _, [] => []
  | behindEnd, line :: lines =>
      ((line.markStart behindEnd).markEnd (isEnd line)) :: tagEnds isEnd (isEnd line) lines

/-- The tags of a list that is neither an index nor centered. -/
def tagItems (g : LineLayout) (lines : List ParaLine) : List ParaLine :=
  let n : ℚ := lines.length
  let texts := lines.map ParaLine.text
  let flagEndCount := texts.countP endsWithFlag
  let numStartCount := texts.countP (startsWithDigit tools)
  if 8 / 10 < lines.countP g.leftClose / n then
    if flagEndCount = 0 ∧ lines.countP g.rightClose / n < 1 / 2 then
      lines.map fun line => line.markStart (g.leftClose line)
    else if 8 / 10 ≤ flagEndCount / n then tagEnds (fun line => endsWithFlag line.text) false lines
    else tagEnds (fun line => 1 / 10 * g.blockWeight < |g.fs.x1 - line.bbox.x1|) false lines
  else if 2 ≤ numStartCount ∧ numStartCount = flagEndCount then
    lines.map fun line =>
      (line.markStart (startsWithDigit tools line.text)).markEnd (endsWithFlag line.text)
  else
    lines.map fun line =>
      (line.markStart (g.leftClose line)).markEnd (g.lineHeight < |g.fs.x1 - line.bbox.x1|)

/-- The condition of a centered list, whose last part divides by the width of the block. -/
def centeredList (g : LineLayout) (lines : List ParaLine) : Except String Bool :=
  if 2 ≤ lines.countP g.externalSidesNotClose ∧ lines.countP g.centerClose = lines.length ∧
      (1 : ℚ) / 2 ≤ lines.countP g.externalSidesNotClose / lines.length then do
    let ratio ← divide g.blockHeight g.blockWeight
    pure (4 / 10 < ratio)
  else pure false

/-- The branches of `__is_list_or_index_block` for a block of two or more lines. -/
def judgeLines (g : LineLayout) (first last : ParaLine) (lines : List ParaLine) :
    Except String (BlockType × List ParaLine) := do
  let n : ℚ := lines.length
  let texts := lines.map ParaLine.text
  let lineNumFlag := 8 / 10 ≤ texts.countP (startsWithDigit tools) / n ∨
    8 / 10 ≤ texts.countP (endsWithDigit tools) / n
  if (8 / 10 ≤ lines.countP g.leftClose / n ∨ 8 / 10 ≤ lines.countP g.rightClose / n) ∧
      lineNumFlag then
    pure (.index, lines.map (·.markStart true))
  else if ← centeredList g lines then pure (.list, lines.map (·.markStart true))
  else if 2 ≤ lines.countP g.leftClose ∧
      (2 ≤ lines.countP g.rightNotClose ∨ 8 / 10 ≤ texts.countP endsWithFlag / n ∨
        2 ≤ lines.countP g.leftNotClose) ∧ !g.multiplePara first last then
    pure (.list, tagItems tools g lines)
  else pure (.text, lines)

/-- `__is_list_or_index_block`: the type, and the lines with their tags. -/
def isListOrIndexBlock (block : ParaBlock δ) : Except String (BlockType × List ParaLine) :=
  match block.lines, block.bboxFs, block.page with
  | first :: second :: rest, some fs, some (_, pageWeight, _) => do
      let lines := first :: second :: rest
      let blockLang ← tools.detectLang (lines.map ParaLine.text).flatten
      let g : LineLayout :=
        { fs, blockLang
          lineHeight := first.bbox.y1 - first.bbox.y0
          weightRatio := if pageWeight = 0 then 0 else (fs.x1 - fs.x0) / pageWeight }
      judgeLines tools g first ((second :: rest).getLast (List.cons_ne_nil _ _)) lines
  | _ :: _ :: _, none, _ => .error "KeyError: 'bbox_fs'"
  | _ :: _ :: _, _, none => .error "KeyError: 'page_size'"
  | lines, _, _ => pure (.text, lines)

end

/-! ## Lines are only tagged -/

section

variable {tools : TextTools}

/-- Language detection answers for every text without a line break. -/
def TextTools.Detects (tools : TextTools) : Prop :=
  ∀ text, '\n' ∉ text → ∃ lang, tools.detectLanguage text = .ok lang

theorem detectLang_ok (h : tools.Detects) (text : List Char) :
    ∃ lang, tools.detectLang text = .ok lang := by
  rw [TextTools.detectLang]
  split_ifs
  · exact ⟨_, rfl⟩
  · obtain ⟨lang, hlang⟩ := h (text.filter (· ≠ '\n')) (by simp)
    simp only [hlang]
    exact ⟨_, rfl⟩

theorem map_bare_tagEnds (isEnd : ParaLine → Bool) (behindEnd : Bool) (lines : List ParaLine) :
    (tagEnds isEnd behindEnd lines).map ParaLine.bare = lines.map ParaLine.bare := by
  induction lines generalizing behindEnd with
  | nil => rfl
  | cons line lines ih =>
      rw [tagEnds, List.map_cons, List.map_cons, ih, ParaLine.bare_markEnd,
        ParaLine.bare_markStart]

theorem map_bare_map {f : ParaLine → ParaLine} (h : ∀ l, (f l).bare = l.bare)
    (lines : List ParaLine) : (lines.map f).map ParaLine.bare = lines.map ParaLine.bare := by
  rw [List.map_map]
  exact List.map_congr_left fun l _ => h l

theorem map_bare_tagItems (g : LineLayout) (lines : List ParaLine) :
    (tagItems tools g lines).map ParaLine.bare = lines.map ParaLine.bare := by
  simp only [tagItems]
  split_ifs
  · apply map_bare_map
    intro l
    rfl
  · exact map_bare_tagEnds _ _ lines
  · exact map_bare_tagEnds _ _ lines
  · apply map_bare_map
    intro l
    rfl
  · apply map_bare_map
    intro l
    rfl

/-- Where the width of the block is divided by, some line lies well inside the block. -/
theorem centeredList_ok (g : LineLayout) (lines : List ParaLine) :
    ∃ b, centeredList g lines = .ok b := by
  rw [centeredList]
  split_ifs with hcond
  · obtain ⟨hexternal, hcenter, -⟩ := hcond
    have hweight : g.blockWeight ≠ 0 := by
      intro hzero
      obtain ⟨line, hline, hext⟩ :=
        List.countP_pos_iff.mp (Nat.lt_of_lt_of_le Nat.two_pos hexternal)
      have hclose := List.countP_eq_length.mp hcenter line hline
      simp only [LineLayout.externalSidesNotClose, LineLayout.centerClose, LineLayout.blockWeight,
        Bool.and_eq_true, decide_eq_true_eq] at hext hclose hzero
      have hheight : 0 < g.lineHeight / 2 := (abs_nonneg _).trans_lt hclose
      have hordered := line.ordered
      linarith [hext.1, hext.2]
    rw [divide, if_neg hweight]
    exact ⟨_, rfl⟩
  · exact ⟨_, rfl⟩

/-- The types of a block that was a text block. -/
def IsText (type : BlockType) : Prop := type = .text ∨ type = .list ∨ type = .index

instance : DecidablePred IsText := fun type =>
  inferInstanceAs (Decidable (type = .text ∨ type = .list ∨ type = .index))

theorem judgeLines_ok (g : LineLayout) (first last : ParaLine) (lines : List ParaLine) :
    ∃ type lines', judgeLines tools g first last lines = .ok (type, lines') ∧ IsText type ∧
      lines'.map ParaLine.bare = lines.map ParaLine.bare := by
  have hstart : (lines.map (·.markStart true)).map ParaLine.bare = lines.map ParaLine.bare := by
    apply map_bare_map
    intro l
    rfl
  obtain ⟨centered, hcentered⟩ := centeredList_ok g lines
  simp only [judgeLines, hcentered, bind, Except.bind]
  split_ifs
  · exact ⟨.index, _, rfl, Or.inr (Or.inr rfl), hstart⟩
  · exact ⟨.list, _, rfl, Or.inr (Or.inl rfl), hstart⟩
  · exact ⟨.list, _, rfl, Or.inr (Or.inl rfl), map_bare_tagItems g lines⟩
  · exact ⟨.text, _, rfl, Or.inl rfl, rfl⟩

/-- A text block becomes text, a list or an index, and keeps its lines. -/
theorem isListOrIndexBlock_ok (h : tools.Detects) {block : ParaBlock δ} (hfs : block.bboxFs ≠ none)
    (hpage : block.page ≠ none) :
    ∃ type lines, isListOrIndexBlock tools block = .ok (type, lines) ∧ IsText type ∧
      lines.map ParaLine.bare = block.lines.map ParaLine.bare := by
  obtain ⟨fs, hfs⟩ := Option.ne_none_iff_exists'.mp hfs
  obtain ⟨⟨num, width, height⟩, hpage⟩ := Option.ne_none_iff_exists'.mp hpage
  rcases hlines : block.lines with - | ⟨first, - | ⟨second, rest⟩⟩
  · exact ⟨.text, [], by rw [isListOrIndexBlock, hlines]; rfl, Or.inl rfl, rfl⟩
  · exact ⟨.text, [first], by rw [isListOrIndexBlock, hlines]; rfl, Or.inl rfl, rfl⟩
  · obtain ⟨lang, hlang⟩ := detectLang_ok h
      ((first :: second :: rest).map ParaLine.text).flatten
    simp only [isListOrIndexBlock, hlines, hfs, hpage, hlang]
    exact judgeLines_ok _ _ _ _

end

end RagflowMineru.MinerU
