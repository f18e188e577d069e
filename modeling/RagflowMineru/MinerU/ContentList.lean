import Mathlib.Algebra.Order.Floor.Ring
import Mathlib.Data.Rat.Floor
import RagflowMineru.Document.TaskReuse

/-!
# Content lists

`union_make` in the mode `CONTENT_LIST`, of the pipeline and of the VLM backend.
The text of a block is a function of its lines, `merge_para_with_text`, of which
each backend has its own.  Fields that no reader of the list uses are left out.
-/

namespace RagflowMineru.MinerU

inductive BlockType where
  | image | table | imageBody | tableBody | imageCaption | tableCaption
  | imageFootnote | tableFootnote | text | title | interlineEquation | list | index
  | discarded | code | codeBody | codeCaption | algorithm | refText | phonetic
  | header | footer | pageNumber | asideText | pageFootnote
  deriving DecidableEq

inductive SpanType where
  | image | table | text | interlineEquation | inlineEquation
  deriving DecidableEq

structure Span where
  type : SpanType
  content : String := ""
  html : String := ""

abbrev Lines := List (List Span)

structure BBox (α : Type*) where
  x0 : α
  y0 : α
  x1 : α
  y1 : α
  deriving DecidableEq

/-- A block inside another one. -/
structure SubBlock where
  type : BlockType
  lines : Lines

structure Block where
  type : BlockType
  lines : Lines := []
  blocks : List SubBlock := []
  bbox : Option (BBox ℚ) := none

structure Page where
  paraBlocks : List Block
  discardedBlocks : List Block
  pageIdx : ℕ
  /-- Width and height. -/
  pageSize : ℚ × ℚ

/-- The value of `type` in an entry. -/
inductive EntryType where
  | image | table | text | equation | code | list | discarded
  | refText | phonetic | header | footer | pageNumber | asideText | pageFootnote
  deriving DecidableEq

/-- An entry of a content list; a key that is missing is `none`. -/
structure Entry where
  type : Option EntryType := none
  text : Option String := none
  listItems : Option (List String) := none
  imageCaption : Option (List String) := none
  imageFootnote : Option (List String) := none
  tableBody : Option String := none
  tableCaption : Option (List String) := none
  tableFootnote : Option (List String) := none
  codeBody : Option String := none
  codeCaption : Option (List String) := none
  bbox : Option (BBox ℤ) := none
  pageIdx : ℕ := 0
  deriving DecidableEq

/-- `not s.strip()`. -/
def isBlank (s : String) : Bool := s.toList.all Document.isSpace

/-- `int(q)`, which cuts off the fraction. -/
def truncate (q : ℚ) : ℤ := if 0 ≤ q then ⌊q⌋ else ⌈q⌉

/-- The last lines of both versions: the box in thousandths of the page. -/
def Entry.place (entry : Entry) (block : Block) (pageIdx : ℕ) (pageSize : ℚ × ℚ) : Entry :=
  { entry with
    bbox := block.bbox.map fun b =>
      { x0 := truncate (b.x0 * 1000 / pageSize.1)
        y0 := truncate (b.y0 * 1000 / pageSize.2)
        x1 := truncate (b.x1 * 1000 / pageSize.1)
        y1 := truncate (b.y1 * 1000 / pageSize.2) }
    pageIdx := pageIdx }

section

variable (mergeParaWithText : Lines → String)

/-- The texts of the blocks of a type. -/
def textsOf (blocks : List SubBlock) (type : BlockType) : List String :=
  (blocks.filter (·.type = type)).map fun b => mergeParaWithText b.lines

/-- The last `html` of a table span in a table body. -/
def tableHtml (blocks : List SubBlock) : Option String :=
  let spans := (blocks.filter (·.type = .tableBody)).flatMap fun b => b.lines.flatten
  (spans.filter fun span => span.type = .table ∧ span.html ≠ "").getLast?.map Span.html

def textEntry (type : EntryType) (block : Block) : Entry :=
  { type, text := some (mergeParaWithText block.lines) }

def imageEntry (block : Block) : Entry :=
  { type := some .image
    imageCaption := some (textsOf mergeParaWithText block.blocks .imageCaption)
    imageFootnote := some (textsOf mergeParaWithText block.blocks .imageFootnote) }

def tableEntry (block : Block) : Entry :=
  { type := some .table
    tableBody := tableHtml block.blocks
    tableCaption := some (textsOf mergeParaWithText block.blocks .tableCaption)
    tableFootnote := some (textsOf mergeParaWithText block.blocks .tableFootnote) }

namespace Pipeline

/-- `none` for an equation without spans. -/
def equationEntry (block : Block) : Option Entry :=
  match block.lines with
  | (span :: _) :: _ =>
      some
        { type := some .equation
          text := if span.content ≠ "" then some (mergeParaWithText block.lines) else none }
  | _ => none

/-- A block of another type has an entry without `type`. -/
def makeBlocksToContentList (block : Block) (pageIdx : ℕ) (pageSize : ℚ × ℚ) : Option Entry :=
  let content : Option Entry :=
    match block.type with
    | .text | .list | .index => some (textEntry mergeParaWithText .text block)
    | .discarded => some (textEntry mergeParaWithText .discarded block)
    | .title => some (textEntry mergeParaWithText .text block)
    | .interlineEquation => equationEntry mergeParaWithText block
    | .image => some (imageEntry mergeParaWithText block)
    | .table => some (tableEntry mergeParaWithText block)
    | _ => some {}
  content.map (·.place block pageIdx pageSize)

def unionMake (pdfInfo : List Page) : List Entry :=
  pdfInfo.flatMap fun page =>
    (page.paraBlocks ++ page.discardedBlocks).filterMap fun block =>
      makeBlocksToContentList mergeParaWithText block page.pageIdx page.pageSize

end Pipeline

namespace Vlm

def listEntry (block : Block) : Entry :=
  { type := some .list
    listItems := some <|
      (block.blocks.map fun b => mergeParaWithText b.lines).filter fun item => !isBlank item }

def codeEntry (block : Block) : Entry :=
  { type := some .code
    codeBody := (textsOf mergeParaWithText block.blocks .codeBody).getLast?
    codeCaption := some (textsOf mergeParaWithText block.blocks .codeCaption) }

/-- A block of another type has an entry without `type`. -/
def makeBlocksToContentList (block : Block) (pageIdx : ℕ) (pageSize : ℚ × ℚ) : Entry :=
  let content : Entry :=
    match block.type with
    | .text => textEntry mergeParaWithText .text block
    | .refText => textEntry mergeParaWithText .refText block
    | .phonetic => textEntry mergeParaWithText .phonetic block
    | .header => textEntry mergeParaWithText .header block
    | .footer => textEntry mergeParaWithText .footer block
    | .pageNumber => textEntry mergeParaWithText .pageNumber block
    | .asideText => textEntry mergeParaWithText .asideText block
    | .pageFootnote => textEntry mergeParaWithText .pageFootnote block
    | .list => listEntry mergeParaWithText block
    | .title => textEntry mergeParaWithText .text block
    | .interlineEquation => textEntry mergeParaWithText .equation block
    | .image => imageEntry mergeParaWithText block
    | .table => tableEntry mergeParaWithText block
    | .code => codeEntry mergeParaWithText block
    | _ => {}
  content.place block pageIdx pageSize

def unionMake (pdfInfo : List Page) : List Entry :=
  pdfInfo.flatMap fun page =>
    (page.paraBlocks ++ page.discardedBlocks).map fun block =>
      makeBlocksToContentList mergeParaWithText block page.pageIdx page.pageSize

end Vlm

inductive Backend where
  | pipeline | vlm

def Backend.unionMake : Backend → List Page → List Entry
  | pipeline => Pipeline.unionMake mergeParaWithText
  | vlm => Vlm.unionMake mergeParaWithText

end

end RagflowMineru.MinerU
