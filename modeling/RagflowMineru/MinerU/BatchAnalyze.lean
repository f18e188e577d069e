import RagflowMineru.Library.Binary64
import RagflowMineru.Library.Scatter
import RagflowMineru.MinerU.Otsl
import RagflowMineru.MinerU.SpanChars

/-!
# Analysing pages in a batch

`BatchAnalyze` gathers the work of all pages, tables and lines of text, hands it
to the models in groups, and writes the results back to the pages.  The models
work image by image, so a page should not notice with which others it was
analysed.  It does in two ways: the texts in its tables are read in the language
of the last page, and its lines come in the order in which the groups of equal
resolution came up in the batch.
-/

namespace RagflowMineru.MinerU.BatchAnalyze

open RagflowMineru.Library

attribute [local instance] lawfulBEq_letters

/-! ## Pages and models -/

/-- A model that predicts a batch as it predicts each item. -/
structure Pointwise (α β : Type*) where
  predict : α → β
  batchPredict : List α → List β
  batch_eq : ∀ l, batchPredict l = l.map predict

/-- A text box: its four corners. -/
structure Quad where
  p1 : ℚ × ℚ
  p2 : ℚ × ℚ
  p3 : ℚ × ℚ
  p4 : ℚ × ℚ

structure IntBox where
  x0 : ℤ
  y0 : ℤ
  x1 : ℤ
  y1 : ℤ

/-- A detected region of a page, as far as the analysis reads it and writes to it. -/
structure LayoutItem (Image Lang : Type*) where
  categoryId : ℤ
  poly : List ℚ
  score : Option ℚ := none
  text : Option (List Char) := none
  npImg : Option Image := none
  lang : Option Lang := none
  html : Option (List Char) := none

/-- An entry of `images_with_extra_info`. -/
structure Page (Image Lang : Type*) where
  image : Image
  ocrEnable : Bool
  lang : Lang

/-- What `get_res_list_from_layout_res` makes of a layout.  Its tables are regions of the layout
that it leaves. -/
structure Regions (Image Lang : Type*) where
  layout : List (LayoutItem Image Lang)
  ocr : List (LayoutItem Image Lang)
  tables : List (Fin layout.length)
  formulas : List IntBox

/-- `useful_list`: the blank that was pasted around, where the crop was, and its new size. -/
structure Useful where
  pasteX : ℤ
  pasteY : ℤ
  crop : IntBox
  newWidth : ℤ
  newHeight : ℤ

/-- A recognised line of a table. -/
structure TableLine where
  dtBox : Quad
  text : List Char
  score : ℚ

inductive TableKind
  | wireless
  | wired
  deriving DecidableEq

/-- How the regions of the pages come about: the settings, the models that find them, and what is
done to images. -/
structure Reader (Image Lang Mfd : Type*) where
  formulaEnable : Bool
  tableEnable : Bool
  enableOcrDetBatch : Bool
  layoutModel : Pointwise Image (List (LayoutItem Image Lang))
  mfdModel : Pointwise Image Mfd
  mfrModel : Pointwise (Mfd × Image) (List (LayoutItem Image Lang))
  getResList : List (LayoutItem Image Lang) → Regions Image Lang
  slice : IntBox → Image → Image
  paste : Useful → Image → Image
  toBgr : Image → Image
  shape : Image → ℕ × ℕ
  pad : ℕ × ℕ → Image → Image
  rotateCrop : Image → Quad → Image

/-- The models that read tables and texts; the functions on detected boxes are taken with them. -/
structure Models (Image Lang : Type*) where
  orientation : Pointwise (Image × Image) (Image × Image)
  rotate : Image × Image → Image × Image
  tableCls : Pointwise (Image × Image) (TableKind × ℚ)
  tableDet : Image → List Quad
  tableRec : Lang → Pointwise Image (List Char × ℚ)
  wirelessTable : Pointwise (Image × List TableLine × Option (List Char)) (Option (List Char))
  wiredTable : Lang → Image → List TableLine → Option (List Char) → List Char
  textDetector : Lang → Pointwise Image (Option (List Quad))
  textOcr : Lang → Image → List IntBox → List Quad
  sortedBoxes : List Quad → List Quad
  mergeDetBoxes : List Quad → List Quad
  updateDetBoxes : List Quad → List IntBox → List Quad
  getOcrResultList : List Quad → Useful → Bool → Image → Lang → List (LayoutItem Image Lang)
  ocrRec : Lang → Pointwise Image (List Char × ℚ)

variable {Image Lang Mfd : Type*} [DecidableEq Lang] (R : Reader Image Lang Mfd)
  (M : Models Image Lang)

/-- `int(poly[0]), int(poly[1]), int(poly[4]), int(poly[5])` -/
def LayoutItem.crop (item : LayoutItem Image Lang) : IntBox :=
  ⟨pyInt (item.poly.getD 0 0), pyInt (item.poly.getD 1 0), pyInt (item.poly.getD 4 0),
    pyInt (item.poly.getD 5 0)⟩

/-! ## Layouts and regions -/

/-- The layouts, with the formulas where they are wanted. -/
def layoutResults (pages : List (Page Image Lang)) : List (List (LayoutItem Image Lang)) :=
  let images := pages.map Page.image
  let layouts := R.layoutModel.batchPredict images
  if R.formulaEnable then
    List.zipWith (· ++ ·) layouts
      (R.mfrModel.batchPredict ((R.mfdModel.batchPredict images).zip images))
  else layouts

/-- A page and its regions. -/
abbrev Sighted (Image Lang : Type*) := Page Image Lang × Regions Image Lang

def sight (pages : List (Page Image Lang)) : List (Sighted Image Lang) :=
  pages.zip ((layoutResults R pages).map R.getResList)

/-! ## Tables -/

/-- An entry of `table_res_list_all_page`: where the table is, and what is found out about it. -/
structure TableEntry (Image Lang : Type*) where
  page : ℕ
  place : ℕ
  lang : Lang
  images : Image × Image
  html : Option (List Char)
  kind : TableKind × ℚ := (.wireless, 1)
  ocrResult : List TableLine := []

/-- `get_crop_table_img` -/
def getCropTableImg (table : LayoutItem Image Lang) (image : Image) (scale : ℚ) : Image :=
  let scaled := fun (n : ℤ) => pyInt (pyInt (n / scale) * scale)
  let box := table.crop
  R.slice ⟨scaled box.x0, scaled box.y0, scaled box.x1, scaled box.y1⟩ image

def pageTables (s : Sighted Image Lang) (index : ℕ) : List (TableEntry Image Lang) :=
  s.2.tables.map fun place =>
    let table := s.2.layout.get place
    { page := index
      place := place
      lang := s.1.lang
      images := (getCropTableImg R table s.1.image 1, getCropTableImg R table s.1.image (10 / 3))
      html := table.html }

/-- The tables, turned upright and classified. -/
def classifyTables (entries : List (TableEntry Image Lang)) : List (TableEntry Image Lang) :=
  let images := entries.map TableEntry.images
  let upright :=
    if R.enableOcrDetBatch then M.orientation.batchPredict images else images.map M.rotate
  let kinds := M.tableCls.batchPredict upright
  List.zipWith (fun entry (found : (Image × Image) × TableKind × ℚ) =>
    { entry with images := found.1, kind := found.2 }) entries (upright.zip kinds)

/-- A crop of a text in a table. -/
structure TableCrop (Image Lang : Type*) where
  lang : Lang
  croppedImg : Image
  dtBox : Quad
  tableId : ℕ

/-- The texts of a table, in the language `_lang` of the loop over the pages. -/
def tableCrops (lang : Lang) (entry : TableEntry Image Lang) (index : ℕ) :
    List (TableCrop Image Lang) :=
  let bgr := R.toBgr entry.images.1
  (M.tableDet bgr).map fun dtBox => ⟨lang, R.rotateCrop bgr dtBox, dtBox, index⟩

def addLine (crop : TableCrop Image Lang) (found : List Char × ℚ) (entry : TableEntry Image Lang) :
    TableEntry Image Lang :=
  { entry with
    ocrResult := entry.ocrResult ++ [⟨crop.dtBox, htmlEscape found.1, found.2⟩] }

/-- The texts of all tables, grouped by language, recognised, and written back. -/
def recognizeTables (lang : Lang) (entries : List (TableEntry Image Lang)) :
    List (TableEntry Image Lang) :=
  let crops := entries.zipIdx.flatMap fun e => tableCrops R M lang e.1 e.2
  (buckets (fun crop : TableCrop Image Lang => [crop.lang]) crops).foldl (fun entries group =>
    let found := (M.tableRec group.1).batchPredict (group.2.map TableCrop.croppedImg)
    (group.2.zip found).foldl (fun entries c => entries.modify c.1.tableId (addLine c.1 c.2))
      entries) entries

/-- The position of the last occurrence. -/
def rfind (p s : List Char) : Option ℕ :=
  (find p.reverse s.reverse).map fun n => s.length - n - p.length

/-- What stands from `<table>` to `</table>`. -/
def cleanHtml (html : List Char) : List Char :=
  match find "<table>".toList html, rfind "</table>".toList html with
  | some start, some stop => (html.take (stop + "</table>".length)).drop start
  | _, _ => html

/-- The wired model is asked too where the table is wired or not surely wireless. -/
def wantsWired (kind : TableKind × ℚ) : Bool :=
  (kind.1 = .wireless && kind.2 < 9 / 10) || kind.1 = .wired

def finishTable (entry : TableEntry Image Lang) : TableEntry Image Lang :=
  let html :=
    if wantsWired entry.kind && !entry.ocrResult.isEmpty then
      some (M.wiredTable entry.lang entry.images.2 entry.ocrResult entry.html)
    else entry.html
  { entry with html := html.map cleanHtml }

/-- The structure of the tables, first of all as wireless ones. -/
def readTables (entries : List (TableEntry Image Lang)) : List (TableEntry Image Lang) :=
  let htmls := M.wirelessTable.batchPredict
    (entries.map fun entry => (entry.images.1, entry.ocrResult, entry.html))
  (List.zipWith (fun entry html => { entry with html }) entries htmls).map (finishTable M)

/-- The table of an entry in its layout. -/
def putTable (entry : TableEntry Image Lang) (layout : List (LayoutItem Image Lang)) :
    List (LayoutItem Image Lang) :=
  layout.modify entry.place fun table => { table with html := entry.html }

/-- The layouts with the tables in them; `lang` is `_lang` after the loop over the pages. -/
def tablePhase (lang : Lang) (pages : List (Sighted Image Lang)) :
    List (List (LayoutItem Image Lang)) :=
  let layouts := pages.map fun s => s.2.layout
  if R.tableEnable then
    let entries := pages.zipIdx.flatMap fun s => pageTables R s.1 s.2
    (readTables M (recognizeTables R M lang (classifyTables R M entries))).foldl
      (fun layouts entry => layouts.modify entry.page (putTable entry)) layouts
  else layouts

/-! ## Lines of text -/

/-- `crop_img`: the crop with blanks around, and where it was. -/
def cropImg (res : LayoutItem Image Lang) (image : Image) (pasteX pasteY : ℤ) : Image × Useful :=
  let box := res.crop
  let useful : Useful :=
    ⟨pasteX, pasteY, box, box.x1 - box.x0 + pasteX * 2, box.y1 - box.y0 + pasteY * 2⟩
  (R.paste useful image, useful)

/-- `get_adjusted_mfdetrec_res`: the formulas in the coordinates of a crop. -/
def getAdjustedMfdetrecRes (formulas : List IntBox) (useful : Useful) : List IntBox :=
  (formulas.map fun box =>
      (⟨box.x0 - useful.crop.x0 + useful.pasteX, box.y0 - useful.crop.y0 + useful.pasteY,
        box.x1 - useful.crop.x0 + useful.pasteX, box.y1 - useful.crop.y0 + useful.pasteY⟩ :
        IntBox)).filter fun box =>
    !(box.x1 < 0 || box.y1 < 0 || box.x0 > useful.newWidth || box.y0 > useful.newHeight)

/-- An entry of `all_cropped_images_info`. -/
structure TextCrop (Image Lang : Type*) where
  bgrImage : Image
  useful : Useful
  page : ℕ
  ocrEnable : Bool
  formulas : List IntBox
  lang : Lang

def pageCrops (s : Sighted Image Lang) (index : ℕ) : List (TextCrop Image Lang) :=
  s.2.ocr.map fun res =>
    let (newImage, useful) := cropImg R res s.1.image 50 50
    { bgrImage := R.toBgr newImage
      useful
      page := index
      ocrEnable := s.1.ocrEnable
      formulas := getAdjustedMfdetrecRes s.2.formulas useful
      lang := s.1.lang }

/-- The size that crops of a group are padded to: multiples of 64. -/
def TextCrop.groupKey (crop : TextCrop Image Lang) : ℕ × ℕ :=
  let (h, w) := R.shape crop.bgrImage
  ((h + 64 - 1) / 64 * 64, (w + 64 - 1) / 64 * 64)

/-- The results for a crop with its detected boxes. -/
def boxesToResults (crop : TextCrop Image Lang) (dtBoxes : Option (List Quad)) :
    List (LayoutItem Image Lang) :=
  match dtBoxes with
  | none => []
  | some dtBoxes =>
      if dtBoxes.isEmpty then []
      else
        let sorted := M.sortedBoxes dtBoxes
        let merged := if sorted.isEmpty then [] else M.mergeDetBoxes sorted
        let final :=
          if !merged.isEmpty && !crop.formulas.isEmpty then M.updateDetBoxes merged crop.formulas
          else merged
        if final.isEmpty then []
        else M.getOcrResultList final crop.useful crop.ocrEnable crop.bgrImage crop.lang

/-- Detection in groups of equal resolution, language by language. -/
def detectInGroups (crops : List (TextCrop Image Lang))
    (layouts : List (List (LayoutItem Image Lang))) : List (List (LayoutItem Image Lang)) :=
  (buckets (fun crop : TextCrop Image Lang => [crop.lang]) crops).foldl (fun layouts langGroup =>
    (buckets (fun crop : TextCrop Image Lang => [crop.groupKey R]) langGroup.2).foldl
      (fun layouts group =>
        let results := (M.textDetector langGroup.1).batchPredict
          (group.2.map fun crop => R.pad group.1 crop.bgrImage)
        (group.2.zip results).foldl (fun layouts c =>
          layouts.modify c.1.page (· ++ boxesToResults M c.1 c.2)) layouts) layouts) layouts

/-- Detection crop by crop. -/
def detectSingly (crop : TextCrop Image Lang) : List (LayoutItem Image Lang) :=
  let boxes := M.textOcr crop.lang crop.bgrImage crop.formulas
  if boxes.isEmpty then []
  else M.getOcrResultList boxes crop.useful crop.ocrEnable crop.bgrImage crop.lang

def detectPhase (pages : List (Sighted Image Lang))
    (layouts : List (List (LayoutItem Image Lang))) : List (List (LayoutItem Image Lang)) :=
  let crops := pages.zipIdx.flatMap fun s => pageCrops R s.1 s.2
  if R.enableOcrDetBatch then detectInGroups R M crops layouts
  else crops.foldl (fun layouts crop => layouts.modify crop.page (· ++ detectSingly M crop)) layouts

/-! ## Recognising the lines -/

/-- `OcrConfidence.min_confidence` -/
def minConfidence : ℚ := 1 / 2

/-- Short texts that are taken for noise when they are uncertain and stand upright. -/
def noise : List (List Char) :=
  ["（204号", "（20", "（2", "（2号", "（20号", "号", "（204", "(cid:)", "(ci:)", "(cd:1)", "cd:)",
    "c)", "(cd:)", "c", "id:)", ":)", "√:)", "√i:)", "−i:)", "−:", "i:)"].map String.toList

/-- A line with its recognised text. -/
def writeText (found : List Char × ℚ) (item : LayoutItem Image Lang) : LayoutItem Image Lang :=
  let (text, score) := found
  let width := item.poly.getD 4 0 - item.poly.getD 0 0
  let height := item.poly.getD 5 0 - item.poly.getD 1 0
  { item with
    npImg := none
    lang := none
    text := some text
    score := some (Binary64.roundHalfEven (score * 1000) / 1000)
    categoryId :=
      if score < minConfidence then 16
      else if text ∈ noise && score < 8 / 10 && width < height then 16
      else item.categoryId }

/-- A line that waits for its text. -/
structure Pending (Image Lang : Type*) where
  page : ℕ
  place : ℕ
  lang : Lang
  npImg : Image

def pending (item : LayoutItem Image Lang) (page place : ℕ) : List (Pending Image Lang) :=
  match item.npImg, item.lang with
  | some npImg, some lang =>
      if item.categoryId = 15 then [⟨page, place, lang, npImg⟩] else []
  | _, _ => []

def layoutPending (layout : List (LayoutItem Image Lang)) (page : ℕ) :
    List (Pending Image Lang) :=
  layout.zipIdx.flatMap fun item => pending item.1 page item.2

def recognizePhase (layouts : List (List (LayoutItem Image Lang))) :
    List (List (LayoutItem Image Lang)) :=
  let waiting := layouts.zipIdx.flatMap fun layout => layoutPending layout.1 layout.2
  (buckets (fun item : Pending Image Lang => [item.lang]) waiting).foldl (fun layouts group =>
    let found := (M.ocrRec group.1).batchPredict (group.2.map Pending.npImg)
    (group.2.zip found).foldl (fun layouts c =>
      layouts.modify c.1.page fun layout => layout.modify c.1.place (writeText c.2)) layouts) layouts

/-! ## The whole analysis -/

/-- `BatchAnalyze.__call__` -/
def analyze (pages : List (Page Image Lang)) : List (List (LayoutItem Image Lang)) :=
  match pages.getLast? with
  | none => []
  | some last =>
      let seen := sight R pages
      recognizePhase M (detectPhase R M seen (tablePhase R M last.lang seen))

/-! ## One table -/

/-- A table, turned upright and classified. -/
def classifyTable (entry : TableEntry Image Lang) : TableEntry Image Lang :=
  let upright :=
    if R.enableOcrDetBatch then M.orientation.predict entry.images else M.rotate entry.images
  { entry with images := upright, kind := M.tableCls.predict upright }

/-- A table with its texts, read in the language `lang`. -/
def recognizeTable (lang : Lang) (entry : TableEntry Image Lang) : TableEntry Image Lang :=
  let bgr := R.toBgr entry.images.1
  { entry with
    ocrResult := entry.ocrResult ++ (M.tableDet bgr).map fun dtBox =>
      let found := (M.tableRec lang).predict (R.rotateCrop bgr dtBox)
      ⟨dtBox, htmlEscape found.1, found.2⟩ }

def structureTable (entry : TableEntry Image Lang) : TableEntry Image Lang :=
  finishTable M { entry with
    html := M.wirelessTable.predict (entry.images.1, entry.ocrResult, entry.html) }

/-- Everything that is found out about a table. -/
def readTable (lang : Lang) (entry : TableEntry Image Lang) : TableEntry Image Lang :=
  structureTable M (recognizeTable R M lang (classifyTable R M entry))

theorem zipWith_map_right {α β γ : Type*} (f : α → β → γ) (g : α → β) (l : List α) :
    List.zipWith f l (l.map g) = l.map fun a => f a (g a) := by
  induction l with
  | nil => rfl
  | cons a l ih => rw [List.map_cons, List.zipWith_cons_cons, ih, List.map_cons]

omit [DecidableEq Lang] in
theorem classifyTables_eq (entries : List (TableEntry Image Lang)) :
    classifyTables R M entries = entries.map (classifyTable R M) := by
  have hupright : (if R.enableOcrDetBatch then M.orientation.batchPredict
        (entries.map TableEntry.images) else (entries.map TableEntry.images).map M.rotate) =
      entries.map fun entry => if R.enableOcrDetBatch then M.orientation.predict entry.images
        else M.rotate entry.images := by
    rw [M.orientation.batch_eq, List.map_map, List.map_map]
    split_ifs
    · rfl
    · rfl
  simp only [classifyTables, hupright, M.tableCls.batch_eq]
  rw [← List.map_prod_left_eq_zip, List.map_map, zipWith_map_right]
  rfl

omit [DecidableEq Lang] in
theorem readTables_eq (entries : List (TableEntry Image Lang)) :
    readTables M entries = entries.map (structureTable M) := by
  simp only [readTables, M.wirelessTable.batch_eq]
  rw [List.map_map, zipWith_map_right, List.map_map]
  rfl

omit [DecidableEq Lang] in
theorem foldl_addLine (found : TableCrop Image Lang → List Char × ℚ)
    (crops : List (TableCrop Image Lang)) (entry : TableEntry Image Lang) :
    crops.foldl (fun entry crop => addLine crop (found crop) entry) entry =
      { entry with
        ocrResult := entry.ocrResult ++ crops.map fun crop =>
          ⟨crop.dtBox, htmlEscape (found crop).1, (found crop).2⟩ } := by
  induction crops generalizing entry with
  | nil => simp
  | cons crop crops ih =>
      rw [List.foldl_cons, ih]
      simp [addLine]

/-- The crops of all tables are in one group, and each table gets its own back. -/
theorem recognizeTables_eq (lang : Lang) (entries : List (TableEntry Image Lang)) :
    recognizeTables R M lang entries = entries.map (recognizeTable R M lang) := by
  have hhome : ∀ (entry : TableEntry Image Lang) (i : ℕ), ∀ crop ∈ tableCrops R M lang entry i,
      crop.tableId = i := by
    intro entry i crop hcrop
    obtain ⟨dtBox, -, rfl⟩ := List.mem_map.mp hcrop
    rfl
  have hlang : ∀ crop ∈ entries.zipIdx.flatMap fun e => tableCrops R M lang e.1 e.2,
      crop.lang = lang := by
    intro crop hcrop
    obtain ⟨e, -, hcrop⟩ := List.mem_flatMap.mp hcrop
    obtain ⟨dtBox, -, rfl⟩ := List.mem_map.mp hcrop
    rfl
  simp only [recognizeTables, Pointwise.batch_eq, List.map_map]
  rw [foldl_buckets_zip (fun crop : TableCrop Image Lang => crop.lang)
      (entries.zipIdx.flatMap fun e => tableCrops R M lang e.1 e.2)
      (fun l => (M.tableRec l).predict ∘ TableCrop.croppedImg),
    foldl_modify_eq_mapIdx TableCrop.tableId fun crop =>
      addLine crop (((M.tableRec crop.lang).predict ∘ TableCrop.croppedImg) crop)]
  apply List.ext_getElem?
  intro i
  rw [List.getElem?_mapIdx, List.getElem?_map, filter_grouped fun crop hcrop _ => hlang crop hcrop,
    filter_home hhome]
  rcases entries[i]? with - | entry
  · rfl
  · simp only [Option.map_some, Option.getD_some, Function.comp_apply]
    rw [foldl_addLine fun crop => (M.tableRec crop.lang).predict crop.croppedImg]
    simp only [recognizeTable, tableCrops, List.map_map]
    rfl

/-! ## One page -/

/-- The layout of a page with its tables, whose texts are read in the language `lang`. -/
def pageTableLayout (lang : Lang) (s : Sighted Image Lang) : List (LayoutItem Image Lang) :=
  if R.tableEnable then
    (pageTables R s 0).foldl (fun layout entry => putTable (readTable R M lang entry) layout)
      s.2.layout
  else s.2.layout

theorem tablePhase_eq (lang : Lang) (pages : List (Sighted Image Lang)) :
    tablePhase R M lang pages = pages.map (pageTableLayout R M lang) := by
  by_cases htable : R.tableEnable = true
  · have hhome : ∀ (s : Sighted Image Lang) (i : ℕ), ∀ entry ∈ pageTables R s i,
        entry.page = i := by
      intro s i entry hentry
      obtain ⟨place, -, rfl⟩ := List.mem_map.mp hentry
      rfl
    simp only [tablePhase, if_pos htable]
    rw [readTables_eq, recognizeTables_eq, classifyTables_eq, List.map_map, List.map_map,
      List.foldl_map]
    refine foldl_modify_asked hhome (fun entry => putTable (readTable R M lang entry)) pages
      (fun s => s.2.layout) (pageTableLayout R M lang) fun s i => ?_
    simp only [pageTableLayout, if_pos htable, pageTables, List.foldl_map]
    rfl
  · rw [tablePhase, if_neg htable]
    apply List.map_congr_left
    intro s _
    rw [pageTableLayout, if_neg htable]

/-- The lines of a page, in groups that come in the given order. -/
def pageLines (order : List (ℕ × ℕ)) (s : Sighted Image Lang) : List (LayoutItem Image Lang) :=
  if R.enableOcrDetBatch then
    (order.flatMap fun key => (pageCrops R s 0).filter fun crop => crop.groupKey R = key).flatMap
      fun crop => boxesToResults M crop
        ((M.textDetector crop.lang).predict (R.pad (crop.groupKey R) crop.bgrImage))
  else (pageCrops R s 0).flatMap (detectSingly M)

/-- The order in which the groups of a language come up. -/
def groupOrder (pages : List (Sighted Image Lang)) (lang : Lang) : List (ℕ × ℕ) :=
  firsts (((pages.flatMap fun s => pageCrops R s 0).filter fun crop => crop.lang = lang).map
    fun crop => crop.groupKey R)

/-- A line whose text has been recognised. -/
def recognizeItem (item : LayoutItem Image Lang) : LayoutItem Image Lang :=
  (pending item 0 0).foldl
    (fun item p => writeText ((M.ocrRec p.lang).predict p.npImg) item) item

omit [DecidableEq Lang] in
theorem pageCrops_eq (s : Sighted Image Lang) (index : ℕ) :
    pageCrops R s index = (pageCrops R s 0).map fun crop => { crop with page := index } := by
  rw [pageCrops, pageCrops, List.map_map]
  rfl

omit [DecidableEq Lang] in
theorem mem_pageCrops {s : Sighted Image Lang} {index : ℕ} {crop : TextCrop Image Lang}
    (h : crop ∈ pageCrops R s index) : crop.page = index ∧ crop.lang = s.1.lang := by
  obtain ⟨res, -, rfl⟩ := List.mem_map.mp h
  exact ⟨rfl, rfl⟩

/-- The crops with their detected boxes, in the order in which the groups come. -/
def detected (crops : List (TextCrop Image Lang)) :
    List (TextCrop Image Lang × Option (List Quad)) :=
  (firsts (crops.map TextCrop.lang)).flatMap fun lang =>
    (grouped (fun crop => crop.groupKey R) (crops.filter fun crop => crop.lang = lang)).map
      fun crop => (crop, (M.textDetector lang).predict (R.pad (crop.groupKey R) crop.bgrImage))

theorem detectInGroups_eq (crops : List (TextCrop Image Lang))
    (layouts : List (List (LayoutItem Image Lang))) :
    detectInGroups R M crops layouts =
      (detected R M crops).foldl
        (fun layouts c => layouts.modify c.1.page (· ++ boxesToResults M c.1 c.2)) layouts := by
  rw [detectInGroups, buckets_eq_map, List.foldl_map, detected, List.foldl_flatMap]
  congr 1
  funext layouts lang
  simp only [Pointwise.batch_eq, List.map_map]
  rw [foldl_buckets_zip (fun crop : TextCrop Image Lang => crop.groupKey R)
    (crops.filter fun crop => crop.lang = lang)
    (fun key => (M.textDetector lang).predict ∘ fun crop => R.pad key crop.bgrImage),
    List.foldl_map]
  rfl

/-- The order of the groups does not depend on where the pages are. -/
theorem groupOrder_eq (pages : List (Sighted Image Lang)) (lang : Lang) :
    groupOrder R pages lang =
      firsts (((pages.zipIdx.flatMap fun s => pageCrops R s.1 s.2).filter
        fun crop => crop.lang = lang).map fun crop => crop.groupKey R) := by
  have hpages : pages.flatMap (fun s => pageCrops R s 0) =
      pages.zipIdx.flatMap fun s => pageCrops R s.1 0 := by
    conv_lhs => rw [← List.zipIdx_map_fst 0 pages, List.flatMap_map]
  rw [groupOrder, hpages, List.filter_flatMap, List.filter_flatMap, List.map_flatMap,
    List.map_flatMap]
  congr 1
  apply List.flatMap_congr
  rintro ⟨s, i⟩ -
  rw [pageCrops_eq R s i, List.filter_map, List.map_map]
  rfl

/-- Of the detected crops, a page has its own, in the order of the groups. -/
theorem filter_detected {pages : List (Sighted Image Lang)} {i : ℕ} {s : Sighted Image Lang}
    (hs : pages[i]? = some s) :
    ((detected R M (pages.zipIdx.flatMap fun s => pageCrops R s.1 s.2)).filter
        fun c => c.1.page = i) =
      ((groupOrder R pages s.1.lang).flatMap fun key =>
        (pageCrops R s i).filter fun crop => crop.groupKey R = key).map fun crop =>
          (crop, (M.textDetector crop.lang).predict
            (R.pad (crop.groupKey R) crop.bgrImage)) := by
  rw [groupOrder_eq]
  set crops := pages.zipIdx.flatMap fun s => pageCrops R s.1 s.2 with hcrops
  have hhome : ∀ (s : Sighted Image Lang) (i : ℕ), ∀ crop ∈ pageCrops R s i, crop.page = i :=
    fun s i crop hcrop => (mem_pageCrops R hcrop).1
  have hown : (crops.filter fun crop => crop.page = i) = pageCrops R s i := by
    rw [hcrops, filter_home hhome, hs]
    rfl
  have hlang : ∀ crop ∈ crops, crop.page = i → crop.lang = s.1.lang := by
    intro crop hcrop hpage
    have hmem : crop ∈ crops.filter fun crop => crop.page = i :=
      List.mem_filter.mpr ⟨hcrop, decide_eq_true hpage⟩
    rw [hown] at hmem
    exact (mem_pageCrops R hmem).2
  have hgroups : ((grouped (fun crop : TextCrop Image Lang => crop.groupKey R)
        (crops.filter fun crop => crop.lang = s.1.lang)).filter fun crop => crop.page = i) =
      (firsts ((crops.filter fun crop => crop.lang = s.1.lang).map
        fun crop => crop.groupKey R)).flatMap fun key =>
          (pageCrops R s i).filter fun crop => crop.groupKey R = key := by
    rw [grouped, List.filter_flatMap]
    apply List.flatMap_congr
    intro key _
    rw [← hown, List.filter_filter, List.filter_filter, List.filter_filter]
    apply List.filter_congr
    intro crop hcrop
    by_cases hpage : crop.page = i
    · simp [hpage, hlang crop hcrop hpage]
    · simp [hpage]
  rw [detected, List.filter_flatMap, flatMap_eq_of_only (nodup_firsts _) (k := s.1.lang)]
  · rw [List.filter_map]
    refine Eq.trans (congrArg _ hgroups) ?_
    apply List.map_congr_left
    intro crop hcrop
    obtain ⟨key, -, hcrop⟩ := List.mem_flatMap.mp hcrop
    rw [(mem_pageCrops R (List.mem_filter.mp hcrop).1).2]
  · intro lang _ hne
    rw [List.filter_eq_nil_iff]
    rintro c hc hpage
    obtain ⟨crop, hcrop, rfl⟩ := List.mem_map.mp hc
    obtain ⟨key, -, hcrop⟩ := List.mem_flatMap.mp hcrop
    obtain ⟨hmem, hcroplang⟩ := List.mem_filter.mp (List.mem_filter.mp hcrop).1
    rw [← of_decide_eq_true hcroplang] at hne
    exact hne (hlang crop hmem (of_decide_eq_true hpage))
  · intro hnone
    rw [List.filter_eq_nil_iff]
    rintro c hc -
    obtain ⟨crop, hcrop, rfl⟩ := List.mem_map.mp hc
    obtain ⟨key, -, hcrop⟩ := List.mem_flatMap.mp hcrop
    obtain ⟨hmem, hcroplang⟩ := List.mem_filter.mp (List.mem_filter.mp hcrop).1
    apply hnone
    rw [mem_firsts, ← of_decide_eq_true hcroplang]
    exact List.mem_map_of_mem hmem

/-- Each page gets its lines behind its layout. -/
theorem detectPhase_eq (pages : List (Sighted Image Lang))
    (layout : Sighted Image Lang → List (LayoutItem Image Lang)) :
    detectPhase R M pages (pages.map layout) =
      pages.map fun s => layout s ++ pageLines R M (groupOrder R pages s.1.lang) s := by
  by_cases hbatch : R.enableOcrDetBatch = true
  · simp only [detectPhase, if_pos hbatch]
    rw [detectInGroups_eq, foldl_modify_eq_mapIdx
      (fun c : TextCrop Image Lang × Option (List Quad) => c.1.page)
      fun c => (· ++ boxesToResults M c.1 c.2)]
    apply List.ext_getElem?
    intro i
    rw [List.getElem?_mapIdx, List.getElem?_map, List.getElem?_map]
    rcases hs : pages[i]? with - | s
    · rfl
    · simp only [Option.map_some, filter_detected R M hs]
      have hcrops : ((groupOrder R pages s.1.lang).flatMap fun key =>
            (pageCrops R s i).filter fun crop => crop.groupKey R = key) =
          ((groupOrder R pages s.1.lang).flatMap fun key =>
            (pageCrops R s 0).filter fun crop => crop.groupKey R = key).map
              fun crop => { crop with page := i } := by
        rw [pageCrops_eq, List.map_flatMap]
        apply List.flatMap_congr
        intro key _
        rw [List.filter_map]
        rfl
      rw [List.foldl_append_eq_append, pageLines, if_pos hbatch, hcrops, List.map_map,
        List.map_map]
      rfl
  · have hhome : ∀ (s : Sighted Image Lang) (i : ℕ), ∀ crop ∈ pageCrops R s i, crop.page = i :=
      fun s i crop hcrop => (mem_pageCrops R hcrop).1
    simp only [detectPhase, if_neg hbatch]
    refine foldl_modify_asked hhome (fun crop => (· ++ detectSingly M crop)) pages layout
      (fun s => layout s ++ pageLines R M (groupOrder R pages s.1.lang) s) fun s i => ?_
    rw [List.foldl_append_eq_append, pageLines, if_neg hbatch, pageCrops_eq, List.map_map]
    rfl

omit [DecidableEq Lang] in
theorem mem_pending {item : LayoutItem Image Lang} {page place : ℕ} {p : Pending Image Lang}
    (h : p ∈ pending item page place) :
    p.page = page ∧ p.place = place ∧ item.lang = some p.lang := by
  rw [pending] at h
  split at h
  · next npImg lang hnpImg hlang =>
    split_ifs at h
    · obtain rfl := List.mem_singleton.mp h
      exact ⟨rfl, rfl, hlang⟩
    · exact absurd h List.not_mem_nil
  · exact absurd h List.not_mem_nil

omit [DecidableEq Lang] in
/-- What becomes of a line does not depend on where it is. -/
theorem foldl_pending (item : LayoutItem Image Lang) (page place : ℕ) :
    (pending item page place).foldl
        (fun item p => writeText ((M.ocrRec p.lang).predict p.npImg) item) item =
      recognizeItem M item := by
  rw [recognizeItem, pending, pending]
  split
  · split_ifs
    · rfl
    · rfl
  · rfl

/-- Each line that waits for its text gets its own. -/
theorem recognizePhase_eq (layouts : List (List (LayoutItem Image Lang))) :
    recognizePhase M layouts = layouts.map (List.map (recognizeItem M)) := by
  have hpage : ∀ (layout : List (LayoutItem Image Lang)) (i : ℕ), ∀ p ∈ layoutPending layout i,
      p.page = i := by
    intro layout i p hp
    obtain ⟨item, -, hp⟩ := List.mem_flatMap.mp hp
    exact (mem_pending hp).1
  have hplace : ∀ (i : ℕ) (item : LayoutItem Image Lang) (j : ℕ), ∀ p ∈ pending item i j,
      p.place = j :=
    fun i item j p hp => (mem_pending hp).2.1
  simp only [recognizePhase, Pointwise.batch_eq, List.map_map]
  rw [foldl_buckets_zip (fun p : Pending Image Lang => p.lang)
    (layouts.zipIdx.flatMap fun layout => layoutPending layout.1 layout.2)
    (fun lang => (M.ocrRec lang).predict ∘ Pending.npImg)]
  have hscatter := foldl_modify_eq_mapIdx Pending.page
    (fun p layout => layout.modify p.place (writeText ((M.ocrRec p.lang).predict p.npImg)))
    (grouped (fun p : Pending Image Lang => p.lang)
      (layouts.zipIdx.flatMap fun layout => layoutPending layout.1 layout.2)) layouts
  refine Eq.trans hscatter ?_
  apply List.ext_getElem?
  intro i
  rw [List.getElem?_mapIdx, List.getElem?_map]
  rcases hlayout : layouts[i]? with - | layout
  · rfl
  · simp only [Option.map_some]
    rw [foldl_modify_eq_mapIdx Pending.place fun p =>
      writeText ((M.ocrRec p.lang).predict p.npImg)]
    apply congrArg
    apply List.ext_getElem?
    intro j
    rw [List.getElem?_mapIdx, List.getElem?_map]
    rcases hitem : layout[j]? with - | item
    · rfl
    · have hown : ((layouts.zipIdx.flatMap fun layout => layoutPending layout.1 layout.2).filter
          fun p => p.page = i).filter (fun p => p.place = j) = pending item i j := by
        rw [filter_home hpage, hlayout, Option.map_some, Option.getD_some, layoutPending,
          filter_home (hplace i), hitem]
        rfl
      rw [List.filter_filter] at hown
      have hagree : ∀ p ∈ layouts.zipIdx.flatMap fun layout => layoutPending layout.1 layout.2,
          (decide (p.place = j) && decide (p.page = i)) = true → item.lang = some p.lang := by
        intro p hp hat
        have hmem : p ∈ pending item i j := by
          rw [← hown]
          exact List.mem_filter.mpr ⟨hp, hat⟩
        exact (mem_pending hmem).2.2
      rw [List.filter_filter, filter_grouped_of_agree, hown, Option.map_some, foldl_pending,
        Option.map_some]
      intro p hp q hq hpat hqat
      exact Option.some.inj ((hagree p hp hpat).symm.trans (hagree q hq hqat))

/-! ## A page in its batch -/

/-- The layout of one page. -/
def pageLayout (page : Page Image Lang) : List (LayoutItem Image Lang) :=
  let layout := R.layoutModel.predict page.image
  if R.formulaEnable then
    layout ++ R.mfrModel.predict (R.mfdModel.predict page.image, page.image)
  else layout

/-- A page and its regions. -/
def sightPage (page : Page Image Lang) : Sighted Image Lang :=
  (page, R.getResList (pageLayout R page))

omit [DecidableEq Lang] in
theorem sight_eq (pages : List (Page Image Lang)) : sight R pages = pages.map (sightPage R) := by
  have hlayouts : layoutResults R pages = pages.map (pageLayout R) := by
    simp only [layoutResults, Pointwise.batch_eq]
    split_ifs with hformula
    · simp only [List.map_map, List.zip_map', List.zipWith_map_left, zipWith_map_right]
      apply List.map_congr_left
      intro page _
      rw [pageLayout, if_pos hformula]
      rfl
    · rw [List.map_map]
      apply List.map_congr_left
      intro page _
      rw [Function.comp_apply, pageLayout, if_neg hformula]
  rw [sight, hlayouts, List.map_map, ← List.map_prod_left_eq_zip]
  rfl

/-- What is found out about a page, when the texts in its tables are read in the language `lang`
and its lines come in groups in the given order. -/
def pageResult (lang : Lang) (order : List (ℕ × ℕ)) (s : Sighted Image Lang) :
    List (LayoutItem Image Lang) :=
  (pageTableLayout R M lang s ++ pageLines R M order s).map (recognizeItem M)

/-- In a batch, only the language of the last page and the order of the groups reach a page. -/
theorem analyze_eq {pages : List (Page Image Lang)} {last : Page Image Lang}
    (hlast : pages.getLast? = some last) :
    analyze R M pages = pages.map fun page =>
      pageResult R M last.lang (groupOrder R (pages.map (sightPage R)) page.lang)
        (sightPage R page) := by
  simp only [analyze, hlast]
  rw [sight_eq, tablePhase_eq, detectPhase_eq, recognizePhase_eq, List.map_map, List.map_map]
  rfl

theorem analyze_singleton (page : Page Image Lang) :
    analyze R M [page] =
      [pageResult R M page.lang (groupOrder R [sightPage R page] page.lang)
        (sightPage R page)] := by
  rw [analyze_eq R M (List.getLast?_singleton)]
  rfl

/-! ## Pages that do not notice their batch -/

/-- The law of `BatchAnalyze`: a batch is analysed as its pages are, each alone. -/
def BatchIndependent (pages : List (Page Image Lang)) : Prop :=
  analyze R M pages = pages.flatMap fun page => analyze R M [page]

/-- Where tables are read, every page with a table has the language of the last page. -/
def TablesInLastLang (pages : List (Page Image Lang)) : Prop :=
  R.tableEnable = true → ∀ page ∈ pages, (sightPage R page).2.tables ≠ [] →
    ∀ last ∈ pages.getLast?, page.lang = last.lang

/-- The groups that the lines of a page belong to. -/
def pageKeys (s : Sighted Image Lang) : List (ℕ × ℕ) :=
  (pageCrops R s 0).map (TextCrop.groupKey R)

/-- Where lines are detected in groups, the groups of each page come up in the batch in the order
in which they come up on the page. -/
def GroupsInOrder (pages : List (Page Image Lang)) : Prop :=
  R.enableOcrDetBatch = true → ∀ page ∈ pages,
    among (pageKeys R (sightPage R page)) (groupOrder R (pages.map (sightPage R)) page.lang) =
      groupOrder R [sightPage R page] page.lang

theorem nodup_groupOrder (pages : List (Sighted Image Lang)) (lang : Lang) :
    (groupOrder R pages lang).Nodup := nodup_firsts _

theorem groupOrder_singleton (s : Sighted Image Lang) :
    groupOrder R [s] s.1.lang = firsts (pageKeys R s) := by
  rw [groupOrder, List.flatMap_singleton, List.filter_eq_self.mpr]
  · rfl
  · intro crop hcrop
    exact decide_eq_true (mem_pageCrops R hcrop).2

/-- The law, page by page. -/
theorem batchIndependent_iff_pageResult {pages : List (Page Image Lang)} {last : Page Image Lang}
    (hlast : pages.getLast? = some last) :
    BatchIndependent R M pages ↔ ∀ page ∈ pages,
      pageResult R M last.lang (groupOrder R (pages.map (sightPage R)) page.lang)
          (sightPage R page) =
        pageResult R M page.lang (groupOrder R [sightPage R page] page.lang)
          (sightPage R page) := by
  rw [BatchIndependent, analyze_eq R M hlast]
  simp only [analyze_singleton]
  rw [← List.map_eq_flatMap, List.map_inj_left]

omit [DecidableEq Lang] in
/-- Without texts to read, the language does not matter. -/
theorem pageTableLayout_congr {s : Sighted Image Lang} {lang lang' : Lang}
    (h : R.tableEnable = true → s.2.tables ≠ [] → lang = lang') :
    pageTableLayout R M lang s = pageTableLayout R M lang' s := by
  by_cases htable : R.tableEnable = true
  · by_cases hnone : s.2.tables = []
    · rw [pageTableLayout, pageTableLayout, pageTables, hnone]
      rfl
    · rw [h htable hnone]
  · rw [pageTableLayout, pageTableLayout, if_neg htable, if_neg htable]

omit [DecidableEq Lang] in
/-- Of the order of the groups, only the groups of the page matter. -/
theorem pageLines_congr {s : Sighted Image Lang} {order order' : List (ℕ × ℕ)}
    (h : R.enableOcrDetBatch = true →
      among (pageKeys R s) order = among (pageKeys R s) order') :
    pageLines R M order s = pageLines R M order' s := by
  by_cases hbatch : R.enableOcrDetBatch = true
  · rw [pageLines, pageLines, if_pos hbatch, if_pos hbatch,
      ← flatMap_among order (TextCrop.groupKey R), ← pageKeys, h hbatch, pageKeys, flatMap_among]
  · rw [pageLines, pageLines, if_neg hbatch, if_neg hbatch]

theorem batchIndependent_of {pages : List (Page Image Lang)} (htables : TablesInLastLang R pages)
    (hgroups : GroupsInOrder R pages) : BatchIndependent R M pages := by
  rcases hlast : pages.getLast? with - | last
  · obtain rfl := List.getLast?_eq_none_iff.mp hlast
    rfl
  · rw [batchIndependent_iff_pageResult R M hlast]
    intro page hpage
    have hlang : pageTableLayout R M last.lang (sightPage R page) =
        pageTableLayout R M page.lang (sightPage R page) :=
      pageTableLayout_congr R M fun htable hsome =>
        (htables htable page hpage hsome last hlast).symm
    have hlines : pageLines R M (groupOrder R (pages.map (sightPage R)) page.lang)
          (sightPage R page) =
        pageLines R M (groupOrder R [sightPage R page] page.lang) (sightPage R page) := by
      apply pageLines_congr
      intro hbatch
      have horder : groupOrder R [sightPage R page] page.lang =
        firsts (pageKeys R (sightPage R page)) := groupOrder_singleton R (sightPage R page)
      rw [hgroups hbatch page hpage, horder, among_firsts]
    rw [pageResult, pageResult, hlang, hlines]

/-! ## Models that tell -/

/-- A model given by what it makes of one item. -/
def Pointwise.of {α β : Type*} (predict : α → β) : Pointwise α β :=
  ⟨predict, List.map predict, fun _ => rfl⟩

def Quad.zero : Quad := ⟨0, 0, 0, 0⟩

/-- Every table has one text, which is recognised differently in the language `lang` and in
others, and this text is the table. -/
def languageTellers (lang : Lang) : Models Image Lang where
  orientation := .of id
  rotate := id
  tableCls := .of fun _ => (.wireless, 1)
  tableDet _ := [Quad.zero]
  tableRec l := .of fun _ => (if l = lang then ['b'] else ['a'], 1)
  wirelessTable := .of fun table => table.2.1.head?.map TableLine.text
  wiredTable _ _ _ _ := []
  textDetector _ := .of fun _ => none
  textOcr _ _ _ := []
  sortedBoxes := id
  mergeDetBoxes := id
  updateDetBoxes boxes _ := boxes
  getOcrResultList _ _ _ _ _ := []
  ocrRec _ := .of fun _ => ([], 0)

omit [DecidableEq Lang] in
theorem html_recognizeItem (item : LayoutItem Image Lang) :
    (recognizeItem M item).html = item.html := by
  rw [recognizeItem, pending]
  split
  · split_ifs
    · rfl
    · rfl
  · rfl

theorem html_readTable (lang lang' : Lang) {entry : TableEntry Image Lang}
    (hnew : entry.ocrResult = []) :
    (readTable R (languageTellers lang) lang' entry).html =
      some (if lang' = lang then ['b'] else ['a']) := by
  have hwired : wantsWired (.wireless, 1) = false := by
    simp only [wantsWired]
    norm_num
    decide
  simp only [readTable, structureTable, finishTable, recognizeTable, classifyTable, languageTellers,
    Pointwise.of, hnew, hwired, Bool.false_and, if_neg Bool.false_ne_true]
  by_cases hlang : lang' = lang
  · rw [if_pos hlang]
    rfl
  · rw [if_neg hlang]
    rfl

omit [DecidableEq Lang] in
/-- A table that is put into its layout is there. -/
theorem foldl_putTable_html {entries : List (TableEntry Image Lang)} {html : Option (List Char)}
    (hhtml : ∀ entry ∈ entries, entry.html = html) {layout : List (LayoutItem Image Lang)} {i : ℕ}
    (hi : i < layout.length) (hplace : ∃ entry ∈ entries, entry.place = i) :
    ((entries.foldl (fun layout entry => putTable entry layout) layout)[i]?.map
      LayoutItem.html) = some html := by
  have hset : ∀ (entries : List (TableEntry Image Lang)) (item : LayoutItem Image Lang),
      (∀ entry ∈ entries, entry.html = html) → entries ≠ [] →
        (entries.foldl (fun item entry => { item with html := entry.html }) item).html = html := by
    intro entries item hall hne
    induction entries using List.reverseRecOn with
    | nil => exact absurd rfl hne
    | append_singleton entries entry ih =>
        rw [List.foldl_append]
        exact hall entry (by simp)
  have hscatter := foldl_modify_eq_mapIdx TableEntry.place
    (fun entry (item : LayoutItem Image Lang) => { item with html := entry.html }) entries layout
  have hfold : entries.foldl (fun layout entry => putTable entry layout) layout = _ := hscatter
  rw [hfold, List.getElem?_mapIdx, List.getElem?_eq_getElem hi, Option.map_some, Option.map_some,
    hset]
  · intro entry hentry
    exact hhtml entry (List.mem_filter.mp hentry).1
  · obtain ⟨entry, hentry, hplace⟩ := hplace
    apply List.ne_nil_of_mem
    exact List.mem_filter.mpr ⟨hentry, decide_eq_true hplace⟩

theorem pageLines_languageTellers (lang : Lang) (order : List (ℕ × ℕ)) (s : Sighted Image Lang) :
    pageLines R (languageTellers lang) order s = [] := by
  rw [pageLines]
  split_ifs
  · rw [List.flatMap_eq_nil_iff]
    intro crop _
    rfl
  · rw [List.flatMap_eq_nil_iff]
    intro crop _
    rfl

theorem html_pageResult (lang lang' : Lang) (order : List (ℕ × ℕ)) {s : Sighted Image Lang}
    (htable : R.tableEnable = true) {place : Fin s.2.layout.length} (hplace : place ∈ s.2.tables) :
    (pageResult R (languageTellers lang) lang' order s)[(place : ℕ)]?.map LayoutItem.html =
      some (some (if lang' = lang then ['b'] else ['a'])) := by
  have hhtml : ∀ entry ∈ (pageTables R s 0).map (readTable R (languageTellers lang) lang'),
      entry.html = some (if lang' = lang then ['b'] else ['a']) := by
    intro entry hentry
    obtain ⟨new, hnew, rfl⟩ := List.mem_map.mp hentry
    obtain ⟨place, -, rfl⟩ := List.mem_map.mp hnew
    exact html_readTable R lang lang' rfl
  have hat : ∃ entry ∈ (pageTables R s 0).map (readTable R (languageTellers lang) lang'),
      entry.place = place :=
    ⟨_, List.mem_map_of_mem (List.mem_map_of_mem hplace), rfl⟩
  have htables := foldl_putTable_html hhtml place.isLt hat
  rw [List.foldl_map] at htables
  rw [pageResult, pageLines_languageTellers, List.append_nil, pageTableLayout, if_pos htable,
    List.getElem?_map, Option.map_map]
  refine Eq.trans ?_ htables
  congr 1
  funext item
  exact html_recognizeItem (languageTellers lang) item

theorem tablesInLastLang_of {pages : List (Page Image Lang)}
    (h : ∀ M : Models Image Lang, BatchIndependent R M pages) : TablesInLastLang R pages := by
  intro htable page hpage hsome last hlast
  by_contra hne
  obtain ⟨place, hplace⟩ := List.exists_mem_of_ne_nil _ hsome
  have hlaw := (batchIndependent_iff_pageResult R (languageTellers last.lang) hlast).mp (h _)
    page hpage
  have hbatch := html_pageResult R last.lang last.lang
    (groupOrder R (pages.map (sightPage R)) page.lang) htable hplace
  have halone := html_pageResult R last.lang page.lang
    (groupOrder R [sightPage R page] page.lang) htable hplace
  rw [hlaw, halone, if_neg hne, if_pos rfl] at hbatch
  exact absurd hbatch (by decide)

/-- There is no text in any table, and every crop has one line that tells its group. -/
def groupTellers : Models Image Lang where
  orientation := .of id
  rotate := id
  tableCls := .of fun _ => (.wireless, 1)
  tableDet _ := []
  tableRec _ := .of fun _ => ([], 0)
  wirelessTable := .of fun table => table.2.2
  wiredTable _ _ _ _ := []
  textDetector _ := .of fun _ => some [Quad.zero]
  textOcr _ _ _ := []
  sortedBoxes := id
  mergeDetBoxes := id
  updateDetBoxes boxes _ := boxes
  getOcrResultList _ useful ocrEnable image lang :=
    let key := (⟨image, useful, 0, ocrEnable, [], lang⟩ : TextCrop Image Lang).groupKey R
    [{ categoryId := 0, poly := [key.1, key.2] }]
  ocrRec _ := .of fun _ => ([], 0)

/-- The line that tells a group. -/
def groupLine (key : ℕ × ℕ) : LayoutItem Image Lang := { categoryId := 0, poly := [key.1, key.2] }

omit [DecidableEq Lang] in
theorem groupLine_injective :
    Function.Injective (groupLine : ℕ × ℕ → LayoutItem Image Lang) := by
  intro key key' h
  have hpoly : ([key.1, key.2] : List ℚ) = [key'.1, key'.2] := congrArg LayoutItem.poly h
  obtain ⟨hfirst, hrest⟩ := List.cons.inj hpoly
  exact Prod.ext (Nat.cast_injective hfirst) (Nat.cast_injective (List.cons.inj hrest).1)

omit [DecidableEq Lang] in
theorem pageLines_groupTellers (hbatch : R.enableOcrDetBatch = true) (order : List (ℕ × ℕ))
    (s : Sighted Image Lang) :
    (pageLines R (groupTellers R) order s).map (recognizeItem (groupTellers R)) =
      ((order.flatMap fun key => (pageCrops R s 0).filter fun crop => crop.groupKey R = key).map
        (TextCrop.groupKey R)).map groupLine := by
  rw [pageLines, if_pos hbatch, List.map_flatMap, List.map_map, List.map_eq_flatMap]
  apply List.flatMap_congr
  intro crop _
  have hline : boxesToResults (groupTellers R) crop (some [Quad.zero]) =
      [groupLine (crop.groupKey R)] := by
    simp only [boxesToResults, groupTellers, Pointwise.of, id_eq, ite_self, List.isEmpty_cons,
      Bool.false_eq_true, if_false]
    rfl
  exact congrArg (List.map (recognizeItem (groupTellers R))) hline

theorem groupsInOrder_of {pages : List (Page Image Lang)}
    (h : ∀ M : Models Image Lang, BatchIndependent R M pages) : GroupsInOrder R pages := by
  intro hbatch page hpage
  obtain ⟨last, hlast⟩ : ∃ last, pages.getLast? = some last :=
    ⟨_, List.getLast?_eq_some_getLast (List.ne_nil_of_mem hpage)⟩
  have hlaw := (batchIndependent_iff_pageResult R (groupTellers R) hlast).mp (h _) page hpage
  have htables : pageTableLayout R (groupTellers R) last.lang (sightPage R page) =
      pageTableLayout R (groupTellers R) page.lang (sightPage R page) := rfl
  rw [pageResult, pageResult, List.map_append, List.map_append, htables,
    pageLines_groupTellers R hbatch, pageLines_groupTellers R hbatch] at hlaw
  have hkeys := (groupLine_injective.list_map) (List.append_cancel_left hlaw)
  have hfirsts := congrArg firsts hkeys
  rw [firsts_flatMap (nodup_groupOrder R _ _), firsts_flatMap (nodup_groupOrder R _ _)] at hfirsts
  have horder : groupOrder R [sightPage R page] page.lang =
    firsts (pageKeys R (sightPage R page)) := groupOrder_singleton R (sightPage R page)
  rw [pageKeys, hfirsts, horder, pageKeys, among_firsts]

/-- Whatever the models, a batch is analysed as its pages are, exactly when every page with a table
has the language of the last page and the groups of each page come up in its own order. -/
theorem batchIndependent_iff (pages : List (Page Image Lang)) :
    (∀ M : Models Image Lang, BatchIndependent R M pages) ↔
      TablesInLastLang R pages ∧ GroupsInOrder R pages := by
  constructor
  · intro h
    exact ⟨tablesInLastLang_of R h, groupsInOrder_of R h⟩
  · rintro ⟨htables, hgroups⟩ M
    exact batchIndependent_of R M htables hgroups

/-- The regions of a layout in which none overlap. -/
def plainRegions (layout : List (LayoutItem Image Lang)) : Regions Image Lang where
  layout := layout
  ocr := layout.filter (·.categoryId ∈ [0, 2, 4, 6, 7, 3]) ++ layout.filter (·.categoryId = 1)
  tables := (List.finRange layout.length).filter fun i => (layout.get i).categoryId = 5
  formulas := (layout.filter (·.categoryId ∈ [13, 14])).map LayoutItem.crop

/-- Pages are known by their numbers, and there is a table on page 0. -/
def tableReader : Reader ℕ String Unit where
  formulaEnable := false
  tableEnable := true
  enableOcrDetBatch := true
  layoutModel := .of fun image =>
    if image = 0 then [{ categoryId := 5, poly := [0, 0, 300, 0, 300, 100, 0, 100] }] else []
  mfdModel := .of fun _ => ()
  mfrModel := .of fun _ => []
  getResList := plainRegions
  slice _ image := image
  paste _ image := image
  toBgr := id
  shape _ := (100, 300)
  pad _ image := image
  rotateCrop image _ := image

/-- A table in one language and, behind it, a page in another. -/
def twoPages : List (Page ℕ String) := [⟨0, true, "ch"⟩, ⟨1, true, "en"⟩]

/-- The table is read in the language of the page behind it. -/
theorem not_batchIndependent : ¬ ∀ (R : Reader ℕ String Unit) (M : Models ℕ String) pages,
    BatchIndependent R M pages := by
  intro h
  have hbatch := congrArg (List.map (List.map LayoutItem.html))
    (h tableReader (languageTellers "ch") twoPages)
  have htogether : (analyze tableReader (languageTellers "ch") twoPages).map
      (List.map LayoutItem.html) = [[some ['a']], []] := by decide +kernel
  have halone : (twoPages.flatMap fun page =>
      analyze tableReader (languageTellers "ch") [page]).map (List.map LayoutItem.html) =
        [[some ['b']], []] := by decide +kernel
  rw [htogether, halone] at hbatch
  exact absurd hbatch (by decide)

end RagflowMineru.MinerU.BatchAnalyze
