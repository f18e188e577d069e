import Mathlib.Data.Rat.Defs
import Mathlib.Algebra.Order.Ring.Rat
import Mathlib.Tactic.FieldSimp
import Mathlib.Tactic.Linarith
import Mathlib.Tactic.NormNum
import Mathlib.Tactic.Ring
import Mathlib.Data.List.TakeWhile
import RagflowMineru.Library.QuarterTurns

/-!
# Rotated tables

A table that stands on its side is cut out of its page and turned, the turned image is read, and
what is read takes the place of the boxes of the table.  The points are to be turned back, but
they are turned once more, and the margin of the cut is forgotten.  The boxes of a page carry the
number of the page in the window, while those of a table are looked for under its number in the
document.
-/

namespace RagflowMineru.Deepdoc

open Library

/-! ## Boxes -/

/-- A box found by a table that was turned. -/
structure RotatedMark where
  angle : QuarterTurn
  tableIndex : ℕ
  rect : Rect ℚ

/-- An entry of `self.boxes`; `oid` tells one object from another. -/
structure PageBox where
  oid : ℕ
  text : List Char
  x0 : ℚ
  x1 : ℚ
  top : ℚ
  bottom : ℚ
  pageNumber : ℕ
  layoutType : Option (List Char)
  layoutno : Option (List Char)
  rotated : Option RotatedMark

/-- `self.boxes`, with the objects that exist below `next`. -/
structure PageBoxes where
  boxes : List PageBox
  next : ℕ
  old : ∀ b ∈ boxes, b.oid < next

/-- What the OCR reads: around it a polygon, and how sure it is. -/
structure OcrResult where
  bbox : List (Point ℚ)
  bbox_ne_nil : bbox ≠ []
  text : List Char
  conf : ℚ

def OcrResult.accepted (r : OcrResult) : Bool := ¬ r.conf < 1 / 2

/-- A table in the layout of its page, with its angle and the turned image. -/
structure TableLayout (Image : Type) where
  tableIndex : ℕ
  page : ℕ
  x0 : ℚ
  top : ℚ
  x1 : ℚ
  bottom : ℚ
  rotation : Option (QuarterTurn × Image)

def MARGIN : ℚ := 10

/-- The size of the image of the table, in pixels. -/
def TableLayout.crop {Image : Type} (t : TableLayout Image) (ZM : ℚ) : Frame ℚ :=
  ⟨(t.x1 + MARGIN) * ZM - (t.x0 - MARGIN) * ZM, (t.bottom + MARGIN) * ZM - (t.top - MARGIN) * ZM⟩

/-- The page that a box is on, as `__img_ocr` numbers it in the window. -/
def TableLayout.pageNumber {Image : Type} (t : TableLayout Image) : ℕ := t.page + 1

/-- `_map_rotated_point`. -/
def mapRotatedPoint (p : Point ℚ) (angle : QuarterTurn) (f : Frame ℚ) : Point ℚ :=
  match angle with
  | .deg0 => p
  | .deg90 => ⟨f.width - p.y, p.x⟩
  | .deg180 => ⟨f.width - p.x, f.height - p.y⟩
  | .deg270 => ⟨p.y, f.height - p.x⟩

/-- The rectangle around the mapped points. -/
def mappedRect (r : OcrResult) (angle : QuarterTurn) (f : Frame ℚ) : Rect ℚ :=
  .bounding (r.bbox.map fun p => mapRotatedPoint p angle f) (by simpa using r.bbox_ne_nil)

def pyInsert (bs : List PageBox) (at_ : ℕ) (b : PageBox) : List PageBox :=
  bs.take at_ ++ b :: bs.drop at_

/-- `_restore_boxes`. -/
def restoreBoxes : List PageBox → List PageBox → ℕ → List PageBox
  | bs, [], _ => bs
  | bs, b :: originalBoxes, insertAt =>
      restoreBoxes (pyInsert bs insertAt b) originalBoxes (insertAt + 1)

/-- What `_ocr_rotated_tables` uses of the parser. -/
structure TableOcr (Image : Type) where
  ocr : Image → List OcrResult
  pageFrom : ℕ
  pageCumHeight : ℕ → ℚ
  ZM : ℚ
  ZM_pos : 0 < ZM

namespace TableOcr

variable {Image : Type} (p : TableOcr Image) (t : TableLayout Image)

/-- A table box in the region of the table, on the page with this number. -/
def isTableBox (number : ℕ) (b : PageBox) : Bool :=
  b.pageNumber = number && b.layoutType = some "table".toList && b.x0 ≥ t.x0 - 5 &&
    b.x1 ≤ t.x1 + 5 && b.top ≥ t.top + p.pageCumHeight t.page - 5 &&
    b.bottom ≤ t.bottom + p.pageCumHeight t.page + 5

def unzoom (r : Rect ℚ) : Rect ℚ :=
  ⟨r.x0 / p.ZM, r.top / p.ZM, r.x1 / p.ZM, r.bottom / p.ZM,
    div_le_div_of_nonneg_right r.left_le p.ZM_pos.le,
    div_le_div_of_nonneg_right r.top_le p.ZM_pos.le⟩

/-- The box that `_insert_ocr_boxes` makes of a result. -/
def newBox (angle : QuarterTurn) (f : Frame ℚ) (oid : ℕ) (r : OcrResult) : PageBox :=
  let box := p.unzoom (mappedRect r angle f)
  { oid
    text := r.text
    x0 := box.x0 + t.x0
    x1 := box.x1 + t.x0
    top := box.top + t.top + p.pageCumHeight t.page
    bottom := box.bottom + t.top + p.pageCumHeight t.page
    pageNumber := t.page + p.pageFrom
    layoutType := some "table".toList
    layoutno := some ("table-".toList ++ Nat.toDigits 10 t.tableIndex)
    rotated := some ⟨angle, t.tableIndex, box⟩ }

/-- `_insert_ocr_boxes`, with the objects that are made from `next` on. -/
def insertOcrBoxes (angle : QuarterTurn) (f : Frame ℚ) :
    List OcrResult → List PageBox → ℕ → ℕ → List PageBox
  | [], bs, _, _ => bs
  | r :: results, bs, insertAt, next =>
      if r.accepted then
        insertOcrBoxes angle f results (pyInsert bs insertAt (p.newBox t angle f next r))
          (insertAt + 1) (next + 1)
      else insertOcrBoxes angle f results bs insertAt next

/-- The boxes after a table whose turned image is read. -/
def reread (bs : List PageBox) (next : ℕ) (angle : QuarterTurn) (img : Image) : List PageBox :=
  let taken := p.isTableBox t (t.page + p.pageFrom)
  let originalBoxes := bs.filter taken
  let insertAt := bs.findIdx taken
  let kept := bs.filter fun b => !taken b
  let ocrResults := p.ocr img
  if ocrResults = [] then restoreBoxes kept originalBoxes insertAt
  else p.insertOcrBoxes t angle (t.crop p.ZM) ocrResults kept insertAt next

end TableOcr

/-! ## What is inserted where -/

section Inserting

variable {bs new : List PageBox} {at_ : ℕ} {taken : PageBox → Bool}

theorem restoreBoxes_eq (hat : at_ ≤ bs.length) :
    restoreBoxes bs new at_ = bs.take at_ ++ new ++ bs.drop at_ := by
  induction new generalizing bs at_ with
  | nil => simp [restoreBoxes]
  | cons b new ih =>
      have hlen : (bs.take at_ ++ [b]).length = at_ + 1 := by simp [hat]
      have hbs : pyInsert bs at_ b = bs.take at_ ++ [b] ++ bs.drop at_ := by simp [pyInsert]
      have hle : at_ + 1 ≤ (bs.take at_ ++ [b] ++ bs.drop at_).length := by
        rw [List.length_append, hlen]
        exact Nat.le_add_right _ _
      rw [restoreBoxes, hbs, ih hle, ← hlen, List.take_left, List.drop_left]
      simp

theorem mem_restoreBoxes {b : PageBox} (h : b ∈ restoreBoxes bs new at_) : b ∈ bs ∨ b ∈ new := by
  induction new generalizing bs at_ with
  | nil => exact Or.inl h
  | cons b' new ih =>
      rcases ih h with hbs | hnew
      · rcases List.mem_append.mp hbs with hfront | hbs
        · exact Or.inl (List.mem_of_mem_take hfront)
        · rcases List.mem_cons.mp hbs with rfl | hback
          · exact Or.inr List.mem_cons_self
          · exact Or.inl (List.mem_of_mem_drop hback)
      · exact Or.inr (List.mem_cons_of_mem _ hnew)

theorem takeWhile_append_filter :
    bs.takeWhile (fun b => !taken b) ++ (bs.dropWhile fun b => !taken b).filter
      (fun b => !taken b) = bs.filter fun b => !taken b := by
  have hfront : (bs.takeWhile fun b => !taken b).filter (fun b => !taken b) =
      bs.takeWhile fun b => !taken b :=
    List.filter_eq_self.mpr fun b hb => List.mem_takeWhile_imp (p := fun b => !taken b) hb
  calc
    bs.takeWhile (fun b => !taken b) ++ (bs.dropWhile fun b => !taken b).filter
        (fun b => !taken b) =
      (bs.takeWhile (fun b => !taken b) ++ bs.dropWhile fun b => !taken b).filter
        fun b => !taken b := by rw [List.filter_append, hfront]
    _ = bs.filter fun b => !taken b := by rw [List.takeWhile_append_dropWhile]

theorem length_takeWhile_eq_findIdx :
    (bs.takeWhile fun b => !taken b).length = bs.findIdx taken := by
  induction bs with
  | nil => rfl
  | cons b bs ih => cases h : taken b <;> simp [h, List.findIdx_cons, ih]

/-- The place of the first box that is taken away, among those that are left. -/
theorem restoreBoxes_filter :
    restoreBoxes (bs.filter fun b => !taken b) new (bs.findIdx taken) =
      bs.takeWhile (fun b => !taken b) ++ new ++
        (bs.dropWhile fun b => !taken b).filter fun b => !taken b := by
  rw [← takeWhile_append_filter, ← length_takeWhile_eq_findIdx, restoreBoxes_eq (by simp),
    List.take_left, List.drop_left]

/-- Boxes that are taken away and put back are where they were, if they stood together. -/
theorem restoreBoxes_eq_self_iff :
    restoreBoxes (bs.filter fun b => !taken b) (bs.filter taken) (bs.findIdx taken) = bs ↔
      ∃ front mid back, bs = front ++ mid ++ back ∧ (∀ b ∈ front, taken b = false) ∧
        (∀ b ∈ mid, taken b = true) ∧ ∀ b ∈ back, taken b = false := by
  rw [restoreBoxes_filter]
  constructor
  · intro h
    refine ⟨_, _, _, h.symm, fun b hb => ?_, fun b hb => (List.mem_filter.mp hb).2, fun b hb => ?_⟩
    · simpa using List.mem_takeWhile_imp (p := fun b => !taken b) hb
    · simpa using (List.mem_filter.mp hb).2
  · rintro ⟨front, mid, back, rfl, hfront, hmid, hback⟩
    have hall : ∀ {l : List PageBox}, (∀ b ∈ l, taken b = false) →
        ∀ b ∈ l, (!taken b) = true := fun hl b hb => by rw [hl b hb]; rfl
    have hnone : ∀ {l : List PageBox}, (∀ b ∈ l, taken b = false) → l.filter taken = [] :=
      fun hl => List.filter_eq_nil_iff.mpr fun b hb => by simp [hl b hb]
    have hfilter : (front ++ mid ++ back).filter taken = mid := by
      rw [List.filter_append, List.filter_append, hnone hfront, hnone hback,
        List.filter_eq_self.mpr hmid, List.nil_append, List.append_nil]
    rw [hfilter, List.append_assoc front, List.takeWhile_append_of_pos (hall hfront),
      List.dropWhile_append_of_pos (hall hfront)]
    rcases mid with _ | ⟨b, mid⟩
    · rw [List.nil_append, List.takeWhile_eq_self_iff.mpr (hall hback),
        List.dropWhile_eq_nil_iff.mpr (hall hback), List.filter_nil]
      simp
    · have hb : ¬ (!taken b) = true := by simp [hmid b List.mem_cons_self]
      have hdrop : (b :: mid).filter (fun b => !taken b) = [] :=
        List.filter_eq_nil_iff.mpr fun b hb => by simp [hmid b hb]
      rw [List.cons_append, List.takeWhile_cons_of_neg (p := fun b => !taken b) hb,
        List.dropWhile_cons_of_neg (p := fun b => !taken b) hb, ← List.cons_append,
        List.filter_append, hdrop, List.filter_eq_self.mpr (hall hback)]
      simp

end Inserting

namespace TableOcr

variable {Image : Type} (p : TableOcr Image) (t : TableLayout Image) (angle : QuarterTurn)
  (f : Frame ℚ)

/-- The boxes of the accepted results. -/
def newBoxes : List OcrResult → ℕ → List PageBox
  | [], _ => []
  | r :: results, next =>
      if r.accepted then p.newBox t angle f next r :: newBoxes results (next + 1)
      else newBoxes results next

theorem insertOcrBoxes_eq (results : List OcrResult) (bs : List PageBox) (insertAt next : ℕ) :
    p.insertOcrBoxes t angle f results bs insertAt next =
      restoreBoxes bs (p.newBoxes t angle f results next) insertAt := by
  induction results generalizing bs insertAt next with
  | nil => rfl
  | cons r results ih =>
      rw [insertOcrBoxes, newBoxes]
      split_ifs
      · rw [restoreBoxes, ih]
      · exact ih bs insertAt next

theorem map_text_newBoxes (results : List OcrResult) (next : ℕ) :
    (p.newBoxes t angle f results next).map PageBox.text =
      (results.filter OcrResult.accepted).map OcrResult.text := by
  induction results generalizing next with
  | nil => rfl
  | cons r results ih =>
      rw [newBoxes, List.filter_cons]
      split_ifs
      · rw [List.map_cons, List.map_cons, ih]
        rfl
      · exact ih next

variable {p t angle f}

theorem mem_newBoxes {results : List OcrResult} {next : ℕ} {b : PageBox}
    (h : b ∈ p.newBoxes t angle f results next) :
    (next ≤ b.oid ∧ b.oid < next + (results.filter OcrResult.accepted).length) ∧
      b.pageNumber = t.page + p.pageFrom := by
  induction results generalizing next with
  | nil => cases h
  | cons r results ih =>
      rw [newBoxes] at h
      rw [List.filter_cons]
      split_ifs at h ⊢
      · rcases List.mem_cons.mp h with rfl | h
        · exact ⟨⟨le_rfl, Nat.lt_add_of_pos_right (Nat.succ_pos _)⟩, rfl⟩
        · obtain ⟨⟨hle, hlt⟩, hpage⟩ := ih h
          rw [List.length_cons]
          exact ⟨⟨by omega, by omega⟩, hpage⟩
      · exact ih h

theorem mem_reread {bs : List PageBox} {next : ℕ} {img : Image} {b : PageBox}
    (h : b ∈ p.reread t bs next angle img) :
    b ∈ bs ∨ b ∈ p.newBoxes t angle (t.crop p.ZM) (p.ocr img) next := by
  simp only [reread, insertOcrBoxes_eq] at h
  split_ifs at h
  · rcases mem_restoreBoxes h with h | h <;> exact Or.inl (List.mem_filter.mp h).1
  · rcases mem_restoreBoxes h with h | h
    · exact Or.inl (List.mem_filter.mp h).1
    · exact Or.inr h

variable (p) in
/-- One table of `_ocr_rotated_tables`. -/
def ocrRotatedTable (st : PageBoxes) (t : TableLayout Image) : PageBoxes :=
  match t.rotation with
  | none => st
  | some (angle, img) =>
      if angle = .deg0 then st
      else
        { boxes := p.reread t st.boxes st.next angle img
          next := st.next + ((p.ocr img).filter OcrResult.accepted).length
          old := by
            intro b hb
            rcases mem_reread hb with hb | hb
            · exact Nat.lt_add_right _ (st.old b hb)
            · exact (mem_newBoxes hb).1.2 }

variable (p) in
/-- `_ocr_rotated_tables`. -/
def ocrRotatedTables (st : PageBoxes) (tables : List (TableLayout Image)) : PageBoxes :=
  tables.foldl p.ocrRotatedTable st

/-! ## Replacing the boxes of a table -/

section Replacing

variable (p t)

/-- The boxes of the table on its page, and no other ones, make place for those that are read;
if nothing is accepted, nothing changes. -/
def Replaces (img : Image) (before after : PageBoxes) : Prop :=
  let own := p.isTableBox t t.pageNumber
  let accepted := (p.ocr img).filter OcrResult.accepted
  if accepted = [] then after.boxes = before.boxes
  else ∃ inserted : List PageBox, inserted.map PageBox.text = accepted.map OcrResult.text ∧
    (∀ b ∈ inserted, before.next ≤ b.oid ∧ b.pageNumber = t.pageNumber) ∧
    after.boxes = before.boxes.takeWhile (fun b => !own b) ++ inserted ++
      (before.boxes.dropWhile fun b => !own b).filter fun b => !own b

/-- The boxes that are taken away stand behind one another. -/
def Contiguous (bs : List PageBox) : Prop :=
  let taken := p.isTableBox t (t.page + p.pageFrom)
  ∃ front mid back, bs = front ++ mid ++ back ∧ (∀ b ∈ front, taken b = false) ∧
    (∀ b ∈ mid, taken b = true) ∧ ∀ b ∈ back, taken b = false

/-- The two numbers of the page are the same, or nothing is accepted and the boxes that are
taken away return. -/
def Harmless (img : Image) (before : PageBoxes) : Prop :=
  if (p.ocr img).filter OcrResult.accepted ≠ [] then p.pageFrom = 1
  else if p.ocr img = [] then p.Contiguous t before.boxes
  else ∀ b ∈ before.boxes, p.isTableBox t (t.page + p.pageFrom) b = false

variable {p t} {img : Image} {before : PageBoxes}

theorem newBoxes_of_none (h : (p.ocr img).filter OcrResult.accepted = []) :
    p.newBoxes t angle f (p.ocr img) before.next = [] := by
  have htext := map_text_newBoxes p t angle f (p.ocr img) before.next
  rw [h] at htext
  exact List.map_eq_nil_iff.mp htext

/-- Where nothing is accepted, all is well if what is taken away is put back, or nothing is. -/
theorem reread_eq_self_iff (h : (p.ocr img).filter OcrResult.accepted = []) :
    p.reread t before.boxes before.next angle img = before.boxes ↔
      p.Harmless t img before := by
  rw [Harmless, if_neg (not_not.mpr h), reread]
  split_ifs with hnil
  · exact restoreBoxes_eq_self_iff
  · rw [insertOcrBoxes_eq, newBoxes_of_none h, restoreBoxes_filter, List.append_nil,
      takeWhile_append_filter, List.filter_eq_self]
    simp only [Bool.not_eq_true']

theorem replaces_reread_iff {after : PageBoxes}
    (hafter : after.boxes = p.reread t before.boxes before.next angle img) :
    p.Replaces t img before after ↔ p.Harmless t img before := by
  by_cases haccepted : (p.ocr img).filter OcrResult.accepted = []
  · rw [Replaces, if_pos haccepted, hafter]
    exact reread_eq_self_iff haccepted
  have hne : p.ocr img ≠ [] := fun hnil => haccepted (by rw [hnil]; rfl)
  have hboxes : after.boxes = _ := hafter
  rw [reread, if_neg hne, insertOcrBoxes_eq, restoreBoxes_filter] at hboxes
  have htext := map_text_newBoxes p t angle (t.crop p.ZM) (p.ocr img) before.next
  rw [Replaces, if_neg haccepted, Harmless, if_pos haccepted]
  constructor
  · rintro ⟨inserted, -, hinserted, hreplaced⟩
    have hnew : p.newBoxes t angle (t.crop p.ZM) (p.ocr img) before.next ≠ [] := by
      intro hnil
      rw [hnil] at htext
      exact haccepted (List.map_eq_nil_iff.mp htext.symm)
    obtain ⟨b, hb⟩ := List.exists_mem_of_ne_nil _ hnew
    obtain ⟨⟨hid, -⟩, hpage⟩ := mem_newBoxes hb
    have hold : b ∉ before.boxes := fun hmem => absurd (before.old b hmem) (not_lt.mpr hid)
    have hmem : b ∈ after.boxes := by
      rw [hboxes]
      exact List.mem_append_left _ (List.mem_append_right _ hb)
    rw [hreplaced] at hmem
    rcases List.mem_append.mp hmem with hmem | hmem
    · rcases List.mem_append.mp hmem with hmem | hmem
      · exact absurd ((List.takeWhile_prefix _).subset hmem) hold
      · have hnumber := (hinserted b hmem).2
        rw [hpage, TableLayout.pageNumber] at hnumber
        exact Nat.add_left_cancel hnumber
    · exact absurd ((List.dropWhile_suffix _).subset (List.mem_filter.mp hmem).1) hold
  · intro hone
    rw [hone] at hboxes
    refine ⟨_, htext, fun b hb => ?_, hboxes⟩
    obtain ⟨⟨hid, -⟩, hpage⟩ := mem_newBoxes hb
    rw [hone] at hpage
    exact ⟨hid, hpage⟩

theorem boxes_ocrRotatedTable (hrotation : t.rotation = some (angle, img))
    (hangle : angle ≠ .deg0) :
    (p.ocrRotatedTable before t).boxes = p.reread t before.boxes before.next angle img := by
  rw [ocrRotatedTable, hrotation]
  dsimp only
  rw [if_neg hangle]

theorem ocrRotatedTables_concat (st : PageBoxes) (pre : List (TableLayout Image)) :
    p.ocrRotatedTables st (pre ++ [t]) = p.ocrRotatedTable (p.ocrRotatedTables st pre) t := by
  rw [ocrRotatedTables, List.foldl_append]
  rfl

variable (p) in
/-- In a run over the tables, the boxes of every turned table are replaced, if and only if all
its tables are harmless. -/
theorem replaces_iff (st : PageBoxes) (tables : List (TableLayout Image)) :
    (∀ pre t post angle img, tables = pre ++ t :: post → t.rotation = some (angle, img) →
      angle ≠ .deg0 →
      p.Replaces t img (p.ocrRotatedTables st pre) (p.ocrRotatedTables st (pre ++ [t]))) ↔
    ∀ pre t post angle img, tables = pre ++ t :: post → t.rotation = some (angle, img) →
      angle ≠ .deg0 → p.Harmless t img (p.ocrRotatedTables st pre) := by
  have hstep : ∀ pre t angle img, t.rotation = some (angle, img) → angle ≠ .deg0 →
      (p.Replaces t img (p.ocrRotatedTables st pre) (p.ocrRotatedTables st (pre ++ [t])) ↔
        p.Harmless t img (p.ocrRotatedTables st pre)) := by
    intro pre t angle img hrotation hangle
    rw [ocrRotatedTables_concat]
    exact replaces_reread_iff (boxes_ocrRotatedTable hrotation hangle)
  constructor
  · intro h pre t post angle img htables hrotation hangle
    exact (hstep pre t angle img hrotation hangle).mp
      (h pre t post angle img htables hrotation hangle)
  · intro h pre t post angle img htables hrotation hangle
    exact (hstep pre t angle img hrotation hangle).mpr
      (h pre t post angle img htables hrotation hangle)

end Replacing

/-- A table of the first page, turned by a quarter. -/
def turnedTable : TableLayout Unit := ⟨0, 0, 10, 10, 90, 40, some (.deg90, ())⟩

/-- One result is read on each image. -/
def oneResult (pageFrom : ℕ) : TableOcr Unit where
  ocr _ := [⟨[⟨5, 5⟩, ⟨25, 5⟩, ⟨25, 15⟩, ⟨5, 15⟩], List.cons_ne_nil _ _, "cell".toList, 1⟩]
  pageFrom
  pageCumHeight _ := 0
  ZM := 1
  ZM_pos := one_pos

/-- The box of the turned table. -/
def tableBoxOfFirstPage : PageBoxes where
  boxes := [⟨0, "llec".toList, 12, 20, 12, 30, 1, some "table".toList, none, none⟩]
  next := 1
  old := by simp

/-- In the window of the first page, the page has two numbers. -/
theorem not_replaces_firstPage :
    ¬ ∀ (p : TableOcr Unit) (st : PageBoxes) (tables pre : List (TableLayout Unit))
      (t : TableLayout Unit) (post : List (TableLayout Unit)) (angle : QuarterTurn) (img : Unit),
      tables = pre ++ t :: post → t.rotation = some (angle, img) → angle ≠ .deg0 →
      p.Replaces t img (p.ocrRotatedTables st pre) (p.ocrRotatedTables st (pre ++ [t])) := by
  intro h
  have hreplaces := h (oneResult 0) tableBoxOfFirstPage [turnedTable] [] turnedTable [] .deg90 ()
    rfl rfl (by decide)
  have haccepted : ((oneResult 0).ocr ()).filter OcrResult.accepted ≠ [] := by
    rw [oneResult, List.filter_cons_of_pos (by norm_num [OcrResult.accepted])]
    exact List.cons_ne_nil _ _
  have hharmless := (replaces_reread_iff (boxes_ocrRotatedTable rfl (by decide))).mp hreplaces
  rw [Harmless, if_pos haccepted] at hharmless
  exact absurd hharmless (by decide)

/-! ## Turning back -/

section Turning

variable (p t angle f) in
/-- The box stands where the rectangle of the image is on the page. -/
def StandsAt (r : Rect ℚ) (b : PageBox) : Prop :=
  b.x0 = r.x0 / p.ZM + (t.x0 - MARGIN) ∧ b.x1 = r.x1 / p.ZM + (t.x0 - MARGIN) ∧
    b.top = r.top / p.ZM + (t.top - MARGIN + p.pageCumHeight t.page) ∧
      b.bottom = r.bottom / p.ZM + (t.top - MARGIN + p.pageCumHeight t.page)

variable (p t angle f) in
/-- What is read on the turned image, at the turned corners of a rectangle, is inserted where the
rectangle is. -/
def MapsBack (r : Rect ℚ) : Prop :=
  ∀ oid (result : OcrResult), result.bbox.Perm (r.corners.map (angle.turn f)) →
    p.StandsAt t r (p.newBox t angle f oid result)

/-- A point is not turned back: it is turned again. -/
theorem mapRotatedPoint_turn (point : Point ℚ) :
    mapRotatedPoint (angle.turn f point) angle f = (angle.followedBy angle).turn f point := by
  have hagain : ∀ q, mapRotatedPoint q angle f = angle.turn (angle.frame f) q := fun q => by
    cases angle <;> rfl
  rw [hagain, QuarterTurn.turn_turn]

theorem mappedRect_eq {r : Rect ℚ} {result : OcrResult}
    (hcorners : result.bbox.Perm (r.corners.map (angle.turn f))) :
    mappedRect result angle f = r.turn (angle.followedBy angle) f := by
  apply Rect.bounding_turn_corners
  have hmap := hcorners.map fun q => mapRotatedPoint q angle f
  rw [List.map_map] at hmap
  have hturn : ((fun q => mapRotatedPoint q angle f) ∘ angle.turn f) =
      (angle.followedBy angle).turn f := funext mapRotatedPoint_turn
  rwa [hturn] at hmap

/-- A coordinate is at its place, if it was short of it by the margin. -/
theorem div_add_eq_iff (a b c : ℚ) :
    a / p.ZM + c = b / p.ZM + (c - MARGIN) ↔ a = b - MARGIN * p.ZM := by
  have hZM := p.ZM_pos
  rw [← sub_eq_zero, ← sub_eq_zero (a := a)]
  have hsub : a / p.ZM + c - (b / p.ZM + (c - MARGIN)) = (a - (b - MARGIN * p.ZM)) / p.ZM := by
    field_simp
    ring
  rw [hsub, div_eq_zero_iff, or_iff_left hZM.ne']

theorem standsAt_newBox_iff {r : Rect ℚ} {oid : ℕ} {result : OcrResult}
    (hcorners : result.bbox.Perm (r.corners.map (angle.turn f))) :
    p.StandsAt t r (p.newBox t angle f oid result) ↔
      (angle = .deg90 ∨ angle = .deg270) ∧ r.x0 + r.x1 = f.width + MARGIN * p.ZM ∧
        r.top + r.bottom = f.height + MARGIN * p.ZM := by
  have hcum : t.top - MARGIN + p.pageCumHeight t.page =
      t.top + p.pageCumHeight t.page - MARGIN := by ring
  have hpos : 0 < MARGIN * p.ZM := mul_pos (by norm_num [MARGIN]) p.ZM_pos
  have hstands : p.StandsAt t r (p.newBox t angle f oid result) ↔
      let back := r.turn (angle.followedBy angle) f
      back.x0 = r.x0 - MARGIN * p.ZM ∧ back.x1 = r.x1 - MARGIN * p.ZM ∧
        back.top = r.top - MARGIN * p.ZM ∧ back.bottom = r.bottom - MARGIN * p.ZM := by
    simp only [StandsAt, newBox, mappedRect_eq hcorners, unzoom, hcum, add_assoc, div_add_eq_iff]
  have hsame : ¬ r.x0 = r.x0 - MARGIN * p.ZM := fun h => by linarith
  have hhalf : (f.width - r.x1 = r.x0 - MARGIN * p.ZM ∧ f.width - r.x0 = r.x1 - MARGIN * p.ZM ∧
      f.height - r.bottom = r.top - MARGIN * p.ZM ∧
        f.height - r.top = r.bottom - MARGIN * p.ZM) ↔
      r.x0 + r.x1 = f.width + MARGIN * p.ZM ∧ r.top + r.bottom = f.height + MARGIN * p.ZM := by
    constructor
    · rintro ⟨hx, -, hy, -⟩
      exact ⟨by linarith, by linarith⟩
    · rintro ⟨hx, hy⟩
      exact ⟨by linarith, by linarith, by linarith, by linarith⟩
  rw [hstands]
  cases angle with
  | deg0 => simp [QuarterTurn.followedBy, Rect.turn, hsame]
  | deg90 => simpa [QuarterTurn.followedBy, Rect.turn] using hhalf
  | deg180 => simp [QuarterTurn.followedBy, Rect.turn, hsame]
  | deg270 => simpa [QuarterTurn.followedBy, Rect.turn] using hhalf

variable (p t angle f) in
/-- What was read is inserted where it was, if and only if the table was turned by a quarter and
the rectangle is in the middle of the image, half a margin to the lower right. -/
theorem mapsBack_iff (r : Rect ℚ) :
    p.MapsBack t angle f r ↔
      (angle = .deg90 ∨ angle = .deg270) ∧ r.x0 + r.x1 = f.width + MARGIN * p.ZM ∧
        r.top + r.bottom = f.height + MARGIN * p.ZM := by
  constructor
  · intro h
    have hresult := h 0 ⟨r.corners.map (angle.turn f), by simp [Rect.corners], [], 0⟩ (.refl _)
    exact (standsAt_newBox_iff (.refl _)).mp hresult
  · intro h oid result hcorners
    exact (standsAt_newBox_iff hcorners).mpr h

/-- What is read on the turned table is not inserted where it was. -/
theorem not_mapsBack_turnedTable :
    ¬ ∀ (p : TableOcr Unit) (t : TableLayout Unit) (angle : QuarterTurn) (f : Frame ℚ)
      (r : Rect ℚ), angle ≠ .deg0 → p.MapsBack t angle f r := by
  intro h
  have hback := h (oneResult 0) turnedTable .deg90 (turnedTable.crop 1)
    ⟨0, 0, 20, 10, by norm_num, by norm_num⟩ (by decide) 0
    ⟨_, by simp, "cell".toList, 1⟩ (.refl _)
  have hmiddle := ((standsAt_newBox_iff (.refl _)).mp hback).2.1
  norm_num [turnedTable, TableLayout.crop, oneResult, MARGIN] at hmiddle

end Turning

end TableOcr

end RagflowMineru.Deepdoc
