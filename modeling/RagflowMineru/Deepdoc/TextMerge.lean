import RagflowMineru.Library.Buckets
import RagflowMineru.MinerU.Otsl
import Mathlib.Algebra.Order.Field.Rat
import Mathlib.Data.PNat.Basic
import Mathlib.Data.Rat.Cast.Order

/-!
# Merging the boxes of a page

Boxes in a line, boxes one below the other and boxes with one bullet are merged.  Whatever the
geometry says, a merged box has the texts of both, and only blank boxes disappear.  Heights are
looked up by page, also where a missing table of heights has just been replaced by a median.
-/

namespace RagflowMineru.Deepdoc

open Library
open Document (isSpace)
open MinerU (strip)

attribute [local instance] MinerU.lawfulBEq_letters

structure LayoutTag where
  no : List Char
  type : List Char

/-- A box; `layout` is what it was matched with, and `colId` what `_assign_column` gives it. -/
structure TextBox where
  pageNumber : ℕ+
  x0 : ℚ
  x1 : ℚ
  top : ℚ
  bottom : ℚ
  text : List Char
  layout : Option LayoutTag
  colId : Option ℕ

namespace TextBox

/-- `b.get("layoutno")` -/
def layoutno (b : TextBox) : Option (List Char) := b.layout.map LayoutTag.no

/-- `b.get("layout_type", "")` -/
def layoutType (b : TextBox) : List Char := b.layout.elim [] LayoutTag.type

/-- Nothing is left of the text when it is stripped. -/
def isBlank (b : TextBox) : Bool := strip b.text = []

/-- `_y_dis` -/
def yDis (a b : TextBox) : ℚ := (b.top + b.bottom - a.top - a.bottom) / 2

end TextBox

/-- What the parser knows of the pages; the heights and widths are those of letters. -/
structure PageStats where
  meanHeight : List ℚ
  meanWidth : List ℚ
  isEnglish : Bool

/-- `self.mean_height[page - 1]`; here and below `none` is an `IndexError`. -/
def ofPage (values : List ℚ) (page : ℕ+) : Option ℚ := values[page.natPred]?

section TextMerge

variable (stats : PageStats)

/-- The loop of `_text_merge`, with a box and those behind it. -/
def textMergeFrom (b : TextBox) : List TextBox → Option (List TextBox)
  | [] => some [b]
  | b' :: rest =>
      if b.pageNumber ≠ b'.pageNumber ∨ b.colId ≠ b'.colId then
        (textMergeFrom b' rest).map (b :: ·)
      else if b.layoutno.getD ['0'] ≠ b'.layoutno.getD ['1'] ∨
          b.layoutType ∈ ["table".toList, "figure".toList, "equation".toList] then
        (textMergeFrom b' rest).map (b :: ·)
      else
        match ofPage stats.meanHeight b.pageNumber with
        | none => none
        | some height =>
            if |b.yDis b'| < height / 3 then
              textMergeFrom { b with
                x1 := b'.x1, top := (b.top + b'.top) / 2, bottom := (b.bottom + b'.bottom) / 2,
                text := b.text ++ b'.text } rest
            else (textMergeFrom b' rest).map (b :: ·)

/-- `_text_merge`, with the columns assigned. -/
def textMerge : List TextBox → Option (List TextBox)
  | [] => some []
  | b :: rest => textMergeFrom stats b rest

end TextMerge

/-! ## Boxes one below the other -/

section VerticalMerge

variable (stats : PageStats)

/-- `np.median` -/
def median (values : List ℚ) : ℚ :=
  let sorted := values.mergeSort (fun a b => decide (a ≤ b))
  let half := sorted.length / 2
  if sorted.length % 2 = 1 then sorted.getD half 0
  else (sorted.getD (half - 1) 0 + sorted.getD half 0) / 2

def isOneOf (chars : String) (c : Char) : Bool := c ∈ chars.toList

/-- `re.match(r"[0-9  •一—-]+$", text)` -/
def isPageMark (text : List Char) : Bool :=
  let line := if text.getLast? = some '\n' then text.dropLast else text
  line ≠ [] && line.all fun c => ('0' ≤ c && c ≤ '9') || isOneOf " •一—-" c

/-- `c and value`, where the value is only asked for if `c` holds. -/
def askIf (c : Prop) [Decidable c] (value : Option Bool) : Option Bool :=
  if c then value else some false

/-- `concatting_feats`; characters of a text are asked by their places. -/
def concattingFeats (b b' : TextBox) : Option (List Bool) := do
  let last ← (strip b.text).getLast?
  let beforeLast ← askIf (1 < (strip b.text).length)
    ((strip b.text).dropLast.getLast?.map (isOneOf ",;:'\"，‘“、；："))
  let first ← askIf (strip b'.text ≠ []) ((strip b'.text).head?.map (isOneOf "。；？！?”）),，、："))
  return [isOneOf ",;:'\"，、‘“；：-" last, beforeLast, first]

/-- `feats`, for not concatenating; the heights and widths are asked again here. -/
def feats (b b' : TextBox) : Option (List Bool) := do
  let last ← (strip b.text).getLast?
  let far ← askIf (b.pageNumber = b'.pageNumber)
    ((ofPage stats.meanHeight b.pageNumber).map fun height =>
      decide (b'.top - b.bottom > height * (3 / 2)))
  let aside ← askIf (b.pageNumber < b'.pageNumber)
    ((ofPage stats.meanWidth b.pageNumber).map fun width => decide (|b.x0 - b'.x0| > width * 4))
  return [b.layoutno ≠ b'.layoutno, isOneOf "。？！?" last, stats.isEnglish && isOneOf ".!?" last,
    far, aside]

/-- The overlap of two boxes in width is less than it should be. -/
def fewOverlap (b b' : TextBox) : Bool :=
  max 0 (min b.x1 b'.x1 - max b.x0 b'.x0) / max 1 (min (b.x1 - b.x0) (b'.x1 - b'.x0)) < 3 / 10

/-- The loop of `_naive_vertical_merge` over the boxes of a page. -/
def verticalMergeFrom (mh : ℚ) (b : TextBox) : List TextBox → Option (List TextBox)
  | [] => some [b]
  | b' :: rest =>
      if b.pageNumber < b'.pageNumber ∧ isPageMark b.text then verticalMergeFrom mh b' rest
      else if b.isBlank then verticalMergeFrom mh b' rest
      else if b.isBlank ∨ b.layoutno ≠ b'.layoutno then (verticalMergeFrom mh b' rest).map (b :: ·)
      else if b'.top - b.bottom > mh * (3 / 2) then (verticalMergeFrom mh b' rest).map (b :: ·)
      else if fewOverlap b b' then (verticalMergeFrom mh b' rest).map (b :: ·)
      else
        match concattingFeats b b', feats stats b b' with
        | some concatting, some notConcatting =>
            let detach := b.x1 < b'.x0 ∨ b.x0 > b'.x1
            if (notConcatting.any id ∧ ¬ concatting.any id) ∨ detach then
              (verticalMergeFrom mh b' rest).map (b :: ·)
            else
              verticalMergeFrom mh { b with
                text := strip (b.text.rdropWhile isSpace ++ ' ' :: b'.text.dropWhile isSpace)
                bottom := b'.bottom, x0 := min b.x0 b'.x0, x1 := max b.x1 b'.x1 } rest
        | _, _ => none

/-- The boxes of a page from top to bottom, and from left to right. -/
def sortBoxes (bxs : List TextBox) : List TextBox :=
  bxs.mergeSort fun a b => a.top < b.top || (a.top = b.top && a.x0 ≤ b.x0)

/-- `mh`: the height of the page, or where there are no heights a median. -/
def groupHeight (pg : ℕ+) (bxs : List TextBox) : Option ℚ :=
  if stats.meanHeight ≠ [] then ofPage stats.meanHeight pg
  else
    let height := median (bxs.map fun b => b.bottom - b.top)
    some (if height = 0 then 10 else height)

/-- The body of the loop over the pages. -/
def verticalMergePage (pg : ℕ+) (bxs : List TextBox) : Option (List TextBox) :=
  match sortBoxes bxs with
  | [] => some []
  | b :: rest => do
      let mh ← groupHeight stats pg (b :: rest)
      verticalMergeFrom stats mh b rest

/-- `grouped` -/
def byPage (bxs : List TextBox) : Assoc ℕ+ (List TextBox) := buckets (fun b => [b.pageNumber]) bxs

/-- The loop of `_naive_vertical_merge` over the pages. -/
def verticalMergePages : Assoc ℕ+ (List TextBox) → Option (List TextBox)
  | [] => some []
  | (pg, bxs) :: pages => do
      let merged ← verticalMergePage stats pg bxs
      let others ← verticalMergePages pages
      return merged ++ others

def naiveVerticalMerge (bxs : List TextBox) : Option (List TextBox) :=
  verticalMergePages stats (byPage bxs)

end VerticalMerge

/-! ## Boxes with one bullet -/

/-- What the tokenizer and the tables of Unicode say of letters. -/
structure Letters where
  isChinese : Char → Bool
  lower : Char → List Char

section BulletMerge

variable (letters : Letters)

/-- The loop of `_merge_with_same_bullet`, with a box and those behind it. -/
def bulletMergeFrom (b : TextBox) : List TextBox → Option (List TextBox)
  | [] => some [b]
  | b' :: rest =>
      if b.isBlank then bulletMergeFrom b' rest
      else if b'.isBlank then bulletMergeFrom b rest
      else
        match (strip b.text).head?, (strip b'.text).head? with
        | some c, some c' =>
            if c ≠ c' ∨ letters.lower c ∈ "qwertyuopasdfghjklzxcvbnm".toList.map ([·]) ∨
                letters.isChinese c ∨ b.top > b'.bottom then
              (bulletMergeFrom b' rest).map (b :: ·)
            else
              bulletMergeFrom { b' with
                text := b.text ++ '\n' :: b'.text, x0 := min b.x0 b'.x0, x1 := max b.x1 b'.x1,
                top := b.top } rest
        | _, _ => none

def mergeWithSameBullet : List TextBox → Option (List TextBox)
  | [] => some []
  | b :: rest => bulletMergeFrom letters b rest

end BulletMerge

/-! ## What is kept -/

/-- The characters of the boxes that are not blank. -/
def inkOf (bxs : List TextBox) : List Char :=
  (bxs.flatMap TextBox.text).filter fun c => !isSpace c

/-- The boxes as `_naive_vertical_merge` goes through them. -/
def processingOrder (bxs : List TextBox) : List TextBox :=
  (byPage bxs).flatMap fun entry => sortBoxes entry.2

/-- The three functions end without an error and keep what is not blank. -/
structure KeepsText (stats : PageStats) (letters : Letters) (bxs : List TextBox) : Prop where
  textMerge : ∃ out, textMerge stats bxs = some out ∧
    out.flatMap TextBox.text = bxs.flatMap TextBox.text
  naiveVerticalMerge : ∃ out, naiveVerticalMerge stats bxs = some out ∧
    inkOf out = inkOf (processingOrder bxs)
  mergeWithSameBullet : ∃ out, mergeWithSameBullet letters bxs = some out ∧ inkOf out = inkOf bxs

/-- There is a value for the page. -/
def Covered (values : List ℚ) (page : ℕ+) : Prop := page.natPred < values.length

instance (values : List ℚ) (page : ℕ+) : Decidable (Covered values page) :=
  inferInstanceAs (Decidable (_ < _))

/-- Boxes that may be merged in a line are on pages with a height. -/
def LineHeights (stats : PageStats) (bxs : List TextBox) : Prop :=
  bxs.IsChain fun b b' => b.pageNumber = b'.pageNumber → b.colId = b'.colId →
    b.layoutno.getD ['0'] = b'.layoutno.getD ['1'] →
    b.layoutType ∉ ["table".toList, "figure".toList, "equation".toList] →
    Covered stats.meanHeight b.pageNumber

/-- Two boxes are close enough for their texts to be compared. -/
def Compared (mh : ℚ) (b b' : TextBox) : Prop :=
  b.isBlank = false ∧ b.layoutno = b'.layoutno ∧ ¬ b'.top - b.bottom > mh * (3 / 2) ∧
    fewOverlap b b' = false

/-- The page has a height; or there are no heights, and no two boxes of the page that follow one
another are close. -/
def PageHeight (stats : PageStats) (pg : ℕ+) (bxs : List TextBox) : Prop :=
  Covered stats.meanHeight pg ∨
    stats.meanHeight = [] ∧ ∃ mh ∈ groupHeight stats pg (sortBoxes bxs),
      (sortBoxes bxs).IsChain fun b b' => ¬ Compared mh b b'

def PageHeights (stats : PageStats) (bxs : List TextBox) : Prop :=
  ∀ entry ∈ byPage bxs, PageHeight stats entry.1 entry.2

/-! ## Texts -/

section Ink

variable {t : List Char} {b : TextBox} {bxs bxs' : List TextBox}

theorem inkOf_append : inkOf (bxs ++ bxs') = inkOf bxs ++ inkOf bxs' := by
  rw [inkOf, List.flatMap_append, List.filter_append]
  rfl

theorem inkOf_cons : inkOf (b :: bxs) = b.text.filter (fun c => !isSpace c) ++ inkOf bxs := by
  rw [inkOf, List.flatMap_cons, List.filter_append]
  rfl

theorem filter_dropWhile_isSpace (t : List Char) :
    (t.dropWhile isSpace).filter (fun c => !isSpace c) = t.filter fun c => !isSpace c := by
  induction t with
  | nil => rfl
  | cons c t ih =>
      rw [List.dropWhile_cons]
      split_ifs with hc
      · rw [ih, List.filter_cons_of_neg (by simp [hc])]
      · rfl

theorem filter_rdropWhile_isSpace (t : List Char) :
    (t.rdropWhile isSpace).filter (fun c => !isSpace c) = t.filter fun c => !isSpace c := by
  rw [List.rdropWhile, List.filter_reverse, filter_dropWhile_isSpace, ← List.filter_reverse,
    List.reverse_reverse]

theorem filter_strip (t : List Char) :
    (strip t).filter (fun c => !isSpace c) = t.filter fun c => !isSpace c := by
  rw [strip, filter_rdropWhile_isSpace, filter_dropWhile_isSpace]

theorem strip_ne_nil (h : b.isBlank = false) : strip b.text ≠ [] := by
  simpa [TextBox.isBlank] using h

/-- A blank box may disappear. -/
theorem inkOf_cons_of_isBlank (h : b.isBlank = true) : inkOf (b :: bxs) = inkOf bxs := by
  have hnil : strip b.text = [] := by simpa [TextBox.isBlank] using h
  rw [inkOf_cons, ← filter_strip, hnil]
  rfl

end Ink

/-! ## Boxes in a line -/

section Lines

variable {stats : PageStats} {b : TextBox} {rest out bxs : List TextBox}

theorem ofPage_isSome_iff {values : List ℚ} {page : ℕ+} :
    (ofPage values page).isSome ↔ Covered values page := by
  rw [ofPage, isSome_getElem?]
  rfl

theorem flatMap_text_textMergeFrom (h : textMergeFrom stats b rest = some out) :
    out.flatMap TextBox.text = (b :: rest).flatMap TextBox.text := by
  induction rest generalizing b out with
  | nil =>
      obtain rfl := Option.some.inj h
      rfl
  | cons b' rest ih =>
      have hkeep : ∀ {out}, (textMergeFrom stats b' rest).map (b :: ·) = some out →
          out.flatMap TextBox.text = (b :: b' :: rest).flatMap TextBox.text := by
        intro out hout
        obtain ⟨out', hout', rfl⟩ := Option.map_eq_some_iff.mp hout
        rw [List.flatMap_cons, ih hout']
        rfl
      rw [textMergeFrom] at h
      split_ifs at h with hplace hlayout
      · exact hkeep h
      · exact hkeep h
      · split at h
        · exact nomatch h
        · split_ifs at h with hclose
          · rw [ih h, List.flatMap_cons, List.flatMap_cons, List.flatMap_cons, List.append_assoc]
          · exact hkeep h

/-- A height is missing only where the first two boxes of a run ask for it. -/
theorem textMergeFrom_isSome_iff :
    (textMergeFrom stats b rest).isSome ↔ LineHeights stats (b :: rest) := by
  induction rest generalizing b with
  | nil => exact iff_of_true rfl (List.isChain_singleton b)
  | cons b' rest ih =>
      have hkeep : ((textMergeFrom stats b' rest).map (b :: ·)).isSome ↔
          LineHeights stats (b' :: rest) := by
        rw [Option.isSome_map, ih]
      rw [LineHeights, List.isChain_cons_cons, textMergeFrom]
      split_ifs with hplace hlayout
      · refine hkeep.trans (and_iff_right fun hpage hcol => ?_).symm
        exact absurd hplace (by simp [hpage, hcol])
      · refine hkeep.trans (and_iff_right fun _ _ hno htype => ?_).symm
        exact hlayout.elim (absurd hno) (fun hmem => absurd hmem htype)
      · obtain ⟨hpage, hcol⟩ := not_or.mp hplace
        obtain ⟨hno, htype⟩ := not_or.mp hlayout
        rcases hheight : ofPage stats.meanHeight b.pageNumber with - | height
        · have hnot : ¬ Covered stats.meanHeight b.pageNumber := by
            rw [← ofPage_isSome_iff, hheight]
            exact Bool.false_ne_true
          exact iff_of_false Bool.false_ne_true fun h =>
            hnot (h.1 (not_not.mp hpage) (not_not.mp hcol) (not_not.mp hno) htype)
        · have hcovered : Covered stats.meanHeight b.pageNumber := by
            rw [← ofPage_isSome_iff, hheight]
            rfl
          rw [and_iff_right fun _ _ _ _ => hcovered]
          dsimp only
          split_ifs with hclose
          · -- the merged box is on the same page, where there is a height
            rw [ih, LineHeights]
            cases rest with
            | nil => exact iff_of_true (List.isChain_singleton _) (List.isChain_singleton _)
            | cons b'' rest =>
                rw [List.isChain_cons_cons, List.isChain_cons_cons,
                  and_iff_right fun _ _ _ _ => hcovered, and_iff_right fun _ _ _ _ => ?_]
                rwa [← not_not.mp hpage]
          · exact hkeep

end Lines

/-! ## Boxes of a page -/

section Pages

variable {stats : PageStats} {b b' : TextBox} {rest out bxs : List TextBox} {mh : ℚ} {pg : ℕ+}

/-- The characters that are asked for exist in a text that is not blank. -/
theorem concattingFeats_isSome (hb : b.isBlank = false) : (concattingFeats b b').isSome := by
  have hlast := List.getLast?_eq_some_getLast (strip_ne_nil hb)
  have hbefore : ∃ f, askIf (1 < (strip b.text).length)
      ((strip b.text).dropLast.getLast?.map (isOneOf ",;:'\"，‘“、；：")) = some f := by
    rw [askIf]
    split_ifs with hlong
    · have hne : (strip b.text).dropLast ≠ [] := by
        rw [← List.length_pos_iff, List.length_dropLast]
        omega
      rw [List.getLast?_eq_some_getLast hne]
      exact ⟨_, rfl⟩
    · exact ⟨_, rfl⟩
  have hfirst : ∃ f, askIf (strip b'.text ≠ [])
      ((strip b'.text).head?.map (isOneOf "。；？！?”）),，、：")) = some f := by
    rw [askIf]
    split_ifs with hne
    · rw [List.head?_eq_some_head hne]
      exact ⟨_, rfl⟩
    · exact ⟨_, rfl⟩
  obtain ⟨before, hbefore⟩ := hbefore
  obtain ⟨first, hfirst⟩ := hfirst
  rw [concattingFeats, hlast, hbefore, hfirst]
  rfl

theorem feats_isSome_iff (hb : b.isBlank = false) (hpage : b.pageNumber = b'.pageNumber) :
    (feats stats b b').isSome ↔ Covered stats.meanHeight b.pageNumber := by
  have hlast := List.getLast?_eq_some_getLast (strip_ne_nil hb)
  have hnotBefore : ¬ b.pageNumber < b'.pageNumber := by
    rw [hpage]
    exact lt_irrefl _
  rw [feats, hlast, askIf, askIf, if_pos hpage, if_neg hnotBefore, ← ofPage_isSome_iff]
  rcases ofPage stats.meanHeight b.pageNumber with - | height
  · exact Iff.rfl
  · exact iff_of_true rfl rfl

/-- Boxes of one page lose what is blank only. -/
theorem inkOf_verticalMergeFrom (hpages : ∀ x ∈ b :: rest, x.pageNumber = pg)
    (h : verticalMergeFrom stats mh b rest = some out) : inkOf out = inkOf (b :: rest) := by
  induction rest generalizing b out with
  | nil =>
      obtain rfl := Option.some.inj h
      rfl
  | cons b' rest ih =>
      have hrest : ∀ x ∈ b' :: rest, x.pageNumber = pg := fun x hx =>
        hpages x (List.mem_cons_of_mem _ hx)
      have hkeep : ∀ {out}, (verticalMergeFrom stats mh b' rest).map (b :: ·) = some out →
          inkOf out = inkOf (b :: b' :: rest) := by
        intro out hout
        obtain ⟨out', hout', rfl⟩ := Option.map_eq_some_iff.mp hout
        rw [inkOf_cons, ih hrest hout', ← inkOf_cons]
      have hnotBefore : ¬ (b.pageNumber < b'.pageNumber ∧ isPageMark b.text = true) := by
        rw [hpages b List.mem_cons_self, hrest b' List.mem_cons_self]
        exact fun hlt => lt_irrefl _ hlt.1
      rw [verticalMergeFrom, if_neg hnotBefore] at h
      split_ifs at h with hblank hlayout hbelow hfew
      · rw [ih hrest h, inkOf_cons_of_isBlank hblank]
      · exact hkeep h
      · exact hkeep h
      · exact hkeep h
      · split at h
        · dsimp only at h
          split_ifs at h with hdetach
          · exact hkeep h
          · rw [ih ?_ h, inkOf_cons, inkOf_cons, inkOf_cons, filter_strip, List.filter_append,
              filter_rdropWhile_isSpace, List.filter_cons_of_neg (by decide),
              filter_dropWhile_isSpace, List.append_assoc]
            intro x hx
            rcases List.mem_cons.mp hx with rfl | hx
            · exact hpages b List.mem_cons_self
            · exact hrest x (List.mem_cons_of_mem _ hx)
        · exact nomatch h

/-- Where the page has a height nothing is missing. -/
theorem verticalMergeFrom_isSome (hpages : ∀ x ∈ b :: rest, x.pageNumber = pg)
    (hcovered : Covered stats.meanHeight pg) : (verticalMergeFrom stats mh b rest).isSome := by
  induction rest generalizing b with
  | nil => rfl
  | cons b' rest ih =>
      have hb := hpages b List.mem_cons_self
      have hrest : ∀ x ∈ b' :: rest, x.pageNumber = pg := fun x hx =>
        hpages x (List.mem_cons_of_mem _ hx)
      have hkeep : ((verticalMergeFrom stats mh b' rest).map (b :: ·)).isSome := by
        rw [Option.isSome_map]
        exact ih hrest
      rw [verticalMergeFrom]
      split_ifs with hmark hblank hlayout hbelow hfew
      · exact ih hrest
      · exact ih hrest
      · exact hkeep
      · exact hkeep
      · exact hkeep
      · rw [Bool.not_eq_true] at hblank
        obtain ⟨concatting, hconcatting⟩ : ∃ l, concattingFeats b b' = some l :=
          Option.isSome_iff_exists.mp (concattingFeats_isSome hblank)
        obtain ⟨notConcatting, hfeats⟩ : ∃ l, feats stats b b' = some l :=
          Option.isSome_iff_exists.mp ((feats_isSome_iff hblank
            (hb.trans (hrest b' List.mem_cons_self).symm)).mpr (hb ▸ hcovered))
        rw [hconcatting, hfeats]
        dsimp only
        split_ifs with hdetach
        · exact hkeep
        · refine ih fun x hx => ?_
          rcases List.mem_cons.mp hx with rfl | hx
          · exact hb
          · exact hrest x (List.mem_cons_of_mem _ hx)

/-- Where it has none, no boxes may be compared. -/
theorem verticalMergeFrom_isSome_iff (hpages : ∀ x ∈ b :: rest, x.pageNumber = pg)
    (hnone : ¬ Covered stats.meanHeight pg) :
    (verticalMergeFrom stats mh b rest).isSome ↔
      (b :: rest).IsChain fun x y => ¬ Compared mh x y := by
  induction rest generalizing b with
  | nil => exact iff_of_true rfl (List.isChain_singleton b)
  | cons b' rest ih =>
      have hb := hpages b List.mem_cons_self
      have hrest : ∀ x ∈ b' :: rest, x.pageNumber = pg := fun x hx =>
        hpages x (List.mem_cons_of_mem _ hx)
      have hkeep : ((verticalMergeFrom stats mh b' rest).map (b :: ·)).isSome ↔
          (b' :: rest).IsChain fun x y => ¬ Compared mh x y := by
        rw [Option.isSome_map]
        exact ih hrest
      have hnotBefore : ¬ (b.pageNumber < b'.pageNumber ∧ isPageMark b.text = true) := by
        rw [hb, hrest b' List.mem_cons_self]
        exact fun hlt => lt_irrefl _ hlt.1
      rw [List.isChain_cons_cons, verticalMergeFrom, if_neg hnotBefore]
      split_ifs with hblank hlayout hbelow hfew
      · refine (ih hrest).trans (and_iff_right fun hcompared => ?_).symm
        rw [hcompared.1] at hblank
        exact nomatch hblank
      · refine hkeep.trans (and_iff_right fun hcompared => ?_).symm
        exact (hlayout.resolve_left hblank) hcompared.2.1
      · exact hkeep.trans (and_iff_right fun hcompared => hcompared.2.2.1 hbelow).symm
      · refine hkeep.trans (and_iff_right fun hcompared => ?_).symm
        rw [hcompared.2.2.2] at hfew
        exact nomatch hfew
      · rw [Bool.not_eq_true] at hblank hfew
        have hcompared : Compared mh b b' :=
          ⟨hblank, not_not.mp (not_or.mp hlayout).2, hbelow, hfew⟩
        have hfeats : feats stats b b' = none := by
          rw [← Option.not_isSome_iff_eq_none, feats_isSome_iff hblank
            (hb.trans (hrest b' List.mem_cons_self).symm), hb]
          exact hnone
        rw [hfeats]
        exact iff_of_false (by cases concattingFeats b b' <;> exact Bool.false_ne_true)
          fun h => h.1 hcompared

/-- Every page has boxes, and these are its own. -/
theorem mem_byPage {entry : ℕ+ × List TextBox} (h : entry ∈ byPage bxs) :
    entry.2 ≠ [] ∧ ∀ x ∈ entry.2, x.pageNumber = entry.1 := by
  induction bxs using List.reverseRecOn generalizing entry with
  | nil => exact absurd h List.not_mem_nil
  | append_singleton bxs b ih =>
      rw [byPage, buckets, List.foldl_append] at h
      rcases Assoc.mem_set h with h | rfl
      · exact ih h
      · refine ⟨List.append_ne_nil_of_right_ne_nil _ (List.cons_ne_nil b []), fun x hx => ?_⟩
        rcases List.mem_append.mp hx with hx | hx
        · rw [bucket] at hx
          rcases hget : Assoc.get? b.pageNumber (byPage bxs) with - | boxes
          · rw [byPage, buckets] at hget
            rw [hget] at hx
            exact absurd hx List.not_mem_nil
          · have hmem := Assoc.mem_of_get? hget
            rw [byPage, buckets] at hget
            rw [hget] at hx
            exact (ih hmem).2 x hx
        · rw [List.mem_singleton.mp hx]

theorem mem_sortBoxes {x : TextBox} : x ∈ sortBoxes bxs ↔ x ∈ bxs := List.mem_mergeSort

theorem inkOf_verticalMergePage (hpages : ∀ x ∈ sortBoxes bxs, x.pageNumber = pg)
    (h : verticalMergePage stats pg bxs = some out) : inkOf out = inkOf (sortBoxes bxs) := by
  rw [verticalMergePage] at h
  cases hsort : sortBoxes bxs with
  | nil =>
      rw [hsort] at h
      obtain rfl := Option.some.inj h
      rfl
  | cons b rest =>
      rw [hsort] at h hpages
      obtain ⟨mh, -, h⟩ := Option.bind_eq_some_iff.mp h
      exact inkOf_verticalMergeFrom hpages h

theorem verticalMergePage_isSome_iff (hne : sortBoxes bxs ≠ [])
    (hpages : ∀ x ∈ sortBoxes bxs, x.pageNumber = pg) :
    (verticalMergePage stats pg bxs).isSome ↔ PageHeight stats pg bxs := by
  obtain ⟨b, rest, hsort⟩ := List.exists_cons_of_ne_nil hne
  rw [hsort] at hpages
  rw [PageHeight, verticalMergePage, hsort]
  change ((groupHeight stats pg (b :: rest)).bind fun mh =>
    verticalMergeFrom stats mh b rest).isSome ↔ _
  by_cases hcovered : Covered stats.meanHeight pg
  · refine iff_of_true ?_ (.inl hcovered)
    obtain ⟨mh, hmh⟩ : ∃ mh, groupHeight stats pg (b :: rest) = some mh := by
      rw [groupHeight]
      split_ifs with hempty
      · exact Option.isSome_iff_exists.mp (ofPage_isSome_iff.mpr hcovered)
      · exact ⟨_, rfl⟩
    rw [hmh]
    exact verticalMergeFrom_isSome hpages hcovered
  · rw [or_iff_right hcovered]
    by_cases hempty : stats.meanHeight = []
    · rw [and_iff_right hempty]
      have hheight : ∃ mh, groupHeight stats pg (b :: rest) = some mh := by
        rw [groupHeight, if_neg (not_not.mpr hempty)]
        exact ⟨_, rfl⟩
      obtain ⟨mh, hmh⟩ := hheight
      rw [hmh, Option.bind_some, verticalMergeFrom_isSome_iff hpages hcovered]
      simp
    · have hnone : groupHeight stats pg (b :: rest) = none := by
        rw [groupHeight, if_pos hempty, ← Option.not_isSome_iff_eq_none, ofPage_isSome_iff]
        exact hcovered
      rw [hnone]
      exact iff_of_false Bool.false_ne_true fun h => hempty h.1

/-- All pages. -/
theorem verticalMergePages_spec {pages : Assoc ℕ+ (List TextBox)}
    (hpages : ∀ entry ∈ pages, ∀ x ∈ sortBoxes entry.2, x.pageNumber = entry.1)
    (hne : ∀ entry ∈ pages, sortBoxes entry.2 ≠ []) :
    ((∃ out, verticalMergePages stats pages = some out ∧
        inkOf out = inkOf (pages.flatMap fun entry => sortBoxes entry.2)) ↔
      ∀ entry ∈ pages, PageHeight stats entry.1 entry.2) := by
  induction pages with
  | nil => exact iff_of_true ⟨[], rfl, rfl⟩ fun entry h => absurd h List.not_mem_nil
  | cons entry pages ih =>
      obtain ⟨pg, bxs⟩ := entry
      obtain ⟨hfirst, hrest⟩ := List.forall_mem_cons.mp hpages
      obtain ⟨hfirstNe, hrestNe⟩ := List.forall_mem_cons.mp hne
      rw [List.forall_mem_cons, ← ih hrest hrestNe, ← verticalMergePage_isSome_iff hfirstNe hfirst,
        verticalMergePages]
      constructor
      · rintro ⟨out, hout, hink⟩
        obtain ⟨merged, hmerged, hout⟩ := Option.bind_eq_some_iff.mp hout
        obtain ⟨others, hothers, hout⟩ := Option.bind_eq_some_iff.mp hout
        obtain rfl := Option.some.inj hout
        refine ⟨by rw [hmerged]; rfl, others, hothers, ?_⟩
        rw [inkOf_append, inkOf_verticalMergePage hfirst hmerged, List.flatMap_cons,
          inkOf_append] at hink
        exact List.append_cancel_left hink
      · rintro ⟨hmerged, others, hothers, hink⟩
        obtain ⟨merged, hmerged⟩ := Option.isSome_iff_exists.mp hmerged
        refine ⟨merged ++ others, by rw [hmerged, hothers]; rfl, ?_⟩
        rw [inkOf_append, inkOf_verticalMergePage hfirst hmerged, hink, List.flatMap_cons,
          inkOf_append]

end Pages

/-! ## Bullets -/

section Bullets

variable {letters : Letters} {b : TextBox} {rest bxs : List TextBox}

theorem exists_bulletMergeFrom :
    ∃ out, bulletMergeFrom letters b rest = some out ∧ inkOf out = inkOf (b :: rest) := by
  induction rest generalizing b with
  | nil => exact ⟨[b], rfl, rfl⟩
  | cons b' rest ih =>
      rw [bulletMergeFrom]
      split_ifs with hblank hblank'
      · obtain ⟨out, hout, hink⟩ := ih (b := b')
        exact ⟨out, hout, by rw [hink, inkOf_cons_of_isBlank hblank]⟩
      · obtain ⟨out, hout, hink⟩ := ih (b := b)
        exact ⟨out, hout, by rw [hink, inkOf_cons, inkOf_cons, inkOf_cons_of_isBlank hblank']⟩
      · rw [Bool.not_eq_true] at hblank hblank'
        rw [List.head?_eq_some_head (strip_ne_nil hblank),
          List.head?_eq_some_head (strip_ne_nil hblank')]
        dsimp only
        split_ifs with hother
        · obtain ⟨out, hout, hink⟩ := ih (b := b')
          refine ⟨b :: out, by rw [hout]; rfl, ?_⟩
          rw [inkOf_cons, hink, ← inkOf_cons]
        · obtain ⟨out, hout, hink⟩ := ih (b := { b' with
            text := b.text ++ '\n' :: b'.text, x0 := min b.x0 b'.x0, x1 := max b.x1 b'.x1,
            top := b.top })
          refine ⟨out, hout, ?_⟩
          rw [hink, inkOf_cons, inkOf_cons, inkOf_cons, List.filter_append,
            List.filter_cons_of_neg (by decide), List.append_assoc]

end Bullets

/-- The texts are kept exactly where no height is missing. -/
theorem keepsText_iff (stats : PageStats) (letters : Letters) (bxs : List TextBox) :
    KeepsText stats letters bxs ↔ LineHeights stats bxs ∧ PageHeights stats bxs := by
  have hlines : (∃ out, textMerge stats bxs = some out ∧
      out.flatMap TextBox.text = bxs.flatMap TextBox.text) ↔ LineHeights stats bxs := by
    cases bxs with
    | nil => exact iff_of_true ⟨[], rfl, rfl⟩ List.isChain_nil
    | cons b rest =>
        rw [← textMergeFrom_isSome_iff, Option.isSome_iff_exists]
        exact exists_congr fun out => and_iff_left_of_imp flatMap_text_textMergeFrom
  have hpages : (∃ out, naiveVerticalMerge stats bxs = some out ∧
      inkOf out = inkOf (processingOrder bxs)) ↔ PageHeights stats bxs := by
    refine verticalMergePages_spec (fun entry hentry x hx => ?_) fun entry hentry hnil => ?_
    · exact (mem_byPage hentry).2 x (mem_sortBoxes.mp hx)
    · refine (mem_byPage hentry).1 (List.eq_nil_iff_forall_not_mem.mpr fun x hx => ?_)
      rw [← mem_sortBoxes, hnil] at hx
      exact absurd hx List.not_mem_nil
  have hbullets : ∃ out, mergeWithSameBullet letters bxs = some out ∧ inkOf out = inkOf bxs := by
    cases bxs with
    | nil => exact ⟨[], rfl, rfl⟩
    | cons b rest => exact exists_bulletMergeFrom
  constructor
  · rintro ⟨htext, hvertical, -⟩
    exact ⟨hlines.mp htext, hpages.mp hvertical⟩
  · rintro ⟨htext, hvertical⟩
    exact ⟨hlines.mpr htext, hpages.mpr hvertical, hbullets⟩

/-- Texts without Chinese letters. -/
def latinLetters : Letters where
  isChinese _ := false
  lower c := [c.toLower]

def firstPage : ℕ+ := ⟨1, Nat.one_pos⟩

/-- Two lines of a page, one close below the other. -/
def twoLines : List TextBox :=
  [⟨firstPage, 0, 100, 0, 10, "first line".toList, none, none⟩,
    ⟨firstPage, 0, 100, 12, 22, "second line".toList, none, none⟩]

/-- Without heights the median takes their place, and then they are asked all the same. -/
theorem not_keepsText_twoLines : ¬ KeepsText ⟨[], [], false⟩ latinLetters twoLines := by
  rintro ⟨-, ⟨out, hout, -⟩, -⟩
  have hsort : sortBoxes twoLines = twoLines := List.mergeSort_of_pairwise (by decide +kernel)
  have hmedian : median [10, 10] = 10 := by
    rw [median, List.mergeSort_of_pairwise (by decide +kernel)]
    decide +kernel
  have hheight : groupHeight ⟨[], [], false⟩ 1 twoLines = some 10 := by
    have hheights : twoLines.map (fun b => b.bottom - b.top) = [10, 10] := by decide +kernel
    rw [groupHeight, if_neg (by decide), hheights, hmedian]
    decide +kernel
  have hpage : verticalMergePage ⟨[], [], false⟩ 1 twoLines = none := by
    rw [verticalMergePage, hsort]
    change (groupHeight _ 1 twoLines).bind _ = none
    rw [hheight]
    decide +kernel
  have hnone : naiveVerticalMerge ⟨[], [], false⟩ twoLines = none := by
    change (verticalMergePage _ 1 twoLines).bind _ = none
    rw [hpage]
    rfl
  rw [hnone] at hout
  exact nomatch hout

end RagflowMineru.Deepdoc
