import RagflowMineru.Deepdoc.PositionTags
import RagflowMineru.Deepdoc.TextMerge
import Mathlib.Algebra.Order.BigOperators.Group.List
import Mathlib.Algebra.Order.Group.MinMax

/-!
# The places of a box on the pages

A box may go on over the ends of pages.  Its place is written into a tag, with the pages and with
where it ends on the last of them, and read again when the box is cut out of the images of the
pages; or the pages are gone through directly.  Both come to the same rectangles, but the tag has
one decimal only: the upper edge may be rounded over the end of its page, and then nothing can be
cut out.  Numbers are exact here.
-/

namespace RagflowMineru.Deepdoc

open Library Library.Binary64 Nlp

/-! ## Pages -/

/-- The pages that were read, each with the height of its image in pixels, of which there are `zm`
to a unit. -/
structure PageImages where
  heights : List ℕ+
  pageFrom : ℕ
  zm : ℕ+

/-- A rectangle on a page. -/
structure PageRect where
  page : ℤ
  left : ℚ
  right : ℚ
  top : ℚ
  bottom : ℚ

/-- What is cut out of an image, in pixels. -/
structure Area where
  left : ℚ
  upper : ℚ
  right : ℚ
  lower : ℚ

/-- A position on pages that there are; behind the first page there may be others. -/
structure CropPos where
  first : ℕ
  others : List ℕ
  left : ℚ
  right : ℚ
  top : ℚ
  bottom : ℚ

/-- The built-in `float` on texts of digits and dots, with an exact result. -/
def exactFloat (t : Nlp.Text) : Option ℚ :=
  match t.splitOn '.' with
  | [whole] => if whole = [] then none else some (Nat.ofDigitChars 10 whole 0)
  | [whole, frac] =>
      if whole ++ frac = [] then none
      else some (Nat.ofDigitChars 10 (whole ++ frac) 0 / 10 ^ frac.length)
  | _ => none

/-- `{:.1f}` -/
def formatTenths (x : ℚ) : Nlp.Text := (if x < 0 then ['-'] else []) ++ oneDecimal |x|

def allPages : Pages → List ℤ
  | .one page => [page]
  | .many pages => pages

namespace PageImages

variable (doc : PageImages)

/-- An entry of `page_cum_height`: the heights of the pages before, in units. -/
def cumHeight (i : ℕ) : ℚ := ((doc.heights.take i).map fun height : ℕ+ => (height : ℚ) / doc.zm).sum

/-- `self.page_cum_height[page - 1]`, with `none` for an `IndexError`; there is one entry more than
there are pages. -/
def pageCumHeight (page : ℕ+) : Option ℚ :=
  if page.natPred ≤ doc.heights.length then some (doc.cumHeight page.natPred) else none

/-! ## Writing a tag -/

/-- The loop of `_line_tag`, from a page on: the pages, and where the box ends on the last; `none`
if there are not so many pages. -/
def tagPages (pn : ℕ) (bott : ℚ) : List ℕ+ → Option (List ℕ × ℚ)
  | [] => none
  | height :: rest =>
      if bott * doc.zm > height then
        (tagPages (pn + 1) (bott - height / doc.zm) rest).map fun t => (pn :: t.1, t.2)
      else some ([pn], bott)

/-- `_line_tag` -/
def lineTag (bx : TextBox) : Option Nlp.Text :=
  (doc.pageCumHeight bx.pageNumber).map fun cum =>
    match doc.tagPages bx.pageNumber (bx.bottom - cum) (doc.heights.drop bx.pageNumber.natPred) with
    | none => []
    | some (pn, bott) =>
        "@@".toList ++ ['-'].intercalate (pn.map (Nat.toDigits 10)) ++
          '\t' :: ['\t'].intercalate ([bx.x0, bx.x1, bx.top - cum, bott].map formatTenths) ++
          "##".toList

/-! ## Cutting out -/

section Crop

variable {α : Type} (cut : ℕ → Area → Option α)

/-- The body of the loop that fills `filtered_poss`. -/
def validPos (pos : Position ℚ) : Option CropPos :=
  let validPns := (allPages pos.page).filter fun p : ℤ => 0 ≤ p ∧ p < (doc.heights.length : ℤ)
  match validPns.map Int.toNat with
  | [] => none
  | pn :: pns => some ⟨pn, pns, pos.left, pos.right, pos.top, pos.bottom⟩

/-- What the loop `for pn in pns[1:]` adds to `bottom`. -/
def heightBefore (pns : List ℕ) : ℚ :=
  (pns.map fun pn =>
    if 0 < pn then doc.heights[pn - 1]?.elim (0 : ℚ) fun height : ℕ+ => height else 0).sum

/-- The second loop `for pn in pns[1:]`; `cut` is `crop` of a page's image, and `none` an error. -/
def cutOthers (left right : ℚ) : ℚ → List ℕ → Option (List α × List PageRect)
  | _, [] => some ([], [])
  | bottom, pn :: pns =>
      match doc.heights[pn]? with
      | none => cutOthers left right bottom pns
      | some height => do
          let img ← cut pn ⟨left * doc.zm, 0, right * doc.zm, min bottom height⟩
          let (imgs, positions) ← cutOthers left right (bottom - height) pns
          return (img :: imgs, ⟨pn + doc.pageFrom, left, right, 0, min bottom height / doc.zm⟩ ::
            positions)

/-- The body of the loop over `poss`. -/
def cutPos (pos : CropPos) : Option (List α × List PageRect) :=
  match doc.heights[pos.first]? with
  | none => some ([], [])
  | some height => do
      let bottom := pos.bottom * doc.zm + doc.heightBefore pos.others
      let img ← cut pos.first
        ⟨pos.left * doc.zm, pos.top * doc.zm, pos.right * doc.zm, min bottom height⟩
      let (imgs, positions) ← doc.cutOthers cut pos.left pos.right (bottom - height) pos.others
      return (img :: imgs, ⟨pos.first + doc.pageFrom, pos.left, pos.right, pos.top,
        min bottom height / doc.zm⟩ :: positions)

/-- `crop` with positions, as the images that the picture is made of; `some none` is what is
returned when there is nothing to cut out. -/
def crop (text : Nlp.Text) : Option (Option (List α × List PageRect)) := do
  let poss ← extractPositions exactFloat text
  -- without positions or without pages, nothing is valid either
  match poss.filterMap doc.validPos with
  | [] => return none
  | first :: rest =>
      let last := (first :: rest).getLast (List.cons_ne_nil first rest)
      let lastPage := (last.first :: last.others).getLast (List.cons_ne_nil last.first last.others)
      match doc.heights[lastPage]? with
      | none => return none
      | some lastHeight => do
          let maxWidth := ((first :: rest).map fun pos => pos.right - pos.left).foldl max 6
          let pageEnd := (lastHeight : ℚ) / doc.zm
          let above ← doc.cutPos cut
            ⟨first.first, [], first.left, first.left + maxWidth, max 0 (first.top - 120),
              max (first.top - 6) 0⟩
          let parts ← (first :: rest).mapM fun pos =>
            doc.cutPos cut { pos with right := max (pos.left + 10) pos.right }
          let below ← doc.cutPos cut
            ⟨lastPage, [], last.left, last.left + maxWidth, min pageEnd (last.bottom + 6),
              min pageEnd (last.bottom + 120)⟩
          return some (above.1 ++ parts.flatMap Prod.fst ++ below.1, parts.flatMap Prod.snd)

end Crop

/-! ## Going through the pages -/

/-- The loop of `get_position`, from a page on; `none` is an `IndexError`. -/
def positionFrom (x0 x1 : ℚ) (pn : ℕ) (top bott : ℚ) : List ℕ+ → Option (List PageRect)
  | [] => none
  | height :: rest =>
      if bott * doc.zm > height then
        (positionFrom x0 x1 (pn + 1) 0 (bott - height / doc.zm) rest).map
          (⟨pn, x0, x1, top, min bott (height / doc.zm)⟩ :: ·)
      else some [⟨pn, x0, x1, top, min bott (height / doc.zm)⟩]

def getPosition (bx : TextBox) : Option (List PageRect) :=
  (doc.pageCumHeight bx.pageNumber).bind fun cum =>
    doc.positionFrom bx.x0 bx.x1 bx.pageNumber (bx.top - cum) (bx.bottom - cum)
      (doc.heights.drop bx.pageNumber.natPred)

end PageImages

/-! ## Agreement -/

/-- A number rounded to one decimal. -/
def toTenths (x : ℚ) : ℚ := roundHalfEven (10 * x) / 10

/-- Up to half of a tenth. -/
def NearTenths (x y : ℚ) : Prop := |x - y| ≤ 1 / 20

/-- Pages are counted from one by the rectangle, and from `pageFrom` by the position. -/
structure PageRect.Rounds (pageFrom : ℕ) (position rect : PageRect) : Prop where
  page : position.page = rect.page - 1 + pageFrom
  left : NearTenths position.left rect.left
  right : NearTenths position.right rect.right
  top : NearTenths position.top rect.top
  bottom : NearTenths position.bottom rect.bottom

/-- How an image library cuts: an area is refused if and only if its edges are the wrong way
round. -/
def CutsOrdered {α : Type} (cut : ℕ → Area → Option α) : Prop :=
  ∀ pn area, (cut pn area).isSome ↔ area.left ≤ area.right ∧ area.upper ≤ area.lower

namespace PageImages

variable (doc : PageImages)

/-- Where the page of the box begins. -/
def pageTop (bx : TextBox) : ℚ := doc.cumHeight bx.pageNumber.natPred

/-- The box begins on its page, and ends on a page that was read. -/
structure OnPages (bx : TextBox) : Prop where
  page : bx.pageNumber ≤ doc.heights.length
  left : 0 ≤ bx.x0
  width : bx.x0 + 10 ≤ bx.x1
  top : doc.pageTop bx ≤ bx.top
  ordered : bx.top ≤ bx.bottom
  bottom : bx.bottom ≤ doc.cumHeight doc.heights.length

/-- The positions that are read from the tag of the box are its rectangles. -/
def Agrees {α : Type} (cut : ℕ → Area → Option α) (bx : TextBox) : Prop :=
  ∃ tag imgs positions rects, doc.lineTag bx = some tag ∧
    doc.crop cut tag = some (some (imgs, positions)) ∧ doc.getPosition bx = some rects ∧
    List.Forall₂ (PageRect.Rounds doc.pageFrom) positions rects

/-- Rounded to one decimal, the upper edge is still on the page, with an image of this height. -/
def TopOnPage (bx : TextBox) : Prop :=
  ∃ height ∈ doc.heights[bx.pageNumber.natPred]?,
    toTenths (bx.top - doc.pageTop bx) * doc.zm ≤ height

end PageImages

/-! ## Numbers -/

section Tenths

variable {x y : ℚ} {c : Char}

theorem near_toTenths (x : ℚ) : NearTenths (toTenths x) x := by
  have h := abs_le.mp (abs_roundHalfEven_sub_le (10 * x))
  rw [NearTenths, abs_le, toTenths]
  constructor <;> linarith [h.1, h.2]

theorem toTenths_nonneg (hx : 0 ≤ x) : 0 ≤ toTenths x := by
  obtain ⟨n, hn⟩ := exists_roundHalfEven_eq hx
  rw [toTenths, hn]
  positivity

theorem toTenths_mono (h : x ≤ y) : toTenths x ≤ toTenths y := by
  have hmono : roundHalfEven (10 * x) ≤ roundHalfEven (10 * y) := roundHalfEven_mono (by linarith)
  rw [toTenths, toTenths]
  gcongr

/-- Moving an edge to the right where the box became too narrow stays within the rounding. -/
theorem near_max_toTenths (h : x + 10 ≤ y) : NearTenths (max (toTenths x + 10) (toTenths y)) y := by
  have hx := abs_le.mp (near_toTenths x)
  have hy := abs_le.mp (near_toTenths y)
  rw [NearTenths, abs_le]
  rcases max_cases (toTenths x + 10) (toTenths y) with ⟨hmax, hle⟩ | ⟨hmax, -⟩
  · rw [hmax]
    constructor <;> linarith [hx.1, hx.2, hy.1, hy.2]
  · rw [hmax]
    exact hy

theorem near_min {z : ℚ} (h : NearTenths x y) : NearTenths (min x z) (min y z) :=
  (abs_min_sub_min_le_max x z y z).trans (by simpa [NearTenths] using h)

theorem formatTenths_of_nonneg (hx : 0 ≤ x) : formatTenths x = oneDecimal x := by
  rw [formatTenths, if_neg hx.not_gt, abs_of_nonneg hx, List.nil_append]

theorem exactFloat_formatTenths (hx : 0 ≤ x) : exactFloat (formatTenths x) = some (toTenths x) := by
  obtain ⟨n, hn⟩ := exists_roundHalfEven_eq hx
  rw [formatTenths_of_nonneg hx, exactFloat, splitOn_oneDecimal hn]
  dsimp only
  rw [if_neg (toDigits_append_ne_nil _ _), ofDigitChars_tenths, length_toDigits_mod_ten, toTenths,
    hn, pow_one, Int.cast_natCast]

theorem isCoordChar_of_mem_formatTenths (hx : 0 ≤ x) (hc : c ∈ formatTenths x) :
    isCoordChar c = true ∧ c ≠ '\t' := by
  rw [formatTenths_of_nonneg hx] at hc
  rcases mem_oneDecimal hc with hc | rfl
  · refine ⟨by simp [isCoordChar, hc], ?_⟩
    rintro rfl
    exact absurd hc (by decide)
  · exact ⟨rfl, by decide⟩

end Tenths

/-! ## The pages of a box -/

section Spans

/-- From the first of the pages on, a box of length `bott` takes up the pages of `front` and then
ends on the next one, of height `last`, at `final`. -/
inductive Spans (zm : ℕ+) : List ℕ+ → ℚ → List ℕ+ → ℕ+ → ℚ → Prop
  | here {last : ℕ+} {others : List ℕ+} {bott : ℚ} (h : ¬ bott * zm > last) :
      Spans zm (last :: others) bott [] last bott
  | on {height last : ℕ+} {rest front : List ℕ+} {bott final : ℚ} (h : bott * zm > height)
      (hrest : Spans zm rest (bott - height / zm) front last final) :
      Spans zm (height :: rest) bott (height :: front) last final

variable {zm : ℕ+} {heights front : List ℕ+} {last : ℕ+} {bott final : ℚ}

theorem exists_spans (hne : heights ≠ [])
    (h : bott ≤ (heights.map fun height : ℕ+ => (height : ℚ) / zm).sum) :
    ∃ front last final, Spans zm heights bott front last final := by
  induction heights generalizing bott with
  | nil => exact absurd rfl hne
  | cons height rest ih =>
      have hzm : (0 : ℚ) < zm := Nat.cast_pos.mpr zm.pos
      by_cases hon : bott * zm > height
      · rw [List.map_cons, List.sum_cons] at h
        have hlt : (height : ℚ) / zm < bott := by rwa [div_lt_iff₀ hzm]
        have hrest : rest ≠ [] := by
          rintro rfl
          simp only [List.map_nil, List.sum_nil, add_zero] at h
          linarith
        have hbehind : bott - height / zm ≤
            (rest.map fun height : ℕ+ => (height : ℚ) / zm).sum := by linarith
        obtain ⟨front, last, final, hspans⟩ := ih hrest hbehind
        exact ⟨height :: front, last, final, .on hon hspans⟩
      · exact ⟨[], height, bott, .here hon⟩

theorem Spans.eq_append (h : Spans zm heights bott front last final) :
    ∃ others, heights = front ++ last :: others := by
  induction h with
  | here => exact ⟨_, rfl⟩
  | on _ _ ih =>
      obtain ⟨others, rfl⟩ := ih
      exact ⟨others, rfl⟩

theorem Spans.final_eq (h : Spans zm heights bott [] last final) : final = bott := by
  cases h with
  | here => rfl

theorem Spans.final_nonneg (h : Spans zm heights bott front last final) (hbott : 0 ≤ bott) :
    0 ≤ final := by
  have hzm : (0 : ℚ) < zm := Nat.cast_pos.mpr zm.pos
  induction h with
  | here => exact hbott
  | @on height _ _ _ bott _ hon _ ih =>
      have hlt : (height : ℚ) / zm < bott := by rwa [div_lt_iff₀ hzm]
      exact ih (by linarith)

/-- The rectangles of a box on the pages of `front` and the next one, where it ends at `final`. -/
def rects (zm : ℕ+) (left right final : ℚ) (last : ℕ+) : ℤ → ℚ → List ℕ+ → List PageRect
  | page, top, [] => [⟨page, left, right, top, min final (last / zm)⟩]
  | page, top, height :: front =>
      ⟨page, left, right, top, height / zm⟩ :: rects zm left right final last (page + 1) 0 front

/-- Only the edges of the box decide how near the rectangles are. -/
theorem forall₂_rounds {pageFrom : ℕ} {left right left' right' final' top top' : ℚ}
    {page page' : ℤ} (hpage : page = page' - 1 + pageFrom) (hleft : NearTenths left left')
    (hright : NearTenths right right') (htop : NearTenths top top')
    (hfinal : NearTenths final final') :
    List.Forall₂ (PageRect.Rounds pageFrom) (rects zm left right final last page top front)
      (rects zm left' right' final' last page' top' front) := by
  induction front generalizing page page' top top' with
  | nil => exact .cons ⟨hpage, hleft, hright, htop, near_min hfinal⟩ .nil
  | cons height front ih =>
      refine .cons ⟨hpage, hleft, hright, htop, by simp [NearTenths]⟩ (ih ?_ (by simp [NearTenths]))
      rw [hpage]
      ring

end Spans

namespace PageImages

variable {doc : PageImages} {bx : TextBox}

/-! ## What is written -/

section Writing

variable {front heights : List ℕ+} {last : ℕ+} {bott final : ℚ}

theorem tagPages_of_spans (h : Spans doc.zm heights bott front last final) (pn : ℕ) :
    doc.tagPages pn bott heights = some (List.range' pn (front.length + 1), final) := by
  induction h generalizing pn with
  | here h => rw [tagPages, if_neg h]; rfl
  | on h _ ih =>
      rw [tagPages, if_pos h, ih, Option.map_some, List.length_cons, List.range'_succ (n := _ + 1)]

theorem positionFrom_of_spans (h : Spans doc.zm heights bott front last final) (x0 x1 top : ℚ)
    (pn : ℕ) :
    doc.positionFrom x0 x1 pn top bott heights =
      some (rects doc.zm x0 x1 final last pn top front) := by
  have hzm : (0 : ℚ) < doc.zm := Nat.cast_pos.mpr doc.zm.pos
  induction h generalizing pn top with
  | here h => rw [positionFrom, if_neg h]; rfl
  | @on height _ _ _ bott _ h _ ih =>
      have hmin : min bott (height / doc.zm) = height / doc.zm := by
        rw [min_eq_right_iff, div_le_iff₀ hzm]
        exact h.le
      rw [positionFrom, if_pos h, ih, hmin]
      simp [rects]

end Writing

/-! ## What is read -/

section Reading

variable {coords : List ℚ} {pns : List ℕ}

theorem readPages_intercalate (hne : pns ≠ []) :
    readPages (['-'].intercalate (pns.map (Nat.toDigits 10))) =
      some (pns.map fun pn : ℕ => (pn : ℤ) - 1) := by
  have hsplit : (['-'].intercalate (pns.map (Nat.toDigits 10))).splitOn '-' =
      pns.map (Nat.toDigits 10) := by
    refine List.splitOn_intercalate '-' ?_ (by simpa using hne)
    rintro l hl
    obtain ⟨pn, -, rfl⟩ := List.mem_map.mp hl
    exact notMem_toDigits (by decide)
  rw [readPages, hsplit, List.mapM_map]
  refine mapM_eq_some_map fun pn _ => ?_
  rw [Function.comp_apply, if_neg Nat.toDigits_ne_nil, Nat.ofDigitChars_ten_toDigits]

theorem splitOn_coords (hne : coords ≠ []) (hcoords : ∀ x ∈ coords, 0 ≤ x) :
    (['\t'].intercalate (coords.map formatTenths)).splitOn '\t' = coords.map formatTenths := by
  refine List.splitOn_intercalate '\t' ?_ (by simpa using hne)
  rintro l hl hmem
  obtain ⟨x, hx, rfl⟩ := List.mem_map.mp hl
  exact (isCoordChar_of_mem_formatTenths (hcoords x hx) hmem).2 rfl

theorem mem_intercalate {c sep : Char} {ls : List Nlp.Text} (h : c ∈ [sep].intercalate ls) :
    c = sep ∨ ∃ l ∈ ls, c ∈ l := by
  induction ls with
  | nil => cases h
  | cons l ls ih =>
      rcases ls with _ | ⟨l', ls⟩
      · exact Or.inr ⟨l, List.mem_cons_self, by simpa using h⟩
      · rw [List.intercalate_cons_cons, List.mem_append, List.mem_append] at h
        rcases h with (h | h) | h
        · exact Or.inr ⟨l, List.mem_cons_self, h⟩
        · exact Or.inl (List.mem_singleton.mp h)
        · rcases ih h with h | ⟨l'', hl, h⟩
          · exact Or.inl h
          · exact Or.inr ⟨l'', List.mem_cons_of_mem l hl, h⟩

theorem isPageChar_of_mem_intercalate {c : Char}
    (h : c ∈ ['-'].intercalate (pns.map (Nat.toDigits 10))) : isPageChar c = true := by
  rcases mem_intercalate h with rfl | ⟨l, hl, hc⟩
  · rfl
  · obtain ⟨pn, -, rfl⟩ := List.mem_map.mp hl
    rw [isPageChar, isDigit_of_mem_toDigits hc, Bool.true_or]

theorem isCoordChar_of_mem_intercalate {c : Char} (hcoords : ∀ x ∈ coords, 0 ≤ x)
    (h : c ∈ ['\t'].intercalate (coords.map formatTenths)) : isCoordChar c = true := by
  rcases mem_intercalate h with rfl | ⟨l, hl, hc⟩
  · rfl
  · obtain ⟨x, hx, rfl⟩ := List.mem_map.mp hl
    exact (isCoordChar_of_mem_formatTenths (hcoords x hx) hc).1

/-- A tag with coordinates of at least zero is read as it was written, with one decimal. -/
theorem extractPositions_tag {left right top bottom : ℚ} (hne : pns ≠ []) (hleft : 0 ≤ left)
    (hright : 0 ≤ right) (htop : 0 ≤ top) (hbottom : 0 ≤ bottom) :
    extractPositions exactFloat ("@@".toList ++ ['-'].intercalate (pns.map (Nat.toDigits 10)) ++
        '\t' :: ['\t'].intercalate ([left, right, top, bottom].map formatTenths) ++ "##".toList) =
      some [⟨.many (pns.map fun pn : ℕ => (pn : ℤ) - 1), toTenths left, toTenths right,
        toTenths top, toTenths bottom⟩] := by
  have hcoords : ∀ x ∈ [left, right, top, bottom], 0 ≤ x := by
    simpa using ⟨hleft, hright, htop, hbottom⟩
  have hpages : ['-'].intercalate (pns.map (Nat.toDigits 10)) ≠ [] := by
    obtain ⟨pn, pns, rfl⟩ := List.exists_cons_of_ne_nil hne
    rcases pns with _ | ⟨pn', pns⟩ <;> simp
  have htags := @tagsOf_tag_append [] _ (['\t'].intercalate ([left, right, top, bottom].map
    formatTenths)) hpages (by simp) (fun c => isPageChar_of_mem_intercalate)
    (fun c => isCoordChar_of_mem_intercalate hcoords)
  rw [List.append_nil] at htags
  have hread : readPosition exactFloat (['-'].intercalate (pns.map (Nat.toDigits 10)),
      ['\t'].intercalate ([left, right, top, bottom].map formatTenths)) =
      some ⟨.many (pns.map fun pn : ℕ => (pn : ℤ) - 1), toTenths left, toTenths right,
        toTenths top, toTenths bottom⟩ := by
    have hsplit := splitOn_coords (by simp) hcoords
    simp only [List.map_cons, List.map_nil] at hsplit
    simp only [readPosition, List.map_cons, List.map_nil, hsplit, readPages_intercalate hne,
      exactFloat_formatTenths hleft, exactFloat_formatTenths hright, exactFloat_formatTenths htop,
      exactFloat_formatTenths hbottom]
    rfl
  rw [extractPositions_eq, htags]
  exact mapM_eq_some_map (g := fun _ => _) (List.forall_mem_singleton.mpr hread)

end Reading

/-! ## What is cut out -/

section Cutting

variable {α : Type} {cut : ℕ → Area → Option α} {heights front others : List ℕ+} {last : ℕ+}
  {left right top bottom final : ℚ} {s pn : ℕ}

theorem validPos_range' (hle : s + front.length < doc.heights.length) :
    doc.validPos ⟨.many ((List.range' (s + 1) (front.length + 1)).map fun pn : ℕ => (pn : ℤ) - 1),
      left, right, top, bottom⟩ =
      some ⟨s, List.range' (s + 1) front.length, left, right, top, bottom⟩ := by
  have hpages : ((List.range' (s + 1) (front.length + 1)).map fun pn : ℕ => (pn : ℤ) - 1) =
      (List.range' s (front.length + 1)).map fun pn : ℕ => (pn : ℤ) := by
    rw [List.range'_succ_left, List.map_map]
    exact List.map_congr_left fun pn _ => by simp
  have hall : ((List.range' s (front.length + 1)).map fun pn : ℕ => (pn : ℤ)).filter
      (fun p : ℤ => 0 ≤ p ∧ p < (doc.heights.length : ℤ)) =
        (List.range' s (front.length + 1)).map fun pn : ℕ => (pn : ℤ) := by
    rw [List.filter_eq_self]
    intro p hp
    obtain ⟨pn, hpn, rfl⟩ := List.mem_map.mp hp
    rw [List.mem_range'_1] at hpn
    simp only [decide_eq_true_eq]
    omega
  have hback : (List.range' s (front.length + 1)).map (Int.toNat ∘ fun pn : ℕ => (pn : ℤ)) =
      s :: List.range' (s + 1) front.length := by
    simp [Function.comp_def, List.range'_succ]
  rw [validPos, allPages, hpages, hall, List.map_map, hback]

theorem getElem?_of_drop {height : ℕ+} {rest : List ℕ+} (h : heights.drop s = height :: rest) :
    heights[s]? = some height := by
  rw [← List.head?_drop, h, List.head?_cons]

theorem drop_succ_of_drop {height : ℕ+} {rest : List ℕ+} (h : heights.drop s = height :: rest) :
    heights.drop (s + 1) = rest := by
  rw [← List.drop_drop, h]
  rfl

theorem heightBefore_range' (h : doc.heights.drop s = front ++ last :: others) :
    doc.heightBefore (List.range' (s + 1) front.length) =
      (front.map fun height : ℕ+ => (height : ℚ)).sum := by
  induction front generalizing s with
  | nil => rfl
  | cons height front ih =>
      have hhere : doc.heights[s]? = some height := getElem?_of_drop h
      have hrest := ih (drop_succ_of_drop h)
      rw [heightBefore] at hrest ⊢
      simp only [List.length_cons, List.range'_succ, List.map_cons, List.sum_cons, hrest,
        Nat.succ_pos, if_true, Nat.add_sub_cancel, hhere]
      rfl

theorem min_div_zm (x y : ℚ) (zm : ℕ+) : min (x * zm) y / zm = min x (y / zm) := by
  have hzm : (0 : ℚ) < zm := Nat.cast_pos.mpr zm.pos
  rw [← min_div_div_right hzm.le, mul_div_cancel_right₀ x hzm.ne']

/-- An area in order is cut out. -/
theorem exists_cut (hcut : CutsOrdered cut) {area : Area} (hwidth : area.left ≤ area.right)
    (hheight : area.upper ≤ area.lower) (pn : ℕ) : ∃ img, cut pn area = some img :=
  Option.isSome_iff_exists.mp ((hcut pn area).mpr ⟨hwidth, hheight⟩)

theorem sum_heights_nonneg (front : List ℕ+) :
    0 ≤ (front.map fun height : ℕ+ => (height : ℚ)).sum := by
  refine List.sum_nonneg fun x hx => ?_
  obtain ⟨height, -, rfl⟩ := List.mem_map.mp hx
  exact Nat.cast_nonneg _

theorem mul_zm_le (h : left ≤ right) (zm : ℕ+) : left * zm ≤ right * zm := by
  gcongr

/-- Behind the first page all is cut out from the top. -/
theorem cutOthers_range' (hcut : CutsOrdered cut)
    (h : doc.heights.drop s = front ++ last :: others) (hwidth : left ≤ right)
    (hfinal : 0 ≤ final) :
    ∃ imgs, doc.cutOthers cut left right
        (final * doc.zm + (front.map fun height : ℕ+ => (height : ℚ)).sum)
        (List.range' s (front.length + 1)) =
      some (imgs, rects doc.zm left right final last (s + doc.pageFrom) 0 front) := by
  have hpixels : 0 ≤ final * doc.zm := by positivity
  induction front generalizing s with
  | nil =>
      have hhere : doc.heights[s]? = some last := getElem?_of_drop h
      obtain ⟨img, himg⟩ := @exists_cut _ _ hcut
        ⟨left * doc.zm, 0, right * doc.zm, min (final * doc.zm) last⟩ (mul_zm_le hwidth doc.zm)
        (le_min hpixels (Nat.cast_nonneg _)) s
      refine ⟨[img], ?_⟩
      rw [List.map_nil, List.sum_nil, add_zero, List.length_nil, zero_add, List.range'_one,
        cutOthers, hhere]
      simp [himg, cutOthers, rects, min_div_zm]
  | cons height front ih =>
      have hhere : doc.heights[s]? = some height := getElem?_of_drop h
      have hsum := sum_heights_nonneg front
      have hmin : min (final * doc.zm +
          (height + (front.map fun height : ℕ+ => (height : ℚ)).sum)) (height : ℚ) = height := by
        rw [min_eq_right_iff]
        linarith
      obtain ⟨img, himg⟩ := @exists_cut _ _ hcut
        ⟨left * doc.zm, 0, right * doc.zm, height⟩ (mul_zm_le hwidth doc.zm) (Nat.cast_nonneg _) s
      obtain ⟨imgs, himgs⟩ := ih (drop_succ_of_drop h)
      refine ⟨img :: imgs, ?_⟩
      have hrest : final * doc.zm + (height + (front.map fun height : ℕ+ => (height : ℚ)).sum) -
          height = final * doc.zm + (front.map fun height : ℕ+ => (height : ℚ)).sum := by ring
      rw [List.length_cons, List.range'_succ, cutOthers, hhere]
      simp only [List.map_cons, List.sum_cons, hmin, himg, hrest, himgs]
      simp [rects, add_right_comm]

/-- A part of a page is cut out. -/
theorem exists_cutPos (hcut : CutsOrdered cut) {height : ℕ+}
    (hheight : doc.heights[pn]? = some height) (hwidth : left ≤ right) (hordered : top ≤ bottom)
    (htop : top * doc.zm ≤ height) :
    ∃ out, doc.cutPos cut ⟨pn, [], left, right, top, bottom⟩ = some out := by
  obtain ⟨img, himg⟩ := @exists_cut _ _ hcut
    ⟨left * doc.zm, top * doc.zm, right * doc.zm, min (bottom * doc.zm) height⟩
    (mul_zm_le hwidth doc.zm) (le_min (mul_zm_le hordered doc.zm) htop) pn
  rw [cutPos, hheight]
  simp [heightBefore, himg, cutOthers]

theorem cutPos_range' (hcut : CutsOrdered cut)
    (h : doc.heights.drop s = front ++ last :: others) {height : ℕ+}
    (hheight : doc.heights[s]? = some height) (hwidth : left ≤ right) (hfinal : 0 ≤ final)
    (hordered : front = [] → top ≤ final) (htop : top * doc.zm ≤ height) :
    ∃ imgs, doc.cutPos cut ⟨s, List.range' (s + 1) front.length, left, right, top, final⟩ =
      some (imgs, rects doc.zm left right final last (s + doc.pageFrom) top front) := by
  rcases front with _ | ⟨height', front⟩
  · have hlast : doc.heights[s]? = some last := getElem?_of_drop h
    obtain rfl : last = height := Option.some.inj (hlast.symm.trans hheight)
    obtain ⟨img, himg⟩ := @exists_cut _ _ hcut
      ⟨left * doc.zm, top * doc.zm, right * doc.zm, min (final * doc.zm) last⟩
      (mul_zm_le hwidth doc.zm) (le_min (mul_zm_le (hordered rfl) doc.zm) htop) s
    refine ⟨[img], ?_⟩
    rw [cutPos, hheight]
    simp [heightBefore, himg, cutOthers, rects, min_div_zm]
  · have hfirst : doc.heights[s]? = some height' := getElem?_of_drop h
    obtain rfl : height' = height := Option.some.inj (hfirst.symm.trans hheight)
    obtain ⟨img, himg⟩ := @exists_cut _ _ hcut
      ⟨left * doc.zm, top * doc.zm, right * doc.zm, height'⟩ (mul_zm_le hwidth doc.zm) htop s
    obtain ⟨imgs, himgs⟩ := cutOthers_range' hcut (drop_succ_of_drop h) hwidth hfinal
    have hsum := sum_heights_nonneg front
    have hpixels : 0 ≤ final * doc.zm := by positivity
    have hbefore : doc.heightBefore (List.range' (s + 1) (height' :: front).length) =
        height' + (front.map fun height : ℕ+ => (height : ℚ)).sum := heightBefore_range' h
    have hmin : min (final * doc.zm +
        (height' + (front.map fun height : ℕ+ => (height : ℚ)).sum)) (height' : ℚ) = height' := by
      rw [min_eq_right_iff]
      linarith
    have hrest : final * doc.zm + (height' + (front.map fun height : ℕ+ => (height : ℚ)).sum) -
        height' = final * doc.zm + (front.map fun height : ℕ+ => (height : ℚ)).sum := by ring
    refine ⟨img :: imgs, ?_⟩
    rw [List.length_cons] at hbefore ⊢
    rw [cutPos, hheight]
    simp only [hbefore, hmin, himg, hrest, himgs]
    simp [rects, add_right_comm]

/-- Where the upper edge is not on the page, nothing is cut out. -/
theorem cutPos_eq_none (hcut : CutsOrdered cut) {height : ℕ+}
    (hheight : doc.heights[s]? = some height) (htop : height < top * doc.zm) {pns : List ℕ} :
    doc.cutPos cut ⟨s, pns, left, right, top, final⟩ = none := by
  have hnone : cut s ⟨left * doc.zm, top * doc.zm, right * doc.zm,
      min (final * doc.zm + doc.heightBefore pns) height⟩ = none := by
    rw [← Option.not_isSome_iff_eq_none, hcut]
    rintro ⟨-, hlower⟩
    exact absurd (hlower.trans (min_le_right _ _)) (not_le.mpr htop)
  rw [cutPos, hheight]
  simp [hnone]

/-- With one position, there is a part above it and a part below. -/
theorem crop_single {text : Nlp.Text} {pos : Position ℚ} {valid : CropPos} {lastHeight : ℕ+}
    (htext : extractPositions exactFloat text = some [pos]) (hvalid : doc.validPos pos = some valid)
    (hlast : doc.heights[(valid.first :: valid.others).getLast (List.cons_ne_nil _ _)]? =
      some lastHeight) :
    doc.crop cut text = (do
      let above ← doc.cutPos cut
        ⟨valid.first, [], valid.left, valid.left + max 6 (valid.right - valid.left),
          max 0 (valid.top - 120), max (valid.top - 6) 0⟩
      let part ← doc.cutPos cut { valid with right := max (valid.left + 10) valid.right }
      let below ← doc.cutPos cut
        ⟨(valid.first :: valid.others).getLast (List.cons_ne_nil _ _), [], valid.left,
          valid.left + max 6 (valid.right - valid.left),
          min (lastHeight / doc.zm) (valid.bottom + 6),
          min (lastHeight / doc.zm) (valid.bottom + 120)⟩
      return some (above.1 ++ part.1 ++ below.1, part.2)) := by
  have hfilter : [pos].filterMap doc.validPos = [valid] := by simp [hvalid]
  rw [crop, htext]
  simp only [Option.bind_eq_bind, Option.bind_some, hfilter, List.getLast_singleton, hlast]
  simp [Option.bind_assoc]

end Cutting

/-! ## A box on its pages -/

section Boxes

variable {α : Type} {cut : ℕ → Area → Option α}

theorem cumHeight_length (i : ℕ) :
    doc.cumHeight doc.heights.length = doc.cumHeight i +
      ((doc.heights.drop i).map fun height : ℕ+ => (height : ℚ) / doc.zm).sum := by
  rw [cumHeight, cumHeight, List.take_length, ← List.sum_append, ← List.map_append,
    List.take_append_drop]

theorem natPred_lt_length (h : doc.OnPages bx) : bx.pageNumber.natPred < doc.heights.length := by
  have hpred : bx.pageNumber.natPred + 1 = bx.pageNumber := bx.pageNumber.natPred_add_one
  have hpage := h.page
  omega

theorem pageCumHeight_of_onPages (h : doc.OnPages bx) :
    doc.pageCumHeight bx.pageNumber = some (doc.pageTop bx) := by
  rw [pageCumHeight, if_pos (natPred_lt_length h).le, pageTop]

/-- The pages that the box is on are among those that were read. -/
theorem exists_spans_of_onPages (h : doc.OnPages bx) :
    ∃ front last final, Spans doc.zm (doc.heights.drop bx.pageNumber.natPred)
      (bx.bottom - doc.pageTop bx) front last final := by
  apply exists_spans
  · have hlt := natPred_lt_length h
    rw [Ne, List.drop_eq_nil_iff]
    omega
  · have hbottom := h.bottom
    rw [cumHeight_length bx.pageNumber.natPred] at hbottom
    rw [pageTop]
    linarith

variable {front : List ℕ+} {last : ℕ+} {final : ℚ}

theorem lineTag_of_spans (h : doc.OnPages bx)
    (hspans : Spans doc.zm (doc.heights.drop bx.pageNumber.natPred) (bx.bottom - doc.pageTop bx)
      front last final) :
    doc.lineTag bx = some ("@@".toList ++
      ['-'].intercalate ((List.range' (bx.pageNumber.natPred + 1) (front.length + 1)).map
        (Nat.toDigits 10)) ++
      '\t' :: ['\t'].intercalate
        ([bx.x0, bx.x1, bx.top - doc.pageTop bx, final].map formatTenths) ++ "##".toList) := by
  rw [lineTag, pageCumHeight_of_onPages h, Option.map_some, tagPages_of_spans hspans,
    PNat.natPred_add_one]

theorem getPosition_of_spans (h : doc.OnPages bx)
    (hspans : Spans doc.zm (doc.heights.drop bx.pageNumber.natPred) (bx.bottom - doc.pageTop bx)
      front last final) :
    doc.getPosition bx = some (rects doc.zm bx.x0 bx.x1 final last bx.pageNumber
      (bx.top - doc.pageTop bx) front) := by
  rw [getPosition, pageCumHeight_of_onPages h, Option.bind_some, positionFrom_of_spans hspans]

/-- The tag of a box is read as one position, on pages that there are. -/
theorem exists_position_of_spans (h : doc.OnPages bx)
    (hspans : Spans doc.zm (doc.heights.drop bx.pageNumber.natPred) (bx.bottom - doc.pageTop bx)
      front last final) {tag : Nlp.Text} (htag : doc.lineTag bx = some tag) :
    ∃ pos, extractPositions exactFloat tag = some [pos] ∧
      doc.validPos pos = some ⟨bx.pageNumber.natPred,
        List.range' (bx.pageNumber.natPred + 1) front.length, toTenths bx.x0, toTenths bx.x1,
        toTenths (bx.top - doc.pageTop bx), toTenths final⟩ := by
  have hleft := h.left
  have hwidth := h.width
  have htop := h.top
  have hordered := h.ordered
  have hfinal := hspans.final_nonneg (by linarith)
  obtain ⟨others, hothers⟩ := hspans.eq_append
  have hlength := congrArg List.length hothers
  simp only [List.length_drop, List.length_append, List.length_cons] at hlength
  rw [lineTag_of_spans h hspans, Option.some_inj] at htag
  rw [← htag]
  refine ⟨_, extractPositions_tag (by simp) hleft (by linarith) (by linarith) hfinal, ?_⟩
  exact validPos_range' (by omega)

theorem getElem?_getLast_range' {s : ℕ} {others : List ℕ+}
    (hothers : doc.heights.drop s = front ++ last :: others) :
    doc.heights[(s :: List.range' (s + 1) front.length).getLast (List.cons_ne_nil _ _)]? =
      some last := by
  have hrange : s :: List.range' (s + 1) front.length = List.range' s (front.length + 1) :=
    (List.range'_succ ..).symm
  have hend : (List.range' s (front.length + 1)).getLast (by simp) = s + front.length := by
    rw [List.getLast_range']
    omega
  simp only [hrange, hend]
  rw [← List.getElem?_drop, hothers, List.getElem?_append_right le_rfl, Nat.sub_self]
  rfl

/-- What is cut out by the tag of a box. -/
theorem exists_crop_of_spans (h : doc.OnPages bx)
    (hspans : Spans doc.zm (doc.heights.drop bx.pageNumber.natPred) (bx.bottom - doc.pageTop bx)
      front last final) {tag : Nlp.Text} (htag : doc.lineTag bx = some tag) (hcut : CutsOrdered cut)
    (htop : doc.TopOnPage bx) :
    ∃ imgs, doc.crop cut tag = some (some (imgs,
      rects doc.zm (toTenths bx.x0) (max (toTenths bx.x0 + 10) (toTenths bx.x1)) (toTenths final)
        last (bx.pageNumber.natPred + doc.pageFrom) (toTenths (bx.top - doc.pageTop bx))
        front)) := by
  obtain ⟨pos, hpos, hvalid⟩ := exists_position_of_spans h hspans htag
  obtain ⟨others, hothers⟩ := hspans.eq_append
  obtain ⟨height, hheight, hle⟩ := htop
  have hlast := getElem?_getLast_range' hothers
  have hzm : (0 : ℚ) < doc.zm := Nat.cast_pos.mpr doc.zm.pos
  have hnonneg : 0 ≤ toTenths (bx.top - doc.pageTop bx) := toTenths_nonneg (by linarith [h.top])
  have hfinal : 0 ≤ toTenths final :=
    toTenths_nonneg (hspans.final_nonneg (by linarith [h.top, h.ordered]))
  have hordered : front = [] → toTenths (bx.top - doc.pageTop bx) ≤ toTenths final := by
    rintro rfl
    rw [hspans.final_eq]
    exact toTenths_mono (by linarith [h.ordered])
  have hwide : toTenths bx.x0 ≤ toTenths bx.x0 + max 6 (toTenths bx.x1 - toTenths bx.x0) := by
    linarith [le_max_left 6 (toTenths bx.x1 - toTenths bx.x0)]
  have hright : toTenths bx.x0 ≤ max (toTenths bx.x0 + 10) (toTenths bx.x1) := by
    linarith [le_max_left (toTenths bx.x0 + 10) (toTenths bx.x1)]
  -- the part above begins no lower than the box, and the part below within the last page
  have habove : max 0 (toTenths (bx.top - doc.pageTop bx) - 120) * doc.zm ≤ height := by
    refine le_trans ?_ hle
    gcongr
    exact max_le hnonneg (by linarith)
  have haboveOrdered : max 0 (toTenths (bx.top - doc.pageTop bx) - 120) ≤
      max (toTenths (bx.top - doc.pageTop bx) - 6) 0 :=
    max_le (le_max_right _ _) (le_trans (by linarith) (le_max_left _ 0))
  have hbelow : min ((last : ℚ) / doc.zm) (toTenths final + 6) * doc.zm ≤ (last : ℚ) := by
    calc
      min ((last : ℚ) / doc.zm) (toTenths final + 6) * doc.zm ≤ (last : ℚ) / doc.zm * doc.zm := by
        gcongr
        exact min_le_left _ _
      _ = last := div_mul_cancel₀ _ hzm.ne'
  have hbelowOrdered : min ((last : ℚ) / doc.zm) (toTenths final + 6) ≤
      min ((last : ℚ) / doc.zm) (toTenths final + 120) :=
    min_le_min_left _ (by linarith)
  obtain ⟨above, hcutAbove⟩ := exists_cutPos hcut hheight hwide haboveOrdered habove
  obtain ⟨below, hcutBelow⟩ := exists_cutPos hcut hlast hwide hbelowOrdered hbelow
  obtain ⟨imgs, himgs⟩ := cutPos_range' hcut hothers hheight hright hfinal hordered hle
  refine ⟨above.1 ++ imgs ++ below.1, ?_⟩
  rw [crop_single hpos hvalid hlast]
  simp only [hcutAbove, himgs, hcutBelow]
  rfl

theorem crop_eq_none_of_spans (h : doc.OnPages bx)
    (hspans : Spans doc.zm (doc.heights.drop bx.pageNumber.natPred) (bx.bottom - doc.pageTop bx)
      front last final) {tag : Nlp.Text} (htag : doc.lineTag bx = some tag) (hcut : CutsOrdered cut)
    (htop : ¬ doc.TopOnPage bx) : doc.crop cut tag = none := by
  obtain ⟨pos, hpos, hvalid⟩ := exists_position_of_spans h hspans htag
  obtain ⟨others, hothers⟩ := hspans.eq_append
  have hlt := natPred_lt_length h
  have hheight : doc.heights[bx.pageNumber.natPred]? = some doc.heights[bx.pageNumber.natPred] :=
    List.getElem?_eq_getElem hlt
  have hoff : (doc.heights[bx.pageNumber.natPred] : ℚ) <
      toTenths (bx.top - doc.pageTop bx) * doc.zm := by
    by_contra hle
    exact htop ⟨_, hheight, not_lt.mp hle⟩
  rw [crop_single hpos hvalid (getElem?_getLast_range' hothers)]
  simp only [cutPos_eq_none hcut hheight hoff]
  simp

/-- The positions read from the tag are the rectangles of the box, if and only if its upper edge is
not rounded over the end of its page. -/
theorem positionsAgree_iff {α : Type} (cut : ℕ → Area → Option α) (hcut : CutsOrdered cut)
    (doc : PageImages) (bx : TextBox) (h : doc.OnPages bx) :
    doc.Agrees cut bx ↔ doc.TopOnPage bx := by
  obtain ⟨front, last, final, hspans⟩ := exists_spans_of_onPages h
  have htag := lineTag_of_spans h hspans
  constructor
  · rintro ⟨tag, imgs, positions, rects, htag', hcrop, -⟩
    by_contra htop
    obtain rfl := Option.some.inj (htag.symm.trans htag')
    rw [crop_eq_none_of_spans h hspans htag hcut htop] at hcrop
    cases hcrop
  · intro htop
    obtain ⟨imgs, hcrop⟩ := exists_crop_of_spans h hspans htag hcut htop
    refine ⟨_, imgs, _, _, htag, hcrop, getPosition_of_spans h hspans, ?_⟩
    apply forall₂_rounds
    · have hpred : bx.pageNumber.natPred + 1 = bx.pageNumber := bx.pageNumber.natPred_add_one
      omega
    · exact near_toTenths bx.x0
    · exact near_max_toTenths h.width
    · exact near_toTenths _
    · exact near_toTenths final

/-- Areas in order are cut out. -/
def orderedCut : ℕ → Area → Option Area := fun _ area =>
  if area.left ≤ area.right ∧ area.upper ≤ area.lower then some area else none

theorem cutsOrdered_orderedCut : CutsOrdered orderedCut := by
  intro pn area
  rw [orderedCut]
  split_ifs with h <;> simp [h]

def twoPages : PageImages := ⟨[1001, 900], 0, 3⟩

/-- A box from a place on the first page to one on the second. -/
def boxFrom (top : ℚ) : TextBox := ⟨firstPage, 10, 100, top, 400, [], none, none⟩

theorem onPages_boxFrom {top : ℚ} (htop : 0 ≤ top) (hle : top ≤ 400) :
    twoPages.OnPages (boxFrom top) where
  page := (by decide : 1 ≤ 2)
  left := by norm_num [boxFrom]
  width := by norm_num [boxFrom]
  top := htop
  ordered := hle
  bottom := by norm_num [boxFrom, cumHeight, twoPages]

theorem positionsAgree_iff_boxFrom :
    twoPages.Agrees orderedCut (boxFrom 320) ↔ twoPages.TopOnPage (boxFrom 320) :=
  positionsAgree_iff orderedCut cutsOrdered_orderedCut twoPages (boxFrom 320)
    (onPages_boxFrom (by norm_num) (by norm_num))

/-- The page ends at 333.667, and the upper edge 333.66 is rounded to 333.7. -/
theorem not_agrees_boxFrom : ¬ twoPages.Agrees orderedCut (boxFrom (33366 / 100)) := by
  rintro ⟨tag, imgs, positions, rects, htag, hcrop, -⟩
  have hon : twoPages.OnPages (boxFrom (33366 / 100)) :=
    onPages_boxFrom (by norm_num) (by norm_num)
  obtain ⟨front, last, final, hspans⟩ := exists_spans_of_onPages hon
  have hround : roundHalfEven (10 * (33366 / 100)) = 3337 := roundHalfEven_of_near (by norm_num)
  have htop : ¬ twoPages.TopOnPage (boxFrom (33366 / 100)) := by
    rintro ⟨height, hheight, hle⟩
    obtain rfl : 1001 = height := Option.some.inj hheight
    have hzero : twoPages.pageTop (boxFrom (33366 / 100)) = 0 := rfl
    rw [hzero, sub_zero, toTenths] at hle
    change (roundHalfEven (10 * (33366 / 100)) : ℚ) / 10 * 3 ≤ 1001 at hle
    rw [hround] at hle
    norm_num at hle
  rw [crop_eq_none_of_spans hon hspans htag cutsOrdered_orderedCut htop] at hcrop
  cases hcrop

end Boxes

end PageImages

end RagflowMineru.Deepdoc
