import RagflowMineru.Library.Buckets
import RagflowMineru.MinerU.ContentList
import Mathlib.Algebra.Order.Ring.Abs
import Mathlib.Data.List.GetD
import Mathlib.Data.List.Sort

/-!
# Filling spans with characters

`fill_char_in_spans` looks for the span of a character only among the spans
that reach into the row of the character, where a row is as high as a span
usually is.  A span lies in the rows between the one of its top and the one of
its bottom.  Coordinates are rationals; a row is a quotient cut off towards
zero, as `int` does.
-/

namespace RagflowMineru.MinerU

open RagflowMineru.Library

structure PdfChar where
  char : String
  bbox : BBox ℚ
  deriving DecidableEq

/-- A text span, as far as characters are concerned. -/
structure TextSpan where
  bbox : BBox ℚ
  chars : List PdfChar := []
  deriving DecidableEq

instance : Inhabited TextSpan := ⟨{ bbox := ⟨0, 0, 0, 0⟩ }⟩

def lineStopFlag : List String :=
  [".", "!", "?", "。", "！", "？", ")", "）", "\"", "”", ":", "：", ";", "；", "]", "】", "\x7d",
    "\x7d", ">", "》", "、", ",", "，", "-", "—", "–"]

def lineStartFlag : List String :=
  ["(", "（", "\"", "“", "【", "\x7b", "《", "<", "「", "『", "【", "["]

/-- `Span_Height_Radio`. -/
def spanHeightRadio : ℚ := 33 / 100

def BBox.centerX (b : BBox ℚ) : ℚ := (b.x0 + b.x1) / 2

def BBox.centerY (b : BBox ℚ) : ℚ := (b.y0 + b.y1) / 2

/-- The test of the height that all branches of `calculate_char_in_span` end with. -/
def inSpanHeight (char span : BBox ℚ) : Bool :=
  span.y0 < char.centerY && char.centerY < span.y1 &&
    |char.centerY - span.centerY| < (span.y1 - span.y0) * spanHeightRadio

/-- `calculate_char_in_span`; `None` counts as `False`. -/
def calculateCharInSpan (charBbox spanBbox : BBox ℚ) (char : String) : Bool :=
  let spanHeight := spanBbox.y1 - spanBbox.y0
  if spanBbox.x0 < charBbox.centerX && charBbox.centerX < spanBbox.x1 &&
      inSpanHeight charBbox spanBbox then true
  else if char ∈ lineStopFlag then
    spanBbox.x1 - spanHeight < charBbox.x0 && charBbox.x0 < spanBbox.x1 &&
      spanBbox.x0 < charBbox.centerX && inSpanHeight charBbox spanBbox
  else if char ∈ lineStartFlag then
    spanBbox.x0 < charBbox.x1 && charBbox.x1 < spanBbox.x0 + spanHeight &&
      charBbox.centerX < spanBbox.x1 && inSpanHeight charBbox spanBbox
  else false

/-- `int(q)`: cut off towards zero. -/
def pyInt (q : ℚ) : ℤ := if 0 ≤ q then ⌊q⌋ else ⌈q⌉

/-- `range(start, stop)`. -/
def pyRange (start stop : ℤ) : List ℤ :=
  (List.range (stop - start).toNat).map fun (k : ℕ) => start + k

/-- The order of the key `x['bbox'][1]`. -/
def TextSpan.Above (a b : TextSpan) : Prop := a.bbox.y0 ≤ b.bbox.y0

instance : DecidableRel TextSpan.Above := fun a _ => inferInstanceAs (Decidable (a.bbox.y0 ≤ _))

instance : Std.Total TextSpan.Above := ⟨fun a b => le_total a.bbox.y0 b.bbox.y0⟩

instance : IsTrans TextSpan TextSpan.Above := ⟨fun _ _ _ => le_trans⟩

/-- The spans from top to bottom. -/
def topToBottom (spans : List TextSpan) : List TextSpan := spans.insertionSort TextSpan.Above

/-- The rows of a span. -/
def cellsOf (gridSize : ℚ) (span : BBox ℚ) : List ℤ :=
  pyRange (pyInt (span.y0 / gridSize)) (pyInt (span.y1 / gridSize) + 1)

/-- The loop that builds `grid`: the numbers of the spans of each row. -/
def gridOf (gridSize : ℚ) (spans : List TextSpan) : Assoc ℤ (List ℕ) :=
  buckets (fun i => cellsOf gridSize (spans.getD i default).bbox) (List.range spans.length)

/-- Whether the span with number `i` takes the character. -/
def accepts (spans : List TextSpan) (char : PdfChar) (i : ℕ) : Bool :=
  calculateCharInSpan char.bbox (spans.getD i default).bbox char.char

/-- Append a character to a span; `none` leaves it unassigned. -/
def assign (spans : List TextSpan) (char : PdfChar) : Option ℕ → List TextSpan
  | none => spans
  | some i => spans.modify i fun span => { span with chars := span.chars ++ [char] }

/-- The search for the span of a character in its row. -/
def gridSpan (gridSize : ℚ) (grid : Assoc ℤ (List ℕ)) (spans : List TextSpan) (char : PdfChar) :
    Option ℕ :=
  (bucket (pyInt (char.bbox.centerY / gridSize)) grid).find? (accepts spans char)

/-- The loops of `fill_char_in_spans` that give each character to a span. -/
def fillCharInSpans (spans : List TextSpan) (allChars : List PdfChar) (medianSpanHeight : ℚ) :
    List TextSpan :=
  let spans := topToBottom spans
  let grid := gridOf medianSpanHeight spans
  allChars.foldl (fun spans char => assign spans char (gridSpan medianSpanHeight grid spans char))
    spans

/-- The first of all spans that takes a character. -/
def scanSpan (spans : List TextSpan) (char : PdfChar) : Option ℕ :=
  (List.range spans.length).find? (accepts spans char)

/-- The plain scan: each character goes to the first span, from top to bottom, that takes it. -/
def scanCharInSpans (spans : List TextSpan) (allChars : List PdfChar) : List TextSpan :=
  allChars.foldl (fun spans char => assign spans char (scanSpan spans char)) (topToBottom spans)

/-! ## Rows -/

theorem pyInt_mono {p q : ℚ} (h : p ≤ q) : pyInt p ≤ pyInt q := by
  rw [pyInt, pyInt]
  split_ifs with hp hq hq
  · exact Int.floor_le_floor h
  · exact absurd (hp.trans h) hq
  · have hceil : ⌈p⌉ ≤ 0 := Int.ceil_le.mpr (by simpa using (not_le.mp hp).le)
    exact hceil.trans (Int.floor_nonneg.mpr hq)
  · exact Int.ceil_le_ceil h

theorem mem_pyRange {start stop k : ℤ} : k ∈ pyRange start stop ↔ start ≤ k ∧ k < stop := by
  rw [pyRange, List.mem_map]
  constructor
  · rintro ⟨n, hn, rfl⟩
    rw [List.mem_range] at hn
    omega
  · rintro ⟨hstart, hstop⟩
    refine ⟨(k - start).toNat, ?_, ?_⟩
    · rw [List.mem_range]
      omega
    · omega

theorem nodup_pyRange (start stop : ℤ) : (pyRange start stop).Nodup := by
  apply List.Nodup.map _ List.nodup_range
  intro m n h
  have heq : start + (m : ℤ) = start + n := h
  omega

/-- A character that is taken has its centre between the top and the bottom of the span. -/
theorem center_of_calculateCharInSpan {charBbox spanBbox : BBox ℚ} {char : String}
    (h : calculateCharInSpan charBbox spanBbox char = true) :
    spanBbox.y0 < charBbox.centerY ∧ charBbox.centerY < spanBbox.y1 := by
  have hheight : inSpanHeight charBbox spanBbox = true := by
    rw [calculateCharInSpan] at h
    split_ifs at h with hcenter
    · exact (Bool.and_eq_true_iff.mp hcenter).2
    · exact (Bool.and_eq_true_iff.mp h).2
    · exact (Bool.and_eq_true_iff.mp h).2
  rw [inSpanHeight, Bool.and_eq_true_iff, Bool.and_eq_true_iff] at hheight
  exact ⟨of_decide_eq_true hheight.1.1, of_decide_eq_true hheight.1.2⟩

/-- The row of a character that is taken is a row of the span. -/
theorem cell_mem_cellsOf {gridSize : ℚ} (hsize : 0 < gridSize) {charBbox spanBbox : BBox ℚ}
    {char : String} (h : calculateCharInSpan charBbox spanBbox char = true) :
    pyInt (charBbox.centerY / gridSize) ∈ cellsOf gridSize spanBbox := by
  obtain ⟨htop, hbottom⟩ := center_of_calculateCharInSpan h
  rw [cellsOf, mem_pyRange]
  constructor
  · exact pyInt_mono (div_le_div_of_nonneg_right htop.le hsize.le)
  · exact Int.lt_add_one_of_le (pyInt_mono (div_le_div_of_nonneg_right hbottom.le hsize.le))

/-! ## The search in a row -/

theorem gridSpan_eq_scanSpan {gridSize : ℚ} (hsize : 0 < gridSize) (spans : List TextSpan)
    (char : PdfChar) :
    gridSpan gridSize (gridOf gridSize spans) spans char = scanSpan spans char := by
  apply find?_bucket
  · intro i _
    exact nodup_pyRange _ _
  · intro i _ hi
    exact cell_mem_cellsOf hsize hi

/-- Assigning a character moves no span. -/
theorem map_bbox_assign (spans : List TextSpan) (char : PdfChar) (i : Option ℕ) :
    (assign spans char i).map TextSpan.bbox = spans.map TextSpan.bbox := by
  rcases i with - | i
  · rfl
  · rw [assign]
    apply List.ext_getElem?
    intro k
    rw [List.getElem?_map, List.getElem?_map, List.getElem?_modify]
    rcases spans[k]? with - | span
    · rfl
    · by_cases hk : i = k
      · simp [hk]
      · simp [hk]

theorem getD_bbox (spans : List TextSpan) (i : ℕ) :
    (spans.getD i default).bbox = (spans.map TextSpan.bbox).getD i ⟨0, 0, 0, 0⟩ :=
  (List.getD_map _ _ _).symm

theorem gridOf_congr {spans spans' : List TextSpan} (gridSize : ℚ)
    (h : spans.map TextSpan.bbox = spans'.map TextSpan.bbox) :
    gridOf gridSize spans = gridOf gridSize spans' := by
  have hlen : spans.length = spans'.length := by simpa using congrArg List.length h
  simp only [gridOf, getD_bbox, h, hlen]

theorem topToBottom_sorted (spans : List TextSpan) :
    (topToBottom spans).Pairwise TextSpan.Above ∧ List.Perm (topToBottom spans) spans :=
  ⟨List.pairwise_insertionSort _ spans, List.perm_insertionSort _ spans⟩

/-- Looking for the span of a character in its row only finds the first of all spans, from top to
bottom, that takes the character, and none where none takes it; so every span gets the characters
that the plain scan gives it. -/
theorem fillCharInSpans_eq_scan (spans : List TextSpan) (allChars : List PdfChar)
    (medianSpanHeight : ℚ) (hsize : 0 < medianSpanHeight) :
    ((topToBottom spans).Pairwise TextSpan.Above ∧ List.Perm (topToBottom spans) spans) ∧
      (∀ char, gridSpan medianSpanHeight (gridOf medianSpanHeight (topToBottom spans))
        (topToBottom spans) char = scanSpan (topToBottom spans) char) ∧
      fillCharInSpans spans allChars medianSpanHeight = scanCharInSpans spans allChars := by
  have hrun : ∀ current, current.map TextSpan.bbox = (topToBottom spans).map TextSpan.bbox →
      allChars.foldl (fun spans' char => assign spans' char
        (gridSpan medianSpanHeight (gridOf medianSpanHeight (topToBottom spans)) spans' char))
        current =
      allChars.foldl (fun spans' char => assign spans' char (scanSpan spans' char)) current := by
    induction allChars with
    | nil => exact fun _ _ => rfl
    | cons char chars ih =>
        intro current hcurrent
        rw [List.foldl_cons, List.foldl_cons, ← gridOf_congr medianSpanHeight hcurrent,
          gridSpan_eq_scanSpan hsize, gridOf_congr medianSpanHeight hcurrent]
        apply ih
        rw [map_bbox_assign, hcurrent]
  exact ⟨topToBottom_sorted spans, gridSpan_eq_scanSpan hsize _, hrun (topToBottom spans) rfl⟩

/-- Two spans one above the other, and a full stop behind the end of the lower one. -/
def pageSpans : List TextSpan :=
  [{ bbox := ⟨0, 12, 50, 22⟩ }, { bbox := ⟨0, 0, 50, 10⟩ }]

def fullStop : PdfChar := { char := ".", bbox := ⟨49, 15, 53, 18⟩ }

theorem fillCharInSpans_pageSpans :
    fillCharInSpans pageSpans [fullStop] 10 = scanCharInSpans pageSpans [fullStop] ∧
      scanSpan (topToBottom pageSpans) fullStop = some 1 :=
  ⟨(fillCharInSpans_eq_scan pageSpans [fullStop] 10 (by norm_num)).2.2, by decide +kernel⟩

end RagflowMineru.MinerU
