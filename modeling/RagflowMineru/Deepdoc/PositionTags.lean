import Mathlib.Data.PNat.Basic
import RagflowMineru.Library.Binary64
import RagflowMineru.Library.Paging
import RagflowMineru.MinerU.ContentList
import RagflowMineru.Nlp.TableContext

/-!
# Position tags

The text of a section ends with a tag that says where it stands, and a regular expression finds
the tags again.  It wants digits, dots and tabs for the coordinates.  A coordinate left of or
above the page is written with a sign, so that its tag is not found.
-/

namespace RagflowMineru.Deepdoc

open Library Library.Binary64 Nlp

/-! ## Numbers -/

/-- The double of a number; `none` is an infinite one. -/
def double (x : ℚ) : Option ℚ := if |nearest x| < 2 ^ 1024 then some (nearest x) else none

/-- A coordinate in thousandths of the size of the page image, if there is one. -/
def scaled : Option ℕ+ → ℚ → Option ℚ
  | none, x => double x
  | some size, x => (double x).bind fun x => (double (x / 1000)).bind fun x => double (x * size)

/-- `{:.1f}` of a number of at least zero. -/
def oneDecimal (x : ℚ) : Nlp.Text :=
  let tenths := (roundHalfEven (10 * x)).toNat
  Nat.toDigits 10 (tenths / 10) ++ '.' :: Nat.toDigits 10 (tenths % 10)

/-- `{:.1f}`; a number below zero has its sign also when it is rounded to zero. -/
def formatCoord (size : Option ℕ+) (x : ℚ) : Nlp.Text :=
  (if x < 0 then ['-'] else []) ++ ((scaled size |x|).map oneDecimal).getD "inf".toList

/-- The built-in `float` on texts of digits and dots. -/
def pyFloat (t : Nlp.Text) : Option (Option ℚ) :=
  match t.splitOn '.' with
  | [whole] =>
      if whole = [] then none else some (double (Nat.ofDigitChars 10 whole 0))
  | [whole, frac] =>
      if whole ++ frac = [] then none
      else some (double (Nat.ofDigitChars 10 (whole ++ frac) 0 / 10 ^ frac.length))
  | _ => none

/-- A coordinate on the page, rounded to one decimal. -/
def rounded (size : Option ℕ+) (x : ℚ) : Option ℚ :=
  (scaled size x).bind fun x => double (roundHalfEven (10 * x) / 10)

/-! ## Tags -/

/-- What a block says about its place. -/
structure Placed where
  pageIdx : ℕ
  bbox : Option (MinerU.BBox ℚ)

namespace Placed

variable (pageImages : List (ℕ+ × ℕ+)) (bx : Placed)

/-- The corners, in order, each coordinate with the size of the page image in its direction. -/
def corners : MinerU.BBox (Option ℕ+ × ℚ) :=
  let positions := bx.bbox.getD ⟨0, 0, 0, 0⟩
  let (x0, x1) := if positions.x0 > positions.x1 then (positions.x1, positions.x0)
    else (positions.x0, positions.x1)
  let (top, bott) := if positions.y0 > positions.y1 then (positions.y1, positions.y0)
    else (positions.y0, positions.y1)
  let pageWidth := pageImages[bx.pageIdx]?.map Prod.fst
  let pageHeight := pageImages[bx.pageIdx]?.map Prod.snd
  ⟨(pageWidth, x0), (pageHeight, top), (pageWidth, x1), (pageHeight, bott)⟩

/-- In the order of the tag. -/
def coords : List (Option ℕ+ × ℚ) :=
  let c := bx.corners pageImages
  [c.x0, c.x1, c.y0, c.y1]

def pageText : Nlp.Text := Nat.toDigits 10 (bx.pageIdx + 1)

def coordText : Nlp.Text :=
  ['\t'].intercalate ((bx.coords pageImages).map fun c => formatCoord c.1 c.2)

/-- `_line_tag`. -/
def lineTag : Nlp.Text :=
  "@@".toList ++ bx.pageText ++ '\t' :: bx.coordText pageImages ++ "##".toList

/-- What should be read again. -/
def position : Position (Option ℚ) :=
  let c := bx.corners pageImages
  ⟨.many [bx.pageIdx], rounded c.x0.1 c.x0.2, rounded c.x1.1 c.x1.2, rounded c.y0.1 c.y0.2,
    rounded c.y1.1 c.y1.2⟩

/-- No coordinate is below zero or, on its page, too large for a number. -/
def Readable : Prop := ∀ c ∈ bx.coords pageImages, 0 ≤ c.2 ∧ (scaled c.1 c.2).isSome

instance : DecidablePred (Readable pageImages) := fun bx =>
  inferInstanceAs (Decidable (∀ c ∈ bx.coords pageImages, 0 ≤ c.2 ∧ (scaled c.1 c.2).isSome))

end Placed

/-- The regular expression finds nothing in the text. -/
def TagFree (t : Nlp.Text) : Prop := (positionTag.scan t).2 = []

/-- The positions of the blocks are read again from their sections. -/
def RoundTrips (pageImages : List (ℕ+ × ℕ+)) (sections : List (Nlp.Text × Placed)) : Prop :=
  extractPositions pyFloat (sections.flatMap fun s => s.1 ++ s.2.lineTag pageImages) =
    some (sections.map fun s => s.2.position pageImages)

/-! ## What is found in a text -/

section Finding

/-- The tags that the regular expression finds, in order. -/
def tagsOf (s : Nlp.Text) : List (Nlp.Text × Nlp.Text) := (positionTag.scan s).2.map Prod.fst

variable {s t r pages coords : Nlp.Text} {a : Char}

theorem tagsOf_cons_of_none (h : positionTagAt (a :: s) = none) : tagsOf (a :: s) = tagsOf s := by
  rw [tagsOf, Matcher.scan_cons_of_none h]
  rfl

theorem positionTagAt_some {tag : Nlp.Text × Nlp.Text} (h : positionTagAt s = some tag) :
    tag.1 ≠ [] ∧ tag.2 ≠ [] ∧ (∀ c ∈ tag.1, isPageChar c) ∧ (∀ c ∈ tag.2, isCoordChar c) ∧
      "@@".toList ++ tag.1 ++ '\t' :: tag.2 ++ "##".toList <+: s := by
  dsimp only [positionTagAt] at h
  split_ifs at h with htag
  obtain rfl := Option.some.inj h
  exact ⟨htag.1, htag.2.1, fun c hc => List.mem_takeWhile_imp hc,
    fun c hc => List.mem_takeWhile_imp hc, htag.2.2⟩

theorem takeWhile_append_cons {p : Char → Bool} (hs : ∀ c ∈ s, p c) (ha : p a = false) :
    (s ++ a :: t).takeWhile p = s := by
  rw [List.takeWhile_append_of_pos hs, List.takeWhile_cons_of_neg (by simp [ha]), List.append_nil]

theorem eq_of_append_cons {p : Char → Bool} {s' t' : Nlp.Text} (hs : ∀ c ∈ s, p c)
    (hs' : ∀ c ∈ s', p c) (ha : p a = false) (h : s ++ a :: t = s' ++ a :: t') :
    s = s' ∧ t = t' := by
  have hfirst := congrArg (List.takeWhile p) h
  rw [takeWhile_append_cons hs ha, takeWhile_append_cons hs' ha] at hfirst
  subst hfirst
  exact ⟨rfl, (List.cons.inj (List.append_cancel_left h)).2⟩

theorem positionTagAt_append (hpages : pages ≠ []) (hcoords : coords ≠ [])
    (hpage : ∀ c ∈ pages, isPageChar c) (hcoord : ∀ c ∈ coords, isCoordChar c) :
    positionTagAt ("@@".toList ++ pages ++ '\t' :: coords ++ "##".toList ++ r) =
      some (pages, coords) := by
  have hfirst : (("@@".toList ++ pages ++ '\t' :: coords ++ "##".toList ++ r).drop 2).takeWhile
      isPageChar = pages := by
    have hdrop : ("@@".toList ++ pages ++ '\t' :: coords ++ "##".toList ++ r).drop 2 =
        pages ++ '\t' :: (coords ++ "##".toList ++ r) := by simp
    rw [hdrop, takeWhile_append_cons hpage rfl]
  have hsecond : (("@@".toList ++ pages ++ '\t' :: coords ++ "##".toList ++ r).drop
      (2 + pages.length + 1)).takeWhile isCoordChar = coords := by
    have hdrop : ("@@".toList ++ pages ++ '\t' :: coords ++ "##".toList ++ r).drop
        (2 + pages.length + 1) = coords ++ '#' :: '#' :: r := by
      have hlen : 2 + pages.length + 1 = ("@@".toList ++ pages ++ ['\t']).length := by simp; omega
      have happ : "@@".toList ++ pages ++ '\t' :: coords ++ "##".toList ++ r =
          ("@@".toList ++ pages ++ ['\t']) ++ (coords ++ '#' :: '#' :: r) := by simp
      rw [hlen, happ, List.drop_left]
    rw [hdrop, takeWhile_append_cons hcoord rfl]
  simp only [positionTagAt, hfirst, hsecond]
  exact if_pos ⟨hpages, hcoords, List.prefix_append _ _⟩

theorem positionTagAt_of_not_begins (h : ¬ "@@".toList <+: s) : positionTagAt s = none := by
  rw [Option.eq_none_iff_forall_ne_some]
  intro tag htag
  obtain ⟨-, -, -, -, r, hr⟩ := positionTagAt_some htag
  rw [List.append_assoc, List.append_assoc] at hr
  exact h ⟨_, hr⟩

/-- Nothing begins in a text without the first letter of a tag. -/
theorem tagsOf_append_of_notMem (hs : '@' ∉ s) : tagsOf (s ++ t) = tagsOf t := by
  induction s with
  | nil => rfl
  | cons a s ih =>
      rw [List.mem_cons, not_or] at hs
      have hnone : positionTagAt (a :: (s ++ t)) = none := by
        apply positionTagAt_of_not_begins
        rintro ⟨r, hr⟩
        exact hs.1 (List.cons.inj hr).1
      rw [List.cons_append, tagsOf_cons_of_none hnone, ih hs.2]

theorem at_notMem_tag {tag : Nlp.Text × Nlp.Text} (h : positionTagAt s = some tag) :
    '@' ∉ tag.1 ++ '\t' :: tag.2 ++ "##".toList := by
  obtain ⟨-, -, hpage, hcoord, -⟩ := positionTagAt_some h
  simp only [List.mem_append, List.mem_cons, not_or]
  refine ⟨⟨fun hmem => ?_, by decide, fun hmem => ?_⟩, by decide⟩
  · exact absurd (hpage _ hmem) (by decide)
  · exact absurd (hcoord _ hmem) (by decide)

theorem prefix_of_prefix_append {w : Nlp.Text} (hw : a ∉ w) (h : w <+: s ++ a :: t) : w <+: s := by
  obtain hfront | ⟨x, rfl⟩ := List.prefix_or_prefix_of_prefix h (List.prefix_append s _)
  · exact hfront
  · rw [List.prefix_append_right_inj] at h
    rcases x with _ | ⟨b, x⟩
    · rw [List.append_nil]
    · obtain ⟨rfl, -⟩ := List.cons_prefix_cons.mp h
      exact absurd (List.mem_append_right s List.mem_cons_self) hw

/-- What begins with a letter twice, and then is without it, does not end behind the next place
where the letter stands twice. -/
theorem twice_prefix_of_prefix_append {w : Nlp.Text} (hw : a ∉ w) (hne : w ≠ []) (hs : s ≠ [])
    (h : a :: a :: w <+: s ++ a :: a :: t) : a :: a :: w <+: s := by
  rcases s with _ | ⟨b, _ | ⟨c, s⟩⟩
  · exact absurd rfl hs
  · obtain ⟨rfl, htail⟩ := List.cons_prefix_cons.mp h
    obtain ⟨-, hrest⟩ := List.cons_prefix_cons.mp htail
    obtain ⟨d, w, rfl⟩ := List.exists_cons_of_ne_nil hne
    obtain ⟨rfl, -⟩ := List.cons_prefix_cons.mp hrest
    exact absurd List.mem_cons_self hw
  · obtain ⟨rfl, htail⟩ := List.cons_prefix_cons.mp h
    obtain ⟨rfl, hrest⟩ := List.cons_prefix_cons.mp htail
    have hfront := prefix_of_prefix_append hw hrest
    exact List.cons_prefix_cons.mpr ⟨rfl, List.cons_prefix_cons.mpr ⟨rfl, hfront⟩⟩

/-- No tag begins in front of a tag and ends within it. -/
theorem positionTagAt_append_eq_none (hs : s ≠ []) (h : positionTagAt s = none) :
    positionTagAt (s ++ ("@@".toList ++ t)) = none := by
  rw [Option.eq_none_iff_forall_ne_some]
  intro tag htag
  have hnot := at_notMem_tag htag
  obtain ⟨hpages, hcoords, hpage, hcoord, hbegins⟩ := positionTagAt_some htag
  obtain ⟨r, hr⟩ := twice_prefix_of_prefix_append hnot (by simp) hs hbegins
  have hfound := @positionTagAt_append r _ _ hpages hcoords hpage hcoord
  have hsame : "@@".toList ++ tag.1 ++ '\t' :: tag.2 ++ "##".toList ++ r = s := hr
  rw [hsame, h] at hfound
  cases hfound

/-- A text without tags does not hide the tag behind it. -/
theorem tagsOf_append_of_tagFree (hs : TagFree s) :
    tagsOf (s ++ ("@@".toList ++ t)) = tagsOf ("@@".toList ++ t) := by
  induction s using Matcher.scan_induction (m := positionTag) with
  | nil => rfl
  | skip a s hat ih =>
      rw [TagFree, Matcher.scan_cons_of_none hat] at hs
      have hnone := @positionTagAt_append_eq_none (a :: s) t (List.cons_ne_nil a s) hat
      rw [List.cons_append] at hnone ⊢
      rw [tagsOf_cons_of_none hnone, ih hs]
  | found tag r hat ih =>
      rw [TagFree, Matcher.scan_spell_append hat] at hs
      cases hs

/-- A tag of digits, dots and tabs is found. -/
theorem tagsOf_tag_append (hpages : pages ≠ []) (hcoords : coords ≠ [])
    (hpage : ∀ c ∈ pages, isPageChar c) (hcoord : ∀ c ∈ coords, isCoordChar c) :
    tagsOf ("@@".toList ++ pages ++ '\t' :: coords ++ "##".toList ++ r) =
      (pages, coords) :: tagsOf r := by
  have hat : positionTag.at? (positionTag.spell (pages, coords) ++ r) = some (pages, coords) :=
    positionTagAt_append hpages hcoords hpage hcoord
  exact congrArg (fun parts => parts.2.map Prod.fst) (Matcher.scan_spell_append hat)

/-- A tag with another letter among its coordinates is not found, and nothing else in it. -/
theorem tagsOf_badTag_append (hpages : pages ≠ []) (hpage : ∀ c ∈ pages, isPageChar c)
    (hhash : '#' ∉ coords) (hat : '@' ∉ coords) {c : Char} (hc : c ∈ coords)
    (hbad : isCoordChar c = false) :
    tagsOf ("@@".toList ++ pages ++ '\t' :: coords ++ "##".toList ++ r) = tagsOf r := by
  have hnone : positionTagAt ("@@".toList ++ pages ++ '\t' :: coords ++ "##".toList ++ r) =
      none := by
    rw [Option.eq_none_iff_forall_ne_some]
    intro tag htag
    obtain ⟨-, -, hpage', hcoord', r', hr'⟩ := positionTagAt_some htag
    simp only [List.append_assoc, List.append_cancel_left_eq, List.cons_append] at hr'
    obtain ⟨-, hcoords⟩ := eq_of_append_cons hpage' hpage rfl hr'
    have hhash' : ∀ c ∈ tag.2, (c != '#') = true := fun c hmem => by
      rw [bne_iff_ne]
      rintro rfl
      exact absurd (hcoord' _ hmem) (by decide)
    obtain ⟨heq, -⟩ := eq_of_append_cons hhash'
      (fun c hmem => bne_iff_ne.mpr (ne_of_mem_of_not_mem hmem hhash)) rfl hcoords
    rw [← heq] at hc
    rw [hcoord' c hc] at hbad
    cases hbad
  have hrest : '@' ∉ pages ++ '\t' :: coords ++ "##".toList := by
    simp only [List.mem_append, List.mem_cons, not_or]
    exact ⟨⟨fun hmem => absurd (hpage _ hmem) (by decide), by decide, hat⟩, by decide⟩
  have hsecond : positionTagAt ('@' :: (pages ++ '\t' :: coords ++ "##".toList ++ r)) = none := by
    apply positionTagAt_of_not_begins
    rintro ⟨x, hx⟩
    obtain ⟨p, pages, rfl⟩ := List.exists_cons_of_ne_nil hpages
    obtain ⟨-, hx⟩ := List.cons.inj hx
    obtain ⟨rfl, -⟩ := List.cons.inj hx
    exact hrest List.mem_cons_self
  calc
    tagsOf ("@@".toList ++ pages ++ '\t' :: coords ++ "##".toList ++ r) =
        tagsOf ('@' :: (pages ++ '\t' :: coords ++ "##".toList ++ r)) := tagsOf_cons_of_none hnone
    _ = tagsOf (pages ++ '\t' :: coords ++ "##".toList ++ r) := tagsOf_cons_of_none hsecond
    _ = tagsOf r := tagsOf_append_of_notMem hrest

end Finding

/-! ## What is written and read -/

section Numbers

theorem isDigit_of_mem_toDigits {n : ℕ} {c : Char} (hc : c ∈ Nat.toDigits 10 n) :
    Nlp.isDigit c = true := by
  have hdigit := Nat.isDigit_of_mem_toDigits (by decide) le_rfl hc
  simpa [Nlp.isDigit, Char.isDigit, Char.le_def] using hdigit

theorem notMem_toDigits {n : ℕ} {c : Char} (hc : Nlp.isDigit c = false) :
    c ∉ Nat.toDigits 10 n := by
  intro hmem
  rw [isDigit_of_mem_toDigits hmem] at hc
  cases hc

theorem mem_oneDecimal {x : ℚ} {c : Char} (hc : c ∈ oneDecimal x) :
    Nlp.isDigit c = true ∨ c = '.' := by
  rcases List.mem_append.mp hc with hc | hc
  · exact Or.inl (isDigit_of_mem_toDigits hc)
  · rcases List.mem_cons.mp hc with rfl | hc
    · exact Or.inr rfl
    · exact Or.inl (isDigit_of_mem_toDigits hc)

theorem exists_roundHalfEven_eq {x : ℚ} (hx : 0 ≤ x) : ∃ n : ℕ, roundHalfEven (10 * x) = n := by
  apply Int.eq_ofNat_of_zero_le
  apply le_roundHalfEven
  push_cast
  positivity

theorem splitOn_oneDecimal {x : ℚ} {n : ℕ} (hn : roundHalfEven (10 * x) = n) :
    (oneDecimal x).splitOn '.' = [Nat.toDigits 10 (n / 10), Nat.toDigits 10 (n % 10)] := by
  have hdot : '.' ∉ Nat.toDigits 10 (n / 10) := notMem_toDigits (by decide)
  have hdot' : '.' ∉ Nat.toDigits 10 (n % 10) := notMem_toDigits (by decide)
  rw [oneDecimal, hn, Int.toNat_natCast, List.splitOn_append_cons_self_of_not_mem hdot,
    List.splitOn_eq_singleton hdot']

theorem toDigits_append_ne_nil (n m : ℕ) : Nat.toDigits 10 n ++ Nat.toDigits 10 m ≠ [] :=
  List.append_ne_nil_of_left_ne_nil Nat.toDigits_ne_nil _

/-- The digits before and behind the point are those of the number of tenths. -/
theorem ofDigitChars_tenths (n : ℕ) :
    Nat.ofDigitChars 10 (Nat.toDigits 10 (n / 10) ++ Nat.toDigits 10 (n % 10)) 0 = n := by
  have hlt : n % 10 < 10 := Nat.mod_lt n (by decide)
  rw [Nat.ofDigitChars_append, Nat.ofDigitChars_ten_toDigits, Nat.toDigits_of_lt_base hlt,
    Nat.ofDigitChars_cons_digitChar_of_lt_ten hlt, Nat.ofDigitChars_nil]
  exact Nat.div_add_mod n 10

theorem length_toDigits_mod_ten (n : ℕ) : (Nat.toDigits 10 (n % 10)).length = 1 := by
  rw [Nat.toDigits_of_lt_base (Nat.mod_lt n (by decide)), List.length_singleton]

/-- A number of tenths is read as it was written. -/
theorem pyFloat_oneDecimal {x : ℚ} (hx : 0 ≤ x) :
    pyFloat (oneDecimal x) = some (double (roundHalfEven (10 * x) / 10)) := by
  obtain ⟨n, hn⟩ := exists_roundHalfEven_eq hx
  rw [pyFloat, splitOn_oneDecimal hn]
  dsimp only
  rw [if_neg (toDigits_append_ne_nil _ _), ofDigitChars_tenths, hn, length_toDigits_mod_ten,
    pow_one, Int.cast_natCast]

theorem double_nonneg {x y : ℚ} (hx : 0 ≤ x) (h : double x = some y) : 0 ≤ y := by
  unfold double at h
  split_ifs at h
  obtain rfl := Option.some.inj h
  exact nearest_nonneg hx

theorem scaled_nonneg {size : Option ℕ+} {x y : ℚ} (hx : 0 ≤ x) (h : scaled size x = some y) :
    0 ≤ y := by
  rcases size with _ | size
  · exact double_nonneg hx h
  · simp only [scaled, Option.bind_eq_some_iff] at h
    obtain ⟨a, ha, b, hb, hy⟩ := h
    have ha := double_nonneg hx ha
    have hb := double_nonneg (by positivity) hb
    exact double_nonneg (by positivity) hy

variable {size : Option ℕ+} {x : ℚ} {c : Char}

theorem mem_formatCoord (hc : c ∈ formatCoord size x) :
    Nlp.isDigit c = true ∨ c ∈ ".-inf".toList := by
  rcases List.mem_append.mp hc with hc | hc
  · split_ifs at hc
    · obtain rfl := List.mem_singleton.mp hc
      exact Or.inr (by decide)
    · cases hc
  · rcases hv : scaled size |x| with _ | v <;> rw [hv] at hc
    · right
      have hsub : "inf".toList ⊆ ".-inf".toList := by decide
      exact hsub hc
    · rcases mem_oneDecimal hc with hc | rfl
      · exact Or.inl hc
      · exact Or.inr (by decide)

theorem formatCoord_of_scaled {v : ℚ} (hx : 0 ≤ x) (h : scaled size x = some v) :
    formatCoord size x = oneDecimal v := by
  rw [formatCoord, if_neg (not_lt.mpr hx), abs_of_nonneg hx, h]
  rfl

theorem pyFloat_formatCoord (hx : 0 ≤ x) (h : (scaled size x).isSome) :
    pyFloat (formatCoord size x) = some (rounded size x) := by
  obtain ⟨v, hv⟩ := Option.isSome_iff_exists.mp h
  rw [formatCoord_of_scaled hx hv, pyFloat_oneDecimal (scaled_nonneg hx hv), rounded, hv,
    Option.bind_some]

theorem isCoordChar_of_mem_formatCoord (hx : 0 ≤ x) (h : (scaled size x).isSome)
    (hc : c ∈ formatCoord size x) : isCoordChar c = true := by
  obtain ⟨v, hv⟩ := Option.isSome_iff_exists.mp h
  rw [formatCoord_of_scaled hx hv] at hc
  rcases mem_oneDecimal hc with hc | rfl
  · simp [isCoordChar, hc]
  · rfl

/-- Below zero there is a sign, and an infinite number has no digits. -/
theorem exists_mem_formatCoord (h : ¬ (0 ≤ x ∧ (scaled size x).isSome)) :
    ∃ c ∈ formatCoord size x, isCoordChar c = false := by
  by_cases hx : x < 0
  · exact ⟨'-', by simp [formatCoord, hx], rfl⟩
  · have hx := not_lt.mp hx
    have hnone : scaled size x = none := by
      rw [← Option.not_isSome_iff_eq_none]
      exact fun hsome => h ⟨hx, hsome⟩
    refine ⟨'i', ?_, rfl⟩
    rw [formatCoord, abs_of_nonneg hx, hnone]
    exact List.mem_append_right _ (by decide)

end Numbers

/-! ## The tags of the blocks -/

namespace Placed

variable {pageImages : List (ℕ+ × ℕ+)} {bx : Placed}

theorem isPageChar_of_mem_pageText {c : Char} (hc : c ∈ bx.pageText) : isPageChar c = true := by
  rw [isPageChar, isDigit_of_mem_toDigits hc, Bool.true_or]

theorem mem_coordText_iff {c : Char} :
    c ∈ bx.coordText pageImages ↔
      c = '\t' ∨ ∃ x ∈ bx.coords pageImages, c ∈ formatCoord x.1 x.2 := by
  simp only [coordText, coords, List.map_cons, List.map_nil, List.intercalate_cons_cons,
    List.intercalate_singleton, List.mem_append, List.mem_cons, List.not_mem_nil, or_false,
    exists_eq_or_imp, exists_eq_left]
  tauto

theorem notMem_coordText {c : Char} (hdigit : Nlp.isDigit c = false)
    (hother : c ∉ "\t.-inf".toList) : c ∉ bx.coordText pageImages := by
  intro hmem
  rcases mem_coordText_iff.mp hmem with rfl | ⟨x, -, hmem⟩
  · exact hother (by decide)
  · rcases mem_formatCoord hmem with hmem | hmem
    · rw [hdigit] at hmem
      cases hmem
    · exact hother (List.mem_cons_of_mem _ hmem)

theorem splitOn_coordText :
    (bx.coordText pageImages).splitOn '\t' =
      (bx.coords pageImages).map fun c => formatCoord c.1 c.2 := by
  refine List.splitOn_intercalate '\t' ?_ (by simp [coords])
  rintro l hl hmem
  obtain ⟨x, hx, rfl⟩ := List.mem_map.mp hl
  rcases mem_formatCoord hmem with hdigit | hother
  · exact absurd hdigit (by decide)
  · exact absurd hother (by decide)

theorem readPages_pageText : readPages bx.pageText = some [(bx.pageIdx : ℤ)] := by
  have hdash : '-' ∉ bx.pageText := notMem_toDigits (by decide)
  rw [readPages, List.splitOn_eq_singleton hdash]
  simp [pageText]

theorem readPosition_of_readable (h : bx.Readable pageImages) :
    readPosition pyFloat (bx.pageText, bx.coordText pageImages) =
      some (bx.position pageImages) := by
  simp only [Readable, coords, List.forall_mem_cons] at h
  obtain ⟨hx0, hx1, hy0, hy1, -⟩ := h
  have hsplit := @splitOn_coordText pageImages bx
  simp only [coords, List.map_cons, List.map_nil] at hsplit
  simp only [readPosition, hsplit, readPages_pageText, pyFloat_formatCoord hx0.1 hx0.2,
    pyFloat_formatCoord hx1.1 hx1.2, pyFloat_formatCoord hy0.1 hy0.2,
    pyFloat_formatCoord hy1.1 hy1.2]
  rfl

variable (pageImages bx) in
/-- The tag of a block is found, if its coordinates are readable. -/
theorem tagsOf_lineTag_append (r : Nlp.Text) :
    tagsOf (bx.lineTag pageImages ++ r) =
      (if bx.Readable pageImages then [(bx.pageText, bx.coordText pageImages)] else []) ++
        tagsOf r := by
  have hpages : bx.pageText ≠ [] := Nat.toDigits_ne_nil
  split_ifs with h
  · refine tagsOf_tag_append hpages ?_ (fun c => isPageChar_of_mem_pageText) ?_
    · exact List.ne_nil_of_mem (mem_coordText_iff.mpr (Or.inl rfl))
    · intro c hc
      rcases mem_coordText_iff.mp hc with rfl | ⟨x, hx, hc⟩
      · rfl
      · exact isCoordChar_of_mem_formatCoord (h x hx).1 (h x hx).2 hc
  · rw [Readable] at h
    push Not at h
    obtain ⟨x, hx, hbad⟩ := h
    obtain ⟨c, hc, hcoord⟩ := exists_mem_formatCoord fun hgood => hbad hgood.1 hgood.2
    have hmem := mem_coordText_iff.mpr (Or.inr ⟨x, hx, hc⟩)
    exact tagsOf_badTag_append hpages (fun c => isPageChar_of_mem_pageText)
      (notMem_coordText (by decide) (by decide)) (notMem_coordText (by decide) (by decide))
      hmem hcoord

end Placed

variable {pageImages : List (ℕ+ × ℕ+)} {sections : List (Nlp.Text × Placed)}

/-- The tags of the blocks with readable coordinates are found. -/
theorem tagsOf_sections (hfree : ∀ s ∈ sections, TagFree s.1) :
    tagsOf (sections.flatMap fun s => s.1 ++ s.2.lineTag pageImages) =
      (sections.filter fun s => s.2.Readable pageImages).map fun s =>
        (s.2.pageText, s.2.coordText pageImages) := by
  induction sections with
  | nil => rfl
  | cons s sections ih =>
      obtain ⟨hs, hsections⟩ := List.forall_mem_cons.mp hfree
      have htag : ∀ r, tagsOf (s.1 ++ s.2.lineTag pageImages ++ r) =
          tagsOf (s.2.lineTag pageImages ++ r) := fun r => by
        simpa only [Placed.lineTag, List.append_assoc] using tagsOf_append_of_tagFree hs
      rw [List.flatMap_cons, htag, Placed.tagsOf_lineTag_append, ih hsections, List.filter_cons]
      by_cases h : s.2.Readable pageImages
      · simp [h]
      · simp [h]

theorem extractPositions_eq {κ : Type} (float : Nlp.Text → Option κ) (txt : Nlp.Text) :
    extractPositions float txt = (tagsOf txt).mapM (readPosition float) := by
  rw [extractPositions, tagsOf, List.mapM_map]
  rfl

theorem extractPositions_sections (hfree : ∀ s ∈ sections, TagFree s.1) :
    extractPositions pyFloat (sections.flatMap fun s => s.1 ++ s.2.lineTag pageImages) =
      some ((sections.filter fun s => s.2.Readable pageImages).map fun s =>
        s.2.position pageImages) := by
  have hread : ∀ s ∈ sections.filter fun s => s.2.Readable pageImages,
      readPosition pyFloat (s.2.pageText, s.2.coordText pageImages) =
        some (s.2.position pageImages) := fun s hs =>
    Placed.readPosition_of_readable (of_decide_eq_true (List.mem_filter.mp hs).2)
  rw [extractPositions_eq, tagsOf_sections hfree, List.mapM_map]
  exact mapM_eq_some_map hread

/-- The positions are read again, if and only if all coordinates are readable. -/
theorem roundTrips_iff (hfree : ∀ s ∈ sections, TagFree s.1) :
    RoundTrips pageImages sections ↔ ∀ s ∈ sections, s.2.Readable pageImages := by
  rw [RoundTrips, extractPositions_sections hfree, Option.some_inj]
  constructor
  · intro h
    have hlen := congrArg List.length h
    rw [List.length_map, List.length_map, List.length_filter_eq_length_iff] at hlen
    exact fun s hs => of_decide_eq_true (hlen s hs)
  · intro h
    rw [List.filter_eq_self.mpr fun s hs => decide_eq_true (h s hs)]

/-- A block that begins left of its page. -/
def leftOfPage : Placed := ⟨0, some ⟨-1, 0, 10, 10⟩⟩

theorem roundTrips_iff_leftOfPage :
    RoundTrips [(600, 800)] [("Figure 1".toList, leftOfPage)] ↔
      ∀ s ∈ [("Figure 1".toList, leftOfPage)], s.2.Readable [(600, 800)] :=
  roundTrips_iff (by simp only [List.forall_mem_singleton]; rfl)

/-- The position of a block that begins left of its page is lost. -/
theorem not_roundTrips_leftOfPage :
    ¬ ∀ (pageImages : List (ℕ+ × ℕ+)) (sections : List (Nlp.Text × Placed)),
      (∀ s ∈ sections, TagFree s.1) → RoundTrips pageImages sections := by
  intro h
  have hfree : ∀ s ∈ [(([] : Nlp.Text), leftOfPage)], TagFree s.1 := by
    simp only [List.forall_mem_singleton]
    rfl
  have hoff : ¬ leftOfPage.Readable [] := by
    intro hon
    have hleft := (hon (none, -1) (by decide)).1
    norm_num at hleft
  have hread := h [] _ hfree
  rw [RoundTrips, extractPositions_sections hfree, List.filter_cons_of_neg (by simpa using hoff)]
    at hread
  cases hread

end RagflowMineru.Deepdoc
