import RagflowMineru.Nlp.Delimiters

/-!
# The context of a table

The sections of a document are put into buckets by their pages.  A table looks for its
place among the blocks of its pages, and text is collected from there, upwards and
downwards over pages that follow each other, until there are enough tokens.  A table
that has not changed afterwards is taken for one whose place was not found.
-/

namespace RagflowMineru.Nlp

open RagflowMineru.Library

variable {κ μ : Type}

/-! ## Sections and their positions -/

/-- A page of a position, or the pages of a tag. -/
inductive Pages where
  | one (page : ℤ)
  | many (pages : List ℤ)

/-- `page[0] if page else 0` -/
def Pages.first : Pages → ℤ
  | one page => page
  | many pages => pages.headD 0

structure Position (κ : Type) where
  page : Pages
  left : κ
  right : κ
  top : κ
  bottom : κ

/-- What comes with the text of a section: positions, a tag of them, or something else. -/
inductive Poss (κ : Type) where
  | list (poss : List (Position κ))
  | tag (poss : Text)
  | other

structure PlacedSection (κ : Type) where
  txt : Text
  poss : Poss κ := .tag []

/-- `[0-9-]` -/
def isPageChar (c : Char) : Bool :=
  isDigit c || c = '-'

/-- `[0-9.\t]` -/
def isCoordChar (c : Char) : Bool :=
  isDigit c || c = '.' || c = '\t'

/-- A tag at the start of a text, as `@@[0-9-]+\t[0-9.\t]+##` matches it: the pages and the
coordinates. -/
def positionTagAt (s : Text) : Option (Text × Text) :=
  let pages := (s.drop 2).takeWhile isPageChar
  let coords := (s.drop (2 + pages.length + 1)).takeWhile isCoordChar
  if pages ≠ [] ∧ coords ≠ [] ∧ "@@".toList ++ pages ++ '\t' :: coords ++ "##".toList <+: s then
    some (pages, coords)
  else none

def positionTag : Matcher Char (Text × Text) where
  at? := positionTagAt
  spell tag := "@@".toList ++ tag.1 ++ '\t' :: tag.2 ++ "##".toList
  spell_ne_nil _ := by simp
  spell_begins h := by
    dsimp only [positionTagAt] at h
    split_ifs at h with htag
    obtain rfl := Option.some.inj h
    exact htag.2.2

/-- `[int(p) - 1 for p in pn.split("-")]`; `none` is an exception. -/
def readPages (pn : Text) : Option (List ℤ) :=
  (pn.splitOn '-').mapM fun p => if p = [] then none else some ((Nat.ofDigitChars 10 p 0 : ℤ) - 1)

/-- One position; `float` is the built-in function. -/
def readPosition (float : Text → Option κ) (tag : Text × Text) : Option (Position κ) := do
  let [left, right, top, bottom] := tag.2.splitOn '\t' | none
  let left ← float left
  let right ← float right
  let top ← float top
  let bottom ← float bottom
  let pages ← readPages tag.1
  some ⟨.many pages, left, right, top, bottom⟩

/-- `RAGFlowPdfParser.extract_positions`. -/
def extractPositions (float : Text → Option κ) (txt : Text) : Option (List (Position κ)) :=
  (positionTag.scan txt).2.mapM fun part => readPosition float part.1

/-- `"@@" in txt` -/
def hasAt (txt : Text) : Bool :=
  decide ("@@".toList <:+: txt)

def PlacedSection.positions (float : Text → Option κ) (item : PlacedSection κ) :
    Option (List (Position κ)) :=
  match item.poss with
  | .list poss => some poss
  | .tag poss => extractPositions float (if !hasAt poss && hasAt item.txt then item.txt else poss)
  | .other => if hasAt item.txt then extractPositions float item.txt else some []

/-- The text without its tags. -/
def PlacedSection.text (item : PlacedSection κ) : Text :=
  if hasAt item.txt then
    strip (joinAll (fun _ => []) (positionTag.scan item.txt).1 (positionTag.scan item.txt).2)
  else item.txt

/-! ## Buckets -/

/-- Where a text is on its page. -/
structure PageBlock (κ : Type) where
  left : κ
  right : κ
  top : κ
  bottom : κ
  txt : Text

/-- `page_bucket`: the blocks of each page, none for a page that it does not have. -/
abbrev PageBucket (κ : Type) := List (ℤ × PageBlock κ)

def PlacedSection.blocks (float : Text → Option κ) (item : PlacedSection κ) : Option (PageBucket κ) :=
  (item.positions float).map fun poss => poss.map fun pos =>
    (pos.page.first, ⟨pos.left, pos.right, pos.top, pos.bottom, item.text⟩)

def pageBucket (float : Text → Option κ) (sections : List (PlacedSection κ)) :
    Option (PageBucket κ) :=
  (sections.mapM (PlacedSection.blocks float)).map List.flatten

/-- `page_bucket[page]`; a page that the bucket has is not empty. -/
def PageBucket.blks (bucket : PageBucket κ) (page : ℤ) : List (PageBlock κ) :=
  (bucket.filter (·.1 = page)).map Prod.snd

/-! ## Contexts -/

/-- `[。!?？；！\n]|\. ` -/
def contextMark : Matcher Char Text where
  at? s :=
    match s with
    | c :: s =>
        if c ∈ "。!?？；！\n".toList then some [c]
        else if c = '.' ∧ s.head? = some ' ' then some ". ".toList
        else none
    | [] => none
  spell := id
  spell_ne_nil {s t} h := by
    rcases s with _ | ⟨c, s⟩
    · simp at h
    · dsimp only at h
      split_ifs at h <;> obtain rfl := Option.some.inj h <;> simp
  spell_begins {s t} h := by
    rcases s with _ | ⟨c, s⟩
    · simp at h
    · dsimp only at h
      split_ifs at h with hmark hstop
      · obtain rfl := Option.some.inj h
        exact ⟨s, rfl⟩
      · obtain rfl := Option.some.inj h
        obtain ⟨rfl, hspace⟩ := hstop
        obtain ⟨rest, rfl⟩ := List.head?_eq_some_iff.mp hspace
        exact ⟨rest, rfl⟩

section Contexts

variable (numTokens : Text → ℕ) (tableContextSize : ℤ) (bucket : PageBucket κ)

/-- The parts of a text from its end on, each text with the mark before it, in front of `txt`. -/
def prependParts : List Text → Text → Text
  | [], txt => txt
  | [s], txt => s ++ txt
  | s :: mark :: rest, txt =>
      let txt := mark ++ s ++ txt
      if tableContextSize < numTokens txt then txt else prependParts rest txt

/-- The parts of a text from its start on, each text with the mark behind it, behind `txt`. -/
def appendParts : List Text → Text → Text
  | [], txt => txt
  | [s], txt => txt ++ s
  | s :: mark :: rest, txt =>
      let txt := txt ++ (s ++ mark)
      if tableContextSize < numTokens txt then txt else appendParts rest txt

/-- The loop of `upper_context`, which is at a block or above all blocks of the page. -/
def upperLoop (page i : ℤ) (txt : Text) : Text :=
  if numTokens txt < tableContextSize then
    match i with
    | .ofNat k =>
        match (bucket.blks page)[k]? with
        | some blk =>
            upperLoop page ((k : ℤ) - 1)
              (prependParts numTokens tableContextSize (contextMark.split blk.txt).reverse txt)
        | none => txt
    | .negSucc _ =>
        if page - 1 < 0 ∨ bucket.blks (page - 1) = [] then txt
        else upperLoop (page - 1) ((bucket.blks (page - 1)).length - 1) txt
  else txt
termination_by (page.toNat, (i + 1).toNat)
decreasing_by
  · apply Prod.Lex.right
    simp only [Int.ofNat_eq_natCast]
    omega
  · exact Prod.Lex.left _ _ (by omega)

def upperContext (page i : ℤ) : Text :=
  upperLoop numTokens tableContextSize bucket page (if bucket.blks page = [] then -1 else i) []

/-- The entries of a bucket on later pages. -/
def PageBucket.later (page : ℤ) : ℕ :=
  (bucket.filter (page < ·.1)).length

theorem PageBucket.later_succ_lt {page : ℤ} (h : bucket.blks (page + 1) ≠ []) :
    bucket.later (page + 1) < bucket.later page := by
  obtain ⟨blk, hblk⟩ := List.exists_mem_of_ne_nil _ h
  obtain ⟨entry, hentry, -⟩ := List.mem_map.mp hblk
  obtain ⟨hmem, hpage⟩ := List.mem_filter.mp hentry
  have hpage := of_decide_eq_true hpage
  have hsub : bucket.filter (page + 1 < ·.1) =
      (bucket.filter (page < ·.1)).filter (page + 1 < ·.1) := by
    rw [List.filter_filter]
    apply List.filter_congr
    intro entry _
    simp only [← Bool.decide_and, decide_eq_decide]
    omega
  rw [later, later, hsub, List.length_filter_lt_length_iff_exists]
  exact ⟨entry, List.mem_filter.mpr ⟨hmem, decide_eq_true (by omega)⟩,
    by rw [decide_eq_true_eq]; omega⟩

/-- The loop of `lower_context`. -/
def lowerLoop (page : ℤ) (i : ℕ) (txt : Text) : Text :=
  if numTokens txt < tableContextSize then
    match h : (bucket.blks page)[i]? with
    | some blk =>
        lowerLoop page (i + 1)
          (appendParts numTokens tableContextSize (contextMark.split blk.txt) txt)
    | none =>
        if h : bucket.blks (page + 1) = [] then txt
        else lowerLoop (page + 1) 0 txt
  else txt
termination_by (bucket.later page, (bucket.blks page).length - i)
decreasing_by
  · have hlt := (List.getElem?_eq_some_iff.mp h).1
    exact Prod.Lex.right _ (by omega)
  · exact Prod.Lex.left _ _ (bucket.later_succ_lt h)

def lowerContext (page : ℤ) (i : ℕ) : Text :=
  if bucket.blks page = [] then [] else lowerLoop numTokens tableContextSize bucket page i []

end Contexts

/-! ## Tables -/

structure TablePosition (κ : Type) where
  page : ℤ
  left : κ
  right : κ
  top : κ
  bott : κ

/-- The text of a table, or its lines. -/
inductive TableContent where
  | text (tb : Text)
  | lines (tb : List Text)

/-- `"\n".join(tb)` for a list. -/
def TableContent.joined : TableContent → Text
  | text tb => tb
  | lines tb => ['\n'].intercalate tb

structure Tabl (κ μ : Type) where
  img : μ
  tb : TableContent
  poss : List (TablePosition κ)

section Append

variable [LinearOrder κ] (numTokens : Text → ℕ) (tableContextSize : ℤ) (bucket : PageBucket κ)

/-- The search for the place of a table that goes from its position `first` to `last`: the page
where it ends, and the contexts if the place is found. -/
def scanLoop (first last : TablePosition κ) (page : ℤ) (i : ℕ) : ℤ × Option (Text × Text) :=
  match _hblk : (bucket.blks page)[i]? with
  | none => (page, none)
  | some blk =>
      match (bucket.blks page)[i + 1]? with
      | none =>
          if page < last.page then scanLoop first last (page + 1) 0
          else (page, some (upperContext numTokens tableContextSize bucket page i,
            lowerContext numTokens tableContextSize bucket (page + 1) 0))
      | some next =>
          if first.top < blk.bottom then (page, none)
          else if next.top < last.bott then scanLoop first last page (i + 1)
          else (page, some (upperContext numTokens tableContextSize bucket page i,
            lowerContext numTokens tableContextSize bucket page i))
termination_by ((last.page - page).toNat, (bucket.blks page).length - i)
decreasing_by
  · exact Prod.Lex.left _ _ (by omega)
  · have hlt := (List.getElem?_eq_some_iff.mp _hblk).1
    exact Prod.Lex.right _ (by omega)

/-- `contexts` and `res`. -/
structure Appended (κ μ : Type) where
  contexts : List (Text × Text) := []
  res : List (Tabl κ μ) := []

def stripBoth (context : Text × Text) : Text × Text :=
  (strip context.1, strip context.2)

/-- One table; a table without positions is an exception. -/
def appendTable (st : Appended κ μ) (tabl : Tabl κ μ) : Option (Appended κ μ) := do
  let first ← tabl.poss.head?
  let last ← tabl.poss.getLast?
  let tb := tabl.tb.joined
  let (page, found) := scanLoop numTokens tableContextSize bucket first last first.page 0
  let tb' := match found with
    | some (upper, lower) => upper ++ tb ++ lower
    | none => tb
  let contexts := st.contexts ++ (found.map stripBoth).toList
  let upper := upperContext numTokens tableContextSize bucket page (-1)
  let lower := lowerContext numTokens tableContextSize bucket (page + 1) 0
  let (tb', contexts) :=
    if tb = tb' then (upper ++ tb' ++ lower, contexts ++ [stripBoth (upper, lower)])
    else (tb', contexts)
  let contexts := if contexts.length < st.res.length + 1 then contexts ++ [([], [])] else contexts
  some ⟨contexts, st.res ++ [{ tabl with tb := .text tb' }]⟩

end Append

/-- `append_context2table_image4pdf`: its contexts and its tables, of which it returns one or the
other; `none` is an exception. -/
def appendContext2TableImage4Pdf [LinearOrder κ] (float : Text → Option κ)
    (numTokens : Text → ℕ) (sections : List (PlacedSection κ)) (tabls : List (Tabl κ μ))
    (tableContextSize : ℤ) : Option (Appended κ μ) :=
  if tableContextSize ≤ 0 then some ⟨[], tabls⟩
  else (pageBucket float sections).bind fun bucket =>
    tabls.foldlM (appendTable numTokens tableContextSize bucket) {}

/-! ## When a context is empty -/

theorem split_eq_nil_iff (txt : Text) :
    (contextMark.split txt).reverse.flatten = [] ↔ txt = [] := by
  rw [List.flatten_eq_nil_iff]
  simp only [List.mem_reverse]
  rw [← List.flatten_eq_nil_iff, Matcher.flatten_split]

section Gaps

variable {bucket : PageBucket κ}

/-- The blocks of a page up to the one at `i`, and those of the pages before that follow each
other, are empty. -/
def BlankAbove (bucket : PageBucket κ) (page i : ℤ) : Prop :=
  (∀ k : ℕ, (k : ℤ) ≤ i → ∀ blk, (bucket.blks page)[k]? = some blk → blk.txt = []) ∧
    ∀ q, 0 ≤ q → q < page → (∀ r, q ≤ r → r < page → bucket.blks r ≠ []) →
      ∀ blk ∈ bucket.blks q, blk.txt = []

/-- The blocks of a page from the one at `i` on, and those of the pages behind that follow each
other, are empty. -/
def BlankBelow (bucket : PageBucket κ) (page : ℤ) (i : ℕ) : Prop :=
  (∀ k, i ≤ k → ∀ blk, (bucket.blks page)[k]? = some blk → blk.txt = []) ∧
    ∀ q, page < q → (∀ r, page < r → r ≤ q → bucket.blks r ≠ []) →
      ∀ blk ∈ bucket.blks q, blk.txt = []

/-- Above a page without blocks there is no context. -/
theorem blankAbove_of_gap {page i : ℤ} (hi : i < 0)
    (hgap : page - 1 < 0 ∨ bucket.blks (page - 1) = []) : BlankAbove bucket page i := by
  refine ⟨fun k hk => by omega, fun q hq hlt hfollow => ?_⟩
  rcases hgap with hgap | hgap
  · omega
  · exact absurd hgap (hfollow (page - 1) (by omega) (by omega))

theorem blankAbove_iff_before {page i : ℤ} (hi : i < 0) (hpage : 0 ≤ page - 1)
    (hne : bucket.blks (page - 1) ≠ []) :
    BlankAbove bucket page i ↔
      BlankAbove bucket (page - 1) ((bucket.blks (page - 1)).length - 1) := by
  constructor
  · rintro ⟨-, hbefore⟩
    refine ⟨fun k _ blk hblk => ?_, fun q hq hlt hfollow => ?_⟩
    · refine hbefore (page - 1) hpage (by omega) (fun r hr hr' => ?_) blk
        (List.mem_of_getElem? hblk)
      obtain rfl : r = page - 1 := by omega
      exact hne
    · refine hbefore q hq (by omega) fun r hr hr' => ?_
      by_cases hlast : r = page - 1
      · rw [hlast]
        exact hne
      · exact hfollow r hr (by omega)
  · rintro ⟨hblks, hbefore⟩
    refine ⟨fun k hk => by omega, fun q hq hlt hfollow => ?_⟩
    by_cases hlast : q = page - 1
    · subst hlast
      intro blk hblk
      obtain ⟨k, hk⟩ := List.mem_iff_getElem?.mp hblk
      have hlen := (List.getElem?_eq_some_iff.mp hk).1
      exact hblks k (by omega) blk hk
    · exact hbefore q hq (by omega) fun r hr hr' => hfollow r hr (by omega)

theorem blankAbove_iff_of_block {page : ℤ} {k : ℕ} {blk : PageBlock κ}
    (hblk : (bucket.blks page)[k]? = some blk) :
    BlankAbove bucket page k ↔ blk.txt = [] ∧ BlankAbove bucket page ((k : ℤ) - 1) := by
  constructor
  · rintro ⟨hblks, hbefore⟩
    exact ⟨hblks k le_rfl blk hblk, fun k' hk' => hblks k' (by omega), hbefore⟩
  · rintro ⟨hempty, hblks, hbefore⟩
    refine ⟨fun k' hk' blk' hblk' => ?_, hbefore⟩
    by_cases hlast : k' = k
    · subst hlast
      obtain rfl := Option.some.inj (hblk.symm.trans hblk')
      exact hempty
    · exact hblks k' (by omega) blk' hblk'

theorem blankBelow_of_gap {page : ℤ} {i : ℕ} (hi : (bucket.blks page)[i]? = none)
    (hgap : bucket.blks (page + 1) = []) : BlankBelow bucket page i := by
  refine ⟨fun k hk blk hblk => ?_, fun q hlt hfollow => ?_⟩
  · have hlen := (List.getElem?_eq_some_iff.mp hblk).1
    rw [List.getElem?_eq_none_iff] at hi
    omega
  · exact absurd hgap (hfollow (page + 1) (by omega) (by omega))

theorem blankBelow_iff_after {page : ℤ} {i : ℕ} (hi : (bucket.blks page)[i]? = none)
    (hne : bucket.blks (page + 1) ≠ []) :
    BlankBelow bucket page i ↔ BlankBelow bucket (page + 1) 0 := by
  constructor
  · rintro ⟨-, hafter⟩
    refine ⟨fun k _ blk hblk => ?_, fun q hlt hfollow => ?_⟩
    · refine hafter (page + 1) (by omega) (fun r hr hr' => ?_) blk (List.mem_of_getElem? hblk)
      obtain rfl : r = page + 1 := by omega
      exact hne
    · refine hafter q (by omega) fun r hr hr' => ?_
      by_cases hfirst : r = page + 1
      · rw [hfirst]
        exact hne
      · exact hfollow r (by omega) hr'
  · rintro ⟨hblks, hafter⟩
    refine ⟨fun k hk blk hblk => ?_, fun q hlt hfollow => ?_⟩
    · have hlen := (List.getElem?_eq_some_iff.mp hblk).1
      rw [List.getElem?_eq_none_iff] at hi
      omega
    · by_cases hfirst : q = page + 1
      · subst hfirst
        intro blk hblk
        obtain ⟨k, hk⟩ := List.mem_iff_getElem?.mp hblk
        exact hblks k (Nat.zero_le k) blk hk
      · exact hafter q (by omega) fun r hr hr' => hfollow r (by omega) hr'

theorem blankBelow_iff_of_block {page : ℤ} {i : ℕ} {blk : PageBlock κ}
    (hblk : (bucket.blks page)[i]? = some blk) :
    BlankBelow bucket page i ↔ blk.txt = [] ∧ BlankBelow bucket page (i + 1) := by
  constructor
  · rintro ⟨hblks, hafter⟩
    exact ⟨hblks i le_rfl blk hblk, fun k hk => hblks k (by omega), hafter⟩
  · rintro ⟨hempty, hblks, hafter⟩
    refine ⟨fun k hk blk' hblk' => ?_, hafter⟩
    by_cases hfirst : k = i
    · subst hfirst
      obtain rfl := Option.some.inj (hblk.symm.trans hblk')
      exact hempty
    · exact hblks k (by omega) blk' hblk'

end Gaps

section Blank

variable {numTokens : Text → ℕ} {tableContextSize : ℤ} {bucket : PageBucket κ}
  (hnil : numTokens [] = 0) (hsize : 0 < tableContextSize)
include hnil hsize

theorem ne_nil_of_size_lt {txt : Text} (h : tableContextSize < numTokens txt) : txt ≠ [] := by
  rintro rfl
  rw [hnil] at h
  omega

theorem prependParts_eq_nil_iff (parts : List Text) (txt : Text) :
    prependParts numTokens tableContextSize parts txt = [] ↔ parts.flatten = [] ∧ txt = [] := by
  fun_induction prependParts numTokens tableContextSize parts txt with
  | case1 txt => simp
  | case2 s txt => simp
  | case3 s mark rest txt txt' hlong =>
      have hne := ne_nil_of_size_lt hnil hsize hlong
      refine iff_of_false hne fun h => hne ?_
      simp only [List.flatten_cons, List.append_eq_nil_iff] at h
      simp [txt', h]
  | case4 s mark rest txt txt' _ ih =>
      rw [ih]
      simp [txt']
      tauto

theorem appendParts_eq_nil_iff (parts : List Text) (txt : Text) :
    appendParts numTokens tableContextSize parts txt = [] ↔ parts.flatten = [] ∧ txt = [] := by
  fun_induction appendParts numTokens tableContextSize parts txt with
  | case1 txt => simp
  | case2 s txt => simp [and_comm]
  | case3 s mark rest txt txt' hlong =>
      have hne := ne_nil_of_size_lt hnil hsize hlong
      refine iff_of_false hne fun h => hne ?_
      simp only [List.flatten_cons, List.append_eq_nil_iff] at h
      simp [txt', h]
  | case4 s mark rest txt txt' _ ih =>
      rw [ih]
      simp [txt']
      tauto

theorem upperLoop_eq_nil_iff {page i : ℤ} (hi : i < (bucket.blks page).length) (txt : Text) :
    upperLoop numTokens tableContextSize bucket page i txt = [] ↔
      txt = [] ∧ BlankAbove bucket page i := by
  fun_induction upperLoop numTokens tableContextSize bucket page i txt with
  | case1 page txt hshort k blk hblk ih =>
      have hlen := (List.getElem?_eq_some_iff.mp hblk).1
      rw [ih (by omega), @prependParts_eq_nil_iff numTokens tableContextSize hnil hsize,
        split_eq_nil_iff,
        Int.ofNat_eq_natCast, blankAbove_iff_of_block hblk]
      tauto
  | case2 page txt hshort k hblk =>
      rw [List.getElem?_eq_none_iff] at hblk
      simp only [Int.ofNat_eq_natCast] at hi
      omega
  | case3 page txt hshort k hgap =>
      exact (and_iff_left (blankAbove_of_gap (Int.negSucc_lt_zero k) hgap)).symm
  | case4 page txt hshort k hgap ih =>
      obtain ⟨hpage, hne⟩ := not_or.mp hgap
      rw [ih (by omega), blankAbove_iff_before (Int.negSucc_lt_zero k) (by omega) hne]
  | case5 page i txt hlong =>
      have hne : txt ≠ [] := by
        rintro rfl
        rw [hnil] at hlong
        exact hlong (by exact_mod_cast hsize)
      exact iff_of_false hne fun h => hne h.1

theorem upperContext_eq_nil_iff {page i : ℤ} (hi : i < (bucket.blks page).length) :
    upperContext numTokens tableContextSize bucket page i = [] ↔ BlankAbove bucket page i := by
  rw [upperContext]
  split_ifs with hpage
  · rw [upperLoop_eq_nil_iff hnil hsize (by omega), and_iff_right rfl]
    rw [BlankAbove, BlankAbove, hpage]
    simp
  · rw [upperLoop_eq_nil_iff hnil hsize hi, and_iff_right rfl]

theorem lowerLoop_eq_nil_iff (page : ℤ) (i : ℕ) (txt : Text) :
    lowerLoop numTokens tableContextSize bucket page i txt = [] ↔
      txt = [] ∧ BlankBelow bucket page i := by
  fun_induction lowerLoop numTokens tableContextSize bucket page i txt with
  | case1 page i txt hshort blk hblk ih =>
      rw [ih, @appendParts_eq_nil_iff numTokens tableContextSize hnil hsize, Matcher.flatten_split,
        blankBelow_iff_of_block hblk]
      tauto
  | case2 page i txt hshort hi hgap =>
      exact (and_iff_left (blankBelow_of_gap hi hgap)).symm
  | case3 page i txt hshort hi hne ih =>
      rw [ih, blankBelow_iff_after hi hne]
  | case4 page i txt hlong =>
      have hne : txt ≠ [] := by
        rintro rfl
        rw [hnil] at hlong
        exact hlong (by exact_mod_cast hsize)
      exact iff_of_false hne fun h => hne h.1

/-- Below the last block of a page begins the next page. -/
theorem lowerContext_succ_eq_nil_iff {page : ℤ} {i : ℕ} (hi : (bucket.blks page)[i]? = none) :
    lowerContext numTokens tableContextSize bucket (page + 1) 0 = [] ↔
      BlankBelow bucket page i := by
  rw [lowerContext]
  split_ifs with hpage
  · exact iff_of_true rfl (blankBelow_of_gap hi hpage)
  · rw [lowerLoop_eq_nil_iff hnil hsize, and_iff_right rfl, blankBelow_iff_after hi hpage]

theorem lowerContext_eq_nil_iff {page : ℤ} {i : ℕ} {blk : PageBlock κ}
    (hblk : (bucket.blks page)[i]? = some blk) :
    lowerContext numTokens tableContextSize bucket page i = [] ↔ BlankBelow bucket page i := by
  have hpage : bucket.blks page ≠ [] := List.ne_nil_of_mem (List.mem_of_getElem? hblk)
  rw [lowerContext, if_neg hpage, lowerLoop_eq_nil_iff hnil hsize, and_iff_right rfl]

end Blank

/-! ## The place of a table -/

/-- The page, and the pages that follow each other next to it, have no text. -/
def BlankAround (bucket : PageBucket κ) (page : ℤ) : Prop :=
  ∀ q, (q < page → 0 ≤ q) → (∀ r, min page q ≤ r → r ≤ max page q → bucket.blks r ≠ []) →
    ∀ blk ∈ bucket.blks q, blk.txt = []

theorem blankAround_iff {bucket : PageBucket κ} {page : ℤ} {i : ℕ} {blk : PageBlock κ}
    (hblk : (bucket.blks page)[i]? = some blk) :
    BlankAround bucket page ↔ BlankAbove bucket page i ∧ BlankBelow bucket page (i + 1) := by
  have hpage : bucket.blks page ≠ [] := List.ne_nil_of_mem (List.mem_of_getElem? hblk)
  constructor
  · intro h
    have hself : ∀ (k : ℕ) (blk : PageBlock κ), (bucket.blks page)[k]? = some blk →
        blk.txt = [] := by
      intro k blk hblk
      refine h page (fun hlt => absurd hlt (lt_irrefl _)) (fun r hr hr' => ?_) blk
        (List.mem_of_getElem? hblk)
      obtain rfl : r = page := by omega
      exact hpage
    refine ⟨⟨fun k _ => hself k, fun q hq hlt hfollow => ?_⟩,
      ⟨fun k _ => hself k, fun q hlt hfollow => ?_⟩⟩
    · refine h q (fun _ => hq) fun r hr hr' => ?_
      by_cases hlast : r = page
      · rwa [hlast]
      · exact hfollow r (by omega) (by omega)
    · refine h q (fun hlt' => by omega) fun r hr hr' => ?_
      by_cases hfirst : r = page
      · rwa [hfirst]
      · exact hfollow r (by omega) (by omega)
  · rintro ⟨⟨habove, hbefore⟩, ⟨hbelow, hafter⟩⟩ q hq hfollow
    rcases lt_trichotomy q page with hlt | rfl | hlt
    · exact hbefore q (hq hlt) hlt fun r hr hr' => hfollow r (by omega) (by omega)
    · intro blk' hblk'
      obtain ⟨k, hk⟩ := List.mem_iff_getElem?.mp hblk'
      by_cases hle : k ≤ i
      · exact habove k (by omega) blk' hk
      · exact hbelow k (by omega) blk' hk
    · exact hafter q hlt fun r hr hr' => hfollow r (by omega) (by omega)

section Place

variable [LinearOrder κ] {bucket : PageBucket κ} {first last : TablePosition κ}

/-- The blocks of a page before the one at `i` end above the table, and the blocks behind each of
them begin above its bottom. -/
def Passes (bucket : PageBucket κ) (first last : TablePosition κ) (page : ℤ) (i : ℕ) : Prop :=
  ∀ k < i, ∀ blk next, (bucket.blks page)[k]? = some blk →
    (bucket.blks page)[k + 1]? = some next → ¬ first.top < blk.bottom ∧ next.top < last.bott

/-- The pages from the first one of the table up to `page` are passed. -/
def Walks (bucket : PageBucket κ) (first last : TablePosition κ) (page : ℤ) : Prop :=
  first.page ≤ page ∧ ∀ q, first.page ≤ q → q < page →
    q < last.page ∧ bucket.blks q ≠ [] ∧ Passes bucket first last q (bucket.blks q).length

/-- The place of a table is behind a block: all before is passed, and it is the last one of the
last page, or it ends above the table and the next one begins below. -/
structure PlaceAt (bucket : PageBucket κ) (first last : TablePosition κ) (page : ℤ) (i : ℕ) :
    Prop where
  walks : Walks bucket first last page
  passes : Passes bucket first last page i
  found : ∃ blk, (bucket.blks page)[i]? = some blk ∧
    ((bucket.blks page)[i + 1]? = none ∧ last.page ≤ page ∨
      ∃ next, (bucket.blks page)[i + 1]? = some next ∧ ¬ first.top < blk.bottom ∧
        ¬ next.top < last.bott)

/-- A page with a place is not passed. -/
theorem PlaceAt.le_of_walks {p p' : ℤ} {i : ℕ} (h : PlaceAt bucket first last p i)
    (hwalks : Walks bucket first last p') : p' ≤ p := by
  by_contra hlt
  rw [not_le] at hlt
  obtain ⟨hpage, -, hpasses⟩ := hwalks.2 p h.walks.1 hlt
  obtain ⟨blk, hblk, ⟨-, hle⟩ | ⟨next, hnext, -, hbelow⟩⟩ := h.found
  · omega
  · have hlen := (List.getElem?_eq_some_iff.mp hblk).1
    exact hbelow (hpasses i hlen blk next hblk hnext).2

theorem PlaceAt.page_unique {p p' : ℤ} {i i' : ℕ} (h : PlaceAt bucket first last p i)
    (h' : PlaceAt bucket first last p' i') : p = p' :=
  le_antisymm (h'.le_of_walks h.walks) (h.le_of_walks h'.walks)

/-- At a block that reaches below the top of the table the search ends without a place. -/
theorem PlaceAt.not_of_block {page : ℤ} {k i : ℕ} {blk next : PageBlock κ}
    (h : PlaceAt bucket first last page k) (hpasses : Passes bucket first last page i)
    (hblk : (bucket.blks page)[i]? = some blk) (hnext : (bucket.blks page)[i + 1]? = some next)
    (hbelow : first.top < blk.bottom) : False := by
  obtain ⟨blk', hblk', hfound⟩ := h.found
  rcases lt_trichotomy k i with hlt | rfl | hlt
  · rcases hfound with ⟨hend, -⟩ | ⟨next', hnext', -, hbelow'⟩
    · rw [List.getElem?_eq_none_iff] at hend
      have hlen := (List.getElem?_eq_some_iff.mp hblk).1
      omega
    · exact hbelow' (hpasses k hlt blk' next' hblk' hnext').2
  · rcases hfound with ⟨hend, -⟩ | ⟨next', -, habove, -⟩
    · rw [hnext] at hend
      simp at hend
    · obtain rfl := Option.some.inj (hblk.symm.trans hblk')
      exact habove hbelow
  · exact (h.passes i hlt blk next hblk hnext).1 hbelow

/-- Behind the last block of a page that is not the last one the search goes on. -/
theorem Walks.succ {page : ℤ} {i : ℕ} {blk : PageBlock κ} (h : Walks bucket first last page)
    (hpasses : Passes bucket first last page i) (hblk : (bucket.blks page)[i]? = some blk)
    (hend : (bucket.blks page)[i + 1]? = none) (hlt : page < last.page) :
    Walks bucket first last (page + 1) := by
  refine ⟨by have := h.1; omega, fun q hq hq' => ?_⟩
  by_cases hlast : q = page
  · subst hlast
    refine ⟨hlt, List.ne_nil_of_mem (List.mem_of_getElem? hblk), fun k _ => ?_⟩
    by_cases hk : k < i
    · exact hpasses k hk
    · intro blk' next _ hnext
      have hlen := (List.getElem?_eq_some_iff.mp hnext).1
      rw [List.getElem?_eq_none_iff] at hend
      omega
  · exact h.2 q hq (by omega)

variable {numTokens : Text → ℕ} {tableContextSize : ℤ}

/-- The search finds the place if there is one, and the contexts there are empty if there is no
text around. -/
theorem scanLoop_spec (hnil : numTokens [] = 0) (hsize : 0 < tableContextSize) (page : ℤ) (i : ℕ)
    (hwalks : Walks bucket first last page) (hpasses : Passes bucket first last page i)
    (hi : i < (bucket.blks page).length ∨ i = 0) :
    (∃ p k context, PlaceAt bucket first last p k ∧
      scanLoop numTokens tableContextSize bucket first last page i = (p, some context) ∧
      (context.1 = [] ∧ context.2 = [] ↔ BlankAround bucket p)) ∨
    ∃ p, scanLoop numTokens tableContextSize bucket first last page i = (p, none) ∧
      ∀ p k, ¬ PlaceAt bucket first last p k := by
  fun_induction scanLoop numTokens tableContextSize bucket first last page i with
  | case1 page i hblk =>
      -- a page without blocks
      refine Or.inr ⟨page, rfl, fun p k hplace => ?_⟩
      have hempty : bucket.blks page = [] := by
        rw [List.getElem?_eq_none_iff] at hblk
        exact List.eq_nil_of_length_eq_zero (by omega)
      have hle := hplace.le_of_walks hwalks
      by_cases heq : p = page
      · obtain ⟨blk, hfound, -⟩ := hplace.found
        rw [heq, hempty] at hfound
        simp at hfound
      · exact (hplace.walks.2 page hwalks.1 (by omega)).2.1 hempty
  | case2 page i blk hblk hend hlt ih =>
      refine ih (hwalks.succ hpasses hblk hend hlt) ?_ (Or.inr rfl)
      exact fun k hk => absurd hk (Nat.not_lt_zero k)
  | case3 page i blk hblk hend hle =>
      have hlen := (List.getElem?_eq_some_iff.mp hblk).1
      refine Or.inl ⟨page, i, _,
        ⟨hwalks, hpasses, blk, hblk, Or.inl ⟨hend, not_lt.mp hle⟩⟩, rfl, ?_⟩
      rw [blankAround_iff hblk, upperContext_eq_nil_iff hnil hsize (by omega),
        lowerContext_succ_eq_nil_iff hnil hsize hend]
  | case4 page i blk hblk next hnext hbelow =>
      -- the block reaches below the top of the table
      refine Or.inr ⟨page, rfl, fun p k hplace => ?_⟩
      rcases (hplace.le_of_walks hwalks).eq_or_lt with rfl | hlt
      · exact hplace.not_of_block hpasses hblk hnext hbelow
      · have hlen := (List.getElem?_eq_some_iff.mp hblk).1
        exact ((hplace.walks.2 page hwalks.1 hlt).2.2 i hlen blk next hblk hnext).1 hbelow
  | case5 page i blk hblk next hnext hle hlt ih =>
      have hlen := (List.getElem?_eq_some_iff.mp hnext).1
      refine ih hwalks (fun k hk => ?_) (Or.inl hlen)
      by_cases hlast : k = i
      · subst hlast
        intro blk' next' hblk' hnext'
        obtain rfl := Option.some.inj (hblk.symm.trans hblk')
        obtain rfl := Option.some.inj (hnext.symm.trans hnext')
        exact ⟨hle, hlt⟩
      · exact hpasses k (by omega)
  | case6 page i blk hblk next hnext hle hle' =>
      have hlen := (List.getElem?_eq_some_iff.mp hblk).1
      refine Or.inl ⟨page, i, _,
        ⟨hwalks, hpasses, blk, hblk, Or.inr ⟨next, hnext, hle, hle'⟩⟩, rfl, ?_⟩
      rw [blankAround_iff hblk, upperContext_eq_nil_iff hnil hsize (by omega),
        lowerContext_eq_nil_iff hnil hsize hblk, blankBelow_iff_of_block hblk,
        blankAbove_iff_of_block hblk]
      tauto

end Place

/-! ## One context for each table -/

section Tables

variable [LinearOrder κ] (numTokens : Text → ℕ) (tableContextSize : ℤ) (bucket : PageBucket κ)

/-- The context of a table: what is around its place, or around the page where the search for it
ended. -/
def tableContextOf (tabl : Tabl κ μ) : Text × Text :=
  match tabl.poss.head?, tabl.poss.getLast? with
  | some first, some last =>
      match scanLoop numTokens tableContextSize bucket first last first.page 0 with
      | (_, some context) => stripBoth context
      | (page, none) =>
          stripBoth (upperContext numTokens tableContextSize bucket page (-1),
            lowerContext numTokens tableContextSize bucket (page + 1) 0)
  | _, _ => ([], [])

/-- A table with a place, and no text around. -/
def Bare (tabl : Tabl κ μ) : Prop :=
  ∃ first ∈ tabl.poss.head?, ∃ last ∈ tabl.poss.getLast?, ∃ page i,
    PlaceAt bucket first last page i ∧ BlankAround bucket page

variable {numTokens tableContextSize bucket}

theorem eq_append_append_iff {upper tb lower : Text} :
    tb = upper ++ tb ++ lower ↔ upper = [] ∧ lower = [] := by
  constructor
  · intro h
    have hlength := congrArg List.length h
    simp only [List.length_append] at hlength
    constructor
    · exact List.eq_nil_of_length_eq_zero (by omega)
    · exact List.eq_nil_of_length_eq_zero (by omega)
  · rintro ⟨rfl, rfl⟩
    simp

/-- A table gets its context, and another one if it has a place without text around. -/
theorem appendTable_spec (hnil : numTokens [] = 0) (hsize : 0 < tableContextSize)
    {tabl : Tabl κ μ} (hposs : tabl.poss ≠ []) {st : Appended κ μ}
    (hst : st.res.length ≤ st.contexts.length) :
    ∃ extra tb, appendTable numTokens tableContextSize bucket st tabl =
        some ⟨st.contexts ++ tableContextOf numTokens tableContextSize bucket tabl :: extra,
          st.res ++ [{ tabl with tb := .text tb }]⟩ ∧
      (extra = [] ↔ ¬ Bare bucket tabl) := by
  obtain ⟨first, hfirst⟩ := Option.isSome_iff_exists.mp (List.isSome_head?.mpr hposs)
  have hlast := List.getLast?_eq_some_getLast hposs
  generalize tabl.poss.getLast hposs = last at hlast
  have hbare : Bare bucket tabl ↔
      ∃ page i, PlaceAt bucket first last page i ∧ BlankAround bucket page := by
    rw [Bare, hfirst, hlast]
    simp
  have hpad : ∀ (c : Text × Text) (cs : List (Text × Text)),
      ¬ (st.contexts ++ c :: cs).length < st.res.length + 1 := by
    intro c cs
    rw [List.length_append, List.length_cons]
    omega
  rw [appendTable, tableContextOf, hfirst, hlast]
  simp only [Option.bind_eq_bind, Option.bind_some]
  rcases @scanLoop_spec κ _ bucket first last numTokens tableContextSize hnil hsize first.page 0
      ⟨le_rfl, fun q hq hq' => by omega⟩ (fun k hk => absurd hk (Nat.not_lt_zero k))
      (Or.inr rfl) with
    ⟨page, i, ⟨upper, lower⟩, hplace, hscan, hblank⟩ | ⟨page, hscan, hnone⟩
  · simp only [hscan, Option.map_some, Option.toList_some, eq_append_append_iff]
    by_cases hempty : upper = [] ∧ lower = []
    · rw [if_pos hempty]
      simp only [List.append_assoc, List.singleton_append, if_neg (hpad _ _)]
      refine ⟨_, _, rfl, iff_of_false (List.cons_ne_nil _ _) ?_⟩
      exact not_not.mpr (hbare.mpr ⟨page, i, hplace, hblank.mp hempty⟩)
    · rw [if_neg hempty]
      simp only [if_neg (hpad _ _)]
      refine ⟨[], _, rfl, iff_of_true rfl fun h => hempty ?_⟩
      obtain ⟨page', i', hplace', hblank'⟩ := hbare.mp h
      rw [← hplace.page_unique hplace'] at hblank'
      exact hblank.mpr hblank'
  · simp only [hscan, Option.map_none, Option.toList_none, List.append_nil, if_true,
      if_neg (hpad _ _)]
    refine ⟨[], _, rfl, iff_of_true rfl fun h => ?_⟩
    obtain ⟨page', i', hplace', -⟩ := hbare.mp h
    exact hnone page' i' hplace'

/-- Contexts are not lost, and there is one for each table if no table is bare. -/
theorem foldlM_appendTable (hnil : numTokens [] = 0) (hsize : 0 < tableContextSize)
    {tabls : List (Tabl κ μ)} (hposs : ∀ tabl ∈ tabls, tabl.poss ≠ []) (bucket : PageBucket κ)
    {st : Appended κ μ} (hst : st.res.length ≤ st.contexts.length) :
    ∃ st', tabls.foldlM (appendTable numTokens tableContextSize bucket) st = some st' ∧
      st.contexts.length + tabls.length ≤ st'.contexts.length ∧
      (st'.contexts.length = st.contexts.length + tabls.length →
        ∀ tabl ∈ tabls, ¬ Bare bucket tabl) ∧
      ((∀ tabl ∈ tabls, ¬ Bare bucket tabl) → st'.contexts =
        st.contexts ++ tabls.map (tableContextOf numTokens tableContextSize bucket)) := by
  induction tabls generalizing st with
  | nil => exact ⟨st, rfl, le_rfl, fun _ => by simp, fun _ => by simp⟩
  | cons tabl tabls ih =>
      obtain ⟨htabl, htabls⟩ := List.forall_mem_cons.mp hposs
      obtain ⟨extra, tb, hstep, hextra⟩ := 
        @appendTable_spec κ μ _ numTokens tableContextSize bucket hnil hsize tabl htabl st hst
      obtain ⟨st', hrun, hle, hbare, hcontexts⟩ := @ih htabls
        ⟨st.contexts ++ tableContextOf numTokens tableContextSize bucket tabl :: extra,
          st.res ++ [{ tabl with tb := .text tb }]⟩ (by simp; omega)
      simp only [List.length_append, List.length_cons] at hle hbare
      refine ⟨st', ?_, ?_, fun hlength => ?_, fun hall => ?_⟩
      · rw [List.foldlM_cons, hstep]
        exact hrun
      · rw [List.length_cons]
        omega
      · rw [List.length_cons] at hlength
        have hnone : extra = [] := List.eq_nil_of_length_eq_zero (by omega)
        refine List.forall_mem_cons.mpr ⟨hextra.mp hnone, hbare ?_⟩
        omega
      · obtain ⟨hfirst, hrest⟩ := List.forall_mem_cons.mp hall
        rw [hcontexts hrest, hextra.mpr hfirst]
        simp

/-- There is one context for each table exactly if all tags of the sections can be read and no
table has a place without text around. -/
theorem appendContext_eq_iff (float : Text → Option κ) (hnil : numTokens [] = 0)
    (sections : List (PlacedSection κ)) {tabls : List (Tabl κ μ)}
    (hposs : ∀ tabl ∈ tabls, tabl.poss ≠ []) (hsize : 0 < tableContextSize) :
    (∃ bucket res, pageBucket float sections = some bucket ∧
      appendContext2TableImage4Pdf float numTokens sections tabls tableContextSize =
        some ⟨tabls.map (tableContextOf numTokens tableContextSize bucket), res⟩) ↔
    ∃ bucket, pageBucket float sections = some bucket ∧
      ∀ tabl ∈ tabls, ¬ Bare bucket tabl := by
  constructor
  · rintro ⟨bucket, res, hbucket, hresult⟩
    refine ⟨bucket, hbucket, ?_⟩
    obtain ⟨st', hrun, -, hbare, -⟩ :=
      @foldlM_appendTable κ μ _ numTokens tableContextSize hnil hsize tabls hposs bucket {} le_rfl
    rw [appendContext2TableImage4Pdf, if_neg (not_le.mpr hsize), hbucket, Option.bind_some, hrun,
      Option.some.injEq] at hresult
    apply hbare
    rw [hresult]
    simp
  · rintro ⟨bucket, hbucket, hall⟩
    obtain ⟨st', hrun, -, -, hcontexts⟩ :=
      @foldlM_appendTable κ μ _ numTokens tableContextSize hnil hsize tabls hposs bucket {} le_rfl
    refine ⟨bucket, st'.res, hbucket, ?_⟩
    rw [appendContext2TableImage4Pdf, if_neg (not_le.mpr hsize), hbucket, Option.bind_some, hrun]
    have heq := hcontexts hall
    rw [List.nil_append] at heq
    rw [← heq]

end Tables

/-- Coordinates without a fraction. -/
def wholeCoord (t : Text) : Option ℤ :=
  if t ≠ [] ∧ t.all isDigit then some (Nat.ofDigitChars 10 t 0) else none

/-- A figure below a block on its page. -/
def figureBelow : Tabl ℤ Unit :=
  ⟨(), .text "<figure>".toList, [⟨0, 0, 10, 6, 9⟩]⟩

theorem appendContext_eq_iff_caption :
    (∃ bucket res, pageBucket wholeCoord [⟨"See below.@@1\t0\t10\t0\t5##".toList, .other⟩] =
        some bucket ∧
      appendContext2TableImage4Pdf wholeCoord List.length
          [⟨"See below.@@1\t0\t10\t0\t5##".toList, .other⟩] [figureBelow] 8 =
        some ⟨[figureBelow].map (tableContextOf List.length 8 bucket), res⟩) ↔
    ∃ bucket, pageBucket wholeCoord [⟨"See below.@@1\t0\t10\t0\t5##".toList, .other⟩] =
        some bucket ∧ ∀ tabl ∈ [figureBelow], ¬ Bare bucket tabl :=
  appendContext_eq_iff wholeCoord rfl _ (by simp [figureBelow]) (by decide)

/-- The bucket of a page with one block that has no text. -/
def emptyBlock : PlacedSection ℤ :=
  ⟨[], .list [⟨.one 0, 0, 10, 0, 5⟩]⟩

theorem bare_figureBelow : Bare [(0, ⟨0, 10, 0, 5, []⟩)] figureBelow := by
  refine ⟨_, rfl, _, rfl, 0, 0, ⟨⟨le_rfl, fun q hq hlt => ?_⟩, fun k hk => ?_, ?_⟩, ?_⟩
  · exact absurd (lt_of_le_of_lt hq hlt) (lt_irrefl _)
  · exact absurd hk (Nat.not_lt_zero k)
  · exact ⟨⟨0, 10, 0, 5, []⟩, rfl, Or.inl ⟨rfl, le_rfl⟩⟩
  · intro q _ _ blk hblk
    obtain ⟨entry, hentry, rfl⟩ := List.mem_map.mp hblk
    rw [List.mem_singleton.mp (List.mem_filter.mp hentry).1]

/-- A block without text gives a figure two contexts. -/
theorem not_appendContext_eq :
    ¬ ∀ (sections : List (PlacedSection ℤ)) (tabls : List (Tabl ℤ Unit)) (tableContextSize : ℤ),
      (∀ tabl ∈ tabls, tabl.poss ≠ []) → 0 < tableContextSize →
      ∃ bucket res, pageBucket wholeCoord sections = some bucket ∧
        appendContext2TableImage4Pdf wholeCoord List.length sections tabls tableContextSize =
          some ⟨tabls.map (tableContextOf List.length tableContextSize bucket), res⟩ := by
  intro h
  obtain ⟨bucket, res, hbucket, hresult⟩ :=
    h [emptyBlock] [figureBelow] 8 (by simp [figureBelow]) (by decide)
  have hblock : pageBucket wholeCoord [emptyBlock] = some [(0, ⟨0, 10, 0, 5, []⟩)] := rfl
  obtain rfl := Option.some.inj (hblock.symm.trans hbucket)
  obtain ⟨st', hrun, -, hbare, -⟩ := @foldlM_appendTable ℤ Unit _ List.length 8 rfl
    (by decide) [figureBelow] (by simp [figureBelow]) [(0, ⟨0, 10, 0, 5, []⟩)] {} le_rfl
  rw [appendContext2TableImage4Pdf, if_neg (by decide), hbucket, Option.bind_some, hrun,
    Option.some.injEq] at hresult
  exact hbare (by rw [hresult]; simp) figureBelow (by simp) bare_figureBelow

end RagflowMineru.Nlp
