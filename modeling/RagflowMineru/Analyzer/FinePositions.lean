import RagflowMineru.Analyzer.Modes
import RagflowMineru.Analyzer.Segmentation

/-!
# The positions of fine tokens

A coarse token that is cut gets new positions for its pieces, counted from where it starts by
the lengths of the pieces.  The token is the stem of a word, and its span is that of the word
itself: a stem that is longer than the word leaves the span.
-/

namespace RagflowMineru.Analyzer

open Library

/-- A start and an end. -/
abbrev Span : Type := ℕ × ℕ

/-- Pieces one behind the other, with `sep` bytes between them. -/
def layout (sep : ℕ) (length : Text → ℕ) : ℕ → List Text → List (Text × Span)
  | _, [] => []
  | subStart, t :: ts =>
      let subEnd := subStart + length t
      (t, subStart, subEnd) :: layout sep length (subEnd + sep) ts

/-- `SortTokens`, without the scores that it returns; `sort` orders by them. -/
def sortTokens (sort : List (List Text × Option ℚ) → List (List Text × Option ℚ))
    (tokenList : List TokenFreqs) : List (List Text) :=
  (sort (tokenList.map score)).map Prod.fst

/-- The analyzer that sorts with `sort`. -/
def withSort (a : RAGAnalyzer) (trie : DartsTrie)
    (sort : List (List Text × Option ℚ) → List (List Text × Option ℚ)) : RAGAnalyzer :=
  { withTrie a trie with sortedTokens := fun token => sortTokens sort (tokenList trie token) }

namespace RAGAnalyzer

variable (a : RAGAnalyzer)

/-- What is reported for a coarse token in English text. -/
def englishSpans (token : Text) (span : Span) : List (Text × Span) :=
  layout 1 size span.1 ((getlines token).filter (· ≠ []))

/-- What is reported for one in Chinese or mixed text. -/
def fineSpans (token : Text) (span : Span) : List (Text × Span) :=
  if token.length < 3 || pattern4 token then [(token, span)]
  else
    match if token.length > 10 then [[token]] else a.sortedTokens token with
    | _ :: stk :: _ =>
        if stk.length = token.length then [(token, span)]
        else if pattern5 token then
          if stk.any fun t => t.length < 3 then [(token, span)] else layout 0 List.length span.1 stk
        else layout 0 size span.1 stk
    | _ => [(token, span)]

/-- What is reported for a coarse token; `english` is set for English text. -/
def reported (english : Bool) (p : Text × Span) : List (Text × Span) :=
  if english then englishSpans p.1 p.2 else a.fineSpans p.1 p.2

/-- `FineGrainedTokenizeWithPosition`, with the positions. -/
def fineGrainedTokenizeWithSpans (tokens : Text) (positions : List Span) : List (Text × Span) :=
  ((splitBlank tokens).zip positions).flatMap (a.reported (isEnglish (splitBlank tokens)))

/-! ## How far a cut token reaches -/

/-- The length of pieces that are not empty, with what is between them. -/
def width (sep : ℕ) (length : Text → ℕ) (ts : List Text) : ℕ :=
  (ts.map length).sum + sep * (ts.length - 1)

/-- A token is cut, and its pieces reach so far behind its start. -/
def Reaches (english : Bool) (token : Text) (n : ℕ) : Prop :=
  if english then
    (getlines token).filter (· ≠ []) ≠ [] ∧ n = width 1 size ((getlines token).filter (· ≠ []))
  else
    ∃ first stk rest, 3 ≤ token.length ∧ pattern4 token = false ∧ token.length ≤ 10 ∧
      a.sortedTokens token = first :: stk :: rest ∧ stk.length ≠ token.length ∧
      if pattern5 token then (∀ t ∈ stk, 3 ≤ t.length) ∧ n = token.length else n = size token

/-- The pieces lie in the span of their token, one behind the other. -/
structure Refines (span : Span) (fine : List (Text × Span)) : Prop where
  ordered : ∀ p ∈ fine, p.2.1 ≤ p.2.2
  inside : ∀ p ∈ fine, span.1 ≤ p.2.1 ∧ p.2.2 ≤ span.2
  disjoint : fine.Pairwise fun p q => p.2.2 ≤ q.2.1

/-! ## Pieces one behind the other -/

section Layout

variable {sep : ℕ} {length : Text → ℕ} {start : ℕ} {ts : List Text} {span : Span}

theorem le_of_mem_layout :
    ∀ p ∈ layout sep length start ts, start ≤ p.2.1 ∧ p.2.1 ≤ p.2.2 := by
  induction ts generalizing start with
  | nil => simp [layout]
  | cons t ts ih =>
    rw [layout, List.forall_mem_cons]
    refine ⟨⟨le_rfl, Nat.le_add_right _ _⟩, fun p hp => ?_⟩
    obtain ⟨hstart, hend⟩ := ih p hp
    exact ⟨by omega, hend⟩

theorem layout_pairwise : (layout sep length start ts).Pairwise fun p q => p.2.2 ≤ q.2.1 := by
  induction ts generalizing start with
  | nil => exact List.Pairwise.nil
  | cons t ts ih =>
    refine List.Pairwise.cons (fun q hq => ?_) ih
    have hstart := (le_of_mem_layout q hq).1
    exact (Nat.le_add_right _ _).trans hstart

theorem layout_le_iff (hne : ts ≠ []) {stop : ℕ} :
    (∀ p ∈ layout sep length start ts, p.2.2 ≤ stop) ↔ start + width sep length ts ≤ stop := by
  induction ts generalizing start with
  | nil => exact absurd rfl hne
  | cons t ts ih =>
    rw [layout, List.forall_mem_cons]
    by_cases hts : ts = []
    · simp [hts, layout, width]
    · have hpos := List.length_pos_iff.mpr hts
      have hwidth : width sep length (t :: ts) = length t + sep + width sep length ts := by
        obtain ⟨k, hk⟩ := Nat.exists_eq_succ_of_ne_zero hpos.ne'
        simp only [width, List.map_cons, List.sum_cons, List.length_cons, hk]
        rw [Nat.succ_sub_one, Nat.succ_eq_add_one, Nat.add_sub_cancel, Nat.mul_succ]
        omega
      rw [ih hts, hwidth]
      change start + length t ≤ stop ∧ _ ↔ _
      omega

/-- Pieces are in order always, and in the span when it is long enough. -/
theorem refines_layout_iff (hne : ts ≠ []) :
    Refines span (layout sep length span.1 ts) ↔ span.1 + width sep length ts ≤ span.2 := by
  rw [← layout_le_iff hne]
  refine ⟨fun h p hp => (h.inside p hp).2, fun h => ⟨fun p hp => (le_of_mem_layout p hp).2,
    fun p hp => ⟨(le_of_mem_layout p hp).1, h p hp⟩, layout_pairwise⟩⟩

theorem refines_whole {token : Text} (h : span.1 ≤ span.2) : Refines span [(token, span)] :=
  ⟨by simpa using h, by simp, List.pairwise_singleton _ _⟩

theorem refines_nil : Refines span [] := ⟨by simp, by simp, List.Pairwise.nil⟩

theorem map_fst_layout : (layout sep length start ts).map Prod.fst = ts := by
  induction ts generalizing start with
  | nil => rfl
  | cons t ts ih => rw [layout, List.map_cons, ih]

end Layout

/-! ## Coarse tokens -/

section Coarse

variable {a}

theorem width_zero (length : Text → ℕ) (ts : List Text) :
    width 0 length ts = (ts.map length).sum := by
  rw [width, Nat.zero_mul, Nat.add_zero]

theorem size_flatten (ts : List Text) : size ts.flatten = (ts.map size).sum := by
  induction ts with
  | nil => rfl
  | cons t ts ih =>
    rw [List.flatten_cons, size, List.map_append, List.sum_append, List.map_cons, List.sum_cons,
      ← ih]
    rfl

theorem refines_englishSpans_iff {token : Text} {span : Span} :
    Refines span (englishSpans token span) ↔
      ∀ n, a.Reaches true token n → span.1 + n ≤ span.2 := by
  by_cases hne : (getlines token).filter (· ≠ []) = []
  · rw [englishSpans, hne]
    exact iff_of_true refines_nil fun n hn => absurd hne hn.1
  · rw [englishSpans, refines_layout_iff hne]
    exact ⟨fun h n hn => hn.2 ▸ h, fun h => h _ ⟨hne, rfl⟩⟩

/-- Short tokens, numbers and long ones stay whole, and tokens with one segmentation. -/
theorem fineSpans_whole {token : Text} (h : token.length < 3 ∨ pattern4 token = true ∨
    10 < token.length ∨ (a.sortedTokens token).length < 2) :
    (∀ span, a.fineSpans token span = [(token, span)]) ∧ ∀ n, ¬ a.Reaches false token n := by
  constructor
  · intro span
    by_cases hplain : (token.length < 3 || pattern4 token) = true
    · rw [fineSpans, if_pos hplain]
    · rw [fineSpans, if_neg hplain]
      by_cases hlong : token.length > 10
      · rw [if_pos hlong]
      · rw [if_neg hlong]
        have hfew : (a.sortedTokens token).length < 2 := by
          rcases h with h | h | h | h
          · simp [h] at hplain
          · simp [h] at hplain
          · exact absurd h hlong
          · exact h
        rcases hlist : a.sortedTokens token with _ | ⟨first, _ | ⟨stk, rest⟩⟩
        · rfl
        · rfl
        · rw [hlist, List.length_cons, List.length_cons] at hfew
          omega
  · rintro n ⟨first, stk, rest, hlength, hpattern, hten, hlist, -⟩
    rw [hpattern, hlist, List.length_cons, List.length_cons] at h
    simp at h
    omega

section Cut

variable {token : Text} {first stk : List Text} {rest : List (List Text)}

theorem fineSpans_cut (hlength : 3 ≤ token.length) (hpattern : pattern4 token = false)
    (hten : token.length ≤ 10) (hlist : a.sortedTokens token = first :: stk :: rest)
    (span : Span) :
    a.fineSpans token span =
      if stk.length = token.length then [(token, span)]
      else if pattern5 token then
        if stk.any fun t => t.length < 3 then [(token, span)] else layout 0 List.length span.1 stk
      else layout 0 size span.1 stk := by
  have hplain : ¬ (token.length < 3 || pattern4 token) = true := by
    rw [hpattern, Bool.or_false, decide_eq_true_iff]
    omega
  rw [fineSpans, if_neg hplain, if_neg (not_lt.mpr hten), hlist]

theorem reaches_cut_iff (hlength : 3 ≤ token.length) (hpattern : pattern4 token = false)
    (hten : token.length ≤ 10) (hlist : a.sortedTokens token = first :: stk :: rest) {n : ℕ} :
    a.Reaches false token n ↔ stk.length ≠ token.length ∧
      if pattern5 token then (∀ t ∈ stk, 3 ≤ t.length) ∧ n = token.length else n = size token := by
  constructor
  · rintro ⟨first', stk', rest', -, -, -, hsome, hrest⟩
    rw [hlist] at hsome
    cases hsome
    exact hrest
  · exact fun h => ⟨first, stk, rest, hlength, hpattern, hten, hlist, h⟩

end Cut

/-- A token stays whole and reaches nowhere, or it reaches as far as its pieces are wide. -/
theorem fineSpans_spec
    (hsorted : ∀ token, ∀ tokens ∈ a.sortedTokens token, tokens.flatten = token) (token : Text) :
    ((∀ span, a.fineSpans token span = [(token, span)]) ∧ ∀ n, ¬ a.Reaches false token n) ∨
      ∃ length stk, stk ≠ [] ∧ (∀ span, a.fineSpans token span = layout 0 length span.1 stk) ∧
        ∀ n, a.Reaches false token n ↔ n = width 0 length stk := by
  by_cases hwhole : token.length < 3 ∨ pattern4 token = true ∨ 10 < token.length ∨
      (a.sortedTokens token).length < 2
  · exact .inl (fineSpans_whole hwhole)
  simp only [not_or, not_lt, Bool.not_eq_true] at hwhole
  obtain ⟨hlength, hpattern, hten, htwo⟩ := hwhole
  rcases hlist : a.sortedTokens token with _ | ⟨first, _ | ⟨stk, rest⟩⟩
  · rw [hlist, List.length_nil] at htwo
    omega
  · rw [hlist, List.length_singleton] at htwo
    omega
  have hflat : stk.flatten = token := hsorted token stk (by simp [hlist])
  have hne : stk ≠ [] := by
    rintro rfl
    rw [← hflat, List.flatten_nil, List.length_nil] at hlength
    omega
  have hfine := fineSpans_cut hlength hpattern hten hlist
  have hreach := @reaches_cut_iff a token first stk rest hlength hpattern hten hlist
  by_cases hchars : stk.length = token.length
  · simp only [if_pos hchars] at hfine
    exact .inl ⟨hfine, fun n hn => (hreach.mp hn).1 hchars⟩
  simp only [if_neg hchars] at hfine
  by_cases hfive : pattern5 token = true
  · simp only [if_pos hfive] at hfine hreach
    by_cases hshort : stk.any (fun t => t.length < 3) = true
    · simp only [if_pos hshort] at hfine
      refine .inl ⟨hfine, fun n hn => ?_⟩
      obtain ⟨t, ht, hlt⟩ := List.any_eq_true.mp hshort
      have hthree := (hreach.mp hn).2.1 t ht
      exact absurd (of_decide_eq_true hlt) (not_lt.mpr hthree)
    · have hthree : ∀ t ∈ stk, 3 ≤ t.length := by simpa using hshort
      have hwidth : width 0 List.length stk = token.length := by
        rw [width_zero, ← List.length_flatten, hflat]
      simp only [if_neg hshort] at hfine
      refine .inr ⟨List.length, stk, hne, hfine, fun n => ?_⟩
      rw [hreach, hwidth]
      exact ⟨fun h => h.2.2, fun h => ⟨hchars, hthree, h⟩⟩
  · have hwidth : width 0 size stk = size token := by
      rw [width_zero, ← size_flatten, hflat]
    simp only [if_neg hfive] at hfine hreach
    refine .inr ⟨size, stk, hne, hfine, fun n => ?_⟩
    rw [hreach, hwidth]
    exact and_iff_right hchars

theorem refines_fineSpans_iff
    (hsorted : ∀ token, ∀ tokens ∈ a.sortedTokens token, tokens.flatten = token) {token : Text}
    {span : Span} (hspan : span.1 ≤ span.2) :
    Refines span (a.fineSpans token span) ↔
      ∀ n, a.Reaches false token n → span.1 + n ≤ span.2 := by
  obtain ⟨hfine, hnone⟩ | ⟨length, stk, hne, hfine, hreach⟩ := fineSpans_spec hsorted token
  · rw [hfine]
    exact iff_of_true (refines_whole hspan) fun n hn => absurd hn (hnone n)
  · simp only [hfine, refines_layout_iff hne, hreach, forall_eq]

theorem refines_reported_iff {english : Bool}
    (hsorted : ∀ token, ∀ tokens ∈ a.sortedTokens token, tokens.flatten = token)
    {p : Text × Span} (hspan : p.2.1 ≤ p.2.2) :
    Refines p.2 (a.reported english p) ↔ ∀ n, a.Reaches english p.1 n → p.2.1 + n ≤ p.2.2 := by
  cases english with
  | true => exact refines_englishSpans_iff
  | false => exact refines_fineSpans_iff hsorted hspan

theorem map_fst_fineSpans (token : Text) (span : Span) :
    (a.fineSpans token span).map Prod.fst = a.fineTokens token := by
  rw [fineSpans, fineTokens]
  by_cases hplain : (token.length < 3 || pattern4 token) = true
  · rw [if_pos hplain, if_pos hplain]
    rfl
  rw [if_neg hplain, if_neg hplain]
  rcases (if token.length > 10 then [[token]] else a.sortedTokens token) with
    _ | ⟨first, _ | ⟨stk, rest⟩⟩
  · rfl
  · rfl
  · dsimp only
    split_ifs
    · rfl
    · rfl
    · exact map_fst_layout
    · exact map_fst_layout

/-- The positions belong to the fine tokens that are reported. -/
theorem map_fst_fineGrainedTokenizeWithSpans {tokens : Text} {positions : List Span}
    (hlength : (splitBlank tokens).length = positions.length) :
    (a.fineGrainedTokenizeWithSpans tokens positions).map Prod.fst =
      a.fineGrainedTokenizeWithPosition tokens := by
  have hzip : ((splitBlank tokens).zip positions).map Prod.fst = splitBlank tokens :=
    List.map_fst_zip hlength.le
  rw [fineGrainedTokenizeWithSpans, fineGrainedTokenizeWithPosition, List.map_flatMap]
  by_cases henglish : isEnglish (splitBlank tokens) = true
  · simp only [if_pos henglish]
    conv_rhs => rw [← hzip, List.flatMap_map]
    refine List.flatMap_congr fun p _ => ?_
    rw [reported, if_pos henglish]
    exact map_fst_layout
  · simp only [if_neg henglish]
    conv_rhs => rw [← hzip, List.flatMap_map]
    refine List.flatMap_congr fun p _ => ?_
    rw [reported, if_neg henglish]
    exact map_fst_fineSpans p.1 p.2

end Coarse

end RAGAnalyzer

theorem flatten_sortTokens {sort : List (List Text × Option ℚ) → List (List Text × Option ℚ)}
    (hsort : ∀ l, (sort l).Perm l) {trie : DartsTrie} {token : Text} :
    ∀ tokens ∈ sortTokens sort (tokenList trie token), tokens.flatten = token := by
  intro tokens htokens
  obtain ⟨scored, hscored, rfl⟩ := List.mem_map.mp htokens
  obtain ⟨tokenFreqs, hfreqs, rfl⟩ := List.mem_map.mp ((hsort _).mem_iff.mp hscored)
  exact flatten_tokenList tokenFreqs hfreqs

/-- What is reported lies in the spans of the coarse tokens, if and only if no token that is cut
reaches behind the end of its span. -/
theorem refines_iff (a : RAGAnalyzer) (trie : DartsTrie)
    {sort : List (List Text × Option ℚ) → List (List Text × Option ℚ)}
    (hsort : ∀ l, (sort l).Perm l) (tokens : Text) {positions : List Span}
    (hpositions : ∀ span ∈ positions, span.1 ≤ span.2) :
    (∀ p ∈ (splitBlank tokens).zip positions,
        RAGAnalyzer.Refines p.2
          ((withSort a trie sort).reported (RAGAnalyzer.isEnglish (splitBlank tokens)) p)) ↔
      ∀ p ∈ (splitBlank tokens).zip positions, ∀ n,
        (withSort a trie sort).Reaches (RAGAnalyzer.isEnglish (splitBlank tokens)) p.1 n →
          p.2.1 + n ≤ p.2.2 :=
  forall₂_congr fun p hp => RAGAnalyzer.refines_reported_iff
    (fun _ => flatten_sortTokens hsort) (hpositions p.2 (List.of_mem_zip hp).2)

/-- The highest score comes first. -/
def byScore (l : List (List Text × Option ℚ)) : List (List Text × Option ℚ) :=
  l.mergeSort fun x y => y.2.getD 0 ≤ x.2.getD 0

theorem byScore_perm (l : List (List Text × Option ℚ)) : (byScore l).Perm l :=
  List.mergeSort_perm l _

def renmin : DartsTrie :=
  ⟨[("中国".toList, 5), ("人民".toList, 5), ("中国人民".toList, 5)]⟩

theorem refines_iff_renmin :
    (∀ p ∈ (splitBlank "中国人民 中国".toList).zip [(0, 12), (12, 18)],
        RAGAnalyzer.Refines p.2 ((withSort RAGAnalyzer.sample renmin byScore).reported
          (RAGAnalyzer.isEnglish (splitBlank "中国人民 中国".toList)) p)) ↔
      ∀ p ∈ (splitBlank "中国人民 中国".toList).zip [(0, 12), (12, 18)], ∀ n,
        (withSort RAGAnalyzer.sample renmin byScore).Reaches
          (RAGAnalyzer.isEnglish (splitBlank "中国人民 中国".toList)) p.1 n →
          p.2.1 + n ≤ p.2.2 :=
  refines_iff RAGAnalyzer.sample renmin byScore_perm "中国人民 中国".toList (by decide)

/-- The exception list of the lemmatizer has this word. -/
def bleeding : RAGAnalyzer :=
  { RAGAnalyzer.sample with
    lemmatize := fun t => if t = "bled".toList then "bleed".toList else t }

/-- The stem of the word has five bytes, its span has four. -/
theorem not_refines_bled :
    (withSort bleeding renmin byScore).tokenizeWithPosition "bled".toList = ["bleed".toList] ∧
      (withSort bleeding renmin byScore).fineGrainedTokenizeWithSpans "bleed".toList [(0, 4)] =
        [("bleed".toList, 0, 5)] ∧
      ¬ ∀ p ∈ (splitBlank "bleed".toList).zip [(0, 4)],
        RAGAnalyzer.Refines p.2 ((withSort bleeding renmin byScore).reported
          (RAGAnalyzer.isEnglish (splitBlank "bleed".toList)) p) := by
  have hspans : (withSort bleeding renmin byScore).fineGrainedTokenizeWithSpans "bleed".toList
      [(0, 4)] = [("bleed".toList, 0, 5)] := by decide +kernel
  refine ⟨by decide +kernel, hspans, fun h => ?_⟩
  have hmem : ("bleed".toList, 0, 5) ∈ (withSort bleeding renmin byScore).reported
      (RAGAnalyzer.isEnglish (splitBlank "bleed".toList)) ("bleed".toList, 0, 4) := by
    decide +kernel
  have hend := ((h ("bleed".toList, 0, 4) (by decide)).inside _ hmem).2
  exact absurd hend (by decide)

end RagflowMineru.Analyzer
