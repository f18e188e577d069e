import RagflowMineru.Analyzer.Tokenizer

/-!
# The two modes of the analyzer

Without positions all tokens are joined and cut at blanks; with positions every token
is kept as it is, unless it is not found.  The merge keeps the characters of the
tokens, so the modes agree on coarse tokens only if they merge the same ones.
-/

namespace RagflowMineru.Analyzer

open Library

/-- A token that is not empty and has no blank. -/
def Solid (t : Text) : Prop := t ≠ [] ∧ ' ' ∉ t

namespace RAGAnalyzer

variable (a : RAGAnalyzer)

/-! ## Merging -/

theorem mergeCount_pos (tokens : List Text) : 0 < a.mergeCount tokens := by
  rw [mergeCount]
  have hfold : ∀ (es : List ℕ) (count : ℕ), 0 < count → (∀ e ∈ es, 0 < e) →
      0 < es.foldl (fun count e =>
        if e ≤ tokens.length ∧ matchesSplitPattern (tokens.take e).flatten ∧
          a.freq (tokens.take e).flatten > 0 then e else count) count := by
    intro es
    induction es with
    | nil => exact fun count hcount _ => hcount
    | cons e es ih =>
        intro count hcount hes
        obtain ⟨he, hes⟩ := List.forall_mem_cons.mp hes
        rw [List.foldl_cons]
        refine ih _ ?_ hes
        split_ifs
        · exact he
        · exact hcount
  exact hfold _ 1 Nat.one_pos (by decide)

/-- The merge keeps all characters. -/
theorem flatten_mergeLoop (n : ℕ) (tokens : List Text) (h : tokens.length ≤ n) :
    (a.mergeLoop n tokens).flatten = tokens.flatten := by
  induction n generalizing tokens with
  | zero => rw [List.length_eq_zero_iff.mp (Nat.le_zero.mp h), mergeLoop]
  | succ n ih =>
      cases tokens with
      | nil => rfl
      | cons t ts =>
          have hpos := a.mergeCount_pos (t :: ts)
          rw [mergeLoop, List.flatten_cons, ih, ← List.flatten_append, List.take_append_drop]
          rw [List.length_drop]
          omega

theorem flatten_mergeTokens (tokens : List Text) :
    (a.mergeTokens tokens).flatten = tokens.flatten :=
  a.flatten_mergeLoop _ tokens le_rfl

theorem solid_of_mem_mergeLoop {n : ℕ} {tokens : List Text} (h : ∀ t ∈ tokens, Solid t) {t : Text}
    (ht : t ∈ a.mergeLoop n tokens) : Solid t := by
  induction n generalizing tokens with
  | zero => exact (List.not_mem_nil ht).elim
  | succ n ih =>
      cases tokens with
      | nil => exact (List.not_mem_nil ht).elim
      | cons t' ts =>
          rw [mergeLoop] at ht
          obtain rfl | ht := List.mem_cons.mp ht
          · obtain ⟨m, hm⟩ := Nat.exists_eq_add_of_lt (a.mergeCount_pos (t' :: ts))
            rw [Nat.zero_add] at hm
            rw [hm, List.take_succ_cons, List.flatten_cons]
            refine ⟨List.append_ne_nil_of_left_ne_nil (h t' List.mem_cons_self).1 _, fun hmem => ?_⟩
            obtain hmem | hmem := List.mem_append.mp hmem
            · exact (h t' List.mem_cons_self).2 hmem
            · obtain ⟨u, hu, hmem⟩ := List.mem_flatten.mp hmem
              exact (h u (List.mem_cons_of_mem _ (List.mem_of_mem_take hu))).2 hmem
          · exact ih (fun u hu => h u (List.mem_of_mem_drop hu)) ht

theorem solid_of_mem_mergeTokens {tokens : List Text} (h : ∀ t ∈ tokens, Solid t) {t : Text}
    (ht : t ∈ a.mergeTokens tokens) : Solid t := a.solid_of_mem_mergeLoop h ht

/-! ## Segments -/

theorem flatten_splitByLang (line : Text) :
    ((splitByLang line).map Prod.fst).flatten = line := by
  have hruns : List.flatten ∘ runs (fun first ch => isChinese first == isChinese ch) = id :=
    funext fun piece => flatten_runs piece
  rw [splitByLang, List.map_map]
  change (List.map id _).flatten = line
  rw [List.map_id, List.flatMap, List.flatten_flatten, List.map_map, hruns, List.map_id,
    flatten_runs]

/-- A segment is not empty, and a Chinese one has Chinese characters only. -/
theorem of_mem_splitByLang {line : Text} {segment : Text × Bool}
    (h : segment ∈ splitByLang line) :
    segment.1 ≠ [] ∧ (segment.2 = true → ∀ ch ∈ segment.1, isChinese ch) := by
  obtain ⟨t, ht, rfl⟩ := List.mem_map.mp h
  obtain ⟨piece, -, ht⟩ := List.mem_flatMap.mp ht
  obtain ⟨first, rest, rfl, hrest⟩ := of_mem_runs ht
  refine ⟨List.cons_ne_nil _ _, fun hzh ch hch => ?_⟩
  have hfirst : isChinese first = true := hzh
  obtain rfl | hch := List.mem_cons.mp hch
  · exact hfirst
  · rw [← hfirst]
    exact (beq_iff_eq.mp (hrest ch hch)).symm

theorem solid_of_chinese {line : Text} {segment : Text × Bool} (h : segment ∈ splitByLang line)
    (hzh : segment.2 = true) : Solid segment.1 := by
  obtain ⟨hne, hchinese⟩ := of_mem_splitByLang h
  refine ⟨hne, fun hblank => ?_⟩
  have := hchinese hzh ' ' hblank
  revert this
  decide

/-- A text is found where it stands. -/
theorem findFrom_of_append {strline before t rest : Text} (hline : before ++ (t ++ rest) = strline)
    (ht : t ≠ []) : findFrom strline t before.length = some before.length := by
  rw [findFrom, ← hline, List.drop_left, find_self_append ht, Option.map_some, Nat.zero_add]

/-- Every segment is found where the one before ends. -/
theorem segmentLoop_eq {strline before : Text} {arr : List (Text × Bool)}
    (hline : before ++ (arr.map Prod.fst).flatten = strline)
    (hne : ∀ segment ∈ arr, segment.1 ≠ []) :
    a.segmentLoop strline before.length arr = arr.flatMap a.segmentTokens := by
  induction arr generalizing before with
  | nil => rfl
  | cons segment arr ih =>
      obtain ⟨hsegment, harr⟩ := List.forall_mem_cons.mp hne
      rw [List.map_cons, List.flatten_cons] at hline
      rw [segmentLoop, if_neg hsegment, findFrom_of_append hline hsegment, List.flatMap_cons]
      have hnext := @ih (before ++ segment.1) (by rw [List.append_assoc, hline]) harr
      rw [List.length_append] at hnext
      exact congrArg (a.segmentTokens segment ++ ·) hnext

theorem segmentLoop_splitByLang (strline : Text) :
    a.segmentLoop strline 0 (splitByLang strline) =
      (splitByLang strline).flatMap a.segmentTokens :=
  @segmentLoop_eq a strline [] _ (flatten_splitByLang strline)
    fun _ h => (of_mem_splitByLang h).1

theorem map_fst_locate (sentence : Text) (pos : ℕ) (ts : List Text) :
    (locate sentence pos ts).map Prod.fst = ts := by
  induction ts generalizing pos with
  | nil => rfl
  | cons t ts ih =>
      rw [locate]
      cases findFrom sentence t pos with
      | none => exact congrArg (t :: ·) (ih pos)
      | some i => exact congrArg (t :: ·) (ih (i + t.length))

theorem map_fst_terms (l : Text) :
    (a.terms l).map Prod.fst = (a.sentenceSplitter l).flatMap a.wordTokenizer := by
  rw [terms, List.map_flatMap]
  simp only [map_fst_locate]

theorem splitBlank_join (tokens : List Text) :
    splitBlank (join tokens) = tokens.flatMap splitBlank := parts_intercalate tokens

/-! ## The tokens of both modes before the merge -/

/-- The tokens without positions. -/
def joined (segment : Text × Bool) : List Text := (a.segmentStrings segment).flatMap splitBlank

/-- The tokens with positions. -/
def kept (segment : Text × Bool) : List Text :=
  (a.segmentTokens segment).filter fun t => t ≠ [] ∧ t ≠ [' ']

theorem tokenize_eq (line : Text) :
    a.tokenize line = join (a.mergeTokens ((splitByLang (a.strline line)).flatMap a.joined)) := by
  have hcollapse : ∀ t, splitBlank (collapse ' ' t) = splitBlank t := parts_collapse
  rw [tokenize, merge, hcollapse, splitBlank_join, List.flatMap_assoc]
  rfl

theorem tokenizeWithPosition_eq (line : Text) :
    a.tokenizeWithPosition line =
      a.mergeTokens ((splitByLang (a.strline line)).flatMap a.kept) := by
  rw [tokenizeWithPosition, segmentLoop_splitByLang, mergeWithPosition, List.filter_flatMap]
  rfl

theorem solid_of_mem_joined {segment : Text × Bool} {t : Text} (h : t ∈ a.joined segment) :
    Solid t := by
  obtain ⟨s, -, ht⟩ := List.mem_flatMap.mp h
  exact of_mem_parts ht

theorem filter_single {t : Text} (h : ' ' ∉ t) :
    [t].filter (fun t => t ≠ [] ∧ t ≠ [' ']) = single t := by
  have hblank : t ≠ [' '] := by
    rintro rfl
    exact h List.mem_cons_self
  by_cases ht : t = []
  · simp [ht]
  · simp [ht, hblank, single]

/-- What is pushed in its parts is what a joined string is cut into. -/
theorem filter_pushSplit (t : Text) :
    (pushSplit t).filter (fun t => t ≠ [] ∧ t ≠ [' ']) = splitBlank t := by
  rw [pushSplit]
  split_ifs with h
  · rw [List.filter_eq_self]
    intro p hp
    obtain ⟨hne, hblank⟩ := of_mem_parts hp
    refine decide_eq_true ⟨hne, ?_⟩
    rintro rfl
    exact hblank List.mem_cons_self
  · rw [filter_single h, splitBlank, parts_of_notMem h]

/-- Chinese segments have the same tokens. -/
theorem kept_eq_joined_of_chinese {line : Text} {segment : Text × Bool}
    (h : segment ∈ splitByLang line) (hzh : segment.2 = true) :
    a.kept segment = a.joined segment := by
  have hsolid := solid_of_chinese h hzh
  rw [kept, joined, segmentTokens, segmentStrings, hzh]
  simp only [Bool.not_true, Bool.false_eq_true, if_false]
  split_ifs with hplain
  · rw [filter_single hsolid.2, List.flatMap_singleton, splitBlank, parts_of_notMem hsolid.2]
  · rw [tokenizeInnerWithPosition, List.filter_flatMap]
    simp only [filter_pushSplit]

/-! ## Terms -/

/-- The stem of a term is delivered as one token or, where the term is passed over, not at all,
and no other token is lost or cut. -/
def Intact (term : Text × Bool) : Prop :=
  if term.2 then a.normalize term.1 = [' '] ∨ ' ' ∉ a.normalize term.1
  else ∀ ch ∈ a.normalize term.1, ch = ' '

def joinedTerm (term : Text × Bool) : List Text := splitBlank (a.normalize term.1)

def keptTerm (term : Text × Bool) : List Text :=
  if term.2 then [a.normalize term.1].filter fun t => t ≠ [] ∧ t ≠ [' '] else []

theorem joined_eq_flatMap {segment : Text × Bool} (h : segment.2 = false) :
    a.joined segment = (a.terms segment.1).flatMap a.joinedTerm := by
  rw [joined, segmentStrings, h, Bool.not_false, if_pos rfl, ← map_fst_terms, List.map_map,
    List.flatMap_map]
  rfl

theorem kept_eq_flatMap {segment : Text × Bool} (h : segment.2 = false) :
    a.kept segment = (a.terms segment.1).flatMap a.keptTerm := by
  rw [kept, segmentTokens, h, Bool.not_false, if_pos rfl]
  induction a.terms segment.1 with
  | nil => rfl
  | cons term ts ih =>
      rw [List.flatMap_cons, ← ih, keptTerm]
      split_ifs with hfound
      · rw [List.filter_cons_of_pos hfound, List.map_cons, ← List.filter_append]
        rfl
      · rw [List.filter_cons_of_neg hfound]
        rfl

theorem keptTerm_eq_joinedTerm {term : Text × Bool} (h : a.Intact term) :
    a.keptTerm term = a.joinedTerm term := by
  rw [Intact] at h
  rw [keptTerm, joinedTerm, splitBlank]
  split_ifs at h ⊢ with hfound
  · obtain hblank | hnone := h
    · rw [hblank]
      decide
    · rw [filter_single hnone, parts_of_notMem hnone]
  · exact (parts_eq_nil_iff.mpr h).symm

theorem length_flatten_pos {l : List Text} (h : ∀ t ∈ l, t ≠ []) (hl : l ≠ []) :
    0 < l.flatten.length := by
  cases l with
  | nil => exact absurd rfl hl
  | cons t l =>
      rw [List.flatten_cons, List.length_append]
      have := List.length_pos_of_ne_nil (h t List.mem_cons_self)
      omega

/-- A term that is not intact leaves a blank or loses characters. -/
theorem intact_or_lt {term : Text × Bool} (hblank : ∀ t ∈ a.keptTerm term, ' ' ∉ t) :
    a.Intact term ∨
      (a.keptTerm term).flatten.length < (a.joinedTerm term).flatten.length := by
  rw [Intact, keptTerm, joinedTerm]
  rw [keptTerm] at hblank
  split_ifs at hblank ⊢ with hfound
  · refine .inl (or_iff_not_imp_left.mpr fun hne hmem => ?_)
    refine hblank _ (List.mem_filter.mpr ⟨List.mem_singleton_self _, decide_eq_true ⟨?_, hne⟩⟩) hmem
    exact List.ne_nil_of_mem hmem
  · rw [← parts_eq_nil_iff]
    refine or_iff_not_imp_left.mpr fun hne => ?_
    exact length_flatten_pos (fun p hp => (of_mem_parts hp).1) hne

/-- Where no blank is left, tokens are the same or characters are lost. -/
theorem forall_or_length_lt {ι : Type*} {l : List ι} {ok : ι → Prop} {v w : ι → List Text}
    (heq : ∀ i ∈ l, ok i → w i = v i)
    (hlt : ∀ i ∈ l, (∀ t ∈ w i, ' ' ∉ t) →
      ok i ∨ (w i).flatten.length < (v i).flatten.length)
    (hblank : ∀ t ∈ l.flatMap w, ' ' ∉ t) :
    (∀ i ∈ l, ok i) ∨ (l.flatMap w).flatten.length < (l.flatMap v).flatten.length := by
  induction l with
  | nil => exact .inl fun i hi => (List.not_mem_nil hi).elim
  | cons i l ih =>
      obtain ⟨hi, hl⟩ := List.forall_mem_cons.mp heq
      obtain ⟨hlti, hltl⟩ := List.forall_mem_cons.mp hlt
      simp only [List.flatMap_cons, List.flatten_append, List.length_append, List.mem_append]
        at hblank ⊢
      have hhead := hlti fun t ht => hblank t (.inl ht)
      have htail := ih hl hltl fun t ht => hblank t (.inr ht)
      obtain hok | hhead := hhead
      · rw [hi hok]
        obtain hall | htail := htail
        · exact .inl (List.forall_mem_cons.mpr ⟨hok, hall⟩)
        · exact .inr (Nat.add_lt_add_left htail _)
      · obtain hall | htail := htail
        · rw [List.flatMap_congr fun j hj => hl j hj (hall j hj)]
          exact .inr (Nat.add_lt_add_right hhead _)
        · exact .inr (Nat.add_lt_add hhead htail)

/-! ## Coarse tokens -/

/-- Every term of the text is intact. -/
def IntactTerms (text : Text) : Prop :=
  ∀ segment ∈ splitByLang (a.strline text), segment.2 = false →
    ∀ term ∈ a.terms segment.1, a.Intact term

theorem kept_eq_joined_of_intact {line : Text} {segment : Text × Bool}
    (hsegment : segment ∈ splitByLang line)
    (h : segment.2 = false → ∀ term ∈ a.terms segment.1, a.Intact term) :
    a.kept segment = a.joined segment := by
  cases hzh : segment.2 with
  | true => exact a.kept_eq_joined_of_chinese hsegment hzh
  | false =>
      rw [kept_eq_flatMap a hzh, joined_eq_flatMap a hzh]
      exact List.flatMap_congr fun term hterm => a.keptTerm_eq_joinedTerm (h hzh term hterm)

theorem flatMap_kept_eq {text : Text} (h : a.IntactTerms text) :
    (splitByLang (a.strline text)).flatMap a.kept =
      (splitByLang (a.strline text)).flatMap a.joined :=
  List.flatMap_congr fun segment hsegment =>
    a.kept_eq_joined_of_intact hsegment (h segment hsegment)

/-- Tokens that are not the same do not have the same characters, or have a blank. -/
theorem intactTerms_of_flatten_eq {text : Text}
    (hflatten : ((splitByLang (a.strline text)).flatMap a.kept).flatten =
      ((splitByLang (a.strline text)).flatMap a.joined).flatten) : a.IntactTerms text := by
  have hblank : ∀ t ∈ (splitByLang (a.strline text)).flatMap a.kept, ' ' ∉ t := by
    intro t ht hmem
    have hflat : ' ' ∈ ((splitByLang (a.strline text)).flatMap a.joined).flatten := by
      rw [← hflatten]
      exact List.mem_flatten.mpr ⟨t, ht, hmem⟩
    obtain ⟨t', ht', hmem'⟩ := List.mem_flatten.mp hflat
    obtain ⟨segment, -, ht'⟩ := List.mem_flatMap.mp ht'
    exact (a.solid_of_mem_joined ht').2 hmem'
  have hall := @forall_or_length_lt _ (splitByLang (a.strline text))
    (fun segment => segment.2 = false → ∀ term ∈ a.terms segment.1, a.Intact term)
    a.joined a.kept ?_ ?_ hblank
  · obtain hall | hlt := hall
    · exact hall
    · rw [hflatten] at hlt
      exact absurd hlt (lt_irrefl _)
  · exact fun segment hsegment hok => a.kept_eq_joined_of_intact hsegment hok
  · intro segment _ hsolid
    cases hzh : segment.2 with
    | true => exact .inl fun h => absurd h (by decide)
    | false =>
        rw [kept_eq_flatMap a hzh] at hsolid ⊢
        rw [joined_eq_flatMap a hzh]
        obtain hterms | hlt := forall_or_length_lt
          (fun term _ => a.keptTerm_eq_joinedTerm) (fun term _ => a.intact_or_lt) hsolid
        · exact .inl fun _ => hterms
        · exact .inr hlt

theorem splitBlank_tokenize (text : Text) :
    splitBlank (a.tokenize text) =
      a.mergeTokens ((splitByLang (a.strline text)).flatMap a.joined) := by
  rw [tokenize_eq, splitBlank_join]
  refine flatMap_parts_self fun t ht => a.solid_of_mem_mergeTokens (fun t ht => ?_) ht
  obtain ⟨segment, -, ht⟩ := List.mem_flatMap.mp ht
  exact a.solid_of_mem_joined ht

theorem tokenizeWithPosition_of_intact {text : Text} (h : a.IntactTerms text) :
    a.tokenizeWithPosition text = splitBlank (a.tokenize text) := by
  rw [tokenizeWithPosition_eq, flatMap_kept_eq a h, splitBlank_tokenize]

theorem coarse_agree_iff (text : Text) :
    a.analyzeImpl text false true = a.analyzeImpl text false false ↔ a.IntactTerms text := by
  have hpos : a.analyzeImpl text false true =
      (a.tokenizeWithPosition text).filter (· ≠ []) := by
    rw [analyzeImpl, if_pos rfl, if_neg Bool.false_ne_true]
  have hplain : a.analyzeImpl text false false =
      (splitBlank (a.tokenize text)).filter (· ≠ []) := by
    rw [analyzeImpl, if_neg Bool.false_ne_true, if_neg Bool.false_ne_true]
  rw [hpos, hplain]
  constructor
  · intro h
    apply a.intactTerms_of_flatten_eq
    rw [← flatten_mergeTokens, ← tokenizeWithPosition_eq,
      ← flatten_mergeTokens a (List.flatMap _ _), ← splitBlank_tokenize,
      ← List.flatten_filter_ne_nil, h, List.flatten_filter_ne_nil]
  · intro h
    rw [tokenizeWithPosition_of_intact a h]

/-! ## Fine tokens -/

/-- Normalization neither changes tokens nor empties them. -/
theorem filter_map_eq_iff {f : Text → Text} (hnil : f [] = []) (l : List Text) :
    (l.map f).filter (· ≠ []) = l.filter (· ≠ []) ↔ ∀ t ∈ l, f t = t := by
  have hle : ∀ l : List Text,
      ((l.map f).filter (· ≠ [])).length ≤ (l.filter (· ≠ [])).length := by
    intro l
    induction l with
    | nil => exact le_rfl
    | cons t l ih =>
        rw [List.map_cons, List.filter_cons, List.filter_cons]
        by_cases ht : t = []
        · rw [ht, hnil]
          exact ih
        · by_cases hft : f t = []
          · simp only [ht, hft, ne_eq, not_true_eq_false, not_false_eq_true, decide_true,
              decide_false, if_true, List.length_cons]
            exact ih.trans (Nat.le_succ _)
          · simp only [ht, hft, ne_eq, not_false_eq_true, decide_true, if_true, List.length_cons]
            exact Nat.succ_le_succ ih
  induction l with
  | nil => simp
  | cons t l ih =>
      rw [List.forall_mem_cons, List.map_cons, List.filter_cons, List.filter_cons]
      by_cases ht : t = []
      · rw [ht, hnil]
        exact ih.trans (and_iff_right rfl).symm
      · by_cases hft : f t = []
        · refine iff_of_false (fun h => ?_) fun h => ht (h.1.symm.trans hft)
          have hlen := congrArg List.length h
          simp only [ht, hft, ne_eq, not_true_eq_false, not_false_eq_true, decide_true,
            decide_false, Bool.false_eq_true, if_true, if_false, List.length_cons] at hlen
          have := hle l
          simp only [ne_eq] at this
          omega
        · simp only [ht, hft, ne_eq, not_false_eq_true, decide_true, if_true, List.cons.injEq]
          exact and_congr_right fun _ => ih

/-- The text is tokenized in the same way with and without positions. -/
structure Steady (text : Text) : Prop where
  /-- Every term is found, unless its stem is blank, and no stem is cut at a blank. -/
  intact : a.IntactTerms text
  /-- Fine tokens of a Chinese text that end like words are their own normal forms. -/
  fixed : isEnglish (splitBlank (a.tokenize text)) ∨
    ∀ t ∈ (splitBlank (a.tokenize text)).flatMap a.fineTokens, pattern1 t → a.normalize t = t

theorem fine_agree_iff {text : Text} (h : a.IntactTerms text) :
    a.analyzeImpl text true true = a.analyzeImpl text true false ↔
      (isEnglish (splitBlank (a.tokenize text)) ∨
        ∀ t ∈ (splitBlank (a.tokenize text)).flatMap a.fineTokens,
          pattern1 t → a.normalize t = t) := by
  have hjoin : splitBlank (join (a.tokenizeWithPosition text)) = splitBlank (a.tokenize text) := by
    rw [tokenizeWithPosition_of_intact a h, splitBlank_join]
    exact flatMap_parts_self fun t ht => of_mem_parts ht
  have hpositions : a.analyzeImpl text true true =
      (a.fineGrainedTokenizeWithPosition (join (a.tokenizeWithPosition text))).filter (· ≠ []) := by
    rw [analyzeImpl, if_pos rfl, if_pos rfl]
  have hplain : a.analyzeImpl text true false =
      (a.fineGrainedTokenize (a.tokenize text)).filter (· ≠ []) := by
    rw [analyzeImpl, if_neg Bool.false_ne_true, if_pos rfl]
  rw [hpositions, hplain, fineGrainedTokenizeWithPosition, fineGrainedTokenize]
  simp only [hjoin]
  by_cases henglish : isEnglish (splitBlank (a.tokenize text)) = true
  · rw [if_pos henglish, if_pos henglish, List.filter_flatMap, List.filter_flatMap]
    simp only [List.filter_filter, Bool.and_self, henglish, true_or]
  · have hnil : (if pattern1 [] then a.normalize [] else []) = [] := if_neg (by decide)
    rw [if_neg henglish, if_neg henglish, or_iff_right henglish, englishNormalize, eq_comm]
    refine (filter_map_eq_iff (f := fun t => if pattern1 t then a.normalize t else t)
      hnil _).trans ?_
    refine forall₂_congr fun t _ => ?_
    by_cases ht : pattern1 t = true
    · rw [if_pos ht]
      exact ⟨fun h _ => h, fun h => h ht⟩
    · rw [if_neg ht]
      exact iff_of_true rfl fun h => absurd h ht

/-- The modes agree on the coarse and on the fine tokens of the steady texts. -/
theorem analyzeImpl_agree_iff (text : Text) :
    (∀ fineGrained, a.analyzeImpl text fineGrained true = a.analyzeImpl text fineGrained false) ↔
      a.Steady text := by
  constructor
  · intro h
    have hintact := (a.coarse_agree_iff text).mp (h false)
    exact ⟨hintact, (a.fine_agree_iff hintact).mp (h true)⟩
  · rintro ⟨hintact, hfixed⟩ fineGrained
    cases fineGrained with
    | false => exact (a.coarse_agree_iff text).mpr hintact
    | true => exact (a.fine_agree_iff hintact).mpr hfixed

/-- An empty dictionary, and a stemmer that takes two steps for one word. -/
def sample : RAGAnalyzer where
  replaceNonWords := id
  convert := id
  sentenceSplitter l := [l]
  wordTokenizer := splitBlank
  lemmatize := id
  stem t :=
    if t = "database".toList then "databas".toList
    else if t = "databas".toList then "databa".toList
    else t
  maxForward t := t.map fun ch => [ch]
  maxBackward t := t.map fun ch => [ch]
  bestTokens t := t.map fun ch => [ch]
  sortedTokens t := [t.map fun ch => [ch]]
  freq _ := 0

/-- Only without positions the word is stemmed once more. -/
theorem sample_modes_differ :
    sample.analyzeImpl "中 database".toList true true = ["中".toList, "databas".toList] ∧
      sample.analyzeImpl "中 database".toList true false = ["中".toList, "databa".toList] := by
  decide +kernel

end RAGAnalyzer

end RagflowMineru.Analyzer
