import RagflowMineru.Analyzer.Modes
import RagflowMineru.Analyzer.Segmentation
import RagflowMineru.Library.Alignment

/-!
# What a segmented line keeps

Tokens of both greedy segmentations that stand at the same place are emitted as they are, and
the gaps between them are searched.  The characters of a gap are lost where the search records
nothing, which is where all its ways to the end have eleven tokens.
-/

namespace RagflowMineru.Analyzer

open Library

/-- The tokens that are emitted, one behind the other. -/
def emitted (res : List Text) : Text := (res.flatMap splitBlank).flatten

/-- Cut at blanks, texts keep all their other characters. -/
theorem flatten_splitBlanks (ts : List Text) :
    (ts.flatMap splitBlank).flatten = ts.flatten.filter (· ≠ ' ') := by
  induction ts with
  | nil => rfl
  | cons t ts ih =>
    rw [List.flatMap_cons, List.flatten_append, ih, splitBlank, flatten_parts, List.flatten_cons,
      List.filter_append]

theorem emitted_cons_join {tokens : List Text} (h : ' ' ∉ tokens.flatten) (res : List Text) :
    emitted (join tokens :: res) = tokens.flatten ++ emitted res := by
  have hjoin : splitBlank (join tokens) = tokens.flatMap splitBlank := parts_intercalate tokens
  rw [emitted, List.flatMap_cons, List.flatten_append, hjoin, flatten_splitBlanks, emitted]
  congr 1
  exact List.filter_eq_self.mpr fun ch hch => decide_eq_true (ne_of_mem_of_not_mem hch h)

/-! ## Greedy segmentations -/

section Greedy

variable (goesOn isWord : Text → Bool)

theorem grow_spec (t rest : Text) :
    t <+: grow goesOn t rest ∧ grow goesOn t rest <+: t ++ rest := by
  induction rest generalizing t with
  | nil => exact ⟨List.prefix_rfl, List.prefix_append t []⟩
  | cons ch rest ih =>
    rw [grow]
    split
    · obtain ⟨hfrom, hto⟩ := ih (t ++ [ch])
      exact ⟨(List.prefix_append t [ch]).trans hfrom, by simpa using hto⟩
    · exact ⟨List.prefix_rfl, List.prefix_append t _⟩

theorem shrink_spec (t : Text) (n : ℕ) : ∃ k, shrink isWord t n = t.take (k + 1) := by
  induction n with
  | zero => exact ⟨0, rfl⟩
  | succ n ih =>
    rw [shrink]
    split
    · exact ⟨n + 1, rfl⟩
    · exact ih

/-- A greedy segmentation keeps the text, in tokens that are not empty. -/
theorem greedy_spec (skip : ℕ) (l : Text) :
    (greedy goesOn isWord skip l).flatten = l.drop skip ∧
      [] ∉ greedy goesOn isWord skip l := by
  induction l generalizing skip with
  | nil => exact ⟨by rw [greedy, List.flatten_nil, List.drop_nil], by simp [greedy]⟩
  | cons ch l ih =>
    cases skip with
    | succ skip =>
      rw [greedy, List.drop_succ_cons]
      exact ih skip
    | zero =>
      rw [greedy]
      obtain ⟨hfrom, hto⟩ := grow_spec goesOn [ch] l
      generalize grow goesOn [ch] l = grown at *
      obtain ⟨k, hk⟩ := shrink_spec isWord grown (grown.length - 1)
      obtain ⟨rest, rfl⟩ := hfrom
      have htoken : shrink isWord ([ch] ++ rest) (([ch] ++ rest).length - 1) =
          ch :: rest.take k := hk
      obtain ⟨behind, hbehind⟩ := hto
      have hl : l = rest ++ behind := by simpa using hbehind.symm
      obtain ⟨hflat, hne⟩ := ih (rest.take k).length
      simp only [htoken, List.length_cons, Nat.add_sub_cancel, List.flatten_cons, hflat]
      refine ⟨?_, fun hmem => ?_⟩
      · rw [List.drop_zero, List.cons_append, hl, List.length_take]
        congr 1
        rcases Nat.le_total k rest.length with hle | hle
        · rw [min_eq_left hle, List.drop_append_of_le_length hle, ← List.append_assoc,
            List.take_append_drop]
        · rw [min_eq_right hle, List.take_of_length_le hle, List.drop_left]
      · rcases List.mem_cons.mp hmem with heq | hmem
        · cases heq
        · exact hne hmem

end Greedy

/-- The score comes beside the tokens themselves. -/
theorem score_withValues (trie : DartsTrie) (tokens : List Text) :
    (score (withValues trie tokens)).1 = tokens := by
  simp [score, withValues, Function.comp_def]

theorem maxForward_spec (trie : DartsTrie) (line : Text) :
    (maxForward trie line).1.flatten = line ∧ [] ∉ (maxForward trie line).1 := by
  rw [maxForward, score_withValues]
  exact greedy_spec _ _ 0 line

theorem maxBackward_spec (trie : DartsTrie) (line : Text) :
    (maxBackward trie line).1.flatten = line ∧ [] ∉ (maxBackward trie line).1 := by
  rw [maxBackward, score_withValues]
  obtain ⟨hflat, hne⟩ := greedy_spec (fun t => trie.hasKeysWithPrefix (rKey t.reverse))
    (fun t => (trie.get (key t.reverse)).isSome) 0 line.reverse
  constructor
  · rw [← List.reverse_flatten, hflat, List.drop_zero, List.reverse_reverse]
  · simpa using hne

/-! ## Bytes -/

theorem size_append (t t' : Text) : size (t ++ t') = size t + size t' := by
  rw [size, List.map_append, List.sum_append]
  rfl

theorem size_pos {t : Text} (h : t ≠ []) : 0 < size t := by
  obtain ⟨ch, t, rfl⟩ := List.exists_cons_of_ne_nil h
  rw [size, List.map_cons, List.sum_cons]
  exact Nat.add_pos_left ch.utf8Size_pos _

/-- Of two stretches with one beginning the longer one has more bytes. -/
theorem size_lt_size_iff {line : Text} {c m n : ℕ} (hm : m ≤ line.length) (hn : n ≤ line.length)
    (hcm : c ≤ m) (hcn : c ≤ n) :
    size ((line.take m).drop c) < size ((line.take n).drop c) ↔ m < n := by
  have hlt : ∀ {m n : ℕ}, n ≤ line.length → c ≤ m → m < n →
      size ((line.take m).drop c) < size ((line.take n).drop c) := by
    intro m n hn hcm hmn
    have hsplit : (line.take n).drop c = (line.take m).drop c ++ (line.take n).drop m := by
      have htake := List.take_append_drop m (line.take n)
      rw [List.take_take, min_eq_left hmn.le] at htake
      rw [← List.drop_append_of_le_length (by rw [List.length_take]; omega), htake]
    have hne : (line.take n).drop m ≠ [] := by
      rw [ne_eq, List.drop_eq_nil_iff, List.length_take]
      omega
    rw [hsplit, size_append]
    exact Nat.lt_add_of_pos_right (size_pos hne)
  constructor
  · intro h
    by_contra hle
    rcases Nat.eq_or_lt_of_le (not_lt.mp hle) with rfl | hgt
    · exact lt_irrefl _ h
    · exact absurd (hlt hm hcn hgt) h.le.not_gt
  · exact hlt hn hcm

/-! ## The two cursors -/

section Loop

variable {a : RAGAnalyzer} {tks tks1 : List Text} {line : Text}

/-- The characters of the gap are found again. -/
def Kept (a : RAGAnalyzer) (line : Text) (lo hi : ℕ) : Prop :=
  (a.bestTokens ((line.take hi).drop lo)).flatten = (line.take hi).drop lo

/-- What is emitted for the line from `c` on: no more than that, and all of it when the gaps from
`g` on are kept. -/
def Emits (a : RAGAnalyzer) (tks tks1 : List Text) (line : Text) (c g : ℕ) (res : List Text) :
    Prop :=
  (emitted res).length ≤ line.length - c ∧
    (emitted res = line.drop c ↔ ∀ lo hi, Gap tks1 tks lo hi → g ≤ lo → Kept a line lo hi)

theorem slice_flatten (htks : tks.flatten = line) {i j : ℕ} (h : i ≤ j) :
    (RAGAnalyzer.slice tks i j).flatten = (line.take (offset tks j)).drop (offset tks i) := by
  rw [RAGAnalyzer.slice, flatten_drop_take tks h, htks]

theorem sameCount_eq_succ {ts ts' : List Text} {n : ℕ} (h : RAGAnalyzer.sameCount ts ts' = n + 1) :
    ∃ t rest rest', ts = t :: rest ∧ ts' = t :: rest' ∧ RAGAnalyzer.sameCount rest rest' = n := by
  rcases ts with _ | ⟨t, rest⟩
  · cases h
  · rcases ts' with _ | ⟨t', rest'⟩
    · cases h
    · rw [RAGAnalyzer.sameCount] at h
      by_cases heq : t = t'
      · rw [if_pos heq] at h
        exact ⟨t, rest, rest', rfl, by rw [heq], Nat.succ.inj h⟩
      · rw [if_neg heq] at h
        cases h

theorem getElem?_of_drop {ts rest : List Text} {t : Text} {k : ℕ} (h : ts.drop k = t :: rest) :
    ts[k]? = some t ∧ ts.drop (k + 1) = rest := by
  constructor
  · rw [← List.head?_drop, h, List.head?_cons]
  · rw [← List.tail_drop, h, List.tail_cons]

/-- A run of common tokens is passed with both cursors. -/
theorem ahead_sameCount (htks : [] ∉ tks) (htks1 : [] ∉ tks1) {i j : ℕ}
    (h : Ahead tks1 tks (offset tks1 i) i j) (hstarts : Starts tks1 tks (offset tks1 i))
    (heq : offset tks1 i = offset tks j) {n : ℕ}
    (hn : RAGAnalyzer.sameCount (tks1.drop i) (tks.drop j) = n) :
    Ahead tks1 tks (offset tks1 (i + n)) (i + n + 1) (j + n + 1) ∧
      Starts tks1 tks (offset tks1 (i + n)) ∧ offset tks1 (i + n) = offset tks (j + n) ∧
      ∀ lo hi, Gap tks1 tks lo hi → offset tks1 i ≤ lo → offset tks1 (i + n) ≤ lo := by
  induction n generalizing i j with
  | zero =>
    refine ⟨h.both htks1 htks heq fun t hi hj => ?_, hstarts, heq, fun lo hi _ hle => hle⟩
    obtain ⟨ts, hts⟩ := List.head?_eq_some_iff.mp ((List.head?_drop).trans hi)
    obtain ⟨ts', hts'⟩ := List.head?_eq_some_iff.mp ((List.head?_drop).trans hj)
    rw [hts, hts', RAGAnalyzer.sameCount, if_pos rfl] at hn
    exact absurd hn (Nat.succ_ne_zero _)
  | succ n ih =>
    obtain ⟨t, rest, rest', hi, hj, hrest⟩ := sameCount_eq_succ hn
    obtain ⟨hti, hi⟩ := getElem?_of_drop hi
    obtain ⟨htj, hj⟩ := getElem?_of_drop hj
    obtain ⟨hahead, hstarts', heq'⟩ := h.step htks1 htks le_rfl heq hti htj
    obtain ⟨hahead', hstarts', heq', hskip⟩ := ih hahead hstarts' heq' (by rw [hi, hj, hrest])
    have hplace : ∀ k, k + (n + 1) = k + 1 + n := fun k => by omega
    rw [hplace i, hplace j]
    refine ⟨hahead', hstarts', heq', fun lo hi hgap hle => hskip lo hi hgap ?_⟩
    rw [offset_succ hti]
    exact hgap.skip ⟨i, j, hti, htj, rfl, heq.symm⟩ hle

theorem drop_eq_append (line : Text) {c n : ℕ} (hcn : c ≤ n) (hn : n ≤ line.length) :
    line.drop c = (line.take n).drop c ++ line.drop n := by
  rw [← List.drop_append_of_le_length (by rw [List.length_take]; omega), List.take_append_drop]

theorem blank_notMem_stretch (hblank : ' ' ∉ line) (lo hi : ℕ) :
    ' ' ∉ (line.take hi).drop lo := fun h =>
  hblank (List.mem_of_mem_take (List.mem_of_mem_drop h))

theorem length_stretch (line : Text) {lo hi : ℕ} (h : hi ≤ line.length) :
    ((line.take hi).drop lo).length = hi - lo := by
  rw [List.length_drop, List.length_take, min_eq_left h]

theorem stretch_inj {c m n : ℕ} (hm : m ≤ line.length) (hn : n ≤ line.length) (hcm : c ≤ m)
    (hcn : c ≤ n) (h : (line.take m).drop c = (line.take n).drop c) : m = n := by
  have hcount := congrArg List.length h
  rw [length_stretch line hm, length_stretch line hn] at hcount
  omega

/-- Common tokens are emitted. -/
theorem emits_run {lo hi g : ℕ} {res tokens : List Text} (hblank : ' ' ∉ line) (hlohi : lo ≤ hi)
    (hhi : hi ≤ line.length) (htokens : tokens.flatten = (line.take hi).drop lo)
    (hres : Emits a tks tks1 line hi g res) :
    Emits a tks tks1 line lo g (join tokens :: res) := by
  obtain ⟨hlength, hiff⟩ := hres
  have hcount := @length_stretch line lo hi hhi
  rw [Emits, emitted_cons_join (htokens ▸ blank_notMem_stretch hblank lo hi), htokens,
    drop_eq_append line hlohi hhi, List.append_right_inj, List.length_append]
  exact ⟨by omega, hiff⟩

/-- A gap that is searched is emitted or lost. -/
theorem emits_gap {c lo g : ℕ} {res : List Text}
    (hbest : ∀ t, t ≠ [] → (a.bestTokens t).flatten = t ∨ a.bestTokens t = [])
    (hblank : ' ' ∉ line) (hgap : Gap tks1 tks c lo) (hlo : lo ≤ line.length) (hg : c ≤ g)
    (hgaps : ∀ lo' hi', Gap tks1 tks lo' hi' → c ≤ lo' → lo' = c ∧ hi' = lo ∨ g ≤ lo')
    (hres : Emits a tks tks1 line lo g res) :
    Emits a tks tks1 line c c (join (a.bestTokens ((line.take lo).drop c)) :: res) := by
  have hclo := hgap.lt
  obtain ⟨hlength, hiff⟩ := hres
  have hcount := @length_stretch line c lo hlo
  have hne : (line.take lo).drop c ≠ [] := by
    rw [← List.length_pos_iff]
    omega
  rw [Emits, drop_eq_append line hclo.le hlo]
  rcases hbest _ hne with hfound | hlost
  · have hfree : ' ' ∉ (a.bestTokens ((line.take lo).drop c)).flatten := by
      rw [hfound]
      exact blank_notMem_stretch hblank c lo
    rw [emitted_cons_join hfree, hfound, List.length_append, List.append_right_inj, hiff]
    refine ⟨by omega, fun h lo' hi' hgap' hle => ?_, fun h lo' hi' hgap' hle =>
      h lo' hi' hgap' (hg.trans hle)⟩
    rcases hgaps lo' hi' hgap' hle with ⟨rfl, rfl⟩ | hfar
    · exact hfound
    · exact h lo' hi' hgap' hfar
  · rw [hlost, emitted_cons_join (by simp), List.flatten_nil, List.nil_append]
    refine ⟨by omega, iff_of_false (fun heq => ?_) fun h => ?_⟩
    · have hlengths := congrArg List.length heq
      rw [List.length_append, hcount, List.length_drop] at hlengths
      omega
    · have hkept := h c lo hgap le_rfl
      rw [Kept, hlost] at hkept
      exact hne hkept.symm

/-- Where both cursors meet at a common token, the gap is searched and a run of common tokens is
passed; what comes behind it is emitted at its own place. -/
theorem emits_common
    (hbest : ∀ t, t ≠ [] → (a.bestTokens t).flatten = t ∨ a.bestTokens t = [])
    (hblank : ' ' ∉ line) (htks : tks.flatten = line) (htks1 : tks1.flatten = line)
    (hne : [] ∉ tks) (hne1 : [] ∉ tks1) {i₀ i j same : ℕ} {rest : List Text} (hi : i₀ < i)
    (hlt : i < tks1.length) (hstarts : Starts tks1 tks (offset tks1 i₀))
    (hahead : Ahead tks1 tks (offset tks1 i₀) i j) (hplace : offset tks1 i = offset tks j)
    (hequal : tks1[i]? = tks[j]?)
    (hsame : same = 1 + RAGAnalyzer.sameCount (tks1.drop (i + 1)) (tks.drop (j + 1)))
    (hrest : offset tks1 (i + same) = offset tks (j + same) →
      Starts tks1 tks (offset tks1 (i + same)) →
      Ahead tks1 tks (offset tks1 (i + same)) (i + same + 1) (j + same + 1) →
      Emits a tks tks1 line (offset tks1 (i + same)) (offset tks1 (i + same)) rest) :
    Emits a tks tks1 line (offset tks1 i₀) (offset tks1 i₀)
      (join (a.bestTokens ((line.take (offset tks j)).drop (offset tks1 i₀))) ::
        join (RAGAnalyzer.slice tks j (j + same)) :: rest) := by
  have hle1 := fun k => htks1 ▸ offset_le_length tks1 k
  obtain ⟨t, hti⟩ : ∃ t, tks1[i]? = some t := ⟨_, List.getElem?_eq_getElem hlt⟩
  have htj := hequal.symm.trans hti
  have hbetween := offset_lt hne1 (hi.trans hlt) hi
  obtain ⟨hgap, hgaps⟩ := hahead.gap hstarts hbetween hplace hti htj
  obtain ⟨hahead', hstarts', hplace'⟩ := hahead.step hne1 hne hbetween.le hplace hti htj
  obtain ⟨hahead', hstarts', hplace', hskip⟩ :=
    ahead_sameCount hne hne1 hahead' hstarts' hplace' rfl
  rw [Nat.add_assoc i 1, Nat.add_assoc j 1, ← hsame] at hahead' hplace'
  rw [Nat.add_assoc i 1, ← hsame] at hstarts' hskip
  have htokens := @slice_flatten tks line htks j (j + same) (Nat.le_add_right j _)
  rw [← hplace, ← hplace'] at htokens
  rw [← hplace]
  have hmono := offset_mono tks1 (Nat.le_add_right i same)
  refine emits_gap hbest hblank hgap (hle1 i) (hbetween.le.trans hmono) (fun lo hi hgap' hlo => ?_)
    (emits_run hblank hmono (hle1 _) htokens (hrest hplace' hstarts' hahead'))
  exact (hgaps lo hi hgap' hlo).imp_right fun hfar => hskip lo hi hgap' hfar

/-- Nothing is left to emit at the end of the line. -/
theorem emits_nil (htks1 : tks1.flatten = line) :
    Emits a tks tks1 line line.length line.length [] := by
  refine ⟨by simp [emitted], ?_⟩
  rw [List.drop_length]
  refine iff_of_true rfl fun lo hi hgap hlo => absurd hlo (not_le.mpr ?_)
  exact hgap.lt.trans_le (htks1 ▸ hgap.le_length)

/-- Behind the last common token one gap is left. -/
theorem emits_last
    (hbest : ∀ t, t ≠ [] → (a.bestTokens t).flatten = t ∨ a.bestTokens t = [])
    (hblank : ' ' ∉ line) (htks : tks.flatten = line) (htks1 : tks1.flatten = line)
    (hne1 : [] ∉ tks1) {i₀ j₀ i j : ℕ} (hend : ¬ (i < tks1.length ∧ j < tks.length))
    (hi₀ : i₀ < tks1.length) (heq : offset tks1 i₀ = offset tks j₀)
    (hstarts : Starts tks1 tks (offset tks1 i₀))
    (hahead : Ahead tks1 tks (offset tks1 i₀) i j) :
    Emits a tks tks1 line (offset tks1 i₀) (offset tks1 i₀)
      [join (a.bestTokens (RAGAnalyzer.slice tks j₀ tks.length).flatten)] := by
  have hlength : tks1.flatten.length = tks.flatten.length := by rw [htks, htks1]
  obtain ⟨hgap, hgaps⟩ := hahead.last hne1 hstarts hlength (by omega)
  have hlt := offset_lt_length hne1 hi₀
  have hj₀ : j₀ ≤ tks.length := by
    by_contra hfar
    rw [heq, offset_of_length_le (not_le.mp hfar).le] at hlt
    omega
  have hlast : (RAGAnalyzer.slice tks j₀ tks.length).flatten =
      (line.take line.length).drop (offset tks1 i₀) := by
    rw [slice_flatten htks hj₀, offset_of_length_le le_rfl, htks, heq]
  rw [htks1] at hgap hgaps hlt
  rw [hlast]
  exact emits_gap hbest hblank (hgap hlt) le_rfl hlt.le (fun lo hi hgap' hlo =>
    .inl (hgaps lo hi hgap' hlo)) (emits_nil htks1)

/-- The loop emits the line from the last common token on, but for the gaps that are lost. -/
theorem emits_innerLoop
    (hbest : ∀ t, t ≠ [] → (a.bestTokens t).flatten = t ∨ a.bestTokens t = [])
    (hblank : ' ' ∉ line) (htks : tks.flatten = line) (htks1 : tks1.flatten = line)
    (hne : [] ∉ tks) (hne1 : [] ∉ tks1) {i₀ j₀ i j : ℕ} (hi : i₀ < i) (hj : j₀ < j)
    (heq : offset tks1 i₀ = offset tks j₀) (hstarts : Starts tks1 tks (offset tks1 i₀))
    (hahead : Ahead tks1 tks (offset tks1 i₀) i j) :
    Emits a tks tks1 line (offset tks1 i₀) (offset tks1 i₀)
      (a.innerLoop tks tks1 i₀ j₀ i j) := by
  have hle := fun k => htks ▸ offset_le_length tks k
  have hle1 := fun k => htks1 ▸ offset_le_length tks1 k
  induction i₀, j₀, i, j using RAGAnalyzer.innerLoop.induct tks tks1 with
  | case1 i₀ j₀ i j hlt tk1 tk hdiff hsize ih =>
    rw [RAGAnalyzer.innerLoop, if_pos hlt]
    simp only
    rw [if_pos hdiff, if_pos hsize]
    simp only [tk1, tk, slice_flatten htks hj.le, slice_flatten htks1 hi.le, ← heq] at hsize
    have hback := (size_lt_size_iff (hle j) (hle1 i) (heq ▸ offset_mono tks hj.le)
      (offset_mono tks1 hi.le)).mp hsize
    exact ih hi (hj.trans (Nat.lt_succ_self j)) heq hstarts (hahead.right hback)
  | case2 i₀ j₀ i j hlt tk1 tk hdiff hsize ih =>
    rw [RAGAnalyzer.innerLoop, if_pos hlt]
    simp only
    rw [if_pos hdiff, if_neg hsize]
    simp only [tk1, tk, slice_flatten htks hj.le, slice_flatten htks1 hi.le, ← heq] at hsize hdiff
    have hback : offset tks1 i < offset tks j := by
      refine Nat.lt_of_le_of_ne (not_lt.mp fun hfar => hsize ?_) fun hplace => hdiff ?_
      · exact (size_lt_size_iff (hle j) (hle1 i) (heq ▸ offset_mono tks hj.le)
          (offset_mono tks1 hi.le)).mpr hfar
      · rw [hplace]
    exact ih (hi.trans (Nat.lt_succ_self i)) hj heq hstarts (hahead.left hback)
  | case3 i₀ j₀ i j hlt tk1 tk hsame hdiff ih =>
    rw [RAGAnalyzer.innerLoop, if_pos hlt]
    simp only
    rw [if_neg hsame, if_pos hdiff]
    simp only [tk1, tk, slice_flatten htks hj.le, slice_flatten htks1 hi.le, ← heq] at hsame
    have hplace := stretch_inj (hle1 i) (hle j) (offset_mono tks1 hi.le)
      (heq ▸ offset_mono tks hj.le) (not_not.mp hsame)
    refine ih (hi.trans (Nat.lt_succ_self i)) (hj.trans (Nat.lt_succ_self j)) heq hstarts ?_
    exact hahead.both hne1 hne hplace fun t hti htj => hdiff (hti.trans htj.symm)
  | case4 i₀ j₀ i j hlt tk1 tk hsame hequal same ih =>
    rw [RAGAnalyzer.innerLoop, if_pos hlt]
    simp only
    rw [if_neg hsame, if_neg hequal]
    simp only [tk1, tk, slice_flatten htks hj.le, slice_flatten htks1 hi.le, ← heq] at hsame ⊢
    have hplace := stretch_inj (hle1 i) (hle j) (offset_mono tks1 hi.le)
      (heq ▸ offset_mono tks hj.le) (not_not.mp hsame)
    exact emits_common hbest hblank htks htks1 hne hne1 hi hlt.1 hstarts hahead hplace
      (not_not.mp hequal) rfl (ih (Nat.lt_succ_self _) (Nat.lt_succ_self _))
  | case5 i₀ j₀ i j hend hrest =>
    rw [RAGAnalyzer.innerLoop, if_neg hend, if_pos hrest]
    exact emits_last hbest hblank htks htks1 hne1 hend hrest heq hstarts hahead
  | case6 i₀ j₀ i j hend hrest =>
    have hall : offset tks1 i₀ = line.length := by
      rw [offset_of_length_le (not_lt.mp hrest), htks1]
    rw [RAGAnalyzer.innerLoop, if_neg hend, if_neg hrest, hall]
    exact emits_nil htks1

/-- A line is emitted as it is, if and only if its gaps are kept. -/
theorem emitted_tokenizeInner_iff
    (hbest : ∀ t, t ≠ [] → (a.bestTokens t).flatten = t ∨ a.bestTokens t = [])
    (hforward : (a.maxForward line).flatten = line ∧ [] ∉ a.maxForward line)
    (hbackward : (a.maxBackward line).flatten = line ∧ [] ∉ a.maxBackward line)
    (hblank : ' ' ∉ line) :
    emitted (a.tokenizeInner line) = line ↔
      ∀ lo hi, Gap (a.maxBackward line) (a.maxForward line) lo hi → Kept a line lo hi := by
  obtain ⟨htks, hne⟩ := hforward
  obtain ⟨htks1, hne1⟩ := hbackward
  rw [RAGAnalyzer.tokenizeInner]
  generalize a.maxForward line = tks at *
  generalize a.maxBackward line = tks1 at *
  obtain ⟨hahead, hstarts, hplace, hskip⟩ := @ahead_sameCount tks tks1 hne hne1 0 0
    (ahead_zero tks1 tks) (.inl rfl) rfl _ rfl
  rw [List.drop_zero, List.drop_zero] at hahead hstarts hplace hskip
  simp only [Nat.zero_add] at hahead hstarts hplace hskip
  generalize RAGAnalyzer.sameCount tks1 tks = same at *
  have hinner := emits_innerLoop hbest hblank htks htks1 hne hne1 (Nat.lt_succ_self same)
    (Nat.lt_succ_self same) hplace hstarts hahead
  have hfront : Emits a tks tks1 line 0 (offset tks1 same)
      ((if same > 0 then [join (RAGAnalyzer.slice tks 0 same)] else []) ++
        a.innerLoop tks tks1 same same (same + 1) (same + 1)) := by
    by_cases hsame : same > 0
    · rw [if_pos hsame]
      refine emits_run hblank (Nat.zero_le _) ?_ ?_ hinner
      · rw [← htks1]
        exact offset_le_length tks1 same
      · rw [slice_flatten htks (Nat.zero_le same), hplace, offset_zero]
    · obtain rfl := Nat.eq_zero_of_not_pos hsame
      exact hinner
  have hiff := hfront.2
  rw [List.drop_zero] at hiff
  rw [hiff]
  exact ⟨fun h lo hi hgap => h lo hi hgap (hskip lo hi hgap (Nat.zero_le lo)),
    fun h lo hi hgap _ => h lo hi hgap⟩

end Loop

/-! ## Lossless lines -/

section Lossless

variable (a : RAGAnalyzer) (trie : DartsTrie)

def Lossless (line : Text) : Prop := emitted ((withTrie a trie).tokenizeInner line) = line

/-- The search records segmentations of the text, and one at least. -/
def Records (chars : Text) : Prop :=
  tokenList trie chars ≠ [] ∧ ∀ tokens ∈ tokenList trie chars, (tokens.map Prod.fst).flatten = chars

/-- A way through the text has fewer tokens than depths are searched, or more. -/
def Recordable (chars : Text) : Prop :=
  ∃ path, Way trie chars path ∧ path.length ≠ maxDfsDepth + 1

variable {a trie}

theorem records_iff (chars : Text) : Records trie chars ↔ Recordable trie chars :=
  (and_iff_left flatten_tokenList).trans tokenList_ne_nil_iff

theorem bestTokens_cases {t : Text} (ht : t ≠ []) :
    (bestTokens trie t).flatten = t ∨ bestTokens trie t = [] := by
  by_cases hlist : tokenList trie t = []
  · exact .inr (bestTokens_eq_nil hlist)
  · exact .inl ((flatten_bestTokens_iff ht).mpr hlist)

theorem lossless_iff_kept {line : Text} (hblank : ' ' ∉ line) :
    Lossless a trie line ↔ ∀ lo hi, Gap (maxBackward trie line).1 (maxForward trie line).1 lo hi →
      Kept (withTrie a trie) line lo hi :=
  emitted_tokenizeInner_iff (fun _ => bestTokens_cases) (maxForward_spec trie line)
    (maxBackward_spec trie line) hblank

end Lossless

/-- A line is emitted as it is, if and only if every gap between the tokens of both directions has a
way of fewer or more than eleven tokens, and so has every text for which the search records a
segmentation. -/
theorem tokenizeInner_lossless_iff (a : RAGAnalyzer) (trie : DartsTrie) :
    (∀ line : Text, ' ' ∉ line →
      (Lossless a trie line ↔ ∀ lo hi,
        Gap (maxBackward trie line).1 (maxForward trie line).1 lo hi →
          Recordable trie ((line.take hi).drop lo))) ∧
    ∀ chars : Text, Records trie chars ↔ Recordable trie chars := by
  refine ⟨fun line hblank => ?_, records_iff⟩
  rw [lossless_iff_kept hblank]
  refine forall_congr' fun lo => forall_congr' fun hi => imp_congr_right fun hgap => ?_
  have hhi := hgap.le_length
  rw [(maxBackward_spec trie line).1] at hhi
  have hne : (line.take hi).drop lo ≠ [] := by
    rw [← List.length_pos_iff, length_stretch line hhi]
    exact Nat.sub_pos_of_lt hgap.lt
  exact (flatten_bestTokens_iff hne).trans tokenList_ne_nil_iff

theorem tokenizeInner_lossless_zhongguo :
    Lossless RAGAnalyzer.sample ⟨[("中国".toList, 5)]⟩ "中国".toList ↔ ∀ lo hi,
      Gap (maxBackward ⟨[("中国".toList, 5)]⟩ "中国".toList).1
          (maxForward ⟨[("中国".toList, 5)]⟩ "中国".toList).1 lo hi →
        Recordable ⟨[("中国".toList, 5)]⟩ (("中国".toList.take hi).drop lo) :=
  (tokenizeInner_lossless_iff RAGAnalyzer.sample ⟨[("中国".toList, 5)]⟩).1 "中国".toList (by decide)

/-- Both words can be read all through a text of the two characters in turn. -/
def zhongguo : DartsTrie :=
  ⟨[("中国".toList, 5), ("国中".toList, 5), ("DD国中".toList, 5), ("DD中国".toList, 5)]⟩

def zhongguoLine : Text := "中国中国中国中国中国中国中国中国中国中国中".toList

/-- The only way through the line has eleven tokens. -/
theorem not_lossless_zhongguo : ¬ Lossless RAGAnalyzer.sample zhongguo zhongguoLine := by
  have hforward : (maxForward zhongguo zhongguoLine).1 =
      List.replicate 10 "中国".toList ++ ["中".toList] := by decide
  have hbackward : (maxBackward zhongguo zhongguoLine).1 =
      "中".toList :: List.replicate 10 "国中".toList := by decide
  have hbest : bestTokens zhongguo zhongguoLine = [] := by decide
  have hgap : Gap ("中".toList :: List.replicate 10 "国中".toList)
      (List.replicate 10 "中国".toList ++ ["中".toList]) 0 21 := by
    refine ⟨by decide, .inl rfl, .inl rfl, ?_⟩
    have hnone : ∀ i < 11, ∀ j < 11,
        ("中".toList :: List.replicate 10 "国中".toList)[i]? =
            (List.replicate 10 "中国".toList ++ ["中".toList])[j]? →
          offset ("中".toList :: List.replicate 10 "国中".toList) i ≠
            offset (List.replicate 10 "中国".toList ++ ["中".toList]) j := by decide
    rintro o t ⟨i, j, hi, hj, rfl, hplace⟩
    exact absurd hplace.symm
      (hnone i (lt_length_of_getElem? hi) j (lt_length_of_getElem? hj) (hi.trans hj.symm))
  intro h
  have hkept := (lossless_iff_kept (by decide)).mp h 0 21 (by rw [hforward, hbackward]; exact hgap)
  have hlost : (bestTokens zhongguo zhongguoLine).flatten = zhongguoLine := hkept
  rw [hbest] at hlost
  cases hlost

end RagflowMineru.Analyzer
