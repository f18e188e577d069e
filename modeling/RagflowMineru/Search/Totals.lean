import RagflowMineru.Search.Pagination

/-!
# The total of a retrieval

`total` is the number of chunks of one rerank window that pass the threshold:
the window of the page that was asked for.  So the pages agree on it, and it
counts what they return together, only if they all come from one window or
nothing passes at all.
-/

namespace RagflowMineru.Search

open RagflowMineru.Library

variable {S : Type} [Zero S] [Neg S] [LE S] [DecidableLE S]

/-- The first `n` pages have one `total`, and it is the number of chunks that
they return together. -/
def TotalsAgree (ranker : Ranker S) (ranked : List Chunk) (req : Request S)
    (pageSize : ℤ) (n : ℕ) : Prop :=
  ∃ total : ℕ,
    (∀ page : ℤ, 1 ≤ page → page ≤ n →
      (retrieval ranker ranked req page pageSize).map Ranks.total =
        some total) ∧
    ∃ pages, firstPages ranker ranked req pageSize n = some pages ∧
      pages.flatten.length = total

/-- The page asked of the backend: the ceiling of `page` divided by the number
of pages in a window, as a double. -/
def askedWindow (pageSize page : ℤ) : Option ℤ :=
  (Binary64.trueDiv page (pagesPerWindow pageSize)).map Int.ceil

/-- No chunk passes the threshold in the windows that the first `n` pages are
answered from. -/
def NothingPasses (ranker : Ranker S) (ranked : List Chunk) (req : Request S)
    (pageSize : ℤ) (n : ℕ) : Prop :=
  ∀ page : ℤ, 1 ≤ page → page ≤ n →
    ∃ k, askedWindow pageSize page = some k ∧
      passing ranker req
        (search ranked k (pagesPerWindow pageSize * pageSize)) = []

variable {ranker : Ranker S} {req : Request S} {ranked : List Chunk}

/-! ## The window of a page -/

theorem pageWindow_eq_askedWindow {pageSize : ℤ} (hsize : 1 ≤ pageSize)
    (hlt : pageSize < underflowSize) (page : ℤ) :
    pageWindow page pageSize = (askedWindow pageSize page).map fun k =>
      { limit := pagesPerWindow pageSize * pageSize
        backendPage := k
        sliceBegin := (page - 1) % pagesPerWindow pageSize * pageSize
        sliceEnd :=
          (page - 1) % pagesPerWindow pageSize * pageSize + pageSize } := by
  rw [pageWindow_eq hsize hlt, mul_comm pageSize page,
    Binary64.trueDiv_mul_right _ _ (by omega), askedWindow, Option.map_map]
  rfl

/-- From the underflow on, already the first page is out of range. -/
theorem pageWindow_of_ge {pageSize : ℤ} (hge : underflowSize ≤ pageSize) :
    pageWindow 1 pageSize = none := by
  have hlarge : (2 : ℤ) ^ 1024 * 30 ≤ pageSize := by
    calc
      (2 : ℤ) ^ 1024 * 30 ≤ 2 ^ 1024 * 2 ^ 57 :=
        mul_le_mul_of_nonneg_left (by norm_num)
          (pow_nonneg (by norm_num) _)
      _ = underflowSize := by
        rw [← pow_add, underflowSize]
      _ ≤ pageSize := hge
  rw [pageWindow, rerankLimit_of_ge hge, Option.bind_eq_bind,
    Option.bind_some, mul_one, Binary64.trueDiv_eq_none (by norm_num) hlarge]
  rfl

/-- Only what passes is returned. -/
theorem length_chunks_le_total {page pageSize : ℤ} {ranks : Ranks S}
    (hranks : retrieval ranker ranked req page pageSize = some ranks) :
    ranks.chunks.length ≤ ranks.total := by
  by_cases hquestion : req.question = ""
  · rw [retrieval, if_pos hquestion] at hranks
    obtain rfl := Option.some.inj hranks
    exact le_refl 0
  · cases hv : pageWindow page pageSize with
    | none =>
        rw [retrieval_eq_none ranker req hquestion hv] at hranks
        cases hranks
    | some v =>
        obtain ⟨ranks', hranks', htotal, hchunks⟩ :=
          retrieval_spec ranker req _ hquestion hv rfl
        obtain rfl := Option.some.inj (hranks.symm.trans hranks')
        rw [htotal, hchunks]
        refine (List.length_take_le' _ _).trans ?_
        rw [List.length_drop]
        exact Nat.sub_le _ _

/-- Pages with a `total` of `0` agree on it. -/
theorem totalsAgree_of_zero {pageSize : ℤ} {n : ℕ}
    (hzero : ∀ page : ℤ, 1 ≤ page → page ≤ n →
      (retrieval ranker ranked req page pageSize).map Ranks.total = some 0) :
    TotalsAgree ranker ranked req pageSize n := by
  have hpages : firstPages ranker ranked req pageSize n =
      some ((List.range n).map fun _ => []) := by
    apply firstPages_eq
    intro p hp
    obtain ⟨ranks, hranks, htotal⟩ := Option.map_eq_some_iff.mp
      (hzero (p + 1) (by omega) (by omega))
    have hlength := length_chunks_le_total hranks
    rw [hranks, Option.map_some]
    rw [htotal, Nat.le_zero] at hlength
    rw [List.eq_nil_of_length_eq_zero hlength]
  refine ⟨0, hzero, _, hpages, ?_⟩
  rw [← List.flatMap_def, List.length_eq_zero_iff, List.flatMap_eq_nil_iff]
  intro p _
  rfl

/-- `total` counts what passes in the window asked for. -/
theorem retrieval_total_asked {pageSize page k : ℤ} (hsize : 1 ≤ pageSize)
    (hlt : pageSize < underflowSize) (hquestion : req.question ≠ "")
    (hk : askedWindow pageSize page = some k) :
    (retrieval ranker ranked req page pageSize).map Ranks.total =
      some (passing ranker req
        (search ranked k (pagesPerWindow pageSize * pageSize))).length := by
  have hv := pageWindow_eq_askedWindow hsize hlt page
  rw [hk, Option.map_some] at hv
  exact retrieval_total ranker req _ hquestion hv rfl

/-- Where nothing passes, the pages agree on `0`. -/
theorem NothingPasses.totalsAgree {pageSize : ℤ} {n : ℕ}
    (hsize : 1 ≤ pageSize) (hlt : pageSize < underflowSize)
    (hquestion : req.question ≠ "")
    (hnothing : NothingPasses ranker ranked req pageSize n) :
    TotalsAgree ranker ranked req pageSize n := by
  apply totalsAgree_of_zero
  intro page hpage hn
  obtain ⟨k, hk, hnil⟩ := hnothing page hpage hn
  rw [retrieval_total_asked hsize hlt hquestion hk, hnil]
  rfl

/-! ## The first windows -/

/-- The pages of the first window, put together. -/
theorem flatMap_first_window :
    ((List.range m).flatMap
      (page (validChunks ranker req) m size ranked)).length =
        (passing ranker req (window (m * size) ranked 0)).length := by
  have hslices : (List.range m).flatMap
      (page (validChunks ranker req) m size ranked) =
        (validChunks ranker req (window (m * size) ranked 0)).take
          (m * size) := by
    rw [← flatMap_slices]
    apply List.flatMap_congr
    intro p hp
    have hp' : p < m := List.mem_range.mp hp
    rw [page, Nat.div_eq_of_lt hp', Nat.mod_eq_of_lt hp']
  have hwhole : (validChunks ranker req
      (window (m * size) ranked 0)).length ≤ m * size :=
    (length_validChunks_le ranker req _).trans (length_window_le _ _ _)
  rw [hslices, List.take_of_length_le hwhole,
    (validChunks_perm ranker req _).length_eq]

section FirstWindows

variable {m size : ℕ} (hm : pagesPerWindow size = m) (hsize : (1 : ℤ) ≤ size)
  (hlt : (size : ℤ) < underflowSize) (hquestion : req.question ≠ "")

include hm hsize

theorem exactWindow_of_le_pages {p : ℕ} (hp : p ≤ m) :
    ExactWindow size (p + 1) := by
  have hle := pagesPerWindow_le hsize
  rw [hm] at hle
  apply exactWindow_of_le hsize (by omega)
  have hsmall : ((p : ℤ) + 1) ≤ 33 := by omega
  exact hsmall.trans (by norm_num)

include hlt hquestion

theorem retrieval_page_total {p : ℕ} (hexact : ExactWindow size (p + 1)) :
    (retrieval ranker ranked req (p + 1) size).map Ranks.total =
      some (passing ranker req
        (window (m * size) ranked (p / m))).length := by
  obtain ⟨v, hv, hhits, -, -⟩ :=
    pageWindow_of_exact hm hsize hlt ranked hexact
  exact retrieval_total ranker req _ hquestion hv hhits

/-- Pages of one window agree. -/
theorem totalsAgree_of_le {n : ℕ} (hn : n ≤ m)
    (hranked : ranked.length ≤ n * size) :
    TotalsAgree ranker ranked req size n := by
  have hpages : firstPages ranker ranked req size n =
      some ((List.range n).map
        (page (validChunks ranker req) m size ranked)) := by
    apply firstPages_eq
    intro p hp
    exact retrieval_page hm hsize hlt hquestion ranked
      (exactWindow_of_le_pages hm hsize (by omega))
  refine ⟨(passing ranker req (window (m * size) ranked 0)).length, ?_, _,
    hpages, ?_⟩
  · intro page hpage hle
    obtain ⟨p, rfl⟩ : ∃ p : ℕ, page = p + 1 :=
      ⟨(page - 1).toNat, by omega⟩
    rw [retrieval_page_total hm hsize hlt hquestion
      (exactWindow_of_le_pages hm hsize (by omega)),
      Nat.div_eq_of_lt (by omega)]
  · rw [← List.flatMap_def, ← flatMap_first_window]
    congr 1
    refine (flatMap_range_of_nil ?_ hn).symm
    intro p hp
    exact page_eq_nil (length_validChunks_le ranker req) hranked hp

/-- A page of the second window adds to what the first window returns. -/
theorem total_eq_zero_of_lt {n : ℕ} (hn : m < n)
    (hagree : TotalsAgree ranker ranked req size n) :
    ∀ page : ℤ, 1 ≤ page → page ≤ n →
      (retrieval ranker ranked req page size).map Ranks.total = some 0 := by
  obtain ⟨total, htotal, pages, hpages, hlength⟩ := hagree
  have hmpos : 0 < m := by
    have hpos := pagesPerWindow_pos hsize
    omega
  have hexact : ∀ p ≤ m, ExactWindow size ((p : ℤ) + 1) :=
    fun p hp => exactWindow_of_le_pages hm hsize hp
  have hwindow : ∀ p ≤ m,
      (passing ranker req (window (m * size) ranked (p / m))).length =
        total := by
    intro p hp
    have hpage := htotal (p + 1) (by omega) (by omega)
    rw [retrieval_page_total hm hsize hlt hquestion (hexact p hp)] at hpage
    exact Option.some.inj hpage
  have hfirst := hwindow 0 (Nat.zero_le m)
  have hsecond := hwindow m le_rfl
  rw [Nat.zero_div] at hfirst
  rw [Nat.div_self hmpos] at hsecond
  -- the chunks of the first `m + 1` pages are among those of all pages
  have hchunks : ∀ p < n, ∃ chunks,
      (retrieval ranker ranked req (p + 1) size).map Ranks.chunks =
        some chunks := by
    intro p hp
    obtain ⟨ranks, hranks, -⟩ := Option.map_eq_some_iff.mp
      (htotal (p + 1) (by omega) (by omega))
    exact ⟨ranks.chunks, by rw [hranks, Option.map_some]⟩
  choose! f hf using hchunks
  have hfpages : ∀ p ≤ m,
      f p = page (validChunks ranker req) m size ranked p := by
    intro p hp
    have hpage := hf p (by omega)
    rw [retrieval_page hm hsize hlt hquestion ranked (hexact p hp)] at hpage
    exact (Option.some.inj hpage).symm
  rw [firstPages_eq hf] at hpages
  obtain rfl := Option.some.inj hpages
  have hsum : total + min size total ≤ total := by
    obtain ⟨d, rfl⟩ := Nat.exists_eq_add_of_lt hn
    rw [← List.flatMap_def, Nat.add_assoc m d 1, Nat.add_comm d 1,
      ← Nat.add_assoc, List.range_add, List.flatMap_append,
      List.range_succ, List.flatMap_append, List.flatMap_singleton,
      List.length_append, List.length_append] at hlength
    have hwhole : ((List.range m).flatMap f).length = total := by
      rw [← hfirst, ← flatMap_first_window]
      congr 1
      apply List.flatMap_congr
      intro p hp
      exact hfpages p (List.mem_range.mp hp).le
    have hnext : (f m).length = min size total := by
      rw [hfpages m le_rfl, page, Nat.div_self hmpos, Nat.mod_self,
        Nat.zero_mul, List.drop_zero, List.length_take,
        (validChunks_perm ranker req _).length_eq, hsecond]
    omega
  have hzero : total = 0 := by omega
  rw [hzero] at htotal
  exact htotal

end FirstWindows

/-! ## When the totals agree -/

/-- A page as large as a rerank limit has no total. -/
theorem TotalsAgree.lt_underflowSize {pageSize : ℤ} {n : ℕ}
    (hquestion : req.question ≠ "") (hn : 1 ≤ n)
    (hagree : TotalsAgree ranker ranked req pageSize n) :
    pageSize < underflowSize := by
  by_contra hge
  obtain ⟨total, htotal, -⟩ := hagree
  have hpage := htotal 1 le_rfl (by omega)
  rw [retrieval_eq_none ranker req hquestion
    (pageWindow_of_ge (not_lt.mp hge))] at hpage
  cases hpage

theorem nothingPasses_of_total_eq_zero {size n : ℕ} (hsize : 1 ≤ (size : ℤ))
    (hlt : (size : ℤ) < underflowSize) (hquestion : req.question ≠ "")
    (hzero : ∀ page : ℤ, 1 ≤ page → page ≤ n →
      (retrieval ranker ranked req page size).map Ranks.total = some 0) :
    NothingPasses ranker ranked req size n := by
  intro page hpage hle
  have htotal := hzero page hpage hle
  cases hk : askedWindow size page with
  | none =>
      have hv := pageWindow_eq_askedWindow hsize hlt page
      rw [hk, Option.map_none] at hv
      rw [retrieval_eq_none ranker req hquestion hv] at htotal
      cases htotal
  | some k =>
      rw [retrieval_total_asked hsize hlt hquestion hk] at htotal
      exact ⟨k, rfl,
        List.eq_nil_of_length_eq_zero (Option.some.inj htotal)⟩

/-- For pages that cover the ranked list, the totals agree exactly if the
pages come from one window, or nothing passes in any of theirs. -/
theorem totalsAgree_iff {pageSize : ℤ} {n : ℕ} (hsize : 1 ≤ pageSize)
    (hn : 1 ≤ n) (hranked : (ranked.length : ℤ) ≤ n * pageSize) :
    TotalsAgree ranker ranked req pageSize n ↔
      req.question = "" ∨ pageSize < underflowSize ∧
        (n ≤ pagesPerWindow pageSize ∨
          NothingPasses ranker ranked req pageSize n) := by
  obtain ⟨size, rfl⟩ := Int.eq_ofNat_of_zero_le (by omega : 0 ≤ pageSize)
  obtain ⟨m, hm⟩ :=
    Int.eq_ofNat_of_zero_le (pagesPerWindow_pos hsize).le
  by_cases hquestion : req.question = ""
  · rw [iff_true_intro (Or.inl hquestion), iff_true]
    apply totalsAgree_of_zero
    intro page _ _
    rw [retrieval, if_pos hquestion]
    rfl
  rw [or_iff_right hquestion]
  constructor
  · intro hagree
    have hlt := hagree.lt_underflowSize hquestion hn
    refine ⟨hlt, ?_⟩
    by_cases hone : n ≤ m
    · left
      rw [hm]
      exact_mod_cast hone
    · right
      exact nothingPasses_of_total_eq_zero hsize hlt hquestion
        (total_eq_zero_of_lt hm hsize hlt hquestion (not_le.mp hone) hagree)
  · rintro ⟨hlt, hone | hnothing⟩
    · rw [hm] at hone
      exact totalsAgree_of_le hm hsize hlt hquestion
        (by exact_mod_cast hone) (by exact_mod_cast hranked)
    · exact hnothing.totalsAgree hsize hlt hquestion

/-! ## One window and two -/

/-- `n` chunks of one document. -/
def chunksOfDoc (n : ℕ) : List Chunk :=
  (List.range n).map fun i =>
    ⟨String.ofList (List.replicate (i + 1) 'c'), "report.pdf", "report"⟩

/-- With one chunk to a page there are `30` pages to a window; page `31` of
`31` chunks has a window of its own. -/
theorem second_window_total :
    (retrieval lengthRanker (chunksOfDoc 31) plainRequest 1 1).map
        Ranks.total = some 30 ∧
      (retrieval lengthRanker (chunksOfDoc 31) plainRequest 31 1).map
        Ranks.total = some 1 ∧
      ¬ TotalsAgree lengthRanker (chunksOfDoc 31) plainRequest 1 31 := by
  have hlt : ((1 : ℕ) : ℤ) < underflowSize :=
    one_lt_pow₀ (by norm_num) (by norm_num)
  have hm : pagesPerWindow ((1 : ℕ) : ℤ) = (30 : ℕ) := by
    simp [pagesPerWindow]
  have htotal : ∀ p : ℕ, p ≤ 30 →
      (retrieval lengthRanker (chunksOfDoc 31) plainRequest (p + 1)
        (1 : ℕ)).map Ranks.total =
        some (passing lengthRanker plainRequest
          (window (30 * 1) (chunksOfDoc 31) (p / 30))).length := by
    intro p hp
    exact retrieval_page_total hm le_rfl hlt (by decide)
      (exactWindow_of_le_pages hm le_rfl hp)
  have hfirst := htotal 0 (by decide)
  have hsecond := htotal 30 le_rfl
  have hthirty : (passing lengthRanker plainRequest
      (window (30 * 1) (chunksOfDoc 31) (0 / 30))).length = 30 := by decide
  have hrest : (passing lengthRanker plainRequest
      (window (30 * 1) (chunksOfDoc 31) (30 / 30))).length = 1 := by decide
  rw [hthirty] at hfirst
  rw [hrest] at hsecond
  refine ⟨hfirst, hsecond, ?_⟩
  rintro ⟨total, hagree, -⟩
  have hone := hfirst.symm.trans (hagree 1 le_rfl (by norm_num))
  have hlast := hsecond.symm.trans (hagree 31 (by norm_num) le_rfl)
  exact absurd (hone.trans hlast.symm) (by decide)

/-- Three chunks, ten to a page. -/
theorem three_chunks_totalsAgree :
    TotalsAgree lengthRanker (chunksOfDoc 3) plainRequest 10 1 := by
  refine (totalsAgree_iff (by decide) le_rfl (by decide)).mpr
    (Or.inr ⟨?_, Or.inl (pagesPerWindow_pos (by decide))⟩)
  have hpow : (2 : ℤ) ^ 4 ≤ underflowSize :=
    pow_le_pow_right₀ (by norm_num) (by norm_num)
  exact lt_of_lt_of_le (by norm_num) hpow

end RagflowMineru.Search
