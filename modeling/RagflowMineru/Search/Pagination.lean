import RagflowMineru.Search.Retrieval

/-!
# The pages of a retrieval

The pages are taken from consecutive slices of consecutive windows exactly when
the page asked of the backend is computed right.  It is the ceiling of a
quotient of doubles, so this is a question of rounding; up to page `2 ^ 47` it
always is.
-/

namespace RagflowMineru.Search

open RagflowMineru.Library

/-! ## The rerank window -/

/-- The number of pages in a window. -/
def pagesPerWindow (pageSize : ℤ) : ℤ :=
  if pageSize = 1 then 30 else ⌈(64 / pageSize : ℚ)⌉

/-- From this page size on, the quotient `64 / page_size` is rounded to `0`. -/
def underflowSize : ℤ := 2 ^ 1081

theorem pagesPerWindow_pos {pageSize : ℤ} (hsize : 1 ≤ pageSize) :
    0 < pagesPerWindow pageSize := by
  rw [pagesPerWindow]
  split_ifs
  · decide
  · apply Int.ceil_pos.mpr
    have hpos : (0 : ℚ) < pageSize := by exact_mod_cast hsize
    positivity

/-- A window has at most `32` pages. -/
theorem pagesPerWindow_le {pageSize : ℤ} (hsize : 1 ≤ pageSize) :
    pagesPerWindow pageSize ≤ 32 := by
  rw [pagesPerWindow]
  split_ifs with hone
  · decide
  · have htwo : (2 : ℚ) ≤ pageSize := by exact_mod_cast (by omega)
    apply Int.ceil_le.mpr
    rw [div_le_iff₀ (by linarith)]
    push_cast
    linarith

/-- A window has at least the `64` entries that `retrieval` aims at. -/
theorem le_pagesPerWindow_mul {pageSize : ℤ} (hsize : 1 < pageSize) :
    64 ≤ pagesPerWindow pageSize * pageSize := by
  have hpos : (0 : ℚ) < pageSize := by exact_mod_cast (by omega)
  rw [pagesPerWindow, if_neg (by omega)]
  have hceil : (64 / pageSize : ℚ) ≤ ⌈(64 / pageSize : ℚ)⌉ := Int.le_ceil _
  rw [div_le_iff₀ hpos] at hceil
  exact_mod_cast hceil

/-- Below `64` the number of pages in a window is always computed right. -/
theorem ceilSurvives_pages_of_lt {pageSize : ℤ} (hsize : 1 < pageSize)
    (hsmall : pageSize < 64) : Binary64.CeilSurvives (64 / pageSize) := by
  have htwo : (2 : ℚ) ≤ pageSize := by exact_mod_cast hsize
  have hbound : (pageSize : ℚ) < 64 := by exact_mod_cast hsmall
  have hpos : (0 : ℚ) < pageSize := by linarith
  have hquotient : (64 / pageSize : ℚ) < 2 ^ (6 : ℤ) := by
    rw [div_lt_iff₀ hpos]
    norm_num
    linarith
  have hulp := Binary64.ulp_le (by positivity) (by norm_num) hquotient
  have hproduct : Binary64.ulp (64 / pageSize) * pageSize < 2 := by
    calc
      Binary64.ulp (64 / pageSize) * pageSize ≤ 2 ^ ((6 : ℤ) - 53) * 64 :=
        mul_le_mul hulp hbound.le hpos.le (by positivity)
      _ < 2 := by norm_num
  have hsurvives := Binary64.ceilSurvives_div (a := 64) (b := pageSize)
    (by omega)
  push_cast at hsurvives
  exact hsurvives (hulp.trans (by norm_num)) hproduct

/-- From `64` on a window has one page, unless the quotient is rounded to
`0`. -/
theorem ceilSurvives_pages_iff {pageSize : ℤ} (hlarge : 64 ≤ pageSize) :
    Binary64.CeilSurvives (64 / pageSize) ↔ pageSize < underflowSize := by
  have hbound : (64 : ℚ) ≤ pageSize := by exact_mod_cast hlarge
  have hpos : (0 : ℚ) < pageSize := by linarith
  have hone : (64 / pageSize : ℚ) ≤ 1 := by
    rw [div_le_one hpos]
    exact hbound
  have hunit : (0 : ℚ) < 2 ^ (-1075 : ℤ) := zpow_pos (by norm_num) _
  have hpow : (64 : ℚ) / 2 ^ (-1075 : ℤ) = (underflowSize : ℚ) := by
    rw [underflowSize, Int.cast_pow, Int.cast_ofNat, ← zpow_natCast, div_eq_iff hunit.ne',
      ← zpow_add₀ (by norm_num)]
    norm_num
  rw [Binary64.ceilSurvives_iff_of_le_one (by positivity) hone,
    lt_div_iff₀ hpos, mul_comm, ← lt_div_iff₀ hunit, hpow, Int.cast_lt]

/-- `RERANK_LIMIT` is a whole number of pages. -/
theorem rerankLimit_of_lt {pageSize : ℤ} (hsize : 1 ≤ pageSize)
    (hlt : pageSize < underflowSize) :
    rerankLimit pageSize = some (pagesPerWindow pageSize * pageSize) := by
  rcases eq_or_lt_of_le hsize with rfl | hgt
  · simp [rerankLimit, pagesPerWindow]
  · have hsurvives : Binary64.CeilSurvives (64 / pageSize) := by
      by_cases hsmall : pageSize < 64
      · exact ceilSurvives_pages_of_lt hgt hsmall
      · exact (ceilSurvives_pages_iff (not_lt.mp hsmall)).mpr hlt
    have hceil : ⌈(64 / pageSize : ℚ)⌉ < 2 ^ 1024 := by
      have hpos : (1 : ℚ) ≤ pageSize := by exact_mod_cast hsize
      have hle : ⌈(64 / pageSize : ℚ)⌉ ≤ 2 ^ 6 := by
        apply Int.ceil_le.mpr
        push_cast
        exact div_le_of_le_mul₀ (by linarith) (by norm_num) (by linarith)
      exact lt_of_le_of_lt hle (pow_lt_pow_right₀ (by norm_num) (by norm_num))
    have hdiv := Binary64.ceil_trueDiv_iff (a := 64) (b := pageSize)
      (by norm_num) (by omega)
    rw [Int.cast_ofNat] at hdiv
    obtain ⟨q, hq, hqceil⟩ := hdiv.mpr ⟨hsurvives, hceil⟩
    have hbig := le_pagesPerWindow_mul hgt
    rw [rerankLimit, if_pos hgt, hq, Option.bind_eq_bind, Option.bind_some,
      hqceil]
    rw [pagesPerWindow, if_neg (by omega)] at hbig ⊢
    rw [max_eq_right (by omega)]

theorem le_of_underflowSize_le {pageSize : ℤ} (hge : underflowSize ≤ pageSize) :
    64 ≤ pageSize := by
  have hpow : (2 : ℤ) ^ 6 ≤ underflowSize :=
    pow_le_pow_right₀ (by norm_num) (by norm_num)
  exact le_trans hpow hge

/-- When the quotient is rounded to `0`, `RERANK_LIMIT` is `30`. -/
theorem rerankLimit_of_ge {pageSize : ℤ} (hge : underflowSize ≤ pageSize) :
    rerankLimit pageSize = some 30 := by
  have hlarge := le_of_underflowSize_le hge
  have hpos : (0 : ℚ) < pageSize := by exact_mod_cast (by omega)
  have hquotient : (64 / pageSize : ℚ) ≤ 1 := by
    rw [div_le_one hpos]
    exact_mod_cast hlarge
  have hulp : Binary64.ulp (64 / pageSize) ≤ 1 := by
    have hle := Binary64.ulp_le (k := 1) (x := 64 / pageSize) (by positivity)
      (by norm_num) (by linarith)
    exact hle.trans (by norm_num)
  have hceil : ⌈(64 / pageSize : ℚ)⌉ = 1 := by
    rw [Int.ceil_eq_iff]
    push_cast
    exact ⟨by simpa using hpos, hquotient⟩
  have hnonneg : 0 ≤ Binary64.nearest (64 / pageSize) :=
    Binary64.nearest_nonneg (by positivity)
  have hle : Binary64.nearest (64 / pageSize) ≤ 1 := by
    have hround := Binary64.nearest_le_ceil hulp
    rwa [hceil, Int.cast_one] at hround
  have hzero : ⌈Binary64.nearest (64 / pageSize)⌉ = 0 := by
    have hne : ⌈Binary64.nearest (64 / pageSize)⌉ ≠ 1 := by
      rw [← hceil, Ne, Binary64.ceil_nearest_eq_iff,
        ceilSurvives_pages_iff hlarge]
      exact not_lt.mpr hge
    have hhigh : ⌈Binary64.nearest (64 / pageSize)⌉ ≤ 1 :=
      Int.ceil_le.mpr (by exact_mod_cast hle)
    have hlow := Int.ceil_nonneg hnonneg
    omega
  have hdiv : Binary64.trueDiv 64 pageSize =
      some (Binary64.nearest (64 / pageSize)) := by
    have hsmall : |Binary64.nearest (64 / pageSize)| < 2 ^ 1024 := by
      rw [abs_of_nonneg hnonneg]
      exact lt_of_le_of_lt hle (one_lt_pow₀ (by norm_num) (by norm_num))
    rw [Binary64.trueDiv, if_neg (by omega), Int.cast_ofNat, if_pos hsmall]
  rw [rerankLimit, if_pos (by omega), hdiv, Option.bind_eq_bind,
    Option.bind_some, hzero, zero_mul, max_eq_left (by norm_num)]

/-- Then a window is less than a page. -/
theorem not_dvd_rerankLimit {pageSize limit : ℤ} (hge : underflowSize ≤ pageSize)
    (hlimit : rerankLimit pageSize = some limit) : ¬ pageSize ∣ limit := by
  have hlarge := le_of_underflowSize_le hge
  rw [rerankLimit_of_ge hge] at hlimit
  rw [← Option.some.inj hlimit]
  intro hdvd
  have hle := Int.le_of_dvd (by norm_num) hdvd
  omega

/-! ## The page asked of the backend -/

/-- The page asked of the backend is computed right: the quotient of `page` by
the number of pages in a window keeps its ceiling as a double. -/
def ExactWindow (pageSize page : ℤ) : Prop :=
  Binary64.CeilSurvives (page / pagesPerWindow pageSize) ∧
    ⌈(page / pagesPerWindow pageSize : ℚ)⌉ < 2 ^ 1024

/-- The slice of the window begins where the page begins in the ranked list,
and does not reach over the window. -/
def InWindow (pageSize page : ℤ) (v : PageWindow) : Prop :=
  (v.backendPage - 1) * v.limit + v.sliceBegin = (page - 1) * pageSize ∧
    0 ≤ v.sliceBegin ∧ v.sliceBegin + pageSize = v.sliceEnd ∧
    v.sliceEnd ≤ v.limit

/-- The ceiling of a quotient of integers. -/
theorem ceil_div_eq (a : ℤ) {b : ℤ} (hb : 0 < b) :
    ⌈(a / b : ℚ)⌉ = (a - 1) / b + 1 := by
  have hpos : (0 : ℚ) < b := by exact_mod_cast hb
  have hmod := Int.emod_add_mul_ediv (a - 1) b
  have hnonneg := Int.emod_nonneg (a - 1) hb.ne'
  have hlt := Int.emod_lt_of_pos (a - 1) hb
  rw [Int.ceil_eq_iff]
  push_cast
  rw [add_sub_cancel_right, lt_div_iff₀ hpos, div_le_iff₀ hpos]
  constructor
  · have hstep : (a - 1) / b * b < a := by
      rw [mul_comm]
      omega
    exact_mod_cast hstep
  · have hstep : a ≤ ((a - 1) / b + 1) * b := by
      rw [add_mul, mul_comm _ b]
      omega
    exact_mod_cast hstep

/-- `retrieval` counts the pages in a window right. -/
theorem maxPages_eq {pageSize : ℤ} (hsize : 1 ≤ pageSize) :
    max (pagesPerWindow pageSize * pageSize / max pageSize 1) 1 =
      pagesPerWindow pageSize := by
  have hpos := pagesPerWindow_pos hsize
  rw [max_eq_left hsize, Int.mul_ediv_cancel _ (by omega), max_eq_left hpos]

/-- The numbers of a page, with the rounded quotient still open. -/
theorem pageWindow_eq {pageSize : ℤ} (hsize : 1 ≤ pageSize)
    (hlt : pageSize < underflowSize) (page : ℤ) :
    pageWindow page pageSize =
      (Binary64.trueDiv (pageSize * page)
        (pagesPerWindow pageSize * pageSize)).map fun q =>
          { limit := pagesPerWindow pageSize * pageSize
            backendPage := ⌈q⌉
            sliceBegin := (page - 1) % pagesPerWindow pageSize * pageSize
            sliceEnd :=
              (page - 1) % pagesPerWindow pageSize * pageSize + pageSize } := by
  rw [pageWindow, rerankLimit_of_lt hsize hlt, Option.bind_eq_bind,
    Option.bind_some, maxPages_eq hsize, Option.bind_eq_bind]
  cases Binary64.trueDiv (pageSize * page)
      (pagesPerWindow pageSize * pageSize) with
  | none => rfl
  | some q => rfl

/-- The page asked of the backend is right exactly if no rounding spoils it. -/
theorem ceil_backendPage_iff {pageSize page : ℤ} (hsize : 1 ≤ pageSize)
    (hpage : 1 ≤ page) :
    (∃ q, Binary64.trueDiv (pageSize * page)
        (pagesPerWindow pageSize * pageSize) = some q ∧
        ⌈q⌉ = (page - 1) / pagesPerWindow pageSize + 1) ↔
      ExactWindow pageSize page := by
  have hpages := pagesPerWindow_pos hsize
  have hpos : (0 : ℚ) < pageSize := by exact_mod_cast hsize
  have hquotient : ((pageSize * page : ℤ) : ℚ) /
      ((pagesPerWindow pageSize * pageSize : ℤ) : ℚ) =
        page / pagesPerWindow pageSize := by
    push_cast
    rw [mul_comm (pageSize : ℚ), mul_div_mul_right _ _ hpos.ne']
  have hdiv := Binary64.ceil_trueDiv_iff (a := pageSize * page)
    (b := pagesPerWindow pageSize * pageSize)
    (mul_nonneg (by omega) (by omega)) (mul_pos hpages (by omega))
  rw [hquotient, ceil_div_eq page hpages] at hdiv
  rw [hdiv, ExactWindow, ceil_div_eq page hpages]

/-- The slice lies where it should exactly if the page asked of the backend is
computed right. -/
theorem inWindow_iff {pageSize page : ℤ} (hsize : 1 ≤ pageSize)
    (hlt : pageSize < underflowSize) (hpage : 1 ≤ page) :
    (∃ v, pageWindow page pageSize = some v ∧ InWindow pageSize page v) ↔
      ExactWindow pageSize page := by
  rw [← ceil_backendPage_iff hsize hpage, pageWindow_eq hsize hlt]
  have hpages := pagesPerWindow_pos hsize
  have hmod := Int.emod_add_mul_ediv (page - 1) (pagesPerWindow pageSize)
  have hnonneg := Int.emod_nonneg (page - 1) hpages.ne'
  have hbelow := Int.emod_lt_of_pos (page - 1) hpages
  simp only [Option.map_eq_some_iff]
  generalize pagesPerWindow pageSize = m at *
  generalize (page - 1) / m = d at *
  generalize (page - 1) % m = r at *
  constructor
  · rintro ⟨v, ⟨q, hq, rfl⟩, hposition, -⟩
    refine ⟨q, hq, ?_⟩
    have hscaled : ((⌈q⌉ - 1) * m) * pageSize = (d * m) * pageSize := by
      rw [← hmod] at hposition
      linarith
    have hcancel := mul_right_cancel₀ (by omega : pageSize ≠ 0) hscaled
    have hback := mul_right_cancel₀ hpages.ne' hcancel
    omega
  · rintro ⟨q, hq, hceil⟩
    refine ⟨_, ⟨q, hq, rfl⟩, ?_, mul_nonneg hnonneg (by omega), rfl, ?_⟩
    · rw [hceil, ← hmod]
      ring
    · have hnext : (r + 1) * pageSize ≤ m * pageSize :=
        mul_le_mul_of_nonneg_right (by omega) (by omega)
      linarith

/-! ## The chunks of all pages -/

variable {S : Type} [Zero S] [Neg S] [LE S] [DecidableLE S]

/-- The chunks of the first `n` pages, page by page. -/
def firstPages (ranker : Ranker S) (ranked : List Chunk) (req : Request S)
    (pageSize : ℤ) (n : ℕ) : Option (List (List (Chunk × Scores S))) :=
  (List.range n).mapM fun p : ℕ =>
    (retrieval ranker ranked req (p + 1) pageSize).map Ranks.chunks

/-- The first `n` pages partition the results: windows are made of whole pages;
every page is a slice of its window and stands where it should; and, when `n`
pages are enough for the ranked list, they hold every chunk that passes the
threshold in its window exactly once. -/
structure Paginates (ranker : Ranker S) (req : Request S) (pageSize : ℤ)
    (n : ℕ) : Prop where
  multiple : ∃ limit, rerankLimit pageSize = some limit ∧ pageSize ∣ limit
  slices : ∀ page : ℤ, 1 ≤ page → page ≤ n →
    ∃ v, pageWindow page pageSize = some v ∧ InWindow pageSize page v
  chunks : ∀ ranked : List Chunk, (ranked.length : ℤ) ≤ n * pageSize →
    ∃ limit pages, rerankLimit pageSize = some limit ∧
      (windows limit.toNat ranked).flatten = ranked ∧
      firstPages ranker ranked req pageSize n = some pages ∧
      pages.flatten.Perm
        ((windows limit.toNat ranked).flatMap (passing ranker req))

variable {ranker : Ranker S} {req : Request S}

/-- Where every page is known, so are the first `n` pages. -/
theorem firstPages_eq {ranked : List Chunk} {pageSize : ℤ} {n : ℕ}
    {f : ℕ → List (Chunk × Scores S)}
    (hpage : ∀ p < n, (retrieval ranker ranked req (p + 1) pageSize).map
      Ranks.chunks = some (f p)) :
    firstPages ranker ranked req pageSize n = some ((List.range n).map f) := by
  have hpage' : ∀ p ∈ List.range n,
      (retrieval ranker ranked req (p + 1) pageSize).map Ranks.chunks =
        some (f p) := by
    intro p hp
    exact hpage p (List.mem_range.mp hp)
  have hsome : ∀ p ∈ List.range n,
      ((retrieval ranker ranked req (p + 1) pageSize).map
        Ranks.chunks).isSome = true := by
    intro p hp
    rw [hpage' p hp, Option.isSome_some]
  rw [firstPages, mapM_eq_some_filterMap hsome, List.filterMap_congr hpage',
    List.filterMap_eq_map']

/-- A page whose window is computed right is answered from that window. -/
theorem pageWindow_of_exact {m size : ℕ} (hm : pagesPerWindow size = m)
    (hsize : (1 : ℤ) ≤ size) (hlt : (size : ℤ) < underflowSize)
    (ranked : List Chunk) {p : ℕ} (hexact : ExactWindow size (p + 1)) :
    ∃ v, pageWindow (p + 1) size = some v ∧
      search ranked v.backendPage v.limit =
        window (m * size) ranked (p / m) ∧
      v.sliceBegin.toNat = p % m * size ∧
      (v.sliceEnd - v.sliceBegin).toNat = size := by
  obtain ⟨q, hq, hceil⟩ :=
    (ceil_backendPage_iff hsize (by omega)).mpr hexact
  have hv := pageWindow_eq hsize hlt (p + 1)
  rw [hq, Option.map_some, hceil, hm, add_sub_cancel_right] at hv
  have hhits : search ranked ((p : ℤ) / m + 1) (m * size) =
      window (m * size) ranked (p / m) := by
    have hoffset : (p : ℤ) / m * (m * size) =
        ((p / m * (m * size) : ℕ) : ℤ) := by
      rw [Nat.cast_mul, Int.natCast_ediv, Nat.cast_mul]
    rw [search, window, add_sub_cancel_right, hoffset, ← Nat.cast_mul,
      Int.toNat_natCast, Int.toNat_natCast]
  have hslice : (p : ℤ) % m * size = ((p % m * size : ℕ) : ℤ) := by
    rw [Nat.cast_mul, Int.natCast_emod]
  refine ⟨_, hv, hhits, ?_, ?_⟩
  · rw [hslice, Int.toNat_natCast]
  · rw [add_sub_cancel_left, Int.toNat_natCast]

/-- It is a page of the valid chunks. -/
theorem retrieval_page {m size : ℕ} (hm : pagesPerWindow size = m)
    (hsize : (1 : ℤ) ≤ size) (hlt : (size : ℤ) < underflowSize)
    (hquestion : req.question ≠ "") (ranked : List Chunk) {p : ℕ}
    (hexact : ExactWindow size (p + 1)) :
    (retrieval ranker ranked req (p + 1) size).map Ranks.chunks =
      some (page (validChunks ranker req) m size ranked p) := by
  obtain ⟨v, hv, hhits, hbegin, hlength⟩ :=
    pageWindow_of_exact hm hsize hlt ranked hexact
  rw [retrieval_chunks ranker req _ hquestion hv hhits, page, hbegin, hlength]

/-- The pages are the slices of the windows, so together they hold what passes
in any window. -/
theorem firstPages_perm {pageSize : ℤ} {n : ℕ} (hsize : 1 ≤ pageSize)
    (hlt : pageSize < underflowSize) (hquestion : req.question ≠ "")
    (hexact : ∀ page : ℤ, 1 ≤ page → page ≤ n → ExactWindow pageSize page)
    {ranked : List Chunk} (hranked : (ranked.length : ℤ) ≤ n * pageSize) :
    ∃ limit pages, rerankLimit pageSize = some limit ∧
      (windows limit.toNat ranked).flatten = ranked ∧
      firstPages ranker ranked req pageSize n = some pages ∧
      pages.flatten.Perm
        ((windows limit.toNat ranked).flatMap (passing ranker req)) := by
  have hpages := pagesPerWindow_pos hsize
  obtain ⟨size, rfl⟩ := Int.eq_ofNat_of_zero_le (by omega : 0 ≤ pageSize)
  obtain ⟨m, hm⟩ := Int.eq_ofNat_of_zero_le hpages.le
  have hmpos : 0 < m := by omega
  have hspos : 0 < size := by omega
  have hlimit : (pagesPerWindow size * size).toNat = m * size := by
    rw [hm, ← Nat.cast_mul, Int.toNat_natCast]
  have hall : firstPages ranker ranked req size n =
      some ((List.range n).map (page (validChunks ranker req) m size
        ranked)) := by
    apply firstPages_eq
    intro p hp
    exact retrieval_page hm hsize hlt hquestion ranked
      (hexact _ (by omega) (by omega))
  refine ⟨_, _, rerankLimit_of_lt hsize hlt, ?_, hall, ?_⟩
  · rw [hlimit]
    exact flatten_windows (Nat.mul_pos hmpos hspos) ranked
  · rw [hlimit, ← List.flatMap_def,
      flatMap_page (length_validChunks_le ranker req) hmpos hspos
        (by exact_mod_cast hranked)]
    exact List.Perm.flatMap_left _ fun hits _ =>
      validChunks_perm ranker req hits

/-- For every page size, the first `n` pages partition the results exactly if
the page asked of the backend is computed right for each of them. -/
theorem paginates_iff {pageSize : ℤ} {n : ℕ} (hsize : 1 ≤ pageSize)
    (hquestion : req.question ≠ "") :
    Paginates ranker req pageSize n ↔
      pageSize < underflowSize ∧
        ∀ page : ℤ, 1 ≤ page → page ≤ n → ExactWindow pageSize page := by
  constructor
  · intro hpaginates
    have hlt : pageSize < underflowSize := by
      by_contra hge
      obtain ⟨limit, hlimit, hdvd⟩ := hpaginates.multiple
      exact not_dvd_rerankLimit (not_lt.mp hge) hlimit hdvd
    refine ⟨hlt, ?_⟩
    intro page hpage hn
    exact (inWindow_iff hsize hlt hpage).mp (hpaginates.slices page hpage hn)
  · rintro ⟨hlt, hexact⟩
    constructor
    · exact ⟨_, rerankLimit_of_lt hsize hlt, Dvd.intro_left _ rfl⟩
    · intro page hpage hn
      exact (inWindow_iff hsize hlt hpage).mpr (hexact page hpage hn)
    · intro ranked hranked
      exact firstPages_perm hsize hlt hquestion hexact hranked

/-- Up to page `2 ^ 47` no rounding spoils the page asked of the backend. -/
theorem exactWindow_of_le {pageSize page : ℤ} (hsize : 1 ≤ pageSize)
    (hpage : 1 ≤ page) (hle : page ≤ 2 ^ 47) : ExactWindow pageSize page := by
  have hpages := pagesPerWindow_pos hsize
  have hpagepos : (1 : ℚ) ≤ page := by exact_mod_cast hpage
  have hpagele : (page : ℚ) ≤ 2 ^ 47 := by exact_mod_cast hle
  have hone : (1 : ℚ) ≤ pagesPerWindow pageSize := by exact_mod_cast hpages
  have hmany : (pagesPerWindow pageSize : ℚ) ≤ 32 := by
    exact_mod_cast pagesPerWindow_le hsize
  have hquotient : (page / pagesPerWindow pageSize : ℚ) ≤ 2 ^ 47 :=
    (div_le_self (by linarith) hone).trans hpagele
  have hulp : Binary64.ulp (page / pagesPerWindow pageSize) ≤ 2 ^ (-5 : ℤ) :=
    Binary64.ulp_le (k := 48) (by positivity) (by norm_num)
      (lt_of_le_of_lt hquotient (by norm_num))
  constructor
  · apply Binary64.ceilSurvives_div hpages
    · exact hulp.trans (by norm_num)
    · calc
        Binary64.ulp (page / pagesPerWindow pageSize) *
            pagesPerWindow pageSize ≤ 2 ^ (-5 : ℤ) * 32 :=
          mul_le_mul hulp hmany (by linarith) (by positivity)
        _ < 2 := by norm_num
  · have hceil : ⌈(page / pagesPerWindow pageSize : ℚ)⌉ ≤ 2 ^ 47 := by
      apply Int.ceil_le.mpr
      push_cast
      exact hquotient
    exact lt_of_le_of_lt hceil (pow_lt_pow_right₀ (by norm_num) (by norm_num))

/-! ## Two runs through the pages -/

/-- Chunks with longer ids score higher. -/
def lengthRanker : Ranker ℤ where
  score hits := hits.map fun c =>
    ⟨c.chunkId.length, c.chunkId.length, c.chunkId.length⟩
  length_score _ := List.length_map _
  argsort sims := (List.range sims.length).mergeSort fun i j =>
    decide (sims.getD i 0 ≤ sims.getD j 0)
  argsort_perm _ := List.mergeSort_perm _ _

/-- Any question, without a threshold to speak of. -/
def plainRequest : Request ℤ where
  question := "?"
  similarityThreshold := 1
  vectorSimilarityWeight := 1

/-- The quotient by `30` of a page number that follows a large multiple of `30`
is rounded down to an integer. -/
theorem pageWindow_rounded_down :
    pageWindow (30 * 2 ^ 49 + 1) 1 = some ⟨30, 2 ^ 49, 0, 1⟩ := by
  have hquotient : (((1 * (30 * 2 ^ 49 + 1) : ℤ) : ℚ) / ((30 : ℤ) : ℚ)) =
      2 ^ 49 + 1 / 30 := by
    norm_num
  have hulp : Binary64.ulp (2 ^ 49 + 1 / 30) = 2 ^ ((49 : ℤ) - 52) :=
    Binary64.ulp_eq (by norm_num) (by norm_num) (by norm_num)
  have hnearest : Binary64.nearest (2 ^ 49 + 1 / 30) = 2 ^ 49 := by
    have hround : Binary64.roundHalfEven
        ((2 ^ 49 + 1 / 30) / 2 ^ ((49 : ℤ) - 52)) = 2 ^ 52 :=
      Binary64.roundHalfEven_of_near (by norm_num [abs_lt])
    rw [Binary64.nearest, hulp, hround]
    norm_num
  have hdiv : Binary64.trueDiv (1 * (30 * 2 ^ 49 + 1)) 30 = some (2 ^ 49) := by
    rw [Binary64.trueDiv, if_neg (by norm_num), hquotient, hnearest, if_pos]
    rw [abs_of_pos (by norm_num)]
    exact pow_lt_pow_right₀ (by norm_num) (by norm_num)
  have hlimit : rerankLimit 1 = some 30 := by decide
  have hceil : ⌈(2 ^ 49 : ℚ)⌉ = 2 ^ 49 := by
    have hcast : (2 ^ 49 : ℚ) = ((2 ^ 49 : ℤ) : ℚ) := by norm_num
    rw [hcast, Int.ceil_intCast]
  rw [pageWindow, hlimit, Option.bind_eq_bind, Option.bind_some, hdiv,
    Option.bind_eq_bind, Option.bind_some, hceil]
  norm_num

/-- With one chunk to a page, page `30 * 2 ^ 49 + 1` begins a window, but the
first chunk of the window in front is returned again. -/
theorem page_of_previous_window :
    pageWindow (30 * 2 ^ 49 + 1) 1 = some ⟨30, 2 ^ 49, 0, 1⟩ ∧
      ¬ InWindow 1 (30 * 2 ^ 49 + 1) ⟨30, 2 ^ 49, 0, 1⟩ ∧
      ¬ Paginates lengthRanker plainRequest 1 (30 * 2 ^ 49 + 1) := by
  have houtside : ¬ InWindow 1 (30 * 2 ^ 49 + 1) ⟨30, 2 ^ 49, 0, 1⟩ := by
    intro hposition
    have hbegin := hposition.1
    norm_num at hbegin
  refine ⟨pageWindow_rounded_down, houtside, ?_⟩
  intro hpaginates
  obtain ⟨v, hv, hposition⟩ :=
    hpaginates.slices (30 * 2 ^ 49 + 1) (by norm_num) (by norm_num)
  rw [pageWindow_rounded_down] at hv
  rw [← Option.some.inj hv] at hposition
  exact houtside hposition

/-- The first thousand pages of ten chunks are what they should be. -/
theorem thousand_pages_paginate :
    Paginates lengthRanker plainRequest 10 1000 := by
  have hsize : (10 : ℤ) < underflowSize := by
    have hpow : (2 : ℤ) ^ 4 ≤ underflowSize :=
      pow_le_pow_right₀ (by norm_num) (by norm_num)
    exact lt_of_lt_of_le (by norm_num) hpow
  refine (paginates_iff (by decide) (by decide)).mpr ⟨hsize, ?_⟩
  intro page hpage hle
  apply exactWindow_of_le (by decide) hpage
  exact hle.trans (by norm_num)

end RagflowMineru.Search
