import RagflowMineru.Library.Assoc
import RagflowMineru.Library.Binary64
import RagflowMineru.Library.Paging

/-!
# `Dealer.retrieval`

A page of the result is computed in two steps.  The backend is asked for the
window of `RERANK_LIMIT` entries of its ranked list that the page falls into;
the window is scored, sorted and filtered; and the page is a slice of what is
left.  Scores are doubles, of which only their comparison and their negation
are used, so any type with these will do.  `none` stands for an exception.
-/

namespace RagflowMineru.Search

open RagflowMineru.Library

/-- A chunk that the backend answers with.  The other fields are copied to the
result as they are. -/
structure Chunk where
  chunkId : String
  docnmKwd : String
  docId : String
  deriving DecidableEq

/-- The scores of a chunk. -/
structure Scores (S : Type) where
  sim : S
  tsim : S
  vsim : S

/-- What the ranking of a window rests on: the scores of its chunks, one for
each, and `np.argsort`, which returns the indices in some order. -/
structure Ranker (S : Type) where
  score : List Chunk → List (Scores S)
  length_score : ∀ hits, (score hits).length = hits.length
  argsort : List S → List ℕ
  argsort_perm : ∀ sims, (argsort sims).Perm (List.range sims.length)

/-- The arguments of a retrieval that stay the same from page to page. -/
structure Request (S : Type) where
  question : String
  similarityThreshold : S
  vectorSimilarityWeight : S
  docIds : List String := []
  aggs : Bool := true

/-- One entry of `doc_aggs`. -/
structure DocAgg where
  docName : String
  docId : String
  count : ℕ
  deriving DecidableEq

/-- The result of a retrieval. -/
structure Ranks (S : Type) where
  total : ℕ := 0
  chunks : List (Chunk × Scores S) := []
  docAggs : List DocAgg := []

/-! ## The window and the slice of a page -/

/-- `RERANK_LIMIT`. -/
def rerankLimit (pageSize : ℤ) : Option ℤ :=
  if 1 < pageSize then do
    let q ← Binary64.trueDiv 64 pageSize
    some (max 30 (⌈q⌉ * pageSize))
  else some (max 30 1)

/-- `RERANK_LIMIT`, the page asked of the backend, and the bounds of the slice
in the window. -/
structure PageWindow where
  limit : ℤ
  backendPage : ℤ
  sliceBegin : ℤ
  sliceEnd : ℤ

/-- The numbers that `retrieval` computes from `page` and `page_size`. -/
def pageWindow (page pageSize : ℤ) : Option PageWindow := do
  let limit ← rerankLimit pageSize
  let q ← Binary64.trueDiv (pageSize * page) limit
  let maxPages := max (limit / max pageSize 1) 1
  let pageIndex := (page - 1) % maxPages
  some
    { limit := limit
      backendPage := ⌈q⌉
      sliceBegin := pageIndex * pageSize
      sliceEnd := pageIndex * pageSize + pageSize }

/-- `search`, with a backend that answers from one ranked list. -/
def search (ranked : List Chunk) (page size : ℤ) : List Chunk :=
  let offset := (page - 1) * size
  (ranked.drop offset.toNat).take size.toNat

/-! ## Ranking a window -/

theorem length_scored {S : Type} (ranker : Ranker S) (hits : List Chunk) :
    (hits.zip (ranker.score hits)).length = hits.length := by
  rw [List.length_zip, ranker.length_score, Nat.min_self]

/-- The similarity at an index of the window. -/
theorem getElem?_sims {S : Type} (ranker : Ranker S) (hits : List Chunk)
    (i : ℕ) :
    ((ranker.score hits).map Scores.sim)[i]? =
      ((hits.zip (ranker.score hits))[i]?).map fun c => c.2.sim := by
  have hscores : (hits.zip (ranker.score hits)).map Prod.snd =
      ranker.score hits :=
    List.map_snd_zip (ranker.length_score hits).le
  calc
    ((ranker.score hits).map Scores.sim)[i]? =
        (((hits.zip (ranker.score hits)).map Prod.snd).map Scores.sim)[i]? := by
      rw [hscores]
    _ = ((hits.zip (ranker.score hits))[i]?).map fun c => c.2.sim := by
      rw [List.map_map, List.getElem?_map]
      rfl

variable {S : Type} [Zero S] [Neg S] [LE S] [DecidableLE S]

/-- `post_threshold`. -/
def postThreshold (req : Request S) : S :=
  if req.docIds ≠ [] then 0
  else if req.vectorSimilarityWeight ≤ 0 then 0
  else req.similarityThreshold

/-- `valid_idx`. -/
def validIdx (ranker : Ranker S) (req : Request S) (hits : List Chunk) :
    List ℕ :=
  let sims := (ranker.score hits).map Scores.sim
  (ranker.argsort (sims.map fun s => -s)).filter fun i =>
    match sims[i]? with
    | some s => decide (postThreshold req ≤ s)
    | none => false

/-- Count one chunk in `doc_aggs`. -/
def countDoc (counts : Assoc String (String × ℕ)) (chunk : Chunk) :
    Assoc String (String × ℕ) :=
  match Assoc.get? chunk.docnmKwd counts with
  | none => Assoc.set chunk.docnmKwd (chunk.docId, 1) counts
  | some (docId, n) => Assoc.set chunk.docnmKwd (docId, n + 1) counts

/-- `doc_aggs`, sorted by falling count. -/
def docAggs (chunks : List Chunk) : List DocAgg :=
  let counts := chunks.foldl countDoc []
  (counts.map fun entry => DocAgg.mk entry.1 entry.2.1 entry.2.2).mergeSort
    fun a b => decide (b.count ≤ a.count)

/-- `Dealer.retrieval`. -/
def retrieval (ranker : Ranker S) (ranked : List Chunk) (req : Request S)
    (page pageSize : ℤ) : Option (Ranks S) :=
  if req.question = "" then some {}
  else do
    let v ← pageWindow page pageSize
    let hits := search ranked v.backendPage v.limit
    let scored := hits.zip (ranker.score hits)
    if scored = [] then some {}
    else
      let valid := validIdx ranker req hits
      if valid = [] then some {}
      else
        let pageIdx := (valid.drop v.sliceBegin.toNat).take
          (v.sliceEnd - v.sliceBegin).toNat
        let chunks ← pageIdx.mapM (scored[·]?)
        let counted ← valid.mapM (hits[·]?)
        some
          { total := valid.length
            chunks := chunks
            docAggs := if req.aggs then docAggs counted else [] }

/-! ## What one retrieval returns -/

/-- The chunks of a window that pass the threshold, with their scores. -/
def passing (ranker : Ranker S) (req : Request S) (hits : List Chunk) :
    List (Chunk × Scores S) :=
  (hits.zip (ranker.score hits)).filter fun c =>
    decide (postThreshold req ≤ c.2.sim)

/-- The same chunks in the order of `valid_idx`. -/
def validChunks (ranker : Ranker S) (req : Request S) (hits : List Chunk) :
    List (Chunk × Scores S) :=
  (validIdx ranker req hits).filterMap ((hits.zip (ranker.score hits))[·]?)

variable (ranker : Ranker S) (req : Request S) (hits : List Chunk)

theorem validIdx_lt {i : ℕ} (hi : i ∈ validIdx ranker req hits) :
    i < hits.length := by
  simp only [validIdx, List.mem_filter] at hi
  have hrange := (ranker.argsort_perm _).mem_iff.mp hi.1
  simpa [ranker.length_score] using hrange

/-- No index of `valid_idx` is out of range. -/
theorem isSome_scored {i : ℕ} (hi : i ∈ validIdx ranker req hits) :
    ((hits.zip (ranker.score hits))[i]?).isSome = true := by
  have hlt := validIdx_lt ranker req hits hi
  rw [← length_scored ranker hits] at hlt
  rw [List.getElem?_eq_getElem hlt, Option.isSome_some]

/-- Sorting and filtering the indices keeps exactly the chunks that pass. -/
theorem validChunks_perm :
    (validChunks ranker req hits).Perm (passing ranker req hits) := by
  have hlength : (((ranker.score hits).map Scores.sim).map
      fun s => -s).length = (hits.zip (ranker.score hits)).length := by
    rw [List.length_map, List.length_map, ranker.length_score,
      length_scored ranker hits]
  have hperm := ranker.argsort_perm
    (((ranker.score hits).map Scores.sim).map fun s => -s)
  rw [hlength] at hperm
  rw [validChunks, validIdx]
  refine ((hperm.filter _).filterMap _).trans ?_
  rw [List.filterMap_filter]
  have hpassing : passing ranker req hits =
      (List.range (hits.zip (ranker.score hits)).length).filterMap fun i =>
        ((hits.zip (ranker.score hits))[i]?).filter fun c =>
          decide (postThreshold req ≤ c.2.sim) := by
    rw [← List.filter_filterMap, filterMap_getElem?_range, passing]
  rw [hpassing]
  apply List.Perm.of_eq
  apply List.filterMap_congr
  intro i _
  rw [getElem?_sims ranker hits i]
  cases hi : (hits.zip (ranker.score hits))[i]? with
  | none => simp
  | some c => simp [Option.filter]

theorem length_validChunks_le :
    (validChunks ranker req hits).length ≤ hits.length := by
  rw [(validChunks_perm ranker req hits).length_eq, passing]
  exact (List.length_filter_le _ _).trans (length_scored ranker hits).le

/-- `total` counts the valid chunks of the window of the page, and the chunks of
the page are a slice of them. -/
theorem retrieval_spec {ranked : List Chunk} {page pageSize : ℤ}
    {v : PageWindow} (hquestion : req.question ≠ "")
    (hv : pageWindow page pageSize = some v)
    (hhits : search ranked v.backendPage v.limit = hits) :
    ∃ ranks, retrieval ranker ranked req page pageSize = some ranks ∧
      ranks.total = (validChunks ranker req hits).length ∧
      ranks.chunks =
        ((validChunks ranker req hits).drop v.sliceBegin.toNat).take
          (v.sliceEnd - v.sliceBegin).toNat := by
  have hsome := fun i => isSome_scored ranker req hits (i := i)
  have hlength : (validChunks ranker req hits).length =
      (validIdx ranker req hits).length := by
    rw [validChunks, List.length_filterMap_eq_countP, List.countP_eq_length]
    exact hsome
  simp only [retrieval, if_neg hquestion, hv, Option.bind_eq_bind,
    Option.bind_some, hhits]
  by_cases hempty : hits.zip (ranker.score hits) = []
  · have hnil : validChunks ranker req hits = [] := by
      rw [validChunks, hempty]
      simp
    rw [if_pos hempty, hnil]
    exact ⟨_, rfl, rfl, by simp⟩
  · rw [if_neg hempty]
    by_cases hvalid : validIdx ranker req hits = []
    · have hnil : validChunks ranker req hits = [] := by
        rw [validChunks, hvalid]
        rfl
      rw [if_pos hvalid, hnil]
      exact ⟨_, rfl, rfl, by simp⟩
    · rw [if_neg hvalid, hlength]
      have hslice : ∀ i ∈ ((validIdx ranker req hits).drop
          v.sliceBegin.toNat).take (v.sliceEnd - v.sliceBegin).toNat,
          ((hits.zip (ranker.score hits))[i]?).isSome = true := by
        intro i hi
        exact hsome i (List.mem_of_mem_drop (List.mem_of_mem_take hi))
      have hcounted : ∀ i ∈ validIdx ranker req hits,
          (hits[i]?).isSome = true := by
        intro i hi
        simp [validIdx_lt ranker req hits hi]
      rw [mapM_eq_some_filterMap hslice, mapM_eq_some_filterMap hcounted,
        filterMap_slice hsome]
      exact ⟨_, rfl, rfl, rfl⟩

/-- The chunks of a page are a slice of the valid chunks of its window. -/
theorem retrieval_chunks {ranked : List Chunk} {page pageSize : ℤ}
    {v : PageWindow} (hquestion : req.question ≠ "")
    (hv : pageWindow page pageSize = some v)
    (hhits : search ranked v.backendPage v.limit = hits) :
    (retrieval ranker ranked req page pageSize).map Ranks.chunks =
      some (((validChunks ranker req hits).drop v.sliceBegin.toNat).take
        (v.sliceEnd - v.sliceBegin).toNat) := by
  obtain ⟨ranks, hranks, -, hchunks⟩ :=
    retrieval_spec ranker req hits hquestion hv hhits
  rw [hranks, Option.map_some, hchunks]

/-- `total` counts the chunks of the window of the page that pass. -/
theorem retrieval_total {ranked : List Chunk} {page pageSize : ℤ}
    {v : PageWindow} (hquestion : req.question ≠ "")
    (hv : pageWindow page pageSize = some v)
    (hhits : search ranked v.backendPage v.limit = hits) :
    (retrieval ranker ranked req page pageSize).map Ranks.total =
      some (passing ranker req hits).length := by
  obtain ⟨ranks, hranks, htotal, -⟩ :=
    retrieval_spec ranker req hits hquestion hv hhits
  rw [hranks, Option.map_some, htotal,
    (validChunks_perm ranker req hits).length_eq]

/-- Where the numbers of a page cannot be computed, the exception is passed
on. -/
theorem retrieval_eq_none {ranked : List Chunk} {page pageSize : ℤ}
    (hquestion : req.question ≠ "") (hv : pageWindow page pageSize = none) :
    retrieval ranker ranked req page pageSize = none := by
  rw [retrieval, if_neg hquestion, hv]
  rfl

end RagflowMineru.Search
