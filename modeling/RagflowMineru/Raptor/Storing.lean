import Mathlib.Algebra.Order.BigOperators.Group.List
import RagflowMineru.Raptor.Layers

/-!
# Storing the summaries

`run_raptor_for_kb` hands the chunks of every document, or of all documents at once, to
RAPTOR, and makes a row of whatever comes in the answer after as many entries as were
handed over.  RAPTOR itself leaves out the chunks without content or vector first.
-/

namespace RagflowMineru.Raptor

variable {ν : Type}

def graphRaptorFakeDocId : String := "graph_raptor_x"

/-- A chunk as it is fetched: its vector is missing or None where another embedding
model was used. -/
structure FetchedChunk (ν : Type) where
  contentWithWeight : String
  vector : Option (List ν)

/-- The row of the task. -/
structure TaskRow where
  name : String
  kbId : String
  pagerank : ℕ

/-- `kb_parser_config["raptor"]`, and `RAPTOR_MAX_ERRORS`. -/
structure RaptorConfig where
  scope : Option String
  maxCluster : Option ℕ
  maxErrors : Option ℕ

def RaptorConfig.settings (cfg : RaptorConfig) : Settings :=
  ⟨cfg.maxCluster.getD 64, cfg.maxErrors.getD 3⟩

/-- The names of the documents, the tokenizers, and the digest of an id. -/
structure Services where
  docNameById : String → Option String
  tokenize : String → String
  fineGrainedTokenize : String → String
  digest : String → String

/-- A row for the document store. -/
structure SummaryRow (ν : Type) where
  id : String
  docId : String
  kbId : List String
  docnmKwd : String
  titleTks : String
  raptorKwd : String
  pagerankFea : Option ℕ
  vector : List ν
  contentWithWeight : String
  contentLtks : String
  contentSmLtks : String

/-- `effective_doc_name`. -/
def effectiveDocName (e : Services) (row : TaskRow) (did : String) : String :=
  if did = graphRaptorFakeDocId then row.name else (e.docNameById did).getD row.name

def summaryRow (e : Services) (row : TaskRow) (did : String) (c : Chunk ν) : SummaryRow ν :=
  let docName := effectiveDocName e row did
  { id := e.digest (c.1 ++ graphRaptorFakeDocId)
    docId := did
    kbId := [row.kbId]
    docnmKwd := docName
    titleTks := e.tokenize docName
    raptorKwd := "raptor"
    pagerankFea := if row.pagerank ≠ 0 then some row.pagerank else none
    vector := c.2.getD []
    contentWithWeight := c.1
    contentLtks := e.tokenize c.1
    contentSmLtks := e.fineGrainedTokenize (e.tokenize c.1) }

def generate (e : Services) (cfg : RaptorConfig) (row : TaskRow) (answers : ℕ → LayerAnswers ν)
    (chunks : List (Chunk ν)) (did : String) : Except RaptorError (List (SummaryRow ν)) := do
  let result ← raptor cfg.settings answers chunks
  return (result.drop chunks.length).map (summaryRow e row did)

/-- The chunks that have the vector field. -/
def withVector (fetched : List (FetchedChunk ν)) : List (Chunk ν) :=
  fetched.filterMap fun d => d.vector.map fun v => (d.contentWithWeight, some v)

/-- The rows of a run, where `answers x` is what is answered to RAPTOR for the `x`-th
document. -/
def runRaptorForKb (e : Services) (cfg : RaptorConfig) (row : TaskRow)
    (chunkList : String → List (FetchedChunk ν)) (answers : ℕ → ℕ → LayerAnswers ν)
    (docIds : List String) : Except RaptorError (List (SummaryRow ν)) :=
  if cfg.scope.getD "file" = "file" then
    docIds.zipIdx.foldlM (fun res (docId, x) =>
      let chunks := withVector (chunkList docId)
      if chunks = [] then .ok res
      else do
        let rows ← generate e cfg row (answers x) chunks docId
        return res ++ rows) []
  else
    let chunks := docIds.flatMap fun docId => withVector (chunkList docId)
    if chunks = [] then .ok [] else generate e cfg row (answers 0) chunks graphRaptorFakeDocId

/-! ## What is claimed -/

/-- A list of chunks that is handed to RAPTOR, and what it is answered. -/
structure Handed (ν : Type) where
  did : String
  chunks : List (Chunk ν)
  answers : ℕ → LayerAnswers ν

/-- The chunk lists of a run. -/
def handed (cfg : RaptorConfig) (chunkList : String → List (FetchedChunk ν))
    (answers : ℕ → ℕ → LayerAnswers ν) (docIds : List String) : List (Handed ν) :=
  if cfg.scope.getD "file" = "file" then
    (docIds.zipIdx.map fun (docId, x) => ⟨docId, withVector (chunkList docId), answers x⟩).filter
      fun c => c.chunks ≠ []
  else
    [⟨graphRaptorFakeDocId, docIds.flatMap fun docId => withVector (chunkList docId),
      answers 0⟩].filter fun c => c.chunks ≠ []

/-- What RAPTOR appended to the chunks it kept. -/
def generated (g : Settings) (c : Handed ν) : List (Chunk ν) :=
  match raptor g c.answers c.chunks with
  | .ok result => result.drop (c.chunks.filter usable).length
  | .error _ => []

/-- What a row says of a summary. -/
def SummaryRow.summary (r : SummaryRow ν) : String × String × List ν :=
  (r.docId, r.contentWithWeight, r.vector)

/-- The summaries of a chunk list with its document. -/
def expected (g : Settings) (c : Handed ν) : List (String × String × List ν) :=
  (generated g c).map fun s => (c.did, s.1, s.2.getD [])

/-- The condition on a chunk list: none of its chunks is left out, or there is no summary
to store. -/
def Kept (c : Handed ν) : Prop :=
  (∀ chunk ∈ c.chunks, usable chunk) ∨ (c.chunks.filter usable).length ≤ 1 ∨
    (c.chunks.filter usable).length = 2 ∧ (c.answers 0).summary 0 = none

/-! ## What RAPTOR appends -/

section

variable {g : Settings} {s t : LoopState ν}

theorem prefix_of_summarize {answers : LayerAnswers ν} {w w' : Work ν} {c : ℕ} {ckIdx : List ℕ}
    (h : summarize g answers w c ckIdx = .ok w') : w.chunks <+: w'.chunks := by
  unfold summarize at h
  cases hsummary : answers.summary c with
  | some r =>
      simp only [hsummary] at h
      split_ifs at h
      obtain rfl := Except.ok.inj h
      exact List.prefix_append _ _
  | none =>
      simp only [hsummary] at h
      split_ifs at h
      obtain rfl := Except.ok.inj h
      exact List.prefix_rfl

theorem prefix_of_foldlM_summarize {answers : LayerAnswers ν} {idx : ℕ → List ℕ} {l : List ℕ}
    {w w' : Work ν} (h : l.foldlM (fun w c => summarize g answers w c (idx c)) w = .ok w') :
    w.chunks <+: w'.chunks := by
  induction l generalizing w with
  | nil =>
      obtain rfl := Except.ok.inj h
      exact List.prefix_rfl
  | cons c l ih =>
      rw [List.foldlM_cons] at h
      obtain ⟨v, hv, hrest⟩ := bind_eq_ok h
      exact (prefix_of_summarize hv).trans (ih hrest)

/-- A layer leaves what is there in place, and one of three or more is summarized. -/
theorem prefix_of_processLayer {answers : LayerAnswers ν} (h : processLayer g answers s = .ok t) :
    s.chunks <+: t.chunks ∧ (s.stop - s.start ≠ 2 → s.stop < t.stop) := by
  unfold processLayer at h
  split_ifs at h with htwo
  · obtain ⟨w, hw, hnext⟩ := bind_eq_ok h
    obtain rfl := Except.ok.inj hnext
    exact ⟨prefix_of_summarize hw, fun hne => absurd htwo hne⟩
  · obtain ⟨n, hn, h⟩ := bind_eq_ok h
    obtain ⟨lbls, -, h⟩ := bind_eq_ok h
    have hpos : 1 ≤ n := by
      unfold getOptimalClusters at hn
      split_ifs at hn
      rw [← Except.ok.inj hn]
      exact (lt_of_mem_candidates (answers.optimal _ _).2).1
    unfold summarizeClusters at h
    split_ifs at h
    obtain ⟨w, hw, h⟩ := bind_eq_ok h
    split_ifs at h with hcount
    obtain rfl := Except.ok.inj h
    refine ⟨prefix_of_foldlM_summarize hw, fun _ => ?_⟩
    change s.stop < w.chunks.length
    omega

/-- Two chunks leave the length as it is if and only if their summary fails. -/
theorem processLayer_two {answers : LayerAnswers ν} (hsize : s.stop - s.start = 2)
    (h : processLayer g answers s = .ok t) : t.stop ≤ s.stop ↔ answers.summary 0 = none := by
  rw [processLayer, if_pos hsize] at h
  obtain ⟨w, hw, hnext⟩ := bind_eq_ok h
  obtain rfl := Except.ok.inj hnext
  change w.chunks.length ≤ s.chunks.length ↔ _
  unfold summarize at hw
  cases hsummary : answers.summary 0 with
  | some r =>
      simp only [hsummary] at hw
      split_ifs at hw
      rw [← Except.ok.inj hw]
      simp
  | none =>
      simp only [hsummary] at hw
      split_ifs at hw
      rw [← Except.ok.inj hw]
      simp

variable {answers : ℕ → LayerAnswers ν} {k : ℕ}

theorem prefix_of_layerLoop (h : layerLoop g answers k s = .ok t) : s.chunks <+: t.chunks :=
  layerLoop_invariant (I := fun t => s.chunks <+: t.chunks)
    (fun hs hlayer => hs.trans (prefix_of_processLayer hlayer).1) List.prefix_rfl h

/-- When a run that returns has not appended anything. -/
theorem layerLoop_length_le_iff (h : layerLoop g answers k s = .ok t) :
    t.stop ≤ s.stop ↔ s.stop - s.start ≤ 1 ∨
      s.stop - s.start = 2 ∧ (answers k).summary 0 = none := by
  rcases Nat.lt_or_ge 1 (s.stop - s.start) with hmore | hone
  · cases hlayer : processLayer g (answers k) s with
    | error e =>
        rw [layerLoop_of_error hmore hlayer] at h
        cases h
    | ok s' =>
        rw [layerLoop_of_ok hmore hlayer] at h
        have hlength : s'.stop ≤ t.stop := (prefix_of_layerLoop h).length_le
        by_cases htwo : s.stop - s.start = 2
        · have hsmaller := (processLayer_ok hlayer).2.2
          rw [layerLoop_of_le (by omega)] at h
          obtain rfl := Except.ok.inj h
          rw [processLayer_two htwo hlayer, or_iff_right (by omega), and_iff_right htwo]
        · have hlonger := (prefix_of_processLayer hlayer).2 htwo
          refine iff_of_false (by omega) ?_
          rintro (hone | ⟨htwo', -⟩)
          · omega
          · exact htwo htwo'
  · rw [layerLoop_of_le hone] at h
    rw [← Except.ok.inj h]
    exact iff_of_true le_rfl (.inl hone)

end

section

variable {g : Settings} {c : Handed ν} {result : List (Chunk ν)}

/-- A result is made of the chunks that were kept and of what is generated. -/
theorem eq_append_generated (hmore : 1 < c.chunks.length)
    (h : raptor g c.answers c.chunks = .ok result) :
    result = c.chunks.filter usable ++ generated g c := by
  have hgenerated : generated g c = result.drop (c.chunks.filter usable).length := by
    rw [generated, h]
  rw [raptor, if_neg (not_le.mpr hmore)] at h
  cases hbuild : buildLayers g c.answers (c.chunks.filter usable) with
  | error e =>
      rw [hbuild] at h
      cases h
  | ok s =>
      rw [hbuild] at h
      obtain rfl := Except.ok.inj h
      obtain ⟨l, hl⟩ := prefix_of_layerLoop hbuild
      change s.chunks = _
      rw [hgenerated]
      change s.chunks = _ ++ s.chunks.drop _
      rw [← hl, List.drop_left]

theorem generated_length_iff (h : raptor g c.answers c.chunks = .ok result) :
    result.length ≤ (c.chunks.filter usable).length ↔
      (c.chunks.filter usable).length ≤ 1 ∨
        (c.chunks.filter usable).length = 2 ∧ (c.answers 0).summary 0 = none := by
  rcases Nat.lt_or_ge 1 c.chunks.length with hmore | hone
  · rw [raptor, if_neg (not_le.mpr hmore)] at h
    cases hbuild : buildLayers g c.answers (c.chunks.filter usable) with
    | error e =>
        rw [hbuild] at h
        cases h
    | ok s =>
        rw [hbuild] at h
        obtain rfl := Except.ok.inj h
        exact layerLoop_length_le_iff hbuild
  · have hlength := List.length_filter_le usable c.chunks
    rw [raptor, if_pos hone] at h
    obtain rfl := Except.ok.inj h
    exact iff_of_true (Nat.zero_le _) (.inl (by omega))

end

/-- RAPTOR on two chunks that are kept. -/
theorem raptor_two {g : Settings} {answers : ℕ → LayerAnswers ν} {chunks : List (Chunk ν)}
    {a b : Chunk ν} {r : String × List ν} (hfilter : chunks.filter usable = [a, b])
    (hsummary : (answers 0).summary 0 = some r) :
    raptor g answers chunks = .ok [a, b, (r.1, some r.2)] := by
  have hmore : 1 < chunks.length := by
    have hlength := List.length_filter_le usable chunks
    rw [hfilter] at hlength
    exact hlength
  have hlayer : processLayer g (answers 0) ⟨⟨[a, b], 0⟩, 0, [(0, 2)]⟩ =
      .ok ⟨⟨[a, b, (r.1, some r.2)], 0⟩, 2, [(0, 2), (2, 3)]⟩ := by
    have hsummarize : summarize g (answers 0) ⟨[a, b], 0⟩ 0 [0, 1] =
        .ok ⟨[a, b, (r.1, some r.2)], 0⟩ := by
      rw [summarize, if_pos (by rfl), hsummary]
      rfl
    change (summarize g (answers 0) ⟨[a, b], 0⟩ 0 [0, 1] >>= _) = _
    rw [hsummarize]
    rfl
  rw [raptor, if_neg (not_le.mpr hmore), hfilter]
  change (layerLoop g answers 0 ⟨⟨[a, b], 0⟩, 0, [(0, 2)]⟩).map _ = _
  rw [layerLoop_of_ok (by exact Nat.one_lt_two) hlayer, layerLoop_of_le (by exact le_rfl)]
  rfl

/-! ## What is stored -/

/-- The rows of one chunk list. -/
def stored (e : Services) (cfg : RaptorConfig) (row : TaskRow) (c : Handed ν) :
    List (SummaryRow ν) :=
  match generate e cfg row c.answers c.chunks c.did with
  | .ok rows => rows
  | .error _ => []

section

variable {e : Services} {cfg : RaptorConfig} {row : TaskRow}

theorem map_summary_generate {c : Handed ν} {result : List (Chunk ν)}
    (h : raptor cfg.settings c.answers c.chunks = .ok result) :
    (stored e cfg row c).map SummaryRow.summary =
      (result.drop c.chunks.length).map fun s => (c.did, s.1, s.2.getD []) := by
  rw [stored, generate, h]
  exact List.map_map

theorem map_drop_eq_iff {α β : Type} {f : α → β} {l : List α} {m n : ℕ} (hmn : m ≤ n) :
    (l.drop n).map f = (l.drop m).map f ↔ n = m ∨ l.length ≤ m := by
  constructor
  · intro h
    have hlength := congrArg List.length h
    simp only [List.length_map, List.length_drop] at hlength
    omega
  · rintro (rfl | hle)
    · rfl
    · rw [List.drop_eq_nil_of_le hle, List.drop_eq_nil_of_le (hle.trans hmn)]

/-- No chunk list has more rows than summaries. -/
theorem length_stored_le {c : Handed ν} {result : List (Chunk ν)}
    (h : raptor cfg.settings c.answers c.chunks = .ok result) :
    ((stored e cfg row c).map SummaryRow.summary).length ≤ (expected cfg.settings c).length := by
  have hlength := List.length_filter_le usable c.chunks
  rw [map_summary_generate h, expected, generated, h]
  simp only [List.length_map, List.length_drop]
  omega

theorem stored_eq_iff {c : Handed ν} {result : List (Chunk ν)}
    (h : raptor cfg.settings c.answers c.chunks = .ok result) :
    (stored e cfg row c).map SummaryRow.summary = expected cfg.settings c ↔ Kept c := by
  have hlength := List.length_filter_le usable c.chunks
  have hall : c.chunks.length = (c.chunks.filter usable).length ↔
      ∀ chunk ∈ c.chunks, usable chunk := by
    rw [eq_comm]
    exact List.length_filter_eq_length_iff
  rw [map_summary_generate h, expected, generated, h]
  exact (map_drop_eq_iff hlength).trans (or_congr hall (generated_length_iff h))

end

/-! ## A run -/

section

variable {e : Services} {cfg : RaptorConfig} {row : TaskRow}

/-- The rows of several chunk lists. -/
def generateAll (e : Services) (cfg : RaptorConfig) (row : TaskRow) (res : List (SummaryRow ν))
    (l : List (Handed ν)) : Except RaptorError (List (SummaryRow ν)) :=
  l.foldlM (fun res c => do
    let rows ← generate e cfg row c.answers c.chunks c.did
    return res ++ rows) res

theorem generateAll_singleton (c : Handed ν) :
    generateAll e cfg row [] [c] = generate e cfg row c.answers c.chunks c.did := by
  simp [generateAll]

theorem runRaptorForKb_eq (chunkList : String → List (FetchedChunk ν))
    (answers : ℕ → ℕ → LayerAnswers ν) (docIds : List String) :
    runRaptorForKb e cfg row chunkList answers docIds =
      generateAll e cfg row [] (handed cfg chunkList answers docIds) := by
  unfold runRaptorForKb handed
  by_cases hscope : cfg.scope.getD "file" = "file"
  · rw [if_pos hscope, if_pos hscope, generateAll, List.foldlM_filter, List.foldlM_map]
    refine congrArg (fun f => List.foldlM f [] docIds.zipIdx) ?_
    funext res ⟨docId, x⟩
    by_cases hnil : withVector (chunkList docId) = []
    · simp [hnil, pure, Except.pure]
    · simp [hnil]
  · rw [if_neg hscope, if_neg hscope]
    by_cases hnil : docIds.flatMap (fun docId => withVector (chunkList docId)) = []
    · rw [if_pos hnil, hnil]
      rfl
    · rw [if_neg hnil, List.filter_cons_of_pos (by simpa using hnil), List.filter_nil,
        generateAll_singleton]

theorem generateAll_ok {res rows : List (SummaryRow ν)} {l : List (Handed ν)}
    (h : generateAll e cfg row res l = .ok rows) :
    rows = res ++ l.flatMap (stored e cfg row) ∧
      ∀ c ∈ l, ∃ result, raptor cfg.settings c.answers c.chunks = .ok result := by
  induction l generalizing res with
  | nil =>
      obtain rfl := Except.ok.inj h
      exact ⟨(List.append_nil _).symm, fun c hc => absurd hc List.not_mem_nil⟩
  | cons c l ih =>
      rw [generateAll, List.foldlM_cons] at h
      obtain ⟨res', hres', hrest⟩ := bind_eq_ok h
      obtain ⟨new, hnew, hres'⟩ := bind_eq_ok hres'
      obtain rfl := Except.ok.inj hres'
      obtain ⟨result, hresult, -⟩ := bind_eq_ok hnew
      obtain ⟨hrows, hall⟩ := ih hrest
      have hstored : stored e cfg row c = new := by
        rw [stored, hnew]
      refine ⟨?_, List.forall_mem_cons.mpr ⟨⟨result, hresult⟩, hall⟩⟩
      rw [hrows, List.flatMap_cons, hstored, List.append_assoc]

/-- Lists that are put together of parts are equal if and only if the parts are, when no
part of the one is longer. -/
theorem flatMap_eq_iff {α β : Type} {f f' : α → List β} {l : List α}
    (hle : ∀ a ∈ l, (f a).length ≤ (f' a).length) :
    l.flatMap f = l.flatMap f' ↔ ∀ a ∈ l, f a = f' a := by
  induction l with
  | nil => simp
  | cons a l ih =>
      obtain ⟨hhead, htail⟩ := List.forall_mem_cons.mp hle
      rw [List.flatMap_cons, List.flatMap_cons, List.forall_mem_cons, ← ih htail]
      constructor
      · intro h
        have htails : (l.flatMap f).length ≤ (l.flatMap f').length := by
          rw [List.length_flatMap, List.length_flatMap]
          exact List.sum_le_sum htail
        have hlength := congrArg List.length h
        rw [List.length_append, List.length_append] at hlength
        exact List.append_inj h (by omega)
      · rintro ⟨hhead, htail⟩
        rw [hhead, htail]

end

/-- A run that returns stores the summaries of all chunk lists, each once and nothing
else, if and only if from no list with a summary a chunk was left out. -/
theorem stores_summaries_iff (e : Services) (cfg : RaptorConfig) (row : TaskRow)
    (chunkList : String → List (FetchedChunk ν)) (answers : ℕ → ℕ → LayerAnswers ν)
    (docIds : List String) {rows : List (SummaryRow ν)}
    (h : runRaptorForKb e cfg row chunkList answers docIds = .ok rows) :
    rows.map SummaryRow.summary =
        (handed cfg chunkList answers docIds).flatMap (expected cfg.settings) ↔
      ∀ c ∈ handed cfg chunkList answers docIds, Kept c := by
  rw [runRaptorForKb_eq] at h
  obtain ⟨hrows, hall⟩ := generateAll_ok h
  rw [hrows, List.nil_append, List.map_flatMap, flatMap_eq_iff]
  · refine forall₂_congr fun c hc => ?_
    obtain ⟨result, hresult⟩ := hall c hc
    exact stored_eq_iff hresult
  · intro c hc
    obtain ⟨result, hresult⟩ := hall c hc
    exact length_stored_le hresult

theorem range_perm_range (size : ℕ) : (List.range size).Perm (List.range size) := .refl _

def oneSummary : LayerAnswers ℕ where
  optimal := fun l h => ⟨l.head h, List.head_mem h⟩
  labels := fun _ _ => [0]
  labels_ne_nil := fun _ _ => List.cons_ne_nil _ _
  summary := fun _ => some ("ab", [3])
  completion := List.range
  completion_perm := range_perm_range

def plainServices : Services where
  docNameById := fun _ => none
  tokenize := id
  fineGrainedTokenize := id
  digest := id

/-- Two chunks, and what is fetched beside them. -/
def fetchedTwo (others : List (FetchedChunk ℕ)) (_ : String) : List (FetchedChunk ℕ) :=
  ⟨"a", some [1]⟩ :: ⟨"b", some [2]⟩ :: others

theorem handed_fetchedTwo (others : List (FetchedChunk ℕ)) :
    handed ⟨none, none, none⟩ (fetchedTwo others) (fun _ _ => oneSummary) ["d"] =
      [⟨"d", ("a", some [1]) :: ("b", some [2]) :: withVector others, fun _ => oneSummary⟩] := by
  rw [handed, if_pos (by rfl)]
  rfl

/-- The run on two chunks stores their summary. -/
theorem runRaptorForKb_two :
    runRaptorForKb plainServices ⟨none, none, none⟩ ⟨"t", "k", 0⟩ (fetchedTwo [])
      (fun _ _ => oneSummary) ["d"] =
        .ok [summaryRow plainServices ⟨"t", "k", 0⟩ "d" ("ab", some [3])] := by
  have hraptor : raptor ⟨64, 3⟩ (fun _ => oneSummary) [("a", some [1]), ("b", some [2])] =
      .ok [("a", some [1]), ("b", some [2]), ("ab", some [3])] :=
    raptor_two (r := ("ab", [3])) (by decide +kernel) rfl
  have hgenerate : generate plainServices ⟨none, none, none⟩ ⟨"t", "k", 0⟩ (fun _ => oneSummary)
      [("a", some [1]), ("b", some [2])] "d" =
        .ok [summaryRow plainServices ⟨"t", "k", 0⟩ "d" ("ab", some [3])] := by
    change (raptor ⟨64, 3⟩ _ _ >>= _) = _
    rw [hraptor]
    rfl
  rw [runRaptorForKb_eq, handed_fetchedTwo, generateAll_singleton]
  exact hgenerate

theorem stores_summaries_two :
    [("d", "ab", [3])] =
        (handed ⟨none, none, none⟩ (fetchedTwo []) (fun _ _ => oneSummary) ["d"]).flatMap
          (expected ⟨64, 3⟩) ↔
      ∀ c ∈ handed ⟨none, none, none⟩ (fetchedTwo []) (fun _ _ => oneSummary) ["d"], Kept c :=
  stores_summaries_iff _ _ _ _ _ _ runRaptorForKb_two

/-- With a chunk without content among them their summary is skipped. -/
theorem not_stores_summaries :
    runRaptorForKb plainServices ⟨none, none, none⟩ ⟨"t", "k", 0⟩ (fetchedTwo [⟨"", some [3]⟩])
        (fun _ _ => oneSummary) ["d"] = .ok [] ∧
      (handed ⟨none, none, none⟩ (fetchedTwo [⟨"", some [3]⟩]) (fun _ _ => oneSummary)
        ["d"]).flatMap (expected ⟨64, 3⟩) = [("d", "ab", [3])] := by
  have hraptor : raptor ⟨64, 3⟩ (fun _ => oneSummary)
      [("a", some [1]), ("b", some [2]), ("", some [3])] =
        .ok [("a", some [1]), ("b", some [2]), ("ab", some [3])] :=
    raptor_two (r := ("ab", [3])) (by decide +kernel) rfl
  have hgenerate : generate plainServices ⟨none, none, none⟩ ⟨"t", "k", 0⟩ (fun _ => oneSummary)
      [("a", some [1]), ("b", some [2]), ("", some [3])] "d" = .ok [] := by
    change (raptor ⟨64, 3⟩ _ _ >>= _) = _
    rw [hraptor]
    rfl
  constructor
  · rw [runRaptorForKb_eq, handed_fetchedTwo, generateAll_singleton]
    exact hgenerate
  · have hgenerated : generated ⟨64, 3⟩ ⟨"d", [("a", some [1]), ("b", some [2]), ("", some [3])],
        fun _ => oneSummary⟩ = [("ab", some [3])] := by
      rw [generated, hraptor]
      rfl
    rw [handed_fetchedTwo, List.flatMap_singleton, expected]
    exact congrArg (List.map _) hgenerated

end RagflowMineru.Raptor
