import Mathlib.Algebra.Order.Group.Nat
import Mathlib.Data.List.Range
import Mathlib.Data.List.Chain

/-!
# The layers of RAPTOR

`RecursiveAbstractiveProcessing4TreeOrganizedRetrieval` clusters the chunks of a
layer, has every cluster summarized and goes on with the summaries as the next
layer.  A summary that fails is left out until there are too many failures.  What
the clustering and the model answer is given for every layer.
-/

namespace RagflowMineru.Raptor

variable {ν : Type}

/-- A content with its embedding. -/
abbrev Chunk (ν : Type) := String × Option (List ν)

/-- `s and a is not None and len(a) > 0`. -/
def usable (c : Chunk ν) : Bool := !c.1.isEmpty && !(c.2.getD []).isEmpty

inductive RaptorError
  /-- `np.argmin` of no candidates. -/
  | valueError
  | indexError
  | assertionError
  /-- The RuntimeError after `max_errors` failures. -/
  | aborted
  deriving DecidableEq

/-- What is answered in one layer: the number of clusters with the least score, the
clusters of a point in increasing order, the summary of a cluster or its failure, and
the order in which the summaries are done. -/
structure LayerAnswers (ν : Type) where
  optimal : (candidates : List ℕ) → candidates ≠ [] → {n // n ∈ candidates}
  labels : ℕ → ℕ → List ℕ
  labels_ne_nil : ∀ n i, labels n i ≠ []
  summary : ℕ → Option (String × List ν)
  completion : ℕ → List ℕ
  completion_perm : ∀ n, (completion n).Perm (List.range n)

/-- What the summaries of a layer work on. -/
structure Work (ν : Type) where
  chunks : List (Chunk ν)
  errorCount : ℕ

/-- At the head of the loop, where `end` is the number of chunks. -/
structure LoopState (ν : Type) extends Work ν where
  start : ℕ
  layers : List (ℕ × ℕ)

def LoopState.stop (s : LoopState ν) : ℕ := s.chunks.length

/-- The limits of a run. -/
structure Settings where
  maxCluster : ℕ
  maxErrors : ℕ

/-- `self._max_errors`. -/
def Settings.abortAt (g : Settings) : ℕ := max 1 g.maxErrors

/-- `np.arange(1, max_clusters)`. -/
def candidates (g : Settings) (size : ℕ) : List ℕ :=
  List.range' 1 (min g.maxCluster size - 1)

def getOptimalClusters (g : Settings) (answers : LayerAnswers ν) (size : ℕ) :
    Except RaptorError ℕ :=
  if h : candidates g size ≠ [] then .ok (answers.optimal _ h).1 else .error .valueError

/-- The label of a point: the first cluster that is probable enough. -/
def pointLabel (answers : LayerAnswers ν) (nClusters i : ℕ) : Except RaptorError ℕ :=
  if nClusters = 1 then .ok 0
  else
    match answers.labels nClusters i with
    | [] => .error .indexError
    | c :: _ => .ok c

/-- `[i + start for i in range(len(lbls)) if lbls[i] == c]`. -/
def cluster (start : ℕ) (lbls : List ℕ) (c : ℕ) : List ℕ :=
  ((List.range lbls.length).filter fun i => lbls[i]? = some c).map (· + start)

/-- Summarize the cluster `c`, which has the chunks at `ckIdx`. -/
def summarize (g : Settings) (answers : LayerAnswers ν) (w : Work ν) (c : ℕ) (ckIdx : List ℕ) :
    Except RaptorError (Work ν) :=
  if ckIdx.all fun i => i < w.chunks.length then
    match answers.summary c with
    | some (cnt, embds) => .ok { w with chunks := w.chunks ++ [(cnt, some embds)] }
    | none =>
        if g.abortAt ≤ w.errorCount + 1 then .error .aborted
        else .ok { w with errorCount := w.errorCount + 1 }
  else .error .indexError

def LoopState.next (s : LoopState ν) (w : Work ν) : LoopState ν :=
  { toWork := w
    start := s.stop
    layers := s.layers ++ [(s.stop, w.chunks.length)] }

/-- The summaries of all clusters, and the two assertions. -/
def summarizeClusters (g : Settings) (answers : LayerAnswers ν) (s : LoopState ν)
    (nClusters : ℕ) (lbls : List ℕ) : Except RaptorError (LoopState ν) :=
  if (List.range nClusters).any fun c => (cluster s.start lbls c).isEmpty then
    .error .assertionError
  else do
    let w ← (answers.completion nClusters).foldlM
      (fun w c => summarize g answers w c (cluster s.start lbls c)) s.toWork
    if w.chunks.length - s.stop = nClusters then .ok (s.next w) else .error .assertionError

/-- The body of the loop. -/
def processLayer (g : Settings) (answers : LayerAnswers ν) (s : LoopState ν) :
    Except RaptorError (LoopState ν) :=
  if s.stop - s.start = 2 then do
    let w ← summarize g answers s.toWork 0 [s.start, s.start + 1]
    return s.next w
  else do
    let nClusters ← getOptimalClusters g answers (s.stop - s.start)
    let lbls ← (List.range (s.stop - s.start)).mapM (pointLabel answers nClusters)
    summarizeClusters g answers s nClusters lbls

/-! ## One layer -/

section

variable {g : Settings} {answers : LayerAnswers ν} {s t : LoopState ν}

theorem lt_of_mem_candidates {size n : ℕ} (hn : n ∈ candidates g size) : 1 ≤ n ∧ n < size := by
  obtain ⟨hpos, hlt⟩ := List.mem_range'_1.mp hn
  omega

theorem bind_eq_ok {α β : Type} {x : Except RaptorError α} {f : α → Except RaptorError β} {b : β}
    (h : x >>= f = .ok b) : ∃ v, x = .ok v ∧ f v = .ok b := by
  cases x with
  | error e => cases h
  | ok v => exact ⟨v, rfl, h⟩

theorem summarize_ok {w w' : Work ν} {c : ℕ} {ckIdx : List ℕ}
    (h : summarize g answers w c ckIdx = .ok w') :
    w'.chunks.length ≤ w.chunks.length + 1 := by
  unfold summarize at h
  cases hsummary : answers.summary c with
  | some r =>
      simp only [hsummary] at h
      split_ifs at h
      obtain rfl := Except.ok.inj h
      simp
  | none =>
      simp only [hsummary] at h
      split_ifs at h
      obtain rfl := Except.ok.inj h
      exact Nat.le_succ _

theorem summarize_error {w : Work ν} {c : ℕ} {ckIdx : List ℕ} {e : RaptorError}
    (hidx : (ckIdx.all fun i => i < w.chunks.length) = true)
    (h : summarize g answers w c ckIdx = .error e) : e = .aborted := by
  rw [summarize, if_pos hidx] at h
  cases hsummary : answers.summary c with
  | some r =>
      rw [hsummary] at h
      cases h
  | none =>
      simp only [hsummary] at h
      split_ifs at h
      exact (Except.error.inj h).symm

/-- A layer that is worked up is followed by a smaller one. -/
theorem processLayer_ok (h : processLayer g answers s = .ok t) :
    t.start = s.stop ∧ t.layers = s.layers ++ [(s.stop, t.stop)] ∧
      t.stop - t.start < s.stop - s.start := by
  unfold processLayer at h
  split_ifs at h with htwo
  · obtain ⟨w, hw, hnext⟩ := bind_eq_ok h
    obtain rfl := Except.ok.inj hnext
    have hlength := summarize_ok hw
    refine ⟨rfl, rfl, ?_⟩
    change w.chunks.length - s.chunks.length < _
    omega
  · obtain ⟨n, hn, h⟩ := bind_eq_ok h
    obtain ⟨lbls, -, h⟩ := bind_eq_ok h
    have hlt : n < s.stop - s.start := by
      unfold getOptimalClusters at hn
      split_ifs at hn
      rw [← Except.ok.inj hn]
      exact (lt_of_mem_candidates (answers.optimal _ _).2).2
    unfold summarizeClusters at h
    split_ifs at h
    obtain ⟨w, -, h⟩ := bind_eq_ok h
    split_ifs at h with hcount
    obtain rfl := Except.ok.inj h
    refine ⟨rfl, rfl, ?_⟩
    change w.chunks.length - s.stop < _
    omega

end

/-- The while loop, at the `k`-th layer. -/
def layerLoop (g : Settings) (answers : ℕ → LayerAnswers ν) (k : ℕ) (s : LoopState ν) :
    Except RaptorError (LoopState ν) :=
  if 1 < s.stop - s.start then
    match h : processLayer g (answers k) s with
    | .error e => .error e
    | .ok t => layerLoop g answers (k + 1) t
  else .ok s
termination_by s.stop - s.start
decreasing_by exact (processLayer_ok h).2.2

/-- The loop on chunks that are all usable. -/
def buildLayers (g : Settings) (answers : ℕ → LayerAnswers ν) (chunks : List (Chunk ν)) :
    Except RaptorError (LoopState ν) :=
  layerLoop g answers 0
    { chunks := chunks, errorCount := 0, start := 0, layers := [(0, chunks.length)] }

/-- `__call__`. -/
def raptor (g : Settings) (answers : ℕ → LayerAnswers ν) (chunks : List (Chunk ν)) :
    Except RaptorError (List (Chunk ν)) :=
  if chunks.length ≤ 1 then .ok []
  else (buildLayers g answers (chunks.filter usable)).map fun s => s.chunks

/-! ## What is claimed -/

/-- The layers of a run that ends, and how it may end: if failures stay below the
limit, it returns. -/
structure Layered (g : Settings) (answers : ℕ → LayerAnswers ν) (chunks : List (Chunk ν)) :
    Prop where
  returns : ∀ e, raptor g answers chunks = .error e → e = .aborted
  shrinks : ∀ s, buildLayers g answers (chunks.filter usable) = .ok s →
    s.layers.IsChain fun a b => b.2 - b.1 < a.2 - a.1

/-- `lbls[i]`. -/
def label (answers : LayerAnswers ν) (nClusters i : ℕ) : ℕ :=
  if nClusters = 1 then 0 else (answers.labels nClusters i).headD 0

/-- The summaries that fail among those of `n` clusters. -/
def failures (answers : LayerAnswers ν) (n : ℕ) : ℕ :=
  (List.range n).countP fun c => (answers.summary c).isNone

/-- The condition for a layer of `size` chunks, the `k`-th, and those after it: with
three or more there is a number of clusters to choose, every cluster has a point, and
no summary fails or so many do that the run is aborted. -/
inductive Clean (g : Settings) (answers : ℕ → LayerAnswers ν) : ℕ → ℕ → Prop
  | small {k size : ℕ} (hsize : size ≤ 2) : Clean g answers k size
  | aborts {k size : ℕ} (hne : candidates g size ≠ [])
      (hused : ∀ c < ((answers k).optimal _ hne).1,
        ∃ i < size, label (answers k) ((answers k).optimal _ hne).1 i = c)
      (hfails : g.abortAt ≤ failures (answers k) ((answers k).optimal _ hne).1) :
      Clean g answers k size
  | next {k size : ℕ} (hne : candidates g size ≠ [])
      (hused : ∀ c < ((answers k).optimal _ hne).1,
        ∃ i < size, label (answers k) ((answers k).optimal _ hne).1 i = c)
      (hfails : failures (answers k) ((answers k).optimal _ hne).1 = 0)
      (hrest : Clean g answers (k + 1) ((answers k).optimal _ hne).1) :
      Clean g answers k size

/-! ## The summaries of a layer -/

section

variable {g : Settings} {answers : LayerAnswers ν}

/-- The summaries that do not fail, as chunks. -/
def summaries (answers : LayerAnswers ν) (l : List ℕ) : List (Chunk ν) :=
  l.filterMap fun c => (answers.summary c).map fun r => (r.1, some r.2)

theorem length_summaries (answers : LayerAnswers ν) (l : List ℕ) :
    (summaries answers l).length + l.countP (fun c => (answers.summary c).isNone) = l.length := by
  induction l with
  | nil => rfl
  | cons c l ih =>
      cases hsummary : answers.summary c with
      | none => simp [summaries, hsummary] at ih ⊢; omega
      | some r => simp [summaries, hsummary] at ih ⊢; omega

/-- The summaries of several clusters: failures add up until they reach the limit. -/
theorem foldlM_summarize (answers : LayerAnswers ν) {idx : ℕ → List ℕ} {l : List ℕ} {w : Work ν}
    (hidx : ∀ c ∈ l, ∀ i ∈ idx c, i < w.chunks.length) (hcount : w.errorCount < g.abortAt) :
    l.foldlM (fun w c => summarize g answers w c (idx c)) w =
      if w.errorCount + l.countP (fun c => (answers.summary c).isNone) < g.abortAt then
        .ok ⟨w.chunks ++ summaries answers l,
          w.errorCount + l.countP fun c => (answers.summary c).isNone⟩
      else .error .aborted := by
  induction l generalizing w with
  | nil => simp [summaries, hcount, pure, Except.pure]
  | cons c l ih =>
      have hall : ((idx c).all fun i => i < w.chunks.length) = true := by
        simpa using hidx c (.head _)
      cases hsummary : answers.summary c with
      | some r =>
          have hsummarize : summarize g answers w c (idx c) =
              .ok { w with chunks := w.chunks ++ [(r.1, some r.2)] } := by
            rw [summarize, if_pos hall, hsummary]
          have hrest := ih (w := { w with chunks := w.chunks ++ [(r.1, some r.2)] })
            (fun c' hc' i hi => by
              have hlt := hidx c' (.tail _ hc') i hi
              simp only [List.length_append]
              omega) hcount
          rw [List.foldlM_cons, hsummarize]
          refine hrest.trans ?_
          simp [summaries, hsummary]
      | none =>
          by_cases habort : g.abortAt ≤ w.errorCount + 1
          · have hsummarize : summarize g answers w c (idx c) = .error .aborted := by
              rw [summarize, if_pos hall, hsummary]
              exact if_pos habort
            rw [List.foldlM_cons, hsummarize, if_neg]
            · rfl
            · simp only [List.countP_cons, hsummary]
              simp
              omega
          · have hsummarize : summarize g answers w c (idx c) =
                .ok { w with errorCount := w.errorCount + 1 } := by
              rw [summarize, if_pos hall, hsummary]
              exact if_neg habort
            have hrest := ih (w := { w with errorCount := w.errorCount + 1 })
              (fun c' hc' => hidx c' (.tail _ hc')) (not_le.mp habort)
            rw [List.foldlM_cons, hsummarize]
            refine hrest.trans ?_
            simp [summaries, hsummary, Nat.add_assoc, Nat.add_comm 1]

theorem countP_completion (answers : LayerAnswers ν) (n : ℕ) :
    (answers.completion n).countP (fun c => (answers.summary c).isNone) = failures answers n :=
  (answers.completion_perm n).countP_eq _

theorem length_summaries_completion (answers : LayerAnswers ν) (n : ℕ) :
    (summaries answers (answers.completion n)).length + failures answers n = n := by
  rw [← countP_completion, length_summaries, (answers.completion_perm n).length_eq,
    List.length_range]

/-! ## Three chunks and more -/

theorem pointLabel_eq (answers : LayerAnswers ν) (n i : ℕ) :
    pointLabel answers n i = .ok (label answers n i) := by
  unfold pointLabel label
  by_cases hn : n = 1
  · rw [if_pos hn, if_pos hn]
  · rw [if_neg hn, if_neg hn]
    obtain ⟨c, l, hl⟩ := List.exists_cons_of_ne_nil (answers.labels_ne_nil n i)
    rw [hl]
    rfl

theorem mapM_pointLabel (answers : LayerAnswers ν) (n size : ℕ) :
    (List.range size).mapM (pointLabel answers n) =
      .ok ((List.range size).map (label answers n)) := by
  have hlabel : pointLabel answers n = fun i => pure (label answers n i) :=
    funext fun i => pointLabel_eq answers n i
  rw [hlabel]
  exact List.mapM_pure

/-- The labels of a layer. -/
def labelList (answers : LayerAnswers ν) (n size : ℕ) : List ℕ :=
  (List.range size).map (label answers n)

theorem isEmpty_cluster_eq_false_iff {start n size c : ℕ} :
    (cluster start (labelList answers n size) c).isEmpty = false ↔
      ∃ i < size, label answers n i = c := by
  rw [List.isEmpty_eq_false_iff, cluster, Ne, List.map_eq_nil_iff, List.filter_eq_nil_iff]
  push Not
  refine exists_congr fun i => ?_
  have hlength : (labelList answers n size).length = size := by
    rw [labelList, List.length_map, List.length_range]
  rw [hlength, List.mem_range]
  refine and_congr_right fun hi => ?_
  have hget : (labelList answers n size)[i]? = some (label answers n i) := by
    rw [labelList, List.getElem?_map, List.getElem?_range hi, Option.map_some]
  simp [hget]

theorem lt_of_mem_cluster {start n size c i : ℕ}
    (hi : i ∈ cluster start (labelList answers n size) c) : i < start + size := by
  obtain ⟨j, hj, rfl⟩ := List.mem_map.mp hi
  have hlt := List.mem_range.mp (List.mem_filter.mp hj).1
  rw [labelList, List.length_map, List.length_range] at hlt
  omega

section

variable {s : LoopState ν} {n : ℕ}

theorem processLayer_of_ne_two (hsize : s.stop - s.start ≠ 2)
    (hn : getOptimalClusters g answers (s.stop - s.start) = .ok n) :
    processLayer g answers s =
      summarizeClusters g answers s n (labelList answers n (s.stop - s.start)) := by
  rw [processLayer, if_neg hsize, hn]
  change ((List.range (s.stop - s.start)).mapM (pointLabel answers n) >>= _) = _
  rw [mapM_pointLabel]
  rfl

/-- Without a number of clusters to choose the run ends. -/
theorem processLayer_of_nil (hsize : s.stop - s.start ≠ 2)
    (hnil : candidates g (s.stop - s.start) = []) :
    processLayer g answers s = .error .valueError := by
  have hclusters : getOptimalClusters g answers (s.stop - s.start) = .error .valueError := by
    rw [getOptimalClusters, dif_neg (not_not.mpr hnil)]
  rw [processLayer, if_neg hsize, hclusters]
  rfl

/-- A cluster without points ends the run. -/
theorem processLayer_of_unused (hsize : s.stop - s.start ≠ 2)
    (hn : getOptimalClusters g answers (s.stop - s.start) = .ok n)
    (hunused : ¬ ∀ c < n, ∃ i < s.stop - s.start, label answers n i = c) :
    processLayer g answers s = .error .assertionError := by
  push Not at hunused
  obtain ⟨c, hc, hnone⟩ := hunused
  have hempty : ((List.range n).any fun c =>
      (cluster s.start (labelList answers n (s.stop - s.start)) c).isEmpty) = true := by
    refine List.any_eq_true.mpr ⟨c, List.mem_range.mpr hc, ?_⟩
    rw [← Bool.not_eq_false, isEmpty_cluster_eq_false_iff]
    rintro ⟨i, hi, hlabel⟩
    exact hnone i hi hlabel
  rw [processLayer_of_ne_two hsize hn, summarizeClusters, if_pos hempty]

/-- The next layer when no summary fails. -/
def LoopState.summarized (s : LoopState ν) (answers : LayerAnswers ν) (n : ℕ) : LoopState ν :=
  s.next ⟨s.chunks ++ summaries answers (answers.completion n), 0⟩

theorem stop_summarized (hnone : failures answers n = 0) :
    (s.summarized answers n).stop = (s.summarized answers n).start + n := by
  have hlength := length_summaries_completion answers n
  change (s.chunks ++ summaries answers (answers.completion n)).length = s.chunks.length + n
  rw [List.length_append]
  omega

/-- With a point in every cluster all depends on the failures. -/
theorem processLayer_of_used (hsize : s.stop - s.start ≠ 2) (hstart : s.start ≤ s.stop)
    (hcount : s.errorCount = 0)
    (hn : getOptimalClusters g answers (s.stop - s.start) = .ok n)
    (hused : ∀ c < n, ∃ i < s.stop - s.start, label answers n i = c) :
    processLayer g answers s =
      if failures answers n < g.abortAt then
        if failures answers n = 0 then
          .ok (s.summarized answers n)
        else .error .assertionError
      else .error .aborted := by
  have hnonempty : ((List.range n).any fun c =>
      (cluster s.start (labelList answers n (s.stop - s.start)) c).isEmpty) = false := by
    refine List.any_eq_false.mpr fun c hc => ?_
    rw [Bool.not_eq_true]
    exact isEmpty_cluster_eq_false_iff.mpr (hused c (List.mem_range.mp hc))
  have hidx : ∀ c ∈ answers.completion n,
      ∀ i ∈ cluster s.start (labelList answers n (s.stop - s.start)) c, i < s.chunks.length := by
    intro c _ i hi
    have hlt := lt_of_mem_cluster hi
    change i < s.stop
    omega
  have hlimit : s.errorCount < g.abortAt := by
    rw [hcount]
    exact Nat.lt_of_lt_of_le Nat.zero_lt_one (le_max_left _ _)
  have hfold := foldlM_summarize answers hidx hlimit
  rw [hcount, Nat.zero_add, countP_completion] at hfold
  have hlength := length_summaries_completion answers n
  rw [processLayer_of_ne_two hsize hn, summarizeClusters, hnonempty, if_neg Bool.false_ne_true,
    hfold]
  by_cases habort : failures answers n < g.abortAt
  · rw [if_pos habort, if_pos habort]
    change (if (s.chunks ++ summaries answers (answers.completion n)).length - s.chunks.length = n
      then _ else _) = _
    rw [List.length_append, Nat.add_sub_cancel_left]
    by_cases hnone : failures answers n = 0
    · rw [if_pos hnone, if_pos (by omega), hnone]
      rfl
    · rw [if_neg hnone, if_neg (by omega)]
  · rw [if_neg habort, if_neg habort]
    rfl

end

end

/-! ## The loop -/

section

variable {g : Settings} {answers : ℕ → LayerAnswers ν} {k : ℕ} {s t : LoopState ν}
  {e : RaptorError}

theorem layerLoop_of_le (hsize : s.stop - s.start ≤ 1) : layerLoop g answers k s = .ok s := by
  rw [layerLoop, if_neg (by omega)]

theorem layerLoop_of_ok (hsize : 1 < s.stop - s.start)
    (hlayer : processLayer g (answers k) s = .ok t) :
    layerLoop g answers k s = layerLoop g answers (k + 1) t := by
  rw [layerLoop, if_pos hsize]
  split
  · rename_i e herror
    rw [hlayer] at herror
    cases herror
  · rename_i t' hok
    rw [hlayer] at hok
    rw [Except.ok.inj hok]

theorem layerLoop_of_error (hsize : 1 < s.stop - s.start)
    (hlayer : processLayer g (answers k) s = .error e) :
    layerLoop g answers k s = .error e := by
  rw [layerLoop, if_pos hsize]
  split
  · rename_i e' herror
    rw [hlayer] at herror
    rw [Except.error.inj herror]
  · rename_i t hok
    rw [hlayer] at hok
    cases hok

/-- What every layer keeps holds at the end of a run that returns. -/
theorem layerLoop_invariant {I : LoopState ν → Prop}
    (hlayer : ∀ {k s t}, I s → processLayer g (answers k) s = .ok t → I t)
    (hs : I s) (h : layerLoop g answers k s = .ok t) : I t := by
  induction hsize : s.stop - s.start using Nat.strong_induction_on generalizing s k with
  | _ size ih =>
      by_cases hmore : 1 < s.stop - s.start
      · cases hbody : processLayer g (answers k) s with
        | error e =>
            rw [layerLoop_of_error hmore hbody] at h
            cases h
        | ok s' =>
            rw [layerLoop_of_ok hmore hbody] at h
            have hsmaller := (processLayer_ok hbody).2.2
            exact ih _ (hsize ▸ hsmaller) (hlayer hs hbody) h rfl
      · rw [layerLoop_of_le (not_lt.mp hmore)] at h
        rw [← Except.ok.inj h]
        exact hs

/-- The layers at the head of the loop: the last is the one to summarize. -/
structure Shrinking (s : LoopState ν) : Prop where
  last : s.layers.getLast? = some (s.start, s.stop)
  chain : s.layers.IsChain fun a b => b.2 - b.1 < a.2 - a.1

theorem Shrinking.processLayer (hs : Shrinking s)
    (h : processLayer g (answers k) s = .ok t) : Shrinking t := by
  obtain ⟨hstart, hlayers, hsmaller⟩ := processLayer_ok h
  refine ⟨?_, ?_⟩
  · rw [hlayers, hstart, List.getLast?_concat]
  · rw [hlayers, List.isChain_append]
    refine ⟨hs.chain, List.isChain_singleton _, fun a ha b hb => ?_⟩
    rw [hs.last] at ha
    obtain rfl := Option.some.inj ha
    obtain rfl := Option.some.inj hb
    rw [hstart] at hsmaller
    exact hsmaller

/-! ## When nothing but too many failures ends a run -/

theorem clean_iff {size : ℕ} (hsize : 2 < size) (hne : candidates g size ≠ []) :
    Clean g answers k size ↔
      (∀ c < ((answers k).optimal _ hne).1,
        ∃ i < size, label (answers k) ((answers k).optimal _ hne).1 i = c) ∧
      (g.abortAt ≤ failures (answers k) ((answers k).optimal _ hne).1 ∨
        failures (answers k) ((answers k).optimal _ hne).1 = 0 ∧
          Clean g answers (k + 1) ((answers k).optimal _ hne).1) := by
  constructor
  · intro h
    cases h with
    | small hle => omega
    | aborts _ hused hfails => exact ⟨hused, .inl hfails⟩
    | next _ hused hfails hrest => exact ⟨hused, .inr ⟨hfails, hrest⟩⟩
  · rintro ⟨hused, hfails | ⟨hfails, hrest⟩⟩
    · exact .aborts hne hused hfails
    · exact .next hne hused hfails hrest

theorem candidates_ne_nil {size : ℕ} (hsize : 2 < size) (h : Clean g answers k size) :
    candidates g size ≠ [] := by
  cases h with
  | small hle => omega
  | aborts hne _ _ => exact hne
  | next hne _ _ _ => exact hne

/-- Two chunks have one summary, or none and the run ends with them. -/
theorem layerLoop_of_two (hsize : s.stop - s.start = 2)
    (h : layerLoop g answers k s = .error e) : e = .aborted := by
  have hmore : 1 < s.stop - s.start := by omega
  have hidx : ([s.start, s.start + 1].all fun i => i < s.chunks.length) = true := by
    have hstop : s.stop = s.chunks.length := rfl
    simp only [List.all_cons, List.all_nil, Bool.and_true, Bool.and_eq_true, decide_eq_true_eq]
    omega
  have hbody : processLayer g (answers k) s =
      (summarize g (answers k) s.toWork 0 [s.start, s.start + 1]).map s.next := by
    rw [processLayer, if_pos hsize]
    rfl
  cases hsummarize : summarize g (answers k) s.toWork 0 [s.start, s.start + 1] with
  | error e' =>
      rw [hsummarize] at hbody
      rw [layerLoop_of_error hmore hbody] at h
      obtain rfl := Except.error.inj h
      exact summarize_error hidx hsummarize
  | ok w =>
      rw [hsummarize] at hbody
      have hsmaller := (processLayer_ok hbody).2.2
      rw [layerLoop_of_ok hmore hbody, layerLoop_of_le (by omega)] at h
      cases h

theorem layerLoop_iff (hstart : s.start ≤ s.stop) (hcount : s.errorCount = 0) :
    (∀ e, layerLoop g answers k s = .error e → e = .aborted) ↔
      Clean g answers k (s.stop - s.start) := by
  induction hsize : s.stop - s.start using Nat.strong_induction_on generalizing s k with
  | _ size ih =>
      rcases Nat.lt_or_ge 2 size with hlarge | hsmall
      · have hmore : 1 < s.stop - s.start := by omega
        have hthree : s.stop - s.start ≠ 2 := by omega
        by_cases hne : candidates g size = []
        · -- nothing to choose from
          have hlayer : processLayer g (answers k) s = .error .valueError :=
            processLayer_of_nil hthree (hsize ▸ hne)
          refine iff_of_false (fun h => ?_) fun h => candidates_ne_nil hlarge h hne
          cases h _ (layerLoop_of_error hmore hlayer)
        · rw [clean_iff hlarge hne]
          generalize hn : ((answers k).optimal _ hne).1 = n
          have hlt : n < size := hn ▸ (lt_of_mem_candidates ((answers k).optimal _ hne).2).2
          have hclusters : getOptimalClusters g (answers k) (s.stop - s.start) = .ok n := by
            rw [hsize, getOptimalClusters, dif_pos hne, hn]
          by_cases hused : ∀ c < n, ∃ i < s.stop - s.start, label (answers k) n i = c
          · have hlayer := processLayer_of_used hthree hstart hcount hclusters hused
            rw [hsize] at hused
            by_cases hlimit : failures (answers k) n < g.abortAt
            · rw [if_pos hlimit] at hlayer
              by_cases hnone : failures (answers k) n = 0
              · rw [if_pos hnone] at hlayer
                have hstop := stop_summarized (s := s) hnone
                have hnext := ih n hlt (s := s.summarized (answers k) n) (k := k + 1)
                  (by omega) rfl (by omega)
                rw [layerLoop_of_ok hmore hlayer, hnext, and_iff_right hused,
                  or_iff_right (not_le.mpr hlimit), and_iff_right hnone]
              · rw [if_neg hnone] at hlayer
                refine iff_of_false (fun h => ?_) ?_
                · cases h _ (layerLoop_of_error hmore hlayer)
                · rintro ⟨-, hfails | ⟨hfails, -⟩⟩ <;> omega
            · rw [if_neg hlimit] at hlayer
              refine iff_of_true (fun e he => ?_) ⟨hused, .inl (not_lt.mp hlimit)⟩
              rw [layerLoop_of_error hmore hlayer] at he
              exact (Except.error.inj he).symm
          · have hlayer := processLayer_of_unused hthree hclusters hused
            refine iff_of_false (fun h => ?_) fun h => hused (hsize ▸ h.1)
            cases h _ (layerLoop_of_error hmore hlayer)
      · refine iff_of_true (fun e he => ?_) (.small hsmall)
        rcases Nat.lt_or_ge 1 size with htwo | hone
        · exact layerLoop_of_two (by omega) he
        · rw [layerLoop_of_le (by omega)] at he
          cases he

/-- The loop, from all chunks as the first layer. -/
theorem buildLayers_iff {chunks : List (Chunk ν)} :
    (∀ e, buildLayers g answers chunks = .error e → e = .aborted) ↔
      Clean g answers 0 chunks.length :=
  layerLoop_iff (Nat.zero_le _) rfl

theorem raptor_eq_error_iff {chunks : List (Chunk ν)} (hsize : 1 < chunks.length) :
    raptor g answers chunks = .error e ↔
      buildLayers g answers (chunks.filter usable) = .error e := by
  rw [raptor, if_neg (not_le.mpr hsize)]
  cases buildLayers g answers (chunks.filter usable) with
  | error e' => simp [Except.map]
  | ok s => simp [Except.map]

end

/-- RAPTOR ends well if and only if in every layer of three chunks or more that it
comes to a number of clusters can be chosen, every cluster has a point, and no summary
fails or as many as end the run. -/
theorem layered_iff (g : Settings) (answers : ℕ → LayerAnswers ν) (chunks : List (Chunk ν)) :
    Layered g answers chunks ↔ Clean g answers 0 (chunks.filter usable).length := by
  have hshrinks : ∀ s, buildLayers g answers (chunks.filter usable) = .ok s →
      s.layers.IsChain fun a b => b.2 - b.1 < a.2 - a.1 := by
    intro s hs
    exact (layerLoop_invariant Shrinking.processLayer ⟨rfl, List.isChain_singleton _⟩ hs).chain
  rcases Nat.lt_or_ge 1 chunks.length with hmore | hone
  · rw [← buildLayers_iff]
    constructor
    · intro h e he
      exact h.returns e ((raptor_eq_error_iff hmore).mpr he)
    · intro h
      exact ⟨fun e he => h e ((raptor_eq_error_iff hmore).mp he), hshrinks⟩
  · have hlength := List.length_filter_le usable chunks
    refine iff_of_true ⟨fun e he => ?_, hshrinks⟩ (.small (by omega))
    rw [raptor, if_pos hone] at he
    cases he

/-- Three chunks in two clusters, of which the second has no summary. -/
def secondFails : LayerAnswers ℕ where
  optimal := fun l h => ⟨l.getLast h, List.getLast_mem h⟩
  labels := fun _ i => [i % 2]
  labels_ne_nil := fun _ _ => List.cons_ne_nil _ _
  summary := fun c => if c = 0 then some ("summary", [1]) else none
  completion := List.range
  completion_perm := fun _ => .refl _

def threeChunks : List (Chunk ℕ) := [("a", some [1]), ("b", some [2]), ("c", some [3])]

theorem not_layered_secondFails :
    threeChunks.all usable = true ∧ failures secondFails 2 < Settings.abortAt ⟨64, 3⟩ ∧
      ¬ Layered ⟨64, 3⟩ (fun _ => secondFails) threeChunks := by
  refine ⟨by decide +kernel, by decide, fun h => ?_⟩
  have hraptor : raptor ⟨64, 3⟩ (fun _ => secondFails) threeChunks = .error .assertionError := by
    have hfilter : threeChunks.filter usable = threeChunks := by decide +kernel
    rw [raptor_eq_error_iff (by decide), hfilter]
    exact layerLoop_of_error (by decide) rfl
  cases h.returns _ hraptor

end RagflowMineru.Raptor
