import Mathlib.Algebra.BigOperators.Ring.List
import Mathlib.Algebra.Order.BigOperators.Group.List
import Mathlib.Algebra.Order.Field.Rat
import Mathlib.Algebra.Order.Ring.NNRat
import Mathlib.Data.NNRat.BigOperators
import Mathlib.Tactic.NormNum
import RagflowMineru.Library.Assoc
import RagflowMineru.Library.Table

/-!
# Hybrid similarity

`token_similarity` and `hybrid_similarity` of the Python query, and
`TokenSimilarity` and `HybridSimilarity` of the Go one, over exact rationals.
The weights of the terms and the cosine of two vectors are the same for both.
-/

namespace RagflowMineru.Search

open Library

/-- `weights(tks, preprocess=False)`: the tokens with their weights. -/
structure TermWeight where
  weights : List String → List (String × ℚ≥0)
  terms : ∀ tks, (weights tks).map Prod.fst = tks

/-- The `1e-9` of both sums. -/
def tiny : ℚ≥0 := 1 / 10 ^ 9

variable {Vec : Type*} (tw : TermWeight) (cosine : Vec → Vec → ℚ)

namespace Python

abbrev Dict := Assoc String ℚ≥0

/-- `d[t] += w` on a `defaultdict`. -/
def addTo (d : Dict) (t : String) (w : ℚ≥0) : Dict :=
  d.set t ((d.get? t).getD 0 + w)

def addWeights (d : Dict) : List (String × ℚ≥0) → Dict
  | [] => d
  | [(t, c)] => addTo d t (c * (4 / 10))
  | (t, c) :: (t', c') :: rest =>
      addWeights (addTo (addTo d t (c * (4 / 10))) (t ++ t') (max c c' * (6 / 10)))
        ((t', c') :: rest)

def toDict (tks : List String) : Dict := addWeights [] (tw.weights tks)

def similarity (qtwt dtwt : Dict) : ℚ≥0 :=
  let s := tiny + ((qtwt.filter (·.1 ∈ dtwt.keys)).map Prod.snd).sum
  let q := tiny + (qtwt.map Prod.snd).sum
  s / q

def tokenSimilarity (atks : List String) (btkss : List (List String)) : List ℚ≥0 :=
  btkss.map fun btks => similarity (toDict tw atks) (toDict tw btks)

/-- `cosine_similarity([avec], bvecs)[0]`, which raises on an empty list. -/
def cosineSimilarity (avec : Vec) (bvecs : List Vec) : Option (List ℚ) :=
  if bvecs.isEmpty then none else some (bvecs.map (cosine avec))

/-- The combined scores, the token similarities and the cosines. -/
def hybridSimilarity (avec : Vec) (bvecs : List Vec) (atks : List String)
    (btkss : List (List String)) (tkweight vtweight : ℚ) :
    Option (List ℚ × List ℚ≥0 × List ℚ) := do
  let sims ← cosineSimilarity cosine avec bvecs
  let tksim := tokenSimilarity tw atks btkss
  if sims.sum = 0 then some (tksim.map (↑), tksim, sims)
  else
    some (List.zipWith (fun v t => v * vtweight + t * tkweight) sims (tksim.map (↑)), tksim, sims)

end Python

namespace Go

abbrev Dict := Table String ℚ≥0

/-- `d[t] += w`. -/
def addTo (d : Dict) (t : String) (w : ℚ≥0) : Dict :=
  d.insert t ((d.get? t).getD 0 + w)

def addWeights (d : Dict) : List (String × ℚ≥0) → Dict
  | [] => d
  | [(t, c)] => addTo d t (c * (4 / 10))
  | (t, c) :: (t', c') :: rest =>
      addWeights (addTo (addTo d t (c * (4 / 10))) (t ++ t') (max c c' * (6 / 10)))
        ((t', c') :: rest)

def tokensToDict (tks : List String) : Dict := addWeights .empty (tw.weights tks)

/-- The loops over a map visit the keys in any order. -/
def tokenDictSimilarity (qtwt dtwt : Dict) : ℚ≥0 :=
  if qtwt.keys = ∅ ∨ dtwt.keys = ∅ then 0
  else
    let s := tiny + ∑ t ∈ qtwt.keys with t ∈ dtwt.keys, qtwt.row t
    let q := tiny + ∑ t ∈ qtwt.keys, qtwt.row t
    s / q

def tokenSimilarity (atks : List String) (btkss : List (List String)) : List ℚ≥0 :=
  btkss.map fun btks => tokenDictSimilarity (tokensToDict tw atks) (tokensToDict tw btks)

def hybridSimilarity (avec : Vec) (bvecs : List Vec) (atks : List String)
    (btkss : List (List String)) (tkWeight vtWeight : ℚ) : List ℚ × List ℚ≥0 × List ℚ :=
  let vsim := bvecs.map (cosine avec)
  let tsim := tokenSimilarity tw atks btkss
  if ∀ s ∈ vsim, s = 0 then (tsim.map (↑), tsim, vsim)
  else
    (List.zipWith (fun v t => v * vtWeight + t * tkWeight) vsim (tsim.map (↑)), tsim, vsim)

end Go

/-! ## The two dictionaries -/

/-- The map holds what the dictionary holds. -/
structure Represents (d : Python.Dict) (t : Go.Dict) : Prop where
  nodup : d.keys.Nodup
  get? : ∀ k, t.get? k = d.get? k

namespace Represents

variable {d d' : Python.Dict} {t t' : Go.Dict}

theorem mem_keys_iff (h : Represents d t) {k : String} : k ∈ t.keys ↔ k ∈ d.keys := by
  rw [← not_iff_not, ← Table.get?_eq_none_iff, ← Assoc.get?_eq_none_iff, h.get?]

theorem keys_eq (h : Represents d t) : t.keys = d.keys.toFinset := by
  ext k
  rw [h.mem_keys_iff, List.mem_toFinset]

theorem keys_eq_empty_iff (h : Represents d t) : t.keys = ∅ ↔ d = [] := by
  rw [h.keys_eq, List.toFinset_eq_empty_iff, Assoc.keys, List.map_eq_nil_iff]

theorem row_of_mem (h : Represents d t) {entry : String × ℚ≥0} (hmem : entry ∈ d) :
    t.row entry.1 = entry.2 := by
  have hget := (h.get? entry.1).trans (Assoc.get?_of_mem h.nodup hmem)
  exact (Table.get?_eq_some_iff.mp hget).2

theorem addTo (h : Represents d t) (k : String) (w : ℚ≥0) :
    Represents (Python.addTo d k w) (Go.addTo t k w) where
  nodup := Assoc.nodup_keys_set h.nodup k _
  get? := by
    intro k'
    rw [Python.addTo, Go.addTo, Table.get?_insert, h.get?]
    by_cases hk : k' = k
    · rw [if_pos hk, hk, Assoc.get?_set_self]
    · rw [if_neg hk, Assoc.get?_set_of_ne hk, h.get?]

theorem addWeights (h : Represents d t) (ws : List (String × ℚ≥0)) :
    Represents (Python.addWeights d ws) (Go.addWeights t ws) := by
  fun_induction Python.addWeights d ws generalizing t with
  | case1 d => exact h
  | case2 d k c => exact h.addTo k _
  | case3 d k c k' c' rest ih => exact ih ((h.addTo k _).addTo (k ++ k') _)

/-- The sum over some keys of the map, in whichever order. -/
theorem sum_eq (h : Represents d t) (p : String → Prop) [DecidablePred p] :
    ∑ k ∈ t.keys with p k, t.row k = ((d.filter (p ·.1)).map Prod.snd).sum := by
  have hkeys : {k ∈ t.keys | p k} = ((d.filter (p ·.1)).map Prod.fst).toFinset := by
    ext k
    simp [h.keys_eq, Assoc.keys]
  have hnodup : ((d.filter (p ·.1)).map Prod.fst).Nodup :=
    h.nodup.sublist (List.filter_sublist.map _)
  rw [hkeys, List.sum_toFinset _ hnodup, List.map_map]
  congr 1
  refine List.map_congr_left fun entry hentry => ?_
  exact h.row_of_mem (List.mem_of_mem_filter hentry)

theorem similarity (h : Represents d t) (h' : Represents d' t') (hd : d ≠ []) (hd' : d' ≠ []) :
    Go.tokenDictSimilarity t t' = Python.similarity d d' := by
  have hempty : ¬(t.keys = ∅ ∨ t'.keys = ∅) := by
    rw [h.keys_eq_empty_iff, h'.keys_eq_empty_iff]
    exact not_or.mpr ⟨hd, hd'⟩
  have hs := h.sum_eq (· ∈ d'.keys)
  have hq := h.sum_eq fun _ => True
  simp only [decide_true, List.filter_true, Finset.filter_true] at hq
  rw [Go.tokenDictSimilarity, if_neg hempty, Python.similarity]
  simp only [h'.mem_keys_iff, hs, hq]

end Represents

theorem represents_toDict (tks : List String) :
    Represents (Python.toDict tw tks) (Go.tokensToDict tw tks) := by
  have hempty : Represents [] Table.empty := ⟨List.nodup_nil, fun k => Table.get?_empty k⟩
  exact hempty.addWeights _

namespace Python

theorem addTo_ne_nil (d : Dict) (t : String) (w : ℚ≥0) : addTo d t w ≠ [] := by
  intro hnil
  have hget := Assoc.get?_set_self t ((d.get? t).getD 0 + w) d
  rw [← addTo, hnil] at hget
  cases hget

theorem addWeights_ne_nil {d : Dict} {ws : List (String × ℚ≥0)} (h : d ≠ [] ∨ ws ≠ []) :
    addWeights d ws ≠ [] := by
  fun_induction addWeights d ws with
  | case1 d => exact h.resolve_right fun hws => hws rfl
  | case2 d t c => exact addTo_ne_nil d t _
  | case3 d t c t' c' rest ih => exact ih (.inl (addTo_ne_nil _ _ _))

theorem toDict_eq_nil_iff {tks : List String} : toDict tw tks = [] ↔ tks = [] := by
  have hterms := tw.terms tks
  constructor
  · intro hnil
    have hweights : tw.weights tks = [] := by
      by_contra hne
      exact addWeights_ne_nil (.inr hne) hnil
    rw [← hterms, hweights, List.map_nil]
  · rintro rfl
    rw [toDict, List.map_eq_nil_iff.mp hterms, addWeights]

theorem similarity_pos (qtwt dtwt : Dict) : 0 < similarity qtwt dtwt := by
  have htiny : 0 < tiny := by norm_num [tiny]
  exact div_pos (add_pos_of_pos_of_nonneg htiny zero_le)
    (add_pos_of_pos_of_nonneg htiny zero_le)

end Python

/-! ## Agreement -/

/-- The score of one chunk differs when there are no tokens. -/
theorem tokenDictSimilarity_eq_iff (atks btks : List String) :
    Go.tokenDictSimilarity (Go.tokensToDict tw atks) (Go.tokensToDict tw btks) =
        Python.similarity (Python.toDict tw atks) (Python.toDict tw btks) ↔
      atks ≠ [] ∧ btks ≠ [] := by
  have hq := represents_toDict tw atks
  have hd := represents_toDict tw btks
  constructor
  · intro heq
    by_contra hnil
    have hempty : (Go.tokensToDict tw atks).keys = ∅ ∨ (Go.tokensToDict tw btks).keys = ∅ := by
      rw [hq.keys_eq_empty_iff, hd.keys_eq_empty_iff, Python.toDict_eq_nil_iff,
        Python.toDict_eq_nil_iff]
      tauto
    rw [Go.tokenDictSimilarity, if_pos hempty] at heq
    exact (Python.similarity_pos _ _).ne heq
  · rintro ⟨hatks, hbtks⟩
    exact hq.similarity hd ((Python.toDict_eq_nil_iff tw).not.mpr hatks)
      ((Python.toDict_eq_nil_iff tw).not.mpr hbtks)

theorem tokenSimilarity_eq_iff (atks : List String) (btkss : List (List String)) :
    Go.tokenSimilarity tw atks btkss = Python.tokenSimilarity tw atks btkss ↔
      ∀ btks ∈ btkss, atks ≠ [] ∧ btks ≠ [] := by
  rw [Go.tokenSimilarity, Python.tokenSimilarity, List.map_inj_left]
  exact forall₂_congr fun btks _ => tokenDictSimilarity_eq_iff tw atks btks

/-- When the weighted mean of positive scores with values of sum 0 is the scores. -/
theorem weighted_eq_iff {β : Type*} {chunks : List β} {v t : β → ℚ} {tkweight vtweight : ℚ}
    (hsum : (chunks.map v).sum = 0) (hv : ∃ c ∈ chunks, v c ≠ 0) (ht : ∀ c ∈ chunks, 0 < t c) :
    chunks.map (fun c => v c * vtweight + t c * tkweight) = chunks.map t ↔
      tkweight = 1 ∧ vtweight = 0 := by
  constructor
  · intro heq
    obtain ⟨c, hc, hvc⟩ := hv
    have hpos : 0 < (chunks.map t).sum := by
      refine List.sum_pos _ (fun x hx => ?_) (by simpa using List.ne_nil_of_mem hc)
      obtain ⟨c, hc, rfl⟩ := List.mem_map.mp hx
      exact ht c hc
    have htotal : (chunks.map t).sum * tkweight = (chunks.map t).sum := by
      have htotal := congrArg List.sum heq
      rwa [List.sum_map_add, List.sum_map_mul_right, List.sum_map_mul_right, hsum, zero_mul,
        zero_add] at htotal
    have htk : tkweight = 1 := mul_left_cancel₀ hpos.ne' (htotal.trans (mul_one _).symm)
    have hchunk := List.map_inj_left.mp heq c hc
    rw [htk, mul_one, add_eq_right] at hchunk
    exact ⟨htk, (mul_eq_zero.mp hchunk).resolve_left hvc⟩
  · rintro ⟨rfl, rfl⟩
    simp

variable {tw cosine}

/-- Both versions return the same for the chunks, given as a vector and tokens. -/
def Agree (tw : TermWeight) (cosine : Vec → Vec → ℚ) (avec : Vec) (atks : List String)
    (chunks : List (Vec × List String)) (tkWeight vtWeight : ℚ) : Prop :=
  let bvecs := chunks.map Prod.fst
  let btkss := chunks.map Prod.snd
  Python.tokenSimilarity tw atks btkss = Go.tokenSimilarity tw atks btkss ∧
    Python.hybridSimilarity tw cosine avec bvecs atks btkss tkWeight vtWeight =
      some (Go.hybridSimilarity tw cosine avec bvecs atks btkss tkWeight vtWeight)

theorem zipWith_scores {β : Type*} (l : List β) (v : β → ℚ) (t : β → ℚ≥0) (tkWeight vtWeight : ℚ) :
    List.zipWith (fun v t => v * vtWeight + t * tkWeight) (l.map v)
        ((l.map t).map NNRat.cast) =
      l.map fun c => v c * vtWeight + t c * tkWeight := by
  rw [List.map_map, List.zipWith_map, List.zipWith_self]
  rfl

/-- The two tests for all-zero vectors. -/
theorem scores_eq_iff {β : Type*} {chunks : List β} {v t : β → ℚ} {tkweight vtweight : ℚ}
    (ht : ∀ c ∈ chunks, 0 < t c) :
    (if (chunks.map v).sum = 0 then chunks.map t
        else chunks.map fun c => v c * vtweight + t c * tkweight) =
      (if ∀ c ∈ chunks, v c = 0 then chunks.map t
        else chunks.map fun c => v c * vtweight + t c * tkweight) ↔
      (chunks.map v).sum ≠ 0 ∨ (∀ c ∈ chunks, v c = 0) ∨ tkweight = 1 ∧ vtweight = 0 := by
  by_cases hzero : ∀ c ∈ chunks, v c = 0
  · have hsum : (chunks.map v).sum = 0 := by
      refine List.sum_eq_zero fun x hx => ?_
      obtain ⟨c, hc, rfl⟩ := List.mem_map.mp hx
      exact hzero c hc
    rw [if_pos hsum, if_pos hzero]
    exact iff_of_true rfl (.inr (.inl hzero))
  · rw [if_neg hzero]
    by_cases hsum : (chunks.map v).sum = 0
    · have hne : ∃ c ∈ chunks, v c ≠ 0 := by simpa using hzero
      rw [if_pos hsum, eq_comm, weighted_eq_iff hsum hne ht]
      simp only [hsum, hzero, ne_eq, not_true_eq_false, false_or]
    · rw [if_neg hsum]
      exact iff_of_true rfl (.inl hsum)

/-- The versions agree exactly when there are chunks, all token lists have tokens, and
the cosines have a sum other than 0 or are all 0 (or only the token similarities count). -/
theorem agree_iff (tw : TermWeight) (cosine : Vec → Vec → ℚ) (avec : Vec) (atks : List String)
    (chunks : List (Vec × List String)) (tkWeight vtWeight : ℚ) :
    Agree tw cosine avec atks chunks tkWeight vtWeight ↔
      chunks ≠ [] ∧ (∀ chunk ∈ chunks, atks ≠ [] ∧ chunk.2 ≠ []) ∧
        ((chunks.map fun chunk => cosine avec chunk.1).sum ≠ 0 ∨
          (∀ chunk ∈ chunks, cosine avec chunk.1 = 0) ∨ tkWeight = 1 ∧ vtWeight = 0) := by
  let v := fun chunk : Vec × List String => cosine avec chunk.1
  let t := fun chunk : Vec × List String =>
    Python.similarity (Python.toDict tw atks) (Python.toDict tw chunk.2)
  have hv : (chunks.map Prod.fst).map (cosine avec) = chunks.map v := List.map_map
  have ht : Python.tokenSimilarity tw atks (chunks.map Prod.snd) = chunks.map t := List.map_map
  have hpos : ∀ chunk ∈ chunks, 0 < (t chunk : ℚ) :=
    fun chunk _ => NNRat.cast_pos.mpr (Python.similarity_pos _ _)
  have htokens := tokenSimilarity_eq_iff tw atks (chunks.map Prod.snd)
  rw [List.forall_mem_map] at htokens
  by_cases hchunks : chunks = []
  · simp [Agree, hchunks, Python.hybridSimilarity, Python.cosineSimilarity]
  by_cases hempty : ∀ chunk ∈ chunks, atks ≠ [] ∧ chunk.2 ≠ []
  · have hgo := (htokens.mpr hempty).trans ht
    have hagree : Agree tw cosine avec atks chunks tkWeight vtWeight ↔
        (if (chunks.map v).sum = 0 then chunks.map fun c => (t c : ℚ)
          else chunks.map fun c => v c * vtWeight + t c * tkWeight) =
        if ∀ c ∈ chunks, v c = 0 then chunks.map fun c => (t c : ℚ)
          else chunks.map fun c => v c * vtWeight + t c * tkWeight := by
      simp only [Agree, Python.hybridSimilarity, Python.cosineSimilarity, Go.hybridSimilarity,
        hgo, ht, hv, zipWith_scores, List.forall_mem_map]
      by_cases hsum : (chunks.map v).sum = 0 <;> simp [hchunks, hsum, Function.comp_def]
    rw [hagree, scores_eq_iff hpos]
    exact ⟨fun h => ⟨hchunks, hempty, h⟩, fun h => h.2.2⟩
  · exact iff_of_false (fun h => hempty (htokens.mp h.1.symm)) fun h => hempty h.2.1

/-- Tokens that all have the same weight. -/
def evenWeight : TermWeight where
  weights tks := tks.map fun t => (t, 1 / tks.length)
  terms tks := by rw [List.map_map]; exact List.map_id tks

/-- A query without tokens: 1 in Python, 0 in Go. -/
theorem not_agree_no_tokens :
    ¬ Agree evenWeight (fun v w : ℚ => v * w) 1 [] [(1, ["a"])] (3 / 10) (7 / 10) := by
  intro h
  have hzero : Go.tokenSimilarity evenWeight [] [["a"]] = [0] := rfl
  have hone : Python.tokenSimilarity evenWeight [] [["a"]] = [1] := by decide +kernel
  exact absurd (hone.symm.trans (h.1.trans hzero)) (by decide)

end RagflowMineru.Search
