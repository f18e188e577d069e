import RagflowMineru.Library.Absorb
import RagflowMineru.MinerU.Boxes
import Mathlib.Data.List.FinRange

/-!
# Merging overlapping blocks

Of two blocks that overlap by more than 80 % of the smaller one, the smaller
one is marked for removal and the box of the larger one is widened around both.
Blocks that are marked take part in later comparisons, so a block can be merged
into one that is itself going to be removed.  The loop over pairs stands twice
in the source, for the blocks of a page and for the image and table bodies of
the layout model.
-/

namespace RagflowMineru.MinerU

open RagflowMineru.Library

/-- A block: its box, and the rest of its entries. -/
structure LayoutBlock (δ : Type*) where
  bbox : BBox ℚ
  data : δ
  deriving DecidableEq

variable {ι δ : Type*} [DecidableEq ι] [DecidableEq δ]

/-- The blocks, as objects that change, and the references in `need_remove`. -/
structure MergeState (ι δ : Type*) where
  heap : ι → LayoutBlock δ
  needRemove : List ι

/-- `for i in range(n): for j in range(i + 1, n)`. -/
def pairs : List ι → List (ι × ι)
  | [] => []
  | i :: rest => rest.map (i, ·) ++ pairs rest

namespace MergeState

variable (s : MergeState ι δ)

/-- The block to remove and the large block of a pair, if they are merged.  The test whether a
block is marked compares the blocks, not the references. -/
def merged (p : ι × ι) : Option (ι × ι) :=
  let block1 := s.heap p.1
  let block2 := s.heap p.2
  match getMinboxIfOverlapByRatio block1.bbox block2.bbox (4 / 5) with
  | none => none
  | some _ =>
      let (small, large) := if block1.bbox.area ≤ block2.bbox.area then p else p.swap
      if s.heap small ∈ s.needRemove.map s.heap then none else some (small, large)

/-- One turn of the loop. -/
def mergePair (p : ι × ι) : MergeState ι δ :=
  match s.merged p with
  | none => s
  | some (small, large) =>
      { heap := Function.update s.heap large
          { s.heap large with bbox := (s.heap large).bbox ⊔ (s.heap small).bbox }
        needRemove := s.needRemove ++ [small] }

/-- The loop over pairs. -/
def mergePairs (ps : List (ι × ι)) : MergeState ι δ := ps.foldl mergePair s

/-- The last loop: each marked block is removed by its value. -/
def removeMarked (ids : List ι) : List (LayoutBlock δ) :=
  (ids.map s.heap).diff (s.needRemove.map s.heap)

end MergeState

/-- The blocks of a list as objects. -/
def initial (blocks : List (LayoutBlock δ)) : MergeState (Fin blocks.length) δ where
  heap := blocks.get
  needRemove := []

/-- The list when the loop has come through the pairs `ps` and the marked blocks are removed. -/
def afterPairs (blocks : List (LayoutBlock δ)) (ps : List (Fin blocks.length × Fin blocks.length)) :
    List (LayoutBlock δ) :=
  ((initial blocks).mergePairs ps).removeMarked (List.finRange blocks.length)

/-- `remove_overlaps_min_blocks`. -/
def removeOverlapsMinBlocks (allBboxes : List (LayoutBlock δ)) : List (LayoutBlock δ) :=
  afterPairs allBboxes (pairs (List.finRange allBboxes.length))

/-- The references to the blocks whose data satisfy `P`. -/
def idsWith (P : δ → Bool) (blocks : List (LayoutBlock δ)) : List (Fin blocks.length) :=
  (List.finRange blocks.length).filter fun i => P (blocks.get i).data

/-- `CategoryId.ImageBody` and `CategoryId.TableBody`. -/
def imageBodyId : ℤ := 3

def tableBodyId : ℤ := 5

section MagicModel

variable (categoryId : δ → ℤ)

/-- The pairs of image bodies, then the pairs of table bodies. -/
def imageTablePairs (layoutDets : List (LayoutBlock δ)) :
    List (Fin layoutDets.length × Fin layoutDets.length) :=
  pairs (idsWith (fun d => categoryId d = imageBodyId) layoutDets) ++
    pairs (idsWith (fun d => categoryId d = tableBodyId) layoutDets)

/-- `MagicModel.__fix_by_remove_overlap_image_table_body`. -/
def fixByRemoveOverlapImageTableBody (layoutDets : List (LayoutBlock δ)) : List (LayoutBlock δ) :=
  afterPairs layoutDets (imageTablePairs categoryId layoutDets)

end MagicModel

/-- What merging is for, for the blocks with `P`: one of them is kept, and the original box of
each of them lies in the final box of one that is kept, which for a kept block is itself. -/
def KeepsAndCovers (P : δ → Bool) (blocks result : List (LayoutBlock δ)) : Prop :=
  ((∃ b ∈ blocks, P b.data) → ∃ k ∈ result, P k.data) ∧
    ∀ b ∈ blocks, P b.data → ∃ k ∈ result, P k.data ∧ b.bbox ≤ k.bbox

/-! ## The loop as absorbing -/

namespace MergeState

/-- The boxes and the marked blocks. -/
def absorbing (s : MergeState ι δ) : Absorbing ι (BBox ℚ) where
  extent i := (s.heap i).bbox
  gone := s.needRemove

variable {s : MergeState ι δ}

omit [DecidableEq ι] in
/-- A pair that is merged. -/
theorem merged_spec {p : ι × ι} {small large : ι} (h : s.merged p = some (small, large)) :
    (small = p.1 ∧ large = p.2 ∨ small = p.2 ∧ large = p.1) ∧ small ∉ s.needRemove := by
  rw [merged] at h
  rcases hbox : getMinboxIfOverlapByRatio (s.heap p.1).bbox (s.heap p.2).bbox (4 / 5) with - | box
  · simp [hbox] at h
  · simp only [hbox] at h
    split_ifs at h with harea hmarked hmarked
    · obtain ⟨rfl, rfl⟩ := Prod.mk.inj (Option.some.inj h)
      exact ⟨Or.inl ⟨rfl, rfl⟩, fun hin => hmarked (List.mem_map_of_mem hin)⟩
    · obtain ⟨rfl, rfl⟩ := Prod.mk.inj (Option.some.inj h)
      exact ⟨Or.inr ⟨rfl, rfl⟩, fun hin => hmarked (List.mem_map_of_mem hin)⟩

theorem mergePair_of_none {p : ι × ι} (h : s.merged p = none) : s.mergePair p = s := by
  rw [mergePair, h]

theorem absorbing_mergePair {p : ι × ι} {small large : ι}
    (h : s.merged p = some (small, large)) :
    (s.mergePair p).absorbing = s.absorbing.absorb small large := by
  have hextent : (fun i => (Function.update s.heap large
      { s.heap large with bbox := (s.heap large).bbox ⊔ (s.heap small).bbox } i).bbox) =
      Function.update (fun i => (s.heap i).bbox) large
        ((s.heap large).bbox ⊔ (s.heap small).bbox) := by
    funext i
    by_cases hi : i = large
    · subst i
      rw [Function.update_self, Function.update_self]
    · rw [Function.update_of_ne hi, Function.update_of_ne hi]
  rw [mergePair, h, Absorbing.absorb]
  simp only [absorbing, hextent]

theorem data_mergePair (p : ι × ι) (i : ι) : ((s.mergePair p).heap i).data = (s.heap i).data := by
  rcases h : s.merged p with - | ⟨small, large⟩
  · rw [mergePair_of_none h]
  · rw [mergePair, h]
    by_cases hi : i = large
    · subst i
      simp
    · simp [Function.update_of_ne hi]

theorem data_mergePairs (ps : List (ι × ι)) (i : ι) :
    ((s.mergePairs ps).heap i).data = (s.heap i).data := by
  induction ps generalizing s with
  | nil => rfl
  | cons p ps ih => exact (ih (s := s.mergePair p)).trans (data_mergePair p i)

/-- No block is marked twice. -/
theorem nodup_needRemove_mergePair (h : s.needRemove.Nodup) (p : ι × ι) :
    (s.mergePair p).needRemove.Nodup := by
  rcases hmerged : s.merged p with - | ⟨small, large⟩
  · rwa [mergePair_of_none hmerged]
  · obtain ⟨-, hnew⟩ := merged_spec hmerged
    rw [mergePair, hmerged]
    exact List.nodup_append.mpr ⟨h, List.nodup_singleton small, by
      intro a ha b hb
      rw [List.mem_singleton.mp hb]
      exact fun heq => hnew (heq ▸ ha)⟩

theorem nodup_needRemove_mergePairs (h : s.needRemove.Nodup) (ps : List (ι × ι)) :
    (s.mergePairs ps).needRemove.Nodup := by
  induction ps generalizing s with
  | nil => exact h
  | cons p ps ih => exact ih (nodup_needRemove_mergePair h p)

/-! ## The cover in a run -/

section Cover

variable (orig : ι → BBox ℚ) (ids : List ι)

/-- A pair that is merged into a block which is marked already: every original box lies in the
current box of another block that is not marked and is not the one to be marked now. -/
def SafePair (s : MergeState ι δ) (p : ι × ι) : Prop :=
  ∀ small large, s.merged p = some (small, large) → large ∈ s.needRemove →
    Absorbing.Spared orig ids s.absorbing small

variable {orig ids}

/-- A pair of blocks of the list keeps the cover exactly when it is safe. -/
theorem covered_mergePair_iff (h : Absorbing.Covered orig ids s.absorbing) {p : ι × ι}
    (hmem : p.1 ∈ ids ∧ p.2 ∈ ids) (hne : p.1 ≠ p.2) :
    Absorbing.Covered orig ids (s.mergePair p).absorbing ↔ SafePair orig ids s p := by
  rcases hmerged : s.merged p with - | ⟨small, large⟩
  · rw [mergePair_of_none hmerged]
    refine ⟨fun _ small large heq => ?_, fun _ => h⟩
    rw [hmerged] at heq
    cases heq
  · have hlarge : large ∈ ids ∧ large ≠ small := by
      rcases (merged_spec hmerged).1 with ⟨rfl, rfl⟩ | ⟨rfl, rfl⟩
      · exact ⟨hmem.2, hne.symm⟩
      · exact ⟨hmem.1, hne⟩
    rw [absorbing_mergePair hmerged, Absorbing.covered_absorb_iff h hlarge.1 hlarge.2]
    constructor
    · intro hspared small' large' heq
      rw [hmerged] at heq
      obtain ⟨rfl, rfl⟩ := Prod.mk.inj (Option.some.inj heq)
      exact hspared
    · intro hsafe
      exact hsafe small large hmerged

/-- A pair of other blocks does not matter. -/
theorem covered_mergePair_of_other {p : ι × ι} (hmem : p.1 ∉ ids ∧ p.2 ∉ ids) :
    Absorbing.Covered orig ids (s.mergePair p).absorbing ↔
      Absorbing.Covered orig ids s.absorbing := by
  rcases hmerged : s.merged p with - | ⟨small, large⟩
  · rw [mergePair_of_none hmerged]
  · have hout : small ∉ ids ∧ large ∉ ids := by
      rcases (merged_spec hmerged).1 with ⟨rfl, rfl⟩ | ⟨rfl, rfl⟩
      · exact hmem
      · exact hmem.symm
    rw [absorbing_mergePair hmerged]
    have hitem : ∀ k ∈ ids, (k ∉ (s.absorbing.absorb small large).gone ↔ k ∉ s.absorbing.gone) ∧
        (s.absorbing.absorb small large).extent k = s.absorbing.extent k := by
      intro k hk
      constructor
      · rw [Absorbing.mem_gone_absorb, not_or]
        exact and_iff_left fun heq => hout.1 (heq ▸ hk)
      · exact Absorbing.extent_absorb_of_ne fun heq => hout.2 (heq ▸ hk)
    have hcover : ∀ i, (∃ k ∈ ids, k ∉ (s.absorbing.absorb small large).gone ∧
          orig i ≤ (s.absorbing.absorb small large).extent k) ↔
        ∃ k ∈ ids, k ∉ s.absorbing.gone ∧ orig i ≤ s.absorbing.extent k := by
      intro i
      apply exists_congr
      intro k
      apply and_congr_right
      intro hk
      rw [(hitem k hk).1, (hitem k hk).2]
    exact forall₂_congr fun i _ => hcover i

/-- The cover holds all along a run exactly when every pair of the list is safe in its turn. -/
theorem covered_mergePairs_iff (h : Absorbing.Covered orig ids s.absorbing) {ps : List (ι × ι)}
    (hps : ∀ p ∈ ps, (p.1 ∈ ids ∧ p.2 ∈ ids ∨ p.1 ∉ ids ∧ p.2 ∉ ids) ∧ p.1 ≠ p.2) :
    (∀ pre, pre <+: ps → Absorbing.Covered orig ids (s.mergePairs pre).absorbing) ↔
      ∀ pre p post, ps = pre ++ p :: post → p.1 ∈ ids →
        SafePair orig ids (s.mergePairs pre) p := by
  have hsnoc : ∀ pre p, s.mergePairs (pre ++ [p]) = (s.mergePairs pre).mergePair p := by
    intro pre p
    rw [mergePairs, List.foldl_append]
    rfl
  constructor
  · intro hall pre p post heq hmem
    have hp := hps p (by rw [heq]; exact List.mem_append_right pre List.mem_cons_self)
    have hboth : p.1 ∈ ids ∧ p.2 ∈ ids := hp.1.resolve_right fun hout => hout.1 hmem
    have hafter := hall (pre ++ [p]) ⟨post, by simp [heq]⟩
    rw [hsnoc] at hafter
    exact (covered_mergePair_iff (hall pre ⟨p :: post, heq.symm⟩) hboth hp.2).mp hafter
  · intro hall pre
    induction pre using List.reverseRecOn with
    | nil => exact fun _ => h
    | append_singleton pre p ih =>
        rintro ⟨post, heq⟩
        have hsplit : ps = pre ++ p :: post := by simp [← heq]
        have hbefore := ih ⟨p :: post, hsplit.symm⟩
        have hp := hps p (by rw [hsplit]; exact List.mem_append_right pre List.mem_cons_self)
        rw [hsnoc]
        rcases hp.1 with hin | hout
        · exact (covered_mergePair_iff hbefore hin hp.2).mpr (hall pre p post hsplit hin.1)
        · exact (covered_mergePair_of_other hout).mpr hbefore

end Cover

end MergeState

/-! ## The blocks that are kept -/

theorem append_diff_left {α : Type*} [DecidableEq α] (l m : List α) : (l ++ m).diff l = m := by
  induction l with
  | nil => rfl
  | cons a l ih => rw [List.cons_append, List.diff_cons, List.erase_cons_head, ih]

/-- Removing the marked blocks by value leaves the values of the blocks that are not marked. -/
theorem removeMarked_perm {s : MergeState ι δ} {ids : List ι} (hids : ids.Nodup)
    (hmarked : s.needRemove.Nodup) (hsub : s.needRemove ⊆ ids) :
    List.Perm (s.removeMarked ids) ((ids.filter fun i => i ∉ s.needRemove).map s.heap) := by
  have hin : List.Perm (ids.filter fun i => i ∈ s.needRemove) s.needRemove := by
    apply (List.perm_ext_iff_of_nodup (hids.filter _) hmarked).mpr
    intro i
    rw [List.mem_filter, decide_eq_true_eq]
    exact ⟨fun h => h.2, fun h => ⟨hsub h, h⟩⟩
  have hsplit : List.Perm ids (s.needRemove ++ ids.filter fun i => i ∉ s.needRemove) := by
    have hparts := List.filter_append_perm (fun i => decide (i ∈ s.needRemove)) ids
    refine hparts.symm.trans ?_
    simpa using hin.append_right _
  have hvalues := (hsplit.map s.heap).diff_right (s.needRemove.map s.heap)
  rw [List.map_append, append_diff_left] at hvalues
  exact hvalues

section Lists

variable {blocks : List (LayoutBlock δ)}

omit [DecidableEq δ] in
theorem nodup_initial : (initial blocks).needRemove.Nodup := List.nodup_nil

omit [DecidableEq δ] in
/-- At first every block covers itself. -/
theorem covered_initial (ids : List (Fin blocks.length)) :
    Absorbing.Covered (fun i => (blocks.get i).bbox) ids (initial blocks).absorbing := by
  intro i hi
  exact ⟨i, hi, List.not_mem_nil, le_rfl⟩

/-- Merging did what it is for exactly when the cover holds. -/
theorem keepsAndCovers_iff (P : δ → Bool) (ps : List (Fin blocks.length × Fin blocks.length)) :
    KeepsAndCovers P blocks (afterPairs blocks ps) ↔
      Absorbing.Covered (fun i => (blocks.get i).bbox) (idsWith P blocks)
        ((initial blocks).mergePairs ps).absorbing := by
  set s := (initial blocks).mergePairs ps with hs
  have hdata : ∀ i, (s.heap i).data = (blocks.get i).data :=
    fun i => MergeState.data_mergePairs ps i
  have hmem : ∀ k, k ∈ afterPairs blocks ps ↔ ∃ i, i ∉ s.needRemove ∧ s.heap i = k := by
    intro k
    have hperm := removeMarked_perm (s := s) (List.nodup_finRange blocks.length)
      (MergeState.nodup_needRemove_mergePairs nodup_initial ps)
      (fun i _ => List.mem_finRange i)
    rw [afterPairs, ← hs, hperm.mem_iff, List.mem_map]
    simp
  have hids : ∀ i, i ∈ idsWith P blocks ↔ P (blocks.get i).data = true := by
    intro i
    simp [idsWith]
  constructor
  · rintro ⟨-, hcover⟩ i hi
    obtain ⟨k, hk, hP, hle⟩ := hcover (blocks.get i) (List.get_mem blocks i) ((hids i).mp hi)
    obtain ⟨j, hj, rfl⟩ := (hmem k).mp hk
    rw [hdata] at hP
    exact ⟨j, (hids j).mpr hP, hj, hle⟩
  · intro h
    have hcover : ∀ b ∈ blocks, P b.data = true →
        ∃ k ∈ afterPairs blocks ps, P k.data = true ∧ b.bbox ≤ k.bbox := by
      intro b hb hP
      obtain ⟨i, rfl⟩ := List.get_of_mem hb
      obtain ⟨j, hj, hgone, hle⟩ := h i ((hids i).mpr hP)
      refine ⟨s.heap j, (hmem _).mpr ⟨j, hgone, rfl⟩, ?_, hle⟩
      rw [hdata]
      exact (hids j).mp hj
    refine ⟨?_, hcover⟩
    rintro ⟨b, hb, hP⟩
    obtain ⟨k, hk, hPk, -⟩ := hcover b hb hP
    exact ⟨k, hk, hPk⟩

theorem mem_pairs {α : Type*} {l : List α} {p : α × α} (h : p ∈ pairs l) (hl : l.Nodup) :
    p.1 ∈ l ∧ p.2 ∈ l ∧ p.1 ≠ p.2 := by
  induction l with
  | nil => simp [pairs] at h
  | cons a l ih =>
      obtain ⟨ha, hl⟩ := List.nodup_cons.mp hl
      rw [pairs, List.mem_append, List.mem_map] at h
      rcases h with ⟨b, hb, rfl⟩ | h
      · exact ⟨List.mem_cons_self, List.mem_cons_of_mem a hb, fun heq : a = b => ha (heq ▸ hb)⟩
      · obtain ⟨h1, h2, hne⟩ := ih h hl
        exact ⟨List.mem_cons_of_mem a h1, List.mem_cons_of_mem a h2, hne⟩

/-- Whenever two blocks with `P` are merged and the larger one is marked already, the original
boxes of all blocks with `P` lie in the boxes of blocks that stay unmarked. -/
def SafeRun (P : δ → Bool) (blocks : List (LayoutBlock δ))
    (ps : List (Fin blocks.length × Fin blocks.length)) : Prop :=
  ∀ pre p post, ps = pre ++ p :: post → p.1 ∈ idsWith P blocks →
    MergeState.SafePair (fun i => (blocks.get i).bbox) (idsWith P blocks)
      ((initial blocks).mergePairs pre) p

/-- If the loop is ended after whichever pair, merging did what it is for, exactly when the run
is safe. -/
theorem keepsAndCovers_run_iff (P : δ → Bool) {ps : List (Fin blocks.length × Fin blocks.length)}
    (hps : ∀ p ∈ ps, (p.1 ∈ idsWith P blocks ∧ p.2 ∈ idsWith P blocks ∨
      p.1 ∉ idsWith P blocks ∧ p.2 ∉ idsWith P blocks) ∧ p.1 ≠ p.2) :
    (∀ pre, pre <+: ps → KeepsAndCovers P blocks (afterPairs blocks pre)) ↔
      SafeRun P blocks ps := by
  rw [SafeRun, ← MergeState.covered_mergePairs_iff (covered_initial _) hps]
  exact forall₂_congr fun pre _ => keepsAndCovers_iff P pre

omit [DecidableEq δ] in
theorem nodup_idsWith (P : δ → Bool) : (idsWith P blocks).Nodup :=
  (List.nodup_finRange _).filter _

omit [DecidableEq δ] in
theorem mem_idsWith {P : δ → Bool} {i : Fin blocks.length} :
    i ∈ idsWith P blocks ↔ P (blocks.get i).data = true := by
  simp [idsWith]

omit [DecidableEq δ] in
/-- The blocks of a pair have one category. -/
theorem imageTablePairs_spec (categoryId : δ → ℤ) (c : ℤ)
    {p : Fin blocks.length × Fin blocks.length} (hp : p ∈ imageTablePairs categoryId blocks) :
    (p.1 ∈ idsWith (fun d => categoryId d = c) blocks ∧
        p.2 ∈ idsWith (fun d => categoryId d = c) blocks ∨
      p.1 ∉ idsWith (fun d => categoryId d = c) blocks ∧
        p.2 ∉ idsWith (fun d => categoryId d = c) blocks) ∧ p.1 ≠ p.2 := by
  have hsame : categoryId (blocks.get p.1).data = categoryId (blocks.get p.2).data ∧
      p.1 ≠ p.2 := by
    rcases List.mem_append.mp hp with h | h
    · obtain ⟨h1, h2, hne⟩ := mem_pairs h (nodup_idsWith _)
      rw [mem_idsWith, decide_eq_true_eq] at h1 h2
      exact ⟨h1.trans h2.symm, hne⟩
    · obtain ⟨h1, h2, hne⟩ := mem_pairs h (nodup_idsWith _)
      rw [mem_idsWith, decide_eq_true_eq] at h1 h2
      exact ⟨h1.trans h2.symm, hne⟩
  refine ⟨?_, hsame.2⟩
  rw [mem_idsWith, mem_idsWith, decide_eq_true_eq, decide_eq_true_eq, hsame.1, and_self, and_self]
  exact em _

end Lists

/-- Both loops, ended after whichever pair, keep a block and cover the original boxes of all
blocks exactly when every merge into a block that is marked already is harmless; and then they
do so at their end. -/
theorem overlaps_covered_iff (blocks : List (LayoutBlock δ)) (categoryId : δ → ℤ) :
    (((∀ pre, pre <+: pairs (List.finRange blocks.length) →
          KeepsAndCovers (fun _ => true) blocks (afterPairs blocks pre)) ↔
        SafeRun (fun _ => true) blocks (pairs (List.finRange blocks.length))) ∧
      (SafeRun (fun _ => true) blocks (pairs (List.finRange blocks.length)) →
        KeepsAndCovers (fun _ => true) blocks (removeOverlapsMinBlocks blocks))) ∧
    ∀ c, c = imageBodyId ∨ c = tableBodyId →
      ((∀ pre, pre <+: imageTablePairs categoryId blocks →
          KeepsAndCovers (fun d => categoryId d = c) blocks (afterPairs blocks pre)) ↔
        SafeRun (fun d => categoryId d = c) blocks (imageTablePairs categoryId blocks)) ∧
      (SafeRun (fun d => categoryId d = c) blocks (imageTablePairs categoryId blocks) →
        KeepsAndCovers (fun d => categoryId d = c) blocks
          (fixByRemoveOverlapImageTableBody categoryId blocks)) := by
  have hall : ∀ p ∈ pairs (List.finRange blocks.length),
      (p.1 ∈ idsWith (fun _ => true) blocks ∧ p.2 ∈ idsWith (fun _ => true) blocks ∨
        p.1 ∉ idsWith (fun _ => true) blocks ∧ p.2 ∉ idsWith (fun _ => true) blocks) ∧
      p.1 ≠ p.2 := by
    intro p hp
    exact ⟨Or.inl ⟨mem_idsWith.mpr rfl, mem_idsWith.mpr rfl⟩,
      (mem_pairs hp (List.nodup_finRange _)).2.2⟩
  have hpage := keepsAndCovers_run_iff (fun _ => true) hall
  refine ⟨⟨hpage, fun hsafe => hpage.mpr hsafe _ (List.prefix_refl _)⟩, ?_⟩
  intro c _
  have hlayout := @keepsAndCovers_run_iff _ _ blocks (fun d => decide (categoryId d = c))
    (imageTablePairs categoryId blocks) fun p hp => imageTablePairs_spec categoryId c hp
  exact ⟨hlayout, fun hsafe => hlayout.mpr hsafe _ (List.prefix_refl _)⟩

/-- Five image bodies.  The first is merged into the second and marked, but then takes up the
other three one after the other; the last of these has become the larger one when the second is
compared with it. -/
def stackedBlocks : List (LayoutBlock ℤ) :=
  [⟨⟨0, 0, 100, 100⟩, imageBodyId⟩, ⟨⟨0, 0, 90, 120⟩, imageBodyId⟩,
    ⟨⟨10, 10, 109, 109⟩, imageBodyId⟩, ⟨⟨10, 10, 118, 118⟩, imageBodyId⟩,
    ⟨⟨10, 10, 127, 127⟩, imageBodyId⟩]

/-- All five are removed. -/
theorem not_keepsAndCovers_stackedBlocks :
    (∀ b ∈ stackedBlocks, b.bbox.x0 < b.bbox.x1 ∧ b.bbox.y0 < b.bbox.y1) ∧
      ¬ KeepsAndCovers (fun _ => true) stackedBlocks (removeOverlapsMinBlocks stackedBlocks) ∧
      ¬ KeepsAndCovers (fun d => d = imageBodyId) stackedBlocks
        (fixByRemoveOverlapImageTableBody id stackedBlocks) := by
  have hpage : removeOverlapsMinBlocks stackedBlocks = [] := by decide +kernel
  have hlayout : fixByRemoveOverlapImageTableBody id stackedBlocks = [] := by decide +kernel
  have hfirst : ∃ b ∈ stackedBlocks, decide (b.data = imageBodyId) = true := by decide
  refine ⟨by decide +kernel, ?_, ?_⟩
  · rintro ⟨hkeep, -⟩
    obtain ⟨b, hb, -⟩ := hfirst
    obtain ⟨k, hk, -⟩ := hkeep ⟨b, hb, rfl⟩
    rw [hpage] at hk
    exact absurd hk List.not_mem_nil
  · rintro ⟨hkeep, -⟩
    obtain ⟨k, hk, -⟩ := hkeep hfirst
    rw [hlayout] at hk
    exact absurd hk List.not_mem_nil

end RagflowMineru.MinerU
