import RagflowMineru.Library.Binary64
import RagflowMineru.Library.Rounds
import RagflowMineru.Library.Tracking
import RagflowMineru.MinerU.Overlaps
import RagflowMineru.MinerU.SpanChars

/-!
# Merging tables that nearly coincide

`merge_high_iou_tables` replaces two tables by one around both, as long as there
are two whose intersection is large.  The tables stand in the layout list between
other regions and are known there by their positions; a merge deletes two of the
positions, appends one, and counts the others anew.
-/

namespace RagflowMineru.MinerU.ModelUtils

open RagflowMineru.Library

/-- `poly`: four corners, clockwise from the top left one. -/
structure Poly where
  x1 : ℚ
  y1 : ℚ
  x2 : ℚ
  y2 : ℚ
  x3 : ℚ
  y3 : ℚ
  x4 : ℚ
  y4 : ℚ
  deriving DecidableEq

/-- A region of the page: which object it is, its corners, and the rest of its entries. -/
structure Region (δ : Type*) where
  ref : ℕ
  poly : Poly
  data : δ
  deriving DecidableEq

structure TableInfo where
  xmin : ℤ
  ymin : ℤ
  xmax : ℤ
  ymax : ℤ
  area : ℤ

variable {δ : Type*}

/-- `get_coords_and_area`. -/
def getCoordsAndArea (blockWithPoly : Region δ) : TableInfo :=
  let xmin := pyInt blockWithPoly.poly.x1
  let ymin := pyInt blockWithPoly.poly.y1
  let xmax := pyInt blockWithPoly.poly.x3
  let ymax := pyInt blockWithPoly.poly.y3
  ⟨xmin, ymin, xmax, ymax, (xmax - xmin) * (ymax - ymin)⟩

/-- `calculate_intersection`. -/
def calculateIntersection (box1 box2 : TableInfo) : Option (ℤ × ℤ × ℤ × ℤ) :=
  let intersectionXmin := max box1.xmin box2.xmin
  let intersectionYmin := max box1.ymin box2.ymin
  let intersectionXmax := min box1.xmax box2.xmax
  let intersectionYmax := min box1.ymax box2.ymax
  if intersectionXmax ≤ intersectionXmin ∨ intersectionYmax ≤ intersectionYmin then none
  else some (intersectionXmin, intersectionYmin, intersectionXmax, intersectionYmax)

/-- `calculate_iou`, with a quotient in doubles. -/
def calculateIou (box1 box2 : TableInfo) : ℚ :=
  match calculateIntersection box1 box2 with
  | none => 0
  | some (intersectionXmin, intersectionYmin, intersectionXmax, intersectionYmax) =>
      let intersectionArea :=
        (intersectionXmax - intersectionXmin) * (intersectionYmax - intersectionYmin)
      let unionArea := box1.area + box2.area - intersectionArea
      if unionArea > 0 then Binary64.nearest (intersectionArea / unionArea) else 0

/-- The table around two tables: a copy of the first one with other corners. -/
def mergedTable (table1 table2 : Region δ) (ref : ℕ) : Region δ :=
  let info1 := getCoordsAndArea table1
  let info2 := getCoordsAndArea table2
  let unionXmin := min info1.xmin info2.xmin
  let unionYmin := min info1.ymin info2.ymin
  let unionXmax := max info1.xmax info2.xmax
  let unionYmax := max info1.ymax info2.ymax
  { table1 with
    ref := ref
    poly := ⟨unionXmin, unionYmin, unionXmax, unionYmin, unionXmax, unionYmax, unionXmin,
      unionYmax⟩ }

/-- The three lists, and the next object to be made. -/
structure Tables (δ : Type*) where
  tableResList : List (Region δ)
  layoutRes : List (Region δ)
  tableIndices : List ℕ
  nextRef : ℕ

namespace Tables

/-- A table with its place in `table_res_list`. -/
abbrev Placed (δ : Type*) := Region δ × ℕ

variable (iouThreshold : ℚ) (s : Tables δ)

/-- The first two tables, in the order of the loops, whose IoU is above the threshold. -/
def highPair : Option (Placed δ × Placed δ) :=
  (pairs s.tableResList.zipIdx).find? fun p =>
    iouThreshold < calculateIou (getCoordsAndArea p.1.1) (getCoordsAndArea p.2.1)

/-- Where the tables are after the two positions `toRemove` are deleted and one is appended. -/
def renumber (toRemove : List ℕ) (lo hi length : ℕ) (tableIndices : List ℕ) : List ℕ :=
  (tableIndices.filter fun k => k ∉ toRemove).map fun k =>
    if k < lo then k else if k < hi then k - 1 else if k > hi then k - 2 else length - 1

/-- The body of the loop, for a pair of tables. -/
def merge (p : Placed δ × Placed δ) : Tables δ :=
  let i := p.1.2
  let j := p.2.2
  let merged := mergedTable p.1.1 p.2.1 s.nextRef
  let idx1 := s.tableIndices.getD i 0
  let idx2 := s.tableIndices.getD j 0
  let lo := min idx2 idx1
  let hi := max idx2 idx1
  let layoutRes := (s.layoutRes.eraseIdx hi).eraseIdx lo ++ [merged]
  { tableResList := (s.tableResList.eraseIdx j).eraseIdx i ++ [merged]
    layoutRes := layoutRes
    tableIndices :=
      renumber [idx2, idx1] lo hi layoutRes.length s.tableIndices ++ [layoutRes.length - 1]
    nextRef := s.nextRef + 1 }

/-- One round of the loops: the first pair is merged, if there is one. -/
def mergeRound : Option (Tables δ) :=
  (s.highPair iouThreshold).map s.merge

/-- `merge_high_iou_tables`. -/
def mergeHighIouTables (fuel : ℕ) : Option (Tables δ) :=
  if s.tableResList.length < 2 then some s else rounds (mergeRound iouThreshold) fuel s

/-- Every table stands in the layout list where its index says. -/
structure Tracks : Prop where
  points : s.tableIndices.map (s.layoutRes[·]?) = s.tableResList.map some
  nodup : s.tableIndices.Nodup

/-- The regions that are no tables. -/
def others : List (Region δ) := untracked s.layoutRes s.tableIndices

/-! ## Pairs of places -/

theorem forall_mem_pairs_iff {α : Type*} {l : List α} {r : α → α → Prop} :
    (∀ p ∈ pairs l, r p.1 p.2) ↔ l.Pairwise r := by
  induction l with
  | nil => simp [pairs]
  | cons a l ih =>
    rw [pairs, List.forall_mem_append, List.forall_mem_map, List.pairwise_cons, ih]

theorem zipIdx_pairwise {α : Type*} (l : List α) (n : ℕ) :
    (l.zipIdx n).Pairwise fun a b => a.2 < b.2 := by
  have hrange : ((l.zipIdx n).map Prod.snd).Pairwise (· < ·) := by
    rw [List.zipIdx_map_snd]
    exact List.pairwise_lt_range'
  exact List.pairwise_map.1 hrange

theorem pairwise_of_zipIdx {α : Type*} {l : List α} {n : ℕ} {r : α → α → Prop}
    (h : (l.zipIdx n).Pairwise fun a b => r a.1 b.1) : l.Pairwise r := by
  have hmap : ((l.zipIdx n).map Prod.fst).Pairwise r := List.pairwise_map.2 h
  rwa [List.zipIdx_map_fst] at hmap

variable {iouThreshold : ℚ} {s : Tables δ}

theorem highPair_spec {p : Placed δ × Placed δ} (h : s.highPair iouThreshold = some p) :
    s.tableResList[p.1.2]? = some p.1.1 ∧ s.tableResList[p.2.2]? = some p.2.1 ∧ p.1.2 < p.2.2 := by
  have hmem := List.mem_of_find?_eq_some h
  have hpairs := (forall_mem_pairs_iff (r := fun a b => (a ∈ s.tableResList.zipIdx ∧
    b ∈ s.tableResList.zipIdx) ∧ a.2 < b.2)).2
      ((zipIdx_pairwise s.tableResList 0).imp_of_mem fun ha hb hlt => ⟨⟨ha, hb⟩, hlt⟩) p hmem
  exact ⟨List.mk_mem_zipIdx_iff_getElem?.1 hpairs.1.1,
    List.mk_mem_zipIdx_iff_getElem?.1 hpairs.1.2, hpairs.2⟩

theorem pairwise_of_highPair_eq_none (h : s.highPair iouThreshold = none) :
    s.tableResList.Pairwise fun a b =>
      calculateIou (getCoordsAndArea a) (getCoordsAndArea b) ≤ iouThreshold := by
  have hpairs := (forall_mem_pairs_iff (r := fun a b : Placed δ =>
    calculateIou (getCoordsAndArea a.1) (getCoordsAndArea b.1) ≤ iouThreshold)).1
      fun p hp => not_lt.1 (of_decide_eq_false (Bool.not_eq_true _ ▸ List.find?_eq_none.1 h p hp))
  exact pairwise_of_zipIdx hpairs

/-! ## One merge -/

/-- Counting anew is the deletion of the later position and then of the earlier one. -/
theorem renumber_eq {lo hi length : ℕ} (h : lo < hi) {toRemove : List ℕ}
    (hremove : ∀ k, k ∉ toRemove ↔ k ≠ lo ∧ k ≠ hi) (tableIndices : List ℕ) :
    renumber toRemove lo hi length tableIndices =
      dropTracked lo (dropTracked hi tableIndices) := by
  rw [dropTracked, filter_dropTracked h, List.map_map, renumber]
  simp only [hremove]
  refine List.map_congr_left fun k hk => ?_
  obtain ⟨hlo, hhi⟩ : k ≠ lo ∧ k ≠ hi := of_decide_eq_true (List.mem_filter.1 hk).2
  simp only [Function.comp_apply, shift]
  split_ifs
  all_goals omega

/-- What a merge does, in terms of the two positions that go, `lo` and `hi`. -/
structure Merged (s s' : Tables δ) (i j lo hi : ℕ) (merged : Region δ) : Prop where
  lt : lo < hi
  bound : hi < s.layoutRes.length
  lo_mem : lo ∈ s.tableIndices
  hi_mem : hi ∈ s.tableIndices
  kept : (s.tableIndices.filter fun k => k ≠ lo ∧ k ≠ hi) =
    (s.tableIndices.eraseIdx j).eraseIdx i
  tableResList : s'.tableResList = (s.tableResList.eraseIdx j).eraseIdx i ++ [merged]
  layoutRes : s'.layoutRes = (s.layoutRes.eraseIdx hi).eraseIdx lo ++ [merged]
  tableIndices : s'.tableIndices = dropTracked lo (dropTracked hi s.tableIndices) ++
    [((s.layoutRes.eraseIdx hi).eraseIdx lo).length]

theorem Tracks.getElem?_layoutRes (h : s.Tracks) {i : ℕ} {table : Region δ}
    (hi : s.tableResList[i]? = some table) :
    ∃ k, s.tableIndices[i]? = some k ∧ s.layoutRes[k]? = some table := by
  have hmap := congrArg (·[i]?) h.points
  simp only [List.getElem?_map, hi, Option.map_some] at hmap
  exact Option.map_eq_some_iff.1 hmap

theorem Tracks.merged (h : s.Tracks) {p : Placed δ × Placed δ}
    (hp : s.highPair iouThreshold = some p) :
    ∃ lo hi, Merged s (s.merge p) p.1.2 p.2.2 lo hi (mergedTable p.1.1 p.2.1 s.nextRef) := by
  obtain ⟨hi, hj, hij⟩ := highPair_spec hp
  obtain ⟨a, ha, hla⟩ := h.getElem?_layoutRes hi
  obtain ⟨b, hb, hlb⟩ := h.getElem?_layoutRes hj
  have hkept := eraseIdx_eraseIdx_eq_filter h.nodup hij ha hb
  have hne : b ≠ a := by
    rintro rfl
    have hlt : p.1.2 < s.tableIndices.length := (List.getElem?_eq_some_iff.1 ha).1
    exact hij.ne ((List.getElem?_inj hlt h.nodup).1 (ha.trans hb.symm))
  have hremove : ∀ k, k ∉ [b, a] ↔ k ≠ min b a ∧ k ≠ max b a := by
    intro k
    rw [List.mem_cons, List.mem_singleton, not_or]
    rcases le_total b a with hle | hle
    · rw [min_eq_left hle, max_eq_right hle]
    · rw [min_eq_right hle, max_eq_left hle]
      exact and_comm
  have hlt : min b a < max b a := min_lt_max.2 hne
  have hmem : ∀ k ∈ [b, a], k ∈ s.tableIndices ∧ k < s.layoutRes.length := by
    intro k hk
    rcases List.mem_cons.1 hk with rfl | hk
    · exact ⟨List.mem_of_getElem? hb, (List.getElem?_eq_some_iff.1 hlb).1⟩
    · rw [List.mem_singleton.1 hk]
      exact ⟨List.mem_of_getElem? ha, (List.getElem?_eq_some_iff.1 hla).1⟩
  have hlo : min b a ∈ [b, a] := not_not.1 fun hnot => ((hremove _).1 hnot).1 rfl
  have hhi : max b a ∈ [b, a] := not_not.1 fun hnot => ((hremove _).1 hnot).2 rfl
  have hidx1 : s.tableIndices.getD p.1.2 0 = a := by
    rw [List.getD_eq_getElem?_getD, ha, Option.getD_some]
  have hidx2 : s.tableIndices.getD p.2.2 0 = b := by
    rw [List.getD_eq_getElem?_getD, hb, Option.getD_some]
  refine ⟨min b a, max b a, hlt, (hmem _ hhi).2, (hmem _ hlo).1, (hmem _ hhi).1, ?_, rfl, ?_, ?_⟩
  · rw [hkept]
    refine List.filter_congr fun k _ => ?_
    have hiff : k ≠ min b a ∧ k ≠ max b a ↔ k ≠ a ∧ k ≠ b := by
      rw [← hremove]
      simp [and_comm]
    exact decide_eq_decide.2 hiff
  · simp only [merge, hidx1, hidx2]
  · simp only [merge, hidx1, hidx2, List.length_append, List.length_singleton,
      Nat.add_sub_cancel]
    rw [renumber_eq hlt hremove]

section

variable {s' : Tables δ} {i j lo hi : ℕ} {merged : Region δ} (hm : Merged s s' i j lo hi merged)

include hm

theorem Merged.tracks (h : s.Tracks) : s'.Tracks := by
  have hpoints : (dropTracked lo (dropTracked hi s.tableIndices)).map
      (((s.layoutRes.eraseIdx hi).eraseIdx lo)[·]?) =
        ((s.tableResList.eraseIdx j).eraseIdx i).map some := by
    rw [map_getElem?_dropTracked₂ _ hm.lt, hm.kept, ← List.eraseIdx_map, ← List.eraseIdx_map,
      h.points, List.eraseIdx_map, List.eraseIdx_map]
  constructor
  · rw [hm.tableIndices, hm.layoutRes, hm.tableResList]
    exact map_getElem?_concat hpoints merged
  · rw [hm.tableIndices]
    refine (dropTracked_nodup (dropTracked_nodup h.nodup hi) lo).append
      (List.nodup_singleton _) ?_
    rw [List.disjoint_singleton]
    exact fun hmem => (lt_length_of_map_getElem?_eq hpoints _ hmem).false

theorem Merged.others_eq : s'.others = s.others := by
  have hlo : lo < (s.layoutRes.eraseIdx hi).length := by
    rw [List.length_eraseIdx_of_lt hm.bound]
    exact hm.lt.trans_le (Nat.le_sub_one_of_lt hm.bound)
  calc s'.others
      = untracked ((s.layoutRes.eraseIdx hi).eraseIdx lo)
          (dropTracked lo (dropTracked hi s.tableIndices)) := by
        rw [others, hm.layoutRes, hm.tableIndices, untracked_append_singleton]
    _ = untracked (s.layoutRes.eraseIdx hi) (dropTracked hi s.tableIndices) :=
        untracked_eraseIdx ((mem_dropTracked_of_lt hm.lt).2 hm.lo_mem) hlo
    _ = s.others := untracked_eraseIdx hm.hi_mem hm.bound

end

theorem length_merge {p : Placed δ × Placed δ} (hp : s.highPair iouThreshold = some p) :
    (s.merge p).tableResList.length + 1 = s.tableResList.length := by
  obtain ⟨-, hj, hij⟩ := highPair_spec hp
  have hlt : p.2.2 < s.tableResList.length := (List.getElem?_eq_some_iff.1 hj).1
  have hlt' : p.1.2 < (s.tableResList.eraseIdx p.2.2).length := by
    rw [List.length_eraseIdx_of_lt hlt]
    omega
  rw [merge, List.length_append, List.length_singleton, List.length_eraseIdx_of_lt hlt',
    List.length_eraseIdx_of_lt hlt]
  omega

/-! ## The loop -/

theorem mergeRound_spec {s₀ s s' : Tables δ} (h : s.Tracks ∧ s.others = s₀.others)
    (hs : mergeRound iouThreshold s = some s') :
    (s'.Tracks ∧ s'.others = s₀.others) ∧
      s'.tableResList.length < s.tableResList.length := by
  obtain ⟨p, hp, rfl⟩ := Option.map_eq_some_iff.1 hs
  obtain ⟨lo, hi, hm⟩ := h.1.merged hp
  refine ⟨⟨hm.tracks h.1, hm.others_eq.trans h.2⟩, ?_⟩
  have hlen := length_merge hp
  omega

/-- The tables that are left lie apart and stand where their indices say, and the other regions
are as they were. -/
theorem mergeHighIouTables_spec (iouThreshold : ℚ) {s : Tables δ} (h : s.Tracks) :
    ∃ s', (∀ fuel > s.tableResList.length, mergeHighIouTables iouThreshold s fuel = some s') ∧
      s'.tableIndices.map (s'.layoutRes[·]?) = s'.tableResList.map some ∧
      (s'.tableResList.Pairwise fun a b =>
        calculateIou (getCoordsAndArea a) (getCoordsAndArea b) ≤ iouThreshold) ∧
      s'.others = s.others := by
  by_cases hfew : s.tableResList.length < 2
  · refine ⟨s, fun fuel _ => if_pos hfew, h.points, ?_, rfl⟩
    rcases hs : s.tableResList with - | ⟨table, - | ⟨table', rest⟩⟩
    · exact List.Pairwise.nil
    · exact List.pairwise_singleton _ _
    · rw [hs, List.length_cons, List.length_cons] at hfew
      omega
  · obtain ⟨s', hrun, ⟨htracks, hothers⟩, hend⟩ :=
      rounds_spec (@mergeRound_spec _ iouThreshold s) ⟨h, rfl⟩
    refine ⟨s', fun fuel hfuel => ?_, htracks.points, ?_, hothers⟩
    · rw [mergeHighIouTables, if_neg hfew]
      exact hrun fuel hfuel
    · exact pairwise_of_highPair_eq_none (Option.map_eq_none_iff.1 hend)

section

/-- A text between two tables that nearly coincide. -/
private def tablePage : Tables Unit :=
  let table1 : Region Unit := ⟨0, ⟨0, 0, 100, 0, 100, 100, 0, 100⟩, ()⟩
  let text : Region Unit := ⟨1, ⟨0, 200, 100, 200, 100, 300, 0, 300⟩, ()⟩
  let table2 : Region Unit := ⟨2, ⟨0, 5, 100, 5, 100, 100, 0, 100⟩, ()⟩
  ⟨[table1, table2], [table1, text, table2], [0, 2], 3⟩

theorem mergeHighIouTables_spec_tablePage :
    ∃ s', (∀ fuel > tablePage.tableResList.length,
        mergeHighIouTables (7 / 10) tablePage fuel = some s') ∧
      s'.tableIndices.map (s'.layoutRes[·]?) = s'.tableResList.map some ∧
      (s'.tableResList.Pairwise fun a b =>
        calculateIou (getCoordsAndArea a) (getCoordsAndArea b) ≤ 7 / 10) ∧
      s'.others = tablePage.others :=
  mergeHighIouTables_spec (7 / 10) ⟨rfl, by decide⟩

end

end Tables

end RagflowMineru.MinerU.ModelUtils
