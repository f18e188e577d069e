import Mathlib.Data.List.Nodup
import Mathlib.Data.List.Sort
import RagflowMineru.Library.Paging
import RagflowMineru.Library.Runs

/-!
# The recursive cut of a page

Blocks are put into reading order by cutting the page at rows that no block is in, the parts at
columns, and so on, until a part cannot be cut in columns any more.  The result has the number of
every block, and what stands above an empty row comes before what stands below it.
-/

namespace RagflowMineru.MinerU

open Library

/-- A box of whole coordinates. -/
structure XyBox where
  x0 : ℕ
  y0 : ℕ
  x1 : ℕ
  y1 : ℕ
  deriving DecidableEq

/-- `boxes[:, axis::2]`, for the axes 0 and 1. -/
inductive Axis where
  | x | y

def XyBox.start (b : XyBox) : Axis → ℕ
  | .x => b.x0
  | .y => b.y0

def XyBox.stop (b : XyBox) : Axis → ℕ
  | .x => b.x1
  | .y => b.y1

inductive XyCutError where
  | valueError
  | assertionError
  | outOfFuel
  deriving DecidableEq

/-- The `argsort` of an array: its positions in an order in which its values do not fall.  Which
of equal values comes first is not said. -/
structure Argsort where
  argsort : List ℕ → List ℕ
  perm : ∀ keys, (argsort keys).Perm (List.range keys.length)
  sorted : ∀ keys, ((argsort keys).map fun i => keys.getD i 0).Pairwise (· ≤ ·)

/-- `a[indices]` -/
def takeAt {α : Type} (a : List α) (indices : List ℕ) : List α := indices.filterMap (a[·]?)

/-- `projection_by_bboxes`; the maximum of nothing is an exception. -/
def projectionByBboxes (boxes : List XyBox) (axis : Axis) : Except XyCutError (List ℕ) :=
  match (boxes.flatMap fun b => [b.start axis, b.stop axis]).max? with
  | none => .error .valueError
  | some length =>
      .ok <| boxes.foldl
        (fun res b => res.mapIdx fun k v => if b.start axis ≤ k ∧ k < b.stop axis then v + 1 else v)
        (List.replicate length 0)

/-- `split_projection_profile`. -/
def splitProjectionProfile (arrValues : List ℕ) (minValue minGap : ℕ) :
    Option (List ℕ × List ℕ) :=
  match (List.range arrValues.length).filter fun k => minValue < arrValues.getD k 0 with
  | [] => none
  | first :: rest =>
      let zeroIntvl := ((first :: rest).zip rest).filter fun p => minGap < p.2 - p.1
      some (first :: zeroIntvl.map Prod.snd,
        (zeroIntvl.map Prod.fst ++ [(first :: rest).getLast (List.cons_ne_nil _ _)]).map (· + 1))

section Cut

variable {ι : Type} (sorter : Argsort)

/-- The boxes and their indices, sorted along an axis. -/
def sortAlong (axis : Axis) (boxes : List (XyBox × ι)) : List (XyBox × ι) :=
  takeAt boxes (sorter.argsort (boxes.map fun b => b.1.start axis))

/-- The boxes that begin between two rows or columns. -/
def between (axis : Axis) (boxes : List (XyBox × ι)) (r : ℕ × ℕ) : List (XyBox × ι) :=
  beginningIn (fun b => b.1.start axis) boxes r

/-- The turn of the loop of `recursive_xy_cut` for the boxes between two empty rows; `cut` is the
recursive call. -/
def cutColumns (cut : List (XyBox × ι) → Except XyCutError (List ι))
    (ySortedBoxesChunk : List (XyBox × ι)) : Except XyCutError (List ι) := do
  let xSortedBoxesChunk := sortAlong sorter .x ySortedBoxesChunk
  let xProjection ← projectionByBboxes (xSortedBoxesChunk.map Prod.fst) .x
  match splitProjectionProfile xProjection 0 1 with
  | none => .ok []
  | some (arrX0, arrX1) =>
      if arrX0.length = 1 then .ok (xSortedBoxesChunk.map Prod.snd)
      else
        let parts ← (arrX0.zip arrX1).mapM fun c => cut (between .x xSortedBoxesChunk c)
        .ok parts.flatten

/-- `recursive_xy_cut`: what is added to `res`, on so many levels. -/
def recursiveXyCut : ℕ → List (XyBox × ι) → Except XyCutError (List ι)
  | 0, _ => .error .outOfFuel
  | fuel + 1, boxes => do
      let ySortedBoxes := sortAlong sorter .y boxes
      let yProjection ← projectionByBboxes (ySortedBoxes.map Prod.fst) .y
      match splitProjectionProfile yProjection 0 1 with
      | none => .ok []
      | some (arrY0, arrY1) =>
          let parts ← (arrY0.zip arrY1).mapM fun r =>
            cutColumns sorter (recursiveXyCut fuel) (between .y ySortedBoxes r)
          .ok parts.flatten

/-- `[max(0, x) for x in block['bbox']]` -/
def clampBbox (bbox : ℤ × ℤ × ℤ × ℤ) : XyBox :=
  ⟨bbox.1.toNat, bbox.2.1.toNat, bbox.2.2.1.toNat, bbox.2.2.2.toNat⟩

/-- The last branch of `cal_block_index`: the index of each block. -/
def calBlockIndex (shuffle : List XyBox → List XyBox) (bboxes : List (ℤ × ℤ × ℤ × ℤ)) :
    Except XyCutError (List ℕ) := do
  let blockBboxes := bboxes.map clampBbox
  let randomBoxes := shuffle blockBboxes
  let res ← recursiveXyCut sorter blockBboxes.length randomBoxes.zipIdx
  if res.length ≠ blockBboxes.length then .error .assertionError
  else
    let sortedBoxes := takeAt randomBoxes res
    blockBboxes.mapM fun bbox =>
      if bbox ∈ sortedBoxes then .ok (sortedBoxes.idxOf bbox) else .error .valueError

end Cut

/-! ## Projections and their runs -/

section Runs

variable {ι : Type} {axis : Axis}

theorem length_foldl_projection (boxes : List XyBox) (res : List ℕ) :
    (boxes.foldl (fun res b => res.mapIdx fun k v =>
      if b.start axis ≤ k ∧ k < b.stop axis then v + 1 else v) res).length = res.length := by
  induction boxes generalizing res with
  | nil => rfl
  | cons b boxes ih => rw [List.foldl_cons, ih, List.length_mapIdx]

/-- A row is counted if a box is in it. -/
theorem pos_foldl_projection_iff {boxes : List XyBox} {res : List ℕ} {k : ℕ}
    (hk : k < res.length) :
    0 < (boxes.foldl (fun res b => res.mapIdx fun k v =>
      if b.start axis ≤ k ∧ k < b.stop axis then v + 1 else v) res).getD k 0 ↔
      0 < res.getD k 0 ∨ ∃ b ∈ boxes, b.start axis ≤ k ∧ k < b.stop axis := by
  induction boxes generalizing res with
  | nil => simp
  | cons b boxes ih =>
      rw [List.foldl_cons, ih (by rwa [List.length_mapIdx]), List.exists_mem_cons_iff]
      have hget : (res.mapIdx fun k v => if b.start axis ≤ k ∧ k < b.stop axis then v + 1
          else v).getD k 0 = if b.start axis ≤ k ∧ k < b.stop axis then res.getD k 0 + 1
          else res.getD k 0 := by
        simp [List.getD_eq_getElem?_getD, hk]
      rw [hget]
      split_ifs with hin
      · simp [hin]
      · simp [hin]

theorem projectionByBboxes_spec {boxes : List XyBox} (hne : boxes ≠ []) (axis : Axis) :
    ∃ res, projectionByBboxes boxes axis = .ok res ∧
      ∀ k, (k < res.length ∧ 0 < res.getD k 0) ↔
        ∃ b ∈ boxes, b.start axis ≤ k ∧ k < b.stop axis := by
  have hsome : ((boxes.flatMap fun b => [b.start axis, b.stop axis]).max?).isSome := by
    obtain ⟨b, boxes, rfl⟩ := List.exists_cons_of_ne_nil hne
    exact List.isSome_max?_of_ne_nil (by simp)
  obtain ⟨length, hlength⟩ := Option.isSome_iff_exists.mp hsome
  rw [projectionByBboxes, hlength]
  refine ⟨_, rfl, fun k => ?_⟩
  rw [length_foldl_projection, List.length_replicate]
  have hpos : k < length → _ := fun hk =>
    @pos_foldl_projection_iff axis boxes (List.replicate length 0) k
      (by rwa [List.length_replicate])
  have hzero : ¬ 0 < (List.replicate length 0).getD k 0 := by
    rw [List.getD_eq_getElem?_getD, List.getElem?_replicate]
    split_ifs <;> exact lt_irrefl 0
  constructor
  · rintro ⟨hk, hcount⟩
    exact ((hpos hk).mp hcount).resolve_left hzero
  · rintro ⟨b, hb, hin⟩
    have hmem : b.stop axis ∈ boxes.flatMap fun b => [b.start axis, b.stop axis] :=
      List.mem_flatMap.mpr ⟨b, hb, by simp⟩
    have hk : k < length := hin.2.trans_le ((List.max?_eq_some_iff.mp hlength).2 _ hmem)
    exact ⟨hk, (hpos hk).mpr (Or.inr ⟨b, hb, hin⟩)⟩

/-- The two arrays are the starts and the ends of the runs. -/
theorem zeroIntvl_eq (first prev : ℕ) (rest : List ℕ) :
    let zeroIntvl := ((prev :: rest).zip rest).filter fun p => 1 < p.2 - p.1
    first :: zeroIntvl.map Prod.snd = (filledRuns first prev rest).map Prod.fst ∧
      (zeroIntvl.map Prod.fst ++ [(prev :: rest).getLast (List.cons_ne_nil _ _)]).map (· + 1) =
        (filledRuns first prev rest).map Prod.snd := by
  induction rest generalizing first prev with
  | nil => exact ⟨rfl, rfl⟩
  | cons k rest ih =>
      simp only [List.zip_cons_cons, List.filter_cons, filledRuns]
      by_cases hgap : prev + 1 < k
      · obtain ⟨hstarts, hends⟩ := ih k k
        have hone : 1 < k - prev := by omega
        simp only [hgap, hone, decide_true, if_true, List.map_cons, List.cons_append]
        exact ⟨congrArg (first :: ·) hstarts, by simpa using hends⟩
      · obtain ⟨hstarts, hends⟩ := ih first k
        have hone : ¬ 1 < k - prev := by omega
        simp only [hgap, hone, decide_false, if_false, Bool.false_eq_true]
        exact ⟨hstarts, by simpa using hends⟩

theorem splitProjectionProfile_eq (arrValues : List ℕ) :
    splitProjectionProfile arrValues 0 1 =
      match (List.range arrValues.length).filter fun k => 0 < arrValues.getD k 0 with
      | [] => none
      | first :: rest =>
          some ((filledRuns first first rest).map Prod.fst,
            (filledRuns first first rest).map Prod.snd) := by
  rw [splitProjectionProfile]
  split
  · rfl
  · rename_i first rest hrows
    obtain ⟨hstarts, hends⟩ := zeroIntvl_eq first first rest
    rw [← hstarts, ← hends]

/-- The runs of boxes along an axis. -/
theorem exists_isRuns {boxes : List (XyBox × ι)} (hne : boxes ≠ [])
    (hlt : ∀ b ∈ boxes, b.1.start axis < b.1.stop axis) :
    ∃ res runs, projectionByBboxes (boxes.map Prod.fst) axis = .ok res ∧
      splitProjectionProfile res 0 1 = some (runs.map Prod.fst, runs.map Prod.snd) ∧
      IsRuns (Covered (fun b => b.1.start axis) (fun b => b.1.stop axis) boxes) runs := by
  have hne' : boxes.map Prod.fst ≠ [] := fun hnil => hne (List.map_eq_nil_iff.mp hnil)
  obtain ⟨res, hres, hrows⟩ := projectionByBboxes_spec hne' axis
  have hmem : ∀ k, k ∈ (List.range res.length).filter (fun k => 0 < res.getD k 0) ↔
      Covered (fun b : XyBox × ι => b.1.start axis) (fun b => b.1.stop axis) boxes k := by
    intro k
    rw [List.mem_filter, List.mem_range, decide_eq_true_eq, hrows]
    simp only [Covered, List.mem_map]
    constructor
    · rintro ⟨-, ⟨b, hb, rfl⟩, hin⟩
      exact ⟨b, hb, hin⟩
    · rintro ⟨b, hb, hin⟩
      exact ⟨b.1, ⟨b, hb, rfl⟩, hin⟩
  have hsorted := (List.pairwise_lt_range (n := res.length)).sublist
    (List.filter_sublist (p := fun k => decide (0 < res.getD k 0)))
  rcases hfilled : (List.range res.length).filter (fun k => 0 < res.getD k 0) with _ | ⟨first, rest⟩
  · obtain ⟨b, hb⟩ := List.exists_mem_of_ne_nil _ hne
    have hin := (hmem (b.1.start axis)).mpr ⟨b, hb, le_rfl, hlt b hb⟩
    rw [hfilled] at hin
    cases hin
  · rw [hfilled] at hsorted
    refine ⟨res, filledRuns first first rest, hres, ?_, ?_⟩
    · rw [splitProjectionProfile_eq, hfilled]
    · have hruns := isRuns_filledRuns le_rfl hsorted
      refine ⟨hruns.lt, hruns.apart, fun k => ?_⟩
      rw [← hruns.filled_iff, ← hmem, hfilled, List.mem_cons]
      have hself : first ≤ k ∧ k ≤ first ↔ k = first := by omega
      rw [hself]

end Runs

/-! ## The cut -/

section Reading

variable {ι : Type} {sorter : Argsort} {axis : Axis} {boxes : List (XyBox × ι)}

/-- What a box of the page is: it has an extent in both directions. -/
def Extended (boxes : List (XyBox × ι)) : Prop :=
  ∀ b ∈ boxes, b.1.x0 < b.1.x1 ∧ b.1.y0 < b.1.y1

/-- All boxes are read, and those above an empty row before those below. -/
def ReadsInOrder (boxes : List (XyBox × ι)) (res : List ι) : Prop :=
  res.Perm (boxes.map Prod.snd) ∧
    ∀ k, (∀ b ∈ boxes, ¬ (b.1.y0 ≤ k ∧ k < b.1.y1)) →
      ∃ above below, res = above ++ below ∧
        above.Perm ((boxes.filter fun b => b.1.y1 ≤ k).map Prod.snd) ∧
        below.Perm ((boxes.filter fun b => k < b.1.y0).map Prod.snd)

theorem Extended.lt (h : Extended boxes) : ∀ b ∈ boxes, b.1.start axis < b.1.stop axis := by
  intro b hb
  cases axis with
  | x => exact (h b hb).1
  | y => exact (h b hb).2

theorem sortAlong_perm (sorter : Argsort) (axis : Axis) (boxes : List (XyBox × ι)) :
    (sortAlong sorter axis boxes).Perm boxes := by
  have hperm := (sorter.perm (boxes.map fun b => b.1.start axis)).filterMap (boxes[·]?)
  rw [List.length_map, filterMap_getElem?_range] at hperm
  exact hperm

/-- Where each of several computations has a result for all the parameters that matter, they have
their results together. -/
theorem exists_mapM {σ α β ε : Type} {f : σ → α → Except ε β} {P : σ → Prop}
    {Q : α → β → Prop} {l : List α} (h : ∀ a ∈ l, ∃ v, (∀ n, P n → f n a = .ok v) ∧ Q a v) :
    ∃ vs, (∀ n, P n → l.mapM (f n) = .ok vs) ∧ List.Forall₂ Q l vs := by
  induction l with
  | nil => exact ⟨[], fun _ _ => rfl, .nil⟩
  | cons a l ih =>
      obtain ⟨⟨v, hv, hq⟩, hl⟩ := List.forall_mem_cons.mp h
      obtain ⟨vs, hvs, hqs⟩ := ih hl
      refine ⟨v :: vs, fun n hn => ?_, .cons hq hqs⟩
      rw [List.mapM_cons, hv n hn, hvs n hn]
      rfl

theorem flatten_perm {runs : List (ℕ × ℕ)} {parts : List (List ι)}
    {f : ℕ × ℕ → List (XyBox × ι)}
    (h : List.Forall₂ (fun r part => part.Perm ((f r).map Prod.snd)) runs parts) :
    parts.flatten.Perm ((runs.flatMap f).map Prod.snd) := by
  induction h with
  | nil => rfl
  | cons hpart _ ih =>
      rw [List.flatten_cons, List.flatMap_cons, List.map_append]
      exact hpart.append ih

theorem zip_map_fst_snd (runs : List (ℕ × ℕ)) :
    (runs.map Prod.fst).zip (runs.map Prod.snd) = runs := by
  rw [List.zip_map']
  exact List.map_id' runs

/-- Sorted boxes and the runs that they are cut into. -/
theorem exists_sorted_runs (sorter : Argsort) (axis : Axis) (hne : boxes ≠ [])
    (hext : Extended boxes) :
    let sorted := sortAlong sorter axis boxes
    sorted.Perm boxes ∧ Extended sorted ∧
      ∃ res runs, projectionByBboxes (sorted.map Prod.fst) axis = .ok res ∧
        splitProjectionProfile res 0 1 = some (runs.map Prod.fst, runs.map Prod.snd) ∧
        IsRuns (Covered (fun b => b.1.start axis) (fun b => b.1.stop axis) sorted) runs := by
  intro sorted
  have hperm : sorted.Perm boxes := sortAlong_perm sorter axis boxes
  have hsorted : Extended sorted := fun b hb => hext b (hperm.mem_iff.mp hb)
  have hne' : sorted ≠ [] := fun hnil => hne (by rwa [hnil, List.nil_perm] at hperm)
  exact ⟨hperm, hsorted, exists_isRuns hne' hsorted.lt⟩

theorem Extended.between (h : Extended boxes) (r : ℕ × ℕ) : Extended (between axis boxes r) :=
  fun b hb => h b (mem_beginningIn.mp hb).1

/-- Between two empty rows, all boxes are read, if they are in smaller parts. -/
theorem exists_cutColumns {cut : ℕ → List (XyBox × ι) → Except XyCutError (List ι)}
    {P : ℕ → Prop} (hne : boxes ≠ []) (hext : Extended boxes)
    (hcut : ∀ part : List (XyBox × ι), part ≠ [] → Extended part → part.length < boxes.length →
      ∃ res, (∀ n, P n → cut n part = .ok res) ∧ res.Perm (part.map Prod.snd)) :
    ∃ res, (∀ n, P n → cutColumns sorter (cut n) boxes = .ok res) ∧
      res.Perm (boxes.map Prod.snd) := by
  obtain ⟨hperm, hsorted, xProjection, runs, hproj, hsplit, hruns⟩ :=
    exists_sorted_runs sorter .x hne hext
  have hcutColumns : ∀ n, cutColumns sorter (cut n) boxes =
      if runs.length = 1 then .ok ((sortAlong sorter .x boxes).map Prod.snd)
      else (runs.mapM fun c => cut n (MinerU.between .x (sortAlong sorter .x boxes) c)) >>=
        fun parts => .ok parts.flatten := by
    intro n
    simp only [cutColumns, hproj, hsplit, zip_map_fst_snd, List.length_map, bind, Except.bind]
  by_cases hone : runs.length = 1
  · refine ⟨_, fun n _ => ?_, hperm.map Prod.snd⟩
    rw [hcutColumns, if_pos hone]
  · obtain ⟨parts, hparts, hall⟩ := exists_mapM (P := P) (l := runs)
      (f := fun n c => cut n (MinerU.between .x (sortAlong sorter .x boxes) c))
      (Q := fun c part => part.Perm
        ((MinerU.between .x (sortAlong sorter .x boxes) c).map Prod.snd)) fun c hc => by
        refine hcut _ (beginningIn_ne_nil hruns hsorted.lt hc) (hsorted.between c) ?_
        rw [← hperm.length_eq]
        exact length_beginningIn_lt hruns hsorted.lt hc hone
    refine ⟨parts.flatten, fun n hn => ?_, (flatten_perm hall).trans ?_⟩
    · rw [hcutColumns, if_neg hone, hparts n hn]
      rfl
    · exact ((flatMap_beginningIn hruns hsorted.lt).trans hperm).map Prod.snd

/-- What is read of the runs in front of an empty row and behind it. -/
theorem exists_above_below {runs : List (ℕ × ℕ)} {parts : List (List ι)} {k : ℕ}
    (hext : Extended boxes)
    (hruns : IsRuns (Covered (fun b => b.1.y0) (fun b => b.1.y1) boxes) runs)
    (hparts : List.Forall₂ (fun r part => part.Perm ((between .y boxes r).map Prod.snd)) runs parts)
    (hk : ∀ b ∈ boxes, ¬ (b.1.y0 ≤ k ∧ k < b.1.y1)) :
    ∃ above below, parts.flatten = above ++ below ∧
      above.Perm ((boxes.filter fun b => b.1.y1 ≤ k).map Prod.snd) ∧
      below.Perm ((boxes.filter fun b => k < b.1.y0).map Prod.snd) := by
  have hempty : ¬ Covered (fun b : XyBox × ι => b.1.y0) (fun b => b.1.y1) boxes k := by
    rintro ⟨b, hb, hin⟩
    exact hk b hb hin
  obtain ⟨front, back, rfl, hfront, hback⟩ :=
    exists_parted hruns (fun b hb => (hext b hb).2) hempty
  obtain ⟨above, below, habove, hbelow, rfl⟩ : ∃ above below,
      List.Forall₂ (fun r part => part.Perm ((between .y boxes r).map Prod.snd)) front above ∧
      List.Forall₂ (fun r part => part.Perm ((between .y boxes r).map Prod.snd)) back below ∧
      parts = above ++ below := by
    exact ⟨_, _, (List.forall₂_take_append parts front back hparts.flip).flip,
      (List.forall₂_drop_append parts front back hparts.flip).flip,
      (List.take_append_drop front.length parts).symm⟩
  exact ⟨above.flatten, below.flatten, List.flatten_append,
    (flatten_perm habove).trans (hfront.map Prod.snd),
    (flatten_perm hbelow).trans (hback.map Prod.snd)⟩

theorem ReadsInOrder.of_perm {boxes' : List (XyBox × ι)} {res : List ι} (hperm : boxes.Perm boxes')
    (h : ReadsInOrder boxes res) : ReadsInOrder boxes' res := by
  refine ⟨h.1.trans (hperm.map Prod.snd), fun k hk => ?_⟩
  obtain ⟨above, below, hres, habove, hbelow⟩ := h.2 k fun b hb => hk b (hperm.mem_iff.mp hb)
  exact ⟨above, below, hres, habove.trans ((hperm.filter _).map Prod.snd),
    hbelow.trans ((hperm.filter _).map Prod.snd)⟩

theorem exists_recursiveXyCut (sorter : Argsort) (hne : boxes ≠ []) (hext : Extended boxes) :
    ∃ res, (∀ fuel, boxes.length ≤ fuel → recursiveXyCut sorter fuel boxes = .ok res) ∧
      ReadsInOrder boxes res := by
  induction hn : boxes.length using Nat.strong_induction_on generalizing boxes with
  | _ n ih =>
      obtain ⟨hperm, hsorted, yProjection, runs, hproj, hsplit, hruns⟩ :=
        exists_sorted_runs sorter .y hne hext
      have hcut : ∀ fuel, recursiveXyCut sorter (fuel + 1) boxes =
          (runs.mapM fun r => cutColumns sorter (recursiveXyCut sorter fuel)
            (between .y (sortAlong sorter .y boxes) r)) >>= fun parts => .ok parts.flatten := by
        intro fuel
        simp only [recursiveXyCut, hproj, hsplit, zip_map_fst_snd, bind, Except.bind]
      obtain ⟨parts, hparts, hall⟩ := exists_mapM (P := fun fuel => n ≤ fuel + 1) (l := runs)
        (f := fun fuel r => cutColumns sorter (recursiveXyCut sorter fuel)
          (between .y (sortAlong sorter .y boxes) r))
        (Q := fun r part => part.Perm
          ((between .y (sortAlong sorter .y boxes) r).map Prod.snd)) fun r hr => by
          refine exists_cutColumns (beginningIn_ne_nil hruns hsorted.lt hr) (hsorted.between r) ?_
          intro part hpart hextended hlt
          have hle : part.length < n := by
            rw [← hn, ← hperm.length_eq]
            exact hlt.trans_le (List.length_filter_le _ _)
          obtain ⟨res, hres, hread⟩ := ih part.length hle hpart hextended rfl
          exact ⟨res, fun fuel hfuel => hres fuel (by omega), hread.1⟩
      refine ⟨parts.flatten, fun fuel hfuel => ?_, ReadsInOrder.of_perm hperm ⟨?_, ?_⟩⟩
      · obtain ⟨fuel, rfl⟩ : ∃ m, fuel = m + 1 := by
          refine Nat.exists_eq_succ_of_ne_zero ?_
          rintro rfl
          rw [← hn] at hfuel
          exact hne (List.length_eq_zero_iff.mp (Nat.le_zero.mp hfuel))
        rw [hcut, hparts fuel hfuel]
        rfl
      · exact (flatten_perm hall).trans ((flatMap_beginningIn hruns hsorted.lt).map Prod.snd)
      · exact fun k hk => exists_above_below hsorted hruns hall hk

/-- Nothing is lost of the blocks of a page, so that each of them gets its index. -/
theorem exists_calBlockIndex {shuffle : List XyBox → List XyBox}
    (hshuffle : ∀ l, (shuffle l).Perm l) {bboxes : List (ℤ × ℤ × ℤ × ℤ)} (hne : bboxes ≠ [])
    (hext : ∀ b ∈ bboxes.map clampBbox, b.x0 < b.x1 ∧ b.y0 < b.y1) :
    ∃ indices, calBlockIndex sorter shuffle bboxes = .ok indices := by
  have hperm := hshuffle (bboxes.map clampBbox)
  have hrandom : (shuffle (bboxes.map clampBbox)).zipIdx ≠ [] := by
    rw [ne_eq, List.zipIdx_eq_nil_iff]
    intro hnil
    rw [hnil, List.nil_perm] at hperm
    exact hne (List.map_eq_nil_iff.mp hperm)
  have hextended : Extended (shuffle (bboxes.map clampBbox)).zipIdx := fun b hb =>
    hext b.1 (hperm.mem_iff.mp (List.fst_mem_of_mem_zipIdx hb))
  obtain ⟨res, hres, hread, -⟩ := exists_recursiveXyCut sorter hrandom hextended
  rw [List.zipIdx_map_snd] at hread
  have hlength := hperm.length_eq
  have hcut := hres (bboxes.map clampBbox).length (by rw [List.length_zipIdx, hlength])
  have hsorted : (takeAt (shuffle (bboxes.map clampBbox)) res).Perm (bboxes.map clampBbox) := by
    have htake := hread.filterMap ((shuffle (bboxes.map clampBbox))[·]?)
    rw [← List.range_eq_range', filterMap_getElem?_range] at htake
    exact htake.trans hperm
  have hlen : ¬ res.length ≠ (bboxes.map clampBbox).length := by
    rw [hread.length_eq, List.length_range', hlength]
    exact not_not.mpr rfl
  simp only [calBlockIndex, hcut, bind, Except.bind, if_neg hlen]
  obtain ⟨indices, hindices, -⟩ := exists_mapM (P := fun _ : Unit => True) (Q := fun _ _ => True)
    (f := fun _ bbox => if bbox ∈ takeAt (shuffle (bboxes.map clampBbox)) res then
      Except.ok ((takeAt (shuffle (bboxes.map clampBbox)) res).idxOf bbox)
      else .error XyCutError.valueError) (l := bboxes.map clampBbox)
    fun bbox hbbox => ⟨_, fun _ _ => if_pos (hsorted.mem_iff.mpr hbbox), trivial⟩
  exact ⟨indices, hindices () trivial⟩

end Reading

/-- An `argsort` that is stable. -/
def stableArgsort : Argsort where
  argsort keys := (List.range keys.length).mergeSort fun i j => keys.getD i 0 ≤ keys.getD j 0
  perm _ := List.mergeSort_perm _ _
  sorted keys := by
    have hsorted := @List.pairwise_mergeSort _ (fun i j => keys.getD i 0 ≤ keys.getD j 0)
      (by simp only [decide_eq_true_eq]; exact fun _ _ _ => le_trans)
      (by simp only [Bool.or_eq_true, decide_eq_true_eq]; exact fun _ _ => le_total _ _)
      (List.range keys.length)
    exact List.pairwise_map.mpr (hsorted.imp of_decide_eq_true)

/-- Every list of boxes that is not empty is read in order, and the blocks of its boxes get their
indices. -/
theorem recursiveXyCut_reads {ι : Type} (sorter : Argsort) {boxes : List (XyBox × ι)}
    (hne : boxes ≠ []) (hext : Extended boxes) :
    (∃ res, (∀ fuel, boxes.length ≤ fuel → recursiveXyCut sorter fuel boxes = .ok res) ∧
      ReadsInOrder boxes res) ∧
    ∀ shuffle bboxes, (∀ l, (shuffle l).Perm l) → bboxes.map clampBbox = boxes.map Prod.fst →
      ∃ indices, calBlockIndex sorter shuffle bboxes = .ok indices := by
  refine ⟨exists_recursiveXyCut sorter hne hext, fun shuffle bboxes hshuffle hboxes => ?_⟩
  apply exists_calBlockIndex hshuffle
  · rintro rfl
    exact hne (List.map_eq_nil_iff.mp hboxes.symm)
  · rw [hboxes]
    intro b hb
    obtain ⟨c, hc, rfl⟩ := List.mem_map.mp hb
    exact hext c hc

/-- A line of text above two columns. -/
def lineAboveColumns : List (XyBox × ℕ) :=
  [(⟨60, 20, 90, 40⟩, 0), (⟨10, 20, 40, 50⟩, 1), (⟨10, 0, 90, 10⟩, 2)]

theorem recursiveXyCut_reads_lineAboveColumns :
    (∃ res, (∀ fuel, lineAboveColumns.length ≤ fuel →
        recursiveXyCut stableArgsort fuel lineAboveColumns = .ok res) ∧
      ReadsInOrder lineAboveColumns res) ∧
    ∀ shuffle bboxes, (∀ l, (shuffle l).Perm l) →
      bboxes.map clampBbox = lineAboveColumns.map Prod.fst →
      ∃ indices, calBlockIndex stableArgsort shuffle bboxes = .ok indices :=
  recursiveXyCut_reads stableArgsort (List.cons_ne_nil _ _) (by simp [Extended, lineAboveColumns])

/-- The cut of no boxes is an exception. -/
theorem not_recursiveXyCut_nil :
    ¬ ∀ (sorter : Argsort) (boxes : List (XyBox × ℕ)), Extended boxes →
      ∃ res, (∀ fuel, boxes.length ≤ fuel → recursiveXyCut sorter fuel boxes = .ok res) ∧
        ReadsInOrder boxes res := by
  intro h
  obtain ⟨res, hres, -⟩ := h stableArgsort [] (fun b hb => absurd hb List.not_mem_nil)
  have hnone : recursiveXyCut stableArgsort 1 ([] : List (XyBox × ℕ)) = .error .valueError := by
    have hsort : sortAlong stableArgsort .y ([] : List (XyBox × ℕ)) = [] :=
      List.perm_nil.mp (sortAlong_perm stableArgsort .y [])
    rw [recursiveXyCut, hsort]
    rfl
  rw [hres 1 (Nat.zero_le 1)] at hnone
  cases hnone

end RagflowMineru.MinerU
