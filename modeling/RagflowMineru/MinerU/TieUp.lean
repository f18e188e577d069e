import RagflowMineru.Library.Placement
import RagflowMineru.Library.Undominated
import RagflowMineru.MinerU.Boxes

/-!
# Tying captions and footnotes to bodies

`tie_up_category_by_index`: every object goes to the subject whose index is
nearest, other objects between the two not counted.  Two subjects, one on each
side, can be equally near; then distances on the page decide.  More than two
cannot, when no subject has the index of an object.
-/

namespace RagflowMineru.MinerU

open RagflowMineru.Library

/-- A block of a page.  The type is `none` in copies that are made without it. -/
structure VlmBlock (δ : Type*) where
  bbox : BBox ℚ
  type : Option BlockType := none
  angle : Option ℤ := none
  lines : δ
  index : ℕ
  deriving DecidableEq

/-- The types of blocks that consist of a body, captions and footnotes. -/
inductive FixType where
  | image | table | code
  deriving DecidableEq

inductive Part where
  | body | caption | footnote
  deriving DecidableEq

/-- `f"{block_type}_body"` and the like.  There is no block type `code_footnote`. -/
def FixType.part : FixType → Part → Option BlockType
  | .image, .body => some .imageBody
  | .image, .caption => some .imageCaption
  | .image, .footnote => some .imageFootnote
  | .table, .body => some .tableBody
  | .table, .caption => some .tableCaption
  | .table, .footnote => some .tableFootnote
  | .code, .body => some .codeBody
  | .code, .caption => some .codeCaption
  | .code, .footnote => none

variable {δ : Type}

/-- `reduct_overlap`: the blocks that lie in no other one. -/
def reductOverlap (bboxes : List (VlmBlock δ)) : List (VlmBlock δ) :=
  (bboxes.zipIdx.filter fun b =>
    bboxes.zipIdx.all fun c => b.2 = c.2 || !decide (b.1.bbox ≤ c.1.bbox)).map Prod.fst

/-- `calc_effective_index_diff`. -/
def calcEffectiveIndexDiff (objectIndices : List ℕ) (objIndex subIndex : ℕ) : ℕ :=
  if objIndex = subIndex then 0
  else
    let start := min objIndex subIndex
    let stop := max objIndex subIndex
    stop - start - (List.range' (start + 1) (stop - (start + 1))).countP (· ∈ objectIndices)

/-- The difference of an object to a subject, given with its position. -/
def indexDiff (objectIndices : List ℕ) (obj : VlmBlock δ) (s : VlmBlock δ × ℕ) : ℕ :=
  calcEffectiveIndexDiff objectIndices obj.index s.1.index

/-- A subject with its objects. -/
structure Tied (δ : Type*) where
  subBbox : VlmBlock δ
  objBboxes : List (VlmBlock δ) := []
  subIdx : ℕ

def Tied.attach (t : Tied δ) (obj : VlmBlock δ) : Tied δ :=
  { t with objBboxes := t.objBboxes ++ [obj] }

section

variable (sqrt : ℚ → ℚ) (objectBlockType : FixType × Part)

/-- The choice between two subjects, given with their positions, that are equally near. -/
def breakTie (obj : VlmBlock δ) (a b : VlmBlock δ × ℕ) : VlmBlock δ × ℕ :=
  let edge (s : VlmBlock δ × ℕ) := bboxDistance sqrt obj.bbox s.1.bbox
  let center (s : VlmBlock δ × ℕ) := bboxCenterDistance sqrt obj.bbox s.1.bbox
  if 2 < |edge a - edge b| then if edge b < edge a then b else a
  else if objectBlockType = (.table, .caption) then if a.1.index < b.1.index then b else a
  else if objectBlockType.2 = .footnote then if b.1.index < a.1.index then b else a
  else if center b < center a then b else a

/-- The position of the subject for an object; `none` when there are no subjects. -/
def bestSubjectIdx (subjects : List (VlmBlock δ)) (objectIndices : List ℕ) (obj : VlmBlock δ) :
    Except String (Option ℕ) :=
  match leastItems (indexDiff objectIndices obj) subjects.zipIdx with
  | none => .ok none
  | some (_, [best]) => .ok (some best.2)
  | some (_, [a, b]) => .ok (some (breakTie sqrt objectBlockType obj a b).2)
  | some _ => .error
      "More than two subjects have the same minimal index difference, which is unexpected."

/-- One turn of the loop over objects; `result` stands in the order of the subjects. -/
def tieObject (subjects : List (VlmBlock δ)) (objectIndices : List ℕ) (result : List (Tied δ))
    (obj : VlmBlock δ) : Except String (List (Tied δ)) := do
  match ← bestSubjectIdx sqrt objectBlockType subjects objectIndices obj with
  | none => pure result
  | some i => pure (result.modify i (·.attach obj))

/-- `tie_up_category_by_index`. -/
def tieUpCategoryByIndex (subjects objects : List (VlmBlock δ)) : Except String (List (Tied δ)) :=
  objects.foldlM (tieObject sqrt objectBlockType subjects (objects.map (·.index)))
    (subjects.zipIdx.map fun s => { subBbox := s.1, subIdx := s.2 })

end

/-! ## At most two subjects are nearest -/

theorem countP_range'_eq_card (p : ℕ → Bool) (a b : ℕ) :
    (List.range' (a + 1) (b - (a + 1))).countP p = ((Finset.Ioo a b).filter fun i => p i).card := by
  have hnodup : (List.range' (a + 1) (b - (a + 1))).Nodup := List.nodup_range'
  rw [List.countP_eq_length_filter, ← List.toFinset_card_of_nodup (hnodup.filter p)]
  congr 1
  ext i
  rw [List.mem_toFinset, List.mem_filter, List.mem_range'_1, Finset.mem_filter, Finset.mem_Ioo]
  apply and_congr_left
  intro _
  omega

theorem calcEffectiveIndexDiff_eq_gap (objectIndices : List ℕ) (a b : ℕ) :
    calcEffectiveIndexDiff objectIndices a b = gap (· ∈ objectIndices) a b := by
  rw [gap, stepsUp, ← countP_range'_eq_card]
  by_cases h : a = b
  · subst h
    simp [calcEffectiveIndexDiff]
  · rw [calcEffectiveIndexDiff, if_neg h]

section

variable (sqrt : ℚ → ℚ) (objectBlockType : FixType × Part) {subjects : List (VlmBlock δ)}
  {objectIndices : List ℕ} {obj : VlmBlock δ}

/-- Equally near subjects are two at most. -/
theorem length_nearest_le_two (hsubjects : (subjects.map (·.index)).Nodup)
    (hapart : ∀ s ∈ subjects, s.index ∉ objectIndices) (hobj : obj.index ∈ objectIndices)
    (least : ℕ) :
    (subjects.zipIdx.filter fun s => indexDiff objectIndices obj s = least).length ≤ 2 := by
  set near := subjects.zipIdx.filter fun s => indexDiff objectIndices obj s = least
  have hnodup : (near.map (·.1.index)).Nodup := by
    have heq : subjects.zipIdx.map (·.1.index) = subjects.map (·.index) := by
      rw [← List.zipIdx_map_fst 0 subjects, List.map_map, List.zipIdx_map_fst]
      rfl
    rw [← heq] at hsubjects
    exact hsubjects.sublist (List.filter_sublist.map _)
  have hle := length_le_two_of_gap_eq (· ∈ objectIndices) (a := obj.index) (m := least)
    (decide_eq_true hobj) hnodup ?_ ?_
  · rwa [List.length_map] at hle
  · intro b hb
    obtain ⟨s, hs, rfl⟩ := List.mem_map.mp hb
    exact decide_eq_false (hapart s.1 (List.fst_mem_of_mem_zipIdx (List.mem_of_mem_filter hs)))
  · intro b hb
    obtain ⟨s, hs, rfl⟩ := List.mem_map.mp hb
    rw [← calcEffectiveIndexDiff_eq_gap]
    exact of_decide_eq_true (List.mem_filter.mp hs).2

theorem breakTie_eq_or (obj : VlmBlock δ) (a b : VlmBlock δ × ℕ) :
    breakTie sqrt objectBlockType obj a b = a ∨ breakTie sqrt objectBlockType obj a b = b := by
  rw [breakTie]
  split_ifs <;> simp

/-- Every object finds its subject. -/
theorem bestSubjectIdx_ok (hsubjects : (subjects.map (·.index)).Nodup)
    (hapart : ∀ s ∈ subjects, s.index ∉ objectIndices) (hobj : obj.index ∈ objectIndices)
    (hnil : subjects ≠ []) :
    ∃ i < subjects.length,
      bestSubjectIdx sqrt objectBlockType subjects objectIndices obj = .ok (some i) := by
  have hzip : subjects.zipIdx ≠ [] := by
    rw [Ne, List.zipIdx_eq_nil_iff]
    exact hnil
  obtain ⟨least, heq, ⟨s, hs, hleast⟩, -⟩ :=
    leastItems_spec (indexDiff objectIndices obj) hzip
  have htwo := length_nearest_le_two hsubjects hapart hobj least
  have hin : s ∈ subjects.zipIdx.filter fun s => indexDiff objectIndices obj s = least :=
    List.mem_filter.mpr ⟨hs, decide_eq_true hleast⟩
  have hpos : ∀ t ∈ subjects.zipIdx.filter fun s => indexDiff objectIndices obj s = least,
      t.2 < subjects.length := by
    intro t ht
    exact List.snd_lt_of_mem_zipIdx (List.mem_of_mem_filter ht)
  rw [bestSubjectIdx, heq]
  rcases hnear : subjects.zipIdx.filter fun s => indexDiff objectIndices obj s = least with
    - | ⟨a, - | ⟨b, - | rest⟩⟩
  · rw [hnear] at hin
    exact absurd hin List.not_mem_nil
  · rw [hnear] at hpos
    exact ⟨a.2, hpos a List.mem_cons_self, rfl⟩
  · rw [hnear] at hpos
    refine ⟨(breakTie sqrt objectBlockType obj a b).2, ?_, rfl⟩
    rcases breakTie_eq_or sqrt objectBlockType obj a b with h | h
    · rw [h]
      exact hpos a List.mem_cons_self
    · rw [h]
      exact hpos b (List.mem_cons_of_mem a List.mem_cons_self)
  · rw [hnear] at htwo
    simp at htwo

end

/-! ## Tying loses nothing -/

section

variable (sqrt : ℚ → ℚ) (objectBlockType : FixType × Part) {subjects : List (VlmBlock δ)}
  {objectIndices : List ℕ}

/-- What tying keeps: the subjects, in their order and with their positions. -/
def StandsFor (subjects : List (VlmBlock δ)) (result : List (Tied δ)) : Prop :=
  result.map (fun t => (t.subBbox, t.subIdx)) = subjects.zipIdx

theorem StandsFor.length_eq {result : List (Tied δ)} (h : StandsFor subjects result) :
    result.length = subjects.length := by
  have hlen := congrArg List.length h
  rwa [List.length_map, List.length_zipIdx] at hlen

theorem StandsFor.attach {result : List (Tied δ)} (h : StandsFor subjects result) (i : ℕ)
    (obj : VlmBlock δ) : StandsFor subjects (result.modify i (·.attach obj)) :=
  (map_modify_of_eq _ (Tied.attach · obj) (fun _ => rfl) result i).trans h

/-- Objects are placed one by one. -/
theorem foldlM_tieObject_ok (hsubjects : (subjects.map (·.index)).Nodup)
    (hapart : ∀ s ∈ subjects, s.index ∉ objectIndices) (hnil : subjects ≠ [])
    {objects : List (VlmBlock δ)} (hobjects : ∀ o ∈ objects, o.index ∈ objectIndices)
    {result : List (Tied δ)} (h : StandsFor subjects result) :
    ∃ ret, objects.foldlM (tieObject sqrt objectBlockType subjects objectIndices) result = .ok ret ∧
      StandsFor subjects ret ∧
      (ret.flatMap (·.objBboxes)).Perm (result.flatMap (·.objBboxes) ++ objects) := by
  induction objects generalizing result with
  | nil => exact ⟨result, rfl, h, by simp⟩
  | cons obj objects ih =>
      obtain ⟨i, hi, hbest⟩ := bestSubjectIdx_ok sqrt objectBlockType hsubjects
        hapart (hobjects obj List.mem_cons_self) hnil
      obtain ⟨ret, hret, hstands, hperm⟩ := ih
        (fun o ho => hobjects o (List.mem_cons_of_mem obj ho)) (h.attach i obj)
      refine ⟨ret, ?_, hstands, ?_⟩
      · rw [List.foldlM_cons, tieObject, hbest]
        exact hret
      · have hplace := flatMap_modify_perm (fun t : Tied δ => t.objBboxes)
          (f := (·.attach obj)) (a := obj) (fun _ => rfl) (h.length_eq.symm ▸ hi)
        refine hperm.trans ((hplace.append_right objects).trans ?_)
        rw [List.append_assoc]
        rfl

theorem foldlM_tieObject_nil (objects : List (VlmBlock δ)) :
    objects.foldlM (tieObject sqrt objectBlockType [] objectIndices) [] = .ok [] := by
  induction objects with
  | nil => rfl
  | cons obj objects ih =>
      rw [List.foldlM_cons]
      exact ih

/-- Tying does not fail, keeps the subjects, and if there are any gives each object to one. -/
theorem tieUpCategoryByIndex_ok {objects : List (VlmBlock δ)}
    (hsubjects : (subjects.map (·.index)).Nodup)
    (hapart : ∀ s ∈ subjects, s.index ∉ objects.map (·.index)) :
    ∃ ret, tieUpCategoryByIndex sqrt objectBlockType subjects objects = .ok ret ∧
      StandsFor subjects ret ∧
      (ret.flatMap (·.objBboxes)).Perm (if subjects = [] then [] else objects) := by
  have hstart : StandsFor subjects
      (subjects.zipIdx.map fun s => ({ subBbox := s.1, subIdx := s.2 } : Tied δ)) := by
    rw [StandsFor, List.map_map]
    exact List.map_id _
  by_cases hnil : subjects = []
  · subst hnil
    exact ⟨[], foldlM_tieObject_nil sqrt objectBlockType objects, hstart, by simp⟩
  · obtain ⟨ret, hret, hstands, hperm⟩ := foldlM_tieObject_ok sqrt objectBlockType
      hsubjects hapart hnil (fun o ho => List.mem_map_of_mem ho) hstart
    refine ⟨ret, hret, hstands, ?_⟩
    rw [if_neg hnil]
    have hempty : (subjects.zipIdx.map fun s =>
        ({ subBbox := s.1, subIdx := s.2 } : Tied δ)).flatMap (·.objBboxes) = [] := by
      rw [List.flatMap_map, List.flatMap_eq_nil_iff]
      exact fun _ _ => rfl
    rwa [hempty] at hperm

end

/-! ## Every object goes to a nearest subject -/

section

variable (sqrt : ℚ → ℚ) (objectBlockType : FixType × Part) {subjects : List (VlmBlock δ)}
  {objectIndices : List ℕ}

/-- No subject is nearer to the object than `sub`. -/
def IsNearest (subjects : List (VlmBlock δ)) (objectIndices : List ℕ) (obj sub : VlmBlock δ) :
    Prop :=
  ∀ s ∈ subjects, calcEffectiveIndexDiff objectIndices obj.index sub.index ≤
    calcEffectiveIndexDiff objectIndices obj.index s.index

/-- Every object stands with a nearest subject. -/
def AllNearest (subjects : List (VlmBlock δ)) (objectIndices : List ℕ) (result : List (Tied δ)) :
    Prop :=
  ∀ t ∈ result, ∀ obj ∈ t.objBboxes, IsNearest subjects objectIndices obj t.subBbox

theorem bestSubjectIdx_isNearest {obj : VlmBlock δ} {i : ℕ}
    (h : bestSubjectIdx sqrt objectBlockType subjects objectIndices obj = .ok (some i)) :
    ∃ s, (s, i) ∈ subjects.zipIdx ∧ IsNearest subjects objectIndices obj s := by
  have hzip : subjects.zipIdx ≠ [] := by
    intro hnil
    rw [bestSubjectIdx, hnil] at h
    cases h
  obtain ⟨least, heq, -, hle⟩ := leastItems_spec (indexDiff objectIndices obj) hzip
  set near := subjects.zipIdx.filter fun s => indexDiff objectIndices obj s = least with hnear
  have hmem : ∀ s ∈ near, s ∈ subjects.zipIdx ∧ IsNearest subjects objectIndices obj s.1 := by
    intro s hs
    rw [hnear, List.mem_filter, decide_eq_true_eq] at hs
    refine ⟨hs.1, fun t ht => ?_⟩
    obtain ⟨j, hj⟩ := List.getElem?_of_mem ht
    exact hs.2.trans_le (hle (t, j) (List.mk_mem_zipIdx_iff_getElem?.2 hj))
  rw [bestSubjectIdx, heq] at h
  rcases near with - | ⟨a, - | ⟨b, - | ⟨c, rest⟩⟩⟩
  · cases h
  · cases h
    exact ⟨a.1, hmem a (by simp)⟩
  · cases h
    have hbest : breakTie sqrt objectBlockType obj a b ∈ [a, b] := by
      rcases breakTie_eq_or sqrt objectBlockType obj a b with hab | hab
      · rw [hab]
        exact List.mem_cons_self
      · rw [hab]
        exact List.mem_cons_of_mem a List.mem_cons_self
    exact ⟨_, hmem _ hbest⟩
  · cases h

/-- One turn of the loop over objects. -/
theorem tieObject_allNearest {result result' : List (Tied δ)} {obj : VlmBlock δ}
    (hstands : StandsFor subjects result) (h : AllNearest subjects objectIndices result)
    (hstep : tieObject sqrt objectBlockType subjects objectIndices result obj = .ok result') :
    StandsFor subjects result' ∧ AllNearest subjects objectIndices result' := by
  rw [tieObject] at hstep
  cases hbest : bestSubjectIdx sqrt objectBlockType subjects objectIndices obj with
  | error message =>
    rw [hbest] at hstep
    cases hstep
  | ok best =>
    rw [hbest] at hstep
    cases best with
    | none =>
      cases hstep
      exact ⟨hstands, h⟩
    | some i =>
      cases hstep
      refine ⟨hstands.attach i obj, fun t ht o ho => ?_⟩
      obtain ⟨j, hj, rfl⟩ := List.mem_iff_getElem.1 ht
      rw [List.getElem_modify] at ho ⊢
      rw [List.length_modify] at hj
      have hold := h result[j] (List.getElem_mem hj)
      split at ho
      · next hij =>
        rw [if_pos hij]
        rcases List.mem_append.1 ho with ho | ho
        · exact hold o ho
        · rw [List.mem_singleton.1 ho]
          subst hij
          obtain ⟨s, hs, hnearest⟩ := bestSubjectIdx_isNearest sqrt objectBlockType hbest
          have hsub : subjects.zipIdx[i]? = some (result[i].subBbox, result[i].subIdx) := by
            rw [← hstands, List.getElem?_map, List.getElem?_eq_getElem hj, Option.map_some]
          have hpos : subjects[i]? = some result[i].subBbox := by
            rw [List.getElem?_zipIdx] at hsub
            obtain ⟨x, hx, hpair⟩ := Option.map_eq_some_iff.1 hsub
            rw [hx, (Prod.mk.inj hpair).1]
          have hsame : s = result[i].subBbox :=
            Option.some.inj ((List.mk_mem_zipIdx_iff_getElem?.1 hs).symm.trans hpos)
          rw [Tied.attach, ← hsame]
          exact hnearest
      · next hij =>
        rw [if_neg hij]
        exact hold o ho

theorem foldlM_tieObject_allNearest {objects : List (VlmBlock δ)} {result ret : List (Tied δ)}
    (hstands : StandsFor subjects result) (h : AllNearest subjects objectIndices result)
    (hret : objects.foldlM (tieObject sqrt objectBlockType subjects objectIndices) result =
      .ok ret) : AllNearest subjects objectIndices ret := by
  induction objects generalizing result with
  | nil =>
    cases hret
    exact h
  | cons obj objects ih =>
    rw [List.foldlM_cons] at hret
    cases hstep : tieObject sqrt objectBlockType subjects objectIndices result obj with
    | error message =>
      rw [hstep] at hret
      cases hret
    | ok result' =>
      rw [hstep] at hret
      obtain ⟨hstands', h'⟩ := tieObject_allNearest sqrt objectBlockType hstands h hstep
      exact ih hstands' h' hret

/-- Entries of different subjects share no object. -/
theorem eq_of_mem_objBboxes {ret : List (Tied δ)} (hnodup : (ret.flatMap (·.objBboxes)).Nodup)
    {obj : VlmBlock δ} {t t' : Tied δ} (ht : t ∈ ret) (hobj : obj ∈ t.objBboxes) (ht' : t' ∈ ret)
    (hobj' : obj ∈ t'.objBboxes) : t = t' := by
  by_contra hne
  have hsymm : Std.Symm (Function.onFun List.Disjoint fun x : Tied δ => x.objBboxes) :=
    ⟨fun _ _ hxy => hxy.symm⟩
  have hdisjoint : t.objBboxes.Disjoint t'.objBboxes :=
    (List.nodup_flatMap.1 hnodup).2.forall ht ht' hne
  exact hdisjoint hobj hobj'

/-- With different indices everywhere, every object goes to one subject, a nearest one. -/
theorem tieUpCategoryByIndex_nearest {objects : List (VlmBlock δ)}
    (h : ((subjects ++ objects).map (·.index)).Nodup) :
    (∀ obj ∈ objects, ∀ least, (subjects.zipIdx.filter fun s =>
      indexDiff (objects.map (·.index)) obj s = least).length ≤ 2) ∧
    ∃ ret, tieUpCategoryByIndex sqrt objectBlockType subjects objects = .ok ret ∧
      StandsFor subjects ret ∧
      (ret.flatMap (·.objBboxes)).Perm (if subjects = [] then [] else objects) ∧
      (subjects ≠ [] → ∀ obj ∈ objects, ∃! t, t ∈ ret ∧ obj ∈ t.objBboxes) ∧
      AllNearest subjects (objects.map (·.index)) ret := by
  rw [List.map_append, List.nodup_append] at h
  obtain ⟨hsubjects, hobjects, hne⟩ := h
  have hapart : ∀ s ∈ subjects, s.index ∉ objects.map (·.index) :=
    fun s hs hmem => hne s.index (List.mem_map_of_mem hs) s.index hmem rfl
  obtain ⟨ret, hret, hstands, hperm⟩ :=
    tieUpCategoryByIndex_ok sqrt objectBlockType hsubjects hapart
  refine ⟨fun obj hobj => length_nearest_le_two hsubjects hapart (List.mem_map_of_mem hobj),
    ret, hret, hstands, hperm, ?_, ?_⟩
  · intro hnil obj hobj
    rw [if_neg hnil] at hperm
    have hnodup : (ret.flatMap (·.objBboxes)).Nodup :=
      hperm.nodup_iff.2 (List.Nodup.of_map _ hobjects)
    obtain ⟨t, ht, hmem⟩ := List.mem_flatMap.1 (hperm.mem_iff.2 hobj)
    refine ⟨t, ⟨ht, hmem⟩, fun t' ht' => ?_⟩
    exact eq_of_mem_objBboxes hnodup ht'.1 ht'.2 ht hmem
  · refine foldlM_tieObject_allNearest sqrt objectBlockType ?_ ?_ hret
    · rw [StandsFor, List.map_map]
      exact List.map_id _
    · intro t ht obj hobj
      obtain ⟨s, -, rfl⟩ := List.mem_map.1 ht
      exact absurd hobj List.not_mem_nil

end

section

/-- The square root of a whole number, rounded down. -/
private def floorSqrt (x : ℚ) : ℚ := Nat.sqrt x.num.toNat

private def figure : VlmBlock Unit := ⟨⟨0, 0, 10, 10⟩, none, none, (), 0⟩

private def figureCaption : VlmBlock Unit := ⟨⟨0, 11, 10, 13⟩, none, none, (), 1⟩

theorem tieUpCategoryByIndex_nearest_figure :
    (∀ obj ∈ [figureCaption], ∀ least, ([figure].zipIdx.filter fun s =>
      indexDiff ([figureCaption].map (·.index)) obj s = least).length ≤ 2) ∧
    ∃ ret, tieUpCategoryByIndex floorSqrt (.image, .caption) [figure] [figureCaption] = .ok ret ∧
      StandsFor [figure] ret ∧
      (ret.flatMap (·.objBboxes)).Perm (if [figure] = [] then [] else [figureCaption]) ∧
      ([figure] ≠ [] → ∀ obj ∈ [figureCaption], ∃! t, t ∈ ret ∧ obj ∈ t.objBboxes) ∧
      AllNearest [figure] ([figureCaption].map (·.index)) ret :=
  tieUpCategoryByIndex_nearest floorSqrt (.image, .caption) (by decide)

end

/-! ## Overlapping blocks -/

section

variable (bboxes : List (VlmBlock δ))

/-- The blocks that `reduct_overlap` keeps, with their positions. -/
def keptBlocks : List (VlmBlock δ × ℕ) := undominated VlmBlock.bbox bboxes

theorem reductOverlap_eq : reductOverlap bboxes = (keptBlocks bboxes).map Prod.fst := rfl

/-- What is to be left: a block around each one that is removed, and no block in another one. -/
structure Reduced : Prop where
  around : ∀ b ∈ bboxes.zipIdx, b ∉ keptBlocks bboxes →
    ∃ c ∈ reductOverlap bboxes, b.1.bbox ≤ c.bbox
  nonempty : bboxes ≠ [] → reductOverlap bboxes ≠ []
  apart : ∀ b ∈ keptBlocks bboxes, ∀ c ∈ bboxes.zipIdx, b.2 ≠ c.2 → ¬ b.1.bbox ≤ c.1.bbox

/-- A box that two blocks share lies strictly in the box of a third one. -/
def SharedInside : Prop :=
  ∀ b ∈ bboxes.zipIdx, ∀ c ∈ bboxes.zipIdx, b.2 ≠ c.2 → b.1.bbox = c.1.bbox →
    ∃ d ∈ bboxes, b.1.bbox < d.bbox

/-- Blocks with one and the same box remove each other. -/
theorem reduced_iff : Reduced bboxes ↔ SharedInside bboxes := by
  have hremoved : (∀ b ∈ bboxes.zipIdx, b ∉ keptBlocks bboxes →
      ∃ c ∈ reductOverlap bboxes, b.1.bbox ≤ c.bbox) ↔ SharedInside bboxes := by
    simp only [reductOverlap_eq, List.mem_map, exists_exists_and_eq_and]
    exact removed_le_iff
  constructor
  · exact fun h => hremoved.1 h.around
  · intro h
    refine ⟨hremoved.2 h, ?_, fun b hb => (mem_undominated.1 hb).2⟩
    intro hne
    obtain ⟨b, hb⟩ := List.exists_mem_of_ne_nil bboxes hne
    obtain ⟨d, hd, -⟩ := exists_undominated_ge h hb
    rw [reductOverlap_eq]
    exact List.ne_nil_of_mem (List.mem_map_of_mem hd)

end

theorem not_reduced_twins : ¬ ∀ bboxes : List (VlmBlock Unit), Reduced bboxes := by
  intro h
  refine (h [⟨⟨0, 0, 10, 10⟩, none, none, (), 0⟩, ⟨⟨0, 0, 10, 10⟩, none, none, (), 1⟩]).nonempty
    (List.cons_ne_nil _ _) ?_
  decide

end RagflowMineru.MinerU
