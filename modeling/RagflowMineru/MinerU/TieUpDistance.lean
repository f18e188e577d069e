import Mathlib.Data.List.MinMax
import RagflowMineru.Library.Placement
import RagflowMineru.Library.Rounds
import RagflowMineru.MinerU.Overlaps

/-!
# Tying captions and footnotes to bodies by distance

`tie_up_category_by_distance_v3`: in rounds, from the top left to the bottom right,
a subject and an object near it are taken for a pair, unless another subject is much
nearer to the object; then the subject is only marked as seen.  The objects that are
left go to the nearest subject, and the subjects that are left stand alone.  Subjects
and objects share one set of seen positions, in which the objects begin at 10000.
-/

namespace RagflowMineru.MinerU

open RagflowMineru.Library

/-- `OBJ_IDX_OFFSET`. -/
def objIdxOffset : ℕ := 10000

/-- `SUB_BIT_KIND` and `OBJ_BIT_KIND`. -/
inductive BitKind where
  | sub | obj
  deriving DecidableEq

/-- An entry of `all_boxes_with_idx`. -/
structure BoxWithIdx where
  idx : ℕ
  kind : BitKind
  x0 : ℚ
  y0 : ℚ

variable {δ : Type*}

/-- A subject with its objects. -/
structure TiedByDistance (δ : Type*) where
  subBbox : LayoutBlock δ
  objBboxes : List (LayoutBlock δ)
  subIdx : ℕ

/-- `ret`, `seen_idx` and `seen_sub_idx`. -/
structure TieState (δ : Type*) where
  ret : List (TiedByDistance δ)
  seenIdx : Finset ℕ
  seenSubIdx : Finset ℕ

/-- `l.sort(key=key)`. -/
def sortBy {α : Type*} (key : α → ℚ) (l : List α) : List α :=
  l.mergeSort fun a b => decide (key a ≤ key b)

/-- The distance of a block from the origin, squared. -/
def originKey (b : LayoutBlock δ) : ℚ := b.bbox.x0 ^ 2 + b.bbox.y0 ^ 2

section

variable (sqrt : ℚ → ℚ) (subjects objects : List (LayoutBlock δ))

def allBoxesWithIdx : List BoxWithIdx :=
  (subjects.zipIdx.map fun s => ⟨s.2, .sub, s.1.bbox.x0, s.1.bbox.y0⟩) ++
    objects.zipIdx.map fun o => ⟨o.2 + objIdxOffset, .obj, o.1.bbox.x0, o.1.bbox.y0⟩

/-- The box at a position; all positions that are looked up exist. -/
def boxAt (blocks : List (LayoutBlock δ)) (i : ℕ) : BBox ℚ :=
  match blocks[i]? with
  | some b => b.bbox
  | none => ⟨0, 0, 0, 0⟩

/-- `subjects[idx]['bbox']` or `objects[idx - OBJ_IDX_OFFSET]['bbox']`. -/
def candidateBbox (c : BoxWithIdx) : BBox ℚ :=
  match c.kind with
  | .sub => boxAt subjects c.idx
  | .obj => boxAt objects (c.idx - objIdxOffset)

def candidates (seenIdx : Finset ℕ) : List BoxWithIdx :=
  (allBoxesWithIdx subjects objects).filter fun c => c.idx ∉ seenIdx

/-- The candidates, those near the top left corner of all of them first. -/
def fromCorner (candidates : List BoxWithIdx) : List BoxWithIdx :=
  let leftX := (candidates.map (·.x0)).min?.getD 0
  let topY := (candidates.map (·.y0)).min?.getD 0
  sortBy (fun c => (c.x0 - leftX) ^ 2 + (c.y0 - topY) ^ 2) candidates

/-- `sub_idx` and `obj_idx` of a round; `none` where the loop breaks. -/
def nextPair (seenIdx : Finset ℕ) : Option (ℕ × ℕ) :=
  match fromCorner (candidates subjects objects seenIdx) with
  | [] => none
  | fst :: rest =>
      let byDistance := sortBy (fun c => bboxDistance sqrt (candidateBbox subjects objects fst)
        (candidateBbox subjects objects c)) (fst :: rest)
      match byDistance.tail.find? fun c => c.kind ≠ fst.kind with
      | none => none
      | some nxt =>
          match fst.kind with
          | .sub => some (fst.idx, nxt.idx - objIdxOffset)
          | .obj => some (nxt.idx, fst.idx - objIdxOffset)

/-- `pair_dis >= 3 * nearest_dis`. -/
def tooFar (subIdx objIdx : ℕ) : Bool :=
  let pairDis := bboxDistance sqrt (boxAt subjects subIdx) (boxAt objects objIdx)
  match (subjects.map fun s => bboxDistance sqrt s.bbox (boxAt objects objIdx)).min? with
  | none => false
  | some nearestDis => 3 * nearestDis ≤ pairDis

/-- A new entry of `ret`. -/
def entry (subIdx : ℕ) (objBboxes : List (LayoutBlock δ)) : List (TiedByDistance δ) :=
  match subjects[subIdx]? with
  | some sub => [⟨sub, objBboxes, subIdx⟩]
  | none => []

/-- One round of the `while` loop; `none` where it ends. -/
def pairRound (s : TieState δ) : Option (TieState δ) :=
  if s.seenSubIdx.card < subjects.length then
    (nextPair sqrt subjects objects s.seenIdx).map fun (subIdx, objIdx) =>
      if tooFar sqrt subjects objects subIdx objIdx then
        { s with seenIdx := insert subIdx s.seenIdx }
      else
        { ret := s.ret ++ entry subjects subIdx objects[objIdx]?.toList
          seenIdx := insert (objIdx + objIdxOffset) (insert subIdx s.seenIdx)
          seenSubIdx := insert subIdx s.seenSubIdx }
  else none

/-- One turn of the scan for the subject with the least distance. -/
def nearerSub (obj : LayoutBlock δ) (nearest : Option (ℚ × ℕ)) (s : LayoutBlock δ × ℕ) :
    Option (ℚ × ℕ) :=
  let dis := bboxDistance sqrt obj.bbox s.1.bbox
  match nearest with
  | none => some (dis, s.2)
  | some (nearestDis, k) => if dis < nearestDis then some (dis, s.2) else some (nearestDis, k)

/-- `nearest_dis` and `nearest_sub_idx`. -/
def nearestSubIdx (obj : LayoutBlock δ) : Option (ℚ × ℕ) :=
  subjects.zipIdx.foldl (nearerSub sqrt obj) none

def TiedByDistance.attach (obj : LayoutBlock δ) (t : TiedByDistance δ) : TiedByDistance δ :=
  { t with objBboxes := t.objBboxes ++ [obj] }

/-- The loop over the objects that are left: one turn, for an object and its position. -/
def attachObject (s : TieState δ) (o : LayoutBlock δ × ℕ) : TieState δ :=
  let j := o.2 + objIdxOffset
  if j ∈ s.seenIdx then s
  else
    match nearestSubIdx sqrt subjects o.1 with
    | none => { s with seenIdx := insert j s.seenIdx }
    | some (_, k) =>
        { ret :=
            if k ∈ s.seenSubIdx then
              s.ret.modify (s.ret.findIdx fun t => t.subIdx = k) (TiedByDistance.attach o.1)
            else s.ret ++ entry subjects k [o.1]
          seenIdx := insert k (insert j s.seenIdx)
          seenSubIdx := insert k s.seenSubIdx }

/-- The loop over the subjects that are left. -/
def addSubjects (s : TieState δ) : List (TiedByDistance δ) :=
  s.ret ++ (subjects.zipIdx.filter fun sub => sub.2 ∉ s.seenSubIdx).map fun sub =>
    ⟨sub.1, [], sub.2⟩

end

/-- `tie_up_category_by_distance_v3`, with fuel for the `while` loop. -/
def tieUpCategoryByDistanceV3 (sqrt : ℚ → ℚ) (fuel : ℕ) (subjects objects : List (LayoutBlock δ)) :
    Option (List (TiedByDistance δ)) :=
  let subjects := sortBy originKey subjects
  let objects := sortBy originKey objects
  (rounds (pairRound sqrt subjects objects) fuel ⟨[], ∅, ∅⟩).map fun s =>
    addSubjects subjects (objects.zipIdx.foldl (attachObject sqrt subjects) s)

/-! ## What the states keep -/

/-- The subjects in the entries, with their positions. -/
def TieState.places (s : TieState δ) : List (ℕ × LayoutBlock δ) :=
  s.ret.map fun t => (t.subIdx, t.subBbox)

/-- The objects that were seen. -/
def seenObjects (objects : List (LayoutBlock δ)) (seenIdx : Finset ℕ) : Finset ℕ :=
  (Finset.range objects.length).filter fun o => o + objIdxOffset ∈ seenIdx

/-- One entry for every subject that was paired, and in them the objects that were seen. -/
structure TieState.Valid (subjects objects : List (LayoutBlock δ)) (s : TieState δ) : Prop where
  subs : ∀ p ∈ s.places, subjects[p.1]? = some p.2
  nodup : (s.places.map Prod.fst).Nodup
  seenSub : ∀ k, k ∈ s.seenSubIdx ↔ k ∈ s.places.map Prod.fst
  seen : s.seenSubIdx ⊆ s.seenIdx
  objs : subjects ≠ [] → (((s.ret.flatMap (·.objBboxes)).map some : List _) : Multiset _) =
    (seenObjects objects s.seenIdx).val.map (objects[·]?)

section

variable {subjects objects : List (LayoutBlock δ)} {s : TieState δ} {k o : ℕ}
  {sub obj : LayoutBlock δ}

theorem lt_length_of_getElem?_eq {α : Type*} {l : List α} {i : ℕ} {x : α} (h : l[i]? = some x) :
    i < l.length :=
  (List.getElem?_eq_some_iff.1 h).1

theorem entry_of_getElem? (hsub : subjects[k]? = some sub) (objBboxes : List (LayoutBlock δ)) :
    entry subjects k objBboxes = [⟨sub, objBboxes, k⟩] := by
  rw [entry, hsub]

/-- Seeing a subject is seeing no object. -/
theorem seenObjects_insert_sub (hk : k < objIdxOffset) (seenIdx : Finset ℕ) :
    seenObjects objects (insert k seenIdx) = seenObjects objects seenIdx := by
  refine Finset.filter_congr fun i _ => ?_
  rw [Finset.mem_insert]
  exact or_iff_right (by omega)

theorem seenObjects_insert_obj (hobj : objects[o]? = some obj) (seenIdx : Finset ℕ) :
    seenObjects objects (insert (o + objIdxOffset) seenIdx) =
      insert o (seenObjects objects seenIdx) := by
  have ho := lt_length_of_getElem?_eq hobj
  ext i
  simp only [seenObjects, Finset.mem_filter, Finset.mem_range, Finset.mem_insert,
    Nat.add_right_cancel_iff]
  constructor
  · rintro ⟨hi, rfl | hseen⟩
    · exact Or.inl rfl
    · exact Or.inr ⟨hi, hseen⟩
  · rintro (rfl | ⟨hi, hseen⟩)
    · exact ⟨ho, Or.inl rfl⟩
    · exact ⟨hi, Or.inr hseen⟩

theorem notMem_seenObjects {seenIdx : Finset ℕ} (ho : o + objIdxOffset ∉ seenIdx) :
    o ∉ seenObjects objects seenIdx :=
  fun hmem => ho (Finset.mem_filter.1 hmem).2

/-- One more object in the entries and among the seen ones. -/
theorem objs_step {before after : List (LayoutBlock δ)} {seen : Finset ℕ}
    (h : ((before.map some : List _) : Multiset _) = seen.val.map (objects[·]?))
    (hobj : objects[o]? = some obj) (ho : o ∉ seen) (hperm : after.Perm (before ++ [obj])) :
    ((after.map some : List _) : Multiset _) = (insert o seen).val.map (objects[·]?) := by
  have hafter : ((after.map some : List _) : Multiset _) = some obj ::ₘ (before.map some : List _) := by
    rw [Multiset.cons_coe, Multiset.coe_eq_coe]
    refine (hperm.map some).trans ?_
    rw [List.map_append]
    exact List.perm_append_comm
  rw [hafter, h, Finset.insert_val_of_notMem ho, Multiset.map_cons, hobj]

namespace TieState.Valid

variable (h : s.Valid subjects objects) (hN : subjects.length ≤ objIdxOffset)

include h hN

theorem see (hsub : subjects[k]? = some sub) :
    TieState.Valid subjects objects { s with seenIdx := insert k s.seenIdx } where
  subs := h.subs
  nodup := h.nodup
  seenSub := h.seenSub
  seen := h.seen.trans (Finset.subset_insert k s.seenIdx)
  objs := by
    rw [seenObjects_insert_sub ((lt_length_of_getElem?_eq hsub).trans_le hN)]
    exact h.objs

/-- An object that was not seen is recorded beside a subject, wherever it is put. -/
theorem objs_insert (hsub : subjects[k]? = some sub) (hobj : objects[o]? = some obj)
    (ho : o + objIdxOffset ∉ s.seenIdx) (hne : subjects ≠ []) {after : List (LayoutBlock δ)}
    (hperm : after.Perm (s.ret.flatMap (·.objBboxes) ++ [obj])) :
    ((after.map some : List _) : Multiset _) =
      (seenObjects objects (insert (o + objIdxOffset) (insert k s.seenIdx))).val.map
        (objects[·]?) := by
  have hk' : k < objIdxOffset := (lt_length_of_getElem?_eq hsub).trans_le hN
  rw [seenObjects_insert_obj hobj]
  refine objs_step ((h.see hN hsub).objs hne) hobj ?_ hperm
  rw [seenObjects_insert_sub hk']
  exact notMem_seenObjects ho

/-- A subject that was not paired gets an entry with an object that was not seen. -/
theorem pair (hsub : subjects[k]? = some sub) (hobj : objects[o]? = some obj)
    (hk : k ∉ s.seenSubIdx) (ho : o + objIdxOffset ∉ s.seenIdx) :
    TieState.Valid subjects objects
      ⟨s.ret ++ [⟨sub, [obj], k⟩], insert (o + objIdxOffset) (insert k s.seenIdx),
        insert k s.seenSubIdx⟩ where
  subs := by
    intro p hp
    rw [places, List.map_append] at hp
    rcases List.mem_append.1 hp with hp | hp
    · exact h.subs p hp
    · rw [List.mem_singleton.1 hp]
      exact hsub
  nodup := by
    rw [places, List.map_append, List.map_append]
    refine h.nodup.append (List.nodup_singleton k) ?_
    exact List.disjoint_singleton.2 fun hmem => hk ((h.seenSub k).2 hmem)
  seenSub := by
    intro i
    rw [Finset.mem_insert, places, List.map_append, List.map_append, List.mem_append,
      h.seenSub i, or_comm]
    exact or_congr_right List.mem_singleton.symm
  seen := by
    refine (Finset.insert_subset_insert k h.seen).trans (Finset.subset_insert _ _)
  objs := by
    intro hne
    refine h.objs_insert hN hsub hobj ho hne ?_
    rw [List.flatMap_append]
    exact List.Perm.refl _

/-- A subject that was paired gets one more object that was not seen. -/
theorem attach (hsub : subjects[k]? = some sub) (hobj : objects[o]? = some obj)
    (hk : k ∈ s.seenSubIdx) (ho : o + objIdxOffset ∉ s.seenIdx) :
    TieState.Valid subjects objects
      ⟨s.ret.modify (s.ret.findIdx fun t => t.subIdx = k) (TiedByDistance.attach obj),
        insert (o + objIdxOffset) (insert k s.seenIdx), insert k s.seenSubIdx⟩ := by
  have hplaces : ∀ seenIdx seenSubIdx, TieState.places
      ⟨s.ret.modify (s.ret.findIdx fun t => t.subIdx = k) (TiedByDistance.attach obj), seenIdx,
        seenSubIdx⟩ = s.places :=
    fun _ _ => map_modify_of_eq _ (TiedByDistance.attach obj) (fun _ => rfl) _ _
  have hfound : (s.ret.findIdx fun t => t.subIdx = k) < s.ret.length := by
    have hmem := (h.seenSub k).1 hk
    rw [places, List.map_map] at hmem
    obtain ⟨t, ht, hidx⟩ := List.mem_map.1 hmem
    exact List.findIdx_lt_length_of_exists ⟨t, ht, decide_eq_true hidx⟩
  have hinsert : insert k s.seenSubIdx = s.seenSubIdx := Finset.insert_eq_self.2 hk
  rw [hinsert]
  constructor
  · rw [hplaces]
    exact h.subs
  · rw [hplaces]
    exact h.nodup
  · rw [hplaces]
    exact h.seenSub
  · exact h.seen.trans ((Finset.subset_insert k _).trans (Finset.subset_insert _ _))
  · intro hne
    exact h.objs_insert hN hsub hobj ho hne (flatMap_modify_perm _ (fun _ => rfl) hfound)

end TieState.Valid

/-! ## The rounds -/

/-- A candidate is a subject or an object that was not seen. -/
theorem mem_candidates {seenIdx : Finset ℕ} {c : BoxWithIdx}
    (h : c ∈ candidates subjects objects seenIdx) :
    c.idx ∉ seenIdx ∧
      ((c.kind = .sub ∧ ∃ sub, subjects[c.idx]? = some sub) ∨
        (c.kind = .obj ∧ ∃ o obj, c.idx = o + objIdxOffset ∧ objects[o]? = some obj)) := by
  obtain ⟨hmem, hseen⟩ := List.mem_filter.1 h
  refine ⟨of_decide_eq_true hseen, ?_⟩
  rcases List.mem_append.1 hmem with hmem | hmem
  · obtain ⟨sub, hsub, rfl⟩ := List.mem_map.1 hmem
    exact Or.inl ⟨rfl, sub.1, List.mk_mem_zipIdx_iff_getElem?.1 hsub⟩
  · obtain ⟨obj, hobj, rfl⟩ := List.mem_map.1 hmem
    exact Or.inr ⟨rfl, obj.2, obj.1, rfl, List.mk_mem_zipIdx_iff_getElem?.1 hobj⟩

theorem mem_sortBy {α : Type*} {key : α → ℚ} {l : List α} {a : α} : a ∈ sortBy key l ↔ a ∈ l :=
  (List.mergeSort_perm l _).mem_iff

variable {sqrt : ℚ → ℚ}

/-- A pair is a subject and an object that both were not seen. -/
theorem nextPair_spec {seenIdx : Finset ℕ} {subIdx objIdx : ℕ}
    (h : nextPair sqrt subjects objects seenIdx = some (subIdx, objIdx)) :
    (∃ sub, subjects[subIdx]? = some sub) ∧ (∃ obj, objects[objIdx]? = some obj) ∧
      subIdx ∉ seenIdx ∧ objIdx + objIdxOffset ∉ seenIdx := by
  unfold nextPair at h
  split at h
  · cases h
  · next fst rest hsorted =>
    have hall : ∀ c ∈ fst :: rest, c ∈ candidates subjects objects seenIdx := by
      intro c hc
      rw [← hsorted] at hc
      exact mem_sortBy.1 hc
    simp only at h
    split at h
    · cases h
    · next nxt hfind =>
      have hfound := List.find?_some hfind
      have hkind : nxt.kind ≠ fst.kind := of_decide_eq_true hfound
      have hnxt := hall nxt (mem_sortBy.1 (List.mem_of_mem_tail (List.mem_of_find?_eq_some hfind)))
      obtain ⟨hseen, hcases⟩ := mem_candidates (hall fst List.mem_cons_self)
      obtain ⟨hseen', hcases'⟩ := mem_candidates hnxt
      rcases hcases with ⟨hfst, hsub⟩ | ⟨hfst, o, obj, ho, hobj⟩
      · rcases hcases' with ⟨hnxt', -⟩ | ⟨-, o, obj, ho, hobj⟩
        · exact absurd (hnxt'.trans hfst.symm) hkind
        · rw [hfst] at h
          obtain ⟨rfl, rfl⟩ := Prod.mk.inj (Option.some.inj h)
          rw [ho, Nat.add_sub_cancel]
          exact ⟨hsub, ⟨obj, hobj⟩, hseen, ho ▸ hseen'⟩
      · rcases hcases' with ⟨-, hsub⟩ | ⟨hnxt', -⟩
        · rw [hfst] at h
          obtain ⟨rfl, rfl⟩ := Prod.mk.inj (Option.some.inj h)
          rw [ho, Nat.add_sub_cancel]
          exact ⟨hsub, ⟨obj, hobj⟩, hseen', ho ▸ hseen⟩
        · exact absurd (hnxt'.trans hfst.symm) hkind

/-- The subjects that were not seen. -/
def unseenSubjects (subjects : List (LayoutBlock δ)) (s : TieState δ) : ℕ :=
  ((Finset.range subjects.length).filter fun k => k ∉ s.seenIdx).card

theorem unseenSubjects_lt {s' : TieState δ} (hsub : subjects[k]? = some sub) (hk : k ∉ s.seenIdx)
    (hsubset : insert k s.seenIdx ⊆ s'.seenIdx) :
    unseenSubjects subjects s' < unseenSubjects subjects s := by
  have hrange := Finset.mem_range.2 (lt_length_of_getElem?_eq hsub)
  refine Finset.card_lt_card ((Finset.ssubset_iff_of_subset ?_).2 ⟨k, ?_, ?_⟩)
  · intro i hi
    obtain ⟨hi, hnot⟩ := Finset.mem_filter.1 hi
    exact Finset.mem_filter.2 ⟨hi, fun hmem => hnot (hsubset (Finset.mem_insert_of_mem hmem))⟩
  · exact Finset.mem_filter.2 ⟨hrange, hk⟩
  · intro hmem
    exact (Finset.mem_filter.1 hmem).2 (hsubset (Finset.mem_insert_self k _))

/-- Every round sees a subject that was not seen. -/
theorem pairRound_spec (hN : subjects.length ≤ objIdxOffset) {s' : TieState δ}
    (h : s.Valid subjects objects) (hs : pairRound sqrt subjects objects s = some s') :
    s'.Valid subjects objects ∧ unseenSubjects subjects s' < unseenSubjects subjects s := by
  unfold pairRound at hs
  split at hs
  · obtain ⟨⟨subIdx, objIdx⟩, hpair, rfl⟩ := Option.map_eq_some_iff.1 hs
    obtain ⟨⟨sub, hsub⟩, ⟨obj, hobj⟩, hk, ho⟩ := nextPair_spec hpair
    simp only
    split
    · exact ⟨h.see hN hsub, unseenSubjects_lt hsub hk (Finset.Subset.refl _)⟩
    · rw [entry_of_getElem? hsub, hobj, Option.toList_some]
      have hk' : subIdx ∉ s.seenSubIdx := fun hmem => hk (h.seen hmem)
      exact ⟨h.pair hN hsub hobj hk' ho, unseenSubjects_lt hsub hk (Finset.subset_insert _ _)⟩
  · cases hs

/-! ## The objects that are left -/

theorem nearerSub_eq_or (obj : LayoutBlock δ) (nearest : Option (ℚ × ℕ)) (p : LayoutBlock δ × ℕ) :
    (∃ dis, nearerSub sqrt obj nearest p = some (dis, p.2)) ∨
      nearerSub sqrt obj nearest p = nearest ∧ nearest ≠ none := by
  rcases nearest with - | ⟨nearestDis, i⟩
  · exact Or.inl ⟨_, rfl⟩
  · simp only [nearerSub]
    split_ifs
    · exact Or.inl ⟨_, rfl⟩
    · exact Or.inr ⟨rfl, Option.some_ne_none _⟩

theorem foldl_nearerSub (obj : LayoutBlock δ) (l : List (LayoutBlock δ × ℕ)) :
    (l ≠ [] → l.foldl (nearerSub sqrt obj) none ≠ none) ∧
      ∀ dis i, l.foldl (nearerSub sqrt obj) none = some (dis, i) → ∃ p ∈ l, p.2 = i := by
  induction l using List.reverseRecOn with
  | nil =>
    refine ⟨fun hne => absurd rfl hne, fun dis i h => ?_⟩
    cases h
  | append_singleton l p ih =>
    rw [List.foldl_append, List.foldl_cons, List.foldl_nil]
    rcases @nearerSub_eq_or _ sqrt obj (l.foldl (nearerSub sqrt obj) none) p with
      ⟨dis, heq⟩ | ⟨heq, hsome⟩
    · rw [heq]
      refine ⟨fun _ => Option.some_ne_none _, fun dis' i h => ?_⟩
      cases h
      exact ⟨p, List.mem_append_right _ (List.mem_singleton_self p), rfl⟩
    · rw [heq]
      refine ⟨fun _ => hsome, fun dis i h => ?_⟩
      obtain ⟨q, hq, hi⟩ := ih.2 dis i h
      exact ⟨q, List.mem_append_left _ hq, hi⟩

theorem nearestSubIdx_ne_none (obj : LayoutBlock δ) (h : subjects ≠ []) :
    nearestSubIdx sqrt subjects obj ≠ none := by
  refine (foldl_nearerSub obj subjects.zipIdx).1 ?_
  rwa [Ne, List.zipIdx_eq_nil_iff]

theorem nearestSubIdx_eq_some {obj : LayoutBlock δ} {dis : ℚ}
    (h : nearestSubIdx sqrt subjects obj = some (dis, k)) : ∃ sub, subjects[k]? = some sub := by
  obtain ⟨p, hp, rfl⟩ := (foldl_nearerSub obj subjects.zipIdx).2 dis k h
  exact ⟨p.1, List.mk_mem_zipIdx_iff_getElem?.1 hp⟩

variable (sqrt) in
/-- After its turn an object was seen, and everything else as before. -/
theorem attachObject_spec (hN : subjects.length ≤ objIdxOffset) (h : s.Valid subjects objects)
    {p : LayoutBlock δ × ℕ} (hobj : objects[p.2]? = some p.1) :
    (attachObject sqrt subjects s p).Valid subjects objects ∧
      insert (p.2 + objIdxOffset) s.seenIdx ⊆ (attachObject sqrt subjects s p).seenIdx := by
  unfold attachObject
  simp only
  split
  · next hseen => exact ⟨h, (Finset.insert_eq_self.2 hseen).subset⟩
  · next ho =>
    split
    · next hnone =>
      have hnil : subjects = [] := not_not.1 fun hne => nearestSubIdx_ne_none p.1 hne hnone
      refine ⟨⟨h.subs, h.nodup, h.seenSub, ?_, fun hne => absurd hnil hne⟩, Finset.Subset.refl _⟩
      exact h.seen.trans (Finset.subset_insert _ _)
    · next dis i hsome =>
      obtain ⟨sub, hsub⟩ := nearestSubIdx_eq_some hsome
      rw [Finset.insert_comm]
      refine ⟨?_, Finset.insert_subset_insert _ (Finset.subset_insert _ _)⟩
      split
      · next hk => exact h.attach hN hsub hobj hk ho
      · next hk =>
        rw [entry_of_getElem? hsub]
        exact h.pair hN hsub hobj hk ho

variable (sqrt) in
theorem foldl_attachObject (hN : subjects.length ≤ objIdxOffset) (h : s.Valid subjects objects)
    {l : List (LayoutBlock δ × ℕ)} (hl : ∀ p ∈ l, objects[p.2]? = some p.1) :
    (l.foldl (attachObject sqrt subjects) s).Valid subjects objects ∧
      s.seenIdx ⊆ (l.foldl (attachObject sqrt subjects) s).seenIdx ∧
      ∀ p ∈ l, p.2 + objIdxOffset ∈ (l.foldl (attachObject sqrt subjects) s).seenIdx := by
  induction l generalizing s with
  | nil => exact ⟨h, Finset.Subset.refl _, by simp⟩
  | cons p l ih =>
    obtain ⟨hvalid, hsee⟩ := attachObject_spec sqrt hN h (hl p List.mem_cons_self)
    obtain ⟨hrest, hsub, hall⟩ := ih hvalid fun q hq => hl q (List.mem_cons_of_mem p hq)
    refine ⟨hrest, (Finset.subset_insert _ _).trans (hsee.trans hsub), ?_⟩
    intro q hq
    rcases List.mem_cons.1 hq with rfl | hq
    · exact hsub (hsee (Finset.mem_insert_self _ _))
    · exact hall q hq

/-! ## The result -/

theorem map_getElem?_range {α : Type*} (l : List α) :
    (List.range l.length).map (l[·]?) = l.map some := by
  refine List.ext_getElem (by simp) fun i h₁ h₂ => ?_
  simp

/-- In the end all objects were seen. -/
theorem objs_perm (h : s.Valid subjects objects) (hne : subjects ≠ [])
    (hall : ∀ p ∈ objects.zipIdx, p.2 + objIdxOffset ∈ s.seenIdx) :
    (s.ret.flatMap (·.objBboxes)).Perm objects := by
  have hseen : seenObjects objects s.seenIdx = Finset.range objects.length := by
    refine Finset.filter_true_of_mem fun o ho => ?_
    have hlt := Finset.mem_range.1 ho
    exact hall (objects[o], o) (List.mk_mem_zipIdx_iff_getElem?.2 (List.getElem?_eq_getElem hlt))
  have hobjs := h.objs hne
  rw [hseen, Finset.range_val, Multiset.range, Multiset.map_coe, Multiset.coe_eq_coe,
    map_getElem?_range] at hobjs
  exact (List.map_perm_map_iff (Option.some_injective _)).1 hobjs

theorem addSubjects_idx_perm (h : s.Valid subjects objects) :
    ((addSubjects subjects s).map (·.subIdx)).Perm (List.range subjects.length) := by
  set alone := subjects.zipIdx.filter fun sub => sub.2 ∉ s.seenSubIdx with halone
  have hidx : (addSubjects subjects s).map (·.subIdx) =
      s.places.map Prod.fst ++ alone.map Prod.snd := by
    rw [addSubjects, List.map_append, List.map_map, TieState.places, List.map_map]
    rfl
  have hmem : ∀ i, i ∈ alone.map Prod.snd ↔ i < subjects.length ∧ i ∉ s.seenSubIdx := by
    intro i
    rw [List.mem_map]
    constructor
    · rintro ⟨p, hp, rfl⟩
      obtain ⟨hp, hnot⟩ := List.mem_filter.1 hp
      exact ⟨lt_length_of_getElem?_eq (List.mk_mem_zipIdx_iff_getElem?.1 hp),
        of_decide_eq_true hnot⟩
    · rintro ⟨hlt, hnot⟩
      refine ⟨(subjects[i], i), List.mem_filter.2 ⟨?_, decide_eq_true hnot⟩, rfl⟩
      exact List.mk_mem_zipIdx_iff_getElem?.2 (List.getElem?_eq_getElem hlt)
  have hnodup : (alone.map Prod.snd).Nodup := by
    have hzip : (subjects.zipIdx.map Prod.snd).Nodup := by
      rw [List.zipIdx_map_snd]
      exact List.nodup_range'
    exact hzip.sublist (List.filter_sublist.map _)
  rw [hidx, List.perm_ext_iff_of_nodup ?_ List.nodup_range]
  · intro i
    rw [List.mem_append, List.mem_range, hmem, ← h.seenSub]
    constructor
    · rintro (hseen | ⟨hlt, -⟩)
      · obtain ⟨p, hp, rfl⟩ := List.mem_map.1 ((h.seenSub i).1 hseen)
        exact lt_length_of_getElem?_eq (h.subs p hp)
      · exact hlt
    · intro hlt
      by_cases hseen : i ∈ s.seenSubIdx
      · exact Or.inl hseen
      · exact Or.inr ⟨hlt, hseen⟩
  · refine h.nodup.append hnodup fun i hi hi' => ?_
    exact ((hmem i).1 hi').2 ((h.seenSub i).2 hi)

theorem addSubjects_sub (h : s.Valid subjects objects) :
    ∀ t ∈ addSubjects subjects s, subjects[t.subIdx]? = some t.subBbox := by
  intro t ht
  rcases List.mem_append.1 ht with ht | ht
  · exact h.subs (t.subIdx, t.subBbox) (List.mem_map_of_mem ht)
  · obtain ⟨p, hp, rfl⟩ := List.mem_map.1 ht
    exact List.mk_mem_zipIdx_iff_getElem?.1 (List.mem_of_mem_filter hp)

theorem addSubjects_objs (subjects : List (LayoutBlock δ)) (s : TieState δ) :
    (addSubjects subjects s).flatMap (·.objBboxes) = s.ret.flatMap (·.objBboxes) := by
  rw [addSubjects, List.flatMap_append, List.flatMap_map]
  simp

/-- Positions that are all there name all the blocks. -/
theorem subBbox_perm {ret : List (TiedByDistance δ)}
    (hidx : (ret.map (·.subIdx)).Perm (List.range subjects.length))
    (hsub : ∀ t ∈ ret, subjects[t.subIdx]? = some t.subBbox) :
    (ret.map (·.subBbox)).Perm subjects := by
  refine (List.map_perm_map_iff (Option.some_injective (LayoutBlock δ))).1 ?_
  have hmap : (ret.map (·.subBbox)).map some = (ret.map (·.subIdx)).map (subjects[·]?) := by
    rw [List.map_map, List.map_map]
    exact List.map_congr_left fun t ht => (hsub t ht).symm
  rw [hmap, ← map_getElem?_range subjects]
  exact hidx.map _

theorem valid_start (subjects objects : List (LayoutBlock δ)) :
    TieState.Valid subjects objects ⟨[], ∅, ∅⟩ where
  subs := by simp [TieState.places]
  nodup := List.nodup_nil
  seenSub := by simp [TieState.places]
  seen := Finset.Subset.refl _
  objs := by simp [seenObjects]

end

/-- Every subject has one entry, and if there are any, every object stands in one entry. -/
theorem tieUpCategoryByDistanceV3_spec (sqrt : ℚ → ℚ) {subjects : List (LayoutBlock δ)}
    (objects : List (LayoutBlock δ)) (hN : subjects.length ≤ objIdxOffset) :
    ∃ ret, (∀ fuel > subjects.length,
        tieUpCategoryByDistanceV3 sqrt fuel subjects objects = some ret) ∧
      (ret.map (·.subIdx)).Perm (List.range subjects.length) ∧
      (∀ t ∈ ret, (sortBy originKey subjects)[t.subIdx]? = some t.subBbox) ∧
      (ret.map (·.subBbox)).Perm subjects ∧
      (subjects ≠ [] → (ret.flatMap (·.objBboxes)).Perm objects) := by
  have hperm : (sortBy originKey subjects).Perm subjects := List.mergeSort_perm subjects _
  have hperm' : (sortBy originKey objects).Perm objects := List.mergeSort_perm objects _
  set sortedSubjects := sortBy originKey subjects with hsubjects
  set sortedObjects := sortBy originKey objects with hobjects
  have hN' : sortedSubjects.length ≤ objIdxOffset := hperm.length_eq.trans_le hN
  obtain ⟨s, hrun, hvalid, -⟩ := rounds_spec
    (fun h hs => @pairRound_spec _ sortedSubjects sortedObjects _ sqrt hN' _ h hs)
    (valid_start sortedSubjects sortedObjects)
  have hzip : ∀ p ∈ sortedObjects.zipIdx, sortedObjects[p.2]? = some p.1 :=
    fun p hp => List.mk_mem_zipIdx_iff_getElem?.1 hp
  obtain ⟨hvalid', -, hall⟩ := foldl_attachObject sqrt hN' hvalid hzip
  refine ⟨addSubjects sortedSubjects
    (sortedObjects.zipIdx.foldl (attachObject sqrt sortedSubjects) s), ?_, ?_,
    addSubjects_sub hvalid', ?_, ?_⟩
  · intro fuel hfuel
    have hmeasure : unseenSubjects sortedSubjects ⟨[], ∅, ∅⟩ ≤ subjects.length := by
      rw [← hperm.length_eq]
      exact (Finset.card_filter_le _ _).trans_eq (Finset.card_range _)
    simp only [tieUpCategoryByDistanceV3, ← hsubjects, ← hobjects,
      hrun fuel (hmeasure.trans_lt hfuel), Option.map_some]
  · rw [← hperm.length_eq]
    exact addSubjects_idx_perm hvalid'
  · exact (subBbox_perm (addSubjects_idx_perm hvalid') (addSubjects_sub hvalid')).trans hperm
  · intro hne
    have hne' : sortedSubjects ≠ [] := by
      rintro hnil
      rw [hnil] at hperm
      exact hne hperm.nil_eq.symm
    rw [addSubjects_objs]
    exact (objs_perm hvalid' hne' hall).trans hperm'

section

/-- A square root that is right for squares. -/
private def rootOfSquare (x : ℚ) : ℚ := Nat.sqrt x.num.natAbs / Nat.sqrt x.den

private def twoFigures : List (LayoutBlock Unit) :=
  [⟨⟨0, 0, 10, 10⟩, ()⟩, ⟨⟨0, 40, 10, 50⟩, ()⟩]

private def oneCaption : List (LayoutBlock Unit) := [⟨⟨0, 12, 10, 14⟩, ()⟩]

theorem tieUpCategoryByDistanceV3_spec_twoFigures :
    ∃ ret, (∀ fuel > twoFigures.length,
        tieUpCategoryByDistanceV3 rootOfSquare fuel twoFigures oneCaption = some ret) ∧
      (ret.map (·.subIdx)).Perm (List.range twoFigures.length) ∧
      (∀ t ∈ ret, (sortBy originKey twoFigures)[t.subIdx]? = some t.subBbox) ∧
      (ret.map (·.subBbox)).Perm twoFigures ∧
      (twoFigures ≠ [] → (ret.flatMap (·.objBboxes)).Perm oneCaption) :=
  tieUpCategoryByDistanceV3_spec rootOfSquare oneCaption (by decide)

end

end RagflowMineru.MinerU
