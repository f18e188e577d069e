import RagflowMineru.Library.Paging
import RagflowMineru.Library.SinglePop
import RagflowMineru.Nlp.TreeMerge

/-!
# Chunks along the headings above a line

`hierarchical_merge` sorts the lines of a document by their levels.  From the
lowest level on, every line that is in no chunk yet becomes the anchor of one: for
each higher level the last heading before the anchor is put on its chain, found by
binary search, and takes the place of the heading put there before if it comes
after it.  Chunks of one line are then packed together.
-/

namespace RagflowMineru.Nlp

open RagflowMineru.Library

/-! ## The lines of a level -/

/-- `levels[j].append(i)`, for every line with the level that was found for it. -/
def levelLists (size : ℕ) (lineLevels : List ℕ) : List (List ℕ) :=
  lineLevels.zipIdx.foldl (fun levels line => levels.modify line.1 (· ++ [line.2]))
    (List.replicate (size + 2) [])

/-- The loop of `binary_search`; `none` is the failed assertion.  The bounds come closer in
every round, so that the length of the list is enough for `fuel`. -/
def bisect (arr : List ℕ) (target : ℕ) : ℕ → ℕ → ℕ → Option ℕ
  | 0, _, _ => none
  | fuel + 1, s, e =>
    if 1 < e - s then
      match arr[(e + s) / 2]? with
      | none => none
      | some a =>
        if a < target then bisect arr target fuel ((e + s) / 2) e
        else if target < a then bisect arr target fuel s ((e + s) / 2)
        else none
    else some s

def binarySearch (arr : List ℕ) (target : ℕ) : Option ℤ :=
  match arr.head?, arr.getLast? with
  | some first, some last =>
    if last < target then some (arr.length - 1)
    else if target < first then some (-1)
    else (bisect arr target arr.length 0 arr.length).map Int.ofNat
  | _, _ => some (-1)

/-- The last line of a level before a line. -/
def lastBefore (arr : List ℕ) (target : ℕ) : Option ℕ :=
  (arr.filter (· < target)).getLast?

/-- In a sorted list the smaller entries come first. -/
theorem filter_lt_eq_take {arr : List ℕ} (harr : arr.Pairwise (· < ·)) (target : ℕ) :
    arr.filter (· < target) = arr.take (arr.countP (· < target)) := by
  induction arr with
  | nil => rfl
  | cons a arr ih =>
    obtain ⟨hhead, htail⟩ := List.pairwise_cons.mp harr
    by_cases hlt : a < target
    · rw [List.filter_cons_of_pos (by simpa using hlt),
        List.countP_cons_of_pos (by simpa using hlt), List.take_succ_cons, ih htail]
    · have hnone : ∀ b ∈ arr, ¬ b < target := fun b hb => by
        have := hhead b hb
        omega
      rw [List.filter_cons_of_neg (by simpa using hlt),
        List.countP_cons_of_neg (by simpa using hlt), List.countP_eq_zero.mpr (by simpa using hnone),
        List.filter_eq_nil_iff.mpr (by simpa using hnone), List.take_zero]

theorem getElem_lt_iff {arr : List ℕ} (harr : arr.Pairwise (· < ·)) (target : ℕ) {i : ℕ}
    (hi : i < arr.length) : arr[i] < target ↔ i < arr.countP (· < target) := by
  induction arr generalizing i with
  | nil => simp at hi
  | cons a arr ih =>
    obtain ⟨hhead, htail⟩ := List.pairwise_cons.mp harr
    by_cases hlt : a < target
    · rw [List.countP_cons_of_pos (by simpa using hlt)]
      cases i with
      | zero => simpa using hlt
      | succ i => simpa using ih htail (by simpa using hi)
    · have hnone : ∀ b ∈ a :: arr, ¬ b < target := fun b hb => by
        rcases List.mem_cons.mp hb with rfl | hb
        · exact hlt
        · have := hhead b hb
          omega
      rw [List.countP_eq_zero.mpr (by simpa using hnone)]
      simpa using hnone _ (List.getElem_mem hi)

/-- The search ends at the last entry that is smaller. -/
theorem bisect_eq {arr : List ℕ} {target : ℕ} (harr : arr.Pairwise (· < ·)) (hnot : target ∉ arr)
    {fuel s e : ℕ} (hs : s < arr.countP (· < target)) (he : arr.countP (· < target) ≤ e)
    (hlength : e ≤ arr.length) (hfuel : e - s ≤ fuel) :
    bisect arr target fuel s e = some (arr.countP (· < target) - 1) := by
  induction fuel generalizing s e with
  | zero => omega
  | succ fuel ih =>
    unfold bisect
    by_cases hclose : 1 < e - s
    · have hi : (e + s) / 2 < arr.length := by omega
      have hmid := getElem_lt_iff harr target hi
      rw [if_pos hclose, List.getElem?_eq_getElem hi]
      dsimp only
      by_cases hlt : arr[(e + s) / 2] < target
      · rw [if_pos hlt]
        exact ih (hmid.mp hlt) he hlength (by omega)
      · have hne : arr[(e + s) / 2] ≠ target := fun h => hnot (h ▸ List.getElem_mem hi)
        rw [if_neg hlt, if_pos (by omega)]
        exact ih hs (not_lt.mp (mt hmid.mpr hlt)) (by omega) (by omega)
    · rw [if_neg hclose]
      congr 1
      omega

/-- On sorted lines without the one that is looked for, the assertion holds. -/
theorem binarySearch_eq {arr : List ℕ} {target : ℕ} (harr : arr.Pairwise (· < ·))
    (hnot : target ∉ arr) :
    binarySearch arr target = some ((arr.countP (· < target) : ℤ) - 1) := by
  rcases arr.eq_nil_or_concat with rfl | ⟨init, last, rfl⟩
  · rfl
  · rw [List.concat_eq_append] at harr hnot ⊢
    have hne : init ++ [last] ≠ [] := by simp
    have hpos : 0 < (init ++ [last]).length := List.length_pos_of_ne_nil hne
    have hfirst := getElem_lt_iff harr target hpos
    have hlast := getElem_lt_iff harr target (i := init.length) (by simp)
    rw [List.getElem_concat_length rfl] at hlast
    have hle := List.countP_le_length (p := (· < target)) (l := init ++ [last])
    have hfirst_ne : (init ++ [last])[0] ≠ target := fun h => hnot (h ▸ List.getElem_mem hpos)
    have hlast_ne : last ≠ target := fun h => hnot (by simp [h])
    have hlength : (init ++ [last]).length = init.length + 1 := by simp
    unfold binarySearch
    rw [List.head?_eq_some_head hne, List.getLast?_concat, List.head_eq_getElem hne]
    dsimp only
    by_cases hall : last < target
    · rw [if_pos hall]
      have := hlast.mp hall
      congr 1
      omega
    · rw [if_neg hall]
      by_cases hnone : target < (init ++ [last])[0]
      · have := mt hfirst.mpr (by omega)
        rw [if_pos hnone]
        congr 1
        omega
      · have hsome := hfirst.mp (by omega)
        rw [if_neg hnone, bisect_eq harr hnot hsome hle le_rfl (Nat.sub_zero _).le, Option.map_some]
        congr 1
        simp only [Int.ofNat_eq_natCast]
        omega

/-! ## Chains -/

/-- The last heading of one more level before the line `j`, on the chain of `j`. -/
def addAbove (j : ℕ) (ck arr : List ℕ) : Option (List ℕ) :=
  (binarySearch arr j).bind fun jj =>
    if jj < 0 then some ck else (pyGet arr jj).map (SinglePop.popOnce ck)

/-- The last lines of the levels before a line, from the lowest level up. -/
def headingsAbove (above : List (List ℕ)) (j : ℕ) : List ℕ :=
  above.filterMap fun arr => lastBefore arr j

theorem headingsAbove_cons (arr : List ℕ) (above : List (List ℕ)) (j : ℕ) :
    headingsAbove (arr :: above) j = (lastBefore arr j).toList ++ headingsAbove above j := by
  rcases hlast : lastBefore arr j with _ | x <;> simp [headingsAbove, hlast]

theorem headingsAbove_append (a b : List (List ℕ)) (j : ℕ) :
    headingsAbove (a ++ b) j = headingsAbove a j ++ headingsAbove b j :=
  List.filterMap_append

theorem addAbove_eq {arr : List ℕ} {j : ℕ} (harr : arr.Pairwise (· < ·)) (hnot : j ∉ arr)
    (ck : List ℕ) :
    addAbove j ck arr = some ((lastBefore arr j).toList.foldl SinglePop.popOnce ck) := by
  rw [addAbove, binarySearch_eq harr hnot, Option.bind_some, lastBefore,
    filter_lt_eq_take harr]
  have hle := List.countP_le_length (p := (· < j)) (l := arr)
  rcases hcount : arr.countP (· < j) with _ | k
  · simp
  · have hk : k < arr.length := by omega
    have htake : (arr.take (k + 1)).getLast? = some arr[k] := by
      rw [List.take_add_one, List.getElem?_eq_getElem hk, Option.toList_some, List.getLast?_concat]
    have hnonneg : ¬ ((k + 1 : ℕ) : ℤ) - 1 < 0 := by omega
    have htoNat : (((k + 1 : ℕ) : ℤ) - 1).toNat = k := by omega
    rw [if_neg hnonneg, htake, pyGet, if_pos (by omega), htoNat, List.getElem?_eq_getElem hk]
    rfl

theorem foldlM_addAbove {above : List (List ℕ)} {j : ℕ}
    (hsorted : ∀ arr ∈ above, arr.Pairwise (· < ·)) (hnot : ∀ arr ∈ above, j ∉ arr)
    (ck : List ℕ) :
    above.foldlM (addAbove j) ck = some ((headingsAbove above j).foldl SinglePop.popOnce ck) := by
  induction above generalizing ck with
  | nil => rfl
  | cons arr above ih =>
    rw [List.foldlM_cons,
      addAbove_eq (hsorted arr List.mem_cons_self) (hnot arr List.mem_cons_self)]
    have hrest := ih (fun arr h => hsorted arr (List.mem_cons_of_mem _ h))
      (fun arr h => hnot arr (List.mem_cons_of_mem _ h))
      ((lastBefore arr j).toList.foldl SinglePop.popOnce ck)
    rw [Option.bind_eq_bind, Option.bind_some, hrest, headingsAbove_cons, List.foldl_append]

/-- The chunks so far, and the lines that are in one. -/
structure Chains where
  cks : List (List ℕ) := []
  readed : List ℕ := []

def Chains.add (st : Chains) (ck : List ℕ) : Chains :=
  ⟨st.cks ++ [ck], st.readed ++ ck⟩

/-- The line `j` of the `i`-th level from below. -/
def visit (levels : List (List ℕ)) (st : Chains) (line : ℕ × ℕ) : Option Chains :=
  if line.2 ∈ st.readed then some st
  else if line.1 + 1 = levels.length - 1 then some (st.add [line.2])
  else ((levels.drop (line.1 + 1)).foldlM (addAbove line.2) [line.2]).map st.add

/-- `l[:k]` -/
def pyTake {α : Type*} (l : List α) (k : ℤ) : List α :=
  if 0 ≤ k then l.take k.toNat else l.take (l.length + k).toNat

/-- The lines in the order in which they are looked at, with their levels. -/
def anchorOrder (levels : List (List ℕ)) (depth : ℤ) : List (ℕ × ℕ) :=
  (pyTake levels depth).zipIdx.flatMap fun (arr, i) => arr.map fun j => (i, j)

def buildChains (levels : List (List ℕ)) (depth : ℤ) : Option (List (List ℕ)) :=
  ((anchorOrder levels depth).foldlM (visit levels) {}).map Chains.cks

/-! ## Packing -/

/-- `re.sub(r"@@[0-9]+.*", "", text)`; `skip` is set within a match. -/
def removePositions : (skip : Bool) → Text → Text
  | _, [] => []
  | true, c :: t => if c = '\n' then c :: removePositions false t else removePositions true t
  | false, c :: t =>
    if c = '@' ∧ t.head? = some '@' ∧ (t.tail.head?.any isDigit) then removePositions true t
    else c :: removePositions false t

def lineTokens (numTokens : Text → ℕ) (text : Text) : ℕ :=
  numTokens (removePositions false text)

/-- `res` and `num`, with the last entry of each apart. -/
structure Packing where
  done : List (List Text) := []
  last : List Text := []
  num : ℕ := 0

def Packing.res (st : Packing) : List (List Text) :=
  st.done ++ [st.last]

def pack (numTokens : Text → ℕ) (st : Packing) (ck : List Text) : Packing :=
  match ck with
  | [text] =>
    let n := lineTokens numTokens text
    if n + st.num < 218 then ⟨st.done, st.last ++ [text], st.num + n⟩
    else ⟨st.res, [text], n⟩
  | _ => ⟨st.res, ck, 218⟩

/-! ## The merge -/

def lineLevels (patterns : List Pattern) (kept : List (Text × Text)) : List ℕ :=
  kept.map fun sec => levelBy patterns sec.1 sec.1 sec.2

/-- The levels from below, plain lines first. -/
def levelsFromBelow (patterns : List Pattern) (kept : List (Text × Text)) : List (List ℕ) :=
  (levelLists patterns.length (lineLevels patterns kept)).reverse

/-- The chunks as lists of lines, each from its anchor up. -/
def anchorChains (bull : ℤ) (sections : Sections) (depth : ℤ) : Option (List (List ℕ)) :=
  if sections.toTuples = [] ∨ bull < 0 then some []
  else (pyGet bulletPattern bull).bind fun patterns =>
    buildChains (levelsFromBelow patterns (sections.toTuples.filter keepSection)) depth

/-- `[sections[j] for j in ck[::-1]]` -/
def chainTexts (texts : List Text) (ck : List ℕ) : Option (List Text) :=
  ck.reverse.mapM fun j => texts[j]?

/-- `none` is an exception. -/
def hierarchicalMerge (numTokens : Text → ℕ) (bull : ℤ) (sections : Sections) (depth : ℤ) :
    Option (List (List Text)) :=
  (anchorChains bull sections depth).bind fun cks =>
    if cks = [] then some []
    else
      let texts := (sections.toTuples.filter keepSection).map Prod.fst
      (cks.mapM (chainTexts texts)).map fun cks => (cks.foldl (pack numTokens) {}).res

/-! ## The levels of the lines -/

theorem levelLists_concat (size : ℕ) (ls : List ℕ) (l : ℕ) :
    levelLists size (ls ++ [l]) = (levelLists size ls).modify l (· ++ [ls.length]) := by
  rw [levelLists, List.zipIdx_append, List.foldl_append]
  simp [levelLists]

/-- Each level has the lines for which it was found, in document order. -/
theorem getElem?_levelLists (size : ℕ) (ls : List ℕ) {k : ℕ} (hk : k < size + 2) :
    (levelLists size ls)[k]? =
      some ((List.range ls.length).filter fun i => ls[i]? = some k) := by
  induction ls using List.reverseRecOn with
  | nil => simp [levelLists, hk]
  | append_singleton ls l ih =>
    have hold : (List.range ls.length).filter (fun i => (ls ++ [l])[i]? = some k) =
        (List.range ls.length).filter fun i => ls[i]? = some k := by
      apply List.filter_congr
      intro i hi
      rw [List.getElem?_append_left (List.mem_range.mp hi)]
    rw [levelLists_concat, List.getElem?_modify, ih, List.length_append, List.length_singleton,
      List.range_succ, List.filter_append, hold]
    by_cases hl : l = k
    · simp [hl]
    · simp [hl]

theorem length_levelLists (size : ℕ) (ls : List ℕ) : (levelLists size ls).length = size + 2 := by
  induction ls using List.reverseRecOn with
  | nil => simp [levelLists]
  | append_singleton ls l ih => rw [levelLists_concat, List.length_modify, ih]

/-- Lists of lines, of which each is in document order and no line is in two. -/
structure Ranked (levels : List (List ℕ)) : Prop where
  sorted : ∀ arr ∈ levels, arr.Pairwise (· < ·)
  disjoint : ∀ {i k : ℕ} {j : ℕ}, j ∈ levels.getD i [] → j ∈ levels.getD k [] → i = k

theorem mem_getD_iff {levels : List (List ℕ)} {i j : ℕ} :
    j ∈ levels.getD i [] ↔ ∃ arr, levels[i]? = some arr ∧ j ∈ arr := by
  rw [List.getD_eq_getElem?_getD]
  rcases levels[i]? with _ | arr <;> simp

theorem getD_mem_or_nil (levels : List (List ℕ)) (i : ℕ) :
    levels.getD i [] ∈ levels ∨ levels.getD i [] = [] := by
  rw [List.getD_eq_getElem?_getD]
  rcases harr : levels[i]? with _ | arr
  · exact Or.inr rfl
  · exact Or.inl (List.mem_of_getElem? harr)

theorem mem_levelLists {size : ℕ} {ls : List ℕ} {k j : ℕ} :
    j ∈ (levelLists size ls).getD k [] ↔ k < size + 2 ∧ ls[j]? = some k := by
  rw [mem_getD_iff]
  by_cases hk : k < size + 2
  · rw [getElem?_levelLists size ls hk]
    simp only [Option.some.injEq, exists_eq_left', List.mem_filter, List.mem_range,
      decide_eq_true_eq, hk, true_and, and_iff_right_iff_imp]
    exact fun h => (List.getElem?_eq_some_iff.mp h).1
  · have hnone : (levelLists size ls)[k]? = none :=
      List.getElem?_eq_none (by rw [length_levelLists]; omega)
    simp [hnone, hk]

theorem levelLists_ranked (size : ℕ) (ls : List ℕ) : Ranked (levelLists size ls) where
  sorted arr harr := by
    obtain ⟨k, hk⟩ := List.mem_iff_getElem?.mp harr
    have hlt := (List.getElem?_eq_some_iff.mp hk).1
    rw [length_levelLists] at hlt
    rw [getElem?_levelLists size ls hlt] at hk
    obtain rfl := Option.some.inj hk
    exact List.pairwise_lt_range.filter _
  disjoint hi hk := by
    have hsome := (mem_levelLists.mp hi).2.symm.trans (mem_levelLists.mp hk).2
    exact Option.some.inj hsome

theorem getD_reverse {levels : List (List ℕ)} {i : ℕ} (hi : i < levels.length) :
    levels.reverse.getD i [] = levels.getD (levels.length - 1 - i) [] := by
  rw [List.getD_eq_getElem?_getD, List.getD_eq_getElem?_getD, List.getElem?_reverse hi]

theorem Ranked.reverse {levels : List (List ℕ)} (h : Ranked levels) : Ranked levels.reverse where
  sorted arr harr := h.sorted arr (List.mem_reverse.mp harr)
  disjoint {i k j} hi hk := by
    have hlt : ∀ {m : ℕ}, j ∈ levels.reverse.getD m [] → m < levels.length := fun {m} hm => by
      obtain ⟨arr, harr, -⟩ := mem_getD_iff.mp hm
      have := (List.getElem?_eq_some_iff.mp harr).1
      rwa [List.length_reverse] at this
    have hi' := hlt hi
    have hk' := hlt hk
    rw [getD_reverse hi'] at hi
    rw [getD_reverse hk'] at hk
    have := h.disjoint hi hk
    omega

/-! ## The chains of a run -/

/-- The headings above the line `j`, below which it stands itself. -/
def chainAbove (levels : List (List ℕ)) (i j : ℕ) : List ℕ :=
  (headingsAbove (levels.drop (i + 1)) j).foldl SinglePop.popOnce [j]

/-- The chain that is made for an anchor; one of the level below the highest stands alone. -/
def chainOf (levels : List (List ℕ)) (line : ℕ × ℕ) : List ℕ :=
  if line.1 + 1 = levels.length - 1 then [line.2] else chainAbove levels line.1 line.2

def visitChain (levels : List (List ℕ)) (st : Chains) (line : ℕ × ℕ) : Chains :=
  if line.2 ∈ st.readed then st else st.add (chainOf levels line)

theorem getD_of_mem_drop {levels : List (List ℕ)} {i : ℕ} {arr : List ℕ}
    (h : arr ∈ levels.drop (i + 1)) : ∃ k > i, levels.getD k [] = arr := by
  obtain ⟨m, hm⟩ := List.mem_iff_getElem?.mp h
  rw [List.getElem?_drop] at hm
  exact ⟨i + 1 + m, by omega, by rw [List.getD_eq_getElem?_getD, hm]; rfl⟩

theorem visit_eq {levels : List (List ℕ)} (h : Ranked levels) (st : Chains) {line : ℕ × ℕ}
    (hline : line.2 ∈ levels.getD line.1 []) :
    visit levels st line = some (visitChain levels st line) := by
  have hnot : ∀ arr ∈ levels.drop (line.1 + 1), line.2 ∉ arr := fun arr harr hmem => by
    obtain ⟨k, hk, rfl⟩ := getD_of_mem_drop harr
    exact absurd (h.disjoint hline hmem) (by omega)
  have hsorted : ∀ arr ∈ levels.drop (line.1 + 1), arr.Pairwise (· < ·) := fun arr harr =>
    h.sorted arr (List.mem_of_mem_drop harr)
  rw [visit, visitChain, chainOf, foldlM_addAbove hsorted hnot, Option.map_some]
  split_ifs <;> rfl

/-- Every line is looked at with its own level. -/
theorem mem_anchorOrder {levels : List (List ℕ)} {depth : ℤ} {line : ℕ × ℕ} :
    line ∈ anchorOrder levels depth ↔
      line.1 < (pyTake levels depth).length ∧ line.2 ∈ levels.getD line.1 [] := by
  have htake : ∀ {i : ℕ}, i < (pyTake levels depth).length →
      (pyTake levels depth)[i]? = levels[i]? := fun {i} hi => by
    unfold pyTake at hi ⊢
    split_ifs at hi ⊢
    · exact List.getElem?_take_of_lt (lt_of_lt_of_le hi (List.length_take_le _ _))
    · exact List.getElem?_take_of_lt (lt_of_lt_of_le hi (List.length_take_le _ _))
  rw [anchorOrder, List.mem_flatMap]
  constructor
  · rintro ⟨⟨arr, i⟩, harr, hline⟩
    obtain ⟨j, hj, rfl⟩ := List.mem_map.mp hline
    have hsome := List.mem_zipIdx_iff_getElem?.mp harr
    have hlt := (List.getElem?_eq_some_iff.mp hsome).1
    exact ⟨hlt, mem_getD_iff.mpr ⟨arr, (htake hlt).symm.trans hsome, hj⟩⟩
  · rintro ⟨hlt, hmem⟩
    obtain ⟨arr, harr, hj⟩ := mem_getD_iff.mp hmem
    exact ⟨(arr, line.1), List.mem_zipIdx_iff_getElem?.mpr ((htake hlt).trans harr),
      List.mem_map.mpr ⟨line.2, hj, rfl⟩⟩

theorem foldlM_visit {levels : List (List ℕ)} (h : Ranked levels) {lines : List (ℕ × ℕ)}
    (hlines : ∀ line ∈ lines, line.2 ∈ levels.getD line.1 []) (st : Chains) :
    lines.foldlM (visit levels) st = some (lines.foldl (visitChain levels) st) := by
  induction lines generalizing st with
  | nil => rfl
  | cons line lines ih =>
    rw [List.foldlM_cons, visit_eq h st (hlines line List.mem_cons_self)]
    exact ih (fun line h => hlines line (List.mem_cons_of_mem _ h)) _

/-- What holds of the chunks when some lines have been looked at: each is the chain of one of
them, and each of them is in one. -/
structure Chains.Covers (levels : List (List ℕ)) (lines : List (ℕ × ℕ)) (st : Chains) : Prop where
  chain : ∀ ck ∈ st.cks, ∃ line ∈ lines, ck = chainOf levels line
  covered : ∀ line ∈ lines, ∃ ck ∈ st.cks, line.2 ∈ ck
  readed : st.readed = st.cks.flatten

/-- The anchor is below the headings of its chain. -/
theorem chainAbove_eq (levels : List (List ℕ)) (i j : ℕ) :
    chainAbove levels i j =
      j :: (headingsAbove (levels.drop (i + 1)) j).foldl SinglePop.popOnce [] := by
  apply SinglePop.foldl_cons
  intro x hx
  obtain ⟨arr, -, hlast⟩ := List.mem_filterMap.mp hx
  have hmem := List.mem_of_getLast? hlast
  simpa using (List.mem_filter.mp hmem).2

theorem head?_chainOf (levels : List (List ℕ)) (line : ℕ × ℕ) :
    (chainOf levels line).head? = some line.2 := by
  rw [chainOf]
  split_ifs
  · rfl
  · rw [chainAbove_eq]
    rfl

theorem visitChain_covers {levels : List (List ℕ)} {lines : List (ℕ × ℕ)} {st : Chains}
    (h : st.Covers levels lines) (line : ℕ × ℕ) :
    (visitChain levels st line).Covers levels (lines ++ [line]) := by
  unfold visitChain
  split_ifs with hreaded
  · -- the line is in the chain of an earlier one
    refine ⟨fun ck hck => ?_, fun l hl => ?_, h.readed⟩
    · obtain ⟨l, hl, hck⟩ := h.chain ck hck
      exact ⟨l, List.mem_append_left _ hl, hck⟩
    · rcases List.mem_append.mp hl with hl | hl
      · exact h.covered l hl
      · obtain rfl := List.mem_singleton.mp hl
        rw [h.readed] at hreaded
        exact List.mem_flatten.mp hreaded
  · refine ⟨fun ck hck => ?_, fun l hl => ?_, by simp [Chains.add, h.readed]⟩
    · rcases List.mem_append.mp hck with hck | hck
      · obtain ⟨l, hl, hck⟩ := h.chain ck hck
        exact ⟨l, List.mem_append_left _ hl, hck⟩
      · exact ⟨line, by simp, List.mem_singleton.mp hck⟩
    · rcases List.mem_append.mp hl with hl | hl
      · obtain ⟨ck, hck, hmem⟩ := h.covered l hl
        exact ⟨ck, List.mem_append_left _ hck, hmem⟩
      · obtain rfl := List.mem_singleton.mp hl
        exact ⟨_, List.mem_append_right _ (List.mem_singleton.mpr rfl),
          List.mem_of_head? (head?_chainOf levels l)⟩

theorem foldl_visitChain_covers (levels : List (List ℕ)) (lines : List (ℕ × ℕ)) :
    (lines.foldl (visitChain levels) {}).Covers levels lines := by
  induction lines using List.reverseRecOn with
  | nil => exact ⟨by simp, by simp, rfl⟩
  | append_singleton lines line ih =>
    rw [List.foldl_append]
    exact visitChain_covers ih line

/-- The assertion of the search holds in every run, each chunk is the chain of a line, and each
line of the first levels is in a chunk. -/
theorem buildChains_eq {levels : List (List ℕ)} (h : Ranked levels) (depth : ℤ) :
    ∃ st : Chains, buildChains levels depth = some st.cks ∧
      st.Covers levels (anchorOrder levels depth) :=
  ⟨_, by rw [buildChains, foldlM_visit h fun line hline => (mem_anchorOrder.mp hline).2]; rfl,
    foldl_visitChain_covers levels _⟩

/-! ## Real chains -/

/-- The lines of a chunk, from its anchor up, are in document order, each but the anchor is the
last line of a higher level before it, and no line of a still higher level is between the two. -/
def RealChain (levels : List (List ℕ)) (ck : List ℕ) : Prop :=
  ck.Pairwise (· > ·) ∧ ∀ i j : ℕ, ck.head? = some j → j ∈ levels.getD i [] → ∀ x ∈ ck.tail,
    ∃ k > i, lastBefore (levels.getD k []) j = some x ∧
      ∀ k' > k, ∀ y ∈ levels.getD k' [], ¬ (x < y ∧ y < j)

/-- Among the last headings above any line that can be an anchor, one that the next of them does
not come after is one that none of the later ones comes after. -/
def NoStaleHeading (levels : List (List ℕ)) (depth : ℤ) : Prop :=
  ∀ i < (pyTake levels depth).length, ∀ j ∈ levels.getD i [],
    SinglePop.Descends (headingsAbove (levels.drop (i + 1)) j)

theorem lastBefore_eq_some {arr : List ℕ} (harr : arr.Pairwise (· < ·)) {j x : ℕ} :
    lastBefore arr j = some x ↔ x ∈ arr ∧ x < j ∧ ∀ y ∈ arr, y < j → y ≤ x := by
  have hfilter : (arr.filter (· < j)).Pairwise (· < ·) := harr.filter _
  have hmem : ∀ y, y ∈ arr.filter (· < j) ↔ y ∈ arr ∧ y < j := fun y => by
    rw [List.mem_filter, decide_eq_true_eq]
  rw [lastBefore]
  rcases hlist : arr.filter (· < j) with _ | ⟨b, t⟩
  · simp only [List.getLast?_nil, reduceCtorEq, false_iff]
    rintro ⟨hx, hlt, -⟩
    have := (hmem x).mpr ⟨hx, hlt⟩
    rw [hlist] at this
    simp at this
  · obtain ⟨init, last, hlast⟩ : ∃ init last, b :: t = init ++ [last] :=
      ⟨_, _, (List.dropLast_append_getLast (List.cons_ne_nil b t)).symm⟩
    rw [hlist, hlast] at hfilter hmem
    obtain ⟨-, -, hlt⟩ := List.pairwise_append.mp hfilter
    rw [hlast, List.getLast?_concat, Option.some_inj]
    have hin := (hmem last).mp (by simp)
    constructor
    · rintro rfl
      refine ⟨hin.1, hin.2, fun y hy hyj => ?_⟩
      rcases List.mem_append.mp ((hmem y).mpr ⟨hy, hyj⟩) with hy | hy
      · exact (hlt y hy last (by simp)).le
      · exact (List.mem_singleton.mp hy).le
    · rintro ⟨hx, hxj, hmax⟩
      have hle := hmax last hin.1 hin.2
      rcases List.mem_append.mp ((hmem x).mpr ⟨hx, hxj⟩) with hx | hx
      · have := hlt x hx last (by simp)
        omega
      · exact (List.mem_singleton.mp hx).symm

theorem Ranked.sorted_getD {levels : List (List ℕ)} (h : Ranked levels) (k : ℕ) :
    (levels.getD k []).Pairwise (· < ·) := by
  rcases getD_mem_or_nil levels k with hk | hk
  · exact h.sorted _ hk
  · rw [hk]
    exact List.Pairwise.nil

theorem Ranked.pairwise {levels : List (List ℕ)} (h : Ranked levels) :
    levels.Pairwise List.Disjoint := by
  rw [List.pairwise_iff_getElem]
  intro i k hi hk hlt j hij hkj
  have := h.disjoint (mem_getD_iff.mpr ⟨_, List.getElem?_eq_getElem hi, hij⟩)
    (mem_getD_iff.mpr ⟨_, List.getElem?_eq_getElem hk, hkj⟩)
  omega

theorem mem_of_lastBefore {arr : List ℕ} {j x : ℕ} (h : lastBefore arr j = some x) :
    x ∈ arr ∧ x < j := by
  simpa using List.mem_filter.mp (List.mem_of_getLast? h)

theorem headingsAbove_nodup {levels : List (List ℕ)} (h : Ranked levels) (i j : ℕ) :
    (headingsAbove (levels.drop i) j).Nodup := by
  refine (h.pairwise.sublist (List.drop_sublist i levels)).filterMap _ ?_
  rintro a b hdisjoint x hx y hy rfl
  exact hdisjoint (mem_of_lastBefore hx).1 (mem_of_lastBefore hy).1

theorem mem_headingsAbove {levels : List (List ℕ)} {i j x : ℕ}
    (hx : x ∈ headingsAbove (levels.drop (i + 1)) j) :
    ∃ k > i, lastBefore (levels.getD k []) j = some x ∧
      headingsAbove (levels.drop (i + 1)) j =
        headingsAbove ((levels.drop (i + 1)).take (k - (i + 1))) j ++
          x :: headingsAbove (levels.drop (k + 1)) j := by
  obtain ⟨arr, harr, hlast⟩ := List.mem_filterMap.mp hx
  obtain ⟨m, hm, rfl⟩ := List.mem_iff_getElem.mp harr
  have hlt : i + 1 + m < levels.length := by
    rw [List.length_drop] at hm
    omega
  have hget : levels.getD (i + 1 + m) [] = (levels.drop (i + 1))[m] := by
    rw [List.getElem_drop, List.getD_eq_getElem?_getD, List.getElem?_eq_getElem hlt,
      Option.getD_some]
  refine ⟨i + 1 + m, by omega, by rw [hget, hlast], ?_⟩
  have hsplit : levels.drop (i + 1) = (levels.drop (i + 1)).take m ++
      (levels.drop (i + 1))[m] :: levels.drop (i + 1 + m + 1) := by
    have hdrop := List.drop_eq_getElem_cons hm
    rw [List.drop_drop, List.drop_drop, ← Nat.add_assoc] at hdrop
    rw [← hdrop, ← @List.drop_drop _ m (i + 1), List.take_append_drop]
  have hsub : i + 1 + m - (i + 1) = m := by omega
  rw [hsub]
  conv_lhs => rw [hsplit]
  rw [headingsAbove_append, headingsAbove_cons, hlast]
  rfl

theorem chainAbove_pairwise_iff {levels : List (List ℕ)} (h : Ranked levels) (i j : ℕ) :
    (chainAbove levels i j).Pairwise (· > ·) ↔
      SinglePop.Descends (headingsAbove (levels.drop (i + 1)) j) := by
  rw [chainAbove_eq, List.pairwise_cons,
    SinglePop.foldl_nil_pairwise_iff (headingsAbove_nodup h (i + 1) j)]
  refine and_iff_right fun x hx => ?_
  have hmem := (SinglePop.mem_of_mem_foldl hx).resolve_left (List.not_mem_nil)
  obtain ⟨k, -, hlast, -⟩ := mem_headingsAbove hmem
  exact (mem_of_lastBefore hlast).2

/-- A chain in document order is a real one. -/
theorem realChain_chainAbove {levels : List (List ℕ)} (h : Ranked levels) {i j : ℕ}
    (hj : j ∈ levels.getD i []) (hdecreasing : (chainAbove levels i j).Pairwise (· > ·)) :
    RealChain levels (chainAbove levels i j) := by
  refine ⟨hdecreasing, fun i' j' hhead hj' x hx => ?_⟩
  rw [chainAbove_eq] at hhead hx hdecreasing
  obtain rfl := Option.some.inj hhead
  obtain rfl := h.disjoint hj hj'
  have hrest := (List.pairwise_cons.mp hdecreasing).2
  have hmem := (SinglePop.mem_of_mem_foldl hx).resolve_left List.not_mem_nil
  obtain ⟨k, hk, hlast, hsplit⟩ := mem_headingsAbove hmem
  refine ⟨k, hk, hlast, fun k' hk' y hy hbetween => ?_⟩
  -- the last line of the higher level would have taken the place of `x`
  have hsome : (lastBefore (levels.getD k' []) j).isSome := by
    rw [lastBefore, List.getLast?_isSome]
    exact List.ne_nil_of_mem (List.mem_filter.mpr ⟨hy, by simpa using hbetween.2⟩)
  obtain ⟨z, hz⟩ := Option.isSome_iff_exists.mp hsome
  have hyz := ((lastBefore_eq_some (h.sorted_getD k')).mp hz).2.2 y hy hbetween.2
  have hafter : z ∈ headingsAbove (levels.drop (k + 1)) j := by
    obtain ⟨arr, harr, -⟩ := mem_getD_iff.mp hy
    have harr' : (levels.drop (k + 1))[k' - (k + 1)]? = some arr := by
      rw [List.getElem?_drop, ← harr]
      congr 1
      omega
    have hget : levels.getD k' [] = arr := by
      rw [List.getD_eq_getElem?_getD, harr, Option.getD_some]
    exact List.mem_filterMap.mpr ⟨arr, List.mem_of_getElem? harr', hget ▸ hz⟩
  have hlt := SinglePop.lt_of_mem_foldl (headingsAbove_nodup h (i + 1) j) hrest hx hsplit z hafter
  omega

/-- The headings above a line of a real chain are those above its anchor that come later. -/
theorem headingsAbove_of_mem {levels : List (List ℕ)} (h : Ranked levels) {i j k x : ℕ}
    (hj : j ∈ levels.getD i []) (hreal : RealChain levels (chainAbove levels i j))
    (hx : x ∈ chainAbove levels i j) (hxj : x ≠ j) (hk : x ∈ levels.getD k []) :
    ∃ before, headingsAbove (levels.drop (i + 1)) j =
      before ++ x :: headingsAbove (levels.drop (k + 1)) x := by
  have hhead : (chainAbove levels i j).head? = some j := by
    rw [chainAbove_eq]
    rfl
  have htail : x ∈ (chainAbove levels i j).tail := by
    rw [chainAbove_eq] at hx ⊢
    exact (List.mem_cons.mp hx).resolve_left hxj
  obtain ⟨m, hm, hlast, hnone⟩ := hreal.2 i j hhead hj x htail
  obtain ⟨hxm, hlt⟩ := mem_of_lastBefore hlast
  obtain rfl := h.disjoint hxm hk
  rw [chainAbove_eq, List.tail_cons] at htail
  have hmem := (SinglePop.mem_of_mem_foldl htail).resolve_left List.not_mem_nil
  obtain ⟨m', -, hlast', hsplit⟩ := mem_headingsAbove hmem
  obtain rfl := h.disjoint (mem_of_lastBefore hlast').1 hk
  refine ⟨headingsAbove ((levels.drop (i + 1)).take (m' - (i + 1))) j, ?_⟩
  rw [hsplit]
  congr 2
  -- between the two lines there is no higher one
  apply List.filterMap_congr
  intro arr harr
  obtain ⟨k', hk', rfl⟩ := getD_of_mem_drop harr
  rw [lastBefore, lastBefore]
  congr 1
  apply List.filter_congr
  intro y hy
  have hyx : y ≠ x := by
    rintro rfl
    exact absurd (h.disjoint hk hy) (by omega)
  have hbetween := hnone k' hk' y hy
  simp only [decide_eq_decide]
  omega

theorem realChain_singleton (levels : List (List ℕ)) (j : ℕ) : RealChain levels [j] :=
  ⟨List.pairwise_singleton _ _, by simp⟩

/-- The chains are real exactly if no heading is stale. -/
theorem buildChains_real_iff {levels : List (List ℕ)} (h : Ranked levels) (depth : ℤ) :
    ∃ cks, buildChains levels depth = some cks ∧
      ((∀ ck ∈ cks, RealChain levels ck) ↔ NoStaleHeading levels depth) := by
  obtain ⟨st, hst, hcovers⟩ := buildChains_eq h depth
  refine ⟨st.cks, hst, fun hreal i hi j hj => ?_, fun hstale ck hck => ?_⟩
  · by_cases htop : i + 1 = levels.length - 1
    · apply SinglePop.descends_of_length_le
      refine (List.length_filterMap_le _ _).trans ?_
      rw [List.length_drop]
      omega
    · obtain ⟨ck, hck, hmem⟩ := hcovers.covered (i, j) (mem_anchorOrder.mpr ⟨hi, hj⟩)
      obtain ⟨⟨i', j'⟩, hline, rfl⟩ := hcovers.chain ck hck
      obtain ⟨-, hj'⟩ := mem_anchorOrder.mp hline
      dsimp only at hj'
      have hck := hreal _ hck
      by_cases hself : j = j'
      · obtain rfl := hself
        obtain rfl := h.disjoint hj hj'
        rw [chainOf, if_neg htop] at hck
        exact (chainAbove_pairwise_iff h i j).mp hck.1
      · rw [chainOf] at hck hmem
        split_ifs at hck hmem with htop'
        · exact absurd (List.mem_singleton.mp hmem) hself
        · obtain ⟨before, hsplit⟩ := headingsAbove_of_mem h hj' hck hmem hself hj
          have hdescends := (chainAbove_pairwise_iff h i' j').mp hck.1
          rw [hsplit] at hdescends
          exact hdescends.of_append.tail
  · obtain ⟨⟨i, j⟩, hline, rfl⟩ := hcovers.chain ck hck
    obtain ⟨hi, hj⟩ := mem_anchorOrder.mp hline
    rw [chainOf]
    split_ifs
    · exact realChain_singleton levels j
    · exact realChain_chainAbove h hj ((chainAbove_pairwise_iff h i j).mpr (hstale i hi j hj))

theorem levelsFromBelow_ranked (patterns : List Pattern) (kept : List (Text × Text)) :
    Ranked (levelsFromBelow patterns kept) :=
  (levelLists_ranked _ _).reverse

theorem levelBy_le (patterns : List Pattern) (text line layout : Text) :
    levelBy patterns text line layout ≤ patterns.length + 1 := by
  rcases hfind : patterns.findIdx? (·.matchStart (strip text)) with _ | i
  · simp only [levelBy, hfind]
    split_ifs <;> omega
  · have hlt := (List.findIdx?_eq_some_iff_findIdx_eq.mp hfind).1
    simp only [levelBy, hfind]
    omega

/-- The lines of the levels are those of the sections that are kept. -/
theorem exists_mem_levelsFromBelow {patterns : List Pattern} {kept : List (Text × Text)} {j : ℕ} :
    (∃ i < patterns.length + 2, j ∈ (levelsFromBelow patterns kept).getD i []) ↔
      j < kept.length := by
  have hlength := length_levelLists patterns.length (lineLevels patterns kept)
  have hmem : ∀ {i : ℕ}, i < patterns.length + 2 →
      (j ∈ (levelsFromBelow patterns kept).getD i [] ↔
        (lineLevels patterns kept)[j]? = some (patterns.length + 1 - i)) := fun {i} hi => by
    have hsub : patterns.length + 2 - 1 - i = patterns.length + 1 - i := by omega
    rw [levelsFromBelow, getD_reverse (by rw [hlength]; exact hi), hlength, hsub, mem_levelLists]
    exact and_iff_right (by omega)
  constructor
  · rintro ⟨i, hi, hj⟩
    have := (List.getElem?_eq_some_iff.mp ((hmem hi).mp hj)).1
    rwa [lineLevels, List.length_map] at this
  · intro hj
    have hlevel := levelBy_le patterns kept[j].1 kept[j].1 kept[j].2
    refine ⟨patterns.length + 1 - levelBy patterns kept[j].1 kept[j].1 kept[j].2, by omega,
      (hmem (by omega)).mpr ?_⟩
    rw [lineLevels, List.getElem?_map, List.getElem?_eq_getElem hj, Option.map_some]
    congr 1
    omega

theorem length_levelsFromBelow (patterns : List Pattern) (kept : List (Text × Text)) :
    (levelsFromBelow patterns kept).length = patterns.length + 2 := by
  rw [levelsFromBelow, List.length_reverse, length_levelLists]

theorem lt_length_of_mem_levels {patterns : List Pattern} {kept : List (Text × Text)} {i j : ℕ}
    (h : j ∈ (levelsFromBelow patterns kept).getD i []) : j < kept.length := by
  obtain ⟨arr, harr, -⟩ := mem_getD_iff.mp h
  have hi := (List.getElem?_eq_some_iff.mp harr).1
  rw [length_levelsFromBelow] at hi
  exact exists_mem_levelsFromBelow.mp ⟨i, hi, h⟩

/-- Without sections there are no lines to look at. -/
theorem anchorChains_eq {bull : ℤ} {patterns : List Pattern} (hbull : 0 ≤ bull)
    (hpatterns : pyGet bulletPattern bull = some patterns) (sections : Sections) (depth : ℤ) :
    anchorChains bull sections depth =
      buildChains (levelsFromBelow patterns (sections.toTuples.filter keepSection)) depth := by
  by_cases hsections : sections.toTuples = []
  · have hempty : anchorOrder (levelsFromBelow patterns []) depth = [] := by
      apply List.eq_nil_iff_forall_not_mem.mpr
      intro line hline
      exact absurd (lt_length_of_mem_levels (mem_anchorOrder.mp hline).2) (Nat.not_lt_zero _)
    rw [anchorChains, if_pos (Or.inl hsections), hsections, List.filter_nil, buildChains, hempty]
    rfl
  · have hgo : ¬ (sections.toTuples = [] ∨ bull < 0) := by
      rintro (h | h)
      · exact hsections h
      · omega
    rw [anchorChains, if_neg hgo, hpatterns, Option.bind_some]

/-- The lines of each chunk, from the highest heading down to its anchor, are a real chain of
headings exactly if no heading is stale. -/
theorem anchorChains_real_iff {bull : ℤ} {patterns : List Pattern} (hbull : 0 ≤ bull)
    (hpatterns : pyGet bulletPattern bull = some patterns) (sections : Sections) (depth : ℤ) :
    ∃ cks, anchorChains bull sections depth = some cks ∧
      ((∀ ck ∈ cks,
          RealChain (levelsFromBelow patterns (sections.toTuples.filter keepSection)) ck) ↔
        NoStaleHeading (levelsFromBelow patterns (sections.toTuples.filter keepSection))
          depth) := by
  rw [anchorChains_eq hbull hpatterns]
  exact buildChains_real_iff (levelsFromBelow_ranked patterns _) depth

/-- A heading of the second level, one of the third, one of the first, and a plain line. -/
def staleDocument : Sections :=
  .strings ["## bb".toList, "### cc".toList, "# aa".toList, "body".toList]

theorem anchorChains_real_iff_stale :
    ∃ cks, anchorChains 4 staleDocument 3 = some cks ∧
      ((∀ ck ∈ cks, RealChain (levelsFromBelow (bulletPattern.getD 4 [])
          (staleDocument.toTuples.filter keepSection)) ck) ↔
        NoStaleHeading (levelsFromBelow (bulletPattern.getD 4 [])
          (staleDocument.toTuples.filter keepSection)) 3) :=
  anchorChains_real_iff (by decide) rfl staleDocument 3

/-- Above the plain line the heading of the third level stays, before that of the first. -/
theorem not_anchorChains_real :
    ¬ ∀ (bull : ℤ) (patterns : List Pattern) (sections : Sections) (depth : ℤ), 0 ≤ bull →
      pyGet bulletPattern bull = some patterns → ∀ cks,
        anchorChains bull sections depth = some cks → ∀ ck ∈ cks,
          RealChain (levelsFromBelow patterns (sections.toTuples.filter keepSection)) ck := by
  intro h
  have hchains : anchorChains 4 staleDocument 3 = some [[3, 1, 2]] := by decide +kernel
  have hreal := h 4 _ staleDocument 3 (by decide) rfl _ hchains [3, 1, 2] (by simp)
  exact absurd hreal.1 (by decide)

/-! ## Nothing is lost -/

/-- The token count of some chunks together. -/
def groupTokens (numTokens : Text → ℕ) (group : List (List Text)) : ℕ :=
  (group.flatten.map (lineTokens numTokens)).sum

/-- What may be packed together: one chunk, or lines with few tokens. -/
def MayPack (numTokens : Text → ℕ) (group : List (List Text)) : Prop :=
  group.length ≤ 1 ∨ (∀ ck ∈ group, ck.length = 1) ∧ groupTokens numTokens group < 218

/-- The chunks that have been packed, in groups; the count is that of the last group, as long as
something may be added to it. -/
structure Packing.Holds (numTokens : Text → ℕ) (cks : List (List Text)) (st : Packing)
    (groups : List (List (List Text))) (last : List (List Text)) : Prop where
  flatten : groups.flatten ++ last = cks
  done_eq : st.done = groups.map List.flatten
  last_eq : st.last = last.flatten
  may_pack : ∀ group ∈ groups ++ [last], MayPack numTokens group
  open_last : st.num < 218 →
    (∀ ck ∈ last, ck.length = 1) ∧ groupTokens numTokens last = st.num

/-- A chunk that is put into a group of its own. -/
theorem Packing.Holds.close {numTokens : Text → ℕ} {cks last : List (List Text)} {st : Packing}
    {groups : List (List (List Text))} (h : st.Holds numTokens cks groups last) (ck : List Text)
    {n : ℕ} (hn : n < 218 → ck.length = 1 ∧ groupTokens numTokens [ck] = n) :
    Packing.Holds numTokens (cks ++ [ck]) ⟨st.res, ck, n⟩ (groups ++ [last]) [ck] where
  flatten := by rw [List.flatten_append, List.flatten_singleton, h.flatten]
  done_eq := by
    rw [List.map_append, ← h.done_eq, List.map_singleton, ← h.last_eq]
    rfl
  last_eq := by rw [List.flatten_singleton]
  may_pack group hgroup := by
    rcases List.mem_append.mp hgroup with hgroup | hgroup
    · exact h.may_pack group hgroup
    · obtain rfl := List.mem_singleton.mp hgroup
      exact Or.inl le_rfl
  open_last hlt := by
    obtain ⟨hlength, htokens⟩ := hn hlt
    exact ⟨by simpa using hlength, htokens⟩

theorem pack_holds {numTokens : Text → ℕ} {cks last : List (List Text)} {st : Packing}
    {groups : List (List (List Text))} (h : st.Holds numTokens cks groups last) (ck : List Text) :
    ∃ groups' last', (pack numTokens st ck).Holds numTokens (cks ++ [ck]) groups' last' := by
  match ck with
  | [text] =>
    dsimp only [pack]
    split_ifs with hroom
    · -- the line goes to the last group
      obtain ⟨hsingle, htokens⟩ := h.open_last (by omega)
      have htotal : groupTokens numTokens (last ++ [[text]]) =
          st.num + lineTokens numTokens text := by
        rw [← htokens]
        simp [groupTokens]
      have hsingle' : ∀ ck ∈ last ++ [[text]], ck.length = 1 := by
        intro ck hck
        rcases List.mem_append.mp hck with hck | hck
        · exact hsingle ck hck
        · rw [List.mem_singleton.mp hck]
          rfl
      refine ⟨groups, last ++ [[text]], ?_, h.done_eq, ?_, fun group hgroup => ?_, fun _ => ?_⟩
      · rw [← List.append_assoc, h.flatten]
      · rw [h.last_eq, List.flatten_append, List.flatten_singleton]
      · rcases List.mem_append.mp hgroup with hgroup | hgroup
        · exact h.may_pack group (List.mem_append_left _ hgroup)
        · rw [List.mem_singleton.mp hgroup]
          exact Or.inr ⟨hsingle', by omega⟩
      · exact ⟨hsingle', htotal⟩
    · exact ⟨_, _, h.close [text] fun _ => ⟨rfl, by simp [groupTokens]⟩⟩
  | [] => exact ⟨_, _, h.close [] fun hlt => absurd hlt (lt_irrefl _)⟩
  | a :: b :: rest => exact ⟨_, _, h.close (a :: b :: rest) fun hlt => absurd hlt (lt_irrefl _)⟩

/-- The result has the chunks one after the other, and packs together only what it may. -/
theorem foldl_pack_groups (numTokens : Text → ℕ) (cks : List (List Text)) :
    ∃ groups : List (List (List Text)), groups.flatten = cks ∧
      (cks.foldl (pack numTokens) {}).res = groups.map List.flatten ∧
      ∀ group ∈ groups, MayPack numTokens group := by
  have hrun : ∃ groups last,
      (cks.foldl (pack numTokens) {}).Holds numTokens cks groups last := by
    induction cks using List.reverseRecOn with
    | nil =>
      refine ⟨[], [], rfl, rfl, rfl, fun group hgroup => ?_, fun _ => ⟨by simp, rfl⟩⟩
      rw [List.mem_singleton.mp hgroup]
      exact Or.inl (Nat.zero_le 1)
    | append_singleton cks ck ih =>
      obtain ⟨groups, last, h⟩ := ih
      rw [List.foldl_append]
      exact pack_holds h ck
  obtain ⟨groups, last, h⟩ := hrun
  refine ⟨groups ++ [last], ?_, ?_, h.may_pack⟩
  · rw [List.flatten_append, List.flatten_singleton, h.flatten]
  · rw [Packing.res, h.done_eq, h.last_eq, List.map_append, List.map_singleton]

/-- Only lines of the levels are put on a chain. -/
theorem exists_mem_level_of_mem_chainOf {levels : List (List ℕ)} {line : ℕ × ℕ}
    (hline : line.2 ∈ levels.getD line.1 []) {x : ℕ} (hx : x ∈ chainOf levels line) :
    ∃ k, x ∈ levels.getD k [] := by
  rw [chainOf] at hx
  split_ifs at hx
  · rw [List.mem_singleton.mp hx]
    exact ⟨_, hline⟩
  · rw [chainAbove_eq] at hx
    rcases List.mem_cons.mp hx with rfl | hx
    · exact ⟨_, hline⟩
    · have hmem := (SinglePop.mem_of_mem_foldl hx).resolve_left List.not_mem_nil
      obtain ⟨k, -, hlast, -⟩ := mem_headingsAbove hmem
      exact ⟨k, (mem_of_lastBefore hlast).1⟩

theorem pyTake_of_length_le {α : Type*} {l : List α} {k : ℤ} (h : (l.length : ℤ) ≤ k) :
    pyTake l k = l := by
  rw [pyTake, if_pos (by omega), List.take_of_length_le (by omega)]

theorem Ranked.binarySearch_isSome {levels : List (List ℕ)} (h : Ranked levels) {i k j : ℕ}
    (hik : i < k) (hj : j ∈ levels.getD i []) : (binarySearch (levels.getD k []) j).isSome := by
  have hnot : j ∉ levels.getD k [] := fun hk => hik.ne (h.disjoint hj hk)
  rw [binarySearch_eq (h.sorted_getD k) hnot]
  rfl

/-- The lines of a chain are lines of the document. -/
theorem chainTexts_eq {patterns : List Pattern} {kept : List (Text × Text)} {depth : ℤ}
    {st : Chains} (h : st.Covers (levelsFromBelow patterns kept)
      (anchorOrder (levelsFromBelow patterns kept) depth)) {ck : List ℕ} (hck : ck ∈ st.cks) :
    chainTexts (kept.map Prod.fst) ck =
      some (ck.reverse.filterMap fun j => (kept.map Prod.fst)[j]?) := by
  apply mapM_eq_some_filterMap
  intro j hj
  obtain ⟨line, hline, rfl⟩ := h.chain ck hck
  obtain ⟨k, hk⟩ := exists_mem_level_of_mem_chainOf (mem_anchorOrder.mp hline).2
    (List.mem_reverse.mp hj)
  rw [List.getElem?_eq_getElem (by rw [List.length_map]; exact lt_length_of_mem_levels hk)]
  rfl

/-- Every line has a level; when every level is looked at, each line is on a chain. -/
theorem exists_mem_chainTexts {patterns : List Pattern} {kept : List (Text × Text)} {depth : ℤ}
    (hdepth : (patterns.length : ℤ) + 2 ≤ depth) {st : Chains}
    (h : st.Covers (levelsFromBelow patterns kept)
      (anchorOrder (levelsFromBelow patterns kept) depth)) {sec : Text × Text} (hsec : sec ∈ kept) :
    ∃ text ∈ st.cks.filterMap (chainTexts (kept.map Prod.fst)), sec.1 ∈ text := by
  obtain ⟨j, hj, rfl⟩ := List.mem_iff_getElem.mp hsec
  obtain ⟨i, hi, hlevel⟩ := (@exists_mem_levelsFromBelow patterns kept j).mpr hj
  have hlength := length_levelsFromBelow patterns kept
  have hlook : i < (pyTake (levelsFromBelow patterns kept) depth).length := by
    rw [pyTake_of_length_le (by omega), hlength]
    exact hi
  obtain ⟨ck, hck, hmem⟩ := h.covered (i, j) (mem_anchorOrder.mpr ⟨hlook, hlevel⟩)
  refine ⟨_, List.mem_filterMap.mpr ⟨ck, hck, chainTexts_eq h hck⟩,
    List.mem_filterMap.mpr ⟨j, List.mem_reverse.mpr hmem, ?_⟩⟩
  rw [List.getElem?_map, List.getElem?_eq_getElem hj]
  rfl

/-- When all levels are looked at, the merge returns with every section that is kept in a chunk,
the search never meets its assertion, and lines are packed together only while they have fewer
than 218 tokens. -/
theorem hierarchicalMerge_covers (numTokens : Text → ℕ) {bull : ℤ} {patterns : List Pattern}
    (hbull : 0 ≤ bull) (hpatterns : pyGet bulletPattern bull = some patterns)
    (sections : Sections) {depth : ℤ} (hdepth : (patterns.length : ℤ) + 2 ≤ depth) :
    let kept := sections.toTuples.filter keepSection
    let levels := levelsFromBelow patterns kept
    (∀ i k j : ℕ, i < k → j ∈ levels.getD i [] →
      (binarySearch (levels.getD k []) j).isSome) ∧
    ∃ cks texts res, anchorChains bull sections depth = some cks ∧
      cks.mapM (chainTexts (kept.map Prod.fst)) = some texts ∧
      hierarchicalMerge numTokens bull sections depth = some res ∧
      (∀ sec ∈ kept, ∃ chunk ∈ res, sec.1 ∈ chunk) ∧
      ∃ groups : List (List (List Text)), groups.flatten = texts ∧
        res = groups.map List.flatten ∧ ∀ group ∈ groups, MayPack numTokens group := by
  intro kept levels
  have hranked : Ranked levels := levelsFromBelow_ranked patterns kept
  refine ⟨fun i k j hik hj => hranked.binarySearch_isSome hik hj, ?_⟩
  obtain ⟨st, hst, hcovers⟩ := buildChains_eq hranked depth
  have hchains : anchorChains bull sections depth = some st.cks :=
    (anchorChains_eq hbull hpatterns sections depth).trans hst
  have hall : st.cks.mapM (chainTexts (kept.map Prod.fst)) =
      some (st.cks.filterMap (chainTexts (kept.map Prod.fst))) :=
    mapM_eq_some_filterMap fun ck hck => by rw [chainTexts_eq hcovers hck]; rfl
  obtain ⟨groups, hgroups, hres, hpack⟩ :=
    foldl_pack_groups numTokens (st.cks.filterMap (chainTexts (kept.map Prod.fst)))
  by_cases hempty : st.cks = []
  · refine ⟨st.cks, [], [], hchains, by rw [hempty]; rfl, ?_, fun sec hsec => ?_, [], rfl, rfl,
      by simp⟩
    · rw [hierarchicalMerge, hchains, Option.bind_some, if_pos hempty]
    · obtain ⟨text, htext, -⟩ := exists_mem_chainTexts hdepth hcovers hsec
      rw [hempty] at htext
      simp at htext
  · refine ⟨st.cks, _, _, hchains, hall, ?_, fun sec hsec => ?_, groups, hgroups, hres, hpack⟩
    · rw [hierarchicalMerge, hchains, Option.bind_some, if_neg hempty]
      dsimp only
      rw [hall, Option.map_some]
    · obtain ⟨text, htext, hmem⟩ := exists_mem_chainTexts hdepth hcovers hsec
      rw [← hgroups] at htext
      obtain ⟨group, hgroup, htext⟩ := List.mem_flatten.mp htext
      rw [hres]
      exact ⟨group.flatten, List.mem_map_of_mem hgroup, List.mem_flatten.mpr ⟨text, htext, hmem⟩⟩

theorem hierarchicalMerge_covers_stale :
    let kept := staleDocument.toTuples.filter keepSection
    let levels := levelsFromBelow (bulletPattern.getD 4 []) kept
    (∀ i k j : ℕ, i < k → j ∈ levels.getD i [] →
      (binarySearch (levels.getD k []) j).isSome) ∧
    ∃ cks texts res, anchorChains 4 staleDocument 8 = some cks ∧
      cks.mapM (chainTexts (kept.map Prod.fst)) = some texts ∧
      hierarchicalMerge List.length 4 staleDocument 8 = some res ∧
      (∀ sec ∈ kept, ∃ chunk ∈ res, sec.1 ∈ chunk) ∧
      ∃ groups : List (List (List Text)), groups.flatten = texts ∧
        res = groups.map List.flatten ∧ ∀ group ∈ groups, MayPack List.length group :=
  hierarchicalMerge_covers List.length (by decide) rfl staleDocument (by decide)

end RagflowMineru.Nlp
