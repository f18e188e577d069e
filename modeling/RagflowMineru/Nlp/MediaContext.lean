import RagflowMineru.Library.Assoc
import RagflowMineru.Library.Paging
import RagflowMineru.Nlp.NaiveMerge
import RagflowMineru.Nlp.Sentences
import Mathlib.Data.Prod.Lex

/-!
# Text around tables and images

`attach_media_context` orders chunks by their positions and gives every table and
image sentences of one text chunk: of the nearest one that overlaps it on a page,
or else of a neighbour on its page.  The sentences stand before and after the text
that the table or image has itself.
-/

namespace RagflowMineru.Nlp

open RagflowMineru.Library

/-! ## Chunks -/

/-- The entries of a chunk that are read or written.  `none` is a missing key; of the texts it may
also be that the value under the key is no string.  An empty list is a missing one. -/
structure DocChunk where
  docTypeKwd : Option Text := none
  contentWithWeight : Option (Option Text) := none
  text : Option (Option Text) := none
  image : Bool := false
  contentLtks : Option Text := none
  contentSmLtks : Option Text := none
  pageNumInt : List (Option ℚ) := []
  pageNumber : Option ℚ := none
  topInt : List (Option ℚ) := []
  top : Option ℚ := none
  positionInt : List (List (Option ℚ)) := []
  x0 : Option ℚ := none
  bottom : Option ℚ := none
  deriving DecidableEq

namespace DocChunk

/-- `text_val` -/
def textVal (ck : DocChunk) : Option Text :=
  match ck.contentWithWeight with
  | some (some t) => some t
  | _ => ck.text.join

def isImageChunk (ck : DocChunk) : Bool :=
  if ck.docTypeKwd = some "image".toList then true
  else
    let hasText := ck.textVal.any fun t => strip t ≠ []
    ck.image && !hasText

def isTableChunk (ck : DocChunk) : Bool :=
  ck.docTypeKwd = some "table".toList

def isTextChunk (ck : DocChunk) : Bool :=
  !ck.isImageChunk && !ck.isTableChunk

def getText (ck : DocChunk) : Text :=
  match ck.contentWithWeight, ck.text with
  | some (some t), _ => t
  | _, some (some t) => t
  | _, _ => []

/-- `extract_position`: the page, the top and the left. -/
def extractPosition (ck : DocChunk) : Option ℚ × Option ℚ × Option ℚ :=
  let pn := match ck.pageNumInt with
    | pn :: _ => pn
    | [] => ck.pageNumber
  let top := match ck.topInt with
    | top :: _ => top
    | [] => ck.top
  match ck.positionInt with
  | [] => (pn, top, ck.x0)
  | pos :: _ => match pos[1]? with
    | some left => (pn, top, left)
    | none => (none, none, none) -- an exception

/-- The upper bound first. -/
def bounds (top : ℚ) (bottom : Option ℚ) : ℚ × ℚ :=
  if bottom.getD top < top then (bottom.getD top, top) else (top, bottom.getD top)

/-- One entry of `position_int`; `none` is an exception. -/
def addBounds (found : Assoc ℤ (ℚ × ℚ)) (pos : List (Option ℚ)) : Option (Assoc ℤ (ℚ × ℚ)) :=
  if pos.length < 5 then some found
  else match pos with
    | [some pn, _, _, some top, bottom] =>
      let new := bounds top bottom
      match found.get? (truncate pn) with
      | some old => some (found.set (truncate pn) (min old.1 new.1, max old.2 new.2))
      | none => some (found.set (truncate pn) new)
    | [_, _, _, _, _] => some found
    | _ => none

/-- `get_bounds_by_page` -/
def getBoundsByPage (ck : DocChunk) : Assoc ℤ (ℚ × ℚ) :=
  if ck.positionInt ≠ [] then (ck.positionInt.foldlM addBounds []).getD []
  else
    let pn := match ck.pageNumInt with
      | pn :: _ => pn
      | [] => ck.pageNumber
    let top := match ck.topInt with
      | top :: _ => top
      | [] => ck.top
    match pn, top with
    | some pn, some top => [(truncate pn, bounds top ck.bottom)]
    | _, _ => []

end DocChunk

/-! ## The order of the chunks -/

/-- The key by which chunks with positions are sorted. -/
def sortKey (item : ℕ × ℚ × ℚ × ℚ) : ℤ ×ₗ ℤ ×ₗ ℤ ×ₗ ℕ :=
  toLex (truncate item.2.1, toLex (truncate item.2.2.1, toLex (truncate item.2.2.2, item.1)))

/-- A chunk with its place, if it has a page and a top. -/
def positioned (item : DocChunk × ℕ) : Option (ℕ × ℚ × ℚ × ℚ) :=
  match item.1.extractPosition with
  | (some pn, some top, left) => some (item.2, pn, top, left.getD 0)
  | _ => none

def positionedIndices (chunks : List DocChunk) : List (ℕ × ℚ × ℚ × ℚ) :=
  chunks.zipIdx.filterMap positioned

/-- Chunks with positions by these, then those without. -/
def orderedIndices (chunks : List DocChunk) : List ℕ :=
  if positionedIndices chunks ≠ [] then
    ((positionedIndices chunks).insertionSort fun a b => sortKey a ≤ sortKey b).map Prod.fst ++
      (chunks.zipIdx.filter fun item => (positioned item).isNone).map Prod.snd
  else chunks.zipIdx.map Prod.snd

/-! ## The anchor -/

/-- The text chunks with their bounds. -/
def textBounds (chunks : List DocChunk) : List (ℕ × Assoc ℤ (ℚ × ℚ)) :=
  (chunks.zipIdx.filter fun item => item.1.isTextChunk && item.1.getBoundsByPage ≠ []).map
    fun item => (item.2, item.1.getBoundsByPage)

/-- The distances of the middles, wherever a text chunk overlaps on a page. -/
def overlaps (mediaBounds : Assoc ℤ (ℚ × ℚ)) (texts : List (ℕ × Assoc ℤ (ℚ × ℚ))) :
    List (ℕ × ℚ) :=
  texts.flatMap fun (idx, found) => found.filterMap fun (pn, (tTop, tBottom)) =>
    match mediaBounds.get? pn with
    | none => none
    | some (mTop, mBottom) =>
      if mBottom < tTop ∨ tBottom < mTop then none
      else some (idx, |(mTop + mBottom) / 2 - (tTop + tBottom) / 2|)

/-- The first of the nearest ones. -/
def nearest (candidates : List (ℕ × ℚ)) : Option (ℕ × ℚ) :=
  candidates.foldl (fun best c => match best with
    | none => some c
    | some b => if c.2 < b.2 then some c else some b) none

/-- The text chunk next to the first or last chunk of a page. -/
def pageNeighbour (chunks : List DocChunk) (ordered : List ℕ)
    (mediaBounds : Assoc ℤ (ℚ × ℚ)) (idx : ℕ) : Option ℕ :=
  match (mediaBounds.map Prod.fst).min? with
  | none => none
  | some mediaPage =>
    let pageOrder := ordered.filter fun i =>
      ((chunks[i]?).bind fun ck => ck.extractPosition.1) = some (mediaPage : ℚ)
    let isText := fun i : ℕ => (chunks[i]?).any DocChunk.isTextChunk
    if idx ∉ pageOrder then none
    else if pageOrder.idxOf idx = 0 then (pageOrder.drop 1).find? isText
    else if pageOrder.idxOf idx = pageOrder.length - 1 then
      (pageOrder.take (pageOrder.idxOf idx)).reverse.find? isText
    else none

/-- `best_idx` -/
def anchorIdx (chunks : List DocChunk) (texts : List (ℕ × Assoc ℤ (ℚ × ℚ)))
    (ordered : List ℕ) (idx : ℕ) (ck : DocChunk) : Option ℕ :=
  match nearest (overlaps ck.getBoundsByPage texts) with
  | some (best, _) => some best
  | none => pageNeighbour chunks ordered ck.getBoundsByPage idx

/-! ## The merge -/

/-- The token counter and the tokenizer. -/
structure TextTools where
  numTokens : Text → ℕ
  tokenize : Text → Text
  fineGrainedTokenize : Text → Text

/-- The text of a chunk is replaced, and its tokens are made again if it is another one. -/
def DocChunk.withText (tools : TextTools) (ck : DocChunk) (combined : Text) : DocChunk :=
  let (ck, original) := match ck.contentWithWeight, ck.text with
    | some original, _ => ({ ck with contentWithWeight := some (some combined) }, original)
    | none, some original => ({ ck with text := some (some combined) }, original)
    | none, none => (ck, none)
  if original = some combined then ck
  else
    let ltks := ck.contentLtks.map fun _ => tools.tokenize combined
    { ck with
      contentLtks := ltks
      contentSmLtks := ck.contentSmLtks.map fun _ =>
        tools.fineGrainedTokenize (ltks.getD (tools.tokenize combined)) }

/-- `"\n".join(pieces)` -/
def combine (prevCtx : List Text) (selfText : Text) (nextCtx : List Text) : Text :=
  joinLines (prevCtx ++ (if selfText = [] then [] else [selfText]) ++ nextCtx)

def tokenBudget (tableContextSize imageContextSize : ℤ) (ck : DocChunk) : ℤ :=
  if ck.isImageChunk then imageContextSize else if ck.isTableChunk then tableContextSize else 0

/-- The context of a chunk, if it is a table or an image with an anchor. -/
def contextOf (tools : TextTools) (tableContextSize imageContextSize : ℤ)
    (texts : List (ℕ × Assoc ℤ (ℚ × ℚ))) (ordered : List ℕ) (chunks : List DocChunk) (idx : ℕ)
    (ck : DocChunk) : List Text × List Text :=
  if tokenBudget tableContextSize imageContextSize ck ≤ 0 then ([], [])
  else match (anchorIdx chunks texts ordered idx ck).bind fun best => chunks[best]? with
    | none => ([], [])
    | some anchor =>
      let sentences := splitSentences anchor.getText
      if sentences = [] then ([], [])
      else collectContext tools.numTokens sentences
        (findMidSentenceIndex tools.numTokens sentences)
        (tokenBudget tableContextSize imageContextSize ck)

/-- One round of the loop over the chunks. -/
def attachTo (tools : TextTools) (tableContextSize imageContextSize : ℤ)
    (texts : List (ℕ × Assoc ℤ (ℚ × ℚ))) (ordered : List ℕ) (chunks : List DocChunk) (idx : ℕ) :
    List DocChunk :=
  match chunks[idx]? with
  | none => chunks
  | some ck =>
    match contextOf tools tableContextSize imageContextSize texts ordered chunks idx ck with
    | ([], []) => chunks
    | (prevCtx, nextCtx) =>
      chunks.set idx (ck.withText tools (combine prevCtx ck.getText nextCtx))

def attachMediaContext (tools : TextTools) (chunks : List DocChunk)
    (tableContextSize imageContextSize : ℤ) : List DocChunk :=
  if chunks = [] ∨ tableContextSize ≤ 0 ∧ imageContextSize ≤ 0 then chunks
  else
    let ordered := orderedIndices chunks
    let final := ordered.foldl
      (attachTo tools tableContextSize imageContextSize (textBounds chunks) ordered) chunks
    if positionedIndices chunks ≠ [] then ordered.filterMap fun i => final[i]? else final

/-! ## The order is one of all chunks -/

theorem map_fst_positionedIndices (chunks : List DocChunk) :
    (positionedIndices chunks).map Prod.fst =
      (chunks.zipIdx.filter fun item => !(positioned item).isNone).map Prod.snd := by
  rw [positionedIndices]
  induction chunks.zipIdx with
  | nil => rfl
  | cons item rest ih =>
    rcases hitem : positioned item with _ | found
    · rw [List.filterMap_cons_none hitem, List.filter_cons_of_neg (by simp [hitem]), ih]
    · have hplace : found.1 = item.2 := by
        unfold positioned at hitem
        split at hitem
        · exact congrArg Prod.fst (Option.some.inj hitem).symm
        · simp at hitem
      rw [List.filterMap_cons_some hitem, List.filter_cons_of_pos (by simp [hitem]), List.map_cons,
        List.map_cons, ih, hplace]

theorem map_snd_zipIdx (chunks : List DocChunk) :
    chunks.zipIdx.map Prod.snd = List.range chunks.length := by
  rw [List.zipIdx_map_snd, List.range_eq_range']

theorem orderedIndices_perm (chunks : List DocChunk) :
    (orderedIndices chunks).Perm (List.range chunks.length) := by
  rw [← map_snd_zipIdx, orderedIndices]
  split_ifs
  · have hsort := ((positionedIndices chunks).perm_insertionSort
      fun a b => sortKey a ≤ sortKey b).map Prod.fst
    rw [map_fst_positionedIndices] at hsort
    have hsplit := List.filter_append_perm (fun item => !(positioned item).isNone) chunks.zipIdx
    simp only [Bool.not_not] at hsplit
    refine (hsort.append_right _).trans ?_
    rw [← List.map_append]
    exact hsplit.map Prod.snd
  · exact List.Perm.refl _

/-! ## One round -/

section Rounds

variable {tools : TextTools} {tableContextSize imageContextSize : ℤ}
  {texts : List (ℕ × Assoc ℤ (ℚ × ℚ))} {ordered : List ℕ}

theorem contextOf_of_isTextChunk {chunks : List DocChunk} {idx : ℕ} {ck : DocChunk}
    (h : ck.isTextChunk) :
    contextOf tools tableContextSize imageContextSize texts ordered chunks idx ck = ([], []) := by
  have hbudget : tokenBudget tableContextSize imageContextSize ck = 0 := by
    rw [DocChunk.isTextChunk, Bool.and_eq_true, Bool.not_eq_true', Bool.not_eq_true'] at h
    rw [tokenBudget, h.1, h.2, if_neg Bool.false_ne_true, if_neg Bool.false_ne_true]
  rw [contextOf, if_pos hbudget.le]

/-- A round is for one chunk. -/
theorem attachTo_of_ne (chunks : List DocChunk) {idx j : ℕ} (hne : j ≠ idx) :
    (attachTo tools tableContextSize imageContextSize texts ordered chunks idx)[j]? =
      chunks[j]? := by
  unfold attachTo
  split
  · rfl
  · split
    · rfl
    · exact List.getElem?_set_ne hne.symm

theorem length_attachTo (chunks : List DocChunk) (idx : ℕ) :
    (attachTo tools tableContextSize imageContextSize texts ordered chunks idx).length =
      chunks.length := by
  unfold attachTo
  split
  · rfl
  · split
    · rfl
    · exact List.length_set

/-- A chunk that counts as a text chunk stays as it is from then on. -/
theorem attachTo_of_isTextChunk {chunks : List DocChunk} {a : ℕ} {ck : DocChunk}
    (ha : chunks[a]? = some ck) (h : ck.isTextChunk) (idx : ℕ) :
    (attachTo tools tableContextSize imageContextSize texts ordered chunks idx)[a]? = some ck := by
  by_cases hne : a = idx
  · obtain rfl := hne
    rw [attachTo, ha]
    dsimp only
    rw [contextOf_of_isTextChunk h]
    exact ha
  · rw [attachTo_of_ne chunks hne, ha]

theorem foldl_attachTo_of_isTextChunk {chunks : List DocChunk} {a : ℕ} {ck : DocChunk}
    (ha : chunks[a]? = some ck) (h : ck.isTextChunk) (idxs : List ℕ) :
    (idxs.foldl (attachTo tools tableContextSize imageContextSize texts ordered) chunks)[a]? =
      some ck := by
  induction idxs generalizing chunks with
  | nil => exact ha
  | cons idx idxs ih => exact ih (attachTo_of_isTextChunk ha h idx)

theorem foldl_attachTo_of_notMem (chunks : List DocChunk) {idxs : List ℕ} {j : ℕ}
    (hj : j ∉ idxs) :
    (idxs.foldl (attachTo tools tableContextSize imageContextSize texts ordered) chunks)[j]? =
      chunks[j]? := by
  induction idxs generalizing chunks with
  | nil => rfl
  | cons idx idxs ih =>
    obtain ⟨hne, hrest⟩ := not_or.mp (mt List.mem_cons.mpr hj)
    rw [List.foldl_cons, ih _ hrest, attachTo_of_ne chunks hne]

theorem length_foldl_attachTo (chunks : List DocChunk) (idxs : List ℕ) :
    (idxs.foldl (attachTo tools tableContextSize imageContextSize texts ordered) chunks).length =
      chunks.length := by
  induction idxs generalizing chunks with
  | nil => rfl
  | cons idx idxs ih => rw [List.foldl_cons, ih, length_attachTo]

/-! ## The anchor is a text chunk -/

theorem mem_of_nearest {candidates : List (ℕ × ℚ)} {c : ℕ × ℚ} (h : nearest candidates = some c) :
    c ∈ candidates := by
  induction candidates using List.reverseRecOn generalizing c with
  | nil => simp [nearest] at h
  | append_singleton candidates new ih =>
    rw [nearest, List.foldl_append, List.foldl_cons, List.foldl_nil, ← nearest] at h
    rcases hbest : nearest candidates with _ | best
    · rw [hbest] at h
      obtain rfl := Option.some.inj h
      simp
    · rw [hbest] at h
      dsimp only at h
      split_ifs at h
      · obtain rfl := Option.some.inj h
        simp
      · exact List.mem_append_left _ (ih (hbest.trans h))

/-- A candidate is a text chunk of the list with which the loop began. -/
theorem isTextChunk_of_mem_overlaps {chunks : List DocChunk} {mediaBounds : Assoc ℤ (ℚ × ℚ)}
    {c : ℕ × ℚ} (h : c ∈ overlaps mediaBounds (textBounds chunks)) :
    ∃ ck, chunks[c.1]? = some ck ∧ ck.isTextChunk := by
  obtain ⟨⟨idx, found⟩, hmem, hc⟩ := List.mem_flatMap.mp h
  obtain ⟨⟨ck, idx'⟩, hitem, heq⟩ := List.mem_map.mp hmem
  obtain ⟨hidx, -⟩ := Prod.mk.inj heq
  dsimp only at hidx
  obtain rfl := hidx
  obtain ⟨hplace, htext⟩ := List.mem_filter.mp hitem
  rw [Bool.and_eq_true] at htext
  obtain ⟨entry, -, hsome⟩ := List.mem_filterMap.mp hc
  have hfst : c.1 = idx' := by
    dsimp only at hsome
    split at hsome
    · simp at hsome
    · split_ifs at hsome
      exact congrArg Prod.fst (Option.some.inj hsome).symm
  rw [hfst]
  exact ⟨ck, List.mem_zipIdx_iff_getElem?.mp hplace, htext.1⟩

theorem isTextChunk_of_pageNeighbour {chunks : List DocChunk} {mediaBounds : Assoc ℤ (ℚ × ℚ)}
    {idx a : ℕ} (h : pageNeighbour chunks ordered mediaBounds idx = some a) :
    ∃ ck, chunks[a]? = some ck ∧ ck.isTextChunk := by
  have htext : (chunks[a]?).any DocChunk.isTextChunk = true := by
    unfold pageNeighbour at h
    split at h
    · simp at h
    · dsimp only at h
      split_ifs at h
      · have hfound := List.find?_some h
        exact hfound
      · have hfound := List.find?_some h
        exact hfound
  rwa [Option.any_eq_true] at htext

/-- The text chunks with which the loop began are still there. -/
def SameTexts (start chunks : List DocChunk) : Prop :=
  ∀ (i : ℕ) (ck : DocChunk), start[i]? = some ck → ck.isTextChunk → chunks[i]? = some ck

theorem isTextChunk_of_anchorIdx {start chunks : List DocChunk} {idx a : ℕ} {ck : DocChunk}
    (hkeep : SameTexts start chunks)
    (h : anchorIdx chunks (textBounds start) ordered idx ck = some a) :
    ∃ anchor, chunks[a]? = some anchor ∧ anchor.isTextChunk := by
  unfold anchorIdx at h
  split at h
  · rename_i best dist hnearest
    obtain rfl := Option.some.inj h
    obtain ⟨anchor, hanchor, htext⟩ := isTextChunk_of_mem_overlaps (mem_of_nearest hnearest)
    exact ⟨anchor, hkeep _ anchor hanchor htext, htext⟩
  · exact isTextChunk_of_pageNeighbour h

end Rounds

/-! ## What is attached -/

def DocChunk.hasTextKey (ck : DocChunk) : Bool :=
  ck.contentWithWeight.isSome || ck.text.isSome

theorem getText_withText (tools : TextTools) {ck : DocChunk} (h : ck.hasTextKey)
    (combined : Text) : (ck.withText tools combined).getText = combined := by
  rcases ck with ⟨_, content, text, _, ltks, smLtks, _, _, _, _, _, _, _⟩
  rcases content with _ | original
  · rcases text with _ | original
    · simp [DocChunk.hasTextKey] at h
    · dsimp only [DocChunk.withText]
      split_ifs <;> rfl
  · dsimp only [DocChunk.withText]
    split_ifs <;> rfl

/-- A chunk in the end: it is as it was, or, if it is a table or an image, its own text stands
between sentences of one text chunk, in their order, which are `within` its budget. -/
def Attached (tools : TextTools) (tableContextSize imageContextSize : ℤ)
    (within : ℤ → List Text → List Text → Prop) (final : List DocChunk) (ck ck' : DocChunk) :
    Prop :=
  ck' = ck ∨
    ck.isTextChunk = false ∧ ∃ anchor ∈ final, anchor.isTextChunk ∧ ∃ prevCtx nextCtx,
      (prevCtx ++ nextCtx).Sublist (splitSentences anchor.getText) ∧
      within (tokenBudget tableContextSize imageContextSize ck) prevCtx nextCtx ∧
      ck' = ck.withText tools (combine prevCtx ck.getText nextCtx) ∧
      (ck.hasTextKey → ck'.getText = combine prevCtx ck.getText nextCtx)

/-- The result has the chunks of the list, each with what is attached to it. -/
def KeepsChunks (tools : TextTools) (within : ℤ → List Text → List Text → Prop)
    (chunks : List DocChunk) (tableContextSize imageContextSize : ℤ) : Prop :=
  ∃ final, (attachMediaContext tools chunks tableContextSize imageContextSize).Perm final ∧
    List.Forall₂ (Attached tools tableContextSize imageContextSize within final) chunks final

/-- The tokens on each side are at most the budget. -/
def WithinBudget (numTokens : Text → ℕ) (budget : ℤ) (prevCtx nextCtx : List Text) : Prop :=
  (((prevCtx.map numTokens).sum : ℕ) : ℤ) ≤ budget ∧
    (((nextCtx.map numTokens).sum : ℕ) : ℤ) ≤ budget

/-- The tokens on each side without those of the outermost sentence are fewer than the budget. -/
def NearBudget (numTokens : Text → ℕ) (budget : ℤ) (prevCtx nextCtx : List Text) : Prop :=
  (((prevCtx.tail.map numTokens).sum : ℕ) : ℤ) < budget ∧
    (((nextCtx.dropLast.map numTokens).sum : ℕ) : ℤ) < budget

/-- What a round does to its own chunk. -/
theorem attachTo_self {tools : TextTools} {tableContextSize imageContextSize : ℤ}
    {ordered : List ℕ} {start chunks : List DocChunk} (hkeep : SameTexts start chunks) {idx : ℕ}
    {ck : DocChunk} (hidx : chunks[idx]? = some ck) :
    (attachTo tools tableContextSize imageContextSize (textBounds start) ordered chunks idx)[idx]? =
        some ck ∨
      ck.isTextChunk = false ∧ ∃ (a : ℕ) (anchor : DocChunk), chunks[a]? = some anchor ∧
        anchor.isTextChunk ∧
        ∃ prevCtx nextCtx, (prevCtx ++ nextCtx).Sublist (splitSentences anchor.getText) ∧
          NearBudget tools.numTokens (tokenBudget tableContextSize imageContextSize ck) prevCtx
            nextCtx ∧
          (attachTo tools tableContextSize imageContextSize (textBounds start) ordered chunks
              idx)[idx]? =
            some (ck.withText tools (combine prevCtx ck.getText nextCtx)) := by
  rcases htext : ck.isTextChunk
  · rw [attachTo, hidx]
    dsimp only
    by_cases hbudget : tokenBudget tableContextSize imageContextSize ck ≤ 0
    · left
      rw [contextOf, if_pos hbudget]
      exact hidx
    rcases hanchor : (anchorIdx chunks (textBounds start) ordered idx ck).bind
        fun best => chunks[best]? with _ | anchor
    · left
      rw [contextOf, if_neg hbudget, hanchor]
      exact hidx
    obtain ⟨a, ha, hget⟩ := Option.bind_eq_some_iff.mp hanchor
    obtain ⟨anchor', hanchor', hanchorText⟩ := isTextChunk_of_anchorIdx hkeep ha
    obtain rfl := Option.some.inj (hget.symm.trans hanchor')
    by_cases hsentences : splitSentences anchor.getText = []
    · left
      rw [contextOf, if_neg hbudget, hanchor]
      dsimp only
      rw [if_pos hsentences]
      exact hidx
    · obtain ⟨hsublist, hprev, hnext⟩ := @collectContext_spec tools.numTokens
        anchor.getText (findMidSentenceIndex tools.numTokens (splitSentences anchor.getText)) _
        (not_le.mp hbudget)
      rw [contextOf, if_neg hbudget, hanchor]
      dsimp only
      rw [if_neg hsentences]
      split
      · exact Or.inl hidx
      · rename_i prevCtx nextCtx _ hcontext
        rw [hcontext] at hsublist hprev hnext
        refine Or.inr ⟨rfl, a, anchor, hget, hanchorText, prevCtx, nextCtx, hsublist,
          ⟨hprev, hnext⟩, ?_⟩
        exact List.getElem?_set_self (List.getElem?_eq_some_iff.mp hidx).1
  · exact Or.inl (attachTo_of_isTextChunk hidx htext idx)

/-- Every chunk has one round of its own, in which the text chunks are already as in the end. -/
theorem exists_attached {tools : TextTools} {tableContextSize imageContextSize : ℤ}
    {chunks : List DocChunk} {ordered idxs : List ℕ} (hnodup : idxs.Nodup) {i : ℕ}
    (hi : i ∈ idxs) {ck : DocChunk} (hck : chunks[i]? = some ck) :
    let final := idxs.foldl
      (attachTo tools tableContextSize imageContextSize (textBounds chunks) ordered) chunks
    ∃ ck', final[i]? = some ck' ∧ Attached tools tableContextSize imageContextSize
      (NearBudget tools.numTokens) final ck ck' := by
  obtain ⟨pre, post, rfl⟩ := List.append_of_mem hi
  have hpre : i ∉ pre := fun h => (List.nodup_append.mp hnodup).2.2 i h i (by simp) rfl
  have hpost : i ∉ post := (List.nodup_cons.mp (List.nodup_append.mp hnodup).2.1).1
  -- the state before the round of this chunk
  obtain ⟨mid, hmid⟩ : ∃ mid, mid = pre.foldl (attachTo tools tableContextSize imageContextSize
      (textBounds chunks) ordered) chunks := ⟨_, rfl⟩
  have hbefore : mid[i]? = some ck := by rw [hmid, foldl_attachTo_of_notMem chunks hpre, hck]
  have hkeep : SameTexts chunks mid := fun j text hj htext => by
    rw [hmid, foldl_attachTo_of_isTextChunk hj htext pre]
  intro final
  have hfold : final = (i :: post).foldl (attachTo tools tableContextSize imageContextSize
      (textBounds chunks) ordered) mid := by rw [hmid, ← List.foldl_append]
  have hafter : final[i]? = (attachTo tools tableContextSize imageContextSize (textBounds chunks)
      ordered mid i)[i]? := by
    rw [hfold, List.foldl_cons, foldl_attachTo_of_notMem _ hpost]
  rcases @attachTo_self tools tableContextSize imageContextSize ordered _ _ hkeep _ _ hbefore with
    hsame | ⟨htext, a, anchor, ha, hanchor, prevCtx, nextCtx, hsublist, hnear, hset⟩
  · exact ⟨ck, hafter.trans hsame, Or.inl rfl⟩
  · have hfinal : final[a]? = some anchor := by
      rw [hfold]
      exact foldl_attachTo_of_isTextChunk ha hanchor _
    exact ⟨_, hafter.trans hset, Or.inr ⟨htext, anchor, List.mem_of_getElem? hfinal, hanchor,
      prevCtx, nextCtx, hsublist, hnear, rfl, fun hkey => getText_withText tools hkey _⟩⟩

theorem foldl_attachTo_attached (tools : TextTools) (tableContextSize imageContextSize : ℤ)
    (chunks : List DocChunk) :
    let final := (orderedIndices chunks).foldl (attachTo tools tableContextSize imageContextSize
      (textBounds chunks) (orderedIndices chunks)) chunks
    List.Forall₂ (Attached tools tableContextSize imageContextSize (NearBudget tools.numTokens)
      final) chunks final := by
  have hperm := orderedIndices_perm chunks
  refine List.forall₂_iff_get.mpr ⟨(length_foldl_attachTo chunks _).symm, fun i hi hi' => ?_⟩
  obtain ⟨ck', hck', hattached⟩ := @exists_attached tools tableContextSize imageContextSize chunks
    (orderedIndices chunks) _ (hperm.nodup_iff.mpr List.nodup_range) i
    (hperm.mem_iff.mpr (List.mem_range.mpr hi)) _ (List.getElem?_eq_getElem hi)
  rw [List.getElem?_eq_getElem hi'] at hck'
  obtain rfl := Option.some.inj hck'
  exact hattached

/-- The chunks are only put in another order, text chunks are as they were, and the others have
sentences of one text chunk around their own text, of which all but the outermost on each side
have fewer tokens than the budget. -/
theorem attachMediaContext_keeps (tools : TextTools) (chunks : List DocChunk)
    (tableContextSize imageContextSize : ℤ) :
    KeepsChunks tools (NearBudget tools.numTokens) chunks tableContextSize imageContextSize := by
  unfold KeepsChunks attachMediaContext
  split_ifs with hgo
  · exact ⟨chunks, List.Perm.refl _, List.forall₂_same.mpr fun ck _ => Or.inl rfl⟩
  · refine ⟨_, ?_, foldl_attachTo_attached tools tableContextSize imageContextSize chunks⟩
    have hall := (orderedIndices_perm chunks).filterMap fun i =>
      ((orderedIndices chunks).foldl (attachTo tools tableContextSize imageContextSize
        (textBounds chunks) (orderedIndices chunks)) chunks)[i]?
    rw [← length_foldl_attachTo chunks, filterMap_getElem?_range] at hall
    exact hall
  · exact ⟨_, List.Perm.refl _,
      foldl_attachTo_attached tools tableContextSize imageContextSize chunks⟩

/-- Every character is a token. -/
def charTools : TextTools :=
  ⟨List.length, id, id⟩

/-- A text of one sentence, at the top of the first page. -/
def oneSentence : DocChunk where
  contentWithWeight := some (some "abc.".toList)
  pageNumInt := [some 1]
  topInt := [some 0]
  positionInt := [[some 1, some 0, some 10, some 0, some 10]]

/-- A table at the same place, with some text before its own. -/
def tableWith (t : String) : DocChunk where
  docTypeKwd := some "table".toList
  contentWithWeight := some (some t.toList)
  pageNumInt := [some 1]
  topInt := [some 0]
  positionInt := [[some 1, some 0, some 10, some 0, some 10]]

/-- A sentence of four tokens is attached where one token is allowed. -/
theorem not_attachMediaContext_keeps :
    ¬ ∀ (tools : TextTools) (chunks : List DocChunk) (tableContextSize imageContextSize : ℤ),
      KeepsChunks tools (WithinBudget tools.numTokens) chunks tableContextSize
        imageContextSize := by
  intro h
  obtain ⟨final, hperm, hall⟩ := h charTools [oneSentence, tableWith "t"] 1 0
  have hresult : attachMediaContext charTools [oneSentence, tableWith "t"] 1 0 =
      [oneSentence, tableWith "abc.\nt"] := by decide +kernel
  have htext : oneSentence.isTextChunk = true := by decide
  have htable : (tableWith "abc.\nt").isTextChunk = false := by decide
  rw [hresult] at hperm
  cases hall with
  | @cons _ first _ rest hfirst hrest =>
  cases hrest with
  | @cons _ second _ _ hsecond hnil =>
  obtain rfl := List.forall₂_nil_left_iff.mp hnil
  have hsame : first = oneSentence := hfirst.resolve_right fun h => by
    rw [htext] at h
    exact absurd h.1 (by decide)
  rw [hsame, List.perm_cons, List.singleton_perm_singleton] at hperm
  rw [hsame, ← hperm] at hsecond
  rcases hsecond with hsecond | ⟨-, anchor, hanchor, hanchorText, prevCtx, nextCtx, hsublist,
    ⟨hprev, hnext⟩, -, hcombined⟩
  · exact absurd hsecond (by decide)
  have hone : anchor = oneSentence := by
    rcases List.mem_cons.mp hanchor with h | h
    · exact h
    · rw [List.mem_singleton.mp h, htable] at hanchorText
      exact absurd hanchorText (by decide)
  have hsentences : splitSentences oneSentence.getText = ["abc.".toList] := by decide
  rw [hone, hsentences, List.sublist_singleton] at hsublist
  have hbudget : tokenBudget 1 0 (tableWith "t") = 1 := by decide
  rw [hbudget] at hprev hnext
  rcases hsublist with hnone | hboth
  · -- nothing would be attached
    obtain ⟨rfl, rfl⟩ := List.append_eq_nil_iff.mp hnone
    exact absurd (hcombined (by decide)) (by decide)
  · rcases List.append_eq_singleton_iff.mp hboth with ⟨-, rfl⟩ | ⟨rfl, -⟩
    · exact absurd hnext (by decide)
    · exact absurd hprev (by decide)

end RagflowMineru.Nlp
