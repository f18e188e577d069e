import Mathlib.Data.List.MinMax
import RagflowMineru.MinerU.TieUp

/-!
# Grouping the blocks of a page

`MagicModel` of the VLM backend.  Text blocks that lie in a list block become
its sub-blocks.  Captions and footnotes are tied to bodies, footnotes that
stand before their body are moved to another one, and what comes after a gap in
the indices is cut off.  Whatever is not in a group then becomes a text block.
-/

namespace RagflowMineru.MinerU

open RagflowMineru.Library

variable {δ : Type}

/-- `block["type"] = type`. -/
def VlmBlock.typed (type : Option BlockType) (b : VlmBlock δ) : VlmBlock δ := { b with type }

/-- A block without its type. -/
def VlmBlock.untyped (b : VlmBlock δ) : VlmBlock δ := b.typed none

/-! ## Bodies with captions and footnotes -/

/-- A body with its captions and footnotes. -/
structure NeedFix (δ : Type) where
  body : VlmBlock δ
  captionList : List (VlmBlock δ)
  footnoteList : List (VlmBlock δ)

def NeedFix.addFootnote (r : NeedFix δ) (footnote : VlmBlock δ) : NeedFix δ :=
  { r with footnoteList := r.footnoteList ++ [footnote] }

/-- Copies of the blocks of a type, without their type. -/
def ofType (blocks : List (VlmBlock δ)) : Option BlockType → List (VlmBlock δ)
  | none => []
  | some type => (blocks.filter (·.type = some type)).map VlmBlock.untyped

section

variable (sqrt : ℚ → ℚ) (fixType : FixType)

/-- `__tie_up_category_by_index`. -/
def tieUp (blocks : List (VlmBlock δ)) (part : Part) : Except String (List (Tied δ)) :=
  tieUpCategoryByIndex sqrt (fixType, part) (reductOverlap (ofType blocks (fixType.part .body)))
    (reductOverlap (ofType blocks (fixType.part part)))

/-- The record of a body; its footnotes are looked up by its position. -/
def recordOf (withFootnotes : List (Tied δ)) (v : Tied δ) : Except String (NeedFix δ) :=
  match withFootnotes.find? (·.subIdx = v.subIdx) with
  | none => .error "StopIteration"
  | some d => .ok
      { body := v.subBbox, captionList := v.objBboxes, footnoteList := d.objBboxes }

/-- `get_type_blocks`. -/
def getTypeBlocks (blocks : List (VlmBlock δ)) : Except String (List (NeedFix δ)) := do
  let withCaptions ← tieUp sqrt fixType blocks .caption
  let withFootnotes ← tieUp sqrt fixType blocks .footnote
  withCaptions.mapM (recordOf withFootnotes)

end

/-- The footnotes that stand before their body, with the position of the body. -/
def misplacedFootnotes (rs : List (NeedFix δ)) : List (VlmBlock δ × ℕ) :=
  rs.zipIdx.flatMap fun r =>
    (r.1.footnoteList.filter fun f => !decide (r.1.body.index ≤ f.index)).map (·, r.2)

def NeedFix.validFootnotes (r : NeedFix δ) : NeedFix δ :=
  { r with footnoteList := r.footnoteList.filter fun f => r.body.index ≤ f.index }

/-- One turn of the search for the nearest other body before a footnote: its position and its
distance. -/
def nearerBlock (footnote : VlmBlock δ) (original : ℕ) (best : Option (ℕ × ℕ))
    (r : NeedFix δ × ℕ) : Option (ℕ × ℕ) :=
  if r.1.body.index ≤ footnote.index ∧ r.2 ≠ original then
    let distance := footnote.index - r.1.body.index
    match best with
    | none => some (r.2, distance)
    | some (_, least) => if distance < least then some (r.2, distance) else best
  else best

def bestBlockIdx (rs : List (NeedFix δ)) (footnote : VlmBlock δ) (original : ℕ) :
    Option (ℕ × ℕ) :=
  rs.zipIdx.foldl (nearerBlock footnote original) none

/-- One turn of the loop that moves footnotes to other bodies. -/
def moveFootnote (s : List (NeedFix δ) × List (VlmBlock δ)) (m : VlmBlock δ × ℕ) :
    List (NeedFix δ) × List (VlmBlock δ) :=
  match bestBlockIdx s.1 m.1 m.2 with
  | some (i, _) => (s.1.modify i (·.addFootnote m.1), s.2)
  | none => (s.1, s.2 ++ [m.1])

/-- Whether a caption, seen from the body, goes on from the one before it in the list: the body
alone may stand between the two. -/
def captionNext (bodyIndex : ℕ) (prev curr : VlmBlock δ) : Bool :=
  curr.index + 1 = prev.index ∨ Finset.Ioo curr.index prev.index = {bodyIndex}

def footnoteNext (prev curr : VlmBlock δ) : Bool := curr.index = prev.index + 1

/-- The captions of a record that are kept and those that are cut off. -/
def NeedFix.cutCaptions (r : NeedFix δ) : List (VlmBlock δ) × List (VlmBlock δ) :=
  let (kept, rest) := cutRun (captionNext r.body.index)
    (r.captionList.insertionSort fun a b => b.index ≤ a.index)
  (kept.reverse, rest)

def NeedFix.cutFootnotes (r : NeedFix δ) : List (VlmBlock δ) × List (VlmBlock δ) :=
  cutRun footnoteNext (r.footnoteList.insertionSort fun a b => a.index ≤ b.index)

def NeedFix.cut (r : NeedFix δ) : NeedFix δ :=
  { r with captionList := r.cutCaptions.1, footnoteList := r.cutFootnotes.1 }

/-- The steps for tables and images: the records and the blocks that are not included. -/
def rearrange (rs : List (NeedFix δ)) : List (NeedFix δ) × List (VlmBlock δ) :=
  let (rs, notInclude) :=
    (misplacedFootnotes rs).foldl moveFootnote (rs.map NeedFix.validFootnotes, [])
  (rs.map NeedFix.cut, notInclude ++ rs.flatMap fun r => r.cutCaptions.2 ++ r.cutFootnotes.2)

structure TwoLayerBlock (δ : Type) where
  type : FixType
  bbox : BBox ℚ
  blocks : List (VlmBlock δ)
  index : ℕ

/-- The block of a record. -/
def NeedFix.twoLayerBlock (fixType : FixType) (r : NeedFix δ) : TwoLayerBlock δ where
  type := fixType
  bbox := r.body.bbox
  blocks :=
    (r.body.typed (fixType.part .body) :: (r.captionList.map (·.typed (fixType.part .caption)) ++
      r.footnoteList.map (·.typed (fixType.part .footnote)))).insertionSort
        fun a b => a.index ≤ b.index
  index := r.body.index

def NeedFix.processedIndices (r : NeedFix δ) : List ℕ :=
  r.captionList.map (·.index) ++ r.footnoteList.map (·.index) ++ [r.body.index]

variable [DecidableEq δ]

/-- One turn of the last loop. -/
def addUnprocessed (processed : List ℕ) (notInclude : List (VlmBlock δ)) (block : VlmBlock δ) :
    List (VlmBlock δ) :=
  if block.index ∉ processed ∧ block.untyped ∉ notInclude then notInclude ++ [block.untyped]
  else notInclude

/-- `fix_two_layer_blocks`. -/
def fixTwoLayerBlocks (sqrt : ℚ → ℚ) (fixType : FixType) (blocks : List (VlmBlock δ)) :
    Except String (List (TwoLayerBlock δ) × List (VlmBlock δ)) := do
  let needFixBlocks ← getTypeBlocks sqrt fixType blocks
  let (needFixBlocks, notInclude) :=
    if fixType = .table ∨ fixType = .image then rearrange needFixBlocks else (needFixBlocks, [])
  let processed := needFixBlocks.flatMap NeedFix.processedIndices
  pure (needFixBlocks.map (·.twoLayerBlock fixType),
    blocks.foldl (addUnprocessed processed) notInclude)

/-! ## List blocks -/

/-- A list block, whose lines are deleted. -/
structure ListBlock (δ : Type) where
  bbox : BBox ℚ
  angle : Option ℤ
  index : ℕ
  blocks : List (VlmBlock δ) := []
  subType : Option BlockType := none

def ListBlock.add (lb : ListBlock δ) (block : VlmBlock δ) : ListBlock δ :=
  { lb with blocks := lb.blocks ++ [block] }

/-- The first list block that a block lies in. -/
def listIdx (listBlocks : List (ListBlock δ)) (block : VlmBlock δ) : Option ℕ :=
  listBlocks.findIdx? fun lb => 4 / 5 ≤ calculateOverlapAreaInBbox1AreaRatio block.bbox lb.bbox

/-- One turn of the loop over text blocks: the list blocks and `need_remove_blocks`. -/
def attachToList (s : List (ListBlock δ) × List (VlmBlock δ)) (block : VlmBlock δ) :
    List (ListBlock δ) × List (VlmBlock δ) :=
  match listIdx s.1 block with
  | some i => (s.1.modify i (·.add block), s.2 ++ [block])
  | none => s

/-- One turn of the loop that removes what was attached. -/
def removeText (s : List (VlmBlock δ) × List (VlmBlock δ)) (block : VlmBlock δ) :
    List (VlmBlock δ) × List (VlmBlock δ) :=
  if block ∈ s.1 then (s.1.erase block, s.2)
  else if block ∈ s.2 then (s.1, s.2.erase block)
  else s

/-- The most frequent type of the sub-blocks, the first one of several. -/
def ListBlock.withSubType (lb : ListBlock δ) : ListBlock δ :=
  let types := lb.blocks.map (·.type)
  { lb with subType := (types.eraseDups.argmax types.count).join }

/-- `fix_list_blocks`. -/
def fixListBlocks (listBlocks textBlocks refTextBlocks : List (VlmBlock δ)) :
    List (ListBlock δ) × List (VlmBlock δ) × List (VlmBlock δ) :=
  let empty := listBlocks.map fun b =>
    ({ bbox := b.bbox, angle := b.angle, index := b.index } : ListBlock δ)
  let (lists, needRemove) := (textBlocks ++ refTextBlocks).foldl attachToList (empty, [])
  let (texts, refTexts) := needRemove.foldl removeText (textBlocks, refTextBlocks)
  ((lists.filter (·.blocks ≠ [])).map ListBlock.withSubType, texts, refTexts)

/-! ## The page -/

structure MagicModel (δ : Type) where
  imageBlocks : List (TwoLayerBlock δ)
  tableBlocks : List (TwoLayerBlock δ)
  codeBlocks : List (TwoLayerBlock δ)
  listBlocks : List (ListBlock δ)
  textBlocks : List (VlmBlock δ)
  refTextBlocks : List (VlmBlock δ)
  interlineEquationBlocks : List (VlmBlock δ)
  titleBlocks : List (VlmBlock δ)
  phoneticBlocks : List (VlmBlock δ)
  discardedBlocks : List (VlmBlock δ)

/-- The blocks of some types. -/
def select (blocks : List (VlmBlock δ)) (types : List BlockType) : List (VlmBlock δ) :=
  blocks.filter fun b => b.type ∈ types.map some

def FixType.types : FixType → List BlockType
  | .image => [.imageBody, .imageCaption, .imageFootnote]
  | .table => [.tableBody, .tableCaption, .tableFootnote]
  | .code => [.codeBody, .codeCaption]

/-- `MagicModel.__init__`, from the loop that sorts blocks by their types. -/
def MagicModel.ofBlocks (sqrt : ℚ → ℚ) (blocks : List (VlmBlock δ)) :
    Except String (MagicModel δ) := do
  let (listBlocks, textBlocks, refTextBlocks) :=
    fixListBlocks (select blocks [.list]) (select blocks [.text]) (select blocks [.refText])
  let (imageBlocks, notIncludeImage) ←
    fixTwoLayerBlocks sqrt .image (select blocks FixType.image.types)
  let (tableBlocks, notIncludeTable) ←
    fixTwoLayerBlocks sqrt .table (select blocks FixType.table.types)
  let (codeBlocks, notIncludeCode) ←
    fixTwoLayerBlocks sqrt .code (select blocks FixType.code.types)
  pure
    { imageBlocks, tableBlocks, codeBlocks, listBlocks, refTextBlocks
      textBlocks := textBlocks ++
        (notIncludeImage ++ notIncludeTable ++ notIncludeCode).map (·.typed (some .text))
      interlineEquationBlocks := select blocks [.interlineEquation]
      titleBlocks := select blocks [.title]
      phoneticBlocks := select blocks [.phonetic]
      discardedBlocks := select blocks [.header, .footer, .pageNumber, .asideText, .pageFootnote] }

/-! ## Records hold what was tied -/

section

omit [DecidableEq δ]

/-- All blocks of the records: bodies, captions, footnotes. -/
def members (rs : List (NeedFix δ)) : List (VlmBlock δ) :=
  rs.map (·.body) ++ (rs.flatMap (·.captionList) ++ rs.flatMap (·.footnoteList))

/-- The records of subjects: captions and footnotes are those of the ties with one position. -/
theorem mapM_recordOf_ok {pre withFootnotes withCaptions : List (Tied δ)}
    (hsame : withCaptions.map (·.subIdx) = withFootnotes.map (·.subIdx))
    (hnodup : ((pre ++ withFootnotes).map (·.subIdx)).Nodup) :
    ∃ rs, withCaptions.mapM (recordOf (pre ++ withFootnotes)) = .ok rs ∧
      rs.map (·.body) = withCaptions.map (·.subBbox) ∧
      rs.flatMap (·.captionList) = withCaptions.flatMap (·.objBboxes) ∧
      rs.flatMap (·.footnoteList) = withFootnotes.flatMap (·.objBboxes) := by
  induction withCaptions generalizing pre withFootnotes with
  | nil =>
      rcases withFootnotes with - | ⟨d, ds⟩
      · exact ⟨[], rfl, rfl, rfl, rfl⟩
      · simp at hsame
  | cons v vs ih =>
      rcases withFootnotes with - | ⟨d, ds⟩
      · simp at hsame
      · obtain ⟨hhead, htail⟩ : v.subIdx = d.subIdx ∧ vs.map (·.subIdx) = ds.map (·.subIdx) :=
          List.cons.inj hsame
        have hmove : pre ++ d :: ds = (pre ++ [d]) ++ ds := by simp
        have hfind : (pre ++ d :: ds).find? (fun t => t.subIdx = v.subIdx) = some d := by
          have hpre : pre.find? (fun t => t.subIdx = v.subIdx) = none := by
            rw [List.find?_eq_none]
            intro t ht
            rw [decide_eq_true_eq, hhead]
            rw [List.map_append, List.nodup_append] at hnodup
            exact hnodup.2.2 _ (List.mem_map_of_mem ht) _ List.mem_cons_self
          rw [List.find?_append, hpre, Option.none_or, List.find?_cons_of_pos]
          exact decide_eq_true hhead.symm
        rw [hmove] at hnodup
        obtain ⟨rs, hrs, hbody, hcaption, hfootnote⟩ := ih htail hnodup
        refine
          ⟨{ body := v.subBbox, captionList := v.objBboxes, footnoteList := d.objBboxes } :: rs,
            ?_, ?_, ?_, ?_⟩
        · rw [List.mapM_cons, recordOf, hfind, hmove, hrs]
          rfl
        · rw [List.map_cons, List.map_cons, hbody]
        · rw [List.flatMap_cons, List.flatMap_cons, hcaption]
        · rw [List.flatMap_cons, List.flatMap_cons, hfootnote]

theorem mem_ofType {blocks : List (VlmBlock δ)} {type : Option BlockType} {b : VlmBlock δ} :
    b ∈ ofType blocks type ↔ ∃ c ∈ blocks, type ≠ none ∧ c.type = type ∧ c.untyped = b := by
  rcases type with - | type
  · simp [ofType]
  · simp [ofType, and_assoc]

theorem reductOverlap_sublist (l : List (VlmBlock δ)) : List.Sublist (reductOverlap l) l := by
  have h := (List.filter_sublist (p := fun b : VlmBlock δ × ℕ =>
    l.zipIdx.all fun c => b.2 = c.2 || !decide (b.1.bbox ≤ c.1.bbox)) (l := l.zipIdx)).map Prod.fst
  rwa [List.zipIdx_map_fst] at h

theorem part_inj {fixType : FixType} {p q : Part} (h : fixType.part p = fixType.part q)
    (hp : fixType.part p ≠ none) : p = q := by
  revert hp
  revert h
  rcases fixType <;> rcases p <;> rcases q <;> simp [FixType.part]

theorem ofType_sublist (blocks : List (VlmBlock δ)) (type : Option BlockType) :
    List.Sublist (ofType blocks type) (blocks.map VlmBlock.untyped) := by
  rcases type with - | type
  · exact List.nil_sublist _
  · exact List.filter_sublist.map _

theorem map_index_untyped (blocks : List (VlmBlock δ)) :
    (blocks.map VlmBlock.untyped).map (·.index) = blocks.map (·.index) := by
  rw [List.map_map]
  rfl

variable {blocks : List (VlmBlock δ)}

/-- Blocks of different types have different indices. -/
theorem index_ne_of_type_ne (hblocks : (blocks.map (·.index)).Nodup) {t u : Option BlockType}
    (hne : t ≠ u) {a b : VlmBlock δ} (ha : a ∈ ofType blocks t) (hb : b ∈ ofType blocks u) :
    a.index ≠ b.index := by
  obtain ⟨c, hc, -, rfl, rfl⟩ := mem_ofType.mp ha
  obtain ⟨d, hd, -, rfl, rfl⟩ := mem_ofType.mp hb
  intro heq
  have hsame : c = d := List.inj_on_of_nodup_map hblocks hc hd heq
  exact hne (congrArg VlmBlock.type hsame)

/-- The subjects and objects of a type, tied. -/
theorem tieUp_ok (sqrt : ℚ → ℚ) (fixType : FixType) (hblocks : (blocks.map (·.index)).Nodup)
    (part : Part) (hpart : part ≠ .body) :
    ∃ ret, tieUp sqrt fixType blocks part = .ok ret ∧
      StandsFor (reductOverlap (ofType blocks (fixType.part .body))) ret ∧
      List.Subperm (ret.flatMap (·.objBboxes)) (ofType blocks (fixType.part part)) := by
  set subjects := reductOverlap (ofType blocks (fixType.part .body))
  set objects := reductOverlap (ofType blocks (fixType.part part))
  have hsubjects : (subjects.map (·.index)).Nodup := by
    rw [← map_index_untyped] at hblocks
    exact hblocks.sublist (((reductOverlap_sublist _).trans (ofType_sublist _ _)).map _)
  have hbody : fixType.part .body ≠ none := by
    rcases fixType <;> simp [FixType.part]
  have hapart : ∀ s ∈ subjects, s.index ∉ objects.map (·.index) := by
    intro s hs hin
    obtain ⟨o, ho, heq⟩ := List.mem_map.mp hin
    exact index_ne_of_type_ne hblocks (fun h => hpart (part_inj h hbody).symm)
      ((reductOverlap_sublist _).subset hs) ((reductOverlap_sublist _).subset ho) heq.symm
  obtain ⟨ret, hret, hstands, hperm⟩ :=
    tieUpCategoryByIndex_ok sqrt (fixType, part) hsubjects hapart
  refine ⟨ret, hret, hstands, hperm.subperm.trans ?_⟩
  split_ifs
  · exact List.nil_subperm
  · exact (reductOverlap_sublist _).subperm

/-- Blocks of three parts are blocks of the list, each at most once. -/
theorem subperm_parts (fixType : FixType) (hblocks : (blocks.map (·.index)).Nodup) :
    List.Subperm (ofType blocks (fixType.part .body) ++
        (ofType blocks (fixType.part .caption) ++ ofType blocks (fixType.part .footnote)))
      (blocks.map VlmBlock.untyped) := by
  have hnodup : ∀ t, (ofType blocks t).Nodup := by
    intro t
    rw [← map_index_untyped] at hblocks
    exact (List.Nodup.of_map _ hblocks).sublist (ofType_sublist blocks t)
  have happart : ∀ p q, p ≠ q → ∀ a ∈ ofType blocks (fixType.part p),
      ∀ b ∈ ofType blocks (fixType.part q), a ≠ b := by
    intro p q hne a ha b hb heq
    have hp : fixType.part p ≠ none := by
      obtain ⟨-, -, hp, -⟩ := mem_ofType.mp ha
      exact hp
    exact index_ne_of_type_ne hblocks (fun h => hne (part_inj h hp)) ha hb (by rw [heq])
  apply List.Nodup.subperm
  · rw [List.nodup_append, List.nodup_append]
    refine ⟨hnodup _, ⟨hnodup _, hnodup _, happart _ _ (by simp)⟩, ?_⟩
    intro a ha b hb
    rcases List.mem_append.mp hb with hb | hb
    · exact happart _ _ (by simp) a ha b hb
    · exact happart _ _ (by simp) a ha b hb
  · intro b hb
    rcases List.mem_append.mp hb with hb | hb
    · exact (ofType_sublist _ _).subset hb
    · rcases List.mem_append.mp hb with hb | hb
      · exact (ofType_sublist _ _).subset hb
      · exact (ofType_sublist _ _).subset hb

/-- What the records hold are blocks of the list, each at most once. -/
theorem getTypeBlocks_ok (sqrt : ℚ → ℚ) (fixType : FixType)
    (hblocks : (blocks.map (·.index)).Nodup) :
    ∃ rs, getTypeBlocks sqrt fixType blocks = .ok rs ∧
      List.Subperm (members rs) (blocks.map VlmBlock.untyped) := by
  obtain ⟨captions, hcaptions, hcstands, hcsub⟩ :=
    tieUp_ok sqrt fixType hblocks .caption (by simp)
  obtain ⟨footnotes, hfootnotes, hfstands, hfsub⟩ :=
    tieUp_ok sqrt fixType hblocks .footnote (by simp)
  have hsame : captions.map (·.subIdx) = footnotes.map (·.subIdx) := by
    have hidx := congrArg (List.map Prod.snd) (hcstands.trans hfstands.symm)
    rwa [List.map_map, List.map_map] at hidx
  have hnodup : ((([] : List (Tied δ)) ++ footnotes).map (·.subIdx)).Nodup := by
    have hidx := congrArg (List.map Prod.snd) hfstands
    rw [List.map_map, List.zipIdx_map_snd] at hidx
    exact hidx ▸ List.nodup_range'
  obtain ⟨rs, hrs, hbody, hcaption, hfootnote⟩ := mapM_recordOf_ok hsame hnodup
  refine ⟨rs, ?_, ?_⟩
  · rw [getTypeBlocks, hcaptions, hfootnotes]
    exact hrs
  · have hsubjects : captions.map (·.subBbox) =
        reductOverlap (ofType blocks (fixType.part .body)) := by
      have hfst := congrArg (List.map Prod.fst) hcstands
      rwa [List.map_map, List.zipIdx_map_fst] at hfst
    rw [members, hbody, hcaption, hfootnote, hsubjects]
    exact ((reductOverlap_sublist _).subperm.append (hcsub.append hfsub)).trans
      (subperm_parts fixType hblocks)

/-! ## Rearranging loses nothing -/

theorem misplaced_perm (rs : List (NeedFix δ)) :
    ((rs.map NeedFix.validFootnotes).flatMap (·.footnoteList) ++
      (misplacedFootnotes rs).map Prod.fst).Perm (rs.flatMap (·.footnoteList)) := by
  have hmisplaced : (misplacedFootnotes rs).map Prod.fst = rs.flatMap fun r =>
      r.footnoteList.filter fun f => !decide (r.body.index ≤ f.index) := by
    rw [misplacedFootnotes, List.map_flatMap]
    conv_rhs => rw [← List.zipIdx_map_fst 0 rs, List.flatMap_map]
    apply List.flatMap_congr
    intro r _
    rw [List.map_map]
    exact List.map_id _
  rw [hmisplaced, List.flatMap_map]
  refine (List.flatMap_append_perm rs _ _).trans ?_
  apply List.Perm.flatMap_left
  intro r _
  exact List.filter_append_perm _ _

theorem nearerBlock_eq_or (footnote : VlmBlock δ) (original : ℕ) (best : Option (ℕ × ℕ))
    (r : NeedFix δ × ℕ) :
    nearerBlock footnote original best r = best ∨
      ∃ d, nearerBlock footnote original best r = some (r.2, d) := by
  rw [nearerBlock]
  split_ifs
  · rcases best with - | ⟨i, least⟩
    · exact Or.inr ⟨_, rfl⟩
    · dsimp only
      split_ifs
      · exact Or.inr ⟨_, rfl⟩
      · exact Or.inl rfl
  · exact Or.inl rfl

theorem bestBlockIdx_lt {rs : List (NeedFix δ)} {footnote : VlmBlock δ} {original : ℕ}
    {p : ℕ × ℕ} (h : bestBlockIdx rs footnote original = some p) : p.1 < rs.length := by
  have hfold : ∀ (l : List (NeedFix δ × ℕ)) (best : Option (ℕ × ℕ)),
      (∀ r ∈ l, r.2 < rs.length) → (∀ q ∈ best, q.1 < rs.length) →
        ∀ q ∈ l.foldl (nearerBlock footnote original) best, q.1 < rs.length := by
    intro l
    induction l with
    | nil => exact fun best _ hbest => hbest
    | cons r l ih =>
        intro best hl hbest
        refine ih _ (fun t ht => hl t (List.mem_cons_of_mem r ht)) ?_
        rcases nearerBlock_eq_or footnote original best r with heq | ⟨d, heq⟩
        · rwa [heq]
        · rw [heq]
          intro q hq
          rw [← Option.some.inj hq]
          exact hl r List.mem_cons_self
  exact hfold rs.zipIdx none (fun r hr => List.snd_lt_of_mem_zipIdx hr) (by simp) p h

/-- The blocks of the records and those that are not included. -/
def held (s : List (NeedFix δ) × List (VlmBlock δ)) : List (VlmBlock δ) := members s.1 ++ s.2

/-- A footnote is moved, or set aside. -/
theorem held_moveFootnote_perm (s : List (NeedFix δ) × List (VlmBlock δ)) (m : VlmBlock δ × ℕ) :
    (held (moveFootnote s m)).Perm (held s ++ [m.1]) := by
  rcases hbest : bestBlockIdx s.1 m.1 m.2 with - | p
  · rw [moveFootnote, hbest, held, held, List.append_assoc]
  · have hplace := flatMap_modify_perm (fun r : NeedFix δ => r.footnoteList)
      (f := (·.addFootnote m.1)) (a := m.1) (fun _ => rfl) (bestBlockIdx_lt hbest)
    have hbody : (s.1.modify p.1 (·.addFootnote m.1)).map (·.body) = s.1.map (·.body) :=
      map_modify_of_eq _ (NeedFix.addFootnote · m.1) (fun _ => rfl) _ _
    have hcaption : (s.1.modify p.1 (·.addFootnote m.1)).flatMap (·.captionList) =
        s.1.flatMap (·.captionList) := by
      rw [List.flatMap_def, List.flatMap_def]
      exact congrArg List.flatten
        (map_modify_of_eq _ (NeedFix.addFootnote · m.1) (fun _ => rfl) _ _)
    have hmembers : (members (s.1.modify p.1 (·.addFootnote m.1))).Perm (members s.1 ++ [m.1]) := by
      rw [members, members, hbody, hcaption, List.append_assoc, List.append_assoc]
      exact (hplace.append_left _).append_left _
    rw [moveFootnote, hbest]
    refine (hmembers.append_right s.2).trans ?_
    rw [held, List.append_assoc, List.append_assoc]
    exact List.perm_append_comm.append_left _

theorem held_moveFootnotes_perm (s : List (NeedFix δ) × List (VlmBlock δ))
    (ms : List (VlmBlock δ × ℕ)) :
    (held (ms.foldl moveFootnote s)).Perm (held s ++ ms.map Prod.fst) := by
  induction ms generalizing s with
  | nil => rw [List.map_nil, List.append_nil, List.foldl_nil]
  | cons m ms ih =>
      refine (ih (moveFootnote s m)).trans (((held_moveFootnote_perm s m).append_right _).trans ?_)
      rw [List.append_assoc]
      rfl

/-- A record is cut. -/
theorem cut_perm (r : NeedFix δ) :
    (r.cut.captionList ++ r.cutCaptions.2).Perm r.captionList ∧
      (r.cut.footnoteList ++ r.cutFootnotes.2).Perm r.footnoteList := by
  constructor
  · exact ((List.reverse_perm _).append_right _).trans
      ((List.Perm.of_eq (cutRun_append _ _)).trans (List.perm_insertionSort _ _))
  · exact (List.Perm.of_eq (cutRun_append _ _)).trans (List.perm_insertionSort _ _)

theorem held_cut_perm (rs : List (NeedFix δ)) (notInclude : List (VlmBlock δ)) :
    (held (rs.map NeedFix.cut,
      notInclude ++ rs.flatMap fun r => r.cutCaptions.2 ++ r.cutFootnotes.2)).Perm
        (held (rs, notInclude)) := by
  have hcaptions : ((rs.map NeedFix.cut).flatMap (·.captionList) ++
      rs.flatMap (·.cutCaptions.2)).Perm (rs.flatMap (·.captionList)) := by
    rw [List.flatMap_map]
    exact (List.flatMap_append_perm rs _ _).trans
      (List.Perm.flatMap_left rs fun r _ => (cut_perm r).1)
  have hfootnotes : ((rs.map NeedFix.cut).flatMap (·.footnoteList) ++
      rs.flatMap (·.cutFootnotes.2)).Perm (rs.flatMap (·.footnoteList)) := by
    rw [List.flatMap_map]
    exact (List.flatMap_append_perm rs _ _).trans
      (List.Perm.flatMap_left rs fun r _ => (cut_perm r).2)
  have hrest := List.flatMap_append_perm rs (·.cutCaptions.2) (·.cutFootnotes.2)
  have hbody : (rs.map NeedFix.cut).map (·.body) = rs.map (·.body) := by
    rw [List.map_map]
    rfl
  classical
  rw [List.perm_iff_count] at hcaptions hfootnotes hrest ⊢
  intro b
  have hc := hcaptions b
  have hf := hfootnotes b
  have hr := hrest b
  simp only [held, members, hbody, List.count_append] at hc hf hr ⊢
  omega

/-- Rearranging neither loses nor doubles a block. -/
theorem held_rearrange_perm (rs : List (NeedFix δ)) : (held (rearrange rs)).Perm (members rs) := by
  have hvalid : (held (rs.map NeedFix.validFootnotes, []) ++
      (misplacedFootnotes rs).map Prod.fst).Perm (members rs) := by
    have hbody : (rs.map NeedFix.validFootnotes).map (·.body) = rs.map (·.body) := by
      rw [List.map_map]
      rfl
    have hcaption : (rs.map NeedFix.validFootnotes).flatMap (·.captionList) =
        rs.flatMap (·.captionList) := by
      rw [List.flatMap_map]
      rfl
    rw [held, List.append_nil, members, members, hbody, hcaption, List.append_assoc,
      List.append_assoc]
    exact ((misplaced_perm rs).append_left _).append_left _
  have hmove := (held_moveFootnotes_perm (rs.map NeedFix.validFootnotes, []) _).trans hvalid
  exact (held_cut_perm _ _).trans hmove

/-- The sub-blocks of the two-layer blocks are what the records hold. -/
theorem subBlocks_perm (fixType : FixType) (rs : List (NeedFix δ)) :
    (((rs.map (·.twoLayerBlock fixType)).flatMap (·.blocks)).map VlmBlock.untyped).Perm
      ((members rs).map VlmBlock.untyped) := by
  induction rs with
  | nil => exact List.Perm.refl _
  | cons r rs ih =>
      have hone : ((r.twoLayerBlock fixType).blocks.map VlmBlock.untyped).Perm
          ((r.body :: (r.captionList ++ r.footnoteList)).map VlmBlock.untyped) := by
        refine ((List.perm_insertionSort _ _).map _).trans (List.Perm.of_eq ?_)
        rw [List.map_cons, List.map_append, List.map_map, List.map_map, List.map_cons,
          List.map_append]
        rfl
      have hmembers : (r.body :: (r.captionList ++ r.footnoteList) ++ members rs).Perm
          (members (r :: rs)) := by
        classical
        rw [List.perm_iff_count]
        intro b
        simp only [members, List.map_cons, List.flatMap_cons, List.cons_append, List.count_cons,
          List.count_append]
        omega
      rw [List.map_cons, List.flatMap_cons, List.map_append]
      refine (hone.append ih).trans ?_
      rw [← List.map_append]
      exact hmembers.map _

theorem mem_processedIndices {rs : List (NeedFix δ)} {i : ℕ} :
    i ∈ rs.flatMap NeedFix.processedIndices ↔ i ∈ (members rs).map (·.index) := by
  simp only [members, NeedFix.processedIndices, List.mem_flatMap, List.mem_append, List.mem_map,
    List.mem_singleton]
  constructor
  · rintro ⟨r, hr, (⟨b, hb, rfl⟩ | ⟨b, hb, rfl⟩) | rfl⟩
    · exact ⟨b, Or.inr (Or.inl ⟨r, hr, hb⟩), rfl⟩
    · exact ⟨b, Or.inr (Or.inr ⟨r, hr, hb⟩), rfl⟩
    · exact ⟨r.body, Or.inl ⟨r, hr, rfl⟩, rfl⟩
  · rintro ⟨b, ⟨r, hr, rfl⟩ | ⟨r, hr, hb⟩ | ⟨r, hr, hb⟩, rfl⟩
    · exact ⟨r, hr, Or.inr rfl⟩
    · exact ⟨r, hr, Or.inl (Or.inl ⟨b, hb, rfl⟩)⟩
    · exact ⟨r, hr, Or.inl (Or.inr ⟨b, hb, rfl⟩)⟩

end

/-! ## No block is lost -/

/-- The last loop adds the blocks that are neither processed nor set aside; `acc` holds what it has
added. -/
theorem foldl_addUnprocessed {processed : List ℕ} {notInclude acc l : List (VlmBlock δ)}
    {p : VlmBlock δ → Bool}
    (hp : ∀ b ∈ l, p b.untyped = true ↔ b.index ∉ processed ∧ b.untyped ∉ notInclude)
    (hnodup : (acc.map (·.index) ++ l.map (·.index)).Nodup) :
    l.foldl (addUnprocessed processed) (notInclude ++ acc) =
      notInclude ++ acc ++ (l.map VlmBlock.untyped).filter p := by
  induction l generalizing acc with
  | nil => simp
  | cons b l ih =>
      have hacc : b.untyped ∉ acc := by
        intro hin
        exact (List.nodup_append.mp hnodup).2.2 _ (List.mem_map_of_mem hin) _ List.mem_cons_self rfl
      have hrest := fun c hc => hp c (List.mem_cons_of_mem b hc)
      have hiff : b.index ∉ processed ∧ b.untyped ∉ notInclude ++ acc ↔ p b.untyped = true := by
        rw [List.mem_append, or_iff_left hacc]
        exact (hp b List.mem_cons_self).symm
      rw [List.foldl_cons, List.map_cons, addUnprocessed]
      by_cases hnew : b.index ∉ processed ∧ b.untyped ∉ notInclude ++ acc
      · rw [if_pos hnew, List.filter_cons_of_pos (hiff.mp hnew), List.append_assoc, ih hrest]
        · simp
        · rw [List.map_append, List.append_assoc]
          exact hnodup
      · rw [if_neg hnew, List.filter_cons_of_neg (fun h => hnew (hiff.mpr h)), ih hrest]
        exact hnodup.sublist ((List.sublist_cons_self _ _).append_left _)

/-- The sub-blocks and the blocks that are not included are the blocks of the list. -/
theorem fixTwoLayerBlocks_ok (sqrt : ℚ → ℚ) (fixType : FixType) {blocks : List (VlmBlock δ)}
    (hblocks : (blocks.map (·.index)).Nodup) :
    ∃ fixed notInclude, fixTwoLayerBlocks sqrt fixType blocks = .ok (fixed, notInclude) ∧
      ((fixed.flatMap (·.blocks)).map VlmBlock.untyped ++ notInclude).Perm
        (blocks.map VlmBlock.untyped) := by
  obtain ⟨rs, hrs, hsub⟩ := getTypeBlocks_ok sqrt fixType hblocks
  set s := if fixType = .table ∨ fixType = .image then rearrange rs else (rs, []) with hs
  have hheld : (held s).Perm (members rs) := by
    rw [hs]
    split_ifs
    · exact held_rearrange_perm rs
    · rw [held, List.append_nil]
  have hparts : List.Subperm (held s) (blocks.map VlmBlock.untyped) := hheld.subperm.trans hsub
  have huntyped : (members s.1).map VlmBlock.untyped = members s.1 := by
    conv_rhs => rw [← List.map_id (members s.1)]
    apply List.map_congr_left
    intro b hb
    obtain ⟨c, -, rfl⟩ := List.mem_map.mp (hparts.subset (List.mem_append_left _ hb))
    rfl
  -- blocks of the list are told apart by their indices
  have hset : ∀ b ∈ blocks, b.untyped ∈ s.2 ↔ b.index ∈ s.2.map (·.index) := by
    intro b hb
    refine ⟨fun h => List.mem_map.mpr ⟨b.untyped, h, rfl⟩, ?_⟩
    intro h
    obtain ⟨c, hc, heq⟩ := List.mem_map.mp h
    obtain ⟨d, hd, rfl⟩ := List.mem_map.mp (hparts.subset (List.mem_append_right _ hc))
    have hsame : d = b := List.inj_on_of_nodup_map hblocks hd hb heq
    rwa [hsame] at hc
  have hleft := @foldl_addUnprocessed _ _ (s.1.flatMap NeedFix.processedIndices) s.2 [] blocks
    (fun b => b.index ∉ (held s).map (·.index)) (by
      intro b hb
      rw [decide_eq_true_eq, held, List.map_append, List.mem_append, not_or, hset b hb,
        mem_processedIndices]
      exact Iff.rfl) hblocks
  rw [List.append_nil] at hleft
  refine ⟨s.1.map (·.twoLayerBlock fixType),
    s.2 ++ (blocks.map VlmBlock.untyped).filter fun b => b.index ∉ (held s).map (·.index), ?_, ?_⟩
  · rw [fixTwoLayerBlocks, hrs, ← hleft]
    rfl
  · rw [← List.append_assoc]
    refine List.Perm.trans ?_ (perm_append_leftover (by rwa [map_index_untyped]) hparts)
    apply List.Perm.append_right
    rw [held]
    refine ((subBlocks_perm fixType s.1).append_right s.2).trans ?_
    rw [huntyped]

/-! ## List blocks take over text blocks -/

section

omit [DecidableEq δ]

theorem attachToList_perm (s : List (ListBlock δ) × List (VlmBlock δ)) (block : VlmBlock δ) :
    (attachToList s block = s ∨
      ((attachToList s block).1.flatMap (·.blocks)).Perm (s.1.flatMap (·.blocks) ++ [block]) ∧
        (attachToList s block).2 = s.2 ++ [block]) := by
  rcases hidx : listIdx s.1 block with - | i
  · rw [attachToList, hidx]
    exact Or.inl rfl
  · have hi : i < s.1.length := List.findIdx?_eq_some_iff_getElem.mp hidx |>.1
    rw [attachToList, hidx]
    exact Or.inr ⟨flatMap_modify_perm (fun lb : ListBlock δ => lb.blocks) (fun _ => rfl) hi, rfl⟩

/-- What is attached is what is to be removed, and comes from the list. -/
theorem foldl_attachToList_spec {s : List (ListBlock δ) × List (VlmBlock δ)}
    (h : (s.1.flatMap (·.blocks)).Perm s.2) (l : List (VlmBlock δ)) :
    ((l.foldl attachToList s).1.flatMap (·.blocks)).Perm (l.foldl attachToList s).2 ∧
      ∃ taken, List.Sublist taken l ∧ (l.foldl attachToList s).2 = s.2 ++ taken := by
  induction l generalizing s with
  | nil => exact ⟨h, [], List.Sublist.refl _, (List.append_nil _).symm⟩
  | cons b l ih =>
      rcases attachToList_perm s b with hsame | ⟨hblocks, hremove⟩
      · obtain ⟨hperm, taken, hsub, heq⟩ := ih h
        rw [List.foldl_cons, hsame]
        exact ⟨hperm, taken, hsub.cons b, heq⟩
      · have hnext : ((attachToList s b).1.flatMap (·.blocks)).Perm (attachToList s b).2 := by
          rw [hremove]
          exact hblocks.trans (h.append_right [b])
        obtain ⟨hperm, taken, hsub, heq⟩ := ih hnext
        refine ⟨hperm, b :: taken, hsub.cons_cons b, ?_⟩
        rw [List.foldl_cons, heq, hremove, List.append_assoc]
        rfl

end

/-- Removing takes away just what is to be removed. -/
theorem foldl_removeText_perm {l : List (VlmBlock δ)} {s : List (VlmBlock δ) × List (VlmBlock δ)}
    (h : List.Subperm l (s.1 ++ s.2)) :
    (l ++ ((l.foldl removeText s).1 ++ (l.foldl removeText s).2)).Perm (s.1 ++ s.2) := by
  induction l generalizing s with
  | nil => exact List.Perm.refl _
  | cons b l ih =>
      have hone : (b :: ((removeText s b).1 ++ (removeText s b).2)).Perm (s.1 ++ s.2) := by
        rw [removeText]
        split_ifs with h1 h2
        · exact (List.perm_cons_erase h1).symm.append_right s.2
        · exact List.perm_middle.symm.trans ((List.perm_cons_erase h2).symm.append_left s.1)
        · rcases List.mem_append.mp (h.subset List.mem_cons_self) with hin | hin
          · exact absurd hin h1
          · exact absurd hin h2
      have hrest := ih ((List.subperm_cons b).mp (h.trans hone.symm.subperm))
      exact (hrest.cons b).trans hone

omit [DecidableEq δ] in
theorem flatMap_filter_blocks (lists : List (ListBlock δ)) :
    ((lists.filter (·.blocks ≠ [])).map ListBlock.withSubType).flatMap (·.blocks) =
      lists.flatMap (·.blocks) := by
  rw [List.flatMap_map]
  induction lists with
  | nil => rfl
  | cons lb lists ih =>
      by_cases hnil : lb.blocks = []
      · rw [List.filter_cons_of_neg (by simpa using hnil), ih, List.flatMap_cons, hnil,
          List.nil_append]
      · rw [List.filter_cons_of_pos (by simpa using hnil), List.flatMap_cons, ih, List.flatMap_cons]
        rfl

/-- The sub-blocks of the list blocks and the blocks that remain are the text blocks. -/
theorem fixListBlocks_perm (listBlocks texts refTexts : List (VlmBlock δ)) :
    ((fixListBlocks listBlocks texts refTexts).1.flatMap (·.blocks) ++
      ((fixListBlocks listBlocks texts refTexts).2.1 ++
        (fixListBlocks listBlocks texts refTexts).2.2)).Perm (texts ++ refTexts) := by
  set empty := listBlocks.map fun b =>
    ({ bbox := b.bbox, angle := b.angle, index := b.index } : ListBlock δ) with hempty
  have hstart : (empty.flatMap (·.blocks)).Perm [] := by
    rw [hempty, List.flatMap_map]
    exact List.Perm.of_eq (List.flatMap_eq_nil_iff.mpr fun _ _ => rfl)
  obtain ⟨hperm, taken, hsub, heq⟩ :=
    foldl_attachToList_spec (s := (empty, [])) hstart (texts ++ refTexts)
  rw [List.nil_append] at heq
  have hremove := foldl_removeText_perm (s := (texts, refTexts)) (heq ▸ hsub.subperm)
  rw [fixListBlocks, ← hempty]
  dsimp only
  rw [flatMap_filter_blocks]
  exact (hperm.append_right _).trans hremove

/-! ## The page as a whole -/

/-- The types of the blocks that are grouped. -/
def groupedTypes : List BlockType :=
  FixType.image.types ++ FixType.table.types ++ FixType.code.types ++ [.text] ++ [.refText]

namespace MagicModel

omit [DecidableEq δ]

def twoLayerBlocks (m : MagicModel δ) : List (TwoLayerBlock δ) :=
  m.imageBlocks ++ m.tableBlocks ++ m.codeBlocks

/-- All sub-blocks, and the text blocks that remain. -/
def grouped (m : MagicModel δ) : List (VlmBlock δ) :=
  m.twoLayerBlocks.flatMap (·.blocks) ++ m.listBlocks.flatMap (·.blocks) ++ m.textBlocks ++
    m.refTextBlocks

end MagicModel

section

omit [DecidableEq δ]

theorem select_append_perm (blocks : List (VlmBlock δ)) {ts us : List BlockType}
    (hdisj : ts.Disjoint us) :
    (select blocks (ts ++ us)).Perm (select blocks ts ++ select blocks us) := by
  apply filter_perm_append
  · intro b
    rw [List.map_append, ← Bool.decide_or]
    exact decide_eq_decide.mpr List.mem_append
  · intro b ht
    obtain ⟨t, ht, heq⟩ := List.mem_map.mp (of_decide_eq_true ht)
    apply decide_eq_false
    intro hu
    obtain ⟨u, hu, heq'⟩ := List.mem_map.mp hu
    have hsame : u = t := Option.some.inj (heq'.trans heq.symm)
    exact hdisj ht (hsame ▸ hu)

theorem select_groupedTypes_perm (blocks : List (VlmBlock δ)) :
    (select blocks groupedTypes).Perm
      (select blocks FixType.image.types ++ select blocks FixType.table.types ++
        select blocks FixType.code.types ++ select blocks [.text] ++ select blocks [.refText]) := by
  have hsplit : ∀ {ts us : List BlockType} {l : List (VlmBlock δ)}, ts.Disjoint us →
      (select blocks ts).Perm l → (select blocks (ts ++ us)).Perm (l ++ select blocks us) := by
    intro ts us l hdisj hl
    exact (select_append_perm blocks hdisj).trans (hl.append_right _)
  refine hsplit ?_ (hsplit ?_ (hsplit ?_ (hsplit ?_ (List.Perm.refl _))))
  · simp [FixType.types]
  · simp [FixType.types]
  · simp [FixType.types]
  · simp [FixType.types]

end

omit [DecidableEq δ] in
/-- A block of a two-layer type is a sub-block, or it is not included. -/
theorem mem_subBlocks_or_notInclude {fixed all : List (TwoLayerBlock δ)}
    {notInclude rest blocks : List (VlmBlock δ)}
    (hperm : ((fixed.flatMap (·.blocks)).map VlmBlock.untyped ++ notInclude).Perm
      (blocks.map VlmBlock.untyped)) (hfixed : fixed ⊆ all) (hnot : notInclude ⊆ rest)
    {b : VlmBlock δ} (hb : b ∈ blocks) :
    b.index ∈ (all.flatMap (·.blocks)).map (·.index) ∨
      b.typed (some .text) ∈ rest.map (·.typed (some .text)) := by
  rcases List.mem_append.mp (hperm.mem_iff.mpr (List.mem_map_of_mem hb)) with hin | hin
  · left
    obtain ⟨c, hc, heq⟩ := List.mem_map.mp hin
    obtain ⟨f, hf, hcf⟩ := List.mem_flatMap.mp hc
    have hindex : c.untyped.index = b.untyped.index := by rw [heq]
    exact List.mem_map.mpr ⟨c, List.mem_flatMap.mpr ⟨f, hfixed hf, hcf⟩, hindex⟩
  · exact Or.inr (List.mem_map.mpr ⟨b.untyped, hnot hin, rfl⟩)

/-- Grouping does not fail.  Every body, caption, footnote and text occurs once among all
sub-blocks and remaining text blocks, and a body, caption or footnote that is no sub-block is a
text block. -/
theorem ofBlocks_conserves (sqrt : ℚ → ℚ) (blocks : List (VlmBlock δ))
    (hblocks : (blocks.map (·.index)).Nodup) :
    ∃ m, MagicModel.ofBlocks sqrt blocks = .ok m ∧
      (m.grouped.map VlmBlock.untyped).Perm
        ((select blocks groupedTypes).map VlmBlock.untyped) ∧
      (∀ b ∈ select blocks groupedTypes, (m.grouped.map (·.index)).count b.index = 1) ∧
      ∀ fixType : FixType, ∀ b ∈ select blocks fixType.types,
        b.index ∈ (m.twoLayerBlocks.flatMap (·.blocks)).map (·.index) ∨
          b.typed (some .text) ∈ m.textBlocks := by
  have hselect : ∀ types, ((select blocks types).map (·.index)).Nodup :=
    fun types => hblocks.sublist (List.filter_sublist.map _)
  obtain ⟨images, notImages, himages, hiperm⟩ :=
    fixTwoLayerBlocks_ok sqrt .image (hselect FixType.image.types)
  obtain ⟨tables, notTables, htables, htperm⟩ :=
    fixTwoLayerBlocks_ok sqrt .table (hselect FixType.table.types)
  obtain ⟨codes, notCodes, hcodes, hcperm⟩ :=
    fixTwoLayerBlocks_ok sqrt .code (hselect FixType.code.types)
  have hlists := fixListBlocks_perm (select blocks [.list]) (select blocks [.text])
    (select blocks [.refText])
  set lists := fixListBlocks (select blocks [.list]) (select blocks [.text])
    (select blocks [.refText]) with hlistsdef
  obtain ⟨m, hm, hlayers, hl, htext, hr⟩ : ∃ m, MagicModel.ofBlocks sqrt blocks = .ok m ∧
      m.twoLayerBlocks = images ++ tables ++ codes ∧ m.listBlocks = lists.1 ∧
      m.textBlocks =
        lists.2.1 ++ (notImages ++ notTables ++ notCodes).map (·.typed (some .text)) ∧
      m.refTextBlocks = lists.2.2 := by
    rw [MagicModel.ofBlocks, himages, htables, hcodes, ← hlistsdef]
    exact ⟨_, rfl, rfl, rfl, rfl, rfl⟩
  have hperm : (m.grouped.map VlmBlock.untyped).Perm
      ((select blocks groupedTypes).map VlmBlock.untyped) := by
    have huntyped : ∀ l : List (VlmBlock δ), (l.map VlmBlock.untyped).map VlmBlock.untyped =
        l.map VlmBlock.untyped ∧
        (l.map (·.typed (some .text))).map VlmBlock.untyped = l.map VlmBlock.untyped := by
      intro l
      constructor
      · rw [List.map_map]
        rfl
      · rw [List.map_map]
        rfl
    refine List.Perm.trans ?_ ((select_groupedTypes_perm blocks).map _).symm
    have hi := hiperm.map VlmBlock.untyped
    have ht := htperm.map VlmBlock.untyped
    have hc := hcperm.map VlmBlock.untyped
    have hx := hlists.map VlmBlock.untyped
    rw [MagicModel.grouped, hlayers, hl, htext, hr]
    simp only [List.map_append, List.flatMap_append, (huntyped _).1, (huntyped _).2]
      at hi ht hc hx ⊢
    rw [List.perm_iff_count] at hi ht hc hx ⊢
    intro b
    have hi := hi b
    have ht := ht b
    have hc := hc b
    have hx := hx b
    simp only [List.count_append] at hi ht hc hx ⊢
    omega
  refine ⟨m, hm, hperm, ?_, ?_⟩
  · intro b hb
    have hindex := hperm.map (·.index)
    rw [map_index_untyped, map_index_untyped] at hindex
    rw [hindex.count_eq]
    exact List.count_eq_one_of_mem (hselect groupedTypes) (List.mem_map_of_mem hb)
  · intro fixType b hb
    rw [hlayers, htext]
    have hcase : b.index ∈ ((images ++ tables ++ codes).flatMap (·.blocks)).map (·.index) ∨
        b.typed (some .text) ∈
          (notImages ++ notTables ++ notCodes).map (·.typed (some .text)) := by
      rcases fixType with - | - | -
      · exact mem_subBlocks_or_notInclude hiperm (by simp) (by simp) hb
      · exact mem_subBlocks_or_notInclude htperm (by simp) (by simp) hb
      · exact mem_subBlocks_or_notInclude hcperm (by simp) (by simp) hb
    exact hcase.imp_right (List.mem_append_right lists.2.1)

/-- A figure with a footnote before it, a caption next to it and one farther away, a list with an
item, and a reference. -/
def figurePage : List (VlmBlock String) :=
  [{ bbox := ⟨0, 0, 100, 10⟩, type := some .imageFootnote, lines := "note", index := 0 },
    { bbox := ⟨0, 20, 100, 60⟩, type := some .imageBody, lines := "figure", index := 1 },
    { bbox := ⟨0, 70, 100, 80⟩, type := some .imageCaption, lines := "Figure 1", index := 2 },
    { bbox := ⟨0, 90, 100, 99⟩, type := some .list, lines := "list", index := 3 },
    { bbox := ⟨0, 90, 100, 95⟩, type := some .text, lines := "item", index := 4 },
    { bbox := ⟨0, 110, 100, 120⟩, type := some .imageCaption, lines := "Figure 2", index := 5 },
    { bbox := ⟨0, 130, 100, 140⟩, type := some .refText, lines := "[1]", index := 6 }]

/-- The root of a quotient of squares, rounded down otherwise. -/
def squareRoot (q : ℚ) : ℚ := Nat.sqrt q.num.natAbs / Nat.sqrt q.den

theorem ofBlocks_conserves_figurePage :
    ∃ m, MagicModel.ofBlocks squareRoot figurePage = .ok m ∧
      (m.grouped.map VlmBlock.untyped).Perm
        ((select figurePage groupedTypes).map VlmBlock.untyped) ∧
      (∀ b ∈ select figurePage groupedTypes, (m.grouped.map (·.index)).count b.index = 1) ∧
      ∀ fixType : FixType, ∀ b ∈ select figurePage fixType.types,
        b.index ∈ (m.twoLayerBlocks.flatMap (·.blocks)).map (·.index) ∨
          b.typed (some .text) ∈ m.textBlocks :=
  ofBlocks_conserves squareRoot figurePage (by decide)

end RagflowMineru.MinerU
