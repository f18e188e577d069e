import RagflowMineru.Library.Gathering
import RagflowMineru.MinerU.ParaBlocks

/-!
# Splitting paragraphs

`para_split` joins text blocks that belong together, also over the end of a
page.  The text blocks between two titles or equations are a group.  From the
end of a group on, a block that goes on with what the block before it began
gives its lines to that block and stays behind without lines.  Blocks are
objects that change; here they have their places in the list of all blocks.
Pages are numbered one after the other, and the blocks that come in are texts,
titles, images, tables and equations: lists and indexes are first told apart here.
-/

namespace RagflowMineru.MinerU

open RagflowMineru.Library

variable {δ : Type}

/-- `LINE_STOP_FLAG`. -/
def paraStopFlag : List Char :=
  ['.', '!', '?', '。', '！', '？', ')', '）', '"', '”', ':', '：', ';', '；']

def isBarrier (type : BlockType) : Bool := type = .title ∨ type = .interlineEquation

/-- The groups of `__process_blocks` from the block at place `i` on, where `current` is the group
that is open. -/
def groupsFrom (i : ℕ) (current : List ℕ) : List BlockType → List (List ℕ)
  | [] => if current = [] then [] else [current]
  | type :: types =>
      let current := if type = .text then current ++ [i] else current
      if types.head?.any isBarrier then current :: groupsFrom (i + 1) [] types
      else groupsFrom (i + 1) current types

/-- `bbox_fs` of a text block. -/
def ParaBlock.resetBox (b : ParaBlock δ) : ParaBlock δ :=
  if b.type = .text then { b with bboxFs := some (linesBox b.bbox b.lines) } else b

section

variable (tools : TextTools)

/-- A block of a group is typed. -/
def retype (bs : List (ParaBlock δ)) (i : ℕ) : Except String (List (ParaBlock δ)) :=
  match bs[i]? with
  | none => .error "IndexError: list index out of range"
  | some b => do
      let (type, lines) ← isListOrIndexBlock tools b
      pure (bs.set i { b with type, lines })

/-- The conditions of `__merge_2_text_blocks`. -/
def joinsText (block1 block2 : ParaBlock δ) : Except String Bool :=
  match block1.lines, block1.bboxFs, block2.bboxFs with
  | [], _, _ => pure false
  | firstLine :: _, some fs1, some fs2 =>
      let weight1 := block1.bbox.x1 - block1.bbox.x0
      let weight2 := block2.bbox.x1 - block2.bbox.x0
      if |fs1.x0 - firstLine.bbox.x0| < (firstLine.bbox.y1 - firstLine.bbox.y0) / 2 then
        match block2.lines.getLast? with
        | none => .error "IndexError: list index out of range"
        | some lastLine =>
            match lastLine.spans.getLast?, firstLine.spans with
            | some lastSpan, firstSpan :: _ =>
                match firstSpan.content with
                | [] => pure false
                | c :: _ => pure <|
                    |fs2.x1 - lastLine.bbox.x1| < lastLine.bbox.y1 - lastLine.bbox.y0 &&
                      !lastSpan.content.getLast?.any (· ∈ paraStopFlag) &&
                      |weight1 - weight2| < min weight1 weight2 &&
                      !tools.isdigit c && !tools.isupper c
            | _, _ => pure false
      else pure false
  | _, _, _ => .error "KeyError: 'bbox_fs'"

/-- Lines that move to another page are flagged. -/
def movedLines (block1 block2 : ParaBlock δ) : List ParaLine :=
  if block1.page.map Prod.fst ≠ block2.page.map Prod.fst then
    block1.lines.map fun line =>
      { line with spans := line.spans.map fun span => { span with crossPage := true } }
  else block1.lines

/-- The lines of the block at place `j` go to the block at place `i`. -/
def moveLines (bs : List (ParaBlock δ)) (i j : ℕ) (prev current : ParaBlock δ) :
    List (ParaBlock δ) :=
  (bs.set i { prev with lines := prev.lines ++ movedLines current prev }).set j
    { current with lines := [], linesDeleted := true }

/-- One turn of the loop that runs backwards through a group. -/
def mergePair (isListGroup : Bool) (p : ℕ × ℕ) (bs : List (ParaBlock δ)) :
    Except String (List (ParaBlock δ)) :=
  match bs[p.1]?, bs[p.2]? with
  | some prev, some current =>
      if current.type = .text ∧ prev.type = .text ∧ !isListGroup then do
        if ← joinsText tools current prev then pure (moveLines bs p.1 p.2 prev current)
        else pure bs
      else if current.type = .list ∧ prev.type = .list ∨
          current.type = .index ∧ prev.type = .index then
        pure (moveLines bs p.1 p.2 prev current)
      else pure bs
  | _, _ => .error "IndexError: list index out of range"

/-- `__is_list_group`. -/
def isListGroup (group : List (ParaBlock δ)) : Bool := group.all fun b => b.lines.length ≤ 3

/-- One turn of the loop over groups. -/
def mergeGroup (bs : List (ParaBlock δ)) (group : List ℕ) :
    Except String (List (ParaBlock δ)) := do
  let bs ← group.foldlM (retype tools) bs
  if 1 < group.length then
    (group.zip group.tail).foldrM (mergePair tools (isListGroup (group.filterMap (bs[·]?)))) bs
  else pure bs

/-- `__para_merge_page`. -/
def paraMergePage (bs : List (ParaBlock δ)) : Except String (List (ParaBlock δ)) :=
  (groupsFrom 0 [] (bs.map (·.type))).foldlM (mergeGroup tools) (bs.map ParaBlock.resetBox)

structure PageInfo (δ : Type) where
  preprocBlocks : List (ParaBlock δ)
  pageIdx : ℕ
  pageSize : ℚ × ℚ
  paraBlocks : List (ParaBlock δ) := []

def ParaBlock.onPage (i : ℕ) (b : ParaBlock δ) : Bool := b.page.any (·.1 = i)

def ParaBlock.withoutPage (b : ParaBlock δ) : ParaBlock δ := { b with page := none }

/-- The last loop of `para_split`: each page takes the blocks that carry its number. -/
def collectPages : List (ParaBlock δ) → List (PageInfo δ) → List (PageInfo δ)
  | _, [] => []
  | bs, p :: ps =>
      { p with paraBlocks := (bs.filter (·.onPage p.pageIdx)).map ParaBlock.withoutPage } ::
        collectPages (bs.map fun b => if b.onPage p.pageIdx then b.withoutPage else b) ps

/-- The copies of the blocks of a page. -/
def PageInfo.pagedBlocks (p : PageInfo δ) : List (ParaBlock δ) :=
  p.preprocBlocks.map fun b => { b with page := some (p.pageIdx, p.pageSize) }

def paraSplit (pages : List (PageInfo δ)) : Except String (List (PageInfo δ)) := do
  let allBlocks ← paraMergePage tools (pages.flatMap PageInfo.pagedBlocks)
  pure (collectPages allBlocks pages)

end

/-! ## Groups -/

/-- Text blocks hold lines that can move; titles and equations bar their way. -/
def kindOf (type : BlockType) : CellKind :=
  if IsText type then .holder else if isBarrier type then .barrier else .passed

/-- Two holders with nothing but cells that are passed over between them. -/
structure Linked (kinds : List CellKind) (i j : ℕ) : Prop where
  lt : i < j
  left : kinds[i]? = some .holder
  right : kinds[j]? = some .holder
  between : ∀ k, i < k → k < j → kinds[k]? = some .passed

theorem flatten_groupsFrom (i : ℕ) (current : List ℕ) (types : List BlockType) :
    (groupsFrom i current types).flatten =
      current ++ ((types.zipIdx i).filter (·.1 = .text)).map Prod.snd := by
  induction types generalizing i current with
  | nil =>
      rw [groupsFrom]
      split_ifs with h
      · simp [h]
      · simp
  | cons type types ih =>
      have hcurrent : (if type = .text then current ++ [i] else current) ++
          ((types.zipIdx (i + 1)).filter (·.1 = .text)).map Prod.snd =
          current ++ (((type :: types).zipIdx i).filter (·.1 = .text)).map Prod.snd := by
        rw [List.zipIdx_cons]
        by_cases ht : type = .text
        · simp [ht]
        · simp [ht]
      rw [groupsFrom, ← hcurrent]
      by_cases hbar : types.head?.any isBarrier
      · rw [if_pos hbar, List.flatten_cons, ih, List.nil_append]
      · rw [if_neg hbar, ih]

/-- What is known of the open group at place `i`: its places are linked, and there is nothing but
cells that are passed over between the last one and `i`. -/
structure OpenGroup (kinds : List CellKind) (i : ℕ) (current : List ℕ) : Prop where
  chain : current.IsChain (Linked kinds)
  last : ∀ k ∈ current.getLast?, k < i ∧ kinds[k]? = some .holder
  behind : ∀ k ∈ current.getLast?, ∀ m, k < m → m < i → kinds[m]? = some .passed

theorem OpenGroup.nil (kinds : List CellKind) (i : ℕ) : OpenGroup kinds i [] where
  chain := List.isChain_nil
  last := by simp
  behind := by simp

/-- A text block is appended. -/
theorem OpenGroup.append {kinds : List CellKind} {i : ℕ} {current : List ℕ}
    (h : OpenGroup kinds i current) (hi : kinds[i]? = some .holder) :
    OpenGroup kinds (i + 1) (current ++ [i]) where
  chain := by
    refine h.chain.append (List.isChain_singleton i) ?_
    intro k hk j hj
    obtain rfl : i = j := by simpa using hj
    exact ⟨(h.last k hk).1, (h.last k hk).2, hi, h.behind k hk⟩
  last := by
    intro k hk
    obtain rfl : i = k := by simpa using hk
    exact ⟨Nat.lt_succ_self i, hi⟩
  behind := by
    intro k hk m hkm hm
    obtain rfl : i = k := by simpa using hk
    omega

/-- A block that is passed over. -/
theorem OpenGroup.pass {kinds : List CellKind} {i : ℕ} {current : List ℕ}
    (h : OpenGroup kinds i current) (hi : kinds[i]? = some .passed) :
    OpenGroup kinds (i + 1) current where
  chain := h.chain
  last k hk := ⟨Nat.lt_succ_of_lt (h.last k hk).1, (h.last k hk).2⟩
  behind := by
    intro k hk m hkm hm
    rcases Nat.lt_succ_iff_lt_or_eq.mp hm with hlt | rfl
    · exact h.behind k hk m hkm hlt
    · exact hi

theorem chain_of_mem_groupsFrom {pre types : List BlockType} {current : List ℕ}
    (hplain : ∀ t ∈ pre ++ types, t ≠ .list ∧ t ≠ .index)
    (h : OpenGroup ((pre ++ types).map kindOf) pre.length current)
    (hbar : types.head?.any isBarrier → current = []) :
    ∀ g ∈ groupsFrom pre.length current types,
      g.IsChain (Linked ((pre ++ types).map kindOf)) := by
  induction types generalizing pre current with
  | nil =>
      intro g hg
      rw [groupsFrom] at hg
      split_ifs at hg with hnil
      · exact absurd hg List.not_mem_nil
      · rw [List.mem_singleton.mp hg]
        exact h.chain
  | cons type types ih =>
      have hmove : pre ++ type :: types = (pre ++ [type]) ++ types := by simp
      have hhere : ((pre ++ type :: types).map kindOf)[pre.length]? = some (kindOf type) := by
        rw [List.getElem?_map, List.getElem?_append_right (Nat.le_refl _), Nat.sub_self]
        rfl
      have hlen : (pre ++ [type]).length = pre.length + 1 := by simp
      have hnext : OpenGroup ((pre ++ type :: types).map kindOf) (pre.length + 1)
          (if type = .text then current ++ [pre.length] else current) := by
        by_cases htext : type = .text
        · subst htext
          rw [if_pos rfl]
          exact h.append hhere
        · rw [if_neg htext]
          by_cases hb : isBarrier type
          · rw [hbar hb]
            exact OpenGroup.nil _ _
          · have hnot : ¬ IsText type := by
              obtain ⟨hlist, hindex⟩ := hplain type (by simp)
              exact not_or.mpr ⟨htext, not_or.mpr ⟨hlist, hindex⟩⟩
            rw [kindOf, if_neg hnot, if_neg hb] at hhere
            exact h.pass hhere
      have hrest : ∀ cur, OpenGroup ((pre ++ type :: types).map kindOf) (pre.length + 1) cur →
          (types.head?.any isBarrier → cur = []) →
          ∀ g ∈ groupsFrom (pre.length + 1) cur types,
            g.IsChain (Linked ((pre ++ type :: types).map kindOf)) := by
        intro cur hcur hcurbar
        rw [hmove] at hplain hcur ⊢
        rw [← hlen] at hcur ⊢
        exact ih hplain hcur hcurbar
      intro g hg
      rw [groupsFrom] at hg
      by_cases hb : types.head?.any isBarrier
      · rw [if_pos hb] at hg
        rcases List.mem_cons.mp hg with rfl | hg
        · exact hnext.chain
        · exact hrest [] (OpenGroup.nil _ _) (fun _ => rfl) g hg
      · rw [if_neg hb] at hg
        exact hrest _ hnext (fun h => absurd h hb) g hg

/-! ## One step -/

/-- A block as a cell. -/
def ParaBlock.cell (b : ParaBlock δ) : CellKind × List ParaLine :=
  (kindOf b.type, b.lines.map ParaLine.bare)

def cells (bs : List (ParaBlock δ)) : Cells ParaLine := bs.map ParaBlock.cell

/-- What splitting leaves as it is: all of a block that is no text block, and of a text block all
but its lines and what kind of text it is. -/
def ParaBlock.frame (b : ParaBlock δ) : ParaBlock δ :=
  if IsText b.type then { b with type := .text, lines := [], linesDeleted := false } else b

/-- What holds in between: the blocks are still the same ones, and lines were only moved. -/
structure SplitFrom (start bs : List (ParaBlock δ)) : Prop where
  frame : bs.map ParaBlock.frame = start.map ParaBlock.frame
  moves : Moves (cells start) (cells bs)

variable {start bs : List (ParaBlock δ)} {i j : ℕ}

theorem SplitFrom.kinds (h : SplitFrom start bs) :
    bs.map (kindOf ·.type) = start.map (kindOf ·.type) := by
  have hkinds := Moves.kinds h.moves
  rw [cells, cells, List.map_map, List.map_map] at hkinds
  exact hkinds

theorem SplitFrom.frame_of_getElem? (h : SplitFrom start bs) {b : ParaBlock δ}
    (hb : bs[i]? = some b) : ∃ b0, start[i]? = some b0 ∧ b.frame = b0.frame := by
  have hget := congrArg (fun l => l[i]?) h.frame
  simp only [List.getElem?_map, hb, Option.map_some] at hget
  obtain ⟨b0, hb0, heq⟩ := Option.map_eq_some_iff.mp hget.symm
  exact ⟨b0, hb0, heq.symm⟩

/-- What the steps read of a block besides its lines does not change. -/
theorem ParaBlock.of_frame_eq {b b0 : ParaBlock δ} (h : b.frame = b0.frame) :
    b.bboxFs = b0.bboxFs ∧ b.page = b0.page ∧ (IsText b.type ↔ IsText b0.type) := by
  have hfs : ∀ c : ParaBlock δ, c.frame.bboxFs = c.bboxFs ∧ c.frame.page = c.page ∧
      (IsText c.frame.type ↔ IsText c.type) := by
    intro c
    rw [frame]
    split_ifs with hc
    · exact ⟨rfl, rfl, iff_of_true (Or.inl rfl) hc⟩
    · exact ⟨rfl, rfl, Iff.rfl⟩
  obtain ⟨h1, h2, h3⟩ := hfs b
  obtain ⟨h1', h2', h3'⟩ := hfs b0
  rw [← h1, ← h2, ← h3, h, h1', h2', h3']
  exact ⟨rfl, rfl, Iff.rfl⟩

/-- The block at a place, if there is one, has lines. -/
def Full (bs : List (ParaBlock δ)) (k : ℕ) : Prop := ∀ b, bs[k]? = some b → b.lines ≠ []

/-- What holds of the blocks before the groups are gone through. -/
structure Ready (start : List (ParaBlock δ)) : Prop where
  plain : ∀ b ∈ start, b.type ≠ .list ∧ b.type ≠ .index
  paged : ∀ b ∈ start, b.page ≠ none
  boxed : ∀ b ∈ start, IsText b.type → b.bboxFs ≠ none
  full : ∀ k, (start.map (kindOf ·.type))[k]? = some .holder → Full start k

theorem kindOf_eq_holder_iff {type : BlockType} : kindOf type = .holder ↔ IsText type := by
  rw [kindOf]
  split_ifs with h h'
  · exact iff_of_true rfl h
  · exact iff_of_false (by simp) h
  · exact iff_of_false (by simp) h

/-- The block at the place of a holder. -/
theorem SplitFrom.exists_holder (h : SplitFrom start bs) (hready : Ready start)
    (hi : (start.map (kindOf ·.type))[i]? = some .holder) :
    ∃ b, bs[i]? = some b ∧ IsText b.type ∧ b.bboxFs ≠ none ∧ b.page ≠ none := by
  have hkind := hi
  rw [← h.kinds, List.getElem?_map] at hkind
  obtain ⟨b, hb, htext⟩ := Option.map_eq_some_iff.mp hkind
  obtain ⟨b0, hb0, hframe⟩ := h.frame_of_getElem? hb
  obtain ⟨hfs, hpage, hsame⟩ := ParaBlock.of_frame_eq hframe
  have htext := kindOf_eq_holder_iff.mp htext
  have hmem := List.mem_of_getElem? hb0
  exact ⟨b, hb, htext, hfs ▸ hready.boxed b0 hmem (hsame.mp htext), hpage ▸ hready.paged b0 hmem⟩

theorem map_set_of_eq {β γ : Type*} {f : β → γ} {l : List β} {b b' : β} (hb : l[i]? = some b)
    (h : f b' = f b) : (l.set i b').map f = l.map f := by
  obtain ⟨hlt, rfl⟩ := List.getElem?_eq_some_iff.mp hb
  rw [List.map_set, h, ← List.getElem_map f (h := by simpa using hlt), List.set_getElem_self]

/-- Typing a block changes neither its lines nor the others. -/
theorem retype_ok {tools : TextTools} (hdetects : tools.Detects) (h : SplitFrom start bs)
    (hready : Ready start) (hi : (start.map (kindOf ·.type))[i]? = some .holder) :
    ∃ bs', retype tools bs i = .ok bs' ∧ SplitFrom start bs' ∧ ∀ k, Full bs k → Full bs' k := by
  obtain ⟨b, hb, htext, hfs, hpage⟩ := h.exists_holder hready hi
  obtain ⟨type, lines, hok, htype, hlines⟩ := isListOrIndexBlock_ok hdetects hfs hpage
  have hframe : ({ b with type, lines } : ParaBlock δ).frame = b.frame := by
    rw [ParaBlock.frame, ParaBlock.frame, if_pos htype, if_pos htext]
  have hcell : ({ b with type, lines } : ParaBlock δ).cell = b.cell := by
    rw [ParaBlock.cell, ParaBlock.cell, hlines, kindOf_eq_holder_iff.mpr htype,
      kindOf_eq_holder_iff.mpr htext]
  refine ⟨bs.set i { b with type, lines }, ?_, ⟨?_, ?_⟩, ?_⟩
  · simp only [retype, hb, hok]
    rfl
  · rw [map_set_of_eq hb hframe, h.frame]
  · have hcells : cells (bs.set i { b with type, lines }) = cells bs := map_set_of_eq hb hcell
    rw [hcells]
    exact h.moves
  · intro k hfull b' hb'
    rw [List.getElem?_set] at hb'
    split_ifs at hb' with hik hlt
    · obtain rfl := Option.some.inj hb'
      subst hik
      intro hnil
      have hnil : lines = [] := hnil
      rw [hnil, List.map_nil, eq_comm, List.map_eq_nil_iff] at hlines
      exact hfull b hb hlines
    · exact hfull b' hb'

/-- The conditions of a merge can be tested. -/
theorem joinsText_ok (tools : TextTools) {block1 block2 : ParaBlock δ}
    (h1 : block1.bboxFs ≠ none) (h2 : block2.bboxFs ≠ none) (hlines : block2.lines ≠ []) :
    ∃ b, joinsText tools block1 block2 = .ok b := by
  obtain ⟨fs1, h1⟩ := Option.ne_none_iff_exists'.mp h1
  obtain ⟨fs2, h2⟩ := Option.ne_none_iff_exists'.mp h2
  obtain ⟨last, hlast⟩ := Option.ne_none_iff_exists'.mp (List.getLast?_eq_none_iff.not.mpr hlines)
  rcases hfirst : block1.lines with - | ⟨first, rest⟩
  · exact ⟨false, by rw [joinsText, hfirst]; rfl⟩
  · simp only [joinsText, hfirst, h1, h2, hlast]
    split_ifs
    · rcases hspan : last.spans.getLast? with - | lastSpan
      · exact ⟨_, rfl⟩
      · rcases hspans : first.spans with - | ⟨firstSpan, spans⟩
        · exact ⟨_, rfl⟩
        · rcases hcontent : firstSpan.content with - | ⟨c, cs⟩
          · simp only [hcontent]
            exact ⟨_, rfl⟩
          · simp only [hcontent]
            exact ⟨_, rfl⟩
    · exact ⟨_, rfl⟩

theorem map_bare_movedLines (block1 block2 : ParaBlock δ) :
    (movedLines block1 block2).map ParaLine.bare = block1.lines.map ParaLine.bare := by
  rw [movedLines]
  split_ifs
  · apply map_bare_map
    intro l
    rw [ParaLine.bare, ParaLine.bare, List.map_map]
    rfl
  · rfl

/-- The lines of a block move to the block before it in the group. -/
theorem SplitFrom.moveLines (h : SplitFrom start bs)
    (hlink : Linked (start.map (kindOf ·.type)) i j) {prev current : ParaBlock δ}
    (hi : bs[i]? = some prev) (hj : bs[j]? = some current) (hprev : IsText prev.type)
    (hcurrent : IsText current.type) :
    SplitFrom start (MinerU.moveLines bs i j prev current) ∧
      ∀ k ≠ j, Full bs k → Full (MinerU.moveLines bs i j prev current) k := by
  have hne : i ≠ j := hlink.lt.ne
  set first : ParaBlock δ := { prev with lines := prev.lines ++ movedLines current prev }
  set second : ParaBlock δ := { current with lines := [], linesDeleted := true }
  have hj' : (bs.set i first)[j]? = some current := by
    rw [List.getElem?_set_ne hne, hj]
  refine ⟨⟨?_, ?_⟩, ?_⟩
  · have hfirst : first.frame = prev.frame := by
      rw [ParaBlock.frame, ParaBlock.frame, if_pos hprev, if_pos hprev]
    have hsecond : second.frame = current.frame := by
      rw [ParaBlock.frame, ParaBlock.frame, if_pos hcurrent, if_pos hcurrent]
    rw [MinerU.moveLines, map_set_of_eq hj' hsecond, map_set_of_eq hi hfirst, h.frame]
  · have hget : ∀ {k : ℕ} {b : ParaBlock δ}, bs[k]? = some b → IsText b.type →
        (cells bs)[k]? = some (.holder, b.lines.map ParaLine.bare) := by
      intro k b hb htext
      rw [cells, List.getElem?_map, hb, Option.map_some, ParaBlock.cell,
        kindOf_eq_holder_iff.mpr htext]
    have hcells : cells (MinerU.moveLines bs i j prev current) =
        ((cells bs).set i
          (.holder, prev.lines.map ParaLine.bare ++ current.lines.map ParaLine.bare)).set j
            (.holder, []) := by
      rw [MinerU.moveLines, cells, List.map_set, List.map_set, ParaBlock.cell, ParaBlock.cell,
        kindOf_eq_holder_iff.mpr hprev, kindOf_eq_holder_iff.mpr hcurrent, List.map_append,
        map_bare_movedLines]
      rfl
    rw [hcells]
    refine h.moves.tail (move_set (hget hi hprev) (hget hj hcurrent) hlink.lt ?_)
    intro k hik hkj
    have hk := hlink.between k hik hkj
    rw [← h.kinds, List.getElem?_map] at hk
    obtain ⟨b, hb, hkind⟩ := Option.map_eq_some_iff.mp hk
    exact ⟨b.cell, by rw [cells, List.getElem?_map, hb]; rfl, hkind⟩
  · intro k hkj hfull b hb
    rw [MinerU.moveLines, List.getElem?_set_ne hkj.symm, List.getElem?_set] at hb
    split_ifs at hb with hik hlt
    · obtain rfl := Option.some.inj hb
      subst hik
      exact fun hnil => hfull prev hi (List.append_eq_nil_iff.mp hnil).1
    · exact hfull b hb

/-- One turn of the loop through a group moves the lines of a block, or nothing. -/
theorem mergePair_ok (tools : TextTools) (single : Bool) (h : SplitFrom start bs)
    (hready : Ready start) (hlink : Linked (start.map (kindOf ·.type)) i j) (hfull : Full bs i) :
    ∃ bs', mergePair tools single (i, j) bs = .ok bs' ∧ SplitFrom start bs' ∧
      ∀ k ≠ j, Full bs k → Full bs' k := by
  obtain ⟨prev, hi, hprev, hfs, -⟩ := h.exists_holder hready hlink.left
  obtain ⟨current, hj, hcurrent, hfs', -⟩ := h.exists_holder hready hlink.right
  have hmoved := h.moveLines hlink hi hj hprev hcurrent
  have hkept : SplitFrom start bs ∧ ∀ k ≠ j, Full bs k → Full bs k := ⟨h, fun _ _ hk => hk⟩
  obtain ⟨joins, hjoins⟩ := joinsText_ok tools hfs' hfs (hfull prev hi)
  simp only [mergePair, hi, hj, hjoins, bind, Except.bind]
  split_ifs
  · exact ⟨_, rfl, hmoved⟩
  · exact ⟨_, rfl, hkept⟩
  · exact ⟨_, rfl, hmoved⟩
  · exact ⟨_, rfl, hkept⟩

/-! ## A run through the groups -/

/-- The loop through a group, from its end: only blocks behind the first one lose their lines. -/
theorem mergePairs_ok (tools : TextTools) (single : Bool) (hready : Ready start) {group : List ℕ}
    (hchain : group.IsChain (Linked (start.map (kindOf ·.type)))) (h : SplitFrom start bs)
    (hfull : ∀ k ∈ group, Full bs k) :
    ∃ bs', (group.zip group.tail).foldrM (mergePair tools single) bs = .ok bs' ∧
      SplitFrom start bs' ∧ ∀ k ∉ group.tail, Full bs k → Full bs' k := by
  induction group with
  | nil => exact ⟨bs, rfl, h, fun _ _ hk => hk⟩
  | cons i group ih =>
      rcases group with - | ⟨j, rest⟩
      · exact ⟨bs, rfl, h, fun _ _ hk => hk⟩
      · have hsorted : (i :: j :: rest).Pairwise (· < ·) :=
          List.isChain_iff_pairwise.mp (hchain.imp fun _ _ hl => hl.lt)
        obtain ⟨bs', hok, h', hfull'⟩ := ih (List.isChain_of_isChain_cons hchain)
          fun k hk => hfull k (List.mem_cons_of_mem i hk)
        have hi : i ∉ rest := by
          intro hin
          have hlt := List.rel_of_pairwise_cons hsorted (List.mem_cons_of_mem j hin)
          exact lt_irrefl i hlt
        obtain ⟨bs'', hok', h'', hfull''⟩ := mergePair_ok tools single h' hready
          (List.isChain_cons_cons.mp hchain).1 (hfull' i hi (hfull i List.mem_cons_self))
        refine ⟨bs'', ?_, h'', ?_⟩
        · rw [List.tail_cons, List.zip_cons_cons, List.foldrM_cons]
          rw [List.tail_cons] at hok
          rw [hok]
          exact hok'
        · intro k hk hbs
          obtain ⟨hkj, hkrest⟩ := not_or.mp (mt List.mem_cons.mpr hk)
          exact hfull'' k hkj (hfull' k hkrest hbs)

theorem retypes_ok {tools : TextTools} (hdetects : tools.Detects) (hready : Ready start)
    {group : List ℕ} (hgroup : ∀ k ∈ group, (start.map (kindOf ·.type))[k]? = some .holder)
    (h : SplitFrom start bs) :
    ∃ bs', group.foldlM (retype tools) bs = .ok bs' ∧ SplitFrom start bs' ∧
      ∀ k, Full bs k → Full bs' k := by
  induction group generalizing bs with
  | nil => exact ⟨bs, rfl, h, fun _ hk => hk⟩
  | cons i group ih =>
      obtain ⟨bs', hok, h', hfull'⟩ :=
        retype_ok hdetects h hready (hgroup i List.mem_cons_self)
      obtain ⟨bs'', hok', h'', hfull''⟩ := ih (fun k hk => hgroup k (List.mem_cons_of_mem i hk)) h'
      refine ⟨bs'', ?_, h'', fun k hk => hfull'' k (hfull' k hk)⟩
      rw [List.foldlM_cons, hok]
      exact hok'

theorem mergeGroup_ok {tools : TextTools} (hdetects : tools.Detects) (hready : Ready start)
    {group : List ℕ} (hchain : group.IsChain (Linked (start.map (kindOf ·.type))))
    (hgroup : ∀ k ∈ group, (start.map (kindOf ·.type))[k]? = some .holder)
    (h : SplitFrom start bs) (hfull : ∀ k ∈ group, Full bs k) :
    ∃ bs', mergeGroup tools bs group = .ok bs' ∧ SplitFrom start bs' ∧
      ∀ k ∉ group, Full bs k → Full bs' k := by
  obtain ⟨bs1, hok1, h1, hfull1⟩ := retypes_ok hdetects hready hgroup h
  obtain ⟨bs2, hok2, h2, hfull2⟩ := mergePairs_ok tools
    (isListGroup (group.filterMap (bs1[·]?))) hready hchain h1 fun k hk => hfull1 k (hfull k hk)
  simp only [mergeGroup, hok1, bind, Except.bind]
  split_ifs
  · refine ⟨bs2, hok2, h2, fun k hk hbs => hfull2 k ?_ (hfull1 k hbs)⟩
    exact fun htail => hk (List.mem_of_mem_tail htail)
  · exact ⟨bs1, rfl, h1, fun k _ hbs => hfull1 k hbs⟩

theorem mergeGroups_ok {tools : TextTools} (hdetects : tools.Detects) (hready : Ready start)
    {groups : List (List ℕ)}
    (hchain : ∀ g ∈ groups, g.IsChain (Linked (start.map (kindOf ·.type))))
    (hgroups : ∀ k ∈ groups.flatten, (start.map (kindOf ·.type))[k]? = some .holder)
    (hnodup : groups.flatten.Nodup) (h : SplitFrom start bs)
    (hfull : ∀ k ∈ groups.flatten, Full bs k) :
    ∃ bs', groups.foldlM (mergeGroup tools) bs = .ok bs' ∧ SplitFrom start bs' := by
  induction groups generalizing bs with
  | nil => exact ⟨bs, rfl, h⟩
  | cons group groups ih =>
      rw [List.flatten_cons] at hgroups hnodup hfull
      obtain ⟨bs', hok, h', hfull'⟩ := mergeGroup_ok hdetects hready
        (hchain group List.mem_cons_self) (fun k hk => hgroups k (List.mem_append_left _ hk)) h
        fun k hk => hfull k (List.mem_append_left _ hk)
      obtain ⟨bs'', hok', h''⟩ := ih (fun g hg => hchain g (List.mem_cons_of_mem group hg))
        (fun k hk => hgroups k (List.mem_append_right _ hk)) (List.nodup_append.mp hnodup).2.1 h'
        (fun k hk => hfull' k
          (fun hin => (List.nodup_append.mp hnodup).2.2 k hin k hk rfl)
          (hfull k (List.mem_append_right _ hk)))
      refine ⟨bs'', ?_, h''⟩
      rw [List.foldlM_cons, hok]
      exact hok'

/-- All groups are gone through without failure. -/
theorem paraMergePage_ok {tools : TextTools} (hdetects : tools.Detects) {bs : List (ParaBlock δ)}
    (hplain : ∀ b ∈ bs, b.type ≠ .list ∧ b.type ≠ .index) (hpage : ∀ b ∈ bs, b.page ≠ none)
    (hlines : ∀ b ∈ bs, b.type = .text → b.lines ≠ []) :
    ∃ bs', paraMergePage tools bs = .ok bs' ∧ SplitFrom (bs.map ParaBlock.resetBox) bs' := by
  have htype : ∀ b : ParaBlock δ, b.resetBox.type = b.type ∧ b.resetBox.lines = b.lines ∧
      b.resetBox.page = b.page ∧ (b.type = .text → b.resetBox.bboxFs ≠ none) := by
    intro b
    rw [ParaBlock.resetBox]
    split_ifs with h
    · exact ⟨rfl, rfl, rfl, fun _ => Option.some_ne_none _⟩
    · exact ⟨rfl, rfl, rfl, fun htext => absurd htext h⟩
  have htext : ∀ b ∈ bs, IsText b.type → b.type = .text := by
    intro b hb h
    exact h.resolve_right fun h => h.elim (hplain b hb).1 (hplain b hb).2
  have hkinds : (bs.map ParaBlock.resetBox).map (kindOf ·.type) =
      (bs.map (·.type)).map kindOf := by
    rw [List.map_map, List.map_map]
    exact List.map_congr_left fun b _ => congrArg kindOf (htype b).1
  have hready : Ready (bs.map ParaBlock.resetBox) := by
    constructor
    · intro b' hb'
      obtain ⟨b, hb, rfl⟩ := List.mem_map.mp hb'
      rw [(htype b).1]
      exact hplain b hb
    · intro b' hb'
      obtain ⟨b, hb, rfl⟩ := List.mem_map.mp hb'
      rw [(htype b).2.2.1]
      exact hpage b hb
    · intro b' hb' h
      obtain ⟨b, hb, rfl⟩ := List.mem_map.mp hb'
      rw [(htype b).1] at h
      exact (htype b).2.2.2 (htext b hb h)
    · intro k hk b' hb'
      rw [List.getElem?_map] at hb'
      obtain ⟨b, hb, rfl⟩ := Option.map_eq_some_iff.mp hb'
      rw [hkinds, List.getElem?_map, List.getElem?_map, hb] at hk
      have hmem := List.mem_of_getElem? hb
      rw [(htype b).2.1]
      exact hlines b hmem (htext b hmem (kindOf_eq_holder_iff.mp (Option.some.inj hk)))
  have hflatten := flatten_groupsFrom 0 [] (bs.map (·.type))
  rw [List.nil_append] at hflatten
  have hholders : ∀ k ∈ (groupsFrom 0 [] (bs.map (·.type))).flatten,
      ((bs.map ParaBlock.resetBox).map (kindOf ·.type))[k]? = some .holder := by
    intro k hk
    rw [hflatten] at hk
    obtain ⟨⟨type, m⟩, hmem, rfl⟩ := List.mem_map.mp hk
    obtain ⟨hmem, ht⟩ := List.mem_filter.mp hmem
    rw [hkinds, List.getElem?_map, List.mem_zipIdx_iff_getElem?.mp hmem, of_decide_eq_true ht]
    rfl
  refine mergeGroups_ok hdetects hready ?_ hholders ?_ ⟨rfl, Relation.ReflTransGen.refl⟩ ?_
  · rw [hkinds]
    refine @chain_of_mem_groupsFrom [] _ _ ?_ (OpenGroup.nil _ _) fun _ => rfl
    intro t ht
    obtain ⟨b, hb, rfl⟩ := List.mem_map.mp ht
    exact hplain b hb
  · rw [hflatten]
    have hall : (((bs.map (·.type)).zipIdx 0).map Prod.snd).Nodup := by
      rw [List.zipIdx_map_snd]
      exact List.nodup_range'
    exact hall.sublist (List.filter_sublist.map _)
  · exact fun k hk => hready.full k (hholders k hk)

/-! ## The pages -/

/-- Every block comes back on its page. -/
theorem collectPages_eq {bs : List (ParaBlock δ)} {pages : List (PageInfo δ)}
    (hpages : (pages.map (·.pageIdx)).Nodup) :
    collectPages bs pages = pages.map fun p =>
      { p with paraBlocks := (bs.filter (·.onPage p.pageIdx)).map ParaBlock.withoutPage } := by
  induction pages generalizing bs with
  | nil => rfl
  | cons p ps ih =>
      rw [List.map_cons, List.nodup_cons] at hpages
      rw [collectPages, ih hpages.2, List.map_cons]
      congr 1
      apply List.map_congr_left
      intro q hq
      have hne : p.pageIdx ≠ q.pageIdx := by
        intro heq
        exact hpages.1 (List.mem_map.mpr ⟨q, hq, heq.symm⟩)
      have hfilter : (bs.map fun b => if b.onPage p.pageIdx then b.withoutPage else b).filter
          (·.onPage q.pageIdx) = bs.filter (·.onPage q.pageIdx) := by
        have hother : ∀ b : ParaBlock δ, b.onPage p.pageIdx = true →
            b.onPage q.pageIdx = false := by
          intro b hb
          rcases hpage : b.page with - | ⟨num, size⟩
          · simp [ParaBlock.onPage, hpage] at hb
          · simp only [ParaBlock.onPage, hpage, Option.any_some, decide_eq_true_eq,
              decide_eq_false_iff_not] at hb ⊢
            exact fun heq => hne (hb.symm.trans heq)
        rw [List.filter_map]
        have hsame : bs.filter ((fun b : ParaBlock δ => b.onPage q.pageIdx) ∘
            fun b => if b.onPage p.pageIdx then b.withoutPage else b) =
            bs.filter (·.onPage q.pageIdx) := by
          apply List.filter_congr
          intro b _
          rw [Function.comp_apply]
          split_ifs with hb
          · rw [hother b hb]
            rfl
          · rfl
        rw [hsame]
        conv_rhs => rw [← List.map_id (bs.filter (·.onPage q.pageIdx))]
        apply List.map_congr_left
        intro b hb
        rw [if_neg]
        · rfl
        · intro hp
          rw [List.mem_filter, hother b hp] at hb
          exact Bool.false_ne_true hb.2
      rw [hfilter]

/-- Where blocks are told apart by keys that come one after the other, the blocks of the keys in
turn are all blocks. -/
theorem flatMap_filter_key {β κ π : Type*} [DecidableEq κ] {key : β → κ} {idx : π → κ}
    {size : π → ℕ} {pages : List π} {bs : List β} (hpages : (pages.map idx).Nodup)
    (hbs : bs.map key = pages.flatMap fun p => List.replicate (size p) (idx p)) :
    (pages.flatMap fun p => bs.filter (key · = idx p)) = bs := by
  induction pages generalizing bs with
  | nil => simpa [eq_comm] using hbs
  | cons p ps ih =>
      rw [List.map_cons, List.nodup_cons] at hpages
      rw [List.flatMap_cons] at hbs
      obtain ⟨own, rest, rfl, hown, hrest⟩ := List.map_eq_append_iff.mp hbs
      have hownkey : ∀ b ∈ own, key b = idx p := by
        intro b hb
        have hmem : key b ∈ own.map key := List.mem_map_of_mem hb
        rw [hown] at hmem
        exact List.eq_of_mem_replicate hmem
      have hrestkey : ∀ b ∈ rest, ∃ q ∈ ps, key b = idx q := by
        intro b hb
        have hmem : key b ∈ rest.map key := List.mem_map_of_mem hb
        rw [hrest] at hmem
        obtain ⟨q, hq, hin⟩ := List.mem_flatMap.mp hmem
        exact ⟨q, hq, List.eq_of_mem_replicate hin⟩
      have hfirst : (own ++ rest).filter (key · = idx p) = own := by
        have h1 : own.filter (key · = idx p) = own :=
          List.filter_eq_self.mpr fun b hb => decide_eq_true (hownkey b hb)
        have h2 : rest.filter (key · = idx p) = [] := by
          rw [List.filter_eq_nil_iff]
          intro b hb
          obtain ⟨q, hq, heq⟩ := hrestkey b hb
          rw [decide_eq_true_eq, heq]
          exact fun hsame => hpages.1 (List.mem_map.mpr ⟨q, hq, hsame⟩)
        rw [List.filter_append, h1, h2, List.append_nil]
      have hothers : ∀ q ∈ ps, (own ++ rest).filter (key · = idx q) =
          rest.filter (key · = idx q) := by
        intro q hq
        have h1 : own.filter (key · = idx q) = [] := by
          rw [List.filter_eq_nil_iff]
          intro b hb
          rw [decide_eq_true_eq, hownkey b hb]
          exact fun hsame => hpages.1 (List.mem_map.mpr ⟨q, hq, hsame.symm⟩)
        rw [List.filter_append, h1, List.nil_append]
      rw [List.flatMap_cons, hfirst, List.flatMap_congr hothers, ih hpages.2 hrest]

/-- What splitting leaves as it is, besides the box of the lines and the page. -/
def ParaBlock.kept (b : ParaBlock δ) : ParaBlock δ :=
  if IsText b.type then
    { b with type := .text, lines := [], linesDeleted := false, bboxFs := none, page := none }
  else { b with page := none }

/-- The lines of all text, list and index blocks, in order. -/
def textLines (bs : List (ParaBlock δ)) : List ParaLine :=
  (bs.filter fun b => IsText b.type).flatMap fun b => b.lines.map ParaLine.bare

theorem contents_cells (bs : List (ParaBlock δ)) : contents (cells bs) = textLines bs := by
  induction bs with
  | nil => rfl
  | cons b bs ih =>
      have hcons : contents (cells (b :: bs)) =
          (if b.cell.1 = .holder then b.cell.2 else []) ++ contents (cells bs) := rfl
      rw [hcons, ih, textLines, textLines]
      by_cases h : IsText b.type
      · have hkind : b.cell.1 = .holder := kindOf_eq_holder_iff.mpr h
        rw [if_pos hkind, List.filter_cons_of_pos (by simpa using h), List.flatMap_cons]
        rfl
      · have hkind : b.cell.1 ≠ .holder := mt kindOf_eq_holder_iff.mp h
        rw [if_neg hkind, List.filter_cons_of_neg (by simpa using h), List.nil_append]

theorem cells_congr {f : ParaBlock δ → ParaBlock δ} (h : ∀ b, (f b).cell = b.cell)
    (bs : List (ParaBlock δ)) : cells (bs.map f) = cells bs := by
  rw [cells, cells, List.map_map]
  exact List.map_congr_left fun b _ => h b

theorem onPage_eq (i : ℕ) (b : ParaBlock δ) :
    b.onPage i = decide (b.page.map Prod.fst = some i) := by
  rw [ParaBlock.onPage]
  rcases b.page with - | ⟨num, size⟩
  · rfl
  · simp

theorem ParaBlock.kept_frame (b : ParaBlock δ) : b.frame.kept = b.kept := by
  rw [frame]
  split_ifs with h
  · have htext : IsText BlockType.text := Or.inl rfl
    rw [kept, kept, if_pos htext, if_pos h]
  · rfl

theorem ParaBlock.kept_resetBox (b : ParaBlock δ) : b.resetBox.kept = b.kept := by
  rw [resetBox]
  split_ifs with h
  · have htext : IsText b.type := Or.inl h
    rw [kept, kept, if_pos htext, if_pos htext]
  · rfl

/-- What is kept of the blocks of a page does not depend on the rest of the blocks. -/
theorem map_kept_filter {f : ParaBlock δ → ParaBlock δ}
    (hf : ∀ b, (f b).page = b.page ∧ (f b).kept = b.kept) (i : ℕ) (bs : List (ParaBlock δ)) :
    ((bs.map f).filter (·.onPage i)).map ParaBlock.kept =
      (bs.filter (·.onPage i)).map ParaBlock.kept := by
  have hpage : ∀ b : ParaBlock δ, (f b).onPage i = b.onPage i := by
    intro b
    rw [ParaBlock.onPage, ParaBlock.onPage, (hf b).1]
  rw [List.filter_map, List.map_map]
  simp only [Function.comp_def, hpage, (hf _).2]

/-- The blocks of a page among all blocks. -/
theorem filter_pagedBlocks {pages : List (PageInfo δ)} (hpages : (pages.map (·.pageIdx)).Nodup)
    {p : PageInfo δ} (hp : p ∈ pages) :
    (pages.flatMap PageInfo.pagedBlocks).filter (·.onPage p.pageIdx) = p.pagedBlocks := by
  have hother : ∀ q : PageInfo δ, q.pagedBlocks.filter (·.onPage p.pageIdx) =
      if q.pageIdx = p.pageIdx then q.pagedBlocks else [] := by
    intro q
    split_ifs with h
    · rw [List.filter_eq_self]
      intro b hb
      obtain ⟨c, -, rfl⟩ := List.mem_map.mp hb
      simpa [ParaBlock.onPage] using h
    · rw [List.filter_eq_nil_iff]
      intro b hb
      obtain ⟨c, -, rfl⟩ := List.mem_map.mp hb
      simpa [ParaBlock.onPage] using h
  induction pages with
  | nil => exact absurd hp List.not_mem_nil
  | cons q qs ih =>
      rw [List.map_cons, List.nodup_cons] at hpages
      rw [List.flatMap_cons, List.filter_append, hother]
      rcases List.mem_cons.mp hp with rfl | hp
      · have hnone : (qs.flatMap PageInfo.pagedBlocks).filter (·.onPage p.pageIdx) = [] := by
          rw [List.filter_flatMap, List.flatMap_eq_nil_iff]
          intro q hq
          rw [hother, if_neg]
          exact fun heq => hpages.1 (List.mem_map.mpr ⟨q, hq, heq⟩)
        rw [if_pos rfl, hnone, List.append_nil]
      · rw [if_neg fun heq => hpages.1 (List.mem_map.mpr ⟨p, hp, heq.symm⟩), List.nil_append,
          ih hpages.2 hp]

/-- Splitting does not fail.  Every block comes back on its page, in its place, and all that may
change of it are its lines and, for a text block, its type.  Lines only move from a block to the
text block before it, with neither a title nor an equation between them; so all lines of text,
list and index blocks, in order, are what they were, and so are those before any title or
equation. -/
theorem paraSplit_conserves {tools : TextTools} (hdetects : tools.Detects)
    (pages : List (PageInfo δ)) (hpages : (pages.map (·.pageIdx)).Nodup)
    (hplain : ∀ p ∈ pages, ∀ b ∈ p.preprocBlocks, b.type ≠ .list ∧ b.type ≠ .index)
    (hlines : ∀ p ∈ pages, ∀ b ∈ p.preprocBlocks, b.type = .text → b.lines ≠ []) :
    ∃ pages', paraSplit tools pages = .ok pages' ∧
      List.Forall₂ (fun p p' => p'.pageIdx = p.pageIdx ∧
        p'.paraBlocks.map ParaBlock.kept = p.preprocBlocks.map ParaBlock.kept) pages pages' ∧
      Moves (cells (pages.flatMap (·.preprocBlocks))) (cells (pages'.flatMap (·.paraBlocks))) ∧
      textLines (pages'.flatMap (·.paraBlocks)) = textLines (pages.flatMap (·.preprocBlocks)) ∧
      ∀ k b, (pages.flatMap (·.preprocBlocks))[k]? = some b → isBarrier b.type →
        textLines ((pages'.flatMap (·.paraBlocks)).take k) =
          textLines ((pages.flatMap (·.preprocBlocks)).take k) := by
  have hmem : ∀ b ∈ pages.flatMap PageInfo.pagedBlocks, ∃ p ∈ pages, ∃ c ∈ p.preprocBlocks,
      b = { c with page := some (p.pageIdx, p.pageSize) } := by
    intro b hb
    obtain ⟨p, hp, hb⟩ := List.mem_flatMap.mp hb
    obtain ⟨c, hc, rfl⟩ := List.mem_map.mp hb
    exact ⟨p, hp, c, hc, rfl⟩
  obtain ⟨bs, hok, hsplit⟩ := @paraMergePage_ok _ _ hdetects (pages.flatMap PageInfo.pagedBlocks)
    (fun b hb => by obtain ⟨p, hp, c, hc, rfl⟩ := hmem b hb; exact hplain p hp c hc)
    (fun b hb => by obtain ⟨p, hp, c, hc, rfl⟩ := hmem b hb; exact Option.some_ne_none _)
    (fun b hb => by obtain ⟨p, hp, c, hc, rfl⟩ := hmem b hb; exact hlines p hp c hc)
  -- before: neither the page numbers nor the boxes of the lines matter
  have hbefore : cells ((pages.flatMap PageInfo.pagedBlocks).map ParaBlock.resetBox) =
      cells (pages.flatMap (·.preprocBlocks)) := by
    have hreset : ∀ b : ParaBlock δ, b.resetBox.cell = b.cell := by
      intro b
      rw [ParaBlock.resetBox]
      split_ifs
      · rfl
      · rfl
    rw [cells_congr hreset, cells, cells, List.map_flatMap, List.map_flatMap]
    apply List.flatMap_congr
    intro p _
    rw [PageInfo.pagedBlocks, List.map_map]
    rfl
  -- after: each block is on one page
  have hframe : ∀ b : ParaBlock δ, b.frame.page = b.page := by
    intro b
    rw [ParaBlock.frame]
    split_ifs
    · rfl
    · rfl
  have hreset : ∀ b : ParaBlock δ, b.resetBox.page = b.page := by
    intro b
    rw [ParaBlock.resetBox]
    split_ifs
    · rfl
    · rfl
  have hkeys : bs.map (fun b => b.page.map Prod.fst) =
      pages.flatMap fun p => List.replicate p.preprocBlocks.length (some p.pageIdx) := by
    have hpage := congrArg (List.map fun b : ParaBlock δ => b.page.map Prod.fst) hsplit.frame
    simp only [List.map_map, Function.comp_def, hframe, hreset] at hpage
    rw [hpage, List.map_flatMap]
    apply List.flatMap_congr
    intro p _
    rw [PageInfo.pagedBlocks, List.map_map, List.eq_replicate_iff]
    simp
  have hall : (pages.flatMap fun p => bs.filter (·.onPage p.pageIdx)) = bs := by
    have hinj : (pages.map fun p => some p.pageIdx).Nodup := by
      have h := hpages.map (f := some) (Option.some_injective ℕ)
      rwa [List.map_map] at h
    simp only [onPage_eq]
    exact flatMap_filter_key hinj hkeys
  have hafter : cells ((collectPages bs pages).flatMap (·.paraBlocks)) = cells bs := by
    rw [collectPages_eq hpages, List.flatMap_map]
    dsimp only
    rw [← List.map_flatMap, hall]
    exact cells_congr (f := ParaBlock.withoutPage) (fun _ => rfl) bs
  have hmoves : Moves (cells (pages.flatMap (·.preprocBlocks)))
      (cells ((collectPages bs pages).flatMap (·.paraBlocks))) := by
    rw [← hbefore, hafter]
    exact hsplit.moves
  refine ⟨collectPages bs pages, ?_, ?_, hmoves, ?_, ?_⟩
  · rw [paraSplit, hok]
    rfl
  · rw [collectPages_eq hpages, List.forall₂_map_right_iff, List.forall₂_same]
    intro p hp
    refine ⟨rfl, ?_⟩
    have hframed := map_kept_filter (fun b => ⟨hframe b, b.kept_frame⟩) p.pageIdx bs
    rw [hsplit.frame, map_kept_filter (fun b => ⟨hframe b, b.kept_frame⟩),
      map_kept_filter (fun b => ⟨hreset b, b.kept_resetBox⟩), filter_pagedBlocks hpages hp,
      PageInfo.pagedBlocks, List.map_map] at hframed
    rw [List.map_map]
    exact hframed.symm
  · rw [← contents_cells, ← contents_cells]
    exact hmoves.contents
  · intro k b hb hbarrier
    rw [← contents_cells, ← contents_cells, cells, cells, List.map_take, List.map_take]
    apply Moves.before_barrier hmoves
    have hnot : ¬ IsText b.type := by
      simp only [isBarrier, decide_eq_true_eq] at hbarrier
      rcases hbarrier with h | h
      · simp [IsText, h]
      · simp [IsText, h]
    rw [cells, List.map_map, List.getElem?_map, hb]
    simp [ParaBlock.cell, kindOf, hnot, hbarrier]

/-- Tools that know the letters and digits of ASCII, for English texts. -/
def englishTools : TextTools where
  isdigit := Char.isDigit
  isupper := Char.isUpper
  isOther c := c.toNat < 32
  detectLanguage _ := .ok "EN"

/-- A line over the whole width. -/
def fullLine (y : ℚ) (text : String) : ParaLine where
  bbox := ⟨0, y, 100, y + 10⟩
  ordered := by norm_num
  spans := [{ type := .text, content := text.toList }]

/-- A sentence that goes on over the end of a page, and a title behind it. -/
def brokenSentence : List (PageInfo Unit) :=
  [{ pageIdx := 0
     pageSize := (100, 200)
     preprocBlocks :=
      [{ type := .text
         bbox := ⟨0, 0, 100, 40⟩
         lines := [fullLine 0 "It was", fullLine 10 "a dark", fullLine 20 "and", fullLine 30 "stormy"]
         data := () }] },
   { pageIdx := 1
     pageSize := (100, 200)
     preprocBlocks :=
      [{ type := .text, bbox := ⟨0, 0, 100, 10⟩, lines := [fullLine 0 "night."], data := () },
       { type := .title, bbox := ⟨0, 20, 100, 30⟩, lines := [fullLine 20 "Two"], data := () }] }]

theorem paraSplit_conserves_brokenSentence :
    ∃ pages', paraSplit englishTools brokenSentence = .ok pages' ∧
      List.Forall₂ (fun p p' => p'.pageIdx = p.pageIdx ∧
        p'.paraBlocks.map ParaBlock.kept = p.preprocBlocks.map ParaBlock.kept)
          brokenSentence pages' ∧
      Moves (cells (brokenSentence.flatMap (·.preprocBlocks)))
        (cells (pages'.flatMap (·.paraBlocks))) ∧
      textLines (pages'.flatMap (·.paraBlocks)) =
        textLines (brokenSentence.flatMap (·.preprocBlocks)) ∧
      ∀ k b, (brokenSentence.flatMap (·.preprocBlocks))[k]? = some b → isBarrier b.type →
        textLines ((pages'.flatMap (·.paraBlocks)).take k) =
          textLines ((brokenSentence.flatMap (·.preprocBlocks)).take k) :=
  paraSplit_conserves (fun _ _ => ⟨"EN", rfl⟩) brokenSentence (by decide)
    (by simp [brokenSentence]) (by simp [brokenSentence])

end RagflowMineru.MinerU
