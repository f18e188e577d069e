import RagflowMineru.Library.Outline
import RagflowMineru.Nlp.Bullets
import Mathlib.Data.Finset.Sort

/-!
# Chunks along a tree of headings

`Node.build_tree` makes a tree of the lines of a document by their levels, with a
stack of the nodes that are still open, and `get_tree` reads it back as one chunk
for each leaf, below the titles on the way to it.
-/

namespace RagflowMineru.Nlp

open RagflowMineru.Library

/-- `"\n".join`. -/
def joinLines (texts : List Text) : Text :=
  List.intercalate ['\n'] texts

inductive Node where
  | mk (level : ℤ) (texts : List Text) (children : List Node)

/-- A node on the stack, without the child that is above it on the stack. -/
structure Frame where
  level : ℤ
  texts : List Text
  children : List Node := []

def Frame.node (f : Frame) : Node :=
  .mk f.level f.texts f.children

def Frame.addText (f : Frame) (text : Text) : Frame :=
  { f with texts := f.texts ++ [text] }

def Frame.addChild (f : Frame) (child : Node) : Frame :=
  { f with children := f.children ++ [child] }

/-- The stack of the open nodes, each the last child of the one below it; the root stays. -/
structure Stack where
  top : Frame
  below : List Frame

def Stack.addText (st : Stack) (text : Text) : Stack :=
  { st with top := st.top.addText text }

/-- Nodes are closed until the top is one that a line of this level can stand under. -/
def popTo (level : ℤ) : Frame → List Frame → Stack
  | top, [] => ⟨top, []⟩
  | top, f :: below =>
    if level ≤ top.level then popTo level (f.addChild top.node) below else ⟨top, f :: below⟩

def Stack.push (st : Stack) (f : Frame) : Stack :=
  ⟨f, st.top :: st.below⟩

/-- The tree when all nodes have been closed. -/
def closeAll : Frame → List Frame → Node
  | top, [] => top.node
  | top, f :: below => closeAll (f.addChild top.node) below

def addLine (depth : ℤ) (st : Stack) (line : ℤ × Text) : Stack :=
  if depth ≠ -1 ∧ depth < line.1 then st.addText line.2
  else (popTo line.1 st.top st.below).push ⟨line.1, [line.2], []⟩

/-- `Node(level=0, depth=depth, texts=[]).build_tree(lines)`. -/
def buildTree (depth : ℤ) (lines : List (ℤ × Text)) : Node :=
  let st := lines.foldl (addLine depth) ⟨⟨0, [], []⟩, []⟩
  closeAll st.top st.below

mutual

/-- `_dfs`, with the chunks that it appends to the list. -/
def dfs (depth : ℤ) (titles : List Text) : Node → List Text
  | .mk level texts children =>
    let pathTitles := if 1 ≤ level ∧ level ≤ depth then titles ++ texts else titles
    (if level = 0 ∧ texts ≠ [] then [joinLines (titles ++ texts)] else []) ++
      (if depth < level ∧ texts ≠ [] then [joinLines (pathTitles ++ texts)]
        else if children.isEmpty ∧ 1 ≤ level ∧ level ≤ depth then [joinLines pathTitles]
        else []) ++
      dfsAll depth pathTitles children

def dfsAll (depth : ℤ) (titles : List Text) : List Node → List Text
  | [] => []
  | c :: rest => dfs depth titles c ++ dfsAll depth titles rest

end

/-- `get_tree`, of the root. -/
def getTree (depth : ℤ) (root : Node) : List Text :=
  dfs depth [] root

/-! ## What the tree says of the lines -/

/-- A title and the lines below it that are no titles. -/
structure Section where
  level : ℤ
  texts : List Text

/-- The lines before the first title, and the titles with the lines that follow them. -/
def splitSections (depth : ℤ) : List (ℤ × Text) → List Text × List Section
  | [] => ([], [])
  | (level, text) :: rest =>
    let (body, sections) := splitSections depth rest
    if level ≤ depth then ([], ⟨level, text :: body⟩ :: sections) else (text :: body, sections)

/-- The texts of a path of titles, each with the lines that follow it. -/
def pathText (path : List Section) : Text :=
  joinLines (path.flatMap Section.texts)

/-- The chunks of an outline: the lines before the first title, then one for each leaf. -/
def outlineChunks (pre : List Text) (sections : List Section) : List Text :=
  (if pre = [] then [] else [joinLines pre]) ++
    (Outline.paths Section.level sections).map pathText

/-- A section that is deeper than the last one goes on with the last chunk. -/
theorem outlineChunks_concat (pre : List Text) (sections : List Section) (s : Section) :
    outlineChunks pre (sections ++ [s]) =
      (if ∃ last, sections.getLast? = some last ∧ last.level < s.level then
        (outlineChunks pre sections).dropLast else outlineChunks pre sections) ++
        [pathText (Outline.chain Section.level (sections ++ [s]))] := by
  rcases sections.eq_nil_or_concat with rfl | ⟨init, last, rfl⟩
  · have hpaths : Outline.paths Section.level ([] : List Section) = [] := rfl
    rw [if_neg (by simp), outlineChunks, outlineChunks, List.nil_append, Outline.paths_singleton,
      hpaths]
    simp [Outline.chain]
  · rw [List.concat_eq_append, outlineChunks, outlineChunks, Outline.paths_concat_concat,
      List.map_append, ← List.append_assoc]
    congr 1
    have hne : (Outline.paths Section.level (init ++ [last])).map pathText ≠ [] := by
      rw [Outline.paths_concat_eq]
      simp
    by_cases hlt : last.level < s.level
    · have hlast : ∃ a, (init ++ [last]).getLast? = some a ∧ a.level < s.level :=
        ⟨last, by simp, hlt⟩
      rw [if_pos hlt, if_pos hlast, List.dropLast_append_of_ne_nil hne, List.map_dropLast]
    · have hlast : ¬ ∃ a, (init ++ [last]).getLast? = some a ∧ a.level < s.level := by
        simpa using hlt
      rw [if_neg hlt, if_neg hlast]

theorem dfsAll_append (depth : ℤ) (titles : List Text) (a b : List Node) :
    dfsAll depth titles (a ++ b) = dfsAll depth titles a ++ dfsAll depth titles b := by
  induction a with
  | nil => rfl
  | cons c a ih => rw [List.cons_append, dfsAll, dfsAll, ih, List.append_assoc]

def Section.frame (s : Section) : Frame :=
  ⟨s.level, s.texts, []⟩

/-- The titles that stand above the top of a stack. -/
def titlesOf (depth : ℤ) : List Frame → List Text
  | [] => []
  | f :: below => titlesOf depth below ++ if 1 ≤ f.level ∧ f.level ≤ depth then f.texts else []

/-- What the frames below the top of a stack give. -/
def emitted (depth : ℤ) : List Frame → List Text
  | [] => []
  | f :: below => emitted depth below ++
    ((if f.level = 0 ∧ f.texts ≠ [] then [joinLines (titlesOf depth below ++ f.texts)] else []) ++
      dfsAll depth (titlesOf depth (f :: below)) f.children)

/-- What a stack gives once it has been closed. -/
def Stack.chunks (depth : ℤ) (st : Stack) : List Text :=
  emitted depth st.below ++ dfs depth (titlesOf depth st.below) st.top.node

/-! ## Closing -/

section Closing

variable {depth : ℤ} {top f : Frame} {below : List Frame}

/-- A node that is not below the depth and has children gives what they give. -/
theorem dfs_of_children {titles : List Text} (hf : f.level ≤ depth) (hchildren : f.children ≠ []) :
    dfs depth titles f.node =
      (if f.level = 0 ∧ f.texts ≠ [] then [joinLines (titles ++ f.texts)] else []) ++
        dfsAll depth (titles ++ if 1 ≤ f.level ∧ f.level ≤ depth then f.texts else [])
          f.children := by
  have hpath : (if 1 ≤ f.level ∧ f.level ≤ depth then titles ++ f.texts else titles) =
      titles ++ if 1 ≤ f.level ∧ f.level ≤ depth then f.texts else [] := by
    split_ifs
    · rfl
    · rw [List.append_nil]
  simp only [Frame.node, dfs, hpath]
  rw [if_neg (show ¬ (depth < f.level ∧ f.texts ≠ []) from fun h => absurd h.1 (not_lt.mpr hf)),
    if_neg (show ¬ (f.children.isEmpty ∧ 1 ≤ f.level ∧ f.level ≤ depth) by simp [hchildren]),
    List.append_nil]

/-- A title that nothing stands under gives its path. -/
theorem dfs_of_leaf {titles : List Text} (hpos : 1 ≤ f.level) (hf : f.level ≤ depth)
    (hchildren : f.children = []) :
    dfs depth titles f.node = [joinLines (titles ++ f.texts)] := by
  have hroot : ¬ (f.level = 0 ∧ f.texts ≠ []) := fun h => by omega
  have hdeep : ¬ (depth < f.level ∧ f.texts ≠ []) := fun h => absurd h.1 (not_lt.mpr hf)
  simp [Frame.node, dfs, hroot, hdeep, hpos, hf, hchildren, dfsAll]

/-- Closing a node that something stands above does not change what the stack gives. -/
theorem chunks_close (hf : f.level ≤ depth) :
    Stack.chunks depth ⟨f.addChild top.node, below⟩ = Stack.chunks depth ⟨top, f :: below⟩ := by
  have hadd : (f.addChild top.node).level ≤ depth := hf
  rw [Stack.chunks, dfs_of_children hadd (by simp [Frame.addChild])]
  simp only [Frame.addChild, dfsAll_append, Stack.chunks, emitted, titlesOf, dfsAll,
    List.append_nil, List.append_assoc]
  rfl

theorem dfs_closeAll (hbelow : ∀ f ∈ below, f.level ≤ depth) :
    dfs depth [] (closeAll top below) = Stack.chunks depth ⟨top, below⟩ := by
  induction below generalizing top with
  | nil => simp [closeAll, Stack.chunks, emitted, titlesOf]
  | cons f below ih =>
    rw [closeAll, ih fun g hg => hbelow g (List.mem_cons_of_mem f hg),
      chunks_close (hbelow f List.mem_cons_self)]

theorem chunks_popTo (level : ℤ) (hbelow : ∀ f ∈ below, f.level ≤ depth) :
    (popTo level top below).chunks depth = Stack.chunks depth ⟨top, below⟩ := by
  induction below generalizing top with
  | nil => rfl
  | cons f below ih =>
    rw [popTo]
    split_ifs
    · rw [ih fun g hg => hbelow g (List.mem_cons_of_mem f hg),
        chunks_close (hbelow f List.mem_cons_self)]
    · rfl

end Closing

/-! ## The sections on the stack -/

def Frame.section (f : Frame) : Section :=
  ⟨f.level, f.texts⟩

def Stack.frames (st : Stack) : List Frame :=
  st.top :: st.below

/-- Where levels decrease down the stack, what is left are the frames with smaller levels. -/
theorem sections_popTo {level : ℤ} {top : Frame} {below : List Frame}
    (hsorted : (top :: below).Pairwise (·.level > ·.level))
    (hroot : ∀ f ∈ (top :: below).getLast?, f.level < level) :
    (popTo level top below).frames.map Frame.section =
      ((top :: below).map Frame.section).filter (·.level < level) := by
  induction below generalizing top with
  | nil =>
    have htop : top.level < level := hroot top rfl
    simp [popTo, Stack.frames, Frame.section, htop]
  | cons f below ih =>
    obtain ⟨htop, hbelow⟩ := List.pairwise_cons.mp hsorted
    rw [popTo]
    split_ifs with hle
    · rw [ih]
      · simp [Frame.section, Frame.addChild, hle]
      · exact List.pairwise_cons.mpr (List.pairwise_cons.mp hbelow)
      · intro g hg
        rcases below with _ | ⟨g', below⟩
        · obtain rfl : f.addChild top.node = g := by simpa using hg
          exact hroot f (by simp)
        · exact hroot g (by simpa using hg)
    · have hall : ∀ s ∈ (top :: f :: below).map Frame.section, s.level < level := by
        intro s hs
        obtain ⟨g, hg, rfl⟩ := List.mem_map.mp hs
        rcases List.mem_cons.mp hg with rfl | hg
        · exact not_le.mp hle
        · exact (htop g hg).trans (not_le.mp hle)
      rw [List.filter_eq_self.mpr (by simpa using hall)]
      rfl

/-- A node that is closed has the ones above it as children, and the top stays as it is if it is
not closed. -/
theorem top_popTo (level : ℤ) (top : Frame) (below : List Frame) :
    (below ≠ [] → level ≤ top.level → (popTo level top below).top.children ≠ []) ∧
      (below = [] ∨ top.level < level → popTo level top below = ⟨top, below⟩) := by
  constructor
  · intro hbelow hle
    induction below generalizing top with
    | nil => exact absurd rfl hbelow
    | cons f below ih =>
      rw [popTo, if_pos hle]
      rcases below with _ | ⟨g, below⟩
      · simp [popTo, Frame.addChild]
      · by_cases hf : level ≤ f.level
        · exact ih (f.addChild top.node) (by simp) hf
        · rw [popTo, if_neg (by simpa [Frame.addChild] using hf)]
          simp [Frame.addChild]
  · intro h
    rcases below with _ | ⟨f, below⟩
    · rfl
    · have hlt := h.resolve_left (by simp)
      rw [popTo, if_neg (not_le.mpr hlt)]

theorem level_popTo {level : ℤ} {top f : Frame} {below : List Frame}
    (hf : f ∈ (popTo level top below).frames) : ∃ g ∈ top :: below, g.level = f.level := by
  induction below generalizing top with
  | nil => exact ⟨f, hf, rfl⟩
  | cons a below ih =>
    rw [popTo] at hf
    split_ifs at hf
    · obtain ⟨g, hg, hlevel⟩ := ih hf
      rcases List.mem_cons.mp hg with rfl | hg
      · exact ⟨a, by simp, hlevel⟩
      · exact ⟨g, by simp [hg], hlevel⟩
    · exact ⟨f, hf, rfl⟩

/-- The titles on a stack whose root has level zero. -/
theorem titlesOf_eq {depth : ℤ} {pre : List Text} {path : List Section} {fs : List Frame}
    (hfs : (fs.map Frame.section).reverse = ⟨0, pre⟩ :: path)
    (hpath : ∀ s ∈ path, 1 ≤ s.level ∧ s.level ≤ depth) :
    titlesOf depth fs = path.flatMap Section.texts := by
  have key : ∀ fs : List Frame, titlesOf depth fs = (fs.map Frame.section).reverse.flatMap
      fun s => if 1 ≤ s.level ∧ s.level ≤ depth then s.texts else [] := by
    intro fs
    induction fs with
    | nil => rfl
    | cons f fs ih =>
      rw [titlesOf, ih, List.map_cons, List.reverse_cons, List.flatMap_append]
      simp [Frame.section]
  rw [key, hfs, List.flatMap_cons, if_neg (by simp), List.nil_append]
  apply List.flatMap_congr
  intro s hs
  rw [if_pos (hpath s hs)]

/-- A section is put on the stack. -/
def Stack.pushSection (st : Stack) (s : Section) : Stack :=
  (popTo s.level st.top st.below).push ⟨s.level, s.texts, []⟩

/-- The stack after some sections: the root with the lines before them, and on it the path of the
last section; and what it gives is the outline. -/
structure Reads (depth : ℤ) (pre : List Text) (sections : List Section) (st : Stack) : Prop where
  frames : (st.frames.map Frame.section).reverse = ⟨0, pre⟩ :: Outline.chain Section.level sections
  leaf : st.top.children = []
  chunks : st.chunks depth = outlineChunks pre sections

section Push

variable {depth : ℤ} {pre : List Text} {sections : List Section} {st : Stack}

theorem reads_root (hdepth : 1 ≤ depth) : Reads depth pre [] ⟨⟨0, pre, []⟩, []⟩ where
  frames := rfl
  leaf := rfl
  chunks := by
    have hdeep : ¬ (depth < 0) := by omega
    by_cases hpre : pre = []
    · simp [Stack.chunks, emitted, titlesOf, Frame.node, dfs, dfsAll, outlineChunks,
        Outline.paths, Outline.leaves, hpre]
    · simp [Stack.chunks, emitted, titlesOf, Frame.node, dfs, dfsAll, outlineChunks,
        Outline.paths, Outline.leaves, hdeep, hpre]

variable (hdepth : 1 ≤ depth) (hlevels : ∀ s ∈ sections, 1 ≤ s.level ∧ s.level ≤ depth)

include hlevels in
theorem Reads.sorted (h : Reads depth pre sections st) :
    st.frames.Pairwise (·.level > ·.level) := by
  have hchain : (Outline.chain Section.level sections).Pairwise _ := Outline.chain_pairwise _
  have hall : (⟨0, pre⟩ :: Outline.chain Section.level sections).Pairwise
      (·.level < ·.level) := by
    refine List.pairwise_cons.mpr ⟨fun s hs => ?_, hchain⟩
    have := (hlevels s (Outline.mem_of_mem_chain hs)).1
    show 0 < s.level
    omega
  rw [← h.frames, List.pairwise_reverse, List.pairwise_map] at hall
  exact hall

include hdepth hlevels in
theorem Reads.level_le (h : Reads depth pre sections st) : ∀ f ∈ st.frames, f.level ≤ depth := by
  intro f hf
  have hmem : f.section ∈ (⟨0, pre⟩ : Section) :: Outline.chain Section.level sections := by
    rw [← h.frames, List.mem_reverse]
    exact List.mem_map_of_mem hf
  rcases List.mem_cons.mp hmem with heq | hmem
  · have : f.level = 0 := congrArg Section.level heq
    omega
  · exact (hlevels _ (Outline.mem_of_mem_chain hmem)).2

/-- The top of the stack is the last section. -/
theorem Reads.top_section {last : Section} (h : Reads depth pre (sections ++ [last]) st) :
    st.top.section = last ∧ st.below ≠ [] := by
  have hframes := h.frames
  rw [Outline.chain_concat, Stack.frames, List.map_cons, List.reverse_cons,
    ← List.cons_append] at hframes
  obtain ⟨hbelow, htop⟩ := List.append_inj' hframes rfl
  refine ⟨List.singleton_inj.mp htop, ?_⟩
  rintro hnil
  rw [hnil] at hbelow
  simp at hbelow

/-- Below no section there is the root only. -/
theorem Reads.below_nil (h : Reads depth pre [] st) :
    st.below = [] ∧ st.top.section = ⟨0, pre⟩ := by
  have hframes := congrArg List.reverse h.frames
  rw [List.reverse_reverse, Stack.frames, List.map_cons] at hframes
  obtain ⟨htop, hbelow⟩ := List.cons.inj hframes
  exact ⟨List.map_eq_nil_iff.mp hbelow, htop⟩

include hdepth hlevels in
/-- What stands below the next section on the stack. -/
theorem Reads.emitted_popTo (h : Reads depth pre sections st) (s : Section) :
    emitted depth (popTo s.level st.top st.below).frames =
      if ∃ last, sections.getLast? = some last ∧ last.level < s.level then
        (st.chunks depth).dropLast
      else st.chunks depth := by
  have hbelow : ∀ f ∈ st.below, f.level ≤ depth := fun f hf =>
    h.level_le hdepth hlevels f (List.mem_cons_of_mem _ hf)
  have htop := h.level_le hdepth hlevels st.top List.mem_cons_self
  rcases sections.eq_nil_or_concat with rfl | ⟨init, last, rfl⟩
  · obtain ⟨hnil, hroot⟩ := h.below_nil
    have hlevel : st.top.level = 0 := congrArg Section.level hroot
    have hdeep : ¬ (depth < 0) := by omega
    rw [(top_popTo s.level st.top st.below).2 (Or.inl hnil), if_neg (by simp)]
    simp [Stack.frames, Stack.chunks, emitted, hnil, titlesOf, Frame.node, dfs, dfsAll, h.leaf,
      hlevel, hdeep]
  · rw [List.concat_eq_append] at h hlevels ⊢
    obtain ⟨hlast, hne⟩ := h.top_section
    have hlevel : st.top.level = last.level := congrArg Section.level hlast
    have hpos := (hlevels last (by simp)).1
    by_cases hlt : last.level < s.level
    · rw [(top_popTo s.level st.top st.below).2 (Or.inr (by omega)),
        if_pos ⟨last, by simp, hlt⟩, Stack.chunks,
        dfs_of_leaf (by omega) htop h.leaf, List.dropLast_concat]
      have hroot : ¬ (st.top.level = 0 ∧ st.top.texts ≠ []) := fun h => by omega
      simp [Stack.frames, emitted, h.leaf, dfsAll, hroot]
    · have hchildren := (top_popTo s.level st.top st.below).1 hne (by omega)
      have hpopped : (popTo s.level st.top st.below).top.level ≤ depth := by
        obtain ⟨g, hg, hlevel⟩ := level_popTo (f := (popTo s.level st.top st.below).top)
          (List.mem_cons_self)
        rw [← hlevel]
        exact h.level_le hdepth hlevels g hg
      rw [if_neg (by simpa using hlt)]
      refine Eq.trans ?_ (chunks_popTo s.level hbelow)
      rw [Stack.chunks, dfs_of_children hpopped hchildren]
      rfl

include hdepth hlevels in
/-- The next section goes on with the outline. -/
theorem Reads.pushSection (h : Reads depth pre sections st) {s : Section} (hs : 1 ≤ s.level)
    (hs' : s.level ≤ depth) : Reads depth pre (sections ++ [s]) (st.pushSection s) := by
  have hroot : ∀ f ∈ (st.top :: st.below).getLast?, f.level < s.level := by
    intro f hf
    have hlast := congrArg List.head? h.frames
    rw [List.head?_reverse, List.getLast?_map, Stack.frames, hf] at hlast
    have : f.level = 0 := congrArg Section.level (Option.some.inj hlast)
    omega
  have hpopped := sections_popTo (h.sorted hlevels) hroot
  have hpath : ((popTo s.level st.top st.below).frames.map Frame.section).reverse =
      ⟨0, pre⟩ :: (Outline.chain Section.level sections).filter (·.level < s.level) := by
    rw [hpopped, ← List.filter_reverse]
    have hframes := h.frames
    rw [Stack.frames] at hframes
    rw [hframes, List.filter_cons_of_pos (by simp; omega)]
  refine ⟨?_, rfl, ?_⟩
  · rw [Outline.chain_concat, ← List.cons_append, ← hpath]
    simp only [Stack.pushSection, Stack.push, Stack.frames, List.map_cons, List.reverse_cons]
    rfl
  · have htitles := titlesOf_eq hpath fun s hs =>
      hlevels s (Outline.mem_of_mem_chain (List.mem_of_mem_filter hs))
    have hnew : (st.pushSection s).chunks depth =
        emitted depth (popTo s.level st.top st.below).frames ++
          [pathText (Outline.chain Section.level (sections ++ [s]))] := by
      rw [Outline.chain_concat, pathText, List.flatMap_append, ← htitles]
      have hleaf : dfs depth (titlesOf depth (popTo s.level st.top st.below).frames)
          (Frame.node ⟨s.level, s.texts, []⟩) = _ := dfs_of_leaf hs hs' rfl
      rw [Stack.chunks]
      simp only [Stack.pushSection, Stack.push]
      rw [List.flatMap_singleton]
      exact congrArg _ hleaf
    rw [hnew, h.emitted_popTo hdepth hlevels, h.chunks, outlineChunks_concat]

end Push

/-! ## The tree of the lines -/

section Tree

variable {depth : ℤ} {lines : List (ℤ × Text)}

/-- Lines are put on the stack section by section. -/
theorem foldl_addLine (hdepth : depth ≠ -1) (lines : List (ℤ × Text)) (st : Stack) :
    lines.foldl (addLine depth) st =
      (splitSections depth lines).2.foldl Stack.pushSection
        ⟨{ st.top with texts := st.top.texts ++ (splitSections depth lines).1 }, st.below⟩ := by
  induction lines generalizing st with
  | nil => simp [splitSections]
  | cons line lines ih =>
    obtain ⟨level, text⟩ := line
    rw [List.foldl_cons, ih]
    by_cases hlevel : level ≤ depth
    · rw [addLine, if_neg (by simp [hlevel])]
      simp [splitSections, hlevel, Stack.pushSection, Stack.push]
    · rw [addLine, if_pos ⟨hdepth, not_le.mp hlevel⟩]
      simp [splitSections, hlevel, Stack.addText, Frame.addText]

theorem level_of_mem_splitSections (hlines : ∀ line ∈ lines, 1 ≤ line.1) :
    ∀ s ∈ (splitSections depth lines).2, 1 ≤ s.level ∧ s.level ≤ depth := by
  induction lines with
  | nil => simp [splitSections]
  | cons line lines ih =>
    obtain ⟨level, text⟩ := line
    obtain ⟨hline, hlines⟩ := List.forall_mem_cons.mp hlines
    simp only [splitSections]
    split_ifs with hlevel
    · exact List.forall_mem_cons.mpr ⟨⟨hline, hlevel⟩, ih hlines⟩
    · exact ih hlines

/-- The sections hold all texts in order. -/
theorem splitSections_texts (depth : ℤ) (lines : List (ℤ × Text)) :
    (splitSections depth lines).1 ++ (splitSections depth lines).2.flatMap Section.texts =
      lines.map Prod.snd := by
  induction lines with
  | nil => rfl
  | cons line lines ih =>
    obtain ⟨level, text⟩ := line
    simp only [splitSections]
    split_ifs
    · simp [← ih]
    · simp [← ih]

theorem reads_foldl (hdepth : 1 ≤ depth) {pre : List Text} (rest sections : List Section)
    (hrest : ∀ s ∈ sections ++ rest, 1 ≤ s.level ∧ s.level ≤ depth) {st : Stack}
    (h : Reads depth pre sections st) :
    Reads depth pre (sections ++ rest) (rest.foldl Stack.pushSection st) := by
  induction rest generalizing sections st with
  | nil => simpa using h
  | cons s rest ih =>
    have hs := hrest s (by simp)
    have hsections : ∀ t ∈ sections, 1 ≤ t.level ∧ t.level ≤ depth := fun t ht =>
      hrest t (by simp [ht])
    have hnext := h.pushSection hdepth hsections hs.1 hs.2
    rw [List.foldl_cons, List.append_cons]
    exact ih (sections ++ [s]) (by simpa using hrest) hnext

/-- The tree is read back as the outline of the lines. -/
theorem getTree_buildTree_eq (hdepth : 1 ≤ depth) (hlines : ∀ line ∈ lines, 1 ≤ line.1) :
    getTree depth (buildTree depth lines) =
      outlineChunks (splitSections depth lines).1 (splitSections depth lines).2 := by
  have hlevels : ∀ s ∈ (splitSections depth lines).2, _ := level_of_mem_splitSections hlines
  have hstart : Reads depth (splitSections depth lines).1 [] _ := reads_root hdepth
  have hreads := reads_foldl hdepth (splitSections depth lines).2 [] hlevels hstart
  have hshallow := hreads.level_le hdepth hlevels
  have hroot : lines.foldl (addLine depth) ⟨⟨0, [], []⟩, []⟩ =
      (splitSections depth lines).2.foldl Stack.pushSection
        ⟨⟨0, (splitSections depth lines).1, []⟩, []⟩ :=
    foldl_addLine (by omega) lines _
  rw [getTree, buildTree, hroot]
  refine (dfs_closeAll fun f hf => hshallow f (List.mem_cons_of_mem _ hf)).trans ?_
  exact hreads.chunks

theorem infix_joinLines {text : Text} {texts : List Text} (h : text ∈ texts) :
    text <:+: joinLines texts := by
  induction texts with
  | nil => simp at h
  | cons t texts ih =>
    rcases texts with _ | ⟨u, texts⟩
    · obtain rfl := List.mem_singleton.mp h
      simp [joinLines]
    · have hjoin : joinLines (t :: u :: texts) = t ++ (['\n'] ++ joinLines (u :: texts)) := by
        simp [joinLines, List.intercalate]
      rw [hjoin]
      rcases List.mem_cons.mp h with rfl | h
      · exact (List.prefix_append _ _).isInfix
      · exact ((ih h).trans (List.suffix_append _ _).isInfix).trans
          (List.suffix_append _ _).isInfix

/-- The tree of the lines gives one chunk for the lines before the first title, if there are any,
and then one for each title that no title stands under, in the order of the lines.  Such a chunk
joins the texts of the titles on the path that ends there, with the lines that follow each of
them; levels increase along the path.  No line is lost. -/
theorem getTree_buildTree (hdepth : 1 ≤ depth) (hlines : ∀ line ∈ lines, 1 ≤ line.1) :
    let pre := (splitSections depth lines).1
    let sections := (splitSections depth lines).2
    let leaves := Outline.leaves Section.level sections
    let path := fun i => Outline.chain Section.level (sections.take (i + 1))
    getTree depth (buildTree depth lines) =
        (if pre = [] then [] else [joinLines pre]) ++ leaves.map (fun i => pathText (path i)) ∧
      leaves.Pairwise (· < ·) ∧
      (∀ i ∈ leaves, (path i).getLast? = sections[i]? ∧
        (path i).Pairwise (·.level < ·.level)) ∧
      pre ++ sections.flatMap Section.texts = lines.map Prod.snd ∧
      ∀ line ∈ lines, ∃ chunk ∈ getTree depth (buildTree depth lines), line.2 <:+: chunk := by
  intro pre sections leaves path
  have hchunks := getTree_buildTree_eq hdepth hlines
  have htexts := splitSections_texts depth lines
  refine ⟨?_, ?_, ?_, htexts, ?_⟩
  · rw [hchunks, outlineChunks, Outline.paths, List.map_map]
    rfl
  · exact List.Pairwise.filter _ List.pairwise_lt_range
  · intro i hi
    have hlt : i < sections.length := List.mem_range.mp (List.mem_filter.mp hi).1
    refine ⟨?_, Outline.chain_pairwise _⟩
    simp only [path]
    rw [← List.take_append_getElem hlt, Outline.chain_concat, List.getLast?_concat,
      List.getElem?_eq_getElem hlt]
  · intro line hline
    rw [hchunks]
    have hmem : line.2 ∈ pre ++ sections.flatMap Section.texts := by
      rw [htexts]
      exact List.mem_map_of_mem hline
    rcases List.mem_append.mp hmem with hpre | hsection
    · refine ⟨joinLines pre, ?_, infix_joinLines hpre⟩
      rw [outlineChunks, if_neg (List.ne_nil_of_mem hpre)]
      exact List.mem_append_left _ (List.mem_singleton.mpr rfl)
    · obtain ⟨s, hs, htext⟩ := List.mem_flatMap.mp hsection
      obtain ⟨p, hp, hsp⟩ := Outline.exists_path Section.level hs
      refine ⟨pathText p, List.mem_append_right _ (List.mem_map_of_mem hp), ?_⟩
      exact infix_joinLines (List.mem_flatMap.mpr ⟨s, hsp, htext⟩)

end Tree

/-- A title below a title, with text before the first one. -/
theorem getTree_buildTree_titles :
    getTree 2 (buildTree 2 [(3, ['p']), (1, ['a']), (2, ['b']), (3, ['c']), (1, ['d'])]) =
      [['p'], "a\nb\nc".toList, ['d']] := by
  have h := (@getTree_buildTree 2 [(3, ['p']), (1, ['a']), (2, ['b']), (3, ['c']), (1, ['d'])]
    (by decide) (by decide)).1
  rw [h]
  decide

/-! ## Merging the sections of a document -/

/-- `sections`, with or without layouts. -/
inductive Sections where
  | strings (l : List Text)
  | tuples (l : List (Text × Text))

/-- Sections without a layout get an empty one. -/
def Sections.toTuples : Sections → List (Text × Text)
  | .strings l => l.map fun s => (s, [])
  | .tuples l => l

/-- Indexing of a Python list; `none` is the exception. -/
def pyGet {α : Type*} (l : List α) (i : ℤ) : Option α :=
  if 0 ≤ i then l[i.toNat]? else if 0 ≤ i + l.length then l[(i + l.length).toNat]? else none

/-- Levels start from one. -/
def getLevel (patterns : List Pattern) (sec : Text × Text) : ℤ × Text :=
  let text := strip (sec.1.map fun c => if c = '\u3000' then ' ' else c)
  (levelBy patterns text text sec.2 + 1, text)

/-- The lines that have a level. -/
def levelLines (patterns : List Pattern) (sections : List (Text × Text)) : List (ℤ × Text) :=
  (sections.map (getLevel patterns)).filter fun line => !line.2.all (· = '\n')

/-- The `depth`-th level, or the last one. -/
def levelAt (sortedLevels : List ℤ) (depth : ℤ) : Option ℤ :=
  if depth ≤ sortedLevels.length then pyGet sortedLevels (depth - 1) else pyGet sortedLevels (-1)

/-- The level to which the tree goes: that of plain lines only if there is no other one. -/
def targetLevel (size : ℕ) (sortedLevels : List ℤ) (depth : ℤ) : Option ℤ :=
  (levelAt sortedLevels depth).bind fun target =>
    if target = size + 2 then
      if 1 < sortedLevels.length then pyGet sortedLevels (-2) else pyGet sortedLevels 0
    else some target

/-- The lines of the sections that are kept; the patterns are looked up for each of them. -/
def linesOf (bull : ℤ) (kept : List (Text × Text)) : Option (List (ℤ × Text)) :=
  if kept = [] then some []
  else (pyGet bulletPattern bull).map fun patterns => levelLines patterns kept

/-- The sections as they were, or the chunks. -/
inductive Merged where
  | unchanged (sections : Sections)
  | chunks (l : List Text)

/-- `none` is an exception. -/
def treeMerge (bull : ℤ) (sections : Sections) (depth : ℤ) : Option Merged :=
  if sections.toTuples = [] ∨ bull < 0 then some (.unchanged sections)
  else (linesOf bull (sections.toTuples.filter keepSection)).bind fun lines =>
    let sortedLevels := (lines.map Prod.fst).toFinset.sort (· ≤ ·)
    let size := ((pyGet bulletPattern bull).map List.length).getD 0
    (targetLevel size sortedLevels depth).map fun target =>
      .chunks ((getTree target (buildTree target lines)).filter (· ≠ []))

section Raises

theorem pyGet_isSome {α : Type*} {l : List α} {i : ℤ} :
    (pyGet l i).isSome ↔ -(l.length : ℤ) ≤ i ∧ i < l.length := by
  rw [pyGet]
  split_ifs <;> simp <;> omega

/-- A section that is kept has a line. -/
theorem levelLine_of_keepSection (patterns : List Pattern) {sec : Text × Text}
    (h : keepSection sec) : ¬ (getLevel patterns sec).2.all (· = '\n') := by
  have hlong : 1 < (beforeTag sec.1).length := by
    rw [keepSection, Bool.and_eq_true] at h
    exact of_decide_eq_true h.1
  have hne : beforeTag sec.1 ≠ [] := List.ne_nil_of_length_pos (by omega)
  obtain ⟨c, hc, hspace⟩ := strip_ne_nil_iff.mp hne
  have hmem : c ∈ sec.1 := (List.takeWhile_sublist _).mem hc
  have hwide : c ≠ '\u3000' := by
    rintro rfl
    exact hspace (by decide)
  have hline : c ∈ (getLevel patterns sec).2 :=
    mem_strip (List.mem_map.mpr ⟨c, hmem, if_neg hwide⟩) hspace
  intro hall
  have hnewline := of_decide_eq_true (List.all_eq_true.mp hall c hline)
  subst hnewline
  exact hspace (by decide)

/-- There is a level to go to if there is a level. -/
theorem targetLevel_isSome {size : ℕ} {sortedLevels : List ℤ} {depth : ℤ} (hdepth : 1 ≤ depth) :
    (targetLevel size sortedLevels depth).isSome ↔ sortedLevels ≠ [] := by
  constructor
  · rintro h rfl
    have hdeep : ¬ depth ≤ 0 := by omega
    simp [targetLevel, levelAt, hdeep, pyGet] at h
  · intro hne
    have hpos := List.length_pos_of_ne_nil hne
    have hfirst : (levelAt sortedLevels depth).isSome := by
      rw [levelAt]
      split_ifs
      · exact pyGet_isSome.mpr ⟨by omega, by omega⟩
      · exact pyGet_isSome.mpr ⟨by omega, by omega⟩
    obtain ⟨target, htarget⟩ := Option.isSome_iff_exists.mp hfirst
    rw [targetLevel, htarget, Option.bind_some]
    split_ifs
    · exact pyGet_isSome.mpr ⟨by omega, by omega⟩
    · exact pyGet_isSome.mpr ⟨by omega, by omega⟩
    · rfl

/-- The merge returns exactly if there are patterns for the category and a section is kept. -/
theorem treeMerge_isSome_iff {bull depth : ℤ} {sections : Sections} (hbull : 0 ≤ bull)
    (hsections : sections.toTuples ≠ []) (hdepth : 1 ≤ depth) :
    (treeMerge bull sections depth).isSome ↔
      bull < bulletPattern.length ∧ ∃ sec ∈ sections.toTuples, keepSection sec := by
  have hgo : ¬ (sections.toTuples = [] ∨ bull < 0) := by
    rintro (h | h)
    · exact hsections h
    · omega
  rw [treeMerge, if_neg hgo]
  by_cases hkept : sections.toTuples.filter keepSection = []
  · -- without a line there is no level
    have hnone : ¬ ∃ sec ∈ sections.toTuples, keepSection sec := by
      rintro ⟨sec, hsec, hkeep⟩
      exact List.filter_eq_nil_iff.mp hkept sec hsec hkeep
    have hlevel : (targetLevel (((pyGet bulletPattern bull).map List.length).getD 0) []
        depth).isSome ↔ _ := targetLevel_isSome hdepth
    refine iff_of_false ?_ fun h => hnone h.2
    rw [linesOf, if_pos hkept, Option.bind_some]
    simpa using hlevel
  · obtain ⟨sec, hsec⟩ := List.exists_mem_of_ne_nil _ hkept
    obtain ⟨hmem, hkeep⟩ := List.mem_filter.mp hsec
    have hsome : ∃ sec ∈ sections.toTuples, keepSection sec := ⟨sec, hmem, hkeep⟩
    rw [linesOf, if_neg hkept]
    rcases hpatterns : pyGet bulletPattern bull with _ | patterns
    · have hout := pyGet_isSome.not.mp (by rw [hpatterns]; simp)
      simp only [Option.map_none, Option.bind_none, Option.isSome_none, Bool.false_eq_true,
        false_iff]
      rintro ⟨hlt, -⟩
      exact hout ⟨by omega, hlt⟩
    · have hin := pyGet_isSome.mp (by rw [hpatterns]; rfl : (pyGet bulletPattern bull).isSome)
      have hline : getLevel patterns sec ∈
          levelLines patterns (sections.toTuples.filter keepSection) :=
        List.mem_filter.mpr ⟨List.mem_map_of_mem hsec, by
          simpa using levelLine_of_keepSection patterns hkeep⟩
      refine iff_of_true ?_ ⟨hin.2, hsome⟩
      rw [Option.map_some, Option.bind_some, Option.isSome_map]
      apply (targetLevel_isSome hdepth).mpr
      intro hnil
      have hlevel : (getLevel patterns sec).1 ∈ ((levelLines patterns
          (sections.toTuples.filter keepSection)).map Prod.fst).toFinset.sort (· ≤ ·) := by
        rw [Finset.mem_sort, List.mem_toFinset]
        exact List.mem_map_of_mem hline
      rw [hnil] at hlevel
      simp at hlevel

theorem treeMerge_isSome_title :
    (treeMerge 0 (.strings ["第一章".toList]) 1).isSome :=
  (treeMerge_isSome_iff (by decide) (by decide) (by decide)).mpr
    ⟨by decide, _, List.mem_singleton.mpr rfl, by decide⟩

/-- A document of which only page numbers are left. -/
theorem not_treeMerge_isSome :
    ¬ ∀ (bull : ℤ) (sections : Sections) (depth : ℤ), 0 ≤ bull → sections.toTuples ≠ [] →
      1 ≤ depth → (treeMerge bull sections depth).isSome := by
  intro h
  have hpage := h 0 (.strings [['1', '2']]) 1 (by decide) (by decide) (by decide)
  have hkept : (Sections.strings [['1', '2']]).toTuples.filter keepSection = [] := by decide
  rw [treeMerge, if_neg (by decide), hkept] at hpage
  simp [linesOf, targetLevel, levelAt, pyGet] at hpage

end Raises

end RagflowMineru.Nlp
