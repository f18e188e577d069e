import RagflowMineru.Library.Outline
import Mathlib.Data.List.Basic

/-!
# The tree of headings

The lines of a document are matched with the levels of headings, and the hierarchical
merger hangs them into a tree, from the root down along the last children.  A heading
goes below the first node there that is exactly one level above it, or below the last
one, and a line without a level belongs to the last one.
-/

namespace RagflowMineru.Flow

open Library

/-- A heading with the lines that belong to it; the root has level and index `-1`. -/
inductive Node where
  | mk (level index : ℤ) (texts : List ℤ) (children : List Node)

namespace Node

def level : Node → ℤ
  | mk level _ _ _ => level

def addText (i : ℤ) : Node → Node
  | mk level index texts children => mk level index (texts ++ [i]) children

def addChild (m i : ℤ) : Node → Node
  | mk level index texts children => mk level index texts (children ++ [mk m i [] []])

mutual

/-- Both functions `dfs` that insert a line: down along the last children to a node without
children, or to the first one at which they stop. -/
def atLast (stop : Node → Bool) (f : Node → Node) : Node → Node
  | mk level index texts children =>
      if children.isEmpty || stop (mk level index texts children) then
        f (mk level index texts children)
      else mk level index texts (atLastChild stop f children)

def atLastChild (stop : Node → Bool) (f : Node → Node) : List Node → List Node
  | [] => []
  | [c] => [atLast stop f c]
  | c :: c' :: rest => c :: atLastChild stop f (c' :: rest)

end

/-- A line with the index `i` and the level `m`; the number of levels stands for none. -/
def addLine (levels : ℕ) (root : Node) (line : ℕ × ℕ) : Node :=
  let (m, i) := line
  if m = 0 then root.addChild m i
  else if m = levels then root.atLast (fun _ => false) (addText i)
  else root.atLast (fun b => (m : ℤ) = b.level + 1) (addChild m i)

end Node

def root : Node :=
  .mk (-1) (-1) [] []

/-- The tree of the lines with these levels. -/
def buildTree (levels : ℕ) (matchs : List ℕ) : Node :=
  matchs.zipIdx.foldl (Node.addLine levels) root

/-! ## The last children -/

namespace Node

/-- Level and index of a node. -/
abbrev Label := ℤ × ℤ

def label : Node → Label
  | mk level index _ _ => (level, index)

mutual

/-- A node with its last child, the last child of that, and so on. -/
def spine : Node → List Label
  | mk level index _ children => (level, index) :: spineLast children

def spineLast : List Node → List Label
  | [] => []
  | [c] => spine c
  | _ :: c' :: rest => spineLast (c' :: rest)

end

mutual

/-- The children with their parents, in the order of the document. -/
def edges : Node → List (Label × Label)
  | mk level index _ children => edgesFrom (level, index) children

def edgesFrom (parent : Label) : List Node → List (Label × Label)
  | [] => []
  | c :: rest => (parent, label c) :: edges c ++ edgesFrom parent rest

end

/-- Induction over a node and its children. -/
theorem child_induction {P : Node → Prop}
    (mk : ∀ level index texts children, (∀ c ∈ children, P c) →
      P (mk level index texts children)) (n : Node) : P n := by
  induction hn : sizeOf n using Nat.strong_induction_on generalizing n with
  | _ k ih =>
      obtain ⟨level, index, texts, children⟩ := n
      refine mk level index texts children fun c hc => ih (sizeOf c) ?_ c rfl
      have hlt := List.sizeOf_lt_of_mem hc
      rw [← hn, Node.mk.sizeOf_spec]
      omega

/-- Induction along the last children. -/
theorem last_induction {P : Node → Prop} (leaf : ∀ level index texts, P (mk level index texts []))
    (last : ∀ level index texts children c, P c → P (mk level index texts (children ++ [c])))
    (n : Node) : P n := by
  induction n using child_induction with
  | mk level index texts children ih =>
      rcases children.eq_nil_or_concat with rfl | ⟨children, c, rfl⟩
      · exact leaf level index texts
      · rw [List.concat_eq_append] at ih ⊢
        exact last level index texts children c
          (ih c (List.mem_append_right children (List.mem_singleton_self c)))

theorem atLastChild_concat (stop : Node → Bool) (f : Node → Node) (children : List Node)
    (c : Node) : atLastChild stop f (children ++ [c]) = children ++ [atLast stop f c] := by
  induction children with
  | nil => rfl
  | cons a children ih =>
      obtain ⟨b, rest, hrest⟩ := List.exists_cons_of_ne_nil
        (List.append_ne_nil_of_right_ne_nil children (List.cons_ne_nil c []))
      rw [List.cons_append, hrest, atLastChild, ← hrest, ih, List.cons_append]

theorem spineLast_concat (children : List Node) (c : Node) :
    spineLast (children ++ [c]) = spine c := by
  induction children with
  | nil => rfl
  | cons a children ih =>
      obtain ⟨b, rest, hrest⟩ := List.exists_cons_of_ne_nil
        (List.append_ne_nil_of_right_ne_nil children (List.cons_ne_nil c []))
      rw [List.cons_append, hrest, spineLast, ← hrest, ih]

theorem edgesFrom_concat (parent : Label) (children : List Node) (c : Node) :
    edgesFrom parent (children ++ [c]) =
      edgesFrom parent children ++ (parent, label c) :: edges c := by
  induction children with
  | nil => simp [edgesFrom]
  | cons a children ih => simp [edgesFrom, ih]

theorem atLast_leaf (stop : Node → Bool) (f : Node → Node) (level index : ℤ) (texts : List ℤ) :
    atLast stop f (mk level index texts []) = f (mk level index texts []) := by
  rw [atLast, List.isEmpty_nil, Bool.true_or, if_pos rfl]

theorem atLast_concat (stop : Node → Bool) (f : Node → Node) (level index : ℤ) (texts : List ℤ)
    (children : List Node) (c : Node) :
    atLast stop f (mk level index texts (children ++ [c])) =
      if stop (mk level index texts (children ++ [c])) then
        f (mk level index texts (children ++ [c]))
      else mk level index texts (children ++ [atLast stop f c]) := by
  rw [atLast, atLastChild_concat, List.isEmpty_eq_false_iff.mpr (by simp), Bool.false_or]

theorem label_atLast {stop : Node → Bool} {f : Node → Node} (hf : ∀ n, label (f n) = label n)
    (n : Node) : label (atLast stop f n) = label n := by
  obtain ⟨level, index, texts, children⟩ := n
  rw [atLast]
  split_ifs
  · exact hf _
  · rfl

theorem label_addChild (m i : ℤ) (n : Node) : label (addChild m i n) = label n := by
  cases n
  rfl

theorem label_addText (i : ℤ) (n : Node) : label (addText i n) = label n := by
  cases n
  rfl

theorem spine_eq_cons (n : Node) : ∃ rest, spine n = label n :: rest := by
  cases n
  exact ⟨_, rfl⟩

/-- Down from the root to the first node that is one level above `m`, or to the last one. -/
def openAt (m : ℤ) : List Label → List Label
  | [] => []
  | [s] => [s]
  | s :: t :: rest => if m = s.1 + 1 then [s] else s :: openAt m (t :: rest)

/-- Where a heading is inserted. -/
theorem atLast_addChild (m i : ℤ) (n : Node) :
    spine (n.atLast (fun b => m = b.level + 1) (addChild m i)) =
        openAt m (spine n) ++ [(m, i)] ∧
      ∃ p, (openAt m (spine n)).getLast? = some p ∧
        edges (n.atLast (fun b => m = b.level + 1) (addChild m i)) = edges n ++ [(p, (m, i))] := by
  induction n using last_induction with
  | leaf level index texts =>
      rw [atLast_leaf]
      exact ⟨rfl, (level, index), rfl, rfl⟩
  | last level index texts children c ih =>
      obtain ⟨hspine, p, hp, hedges⟩ := ih
      obtain ⟨rest, hrest⟩ := spine_eq_cons c
      have hopen : openAt m (spine (mk level index texts (children ++ [c]))) =
          if m = level + 1 then [(level, index)] else (level, index) :: openAt m (spine c) := by
        rw [spine, spineLast_concat, hrest, openAt]
      by_cases hstop : m = level + 1
      · have hstep : atLast (fun b => m = b.level + 1) (addChild m i)
            (mk level index texts (children ++ [c])) =
              mk level index texts (children ++ [c] ++ [mk m i [] []]) :=
          (atLast_concat _ _ _ _ _ _ _).trans (if_pos (decide_eq_true hstop))
        rw [hstep, hopen, if_pos hstop]
        refine ⟨?_, (level, index), rfl, ?_⟩
        · rw [spine, spineLast_concat]
          rfl
        · rw [edges, edges, edgesFrom_concat]
          rfl
      · have hstep : atLast (fun b => m = b.level + 1) (addChild m i)
            (mk level index texts (children ++ [c])) = mk level index texts
              (children ++ [atLast (fun b => m = b.level + 1) (addChild m i) c]) :=
          (atLast_concat _ _ _ _ _ _ _).trans (if_neg fun h => hstop (of_decide_eq_true h))
        rw [hstep, hopen, if_neg hstop]
        refine ⟨?_, p, ?_, ?_⟩
        · rw [spine, spineLast_concat, hspine]
          rfl
        · rw [List.getLast?_cons, hp]
          rfl
        · rw [edges, edges, edgesFrom_concat, edgesFrom_concat, hedges,
            label_atLast (label_addChild m i)]
          simp

/-- A line without a level leaves the headings as they are. -/
theorem atLast_addText (i : ℤ) (n : Node) :
    spine (n.atLast (fun _ => false) (addText i)) = spine n ∧
      edges (n.atLast (fun _ => false) (addText i)) = edges n := by
  induction n using last_induction with
  | leaf level index texts =>
      rw [atLast_leaf]
      exact ⟨rfl, rfl⟩
  | last level index texts children c ih =>
      rw [atLast_concat, if_neg Bool.false_ne_true]
      constructor
      · rw [spine, spine, spineLast_concat, spineLast_concat, ih.1]
      · rw [edges, edges, edgesFrom_concat, edgesFrom_concat, ih.2, label_atLast (label_addText i)]

/-- The level of the root is one above the highest headings. -/
theorem atLast_of_level {m i : ℤ} {n : Node} (h : m = n.level + 1) :
    n.atLast (fun b => m = b.level + 1) (addChild m i) = n.addChild m i := by
  cases n with
  | mk level index texts children =>
      rw [atLast, if_pos]
      rw [decide_eq_true h, Bool.or_true]

end Node

/-! ## Runs -/

open Node

/-- A line with a level. -/
def isHeading (levels m : ℕ) : Bool :=
  m = 0 || m ≠ levels

theorem addLine_of_heading {levels : ℕ} {n : Node} (hroot : n.level = -1) {m : ℕ} (i : ℕ)
    (h : isHeading levels m) :
    n.addLine levels (m, i) = n.atLast (fun b => (m : ℤ) = b.level + 1) (addChild m i) := by
  rw [addLine]
  by_cases hzero : m = 0
  · subst hzero
    rw [if_pos rfl, atLast_of_level (by rw [hroot]; rfl)]
  · have hlevel : m ≠ levels := by simpa [isHeading, hzero] using h
    rw [if_neg hzero, if_neg hlevel]

theorem addLine_of_text {levels : ℕ} (n : Node) {m : ℕ} (i : ℕ) (h : ¬ isHeading levels m) :
    n.addLine levels (m, i) = n.atLast (fun _ => false) (addText i) := by
  have hboth : ¬ m = 0 ∧ m = levels := by simpa [isHeading] using h
  rw [addLine, if_neg hboth.1, if_pos hboth.2]

theorem label_addLine (levels : ℕ) (n : Node) (line : ℕ × ℕ) :
    label (n.addLine levels line) = label n := by
  rw [addLine]
  split_ifs
  · exact label_addChild _ _ n
  · exact label_atLast (label_addText _) n
  · exact label_atLast (label_addChild _ _) n

theorem buildTree_concat (levels : ℕ) (matchs : List ℕ) (m : ℕ) :
    buildTree levels (matchs ++ [m]) =
      (buildTree levels matchs).addLine levels (m, matchs.length) := by
  rw [buildTree, List.zipIdx_append, List.foldl_append]
  simp [buildTree]

/-- The headings with their levels and indices. -/
def headings (levels : ℕ) (matchs : List ℕ) : List Label :=
  (matchs.zipIdx.filter fun line => isHeading levels line.1).map fun line => (line.1, line.2)

theorem headings_concat (levels : ℕ) (matchs : List ℕ) (m : ℕ) :
    headings levels (matchs ++ [m]) = headings levels matchs ++
      if isHeading levels m then [((m : ℤ), (matchs.length : ℤ))] else [] := by
  rw [headings, List.zipIdx_append, List.filter_append, List.map_append, headings]
  congr 1
  by_cases h : isHeading levels m <;> simp [h]

def rootLabel : Label :=
  (-1, -1)

theorem label_buildTree (levels : ℕ) (matchs : List ℕ) :
    label (buildTree levels matchs) = rootLabel := by
  induction matchs using List.reverseRecOn with
  | nil => rfl
  | append_singleton matchs m ih => rw [buildTree_concat, label_addLine, ih]

theorem level_buildTree (levels : ℕ) (matchs : List ℕ) :
    (buildTree levels matchs).level = -1 := by
  have hlabel := label_buildTree levels matchs
  cases h : buildTree levels matchs with
  | mk level index texts children =>
      rw [h] at hlabel
      exact congrArg Prod.fst hlabel

/-- The root and the headings that are open after some headings: each closes those behind the one
it is inserted at. -/
def openHeadings (hs : List Label) : List Label :=
  hs.foldl (fun opened h => openAt h.1 opened ++ [h]) [rootLabel]

theorem openHeadings_concat (hs : List Label) (h : Label) :
    openHeadings (hs ++ [h]) = openAt h.1 (openHeadings hs) ++ [h] := by
  rw [openHeadings, List.foldl_append]
  rfl

/-- The last children of the tree are the open headings, and each heading is a child of the one
it was inserted at. -/
theorem buildTree_spec (levels : ℕ) (matchs : List ℕ) :
    spine (buildTree levels matchs) = openHeadings (headings levels matchs) ∧
      (edges (buildTree levels matchs)).map Prod.snd = headings levels matchs ∧
      ∀ pre e post, edges (buildTree levels matchs) = pre ++ e :: post →
        (openAt e.2.1 (openHeadings (pre.map Prod.snd))).getLast? = some e.1 := by
  induction matchs using List.reverseRecOn with
  | nil => exact ⟨rfl, rfl, fun pre e post h => by simp [buildTree, root, edges, edgesFrom] at h⟩
  | append_singleton matchs m ih =>
      obtain ⟨hspine, hsnd, hparents⟩ := ih
      have hlevel := level_buildTree levels matchs
      rw [buildTree_concat, headings_concat]
      by_cases h : isHeading levels m
      · obtain ⟨hnew, p, hp, hedges⟩ :=
          atLast_addChild (m : ℤ) (matchs.length : ℤ) (buildTree levels matchs)
        rw [addLine_of_heading hlevel _ h, if_pos h, openHeadings_concat, hnew, hspine, hedges]
        refine ⟨rfl, by rw [List.map_append, hsnd]; rfl, ?_⟩
        refine Outline.forall_split_concat.mpr ⟨hparents, ?_⟩
        rwa [hsnd, ← hspine]
      · obtain ⟨hnew, hedges⟩ := atLast_addText (matchs.length : ℤ) (buildTree levels matchs)
        rw [addLine_of_text _ _ h, if_neg h, List.append_nil, hnew, hedges]
        exact ⟨hspine, hsnd, hparents⟩

/-! ## The nearest heading of a smaller level -/

/-- The last heading of a smaller level among some headings, or the root. -/
def nearest (pre : List Label) (h : Label) : Option Label :=
  ((rootLabel :: pre).filter (·.1 < h.1)).getLast?

/-- Each child has a greater level than its parent, which is the nearest heading before it with a
smaller level. -/
def RightParents (es : List (Label × Label)) : Prop :=
  ∀ pre e post, es = pre ++ e :: post →
    e.1.1 < e.2.1 ∧ nearest (pre.map Prod.snd) e.2 = some e.1

/-- A heading that does not directly follow the nearest one of a smaller level is exactly one
level below it. -/
def Steps (hs : List Label) : Prop :=
  ∀ pre h post, hs = pre ++ h :: post →
    nearest pre h = (rootLabel :: pre).getLast? ∨ ∃ p, nearest pre h = some p ∧ h.1 = p.1 + 1

theorem exists_nearest (pre : List Label) {h : Label} (hlevel : 0 ≤ h.1) :
    ∃ p, nearest pre h = some p := by
  have hroot : rootLabel ∈ (rootLabel :: pre).filter (·.1 < h.1) := by
    rw [List.mem_filter, decide_eq_true_eq]
    exact ⟨List.mem_cons_self, by rw [rootLabel]; omega⟩
  exact ⟨_, List.getLast?_eq_some_getLast (List.ne_nil_of_mem hroot)⟩

theorem openAt_of_le {m : ℤ} {l : List Label} (h : ∀ s ∈ l, m ≤ s.1) : openAt m l = l := by
  fun_induction openAt m l with
  | case1 => rfl
  | case2 s => rfl
  | case3 s t rest hstop =>
      have hs := h s List.mem_cons_self
      omega
  | case4 s t rest _ ih => rw [ih fun s hs => h s (List.mem_cons_of_mem _ hs)]

/-- Among increasing levels the insertion stops right behind those that are smaller, if these are
all or end one level above, and does not stop otherwise. -/
theorem openAt_of_increasing {m : ℤ} {s : Label} {l : List Label}
    (h : (s :: l).Pairwise (·.1 < ·.1)) (hs : s.1 < m) :
    (((s :: l).filter (·.1 < m)).getLast? = (s :: l).getLast? ∨
        ∃ p, ((s :: l).filter (·.1 < m)).getLast? = some p ∧ m = p.1 + 1) ∧
      openAt m (s :: l) = (s :: l).filter (·.1 < m) ∨
    ¬ (((s :: l).filter (·.1 < m)).getLast? = (s :: l).getLast? ∨
        ∃ p, ((s :: l).filter (·.1 < m)).getLast? = some p ∧ m = p.1 + 1) ∧
      openAt m (s :: l) = s :: l := by
  induction l generalizing s with
  | nil =>
      left
      simp [openAt, hs]
  | cons t rest ih =>
      obtain ⟨hlt, hrest⟩ := List.pairwise_cons.mp h
      have hst := hlt t List.mem_cons_self
      by_cases ht : t.1 < m
      · -- the insertion goes on, and ends where it would from the next one on
        have hstop : ¬ m = s.1 + 1 := by omega
        have hfilter : (s :: t :: rest).filter (·.1 < m) = s :: (t :: rest).filter (·.1 < m) := by
          simp [hs]
        have hlast : ((s :: t :: rest).filter (·.1 < m)).getLast? =
            ((t :: rest).filter (·.1 < m)).getLast? := by
          have hcons : (t :: rest).filter (·.1 < m) = t :: rest.filter (·.1 < m) := by simp [ht]
          rw [hfilter, hcons, List.getLast?_cons_cons]
        rw [hlast, List.getLast?_cons_cons, openAt, if_neg hstop, hfilter]
        rcases ih hrest ht with ⟨hcond, hopen⟩ | ⟨hcond, hopen⟩
        · exact Or.inl ⟨hcond, by rw [hopen]⟩
        · exact Or.inr ⟨hcond, by rw [hopen]⟩
      · have hle : ∀ u ∈ t :: rest, m ≤ u.1 := by
          refine List.forall_mem_cons.mpr ⟨not_lt.mp ht, fun u hu => ?_⟩
          have htu := (List.pairwise_cons.mp hrest).1 u hu
          omega
        have hfilter : (s :: t :: rest).filter (·.1 < m) = [s] := by
          rw [List.filter_cons_of_pos (by simpa using hs), List.filter_eq_nil_iff.mpr]
          intro u hu
          have := hle u hu
          simp only [decide_eq_true_eq]
          omega
        rw [hfilter, List.getLast?_cons_cons, openAt]
        by_cases hstop : m = s.1 + 1
        · rw [if_pos hstop]
          exact Or.inl ⟨Or.inr ⟨s, rfl, hstop⟩, rfl⟩
        · rw [if_neg hstop, openAt_of_le hle]
          refine Or.inr ⟨?_, rfl⟩
          rintro (hlast | ⟨p, hp, hstop'⟩)
          · have hmem := List.mem_of_getLast? hlast.symm
            have := hle s hmem
            omega
          · obtain rfl := Option.some.inj hp
            exact hstop hstop'

/-- As long as the headings come in steps, the open ones are those that the last one stands
under. -/
theorem openHeadings_of_steps {hs : List Label} (hlevels : ∀ h ∈ hs, 0 ≤ h.1) :
    (Steps hs → openHeadings hs = Outline.chain Prod.fst (rootLabel :: hs)) ∧
      (Steps hs ↔ ∀ pre h post, hs = pre ++ h :: post →
        ∃ p, (openAt h.1 (openHeadings pre)).getLast? = some p ∧ p.1 < h.1 ∧
          nearest pre h = some p) := by
  induction hs using List.reverseRecOn with
  | nil =>
      refine ⟨fun _ => rfl, iff_of_true ?_ ?_⟩
      · intro pre h post heq
        simp at heq
      · intro pre h post heq
        simp at heq
  | append_singleton hs h ih =>
      obtain ⟨hhs, hh⟩ := List.forall_mem_append.mp hlevels
      have hlevel : 0 ≤ h.1 := hh h (List.mem_singleton_self h)
      obtain ⟨hopen, hiff⟩ := ih hhs
      have hsplit : Steps (hs ++ [h]) ↔ Steps hs ∧
          (nearest hs h = (rootLabel :: hs).getLast? ∨
            ∃ p, nearest hs h = some p ∧ h.1 = p.1 + 1) :=
        Outline.forall_split_concat
      rw [hsplit, Outline.forall_split_concat, ← hiff]
      have hroot : Outline.chain Prod.fst (rootLabel :: hs) =
          rootLabel :: Outline.chain Prod.fst hs := by
        rw [Outline.chain, if_pos]
        rw [List.all_eq_true]
        intro s hs'
        have := hhs s hs'
        rw [decide_eq_true_eq, rootLabel]
        omega
      have hincreasing := @Outline.chain_pairwise _ _ _ Prod.fst (rootLabel :: hs)
      have hcond := @Outline.getLast?_filter_chain _ _ _ Prod.fst (rootLabel :: hs) h.1
      have hend := @Outline.getLast?_chain _ _ _ Prod.fst (rootLabel :: hs)
      have hcases := @openAt_of_increasing h.1 rootLabel (Outline.chain Prod.fst hs)
        (by rwa [← hroot]) (by rw [rootLabel]; omega)
      rw [← hroot, hcond, hend, ← nearest] at hcases
      constructor
      · rintro ⟨hsteps, hstep⟩
        rcases hcases with ⟨-, hat⟩ | ⟨hnot, -⟩
        · rw [openHeadings_concat, hopen hsteps, hat, ← List.cons_append, Outline.chain_concat]
        · exact absurd hstep hnot
      · apply and_congr_right
        intro hsteps
        rw [hopen hsteps]
        rcases hcases with ⟨hstep, hat⟩ | ⟨hnot, hat⟩
        · refine iff_of_true hstep ?_
          rw [hat, hcond, ← nearest]
          obtain ⟨p, hp⟩ := exists_nearest hs hlevel
          refine ⟨p, hp, ?_, hp⟩
          have hmem := List.mem_of_getLast? hp
          exact of_decide_eq_true (List.mem_filter.mp hmem).2
        · refine iff_of_false hnot ?_
          rintro ⟨p, hp, -, hnearest⟩
          rw [hat, hend] at hp
          exact hnot (Or.inl (hnearest.trans hp.symm))

/-- Every heading is below the nearest one of a smaller level exactly if the headings come in
steps. -/
theorem rightParents_iff (levels : ℕ) (matchs : List ℕ) :
    (edges (buildTree levels matchs)).map Prod.snd = headings levels matchs ∧
      (RightParents (edges (buildTree levels matchs)) ↔ Steps (headings levels matchs)) := by
  obtain ⟨-, hsnd, hparents⟩ := buildTree_spec levels matchs
  refine ⟨hsnd, ?_⟩
  have hlevels : ∀ h ∈ headings levels matchs, 0 ≤ h.1 := by
    intro h hh
    obtain ⟨line, -, rfl⟩ := List.mem_map.mp hh
    exact Int.natCast_nonneg line.1
  rw [(openHeadings_of_steps hlevels).2, ← hsnd]
  constructor
  · intro hright pre h post heq
    obtain ⟨before, rest, hedges, hbefore, hrest⟩ := List.map_eq_append_iff.mp heq
    obtain ⟨e, after, rfl, rfl, hafter⟩ := List.map_eq_cons_iff.mp hrest
    obtain ⟨hlt, hnearest⟩ := hright before e after hedges
    rw [hbefore] at hnearest
    have hparent := hparents before e after hedges
    rw [hbefore] at hparent
    exact ⟨e.1, hparent, hlt, hnearest⟩
  · intro h pre e post hedges
    obtain ⟨p, hp, hlt, hnearest⟩ := h (pre.map Prod.snd) e.2 (post.map Prod.snd) (by
      rw [hedges, List.map_append, List.map_cons])
    obtain rfl := Option.some.inj ((hparents pre e post hedges).symm.trans hp)
    exact ⟨hlt, hnearest⟩

/-- A heading of the first level behind one of the second level goes below it. -/
theorem not_rightParents :
    ¬ ∀ (levels : ℕ) (matchs : List ℕ), RightParents (edges (buildTree levels matchs)) := by
  intro h
  have hparent := (h 3 [2, 1] [((-1, -1), (2, 0))] ((2, 0), (1, 1)) [] rfl).1
  exact absurd hparent (by decide)

end RagflowMineru.Flow
