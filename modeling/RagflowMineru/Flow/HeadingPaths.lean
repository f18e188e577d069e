import RagflowMineru.Flow.Headings
import Mathlib.Data.List.Flatten
import Mathlib.Data.List.Nodup

/-!
# The paths of a tree of headings

The hierarchical merger goes through the tree with a list of line numbers, the path to
where it is.  Down to a certain depth each child gets a copy of the list.  Below it all
share one list, which is appended to the result for every leaf and once more for every
child of that depth.
-/

namespace RagflowMineru.Flow

open Node

/-! ## The walk -/

namespace Node

def texts : Node → List ℤ
  | mk _ _ texts _ => texts

def children : Node → List Node
  | mk _ _ _ children => children

/-- `[nn["index"], *nn["texts"]]` -/
def own : Node → List ℤ
  | mk _ index texts _ => index :: texts

end Node

/-- The path lists that have been made, and `all_pathes`, which refers to them. -/
structure Paths where
  heap : List (List ℤ)
  all : List ℕ

namespace Paths

def read (st : Paths) (path : ℕ) : List ℤ :=
  st.heap.getD path []

/-- `deepcopy(path)` -/
def copy (st : Paths) (path : ℕ) : Paths × ℕ :=
  ({ st with heap := st.heap ++ [st.read path] }, st.heap.length)

def extend (st : Paths) (path : ℕ) (lines : List ℤ) : Paths :=
  { st with heap := st.heap.modify path (· ++ lines) }

def append (st : Paths) (path : ℕ) : Paths :=
  { st with all := st.all ++ [path] }

end Paths

mutual

/-- The `dfs` that collects the paths. -/
def dfs (hierarchy : ℕ) : Node → ℕ → ℕ → Paths → Paths
  | mk _ _ _ children, path, depth, st =>
      dfsChildren hierarchy children path depth
        (if children.isEmpty ∧ st.read path ≠ [] then st.append path else st)

def dfsChildren (hierarchy : ℕ) : List Node → ℕ → ℕ → Paths → Paths
  | [], _, _, st => st
  | nn :: rest, path, depth, st =>
      let (st, path') := if depth < hierarchy then st.copy path else (st, path)
      let st := dfs hierarchy nn path' (depth + 1) (st.extend path' nn.own)
      dfsChildren hierarchy rest path depth (if depth = hierarchy then st.append path' else st)

end

/-- `all_pathes`: the lines of each chunk. -/
def allPathes (hierarchy : ℕ) (root : Node) : List (List ℤ) :=
  let st := dfs hierarchy root 0 0 ⟨[[]], []⟩
  (if root.texts = [] then [] else [root.texts]) ++ st.all.map st.read

/-! ## What the walk collects -/

namespace Node

mutual

/-- The lines of a node and below it. -/
def lines : Node → List ℤ
  | mk _ _ texts children => texts ++ linesAll children

def linesAll : List Node → List ℤ
  | [] => []
  | c :: rest => c.label.2 :: lines c ++ linesAll rest

end

mutual

def leafCount : Node → ℕ
  | mk _ _ _ children => if children.isEmpty then 1 else leafCountAll children

def leafCountAll : List Node → ℕ
  | [] => 0
  | c :: rest => leafCount c + leafCountAll rest

end

mutual

/-- The paths from a node on when `k` more levels get copies: one for each leaf if there is none
below these levels. -/
def pathsOf : ℕ → Node → List ℤ → List (List ℤ)
  | k, mk _ _ _ children, path =>
      if children.isEmpty then [path]
      else match k with
        | 0 => List.replicate (leafCountAll children + children.length)
            (path ++ linesAll children)
        | k + 1 => pathsAll k children path

def pathsAll : ℕ → List Node → List ℤ → List (List ℤ)
  | _, [], _ => []
  | k, c :: rest, path => pathsOf k c (path ++ c.own) ++ pathsAll k rest path

end

theorem own_eq_cons (n : Node) : n.own = n.label.2 :: n.texts := by
  cases n
  rfl

theorem own_append_linesAll (n : Node) : n.own ++ linesAll n.children = n.label.2 :: n.lines := by
  cases n
  rfl

end Node

/-! ## Where the list is shared -/

namespace Paths

/-- The path is appended `k` times. -/
def appendN (st : Paths) (path k : ℕ) : Paths :=
  { st with all := st.all ++ List.replicate k path }

theorem read_extend {st : Paths} {path : ℕ} (h : path < st.heap.length) (lines : List ℤ) :
    (st.extend path lines).read path = st.read path ++ lines := by
  simp [read, extend, h]

theorem length_extend (st : Paths) (path : ℕ) (lines : List ℤ) :
    (st.extend path lines).heap.length = st.heap.length := by
  simp [extend]

theorem extend_nil (st : Paths) (path : ℕ) : st.extend path [] = st := by
  have hid : (· ++ ([] : List ℤ)) = id := funext List.append_nil
  rw [extend, hid, List.modify_id]

theorem appendN_zero (st : Paths) (path : ℕ) : st.appendN path 0 = st := by
  rw [appendN, List.replicate_zero, List.append_nil]

theorem append_eq_appendN (st : Paths) (path : ℕ) : st.append path = st.appendN path 1 := rfl

theorem extend_extend (st : Paths) (path : ℕ) (a b : List ℤ) :
    (st.extend path a).extend path b = st.extend path (a ++ b) := by
  simp [extend, List.modify_modify_eq, Function.comp_def]

theorem appendN_appendN (st : Paths) (path j k : ℕ) :
    (st.appendN path j).appendN path k = st.appendN path (j + k) := by
  rw [appendN, appendN, appendN, List.append_assoc, List.replicate_append_replicate]

theorem extend_comm (st : Paths) (path j : ℕ) (a : List ℤ) :
    (st.appendN path j).extend path a = (st.extend path a).appendN path j := rfl

theorem read_appendN (st : Paths) (path j r : ℕ) : (st.appendN path j).read r = st.read r := rfl

theorem length_appendN (st : Paths) (path j : ℕ) :
    (st.appendN path j).heap.length = st.heap.length := rfl

end Paths

/-- A list that is not copied any more: its lines are added up, and it is appended for each
leaf, and for the children at the depth where copying stops once more. -/
theorem dfsChildren_shared {hierarchy : ℕ} {children : List Node} {path depth : ℕ}
    (hdepth : hierarchy ≤ depth)
    (h : ∀ c ∈ children, ∀ st : Paths, path < st.heap.length → st.read path ≠ [] →
      dfs hierarchy c path (depth + 1) st =
        (st.extend path (linesAll c.children)).appendN path (leafCount c))
    {st : Paths} (hpath : path < st.heap.length) :
    dfsChildren hierarchy children path depth st =
      (st.extend path (linesAll children)).appendN path
        (leafCountAll children + if depth = hierarchy then children.length else 0) := by
  induction children generalizing st with
  | nil =>
      rw [dfsChildren, linesAll, leafCountAll, Paths.extend_nil, List.length_nil, ite_self,
        Paths.appendN_zero]
  | cons c rest ih =>
      obtain ⟨hc, hrest⟩ := List.forall_mem_cons.mp h
      have hown : (st.extend path c.own).read path ≠ [] := by
        rw [Paths.read_extend hpath, own_eq_cons]
        exact List.append_ne_nil_of_right_ne_nil _ (List.cons_ne_nil _ _)
      have hchild := hc (st.extend path c.own) (by rwa [Paths.length_extend]) hown
      rw [Paths.extend_extend, own_append_linesAll] at hchild
      rw [dfsChildren, if_neg (by omega)]
      dsimp only
      rw [hchild, linesAll, leafCountAll]
      by_cases heq : depth = hierarchy
      · rw [if_pos heq, if_pos heq, Paths.append_eq_appendN, Paths.appendN_appendN,
          ih hrest (by rwa [Paths.length_appendN, Paths.length_extend]), if_pos heq,
          Paths.extend_comm, Paths.extend_extend, Paths.appendN_appendN, List.length_cons]
        congr 1
        omega
      · rw [if_neg heq, if_neg heq,
          ih hrest (by rwa [Paths.length_appendN, Paths.length_extend]), if_neg heq,
          Paths.extend_comm, Paths.extend_extend, Paths.appendN_appendN]
        congr 1

/-- Below the depth where lists are copied, all lines are added to one list, which is appended
for each leaf. -/
theorem dfs_shared {hierarchy : ℕ} (n : Node) {path depth : ℕ} (hdepth : hierarchy < depth)
    {st : Paths} (hpath : path < st.heap.length) (hread : st.read path ≠ []) :
    dfs hierarchy n path depth st =
      (st.extend path (linesAll n.children)).appendN path (leafCount n) := by
  induction n using Node.child_induction generalizing depth st with
  | mk level index texts children ih =>
      rw [dfs, leafCount]
      by_cases hchildren : children = []
      · subst hchildren
        rw [if_pos ⟨rfl, hread⟩, dfsChildren, if_pos List.isEmpty_nil]
        exact (congrArg (·.append path) (Paths.extend_nil st path)).symm
      · have hempty : ¬ children.isEmpty := by rwa [List.isEmpty_iff]
        have hshared := dfsChildren_shared hdepth.le
          (fun c hc st hpath hread => ih c hc (by omega) hpath hread) hpath
        rw [if_neg (fun h => hempty h.1), if_neg hempty, hshared, if_neg (by omega)]
        rfl

/-! ## Where lists are copied -/

/-- Lists `ps` are appended, and the lists of `heap` stay what they are. -/
def Adds (heap : List (List ℤ)) (st st' : Paths) (ps : List (List ℤ)) : Prop :=
  ∃ refs, heap <+: st'.heap ∧ st'.all = st.all ++ refs ∧ (∀ r ∈ refs, r < st'.heap.length) ∧
    refs.map st'.read = ps

theorem Paths.read_of_prefix {st st' : Paths} (h : st.heap <+: st'.heap) {r : ℕ}
    (hr : r < st.heap.length) : st'.read r = st.read r := by
  obtain ⟨more, hmore⟩ := h
  rw [Paths.read, Paths.read, ← hmore, List.getD_eq_getElem?_getD, List.getElem?_append_left hr,
    ← List.getD_eq_getElem?_getD]

theorem Adds.trans {heap : List (List ℤ)} {st st' st'' : Paths} {ps qs : List (List ℤ)}
    (h : Adds heap st st' ps) (h' : Adds st'.heap st' st'' qs) :
    Adds heap st st'' (ps ++ qs) := by
  obtain ⟨refs, hheap, hall, hrefs, hps⟩ := h
  obtain ⟨refs', hheap', hall', hrefs', hqs⟩ := h'
  refine ⟨refs ++ refs', hheap.trans hheap', ?_, ?_, ?_⟩
  · rw [hall', hall, List.append_assoc]
  · exact List.forall_mem_append.mpr
      ⟨fun r hr => (hrefs r hr).trans_le hheap'.length_le, hrefs'⟩
  · have hold : refs.map st''.read = refs.map st'.read :=
      List.map_congr_left fun r hr => Paths.read_of_prefix hheap' (hrefs r hr)
    rw [List.map_append, hold, hps, hqs]

theorem Paths.read_length (heap : List (List ℤ)) (p : List ℤ) (all : List ℕ) :
    (⟨heap ++ [p], all⟩ : Paths).read heap.length = p := by
  simp [Paths.read]

theorem Paths.extend_length (heap : List (List ℤ)) (p : List ℤ) (all : List ℕ) (lines : List ℤ) :
    (⟨heap ++ [p], all⟩ : Paths).extend heap.length lines = ⟨heap ++ [p ++ lines], all⟩ := by
  have hmodify : (heap ++ [p]).modify heap.length (· ++ lines) = heap ++ [p ++ lines] := by
    induction heap with
    | nil => rfl
    | cons q heap ih => rw [List.cons_append, List.length_cons, List.modify_succ_cons, ih]; rfl
  rw [Paths.extend, hmodify]

theorem Adds.of_append (heap : List (List ℤ)) (p : List ℤ) (all : List ℕ) :
    Adds heap ⟨heap ++ [p], all⟩ ((⟨heap ++ [p], all⟩ : Paths).append heap.length) [p] := by
  refine ⟨[heap.length], List.prefix_append _ _, rfl, ?_, ?_⟩
  · simp [Paths.append]
  · rw [List.map_singleton]
    exact congrArg (fun q => [q]) (Paths.read_length heap p _)

theorem dfsChildren_copied {hierarchy k : ℕ} {children : List Node} {path depth : ℕ}
    (hdepth : depth < hierarchy)
    (h : ∀ c ∈ children, ∀ heap p all, p ≠ [] →
      Adds heap ⟨heap ++ [p], all⟩ (dfs hierarchy c heap.length (depth + 1) ⟨heap ++ [p], all⟩)
        (pathsOf k c p))
    {st : Paths} (hpath : path < st.heap.length) :
    Adds st.heap st (dfsChildren hierarchy children path depth st)
      (pathsAll k children (st.read path)) := by
  induction children generalizing st with
  | nil =>
      rw [dfsChildren, pathsAll]
      exact ⟨[], List.prefix_rfl, (List.append_nil _).symm, by simp, rfl⟩
  | cons c rest ih =>
      obtain ⟨hc, hrest⟩ := List.forall_mem_cons.mp h
      have hchild := hc st.heap (st.read path ++ c.own) st.all (by
        rw [own_eq_cons]
        exact List.append_ne_nil_of_right_ne_nil _ (List.cons_ne_nil _ _))
      rw [dfsChildren, if_pos hdepth, pathsAll]
      dsimp only
      rw [if_neg (by omega), Paths.copy, Paths.extend_length]
      have hheap := hchild.choose_spec.1
      refine @Adds.trans _ st _ _ _ _ hchild ?_
      have hrestAdds := ih hrest (hpath.trans_le hheap.length_le)
      rwa [Paths.read_of_prefix hheap hpath] at hrestAdds

/-- A walk that starts with a list of its own. -/
theorem dfs_copied {hierarchy k : ℕ} (n : Node) {depth : ℕ} (hdepth : depth + k = hierarchy)
    (heap : List (List ℤ)) {p : List ℤ} (all : List ℕ) (hp : p ≠ []) :
    Adds heap ⟨heap ++ [p], all⟩ (dfs hierarchy n heap.length depth ⟨heap ++ [p], all⟩)
      (pathsOf k n p) := by
  induction k generalizing n depth heap p all with
  | zero =>
      obtain ⟨level, index, texts, children⟩ := n
      rw [dfs, pathsOf]
      by_cases hempty : children.isEmpty
      · rw [if_pos ⟨hempty, by rwa [Paths.read_length]⟩, if_pos hempty,
          List.isEmpty_iff.mp hempty, dfsChildren]
        exact Adds.of_append heap p all
      · have hshared := @dfsChildren_shared hierarchy children heap.length depth (by omega)
          (fun c _ st hpath hread => dfs_shared c (by omega) hpath hread) ⟨heap ++ [p], all⟩
          (by simp)
        rw [if_neg (fun h => hempty h.1), if_neg hempty, hshared, if_pos (by omega),
          Paths.extend_length]
        refine ⟨List.replicate _ heap.length, List.prefix_append _ _, rfl, ?_, ?_⟩
        · intro r hr
          rw [List.eq_of_mem_replicate hr]
          simp [Paths.appendN]
        · rw [List.map_replicate, Paths.read_appendN, Paths.read_length]
  | succ k ih =>
      obtain ⟨level, index, texts, children⟩ := n
      rw [dfs, pathsOf]
      by_cases hempty : children.isEmpty
      · rw [if_pos ⟨hempty, by rwa [Paths.read_length]⟩, if_pos hempty,
          List.isEmpty_iff.mp hempty, dfsChildren]
        exact Adds.of_append heap p all
      · rw [if_neg (fun h => hempty h.1), if_neg hempty]
        have hcopied := @dfsChildren_copied hierarchy k children heap.length depth (by omega)
          (fun c _ heap p all hp => ih c (by omega) heap all hp) ⟨heap ++ [p], all⟩ (by simp)
        rw [Paths.read_length] at hcopied
        obtain ⟨refs, hheap, hrest⟩ := hcopied
        exact ⟨refs, (List.prefix_append _ _).trans hheap, hrest⟩

/-- The chunks: the lines before the first heading, and the paths. -/
theorem allPathes_eq {hierarchy : ℕ} (h : 1 ≤ hierarchy) (root : Node) :
    allPathes hierarchy root =
      (if root.texts = [] then [] else [root.texts]) ++
        pathsAll (hierarchy - 1) root.children [] := by
  obtain ⟨level, index, texts, children⟩ := root
  have hcopied := @dfsChildren_copied hierarchy (hierarchy - 1) children 0 0 h
    (fun c _ heap p all hp => dfs_copied c (by omega) heap all hp) ⟨[[]], []⟩ (by simp)
  obtain ⟨refs, -, hall, -, hps⟩ := hcopied
  have hread : (⟨[[]], []⟩ : Paths).read 0 = [] := rfl
  rw [hread] at hps
  have hroot : dfs hierarchy (mk level index texts children) 0 0 ⟨[[]], []⟩ =
      dfsChildren hierarchy children 0 0 ⟨[[]], []⟩ := by
    rw [dfs, if_neg fun hleaf => hleaf.2 hread]
  rw [allPathes, hroot, hall, List.nil_append, hps]
  rfl

/-! ## What the paths are -/

namespace Node

theorem pathsOf_leaf (k : ℕ) {n : Node} (h : n.children = []) (path : List ℤ) :
    pathsOf k n path = [path] := by
  obtain ⟨level, index, texts, children⟩ := n
  obtain rfl : children = [] := h
  cases k <;> rfl

theorem pathsOf_zero {n : Node} (h : n.children ≠ []) (path : List ℤ) :
    pathsOf 0 n path = List.replicate (leafCountAll n.children + n.children.length)
      (path ++ linesAll n.children) := by
  obtain ⟨level, index, texts, children⟩ := n
  rw [pathsOf, if_neg (by rwa [List.isEmpty_iff])]
  rfl

theorem pathsAll_eq_flatMap (k : ℕ) (children : List Node) (path : List ℤ) :
    pathsAll k children path = children.flatMap fun c => pathsOf k c (path ++ c.own) := by
  induction children with
  | nil => rw [pathsAll, List.flatMap_nil]
  | cons c rest ih => rw [pathsAll, ih, List.flatMap_cons]

theorem pathsOf_succ (k : ℕ) {n : Node} (h : n.children ≠ []) (path : List ℤ) :
    pathsOf (k + 1) n path = n.children.flatMap fun c => pathsOf k c (path ++ c.own) := by
  rw [← pathsAll_eq_flatMap]
  obtain ⟨level, index, texts, children⟩ := n
  rw [pathsOf, if_neg (by rwa [List.isEmpty_iff])]
  rfl

theorem linesAll_eq_flatMap (children : List Node) :
    linesAll children = children.flatMap fun c => c.own ++ linesAll c.children := by
  induction children with
  | nil => rw [linesAll, List.flatMap_nil]
  | cons c rest ih => rw [linesAll, List.flatMap_cons, own_append_linesAll, ih]

theorem sublist_linesAll {c : Node} {children : List Node} (h : c ∈ children) :
    (c.own ++ linesAll c.children).Sublist (linesAll children) := by
  rw [linesAll_eq_flatMap children]
  have hsublist := (List.singleton_sublist.mpr h).flatMap fun c => c.own ++ linesAll c.children
  rwa [List.flatMap_singleton] at hsublist

/-- Induction along the cases of `pathsOf`. -/
theorem paths_induction {P : ℕ → Node → Prop} (leaf : ∀ k n, n.children = [] → P k n)
    (zero : ∀ n, n.children ≠ [] → P 0 n)
    (succ : ∀ k n, n.children ≠ [] → (∀ c ∈ n.children, P k c) → P (k + 1) n)
    (k : ℕ) (n : Node) : P k n := by
  induction k generalizing n with
  | zero =>
      by_cases h : n.children = []
      · exact leaf 0 n h
      · exact zero n h
  | succ k ih =>
      by_cases h : n.children = []
      · exact leaf (k + 1) n h
      · exact succ k n h fun c _ => ih c

/-- A path goes on with lines below the node. -/
theorem sublist_of_mem_pathsOf {k : ℕ} {n : Node} {path p : List ℤ} (hp : p ∈ pathsOf k n path) :
    ∃ q, p = path ++ q ∧ q.Sublist (linesAll n.children) := by
  induction k, n using paths_induction generalizing path with
  | leaf k n h =>
      rw [pathsOf_leaf k h, List.mem_singleton] at hp
      exact ⟨[], by rw [hp, List.append_nil], List.nil_sublist _⟩
  | zero n h =>
      rw [pathsOf_zero h] at hp
      exact ⟨linesAll n.children, List.eq_of_mem_replicate hp, List.Sublist.refl _⟩
  | succ k n h ih =>
      rw [pathsOf_succ k h, List.mem_flatMap] at hp
      obtain ⟨c, hc, hp⟩ := hp
      obtain ⟨q, rfl, hq⟩ := ih c hc hp
      exact ⟨c.own ++ q, List.append_assoc _ _ _,
        (hq.append_left c.own).trans (sublist_linesAll hc)⟩

/-- Every line is in a path. -/
theorem exists_mem_pathsOf {k : ℕ} {n : Node} {path : List ℤ} {i : ℤ}
    (hi : i ∈ path ++ linesAll n.children) : ∃ p ∈ pathsOf k n path, i ∈ p := by
  induction k, n using paths_induction generalizing path with
  | leaf k n h =>
      rw [h, linesAll, List.append_nil] at hi
      rw [pathsOf_leaf k h]
      exact ⟨path, List.mem_singleton_self path, hi⟩
  | zero n h =>
      have hlength := List.length_pos_of_ne_nil h
      rw [pathsOf_zero h]
      exact ⟨_, List.mem_replicate.mpr ⟨by omega, rfl⟩, hi⟩
  | succ k n h ih =>
      have hbelow : ∃ c ∈ n.children, i ∈ (path ++ c.own) ++ linesAll c.children := by
        rcases List.mem_append.mp hi with hpath | hlines
        · obtain ⟨c, hc⟩ := List.exists_mem_of_ne_nil _ h
          exact ⟨c, hc, List.mem_append_left _ (List.mem_append_left _ hpath)⟩
        · rw [linesAll_eq_flatMap, List.mem_flatMap] at hlines
          obtain ⟨c, hc, hlines⟩ := hlines
          exact ⟨c, hc, by rw [List.append_assoc]; exact List.mem_append_right _ hlines⟩
      obtain ⟨c, hc, hic⟩ := hbelow
      obtain ⟨p, hp, hip⟩ := ih c hc hic
      rw [pathsOf_succ k h]
      exact ⟨p, List.mem_flatMap.mpr ⟨c, hc, hp⟩, hip⟩

theorem leafCount_pos (n : Node) : 0 < leafCount n := by
  induction n using child_induction with
  | mk level index texts children ih =>
      rw [leafCount]
      rcases children with _ | ⟨c, rest⟩
      · exact Nat.one_pos
      · have hc := ih c List.mem_cons_self
        rw [if_neg (by simp), leafCountAll]
        omega

/-- There are at most `k` levels below the node. -/
def Within : ℕ → Node → Prop
  | 0, n => n.children = []
  | k + 1, n => ∀ c ∈ n.children, Within k c

theorem within_of_leaf (k : ℕ) {n : Node} (h : n.children = []) : Within k n := by
  cases k with
  | zero => exact h
  | succ k =>
      rw [Within, h]
      exact List.forall_mem_nil _

/-- A path comes twice exactly if the lists are shared somewhere. -/
theorem nodup_pathsOf_iff {k : ℕ} {n : Node} (hlines : (linesAll n.children).Nodup)
    (path : List ℤ) : (pathsOf k n path).Nodup ↔ Within k n := by
  induction k, n using paths_induction generalizing path with
  | leaf k n h =>
      rw [pathsOf_leaf k h]
      exact iff_of_true (List.nodup_singleton path) (within_of_leaf k h)
  | zero n h =>
      refine iff_of_false ?_ h
      obtain ⟨c, rest, hchildren⟩ := List.exists_cons_of_ne_nil h
      have hc := leafCount_pos c
      rw [pathsOf_zero h, List.nodup_replicate, hchildren, leafCountAll, List.length_cons]
      omega
  | succ k n h ih =>
      have hdisjoint := hlines
      rw [linesAll_eq_flatMap, List.nodup_flatMap] at hdisjoint
      rw [pathsOf_succ k h, List.nodup_flatMap, Within, and_iff_left]
      · refine forall₂_congr fun c hc => ih c hc ?_ _
        exact hlines.sublist ((List.sublist_append_right _ _).trans (sublist_linesAll hc))
      · refine hdisjoint.2.imp fun {a b} hab p hpa hpb => ?_
        -- the paths of two children differ where their headings stand
        obtain ⟨q, hq, -⟩ := sublist_of_mem_pathsOf hpa
        obtain ⟨r, hr, -⟩ := sublist_of_mem_pathsOf hpb
        have heq := hq.symm.trans hr
        rw [List.append_assoc, List.append_assoc, List.append_cancel_left_eq, own_eq_cons,
          own_eq_cons, List.cons_append, List.cons_append, List.cons.injEq] at heq
        have ha : a.label.2 ∈ a.own ++ linesAll a.children := by simp [own_eq_cons]
        have hb : a.label.2 ∈ b.own ++ linesAll b.children := by simp [own_eq_cons, heq.1]
        exact hab ha hb

/-! ## The tree of a document -/

theorem linesAll_append (children rest : List Node) :
    linesAll (children ++ rest) = linesAll children ++ linesAll rest := by
  rw [linesAll_eq_flatMap, linesAll_eq_flatMap children, linesAll_eq_flatMap rest,
    List.flatMap_append]

/-- A heading goes behind all lines, and it may go one level deeper than the open ones. -/
theorem lines_addChild (m i : ℤ) (n : Node) :
    lines (n.atLast (fun b => m = b.level + 1) (addChild m i)) = lines n ++ [i] := by
  induction n using last_induction with
  | leaf level index texts =>
      rw [atLast_leaf]
      simp [addChild, lines, linesAll, label]
  | last level index texts children c ih =>
      rw [atLast_concat]
      split_ifs
      · simp [addChild, lines, linesAll_append, linesAll, label]
      · simp [lines, linesAll_append, linesAll, ih, label_atLast (label_addChild m i)]

theorem lines_addText (i : ℤ) (n : Node) :
    lines (n.atLast (fun _ => false) (addText i)) = lines n ++ [i] := by
  induction n using last_induction with
  | leaf level index texts =>
      rw [atLast_leaf]
      simp [addText, lines, linesAll]
  | last level index texts children c ih =>
      rw [atLast_concat, if_neg Bool.false_ne_true]
      simp [lines, linesAll_append, linesAll, ih, label_atLast (label_addText i)]

theorem within_addChild (m i : ℤ) (k : ℕ) (n : Node) :
    Within k (n.atLast (fun b => m = b.level + 1) (addChild m i)) ↔
      Within k n ∧ (spine (n.atLast (fun b => m = b.level + 1) (addChild m i))).length ≤ k + 1 := by
  induction n using last_induction generalizing k with
  | leaf level index texts =>
      rw [atLast_leaf]
      cases k with
      | zero => simp [addChild, Within, children, spine, spineLast]
      | succ k =>
          refine iff_of_true ?_ ⟨within_of_leaf _ rfl, ?_⟩
          · rw [Within]
            exact fun c hc => within_of_leaf k (by rw [List.mem_singleton.mp hc]; rfl)
          · simp [addChild, spine, spineLast]
  | last level index texts children c ih =>
      rw [atLast_concat]
      cases k with
      | zero => split_ifs <;> simp [addChild, Within, Node.children]
      | succ k =>
          split_ifs
          · have hspine : (spine (addChild m i (mk level index texts (children ++ [c])))).length =
                2 := by
              rw [addChild, spine, spineLast_concat]
              rfl
            have hnew := within_of_leaf k (n := mk m i [] []) rfl
            rw [hspine, and_iff_left (by omega)]
            simp [addChild, Within, Node.children, or_imp, forall_and, hnew]
          · simp [Within, Node.children, spine, spineLast_concat, or_imp, forall_and, ih, and_assoc]

theorem within_addText (i : ℤ) (k : ℕ) (n : Node) :
    Within k (n.atLast (fun _ => false) (addText i)) ↔ Within k n := by
  induction n using last_induction generalizing k with
  | leaf level index texts =>
      rw [atLast_leaf]
      exact iff_of_true (within_of_leaf k rfl) (within_of_leaf k rfl)
  | last level index texts children c ih =>
      rw [atLast_concat, if_neg Bool.false_ne_true]
      cases k with
      | zero => simp [Within, Node.children]
      | succ k => simp [Within, Node.children, or_imp, forall_and, ih]

end Node

/-- The lines of the tree are those of the document, and its depth is that of the open headings. -/
theorem lines_buildTree (levels : ℕ) (matchs : List ℕ) :
    lines (buildTree levels matchs) = (List.range matchs.length).map Nat.cast := by
  induction matchs using List.reverseRecOn with
  | nil => rfl
  | append_singleton matchs m ih =>
      rw [buildTree_concat, List.length_append, List.length_singleton, List.range_succ,
        List.map_append, ← ih]
      by_cases h : isHeading levels m
      · rw [addLine_of_heading (level_buildTree levels matchs) _ h, lines_addChild]
        rfl
      · rw [addLine_of_text _ _ h, lines_addText]
        rfl

theorem within_buildTree (levels : ℕ) (matchs : List ℕ) (k : ℕ) :
    Within k (buildTree levels matchs) ↔
      ∀ pre, pre <+: headings levels matchs → (openHeadings pre).length ≤ k + 1 := by
  induction matchs using List.reverseRecOn with
  | nil =>
      refine iff_of_true (within_of_leaf k rfl) fun pre hpre => ?_
      rw [List.prefix_nil.mp hpre]
      exact Nat.le_add_left 1 k
  | append_singleton matchs m ih =>
      have hspine := (buildTree_spec levels (matchs ++ [m])).1
      rw [buildTree_concat] at hspine ⊢
      rw [headings_concat] at hspine ⊢
      by_cases h : isHeading levels m
      · rw [addLine_of_heading (level_buildTree levels matchs) _ h] at hspine ⊢
        rw [if_pos h] at hspine ⊢
        rw [within_addChild, ih, hspine]
        simp only [List.prefix_concat_iff, or_imp, forall_and, forall_eq]
        exact and_comm
      · rw [addLine_of_text _ _ h, within_addText, if_neg h, List.append_nil, ih]

/-- What the walk collects below the root. -/
theorem pathsAll_spec (k : ℕ) {n : Node} (hlines : (linesAll n.children).Nodup) :
    (∀ p ∈ pathsAll k n.children [], p.Sublist (linesAll n.children)) ∧
      (∀ i ∈ linesAll n.children, ∃ p ∈ pathsAll k n.children [], i ∈ p) ∧
      ((pathsAll k n.children []).Nodup ↔ Within (k + 1) n) := by
  by_cases h : n.children = []
  · have hwithin := within_of_leaf (k + 1) h
    simp [h, pathsAll, linesAll, hwithin]
  · rw [pathsAll_eq_flatMap, ← pathsOf_succ k h]
    refine ⟨fun p hp => ?_, fun i hi => exists_mem_pathsOf hi, nodup_pathsOf_iff hlines []⟩
    obtain ⟨q, rfl, hq⟩ := sublist_of_mem_pathsOf hp
    exact hq

/-- Every line is in a chunk, no line is twice in a chunk or out of order, and no chunk comes
twice. -/
def RightChunks (count : ℕ) (paths : List (List ℤ)) : Prop :=
  (∀ i < count, ∃ path ∈ paths, (i : ℤ) ∈ path) ∧
    (∀ path ∈ paths, path.Nodup ∧ path.Pairwise (· < ·)) ∧ paths.Nodup

theorem rightChunks_iff {count : ℕ} {n : Node} {k : ℕ}
    (hlines : lines n = (List.range count).map Nat.cast) :
    RightChunks count ((if n.texts = [] then [] else [n.texts]) ++ pathsAll k n.children []) ↔
      Within (k + 1) n := by
  have hsplit : n.texts ++ linesAll n.children = (List.range count).map Nat.cast := by
    rw [← hlines]
    cases n
    rfl
  have hsorted : (n.texts ++ linesAll n.children).Pairwise (· < ·) := by
    rw [hsplit, List.pairwise_map]
    exact List.pairwise_lt_range.imp fun hlt => Int.ofNat_lt.mpr hlt
  have hnodup : (n.texts ++ linesAll n.children).Nodup := hsorted.imp fun hlt => hlt.ne
  have hdisjoint := List.disjoint_of_nodup_append hnodup
  obtain ⟨hsublist, hcover, hiff⟩ := pathsAll_spec k (List.nodup_append.mp hnodup).2.1
  have hright : ∀ path : List ℤ, path.Sublist (n.texts ++ linesAll n.children) →
      path.Nodup ∧ path.Pairwise (· < ·) :=
    fun path hpath => ⟨hnodup.sublist hpath, hsorted.sublist hpath⟩
  have htexts : ∀ path ∈ (if n.texts = [] then [] else [n.texts]), path = n.texts := by
    intro path hpath
    split_ifs at hpath
    · exact absurd hpath List.not_mem_nil
    · exact List.mem_singleton.mp hpath
  rw [RightChunks, ← hiff]
  refine ⟨fun h => (List.nodup_append.mp h.2.2).2.1, fun h => ⟨?_, ?_, ?_⟩⟩
  · intro i hi
    have hmem : (i : ℤ) ∈ n.texts ++ linesAll n.children := by
      rw [hsplit]
      exact List.mem_map_of_mem (List.mem_range.mpr hi)
    rcases List.mem_append.mp hmem with hi | hi
    · refine ⟨n.texts, List.mem_append_left _ ?_, hi⟩
      rw [if_neg (List.ne_nil_of_mem hi)]
      exact List.mem_singleton_self _
    · obtain ⟨path, hpath, hi⟩ := hcover _ hi
      exact ⟨path, List.mem_append_right _ hpath, hi⟩
  · refine List.forall_mem_append.mpr ⟨fun path hpath => hright path ?_, fun path hpath =>
      hright path ((hsublist path hpath).trans (List.sublist_append_right _ _))⟩
    rw [htexts path hpath]
    exact List.sublist_append_left _ _
  · refine List.nodup_append.mpr ⟨by split_ifs <;> simp, h, ?_⟩
    rintro path hpath _ hpath' rfl
    have hempty : n.texts ≠ [] := by
      intro hnil
      rw [if_pos hnil] at hpath
      exact List.not_mem_nil hpath
    -- the lines before the first heading are in no path
    obtain ⟨i, hi⟩ := List.exists_mem_of_ne_nil _ hempty
    refine hdisjoint hi ((hsublist path hpath').subset ?_)
    rwa [htexts path hpath]

/-- The chunks are right exactly if no more headings are ever open than lists are copied for. -/
theorem allPathes_rightChunks (levels : ℕ) (matchs : List ℕ) {hierarchy : ℕ}
    (h : 1 ≤ hierarchy) :
    RightChunks matchs.length (allPathes hierarchy (buildTree levels matchs)) ↔
      ∀ pre, pre <+: headings levels matchs → (openHeadings pre).length ≤ hierarchy + 1 := by
  obtain ⟨k, rfl⟩ := Nat.exists_eq_add_of_le' h
  rw [← within_buildTree, allPathes_eq h]
  exact rightChunks_iff (lines_buildTree levels matchs)

theorem allPathes_rightChunks_sibling :
    RightChunks 2 (allPathes 1 (buildTree 1 [0, 0])) ↔
      ∀ pre, pre <+: headings 1 [0, 0] → (openHeadings pre).length ≤ 1 + 1 :=
  allPathes_rightChunks 1 [0, 0] le_rfl

/-- A heading of the second level with one level copied: its chunk comes twice. -/
theorem not_rightChunks :
    ¬ ∀ (levels : ℕ) (matchs : List ℕ) (hierarchy : ℕ), 1 ≤ hierarchy →
      RightChunks matchs.length (allPathes hierarchy (buildTree levels matchs)) := by
  intro h
  have hnodup := (h 2 [0, 1] 1 le_rfl).2.2
  exact absurd hnodup (by decide)

end RagflowMineru.Flow
