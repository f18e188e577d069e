import RagflowMineru.Library.Assoc
import Mathlib.Data.List.Infix

/-!
# A tree of files

Paths are absolute and given by their names from the root on.  A symbolic link
is stored with the path it leads to in the end.  Every operation appends the
paths that it creates or writes to a log, also when it stops with an error, so
that one can say of a whole run what it has touched.
-/

namespace RagflowMineru.Library

abbrev Path := List String

inductive Node where
  | dir
  | file
  | link (target : Path)
  deriving DecidableEq

/-- A file tree and the log of what has been created or written. -/
structure FileTree where
  nodes : Assoc Path Node
  touched : List Path := []
  deriving DecidableEq

namespace FileTree

/-- What stands at a path; the root is a directory. -/
def node (t : FileTree) (p : Path) : Option Node :=
  if p = [] then some .dir else Assoc.get? p t.nodes

/-- Whether a path is a directory, or a link to one. -/
def isDir (t : FileTree) (p : Path) : Bool :=
  match t.node p with
  | some .dir => true
  | some (.link target) => t.node target = some .dir
  | _ => false

/-- Put a new node at a path. -/
def create (t : FileTree) (p : Path) (n : Node) : FileTree where
  nodes := Assoc.set p n t.nodes
  touched := t.touched ++ [p]

/-- The canonical path of `names`, walked from `cur` on; names that do not exist are kept. -/
def resolve (t : FileTree) : Path → List String → Path
  | cur, [] => cur
  | cur, name :: names =>
      if name = ".." then resolve t cur.dropLast names
      else
        match t.node (cur ++ [name]) with
        | some (.link target) => resolve t target names
        | _ => resolve t (cur ++ [name]) names

/-- Create the missing directories among `paths`, in this order. -/
def makeDirsAt (t : FileTree) : List Path → FileTree × Option String
  | [] => (t, none)
  | p :: paths =>
      if t.isDir p then makeDirsAt t paths
      else
        match t.node p with
        | none => makeDirsAt (t.create p .dir) paths
        | some _ => (t, some "not a directory")

/-- Create a directory and the missing directories above it. -/
def makeDirs (t : FileTree) (p : Path) : FileTree × Option String :=
  t.makeDirsAt ((List.range p.length).map fun k => p.take (k + 1))

/-- Open a file for writing, through a link if there is one. -/
def writeFile (t : FileTree) (p : Path) : FileTree × Option String :=
  if t.isDir p then (t, some "is a directory")
  else if !t.isDir p.dropLast then (t, some "no such directory")
  else
    match t.node p with
    | none => (t.create p .file, none)
    | some (.link target) => ({ t with touched := t.touched ++ [target] }, none)
    | some _ => ({ t with touched := t.touched ++ [p] }, none)

/-! ## Staying below a directory -/

/-- The directory `base` exists, there are no links below it, and nothing outside of it has been
touched. -/
structure Confined (base : Path) (t : FileTree) : Prop where
  exists_base : ∀ p, p <+: base → t.node p = some .dir
  no_link : ∀ p, base <+: p → ∀ target, t.node p ≠ some (.link target)
  touched_below : ∀ p ∈ t.touched, base <+: p

variable {base : Path} {t : FileTree}

theorem node_create (t : FileTree) (p : Path) (n : Node) (q : Path) :
    (t.create p n).node q = if q = [] then some .dir else if q = p then some n else t.node q := by
  by_cases hq : q = []
  · simp [node, hq]
  · by_cases hp : q = p
    · subst q
      simp [node, create, hq]
    · simp [node, create, hq, hp, Assoc.get?_set_of_ne hp]

/-- Something new below the base that is not a link does no harm. -/
theorem Confined.create (h : Confined base t) {p : Path} (hp : base <+: p)
    (hnew : t.node p = none) {n : Node} (hn : ∀ target, n ≠ .link target) :
    Confined base (t.create p n) where
  exists_base q hq := by
    have hold := h.exists_base q hq
    have hne : q ≠ p := by
      rintro rfl
      rw [hnew] at hold
      cases hold
    rw [node_create, if_neg hne, hold, ite_self]
  no_link q hq target := by
    rw [node_create]
    split_ifs with hroot hsame
    · simp
    · simpa using hn target
    · exact h.no_link q hq target
  touched_below q hq := by
    rcases List.mem_append.mp hq with hold | hnew
    · exact h.touched_below q hold
    · rwa [List.mem_singleton.mp hnew]

/-- Writing to a path below the base does no harm. -/
theorem Confined.touch (h : Confined base t) {p : Path} (hp : base <+: p) :
    Confined base { t with touched := t.touched ++ [p] } where
  exists_base := h.exists_base
  no_link := h.no_link
  touched_below q hq := by
    rcases List.mem_append.mp hq with hold | hnew
    · exact h.touched_below q hold
    · rwa [List.mem_singleton.mp hnew]

/-- Directories are made below the base or are there already. -/
theorem Confined.makeDirsAt (h : Confined base t) {paths : List Path}
    (hpaths : ∀ p ∈ paths, p <+: base ∨ base <+: p) : Confined base (t.makeDirsAt paths).1 := by
  induction paths generalizing t with
  | nil => exact h
  | cons p paths ih =>
      have hrest := fun q hq => hpaths q (List.mem_cons_of_mem p hq)
      rw [FileTree.makeDirsAt]
      split_ifs with hdir
      · exact ih h hrest
      · split
        · rename_i hnew
          have hbelow : base <+: p := by
            refine (hpaths p List.mem_cons_self).resolve_left ?_
            intro habove
            rw [h.exists_base p habove] at hnew
            cases hnew
          exact ih (h.create hbelow hnew (by simp)) hrest
        · exact h

theorem Confined.makeDirs (h : Confined base t) {p : Path} (hp : p <+: base ∨ base <+: p) :
    Confined base (t.makeDirs p).1 := by
  apply h.makeDirsAt
  intro q hq
  obtain ⟨k, -, rfl⟩ := List.mem_map.mp hq
  have htake : p.take (k + 1) <+: p := List.take_prefix _ p
  rcases hp with habove | hbelow
  · exact Or.inl (htake.trans habove)
  · exact List.prefix_or_prefix_of_prefix htake hbelow

theorem Confined.writeFile (h : Confined base t) {p : Path} (hp : base <+: p) :
    Confined base (t.writeFile p).1 := by
  rw [FileTree.writeFile]
  split_ifs with hdir hparent
  · exact h
  · exact h
  · split
    · rename_i hnew
      exact h.create hp hnew (by simp)
    · rename_i target hlink
      exact absurd hlink (h.no_link p hp target)
    · exact h.touch hp

/-- Plain names below the base lead to the path that they spell. -/
theorem Confined.resolve (h : Confined base t) {cur : Path} (hcur : base <+: cur)
    {names : List String} (hnames : ".." ∉ names) : t.resolve cur names = cur ++ names := by
  induction names generalizing cur with
  | nil => simp [FileTree.resolve]
  | cons name names ih =>
      have hname : name ≠ ".." := fun heq => hnames (heq ▸ List.mem_cons_self)
      have hrest : ".." ∉ names := fun hmem => hnames (List.mem_cons_of_mem name hmem)
      have hnext : base <+: cur ++ [name] := hcur.trans (List.prefix_append cur [name])
      rw [FileTree.resolve, if_neg hname]
      split
      · rename_i target hlink
        exact absurd hlink (h.no_link _ hnext target)
      · rw [ih hnext hrest, List.append_assoc, List.singleton_append]

theorem resolve_append (t : FileTree) (cur : Path) (names names' : List String) :
    t.resolve cur (names ++ names') = t.resolve (t.resolve cur names) names' := by
  induction names generalizing cur with
  | nil => rfl
  | cons name names ih =>
      rw [List.cons_append, FileTree.resolve, FileTree.resolve]
      split_ifs with hname
      · exact ih _
      · split
        · exact ih _
        · exact ih _

end FileTree

end RagflowMineru.Library
