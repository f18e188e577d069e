import RagflowMineru.Library.FileTree

/-!
# Unpacking the archive of the MinerU service

`_extract_zip_no_root` writes the members of an archive below a directory,
without the root folder of the archive.  A name is first freed of the root
folder and only then checked, so that a name that becomes absolute by this is
refused too; what is checked at the end is the resolved path.  Paths are those of
POSIX.
-/

namespace RagflowMineru.MinerU

open RagflowMineru.Library

/-- A `ZipInfo`, and whether `ZipFile.open` can read the member. -/
structure ZipMember where
  filename : List Char
  flagBits : ℕ := 0
  externalAttr : ℕ := 0
  readable : Bool := true

/-- `_is_zipinfo_symlink`. -/
def isZipinfoSymlink (member : ZipMember) : Bool :=
  (member.externalAttr >>> 16) &&& 0o170000 = 0o120000

/-- `ZipInfo.is_dir`. -/
def ZipMember.isDir (member : ZipMember) : Bool := ['/'].isSuffixOf member.filename

/-- `s.replace("\\", "/")`. -/
def slashes (s : List Char) : List Char := s.map fun c => if c = '\\' then '/' else c

/-- The root folder: the hint, or the first member if that is a folder. -/
def rootDir (hint : Option (List Char)) (members : List ZipMember) : Option (List Char) :=
  let root :=
    match hint with
    | some (c :: cs) => some (c :: cs)
    | _ => (members.head?.filter ZipMember.isDir).map ZipMember.filename
  root.map fun r =>
    let r := slashes r
    if ['/'].isSuffixOf r then r else r ++ ['/']

/-- The name of a member without the root folder; `none` for the root folder itself and for a
name of which nothing is left. -/
def strippedName (root : Option (List Char)) (filename : List Char) : Option (List Char) :=
  let name := slashes filename
  let stripped :=
    match root with
    | some r =>
        if name = r then none
        else if r <+: name then some (name.drop r.length)
        else some name
    | none => some name
  stripped.filter fun name => name ≠ []

/-- `re.match(r"^[A-Za-z]:", name)`. -/
def hasDrive : List Char → Bool
  | c :: ':' :: _ => c.isAlpha
  | _ => false

/-- `[p for p in name.split("/") if p not in ("", ".")]`. -/
def nameParts (name : List Char) : List String :=
  ((name.splitOn '/').filter fun p => p ≠ [] ∧ p ≠ ['.']).map String.ofList

/-- Create the directory or the file of a member. -/
def placeMember (t : FileTree) (member : ZipMember) (destPath : Path) : FileTree × Option String :=
  if member.isDir then t.makeDirs destPath
  else
    match t.makeDirs destPath.dropLast with
    | (t, some message) => (t, some message)
    | (t, none) =>
        if member.readable then t.writeFile destPath
        else (t, some "Bad zip member")

/-- The body of the loop for one member below the target directory. -/
def extractMember (extractTo baseDir : Path) (root : Option (List Char)) (t : FileTree)
    (member : ZipMember) : FileTree × Option String :=
  if member.flagBits &&& 1 ≠ 0 then
    (t, some ("[MinerU] Encrypted zip entry not supported: " ++ String.ofList member.filename))
  else if isZipinfoSymlink member then
    (t, some ("[MinerU] Symlink zip entry not supported: " ++ String.ofList member.filename))
  else
    match strippedName root member.filename with
    | none => (t, none)
    | some name =>
        if ['/'] <+: name ∨ ['/', '/'] <+: name ∨ hasDrive name then
          (t, some ("[MinerU] Unsafe zip path (absolute): " ++ String.ofList member.filename))
        else if ".." ∈ nameParts name then
          (t, some ("[MinerU] Unsafe zip path (traversal): " ++ String.ofList member.filename))
        else
          let destPath := t.resolve [] (extractTo ++ nameParts name)
          if destPath ≠ baseDir ∧ ¬ (baseDir <+: destPath ∧ baseDir ≠ destPath) then
            (t, some ("[MinerU] Unsafe zip path (escape): " ++ String.ofList member.filename))
          else placeMember t member destPath

/-- The loop over the members; it ends at the first exception. -/
def extractMembers (extractTo baseDir : Path) (root : Option (List Char)) :
    FileTree → List ZipMember → FileTree × Option String
  | t, [] => (t, none)
  | t, member :: members =>
      match extractMember extractTo baseDir root t member with
      | (t, some message) => (t, some message)
      | (t, none) => extractMembers extractTo baseDir root t members

/-- `_extract_zip_no_root`, with the tree it leaves behind and the exception it raised, if it
raised one. -/
def extractZipNoRoot (t : FileTree) (members : List ZipMember) (extractTo : Path)
    (hint : Option (List Char)) : FileTree × Option String :=
  extractMembers extractTo (t.resolve [] extractTo) (rootDir hint members) t members

/-! ## Staying inside -/

section Confined

variable {base extractTo : Path} {t : FileTree}

/-- What passes the last check is the base or lies below it. -/
theorem below_of_not_escape {p : Path} (h : ¬ (p ≠ base ∧ ¬ (base <+: p ∧ base ≠ p))) :
    base <+: p := by
  by_cases heq : p = base
  · rw [heq]
  · by_contra hnot
    exact h ⟨heq, fun hin => hnot hin.1⟩

theorem confined_placeMember (h : t.Confined base) (member : ZipMember) {p : Path}
    (hp : base <+: p) : (placeMember t member p).1.Confined base := by
  have habove := List.prefix_or_prefix_of_prefix (List.dropLast_prefix p) hp
  have hmade := h.makeDirs habove
  rw [placeMember]
  by_cases hdir : member.isDir = true
  · rw [if_pos hdir]
    exact h.makeDirs (Or.inr hp)
  · rw [if_neg hdir]
    rcases hmake : t.makeDirs p.dropLast with ⟨t', - | message⟩
    · rw [hmake] at hmade
      simp only
      split_ifs
      · exact FileTree.Confined.writeFile hmade hp
      · exact hmade
    · rw [hmake] at hmade
      exact hmade

/-- Whatever a member is called, it is written below the base. -/
theorem confined_extractMember (h : t.Confined base) (root : Option (List Char))
    (member : ZipMember) : (extractMember extractTo base root t member).1.Confined base := by
  rw [extractMember]
  split
  · exact h
  split
  · exact h
  rcases strippedName root member.filename with - | name
  · exact h
  simp only
  split_ifs with _ _ hescape
  · exact h
  · exact h
  · exact h
  · exact confined_placeMember h member (below_of_not_escape hescape)

theorem confined_extractMembers (h : t.Confined base) (root : Option (List Char))
    (members : List ZipMember) :
    (extractMembers extractTo base root t members).1.Confined base := by
  induction members generalizing t with
  | nil => exact h
  | cons member members ih =>
      have hstep := @confined_extractMember base extractTo t h root member
      rw [extractMembers]
      rcases hmember : extractMember extractTo base root t member with ⟨t', - | message⟩
      · rw [hmember] at hstep
        exact ih hstep
      · rw [hmember] at hstep
        exact hstep

/-- A member with plain names in it goes to the path below the base that it spells. -/
theorem resolve_nameParts (h : t.Confined (t.resolve [] extractTo)) {name : List Char}
    (hname : ".." ∉ nameParts name) :
    t.resolve [] (extractTo ++ nameParts name) = t.resolve [] extractTo ++ nameParts name := by
  rw [FileTree.resolve_append]
  exact h.resolve (List.prefix_refl _) hname

end Confined

/-- For all archives and all root hints: if the target directory exists and has no links below
it, then every path that the extraction creates or writes, whether or not it ends with an
exception, is the directory or lies below it. -/
theorem extractZipNoRoot_below (t : FileTree) (members : List ZipMember) (extractTo : Path)
    (hint : Option (List Char)) (hnew : t.touched = [])
    (hdir : ∀ p, p <+: t.resolve [] extractTo → t.node p = some .dir)
    (hlinks : ∀ p, t.resolve [] extractTo <+: p → ∀ target, t.node p ≠ some (.link target)) :
    ∀ p ∈ (extractZipNoRoot t members extractTo hint).1.touched,
      t.resolve [] extractTo <+: p := by
  have hstart : t.Confined (t.resolve [] extractTo) := by
    refine ⟨hdir, hlinks, ?_⟩
    intro p hp
    rw [hnew] at hp
    exact absurd hp List.not_mem_nil
  exact (confined_extractMembers hstart (rootDir hint members) members).touched_below

/-- A fresh output directory, reached through a link. -/
def outputTree : FileTree where
  nodes := [(["tmp"], .dir), (["tmp", "mineru"], .dir), (["tmp", "mineru", "a_auto"], .dir),
    (["out"], .link ["tmp", "mineru"])]

/-- An archive with a root folder, and a member that tries to leave it. -/
def outputMembers : List ZipMember :=
  [{ filename := "a/".toList }, { filename := "a/images/".toList },
    { filename := "a/images\\1.jpg".toList }, { filename := "a/a.md".toList },
    { filename := "a//etc/passwd".toList }]

theorem extractZipNoRoot_outputTree :
    (∀ p ∈ (extractZipNoRoot outputTree outputMembers ["out", "a_auto"] (some "a/".toList)).1.touched,
        outputTree.resolve [] ["out", "a_auto"] <+: p) ∧
      (extractZipNoRoot outputTree outputMembers ["out", "a_auto"] (some "a/".toList)).1.touched =
        [["tmp", "mineru", "a_auto", "images"], ["tmp", "mineru", "a_auto", "images", "1.jpg"],
          ["tmp", "mineru", "a_auto", "a.md"]] ∧
      (extractZipNoRoot outputTree outputMembers ["out", "a_auto"] (some "a/".toList)).2 =
        some "[MinerU] Unsafe zip path (absolute): a//etc/passwd" := by
  have hbase : outputTree.resolve [] ["out", "a_auto"] = ["tmp", "mineru", "a_auto"] := by
    decide +kernel
  refine ⟨extractZipNoRoot_below outputTree outputMembers ["out", "a_auto"] _ rfl ?_ ?_,
    by decide +kernel, by decide +kernel⟩
  · intro p hp
    rw [hbase, ← List.mem_inits] at hp
    simp only [List.inits, List.map_cons, List.map_nil, List.mem_cons, List.not_mem_nil,
      or_false] at hp
    rcases hp with rfl | rfl | rfl | rfl
    all_goals decide +kernel
  · intro p hp target hnode
    have hne : p ≠ [] := by
      rintro rfl
      rw [hbase] at hp
      exact absurd hp (by decide)
    rw [FileTree.node, if_neg hne] at hnode
    have hmem := Assoc.mem_of_get? hnode
    obtain ⟨rfl, -⟩ : p = ["out"] ∧ target = ["tmp", "mineru"] := by
      simpa [outputTree] using hmem
    rw [hbase] at hp
    exact absurd hp (by decide)

end RagflowMineru.MinerU
