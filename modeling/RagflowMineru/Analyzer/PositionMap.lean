import RagflowMineru.Analyzer.Lossless
import RagflowMineru.Library.SourceMap

/-!
# From the text that is tokenized back to the line

The line loses its characters that belong to no word, full-width characters become half-width,
and OpenCC converts the rest.  A table goes with every step, and the tables together give for
every byte of the text that is tokenized a byte of the line.
-/

namespace RagflowMineru.Analyzer

open Library

/-! ## The tables of the steps -/

section Replace

variable (isWord : Char → Bool)

/-- A character of a word, or all characters up to the next one. -/
def blocks (line : Text) : List Text := runs (fun first ch => !isWord first && !isWord ch) line

/-- `\W+` is replaced by a blank. -/
def replacement (block : Text) : Text := if block.any isWord then block else [' ']

def replaceNonWords (line : Text) : Text := (blocks isWord line).flatMap (replacement isWord)

/-- The positions of `PCRE2GlobalReplaceWithPosition`. -/
def replacePositions : ℕ → List Text → List ℕ
  | _, [] => []
  | pos, block :: bs =>
      (if block.any isWord then List.range' pos (size block) else [pos]) ++
        replacePositions (pos + size block) bs

end Replace

/-- `BuildPositionMapping`; `stop` is `original.size()`. -/
def buildPositionMapping (stop : ℕ) : ℕ → Text → Text → List ℕ
  | _, [], converted => List.replicate (size converted + 1) stop
  | _, _ :: _, [] => [stop]
  | origPos, o :: original, c :: converted =>
      List.replicate c.utf8Size origPos ++
        buildPositionMapping stop (origPos + o.utf8Size) original converted

/-- The text in half-width characters. -/
def halfWidth (isWord : Char → Bool) (line : Text) : Text := strQ2B (replaceNonWords isWord line)

/-- `final_pos_mapping` -/
def finalPosMapping (isWord : Char → Bool) (convert : Text → Text) (line : Text) : List ℕ :=
  let stop := size line
  let processedLine := replaceNonWords isWord line
  let str1 := halfWidth isWord line
  let strline := convert str1
  let pcre2PosMapping := replacePositions isWord 0 (blocks isWord line)
  let strq2bPosMapping := buildPositionMapping (size processedLine) 0 processedLine str1
  let openccPosMapping := buildPositionMapping (size str1) 0 str1 strline
  tabulate (lookup openccPosMapping stop (lookup strq2bPosMapping stop
    (lookup pcre2PosMapping stop id))) (size strline) stop

/-! ## Positions stay in order -/

section Order

variable {isWord : Char → Bool} {bs : List Text} {pos stop p : ℕ}

theorem of_mem_replacePositions (h : p ∈ replacePositions isWord pos bs) :
    pos ≤ p ∧ p ≤ pos + size bs.flatten := by
  induction bs generalizing pos with
  | nil => exact absurd h List.not_mem_nil
  | cons block bs ih =>
    rw [replacePositions] at h
    rw [List.flatten_cons, size_append]
    rcases List.mem_append.mp h with h | h
    · split at h
      · have hmem := List.mem_range'_1.mp h
        exact ⟨hmem.1, by omega⟩
      · rw [List.mem_singleton.mp h]
        exact ⟨le_rfl, Nat.le_add_right _ _⟩
    · obtain ⟨hlo, hhi⟩ := ih h
      exact ⟨by omega, by omega⟩

theorem replacePositions_pairwise : (replacePositions isWord pos bs).Pairwise (· ≤ ·) := by
  induction bs generalizing pos with
  | nil => exact List.Pairwise.nil
  | cons block bs ih =>
    rw [replacePositions]
    refine List.pairwise_append.mpr ⟨?_, ih, ?_⟩
    · split
      · exact (List.pairwise_lt_range').imp fun h => Nat.le_of_lt h
      · exact List.pairwise_singleton _ _
    · intro p hp q hq
      have hq := (of_mem_replacePositions hq).1
      split at hp
      · have hp := (List.mem_range'_1.mp hp).2
        omega
      · rw [List.mem_singleton.mp hp]
        omega

variable {original converted : Text}

theorem of_mem_buildPositionMapping (hstop : pos + size original ≤ stop)
    (h : p ∈ buildPositionMapping stop pos original converted) : pos ≤ p ∧ p ≤ stop := by
  induction original generalizing pos converted with
  | nil =>
    rw [buildPositionMapping] at h
    rw [(List.mem_replicate.mp h).2]
    exact ⟨by omega, le_rfl⟩
  | cons o original ih =>
    have hsize : size (o :: original) = o.utf8Size + size original := rfl
    cases converted with
    | nil =>
      rw [buildPositionMapping] at h
      rw [List.mem_singleton.mp h]
      exact ⟨by omega, le_rfl⟩
    | cons c converted =>
      rw [buildPositionMapping] at h
      rcases List.mem_append.mp h with h | h
      · rw [(List.mem_replicate.mp h).2]
        exact ⟨le_rfl, by omega⟩
      · obtain ⟨hlo, hhi⟩ := ih (by omega) h
        exact ⟨by omega, hhi⟩

theorem buildPositionMapping_pairwise (hstop : pos + size original ≤ stop) :
    (buildPositionMapping stop pos original converted).Pairwise (· ≤ ·) := by
  induction original generalizing pos converted with
  | nil =>
    rw [buildPositionMapping]
    exact List.pairwise_replicate.mpr (.inr le_rfl)
  | cons o original ih =>
    have hsize : size (o :: original) = o.utf8Size + size original := rfl
    cases converted with
    | nil =>
      rw [buildPositionMapping]
      exact List.pairwise_singleton _ _
    | cons c converted =>
      rw [buildPositionMapping]
      refine List.pairwise_append.mpr ⟨List.pairwise_replicate.mpr (.inr le_rfl),
        ih (by omega), ?_⟩
      intro p hp q hq
      have hq := (of_mem_buildPositionMapping (by omega) hq).1
      rw [(List.mem_replicate.mp hp).2]
      omega

theorem flatten_blocks (isWord : Char → Bool) (line : Text) : (blocks isWord line).flatten = line :=
  flatten_runs line

/-- The table never turns back, and never leaves the line. -/
theorem finalPosMapping_covers (isWord : Char → Bool) (convert : Text → Text) (line : Text) :
    Covers (finalPosMapping isWord convert line) (size (convert (halfWidth isWord line)))
      (size line) := by
  have hpcre : ∀ p ∈ replacePositions isWord 0 (blocks isWord line), id p ≤ size line := by
    intro p hp
    have hle := (of_mem_replacePositions hp).2
    rwa [flatten_blocks, Nat.zero_add] at hle
  have hlook := lookup_mono replacePositions_pairwise monotone_id hpcre
  have hsorted : (buildPositionMapping (size (replaceNonWords isWord line)) 0
      (replaceNonWords isWord line) (halfWidth isWord line)).Pairwise (· ≤ ·) :=
    buildPositionMapping_pairwise (Nat.zero_add _).le
  have hlook' := lookup_mono hsorted hlook fun p _ => lookup_le hpcre p
  have hle' : ∀ p, lookup (buildPositionMapping (size (replaceNonWords isWord line)) 0
      (replaceNonWords isWord line) (halfWidth isWord line)) (size line)
      (lookup (replacePositions isWord 0 (blocks isWord line)) (size line) id) p ≤ size line :=
    lookup_le fun p _ => lookup_le hpcre p
  refine covers_tabulate ?_ ?_
  · exact lookup_mono (buildPositionMapping_pairwise (Nat.zero_add _).le) hlook'
      fun p _ => hle' p
  · exact lookup_le fun p _ => hle' p

end Order

end RagflowMineru.Analyzer
