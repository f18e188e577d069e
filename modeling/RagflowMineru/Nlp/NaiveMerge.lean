import RagflowMineru.Nlp.Delimiters
import RagflowMineru.Nlp.TreeMerge
import Mathlib.Data.Rat.Floor

/-!
# Merging sections by their tokens

`naive_merge` appends sections to the last chunk until it has more tokens than
allowed; the next chunk then may begin with the end of the last one.  The position
tag of a section of some length is appended unless the chunk has it already.  With
delimiters of the user, every part of a section is a chunk instead.
-/

namespace RagflowMineru.Nlp

attribute [local instance] MinerU.lawfulBEq_letters

structure Chunk where
  text : Text
  tokens : ℕ

/-- `cks` and `tk_nums`, with the last entry of each apart. -/
structure Merging where
  done : List Chunk := []
  last : Chunk := ⟨[], 0⟩

def Merging.cks (st : Merging) : List Text :=
  (st.done ++ [st.last]).map Chunk.text

/-- `chunk_token_num * (100 - overlapped_percent) / 100.` -/
def tokenLimit (chunkTokenNum : ℤ) (overlappedPercent : ℚ) : ℚ :=
  chunkTokenNum * (100 - overlappedPercent) / 100

/-- `int` -/
def truncate (q : ℚ) : ℤ :=
  if 0 ≤ q then ⌊q⌋ else ⌈q⌉

/-- `l[k:]` -/
def pyDrop {α : Type*} (l : List α) (k : ℤ) : List α :=
  if 0 ≤ k then l.drop k.toNat else l.drop (l.length + k).toNat

/-- The end of a chunk with which the next one begins. -/
def overlapOf (overlappedPercent : ℚ) (prev : Text) : Text :=
  let overlapped := removeTag prev
  pyDrop overlapped (truncate (overlapped.length * (100 - overlappedPercent) / 100))

/-- `if chunk.find(pos) < 0: t += pos` -/
def withTag (chunk t pos : Text) : Text :=
  if pos <:+: chunk then t else t ++ pos

def addChunk (numTokens : Text → ℕ) (chunkTokenNum : ℤ) (overlappedPercent : ℚ) (st : Merging)
    (t pos : Text) : Merging :=
  let tnum := numTokens t
  let pos := if tnum < 8 then [] else pos
  if st.last.text = [] ∨ tokenLimit chunkTokenNum overlappedPercent < st.last.tokens then
    let t := overlapOf overlappedPercent st.last.text ++ t
    ⟨st.done ++ [st.last], ⟨withTag t t pos, tnum⟩⟩
  else
    ⟨st.done, ⟨st.last.text ++ withTag st.last.text t pos, st.last.tokens + tnum⟩⟩

/-- The chunks of a section with delimiters of the user. -/
def customChunks (numTokens : Text → ℕ) (delims : List Text) (sec : Text × Text) : List Text :=
  ((splitKeeping delims sec.1).filter (· ∉ delims)).map fun subSec =>
    let text := '\n' :: subSec
    let localPos := if numTokens text < 8 then [] else sec.2
    withTag text text localPos

/-- A position that is missing or `None` is an empty one here. -/
def naiveMerge (numTokens : Text → ℕ) (sections : Sections) (chunkTokenNum : ℤ) (delimiter : Text)
    (overlappedPercent : ℚ) : List Text :=
  if sections.toTuples = [] then []
  else if customDelimiters delimiter = [] then
    (sections.toTuples.foldl (fun st sec =>
      addChunk numTokens chunkTokenNum overlappedPercent st ('\n' :: sec.1) sec.2) {}).cks
  else sections.toTuples.flatMap (customChunks numTokens (customDelimiters delimiter))

/-! ## The sections of a chunk -/

/-- The tokens of a section, as they are counted. -/
def sectionTokens (numTokens : Text → ℕ) (sec : Text × Text) : ℕ :=
  numTokens ('\n' :: sec.1)

/-- A section in a chunk, with its position tag if it was appended. -/
structure Piece where
  sec : Text × Text
  tagged : Bool

/-- What the section is without the tag. -/
def Piece.untagged (p : Piece) : Text :=
  '\n' :: p.sec.1

def Piece.text (p : Piece) : Text :=
  p.untagged ++ if p.tagged then p.sec.2 else []

def Piece.tokens (numTokens : Text → ℕ) (p : Piece) : ℕ :=
  sectionTokens numTokens p.sec

/-- A chunk of some sections, after the overlap with the chunk before. -/
structure ChunkOf (numTokens : Text → ℕ) (limit : ℚ) (overlap : Text) (c : Chunk)
    (group : List Piece) : Prop where
  text_eq : c.text = overlap ++ group.flatMap Piece.text
  ne_nil : group ≠ []
  tokens_eq : c.tokens = (group.map (Piece.tokens numTokens)).sum
  bound : group.dropLast ≠ [] →
    (((group.dropLast.map (Piece.tokens numTokens)).sum : ℕ) : ℚ) ≤ limit
  tags : ∀ p ∈ group, 8 ≤ p.tokens numTokens → p.sec.2 <:+: c.text

/-- The chunks so far and the sections in each, of which there are none in the leading one. -/
inductive Merges (numTokens : Text → ℕ) (limit overlappedPercent : ℚ) :
    List Chunk → Chunk → List (List Piece) → List Piece → Prop
  | start : Merges numTokens limit overlappedPercent [] ⟨[], 0⟩ [] []
  | next {done : List Chunk} {last c : Chunk} {groups : List (List Piece)} {group new : List Piece}
      (h : Merges numTokens limit overlappedPercent done last groups group)
      (hc : ChunkOf numTokens limit (overlapOf overlappedPercent last.text) c new) :
      Merges numTokens limit overlappedPercent (done ++ [last]) c (groups ++ [group]) new

theorem Merges.length_eq {numTokens : Text → ℕ} {limit overlappedPercent : ℚ}
    {done : List Chunk} {last : Chunk} {groups : List (List Piece)} {group : List Piece}
    (h : Merges numTokens limit overlappedPercent done last groups group) :
    done.length = groups.length := by
  induction h with
  | start => rfl
  | next _ _ ih => simp [ih]

/-- The section as it is added to a chunk. -/
def pieceIn (numTokens : Text → ℕ) (chunk : Text) (sec : Text × Text) : Piece :=
  ⟨sec, 8 ≤ sectionTokens numTokens sec && !(sec.2 <:+: chunk : Bool)⟩

section Steps

variable {numTokens : Text → ℕ} {chunkTokenNum : ℤ} {limit overlappedPercent : ℚ}

theorem withTag_eq (chunk t : Text) (sec : Text × Text) :
    withTag chunk t (if numTokens ('\n' :: sec.1) < 8 then [] else sec.2) =
      t ++ if (pieceIn numTokens chunk sec).tagged then sec.2 else [] := by
  unfold withTag pieceIn sectionTokens
  by_cases hshort : numTokens ('\n' :: sec.1) < 8
  · have hlong : ¬ 8 ≤ numTokens ('\n' :: sec.1) := by omega
    simp [hshort, hlong]
  · have hlong : 8 ≤ numTokens ('\n' :: sec.1) := by omega
    rw [if_neg hshort]
    by_cases htag : sec.2 <:+: chunk
    · simp [htag]
    · simp [htag, hlong]

/-- A section that is long enough finds its tag in the chunk or brings it. -/
theorem infix_withTag {pre chunk t : Text} (hchunk : chunk <:+: pre ++ t) {sec : Text × Text}
    (hlong : 8 ≤ sectionTokens numTokens sec) :
    sec.2 <:+: pre ++ withTag chunk t (if numTokens ('\n' :: sec.1) < 8 then [] else sec.2) := by
  have hnot : ¬ numTokens ('\n' :: sec.1) < 8 := not_lt.mpr hlong
  rw [if_neg hnot, withTag]
  split_ifs with htag
  · exact htag.trans hchunk
  · rw [← List.append_assoc]
    exact (List.suffix_append _ _).isInfix

theorem chunkOf_single (overlap : Text) (sec : Text × Text) :
    let t := overlap ++ '\n' :: sec.1
    ChunkOf numTokens limit overlap
      ⟨withTag t t (if numTokens ('\n' :: sec.1) < 8 then [] else sec.2),
        numTokens ('\n' :: sec.1)⟩ [pieceIn numTokens t sec] where
  text_eq := by
    rw [withTag_eq, List.flatMap_singleton, List.append_assoc]
    rfl
  ne_nil := List.cons_ne_nil _ _
  tokens_eq := by simp [Piece.tokens, pieceIn, sectionTokens]
  bound h := absurd rfl h
  tags p hp hlong := by
    obtain rfl := List.mem_singleton.mp hp
    exact @infix_withTag numTokens [] _ _ (List.infix_refl _) sec hlong

theorem ChunkOf.extend {overlap : Text} {c : Chunk} {group : List Piece}
    (h : ChunkOf numTokens limit overlap c group) (hroom : (c.tokens : ℚ) ≤ limit)
    (sec : Text × Text) :
    ChunkOf numTokens limit overlap
      ⟨c.text ++ withTag c.text ('\n' :: sec.1)
        (if numTokens ('\n' :: sec.1) < 8 then [] else sec.2),
        c.tokens + numTokens ('\n' :: sec.1)⟩ (group ++ [pieceIn numTokens c.text sec]) where
  text_eq := by
    rw [withTag_eq, h.text_eq, List.flatMap_append, List.flatMap_singleton, List.append_assoc]
    rfl
  ne_nil := by simp
  tokens_eq := by
    rw [List.map_append, List.sum_append, ← h.tokens_eq]
    simp [Piece.tokens, pieceIn, sectionTokens]
  bound _ := by
    rw [List.dropLast_concat, ← h.tokens_eq]
    exact hroom
  tags p hp hlong := by
    dsimp only
    rcases List.mem_append.mp hp with hp | hp
    · exact (h.tags p hp hlong).trans (List.prefix_append _ _).isInfix
    · obtain rfl := List.mem_singleton.mp hp
      exact infix_withTag (List.prefix_append _ _).isInfix hlong

/-- When a new chunk is opened: the last one is empty, or has too many tokens. -/
def Merging.Full (st : Merging) (limit : ℚ) : Prop :=
  st.last.text = [] ∨ limit < st.last.tokens

theorem addChunk_eq_of_full {st : Merging}
    (hfull : st.Full (tokenLimit chunkTokenNum overlappedPercent)) (t pos : Text) :
    addChunk numTokens chunkTokenNum overlappedPercent st t pos =
      ⟨st.done ++ [st.last],
        ⟨withTag (overlapOf overlappedPercent st.last.text ++ t)
          (overlapOf overlappedPercent st.last.text ++ t)
          (if numTokens t < 8 then [] else pos), numTokens t⟩⟩ :=
  if_pos hfull

theorem addChunk_eq_of_not_full {st : Merging}
    (hfull : ¬ st.Full (tokenLimit chunkTokenNum overlappedPercent)) (t pos : Text) :
    addChunk numTokens chunkTokenNum overlappedPercent st t pos =
      ⟨st.done, ⟨st.last.text ++ withTag st.last.text t (if numTokens t < 8 then [] else pos),
        st.last.tokens + numTokens t⟩⟩ :=
  if_neg hfull

theorem addChunk_of_full {st : Merging}
    (hfull : st.Full (tokenLimit chunkTokenNum overlappedPercent)) {groups : List (List Piece)}
    {group : List Piece}
    (h : Merges numTokens (tokenLimit chunkTokenNum overlappedPercent) overlappedPercent
      st.done st.last groups group) (sec : Text × Text) :
    let st' := addChunk numTokens chunkTokenNum overlappedPercent st ('\n' :: sec.1) sec.2
    Merges numTokens (tokenLimit chunkTokenNum overlappedPercent) overlappedPercent st'.done
      st'.last (groups ++ [group])
      [pieceIn numTokens (overlapOf overlappedPercent st.last.text ++ '\n' :: sec.1) sec] := by
  intro st'
  have hst : st' = _ := addChunk_eq_of_full hfull _ _
  rw [hst]
  exact h.next (chunkOf_single (overlapOf overlappedPercent st.last.text) sec)

theorem addChunk_of_not_full {st : Merging}
    (hfull : ¬ st.Full (tokenLimit chunkTokenNum overlappedPercent)) {groups : List (List Piece)}
    {group : List Piece}
    (h : Merges numTokens (tokenLimit chunkTokenNum overlappedPercent) overlappedPercent
      st.done st.last groups group) (sec : Text × Text) :
    let st' := addChunk numTokens chunkTokenNum overlappedPercent st ('\n' :: sec.1) sec.2
    Merges numTokens (tokenLimit chunkTokenNum overlappedPercent) overlappedPercent st'.done
      st'.last groups (group ++ [pieceIn numTokens st.last.text sec]) := by
  intro st'
  have hst : st' = _ := addChunk_eq_of_not_full hfull _ _
  obtain ⟨hne, hroom⟩ := not_or.mp hfull
  rw [hst]
  clear st' hst
  rcases st with ⟨done, last⟩
  cases h with
  | start => exact absurd rfl hne
  | next h hc => exact h.next (hc.extend (not_lt.mp hroom) sec)

/-- The chunks of a run have all sections, in order. -/
theorem foldl_addChunk_merges (numTokens : Text → ℕ) (chunkTokenNum : ℤ) (overlappedPercent : ℚ)
    (sections : List (Text × Text)) :
    let st := sections.foldl (fun st sec =>
      addChunk numTokens chunkTokenNum overlappedPercent st ('\n' :: sec.1) sec.2) {}
    ∃ groups group, Merges numTokens (tokenLimit chunkTokenNum overlappedPercent)
        overlappedPercent st.done st.last groups group ∧
      (groups.flatten ++ group).map Piece.sec = sections := by
  induction sections using List.reverseRecOn with
  | nil => exact ⟨[], [], Merges.start, rfl⟩
  | append_singleton sections sec ih =>
    obtain ⟨groups, group, h, hsections⟩ := ih
    rw [List.foldl_append, List.foldl_cons, List.foldl_nil]
    by_cases hfull : (sections.foldl (fun st sec =>
        addChunk numTokens chunkTokenNum overlappedPercent st ('\n' :: sec.1) sec.2) {}).Full
          (tokenLimit chunkTokenNum overlappedPercent)
    · refine ⟨_, _, addChunk_of_full hfull h sec, ?_⟩
      rw [List.flatten_append, List.flatten_singleton, List.map_append, hsections]
      rfl
    · refine ⟨_, _, addChunk_of_not_full hfull h sec, ?_⟩
      rw [← List.append_assoc, List.map_append, hsections]
      rfl

end Steps

/-! ## Without overlap -/

theorem overlapOf_zero (prev : Text) : overlapOf 0 prev = [] := by
  have hlength : truncate (((removeTag prev).length : ℚ) * (100 - 0) / 100) =
      (removeTag prev).length := by
    have hall : ((removeTag prev).length : ℚ) * (100 - 0) / 100 = (removeTag prev).length := by
      ring
    rw [hall, truncate, if_pos (Nat.cast_nonneg _), Int.floor_natCast]
  rw [overlapOf]
  rw [hlength, pyDrop, if_pos (Int.natCast_nonneg _), Int.toNat_natCast, List.drop_length]

theorem Merges.rows {numTokens : Text → ℕ} {limit : ℚ} {done : List Chunk} {last : Chunk}
    {groups : List (List Piece)} {group : List Piece}
    (h : Merges numTokens limit 0 done last groups group) :
    ∃ rows : List (Chunk × List Piece), done ++ [last] = ⟨[], 0⟩ :: rows.map Prod.fst ∧
      groups ++ [group] = [] :: rows.map Prod.snd ∧
      ∀ row ∈ rows, ChunkOf numTokens limit [] row.1 row.2 := by
  induction h with
  | start => exact ⟨[], rfl, rfl, by simp⟩
  | @next done last c groups group new _ hc ih =>
    obtain ⟨rows, hcks, hpieces, hall⟩ := ih
    rw [overlapOf_zero] at hc
    refine ⟨rows ++ [(c, new)], ?_, ?_, fun row hrow => ?_⟩
    · rw [hcks, List.map_append, List.cons_append]
      rfl
    · rw [hpieces, List.map_append, List.cons_append]
      rfl
    · rcases List.mem_append.mp hrow with hrow | hrow
      · exact hall row hrow
      · rw [List.mem_singleton.mp hrow]
        exact hc

theorem flatMap_untagged (groups : List (List Piece)) :
    (groups.flatMap fun group => group.flatMap Piece.untagged) =
      (groups.flatten.map Piece.sec).flatMap fun sec => '\n' :: sec.1 := by
  rw [List.flatMap_map, List.flatten_eq_flatMap, List.flatMap_assoc]
  rfl

/-- Without overlap the chunks after the leading one are the sections in order, with tags that
were appended; without its last section each of them has no more tokens than allowed, and it has
the tags of all its sections of 8 tokens or more.  A negative limit is like none at all. -/
theorem naiveMerge_default (numTokens : Text → ℕ) (sections : List (Text × Text))
    (chunkTokenNum : ℤ) {delimiter : Text} (hdelims : customDelimiters delimiter = []) :
    ∃ groups : List (List Piece),
      groups.flatten.map Piece.sec = sections ∧
      naiveMerge numTokens (.tuples sections) chunkTokenNum delimiter 0 =
        (if sections = [] then [] else [] :: groups.map fun group => group.flatMap Piece.text) ∧
      (groups.flatMap fun group => group.flatMap Piece.untagged) =
        sections.flatMap (fun sec => '\n' :: sec.1) ∧
      ∀ group ∈ groups,
        (((group.dropLast.map (Piece.tokens numTokens)).sum : ℕ) : ℤ) ≤ max chunkTokenNum 0 ∧
        ∀ p ∈ group, 8 ≤ p.tokens numTokens → p.sec.2 <:+: group.flatMap Piece.text := by
  obtain ⟨groups, group, hmerges, hsections⟩ :=
    foldl_addChunk_merges numTokens chunkTokenNum 0 sections
  obtain ⟨rows, hcks, hpieces, hall⟩ := hmerges.rows
  have hflatten : (rows.map Prod.snd).flatten.map Piece.sec = sections := by
    have hjoin : groups.flatten ++ group = (rows.map Prod.snd).flatten := by
      have hflat := congrArg List.flatten hpieces
      rwa [List.flatten_append, List.flatten_singleton, List.flatten_cons, List.nil_append] at hflat
    rwa [hjoin] at hsections
  have htexts : (rows.map Prod.fst).map Chunk.text =
      (rows.map Prod.snd).map fun group => group.flatMap Piece.text := by
    rw [List.map_map, List.map_map]
    apply List.map_congr_left
    intro row hrow
    exact (hall row hrow).text_eq
  refine ⟨rows.map Prod.snd, hflatten, ?_, ?_, fun group hgroup => ?_⟩
  · rw [naiveMerge, Sections.toTuples, if_pos hdelims]
    split_ifs
    · rfl
    · rw [Merging.cks, hcks, List.map_cons, htexts]
  · rw [← hflatten]
    exact flatMap_untagged _
  · obtain ⟨row, hrow, rfl⟩ := List.mem_map.mp hgroup
    have hc := hall row hrow
    constructor
    · by_cases hfirst : row.2.dropLast = []
      · rw [hfirst]
        exact le_max_right _ _
      · have hbound := hc.bound hfirst
        have hlimit : tokenLimit chunkTokenNum 0 = chunkTokenNum := by
          rw [tokenLimit]
          ring
        rw [hlimit, ← Int.cast_natCast, Int.cast_le] at hbound
        exact le_max_of_le_left hbound
    · intro p hp hlong
      have htag := hc.tags p hp hlong
      rwa [hc.text_eq, List.nil_append] at htag

/-- Two sections in one chunk of at most two lines, of which the longer one brings its tag. -/
theorem naiveMerge_default_two :
    ∃ groups : List (List Piece),
      groups.flatten.map Piece.sec = [("Heading".toList, "@@1##".toList), ("x".toList, [])] ∧
      naiveMerge List.length (.tuples [("Heading".toList, "@@1##".toList), ("x".toList, [])]) 16
          "\n。".toList 0 =
        (if [("Heading".toList, "@@1##".toList), ("x".toList, ([] : Text))] = [] then []
          else [] :: groups.map fun group => group.flatMap Piece.text) ∧
      (groups.flatMap fun group => group.flatMap Piece.untagged) =
        [("Heading".toList, "@@1##".toList), ("x".toList, ([] : Text))].flatMap
          (fun sec => '\n' :: sec.1) ∧
      ∀ group ∈ groups,
        (((group.dropLast.map (Piece.tokens List.length)).sum : ℕ) : ℤ) ≤ max 16 0 ∧
        ∀ p ∈ group, 8 ≤ p.tokens List.length → p.sec.2 <:+: group.flatMap Piece.text :=
  naiveMerge_default List.length _ 16 (by decide)

end RagflowMineru.Nlp
