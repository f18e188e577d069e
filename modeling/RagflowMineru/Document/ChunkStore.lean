import RagflowMineru.Library.Paging
import RagflowMineru.Library.Table
import Mathlib.Data.PNat.Defs

/-!
# Indexing the chunks of a document

Chunks are stored under ids that are hashes: a chunk under the hash of its content
and its document, and the parent of a chunk, which has only a text, under the
hash of that text.  The parents of a call are stored before its chunks.
-/

namespace RagflowMineru.Document

open RagflowMineru.Library

/-- A chunk as the parser gives it. -/
structure ParsedChunk where
  contentWithWeight : String
  mom : Option String := none
  momWithWeight : Option String := none

/-- `ck.get("mom") or ck.get("mom_with_weight") or ""`. -/
def ParsedChunk.parent (c : ParsedChunk) : String :=
  if c.mom.getD "" = "" then c.momWithWeight.getD "" else c.mom.getD ""

/-- A chunk in the document store. -/
structure StoredChunk where
  docId : String
  contentWithWeight : String
  momId : Option String
  availableInt : Option ℕ
  deriving DecidableEq, Inhabited

abbrev ChunkStore := Table String StoredChunk

/-- The chunk with its id, as `insert_chunks` stores it. -/
def chunkRow (digest : String → String) (docId : String) (c : ParsedChunk) :
    String × StoredChunk :=
  (digest (c.contentWithWeight ++ docId),
    { docId := docId
      contentWithWeight := c.contentWithWeight
      momId := if c.parent = "" then none else some (digest c.parent)
      availableInt := none })

/-- The parents of the chunks, each once; `motherIds` are those that are there. -/
def mothers (digest : String → String) (docId : String) (motherIds : List String) :
    List ParsedChunk → List (String × StoredChunk)
  | [] => []
  | c :: chunks =>
      if c.parent = "" ∨ digest c.parent ∈ motherIds then mothers digest docId motherIds chunks
      else
        (digest c.parent, ⟨docId, c.parent, none, some 0⟩) ::
          mothers digest docId (digest c.parent :: motherIds) chunks

/-- `[rows[b:b + bulkSize] for b in range(0, len(rows), bulkSize)]`. -/
def bulks {α : Type*} (bulkSize : ℕ+) (rows : List α) : List (List α) :=
  (List.range ((rows.length + bulkSize - 1) / bulkSize)).map (window bulkSize rows)

/-- What comes after a bulk of chunks.  `raised` is for errors that the store
reports, with the ids of what it has taken, and for a callback that raises;
`unknownTask` is the DoesNotExist of `update_chunk_ids`. -/
inductive BulkEnd
  | next
  | canceled
  | raised (taken : String → Bool)
  | unknownTask

/-- How the bulks of a call end.  A bulk of parents may be the last, after a
cancellation or an exception, with the ids of those that are stored. -/
structure IndexOutcomes where
  motherEnd : ℕ → Option (String → Bool)
  bulkEnd : ℕ → BulkEnd

/-- No bulk ends the call. -/
def calmOutcomes : IndexOutcomes := ⟨fun _ => none, fun _ => .next⟩

/-- Whether the parents are all there, and the store. -/
def insertMothers (o : IndexOutcomes) :
    ℕ → List (List (String × StoredChunk)) → ChunkStore → Bool × ChunkStore
  | _, [], t => (true, t)
  | b, bulk :: rest, t =>
      match o.motherEnd b with
      | none => insertMothers o (b + 1) rest (t.insertAll bulk)
      | some taken => (false, t.insertAll (bulk.filter fun r => taken r.1))

/-- `chunkIds` are the ids of the bulks before. -/
def insertBulks (o : IndexOutcomes) :
    ℕ → List String → List (List (String × StoredChunk)) → ChunkStore → ChunkStore
  | _, _, [], t => t
  | b, chunkIds, bulk :: rest, t =>
      match o.bulkEnd b with
      | .next => insertBulks o (b + 1) (chunkIds ++ bulk.map Prod.fst) rest (t.insertAll bulk)
      | .canceled => t.insertAll bulk
      | .raised taken => t.insertAll (bulk.filter fun r => taken r.1)
      | .unknownTask => (t.insertAll bulk).deleteAll (chunkIds ++ bulk.map Prod.fst)

/-- The store after `insert_chunks` on the chunks of a document. -/
def insertChunks (digest : String → String) (bulkSize : ℕ+) (o : IndexOutcomes)
    (docId : String) (chunks : List ParsedChunk) (t : ChunkStore) : ChunkStore :=
  match insertMothers o 0 (bulks bulkSize (mothers digest docId [] chunks)) t with
  | (false, t) => t
  | (true, t) => insertBulks o 0 [] (bulks bulkSize (chunks.map (chunkRow digest docId))) t

/-! ## What is claimed -/

/-- The texts whose hashes are the ids of a document. -/
def hashedTexts (docId : String) (chunks : List ParsedChunk) : List String :=
  chunks.map (fun c => c.contentWithWeight ++ docId) ++
    (chunks.map ParsedChunk.parent).filter (· ≠ "")

/-- Document `b` is indexed and then document `a`, with any outcomes: what is stored
of `b` stays, and every chunk's parent is a stored chunk of the same document. -/
structure Isolated (digest : String → String) (bulkSize : ℕ+) (a b : String)
    (as bs : List ParsedChunk) : Prop where
  untouched : ∀ o o' k r,
    (insertChunks digest bulkSize o b bs .empty).get? k = some r → r.docId = b →
    (insertChunks digest bulkSize o' a as (insertChunks digest bulkSize o b bs .empty)).get? k =
      some r
  parents : ∀ o o' k r m,
    (insertChunks digest bulkSize o' a as (insertChunks digest bulkSize o b bs .empty)).get? k =
      some r → r.momId = some m →
    ∃ r', (insertChunks digest bulkSize o' a as
      (insertChunks digest bulkSize o b bs .empty)).get? m = some r' ∧ r'.docId = r.docId

/-! ## Bulks -/

theorem flatten_bulks {α : Type*} (bulkSize : ℕ+) (rows : List α) :
    (bulks bulkSize rows).flatten = rows := by
  have hlength : rows.length ≤ (rows.length + bulkSize - 1) / bulkSize * bulkSize := by
    have hdiv := Nat.div_add_mod (rows.length + bulkSize - 1) bulkSize
    have hmod := Nat.mod_lt (rows.length + bulkSize - 1) bulkSize.pos
    have hpos := bulkSize.pos
    rw [Nat.mul_comm] at hdiv
    omega
  rw [bulks, ← List.flatMap_def]
  exact (flatMap_slices _ _ _).trans (List.take_of_length_le hlength)

/-! ## Rows of one document -/

variable {digest : String → String} {docId : String} {t : ChunkStore}

/-- Under each of the ids there is a chunk of the document. -/
def Marked (docId : String) (ids : List String) (t : ChunkStore) : Prop :=
  ∀ k ∈ ids, ∃ r, t.get? k = some r ∧ r.docId = docId

theorem Marked.insert {ids : List String} (hmarked : Marked docId ids t) (k : String)
    {r : StoredChunk} (hr : r.docId = docId) : Marked docId (k :: ids) (t.insert k r) := by
  intro k' hk'
  rw [Table.get?_insert]
  by_cases heq : k' = k
  · exact ⟨r, by rw [if_pos heq], hr⟩
  · rw [if_neg heq]
    exact hmarked k' ((List.mem_cons.mp hk').resolve_left heq)

theorem Marked.insertAll {ids : List String} {rows : List (String × StoredChunk)}
    (hmarked : Marked docId ids t) (hrows : ∀ r ∈ rows, r.2.docId = docId) :
    Marked docId (ids ++ rows.map Prod.fst) (t.insertAll rows) := by
  induction rows generalizing ids t with
  | nil =>
      rw [List.map_nil, List.append_nil]
      exact hmarked
  | cons r rows ih =>
      have hrest := ih (hmarked.insert r.1 (hrows r (.head _))) fun r' hr' => hrows r' (.tail _ hr')
      intro k hk
      refine hrest k ?_
      simp only [List.map_cons, List.mem_append, List.mem_cons] at hk ⊢
      tauto

/-- The parents of a call, with the ids that they are stored under. -/
theorem mem_mothers {motherIds : List String} {chunks : List ParsedChunk}
    {r : String × StoredChunk} (hr : r ∈ mothers digest docId motherIds chunks) :
    r.2.docId = docId ∧ r.2.momId = none ∧
      ∃ text ∈ hashedTexts docId chunks, r.1 = digest text := by
  induction chunks generalizing motherIds with
  | nil => simp [mothers] at hr
  | cons c chunks ih =>
      have hweaken : ∀ {motherIds}, r ∈ mothers digest docId motherIds chunks →
          r.2.docId = docId ∧ r.2.momId = none ∧
            ∃ text ∈ hashedTexts docId (c :: chunks), r.1 = digest text := by
        intro motherIds hr
        obtain ⟨hdoc, hmom, text, htext, hid⟩ := ih hr
        refine ⟨hdoc, hmom, text, ?_, hid⟩
        simp only [hashedTexts, List.map_cons, List.mem_append, List.mem_cons,
          List.mem_filter] at htext ⊢
        tauto
      rw [mothers] at hr
      split_ifs at hr with hskip
      · exact hweaken hr
      · obtain rfl | hr := List.mem_cons.mp hr
        · refine ⟨rfl, rfl, c.parent, ?_, rfl⟩
          simp [hashedTexts, (not_or.mp hskip).1]
        · exact hweaken hr

/-- Every chunk with a parent finds its parent's id among those of the call. -/
theorem mem_ids_mothers {motherIds : List String} {chunks : List ParsedChunk} {c : ParsedChunk}
    (hc : c ∈ chunks) (hparent : c.parent ≠ "") :
    digest c.parent ∈ motherIds ++ (mothers digest docId motherIds chunks).map Prod.fst := by
  induction chunks generalizing motherIds with
  | nil => cases hc
  | cons c' chunks ih =>
      rw [mothers]
      split_ifs with hskip
      · obtain rfl | hc := List.mem_cons.mp hc
        · exact List.mem_append_left _ (hskip.resolve_left hparent)
        · exact ih hc
      · rw [List.map_cons]
        obtain rfl | hc := List.mem_cons.mp hc
        · simp
        · have hrest : digest c.parent ∈ (digest c'.parent :: motherIds) ++
              (mothers digest docId (digest c'.parent :: motherIds) chunks).map Prod.fst := ih hc
          simp only [List.cons_append, List.mem_append, List.mem_cons] at hrest ⊢
          tauto

theorem digest_parent_mem (digest : String → String) (docId : String)
    {chunks : List ParsedChunk} {c : ParsedChunk} (hc : c ∈ chunks) (hparent : c.parent ≠ "") :
    digest c.parent ∈ (mothers digest docId [] chunks).map Prod.fst := by
  have hid : digest c.parent ∈ [] ++ (mothers digest docId [] chunks).map Prod.fst :=
    mem_ids_mothers hc hparent
  rwa [List.nil_append] at hid

/-! ## What a call comes to -/

/-- The parents that were stored, and all of them if the call goes on. -/
theorem insertMothers_spec (o : IndexOutcomes) (b : ℕ)
    (bulks : List (List (String × StoredChunk))) (t : ChunkStore) :
    ∃ rows, (∀ r ∈ rows, r ∈ bulks.flatten) ∧ (insertMothers o b bulks t).2 = t.insertAll rows ∧
      ((insertMothers o b bulks t).1 = true → rows = bulks.flatten) := by
  induction bulks generalizing b t with
  | nil => exact ⟨[], nofun, rfl, fun _ => rfl⟩
  | cons bulk bulks ih =>
      rw [insertMothers]
      cases o.motherEnd b with
      | none =>
          obtain ⟨rows, hmem, hstore, hall⟩ := ih (b + 1) (t.insertAll bulk)
          refine ⟨bulk ++ rows, fun r hr => ?_, ?_, fun hgo => ?_⟩
          · rw [List.flatten_cons]
            exact (List.mem_append.mp hr).elim (List.mem_append_left _)
              fun hr => List.mem_append_right _ (hmem r hr)
          · rw [Table.insertAll_append]
            exact hstore
          · rw [hall hgo, List.flatten_cons]
      | some taken =>
          refine ⟨_, fun r hr => ?_, rfl, nofun⟩
          simp [(List.mem_filter.mp hr).1]

/-- The chunks that were stored, all of which go again if the task is unknown. -/
theorem insertBulks_spec (o : IndexOutcomes) (b : ℕ) (chunkIds : List String)
    (bulks : List (List (String × StoredChunk))) (t : ChunkStore) :
    ∃ rows, (∀ r ∈ rows, r ∈ bulks.flatten) ∧
      (insertBulks o b chunkIds bulks t = t.insertAll rows ∨
        insertBulks o b chunkIds bulks t =
          (t.insertAll rows).deleteAll (chunkIds ++ rows.map Prod.fst)) := by
  induction bulks generalizing b chunkIds t with
  | nil => exact ⟨[], nofun, .inl rfl⟩
  | cons bulk bulks ih =>
      rw [insertBulks]
      cases o.bulkEnd b with
      | next =>
          obtain ⟨rows, hmem, hstore⟩ := ih (b + 1) (chunkIds ++ bulk.map Prod.fst)
            (t.insertAll bulk)
          refine ⟨bulk ++ rows, fun r hr => ?_, ?_⟩
          · rw [List.flatten_cons]
            exact (List.mem_append.mp hr).elim (List.mem_append_left _)
              fun hr => List.mem_append_right _ (hmem r hr)
          · rw [Table.insertAll_append, List.map_append, ← List.append_assoc]
            exact hstore
      | canceled => exact ⟨bulk, fun r hr => by simp [hr], .inl rfl⟩
      | raised taken =>
          refine ⟨_, fun r hr => ?_, .inl rfl⟩
          simp [(List.mem_filter.mp hr).1]
      | unknownTask => exact ⟨bulk, fun r hr => by simp [hr], .inr rfl⟩

/-- Some parents and some chunks are stored, no chunk before all the parents. -/
theorem insertChunks_spec (digest : String → String) (bulkSize : ℕ+) (o : IndexOutcomes)
    (docId : String) (chunks : List ParsedChunk) (t : ChunkStore) :
    ∃ early late, (∀ r ∈ early, r ∈ mothers digest docId [] chunks) ∧
      (∀ r ∈ late, r ∈ chunks.map (chunkRow digest docId)) ∧
      (late ≠ [] → early = mothers digest docId [] chunks) ∧
      (insertChunks digest bulkSize o docId chunks t = t.insertAll (early ++ late) ∨
        insertChunks digest bulkSize o docId chunks t =
          (t.insertAll (early ++ late)).deleteAll (late.map Prod.fst)) := by
  obtain ⟨early, hearly, hstore, hall⟩ :=
    insertMothers_spec o 0 (bulks bulkSize (mothers digest docId [] chunks)) t
  rw [flatten_bulks] at hearly hall
  unfold insertChunks
  cases hmothers : insertMothers o 0 (bulks bulkSize (mothers digest docId [] chunks)) t with
  | mk goesOn t' =>
      rw [hmothers] at hstore hall
      obtain rfl : t' = t.insertAll early := hstore
      cases goesOn with
      | false =>
          refine ⟨early, [], hearly, nofun, fun h => absurd rfl h, .inl ?_⟩
          rw [List.append_nil]
      | true =>
          obtain ⟨late, hlate, hresult⟩ := insertBulks_spec o 0 []
            (bulks bulkSize (chunks.map (chunkRow digest docId))) (t.insertAll early)
          rw [flatten_bulks] at hlate
          refine ⟨early, late, hearly, hlate, fun _ => hall rfl, ?_⟩
          rw [Table.insertAll_append]
          exact hresult

/-- A call that nothing ends stores all parents and all chunks. -/
theorem insertChunks_calm (digest : String → String) (bulkSize : ℕ+) (docId : String)
    (chunks : List ParsedChunk) (t : ChunkStore) :
    insertChunks digest bulkSize calmOutcomes docId chunks t =
      t.insertAll (mothers digest docId [] chunks ++ chunks.map (chunkRow digest docId)) := by
  have hmothers : ∀ b rows (t : ChunkStore),
      insertMothers calmOutcomes b rows t = (true, t.insertAll rows.flatten) := by
    intro b rows
    induction rows generalizing b with
    | nil => exact fun _ => rfl
    | cons bulk rows ih =>
        intro t
        rw [List.flatten_cons, Table.insertAll_append]
        exact ih (b + 1) _
  have hbulks : ∀ b chunkIds rows (t : ChunkStore),
      insertBulks calmOutcomes b chunkIds rows t = t.insertAll rows.flatten := by
    intro b chunkIds rows
    induction rows generalizing b chunkIds with
    | nil => exact fun _ => rfl
    | cons bulk rows ih =>
        intro t
        rw [List.flatten_cons, Table.insertAll_append]
        exact ih (b + 1) _ _
  rw [insertChunks, hmothers, flatten_bulks, Table.insertAll_append]
  dsimp only
  rw [hbulks, flatten_bulks]

section

variable {bulkSize : ℕ+} {o : IndexOutcomes} {chunks : List ParsedChunk}

/-- The rows of a call are the document's, under hashes of its texts. -/
theorem row_of_mem (digest : String → String) (docId : String) (chunks : List ParsedChunk)
    {r : String × StoredChunk}
    (hr : r ∈ mothers digest docId [] chunks ++ chunks.map (chunkRow digest docId)) :
    r.2.docId = docId ∧ ∃ text ∈ hashedTexts docId chunks, r.1 = digest text := by
  obtain hr | hr := List.mem_append.mp hr
  · obtain ⟨hdoc, -, htext⟩ := mem_mothers hr
    exact ⟨hdoc, htext⟩
  · obtain ⟨c, hc, rfl⟩ := List.mem_map.mp hr
    refine ⟨rfl, c.contentWithWeight ++ docId, ?_, rfl⟩
    exact List.mem_append_left _ (List.mem_map.mpr ⟨c, hc, rfl⟩)

/-- A call does not touch what is not under a hash of its texts. -/
theorem get?_insertChunks_of_notMem {k : String}
    (hk : k ∉ (hashedTexts docId chunks).map digest) :
    (insertChunks digest bulkSize o docId chunks t).get? k = t.get? k := by
  obtain ⟨early, late, hearly, hlate, -, hresult⟩ :=
    insertChunks_spec digest bulkSize o docId chunks t
  have hkey : ∀ r ∈ early ++ late, r.1 ≠ k := by
    rintro r hr rfl
    obtain ⟨-, text, htext, hid⟩ := row_of_mem digest docId chunks
      (List.mem_append.mpr ((List.mem_append.mp hr).imp (hearly r) (hlate r)))
    exact hk (List.mem_map.mpr ⟨text, htext, hid.symm⟩)
  have hinserted : (t.insertAll (early ++ late)).get? k = t.get? k := by
    refine Table.get?_insertAll_of_notMem fun hmem => ?_
    obtain ⟨r, hr, hrk⟩ := List.mem_map.mp hmem
    exact hkey r hr hrk
  obtain hresult | hresult := hresult
  · rw [hresult, hinserted]
  · have hlate' : k ∉ late.map Prod.fst := by
      intro hmem
      obtain ⟨r, hr, hrk⟩ := List.mem_map.mp hmem
      exact hkey r (List.mem_append_right _ hr) hrk
    rw [hresult, Table.get?_deleteAll, if_neg hlate', hinserted]

/-- What a call leaves is the document's, or was there before. -/
theorem docId_of_get?_insertChunks {k : String} {r : StoredChunk}
    (hr : (insertChunks digest bulkSize o docId chunks t).get? k = some r) :
    r.docId = docId ∨ t.get? k = some r := by
  obtain ⟨early, late, hearly, hlate, -, hresult⟩ :=
    insertChunks_spec digest bulkSize o docId chunks t
  have hinserted : (t.insertAll (early ++ late)).get? k = some r := by
    obtain hresult | hresult := hresult
    · rw [← hresult, hr]
    · rw [hresult, Table.get?_deleteAll] at hr
      split_ifs at hr
      exact hr
  obtain hmem | hold := Table.mem_or_get?_of_get?_insertAll hinserted
  · exact .inl (row_of_mem digest docId chunks
      (List.mem_append.mpr ((List.mem_append.mp hmem).imp (hearly _) (hlate _)))).1
  · exact .inr hold

/-- In a store without chunks of the document, each of its chunks that a call
leaves finds its parent. -/
theorem parent_of_get?_insertChunks (hnew : ∀ k r, t.get? k = some r → r.docId ≠ docId)
    {k m : String} {r : StoredChunk}
    (hr : (insertChunks digest bulkSize o docId chunks t).get? k = some r)
    (hdoc : r.docId = docId) (hmom : r.momId = some m) :
    ∃ r', (insertChunks digest bulkSize o docId chunks t).get? m = some r' ∧
      r'.docId = docId := by
  obtain ⟨early, late, hearly, hlate, hall, hresult⟩ :=
    insertChunks_spec digest bulkSize o docId chunks t
  -- it was stored as a chunk, and so after the parents
  have hchunk : (t.insertAll (early ++ late)).get? k = some r → (k, r) ∈ late := by
    intro hinserted
    obtain hmem | hold := Table.mem_or_get?_of_get?_insertAll hinserted
    · refine (List.mem_append.mp hmem).resolve_left fun hmem => ?_
      have hnone := (mem_mothers (hearly _ hmem)).2.1
      rw [hmom] at hnone
      cases hnone
    · exact absurd hdoc (hnew k r hold)
  obtain hresult | hresult := hresult
  · rw [hresult] at hr ⊢
    have hmem := hchunk hr
    obtain ⟨c, hc, hrow⟩ := List.mem_map.mp (hlate _ hmem)
    have hparent : c.parent ≠ "" ∧ m = digest c.parent := by
      have hmomId : (chunkRow digest docId c).2.momId = some m := by
        rw [hrow]
        exact hmom
      rw [chunkRow] at hmomId
      split_ifs at hmomId with hempty
      exact ⟨hempty, (Option.some.inj hmomId).symm⟩
    have hrows : ∀ r ∈ early ++ late, r.2.docId = docId := fun r hr =>
      (row_of_mem digest docId chunks
        (List.mem_append.mpr ((List.mem_append.mp hr).imp (hearly _) (hlate _)))).1
    have hmarked : Marked docId [] t := nofun
    refine hmarked.insertAll hrows m ?_
    have hid := digest_parent_mem digest docId hc hparent.1
    rw [hparent.2, List.nil_append, List.map_append]
    rw [← hall (List.ne_nil_of_mem hmem)] at hid
    exact List.mem_append_left _ hid
  · rw [hresult, Table.get?_deleteAll] at hr
    split_ifs at hr with hdeleted
    exact absurd (List.mem_map.mpr ⟨_, hchunk hr, rfl⟩) hdeleted

end

/-- Under the hash of every text of a document there is a chunk of it after a call
that nothing ends. -/
theorem marked_insertChunks (digest : String → String) (bulkSize : ℕ+) (docId : String)
    (chunks : List ParsedChunk) (t : ChunkStore) :
    Marked docId ((hashedTexts docId chunks).map digest)
      (insertChunks digest bulkSize calmOutcomes docId chunks t) := by
  rw [insertChunks_calm]
  have hmarked : Marked docId [] t := nofun
  intro k hk
  refine hmarked.insertAll (fun r hr => (row_of_mem digest docId chunks hr).1) k ?_
  obtain ⟨text, htext, rfl⟩ := List.mem_map.mp hk
  rw [List.nil_append, List.map_append]
  obtain htext | htext := List.mem_append.mp htext
  · obtain ⟨c, hc, rfl⟩ := List.mem_map.mp htext
    refine List.mem_append_right _ (List.mem_map.mpr ⟨chunkRow digest docId c, ?_, rfl⟩)
    exact List.mem_map.mpr ⟨c, hc, rfl⟩
  · obtain ⟨htext, hne⟩ := List.mem_filter.mp htext
    obtain ⟨c, hc, rfl⟩ := List.mem_map.mp htext
    exact List.mem_append_left _ (digest_parent_mem digest docId hc (of_decide_eq_true hne))

def passage (contentWithWeight : String) : ParsedChunk :=
  { contentWithWeight := contentWithWeight, mom := some "The parent." }

end RagflowMineru.Document
