import RagflowMineru.Agent.Value
import RagflowMineru.Library.Assoc
import Mathlib.Data.Fintype.Pigeonhole
import Mathlib.Data.Nat.Digits.Defs

/-!
# References of an answer

The canvas gathers the chunks and documents that an answer refers to.  Chunks are
kept in slots, of which there are 500, and whether a slot is taken is asked of the
dictionary that holds the slots instead of the slots.
-/

namespace RagflowMineru.Agent.References

open RagflowMineru.Library

abbrev Dict := List (String × Value)

/-- `d.get(k1, d.get(k2))`. -/
def getValue (d : Dict) (k1 k2 : String) : Value :=
  ((Assoc.get? k1 d).or (Assoc.get? k2 d)).getD .none

/-- A chunk as `chunks_format` gives it. -/
structure Chunk where
  id : Value
  content : Value
  documentId : Value
  documentName : Value
  datasetId : Value
  imageId : Value
  positions : Value
  url : Value
  similarity : Value
  vectorSimilarity : Value
  termSimilarity : Value
  docType : Value

def chunkFormat (d : Dict) : Chunk where
  id := getValue d "chunk_id" "id"
  content := getValue d "content" "content_with_weight"
  documentId := getValue d "doc_id" "document_id"
  documentName := getValue d "docnm_kwd" "document_name"
  datasetId := getValue d "kb_id" "dataset_id"
  imageId := getValue d "image_id" "img_id"
  positions := getValue d "positions" "position_int"
  url := (Assoc.get? "url" d).getD .none
  similarity := (Assoc.get? "similarity" d).getD .none
  vectorSimilarity := (Assoc.get? "vector_similarity" d).getD .none
  termSimilarity := (Assoc.get? "term_similarity" d).getD .none
  docType := getValue d "doc_type_kwd" "doc_type"

/-- What is not a dictionary is left out. -/
def chunksFormat (chunks : List Value) : List Chunk :=
  chunks.filterMap fun
    | .dict d => some (chunkFormat d)
    | _ => none

structure DocInfo where
  docName : String
  info : Value

/-- An entry of `retrieval`. -/
structure Reference where
  chunks : Assoc ℕ Chunk := []
  docAggs : Assoc String DocInfo := []

/-- `key in r`, for an integer or a name. -/
def Reference.contains (_ : Reference) : ℕ ⊕ String → Bool
  | .inl _ => false
  | .inr name => name ∈ ["chunks", "doc_aggs"]

variable (sha1 : String → ℕ)

def hashStr2int (line : String) (mod : ℕ) : ℕ :=
  sha1 line % mod

/-- The exception is that of an id that is not a string. -/
def addChunk (r : Reference) (ck : Chunk) : Option Reference :=
  match ck.id with
  | .str id =>
    let cid := hashStr2int sha1 id 500
    some (if r.contains (.inl cid) then r else { r with chunks := Assoc.set cid ck r.chunks })
  | _ => none

def addDoc (r : Reference) (doc : DocInfo) : Reference :=
  if r.contains (.inr doc.docName) then r
  else { r with docAggs := Assoc.set doc.docName doc r.docAggs }

def addReference (retrieval : List Reference) (chunks : List Value) (docInfos : List DocInfo) :
    Option (List Reference) := do
  let retrieval := if retrieval.isEmpty then [{}] else retrieval
  let r := retrieval.getLastD {}
  let r ← (chunksFormat chunks).foldlM (addChunk sha1) r
  pure (retrieval.dropLast ++ [docInfos.foldl addDoc r])

def getReference (retrieval : List Reference) : Reference :=
  retrieval.getLastD {}

/-- The calls of a turn. -/
def addReferences (retrieval : List Reference) (calls : List (List Value × List DocInfo)) :
    Option (List Reference) :=
  calls.foldlM (fun retrieval call => addReference sha1 retrieval call.1 call.2) retrieval

/-! ## What a turn leaves -/

variable {sha1}

/-- The id of a chunk that has been added. -/
def Chunk.idString (ck : Chunk) : String :=
  match ck.id with
  | .str id => id
  | _ => ""

variable (sha1) in
def Chunk.slot (ck : Chunk) : ℕ :=
  hashStr2int sha1 ck.idString 500

theorem addChunk_eq_some {r r' : Reference} {ck : Chunk} (h : addChunk sha1 r ck = some r') :
    ck.id = .str ck.idString ∧
      r' = { r with chunks := Assoc.set (ck.slot sha1) ck r.chunks } := by
  unfold addChunk at h
  split at h
  · next id hid =>
    have hstring : ck.idString = id := by simp [Chunk.idString, hid]
    refine ⟨by rw [hstring, hid], ?_⟩
    simpa [Reference.contains, Chunk.slot, hstring] using h.symm
  · simp at h

theorem foldlM_addChunk {r r' : Reference} {cks : List Chunk}
    (h : cks.foldlM (addChunk sha1) r = some r') :
    (∀ ck ∈ cks, ck.id = .str ck.idString) ∧
      r' = { r with chunks := cks.foldl (fun d ck => Assoc.set (ck.slot sha1) ck d) r.chunks } := by
  induction cks generalizing r with
  | nil => simpa using h.symm
  | cons ck cks ih =>
    rw [List.foldlM_cons] at h
    obtain ⟨r1, hr1, hrest⟩ := Option.bind_eq_some_iff.mp h
    obtain ⟨hid, rfl⟩ := addChunk_eq_some hr1
    obtain ⟨hids, rfl⟩ := ih hrest
    exact ⟨List.forall_mem_cons.mpr ⟨hid, hids⟩, rfl⟩

/-- A name for which a document is never registered. -/
def isReserved (name : String) : Bool :=
  name ∈ ["chunks", "doc_aggs"]

theorem foldl_addDoc (r : Reference) (docs : List DocInfo) : docs.foldl addDoc r =
    { r with
      docAggs := (docs.filter fun doc => !isReserved doc.docName).foldl
        (fun d doc => Assoc.set doc.docName doc d) r.docAggs } := by
  induction docs generalizing r with
  | nil => rfl
  | cons doc docs ih =>
    rw [List.foldl_cons, ih]
    by_cases hdoc : isReserved doc.docName
    · have hadd : addDoc r doc = r := if_pos hdoc
      rw [List.filter_cons_of_neg (by simpa using hdoc), hadd]
    · have hadd : addDoc r doc = { r with docAggs := Assoc.set doc.docName doc r.docAggs } :=
        if_neg hdoc
      rw [List.filter_cons_of_pos (by simpa using hdoc), List.foldl_cons, hadd]

/-- The chunks that the calls add. -/
def addedChunks (calls : List (List Value × List DocInfo)) : List Chunk :=
  calls.flatMap fun call => chunksFormat call.1

/-- The document infos that the calls add. -/
def addedDocs (calls : List (List Value × List DocInfo)) : List DocInfo :=
  calls.flatMap fun call => call.2

theorem addedChunks_cons (call : List Value × List DocInfo)
    (calls : List (List Value × List DocInfo)) :
    addedChunks (call :: calls) = chunksFormat call.1 ++ addedChunks calls :=
  List.flatMap_cons

theorem addedDocs_cons (call : List Value × List DocInfo)
    (calls : List (List Value × List DocInfo)) :
    addedDocs (call :: calls) = call.2 ++ addedDocs calls :=
  List.flatMap_cons

/-- Every call writes its chunks and documents one after the other. -/
theorem addReferences_eq_some {earlier retrieval : List Reference} {r : Reference}
    {calls : List (List Value × List DocInfo)}
    (h : addReferences sha1 (earlier ++ [r]) calls = some retrieval) :
    (∀ ck ∈ addedChunks calls, ck.id = .str ck.idString) ∧
      retrieval = earlier ++ [{
        chunks := (addedChunks calls).foldl (fun d ck => Assoc.set (ck.slot sha1) ck d) r.chunks
        docAggs := ((addedDocs calls).filter fun doc => !isReserved doc.docName).foldl
          (fun d doc => Assoc.set doc.docName doc d) r.docAggs }] := by
  induction calls generalizing r with
  | nil => simpa [addReferences, addedChunks, addedDocs] using h.symm
  | cons call calls ih =>
    rw [addReferences, List.foldlM_cons] at h
    obtain ⟨retrieval1, hcall, hrest⟩ := Option.bind_eq_some_iff.mp h
    have hempty : (earlier ++ [r]).isEmpty = false := by simp
    simp only [addReference, hempty, Bool.false_eq_true, if_false, List.getLastD_concat,
      List.dropLast_concat] at hcall
    obtain ⟨r1, hr1, heq⟩ := Option.bind_eq_some_iff.mp hcall
    obtain ⟨hids, rfl⟩ := foldlM_addChunk hr1
    obtain rfl := Option.some.inj heq
    obtain ⟨hids', rfl⟩ := ih hrest
    constructor
    · intro ck hck
      rw [addedChunks_cons, List.mem_append] at hck
      exact hck.elim (hids ck) (hids' ck)
    · rw [foldl_addDoc, addedChunks_cons, addedDocs_cons, List.foldl_append, List.filter_append,
        List.foldl_append]

/-- Every chunk that has been added is there, by its id. -/
def ChunksKept (retrieval : List Reference) (added : List Chunk) : Prop :=
  ∀ ck ∈ added, ∃ entry ∈ (getReference retrieval).chunks, entry.2.id = ck.id

/-- Every name has the document info that was registered under it first. -/
def FirstDocsKept (retrieval : List Reference) (added : List DocInfo) : Prop :=
  ∀ doc ∈ added, Assoc.get? doc.docName (getReference retrieval).docAggs =
    added.find? fun other => other.docName = doc.docName

section Turn

variable {earlier retrieval : List Reference} {calls : List (List Value × List DocInfo)}

/-- The chunks of a turn are kept exactly if no two different ids have the same slot. -/
theorem chunksKept_iff
    (h : addReferences sha1 (earlier ++ [Reference.mk [] []]) calls = some retrieval) :
    ChunksKept retrieval (addedChunks calls) ↔
      ∀ a ∈ addedChunks calls, ∀ b ∈ addedChunks calls,
        hashStr2int sha1 a.idString 500 = hashStr2int sha1 b.idString 500 → a.id = b.id := by
  obtain ⟨-, rfl⟩ := addReferences_eq_some h
  simp only [ChunksKept, getReference, List.getLastD_concat]
  have hslot : ∀ {a b : Chunk}, a.id = b.id → a.slot sha1 = b.slot sha1 := by
    intro a b hab
    simp only [Chunk.slot, Chunk.idString, hab]
  have hnodup := Assoc.nodup_keys_foldl_set (k := Chunk.slot sha1) (v := id)
    (addedChunks calls) (d := []) List.nodup_nil
  constructor
  · -- both ids are found in one and the same slot
    intro hkept
    have hfound : ∀ a ∈ addedChunks calls, ∃ ck, ck.id = a.id ∧ Assoc.get? (a.slot sha1)
        ((addedChunks calls).foldl (fun d ck => Assoc.set (ck.slot sha1) ck d) []) = some ck := by
      intro a ha
      obtain ⟨entry, hentry, hid⟩ := hkept a ha
      rcases Assoc.mem_foldl_set hentry with hnil | ⟨ck, -, rfl⟩
      · simp at hnil
      · exact ⟨ck, hid, hslot hid ▸ Assoc.get?_of_mem hnodup hentry⟩
    intro a ha b hb hab
    obtain ⟨ck, hck, hget⟩ := hfound a ha
    obtain ⟨ck', hck', hget'⟩ := hfound b hb
    rw [show b.slot sha1 = a.slot sha1 from hab.symm, hget] at hget'
    rw [← hck, ← hck', Option.some.inj hget']
  · intro hapart a ha
    have hget := Assoc.get?_foldl_set_eq (k := Chunk.slot sha1) (v := id) (addedChunks calls) []
      (a.slot sha1)
    have hne : ((addedChunks calls).filter fun ck => ck.slot sha1 = a.slot sha1) ≠ [] :=
      List.ne_nil_of_mem (List.mem_filter.mpr ⟨ha, decide_eq_true rfl⟩)
    rw [List.getLast?_eq_some_getLast hne] at hget
    have hlast := List.getLast_mem hne
    obtain ⟨hmem, hsame⟩ := List.mem_filter.mp hlast
    exact ⟨_, Assoc.mem_of_get? hget, hapart _ hmem a ha (of_decide_eq_true hsame)⟩

/-- The document infos are kept exactly if under each name, which is not one of the two that are
taken for present, the same info is registered last as first. -/
theorem firstDocsKept_iff
    (h : addReferences sha1 (earlier ++ [Reference.mk [] []]) calls = some retrieval) :
    FirstDocsKept retrieval (addedDocs calls) ↔
      ∀ doc ∈ addedDocs calls, doc.docName ∉ ["chunks", "doc_aggs"] ∧
        ((addedDocs calls).filter fun other => other.docName = doc.docName).getLast? =
          ((addedDocs calls).filter fun other => other.docName = doc.docName).head? := by
  obtain ⟨-, rfl⟩ := addReferences_eq_some h
  simp only [FirstDocsKept, getReference, List.getLastD_concat]
  refine forall₂_congr fun doc hdoc => ?_
  have hget := Assoc.get?_foldl_set_eq (k := DocInfo.docName) (v := id)
    ((addedDocs calls).filter fun doc => !isReserved doc.docName) [] doc.docName
  simp only [id_eq] at hget
  rw [hget, List.head?_filter, List.filter_filter]
  by_cases hreserved : isReserved doc.docName
  · -- nothing is ever written under such a name
    have hnone : ((addedDocs calls).filter fun other =>
        decide (other.docName = doc.docName) && !isReserved other.docName) = [] := by
      rw [List.filter_eq_nil_iff]
      intro other _ hother
      rw [Bool.and_eq_true, decide_eq_true_eq] at hother
      rw [hother.1, hreserved] at hother
      simp at hother
    have hfind : (addedDocs calls).find? (fun other => other.docName = doc.docName) ≠ none := by
      simp only [ne_eq, List.find?_eq_none, not_forall]
      exact ⟨doc, hdoc, by simp⟩
    rw [hnone]
    refine iff_of_false (fun heq => hfind heq.symm) fun hand => hand.1 ?_
    exact of_decide_eq_true hreserved
  · have hall : ((addedDocs calls).filter fun other =>
        decide (other.docName = doc.docName) && !isReserved other.docName) =
        (addedDocs calls).filter fun other => other.docName = doc.docName := by
      apply List.filter_congr
      intro other _
      by_cases hname : other.docName = doc.docName
      · simp [hname, hreserved]
      · simp [hname]
    rw [hall]
    have hmem : doc.docName ∉ ["chunks", "doc_aggs"] := fun h => hreserved (decide_eq_true h)
    simp [hmem]


/-- In a turn that starts after `earlier` ones, the chunks are kept exactly if no two different
ids have the same slot, and the document infos exactly if under each name, which is not one of the
two that are taken for present, the same info is registered last as first. -/
theorem addReferences_iff
    (h : addReferences sha1 (earlier ++ [Reference.mk [] []]) calls = some retrieval) :
    (ChunksKept retrieval (addedChunks calls) ↔
      ∀ a ∈ addedChunks calls, ∀ b ∈ addedChunks calls,
        hashStr2int sha1 a.idString 500 = hashStr2int sha1 b.idString 500 → a.id = b.id) ∧
    (FirstDocsKept retrieval (addedDocs calls) ↔
      ∀ doc ∈ addedDocs calls, doc.docName ∉ ["chunks", "doc_aggs"] ∧
        ((addedDocs calls).filter fun other => other.docName = doc.docName).getLast? =
          ((addedDocs calls).filter fun other => other.docName = doc.docName).head?) :=
  ⟨chunksKept_iff h, firstDocsKept_iff h⟩

end Turn

theorem addReferences_one :
    let calls : List (List Value × List DocInfo) :=
      [([.dict [("id", .str "c")]], [⟨"d", .int 1⟩])]
    ∃ retrieval, addReferences String.length [Reference.mk [] []] calls = some retrieval ∧
      ChunksKept retrieval (addedChunks calls) ∧ FirstDocsKept retrieval (addedDocs calls) := by
  intro calls
  obtain ⟨retrieval, hrun⟩ : ∃ retrieval,
      addReferences String.length ([] ++ [Reference.mk [] []]) calls = some retrieval := ⟨_, rfl⟩
  obtain ⟨hchunks, hdocs⟩ := addReferences_iff hrun
  refine ⟨retrieval, hrun, hchunks.mpr fun a ha b hb _ => ?_, hdocs.mpr fun doc hdoc => ?_⟩
  · obtain rfl := List.mem_singleton.mp ha
    obtain rfl := List.mem_singleton.mp hb
    rfl
  · obtain rfl := List.mem_singleton.mp hdoc
    exact ⟨by decide, rfl⟩

/-- With no hash function are all chunks kept, and none has a say in what becomes of documents. -/
theorem not_kept :
    (¬ ∃ sha1 : String → ℕ, ∀ calls retrieval,
      addReferences sha1 [Reference.mk [] []] calls = some retrieval →
        ChunksKept retrieval (addedChunks calls)) ∧
    (¬ ∃ sha1 : String → ℕ, ∀ calls retrieval,
      addReferences sha1 [Reference.mk [] []] calls = some retrieval →
        FirstDocsKept retrieval (addedDocs calls)) := by
  constructor
  · rintro ⟨sha1, hkept⟩
    -- 501 ids for 500 slots
    let name : ℕ → String := fun n => String.ofList (List.replicate n 'a')
    have hcard : Fintype.card (Fin 500) < Fintype.card (Fin 501) := by simp
    obtain ⟨i, j, hne, hslot⟩ := Fintype.exists_ne_map_eq_of_card_lt
      (fun i : Fin 501 => Fin.ofNat 500 (sha1 (name i))) hcard
    let calls : List (List Value × List DocInfo) :=
      [([.dict [("id", .str (name i))], .dict [("id", .str (name j))]], [])]
    have hrun : addReferences sha1 ([] ++ [Reference.mk [] []]) calls = some _ := rfl
    have hsame := (chunksKept_iff hrun).mp (hkept calls _ hrun)
      (chunkFormat [("id", .str (name i))]) (by simp [calls, addedChunks, chunksFormat])
      (chunkFormat [("id", .str (name j))]) (by simp [calls, addedChunks, chunksFormat])
      (congrArg Fin.val hslot)
    have hname : name i = name j := Value.str.inj hsame
    have hlength := congrArg (fun s => s.toList.length) hname
    simp only [name, String.toList_ofList, List.length_replicate] at hlength
    exact hne (Fin.ext hlength)
  · rintro ⟨sha1, hkept⟩
    have hfirst := hkept [([], [⟨"a", .int 1⟩]), ([], [⟨"a", .int 2⟩])] _ rfl ⟨"a", .int 1⟩
      (by simp [addedDocs])
    have hvalue := congrArg (Option.map DocInfo.info) hfirst
    simp [getReference, addedDocs, addDoc, Reference.contains, Assoc.set, Assoc.get?] at hvalue

end RagflowMineru.Agent.References
