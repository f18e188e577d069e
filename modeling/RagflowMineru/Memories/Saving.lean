import RagflowMineru.Memories.Messages

/-!
# Saving messages

`embed_and_save` asks for the cached size of the memory, makes room, writes the
messages and counts them.  It asks for the cached size with the ids of the
tenant and of the memory in each other's place, so what it reads is the cache of
a memory that does not exist.
-/

namespace RagflowMineru.Memories

open RagflowMineru.Library

variable {χ : Type*}

/-- The points between two Redis commands of a save at which a lifetime can end
to some effect. -/
inductive Moment
  | reading
  | decreasing
  | increasing

/-- What happens around one call: the keys whose lifetimes end before the
commands of a moment, the answers of the message store, whether the index is or
can be made, and the documents the store rejects with its reasons. -/
structure Circumstances where
  lost : Moment → List String
  found : List ℕ
  forgotten : List ℕ
  oldest : List ℕ
  indexReady : Bool
  failCases : List (ℕ × String)

/-- No lifetime ends and nothing fails. -/
def calm (oldest : List ℕ) : Circumstances where
  lost _ := []
  found := []
  forgotten := []
  oldest := oldest
  indexReady := true
  failCases := []

inductive Result
  | saved
  | failed (message : String)
  | raised
  deriving DecidableEq

/-! ## The size cache -/

def sizeKey (memoryId : String) : String := "memory_" ++ memoryId

theorem sizeKey_injective {memoryId memoryId' : String} :
    sizeKey memoryId = sizeKey memoryId' ↔ memoryId = memoryId' := by
  rw [← String.toList_inj, ← String.toList_inj]
  simp [sizeKey]

def State.lose (s : State χ) (ks : List String) : State χ :=
  { s with redis := s.redis.expireAll ks }

def setMemorySizeCache (s : State χ) (memoryId : String) (size : ℤ) : State χ :=
  { s with redis := s.redis.put (sizeKey memoryId) size true }

def increaseMemorySizeCache (s : State χ) (memoryId : String) (size : ℤ) : State χ :=
  { s with redis := s.redis.incrBy (sizeKey memoryId) size }

def decreaseMemorySizeCache (s : State χ) (memoryId : String) (size : ℤ) : State χ :=
  { s with redis := s.redis.incrBy (sizeKey memoryId) (-size) }

/-- `get_memory_size_cache`.  A key that is there for `exists` and gone for
`get` makes `int(None)` raise. -/
def getMemorySizeCache (h : Host χ) (s : State χ) (memoryId uid : String)
    (c : Circumstances) : Option ℤ × State χ :=
  let later := s.lose (c.lost .reading)
  if (s.redis.get (sizeKey memoryId)).isSome then
    (later.redis.get (sizeKey memoryId), later)
  else
    let size := calculateMemorySize h (s.store (indexName uid, memoryId)) c.found
    (some size, setMemorySizeCache later memoryId size)

/-! ## `embed_and_save` -/

/-- Make room under the FIFO policy. -/
def evict (h : Host χ) (m : Memory) (s : State χ) (c : Circumstances)
    (sizeToDelete : ℤ) : State χ :=
  let picked := pickMessagesToDeleteByFifo h (s.messages m) c.forgotten c.oldest sizeToDelete
  let deleted := s.setMessages m ((s.messages m).deleteAll picked.1)
  decreaseMemorySizeCache (deleted.lose (c.lost .decreasing)) m.id picked.2

/-- `embed_and_save` up to the insertion: the state it is made in, or what the
call returns instead. -/
def makeRoom (h : Host χ) (m : Memory) (s : State χ) (msgs : List (ℕ × Message χ))
    (c : Circumstances) : Except (Result × State χ) (State χ) :=
  -- `vector_list[0]` of no vectors
  if msgs.isEmpty then .error (.raised, s)
  else if !c.indexReady then .error (.failed "Failed to create message index.", s)
  else
    match getMemorySizeCache h s m.tenantId m.id c with
    | (none, s') => .error (.raised, s')
    | (some current, s') =>
        if m.memorySize < newSize h msgs + current then
          if m.forgettingPolicy = "FIFO" then
            .ok (evict h m s' c (current + newSize h msgs - m.memorySize))
          else
            .error (.failed ("Failed to insert message into memory. " ++
              "Memory size reached limit and cannot decide which to delete."), s')
        else .ok s'

/-- The documents of `insert_message` that the store takes. -/
def accepted (h : Host χ) (msgs : List (ℕ × Message χ)) (c : Circumstances) :
    List (ℕ × Message χ) :=
  (msgs.filter fun r => r.1 ∉ c.failCases.map Prod.fst).map fun r => (r.1, r.2.readBack h)

def failMessage (m : Memory) (c : Circumstances) : String :=
  "Failed to insert message into memory. Details: " ++
    "; ".intercalate (c.failCases.map fun f => docId m.id f.1 ++ ":" ++ f.2)

/-- `embed_and_save` from the insertion on. -/
def insertNew (h : Host χ) (m : Memory) (s : State χ) (msgs : List (ℕ × Message χ))
    (c : Circumstances) : Result × State χ :=
  let inserted := s.setMessages m ((s.messages m).insertAll (accepted h msgs c))
  if c.failCases.isEmpty then
    (.saved, increaseMemorySizeCache (inserted.lose (c.lost .increasing)) m.id (newSize h msgs))
  else (.failed (failMessage m c), inserted)

def embedAndSave (h : Host χ) (m : Memory) (s : State χ) (msgs : List (ℕ × Message χ))
    (c : Circumstances) : Result × State χ :=
  match makeRoom h m s msgs c with
  | .error r => r
  | .ok s' => insertNew h m s' msgs c

/-- The answers in `c` are answers to the searches of a save in `s`. -/
structure Circumstances.AnswersSave (c : Circumstances) (m : Memory) (s : State χ) : Prop where
  found : (s.store (indexName m.id, m.tenantId)).FirstRows (fun _ => True)
    ValidAfter 2048 c.found
  fifo : FifoAnswers (s.messages m) c.forgotten c.oldest

instance (t : Table ℕ (Message χ)) (forgotten oldest : List ℕ) :
    Decidable (FifoAnswers t forgotten oldest) :=
  decidable_of_iff (_ ∧ _) ⟨fun h => ⟨h.1, h.2⟩, fun h => ⟨h.1, h.2⟩⟩

instance (c : Circumstances) (m : Memory) (s : State χ) : Decidable (c.AnswersSave m s) :=
  decidable_of_iff (_ ∧ _) ⟨fun h => ⟨h.1, h.2⟩, fun h => ⟨h.1, h.2⟩⟩

/-! ## What a save leaves alone -/

/-- Between the two states only the two size caches of a save were written, other
keys at most lost, and no message was added. -/
structure Reduced (m : Memory) (s s' : State χ) : Prop where
  redis : ∀ k v, k ≠ sizeKey m.id → k ≠ sizeKey m.tenantId →
    s'.redis.get k = some v → s.redis.get k = some v
  store : ∀ slot, slot ≠ m.slot → s'.store slot = s.store slot
  keys : (s'.messages m).keys ⊆ (s.messages m).keys

section

variable {h : Host χ} {m : Memory} {s s' : State χ} {msgs : List (ℕ × Message χ)}
  {c : Circumstances}

theorem Reduced.refl (m : Memory) (s : State χ) : Reduced m s s :=
  ⟨fun _ _ _ _ hv => hv, fun _ _ => rfl, subset_rfl⟩

theorem Reduced.trans {s'' : State χ} (h : Reduced m s s') (h' : Reduced m s' s'') :
    Reduced m s s'' where
  redis k v hid htenant hv := h.redis k v hid htenant (h'.redis k v hid htenant hv)
  store slot hne := (h'.store slot hne).trans (h.store slot hne)
  keys := h'.keys.trans h.keys

theorem Reduced.keys_subset (h : Reduced m s s') (slot : String × String) :
    (s'.store slot).keys ⊆ (s.store slot).keys := by
  by_cases hslot : slot = m.slot
  · subst hslot
    exact h.keys
  · rw [h.store slot hslot]

theorem store_getMemorySizeCache (memoryId uid : String) :
    (getMemorySizeCache h s memoryId uid c).2.store = s.store := by
  unfold getMemorySizeCache
  dsimp only
  split <;> rfl

theorem redis_getMemorySizeCache {memoryId uid k : String} (hk : k ≠ sizeKey memoryId) :
    (getMemorySizeCache h s memoryId uid c).2.redis k =
      s.redis.expireAll (c.lost .reading) k := by
  unfold getMemorySizeCache
  dsimp only
  split
  · rfl
  · exact Function.update_of_ne hk _ _

theorem reduced_getMemorySizeCache :
    Reduced m s (getMemorySizeCache h s m.tenantId m.id c).2 where
  redis k v _ htenant hv := by
    rw [Expiring.get, redis_getMemorySizeCache htenant] at hv
    exact Expiring.get_of_get_expireAll hv
  store slot _ := by rw [store_getMemorySizeCache]
  keys := by rw [State.messages, store_getMemorySizeCache, State.messages]

theorem reduced_evict (sizeToDelete : ℤ) : Reduced m s (evict h m s c sizeToDelete) where
  redis k v hid _ hv := by
    rw [evict, decreaseMemorySizeCache, Expiring.get_incrBy_of_ne _ _ hid] at hv
    exact Expiring.get_of_get_expireAll hv
  store slot hne := s.store_setMessages_of_ne _ hne
  keys := by
    intro k hk
    change k ∈ ((s.setMessages m _).messages m).keys at hk
    rw [State.messages_setMessages] at hk
    exact (Table.mem_keys_deleteAll.mp hk).1

/-- What making room came to, when the call goes on to the insertion. -/
theorem makeRoom_ok_cases (hroom : makeRoom h m s msgs c = .ok s') :
    ∃ current, (getMemorySizeCache h s m.tenantId m.id c).1 = some current ∧
      ((newSize h msgs + current ≤ m.memorySize ∧
          s' = (getMemorySizeCache h s m.tenantId m.id c).2) ∨
        (m.memorySize < newSize h msgs + current ∧ m.forgettingPolicy = "FIFO" ∧
          s' = evict h m (getMemorySizeCache h s m.tenantId m.id c).2 c
            (current + newSize h msgs - m.memorySize))) := by
  unfold makeRoom at hroom
  generalize getMemorySizeCache h s m.tenantId m.id c = read at hroom ⊢
  obtain ⟨_ | current, later⟩ := read
  · split_ifs at hroom
  · refine ⟨current, rfl, ?_⟩
    dsimp only at hroom ⊢
    split_ifs at hroom with _ _ hsize hpolicy
    · exact .inr ⟨hsize, hpolicy, (Except.ok.inj hroom).symm⟩
    · exact .inl ⟨not_lt.mp hsize, (Except.ok.inj hroom).symm⟩

theorem ne_nil_of_makeRoom_ok (hroom : makeRoom h m s msgs c = .ok s') : msgs ≠ [] := by
  rintro rfl
  simp [makeRoom] at hroom

/-- A call that ends before the insertion has saved nothing and at most asked
for the cached size. -/
theorem makeRoom_error_cases {r : Result} (hroom : makeRoom h m s msgs c = .error (r, s')) :
    r ≠ .saved ∧ (s' = s ∨ s' = (getMemorySizeCache h s m.tenantId m.id c).2) := by
  unfold makeRoom at hroom
  generalize getMemorySizeCache h s m.tenantId m.id c = read at hroom ⊢
  obtain ⟨_ | current, later⟩ := read
  all_goals
    dsimp only at hroom ⊢
    split_ifs at hroom
    all_goals
      obtain ⟨rfl, rfl⟩ := Prod.mk.inj (Except.error.inj hroom)
      simp

theorem reduced_makeRoom (hroom : makeRoom h m s msgs c = .ok s') : Reduced m s s' := by
  obtain ⟨current, -, ⟨-, rfl⟩ | ⟨-, -, rfl⟩⟩ := makeRoom_ok_cases hroom
  · exact reduced_getMemorySizeCache
  · exact reduced_getMemorySizeCache.trans (reduced_evict _)

theorem reduced_makeRoom_error {r : Result}
    (hroom : makeRoom h m s msgs c = .error (r, s')) : Reduced m s s' := by
  obtain ⟨-, rfl | rfl⟩ := makeRoom_error_cases hroom
  · exact .refl m s'
  · exact reduced_getMemorySizeCache

theorem redis_insertNew {k : String} {v : ℤ} (hk : k ≠ sizeKey m.id)
    (hv : (insertNew h m s msgs c).2.redis.get k = some v) : s.redis.get k = some v := by
  rw [insertNew] at hv
  split at hv
  · rw [increaseMemorySizeCache, Expiring.get_incrBy_of_ne _ _ hk] at hv
    exact Expiring.get_of_get_expireAll hv
  · exact hv

theorem store_insertNew :
    (insertNew h m s msgs c).2.store =
      (s.setMessages m ((s.messages m).insertAll (accepted h msgs c))).store := by
  rw [insertNew]
  split <;> rfl

theorem messages_insertNew :
    (insertNew h m s msgs c).2.messages m =
      (s.messages m).insertAll (accepted h msgs c) := by
  rw [State.messages, store_insertNew]
  exact s.messages_setMessages m _

/-- A document is one from before, or one of the call. -/
theorem mem_keys_insertNew {slot : String × String} {n : ℕ}
    (hn : n ∈ ((insertNew h m s msgs c).2.store slot).keys) :
    n ∈ (s.store slot).keys ∨ n ∈ (accepted h msgs c).map Prod.fst := by
  rw [store_insertNew] at hn
  by_cases hslot : slot = m.slot
  · subst hslot
    rw [← store_insertNew, ← State.messages, messages_insertNew] at hn
    exact Table.mem_keys_insertAll.mp hn
  · rw [s.store_setMessages_of_ne _ hslot] at hn
    exact .inl hn

theorem accepted_sublist :
    ((accepted h msgs c).map Prod.fst).Sublist (msgs.map Prod.fst) := by
  rw [accepted, List.map_map]
  exact List.filter_sublist.map Prod.fst

end

end RagflowMineru.Memories
