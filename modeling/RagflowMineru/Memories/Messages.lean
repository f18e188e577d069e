import RagflowMineru.Library.Expiring
import RagflowMineru.Library.Table
import Mathlib.Algebra.Order.Ring.Int

/-!
# The messages of a memory

Messages live in the message store, under the index of the tenant and the id of
the memory, keyed by their `message_id`; the sizes of whole memories are cached
in Redis.  `embed_and_save` puts new messages into a memory and, when the memory
is too small for them, first deletes old ones.

The store answers a search with the first rows in some order; which of several
equal rows come first is left open, so the answers are part of the
circumstances of a call.  So are the lifetimes that end between two commands it
sends to Redis.
-/

namespace RagflowMineru.Memories

open RagflowMineru.Library

variable {χ : Type*}

/-- A vector of an embedding model. -/
structure Embedding (χ : Type*) where
  components : List χ
  nonempty : components ≠ []

/-- A message with its embedding; dates are numbers in their order. -/
structure Message (χ : Type*) where
  messageType : String
  sourceId : ℕ
  userId : String
  agentId : String
  sessionId : String
  content : String
  validAt : ℕ
  invalidAt : Option ℕ
  forgetAt : Option ℕ
  contentEmbed : Embedding χ

instance [Inhabited χ] : Inhabited (Message χ) :=
  ⟨⟨"", 0, "", "", "", "", 0, none, none, ⟨[default], by simp⟩⟩⟩

/-- What Python and the message store decide: `sys.getsizeof` of a string and of
a component of a vector, and the component the store gives back for one it was
given. -/
structure Host (χ : Type*) where
  getsizeofStr : String → ℕ
  getsizeof : χ → ℕ
  readBack : χ → χ

/-- A float takes 24 bytes, an ASCII string 41 and one for each character. -/
def floatHost : Host ℤ where
  getsizeofStr text := 41 + text.length
  getsizeof _ := 24
  readBack := id

/-- The columns of the `memory` table that matter here.  Ids of memories and of
tenants are UUIDs. -/
structure Memory where
  id : String
  tenantId : String
  memoryType : ℕ
  memorySize : ℤ
  forgettingPolicy : String
  id_ne_tenantId : id ≠ tenantId

/-- Redis and the message store. -/
structure State (χ : Type*) where
  redis : Expiring String ℤ
  store : String × String → Table ℕ (Message χ)

/-- `index_name`. -/
def indexName (uid : String) : String := "memory_" ++ uid

/-- The `id` of the document of a message. -/
def docId (memoryId : String) (messageId : ℕ) : String :=
  memoryId ++ "_" ++ toString messageId

/-- Where the messages of a memory are. -/
def Memory.slot (m : Memory) : String × String := (indexName m.tenantId, m.id)

def State.messages (s : State χ) (m : Memory) : Table ℕ (Message χ) := s.store m.slot

def State.setMessages (s : State χ) (m : Memory) (t : Table ℕ (Message χ)) : State χ :=
  { s with store := Function.update s.store m.slot t }

@[simp] theorem State.messages_setMessages (s : State χ) (m : Memory)
    (t : Table ℕ (Message χ)) : (s.setMessages m t).messages m = t := by
  simp [messages, setMessages]

@[simp] theorem State.redis_setMessages (s : State χ) (m : Memory)
    (t : Table ℕ (Message χ)) : (s.setMessages m t).redis = s.redis := rfl

theorem State.store_setMessages_of_ne (s : State χ) {m : Memory} {slot : String × String}
    (t : Table ℕ (Message χ)) (h : slot ≠ m.slot) :
    (s.setMessages m t).store slot = s.store slot := by
  simp [setMessages, h]

/-! ## Sizes -/

/-- `calculate_message_size`. -/
def calculateMessageSize (h : Host χ) (msg : Message χ) : ℤ :=
  h.getsizeofStr msg.content +
    h.getsizeof (msg.contentEmbed.components.head msg.contentEmbed.nonempty) *
      msg.contentEmbed.components.length

theorem calculateMessageSize_nonneg (h : Host χ) (msg : Message χ) :
    0 ≤ calculateMessageSize h msg :=
  add_nonneg (Int.natCast_nonneg _)
    (mul_nonneg (Int.natCast_nonneg _) (Int.natCast_nonneg _))

/-- The message as the store gives it back. -/
def Message.readBack (h : Host χ) (msg : Message χ) : Message χ :=
  { msg with
    contentEmbed :=
      ⟨msg.contentEmbed.components.map h.readBack, by simp [msg.contentEmbed.nonempty]⟩ }

/-- `calculate_memory_size` of one memory, when the search for its messages
returns `found`. -/
def calculateMemorySize (h : Host χ) (t : Table ℕ (Message χ)) (found : List ℕ) : ℤ :=
  (found.map fun k => calculateMessageSize h (t.row k)).sum

/-- The size of all messages of a table. -/
def totalSize (h : Host χ) (t : Table ℕ (Message χ)) : ℤ :=
  t.total (calculateMessageSize h)

theorem totalSize_nonneg (h : Host χ) (t : Table ℕ (Message χ)) : 0 ≤ totalSize h t :=
  Table.total_nonneg (calculateMessageSize_nonneg h)

/-- The size of the messages of a call, as `embed_and_save` computes it. -/
def newSize (h : Host χ) (msgs : List (ℕ × Message χ)) : ℤ :=
  (msgs.map fun r => calculateMessageSize h r.2).sum

/-! ## First in, first out -/

/-- The loop of `pick_messages_to_delete_by_fifo`: take messages until the
target is reached. -/
def takeUntil (size : ℕ → ℤ) (target : ℤ) : ℤ → List ℕ → List ℕ × ℤ
  | current, [] => ([], current)
  | current, k :: ks =>
      if current < target then
        let rest := takeUntil size target (current + size k) ks
        (k :: rest.1, rest.2)
      else ([], current)

theorem takeUntil_initial (size : ℕ → ℤ) (target current : ℤ) (ks : List ℕ) :
    (takeUntil size target current ks).1 <+: ks := by
  induction ks generalizing current with
  | nil => simp [takeUntil]
  | cons k ks ih =>
      rw [takeUntil]
      split
      · exact (List.prefix_cons_inj k).mpr (ih _)
      · exact List.nil_prefix

theorem takeUntil_size (size : ℕ → ℤ) (target current : ℤ) (ks : List ℕ) :
    (takeUntil size target current ks).2 =
      current + ((takeUntil size target current ks).1.map size).sum := by
  induction ks generalizing current with
  | nil => simp [takeUntil]
  | cons k ks ih =>
      rw [takeUntil]
      split
      · rw [ih, List.map_cons, List.sum_cons, add_assoc]
      · simp

/-- `pick_messages_to_delete_by_fifo`: the forgotten messages first, then the
others. -/
def pickMessagesToDeleteByFifo (h : Host χ) (t : Table ℕ (Message χ))
    (forgotten oldest : List ℕ) (sizeToDelete : ℤ) : List ℕ × ℤ :=
  let size k := calculateMessageSize h (t.row k)
  let first := takeUntil size sizeToDelete 0 forgotten
  if sizeToDelete ≤ first.2 then first
  else
    let second := takeUntil size sizeToDelete first.2 oldest
    (first.1 ++ second.1, second.2)

/-- `order_by.asc("forget_at")`, between forgotten messages. -/
def ForgottenBefore (msg msg' : Message χ) : Prop :=
  msg.forgetAt.getD 0 ≤ msg'.forgetAt.getD 0

/-- `order_by.asc("valid_at")`. -/
def ValidBefore (msg msg' : Message χ) : Prop := msg.validAt ≤ msg'.validAt

/-- `order_by.desc("valid_at")`. -/
def ValidAfter (msg msg' : Message χ) : Prop := ValidBefore msg' msg

instance : DecidableRel (ForgottenBefore (χ := χ)) := fun _ _ =>
  inferInstanceAs (Decidable (_ ≤ _))

instance : DecidableRel (ValidBefore (χ := χ)) := fun _ _ =>
  inferInstanceAs (Decidable (_ ≤ _))

instance : DecidableRel (ValidAfter (χ := χ)) := fun _ _ =>
  inferInstanceAs (Decidable (ValidBefore _ _))

/-- What the two searches of the picking loop return. -/
structure FifoAnswers (t : Table ℕ (Message χ)) (forgotten oldest : List ℕ) : Prop where
  forgotten_first :
    t.FirstRows (fun msg => msg.forgetAt.isSome) ForgottenBefore 512 forgotten
  oldest_first : t.FirstRows (fun msg => msg.forgetAt = none) ValidBefore 512 oldest

section

variable {h : Host χ} {t : Table ℕ (Message χ)} {forgotten oldest : List ℕ}
  {sizeToDelete : ℤ}

theorem pick_size :
    (pickMessagesToDeleteByFifo h t forgotten oldest sizeToDelete).2 =
      ((pickMessagesToDeleteByFifo h t forgotten oldest sizeToDelete).1.map
        fun k => calculateMessageSize h (t.row k)).sum := by
  unfold pickMessagesToDeleteByFifo
  dsimp only
  split
  · rw [takeUntil_size, zero_add]
  · rw [takeUntil_size, takeUntil_size, List.map_append, List.sum_append, zero_add]

theorem mem_pick {k : ℕ}
    (hk : k ∈ (pickMessagesToDeleteByFifo h t forgotten oldest sizeToDelete).1) :
    k ∈ forgotten ∨ k ∈ oldest := by
  unfold pickMessagesToDeleteByFifo at hk
  dsimp only at hk
  split at hk
  · exact .inl ((takeUntil_initial ..).subset hk)
  · obtain hk | hk := List.mem_append.mp hk
    · exact .inl ((takeUntil_initial ..).subset hk)
    · exact .inr ((takeUntil_initial ..).subset hk)

theorem FifoAnswers.mem_keys_of_mem_pick (hans : FifoAnswers t forgotten oldest) {k : ℕ}
    (hk : k ∈ (pickMessagesToDeleteByFifo h t forgotten oldest sizeToDelete).1) :
    k ∈ t.keys :=
  (mem_pick hk).elim hans.forgotten_first.mem_keys hans.oldest_first.mem_keys

/-- No message is picked twice: a forgotten one is not among the others. -/
theorem FifoAnswers.nodup_pick (hans : FifoAnswers t forgotten oldest) :
    (pickMessagesToDeleteByFifo h t forgotten oldest sizeToDelete).1.Nodup := by
  unfold pickMessagesToDeleteByFifo
  dsimp only
  have hfirst := hans.forgotten_first.nodup.sublist
    (takeUntil_initial (fun k => calculateMessageSize h (t.row k)) sizeToDelete 0
      forgotten).sublist
  split
  · exact hfirst
  · refine hfirst.append
      (hans.oldest_first.nodup.sublist (takeUntil_initial ..).sublist) ?_
    intro k hk hk'
    have hsome := hans.forgotten_first.satisfies ((takeUntil_initial ..).subset hk)
    have hnone := hans.oldest_first.satisfies ((takeUntil_initial ..).subset hk')
    simp [hnone] at hsome

end

end RagflowMineru.Memories
