import RagflowMineru.Library.Driven
import RagflowMineru.Memories.Saving
import Mathlib.Data.Finset.Union

/-!
# The ids of new messages

Message ids come from a counter in Redis.  At start-up the counter is set to the
largest stored id, with the default time-to-live of an hour; when that is over,
the next id starts from one again.  A save first asks for one id after the other
and then stores its messages under them.
-/

namespace RagflowMineru.Memories

open RagflowMineru.Library

variable {χ : Type*}

/-! ## The counter -/

/-- `f"{key_prefix}:{namespace}"`. -/
def idKey : String := "id_generator" ++ ":" ++ "memory"

/-- The increment of `generate_auto_increment_id`. -/
def nextId (redis : Expiring String ℤ) (key : String) (increment : ℤ) :
    ℤ × Expiring String ℤ :=
  let redis' := redis.incrBy key increment
  let id := (redis.get key).getD 0 + increment
  -- the first time, or a counter that was lost
  if id = increment then (1 + increment, redis'.put key (1 + increment) false)
  else (id, redis')

def generateAutoIncrementId (redis : Expiring String ℤ) (key : String) (increment : ℤ)
    (ensureMinimum : Option ℤ) : ℤ × Expiring String ℤ :=
  match ensureMinimum with
  | none => nextId redis key increment
  | some minimum =>
      match redis.get key with
      | none => (max 1 minimum, redis.put key (max 1 minimum) false)
      | some current =>
          if current < minimum then (minimum, redis.put key minimum false)
          else nextId redis key increment

/-- The engine of the message store. -/
inductive Engine
  | elasticsearch
  | infinity
  | oceanbase

/-- The order of message ids in a search.  Only Infinity has them as integers;
Elasticsearch maps every `*_id` to a keyword, and OceanBase has a string column. -/
def Engine.IdLe : Engine → ℕ → ℕ → Prop
  | infinity, n, k => n ≤ k
  | elasticsearch, n, k | oceanbase, n, k => toString n ≤ toString k

instance (engine : Engine) : DecidableRel engine.IdLe := fun n k =>
  match engine with
  | .infinity => inferInstanceAs (Decidable (n ≤ k))
  | .elasticsearch | .oceanbase => inferInstanceAs (Decidable (toString n ≤ toString k))

/-- The ids in the indexes of all tenants that have memories. -/
def allIds (s : State χ) (memories : List Memory) : Finset ℕ :=
  (memories.flatMap fun m => memories.map fun m' => (indexName m.tenantId, m'.id)).toFinset.biUnion
    fun slot => (s.store slot).keys

/-- `latest` is the first hit of the search in `get_max_message_id`. -/
def IsLatest (engine : Engine) (ids : Finset ℕ) : Option ℕ → Prop
  | none => ids = ∅
  | some latest => latest ∈ ids ∧ ∀ n ∈ ids, engine.IdLe n latest

instance (engine : Engine) (ids : Finset ℕ) :
    (latest : Option ℕ) → Decidable (IsLatest engine ids latest)
  | none => inferInstanceAs (Decidable (ids = ∅))
  | some _ => inferInstanceAs (Decidable (_ ∧ _))

def getMaxMessageId (latest : Option ℕ) : ℕ := latest.getD 1

/-- What `init_message_id_sequence` sets a missing counter to. -/
def initialId (memories : List Memory) (latest : Option ℕ) : ℕ :=
  if memories.isEmpty then 1 else getMaxMessageId latest

def initMessageIdSequence (memories : List Memory) (s : State χ) (latest : Option ℕ) : State χ :=
  if (s.redis.get idKey).isSome then s
  else { s with redis := s.redis.put idKey (initialId memories latest) true }

/-! ## The saves -/

structure Dialogue where
  userId : String
  agentId : String
  sessionId : String
  userInput : String
  agentResponse : String

/-- What the model extracts from a dialogue, with the vector of its content. -/
structure Extracted (χ : Type*) where
  messageType : String
  content : String
  validAt : ℕ
  invalidAt : Option ℕ
  contentEmbed : Embedding χ

/-- A message that has no id yet. -/
inductive Draft (χ : Type*)
  | raw (d : Dialogue) (now : ℕ) (contentEmbed : Embedding χ)
  | extracted (d : Dialogue) (e : Extracted χ)

def Draft.isRaw : Draft χ → Bool
  | raw .. => true
  | extracted .. => false

def Draft.message (sourceId : ℕ) : Draft χ → Message χ
  | raw d now contentEmbed =>
      { messageType := "raw"
        sourceId := 0
        userId := d.userId
        agentId := d.agentId
        sessionId := d.sessionId
        content := "User Input: " ++ d.userInput ++ "\nAgent Response: " ++ d.agentResponse
        validAt := now
        invalidAt := none
        forgetAt := none
        contentEmbed := contentEmbed }
  | extracted d e =>
      { messageType := e.messageType
        sourceId := sourceId
        userId := d.userId
        agentId := d.agentId
        sessionId := d.sessionId
        content := e.content
        validAt := e.validAt
        invalidAt := e.invalidAt
        forgetAt := none
        contentEmbed := e.contentEmbed }

/-- A save of one memory under way: the messages that have their ids and those
that wait for one. -/
structure Call (χ : Type*) where
  memory : Memory
  sourceId : ℕ
  todo : List (Draft χ)
  done : List (ℕ × Message χ)

inductive Operation (χ : Type*)
  | saveToMemory (memoryId : String) (d : Dialogue) (now : ℕ) (contentEmbed : Embedding χ)
      (extracted : List (Extracted χ))
  | saveExtractedToMemoryOnly (memoryId : String) (d : Dialogue) (sourceId : ℕ)
      (extracted : List (Extracted χ))
  | queueSaveToMemoryTask (memoryIds : List (String × Embedding χ)) (d : Dialogue) (now : ℕ)

def getByMemoryId (memories : List Memory) (memoryId : String) : Option Memory :=
  memories.find? fun m => m.id = memoryId

/-- `MemoryType.RAW.value`. -/
def rawType : ℕ := 1

/-- The saves an operation comes to, one memory after the other. -/
def Operation.calls (memories : List Memory) : Operation χ → List (Call χ)
  | saveToMemory memoryId d now contentEmbed extracted =>
      match getByMemoryId memories memoryId with
      | none => []
      | some m =>
          let drafts := if m.memoryType = rawType then [] else extracted.map (.extracted d)
          [⟨m, 0, .raw d now contentEmbed :: drafts, []⟩]
  | saveExtractedToMemoryOnly memoryId d sourceId extracted =>
      match getByMemoryId memories memoryId with
      | none => []
      | some m =>
          if m.memoryType = rawType ∨ extracted.isEmpty then []
          else [⟨m, sourceId, extracted.map (.extracted d), []⟩]
  | queueSaveToMemoryTask memoryIds d now =>
      memoryIds.flatMap fun r =>
        match getByMemoryId memories r.1 with
        | none => []
        | some m => [⟨m, 0, [.raw d now r.2], []⟩]

/-! ## The system -/

/-- What happens to ids.  `existed` tells that the document of the message was
there already. -/
inductive Event
  | handed (id : ℕ)
  | inserted (memoryId : String) (id : ℕ) (existed : Bool)
  deriving DecidableEq

/-- Redis, the message store, the operation under way and all that has happened
to ids, the latest first. -/
structure Ids (χ : Type*) extends State χ where
  calls : List (Call χ)
  journal : List Event

/-- `next` hands out the next id an operation waits for; `embed` stores the
messages of a save that has all its ids. -/
inductive IdInput (χ : Type*)
  | expire (key : String)
  | init (latest : Option ℕ)
  | start (op : Operation χ)
  | next
  | embed (c : Circumstances)

def Ids.fresh [Inhabited χ] : Ids χ where
  redis := Expiring.empty
  store := fun _ => Table.empty
  calls := []
  journal := []

/-- The insertion of the documents into the table, one by one. -/
def insertionEvents (memoryId : String) :
    Table ℕ (Message χ) → List (ℕ × Message χ) → List Event
  | _, [] => []
  | t, r :: rows =>
      insertionEvents memoryId (t.insert r.1 r.2) rows ++
        [.inserted memoryId r.1 (r.1 ∈ t.keys)]

/-- The events of the save of a call. -/
def Call.events (h : Host χ) (call : Call χ) (s : State χ) (c : Circumstances) : List Event :=
  match makeRoom h call.memory s call.done c with
  | .error _ => []
  | .ok s' =>
      insertionEvents call.memory.id (s'.messages call.memory) (accepted h call.done c)

def Ids.next (s : Ids χ) (call : Call χ) (draft : Draft χ) (todo : List (Draft χ))
    (calls : List (Call χ)) : Ids χ :=
  let result := generateAutoIncrementId s.redis idKey 1 none
  let id := result.1.toNat
  { redis := result.2
    store := s.store
    calls :=
      { call with
        sourceId := if draft.isRaw then id else call.sourceId
        todo := todo
        done := call.done ++ [(id, draft.message call.sourceId)] } :: calls
    journal := .handed id :: s.journal }

def Ids.embed (h : Host χ) (s : Ids χ) (call : Call χ) (calls : List (Call χ))
    (c : Circumstances) : Ids χ :=
  let result := embedAndSave h call.memory s.toState call.done c
  { toState := result.2
    -- an exception also ends the loop over the other memories
    calls := if result.1 = .raised then [] else calls
    journal := call.events h s.toState c ++ s.journal }

def idStep (h : Host χ) (engine : Engine) (memories : List Memory) (s : Ids χ) :
    IdInput χ → Option (Ids χ)
  | .expire key => some { s with redis := s.redis.expire key }
  | .init latest =>
      if s.calls.isEmpty ∧ IsLatest engine (allIds s.toState memories) latest then
        some { s with toState := initMessageIdSequence memories s.toState latest }
      else none
  | .start op =>
      if s.calls.isEmpty then some { s with calls := op.calls memories } else none
  | .next =>
      match s.calls with
      | ⟨m, sourceId, draft :: todo, done⟩ :: calls =>
          some (s.next ⟨m, sourceId, draft :: todo, done⟩ draft todo calls)
      | _ => none
  | .embed c =>
      match s.calls with
      | ⟨m, sourceId, [], done⟩ :: calls =>
          if c.AnswersSave m s.toState then some (s.embed h ⟨m, sourceId, [], done⟩ calls c)
          else none
      | _ => none

/-! ## What is claimed -/

/-- No id was handed out after a message had been stored under it, and no
insertion met a document with its id. -/
def NeverReused : List Event → Prop
  | [] => True
  | .handed id :: past =>
      (∀ memoryId existed, .inserted memoryId id existed ∉ past) ∧ NeverReused past
  | .inserted _ _ existed :: past => existed = false ∧ NeverReused past

def Event.inserted? : Event → Option ℕ
  | handed _ => none
  | inserted _ id _ => some id

/-- The ids of all messages that were ever stored. -/
def Ids.inserted (s : Ids χ) : List ℕ := s.journal.filterMap Event.inserted?

/-- The ids that were handed out and wait for the insertion. -/
def Ids.pending (s : Ids χ) : List ℕ := s.calls.flatMap fun call => call.done.map Prod.fst

/-- The condition on a step: a counter that is not there is restarted at an id
that no message has gone beyond. -/
def IdSteady (memories : List Memory) (s : Ids χ) : IdInput χ → Prop
  | .next => (s.redis.get idKey).isSome ∨ ∀ n ∈ s.inserted ++ s.pending, n ≤ 1
  | .init latest =>
      (s.redis.get idKey).isSome ∨
        ∀ n ∈ s.inserted ++ s.pending, n ≤ initialId memories latest
  | _ => True

instance (memories : List Memory) (s : Ids χ) :
    (i : IdInput χ) → Decidable (IdSteady memories s i)
  | .next => inferInstanceAs (Decidable (_ ∨ _))
  | .init _ => inferInstanceAs (Decidable (_ ∨ _))
  | .expire _ | .start _ | .embed _ => .isTrue trivial

/-! ## What keeps ids apart -/

/-- The counter is not behind any id, and ids wait at most once, for messages
that are new. -/
structure IdInv (s : Ids χ) : Prop where
  neverReused : NeverReused s.journal
  counter_pos : ∀ v, s.redis.get idKey = some v → 1 ≤ v
  counter : ∀ v, s.redis.get idKey = some v → ∀ n ∈ s.inserted ++ s.pending, (n : ℤ) ≤ v
  positive : ∀ n ∈ s.inserted ++ s.pending, 1 ≤ n
  stored : ∀ slot, ∀ n ∈ (s.store slot).keys, n ∈ s.inserted
  pending_nodup : s.pending.Nodup
  pending_new : ∀ n ∈ s.pending, n ∉ s.inserted

theorem idInv_fresh [Inhabited χ] : IdInv (Ids.fresh : Ids χ) := by
  constructor <;> simp [Ids.fresh, Ids.inserted, Ids.pending, NeverReused, Table.empty]

theorem idKey_ne_sizeKey (memoryId : String) : idKey ≠ sizeKey memoryId := by
  intro heq
  have hlist := congrArg String.toList heq
  simp [idKey, sizeKey] at hlist

theorem nextId_spec {redis : Expiring String ℤ} {key : String}
    (hpos : ∀ v, redis.get key = some v → 1 ≤ v) :
    (nextId redis key 1).1 = (redis.get key).getD 1 + 1 ∧
      (nextId redis key 1).2.get key = some (nextId redis key 1).1 := by
  cases hkey : redis.get key with
  | none => simp [nextId, hkey]
  | some v =>
      have hv : v + 1 ≠ 1 := by
        have := hpos v hkey
        omega
      simp [nextId, hkey, hv]

section

variable {s : Ids χ}

/-- The redis part of a step that writes nothing else. -/
theorem IdInv.of_redis (hinv : IdInv s) {redis : Expiring String ℤ}
    (hget : ∀ v, redis.get idKey = some v → s.redis.get idKey = some v) :
    IdInv { s with redis := redis } where
  neverReused := hinv.neverReused
  counter_pos v hv := hinv.counter_pos v (hget v hv)
  counter v hv := hinv.counter v (hget v hv)
  positive := hinv.positive
  stored := hinv.stored
  pending_nodup := hinv.pending_nodup
  pending_new := hinv.pending_new

theorem IdInv.inserted_of_mem_allIds (hinv : IdInv s) {memories : List Memory} {n : ℕ}
    (hn : n ∈ allIds s.toState memories) : n ∈ s.inserted := by
  obtain ⟨slot, -, hn⟩ := Finset.mem_biUnion.mp hn
  exact hinv.stored slot n hn

theorem IdInv.one_le_initialId (hinv : IdInv s) {engine : Engine} {memories : List Memory}
    {latest : Option ℕ} (hlatest : IsLatest engine (allIds s.toState memories) latest) :
    1 ≤ initialId memories latest := by
  unfold initialId getMaxMessageId
  split_ifs
  · exact le_rfl
  · cases latest with
    | none => exact le_rfl
    | some n =>
        exact hinv.positive n (List.mem_append_left _ (hinv.inserted_of_mem_allIds hlatest.1))

theorem IdInv.init (hinv : IdInv s) {engine : Engine} {memories : List Memory}
    {latest : Option ℕ} (hlatest : IsLatest engine (allIds s.toState memories) latest)
    (hsteady : IdSteady memories s (.init latest : IdInput χ)) :
    IdInv { s with toState := initMessageIdSequence memories s.toState latest } := by
  unfold initMessageIdSequence
  split
  · exact hinv
  · rename_i hnone
    have hle := hsteady.resolve_left hnone
    have hget : ∀ v, (s.redis.put idKey (initialId memories latest : ℤ) true).get idKey =
        some v → v = initialId memories latest := by
      intro v hv
      rw [Expiring.get_put_self] at hv
      exact (Option.some.inj hv).symm
    exact {
      neverReused := hinv.neverReused
      counter_pos := fun v hv => by
        rw [hget v hv]
        exact_mod_cast hinv.one_le_initialId hlatest
      counter := fun v hv n hn => by
        rw [hget v hv]
        exact_mod_cast hle n hn
      positive := hinv.positive
      stored := hinv.stored
      pending_nodup := hinv.pending_nodup
      pending_new := hinv.pending_new }

/-- New calls have no ids yet. -/
theorem Operation.done_of_mem_calls {memories : List Memory} {op : Operation χ}
    {call : Call χ} (hcall : call ∈ op.calls memories) : call.done = [] := by
  cases op with
  | saveToMemory memoryId d now contentEmbed extracted =>
      rw [calls] at hcall
      split at hcall
      · simp at hcall
      · rw [List.mem_singleton.mp hcall]
  | saveExtractedToMemoryOnly memoryId d sourceId extracted =>
      rw [calls] at hcall
      split at hcall
      · simp at hcall
      · split_ifs at hcall
        · simp at hcall
        · rw [List.mem_singleton.mp hcall]
  | queueSaveToMemoryTask memoryIds d now =>
      obtain ⟨r, -, hcall⟩ := List.mem_flatMap.mp hcall
      split at hcall
      · simp at hcall
      · rw [List.mem_singleton.mp hcall]

theorem IdInv.start (hinv : IdInv s) (hidle : s.calls = []) (memories : List Memory)
    (op : Operation χ) : IdInv { s with calls := op.calls memories } := by
  have hbefore : s.pending = [] := by simp [Ids.pending, hidle]
  have hafter : ({ s with calls := op.calls memories } : Ids χ).pending = [] := by
    rw [Ids.pending, List.flatMap_eq_nil_iff]
    intro call hcall
    simp [Operation.done_of_mem_calls hcall]
  have hcounter := hinv.counter
  have hpositive := hinv.positive
  rw [hbefore] at hcounter hpositive
  exact {
    neverReused := hinv.neverReused
    counter_pos := hinv.counter_pos
    counter := by rwa [hafter]
    positive := by rwa [hafter]
    stored := hinv.stored
    pending_nodup := by simp [hafter]
    pending_new := by simp [hafter] }

theorem mem_inserted {n : ℕ} :
    n ∈ s.inserted ↔ ∃ memoryId existed, .inserted memoryId n existed ∈ s.journal := by
  rw [Ids.inserted, List.mem_filterMap]
  constructor
  · rintro ⟨e, he, hid⟩
    cases e with
    | handed id => simp [Event.inserted?] at hid
    | inserted memoryId id existed =>
        obtain rfl : id = n := Option.some.inj hid
        exact ⟨memoryId, existed, he⟩
  · rintro ⟨memoryId, existed, he⟩
    exact ⟨_, he, rfl⟩

/-- Handing out an id that is beyond all others. -/
theorem IdInv.handOut (hinv : IdInv s) {t : Ids χ} {id : ℕ}
    (hjournal : t.journal = .handed id :: s.journal) (hstore : t.store = s.store)
    (hget : t.redis.get idKey = some (id : ℤ)) (hpending : t.pending.Perm (id :: s.pending))
    (hpos : 1 ≤ id) (hbeyond : ∀ n ∈ s.inserted ++ s.pending, n < id) : IdInv t := by
  have hinserted : t.inserted = s.inserted := by
    rw [Ids.inserted, hjournal]
    exact List.filterMap_cons_none rfl
  have hused : ∀ n ∈ t.inserted ++ t.pending, n = id ∨ n ∈ s.inserted ++ s.pending := by
    intro n hn
    rw [List.mem_append, hinserted, hpending.mem_iff, List.mem_cons] at hn
    rw [List.mem_append]
    tauto
  have hcounter : ∀ v, t.redis.get idKey = some v → v = id :=
    fun v hv => Option.some.inj (hv.symm.trans hget)
  have hnot : id ∉ s.inserted ++ s.pending := fun hin => lt_irrefl id (hbeyond id hin)
  constructor
  · rw [hjournal]
    refine ⟨fun memoryId existed hin => ?_, hinv.neverReused⟩
    exact hnot (List.mem_append_left _ (mem_inserted.mpr ⟨_, _, hin⟩))
  · intro v hv
    rw [hcounter v hv]
    exact_mod_cast hpos
  · intro v hv n hn
    rw [hcounter v hv]
    obtain rfl | hn := hused n hn
    · exact le_rfl
    · exact_mod_cast (hbeyond n hn).le
  · intro n hn
    obtain rfl | hn := hused n hn
    · exact hpos
    · exact hinv.positive n hn
  · intro slot n hn
    rw [hinserted]
    exact hinv.stored slot n (hstore ▸ hn)
  · rw [hpending.nodup_iff, List.nodup_cons]
    exact ⟨fun hin => hnot (List.mem_append_right _ hin), hinv.pending_nodup⟩
  · intro n hn
    rw [hinserted]
    obtain rfl | hn := List.mem_cons.mp (hpending.mem_iff.mp hn)
    · exact fun hin => hnot (List.mem_append_left _ hin)
    · exact hinv.pending_new n hn

/-- The next id is one past the counter, which no id in use is beyond. -/
theorem IdInv.next (hinv : IdInv s) {memories : List Memory}
    (hsteady : IdSteady memories s (.next : IdInput χ)) {call : Call χ} {calls : List (Call χ)}
    (hcalls : s.calls = call :: calls) (draft : Draft χ) (todo : List (Draft χ)) :
    IdInv (s.next call draft todo calls) := by
  obtain ⟨hid, hget⟩ := nextId_spec hinv.counter_pos
  have hbound : 1 ≤ (s.redis.get idKey).getD 1 ∧
      ∀ n ∈ s.inserted ++ s.pending, (n : ℤ) ≤ (s.redis.get idKey).getD 1 := by
    cases hkey : s.redis.get idKey with
    | none =>
        have hrestart : ∀ n ∈ s.inserted ++ s.pending, n ≤ 1 :=
          hsteady.resolve_left (by simp [hkey])
        exact ⟨le_rfl, fun n hn => Int.ofNat_le.mpr (hrestart n hn)⟩
    | some v => exact ⟨hinv.counter_pos v hkey, hinv.counter v hkey⟩
  obtain ⟨id, hnat⟩ : ∃ id : ℕ, (nextId s.redis idKey 1).1 = id :=
    Int.eq_ofNat_of_zero_le (by omega)
  have hnext : s.next call draft todo calls =
      { redis := (nextId s.redis idKey 1).2
        store := s.store
        calls :=
          { call with
            sourceId := if draft.isRaw then id else call.sourceId
            todo := todo
            done := call.done ++ [(id, draft.message call.sourceId)] } :: calls
        journal := .handed id :: s.journal } := by
    simp [Ids.next, generateAutoIncrementId, hnat]
  rw [hnext]
  refine hinv.handOut rfl rfl (hget.trans (congrArg some hnat)) ?_ (by omega) fun n hn => ?_
  · simp [Ids.pending, hcalls]
  · have := hbound.2 n hn
    omega

/-! ## The insertion -/

theorem mem_insertionEvents {memoryId : String} {t : Table ℕ (Message χ)}
    {rows : List (ℕ × Message χ)} {n : ℕ} :
    n ∈ (insertionEvents memoryId t rows).filterMap Event.inserted? ↔
      n ∈ rows.map Prod.fst := by
  induction rows generalizing t with
  | nil => simp [insertionEvents]
  | cons r rows ih =>
      rw [insertionEvents, List.filterMap_append, List.mem_append, ih, List.map_cons,
        List.mem_cons, or_comm]
      simp [Event.inserted?, eq_comm]

/-- New documents under different ids meet nothing. -/
theorem neverReused_insertionEvents {memoryId : String} {t : Table ℕ (Message χ)}
    {rows : List (ℕ × Message χ)} {past : List Event} (hpast : NeverReused past)
    (hnodup : (rows.map Prod.fst).Nodup) (hnew : ∀ n ∈ rows.map Prod.fst, n ∉ t.keys) :
    NeverReused (insertionEvents memoryId t rows ++ past) := by
  induction rows generalizing t past with
  | nil => exact hpast
  | cons r rows ih =>
      obtain ⟨hr, hnodup⟩ := List.nodup_cons.mp hnodup
      rw [insertionEvents, List.append_assoc]
      refine ih ⟨?_, hpast⟩ hnodup fun n hn hmem => ?_
      · simpa using hnew r.1 (.head _)
      · obtain rfl | hmem := Finset.mem_insert.mp hmem
        · exact hr hn
        · exact hnew n (.tail _ hn) hmem

theorem pending_eq {call : Call χ} {calls : List (Call χ)} (hcalls : s.calls = call :: calls) :
    s.pending = call.done.map Prod.fst ++ calls.flatMap fun call => call.done.map Prod.fst := by
  simp [Ids.pending, hcalls]

/-- Some of the ids of the first call become ids of stored messages, the others
are given up. -/
theorem IdInv.settle (hinv : IdInv s) {t : Ids χ} {call : Call χ} {calls : List (Call χ)}
    (new : List ℕ) (hcalls : s.calls = call :: calls) (hjournal : NeverReused t.journal)
    (hredis : ∀ v, t.redis.get idKey = some v → s.redis.get idKey = some v)
    (hinserted : ∀ n, n ∈ t.inserted ↔ n ∈ s.inserted ∨ n ∈ new)
    (hnew : ∀ n ∈ new, n ∈ call.done.map Prod.fst)
    (hstored : ∀ slot, ∀ n ∈ (t.store slot).keys, n ∈ (s.store slot).keys ∨ n ∈ new)
    (hpending : t.pending.Sublist (calls.flatMap fun call => call.done.map Prod.fst)) :
    IdInv t := by
  have hsplit := pending_eq hcalls
  have hnodup := hinv.pending_nodup
  rw [hsplit, List.nodup_append'] at hnodup
  have hrest : ∀ n ∈ t.pending, n ∈ s.pending := fun n hn => by
    rw [hsplit]
    exact List.mem_append_right _ (hpending.subset hn)
  have hused : ∀ n ∈ t.inserted ++ t.pending, n ∈ s.inserted ++ s.pending := by
    intro n hn
    rw [List.mem_append] at hn ⊢
    obtain hn | hn := hn
    · obtain hn | hn := (hinserted n).mp hn
      · exact .inl hn
      · rw [hsplit]
        exact .inr (List.mem_append_left _ (hnew n hn))
    · exact .inr (hrest n hn)
  constructor
  · exact hjournal
  · exact fun v hv => hinv.counter_pos v (hredis v hv)
  · exact fun v hv n hn => hinv.counter v (hredis v hv) n (hused n hn)
  · exact fun n hn => hinv.positive n (hused n hn)
  · intro slot n hn
    exact (hinserted n).mpr ((hstored slot n hn).imp_left (hinv.stored slot n))
  · exact hnodup.2.1.sublist hpending
  · intro n hn hin
    obtain hin | hin := (hinserted n).mp hin
    · exact hinv.pending_new n (hrest n hn) hin
    · exact hnodup.2.2 (hnew n hin) (hpending.subset hn)

theorem pending_embed (h : Host χ) (call : Call χ) (calls : List (Call χ))
    (c : Circumstances) :
    (s.embed h call calls c).pending.Sublist
      (calls.flatMap fun call => call.done.map Prod.fst) := by
  rw [Ids.pending, Ids.embed]
  dsimp only
  split
  · exact List.nil_sublist _
  · exact List.Sublist.refl _

theorem IdInv.embed_of_error (hinv : IdInv s) {h : Host χ} {call : Call χ}
    {calls : List (Call χ)} (hcalls : s.calls = call :: calls) {c : Circumstances}
    {r : Result} {s' : State χ}
    (hroom : makeRoom h call.memory s.toState call.done c = .error (r, s')) :
    IdInv (s.embed h call calls c) := by
  have hred := reduced_makeRoom_error hroom
  have hstate : (s.embed h call calls c).toState = s' := by
    simp [Ids.embed, embedAndSave, hroom]
  have hjournal : (s.embed h call calls c).journal = s.journal := by
    simp [Ids.embed, Call.events, hroom]
  refine hinv.settle [] hcalls (hjournal ▸ hinv.neverReused) ?_ ?_ (by simp) ?_
    (pending_embed h call calls c)
  · rw [hstate]
    exact fun v hv => hred.redis idKey v (idKey_ne_sizeKey _) (idKey_ne_sizeKey _) hv
  · simp [Ids.inserted, hjournal]
  · rw [hstate]
    exact fun slot n hn => .inl (hred.keys_subset slot hn)

/-- The documents are inserted under ids that no stored message has. -/
theorem IdInv.embed_of_ok (hinv : IdInv s) {h : Host χ} {call : Call χ}
    {calls : List (Call χ)} (hcalls : s.calls = call :: calls) {c : Circumstances}
    {s' : State χ} (hroom : makeRoom h call.memory s.toState call.done c = .ok s') :
    IdInv (s.embed h call calls c) := by
  have hred := reduced_makeRoom hroom
  have hstate : (s.embed h call calls c).toState =
      (insertNew h call.memory s' call.done c).2 := by
    simp [Ids.embed, embedAndSave, hroom]
  have hjournal : (s.embed h call calls c).journal =
      insertionEvents call.memory.id (s'.messages call.memory)
        (accepted h call.done c) ++ s.journal := by
    simp [Ids.embed, Call.events, hroom]
  have hsub : ((accepted h call.done c).map Prod.fst).Sublist (call.done.map Prod.fst) :=
    accepted_sublist
  have hnodup := hinv.pending_nodup
  rw [pending_eq hcalls] at hnodup
  refine hinv.settle ((accepted h call.done c).map Prod.fst) hcalls ?_ ?_ ?_
    (fun n hn => hsub.subset hn) ?_ (pending_embed h call calls c)
  · rw [hjournal]
    refine neverReused_insertionEvents hinv.neverReused
      ((List.nodup_append'.mp hnodup).1.sublist hsub) fun n hn hmem => ?_
    refine hinv.pending_new n ?_ (hinv.stored _ n (hred.keys hmem))
    rw [pending_eq hcalls]
    exact List.mem_append_left _ (hsub.subset hn)
  · rw [hstate]
    exact fun v hv => hred.redis idKey v (idKey_ne_sizeKey _) (idKey_ne_sizeKey _)
      (redis_insertNew (idKey_ne_sizeKey _) hv)
  · intro n
    rw [Ids.inserted, hjournal, List.filterMap_append, List.mem_append, mem_insertionEvents,
      or_comm, Ids.inserted]
  · rw [hstate]
    exact fun slot n hn => (mem_keys_insertNew hn).imp_left fun hn => hred.keys_subset slot hn

theorem IdInv.embed (hinv : IdInv s) (h : Host χ) {call : Call χ} {calls : List (Call χ)}
    (hcalls : s.calls = call :: calls) (c : Circumstances) :
    IdInv (s.embed h call calls c) := by
  cases hroom : makeRoom h call.memory s.toState call.done c with
  | error out => exact hinv.embed_of_error hcalls hroom
  | ok s' => exact hinv.embed_of_ok hcalls hroom

/-- Every step that meets the condition keeps ids apart. -/
theorem IdInv.step (hinv : IdInv s) {h : Host χ} {engine : Engine} {memories : List Memory}
    {i : IdInput χ} (hsteady : IdSteady memories s i) {t : Ids χ}
    (hstep : idStep h engine memories s i = some t) : IdInv t := by
  cases i with
  | expire key =>
      obtain rfl := Option.some.inj hstep
      exact hinv.of_redis fun v hv => Expiring.get_of_get_expire hv
  | init latest =>
      rw [idStep] at hstep
      split_ifs at hstep with hgood
      obtain rfl := Option.some.inj hstep
      exact hinv.init hgood.2 hsteady
  | start op =>
      rw [idStep] at hstep
      split_ifs at hstep with hidle
      obtain rfl := Option.some.inj hstep
      exact hinv.start (List.isEmpty_iff.mp hidle) memories op
  | next =>
      rw [idStep] at hstep
      split at hstep
      · rename_i hcalls
        obtain rfl := Option.some.inj hstep
        exact hinv.next hsteady hcalls _ _
      · cases hstep
  | embed c =>
      rw [idStep] at hstep
      split at hstep
      · rename_i hcalls
        split_ifs at hstep
        obtain rfl := Option.some.inj hstep
        exact hinv.embed h hcalls c
      · cases hstep

end

/-- In a run whose steps all meet the condition no id is used twice and nothing
is overwritten. -/
theorem neverReused_of_steady [Inhabited χ] (h : Host χ) (engine : Engine)
    (memories : List Memory) (s : Ids χ)
    (hs : Driven (idStep h engine memories) (IdSteady memories) Ids.fresh s) :
    NeverReused s.journal :=
  (hs.invariant (I := IdInv) idInv_fresh
    fun _ _ _ hinv hsteady hstep => hinv.step hsteady hstep).neverReused

/-! ## An hour after the start -/

def rawMemory : Memory := ⟨"m", "t", rawType, 5242880, "FIFO", by decide⟩

def hello : Operation ℤ :=
  .saveToMemory "m" ⟨"u", "a", "s", "hello", "hi"⟩ 0 ⟨[0], by simp⟩ []

def firstHour : List (IdInput ℤ) := [.init none, .start hello, .next, .embed (calm [])]

/-- The counter is gone, and the next save starts from one. -/
def secondHour : List (IdInput ℤ) :=
  firstHour ++ [.expire idKey, .start hello, .next, .embed (calm [2])]

/-- The second dialogue overwrites the first. -/
theorem second_hour_overwrites :
    ¬ ∀ s, Driven (idStep floatHost .infinity [rawMemory]) (fun _ _ => True) Ids.fresh s →
      NeverReused s.journal := by
  have hrun :
      (drive (idStep floatHost .infinity [rawMemory]) secondHour Ids.fresh).map Ids.journal =
        some [.inserted "m" 2 true, .handed 2, .inserted "m" 2 false, .handed 2] := by
    decide +kernel
  obtain ⟨s, hs, hjournal⟩ := Driven.exists_of_map_drive hrun
  intro hlaw
  have hreused := hlaw s hs
  rw [hjournal] at hreused
  exact Bool.noConfusion hreused.1

theorem first_hour_neverReused :
    ∃ s, drive (idStep floatHost .infinity [rawMemory]) firstHour Ids.fresh = some s ∧
      NeverReused s.journal := by
  have hmeets : Meets (idStep floatHost .infinity [rawMemory]) (IdSteady [rawMemory]) firstHour
      Ids.fresh := by
    decide +kernel
  have hsome :
      (drive (idStep floatHost .infinity [rawMemory]) firstHour Ids.fresh).isSome = true := by
    decide +kernel
  obtain ⟨s, hs, hrun⟩ := Driven.exists_of_meets hmeets hsome
  exact ⟨s, hs, neverReused_of_steady _ _ _ s hrun⟩

end RagflowMineru.Memories
