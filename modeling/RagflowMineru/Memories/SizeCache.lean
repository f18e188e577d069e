import RagflowMineru.Library.Driven
import RagflowMineru.Memories.Saving

/-!
# The size of a memory

A run of saves into one memory, with the lifetimes of the cached sizes ending at
any time.  The save that would have to make room reads a size that is always
zero; the save that counts its messages starts from zero when the cached size is
gone.
-/

namespace RagflowMineru.Memories

open RagflowMineru.Library

variable {χ : Type*}

/-- The state with the size of the messages of the latest save that worked. -/
structure Sized (χ : Type*) extends State χ where
  saved : Option ℤ

/-- The end of a lifetime, a question for the size with the ids in their places,
or a save. -/
inductive SizeInput (χ : Type*)
  | expire (key : String)
  | lookUp (c : Circumstances)
  | save (msgs : List (ℕ × Message χ)) (c : Circumstances)

def Sized.fresh [Inhabited χ] : Sized χ where
  redis := Expiring.empty
  store := fun _ => Table.empty
  saved := none

/-- The message store answers every search and takes every document. -/
def sizeStep (h : Host χ) (m : Memory) (s : Sized χ) : SizeInput χ → Option (Sized χ)
  | .expire key => some { s with redis := s.redis.expire key }
  | .lookUp c =>
      if (s.messages m).FirstRows (fun _ => True) ValidAfter 2048 c.found then
        some ⟨(getMemorySizeCache h s.toState m.id m.tenantId c).2, s.saved⟩
      else none
  | .save msgs c =>
      if c.AnswersSave m s.toState ∧ c.indexReady ∧ c.failCases = [] then
        let result := embedAndSave h m s.toState msgs c
        some ⟨result.2, if result.1 = .saved then some (newSize h msgs) else s.saved⟩
      else none

/-- What is claimed of the cached size and of the memory. -/
structure SizeLaw (h : Host χ) (m : Memory) (s : Sized χ) : Prop where
  cached : ∀ v, s.redis.get (sizeKey m.id) = some v → v = totalSize h (s.messages m)
  nonneg : ∀ v, s.redis.get (sizeKey m.id) = some v → 0 ≤ v
  bounded : ∀ n ∈ s.saved, n ≤ m.memorySize → totalSize h (s.messages m) ≤ m.memorySize

/-! ## When a save keeps the books -/

/-- What FIFO deletes for the new messages, when these alone are too large. -/
def victims (h : Host χ) (m : Memory) (t : Table ℕ (Message χ))
    (msgs : List (ℕ × Message χ)) (c : Circumstances) : List ℕ :=
  if m.memorySize < newSize h msgs then
    (pickMessagesToDeleteByFifo h t c.forgotten c.oldest (newSize h msgs - m.memorySize)).1
  else []

/-- The cached size of the memory is there and stays when the lifetimes of `ks`
end. -/
def Survives (m : Memory) (s : State χ) (ks : List String) : Prop :=
  ∃ e, s.redis (sizeKey m.id) = some e ∧ (sizeKey m.id ∈ ks → e.expires = false)

/-- The call gets to the insertion. -/
def Reaches (h : Host χ) (m : Memory) (s : State χ) (msgs : List (ℕ × Message χ))
    (c : Circumstances) : Prop :=
  msgs ≠ [] ∧
    ((s.redis.get (sizeKey m.tenantId)).isSome →
      ((s.lose (c.lost .reading)).redis.get (sizeKey m.tenantId)).isSome) ∧
    (m.memorySize < newSize h msgs → m.forgettingPolicy = "FIFO")

/-- The new messages are new and come back from the store as large as they went,
they fit in beside the old ones if they fit in at all, and the cached size is
there whenever it is changed, unless there is nothing it should count. -/
structure SteadySave (h : Host χ) (m : Memory) (s : State χ) (msgs : List (ℕ × Message χ))
    (c : Circumstances) : Prop where
  nodup : (msgs.map Prod.fst).Nodup
  fresh : ∀ k ∈ msgs.map Prod.fst, k ∈ (s.messages m).keys →
    k ∈ victims h m (s.messages m) msgs c
  kept : (msgs.map fun r => calculateMessageSize h (r.2.readBack h)).sum = newSize h msgs
  fits : newSize h msgs ≤ m.memorySize →
    totalSize h (s.messages m) + newSize h msgs ≤ m.memorySize
  decreased : m.memorySize < newSize h msgs →
    Survives m s (c.lost .reading ++ c.lost .decreasing) ∨ (s.messages m).keys = ∅
  increased :
    Survives m s (c.lost .reading ++
      (if m.memorySize < newSize h msgs then c.lost .decreasing else []) ++
      c.lost .increasing) ∨
    ∀ k ∈ (s.messages m).keys, k ∈ victims h m (s.messages m) msgs c

/-- The condition on a step. -/
def Steady (h : Host χ) (m : Memory) (s : Sized χ) : SizeInput χ → Prop
  | .expire _ => True
  | .lookUp _ =>
      (s.redis.get (sizeKey m.id)).isSome ∨ (s.messages m).keys.card ≤ 2048
  | .save msgs c => Reaches h m s.toState msgs c → SteadySave h m s.toState msgs c

/-! ## Reading the size of another memory -/

/-- The law, and why a save never sees a size: what it asks for is the size of a
memory without messages. -/
structure SizeInv (h : Host χ) (m : Memory) (s : Sized χ) : Prop extends SizeLaw h m s where
  tenant : ∀ v, s.redis.get (sizeKey m.tenantId) = some v → v = 0
  swapped : (s.store (indexName m.id, m.tenantId)).keys = ∅

theorem sizeInv_fresh [Inhabited χ] (h : Host χ) (m : Memory) :
    SizeInv h m (Sized.fresh : Sized χ) := by
  refine ⟨⟨?_, ?_, ?_⟩, ?_, ?_⟩ <;> simp [Sized.fresh, Table.empty]

theorem Memory.sizeKey_ne (m : Memory) : sizeKey m.id ≠ sizeKey m.tenantId :=
  fun heq => m.id_ne_tenantId (sizeKey_injective.mp heq)

theorem Memory.swapped_ne (m : Memory) : (indexName m.id, m.tenantId) ≠ m.slot :=
  fun heq => m.id_ne_tenantId (congrArg Prod.snd heq).symm

theorem calculateMemorySize_of_empty {h : Host χ} {t : Table ℕ (Message χ)} {found : List ℕ}
    (ht : t.keys = ∅) (hfound : t.FirstRows (fun _ => True) ValidAfter 2048 found) :
    calculateMemorySize h t found = 0 := by
  have hnil : found = [] := List.eq_nil_iff_forall_not_mem.mpr fun k hk => by
    simpa [ht] using hfound.mem_keys hk
  simp [calculateMemorySize, hnil]

section

variable {h : Host χ} {m : Memory} {s : Sized χ} {msgs : List (ℕ × Message χ)}
  {c : Circumstances}

theorem SizeInv.tenant_getMemorySizeCache (hinv : SizeInv h m s)
    (hans : c.AnswersSave m s.toState) :
    ∀ v, (getMemorySizeCache h s.toState m.tenantId m.id c).2.redis.get
      (sizeKey m.tenantId) = some v → v = 0 := by
  intro v hv
  unfold getMemorySizeCache at hv
  dsimp only at hv
  split at hv
  · exact hinv.tenant v (Expiring.get_of_get_expireAll hv)
  · rw [setMemorySizeCache, Expiring.get_put_self,
      calculateMemorySize_of_empty hinv.swapped hans.found] at hv
    exact (Option.some.inj hv).symm

theorem SizeInv.current_eq_zero (hinv : SizeInv h m s) (hans : c.AnswersSave m s.toState)
    {current : ℤ}
    (hcur : (getMemorySizeCache h s.toState m.tenantId m.id c).1 = some current) :
    current = 0 := by
  unfold getMemorySizeCache at hcur
  dsimp only at hcur
  split at hcur
  · exact hinv.tenant current (Expiring.get_of_get_expireAll hcur)
  · rw [calculateMemorySize_of_empty hinv.swapped hans.found] at hcur
    exact (Option.some.inj hcur).symm

end

/-! ## Entries that stay -/

section

variable {h : Host χ} {m : Memory} {s : State χ} {c : Circumstances} {ks : List String}

theorem Survives.get_isSome (hsurv : Survives m s ks) :
    (s.redis.get (sizeKey m.id)).isSome := by
  obtain ⟨e, he, -⟩ := hsurv
  simp [Expiring.get, he]

theorem Survives.lose (hsurv : Survives m s ks) {lost : List String} (hlost : lost ⊆ ks) :
    Survives m (s.lose lost) ks := by
  obtain ⟨e, he, hks⟩ := hsurv
  exact ⟨e, Expiring.expireAll_eq_some_iff.mpr ⟨he, fun hk => hks (hlost hk)⟩, hks⟩

theorem Survives.read (hsurv : Survives m s ks) (hlost : c.lost .reading ⊆ ks) :
    Survives m (getMemorySizeCache h s m.tenantId m.id c).2 ks := by
  obtain ⟨e, he, hks⟩ := hsurv.lose hlost
  exact ⟨e, (redis_getMemorySizeCache m.sizeKey_ne).trans he, hks⟩

theorem Survives.decrease (hsurv : Survives m s ks) (size : ℤ) :
    Survives m (decreaseMemorySizeCache s m.id size) ks := by
  obtain ⟨e, he, hks⟩ := hsurv
  exact ⟨⟨e.value + -size, e.expires⟩,
    by simp [decreaseMemorySizeCache, Expiring.incrBy, he], hks⟩

end

/-! ## Room is made by the books -/

theorem getD_eq {o : Option ℤ} {n : ℤ} (hvalue : ∀ v, o = some v → v = n)
    (hsome : o.isSome ∨ n = 0) : o.getD 0 = n := by
  cases o with
  | none =>
      obtain hsome | hzero := hsome
      · simp at hsome
      · exact hzero.symm
  | some v => exact hvalue v rfl

theorem totalSize_of_keys_eq_empty {h : Host χ} {t : Table ℕ (Message χ)}
    (ht : t.keys = ∅) : totalSize h t = 0 := by
  simp [totalSize, Table.total, ht]

section

variable {h : Host χ} {m : Memory} {s : State χ} {c : Circumstances} {sizeToDelete : ℤ}

theorem messages_evict :
    (evict h m s c sizeToDelete).messages m =
      (s.messages m).deleteAll
        (pickMessagesToDeleteByFifo h (s.messages m) c.forgotten c.oldest sizeToDelete).1 :=
  s.messages_setMessages m _

/-- What the loop adds up is what the deletion takes away. -/
theorem totalSize_evict (hans : FifoAnswers (s.messages m) c.forgotten c.oldest) :
    totalSize h ((evict h m s c sizeToDelete).messages m) =
      totalSize h (s.messages m) -
        (pickMessagesToDeleteByFifo h (s.messages m) c.forgotten c.oldest sizeToDelete).2 := by
  rw [messages_evict, totalSize, Table.total_deleteAll _ hans.nodup_pick
    fun k hk => hans.mem_keys_of_mem_pick hk, pick_size, totalSize]

/-- The cached size follows the deletion, if it was right before it. -/
theorem get_evict (sizeToDelete : ℤ)
    (hans : FifoAnswers (s.messages m) c.forgotten c.oldest)
    (hvalue : ∀ v, s.redis.get (sizeKey m.id) = some v → v = totalSize h (s.messages m))
    (hsome : ((s.lose (c.lost .decreasing)).redis.get (sizeKey m.id)).isSome ∨
      totalSize h (s.messages m) = 0) :
    (evict h m s c sizeToDelete).redis.get (sizeKey m.id) =
      some (totalSize h ((evict h m s c sizeToDelete).messages m)) := by
  have hbefore : ((s.lose (c.lost .decreasing)).redis.get (sizeKey m.id)).getD 0 =
      totalSize h (s.messages m) :=
    getD_eq (fun v hv => hvalue v (Expiring.get_of_get_expireAll hv)) hsome
  calc
    (evict h m s c sizeToDelete).redis.get (sizeKey m.id) =
        some (((s.lose (c.lost .decreasing)).redis.get (sizeKey m.id)).getD 0 +
          -(pickMessagesToDeleteByFifo h (s.messages m) c.forgotten c.oldest
            sizeToDelete).2) := Expiring.get_incrBy_self _ _ _
    _ = some (totalSize h ((evict h m s c sizeToDelete).messages m)) := by
      rw [hbefore, totalSize_evict hans, sub_eq_add_neg]

theorem Survives.evict {ks : List String} (hsurv : Survives m s ks)
    (hlost : c.lost .decreasing ⊆ ks) : Survives m (evict h m s c sizeToDelete) ks :=
  Survives.decrease (s := (s.setMessages m _).lose (c.lost .decreasing))
    (Survives.lose (s := s.setMessages m _) hsurv hlost) _

end

section

variable {h : Host χ} {m : Memory} {s : Sized χ} {s' : State χ}
  {msgs : List (ℕ × Message χ)} {c : Circumstances}

theorem SizeInv.cached_read (hinv : SizeInv h m s) :
    ∀ v, (getMemorySizeCache h s.toState m.tenantId m.id c).2.redis.get (sizeKey m.id) =
      some v → v = totalSize h (s.messages m) := by
  intro v hv
  rw [Expiring.get, redis_getMemorySizeCache m.sizeKey_ne] at hv
  exact hinv.cached v (Expiring.get_of_get_expireAll hv)

theorem messages_read :
    (getMemorySizeCache h s.toState m.tenantId m.id c).2.messages m = s.messages m := by
  rw [State.messages, store_getMemorySizeCache, State.messages]

theorem totalSize_eq_zero_of_subset {t : Table ℕ (Message χ)} {l : List ℕ}
    (hl : ∀ k ∈ t.keys, k ∈ l) : totalSize h (t.deleteAll l) = 0 :=
  totalSize_of_keys_eq_empty <| Finset.eq_empty_of_forall_notMem fun k hk =>
    (Table.mem_keys_deleteAll.mp hk).2 (hl k (Table.mem_keys_deleteAll.mp hk).1)

/-- Without an eviction. -/
theorem SizeInv.counted_read (hinv : SizeInv h m s)
    (hinc : Survives m s.toState (c.lost .reading ++ c.lost .increasing) ∨
      (s.messages m).keys = ∅) :
    (((getMemorySizeCache h s.toState m.tenantId m.id c).2.lose
        (c.lost .increasing)).redis.get (sizeKey m.id)).getD 0 =
      totalSize h (s.messages m) := by
  refine getD_eq
    (fun v hv => hinv.cached_read v (Expiring.get_of_get_expireAll hv)) ?_
  obtain hsurv | hnone := hinc
  · exact .inl ((hsurv.read (by simp)).lose (by simp)).get_isSome
  · exact .inr (totalSize_of_keys_eq_empty hnone)

/-- With an eviction the cached size is there again after the decrement. -/
theorem SizeInv.counted_evict (hinv : SizeInv h m s) (hans : c.AnswersSave m s.toState)
    {sizeToDelete : ℤ}
    (hdec : Survives m s.toState (c.lost .reading ++ c.lost .decreasing) ∨
      (s.messages m).keys = ∅)
    (hinc : Survives m s.toState
        (c.lost .reading ++ c.lost .decreasing ++ c.lost .increasing) ∨
      ∀ k ∈ (s.messages m).keys, k ∈ (pickMessagesToDeleteByFifo h (s.messages m) c.forgotten
        c.oldest sizeToDelete).1) :
    (((evict h m (getMemorySizeCache h s.toState m.tenantId m.id c).2 c sizeToDelete).lose
        (c.lost .increasing)).redis.get (sizeKey m.id)).getD 0 =
      totalSize h ((evict h m (getMemorySizeCache h s.toState m.tenantId m.id c).2 c
        sizeToDelete).messages m) := by
  have hfifo := hans.fifo
  have hread := hinv.cached_read (c := c)
  rw [← messages_read (c := c) (h := h)] at hfifo hread
  have hget := get_evict sizeToDelete hfifo hread <| by
    obtain hsurv | hnone := hdec
    · exact .inl ((hsurv.read (by simp)).lose (by simp)).get_isSome
    · rw [messages_read]
      exact .inr (totalSize_of_keys_eq_empty hnone)
  refine getD_eq (fun v hv => ?_) ?_
  · exact Option.some.inj ((Expiring.get_of_get_expireAll hv).symm.trans hget)
  · obtain hsurv | hnone := hinc
    · exact .inl (((hsurv.read (by simp)).evict (by simp)).lose (by simp)).get_isSome
    · rw [messages_evict, messages_read]
      exact .inr (totalSize_eq_zero_of_subset hnone)

/-- When the insertion is made, the cached size is that of the messages left, or
missing with none left. -/
theorem SizeInv.counted_makeRoom (hinv : SizeInv h m s) (hans : c.AnswersSave m s.toState)
    (hsteady : SteadySave h m s.toState msgs c)
    (hroom : makeRoom h m s.toState msgs c = .ok s') :
    ((s'.lose (c.lost .increasing)).redis.get (sizeKey m.id)).getD 0 =
      totalSize h (s'.messages m) := by
  obtain ⟨current, hcur, hcases⟩ := makeRoom_ok_cases hroom
  obtain rfl := hinv.current_eq_zero hans hcur
  have hinc := hsteady.increased
  obtain ⟨hsize, rfl⟩ | ⟨hsize, -, rfl⟩ := hcases
  · have hover : ¬ m.memorySize < newSize h msgs := by omega
    rw [victims, if_neg hover, if_neg hover, List.append_nil] at hinc
    rw [messages_read]
    exact hinv.counted_read (hinc.imp_right fun hnone =>
      Finset.eq_empty_of_forall_notMem fun k hk => List.not_mem_nil (hnone k hk))
  · have hover : m.memorySize < newSize h msgs := by omega
    rw [victims, if_pos hover, if_pos hover] at hinc
    rw [zero_add]
    exact hinv.counted_evict hans (hsteady.decreased hover) hinc

theorem SizeInv.reaches_of_makeRoom_ok (hinv : SizeInv h m s)
    (hans : c.AnswersSave m s.toState)
    (hroom : makeRoom h m s.toState msgs c = .ok s') : Reaches h m s.toState msgs c := by
  obtain ⟨current, hcur, hcases⟩ := makeRoom_ok_cases hroom
  obtain rfl := hinv.current_eq_zero hans hcur
  refine ⟨ne_nil_of_makeRoom_ok hroom, fun hkey => ?_, fun hover => ?_⟩
  · rw [getMemorySizeCache, if_pos hkey] at hcur
    exact Option.isSome_iff_exists.mpr ⟨0, hcur⟩
  · obtain ⟨hsize, -⟩ | ⟨-, hpolicy, -⟩ := hcases
    · omega
    · exact hpolicy

theorem SizeInv.tenant_makeRoom (hinv : SizeInv h m s) (hans : c.AnswersSave m s.toState)
    (hroom : makeRoom h m s.toState msgs c = .ok s') :
    ∀ v, s'.redis.get (sizeKey m.tenantId) = some v → v = 0 := by
  intro v hv
  have hread := hinv.tenant_getMemorySizeCache hans
  obtain ⟨current, -, ⟨-, rfl⟩ | ⟨-, -, rfl⟩⟩ := makeRoom_ok_cases hroom
  · exact hread v hv
  · rw [evict, decreaseMemorySizeCache,
      Expiring.get_incrBy_of_ne _ _ m.sizeKey_ne.symm] at hv
    exact hread v (Expiring.get_of_get_expireAll hv)

/-- Without an eviction the messages are those from before the call. -/
theorem SizeInv.messages_makeRoom (hinv : SizeInv h m s) (hans : c.AnswersSave m s.toState)
    (hroom : makeRoom h m s.toState msgs c = .ok s') :
    s'.messages m =
      (s.messages m).deleteAll (victims h m (s.messages m) msgs c) := by
  obtain ⟨current, hcur, hcases⟩ := makeRoom_ok_cases hroom
  obtain rfl := hinv.current_eq_zero hans hcur
  obtain ⟨hsize, rfl⟩ | ⟨hsize, -, rfl⟩ := hcases
  · rw [victims, if_neg (by omega), messages_read]
    rfl
  · rw [messages_evict, messages_read, victims, if_pos (by omega), zero_add]

/-- The new messages add what was computed for them before they were stored. -/
theorem SizeInv.totalSize_insertNew (hinv : SizeInv h m s) (hans : c.AnswersSave m s.toState)
    (hfail : c.failCases = []) (hsteady : SteadySave h m s.toState msgs c)
    (hroom : makeRoom h m s.toState msgs c = .ok s') :
    totalSize h ((insertNew h m s' msgs c).2.messages m) =
      totalSize h (s'.messages m) + newSize h msgs := by
  have haccepted : accepted h msgs c = msgs.map fun r => (r.1, r.2.readBack h) := by
    simp [accepted, hfail]
  have hids : (accepted h msgs c).map Prod.fst = msgs.map Prod.fst := by
    simp [haccepted]
  have hsizes : ((accepted h msgs c).map fun r => calculateMessageSize h r.2).sum =
      newSize h msgs := by
    rw [haccepted, List.map_map]
    exact hsteady.kept
  have hnew : ∀ k ∈ (accepted h msgs c).map Prod.fst, k ∉ (s'.messages m).keys := by
    intro k hk hmem
    rw [hids] at hk
    rw [hinv.messages_makeRoom hans hroom, Table.mem_keys_deleteAll] at hmem
    exact hmem.2 (hsteady.fresh k hk hmem.1)
  rw [messages_insertNew, totalSize, Table.total_insertAll _ (hids ▸ hsteady.nodup) hnew,
    hsizes, totalSize]

/-- A save that gets through. -/
theorem SizeInv.insertNew (hinv : SizeInv h m s) (hans : c.AnswersSave m s.toState)
    (hfail : c.failCases = []) (hsteady : SteadySave h m s.toState msgs c)
    (hroom : makeRoom h m s.toState msgs c = .ok s') :
    SizeInv h m ⟨(insertNew h m s' msgs c).2, some (newSize h msgs)⟩ := by
  have htotal := hinv.totalSize_insertNew hans hfail hsteady hroom
  have hcached : (Memories.insertNew h m s' msgs c).2.redis.get (sizeKey m.id) =
      some (totalSize h ((Memories.insertNew h m s' msgs c).2.messages m)) := by
    rw [htotal, ← hinv.counted_makeRoom hans hsteady hroom, Memories.insertNew, hfail]
    exact Expiring.get_incrBy_self _ _ _
  refine ⟨⟨fun v hv => ?_, fun v hv => ?_, fun n hn hfit => ?_⟩, fun v hv => ?_, ?_⟩
  · exact Option.some.inj (hv.symm.trans hcached)
  · rw [Option.some.inj (hv.symm.trans hcached)]
    exact totalSize_nonneg h _
  · obtain rfl : newSize h msgs = n := Option.some.inj hn
    have hsame : s'.messages m = s.messages m := by
      rw [hinv.messages_makeRoom hans hroom, victims, if_neg (not_lt.mpr hfit)]
      rfl
    exact htotal ▸ hsame ▸ hsteady.fits hfit
  · exact hinv.tenant_makeRoom hans hroom v (redis_insertNew m.sizeKey_ne.symm hv)
  · change ((Memories.insertNew h m s' msgs c).2.store (indexName m.id, m.tenantId)).keys = ∅
    rw [store_insertNew, s'.store_setMessages_of_ne _ m.swapped_ne,
      (reduced_makeRoom hroom).store _ m.swapped_ne]
    exact hinv.swapped

/-- Keys may go and the rest of Redis change, as long as the two sizes are still
right. -/
theorem SizeInv.of_redis (hinv : SizeInv h m s) (hstore : s'.store = s.store)
    (hcached : ∀ v, s'.redis.get (sizeKey m.id) = some v → v = totalSize h (s.messages m))
    (htenant : ∀ v, s'.redis.get (sizeKey m.tenantId) = some v → v = 0) :
    SizeInv h m ⟨s', s.saved⟩ := by
  have hmessages : s'.messages m = s.messages m := by
    rw [State.messages, hstore, State.messages]
  refine ⟨⟨fun v hv => ?_, fun v hv => ?_, fun n hn hfit => ?_⟩, htenant, ?_⟩
  · rw [hcached v hv, ← hmessages]
  · rw [hcached v hv]
    exact totalSize_nonneg h _
  · change totalSize h (s'.messages m) ≤ m.memorySize
    rw [hmessages]
    exact hinv.bounded n hn hfit
  · change (s'.store _).keys = ∅
    rw [hstore]
    exact hinv.swapped

theorem SizeInv.lookUp (hinv : SizeInv h m s)
    (hfound : (s.messages m).FirstRows (fun _ => True) ValidAfter 2048 c.found)
    (hsteady : (s.redis.get (sizeKey m.id)).isSome ∨ (s.messages m).keys.card ≤ 2048) :
    SizeInv h m ⟨(getMemorySizeCache h s.toState m.id m.tenantId c).2, s.saved⟩ := by
  refine hinv.of_redis (store_getMemorySizeCache _ _) (fun v hv => ?_) (fun v hv => ?_)
  · unfold getMemorySizeCache at hv
    dsimp only at hv
    split at hv
    · exact hinv.cached v (Expiring.get_of_get_expireAll hv)
    · rename_i hnone
      have hsum := hfound.sum_eq_total (calculateMessageSize h) (hsteady.resolve_left hnone)
      rw [setMemorySizeCache, Expiring.get_put_self] at hv
      exact (Option.some.inj hv).symm.trans hsum
  · rw [Expiring.get, redis_getMemorySizeCache m.sizeKey_ne.symm] at hv
    exact hinv.tenant v (Expiring.get_of_get_expireAll hv)

theorem SizeInv.save (hinv : SizeInv h m s) (hans : c.AnswersSave m s.toState)
    (hfail : c.failCases = [])
    (hsteady : Reaches h m s.toState msgs c → SteadySave h m s.toState msgs c) :
    SizeInv h m ⟨(embedAndSave h m s.toState msgs c).2,
      if (embedAndSave h m s.toState msgs c).1 = .saved then some (newSize h msgs)
      else s.saved⟩ := by
  unfold embedAndSave
  cases hroom : makeRoom h m s.toState msgs c with
  | error out =>
      obtain ⟨r, s'⟩ := out
      obtain ⟨hr, hs'⟩ := makeRoom_error_cases hroom
      rw [if_neg hr]
      obtain rfl | rfl := hs'
      · exact hinv
      · exact hinv.of_redis (store_getMemorySizeCache _ _) hinv.cached_read
          (hinv.tenant_getMemorySizeCache hans)
  | ok s' =>
      have hsaved : (Memories.insertNew h m s' msgs c).1 = .saved := by
        simp [Memories.insertNew, hfail]
      dsimp only
      rw [if_pos hsaved]
      exact hinv.insertNew hans hfail (hsteady (hinv.reaches_of_makeRoom_ok hans hroom)) hroom

/-- Every step that meets the condition keeps the books. -/
theorem SizeInv.step (hinv : SizeInv h m s) {i : SizeInput χ} (hsteady : Steady h m s i)
    {t : Sized χ} (hstep : sizeStep h m s i = some t) : SizeInv h m t := by
  cases i with
  | expire key =>
      obtain rfl := Option.some.inj hstep
      have hredis : SizeInv h m ⟨{ s.toState with redis := s.redis.expire key }, s.saved⟩ :=
        hinv.of_redis rfl
          (fun v hv => hinv.cached v (Expiring.get_of_get_expire hv))
          (fun v hv => hinv.tenant v (Expiring.get_of_get_expire hv))
      exact hredis
  | lookUp c =>
      rw [sizeStep] at hstep
      split_ifs at hstep with hfound
      obtain rfl := Option.some.inj hstep
      exact hinv.lookUp hfound hsteady
  | save msgs c =>
      rw [sizeStep] at hstep
      split_ifs at hstep with hgood
      obtain rfl := Option.some.inj hstep
      exact hinv.save hgood.1 hgood.2.2 hsteady

end

/-- In a run whose steps all meet the condition the cached size is right and no
save overfills the memory. -/
theorem sizeLaw_of_steady [Inhabited χ] (h : Host χ) (m : Memory) (s : Sized χ)
    (hs : Driven (sizeStep h m) (Steady h m) Sized.fresh s) : SizeLaw h m s :=
  (hs.invariant (I := SizeInv h m) (sizeInv_fresh h m)
    fun _ _ _ hinv hsteady hstep => hinv.step hsteady hstep).toSizeLaw

/-! ## Two notes in a small memory -/

theorem m_ne_t : "m" ≠ "t" := by decide

theorem zeroVector_ne_nil : ([0] : List ℤ) ≠ [] := by decide

def smallMemory : Memory := ⟨"m", "t", 1, 100, "FIFO", m_ne_t⟩

def note (content : String) : Message ℤ where
  messageType := "raw"
  sourceId := 0
  userId := "u"
  agentId := "a"
  sessionId := "s"
  content := content
  validAt := 0
  invalidAt := none
  forgetAt := none
  contentEmbed := ⟨[0], zeroVector_ne_nil⟩

def firstNote : SizeInput ℤ := .save [(2, note "ab")] (calm [])

def secondNote : SizeInput ℤ := .save [(3, note "cd")] (calm [2])

/-- Each note has 67 bytes of the 100 that the memory may have. -/
theorem two_notes_overfill :
    ¬ ∀ s, Driven (sizeStep floatHost smallMemory) (fun _ _ => True) Sized.fresh s →
      SizeLaw floatHost smallMemory s := by
  have hrun : (drive (sizeStep floatHost smallMemory) [firstNote, secondNote]
      Sized.fresh).map
        (fun s => (s.saved, totalSize floatHost (s.messages smallMemory))) =
          some (some 67, 134) := by
    decide +kernel
  obtain ⟨s, hs, hs'⟩ := Driven.exists_of_map_drive hrun
  obtain ⟨hsaved, htotal⟩ := Prod.mk.inj hs'
  intro hlaw
  have hle := (hlaw s hs).bounded 67 hsaved (by decide)
  rw [htotal] at hle
  exact absurd hle (by decide)

/-- The first note alone keeps the books. -/
theorem first_note_sizeLaw :
    ∃ s, sizeStep floatHost smallMemory Sized.fresh firstNote = some s ∧
      SizeLaw floatHost smallMemory s := by
  have hsome : (sizeStep floatHost smallMemory Sized.fresh firstNote).isSome = true := by
    decide +kernel
  obtain ⟨s, hs⟩ := Option.isSome_iff_exists.mp hsome
  have hsteady : Steady floatHost smallMemory Sized.fresh firstNote := fun _ => {
    nodup := by decide
    fresh := by simp [Sized.fresh, State.messages, Table.empty]
    kept := by decide +kernel
    fits := fun _ => by decide +kernel
    decreased := fun _ => .inr rfl
    increased := .inr (by simp [Sized.fresh, State.messages, Table.empty]) }
  exact ⟨s, hs, sizeLaw_of_steady _ _ s (Driven.refl.next hsteady hs)⟩

end RagflowMineru.Memories
