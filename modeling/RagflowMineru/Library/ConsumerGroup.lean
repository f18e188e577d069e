import Mathlib.Data.Finset.Basic
import Mathlib.Data.List.Basic
import Mathlib.Logic.Function.Basic
import Mathlib.Order.BoundedOrder.Basic

/-!
# A log that a group of consumers reads

The ids of the entries grow.  An entry that is delivered is pending with the consumer
that has asked for it until somebody acknowledges it; a consumer can read its pending
entries again.
-/

namespace RagflowMineru.Library

/-- The log, the id up to which it has been delivered (`none` without a group), and the
entries that wait for an acknowledgement. -/
structure GroupLog (ι κ β : Type*) [LinearOrder κ] [OrderBot κ] where
  entries : List (κ × β)
  lastId : κ
  lastDelivered : Option κ
  pending : ι → Finset κ
  sorted : (entries.map Prod.fst).Pairwise (· < ·)
  bot_lt : ∀ k ∈ entries.map Prod.fst, ⊥ < k
  le_lastId : ∀ k ∈ entries.map Prod.fst, k ≤ lastId
  delivered_le : ∀ last ∈ lastDelivered, last ≤ lastId
  pending_delivered : ∀ i, ∀ k ∈ pending i,
    k ∈ entries.map Prod.fst ∧ ∃ last ∈ lastDelivered, k ≤ last
  one_holder : ∀ k i j, k ∈ pending i → k ∈ pending j → i = j

namespace GroupLog

variable {ι κ β : Type*} [LinearOrder κ] [OrderBot κ] {s : GroupLog ι κ β} {i j : ι} {k m : κ}

def ids (s : GroupLog ι κ β) : List κ := s.entries.map Prod.fst

def Delivered (s : GroupLog ι κ β) (k : κ) : Prop := ∃ last ∈ s.lastDelivered, k ≤ last

/-- Nothing has been added yet, and there is no group. -/
def empty : GroupLog ι κ β where
  entries := []
  lastId := ⊥
  lastDelivered := none
  pending _ := ∅
  sorted := List.Pairwise.nil
  bot_lt _ hk := absurd hk List.not_mem_nil
  le_lastId _ hk := absurd hk List.not_mem_nil
  delivered_le _ h := nomatch h
  pending_delivered _ _ hk := absurd hk (Finset.notMem_empty _)
  one_holder _ _ _ hk := absurd hk (Finset.notMem_empty _)

/-! ## Adding an entry -/

theorem map_append_singleton (s : GroupLog ι κ β) (k : κ) (payload : β) :
    (s.entries ++ [(k, payload)]).map Prod.fst = s.ids ++ [k] := by
  rw [List.map_append]
  rfl

theorem mem_map_append_singleton {s : GroupLog ι κ β} {k m : κ} {payload : β} :
    m ∈ (s.entries ++ [(k, payload)]).map Prod.fst ↔ m ∈ s.ids ∨ m = k := by
  rw [map_append_singleton, List.mem_append, List.mem_singleton]

theorem sorted_append (s : GroupLog ι κ β) (k : κ) (payload : β) (h : s.lastId < k) :
    ((s.entries ++ [(k, payload)]).map Prod.fst).Pairwise (· < ·) := by
  rw [map_append_singleton, List.pairwise_append]
  refine ⟨s.sorted, List.pairwise_singleton _ _, fun a ha b hb => ?_⟩
  rw [List.mem_singleton.mp hb]
  exact (s.le_lastId a ha).trans_lt h

theorem bot_lt_append (s : GroupLog ι κ β) (k : κ) (payload : β) (h : s.lastId < k) :
    ∀ m ∈ (s.entries ++ [(k, payload)]).map Prod.fst, ⊥ < m := by
  intro m hm
  obtain hm | rfl := mem_map_append_singleton.mp hm
  · exact s.bot_lt m hm
  · exact bot_le.trans_lt h

theorem le_append (s : GroupLog ι κ β) (k : κ) (payload : β) (h : s.lastId < k) :
    ∀ m ∈ (s.entries ++ [(k, payload)]).map Prod.fst, m ≤ k := by
  intro m hm
  obtain hm | rfl := mem_map_append_singleton.mp hm
  · exact ((s.le_lastId m hm).trans_lt h).le
  · exact le_rfl

theorem delivered_le_of_lt (s : GroupLog ι κ β) (k : κ) (h : s.lastId < k) :
    ∀ last ∈ s.lastDelivered, last ≤ k :=
  fun last hlast => ((s.delivered_le last hlast).trans_lt h).le

theorem pending_delivered_append (s : GroupLog ι κ β) (k : κ) (payload : β) :
    ∀ i, ∀ m ∈ s.pending i, m ∈ (s.entries ++ [(k, payload)]).map Prod.fst ∧
      ∃ last ∈ s.lastDelivered, m ≤ last :=
  fun i m hm => ⟨mem_map_append_singleton.mpr (.inl (s.pending_delivered i m hm).1),
    (s.pending_delivered i m hm).2⟩

/-- A new entry, under an id behind all others. -/
def add (s : GroupLog ι κ β) (k : κ) (payload : β) (h : s.lastId < k) : GroupLog ι κ β where
  entries := s.entries ++ [(k, payload)]
  lastId := k
  lastDelivered := s.lastDelivered
  pending := s.pending
  sorted := sorted_append s k payload h
  bot_lt := bot_lt_append s k payload h
  le_lastId := le_append s k payload h
  delivered_le := delivered_le_of_lt s k h
  pending_delivered := pending_delivered_append s k payload
  one_holder := s.one_holder

@[simp] theorem pending_add (s : GroupLog ι κ β) (k : κ) (payload : β) (h : s.lastId < k) :
    (s.add k payload h).pending = s.pending := rfl

@[simp] theorem lastDelivered_add (s : GroupLog ι κ β) (k : κ) (payload : β)
    (h : s.lastId < k) : (s.add k payload h).lastDelivered = s.lastDelivered := rfl

@[simp] theorem ids_add (s : GroupLog ι κ β) (k : κ) (payload : β) (h : s.lastId < k) :
    (s.add k payload h).ids = s.ids ++ [k] :=
  map_append_singleton s k payload

/-! ## Creating the group -/

theorem delivered_le_join (s : GroupLog ι κ β) :
    ∀ last ∈ some (s.lastDelivered.getD ⊥), last ≤ s.lastId := by
  intro last hlast
  obtain rfl := Option.mem_some_iff.mp hlast
  cases hgroup : s.lastDelivered with
  | none => exact bot_le
  | some last => exact s.delivered_le last hgroup

theorem pending_delivered_join (s : GroupLog ι κ β) :
    ∀ i, ∀ m ∈ s.pending i, m ∈ s.entries.map Prod.fst ∧
      ∃ last ∈ some (s.lastDelivered.getD ⊥), m ≤ last := by
  intro i m hm
  obtain ⟨hmem, last, hlast, hle⟩ := s.pending_delivered i m hm
  rw [Option.mem_def] at hlast
  exact ⟨hmem, last, by rw [hlast]; rfl, hle⟩

/-- A group that is created reads from the beginning; one that exists stays. -/
def join (s : GroupLog ι κ β) : GroupLog ι κ β where
  entries := s.entries
  lastId := s.lastId
  lastDelivered := some (s.lastDelivered.getD ⊥)
  pending := s.pending
  sorted := s.sorted
  bot_lt := s.bot_lt
  le_lastId := s.le_lastId
  delivered_le := delivered_le_join s
  pending_delivered := pending_delivered_join s
  one_holder := s.one_holder

@[simp] theorem pending_join (s : GroupLog ι κ β) : s.join.pending = s.pending := rfl

@[simp] theorem ids_join (s : GroupLog ι κ β) : s.join.ids = s.ids := rfl

/-! ## The next entry -/

/-- The first entry that nobody has been given. -/
def fresh (s : GroupLog ι κ β) : Option κ :=
  s.lastDelivered.bind fun last => s.ids.find? (last < ·)

theorem fresh_eq_some (h : s.fresh = some k) :
    k ∈ s.ids ∧ ¬ s.Delivered k ∧ ∀ m ∈ s.ids, ¬ s.Delivered m → k ≤ m := by
  obtain ⟨last, hlast, hfind⟩ := Option.bind_eq_some_iff.mp h
  obtain ⟨hk, before, after, hids, hbefore⟩ := List.find?_eq_some_iff_append.mp hfind
  have hlt : last < k := of_decide_eq_true hk
  have hdelivered : ∀ m, s.Delivered m ↔ m ≤ last := fun m => by
    simp [Delivered, hlast]
  refine ⟨by simp [hids], by rw [hdelivered]; exact not_le.mpr hlt, fun m hm hnot => ?_⟩
  rw [hdelivered, not_le] at hnot
  rw [hids] at hm
  have hsorted : (before ++ k :: after).Pairwise (· < ·) := hids ▸ s.sorted
  obtain hm | hm := List.mem_append.mp hm
  · have := hbefore m hm
    simp [hnot] at this
  · obtain rfl | hm := List.mem_cons.mp hm
    · exact le_rfl
    · exact ((List.pairwise_cons.mp (List.pairwise_append.mp hsorted).2.1).1 m hm).le

theorem not_pending_of_fresh (h : s.fresh = some k) (i : ι) : k ∉ s.pending i :=
  fun hk => (fresh_eq_some h).2.1 (s.pending_delivered i k hk).2

theorem Delivered.le_fresh (hm : s.Delivered m) (h : s.fresh = some k) : m < k := by
  obtain ⟨last, hlast, hle⟩ := hm
  refine hle.trans_lt (not_le.mp fun hk => (fresh_eq_some h).2.1 ⟨last, hlast, hk⟩)

/-! ## Acknowledging -/

theorem pending_delivered_erase (s : GroupLog ι κ β) (k : κ) :
    ∀ i, ∀ m ∈ (s.pending i).erase k,
      m ∈ s.entries.map Prod.fst ∧ ∃ last ∈ s.lastDelivered, m ≤ last :=
  fun i m hm => s.pending_delivered i m (Finset.mem_of_mem_erase hm)

theorem one_holder_erase (s : GroupLog ι κ β) (k : κ) :
    ∀ m i j, m ∈ (s.pending i).erase k → m ∈ (s.pending j).erase k → i = j :=
  fun m i j hi hj => s.one_holder m i j (Finset.mem_of_mem_erase hi) (Finset.mem_of_mem_erase hj)

def acknowledge (s : GroupLog ι κ β) (k : κ) : GroupLog ι κ β where
  entries := s.entries
  lastId := s.lastId
  lastDelivered := s.lastDelivered
  pending := fun i => (s.pending i).erase k
  sorted := s.sorted
  bot_lt := s.bot_lt
  le_lastId := s.le_lastId
  delivered_le := s.delivered_le
  pending_delivered := pending_delivered_erase s k
  one_holder := one_holder_erase s k

@[simp] theorem pending_acknowledge (s : GroupLog ι κ β) (k : κ) (i : ι) :
    (s.acknowledge k).pending i = (s.pending i).erase k := rfl

@[simp] theorem lastDelivered_acknowledge (s : GroupLog ι κ β) (k : κ) :
    (s.acknowledge k).lastDelivered = s.lastDelivered := rfl

@[simp] theorem ids_acknowledge (s : GroupLog ι κ β) (k : κ) :
    (s.acknowledge k).ids = s.ids := rfl

/-! ## Every entry is accounted for -/

/-- An entry that has been delivered is pending with a consumer, or it is settled. -/
def Accounted (s : GroupLog ι κ β) (settled : κ → Prop) : Prop :=
  ∀ k ∈ s.ids, s.Delivered k → (∃ i, k ∈ s.pending i) ∨ settled k

variable {settled settled' : κ → Prop}

theorem Accounted.mono (hs : s.Accounted settled) (h : ∀ k, settled k → settled' k) :
    s.Accounted settled' :=
  fun k hk hdelivered => (hs k hk hdelivered).imp_right (h k)

theorem Accounted.add (hs : s.Accounted settled) {payload : β} (h : s.lastId < k) :
    (s.add k payload h).Accounted settled := by
  intro m hm hdelivered
  rw [ids_add, List.mem_append, List.mem_singleton] at hm
  obtain hm | rfl := hm
  · exact hs m hm hdelivered
  · obtain ⟨last, hlast, hle⟩ := hdelivered
    exact absurd (hle.trans (s.delivered_le last hlast)) h.not_ge

theorem Accounted.join (hs : s.Accounted settled) : s.join.Accounted settled := by
  intro m hm hdelivered
  obtain ⟨last, hlast, hle⟩ := hdelivered
  cases hgroup : s.lastDelivered with
  | none =>
      have hbot : last = ⊥ := by
        simpa [GroupLog.join, hgroup, eq_comm] using hlast
      exact absurd hle (hbot ▸ (s.bot_lt m hm).not_ge)
  | some last' =>
      have hlast' : last = last' := by
        simpa [GroupLog.join, hgroup, eq_comm] using hlast
      exact hs m hm ⟨last', hgroup, hlast' ▸ hle⟩

theorem Accounted.acknowledge (hs : s.Accounted settled) (hk : settled k) :
    (s.acknowledge k).Accounted settled := by
  intro m hm hdelivered
  obtain ⟨i, hi⟩ | hsettled := hs m hm hdelivered
  · by_cases hmk : m = k
    · exact .inr (hmk ▸ hk)
    · exact .inl ⟨i, Finset.mem_erase.mpr ⟨hmk, hi⟩⟩
  · exact .inr hsettled

/-! ## What a consumer can read again -/

/-- The entries behind `m` that are pending with `i`, in their order. -/
def backlog (s : GroupLog ι κ β) (i : ι) (m : κ) : List κ :=
  s.ids.filter fun k => k ∈ s.pending i ∧ m < k

/-- The first of them. -/
def unacknowledged (s : GroupLog ι κ β) (i : ι) (m : κ) : Option κ :=
  s.ids.find? fun k => k ∈ s.pending i ∧ m < k

theorem mem_backlog : k ∈ s.backlog i m ↔ k ∈ s.pending i ∧ m < k := by
  rw [backlog, List.mem_filter, decide_eq_true_eq]
  exact ⟨And.right, fun h => ⟨(s.pending_delivered i k h.1).1, h⟩⟩

theorem backlog_of_unacknowledged_none (h : s.unacknowledged i m = none) : s.backlog i m = [] := by
  rw [backlog, List.filter_eq_nil_iff]
  exact List.find?_eq_none.mp h

theorem unacknowledged_eq_some (h : s.unacknowledged i m = some k) :
    k ∈ s.pending i ∧ m < k ∧ s.backlog i m = k :: s.backlog i k := by
  obtain ⟨hk, before, after, hids, hbefore⟩ := List.find?_eq_some_iff_append.mp h
  rw [decide_eq_true_eq] at hk
  have hsorted : (before ++ k :: after).Pairwise (· < ·) := hids ▸ s.sorted
  obtain ⟨-, hafter, hlt⟩ := List.pairwise_append.mp hsorted
  refine ⟨hk.1, hk.2, ?_⟩
  have hfirst : before.filter (fun a => decide (a ∈ s.pending i ∧ m < a)) = [] := by
    rw [List.filter_eq_nil_iff]
    intro a ha
    simpa [imp_iff_not_or] using hbefore a ha
  have hfirst' : before.filter (fun a => decide (a ∈ s.pending i ∧ k < a)) = [] := by
    rw [List.filter_eq_nil_iff]
    intro a ha
    simp [(hlt a ha k (.head _)).le]
  rw [backlog, backlog, hids, List.filter_append, List.filter_append, hfirst, hfirst',
    List.nil_append, List.nil_append, List.filter_cons_of_pos (by simpa using hk),
    List.filter_cons_of_neg (by simp)]
  refine congrArg _ (List.filter_congr fun a ha => ?_)
  have hka := (List.pairwise_cons.mp hafter).1 a ha
  simp [hka, hk.2.trans hka]

theorem nodup_backlog (s : GroupLog ι κ β) (i : ι) (m : κ) : (s.backlog i m).Nodup :=
  (List.Pairwise.imp (fun h => h.ne) s.sorted).filter _

theorem backlog_add (s : GroupLog ι κ β) (i : ι) (m : κ) {payload : β} (h : s.lastId < k) :
    (s.add k payload h).backlog i m = s.backlog i m := by
  have hk : k ∉ s.pending i := fun hk =>
    h.not_ge (s.le_lastId k (s.pending_delivered i k hk).1)
  rw [backlog, backlog, ids_add, List.filter_append, List.filter_cons_of_neg (by simp [hk]),
    List.filter_nil, List.append_nil]
  rfl

theorem backlog_join (s : GroupLog ι κ β) (i : ι) (m : κ) :
    s.join.backlog i m = s.backlog i m := rfl

/-- What somebody else has acknowledged, or `i` itself before `m`, is not in the way. -/
theorem backlog_acknowledge (h : k ∈ s.pending i → k ≤ m) :
    (s.acknowledge k).backlog i m = s.backlog i m := by
  refine List.filter_congr fun a _ => ?_
  rw [pending_acknowledge, decide_eq_decide, Finset.mem_erase]
  constructor
  · exact fun ⟨⟨_, ha⟩, hm⟩ => ⟨ha, hm⟩
  · rintro ⟨ha, hm⟩
    refine ⟨⟨?_, ha⟩, hm⟩
    rintro rfl
    exact hm.not_ge (h ha)

/-! ## Delivering it -/

theorem delivered_le_fresh (s : GroupLog ι κ β) (k : κ) (h : s.fresh = some k) :
    ∀ last ∈ some k, last ≤ s.lastId := by
  intro last hlast
  obtain rfl := Option.mem_some_iff.mp hlast
  exact s.le_lastId _ (fresh_eq_some h).1

variable [DecidableEq ι]

/-- The pending entries once `i` has been given `k`. -/
def give (s : GroupLog ι κ β) (i : ι) (k : κ) : ι → Finset κ :=
  Function.update s.pending i (insert k (s.pending i))

theorem mem_give : m ∈ s.give i k j ↔ m ∈ s.pending j ∨ m = k ∧ j = i := by
  rw [give]
  by_cases hj : j = i
  · subst hj
    rw [Function.update_self, Finset.mem_insert]
    tauto
  · rw [Function.update_of_ne hj]
    tauto

theorem pending_delivered_give (s : GroupLog ι κ β) (i : ι) (k : κ) (h : s.fresh = some k) :
    ∀ j, ∀ m ∈ s.give i k j, m ∈ s.entries.map Prod.fst ∧ ∃ last ∈ some k, m ≤ last := by
  intro j m hm
  obtain hm | ⟨rfl, -⟩ := mem_give.mp hm
  · obtain ⟨hmem, hdelivered⟩ := s.pending_delivered j m hm
    exact ⟨hmem, k, rfl, (Delivered.le_fresh hdelivered h).le⟩
  · exact ⟨(fresh_eq_some h).1, m, rfl, le_rfl⟩

theorem one_holder_give (s : GroupLog ι κ β) (i : ι) (k : κ) (h : s.fresh = some k) :
    ∀ m j j', m ∈ s.give i k j → m ∈ s.give i k j' → j = j' := by
  intro m j j' hj hj'
  rw [mem_give] at hj hj'
  obtain hj | ⟨rfl, rfl⟩ := hj
  · obtain hj' | ⟨rfl, -⟩ := hj'
    · exact s.one_holder m j j' hj hj'
    · exact absurd hj (not_pending_of_fresh h j)
  · obtain hj' | ⟨-, rfl⟩ := hj'
    · exact absurd hj' (not_pending_of_fresh h j')
    · rfl

/-- The first entry that nobody has been given is given to `i`. -/
def deliver (s : GroupLog ι κ β) (i : ι) (k : κ) (h : s.fresh = some k) : GroupLog ι κ β where
  entries := s.entries
  lastId := s.lastId
  lastDelivered := some k
  pending := s.give i k
  sorted := s.sorted
  bot_lt := s.bot_lt
  le_lastId := s.le_lastId
  delivered_le := delivered_le_fresh s k h
  pending_delivered := pending_delivered_give s i k h
  one_holder := one_holder_give s i k h

@[simp] theorem pending_deliver (h : s.fresh = some k) :
    (s.deliver i k h).pending = s.give i k := rfl

@[simp] theorem ids_deliver (h : s.fresh = some k) : (s.deliver i k h).ids = s.ids := rfl

theorem Accounted.deliver (hs : s.Accounted settled) (h : s.fresh = some k) :
    (s.deliver i k h).Accounted settled := by
  intro m hm hdelivered
  obtain ⟨last, hlast, hle⟩ := hdelivered
  obtain rfl := Option.mem_some_iff.mp hlast
  obtain rfl | hlt := hle.eq_or_lt
  · exact .inl ⟨i, mem_give.mpr (.inr ⟨rfl, rfl⟩)⟩
  · have hbefore : s.Delivered m := by
      by_contra hnot
      exact hlt.not_ge ((fresh_eq_some h).2.2 m hm hnot)
    exact (hs m hm hbefore).imp_left fun ⟨j, hj⟩ => ⟨j, mem_give.mpr (.inl hj)⟩

theorem backlog_deliver_of_ne (h : s.fresh = some k) (hij : i ≠ j) (m : κ) :
    (s.deliver j k h).backlog i m = s.backlog i m := by
  have hpending : s.give j k i = s.pending i := Function.update_of_ne hij _ _
  simp [backlog, hpending]

end GroupLog

end RagflowMineru.Library
