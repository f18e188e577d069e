import RagflowMineru.Redis.TaskQueue

/-!
# Who has a task message in hand

Every message is accounted for, at most one executor handles it, and an executor that is
started again takes up what was left under its name before it asks for new messages.
-/

namespace RagflowMineru.Redis

open RagflowMineru.Library

variable {ι κ β : Type*} [LinearOrder κ] [OrderBot κ]

/-! ## What an executor has in hand -/

/-- The iterator will not come to the message. -/
def Unacked.Behind (it : Unacked κ) (queue : String) (msgId : κ) : Prop :=
  queue ∉ it.queues.tail ∧ (it.queues.head? = some queue → ∃ m ∈ it.currentMin, msgId ≤ m)

/-- What the iterator will still come to, as things are. -/
def Broker.ahead (b : Broker ι κ β) (i : ι) (it : Unacked κ) : List (String × κ) :=
  match it.queues with
  | [] => []
  | queue :: rest =>
      b.pendingIn i (it.currentMin.getD ⊥) queue ++ rest.flatMap (b.pendingIn i ⊥)

/-- `collect` takes no message twice, and what is handled stays pending; as long as no
command has failed, the messages taken are the backlog, in its order, and then new
ones. -/
structure Custody (i : ι) (b : Broker ι κ β) (e : Executor κ) : Prop where
  queues : e.iterator.queues.Nodup
  nodup_taken : e.taken.Nodup
  delivered : ∀ x ∈ e.taken, (b.streams x.1).Delivered x.2
  behind : ∀ x ∈ e.taken, e.iterator.Behind x.1 x.2
  nodup_handling : e.handling.Nodup
  handling : ∀ x ∈ e.handling, x ∈ e.taken ∧ x.2 ∈ (b.streams x.1).pending i
  received : ∀ queue msgId, e.collect = .received queue msgId →
    (queue, msgId) ∈ e.taken ∧ msgId ∈ (b.streams queue).pending i ∧
      (queue, msgId) ∉ e.handling
  asking : ∀ queues joined attempt, e.collect = .consume (.fresh queues) joined attempt →
    e.iterator.queues = []
  recovered : e.failed = false → ∃ new, e.taken ++ b.ahead i e.iterator = e.backlog ++ new ∧
    (e.iterator.queues ≠ [] → new = [])

section

variable {source : IdSource κ} {i : ι} {b b' : Broker ι κ β} {e e' : Executor κ}
  {queue : String} {msgId : κ} {it : Unacked κ}

omit [OrderBot κ] in
theorem Unacked.Behind.tail (h : it.Behind queue msgId)
    (m : Option κ) (groupInfo : Option Bool) :
    Unacked.Behind ⟨it.queues.tail, m, groupInfo⟩ queue msgId := by
  refine ⟨fun hmem => h.1 (List.mem_of_mem_tail hmem), fun hhead => absurd ?_ h.1⟩
  exact List.mem_of_mem_head? hhead

theorem ahead_congr (h : ∀ queue m, (b'.streams queue).backlog i m = (b.streams queue).backlog i m)
    (it : Unacked κ) : b'.ahead i it = b.ahead i it := by
  have hpending : ∀ m, b'.pendingIn i m = b.pendingIn i m := fun m => by
    funext q
    rw [Broker.pendingIn, Broker.pendingIn, h]
  rw [Broker.ahead, Broker.ahead]
  simp only [hpending]

theorem Custody.frame (h : Custody i b e) (hframe : Frame i b b') : Custody i b' e where
  queues := h.queues
  nodup_taken := h.nodup_taken
  delivered x hx := hframe.delivered _ _ (h.delivered x hx)
  behind := h.behind
  nodup_handling := h.nodup_handling
  handling x hx := by
    rw [hframe.pending]
    exact h.handling x hx
  received q k hc := by
    rw [hframe.pending]
    exact h.received q k hc
  asking := h.asking
  recovered := by
    rw [ahead_congr hframe.backlog]
    exact h.recovered

/-- Another command comes up, and no message. -/
theorem Custody.goto (h : Custody i b e) {c : Collect κ} {failed : Bool}
    (hqueues : it.queues.Nodup) (hbehind : ∀ q k, e.iterator.Behind q k → it.Behind q k)
    (hreceived : ∀ q k, c ≠ .received q k)
    (hasking : ∀ queues joined attempt, c = .consume (.fresh queues) joined attempt →
      it.queues = [])
    (hahead : failed = false → e.failed = false ∧ b.ahead i it = b.ahead i e.iterator ∧
      (it.queues ≠ [] → e.iterator.queues ≠ [])) :
    Custody i b { e with iterator := it, collect := c, failed := failed } where
  queues := hqueues
  nodup_taken := h.nodup_taken
  delivered := h.delivered
  behind x hx := hbehind _ _ (h.behind x hx)
  nodup_handling := h.nodup_handling
  handling := h.handling
  received q k hc := absurd hc (hreceived q k)
  asking := hasking
  recovered hfailed := by
    obtain ⟨hbefore, hsame, hmore⟩ := hahead hfailed
    obtain ⟨new, hnew, hnil⟩ := h.recovered hbefore
    exact ⟨new, by rw [hsame]; exact hnew, fun hne => hnil (hmore hne)⟩

/-- What is ahead in a queue that has nothing for `i` any more. -/
theorem ahead_tail {rest : List String} (hit : it.queues = queue :: rest)
    (hnil : (b.streams queue).backlog i (it.currentMin.getD ⊥) = [])
    (groupInfo : Option Bool) : b.ahead i ⟨rest, none, groupInfo⟩ = b.ahead i it := by
  rw [Broker.ahead, Broker.ahead, hit]
  cases rest with
  | nil => simp [Broker.pendingIn, hnil]
  | cons next rest => simp [Broker.pendingIn, hnil]

theorem Custody.noMessage_fresh (h : Custody i b e) (hqueues : e.iterator.queues = [])
    (queues : List String) : Custody i b (e.noMessage (.fresh queues)) := by
  rw [Executor.noMessage]
  split
  · exact h.goto h.queues (fun _ _ hb => hb) (fun _ _ hc => nomatch hc)
      (fun _ _ _ hc => nomatch hc) fun hf => ⟨hf, rfl, fun hne => hne⟩
  · exact h.goto h.queues (fun _ _ hb => hb) (fun _ _ hc => nomatch hc)
      (fun _ _ _ _ => hqueues) fun hf => ⟨hf, rfl, fun hne => hne⟩

theorem Custody.noMessage_unacked (h : Custody i b e) {failed : Bool}
    (hahead : failed = false → e.failed = false ∧ ∃ queue rest, e.iterator.queues = queue :: rest ∧
      (b.streams queue).backlog i (e.iterator.currentMin.getD ⊥) = []) :
    Custody i b (({ e with failed := failed } : Executor κ).noMessage .unacked) := by
  refine h.goto h.queues.tail (fun _ _ hb => hb.tail _ _) (fun _ _ hc => nomatch hc)
    (fun _ _ _ hc => nomatch hc) fun hf => ?_
  obtain ⟨hbefore, queue, rest, hit, hnil⟩ := hahead hf
  refine ⟨hbefore, ?_, fun _ hnone => by simp [hnone] at hit⟩
  rw [← ahead_tail hit hnil e.iterator.groupInfo, hit]
  rfl

/-- The purpose of the attempt that is made. -/
def Executor.Attempts (e : Executor κ) (purpose : Purpose) : Prop :=
  ∃ joined attempt, e.collect = .consume purpose joined attempt

theorem Custody.attemptFailed (h : Custody i b e) {purpose : Purpose}
    (hpurpose : e.Attempts purpose) (attempt : ℕ) :
    Custody i b (e.attemptFailed purpose attempt) := by
  obtain ⟨joined, before, hcollect⟩ := hpurpose
  have hfailed : Custody i b { e with failed := true } :=
    { h with recovered := fun hf => nomatch hf }
  rw [Executor.attemptFailed]
  by_cases hlt : attempt + 1 < 3
  · rw [if_pos hlt]
    refine hfailed.goto h.queues (fun _ _ hb => hb) (fun _ _ hc => nomatch hc) ?_
      fun hf => nomatch hf
    intro queues joined' attempt' hc
    cases hc
    exact h.asking queues joined before hcollect
  · rw [if_neg hlt]
    cases purpose with
    | unacked => exact h.noMessage_unacked fun hf => nomatch hf
    | fresh queues =>
        exact hfailed.noMessage_fresh (h.asking queues joined before hcollect) queues

theorem Custody.skip (h : Custody i b e) {failed : Bool} {groupInfo : Option Bool}
    (hahead : failed = false → e.failed = false ∧ ∃ queue rest, e.iterator.queues = queue :: rest ∧
      (b.streams queue).lastDelivered = none) :
    Custody i b (({ e with failed := failed } : Executor κ).skip groupInfo) := by
  refine h.goto h.queues.tail (fun _ _ hb => hb.tail _ _) (fun _ _ hc => nomatch hc)
    (fun _ _ _ hc => nomatch hc) fun hf => ?_
  obtain ⟨hbefore, queue, rest, hit, hnone⟩ := hahead hf
  refine ⟨hbefore, ?_, fun _ hnil => by simp [hnil] at hit⟩
  have hempty : (b.streams queue).backlog i (e.iterator.currentMin.getD ⊥) = [] := by
    refine List.eq_nil_iff_forall_not_mem.mpr fun k hk => ?_
    obtain ⟨-, last, hlast, -⟩ :=
      (b.streams queue).pending_delivered i k (GroupLog.mem_backlog.mp hk).1
    rw [hnone] at hlast
    cases hlast
  rw [← ahead_tail hit hempty groupInfo, hit]
  rfl

theorem Custody.enter (h : Custody i b e) {failed : Bool} {groupInfo : Option Bool}
    (hmin : e.iterator.currentMin = none) (hfailed : failed = false → e.failed = false) :
    Custody i b (({ e with failed := failed } : Executor κ).enter groupInfo) := by
  refine h.goto h.queues (fun q k hb => ⟨hb.1, fun hhead => ?_⟩) (fun _ _ hc => nomatch hc)
    (fun _ _ _ hc => nomatch hc) fun hf => ⟨hfailed hf, ?_, fun hne => hne⟩
  · obtain ⟨m, hm, -⟩ := hb.2 hhead
    rw [hmin] at hm
    cases hm
  · rw [Broker.ahead, Broker.ahead, hmin]
    rfl

theorem Custody.next (h : Custody i b e) (answer : Answer) : Custody i b (e.next b answer) := by
  rw [Executor.next]
  split
  · rename_i hqueues
    exact h.goto h.queues (fun _ _ hb => hb) (fun _ _ hc => nomatch hc)
      (fun _ _ _ _ => hqueues) fun hf => ⟨hf, rfl, fun hne => hne⟩
  · exact h.goto h.queues (fun _ _ hb => hb) (fun _ _ hc => nomatch hc)
      (fun _ _ _ hc => nomatch hc) fun hf => ⟨hf, rfl, fun hne => hne⟩
  · rename_i queue rest hqueues hmin
    split
    · dsimp only
      split
      · exact h.enter hmin fun hf => hf
      · rename_i hgroup
        have hnone : (b.streams queue).lastDelivered = none := by
          simpa using hgroup
        split
        · exact h.skip fun hf => ⟨hf, queue, rest, hqueues, hnone⟩
        · exact h.skip fun hf => ⟨hf, queue, rest, hqueues, hnone⟩
    · dsimp only
      split
      · exact h.enter hmin fun hf => nomatch hf
      · exact h.skip fun hf => nomatch hf
      · exact h.goto List.nodup_nil (fun _ _ _ => ⟨List.not_mem_nil, fun hc => nomatch hc⟩)
          (fun _ _ hc => nomatch hc) (fun _ _ _ hc => nomatch hc) fun hf => nomatch hf

end

/-! ## One step -/

section

variable {source : IdSource κ} {i j : ι} {b b' : Broker ι κ β} {e e' : Executor κ}
  {queue : String} {msgId : κ}

theorem Custody.receive_unacked (h : Custody i b e) {rest : List String}
    (hqueues : e.iterator.queues = queue :: rest)
    (hread : (b.streams queue).unacknowledged i (e.iterator.currentMin.getD ⊥) = some msgId) :
    Custody i b (e.receive .unacked queue msgId) := by
  obtain ⟨hpending, hlt, hbacklog⟩ := GroupLog.unacknowledged_eq_some hread
  -- what has been taken from the queue lies before the new message
  have hbefore : ∀ k, e.iterator.Behind queue k → k < msgId := by
    rintro k ⟨-, hhead⟩
    obtain ⟨m, hm, hle⟩ := hhead (by rw [hqueues]; rfl)
    rw [Option.mem_def.mp hm] at hlt
    exact hle.trans_lt hlt
  have hnew : (queue, msgId) ∉ e.taken := fun hmem =>
    (hbefore msgId (h.behind _ hmem)).false
  refine ⟨h.queues, ?_, ?_, ?_, h.nodup_handling, ?_, ?_, fun _ _ _ hc => (nomatch hc), ?_⟩
  · exact List.nodup_append.mpr ⟨h.nodup_taken, List.nodup_singleton _, by
      rintro x hx y hy rfl
      exact hnew (List.mem_singleton.mp hy ▸ hx)⟩
  · intro x hx
    obtain hx | hx := List.mem_append.mp hx
    · exact h.delivered x hx
    · obtain rfl := List.mem_singleton.mp hx
      exact ((b.streams queue).pending_delivered i msgId hpending).2
  · intro x hx
    obtain hx | hx := List.mem_append.mp hx
    · refine ⟨(h.behind x hx).1, fun hhead => ⟨msgId, rfl, ?_⟩⟩
      have hqueue : x.1 = queue := by
        have : e.iterator.queues.head? = some x.1 := hhead
        rw [hqueues] at this
        exact (Option.some.inj this).symm
      exact (hbefore x.2 (hqueue ▸ h.behind x hx)).le
    · obtain rfl := List.mem_singleton.mp hx
      refine ⟨?_, fun _ => ⟨msgId, rfl, le_rfl⟩⟩
      have hnodup := h.queues
      change queue ∉ e.iterator.queues.tail
      rw [hqueues] at hnodup ⊢
      exact (List.nodup_cons.mp hnodup).1
  · exact fun x hx => ⟨List.mem_append_left _ (h.handling x hx).1, (h.handling x hx).2⟩
  · intro q k hc
    cases hc
    exact ⟨List.mem_append_right _ (.head _), hpending, fun hmem => hnew (h.handling _ hmem).1⟩
  · intro hf
    obtain ⟨new, hsplit, hnil⟩ := h.recovered hf
    refine ⟨new, Eq.trans ?_ hsplit, hnil⟩
    change (e.taken ++ [(queue, msgId)]) ++
      b.ahead i ⟨e.iterator.queues, some msgId, e.iterator.groupInfo⟩ = _
    rw [Broker.ahead, Broker.ahead, hqueues, List.append_assoc]
    simp [Broker.pendingIn, hbacklog]

theorem Custody.readAgain (h : Custody i b e) (hcollect : e.Attempts .unacked)
    (hqueue : e.queue .unacked = some queue) (attempt : ℕ) (answer : Answer) :
    Custody i b (readAgain i b e attempt queue answer) := by
  obtain ⟨rest, hqueues⟩ : ∃ rest, e.iterator.queues = queue :: rest := by
    rw [Executor.queue] at hqueue
    exact List.head?_eq_some_iff.mp hqueue
  cases answer with
  | refused => exact h.attemptFailed hcollect attempt
  | lost => exact h.attemptFailed hcollect attempt
  | answered =>
      rw [Redis.readAgain]
      split
      · rename_i hnone
        exact h.noMessage_unacked fun hf =>
          ⟨hf, queue, rest, hqueues, GroupLog.backlog_of_unacknowledged_none hnone⟩
      · rename_i msgId hsome
        exact h.receive_unacked hqueues hsome

/-- A new message is given to the executor, whether or not it gets the answer. -/
theorem Custody.deliver [DecidableEq ι] (h : Custody i b e) (hqueues : e.iterator.queues = [])
    (hfresh : (b.streams queue).fresh = some msgId) :
    Custody i (b.update queue ((b.streams queue).deliver i msgId hfresh)) e := by
  have hstreams : ∀ q, (b.update queue ((b.streams queue).deliver i msgId hfresh)).streams q =
      if q = queue then (b.streams queue).deliver i msgId hfresh else b.streams q :=
    fun q => Function.update_apply b.streams queue _ q
  have hpending : ∀ q k, k ∈ (b.streams q).pending i →
      k ∈ ((b.update queue ((b.streams queue).deliver i msgId hfresh)).streams q).pending i := by
    intro q k hk
    rw [hstreams]
    split
    · rename_i hq
      exact GroupLog.mem_give.mpr (.inl (hq ▸ hk))
    · exact hk
  refine ⟨h.queues, h.nodup_taken, fun x hx => ?_, h.behind, h.nodup_handling, fun x hx =>
    ⟨(h.handling x hx).1, hpending _ _ (h.handling x hx).2⟩, fun q k hc => ?_, h.asking, ?_⟩
  · rw [hstreams]
    split
    · rename_i hq
      exact ⟨msgId, rfl, (GroupLog.Delivered.le_fresh (hq ▸ h.delivered x hx) hfresh).le⟩
    · exact h.delivered x hx
  · obtain ⟨htaken, hk, hnot⟩ := h.received q k hc
    exact ⟨htaken, hpending q k hk, hnot⟩
  · rw [Broker.ahead, hqueues]
    have := h.recovered
    rw [Broker.ahead, hqueues] at this
    exact this

theorem Custody.receive_fresh [DecidableEq ι] (h : Custody i b e) (hqueues : e.iterator.queues = [])
    (hfresh : (b.streams queue).fresh = some msgId) (queues : List String) :
    Custody i (b.update queue ((b.streams queue).deliver i msgId hfresh))
      (e.receive (.fresh queues) queue msgId) := by
  have hd := h.deliver hqueues hfresh
  have hself : (b.update queue ((b.streams queue).deliver i msgId hfresh)).streams queue =
      (b.streams queue).deliver i msgId hfresh := Function.update_self _ _ _
  have hnew : (queue, msgId) ∉ e.taken := fun hmem =>
    (GroupLog.Delivered.le_fresh (h.delivered _ hmem) hfresh).false
  refine ⟨h.queues, ?_, ?_, ?_, h.nodup_handling, ?_, ?_, fun _ _ _ hc => (nomatch hc), ?_⟩
  · exact List.nodup_append.mpr ⟨h.nodup_taken, List.nodup_singleton _, by
      rintro x hx y hy rfl
      exact hnew (List.mem_singleton.mp hy ▸ hx)⟩
  · intro x hx
    obtain hx | hx := List.mem_append.mp hx
    · exact hd.delivered x hx
    · obtain rfl := List.mem_singleton.mp hx
      rw [hself]
      exact ⟨msgId, rfl, le_rfl⟩
  · intro x _
    change Unacked.Behind e.iterator x.1 x.2
    rw [Unacked.Behind, hqueues]
    exact ⟨List.not_mem_nil, fun hc => nomatch hc⟩
  · exact fun x hx => ⟨List.mem_append_left _ (h.handling x hx).1, (hd.handling x hx).2⟩
  · intro q k hc
    cases hc
    refine ⟨List.mem_append_right _ (.head _), ?_, fun hmem => hnew (h.handling _ hmem).1⟩
    rw [hself]
    exact GroupLog.mem_give.mpr (.inr ⟨rfl, rfl⟩)
  · intro hf
    obtain ⟨new, hnew, -⟩ := h.recovered hf
    rw [Broker.ahead, hqueues, List.append_nil] at hnew
    refine ⟨new ++ [(queue, msgId)], ?_, fun hne => absurd hqueues hne⟩
    change (e.taken ++ [(queue, msgId)]) ++ Broker.ahead _ i e.iterator = _
    rw [Broker.ahead, hqueues, List.append_nil, hnew, List.append_assoc]
    rfl

theorem Custody.readNew [DecidableEq ι] (h : Custody i b e) {queues : List String}
    (hcollect : e.Attempts (.fresh queues)) (attempt : ℕ) (queue : String) (answer : Answer) :
    Custody i (readNew i b e queues attempt queue answer).1
      (readNew i b e queues attempt queue answer).2 := by
  have hqueues : e.iterator.queues = [] := by
    obtain ⟨joined, before, hc⟩ := hcollect
    exact h.asking queues joined before hc
  cases answer with
  | refused => exact h.attemptFailed hcollect attempt
  | lost =>
      rw [Redis.readNew]
      split
      · exact h.attemptFailed hcollect attempt
      · rename_i msgId hfresh
        exact (h.deliver hqueues hfresh).attemptFailed hcollect attempt
  | answered =>
      rw [Redis.readNew]
      split
      · exact h.noMessage_fresh hqueues queues
      · rename_i msgId hfresh
        exact h.receive_fresh hqueues hfresh queues

theorem Custody.joinGroup (h : Custody i b e) {purpose : Purpose}
    (hcollect : e.Attempts purpose) (attempt : ℕ) (queue : String) (answer : Answer) :
    Custody i (joinGroup b e purpose attempt queue answer).1
      (joinGroup b e purpose attempt queue answer).2 := by
  cases answer with
  | refused => exact h.attemptFailed hcollect attempt
  | lost => exact (h.frame (frame_join i)).attemptFailed hcollect attempt
  | answered =>
      refine (h.frame (frame_join i)).goto h.queues (fun _ _ hb => hb) (fun _ _ hc => nomatch hc)
        ?_ fun hf => ⟨hf, rfl, fun hne => hne⟩
      intro queues joined' attempt' hc
      cases hc
      obtain ⟨joined, before, hc⟩ := hcollect
      exact h.asking queues joined before hc

theorem Custody.command [DecidableEq ι] (h : Custody i b e) {answer : Answer}
    (hstep : command i b e answer = some (b', e')) : Custody i b' e' := by
  rw [Redis.command] at hstep
  split at hstep
  · cases hstep
  · cases hstep
  · cases hstep
    exact h.next answer
  · rename_i purpose joined attempt hc
    have hcollect : e.Attempts purpose := ⟨joined, attempt, hc⟩
    obtain ⟨queue, hqueue, heq⟩ := Option.map_eq_some_iff.mp hstep
    cases joined with
    | true =>
        rw [if_pos rfl] at heq
        cases purpose with
        | unacked =>
            cases heq
            exact h.readAgain hcollect hqueue attempt answer
        | fresh queues =>
            have := h.readNew hcollect attempt queue answer
            rw [readGroup] at heq
            rwa [heq] at this
    | false =>
        rw [if_neg Bool.false_ne_true] at heq
        have := h.joinGroup hcollect attempt queue answer
        rwa [heq] at this

end

/-! ## Every step -/

section

variable {source : IdSource κ} {i j : ι} {b b' : Broker ι κ β}
  {e e' : Executor κ} {queue : String} {msgId : κ}

/-- A message comes to its end in the hands of the executor. -/
theorem Custody.ack (h : Custody i b e) (htaken : (queue, msgId) ∈ e.taken)
    (hnot : (queue, msgId) ∉ e.handling)
    (hcollect : ∀ q k, e.collect = .received q k → (queue, msgId) ≠ (q, k)) (acked : Bool) :
    Custody i (b.ack queue msgId acked) e := by
  have hpending : ∀ q k, (q, k) ≠ (queue, msgId) → k ∈ (b.streams q).pending i →
      k ∈ ((b.ack queue msgId acked).streams q).pending i := by
    intro q k hne hk
    cases acked with
    | false => exact hk
    | true =>
        change k ∈ (Function.update b.streams queue _ q).pending i
        rw [Function.update_apply]
        split
        · rename_i hq
          subst hq
          exact Finset.mem_erase.mpr ⟨fun hkm => hne (by rw [hkm]), hk⟩
        · exact hk
  refine ⟨h.queues, h.nodup_taken, fun x hx => ?_, h.behind, h.nodup_handling, fun x hx =>
    ⟨(h.handling x hx).1, hpending _ _ ?_ (h.handling x hx).2⟩, fun q k hc => ?_, h.asking, ?_⟩
  · cases acked with
    | false => exact h.delivered x hx
    | true =>
        change (Function.update b.streams queue _ x.1).Delivered x.2
        rw [Function.update_apply]
        split
        · rename_i hq
          exact hq ▸ h.delivered x hx
        · exact h.delivered x hx
  · exact fun heq => hnot (heq ▸ hx)
  · obtain ⟨hmem, hk, hhandling⟩ := h.received q k hc
    exact ⟨hmem, hpending q k (hcollect q k hc).symm hk, hhandling⟩
  · have hahead : (b.ack queue msgId acked).ahead i e.iterator = b.ahead i e.iterator := by
      cases acked with
      | false => rfl
      | true =>
          have hstreams : ∀ q m, (q = queue → msgId ≤ m) →
              Broker.pendingIn (b.ack queue msgId true) i m q = b.pendingIn i m q := by
            intro q m hm
            change (GroupLog.backlog (Function.update b.streams queue _ q) i m).map _ = _
            rw [Function.update_apply]
            split
            · rename_i hq
              subst hq
              rw [GroupLog.backlog_acknowledge fun _ => hm rfl]
              rfl
            · rfl
          obtain ⟨htail, hhead⟩ := h.behind _ htaken
          rw [Broker.ahead, Broker.ahead]
          cases hqueues : e.iterator.queues with
          | nil => rfl
          | cons first rest =>
              rw [hqueues] at htail hhead
              dsimp only
              rw [hstreams first]
              · refine congrArg _ (List.flatMap_congr fun q hq => hstreams q ⊥ fun hqueue => ?_)
                exact absurd (hqueue ▸ hq) htail
              · rintro rfl
                obtain ⟨m, hm, hle⟩ := hhead rfl
                rw [Option.mem_def.mp hm]
                exact hle
    rw [hahead]
    exact h.recovered

/-- A message leaves the hands of the executor. -/
theorem Custody.leave (h : Custody i b e) (queue : String) (msgId : κ) :
    Custody i b (e.leave queue msgId) :=
  { h with
    nodup_handling := h.nodup_handling.erase _
    handling := fun x hx => h.handling x (List.mem_of_mem_erase hx)
    received := fun q k hc =>
      ⟨(h.received q k hc).1, (h.received q k hc).2.1, fun hmem =>
        (h.received q k hc).2.2 (List.mem_of_mem_erase hmem)⟩ }

theorem custody_start (i : ι) (b : Broker ι κ β) : Custody i b (.start (b.backlog i)) where
  queues := nodup_getSvrQueueNames
  nodup_taken := List.nodup_nil
  delivered _ hx := nomatch hx
  behind _ hx := nomatch hx
  nodup_handling := List.nodup_nil
  handling _ hx := nomatch hx
  received _ _ hc := nomatch hc
  asking _ _ _ hc := nomatch hc
  recovered _ := ⟨[], by simp [Executor.start, Broker.ahead, Broker.backlog, getSvrQueueNames],
    fun _ => rfl⟩

theorem Custody.load (h : Custody i b e) (hc : e.collect = .received queue msgId) (fate : Fate) :
    Custody i (load b e queue msgId fate).1 (load b e queue msgId fate).2 := by
  obtain ⟨htaken, hpending, hnot⟩ := h.received queue msgId hc
  have hidle : Custody i b { e with collect := .idle } :=
    h.goto h.queues (fun _ _ hb => hb) (fun _ _ hc => nomatch hc) (fun _ _ _ hc => nomatch hc)
      fun hf => ⟨hf, rfl, fun hne => hne⟩
  cases fate with
  | run =>
      exact { hidle with
        nodup_handling := List.nodup_cons.mpr ⟨hnot, h.nodup_handling⟩
        handling := List.forall_mem_cons.mpr ⟨⟨htaken, hpending⟩, h.handling⟩
        received := fun _ _ hc => nomatch hc }
  | drop acked => exact hidle.ack htaken hnot (fun _ _ hc => nomatch hc) acked
  | raise => exact hidle

/-- The executor that moves. -/
theorem Custody.act [DecidableEq ι] (h : Custody i b e) {event : Event κ β}
    (hstep : act source i b e event = some (b', e')) : Custody i b' e' := by
  cases event with
  | produce queue payload =>
      cases hstep
      exact h.frame (frame_xadd i payload)
  | collect =>
      rw [Redis.act] at hstep
      split at hstep <;> cases hstep
      exact h.goto h.queues (fun _ _ hb => hb) (fun _ _ hc => by cases hc)
        (fun _ _ _ hc => by cases hc) fun hf => ⟨hf, rfl, fun hne => hne⟩
  | command answer => exact h.command hstep
  | load fate =>
      rw [Redis.act] at hstep
      split at hstep
      · rename_i queue msgId hc
        have := h.load hc fate
        rw [Option.some_inj] at hstep
        rwa [hstep] at this
      · cases hstep
  | finish queue msgId acked =>
      rw [Redis.act] at hstep
      split at hstep
      · rename_i hmem
        cases hstep
        refine (h.leave queue msgId).ack (h.handling _ hmem).1
          (fun hin => (h.nodup_handling.mem_erase_iff.mp hin).1 rfl) (fun q k hc heq => ?_) acked
        exact (h.received q k hc).2.2 (heq ▸ hmem)
      · cases hstep
  | abandon queue msgId =>
      rw [Redis.act] at hstep
      split at hstep <;> cases hstep
      exact h.leave queue msgId
  | restart =>
      cases hstep
      exact custody_start i _

end

/-! ## The other executors -/

section

variable {source : IdSource κ} {i j : ι} {b b' : Broker ι κ β}
  {e e' : Executor κ}

theorem frame_readNew [DecidableEq ι] (hij : i ≠ j) (e : Executor κ) (queues : List String) (attempt : ℕ)
    (queue : String) (answer : Answer) :
    Frame i b (readNew j b e queues attempt queue answer).1 := by
  cases answer with
  | refused => exact .refl i b
  | lost =>
      rw [readNew]
      split
      · exact .refl i b
      · rename_i msgId hfresh
        exact frame_deliver hij hfresh
  | answered =>
      rw [readNew]
      split
      · exact .refl i b
      · rename_i msgId hfresh
        exact frame_deliver hij hfresh

theorem frame_command [DecidableEq ι] (hij : i ≠ j) {answer : Answer}
    (hstep : command j b e answer = some (b', e')) : Frame i b b' := by
  rw [command] at hstep
  split at hstep
  · cases hstep
  · cases hstep
  · cases hstep
    exact .refl i b
  · rename_i purpose joined attempt _
    obtain ⟨queue, -, heq⟩ := Option.map_eq_some_iff.mp hstep
    cases joined with
    | true =>
        rw [if_pos rfl] at heq
        cases purpose with
        | unacked =>
            cases heq
            exact .refl i b
        | fresh queues =>
            have := frame_readNew (b := b) hij e queues attempt queue answer
            rw [readGroup] at heq
            rwa [heq] at this
    | false =>
        rw [if_neg Bool.false_ne_true] at heq
        cases answer <;> cases heq
        · exact .refl i b
        · exact frame_join i
        · exact frame_join i

/-- What one executor does leaves the others' messages alone. -/
theorem frame_act [DecidableEq ι] (hij : i ≠ j) (h : Custody j b e) {event : Event κ β}
    (hstep : act source j b e event = some (b', e')) : Frame i b b' := by
  have hnot : ∀ q k, k ∈ (b.streams q).pending j → k ∉ (b.streams q).pending i :=
    fun q k hj hi => hij ((b.streams q).one_holder k i j hi hj)
  cases event with
  | produce queue payload =>
      cases hstep
      exact frame_xadd i payload
  | collect =>
      rw [act] at hstep
      split at hstep <;> cases hstep
      exact .refl i b
  | command answer => exact frame_command hij hstep
  | load fate =>
      rw [act] at hstep
      split at hstep
      · rename_i queue msgId hc
        cases fate with
        | run =>
            cases hstep
            exact .refl i b
        | drop acked =>
            cases hstep
            exact frame_ack (hnot _ _ (h.received queue msgId hc).2.1) acked
        | raise =>
            cases hstep
            exact .refl i b
      · cases hstep
  | finish queue msgId acked =>
      rw [act] at hstep
      split at hstep
      · rename_i hmem
        cases hstep
        exact frame_ack (hnot _ _ (h.handling _ hmem).2) acked
      · cases hstep
  | abandon queue msgId =>
      rw [act] at hstep
      split at hstep <;> cases hstep
      exact .refl i b
  | restart =>
      cases hstep
      exact .refl i b

end

/-! ## Every run -/

/-- No message has been added, and every executor has just been started. -/
def Broker.init : Broker ι κ β := ⟨fun _ => .empty, []⟩

variable [DecidableEq ι] {source : IdSource κ}
  {s : Processes ι (Broker ι κ β) (Executor κ)}

/-- The states of all runs, of any number of executors. -/
abbrev Reached (source : IdSource κ) (s : Processes ι (Broker ι κ β) (Executor κ)) : Prop :=
  Driven (Processes.step (act source)) (fun _ _ => True) ⟨.init, fun _ => .start []⟩ s

theorem sound_of_reached (hs : Reached source s) :
    s.shared.Accounted ∧ ∀ i, Custody i s.shared (s.own i) := by
  refine Processes.invariant (L := fun i b e => Custody i b e) ⟨?_, fun i => ?_⟩ ?_ hs
  · exact fun _ _ hk _ => absurd hk List.not_mem_nil
  · have hnil : (Broker.init : Broker ι κ β).backlog i = [] := rfl
    rw [← hnil]
    exact custody_start i _
  · intro s j event b e hJ hL _ hstep
    exact ⟨accounted_act hJ hstep, (hL j).act hstep, fun i hi =>
      (hL i).frame (frame_act hi (hL j) hstep)⟩

/-- Whatever fails and whoever dies, a message of a queue has not been delivered yet, or
it waits in the pending entries of an executor, or its task has come to its end. -/
theorem accounted_of_reached (hs : Reached source s) (queue : String) (msgId : κ)
    (hmem : msgId ∈ (s.shared.streams queue).ids) :
    ¬ (s.shared.streams queue).Delivered msgId ∨
      (∃ i, msgId ∈ (s.shared.streams queue).pending i) ∨ (queue, msgId) ∈ s.shared.settled := by
  by_cases hdelivered : (s.shared.streams queue).Delivered msgId
  · exact .inr ((sound_of_reached hs).1 queue msgId hmem hdelivered)
  · exact .inl hdelivered

/-- At most one executor is at work on a message, in one `handle_task` only, and the
message stays pending with it. -/
structure OneHandler (s : Processes ι (Broker ι κ β) (Executor κ)) : Prop where
  one : ∀ i j x, x ∈ (s.own i).handling → x ∈ (s.own j).handling → i = j
  once : ∀ i, (s.own i).handling.Nodup
  pending : ∀ i, ∀ x ∈ (s.own i).handling, x.2 ∈ (s.shared.streams x.1).pending i
  received : ∀ i queue msgId, (s.own i).collect = .received queue msgId →
    ∀ j, (queue, msgId) ∉ (s.own j).handling

theorem oneHandler_of_reached (hs : Reached source s) : OneHandler s := by
  have hcustody := (sound_of_reached hs).2
  have hone : ∀ i j queue msgId, msgId ∈ (s.shared.streams queue).pending i →
      msgId ∈ (s.shared.streams queue).pending j → i = j :=
    fun i j queue msgId hi hj => (s.shared.streams queue).one_holder msgId i j hi hj
  refine ⟨fun i j x hi hj => ?_, fun i => (hcustody i).nodup_handling,
    fun i x hx => ((hcustody i).handling x hx).2, fun i queue msgId hc j hj => ?_⟩
  · exact hone i j x.1 x.2 ((hcustody i).handling x hi).2 ((hcustody j).handling x hj).2
  · obtain ⟨-, hpending, hnot⟩ := (hcustody i).received queue msgId hc
    obtain rfl := hone i j queue msgId hpending ((hcustody j).handling _ hj).2
    exact hnot hj

/-- An executor takes no message twice.  Before it asks for new messages it has taken all
that were pending with its name when it was started, in the order of the queues. -/
structure RecoversFirst (e : Executor κ) : Prop where
  once : e.taken.Nodup
  inOrder : e.failed = false → e.taken <+: e.backlog ∨ e.backlog <+: e.taken
  complete : e.failed = false → ∀ queues joined attempt,
    e.collect = .consume (.fresh queues) joined attempt → e.backlog <+: e.taken

/-- The ids of a stream in the order of the natural numbers. -/
def countingSource : IdSource ℕ := ⟨Nat.succ, Nat.lt_succ_self⟩

/-- Both executors look for messages; the first one takes the only message and dies, and
when it is started again it takes the message again and then asks for new ones. -/
def diesAtWork : List (Bool × Event ℕ Unit) :=
  let reads (n : ℕ) : List (Bool × Event ℕ Unit) := .replicate n (true, .command .answered)
  (false, .produce svrQueueName ()) :: (true, .collect) :: reads 7 ++
    (true, .load .run) :: (true, .restart) :: (true, .collect) :: reads 6 ++
    (true, .load .run) :: (true, .collect) :: reads 4

theorem diesAtWork_spec :
    ∃ s, Reached countingSource (β := Unit) s ∧
      ((s.shared.streams svrQueueName).ids, (s.own true).handling) =
        ([1], [(svrQueueName, 1)]) ∧
      ((s.own true).collect, (s.own true).backlog, (s.own true).failed) =
        (.consume (.fresh getSvrQueueNames) false 0, [(svrQueueName, 1)], false) := by
  have hrun : (drive (Processes.step (act countingSource)) diesAtWork
      (⟨.init, fun _ => .start []⟩ : Processes Bool (Broker Bool ℕ Unit) (Executor ℕ))).map
        (fun s => (((s.shared.streams svrQueueName).ids, (s.own true).handling),
          (s.own true).collect, (s.own true).backlog, (s.own true).failed)) =
      some (([1], [(svrQueueName, 1)]),
        .consume (.fresh getSvrQueueNames) false 0, [(svrQueueName, 1)], false) := by decide
  obtain ⟨s, hs, h⟩ := Driven.exists_of_map_drive hrun
  exact ⟨s, hs, (Prod.mk.inj h).1, (Prod.mk.inj h).2⟩

theorem accounted_of_reached_diesAtWork :
    ∃ s, Reached countingSource (β := Unit) s ∧
      (¬ (s.shared.streams svrQueueName).Delivered 1 ∨
        (∃ i : Bool, 1 ∈ (s.shared.streams svrQueueName).pending i) ∨
          (svrQueueName, 1) ∈ s.shared.settled) := by
  obtain ⟨s, hs, h, -⟩ := diesAtWork_spec
  exact ⟨s, hs, accounted_of_reached hs svrQueueName 1 (by rw [(Prod.mk.inj h).1]; exact .head _)⟩

theorem oneHandler_of_reached_diesAtWork :
    ∃ s, Reached countingSource (β := Unit) s ∧
      (s.own true).handling = [(svrQueueName, 1)] ∧ OneHandler s := by
  obtain ⟨s, hs, h, -⟩ := diesAtWork_spec
  exact ⟨s, hs, (Prod.mk.inj h).2, oneHandler_of_reached hs⟩

end RagflowMineru.Redis
