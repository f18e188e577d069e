import RagflowMineru.Library.ConsumerGroup
import RagflowMineru.Library.Processes
import RagflowMineru.Redis.Requeue
import Mathlib.Order.Nat

/-!
# The queues of the task executors

The servers add tasks to two streams; every task executor belongs to one consumer group
of both.  An executor first reads again what its predecessor of the same name had not
acknowledged, then it asks for new messages.  A step is one Redis command of one
executor; commands fail, answers get lost, executors die and are started again.
-/

namespace RagflowMineru.Redis

open RagflowMineru.Library

/-- `SVR_QUEUE_NAME`. -/
def svrQueueName : String := "rag_flow_svr_queue"

def getSvrQueueName (priority : ℕ) : String :=
  if priority = 0 then svrQueueName else svrQueueName ++ "_" ++ toString priority

def getSvrQueueNames : List String := [1, 0].map getSvrQueueName

theorem nodup_getSvrQueueNames : getSvrQueueNames.Nodup := by decide

variable {ι κ β : Type*} [LinearOrder κ] [OrderBot κ]

/-- The streams; `settled` are the messages whose task has come to an end, or turned out
to be unknown or cancelled. -/
structure Broker (ι κ β : Type*) [LinearOrder κ] [OrderBot κ] where
  streams : String → GroupLog ι κ β
  settled : List (String × κ)

/-- `UNACKED_ITERATOR`: the queues that it has not finished, the id behind which it goes
on in the first of them once it has looked at it, and whether the last answer to XINFO
has shown the group. -/
structure Unacked (κ : Type*) where
  queues : List String
  currentMin : Option κ
  groupInfo : Option Bool

/-- What `queue_consumer` is called for: the first queue of the iterator, or a new message
of one of the given queues. -/
inductive Purpose
  | unacked
  | fresh (queues : List String)
  deriving DecidableEq

/-- Where `collect` stands.  An attempt of `queue_consumer` looks for the group first. -/
inductive Collect (κ : Type*)
  | idle
  | next
  | consume (purpose : Purpose) (joined : Bool) (attempt : ℕ)
  | received (queue : String) (msgId : κ)
  deriving DecidableEq

/-- An executor and the messages that its `handle_task` is at work on.  `taken` are those
which it has received since it was started, `backlog` those which were pending with its
name then; `failed` tells whether a command has failed since. -/
structure Executor (κ : Type*) where
  iterator : Unacked κ
  collect : Collect κ
  handling : List (String × κ)
  taken : List (String × κ)
  backlog : List (String × κ)
  failed : Bool

/-- A command raises before it has done anything; or it is done, but its answer is lost
or cannot be read. -/
inductive Answer
  | refused
  | lost
  | answered

/-- What `collect` makes of a message: the task is handled; or it is unknown or cancelled;
or an exception leaves `collect`. -/
inductive Fate
  | run
  | drop (acked : Bool)
  | raise

inductive Event (κ β : Type*)
  | produce (queue : String) (payload : β)
  | collect
  | command (answer : Answer)
  | load (fate : Fate)
  | finish (queue : String) (msgId : κ) (acked : Bool)
  /-- `handle_task` is left without the acknowledgement. -/
  | abandon (queue : String) (msgId : κ)
  | restart

namespace Broker

def update (b : Broker ι κ β) (queue : String) (s : GroupLog ι κ β) : Broker ι κ β :=
  { b with streams := Function.update b.streams queue s }

def xadd (source : IdSource κ) (b : Broker ι κ β) (queue : String) (payload : β) :
    Broker ι κ β :=
  b.update queue ((b.streams queue).add (source.next (b.streams queue).lastId) payload
    (source.lt_next _))

/-- XINFO and, where the group is missing, XGROUP CREATE; the group may have come into
being in between. -/
def join (b : Broker ι κ β) (queue : String) : Broker ι κ β :=
  b.update queue (b.streams queue).join

/-- The end of a message. -/
def ack (b : Broker ι κ β) (queue : String) (msgId : κ) (acked : Bool) : Broker ι κ β :=
  let b := if acked then b.update queue ((b.streams queue).acknowledge msgId) else b
  { b with settled := (queue, msgId) :: b.settled }

/-- The messages of a queue that are pending with `i` behind `m`. -/
def pendingIn (b : Broker ι κ β) (i : ι) (m : κ) (queue : String) : List (String × κ) :=
  ((b.streams queue).backlog i m).map (queue, ·)

/-- All that are pending with `i`, as its iterator will come to them. -/
def backlog (b : Broker ι κ β) (i : ι) : List (String × κ) :=
  getSvrQueueNames.flatMap (b.pendingIn i ⊥)

end Broker

namespace Executor

def start (backlog : List (String × κ)) : Executor κ where
  iterator := ⟨getSvrQueueNames, none, none⟩
  collect := .idle
  handling := []
  taken := []
  backlog := backlog
  failed := false

/-- `queue_consumer` has returned None. -/
def noMessage (e : Executor κ) : Purpose → Executor κ
  | .unacked =>
      { e with
        iterator := { e.iterator with queues := e.iterator.queues.tail, currentMin := none }
        collect := .next }
  | .fresh queues =>
      match queues.tail with
      | [] => { e with collect := .idle }
      | queue :: rest => { e with collect := .consume (.fresh (queue :: rest)) false 0 }

/-- The end of an attempt that has raised. -/
def attemptFailed (e : Executor κ) (purpose : Purpose) (attempt : ℕ) : Executor κ :=
  let e := { e with failed := true }
  if attempt + 1 < 3 then { e with collect := .consume purpose false (attempt + 1) }
  else e.noMessage purpose

def receive (e : Executor κ) (purpose : Purpose) (queue : String) (msgId : κ) : Executor κ :=
  { e with
    iterator :=
      match purpose with
      | .unacked => { e.iterator with currentMin := some msgId }
      | .fresh _ => e.iterator
    collect := .received queue msgId
    taken := e.taken ++ [(queue, msgId)] }

/-- The iterator leaves a queue whose stream or group does not exist. -/
def skip (e : Executor κ) (groupInfo : Option Bool) : Executor κ :=
  { e with
    iterator := ⟨e.iterator.queues.tail, none, groupInfo⟩
    collect := .next }

/-- It starts to read the queue. -/
def enter (e : Executor κ) (groupInfo : Option Bool) : Executor κ :=
  { e with
    iterator := ⟨e.iterator.queues, some ⊥, groupInfo⟩
    collect := .consume .unacked false 0 }

/-- `next(UNACKED_ITERATOR)`, up to the next command. -/
def next (b : Broker ι κ β) (e : Executor κ) (answer : Answer) : Executor κ :=
  match e.iterator.queues, e.iterator.currentMin with
  | [], _ => { e with collect := .consume (.fresh getSvrQueueNames) false 0 }
  | _ :: _, some _ => { e with collect := .consume .unacked false 0 }
  | queue :: _, none =>
      match answer with
      | .answered =>
          let stream := b.streams queue
          if stream.lastDelivered.isSome then e.enter (some true)
          else if stream.entries.isEmpty then e.skip e.iterator.groupInfo
          else e.skip (some false)
      | _ =>
          -- any error but "no such key": what the last queue has shown is used again
          let e := { e with failed := true }
          match e.iterator.groupInfo with
          | some true => e.enter (some true)
          | some false => e.skip (some false)
          | none => { e with iterator := ⟨[], none, none⟩, collect := .next }

/-- The queue that `queue_consumer` is called with. -/
def queue (e : Executor κ) : Purpose → Option String
  | .unacked => e.iterator.queues.head?
  | .fresh queues => queues.head?

end Executor

/-! ## One command -/

/-- The look for the group. -/
def joinGroup (b : Broker ι κ β) (e : Executor κ) (purpose : Purpose) (attempt : ℕ)
    (queue : String) : Answer → Broker ι κ β × Executor κ
  | .refused => (b, e.attemptFailed purpose attempt)
  | .lost => (b.join queue, e.attemptFailed purpose attempt)
  | .answered => (b.join queue, { e with collect := .consume purpose true attempt })

/-- XREADGROUP with ">". -/
def readNew [DecidableEq ι] (i : ι) (b : Broker ι κ β) (e : Executor κ) (queues : List String) (attempt : ℕ)
    (queue : String) (answer : Answer) : Broker ι κ β × Executor κ :=
  match answer with
  | .refused => (b, e.attemptFailed (.fresh queues) attempt)
  | .lost =>
      match h : (b.streams queue).fresh with
      | none => (b, e.attemptFailed (.fresh queues) attempt)
      | some msgId =>
          (b.update queue ((b.streams queue).deliver i msgId h),
            e.attemptFailed (.fresh queues) attempt)
  | .answered =>
      match h : (b.streams queue).fresh with
      | none => (b, e.noMessage (.fresh queues))
      | some msgId =>
          (b.update queue ((b.streams queue).deliver i msgId h),
            e.receive (.fresh queues) queue msgId)

/-- XREADGROUP with an id. -/
def readAgain (i : ι) (b : Broker ι κ β) (e : Executor κ) (attempt : ℕ) (queue : String) :
    Answer → Executor κ
  | .answered =>
      match (b.streams queue).unacknowledged i (e.iterator.currentMin.getD ⊥) with
      | none => e.noMessage .unacked
      | some msgId => e.receive .unacked queue msgId
  | _ => e.attemptFailed .unacked attempt

def readGroup [DecidableEq ι] (i : ι) (b : Broker ι κ β) (e : Executor κ) (purpose : Purpose) (attempt : ℕ)
    (queue : String) (answer : Answer) : Broker ι κ β × Executor κ :=
  match purpose with
  | .unacked => (b, readAgain i b e attempt queue answer)
  | .fresh queues => readNew i b e queues attempt queue answer

/-- The next command of `collect`. -/
def command [DecidableEq ι] (i : ι) (b : Broker ι κ β) (e : Executor κ) (answer : Answer) :
    Option (Broker ι κ β × Executor κ) :=
  match e.collect with
  | .idle | .received _ _ => none
  | .next => some (b, e.next b answer)
  | .consume purpose joined attempt =>
      (e.queue purpose).map fun queue =>
        if joined then readGroup i b e purpose attempt queue answer
        else joinGroup b e purpose attempt queue answer

/-- `collect` has looked the task up. -/
def load (b : Broker ι κ β) (e : Executor κ) (queue : String) (msgId : κ) :
    Fate → Broker ι κ β × Executor κ
  | .run => (b, { e with collect := .idle, handling := (queue, msgId) :: e.handling })
  | .drop acked => (b.ack queue msgId acked, { e with collect := .idle })
  | .raise => (b, { e with collect := .idle })

def Executor.leave (e : Executor κ) (queue : String) (msgId : κ) : Executor κ :=
  { e with handling := e.handling.erase (queue, msgId) }

/-- What the executor `i` does. -/
def act [DecidableEq ι] (source : IdSource κ) (i : ι) (b : Broker ι κ β) (e : Executor κ) :
    Event κ β → Option (Broker ι κ β × Executor κ)
  | .produce queue payload => some (b.xadd source queue payload, e)
  | .collect =>
      match e.collect with
      | .idle => some (b, { e with collect := .next })
      | _ => none
  | .command answer => command i b e answer
  | .load fate =>
      match e.collect with
      | .received queue msgId => some (load b e queue msgId fate)
      | _ => none
  | .finish queue msgId acked =>
      if (queue, msgId) ∈ e.handling then
        some (b.ack queue msgId acked, e.leave queue msgId)
      else none
  | .abandon queue msgId =>
      if (queue, msgId) ∈ e.handling then some (b, e.leave queue msgId) else none
  | .restart => some (b, .start (b.backlog i))

/-! ## What a command leaves alone -/

/-- Nothing has changed for `i`. -/
structure Frame (i : ι) (b b' : Broker ι κ β) : Prop where
  pending : ∀ queue, (b'.streams queue).pending i = (b.streams queue).pending i
  backlog : ∀ queue m, (b'.streams queue).backlog i m = (b.streams queue).backlog i m
  delivered : ∀ queue k, (b.streams queue).Delivered k → (b'.streams queue).Delivered k

/-- Every message that has been delivered is pending, or has come to its end. -/
def Broker.Accounted (b : Broker ι κ β) : Prop :=
  ∀ queue, (b.streams queue).Accounted fun msgId => (queue, msgId) ∈ b.settled

section

variable {source : IdSource κ} {i j : ι} {b b' : Broker ι κ β} {e e' : Executor κ}
  {queue : String} {msgId : κ}

theorem Frame.refl (i : ι) (b : Broker ι κ β) : Frame i b b :=
  ⟨fun _ => rfl, fun _ _ => rfl, fun _ _ h => h⟩

/-- It is enough to look at the queue that has changed. -/
theorem Frame.of_update {s : GroupLog ι κ β}
    (hpending : s.pending i = (b.streams queue).pending i)
    (hbacklog : ∀ m, s.backlog i m = (b.streams queue).backlog i m)
    (hdelivered : ∀ k, (b.streams queue).Delivered k → s.Delivered k) :
    Frame i b (b.update queue s) := by
  have hstreams : ∀ q, (b.update queue s).streams q = if q = queue then s else b.streams q :=
    fun q => Function.update_apply b.streams queue s q
  refine ⟨fun q => ?_, fun q m => ?_, fun q k hk => ?_⟩ <;> rw [hstreams]
  · split
    · rename_i h
      rw [h, hpending]
    · rfl
  · split
    · rename_i h
      rw [h, hbacklog]
    · rfl
  · split
    · rename_i h
      exact hdelivered k (h ▸ hk)
    · exact hk

theorem frame_xadd (i : ι) (payload : β) : Frame i b (b.xadd source queue payload) :=
  .of_update rfl (fun _ => GroupLog.backlog_add _ i _ _) fun _ h => h

theorem frame_join (i : ι) : Frame i b (b.join queue) := by
  refine .of_update rfl (fun _ => rfl) fun k hk => ?_
  obtain ⟨last, hlast, hle⟩ := hk
  rw [Option.mem_def] at hlast
  exact ⟨last, by simp [GroupLog.join, hlast], hle⟩

theorem frame_deliver [DecidableEq ι] (hij : i ≠ j) (h : (b.streams queue).fresh = some msgId) :
    Frame i b (b.update queue ((b.streams queue).deliver j msgId h)) :=
  .of_update (Function.update_of_ne hij _ _) (GroupLog.backlog_deliver_of_ne h hij)
    fun _ hk => ⟨msgId, rfl, (GroupLog.Delivered.le_fresh hk h).le⟩

theorem frame_ack (hnot : msgId ∉ (b.streams queue).pending i) (acked : Bool) :
    Frame i b (b.ack queue msgId acked) := by
  cases acked with
  | false => exact ⟨fun _ => rfl, fun _ _ => rfl, fun _ _ h => h⟩
  | true =>
      have h : Frame i b (b.update queue ((b.streams queue).acknowledge msgId)) :=
        .of_update (Finset.erase_eq_of_notMem hnot)
          (fun _ => GroupLog.backlog_acknowledge fun h => absurd h hnot) fun _ h => h
      exact ⟨h.pending, h.backlog, h.delivered⟩

/-! ## No message gets lost -/

theorem Broker.Accounted.update (hb : b.Accounted) {s : GroupLog ι κ β}
    (hs : s.Accounted fun k => (queue, k) ∈ b.settled) : (b.update queue s).Accounted := by
  intro q
  change (Function.update b.streams queue s q).Accounted _
  rw [Function.update_apply]
  split
  · rename_i h
    exact h ▸ hs
  · exact hb q

theorem Broker.Accounted.ack (hb : b.Accounted) (queue : String) (msgId : κ) (acked : Bool) :
    (b.ack queue msgId acked).Accounted := by
  have hmore : ({ b with settled := (queue, msgId) :: b.settled } : Broker ι κ β).Accounted :=
    fun q => (hb q).mono fun _ hk => .tail _ hk
  cases acked with
  | false => exact hmore
  | true => exact hmore.update ((hmore queue).acknowledge (.head _))

theorem accounted_readNew [DecidableEq ι] (hb : b.Accounted) (i : ι) (e : Executor κ) (queues : List String)
    (attempt : ℕ) (queue : String) (answer : Answer) :
    (readNew i b e queues attempt queue answer).1.Accounted := by
  cases answer with
  | refused => exact hb
  | lost =>
      rw [readNew]
      split
      · exact hb
      · rename_i msgId h
        exact hb.update ((hb queue).deliver h)
  | answered =>
      rw [readNew]
      split
      · exact hb
      · rename_i msgId h
        exact hb.update ((hb queue).deliver h)

theorem accounted_command [DecidableEq ι] (hb : b.Accounted) {answer : Answer}
    (hstep : command i b e answer = some (b', e')) : b'.Accounted := by
  rw [command] at hstep
  split at hstep
  · cases hstep
  · cases hstep
  · cases hstep
    exact hb
  · rename_i purpose joined attempt _
    obtain ⟨queue, -, heq⟩ := Option.map_eq_some_iff.mp hstep
    cases joined with
    | true =>
        rw [if_pos rfl] at heq
        cases purpose with
        | unacked =>
            cases heq
            exact hb
        | fresh queues =>
            have := accounted_readNew hb i e queues attempt queue answer
            rw [readGroup] at heq
            rwa [heq] at this
    | false =>
        rw [if_neg Bool.false_ne_true] at heq
        cases answer with
        | refused =>
            cases heq
            exact hb
        | lost =>
            cases heq
            exact hb.update (hb queue).join
        | answered =>
            cases heq
            exact hb.update (hb queue).join

theorem accounted_act [DecidableEq ι] (hb : b.Accounted) {event : Event κ β}
    (hstep : act source i b e event = some (b', e')) : b'.Accounted := by
  cases event with
  | produce queue payload =>
      cases hstep
      exact hb.update ((hb queue).add _)
  | collect =>
      rw [act] at hstep
      split at hstep <;> cases hstep
      exact hb
  | command answer => exact accounted_command hb hstep
  | load fate =>
      rw [act] at hstep
      split at hstep
      · rename_i queue msgId _
        cases fate with
        | run =>
            cases hstep
            exact hb
        | drop acked =>
            cases hstep
            exact hb.ack queue msgId acked
        | raise =>
            cases hstep
            exact hb
      · cases hstep
  | finish queue msgId acked =>
      rw [act] at hstep
      split at hstep <;> cases hstep
      exact hb.ack queue msgId acked
  | abandon queue msgId =>
      rw [act] at hstep
      split at hstep <;> cases hstep
      exact hb
  | restart =>
      cases hstep
      exact hb

end

end RagflowMineru.Redis
