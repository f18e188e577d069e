import Mathlib.Data.Finset.Basic

/-!
# Requeuing a pending message

A message that its consumer did not acknowledge is put at the end of the stream
again.  Both servers try three times; the Go server stops when an attempt has come
through.
-/

namespace RagflowMineru.Redis

variable {κ β : Type*} [LinearOrder κ]

/-- How Redis chooses the id of a new entry. -/
structure IdSource (κ : Type*) [LinearOrder κ] where
  next : κ → κ
  lt_next : ∀ last, last < next last

/-- A stream, and the pending entries of every consumer group. -/
structure MessageStream (κ β : Type*) [LinearOrder κ] where
  entries : List (κ × β)
  lastId : κ
  pending : String → Finset κ
  le_lastId : ∀ e ∈ entries, e.1 ≤ lastId

namespace MessageStream

def xrange (s : MessageStream κ β) (msgId : κ) : List (κ × β) :=
  s.entries.filter fun e => e.1 = msgId

def xadd (source : IdSource κ) (s : MessageStream κ β) (payload : β) : MessageStream κ β where
  entries := s.entries ++ [(source.next s.lastId, payload)]
  lastId := source.next s.lastId
  pending := s.pending
  le_lastId e he := by
    obtain he | he := List.mem_append.mp he
    · exact (s.le_lastId e he).trans (source.lt_next _).le
    · rw [List.mem_singleton.mp he]

def xack (s : MessageStream κ β) (group : String) (msgId : κ) : MessageStream κ β :=
  { s with pending := Function.update s.pending group ((s.pending group).erase msgId) }

variable {s : MessageStream κ β} {msgId : κ}

@[simp] theorem entries_xack (s : MessageStream κ β) (group : String) (msgId : κ) :
    (s.xack group msgId).entries = s.entries := rfl

/-- A new entry has an id of its own. -/
theorem xrange_xadd {m : κ × β} {rest : List (κ × β)} (h : s.xrange msgId = m :: rest)
    (source : IdSource κ) (payload : β) : (s.xadd source payload).xrange msgId = m :: rest := by
  have hm : m ∈ s.xrange msgId := by
    rw [h]
    exact .head _
  obtain ⟨hmem, hid⟩ := List.mem_filter.mp hm
  have hle : msgId ≤ s.lastId := by
    rw [← of_decide_eq_true hid]
    exact s.le_lastId m hmem
  have hne : source.next s.lastId ≠ msgId := (hle.trans_lt (source.lt_next _)).ne'
  rw [xrange, xadd, List.filter_append, List.filter_cons_of_neg (by simpa using hne),
    List.filter_nil, List.append_nil]
  exact h

end MessageStream

open MessageStream

/-- Which commands of an attempt come through. -/
structure Commands where
  xrange : Bool
  xadd : Bool
  xack : Bool

/-- No Redis command fails. -/
def noFailure (_ : ℕ) : Commands := ⟨true, true, true⟩

/-- The message that an attempt read, added to the stream and acknowledged; a
command that fails raises. -/
def addAndAcknowledge (source : IdSource κ) (group : String) (msgId : κ) (c : Commands)
    (s : MessageStream κ β) (message : κ × β) : MessageStream κ β :=
  if c.xadd then
    let added := s.xadd source message.2
    if c.xack then added.xack group msgId else added
  else s

/-- The body of the loop of `requeue_msg`. -/
def requeueAttempt (source : IdSource κ) (group : String) (msgId : κ) (c : Commands)
    (s : MessageStream κ β) : MessageStream κ β :=
  if c.xrange then
    match s.xrange msgId with
    | [] => s
    | message :: _ => addAndAcknowledge source group msgId c s message
  else s

def requeueMsg (source : IdSource κ) (group : String) (msgId : κ) (c : ℕ → Commands)
    (s : MessageStream κ β) : MessageStream κ β :=
  (List.range 3).foldl (fun s n => requeueAttempt source group msgId (c n) s) s

namespace Go

/-- The rest of the loop of `RequeueMsg`.  The errors of XADD and XACK are not
looked at. -/
def requeueAttempts (source : IdSource κ) (group : String) (msgId : κ) (c : ℕ → Commands) :
    List ℕ → MessageStream κ β → MessageStream κ β
  | [], s => s
  | n :: attempts, s =>
      if (c n).xrange then
        match s.xrange msgId with
        | [] => s
        | message :: _ =>
            let added := if (c n).xadd then s.xadd source message.2 else s
            if (c n).xack then added.xack group msgId else added
      else requeueAttempts source group msgId c attempts s

def requeueMsg (source : IdSource κ) (group : String) (msgId : κ) (c : ℕ → Commands)
    (s : MessageStream κ β) : MessageStream κ β :=
  requeueAttempts source group msgId c (List.range 3) s

end Go

/-! ## What is claimed -/

/-- One new copy of the payload, the old entry acknowledged, and the same from both
servers. -/
structure RequeuesOnce (source : IdSource κ) (group : String) (msgId : κ)
    (s : MessageStream κ β) : Prop where
  copied : ∃ payload, (msgId, payload) ∈ s.entries ∧
    (requeueMsg source group msgId noFailure s).entries =
      s.entries ++ [(source.next s.lastId, payload)]
  acknowledged : msgId ∉ (requeueMsg source group msgId noFailure s).pending group
  same : requeueMsg source group msgId noFailure s = Go.requeueMsg source group msgId noFailure s

/-! ## How many copies -/

section

variable {msgId : κ} {s : MessageStream κ β} {m : κ × β} {rest : List (κ × β)}

/-- An attempt that can read the message and add it makes a copy, and the next
attempt finds the message again. -/
theorem requeueAttempt_spec (source : IdSource κ) (group : String)
    (h : s.xrange msgId = m :: rest) (c : Commands) :
    (requeueAttempt source group msgId c s).xrange msgId = m :: rest ∧
      (requeueAttempt source group msgId c s).entries.length =
        s.entries.length + if c.xrange ∧ c.xadd then 1 else 0 := by
  obtain ⟨xrange, xadd, xack⟩ := c
  cases xrange with
  | false => exact ⟨h, rfl⟩
  | true =>
      cases xadd with
      | false => simp [requeueAttempt, h, addAndAcknowledge]
      | true =>
          have hnext := xrange_xadd h source m.2
          cases xack with
          | false =>
              simp only [requeueAttempt, h, addAndAcknowledge, if_true]
              exact ⟨hnext, by simp [MessageStream.xadd]⟩
          | true =>
              simp only [requeueAttempt, h, addAndAcknowledge, if_true]
              exact ⟨hnext, by simp [MessageStream.xadd]⟩

theorem length_foldl_requeueAttempt (source : IdSource κ) (group : String)
    (h : s.xrange msgId = m :: rest) (c : ℕ → Commands) (attempts : List ℕ) :
    (attempts.foldl (fun s n => requeueAttempt source group msgId (c n) s) s).entries.length =
      s.entries.length + attempts.countP fun n => (c n).xrange ∧ (c n).xadd := by
  induction attempts generalizing s with
  | nil => rfl
  | cons n attempts ih =>
      obtain ⟨hnext, hlength⟩ := requeueAttempt_spec source group h (c n)
      rw [List.foldl_cons, ih hnext, hlength, List.countP_cons]
      simp only [decide_eq_true_eq]
      omega

/-- The Python server leaves a copy for every attempt that comes as far as XADD. -/
theorem length_requeueMsg (source : IdSource κ) (group : String)
    (h : s.xrange msgId = m :: rest) (c : ℕ → Commands) :
    (requeueMsg source group msgId c s).entries.length =
      s.entries.length + (List.range 3).countP fun n => (c n).xrange ∧ (c n).xadd :=
  length_foldl_requeueAttempt source group h c _

/-- The Go server leaves one at most. -/
theorem Go.length_requeueMsg_le (source : IdSource κ) (group : String) (msgId : κ)
    (c : ℕ → Commands) (s : MessageStream κ β) :
    (Go.requeueMsg source group msgId c s).entries.length ≤ s.entries.length + 1 := by
  rw [Go.requeueMsg]
  induction List.range 3 generalizing s with
  | nil => exact Nat.le_succ _
  | cons n attempts ih =>
      rw [Go.requeueAttempts]
      by_cases hread : (c n).xrange = true
      · rw [if_pos hread]
        cases s.xrange msgId with
        | nil => exact Nat.le_succ _
        | cons message rest =>
            by_cases hadd : (c n).xadd = true <;> by_cases hack : (c n).xack = true <;>
              simp [hadd, hack, MessageStream.xadd]
      · rw [if_neg hread]
        exact ih s

end

/-- A message that is there is copied three times, and one that is gone is neither
copied nor acknowledged. -/
theorem not_requeuesOnce (source : IdSource κ) (group : String) (msgId : κ)
    (s : MessageStream κ β) : ¬ RequeuesOnce source group msgId s := by
  intro honce
  obtain ⟨payload, hmem, hentries⟩ := honce.copied
  have hfound : (msgId, payload) ∈ s.xrange msgId := List.mem_filter.mpr ⟨hmem, by simp⟩
  obtain ⟨m, rest, h⟩ := List.exists_cons_of_ne_nil (List.ne_nil_of_mem hfound)
  have hlength := length_requeueMsg source group h noFailure
  have hcount : (List.range 3).countP (fun n => (noFailure n).xrange ∧ (noFailure n).xadd) = 3 := by
    decide
  rw [hentries, hcount, List.length_append, List.length_singleton] at hlength
  omega

/-! ## A task in the queue -/

def succSource : IdSource ℕ := ⟨Nat.succ, Nat.lt_succ_self⟩

/-- One task, delivered and not acknowledged. -/
def oneTask : MessageStream ℕ String where
  entries := [(1, "task")]
  lastId := 1
  pending := fun _ => {1}
  le_lastId := by decide

theorem oneTask_three_copies :
    ¬ ∀ (s : MessageStream ℕ String) (group : String) (msgId : ℕ), msgId ∈ s.pending group →
      RequeuesOnce succSource group msgId s := by
  intro hlaw
  obtain ⟨payload, -, hentries⟩ := (hlaw oneTask "group" 1 (by decide)).copied
  have hthree : (requeueMsg succSource "group" 1 noFailure oneTask).entries =
      [(1, "task"), (2, "task"), (3, "task"), (4, "task")] := by
    decide
  rw [hthree] at hentries
  simp [oneTask] at hentries

end RagflowMineru.Redis
