import RagflowMineru.Connector.SyncLogs
import RagflowMineru.Library.Driven
import Mathlib.Data.List.Sort

/-!
# Nothing of a source is lost

After any run of the events below, every version that the source has was received, or was in a
batch that raised, or comes when the source is read again from where the latest log stands.  The
log of a run that reads is raised batch by batch, so this holds in the middle of a run only
where the batches are in the order of their times.
-/

namespace RagflowMineru.Connector

open Library

variable {ι : Type*}

/-- From where the source is read again: a log that is done is followed by one that starts at its
end. -/
def SyncLog.nextStart (log : SyncLog) : Option ℕ :=
  if log.status = .done then log.pollRangeEnd
  else if log.fromBeginning then none else log.pollRangeStart

/-- The version comes when the log is taken up, as it is or through the log that follows it. -/
structure SyncLog.Covers (log : SyncLog) (v : Version ι) : Prop where
  ends : log.status = .done → Above log.pollRangeEnd v.updatedAt
  start : log.fromBeginning = true ∨ Above log.pollRangeStart v.updatedAt

structure SyncLog.Within (log : SyncLog) (t : ℕ) : Prop where
  start : Library.Within log.pollRangeStart t
  ends : Library.Within log.pollRangeEnd t

namespace SyncLog

variable {log : SyncLog} {v : Version ι} {t u : ℕ}

theorem Covers.above_nextStart (h : log.Covers v) : Above log.nextStart v.updatedAt := by
  unfold nextStart
  split
  next hdone => exact h.ends hdone
  next =>
    split
    next => exact above_none _
    next hb => exact h.start.resolve_left hb

theorem Covers.setStatus (h : log.Covers v) {status : Document.TaskStatus}
    (hs : status ≠ .done) : (Connector.setStatus status log).Covers v :=
  ⟨fun hd => absurd hd hs, h.start⟩

theorem Within.mono (h : log.Within t) (htu : t ≤ u) : log.Within u :=
  ⟨h.start.mono htu, h.ends.mono htu⟩

theorem Within.setStatus (h : log.Within t) (status : Document.TaskStatus) :
    (Connector.setStatus status log).Within t :=
  ⟨h.start, h.ends⟩

theorem Within.covers (h : log.Within t) (hv : t < v.updatedAt) : log.Covers v :=
  ⟨fun _ => h.ends.above hv, .inr (h.start.above hv)⟩

theorem Within.increaseDocs (h : log.Within t) {x n e : ℕ} (hx : x ≤ t) :
    (Connector.increaseDocs x n e log).Within t :=
  ⟨within_raiseMark.mpr ⟨h.start, hx⟩, within_raiseMark.mpr ⟨h.ends, hx⟩⟩

end SyncLog

theorem updateById_head (f : SyncLog → SyncLog) (log : SyncLog) (older : List SyncLog) :
    updateById log.id f (log :: older) = f log :: older.filter (·.id ≠ log.id) := by
  simp [updateById]

namespace State

/-- The run is at its batches. -/
def Reading (s : State ι) : Prop :=
  ∃ r, s.run = some r ∧ ∀ next, r.work ≠ .finished next

/-- The version was received, or was in a batch that raised. -/
def Settled (s : State ι) (v : Version ι) : Prop := v ∈ s.received ∨ v ∈ s.skipped

theorem not_reading_of_none {s : State ι} (h : s.run = none) : ¬ s.Reading := by
  rintro ⟨r, hr, -⟩
  exact Option.some_ne_none r (hr.symm.trans h)

theorem not_reading_of_finished {s : State ι} {id next : ℕ}
    (h : s.run = some ⟨id, .finished next⟩) : ¬ s.Reading := by
  rintro ⟨r, hr, hwork⟩
  obtain rfl := Option.some.inj (h.symm.trans hr)
  exact hwork next rfl

/-- A change of the source has a time of its own, a rebuild finds no run at work, and only a
connector that gives its documents in order stops between its batches. -/
def Allowed (C : Poller ι) (s : State ι) : Event ι → Prop
  | .change _ time => s.clock < time
  | .rebuild => s.run = none
  | .raise => C.ByTime
  | .die => C.ByTime ∨ ¬ s.Reading
  | _ => True

/-- What a run that reads has before it.  The horizon is the time at which the source was
asked. -/
structure Pending (C : Poller ι) (s : State ι) (log : SyncLog)
    (rest : List (List (Version ι))) (next horizon : ℕ) : Prop where
  horizon_le : horizon ≤ s.clock
  unfinished : log.status ≠ .done
  within : log.Within horizon
  next_le : next ≤ horizon
  rest_le : ∀ v ∈ rest.flatten, v.updatedAt ≤ horizon
  rest_eq : ∀ v ∈ rest.flatten, ∀ w ∈ rest.flatten, v.updatedAt = w.updatedAt → v = w
  in_order : C.ByTime → InOrder Version.updatedAt rest
  complete : ∀ v ∈ s.source, s.Settled v ∨ v ∈ rest.flatten ∨ horizon < v.updatedAt

/-- What a run that is done has read. -/
def Finished (s : State ι) (next : ℕ) : Prop :=
  next ≤ s.clock ∧ ∀ v ∈ s.source, s.Settled v ∨ next < v.updatedAt

def Working (C : Poller ι) (s : State ι) (log : SyncLog) : Run ι → Prop
  | ⟨id, .drawing rest next⟩ => log.id = id ∧ ∃ horizon, Pending C s log rest next horizon
  | ⟨id, .stored docs _ rest next⟩ =>
      log.id = id ∧ docs ≠ [] ∧ docs ⊆ s.received ∧
        ∃ horizon, Pending C s log (docs :: rest) next horizon
  | ⟨_, .finished next⟩ => s.Finished next

/-- The invariant, for the log that was written last and those before it. -/
structure Kept (C : Poller ι) (s : State ι) (log : SyncLog) (older : List SyncLog) : Prop where
  logs : s.logs = log :: older
  older_ne : ∀ l ∈ older, l.status ≠ .schedule
  within : log.Within s.clock
  source_le : ∀ v ∈ s.source, v.updatedAt ≤ s.clock
  source_eq : ∀ v ∈ s.source, ∀ w ∈ s.source, v.updatedAt = w.updatedAt → v = w
  covered : C.ByTime ∨ ¬ s.Reading → ∀ v ∈ s.source, s.Settled v ∨ log.Covers v
  working : ∀ r, s.run = some r → Working C s log r

variable {C : Poller ι} {s : State ι} {log : SyncLog} {older : List SyncLog}

section Pending

variable {b : List (Version ι)} {rest : List (List (Version ι))} {next horizon : ℕ}

/-- A batch leaves what is pending once everything in it is settled. -/
theorem Pending.tail (h : Pending C s log (b :: rest) next horizon)
    (hb : ∀ v ∈ b, s.Settled v) : Pending C s log rest next horizon := by
  have hmem : ∀ v ∈ rest.flatten, v ∈ (b :: rest).flatten := fun v hv =>
    List.mem_append_right b hv
  refine ⟨h.horizon_le, h.unfinished, h.within, h.next_le, fun v hv => h.rest_le v (hmem v hv),
    fun v hv w hw => h.rest_eq v (hmem v hv) w (hmem w hw), fun hC => (h.in_order hC).tail,
    ?_⟩
  intro v hv
  rcases h.complete v hv with hs | hr | ht
  · exact .inl hs
  · rcases List.mem_append.mp hr with hvb | hvr
    · exact .inl (hb v hvb)
    · exact .inr (.inl hvr)
  · exact .inr (.inr ht)

theorem Pending.latest_le (h : Pending C s log (b :: rest) next horizon) :
    latest Version.updatedAt b ≤ horizon :=
  (latest_le_iff _).mpr fun v hv => h.rest_le v (List.mem_append_left _ hv)

/-- The log is raised by a batch that was received: in order, what is not settled stays above
it. -/
theorem Pending.covers_increaseDocs (h : Pending C s log (b :: rest) next horizon)
    (hC : C.ByTime) (hb : b ≠ []) (hbs : ∀ v ∈ b, s.Settled v) (n e : ℕ) {v : Version ι}
    (hv : v ∈ s.source) (hcov : log.Covers v) (hns : ¬ s.Settled v) :
    (increaseDocs (latest Version.updatedAt b) n e log).Covers v := by
  have hlt : latest Version.updatedAt b < v.updatedAt := by
    rcases h.complete v hv with hs | hr | ht
    · exact absurd hs hns
    · rcases List.mem_append.mp hr with hvb | hvr
      · exact absurd (hbs v hvb) hns
      · refine lt_of_le_of_ne ((h.in_order hC).latest_le hvr) ?_
        intro heq
        obtain ⟨x, hx, hxt⟩ := exists_latest Version.updatedAt hb
        have hxv : x = v :=
          h.rest_eq x (List.mem_append_left _ hx) v hr (hxt.trans heq)
        exact hns (hxv ▸ hbs x hx)
    · exact h.latest_le.trans_lt ht
  refine ⟨fun hd => absurd hd h.unfinished, ?_⟩
  rcases hcov.start with hbeg | habove
  · exact .inl hbeg
  · exact .inr (above_raiseMark.mpr ⟨habove, hlt⟩)

end Pending

section Schedule

variable {start : Option ℕ} {fromBeginning : Bool} {total : ℕ}

/-- `schedule` deletes old logs, and writes a log where none is scheduled. -/
theorem schedule_cases (s : State ι) (start : Option ℕ) (fromBeginning : Bool) (total : ℕ) :
    ∃ kept, kept <+: s.logs ∧
      ((∃ l ∈ kept, l.status = .schedule) ∧
          s.schedule start fromBeginning total = { s with logs := kept } ∨
        (∀ l ∈ kept, l.status ≠ .schedule) ∧
          s.schedule start fromBeginning total =
            { s with
              logs := ⟨s.nextId, .schedule, fromBeginning, start, none, 0, total, 0⟩ :: kept
              connectorStatus := .schedule
              nextId := s.nextId + 1 }) := by
  obtain ⟨kept, hkept⟩ : ∃ kept, kept =
      if 100 < s.logs.length then s.logs.take (s.logs.length - 70) else s.logs := ⟨_, rfl⟩
  refine ⟨kept, ?_, ?_⟩
  · rw [hkept]
    split
    · exact List.take_prefix _ _
    · exact List.prefix_rfl
  · unfold schedule
    rw [← hkept]
    dsimp only
    split
    next hany =>
      obtain ⟨l, hl, hstatus⟩ := List.any_eq_true.mp hany
      exact .inl ⟨⟨l, hl, of_decide_eq_true hstatus⟩, rfl⟩
    next hany =>
      refine .inr ⟨?_, rfl⟩
      intro l hl hstatus
      exact hany (List.any_eq_true.mpr ⟨l, hl, decide_eq_true hstatus⟩)

theorem schedule_run (s : State ι) (start : Option ℕ) (fromBeginning : Bool) (total : ℕ)
    (run : Option (Run ι)) :
    { s with run }.schedule start fromBeginning total =
      { s.schedule start fromBeginning total with run } := by
  unfold schedule
  dsimp only
  split <;> split <;> rfl

theorem schedule_connectorStatus (s : State ι) (start : Option ℕ) (fromBeginning : Bool)
    (total : ℕ) :
    { s with connectorStatus := .schedule }.schedule start fromBeginning total =
      { s.schedule start fromBeginning total with connectorStatus := .schedule } := by
  unfold schedule
  dsimp only
  split <;> split <;> rfl

/-- What `schedule` keeps or writes covers what is not settled. -/
theorem exists_kept_schedule
    (hlogs : ∀ log older, s.logs = log :: older → (∀ l ∈ older, l.status ≠ .schedule) ∧
      log.Within s.clock ∧ ∀ v ∈ s.source, s.Settled v ∨ log.Covers v)
    (hle : ∀ v ∈ s.source, v.updatedAt ≤ s.clock)
    (heq : ∀ v ∈ s.source, ∀ w ∈ s.source, v.updatedAt = w.updatedAt → v = w)
    (hrun : ∀ r, s.run = some r → ∃ id next, r = ⟨id, .finished next⟩ ∧ s.Finished next)
    (hstart : Library.Within start s.clock)
    (hcov : ∀ v ∈ s.source,
      s.Settled v ∨ fromBeginning = true ∨ Above start v.updatedAt) :
    ∃ log older, Kept C (s.schedule start fromBeginning total) log older := by
  have hworking : ∀ logs connectorStatus nextId log r, s.run = some r →
      Working C { s with logs, connectorStatus, nextId } log r := by
    intro logs connectorStatus nextId log r hr
    obtain ⟨id, next, rfl, hfinished⟩ := hrun r hr
    exact hfinished
  obtain ⟨kept, hbegins, ⟨⟨l, hl, -⟩, hs⟩ | ⟨hkept, hs⟩⟩ :=
    schedule_cases s start fromBeginning total
  · obtain ⟨log, older, rfl⟩ := List.exists_cons_of_ne_nil (List.ne_nil_of_mem hl)
    obtain ⟨behind, hbehind⟩ := hbegins
    obtain ⟨holder, hwithin, hcovers⟩ := hlogs log (older ++ behind) hbehind.symm
    rw [hs]
    exact ⟨log, older, rfl, fun l hl => holder l (List.mem_append_left _ hl), hwithin, hle, heq,
      fun _ => hcovers, hworking _ _ _ log⟩
  · rw [hs]
    refine ⟨_, kept, rfl, hkept, ⟨hstart, within_none _⟩, hle, heq, fun _ v hv => ?_,
      hworking _ _ _ _⟩
    refine (hcov v hv).imp_right fun hc => ⟨?_, hc⟩
    rintro ⟨⟩

end Schedule

section Steps

variable {t : State ι}

/-- The source changes: what is new is newer than anything before. -/
theorem Kept.of_source (h : Kept C s log older) {source : List (Version ι)} {clock : ℕ}
    (hclock : s.clock ≤ clock) (hsource : ∀ v ∈ source, v ∈ s.source ∨ s.clock < v.updatedAt)
    (hle : ∀ v ∈ source, v.updatedAt ≤ clock)
    (heq : ∀ v ∈ source, ∀ w ∈ source, v.updatedAt = w.updatedAt → v = w) :
    Kept C { s with source, clock } log older := by
  have hpending : ∀ rest next horizon, Pending C s log rest next horizon →
      Pending C { s with source, clock } log rest next horizon := by
    intro rest next horizon hp
    refine ⟨hp.horizon_le.trans hclock, hp.unfinished, hp.within, hp.next_le, hp.rest_le,
      hp.rest_eq, hp.in_order, ?_⟩
    intro v hv
    rcases hsource v hv with hold | hnew
    · exact hp.complete v hold
    · exact .inr (.inr (hp.horizon_le.trans_lt hnew))
  refine ⟨h.logs, h.older_ne, h.within.mono hclock, hle, heq, ?_, ?_⟩
  · intro hC v hv
    rcases hsource v hv with hold | hnew
    · exact h.covered hC v hold
    · exact .inr (h.within.covers hnew)
  · intro r hr
    have hworking := h.working r hr
    rcases r with ⟨id, ⟨rest, next⟩ | ⟨docs, errors, rest, next⟩ | next⟩
    · obtain ⟨hid, horizon, hp⟩ := hworking
      exact ⟨hid, horizon, hpending _ _ _ hp⟩
    · obtain ⟨hid, hne, hdocs, horizon, hp⟩ := hworking
      exact ⟨hid, hne, hdocs, horizon, hpending _ _ _ hp⟩
    · obtain ⟨hnext, hall⟩ := hworking
      refine ⟨hnext.trans hclock, ?_⟩
      intro v hv
      rcases hsource v hv with hold | hnew
      · exact hall v hold
      · exact .inr (hnext.trans_lt hnew)

theorem Kept.remove [DecidableEq ι] (h : Kept C s log older) (doc : ι) :
    Kept C { s with source := s.source.filter (·.doc ≠ doc) } log older := by
  have hmem : ∀ v ∈ s.source.filter (·.doc ≠ doc), v ∈ s.source :=
    fun v hv => List.mem_of_mem_filter hv
  exact h.of_source le_rfl (fun v hv => .inl (hmem v hv)) (fun v hv => h.source_le v (hmem v hv))
    fun v hv w hw => h.source_eq v (hmem v hv) w (hmem w hw)

theorem Kept.change [DecidableEq ι] (h : Kept C s log older) (doc : ι) {time : ℕ}
    (htime : s.clock < time) :
    Kept C { s with source := ⟨doc, time⟩ :: s.source.filter (·.doc ≠ doc), clock := time }
      log older := by
  have hmem : ∀ v ∈ s.source.filter (·.doc ≠ doc), v ∈ s.source :=
    fun v hv => List.mem_of_mem_filter hv
  have hlt : ∀ v ∈ s.source.filter (·.doc ≠ doc), v.updatedAt < time :=
    fun v hv => (h.source_le v (hmem v hv)).trans_lt htime
  refine h.of_source htime.le ?_ ?_ ?_
  · intro v hv
    rcases List.mem_cons.mp hv with rfl | hv
    · exact .inr htime
    · exact .inl (hmem v hv)
  · intro v hv
    rcases List.mem_cons.mp hv with rfl | hv
    · exact le_rfl
    · exact (hlt v hv).le
  · intro v hv w hw heq
    rcases List.mem_cons.mp hv with rfl | hv <;> rcases List.mem_cons.mp hw with rfl | hw
    · rfl
    · exact absurd heq (hlt w hw).ne'
    · exact absurd heq (hlt v hv).ne
    · exact h.source_eq v (hmem v hv) w (hmem w hw) heq

theorem dispatch_eq_some {id : ℕ} (hstep : s.dispatch C id = some t) :
    ∃ task, s.run = none ∧ s.logs.find? (·.id = id) = some task ∧ task.status = .schedule ∧
      s.connectorStatus = .schedule ∧
      t = { s with
        logs := updateById id (setStatus .running) s.logs
        connectorStatus := .running
        run := some ⟨id, .drawing
          (C.poll s.source (if task.fromBeginning then none else task.pollRangeStart))
          (task.pollRangeStart.getD 0)⟩ } := by
  unfold dispatch at hstep
  split at hstep
  next task hrun htask =>
    split at hstep
    next hstatus =>
      exact ⟨task, hrun, htask, hstatus.1, hstatus.2, (Option.some.inj hstep).symm⟩
    next => cases hstep
  next => cases hstep

/-- Only the latest log is scheduled, and what is not settled comes when it is read. -/
theorem Kept.dispatch (h : Kept C s log older) {id : ℕ} (hstep : s.dispatch C id = some t) :
    ∃ log older, Kept C t log older := by
  obtain ⟨task, hrun, hfind, hstatus, -, rfl⟩ := dispatch_eq_some hstep
  have htask : task = log := by
    have hmem := List.mem_of_find?_eq_some hfind
    rw [h.logs] at hmem
    exact (List.mem_cons.mp hmem).resolve_right fun hold => h.older_ne task hold hstatus
  have hid : task.id = id := by simpa using List.find?_some hfind
  subst hid htask
  refine ⟨setStatus .running task, older.filter (·.id ≠ task.id), ?_, ?_, h.within.setStatus _,
    h.source_le, h.source_eq, ?_, ?_⟩
  · rw [h.logs]
    exact updateById_head _ _ _
  · exact fun l hl => h.older_ne l (List.mem_of_mem_filter hl)
  · intro _ v hv
    refine (h.covered (.inr (not_reading_of_none hrun)) v hv).imp_right fun hc => ?_
    exact hc.setStatus (by rintro ⟨⟩)
  · rintro r ⟨⟩
    refine ⟨rfl, s.clock, le_rfl, by rintro ⟨⟩, h.within.setStatus _, ?_, ?_, ?_,
      fun hC => hC _ _, ?_⟩
    · cases hp : task.pollRangeStart with
      | none => exact Nat.zero_le _
      | some m => exact h.within.start m hp
    · exact fun v hv => h.source_le v (C.sound _ _ v hv)
    · exact fun v hv w hw => h.source_eq v (C.sound _ _ v hv) w (C.sound _ _ w hw)
    · intro v hv
      refine (h.covered (.inr (not_reading_of_none hrun)) v hv).imp_right fun hc => ?_
      refine .inl (C.complete _ _ v hv ?_)
      split
      next => exact above_none _
      next hb => exact hc.start.resolve_left hb

section Advance

variable {id next errors : ℕ} {doc : Version ι} {docs : List (Version ι)}
  {rest : List (List (Version ι))} {outcome : Option ℕ}

theorem advance_nil (hr : s.run = some ⟨id, .drawing [] next⟩) :
    s.advance outcome = some { s with
      logs := updateById id (setStatus .done) s.logs
      connectorStatus := .done
      run := some ⟨id, .finished next⟩ } := by
  simp only [advance, hr, Option.map_some]

theorem advance_empty (hr : s.run = some ⟨id, .drawing ([] :: rest) next⟩) :
    s.advance outcome = some { s with run := some ⟨id, .drawing rest next⟩ } := by
  simp only [advance, hr, Option.map_some]

theorem advance_some (hr : s.run = some ⟨id, .drawing ((doc :: docs) :: rest) next⟩) :
    s.advance (some errors) = some { s with
      received := (doc :: docs) ++ s.received
      run := some ⟨id, .stored (doc :: docs) errors rest
        (max next (latest Version.updatedAt (doc :: docs)))⟩ } := by
  simp only [advance, hr, Option.map_some]

theorem advance_none (hr : s.run = some ⟨id, .drawing ((doc :: docs) :: rest) next⟩) :
    s.advance none = some { s with
      skipped := (doc :: docs) ++ s.skipped
      run := some ⟨id, .drawing rest
        (max next (latest Version.updatedAt (doc :: docs)))⟩ } := by
  simp only [advance, hr, Option.map_some]

theorem advance_stored (hr : s.run = some ⟨id, .stored docs errors rest next⟩) :
    s.advance outcome = some { s with
      logs :=
        if outcome.isSome then
          updateById id (increaseDocs (latest Version.updatedAt docs) docs.length errors) s.logs
        else s.logs
      run := some ⟨id, .drawing rest next⟩ } := by
  simp only [advance, hr, Option.map_some]

theorem advance_finished (hr : s.run = some ⟨id, .finished next⟩) :
    s.advance outcome = some { s.schedule (some next) false 0 with run := none } := by
  simp only [advance, hr, Option.map_some]

variable {horizon : ℕ}

theorem Pending.of_settled (h : Pending C s log rest next horizon) {run : Option (Run ι)}
    {received skipped : List (Version ι)} (hreceived : s.received ⊆ received)
    (hskipped : s.skipped ⊆ skipped) {next' : ℕ} (hnext : next' ≤ horizon) :
    Pending C { s with run, received, skipped } log rest next' horizon := by
  refine ⟨h.horizon_le, h.unfinished, h.within, hnext, h.rest_le, h.rest_eq, h.in_order, ?_⟩
  intro v hv
  exact (h.complete v hv).imp_left fun hs =>
    hs.imp (fun hm => hreceived hm) fun hm => hskipped hm

/-- A step between batches, with the log as it was. -/
theorem Kept.of_reading (h : Kept C s log older) {r : Run ι}
    {received skipped : List (Version ι)} (hreceived : s.received ⊆ received)
    (hskipped : s.skipped ⊆ skipped) (hr : ∀ next, r.work ≠ .finished next)
    (hworking : Working C { s with run := some r, received, skipped } log r) :
    Kept C { s with run := some r, received, skipped } log older := by
  refine ⟨h.logs, h.older_ne, h.within, h.source_le, h.source_eq, ?_, ?_⟩
  · intro hC v hv
    have hby : C.ByTime := hC.resolve_right fun hn => hn ⟨r, rfl, hr⟩
    exact (h.covered (.inl hby) v hv).imp_left fun hs =>
      hs.imp (fun hm => hreceived hm) fun hm => hskipped hm
  · rintro r ⟨⟩
    exact hworking

theorem Pending.settledNext_le (h : Pending C s log (docs :: rest) next horizon) :
    max next (latest Version.updatedAt docs) ≤ horizon :=
  max_le h.next_le h.latest_le

/-- The last batch is behind the run. -/
theorem Kept.done (h : Kept C s log older) (hp : Pending C s log [] next horizon) :
    Kept C
      { s with
        logs := updateById log.id (setStatus .done) s.logs
        connectorStatus := .done
        run := some ⟨id, .finished next⟩ }
      (setStatus .done log) (older.filter (·.id ≠ log.id)) := by
  have hsettled : ∀ v ∈ s.source, s.Settled v ∨ horizon < v.updatedAt := by
    intro v hv
    exact (hp.complete v hv).imp_right fun hc => hc.resolve_left List.not_mem_nil
  refine ⟨?_, fun l hl => h.older_ne l (List.mem_of_mem_filter hl), h.within.setStatus _,
    h.source_le, h.source_eq, ?_, ?_⟩
  · dsimp only
    rw [h.logs]
    exact updateById_head _ _ _
  · intro _ v hv
    exact (hsettled v hv).imp_right fun hlt => (hp.within.setStatus _).covers hlt
  · rintro r ⟨⟩
    refine ⟨hp.next_le.trans hp.horizon_le, ?_⟩
    intro v hv
    exact (hsettled v hv).imp_right fun hlt => hp.next_le.trans_lt hlt

/-- The log is raised by what was received, or stays. -/
theorem Kept.increaseDocs (h : Kept C s log older) (hne : docs ≠ []) (hdocs : docs ⊆ s.received)
    (hp : Pending C s log (docs :: rest) next horizon) (n e : ℕ) :
    Kept C
      { s with
        logs := updateById log.id (increaseDocs (latest Version.updatedAt docs) n e) s.logs
        run := some ⟨log.id, .drawing rest next⟩ }
      (Connector.increaseDocs (latest Version.updatedAt docs) n e log)
      (older.filter (·.id ≠ log.id)) := by
  have hsettled : ∀ v ∈ docs, s.Settled v := fun v hv => .inl (hdocs hv)
  have htail := hp.tail hsettled
  refine ⟨?_, fun l hl => h.older_ne l (List.mem_of_mem_filter hl),
    h.within.increaseDocs (hp.latest_le.trans hp.horizon_le), h.source_le, h.source_eq, ?_, ?_⟩
  · dsimp only
    rw [h.logs]
    exact updateById_head _ _ _
  · intro hC v hv
    have hby : C.ByTime := hC.resolve_right fun hn => hn ⟨_, rfl, by rintro _ ⟨⟩⟩
    rcases h.covered (.inl hby) v hv with hs | hc
    · exact .inl hs
    · by_cases hs : s.Settled v
      · exact .inl hs
      · exact .inr (hp.covers_increaseDocs hby hne hsettled n e hv hc hs)
  · rintro r ⟨⟩
    exact ⟨rfl, horizon, htail.horizon_le, hp.unfinished, hp.within.increaseDocs hp.latest_le,
      htail.next_le, htail.rest_le, htail.rest_eq, htail.in_order, htail.complete⟩

/-- The next synchronisation starts where this one ended. -/
theorem Kept.exists_of_finished (h : Kept C s log older)
    (hr : s.run = some ⟨id, .finished next⟩) :
    ∃ log older, Kept C { s.schedule (some next) false 0 with run := none } log older := by
  have hfinished : s.Finished next := h.working _ hr
  have hcovered := h.covered (.inr (not_reading_of_finished hr))
  rw [← schedule_run]
  refine exists_kept_schedule ?_ h.source_le h.source_eq ?_ (within_some.mpr hfinished.1) ?_
  · intro log' older' hlogs
    obtain ⟨rfl, rfl⟩ := List.cons.inj (h.logs.symm.trans hlogs)
    exact ⟨h.older_ne, h.within, hcovered⟩
  · rintro r ⟨⟩
  · intro v hv
    exact (hfinished.2 v hv).imp_right fun hlt => .inr (above_some.mpr hlt)

/-- One step of a run, for each place where it can stand. -/
theorem Kept.advance (h : Kept C s log older) (hstep : s.advance outcome = some t) :
    ∃ log older, Kept C t log older := by
  obtain ⟨r, hr, -⟩ := Option.map_eq_some_iff.mp hstep
  have hworking := h.working r hr
  rcases r with ⟨id, ⟨rest, next⟩ | ⟨docs, errors, rest, next⟩ | next⟩
  case drawing =>
    obtain ⟨rfl, horizon, hp⟩ := hworking
    rcases rest with _ | ⟨_ | ⟨doc, docs⟩, rest⟩
    · obtain rfl := Option.some.inj ((advance_nil hr).symm.trans hstep)
      exact ⟨_, _, h.done hp⟩
    · obtain rfl := Option.some.inj ((advance_empty hr).symm.trans hstep)
      refine ⟨log, older, h.of_reading (List.Subset.refl _) (List.Subset.refl _)
        (by rintro _ ⟨⟩) ?_⟩
      exact ⟨rfl, horizon,
        (hp.tail (by rintro _ ⟨⟩)).of_settled (List.Subset.refl _) (List.Subset.refl _) hp.next_le⟩
    · rcases outcome with _ | errors
      · obtain rfl := Option.some.inj ((advance_none hr).symm.trans hstep)
        refine ⟨log, older, h.of_reading (List.Subset.refl _) (List.subset_append_right _ _)
          (by rintro _ ⟨⟩) ⟨rfl, horizon, ?_⟩⟩
        refine Pending.tail (hp.of_settled (List.Subset.refl _) (List.subset_append_right _ _)
          hp.settledNext_le) ?_
        exact fun v hv => .inr (List.mem_append_left _ hv)
      · obtain rfl := Option.some.inj ((advance_some hr).symm.trans hstep)
        refine ⟨log, older, h.of_reading (List.subset_append_right _ _) (List.Subset.refl _)
          (by rintro _ ⟨⟩) ⟨rfl, List.cons_ne_nil _ _, List.subset_append_left _ _, horizon, ?_⟩⟩
        exact hp.of_settled (List.subset_append_right _ _) (List.Subset.refl _) hp.settledNext_le
  case stored =>
    obtain ⟨rfl, hne, hdocs, horizon, hp⟩ := hworking
    obtain rfl := Option.some.inj ((advance_stored hr).symm.trans hstep)
    rcases outcome with _ | _
    · refine ⟨log, older, h.of_reading (List.Subset.refl _) (List.Subset.refl _)
        (by rintro _ ⟨⟩) ?_⟩
      have htail := hp.tail fun v hv => .inl (hdocs hv)
      exact ⟨rfl, horizon, htail.of_settled (List.Subset.refl _) (List.Subset.refl _) hp.next_le⟩
    · exact ⟨_, _, h.increaseDocs hne hdocs hp _ _⟩
  case finished =>
    obtain rfl := Option.some.inj ((advance_finished hr).symm.trans hstep)
    exact h.exists_of_finished hr

end Advance

section Users

variable {status : Document.TaskStatus}

theorem resume_cons (hlogs : s.logs = log :: older) :
    s.resume status =
      if log.status = .done ∧ status = .schedule then
        { s.schedule log.pollRangeEnd false log.totalDocsIndexed with connectorStatus := status }
      else
        { s with
          logs := setStatus status log :: older.filter (·.id ≠ log.id)
          connectorStatus := status } := by
  simp only [resume, hlogs, updateById_head]

/-- A log that is done is not that of a run at its batches. -/
theorem Kept.eq_finished (h : Kept C s log older) (hdone : log.status = .done) {r : Run ι}
    (hr : s.run = some r) : ∃ id next, r = ⟨id, .finished next⟩ ∧ s.Finished next := by
  have hworking := h.working r hr
  rcases r with ⟨id, ⟨rest, next⟩ | ⟨docs, errors, rest, next⟩ | next⟩
  · obtain ⟨-, horizon, hp⟩ := hworking
    exact absurd hdone hp.unfinished
  · obtain ⟨-, -, -, horizon, hp⟩ := hworking
    exact absurd hdone hp.unfinished
  · exact ⟨id, next, rfl, hworking⟩

theorem Kept.not_reading (h : Kept C s log older) (hdone : log.status = .done) :
    ¬ s.Reading := by
  rintro ⟨r, hr, hwork⟩
  obtain ⟨id, next, rfl, -⟩ := h.eq_finished hdone hr
  exact hwork next rfl

theorem Pending.setStatus {rest : List (List (Version ι))} {next horizon : ℕ}
    (h : Pending C s log rest next horizon) (hstatus : status ≠ .done) {logs : List SyncLog} :
    Pending C { s with logs, connectorStatus := status } (setStatus status log) rest next
      horizon :=
  ⟨h.horizon_le, hstatus, h.within.setStatus _, h.next_le, h.rest_le, h.rest_eq, h.in_order,
    h.complete⟩

theorem Kept.resume (h : Kept C s log older) (hstatus : status ≠ .done) :
    ∃ log older, Kept C (s.resume status) log older := by
  rw [resume_cons h.logs]
  split
  next hdone =>
    have hcovered := h.covered (.inr (h.not_reading hdone.1))
    rw [hdone.2, ← schedule_connectorStatus]
    refine exists_kept_schedule ?_ h.source_le h.source_eq ?_ h.within.ends ?_
    · intro log' older' hlogs
      obtain ⟨rfl, rfl⟩ := List.cons.inj (h.logs.symm.trans hlogs)
      exact ⟨h.older_ne, h.within, hcovered⟩
    · exact fun r hr => h.eq_finished hdone.1 hr
    · intro v hv
      exact (hcovered v hv).imp_right fun hc => .inr (hc.ends hdone.1)
  next =>
    refine ⟨_, _, rfl, fun l hl => h.older_ne l (List.mem_of_mem_filter hl),
      h.within.setStatus _, h.source_le, h.source_eq, ?_, ?_⟩
    · intro hC v hv
      exact (h.covered hC v hv).imp_right fun hc => hc.setStatus hstatus
    · intro r hr
      have hworking := h.working r hr
      rcases r with ⟨id, ⟨rest, next⟩ | ⟨docs, errors, rest, next⟩ | next⟩
      · obtain ⟨hid, horizon, hp⟩ := hworking
        exact ⟨hid, horizon, hp.setStatus hstatus⟩
      · obtain ⟨hid, hne, hdocs, horizon, hp⟩ := hworking
        exact ⟨hid, hne, hdocs, horizon, hp.setStatus hstatus⟩
      · exact hworking

/-- Everything is read again. -/
theorem Kept.rebuild (h : Kept C s log older) (hr : s.run = none) :
    ∃ log older,
      Kept C ({ s with logs := [], received := [], skipped := [] }.schedule none true 0)
        log older := by
  refine exists_kept_schedule ?_ h.source_le h.source_eq ?_ (within_none _) ?_
  · rintro _ _ ⟨⟩
  · exact fun r hsome => absurd (hsome.symm.trans hr) (Option.some_ne_none r)
  · exact fun v hv => .inr (.inl rfl)

end Users

/-- A run that stops leaves its log as far as it was raised. -/
theorem Kept.die (h : Kept C s log older) (hC : C.ByTime ∨ ¬ s.Reading) :
    Kept C { s with run := none } log older := by
  refine ⟨h.logs, h.older_ne, h.within, h.source_le, h.source_eq, fun _ => h.covered hC, ?_⟩
  rintro r ⟨⟩

theorem Kept.raise (h : Kept C s log older) (hC : C.ByTime) {id : ℕ} (hid : log.id = id) :
    Kept C { s with logs := updateById id (setStatus .fail) s.logs, run := none }
      (setStatus .fail log) (older.filter (·.id ≠ log.id)) := by
  subst hid
  refine ⟨?_, fun l hl => h.older_ne l (List.mem_of_mem_filter hl), h.within.setStatus _,
    h.source_le, h.source_eq, ?_, ?_⟩
  · dsimp only
    rw [h.logs]
    exact updateById_head _ _ _
  · intro _ v hv
    exact (h.covered (.inl hC) v hv).imp_right fun hc => hc.setStatus (by rintro ⟨⟩)
  · rintro r ⟨⟩

/-- A scheduled log is taken up by the process. -/
theorem dispatch_head (hrun : s.run = none) (hlogs : s.logs = log :: older)
    (hconnector : s.connectorStatus = .schedule) (hlog : log.status = .schedule) :
    s.dispatch C log.id = some { s with
      logs := setStatus .running log :: older.filter (·.id ≠ log.id)
      connectorStatus := .running
      run := some ⟨log.id, .drawing (C.poll s.source log.nextStart)
        (log.pollRangeStart.getD 0)⟩ } := by
  have hnext : log.nextStart = if log.fromBeginning then none else log.pollRangeStart :=
    if_neg (by rw [hlog]; rintro ⟨⟩)
  have hfind : s.logs.find? (·.id = log.id) = some log := by
    rw [hlogs]
    exact List.find?_cons_of_pos (decide_eq_true rfl)
  rw [hnext, ← updateById_head, ← hlogs]
  simp only [dispatch, hrun, hfind, hlog, hconnector, and_self, if_true]

/-- A connector that is resumed has its latest log scheduled, to be read from the same place. -/
theorem Kept.resume_schedule (h : Kept C s log older) :
    ∃ log' older', (s.resume .schedule).logs = log' :: older' ∧ log'.status = .schedule ∧
      log'.nextStart = log.nextStart ∧
      s.resume .schedule = { s with
        connectorStatus := .schedule
        logs := (s.resume .schedule).logs
        nextId := (s.resume .schedule).nextId } := by
  rw [resume_cons h.logs]
  split
  next hdone =>
    obtain ⟨kept, hbegins, ⟨⟨l, hl, hstatus⟩, -⟩ | ⟨-, hs⟩⟩ :=
      schedule_cases s log.pollRangeEnd false log.totalDocsIndexed
    · rw [h.logs] at hbegins
      rcases List.mem_cons.mp (hbegins.subset hl) with rfl | hold
      · exact absurd (hdone.1.symm.trans hstatus) (by rintro ⟨⟩)
      · exact absurd hstatus (h.older_ne l hold)
    · rw [hs]
      refine ⟨_, _, rfl, rfl, ?_, rfl⟩
      exact (if_pos hdone.1).symm
  next hdone =>
    have hne : log.status ≠ .done := fun hd => hdone ⟨hd, rfl⟩
    refine ⟨_, _, rfl, rfl, ?_, rfl⟩
    exact (if_neg (by rintro ⟨⟩)).trans (if_neg hne).symm

theorem kept_linked : ∃ log older, Kept C (linked : State ι) log older := by
  refine exists_kept_schedule ?_ ?_ ?_ ?_ (within_none _) ?_
  · rintro _ _ ⟨⟩
  · rintro _ ⟨⟩
  · rintro _ ⟨⟩
  · rintro _ ⟨⟩
  · rintro _ ⟨⟩

theorem Kept.step [DecidableEq ι] (h : Kept C s log older) {e : Event ι} (hallowed : Allowed C s e)
    (hstep : s.step C e = some t) : ∃ log older, Kept C t log older := by
  cases e with
  | change doc time =>
      obtain rfl := Option.some.inj ((if_pos (le_of_lt hallowed)).symm.trans hstep)
      exact ⟨_, _, h.change doc hallowed⟩
  | remove doc =>
      obtain rfl := Option.some.inj hstep
      exact ⟨_, _, h.remove doc⟩
  | dispatch id => exact h.dispatch hstep
  | advance outcome => exact h.advance hstep
  | raise =>
      simp only [State.step] at hstep
      split at hstep
      next id rest next hr =>
        obtain rfl := Option.some.inj hstep
        exact ⟨_, _, h.raise hallowed (h.working _ hr).1⟩
      next => cases hstep
  | die =>
      obtain rfl := Option.some.inj hstep
      exact ⟨_, _, h.die hallowed⟩
  | resume on =>
      obtain rfl := Option.some.inj hstep
      refine h.resume ?_
      split <;> rintro ⟨⟩
  | rebuild =>
      obtain rfl := Option.some.inj hstep
      exact h.rebuild hallowed

/-- A connector that gives its documents one by one, by their times. -/
def oneByOne : Poller ι where
  poll source start :=
    ((source.filter fun v => start.all (· < v.updatedAt)).insertionSort
      (Version.updatedAt · ≤ Version.updatedAt ·)).map ([·])
  complete := by
    intro source start v hv habove
    refine List.mem_flatten_of_mem (List.mem_map_of_mem ?_) (List.mem_singleton_self v)
    rw [List.mem_insertionSort, List.mem_filter]
    refine ⟨hv, ?_⟩
    cases start with
    | none => rfl
    | some m => exact decide_eq_true (above_some.mp habove)
  sound := by
    intro source start v hv
    obtain ⟨b, hb, hv⟩ := List.mem_flatten.mp hv
    obtain ⟨w, hw, rfl⟩ := List.mem_map.mp hb
    obtain rfl := List.mem_singleton.mp hv
    exact List.mem_of_mem_filter ((List.mem_insertionSort _).mp hw)

theorem byTime_oneByOne : (oneByOne : Poller ι).ByTime := by
  intro source start
  have : Std.Total fun v w : Version ι => v.updatedAt ≤ w.updatedAt := ⟨fun _ _ => le_total _ _⟩
  have : IsTrans (Version ι) fun v w => v.updatedAt ≤ w.updatedAt := ⟨fun _ _ _ => le_trans⟩
  have hsorted := List.pairwise_insertionSort
    (fun v w : Version ι => v.updatedAt ≤ w.updatedAt)
    (source.filter fun v => start.all (· < v.updatedAt))
  refine List.pairwise_map.mpr (hsorted.imp ?_)
  intro v w hvw x hx y hy
  rw [List.mem_singleton.mp hx, List.mem_singleton.mp hy]
  exact hvw

variable [DecidableEq ι]

theorem kept_of_driven (hs : Driven (State.step C) (Allowed C) linked s) :
    ∃ log older, Kept C s log older := by
  refine hs.invariant (I := fun s => ∃ log older, Kept C s log older) kept_linked ?_
  rintro s e t ⟨log, older, h⟩ hallowed hstep
  exact h.step hallowed hstep

/-- Two documents, and a run that dies when it has counted the first. -/
def untilDeath : List (Event ℕ) :=
  [.change 0 1, .change 1 2, .dispatch 0, .advance (some 0), .advance (some 0), .die]

theorem meets_untilDeath :
    Meets (State.step oneByOne) (Allowed oneByOne) untilDeath (linked : State ℕ) := by
  refine ⟨Nat.zero_lt_one, ?_⟩
  intro s hs
  obtain rfl := Option.some.inj hs
  refine ⟨Nat.one_lt_two, ?_⟩
  intro s hs
  obtain rfl := Option.some.inj hs
  refine ⟨trivial, ?_⟩
  intro s _
  refine ⟨trivial, ?_⟩
  intro s _
  refine ⟨trivial, ?_⟩
  intro s _
  exact ⟨.inl byTime_oneByOne, fun _ _ => trivial⟩

end Steps

end State

end RagflowMineru.Connector
