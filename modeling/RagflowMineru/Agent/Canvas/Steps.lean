import RagflowMineru.Agent.Canvas.Run

/-!
# What a step of the runner can do

The inversion lemmas of the runner: what each part of the post-processing
leaves alone, how it extends `path`, and in which three ways a batch ends.
Everything proved about runs goes through them.
-/

namespace RagflowMineru.Agent

open RagflowMineru.Library

variable {w : World} {dsl : Dsl}

/-! ## The post-processing of one component -/

/-- What the post-processing never touches. -/
structure SameRun (s s' : RunState) : Prop where
  idx : s'.idx = s.idx
  batches : s'.batches = s.batches
  phase : s'.phase = s.phase

theorem SameRun.refl (s : RunState) : SameRun s s := ⟨rfl, rfl, rfl⟩

theorem SameRun.trans {s t u : RunState} (hst : SameRun s t)
    (htu : SameRun t u) : SameRun s u :=
  ⟨htu.idx.trans hst.idx, htu.batches.trans hst.batches,
    htu.phase.trans hst.phase⟩

theorem speak_frame {c : CpnId} {s s' : RunState}
    (h : speak w c s = some s') : SameRun s s' ∧ s'.path = s.path := by
  simp only [speak, Option.bind_eq_bind, Option.bind_eq_some_iff] at h
  obtain ⟨drained, -, hs'⟩ := h
  obtain rfl := Option.some.inj hs'
  exact ⟨⟨rfl, rfl, rfl⟩, rfl⟩

theorem speakIfMessage_frame {cpn : Component} {c : CpnId} {s s' : RunState}
    (h : speakIfMessage w cpn c s = some s') :
    SameRun s s' ∧ s'.path = s.path := by
  unfold speakIfMessage at h
  split at h
  · exact speak_frame h
  · obtain rfl := Option.some.inj h
    exact ⟨.refl _, rfl⟩

/-- The error branch sets `error`, jumps to the targets of `exception_goto`, or
speaks the default value. -/
theorem handleError_cases {cpn : Component} {c : CpnId} {s s' : RunState}
    {otherBranch : Bool} (h : handleError cpn c s = (s', otherBranch)) :
    (otherBranch = false ∧ ∃ error, s' = { s with error := error }) ∨
    (otherBranch = true ∧ cpn.exceptionGoto ≠ [] ∧
      s' = { s with path := s.path ++ cpn.exceptionGoto }) ∨
    (otherBranch = false ∧ ∃ value,
      s' = { s with events := s.events ++ [.message value, .messageEnd] }) := by
  unfold handleError at h
  split_ifs at h with hok hmethod hgoto hdefault
  all_goals obtain ⟨rfl, rfl⟩ := Prod.mk.inj h
  · exact Or.inl ⟨rfl, s.error, rfl⟩
  · exact Or.inl ⟨rfl, _, rfl⟩
  · exact Or.inr (Or.inl ⟨rfl, hgoto, rfl⟩)
  · exact Or.inr (Or.inr ⟨rfl, _, rfl⟩)
  · exact Or.inl ⟨rfl, _, rfl⟩

/-- The error branch either leaves `path` alone or jumps to the targets of
`exception_goto`. -/
theorem handleError_frame {cpn : Component} {c : CpnId} {s s' : RunState}
    {otherBranch : Bool} (h : handleError cpn c s = (s', otherBranch)) :
    SameRun s s' ∧
      ((otherBranch = false ∧ s'.path = s.path) ∨
        (otherBranch = true ∧ cpn.exceptionGoto ≠ [] ∧
          s'.path = s.path ++ cpn.exceptionGoto)) := by
  rcases handleError_cases h with ⟨hbranch, error, rfl⟩ |
    ⟨hbranch, hgoto, rfl⟩ | ⟨hbranch, value, rfl⟩
  · exact ⟨⟨rfl, rfl, rfl⟩, Or.inl ⟨hbranch, rfl⟩⟩
  · exact ⟨⟨rfl, rfl, rfl⟩, Or.inr ⟨hbranch, hgoto, rfl⟩⟩
  · exact ⟨⟨rfl, rfl, rfl⟩, Or.inl ⟨hbranch, rfl⟩⟩

/-- The end of the component is left to its item, waits in the queue, or is
reported. -/
theorem finishNode_cases {cpn : Component} {c : CpnId} {s s' : RunState}
    (h : finishNode cpn c s = some s') :
    (cpn.kind.isContainer = true ∧ s' = s) ∨
    (cpn.kind.isContainer = false ∧
      s' = { s with partials := s.partials ++ [c] }) ∨
    (∃ heap finished, nodeFinished heap c = some finished ∧
      (heap = s.heap ∨ heap = s.heap.setOutput c "content" .none) ∧
      s' = { s with heap := heap, events := s.events ++ [finished] }) := by
  unfold finishNode at h
  split_ifs at h with hcontainer hstream herror
  · exact Or.inl ⟨hcontainer, (Option.some.inj h).symm⟩
  · exact Or.inr (Or.inl ⟨Bool.eq_false_of_not_eq_true hcontainer,
      (Option.some.inj h).symm⟩)
  · obtain ⟨finished, hfinished, hs'⟩ := Option.bind_eq_some_iff.mp h
    exact Or.inr (Or.inr ⟨_, finished, hfinished, Or.inr rfl,
      (Option.some.inj hs').symm⟩)
  · obtain ⟨finished, hfinished, hs'⟩ := Option.bind_eq_some_iff.mp h
    exact Or.inr (Or.inr ⟨s.heap, finished, hfinished, Or.inl rfl,
      (Option.some.inj hs').symm⟩)

theorem finishNode_frame {cpn : Component} {c : CpnId} {s s' : RunState}
    (h : finishNode cpn c s = some s') :
    SameRun s s' ∧ s'.path = s.path := by
  rcases finishNode_cases h with ⟨-, rfl⟩ | ⟨-, rfl⟩ |
    ⟨heap, finished, -, -, rfl⟩
  · exact ⟨.refl _, rfl⟩
  · exact ⟨⟨rfl, rfl, rfl⟩, rfl⟩
  · exact ⟨⟨rfl, rfl, rfl⟩, rfl⟩

/-- Either the component is an item at its end, which finishes its container,
or the ids are those of `nextIds`. -/
theorem successors_cases {cpn : Component} {c : CpnId} {otherBranch : Bool}
    {s s' : RunState} {ids : List CpnId}
    (h : successors w dsl cpn c otherBranch s = some (s', ids)) :
    (∃ heap pid parent finished,
      itemEnd w dsl cpn c s.heap = some (true, heap) ∧
      dsl.getParent c = some (some (pid, parent)) ∧
      nodeFinished heap pid = some finished ∧ ids = parent.downstream ∧
      s' = { s with heap := heap, events := s.events ++ [finished] }) ∨
    (∃ heap, itemEnd w dsl cpn c s.heap = some (false, heap) ∧
      nextIds dsl heap c cpn otherBranch = some ids ∧
      s' = { s with heap := heap }) := by
  simp only [successors, Option.bind_eq_bind, Option.bind_eq_some_iff] at h
  obtain ⟨⟨ended, heap⟩, hend, h⟩ := h
  cases ended with
  | true =>
      simp only [if_true, Option.bind_eq_some_iff] at h
      obtain ⟨found, hparent, h⟩ := h
      cases found with
      | none => simp at h
      | some found =>
          obtain ⟨pid, parent⟩ := found
          obtain ⟨finished, hfinished, hs'⟩ := Option.bind_eq_some_iff.mp h
          obtain ⟨rfl, rfl⟩ := Prod.mk.inj (Option.some.inj hs')
          exact Or.inl ⟨heap, pid, parent, finished, hend, hparent, hfinished,
            rfl, rfl⟩
  | false =>
      simp only [Bool.false_eq_true, if_false, Option.bind_eq_some_iff] at h
      obtain ⟨found, hids, hs'⟩ := h
      obtain ⟨rfl, rfl⟩ := Prod.mk.inj (Option.some.inj hs')
      exact Or.inr ⟨heap, hend, hids, rfl⟩

theorem successors_frame {cpn : Component} {c : CpnId} {otherBranch : Bool}
    {s s' : RunState} {ids : List CpnId}
    (h : successors w dsl cpn c otherBranch s = some (s', ids)) :
    SameRun s s' ∧ s'.path = s.path := by
  obtain ⟨heap, pid, parent, finished, -, -, -, -, rfl⟩ | ⟨heap, -, -, rfl⟩ :=
    successors_cases h
  · exact ⟨⟨rfl, rfl, rfl⟩, rfl⟩
  · exact ⟨⟨rfl, rfl, rfl⟩, rfl⟩

/-- The five parts of the post-processing of a component. -/
theorem prepare_cases {s s' : RunState} {c : CpnId} {otherBranch : Bool}
    {ids : List CpnId} (h : prepare w dsl s c = some (s', otherBranch, ids)) :
    ∃ cpn spoken handled noted,
      dsl.getComponent c = some cpn ∧
      speakIfMessage w cpn c s = some spoken ∧
      handleError cpn c spoken = (handled, otherBranch) ∧
      finishNode cpn c handled = some noted ∧
      successors w dsl cpn c otherBranch noted = some (s', ids) := by
  simp only [prepare, Option.bind_eq_bind, Option.bind_eq_some_iff] at h
  obtain ⟨cpn, hcpn, spoken, hspoken, noted, hnoted, ⟨s'', ids'⟩, hsucc, h⟩ := h
  obtain ⟨rfl, hrest⟩ := Prod.mk.inj (Option.some.inj h)
  obtain ⟨rfl, rfl⟩ := Prod.mk.inj hrest
  exact ⟨cpn, spoken, _, noted, hcpn, hspoken, rfl, hnoted, hsucc⟩

theorem prepare_frame {s s' : RunState} {c : CpnId} {otherBranch : Bool}
    {ids : List CpnId} (h : prepare w dsl s c = some (s', otherBranch, ids)) :
    SameRun s s' ∧ ∃ cpn, dsl.getComponent c = some cpn ∧
      ((otherBranch = false ∧ s'.path = s.path) ∨
        (otherBranch = true ∧ cpn.exceptionGoto ≠ [] ∧
          s'.path = s.path ++ cpn.exceptionGoto)) := by
  obtain ⟨cpn, spoken, handled, noted, hcpn, hspoken, hhandled, hnoted,
    hsucc⟩ := prepare_cases h
  obtain ⟨hrun₁, hpath₁⟩ := speakIfMessage_frame hspoken
  obtain ⟨hrun₂, hpath₂⟩ := handleError_frame hhandled
  obtain ⟨hrun₃, hpath₃⟩ := finishNode_frame hnoted
  obtain ⟨hrun₄, hpath₄⟩ := successors_frame hsucc
  refine ⟨((hrun₁.trans hrun₂).trans hrun₃).trans hrun₄, cpn, hcpn, ?_⟩
  rw [hpath₄, hpath₃, ← hpath₁]
  exact hpath₂

theorem postProcess_cases {s t : RunState} {c : CpnId}
    (h : postProcess w dsl s c = some t) :
    ∃ s' otherBranch ids, prepare w dsl s c = some (s', otherBranch, ids) ∧
      t = { s' with path := extendPath otherBranch s'.path ids } := by
  simp only [postProcess, Option.bind_eq_bind, Option.bind_eq_some_iff] at h
  obtain ⟨⟨s', otherBranch, ids⟩, hprepare, ht⟩ := h
  exact ⟨s', otherBranch, ids, hprepare, (Option.some.inj ht).symm⟩

theorem prefix_extendPath (otherBranch : Bool) (path ids : List CpnId) :
    path <+: extendPath otherBranch path ids := by
  cases otherBranch with
  | true => exact List.prefix_refl path
  | false => exact prefix_pushAll path ids

/-- The post-processing of a component only adds to the end of `path`. -/
theorem postProcess_frame {s t : RunState} {c : CpnId}
    (h : postProcess w dsl s c = some t) :
    SameRun s t ∧ s.path <+: t.path := by
  obtain ⟨s', otherBranch, ids, hprepare, rfl⟩ := postProcess_cases h
  obtain ⟨hrun, cpn, -, hpath⟩ := prepare_frame hprepare
  refine ⟨⟨hrun.idx, hrun.batches, hrun.phase⟩, ?_⟩
  have hext := prefix_extendPath otherBranch s'.path ids
  have hpfx : s.path <+: s'.path := by
    rcases hpath with ⟨-, heq⟩ | ⟨-, -, heq⟩
    · rw [heq]
    · rw [heq]
      exact List.prefix_append _ _
  exact hpfx.trans hext

theorem foldlM_postProcess_frame {s t : RunState} {kept : List CpnId}
    (h : kept.foldlM (postProcess w dsl) s = some t) :
    SameRun s t ∧ s.path <+: t.path := by
  induction kept generalizing s with
  | nil =>
      obtain rfl := Option.some.inj h
      exact ⟨.refl _, List.prefix_refl _⟩
  | cons c kept ih =>
      rw [List.foldlM_cons] at h
      obtain ⟨s', hstep, hrest⟩ := Option.bind_eq_some_iff.mp h
      obtain ⟨hrun, hpath⟩ := postProcess_frame hstep
      obtain ⟨hrun', hpath'⟩ := ih hrest
      exact ⟨hrun.trans hrun', hpath.trans hpath'⟩

/-! ## The readiness test -/

/-- What `_run_batch` keeps comes from the batch, in order, behind the part of
`path` that was there before. -/
theorem runBatchLoop_spec {h : Heap} {resumed : Bool}
    {before slice path : List CpnId}
    (hloop : runBatchLoop w dsl h resumed before slice = some path) :
    ∃ kept, path = before ++ kept ∧ kept.Sublist slice := by
  induction slice generalizing before with
  | nil =>
      obtain rfl := Option.some.inj hloop
      exact ⟨[], by simp, List.Sublist.refl _⟩
  | cons c rest ih =>
      have hkeep : runBatchLoop w dsl h resumed (before ++ [c]) rest =
          some path → ∃ kept, path = before ++ kept ∧
            kept.Sublist (c :: rest) := by
        intro hrest
        obtain ⟨kept, hpath, hsub⟩ := ih hrest
        exact ⟨c :: kept, by simp [hpath], hsub.cons_cons c⟩
      simp only [runBatchLoop, Option.bind_eq_bind,
        Option.bind_eq_some_iff] at hloop
      obtain ⟨cpn, -, hloop⟩ := hloop
      by_cases htakes : cpn.kind.takesInputs = true
      · rw [if_pos htakes] at hloop
        exact hkeep hloop
      · rw [if_neg htakes] at hloop
        obtain ⟨refs, -, hloop⟩ := Option.bind_eq_some_iff.mp hloop
        by_cases hmiss : missesInput resumed before refs = true
        · rw [if_pos hmiss] at hloop
          obtain ⟨kept, hpath, hsub⟩ := ih hloop
          exact ⟨kept, hpath, hsub.cons c⟩
        · rw [if_neg hmiss] at hloop
          exact hkeep hloop

/-! ## The parts of a batch -/

theorem invokeBatch_phase {s s' : RunState} {kept : List CpnId}
    (h : invokeBatch w dsl s = some (s', kept)) : s'.phase = s.phase := by
  simp only [invokeBatch, Option.bind_eq_bind, Option.bind_eq_some_iff] at h
  obtain ⟨started, -, h⟩ := h
  split at h
  · simp at h
  · obtain ⟨path, -, hs'⟩ := Option.bind_eq_some_iff.mp h
    obtain ⟨rfl, -⟩ := Prod.mk.inj (Option.some.inj hs')
    rfl

/-- The state in which the post-processing of a batch starts. -/
theorem invokeBatch_spec {s s' : RunState} {kept : List CpnId}
    (hle : s.idx ≤ s.path.length)
    (h : invokeBatch w dsl s = some (s', kept)) :
    ∃ started heap,
      (s.path.drop s.idx).mapM (nodeStarted w dsl s.heap) = some started ∧
      runBatchLoop w dsl s.heap (s.path.head?.any namesUserFillUp)
          (s.path.take s.idx) (s.path.drop s.idx) =
        some (s.path.take s.idx ++ kept) ∧
      kept.Sublist (s.path.drop s.idx) ∧
      s' = { s with
        heap := heap
        path := s.path.take s.idx ++ kept
        events := s.events ++ started
        batches := s.batches ++ [kept] } := by
  simp only [invokeBatch, Option.bind_eq_bind, Option.bind_eq_some_iff] at h
  obtain ⟨started, hstarted, h⟩ := h
  split at h
  · simp at h
  · obtain ⟨path, hloop, hs'⟩ := Option.bind_eq_some_iff.mp h
    obtain ⟨kept', rfl, hsub⟩ := runBatchLoop_spec hloop
    have hdrop : (s.path.take s.idx ++ kept').drop s.idx = kept' := by
      apply List.drop_left'
      simp [hle]
    obtain ⟨rfl, rfl⟩ := Prod.mk.inj (Option.some.inj hs')
    rw [hdrop]
    exact ⟨started, _, hstarted, hloop, hsub, rfl⟩

@[simp] theorem suspend_phase (pending : List (CpnId × Component))
    (s : RunState) : (suspend w pending s).phase = .suspended := rfl

@[simp] theorem fail_phase (s : RunState) : (fail s).phase = .failed := rfl

/-- The entries that are looked up are components with their ids. -/
theorem getComponent_of_mem_lookupAll {ids : List CpnId}
    {pending : List (CpnId × Component)}
    (h : lookupAll dsl ids = some pending) :
    ∀ entry ∈ pending, dsl.getComponent entry.1 = some entry.2 := by
  induction ids generalizing pending with
  | nil =>
      have hnil : pending = [] := by simpa [lookupAll] using h.symm
      simp [hnil]
  | cons c ids ih =>
      simp only [lookupAll, List.mapM_cons, Option.bind_eq_bind,
        Option.bind_eq_some_iff, Option.map_eq_some_iff] at h
      obtain ⟨entry, ⟨cpn, hcpn, rfl⟩, rest, hrest, hpending⟩ := h
      obtain rfl := Option.some.inj hpending
      rw [List.forall_mem_cons]
      exact ⟨hcpn, ih hrest⟩

/-- A batch ends in one of three ways. -/
theorem closeBatch_cases {s t : RunState} {stop : ℕ}
    (h : closeBatch w dsl s stop = some t) :
    (s.error = "" ∧ t = { s with idx := stop }) ∨
    (s.error = "" ∧ ∃ pending, lookupAll dsl (s.path.drop stop) = some pending ∧
      (∃ entry ∈ pending, entry.2.kind.isUserFillUp = true) ∧
      t = suspend w pending { s with idx := stop }) ∨
    (s.error ≠ "" ∧ t = fail s) := by
  unfold closeBatch at h
  split at h
  · rename_i hok
    obtain ⟨pending, hpending, h⟩ := Option.bind_eq_some_iff.mp h
    split at h
    · rename_i hany
      refine Or.inr (Or.inl ⟨hok, pending, hpending, ?_,
        (Option.some.inj h).symm⟩)
      simpa using hany
    · exact Or.inl ⟨hok, (Option.some.inj h).symm⟩
  · rename_i herror
    exact Or.inr (Or.inr ⟨herror, (Option.some.inj h).symm⟩)

/-- A step is a batch or the end of the run, and both are taken only while the
run is going. -/
theorem step_cases {s t : RunState} (h : step w dsl s = some t) :
    s.phase = .running ∧
      ((s.idx < s.path.length ∧ ∃ s' kept s'',
          invokeBatch w dsl s = some (s', kept) ∧
          kept.foldlM (postProcess w dsl) s' = some s'' ∧
          closeBatch w dsl s'' s'.path.length = some t) ∨
        (¬ s.idx < s.path.length ∧ ∃ last, s.path.getLast? = some last ∧
          t = { s with
            events := s.events ++ [.workflowFinished (s.heap.outputAll last)]
            phase := .finished })) := by
  unfold step at h
  split at h
  · rename_i hrunning
    refine ⟨hrunning, ?_⟩
    split at h
    · rename_i hlt
      refine Or.inl ⟨hlt, ?_⟩
      simp only [batch, Option.bind_eq_bind, Option.bind_eq_some_iff] at h
      obtain ⟨⟨s', kept⟩, hinvoke, s'', hfold, hclose⟩ := h
      exact ⟨s', kept, s'', hinvoke, hfold, hclose⟩
    · rename_i hge
      refine Or.inr ⟨hge, ?_⟩
      simp only [finish, Option.bind_eq_bind, Option.bind_eq_some_iff] at h
      obtain ⟨last, hlast, ht⟩ := h
      exact ⟨last, hlast, (Option.some.inj ht).symm⟩
  · simp at h

/-- A step after which the run is still going is a batch without error that did
not stop for the user. -/
theorem step_running {s t : RunState} (hstep : step w dsl s = some t)
    (hrunning : t.phase = .running) :
    s.idx < s.path.length ∧ ∃ s' kept s'',
      invokeBatch w dsl s = some (s', kept) ∧
      kept.foldlM (postProcess w dsl) s' = some s'' ∧
      t = { s'' with idx := s'.path.length } := by
  obtain ⟨-, ⟨hlt, s', kept, s'', hinvoke, hfold, hclose⟩ |
    ⟨-, last, -, rfl⟩⟩ := step_cases hstep
  · refine ⟨hlt, s', kept, s'', hinvoke, hfold, ?_⟩
    rcases closeBatch_cases hclose with ⟨-, heq⟩ | ⟨-, pending, -, -, heq⟩ |
      ⟨-, heq⟩
    · exact heq
    · rw [heq, suspend_phase] at hrunning
      exact absurd hrunning (by decide)
    · rw [heq, fail_phase] at hrunning
      exact absurd hrunning (by decide)
  · have hfinished : Phase.finished = Phase.running := hrunning
    exact absurd hfinished (by decide)

/-! ## The record of the batches -/

/-- Up to `idx`, `path` is what was there before the run followed by what the
run has invoked. -/
structure FrontInv (prior : List CpnId) (s : RunState) : Prop where
  idx_le : s.idx ≤ s.path.length
  front : s.path.take s.idx = prior ++ s.batches.flatten

theorem startRun_frontInv (h : Heap) (prior : List CpnId) (c : CpnId) :
    FrontInv prior (startRun h (prior ++ [c])) := by
  constructor
  · simp [startRun]
  · simp [startRun]

/-- While a run is going, the front of `path` is the record of its batches. -/
theorem step_frontInv {prior : List CpnId} {s t : RunState}
    (hinv : FrontInv prior s) (hstep : step w dsl s = some t)
    (hrunning : t.phase = .running) : FrontInv prior t := by
  obtain ⟨-, s', kept, s'', hinvoke, hfold, rfl⟩ :=
    step_running hstep hrunning
  obtain ⟨started, heap, -, -, -, rfl⟩ := invokeBatch_spec hinv.idx_le hinvoke
  obtain ⟨hrun, hpfx⟩ := foldlM_postProcess_frame hfold
  have hfront : s''.path.take (s.path.take s.idx ++ kept).length =
      s.path.take s.idx ++ kept :=
    (List.prefix_iff_eq_take.mp hpfx).symm
  have hbatches : s''.batches = s.batches ++ [kept] := hrun.batches
  refine ⟨hpfx.length_le, ?_⟩
  show s''.path.take (s.path.take s.idx ++ kept).length =
    prior ++ s''.batches.flatten
  rw [hfront, hbatches, hinv.front]
  simp

theorem reach_frontInv {P : RunState → Prop} {h : Heap} {prior : List CpnId}
    {c : CpnId} {s : RunState}
    (hs : Reach (step w dsl) P (startRun h (prior ++ [c])) s)
    (hrunning : s.phase = .running) : FrontInv prior s := by
  have hinv : s.phase = .running → FrontInv prior s := by
    refine Reach.invariant
      (I := fun s => s.phase = .running → FrontInv prior s) ?_ ?_ hs
    · intro _
      exact startRun_frontInv h prior c
    · intro s t ih _ hstep ht
      exact step_frontInv (ih (step_cases hstep).1) hstep ht
  exact hinv hrunning

end RagflowMineru.Agent
