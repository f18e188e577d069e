import RagflowMineru.Agent.Canvas.Join
import RagflowMineru.Agent.Canvas.Settlement
import RagflowMineru.Library.Pairing

/-!
# The event stream

Every `node_started` event is meant to be followed by one `node_finished` event
of the same component.  The start is reported for the whole batch before the
readiness test takes entries out of it, and the end of a component with a
pending stream waits in `partials` for a later message component.  The events
pair up exactly when no test has taken out such a component and the queue is
empty.
-/

namespace RagflowMineru.Agent

open RagflowMineru.Library

variable {w : World} {dsl : Dsl}

/-- The readiness test takes nothing but containers out of the coming batch. -/
def DropsOnlyContainers (w : World) (dsl : Dsl) (s : RunState) : Prop :=
  ∀ path, runBatchLoop w dsl s.heap (s.path.head?.any namesUserFillUp)
      (s.path.take s.idx) (s.path.drop s.idx) = some path →
    ∀ d, NotContainer dsl d →
      (path.drop s.idx).count d = (s.path.drop s.idx).count d

/-! ## Whole runs -/

theorem mapM_nodeStarted_counts {h : Heap} {slice : List CpnId}
    {started : List Event}
    (hstarted : slice.mapM (nodeStarted w dsl h) = some started) (d : CpnId) :
    started.countP (startsOf d) = slice.count d ∧
      started.countP (finishesOf d) = 0 := by
  induction slice generalizing started with
  | nil =>
      obtain rfl := Option.some.inj hstarted
      exact ⟨rfl, rfl⟩
  | cons c slice ih =>
      simp only [List.mapM_cons, Option.bind_eq_bind,
        Option.bind_eq_some_iff] at hstarted
      obtain ⟨e, he, rest, hrest, hevents⟩ := hstarted
      obtain rfl := Option.some.inj hevents
      simp only [nodeStarted, Option.bind_eq_bind,
        Option.bind_eq_some_iff] at he
      obtain ⟨cpn, -, thoughts, -, hevent⟩ := he
      obtain rfl := Option.some.inj hevent
      obtain ⟨hstarts, hends⟩ := ih hrest
      constructor
      · rw [List.countP_cons, hstarts, List.count_cons]
        simp [startsOf]
      · rw [List.countP_cons, hends]
        rfl

/-- The starts of `d` that were reported. -/
def started (d : CpnId) (s : RunState) : ℕ :=
  s.events.countP (startsOf d)

/-- The bookkeeping of a run: every invocation of a component that is not a
container has its end reported or waiting, and its start reported. -/
structure EventInv (dsl : Dsl) (s : RunState) : Prop where
  queued : ∀ c ∈ s.partials, NotContainer dsl c
  settled : ∀ d, NotContainer dsl d → settled d s = s.batches.flatten.count d
  started : ∀ d, NotContainer dsl d →
    s.batches.flatten.count d ≤ started d s
  ordered : ∀ d, NotContainer dsl d →
    Ordered (startsOf d) (finishesOf d) s.events

/-- The end of a batch reports no start and no end of a component. -/
theorem closeBatch_books {s t : RunState} {stop : ℕ}
    (h : closeBatch w dsl s stop = some t) :
    (∃ extra, t.events = s.events ++ extra ∧ ∀ d,
      extra.countP (startsOf d) = 0 ∧ extra.countP (finishesOf d) = 0) ∧
    t.partials = s.partials ∧ t.batches = s.batches ∧
    (t.phase = .running → t.heap = s.heap) := by
  rcases closeBatch_cases h with ⟨-, rfl⟩ | ⟨-, pending, -, -, rfl⟩ | ⟨-, rfl⟩
  · exact ⟨⟨[], by simp, fun d => ⟨rfl, rfl⟩⟩, rfl, rfl, fun _ => rfl⟩
  · refine ⟨⟨_, rfl, fun d => ⟨rfl, rfl⟩⟩, rfl, rfl, ?_⟩
    intro hrunning
    rw [suspend_phase] at hrunning
    exact absurd hrunning (by decide)
  · refine ⟨?_, rfl, rfl, ?_⟩
    · unfold fail
      split
      · exact ⟨_, rfl, fun d => ⟨rfl, rfl⟩⟩
      · exact ⟨[], by simp, fun d => ⟨rfl, rfl⟩⟩
    · intro hrunning
      rw [fail_phase] at hrunning
      exact absurd hrunning (by decide)

theorem invokeBatch_endsInside (hw : w.KeepsEndsInside dsl) {s s' : RunState}
    {kept : List CpnId} (hheap : EndsInside dsl s.heap)
    (hinvoke : invokeBatch w dsl s = some (s', kept)) :
    EndsInside dsl s'.heap := by
  simp only [invokeBatch, Option.bind_eq_bind,
    Option.bind_eq_some_iff] at hinvoke
  obtain ⟨reported, -, hinvoke⟩ := hinvoke
  split at hinvoke
  · simp at hinvoke
  · obtain ⟨path, -, hs'⟩ := Option.bind_eq_some_iff.mp hinvoke
    obtain ⟨rfl, -⟩ := Prod.mk.inj (Option.some.inj hs')
    show EndsInside dsl (if _ then _ else _)
    split
    · exact hheap
    · exact hw.gather _ _ _ hheap

/-- What a batch adds to the books: the starts of its whole slice, and the
invocations and ends of the entries that were kept. -/
theorem batch_books (hw : w.KeepsEndsInside dsl) {s s' s'' t : RunState}
    {kept : List CpnId} (hle : s.idx ≤ s.path.length)
    (hheap : EndsInside dsl s.heap) (hqueued : ∀ c ∈ s.partials,
      NotContainer dsl c)
    (hinvoke : invokeBatch w dsl s = some (s', kept))
    (hfold : kept.foldlM (postProcess w dsl) s' = some s'')
    (hclose : closeBatch w dsl s'' s'.path.length = some t) :
    t.batches = s.batches ++ [kept] ∧
    (∀ c ∈ t.partials, NotContainer dsl c) ∧
    (t.phase = .running → EndsInside dsl t.heap) ∧
    ∀ d, NotContainer dsl d →
      started d t = started d s + (s.path.drop s.idx).count d ∧
      settled d t = settled d s + kept.count d ∧
      (Ordered (startsOf d) (finishesOf d) s.events →
        settled d t ≤ started d t →
        Ordered (startsOf d) (finishesOf d) t.events) := by
  have hgather := invokeBatch_endsInside hw hheap hinvoke
  obtain ⟨reported, heap, hreported, -, -, rfl⟩ := invokeBatch_spec hle hinvoke
  obtain ⟨hpost, hsettles⟩ :=
    foldlM_postProcess_settles hw ⟨hgather, hqueued⟩ hfold
  obtain ⟨⟨extra, hextra, hsilent⟩, hpartials, hbatches, hheap'⟩ :=
    closeBatch_books hclose
  refine ⟨?_, ?_, ?_, ?_⟩
  · rw [hbatches]
    exact (foldlM_postProcess_frame hfold).1.batches
  · rw [hpartials]
    exact hpost.queued
  · intro hrunning
    rw [hheap' hrunning]
    exact hpost.heap
  · intro d hd
    obtain ⟨hstarts, hends⟩ := mapM_nodeStarted_counts hreported d
    obtain ⟨⟨new, hnew, hzero⟩, hsettled⟩ := hsettles d hd
    obtain ⟨hextraStarts, hextraEnds⟩ := hsilent d
    have hevents : t.events = s.events ++ reported ++ new ++ extra := by
      rw [hextra, hnew]
    have hstarted : started d t =
        started d s + (s.path.drop s.idx).count d := by
      simp only [started, hevents, List.countP_append, hstarts, hzero,
        hextraStarts]
      omega
    have hsettled' : settled d t = settled d s + kept.count d := by
      have hsame : settled d t = settled d s'' := by
        simp [settled, hextra, hpartials, hextraEnds]
      rw [hsame, hsettled]
      simp [settled, hends]
    refine ⟨hstarted, hsettled', ?_⟩
    intro hordered hbound
    rw [hevents]
    apply Ordered.append_opens _ hextraEnds
    apply (hordered.append_opens hends).append_closes
    -- the ends reported so far are among those settled
    have hcloses : t.events.countP (finishesOf d) ≤ settled d t :=
      Nat.le_add_right _ _
    have hopens : started d t =
        (s.events ++ reported).countP (startsOf d) := by
      simp [started, hevents, hzero, hextraStarts]
    rw [hevents, List.countP_append, List.countP_append] at hcloses
    omega

theorem startRun_eventInv (h : Heap) (path : List CpnId) :
    EventInv dsl (startRun h path) := by
  have hsilent : ∀ d, NotContainer dsl d →
      Ordered (startsOf d) (finishesOf d) [Event.workflowStarted] := by
    intro d _
    exact ordered_nil.append_opens (m := [Event.workflowStarted]) rfl
  exact ⟨by simp [startRun], fun d _ => by simp [startRun, settled, finishesOf],
    fun d _ => by simp [startRun], hsilent⟩

theorem step_eventInv (hw : w.KeepsEndsInside dsl) {s t : RunState}
    (hle : s.idx ≤ s.path.length) (hheap : EndsInside dsl s.heap)
    (hinv : EventInv dsl s) (hstep : step w dsl s = some t) :
    EventInv dsl t ∧ (t.phase = .running → EndsInside dsl t.heap) := by
  obtain ⟨-, ⟨-, s', kept, s'', hinvoke, hfold, hclose⟩ |
    ⟨-, last, -, rfl⟩⟩ := step_cases hstep
  · obtain ⟨hbatches, hqueued, hheap', hbooks⟩ :=
      batch_books hw hle hheap hinv.queued hinvoke hfold hclose
    obtain ⟨-, -, -, -, hsub, -⟩ := invokeBatch_spec hle hinvoke
    have hsettled : ∀ d, NotContainer dsl d →
        settled d t = t.batches.flatten.count d := by
      intro d hd
      obtain ⟨-, hsettled, -⟩ := hbooks d hd
      rw [hsettled, hinv.settled d hd, hbatches]
      simp
    have hstarted : ∀ d, NotContainer dsl d →
        t.batches.flatten.count d ≤ started d t := by
      intro d hd
      obtain ⟨hstarted, -, -⟩ := hbooks d hd
      have hold := hinv.started d hd
      have hkept := hsub.count_le d
      rw [hstarted, hbatches]
      simp
      omega
    refine ⟨⟨hqueued, hsettled, hstarted, ?_⟩, hheap'⟩
    intro d hd
    obtain ⟨-, -, hordered⟩ := hbooks d hd
    apply hordered (hinv.ordered d hd)
    rw [hsettled d hd]
    exact hstarted d hd
  · refine ⟨⟨hinv.queued, ?_, ?_, ?_⟩, ?_⟩
    · intro d hd
      have hsettled := hinv.settled d hd
      simpa [settled, finishesOf] using hsettled
    · intro d hd
      have hstarted := hinv.started d hd
      simpa [started, startsOf] using hstarted
    · intro d hd
      exact (hinv.ordered d hd).append_opens rfl
    · intro hrunning
      exact absurd hrunning (by simp)

/-- A run from a path whose last entry is `c`, with its bookkeeping. -/
theorem reach_eventInv (hw : w.KeepsEndsInside dsl) {h : Heap}
    (hheap : EndsInside dsl h) {prior : List CpnId} {c : CpnId} {s : RunState}
    (hs : Reachable (step w dsl) (startRun h (prior ++ [c])) s) :
    EventInv dsl s ∧
      (s.phase = .running → s.idx ≤ s.path.length ∧ EndsInside dsl s.heap) := by
  have hinv : EventInv dsl s ∧
      (s.phase = .running → FrontInv prior s ∧ EndsInside dsl s.heap) := by
    refine Reach.invariant (I := fun s => EventInv dsl s ∧
      (s.phase = .running → FrontInv prior s ∧ EndsInside dsl s.heap)) ?_ ?_ hs
    · refine ⟨startRun_eventInv h _, fun _ => ⟨startRun_frontInv h prior c, ?_⟩⟩
      exact hheap
    · rintro s t ⟨hevents, hrunning⟩ - hstep
      obtain ⟨hfront, hheap'⟩ := hrunning (step_cases hstep).1
      obtain ⟨hevents', hheap''⟩ :=
        step_eventInv hw hfront.idx_le hheap' hevents hstep
      refine ⟨hevents', fun ht => ⟨?_, hheap'' ht⟩⟩
      exact step_frontInv hfront hstep ht
  refine ⟨hinv.1, fun ht => ?_⟩
  obtain ⟨hfront, hheap'⟩ := hinv.2 ht
  exact ⟨hfront.idx_le, hheap'⟩

/-! ## When the events pair up -/

/-- Every start that was reported belongs to an invocation. -/
def NothingDropped (dsl : Dsl) (s : RunState) : Prop :=
  ∀ d, NotContainer dsl d → started d s = s.batches.flatten.count d

/-- Nothing has been dropped after a step exactly when nothing had been before
and the step drops containers at most. -/
theorem step_nothingDropped_iff (hw : w.KeepsEndsInside dsl) {s t : RunState}
    (hle : s.idx ≤ s.path.length) (hheap : EndsInside dsl s.heap)
    (hinv : EventInv dsl s) (hstep : step w dsl s = some t) :
    NothingDropped dsl t ↔
      NothingDropped dsl s ∧ DropsOnlyContainers w dsl s := by
  obtain ⟨-, ⟨-, s', kept, s'', hinvoke, hfold, hclose⟩ |
    ⟨hge, last, -, rfl⟩⟩ := step_cases hstep
  · obtain ⟨hbatches, -, -, hbooks⟩ :=
      batch_books hw hle hheap hinv.queued hinvoke hfold hclose
    obtain ⟨-, -, -, hloop, hsub, -⟩ := invokeBatch_spec hle hinvoke
    have hdrop : (s.path.take s.idx ++ kept).drop s.idx = kept := by
      apply List.drop_left'
      simp [hle]
    have hslice : DropsOnlyContainers w dsl s ↔ ∀ d, NotContainer dsl d →
        kept.count d = (s.path.drop s.idx).count d := by
      constructor
      · intro hdrops d hd
        have hcount := hdrops _ hloop d hd
        rwa [hdrop] at hcount
      · intro hcounts path hpath d hd
        obtain rfl := Option.some.inj (hloop.symm.trans hpath)
        rw [hdrop]
        exact hcounts d hd
    have hcount : ∀ d, NotContainer dsl d →
        (started d t = t.batches.flatten.count d ↔
          started d s = s.batches.flatten.count d ∧
            kept.count d = (s.path.drop s.idx).count d) := by
      intro d hd
      obtain ⟨hstarted, -, -⟩ := hbooks d hd
      have hold := hinv.started d hd
      have hkept := hsub.count_le d
      have hflatten : t.batches.flatten.count d =
          s.batches.flatten.count d + kept.count d := by
        rw [hbatches]
        simp
      rw [hstarted, hflatten]
      omega
    rw [hslice]
    constructor
    · intro h
      exact ⟨fun d hd => ((hcount d hd).mp (h d hd)).1,
        fun d hd => ((hcount d hd).mp (h d hd)).2⟩
    · rintro ⟨hs, hkept⟩ d hd
      exact (hcount d hd).mpr ⟨hs d hd, hkept d hd⟩
  · have hslice : s.path.drop s.idx = [] := by
      rw [List.drop_eq_nil_iff]
      exact not_lt.mp hge
    have hdrops : DropsOnlyContainers w dsl s := by
      intro path hpath d _
      rw [hslice] at hpath
      obtain rfl := Option.some.inj hpath
      rw [hslice, List.drop_take_self]
    rw [and_iff_left hdrops]
    simp [NothingDropped, started, startsOf]

/-- Nothing has been dropped so far exactly when no readiness test has taken
out more than containers. -/
theorem reach_dropsOnlyContainers_iff (hw : w.KeepsEndsInside dsl) {h : Heap}
    (hheap : EndsInside dsl h) {prior : List CpnId} {c : CpnId} {s : RunState}
    (hs : Reachable (step w dsl) (startRun h (prior ++ [c])) s) :
    Reach (step w dsl) (DropsOnlyContainers w dsl)
        (startRun h (prior ++ [c])) s ↔
      NothingDropped dsl s := by
  -- the step lemma with its invariants supplied
  have hiff : ∀ s t, Reachable (step w dsl) (startRun h (prior ++ [c])) s →
      step w dsl s = some t → (NothingDropped dsl t ↔
        NothingDropped dsl s ∧ DropsOnlyContainers w dsl s) := by
    intro s t hs hstep
    obtain ⟨hinv, hrunning⟩ := reach_eventInv hw hheap hs
    obtain ⟨hle, hheap'⟩ := hrunning (step_cases hstep).1
    exact step_nothingDropped_iff hw hle hheap' hinv hstep
  constructor
  · intro hreach
    clear hs
    induction hreach with
    | refl =>
        intro d _
        simp [started, startRun, startsOf]
    | next hs hdrops hstep ih =>
        exact (hiff _ _ hs.reachable hstep).mpr ⟨ih, hdrops⟩
  · intro hnothing
    apply Reach.of_final (I := NothingDropped dsl) _ hs hnothing
    intro s t hs hstep ht
    exact (hiff s t hs hstep).mp ht

/-- Every start of a component that is not a container is followed by one end of
it. -/
def EventsPairUp (dsl : Dsl) (s : RunState) : Prop :=
  ∀ d, NotContainer dsl d → PairsUp (startsOf d) (finishesOf d) s.events

/-- At every point of a run the events pair up exactly when no readiness test
so far has taken out more than containers, and no component waits in the
queue. -/
theorem eventsPairUp_iff (hw : w.KeepsEndsInside dsl) {h : Heap}
    (hheap : EndsInside dsl h) {prior : List CpnId} {c : CpnId} {s : RunState}
    (hs : Reachable (step w dsl) (startRun h (prior ++ [c])) s) :
    EventsPairUp dsl s ↔
      Reach (step w dsl) (DropsOnlyContainers w dsl)
          (startRun h (prior ++ [c])) s ∧ s.partials = [] := by
  obtain ⟨hinv, -⟩ := reach_eventInv hw hheap hs
  rw [reach_dropsOnlyContainers_iff hw hheap hs]
  have hpairs : ∀ d, NotContainer dsl d →
      (PairsUp (startsOf d) (finishesOf d) s.events ↔
        started d s = s.batches.flatten.count d ∧ s.partials.count d = 0) := by
    intro d hd
    rw [pairsUp_iff (finishesOf_eq_false_of_startsOf d),
      and_iff_left (hinv.ordered d hd)]
    have hsettled := hinv.settled d hd
    have hstarted := hinv.started d hd
    unfold settled at hsettled
    unfold started at hstarted ⊢
    omega
  constructor
  · intro hpair
    constructor
    · intro d hd
      exact ((hpairs d hd).mp (hpair d hd)).1
    · rw [List.eq_nil_iff_forall_not_mem]
      intro d hd
      have hnot := hinv.queued d hd
      have hzero := ((hpairs d hnot).mp (hpair d hnot)).2
      exact List.count_eq_zero.mp hzero hd
  · rintro ⟨hnothing, hempty⟩ d hd
    apply (hpairs d hd).mpr
    refine ⟨hnothing d hd, ?_⟩
    rw [hempty]
    rfl

/-! ## A component that is dropped -/

/-- `b` reads the output of a component that is not on the way to it. -/
def droppedDsl : Dsl where
  components :=
    [("begin", { kind := .begin, downstream := ["b"] }),
     ("b", { kind := .other }),
     ("c", { kind := .other })]
  nodup := by decide

def droppedWorld : World :=
  scriptedWorld (fun c => if c = "b" then ["c"] else []) fun _ => []

/-- The state after the run has finished. -/
def droppedEnd : RunState :=
  (iterate (step droppedWorld droppedDsl) 3 joinStart).getD joinStart

theorem droppedEnd_reachable :
    Reachable (step droppedWorld droppedDsl) joinStart droppedEnd :=
  reachable_iterate rfl

/-- The run finishes, and `node_started` of `b` is left without
`node_finished`. -/
theorem dropped_start_without_end :
    Reachable (step droppedWorld droppedDsl) joinStart droppedEnd ∧
      droppedEnd.phase = .finished ∧
      ¬ EventsPairUp droppedDsl droppedEnd := by
  refine ⟨droppedEnd_reachable, rfl, ?_⟩
  intro hpair
  have hb := hpair "b" ⟨{ kind := .other }, rfl, rfl⟩
  have hbalanced := hb.balanced (finishesOf_eq_false_of_startsOf "b")
  exact absurd hbalanced (by decide)

theorem foldl_setOutput_idx (c x : CpnId) (outputs : Assoc String Value)
    (h : Heap) :
    ((outputs.foldl (fun h e => h.setOutput c e.1 e.2) h).objs x).idx =
      (h.objs x).idx := by
  induction outputs generalizing h with
  | nil => rfl
  | cons e outputs ih =>
      rw [List.foldl_cons, ih, Heap.setOutput_idx]

/-- A scripted world writes outputs only. -/
theorem scriptedWorld_keepsEndsInside (refs : CpnId → List CpnId)
    (outputs : CpnId → Assoc String Value) :
    (scriptedWorld refs outputs).KeepsEndsInside dsl := by
  constructor
  · intro n kept h hinside
    apply hinside.of_idx
    intro x
    simp only [scriptedWorld]
    clear hinside
    induction kept generalizing h with
    | nil => rfl
    | cons c kept ih =>
        rw [List.foldl_cons, ih, foldl_setOutput_idx, Heap.setOutput_idx]
  · intro h c hinside
    exact hinside

theorem diamond_endsInside : EndsInside diamondDsl profileHeap := by
  intro c cpn pid parent hcpn hitem hparent hidx
  exact absurd hidx (by simp [profileHeap])

theorem diamond_eventsPairUp_iff :
    EventsPairUp diamondDsl (diamondState 4) ↔
      Reach (step joinWorld diamondDsl) (DropsOnlyContainers joinWorld diamondDsl)
          joinStart (diamondState 4) ∧ (diamondState 4).partials = [] := by
  have hs : Reachable (step joinWorld diamondDsl)
      (startRun profileHeap ([] ++ ["begin"])) (diamondState 4) :=
    diamond_reach.reachable
  exact eventsPairUp_iff (scriptedWorld_keepsEndsInside _ _)
    diamond_endsInside hs

end RagflowMineru.Agent
