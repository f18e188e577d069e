import RagflowMineru.Agent.Canvas.Steps
import RagflowMineru.Agent.Collation

/-!
# What the post-processing of a batch reports

The post-processing of one component reports its end or puts it into
`partials`, and drains the queue when a message component speaks.  The end of a
container is reported by its item component, once that is at its end.  So for a
component that is not a container every invocation settles one end.
-/

namespace RagflowMineru.Agent

open RagflowMineru.Library

variable {w : World} {dsl : Dsl}

/-! ## Events of one component -/

/-- `node_started` of `d`. -/
def startsOf (d : CpnId) : Event → Bool
  | .nodeStarted c _ => c = d
  | _ => false

/-- `node_finished` of `d`. -/
def finishesOf (d : CpnId) : Event → Bool
  | .nodeFinished c _ _ => c = d
  | _ => false

theorem finishesOf_eq_false_of_startsOf (d : CpnId) (e : Event)
    (h : startsOf d e = true) : finishesOf d e = false := by
  cases e with
  | nodeStarted c thoughts => rfl
  | _ => simp [startsOf] at h

/-- The component is not an `Iteration` or a `Loop`. -/
def NotContainer (dsl : Dsl) (d : CpnId) : Prop :=
  ∃ cpn, dsl.getComponent d = some cpn ∧ cpn.kind.isContainer = false

/-- An item component that has the end marker lies in a container.  The marker
is set by `_invoke` and `end()` only, and both read the parameters of the
container first. -/
def EndsInside (dsl : Dsl) (h : Heap) : Prop :=
  ∀ c cpn pid parent, dsl.getComponent c = some cpn →
    (cpn.kind.isIterationItem || cpn.kind.isLoopItem) = true →
    dsl.getParent c = some (some (pid, parent)) →
    (h.objs c).idx = -1 → parent.kind.isContainer = true

/-- The invocations of a world keep to that. -/
structure World.KeepsEndsInside (w : World) (dsl : Dsl) : Prop where
  gather : ∀ n kept h, EndsInside dsl h → EndsInside dsl (w.gather n kept h)
  stream : ∀ h c, EndsInside dsl h → EndsInside dsl (w.stream h c).1

/-! ## What the post-processing reports -/

/-- The ends of `d` that were reported or are waiting in the queue. -/
def settled (d : CpnId) (s : RunState) : ℕ :=
  s.events.countP (finishesOf d) + s.partials.count d

/-- From `s` to `s'` no start is reported, and `n` ends of `d` are reported or
put into the queue. -/
structure Settles (d : CpnId) (n : ℕ) (s s' : RunState) : Prop where
  events : ∃ new, s'.events = s.events ++ new ∧ new.countP (startsOf d) = 0
  settled : settled d s' = settled d s + n

theorem Settles.refl (d : CpnId) (s : RunState) : Settles d 0 s s :=
  ⟨⟨[], by simp, by simp⟩, by simp⟩

theorem Settles.trans {d : CpnId} {m n : ℕ} {s t u : RunState}
    (hst : Settles d m s t) (htu : Settles d n t u) :
    Settles d (m + n) s u := by
  obtain ⟨new, hnew, hzero⟩ := hst.events
  obtain ⟨new', hnew', hzero'⟩ := htu.events
  constructor
  · refine ⟨new ++ new', ?_, ?_⟩
    · rw [hnew', hnew, List.append_assoc]
    · rw [List.countP_append, hzero, hzero']
  · rw [htu.settled, hst.settled]
    omega

theorem nodeFinished_counts {h : Heap} {c : CpnId} {e : Event}
    (hfinished : nodeFinished h c = some e) (d : CpnId) :
    startsOf d e = false ∧ finishesOf d e = decide (c = d) := by
  simp only [nodeFinished, Option.bind_eq_bind,
    Option.bind_eq_some_iff] at hfinished
  obtain ⟨created, -, he⟩ := hfinished
  obtain rfl := Option.some.inj he
  exact ⟨rfl, rfl⟩

theorem processStream_counts (chunks : List String) (d : CpnId) :
    (processStream chunks).1.countP (startsOf d) = 0 ∧
      (processStream chunks).1.countP (finishesOf d) = 0 := by
  induction chunks with
  | nil => exact ⟨rfl, rfl⟩
  | cons m rest ih =>
      simp only [processStream]
      split_ifs
      · exact ih
      · simpa [startsOf, finishesOf] using ih
      · simpa [startsOf, finishesOf] using ih
      · simpa [startsOf, finishesOf] using ih

/-- The queue is drained from the front, with one end for each entry. -/
theorem drainPartials_spec {h : Heap} {partials left : List CpnId}
    {events : List Event}
    (hdrain : drainPartials h partials = some (events, left)) :
    ∃ done, partials = done ++ left ∧ ∀ d,
      events.countP (startsOf d) = 0 ∧
        events.countP (finishesOf d) = done.count d := by
  induction partials generalizing events with
  | nil =>
      obtain ⟨rfl, rfl⟩ := Prod.mk.inj (Option.some.inj hdrain)
      exact ⟨[], rfl, fun d => ⟨rfl, rfl⟩⟩
  | cons c rest ih =>
      by_cases hstream : (h.output c "content").isStream = true
      · rw [drainPartials, if_pos hstream] at hdrain
        obtain ⟨rfl, rfl⟩ := Prod.mk.inj (Option.some.inj hdrain)
        exact ⟨[], rfl, fun d => ⟨rfl, rfl⟩⟩
      · rw [drainPartials, if_neg hstream] at hdrain
        simp only [Option.bind_eq_bind, Option.bind_eq_some_iff] at hdrain
        obtain ⟨finished, hfinished, ⟨events', left'⟩, hrest, hpair⟩ := hdrain
        obtain ⟨rfl, rfl⟩ := Prod.mk.inj (Option.some.inj hpair)
        obtain ⟨done, hdone, hcounts⟩ := ih hrest
        refine ⟨c :: done, by simp [hdone], ?_⟩
        intro d
        obtain ⟨hstart, hend⟩ := nodeFinished_counts hfinished d
        obtain ⟨hstarts, hends⟩ := hcounts d
        constructor
        · rw [List.countP_cons, hstart, hstarts]
          rfl
        · rw [List.countP_cons, hend, hends, List.count_cons]
          simp

/-- A message component reports what it says and drains the queue. -/
theorem speak_cases {c : CpnId} {s s' : RunState}
    (h : speak w c s = some s') :
    ∃ heap spoken finished left,
      (heap = s.heap ∨ ∃ text, heap =
        (w.stream s.heap c).1.setOutput c "content" (.str text)) ∧
      (∀ d, spoken.countP (startsOf d) = 0 ∧
        spoken.countP (finishesOf d) = 0) ∧
      drainPartials heap s.partials = some (finished, left) ∧
      s' = { s with
        heap := heap
        partials := left
        events := s.events ++ spoken ++ [.messageEnd] ++ finished } := by
  simp only [speak, Option.bind_eq_bind, Option.bind_eq_some_iff] at h
  obtain ⟨⟨finished, left⟩, hdrain, hs'⟩ := h
  obtain rfl := Option.some.inj hs'
  refine ⟨_, _, finished, left, ?_, ?_, hdrain, rfl⟩
  · cases s.heap.output c "content" with
    | stream chunks => exact Or.inr ⟨_, rfl⟩
    | _ => exact Or.inl rfl
  · intro d
    cases s.heap.output c "content" with
    | stream chunks => exact processStream_counts _ d
    | _ => exact ⟨rfl, rfl⟩

theorem speak_settles {c : CpnId} {s s' : RunState}
    (h : speak w c s = some s') (d : CpnId) : Settles d 0 s s' := by
  obtain ⟨heap, spoken, finished, left, -, hspoken, hdrain, rfl⟩ :=
    speak_cases h
  obtain ⟨done, hdone, hcounts⟩ := drainPartials_spec hdrain
  obtain ⟨hstarts, hends⟩ := hcounts d
  obtain ⟨hstarts', hends'⟩ := hspoken d
  constructor
  · refine ⟨spoken ++ [.messageEnd] ++ finished, by simp, ?_⟩
    simp [hstarts', hstarts, startsOf]
  · simp only [settled, List.countP_append, hends', hends, hdone,
      List.count_append]
    simp [finishesOf]
    omega

theorem handleError_settles {cpn : Component} {c : CpnId} {s s' : RunState}
    {otherBranch : Bool} (h : handleError cpn c s = (s', otherBranch))
    (d : CpnId) : Settles d 0 s s' := by
  rcases handleError_cases h with ⟨-, error, rfl⟩ | ⟨-, -, rfl⟩ |
    ⟨-, value, rfl⟩
  · exact ⟨⟨[], by simp, rfl⟩, rfl⟩
  · exact ⟨⟨[], by simp, rfl⟩, rfl⟩
  · refine ⟨⟨_, rfl, rfl⟩, ?_⟩
    simp [settled, finishesOf]

theorem handleError_heap {cpn : Component} {c : CpnId} {s s' : RunState}
    {otherBranch : Bool} (h : handleError cpn c s = (s', otherBranch)) :
    s'.heap = s.heap ∧ s'.partials = s.partials := by
  rcases handleError_cases h with ⟨-, error, rfl⟩ | ⟨-, -, rfl⟩ |
    ⟨-, value, rfl⟩
  · exact ⟨rfl, rfl⟩
  · exact ⟨rfl, rfl⟩
  · exact ⟨rfl, rfl⟩

theorem finishNode_settles {cpn : Component} {c d : CpnId} {s s' : RunState}
    (hcpn : dsl.getComponent c = some cpn) (hd : NotContainer dsl d)
    (h : finishNode cpn c s = some s') :
    Settles d (if c = d then 1 else 0) s s' := by
  rcases finishNode_cases h with ⟨hcontainer, rfl⟩ | ⟨-, rfl⟩ |
    ⟨heap, finished, hfinished, -, rfl⟩
  · have hne : c ≠ d := by
      rintro rfl
      obtain ⟨cpn', hcpn', hnot⟩ := hd
      obtain rfl : cpn' = cpn := Option.some.inj (hcpn'.symm.trans hcpn)
      rw [hcontainer] at hnot
      exact absurd hnot (by decide)
    rw [if_neg hne]
    exact .refl d _
  · refine ⟨⟨[], by simp, rfl⟩, ?_⟩
    simp only [settled, List.count_append, List.count_singleton, beq_iff_eq]
    omega
  · obtain ⟨hstart, hend⟩ := nodeFinished_counts hfinished d
    refine ⟨⟨[finished], rfl, by simp [hstart]⟩, ?_⟩
    simp [settled, hend]
    omega

/-! ## Item components at their end -/

theorem EndsInside.of_idx {h h' : Heap} (hinside : EndsInside dsl h)
    (hidx : ∀ c, (h'.objs c).idx = (h.objs c).idx) : EndsInside dsl h' := by
  intro c cpn pid parent hcpn hitem hparent hend
  exact hinside c cpn pid parent hcpn hitem hparent ((hidx c).symm.trans hend)

/-- A change of the counter of `c` alone is harmless when `c` lies in a
container. -/
theorem EndsInside.of_item {h h' : Heap} {c : CpnId}
    (hinside : EndsInside dsl h)
    (hcontainer : ∀ pid parent,
      dsl.getParent c = some (some (pid, parent)) →
      parent.kind.isContainer = true)
    (hidx : ∀ d, d ≠ c → (h'.objs d).idx = (h.objs d).idx) :
    EndsInside dsl h' := by
  intro d cpn pid parent hcpn hitem hparent hend
  by_cases hd : d = c
  · subst hd
    exact hcontainer pid parent hparent
  · exact hinside d cpn pid parent hcpn hitem hparent
      ((hidx d hd).symm.trans hend)

theorem parentIteration_isContainer {c : CpnId} {found : CpnId × String}
    (hiteration : parentIteration dsl c = some found) {pid : CpnId}
    {parent : Component}
    (hparent : dsl.getParent c = some (some (pid, parent))) :
    parent.kind.isContainer = true := by
  simp only [parentIteration, hparent] at hiteration
  split at hiteration
  · rename_i hkind
    rw [hkind]
    rfl
  · simp at hiteration

theorem parentLoop_isContainer {c : CpnId} {param : LoopParam}
    (hloop : parentLoop dsl c = some param) {pid : CpnId} {parent : Component}
    (hparent : dsl.getParent c = some (some (pid, parent))) :
    parent.kind.isContainer = true := by
  simp only [parentLoop, hparent] at hloop
  split at hloop
  · rename_i hkind
    rw [hkind]
    rfl
  · simp at hloop

theorem setIdx_idx_of_ne {c d : CpnId} (hne : d ≠ c) (i : ℤ) (h : Heap) :
    ((h.setIdx c i).objs d).idx = (h.objs d).idx := by
  simp [Heap.setIdx, Heap.setObj_objs_of_ne h hne]

/-- `IterationItem._invoke` keeps the end markers inside containers. -/
theorem iterationItemInvoke_endsInside (py : Interp) (c : CpnId)
    (canceled canceled' canceled'' : Bool) {h : Heap}
    (hinside : EndsInside dsl h) :
    EndsInside dsl
      (iterationItemInvoke py dsl c canceled canceled' canceled'' h).heap := by
  have hemit : ∀ (items : List Value) (h' : Heap) (d : CpnId), d ≠ c →
      ((emitItem c items canceled'' h').heap.objs d).idx =
        (h'.objs d).idx := by
    intro items h' d hd
    unfold emitItem
    simp only
    split_ifs
    · exact setIdx_idx_of_ne hd _ _
    · simp [canceledOutcome]
    · cases pyIndex items (h'.objs c).idx with
      | none => rfl
      | some item => simp [setIdx_idx_of_ne hd]
  cases hiteration : parentIteration dsl c with
  | none =>
      apply hinside.of_idx
      intro d
      cases canceled <;>
        simp [iterationItemInvoke, hiteration, canceledOutcome]
  | some found =>
      obtain ⟨pid, itemsRef⟩ := found
      apply hinside.of_item (c := c)
      · intro pid parent hparent
        exact parentIteration_isContainer hiteration hparent
      · intro d hd
        cases canceled with
        | true => simp [iterationItemInvoke, canceledOutcome]
        | false =>
            cases hreads : getVariableValue py dsl h itemsRef with
            | none => simp [iterationItemInvoke, hiteration, hreads]
            | some value =>
                cases value with
                | list items =>
                    simp only [iterationItemInvoke, hiteration, hreads,
                      Bool.false_eq_true, if_false]
                    split_ifs
                    · simp [canceledOutcome]
                    · unfold Outcome.andThen
                      split
                      · rw [hemit _ _ d hd, outputCollation_idx]
                      · exact outputCollation_idx dsl pid d h
                    · exact hemit items h d hd
                | _ =>
                    simp [iterationItemInvoke, hiteration, hreads,
                      setIdx_idx_of_ne hd]

/-- So does `LoopItem._invoke`. -/
theorem loopItemInvoke_endsInside (c : CpnId) (canceled canceled' : Bool)
    {h : Heap} (hinside : EndsInside dsl h) :
    EndsInside dsl (loopItemInvoke dsl c canceled canceled' h).heap := by
  cases hloop : parentLoop dsl c with
  | none =>
      apply hinside.of_idx
      intro d
      cases canceled <;> simp [loopItemInvoke, hloop, canceledOutcome]
  | some param =>
      apply hinside.of_item (c := c)
      · intro pid parent hparent
        exact parentLoop_isContainer hloop hparent
      · intro d hd
        unfold loopItemInvoke
        rw [hloop]
        simp only
        split_ifs
        · simp [canceledOutcome]
        · exact setIdx_idx_of_ne hd _ _
        · simp [canceledOutcome]
        · exact setIdx_idx_of_ne hd _ _

/-- Only an item in a container reports its end. -/
theorem itemEnd_inside {cpn : Component} {c : CpnId} {h h' : Heap}
    {ended : Bool} (hcpn : dsl.getComponent c = some cpn)
    (hinside : EndsInside dsl h)
    (hend : itemEnd w dsl cpn c h = some (ended, h')) :
    EndsInside dsl h' ∧ (ended = true → ∀ pid parent,
      dsl.getParent c = some (some (pid, parent)) →
      parent.kind.isContainer = true) := by
  have hother : ended = false → h' = h →
      EndsInside dsl h' ∧ (ended = true → ∀ pid parent,
        dsl.getParent c = some (some (pid, parent)) →
        parent.kind.isContainer = true) := by
    rintro rfl rfl
    exact ⟨hinside, fun hfalse => absurd hfalse (by decide)⟩
  cases hkind : cpn.kind with
  | iterationItem =>
      simp only [itemEnd, hkind] at hend
      obtain ⟨rfl, rfl⟩ := Prod.mk.inj (Option.some.inj hend)
      refine ⟨hinside, ?_⟩
      intro hmark pid parent hparent
      have hidx : (h.objs c).idx = -1 := by
        simpa [iterationItemEnd] using hmark
      exact hinside c cpn pid parent hcpn (by simp [hkind, Kind.isIterationItem])
        hparent hidx
  | loopItem =>
      simp only [itemEnd, hkind, loopItemEnd] at hend
      by_cases hmark : (h.objs c).idx = -1
      · rw [if_pos hmark] at hend
        obtain ⟨rfl, rfl⟩ := Prod.mk.inj (Option.some.inj hend)
        refine ⟨hinside, ?_⟩
        intro _ pid parent hparent
        exact hinside c cpn pid parent hcpn (by simp [hkind, Kind.isLoopItem])
          hparent hmark
      · rw [if_neg hmark] at hend
        simp only [Option.bind_eq_bind, Option.bind_eq_some_iff] at hend
        obtain ⟨param, hloop, stop, -, hend⟩ := hend
        have hcontainer : ∀ pid parent,
            dsl.getParent c = some (some (pid, parent)) →
            parent.kind.isContainer = true := by
          intro pid parent hparent
          exact parentLoop_isContainer hloop hparent
        cases stop with
        | true =>
            obtain ⟨rfl, rfl⟩ := Prod.mk.inj (Option.some.inj hend)
            refine ⟨?_, fun _ => hcontainer⟩
            apply hinside.of_item hcontainer
            intro d hd
            exact setIdx_idx_of_ne hd _ _
        | false =>
            obtain ⟨rfl, rfl⟩ := Prod.mk.inj (Option.some.inj hend)
            exact ⟨hinside, fun _ => hcontainer⟩
  | _ =>
      simp only [itemEnd, hkind] at hend
      obtain ⟨hended, hheap⟩ := Prod.mk.inj (Option.some.inj hend)
      exact hother hended.symm hheap.symm

/-- What the post-processing relies on: items end inside containers, and the
queue holds no container. -/
structure PostInv (dsl : Dsl) (s : RunState) : Prop where
  heap : EndsInside dsl s.heap
  queued : ∀ c ∈ s.partials, NotContainer dsl c

theorem speak_postInv (hw : w.KeepsEndsInside dsl) {c : CpnId}
    {s s' : RunState} (hinv : PostInv dsl s) (h : speak w c s = some s') :
    PostInv dsl s' := by
  obtain ⟨heap, spoken, finished, left, hheap, -, hdrain, rfl⟩ := speak_cases h
  obtain ⟨done, hdone, -⟩ := drainPartials_spec hdrain
  constructor
  · show EndsInside dsl heap
    rcases hheap with rfl | ⟨text, rfl⟩
    · exact hinv.heap
    · apply (hw.stream s.heap c hinv.heap).of_idx
      intro d
      simp
  · intro d hd
    apply hinv.queued d
    rw [hdone]
    exact List.mem_append_right done hd

theorem finishNode_postInv {cpn : Component} {c : CpnId} {s s' : RunState}
    (hcpn : dsl.getComponent c = some cpn) (hinv : PostInv dsl s)
    (h : finishNode cpn c s = some s') : PostInv dsl s' := by
  rcases finishNode_cases h with ⟨-, rfl⟩ | ⟨hcontainer, rfl⟩ |
    ⟨heap, finished, -, hheap, rfl⟩
  · exact hinv
  · refine ⟨hinv.heap, ?_⟩
    intro d hd
    rcases List.mem_append.mp hd with hold | hnew
    · exact hinv.queued d hold
    · obtain rfl := List.mem_singleton.mp hnew
      exact ⟨cpn, hcpn, hcontainer⟩
  · refine ⟨?_, hinv.queued⟩
    apply hinv.heap.of_idx
    intro d
    rcases hheap with rfl | rfl
    · rfl
    · simp

theorem successors_settles {cpn : Component} {c : CpnId}
    {otherBranch : Bool} {s s' : RunState} {ids : List CpnId}
    (hcpn : dsl.getComponent c = some cpn) (hinv : PostInv dsl s)
    (h : successors w dsl cpn c otherBranch s = some (s', ids)) :
    PostInv dsl s' ∧ ∀ d, NotContainer dsl d → Settles d 0 s s' := by
  obtain ⟨heap, pid, parent, finished, hend, hparent, hfinished, -, rfl⟩ |
    ⟨heap, hend, -, rfl⟩ := successors_cases h
  · obtain ⟨hheap, hcontainer⟩ := itemEnd_inside hcpn hinv.heap hend
    refine ⟨⟨hheap, hinv.queued⟩, ?_⟩
    intro d hd
    obtain ⟨hstart, hfinish⟩ := nodeFinished_counts hfinished d
    have hne : pid ≠ d := by
      rintro rfl
      obtain ⟨parent', hparent', hnot⟩ := hd
      have hpid := Dsl.getParent_component hparent
      obtain rfl : parent' = parent :=
        Option.some.inj (hparent'.symm.trans hpid)
      rw [hcontainer rfl pid parent' hparent] at hnot
      exact absurd hnot (by decide)
    refine ⟨⟨[finished], rfl, by simp [hstart]⟩, ?_⟩
    simp [settled, hfinish, hne]
  · obtain ⟨hheap, -⟩ := itemEnd_inside hcpn hinv.heap hend
    refine ⟨⟨hheap, hinv.queued⟩, ?_⟩
    intro d _
    exact ⟨⟨[], by simp, rfl⟩, rfl⟩

/-- The post-processing of a component settles its end and no other. -/
theorem postProcess_settles (hw : w.KeepsEndsInside dsl) {s t : RunState}
    {c : CpnId} (hinv : PostInv dsl s) (h : postProcess w dsl s c = some t) :
    PostInv dsl t ∧ ∀ d, NotContainer dsl d →
      Settles d (if c = d then 1 else 0) s t := by
  obtain ⟨s', otherBranch, ids, hprepare, rfl⟩ := postProcess_cases h
  obtain ⟨cpn, spoken, handled, noted, hcpn, hspoken, hhandled, hnoted,
    hsucc⟩ := prepare_cases hprepare
  have hspeak : PostInv dsl spoken ∧ ∀ d, Settles d 0 s spoken := by
    unfold speakIfMessage at hspoken
    split at hspoken
    · exact ⟨speak_postInv hw hinv hspoken, speak_settles hspoken⟩
    · obtain rfl := Option.some.inj hspoken
      exact ⟨hinv, fun d => .refl d s⟩
  have hinv' : PostInv dsl handled := by
    obtain ⟨hheap, hpartials⟩ := handleError_heap hhandled
    constructor
    · rw [hheap]
      exact hspeak.1.heap
    · rw [hpartials]
      exact hspeak.1.queued
  obtain ⟨hinv'', hend⟩ :=
    successors_settles hcpn (finishNode_postInv hcpn hinv' hnoted) hsucc
  refine ⟨⟨hinv''.heap, hinv''.queued⟩, ?_⟩
  intro d hd
  have hall := (((hspeak.2 d).trans (handleError_settles hhandled d)).trans
    (finishNode_settles hcpn hd hnoted)).trans (hend d hd)
  simp only [Nat.zero_add, Nat.add_zero] at hall
  exact ⟨hall.events, hall.settled⟩

theorem foldlM_postProcess_settles (hw : w.KeepsEndsInside dsl)
    {s t : RunState} {kept : List CpnId} (hinv : PostInv dsl s)
    (h : kept.foldlM (postProcess w dsl) s = some t) :
    PostInv dsl t ∧ ∀ d, NotContainer dsl d →
      Settles d (kept.count d) s t := by
  induction kept generalizing s with
  | nil =>
      obtain rfl := Option.some.inj h
      exact ⟨hinv, fun d _ => .refl d s⟩
  | cons c kept ih =>
      rw [List.foldlM_cons] at h
      obtain ⟨u, hstep, hrest⟩ := Option.bind_eq_some_iff.mp h
      obtain ⟨hinv', hone⟩ := postProcess_settles hw hinv hstep
      obtain ⟨hinv'', hmany⟩ := ih hinv' hrest
      refine ⟨hinv'', ?_⟩
      intro d hd
      have hall := (hone d hd).trans (hmany d hd)
      refine ⟨hall.events, ?_⟩
      rw [hall.settled, List.count_cons]
      simp only [beq_iff_eq]
      omega

end RagflowMineru.Agent
