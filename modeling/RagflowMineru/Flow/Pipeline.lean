import RagflowMineru.Agent.Component
import RagflowMineru.Library.Reach
import RagflowMineru.Library.Unfolding

/-!
# The runner of an ingestion pipeline

`Pipeline.run` walks through `path` one component at a time.  Each component is
invoked with the outputs of the entry in front of it, and then its `downstream`
is appended.  The editor lets a component of a pipeline have one successor
only; the runner takes any graph.

Whether the entry in front is an upstream component is settled at the end: it
is for every invocation of a run that completes exactly when no component below
the first one lists two others.  `none` stands for an exception that leaves
`run`.
-/

namespace RagflowMineru.Flow

open RagflowMineru.Library
open RagflowMineru.Agent

/-- What a pipeline meets from outside.

* `canceled`: the readings of `has_canceled`, two in each callback.
* `process`: `_invoke` of a component under its timeout, with its arguments.
* `clock`: the readings of `perf_counter`. -/
structure PipelineWorld where
  canceled : ℕ → Bool
  process : ℕ → CpnId → List (String × Value) → Heap → Outcome
  clock : ℕ → ℚ

/-- One invocation made by the loop of `run`: the component, the entry of
`path` in front of it, what it was given, and the objects at that time. -/
structure Invocation where
  feeder : CpnId
  cpn : CpnId
  input : List (String × Value)
  before : Heap

/-- How far a run has got, with what it returns. -/
inductive PipelinePhase where
  | running
  | finished (result : List (String × Value))
  | failed

/-- The run has returned. -/
def PipelinePhase.isFinished : PipelinePhase → Bool
  | .finished _ => true
  | _ => false

/-- The variables of `Pipeline.run`.  `calls` counts the callbacks and
`invoked` is the record of the invocations of the loop. -/
structure PipelineState where
  heap : Heap
  path : List CpnId
  idx : ℕ := 0
  error : String := ""
  calls : ℕ := 0
  invoked : List Invocation := []
  phase : PipelinePhase := .running

/-! ## Invoking a component -/

/-- The keyword arguments `**cpn_obj.output()`. -/
def outputEntries (h : Heap) (c : CpnId) : List (String × Value) :=
  (h.objs c).outputs.map fun entry => (entry.1, entry.2.getD Value.none)

/-- The exception that a callback raises, if it raises one. -/
def callback (w : PipelineWorld) (calls : ℕ) (message : String) :
    Option String :=
  let message :=
    if w.canceled (2 * calls) then message ++ "[CANCEL]" else message
  if w.canceled (2 * calls + 1) then some message else none

/-- The `try` block of `ProcessBase.invoke`. -/
def tryProcess (w : PipelineWorld) (c : CpnId)
    (kwargs : List (String × Value)) (calls : ℕ) (h : Heap) : Outcome × ℕ :=
  let out := w.process calls c kwargs h
  match out.raised with
  | some _ => (out, calls)
  | none => ({ out with raised := callback w calls "Done" }, calls + 1)

/-- The `except` branch of `ProcessBase.invoke`. -/
def exceptProcess (w : PipelineWorld) (cpn : Component) (c : CpnId)
    (out : Outcome) (calls : ℕ) : Option (Heap × ℕ) :=
  match out.raised with
  | none => some (out.heap, calls)
  | some message =>
      match callback w calls message with
      | none => some (cpn.handleException c message out.heap, calls + 1)
      | some _ => none

/-- `ProcessBase.invoke`. -/
def processInvoke (w : PipelineWorld) (cpn : Component) (c : CpnId)
    (kwargs : List (String × Value)) (calls : ℕ) (h : Heap) :
    Option (Heap × ℕ) := do
  let h := h.setOutput c "_created_time" (.float (w.clock (2 * calls)))
  let h := kwargs.foldl (fun h entry => h.setOutput c entry.1 entry.2) h
  let (out, calls) := tryProcess w c kwargs calls h
  let (h, calls) ← exceptProcess w cpn c out calls
  -- the arguments include the creation time of the feeder
  let created ← (h.output c "_created_time").number?
  let elapsed := w.clock (2 * calls + 1) - created
  some (h.setOutput c "_elapsed_time" (.float elapsed), calls)

/-! ## The run -/

/-- Set `self.error` and report it. -/
def reportError (w : PipelineWorld) (c : CpnId) (s : PipelineState) :
    Option PipelineState :=
  let error := "[ERROR]" ++ s.heap.error c
  match callback w s.calls error with
  | none => some { s with error := error, calls := s.calls + 1 }
  | some _ => none

/-- The first part of `run`: an empty `path` starts with the component `File`,
which is given the arguments of `run`. -/
def runFirst (w : PipelineWorld) (dsl : Dsl) (path : List CpnId) (h : Heap)
    (kwargs : List (String × Value)) : Option PipelineState :=
  if path = [] then do
    let cpn ← dsl.getComponent "File"
    let (h, calls) ← processInvoke w cpn "File" kwargs 0 h
    let s : PipelineState := { heap := h, path := ["File"], calls := calls }
    if h.error "File" = "" then some s else reportError w "File" s
  else some { heap := h, path := path }

/-- `run` up to its loop. -/
def runHead (w : PipelineWorld) (dsl : Dsl) (path : List CpnId) (h : Heap)
    (kwargs : List (String × Value)) : Option PipelineState := do
  let s ← runFirst w dsl path h kwargs
  let last ← s.path.getLast?
  let cpn ← dsl.getComponent last
  some { s with idx := s.path.length, path := s.path ++ cpn.downstream }

/-- The condition of the loop. -/
def continues (s : PipelineState) : Bool :=
  s.idx < s.path.length && s.error = ""

/-- One round of the loop. -/
def runBody (w : PipelineWorld) (dsl : Dsl) (s : PipelineState) :
    Option PipelineState := do
  let feeder ← s.path[s.idx - 1]?
  let _ ← dsl.getComponent feeder
  let c ← s.path[s.idx]?
  let cpn ← dsl.getComponent c
  let input := outputEntries s.heap feeder
  let (h, calls) ← processInvoke w cpn c input s.calls s.heap
  let invocation : Invocation :=
    { feeder := feeder, cpn := c, input := input, before := s.heap }
  let s :=
    { s with heap := h, calls := calls, invoked := s.invoked ++ [invocation] }
  if h.error c = "" then
    some { s with idx := s.idx + 1, path := s.path ++ cpn.downstream }
  else reportError w c s

/-- `run` after its loop: what it returns. -/
def runTail (w : PipelineWorld) (dsl : Dsl) (s : PipelineState) :
    Option (List (String × Value)) := do
  let last ← s.path.getLast?
  let _ ← dsl.getComponent last
  match callback w s.calls "" with
  | none => some (if s.error = "" then outputEntries s.heap last else [])
  | some _ => none

/-- One step of a run: a round of the loop, or what follows the loop. -/
def runStep (w : PipelineWorld) (dsl : Dsl) (s : PipelineState) :
    Option PipelineState :=
  match s.phase with
  | .running =>
      if continues s then
        match runBody w dsl s with
        | some s' => some s'
        | none => some { s with phase := .failed }
      else
        match runTail w dsl s with
        | some result => some { s with phase := .finished result }
        | none => some { s with phase := .failed }
  | _ => none

/-! ## Upstream components -/

/-- The `downstream` of a component, empty for an unknown id. -/
def downstreamOf (dsl : Dsl) (c : CpnId) : List CpnId :=
  match dsl.getComponent c with
  | some cpn => cpn.downstream
  | none => []

theorem downstreamOf_eq {dsl : Dsl} {c : CpnId} {cpn : Component}
    (hcpn : dsl.getComponent c = some cpn) :
    downstreamOf dsl c = cpn.downstream := by
  simp [downstreamOf, hcpn]

/-- The invocation was given the output of a component that lists the invoked
one in its `downstream`. -/
def FedByUpstream (dsl : Dsl) (i : Invocation) : Prop :=
  i.cpn ∈ downstreamOf dsl i.feeder ∧
    i.input = outputEntries i.before i.feeder

/-- The component that the loop goes out from. -/
def rootOf (path : List CpnId) : CpnId :=
  path.getLast?.getD "File"

/-- The run has come to its end without an error. -/
def PipelineState.Completed (s : PipelineState) : Prop :=
  s.phase.isFinished = true ∧ s.error = ""

instance (s : PipelineState) : Decidable s.Completed :=
  inferInstanceAs (Decidable (_ ∧ _))

/-- The invocations with their feeders. -/
def PipelineState.visits (s : PipelineState) : List (CpnId × CpnId) :=
  s.invoked.map fun i => (i.feeder, i.cpn)

/-! ## What one step does -/

variable {w : PipelineWorld} {dsl : Dsl} {s s' : PipelineState}

theorem reportError_eq {c : CpnId} (h : reportError w c s = some s') :
    s'.path = s.path ∧ s'.invoked = s.invoked ∧ s'.phase = s.phase ∧
      s'.error ≠ "" := by
  simp only [reportError] at h
  cases hcall : callback w s.calls ("[ERROR]" ++ s.heap.error c) with
  | some message => simp [hcall] at h
  | none =>
      simp only [hcall, Option.some.injEq] at h
      subst h
      simp

theorem runFirst_eq {path : List CpnId} {h : Heap}
    {kwargs : List (String × Value)}
    (hfirst : runFirst w dsl path h kwargs = some s) :
    s.path.getLast? = some (rootOf path) ∧ s.invoked = [] ∧
      s.phase = .running := by
  by_cases hpath : path = []
  · subst hpath
    simp only [runFirst, if_true, Option.bind_eq_bind,
      Option.bind_eq_some_iff] at hfirst
    obtain ⟨cpn, -, ⟨h', calls⟩, -, hfirst⟩ := hfirst
    split at hfirst
    · rw [← Option.some.inj hfirst]
      simp [rootOf]
    · obtain ⟨hpath, hinvoked, hphase, -⟩ := reportError_eq hfirst
      rw [hpath, hinvoked, hphase]
      simp [rootOf]
  · simp only [runFirst, hpath, if_false, Option.some.injEq] at hfirst
    obtain ⟨last, hlast⟩ := Option.ne_none_iff_exists'.mp
      (mt List.getLast?_eq_none_iff.mp hpath)
    rw [← hfirst]
    simp [rootOf, hlast]

/-- A run starts behind its last entry, whose `downstream` is the rest of
`path`, with no invocation made. -/
theorem runHead_eq {path : List CpnId} {h : Heap}
    {kwargs : List (String × Value)}
    (hstart : runHead w dsl path h kwargs = some s) :
    ∃ front, s.path = front ++ rootOf path :: downstreamOf dsl (rootOf path) ∧
      s.idx = front.length + 1 ∧ s.invoked = [] ∧ s.phase = .running := by
  simp only [runHead, Option.bind_eq_bind, Option.bind_eq_some_iff] at hstart
  obtain ⟨s₀, hs₀, last, hlast, cpn, hcpn, hs⟩ := hstart
  obtain ⟨hroot, hinvoked, hphase⟩ := runFirst_eq hs₀
  have hlast_eq : last = rootOf path :=
    Option.some.inj (hlast.symm.trans hroot)
  subst hlast_eq
  obtain ⟨front, hfront⟩ := List.getLast?_eq_some_iff.mp hlast
  refine ⟨front, ?_⟩
  rw [← Option.some.inj hs, downstreamOf_eq hcpn]
  simp [hfront, hinvoked, hphase]

/-- A round invokes the entry at `idx` with the outputs of the entry in front
of it, and either moves on behind it or stops with an error. -/
theorem runBody_eq (h : runBody w dsl s = some s') :
    ∃ feeder c input before,
      s.path[s.idx - 1]? = some feeder ∧ s.path[s.idx]? = some c ∧
      input = outputEntries before feeder ∧
      s'.invoked = s.invoked ++ [⟨feeder, c, input, before⟩] ∧
      s'.phase = s.phase ∧
      (s'.error ≠ "" ∨
        s'.idx = s.idx + 1 ∧ s'.path = s.path ++ downstreamOf dsl c) := by
  simp only [runBody, Option.bind_eq_bind, Option.bind_eq_some_iff] at h
  obtain ⟨feeder, hfeeder, up, -, c, hc, cpn, hcpn, ⟨h', calls⟩, -, h⟩ := h
  refine ⟨feeder, c, _, s.heap, hfeeder, hc, rfl, ?_⟩
  split at h
  · rw [← Option.some.inj h]
    simp [downstreamOf_eq hcpn]
  · obtain ⟨-, hinvoked, hphase, herror⟩ := reportError_eq h
    exact ⟨hinvoked, hphase, Or.inl herror⟩

/-- Every step is a round of the loop, the end of the run, or its failure. -/
theorem runStep_cases (h : runStep w dsl s = some s') :
    (continues s = true ∧ s.phase = .running ∧ runBody w dsl s = some s') ∨
      (continues s = false ∧
        ∃ result, s' = { s with phase := .finished result }) ∨
      s' = { s with phase := .failed } := by
  simp only [runStep] at h
  split at h
  case h_2 => simp at h
  case h_1 hphase =>
    split at h
    case isTrue hcontinues =>
      cases hbody : runBody w dsl s with
      | none =>
          rw [hbody] at h
          exact Or.inr (Or.inr (Option.some.inj h).symm)
      | some t =>
          rw [hbody] at h
          exact Or.inl ⟨hcontinues, hphase, h⟩
    case isFalse hcontinues =>
      cases htail : runTail w dsl s with
      | none =>
          rw [htail] at h
          exact Or.inr (Or.inr (Option.some.inj h).symm)
      | some result =>
          rw [htail] at h
          exact Or.inr (Or.inl
            ⟨by simpa using hcontinues, result, (Option.some.inj h).symm⟩)

/-! ## A run unfolds the graph -/

/-- The invariant of a run: its invocations unfold the graph from the root;
as long as there is no error, `path` from `idx` on is the queue; every input is
the output of the feeder; and only a run that has worked through `path` comes
to its end. -/
structure Walks (dsl : Dsl) (root : CpnId) (s : PipelineState) : Prop where
  unfolds : ∃ front current pending,
    Unfolds (downstreamOf dsl) root s.visits current pending ∧
      (s.error = "" →
        s.path = front ++ current :: pending ∧ s.idx = front.length + 1)
  inputs : ∀ i ∈ s.invoked, i.input = outputEntries i.before i.feeder
  ended : s.phase.isFinished = true → continues s = false

theorem runHead_walks {path : List CpnId} {h : Heap}
    {kwargs : List (String × Value)}
    (hstart : runHead w dsl path h kwargs = some s) :
    Walks dsl (rootOf path) s := by
  obtain ⟨front, hpath, hidx, hinvoked, hphase⟩ := runHead_eq hstart
  constructor
  · refine ⟨front, rootOf path, downstreamOf dsl (rootOf path), ?_, ?_⟩
    · rw [PipelineState.visits, hinvoked]
      exact .start
    · intro _
      exact ⟨hpath, hidx⟩
  · simp [hinvoked]
  · simp [hphase, PipelinePhase.isFinished]

/-- A round of the loop is a visit. -/
theorem runBody_walks {root : CpnId} (hs : Walks dsl root s)
    (hcontinues : continues s = true) (hphase : s.phase = .running)
    (h : runBody w dsl s = some s') : Walks dsl root s' := by
  obtain ⟨front, current, pending, hunfolds, hposition⟩ := hs.unfolds
  have herror : s.error = "" := by
    simp only [continues, Bool.and_eq_true, decide_eq_true_eq] at hcontinues
    exact hcontinues.2
  obtain ⟨hpath, hidx⟩ := hposition herror
  obtain ⟨feeder, c, input, before, hfeeder, hc, hinput, hinvoked, hphase',
    hnext⟩ := runBody_eq h
  have hfeeder_eq : feeder = current := by
    rw [hpath, hidx] at hfeeder
    simpa using hfeeder.symm
  obtain ⟨rest, rfl⟩ : ∃ rest, pending = c :: rest := by
    rw [hpath, hidx, List.getElem?_append_right (by omega)] at hc
    cases pending with
    | nil => simp at hc
    | cons d rest =>
        refine ⟨rest, ?_⟩
        have hd : d = c := by simpa using hc
        rw [hd]
  subst hfeeder_eq
  have hvisits : s'.visits = s.visits ++ [(feeder, c)] := by
    simp [PipelineState.visits, hinvoked]
  constructor
  · refine ⟨front ++ [feeder], c, rest ++ downstreamOf dsl c, ?_, ?_⟩
    · rw [hvisits]
      exact hunfolds.visit
    · intro hnone
      rcases hnext with herror' | ⟨hidx', hpath'⟩
      · exact absurd hnone herror'
      · rw [hidx', hpath', hidx, hpath]
        simp
  · intro i hi
    rw [hinvoked] at hi
    rcases List.mem_append.mp hi with hold | hlast
    · exact hs.inputs i hold
    · rw [List.mem_singleton.mp hlast]
      exact hinput
  · simp [hphase', hphase, PipelinePhase.isFinished]

theorem runStep_walks {root : CpnId} (hs : Walks dsl root s)
    (h : runStep w dsl s = some s') : Walks dsl root s' := by
  rcases runStep_cases h with ⟨hcontinues, hphase, hbody⟩ |
    ⟨hcontinues, result, rfl⟩ | rfl
  · exact runBody_walks hs hcontinues hphase hbody
  · exact ⟨hs.unfolds, hs.inputs, fun _ => hcontinues⟩
  · exact ⟨hs.unfolds, hs.inputs, by simp [PipelinePhase.isFinished]⟩

theorem reachable_walks {path : List CpnId} {h : Heap}
    {kwargs : List (String × Value)} {start : PipelineState}
    (hstart : runHead w dsl path h kwargs = some start)
    (hs : Reachable (runStep w dsl) start s) :
    Walks dsl (rootOf path) s :=
  hs.invariant (runHead_walks hstart) fun _ _ hs _ hstep =>
    runStep_walks hs hstep

/-- When the run has completed, the queue is empty. -/
theorem Walks.unfolds_completed {root : CpnId} (hs : Walks dsl root s)
    (hcompleted : s.Completed) :
    ∃ current, Unfolds (downstreamOf dsl) root s.visits current [] := by
  obtain ⟨hfinished, herror⟩ := hcompleted
  obtain ⟨front, current, pending, hunfolds, hposition⟩ := hs.unfolds
  obtain ⟨hpath, hidx⟩ := hposition herror
  have hended := hs.ended hfinished
  have hpending : pending = [] := by
    simp only [continues, herror, hpath, hidx, decide_true, Bool.and_true,
      decide_eq_false_iff_not, List.length_append, List.length_cons] at hended
    apply List.eq_nil_of_length_eq_zero
    omega
  subst hpending
  exact ⟨current, hunfolds⟩

theorem Walks.fed_iff {root : CpnId} (hs : Walks dsl root s) :
    (∀ i ∈ s.invoked, FedByUpstream dsl i) ↔
      ∀ v ∈ s.visits, v.2 ∈ downstreamOf dsl v.1 := by
  constructor
  · intro hfed v hv
    obtain ⟨i, hi, rfl⟩ := List.mem_map.mp hv
    exact (hfed i hi).1
  · intro hfed i hi
    exact ⟨hfed _ (List.mem_map_of_mem hi), hs.inputs i hi⟩

/-! ## When every component is fed by an upstream one -/

/-- If no component below the first one lists two others, every invocation of
every run is fed by an upstream component; and a run that completes without an
error has only such invocations in that case alone. -/
theorem fedByUpstream_iff_isChain {path : List CpnId} {h : Heap}
    {kwargs : List (String × Value)} {start : PipelineState}
    (hstart : runHead w dsl path h kwargs = some start) :
    (IsChain (downstreamOf dsl) (rootOf path) →
      ∀ s, Reachable (runStep w dsl) start s →
        ∀ i ∈ s.invoked, FedByUpstream dsl i) ∧
    (∀ s, Reachable (runStep w dsl) start s → s.Completed →
      ((∀ i ∈ s.invoked, FedByUpstream dsl i) ↔
        IsChain (downstreamOf dsl) (rootOf path))) := by
  constructor
  · intro hchain s hs
    have hwalks := reachable_walks hstart hs
    obtain ⟨_, current, pending, hunfolds, -⟩ := hwalks.unfolds
    exact hwalks.fed_iff.mpr (hunfolds.fed_of_isChain hchain).2
  · intro s hs hcompleted
    have hwalks := reachable_walks hstart hs
    obtain ⟨current, hunfolds⟩ := hwalks.unfolds_completed hcompleted
    rw [hwalks.fed_iff]
    exact hunfolds.fed_iff_isChain

/-- It is enough that no component of the graph lists two others. -/
theorem isChain_of_components {root : CpnId}
    (hone : ∀ e ∈ dsl.components, e.2.downstream.length ≤ 1) :
    IsChain (downstreamOf dsl) root := by
  intro c _
  rw [downstreamOf]
  cases hcpn : dsl.getComponent c with
  | none => simp
  | some cpn => exact hone (c, cpn) (Assoc.mem_of_get? hcpn)

/-! ## Two pipelines -/

/-- A state that is reached in `n` steps and passes a test is one of a run. -/
theorem exists_run {path : List CpnId} {h : Heap}
    {kwargs : List (String × Value)} (n : ℕ) (test : PipelineState → Bool)
    (htest : ((runHead w dsl path h kwargs).bind
      (iterate (runStep w dsl) n)).any test = true) :
    ∃ start s, runHead w dsl path h kwargs = some start ∧
      Reachable (runStep w dsl) start s ∧ test s = true := by
  obtain ⟨s, hs, hpass⟩ := (Option.any_eq_true _ _).mp htest
  obtain ⟨start, hstart, hn⟩ := Option.bind_eq_some_iff.mp hs
  refine ⟨start, s, hstart, ?_, hpass⟩
  have hsome : (iterate (runStep w dsl) n start).isSome = true := by
    rw [hn, Option.isSome_some]
  have hreach := reachable_iterate hsome
  rwa [hn] at hreach

/-- Every component outputs its own name. -/
def namingWorld : PipelineWorld where
  canceled _ := false
  process _ c _ h := { heap := h.setOutput c "text" (.str c) }
  clock n := n

/-- Objects without outputs. -/
def freshHeap : Heap where
  objs _ := {}
  globals := []

/-- The parser feeds two extractors. -/
def fanOutDsl : Dsl where
  components :=
    [("File", { kind := .other, downstream := ["Parser:0"] }),
     ("Parser:0",
        { kind := .other, downstream := ["Extractor:0", "Extractor:1"] }),
     ("Extractor:0", { kind := .other }),
     ("Extractor:1", { kind := .other })]
  nodup := by decide

/-- The second extractor is fed with the output of the first one, in a run
that completes without an error. -/
theorem second_branch_fed_by_sibling :
    ∃ start s, runHead namingWorld fanOutDsl [] freshHeap [] = some start ∧
      Reachable (runStep namingWorld fanOutDsl) start s ∧ s.Completed ∧
      ∃ i ∈ s.invoked, i.cpn = "Extractor:1" ∧
        (Assoc.get? "text" i.input).any (Value.pyEq (.str "Extractor:0")) ∧
        (i.before.output "Parser:0" "text").pyEq (.str "Parser:0") ∧
        ¬ FedByUpstream fanOutDsl i := by
  have hrun : ((runHead namingWorld fanOutDsl [] freshHeap []).bind
      (iterate (runStep namingWorld fanOutDsl) 4)).any (fun s =>
        decide s.Completed && s.invoked.any fun i =>
          i.cpn = "Extractor:1" &&
            (Assoc.get? "text" i.input).any (Value.pyEq (.str "Extractor:0")) &&
            (i.before.output "Parser:0" "text").pyEq (.str "Parser:0") &&
            decide (i.cpn ∉ downstreamOf fanOutDsl i.feeder)) = true := by
    decide +kernel
  obtain ⟨start, s, hstart, hs, htest⟩ := exists_run 4 _ hrun
  simp only [Bool.and_eq_true, decide_eq_true_eq, List.any_eq_true] at htest
  obtain ⟨hcompleted, i, hi, ⟨⟨hcpn, hinput⟩, hparser⟩, hnot⟩ := htest
  exact ⟨start, s, hstart, hs, hcompleted, i, hi, hcpn, hinput, hparser,
    fun hfed => hnot hfed.1⟩

/-- A pipeline without branches. -/
def chainDsl : Dsl where
  components :=
    [("File", { kind := .other, downstream := ["Parser:0"] }),
     ("Parser:0", { kind := .other, downstream := ["Tokenizer:0"] }),
     ("Tokenizer:0", { kind := .other })]
  nodup := by decide

/-- Both components behind the file are fed by the one in front of them. -/
theorem chain_fedByUpstream :
    ∃ start s, runHead namingWorld chainDsl [] freshHeap [] = some start ∧
      Reachable (runStep namingWorld chainDsl) start s ∧ s.Completed ∧
      s.visits = [("File", "Parser:0"), ("Parser:0", "Tokenizer:0")] ∧
      ∀ i ∈ s.invoked, FedByUpstream chainDsl i := by
  have hrun : ((runHead namingWorld chainDsl [] freshHeap []).bind
      (iterate (runStep namingWorld chainDsl) 3)).any (fun s =>
        decide s.Completed && decide (s.visits =
          [("File", "Parser:0"), ("Parser:0", "Tokenizer:0")])) = true := by
    decide +kernel
  obtain ⟨start, s, hstart, hs, htest⟩ := exists_run 3 _ hrun
  simp only [Bool.and_eq_true, decide_eq_true_eq] at htest
  refine ⟨start, s, hstart, hs, htest.1, htest.2, ?_⟩
  exact ((fedByUpstream_iff_isChain hstart).2 s hs htest.1).mpr
    (isChain_of_components (by decide))

end RagflowMineru.Flow
