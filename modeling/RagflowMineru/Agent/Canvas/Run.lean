import RagflowMineru.Agent.IterationItem
import RagflowMineru.Library.Reach
import RagflowMineru.Library.Stutter

/-!
# The runner of a canvas

`Canvas.run` works through `path` in batches.  A batch is the part of `path`
that has not been run yet: the components that fail the readiness test are
taken out of it, the others are invoked concurrently, and the post-processing
of each of them appends its successors to `path`.

What a run meets from outside is a `World`: the effect of a batch of concurrent
invocations on the canvas, the consumption of a message stream, cancellation,
the clock.  Every statement about runs quantifies over all worlds, so over every
interleaving of the invocations and every behaviour of the components.
`none` stands for an exception that leaves `run`.
-/

namespace RagflowMineru.Agent

open RagflowMineru.Library

/-- What a run meets from outside.

* `thoughts`: `thoughts()` of a component.
* `elements`: the `_cpn_id` fields of `get_input_elements()`, empty for a
  reference to a global; `none` when it or `get_input()` raises.
* `gather`: the canvas after the given batch of invocations has been awaited.
* `stream`: the canvas and the chunks after a message stream was consumed.
* `tips`: the text of a `UserFillUp` with its references filled in. -/
structure World where
  py : Interp
  canceled : ℕ → Bool
  thoughts : Heap → CpnId → Option String
  elements : Heap → CpnId → Option (List CpnId)
  gather : ℕ → List CpnId → Heap → Heap
  stream : Heap → CpnId → Heap × List String
  tips : Heap → CpnId → Option Value
  clock : ℕ → ℚ

/-- The events a run yields. -/
inductive Event where
  | workflowStarted
  | nodeStarted (c : CpnId) (thoughts : String)
  | nodeFinished (c : CpnId) (outputs : Value) (error : String)
  | message (content : Value)
  | startToThink
  | endToThink
  | messageEnd
  | userInputs (tips : Value)
  | workflowFinished (outputs : Value)

/-- How far a run has got. -/
inductive Phase where
  | running
  | suspended
  | finished
  | failed
  deriving DecidableEq

/-- The variables of `Canvas.run`.  `batches` is the record of the components
invoked so far, batch by batch. -/
structure RunState where
  heap : Heap
  path : List CpnId
  idx : ℕ
  partials : List CpnId := []
  error : String := ""
  events : List Event := []
  batches : List (List CpnId) := []
  phase : Phase := .running

/-! ## Starting a batch -/

/-- `id.lower().find("userfillup") >= 0`. -/
def namesUserFillUp (c : CpnId) : Bool :=
  decide ("userfillup".toList <:+: c.toList.map Char.toLower)

/-- `node_started` of one entry of `path`. -/
def nodeStarted (w : World) (dsl : Dsl) (h : Heap) (c : CpnId) :
    Option Event := do
  let _ ← dsl.getComponent c
  let thoughts ← w.thoughts h c
  some (.nodeStarted c thoughts)

/-- The readiness test fails: a component is referenced that does not stand
before the entry in `path`, and the run does not start from a `UserFillUp`. -/
def missesInput (resumed : Bool) (before refs : List CpnId) : Bool :=
  !resumed && refs.any fun ref => ref ≠ "" && ref ∉ before

/-- The loop of `_run_batch` over the entries still to be looked at.  `before`
is the part of `path` in front of them, which includes the entries of the same
batch that were kept; the result is that list with the kept entries added. -/
def runBatchLoop (w : World) (dsl : Dsl) (h : Heap) (resumed : Bool) :
    List CpnId → List CpnId → Option (List CpnId)
  | before, [] => some before
  | before, c :: rest => do
      let cpn ← dsl.getComponent c
      if cpn.kind.takesInputs then
        runBatchLoop w dsl h resumed (before ++ [c]) rest
      else
        let refs ← w.elements h c
        if missesInput resumed before refs then
          runBatchLoop w dsl h resumed before rest
        else
          runBatchLoop w dsl h resumed (before ++ [c]) rest

/-! ## Post-processing one component -/

/-- `_node_finished`: subtracting the creation time raises unless it is a
number. -/
def nodeFinished (h : Heap) (c : CpnId) : Option Event := do
  let _ ← (h.output c "_created_time").number?
  some (.nodeFinished c (h.outputAll c) (h.error c))

/-- `_process_stream` over all chunks: the events and the collected text. -/
def processStream : List String → List Event × String
  | [] => ([], "")
  | m :: rest =>
      let (events, text) := processStream rest
      if m = "" then (events, text)
      else if m = "<think>" then (.startToThink :: events, text)
      else if m = "</think>" then (.endToThink :: events, text)
      else (.message (.str m) :: events, m ++ text)

/-- The loop `while partials`: finish the components in the queue up to the
first whose content is still a stream. -/
def drainPartials (h : Heap) :
    List CpnId → Option (List Event × List CpnId)
  | [] => some ([], [])
  | c :: rest =>
      if (h.output c "content").isStream then some ([], c :: rest)
      else do
        let finished ← nodeFinished h c
        let (events, left) ← drainPartials h rest
        some (finished :: events, left)

/-- A message component speaks, and the queue is drained. -/
def speak (w : World) (c : CpnId) (s : RunState) : Option RunState := do
  let (h, spoken) :=
    match s.heap.output c "content" with
    | .stream _ =>
        let (h, chunks) := w.stream s.heap c
        let (events, text) := processStream chunks
        (h.setOutput c "content" (.str text), events)
    | content => (s.heap, [.message content])
  let (finished, left) ← drainPartials h s.partials
  some { s with
    heap := h
    partials := left
    events := s.events ++ spoken ++ [.messageEnd] ++ finished }

/-- The branch for message components. -/
def speakIfMessage (w : World) (cpn : Component) (c : CpnId) (s : RunState) :
    Option RunState :=
  if cpn.kind.isMessage then speak w c s else some s

/-- The error branch.  The Boolean is `other_branch`. -/
def handleError (cpn : Component) (c : CpnId) (s : RunState) :
    RunState × Bool :=
  if s.heap.error c = "" then (s, false)
  else if cpn.exceptionMethod = "" then
    ({ s with error := s.heap.error c }, false)
  else if cpn.exceptionGoto ≠ [] then
    ({ s with path := s.path ++ cpn.exceptionGoto }, true)
  else if cpn.exceptionDefaultValue.truthy then
    ({ s with events := s.events ++
        [.message cpn.exceptionDefaultValue, .messageEnd] }, false)
  else ({ s with error := s.heap.error c }, false)

/-- `node_finished` of the component itself, now or through `partials`. -/
def finishNode (cpn : Component) (c : CpnId) (s : RunState) :
    Option RunState :=
  if cpn.kind.isContainer then some s
  else if (s.heap.output c "content").isStream then
    if s.error = "" then some { s with partials := s.partials ++ [c] }
    else do
      let h := s.heap.setOutput c "content" .none
      let finished ← nodeFinished h c
      some { s with heap := h, events := s.events ++ [finished] }
  else do
    let finished ← nodeFinished s.heap c
    some { s with events := s.events ++ [finished] }

/-- `end()`, asked of the item components only. -/
def itemEnd (w : World) (dsl : Dsl) (cpn : Component) (c : CpnId) (h : Heap) :
    Option (Bool × Heap) :=
  match cpn.kind with
  | .iterationItem => some (iterationItemEnd c h, h)
  | .loopItem => loopItemEnd w.py dsl c h
  | _ => some (false, h)

/-- What `_extend_path` iterates over for the output `_next`. -/
def asIds : Value → Option (List CpnId)
  | .list items => items.mapM fun item =>
      match item with
      | .str s => some s
      | _ => none
  | .str s => some (s.toList.map fun ch => String.ofList [ch])
  | .dict entries => some (entries.map Prod.fst)
  | _ => none

/-- The start of the container around a leaf. -/
def leafNext (dsl : Dsl) (c : CpnId) (cpn : Component) :
    Option (List CpnId) :=
  if cpn.downstream = [] then do
    match ← dsl.getParent c with
    | some (pid, _) => (dsl.getStart pid).map fun start => [start]
    | none => some cpn.downstream
  else some cpn.downstream

/-- The ids handed to `_append_path` or `_extend_path` by a component that is
not an item at its end. -/
def nextIds (dsl : Dsl) (h : Heap) (c : CpnId) (cpn : Component)
    (otherBranch : Bool) : Option (List CpnId) :=
  match cpn.kind with
  | .categorize | .switch =>
      if otherBranch then some [] else asIds (h.output c "_next")
  | .iteration _ | .loop _ => (dsl.getStart c).map fun start => [start]
  | .exitLoop => do
      match ← dsl.getParent c with
      | some (_, parent) =>
          match parent.kind with
          | .loop _ => some parent.downstream
          | _ => leafNext dsl c cpn
      | none => none
  | _ => leafNext dsl c cpn

/-- `_extend_path`. -/
def extendPath (otherBranch : Bool) (path ids : List CpnId) : List CpnId :=
  if otherBranch then path else pushAll path ids

/-- The ids a component hands to `_append_path`.  An item at its end finishes
its container and hands over the successors of that. -/
def successors (w : World) (dsl : Dsl) (cpn : Component) (c : CpnId)
    (otherBranch : Bool) (s : RunState) : Option (RunState × List CpnId) := do
  let (ended, h) ← itemEnd w dsl cpn c s.heap
  if ended then
    match ← dsl.getParent c with
    | none => none
    | some (pid, parent) =>
        let finished ← nodeFinished h pid
        some ({ s with heap := h, events := s.events ++ [finished] },
          parent.downstream)
  else
    let ids ← nextIds dsl h c cpn otherBranch
    some ({ s with heap := h }, ids)

/-- The body of the post-processing loop up to the extension of `path`: the
state, `other_branch`, and the ids that `path` is to be extended with. -/
def prepare (w : World) (dsl : Dsl) (s : RunState) (c : CpnId) :
    Option (RunState × Bool × List CpnId) := do
  let cpn ← dsl.getComponent c
  let spoken ← speakIfMessage w cpn c s
  let (handled, otherBranch) := handleError cpn c spoken
  let noted ← finishNode cpn c handled
  let (s', ids) ← successors w dsl cpn c otherBranch noted
  some (s', otherBranch, ids)

/-- The body of the post-processing loop. -/
def postProcess (w : World) (dsl : Dsl) (s : RunState) (c : CpnId) :
    Option RunState := do
  let (s', otherBranch, ids) ← prepare w dsl s c
  some { s' with path := extendPath otherBranch s'.path ids }

/-! ## One turn of the main loop -/

/-- `UserFillUp._invoke` without inputs. -/
def fillUpBody (w : World) (n : ℕ) (c : CpnId) (enableTips : Bool)
    (h : Heap) : Outcome :=
  if w.canceled n then canceledOutcome c h
  else if enableTips then
    match w.tips h c with
    | some tips => { heap := h.setOutput c "tips" tips }
    | none => { heap := h, raised := some "Can't find variable" }
  else { heap := h }

/-- Invoke the pending `UserFillUp` components of the new path one after the
other and collect the tips to show. -/
def invokeFillUps (w : World) (n : ℕ) :
    List (CpnId × Component) → Heap → Value → Heap × Value
  | [], h, tips => (h, tips)
  | (c, cpn) :: rest, h, tips =>
      match cpn.kind with
      | .userFillUp enableTips =>
          let h' := cpn.invoke c (fillUpBody w n c enableTips)
            (w.clock n) (w.clock (n + 1)) h
          invokeFillUps w n rest h'
            (if enableTips then h'.output c "tips" else tips)
      | _ => invokeFillUps w n rest h tips

/-- Pair the ids with their components. -/
def lookupAll (dsl : Dsl) (ids : List CpnId) :
    Option (List (CpnId × Component)) :=
  ids.mapM fun c => (dsl.getComponent c).map fun cpn => (c, cpn)

/-- Stop for the user: the `UserFillUp` components come first in the new
path. -/
def suspend (w : World) (pending : List (CpnId × Component)) (s : RunState) :
    RunState :=
  let fillUps := pending.filter fun entry => entry.2.kind.isUserFillUp
  let others := pending.filter fun entry => !entry.2.kind.isUserFillUp
  let (h, tips) :=
    invokeFillUps w s.batches.length (fillUps ++ others) s.heap (.str "")
  { s with
    heap := h
    path := (fillUps ++ others).map Prod.fst
    events := s.events ++ [.userInputs tips]
    phase := .suspended }

/-- Leave the main loop after an error: `path` is cut back to the batch that
failed. -/
def fail (s : RunState) : RunState :=
  { s with
    path := s.path.take s.idx
    events :=
      if "Task has been canceled".toList <:+: s.error.toList then
        s.events ++ [.workflowFinished (.str "Task has been canceled")]
      else s.events
    phase := .failed }

/-- The state in which the post-processing of a batch starts, with the entries
of the batch that were kept. -/
def invokeBatch (w : World) (dsl : Dsl) (s : RunState) :
    Option (RunState × List CpnId) := do
  let started ← (s.path.drop s.idx).mapM (nodeStarted w dsl s.heap)
  if w.canceled s.batches.length then none
  else
    let path ← runBatchLoop w dsl s.heap
      (s.path.head?.any namesUserFillUp) (s.path.take s.idx)
      (s.path.drop s.idx)
    let kept := path.drop s.idx
    some ({ s with
      heap := if kept = [] then s.heap
        else w.gather s.batches.length kept s.heap
      path := path
      events := s.events ++ started
      batches := s.batches ++ [kept] }, kept)

/-- What follows the post-processing of a batch. -/
def closeBatch (w : World) (dsl : Dsl) (s : RunState) (stop : ℕ) :
    Option RunState :=
  if s.error = "" then do
    let pending ← lookupAll dsl (s.path.drop stop)
    if pending.any fun entry => entry.2.kind.isUserFillUp then
      some (suspend w pending { s with idx := stop })
    else some { s with idx := stop }
  else some (fail s)

/-- One turn of `while idx < len(self.path)`. -/
def batch (w : World) (dsl : Dsl) (s : RunState) : Option RunState := do
  let (s', kept) ← invokeBatch w dsl s
  let s'' ← kept.foldlM (postProcess w dsl) s'
  closeBatch w dsl s'' s'.path.length

/-- The end of a run without error. -/
def finish (s : RunState) : Option RunState := do
  let last ← s.path.getLast?
  some { s with
    events := s.events ++ [.workflowFinished (s.heap.outputAll last)]
    phase := .finished }

/-- One step of a run: a batch, or the end of the run when `path` is
exhausted.  A run that has stopped takes no step. -/
def step (w : World) (dsl : Dsl) (s : RunState) : Option RunState :=
  match s.phase with
  | .running => if s.idx < s.path.length then batch w dsl s else finish s
  | _ => none

/-- The state before the first batch: everything in `path` but its last entry
counts as done. -/
def startRun (h : Heap) (path : List CpnId) : RunState where
  heap := h
  path := path
  idx := path.length - 1
  events := [.workflowStarted]

/-- A world in which every invocation writes fixed outputs, one component after
the other, and nothing else happens. -/
def scriptedWorld (refs : CpnId → List CpnId)
    (outputs : CpnId → Assoc String Value) : World where
  py := failingInterp
  canceled := fun _ => false
  thoughts := fun _ _ => some ""
  elements := fun _ c => some (refs c)
  gather := fun _ kept h => kept.foldl
    (fun h c => (outputs c).foldl (fun h e => h.setOutput c e.1 e.2)
      (h.setOutput c "_created_time" (.float 0))) h
  stream := fun h _ => (h, [])
  tips := fun _ _ => none
  clock := fun _ => 0

end RagflowMineru.Agent
