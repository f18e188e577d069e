import RagflowMineru.Agent.Value

/-!
# Components of a canvas

A DSL graph is an insertion-ordered table of components.  What never changes
during a run (component name, `downstream`, `parent_id`, parameters) is kept
in `Component`; what the components write (their outputs and the private
counter `_idx` of the item components) is kept in `Heap`.
-/

namespace RagflowMineru.Agent

open RagflowMineru.Library

/-- A component id, the key of `dsl["components"]`. -/
abbrev CpnId := String

/-- One entry of `loop_variables`. -/
structure LoopVariable where
  variableName : String
  inputMode : String
  value : Value
  type : String

/-- One entry of `loop_termination_condition`. -/
structure LoopCondition where
  variableName : String
  operator : String
  inputMode : String
  value : Value

/-- The parameters of a `Loop` component. -/
structure LoopParam where
  loopVariables : List LoopVariable
  loopTerminationCondition : List LoopCondition
  maximumLoopCount : ℤ
  logicalOperator : String

/-- `component_name.lower()`, as far as the runner tells components apart,
with the parameters that the runner itself reads. -/
inductive Kind where
  | begin
  | userFillUp (enableTips : Bool)
  | message
  | categorize
  | switch
  | iteration (itemsRef : String)
  | iterationItem
  | loop (param : LoopParam)
  | loopItem
  | exitLoop
  | other

namespace Kind

/-- `component_name.lower() in ["begin", "userfillup"]`. -/
def takesInputs : Kind → Bool
  | .begin => true
  | .userFillUp _ => true
  | _ => false

/-- `component_name.lower() == "userfillup"`. -/
def isUserFillUp : Kind → Bool
  | .userFillUp _ => true
  | _ => false

/-- `component_name.lower() in ("iteration", "loop")`. -/
def isContainer : Kind → Bool
  | .iteration _ => true
  | .loop _ => true
  | _ => false

/-- `component_name.lower() == "message"`. -/
def isMessage : Kind → Bool
  | .message => true
  | _ => false

/-- `component_name.lower() == "iterationitem"`. -/
def isIterationItem : Kind → Bool
  | .iterationItem => true
  | _ => false

/-- `component_name.lower() == "loopitem"`. -/
def isLoopItem : Kind → Bool
  | .loopItem => true
  | _ => false

end Kind

theorem nodup_noRefs : ("" :: Assoc.keys ([] : Assoc String String)).Nodup := by decide

/-- One entry of `dsl["components"]` with the parameters of its object.
`outputRefs` lists the declared outputs that carry a `ref`, which have distinct
nonempty names; `parentId` is `none` when `parent_id` is missing or empty; an
empty `exceptionMethod` stands for `None`; `mode` is read of a `Begin` only. -/
structure Component where
  kind : Kind
  downstream : List CpnId := []
  parentId : Option CpnId := none
  outputRefs : Assoc String String := []
  outputRefs_nodup : ("" :: Assoc.keys outputRefs).Nodup := by first | exact nodup_noRefs | decide
  exceptionMethod : String := ""
  exceptionGoto : List CpnId := []
  exceptionDefaultValue : Value := .none
  mode : String := "conversational"

/-- The component table of a DSL graph.  It comes from a JSON object, so its
keys are distinct. -/
structure Dsl where
  components : Assoc CpnId Component
  nodup : (Assoc.keys components).Nodup

namespace Dsl

variable (dsl : Dsl)

/-- `get_component`. -/
def getComponent (c : CpnId) : Option Component :=
  Assoc.get? c dsl.components

/-- The ids of the graph in order. -/
def ids : List CpnId := Assoc.keys dsl.components

theorem nodup_ids : dsl.ids.Nodup := dsl.nodup

/-- `get_parent`: the outer `none` is the exception for an unknown `parent_id`
or component, the inner one a component without parent. -/
def getParent (c : CpnId) : Option (Option (CpnId × Component)) := do
  let cpn ← dsl.getComponent c
  match cpn.parentId with
  | none => some none
  | some pid =>
      let parent ← dsl.getComponent pid
      some (some (pid, parent))

/-- The parent that is found is the component with that id. -/
theorem getParent_component {dsl : Dsl} {c pid : CpnId} {parent : Component}
    (hparent : dsl.getParent c = some (some (pid, parent))) :
    dsl.getComponent pid = some parent := by
  simp only [getParent, Option.bind_eq_bind,
    Option.bind_eq_some_iff] at hparent
  obtain ⟨cpn, -, hparent⟩ := hparent
  cases hpid : cpn.parentId with
  | none => simp [hpid] at hparent
  | some pid' =>
      simp only [hpid, Option.bind_eq_some_iff] at hparent
      obtain ⟨parent', hparent', hpair⟩ := hparent
      obtain ⟨rfl, rfl⟩ := Prod.mk.inj (Option.some.inj (Option.some.inj hpair))
      exact hparent'

/-- A component with a parent, or without one, is in the graph. -/
theorem mem_ids_of_getParent {dsl : Dsl} {c : CpnId}
    {found : Option (CpnId × Component)} (h : dsl.getParent c = some found) :
    c ∈ dsl.ids := by
  by_contra hmem
  have hnone : dsl.getComponent c = none := Assoc.get?_eq_none_iff.mpr hmem
  simp [getParent, hnone] at h

/-- The first component of the given kind whose `parent_id` is `c`. -/
def firstChild (isKind : Kind → Bool) (c : CpnId) : Option CpnId :=
  dsl.ids.find? fun cid =>
    match dsl.getComponent cid with
    | some cpn => isKind cpn.kind && cpn.parentId = some c
    | none => false

/-- `Iteration.get_start` and `Loop.get_start`: the first item component whose
parent is the container.  Other components have no such method, and a missing
item makes the caller fail on `None`. -/
def getStart (c : CpnId) : Option CpnId := do
  let cpn ← dsl.getComponent c
  match cpn.kind with
  | .iteration _ => dsl.firstChild Kind.isIterationItem c
  | .loop _ => dsl.firstChild Kind.isLoopItem c
  | _ => none

end Dsl

/-- What a component object holds at run time: `_param.outputs` (for each key
its `"value"`, `none` when the entry has no such field) and `_idx`. -/
structure ObjState where
  outputs : Assoc String (Option Value) := []
  idx : ℤ := 0

/-- The mutable part of a canvas: its objects and its globals. -/
structure Heap where
  objs : CpnId → ObjState
  globals : Assoc String Value

namespace Heap

variable (h : Heap)

/-- Replace one object. -/
def setObj (c : CpnId) (o : ObjState) : Heap :=
  { h with objs := fun x => if x = c then o else h.objs x }

@[simp] theorem setObj_objs_self (c : CpnId) (o : ObjState) :
    (h.setObj c o).objs c = o := by
  simp [setObj]

theorem setObj_objs_of_ne {c x : CpnId} (hne : x ≠ c) (o : ObjState) :
    (h.setObj c o).objs x = h.objs x := by
  simp [setObj, hne]

@[simp] theorem setObj_globals (c : CpnId) (o : ObjState) :
    (h.setObj c o).globals = h.globals := rfl

/-- `output()` without a name: every output with its value. -/
def outputAll (c : CpnId) : Value :=
  .dict ((h.objs c).outputs.map fun entry =>
    (entry.1, entry.2.getD Value.none))

/-- `output(var_nm)`. -/
def output (c : CpnId) (key : String) : Value :=
  if key = "" then h.outputAll c
  else
    match Assoc.get? key (h.objs c).outputs with
    | none => .str ""
    | some none => .str ""
    | some (some v) => v

/-- `set_output`. -/
def setOutput (c : CpnId) (key : String) (value : Value) : Heap :=
  let o := h.objs c
  h.setObj c { o with outputs := Assoc.set key (some value) o.outputs }

/-- Set the private counter `_idx`. -/
def setIdx (c : CpnId) (i : ℤ) : Heap :=
  let o := h.objs c
  h.setObj c { o with idx := i }

/-- `error()`, with the empty string for `None`: the callers only test it for
truth, and it is a string whenever it is set. -/
def error (c : CpnId) : String :=
  match Assoc.get? "_ERROR" (h.objs c).outputs with
  | some (some (.str e)) => e
  | _ => ""

/-- Outputs are read from the object alone. -/
theorem output_congr {h h' : Heap} {c : CpnId} (hobj : h'.objs c = h.objs c)
    (key : String) : h'.output c key = h.output c key := by
  simp only [output, outputAll, hobj]

@[simp] theorem output_setOutput_self {key : String} (hkey : key ≠ "")
    (c : CpnId) (value : Value) :
    (h.setOutput c key value).output c key = value := by
  simp [output, setOutput, hkey]

theorem output_setOutput_key {key other : String} (hne : other ≠ key)
    (hother : other ≠ "") (c : CpnId) (value : Value) :
    (h.setOutput c key value).output c other = h.output c other := by
  simp [output, setOutput, hother, Assoc.get?_set_of_ne hne]

theorem output_setOutput_cpn {c x : CpnId} (hne : x ≠ c)
    (key other : String) (value : Value) :
    (h.setOutput c key value).output x other = h.output x other := by
  simp [output, outputAll, setOutput, setObj_objs_of_ne h hne]

@[simp] theorem setOutput_idx (c x : CpnId) (key : String) (value : Value) :
    ((h.setOutput c key value).objs x).idx = (h.objs x).idx := by
  by_cases hx : x = c
  · subst x
    simp [setOutput]
  · simp [setOutput, setObj_objs_of_ne h hx]

@[simp] theorem setIdx_idx (c : CpnId) (i : ℤ) :
    ((h.setIdx c i).objs c).idx = i := by
  simp [setIdx]

@[simp] theorem output_setIdx (c x : CpnId) (i : ℤ) (key : String) :
    (h.setIdx c i).output x key = h.output x key := by
  by_cases hx : x = c
  · subst x
    simp [output, outputAll, setIdx]
  · simp [output, outputAll, setIdx, setObj_objs_of_ne h hx]

end Heap

end RagflowMineru.Agent
