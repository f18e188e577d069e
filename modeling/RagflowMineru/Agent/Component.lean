import RagflowMineru.Agent.Graph

/-!
# The base class of the components

`ComponentBase.invoke` wraps the `_invoke` of a component: it stamps the
creation time, turns an exception into the `_ERROR` output or into the default
value, and stamps the elapsed time.  `ComponentBase.reset` sets every output
to `None`.
-/

namespace RagflowMineru.Agent

open RagflowMineru.Library

/-- The result of an `_invoke`: the heap it leaves behind and the text of the
exception it raised, if it raised one. -/
structure Outcome where
  heap : Heap
  raised : Option String := none

namespace Component

variable (cpn : Component)

/-- `get_exception_default_value`. -/
def getExceptionDefaultValue : Value :=
  if cpn.exceptionMethod = "comment" then cpn.exceptionDefaultValue
  else .str ""

/-- The `except` branch of `invoke`. -/
def handleException (c : CpnId) (message : String) (h : Heap) : Heap :=
  if cpn.getExceptionDefaultValue.truthy then
    h.setOutput c "result" cpn.getExceptionDefaultValue
  else
    h.setOutput c "_ERROR" (.str message)

/-- `ComponentBase.invoke`, with the clock readings before and after. -/
def invoke (c : CpnId) (body : Heap → Outcome) (created elapsed : ℚ)
    (h : Heap) : Heap :=
  let out := body (h.setOutput c "_created_time" (.float created))
  let h' :=
    match out.raised with
    | none => out.heap
    | some message => cpn.handleException c message out.heap
  h'.setOutput c "_elapsed_time" (.float elapsed)

/-- Whatever a component does, its elapsed time is an output afterwards. -/
theorem invoke_output_elapsed (c : CpnId) (body : Heap → Outcome)
    (created elapsed : ℚ) (h : Heap) :
    (cpn.invoke c body created elapsed h).output c "_elapsed_time" =
      .float elapsed := by
  exact Heap.output_setOutput_self _ (by decide) _ _

end Component

/-- What `check_if_canceled` writes when the task has been canceled. -/
def canceledOutcome (c : CpnId) (h : Heap) : Outcome where
  heap := h.setOutput c "_ERROR" (.str "Task has been canceled")

/-- The outputs after `reset(True)`. -/
def resetOutputs (outputs : Assoc String (Option Value)) :
    Assoc String (Option Value) :=
  outputs.map fun entry => (entry.1, some Value.none)

/-- `reset(True)` of every component of the canvas. -/
def Heap.resetAll (h : Heap) : Heap :=
  { h with objs := fun c =>
      { h.objs c with outputs := resetOutputs (h.objs c).outputs } }

theorem get?_resetOutputs (key : String)
    (outputs : Assoc String (Option Value)) :
    Assoc.get? key (resetOutputs outputs) =
      (Assoc.get? key outputs).map fun _ => some Value.none := by
  induction outputs with
  | nil => rfl
  | cons entry rest ih =>
      obtain ⟨k, v⟩ := entry
      by_cases hk : k = key
      · simp [resetOutputs, Assoc.get?, hk]
      · simpa [resetOutputs, Assoc.get?, hk] using ih

/-- After a reset every output that existed reads `None`. -/
theorem Heap.output_resetAll {h : Heap} {c : CpnId} {key : String}
    (hkey : key ≠ "") :
    (h.resetAll).output c key = .none ∨
      (h.resetAll).output c key = .str "" := by
  simp only [Heap.output, Heap.resetAll, hkey, get?_resetOutputs, if_false]
  cases Assoc.get? key (h.objs c).outputs with
  | none => exact Or.inr rfl
  | some v => exact Or.inl rfl

@[simp] theorem Heap.resetAll_idx (h : Heap) (c : CpnId) :
    ((h.resetAll).objs c).idx = (h.objs c).idx := rfl

end RagflowMineru.Agent
