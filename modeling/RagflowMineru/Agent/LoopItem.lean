import RagflowMineru.Agent.Component
import RagflowMineru.Agent.Variable
import Mathlib.Data.List.Infix

/-!
# The loop counter

`LoopItem` counts the rounds of its `Loop` in the private field `_idx`, with
`-1` as the end marker.  `_invoke` advances the counter or sets the marker when
the maximum is reached; `end` reports the marker, and sets it when the
termination conditions hold.  Nothing puts the counter back to `0`: a loop that
is entered again starts from the marker and runs one round too many.
-/

namespace RagflowMineru.Agent

open RagflowMineru.Library

/-! ## Termination conditions -/

/-- The branch of `evaluate_condition` for a string variable. -/
def evaluateStr (var operator : String) (value : Value) : Option Bool :=
  let withStr (f : String → Bool) : Option Bool :=
    match value with
    | .str s => some (f s)
    | _ => none
  match operator with
  | "contains" => withStr fun s => decide (s.toList <:+: var.toList)
  | "not contains" => withStr fun s => !decide (s.toList <:+: var.toList)
  | "start with" => withStr fun s => decide (s.toList <+: var.toList)
  | "end with" => withStr fun s => decide (s.toList <:+ var.toList)
  | "is" => some (Value.pyEq (.str var) value)
  | "is not" => some (!Value.pyEq (.str var) value)
  | "empty" => some (var = "")
  | "not empty" => some (var ≠ "")
  | _ => none

/-- The branch for a number, which Booleans take as well. -/
def evaluateNumber (var : ℚ) (operator : String) (value : Value) :
    Option Bool :=
  let compare (f : ℚ → Bool) : Option Bool := value.number?.map f
  match operator with
  | "=" => some (Value.pyEq (.float var) value)
  | "≠" => some (!Value.pyEq (.float var) value)
  | ">" => compare fun q => q < var
  | "<" => compare fun q => var < q
  | "≥" => compare fun q => q ≤ var
  | "≤" => compare fun q => var ≤ q
  | "empty" => some false
  | "not empty" => some true
  | _ => none

/-- The branch for a list. -/
def evaluateList (var : List Value) (operator : String) (value : Value) :
    Option Bool :=
  match operator with
  | "contains" => some (var.any fun x => Value.pyEq x value)
  | "not contains" => some (!var.any fun x => Value.pyEq x value)
  | "is" => some (Value.pyEq (.list var) value)
  | "is not" => some (!Value.pyEq (.list var) value)
  | "empty" => some var.isEmpty
  | "not empty" => some !var.isEmpty
  | _ => none

/-- `evaluate_condition`; `none` is an exception. -/
def evaluateCondition (var : Value) (operator : String) (value : Value) :
    Option Bool :=
  match var with
  | .str s => evaluateStr s operator value
  | .bool b => evaluateNumber (if b then 1 else 0) operator value
  | .int n => evaluateNumber n operator value
  | .float q => evaluateNumber q operator value
  | .dict entries =>
      match operator with
      | "empty" => some entries.isEmpty
      | "not empty" => some !entries.isEmpty
      | _ => none
  | .list items => evaluateList items operator value
  | .none => some (operator = "empty")
  | .stream _ => none

/-- One pass of the loop over `loop_termination_condition`. -/
def conditionHolds (py : Interp) (dsl : Dsl) (h : Heap)
    (item : LoopCondition) : Option Bool := do
  if item.variableName = "" ∨ item.operator = "" then none
  else
    let var ← getVariableValue py dsl h item.variableName
    let value ←
      match item.inputMode, item.value with
      | "variable", .str exp => getVariableValue py dsl h exp
      | "constant", value => some value
      | _, _ => none
    evaluateCondition var item.operator value

/-- Whether the termination conditions of a loop hold; `none` is an
exception. -/
def shouldEnd (py : Interp) (dsl : Dsl) (h : Heap) (param : LoopParam) :
    Option Bool := do
  let conditions ←
    param.loopTerminationCondition.mapM (conditionHolds py dsl h)
  match param.logicalOperator with
  | "and" => some (conditions.all id)
  | "or" => some (conditions.any id)
  | _ => none

/-! ## The item component -/

/-- The parameters of the `Loop` around a component. -/
def parentLoop (dsl : Dsl) (c : CpnId) : Option LoopParam :=
  match dsl.getParent c with
  | some (some (_, parent)) =>
      match parent.kind with
      | .loop param => some param
      | _ => none
  | _ => none

/-- `LoopItem._invoke`, with what the two cancellation checks answer. -/
def loopItemInvoke (dsl : Dsl) (c : CpnId) (canceled canceled' : Bool)
    (h : Heap) : Outcome :=
  if canceled then canceledOutcome c h
  else
    match parentLoop dsl c with
    | none => { heap := h, raised := some "no attribute 'maximum_loop_count'" }
    | some param =>
        let idx := (h.objs c).idx
        if param.maximumLoopCount ≤ idx then { heap := h.setIdx c (-1) }
        else if 0 < idx ∧ canceled' then canceledOutcome c h
        else { heap := h.setIdx c (idx + 1) }

/-- `LoopItem.end`; `none` is an exception. -/
def loopItemEnd (py : Interp) (dsl : Dsl) (c : CpnId) (h : Heap) :
    Option (Bool × Heap) :=
  if (h.objs c).idx = -1 then some (true, h)
  else do
    let param ← parentLoop dsl c
    if ← shouldEnd py dsl h param then some (true, h.setIdx c (-1))
    else some (false, h)

/-! ## Reading variables ignores the counters -/

theorem getVariableValue_setIdx (py : Interp) (dsl : Dsl) (h : Heap)
    (c : CpnId) (i : ℤ) (exp : String) :
    getVariableValue py dsl (h.setIdx c i) exp =
      getVariableValue py dsl h exp := by
  simp only [getVariableValue, Heap.output_setIdx]
  rfl

theorem shouldEnd_setIdx (py : Interp) (dsl : Dsl) (h : Heap)
    (c : CpnId) (i : ℤ) (param : LoopParam) :
    shouldEnd py dsl (h.setIdx c i) param = shouldEnd py dsl h param := by
  have hcond :
      conditionHolds py dsl (h.setIdx c i) = conditionHolds py dsl h := by
    funext item
    simp only [conditionHolds, getVariableValue_setIdx]
  simp only [shouldEnd, hcond]

/-! ## Counters that occur -/

/-- The counter after one `_invoke` on the heap `h`. -/
def loopInvokeIdx (dsl : Dsl) (c : CpnId) (h : Heap) (i : ℤ) : ℤ :=
  ((loopItemInvoke dsl c false false (h.setIdx c i)).heap.objs c).idx

/-- The answer of `end` on the heap `h` and the counter it leaves. -/
def loopEndIdx (py : Interp) (dsl : Dsl) (c : CpnId) (h : Heap) (i : ℤ) :
    Option (Bool × ℤ) :=
  (loopItemEnd py dsl c (h.setIdx c i)).map fun answer =>
    (answer.1, (answer.2.objs c).idx)

theorem loopInvokeIdx_eq {dsl : Dsl} {c : CpnId} {param : LoopParam}
    (hparent : parentLoop dsl c = some param) (h : Heap) (i : ℤ) :
    loopInvokeIdx dsl c h i =
      if param.maximumLoopCount ≤ i then -1 else i + 1 := by
  by_cases hmax : param.maximumLoopCount ≤ i
  · simp [loopInvokeIdx, loopItemInvoke, hparent, hmax]
  · simp [loopInvokeIdx, loopItemInvoke, hparent, hmax]

theorem loopEndIdx_eq {py : Interp} {dsl : Dsl} {c : CpnId}
    {param : LoopParam} (hparent : parentLoop dsl c = some param)
    (h : Heap) (i : ℤ) :
    loopEndIdx py dsl c h i =
      if i = -1 then some (true, -1)
      else (shouldEnd py dsl h param).map fun ends =>
        (ends, if ends then -1 else i) := by
  by_cases hi : i = -1
  · simp [loopEndIdx, loopItemEnd, hi]
  · simp only [loopEndIdx, loopItemEnd, Heap.setIdx_idx, hi, if_false, hparent,
      Option.bind_eq_bind, Option.bind_some, shouldEnd_setIdx]
    cases shouldEnd py dsl h param with
    | none => rfl
    | some ends => cases ends <;> simp

/-- The counters a `LoopItem` can have: `0` from the constructor, then any
sequence of `_invoke` and `end`, whatever the canvas holds in between. -/
inductive LoopCounter (py : Interp) (dsl : Dsl) (c : CpnId) : ℤ → Prop
  | init : LoopCounter py dsl c 0
  | invoke {i : ℤ} (h : Heap) (hi : LoopCounter py dsl c i) :
      LoopCounter py dsl c (loopInvokeIdx dsl c h i)
  | check {i j : ℤ} {ends : Bool} (h : Heap) (hi : LoopCounter py dsl c i)
      (hcheck : loopEndIdx py dsl c h i = some (ends, j)) :
      LoopCounter py dsl c j

theorem LoopCounter.ge_neg_one {py : Interp} {dsl : Dsl} {c : CpnId}
    {param : LoopParam} (hparent : parentLoop dsl c = some param) {i : ℤ}
    (hi : LoopCounter py dsl c i) : -1 ≤ i := by
  induction hi with
  | init => omega
  | invoke h _ ih =>
      rw [loopInvokeIdx_eq hparent]
      split <;> omega
  | @check i j ends h _ hcheck ih =>
      rw [loopEndIdx_eq hparent] at hcheck
      by_cases hmark : i = -1
      · have hj : j = -1 := by
          have hpair := Option.some.inj ((if_pos hmark).symm.trans hcheck)
          exact (congrArg Prod.snd hpair).symm
        omega
      · rw [if_neg hmark, Option.map_eq_some_iff] at hcheck
        obtain ⟨answer, -, hpair⟩ := hcheck
        have hj : (if answer then -1 else i) = j := congrArg Prod.snd hpair
        cases answer with
        | true => simp at hj; omega
        | false => simp at hj; omega

/-! ## One entry of the loop -/

/-- What the canvas holds when the item of one round is invoked and when its
`end` is asked. -/
structure LoopRound where
  before : Heap
  after : Heap

/-- How often the rounds of one entry schedule the body before `end` holds,
starting at the counter `i`.  An exception from `end` stops the run. -/
def bodySchedules (py : Interp) (dsl : Dsl) (c : CpnId) :
    ℤ → List LoopRound → ℕ
  | _, [] => 0
  | i, round :: rounds =>
      match loopEndIdx py dsl c round.after
          (loopInvokeIdx dsl c round.before i) with
      | some (false, j) => bodySchedules py dsl c j rounds + 1
      | _ => 0

/-- The rounds up to the first whose termination conditions hold or fail to
evaluate. -/
def openRounds (py : Interp) (dsl : Dsl) (param : LoopParam)
    (rounds : List LoopRound) : ℕ :=
  (rounds.takeWhile fun round =>
    shouldEnd py dsl round.after param = some false).length

section Entry

variable {py : Interp} {dsl : Dsl} {c : CpnId} {param : LoopParam}

/-- Below the maximum a round advances the counter; it schedules the body
exactly when the conditions are evaluated to false. -/
theorem bodySchedules_cons_of_lt (hparent : parentLoop dsl c = some param)
    {i : ℤ} (hi : -1 ≤ i) (hlt : i < param.maximumLoopCount)
    (round : LoopRound) (rounds : List LoopRound) :
    bodySchedules py dsl c i (round :: rounds) =
      if shouldEnd py dsl round.after param = some false then
        bodySchedules py dsl c (i + 1) rounds + 1
      else 0 := by
  have hmark : ¬ i + 1 = -1 := by omega
  rw [bodySchedules, loopInvokeIdx_eq hparent, if_neg (not_le.mpr hlt),
    loopEndIdx_eq hparent, if_neg hmark]
  cases shouldEnd py dsl round.after param with
  | none => simp
  | some ends => cases ends <;> simp

/-- At the maximum the entry is over. -/
theorem bodySchedules_of_ge (hparent : parentLoop dsl c = some param)
    {i : ℤ} (hge : param.maximumLoopCount ≤ i) (rounds : List LoopRound) :
    bodySchedules py dsl c i rounds = 0 := by
  cases rounds with
  | nil => rfl
  | cons round rounds =>
      rw [bodySchedules, loopInvokeIdx_eq hparent, if_pos hge,
        loopEndIdx_eq hparent, if_pos rfl]

/-- An entry at counter `i` schedules the body in every round before the
conditions end it, but not more often than the counter allows. -/
theorem bodySchedules_eq (hparent : parentLoop dsl c = some param)
    {i : ℤ} (hi : -1 ≤ i) (rounds : List LoopRound) :
    bodySchedules py dsl c i rounds =
      min (param.maximumLoopCount - i).toNat
        (openRounds py dsl param rounds) := by
  induction rounds generalizing i with
  | nil => simp [bodySchedules, openRounds]
  | cons round rounds ih =>
      by_cases hlt : i < param.maximumLoopCount
      · rw [bodySchedules_cons_of_lt hparent hi hlt]
        by_cases hopen : shouldEnd py dsl round.after param = some false
        · have hcount : openRounds py dsl param (round :: rounds) =
              openRounds py dsl param rounds + 1 := by
            simp [openRounds, hopen]
          rw [if_pos hopen, ih (by omega), hcount]
          omega
        · have hcount : openRounds py dsl param (round :: rounds) = 0 := by
            simp [openRounds, hopen]
          rw [if_neg hopen, hcount, Nat.min_zero]
      · have hge : param.maximumLoopCount ≤ i := not_lt.mp hlt
        rw [bodySchedules_of_ge hparent hge]
        have hzero : (param.maximumLoopCount - i).toNat = 0 := by omega
        rw [hzero, Nat.zero_min]

/-- An entry keeps to `maximum_loop_count` unless it starts from the end
marker and the termination conditions let more rounds than that pass. -/
theorem bodySchedules_le_maximum_iff
    (hparent : parentLoop dsl c = some param) {i : ℤ}
    (hi : LoopCounter py dsl c i) (rounds : List LoopRound) :
    (bodySchedules py dsl c i rounds : ℤ) ≤ max param.maximumLoopCount 0 ↔
      ¬ (i = -1 ∧ 0 ≤ param.maximumLoopCount ∧
        param.maximumLoopCount < openRounds py dsl param rounds) := by
  have hge := hi.ge_neg_one hparent
  rw [bodySchedules_eq hparent hge]
  constructor
  · rintro hle ⟨hmark, hmax, hopen⟩
    subst hmark
    omega
  · intro hnot
    by_cases hmark : i = -1
    · subst hmark
      omega
    · omega

end Entry

/-! ## A loop that is entered twice -/

/-- A loop of at most one round without termination conditions. -/
def onceParam : LoopParam where
  loopVariables := []
  loopTerminationCondition := []
  maximumLoopCount := 1
  logicalOperator := "or"

def onceDsl : Dsl where
  components :=
    [("loop", { kind := .loop onceParam, downstream := ["after"] }),
     ("item", { kind := .loopItem, downstream := ["body"],
                parentId := some "loop" }),
     ("body", { kind := .other, parentId := some "loop" }),
     ("after", { kind := .other, downstream := ["loop"] })]
  nodup := by decide

def onceRound : LoopRound where
  before := profileHeap
  after := profileHeap

/-- The second entry of a loop with `maximum_loop_count = 1`: the first entry
leaves the counter at the end marker, and the second schedules the body
twice. -/
theorem loop_reentry_runs_twice :
    LoopCounter failingInterp onceDsl "item" (-1) ∧
      ¬ (bodySchedules failingInterp onceDsl "item" (-1)
          [onceRound, onceRound, onceRound] : ℤ) ≤
        max onceParam.maximumLoopCount 0 := by
  constructor
  · have hfirst : LoopCounter failingInterp onceDsl "item"
        (loopInvokeIdx onceDsl "item" profileHeap 0) :=
      .invoke profileHeap .init
    have hsecond : LoopCounter failingInterp onceDsl "item"
        (loopInvokeIdx onceDsl "item" profileHeap
          (loopInvokeIdx onceDsl "item" profileHeap 0)) :=
      .invoke profileHeap hfirst
    exact hsecond
  · decide

theorem bodySchedules_le_maximum_first_entry :
    (bodySchedules failingInterp onceDsl "item" 0
          [onceRound, onceRound] : ℤ) ≤ max onceParam.maximumLoopCount 0 ↔
      ¬ ((0 : ℤ) = -1 ∧ 0 ≤ onceParam.maximumLoopCount ∧
        onceParam.maximumLoopCount <
          openRounds failingInterp onceDsl onceParam [onceRound, onceRound]) :=
  bodySchedules_le_maximum_iff (by rfl) .init [onceRound, onceRound]

end RagflowMineru.Agent
