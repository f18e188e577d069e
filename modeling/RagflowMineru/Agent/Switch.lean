import RagflowMineru.Agent.Component
import RagflowMineru.Agent.Variable
import Mathlib.Data.List.Infix

/-!
# The switch component

`Switch._invoke` walks through its conditions and routes to the first one that
holds.  The items of a condition that name no component are skipped.  An `or`
condition is left at its first item that holds; what remains is decided for
both operators by `all(res)`, which also holds of an `or` condition without a
single item to look at.
-/

namespace RagflowMineru.Agent

open RagflowMineru.Library

/-! ## Operators -/

/-- A Python float, as far as comparisons tell floats apart. -/
inductive PyFloat where
  | fin (q : ℚ)
  | posInf
  | negInf
  | nan
  deriving DecidableEq

namespace PyFloat

/-- `<` of two floats. -/
def lt : PyFloat → PyFloat → Bool
  | .fin p, .fin q => p < q
  | .fin _, .posInf => true
  | .negInf, .fin _ => true
  | .negInf, .posInf => true
  | _, _ => false

/-- `==` of two floats. -/
def eq : PyFloat → PyFloat → Bool
  | .nan, _ => false
  | x, y => x = y

end PyFloat

/-- The comparisons that first try to read both sides as floats. -/
inductive Comparison where
  | gt
  | lt
  | ge
  | le

/-- A comparison of two floats. -/
def Comparison.holds : Comparison → PyFloat → PyFloat → Bool
  | .gt, x, y => y.lt x
  | .lt, x, y => x.lt y
  | .ge, x, y => y.lt x || x.eq y
  | .le, x, y => x.lt y || x.eq y

/-- The right side of an operator: the value of the item, or the float it was
turned into. -/
inductive Operatee where
  | value (v : Value)
  | float (x : PyFloat)

/-- What the switch takes from Python, with the text of the exception when it
raises: `float`, `str.lower`, the built-in comparisons, and the exceptions of
`get_variable_value`. -/
structure SwitchInterp extends Interp where
  float : Value → Except String PyFloat
  lower : Operatee → Except String (List Char)
  builtin : Comparison → Value → Operatee → Except String Bool
  variableError : String → String

variable (py : SwitchInterp)

/-- `input == value`. -/
def equals (input : Value) : Operatee → Bool
  | .value v => Value.pyEq input v
  | .float x =>
      match input.number? with
      | some q => PyFloat.eq (.fin q) x
      | none => false

/-- The operators on the lowered texts of both sides; the right side is lowered first. -/
def compareTexts (input : Value) (value : Operatee) (f : List Char → List Char → Bool) :
    Except String Bool := do
  let v ← py.lower value
  let i ← py.lower (.value input)
  .ok (f v i)

/-- `float` of the right side. -/
def Operatee.toFloat : Operatee → Except String PyFloat
  | .value v => py.float v
  | .float x => .ok x

/-- `try: float(input) > float(value) except: input > value`. -/
def compareNumbers (c : Comparison) (input : Value) (value : Operatee) : Except String Bool :=
  match py.float input, value.toFloat py with
  | .ok x, .ok y => .ok (c.holds x y)
  | _, _ => py.builtin c input value

/-- `process_operator`. -/
def processOperator (input : Value) (operator : String) (value : Operatee) : Except String Bool :=
  match operator with
  | "contains" => compareTexts py input value fun v i => decide (v <:+: i)
  | "not contains" => compareTexts py input value fun v i => !decide (v <:+: i)
  | "start with" => compareTexts py input value fun v i => decide (v <+: i)
  | "end with" => compareTexts py input value fun v i => decide (v <:+ i)
  | "empty" => .ok !input.truthy
  | "not empty" => .ok input.truthy
  | "=" => .ok (equals input value)
  | "≠" => .ok !equals input value
  | ">" => compareNumbers py .gt input value
  | "<" => compareNumbers py .lt input value
  | "≥" => compareNumbers py .ge input value
  | "≤" => compareNumbers py .le input value
  | _ => .error ("Not supported operator" ++ operator)

/-! ## Conditions -/

/-- An item of a condition; an empty `cpnId` is a blank item. -/
structure SwitchItem where
  cpnId : String
  operator : String
  value : Value := .str ""

/-- An entry of `conditions`, with `to` under the name `target`. -/
structure SwitchCondition where
  logicalOperator : String
  items : List SwitchItem
  target : List CpnId

structure SwitchParam where
  conditions : List SwitchCondition
  endCpnIds : List CpnId

/-- The places where `_invoke` asks whether the task has been canceled. -/
inductive SwitchCheck where
  | start
  | condition (i : ℕ)
  | item (i j : ℕ)

/-- Why the loop was left without a route. -/
inductive SwitchStop where
  | canceled
  | raised (message : String)

variable (dsl : Dsl) (canceled : SwitchCheck → Bool) (h : Heap)

/-- The body of the loop over the items, up to the append to `res`. -/
def itemHolds (item : SwitchItem) : Except String Bool :=
  match getVariableValue py.toInterp dsl h item.cpnId with
  | none => .error (py.variableError item.cpnId)
  | some cpnV => do
      let operatee ←
        if cpnV.number?.isSome then (py.float item.value).map Operatee.float
        else .ok (.value item.value)
      processOperator py cpnV item.operator operatee

/-- The loop over the items of the `i`th condition, from the `j`th item on: whether the switch
routes to this condition. -/
def runItems (i : ℕ) (logicalOperator : String) :
    ℕ → List Bool → List SwitchItem → Except SwitchStop Bool
  | _, res, [] => .ok (res.all id)
  | j, res, item :: items =>
      if canceled (.item i j) then .error .canceled
      else if item.cpnId = "" then runItems i logicalOperator (j + 1) res items
      else
        match itemHolds py dsl h item with
        | .error message => .error (.raised message)
        | .ok b =>
            if logicalOperator ≠ "and" ∧ (res ++ [b]).any id then .ok true
            else runItems i logicalOperator (j + 1) (res ++ [b]) items

/-- The loop over the conditions, from the `i`th on: where the switch routes to. -/
def runConditions (endCpnIds : List CpnId) :
    ℕ → List SwitchCondition → Except SwitchStop (List CpnId)
  | _, [] => .ok endCpnIds
  | i, cond :: conds =>
      if canceled (.condition i) then .error .canceled
      else
        match runItems py dsl canceled h i cond.logicalOperator 0 [] cond.items with
        | .error stop => .error stop
        | .ok true => .ok cond.target
        | .ok false => runConditions endCpnIds (i + 1) conds

/-- The two outputs of a route; `names` is `get_component_name`. -/
def setRoute (names : CpnId → String) (c : CpnId) (target : List CpnId) : Heap :=
  (h.setOutput c "next" (.list (target.map fun x => .str (names x)))).setOutput c "_next"
    (.list (target.map .str))

/-- `Switch._invoke`. -/
def switchInvoke (names : CpnId → String) (param : SwitchParam) (c : CpnId) : Outcome :=
  if canceled .start then canceledOutcome c h
  else
    match runConditions py dsl canceled h param.endCpnIds 0 param.conditions with
    | .error .canceled => canceledOutcome c h
    | .error (.raised message) => { heap := h, raised := some message }
    | .ok target => { heap := setRoute h names c target }

/-! ## What a switch is for -/

/-- The items that name a component. -/
def SwitchCondition.filled (cond : SwitchCondition) : List SwitchItem :=
  cond.items.filter fun item => item.cpnId ≠ ""

/-- Whether an item holds; an item whose operator raises does not. -/
def holds (item : SwitchItem) : Bool :=
  match itemHolds py dsl h item with
  | .ok b => b
  | .error _ => false

/-- An `and` condition is satisfied when all its filled items hold, an `or` condition when one
of them does. -/
def satisfied (cond : SwitchCondition) : Bool :=
  if cond.logicalOperator = "and" then cond.filled.all (holds py dsl h)
  else cond.filled.any (holds py dsl h)

/-- The route of the first satisfied condition. -/
def destination (endCpnIds : List CpnId) (conds : List SwitchCondition) : List CpnId :=
  ((conds.find? (satisfied py dsl h)).map SwitchCondition.target).getD endCpnIds

/-- No operator of the switch raises. -/
def NoneRaises (param : SwitchParam) : Prop :=
  ∀ cond ∈ param.conditions, ∀ item ∈ cond.filled, ∃ b, itemHolds py dsl h item = .ok b

/-- The law of the switch: its outputs are those of the route of the first satisfied
condition. -/
def RoutesToFirst (names : CpnId → String) (param : SwitchParam) (c : CpnId) : Prop :=
  let out := switchInvoke py dsl canceled h names param c
  let target := destination py dsl h param.endCpnIds param.conditions
  out.raised = none ∧
    out.heap.output c "next" = .list (target.map fun x => .str (names x)) ∧
    out.heap.output c "_next" = .list (target.map .str)

/-! ## Where it routes -/

/-- An `or` condition without a filled item. -/
def SwitchCondition.BlankOr (cond : SwitchCondition) : Prop :=
  cond.logicalOperator ≠ "and" ∧ cond.filled = []

instance : DecidablePred SwitchCondition.BlankOr := fun _ => instDecidableAnd

/-- The conditions that the loop routes to. -/
def taken (cond : SwitchCondition) : Bool := satisfied py dsl h cond || cond.BlankOr

variable {py dsl canceled h}

theorem holds_of_ok {item : SwitchItem} {b : Bool} (hb : itemHolds py dsl h item = .ok b) :
    holds py dsl h item = b := by
  rw [holds, hb]

/-- What the loop over the items of an `and` condition returns. -/
theorem runItems_and (hlive : ∀ check, canceled check = false) (i j : ℕ) (res : List Bool)
    {items : List SwitchItem}
    (hok : ∀ item ∈ items, item.cpnId ≠ "" → ∃ b, itemHolds py dsl h item = .ok b) :
    runItems py dsl canceled h i "and" j res items =
      .ok (res.all id && (items.filter fun item => item.cpnId ≠ "").all (holds py dsl h)) := by
  induction items generalizing j res with
  | nil => simp [runItems]
  | cons item items ih =>
      have hrest := fun j res => ih j res fun x hx => hok x (List.mem_cons_of_mem item hx)
      by_cases hblank : item.cpnId = ""
      · rw [runItems, hlive, if_neg Bool.false_ne_true, if_pos hblank, hrest]
        simp [hblank]
      · obtain ⟨b, hb⟩ := hok item List.mem_cons_self hblank
        rw [runItems, hlive, if_neg Bool.false_ne_true, if_neg hblank, hb]
        simp [hrest, hblank, holds_of_ok hb, Bool.and_assoc]

/-- What the loop over the items of an `or` condition returns while no item has held. -/
theorem runItems_or {operator : String} (hor : operator ≠ "and")
    (hlive : ∀ check, canceled check = false) (i j : ℕ) {res : List Bool}
    (hres : res.any id = false) {items : List SwitchItem}
    (hok : ∀ item ∈ items, item.cpnId ≠ "" → ∃ b, itemHolds py dsl h item = .ok b) :
    runItems py dsl canceled h i operator j res items =
      .ok ((items.filter fun item => item.cpnId ≠ "").any (holds py dsl h) ||
        decide (res = [] ∧ (items.filter fun item => item.cpnId ≠ "") = [])) := by
  induction items generalizing j res with
  | nil =>
      rcases res with - | ⟨b, res⟩
      · simp [runItems]
      · simp only [List.any_cons, Bool.or_eq_false_iff, id_eq] at hres
        simp [runItems, hres.1]
  | cons item items ih =>
      have hrest := fun x hx => hok x (List.mem_cons_of_mem item hx)
      by_cases hblank : item.cpnId = ""
      · rw [runItems, hlive, if_neg Bool.false_ne_true, if_pos hblank, ih _ hres hrest]
        simp [hblank]
      · obtain ⟨b, hb⟩ := hok item List.mem_cons_self hblank
        rw [runItems, hlive, if_neg Bool.false_ne_true, if_neg hblank, hb]
        have hany : (res ++ [b]).any id = b := by simp [hres]
        rcases b with - | -
        · have hnot : ¬ (operator ≠ "and" ∧ (res ++ [false]).any id = true) := by simp [hany]
          simp only [if_neg hnot]
          rw [ih _ hany hrest]
          simp [hblank, holds_of_ok hb]
        · have hexit : operator ≠ "and" ∧ (res ++ [true]).any id = true := ⟨hor, hany⟩
          simp only [if_pos hexit]
          simp [hblank, holds_of_ok hb]

theorem runItems_eq_taken (hlive : ∀ check, canceled check = false) (i : ℕ)
    {cond : SwitchCondition}
    (hok : ∀ item ∈ cond.filled, ∃ b, itemHolds py dsl h item = .ok b) :
    runItems py dsl canceled h i cond.logicalOperator 0 [] cond.items =
      .ok (taken py dsl h cond) := by
  have hitems : ∀ item ∈ cond.items, item.cpnId ≠ "" →
      ∃ b, itemHolds py dsl h item = .ok b := by
    intro item hitem hname
    exact hok item (List.mem_filter.mpr ⟨hitem, by simpa using hname⟩)
  by_cases hand : cond.logicalOperator = "and"
  · rw [hand, runItems_and hlive i 0 [] hitems]
    simp [taken, satisfied, hand, SwitchCondition.BlankOr, SwitchCondition.filled]
  · rw [runItems_or hand hlive i 0 rfl hitems]
    simp [taken, satisfied, hand, SwitchCondition.BlankOr, SwitchCondition.filled]

/-- The loop routes to the first condition that it takes. -/
theorem runConditions_eq (hlive : ∀ check, canceled check = false) (endCpnIds : List CpnId)
    (i : ℕ) {conds : List SwitchCondition}
    (hok : ∀ cond ∈ conds, ∀ item ∈ cond.filled, ∃ b, itemHolds py dsl h item = .ok b) :
    runConditions py dsl canceled h endCpnIds i conds =
      .ok (((conds.find? (taken py dsl h)).map SwitchCondition.target).getD endCpnIds) := by
  induction conds generalizing i with
  | nil => rfl
  | cons cond conds ih =>
      have hrest := ih (i + 1) fun d hd => hok d (List.mem_cons_of_mem cond hd)
      rw [runConditions, hlive, if_neg Bool.false_ne_true,
        runItems_eq_taken hlive i (hok cond List.mem_cons_self)]
      rcases htaken : taken py dsl h cond with - | -
      · rw [List.find?_cons_of_neg (by simp [htaken])]
        exact hrest
      · rw [List.find?_cons_of_pos htaken]
        rfl

/-- The two routes part where an `or` condition without filled items is met first. -/
theorem taken_route_eq_iff (endCpnIds : List CpnId) (conds : List SwitchCondition) :
    ((conds.find? (taken py dsl h)).map SwitchCondition.target).getD endCpnIds =
        destination py dsl h endCpnIds conds ↔
      ∀ pre cond post, conds = pre ++ cond :: post →
        (∀ d ∈ pre, satisfied py dsl h d = false ∧ ¬ d.BlankOr) → cond.BlankOr →
          cond.target = destination py dsl h endCpnIds post := by
  induction conds with
  | nil => simp [destination]
  | cons cond conds ih =>
      by_cases hblank : cond.BlankOr
      · have hsat : satisfied py dsl h cond = false := by
          simp [satisfied, hblank.1, hblank.2]
        have hroute : destination py dsl h endCpnIds (cond :: conds) =
            destination py dsl h endCpnIds conds := by
          rw [destination, List.find?_cons_of_neg (by simp [hsat])]
          rfl
        rw [List.find?_cons_of_pos (by simp [taken, hblank]), hroute]
        constructor
        · intro heq pre d post hsplit hpre hd
          rcases pre with - | ⟨x, pre⟩
          · obtain ⟨rfl, rfl⟩ := List.cons.inj hsplit
            exact heq
          · obtain ⟨rfl, -⟩ := List.cons.inj hsplit
            exact absurd hblank (hpre cond List.mem_cons_self).2
        · intro hall
          exact hall [] cond conds rfl (by simp) hblank
      · rcases hsat : satisfied py dsl h cond with - | -
        · have htaken : ¬ taken py dsl h cond = true := by simp [taken, hsat, hblank]
          have hroute : destination py dsl h endCpnIds (cond :: conds) =
              destination py dsl h endCpnIds conds := by
            rw [destination, List.find?_cons_of_neg (by simp [hsat])]
            rfl
          rw [List.find?_cons_of_neg htaken, hroute, ih]
          constructor
          · intro hall pre d post hsplit hpre hd
            rcases pre with - | ⟨x, pre⟩
            · obtain ⟨rfl, -⟩ := List.cons.inj hsplit
              exact absurd hd hblank
            · obtain ⟨rfl, htail⟩ := List.cons.inj hsplit
              exact hall pre d post htail (fun e he => hpre e (List.mem_cons_of_mem cond he)) hd
          · intro hall pre d post hsplit hpre hd
            refine hall (cond :: pre) d post (congrArg (cond :: ·) hsplit) ?_ hd
            intro e he
            rcases List.mem_cons.mp he with rfl | he
            · exact ⟨hsat, hblank⟩
            · exact hpre e he
        · have htaken : taken py dsl h cond = true := by simp [taken, hsat]
          rw [List.find?_cons_of_pos htaken, destination, List.find?_cons_of_pos hsat]
          constructor
          · intro _ pre d post hsplit hpre hd
            rcases pre with - | ⟨x, pre⟩
            · obtain ⟨rfl, -⟩ := List.cons.inj hsplit
              exact absurd hd hblank
            · obtain ⟨rfl, -⟩ := List.cons.inj hsplit
              exact absurd (hpre cond List.mem_cons_self).1 (by simp [hsat])
          · intro _
            rfl

theorem output_setRoute_next (names : CpnId → String) (c : CpnId) (target : List CpnId) :
    (setRoute h names c target).output c "next" =
      .list (target.map fun x => .str (names x)) := by
  rw [setRoute, Heap.output_setOutput_key _ (by decide) (by decide)]
  exact Heap.output_setOutput_self _ (by decide) _ _

theorem output_setRoute (names : CpnId → String) (c : CpnId) (target : List CpnId) :
    (setRoute h names c target).output c "_next" = .list (target.map .str) :=
  Heap.output_setOutput_self _ (by decide) _ _

variable (py dsl canceled h)

/-- When nothing raises and the task is not canceled, the switch obeys its law exactly when no
`or` condition without a filled item stands in front of the first satisfied condition, or such a
condition leads where the conditions behind it lead. -/
theorem routesToFirst_iff (names : CpnId → String) (param : SwitchParam) (c : CpnId)
    (hlive : ∀ check, canceled check = false) (hok : NoneRaises py dsl h param) :
    RoutesToFirst py dsl canceled h names param c ↔
      ∀ pre cond post, param.conditions = pre ++ cond :: post →
        (∀ d ∈ pre, satisfied py dsl h d = false ∧ ¬ d.BlankOr) → cond.BlankOr →
          cond.target = destination py dsl h param.endCpnIds post := by
  have hinvoke : switchInvoke py dsl canceled h names param c =
      { heap := setRoute h names c (((param.conditions.find? (taken py dsl h)).map
          SwitchCondition.target).getD param.endCpnIds) } := by
    rw [switchInvoke, hlive, if_neg Bool.false_ne_true, runConditions_eq hlive _ 0 hok]
  rw [← taken_route_eq_iff, RoutesToFirst, hinvoke]
  constructor
  · rintro ⟨-, -, hnext⟩
    rw [output_setRoute] at hnext
    exact List.map_injective_iff.mpr (fun _ _ heq => Value.str.inj heq) (Value.list.inj hnext)
  · intro heq
    exact ⟨rfl, by rw [output_setRoute_next, heq], by rw [output_setRoute, heq]⟩

/-- A library whose calls all fail, and a canvas with one global. -/
def failingSwitchInterp : SwitchInterp where
  toInterp := failingInterp
  float _ := .error "could not convert string to float"
  lower _ := .error "object has no attribute 'lower'"
  builtin _ _ _ := .error "not supported between instances"
  variableError exp := exp

def queryHeap : Heap where
  objs := fun _ => {}
  globals := [("sys.query", .str "refund")]

/-- An `or` condition whose only item is still blank, and an `and` condition behind it that
holds. -/
def blankSwitch : SwitchParam where
  conditions := [
    { logicalOperator := "or", items := [{ cpnId := "", operator := "contains" }],
      target := ["retrieval:0"] },
    { logicalOperator := "and", items := [{ cpnId := "sys.query", operator := "not empty" }],
      target := ["message:0"] }]
  endCpnIds := ["message:1"]

theorem noneRaises_blankSwitch :
    NoneRaises failingSwitchInterp profileDsl queryHeap blankSwitch := by
  intro cond hcond item hitem
  simp only [blankSwitch, List.mem_cons, List.not_mem_nil, or_false] at hcond
  rcases hcond with rfl | rfl
  · simp [SwitchCondition.filled] at hitem
  · obtain rfl : item = { cpnId := "sys.query", operator := "not empty" } := by
      simpa [SwitchCondition.filled] using hitem
    exact ⟨true, rfl⟩

/-- The route of the blank condition is taken. -/
theorem not_routesToFirst :
    ¬ ∀ (py : SwitchInterp) (dsl : Dsl) (canceled : SwitchCheck → Bool) (h : Heap)
      (names : CpnId → String) (param : SwitchParam) (c : CpnId),
      (∀ check, canceled check = false) → NoneRaises py dsl h param →
        RoutesToFirst py dsl canceled h names param c := by
  intro hall
  obtain ⟨-, -, hnext⟩ := hall failingSwitchInterp profileDsl (fun _ => false) queryHeap id
    blankSwitch "switch:0" (fun _ => rfl) noneRaises_blankSwitch
  have hroute : (switchInvoke failingSwitchInterp profileDsl (fun _ => false) queryHeap id
      blankSwitch "switch:0").heap.output "switch:0" "_next" = .list [.str "retrieval:0"] := by
    rfl
  have hlaw : destination failingSwitchInterp profileDsl queryHeap blankSwitch.endCpnIds
      blankSwitch.conditions = ["message:0"] := by
    rfl
  rw [hroute, hlaw] at hnext
  simp at hnext

/-- Without its blank condition the switch routes as it should. -/
theorem routesToFirst_filled :
    RoutesToFirst failingSwitchInterp profileDsl (fun _ => false) queryHeap id
      { blankSwitch with conditions := blankSwitch.conditions.drop 1 } "switch:0" := by
  apply (routesToFirst_iff _ _ _ _ _ _ _ (fun _ => rfl) ?_).mpr
  · intro pre cond post hsplit _ hblank
    change blankSwitch.conditions.drop 1 = pre ++ cond :: post at hsplit
    have hmem : cond ∈ blankSwitch.conditions.drop 1 := by
      rw [hsplit]
      exact List.mem_append_right pre List.mem_cons_self
    obtain rfl := List.mem_singleton.mp hmem
    exact absurd rfl hblank.1
  · intro cond hcond
    exact noneRaises_blankSwitch cond (List.mem_of_mem_drop hcond)

end RagflowMineru.Agent
