import RagflowMineru.Agent.Graph
import Mathlib.Data.List.DropRight

/-!
# Variable references of a canvas

A reference names a global, or an output of a component followed by a dotted
path into that output.  The reader walks the path through dictionaries, lists
and JSON strings.  The writer walks the whole path through dictionaries, which
it creates where they are missing, and then stores the value under the last
key once more, one level below the place that the reader looks at.
-/

namespace RagflowMineru.Agent

open RagflowMineru.Library

/-- What the reader takes from the Python library: `json.loads` and `int`
(`none` when they raise) and `getattr` with default `None`. -/
structure Interp where
  loads : String → Option Value
  int : String → Option ℤ
  getattr : Value → String → Value

/-! ## Parsing a reference -/

/-- `s.strip(c)` for one character. -/
def stripChar (c : Char) (s : List Char) : List Char :=
  (s.dropWhile (· = c)).rdropWhile (· = c)

/-- The braces and blanks taken off an expression. -/
def stripExpression (exp : String) : List Char :=
  stripChar '}' (stripChar '{' (stripChar ' '
    (stripChar '}' (stripChar '{' exp.toList))))

/-- A parsed expression: a global, or `cpn_id@root_key` with the text after the
first dot. -/
inductive Reference where
  | global (name : String)
  | output (cpnId rootKey rest : String)
  deriving DecidableEq

/-- The common prologue of `get_variable_value` and `set_variable_value`;
`none` is the exception for more than one `@`. -/
def parseReference (exp : String) : Option Reference :=
  let s := stripExpression exp
  if '@' ∈ s then
    match s.splitOn '@' with
    | [cpnId, varNm] =>
        some (.output (String.ofList cpnId)
          (String.ofList (varNm.takeWhile (· ≠ '.')))
          (String.ofList ((varNm.dropWhile (· ≠ '.')).drop 1)))
    | _ => none
  else
    some (.global (String.ofList s))

/-- `path.split('.')`. -/
def splitPath (path : String) : List String :=
  (path.toList.splitOn '.').map String.ofList

/-! ## Reading -/

/-- Python indexing of a list, negative indices counting from the end. -/
def pyIndex (items : List Value) (i : ℤ) : Option Value :=
  if 0 ≤ i then items[i.toNat]?
  else if 0 ≤ i + items.length then items[(i + items.length).toNat]?
  else none

/-- One step of the reader below a value that is neither `None` nor a string
still to be parsed. -/
def stepInto (py : Interp) (cur : Value) (key : String) : Value :=
  match cur with
  | .dict entries => (Assoc.get? key entries).getD .none
  | .list items => ((py.int key).bind (pyIndex items)).getD .none
  | other => py.getattr other key

/-- The loop of `get_variable_param_value`. -/
def getVariableParamValue (py : Interp) : Value → List String → Value
  | cur, [] => cur
  | .none, _ :: _ => .none
  | .str s, key :: keys =>
      match py.loads s with
      | some parsed => getVariableParamValue py (stepInto py parsed key) keys
      | none => .none
  | cur, key :: keys => getVariableParamValue py (stepInto py cur key) keys

/-- `get_variable_value`; `none` is an exception. -/
def getVariableValue (py : Interp) (dsl : Dsl) (h : Heap) (exp : String) :
    Option Value := do
  match ← parseReference exp with
  | .global name => Assoc.get? name h.globals
  | .output cpnId rootKey rest =>
      let _ ← dsl.getComponent cpnId
      let rootVal := h.output cpnId rootKey
      if rest = "" then some rootVal
      else some (getVariableParamValue py rootVal (splitPath rest))

/-! ## Writing -/

/-- The loop of `set_variable_param_value` over the keys still to be walked,
followed by the assignment to the last key.  Only dictionaries can be walked;
on every other value the membership test or the item assignment raises. -/
def setVariableParamValue (last : String) (value : Value) :
    Value → List String → Option Value
  | .dict entries, [] => some (.dict (Assoc.set last value entries))
  | .dict entries, key :: keys => do
      let child :=
        match Assoc.get? key entries with
        | some (.dict inner) => inner
        | _ => []
      let child' ← setVariableParamValue last value (.dict child) keys
      some (.dict (Assoc.set key child' entries))
  | _, _ => none

/-- `set_variable_value`; `none` is an exception. -/
def setVariableValue (dsl : Dsl) (h : Heap) (exp : String) (value : Value) :
    Option Heap := do
  match ← parseReference exp with
  | .global name => some { h with globals := Assoc.set name value h.globals }
  | .output cpnId rootKey rest =>
      let _ ← dsl.getComponent cpnId
      if rest = "" then some (h.setOutput cpnId rootKey value)
      else
        let rootVal := h.output cpnId rootKey
        let obj := if rootVal.truthy then rootVal else .dict []
        let keys := splitPath rest
        let obj' ← setVariableParamValue (keys.getLastD "") value obj keys
        some (h.setOutput cpnId rootKey obj')

/-! ## What the writer does -/

/-- After a write the reader finds, at the path written to, the dictionary in
which the value was stored. -/
theorem getVariableParamValue_setVariableParamValue
    (py : Interp) {last : String} {value obj obj' : Value} {keys : List String}
    (h : setVariableParamValue last value obj keys = some obj') :
    ∃ entries, getVariableParamValue py obj' keys = .dict entries ∧
      Assoc.get? last entries = some value := by
  induction keys generalizing obj obj' with
  | nil =>
      cases obj with
      | dict entries =>
          have hobj : obj' = .dict (Assoc.set last value entries) := by
            simpa [setVariableParamValue] using h.symm
          subst hobj
          refine ⟨Assoc.set last value entries, ?_,
            Assoc.get?_set_self _ _ _⟩
          simp [getVariableParamValue]
      | _ => simp [setVariableParamValue] at h
  | cons key keys ih =>
      cases obj with
      | dict entries =>
          simp only [setVariableParamValue, Option.bind_eq_bind,
            Option.bind_eq_some_iff] at h
          obtain ⟨child', hchild, hobj⟩ := h
          obtain rfl := Option.some.inj hobj
          obtain ⟨inner, hread, hlast⟩ := ih hchild
          refine ⟨inner, ?_, hlast⟩
          simpa [getVariableParamValue, stepInto] using hread
      | _ => simp [setVariableParamValue] at h

/-- A dictionary is not one of its own values. -/
theorem Value.ne_dict_of_get? {key : String} {value : Value}
    {entries : List (String × Value)}
    (h : Assoc.get? key entries = some value) : .dict entries ≠ value := by
  intro heq
  have hmem := List.sizeOf_lt_of_mem (Assoc.mem_of_get? h)
  have hsize := congrArg sizeOf heq
  simp only [Value.dict.sizeOf_spec, Prod.mk.sizeOf_spec] at hsize hmem
  omega

/-- Writing below a root stores there a value in which the last key of the path
occurs twice. -/
theorem setVariableValue_rest_spec
    (py : Interp) {dsl : Dsl} {h h' : Heap} {exp : String} {value : Value}
    {cpnId rootKey rest : String}
    (hexp : parseReference exp = some (.output cpnId rootKey rest))
    (hroot : rootKey ≠ "") (hrest : rest ≠ "")
    (hset : setVariableValue dsl h exp value = some h') :
    ∃ entries, getVariableValue py dsl h' exp = some (.dict entries) ∧
      Assoc.get? ((splitPath rest).getLastD "") entries = some value := by
  simp only [setVariableValue, hexp, hrest, Option.bind_eq_bind,
    Option.bind_some, Option.bind_eq_some_iff, if_false] at hset
  obtain ⟨cpn, hcpn, obj', hobj', hh'⟩ := hset
  obtain rfl := Option.some.inj hh'
  obtain ⟨entries, hread, hlast⟩ :=
    getVariableParamValue_setVariableParamValue py hobj'
  refine ⟨entries, ?_, hlast⟩
  simp [getVariableValue, hexp, hcpn, hrest, hroot, hread]

/-! ## The read-after-write law -/

/-- Two dotted paths of which neither is a prefix of the other. -/
def PathsDiverge (p q : List String) : Prop := ¬ p <+: q ∧ ¬ q <+: p

/-- What a writer and a reader of one variable owe each other: the write
succeeds, the value read back is the value written, and every path of the same
root that is not prefix-related to the path written reads as before. -/
def ReadAfterWrite (py : Interp) (dsl : Dsl) (h : Heap) (exp : String)
    (value : Value) : Prop :=
  ∃ h', setVariableValue dsl h exp value = some h' ∧
    getVariableValue py dsl h' exp = some value ∧
    ∀ cpnId rootKey rest exp' rest',
      parseReference exp = some (.output cpnId rootKey rest) →
      parseReference exp' = some (.output cpnId rootKey rest') →
      PathsDiverge (splitPath rest) (splitPath rest') →
        getVariableValue py dsl h' exp' = getVariableValue py dsl h exp'

/-- No write below a root is ever read back: whatever the canvas holds and
whatever is written, the reader finds the dictionary around the value. -/
theorem readAfterWrite_fails_below_root
    (py : Interp) (dsl : Dsl) (h : Heap) (exp : String) (value : Value)
    {cpnId rootKey rest : String}
    (hexp : parseReference exp = some (.output cpnId rootKey rest))
    (hroot : rootKey ≠ "") (hrest : rest ≠ "") :
    ¬ ReadAfterWrite py dsl h exp value := by
  rintro ⟨h', hset, hget, -⟩
  obtain ⟨entries, hread, hlast⟩ :=
    setVariableValue_rest_spec py hexp hroot hrest hset
  have heq : Value.dict entries = value := by
    rw [hread] at hget
    exact Option.some.inj hget
  exact Value.ne_dict_of_get? hlast heq

/-- A canvas with one component that has written nothing yet, and an
interpreter whose library calls all fail. -/
def profileDsl : Dsl where
  components := [("assigner", { kind := .other })]
  nodup := by decide

def profileHeap : Heap where
  objs := fun _ => {}
  globals := []

def failingInterp : Interp where
  loads := fun _ => none
  int := fun _ => none
  getattr := fun _ _ => .none

/-- The failing law at one input: `assigner@profile.name` is read back as
`{"name": "Ann"}`. -/
theorem readAfterWrite_profile_name :
    ¬ ReadAfterWrite failingInterp profileDsl profileHeap
      "assigner@profile.name" (.str "Ann") := by
  rintro ⟨h', hset, hget, -⟩
  have hread :
      (setVariableValue profileDsl profileHeap "assigner@profile.name"
          (.str "Ann")).bind
        (fun h => getVariableValue failingInterp profileDsl h
          "assigner@profile.name") =
        some (.dict [("name", .str "Ann")]) := by
    rfl
  rw [hset, Option.bind_some, hget] at hread
  simp at hread

theorem readAfterWrite_fails_below_root_profile :
    parseReference "assigner@profile.name" =
        some (.output "assigner" "profile" "name") ∧
      ¬ ReadAfterWrite failingInterp profileDsl profileHeap
        "assigner@profile.name" (.str "Ann") := by
  have hexp : parseReference "assigner@profile.name" =
      some (.output "assigner" "profile" "name") := by decide
  exact ⟨hexp, readAfterWrite_fails_below_root failingInterp profileDsl
    profileHeap "assigner@profile.name" (.str "Ann") hexp
    (by decide) (by decide)⟩

end RagflowMineru.Agent
