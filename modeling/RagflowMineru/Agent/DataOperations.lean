import RagflowMineru.Library.Assoc
import RagflowMineru.MinerU.Otsl
import Mathlib.Algebra.GroupWithZero.Nat

/-!
# Operations on data

The component `DataOperations` reads objects from the canvas and applies an operation to
them.  The names of the operations stand at two places: where the parameters are checked,
and where the operation is chosen by its name, any other name standing for the last one.
-/

namespace RagflowMineru.Agent.DataOperations

open RagflowMineru.Library

/-- A value of Python; the leaves other than strings and `None` are left open. -/
inductive Data (ω : Type) where
  | none
  | str (s : String)
  | list (items : List (Data ω))
  | dict (members : List (String × Data ω))
  | atom (a : ω)

variable {ω : Type}

/-- An object: its members in their order. -/
abbrev Obj (ω : Type) := Assoc String (Data ω)

/-- What is used of Python: `literal_eval` gives nothing where it raises. -/
structure Python (ω : Type) where
  str : Data ω → String
  isdigit : String → Bool
  lower : String → String
  literalEval : String → Option (Data ω)

/-- What is used of the canvas. -/
structure Canvas (ω : Type) where
  getVariableValue : String → Data ω
  getValueWithVariable : String → String

structure Rule (ω : Type) where
  key : Option String
  operator : Option String
  value : Data ω

/-- `DataOperationsParam`; the updates and the pairs to rename are keys and values. -/
structure Param (ω : Type) where
  query : List String := []
  operations : String := "literal_eval"
  selectKeys : List String := []
  filterValues : List (Rule ω) := []
  updates : List (String × String) := []
  removeKeys : List String := []
  renameKeys : List (String × String) := []

/-- `str.strip`. -/
def strip (s : String) : String :=
  String.ofList (MinerU.strip s.toList)

/-! ## The operations -/

def selectKeys (keys : List String) (objs : List (Obj ω)) : Data ω :=
  .list (objs.map fun obj => .dict (obj.filter (·.1 ∈ keys)))

/-- What looks like a literal. -/
def looksLiteral (py : Python ω) (data : String) : Bool :=
  ((strip data).toList.head?.any fun c => c ∈ ['{', '[', '(', Char.ofNat 39, '"']) ||
    py.lower (strip data) ∈ ["true", "false", "none"] ||
    py.isdigit (String.ofList ((strip data).toList.filter (· ≠ '.')))

/-- `_recursive_eval` of a string. -/
def evalLeaf (py : Python ω) (data : String) : Data ω :=
  if looksLiteral py data then (py.literalEval data).getD (.str data) else .str data

mutual

/-- `_recursive_eval` -/
def recursiveEval (py : Python ω) : Data ω → Data ω
  | .none => .none
  | .str s => evalLeaf py s
  | .list items => .list (recursiveEvalItems py items)
  | .dict members => .dict (recursiveEvalMembers py members)
  | .atom a => .atom a

def recursiveEvalItems (py : Python ω) : List (Data ω) → List (Data ω)
  | [] => []
  | item :: items => recursiveEval py item :: recursiveEvalItems py items

def recursiveEvalMembers (py : Python ω) : List (String × Data ω) → List (String × Data ω)
  | [] => []
  | (k, v) :: members => (k, recursiveEval py v) :: recursiveEvalMembers py members

end

/-- `_literal_eval` -/
def literalEval (py : Python ω) (objs : List (Obj ω)) : Data ω :=
  recursiveEval py (.list (objs.map .dict))

/-- One round of the loops of `_combine`. -/
def combineValue (result : Obj ω) (member : String × Data ω) : Obj ω :=
  let items := match member.2 with
    | .list items => items
    | value => [value]
  match Assoc.get? member.1 result with
  | none => result.set member.1 member.2
  | some (.list old) => result.set member.1 (.list (old ++ items))
  | some old => result.set member.1 (.list (old :: items))

def combine (objs : List (Obj ω)) : Data ω :=
  .dict (objs.foldl (fun result obj => obj.foldl combineValue result) [])

def norm (py : Python ω) : Data ω → String
  | .none => ""
  | v => py.str v

def matchRule (py : Python ω) (canvas : Canvas ω) (obj : Obj ω) (rule : Rule ω) : Bool :=
  let op := match rule.operator with
    | none | some "" => "equals"
    | some op => py.lower op
  let target := norm py rule.value
  let target :=
    if canvas.getValueWithVariable target = "" then target else canvas.getValueWithVariable target
  match rule.key.bind fun key => Assoc.get? key obj with
  | none => false
  | some val =>
    let v := (norm py val).toList
    if op = "=" then v = target.toList
    else if op = "≠" then v ≠ target.toList
    else if op = "contains" then target.toList <:+: v
    else if op = "start with" then target.toList <+: v
    else if op = "end with" then target.toList <:+ v
    else false

def filterValues (py : Python ω) (canvas : Canvas ω) (rules : List (Rule ω))
    (objs : List (Obj ω)) : Data ω :=
  .list ((objs.filter fun obj => rules.all (matchRule py canvas obj)).map .dict)

def updateOne (canvas : Canvas ω) (obj : Obj ω) (item : String × String) : Obj ω :=
  let k := strip item.1
  if k = "" then obj
  else
    obj.set k (.str (if canvas.getValueWithVariable item.2 = "" then item.2
      else canvas.getValueWithVariable item.2))

def appendOrUpdate (canvas : Canvas ω) (updates : List (String × String))
    (objs : List (Obj ω)) : Data ω :=
  .list (objs.map fun obj => .dict (updates.foldl (updateOne canvas) obj))

/-- `pop` of a key. -/
def pop (obj : Obj ω) (k : String) : Obj ω :=
  obj.filter (·.1 ≠ k)

def removeKeys (keys : List String) (objs : List (Obj ω)) : Data ω :=
  .list (objs.map fun obj => .dict (keys.foldl pop obj))

def renameOne (obj : Obj ω) (pair : String × String) : Obj ω :=
  let old := strip pair.1
  let new := strip pair.2
  if old = "" ∨ new = "" ∨ old = new then obj
  else
    match Assoc.get? old obj with
    | none => obj
    | some v => (pop obj old).set new v

def rename (pairs : List (String × String)) (obj : Obj ω) : Obj ω :=
  pairs.foldl renameOne obj

def renameKeys (pairs : List (String × String)) (objs : List (Obj ω)) : Data ω :=
  .list (objs.map fun obj => .dict (rename pairs obj))

/-! ## Names -/

/-- The operations that `check` accepts. -/
inductive Operation where
  | selectKeys
  | literalEval
  | combine
  | filterValues
  | appendOrUpdate
  | removeKeys
  | renameKeys
  deriving DecidableEq

def Operation.name : Operation → String
  | selectKeys => "select_keys"
  | literalEval => "literal_eval"
  | combine => "combine"
  | filterValues => "filter_values"
  | appendOrUpdate => "append_or_update"
  | removeKeys => "remove_keys"
  | renameKeys => "rename_keys"

/-- `check`: whether the name of the operation is a valid value. -/
def check (param : Param ω) : Bool :=
  param.operations ∈ ["select_keys", "literal_eval", "combine", "filter_values",
    "append_or_update", "remove_keys", "rename_keys"]

/-- The objects of the inputs. -/
def inputObjects (canvas : Canvas ω) (query : List String) : List (Obj ω) :=
  query.flatMap fun ref =>
    match canvas.getVariableValue ref with
    | .dict members => [members]
    | .list items => items.filterMap fun
        | .dict members => some members
        | _ => none
    | _ => []

/-- `_invoke`: the output `result`. -/
def invoke (py : Python ω) (canvas : Canvas ω) (param : Param ω) : Data ω :=
  let objs := inputObjects canvas param.query
  if param.operations = "select_keys" then selectKeys param.selectKeys objs
  else if param.operations = "recursive_eval" then literalEval py objs
  else if param.operations = "combine" then combine objs
  else if param.operations = "filter_values" then filterValues py canvas param.filterValues objs
  else if param.operations = "append_or_update" then appendOrUpdate canvas param.updates objs
  else if param.operations = "remove_keys" then removeKeys param.removeKeys objs
  else renameKeys param.renameKeys objs

/-- What an operation does, by its name. -/
def perform (py : Python ω) (canvas : Canvas ω) (param : Param ω) (objs : List (Obj ω)) :
    Operation → Data ω
  | .selectKeys => selectKeys param.selectKeys objs
  | .literalEval => literalEval py objs
  | .combine => combine objs
  | .filterValues => filterValues py canvas param.filterValues objs
  | .appendOrUpdate => appendOrUpdate canvas param.updates objs
  | .removeKeys => removeKeys param.removeKeys objs
  | .renameKeys => renameKeys param.renameKeys objs

theorem check_iff (param : Param ω) : check param ↔ ∃ op : Operation, op.name = param.operations := by
  rw [check, decide_eq_true_eq]
  constructor
  · intro h
    simp only [List.mem_cons, List.not_mem_nil, or_false] at h
    rcases h with h | h | h | h | h | h | h
    · exact ⟨.selectKeys, h.symm⟩
    · exact ⟨.literalEval, h.symm⟩
    · exact ⟨.combine, h.symm⟩
    · exact ⟨.filterValues, h.symm⟩
    · exact ⟨.appendOrUpdate, h.symm⟩
    · exact ⟨.removeKeys, h.symm⟩
    · exact ⟨.renameKeys, h.symm⟩
  · rintro ⟨op, h⟩
    rw [← h]
    cases op <;> simp [Operation.name]

/-- Every accepted operation but `literal_eval`, whose keys are renamed, is the one applied. -/
theorem invoke_eq (py : Python ω) (canvas : Canvas ω) {param : Param ω} {op : Operation}
    (h : op.name = param.operations) :
    invoke py canvas param =
      perform py canvas param (inputObjects canvas param.query)
        (if op = .literalEval then .renameKeys else op) := by
  rw [invoke, ← h]
  cases op <;> rfl

/-! ## Evaluating leaves -/

mutual

def Data.size : Data ω → ℕ
  | .none => 1
  | .str s => s.length + 1
  | .list items => sizeItems items + 1
  | .dict members => sizeMembers members + 1
  | .atom _ => 1

def Data.sizeItems : List (Data ω) → ℕ
  | [] => 0
  | item :: items => item.size + sizeItems items

def Data.sizeMembers : List (String × Data ω) → ℕ
  | [] => 0
  | (_, v) :: members => v.size + sizeMembers members

end

mutual

/-- The strings in a value, at every depth. -/
def Data.leaves : Data ω → List String
  | .none => []
  | .str s => [s]
  | .list items => leavesItems items
  | .dict members => leavesMembers members
  | .atom _ => []

def Data.leavesItems : List (Data ω) → List String
  | [] => []
  | item :: items => item.leaves ++ leavesItems items

def Data.leavesMembers : List (String × Data ω) → List String
  | [] => []
  | (_, v) :: members => v.leaves ++ leavesMembers members

end

variable {py : Python ω}

open Data

mutual

/-- A value stays what it is exactly if its leaves do. -/
theorem recursiveEval_eq_self_iff (d : Data ω) :
    recursiveEval py d = d ↔ ∀ s ∈ d.leaves, evalLeaf py s = .str s := by
  match d with
  | .none => simp [recursiveEval, leaves]
  | .str s => simp [recursiveEval, leaves]
  | .list items =>
      rw [recursiveEval, leaves, Data.list.injEq]
      exact recursiveEvalItems_eq_self_iff items
  | .dict members =>
      rw [recursiveEval, leaves, Data.dict.injEq]
      exact recursiveEvalMembers_eq_self_iff members
  | .atom a => simp [recursiveEval, leaves]

theorem recursiveEvalItems_eq_self_iff (items : List (Data ω)) :
    recursiveEvalItems py items = items ↔
      ∀ s ∈ leavesItems items, evalLeaf py s = .str s := by
  match items with
  | [] => simp [recursiveEvalItems, leavesItems]
  | item :: items =>
      rw [recursiveEvalItems, leavesItems, List.cons.injEq, List.forall_mem_append,
        recursiveEval_eq_self_iff item, recursiveEvalItems_eq_self_iff items]

theorem recursiveEvalMembers_eq_self_iff (members : List (String × Data ω)) :
    recursiveEvalMembers py members = members ↔
      ∀ s ∈ leavesMembers members, evalLeaf py s = .str s := by
  match members with
  | [] => simp [recursiveEvalMembers, leavesMembers]
  | (k, v) :: members =>
      rw [recursiveEvalMembers, leavesMembers, List.cons.injEq, Prod.mk.injEq,
        List.forall_mem_append, recursiveEval_eq_self_iff v,
        recursiveEvalMembers_eq_self_iff members, and_iff_right rfl]

end

/-- A literal is shorter than its text. -/
def Shrinks (py : Python ω) : Prop :=
  ∀ s v, py.literalEval s = some v → v.size < (Data.str s : Data ω).size

theorem size_evalLeaf (hpy : Shrinks py) (s : String) :
    evalLeaf py s = .str s ∨ (evalLeaf py s).size < (Data.str s : Data ω).size := by
  rw [evalLeaf]
  split_ifs
  · rcases h : py.literalEval s with _ | v
    · exact Or.inl rfl
    · exact Or.inr (hpy s v h)
  · exact Or.inl rfl

mutual

/-- Evaluating makes a value smaller where it changes it. -/
theorem size_recursiveEval (hpy : Shrinks py) (d : Data ω) :
    recursiveEval py d = d ∨ (recursiveEval py d).size < d.size := by
  match d with
  | .none => exact Or.inl rfl
  | .str s => exact size_evalLeaf hpy s
  | .list items =>
      rw [recursiveEval, Data.list.injEq, size, size]
      exact (size_recursiveEvalItems hpy items).imp_right fun h => Nat.succ_lt_succ h
  | .dict members =>
      rw [recursiveEval, Data.dict.injEq, size, size]
      exact (size_recursiveEvalMembers hpy members).imp_right fun h => Nat.succ_lt_succ h
  | .atom a => exact Or.inl rfl

theorem size_recursiveEvalItems (hpy : Shrinks py) (items : List (Data ω)) :
    recursiveEvalItems py items = items ∨
      sizeItems (recursiveEvalItems py items) < sizeItems items := by
  match items with
  | [] => exact Or.inl rfl
  | item :: items =>
      rw [recursiveEvalItems, List.cons.injEq, sizeItems, sizeItems]
      rcases size_recursiveEval hpy item with h | h <;>
        rcases size_recursiveEvalItems hpy items with h' | h'
      · exact Or.inl ⟨h, h'⟩
      · rw [h]
        omega
      · rw [h']
        omega
      · omega

theorem size_recursiveEvalMembers (hpy : Shrinks py) (members : List (String × Data ω)) :
    recursiveEvalMembers py members = members ∨
      sizeMembers (recursiveEvalMembers py members) < sizeMembers members := by
  match members with
  | [] => exact Or.inl rfl
  | (k, v) :: members =>
      rw [recursiveEvalMembers, List.cons.injEq, Prod.mk.injEq, sizeMembers, sizeMembers]
      rcases size_recursiveEval hpy v with h | h <;>
        rcases size_recursiveEvalMembers hpy members with h' | h'
      · exact Or.inl ⟨⟨rfl, h⟩, h'⟩
      · rw [h]
        omega
      · rw [h']
        omega
      · omega

end

/-! ## Renaming keys -/

theorem sizeMembers_eq_sum (members : List (String × Data ω)) :
    sizeMembers members = ((members.map Prod.snd).map size).sum := by
  induction members with
  | nil => rfl
  | cons member members ih => rw [sizeMembers, ih]; rfl

theorem pop_of_get? {obj : Obj ω} {k : String} {v : Data ω} (h : Assoc.get? k obj = some v) :
    (pop obj k).length + 1 ≤ obj.length ∧
      ((pop obj k).length + 1 = obj.length →
        (v :: (pop obj k).map Prod.snd).Perm (obj.map Prod.snd)) := by
  induction obj with
  | nil => cases h
  | cons member obj ih =>
      obtain ⟨k', v'⟩ := member
      rw [Assoc.get?] at h
      by_cases hk : k' = k
      · rw [if_pos hk] at h
        obtain rfl := Option.some.inj h
        have hpop : pop ((k', v') :: obj) k = pop obj k :=
          List.filter_cons_of_neg (by simpa using hk)
        have hsublist : (pop obj k).Sublist obj := List.filter_sublist
        rw [hpop]
        refine ⟨Nat.succ_le_succ hsublist.length_le, fun hlength => ?_⟩
        rw [hsublist.eq_of_length (Nat.succ.inj hlength)]
        exact List.Perm.refl _
      · rw [if_neg hk] at h
        obtain ⟨hle, hperm⟩ := ih h
        have hpop : pop ((k', v') :: obj) k = (k', v') :: pop obj k :=
          List.filter_cons_of_pos (by simpa using hk)
        rw [hpop]
        refine ⟨Nat.succ_le_succ hle, fun hlength => ?_⟩
        exact (List.Perm.swap _ _ _).trans ((hperm (Nat.succ.inj hlength)).cons v')

/-- A rename moves values around, or loses one that another key had. -/
theorem renameOne_values (obj : Obj ω) (pair : String × String) :
    (renameOne obj pair).length < obj.length ∨
      ((renameOne obj pair).map Prod.snd).Perm (obj.map Prod.snd) := by
  rw [renameOne]
  split_ifs
  · exact Or.inr (List.Perm.refl _)
  rcases h : Assoc.get? (strip pair.1) obj with _ | v
  · exact Or.inr (List.Perm.refl _)
  obtain ⟨hle, hperm⟩ := pop_of_get? h
  dsimp only
  by_cases hnew : strip pair.2 ∈ Assoc.keys (pop obj (strip pair.1))
  · left
    have hkeys := Assoc.keys_set (strip pair.2) v (pop obj (strip pair.1))
    rw [if_pos hnew] at hkeys
    have hlength := congrArg List.length hkeys
    rw [Assoc.keys, Assoc.keys, List.length_map, List.length_map] at hlength
    omega
  · rw [Assoc.set_of_notMem hnew, List.length_append, List.length_singleton, List.map_append]
    rcases hle.lt_or_eq with hlt | heq
    · exact Or.inl hlt
    · exact Or.inr (List.perm_append_singleton _ _ |>.trans (hperm heq))

theorem rename_values (pairs : List (String × String)) (obj : Obj ω) :
    (rename pairs obj).length < obj.length ∨
      ((rename pairs obj).map Prod.snd).Perm (obj.map Prod.snd) := by
  induction pairs generalizing obj with
  | nil => exact Or.inr (List.Perm.refl _)
  | cons pair pairs ih =>
      have hrun : rename (pair :: pairs) obj = rename pairs (renameOne obj pair) := rfl
      rw [hrun]
      have hlength : ∀ {a b : Obj ω}, (a.map Prod.snd).Perm (b.map Prod.snd) →
          a.length = b.length := by
        intro a b h
        simpa using h.length_eq
      rcases renameOne_values obj pair with h | h <;> rcases ih (renameOne obj pair) with h' | h'
      · exact Or.inl (h'.trans h)
      · exact Or.inl ((hlength h').trans_lt h)
      · exact Or.inl (h'.trans_eq (hlength h))
      · exact Or.inr (h'.trans h)

theorem recursiveEvalMembers_eq_map (members : List (String × Data ω)) :
    recursiveEvalMembers py members = members.map fun m => (m.1, recursiveEval py m.2) := by
  induction members with
  | nil => rfl
  | cons member members ih => rw [recursiveEvalMembers, ih]; rfl

/-- Renaming does what evaluating does only where both do nothing. -/
theorem rename_eq_recursiveEval_iff (hpy : Shrinks py) (pairs : List (String × String))
    (obj : Obj ω) :
    rename pairs obj = recursiveEvalMembers py obj ↔
      rename pairs obj = obj ∧ ∀ s ∈ (Data.dict obj).leaves, evalLeaf py s = .str s := by
  rw [leaves, ← recursiveEvalMembers_eq_self_iff]
  constructor
  · intro heq
    have hsame : recursiveEvalMembers py obj = obj := by
      rcases size_recursiveEvalMembers hpy obj with hsame | hlt
      · exact hsame
      · rcases rename_values pairs obj with hless | hperm
        · rw [heq, recursiveEvalMembers_eq_map, List.length_map] at hless
          exact absurd hless (lt_irrefl _)
        · -- the values are the same up to their order, so none got smaller
          have hsum := (hperm.map size).sum_nat
          rw [← sizeMembers_eq_sum, ← sizeMembers_eq_sum, heq] at hsum
          exact absurd hsum hlt.ne
    exact ⟨heq.trans hsame, hsame⟩
  · rintro ⟨hrename, hsame⟩
    rw [hrename, hsame]

/-! ## The law -/

theorem recursiveEvalItems_eq_map (items : List (Data ω)) :
    recursiveEvalItems py items = items.map (recursiveEval py) := by
  induction items with
  | nil => rfl
  | cons item items ih => rw [recursiveEvalItems, ih, List.map_cons]

theorem renameKeys_eq_literalEval_iff (hpy : Shrinks py) (pairs : List (String × String))
    (objs : List (Obj ω)) :
    renameKeys pairs objs = literalEval py objs ↔
      ∀ obj ∈ objs, rename pairs obj = obj ∧
        ∀ s ∈ (Data.dict obj).leaves, evalLeaf py s = .str s := by
  rw [renameKeys, literalEval, recursiveEval, recursiveEvalItems_eq_map, List.map_map,
    Data.list.injEq, List.map_inj_left]
  refine forall₂_congr fun obj _ => ?_
  rw [← rename_eq_recursiveEval_iff hpy]
  exact Data.dict.injEq _ _ |>.to_iff

/-- An operation that the check accepts is the one applied, except that `literal_eval` is only
where no leaf of the inputs would change and no key is renamed. -/
theorem invoke_eq_perform_iff (hpy : Shrinks py) (canvas : Canvas ω) (param : Param ω)
    (hcheck : check param) :
    ∃ op : Operation, op.name = param.operations ∧
      (invoke py canvas param = perform py canvas param (inputObjects canvas param.query) op ↔
        (op = .literalEval → ∀ obj ∈ inputObjects canvas param.query,
          rename param.renameKeys obj = obj ∧
            ∀ s ∈ (Data.dict obj).leaves, evalLeaf py s = .str s)) := by
  obtain ⟨op, hop⟩ := (check_iff param).mp hcheck
  refine ⟨op, hop, ?_⟩
  rw [invoke_eq py canvas hop]
  by_cases hliteral : op = .literalEval
  · subst hliteral
    rw [if_pos rfl]
    exact (renameKeys_eq_literalEval_iff hpy _ _).trans ⟨fun h _ => h, fun h => h rfl⟩
  · rw [if_neg hliteral]
    exact iff_of_true rfl fun h => absurd h hliteral

/-- Of the literals, those that are made of digits. -/
def integers : Python ℤ where
  str
    | .str s => s
    | .atom n => toString n
    | _ => ""
  isdigit s := s ≠ "" && s.toList.all Char.isDigit
  lower s := String.ofList (s.toList.map Char.toLower)
  literalEval s :=
    if s ≠ "" ∧ s.toList.all Char.isDigit then
      some (.atom (s.toList.foldl (fun n c => 10 * n + (c.toNat - '0'.toNat)) 0))
    else none

def oneVariable (value : Data ℤ) : Canvas ℤ where
  getVariableValue _ := value
  getValueWithVariable s := s

theorem integers_shrinks : Shrinks integers := by
  intro s v h
  dsimp only [integers] at h
  split_ifs at h with hs
  rw [← Option.some.inj h, size, size]
  have hpos : s.length ≠ 0 := by simpa using hs.1
  omega

theorem invoke_eq_perform_iff_name :
    ∃ op : Operation, op.name = "literal_eval" ∧
      (invoke integers (oneVariable (.dict [("a", .str "b")])) { query := ["x"] } =
          perform integers (oneVariable (.dict [("a", .str "b")])) { query := ["x"] }
            (inputObjects (oneVariable (.dict [("a", .str "b")])) ["x"]) op ↔
        (op = .literalEval →
          ∀ obj ∈ inputObjects (oneVariable (.dict [("a", .str "b")])) ["x"],
            rename [] obj = obj ∧
              ∀ s ∈ (Data.dict obj).leaves, evalLeaf integers s = .str s)) :=
  invoke_eq_perform_iff integers_shrinks (oneVariable (.dict [("a", .str "b")]))
    { query := ["x"] } (by decide)

/-- A number in a string stays a string. -/
theorem not_literalEval_applied :
    ¬ ∀ (py : Python ℤ) (canvas : Canvas ℤ) (param : Param ℤ), check param →
      param.operations = Operation.literalEval.name →
      invoke py canvas param = literalEval py (inputObjects canvas param.query) := by
  intro h
  have heq := h integers (oneVariable (.dict [("a", .str "1")])) { query := ["x"] } (by decide) rfl
  have hinvoke : invoke integers (oneVariable (.dict [("a", .str "1")])) { query := ["x"] } =
      .list [.dict [("a", .str "1")]] := by rfl
  have heval : literalEval integers
      (inputObjects (oneVariable (.dict [("a", .str "1")])) ["x"]) =
        .list [.dict [("a", .atom 1)]] := by rfl
  rw [hinvoke] at heq
  cases heq.trans heval

end RagflowMineru.Agent.DataOperations
