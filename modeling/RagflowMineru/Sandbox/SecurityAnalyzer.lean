import RagflowMineru.Sandbox.ContainerPool
import RagflowMineru.Sandbox.PythonSyntax
import Mathlib.Data.Int.Notation
import Mathlib.Data.List.TakeWhile
import Mathlib.Logic.Relation

/-!
# The security check of the sandbox

`SecurePythonAnalyzer` walks the syntax tree of the code it is given and
collects what its visitor methods object to.  Whatever a method reports, it
goes on to all the children of its node, so nothing in the tree is skipped.
The deny list of modules has one dotted entry, and an import is compared by its
first component only.
-/

namespace RagflowMineru.Sandbox

open Node

/-- An entry of `unsafe_items`: a description and a line number. -/
abbrev Issue := String × ℤ

/-- `DANGEROUS_IMPORTS`. -/
def dangerousImports : List String :=
  ["os", "subprocess", "sys", "shutil", "socket", "ctypes", "pickle",
    "threading", "multiprocessing", "asyncio", "http.client", "ftplib",
    "telnetlib"]

/-- `DANGEROUS_CALLS`. -/
def dangerousCalls : List String :=
  ["eval", "exec", "open", "__import__", "compile", "input", "system",
    "popen", "remove", "rename", "rmdir", "chdir", "chmod", "chown",
    "getattr", "setattr", "globals", "locals", "shutil.rmtree",
    "subprocess.call", "subprocess.Popen", "ctypes", "pickle.load",
    "pickle.loads", "pickle.dump", "pickle.dumps"]

/-- `name.split(".")[0]`. -/
def firstComponent (name : String) : String :=
  String.ofList (name.toList.takeWhile (· ≠ '.'))

/-! ## The visitor methods -/

namespace Node

/-- The `id` of an `ast.Name`. -/
def id? : Node → Option String
  | name id => some id
  | _ => none

/-- The name an `ast.Call` calls, when its `func` is an `ast.Name`. -/
def calledName? : Node → Option String
  | call _ func _ _ => func.id?
  | _ => none

def isConstant : Node → Bool
  | constant => true
  | _ => false

/-- The expression is a call of a name in `DANGEROUS_CALLS`. -/
def CallsDangerous (n : Node) : Prop := ∃ id ∈ n.calledName?, id ∈ dangerousCalls

instance (n : Node) : Decidable n.CallsDangerous :=
  inferInstanceAs (Decidable (∃ id ∈ n.calledName?, id ∈ dangerousCalls))

end Node

def visitImport (lineno : ℕ) (names : List Alias) : List Issue :=
  (names.filter fun a => firstComponent a.name ∈ dangerousImports).map
    fun a => ("Import: " ++ a.name, lineno)

def visitImportFrom (lineno : ℕ) (source : Option String) : List Issue :=
  match source with
  | some m =>
      if m ≠ "" ∧ firstComponent m ∈ dangerousImports then
        [("From Import: " ++ m, lineno)]
      else []
  | none => []

def visitCall (lineno : ℕ) (func : Node) : List Issue :=
  match func.id? with
  | some id => if id ∈ dangerousCalls then [("Call: " ++ id, lineno)] else []
  | none => []

def visitAttribute (lineno : ℕ) (value : Node) (attr : String) : List Issue :=
  match value.id? with
  | some id =>
      if id ∈ dangerousImports then
        [("Attribute Access: " ++ id ++ "." ++ attr, lineno)]
      else []
  | none => []

def visitBinOp (lineno : ℕ) (left right : Node) : List Issue :=
  if left.isConstant && right.isConstant then
    [("Possible unsafe string concatenation", lineno)]
  else []

def visitFunctionDef (lineno : ℕ) (name : String) : List Issue :=
  if name ∈ dangerousCalls then [("Function Definition: " ++ name, lineno)] else []

def visitAssign (lineno : ℕ) (targets : List Node) : List Issue :=
  ((targets.filterMap Node.id?).filter (· ∈ dangerousCalls)).map
    fun id => ("Assignment to dangerous variable: " ++ id, lineno)

/-- The check that the methods for lambdas, comprehensions and yields share. -/
def reportCall (n : Node) (description : String) (lineno : ℕ) : List Issue :=
  if n.CallsDangerous then [(description, lineno)] else []

def visitLambda (lineno : ℕ) (body : Node) : List Issue :=
  reportCall body "Lambda with dangerous function call" lineno

def visitListComp (lineno : ℕ) (elt : Node) : List Issue :=
  reportCall elt "List comprehension with dangerous function call" lineno

def visitDictComp (lineno : ℕ) (key value : Node) : List Issue :=
  reportCall key "Dict comprehension with dangerous function call in key" lineno ++
    reportCall value "Dict comprehension with dangerous function call in value" lineno

def visitSetComp (lineno : ℕ) (elt : Node) : List Issue :=
  reportCall elt "Set comprehension with dangerous function call" lineno

def visitYield (lineno : ℕ) (value : Option Node) : List Issue :=
  match value with
  | some v => reportCall v "Yield with dangerous function call" lineno
  | none => []

namespace Node

/-- What the visitor method of a node reports about the node itself. -/
def reports : Node → List Issue
  | importStmt lineno names => visitImport lineno names
  | importFrom lineno source _ _ => visitImportFrom lineno source
  | call lineno func _ _ => visitCall lineno func
  | attributeExpr lineno value attr => visitAttribute lineno value attr
  | binOp lineno left right => visitBinOp lineno left right
  | functionDef lineno id _ _ _ _ _ => visitFunctionDef lineno id
  | assign lineno targets _ => visitAssign lineno targets
  | lambdaExpr lineno _ body => visitLambda lineno body
  | listComp lineno elt _ => visitListComp lineno elt
  | dictComp lineno key value _ => visitDictComp lineno key value
  | setComp lineno elt _ => visitSetComp lineno elt
  | yieldExpr lineno value => visitYield lineno value
  | _ => []

/-- `generic_visit` of the node, for an `ast.comprehension`. -/
def comprehensionChildren : Node → List Node
  | comprehension target iter ifs => children (comprehension target iter ifs)
  | _ => []

/-- List and set comprehensions go through their generators once more, before
their own check. -/
def visitedFirst : Node → List Node
  | listComp _ _ generators => generators.flatMap comprehensionChildren
  | setComp _ _ generators => generators.flatMap comprehensionChildren
  | _ => []

theorem mem_children_of_mem_comprehensionChildren {g c : Node}
    (h : c ∈ g.comprehensionChildren) : c ∈ g.children := by
  cases g <;> simp only [comprehensionChildren, List.not_mem_nil] at h
  exact h

/-- A node visited first is a grandchild, so it is visited again later. -/
theorem exists_child_of_mem_visitedFirst {n c : Node} (h : c ∈ n.visitedFirst) :
    ∃ g ∈ n.children, c ∈ g.children := by
  cases n <;> simp only [visitedFirst, List.not_mem_nil, List.mem_flatMap] at h
  all_goals
    obtain ⟨g, hg, hc⟩ := h
    exact ⟨g, List.mem_cons_of_mem _ hg,
      mem_children_of_mem_comprehensionChildren hc⟩

theorem sizeOf_lt_of_mem_visitedFirst {n c : Node} (h : c ∈ n.visitedFirst) :
    sizeOf c < sizeOf n := by
  obtain ⟨g, hg, hc⟩ := exists_child_of_mem_visitedFirst h
  exact Nat.lt_trans (sizeOf_lt_of_mem_children hc) (sizeOf_lt_of_mem_children hg)

/-- `visit`: the entries it appends to `unsafe_items`. -/
def visit (n : Node) : List Issue :=
  n.visitedFirst.attach.flatMap (fun c => visit c.1) ++ n.reports ++
    n.children.attach.flatMap (fun c => visit c.1)
termination_by sizeOf n
decreasing_by
  · exact sizeOf_lt_of_mem_visitedFirst c.2
  · exact sizeOf_lt_of_mem_children c.2

theorem visit_eq (n : Node) :
    n.visit = n.visitedFirst.flatMap visit ++ n.reports ++ n.children.flatMap visit := by
  rw [visit]
  simp [List.flatMap_def]

/-- `m` is `n` or a node somewhere below it. -/
def Contains : Node → Node → Prop :=
  Relation.ReflTransGen fun n c => c ∈ n.children

theorem forall_contains_iff {P : Node → Prop} {n : Node} :
    (∀ m, n.Contains m → P m) ↔
      P n ∧ ∀ c ∈ n.children, ∀ m, c.Contains m → P m := by
  constructor
  · intro h
    exact ⟨h n .refl, fun c hc m hm => h m (.head hc hm)⟩
  · rintro ⟨hn, hc⟩ m hm
    obtain rfl | ⟨c, hnc, hcm⟩ := hm.cases_head
    · exact hn
    · exact hc c hnc m hcm

/-- The walk skips nothing: what it returns is empty exactly when no method
reports its own node. -/
theorem visit_eq_nil_iff (n : Node) :
    n.visit = [] ↔ ∀ m, n.Contains m → m.reports = [] := by
  have ih : ∀ c ∈ n.children, (c.visit = [] ↔ ∀ m, c.Contains m → m.reports = []) :=
    fun c hc => visit_eq_nil_iff c
  rw [forall_contains_iff, visit_eq]
  simp only [List.append_eq_nil_iff, List.flatMap_eq_nil_iff]
  constructor
  · rintro ⟨⟨-, hn⟩, hc⟩
    exact ⟨hn, fun c h => (ih c h).mp (hc c h)⟩
  · rintro ⟨hn, hc⟩
    have hv : ∀ c ∈ n.children, c.visit = [] := fun c h => (ih c h).mpr (hc c h)
    refine ⟨⟨fun c hf => ?_, hn⟩, hv⟩
    -- the second visit of a generator is part of the first
    obtain ⟨g, hg, hcg⟩ := exists_child_of_mem_visitedFirst hf
    have hgv := hv g hg
    rw [visit_eq, List.append_eq_nil_iff, List.flatMap_eq_nil_iff] at hgv
    exact hgv.2 c hcg
termination_by sizeOf n
decreasing_by exact sizeOf_lt_of_mem_children hc

/-- What the visitor methods look for, kind by kind. -/
def Flagged : Node → Prop
  | importStmt _ names => ∃ a ∈ names, firstComponent a.name ∈ dangerousImports
  | importFrom _ source _ _ =>
      ∃ m ∈ source, m ≠ "" ∧ firstComponent m ∈ dangerousImports
  | call _ func _ _ => ∃ id ∈ func.id?, id ∈ dangerousCalls
  | attributeExpr _ value _ => ∃ id ∈ value.id?, id ∈ dangerousImports
  | binOp _ left right => left.isConstant ∧ right.isConstant
  | functionDef _ id _ _ _ _ _ => id ∈ dangerousCalls
  | assign _ targets _ => ∃ target ∈ targets, ∃ id ∈ target.id?, id ∈ dangerousCalls
  | lambdaExpr _ _ body => body.CallsDangerous
  | listComp _ elt _ => elt.CallsDangerous
  | dictComp _ key value _ => key.CallsDangerous ∨ value.CallsDangerous
  | setComp _ elt _ => elt.CallsDangerous
  | yieldExpr _ value => ∃ v ∈ value, v.CallsDangerous
  | _ => False

end Node

theorem reportCall_eq_nil_iff {n : Node} {description : String} {lineno : ℕ} :
    reportCall n description lineno = [] ↔ ¬ n.CallsDangerous := by
  simp [reportCall]

theorem Node.reports_eq_nil_iff (n : Node) : n.reports = [] ↔ ¬ n.Flagged := by
  cases n with
  | importStmt lineno names => simp [reports, visitImport, Flagged]
  | importFrom lineno source names level =>
      cases source <;> simp [reports, visitImportFrom, Flagged]
  | call lineno func args keywords =>
      cases h : func.id? <;> simp [reports, visitCall, Flagged, h]
  | attributeExpr lineno value attr =>
      cases h : value.id? <;> simp [reports, visitAttribute, Flagged, h]
  | binOp lineno left right => simp [reports, visitBinOp, Flagged]
  | functionDef lineno id args body decorators returns typeParams =>
      simp [reports, visitFunctionDef, Flagged]
  | assign lineno targets value =>
      simp only [reports, visitAssign, List.map_eq_nil_iff, List.filter_eq_nil_iff,
        List.mem_filterMap, decide_eq_true_eq, Option.mem_def, Flagged]
      grind
  | lambdaExpr lineno args body =>
      simp [reports, visitLambda, Flagged, reportCall_eq_nil_iff]
  | listComp lineno elt generators =>
      simp [reports, visitListComp, Flagged, reportCall_eq_nil_iff]
  | dictComp lineno key value generators =>
      simp [reports, visitDictComp, Flagged, reportCall_eq_nil_iff]
  | setComp lineno elt generators =>
      simp [reports, visitSetComp, Flagged, reportCall_eq_nil_iff]
  | yieldExpr lineno value =>
      cases value <;> simp [reports, visitYield, Flagged, reportCall_eq_nil_iff]
  | _ => simp [reports, Flagged]

/-- `SecurePythonAnalyzer().visit(tree)`: its `unsafe_items`. -/
def unsafeItems (tree : Node) : List Issue := tree.visit

theorem unsafeItems_eq_nil_iff {tree : Node} :
    unsafeItems tree = [] ↔ ∀ n, tree.Contains n → ¬ n.Flagged := by
  simp only [unsafeItems, visit_eq_nil_iff, reports_eq_nil_iff]

/-- What an f-string makes of a `SupportLanguage`. -/
def SupportLanguage.str : SupportLanguage → String
  | python => "SupportLanguage.PYTHON"
  | nodejs => "SupportLanguage.NODEJS"

/-- `analyze_code_security`, for a parser that returns a tree or fails with a
message. -/
def analyzeCodeSecurity (parse : String → Except String Node) (code : String)
    (language : SupportLanguage) : Bool × List Issue :=
  match language with
  | .python =>
      match parse code with
      | .ok tree => ((unsafeItems tree).isEmpty, unsafeItems tree)
      | .error e => (false, [("Parsing Error: " ++ e, -1)])
  | .nodejs =>
      (true, [("Unsupported language for security analysis: " ++ language.str ++
        " — defaulted to SAFE, manual review recommended", -1)])

theorem analyzeCodeSecurity_safe_iff (parse : String → Except String Node)
    (code : String) :
    (analyzeCodeSecurity parse code .python).1 ↔
      ∃ tree, parse code = .ok tree ∧ ∀ n, tree.Contains n → ¬ n.Flagged := by
  cases h : parse code with
  | error e => simp [analyzeCodeSecurity, h]
  | ok tree => simp [analyzeCodeSecurity, h, ← unsafeItems_eq_nil_iff]

/-! ## What the deny lists say -/

/-- `name` is the module or one of its submodules. -/
def IsModule (name module : String) : Prop :=
  name = module ∨ (module ++ ".").toList <+: name.toList

namespace Node

/-- The modules a node imports by name.  `from m import a` imports `m`, and
`m.a` when that is a module; an import with leading dots is relative. -/
def imported : Node → List String
  | importStmt _ names => names.map Alias.name
  | importFrom _ (some m) names 0 => m :: names.map fun a => m ++ "." ++ a.name
  | _ => []

/-- The name or dotted name an expression spells. -/
def dottedName? : Node → Option String
  | name id => some id
  | attributeExpr _ value attr => value.dottedName?.map (· ++ "." ++ attr)
  | _ => none

def calleeName? : Node → Option String
  | call _ func _ _ => func.dottedName?
  | _ => none

/-- The name whose attribute a node reads, sets or deletes. -/
def accessedName? : Node → Option String
  | attributeExpr _ value _ => value.id?
  | _ => none

def Imports (n : Node) (module : String) : Prop := ∃ m ∈ n.imported, IsModule m module

/-- The node has nothing on the deny lists. -/
structure Allowed (n : Node) : Prop where
  modules : ∀ d ∈ dangerousImports, ¬ n.Imports d
  calls : ∀ s ∈ n.calleeName?, s ∉ dangerousCalls
  accesses : ∀ s ∈ n.accessedName?, s ∉ dangerousImports

end Node

/-! ## First components -/

@[simp]
theorem toList_firstComponent (name : String) :
    (firstComponent name).toList = name.toList.takeWhile (· ≠ '.') := by
  simp [firstComponent]

theorem firstComponent_eq_self {name : String} (h : '.' ∉ name.toList) :
    firstComponent name = name := by
  rw [← String.toList_inj, toList_firstComponent, List.takeWhile_eq_self_iff]
  intro c hc
  simpa using fun hd : c = '.' => h (hd ▸ hc)

theorem firstComponent_of_extends {name module : String}
    (h : (module ++ ".").toList <+: name.toList) :
    firstComponent name = firstComponent module := by
  obtain ⟨rest, hrest⟩ := h
  rw [← String.toList_inj, toList_firstComponent, toList_firstComponent, ← hrest]
  simpa [List.takeWhile_append] using
    fun h => ((List.takeWhile_prefix _).eq_of_length h).symm

@[simp]
theorem firstComponent_append_dot (module name : String) :
    firstComponent (module ++ "." ++ name) = firstComponent module :=
  firstComponent_of_extends (by simp)

theorem IsModule.firstComponent_eq {name module : String} (h : IsModule name module)
    (hdot : '.' ∉ module.toList) : firstComponent name = module := by
  obtain rfl | h := h
  · exact firstComponent_eq_self hdot
  · rw [firstComponent_of_extends h, firstComponent_eq_self hdot]

theorem dot_notMem_of_mem_dangerousImports :
    ∀ d ∈ dangerousImports, d ≠ "http.client" → '.' ∉ d.toList := by
  decide

theorem count_dot_le_one_of_mem_dangerousCalls :
    ∀ s ∈ dangerousCalls, s.toList.count '.' ≤ 1 := by
  decide

/-- The dotted entries of the one list start with modules of the other. -/
theorem firstComponent_mem_of_dot_mem :
    ∀ s ∈ dangerousCalls, '.' ∈ s.toList → firstComponent s ∈ dangerousImports := by
  decide

/-- A dotted callee on the list has a listed module before its only dot. -/
theorem module_of_append_dot_mem_dangerousCalls {module attr : String}
    (h : module ++ "." ++ attr ∈ dangerousCalls) :
    '.' ∉ module.toList ∧ module ∈ dangerousImports := by
  have hcount := count_dot_le_one_of_mem_dangerousCalls _ h
  have hmod : '.' ∉ module.toList := by
    intro hm
    have := List.count_pos_iff.mpr hm
    simp at hcount
    omega
  have hfirst := firstComponent_mem_of_dot_mem _ h (by simp)
  rw [firstComponent_append_dot, firstComponent_eq_self hmod] at hfirst
  exact ⟨hmod, hfirst⟩

/-! ## What a silent analyzer guarantees -/

namespace Node

/-- An import of a listed module is flagged, when that module has no dot. -/
theorem Flagged.of_imports {n : Node} {d : String} (h : n.Imports d)
    (hd : d ∈ dangerousImports) (hne : d ≠ "http.client") : n.Flagged := by
  have hdot := dot_notMem_of_mem_dangerousImports d hd hne
  obtain ⟨m, hm, hmd⟩ := h
  have hfirst := hmd.firstComponent_eq hdot
  cases n with
  | importStmt lineno names =>
      obtain ⟨a, ha, rfl⟩ := List.mem_map.mp hm
      exact ⟨a, ha, hfirst ▸ hd⟩
  | importFrom lineno source names level =>
      have hsource : ∃ s, source = some s ∧ firstComponent s = d := by
        cases source with
        | none => simp [imported] at hm
        | some s =>
            cases level with
            | succ level => simp [imported] at hm
            | zero =>
                refine ⟨s, rfl, ?_⟩
                obtain rfl | hm := List.mem_cons.mp hm
                · exact hfirst
                · obtain ⟨a, -, rfl⟩ := List.mem_map.mp hm
                  rwa [firstComponent_append_dot] at hfirst
      obtain ⟨s, rfl, rfl⟩ := hsource
      refine ⟨s, rfl, ?_, hd⟩
      rintro rfl
      revert hd
      decide
  | _ => simp [imported] at hm

theorem id?_of_dottedName? {n : Node} {s : String} (h : n.dottedName? = some s)
    (hdot : '.' ∉ s.toList) : n.id? = some s := by
  cases n with
  | name id => exact h
  | attributeExpr lineno value attr =>
      obtain ⟨v, -, rfl⟩ := Option.map_eq_some_iff.mp h
      simp at hdot
  | _ => simp [dottedName?] at h

/-- A call of something on the list is flagged at the call, or at the attribute
that is called. -/
theorem exists_flagged_of_calleeName? {n : Node} {s : String}
    (h : n.calleeName? = some s) (hs : s ∈ dangerousCalls) :
    ∃ m, n.Contains m ∧ m.Flagged := by
  cases n with
  | call lineno func args keywords =>
      cases func with
      | name id =>
          obtain rfl : id = s := Option.some.inj h
          exact ⟨_, .refl, id, rfl, hs⟩
      | attributeExpr line value attr =>
          obtain ⟨v, hv, rfl⟩ := Option.map_eq_some_iff.mp h
          obtain ⟨hdot, hmem⟩ := module_of_append_dot_mem_dangerousCalls hs
          refine ⟨attributeExpr line value attr, .single ?_, v, ?_, hmem⟩
          · simp [children]
          · exact id?_of_dottedName? hv hdot
      | _ => simp [calleeName?, dottedName?] at h
  | _ => simp [calleeName?] at h

theorem Flagged.of_accessedName? {n : Node} {s : String}
    (h : n.accessedName? = some s) (hs : s ∈ dangerousImports) : n.Flagged := by
  cases n with
  | attributeExpr lineno value attr => exact ⟨s, h, hs⟩
  | _ => simp [accessedName?] at h

/-- Without a flagged node, an import of `http.client` is all that can be
wrong. -/
theorem allowed_of_not_flagged {n : Node} (h : ∀ m, n.Contains m → ¬ m.Flagged)
    (hhttp : ¬ n.Imports "http.client") : n.Allowed where
  modules d hd himp := by
    by_cases hne : d = "http.client"
    · exact hhttp (hne ▸ himp)
    · exact h n .refl (.of_imports himp hd hne)
  calls s hs hmem := by
    obtain ⟨m, hm, hflag⟩ := exists_flagged_of_calleeName? hs hmem
    exact h m hm hflag
  accesses s hs hmem := h n .refl (.of_accessedName? hs hmem)

end Node

/-- A silent analyzer vouches for its deny lists, on every tree but those
with imports of `http.client` and nothing else it looks for. -/
theorem unsafeItems_sound_iff (tree : Node) :
    (unsafeItems tree = [] → ∀ n, tree.Contains n → n.Allowed) ↔
      (∃ n, tree.Contains n ∧ n.Flagged) ∨
        ¬ ∃ n, tree.Contains n ∧ n.Imports "http.client" := by
  rw [unsafeItems_eq_nil_iff]
  constructor
  · intro h
    by_cases hflag : ∃ n, tree.Contains n ∧ n.Flagged
    · exact .inl hflag
    · right
      rintro ⟨n, hn, himp⟩
      have hclear : ∀ n, tree.Contains n → ¬ n.Flagged := fun n hn hf => hflag ⟨n, hn, hf⟩
      exact (h hclear n hn).modules "http.client" (by decide) himp
  · rintro (⟨n, hn, hf⟩ | hhttp) hclear m hm
    · exact absurd hf (hclear n hn)
    · exact allowed_of_not_flagged (fun k hk => hclear k (hm.trans hk))
        fun himp => hhttp ⟨m, hm, himp⟩

/-- `import http.client` on its own is reported safe. -/
theorem import_http_client_unreported :
    ¬ (unsafeItems (module [importStmt 1 [⟨"http.client", none⟩]]) = [] →
      ∀ n, (module [importStmt 1 [⟨"http.client", none⟩]]).Contains n → n.Allowed) := by
  intro h
  have hsilent : unsafeItems (module [importStmt 1 [⟨"http.client", none⟩]]) = [] := by
    simp only [unsafeItems, visit_eq, visitedFirst, reports, children,
      List.flatMap_nil, List.flatMap_cons, List.append_nil, List.nil_append]
    decide
  refine (h hsilent (importStmt 1 [⟨"http.client", none⟩]) (.single ?_)).modules
    "http.client" (by decide) ⟨"http.client", ?_, .inl rfl⟩
  · simp [children]
  · simp [imported]

end RagflowMineru.Sandbox
