import Mathlib.Data.List.ReduceOption

/-!
# Python syntax trees

The nodes of Python's `ast` module, as far as a visitor can tell them apart.
Operators, expression contexts, positions inside a line and the values of
constants are no nodes here: no visitor method reads them.
-/

namespace RagflowMineru.Sandbox

/-- `ast.alias`: one name of an import. -/
structure Alias where
  name : String
  asname : Option String

/-- A node of the tree `ast.parse` returns, with the fields that hold other
nodes, the names an analyzer can read and the line of the nodes it can report.
The kinds whose Python name is a Lean keyword carry what they are. -/
inductive Node
  | module (body : List Node)
  | functionDef (lineno : ℕ) (name : String) (args : Node)
      (body decorators : List Node) (returns : Option Node)
      (typeParams : List Node)
  | asyncFunctionDef (name : String) (args : Node)
      (body decorators : List Node) (returns : Option Node)
      (typeParams : List Node)
  | classDef (name : String) (bases keywords body decorators typeParams : List Node)
  | returnStmt (value : Option Node)
  | delete (targets : List Node)
  | assign (lineno : ℕ) (targets : List Node) (value : Node)
  | typeAlias (name : Node) (typeParams : List Node) (value : Node)
  | augAssign (target value : Node)
  | annAssign (target annotation : Node) (value : Option Node)
  | forStmt (target iter : Node) (body orelse : List Node)
  | asyncFor (target iter : Node) (body orelse : List Node)
  | whileStmt (test : Node) (body orelse : List Node)
  | ifStmt (test : Node) (body orelse : List Node)
  | withStmt (items body : List Node)
  | asyncWith (items body : List Node)
  | matchStmt (subject : Node) (cases : List Node)
  | raise (exc cause : Option Node)
  | tryStmt (body handlers orelse finalbody : List Node)
  | tryStar (body handlers orelse finalbody : List Node)
  | assert (test : Node) (msg : Option Node)
  | importStmt (lineno : ℕ) (names : List Alias)
  | importFrom (lineno : ℕ) (module : Option String) (names : List Alias)
      (level : ℕ)
  | globalStmt (names : List String)
  | nonlocalStmt (names : List String)
  | exprStmt (value : Node)
  | pass
  | breakStmt
  | continueStmt
  | boolOp (values : List Node)
  | namedExpr (target value : Node)
  | binOp (lineno : ℕ) (left right : Node)
  | unaryOp (operand : Node)
  | lambdaExpr (lineno : ℕ) (args body : Node)
  | ifExp (test body orelse : Node)
  | dict (keys : List (Option Node)) (values : List Node)
  | set (elts : List Node)
  | listComp (lineno : ℕ) (elt : Node) (generators : List Node)
  | setComp (lineno : ℕ) (elt : Node) (generators : List Node)
  | dictComp (lineno : ℕ) (key value : Node) (generators : List Node)
  | generatorExp (elt : Node) (generators : List Node)
  | await (value : Node)
  | yieldExpr (lineno : ℕ) (value : Option Node)
  | yieldFrom (value : Node)
  | compare (left : Node) (comparators : List Node)
  | call (lineno : ℕ) (func : Node) (args keywords : List Node)
  | formattedValue (value : Node) (formatSpec : Option Node)
  | joinedStr (values : List Node)
  | interpolation (value : Node) (formatSpec : Option Node)
  | templateStr (values : List Node)
  | constant
  | attributeExpr (lineno : ℕ) (value : Node) (attr : String)
  | subscript (value slice : Node)
  | starred (value : Node)
  | name (id : String)
  | list (elts : List Node)
  | tuple (elts : List Node)
  | slice (lower upper step : Option Node)
  | comprehension (target iter : Node) (ifs : List Node)
  | exceptHandler (type : Option Node) (body : List Node)
  | arguments (posonlyargs args : List Node) (vararg : Option Node)
      (kwonlyargs : List Node) (kwDefaults : List (Option Node))
      (kwarg : Option Node) (defaults : List Node)
  | arg ( annotation : Option Node)
  | keyword (value : Node)
  | withitem (contextExpr : Node) (optionalVars : Option Node)
  | matchCase (pattern : Node) (guard : Option Node) (body : List Node)
  | matchValue (value : Node)
  | matchSingleton
  | matchSequence (patterns : List Node)
  | matchMapping (keys patterns : List Node)
  | matchClass (cls : Node) (patterns kwdPatterns : List Node)
  | matchStar
  | matchAs (pattern : Option Node)
  | matchOr (patterns : List Node)
  | typeVar (bound default : Option Node)
  | paramSpec (default : Option Node)
  | typeVarTuple (default : Option Node)

namespace Node

/-- The nodes `generic_visit` visits: the fields in the order of `_fields`, a
list entry by entry, what is `None` left out. -/
def children : Node → List Node
  | module body => body
  | functionDef _ _ args body decorators returns typeParams =>
      args :: body ++ decorators ++ returns.toList ++ typeParams
  | asyncFunctionDef _ args body decorators returns typeParams =>
      args :: body ++ decorators ++ returns.toList ++ typeParams
  | classDef _ bases keywords body decorators typeParams =>
      bases ++ keywords ++ body ++ decorators ++ typeParams
  | returnStmt value => value.toList
  | delete targets => targets
  | assign _ targets value => targets ++ [value]
  | typeAlias target typeParams value => target :: typeParams ++ [value]
  | augAssign target value => [target, value]
  | annAssign target annotation value => target :: annotation :: value.toList
  | forStmt target iter body orelse => target :: iter :: body ++ orelse
  | asyncFor target iter body orelse => target :: iter :: body ++ orelse
  | whileStmt test body orelse => test :: body ++ orelse
  | ifStmt test body orelse => test :: body ++ orelse
  | withStmt items body => items ++ body
  | asyncWith items body => items ++ body
  | matchStmt subject cases => subject :: cases
  | raise exc cause => exc.toList ++ cause.toList
  | tryStmt body handlers orelse finalbody =>
      body ++ handlers ++ orelse ++ finalbody
  | tryStar body handlers orelse finalbody =>
      body ++ handlers ++ orelse ++ finalbody
  | assert test msg => test :: msg.toList
  | importStmt _ _ => []
  | importFrom _ _ _ _ => []
  | globalStmt _ => []
  | nonlocalStmt _ => []
  | exprStmt value => [value]
  | pass => []
  | breakStmt => []
  | continueStmt => []
  | boolOp values => values
  | namedExpr target value => [target, value]
  | binOp _ left right => [left, right]
  | unaryOp operand => [operand]
  | lambdaExpr _ args body => [args, body]
  | ifExp test body orelse => [test, body, orelse]
  | dict keys values => keys.reduceOption ++ values
  | set elts => elts
  | listComp _ elt generators => elt :: generators
  | setComp _ elt generators => elt :: generators
  | dictComp _ key value generators => key :: value :: generators
  | generatorExp elt generators => elt :: generators
  | await value => [value]
  | yieldExpr _ value => value.toList
  | yieldFrom value => [value]
  | compare left comparators => left :: comparators
  | call _ func args keywords => func :: args ++ keywords
  | formattedValue value formatSpec => value :: formatSpec.toList
  | joinedStr values => values
  | interpolation value formatSpec => value :: formatSpec.toList
  | templateStr values => values
  | constant => []
  | attributeExpr _ value _ => [value]
  | subscript value index => [value, index]
  | starred value => [value]
  | name _ => []
  | list elts => elts
  | tuple elts => elts
  | slice lower upper step => lower.toList ++ upper.toList ++ step.toList
  | comprehension target iter ifs => target :: iter :: ifs
  | exceptHandler type body => type.toList ++ body
  | arguments posonlyargs args vararg kwonlyargs kwDefaults kwarg defaults =>
      posonlyargs ++ args ++ vararg.toList ++ kwonlyargs ++
        kwDefaults.reduceOption ++ kwarg.toList ++ defaults
  | arg annotation => annotation.toList
  | keyword value => [value]
  | withitem contextExpr optionalVars => contextExpr :: optionalVars.toList
  | matchCase pattern guard body => pattern :: guard.toList ++ body
  | matchValue value => [value]
  | matchSingleton => []
  | matchSequence patterns => patterns
  | matchMapping keys patterns => keys ++ patterns
  | matchClass cls patterns kwdPatterns => cls :: patterns ++ kwdPatterns
  | matchStar => []
  | matchAs pattern => pattern.toList
  | matchOr patterns => patterns
  | typeVar bound default => bound.toList ++ default.toList
  | paramSpec default => default.toList
  | typeVarTuple default => default.toList

theorem sizeOf_lt_of_mem_toList {o : Option Node} {c : Node} (h : c ∈ o.toList) :
    sizeOf c < sizeOf o := by
  cases o with
  | none => simp at h
  | some m =>
      obtain rfl : c = m := by simpa using h
      simp

theorem sizeOf_lt_of_mem_reduceOption {l : List (Option Node)} {c : Node}
    (h : c ∈ l.reduceOption) : sizeOf c < sizeOf l := by
  rw [List.reduceOption_mem_iff] at h
  have h1 := List.sizeOf_lt_of_mem h
  simp at h1
  omega

/-- A node is larger than each node its fields hold. -/
theorem sizeOf_lt_of_mem_children {n c : Node} (h : c ∈ n.children) :
    sizeOf c < sizeOf n := by
  have ofList := fun (l : List Node) (h : c ∈ l) => List.sizeOf_lt_of_mem h
  have ofToList := fun (o : Option Node) (h : c ∈ o.toList) =>
    sizeOf_lt_of_mem_toList h
  have ofReduce := fun (l : List (Option Node)) (h : c ∈ l.reduceOption) =>
    sizeOf_lt_of_mem_reduceOption h
  cases n <;>
    simp only [children, List.mem_append, List.mem_cons, List.not_mem_nil] at h <;>
    grind

end Node

end RagflowMineru.Sandbox
