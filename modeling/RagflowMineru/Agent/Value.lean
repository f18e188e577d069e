import RagflowMineru.Library.Assoc
import Mathlib.Data.Rat.Defs
import Mathlib.Algebra.Order.Ring.Rat

/-!
# Run-time values of the agent canvas

Outputs, globals and parameters of a canvas hold JSON values, and an output may
also hold a pending stream (`functools.partial`), which is not JSON.
-/

namespace RagflowMineru.Agent

open RagflowMineru.Library

/-- A Python value as the canvas stores it. -/
inductive Value where
  | none
  | bool (b : Bool)
  | int (n : ℤ)
  | float (q : ℚ)
  | str (s : String)
  | list (items : List Value)
  | dict (entries : List (String × Value))
  | stream (chunks : List String)
  deriving Inhabited

namespace Value

/-- `bool(value)`. -/
def truthy : Value → Bool
  | .none => false
  | .bool b => b
  | .int n => n ≠ 0
  | .float q => q ≠ 0
  | .str s => s ≠ ""
  | .list items => !items.isEmpty
  | .dict entries => !entries.isEmpty
  | .stream _ => true

/-- `isinstance(value, partial)`. -/
def isStream : Value → Bool
  | .stream _ => true
  | _ => false

/-- The number a value is for Python's arithmetic comparisons. -/
def number? : Value → Option ℚ
  | .bool b => some (if b then 1 else 0)
  | .int n => some n
  | .float q => some q
  | _ => Option.none

mutual

/-- Python's `==` between two values. -/
def pyEq : Value → Value → Bool
  | .none, .none => true
  | .str a, .str b => a = b
  | .list xs, .list ys => listEq xs ys
  | .dict xs, .dict ys => xs.length = ys.length && entriesIn xs ys
  | .stream xs, .stream ys => xs = ys
  | x, y =>
      match x.number?, y.number? with
      | some p, some q => p = q
      | _, _ => false

/-- Elementwise `==` of two lists. -/
def listEq : List Value → List Value → Bool
  | [], [] => true
  | x :: xs, y :: ys => pyEq x y && listEq xs ys
  | _, _ => false

/-- Every entry of the first dictionary is an entry of the second. -/
def entriesIn : List (String × Value) → List (String × Value) → Bool
  | [], _ => true
  | (k, v) :: rest, ys =>
      (match Assoc.get? k ys with
        | some w => pyEq v w
        | Option.none => false) && entriesIn rest ys

end

end Value

end RagflowMineru.Agent
