import RagflowMineru.Agent.LoopItem

/-!
# The iteration counter

`IterationItem` walks the list of its `Iteration` with the private field `_idx`
and `-1` as the end marker.  Each `_invoke` first collects the outputs of the
body for the previous item, then either sets the marker or emits the item at
the counter and advances it.  Nothing puts the counter back to `0`: an
iteration that is entered again starts by emitting `arr[-1]` under index `-1`.
-/

namespace RagflowMineru.Agent

open RagflowMineru.Library

/-- Run `f` on the heap an outcome leaves, unless it raised. -/
def Outcome.andThen (o : Outcome) (f : Heap → Outcome) : Outcome :=
  match o.raised with
  | none => f o.heap
  | some _ => o

/-- Run the passes for the elements of a list one after the other, up to the
first that raises. -/
def chain {α : Type*} (f : α → Heap → Outcome) (xs : List α) (h : Heap) :
    Outcome :=
  xs.foldl (fun o x => o.andThen (f x)) { heap := h }

/-- The `Iteration` around a component and its `items_ref`. -/
def parentIteration (dsl : Dsl) (c : CpnId) : Option (CpnId × String) :=
  match dsl.getParent c with
  | some (some (pid, parent)) =>
      match parent.kind with
      | .iteration itemsRef => some (pid, itemsRef)
      | _ => none
  | _ => none

/-- `_cid, var = o["ref"].split("@")`; `none` is an exception. -/
def splitRef (ref : String) : Option (CpnId × String) :=
  match ref.toList.splitOn '@' with
  | [cid, var] => some (String.ofList cid, String.ofList var)
  | _ => none

/-- One pass of the inner loop of `output_collation`: append the output of
`cid` that the declared output `k` of the container refers to. -/
def collateOutput (pid cid : CpnId) (entry : String × String) (h : Heap) :
    Outcome :=
  let (k, ref) := entry
  match splitRef ref with
  | none => { heap := h, raised := some "values to unpack" }
  | some (refCid, var) =>
      if refCid = cid then
        let res := h.output pid k
        if res.truthy then
          match res with
          | .list items =>
              { heap := h.setOutput pid k (.list (items ++ [h.output cid var])) }
          | _ => { heap := h, raised := some "no attribute 'append'" }
        else { heap := h.setOutput pid k (.list [h.output cid var]) }
      else { heap := h }

/-- One pass of the outer loop of `output_collation`.  The test on the kind of
the parent never applies: the parent is the container itself. -/
def collateComponent (dsl : Dsl) (pid cid : CpnId) (h : Heap) : Outcome :=
  match dsl.getParent cid with
  | none => { heap := h, raised := some "not subscriptable" }
  | some none => { heap := h }
  | some (some (p, parent)) =>
      if p = pid then chain (collateOutput pid cid) parent.outputRefs h
      else { heap := h }

/-- `output_collation`. -/
def outputCollation (dsl : Dsl) (pid : CpnId) (h : Heap) : Outcome :=
  chain (collateComponent dsl pid) dsl.ids h

/-- The tail of `_invoke`: end at the counter past the list, or emit the item
at the counter and advance it. -/
def emitItem (c : CpnId) (items : List Value) (canceled : Bool) (h : Heap) :
    Outcome :=
  let idx := (h.objs c).idx
  if (items.length : ℤ) ≤ idx then { heap := h.setIdx c (-1) }
  else if canceled then canceledOutcome c h
  else
    match pyIndex items idx with
    | none => { heap := h, raised := some "list index out of range" }
    | some item =>
        { heap := ((h.setOutput c "item" item).setOutput c "index"
            (.int idx)).setIdx c (idx + 1) }

/-- `IterationItem._invoke`, with the answers of its cancellation checks. -/
def iterationItemInvoke (py : Interp) (dsl : Dsl) (c : CpnId)
    (canceled canceled' canceled'' : Bool) (h : Heap) : Outcome :=
  if canceled then canceledOutcome c h
  else
    match parentIteration dsl c with
    | none => { heap := h, raised := some "no attribute 'items_ref'" }
    | some (pid, itemsRef) =>
        match getVariableValue py dsl h itemsRef with
        | none => { heap := h, raised := some "Can't find variable" }
        | some (.list items) =>
            let idx := (h.objs c).idx
            if 0 < idx then
              if canceled' then canceledOutcome c h
              else (outputCollation dsl pid h).andThen
                (emitItem c items canceled'')
            else emitItem c items canceled'' h
        | some _ =>
            { heap := h.setIdx c (-1),
              raised := some (itemsRef ++ " must be an array") }

/-- `IterationItem.end`. -/
def iterationItemEnd (c : CpnId) (h : Heap) : Bool := (h.objs c).idx = -1

end RagflowMineru.Agent
