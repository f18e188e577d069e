import RagflowMineru.Agent.Collation
import Mathlib.Algebra.BigOperators.Group.Finset.Basic

/-!
# One entry of an iteration

An entry of an `Iteration` is a sequence of visits to its `IterationItem`.
Between the visits the body runs and may change the canvas in any way; only the
counter is private to the item.  The entry works through its list as it should
when it starts from the counter `0`.  After a completed entry the counter is
`-1`, and the next entry emits the last item first.
-/

namespace RagflowMineru.Agent

open RagflowMineru.Library

/-- The canvas that a visit finds, and the answers to its cancellation
checks. -/
structure ItemVisit where
  heap : Heap
  canceled : Bool := false
  canceled' : Bool := false
  canceled'' : Bool := false

section Visits

variable (py : Interp) (dsl : Dsl) (c : CpnId)

/-- One visit with the given counter. -/
def visitOutcome (v : ItemVisit) (i : ℤ) : Outcome :=
  iterationItemInvoke py dsl c v.canceled v.canceled' v.canceled''
    (v.heap.setIdx c i)

/-- The counter before visit `t` of an entry that starts from `i`. -/
def counterAt (visits : ℕ → ItemVisit) (i : ℤ) : ℕ → ℤ
  | 0 => i
  | t + 1 =>
      ((visitOutcome py dsl c (visits t)
        (counterAt visits i t)).heap.objs c).idx

/-- The counters an `IterationItem` can have: `0` from the constructor, then any
sequence of visits. -/
inductive ItemCounter : ℤ → Prop
  | init : ItemCounter 0
  | visit {i : ℤ} (v : ItemVisit) (hi : ItemCounter i) :
      ItemCounter ((visitOutcome py dsl c v i).heap.objs c).idx

/-- The visit advances the counter and leaves an item and its index. -/
structure Emits (o : Outcome) (i : ℤ) (item : Value) (j : ℕ) : Prop where
  raised : o.raised = none
  advanced : (o.heap.objs c).idx = i + 1
  item : o.heap.output c "item" = item
  index : o.heap.output c "index" = .int j

/-- After the visit `end()` holds. -/
def Ends (o : Outcome) : Prop :=
  o.raised = none ∧ iterationItemEnd c o.heap = true

/-- The law of an entry with the list `arr`: the visits emit its items with
their indices and then end, and every declared output has collected one value
for each item. -/
structure EntryLaw (pid : CpnId) (refs : Assoc String String)
    (visits : ℕ → ItemVisit) (i : ℤ) (arr : List Value) : Prop where
  emits : ∀ t (ht : t < arr.length),
    Emits c (visitOutcome py dsl c (visits t) (counterAt py dsl c visits i t))
      (counterAt py dsl c visits i t) arr[t] t
  ends : Ends c (visitOutcome py dsl c (visits arr.length)
    (counterAt py dsl c visits i arr.length))
  collects : ∀ e ∈ refs,
    ∑ t ∈ Finset.range (arr.length + 1), collected pid e.1
        (visitOutcome py dsl c (visits t)
          (counterAt py dsl c visits i t)).heap =
      ∑ t ∈ Finset.range (arr.length + 1), collected pid e.1 (visits t).heap +
        arr.length

/-- Visit `t` finds a list with the given property, is not canceled, and can
collect the values of the previous item. -/
structure VisitReady (pid : CpnId) (itemsRef : String)
    (refs : Assoc String String) (v : ItemVisit) (t : ℕ)
    (P : List Value → Prop) : Prop where
  going : v.canceled = false
  collates : 0 < t → v.canceled' = false ∧ Collatable dsl pid refs v.heap
  reads : ∃ items, getVariableValue py dsl v.heap itemsRef =
    some (.list items) ∧ P items

/-- The canvas lets an entry with the counter `0` go through the list: every
visit before the last finds the item at its place, the last one finds no further
item, and the declared outputs refer into the body. -/
structure FirstEntry (pid : CpnId) (itemsRef : String)
    (refs : Assoc String String) (visits : ℕ → ItemVisit)
    (arr : List Value) : Prop where
  items : ∀ t (ht : t < arr.length),
    VisitReady py dsl pid itemsRef refs (visits t) t
      (fun items => items[t]? = some arr[t]) ∧ (visits t).canceled'' = false
  last : VisitReady py dsl pid itemsRef refs (visits arr.length) arr.length
    (fun items => items.length ≤ arr.length)
  inside : arr ≠ [] → ∀ e ∈ refs, (refCpn e.2).any (inBody dsl pid) = true

/-- An entry with the empty list that starts from another counter and still ends
at once without collecting anything: from a counter left over by an unfinished
entry when there is nothing to collect, and from the end marker when the task
is canceled. -/
def IdleEntry (pid : CpnId) (refs : Assoc String String)
    (v : ItemVisit) (i : ℤ) (arr : List Value) : Prop :=
  arr = [] ∧
    ((0 < i ∧ v.canceled = false ∧ v.canceled' = false ∧
        Collatable dsl pid refs v.heap ∧
        ∀ e ∈ refs, (refCpn e.2).any (inBody dsl pid) = false) ∨
      (i = -1 ∧ (v.canceled = true ∨ v.canceled'' = true)))

end Visits

/-! ## Emitting one item -/

section Emit

variable {c : CpnId} {items : List Value} {canceled : Bool} {h : Heap}

/-- The four ways out of the tail of `_invoke`. -/
theorem emitItem_cases (c : CpnId) (items : List Value) (canceled : Bool)
    (h : Heap) :
    ((items.length : ℤ) ≤ (h.objs c).idx ∧
      emitItem c items canceled h = { heap := h.setIdx c (-1) }) ∨
    ((h.objs c).idx < items.length ∧ canceled = true ∧
      emitItem c items canceled h = canceledOutcome c h) ∨
    ((h.objs c).idx < items.length ∧ canceled = false ∧
      pyIndex items (h.objs c).idx = none ∧
      emitItem c items canceled h =
        { heap := h, raised := some "list index out of range" }) ∨
    ((h.objs c).idx < items.length ∧ canceled = false ∧
      ∃ item, pyIndex items (h.objs c).idx = some item ∧
      emitItem c items canceled h =
        { heap := ((h.setOutput c "item" item).setOutput c "index"
            (.int (h.objs c).idx)).setIdx c ((h.objs c).idx + 1) }) := by
  unfold emitItem
  by_cases hge : (items.length : ℤ) ≤ (h.objs c).idx
  · exact Or.inl ⟨hge, if_pos hge⟩
  · have hlt := not_le.mp hge
    simp only [if_neg hge, hlt, true_and]
    cases canceled with
    | true => simp
    | false =>
        cases hitem : pyIndex items (h.objs c).idx with
        | none => simp
        | some item => simp

/-- The visit that stores an item emits that item with the counter as its
index. -/
theorem emits_stored_iff {i : ℤ} {item item' : Value} {j : ℕ} :
    Emits c { heap := ((h.setOutput c "item" item).setOutput c "index"
        (.int i)).setIdx c (i + 1) } i item' j ↔
      item = item' ∧ i = j := by
  have hitem : (((h.setOutput c "item" item).setOutput c "index"
      (.int i)).setIdx c (i + 1)).output c "item" = item := by
    rw [Heap.output_setIdx,
      Heap.output_setOutput_key _ (by decide) (by decide),
      Heap.output_setOutput_self _ (by decide)]
  have hindex : (((h.setOutput c "item" item).setOutput c "index"
      (.int i)).setIdx c (i + 1)).output c "index" = .int i := by
    rw [Heap.output_setIdx, Heap.output_setOutput_self _ (by decide)]
  constructor
  · intro hemits
    have hvalue := hitem.symm.trans hemits.item
    have hnumber := hindex.symm.trans hemits.index
    exact ⟨hvalue, Value.int.inj hnumber⟩
  · rintro ⟨rfl, rfl⟩
    exact ⟨rfl, Heap.setIdx_idx _ _ _, hitem, hindex⟩

theorem pyIndex_natCast (items : List Value) (t : ℕ) :
    pyIndex items t = items[t]? := by
  simp [pyIndex]

theorem emitItem_emits_iff {t : ℕ} (hidx : (h.objs c).idx = t)
    {item : Value} {j : ℕ} :
    Emits c (emitItem c items canceled h) t item j ↔
      items[t]? = some item ∧ canceled = false ∧ j = t := by
  rcases emitItem_cases c items canceled h with ⟨hge, hout⟩ |
    ⟨hlt, hcanceled, hout⟩ | ⟨hlt, hgoing, hitem, hout⟩ |
    ⟨hlt, hgoing, item', hitem, hout⟩
  · rw [hidx] at hge
    have hnone : items[t]? = none := by
      rw [List.getElem?_eq_none_iff]
      exact_mod_cast hge
    rw [hout, hnone]
    constructor
    · intro hemits
      have hadvanced := hemits.advanced
      simp only [Heap.setIdx_idx] at hadvanced
      omega
    · rintro ⟨hsome, -, -⟩
      exact absurd hsome (by simp)
  · rw [hout, hcanceled]
    constructor
    · intro hemits
      have hadvanced := hemits.advanced
      simp only [canceledOutcome, Heap.setOutput_idx, hidx] at hadvanced
      omega
    · rintro ⟨-, hfalse, -⟩
      exact absurd hfalse (by decide)
  · rw [hidx, pyIndex_natCast] at hitem
    rw [hout, hitem]
    constructor
    · intro hemits
      exact absurd hemits.raised (by simp)
    · rintro ⟨hsome, -, -⟩
      exact absurd hsome (by simp)
  · rw [hidx, pyIndex_natCast] at hitem
    rw [hout, hitem, hidx, emits_stored_iff, hgoing]
    constructor
    · rintro ⟨rfl, hj⟩
      exact ⟨rfl, rfl, by exact_mod_cast hj.symm⟩
    · rintro ⟨hsome, -, rfl⟩
      exact ⟨Option.some.inj hsome, rfl⟩

theorem emitItem_ends_iff {t : ℕ} (hidx : (h.objs c).idx = t) :
    Ends c (emitItem c items canceled h) ↔ items.length ≤ t := by
  rcases emitItem_cases c items canceled h with ⟨hge, hout⟩ |
    ⟨hlt, -, hout⟩ | ⟨hlt, -, -, hout⟩ | ⟨hlt, -, item, -, hout⟩
  · rw [hidx] at hge
    have hle : items.length ≤ t := by exact_mod_cast hge
    rw [hout]
    simp [Ends, iterationItemEnd, hle]
  · rw [hidx] at hlt
    have hgt : ¬ items.length ≤ t := by
      rw [not_le]
      exact_mod_cast hlt
    rw [hout]
    simp [Ends, iterationItemEnd, canceledOutcome, hidx, hgt]
  · rw [hidx] at hlt
    have hgt : ¬ items.length ≤ t := by
      rw [not_le]
      exact_mod_cast hlt
    rw [hout]
    simp [Ends, hgt]
  · rw [hidx] at hlt
    have hgt : ¬ items.length ≤ t := by
      rw [not_le]
      exact_mod_cast hlt
    have hpos : ¬ (t : ℤ) + 1 = -1 := by omega
    rw [hout, hidx]
    simp [Ends, iterationItemEnd, hgt, hpos]

theorem emitItem_collected {pid : CpnId} (hne : pid ≠ c) (k : String) :
    collected pid k (emitItem c items canceled h).heap =
      collected pid k h := by
  rcases emitItem_cases c items canceled h with ⟨-, hout⟩ |
    ⟨-, -, hout⟩ | ⟨-, -, -, hout⟩ | ⟨-, -, item, -, hout⟩
  · rw [hout]
    simp [collected]
  · rw [hout]
    simp [collected, canceledOutcome, Heap.output_setOutput_cpn _ hne]
  · rw [hout]
  · rw [hout]
    simp [collected, Heap.output_setOutput_cpn _ hne]

end Emit

/-! ## One visit -/

section Visit

variable {py : Interp} {dsl : Dsl} {c pid : CpnId} {itemsRef : String}
  {parent : Component}

/-- The container of the item, with its parameters. -/
structure Encloses (dsl : Dsl) (c pid : CpnId) (itemsRef : String)
    (parent : Component) : Prop where
  other : pid ≠ c
  found : dsl.getParent c = some (some (pid, parent))
  kind : parent.kind = .iteration itemsRef

theorem Encloses.parentIteration (h : Encloses dsl c pid itemsRef parent) :
    parentIteration dsl c = some (pid, itemsRef) := by
  simp [RagflowMineru.Agent.parentIteration, h.found, h.kind]

theorem Encloses.component (h : Encloses dsl c pid itemsRef parent) :
    dsl.getComponent pid = some parent :=
  Dsl.getParent_component h.found

theorem Encloses.inBody (h : Encloses dsl c pid itemsRef parent) :
    inBody dsl pid c = true :=
  (inBody_iff h.component).mpr h.found

theorem collatable_setIdx (refs : Assoc String String) (h : Heap) (i : ℤ) :
    Collatable dsl pid refs (h.setIdx c i) ↔ Collatable dsl pid refs h := by
  simp only [Collatable, Appendable, Heap.output_setIdx]

/-- What a visit does before it emits: with the counter `0` nothing, later a
collation. -/
theorem visitOutcome_eq (henc : Encloses dsl c pid itemsRef parent)
    {v : ItemVisit} (hgoing : v.canceled = false) {items : List Value}
    (hreads : getVariableValue py dsl v.heap itemsRef = some (.list items))
    (i : ℤ) :
    visitOutcome py dsl c v i =
      if 0 < i then
        if v.canceled' then canceledOutcome c (v.heap.setIdx c i)
        else (outputCollation dsl pid (v.heap.setIdx c i)).andThen
          (emitItem c items v.canceled'')
      else emitItem c items v.canceled'' (v.heap.setIdx c i) := by
  simp [visitOutcome, iterationItemInvoke, hgoing, henc.parentIteration,
    getVariableValue_setIdx, hreads]

/-- A visit that emits or ends with a counter from `0` on has found a list and
was not canceled at its start. -/
theorem visitOutcome_reads (henc : Encloses dsl c pid itemsRef parent)
    {v : ItemVisit} {t : ℕ}
    (hraised : (visitOutcome py dsl c v t).raised = none)
    (hmoved : ((visitOutcome py dsl c v t).heap.objs c).idx ≠ t) :
    v.canceled = false ∧ ∃ items,
      getVariableValue py dsl v.heap itemsRef = some (.list items) := by
  cases hcanceled : v.canceled with
  | true =>
      have hsame : ((visitOutcome py dsl c v t).heap.objs c).idx = t := by
        simp [visitOutcome, iterationItemInvoke, hcanceled, canceledOutcome]
      exact absurd hsame hmoved
  | false =>
      refine ⟨rfl, ?_⟩
      cases hreads : getVariableValue py dsl v.heap itemsRef with
      | none =>
          simp [visitOutcome, iterationItemInvoke, hcanceled,
            henc.parentIteration, getVariableValue_setIdx, hreads] at hraised
      | some value =>
          cases value with
          | list items => exact ⟨items, rfl⟩
          | _ =>
              simp [visitOutcome, iterationItemInvoke, hcanceled,
                henc.parentIteration, getVariableValue_setIdx, hreads]
                at hraised

/-- The rule for a visit with a counter from `0` on: an outcome that does not
raise and moves the counter is the outcome of emitting after the collation. -/
theorem visitOutcome_rule (henc : Encloses dsl c pid itemsRef parent)
    {v : ItemVisit} {t : ℕ} {Q : Outcome → Prop} {P : List Value → Prop}
    (hQ : ∀ o, Q o → o.raised = none ∧ (o.heap.objs c).idx ≠ t)
    (hP : ∀ items (h : Heap), (h.objs c).idx = t →
      (Q (emitItem c items v.canceled'' h) ↔ P items)) :
    Q (visitOutcome py dsl c v t) ↔
      VisitReady py dsl pid itemsRef parent.outputRefs v t P := by
  have hcounter : ((v.heap.setIdx c t).objs c).idx = t :=
    Heap.setIdx_idx _ _ _
  have hcase : ∀ items, v.canceled = false →
      getVariableValue py dsl v.heap itemsRef = some (.list items) →
      (Q (visitOutcome py dsl c v t) ↔
        (0 < t → v.canceled' = false ∧
          Collatable dsl pid parent.outputRefs v.heap) ∧ P items) := by
    intro items hgoing hreads
    rw [visitOutcome_eq henc hgoing hreads]
    by_cases ht : 0 < t
    · have ht' : (0 : ℤ) < t := by exact_mod_cast ht
      simp only [ht', ht, if_true, forall_const]
      cases hcanceled : v.canceled' with
      | true =>
          have hsame : ((canceledOutcome c (v.heap.setIdx c t)).heap.objs
              c).idx = t := by
            simp [canceledOutcome]
          constructor
          · intro hq
            exact absurd hsame (hQ _ hq).2
          · rintro ⟨⟨hfalse, -⟩, -⟩
            exact absurd hfalse (by decide)
      | false =>
          have hraises := outputCollation_raised_iff henc.component henc.inBody
            (v.heap.setIdx c t)
          rw [collatable_setIdx] at hraises
          have hidx := outputCollation_idx dsl pid c (v.heap.setIdx c t)
          rw [hcounter] at hidx
          cases hout : (outputCollation dsl pid (v.heap.setIdx c t)).raised with
          | none =>
              have hcollatable := hraises.mp hout
              simp [Outcome.andThen, hout, hcollatable, hP items _ hidx]
          | some message =>
              have hnot : ¬ Collatable dsl pid parent.outputRefs v.heap := by
                rw [← hraises, hout]
                simp
              simp only [Bool.false_eq_true, if_false, Outcome.andThen, hout,
                hnot, and_false, false_and, iff_false]
              intro hq
              have hnone := (hQ _ hq).1
              rw [hout] at hnone
              exact absurd hnone (by simp)
    · have ht' : ¬ (0 : ℤ) < t := by exact_mod_cast ht
      simp only [ht', ht, if_false, false_implies, true_and]
      exact hP items _ hcounter
  constructor
  · intro hq
    obtain ⟨hgoing, items, hreads⟩ :=
      visitOutcome_reads henc (hQ _ hq).1 (hQ _ hq).2
    obtain ⟨hcollates, hitems⟩ := (hcase items hgoing hreads).mp hq
    exact ⟨hgoing, hcollates, items, hreads, hitems⟩
  · rintro ⟨hgoing, hcollates, items, hreads, hitems⟩
    exact (hcase items hgoing hreads).mpr ⟨hcollates, hitems⟩

theorem visit_emits_iff (henc : Encloses dsl c pid itemsRef parent)
    {v : ItemVisit} {t j : ℕ} {item : Value} :
    Emits c (visitOutcome py dsl c v t) t item j ↔
      (VisitReady py dsl pid itemsRef parent.outputRefs v t
        (fun items => items[t]? = some item) ∧ v.canceled'' = false) ∧
      j = t := by
  have hrule : Emits c (visitOutcome py dsl c v t) t item j ↔
      VisitReady py dsl pid itemsRef parent.outputRefs v t fun items =>
        items[t]? = some item ∧ v.canceled'' = false ∧ j = t := by
    apply visitOutcome_rule henc (Q := fun o => Emits c o t item j)
    · intro o hemits
      refine ⟨hemits.raised, ?_⟩
      rw [hemits.advanced]
      omega
    · intro items h hidx
      exact emitItem_emits_iff hidx
  rw [hrule]
  constructor
  · rintro ⟨hgoing, hcollates, items, hreads, hitem, hcanceled, hj⟩
    exact ⟨⟨⟨hgoing, hcollates, items, hreads, hitem⟩, hcanceled⟩, hj⟩
  · rintro ⟨⟨⟨hgoing, hcollates, items, hreads, hitem⟩, hcanceled⟩, hj⟩
    exact ⟨hgoing, hcollates, items, hreads, hitem, hcanceled, hj⟩

theorem visit_ends_iff (henc : Encloses dsl c pid itemsRef parent)
    {v : ItemVisit} {t : ℕ} :
    Ends c (visitOutcome py dsl c v t) ↔
      VisitReady py dsl pid itemsRef parent.outputRefs v t
        (fun items => items.length ≤ t) := by
  apply visitOutcome_rule henc
  · rintro o ⟨hraised, hend⟩
    have hmark : (o.heap.objs c).idx = -1 := by
      simpa [iterationItemEnd] using hend
    refine ⟨hraised, ?_⟩
    rw [hmark]
    omega
  · intro items h hidx
    exact emitItem_ends_iff hidx

/-- A visit that is ready collects one value for every reference into the body,
unless it is the first. -/
theorem visit_collected (henc : Encloses dsl c pid itemsRef parent)
    {v : ItemVisit} {t : ℕ} {P : List Value → Prop}
    (hready : VisitReady py dsl pid itemsRef parent.outputRefs v t P)
    {e : String × String} (he : e ∈ parent.outputRefs) :
    collected pid e.1 (visitOutcome py dsl c v t).heap =
      collected pid e.1 v.heap +
        if 0 < t ∧ (refCpn e.2).any (inBody dsl pid) = true then 1 else 0 := by
  obtain ⟨hgoing, hcollates, items, hreads, -⟩ := hready
  have hsame : collected pid e.1 (v.heap.setIdx c t) =
      collected pid e.1 v.heap := by
    simp only [collected, Heap.output_setIdx]
  rw [visitOutcome_eq henc hgoing hreads]
  by_cases ht : 0 < t
  · obtain ⟨hcanceled, hcollatable⟩ := hcollates ht
    have ht' : (0 : ℤ) < t := by exact_mod_cast ht
    have hraised : (outputCollation dsl pid (v.heap.setIdx c t)).raised =
        none := by
      rw [outputCollation_raised_iff henc.component henc.inBody,
        collatable_setIdx]
      exact hcollatable
    rw [if_pos ht', hcanceled]
    simp only [Bool.false_eq_true, if_false, Outcome.andThen, hraised]
    rw [emitItem_collected henc.other,
      outputCollation_collected henc.component hraised he, hsame]
    simp [ht]
  · have ht' : ¬ (0 : ℤ) < t := by exact_mod_cast ht
    rw [if_neg ht', emitItem_collected henc.other, hsame]
    simp [ht]

/-! ## Counters that occur -/

/-- A visit never leaves a counter below the end marker. -/
theorem visitOutcome_idx_ge (henc : Encloses dsl c pid itemsRef parent)
    (v : ItemVisit) {i : ℤ} (hi : -1 ≤ i) :
    -1 ≤ ((visitOutcome py dsl c v i).heap.objs c).idx := by
  have hcounter : ((v.heap.setIdx c i).objs c).idx = i :=
    Heap.setIdx_idx _ _ _
  have hcanceled : -1 ≤ ((canceledOutcome c (v.heap.setIdx c i)).heap.objs
      c).idx := by
    simpa [canceledOutcome] using hi
  have hemit : ∀ (items : List Value) (h : Heap), (h.objs c).idx = i →
      -1 ≤ ((emitItem c items v.canceled'' h).heap.objs c).idx := by
    intro items h hidx
    rcases emitItem_cases c items v.canceled'' h with ⟨-, hout⟩ |
      ⟨-, -, hout⟩ | ⟨-, -, -, hout⟩ | ⟨-, -, item, -, hout⟩
    · simp [hout]
    · simpa [hout, canceledOutcome, hidx] using hi
    · simpa [hout, hidx] using hi
    · simp only [hout, Heap.setIdx_idx, hidx]
      omega
  cases hgoing : v.canceled with
  | true =>
      simpa [visitOutcome, iterationItemInvoke, hgoing] using hcanceled
  | false =>
      cases hreads : getVariableValue py dsl v.heap itemsRef with
      | none =>
          simpa [visitOutcome, iterationItemInvoke, hgoing,
            henc.parentIteration, getVariableValue_setIdx, hreads] using hi
      | some value =>
          cases value with
          | list items =>
              rw [visitOutcome_eq henc hgoing hreads]
              have hidx := outputCollation_idx dsl pid c (v.heap.setIdx c i)
              rw [hcounter] at hidx
              split_ifs
              · exact hcanceled
              · unfold Outcome.andThen
                split
                · exact hemit items _ hidx
                · rw [hidx]
                  exact hi
              · exact hemit items _ hcounter
          | _ =>
              simp [visitOutcome, iterationItemInvoke, hgoing,
                henc.parentIteration, getVariableValue_setIdx, hreads]

theorem ItemCounter.ge_neg_one (henc : Encloses dsl c pid itemsRef parent)
    {i : ℤ} (hi : ItemCounter py dsl c i) : -1 ≤ i := by
  induction hi with
  | init => omega
  | visit v _ ih => exact visitOutcome_idx_ge henc v ih

/-- With the end marker a visit emits the index `-1`, which is the index of no
item. -/
theorem visit_not_emits_of_marker (henc : Encloses dsl c pid itemsRef parent)
    {v : ItemVisit} {items : List Value}
    (hreads : getVariableValue py dsl v.heap itemsRef = some (.list items))
    {item : Value} {j : ℕ} :
    ¬ Emits c (visitOutcome py dsl c v (-1)) (-1) item j := by
  have hcounter : ((v.heap.setIdx c (-1)).objs c).idx = -1 :=
    Heap.setIdx_idx _ _ _
  intro hemits
  cases hgoing : v.canceled with
  | true =>
      have hadvanced := hemits.advanced
      simp [visitOutcome, iterationItemInvoke, hgoing,
        canceledOutcome] at hadvanced
  | false =>
      rw [visitOutcome_eq henc hgoing hreads, if_neg (by omega)] at hemits
      rcases emitItem_cases c items v.canceled'' (v.heap.setIdx c (-1)) with
        ⟨-, hout⟩ | ⟨-, -, hout⟩ | ⟨-, -, -, hout⟩ | ⟨-, -, item', -, hout⟩
      · rw [hout] at hemits
        have hadvanced := hemits.advanced
        simp at hadvanced
      · rw [hout] at hemits
        have hadvanced := hemits.advanced
        simp [canceledOutcome] at hadvanced
      · rw [hout] at hemits
        exact absurd hemits.raised (by simp)
      · rw [hout, hcounter, emits_stored_iff] at hemits
        omega

/-- With the end marker and the empty list a visit raises, unless the task is
canceled. -/
theorem visit_ends_of_marker_iff (henc : Encloses dsl c pid itemsRef parent)
    {v : ItemVisit}
    (hreads : getVariableValue py dsl v.heap itemsRef = some (.list [])) :
    Ends c (visitOutcome py dsl c v (-1)) ↔
      v.canceled = true ∨ v.canceled'' = true := by
  cases hgoing : v.canceled with
  | true =>
      simp [Ends, iterationItemEnd, visitOutcome, iterationItemInvoke, hgoing,
        canceledOutcome]
  | false =>
      rw [visitOutcome_eq henc hgoing hreads, if_neg (by omega)]
      cases hcanceled : v.canceled'' with
      | true => simp [Ends, iterationItemEnd, emitItem, canceledOutcome]
      | false => simp [Ends, emitItem, pyIndex]

theorem visit_collected_of_marker (henc : Encloses dsl c pid itemsRef parent)
    {v : ItemVisit} {items : List Value}
    (hreads : getVariableValue py dsl v.heap itemsRef = some (.list items))
    (k : String) :
    collected pid k (visitOutcome py dsl c v (-1)).heap =
      collected pid k v.heap := by
  have hsame : collected pid k (v.heap.setIdx c (-1)) =
      collected pid k v.heap := by
    simp only [collected, Heap.output_setIdx]
  cases hgoing : v.canceled with
  | true =>
      simp [visitOutcome, iterationItemInvoke, hgoing, canceledOutcome,
        collected, Heap.output_setOutput_cpn _ henc.other]
  | false =>
      rw [visitOutcome_eq henc hgoing hreads, if_neg (by omega),
        emitItem_collected henc.other, hsame]

end Visit

/-! ## Whole entries -/

section Entry

variable {py : Interp} {dsl : Dsl} {c pid : CpnId} {itemsRef : String}
  {parent : Component} {visits : ℕ → ItemVisit} {arr : List Value}

/-- Visits that emit advance the counter from `0` in steps of one. -/
theorem counterAt_eq_of_emits
    (hemits : ∀ t (ht : t < arr.length),
      Emits c (visitOutcome py dsl c (visits t) (counterAt py dsl c visits 0 t))
        (counterAt py dsl c visits 0 t) arr[t] t) :
    ∀ t ≤ arr.length, counterAt py dsl c visits 0 t = t := by
  intro t
  induction t with
  | zero => exact fun _ => rfl
  | succ t ih =>
      intro ht
      have hadvanced := (hemits t ht).advanced
      rw [ih (Nat.le_of_succ_le ht)] at hadvanced
      rw [counterAt, ih (Nat.le_of_succ_le ht), hadvanced]
      push_cast
      rfl

theorem counterAt_eq_of_ready (henc : Encloses dsl c pid itemsRef parent)
    (hitems : ∀ t (ht : t < arr.length),
      VisitReady py dsl pid itemsRef parent.outputRefs (visits t) t
        (fun items => items[t]? = some arr[t]) ∧
        (visits t).canceled'' = false) :
    ∀ t ≤ arr.length, counterAt py dsl c visits 0 t = t := by
  intro t
  induction t with
  | zero => exact fun _ => rfl
  | succ t ih =>
      intro ht
      have hemits : Emits c (visitOutcome py dsl c (visits t) t) t arr[t] t :=
        (visit_emits_iff henc).mpr ⟨hitems t ht, rfl⟩
      rw [counterAt, ih (Nat.le_of_succ_le ht), hemits.advanced]
      push_cast
      rfl

/-- The visits of the items and the last one. -/
theorem exists_ready {last : List Value → Prop}
    (hitems : ∀ t (ht : t < arr.length),
      VisitReady py dsl pid itemsRef parent.outputRefs (visits t) t
        (fun items => items[t]? = some arr[t]) ∧
        (visits t).canceled'' = false)
    (hlast : VisitReady py dsl pid itemsRef parent.outputRefs (visits arr.length) arr.length
      last) :
    ∀ t ≤ arr.length, ∃ P,
      VisitReady py dsl pid itemsRef parent.outputRefs (visits t) t P := by
  intro t ht
  rcases ht.lt_or_eq with hlt | rfl
  · exact ⟨_, (hitems t hlt).1⟩
  · exact ⟨last, hlast⟩

theorem sum_collected (n : ℕ) (b : Bool) :
    (∑ t ∈ Finset.range (n + 1), if 0 < t ∧ b = true then 1 else 0) =
      if b then n else 0 := by
  rw [Finset.sum_range_succ']
  cases b with
  | true => simp
  | false => simp

/-- Visits that are ready collect, over the whole entry, one value for every
item and every reference into the body. -/
theorem entry_collected (henc : Encloses dsl c pid itemsRef parent)
    (hcounter : ∀ t ≤ arr.length, counterAt py dsl c visits 0 t = t)
    (hready : ∀ t ≤ arr.length, ∃ P,
      VisitReady py dsl pid itemsRef parent.outputRefs (visits t) t P)
    {e : String × String} (he : e ∈ parent.outputRefs) :
    ∑ t ∈ Finset.range (arr.length + 1), collected pid e.1
        (visitOutcome py dsl c (visits t)
          (counterAt py dsl c visits 0 t)).heap =
      ∑ t ∈ Finset.range (arr.length + 1), collected pid e.1 (visits t).heap +
        if (refCpn e.2).any (inBody dsl pid) then arr.length else 0 := by
  rw [← sum_collected, ← Finset.sum_add_distrib]
  apply Finset.sum_congr rfl
  intro t ht
  have hle : t ≤ arr.length := Nat.lt_succ_iff.mp (Finset.mem_range.mp ht)
  obtain ⟨P, hP⟩ := hready t hle
  rw [hcounter t hle, visit_collected henc hP he]

/-- An entry from the counter `0`. -/
theorem entryLaw_zero_iff (henc : Encloses dsl c pid itemsRef parent) :
    EntryLaw py dsl c pid parent.outputRefs visits 0 arr ↔
      FirstEntry py dsl pid itemsRef parent.outputRefs visits arr := by
  constructor
  · rintro ⟨hemits, hends, hcollects⟩
    have hcounter := counterAt_eq_of_emits hemits
    have hitems : ∀ t (ht : t < arr.length),
        VisitReady py dsl pid itemsRef parent.outputRefs (visits t) t
          (fun items => items[t]? = some arr[t]) ∧
          (visits t).canceled'' = false := by
      intro t ht
      have hemit := hemits t ht
      rw [hcounter t ht.le] at hemit
      exact ((visit_emits_iff henc).mp hemit).1
    have hlast : VisitReady py dsl pid itemsRef parent.outputRefs
        (visits arr.length) arr.length
        (fun items => items.length ≤ arr.length) := by
      rw [hcounter _ le_rfl] at hends
      exact (visit_ends_iff henc).mp hends
    refine ⟨hitems, hlast, ?_⟩
    intro hne e he
    have hready := exists_ready hitems hlast
    have hsum := (entry_collected henc hcounter hready he).symm.trans
      (hcollects e he)
    have hpos : 0 < arr.length := List.length_pos_iff.mpr hne
    by_contra hnot
    rw [if_neg hnot] at hsum
    omega
  · rintro ⟨hitems, hlast, hinside⟩
    have hcounter := counterAt_eq_of_ready henc hitems
    have hready := exists_ready hitems hlast
    constructor
    · intro t ht
      rw [hcounter t ht.le]
      exact (visit_emits_iff henc).mpr ⟨hitems t ht, rfl⟩
    · rw [hcounter _ le_rfl]
      exact (visit_ends_iff henc).mpr hlast
    · intro e he
      rw [entry_collected henc hcounter hready he]
      by_cases hne : arr = []
      · simp [hne]
      · rw [if_pos (hinside hne e he)]

/-- An entry from a counter that an unfinished entry has left. -/
theorem entryLaw_pos_iff (henc : Encloses dsl c pid itemsRef parent) {t : ℕ}
    (ht : 0 < t) (hentry : getVariableValue py dsl (visits 0).heap itemsRef =
      some (.list arr)) :
    EntryLaw py dsl c pid parent.outputRefs visits t arr ↔
      arr = [] ∧ (visits 0).canceled = false ∧ (visits 0).canceled' = false ∧
        Collatable dsl pid parent.outputRefs (visits 0).heap ∧
        ∀ e ∈ parent.outputRefs,
          (refCpn e.2).any (inBody dsl pid) = false := by
  constructor
  · rintro ⟨hemits, hends, hcollects⟩
    -- the first visit has the index `t`, so there is no item
    have hnil : arr = [] := by
      by_contra hne
      have hemit := hemits 0 (List.length_pos_iff.mpr hne)
      have hindex := ((visit_emits_iff henc).mp hemit).2
      omega
    subst hnil
    have hready : VisitReady py dsl pid itemsRef parent.outputRefs (visits 0) t
        (fun items => items.length ≤ t) := (visit_ends_iff henc).mp hends
    obtain ⟨hcanceled, hcollatable⟩ := hready.collates ht
    refine ⟨rfl, hready.going, hcanceled, hcollatable, ?_⟩
    intro e he
    have hsum := hcollects e he
    simp only [List.length_nil, Nat.zero_add, Finset.sum_range_one,
      Nat.add_zero] at hsum
    rw [counterAt, visit_collected henc hready he] at hsum
    by_contra hnot
    have hin : (refCpn e.2).any (inBody dsl pid) = true := by simpa using hnot
    rw [if_pos ⟨ht, hin⟩] at hsum
    omega
  · rintro ⟨rfl, hgoing, hcanceled, hcollatable, houtside⟩
    have hready : VisitReady py dsl pid itemsRef parent.outputRefs (visits 0) t
        (fun items => items.length ≤ t) :=
      ⟨hgoing, fun _ => ⟨hcanceled, hcollatable⟩, [], hentry, Nat.zero_le _⟩
    constructor
    · intro s hs
      exact absurd hs (Nat.not_lt_zero s)
    · exact (visit_ends_iff henc).mpr hready
    · intro e he
      simp only [List.length_nil, Nat.zero_add, Finset.sum_range_one,
        Nat.add_zero]
      rw [counterAt, visit_collected henc hready he]
      simp [houtside e he]

/-- An entry from the end marker. -/
theorem entryLaw_marker_iff (henc : Encloses dsl c pid itemsRef parent)
    (hentry : getVariableValue py dsl (visits 0).heap itemsRef =
      some (.list arr)) :
    EntryLaw py dsl c pid parent.outputRefs visits (-1) arr ↔
      arr = [] ∧
        ((visits 0).canceled = true ∨ (visits 0).canceled'' = true) := by
  constructor
  · rintro ⟨hemits, hends, -⟩
    have hnil : arr = [] := by
      by_contra hne
      exact visit_not_emits_of_marker henc hentry
        (hemits 0 (List.length_pos_iff.mpr hne))
    subst hnil
    exact ⟨rfl, (visit_ends_of_marker_iff henc hentry).mp hends⟩
  · rintro ⟨rfl, hcanceled⟩
    constructor
    · intro s hs
      exact absurd hs (Nat.not_lt_zero s)
    · exact (visit_ends_of_marker_iff henc hentry).mpr hcanceled
    · intro e he
      simp only [List.length_nil, Nat.zero_add, Finset.sum_range_one,
        Nat.add_zero]
      rw [counterAt, visit_collected_of_marker henc hentry]

/-- An entry meets the law exactly when it starts from the counter `0` and the
canvas lets it go through its list, or is an idle entry with an empty list. -/
theorem entryLaw_iff (henc : Encloses dsl c pid itemsRef parent) {i : ℤ}
    (hi : ItemCounter py dsl c i)
    (hentry : getVariableValue py dsl (visits 0).heap itemsRef =
      some (.list arr)) :
    EntryLaw py dsl c pid parent.outputRefs visits i arr ↔
      (i = 0 ∧ FirstEntry py dsl pid itemsRef parent.outputRefs visits arr) ∨
        IdleEntry dsl pid parent.outputRefs (visits 0) i arr := by
  have hge := hi.ge_neg_one henc
  rcases lt_trichotomy i 0 with hneg | rfl | hpos
  · obtain rfl : i = -1 := by omega
    rw [entryLaw_marker_iff henc hentry]
    simp [IdleEntry]
  · rw [entryLaw_zero_iff henc]
    simp [IdleEntry]
  · obtain ⟨t, rfl⟩ := Int.eq_ofNat_of_zero_le hpos.le
    have ht : 0 < t := by exact_mod_cast hpos
    rw [entryLaw_pos_iff henc ht hentry]
    have hmarker : ¬ (t : ℤ) = -1 := by omega
    simp [IdleEntry, ht, ht.ne', hmarker]

end Entry

/-! ## An iteration that is entered twice -/

/-- The body of the iteration is the one component `work`, and `after` leads
back to the iteration. -/
def twiceIteration : Component where
  kind := .iteration "env.items"
  downstream := ["after"]
  outputRefs := [("results", "work@content")]

def twiceDsl : Dsl where
  components :=
    [("each", twiceIteration),
     ("item", { kind := .iterationItem, downstream := ["work"],
                parentId := some "each" }),
     ("work", { kind := .other, parentId := some "each" }),
     ("after", { kind := .other, downstream := ["each"] })]
  nodup := by decide

def twiceItems : List Value := [.str "x", .str "y"]

def twiceVisit : ItemVisit where
  heap := { objs := fun _ => {}, globals := [("env.items", .list twiceItems)] }

theorem twice_encloses :
    Encloses twiceDsl "item" "each" "env.items" twiceIteration :=
  ⟨by decide, rfl, rfl⟩

/-- The first entry leaves the end marker behind. -/
theorem twice_marker_occurs : ItemCounter failingInterp twiceDsl "item" (-1) := by
  have h₁ : ItemCounter failingInterp twiceDsl "item" 1 := .visit twiceVisit .init
  have h₂ : ItemCounter failingInterp twiceDsl "item" 2 := .visit twiceVisit h₁
  exact .visit twiceVisit h₂

/-- The second entry starts with the last item of the list under the index
`-1`. -/
theorem iteration_reentry_starts_at_last :
    ItemCounter failingInterp twiceDsl "item" (-1) ∧
      (visitOutcome failingInterp twiceDsl "item" twiceVisit (-1)).heap.output
        "item" "item" = .str "y" ∧
      (visitOutcome failingInterp twiceDsl "item" twiceVisit (-1)).heap.output
        "item" "index" = .int (-1) ∧
      ¬ EntryLaw failingInterp twiceDsl "item" "each" twiceIteration.outputRefs
        (fun _ => twiceVisit) (-1) twiceItems := by
  refine ⟨twice_marker_occurs, rfl, rfl, ?_⟩
  intro hlaw
  have hindex := (hlaw.emits 0 (by decide)).index
  have hfound : (visitOutcome failingInterp twiceDsl "item" twiceVisit
      (-1)).heap.output "item" "index" = .int (-1) := rfl
  have hzero := Value.int.inj (hfound.symm.trans hindex)
  exact absurd hzero (by decide)

theorem iteration_first_entry_law_iff :
    EntryLaw failingInterp twiceDsl "item" "each" twiceIteration.outputRefs
        (fun _ => twiceVisit) 0 twiceItems ↔
      ((0 : ℤ) = 0 ∧ FirstEntry failingInterp twiceDsl "each" "env.items"
        twiceIteration.outputRefs (fun _ => twiceVisit) twiceItems) ∨
      IdleEntry twiceDsl "each" twiceIteration.outputRefs twiceVisit 0
        twiceItems :=
  entryLaw_iff twice_encloses .init rfl

end RagflowMineru.Agent
