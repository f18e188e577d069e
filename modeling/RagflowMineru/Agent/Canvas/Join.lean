import RagflowMineru.Agent.Canvas.Steps

/-!
# Join nodes

A component that several others hand on is meant to be run once.  `_append_path`
compares an id with the last entry of `path` only, so a repeat is suppressed
when it is adjacent and gets in otherwise.
-/

namespace RagflowMineru.Agent

open RagflowMineru.Library

variable {w : World} {dsl : Dsl}

/-- An acyclic graph without containers, `UserFillUp` and exception targets. -/
structure PlainGraph (dsl : Dsl) : Prop where
  acyclic : ∃ rank : CpnId → ℕ, ∀ c cpn, dsl.getComponent c = some cpn →
    ∀ d ∈ cpn.downstream, rank c < rank d
  noContainer : ∀ c cpn, dsl.getComponent c = some cpn →
    cpn.kind.isContainer = false
  noFillUp : ∀ c cpn, dsl.getComponent c = some cpn →
    cpn.kind.isUserFillUp = false
  noGoto : ∀ c cpn, dsl.getComponent c = some cpn → cpn.exceptionGoto = []

/-- The ids that the components of a batch hand to `_append_path`, one
component after the other. -/
def handedOn (w : World) (dsl : Dsl) :
    RunState → List CpnId → List CpnId
  | _, [] => []
  | s, c :: rest =>
      match prepare w dsl s c with
      | some (s', otherBranch, ids) =>
          (if otherBranch then [] else ids) ++
            handedOn w dsl
              { s' with path := extendPath otherBranch s'.path ids } rest
      | none => []

/-- Some component of a batch jumps to its exception targets. -/
def jumps (w : World) (dsl : Dsl) : RunState → List CpnId → Bool
  | _, [] => false
  | s, c :: rest =>
      match prepare w dsl s c with
      | some (s', otherBranch, ids) =>
          otherBranch ||
            jumps w dsl
              { s' with path := extendPath otherBranch s'.path ids } rest
      | none => false

/-- What the components of the coming batch hand on repeats the run so far, or
itself, only right behind the same id.  The first `base` entries of `path` are
older than the run. -/
def JoinsAdjacent (w : World) (dsl : Dsl) (base : ℕ) (s : RunState) : Prop :=
  ∀ s' kept, invokeBatch w dsl s = some (s', kept) →
    NoLateRepeat (fun _ => true) (s'.path.drop base) (handedOn w dsl s' kept)

/-! ## One batch -/

theorem jumps_eq_false
    (hgoto : ∀ c cpn, dsl.getComponent c = some cpn → cpn.exceptionGoto = [])
    (s : RunState) (kept : List CpnId) : jumps w dsl s kept = false := by
  induction kept generalizing s with
  | nil => rfl
  | cons c kept ih =>
      cases hprepare : prepare w dsl s c with
      | none => simp [jumps, hprepare]
      | some result =>
          obtain ⟨s', otherBranch, ids⟩ := result
          obtain ⟨-, cpn, hcpn, ⟨rfl, -⟩ | ⟨-, htarget, -⟩⟩ :=
            prepare_frame hprepare
          · simp [jumps, hprepare, ih]
          · exact absurd (hgoto c cpn hcpn) htarget

/-- Without a jump a batch extends `path` by what its components hand on, and by
nothing else. -/
theorem foldlM_postProcess_path {s t : RunState} {kept : List CpnId}
    (hstays : jumps w dsl s kept = false)
    (h : kept.foldlM (postProcess w dsl) s = some t) :
    t.path = pushAll s.path (handedOn w dsl s kept) := by
  induction kept generalizing s with
  | nil =>
      obtain rfl := Option.some.inj h
      rfl
  | cons c kept ih =>
      rw [List.foldlM_cons] at h
      obtain ⟨u, hstep, hrest⟩ := Option.bind_eq_some_iff.mp h
      obtain ⟨s', otherBranch, ids, hprepare, rfl⟩ := postProcess_cases hstep
      simp only [jumps, hprepare, Bool.or_eq_false_iff] at hstays
      obtain ⟨rfl, hstays'⟩ := hstays
      obtain ⟨-, cpn, -, ⟨-, hpath⟩ | ⟨htrue, -, -⟩⟩ := prepare_frame hprepare
      · have hids : handedOn w dsl s (c :: kept) =
            ids ++ handedOn w dsl
              { s' with path := extendPath false s'.path ids } kept := by
          rw [handedOn, hprepare]
          rfl
        rw [ih hstays' hrest, hids, pushAll_append, ← hpath]
        rfl
      · exact absurd htrue (by decide)

/-- A graph without `UserFillUp` never stops for the user. -/
theorem lookupAll_isUserFillUp
    (hfill : ∀ c cpn, dsl.getComponent c = some cpn →
      cpn.kind.isUserFillUp = false)
    {ids : List CpnId} {pending : List (CpnId × Component)}
    (h : lookupAll dsl ids = some pending) :
    ∀ entry ∈ pending, entry.2.kind.isUserFillUp = false := by
  intro entry hentry
  exact hfill entry.1 entry.2 (getComponent_of_mem_lookupAll h entry hentry)

/-! ## Whole runs -/

/-- No component stands twice in the part of `path` that belongs to the run, and
none has been invoked twice. -/
structure InvokedOnce (prior : List CpnId) (s : RunState) : Prop where
  path : (s.path.drop prior.length).Nodup
  batches : s.batches.flatten.Nodup

theorem step_invokedOnce (hplain : PlainGraph dsl) {prior : List CpnId}
    {s t : RunState} (hfront : FrontInv prior s) (honce : InvokedOnce prior s)
    (hjoins : JoinsAdjacent w dsl prior.length s)
    (hstep : step w dsl s = some t) : InvokedOnce prior t := by
  obtain ⟨-, ⟨-, s', kept, s'', hinvoke, hfold, hclose⟩ |
    ⟨-, last, -, rfl⟩⟩ := step_cases hstep
  · have hadjacent := hjoins s' kept hinvoke
    obtain ⟨started, heap, -, -, hsub, rfl⟩ :=
      invokeBatch_spec hfront.idx_le hinvoke
    have hpath :=
      foldlM_postProcess_path (jumps_eq_false hplain.noGoto _ _) hfold
    have hbatches := (foldlM_postProcess_frame hfold).1.batches
    -- the entries that were kept are still free of duplicates
    have hold : (s.batches.flatten ++ s.path.drop s.idx).Nodup := by
      have hsplit : s.path =
          prior ++ (s.batches.flatten ++ s.path.drop s.idx) := by
        rw [← List.append_assoc, ← hfront.front, List.take_append_drop]
      have hnodup := honce.path
      rw [hsplit, List.drop_left] at hnodup
      exact hnodup
    have hkept : (s.batches.flatten ++ kept).Nodup :=
      hold.sublist ((List.Sublist.refl _).append hsub)
    have hstart : s.path.take s.idx ++ kept =
        prior ++ (s.batches.flatten ++ kept) := by
      rw [hfront.front, List.append_assoc]
    -- and what they hand on keeps it so
    have hrun : ∃ r, s''.path = prior ++ r ∧ r.Nodup := by
      simp only [hstart, List.drop_left] at hadjacent hpath
      rw [hpath]
      exact nodup_pushAll hkept hadjacent
    have honce'' : InvokedOnce prior s'' := by
      obtain ⟨r, hr, hnodup⟩ := hrun
      constructor
      · rw [hr, List.drop_left]
        exact hnodup
      · rw [hbatches]
        simpa using hkept
    rcases closeBatch_cases hclose with ⟨-, rfl⟩ |
      ⟨-, pending, hpending, ⟨entry, hentry, hfill⟩, -⟩ | ⟨-, rfl⟩
    · exact ⟨honce''.path, honce''.batches⟩
    · have hnone :=
        lookupAll_isUserFillUp hplain.noFillUp hpending entry hentry
      exact absurd (hfill.symm.trans hnone) (by decide)
    · refine ⟨?_, honce''.batches⟩
      exact honce''.path.sublist ((List.take_sublist _ _).drop _)
  · exact ⟨honce.path, honce.batches⟩

/-- A run in which every batch hands on adjacent repeats only invokes every
component at most once. -/
theorem reach_invokedOnce (hplain : PlainGraph dsl) {h : Heap}
    {prior : List CpnId} {s : RunState}
    (hs : Reach (step w dsl) (JoinsAdjacent w dsl prior.length)
      (startRun h (prior ++ ["begin"])) s) :
    InvokedOnce prior s := by
  have hinv : InvokedOnce prior s ∧
      (s.phase = .running → FrontInv prior s) := by
    refine Reach.invariant (I := fun s => InvokedOnce prior s ∧
      (s.phase = .running → FrontInv prior s)) ?_ ?_ hs
    · constructor
      · constructor
        · simp [startRun]
        · simp [startRun]
      · intro _
        exact startRun_frontInv h prior "begin"
    · rintro s t ⟨honce, hfront⟩ hjoins hstep
      have hfront' := hfront (step_cases hstep).1
      constructor
      · exact step_invokedOnce hplain hfront' honce hjoins hstep
      · exact step_frontInv hfront' hstep
  exact hinv.1

/-! ## A join node that is run twice -/

/-- `a` hands on `j`, and `b` hands on `k` and `j`. -/
def joinDsl : Dsl where
  components :=
    [("begin", { kind := .begin, downstream := ["a", "b"] }),
     ("a", { kind := .other, downstream := ["j"] }),
     ("b", { kind := .other, downstream := ["k", "j"] }),
     ("k", { kind := .other }),
     ("j", { kind := .other })]
  nodup := by decide

def joinWorld : World := scriptedWorld (fun _ => []) fun _ => []

def joinStart : RunState := startRun profileHeap ["begin"]

/-- The state after all three batches and the end of the run. -/
def joinEnd : RunState :=
  (iterate (step joinWorld joinDsl) 4 joinStart).getD joinStart

theorem joinEnd_reachable :
    Reachable (step joinWorld joinDsl) joinStart joinEnd :=
  reachable_iterate rfl

theorem Dsl.forall_of_entries {P : CpnId → Component → Prop}
    (h : ∀ entry ∈ dsl.components, P entry.1 entry.2) :
    ∀ c cpn, dsl.getComponent c = some cpn → P c cpn := by
  intro c cpn hcpn
  exact h (c, cpn) (Assoc.mem_of_get? hcpn)

theorem joinDsl_plain : PlainGraph joinDsl := by
  constructor
  · refine ⟨fun c => if c = "begin" then 0 else if c = "a" ∨ c = "b" then 1
      else 2, ?_⟩
    apply Dsl.forall_of_entries
    simp [joinDsl]
  · apply Dsl.forall_of_entries
    simp [joinDsl, Kind.isContainer]
  · apply Dsl.forall_of_entries
    simp [joinDsl, Kind.isUserFillUp]
  · apply Dsl.forall_of_entries
    simp [joinDsl]

/-- The run ends without error after invoking `j` twice, and `j` stands twice
in its path. -/
theorem join_invoked_twice :
    PlainGraph joinDsl ∧
      Reachable (step joinWorld joinDsl) joinStart joinEnd ∧
      joinEnd.phase = .finished ∧
      joinEnd.path = ["begin", "a", "b", "j", "k", "j"] ∧
      ¬ joinEnd.batches.flatten.Nodup := by
  refine ⟨joinDsl_plain, joinEnd_reachable, rfl, rfl, ?_⟩
  decide

/-! ## A diamond -/

/-- `a` and `b` both hand on `j`, one right after the other. -/
def diamondDsl : Dsl where
  components :=
    [("begin", { kind := .begin, downstream := ["a", "b"] }),
     ("a", { kind := .other, downstream := ["j"] }),
     ("b", { kind := .other, downstream := ["j"] }),
     ("j", { kind := .other })]
  nodup := by decide

theorem diamondDsl_plain : PlainGraph diamondDsl := by
  constructor
  · refine ⟨fun c => if c = "begin" then 0 else if c = "j" then 2 else 1, ?_⟩
    apply Dsl.forall_of_entries
    simp [diamondDsl]
  · apply Dsl.forall_of_entries
    simp [diamondDsl, Kind.isContainer]
  · apply Dsl.forall_of_entries
    simp [diamondDsl, Kind.isUserFillUp]
  · apply Dsl.forall_of_entries
    simp [diamondDsl]

/-- The state after `n` steps of a run through the diamond. -/
def diamondState (n : ℕ) : RunState :=
  (iterate (step joinWorld diamondDsl) n joinStart).getD joinStart

theorem diamond_joinsAdjacent {s s' : RunState} {kept : List CpnId}
    (hinvoke : invokeBatch joinWorld diamondDsl s = some (s', kept))
    (hrepeat : NoLateRepeat (fun _ => true) (s'.path.drop 0)
      (handedOn joinWorld diamondDsl s' kept)) :
    JoinsAdjacent joinWorld diamondDsl 0 s := by
  intro t kept' hinvoke'
  obtain ⟨rfl, rfl⟩ :=
    Prod.mk.inj (Option.some.inj (hinvoke.symm.trans hinvoke'))
  exact hrepeat

theorem diamond_reach : Reach (step joinWorld diamondDsl)
    (JoinsAdjacent joinWorld diamondDsl 0) joinStart (diamondState 4) := by
  apply reach_iterate rfl
  intro k hk
  match k, hk with
  | 0, _ => exact diamond_joinsAdjacent rfl (by decide)
  | 1, _ => exact diamond_joinsAdjacent rfl (by decide)
  | 2, _ => exact diamond_joinsAdjacent rfl (by decide)
  | 3, _ => exact diamond_joinsAdjacent rfl (by decide)

theorem diamond_invokedOnce :
    (diamondState 4).phase = .finished ∧ InvokedOnce [] (diamondState 4) :=
  ⟨rfl, reach_invokedOnce diamondDsl_plain diamond_reach⟩

end RagflowMineru.Agent
