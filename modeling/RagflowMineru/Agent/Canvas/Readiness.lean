import RagflowMineru.Agent.Canvas.Steps

/-!
# What the readiness test guarantees

A component of a batch is started when every component it references stands
before it in `path`.  That part of `path` holds the components of earlier
batches, but also the members of the same batch in front of it and the entries
left by earlier runs, and neither has produced its output in this run yet.
-/

namespace RagflowMineru.Agent

open RagflowMineru.Library

variable {w : World} {dsl : Dsl}

/-- Every reference of the component `c` is to an element of `done`. -/
def ReferencesIn (w : World) (h : Heap) (done : List CpnId) (c : CpnId) :
    Prop :=
  ∀ refs, w.elements h c = some refs → ∀ ref ∈ refs, ref ≠ "" → ref ∈ done

/-- Every component that a started component references was invoked in an
earlier batch of the run. -/
def DependenciesInvoked (w : World) (s : RunState) (kept : List CpnId) :
    Prop :=
  ∀ c ∈ kept, ReferencesIn w s.heap s.batches.flatten c

/-- `Begin` and `UserFillUp` are started without a test. -/
def Exempt (dsl : Dsl) (c : CpnId) : Prop :=
  ∃ cpn, dsl.getComponent c = some cpn ∧ cpn.kind.takesInputs = true

/-- The references of `c` are to the list `front`, or to entries of `pre` that
depend on `done` only. -/
def Covered (w : World) (h : Heap) (front done pre : List CpnId) (c : CpnId) :
    Prop :=
  ∀ refs, w.elements h c = some refs → ∀ ref ∈ refs, ref ≠ "" →
    ref ∈ front ∨ (ref ∈ pre ∧ ReferencesIn w h done ref)

/-- An entry of the list `slice` behind `pre` that is exempt, or is covered by
`front` and the entries before it, depends on `done` only. -/
def NoOpenEntry (w : World) (dsl : Dsl) (h : Heap)
    (front done pre slice : List CpnId) : Prop :=
  ∀ mid c post, slice = mid ++ c :: post →
    Exempt dsl c ∨ Covered w h front done (pre ++ mid) c →
    ReferencesIn w h done c

/-- No entry of the coming batch gets past the test through a reference to an
earlier run or to its own batch: an entry that is exempt from the test, or
references only earlier runs, earlier batches and entries of its batch in front
of it that depend on earlier batches, depends on earlier batches itself. -/
def NoOpenReference (w : World) (dsl : Dsl) (prior : List CpnId)
    (s : RunState) : Prop :=
  NoOpenEntry w dsl s.heap (prior ++ s.batches.flatten) s.batches.flatten []
    (s.path.drop s.idx)

/-! ## The test itself -/

theorem missesInput_eq_false_iff {before refs : List CpnId} :
    missesInput false before refs = false ↔
      ∀ ref ∈ refs, ref ≠ "" → ref ∈ before := by
  simp only [missesInput, Bool.not_false, Bool.true_and, List.any_eq_false]
  simp

theorem noOpenEntry_cons {h : Heap} {front done pre rest : List CpnId}
    {d : CpnId} :
    NoOpenEntry w dsl h front done pre (d :: rest) ↔
      (Exempt dsl d ∨ Covered w h front done pre d →
        ReferencesIn w h done d) ∧
      NoOpenEntry w dsl h front done (pre ++ [d]) rest := by
  constructor
  · intro hopen
    constructor
    · intro hd
      exact hopen [] d rest rfl (by simpa using hd)
    · intro mid c post hsplit hc
      exact hopen (d :: mid) c post (by simp [hsplit]) (by simpa using hc)
  · rintro ⟨hhead, htail⟩ mid c post hsplit hc
    cases mid with
    | nil =>
        obtain ⟨rfl, rfl⟩ := List.cons.inj hsplit
        exact hhead (by simpa using hc)
    | cons d' mid =>
        obtain ⟨rfl, hrest⟩ := List.cons.inj hsplit
        exact htail mid c post hrest (by simpa using hc)

/-- One pass of the loop over an entry that is not exempt: it is kept exactly
when the entries in front of it cover its references. -/
theorem runBatchLoop_cons {h : Heap} {before rest path : List CpnId}
    {d : CpnId}
    (hloop : runBatchLoop w dsl h false before (d :: rest) = some path) :
    (runBatchLoop w dsl h false (before ++ [d]) rest = some path ∧
      (Exempt dsl d ∨ ReferencesIn w h before d)) ∨
    (runBatchLoop w dsl h false before rest = some path ∧
      ¬ Exempt dsl d ∧ ¬ ReferencesIn w h before d) := by
  simp only [runBatchLoop, Option.bind_eq_bind,
    Option.bind_eq_some_iff] at hloop
  obtain ⟨cpn, hcpn, hloop⟩ := hloop
  by_cases htakes : cpn.kind.takesInputs = true
  · rw [if_pos htakes] at hloop
    exact Or.inl ⟨hloop, Or.inl ⟨cpn, hcpn, htakes⟩⟩
  · rw [if_neg htakes] at hloop
    obtain ⟨refs, hrefs, hloop⟩ := Option.bind_eq_some_iff.mp hloop
    have href : ReferencesIn w h before d ↔
        missesInput false before refs = false := by
      rw [missesInput_eq_false_iff]
      constructor
      · intro hin
        exact hin refs hrefs
      · intro hin refs' hrefs'
        obtain rfl : refs' = refs := Option.some.inj (hrefs'.symm.trans hrefs)
        exact hin
    by_cases hmiss : missesInput false before refs = true
    · rw [if_pos hmiss] at hloop
      refine Or.inr ⟨hloop, ?_, ?_⟩
      · rintro ⟨cpn', hcpn', htakes'⟩
        obtain rfl : cpn' = cpn := Option.some.inj (hcpn'.symm.trans hcpn)
        exact htakes htakes'
      · rw [href, hmiss]
        simp
    · rw [if_neg hmiss] at hloop
      exact Or.inl ⟨hloop,
        Or.inr (href.mpr (Bool.eq_false_of_not_eq_true hmiss))⟩

section Before

variable {P : CpnId → Prop} {front pre before : List CpnId} {d : CpnId}

/-- An entry that is kept joins those in front of the rest of the batch. -/
theorem mem_before_of_kept
    (hbefore : ∀ x, x ∈ before ↔ x ∈ front ∨ (x ∈ pre ∧ P x)) (hd : P d)
    (x : CpnId) :
    x ∈ before ++ [d] ↔ x ∈ front ∨ (x ∈ pre ++ [d] ∧ P x) := by
  rw [List.mem_append, List.mem_append, List.mem_singleton, hbefore]
  constructor
  · rintro ((hfront | ⟨hpre, hx⟩) | rfl)
    · exact Or.inl hfront
    · exact Or.inr ⟨Or.inl hpre, hx⟩
    · exact Or.inr ⟨Or.inr rfl, hd⟩
  · rintro (hfront | ⟨hpre | hlast, hx⟩)
    · exact Or.inl (Or.inl hfront)
    · exact Or.inl (Or.inr ⟨hpre, hx⟩)
    · exact Or.inr hlast

/-- An entry that is taken out does not. -/
theorem mem_before_of_dropped
    (hbefore : ∀ x, x ∈ before ↔ x ∈ front ∨ (x ∈ pre ∧ P x)) (hd : ¬ P d)
    (x : CpnId) :
    x ∈ before ↔ x ∈ front ∨ (x ∈ pre ++ [d] ∧ P x) := by
  rw [List.mem_append, List.mem_singleton, hbefore]
  constructor
  · rintro (hfront | ⟨hpre, hx⟩)
    · exact Or.inl hfront
    · exact Or.inr ⟨Or.inl hpre, hx⟩
  · rintro (hfront | ⟨hpre | rfl, hx⟩)
    · exact Or.inl hfront
    · exact Or.inr ⟨hpre, hx⟩
    · exact absurd hx hd

end Before

/-- The entries kept from `slice` depend on `done` only, exactly when no entry
of `slice` is open.  In front of `slice` stand `front` and the entries of `pre`
that depend on `done`. -/
theorem runBatchLoop_references_iff {h : Heap}
    {front done pre before slice kept : List CpnId}
    (hdone : ∀ ref ∈ done, ref ∈ front)
    (hbefore : ∀ x, x ∈ before ↔
      x ∈ front ∨ (x ∈ pre ∧ ReferencesIn w h done x))
    (hloop : runBatchLoop w dsl h false before slice =
      some (before ++ kept)) :
    (∀ c ∈ kept, ReferencesIn w h done c) ↔
      NoOpenEntry w dsl h front done pre slice := by
  induction slice generalizing before kept pre with
  | nil =>
      have hpath : before ++ [] = before ++ kept := by
        simpa using Option.some.inj hloop
      have hnil : kept = [] := (List.append_cancel_left hpath).symm
      subst hnil
      simp [NoOpenEntry]
  | cons d rest ih =>
      rw [noOpenEntry_cons]
      have hcovered : ReferencesIn w h before d ↔
          Covered w h front done pre d := by
        simp only [ReferencesIn, Covered, hbefore]
      rcases runBatchLoop_cons hloop with ⟨hrest, hkeep⟩ |
        ⟨hrest, hexempt, hmiss⟩
      · -- `d` is kept
        rw [hcovered] at hkeep
        obtain ⟨kept', hpath, -⟩ := runBatchLoop_spec hrest
        have hkept : kept = d :: kept' := by
          have hsame : before ++ kept = before ++ d :: kept' := by
            simpa using hpath
          exact List.append_cancel_left hsame
        subst hkept
        rw [List.forall_mem_cons]
        simp only [hkeep, forall_const]
        apply and_congr_right
        intro hd
        apply ih (mem_before_of_kept hbefore hd)
        rw [hrest]
        simp
      · -- `d` is taken out of the batch, so it does not depend on `done` only
        have hdep : ¬ ReferencesIn w h done d := by
          intro hd
          apply hmiss
          intro refs hrefs ref href hne
          exact (hbefore ref).mpr
            (Or.inl (hdone ref (hd refs hrefs ref href hne)))
        rw [hcovered] at hmiss
        have hhead : (Exempt dsl d ∨ Covered w h front done pre d →
            ReferencesIn w h done d) := by
          rintro (hd | hd)
          · exact absurd hd hexempt
          · exact absurd hd hmiss
        rw [and_iff_right hhead]
        exact ih (mem_before_of_dropped hbefore hdep) hrest

/-! ## A fresh run never counts as resumed -/

/-- The first entry of `path` does not name a `UserFillUp`, and it is the only
entry as long as nothing has been run. -/
structure FreshHead (s : RunState) : Prop where
  head : s.path.head?.any namesUserFillUp = false
  single : s.idx = 0 → s.path.length ≤ 1

theorem startRun_freshHead {h : Heap} {prior : List CpnId}
    (hhead : (prior ++ ["begin"]).head? = some "begin") :
    FreshHead (startRun h (prior ++ ["begin"])) := by
  constructor
  · have hname : namesUserFillUp "begin" = false := by decide
    simpa [startRun, hhead] using hname
  · intro hidx
    have hlen : prior.length = 0 := by simpa [startRun] using hidx
    simp [startRun, hlen]

theorem head?_of_initial {α : Type*} {l m : List α} {x : α}
    (hpfx : l <+: m) (hx : l.head? = some x) : m.head? = some x := by
  obtain ⟨rest, rfl⟩ := hpfx
  simp [List.head?_append, hx]

theorem step_freshHead {s t : RunState} (hle : s.idx ≤ s.path.length)
    (hfresh : FreshHead s) (hstep : step w dsl s = some t)
    (hrunning : t.phase = .running) : FreshHead t := by
  obtain ⟨hlt, s', kept, s'', hinvoke, hfold, rfl⟩ :=
    step_running hstep hrunning
  obtain ⟨started, heap, -, -, hsub, rfl⟩ := invokeBatch_spec hle hinvoke
  obtain ⟨-, hpfx⟩ := foldlM_postProcess_frame hfold
  -- the first entry of the old path is still the first entry
  obtain ⟨x, xs, hpath⟩ : ∃ x xs, s.path = x :: xs := by
    apply List.exists_cons_of_length_pos
    exact lt_of_le_of_lt (Nat.zero_le _) hlt
  have hx : namesUserFillUp x = false := by
    simpa [hpath] using hfresh.head
  by_cases hkept : s.path.take s.idx ++ kept = []
  · have hfold' : s'' = { s with
        heap := heap
        path := s.path.take s.idx ++ kept
        events := s.events ++ started
        batches := s.batches ++ [kept] } := by
      have hnil : kept = [] := (List.append_eq_nil_iff.mp hkept).2
      subst hnil
      exact (Option.some.inj hfold).symm
    have hempty : s''.path = [] := by rw [hfold']; exact hkept
    exact ⟨by simp [hempty], fun _ => by simp [hempty]⟩
  · have hhead : (s.path.take s.idx ++ kept).head? = some x := by
      by_cases hidx : s.idx = 0
      · have hone := hfresh.single hidx
        have hxs : xs = [] := by
          rw [hpath] at hone
          simpa using hone
        have hsub' : kept.Sublist [x] := by
          simpa [hidx, hpath, hxs] using hsub
        rcases List.sublist_singleton.mp hsub' with hnil | hsingle
        · exact absurd (by simp [hidx, hnil]) hkept
        · simp [hidx, hsingle]
      · obtain ⟨n, hn⟩ := Nat.exists_eq_succ_of_ne_zero hidx
        simp [hn, hpath]
    refine ⟨?_, ?_⟩
    · show s''.path.head?.any namesUserFillUp = false
      rw [head?_of_initial hpfx hhead]
      simpa using hx
    · intro hzero
      exact absurd (List.length_eq_zero_iff.mp hzero) hkept

theorem reach_freshHead {P : RunState → Prop} {h : Heap} {prior : List CpnId}
    {s : RunState} (hhead : (prior ++ ["begin"]).head? = some "begin")
    (hs : Reach (step w dsl) P (startRun h (prior ++ ["begin"])) s)
    (hrunning : s.phase = .running) : FreshHead s := by
  have hinv : s.phase = .running → FrontInv prior s ∧ FreshHead s := by
    refine Reach.invariant
      (I := fun s => s.phase = .running → FrontInv prior s ∧ FreshHead s)
      ?_ ?_ hs
    · intro _
      exact ⟨startRun_frontInv h prior "begin", startRun_freshHead hhead⟩
    · intro s t ih _ hstep ht
      obtain ⟨hfront, hfresh⟩ := ih (step_cases hstep).1
      exact ⟨step_frontInv hfront hstep ht,
        step_freshHead hfront.idx_le hfresh hstep ht⟩
  exact (hinv hrunning).2

/-! ## What a started component can rely on -/

/-- In a fresh run the components of a batch depend on earlier batches only,
exactly when the batch has no open reference. -/
theorem dependenciesInvoked_iff {h : Heap} {prior : List CpnId}
    (hhead : (prior ++ ["begin"]).head? = some "begin") {s s' : RunState}
    (hs : Reachable (step w dsl) (startRun h (prior ++ ["begin"])) s)
    (hrunning : s.phase = .running) {kept : List CpnId}
    (hbatch : invokeBatch w dsl s = some (s', kept)) :
    DependenciesInvoked w s kept ↔ NoOpenReference w dsl prior s := by
  have hinv := reach_frontInv hs hrunning
  have hfresh := reach_freshHead hhead hs hrunning
  obtain ⟨started, heap, -, hloop, -, -⟩ :=
    invokeBatch_spec hinv.idx_le hbatch
  rw [hfresh.head] at hloop
  apply runBatchLoop_references_iff ?_ ?_ hloop
  · intro ref href
    exact List.mem_append_right prior href
  · intro x
    rw [hinv.front]
    simp

/-! ## Two siblings of one batch -/

/-- `begin` starts `a` and `b` in one batch, and `b` reads the output of
`a`. -/
def siblingDsl : Dsl where
  components :=
    [("begin", { kind := .begin, downstream := ["a", "b"] }),
     ("a", { kind := .other }),
     ("b", { kind := .other })]
  nodup := by decide

def siblingWorld : World :=
  scriptedWorld (fun c => if c = "b" then ["a"] else []) fun _ => []

def siblingStart : RunState := startRun profileHeap ["begin"]

/-- The state in which the second batch is about to start. -/
def siblingState : RunState :=
  (iterate (step siblingWorld siblingDsl) 1 siblingStart).getD siblingStart

theorem siblingState_reachable :
    Reachable (step siblingWorld siblingDsl) siblingStart siblingState :=
  reachable_iterate rfl

/-- The readiness test lets `b` start together with the component `a` that it
references. -/
theorem sibling_reference_not_invoked :
    Reachable (step siblingWorld siblingDsl) siblingStart siblingState ∧
      siblingState.phase = .running ∧
      ∃ s', invokeBatch siblingWorld siblingDsl siblingState =
          some (s', ["a", "b"]) ∧
        ¬ DependenciesInvoked siblingWorld siblingState ["a", "b"] := by
  refine ⟨siblingState_reachable, rfl, _, rfl, ?_⟩
  intro hdeps
  have ha : "a" ∈ siblingState.batches.flatten :=
    hdeps "b" (by decide) ["a"] rfl "a" (by decide) (by decide)
  exact absurd ha (by decide)

theorem sibling_dependenciesInvoked_iff :
    DependenciesInvoked siblingWorld siblingState ["a", "b"] ↔
      NoOpenReference siblingWorld siblingDsl [] siblingState := by
  have hkept : (invokeBatch siblingWorld siblingDsl siblingState).map Prod.snd =
      some ["a", "b"] := rfl
  obtain ⟨⟨s', kept⟩, hinvoke, rfl⟩ := Option.map_eq_some_iff.mp hkept
  exact dependenciesInvoked_iff rfl siblingState_reachable rfl hinvoke

end RagflowMineru.Agent
