import RagflowMineru.Agent.Canvas.Steps

/-!
# Suspending and resuming a run

A run that stops for the user leaves its path in the canvas.  The canvas is
written out and rebuilt, and `run` is called again.  The rebuilt objects start
with fresh counters, and the beginning of `run` resets every output, so the
resumed run starts from a canvas that has forgotten the first one.
-/

namespace RagflowMineru.Agent

open RagflowMineru.Library

variable {w : World} {dsl : Dsl}

/-! ## Writing the canvas out and rebuilding it -/

mutual

/-- Whether `json.dumps` accepts a value. -/
def jsonSafe : Value → Bool
  | .stream _ => false
  | .list items => jsonSafeAll items
  | .dict entries => jsonSafeEntries entries
  | _ => true

def jsonSafeAll : List Value → Bool
  | [] => true
  | item :: items => jsonSafe item && jsonSafeAll items

def jsonSafeEntries : List (String × Value) → Bool
  | [] => true
  | (_, value) :: entries => jsonSafe value && jsonSafeEntries entries

end

mutual

/-- `as_dict` and `json.dumps` of an output: a pending stream in a dictionary
becomes an empty dictionary, and anywhere else it raises. -/
def saveValue : Value → Option Value
  | .stream _ => some (.dict [])
  | .dict entries => (saveEntries entries).map .dict
  | value => if jsonSafe value then some value else none

def saveEntries : List (String × Value) → Option (List (String × Value))
  | [] => some []
  | (key, value) :: entries => do
      let value' ← saveValue value
      let entries' ← saveEntries entries
      some ((key, value') :: entries')

end

/-- The outputs of a component, written out and read again. -/
def saveOutputs (outputs : Assoc String (Option Value)) :
    Option (Assoc String (Option Value)) :=
  outputs.mapM fun entry =>
    match entry.2 with
    | none => some entry
    | some value => (saveValue value).map fun value' => (entry.1, some value')

/-- The globals of a canvas whose DSL has none. -/
def defaultGlobals (date : String) : Assoc String Value :=
  [("sys.query", .str ""), ("sys.user_id", .str ""),
   ("sys.conversation_turns", .int 0), ("sys.files", .list []),
   ("sys.history", .list []), ("sys.date", .str date)]

/-- `__str__` followed by `load`.  The objects are constructed anew, and the
globals are kept when they are a part of the DSL. -/
def reload (dsl : Dsl) (storesGlobals : Bool) (date : String) (h : Heap) :
    Option Heap := do
  let saved ← dsl.ids.mapM fun c =>
    (saveOutputs (h.objs c).outputs).map fun outputs => (c, outputs)
  some {
    objs := fun c => { outputs := (Assoc.get? c saved).getD [] }
    globals := if storesGlobals then h.globals else defaultGlobals date }

/-! ## The beginning of a run -/

/-- The arguments of `run`, with the date and the text of the query as the
history shows it. -/
structure RunArgs where
  date : String
  shownQuery : String
  query : Value := .none
  userId : Value := .none
  files : Value := .none
  webhookPayload : Assoc String Value := []
  canceled : Bool := false

/-- A `Begin` that takes its outputs from the webhook payload. -/
def isWebhook (dsl : Dsl) (c : CpnId) : Bool :=
  match dsl.getComponent c with
  | some cpn =>
      match cpn.kind with
      | .begin => cpn.mode = "Webhook"
      | _ => false
  | none => false

/-- Write the webhook payload to the outputs of one component. -/
def setPayload (c : CpnId) (payload : Assoc String Value) (h : Heap) : Heap :=
  payload.foldl
    (fun h entry =>
      if entry.1 = "input" then h else h.setOutput c entry.1 entry.2) h

/-- The outputs that a run takes from the webhook payload. -/
def webhookOutputs (dsl : Dsl) (payload : Assoc String Value) (h : Heap) :
    Heap :=
  dsl.ids.foldl
    (fun h c => if isWebhook dsl c then setPayload c payload h else h) h

/-- Set a global when the argument is truthy. -/
def setTruthy (name : String) (value : Value) (globals : Assoc String Value) :
    Assoc String Value :=
  if value.truthy then Assoc.set name value globals else globals

/-- `sys.conversation_turns` after one more turn. -/
def nextTurn (turns : Value) : Option Value :=
  if !turns.truthy then some (.int 1)
  else
    match turns with
    | .int n => some (.int (n + 1))
    | .float q => some (.float (q + 1))
    | .bool _ => some (.int 2)
    | _ => none

/-- The path that a run starts from. -/
def startPath (path : List CpnId) : List CpnId :=
  if path.getLast?.any namesUserFillUp then path else path ++ ["begin"]

/-- `run` up to the main loop; `none` is an exception. -/
def prologue (dsl : Dsl) (args : RunArgs) (h : Heap) (path : List CpnId) :
    Option RunState := do
  let globals := Assoc.set "sys.date" (.str args.date) h.globals
  match Assoc.get? "sys.history" globals with
  | some (.list history) =>
      let line := Value.str ("user: " ++ args.shownQuery)
      let globals := Assoc.set "sys.history" (.list (history ++ [line])) globals
      let globals := setTruthy "sys.query" args.query globals
      let globals := setTruthy "sys.user_id" args.userId globals
      let globals := setTruthy "sys.files" args.files globals
      let turns ← Assoc.get? "sys.conversation_turns" globals
      let turns ← nextTurn turns
      let h' := webhookOutputs dsl args.webhookPayload h.resetAll
      if args.canceled then none
      else
        some (startRun
          { h' with
            globals := Assoc.set "sys.conversation_turns" turns globals }
          (startPath path))
  | _ => none

/-- The start of the run that resumes a suspended one. -/
def resume (dsl : Dsl) (storesGlobals : Bool) (args : RunArgs)
    (s : RunState) : Option RunState := do
  let h ← reload dsl storesGlobals args.date s.heap
  prologue dsl args h s.path

/-- The resumed run starts where the suspended one stopped: every output reads
as it did, and the item components are at the item they had reached. -/
structure Continues (dsl : Dsl) (s s' : RunState) : Prop where
  outputs : ∀ c key, key ≠ "" → s'.heap.output c key = s.heap.output c key
  counters : ∀ c cpn, dsl.getComponent c = some cpn →
    (cpn.kind.isIterationItem || cpn.kind.isLoopItem) = true →
    (s'.heap.objs c).idx = (s.heap.objs c).idx

/-! ## What the resumed run finds -/

theorem setPayload_output {c x : CpnId} (hne : x ≠ c)
    (payload : Assoc String Value) (h : Heap) (key : String) :
    (setPayload c payload h).output x key = h.output x key := by
  unfold setPayload
  induction payload generalizing h with
  | nil => rfl
  | cons entry payload ih =>
      rw [List.foldl_cons, ih]
      split
      · rfl
      · exact Heap.output_setOutput_cpn h hne _ _ _

theorem setPayload_idx (c x : CpnId) (payload : Assoc String Value)
    (h : Heap) : ((setPayload c payload h).objs x).idx = (h.objs x).idx := by
  unfold setPayload
  induction payload generalizing h with
  | nil => rfl
  | cons entry payload ih =>
      rw [List.foldl_cons, ih]
      split
      · rfl
      · exact Heap.setOutput_idx h _ _ _ _

/-- The payload reaches webhook components only, and no counter. -/
theorem webhookOutputs_frame (dsl : Dsl) (payload : Assoc String Value)
    (h : Heap) :
    (∀ x, isWebhook dsl x = false → ∀ key,
      (webhookOutputs dsl payload h).output x key = h.output x key) ∧
    ∀ x, ((webhookOutputs dsl payload h).objs x).idx = (h.objs x).idx := by
  unfold webhookOutputs
  generalize dsl.ids = ids
  induction ids generalizing h with
  | nil => exact ⟨fun _ _ _ => rfl, fun _ => rfl⟩
  | cons c ids ih =>
      rw [List.foldl_cons]
      obtain ⟨houtput, hidx⟩ :=
        ih (if isWebhook dsl c then setPayload c payload h else h)
      by_cases hc : isWebhook dsl c = true
      · rw [if_pos hc] at houtput hidx ⊢
        constructor
        · intro x hx key
          have hne : x ≠ c := by
            rintro rfl
            rw [hc] at hx
            exact absurd hx (by decide)
          rw [houtput x hx key, setPayload_output hne]
        · intro x
          rw [hidx x, setPayload_idx]
      · rw [if_neg hc] at houtput hidx ⊢
        exact ⟨houtput, hidx⟩

theorem reload_idx {storesGlobals : Bool} {date : String} {h h' : Heap}
    (hreload : reload dsl storesGlobals date h = some h') (c : CpnId) :
    (h'.objs c).idx = 0 := by
  simp only [reload, Option.bind_eq_bind, Option.bind_eq_some_iff] at hreload
  obtain ⟨saved, -, hh'⟩ := hreload
  have hobjs := congrArg Heap.objs (Option.some.inj hh')
  rw [← congrFun hobjs c]

theorem prologue_objs {args : RunArgs} {h : Heap} {path : List CpnId}
    {s : RunState} (hprologue : prologue dsl args h path = some s) :
    s.heap.objs = (webhookOutputs dsl args.webhookPayload h.resetAll).objs := by
  simp only [prologue] at hprologue
  split at hprologue
  · simp only [Option.bind_eq_bind, Option.bind_eq_some_iff] at hprologue
    obtain ⟨turns, -, turns', -, hstart⟩ := hprologue
    split at hstart
    · simp at hstart
    · obtain rfl := Option.some.inj hstart
      rfl
  · simp at hprologue

/-- Every output that a resumed run finds is `None` or missing, those of the
webhook apart, and every counter is back at `0`. -/
theorem resume_forgets {storesGlobals : Bool} {args : RunArgs}
    {s s' : RunState} (hresume : resume dsl storesGlobals args s = some s') :
    (∀ c, isWebhook dsl c = false → ∀ key, key ≠ "" →
      s'.heap.output c key = .none ∨ s'.heap.output c key = .str "") ∧
    ∀ c, (s'.heap.objs c).idx = 0 := by
  simp only [resume, Option.bind_eq_bind, Option.bind_eq_some_iff] at hresume
  obtain ⟨h, hreload, hprologue⟩ := hresume
  have hobjs := prologue_objs hprologue
  obtain ⟨houtput, hidx⟩ :=
    webhookOutputs_frame dsl args.webhookPayload h.resetAll
  constructor
  · intro c hc key hkey
    have hreset := Heap.output_resetAll (h := h) (c := c) hkey
    rw [Heap.output_congr (congrFun hobjs c), houtput c hc]
    exact hreset
  · intro c
    rw [hobjs, hidx, Heap.resetAll_idx]
    exact reload_idx hreload c

/-! ## What a suspended run has written -/

theorem invokeFillUps_of_none {n : ℕ} {pending : List (CpnId × Component)}
    {h : Heap} {tips : Value}
    (hnone : ∀ entry ∈ pending, entry.2.kind.isUserFillUp = false) :
    invokeFillUps w n pending h tips = (h, tips) := by
  induction pending with
  | nil => rfl
  | cons entry rest ih =>
      obtain ⟨c, cpn⟩ := entry
      rw [List.forall_mem_cons] at hnone
      obtain ⟨hcpn, hrest⟩ := hnone
      rw [← ih hrest]
      cases hkind : cpn.kind with
      | userFillUp enableTips => simp [hkind, Kind.isUserFillUp] at hcpn
      | _ => simp [invokeFillUps, hkind]

/-- The last of the pending `UserFillUp` components has its elapsed time
written. -/
theorem invokeFillUps_elapsed (w : World) (n : ℕ) (h : Heap) (tips : Value)
    {pending : List (CpnId × Component)}
    (hany : ∃ entry ∈ pending, entry.2.kind.isUserFillUp = true) :
    ∃ entry ∈ pending, entry.2.kind.isUserFillUp = true ∧ ∃ q,
      (invokeFillUps w n pending h tips).1.output entry.1 "_elapsed_time" =
        .float q := by
  induction pending generalizing h tips with
  | nil => simp at hany
  | cons entry rest ih =>
      obtain ⟨c, cpn⟩ := entry
      by_cases hrest : ∃ entry ∈ rest, entry.2.kind.isUserFillUp = true
      · -- the heap that the rest of the list meets does not matter
        have hlater : ∃ h' tips', invokeFillUps w n ((c, cpn) :: rest) h tips =
            invokeFillUps w n rest h' tips' := by
          cases hkind : cpn.kind with
          | userFillUp enableTips =>
              simp only [invokeFillUps, hkind]
              exact ⟨_, _, rfl⟩
          | _ =>
              simp only [invokeFillUps, hkind]
              exact ⟨_, _, rfl⟩
        obtain ⟨h', tips', hsame⟩ := hlater
        obtain ⟨entry, hentry, hfill, q, hq⟩ := ih h' tips' hrest
        refine ⟨entry, List.mem_cons_of_mem _ hentry, hfill, q, ?_⟩
        rw [hsame]
        exact hq
      · obtain ⟨entry, hentry, hfill⟩ := hany
        rcases List.mem_cons.mp hentry with rfl | htail
        · refine ⟨(c, cpn), List.mem_cons_self, hfill, ?_⟩
          have hnone : ∀ entry ∈ rest, entry.2.kind.isUserFillUp = false := by
            intro entry hentry'
            by_contra hne
            exact hrest ⟨entry, hentry', by simpa using hne⟩
          cases hkind : cpn.kind with
          | userFillUp enableTips =>
              simp only [invokeFillUps, hkind]
              rw [invokeFillUps_of_none hnone]
              exact ⟨_, Component.invoke_output_elapsed cpn c _ _ _ h⟩
          | _ => simp [hkind, Kind.isUserFillUp] at hfill
        · exact absurd ⟨entry, htail, hfill⟩ hrest

/-- A suspended run has invoked a `UserFillUp`. -/
theorem suspended_elapsed {h : Heap} {path : List CpnId} {s : RunState}
    (hs : Reachable (step w dsl) (startRun h path) s)
    (hsuspended : s.phase = .suspended) :
    ∃ c cpn, dsl.getComponent c = some cpn ∧
      cpn.kind.isUserFillUp = true ∧ ∃ q,
      s.heap.output c "_elapsed_time" = .float q := by
  cases hs with
  | refl => exact absurd hsuspended (by simp [startRun])
  | @next s₀ _ _ _ hstep =>
      obtain ⟨hrunning, ⟨-, s', kept, s'', hinvoke, hfold, hclose⟩ |
        ⟨-, last, -, rfl⟩⟩ := step_cases hstep
      · rcases closeBatch_cases hclose with ⟨-, rfl⟩ |
          ⟨-, pending, hpending, hany, rfl⟩ | ⟨-, rfl⟩
        · have hphase : s''.phase = .running := by
            rw [(foldlM_postProcess_frame hfold).1.phase,
              invokeBatch_phase hinvoke, hrunning]
          exact absurd (hphase.symm.trans hsuspended) (by decide)
        · have hany' : ∃ entry ∈
              (pending.filter fun entry => entry.2.kind.isUserFillUp) ++
                (pending.filter fun entry => !entry.2.kind.isUserFillUp),
              entry.2.kind.isUserFillUp = true := by
            obtain ⟨entry, hentry, hfill⟩ := hany
            refine ⟨entry, ?_, hfill⟩
            apply List.mem_append_left
            exact List.mem_filter.mpr ⟨hentry, hfill⟩
          obtain ⟨entry, hentry, hfill, q, hq⟩ :=
            invokeFillUps_elapsed w s''.batches.length s''.heap (.str "") hany'
          have hmem : entry ∈ pending := by
            rcases List.mem_append.mp hentry with hin | hin
            · exact (List.mem_filter.mp hin).1
            · exact (List.mem_filter.mp hin).1
          exact ⟨entry.1, entry.2,
            getComponent_of_mem_lookupAll hpending entry hmem, hfill, q, hq⟩
        · rw [fail_phase] at hsuspended
          exact absurd hsuspended (by decide)
      · exact absurd hsuspended (by simp)

/-- No suspended run is ever continued: the outputs that it has written are
gone. -/
theorem resume_not_continues {h : Heap} {path : List CpnId} {s : RunState}
    (hs : Reachable (step w dsl) (startRun h path) s)
    (hsuspended : s.phase = .suspended) (storesGlobals : Bool)
    (args : RunArgs) :
    ¬ ∃ s', resume dsl storesGlobals args s = some s' ∧
      Continues dsl s s' := by
  rintro ⟨s', hresume, hcontinues⟩
  obtain ⟨c, cpn, hcpn, hfill, q, hq⟩ := suspended_elapsed hs hsuspended
  have hc : isWebhook dsl c = false := by
    cases hkind : cpn.kind with
    | userFillUp enableTips => simp [isWebhook, hcpn, hkind]
    | _ => simp [hkind, Kind.isUserFillUp] at hfill
  have hsame := hcontinues.outputs c "_elapsed_time" (by decide)
  rw [hq] at hsame
  rcases (resume_forgets hresume).1 c hc "_elapsed_time" (by decide) with
    hnone | hmissing
  · exact absurd (hnone.symm.trans hsame) (by simp)
  · exact absurd (hmissing.symm.trans hsame) (by simp)

/-! ## An answer that is lost -/

/-- `a` answers, and then the user is asked. -/
def askDsl : Dsl where
  components :=
    [("begin", { kind := .begin, downstream := ["a"] }),
     ("a", { kind := .other, downstream := ["userfillup"] }),
     ("userfillup", { kind := .userFillUp false })]
  nodup := by decide

def askWorld : World :=
  scriptedWorld (fun _ => [])
    fun c => if c = "a" then [("content", .str "answer")] else []

def askHeap : Heap where
  objs := fun _ => {}
  globals := defaultGlobals "2025-01-01 00:00:00"

def askArgs : RunArgs where
  date := "2025-01-01 00:00:01"
  shownQuery := "None"

def askStart : RunState := startRun askHeap ["begin"]

/-- The suspended run. -/
def askSuspended : RunState :=
  (iterate (step askWorld askDsl) 2 askStart).getD askStart

/-- The start of the run that resumes it. -/
def askResumed : RunState :=
  (resume askDsl true askArgs askSuspended).getD askStart

theorem askSuspended_reachable :
    Reachable (step askWorld askDsl) askStart askSuspended :=
  reachable_iterate rfl

theorem askResumed_eq :
    resume askDsl true askArgs askSuspended = some askResumed := by
  have hsome : (resume askDsl true askArgs askSuspended).isSome = true := by
    decide +kernel
  obtain ⟨s, hs⟩ := Option.isSome_iff_exists.mp hsome
  rw [askResumed, hs]
  rfl

/-- The suspended run holds the answer of `a`.  The resumed run starts from the
same path and does not find it. -/
theorem resume_loses_answer :
    Reachable (step askWorld askDsl) askStart askSuspended ∧
      askSuspended.phase = .suspended ∧
      askSuspended.heap.output "a" "content" = .str "answer" ∧
      resume askDsl true askArgs askSuspended = some askResumed ∧
      askResumed.path = askSuspended.path ∧
      askResumed.heap.output "a" "content" ≠ .str "answer" ∧
      ¬ Continues askDsl askSuspended askResumed := by
  have hbefore : askSuspended.heap.output "a" "content" = .str "answer" := rfl
  have hafter : askResumed.heap.output "a" "content" ≠ .str "answer" := by
    rcases (resume_forgets askResumed_eq).1 "a" (by decide) "content"
      (by decide) with hnone | hmissing
    · rw [hnone]
      simp
    · rw [hmissing]
      simp
  refine ⟨askSuspended_reachable, rfl, hbefore, askResumed_eq,
    by decide +kernel, hafter, ?_⟩
  intro hcontinues
  have hsame := hcontinues.outputs "a" "content" (by decide)
  exact hafter (hsame.trans hbefore)

theorem ask_resume_not_continues :
    ¬ ∃ s', resume askDsl true askArgs askSuspended = some s' ∧
      Continues askDsl askSuspended s' :=
  resume_not_continues askSuspended_reachable rfl true askArgs

end RagflowMineru.Agent
