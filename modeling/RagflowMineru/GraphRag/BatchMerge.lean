import RagflowMineru.GraphRag.TaskLock

/-!
# The lock of one batch

`run_graphrag_for_kb` with an answer for every sub-step: what it returns or which
exception ends it.  The state is whether the call holds the lock on the knowledge
base.
-/

namespace RagflowMineru.GraphRag

variable {γ : Type}

inductive Raised
  | taskCanceled (message : String)
  | other (message : String)
  deriving DecidableEq

/-- The calls of `has_canceled`. -/
inductive CancelCheck
  | beforeDocs
  | afterDocs
  | beforeMerging
  | beforeResolution
  deriving DecidableEq

/-- A document that failed, by its id alone or with the error. -/
inductive FailedDoc
  | unread (docId : String)
  | error (docId error : String)
  deriving DecidableEq

/-- How the sub-steps end.  `build` is the parallel part, and `seconds` the time
that messages show. -/
structure BatchOutcomes (γ : Type) where
  docs : Except Raised (List String)
  chunks : String → Except Raised (List String)
  build : Except Raised (List (String × γ) × List FailedDoc)
  canceled : CancelCheck → Bool
  callback : String → Except Raised Unit
  spinAcquire : Region → Except Raised Unit
  mergeSubgraph : String → γ → Except Raised (Option γ)
  resolveEntities : Except Raised Unit
  extractCommunity : Except Raised Unit
  release : Region → Except Raised Unit
  seconds : String

structure BatchArguments where
  taskId : String
  kbId : String
  docIds : List String
  withResolution : Bool
  withCommunity : Bool

structure BatchResult where
  okDocs : List String
  failedDocs : List FailedDoc
  totalDocs : ℕ
  totalChunks : ℕ
  deriving DecidableEq

/-- What is ready when the first lock is taken. -/
structure Prepared (γ : Type) where
  docIds : List String
  totalChunks : ℕ
  subgraphs : List (String × γ)
  failedDocs : List FailedDoc

/-- `[d for d in doc_ids if d in subgraphs]`. -/
def Prepared.okDocs (p : Prepared γ) : List String :=
  p.docIds.filter fun d => d ∈ p.subgraphs.map Prod.fst

def Prepared.result (p : Prepared γ) : BatchResult :=
  ⟨p.okDocs, p.failedDocs, p.docIds.length, p.totalChunks⟩

variable (a : BatchArguments) (o : BatchOutcomes γ)

/-- `if has_canceled(row["id"]): callback(...); raise ...`. -/
def checkCanceled (check : CancelCheck) (when : String) : Except Raised Unit := do
  if o.canceled check then
    o.callback s!"Task {a.taskId} cancelled {when}."
    throw (.taskCanceled s!"Task {a.taskId} was cancelled")

/-- Everything before the first lock; `.inl` is an early return. -/
def prepare : Except Raised (BatchResult ⊕ Prepared γ) := do
  let fetched ← if a.docIds.isEmpty then o.docs else pure a.docIds
  let docIds := fetched.eraseDups
  if docIds.isEmpty then
    o.callback s!"[GraphRAG] kb:{a.kbId} has no processable doc_id."
    return .inl ⟨[], [], 0, 0⟩
  let chunks ← docIds.mapM o.chunks
  let totalChunks := (chunks.map List.length).sum
  if totalChunks = 0 then
    o.callback s!"[GraphRAG] kb:{a.kbId} has no available chunks in all documents, skip."
    return .inl ⟨[], docIds.map .unread, docIds.length, 0⟩
  checkCanceled a o .beforeDocs "before processing documents"
  let (subgraphs, failedDocs) ← o.build
  checkCanceled a o .afterDocs "after document processing"
  let p : Prepared γ := ⟨docIds, totalChunks, subgraphs, failedDocs⟩
  if p.okDocs.isEmpty then
    o.callback s!"[GraphRAG] kb:{a.kbId} no subgraphs generated successfully, end."
    return .inl p.result
  return .inr p

/-- Merge the subgraphs of the documents one after the other. -/
def mergeSubgraphs (p : Prepared γ) : Except Raised (Option γ) :=
  p.okDocs.foldlM (fun finalGraph docId => do
    match p.subgraphs.lookup docId with
    | none => pure finalGraph
    | some sg =>
        let newGraph ← o.mergeSubgraph docId sg
        pure (newGraph <|> finalGraph)) none

/-- The first try. -/
def mergeAll (p : Prepared γ) : Except Raised Unit := do
  let finalGraph ← mergeSubgraphs o p
  match finalGraph with
  | none => o.callback s!"[GraphRAG] kb:{a.kbId} merge finished (no in-memory graph returned)."
  | some _ => o.callback s!"[GraphRAG] kb:{a.kbId} merge finished, graph ready."

/-- The second try. -/
def resolveAndExtract : Except Raised Unit := do
  if a.withResolution then o.resolveEntities
  if a.withCommunity then o.extractCommunity

/-- The callback after the first `spin_acquire`. -/
def mergeLockAcquired : Except Raised Unit :=
  o.callback s!"[GraphRAG] kb:{a.kbId} merge lock acquired"

/-- The callback after the second. -/
def postMergeLockAcquired : Except Raised Unit :=
  o.callback s!"[GraphRAG] kb:{a.kbId} post-merge lock acquired for resolution/community"

/-- Whether the lock is held, and exceptions. -/
abbrev Locked := EStateM Raised Bool

def perform {α : Type} (outcome : Except Raised α) : Locked α :=
  match outcome with
  | .ok x => pure x
  | .error e => throw e

def acquireLock (region : Region) : Locked Unit := do
  perform (o.spinAcquire region)
  set true

def releaseLock (region : Region) : Locked Unit := do
  perform (o.release region)
  set false

def mergeLocked (p : Prepared γ) : Locked Unit := do
  acquireLock o .merge
  perform (mergeLockAcquired a o)
  perform (checkCanceled a o .beforeMerging "before merging subgraphs")
  tryFinally (perform (mergeAll a o p)) (releaseLock o .merge)

def resolveLocked : Locked Unit := do
  acquireLock o .postMerge
  perform (postMergeLockAcquired a o)
  tryFinally (perform (resolveAndExtract a o)) (releaseLock o .postMerge)

/-- What follows the merge. -/
def afterMerge (p : Prepared γ) : Locked BatchResult := do
  if !a.withResolution && !a.withCommunity then
    perform (o.callback s!"[GraphRAG] KB merge done in {o.seconds}s. ok={p.okDocs.length} / total={p.docIds.length}")
    return p.result
  perform (checkCanceled a o .beforeResolution "before resolution/community extraction")
  resolveLocked a o
  perform (o.callback s!"[GraphRAG] GraphRAG for KB {a.kbId} done in {o.seconds} seconds. ok={p.okDocs.length} failed={p.failedDocs.length} total_docs={p.docIds.length} total_chunks={p.totalChunks}")
  return p.result

def runGraphragForKb : Locked BatchResult := do
  match ← perform (prepare a o) with
  | .inl result => return result
  | .inr p =>
      mergeLocked a o p
      afterMerge a o p

/-! ## What is claimed -/

/-- Whether the lock is held when the call returns or raises. -/
def atExit {α : Type} : EStateM.Result Raised Bool α → Bool
  | .ok _ held => held
  | .error _ held => held

/-- A lock that the call acquired has been released when the call ends. -/
def ReleasesLock : Prop := atExit ((runGraphragForKb a o).run false) = false

/-- The condition from the first lock on: nothing ends the call between an
acquisition and its try, and no release fails. -/
def ReleasesAfter (p : Prepared γ) : Prop :=
  (mergeLockAcquired a o = .ok () ∧ o.canceled .beforeMerging = false ∧
    o.release .merge = .ok ()) ∧
  (mergeAll a o p = .ok () → a.withResolution ∨ a.withCommunity →
    o.canceled .beforeResolution = false → o.spinAcquire .postMerge = .ok () →
    postMergeLockAcquired a o = .ok () ∧ o.release .postMerge = .ok ())

/-- The condition for a call that may end before the first lock. -/
def ReleasesWhen : Prop :=
  ∀ p, prepare a o = .ok (.inr p) → o.spinAcquire .merge = .ok () → ReleasesAfter a o p

/-! ## Runs of the parts -/

variable {a o} {p : Prepared γ}

theorem checkCanceled_of_not {check : CancelCheck} (h : o.canceled check = false) (when : String) :
    checkCanceled a o check when = .ok () := by
  simp [checkCanceled, h, pure, Except.pure]

theorem checkCanceled_of_canceled {check : CancelCheck} (h : o.canceled check = true)
    (when : String) : ∃ e, checkCanceled a o check when = .error e := by
  cases hcallback : o.callback s!"Task {a.taskId} cancelled {when}." with
  | ok v =>
      exact ⟨.taskCanceled s!"Task {a.taskId} was cancelled", by
        simp [checkCanceled, h, hcallback, bind, Except.bind, throw, throwThe, MonadExceptOf.throw]⟩
  | error e =>
      exact ⟨e, by simp [checkCanceled, h, hcallback, bind, Except.bind]⟩

section

variable {α β : Type}

theorem run_bind_ok {x : Locked α} {f : α → Locked β} {s t : Bool} {v : α}
    (h : x.run s = .ok v t) : (x >>= f).run s = (f v).run t := by
  simp only [EStateM.run, bind, EStateM.bind] at h ⊢
  rw [h]

theorem run_bind_error {x : Locked α} {f : α → Locked β} {s t : Bool} {e : Raised}
    (h : x.run s = .error e t) : (x >>= f).run s = .error e t := by
  simp only [EStateM.run, bind, EStateM.bind] at h ⊢
  rw [h]

theorem run_perform_ok {outcome : Except Raised α} {v : α} (h : outcome = .ok v) (s : Bool) :
    (perform outcome).run s = .ok v s := by
  rw [h]
  rfl

theorem run_perform_error {outcome : Except Raised α} {e : Raised} (h : outcome = .error e)
    (s : Bool) : (perform outcome).run s = .error e s := by
  rw [h]
  rfl

end

theorem run_acquireLock_ok {region : Region} (h : o.spinAcquire region = .ok ()) (s : Bool) :
    (acquireLock o region).run s = .ok () true :=
  run_bind_ok (run_perform_ok h s)

theorem run_acquireLock_error {region : Region} {e : Raised}
    (h : o.spinAcquire region = .error e) (s : Bool) :
    (acquireLock o region).run s = .error e s :=
  run_bind_error (run_perform_error h s)

theorem run_releaseLock_ok {region : Region} (h : o.release region = .ok ()) (s : Bool) :
    (releaseLock o region).run s = .ok () false :=
  run_bind_ok (run_perform_ok h s)

theorem run_releaseLock_error {region : Region} {e : Raised} (h : o.release region = .error e)
    (s : Bool) : (releaseLock o region).run s = .error e s :=
  run_bind_error (run_perform_error h s)

section

variable {α β : Type}

theorem run_tryFinally_ok {x : Locked α} {y : Locked Unit} {s t u : Bool} {v : α}
    (hx : x.run s = .ok v t) (hy : y.run t = .ok () u) : (tryFinally x y).run s = .ok v u := by
  simp only [EStateM.run] at hx hy ⊢
  simp [tryFinally, tryFinally', Functor.map, EStateM.map, hx, hy]

theorem run_tryFinally_error {x : Locked α} {y : Locked Unit} {s t u : Bool} {e : Raised}
    (hx : x.run s = .error e t) (hy : y.run t = .ok () u) :
    (tryFinally x y).run s = .error e u := by
  simp only [EStateM.run] at hx hy ⊢
  simp [tryFinally, tryFinally', Functor.map, EStateM.map, hx, hy]

/-- An exception of the finally clause comes before that of the work. -/
theorem run_tryFinally_finalizer_error {x : Locked α} {y : Locked Unit} {s u : Bool} {e : Raised}
    (hy : y.run (atExit (x.run s)) = .error e u) : (tryFinally x y).run s = .error e u := by
  simp only [EStateM.run] at hy ⊢
  cases hx : x s <;> rw [hx] at hy <;> simp only [atExit] at hy <;>
    simp [tryFinally, tryFinally', Functor.map, EStateM.map, hx, hy]

/-- What comes after does not matter if it leaves the lock alone. -/
theorem atExit_bind {x : Locked α} {f : α → Locked β} (s : Bool)
    (hf : ∀ v t, atExit ((f v).run t) = t) : atExit ((x >>= f).run s) = atExit (x.run s) := by
  cases hx : x.run s with
  | ok v t => rw [run_bind_ok hx, hf, atExit]
  | error e t => rw [run_bind_error hx, atExit, atExit]

theorem atExit_perform (outcome : Except Raised α) (s : Bool) :
    atExit ((perform outcome).run s) = s := by
  cases outcome <;> rfl

theorem atExit_perform_pure (outcome : Except Raised α) (v : β) (s : Bool) :
    atExit ((do let _ ← perform outcome; pure v : Locked β).run s) = s :=
  (atExit_bind s fun _ _ => rfl).trans (atExit_perform outcome s)

end

theorem atExit_perform_releaseLock (work : Except Raised Unit) (region : Region) :
    atExit ((tryFinally (perform work) (releaseLock o region)).run true) = false ↔
      o.release region = .ok () := by
  cases h : o.release region with
  | ok v =>
      cases hwork : work with
      | ok v =>
          rw [run_tryFinally_ok (run_perform_ok rfl true) (run_releaseLock_ok h true)]
          exact iff_of_true rfl rfl
      | error e =>
          rw [run_tryFinally_error (run_perform_error rfl true) (run_releaseLock_ok h true)]
          exact iff_of_true rfl rfl
  | error e =>
      have hfinal : (releaseLock o region).run (atExit ((perform work).run true)) =
          .error e true := by
        rw [atExit_perform]
        exact run_releaseLock_error h true
      rw [run_tryFinally_finalizer_error hfinal]
      exact iff_of_false Bool.noConfusion nofun

theorem atExit_resolveLocked :
    atExit ((resolveLocked a o).run false) = false ↔
      (o.spinAcquire .postMerge = .ok () →
        postMergeLockAcquired a o = .ok () ∧ o.release .postMerge = .ok ()) := by
  cases hacquire : o.spinAcquire .postMerge with
  | error e =>
      rw [resolveLocked, run_bind_error (run_acquireLock_error hacquire false)]
      exact iff_of_true rfl nofun
  | ok v =>
      refine Iff.trans ?_ ⟨fun h _ => h, fun h => h rfl⟩
      rw [resolveLocked, run_bind_ok (run_acquireLock_ok hacquire false)]
      cases hcallback : postMergeLockAcquired a o with
      | error e =>
          rw [run_bind_error (run_perform_error rfl true)]
          exact iff_of_false Bool.noConfusion (fun h => nomatch h.1)
      | ok v =>
          rw [run_bind_ok (run_perform_ok rfl true), atExit_perform_releaseLock]
          exact (and_iff_right rfl).symm

theorem atExit_afterMerge :
    atExit ((afterMerge a o p).run false) = false ↔
      (a.withResolution ∨ a.withCommunity → o.canceled .beforeResolution = false →
        o.spinAcquire .postMerge = .ok () →
        postMergeLockAcquired a o = .ok () ∧ o.release .postMerge = .ok ()) := by
  by_cases hflags : a.withResolution ∨ a.withCommunity
  · have hskip : (!a.withResolution && !a.withCommunity) = false := by
      simpa [imp_iff_not_or] using hflags
    rw [afterMerge, hskip, if_neg Bool.false_ne_true]
    refine Iff.trans ?_ ⟨fun h _ => h, fun h => h hflags⟩
    cases hcanceled : o.canceled .beforeResolution with
    | true =>
        obtain ⟨e, he⟩ := checkCanceled_of_canceled (a := a) hcanceled
          "before resolution/community extraction"
        rw [run_bind_error (run_perform_error he false)]
        exact iff_of_true rfl nofun
    | false =>
        rw [run_bind_ok (run_perform_ok (checkCanceled_of_not hcanceled _) false),
          atExit_bind false fun _ t => atExit_perform_pure _ _ t, atExit_resolveLocked]
        exact ⟨fun h _ => h, fun h => h rfl⟩
  · have hskip : (!a.withResolution && !a.withCommunity) = true := by
      simpa [not_or] using hflags
    rw [afterMerge, hskip, if_pos rfl]
    exact iff_of_true (atExit_perform_pure _ _ false) fun h => absurd h hflags

theorem atExit_merged
    (hrun : (mergeLocked a o p).run false =
      (tryFinally (perform (mergeAll a o p)) (releaseLock o .merge)).run true) :
    atExit ((do mergeLocked a o p; afterMerge a o p : Locked BatchResult).run false) = false ↔
      o.release .merge = .ok () ∧
        (mergeAll a o p = .ok () → a.withResolution ∨ a.withCommunity →
          o.canceled .beforeResolution = false → o.spinAcquire .postMerge = .ok () →
          postMergeLockAcquired a o = .ok () ∧ o.release .postMerge = .ok ()) := by
  cases hrelease : o.release .merge with
  | error e =>
      have hfinal : (releaseLock o .merge).run (atExit ((perform (mergeAll a o p)).run true)) =
          .error e true := by
        rw [atExit_perform]
        exact run_releaseLock_error hrelease true
      rw [run_tryFinally_finalizer_error hfinal] at hrun
      rw [run_bind_error hrun]
      exact iff_of_false Bool.noConfusion fun h => nomatch h.1
  | ok _ =>
      refine Iff.trans ?_ (and_iff_right rfl).symm
      cases hmerge : mergeAll a o p with
      | error e =>
          rw [run_tryFinally_error (run_perform_error hmerge true)
            (run_releaseLock_ok hrelease true)] at hrun
          rw [run_bind_error hrun]
          exact iff_of_true rfl nofun
      | ok _ =>
          rw [run_tryFinally_ok (run_perform_ok hmerge true)
            (run_releaseLock_ok hrelease true)] at hrun
          rw [run_bind_ok hrun, atExit_afterMerge]
          exact ⟨fun h _ => h, fun h => h rfl⟩

theorem atExit_mergeAndResolve :
    atExit ((do mergeLocked a o p; afterMerge a o p : Locked BatchResult).run false) = false ↔
      (o.spinAcquire .merge = .ok () → ReleasesAfter a o p) := by
  cases hacquire : o.spinAcquire .merge with
  | error e =>
      have hrun : (mergeLocked a o p).run false = .error e false :=
        run_bind_error (run_acquireLock_error hacquire false)
      rw [run_bind_error hrun]
      exact iff_of_true rfl nofun
  | ok _ =>
      refine Iff.trans ?_ ⟨fun h _ => h, fun h => h rfl⟩
      have hacquired := run_acquireLock_ok hacquire false
      cases hcallback : mergeLockAcquired a o with
      | error e =>
          have hrun : (mergeLocked a o p).run false = .error e true := by
            rw [mergeLocked, run_bind_ok hacquired]
            exact run_bind_error (run_perform_error hcallback true)
          rw [run_bind_error hrun]
          exact iff_of_false Bool.noConfusion fun h => nomatch hcallback.symm.trans h.1.1
      | ok _ =>
          cases hcanceled : o.canceled .beforeMerging with
          | true =>
              obtain ⟨e, he⟩ := checkCanceled_of_canceled (a := a) hcanceled
                "before merging subgraphs"
              have hrun : (mergeLocked a o p).run false = .error e true := by
                rw [mergeLocked, run_bind_ok hacquired, run_bind_ok (run_perform_ok hcallback true)]
                exact run_bind_error (run_perform_error he true)
              rw [run_bind_error hrun]
              exact iff_of_false Bool.noConfusion fun h => nomatch hcanceled.symm.trans h.1.2.1
          | false =>
              have hrun : (mergeLocked a o p).run false =
                  (tryFinally (perform (mergeAll a o p)) (releaseLock o .merge)).run true := by
                rw [mergeLocked, run_bind_ok hacquired, run_bind_ok (run_perform_ok hcallback true),
                  run_bind_ok (run_perform_ok (checkCanceled_of_not hcanceled _) true)]
              rw [atExit_merged hrun]
              exact ⟨fun h => ⟨⟨hcallback, hcanceled, h.1⟩, h.2⟩, fun h => ⟨h.1.2.2, h.2⟩⟩

/-- The lock has been released at every exit exactly when nothing ends the call
between an acquisition and its try, and no release fails. -/
theorem releasesLock_iff (a : BatchArguments) (o : BatchOutcomes γ) :
    ReleasesLock a o ↔ ReleasesWhen a o := by
  unfold ReleasesLock ReleasesWhen runGraphragForKb
  cases hprepare : prepare a o with
  | error e =>
      rw [run_bind_error (run_perform_error rfl false)]
      exact iff_of_true rfl nofun
  | ok prepared =>
      rw [run_bind_ok (run_perform_ok rfl false)]
      cases prepared with
      | inl result => exact iff_of_true rfl nofun
      | inr p =>
          refine atExit_mergeAndResolve.trans ⟨fun h q hq => ?_, fun h => h p rfl⟩
          obtain rfl := Sum.inr.inj (Except.ok.inj hq)
          exact h

/-! ## A cancellation at the merge lock -/

def oneDoc : BatchArguments := ⟨"task", "kb", ["doc"], true, true⟩

/-- Every sub-step goes well, and the task is cancelled while it waits for the
first lock. -/
def canceledAtLock : BatchOutcomes Unit where
  docs := .ok []
  chunks _ := .ok ["chunk"]
  build := .ok ([("doc", ())], [])
  canceled check := check = .beforeMerging
  callback _ := .ok ()
  spinAcquire _ := .ok ()
  mergeSubgraph _ _ := .ok (some ())
  resolveEntities := .ok ()
  extractCommunity := .ok ()
  release _ := .ok ()
  seconds := "0.00"

theorem canceled_keeps_lock :
    ¬ ∀ (a : BatchArguments) (o : BatchOutcomes Unit), ReleasesLock a o := by
  intro hlaw
  have hheld : atExit ((runGraphragForKb oneDoc canceledAtLock).run false) = true := by
    decide +kernel
  exact Bool.false_ne_true ((hlaw oneDoc canceledAtLock).symm.trans hheld)

end RagflowMineru.GraphRag
