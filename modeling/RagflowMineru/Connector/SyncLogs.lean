import RagflowMineru.Document.Counters
import RagflowMineru.Library.Watermark

/-!
# Synchronising a data source

A connector reads the documents of a source batch by batch into a knowledge base.  The log of a
synchronisation says from which time on the source is read; at its end the next one is
scheduled from the latest time that was seen.  The source changes, batches raise, the process
dies, and users resume, pause and rebuild; everything that the process and the services do is
a step.
-/

namespace RagflowMineru.Connector

open Library
open Document (TaskStatus)

variable {ι : Type*}

/-- What the source has of a document, by its `doc_updated_at`. -/
structure Version (ι : Type*) where
  doc : ι
  updatedAt : ℕ
  deriving DecidableEq

/-- A connector.  `poll_source` gives at least what is newer than the start of the range, and
`load_from_state` everything. -/
structure Poller (ι : Type*) where
  poll : List (Version ι) → Option ℕ → List (List (Version ι))
  complete : ∀ source start v, v ∈ source → Above start v.updatedAt →
    v ∈ (poll source start).flatten
  sound : ∀ source start v, v ∈ (poll source start).flatten → v ∈ source

/-- The connector gives its documents in the order of their times. -/
def Poller.ByTime (C : Poller ι) : Prop :=
  ∀ source start, InOrder Version.updatedAt (C.poll source start)

/-- A row of `SyncLogs`, of one connector and one knowledge base. -/
structure SyncLog where
  id : ℕ
  status : TaskStatus
  fromBeginning : Bool
  pollRangeStart : Option ℕ
  pollRangeEnd : Option ℕ
  newDocsIndexed : ℕ
  totalDocsIndexed : ℕ
  errorCount : ℕ

/-- Where a run stands: between two batches, behind `duplicate_and_parse` with the number of its
errors, or behind `SyncLogsService.done`. -/
inductive Work (ι : Type*)
  | drawing (rest : List (List (Version ι))) (nextUpdate : ℕ)
  | stored (docs : List (Version ι)) (errors : ℕ) (rest : List (List (Version ι)))
      (nextUpdate : ℕ)
  | finished (nextUpdate : ℕ)

structure Run (ι : Type*) where
  taskId : ℕ
  work : Work ι

/-- `logs` are the rows, the one that was written last first; `received` is what
`duplicate_and_parse` was called with, and `skipped` what was in a batch that raised. -/
structure State (ι : Type*) where
  source : List (Version ι)
  clock : ℕ
  connectorStatus : TaskStatus
  logs : List SyncLog
  nextId : ℕ
  run : Option (Run ι)
  received : List (Version ι)
  skipped : List (Version ι)

inductive Event (ι : Type*)
  | change (doc : ι) (time : ℕ)
  | remove (doc : ι)
  | dispatch (id : ℕ)
  | advance (outcome : Option ℕ)
  | raise
  | die
  | resume (on : Bool)
  | rebuild

/-- `update_by_id`; the row becomes the one that was written last. -/
def updateById (id : ℕ) (f : SyncLog → SyncLog) (logs : List SyncLog) : List SyncLog :=
  match logs.find? (·.id = id) with
  | some log => f log :: logs.filter (·.id ≠ id)
  | none => logs

def setStatus (status : TaskStatus) (log : SyncLog) : SyncLog := { log with status }

/-- `increase_docs` -/
def increaseDocs (maxUpdate docNum errors : ℕ) (log : SyncLog) : SyncLog :=
  { log with
    newDocsIndexed := log.newDocsIndexed + docNum
    totalDocsIndexed := log.totalDocsIndexed + docNum
    pollRangeStart := raiseMark log.pollRangeStart maxUpdate
    pollRangeEnd := raiseMark log.pollRangeEnd maxUpdate
    errorCount := log.errorCount + errors }

namespace State

/-- `SyncLogsService.schedule`; of more than 100 logs the oldest 70 are deleted. -/
def schedule (s : State ι) (pollRangeStart : Option ℕ) (reindex : Bool) (totalDocsIndexed : ℕ) :
    State ι :=
  let logs := if 100 < s.logs.length then s.logs.take (s.logs.length - 70) else s.logs
  if logs.any (·.status = .schedule) then { s with logs }
  else
    { s with
      logs := ⟨s.nextId, .schedule, reindex, pollRangeStart, none, 0, totalDocsIndexed, 0⟩ :: logs
      connectorStatus := .schedule
      nextId := s.nextId + 1 }

/-- `ConnectorService.resume`, which also pauses; without a log a pause raises. -/
def resume (s : State ι) (status : TaskStatus) : State ι :=
  match s.logs with
  | [] =>
      if status = .schedule then { s.schedule none false 0 with connectorStatus := status } else s
  | task :: _ =>
      if task.status = .done ∧ status = .schedule then
        { s.schedule task.pollRangeEnd false task.totalDocsIndexed with connectorStatus := status }
      else
        { s with
          logs := updateById task.id (setStatus status) s.logs
          connectorStatus := status }

/-- `link_connectors` of a connector that is new to the knowledge base. -/
def linked : State ι :=
  schedule ⟨[], 0, .schedule, [], 0, none, [], []⟩ none true 0

/-- `SyncLogsService.start`, and the generator of the source. -/
def dispatch (C : Poller ι) (s : State ι) (id : ℕ) : Option (State ι) :=
  match s.run, s.logs.find? (·.id = id) with
  | none, some task =>
      if task.status = .schedule ∧ s.connectorStatus = .schedule then
        let start := if task.fromBeginning then none else task.pollRangeStart
        some { s with
          logs := updateById id (setStatus .running) s.logs
          connectorStatus := .running
          run := some ⟨id, .drawing (C.poll s.source start) (task.pollRangeStart.getD 0)⟩ }
      else none
  | _, _ => none

/-- A step of `_run_task_logic`, or the `schedule` behind it.  What is done for a batch raises
where there is no outcome; the outcome of `duplicate_and_parse` is its number of errors. -/
def advance (s : State ι) (outcome : Option ℕ) : Option (State ι) :=
  s.run.map fun r =>
    match r.work with
    | .drawing [] nextUpdate =>
        { s with
          logs := updateById r.taskId (setStatus .done) s.logs
          connectorStatus := .done
          run := some ⟨r.taskId, .finished nextUpdate⟩ }
    | .drawing ([] :: rest) nextUpdate =>
        { s with run := some ⟨r.taskId, .drawing rest nextUpdate⟩ }
    | .drawing (docs :: rest) nextUpdate =>
        let nextUpdate := max nextUpdate (latest Version.updatedAt docs)
        match outcome with
        | some errors =>
            { s with
              received := docs ++ s.received
              run := some ⟨r.taskId, .stored docs errors rest nextUpdate⟩ }
        | none =>
            { s with
              skipped := docs ++ s.skipped
              run := some ⟨r.taskId, .drawing rest nextUpdate⟩ }
    | .stored docs errors rest nextUpdate =>
        { s with
          logs :=
            if outcome.isSome then
              updateById r.taskId
                (increaseDocs (latest Version.updatedAt docs) docs.length errors) s.logs
            else s.logs
          run := some ⟨r.taskId, .drawing rest nextUpdate⟩ }
    | .finished nextUpdate => { s.schedule (some nextUpdate) false 0 with run := none }

variable [DecidableEq ι]

def step (C : Poller ι) (s : State ι) : Event ι → Option (State ι)
  | .change doc time =>
      if s.clock ≤ time then
        some { s with
          source := ⟨doc, time⟩ :: s.source.filter (·.doc ≠ doc)
          clock := time }
      else none
  | .remove doc => some { s with source := s.source.filter (·.doc ≠ doc) }
  | .dispatch id => s.dispatch C id
  | .advance outcome => s.advance outcome
  | .raise =>
      match s.run with
      | some ⟨id, .drawing _ _⟩ =>
          some { s with logs := updateById id (setStatus .fail) s.logs, run := none }
      | _ => none
  | .die => some { s with run := none }
  | .resume on => some (s.resume (if on then .schedule else .cancel))
  | .rebuild =>
      some ({ s with logs := [], received := [], skipped := [] }.schedule none true 0)

end State

end RagflowMineru.Connector
