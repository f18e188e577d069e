import RagflowMineru.Document.TaskReuse
import RagflowMineru.Library.Driven
import RagflowMineru.Library.Table
import Mathlib.Algebra.Order.BigOperators.Group.Finset
import Mathlib.Algebra.Order.Group.Int
import Mathlib.Algebra.Order.Monoid.Prod
import Mathlib.Tactic.Abel

/-!
# The counters of a knowledge base

The knowledge base and each of its documents have a `chunk_num` and a
`token_num` of their own, written by separate statements.  An operation is in
flight from its first statement to its last; any number of them are, and the
system takes one statement of one of them at a time.
-/

namespace RagflowMineru.Document

open RagflowMineru.Library

/-- `chunk_num` and `token_num`. -/
abbrev Counters := ℤ × ℤ

inductive TaskStatus
  | unstart | running | cancel | done | fail | schedule
  deriving DecidableEq, Inhabited

structure Doc where
  run : TaskStatus
  counters : Counters
  /-- Whether `pipeline_id` is set. -/
  pipeline : Bool
  deriving Inhabited

structure Knowledgebase where
  docNum : ℤ
  counters : Counters

/-- The request of `run`; `delete` when it is given. -/
structure RunReq where
  run : TaskStatus
  delete : Option Bool

/-- What is left to do of an operation in flight, with what it has read.
`taken` is what `run` has already taken from the knowledge base and not yet from
the document. -/
inductive Proc
  | increaseDocNum
  | clearRead (delete : Option Bool) (id : String) (pipeline : Bool)
  | clearKb (delete : Option Bool) (id : String) (pipeline : Bool)
      (doc : Counters)
  | rerunUpdate (delete : Option Bool) (id : String) (pipeline : Bool)
      (taken : Counters)
  | statusUpdate (id : String) (run : TaskStatus)
  | queue (id : String) (pipeline : Bool) (taken : Counters)
  | begin2parse (id : String)
  | resetDoc (id : String) (pipeline : Bool) (doc : Counters)
  | incrementDoc (id : String) (n : Counters)
  | incrementKb (n : Counters)
  deriving Inhabited

structure State where
  docs : Table String Doc
  kb : Knowledgebase
  procs : Table ℕ Proc

def State.init : State := ⟨Table.empty, ⟨0, 0⟩, Table.empty⟩

/-- The tasks that `queue_tasks` makes up and those it reads back. -/
structure TaskRows where
  now : PageTask → String
  news : List PageTask
  prevs : List PrevTask

inductive Input
  | insert (pid : ℕ) (id : String) (pipeline : Bool)
  | run (pid : ℕ) (id : String) (req : RunReq) (hasUnfinishedTask : Bool)
  | queueTasks (pid : ℕ) (id : String)
  /-- A running task reports its chunks and tokens. -/
  | increment (pid : ℕ) (id : String) (chunks tokens : ℕ)
  /-- `accepted` when the request passes its checks against the document. -/
  | changeParser (pid : ℕ) (id : String) (pipeline accepted : Bool)
  | delete (id : String)
  /-- The progress of the tasks is brought over to the document. -/
  | sync (id : String) (run : TaskStatus)
  /-- The operation `pid` executes its next statement. -/
  | proceed (pid : ℕ) (tasks : TaskRows)

namespace State

/-- An operation starts. -/
def start (s : State) (pid : ℕ) (p : Proc) : Option State :=
  if pid ∈ s.procs.keys then none
  else some { s with procs := s.procs.insert pid p }

def goto (s : State) (pid : ℕ) (p : Proc) : State :=
  { s with procs := s.procs.update pid fun _ => p }

def finish (s : State) (pid : ℕ) : State :=
  { s with procs := s.procs.delete pid }

/-- `DocumentService.update_by_id`. -/
def updateDoc (s : State) (id : String) (f : Doc → Doc) : State :=
  { s with docs := s.docs.update id f }

def addToKb (s : State) (n : Counters) : State :=
  { s with kb := { s.kb with counters := s.kb.counters + n } }

/-- `ck_num`, the number of chunks that `queue_tasks` reuses. -/
def ckNum (tasks : TaskRows) : ℤ :=
  (Document.queueTasks tasks.now tasks.news tasks.prevs).chunkNum

/-- The next statement of an operation. -/
def advance (s : State) (pid : ℕ) (tasks : TaskRows) : Proc → State
  | .increaseDocNum =>
      { s with kb := { s.kb with docNum := s.kb.docNum + 1 } }.finish pid
  | .clearRead delete id pipeline =>
      match s.docs.get? id with
      | none => s.finish pid
      | some doc => s.goto pid (.clearKb delete id pipeline doc.counters)
  | .clearKb delete id pipeline doc =>
      (s.addToKb (-doc)).goto pid (.rerunUpdate delete id pipeline doc)
  | .rerunUpdate delete id pipeline taken =>
      -- the counters are zeroed only when `delete` is given and true
      if delete = some true then
        (s.updateDoc id fun doc =>
          { doc with run := .running, counters := 0 }).goto pid
            (.queue id pipeline 0)
      else
        (s.updateDoc id fun doc => { doc with run := .running }).goto pid
          (.queue id pipeline taken)
  | .statusUpdate id run =>
      (s.updateDoc id fun doc => { doc with run }).finish pid
  | .queue id pipeline _ =>
      -- `queue_dataflow` leaves the counters alone
      if pipeline then s.goto pid (.begin2parse id)
      else
        (s.updateDoc id fun doc =>
          { doc with counters := (ckNum tasks, doc.counters.2) }).goto pid
            (.begin2parse id)
  | .begin2parse id =>
      (s.updateDoc id fun doc => { doc with run := .running }).finish pid
  | .resetDoc id pipeline doc =>
      if id ∉ s.docs.keys then s.finish pid
      else
        let s := s.updateDoc id fun doc => { doc with run := .unstart, pipeline }
        if doc.2 > 0 then s.goto pid (.incrementDoc id (-doc))
        else s.finish pid
  | .incrementDoc id n =>
      (s.updateDoc id fun doc =>
        { doc with counters := doc.counters + n }).goto pid (.incrementKb n)
  | .incrementKb n => (s.addToKb n).finish pid

/-- A request that is refused ends where it began. -/
def step (s : State) : Input → Option State
  | .insert pid id pipeline =>
      if id ∈ s.docs.keys then none
      else
        { s with
          docs := s.docs.insert id ⟨.unstart, 0, pipeline⟩ }.start pid
            .increaseDocNum
  | .run pid id req hasUnfinishedTask =>
      match s.docs.get? id with
      | none => some s
      | some doc =>
          if req.run = .running then
            if req.delete ≠ some false ∧ doc.run = .done then
              s.start pid (.clearRead req.delete id doc.pipeline)
            else s.start pid (.rerunUpdate req.delete id doc.pipeline 0)
          else if req.run = .cancel ∧ doc.run ≠ .running ∧
              doc.run ≠ .cancel ∧ ¬ hasUnfinishedTask then some s
          else s.start pid (.statusUpdate id req.run)
  | .queueTasks pid id => s.start pid (.queue id false 0)
  | .increment pid id chunks tokens =>
      s.start pid (.incrementDoc id (chunks, tokens))
  | .changeParser pid id pipeline accepted =>
      match s.docs.get? id with
      | none => some s
      | some doc =>
          if accepted then s.start pid (.resetDoc id pipeline doc.counters)
          else some s
  | .delete id =>
      match s.docs.get? id with
      | none => some s
      | some doc =>
          some { s with
            docs := s.docs.delete id
            kb := ⟨s.kb.docNum - 1, s.kb.counters - doc.counters⟩ }
  | .sync id run => some (s.updateDoc id fun doc => { doc with run })
  | .proceed pid tasks => (s.procs.get? pid).map (s.advance pid tasks)

/-! ## What is in flight -/

end State

/-- By how much an operation has put the documents ahead of the knowledge
base. -/
def Proc.owed : Proc → Counters
  | .rerunUpdate _ _ _ taken => taken
  | .queue _ _ taken => taken
  | .incrementKb n => n
  | _ => 0

namespace State

/-- The documents, less the knowledge base, less what is in flight. -/
def drift (s : State) : Counters :=
  s.docs.total Doc.counters - s.kb.counters - s.procs.total Proc.owed

/-- The counters of a document; none where the row is gone. -/
def countersOf (s : State) (id : String) : Counters :=
  ((s.docs.get? id).map Doc.counters).getD 0

variable {s : State} {pid : ℕ} {id : String}

theorem countersOf_of_mem (h : id ∈ s.docs.keys) :
    s.countersOf id = (s.docs.row id).counters := by
  simp [countersOf, Table.get?, h]

theorem countersOf_of_notMem (h : id ∉ s.docs.keys) : s.countersOf id = 0 := by
  simp [countersOf, Table.get?, h]

theorem drift_start {t : State} {p : Proc} (h : s.start pid p = some t) :
    t.drift = s.drift - p.owed := by
  rw [start] at h
  split at h
  · cases h
  · rename_i hpid
    obtain rfl := Option.some.inj h
    simp only [drift, Table.total_insert Proc.owed hpid]
    abel

theorem drift_goto {q : Proc} (h : s.procs.get? pid = some q) (p : Proc) :
    (s.goto pid p).drift = s.drift + q.owed - p.owed := by
  obtain ⟨hpid, rfl⟩ := Table.get?_eq_some_iff.mp h
  simp only [drift, goto, Table.total_update Proc.owed hpid]
  abel

theorem drift_finish {q : Proc} (h : s.procs.get? pid = some q) :
    (s.finish pid).drift = s.drift + q.owed := by
  obtain ⟨hpid, rfl⟩ := Table.get?_eq_some_iff.mp h
  simp only [drift, finish, Table.total_delete Proc.owed hpid]
  abel

theorem drift_addToKb (n : Counters) : (s.addToKb n).drift = s.drift - n := by
  simp only [drift, addToKb]
  abel

theorem drift_updateDoc_of_mem (h : id ∈ s.docs.keys) (f : Doc → Doc) :
    (s.updateDoc id f).drift =
      s.drift - s.countersOf id + (f (s.docs.row id)).counters := by
  simp only [drift, updateDoc, Table.total_update Doc.counters h,
    countersOf_of_mem h]
  abel

/-- An update that leaves the counters alone, or finds no row. -/
theorem drift_updateDoc_of_eq {f : Doc → Doc}
    (h : id ∈ s.docs.keys → ∀ d, (f d).counters = d.counters) :
    (s.updateDoc id f).drift = s.drift := by
  by_cases hid : id ∈ s.docs.keys
  · simp only [drift, updateDoc, Table.total_update_of_eq Doc.counters id (h hid)]
  · simp only [updateDoc, Table.update_of_notMem hid]

/-! ## Balance -/

/-- The documents are ahead by what is in flight, and none is below zero. -/
structure Balanced (s : State) : Prop where
  drift : s.drift = 0
  nonneg : s.docs.All fun d => 0 ≤ d.counters

/-- What a statement needs to keep the balance. -/
def SteadyStatement (s : State) (tasks : TaskRows) : Proc → Prop
  | .rerunUpdate delete id _ taken =>
      delete = some true → s.countersOf id = taken
  | .queue id pipeline taken =>
      if pipeline ∨ id ∉ s.docs.keys then taken = 0
      else
        ((takenIds tasks.news [] tasks.prevs).length : ℤ) =
            (s.countersOf id).1 - taken.1 ∧
          taken.2 = 0
  | .incrementDoc id n => n = 0 ∨ id ∈ s.docs.keys ∧ 0 ≤ s.countersOf id + n
  | _ => True

/-- The condition on one step of the system. -/
def Steady (s : State) : Input → Prop
  | .proceed pid tasks =>
      ∀ p, s.procs.get? pid = some p → s.SteadyStatement tasks p
  | _ => True

instance (s : State) (tasks : TaskRows) :
    (p : Proc) → Decidable (s.SteadyStatement tasks p)
  | .rerunUpdate delete id _ taken =>
      inferInstanceAs (Decidable (delete = some true → s.countersOf id = taken))
  | .queue id pipeline taken =>
      inferInstanceAs (Decidable
        (if pipeline ∨ id ∉ s.docs.keys then taken = 0
        else
          ((takenIds tasks.news [] tasks.prevs).length : ℤ) =
              (s.countersOf id).1 - taken.1 ∧
            taken.2 = 0))
  | .incrementDoc id n =>
      inferInstanceAs
        (Decidable (n = 0 ∨ id ∈ s.docs.keys ∧ 0 ≤ s.countersOf id + n))
  | .increaseDocNum | .clearRead .. | .clearKb .. | .statusUpdate ..
  | .begin2parse .. | .resetDoc .. | .incrementKb .. => .isTrue trivial

instance (s : State) : (i : Input) → Decidable (s.Steady i)
  | .proceed pid tasks =>
      match h : s.procs.get? pid with
      | none => .isTrue fun p hp => by simp [h] at hp
      | some p =>
          decidable_of_iff (s.SteadyStatement tasks p) (by simp [Steady, h])
  | .insert .. | .run .. | .queueTasks .. | .increment .. | .changeParser ..
  | .delete .. | .sync .. => .isTrue trivial

theorem ckNum_eq (tasks : TaskRows) :
    ckNum tasks = (takenIds tasks.news [] tasks.prevs).length := by
  rw [ckNum, queueTasks_count, (queueTasks_kept_perm _ _ _).length_eq]

theorem Balanced.of_eq {t : State} (hs : s.Balanced)
    (hdrift : t.drift = s.drift) (hdocs : t.docs = s.docs) : t.Balanced :=
  ⟨hdrift.trans hs.drift, hdocs ▸ hs.nonneg⟩

/-- Documents are updated without touching their counters. -/
theorem Balanced.updateDoc (hs : s.Balanced) (id : String) {f : Doc → Doc}
    (hf : ∀ d, (f d).counters = d.counters) : (s.updateDoc id f).Balanced := by
  constructor
  · rw [drift_updateDoc_of_eq fun _ => hf, hs.drift]
  · refine (Table.all_update_iff hs.nonneg id f).mpr fun hid => ?_
    rw [hf]
    exact hs.nonneg id hid

/-- The next stage of an operation that owes as much as before. -/
theorem Balanced.goto (hs : s.Balanced) {q : Proc}
    (hq : s.procs.get? pid = some q) {p : Proc} (howed : p.owed = q.owed) :
    (s.goto pid p).Balanced := by
  refine hs.of_eq ?_ rfl
  rw [drift_goto hq, howed, add_sub_cancel_right]

theorem Balanced.finish (hs : s.Balanced) {q : Proc}
    (hq : s.procs.get? pid = some q) (howed : q.owed = 0) :
    (s.finish pid).Balanced := by
  refine hs.of_eq ?_ rfl
  rw [drift_finish hq, howed, add_zero]

/-- A statement that sets the counters of a document, and what is owed after
it. -/
theorem balanced_goto_updateDoc_iff (hs : s.Balanced) {q : Proc}
    (hq : s.procs.get? pid = some q) (p : Proc) {f : Doc → Doc}
    (hid : id ∈ s.docs.keys) :
    ((s.updateDoc id f).goto pid p).Balanced ↔
      (f (s.docs.row id)).counters - s.countersOf id = p.owed - q.owed ∧
        0 ≤ (f (s.docs.row id)).counters := by
  have hdrift : ((s.updateDoc id f).goto pid p).drift =
      (f (s.docs.row id)).counters - s.countersOf id + q.owed - p.owed := by
    rw [drift_goto (s := s.updateDoc id f) hq, drift_updateDoc_of_mem hid,
      hs.drift, zero_sub, neg_add_eq_sub]
  constructor
  · intro hbal
    have hzero := hbal.drift
    rw [hdrift, sub_eq_zero] at hzero
    exact ⟨eq_sub_of_add_eq hzero,
      (Table.all_update_iff hs.nonneg id f).mp hbal.nonneg hid⟩
  · rintro ⟨heq, hnonneg⟩
    constructor
    · rw [hdrift, heq]
      abel
    · exact (Table.all_update_iff hs.nonneg id f).mpr fun _ => hnonneg

/-- The same where the row is gone. -/
theorem balanced_goto_iff (hs : s.Balanced) {q : Proc}
    (hq : s.procs.get? pid = some q) (p : Proc) :
    (s.goto pid p).Balanced ↔ q.owed = p.owed := by
  constructor
  · intro hbal
    have hzero := hbal.drift
    rw [drift_goto hq, hs.drift, zero_add, sub_eq_zero] at hzero
    exact hzero
  · intro heq
    exact hs.goto hq heq.symm

theorem updateDoc_of_notMem (h : id ∉ s.docs.keys) (f : Doc → Doc) :
    s.updateDoc id f = s := by
  rw [updateDoc, Table.update_of_notMem h]

/-! ## One statement -/

theorem balanced_rerunUpdate_iff (hs : s.Balanced) (tasks : TaskRows)
    {delete : Option Bool} {pipeline : Bool} {taken : Counters}
    (hp : s.procs.get? pid = some (.rerunUpdate delete id pipeline taken)) :
    (s.advance pid tasks (.rerunUpdate delete id pipeline taken)).Balanced ↔
      (delete = some true → s.countersOf id = taken) := by
  rw [advance]
  by_cases hdelete : delete = some true
  · rw [if_pos hdelete]
    by_cases hid : id ∈ s.docs.keys
    · rw [balanced_goto_updateDoc_iff hs hp _ hid]
      simp [hdelete, Proc.owed]
    · rw [updateDoc_of_notMem hid, balanced_goto_iff hs hp,
        countersOf_of_notMem hid]
      simp [hdelete, Proc.owed, eq_comm]
  · rw [if_neg hdelete]
    have hsame := hs.updateDoc id
      (f := fun doc => { doc with run := .running }) fun _ => rfl
    have hbal := hsame.goto (p := .queue id pipeline taken) hp rfl
    exact ⟨fun _ h => absurd h hdelete, fun _ => hbal⟩

theorem balanced_queue_iff (hs : s.Balanced) (tasks : TaskRows)
    {pipeline : Bool} {taken : Counters}
    (hp : s.procs.get? pid = some (.queue id pipeline taken)) :
    (s.advance pid tasks (.queue id pipeline taken)).Balanced ↔
      s.SteadyStatement tasks (.queue id pipeline taken) := by
  rw [advance, SteadyStatement]
  by_cases hpipeline : pipeline
  · rw [if_pos hpipeline, balanced_goto_iff hs hp]
    simp [hpipeline, Proc.owed]
  · rw [if_neg hpipeline]
    by_cases hid : id ∈ s.docs.keys
    · have hcounters := countersOf_of_mem hid
      have hnonneg := hs.nonneg id hid
      rw [balanced_goto_updateDoc_iff hs hp _ hid, if_neg (by simp [hid, hpipeline]),
        hcounters, ckNum_eq]
      constructor
      · rintro ⟨heq, -⟩
        have hchunks := congrArg Prod.fst heq
        have htokens := congrArg Prod.snd heq
        simp only [Proc.owed, Prod.fst_sub, Prod.snd_sub, Prod.fst_zero,
          Prod.snd_zero] at hchunks htokens
        omega
      · rintro ⟨hchunks, htokens⟩
        constructor
        · ext
          · simp only [Proc.owed, Prod.fst_sub, Prod.fst_zero]
            omega
          · simp only [Proc.owed, Prod.snd_sub, Prod.snd_zero]
            omega
        · exact ⟨Int.natCast_nonneg _, hnonneg.2⟩
    · rw [updateDoc_of_notMem hid, balanced_goto_iff hs hp, if_pos (Or.inr hid)]
      simp [Proc.owed]

theorem balanced_incrementDoc_iff (hs : s.Balanced) (tasks : TaskRows)
    {n : Counters} (hp : s.procs.get? pid = some (.incrementDoc id n)) :
    (s.advance pid tasks (.incrementDoc id n)).Balanced ↔
      n = 0 ∨ id ∈ s.docs.keys ∧ 0 ≤ s.countersOf id + n := by
  rw [advance]
  by_cases hid : id ∈ s.docs.keys
  · rw [balanced_goto_updateDoc_iff hs hp _ hid, countersOf_of_mem hid]
    have hnonneg := hs.nonneg id hid
    constructor
    · rintro ⟨-, hsum⟩
      exact Or.inr ⟨hid, hsum⟩
    · intro h
      refine ⟨by simp [Proc.owed], ?_⟩
      obtain rfl | ⟨-, hsum⟩ := h
      · simpa using hnonneg
      · exact hsum
  · rw [updateDoc_of_notMem hid, balanced_goto_iff hs hp]
    simp [Proc.owed, hid, eq_comm]

theorem Balanced.resetDoc (hs : s.Balanced) (tasks : TaskRows)
    {pipeline : Bool} {doc : Counters}
    (hp : s.procs.get? pid = some (.resetDoc id pipeline doc)) :
    (s.advance pid tasks (.resetDoc id pipeline doc)).Balanced := by
  have hsame := hs.updateDoc id
    (f := fun doc => { doc with run := .unstart, pipeline }) fun _ => rfl
  rw [advance]
  split
  · exact hs.finish hp rfl
  · dsimp only
    split
    · exact hsame.goto hp rfl
    · exact hsame.finish hp rfl

theorem Balanced.clearKb (hs : s.Balanced) (tasks : TaskRows)
    {delete : Option Bool} {pipeline : Bool} {doc : Counters}
    (hp : s.procs.get? pid = some (.clearKb delete id pipeline doc)) :
    (s.advance pid tasks (.clearKb delete id pipeline doc)).Balanced := by
  refine hs.of_eq ?_ rfl
  rw [advance, drift_goto (s := s.addToKb (-doc)) hp, drift_addToKb]
  simp [Proc.owed]

theorem Balanced.incrementKb (hs : s.Balanced) (tasks : TaskRows)
    {n : Counters} (hp : s.procs.get? pid = some (.incrementKb n)) :
    (s.advance pid tasks (.incrementKb n)).Balanced := by
  refine hs.of_eq ?_ rfl
  rw [advance, drift_finish (s := s.addToKb n) hp, drift_addToKb]
  simp [Proc.owed]

theorem balanced_advance_iff (hs : s.Balanced) (tasks : TaskRows) {p : Proc}
    (hp : s.procs.get? pid = some p) :
    (s.advance pid tasks p).Balanced ↔ s.SteadyStatement tasks p := by
  cases p with
  | increaseDocNum =>
      have hsame : State.Balanced
          { s with kb := { s.kb with docNum := s.kb.docNum + 1 } } :=
        hs.of_eq rfl rfl
      exact iff_of_true (hsame.finish hp rfl) trivial
  | clearRead delete id pipeline =>
      refine iff_of_true ?_ trivial
      rw [advance]
      split
      · exact hs.finish hp rfl
      · exact hs.goto hp rfl
  | clearKb delete id pipeline doc =>
      exact iff_of_true (hs.clearKb tasks hp) trivial
  | rerunUpdate delete id pipeline taken =>
      exact balanced_rerunUpdate_iff hs tasks hp
  | statusUpdate id run =>
      have hsame := hs.updateDoc id (f := fun doc => { doc with run })
        fun _ => rfl
      exact iff_of_true (hsame.finish hp rfl) trivial
  | queue id pipeline taken => exact balanced_queue_iff hs tasks hp
  | begin2parse id =>
      have hsame := hs.updateDoc id
        (f := fun doc => { doc with run := .running }) fun _ => rfl
      exact iff_of_true (hsame.finish hp rfl) trivial
  | resetDoc id pipeline doc =>
      exact iff_of_true (hs.resetDoc tasks hp) trivial
  | incrementDoc id n => exact balanced_incrementDoc_iff hs tasks hp
  | incrementKb n => exact iff_of_true (hs.incrementKb tasks hp) trivial

/-! ## One step and whole runs -/

theorem Balanced.start (hs : s.Balanced) {t : State} {p : Proc}
    (hstart : s.start pid p = some t) (howed : p.owed = 0) : t.Balanced := by
  refine hs.of_eq ?_ ?_
  · rw [drift_start hstart, howed, sub_zero]
  · rw [State.start] at hstart
    split at hstart
    · cases hstart
    · obtain rfl := Option.some.inj hstart
      rfl

/-- A new document counts for nothing. -/
theorem Balanced.insertDoc (hs : s.Balanced) (hid : id ∉ s.docs.keys)
    (pipeline : Bool) :
    State.Balanced
      { s with docs := s.docs.insert id ⟨.unstart, 0, pipeline⟩ } := by
  constructor
  · have hdrift := hs.drift
    simp only [State.drift, Table.total_insert Doc.counters hid, add_zero]
      at hdrift ⊢
    exact hdrift
  · exact hs.nonneg.insert id le_rfl

/-- The row and its share of the knowledge base go together. -/
theorem Balanced.deleteDoc (hs : s.Balanced) {doc : Doc}
    (hdoc : s.docs.get? id = some doc) :
    State.Balanced
      { s with
        docs := s.docs.delete id
        kb := ⟨s.kb.docNum - 1, s.kb.counters - doc.counters⟩ } := by
  obtain ⟨hid, rfl⟩ := Table.get?_eq_some_iff.mp hdoc
  constructor
  · rw [← hs.drift]
    simp only [State.drift, Table.total_delete Doc.counters hid]
    abel
  · exact hs.nonneg.delete id

/-- A step keeps the balance exactly when it is steady. -/
theorem balanced_step_iff (hs : s.Balanced) {i : Input} {t : State}
    (hstep : s.step i = some t) : t.Balanced ↔ s.Steady i := by
  cases i with
  | insert pid id pipeline =>
      refine iff_of_true ?_ trivial
      rw [step] at hstep
      split at hstep
      · cases hstep
      · rename_i hid
        exact (hs.insertDoc hid pipeline).start hstep rfl
  | run pid id req hasUnfinishedTask =>
      refine iff_of_true ?_ trivial
      rw [step] at hstep
      split at hstep
      · obtain rfl := Option.some.inj hstep
        exact hs
      · split at hstep
        · split at hstep
          · exact hs.start hstep rfl
          · exact hs.start hstep rfl
        · split at hstep
          · obtain rfl := Option.some.inj hstep
            exact hs
          · exact hs.start hstep rfl
  | queueTasks pid id => exact iff_of_true (hs.start hstep rfl) trivial
  | increment pid id chunks tokens =>
      exact iff_of_true (hs.start hstep rfl) trivial
  | changeParser pid id pipeline accepted =>
      refine iff_of_true ?_ trivial
      rw [step] at hstep
      split at hstep
      · obtain rfl := Option.some.inj hstep
        exact hs
      · split at hstep
        · exact hs.start hstep rfl
        · obtain rfl := Option.some.inj hstep
          exact hs
  | delete id =>
      refine iff_of_true ?_ trivial
      rw [step] at hstep
      split at hstep
      · obtain rfl := Option.some.inj hstep
        exact hs
      · rename_i doc hdoc
        obtain rfl := Option.some.inj hstep
        exact hs.deleteDoc hdoc
  | sync id run =>
      refine iff_of_true ?_ trivial
      obtain rfl := Option.some.inj hstep
      exact hs.updateDoc id fun _ => rfl
  | proceed pid tasks =>
      obtain ⟨p, hp, rfl⟩ := Option.map_eq_some_iff.mp hstep
      rw [balanced_advance_iff hs tasks hp, Steady]
      constructor
      · intro hsteady p' hp'
        obtain rfl : p = p' := Option.some.inj (hp.symm.trans hp')
        exact hsteady
      · intro hsteady
        exact hsteady p hp

/-- No operation is between two of its statements. -/
def Quiet (s : State) : Prop := s.procs.keys = ∅

/-- What is claimed of a state: no counter of a document is negative, and
between operations the knowledge base has the sums of its documents. -/
structure CountersLaw (s : State) : Prop where
  docs_nonneg : s.docs.All fun d => 0 ≤ d.counters
  kb_eq : s.Quiet → s.kb.counters = s.docs.total Doc.counters
  kb_nonneg : s.Quiet → 0 ≤ s.kb.counters

theorem Balanced.countersLaw (hs : s.Balanced) : s.CountersLaw := by
  have hkb : s.Quiet → s.kb.counters = s.docs.total Doc.counters := by
    intro hquiet
    have hdrift := hs.drift
    rw [State.drift, Table.total.eq_1 Proc.owed, hquiet, Finset.sum_empty,
      sub_zero, sub_eq_zero] at hdrift
    exact hdrift.symm
  refine ⟨hs.nonneg, hkb, ?_⟩
  intro hquiet
  rw [hkb hquiet]
  exact Finset.sum_nonneg hs.nonneg

theorem balanced_init : State.init.Balanced := by
  constructor
  · simp [State.drift, State.init]
  · exact Table.all_empty _

/-- In a run whose steps are steady the law holds all along. -/
theorem countersLaw_of_steady {s : State}
    (hs : Driven State.step Steady State.init s) : s.CountersLaw := by
  have hbal : s.Balanced := by
    apply hs.invariant (I := Balanced) balanced_init
    intro s i t hs hsteady hstep
    exact (balanced_step_iff hs hstep).mpr hsteady
  exact hbal.countersLaw

/-! ## Two runs over one document -/

/-- One task for the whole document, and none before. -/
def firstTasks : TaskRows := ⟨fun _ => "12:00:00", [⟨0, 12, "d1"⟩], []⟩

/-- A document is added and parsed: its task counts three chunks with thirty
tokens. -/
def parsed : List Input :=
  [.insert 0 "d" false, .proceed 0 firstTasks,
    .run 1 "d" ⟨.running, none⟩ false, .proceed 1 firstTasks,
    .proceed 1 firstTasks, .proceed 1 firstTasks,
    .increment 2 "d" 3 30, .proceed 2 firstTasks, .proceed 2 firstTasks]

/-- Then another task fails, and the document is run again from scratch. -/
def failedThenRerun : List Input :=
  parsed ++
    [.sync "d" .fail, .run 3 "d" ⟨.running, some true⟩ false,
      .proceed 3 firstTasks, .proceed 3 firstTasks, .proceed 3 firstTasks]

/-- The document is zeroed, the knowledge base keeps the three chunks. -/
theorem rerun_of_failed_drifts :
    ¬ ∀ s, Driven State.step (fun _ _ => True) State.init s →
      s.CountersLaw := by
  have hrun : (drive State.step failedThenRerun State.init).map
      (fun s => (s.procs.keys, s.kb.counters, s.docs.total Doc.counters)) =
        some (∅, (3, 30), (0, 0)) := by
    decide
  obtain ⟨s, hs, hs'⟩ := Driven.exists_of_map_drive hrun
  obtain ⟨hquiet, hkb, htotal⟩ : s.procs.keys = ∅ ∧ s.kb.counters = (3, 30) ∧
      s.docs.total Doc.counters = (0, 0) := by
    simpa using hs'
  intro hlaw
  have heq := (hlaw s hs).kb_eq hquiet
  rw [hkb, htotal] at heq
  exact absurd heq (by decide)

/-- The steps before are steady. -/
theorem parsed_countersLaw :
    ∃ s, drive State.step parsed State.init = some s ∧ s.CountersLaw := by
  have hmeets : Meets State.step Steady parsed State.init := by
    decide
  have hsome : (drive State.step parsed State.init).isSome = true := by
    decide
  obtain ⟨s, hs, hrun⟩ := Driven.exists_of_meets hmeets hsome
  exact ⟨s, hs, countersLaw_of_steady hrun⟩

end State

end RagflowMineru.Document
