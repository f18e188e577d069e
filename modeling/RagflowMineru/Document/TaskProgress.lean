import RagflowMineru.Library.Processes
import Mathlib.Algebra.Order.Ring.Rat
import Mathlib.Data.List.Infix
import Mathlib.Data.List.Chain

/-!
# The progress of a task

`TaskService.update_progress` reads the row of the task, appends a message to the log
that it has read and writes the result under a lock; the condition on the progress is
part of its UPDATE.  Any number of calls on one task are interleaved.
-/

namespace RagflowMineru.Document

open RagflowMineru.Library

/-- The text after the first line break from which at most `maxLength` characters are
left. -/
def afterBreak (maxLength : ℕ) : List Char → Option (List Char)
  | [] => none
  | c :: rest =>
      if c = '\n' ∧ rest.length + 1 ≤ maxLength then some rest else afterBreak maxLength rest

def trimHeaderByLines (text : String) (maxLength : ℕ) : String :=
  if text.length ≤ maxLength then text
  else
    match afterBreak maxLength text.toList with
    | some rest => String.ofList rest
    | none => text

/-- The argument of a call. -/
structure ProgressInfo where
  progressMsg : Option String
  progress : Option ℚ

/-- The row, and who holds the lock.  `appended` are the messages that have been written
so far, and `before` the earlier values of the progress, the latest first. -/
structure ProgressRow (ι : Type*) where
  progressMsg : String
  progress : ℚ
  lock : Option ι
  appended : List String
  before : List ℚ

/-- What a call does next; once the row is fetched it has the log as it was then. -/
inductive UpdateStage
  | fetch
  | lock (progressMsg : String)
  | message (progressMsg : String)
  | progress
  | unlock
  | done
  deriving DecidableEq

variable {ι : Type*}

/-- `task.progress_msg + "\n" + info["progress_msg"]`. -/
def appendMessage (log message : String) : String := log ++ "\n" ++ message

def ProgressRow.writeMessage (row : ProgressRow ι) (log message : String) : ProgressRow ι :=
  { row with
    progressMsg := trimHeaderByLines (appendMessage log message) 3000
    appended := row.appended ++ [message] }

/-- The WHERE clause. -/
def Accepts (stored prog : ℚ) : Prop :=
  1 ≤ prog ∨ stored ≠ -1 ∧ (prog = -1 ∨ stored < prog)

instance (stored prog : ℚ) : Decidable (Accepts stored prog) :=
  inferInstanceAs (Decidable (_ ∨ _))

def ProgressRow.writeProgress (row : ProgressRow ι) (prog : ℚ) : ProgressRow ι :=
  if Accepts row.progress prog then
    { row with progress := prog, before := row.progress :: row.before }
  else row

/-- One step of the call `i`.  The input is false where an exception is raised: the row
cannot be read, the lock is refused, or an UPDATE fails. -/
def updateProgress (macos : Bool) (info : ι → ProgressInfo) (i : ι) (row : ProgressRow ι) :
    UpdateStage → Bool → Option (ProgressRow ι × UpdateStage)
  | .fetch, true => some (row, .lock row.progressMsg)
  | .fetch, false => some (row, .done)
  | .lock log, true =>
      if macos then some (row, .message log)
      else
        match row.lock with
        | none => some ({ row with lock := some i }, .message log)
        | some _ => none
  | .lock _, false => some (row, .done)
  | .message log, true =>
      match (info i).progressMsg with
      | none => some (row, .unlock)
      | some message =>
          if message = "" then some (row, .progress)
          else some (row.writeMessage log message, .progress)
  | .message _, false => some (row, .unlock)
  | .progress, true =>
      match (info i).progress with
      | none => some (row, .unlock)
      | some prog => some (row.writeProgress prog, .unlock)
  | .progress, false => some (row, .unlock)
  | .unlock, _ => some (if macos then row else { row with lock := none }, .done)
  | .done, _ => none

abbrev UpdateCalls (ι : Type*) := Processes ι (ProgressRow ι) UpdateStage

def UpdateCalls.start (log : String) (progress : ℚ) : UpdateCalls ι where
  shared := ⟨log, progress, none, [], []⟩
  own := fun _ => .fetch

/-! ## What is claimed -/

def lineCount (text : String) : ℕ := text.toList.count '\n' + 1

/-- The log with all messages that have been written. -/
def fullLog (first : String) (appended : List String) : String :=
  appended.foldl appendMessage first

/-- A value that may come after another. -/
def MayFollow (new old : ℚ) : Prop := (old ≤ new ∨ new = -1) ∧ (old = -1 → 1 ≤ new)

/-- No message is lost as long as all of them have at most 3000 lines, and the progress
has never gone back. -/
structure ProgressKept (first : String) (s : UpdateCalls ι) : Prop where
  messages : lineCount (fullLog first s.shared.appended) ≤ 3000 →
    ∀ m ∈ s.shared.appended, m.toList <:+: s.shared.progressMsg.toList
  progress : (s.shared.progress :: s.shared.before).IsChain MayFollow

/-- The condition on a step.  A message is written over the log that the call has read,
and the result has at most 3000 characters, or more lines than that; a progress of 1 or
more is not below the stored one. -/
def UpToDate (info : ι → ProgressInfo) (s : UpdateCalls ι) (move : ι × Bool) : Prop :=
  match s.own move.1, move.2 with
  | .message log, true =>
      ∀ message ∈ (info move.1).progressMsg, message ≠ "" →
        s.shared.progressMsg = log ∧
          ((appendMessage log message).length ≤ 3000 ∨
            3000 < lineCount (appendMessage log message))
  | .progress, true => ∀ prog ∈ (info move.1).progress, 1 ≤ prog → s.shared.progress ≤ prog
  | _, _ => True

instance (info : ι → ProgressInfo) (s : UpdateCalls ι) (move : ι × Bool) :
    Decidable (UpToDate info s move) := by
  unfold UpToDate
  split
  · cases (info move.1).progressMsg <;> infer_instance
  · cases (info move.1).progress <;> infer_instance
  · infer_instance

/-! ## The log -/

section

variable {log first m : String} {appended : List String}

theorem lineCount_appendMessage :
    lineCount (appendMessage log m) = lineCount log + lineCount m := by
  unfold lineCount appendMessage
  rw [String.toList_append, String.toList_append, List.count_append, List.count_append]
  change _ + 1 + _ + 1 = _
  omega

theorem trimHeaderByLines_of_le {text : String} {maxLength : ℕ} (hle : text.length ≤ maxLength) :
    trimHeaderByLines text maxLength = text := if_pos hle

theorem fullLog_concat :
    fullLog first (appended ++ [m]) = appendMessage (fullLog first appended) m :=
  List.foldl_append

/-- Every message is a piece of the full log. -/
theorem infix_fullLog (hm : m ∈ appended) : m.toList <:+: (fullLog first appended).toList := by
  induction appended using List.reverseRecOn with
  | nil => exact absurd hm List.not_mem_nil
  | append_singleton l last ih =>
      rw [fullLog_concat, appendMessage, String.toList_append]
      obtain hm | hm := List.mem_append.mp hm
      · rw [String.toList_append, List.append_assoc]
        exact (ih hm).trans (List.prefix_append _ _).isInfix
      · obtain rfl := List.mem_singleton.mp hm
        exact (List.suffix_append _ _).isInfix

end

/-! ## What a step does to the row -/

/-- The effect of a step of a call on the row. -/
inductive RowMove (info : ProgressInfo) (row : ProgressRow ι) (stage : UpdateStage) (go : Bool) :
    ProgressRow ι → Prop
  | stay (lock : Option ι) : RowMove info row stage go { row with lock := lock }
  | message {log m : String} (hstage : stage = .message log) (hgo : go = true)
      (hm : info.progressMsg = some m) (hne : m ≠ "") :
      RowMove info row stage go (row.writeMessage log m)
  | progress {prog : ℚ} (hstage : stage = .progress) (hgo : go = true)
      (hprog : info.progress = some prog) : RowMove info row stage go (row.writeProgress prog)

section

variable {macos : Bool} {info : ι → ProgressInfo} {i : ι} {row row' : ProgressRow ι}
  {stage stage' : UpdateStage} {go : Bool}

/-- Every step is one of the three moves. -/
theorem updateProgress_move
    (hact : updateProgress macos info i row stage go = some (row', stage')) :
    RowMove (info i) row stage go row' := by
  have stay {next : UpdateStage} (heq : some (row, next) = some (row', stage')) :
      RowMove (info i) row stage go row' := by
    obtain ⟨rfl, rfl⟩ := Prod.mk.inj (Option.some.inj heq)
    exact .stay row.lock
  cases stage with
  | fetch =>
      cases go <;> exact stay hact
  | lock log =>
      cases go with
      | false =>
          exact stay hact
      | true =>
          unfold updateProgress at hact
          split_ifs at hact
          · exact stay hact
          · cases hlock : row.lock with
            | none =>
                rw [hlock] at hact
                obtain ⟨rfl, rfl⟩ := Prod.mk.inj (Option.some.inj hact)
                exact .stay (some i)
            | some j =>
                rw [hlock] at hact
                cases hact
  | message log =>
      cases go with
      | false =>
          exact stay hact
      | true =>
          unfold updateProgress at hact
          cases hm : (info i).progressMsg with
          | none =>
              rw [hm] at hact
              exact stay hact
          | some m =>
              simp only [hm] at hact
              split_ifs at hact with hempty
              · exact stay hact
              · obtain ⟨rfl, rfl⟩ := Prod.mk.inj (Option.some.inj hact)
                exact .message rfl rfl hm hempty
  | progress =>
      cases go with
      | false =>
          exact stay hact
      | true =>
          unfold updateProgress at hact
          cases hprog : (info i).progress with
          | none =>
              rw [hprog] at hact
              exact stay hact
          | some prog =>
              rw [hprog] at hact
              obtain ⟨rfl, rfl⟩ := Prod.mk.inj (Option.some.inj hact)
              exact .progress rfl rfl hprog
  | unlock =>
      cases macos with
      | false =>
          obtain ⟨rfl, rfl⟩ := Prod.mk.inj (Option.some.inj hact)
          exact .stay none
      | true => exact stay hact
  | done => cases hact

/-- The log is the full log, as long as that is not too long, and the progress has not
gone back. -/
structure RowKept (first : String) (row : ProgressRow ι) : Prop where
  log : lineCount (fullLog first row.appended) ≤ 3000 →
    row.progressMsg = fullLog first row.appended
  progress : (row.progress :: row.before).IsChain MayFollow

theorem RowKept.writeMessage {first log m : String} (hrow : RowKept first row)
    (hcurrent : row.progressMsg = log)
    (hlength : (appendMessage log m).length ≤ 3000 ∨ 3000 < lineCount (appendMessage log m)) :
    RowKept first (row.writeMessage log m) := by
  refine ⟨fun hlines => ?_, hrow.progress⟩
  change lineCount (fullLog first (row.appended ++ [m])) ≤ 3000 at hlines
  change trimHeaderByLines (appendMessage log m) 3000 = fullLog first (row.appended ++ [m])
  rw [fullLog_concat] at hlines ⊢
  have hlog : log = fullLog first row.appended := by
    rw [← hcurrent]
    refine hrow.log ?_
    rw [lineCount_appendMessage] at hlines
    omega
  rw [← hlog] at hlines ⊢
  exact trimHeaderByLines_of_le (hlength.resolve_right (not_lt.mpr hlines))

theorem RowKept.writeProgress {first : String} {prog : ℚ} (hrow : RowKept first row)
    (hprog : 1 ≤ prog → row.progress ≤ prog) : RowKept first (row.writeProgress prog) := by
  unfold ProgressRow.writeProgress
  split_ifs with haccepts
  · refine ⟨hrow.log, List.isChain_cons_cons.mpr ⟨⟨?_, ?_⟩, hrow.progress⟩⟩
    · obtain hone | ⟨-, hfailed | hmore⟩ := haccepts
      · exact .inl (hprog hone)
      · exact .inr hfailed
      · exact .inl hmore.le
    · intro hminus
      exact haccepts.resolve_right fun h => h.1 hminus
  · exact hrow

end

/-- In a run in which every message is written over the log that was read, and within
the limit, no message is lost and the progress does not go back. -/
theorem progressKept_of_upToDate [DecidableEq ι] (macos : Bool) (info : ι → ProgressInfo)
    (first : String) (progress : ℚ) (s : UpdateCalls ι)
    (hs : Driven (Processes.step (updateProgress macos info)) (UpToDate info)
      (UpdateCalls.start first progress) s) : ProgressKept first s := by
  have hrow : RowKept first s.shared := by
    refine hs.invariant (I := fun s => RowKept first s.shared)
      ⟨fun _ => rfl, List.isChain_singleton _⟩ ?_
    rintro s ⟨i, go⟩ t hrow hcondition hstep
    have hact := (Processes.step_eq_some_iff.mp hstep).1
    generalize t.shared = row' at hact ⊢
    unfold UpToDate at hcondition
    cases updateProgress_move hact with
    | stay lock => exact ⟨hrow.log, hrow.progress⟩
    | message hstage hgo hm hne =>
        rw [hstage, hgo] at hcondition
        obtain ⟨hcurrent, hlength⟩ := hcondition _ hm hne
        exact hrow.writeMessage hcurrent hlength
    | progress hstage hgo hprog =>
        rw [hstage, hgo] at hcondition
        exact hrow.writeProgress (hcondition _ hprog)
  refine ⟨fun hlines m hm => ?_, hrow.progress⟩
  rw [hrow.log hlines]
  exact infix_fullLog hm

/-! ## Two calls -/

def twoMessages (i : Fin 2) : ProgressInfo :=
  if i = 0 then ⟨some "a", some (1 / 2)⟩ else ⟨some "b", some 1⟩

/-- The first call writes after the second has read. -/
def overlappingCalls : List (Fin 2 × Bool) :=
  [(0, true), (1, true), (0, true), (0, true), (0, true), (0, true), (1, true), (1, true)]

theorem first_message_lost :
    ¬ ∀ s : UpdateCalls (Fin 2),
      Driven (Processes.step (updateProgress false twoMessages)) (fun _ _ => True)
        (UpdateCalls.start "" 0) s → ProgressKept "" s := by
  have hrun : (drive (Processes.step (updateProgress false twoMessages)) overlappingCalls
      (UpdateCalls.start "" 0)).map (fun s => (s.shared.progressMsg, s.shared.appended)) =
      some ("\nb", ["a", "b"]) := by
    decide +kernel
  obtain ⟨s, hs, hlog⟩ := Driven.exists_of_map_drive hrun
  obtain ⟨hmsg, happended⟩ := Prod.mk.inj hlog
  intro hlaw
  have hkept := (hlaw s hs).messages
  rw [hmsg, happended] at hkept
  exact absurd (hkept (by decide +kernel) "a" (.head _)) (by decide +kernel)

/-- One call after the other. -/
def separateCalls : List (Fin 2 × Bool) :=
  [(0, true), (0, true), (0, true), (0, true), (0, true), (1, true), (1, true), (1, true),
    (1, true), (1, true)]

theorem separate_calls_kept :
    ∃ s, drive (Processes.step (updateProgress false twoMessages)) separateCalls
      (UpdateCalls.start "" 0) = some s ∧ ProgressKept "" s := by
  have hmeets : Meets (Processes.step (updateProgress false twoMessages))
      (UpToDate twoMessages) separateCalls (UpdateCalls.start "" 0) := by
    decide +kernel
  have hsome : (drive (Processes.step (updateProgress false twoMessages)) separateCalls
      (UpdateCalls.start "" 0)).isSome = true := by
    decide +kernel
  obtain ⟨s, hs, hrun⟩ := Driven.exists_of_meets hmeets hsome
  exact ⟨s, hs, progressKept_of_upToDate _ _ _ _ s hrun⟩

end RagflowMineru.Document
