import RagflowMineru.Library.Driven
import RagflowMineru.Library.Table
import Mathlib.Algebra.Order.Group.Int
import Mathlib.Data.Finset.Image

/-!
# The container pool of the sandbox

The containers of one language wait in a queue.  An execution takes a name out
before it has checked the container, and puts it back after it has checked it
again; between two awaits of one execution the others take any number of steps.
A name that is in nobody's hands is lost: nothing ever puts it back.
-/

namespace RagflowMineru.Sandbox

open RagflowMineru.Library

/-- Where an `execute_code` stands, from `allocate_container_blocking` to
`release_container`. -/
inductive Stage
  | allocating
  | awaitLock (name : String)
  | checking (name : String)
  | recreating (name : String)
  | executing (name : String)
  | cleanup (name : String)
  | awaitRelease (name : String)
  | releaseChecking (name : String)
  | releaseRecreating (name : String)
  deriving Inhabited

/-- The container an execution has its hands on. -/
def Stage.held : Stage → Option String
  | .allocating => none
  | .awaitLock name | .checking name | .recreating name | .executing name
  | .cleanup name | .awaitRelease name | .releaseChecking name
  | .releaseRecreating name => some name

/-- How the await of a stage ends.  `ok` is the time left to an allocation, a
running container, a recreation that worked; `mkdirs` tells whether
`os.makedirs` works right after an allocation. -/
structure Outcome where
  cancelled : Bool
  ok : Bool
  mkdirs : Bool

/-- The queue, the lock and the executions.  `preparing` are the containers
that `init_containers` is still creating, `pool` those it has put into the
queue. -/
structure Pool where
  preparing : Finset String
  queue : List String
  lock : Option ℕ
  execs : Table ℕ Stage
  pool : Finset String

inductive Input
  | prepared (name : String) (created : Bool)
  | request (pid : ℕ)
  | proceed (pid : ℕ) (o : Outcome)

inductive SupportLanguage
  | python
  | nodejs

def SupportLanguage.value : SupportLanguage → String
  | .python => "python"
  | .nodejs => "nodejs"

def containerName (language : SupportLanguage) (i : ℕ) : String :=
  "sandbox_" ++ language.value ++ "_" ++ toString i

/-- `init_containers` has emptied the queue of the language and starts on its
containers. -/
def Pool.init (language : SupportLanguage) (size : ℕ) : Pool where
  preparing := (Finset.range size).image (containerName language)
  queue := []
  lock := none
  execs := Table.empty
  pool := ∅

namespace Pool

def goto (s : Pool) (pid : ℕ) (st : Stage) : Pool :=
  { s with execs := s.execs.update pid fun _ => st }

def finish (s : Pool) (pid : ℕ) : Pool :=
  { s with execs := s.execs.delete pid }

def unlock (s : Pool) : Pool := { s with lock := none }

def put (s : Pool) (name : String) : Pool :=
  { s with queue := s.queue ++ [name] }

/-- `execute_code` goes on with its container; an exception of `os.makedirs`
is outside its `try`. -/
def enter (s : Pool) (pid : ℕ) (o : Outcome) (name : String) : Pool :=
  if o.mkdirs then s.goto pid (.executing name) else s.finish pid

/-- Take the lock, if it is free. -/
def acquire (s : Pool) (pid : ℕ) (st : Stage) : Option Pool :=
  if s.lock = none then some { s.goto pid st with lock := some pid } else none

/-- The next stage of an execution. -/
def advance (s : Pool) (pid : ℕ) (o : Outcome) : Stage → Option Pool
  | .allocating =>
      if o.cancelled ∨ ¬ o.ok then some (s.finish pid)
      else
        match s.queue with
        | [] => some s
        | name :: queue => some ({ s with queue }.goto pid (.awaitLock name))
  | .awaitLock name =>
      if o.cancelled then some (s.finish pid)
      else s.acquire pid (.checking name)
  | .checking name =>
      if o.cancelled then some (s.unlock.finish pid)
      else if o.ok then some (s.unlock.enter pid o name)
      else some (s.goto pid (.recreating name))
  | .recreating name =>
      if o.cancelled then some (s.unlock.finish pid)
      else if o.ok then some (s.unlock.enter pid o name)
      -- `continue`: back to the loop without the name
      else some (s.unlock.goto pid .allocating)
  | .executing name => some (s.goto pid (.cleanup name))
  | .cleanup name =>
      if o.cancelled then some (s.finish pid)
      else some (s.goto pid (.awaitRelease name))
  | .awaitRelease name =>
      if o.cancelled then some (s.finish pid)
      else s.acquire pid (.releaseChecking name)
  | .releaseChecking name =>
      if o.cancelled then some (s.unlock.finish pid)
      else if o.ok then some ((s.put name).unlock.finish pid)
      else some (s.goto pid (.releaseRecreating name))
  | .releaseRecreating name =>
      if o.cancelled ∨ ¬ o.ok then some (s.unlock.finish pid)
      else some ((s.put name).unlock.finish pid)

def step (s : Pool) : Input → Option Pool
  | .prepared name created =>
      if name ∈ s.preparing then
        let s := { s with preparing := s.preparing.erase name }
        if created then some { s.put name with pool := insert name s.pool }
        else some s
      else none
  | .request pid =>
      if pid ∈ s.execs.keys then none
      else some { s with execs := s.execs.insert pid .allocating }
  | .proceed pid o => (s.execs.get? pid).bind (s.advance pid o)

/-- The states of all runs. -/
abbrev Reached (language : SupportLanguage) (size : ℕ) (s : Pool) : Prop :=
  Driven step (fun _ _ => True) (init language size) s

/-! ## What is claimed -/

def Holds (s : Pool) (pid : ℕ) (name : String) : Prop :=
  ∃ st, s.execs.get? pid = some st ∧ st.held = some name

/-- No container is in two hands, or in the queue twice or while in a hand. -/
structure Exclusive (s : Pool) : Prop where
  one_holder : ∀ name pid pid',
    s.Holds pid name → s.Holds pid' name → pid = pid'
  not_queued : ∀ name pid, s.Holds pid name → name ∉ s.queue
  nodup : s.queue.Nodup

/-- Every container of the pool is in the queue or in exactly one hand. -/
def Conserved (s : Pool) : Prop :=
  ∀ name ∈ s.pool, name ∈ s.queue ∨ ∃! pid, s.Holds pid name

/-- An execution ends or starts over without giving its container back. -/
def loses (o : Outcome) : Stage → Bool
  | .allocating | .executing _ => false
  | .awaitLock _ | .cleanup _ | .awaitRelease _ | .releaseChecking _ =>
      o.cancelled
  | .checking _ => o.cancelled ∨ o.ok ∧ ¬ o.mkdirs
  | .recreating _ => o.cancelled ∨ ¬ o.ok ∨ ¬ o.mkdirs
  | .releaseRecreating _ => o.cancelled ∨ ¬ o.ok

/-- The condition on one step. -/
def Careful (s : Pool) : Input → Prop
  | .proceed pid o =>
      ∀ st, s.execs.get? pid = some st → loses o st = false
  | _ => True

/-! ## Custody -/

/-- How often a stage has its hands on `name`. -/
def holds (name : String) (st : Stage) : ℤ :=
  if st.held = some name then 1 else 0

/-- How often `name` is in the queue or in a hand. -/
def custody (s : Pool) (name : String) : ℤ :=
  s.queue.count name + s.execs.total (holds name)

variable {s : Pool} {pid : ℕ} {name : String}

theorem holds_nonneg (name : String) (st : Stage) : 0 ≤ holds name st := by
  rw [holds]
  split <;> simp

theorem custody_goto {st : Stage} (h : s.execs.get? pid = some st)
    (st' : Stage) (name : String) :
    (s.goto pid st').custody name =
      s.custody name - holds name st + holds name st' := by
  obtain ⟨hpid, rfl⟩ := Table.get?_eq_some_iff.mp h
  simp only [custody, goto, Table.total_update (holds name) hpid]
  omega

theorem custody_finish {st : Stage} (h : s.execs.get? pid = some st)
    (name : String) :
    (s.finish pid).custody name = s.custody name - holds name st := by
  obtain ⟨hpid, rfl⟩ := Table.get?_eq_some_iff.mp h
  simp only [custody, finish, Table.total_delete (holds name) hpid]
  omega

@[simp] theorem custody_unlock (s : Pool) (name : String) :
    s.unlock.custody name = s.custody name := rfl

theorem custody_put (s : Pool) (name name' : String) :
    (s.put name').custody name =
      s.custody name + if name' = name then 1 else 0 := by
  by_cases h : name' = name
  · simp [custody, put, h]
    omega
  · simp [custody, put, h]

theorem custody_enter {st : Stage} (h : s.execs.get? pid = some st)
    (o : Outcome) (name' name : String) :
    (s.enter pid o name').custody name =
      s.custody name - holds name st +
        if o.mkdirs ∧ name' = name then 1 else 0 := by
  rw [enter]
  by_cases hmkdirs : o.mkdirs
  · rw [if_pos hmkdirs, custody_goto h]
    simp [holds, Stage.held, hmkdirs]
  · rw [if_neg hmkdirs, custody_finish h]
    simp [hmkdirs]

theorem custody_acquire {st st' : Stage} {t : Pool}
    (h : s.execs.get? pid = some st) (hacquire : s.acquire pid st' = some t)
    (name : String) :
    t.custody name = s.custody name - holds name st + holds name st' := by
  rw [acquire] at hacquire
  split at hacquire
  · obtain rfl := Option.some.inj hacquire
    exact custody_goto h st' name
  · cases hacquire

/-- A stage hands its container on, or loses it. -/
theorem custody_advance {st : Stage} {o : Outcome} {t : Pool}
    (h : s.execs.get? pid = some st) (hstep : s.advance pid o st = some t)
    (name : String) :
    t.custody name =
      s.custody name - if loses o st then holds name st else 0 := by
  cases st with
  | allocating =>
      rw [advance] at hstep
      split at hstep
      · obtain rfl := Option.some.inj hstep
        simp [custody_finish h, loses, holds, Stage.held]
      · cases hqueue : s.queue with
        | nil =>
            rw [hqueue] at hstep
            obtain rfl := Option.some.inj hstep
            simp [loses]
        | cons head queue =>
            rw [hqueue] at hstep
            obtain rfl := Option.some.inj hstep
            rw [custody_goto (s := { s with queue }) h]
            by_cases hname : head = name
            · simp [custody, hqueue, hname, loses, holds, Stage.held]
              omega
            · simp [custody, hqueue, hname, loses, holds, Stage.held]
  | awaitLock name' =>
      rw [advance] at hstep
      split at hstep
      · rename_i hcancelled
        obtain rfl := Option.some.inj hstep
        simp [custody_finish h, loses, hcancelled]
      · rename_i hcancelled
        rw [custody_acquire h hstep]
        simp [loses, hcancelled, holds, Stage.held]
  | checking name' =>
      rw [advance] at hstep
      split at hstep
      · rename_i hcancelled
        obtain rfl := Option.some.inj hstep
        simp [custody_finish (s := s.unlock) h, loses, hcancelled]
      · rename_i hcancelled
        split at hstep
        · rename_i hok
          obtain rfl := Option.some.inj hstep
          rw [custody_enter (s := s.unlock) h]
          by_cases hmkdirs : o.mkdirs
          · simp [loses, hcancelled, hok, hmkdirs, holds, Stage.held]
          · simp [loses, hcancelled, hok, hmkdirs]
        · rename_i hok
          obtain rfl := Option.some.inj hstep
          simp [custody_goto h, loses, hcancelled, hok, holds, Stage.held]
  | recreating name' =>
      rw [advance] at hstep
      split at hstep
      · rename_i hcancelled
        obtain rfl := Option.some.inj hstep
        simp [custody_finish (s := s.unlock) h, loses, hcancelled]
      · rename_i hcancelled
        split at hstep
        · rename_i hok
          obtain rfl := Option.some.inj hstep
          rw [custody_enter (s := s.unlock) h]
          by_cases hmkdirs : o.mkdirs
          · simp [loses, hcancelled, hok, hmkdirs, holds, Stage.held]
          · simp [loses, hcancelled, hok, hmkdirs]
        · rename_i hok
          obtain rfl := Option.some.inj hstep
          rw [custody_goto (s := s.unlock) h]
          simp [loses, hcancelled, hok, holds, Stage.held]
  | executing name' =>
      obtain rfl := Option.some.inj hstep
      simp [custody_goto h, loses, holds, Stage.held]
  | cleanup name' =>
      rw [advance] at hstep
      split at hstep
      · rename_i hcancelled
        obtain rfl := Option.some.inj hstep
        simp [custody_finish h, loses, hcancelled]
      · rename_i hcancelled
        obtain rfl := Option.some.inj hstep
        simp [custody_goto h, loses, hcancelled, holds, Stage.held]
  | awaitRelease name' =>
      rw [advance] at hstep
      split at hstep
      · rename_i hcancelled
        obtain rfl := Option.some.inj hstep
        simp [custody_finish h, loses, hcancelled]
      · rename_i hcancelled
        rw [custody_acquire h hstep]
        simp [loses, hcancelled, holds, Stage.held]
  | releaseChecking name' =>
      rw [advance] at hstep
      split at hstep
      · rename_i hcancelled
        obtain rfl := Option.some.inj hstep
        simp [custody_finish (s := s.unlock) h, loses, hcancelled]
      · rename_i hcancelled
        split at hstep
        · obtain rfl := Option.some.inj hstep
          rw [custody_finish (s := (s.put name').unlock) h, custody_unlock,
            custody_put]
          simp [loses, hcancelled, holds, Stage.held]
        · obtain rfl := Option.some.inj hstep
          simp [custody_goto h, loses, hcancelled, holds, Stage.held]
  | releaseRecreating name' =>
      rw [advance] at hstep
      split at hstep
      · rename_i hlost
        obtain rfl := Option.some.inj hstep
        have hloses : loses o (.releaseRecreating name') = true := by
          simpa [loses] using hlost
        simp [custody_finish (s := s.unlock) h, hloses]
      · rename_i hkept
        obtain rfl := Option.some.inj hstep
        have hloses : loses o (.releaseRecreating name') = false := by
          simpa [loses] using hkept
        rw [custody_finish (s := (s.put name').unlock) h, custody_unlock,
          custody_put]
        simp [hloses, holds, Stage.held]

theorem advance_frame {st : Stage} {o : Outcome} {t : Pool}
    (hstep : s.advance pid o st = some t) :
    t.preparing = s.preparing ∧ t.pool = s.pool := by
  cases st <;>
    grind [advance, goto, finish, unlock, put, enter, acquire]

/-- No container is in custody twice, and only those of the pool are. -/
structure Safe (s : Pool) : Prop where
  le_one : ∀ name, s.custody name ≤ 1
  outside : ∀ name, name ∉ s.pool → s.custody name = 0
  apart : ∀ name ∈ s.preparing, name ∉ s.pool

theorem custody_nonneg (s : Pool) (name : String) : 0 ≤ s.custody name :=
  add_nonneg (Int.natCast_nonneg _) (Table.total_nonneg (holds_nonneg name))

theorem safe_init (language : SupportLanguage) (size : ℕ) :
    (init language size).Safe := by
  constructor <;> simp [init, custody]

/-- A prepared container enters custody for the first time. -/
theorem Safe.prepared (hs : s.Safe) {name' : String} (hname : name' ∈ s.preparing)
    (t : Pool)
    (hcustody : ∀ name, t.custody name =
      s.custody name + if name' = name then 1 else 0)
    (hpreparing : t.preparing = s.preparing.erase name')
    (hpool : t.pool = insert name' s.pool) : t.Safe := by
  have hnew : s.custody name' = 0 := hs.outside name' (hs.apart name' hname)
  constructor
  · intro name
    rw [hcustody]
    split
    · rename_i heq
      rw [← heq, hnew, zero_add]
    · rw [add_zero]
      exact hs.le_one name
  · intro name hout
    rw [hpool, Finset.mem_insert, not_or] at hout
    rw [hcustody, if_neg (Ne.symm hout.1), hs.outside name hout.2, add_zero]
  · intro name hmem
    rw [hpreparing] at hmem
    rw [hpool, Finset.mem_insert, not_or]
    exact ⟨Finset.ne_of_mem_erase hmem,
      hs.apart name (Finset.mem_of_mem_erase hmem)⟩

theorem Safe.of_le {t : Pool} (hs : s.Safe)
    (hcustody : ∀ name, t.custody name ≤ s.custody name)
    (hpreparing : t.preparing ⊆ s.preparing) (hpool : t.pool = s.pool) :
    t.Safe := by
  constructor
  · intro name
    exact (hcustody name).trans (hs.le_one name)
  · intro name hout
    rw [hpool] at hout
    apply le_antisymm _ (t.custody_nonneg name)
    rw [← hs.outside name hout]
    exact hcustody name
  · intro name hmem
    rw [hpool]
    exact hs.apart name (hpreparing hmem)

theorem custody_request (hpid : pid ∉ s.execs.keys) (name : String) :
    Pool.custody { s with execs := s.execs.insert pid .allocating } name =
      s.custody name := by
  simp [custody, Table.total_insert (holds name) hpid, holds, Stage.held]

theorem custody_proceed {o : Outcome} {t : Pool}
    (hstep : s.step (.proceed pid o) = some t) :
    ∃ st, s.execs.get? pid = some st ∧ t.preparing = s.preparing ∧
      t.pool = s.pool ∧
      ∀ name, t.custody name =
        s.custody name - if loses o st then holds name st else 0 := by
  obtain ⟨st, hst, hadvance⟩ := Option.bind_eq_some_iff.mp hstep
  obtain ⟨hpreparing, hpool⟩ := advance_frame hadvance
  exact ⟨st, hst, hpreparing, hpool, custody_advance hst hadvance⟩

theorem safe_step {i : Input} {t : Pool} (hs : s.Safe)
    (hstep : s.step i = some t) : t.Safe := by
  cases i with
  | prepared name' created =>
      rw [step] at hstep
      split at hstep
      · rename_i hname
        dsimp only at hstep
        split at hstep
        · obtain rfl := Option.some.inj hstep
          apply hs.prepared hname
          · intro name
            exact custody_put _ name name'
          · rfl
          · rfl
        · obtain rfl := Option.some.inj hstep
          exact hs.of_le (fun _ => le_rfl) (Finset.erase_subset _ _) rfl
      · cases hstep
  | request pid =>
      rw [step] at hstep
      split at hstep
      · cases hstep
      · rename_i hpid
        obtain rfl := Option.some.inj hstep
        refine hs.of_le ?_ (Finset.Subset.refl _) rfl
        intro name
        exact (custody_request hpid name).le
  | proceed pid o =>
      obtain ⟨st, -, hpreparing, hpool, hcustody⟩ := custody_proceed hstep
      refine hs.of_le ?_ hpreparing.subset hpool
      intro name
      rw [hcustody]
      have hnonneg := holds_nonneg name st
      split <;> omega

theorem Reached.safe {language : SupportLanguage} {size : ℕ} {s : Pool}
    (hs : Reached language size s) : s.Safe := by
  apply hs.invariant (I := Safe) (safe_init language size)
  intro s i t hs _ hstep
  exact safe_step hs hstep

/-! ## Custody and the claim -/

theorem holds_iff {pid : ℕ} {name : String} :
    s.Holds pid name ↔ pid ∈ s.execs.keys ∧ holds name (s.execs.row pid) = 1 := by
  simp only [Holds, Table.get?_eq_some_iff, holds]
  constructor
  · rintro ⟨st, ⟨hpid, rfl⟩, hheld⟩
    exact ⟨hpid, if_pos hheld⟩
  · rintro ⟨hpid, hone⟩
    refine ⟨_, ⟨hpid, rfl⟩, ?_⟩
    by_contra hnot
    rw [if_neg hnot] at hone
    cases hone

theorem Holds.le_total (h : s.Holds pid name) :
    1 ≤ s.execs.total (holds name) := by
  obtain ⟨hpid, hone⟩ := holds_iff.mp h
  rw [← hone]
  exact Table.row_le_total (holds_nonneg name) hpid

theorem count_pos_of_mem (h : name ∈ s.queue) :
    (1 : ℤ) ≤ s.queue.count name := by
  exact_mod_cast List.count_pos_iff.mpr h

theorem Safe.exclusive (hs : s.Safe) : s.Exclusive := by
  constructor
  · intro name pid pid' h h'
    by_contra hne
    obtain ⟨hpid, hone⟩ := holds_iff.mp h
    obtain ⟨hpid', hone'⟩ := holds_iff.mp h'
    have htwo := Table.row_add_row_le_total (holds_nonneg name) hpid hpid' hne
    have hle := hs.le_one name
    rw [custody] at hle
    omega
  · intro name pid h hqueue
    have hhand := h.le_total
    have hqueued := count_pos_of_mem hqueue
    have hle := hs.le_one name
    rw [custody] at hle
    omega
  · rw [List.nodup_iff_count_le_one]
    intro name
    have hle := hs.le_one name
    have hnonneg := Table.total_nonneg (t := s.execs) (holds_nonneg name)
    rw [custody] at hle
    omega

theorem Safe.custody_eq_one_iff (hs : s.Safe) :
    s.custody name = 1 ↔ name ∈ s.queue ∨ ∃! pid, s.Holds pid name := by
  have hle := hs.le_one name
  have hhands := Table.total_nonneg (t := s.execs) (holds_nonneg name)
  constructor
  · intro hone
    by_cases hqueue : name ∈ s.queue
    · exact Or.inl hqueue
    · right
      have htotal : s.execs.total (holds name) ≠ 0 := by
        rw [custody, List.count_eq_zero_of_not_mem hqueue] at hone
        omega
      obtain ⟨pid, hpid, hrow⟩ := Table.exists_row_of_total_ne_zero htotal
      have hholds : s.Holds pid name := by
        refine holds_iff.mpr ⟨hpid, ?_⟩
        rw [holds] at hrow ⊢
        split <;> simp_all
      exact ⟨pid, hholds, fun pid' h' =>
        hs.exclusive.one_holder name pid' pid h' hholds⟩
  · rw [custody] at hle ⊢
    rintro (hqueue | ⟨pid, hholds, -⟩)
    · have hqueued := count_pos_of_mem hqueue
      omega
    · have hhand := hholds.le_total
      omega

theorem Safe.conserved_iff (hs : s.Safe) :
    s.Conserved ↔ ∀ name ∈ s.pool, s.custody name = 1 := by
  simp only [Conserved, hs.custody_eq_one_iff]

/-! ## Careful runs -/

/-- What a step does to the custody of the containers of the pool. -/
theorem custody_step {i : Input} {t : Pool} (hs : s.Safe)
    (hstep : s.step i = some t) :
    s.pool ⊆ t.pool ∧ (∀ name ∈ s.pool, t.custody name ≤ s.custody name) ∧
      (s.Careful i → ∀ name ∈ s.pool, t.custody name = s.custody name) ∧
      ∀ name ∈ t.pool, name ∉ s.pool → t.custody name = 1 := by
  cases i with
  | prepared name' created =>
      rw [step] at hstep
      split at hstep
      · rename_i hname
        have hnew := hs.apart name' hname
        dsimp only at hstep
        split at hstep
        · obtain rfl := Option.some.inj hstep
          have hcustody := fun name => custody_put
            { s with preparing := s.preparing.erase name' } name name'
          have hsame : ∀ name ∈ s.pool, Pool.custody
              { Pool.put { s with preparing := s.preparing.erase name' } name'
                with pool := insert name' s.pool } name = s.custody name := by
            intro name hmem
            refine (hcustody name).trans ?_
            rw [if_neg (ne_of_mem_of_not_mem hmem hnew).symm, add_zero]
            rfl
          refine ⟨Finset.subset_insert _ _, fun name hmem => (hsame name hmem).le,
            fun _ => hsame, ?_⟩
          intro name hmem hout
          obtain rfl := (Finset.mem_insert.mp hmem).resolve_right hout
          refine (hcustody name).trans ?_
          rw [if_pos rfl]
          exact congrArg (· + 1) (hs.outside name hout)
        · obtain rfl := Option.some.inj hstep
          exact ⟨Finset.Subset.refl _, fun _ _ => le_rfl, fun _ _ _ => rfl,
            fun name hmem hout => absurd hmem hout⟩
      · cases hstep
  | request pid =>
      rw [step] at hstep
      split at hstep
      · cases hstep
      · rename_i hpid
        obtain rfl := Option.some.inj hstep
        exact ⟨Finset.Subset.refl _,
          fun name _ => (custody_request hpid name).le,
          fun _ name _ => custody_request hpid name,
          fun name hmem hout => absurd hmem hout⟩
  | proceed pid o =>
      obtain ⟨st, hst, -, hpool, hcustody⟩ := custody_proceed hstep
      refine ⟨hpool.symm.subset, ?_, ?_, fun name hmem hout =>
        absurd (hpool ▸ hmem) hout⟩
      · intro name _
        rw [hcustody]
        have hnonneg := holds_nonneg name st
        split <;> omega
      · intro hcareful name _
        rw [hcustody, if_neg (by simp [hcareful st hst]), sub_zero]

theorem careful_preserves {i : Input} {t : Pool} (hs : s.Safe)
    (hall : ∀ name ∈ s.pool, s.custody name = 1) (hcareful : s.Careful i)
    (hstep : s.step i = some t) : ∀ name ∈ t.pool, t.custody name = 1 := by
  obtain ⟨-, -, hsame, hnew⟩ := custody_step hs hstep
  intro name hmem
  by_cases hold : name ∈ s.pool
  · rw [hsame hcareful name hold, hall name hold]
  · exact hnew name hmem hold

theorem held_of_loses {o : Outcome} {st : Stage} (h : loses o st = true) :
    ∃ name, st.held = some name := by
  cases st <;> simp [loses, Stage.held] at h ⊢

/-- What is lost stays lost: a step into a state that has all containers was
careful, and had them all. -/
theorem careful_of_preserved {i : Input} {t : Pool} (hs : s.Safe)
    (hstep : s.step i = some t)
    (hall : ∀ name ∈ t.pool, t.custody name = 1) :
    (∀ name ∈ s.pool, s.custody name = 1) ∧ s.Careful i := by
  obtain ⟨hpool, hle, -, -⟩ := custody_step hs hstep
  constructor
  · intro name hmem
    have hone := hall name (hpool hmem)
    exact le_antisymm (hs.le_one name) (hone ▸ hle name hmem)
  · cases i with
    | prepared name' created => trivial
    | request pid => trivial
    | proceed pid o =>
        intro st hst
        by_contra hnot
        have hloses : loses o st = true := by simpa using hnot
        obtain ⟨name, hheld⟩ := held_of_loses hloses
        obtain ⟨st', hst', -, hpool', hcustody⟩ := custody_proceed hstep
        obtain rfl : st = st' := Option.some.inj (hst.symm.trans hst')
        have hmem : name ∈ s.pool := by
          by_contra hout
          have hhand := Holds.le_total ⟨st, hst, hheld⟩
          have hzero := hs.outside name hout
          rw [custody] at hzero
          omega
        have hone := hall name (hpool' ▸ hmem)
        have honce := hs.le_one name
        rw [hcustody, if_pos hloses, holds, if_pos hheld] at hone
        omega

/-- Mutual exclusion holds in every run; and a state has all its containers in
the queue or in one hand each exactly when every step on the way was careful. -/
theorem exclusive_and_conserved_iff (language : SupportLanguage) (size : ℕ)
    (s : Pool) (hs : Reached language size s) :
    s.Exclusive ∧ s.Conserved ↔
      Driven step Careful (init language size) s := by
  have hsafe := Reached.safe hs
  constructor
  · rintro ⟨-, hconserved⟩
    refine hs.of_final (I := fun s => ∀ name ∈ s.pool, s.custody name = 1) ?_
      (hsafe.conserved_iff.mp hconserved)
    intro s i t hs _ hstep hall
    exact careful_of_preserved (Reached.safe hs) hstep hall
  · intro hcareful
    refine ⟨hsafe.exclusive, hsafe.conserved_iff.mpr ?_⟩
    have hboth : s.Safe ∧ ∀ name ∈ s.pool, s.custody name = 1 := by
      apply hcareful.invariant
        (I := fun s => s.Safe ∧ ∀ name ∈ s.pool, s.custody name = 1)
      · exact ⟨safe_init language size, by simp [init]⟩
      · rintro s i t ⟨hs, hall⟩ hcareful hstep
        exact ⟨safe_step hs hstep, careful_preserves hs hall hcareful hstep⟩
    exact hboth.2

/-! ## A container that cannot be recreated -/

/-- One container, found crashed when it is allocated, and its recreation
fails. -/
def failedRecreation : List Input :=
  [.prepared "sandbox_python_0" true, .request 0,
    .proceed 0 ⟨false, true, true⟩, .proceed 0 ⟨false, true, true⟩,
    .proceed 0 ⟨false, false, true⟩, .proceed 0 ⟨false, false, true⟩]

/-- The name is in nobody's hands, and the pool is empty for good. -/
theorem crashed_container_lost :
    ¬ ∀ s, Reached .python 1 s → s.Exclusive ∧ s.Conserved := by
  have hrun : (drive step failedRecreation (init .python 1)).map
      (fun s => (s.pool, s.custody "sandbox_python_0")) =
        some ({"sandbox_python_0"}, 0) := by
    decide
  obtain ⟨s, hs, hs'⟩ := Driven.exists_of_map_drive hrun
  obtain ⟨hpool, hcustody⟩ : s.pool = {"sandbox_python_0"} ∧
      s.custody "sandbox_python_0" = 0 := by
    simpa using hs'
  have hreached : Reached .python 1 s := hs
  intro hlaw
  have hone := hreached.safe.conserved_iff.mp (hlaw s hreached).2
    "sandbox_python_0" (by simp [hpool])
  rw [hcustody] at hone
  cases hone

/-- The step to be blamed is on the way there. -/
theorem failedRecreation_iff :
    ∃ s, drive step failedRecreation (init .python 1) = some s ∧
      (s.Exclusive ∧ s.Conserved ↔
        Driven step Careful (init .python 1) s) := by
  have hsome : (drive step failedRecreation (init .python 1)).isSome = true := by
    decide
  obtain ⟨s, hs⟩ := Option.isSome_iff_exists.mp hsome
  exact ⟨s, hs,
    exclusive_and_conserved_iff .python 1 s (Driven.of_drive_eq hs)⟩

end Pool

end RagflowMineru.Sandbox
