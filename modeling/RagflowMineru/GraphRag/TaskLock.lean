import RagflowMineru.Redis.IdGenerator

/-!
# The lock on the graph of a knowledge base

The tasks that change the graph of a knowledge base take a lock in Redis, whose
value is a token.  A task that acquires first deletes the key if it holds its own
token, and so does the release.  `run_graphrag` brings the document id as its
token and acquires anew for every part of its work; `run_graphrag_for_kb` brings
the same token for all knowledge bases and tasks.
-/

namespace RagflowMineru.GraphRag

open RagflowMineru.Library RagflowMineru.Redis

attribute [local instance] neZero_two

variable {ι : Type*}

/-- A call of `run_graphrag` or of `run_graphrag_for_kb`. -/
inductive GraphTask
  | document (docId : String) (withResolution withCommunity : Bool)
  | batch (withResolution withCommunity : Bool)

def GraphTask.lockValue : GraphTask → String
  | document docId _ _ => docId
  | batch _ _ => "batch_merge"

/-- The token of the task's `RedisDistributedLock`. -/
def token (uuid : ι → String) (tasks : ι → GraphTask) (i : ι) : String :=
  if (tasks i).lockValue = "" then uuid i else (tasks i).lockValue

/-- The parts of the work that begin with `spin_acquire`. -/
inductive Region
  | merge
  | resolution
  | community
  | postMerge
  deriving DecidableEq

/-- What a task does next.  `clear` and `wait` are the two commands of
`spin_acquire`, `acquired` is the callback that follows, and `unwind` is the
release of a task that was interrupted while it waited. -/
inductive Place
  | preparing
  | clear (region : Region)
  | wait (region : Region)
  | acquired (region : Region)
  | working (region : Region)
  | release (region : Region) (raised : Bool)
  | unwind
  | finished
  deriving DecidableEq

/-- Between `spin_acquire` and `release`. -/
def Place.Inside : Place → Prop
  | acquired _ | working _ | release _ _ => True
  | _ => False

instance : DecidablePred Place.Inside := fun p => by
  cases p <;> unfold Place.Inside <;> infer_instance

/-- The next command is `delete_if_equal`. -/
def Place.Deletes : Place → Prop
  | clear _ | release _ _ | unwind => True
  | _ => False

instance : DecidablePred Place.Deletes := fun p => by
  cases p <;> unfold Place.Deletes <;> infer_instance

/-- The key of the lock; `holder` is the task that acquired it and is still
inside, and `freed` tells whose lock each release has deleted. -/
@[ext]
structure Lock (ι : Type*) where
  value : Option String
  holder : Option ι
  freed : List (ι × ι)

variable [DecidableEq ι]

/-- The LUA_DELETE_IF_EQUAL script in `spin_acquire`. -/
def Lock.clear (lock : Lock ι) (token : String) : Lock ι :=
  if lock.value = some token then { lock with value := none } else lock

/-- The task is no longer inside, with the key as it is. -/
def Lock.leave (lock : Lock ι) (i : ι) : Lock ι :=
  if lock.holder = some i then { lock with holder := none } else lock

def Lock.release (lock : Lock ι) (i : ι) (token : String) : Lock ι :=
  if lock.value = some token then
    { value := none
      holder := if lock.holder = some i then none else lock.holder
      freed := lock.holder.toList.map (fun j => (i, j)) ++ lock.freed }
  else lock.leave i

/-- Where a task goes when a part of its work is done. -/
def GraphTask.next : GraphTask → Region → Place
  | document _ true _, .merge => .clear .resolution
  | document _ false true, .merge => .clear .community
  | document _ _ true, .resolution => .clear .community
  | _, region => .release region false

/-- An exception before the work of a part: only what comes after the first part of
`run_graphrag` is inside a try. -/
def GraphTask.Guarded : GraphTask → Region → Prop
  | document _ _ _, region => region ≠ .merge
  | batch _ _, _ => False

instance (task : GraphTask) (region : Region) : Decidable (task.Guarded region) := by
  cases task <;> unfold GraphTask.Guarded <;> infer_instance

/-- After a release `run_graphrag_for_kb` may acquire for a second time. -/
def GraphTask.afterRelease : GraphTask → Region → Bool → Place
  | batch withResolution withCommunity, .merge, false =>
      if withResolution ∨ withCommunity then .clear .postMerge else .finished
  | _, _, _ => .finished

/-- One step of task `i`.  The input tells whether the task goes on; otherwise it
returns early, is cancelled or raises. -/
def runTask (server : Implementation) (uuid : ι → String) (tasks : ι → GraphTask) (i : ι)
    (lock : Lock ι) : Place → Bool → Option (Lock ι × Place)
  | .preparing, goOn => some (lock, if goOn then .clear .merge else .finished)
  | .clear region, _ => some (lock.clear (token uuid tasks i), .wait region)
  | .wait region, true =>
      if lock.value = none then
        some ({ lock with value := some (token uuid tasks i), holder := some i }, .acquired region)
      else
        -- the Go server deletes again before it tries again
        some (lock, match server with | .python => .wait region | .go => .clear region)
  | .wait region, false =>
      some (lock, if (tasks i).Guarded region then .unwind else .finished)
  | .acquired region, true => some (lock, .working region)
  | .acquired region, false =>
      if (tasks i).Guarded region then some (lock, .release region true)
      else some (lock.leave i, .finished)
  | .working region, goOn =>
      match goOn, (tasks i).next region with
      | true, .clear region' => some (lock.leave i, .clear region')
      | _, _ => some (lock, .release region (!goOn))
  | .release region raised, goOn =>
      some (lock.release i (token uuid tasks i),
        if goOn then (tasks i).afterRelease region raised else .finished)
  | .unwind, _ => some (lock.release i (token uuid tasks i), .finished)
  | .finished, _ => none

/-- The lock and the tasks. -/
abbrev GraphTasks (ι : Type*) := Processes ι (Lock ι) Place

def GraphTasks.start : GraphTasks ι := ⟨⟨none, none, []⟩, fun _ => .preparing⟩

/-! ## What is claimed -/

/-- At most one task is inside, and no release has deleted another's lock. -/
structure Exclusive (s : GraphTasks ι) : Prop where
  at_most_one : ∀ i j, (s.own i).Inside → (s.own j).Inside → i = j
  own_lock : ∀ r ∈ s.shared.freed, r.1 = r.2

/-- The condition on a step: when a task deletes the key if it holds its own token,
no other task inside has that token too. -/
def OwnToken (uuid : ι → String) (tasks : ι → GraphTask) (s : GraphTasks ι) (move : ι × Bool) :
    Prop :=
  (s.own move.1).Deletes →
    ∀ j, j ≠ move.1 → (s.own j).Inside → token uuid tasks j ≠ token uuid tasks move.1

instance [Fintype ι] (uuid : ι → String) (tasks : ι → GraphTask) (s : GraphTasks ι)
    (move : ι × Bool) : Decidable (OwnToken uuid tasks s move) :=
  inferInstanceAs (Decidable (_ → _))

/-! ## What a step does to the lock -/

/-- The effect of a step of `i`, which has the token `t`, on the lock and on its
being inside. -/
inductive LockMove (i : ι) (t : String) (lock : Lock ι) (p : Place) : Lock ι → Place → Prop
  | stay {p' : Place} (hinside : p'.Inside ↔ p.Inside) : LockMove i t lock p lock p'
  | clear {p' : Place} (hdeletes : p.Deletes) (hout : ¬ p.Inside) (hout' : ¬ p'.Inside) :
      LockMove i t lock p (lock.clear t) p'
  | acquire {p' : Place} (hfree : lock.value = none) (hinside' : p'.Inside) :
      LockMove i t lock p { lock with value := some t, holder := some i } p'
  | leave {p' : Place} (hout' : ¬ p'.Inside) : LockMove i t lock p (lock.leave i) p'
  | release {p' : Place} (hdeletes : p.Deletes) (hout' : ¬ p'.Inside) :
      LockMove i t lock p (lock.release i t) p'

theorem GraphTask.next_cases (task : GraphTask) (region : Region) :
    (∃ region', task.next region = .clear region') ∨
      task.next region = .release region false := by
  unfold GraphTask.next
  split
  · exact .inl ⟨_, rfl⟩
  · exact .inl ⟨_, rfl⟩
  · exact .inl ⟨_, rfl⟩
  · exact .inr rfl

theorem GraphTask.not_inside_afterRelease (task : GraphTask) (region : Region) (raised : Bool) :
    ¬ (task.afterRelease region raised).Inside := by
  unfold GraphTask.afterRelease
  split
  · split_ifs <;> exact id
  · exact id

section

variable {server : Implementation} {uuid : ι → String} {tasks : ι → GraphTask} {i j : ι}
  {lock lock' : Lock ι} {p p' q : Place} {t u : String}

/-- Every step is one of the five moves. -/
theorem runTask_move {goOn : Bool}
    (hact : runTask server uuid tasks i lock p goOn = some (lock', p')) :
    LockMove i (token uuid tasks i) lock p lock' p' := by
  have stay {next : Place} (heq : some (lock, next) = some (lock', p'))
      (hinside : next.Inside ↔ p.Inside) : LockMove i (token uuid tasks i) lock p lock' p' := by
    obtain ⟨rfl, rfl⟩ := Prod.mk.inj (Option.some.inj heq)
    exact .stay hinside
  cases p with
  | preparing =>
      refine stay hact ?_
      cases goOn <;> exact Iff.rfl
  | clear region =>
      obtain ⟨rfl, rfl⟩ := Prod.mk.inj (Option.some.inj hact)
      exact .clear trivial id id
  | wait region =>
      cases goOn with
      | true =>
          by_cases hfree : lock.value = none
          · simp only [runTask, if_pos hfree] at hact
            obtain ⟨rfl, rfl⟩ := Prod.mk.inj (Option.some.inj hact)
            exact .acquire hfree trivial
          · simp only [runTask, if_neg hfree] at hact
            refine stay hact ?_
            cases server <;> exact Iff.rfl
      | false =>
          refine stay hact ?_
          split_ifs <;> exact Iff.rfl
  | acquired region =>
      cases goOn with
      | true => exact stay hact Iff.rfl
      | false =>
          by_cases hguarded : (tasks i).Guarded region
          · simp only [runTask, if_pos hguarded] at hact
            exact stay hact Iff.rfl
          · simp only [runTask, if_neg hguarded] at hact
            obtain ⟨rfl, rfl⟩ := Prod.mk.inj (Option.some.inj hact)
            exact .leave id
  | working region =>
      obtain ⟨region', hnext⟩ | hnext := (tasks i).next_cases region
      · cases goOn with
        | true =>
            simp only [runTask, hnext] at hact
            obtain ⟨rfl, rfl⟩ := Prod.mk.inj (Option.some.inj hact)
            exact .leave id
        | false =>
            simp only [runTask] at hact
            exact stay hact Iff.rfl
      · simp only [runTask, hnext] at hact
        exact stay hact Iff.rfl
  | release region raised =>
      obtain ⟨rfl, rfl⟩ := Prod.mk.inj (Option.some.inj hact)
      refine .release trivial ?_
      split_ifs
      · exact (tasks i).not_inside_afterRelease region raised
      · exact id
  | unwind =>
      obtain ⟨rfl, rfl⟩ := Prod.mk.inj (Option.some.inj hact)
      exact .release trivial id
  | finished => cases hact

/-- What task `i` with token `t` knows: it is inside exactly when it holds the lock,
and then the key has its token. -/
structure Held (i : ι) (t : String) (lock : Lock ι) (p : Place) : Prop where
  inside_iff : p.Inside ↔ lock.holder = some i
  value : lock.holder = some i → lock.value = some t

omit [DecidableEq ι] in
theorem Held.of_not (hout : ¬ p.Inside) (hholder : lock.holder ≠ some i) : Held i t lock p :=
  ⟨iff_of_false hout hholder, fun h => absurd h hholder⟩

theorem Lock.holder_leave (lock : Lock ι) (i : ι) : (lock.leave i).holder ≠ some i := by
  unfold Lock.leave
  split_ifs with h
  · exact nofun
  · exact h

theorem Lock.holder_release (lock : Lock ι) (i : ι) (t : String) :
    (lock.release i t).holder ≠ some i := by
  unfold Lock.release
  split_ifs with hvalue hholder
  · exact nofun
  · exact hholder
  · exact lock.holder_leave i

/-- The task that moves knows again. -/
theorem LockMove.own (hmove : LockMove i t lock p lock' p') (hheld : Held i t lock p) :
    Held i t lock' p' := by
  cases hmove with
  | stay hinside => exact ⟨hinside.trans hheld.inside_iff, hheld.value⟩
  | clear _ hout hout' =>
      refine .of_not hout' ?_
      have hholder := mt hheld.inside_iff.mpr hout
      unfold Lock.clear
      split_ifs <;> exact hholder
  | acquire _ hinside' => exact ⟨iff_of_true hinside' rfl, fun _ => rfl⟩
  | leave hout' => exact .of_not hout' (lock.holder_leave i)
  | release _ hout' => exact .of_not hout' (lock.holder_release i t)

theorem Held.leave (hheld : Held j u lock q) (hj : j ≠ i) : Held j u (lock.leave i) q := by
  unfold Lock.leave
  split_ifs with hholder
  · refine .of_not (mt hheld.inside_iff.mp ?_) nofun
    rw [hholder]
    exact fun h => hj (Option.some.inj h).symm
  · exact hheld

/-- The others still know, if the task deletes no token of theirs. -/
theorem LockMove.other (hmove : LockMove i t lock p lock' p') (hj : j ≠ i)
    (htoken : p.Deletes → q.Inside → u ≠ t) (hheld : Held j u lock q) : Held j u lock' q := by
  cases hmove with
  | stay _ => exact hheld
  | clear hdeletes _ _ =>
      unfold Lock.clear
      split_ifs with hvalue
      · refine ⟨hheld.inside_iff, fun hholder => ?_⟩
        have hu := (hheld.value hholder).symm.trans hvalue
        exact absurd (Option.some.inj hu) (htoken hdeletes (hheld.inside_iff.mpr hholder))
      · exact hheld
  | acquire hfree _ =>
      have hout : ¬ q.Inside := by
        intro hinside
        have hvalue := hheld.value (hheld.inside_iff.mp hinside)
        rw [hfree] at hvalue
        cases hvalue
      exact .of_not hout fun h => hj (Option.some.inj h).symm
  | leave _ => exact hheld.leave hj
  | release hdeletes _ =>
      unfold Lock.release
      by_cases hvalue : lock.value = some t
      · rw [if_pos hvalue]
        have hout : ¬ q.Inside := by
          intro hinside
          have hu := (hheld.value (hheld.inside_iff.mp hinside)).symm.trans hvalue
          exact htoken hdeletes hinside (Option.some.inj hu)
        refine .of_not hout ?_
        have hholder := mt hheld.inside_iff.mpr hout
        by_cases hi : lock.holder = some i
        · simp [hi]
        · simpa [hi] using hholder
      · rw [if_neg hvalue]
        exact hheld.leave hj

/-- A release deletes the lock of nobody else. -/
theorem LockMove.own_lock {tokens : ι → String} {places : ι → Place}
    (hmove : LockMove i (tokens i) lock p lock' p')
    (htoken : p.Deletes → ∀ j, j ≠ i → (places j).Inside → tokens j ≠ tokens i)
    (hheld : ∀ j, Held j (tokens j) lock (places j)) (hfreed : ∀ r ∈ lock.freed, r.1 = r.2) :
    ∀ r ∈ lock'.freed, r.1 = r.2 := by
  cases hmove with
  | stay _ => exact hfreed
  | clear _ _ _ =>
      unfold Lock.clear
      split_ifs <;> exact hfreed
  | acquire _ _ => exact hfreed
  | leave _ =>
      unfold Lock.leave
      split_ifs <;> exact hfreed
  | release hdeletes _ =>
      unfold Lock.release
      by_cases hvalue : lock.value = some (tokens i)
      · rw [if_pos hvalue]
        intro r hr
        obtain hr | hr := List.mem_append.mp hr
        · obtain ⟨k, hk, rfl⟩ := List.mem_map.mp hr
          have hholder : lock.holder = some k := Option.mem_toList.mp hk
          by_contra hne
          have hu := ((hheld k).value hholder).symm.trans hvalue
          exact htoken hdeletes k (Ne.symm hne) ((hheld k).inside_iff.mpr hholder)
            (Option.some.inj hu)
        · exact hfreed r hr
      · rw [if_neg hvalue]
        unfold Lock.leave
        split_ifs <;> exact hfreed

end

/-- Who is inside, and what the key holds, in a run that meets the condition. -/
theorem held_of_ownToken {server : Implementation} {uuid : ι → String} {tasks : ι → GraphTask}
    {s : GraphTasks ι}
    (hs : Driven (Processes.step (runTask server uuid tasks)) (OwnToken uuid tasks)
      GraphTasks.start s) :
    (∀ r ∈ s.shared.freed, r.1 = r.2) ∧
      ∀ i, Held i (token uuid tasks i) s.shared (s.own i) := by
  refine Processes.invariant (J := fun lock => ∀ r ∈ lock.freed, r.1 = r.2)
    (L := fun i => Held i (token uuid tasks i)) ⟨?_, fun i => .of_not id ?_⟩ ?_ hs
  · exact fun r hr => absurd hr List.not_mem_nil
  · exact (Option.some_ne_none i).symm
  intro s i goOn lock p hfreed hheld htoken hact
  have hmove := runTask_move hact
  refine ⟨hmove.own_lock htoken hheld hfreed, hmove.own (hheld i), fun j hj => ?_⟩
  exact hmove.other hj (fun hdeletes => htoken hdeletes j hj) (hheld j)

/-- In a run in which no task deletes the key while another one inside has the same
token, at most one task is inside at any time and every release deletes its own
lock. -/
theorem exclusive_of_ownToken (server : Implementation) (uuid : ι → String)
    (tasks : ι → GraphTask) (s : GraphTasks ι)
    (hs : Driven (Processes.step (runTask server uuid tasks)) (OwnToken uuid tasks)
      GraphTasks.start s) : Exclusive s where
  at_most_one i j hi hj := by
    have hheld := (held_of_ownToken hs).2
    have hholder := ((hheld i).inside_iff.mp hi).symm.trans ((hheld j).inside_iff.mp hj)
    exact Option.some.inj hholder
  own_lock := (held_of_ownToken hs).1

/-- The condition cannot be given up: where it first fails, the run can go on to a
state that is not exclusive. -/
theorem exists_not_exclusive {server : Implementation} {uuid : ι → String}
    {tasks : ι → GraphTask} {s : GraphTasks ι} {i : ι} {goOn : Bool}
    (hs : Driven (Processes.step (runTask server uuid tasks)) (OwnToken uuid tasks)
      GraphTasks.start s)
    (hfails : ¬ OwnToken uuid tasks s (i, goOn)) :
    ∃ t, Driven (Processes.step (runTask server uuid tasks)) (fun _ _ => True)
      GraphTasks.start t ∧ ¬ Exclusive t := by
  have hheld := (held_of_ownToken hs).2
  have hrun := hs.mono fun _ _ _ => trivial
  unfold OwnToken at hfails
  push Not at hfails
  obtain ⟨hdeletes, j, hj, hinside, htoken⟩ := hfails
  have hholder := (hheld j).inside_iff.mp hinside
  have hvalue : s.shared.value = some (token uuid tasks i) := by
    rw [← htoken]
    exact (hheld j).value hholder
  have hrelease (hact : runTask server uuid tasks i s.shared (s.own i) false =
      some (s.shared.release i (token uuid tasks i), .finished)) :
      ∃ t, Driven (Processes.step (runTask server uuid tasks)) (fun _ _ => True)
        GraphTasks.start t ∧ ¬ Exclusive t := by
    obtain ⟨t, hstep, hshared, -, -⟩ := Processes.exists_step_of_act hact
    refine ⟨t, hrun.next trivial hstep, fun hexclusive => hj ?_⟩
    refine (hexclusive.own_lock (i, j) ?_).symm
    rw [hshared]
    simp [Lock.release, hvalue, hholder]
  cases hp : s.own i with
  | clear region =>
      -- the key is deleted under the other task, and taken
      have hclear : runTask server uuid tasks i s.shared (s.own i) true =
          some ({ s.shared with value := none }, .wait region) := by
        simp [runTask, hp, Lock.clear, hvalue]
      obtain ⟨t, hstep, hshared, hown, hothers⟩ := Processes.exists_step_of_act hclear
      have hacquire : runTask server uuid tasks i t.shared (t.own i) true =
          some ({ t.shared with value := some (token uuid tasks i), holder := some i },
            .acquired region) := by
        simp [runTask, hown, hshared]
      obtain ⟨u, hstep', -, hown', hothers'⟩ := Processes.exists_step_of_act hacquire
      refine ⟨u, (hrun.next trivial hstep).next trivial hstep', fun hexclusive => ?_⟩
      refine hj (hexclusive.at_most_one j i ?_ ?_)
      · rw [hothers' j hj, hothers j hj]
        exact hinside
      · rw [hown']
        trivial
  | release region raised => exact hrelease (by simp [runTask, hp])
  | unwind => exact hrelease (by simp [runTask, hp])
  | preparing | wait _ | acquired _ | working _ | finished =>
      rw [hp] at hdeletes
      exact hdeletes.elim

/-! ## Two batches on one knowledge base -/

def twoBatches (_ : Fin 2) : GraphTask := .batch true true

def noUuid (_ : Fin 2) : String := "uuid"

/-- The first batch is at work when the second acquires. -/
def batchMoves : List (Fin 2 × Bool) :=
  [(0, true), (0, true), (0, true), (1, true), (1, true), (1, true)]

theorem both_batches_inside :
    ¬ ∀ s : GraphTasks (Fin 2),
      Driven (Processes.step (runTask .python noUuid twoBatches)) (fun _ _ => True)
        GraphTasks.start s → Exclusive s := by
  have hrun : (drive (Processes.step (runTask .python noUuid twoBatches)) batchMoves
      GraphTasks.start).map (fun s => (s.own 0, s.own 1)) =
      some (.acquired .merge, .acquired .merge) := by
    decide
  obtain ⟨s, hs, hplaces⟩ := Driven.exists_of_map_drive hrun
  obtain ⟨hzero, hone⟩ := Prod.mk.inj hplaces
  intro hlaw
  have hsame := (hlaw s hs).at_most_one 0 1 (by rw [hzero]; trivial)
    (by rw [hone]; trivial)
  exact absurd hsame (by decide)

/-- A document and a batch, whose tokens differ; the batch has to wait. -/
def documentAndBatch (i : Fin 2) : GraphTask :=
  if i = 0 then .document "doc" true false else .batch true true

def waitingMoves : List (Fin 2 × Bool) :=
  [(0, true), (0, true), (0, true), (1, true), (1, true), (1, true), (0, true), (0, true),
    (0, true), (1, true), (0, false), (0, true), (1, true)]

theorem document_and_batch_exclusive :
    ∃ s, drive (Processes.step (runTask .python noUuid documentAndBatch)) waitingMoves
      GraphTasks.start = some s ∧ Exclusive s := by
  have hmeets : Meets (Processes.step (runTask .python noUuid documentAndBatch))
      (OwnToken noUuid documentAndBatch) waitingMoves GraphTasks.start := by
    decide +kernel
  have hsome : (drive (Processes.step (runTask .python noUuid documentAndBatch)) waitingMoves
      GraphTasks.start).isSome = true := by
    decide +kernel
  obtain ⟨s, hs, hrun⟩ := Driven.exists_of_meets hmeets hsome
  exact ⟨s, hs, exclusive_of_ownToken _ _ _ s hrun⟩

end RagflowMineru.GraphRag
