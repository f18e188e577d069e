import Mathlib.Data.Finset.Card
import Mathlib.Data.List.Perm.Lattice
import Mathlib.Data.Rat.Defs
import Mathlib.Algebra.Order.Ring.Rat

/-!
# Reusing the chunks of earlier parsing tasks

When a document is queued again, a new task takes over the chunks of the first
earlier task with its page and digest, if that one is complete.  The chunks that
no new task has taken over are deleted, by id.  Ids are hashes of contents, so
two earlier tasks can list the same one.
-/

namespace RagflowMineru.Document

/-- What `str.isspace` accepts. -/
def isSpace (c : Char) : Bool :=
  c.toNat ∈ [9, 10, 11, 12, 13, 28, 29, 30, 31, 32, 133, 160, 5760, 8192, 8193,
    8194, 8195, 8196, 8197, 8198, 8199, 8200, 8201, 8202, 8232, 8233, 8239,
    8287, 12288]

/-- `str.split` without a separator. -/
def split (s : String) : List String :=
  ((s.toList.splitOnP isSpace).filter (· ≠ [])).map String.ofList

@[simp] theorem split_empty : split "" = [] := by
  simp [split, List.splitOnP_nil]

/-- A task of the document as it is read back; the columns may be null. -/
structure PrevTask where
  fromPage : ℤ
  progress : ℚ
  digest : Option String
  chunkIds : Option String

/-- A task as it is made up for some pages, with the digest of what it is to
do. -/
structure PageTask where
  fromPage : ℤ
  toPage : ℤ
  digest : String

/-- A task as it is stored. -/
structure NewTask extends PageTask where
  progress : ℚ := 0
  chunkIds : String := ""
  progressMsg : String := ""

def PrevTask.ids (p : PrevTask) : List String := split (p.chunkIds.getD "")

def NewTask.ids (t : NewTask) : List String := split t.chunkIds

/-- The page and digest by which tasks are matched. -/
def PrevTask.key (p : PrevTask) : ℤ × Option String := (p.fromPage, p.digest)

def PageTask.key (t : PageTask) : ℤ × Option String :=
  (t.fromPage, some t.digest)

/-- Complete, with chunk ids. -/
def PrevTask.reusable (p : PrevTask) : Bool :=
  1 ≤ p.progress ∧ p.chunkIds.getD "" ≠ ""

def reusedMsg (now : String) (t : PageTask) : String :=
  let pages :=
    if t.toPage - t.fromPage ≥ 10 ^ 6 then
      "Page(" ++ toString t.fromPage ++ "~" ++ toString t.toPage ++ "): "
    else ""
  " ".intercalate [now, pages, "Reused previous task's chunks."]

/-- The task, the earlier tasks and the number of chunks afterwards. -/
def reusePrevTaskChunks (now : String) (t : PageTask) :
    List PrevTask → NewTask × List PrevTask × ℕ
  | [] => ({ t with }, [], 0)
  | p :: prevs =>
      if p.key = t.key then
        if p.reusable then
          ({ t with
              chunkIds := p.chunkIds.getD ""
              progress := 1
              progressMsg := reusedMsg now t },
            { p with chunkIds := some "" } :: prevs, p.ids.length)
        else ({ t with }, p :: prevs, 0)
      else
        let (t', prevs', n) := reusePrevTaskChunks now t prevs
        (t', p :: prevs', n)

/-- The loop over the new tasks. -/
def reuseAll (now : PageTask → String) :
    List PageTask → List PrevTask → List NewTask × List PrevTask × ℕ
  | [], prevs => ([], prevs, 0)
  | t :: news, prevs =>
      let (t', prevs', n) := reusePrevTaskChunks (now t) t prevs
      let (news', prevs'', m) := reuseAll now news prevs'
      (t' :: news', prevs'', n + m)

/-- What queueing leaves behind: the task rows, those of them that are sent to
the workers, the ids deleted from the document store and the document's
`chunk_num`. -/
structure Queued where
  tasks : List NewTask
  sent : List NewTask
  deleted : List String
  chunkNum : ℕ

/-- `queue_tasks` from the point where the new tasks are made up; no earlier
tasks are read as `None`. -/
def queueTasks (now : PageTask → String) (parseTaskArray : List PageTask)
    (prevTasks : List PrevTask) : Queued :=
  match prevTasks with
  | [] =>
      let tasks := parseTaskArray.map fun t => ({ t with } : NewTask)
      { tasks
        sent := tasks.filter (·.progress < 1)
        deleted := []
        chunkNum := 0 }
  | _ :: _ =>
      let (tasks, prevs, ckNum) := reuseAll now parseTaskArray prevTasks
      { tasks
        sent := tasks.filter (·.progress < 1)
        deleted := prevs.flatMap PrevTask.ids
        chunkNum := ckNum }

/-- `docStoreConn.delete` by id. -/
def deleteIds (ids : List String) (store : Finset String) : Finset String :=
  store.filter (· ∉ ids)

/-! ## Which chunks are taken over -/

/-- An earlier task whose chunks are taken over: it can be reused, some new task
has its key, and no task seen before has. -/
def takes (news : List PageTask) (seen : List (ℤ × Option String))
    (p : PrevTask) : Bool :=
  p.reusable ∧ (∃ t ∈ news, p.key = t.key) ∧ p.key ∉ seen

/-- The chunk ids of the earlier tasks that are taken over. -/
def takenIds (news : List PageTask) (seen : List (ℤ × Option String)) :
    List PrevTask → List String
  | [] => []
  | p :: prevs =>
      (if takes news seen p then p.ids else []) ++
        takenIds news (p.key :: seen) prevs

/-- The chunk ids of the others. -/
def leftIds (news : List PageTask) (seen : List (ℤ × Option String)) :
    List PrevTask → List String
  | [] => []
  | p :: prevs =>
      (if takes news seen p then [] else p.ids) ++
        leftIds news (p.key :: seen) prevs

theorem takenIds_append_leftIds_perm (news : List PageTask)
    (seen : List (ℤ × Option String)) (prevs : List PrevTask) :
    (takenIds news seen prevs ++ leftIds news seen prevs).Perm
      (prevs.flatMap PrevTask.ids) := by
  induction prevs generalizing seen with
  | nil => exact List.Perm.refl _
  | cons p prevs ih =>
      rw [takenIds, leftIds, List.flatMap_cons]
      have hrest := (ih (p.key :: seen)).append_left p.ids
      by_cases h : takes news seen p
      · simpa [h] using hrest
      · simp only [h, Bool.false_eq_true, if_false, List.nil_append]
        refine List.Perm.trans ?_ hrest
        rw [← List.append_assoc, ← List.append_assoc]
        exact List.perm_append_comm.append_right _

theorem takes_cons_of_ne {t : PageTask} {p : PrevTask} (h : p.key ≠ t.key)
    (news : List PageTask) (seen : List (ℤ × Option String)) :
    takes (t :: news) seen p = takes news seen p := by
  simp [takes, h]

/-- A new task whose key was seen before takes nothing over. -/
theorem leftIds_cons_of_seen {t : PageTask} {seen : List (ℤ × Option String)}
    (ht : t.key ∈ seen) (news : List PageTask) (prevs : List PrevTask) :
    leftIds (t :: news) seen prevs = leftIds news seen prevs := by
  induction prevs generalizing seen with
  | nil => rfl
  | cons p prevs ih =>
      have htakes : takes (t :: news) seen p = takes news seen p := by
        by_cases hkey : p.key = t.key
        · simp [takes, hkey, ht]
        · exact takes_cons_of_ne hkey news seen
      rw [leftIds, leftIds, htakes, ih (List.mem_cons_of_mem _ ht)]

/-- What is left after one new task is what is left to the others. -/
theorem leftIds_reusePrevTaskChunks {t : PageTask}
    {seen : List (ℤ × Option String)} (ht : t.key ∉ seen) (now : String)
    (news : List PageTask) (prevs : List PrevTask) :
    leftIds news seen (reusePrevTaskChunks now t prevs).2.1 =
      leftIds (t :: news) seen prevs := by
  induction prevs generalizing seen with
  | nil => rfl
  | cons p prevs ih =>
      rw [reusePrevTaskChunks]
      by_cases hkey : p.key = t.key
      · have hrest : leftIds (t :: news) (p.key :: seen) prevs =
            leftIds news (p.key :: seen) prevs :=
          leftIds_cons_of_seen (by simp [hkey]) news prevs
        rw [if_pos hkey, leftIds, hrest]
        by_cases hreuse : p.reusable
        · have htakes : takes (t :: news) seen p = true := by
            simp [takes, hkey, hreuse, ht]
          rw [if_pos hreuse, if_pos htakes, leftIds]
          simp [PrevTask.ids, PrevTask.key]
        · have hnot : ∀ news', takes news' seen p = false := by
            simp [takes, hreuse]
          rw [if_neg hreuse, leftIds, hnot, hnot]
      · have hne : t.key ∉ p.key :: seen := by
          simp [Ne.symm hkey, ht]
        rw [if_neg hkey]
        simp only [leftIds]
        rw [takes_cons_of_ne hkey, ih hne]

/-- One new task moves the ids of at most one earlier task. -/
theorem reusePrevTaskChunks_perm (now : String) (t : PageTask)
    (prevs : List PrevTask) :
    ((reusePrevTaskChunks now t prevs).1.ids ++
      (reusePrevTaskChunks now t prevs).2.1.flatMap PrevTask.ids).Perm
        (prevs.flatMap PrevTask.ids) := by
  induction prevs with
  | nil => simp [reusePrevTaskChunks, NewTask.ids]
  | cons p prevs ih =>
      rw [reusePrevTaskChunks]
      split
      · split
        · simp [NewTask.ids, PrevTask.ids]
        · simp [NewTask.ids]
      · simp only [List.flatMap_cons]
        refine List.Perm.trans ?_ (ih.append_left p.ids)
        rw [← List.append_assoc, ← List.append_assoc]
        exact List.perm_append_comm.append_right _

theorem reusePrevTaskChunks_count (now : String) (t : PageTask)
    (prevs : List PrevTask) :
    (reusePrevTaskChunks now t prevs).2.2 =
      (reusePrevTaskChunks now t prevs).1.ids.length := by
  induction prevs with
  | nil => simp [reusePrevTaskChunks, NewTask.ids]
  | cons p prevs ih =>
      rw [reusePrevTaskChunks]
      split
      · split
        · rfl
        · simp [NewTask.ids]
      · exact ih

theorem reuseAll_perm (now : PageTask → String) (news : List PageTask)
    (prevs : List PrevTask) :
    ((reuseAll now news prevs).1.flatMap NewTask.ids ++
      (reuseAll now news prevs).2.1.flatMap PrevTask.ids).Perm
        (prevs.flatMap PrevTask.ids) := by
  induction news generalizing prevs with
  | nil => exact List.Perm.refl _
  | cons t news ih =>
      simp only [reuseAll, List.flatMap_cons, List.append_assoc]
      exact ((ih _).append_left _).trans
        (reusePrevTaskChunks_perm (now t) t prevs)

theorem reuseAll_count (now : PageTask → String) (news : List PageTask)
    (prevs : List PrevTask) :
    (reuseAll now news prevs).2.2 =
      ((reuseAll now news prevs).1.flatMap NewTask.ids).length := by
  induction news generalizing prevs with
  | nil => rfl
  | cons t news ih =>
      simp only [reuseAll, List.flatMap_cons, List.length_append]
      rw [ih, reusePrevTaskChunks_count]

theorem reuseAll_left (now : PageTask → String) (news : List PageTask)
    (prevs : List PrevTask) :
    (reuseAll now news prevs).2.1.flatMap PrevTask.ids =
      leftIds news [] prevs := by
  induction news generalizing prevs with
  | nil =>
      have hall : ∀ seen, leftIds [] seen prevs =
          prevs.flatMap PrevTask.ids := by
        intro seen
        induction prevs generalizing seen with
        | nil => rfl
        | cons p prevs ih =>
            rw [leftIds, ih]
            simp [takes]
      exact (hall []).symm
  | cons t news ih =>
      simp only [reuseAll]
      rw [ih]
      exact leftIds_reusePrevTaskChunks List.not_mem_nil (now t) news prevs

/-! ## The books of a queueing -/

variable (now : PageTask → String) (news : List PageTask)
  (prevs : List PrevTask)

/-- The chunk ids of the stored tasks. -/
def Queued.kept (q : Queued) : List String := q.tasks.flatMap NewTask.ids

theorem queueTasks_deleted :
    (queueTasks now news prevs).deleted = leftIds news [] prevs := by
  cases prevs with
  | nil => rfl
  | cons p prevs => exact reuseAll_left now news (p :: prevs)

theorem queueTasks_count :
    (queueTasks now news prevs).chunkNum =
      (queueTasks now news prevs).kept.length := by
  cases prevs with
  | nil => simp [queueTasks, Queued.kept, List.flatMap_map, NewTask.ids]
  | cons p prevs => exact reuseAll_count now news (p :: prevs)

theorem queueTasks_kept_perm :
    (queueTasks now news prevs).kept.Perm (takenIds news [] prevs) := by
  cases prevs with
  | nil => simp [queueTasks, Queued.kept, List.flatMap_map, NewTask.ids, takenIds]
  | cons p prevs =>
      have hall := (reuseAll_perm now news (p :: prevs)).trans
        (takenIds_append_leftIds_perm news [] (p :: prevs)).symm
      rw [reuseAll_left] at hall
      exact (List.perm_append_right_iff _).mp hall

/-- An id that the tasks list once and only once is in one task. -/
theorem countP_eq_one {tasks : List NewTask}
    (hnodup : (tasks.flatMap NewTask.ids).Nodup) {id : String}
    (hid : id ∈ tasks.flatMap NewTask.ids) :
    tasks.countP (fun t => id ∈ t.ids) = 1 := by
  induction tasks with
  | nil => simp at hid
  | cons t tasks ih =>
      rw [List.flatMap_cons] at hnodup hid
      obtain ⟨-, hrest, hdisj⟩ := List.nodup_append'.mp hnodup
      by_cases ht : id ∈ t.ids
      · have hnone : tasks.countP (fun t => id ∈ t.ids) = 0 := by
          rw [List.countP_eq_zero]
          intro t' ht' hid'
          exact hdisj ht (List.mem_flatMap.mpr ⟨t', ht', by simpa using hid'⟩)
        rw [List.countP_cons_of_pos (by simpa using ht), hnone]
      · obtain hid | hid := List.mem_append.mp hid
        · exact absurd hid ht
        · rw [List.countP_cons_of_neg (by simpa using ht), ih hrest hid]

/-- What queueing promises about the chunks of the earlier tasks: what a stored
task lists is still there if it was, every chunk is in one task or deleted, and
`chunk_num` is the number of chunks kept. -/
structure ReuseLaw (prevs : List PrevTask) (q : Queued) : Prop where
  kept : ∀ (store : Finset String) (t : NewTask), t ∈ q.tasks →
    ∀ id ∈ t.ids, id ∈ store → id ∈ deleteIds q.deleted store
  accounted : ∀ p ∈ prevs, ∀ id ∈ p.ids,
    q.tasks.countP (fun t => id ∈ t.ids) = 1 ∨ id ∈ q.deleted
  chunkNum : q.chunkNum = q.kept.toFinset.card

/-- The law holds exactly when the chunks of the tasks taken over are all
different and none of them is a chunk of a task that is not. -/
theorem reuseLaw_iff :
    ReuseLaw prevs (queueTasks now news prevs) ↔
      (takenIds news [] prevs).Nodup ∧
        (takenIds news [] prevs).Disjoint (leftIds news [] prevs) := by
  have hperm := queueTasks_kept_perm now news prevs
  have hdeleted := queueTasks_deleted now news prevs
  constructor
  · rintro ⟨hkept, -, hcount⟩
    rw [queueTasks_count] at hcount
    constructor
    · rw [← hperm.nodup_iff]
      exact Multiset.toFinset_card_eq_card_iff_nodup.mp hcount.symm
    · intro id htaken hleft
      obtain ⟨t, ht, hid⟩ := List.mem_flatMap.mp (hperm.mem_iff.mpr htaken)
      have hstill := hkept {id} t ht id hid (Finset.mem_singleton_self id)
      rw [deleteIds, Finset.mem_filter, hdeleted] at hstill
      exact hstill.2 hleft
  · rintro ⟨hnodup, hdisj⟩
    have hnodup' := hperm.nodup_iff.mpr hnodup
    constructor
    · intro store t ht id hid hstore
      have htaken := hperm.mem_iff.mp (List.mem_flatMap.mpr ⟨t, ht, hid⟩)
      rw [deleteIds, Finset.mem_filter, hdeleted]
      exact ⟨hstore, hdisj htaken⟩
    · intro p hp id hid
      have hall := (takenIds_append_leftIds_perm news [] prevs).mem_iff.mpr
        (List.mem_flatMap.mpr ⟨p, hp, hid⟩)
      obtain htaken | hleft := List.mem_append.mp hall
      · exact Or.inl (countP_eq_one hnodup' (hperm.mem_iff.mpr htaken))
      · exact Or.inr (hdeleted ▸ hleft)
    · rw [queueTasks_count, List.toFinset_card_of_nodup hnodup']

/-! ## One chunk, two earlier tasks -/

/-- Two page ranges with the chunk `c1` in both; the second one has failed after
storing it. -/
def failedAgain : List PrevTask :=
  [{ fromPage := 0, progress := 1, digest := some "d1", chunkIds := some "c1" },
    { fromPage := 12, progress := -1, digest := some "d2",
      chunkIds := some "c1" }]

def sameRanges : List PageTask := [⟨0, 12, "d1"⟩, ⟨12, 24, "d2"⟩]

/-- Queued again, the first range keeps its chunk, and that is deleted with the
second one's. -/
theorem shared_chunk_deleted :
    ¬ ReuseLaw failedAgain
      (queueTasks (fun _ => "12:00:00") sameRanges failedAgain) := by
  have hkept : ∃ t ∈
      (queueTasks (fun _ => "12:00:00") sameRanges failedAgain).tasks,
      "c1" ∈ t.ids := by
    decide
  have hdeleted : "c1" ∈
      (queueTasks (fun _ => "12:00:00") sameRanges failedAgain).deleted := by
    decide
  intro hlaw
  obtain ⟨t, ht, hid⟩ := hkept
  have hstill := hlaw.kept {"c1"} t ht "c1" hid (by simp)
  simp [deleteIds, hdeleted] at hstill

end RagflowMineru.Document
