import RagflowMineru.Agent.Canvas.Join
import RagflowMineru.Agent.Collation

/-!
# The rounds of an iteration

Every leaf of an iteration body hands on the `IterationItem`, and only a repeat
that is adjacent in `path` is suppressed.  A round, from one invocation of the
item to the next, runs the body once when all its branches end in the same
batch.  A branch that ends earlier starts the next item while the others are
still running.
-/

namespace RagflowMineru.Agent

open RagflowMineru.Library

variable {w : World} {dsl : Dsl} {item : CpnId} {body : CpnId → Bool}

/-- The components of an iteration body, its item apart. -/
def bodyOf (dsl : Dsl) (pid item : CpnId) (d : CpnId) : Bool :=
  inBody dsl pid d && decide (d ≠ item)

/-- What has happened since the item was invoked: the components of the body
that were handed on, and those that were invoked. -/
structure Round where
  reached : List CpnId := []
  invoked : List CpnId := []

/-- The round after a batch.  A batch with the item starts a new round. -/
def nextRound (item : CpnId) (body : CpnId → Bool)
    (kept handed : List CpnId) (r : Round) : Round :=
  if item ∈ kept then { reached := handed.filter body }
  else
    { reached := r.reached ++ handed.filter body
      invoked := r.invoked ++ kept.filter body }

/-- A step of a run with the record of its round. -/
def roundStep (w : World) (dsl : Dsl) (item : CpnId) (body : CpnId → Bool)
    (sr : RunState × Round) : Option (RunState × Round) :=
  (step w dsl sr.1).map fun t =>
    (t, match invokeBatch w dsl sr.1 with
      | some (s', kept) =>
          nextRound item body kept (handedOn w dsl s' kept) sr.2
      | none => sr.2)

/-- The start of a run whose first component is `c`. -/
def startRound (h : Heap) (prior : List CpnId) (c : CpnId)
    (body : CpnId → Bool) : RunState × Round :=
  (startRun h (prior ++ [c]), { reached := [c].filter body })

/-- When a batch invokes the item, it does so once and invokes no component of
the body with it, and every component that the previous item has reached was
invoked exactly once, in an earlier batch. -/
structure RoundDone (item : CpnId) (body : CpnId → Bool)
    (kept : List CpnId) (r : Round) : Prop where
  once : kept.count item = 1
  alone : ∀ d ∈ kept, body d = false
  done : ∀ d ∈ r.reached, r.invoked.count d = 1

/-- A batch that keeps the rounds apart.  The readiness test takes out neither
the item nor a component of the body; no component jumps; what is handed on
repeats these ids only right behind the same id; the item is handed on by itself,
without a component of the body; and no component of the body is handed on
again in the same round. -/
structure OrderlyBatch (w : World) (dsl : Dsl) (item : CpnId)
    (body : CpnId → Bool) (s s' : RunState) (kept : List CpnId)
    (r : Round) : Prop where
  keeps : ∀ d, (body d || decide (d = item)) = true →
    kept.count d = (s.path.drop s.idx).count d
  stays : jumps w dsl s' kept = false
  adjacent : NoLateRepeat (fun d => body d || decide (d = item)) []
    (handedOn w dsl s' kept)
  together : item ∈ handedOn w dsl s' kept →
    ∀ d ∈ handedOn w dsl s' kept, body d = false
  fresh : item ∉ kept → ∀ d ∈ handedOn w dsl s' kept,
    body d = true → d ∉ r.reached

/-- The coming batch keeps the rounds apart. -/
def Orderly (w : World) (dsl : Dsl) (item : CpnId) (body : CpnId → Bool)
    (sr : RunState × Round) : Prop :=
  ∀ s' kept, invokeBatch w dsl sr.1 = some (s', kept) →
    OrderlyBatch w dsl item body sr.1 s' kept sr.2

/-! ## What a round knows about the coming batch -/

/-- Between two batches every component of the body that was reached either was
invoked or stands in the coming batch, once; and when the item stands there, no
component of the body does. -/
structure RoundInv (item : CpnId) (body : CpnId → Bool)
    (pending : List CpnId) (r : Round) : Prop where
  inside : ∀ d ∈ r.reached, body d = true
  account : ∀ d ∈ r.reached, r.invoked.count d + pending.count d = 1
  waiting : ∀ d ∈ pending, body d = true → d ∈ r.reached
  invoked : ∀ d ∈ r.invoked, d ∈ r.reached
  once : pending.count item ≤ 1
  alone : item ∈ pending → ∀ d ∈ pending, body d = false

theorem RoundInv.roundDone {pending kept : List CpnId} {r : Round}
    (hinv : RoundInv item body pending r) (hsub : kept.Sublist pending)
    (hitem : item ∈ kept) : RoundDone item body kept r := by
  have hpending := hsub.subset hitem
  constructor
  · have hpos := List.count_pos_iff.mpr hitem
    have hle := (hsub.count_le item).trans hinv.once
    omega
  · intro d hd
    exact hinv.alone hpending d (hsub.subset hd)
  · intro d hd
    have haccount := hinv.account d hd
    have hout : d ∉ pending := by
      intro hin
      have hfalse := hinv.alone hpending d hin
      rw [hinv.inside d hd] at hfalse
      exact absurd hfalse (by decide)
    rw [List.count_eq_zero.mpr hout] at haccount
    omega

theorem startRound_inv (hitem : body item = false) (c : CpnId) :
    RoundInv item body [c] { reached := [c].filter body } := by
  constructor
  · intro d hd
    exact (List.mem_filter.mp hd).2
  · intro d hd
    obtain rfl := List.mem_singleton.mp (List.mem_filter.mp hd).1
    simp
  · intro d hd hbody
    exact List.mem_filter.mpr ⟨hd, hbody⟩
  · simp
  · rw [List.count_singleton]
    split
    · exact le_rfl
    · exact Nat.zero_le 1
  · intro hin d hd
    obtain rfl := List.mem_singleton.mp hin
    obtain rfl := List.mem_singleton.mp hd
    exact hitem

section Batch

variable {s s' : RunState} {kept : List CpnId} {r : Round}

/-- A component of the body that is handed on is new in its round. -/
theorem OrderlyBatch.new_of_handed (hinv : RoundInv item body
      (s.path.drop s.idx) r) (hsub : kept.Sublist (s.path.drop s.idx))
    (horderly : OrderlyBatch w dsl item body s s' kept r) {d : CpnId}
    (hd : d ∈ handedOn w dsl s' kept) (hbody : body d = true) :
    d ∉ kept ∧ (item ∉ kept → d ∉ r.reached) := by
  have hfresh : item ∉ kept → d ∉ r.reached := by
    intro hitem
    exact horderly.fresh hitem d hd hbody
  refine ⟨?_, hfresh⟩
  intro hkept
  have hwaiting := hsub.subset hkept
  by_cases hitem : item ∈ kept
  · have hfalse := hinv.alone (hsub.subset hitem) d hwaiting
    rw [hbody] at hfalse
    exact absurd hfalse (by decide)
  · exact hfresh hitem (hinv.waiting d hwaiting hbody)

/-- What an orderly batch hands on stands in the next batch: the item once at
most, and every component of the body once. -/
theorem OrderlyBatch.next_count (hinv : RoundInv item body
      (s.path.drop s.idx) r) (hsub : kept.Sublist (s.path.drop s.idx))
    (horderly : OrderlyBatch w dsl item body s s' kept r) (front : List CpnId) :
    ∃ next, pushAll (front ++ kept) (handedOn w dsl s' kept) =
        front ++ kept ++ next ∧
      next.count item ≤ 1 ∧ (∀ d ∈ next, d ∈ handedOn w dsl s' kept) ∧
      ∀ d ∈ handedOn w dsl s' kept, body d = true → next.count d = 1 := by
  obtain ⟨next, hpush, hcount, hfrom, hinto⟩ :=
    pushAll_once (l := front ++ kept) horderly.adjacent
  refine ⟨next, hpush, hcount item (by simp), hfrom, ?_⟩
  intro d hd hbody
  have hle := hcount d (by simp [hbody])
  have hmem : d ∈ next := by
    apply hinto d hd
    -- the last entry of `path` belongs to the batch, and `d` does not
    have hne : kept ≠ [] := by
      rintro rfl
      simp [handedOn] at hd
    rw [List.getLast?_append_of_ne_nil _ hne]
    intro hlast
    have hnew := (horderly.new_of_handed hinv hsub hd hbody).1
    exact hnew (List.mem_of_getLast? hlast)
  have hpos := List.count_pos_iff.mpr hmem
  omega

/-- An orderly batch accounts for what it has invoked and what it hands on. -/
theorem OrderlyBatch.roundInv (hinv : RoundInv item body
      (s.path.drop s.idx) r) (hsub : kept.Sublist (s.path.drop s.idx))
    (horderly : OrderlyBatch w dsl item body s s' kept r)
    {next : List CpnId} (honce : next.count item ≤ 1)
    (hfrom : ∀ d ∈ next, d ∈ handedOn w dsl s' kept)
    (hcount : ∀ d ∈ handedOn w dsl s' kept, body d = true →
      next.count d = 1) :
    RoundInv item body next
      (nextRound item body kept (handedOn w dsl s' kept) r) := by
  have halone : item ∈ next → ∀ d ∈ next, body d = false := by
    intro hin d hd
    exact horderly.together (hfrom item hin) d (hfrom d hd)
  by_cases hitem : item ∈ kept
  · rw [nextRound, if_pos hitem]
    refine ⟨?_, ?_, ?_, by simp, honce, halone⟩
    · intro d hd
      exact (List.mem_filter.mp hd).2
    · intro d hd
      obtain ⟨hhanded, hbody⟩ := List.mem_filter.mp hd
      rw [hcount d hhanded hbody]
      rfl
    · intro d hd hbody
      exact List.mem_filter.mpr ⟨hfrom d hd, hbody⟩
  · rw [nextRound, if_neg hitem]
    refine ⟨?_, ?_, ?_, ?_, honce, halone⟩
    · intro d hd
      rcases List.mem_append.mp hd with hold | hnew
      · exact hinv.inside d hold
      · exact (List.mem_filter.mp hnew).2
    · intro d hd
      have hbody : body d = true := by
        rcases List.mem_append.mp hd with hold | hnew
        · exact hinv.inside d hold
        · exact (List.mem_filter.mp hnew).2
      have hinvoked : (r.invoked ++ kept.filter body).count d =
          r.invoked.count d + (s.path.drop s.idx).count d := by
        rw [List.count_append, List.count_filter hbody,
          horderly.keeps d (by simp [hbody])]
      show (r.invoked ++ kept.filter body).count d + next.count d = 1
      rw [hinvoked]
      by_cases hhanded : d ∈ handedOn w dsl s' kept
      · obtain ⟨-, hfresh⟩ := horderly.new_of_handed hinv hsub hhanded hbody
        have hold : d ∉ r.reached := hfresh hitem
        have hnone : r.invoked.count d = 0 := by
          rw [List.count_eq_zero]
          exact fun hin => hold (hinv.invoked d hin)
        have hout : (s.path.drop s.idx).count d = 0 := by
          rw [List.count_eq_zero]
          exact fun hin => hold (hinv.waiting d hin hbody)
        rw [hnone, hout, hcount d hhanded hbody]
      · have hold : d ∈ r.reached := by
          rcases List.mem_append.mp hd with hold | hnew
          · exact hold
          · exact absurd (List.mem_filter.mp hnew).1 hhanded
        have hgone : next.count d = 0 := by
          rw [List.count_eq_zero]
          exact fun hin => hhanded (hfrom d hin)
        have haccount := hinv.account d hold
        rw [hgone]
        omega
    · intro d hd hbody
      exact List.mem_append_right _ (List.mem_filter.mpr ⟨hfrom d hd, hbody⟩)
    · intro d hd
      rcases List.mem_append.mp hd with hold | hnew
      · exact List.mem_append_left _ (hinv.invoked d hold)
      · obtain ⟨hkept, hbody⟩ := List.mem_filter.mp hnew
        exact List.mem_append_left _
          (hinv.waiting d (hsub.subset hkept) hbody)

end Batch

/-! ## Whole runs -/

theorem roundStep_cases {sr tr : RunState × Round}
    (h : roundStep w dsl item body sr = some tr) :
    step w dsl sr.1 = some tr.1 ∧ ∀ s' kept,
      invokeBatch w dsl sr.1 = some (s', kept) →
        tr.2 = nextRound item body kept (handedOn w dsl s' kept) sr.2 := by
  obtain ⟨t, hstep, rfl⟩ := Option.map_eq_some_iff.mp h
  refine ⟨hstep, ?_⟩
  intro s' kept hinvoke
  simp [hinvoke]

theorem roundStep_inv {sr tr : RunState × Round}
    (hle : sr.1.idx ≤ sr.1.path.length)
    (hinv : RoundInv item body (sr.1.path.drop sr.1.idx) sr.2)
    (horderly : Orderly w dsl item body sr)
    (hstep : roundStep w dsl item body sr = some tr)
    (hrunning : tr.1.phase = .running) :
    RoundInv item body (tr.1.path.drop tr.1.idx) tr.2 := by
  obtain ⟨hrun, hround⟩ := roundStep_cases hstep
  obtain ⟨-, s', kept, s'', hinvoke, hfold, ht⟩ := step_running hrun hrunning
  have hbatch := horderly s' kept hinvoke
  rw [hround s' kept hinvoke, ht]
  obtain ⟨started, heap, -, -, hsub, rfl⟩ := invokeBatch_spec hle hinvoke
  obtain ⟨next, hpush, honce, hfrom, hcount⟩ :=
    hbatch.next_count hinv hsub (sr.1.path.take sr.1.idx)
  have hpath := foldlM_postProcess_path hbatch.stays hfold
  have hnext : s''.path.drop (sr.1.path.take sr.1.idx ++ kept).length =
      next := by
    rw [hpath, hpush]
    exact List.drop_left
  show RoundInv item body
    (s''.path.drop (sr.1.path.take sr.1.idx ++ kept).length) _
  rw [hnext]
  exact hbatch.roundInv hinv hsub honce hfrom hcount

/-- In a run of orderly batches every invocation of the item finds the round of
the previous item done. -/
theorem reach_roundDone {h : Heap} {prior : List CpnId} {c pid : CpnId}
    {sr : RunState × Round}
    (hs : Reach (roundStep w dsl item (bodyOf dsl pid item))
      (Orderly w dsl item (bodyOf dsl pid item))
      (startRound h prior c (bodyOf dsl pid item)) sr)
    (hrunning : sr.1.phase = .running) {s' : RunState} {kept : List CpnId}
    (hinvoke : invokeBatch w dsl sr.1 = some (s', kept))
    (hitem : item ∈ kept) :
    RoundDone item (bodyOf dsl pid item) kept sr.2 := by
  have hinv : sr.1.phase = .running → FrontInv prior sr.1 ∧
      RoundInv item (bodyOf dsl pid item) (sr.1.path.drop sr.1.idx) sr.2 := by
    refine Reach.invariant (I := fun sr => sr.1.phase = .running →
      FrontInv prior sr.1 ∧ RoundInv item (bodyOf dsl pid item)
        (sr.1.path.drop sr.1.idx) sr.2) ?_ ?_ hs
    · intro _
      refine ⟨startRun_frontInv h prior c, ?_⟩
      have hpending : (startRun h (prior ++ [c])).path.drop
          (startRun h (prior ++ [c])).idx = [c] := by
        simp [startRun]
      show RoundInv item (bodyOf dsl pid item) ((startRun h
        (prior ++ [c])).path.drop (startRun h (prior ++ [c])).idx) _
      rw [hpending]
      exact startRound_inv (by simp [bodyOf]) c
    · intro sr tr ih horderly hstep ht
      obtain ⟨hrun, -⟩ := roundStep_cases hstep
      obtain ⟨hfront, hround⟩ := ih (step_cases hrun).1
      exact ⟨step_frontInv hfront hrun ht,
        roundStep_inv hfront.idx_le hround horderly hstep ht⟩
  obtain ⟨hfront, hround⟩ := hinv hrunning
  obtain ⟨started, heap, -, -, hsub, -⟩ :=
    invokeBatch_spec hfront.idx_le hinvoke
  exact hround.roundDone hsub hitem

/-! ## Branches of different length -/

/-- A world that runs the `IterationItem` named `item` and otherwise only stamps
the creation time. -/
def iterationWorld (dsl : Dsl) (item : CpnId) : World :=
  { scriptedWorld (fun _ => []) (fun _ => []) with
    gather := fun _ kept h => kept.foldl
      (fun h c =>
        let h := h.setOutput c "_created_time" (.float 0)
        if c = item then
          (iterationItemInvoke failingInterp dsl c false false false h).heap
        else h) h }

def iterationHeap : Heap where
  objs := fun _ => {}
  globals := [("env.items", .list [.str "x", .str "y", .str "z"])]

/-- One branch of the body is `a`, the other `b` and then `c`. -/
def unevenDsl : Dsl where
  components :=
    [("begin", { kind := .begin, downstream := ["each"] }),
     ("each", { kind := .iteration "env.items" }),
     ("item", { kind := .iterationItem, downstream := ["a", "b"],
                parentId := some "each" }),
     ("a", { kind := .other, parentId := some "each" }),
     ("b", { kind := .other, downstream := ["c"], parentId := some "each" }),
     ("c", { kind := .other, parentId := some "each" })]
  nodup := by decide

def unevenStep : RunState × Round → Option (RunState × Round) :=
  roundStep (iterationWorld unevenDsl "item") unevenDsl "item"
    (bodyOf unevenDsl "each" "item")

def unevenStart : RunState × Round :=
  startRound iterationHeap [] "begin" (bodyOf unevenDsl "each" "item")

/-- The run after `n` batches. -/
def unevenState (n : ℕ) : RunState × Round :=
  (iterate unevenStep n unevenStart).getD unevenStart

theorem unevenState_reachable :
    Reachable unevenStep unevenStart (unevenState 4) := by
  have hsome : (iterate unevenStep 4 unevenStart).isSome = true := by
    decide +kernel
  exact reachable_iterate hsome

/-- The second item is set in the same batch that runs `c` for the first. -/
theorem uneven_item_overtakes :
    Reachable unevenStep unevenStart (unevenState 4) ∧
    (unevenState 4).1.phase = .running ∧
    ∃ s', invokeBatch (iterationWorld unevenDsl "item") unevenDsl
        (unevenState 4).1 = some (s', ["item", "c"]) ∧
      ¬ RoundDone "item" (bodyOf unevenDsl "each" "item") ["item", "c"]
        (unevenState 4).2 := by
  have hkept : (invokeBatch (iterationWorld unevenDsl "item") unevenDsl
      (unevenState 4).1).map Prod.snd = some ["item", "c"] := by
    decide +kernel
  obtain ⟨⟨s', kept⟩, hinvoke, rfl⟩ := Option.map_eq_some_iff.mp hkept
  refine ⟨unevenState_reachable, by decide +kernel, s', hinvoke, ?_⟩
  intro hdone
  have hc := hdone.alone "c" (by decide)
  exact absurd hc (by decide)

/-! ## Branches of the same length -/

/-- Both branches of the body consist of one component. -/
def evenDsl : Dsl where
  components :=
    [("begin", { kind := .begin, downstream := ["each"] }),
     ("each", { kind := .iteration "env.items" }),
     ("item", { kind := .iterationItem, downstream := ["a", "b"],
                parentId := some "each" }),
     ("a", { kind := .other, parentId := some "each" }),
     ("b", { kind := .other, parentId := some "each" })]
  nodup := by decide

def evenStep : RunState × Round → Option (RunState × Round) :=
  roundStep (iterationWorld evenDsl "item") evenDsl "item"
    (bodyOf evenDsl "each" "item")

def evenOrderly : RunState × Round → Prop :=
  Orderly (iterationWorld evenDsl "item") evenDsl "item"
    (bodyOf evenDsl "each" "item")

def evenStart : RunState × Round :=
  startRound iterationHeap [] "begin" (bodyOf evenDsl "each" "item")

def evenState (n : ℕ) : RunState × Round :=
  (iterate evenStep n evenStart).getD evenStart

/-- A batch is orderly when what it keeps and hands on is. -/
theorem orderly_of_summary {sr : RunState × Round} (kept handed : List CpnId)
    (hsummary : (invokeBatch w dsl sr.1).map (fun b =>
      (b.2, handedOn w dsl b.1 b.2, jumps w dsl b.1 b.2)) =
        some (kept, handed, false))
    (hslice : sr.1.path.drop sr.1.idx = kept)
    (hadjacent : NoLateRepeat (fun d => body d || decide (d = item)) [] handed)
    (htogether : item ∈ handed → ∀ d ∈ handed, body d = false)
    (hfresh : item ∉ kept → ∀ d ∈ handed, body d = true → d ∉ sr.2.reached) :
    Orderly w dsl item body sr := by
  intro s' kept' hinvoke
  rw [hinvoke] at hsummary
  obtain ⟨rfl, hrest⟩ := Prod.mk.inj (Option.some.inj hsummary)
  obtain ⟨rfl, hstays⟩ := Prod.mk.inj hrest
  refine ⟨?_, hstays, hadjacent, htogether, hfresh⟩
  intro d _
  rw [hslice]

theorem even_reach :
    Reach evenStep evenOrderly evenStart (evenState 4) := by
  have hsome : (iterate evenStep 4 evenStart).isSome = true := by
    decide +kernel
  apply reach_iterate hsome
  intro k hk
  match k, hk with
  | 0, _ =>
      exact orderly_of_summary ["begin"] ["each"]
        (by decide +kernel) (by decide +kernel) (by decide) (by decide)
        (by decide +kernel)
  | 1, _ =>
      exact orderly_of_summary ["each"] ["item"]
        (by decide +kernel) (by decide +kernel) (by decide) (by decide)
        (by decide +kernel)
  | 2, _ =>
      exact orderly_of_summary ["item"] ["a", "b"]
        (by decide +kernel) (by decide +kernel) (by decide) (by decide)
        (by decide +kernel)
  | 3, _ =>
      exact orderly_of_summary ["a", "b"] ["item", "item"]
        (by decide +kernel) (by decide +kernel) (by decide) (by decide)
        (by decide +kernel)

/-- The second item is set when `a` and `b` have run for the first. -/
theorem even_roundDone :
    (evenState 4).2.reached = ["a", "b"] ∧ ∃ s' kept,
      invokeBatch (iterationWorld evenDsl "item") evenDsl (evenState 4).1 =
        some (s', kept) ∧ "item" ∈ kept ∧
      RoundDone "item" (bodyOf evenDsl "each" "item") kept
        (evenState 4).2 := by
  have hkept : (invokeBatch (iterationWorld evenDsl "item") evenDsl
      (evenState 4).1).map Prod.snd = some ["item"] := by
    decide +kernel
  obtain ⟨⟨s', kept⟩, hinvoke, rfl⟩ := Option.map_eq_some_iff.mp hkept
  exact ⟨by decide +kernel, s', ["item"], hinvoke, by decide,
    reach_roundDone even_reach (by decide +kernel) hinvoke (by decide)⟩

end RagflowMineru.Agent
