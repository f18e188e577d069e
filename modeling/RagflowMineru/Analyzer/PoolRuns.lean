import RagflowMineru.Analyzer.Pool

/-!
# The pool over whole runs

Every instance is in one place at a time, the counter keeps to its bounds, and `Close`
closes every instance once.
-/

namespace RagflowMineru.Analyzer

open RagflowMineru.Library

namespace Pool

variable {c : PoolConfig} {s t : Pool} {g k : ℕ} {st : Stage} {answer : Bool}

/-! ## What always holds -/

/-- Every instance that has been made is in one place.  The counter covers the instances
and stays within its bounds; `kept` also counts what the shrink loop is about to take
off. -/
structure Sound (c : PoolConfig) (s : Pool) : Prop where
  custody : ∀ k, s.custody k = if k < s.created then 1 else 0
  size : s.size ≤ s.currentSize
  exact : s.initialized = true → s.size = s.currentSize
  bounded : s.currentSize ≤ c.maxSize
  kept : c.minSize + s.shrink.plan ≤ s.currentSize + s.failures
  calls : s.calls.All (Stage.Ok c)
  shrink : s.closing ≠ .opened → s.closing ≠ .flagged → s.shrink = .idle
  drained : s.closing = .closed → s.instances = []

theorem custody_count_range (n k : ℕ) :
    ((List.range n).count k : ℤ) = if k < n then 1 else 0 := by
  by_cases hk : k < n
  · rw [if_pos hk, List.count_eq_one_of_mem List.nodup_range (List.mem_range.mpr hk)]
    rfl
  · rw [if_neg hk, List.count_eq_zero_of_not_mem (by simpa using hk)]
    rfl

theorem size_init (c : PoolConfig) : (init c).size = c.minSize := by
  have hpos := c.pos
  rw [Pool.size]
  change ((List.range c.minSize.toNat).length : ℤ) + Table.total Stage.weight Table.empty + 0 = _
  rw [Table.total_empty, List.length_range]
  omega

theorem sound_init (c : PoolConfig) : (init c).Sound c where
  custody k := by
    have hcalls : (init c).calls.total (Stage.holds k) = 0 := Table.total_empty _
    rw [Pool.custody, hcalls]
    change ((List.range c.minSize.toNat).count k : ℤ) + 0 + 0 + 0 + 0 = _
    rw [custody_count_range]
    simp only [add_zero]
    rfl
  size := (size_init c).le
  exact _ := size_init c
  bounded := c.le
  kept := by simp [init, Shrink.plan]
  calls := Table.all_empty _
  shrink _ _ := rfl
  drained h := nomatch h

/-- A call that is counted leaves room in the channel. -/
theorem Sound.room (hs : s.Sound c) (h : s.calls.get? g = some st) (hweight : st.weight = 1) :
    (s.instances.length : ℤ) < c.maxSize := by
  obtain ⟨hg, rfl⟩ := Table.get?_eq_some_iff.mp h
  have hrow := Table.row_le_total Stage.weight_nonneg hg
  have hsize := hs.size
  have hbounded := hs.bounded
  have hshrink := s.shrink.weight_nonneg
  rw [Pool.size] at hsize
  omega

/-- The channel is closed after the flag has gone down. -/
theorem initialized_of_channelClosed (h : s.channelClosed = true) : s.initialized = false := by
  rw [channelClosed, decide_eq_true_eq] at h
  rw [initialized, decide_eq_false_iff_not]
  obtain h | h := h <;> rw [h] <;> exact Closing.noConfusion

theorem Effect.frame (heffect : Effect c s g st t) :
    t.closing = s.closing ∧ t.shrink = s.shrink ∧ (s.closing = .closed → s.instances = [] →
      t.instances = []) := by
  cases heffect with
  | takes held weight instances =>
      exact ⟨rfl, rfl, fun _ hnil => by rw [instances] at hnil; cases hnil⟩
  | returns stage opened =>
      refine ⟨rfl, rfl, fun hclosed _ => ?_⟩
      rw [channelClosed, hclosed] at opened
      exact absurd opened (by decide)
  | moves _ _ _ _ => exact ⟨rfl, rfl, fun _ hnil => hnil⟩
  | leaves _ _ => exact ⟨rfl, rfl, fun _ hnil => hnil⟩
  | panics _ _ _ _ => exact ⟨rfl, rfl, fun _ hnil => hnil⟩
  | reserves _ _ _ => exact ⟨rfl, rfl, fun _ hnil => hnil⟩
  | creates _ _ => exact ⟨rfl, rfl, fun _ hnil => hnil⟩
  | fails _ _ => exact ⟨rfl, rfl, fun _ hnil => hnil⟩
  | closes _ _ _ => exact ⟨rfl, rfl, fun _ hnil => hnil⟩
  | loses _ _ => exact ⟨rfl, rfl, fun _ hnil => hnil⟩

/-- What a call does to the counter, and to the stages of the calls. -/
theorem Effect.counter (heffect : Effect c s g st t) (hs : s.Sound c) :
    t.currentSize ≤ c.maxSize ∧ s.currentSize + s.failures ≤ t.currentSize + t.failures ∧
      t.calls.All (Stage.Ok c) := by
  have hgoto : ∀ {st' : Stage}, st'.Ok c → (s.calls.update g fun _ => st').All (Stage.Ok c) :=
    fun hok => (Table.all_update_iff hs.calls g _).mpr fun _ => hok
  have hfinish : (s.calls.delete g).All (Stage.Ok c) := hs.calls.delete g
  have hbounded := hs.bounded
  cases heffect with
  | moves _ _ ok _ => exact ⟨hbounded, le_rfl, hgoto ok⟩
  | leaves _ _ => exact ⟨hbounded, le_rfl, hfinish⟩
  | takes _ _ _ => exact ⟨hbounded, le_rfl, hgoto trivial⟩
  | panics _ _ _ _ => exact ⟨hbounded, le_rfl, hfinish⟩
  | reserves _ _ room =>
      refine ⟨?_, ?_, hgoto trivial⟩
      · simp only [goto]
        omega
      · simp only [goto]
        omega
  | creates _ _ => exact ⟨hbounded, le_rfl, hgoto trivial⟩
  | fails _ _ =>
      refine ⟨?_, ?_, hfinish⟩
      · simp only [finish]
        omega
      · simp only [finish]
        omega
  | closes _ _ _ => exact ⟨hbounded, le_rfl, hfinish⟩
  | loses _ _ => exact ⟨hbounded, le_rfl, hfinish⟩
  | returns _ _ => exact ⟨hbounded, le_rfl, hfinish⟩

theorem Sound.effect (hs : s.Sound c) (h : s.calls.get? g = some st)
    (heffect : Effect c s g st t) : t.Sound c := by
  obtain ⟨hclosing, hshrink, hdrained⟩ := heffect.frame
  obtain ⟨hbounded, hkept, hcalls⟩ := heffect.counter hs
  have hcustody := heffect.custody h
  have hsize := heffect.size h
  have hinitialized : t.initialized = s.initialized := by rw [initialized, initialized, hclosing]
  refine ⟨fun k => ?_, ?_, fun hopen => ?_, hbounded, ?_, hcalls, ?_, ?_⟩
  · have := hcustody k
    have := hs.custody k
    omega
  · have := hs.size
    omega
  · rw [hinitialized] at hopen
    have := hs.exact hopen
    obtain heq | ⟨hdown, -⟩ := hsize
    · omega
    · rw [hdown] at hopen
      cases hopen
  · rw [hshrink]
    have := hs.kept
    omega
  · rw [hclosing, hshrink]
    exact hs.shrink
  · rw [hclosing]
    exact fun hc => hdrained hc (hs.drained hc)

theorem Sound.call (hs : s.Sound c) (hg : g ∉ s.calls.keys) :
    ({ s with calls := s.calls.insert g .checking } : Pool).Sound c := by
  have htotal : ∀ f : Stage → ℤ, f .checking = 0 →
      (s.calls.insert g .checking).total f = s.calls.total f := fun f hf => by
    rw [Table.total_insert f hg, hf, add_zero]
  have hholds : ∀ k, Stage.holds k .checking = 0 := fun k => Stage.holds_of_held_none rfl k
  refine ⟨fun k => ?_, ?_, fun hopen => ?_, hs.bounded, hs.kept, hs.calls.insert g trivial,
    hs.shrink, hs.drained⟩
  · simp only [Pool.custody, htotal _ (hholds k)]
    exact hs.custody k
  · simp only [Pool.size, htotal Stage.weight rfl]
    exact hs.size
  · simp only [Pool.size, htotal Stage.weight rfl]
    exact hs.exact hopen

/-! ## The shrink loop and `Close` -/

/-- A step that leaves the calls and the counting alone. -/
theorem Sound.of_same (hs : s.Sound c) (hcalls : t.calls = s.calls)
    (hcreated : t.created = s.created) (hfailures : t.failures = s.failures)
    (hclosing : t.closing = s.closing)
    (hcustody : ∀ k, t.custody k = s.custody k)
    (hsize : t.currentSize - t.size = s.currentSize - s.size)
    (hbounded : t.currentSize ≤ s.currentSize)
    (hkept : c.minSize + t.shrink.plan ≤ t.currentSize + s.failures)
    (hshrink : s.closing ≠ .opened → s.closing ≠ .flagged → t.shrink = .idle)
    (hdrained : s.closing = .closed → t.instances = []) : t.Sound c := by
  have hinitialized : t.initialized = s.initialized := by rw [initialized, initialized, hclosing]
  refine ⟨fun k => ?_, ?_, fun hopen => ?_, hbounded.trans hs.bounded, ?_, hcalls ▸ hs.calls,
    hclosing ▸ hshrink, hclosing ▸ hdrained⟩
  · rw [hcustody, hcreated]
    exact hs.custody k
  · have := hs.size
    omega
  · rw [hinitialized] at hopen
    have := hs.exact hopen
    omega
  · rw [hfailures]
    exact hkept

theorem Sound.advanceShrink (hs : s.Sound c)
    (hstep : s.advanceShrink c answer s.shrink = some t) : t.Sound c := by
  have hrunning : s.shrink ≠ .idle → s.closing ≠ .opened → s.closing ≠ .flagged → False :=
    fun hne h h' => hne (hs.shrink h h')
  have hnotClosed : s.shrink ≠ .idle → s.closing ≠ .closed := fun hne hc =>
    hrunning hne (by rw [hc]; exact Closing.noConfusion) (by rw [hc]; exact Closing.noConfusion)
  have hkept := hs.kept
  cases hsh : s.shrink with
  | idle =>
      rw [hsh] at hstep
      cases hstep
  | loading =>
      rw [hsh] at hstep hrunning hnotClosed hkept
      rw [Shrink.plan] at hkept
      rw [Pool.advanceShrink] at hstep
      split at hstep <;> cases hstep
      · exact hs.of_same rfl rfl rfl rfl (fun k => by simp [Pool.custody, hsh, Shrink.holds])
          (by simp [Pool.size, hsh, Shrink.weight]) le_rfl hkept (fun _ _ => rfl) hs.drained
      · refine hs.of_same rfl rfl rfl rfl (fun k => by simp [Pool.custody, hsh, Shrink.holds])
          (by simp [Pool.size, hsh, Shrink.weight]) le_rfl ?_
          (fun h h' => (hrunning Shrink.noConfusion h h').elim) hs.drained
        simp only [Shrink.plan, List.length_nil]
        omega
  | collecting left toRemove =>
      rw [hsh] at hstep hrunning hnotClosed hkept
      rw [Shrink.plan] at hkept
      cases left with
      | zero =>
          cases toRemove with
          | nil =>
              cases hstep
              refine hs.of_same rfl rfl rfl rfl (fun k => by simp [Pool.custody, hsh, Shrink.holds])
                (by simp [Pool.size, hsh, Shrink.weight]) le_rfl ?_ (fun _ _ => rfl) hs.drained
              simpa [Shrink.plan] using hkept
          | cons k rest =>
              cases hstep
              refine hs.of_same rfl rfl rfl rfl (fun k => by simp [Pool.custody, hsh, Shrink.holds])
                (by simp [Pool.size, hsh, Shrink.weight]) le_rfl ?_
                (fun h h' => (hrunning Shrink.noConfusion h h').elim) hs.drained
              simpa [Shrink.plan] using hkept
      | succ left =>
          rw [Pool.advanceShrink] at hstep
          split at hstep <;> cases hstep
          · refine hs.of_same rfl rfl rfl rfl (fun k => by simp [Pool.custody, hsh, Shrink.holds])
              (by simp [Pool.size, hsh, Shrink.weight]) le_rfl ?_
              (fun h h' => (hrunning Shrink.noConfusion h h').elim) hs.drained
            simp only [Shrink.plan]
            push_cast at hkept
            omega
          · rename_i k rest hinstances
            refine hs.of_same rfl rfl rfl rfl (fun k' => ?_) ?_ le_rfl ?_
              (fun h h' => (hrunning Shrink.noConfusion h h').elim)
              (fun hc => absurd hc (hnotClosed Shrink.noConfusion))
            · simp only [Pool.custody, hsh, Shrink.holds, hinstances, count_cons]
              omega
            · simp only [Pool.size, hsh, Shrink.weight, hinstances, List.length_cons]
              omega
            · simp only [Shrink.plan]
              push_cast at hkept
              omega
  | judging k left toRemove =>
      rw [hsh] at hstep hrunning hnotClosed hkept
      rw [Shrink.plan] at hkept
      rw [Pool.advanceShrink] at hstep
      split at hstep <;> cases hstep
      · refine hs.of_same rfl rfl rfl rfl (fun k' => ?_) ?_ le_rfl ?_
          (fun h h' => (hrunning Shrink.noConfusion h h').elim) hs.drained
        · simp only [Pool.custody, hsh, Shrink.holds, count_append_singleton]
          omega
        · simp only [Pool.size, hsh, Shrink.weight, List.length_append, List.length_singleton]
          omega
        · simp only [Shrink.plan, List.length_append, List.length_singleton]
          omega
      · refine hs.of_same rfl rfl rfl rfl (fun k' => ?_) ?_ le_rfl ?_
          (fun h h' => (hrunning Shrink.noConfusion h h').elim) (fun hc => absurd hc (hnotClosed Shrink.noConfusion))
        · simp only [Pool.custody, hsh, Shrink.holds, count_append_singleton]
          omega
        · simp only [Pool.size, hsh, Shrink.weight, List.length_append, List.length_singleton]
          omega
        · simp only [Shrink.plan]
          omega
  | closing rest removed =>
      rw [hsh] at hstep hrunning hnotClosed hkept
      rw [Shrink.plan] at hkept
      cases rest with
      | nil =>
          cases hstep
          refine hs.of_same rfl rfl rfl rfl (fun k' => ?_) ?_ ?_ ?_ (fun _ _ => rfl) hs.drained
          · simp [Pool.custody, hsh, Shrink.holds]
          · simp only [Pool.size, hsh, Shrink.weight]
            omega
          · simp
          · simp only [Shrink.plan]
            omega
      | cons k rest =>
          cases hstep
          refine hs.of_same rfl rfl rfl rfl (fun k' => ?_) ?_ le_rfl hkept
            (fun h h' => (hrunning Shrink.noConfusion h h').elim) hs.drained
          · simp only [Pool.custody, close, hsh, Shrink.holds, count_cons]
            omega
          · simp only [Pool.size, close, hsh, Shrink.weight]

theorem Sound.advanceClose (hs : s.Sound c) (hstep : s.advanceClose s.closing = some t) :
    t.Sound c := by
  have hdown {b : Prop} (h : false = true) : b := absurd h Bool.false_ne_true
  cases hclosing : s.closing with
  | opened =>
      rw [hclosing] at hstep
      cases hstep
      exact ⟨hs.custody, hs.size, hdown, hs.bounded, hs.kept, hs.calls, fun _ h => absurd rfl h,
        Closing.noConfusion⟩
  | flagged =>
      rw [hclosing, Pool.advanceClose] at hstep
      split at hstep <;> cases hstep
      rename_i hidle
      exact ⟨hs.custody, hs.size, hdown, hs.bounded, hs.kept, hs.calls, fun _ _ => hidle,
        Closing.noConfusion⟩
  | stopped =>
      have hidle := hs.shrink (by rw [hclosing]; exact Closing.noConfusion)
        (by rw [hclosing]; exact Closing.noConfusion)
      rw [hclosing] at hstep
      cases hstep
      exact ⟨hs.custody, hs.size, hdown, hs.bounded, hs.kept, hs.calls, fun _ _ => hidle,
        Closing.noConfusion⟩
  | draining =>
      have hidle := hs.shrink (by rw [hclosing]; exact Closing.noConfusion)
        (by rw [hclosing]; exact Closing.noConfusion)
      rw [hclosing, Pool.advanceClose] at hstep
      split at hstep <;> cases hstep
      · rename_i k rest hinstances
        refine ⟨fun k' => ?_, ?_, fun hopen => ?_, hs.bounded, hs.kept, hs.calls, fun _ _ => hidle,
          fun hc => ?_⟩
        · refine Eq.trans ?_ (hs.custody k')
          simp only [Pool.custody, close, hinstances, count_cons]
          omega
        · have hsize := hs.size
          simp only [Pool.size, hinstances, List.length_cons] at hsize
          simp only [Pool.size, close]
          omega
        · rw [initialized] at hopen
          simp [close, hclosing] at hopen
        · simp [close, hclosing] at hc
      · rename_i hinstances
        exact ⟨hs.custody, hs.size, hdown, hs.bounded, hs.kept, hs.calls, fun _ _ => hidle,
          fun _ => hinstances⟩
  | closed =>
      rw [hclosing] at hstep
      cases hstep

theorem Sound.step {i : Input} (hs : s.Sound c) (hstep : s.step c i = some t) : t.Sound c := by
  cases i with
  | call g =>
      rw [Pool.step] at hstep
      split at hstep <;> cases hstep
      rename_i hg
      exact hs.call hg
  | proceed g answer =>
      obtain ⟨st, hst, hadvance⟩ := Option.bind_eq_some_iff.mp hstep
      have hok : st.Ok c := by
        obtain ⟨hg, rfl⟩ := Table.get?_eq_some_iff.mp hst
        exact hs.calls g hg
      exact hs.effect hst (effect_of_advance hok (hs.room hst) hadvance)
  | tick =>
      rw [Pool.step] at hstep
      split at hstep <;> cases hstep
      rename_i hidle hopened
      have hkept := hs.kept
      rw [hidle, Shrink.plan] at hkept
      exact hs.of_same rfl rfl rfl rfl (fun k => by simp [Pool.custody, hidle, Shrink.holds])
        (by simp [Pool.size, hidle, Shrink.weight]) le_rfl hkept (fun h => absurd hopened h)
        hs.drained
  | shrink answer => exact hs.advanceShrink hstep
  | close => exact hs.advanceClose hstep

/-! ## Every run -/

/-- The states of all runs. -/
abbrev Reached (c : PoolConfig) (s : Pool) : Prop := Driven (step c) (fun _ _ => True) (init c) s

theorem sound_of_reached (hs : Reached c s) : s.Sound c :=
  hs.invariant (sound_init c) fun _ _ _ hs _ hstep => hs.step hstep

/-- A call has the instance `k` in its hands. -/
def Uses (s : Pool) (g k : ℕ) : Prop := ∃ st, s.calls.get? g = some st ∧ st.held = some k

/-- An instance is in the hands of one call, or in the channel, or closed. -/
structure Exclusive (s : Pool) : Prop where
  one_user : ∀ k g g', s.Uses g k → s.Uses g' k → g = g'
  not_pooled : ∀ k g, s.Uses g k → k ∉ s.instances
  not_closed : ∀ k g, s.Uses g k → k ∉ s.closed
  pooled_open : ∀ k ∈ s.instances, k ∉ s.closed
  pooled_once : s.instances.Nodup
  closed_once : s.closed.Nodup

theorem Sound.custody_le (hs : s.Sound c) (k : ℕ) : s.custody k ≤ 1 := by
  rw [hs.custody]
  split <;> omega

theorem uses_iff {g k : ℕ} : s.Uses g k ↔ g ∈ s.calls.keys ∧ (s.calls.row g).holds k = 1 := by
  rw [Uses]
  constructor
  · rintro ⟨st, hst, hheld⟩
    obtain ⟨hg, rfl⟩ := Table.get?_eq_some_iff.mp hst
    exact ⟨hg, by rw [Stage.holds_of_held hheld, if_pos rfl]⟩
  · rintro ⟨hg, hone⟩
    refine ⟨_, Table.get?_eq_some_iff.mpr ⟨hg, rfl⟩, ?_⟩
    by_contra hnot
    rw [Stage.holds, if_neg hnot] at hone
    cases hone

theorem Uses.le_total (h : s.Uses g k) : 1 ≤ s.calls.total (Stage.holds k) := by
  obtain ⟨hg, hone⟩ := uses_iff.mp h
  exact hone ▸ Table.row_le_total (Stage.holds_nonneg k) hg

theorem one_le_count {l : List ℕ} (h : k ∈ l) : (1 : ℤ) ≤ l.count k := by
  exact_mod_cast List.count_pos_iff.mpr h

/-- As long as the pool is open the counter is the number of instances and of those about
to be made; it never passes `MaxSize`, only failed creations take it below `MinSize`, and
no call finds the channel full when it puts its instance back. -/
structure Sized (c : PoolConfig) (s : Pool) : Prop where
  counted : s.initialized = true → s.currentSize = s.size
  bounded : s.currentSize ≤ c.maxSize
  kept : c.minSize ≤ s.currentSize + s.failures
  neverFull : ∀ g k, s.calls.get? g ≠ some (.overflowing k)

/-- The channel is closed only when no call is at it. -/
def Careful (s : Pool) : Input → Prop
  | .close => s.closing = .stopped → s.calls.All fun st => st.atChannel = false
  | _ => True

/-- Nobody has panicked, and nobody will. -/
structure Orderly (s : Pool) : Prop where
  panics : s.panics = 0
  lost : s.lost = []
  away : s.channelClosed = true → s.calls.All fun st => st.atChannel = false

theorem Orderly.effect (ho : s.Orderly) (h : s.calls.get? g = some st)
    (heffect : Effect c s g st t) : t.Orderly := by
  obtain ⟨hg, hrow⟩ := Table.get?_eq_some_iff.mp h
  have haway : s.channelClosed = true → st.atChannel = false := fun hc => hrow ▸ ho.away hc g hg
  have hgoto : ∀ {st' : Stage}, (st'.atChannel = true → s.initialized = true ∨ st.atChannel = true) →
      s.channelClosed = true →
        (s.calls.update g fun _ => st').All fun st => st.atChannel = false := by
    intro st' hentry hc
    refine (Table.all_update_iff (ho.away hc) g _).mpr fun _ => ?_
    cases hat : st'.atChannel with
    | false => rfl
    | true =>
        obtain hopen | hold := hentry hat
        · rw [initialized_of_channelClosed hc] at hopen
          cases hopen
        · rw [haway hc] at hold
          cases hold
  have hfinish : s.channelClosed = true →
      (s.calls.delete g).All fun st => st.atChannel = false := fun hc => (ho.away hc).delete g
  cases heffect with
  | moves _ _ _ entry => exact ⟨ho.panics, ho.lost, hgoto entry⟩
  | leaves _ _ => exact ⟨ho.panics, ho.lost, hfinish⟩
  | takes _ _ _ => exact ⟨ho.panics, ho.lost, hgoto nofun⟩
  | panics _ _ stage closed =>
      have hnot := haway closed
      obtain rfl | rfl := stage <;> cases hnot
  | reserves _ _ _ => exact ⟨ho.panics, ho.lost, hgoto nofun⟩
  | creates _ _ => exact ⟨ho.panics, ho.lost, hgoto nofun⟩
  | fails _ _ => exact ⟨ho.panics, ho.lost, hfinish⟩
  | closes _ _ _ => exact ⟨ho.panics, ho.lost, hfinish⟩
  | loses stage closed =>
      have hnot := haway closed
      subst stage
      cases hnot
  | returns _ _ => exact ⟨ho.panics, ho.lost, hfinish⟩

theorem orderly_advanceShrink (ho : s.Orderly) {sh : Shrink}
    (hstep : s.advanceShrink c answer sh = some t) : t.Orderly := by
  have hsame : t.panics = s.panics ∧ t.lost = s.lost ∧ t.closing = s.closing ∧
      t.calls = s.calls := by
    cases sh with
    | idle => cases hstep
    | loading =>
        rw [advanceShrink] at hstep
        split at hstep <;> cases hstep <;> exact ⟨rfl, rfl, rfl, rfl⟩
    | collecting left toRemove =>
        cases left with
        | zero => cases toRemove <;> cases hstep <;> exact ⟨rfl, rfl, rfl, rfl⟩
        | succ left =>
            rw [advanceShrink] at hstep
            split at hstep <;> cases hstep <;> exact ⟨rfl, rfl, rfl, rfl⟩
    | judging k left toRemove =>
        rw [advanceShrink] at hstep
        split at hstep <;> cases hstep <;> exact ⟨rfl, rfl, rfl, rfl⟩
    | closing rest removed => cases rest <;> cases hstep <;> exact ⟨rfl, rfl, rfl, rfl⟩
  obtain ⟨hpanics, hlost, hclosing, hcalls⟩ := hsame
  refine ⟨hpanics ▸ ho.panics, hlost ▸ ho.lost, ?_⟩
  rw [hcalls, channelClosed, hclosing]
  exact ho.away

theorem Orderly.step {i : Input} (hs : s.Sound c) (ho : s.Orderly) (hcareful : s.Careful i)
    (hstep : s.step c i = some t) : t.Orderly := by
  cases i with
  | call g =>
      rw [Pool.step] at hstep
      split at hstep <;> cases hstep
      exact ⟨ho.panics, ho.lost, fun hc => (ho.away hc).insert g rfl⟩
  | proceed g answer =>
      obtain ⟨st, hst, hadvance⟩ := Option.bind_eq_some_iff.mp hstep
      have hok : st.Ok c := by
        obtain ⟨hg, rfl⟩ := Table.get?_eq_some_iff.mp hst
        exact hs.calls g hg
      exact ho.effect hst (effect_of_advance hok (hs.room hst) hadvance)
  | tick =>
      rw [Pool.step] at hstep
      split at hstep <;> cases hstep
      exact ⟨ho.panics, ho.lost, ho.away⟩
  | shrink answer => exact orderly_advanceShrink ho hstep
  | close =>
      rw [Pool.step] at hstep
      cases hclosing : s.closing with
      | opened =>
          rw [hclosing] at hstep
          cases hstep
          exact ⟨ho.panics, ho.lost, nofun⟩
      | flagged =>
          rw [hclosing, advanceClose] at hstep
          split at hstep <;> cases hstep
          exact ⟨ho.panics, ho.lost, nofun⟩
      | stopped =>
          rw [hclosing] at hstep
          cases hstep
          exact ⟨ho.panics, ho.lost, fun _ => hcareful hclosing⟩
      | draining =>
          have haway := ho.away (by rw [channelClosed, hclosing]; decide)
          rw [hclosing, advanceClose] at hstep
          split at hstep <;> cases hstep
          · exact ⟨ho.panics, ho.lost, fun _ => haway⟩
          · exact ⟨ho.panics, ho.lost, fun _ => haway⟩
      | closed =>
          rw [hclosing] at hstep
          cases hstep

/-- One instance at first, and two at most. -/
def smallPool : PoolConfig := .init 1 1 2

/-- The first call takes the instance, the second one makes another. -/
def twoCalls : List Input :=
  [.call 0, .proceed 0 true, .proceed 0 true, .call 1] ++ .replicate 5 (.proceed 1 true)

/-- Both calls give their instances back, one of them after `Close` has started. -/
def twoCallsAndClose : List Input :=
  twoCalls ++ .replicate 3 (.proceed 0 true) ++ [.proceed 1 true, .close, .proceed 1 true] ++
    .replicate 4 .close

instance decidableCareful (s : Pool) : (i : Input) → Decidable (s.Careful i)
  | .close => inferInstanceAs (Decidable (s.closing = .stopped →
      ∀ g ∈ s.calls.keys, (s.calls.row g).atChannel = false))
  | .call _ | .proceed _ _ | .tick | .shrink _ => .isTrue trivial

end Pool

end RagflowMineru.Analyzer
