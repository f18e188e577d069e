import RagflowMineru.Agent.IterationItem

/-!
# Collecting the outputs of an iteration body

`output_collation` goes through the components of the body and the declared
outputs of the container, and appends one value to every declared output that
refers to the component at hand.  Its passes form a chain that stops at the
first exception.
-/

namespace RagflowMineru.Agent

open RagflowMineru.Library

/-! ## Chains of passes -/

section Chain

variable {α : Type*} {f : α → Heap → Outcome}

theorem foldl_andThen_of_raised {o : Outcome} (ho : o.raised ≠ none)
    (xs : List α) : xs.foldl (fun o x => o.andThen (f x)) o = o := by
  induction xs with
  | nil => rfl
  | cons x xs ih =>
      have hsame : o.andThen (f x) = o := by
        obtain ⟨h, raised⟩ := o
        cases raised with
        | none => exact absurd rfl ho
        | some message => rfl
      rw [List.foldl_cons, hsame, ih]

/-- A chain goes on behind its first pass exactly when that does not raise. -/
theorem chain_cons_raised_iff {x : α} {xs : List α} {h : Heap} :
    (chain f (x :: xs) h).raised = none ↔
      (f x h).raised = none ∧ (chain f xs (f x h).heap).raised = none := by
  have hcons : chain f (x :: xs) h =
      xs.foldl (fun o x => o.andThen (f x)) (f x h) := rfl
  rw [hcons]
  by_cases hraised : (f x h).raised = none
  · have hok : f x h = { heap := (f x h).heap } := by
      rw [← hraised]
    rw [and_iff_right hraised, hok]
    rfl
  · rw [foldl_andThen_of_raised hraised]
    simp [hraised]

theorem chain_cons_heap {x : α} {xs : List α} {h : Heap}
    (hraised : (f x h).raised = none) :
    (chain f (x :: xs) h).heap = (chain f xs (f x h).heap).heap := by
  have hok : f x h = { heap := (f x h).heap } := by
    rw [← hraised]
  have hcons : chain f (x :: xs) h =
      xs.foldl (fun o x => o.andThen (f x)) (f x h) := rfl
  rw [hcons, hok]
  rfl

/-- The rule for chains.  When `I` is kept by every pass that does not raise,
and decides which passes raise, no pass of the chain raises exactly when none
would in the first heap. -/
theorem chain_raised_iff {I : Heap → Prop} {ok : α → Prop} {xs : List α}
    (hkeep : ∀ x h, I h → (f x h).raised = none → I (f x h).heap)
    (hok : ∀ x ∈ xs, ∀ h, I h → ((f x h).raised = none ↔ ok x))
    {h : Heap} (hI : I h) :
    (chain f xs h).raised = none ↔ ∀ x ∈ xs, ok x := by
  induction xs generalizing h with
  | nil => simp [chain]
  | cons x xs ih =>
      rw [List.forall_mem_cons] at hok
      obtain ⟨hhead, htail⟩ := hok
      rw [chain_cons_raised_iff, List.forall_mem_cons, hhead h hI]
      apply and_congr_right
      intro hx
      exact ih htail (hkeep x h hI ((hhead h hI).mpr hx))

theorem chain_invariant {I : Heap → Prop}
    (hkeep : ∀ x h, I h → (f x h).raised = none → I (f x h).heap)
    {xs : List α} {h : Heap} (hI : I h)
    (hraised : (chain f xs h).raised = none) : I (chain f xs h).heap := by
  induction xs generalizing h with
  | nil => exact hI
  | cons x xs ih =>
      obtain ⟨hx, hrest⟩ := chain_cons_raised_iff.mp hraised
      rw [chain_cons_heap hx]
      exact ih (hkeep x h hI hx) hrest

/-- What every pass keeps is kept even when the chain stops. -/
theorem chain_keeps {I : Heap → Prop}
    (hkeep : ∀ x h, I h → I (f x h).heap) {xs : List α} {h : Heap}
    (hI : I h) : I (chain f xs h).heap := by
  induction xs generalizing h with
  | nil => exact hI
  | cons x xs ih =>
      by_cases hx : (f x h).raised = none
      · rw [chain_cons_heap hx]
        exact ih (hkeep x h hI)
      · have hstop : chain f (x :: xs) h = f x h :=
          foldl_andThen_of_raised hx xs
        rw [hstop]
        exact hkeep x h hI

/-- A quantity that some of the passes raise by one. -/
theorem chain_count {m : Heap → ℕ} {p : α → Bool}
    (hpass : ∀ x h, (f x h).raised = none →
      m (f x h).heap = m h + if p x then 1 else 0)
    {xs : List α} {h : Heap} (hraised : (chain f xs h).raised = none) :
    m (chain f xs h).heap = m h + xs.countP p := by
  induction xs generalizing h with
  | nil => rfl
  | cons x xs ih =>
      obtain ⟨hx, hrest⟩ := chain_cons_raised_iff.mp hraised
      rw [chain_cons_heap hx, ih hrest, hpass x h hx, List.countP_cons]
      omega

end Chain

/-! ## What one collation adds -/

/-- The values collected in the output `k` of the container. -/
def collected (pid : CpnId) (k : String) (h : Heap) : ℕ :=
  match h.output pid k with
  | .list items => items.length
  | _ => 0

/-- Another value can be collected in the output `k`. -/
def Appendable (pid : CpnId) (k : String) (h : Heap) : Prop :=
  (h.output pid k).truthy = true → ∃ items, h.output pid k = .list items

/-- The component that a declared output refers to. -/
def refCpn (ref : String) : Option CpnId :=
  (splitRef ref).map Prod.fst

/-- The component is a part of the body. -/
def inBody (dsl : Dsl) (pid cid : CpnId) : Bool :=
  match dsl.getParent cid with
  | some (some (p, _)) => p = pid
  | _ => false

/-- What one pass leaves alone: the counters, and which named outputs a value
can be collected in. -/
structure SameSlots (pid : CpnId) (h h' : Heap) : Prop where
  idx : ∀ x, (h'.objs x).idx = (h.objs x).idx
  appendable : ∀ k, k ≠ "" → (Appendable pid k h' ↔ Appendable pid k h)

theorem SameSlots.refl (pid : CpnId) (h : Heap) : SameSlots pid h h :=
  ⟨fun _ => rfl, fun _ _ => Iff.rfl⟩

theorem SameSlots.trans {pid : CpnId} {h h' h'' : Heap}
    (h₁ : SameSlots pid h h') (h₂ : SameSlots pid h' h'') :
    SameSlots pid h h'' :=
  ⟨fun x => (h₂.idx x).trans (h₁.idx x),
    fun k hk => (h₂.appendable k hk).trans (h₁.appendable k hk)⟩

theorem collateOutput_raised_iff {pid cid : CpnId} {k ref : String} {h : Heap} :
    (collateOutput pid cid (k, ref) h).raised = none ↔
      ∃ rc, refCpn ref = some rc ∧ (rc = cid → Appendable pid k h) := by
  cases hsplit : splitRef ref with
  | none => simp [collateOutput, refCpn, hsplit]
  | some pair =>
      obtain ⟨rc, var⟩ := pair
      simp only [collateOutput, refCpn, hsplit, Option.map_some,
        Option.some.injEq, exists_eq_left']
      by_cases hrc : rc = cid
      · simp only [hrc, if_true, forall_const, Appendable]
        by_cases htruthy : (h.output pid k).truthy = true
        · simp only [htruthy, if_true, forall_const]
          cases h.output pid k <;> simp
        · simp [htruthy]
      · simp [hrc]

/-- A pass over one declared output that does not raise appends to that output
when it refers to the component at hand, and does nothing else. -/
theorem collateOutput_heap {pid cid : CpnId} {k ref : String} {h : Heap}
    (hraised : (collateOutput pid cid (k, ref) h).raised = none) :
    (refCpn ref ≠ some cid ∧ (collateOutput pid cid (k, ref) h).heap = h) ∨
    (refCpn ref = some cid ∧ Appendable pid k h ∧ ∃ items,
      (collateOutput pid cid (k, ref) h).heap =
        h.setOutput pid k (.list items) ∧
      items.length = collected pid k h + 1) := by
  obtain ⟨rc, href, happend⟩ := collateOutput_raised_iff.mp hraised
  cases hsplit : splitRef ref with
  | none => simp [refCpn, hsplit] at href
  | some pair =>
      obtain ⟨rc', var⟩ := pair
      have hrc' : rc' = rc := by simpa [refCpn, hsplit] using href
      subst hrc'
      by_cases hrc : rc' = cid
      · refine Or.inr ⟨by rw [href, hrc], happend hrc, ?_⟩
        by_cases htruthy : (h.output pid k).truthy = true
        · obtain ⟨items, hitems⟩ := happend hrc htruthy
          refine ⟨items ++ [h.output cid var], ?_, ?_⟩
          · rw [hitems] at htruthy
            simp [collateOutput, hsplit, hrc, hitems, htruthy]
          · simp [collected, hitems]
        · refine ⟨[h.output cid var], ?_, ?_⟩
          · simp [collateOutput, hsplit, hrc, htruthy]
          · have hzero : collected pid k h = 0 := by
              unfold collected
              cases hout : h.output pid k with
              | list items =>
                  rw [hout] at htruthy
                  simpa [Value.truthy] using htruthy
              | _ => rfl
            simp [hzero]
      · refine Or.inl ⟨?_, ?_⟩
        · rw [href]
          simp [hrc]
        · simp [collateOutput, hsplit, hrc]

theorem collateOutput_sameSlots {pid cid : CpnId} {e : String × String}
    {h : Heap} (hraised : (collateOutput pid cid e h).raised = none) :
    SameSlots pid h (collateOutput pid cid e h).heap := by
  obtain ⟨k, ref⟩ := e
  rcases collateOutput_heap hraised with ⟨-, hheap⟩ |
    ⟨-, happend, items, hheap, -⟩
  · rw [hheap]
    exact .refl pid h
  · rw [hheap]
    constructor
    · intro x
      simp
    · intro k' hk'
      by_cases hk : k' = k
      · subst hk
        rw [iff_true_right happend]
        intro _
        exact ⟨items, Heap.output_setOutput_self h hk' pid _⟩
      · simp only [Appendable, Heap.output_setOutput_key h hk hk']

theorem collateOutput_collected {pid cid : CpnId} {k : String} (hk : k ≠ "")
    (e : String × String) (h : Heap)
    (hraised : (collateOutput pid cid e h).raised = none) :
    collected pid k (collateOutput pid cid e h).heap = collected pid k h +
      if decide (e.1 = k) && decide (refCpn e.2 = some cid) then 1 else 0 := by
  obtain ⟨k', ref⟩ := e
  rcases collateOutput_heap hraised with ⟨href, hheap⟩ |
    ⟨href, -, items, hheap, hlength⟩
  · simp [hheap, href]
  · rw [hheap]
    by_cases hk' : k' = k
    · subst hk'
      have hafter : collected pid k' (h.setOutput pid k' (.list items)) =
          items.length := by
        simp [collected, Heap.output_setOutput_self h hk]
      rw [hafter, hlength]
      simp [href]
    · have hsame := Heap.output_setOutput_key h (Ne.symm hk') hk pid
        (.list items)
      simp [collected, hsame, hk']

/-! ## One collation -/

section Collation

variable {dsl : Dsl} {pid : CpnId} {parent : Component}

theorem inBody_iff {cid : CpnId} (hpid : dsl.getComponent pid = some parent) :
    inBody dsl pid cid = true ↔
      dsl.getParent cid = some (some (pid, parent)) := by
  unfold inBody
  constructor
  · intro h
    split at h
    · rename_i p parent' hparent
      have hp : p = pid := by simpa using h
      subst hp
      have hsame := Dsl.getParent_component hparent
      rw [hparent, Option.some.inj (hsame.symm.trans hpid)]
    · simp at h
  · intro h
    rw [h]
    simp

/-- A component outside the body is skipped, and one of the body goes through
the declared outputs. -/
theorem collateComponent_cases (hpid : dsl.getComponent pid = some parent)
    (cid : CpnId) (h : Heap) :
    (dsl.getParent cid = none ∧
      (collateComponent dsl pid cid h).raised ≠ none) ∨
    (dsl.getParent cid ≠ none ∧ inBody dsl pid cid = false ∧
      collateComponent dsl pid cid h = { heap := h }) ∨
    (dsl.getParent cid ≠ none ∧ inBody dsl pid cid = true ∧
      collateComponent dsl pid cid h =
        chain (collateOutput pid cid) parent.outputRefs h) := by
  cases hparent : dsl.getParent cid with
  | none => exact Or.inl ⟨rfl, by simp [collateComponent, hparent]⟩
  | some found =>
      cases found with
      | none =>
          refine Or.inr (Or.inl ⟨by simp, ?_, ?_⟩)
          · simp [inBody, hparent]
          · simp [collateComponent, hparent]
      | some found =>
          obtain ⟨p, parent'⟩ := found
          by_cases hp : p = pid
          · subst hp
            have hsame := Dsl.getParent_component hparent
            obtain rfl : parent' = parent :=
              Option.some.inj (hsame.symm.trans hpid)
            refine Or.inr (Or.inr ⟨by simp, ?_, ?_⟩)
            · simp [inBody, hparent]
            · simp [collateComponent, hparent]
          · refine Or.inr (Or.inl ⟨by simp, ?_, ?_⟩)
            · simp [inBody, hparent, hp]
            · simp [collateComponent, hparent, hp]

theorem ne_empty_of_mem_outputRefs {e : String × String}
    (he : e ∈ parent.outputRefs) : e.1 ≠ "" := by
  intro hempty
  have hnodup := parent.outputRefs_nodup
  rw [List.nodup_cons] at hnodup
  apply hnodup.1
  rw [← hempty]
  exact List.mem_map_of_mem (f := Prod.fst) he

/-- The declared outputs can be collected from a component of the body. -/
def Collects (pid cid : CpnId) (refs : Assoc String String) (h : Heap) : Prop :=
  ∀ e ∈ refs, ∃ rc, refCpn e.2 = some rc ∧ (rc = cid → Appendable pid e.1 h)

theorem chain_collateOutput_raised_iff (cid : CpnId) (h : Heap) :
    (chain (collateOutput pid cid) parent.outputRefs h).raised = none ↔
      Collects pid cid parent.outputRefs h := by
  apply chain_raised_iff (I := SameSlots pid h) _ _ (.refl pid h)
  · intro e h' hsame hraised
    exact hsame.trans (collateOutput_sameSlots hraised)
  · intro e he h' hsame
    rw [collateOutput_raised_iff]
    simp only [hsame.appendable e.1 (ne_empty_of_mem_outputRefs he)]

theorem collateComponent_sameSlots (hpid : dsl.getComponent pid = some parent)
    {cid : CpnId} {h : Heap}
    (hraised : (collateComponent dsl pid cid h).raised = none) :
    SameSlots pid h (collateComponent dsl pid cid h).heap := by
  rcases collateComponent_cases hpid cid h with ⟨-, hfail⟩ | ⟨-, -, hskip⟩ |
    ⟨-, -, hbody⟩
  · exact absurd hraised hfail
  · rw [hskip]
    exact .refl pid h
  · rw [hbody] at hraised ⊢
    apply chain_invariant (I := SameSlots pid h) _ (.refl pid h) hraised
    intro e h' hsame hraised'
    exact hsame.trans (collateOutput_sameSlots hraised')

/-- A collation goes through exactly when every component has a known parent,
every declared reference is well formed, and those into the body lead to
outputs that can take another value. -/
def Collatable (dsl : Dsl) (pid : CpnId) (refs : Assoc String String)
    (h : Heap) : Prop :=
  (∀ cid ∈ dsl.ids, dsl.getParent cid ≠ none) ∧
    ∀ e ∈ refs, ∃ rc, refCpn e.2 = some rc ∧
      (inBody dsl pid rc = true → Appendable pid e.1 h)

theorem outputCollation_raised_iff (hpid : dsl.getComponent pid = some parent)
    {c : CpnId} (hc : inBody dsl pid c = true) (h : Heap) :
    (outputCollation dsl pid h).raised = none ↔
      Collatable dsl pid parent.outputRefs h := by
  have hrule : (outputCollation dsl pid h).raised = none ↔
      ∀ cid ∈ dsl.ids, dsl.getParent cid ≠ none ∧
        (inBody dsl pid cid = true →
          Collects pid cid parent.outputRefs h) := by
    apply chain_raised_iff (I := SameSlots pid h) _ _ (.refl pid h)
    · intro cid h' hsame hraised
      exact hsame.trans (collateComponent_sameSlots hpid hraised)
    · intro cid hcid h' hsame
      rcases collateComponent_cases hpid cid h' with ⟨hnone, hfail⟩ |
        ⟨hsome, hout, hskip⟩ | ⟨hsome, hin, hbody⟩
      · simp [hnone, hfail]
      · simp [hsome, hout, hskip]
      · rw [hbody, chain_collateOutput_raised_iff]
        simp only [ne_eq, hsome, not_false_eq_true, hin, forall_const,
          true_and]
        constructor
        · intro hcollects e he
          have hname := ne_empty_of_mem_outputRefs he
          simpa only [hsame.appendable e.1 hname] using hcollects e he
        · intro hcollects e he
          have hname := ne_empty_of_mem_outputRefs he
          simpa only [hsame.appendable e.1 hname] using hcollects e he
  have hmem : ∀ cid, inBody dsl pid cid = true → cid ∈ dsl.ids := by
    intro cid hcid
    exact Dsl.mem_ids_of_getParent ((inBody_iff hpid).mp hcid)
  rw [hrule]
  constructor
  · intro hall
    refine ⟨fun cid hcid => (hall cid hcid).1, ?_⟩
    intro e he
    obtain ⟨rc, href, -⟩ := (hall c (hmem c hc)).2 hc e he
    refine ⟨rc, href, ?_⟩
    intro hrc
    obtain ⟨rc', href', happend⟩ := (hall rc (hmem rc hrc)).2 hrc e he
    obtain rfl : rc' = rc := Option.some.inj (href'.symm.trans href)
    exact happend rfl
  · rintro ⟨hparents, hrefs⟩ cid hcid
    refine ⟨hparents cid hcid, ?_⟩
    intro hin e he
    obtain ⟨rc, href, happend⟩ := hrefs e he
    refine ⟨rc, href, ?_⟩
    rintro rfl
    exact happend hin

/-- A collation adds one value to every declared output that refers into the
body. -/
theorem outputCollation_collected (hpid : dsl.getComponent pid = some parent)
    {h : Heap} (hraised : (outputCollation dsl pid h).raised = none)
    {k ref : String} (he : (k, ref) ∈ parent.outputRefs) :
    collected pid k (outputCollation dsl pid h).heap = collected pid k h +
      if (refCpn ref).any (inBody dsl pid) then 1 else 0 := by
  have hk : k ≠ "" := ne_empty_of_mem_outputRefs he
  have hkeys : (Assoc.keys parent.outputRefs).Nodup :=
    (List.nodup_cons.mp parent.outputRefs_nodup).2
  have hpass : ∀ cid h, (collateComponent dsl pid cid h).raised = none →
      collected pid k (collateComponent dsl pid cid h).heap =
        collected pid k h +
          if inBody dsl pid cid && decide (refCpn ref = some cid)
            then 1 else 0 := by
    intro cid h hraised
    rcases collateComponent_cases hpid cid h with ⟨-, hfail⟩ |
      ⟨-, hout, hskip⟩ | ⟨-, hin, hbody⟩
    · exact absurd hraised hfail
    · simp [hskip, hout]
    · rw [hbody] at hraised ⊢
      rw [chain_count (collateOutput_collected hk) hraised,
        Assoc.countP_key hkeys he (fun ref => decide (refCpn ref = some cid)),
        hin]
      simp
  have htotal := chain_count hpass hraised
  rw [outputCollation, htotal]
  congr 1
  cases href : refCpn ref with
  | none => simp
  | some rc =>
      by_cases hrc : inBody dsl pid rc = true
      · have hmem : rc ∈ dsl.ids :=
          Dsl.mem_ids_of_getParent ((inBody_iff hpid).mp hrc)
        have hone : dsl.ids.countP (fun cid =>
            inBody dsl pid cid && decide (some rc = some cid)) =
            dsl.ids.count rc := by
          rw [List.count_eq_countP]
          apply List.countP_congr
          intro cid _
          simp only [Bool.and_eq_true, decide_eq_true_eq, Option.some.injEq,
            beq_iff_eq]
          constructor
          · rintro ⟨-, rfl⟩
            rfl
          · rintro rfl
            exact ⟨hrc, rfl⟩
        rw [hone, List.count_eq_one_of_mem dsl.nodup_ids hmem]
        simp [hrc]
      · rw [List.countP_eq_zero.mpr]
        · simp [hrc]
        · rintro cid - hboth
          simp only [Bool.and_eq_true, decide_eq_true_eq,
            Option.some.injEq] at hboth
          obtain ⟨hin, rfl⟩ := hboth
          exact hrc hin

theorem collateOutput_idx (pid cid x : CpnId) (e : String × String)
    (h : Heap) :
    ((collateOutput pid cid e h).heap.objs x).idx = (h.objs x).idx := by
  obtain ⟨k, ref⟩ := e
  cases hsplit : splitRef ref with
  | none => simp [collateOutput, hsplit]
  | some pair =>
      simp only [collateOutput, hsplit]
      split_ifs
      · cases h.output pid k <;> simp
      · simp
      · rfl

/-- A collation writes outputs only, also when it raises. -/
theorem outputCollation_idx (dsl : Dsl) (pid x : CpnId) (h : Heap) :
    ((outputCollation dsl pid h).heap.objs x).idx = (h.objs x).idx := by
  apply chain_keeps (I := fun h' => (h'.objs x).idx = (h.objs x).idx) _ rfl
  intro cid h' hsame
  unfold collateComponent
  cases dsl.getParent cid with
  | none => exact hsame
  | some found =>
      cases found with
      | none => exact hsame
      | some found =>
          simp only
          split
          · apply chain_keeps
              (I := fun h' => (h'.objs x).idx = (h.objs x).idx) _ hsame
            intro e h'' hsame'
            rw [collateOutput_idx, hsame']
          · exact hsame

end Collation

end RagflowMineru.Agent
