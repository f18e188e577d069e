import Mathlib.Data.List.Nodup
import Mathlib.Data.List.Perm.Subperm
import Mathlib.Data.List.ProdSigma

/-!
# Dropping one item of every conflict

All pairs of items are looked at, and of a pair in conflict one item is dropped,
unless one of the two was dropped before.  What is dropped stays dropped, so in
the end no conflict is left among the others, and since the other item of a
conflict stays when one is dropped, something always remains.
-/

namespace RagflowMineru.Library

variable {α : Type*} (victim : α → α → Option α)

/-- A conflict costs one of its two items. -/
def TakesOneOfTwo (items : List α) : Prop :=
  ∀ a ∈ items, ∀ b ∈ items, a ≠ b → ∀ v ∈ victim a b, v = a ∨ v = b

/-- There is no conflict of the two, or one of them is gone. -/
def Resolved (dropped : List α) (p : α × α) : Prop :=
  p.1 = p.2 ∨ p.1 ∈ dropped ∨ p.2 ∈ dropped ∨ victim p.1 p.2 = none

/-- What the loop keeps. -/
structure DroppedFrom (items dropped : List α) : Prop where
  nodup : dropped.Nodup
  subset : dropped ⊆ items
  remains : items ≠ [] → ∃ a ∈ items, a ∉ dropped

variable {victim} {items dropped : List α} {p : α × α}

theorem droppedFrom_nil (items : List α) : DroppedFrom items [] where
  nodup := List.nodup_nil
  subset := List.nil_subset items
  remains := fun hne => (List.exists_mem_of_ne_nil items hne).imp fun _ ha =>
    ⟨ha, List.not_mem_nil⟩

theorem Resolved.mono {dropped' : List α} (h : Resolved victim dropped p) (hsub : dropped ⊆ dropped') :
    Resolved victim dropped' p := by
  rcases h with heq | hgone | hgone | hnone
  · exact Or.inl heq
  · exact Or.inr (Or.inl (hsub hgone))
  · exact Or.inr (Or.inr (Or.inl (hsub hgone)))
  · exact Or.inr (Or.inr (Or.inr hnone))

variable [DecidableEq α]

variable (victim) in
/-- One pair of the loop. -/
def dropOne (dropped : List α) (p : α × α) : List α :=
  if p.1 = p.2 then dropped
  else if p.1 ∈ dropped ∨ p.2 ∈ dropped then dropped
  else
    match victim p.1 p.2 with
    | none => dropped
    | some v => if v ∈ dropped then dropped else dropped ++ [v]

variable (victim) in
/-- `for a in items: for b in items`. -/
def dropAll (items : List α) : List α :=
  (items.product items).foldl (dropOne victim) []

/-- `items.remove(v)` for everything that was dropped. -/
def removeAll (items dropped : List α) : List α :=
  dropped.foldl List.erase items

/-- A turn drops one of two items that were both there, or leaves all as it was. -/
theorem dropOne_cases (dropped : List α) (h : TakesOneOfTwo victim items) (h₁ : p.1 ∈ items)
    (h₂ : p.2 ∈ items) :
    (Resolved victim dropped p ∧ dropOne victim dropped p = dropped) ∨
      ∃ v w, (v = p.1 ∧ w = p.2 ∨ v = p.2 ∧ w = p.1) ∧ v ≠ w ∧ v ∉ dropped ∧ w ∉ dropped ∧
        dropOne victim dropped p = dropped ++ [v] := by
  unfold dropOne
  split
  · next heq => exact Or.inl ⟨Or.inl heq, rfl⟩
  · next hne =>
    split
    · next hgone =>
      refine Or.inl ⟨Or.inr ?_, rfl⟩
      exact hgone.imp id Or.inl
    · next hgone =>
      obtain ⟨hgone₁, hgone₂⟩ := not_or.1 hgone
      cases hv : victim p.1 p.2 with
      | none => exact Or.inl ⟨Or.inr (Or.inr (Or.inr hv)), rfl⟩
      | some v =>
        rcases h p.1 h₁ p.2 h₂ hne v hv with rfl | rfl
        · exact Or.inr ⟨p.1, p.2, Or.inl ⟨rfl, rfl⟩, hne, hgone₁, hgone₂, if_neg hgone₁⟩
        · exact Or.inr ⟨p.2, p.1, Or.inr ⟨rfl, rfl⟩, Ne.symm hne, hgone₂, hgone₁, if_neg hgone₂⟩

theorem subset_dropOne (dropped : List α) (p : α × α) : dropped ⊆ dropOne victim dropped p := by
  unfold dropOne
  split
  · exact List.Subset.refl _
  · split
    · exact List.Subset.refl _
    · split
      · exact List.Subset.refl _
      · split
        · exact List.Subset.refl _
        · exact List.subset_append_left _ _

theorem settled_dropOne (h : TakesOneOfTwo victim items) (h₁ : p.1 ∈ items) (h₂ : p.2 ∈ items) :
    Resolved victim (dropOne victim dropped p) p := by
  rcases dropOne_cases dropped h h₁ h₂ with ⟨hsettled, heq⟩ | ⟨v, w, hvw, -, -, -, heq⟩
  · rwa [heq]
  · rw [heq]
    rcases hvw with ⟨rfl, -⟩ | ⟨rfl, -⟩
    · exact Or.inr (Or.inl (List.mem_append_right _ (List.mem_singleton_self _)))
    · exact Or.inr (Or.inr (Or.inl (List.mem_append_right _ (List.mem_singleton_self _))))

theorem DroppedFrom.dropOne (hd : DroppedFrom items dropped) (h : TakesOneOfTwo victim items)
    (h₁ : p.1 ∈ items) (h₂ : p.2 ∈ items) : DroppedFrom items (dropOne victim dropped p) := by
  rcases dropOne_cases dropped h h₁ h₂ with ⟨-, heq⟩ | ⟨v, w, hvw, hne, hv, hw, heq⟩
  · rwa [heq]
  · rw [heq]
    have hitems : v ∈ items ∧ w ∈ items := by
      rcases hvw with ⟨rfl, rfl⟩ | ⟨rfl, rfl⟩
      · exact ⟨h₁, h₂⟩
      · exact ⟨h₂, h₁⟩
    refine ⟨hd.nodup.append (List.nodup_singleton v) (by simpa using hv), ?_, fun _ => ?_⟩
    · exact List.append_subset.2 ⟨hd.subset, by simpa using hitems.1⟩
    · refine ⟨w, hitems.2, ?_⟩
      rw [List.mem_append, List.mem_singleton, not_or]
      exact ⟨hw, hne.symm⟩

/-- The whole loop. -/
theorem foldl_dropOne (h : TakesOneOfTwo victim items) {ps : List (α × α)}
    (hps : ∀ p ∈ ps, p.1 ∈ items ∧ p.2 ∈ items) (hd : DroppedFrom items dropped) :
    DroppedFrom items (ps.foldl (dropOne victim) dropped) ∧
      dropped ⊆ ps.foldl (dropOne victim) dropped ∧
      ∀ p ∈ ps, Resolved victim (ps.foldl (dropOne victim) dropped) p := by
  induction ps generalizing dropped with
  | nil => exact ⟨hd, List.Subset.refl _, by simp⟩
  | cons p ps ih =>
    obtain ⟨h₁, h₂⟩ := hps p List.mem_cons_self
    obtain ⟨hrest, hsub, hsettled⟩ :=
      ih (fun q hq => hps q (List.mem_cons_of_mem p hq)) (hd.dropOne h h₁ h₂)
    refine ⟨hrest, List.Subset.trans (subset_dropOne dropped p) hsub, ?_⟩
    intro q hq
    rcases List.mem_cons.1 hq with rfl | hq
    · exact (settled_dropOne h h₁ h₂).mono hsub
    · exact hsettled q hq

theorem dropAll_spec (h : TakesOneOfTwo victim items) :
    DroppedFrom items (dropAll victim items) ∧
      ∀ a ∈ items, ∀ b ∈ items, Resolved victim (dropAll victim items) (a, b) := by
  obtain ⟨hdropped, -, hsettled⟩ :=
    foldl_dropOne h (fun p (hp : p ∈ items.product items) => List.pair_mem_product.1 hp)
      (droppedFrom_nil items)
  exact ⟨hdropped, fun a ha b hb => hsettled (a, b) (List.pair_mem_product.2 ⟨ha, hb⟩)⟩

/-! ## What remains -/

theorem removeAll_eq_diff (items dropped : List α) : removeAll items dropped = items.diff dropped :=
  (List.diff_eq_foldl items dropped).symm

theorem mem_removeAll (hitems : items.Nodup) {a : α} :
    a ∈ removeAll items dropped ↔ a ∈ items ∧ a ∉ dropped := by
  rw [removeAll_eq_diff, hitems.mem_sdiff_iff]

theorem removeAll_append_perm (hd : DroppedFrom items dropped) :
    (removeAll items dropped ++ dropped).Perm items := by
  rw [removeAll_eq_diff]
  exact List.perm_append_comm.trans
    (List.subperm_append_diff_self_of_count_le fun a _ => (hd.nodup.subperm hd.subset).count_le a)

theorem removeAll_nodup (hitems : items.Nodup) : (removeAll items dropped).Nodup := by
  rw [removeAll_eq_diff]
  exact hitems.diff

theorem removeAll_ne_nil (hitems : items.Nodup) (hd : DroppedFrom items dropped)
    (hne : items ≠ []) : removeAll items dropped ≠ [] := by
  obtain ⟨a, ha, hgone⟩ := hd.remains hne
  exact List.ne_nil_of_mem ((mem_removeAll hitems).2 ⟨ha, hgone⟩)

/-- Nothing that remains is in conflict with anything else that remains. -/
theorem victim_eq_none_of_mem (h : TakesOneOfTwo victim items) (hitems : items.Nodup) {a b : α}
    (ha : a ∈ removeAll items (dropAll victim items))
    (hb : b ∈ removeAll items (dropAll victim items)) (hne : a ≠ b) : victim a b = none := by
  obtain ⟨ha, hgone⟩ := (mem_removeAll hitems).1 ha
  obtain ⟨hb, hgone'⟩ := (mem_removeAll hitems).1 hb
  rcases (dropAll_spec h).2 a ha b hb with heq | hmem | hmem | hnone
  · exact absurd heq hne
  · exact absurd hmem hgone
  · exact absurd hmem hgone'
  · exact hnone

end RagflowMineru.Library
