import Mathlib.Data.List.Induction
import Mathlib.Data.List.Nodup
import Mathlib.Order.Defs.LinearOrder
import Mathlib.Tactic.SplitIfs
import Mathlib.Order.Lattice

/-!
# A stack that pops once

Items are put on a stack that should decrease.  An item that is greater than the
top takes its place, but what is below the top stays even if it is smaller.  The
stack decreases in the end exactly if every item that some later one exceeds is
exceeded by the next one.
-/

namespace RagflowMineru.Library.SinglePop

variable {α : Type*} [LinearOrder α]

/-- `x` is put on the stack, after the top has been taken away if it is smaller. -/
def popOnce (c : List α) (x : α) : List α :=
  (if ∃ top, c.getLast? = some top ∧ top < x then c.dropLast else c) ++ [x]

instance decidableTopLt (c : List α) (x : α) :
    Decidable (∃ top, c.getLast? = some top ∧ top < x) :=
  match h : c.getLast? with
  | none => isFalse (by rintro ⟨top, htop, -⟩; simp at htop)
  | some top => decidable_of_iff (top < x) ⟨fun hlt => ⟨top, rfl, hlt⟩, by
      rintro ⟨top', htop, hlt⟩
      exact Option.some.inj htop ▸ hlt⟩

/-- An item that the next one does not exceed is not exceeded by a later one either. -/
def Descends : List α → Prop
  | x :: y :: rest => (y ≤ x → ∀ z ∈ rest, z ≤ x) ∧ Descends (y :: rest)
  | _ => True

theorem popOnce_concat (c : List α) (y x : α) :
    popOnce (c ++ [y]) x = if y < x then c ++ [x] else c ++ [y] ++ [x] := by
  unfold popOnce
  by_cases hlt : y < x
  · rw [if_pos ⟨y, by simp, hlt⟩, if_pos hlt, List.dropLast_concat]
  · rw [if_neg (by simpa using hlt), if_neg hlt]

theorem mem_popOnce {c : List α} {x a : α} (h : a ∈ popOnce c x) : a ∈ c ∨ a = x := by
  unfold popOnce at h
  rw [List.mem_append, List.mem_singleton] at h
  refine h.imp_left fun h => ?_
  split_ifs at h
  · exact (List.dropLast_sublist c).mem h
  · exact h

/-- What is greater than all items stays at the bottom. -/
theorem popOnce_cons {c : List α} {bottom x : α} (h : x < bottom) :
    popOnce (bottom :: c) x = bottom :: popOnce c x := by
  rcases c.eq_nil_or_concat with rfl | ⟨init, y, rfl⟩
  · simp [popOnce, not_lt_of_gt h]
  · rw [List.concat_eq_append, ← List.cons_append, popOnce_concat, popOnce_concat]
    split_ifs <;> rfl

theorem foldl_cons {c q : List α} {bottom : α} (h : ∀ x ∈ q, x < bottom) :
    q.foldl popOnce (bottom :: c) = bottom :: q.foldl popOnce c := by
  induction q generalizing c with
  | nil => rfl
  | cons x q ih =>
    rw [List.foldl_cons, List.foldl_cons, popOnce_cons (h x List.mem_cons_self)]
    exact ih fun y hy => h y (List.mem_cons_of_mem x hy)

theorem mem_of_mem_foldl {c q : List α} {a : α} (h : a ∈ q.foldl popOnce c) : a ∈ c ∨ a ∈ q := by
  induction q generalizing c with
  | nil => exact Or.inl h
  | cons x q ih =>
    rcases ih h with h | h
    · rcases mem_popOnce h with h | rfl
      · exact Or.inl h
      · exact Or.inr List.mem_cons_self
    · exact Or.inr (List.mem_cons_of_mem x h)

/-- What is in the wrong order stays so. -/
theorem pairwise_of_popOnce {c : List α} {x : α} (h : (popOnce c x).Pairwise (· > ·)) :
    c.Pairwise (· > ·) := by
  rcases c.eq_nil_or_concat with rfl | ⟨init, y, rfl⟩
  · exact List.Pairwise.nil
  · rw [List.concat_eq_append] at h ⊢
    rw [popOnce_concat] at h
    split_ifs at h with hlt
    · obtain ⟨hinit, -, hx⟩ := List.pairwise_append.mp h
      refine List.pairwise_append.mpr ⟨hinit, List.pairwise_singleton _ _, fun a ha b hb => ?_⟩
      obtain rfl := List.mem_singleton.mp hb
      exact lt_trans hlt (hx a ha x (List.mem_singleton.mpr rfl))
    · exact (List.pairwise_append.mp h).1

theorem pairwise_of_foldl {c q : List α} (h : (q.foldl popOnce c).Pairwise (· > ·)) :
    c.Pairwise (· > ·) := by
  induction q generalizing c with
  | nil => exact h
  | cons x q ih => exact pairwise_of_popOnce (ih h)

/-- The stack decreases in the end exactly if no item has to take away more than the top. -/
theorem foldl_pairwise_iff {c q : List α} {x : α} (hc : (c ++ [x]).Pairwise (· > ·))
    (hx : x ∉ q) (hq : q.Nodup) : (q.foldl popOnce (c ++ [x])).Pairwise (· > ·) ↔
      Descends (x :: q) ∧ ∀ a ∈ c, ∀ z ∈ q, z < a := by
  induction q generalizing c x with
  | nil => simpa [Descends] using hc
  | cons y q ih =>
    obtain ⟨hy, hq⟩ := List.nodup_cons.mp hq
    have hxy : x ≠ y := fun h => hx (h ▸ List.mem_cons_self)
    have hxq : x ∉ q := fun h => hx (List.mem_cons_of_mem y h)
    have hcx : ∀ a ∈ c, x < a := fun a ha =>
      (List.pairwise_append.mp hc).2.2 a ha x (List.mem_singleton.mpr rfl)
    rw [List.foldl_cons, popOnce_concat]
    by_cases hlt : x < y
    · rw [if_pos hlt]
      have hskip : Descends (x :: y :: q) ↔ Descends (y :: q) := by
        simp [Descends, not_le.mpr hlt]
      by_cases hcy : ∀ a ∈ c, y < a
      · have hnew : (c ++ [y]).Pairwise (· > ·) := by
          refine List.pairwise_append.mpr ⟨(List.pairwise_append.mp hc).1,
            List.pairwise_singleton _ _, fun a ha b hb => ?_⟩
          obtain rfl := List.mem_singleton.mp hb
          exact hcy a ha
        rw [ih hnew hy hq, hskip]
        simp only [List.forall_mem_cons]
        exact and_congr_right fun _ => ⟨fun h a ha => ⟨hcy a ha, h a ha⟩, fun h a ha => (h a ha).2⟩
      · refine iff_of_false (fun h => hcy fun a ha => ?_) fun h => hcy fun a ha =>
          h.2 a ha y List.mem_cons_self
        exact (List.pairwise_append.mp (pairwise_of_foldl h)).2.2 a ha y
          (List.mem_singleton.mpr rfl)
    · have hgt : y < x := lt_of_le_of_ne (not_lt.mp hlt) hxy.symm
      rw [if_neg hlt]
      have hnew : (c ++ [x] ++ [y]).Pairwise (· > ·) := by
        refine List.pairwise_append.mpr ⟨hc, List.pairwise_singleton _ _, fun a ha b hb => ?_⟩
        obtain rfl := List.mem_singleton.mp hb
        rcases List.mem_append.mp ha with ha | ha
        · exact lt_trans hgt (hcx a ha)
        · exact List.mem_singleton.mp ha ▸ hgt
      rw [ih hnew hy hq]
      simp only [Descends, List.mem_append, List.mem_singleton, List.forall_mem_cons]
      constructor
      · rintro ⟨hdescends, hall⟩
        exact ⟨⟨fun _ z hz => le_of_lt (hall x (Or.inr rfl) z hz), hdescends⟩, fun a ha =>
          ⟨lt_trans hgt (hcx a ha), fun z hz => hall a (Or.inl ha) z hz⟩⟩
      · rintro ⟨⟨hrest, hdescends⟩, hall⟩
        refine ⟨hdescends, ?_⟩
        rintro a (ha | rfl) z hz
        · exact (hall a ha).2 z hz
        · exact lt_of_le_of_ne (hrest (le_of_lt hgt) z hz) fun h => hxq (h ▸ hz)

theorem foldl_nil_pairwise_iff {q : List α} (hq : q.Nodup) :
    (q.foldl popOnce []).Pairwise (· > ·) ↔ Descends q := by
  rcases q with _ | ⟨x, q⟩
  · simp [Descends]
  · obtain ⟨hx, hq⟩ := List.nodup_cons.mp hq
    have hsingle : ([] ++ [x] : List α).Pairwise (· > ·) := List.pairwise_singleton _ _
    have hfirst : popOnce [] x = [] ++ [x] := by simp [popOnce]
    rw [List.foldl_cons, hfirst, foldl_pairwise_iff hsingle hx hq]
    simp

/-- On a stack that decreases, what is left has not been exceeded. -/
theorem lt_of_mem_foldl {q : List α} (hq : q.Nodup) {c : List α}
    (h : (q.foldl popOnce c).Pairwise (· > ·)) {a : α} (ha : a ∈ q.foldl popOnce c)
    {before after : List α} (hsplit : q = before ++ a :: after) : ∀ z ∈ after, z < a := by
  induction q using List.reverseRecOn generalizing after with
  | nil => simp at hsplit
  | append_singleton q z ih =>
    rw [List.foldl_append, List.foldl_cons, List.foldl_nil] at h ha
    rcases after.eq_nil_or_concat with rfl | ⟨rest, z', rfl⟩
    · simp
    · rw [List.concat_eq_append, ← List.cons_append, ← List.append_assoc] at hsplit
      obtain ⟨hq', hz⟩ := List.append_inj' hsplit rfl
      obtain rfl := List.singleton_inj.mp hz
      have hza : z ≠ a := by
        rintro rfl
        have hdisjoint := (List.nodup_append.mp hq).2.2 z (by rw [hq']; simp) z (by simp)
        exact hdisjoint rfl
      have hold := (mem_popOnce ha).resolve_right hza.symm
      intro w hw
      rw [List.concat_eq_append, List.mem_append, List.mem_singleton] at hw
      rcases hw with hw | rfl
      · exact ih (List.nodup_append.mp hq).1 (pairwise_of_popOnce h) hold hq' w hw
      · unfold popOnce at h ha
        have hfront := (List.mem_append.mp ha).resolve_right (by simpa using hza.symm)
        exact (List.pairwise_append.mp h).2.2 a hfront w (List.mem_singleton.mpr rfl)

theorem descends_of_length_le {q : List α} (h : q.length ≤ 1) : Descends q := by
  match q, h with
  | [], _ => trivial
  | [_], _ => trivial

theorem Descends.tail {x : α} {q : List α} (h : Descends (x :: q)) : Descends q := by
  rcases q with _ | ⟨y, q⟩
  · trivial
  · exact h.2

theorem Descends.of_append {before q : List α} (h : Descends (before ++ q)) : Descends q := by
  induction before with
  | nil => exact h
  | cons x before ih => exact ih h.tail

end RagflowMineru.Library.SinglePop
