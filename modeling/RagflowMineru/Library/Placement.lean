import Mathlib.Data.List.Nodup
import Mathlib.Data.List.Perm.Subperm
import Mathlib.Order.Interval.Finset.Nat

/-!
# Placing items in groups

Items go to the group of the point that is nearest to them, where steps over
other items are free.  Of the points on one side no two are equally near, so at
most two points are nearest.  Placing items one by one neither loses nor
doubles any.
-/

namespace RagflowMineru.Library

/-! ## Distances in which marked places are free -/

section Gaps

variable (marked : ℕ → Bool)

/-- The steps from a place up to a later one, less the marked places between them. -/
def stepsUp (a b : ℕ) : ℕ := b - a - ((Finset.Ioo a b).filter fun i => marked i).card

/-- The distance of two places, in either direction. -/
def gap (a b : ℕ) : ℕ := stepsUp marked (min a b) (max a b)

theorem stepsUp_pos {a b : ℕ} (h : a < b) : 0 < stepsUp marked a b := by
  have hle : ((Finset.Ioo a b).filter fun i => marked i).card ≤ b - a - 1 :=
    (Finset.card_filter_le _ _).trans_eq (Nat.card_Ioo a b)
  rw [stepsUp]
  omega

variable {marked}

/-- A place that is not marked divides the marked ones between two others. -/
theorem card_marked_le {a b c : ℕ} (hb : marked b = false) :
    ((Finset.Ioo a c).filter fun i => marked i).card ≤
      ((Finset.Ioo a b).filter fun i => marked i).card +
        ((Finset.Ioo b c).filter fun i => marked i).card := by
  refine (Finset.card_le_card ?_).trans (Finset.card_union_le _ _)
  intro i hi
  obtain ⟨hmem, hi⟩ := Finset.mem_filter.mp hi
  obtain ⟨hai, hic⟩ := Finset.mem_Ioo.mp hmem
  rw [Finset.mem_union, Finset.mem_filter, Finset.mem_filter, Finset.mem_Ioo, Finset.mem_Ioo]
  rcases lt_trichotomy i b with hlt | rfl | hgt
  · exact Or.inl ⟨⟨hai, hlt⟩, hi⟩
  · rw [hb] at hi
    exact absurd hi Bool.false_ne_true
  · exact Or.inr ⟨⟨hgt, hic⟩, hi⟩

theorem stepsUp_add_le {a b c : ℕ} (hab : a < b) (hbc : b < c) (hb : marked b = false) :
    stepsUp marked a b + stepsUp marked b c ≤ stepsUp marked a c := by
  have hleft := stepsUp_pos marked hab
  have hright := stepsUp_pos marked hbc
  have hmarked := card_marked_le (a := a) (c := c) hb
  simp only [stepsUp] at hleft hright ⊢
  omega

/-- Beyond a place that is not marked it is farther. -/
theorem gap_lt_gap_right {a b c : ℕ} (hab : a < b) (hbc : b < c) (hb : marked b = false) :
    gap marked a b < gap marked a c := by
  have hadd := stepsUp_add_le hab hbc hb
  have hpos := stepsUp_pos marked hbc
  rw [gap, gap, max_eq_right hab.le, min_eq_left hab.le, max_eq_right (hab.trans hbc).le,
    min_eq_left (hab.trans hbc).le]
  omega

theorem gap_lt_gap_left {a b c : ℕ} (hba : b < a) (hcb : c < b) (hb : marked b = false) :
    gap marked a b < gap marked a c := by
  have hadd := stepsUp_add_le hcb hba hb
  have hpos := stepsUp_pos marked hcb
  rw [gap, gap, max_eq_left hba.le, min_eq_right hba.le, max_eq_left (hcb.trans hba).le,
    min_eq_right (hcb.trans hba).le]
  omega

/-- Two places that are not marked and equally near lie on different sides. -/
theorem side_of_gap_eq {a b c : ℕ} (hb : marked b = false) (hc : marked c = false)
    (hne : b ≠ c) (heq : gap marked a b = gap marked a c) :
    ¬ (a < b ∧ a < c) ∧ ¬ (b < a ∧ c < a) := by
  constructor
  · rintro ⟨hab, hac⟩
    rcases lt_or_gt_of_ne hne with hbc | hcb
    · exact (gap_lt_gap_right hab hbc hb).ne heq
    · exact (gap_lt_gap_right hac hcb hc).ne heq.symm
  · rintro ⟨hba, hca⟩
    rcases lt_or_gt_of_ne hne with hbc | hcb
    · exact (gap_lt_gap_left hca hbc hc).ne heq.symm
    · exact (gap_lt_gap_left hba hcb hb).ne heq

variable (marked) in
/-- At most two places are equally near to one that is marked. -/
theorem length_le_two_of_gap_eq {a m : ℕ} {l : List ℕ} (ha : marked a = true) (hl : l.Nodup)
    (hmarked : ∀ b ∈ l, marked b = false) (hgap : ∀ b ∈ l, gap marked a b = m) : l.length ≤ 2 := by
  match l, hl, hmarked, hgap with
  | [], _, _, _ => simp
  | [_], _, _, _ => simp
  | [_, _], _, _, _ => simp
  | b :: c :: d :: rest, hl, hmarked, hgap =>
      have hne : b ≠ c ∧ b ≠ d ∧ c ≠ d := by
        simp only [List.nodup_cons, List.mem_cons, not_or] at hl
        exact ⟨hl.1.1, hl.1.2.1, hl.2.1.1⟩
      have hnot : ∀ x ∈ [b, c, d], marked x = false ∧ gap marked a x = m ∧ x ≠ a := by
        intro x hx
        have hmem : x ∈ b :: c :: d :: rest := by
          simp only [List.mem_cons, List.not_mem_nil, or_false] at hx ⊢
          tauto
        refine ⟨hmarked x hmem, hgap x hmem, ?_⟩
        rintro rfl
        rw [hmarked x hmem] at ha
        exact Bool.false_ne_true ha
      obtain ⟨hb, hgb, hba⟩ := hnot b (by simp)
      obtain ⟨hc, hgc, hca⟩ := hnot c (by simp)
      obtain ⟨hd, hgd, hda⟩ := hnot d (by simp)
      have hbc := side_of_gap_eq hb hc hne.1 (hgb.trans hgc.symm)
      have hbd := side_of_gap_eq hb hd hne.2.1 (hgb.trans hgd.symm)
      have hcd := side_of_gap_eq hc hd hne.2.2 (hgc.trans hgd.symm)
      omega

end Gaps

/-! ## The first items with the least value -/

section Least

variable {α : Type*} (value : α → ℕ)

/-- One turn of the search: the least value so far, and the items that have it. -/
def leastStep (best : Option (ℕ × List α)) (a : α) : Option (ℕ × List α) :=
  match best with
  | none => some (value a, [a])
  | some (least, items) =>
      if value a < least then some (value a, [a])
      else if value a = least then some (least, items ++ [a]) else best

def leastItems (l : List α) : Option (ℕ × List α) := l.foldl (leastStep value) none

theorem leastItems_append_singleton (l : List α) (a : α) :
    leastItems value (l ++ [a]) = leastStep value (leastItems value l) a := by
  rw [leastItems, List.foldl_append]
  rfl

/-- The search finds all items with the least value, in their order. -/
theorem leastItems_spec {l : List α} (hl : l ≠ []) :
    ∃ least, leastItems value l = some (least, l.filter fun a => value a = least) ∧
      (∃ a ∈ l, value a = least) ∧ ∀ a ∈ l, least ≤ value a := by
  induction l using List.reverseRecOn with
  | nil => exact absurd rfl hl
  | append_singleton l a ih =>
      rw [leastItems_append_singleton]
      by_cases hnil : l = []
      · subst l
        exact ⟨value a, by simp [leastItems, leastStep], ⟨a, by simp⟩, by simp⟩
      · obtain ⟨least, heq, ⟨b, hb, hvb⟩, hle⟩ := ih hnil
        rw [heq]
        rcases lt_trichotomy (value a) least with hlt | hsame | hgt
        · have hnone : l.filter (fun c => value c = value a) = [] := by
            rw [List.filter_eq_nil_iff]
            intro c hc
            have := hle c hc
            simp only [decide_eq_true_eq]
            omega
          refine ⟨value a, ?_, ⟨a, by simp⟩, ?_⟩
          · simp [leastStep, hlt, List.filter_append, hnone]
          · intro c hc
            rcases List.mem_append.mp hc with hc | hc
            · exact hlt.le.trans (hle c hc)
            · rw [List.mem_singleton.mp hc]
        · refine ⟨least, ?_, ⟨b, List.mem_append_left _ hb, hvb⟩, ?_⟩
          · simp [leastStep, hsame, List.filter_append]
          · intro c hc
            rcases List.mem_append.mp hc with hc | hc
            · exact hle c hc
            · rw [List.mem_singleton.mp hc, hsame]
        · refine ⟨least, ?_, ⟨b, List.mem_append_left _ hb, hvb⟩, ?_⟩
          · simp [leastStep, hgt.not_gt, hgt.ne', List.filter_append]
          · intro c hc
            rcases List.mem_append.mp hc with hc | hc
            · exact hle c hc
            · rw [List.mem_singleton.mp hc]
              exact hgt.le

end Least

/-! ## Groups -/

section Groups

variable {α γ κ : Type*}

/-- One more item in one group. -/
theorem flatMap_modify_perm (members : γ → List α) {f : γ → γ} {a : α}
    (hf : ∀ g, members (f g) = members g ++ [a]) {gs : List γ} {i : ℕ} (hi : i < gs.length) :
    ((gs.modify i f).flatMap members).Perm (gs.flatMap members ++ [a]) := by
  obtain ⟨before, g, after, heq, -, hmodify⟩ := List.exists_of_modify f hi
  rw [hmodify, heq, List.flatMap_append, List.flatMap_append, List.flatMap_cons, List.flatMap_cons,
    hf, List.append_assoc, List.append_assoc, List.append_assoc]
  exact ((@List.perm_append_comm _ [a] _).append_left _).append_left _

/-- What the other parts of a group are does not change. -/
theorem map_modify_of_eq {β : Type*} (g : γ → β) (f : γ → γ) (h : ∀ a, g (f a) = g a)
    (gs : List γ) (i : ℕ) : (gs.modify i f).map g = gs.map g := by
  apply List.ext_getElem?
  intro j
  rw [List.getElem?_map, List.getElem?_map, List.getElem?_modify]
  rcases gs[j]? with - | a
  · rfl
  · by_cases hij : i = j
    · simp [hij, h]
    · simp [hij]

/-- What is left of a list beside parts of it completes it. -/
theorem perm_append_leftover [DecidableEq κ] {key : α → κ} {parts l : List α}
    (hl : (l.map key).Nodup) (hsub : List.Subperm parts l) :
    (parts ++ l.filter fun a => key a ∉ parts.map key).Perm l := by
  obtain ⟨parts', hsame, hsublist⟩ := hsub
  obtain ⟨rest, hrest⟩ := hsublist.exists_perm_append
  have hperm : (parts ++ rest).Perm l := (hrest.trans (hsame.append_right rest)).symm
  have hkeys : ((parts ++ rest).map key).Nodup := (hperm.map key).nodup_iff.mpr hl
  rw [List.map_append, List.nodup_append] at hkeys
  have hparts : parts.filter (fun a => key a ∉ parts.map key) = [] := by
    rw [List.filter_eq_nil_iff]
    intro a ha
    simpa using ⟨a, ha, rfl⟩
  have hrest : rest.filter (fun a => key a ∉ parts.map key) = rest := by
    rw [List.filter_eq_self]
    intro a ha
    rw [decide_eq_true_eq]
    exact fun hin => hkeys.2.2 _ hin _ (List.mem_map_of_mem ha) rfl
  have hfilter := hperm.symm.filter fun a => key a ∉ parts.map key
  rw [List.filter_append, hparts, hrest, List.nil_append] at hfilter
  exact (hfilter.append_left parts).trans hperm

/-- Two kinds that exclude each other. -/
theorem filter_perm_append {p q r : α → Bool} (hr : ∀ a, r a = (p a || q a))
    (hdisj : ∀ a, p a = true → q a = false) (l : List α) :
    (l.filter r).Perm (l.filter p ++ l.filter q) := by
  have hp : ∀ a, (p a && r a) = p a := by
    intro a
    rw [hr]
    rcases p a <;> simp
  have hq : ∀ a, (!p a && r a) = q a := by
    intro a
    rw [hr]
    rcases ha : p a
    · simp
    · simp [hdisj a ha]
  have hsplit := (List.filter_append_perm p (l.filter r)).symm
  rw [List.filter_filter, List.filter_filter, List.filter_congr fun a _ => hp a,
    List.filter_congr fun a _ => hq a] at hsplit
  exact hsplit

/-- A list is cut where `next` fails between neighbours. -/
def cutRun (next : α → α → Bool) : List α → List α × List α
  | [] => ([], [])
  | [a] => ([a], [])
  | a :: b :: l =>
      if next a b then
        let (kept, rest) := cutRun next (b :: l)
        (a :: kept, rest)
      else ([a], b :: l)

theorem cutRun_append (next : α → α → Bool) (l : List α) :
    (cutRun next l).1 ++ (cutRun next l).2 = l := by
  induction l with
  | nil => rfl
  | cons a l ih =>
      rcases l with - | ⟨b, l⟩
      · rfl
      · rw [cutRun]
        split_ifs
        · simpa using ih
        · rfl

end Groups

end RagflowMineru.Library
