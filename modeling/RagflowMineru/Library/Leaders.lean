import Mathlib.Data.List.Nodup
import Mathlib.Data.List.Perm.Subperm
import Mathlib.Data.List.TakeWhile
import Mathlib.Data.Set.Image
import Mathlib.Order.Defs.LinearOrder

/-!
# The best of each group

Things come in groups, the things of one key, and a list keeps the `n` best of every
group that has so many.  A thing that is outdone by `n` others of its group may then be
forgotten, with all that would be built from it, and the `n` best of all are among those
that are kept, whatever the score is, as long as it follows the worth within a group.
-/

namespace RagflowMineru.Library

/-- The list holds the `n` best things of `A`, or all when there are fewer, the best first. -/
structure Best {α S : Type*} [LinearOrder S] (n : ℕ) (f : α → S) (A : Set α)
    (l : List α) : Prop where
  nodup : l.Nodup
  mem : ∀ x ∈ l, x ∈ A
  length_le : l.length ≤ n
  all : l.length < n → ∀ a ∈ A, a ∈ l
  sorted : l.Pairwise fun x y => f y ≤ f x
  outside : ∀ a ∈ A, a ∉ l → ∀ x ∈ l, f a ≤ f x

/-- The ranges of a sorted list below a key, at it and above it. -/
def equalRange {α K : Type*} [LinearOrder K] (k : α → K) (key : K) (l : List α) :
    List α × List α × List α :=
  let rest := l.dropWhile fun x => decide (k x < key)
  (l.takeWhile fun x => decide (k x < key), rest.takeWhile fun x => decide (k x ≤ key),
    rest.dropWhile fun x => decide (k x ≤ key))

/-- A place between the two parts of a list keeps its order. -/
theorem pairwise_insert {α : Type*} {r : α → α → Prop} {l₁ l₂ : List α} {a : α}
    (h : (l₁ ++ l₂).Pairwise r) (h₁ : ∀ x ∈ l₁, r x a) (h₂ : ∀ x ∈ l₂, r a x) :
    (l₁ ++ a :: l₂).Pairwise r := by
  obtain ⟨hl₁, hl₂, hbetween⟩ := List.pairwise_append.mp h
  refine List.pairwise_append.mpr ⟨hl₁, List.pairwise_cons.mpr ⟨h₂, hl₂⟩, fun x hx => ?_⟩
  exact List.forall_mem_cons.mpr ⟨h₁ x hx, hbetween x hx⟩

section EqualRange

variable {α K : Type*} [LinearOrder K] {k : α → K} {key : K} {l : List α}

theorem not_of_mem_dropWhile {p : α → Bool} (h : l.Pairwise fun x y => k x ≤ k y)
    (hp : ∀ x y, k x ≤ k y → p y = true → p x = true) : ∀ x ∈ l.dropWhile p, p x = false := by
  induction l with
  | nil => simp
  | cons y l ih =>
    obtain ⟨hy, hl⟩ := List.pairwise_cons.mp h
    cases hpy : p y with
    | true =>
      rw [List.dropWhile_cons_of_pos hpy]
      exact ih hl
    | false =>
      rw [List.dropWhile_cons_of_neg (by simp [hpy])]
      refine List.forall_mem_cons.mpr ⟨hpy, fun x hx => ?_⟩
      by_contra hpx
      rw [hp y x (hy x hx) (Bool.eq_true_of_not_eq_false hpx)] at hpy
      exact Bool.noConfusion hpy

theorem equalRange_spec (h : l.Pairwise fun x y => k x ≤ k y) :
    l = (equalRange k key l).1 ++ ((equalRange k key l).2.1 ++ (equalRange k key l).2.2) ∧
      (∀ x ∈ (equalRange k key l).1, k x < key) ∧
      (∀ x ∈ (equalRange k key l).2.1, k x = key) ∧
      ∀ x ∈ (equalRange k key l).2.2, key < k x := by
  have hrest : ∀ x ∈ l.dropWhile fun x => decide (k x < key), key ≤ k x := by
    intro x hx
    have hnot := not_of_mem_dropWhile h
      (fun x y hxy hy => decide_eq_true (hxy.trans_lt (of_decide_eq_true hy))) x hx
    exact not_lt.mp (of_decide_eq_false hnot)
  have hsorted := h.sublist (List.dropWhile_sublist fun x => decide (k x < key))
  refine ⟨by simp [equalRange], fun x hx => ?_, fun x hx => ?_, fun x hx => ?_⟩
  · have hbelow := List.mem_takeWhile_imp (p := fun x => decide (k x < key)) hx
    exact of_decide_eq_true hbelow
  · have hle := List.mem_takeWhile_imp (p := fun x => decide (k x ≤ key)) hx
    refine le_antisymm (of_decide_eq_true hle) (hrest x ?_)
    exact (List.takeWhile_sublist _).subset hx
  · have hnot := not_of_mem_dropWhile hsorted
      (fun x y hxy hy => decide_eq_true (hxy.trans (of_decide_eq_true hy))) x hx
    exact not_le.mp (of_decide_eq_false hnot)

theorem mem_equalRange (h : l.Pairwise fun x y => k x ≤ k y) {x : α} (hx : x ∈ l)
    (hkey : k x = key) : x ∈ (equalRange k key l).2.1 := by
  obtain ⟨hl, hbelow, -, habove⟩ := @equalRange_spec α K _ k key l h
  rw [hl] at hx
  rcases List.mem_append.mp hx with hx | hx
  · exact absurd hkey (hbelow x hx).ne
  · rcases List.mem_append.mp hx with hx | hx
    · exact hx
    · exact absurd hkey (habove x hx).ne'

theorem countP_eq_length_equalRange (h : l.Pairwise fun x y => k x ≤ k y) :
    l.countP (fun x => decide (k x = key)) = (equalRange k key l).2.1.length := by
  obtain ⟨hl, hbelow, hat, habove⟩ := @equalRange_spec α K _ k key l h
  have hbefore : (equalRange k key l).1.countP (fun x => decide (k x = key)) = 0 :=
    List.countP_eq_zero.mpr fun x hx => by simpa using (hbelow x hx).ne
  have hafter : (equalRange k key l).2.2.countP (fun x => decide (k x = key)) = 0 :=
    List.countP_eq_zero.mpr fun x hx => by simpa using (habove x hx).ne'
  have hall : (equalRange k key l).2.1.countP (fun x => decide (k x = key))
      = (equalRange k key l).2.1.length :=
    List.countP_eq_length.mpr fun x hx => decide_eq_true (hat x hx)
  conv_lhs => rw [hl]
  rw [List.countP_append, List.countP_append, hbefore, hafter, hall, Nat.zero_add, Nat.add_zero]

end EqualRange

/-- A list that holds the best of all holds the best of any part that it is in. -/
theorem Best.of_subset {α S : Type*} [LinearOrder S] {n : ℕ} {f : α → S} {A B : Set α}
    {l : List α} (h : Best n f A l) (hl : ∀ x ∈ l, x ∈ B) (hsub : B ⊆ A) : Best n f B l where
  nodup := h.nodup
  mem := hl
  length_le := h.length_le
  all hlt a ha := h.all hlt a (hsub ha)
  sorted := h.sorted
  outside a ha := h.outside a (hsub ha)

/-- The best may be named in another way. -/
theorem best_map_iff {α β S : Type*} [LinearOrder S] {n : ℕ} {f : α → S} {g : β → α}
    (hg : Function.Injective g) {A : Set β} {l : List β} :
    Best n f (Set.image g A) (l.map g) ↔ Best n (fun b => f (g b)) A l := by
  constructor
  · intro h
    refine ⟨(List.nodup_map_iff hg).mp h.nodup, fun x hx => ?_, by simpa using h.length_le,
      fun hlt a ha => ?_, List.pairwise_map.mp h.sorted, fun a ha hnot x hx => ?_⟩
    · exact hg.mem_set_image.mp (h.mem (g x) (List.mem_map_of_mem hx))
    · have hmem := h.all (by simpa using hlt) (g a) (Set.mem_image_of_mem g ha)
      exact (List.mem_map_of_injective hg).mp hmem
    · refine h.outside (g a) (Set.mem_image_of_mem g ha) ?_ (g x) (List.mem_map_of_mem hx)
      exact fun hmem => hnot ((List.mem_map_of_injective hg).mp hmem)
  · intro h
    refine ⟨(List.nodup_map_iff hg).mpr h.nodup, ?_, by simpa using h.length_le, ?_,
      List.pairwise_map.mpr h.sorted, ?_⟩
    · intro y hy
      obtain ⟨x, hx, rfl⟩ := List.mem_map.mp hy
      exact Set.mem_image_of_mem g (h.mem x hx)
    · rintro hlt _ ⟨a, ha, rfl⟩
      exact List.mem_map_of_mem (h.all (by simpa using hlt) a ha)
    · rintro _ ⟨a, ha, rfl⟩ hnot y hy
      obtain ⟨x, hx, rfl⟩ := List.mem_map.mp hy
      exact h.outside a ha (fun hmem => hnot (List.mem_map_of_mem hmem)) x hx

section Leaders

variable {α K V : Type*} [LinearOrder V] {k : α → K} {v : α → V} {n : ℕ}
  {l l₁ l₂ : List α} {A : Set α} {a x : α}

/-- `x` is in the group of `a` and at least as good. -/
def Outdoes (k : α → K) (v : α → V) (x a : α) : Prop := k x = k a ∧ v a ≤ v x

instance [DecidableEq K] : Decidable (Outdoes k v x a) := inferInstanceAs (Decidable (_ ∧ _))

theorem Outdoes.trans {y : α} (h : Outdoes k v x y) (h' : Outdoes k v y a) :
    Outdoes k v x a :=
  ⟨h.1.trans h'.1, h'.2.trans h.2⟩

variable [DecidableEq K]

/-- The list keeps at most `n` things of each group of `A`, and what it has not kept is outdone
by `n` that it has. -/
structure Leaders (k : α → K) (v : α → V) (n : ℕ) (l : List α) (A : Set α) : Prop where
  nodup : l.Nodup
  mem : ∀ x ∈ l, x ∈ A
  few : ∀ key, l.countP (k · = key) ≤ n
  outdone : ∀ a ∈ A, a ∉ l → n ≤ l.countP (Outdoes k v · a)

namespace Leaders

theorem perm (h : Leaders k v n l A) (hp : l.Perm l₁) : Leaders k v n l₁ A where
  nodup := hp.nodup_iff.mp h.nodup
  mem x hx := h.mem x (hp.mem_iff.mpr hx)
  few key := hp.countP_eq _ ▸ h.few key
  outdone a ha hout := hp.countP_eq _ ▸ h.outdone a ha fun hl => hout (hp.mem_iff.mp hl)

/-- A new thing is kept where its group has a place left. -/
theorem insert (h : Leaders k v n (l₁ ++ l₂) A) (ha : a ∉ A)
    (hplace : (l₁ ++ l₂).countP (k · = k a) < n) :
    Leaders k v n (l₁ ++ a :: l₂) (Insert.insert a A) := by
  have hcons : Leaders k v n (a :: (l₁ ++ l₂)) (Insert.insert a A) := by
    refine ⟨List.nodup_cons.mpr ⟨fun hl => ha (h.mem a hl), h.nodup⟩, ?_, ?_, ?_⟩
    · intro x hx
      rcases List.mem_cons.mp hx with rfl | hx
      · exact Set.mem_insert x A
      · exact Set.mem_insert_of_mem a (h.mem x hx)
    · intro key
      rw [List.countP_cons]
      have hfew := h.few key
      by_cases hkey : k a = key
      · subst hkey
        simpa using Nat.succ_le_of_lt hplace
      · simpa [hkey] using hfew
    · intro b hb hout
      rw [List.mem_cons, not_or] at hout
      have hkept := h.outdone b (Set.mem_of_mem_insert_of_ne hb hout.1) hout.2
      rw [List.countP_cons]
      omega
  exact hcons.perm List.perm_middle.symm

/-- A thing that `n` others outdo is not kept. -/
theorem drop (h : Leaders k v n l A) (hout : n ≤ l.countP (Outdoes k v · a)) :
    Leaders k v n l (Insert.insert a A) where
  nodup := h.nodup
  mem x hx := Set.mem_insert_of_mem a (h.mem x hx)
  few := h.few
  outdone b hb hnot := by
    rcases Set.mem_insert_iff.mp hb with rfl | hb
    · exact hout
    · exact h.outdone b hb hnot

/-- In a full group a new thing takes the place of the least, where it is not worth less. -/
theorem replace (h : Leaders k v n (l₁ ++ x :: l₂) A) (ha : a ∉ A) (hx : Outdoes k v a x)
    (hleast : ∀ y ∈ l₁ ++ x :: l₂, k y = k x → v x ≤ v y)
    (hfull : n ≤ (l₁ ++ x :: l₂).countP (k · = k x)) :
    Leaders k v n (l₁ ++ a :: l₂) (Insert.insert a A) := by
  have hold : Leaders k v n (x :: (l₁ ++ l₂)) A := h.perm List.perm_middle
  have hleast' : ∀ y ∈ x :: (l₁ ++ l₂), k y = k x → v x ≤ v y := fun y hy =>
    hleast y (List.perm_middle.mem_iff.mpr hy)
  rw [List.perm_middle.countP_eq] at hfull
  have hcons : Leaders k v n (a :: (l₁ ++ l₂)) (Insert.insert a A) := by
    have hnodup := List.nodup_cons.mp hold.nodup
    refine ⟨List.nodup_cons.mpr ⟨fun hl => ha (hold.mem a (List.mem_cons_of_mem x hl)), hnodup.2⟩,
      ?_, ?_, ?_⟩
    · intro y hy
      rcases List.mem_cons.mp hy with rfl | hy
      · exact Set.mem_insert y A
      · exact Set.mem_insert_of_mem a (hold.mem y (List.mem_cons_of_mem x hy))
    · intro key
      have hfew := hold.few key
      rw [List.countP_cons] at hfew ⊢
      rwa [hx.1]
    · intro b hb hnot
      rw [List.mem_cons, not_or] at hnot
      have hbA : b ∈ A := Set.mem_of_mem_insert_of_ne hb hnot.1
      by_cases hbx : b = x
      · -- The thing that has lost its place is outdone by its whole group.
        subst hbx
        have hgroup : (a :: (l₁ ++ l₂)).countP (k · = k b)
            ≤ (a :: (l₁ ++ l₂)).countP (Outdoes k v · b) := by
          apply List.countP_mono_left
          intro y hy hkey
          rw [decide_eq_true_eq] at hkey ⊢
          refine ⟨hkey, ?_⟩
          rcases List.mem_cons.mp hy with rfl | hy
          · exact hx.2
          · exact hleast' y (List.mem_cons_of_mem b hy) hkey
        refine le_trans ?_ hgroup
        rw [List.countP_cons] at hfull ⊢
        simpa [hx.1] using hfull
      · have hkept := hold.outdone b hbA (by simp [hbx, hnot.2])
        rw [List.countP_cons] at hkept ⊢
        by_cases hxb : Outdoes k v x b
        · simpa [hxb, hx.trans hxb] using hkept
        · simp only [hxb, decide_false, Bool.false_eq_true, if_false, Nat.add_zero] at hkept
          omega
  exact hcons.perm List.perm_middle.symm

/-- Things that are outdone by `n` others may join `A` unseen. -/
theorem extend {A' : Set α} (h : Leaders k v n l A) (hsub : A ⊆ A')
    (hout : ∀ a ∈ A', a ∉ A →
      ∃ g : List α, g.Nodup ∧ n ≤ g.length ∧ ∀ x ∈ g, x ∈ A ∧ Outdoes k v x a) :
    Leaders k v n l A' where
  nodup := h.nodup
  mem x hx := hsub (h.mem x hx)
  few := h.few
  outdone a ha hnot := by
    by_cases haA : a ∈ A
    · exact h.outdone a haA hnot
    obtain ⟨g, hnodup, hlength, hg⟩ := hout a ha haA
    by_cases hall : ∀ x ∈ g, x ∈ l
    · -- All that outdo it are kept.
      have hsubset : g ⊆ l.filter (Outdoes k v · a) := fun x hx =>
        List.mem_filter.mpr ⟨hall x hx, decide_eq_true (hg x hx).2⟩
      rw [List.countP_eq_length_filter]
      exact hlength.trans (List.subperm_of_subset hnodup hsubset).length_le
    · -- One of them is not, and those that outdo it outdo `a`.
      push Not at hall
      obtain ⟨x, hx, hxl⟩ := hall
      refine (h.outdone x (hg x hx).1 hxl).trans (List.countP_mono_left fun y _ hy => ?_)
      rw [decide_eq_true_eq] at hy ⊢
      exact hy.trans (hg x hx).2

/-- The things that outdo one that is not kept. -/
theorem exists_outdoing (h : Leaders k v n l A) (ha : a ∈ A) (hnot : a ∉ l) :
    ∃ g : List α, g.Nodup ∧ n ≤ g.length ∧ ∀ x ∈ g, x ∈ l ∧ Outdoes k v x a := by
  refine ⟨l.filter (Outdoes k v · a), h.nodup.filter _, ?_, fun x hx => ?_⟩
  · rw [← List.countP_eq_length_filter]
    exact h.outdone a ha hnot
  · rw [List.mem_filter, decide_eq_true_eq] at hx
    exact hx

/-- The things that a step builds from what is kept stand for those it builds from all: `e` may
be any step that takes a group into a group and does not change who outdoes whom. -/
theorem build {e : α → α} {T : Set α} {l' : List α} (h : Leaders k v n l A)
    (hinj : Function.Injective e)
    (he : ∀ x y, Outdoes k v x y → Outdoes k v (e x) (e y))
    (h' : Leaders k v n l' (T ∪ Set.image e {x | x ∈ l})) :
    Leaders k v n l' (T ∪ Set.image e A) := by
  refine h'.extend ?_ ?_
  · exact Set.union_subset_union_right T (Set.image_mono h.mem)
  · rintro _ (hT | ⟨a, ha, rfl⟩) hnot
    · exact absurd (Or.inl hT) hnot
    have hal : a ∉ l := fun hal => hnot (Or.inr ⟨a, hal, rfl⟩)
    obtain ⟨g, hnodup, hlength, hg⟩ := h.exists_outdoing ha hal
    refine ⟨g.map e, hnodup.map hinj, by rwa [List.length_map], ?_⟩
    intro y hy
    obtain ⟨x, hx, rfl⟩ := List.mem_map.mp hy
    exact ⟨Or.inr ⟨x, (hg x hx).1, rfl⟩, he x a (hg x hx).2⟩

/-- The best of what is kept are the best of all, by any score that follows the worth within
a group. -/
theorem best {S : Type*} [LinearOrder S] {f : α → S} {r : List α} (h : Leaders k v n l A)
    (hf : ∀ x y, Outdoes k v x y → f y ≤ f x) (hr : Best n f {x | x ∈ l} r) :
    Best n f A r where
  nodup := hr.nodup
  mem x hx := h.mem x (hr.mem x hx)
  length_le := hr.length_le
  sorted := hr.sorted
  all hlt a ha := by
    by_cases hal : a ∈ l
    · exact hr.all hlt a hal
    · -- Then `n` others are kept, and the list is not short.
      obtain ⟨g, hnodup, hlength, hg⟩ := h.exists_outdoing ha hal
      have hsubset : g ⊆ r := fun x hx => hr.all hlt x (hg x hx).1
      have hle := (List.subperm_of_subset hnodup hsubset).length_le
      omega
  outside a ha hnot x hx := by
    by_cases hal : a ∈ l
    · exact hr.outside a hal hnot x hx
    · -- One of the `n` that outdo `a` is `x` itself or is not in the list either.
      obtain ⟨g, hnodup, hlength, hg⟩ := h.exists_outdoing ha hal
      by_cases hxg : x ∈ g
      · exact hf x a (hg x hxg).2
      · have hmissing : ∃ y ∈ g, y ∉ r := by
          by_contra hnone
          push Not at hnone
          have hsubset : x :: g ⊆ r := List.cons_subset.mpr ⟨hx, hnone⟩
          have hle := (List.subperm_of_subset (List.nodup_cons.mpr ⟨hxg, hnodup⟩) hsubset).length_le
          have hshort := hr.length_le
          rw [List.length_cons] at hle
          omega
        obtain ⟨y, hyg, hyr⟩ := hmissing
        exact (hf y a (hg y hyg).2).trans (hr.outside y (hg y hyg).1 hyr x hx)

end Leaders

end Leaders

end RagflowMineru.Library
