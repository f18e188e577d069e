import Mathlib.Data.List.Basic
import Mathlib.Data.List.MinMax
import RagflowMineru.Library.Leaders

/-!
# A short list that takes offers

The first `n` offers are taken as they come.  From then on an offer that beats the last one
takes its place, and a halving search says where it goes.  The search is made for a sorted
list, which the first `n` offers need not be: `Settled` says when the list still ends up with
the `n` best offers, the best first.
-/

namespace RagflowMineru.Library

variable {α S : Type*}

/-! ## The halving search -/

/-- The first place behind the things with `p`, searched among the `len` places from `first`
on. -/
def lowerBound (p : α → Bool) (l : List α) (first len : ℕ) : ℕ :=
  if len = 0 then first
  else if (l[first + len / 2]?).any p then
    lowerBound p l (first + len / 2 + 1) (len - len / 2 - 1)
  else lowerBound p l first (len / 2)
termination_by len

/-- In any list the search ends between a thing with `p` and one without. -/
theorem lowerBound_spec (p : α → Bool) (l : List α) (first len : ℕ)
    (hbefore : ∀ i, i + 1 = first → (l[i]?).any p = true)
    (hafter : (l[first + len]?).any p = false) :
    lowerBound p l first len ≤ first + len ∧
      (∀ i, i + 1 = lowerBound p l first len → (l[i]?).any p = true) ∧
      (l[lowerBound p l first len]?).any p = false := by
  fun_induction lowerBound p l first len with
  | case1 first => exact ⟨le_rfl, hbefore, hafter⟩
  | case2 first len hlen hmid ih =>
    have hsplit : first + len / 2 + 1 + (len - len / 2 - 1) = first + len := by omega
    rw [hsplit] at ih
    refine ih (fun i hi => ?_) hafter
    obtain rfl : i = first + len / 2 := by omega
    exact hmid
  | case3 first len hlen hmid ih =>
    obtain ⟨hle, hspec⟩ := ih hbefore (Bool.not_eq_true _ ▸ hmid)
    exact ⟨by omega, hspec⟩

/-- Where all things with `p` come first, the search ends behind them. -/
theorem lowerBound_append {p : α → Bool} {l₁ l₂ : List α} (h₁ : ∀ x ∈ l₁, p x = true) :
    l₁.length ≤ lowerBound p (l₁ ++ l₂) 0 (l₁ ++ l₂).length ∧
      ((∀ x ∈ l₂, p x = false) →
        lowerBound p (l₁ ++ l₂) 0 (l₁ ++ l₂).length = l₁.length) := by
  obtain ⟨hle, hbefore, hafter⟩ := lowerBound_spec p (l₁ ++ l₂) 0 (l₁ ++ l₂).length
    (fun i hi => absurd hi (Nat.succ_ne_zero i)) (by simp)
  set place := lowerBound p (l₁ ++ l₂) 0 (l₁ ++ l₂).length
  have hge : l₁.length ≤ place := by
    by_contra hlt
    have hplace : place < l₁.length := by omega
    rw [List.getElem?_append_left hplace, List.getElem?_eq_getElem hplace, Option.any_some,
      h₁ _ (List.getElem_mem hplace)] at hafter
    exact Bool.noConfusion hafter
  refine ⟨hge, fun h₂ => ?_⟩
  by_contra hne
  obtain ⟨i, hi⟩ : ∃ i, i + 1 = place := ⟨place - 1, by omega⟩
  have hlast := hbefore i hi
  rw [List.length_append] at hle
  have hlt : i - l₁.length < l₂.length := by omega
  rw [List.getElem?_append_right (by omega), List.getElem?_eq_getElem hlt, Option.any_some,
    h₂ _ (List.getElem_mem hlt)] at hlast
  exact Bool.noConfusion hlast

/-! ## An offer -/

variable [LinearOrder S] {f : α → S} {n : ℕ} {l u w : List α} {a b : α}

/-- The list takes the offer `a`. -/
def offer (f : α → S) (n : ℕ) (l : List α) (a : α) : List α :=
  if l.length < n then l ++ [a]
  else if l.getLast?.any (fun last => decide (f last < f a)) then
    let kept := l.dropLast
    let place := lowerBound (fun x => decide (f a < f x)) kept 0 kept.length
    kept.take place ++ a :: kept.drop place
  else l

/-- Until there are `n`, all offers are taken as they come. -/
theorem foldl_offer_of_le (offers : List α) (h : l.length + offers.length ≤ n) :
    offers.foldl (offer f n) l = l ++ offers := by
  induction offers generalizing l with
  | nil => simp
  | cons a offers ih =>
    rw [List.length_cons] at h
    have hfirst : offer f n l a = l ++ [a] := by
      rw [offer, if_pos (by omega)]
    rw [List.foldl_cons, hfirst, ih (by rw [List.length_append, List.length_singleton]; omega),
      List.append_assoc, List.singleton_append]

theorem foldl_offer_eq (f : α → S) (n : ℕ) (l : List α) :
    l.foldl (offer f n) [] = (l.drop n).foldl (offer f n) (l.take n) := by
  have hfirst : (l.take n).foldl (offer f n) [] = l.take n :=
    foldl_offer_of_le (l.take n) (by simp)
  conv_lhs => rw [← List.take_append_drop n l]
  rw [List.foldl_append, hfirst]

/-- All that an offer to a full list can do. -/
theorem offer_cases (f : α → S) (hn : (u ++ [b]).length = n) (a : α) :
    f a ≤ f b ∧ offer f n (u ++ [b]) a = u ++ [b] ∨
      f b < f a ∧ ∃ u₁ u₂, u = u₁ ++ u₂ ∧ offer f n (u ++ [b]) a = u₁ ++ a :: u₂ ∧
        ∀ w₁ w₂, u = w₁ ++ w₂ → (∀ x ∈ w₁, f a < f x) →
          w₁.length ≤ u₁.length ∧ ((∀ x ∈ w₂, f x ≤ f a) → u₁ = w₁ ∧ u₂ = w₂) := by
  rcases le_or_gt (f a) (f b) with hle | hlt
  · refine Or.inl ⟨hle, ?_⟩
    rw [offer, if_neg (by omega), if_neg (by simpa using hle)]
  · refine Or.inr ⟨hlt, ?_⟩
    set place := lowerBound (fun x => decide (f a < f x)) u 0 u.length with hplace
    refine ⟨u.take place, u.drop place, (List.take_append_drop _ _).symm, ?_, ?_⟩
    · rw [offer, if_neg (by omega), if_pos (by simpa using hlt), List.dropLast_concat]
    · rintro w₁ w₂ rfl h₁
      obtain ⟨hge, heq⟩ := @lowerBound_append α (fun x => decide (f a < f x)) w₁ w₂
        fun x hx => decide_eq_true (h₁ x hx)
      have hle : place ≤ (w₁ ++ w₂).length := by
        refine ((lowerBound_spec _ _ _ _ (fun i hi => absurd hi (Nat.succ_ne_zero i)) ?_).1).trans
          (Nat.zero_add _).le
        simp
      refine ⟨?_, fun h₂ => ?_⟩
      · rw [List.length_take, min_eq_left hle]
        exact hge
      · have hplace' : place = w₁.length :=
          heq fun x hx => decide_eq_false (not_lt.mpr (h₂ x hx))
        rw [hplace', List.take_left, List.drop_left]
        exact ⟨rfl, rfl⟩

/-- A full list stays full. -/
theorem length_offer (f : α → S) (hn : l.length = n) (hpos : 0 < n) (a : α) :
    (offer f n l a).length = n := by
  rcases List.eq_nil_or_concat' l with rfl | ⟨u, b, rfl⟩
  · exact absurd hn hpos.ne
  · rcases offer_cases f hn a with ⟨-, heq⟩ | ⟨-, u₁, u₂, rfl, heq, -⟩
    · rw [heq, hn]
    · rw [heq, ← hn]
      simp only [List.length_append, List.length_cons, List.length_nil]
      omega

theorem length_foldl_offer (f : α → S) (hn : l.length = n) (hpos : 0 < n) (offers : List α) :
    (offers.foldl (offer f n) l).length = n := by
  induction offers generalizing l with
  | nil => exact hn
  | cons a offers ih => exact ih (length_offer f hn hpos a)

theorem mem_offer {x : α} (h : x ∈ offer f n l a) : x = a ∨ x ∈ l := by
  rw [offer] at h
  split_ifs at h
  · simp only [List.mem_append, List.mem_singleton] at h
    exact h.symm
  · simp only [List.mem_append, List.mem_cons] at h
    rcases h with h | h | h
    · exact Or.inr ((List.dropLast_subset l) (List.mem_of_mem_take h))
    · exact Or.inl h
    · exact Or.inr ((List.dropLast_subset l) (List.mem_of_mem_drop h))
  · exact Or.inr h

/-- Nothing is left that has not been offered. -/
theorem mem_foldl_offer {x : α} {offers : List α} (h : x ∈ offers.foldl (offer f n) l) :
    x ∈ l ∨ x ∈ offers := by
  induction offers generalizing l with
  | nil => exact Or.inl h
  | cons a offers ih =>
    rcases ih h with h | h
    · rcases mem_offer h with rfl | h
      · exact Or.inr List.mem_cons_self
      · exact Or.inl h
    · exact Or.inr (List.mem_cons_of_mem a h)

/-! ## Runs that end in order -/

/-- Every thing among the first `n` that stands before a better one is driven out: enough of the
later ones beat the better one, by `lt`. -/
def Settled (lt : S → S → Prop) [DecidableRel lt] (f : α → S) (n : ℕ) (l : List α) : Prop :=
  ∀ (i j : ℕ) (x y : α), i < j → j < n → l[i]? = some x → l[j]? = some y → f x < f y →
    n ≤ i + (l.drop n).countP fun z => lt (f y) (f z)

/-- A single thing is always in order. -/
theorem settled_one (lt : S → S → Prop) [DecidableRel lt] (f : α → S) (l : List α) :
    Settled lt f 1 l := by
  intro i j x y hij hj
  omega

/-- The list is `u ++ w`: `u` is in order and above the mark `m`, `w` below it may be out of
order, and nothing outside is above `u`, nor above the mark as long as there is a `w`. -/
structure Sifted (f : α → S) (m : S) (u w out : List α) : Prop where
  sorted : u.Pairwise fun x y => f y ≤ f x
  above : ∀ x ∈ u, m ≤ f x
  below : ∀ x ∈ w, f x ≤ m
  outside : ∀ x ∈ out, ∀ y ∈ u, f x ≤ f y
  mark : w ≠ [] → ∀ x ∈ out, f x ≤ m

/-- A list in order is divided at any score. -/
theorem exists_split_of_sorted (h : u.Pairwise fun x y => f y ≤ f x) (a : α) :
    ∃ w₁ w₂, u = w₁ ++ w₂ ∧ (∀ x ∈ w₁, f a < f x) ∧ ∀ x ∈ w₂, f x ≤ f a := by
  induction u with
  | nil => exact ⟨[], [], rfl, by simp, by simp⟩
  | cons b u ih =>
    obtain ⟨hb, hu⟩ := List.pairwise_cons.mp h
    rcases lt_or_ge (f a) (f b) with hlt | hle
    · obtain ⟨w₁, w₂, rfl, h₁, h₂⟩ := ih hu
      exact ⟨b :: w₁, w₂, rfl, List.forall_mem_cons.mpr ⟨hlt, h₁⟩, h₂⟩
    · refine ⟨[], b :: u, rfl, by simp, List.forall_mem_cons.mpr ⟨hle, fun x hx => ?_⟩⟩
      exact (hb x hx).trans hle

namespace Sifted

variable {m : S} {out : List α}

/-- An offer to a list in order leaves it in order, with the best. -/
theorem step_of_nil (h : Sifted f m u [] out) (hn : u.length = n) (hpos : 0 < n) (a : α) :
    ∃ out', Sifted f m (offer f n u a) [] out' ∧
      (offer f n u a ++ out').Perm (a :: (u ++ out)) := by
  obtain ⟨hsorted, habove, -, hout, -⟩ := h
  rcases List.eq_nil_or_concat' u with rfl | ⟨v, b, rfl⟩
  · exact absurd hn hpos.ne
  obtain ⟨hv, -, hlast⟩ := List.pairwise_append.mp hsorted
  have hleast : ∀ x ∈ v, f b ≤ f x := fun x hx => hlast x hx b (List.mem_singleton_self b)
  have hb : b ∈ v ++ [b] := by simp
  rcases offer_cases f hn a with ⟨hle, heq⟩ | ⟨hlt, u₁, u₂, hsplit, heq, hplace⟩
  · rw [heq]
    refine ⟨a :: out, ⟨hsorted, habove, by simp,
      List.forall_mem_cons.mpr ⟨fun y hy => ?_, hout⟩, by simp⟩, List.perm_middle⟩
    rcases List.mem_append.mp hy with hy | hy
    · exact hle.trans (hleast y hy)
    · rwa [List.mem_singleton.mp hy]
  · obtain ⟨w₁, w₂, rfl, h₁, h₂⟩ := exists_split_of_sorted hv a
    obtain ⟨rfl, rfl⟩ := (hplace w₁ w₂ rfl h₁).2 h₂
    have hmem : ∀ x ∈ u₁ ++ a :: u₂, x = a ∨ x ∈ u₁ ++ u₂ := by
      intro x hx
      simp only [List.mem_append, List.mem_cons] at hx ⊢
      tauto
    rw [heq]
    refine ⟨b :: out, ⟨pairwise_insert hv (fun x hx => (h₁ x hx).le) h₂, fun x hx => ?_, by simp,
      fun x hx y hy => ?_, by simp⟩, by simp⟩
    · rcases hmem x hx with rfl | hx
      · exact (habove b hb).trans hlt.le
      · exact habove x (List.mem_append_left _ hx)
    · have hxb : f x ≤ f b := by
        rcases List.mem_cons.mp hx with rfl | hx
        · exact le_rfl
        · exact hout x hx b hb
      rcases hmem y hy with rfl | hy
      · exact hxb.trans hlt.le
      · exact hxb.trans (hleast y hy)

/-- An offer above the mark drives out the last one of those that may be out of order. -/
theorem step_of_mark_le {v : List α} (h : Sifted f m u (v ++ [b]) out) (hma : m ≤ f a)
    (hlt : f b < f a) (hn : (u ++ v ++ [b]).length = n) :
    ∃ u', offer f n (u ++ v ++ [b]) a = u' ++ v ∧ Sifted f m u' v (b :: out) ∧
      u'.length = u.length + 1 ∧ (u' ++ v).Perm (a :: (u ++ v)) := by
  obtain ⟨hsorted, habove, hbelow, -, hmark⟩ := h
  have hmark' : ∀ x ∈ b :: out, f x ≤ m :=
    List.forall_mem_cons.mpr ⟨hbelow b (by simp), hmark (by simp)⟩
  have hvm : ∀ x ∈ v, f x ≤ m := fun x hx => hbelow x (List.mem_append_left _ hx)
  rcases offer_cases f hn a with ⟨hle, -⟩ | ⟨-, u₁, u₂, hsplit, heq, hplace⟩
  · exact absurd hlt (not_lt.mpr hle)
  obtain ⟨w₁, w₂, rfl, h₁, h₂⟩ := exists_split_of_sorted hsorted a
  have hrest : ∀ x ∈ w₂ ++ v, f x ≤ f a := by
    intro x hx
    rcases List.mem_append.mp hx with hx | hx
    · exact h₂ x hx
    · exact (hvm x hx).trans hma
  obtain ⟨rfl, rfl⟩ := (hplace w₁ (w₂ ++ v) (List.append_assoc _ _ _) h₁).2 hrest
  have habove' : ∀ x ∈ u₁ ++ a :: w₂, m ≤ f x := by
    intro x hx
    rcases List.mem_append.mp hx with hx | hx
    · exact habove x (List.mem_append_left _ hx)
    · rcases List.mem_cons.mp hx with rfl | hx
      · exact hma
      · exact habove x (List.mem_append_right _ hx)
  refine ⟨u₁ ++ a :: w₂, by simpa using heq,
    ⟨pairwise_insert hsorted (fun x hx => (h₁ x hx).le) h₂, habove', hvm,
      fun x hx y hy => (hmark' x hx).trans (habove' y hy), fun _ => hmark'⟩, ?_, by simp⟩
  simp only [List.length_append, List.length_cons]
  omega

/-- An offer below the mark goes among those that may be out of order, wherever the search has
ended. -/
theorem step_of_lt_mark {v : List α} (h : Sifted f m u (v ++ [b]) out) (hma : f a < m)
    (hlt : f b < f a) (hn : (u ++ v ++ [b]).length = n) :
    ∃ w', offer f n (u ++ v ++ [b]) a = u ++ w' ∧ Sifted f m u w' (b :: out) ∧
      (u ++ w').Perm (a :: (u ++ v)) := by
  obtain ⟨hsorted, habove, hbelow, -, hmark⟩ := h
  have hmark' : ∀ x ∈ b :: out, f x ≤ m :=
    List.forall_mem_cons.mpr ⟨hbelow b (by simp), hmark (by simp)⟩
  have hvm : ∀ x ∈ v, f x ≤ m := fun x hx => hbelow x (List.mem_append_left _ hx)
  rcases offer_cases f hn a with ⟨hle, -⟩ | ⟨-, u₁, u₂, hsplit, heq, hplace⟩
  · exact absurd hlt (not_lt.mpr hle)
  have hge := (hplace u v rfl fun x hx => hma.trans_le (habove x hx)).1
  obtain ⟨s, rfl⟩ : ∃ s, u₁ = u ++ s := by
    rcases List.append_eq_append_iff.mp hsplit with ⟨s, hs, -⟩ | ⟨s, hs, -⟩
    · exact ⟨s, hs⟩
    · refine ⟨[], ?_⟩
      rw [hs, List.length_append] at hge
      rw [hs, List.length_eq_zero_iff.mp (by omega : s.length = 0), List.append_nil,
        List.append_nil]
  rw [List.append_assoc] at hsplit
  obtain rfl := List.append_cancel_left hsplit
  have hbelow' : ∀ x ∈ s ++ a :: u₂, f x ≤ m := by
    intro x hx
    simp only [List.mem_append, List.mem_cons] at hx
    rcases hx with hx | rfl | hx
    · exact hvm x (List.mem_append_left _ hx)
    · exact hma.le
    · exact hvm x (List.mem_append_right _ hx)
  refine ⟨s ++ a :: u₂, by simpa using heq, ⟨hsorted, habove, hbelow',
    fun x hx y hy => (hmark' x hx).trans (habove y hy), fun _ => hmark'⟩, ?_⟩
  rw [← List.append_assoc, ← List.append_assoc]
  exact List.perm_middle

/-- What an offer leaves behind: the list is sifted again, and `u` grows with every offer above
the mark, until there is no `w`. -/
theorem step (h : Sifted f m u w out) (hn : (u ++ w).length = n) (hpos : 0 < n) (a : α) :
    ∃ u' w' out', offer f n (u ++ w) a = u' ++ w' ∧ Sifted f m u' w' out' ∧
      (u' ++ w' ++ out').Perm (a :: (u ++ w ++ out)) ∧
      (w' = [] ∨ u.length + (if m < f a then 1 else 0) ≤ u'.length) := by
  rcases List.eq_nil_or_concat' w with rfl | ⟨v, b, rfl⟩
  · rw [List.append_nil] at hn ⊢
    obtain ⟨out', h', hperm⟩ := h.step_of_nil hn hpos a
    exact ⟨offer f n u a, [], out', (List.append_nil _).symm, h', by rwa [List.append_nil],
      Or.inl rfl⟩
  rw [← List.append_assoc] at hn ⊢
  have hperm : ∀ l : List α, l.Perm (a :: (u ++ v)) →
      (l ++ b :: out).Perm (a :: (u ++ v ++ [b] ++ out)) := by
    intro l hl
    simpa using hl.append_right (b :: out)
  rcases offer_cases f hn a with ⟨hle, heq⟩ | ⟨hlt, -⟩
  · -- The offer is refused, and it is below the mark, as the last one is.
    have ham : f a ≤ m := hle.trans (h.below b (by simp))
    refine ⟨u, v ++ [b], a :: out, by simpa using heq, ⟨h.sorted, h.above, h.below,
      List.forall_mem_cons.mpr ⟨fun y hy => ham.trans (h.above y hy), h.outside⟩,
      fun hw => List.forall_mem_cons.mpr ⟨ham, h.mark hw⟩⟩, ?_,
      Or.inr (by rw [if_neg (not_lt.mpr ham), Nat.add_zero])⟩
    rw [← List.append_assoc]
    exact List.perm_middle
  rcases le_or_gt m (f a) with hma | hma
  · obtain ⟨u', heq, h', hlength, hl⟩ := h.step_of_mark_le hma hlt hn
    refine ⟨u', v, b :: out, heq, h', hperm _ hl, Or.inr ?_⟩
    split_ifs <;> omega
  · obtain ⟨w', heq, h', hl⟩ := h.step_of_lt_mark hma hlt hn
    exact ⟨u, w', b :: out, heq, h', hperm _ hl,
      Or.inr (by rw [if_neg (not_lt.mpr hma.le), Nat.add_zero])⟩

/-- With enough offers above the mark a run ends in order, and with the best. -/
theorem run (h : Sifted f m u w out) (hn : (u ++ w).length = n) (hpos : 0 < n)
    (offers : List α) (henough : n ≤ u.length + offers.countP fun z => m < f z) :
    (offers.foldl (offer f n) (u ++ w)).Pairwise (fun x y => f y ≤ f x) ∧
      ∃ out', (offers.foldl (offer f n) (u ++ w) ++ out').Perm (u ++ w ++ out ++ offers) ∧
        ∀ x ∈ out', ∀ y ∈ offers.foldl (offer f n) (u ++ w), f x ≤ f y := by
  induction offers generalizing u w out with
  | nil =>
    rw [List.countP_nil, Nat.add_zero] at henough
    rw [List.length_append] at hn
    obtain rfl : w = [] := List.length_eq_zero_iff.mp (by omega)
    simp only [List.append_nil, List.foldl_nil]
    exact ⟨h.sorted, out, List.Perm.refl _, h.outside⟩
  | cons a offers ih =>
    obtain ⟨u', w', out', heq, h', hperm, hgrow⟩ := h.step hn hpos a
    have hlength : (u' ++ w').length = n := heq ▸ length_offer f hn hpos a
    have henough' : n ≤ u'.length + offers.countP fun z => decide (m < f z) := by
      rcases hgrow with rfl | hgrow
      · rw [List.append_nil] at hlength
        omega
      · simp only [List.countP_cons, decide_eq_true_eq] at henough
        omega
    obtain ⟨hsorted, rest, hrest, hout⟩ := ih h' hlength henough'
    rw [List.foldl_cons, heq]
    refine ⟨hsorted, rest, hrest.trans ?_, hout⟩
    exact (hperm.append_right offers).trans List.perm_middle.symm

end Sifted

/-- Every list is sifted at the first thing that stands before a better one; the mark is the best
of those behind. -/
theorem exists_sifted (f : α → S) (l : List α) (hne : l ≠ []) :
    ∃ u w m, l = u ++ w ∧ Sifted f m u w [] ∧
      (w = [] ∨ ∃ j x y, u.length < j ∧ l[u.length]? = some x ∧ l[j]? = some y ∧
        f x < f y ∧ f y = m) := by
  induction l with
  | nil => exact absurd rfl hne
  | cons a t ih =>
    by_cases ht : t = []
    · subst ht
      exact ⟨[a], [], f a, rfl, ⟨by simp, by simp, by simp, by simp, by simp⟩, Or.inl rfl⟩
    by_cases hall : ∀ x ∈ t, f x ≤ f a
    · obtain ⟨u, w, m, rfl, h, hw⟩ := ih ht
      have hma : m ≤ f a := by
        rcases hw with rfl | ⟨j, x, y, -, -, hy, -, rfl⟩
        · obtain ⟨x, hx⟩ := List.exists_mem_of_ne_nil u (by simpa using ht)
          exact (h.above x hx).trans (hall x (List.mem_append_left _ hx))
        · exact hall y (List.mem_of_getElem? hy)
      refine ⟨a :: u, w, m, rfl, ⟨List.pairwise_cons.mpr ⟨fun x hx => ?_, h.sorted⟩,
        List.forall_mem_cons.mpr ⟨hma, h.above⟩, h.below, by simp, by simp⟩, ?_⟩
      · exact hall x (List.mem_append_left _ hx)
      · rcases hw with rfl | ⟨j, x, y, hj, hx, hy, hxy⟩
        · exact Or.inl rfl
        · exact Or.inr ⟨j + 1, x, y, Nat.succ_lt_succ hj, hx, hy, hxy⟩
    · push Not at hall
      obtain ⟨x, hx, hax⟩ := hall
      obtain ⟨y, hy⟩ :=
        Option.ne_none_iff_exists'.mp (mt List.argmax_eq_none.mp ht : t.argmax f ≠ none)
      have hbest : ∀ z ∈ t, f z ≤ f y := fun z hz => List.le_of_mem_argmax hz hy
      have hay : f a < f y := hax.trans_le (hbest x hx)
      obtain ⟨j, hj⟩ := List.mem_iff_getElem?.mp (List.argmax_mem hy)
      refine ⟨[], a :: t, f y, rfl, ⟨by simp, by simp, List.forall_mem_cons.mpr ⟨hay.le, hbest⟩,
        by simp, by simp⟩, Or.inr ⟨j + 1, a, y, Nat.succ_pos j, rfl, hj, hay, rfl⟩⟩

/-- Offers that settle leave the `n` best of them, the best first. -/
theorem best_foldl_offer (hpos : 0 < n) (hnodup : l.Nodup) (h : Settled (· < ·) f n l) :
    Best n f {x | x ∈ l} (l.foldl (offer f n) []) := by
  rcases le_or_gt l.length n with hle | hlt
  · rw [foldl_offer_of_le l (by simpa using hle), List.nil_append]
    refine ⟨hnodup, fun x hx => hx, hle, fun _ x hx => hx, ?_, fun x hx hnot => absurd hx hnot⟩
    refine List.pairwise_iff_getElem.mpr fun i j hi hj hij => ?_
    by_contra hxy
    have hn := h i j _ _ hij (by omega) (List.getElem?_eq_getElem hi) (List.getElem?_eq_getElem hj)
      (not_le.mp hxy)
    rw [List.drop_of_length_le hle, List.countP_nil] at hn
    omega
  · have hfront : (l.take n).length = n := List.length_take_of_le hlt.le
    obtain ⟨u, w, m, huw, hsifted, hw⟩ :=
      exists_sifted f (l.take n) (List.ne_nil_of_length_pos (by rwa [hfront]))
    have henough : n ≤ u.length + (l.drop n).countP fun z => m < f z := by
      rcases hw with rfl | ⟨j, x, y, hj, hx, hy, hxy, rfl⟩
      · rw [List.append_nil] at huw
        rw [← huw, hfront]
        exact Nat.le_add_right n _
      · have hjn : j < n := by
          have hj' := (List.getElem?_eq_some_iff.mp hy).1
          omega
        rw [List.getElem?_take_of_lt (hj.trans hjn)] at hx
        rw [List.getElem?_take_of_lt hjn] at hy
        exact h _ _ x y hj hjn hx hy hxy
    have hn : (u ++ w).length = n := huw ▸ hfront
    obtain ⟨hsorted, out, hperm, hout⟩ := hsifted.run hn hpos (l.drop n) henough
    rw [List.append_nil, ← huw, List.take_append_drop] at hperm
    rw [foldl_offer_eq]
    rw [← huw] at hsorted hout
    have hlength := length_foldl_offer f hfront hpos (l.drop n)
    refine ⟨(List.nodup_append.mp (hperm.nodup_iff.mpr hnodup)).1, fun x hx => ?_, hlength.le,
      fun hlt => absurd hlt hlength.ge.not_gt, hsorted, fun a ha hnot => ?_⟩
    · exact hperm.mem_iff.mp (List.mem_append_left _ hx)
    · rcases List.mem_append.mp (hperm.mem_iff.mpr ha) with ha | ha
      · exact absurd ha hnot
      · exact hout a ha

/-! ## What a run that ends in order has needed -/

/-- An offer leaves, of any things that it is not one of, all but perhaps the last. -/
theorem filter_offer_isPrefix {p : α → Bool} (f : α → S) (hn : l.length = n) (ha : p a = false) :
    (offer f n l a).filter p <+: l.filter p := by
  rcases List.eq_nil_or_concat' l with rfl | ⟨u, b, rfl⟩
  · subst hn
    simp [offer]
  · rcases offer_cases f hn a with ⟨-, heq⟩ | ⟨-, u₁, u₂, rfl, heq, -⟩
    · exact heq.symm ▸ List.prefix_refl _
    · have hfilter : (u₁ ++ a :: u₂).filter p = (u₁ ++ u₂).filter p := by
        simp [ha]
      rw [heq, hfilter, List.filter_append _ [b]]
      exact List.prefix_append _ _

theorem filter_foldl_offer_isPrefix {p : α → Bool} (f : α → S) (hn : l.length = n) (hpos : 0 < n)
    (offers : List α) (hoffers : ∀ a ∈ offers, p a = false) :
    (offers.foldl (offer f n) l).filter p <+: l.filter p := by
  induction offers generalizing l with
  | nil => exact List.prefix_refl _
  | cons a offers ih =>
    obtain ⟨ha, hoffers⟩ := List.forall_mem_cons.mp hoffers
    exact (ih (length_offer f hn hpos a) hoffers).trans (filter_offer_isPrefix f hn ha)

/-- What is left of the first `n` is a beginning of them. -/
theorem exists_kept {front later : List α} (f : α → S) (hn : front.length = n) (hpos : 0 < n)
    (hnodup : (front ++ later).Nodup) :
    ∃ kept new : List α, kept <+: front ∧ kept.Sublist (later.foldl (offer f n) front) ∧
      new.Sublist (later.foldl (offer f n) front) ∧
      (later.foldl (offer f n) front).length = kept.length + new.length ∧
      (∀ z ∈ later.foldl (offer f n) front, z ∈ front → z ∈ kept) ∧ ∀ z ∈ new, z ∉ front := by
  classical
  have hlater : ∀ z ∈ later, decide (z ∈ front) = false := fun z hz =>
    decide_eq_false fun hzf => (List.nodup_append.mp hnodup).2.2 z hzf z hz rfl
  refine ⟨(later.foldl (offer f n) front).filter fun z => decide (z ∈ front),
    (later.foldl (offer f n) front).filter fun z => !decide (z ∈ front), ?_,
    List.filter_sublist, List.filter_sublist, List.length_eq_length_filter_add _,
    fun z hz hzf => List.mem_filter.mpr ⟨hz, decide_eq_true hzf⟩, fun z hz => ?_⟩
  · have hfront : front.filter (fun z => decide (z ∈ front)) = front :=
      List.filter_eq_self.mpr fun z hz => decide_eq_true hz
    have hprefix := filter_foldl_offer_isPrefix f hn hpos later hlater
    rwa [hfront] at hprefix
  · simpa using (List.mem_filter.mp hz).2

/-- Where the best are left in order, the offers have settled, up to those that score the same. -/
theorem settled_of_best (hpos : 0 < n) (hnodup : l.Nodup)
    (h : Best n f {x | x ∈ l} (l.foldl (offer f n) [])) : Settled (· ≤ ·) f n l := by
  intro i j x y hij hjn hx hy hxy
  have hjl : j < l.length := (List.getElem?_eq_some_iff.mp hy).1
  have hyl : y ∈ l := List.mem_of_getElem? hy
  rcases lt_or_ge l.length n with hlt | hge
  · -- All are left as they came.
    rw [foldl_offer_of_le l (by simpa using hlt.le), List.nil_append] at h
    have hle := List.pairwise_iff_getElem.mp h.sorted i j (hij.trans hjl) hjl hij
    rw [List.getElem?_eq_getElem (hij.trans hjl), Option.some_inj] at hx
    rw [List.getElem?_eq_getElem hjl, Option.some_inj] at hy
    rw [hx, hy] at hle
    exact absurd hle (not_le.mpr hxy)
  rw [foldl_offer_eq] at h
  have happ : l.take n ++ l.drop n = l := List.take_append_drop n l
  have hfront : (l.take n).length = n := List.length_take_of_le hge
  rw [← List.getElem?_take_of_lt (hij.trans hjn)] at hx
  rw [← List.getElem?_take_of_lt hjn] at hy
  have hfnodup : (l.take n).Nodup := hnodup.sublist (List.take_sublist n l)
  obtain ⟨kept, new, ⟨s, hs⟩, hkept, hnew, hlength, hmem, hout⟩ :=
    exists_kept f hfront hpos (happ.symm ▸ hnodup)
  generalize (l.drop n).foldl (offer f n) (l.take n) = r at *
  have hget : ∀ t < kept.length, kept[t]? = (l.take n)[t]? := by
    intro t ht
    rw [← hs, List.getElem?_append_left ht]
  -- The better one is gone, or both would be left, and out of order.
  have hyr : y ∉ r := by
    intro hyr
    obtain ⟨t, hty⟩ := List.mem_iff_getElem?.mp (hmem y hyr (List.mem_of_getElem? hy))
    obtain ⟨ht, hty'⟩ := List.getElem?_eq_some_iff.mp hty
    rw [hget t ht, ← hy] at hty
    obtain rfl : j = t := (List.getElem?_inj (by rwa [hfront]) hfnodup).mp hty.symm
    rw [← hget i (hij.trans ht), List.getElem?_eq_getElem (hij.trans ht), Option.some_inj] at hx
    have hle := List.pairwise_iff_getElem.mp (h.sorted.sublist hkept) i j (hij.trans ht) ht hij
    rw [hx, hty'] at hle
    exact absurd hle (not_le.mpr hxy)
  have hk : kept.length ≤ i := by
    by_contra hlt
    rw [← hget i (not_le.mp hlt)] at hx
    exact absurd (h.outside y hyl hyr x (hkept.subset (List.mem_of_getElem? hx)))
      (not_le.mpr hxy)
  have hfull : n ≤ r.length := by
    by_contra hlt
    exact hyr (h.all (not_le.mp hlt) y hyl)
  have hcount : new.length ≤ (l.drop n).countP fun z => f y ≤ f z := by
    rw [List.countP_eq_length_filter]
    refine (List.subperm_of_subset (h.nodup.sublist hnew) fun z hz => ?_).length_le
    have hzr : z ∈ r := hnew.subset hz
    have hzl : z ∈ l.take n ++ l.drop n := happ.symm ▸ h.mem z hzr
    exact List.mem_filter.mpr ⟨(List.mem_append.mp hzl).resolve_left (hout z hz),
      decide_eq_true (h.outside y hyl hyr z hzr)⟩
  calc n ≤ r.length := hfull
    _ = kept.length + new.length := hlength
    _ ≤ i + (l.drop n).countP fun z => f y ≤ f z := Nat.add_le_add hk hcount

end RagflowMineru.Library
