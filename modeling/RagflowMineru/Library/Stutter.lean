import Mathlib.Data.List.Nodup
import Mathlib.Data.List.Infix

/-!
# Appending without stuttering

`pushNew l a` appends `a` unless it is already the last entry of `l`, and
`pushAll l as` does so for every element of `as` in order.  Only the last entry
is compared, so a duplicate that is not adjacent gets in; elements whose repeats
are all adjacent leave a list free of duplicates.
-/

namespace RagflowMineru.Library

variable {α : Type*} [DecidableEq α]

/-- Append `a` unless it is the last entry. -/
def pushNew (l : List α) (a : α) : List α :=
  if l.getLast? = some a then l else l ++ [a]

/-- Append the elements of a list in order, each unless it is then the last
entry. -/
def pushAll (l as : List α) : List α := as.foldl pushNew l

@[simp] theorem pushAll_nil (l : List α) : pushAll l [] = l := rfl

@[simp] theorem pushAll_cons (l : List α) (a : α) (as : List α) :
    pushAll l (a :: as) = pushAll (pushNew l a) as := rfl

theorem pushAll_append (l as bs : List α) :
    pushAll l (as ++ bs) = pushAll (pushAll l as) bs := by
  simp [pushAll]

theorem prefix_pushNew (l : List α) (a : α) : l <+: pushNew l a := by
  unfold pushNew
  split
  · exact List.prefix_refl l
  · exact List.prefix_append l [a]

theorem prefix_pushAll (l as : List α) : l <+: pushAll l as := by
  induction as generalizing l with
  | nil => exact List.prefix_refl l
  | cons a as ih => exact (prefix_pushNew l a).trans (ih (pushNew l a))

/-! ## Repeats -/

omit [DecidableEq α] in
/-- Every tracked element of the second list that occurs before it, in the first
list or in front of it in the second, is the entry right before it. -/
def NoLateRepeat (tracked : α → Bool) (l as : List α) : Prop :=
  ∀ bs a cs, as = bs ++ a :: cs → tracked a = true →
    a ∈ l ++ bs → (l ++ bs).getLast? = some a

section Repeats

variable {tracked : α → Bool} {l as : List α} {a : α}

omit [DecidableEq α] in
theorem noLateRepeat_nil : NoLateRepeat tracked l [] := by
  intro bs a cs h
  simp at h

omit [DecidableEq α] in
theorem noLateRepeat_cons :
    NoLateRepeat tracked l (a :: as) ↔
      (tracked a = true → a ∈ l → l.getLast? = some a) ∧
        NoLateRepeat tracked (l ++ [a]) as := by
  constructor
  · intro h
    constructor
    · intro htracked hmem
      simpa using h [] a as rfl htracked (by simpa using hmem)
    · intro bs b cs hsplit htracked hmem
      simpa using
        h (a :: bs) b cs (by simp [hsplit]) htracked (by simpa using hmem)
  · rintro ⟨hhead, htail⟩ bs b cs hsplit htracked hmem
    cases bs with
    | nil =>
        obtain ⟨rfl, rfl⟩ := List.cons.inj hsplit
        simpa using hhead htracked (by simpa using hmem)
    | cons b' bs =>
        obtain ⟨rfl, hrest⟩ := List.cons.inj hsplit
        simpa using htail bs b cs hrest htracked (by simpa using hmem)

instance decidableNoLateRepeat (tracked : α → Bool) :
    (l as : List α) → Decidable (NoLateRepeat tracked l as)
  | _, [] => isTrue noLateRepeat_nil
  | l, a :: as =>
      have := decidableNoLateRepeat tracked (l ++ [a]) as
      decidable_of_iff _ noLateRepeat_cons.symm

/-- The rule for appending.  `r` is what has been appended to `l` so far for the
elements of `bs`: each tracked one once.  Without late repeats the rest goes on
like this, and nothing but a leading repeat of the last entry of `l` gets lost.
-/
theorem pushAll_tracked {r bs : List α}
    (hcount : ∀ x, tracked x = true → r.count x ≤ 1)
    (hsub : ∀ x ∈ r, x ∈ bs)
    (hkept : ∀ x ∈ bs, l.getLast? ≠ some x → x ∈ r)
    (hlast : bs ≠ [] → (l ++ r).getLast? = bs.getLast?)
    (has : NoLateRepeat tracked bs as) :
    ∃ r', pushAll (l ++ r) as = l ++ r' ∧
      (∀ x, tracked x = true → r'.count x ≤ 1) ∧
      (∀ x ∈ r', x ∈ bs ++ as) ∧
      ∀ x ∈ bs ++ as, l.getLast? ≠ some x → x ∈ r' := by
  induction as generalizing r bs with
  | nil =>
      refine ⟨r, rfl, hcount, ?_, ?_⟩
      · simpa using hsub
      · simpa using hkept
  | cons a as ih =>
      obtain ⟨hhead, htail⟩ := noLateRepeat_cons.mp has
      have hassoc : bs ++ a :: as = bs ++ [a] ++ as := by simp
      rw [pushAll_cons, hassoc]
      by_cases hrepeat : (l ++ r).getLast? = some a
      · -- `a` is the last entry, so it is left out
        have hsame : pushNew (l ++ r) a = l ++ r := if_pos hrepeat
        rw [hsame]
        apply ih hcount _ _ _ htail
        · intro x hx
          exact List.mem_append_left _ (hsub x hx)
        · intro x hx hne
          rcases List.mem_append.mp hx with hold | hnew
          · exact hkept x hold hne
          · obtain rfl := List.mem_singleton.mp hnew
            rcases List.eq_nil_or_concat r with rfl | ⟨init, b, rfl⟩
            · exact absurd (by simpa using hrepeat) hne
            · have hb : b = x := by simpa using hrepeat
              simp [hb]
        · intro _
          simpa using hrepeat
      · -- `a` is appended, and has not been before when it is tracked
        have hnew : pushNew (l ++ r) a = l ++ (r ++ [a]) := by
          rw [pushNew, if_neg hrepeat, List.append_assoc]
        rw [hnew]
        have hfresh : tracked a = true → a ∉ r := by
          intro htracked hmem
          have hin := hsub a hmem
          have hend := hhead htracked hin
          rw [← hlast (List.ne_nil_of_mem hin)] at hend
          exact hrepeat hend
        apply ih _ _ _ _ htail
        · intro x hx
          rw [List.count_append, List.count_singleton]
          by_cases hxa : a = x
          · subst hxa
            rw [List.count_eq_zero.mpr (hfresh hx)]
            simp
          · have hle := hcount x hx
            simpa [hxa] using hle
        · intro x hx
          rcases List.mem_append.mp hx with hold | hlast
          · exact List.mem_append_left _ (hsub x hold)
          · exact List.mem_append_right _ hlast
        · intro x hx hne
          rcases List.mem_append.mp hx with hold | hlast
          · exact List.mem_append_left _ (hkept x hold hne)
          · exact List.mem_append_right _ hlast
        · intro _
          rw [← List.append_assoc]
          simp

/-- Appended to a list whose later part is free of duplicates, elements without
late repeats leave that part free of duplicates. -/
theorem nodup_pushAll {r : List α} (hr : r.Nodup)
    (has : NoLateRepeat (fun _ => true) r as) :
    ∃ r', pushAll (l ++ r) as = l ++ r' ∧ r'.Nodup := by
  have hlast : r ≠ [] → (l ++ r).getLast? = r.getLast? := by
    intro hne
    exact List.getLast?_append_of_ne_nil l hne
  obtain ⟨r', hpush, hcount, -, -⟩ :=
    pushAll_tracked (l := l) (fun x _ => List.nodup_iff_count_le_one.mp hr x)
      (fun _ hx => hx) (fun _ hx _ => hx) hlast has
  refine ⟨r', hpush, ?_⟩
  rw [List.nodup_iff_count_le_one]
  intro x
  exact hcount x rfl

/-- Tracked elements without late repeats are appended once each. -/
theorem pushAll_once (has : NoLateRepeat tracked [] as) :
    ∃ r, pushAll l as = l ++ r ∧
      (∀ x, tracked x = true → r.count x ≤ 1) ∧ (∀ x ∈ r, x ∈ as) ∧
      ∀ x ∈ as, l.getLast? ≠ some x → x ∈ r := by
  obtain ⟨r, hpush, hcount, hsub, hkept⟩ :=
    pushAll_tracked (l := l) (r := []) (fun _ _ => Nat.zero_le _) (by simp)
      (by simp) (by simp) has
  simp only [List.append_nil, List.nil_append] at hpush hsub hkept
  exact ⟨r, hpush, hcount, hsub, hkept⟩

end Repeats

end RagflowMineru.Library
