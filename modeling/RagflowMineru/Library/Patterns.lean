import Mathlib.Data.List.Forall2

/-!
# Patterns of symbols

A pattern is a list of symbols, and a relation says which items a symbol stands for.
Two patterns are apart when they have symbols at one place that stand for no item
together; no input then begins with both.
-/

namespace RagflowMineru.Library.Patterns

variable {σ α : Type*} {R S T : σ → α → Prop}

/-- The input begins with items for the symbols. -/
def Begins (R : σ → α → Prop) : List σ → List α → Prop
  | [], _ => True
  | _ :: _, [] => False
  | a :: f, t :: ts => R a t ∧ Begins R f ts

instance decidableBegins [∀ a, DecidablePred (R a)] :
    ∀ f ts, Decidable (Begins R f ts)
  | [], _ => inferInstanceAs (Decidable True)
  | _ :: _, [] => inferInstanceAs (Decidable False)
  | a :: f, t :: ts =>
      have := decidableBegins f ts
      inferInstanceAs (Decidable (R a t ∧ Begins R f ts))

@[simp] theorem begins_nil (ts : List α) : Begins R [] ts := trivial

@[simp] theorem not_begins_cons_nil (a : σ) (f : List σ) : ¬ Begins R (a :: f) [] := not_false

@[simp] theorem begins_cons_cons {a : σ} {f : List σ} {t : α} {ts : List α} :
    Begins R (a :: f) (t :: ts) ↔ R a t ∧ Begins R f ts := Iff.rfl

theorem begins_cons_iff {a : σ} {f : List σ} {ts : List α} :
    Begins R (a :: f) ts ↔ ∃ t rest, ts = t :: rest ∧ R a t ∧ Begins R f rest := by
  constructor
  · intro h
    cases ts with
    | nil => exact h.elim
    | cons t rest => exact ⟨t, rest, rfl, h⟩
  · rintro ⟨t, rest, rfl, h⟩
    exact h

/-- Items for the first symbols are followed by items for the others. -/
theorem begins_append_iff {f g : List σ} {ts : List α} :
    Begins R (f ++ g) ts ↔
      ∃ w rest, ts = w ++ rest ∧ List.Forall₂ R f w ∧ Begins R g rest := by
  induction f generalizing ts with
  | nil =>
      constructor
      · exact fun h => ⟨[], ts, rfl, .nil, h⟩
      · rintro ⟨w, rest, rfl, hw, h⟩
        rwa [List.forall₂_nil_left_iff.mp hw]
  | cons a f ih =>
      rw [List.cons_append, begins_cons_iff]
      constructor
      · rintro ⟨t, ts', rfl, ha, h⟩
        obtain ⟨w, rest, rfl, hw, hg⟩ := ih.mp h
        exact ⟨t :: w, rest, rfl, .cons ha hw, hg⟩
      · rintro ⟨w, rest, rfl, hw, hg⟩
        obtain ⟨t, w, ha, hf, rfl⟩ := List.forall₂_cons_left_iff.mp hw
        exact ⟨t, w ++ rest, rfl, ha, ih.mpr ⟨w, rest, rfl, hf, hg⟩⟩

theorem begins_iff {f : List σ} {ts : List α} :
    Begins R f ts ↔ ∃ w rest, ts = w ++ rest ∧ List.Forall₂ R f w := by
  have h := @begins_append_iff _ _ R f [] ts
  rw [List.append_nil] at h
  simpa only [begins_nil, and_true] using h

theorem Begins.left {f g : List σ} {ts : List α} (h : Begins R (f ++ g) ts) : Begins R f ts := by
  obtain ⟨w, rest, hts, hw, -⟩ := begins_append_iff.mp h
  exact begins_iff.mpr ⟨w, rest, hts, hw⟩

theorem Begins.mp (h : ∀ a t, R a t → S a t → T a t) {f : List σ} {ts : List α}
    (hR : Begins R f ts) (hS : Begins S f ts) : Begins T f ts := by
  induction f generalizing ts with
  | nil => trivial
  | cons a f ih =>
      obtain ⟨t, rest, rfl, ha, hR⟩ := begins_cons_iff.mp hR
      exact ⟨h a t ha hS.1, ih hR hS.2⟩

theorem begins_of_forall₂ {f : List σ} {ts : List α} (h : List.Forall₂ R f ts) :
    Begins R f ts := begins_iff.mpr ⟨ts, [], (List.append_nil ts).symm, h⟩

/-- A pattern as long as the input leaves nothing. -/
theorem forall₂_of_begins {f : List σ} {ts : List α} (h : Begins R f ts)
    (hlen : ts.length = f.length) : List.Forall₂ R f ts := by
  obtain ⟨w, rest, rfl, hw⟩ := begins_iff.mp h
  have hrest : rest = [] := by
    rw [← List.length_eq_zero_iff]
    have := hw.length_eq
    rw [List.length_append] at hlen
    omega
  rwa [hrest, List.append_nil]

/-! ## Patterns that are apart -/

/-- Some place has symbols that do not meet. -/
def apart (meets : σ → σ → Bool) : List σ → List σ → Bool
  | a :: f, b :: g => !meets a b || apart meets f g
  | _, _ => false

variable {meets : σ → σ → Bool}

/-- An input that begins with both patterns shows that they are not apart. -/
theorem not_apart (hmeets : ∀ a b t, R a t → S b t → meets a b) {f g : List σ} {ts : List α}
    (hf : Begins R f ts) (hg : Begins S g ts) : apart meets f g = false := by
  induction f generalizing g ts with
  | nil => rfl
  | cons a f ih =>
      cases g with
      | nil => rfl
      | cons b g =>
          obtain ⟨t, rest, rfl, ha, hf⟩ := begins_cons_iff.mp hf
          rw [apart, hmeets a b t ha hg.1, ih hf hg.2]
          rfl

theorem apart_append_left {p f g : List σ} (h : apart meets f g) :
    apart meets (p ++ f) (p ++ g) := by
  induction p with
  | nil => exact h
  | cons a p ih =>
      rw [List.cons_append, List.cons_append, apart, ih]
      exact Bool.or_true _

/-- Patterns stay apart when they go on. -/
theorem apart_append {f g : List σ} (h : apart meets f g) (x y : List σ) :
    apart meets (f ++ x) (g ++ y) := by
  induction f generalizing g with
  | nil => simp [apart] at h
  | cons a f ih =>
      cases g with
      | nil => simp [apart] at h
      | cons b g =>
          rw [List.cons_append, List.cons_append, apart]
          rw [apart, Bool.or_eq_true] at h
          obtain h | h := h
          · rw [h]
            rfl
          · rw [ih h]
            exact Bool.or_true _

end RagflowMineru.Library.Patterns
