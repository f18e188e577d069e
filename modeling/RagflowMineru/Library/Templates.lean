import Mathlib.Data.List.TakeWhile

/-!
# Templates

A template is a list of items, each of which takes one letter of a kind, or as many as there are.
-/

namespace RagflowMineru.Library.Templates

variable {α : Type*}

inductive Item (α : Type*) where
  | one (p : α → Bool)
  | many (p : α → Bool)

def Item.kind : Item α → α → Bool
  | .one p => p
  | .many p => p

/-- What the items take from the start of a text, and what they leave. -/
def consume : List (Item α) → List α → Option (List α × List α)
  | [], s => some ([], s)
  | .one _ :: _, [] => none
  | .one p :: items, a :: s =>
      if p a then (consume items s).map fun (x, r) => (a :: x, r) else none
  | .many p :: items, s =>
      (consume items (s.dropWhile p)).map fun (x, r) => (s.takeWhile p ++ x, r)

variable {items : List (Item α)} {p : α → Bool} {s x r r' : List α} {a : α}

theorem consume_one_cons (h : consume (.one p :: items) s = some (x, r)) :
    ∃ a s' x', s = a :: s' ∧ x = a :: x' ∧ p a = true ∧ consume items s' = some (x', r) := by
  cases s with
  | nil => exact nomatch h
  | cons a s =>
      rw [consume] at h
      split_ifs at h with ha
      obtain ⟨⟨x', r'⟩, hconsume, heq⟩ := Option.map_eq_some_iff.mp h
      obtain ⟨rfl, rfl⟩ := Prod.mk.inj heq
      exact ⟨a, s, x', rfl, rfl, ha, hconsume⟩

theorem consume_many_cons (h : consume (.many p :: items) s = some (x, r)) :
    ∃ x', x = s.takeWhile p ++ x' ∧ consume items (s.dropWhile p) = some (x', r) := by
  obtain ⟨⟨x', r'⟩, hconsume, heq⟩ := Option.map_eq_some_iff.mp h
  obtain ⟨rfl, rfl⟩ := Prod.mk.inj heq
  exact ⟨x', rfl, hconsume⟩

theorem append_of_consume (h : consume items s = some (x, r)) : x ++ r = s := by
  induction items generalizing s x with
  | nil =>
      obtain ⟨rfl, rfl⟩ := Prod.mk.inj (Option.some.inj h)
      rfl
  | cons item items ih =>
      cases item with
      | one p =>
          obtain ⟨a, s, x, rfl, rfl, -, h⟩ := consume_one_cons h
          exact congrArg (a :: ·) (ih h)
      | many p =>
          obtain ⟨x', rfl, hrest⟩ := consume_many_cons h
          rw [List.append_assoc, ih hrest, List.takeWhile_append_dropWhile]

/-- All letters that are taken are of the kind of some item. -/
theorem exists_kind_of_mem (h : consume items s = some (x, r)) (ha : a ∈ x) :
    ∃ item ∈ items, item.kind a = true := by
  induction items generalizing s x with
  | nil =>
      obtain ⟨rfl, -⟩ := Prod.mk.inj (Option.some.inj h)
      exact absurd ha List.not_mem_nil
  | cons item items ih =>
      cases item with
      | one p =>
          obtain ⟨b, s, x, rfl, rfl, hb, h⟩ := consume_one_cons h
          rcases List.mem_cons.mp ha with rfl | ha
          · exact ⟨_, List.mem_cons_self, hb⟩
          · obtain ⟨item, hitem, hkind⟩ := ih h ha
            exact ⟨item, List.mem_cons_of_mem _ hitem, hkind⟩
      | many p =>
          obtain ⟨x', rfl, hrest⟩ := consume_many_cons h
          rcases List.mem_append.mp ha with ha | ha
          · exact ⟨_, List.mem_cons_self, List.mem_takeWhile_imp ha⟩
          · obtain ⟨item, hitem, hkind⟩ := ih hrest ha
            exact ⟨item, List.mem_cons_of_mem _ hitem, hkind⟩

/-- Letters of a kind, up to one that is not. -/
theorem span_append {w u : List α} (hw : ∀ a ∈ w, p a = true) (hu : ∀ a ∈ u.head?, p a = false) :
    (w ++ u).takeWhile p = w ∧ (w ++ u).dropWhile p = u := by
  have hend : u.takeWhile p = [] ∧ u.dropWhile p = u := by
    cases u with
    | nil => exact ⟨rfl, rfl⟩
    | cons a u =>
        have ha := hu a rfl
        exact ⟨List.takeWhile_cons_of_neg (by simp [ha]), List.dropWhile_cons_of_neg (by simp [ha])⟩
  rw [List.takeWhile_append_of_pos hw, List.dropWhile_append_of_pos hw, hend.1, hend.2]
  exact ⟨List.append_nil w, rfl⟩

theorem consume_one (ha : p a = true) (h : consume items s = some (x, r)) :
    consume (.one p :: items) (a :: s) = some (a :: x, r) := by
  rw [consume, if_pos ha, h]
  rfl

theorem consume_many {w u : List α} (hw : ∀ a ∈ w, p a = true)
    (hu : ∀ a ∈ u.head?, p a = false) (h : consume items u = some (x, r)) :
    consume (.many p :: items) (w ++ u) = some (w ++ x, r) := by
  obtain ⟨htake, hdrop⟩ := span_append hw hu
  rw [consume, htake, hdrop, h]
  rfl

theorem consume_many_none (hs : ∀ a ∈ s.head?, p a = false) (h : consume items s = some (x, r)) :
    consume (.many p :: items) s = some (x, r) :=
  consume_many (w := []) (fun _ ha => absurd ha List.not_mem_nil) hs h

theorem consume_many_none_cons (ha : p a = false) (h : consume items (a :: s) = some (x, r)) :
    consume (.many p :: items) (a :: s) = some (x, r) :=
  consume_many_none (fun _ hb => Option.some.inj hb ▸ ha) h

/-- Of what follows only the first letter matters, and not if no item takes as many such letters as
there are. -/
theorem consume_follow (h : consume items (x ++ r) = some (x, r))
    (hr : r'.head? = r.head? ∨ ∃ a ∈ r'.head?, ∀ p, .many p ∈ items → p a = false) :
    consume items (x ++ r') = some (x, r') := by
  induction items generalizing x with
  | nil =>
      obtain ⟨rfl, -⟩ := Prod.mk.inj (Option.some.inj h)
      rfl
  | cons item items ih =>
      have hr' : r'.head? = r.head? ∨ ∃ a ∈ r'.head?, ∀ p, .many p ∈ items → p a = false := by
        refine hr.imp_right ?_
        rintro ⟨a, ha, hmany⟩
        exact ⟨a, ha, fun p hp => hmany p (List.mem_cons_of_mem _ hp)⟩
      cases item with
      | one p =>
          obtain ⟨a, s, x, hs, rfl, ha, h⟩ := consume_one_cons h
          obtain ⟨-, rfl⟩ := List.cons.inj hs
          exact consume_one ha (ih h hr')
      | many p =>
          obtain ⟨x', hx, h⟩ := consume_many_cons h
          have hrest := append_of_consume h
          generalize hw : (x ++ r).takeWhile p = w at hx
          subst hx
          have hwp : ∀ a ∈ w, p a = true := fun a ha => by
            rw [← hw] at ha
            exact List.mem_takeWhile_imp ha
          have hstop : ∀ a ∈ (x' ++ r).head?, p a = false := by
            intro a ha
            rw [hrest] at ha
            have hnot := List.head?_dropWhile_not p (w ++ x' ++ r)
            rw [ha] at hnot
            simpa using hnot
          have hstop' : ∀ a ∈ (x' ++ r').head?, p a = false := by
            intro a ha
            cases x' with
            | cons b x' => exact hstop a ha
            | nil =>
                rcases hr with hsame | ⟨b, hb, hmany⟩
                · exact hstop a (hsame ▸ ha)
                · obtain rfl := Option.some.inj (ha.symm.trans hb)
                  exact hmany p List.mem_cons_self
          rw [← hrest] at h
          rw [List.append_assoc]
          exact consume_many hwp hstop' (ih h hr')

/-- Letters that are replaced by others of the same kinds are taken alike. -/
theorem consume_map {f : α → α} (hf : ∀ item ∈ items, ∀ a, item.kind (f a) = item.kind a) :
    consume items (s.map f) = (consume items s).map (Prod.map (List.map f) (List.map f)) := by
  induction items generalizing s with
  | nil => rfl
  | cons item items ih =>
      have hitem := hf item List.mem_cons_self
      have hrest : ∀ {s : List α}, consume items (s.map f) =
          (consume items s).map (Prod.map (List.map f) (List.map f)) :=
        ih fun item hitem => hf item (List.mem_cons_of_mem _ hitem)
      cases item with
      | one p =>
          cases s with
          | nil => rfl
          | cons a s =>
              have ha : p (f a) = p a := hitem a
              rw [List.map_cons, consume, consume, ha, hrest]
              split_ifs
              · rw [Option.map_map, Option.map_map]
                rfl
              · rfl
      | many p =>
          have hp : p ∘ f = p := funext hitem
          rw [consume, consume, List.dropWhile_map, List.takeWhile_map, hp, hrest, Option.map_map,
            Option.map_map]
          congr 1
          funext q
          simp only [Function.comp, Prod.map, List.map_append]

end RagflowMineru.Library.Templates
