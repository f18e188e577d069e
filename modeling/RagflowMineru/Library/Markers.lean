import RagflowMineru.Library.Scanning

/-!
# Rewriting markers

A marker begins with an opening letter and has no other.  Markers are rewritten in passes, those of
one kind after those of another, and the word that replaces one may be a marker again.  As no marker
reaches into another, what the passes replace has been there from the start, and a second run over
all passes finds nothing to do.
-/

namespace RagflowMineru.Library.Markers

variable {α τ ι : Type*}

/-- A word that begins with an opening letter and has no other. -/
def Opened (opening : α → Prop) (w : List α) : Prop :=
  ∃ a rest, w = a :: rest ∧ opening a ∧ ∀ b ∈ rest, ¬ opening b

/-- All markers are opened, and of what follows one only the first letter matters, which may as well
be an opening one. -/
structure Opens (opening : α → Prop) (m : Matcher α τ) : Prop where
  opened : ∀ {s t}, m.at? s = some t → Opened opening (m.spell t)
  follow : ∀ {t r r'}, m.at? (m.spell t ++ r) = some t →
    (r'.head? = r.head? ∨ ∃ a ∈ r'.head?, opening a) → m.at? (m.spell t ++ r') = some t

section Passes

variable (rule : τ → Option (ι × List α)) (m : Matcher α τ)

/-- One pass: a marker with a rule is replaced, the others stay. -/
def rewrite (s : List α) : List α :=
  joinAll (fun t => (rule t).elim (m.spell t) Prod.snd) (m.scan s).1 (m.scan s).2

/-- The notes on what a pass replaces. -/
def notes (s : List α) : List ι := (m.scan s).2.filterMap fun part => (rule part.1).map Prod.fst

/-- All passes, one after the other. -/
def runPasses : List (Matcher α τ) → List α → List α × List ι
  | [], s => (s, [])
  | m :: passes, s =>
      let (s', is) := runPasses passes (rewrite rule m s)
      (s', notes rule m s ++ is)

/-- Some markers of a text are replaced, with notes. -/
inductive Rewritten (ms : List (Matcher α τ)) : List α → List α → List ι → Prop
  | nil : Rewritten ms [] [] []
  | keep {s s' is} (a) : Rewritten ms s s' is → Rewritten ms (a :: s) (a :: s') is
  | replace {m t i w s s' is} : m ∈ ms → m.at? (m.spell t ++ s) = some t → rule t = some (i, w) →
      Rewritten ms s s' is → Rewritten ms (m.spell t ++ s) (w ++ s') (i :: is)

/-- A marker that stays as it is, without a new note. -/
def Quiet (noted : ι → Prop) (t : τ) : Prop :=
  rule t = none ∨ ∃ i, noted i ∧ rule t = some (i, m.spell t)

/-- All markers of a text stay as they are. -/
def Settled (noted : ι → Prop) : List α → Prop
  | [] => True
  | a :: s => (∀ t, m.at? (a :: s) = some t → Quiet rule m noted t) ∧ Settled noted s

/-- The new words are opened, and a marker is found in one only if it is all of the word, which
then stays. -/
structure Stable (opening : α → Prop) (ms : List (Matcher α τ)) : Prop where
  opened : ∀ {t i w}, rule t = some (i, w) → Opened opening w
  kept : ∀ {m}, m ∈ ms → ∀ {t i w r t'}, rule t = some (i, w) → m.at? (w ++ r) = some t' →
    m.spell t' = w ∧ rule t' = some (i, w)

end Passes

variable {rule : τ → Option (ι × List α)} {m : Matcher α τ} {ms : List (Matcher α τ)}
variable {opening : α → Prop} {noted : ι → Prop} {s s' r w : List α} {is : List ι} {a : α} {t : τ}

section Scanning

@[simp] theorem rewrite_nil : rewrite rule m [] = [] := rfl

@[simp] theorem notes_nil : notes rule m [] = [] := rfl

theorem rewrite_cons (h : m.at? (a :: s) = none) :
    rewrite rule m (a :: s) = a :: rewrite rule m s := by
  rw [rewrite, Matcher.scan_cons_of_none h]
  rfl

theorem notes_cons (h : m.at? (a :: s) = none) : notes rule m (a :: s) = notes rule m s := by
  rw [notes, Matcher.scan_cons_of_none h]
  rfl

theorem rewrite_spell (h : m.at? (m.spell t ++ r) = some t) :
    rewrite rule m (m.spell t ++ r) =
      (rule t).elim (m.spell t) Prod.snd ++ rewrite rule m r := by
  rw [rewrite, Matcher.scan_spell_append h, joinAll_cons, List.nil_append]
  rfl

theorem notes_spell (h : m.at? (m.spell t ++ r) = some t) :
    notes rule m (m.spell t ++ r) = ((rule t).map Prod.fst).toList ++ notes rule m r := by
  rw [notes, Matcher.scan_spell_append h, List.filterMap_cons]
  cases rule t <;> rfl

/-- A marker begins with an opening letter. -/
theorem Opens.at?_eq_none (h : Opens opening m) (ha : ¬ opening a) : m.at? (a :: s) = none := by
  cases hat : m.at? (a :: s) with
  | none => rfl
  | some t =>
      obtain ⟨b, rest, hspell, hb, -⟩ := h.opened hat
      have hbegins := m.spell_begins hat
      rw [hspell, List.cons_prefix_cons] at hbegins
      exact absurd (hbegins.1 ▸ hb) ha

/-- What a match begins with: the opening letter, and letters that are not. -/
theorem Opens.exists_cons (h : Opens opening m) (hat : m.at? (a :: s) = some t) :
    ∃ rest r, m.spell t = a :: rest ∧ s = rest ++ r ∧ ∀ b ∈ rest, ¬ opening b := by
  obtain ⟨b, rest, hspell, -, hrest⟩ := h.opened hat
  obtain ⟨r, hr⟩ := m.spell_begins hat
  rw [hspell, List.cons_append] at hr
  obtain ⟨rfl, rfl⟩ := List.cons.inj hr
  exact ⟨rest, r, hspell, rfl, hrest⟩

/-- Letters that open nothing stay. -/
theorem Opens.rewrite_append (h : Opens opening m) (hw : ∀ b ∈ w, ¬ opening b) :
    rewrite rule m (w ++ s) = w ++ rewrite rule m s := by
  induction w with
  | nil => rfl
  | cons b w ih =>
      rw [List.cons_append, rewrite_cons (h.at?_eq_none (hw b List.mem_cons_self)),
        ih fun b hb => hw b (List.mem_cons_of_mem _ hb), List.cons_append]

theorem Opens.notes_append (h : Opens opening m) (hw : ∀ b ∈ w, ¬ opening b) :
    notes rule m (w ++ s) = notes rule m s := by
  induction w with
  | nil => rfl
  | cons b w ih =>
      rw [List.cons_append, notes_cons (h.at?_eq_none (hw b List.mem_cons_self)),
        ih fun b hb => hw b (List.mem_cons_of_mem _ hb)]

theorem Opens.settled_append (h : Opens opening m) (hw : ∀ b ∈ w, ¬ opening b)
    (hs : Settled rule m noted s) : Settled rule m noted (w ++ s) := by
  induction w with
  | nil => exact hs
  | cons b w ih =>
      refine ⟨fun t hat => ?_, ih fun b hb => hw b (List.mem_cons_of_mem _ hb)⟩
      rw [List.append_eq, h.at?_eq_none (hw b List.mem_cons_self)] at hat
      exact nomatch hat

theorem settled_of_append (h : Settled rule m noted (w ++ s)) : Settled rule m noted s := by
  induction w with
  | nil => exact h
  | cons b w ih => exact ih h.2

end Scanning

section Rewritings

variable {s₁ : List α}

/-- A new word is settled. -/
theorem Stable.settled_word (hstable : Stable rule opening ms) (hopens : Opens opening m)
    (hm : m ∈ ms) {i : ι} (hrule : rule t = some (i, w)) (hi : noted i)
    (hs : Settled rule m noted s) : Settled rule m noted (w ++ s) := by
  obtain ⟨a, rest, hw, -, hrest⟩ := hstable.opened hrule
  have hkept := @Stable.kept _ _ _ _ _ _ hstable m hm t i w s
  subst hw
  refine ⟨fun t' hat => ?_, hopens.settled_append hrest hs⟩
  obtain ⟨hspell, hrule'⟩ := hkept hrule hat
  rw [← hspell] at hrule'
  exact .inr ⟨i, hi, hrule'⟩

theorem Rewritten.append_left (w : List α) (h : Rewritten rule ms s s' is) :
    Rewritten rule ms (w ++ s) (w ++ s') is := by
  induction w with
  | nil => exact h
  | cons b w ih => exact .keep b ih

theorem Rewritten.cons_cases (h : Rewritten rule ms s (a :: s₁) is) :
    (∃ r, s = a :: r ∧ Rewritten rule ms r s₁ is) ∨
      ∃ m ∈ ms, ∃ t i w r r' is', s = m.spell t ++ r ∧ a :: s₁ = w ++ r' ∧ is = i :: is' ∧
        m.at? (m.spell t ++ r) = some t ∧ rule t = some (i, w) ∧ Rewritten rule ms r r' is' := by
  generalize hq : a :: s₁ = q at h
  cases h with
  | nil => exact nomatch hq
  | keep b h =>
      obtain ⟨rfl, rfl⟩ := List.cons.inj hq
      exact .inl ⟨_, rfl, h⟩
  | replace hm hat hrule h => exact .inr ⟨_, hm, _, _, _, _, _, _, rfl, rfl, rfl, hat, hrule, h⟩

theorem rewritten_refl (s : List α) : Rewritten rule ms s s [] := by
  have hnil : Rewritten rule ms [] [] [] := .nil
  have h := hnil.append_left s
  rwa [List.append_nil] at h

/-- A pass rewrites the text. -/
theorem rewritten_rewrite (hm : m ∈ ms) (s : List α) :
    Rewritten rule ms s (rewrite rule m s) (notes rule m s) := by
  induction s using Matcher.scan_induction (m := m) with
  | nil => exact .nil
  | skip a s hat ih =>
      rw [rewrite_cons hat, notes_cons hat]
      exact .keep a ih
  | found t r hat ih =>
      rw [rewrite_spell hat, notes_spell hat]
      rcases hrule : rule t with - | ⟨i, w⟩
      · exact ih.append_left _
      · exact .replace hm hat hrule ih

/-- A text and its rewriting begin alike, or the text with a marker. -/
theorem Rewritten.head (hopens : ∀ m ∈ ms, Opens opening m) (h : Rewritten rule ms s s' is) :
    s.head? = s'.head? ∨ ∃ a ∈ s.head?, opening a := by
  cases h with
  | nil => exact .inl rfl
  | keep a _ => exact .inl rfl
  | replace hm hat _ _ =>
      obtain ⟨a, rest, hspell, ha, -⟩ := (hopens _ hm).opened hat
      rw [hspell]
      exact .inr ⟨a, rfl, ha⟩

variable (hstable : Stable rule opening ms)
include hstable

/-- Letters that open nothing have been kept. -/
theorem Rewritten.split (h : Rewritten rule ms s (w ++ r) is) (hw : ∀ b ∈ w, ¬ opening b) :
    ∃ u, s = w ++ u ∧ Rewritten rule ms u r is := by
  induction w generalizing s with
  | nil => exact ⟨s, rfl, h⟩
  | cons b w ih =>
      rcases h.cons_cases with ⟨u, rfl, hu⟩ | ⟨m, -, t, i, v, u, r', is', -, hv, -, -, hrule, -⟩
      · obtain ⟨u', rfl, hu'⟩ := ih hu fun b hb => hw b (List.mem_cons_of_mem _ hb)
        exact ⟨u', rfl, hu'⟩
      · obtain ⟨c, rest, rfl, hc, -⟩ := hstable.opened hrule
        have hhead := (List.cons.inj hv).1
        exact absurd (hhead ▸ hc) (hw b List.mem_cons_self)

variable (hopens : ∀ m ∈ ms, Opens opening m)
include hopens

/-- A marker that begins with a kept letter has been there before. -/
theorem Rewritten.at?_cons (h : Rewritten rule ms s s' is) (hm : m ∈ ms)
    (hat : m.at? (a :: s') = some t) : m.at? (a :: s) = some t := by
  obtain ⟨rest, r, hspell, rfl, hrest⟩ := (hopens m hm).exists_cons hat
  obtain ⟨u, rfl, hu⟩ := h.split hstable hrest
  have hfollow : m.at? (m.spell t ++ r) = some t → _ → m.at? (m.spell t ++ u) = some t :=
    (hopens m hm).follow
  rw [hspell] at hfollow
  exact hfollow hat (hu.head hopens)

/-- What is settled stays so when other markers are rewritten. -/
theorem Rewritten.settled (h : Rewritten rule ms s s' is) (hm : m ∈ ms)
    (hs : Settled rule m noted s) (his : ∀ i ∈ is, noted i) : Settled rule m noted s' := by
  induction h with
  | nil => exact hs
  | keep a h ih =>
      exact ⟨fun t hat => hs.1 t (h.at?_cons hstable hopens hm hat), ih hs.2 his⟩
  | @replace m' t i w s s' is hm' hat hrule h ih =>
      have htail := ih (settled_of_append hs) fun j hj => his j (List.mem_cons_of_mem _ hj)
      exact hstable.settled_word (hopens m hm) hm hrule (his i List.mem_cons_self) htail

/-- Behind its own pass a text is settled. -/
theorem settled_rewrite (hm : m ∈ ms) (s : List α) (hnoted : ∀ i ∈ notes rule m s, noted i) :
    Settled rule m noted (rewrite rule m s) := by
  induction s using Matcher.scan_induction (m := m) with
  | nil => trivial
  | skip a s hat ih =>
      rw [rewrite_cons hat]
      rw [notes_cons hat] at hnoted
      refine ⟨fun t hat' => ?_, ih hnoted⟩
      have hbefore := (rewritten_rewrite hm s).at?_cons hstable hopens hm hat'
      rw [hat] at hbefore
      exact nomatch hbefore
  | found t r hat ih =>
      rw [rewrite_spell hat]
      rw [notes_spell hat] at hnoted
      have htail := ih fun i hi => hnoted i (List.mem_append_right _ hi)
      have hrest : Rewritten rule ms r _ _ := rewritten_rewrite hm r
      rcases hrule : rule t with - | ⟨i, w⟩
      · obtain ⟨a, rest, hspell, -, hclosed⟩ := (hopens m hm).opened hat
        change Settled rule m noted (m.spell t ++ rewrite rule m r)
        rw [hspell]
        refine ⟨fun t' hat' => .inl ?_, (hopens m hm).settled_append hclosed htail⟩
        have hbefore := (hrest.append_left rest).at?_cons hstable hopens hm hat'
        rw [← List.cons_append, ← hspell, hat] at hbefore
        exact Option.some.inj hbefore ▸ hrule
      · refine hstable.settled_word (hopens m hm) hm hrule (hnoted i ?_) htail
        rw [hrule]
        exact List.mem_cons_self

/-- A pass over a rewritten text rewrites the text it comes from. -/
theorem Rewritten.rewrite (hm : m ∈ ms) (h : Rewritten rule ms s s₁ is) :
    ∃ js, Rewritten rule ms s (Markers.rewrite rule m s₁) js ∧
      ∀ j, j ∈ js ↔ j ∈ is ∨ j ∈ notes rule m s₁ := by
  induction s₁ using Matcher.scan_induction (m := m) generalizing s is with
  | nil => exact ⟨is, h, fun j => by simp⟩
  | skip a s₁ hat ih =>
      rw [rewrite_cons hat, notes_cons hat]
      rcases h.cons_cases with ⟨r, rfl, hr⟩ |
        ⟨m', hm', t, i, w, r, r', is', rfl, hw, rfl, hat', hrule, hr⟩
      · obtain ⟨js, hjs, hmem⟩ := ih hr
        exact ⟨js, .keep a hjs, hmem⟩
      · obtain ⟨b, rest, rfl, -, hrest⟩ := hstable.opened hrule
        obtain ⟨rfl, rfl⟩ := List.cons.inj hw
        obtain ⟨js, hjs, hmem⟩ := ih (hr.append_left rest)
        rw [List.append_eq, (hopens m hm).rewrite_append hrest] at hjs ⊢
        obtain ⟨u, hu, hrest'⟩ := hjs.split hstable hrest
        obtain rfl := List.append_cancel_left hu
        refine ⟨i :: js, .replace hm' hat' hrule hrest', fun j => ?_⟩
        rw [List.mem_cons, List.mem_cons, hmem, or_assoc, List.append_eq]
  | found t r hat ih =>
      rw [rewrite_spell hat, notes_spell hat]
      obtain ⟨a, rest, hspell, -, hrest⟩ := (hopens m hm).opened hat
      have hcons := h
      rw [hspell] at hcons
      rcases hcons.cons_cases with ⟨u, rfl, hu⟩ |
        ⟨m', hm', t', i, w, u, r', is', rfl, hw, rfl, hat', hrule, hu⟩
      · obtain ⟨u', rfl, hu'⟩ := hu.split hstable hrest
        obtain ⟨js, hjs, hmem⟩ := ih hu'
        have hfound := (hopens m hm).follow hat (hu'.head hopens)
        rw [← List.cons_append, ← hspell]
        rcases hrule : rule t with - | ⟨i, w⟩
        · exact ⟨js, hjs.append_left _, hmem⟩
        · refine ⟨i :: js, .replace hm hfound hrule hjs, fun j => ?_⟩
          change j ∈ i :: js ↔ j ∈ is ∨ j ∈ i :: notes rule m r
          rw [List.mem_cons, List.mem_cons, hmem, or_left_comm]
      · have hboth : m.spell t ++ r = w ++ r' := by
          rw [hspell]
          exact hw
        rw [hboth] at hat
        obtain ⟨rfl, hrule'⟩ := hstable.kept hm hrule hat
        obtain rfl := List.append_cancel_left hboth
        obtain ⟨js, hjs, hmem⟩ := ih hu
        rw [hrule']
        refine ⟨i :: js, .replace hm' hat' hrule hjs, fun j => ?_⟩
        change j ∈ i :: js ↔ j ∈ i :: is' ∨ j ∈ i :: notes rule m r
        rw [List.mem_cons, List.mem_cons, List.mem_cons, hmem]
        tauto

end Rewritings

section Runs

/-- A pass over a settled text changes nothing. -/
theorem rewrite_of_settled (hs : Settled rule m noted s) :
    rewrite rule m s = s ∧ ∀ i ∈ notes rule m s, noted i := by
  induction s using Matcher.scan_induction (m := m) with
  | nil => exact ⟨rfl, fun i hi => absurd hi List.not_mem_nil⟩
  | skip a s hat ih =>
      obtain ⟨hsame, hnoted⟩ := ih hs.2
      rw [rewrite_cons hat, notes_cons hat, hsame]
      exact ⟨rfl, hnoted⟩
  | found t r hat ih =>
      obtain ⟨hsame, hnoted⟩ := ih (settled_of_append hs)
      obtain ⟨a, q, hq⟩ := List.exists_cons_of_ne_nil (m.spell_ne_nil hat)
      have hquiet : Quiet rule m noted t := by
        rw [hq] at hs hat
        exact hs.1 t hat
      rw [rewrite_spell hat, notes_spell hat, hsame]
      rcases hquiet with hrule | ⟨i, hi, hrule⟩
      · rw [hrule]
        exact ⟨rfl, hnoted⟩
      · rw [hrule]
        refine ⟨rfl, fun j hj => ?_⟩
        rcases List.mem_cons.mp hj with rfl | hj
        · exact hi
        · exact hnoted j hj

variable {passes : List (Matcher α τ)}

theorem runPasses_of_settled (hs : ∀ m ∈ passes, Settled rule m noted s) :
    (runPasses rule passes s).1 = s ∧ ∀ i ∈ (runPasses rule passes s).2, noted i := by
  induction passes with
  | nil => exact ⟨rfl, fun i hi => absurd hi List.not_mem_nil⟩
  | cons m passes ih =>
      obtain ⟨hsame, hnoted⟩ := rewrite_of_settled (hs m List.mem_cons_self)
      obtain ⟨hrun, hnoted'⟩ := ih fun m' hm' => hs m' (List.mem_cons_of_mem _ hm')
      rw [runPasses, hsame]
      refine ⟨hrun, fun i hi => ?_⟩
      rcases List.mem_append.mp hi with hi | hi
      · exact hnoted i hi
      · exact hnoted' i hi

variable (hstable : Stable rule opening ms) (hopens : ∀ m ∈ ms, Opens opening m)
include hstable hopens

/-- What the passes replace has been there from the start. -/
theorem Rewritten.runPasses {s₁ : List α} (hpasses : passes ⊆ ms)
    (h : Rewritten rule ms s s₁ is) :
    ∃ js, Rewritten rule ms s (Markers.runPasses rule passes s₁).1 js ∧
      ∀ j, j ∈ js ↔ j ∈ is ∨ j ∈ (Markers.runPasses rule passes s₁).2 := by
  induction passes generalizing s₁ is with
  | nil => exact ⟨is, h, fun j => by simp [Markers.runPasses]⟩
  | cons m passes ih =>
      obtain ⟨hm, hpasses⟩ := List.cons_subset.mp hpasses
      obtain ⟨is', his', hmem⟩ := h.rewrite hstable hopens hm
      obtain ⟨js, hjs, hmem'⟩ := ih hpasses his'
      refine ⟨js, hjs, fun j => ?_⟩
      rw [hmem', hmem, Markers.runPasses, List.mem_append, or_assoc]

theorem settled_runPasses (hpasses : passes ⊆ ms) (s : List α)
    (hnoted : ∀ i ∈ (runPasses rule passes s).2, noted i) :
    ∀ m ∈ passes, Settled rule m noted (runPasses rule passes s).1 := by
  induction passes generalizing s with
  | nil => exact fun m hm => absurd hm List.not_mem_nil
  | cons m passes ih =>
      obtain ⟨hm, hrest⟩ := List.cons_subset.mp hpasses
      have hnoted' : ∀ i ∈ (runPasses rule passes (rewrite rule m s)).2, noted i := fun i hi =>
        hnoted i (List.mem_append_right _ hi)
      intro m' hm'
      rcases List.mem_cons.mp hm' with rfl | hm'
      · obtain ⟨js, hjs, hmem⟩ :=
          (rewritten_refl (rewrite rule m' s)).runPasses hstable hopens hrest
        refine hjs.settled hstable hopens hm (settled_rewrite hstable hopens hm s fun i hi => ?_)
          fun j hj => ?_
        · exact hnoted i (List.mem_append_left _ hi)
        · exact hnoted' j (((hmem j).mp hj).resolve_left List.not_mem_nil)
      · exact ih hrest _ hnoted' m' hm'

/-- A second run over all passes finds nothing new. -/
theorem runPasses_runPasses (hpasses : passes ⊆ ms) (s : List α) :
    (runPasses rule passes (runPasses rule passes s).1).1 = (runPasses rule passes s).1 ∧
      ∀ i ∈ (runPasses rule passes (runPasses rule passes s).1).2,
        i ∈ (runPasses rule passes s).2 :=
  runPasses_of_settled (settled_runPasses hstable hopens hpasses s fun _ hi => hi)

end Runs

end RagflowMineru.Library.Markers
