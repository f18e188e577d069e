import Mathlib.Data.List.Infix

/-!
# Tags in a text

A tag begins with a letter that it does not repeat and ends with a letter that
it does not use before, as `<b>` does.  So an occurrence of a tag does not reach
over a place where another tag begins or ends, and searching for tags, and
erasing them from left to right, can be done piece by piece.
-/

namespace RagflowMineru.Library

variable {α : Type*}

/-- `p` begins with `lo` and ends with `hi`, and has them nowhere else. -/
structure IsTag (lo hi : α) (p : List α) : Prop where
  opens : ∃ q, p = lo :: q ∧ lo ∉ q
  closes : ∃ q, p = q ++ [hi] ∧ hi ∉ q

section Occurrences

variable {lo hi : α} {p : List α}

theorem IsTag.ne_nil (hp : IsTag lo hi p) : p ≠ [] := by
  obtain ⟨q, rfl, -⟩ := hp.opens
  exact List.cons_ne_nil lo q

/-- A tag that begins in `t` when another tag begins behind `t` lies in `t`. -/
theorem IsTag.begins_of_append (hp : IsTag lo hi p) {t r : List α} (hne : t ≠ [])
    (h : p <+: t ++ lo :: r) : p <+: t := by
  rcases List.prefix_or_prefix_of_prefix h
    (List.prefix_append t (lo :: r)) with hin | ⟨w, rfl⟩
  · exact hin
  · have hw := (List.prefix_append_right_inj t).mp h
    cases w with
    | nil => rw [List.append_nil]
    | cons a w =>
        obtain ⟨rfl, -⟩ := List.cons_prefix_cons.mp hw
        obtain ⟨q, hq, hnot⟩ := hp.opens
        obtain ⟨b, t, rfl⟩ := List.exists_cons_of_ne_nil hne
        obtain ⟨-, rfl⟩ := List.cons.inj hq
        exact absurd (by simp) hnot

/-- A tag that does not occur in `t` does not begin in it when the next tag
begins behind `t`. -/
theorem IsTag.not_begins (hp : IsTag lo hi p) {t r : List α}
    (ht : ¬ p <:+: t) (hne : t ≠ []) : ¬ p <+: t ++ lo :: r := by
  intro hbegins
  exact ht (hp.begins_of_append hne hbegins).isInfix

theorem IsTag.reverse (hp : IsTag lo hi p) : IsTag hi lo p.reverse := by
  obtain ⟨q, hq, hlo⟩ := hp.opens
  obtain ⟨r, hr, hhi⟩ := hp.closes
  constructor
  · refine ⟨r.reverse, ?_, by simpa using hhi⟩
    rw [hr, List.reverse_append, List.reverse_singleton, List.singleton_append]
  · refine ⟨q.reverse, ?_, by simpa using hlo⟩
    rw [hq, List.reverse_cons]

/-- A tag that does not occur in `t` does not end in it when the last tag ends
in front of `t`. -/
theorem IsTag.not_ends (hp : IsTag lo hi p) {t u : List α}
    (ht : ¬ p <:+: t) (hne : t ≠ []) : ¬ p <:+ u ++ hi :: t := by
  have hreverse : ¬ p.reverse <+: t.reverse ++ hi :: u.reverse := by
    apply hp.reverse.not_begins
    · rwa [List.reverse_infix]
    · rwa [Ne, List.reverse_eq_nil_iff]
  rw [← List.reverse_prefix]
  simpa using hreverse

theorem length_le_of_closes {q q' : List α} (hq : hi ∉ q')
    (h : q ++ [hi] <+: q' ++ [hi]) : (q' ++ [hi]).length ≤ (q ++ [hi]).length := by
  rcases List.prefix_concat_iff.mp h with heq | hin
  · exact (congrArg List.length heq).ge
  · exact absurd (hin.subset (by simp)) hq

/-- Tags that begin at one place are equal. -/
theorem IsTag.eq_of_begins (hp : IsTag lo hi p) {p' r : List α}
    (hp' : IsTag lo hi p') (h : p <+: p' ++ r) : p = p' := by
  obtain ⟨q, rfl, hq⟩ := hp.closes
  obtain ⟨q', rfl, hq'⟩ := hp'.closes
  rcases List.prefix_or_prefix_of_prefix h
    (List.prefix_append (q' ++ [hi]) r) with hin | hin
  · exact hin.eq_of_length_le (length_le_of_closes hq' hin)
  · exact (hin.eq_of_length_le (length_le_of_closes hq hin)).symm

end Occurrences

/-! ## Searching -/

variable [DecidableEq α]

/-- The place of the first occurrence of `p`. -/
def find (p : List α) : List α → Option ℕ
  | [] => if p = [] then some 0 else none
  | a :: s => if p <+: a :: s then some 0 else (find p s).map (· + 1)

theorem find_eq_none_iff {p s : List α} :
    find p s = none ↔ ¬ p <:+: s := by
  induction s with
  | nil => simp [find]
  | cons a s ih =>
      rw [find, List.infix_cons_iff]
      by_cases hbegins : p <+: a :: s
      · simp [hbegins]
      · simp [hbegins, ih]

/-- What stands in front of the first occurrence. -/
theorem find_spec {p s : List α} {n : ℕ} (h : find p s = some n) :
    ∃ r, s = s.take n ++ p ++ r := by
  induction s generalizing n with
  | nil =>
      rw [find] at h
      split_ifs at h with hp
      exact ⟨[], by simp [hp]⟩
  | cons a s ih =>
      rw [find] at h
      split_ifs at h with hbegins
      · obtain rfl := Option.some.inj h
        obtain ⟨r, hr⟩ := hbegins
        exact ⟨r, by simp [hr]⟩
      · obtain ⟨m, hm, rfl⟩ := Option.map_eq_some_iff.mp h
        obtain ⟨r, hr⟩ := ih hm
        refine ⟨r, ?_⟩
        rw [List.take_succ_cons, List.cons_append, List.cons_append, ← hr]

/-- In front of the first occurrence there is none. -/
theorem find_take {p s : List α} (hp : p ≠ []) {n : ℕ}
    (h : find p s = some n) : find p (s.take n) = none := by
  induction s generalizing n with
  | nil =>
      rw [find, if_neg hp] at h
      cases h
  | cons a s ih =>
      rw [find] at h
      split_ifs at h with hbegins
      · obtain rfl := Option.some.inj h
        rw [List.take_zero, find, if_neg hp]
      · obtain ⟨m, hm, rfl⟩ := Option.map_eq_some_iff.mp h
        have hnot : ¬ p <+: a :: s.take m := by
          intro hin
          apply hbegins
          exact hin.trans (List.cons_prefix_cons.mpr
            ⟨rfl, List.take_prefix m s⟩)
        rw [List.take_succ_cons, find, if_neg hnot, ih hm]
        rfl

theorem find_self_append {p : List α} (hp : p ≠ []) (s : List α) :
    find p (p ++ s) = some 0 := by
  obtain ⟨a, q, rfl⟩ := List.exists_cons_of_ne_nil hp
  rw [List.cons_append, find, if_pos]
  exact List.prefix_append (a :: q) s

/-- A text without the tag is passed over. -/
theorem IsTag.find_append {lo hi : α} {p : List α} (hp : IsTag lo hi p)
    {t : List α} (ht : ¬ p <:+: t) (r : List α) :
    find p (t ++ lo :: r) = (find p (lo :: r)).map (· + t.length) := by
  induction t with
  | nil => simp
  | cons a t ih =>
      have hrest : ¬ p <:+: t := fun hin =>
        ht (hin.trans (List.suffix_cons a t).isInfix)
      have hnot := hp.not_begins (r := r) ht (List.cons_ne_nil a t)
      rw [List.cons_append] at hnot
      rw [List.cons_append, find, if_neg hnot, ih hrest, Option.map_map,
        List.length_cons]
      rfl

/-! ## Erasing -/

/-- Erase from left to right every occurrence of one of `ps`; the first `skip`
letters belong to an occurrence already. -/
def eraseFrom (ps : List (List α)) : ℕ → List α → List α
  | _, [] => []
  | skip + 1, _ :: s => eraseFrom ps skip s
  | 0, a :: s =>
      match ps.find? fun p => decide (p <+: a :: s) with
      | some p => eraseFrom ps (p.length - 1) s
      | none => a :: eraseFrom ps 0 s

/-- Erase every occurrence of one of `ps`. -/
def eraseAll (ps : List (List α)) (s : List α) : List α :=
  eraseFrom ps 0 s

theorem eraseFrom_eq_drop (ps : List (List α)) (skip : ℕ) (s : List α) :
    eraseFrom ps skip s = eraseAll ps (s.drop skip) := by
  induction s generalizing skip with
  | nil => simp [eraseFrom, eraseAll]
  | cons a s ih =>
      cases skip with
      | zero => rfl
      | succ skip => rw [eraseFrom, ih, List.drop_succ_cons]

theorem length_eraseFrom_le (ps : List (List α)) (skip : ℕ) (s : List α) :
    (eraseFrom ps skip s).length ≤ s.length := by
  induction s generalizing skip with
  | nil => simp [eraseFrom]
  | cons a s ih =>
      cases skip with
      | succ skip => exact (ih skip).trans (Nat.le_succ _)
      | zero =>
          rw [eraseFrom]
          split
          · exact (ih _).trans (Nat.le_succ _)
          · exact Nat.succ_le_succ (ih 0)

theorem length_eraseAll_le (ps : List (List α)) (s : List α) :
    (eraseAll ps s).length ≤ s.length :=
  length_eraseFrom_le ps 0 s

section EraseTags

variable {lo hi : α} {ps : List (List α)} (hps : ∀ p ∈ ps, IsTag lo hi p)

/-- A text without tags is left as it is. -/
theorem eraseAll_of_free {t : List α} (ht : ∀ p ∈ ps, ¬ p <:+: t) :
    eraseAll ps t = t := by
  induction t with
  | nil => rfl
  | cons a t ih =>
      have hnone : (ps.find? fun p => decide (p <+: a :: t)) = none := by
        rw [List.find?_eq_none]
        intro p hp
        rw [decide_eq_true_eq]
        exact fun hin => ht p hp hin.isInfix
      have hrest : ∀ p ∈ ps, ¬ p <:+: t := by
        intro p hp hin
        exact ht p hp (hin.trans (List.suffix_cons a t).isInfix)
      rw [eraseAll, eraseFrom, hnone]
      exact congrArg (a :: ·) (ih hrest)

include hps

/-- A text without tags in front of a tag is kept. -/
theorem eraseAll_append {t : List α} (ht : ∀ p ∈ ps, ¬ p <:+: t) (r : List α) :
    eraseAll ps (t ++ lo :: r) = t ++ eraseAll ps (lo :: r) := by
  induction t with
  | nil => rfl
  | cons a t ih =>
      have hnone : (ps.find? fun p =>
          decide (p <+: a :: (t ++ lo :: r))) = none := by
        rw [List.find?_eq_none]
        intro p hp
        rw [decide_eq_true_eq]
        exact (hps p hp).not_begins (ht p hp) (List.cons_ne_nil a t)
      have hrest : ∀ p ∈ ps, ¬ p <:+: t := by
        intro p hp hin
        exact ht p hp (hin.trans (List.suffix_cons a t).isInfix)
      rw [List.cons_append, eraseAll, eraseFrom, hnone]
      exact congrArg (a :: ·) (ih hrest)

/-- A tag in front is erased. -/
theorem eraseAll_tag_append {p : List α} (hp : p ∈ ps) (r : List α) :
    eraseAll ps (p ++ r) = eraseAll ps r := by
  obtain ⟨a, q, rfl⟩ := List.exists_cons_of_ne_nil (hps p hp).ne_nil
  have hfound : (ps.find? fun p' => decide (p' <+: a :: (q ++ r))) =
      some (a :: q) := by
    obtain ⟨p', hp'⟩ : ∃ p', (ps.find? fun p' =>
        decide (p' <+: a :: (q ++ r))) = some p' := by
      rw [← Option.isSome_iff_exists, List.find?_isSome]
      exact ⟨a :: q, hp, by simp⟩
    have hbegins := List.find?_some hp'
    rw [decide_eq_true_eq] at hbegins
    rw [hp', (hps p' (List.mem_of_find?_eq_some hp')).eq_of_begins (hps _ hp)
      hbegins]
  rw [List.cons_append, eraseAll, eraseFrom, hfound]
  change eraseFrom ps ((a :: q).length - 1) (q ++ r) = eraseAll ps r
  rw [eraseFrom_eq_drop, List.length_cons, Nat.add_sub_cancel,
    List.drop_left]

/-- A text with a tag in it gets shorter by at least that tag. -/
theorem length_eraseAll_of_mem {p : List α} (hp : p ∈ ps) {t : List α}
    (ht : p <:+: t) : ∃ p' ∈ ps,
      (eraseAll ps t).length + p'.length ≤ t.length := by
  induction t with
  | nil =>
      exact absurd (List.eq_nil_of_infix_nil ht) (hps p hp).ne_nil
  | cons a t ih =>
      cases hfind : ps.find? fun p' => decide (p' <+: a :: t) with
      | some p' =>
          have hmem := List.mem_of_find?_eq_some hfind
          have hbegins := List.find?_some hfind
          rw [decide_eq_true_eq] at hbegins
          obtain ⟨r, hr⟩ := hbegins
          refine ⟨p', hmem, ?_⟩
          have hle := length_eraseAll_le ps r
          rw [← hr, eraseAll_tag_append hps hmem, List.length_append]
          omega
      | none =>
          have hin : p <:+: t := by
            rcases List.infix_cons_iff.mp ht with hbegins | hin
            · rw [List.find?_eq_none] at hfind
              exact absurd (decide_eq_true hbegins) (hfind p hp)
            · exact hin
          obtain ⟨p', hmem, hle⟩ := ih hin
          refine ⟨p', hmem, ?_⟩
          rw [eraseAll, eraseFrom, hfind]
          simp only [List.length_cons]
          rw [eraseAll] at hle
          omega

end EraseTags

/-! ## Splitting -/

section Split

variable {τ : Type*} (spell : τ → List α) (tags : List τ)

/-- Split a text at its tags from left to right: what stands in front of the first tag, and
each tag with what follows it.  The first `skip` letters belong to a tag already. -/
def splitFrom : ℕ → List α → List α × List (τ × List α)
  | _, [] => ([], [])
  | skip + 1, _ :: s => splitFrom skip s
  | 0, a :: s =>
      match tags.find? fun tag => decide (spell tag <+: a :: s) with
      | some tag =>
          let (text, rest) := splitFrom ((spell tag).length - 1) s
          ([], (tag, text) :: rest)
      | none =>
          let (text, rest) := splitFrom 0 s
          (a :: text, rest)

def splitAll (s : List α) : List α × List (τ × List α) := splitFrom spell tags 0 s

/-- A text with tags, put together from its parts. -/
def joinAll (text : List α) (rest : List (τ × List α)) : List α :=
  text ++ rest.flatMap fun part => spell part.1 ++ part.2

variable {spell tags}

theorem splitFrom_eq_drop (skip : ℕ) (s : List α) :
    splitFrom spell tags skip s = splitAll spell tags (s.drop skip) := by
  induction s generalizing skip with
  | nil => simp [splitFrom, splitAll]
  | cons a s ih =>
      cases skip with
      | zero => rfl
      | succ skip => rw [splitFrom, ih, List.drop_succ_cons]

theorem splitAll_cons_of_none {a : α} {s : List α} (h : ∀ tag ∈ tags, ¬ spell tag <+: a :: s) :
    splitAll spell tags (a :: s) =
      (a :: (splitAll spell tags s).1, (splitAll spell tags s).2) := by
  have hnone : (tags.find? fun tag => decide (spell tag <+: a :: s)) = none := by
    rw [List.find?_eq_none]
    intro tag htag
    rw [decide_eq_true_eq]
    exact h tag htag
  rw [splitAll, splitFrom, hnone]
  rfl

/-- A text without tags is passed over. -/
theorem splitAll_of_free {t : List α} (ht : ∀ tag ∈ tags, ¬ spell tag <:+: t) :
    splitAll spell tags t = (t, []) := by
  induction t with
  | nil => rfl
  | cons a t ih =>
      have hrest := ih fun tag htag hin =>
        ht tag htag (hin.trans (List.suffix_cons a t).isInfix)
      rw [splitAll_cons_of_none fun tag htag hbegins => ht tag htag hbegins.isInfix, hrest]

/-- No tag is left in a part. -/
theorem splitFrom_free (hne : ∀ tag ∈ tags, spell tag ≠ []) (skip : ℕ) (s : List α) :
    (splitFrom spell tags skip s).1 <+: s.drop skip ∧
      (∀ tag ∈ tags, ¬ spell tag <:+: (splitFrom spell tags skip s).1) ∧
      ∀ part ∈ (splitFrom spell tags skip s).2, ∀ tag ∈ tags, ¬ spell tag <:+: part.2 := by
  have hnil : ∀ tag ∈ tags, ¬ spell tag <:+: [] := fun tag htag hin =>
    hne tag htag (List.eq_nil_of_infix_nil hin)
  induction s generalizing skip with
  | nil => simpa [splitFrom] using hnil
  | cons a s ih =>
    cases skip with
    | succ skip => exact ih skip
    | zero =>
      cases hfind : tags.find? fun tag => decide (spell tag <+: a :: s) with
      | some tag =>
        obtain ⟨-, htext, hrest⟩ := ih ((spell tag).length - 1)
        rw [splitFrom, hfind]
        exact ⟨List.nil_prefix, hnil, List.forall_mem_cons.mpr ⟨htext, hrest⟩⟩
      | none =>
        obtain ⟨hfront, htext, hrest⟩ := ih 0
        rw [splitFrom, hfind]
        have hbegins : a :: (splitFrom spell tags 0 s).1 <+: a :: s :=
          List.cons_prefix_cons.mpr ⟨rfl, hfront⟩
        refine ⟨hbegins, fun tag htag hin => ?_, hrest⟩
        rcases List.infix_cons_iff.mp hin with hfirst | hin
        · rw [List.find?_eq_none] at hfind
          exact hfind tag htag (decide_eq_true (hfirst.trans hbegins))
        · exact htext tag htag hin

theorem splitAll_free (hne : ∀ tag ∈ tags, spell tag ≠ []) (s : List α) :
    (∀ tag ∈ tags, ¬ spell tag <:+: (splitAll spell tags s).1) ∧
      ∀ part ∈ (splitAll spell tags s).2, ∀ tag ∈ tags, ¬ spell tag <:+: part.2 :=
  (splitFrom_free hne 0 s).2

variable {lo hi : α} (hspell : ∀ tag ∈ tags, IsTag lo hi (spell tag))

include hspell

theorem splitAll_append {t : List α} (ht : ∀ tag ∈ tags, ¬ spell tag <:+: t) (r : List α) :
    splitAll spell tags (t ++ lo :: r) =
      (t ++ (splitAll spell tags (lo :: r)).1, (splitAll spell tags (lo :: r)).2) := by
  induction t with
  | nil => rfl
  | cons a t ih =>
      have hrest := ih fun tag htag hin =>
        ht tag htag (hin.trans (List.suffix_cons a t).isInfix)
      have hnot : ∀ tag ∈ tags, ¬ spell tag <+: a :: (t ++ lo :: r) := fun tag htag =>
        (hspell tag htag).not_begins (ht tag htag) (List.cons_ne_nil a t)
      rw [List.cons_append, splitAll_cons_of_none hnot, hrest]
      rfl

/-- A tag in front is found. -/
theorem splitAll_tag_append
    (hinj : ∀ tag ∈ tags, ∀ tag' ∈ tags, spell tag = spell tag' → tag = tag') {tag : τ}
    (htag : tag ∈ tags) (r : List α) :
    splitAll spell tags (spell tag ++ r) =
      ([], (tag, (splitAll spell tags r).1) :: (splitAll spell tags r).2) := by
  obtain ⟨a, q, hq⟩ := List.exists_cons_of_ne_nil (hspell tag htag).ne_nil
  have hfound : (tags.find? fun tag' => decide (spell tag' <+: a :: (q ++ r))) = some tag := by
    obtain ⟨tag', hfind⟩ : ∃ tag', (tags.find? fun tag' =>
        decide (spell tag' <+: a :: (q ++ r))) = some tag' := by
      rw [← Option.isSome_iff_exists, List.find?_isSome]
      exact ⟨tag, htag, by simp [hq]⟩
    have hbegins := List.find?_some hfind
    have hmem := List.mem_of_find?_eq_some hfind
    rw [decide_eq_true_eq, ← List.cons_append, ← hq] at hbegins
    rw [hfind, hinj tag' hmem tag htag ((hspell tag' hmem).eq_of_begins (hspell tag htag) hbegins)]
  have hdrop : (q ++ r).drop ((spell tag).length - 1) = r := by
    rw [hq, List.length_cons, Nat.add_sub_cancel, List.drop_left]
  rw [hq, List.cons_append, splitAll, splitFrom, hfound]
  simp only [splitFrom_eq_drop, hdrop]

/-- The parts of a text are found again when none of them has a tag in it. -/
theorem splitAll_joinAll
    (hinj : ∀ tag ∈ tags, ∀ tag' ∈ tags, spell tag = spell tag' → tag = tag') {text : List α}
    {rest : List (τ × List α)} (htext : ∀ tag ∈ tags, ¬ spell tag <:+: text)
    (hrest : ∀ part ∈ rest, part.1 ∈ tags ∧ ∀ tag ∈ tags, ¬ spell tag <:+: part.2) :
    splitAll spell tags (joinAll spell text rest) = (text, rest) := by
  induction rest generalizing text with
  | nil =>
      rw [joinAll, List.flatMap_nil, List.append_nil, splitAll_of_free htext]
  | cons part rest ih =>
      obtain ⟨htag, hfree⟩ := hrest part List.mem_cons_self
      have hbehind : splitAll spell tags (spell part.1 ++ joinAll spell part.2 rest) =
          ([], part :: rest) := by
        rw [splitAll_tag_append hspell hinj htag,
          ih hfree fun part' hpart => hrest part' (List.mem_cons_of_mem part hpart)]
      obtain ⟨q, hq, -⟩ := (hspell part.1 htag).opens
      rw [hq, List.cons_append] at hbehind
      rw [joinAll, List.flatMap_cons, List.append_assoc, ← joinAll, hq, List.cons_append,
        splitAll_append hspell htext, hbehind, List.append_nil]

end Split

/-- Cut at letters, a text only loses these letters. -/
theorem flatten_splitOnP {β : Type*} (p : β → Bool) (s : List β) :
    (s.splitOnP p).flatten = s.filter fun b => !p b := by
  induction s with
  | nil => rfl
  | cons b s ih =>
      rw [List.splitOnP_cons_eq_if_modifyHead, List.filter_cons, ← ih]
      by_cases hb : p b
      · simp [hb]
      · obtain ⟨piece, rest, hsplit⟩ := List.exists_cons_of_ne_nil (List.splitOnP_ne_nil p s)
        simp [hb, hsplit]

end RagflowMineru.Library
