import RagflowMineru.Library.Tags
import Mathlib.Data.List.Nodup
import Mathlib.Tactic.Ring

/-!
# Substituting tags

A text with tags in it is translated by putting the value of each tag in its
place.  All tags can be substituted in one scan of the text, or one tag after
the other, each in the text that the tag before left behind.  The second way
also substitutes a tag that came about by an earlier substitution, and this is
the only difference between the two.
-/

namespace RagflowMineru.Library

variable {α : Type*} [DecidableEq α]

/-! ## Occurrences -/

/-- How often `p` occurs. -/
def occurrences (p : List α) : List α → ℕ
  | [] => 0
  | a :: s => (if p <+: a :: s then 1 else 0) + occurrences p s

theorem occurrences_eq_zero_iff {p s : List α} (hp : p ≠ []) :
    occurrences p s = 0 ↔ ¬ p <:+: s := by
  induction s with
  | nil => simpa [occurrences] using hp
  | cons a s ih =>
      rw [occurrences, List.infix_cons_iff, Nat.add_eq_zero_iff, ih]
      by_cases hbegins : p <+: a :: s
      · simp [hbegins]
      · simp [hbegins]

section Tag

variable {lo hi : α} {p : List α} (hp : IsTag lo hi p)

include hp

omit [DecidableEq α] in
/-- No tag begins at a letter other than the opening one. -/
theorem IsTag.not_prefix_cons {a : α} (ha : a ≠ lo) (s : List α) : ¬ p <+: a :: s := by
  intro hbegins
  obtain ⟨q, rfl, -⟩ := hp.opens
  exact ha (List.cons_prefix_cons.mp hbegins).1.symm

theorem IsTag.occurrences_append_of_notMem {q : List α} (hq : lo ∉ q) (r : List α) :
    occurrences p (q ++ r) = occurrences p r := by
  induction q with
  | nil => rw [List.nil_append]
  | cons a q ih =>
      have hne : a ≠ lo := fun h => hq (h ▸ List.mem_cons_self)
      have hrest : lo ∉ q := fun h => hq (List.mem_cons_of_mem a h)
      rw [List.cons_append, occurrences, if_neg (hp.not_prefix_cons hne _), zero_add, ih hrest]

theorem IsTag.occurrences_self_append (r : List α) :
    occurrences p (p ++ r) = 1 + occurrences p r := by
  have hbegins : p <+: p ++ r := List.prefix_append p r
  obtain ⟨q, hq, hlo⟩ := hp.opens
  rw [hq, List.cons_append] at hbegins ⊢
  rw [occurrences, if_pos hbegins, ← hq, hp.occurrences_append_of_notMem hlo]

/-- Occurrences are counted piece by piece. -/
theorem IsTag.occurrences_append (w r : List α) :
    occurrences p (w ++ lo :: r) = occurrences p w + occurrences p (lo :: r) := by
  induction w with
  | nil => rw [List.nil_append, occurrences, zero_add]
  | cons a w ih =>
      have hsame : p <+: a :: (w ++ lo :: r) ↔ p <+: a :: w := by
        constructor
        · exact hp.begins_of_append (List.cons_ne_nil a w)
        · intro hbegins
          exact hbegins.trans (List.prefix_append (a :: w) (lo :: r))
      rw [List.cons_append, occurrences, occurrences, ih, add_assoc]
      simp only [hsame]

theorem IsTag.occurrences_intercalate (ws : List (List α)) :
    occurrences p (p.intercalate ws) =
      (ws.length - 1) + (ws.map (occurrences p)).sum := by
  induction ws with
  | nil => rfl
  | cons w ws ih =>
      cases ws with
      | nil => simp
      | cons w' ws =>
          obtain ⟨q, hq, -⟩ := hp.opens
          have hjoin : p.intercalate (w :: w' :: ws) = w ++ (p ++ p.intercalate (w' :: ws)) := by
            rw [List.intercalate_cons_cons, List.append_assoc]
          have hopen : p ++ p.intercalate (w' :: ws) = lo :: (q ++ p.intercalate (w' :: ws)) := by
            rw [hq, List.cons_append]
          rw [hjoin, hopen, hp.occurrences_append, ← hopen, hp.occurrences_self_append, ih]
          simp only [List.length_cons, List.map_cons, List.sum_cons]
          omega

end Tag

/-! ## Substituting -/

variable {τ : Type*} (spell value : τ → List α)

/-- Put the values of `tags` in their places, in one scan from left to right. -/
def substitute (tags : List τ) (s : List α) : List α :=
  let (text, rest) := splitAll spell tags s
  text ++ rest.flatMap fun part => value part.1 ++ part.2

/-- Substitute one tag after the other. -/
def substituteEach (tags : List τ) (s : List α) : List α :=
  tags.foldl (fun s tag => substitute spell value [tag] s) s

variable {spell value} {lo hi : α}

@[simp] theorem substitute_nil (tags : List τ) : substitute spell value tags [] = [] := rfl

theorem substitute_cons_of_none {tags : List τ} {a : α} {s : List α}
    (h : ∀ tag ∈ tags, ¬ spell tag <+: a :: s) :
    substitute spell value tags (a :: s) = a :: substitute spell value tags s := by
  rw [substitute, splitAll_cons_of_none h]
  rfl

/-- A text without tags stays as it is. -/
theorem substitute_of_free {tags : List τ} {t : List α} (ht : ∀ tag ∈ tags, ¬ spell tag <:+: t) :
    substitute spell value tags t = t := by
  rw [substitute, splitAll_of_free ht]
  exact List.append_nil t

theorem substitute_empty (s : List α) : substitute spell value [] s = s :=
  substitute_of_free (by simp)

section Scan

variable {tags : List τ} (hspell : ∀ tag ∈ tags, IsTag lo hi (spell tag))

include hspell

/-- Letters other than the opening one are passed over. -/
theorem substitute_append_of_notMem {q : List α} (hq : lo ∉ q) (r : List α) :
    substitute spell value tags (q ++ r) = q ++ substitute spell value tags r := by
  induction q with
  | nil => rfl
  | cons a q ih =>
      have hne : a ≠ lo := fun h => hq (h ▸ List.mem_cons_self)
      have hrest : lo ∉ q := fun h => hq (List.mem_cons_of_mem a h)
      rw [List.cons_append, substitute_cons_of_none, ih hrest, List.cons_append]
      intro tag htag
      exact (hspell tag htag).not_prefix_cons hne _

/-- A tag that is not among `tags` is passed over. -/
theorem substitute_append_of_other {p : List α} (hp : IsTag lo hi p)
    (hother : ∀ tag ∈ tags, spell tag ≠ p) (r : List α) :
    substitute spell value tags (p ++ r) = p ++ substitute spell value tags r := by
  have hnot : ∀ tag ∈ tags, ¬ spell tag <+: p ++ r := by
    intro tag htag hbegins
    exact hother tag htag ((hspell tag htag).eq_of_begins hp hbegins)
  obtain ⟨q, rfl, hq⟩ := hp.opens
  rw [List.cons_append] at hnot ⊢
  rw [substitute_cons_of_none hnot, substitute_append_of_notMem hspell hq, List.cons_append]

variable (hinj : ∀ tag ∈ tags, ∀ tag' ∈ tags, spell tag = spell tag' → tag = tag')

include hinj

/-- A tag in front is replaced by its value. -/
theorem substitute_tag_append {tag : τ} (htag : tag ∈ tags) (r : List α) :
    substitute spell value tags (spell tag ++ r) = value tag ++ substitute spell value tags r := by
  rw [substitute, splitAll_tag_append hspell hinj htag]
  simp [substitute]

/-- What stands in front of an opening letter is substituted on its own. -/
theorem substitute_append (w r : List α) :
    substitute spell value tags (w ++ lo :: r) =
      substitute spell value tags w ++ substitute spell value tags (lo :: r) := by
  induction hn : w.length using Nat.strong_induction_on generalizing w with
  | _ n ih =>
      rcases w with - | ⟨a, w⟩
      · rfl
      by_cases hbegins : ∃ tag ∈ tags, spell tag <+: a :: w
      · obtain ⟨tag, htag, u, hu⟩ := hbegins
        have hlen : u.length < n := by
          have hpos := List.length_pos_of_ne_nil (hspell tag htag).ne_nil
          have hsum := congrArg List.length hu
          rw [List.length_append] at hsum
          omega
        rw [← hu, List.append_assoc, substitute_tag_append hspell hinj htag,
          substitute_tag_append hspell hinj htag, ih u.length hlen u rfl, List.append_assoc]
      · have hnot : ∀ tag ∈ tags, ¬ spell tag <+: a :: w := by
          intro tag htag h
          exact hbegins ⟨tag, htag, h⟩
        have hnot' : ∀ tag ∈ tags, ¬ spell tag <+: a :: (w ++ lo :: r) := by
          intro tag htag h
          exact hnot tag htag ((hspell tag htag).begins_of_append (List.cons_ne_nil a w) h)
        have hlen : w.length < n := by
          rw [← hn]
          exact Nat.lt_succ_self _
        rw [List.cons_append, substitute_cons_of_none hnot', substitute_cons_of_none hnot,
          ih w.length hlen w rfl, List.cons_append]

/-- A text cut at one tag is substituted piece by piece. -/
theorem substitute_intercalate {p v : List α} (hp : IsTag lo hi p)
    (hfront : ∀ r, substitute spell value tags (p ++ r) = v ++ substitute spell value tags r)
    (ws : List (List α)) :
    substitute spell value tags (p.intercalate ws) =
      v.intercalate (ws.map (substitute spell value tags)) := by
  induction ws with
  | nil => rfl
  | cons w ws ih =>
      cases ws with
      | nil => simp
      | cons w' ws =>
          obtain ⟨q, hq, -⟩ := hp.opens
          have hopen : p ++ p.intercalate (w' :: ws) = lo :: (q ++ p.intercalate (w' :: ws)) := by
            rw [hq, List.cons_append]
          rw [List.intercalate_cons_cons, List.append_assoc, hopen,
            substitute_append hspell hinj, ← hopen, hfront, ih]
          simp only [List.map_cons, List.intercalate_cons_cons, List.append_assoc]

/-- Only the tags that occur in a text matter, in any order. -/
theorem substitute_congr {tags' : List τ} (hspell' : ∀ tag ∈ tags', IsTag lo hi (spell tag))
    (hinj' : ∀ tag ∈ tags', ∀ tag' ∈ tags', spell tag = spell tag' → tag = tag') (s : List α)
    (hsame : ∀ tag, spell tag <:+: s → (tag ∈ tags ↔ tag ∈ tags')) :
    substitute spell value tags s = substitute spell value tags' s := by
  induction hn : s.length using Nat.strong_induction_on generalizing s with
  | _ n ih =>
      rcases s with - | ⟨a, s⟩
      · rfl
      by_cases hbegins : ∃ tag ∈ tags, spell tag <+: a :: s
      · obtain ⟨tag, htag, u, hu⟩ := hbegins
        have hlen : u.length < n := by
          have hpos := List.length_pos_of_ne_nil (hspell tag htag).ne_nil
          have hsum := congrArg List.length hu
          rw [List.length_append] at hsum
          omega
        have htag' : tag ∈ tags' := (hsame tag ⟨[], u, by simpa using hu⟩).mp htag
        have hrest : ∀ tag, spell tag <:+: u → (tag ∈ tags ↔ tag ∈ tags') := by
          intro tag' hin
          apply hsame
          rw [← hu]
          exact hin.trans (List.suffix_append (spell tag) u).isInfix
        rw [← hu, substitute_tag_append hspell hinj htag,
          substitute_tag_append hspell' hinj' htag', ih u.length hlen u hrest rfl]
      · have hnot : ∀ tag ∈ tags, ¬ spell tag <+: a :: s := by
          intro tag htag h
          exact hbegins ⟨tag, htag, h⟩
        have hnot' : ∀ tag ∈ tags', ¬ spell tag <+: a :: s := by
          intro tag htag h
          exact hnot tag ((hsame tag h.isInfix).mpr htag) h
        have hrest : ∀ tag, spell tag <:+: s → (tag ∈ tags ↔ tag ∈ tags') := by
          intro tag hin
          exact hsame tag (hin.trans (List.suffix_cons a s).isInfix)
        have hlen : s.length < n := by
          rw [← hn]
          exact Nat.lt_succ_self _
        rw [substitute_cons_of_none hnot, substitute_cons_of_none hnot',
          ih s.length hlen s hrest rfl]

end Scan

/-! ## One pass -/

/-- A text is cut at the occurrences of a tag. -/
theorem IsTag.exists_intercalate {p : List α} (hp : IsTag lo hi p) (s : List α) :
    ∃ ws, s = p.intercalate ws ∧ ws ≠ [] ∧ ∀ w ∈ ws, ¬ p <:+: w := by
  induction hn : s.length using Nat.strong_induction_on generalizing s with
  | _ n ih =>
      rcases hfind : find p s with - | k
      · refine ⟨[s], by simp, List.cons_ne_nil _ _, ?_⟩
        intro w hw
        rw [List.mem_singleton.mp hw]
        exact find_eq_none_iff.mp hfind
      · obtain ⟨r, hr⟩ := find_spec hfind
        have hlen : r.length < n := by
          have hpos := List.length_pos_of_ne_nil hp.ne_nil
          have hsum := congrArg List.length hr
          simp only [List.length_append] at hsum
          omega
        obtain ⟨ws, hws, hne, hfree⟩ := ih r.length hlen r rfl
        refine ⟨s.take k :: ws, ?_, List.cons_ne_nil _ _, ?_⟩
        · rw [List.intercalate_cons_of_ne_nil hne, ← hws]
          exact hr
        · intro w hw
          rcases List.mem_cons.mp hw with rfl | hw
          · exact find_eq_none_iff.mp (find_take hp.ne_nil hfind)
          · exact hfree w hw

omit [DecidableEq α] in
theorem length_intercalate (v : List α) (ws : List (List α)) :
    (v.intercalate ws).length = (ws.length - 1) * v.length + (ws.map List.length).sum := by
  induction ws with
  | nil => simp
  | cons w ws ih =>
      cases ws with
      | nil => simp
      | cons w' ws =>
          rw [List.intercalate_cons_cons, List.length_append, List.length_append, ih]
          simp only [List.length_cons, List.map_cons, List.sum_cons, Nat.add_sub_cancel]
          ring

omit [DecidableEq α] in
/-- Joined texts of pairwise the same length agree only if the texts do. -/
theorem eq_of_intercalate_eq {v : List α} {f : List α → List α} {ws : List (List α)}
    (hlen : ∀ w ∈ ws, (f w).length = w.length)
    (h : v.intercalate (ws.map f) = v.intercalate ws) : ∀ w ∈ ws, f w = w := by
  induction ws with
  | nil => simp
  | cons w ws ih =>
      have hfirst := hlen w List.mem_cons_self
      have hothers : ∀ w ∈ ws, (f w).length = w.length := fun w hw =>
        hlen w (List.mem_cons_of_mem _ hw)
      cases ws with
      | nil => simpa using h
      | cons w' ws =>
          rw [List.map_cons, List.map_cons, List.intercalate_cons_cons,
            List.intercalate_cons_cons, List.append_assoc, List.append_assoc] at h
          obtain ⟨hw, hrest⟩ := List.append_inj h hfirst
          obtain ⟨-, hrest⟩ := List.append_inj hrest rfl
          intro u hu
          rcases List.mem_cons.mp hu with rfl | hu
          · exact hw
          · exact ih hothers hrest u hu

section Pass

variable {tag : τ} (htag : IsTag lo hi (spell tag))

include htag

/-- A text cut at a tag is put together with the value of the tag. -/
theorem substitute_singleton_intercalate (ws : List (List α)) :
    substitute spell value [tag] ((spell tag).intercalate ws) =
      (value tag).intercalate (ws.map (substitute spell value [tag])) := by
  have hspell : ∀ t ∈ [tag], IsTag lo hi (spell t) := by simpa using htag
  have hinj : ∀ t ∈ [tag], ∀ t' ∈ [tag], spell t = spell t' → t = t' := by simp
  exact substitute_intercalate hspell hinj htag
    (substitute_tag_append hspell hinj List.mem_cons_self) ws

variable (value) in
/-- The text cut at all occurrences of the tag, before and after a pass. -/
theorem exists_intercalate_substitute (s : List α) :
    ∃ ws, s = (spell tag).intercalate ws ∧ substitute spell value [tag] s =
      (value tag).intercalate ws ∧ ws.length = occurrences (spell tag) s + 1 := by
  obtain ⟨ws, rfl, hne, hfree⟩ := htag.exists_intercalate s
  have hpieces : ws.map (substitute spell value [tag]) = ws := by
    rw [List.map_congr_left fun w hw => substitute_of_free (by simpa using hfree w hw)]
    exact List.map_id' ws
  have hnone : (ws.map (occurrences (spell tag))).sum = 0 := by
    rw [List.sum_eq_zero_iff_forall_eq_nat]
    intro k hk
    obtain ⟨w, hw, rfl⟩ := List.mem_map.mp hk
    exact (occurrences_eq_zero_iff htag.ne_nil).mpr (hfree w hw)
  refine ⟨ws, rfl, ?_, ?_⟩
  · rw [substitute_singleton_intercalate htag, hpieces]
  · have hpos := List.length_pos_of_ne_nil hne
    rw [htag.occurrences_intercalate, hnone]
    omega

variable (value) in
theorem length_substitute_singleton (s : List α) :
    (substitute spell value [tag] s).length + occurrences (spell tag) s * (spell tag).length =
      s.length + occurrences (spell tag) s * (value tag).length := by
  obtain ⟨ws, hs, hsub, hlen⟩ := exists_intercalate_substitute value htag s
  have hcount : ws.length - 1 = occurrences (spell tag) s := by omega
  have hbefore := congrArg List.length hs
  have hafter := congrArg List.length hsub
  rw [length_intercalate, hcount] at hbefore hafter
  omega

/-- A pass changes nothing only where the tag does not occur or is its own value. -/
theorem substitute_singleton_eq_self_iff (s : List α) :
    substitute spell value [tag] s = s ↔
      occurrences (spell tag) s = 0 ∨ value tag = spell tag := by
  obtain ⟨ws, hs, hsub, hlen⟩ := exists_intercalate_substitute value htag s
  constructor
  · intro h
    rw [or_iff_not_imp_left]
    intro hocc
    have hsize := length_substitute_singleton value htag s
    rw [h] at hsize
    have hsame : (spell tag).length = (value tag).length :=
      Nat.eq_of_mul_eq_mul_left (Nat.pos_of_ne_zero hocc) (Nat.add_left_cancel hsize)
    rcases ws with - | ⟨w, - | ⟨w', ws⟩⟩
    · simp at hlen
    · exact absurd hlen.symm (by simpa using hocc)
    · rw [hsub] at h
      rw [hs] at h
      rw [List.intercalate_cons_cons, List.intercalate_cons_cons, List.append_assoc,
        List.append_assoc] at h
      exact (List.append_inj (List.append_cancel_left h) hsame.symm).1
  · rintro (hocc | hvalue)
    · apply substitute_of_free
      simpa using (occurrences_eq_zero_iff htag.ne_nil).mp hocc
    · rw [hsub, hvalue, ← hs]

/-- The pieces of a joined text keep their places in a pass, unless the pass finds the tag in
one of them. -/
theorem intercalate_map_substitute_eq_iff (ws : List (List α)) :
    (value tag).intercalate (ws.map (substitute spell value [tag])) =
        (value tag).intercalate ws ↔
      (ws.map (occurrences (spell tag))).sum = 0 ∨ value tag = spell tag := by
  have hsizes : ((ws.map (substitute spell value [tag])).map List.length).sum +
        (ws.map (occurrences (spell tag))).sum * (spell tag).length =
      (ws.map List.length).sum + (ws.map (occurrences (spell tag))).sum * (value tag).length := by
    induction ws with
    | nil => simp
    | cons w ws ih =>
        have hw := length_substitute_singleton value htag w
        simp only [List.map_cons, List.sum_cons, Nat.add_mul]
        omega
  constructor
  · intro h
    rw [or_iff_not_imp_left]
    intro hocc
    have hsum := congrArg List.length h
    rw [length_intercalate, length_intercalate, List.length_map] at hsum
    have hsame : (spell tag).length = (value tag).length := by
      apply Nat.eq_of_mul_eq_mul_left (Nat.pos_of_ne_zero hocc)
      omega
    have hlen : ∀ w ∈ ws, (substitute spell value [tag] w).length = w.length := by
      intro w _
      have hw := length_substitute_singleton value htag w
      rw [hsame] at hw
      exact Nat.add_right_cancel hw
    have hpieces := eq_of_intercalate_eq hlen h
    have hex : ∃ w ∈ ws, occurrences (spell tag) w ≠ 0 := by
      by_contra hall
      apply hocc
      rw [List.sum_eq_zero_iff_forall_eq_nat]
      intro k hk
      obtain ⟨w, hw, rfl⟩ := List.mem_map.mp hk
      by_contra hne
      exact hall ⟨w, hw, hne⟩
    obtain ⟨w, hw, hne⟩ := hex
    exact ((substitute_singleton_eq_self_iff htag w).mp (hpieces w hw)).resolve_left hne
  · intro h
    have hpieces : ∀ w ∈ ws, substitute spell value [tag] w = w := by
      intro w hw
      rw [substitute_singleton_eq_self_iff htag]
      rcases h with hsum | hvalue
      · left
        exact List.sum_eq_zero_iff_forall_eq_nat.mp hsum _ (List.mem_map_of_mem hw)
      · exact Or.inr hvalue
    rw [List.map_congr_left hpieces, List.map_id']

end Pass

/-- The tags of a list have pairwise distinct spellings. -/
def Distinct (spell : τ → List α) (tags : List τ) : Prop := (tags.map spell).Nodup

omit [DecidableEq α] in
theorem Distinct.injective {tags : List τ} (h : Distinct spell tags) :
    ∀ tag ∈ tags, ∀ tag' ∈ tags, spell tag = spell tag' → tag = tag' := by
  intro tag htag tag' htag' heq
  exact List.inj_on_of_nodup_map h htag htag' heq

/-- One more tag, substituted in the text that the others left behind: this is the scan with all
tags exactly when the text shows the tag just as often as the original did, or the tag is its
own value. -/
theorem substitute_pass_iff {tags : List τ} {tag : τ}
    (hspell : ∀ t ∈ tags ++ [tag], IsTag lo hi (spell t))
    (hdistinct : Distinct spell (tags ++ [tag])) (s : List α) :
    substitute spell value [tag] (substitute spell value tags s) =
        substitute spell value (tags ++ [tag]) s ↔
      occurrences (spell tag) (substitute spell value tags s) = occurrences (spell tag) s ∨
        value tag = spell tag := by
  have htag : IsTag lo hi (spell tag) := hspell tag (by simp)
  have hspell' : ∀ t ∈ tags, IsTag lo hi (spell t) := fun t ht => hspell t (by simp [ht])
  have hinj := hdistinct.injective
  have hinj' : ∀ t ∈ tags, ∀ t' ∈ tags, spell t = spell t' → t = t' := by
    intro t ht t' ht'
    exact hinj t (by simp [ht]) t' (by simp [ht'])
  have hother : ∀ t ∈ tags, spell t ≠ spell tag := by
    intro t ht heq
    rw [Distinct, List.map_append, List.nodup_append] at hdistinct
    exact hdistinct.2.2 _ (List.mem_map_of_mem ht) _ (by simp) heq
  obtain ⟨ws, rfl, hne, hfree⟩ := htag.exists_intercalate s
  have hsame : ∀ w ∈ ws,
      substitute spell value (tags ++ [tag]) w = substitute spell value tags w := by
    intro w hw
    apply substitute_congr hspell hinj hspell' hinj'
    intro t hin
    rw [List.mem_append, List.mem_singleton, or_iff_left]
    rintro rfl
    exact hfree w hw hin
  have hzero : (ws.map (occurrences (spell tag))).sum = 0 := by
    rw [List.sum_eq_zero_iff_forall_eq_nat]
    intro k hk
    obtain ⟨w, hw, rfl⟩ := List.mem_map.mp hk
    exact (occurrences_eq_zero_iff htag.ne_nil).mpr (hfree w hw)
  rw [substitute_intercalate hspell' hinj' htag
      (substitute_append_of_other hspell' htag hother),
    substitute_intercalate hspell hinj htag (substitute_tag_append hspell hinj (by simp)),
    substitute_singleton_intercalate htag, List.map_congr_left hsame,
    intercalate_map_substitute_eq_iff htag, htag.occurrences_intercalate,
    htag.occurrences_intercalate, hzero, List.length_map]
  simp only [Nat.add_eq_left, Nat.add_zero]

/-! ## All passes -/

/-- Before each pass the text shows the next tag just as often as the original text did, unless
the tag is its own value: no tag comes about by substituting. -/
def Undisturbed (spell value : τ → List α) (tags : List τ) (s : List α) : Prop :=
  ∀ pre tag post, tags = pre ++ tag :: post →
    occurrences (spell tag) (substitute spell value pre s) = occurrences (spell tag) s ∨
      value tag = spell tag

theorem substituteEach_concat (tags : List τ) (tag : τ) (s : List α) :
    substituteEach spell value (tags ++ [tag]) s =
      substitute spell value [tag] (substituteEach spell value tags s) := by
  rw [substituteEach, List.foldl_append]
  rfl

/-- Substituting one tag after the other gives, after every pass, what one scan with the tags so
far gives, exactly when no tag comes about by substituting. -/
theorem substituteEach_eq_iff {tags : List τ} (hspell : ∀ t ∈ tags, IsTag lo hi (spell t))
    (hdistinct : Distinct spell tags) (s : List α) :
    (∀ pre, pre <+: tags → substituteEach spell value pre s = substitute spell value pre s) ↔
      Undisturbed spell value tags s := by
  have hpass : ∀ pre tag post, tags = pre ++ tag :: post →
      (∀ t ∈ pre ++ [tag], IsTag lo hi (spell t)) ∧ Distinct spell (pre ++ [tag]) := by
    rintro pre tag post rfl
    have hsub : pre ++ [tag] <+: pre ++ tag :: post := ⟨post, by simp⟩
    constructor
    · intro t ht
      exact hspell t (hsub.subset ht)
    · exact hdistinct.sublist (hsub.sublist.map spell)
  constructor
  · intro h pre tag post heq
    obtain ⟨htags, hnodup⟩ := hpass pre tag post heq
    have hbefore := h pre ⟨tag :: post, heq.symm⟩
    have hafter := h (pre ++ [tag]) ⟨post, by simp [heq]⟩
    rw [substituteEach_concat, hbefore] at hafter
    exact (substitute_pass_iff htags hnodup s).mp hafter
  · intro h pre
    induction pre using List.reverseRecOn with
    | nil =>
        intro _
        exact (substitute_empty s).symm
    | append_singleton pre tag ih =>
        rintro ⟨post, heq⟩
        have hsplit : tags = pre ++ tag :: post := by simp [← heq]
        obtain ⟨htags, hnodup⟩ := hpass pre tag post hsplit
        rw [substituteEach_concat, ih ⟨tag :: post, hsplit.symm⟩,
          substitute_pass_iff htags hnodup]
        exact h pre tag post hsplit

/-- The scan does not depend on the order of the tags. -/
theorem substitute_perm {tags tags' : List τ} (hspell : ∀ t ∈ tags, IsTag lo hi (spell t))
    (hdistinct : Distinct spell tags) (hperm : tags'.Perm tags) (s : List α) :
    substitute spell value tags' s = substitute spell value tags s := by
  have hspell' : ∀ t ∈ tags', IsTag lo hi (spell t) := fun t ht => hspell t (hperm.subset ht)
  have hdistinct' : Distinct spell tags' := (hperm.map spell).nodup_iff.mpr hdistinct
  apply substitute_congr hspell' hdistinct'.injective hspell hdistinct.injective
  intro tag _
  exact hperm.mem_iff

end RagflowMineru.Library
