import RagflowMineru.Library.Assoc
import RagflowMineru.Library.Substitute
import Mathlib.Data.List.Chain

/-!
# Scanning and replacing

A matcher says what a text begins with.  Scanning cuts a text into what the
matcher finds, from left to right, and the texts between.  The parts are also
what a text with places for names is made of; words are then put into the
places, and replaced again one word after the other.  Replacing a word knows
nothing of the places: it replaces the word wherever it stands.
-/

namespace RagflowMineru.Library

variable {α τ ι : Type*}

/-! ## Matchers -/

/-- `at?` says what a text begins with, and `spell` how that is written. -/
structure Matcher (α τ : Type*) where
  at? : List α → Option τ
  spell : τ → List α
  spell_ne_nil : ∀ {s t}, at? s = some t → spell t ≠ []
  spell_begins : ∀ {s t}, at? s = some t → spell t <+: s

namespace Matcher

variable (m : Matcher α τ)

/-- Scan from left to right; the first `skip` letters belong to a match already. -/
def scanFrom : ℕ → List α → List α × List (τ × List α)
  | _, [] => ([], [])
  | skip + 1, _ :: s => scanFrom skip s
  | 0, a :: s =>
      match m.at? (a :: s) with
      | some t =>
          let (text, rest) := scanFrom ((m.spell t).length - 1) s
          ([], (t, text) :: rest)
      | none =>
          let (text, rest) := scanFrom 0 s
          (a :: text, rest)

/-- What stands in front of the first match, and each match with what follows it. -/
def scan (s : List α) : List α × List (τ × List α) := m.scanFrom 0 s

@[simp] theorem scan_nil : m.scan [] = ([], []) := rfl

theorem scanFrom_eq_drop (skip : ℕ) (s : List α) : m.scanFrom skip s = m.scan (s.drop skip) := by
  induction s generalizing skip with
  | nil => simp [scanFrom, scan]
  | cons a s ih =>
      cases skip with
      | zero => rfl
      | succ skip => rw [scanFrom, ih, List.drop_succ_cons]

variable {m}

theorem scan_cons_of_none {a : α} {s : List α} (h : m.at? (a :: s) = none) :
    m.scan (a :: s) = (a :: (m.scan s).1, (m.scan s).2) := by
  rw [scan, scanFrom, h]
  rfl

theorem scan_spell_append {t : τ} {r : List α} (h : m.at? (m.spell t ++ r) = some t) :
    m.scan (m.spell t ++ r) = ([], (t, (m.scan r).1) :: (m.scan r).2) := by
  obtain ⟨a, q, hq⟩ := List.exists_cons_of_ne_nil (m.spell_ne_nil h)
  rw [hq, List.cons_append] at h ⊢
  have hdrop : (q ++ r).drop ((m.spell t).length - 1) = r := by
    rw [hq, List.length_cons, Nat.add_sub_cancel, List.drop_left]
  rw [scan, scanFrom, h]
  simp only [scanFrom_eq_drop, hdrop]

/-- Induction along a scan: either the matcher finds nothing and the scan goes on behind one
letter, or it goes on behind the match. -/
theorem scan_induction {P : List α → Prop} (nil : P [])
    (skip : ∀ a s, m.at? (a :: s) = none → P s → P (a :: s))
    (found : ∀ t r, m.at? (m.spell t ++ r) = some t → P r → P (m.spell t ++ r)) (s : List α) :
    P s := by
  induction hn : s.length using Nat.strong_induction_on generalizing s with
  | _ n ih =>
      rcases s with - | ⟨a, s⟩
      · exact nil
      rcases hat : m.at? (a :: s) with - | t
      · apply skip a s hat
        apply ih s.length _ s rfl
        rw [← hn]
        exact Nat.lt_succ_self _
      · obtain ⟨r, hr⟩ := m.spell_begins hat
        have hlen : r.length < n := by
          have hpos := List.length_pos_of_ne_nil (m.spell_ne_nil hat)
          have hsum := congrArg List.length hr
          rw [List.length_append] at hsum
          omega
        rw [← hr] at hat ⊢
        exact found t r hat (ih r.length hlen r rfl)

/-- The parts of a text make up the text. -/
theorem joinAll_scan (s : List α) : joinAll m.spell (m.scan s).1 (m.scan s).2 = s := by
  induction s using scan_induction (m := m) with
  | nil => rfl
  | skip a s hat ih =>
      rw [scan_cons_of_none hat]
      exact congrArg (a :: ·) ih
  | found t r hat ih =>
      rw [scan_spell_append hat]
      simpa [joinAll] using ih

variable (m)

/-- Cut a text at its matches, which are kept: texts and matches in turn. -/
def split (s : List α) : List (List α) :=
  (m.scan s).1 :: (m.scan s).2.flatMap fun part => [m.spell part.1, part.2]

theorem flatten_split (s : List α) : (m.split s).flatten = s := by
  have hflatten : ∀ parts : List (τ × List α),
      (parts.flatMap fun part => [m.spell part.1, part.2]).flatten =
        parts.flatMap fun part => m.spell part.1 ++ part.2 := by
    intro parts
    induction parts with
    | nil => rfl
    | cons part parts ih => simp [ih]
  rw [split, List.flatten_cons, hflatten]
  exact m.joinAll_scan s

/-- No match stands at the start of a text or directly behind another one. -/
def Apart (s : List α) : Prop :=
  (m.scan s).2 ≠ [] → (m.scan s).1 ≠ [] ∧ ∀ part ∈ (m.scan s).2.dropLast, part.2 ≠ []

instance [DecidableEq τ] [DecidableEq α] (s : List α) : Decidable (m.Apart s) :=
  inferInstanceAs (Decidable (_ → _))

end Matcher

/-! ## Texts with places -/

@[simp] theorem joinAll_nil (f : ι → List α) (text : List α) : joinAll f text [] = text := by
  rw [joinAll, List.flatMap_nil, List.append_nil]

theorem joinAll_cons (f : ι → List α) (text : List α) (part : ι × List α)
    (rest : List (ι × List α)) :
    joinAll f text (part :: rest) = text ++ (f part.1 ++ joinAll f part.2 rest) := by
  simp [joinAll]

theorem joinAll_congr {f g : ι → List α} {text : List α} {rest : List (ι × List α)}
    (h : ∀ part ∈ rest, f part.1 = g part.1) : joinAll f text rest = joinAll g text rest := by
  rw [joinAll, joinAll, List.flatMap_congr fun part hpart => congrArg (· ++ part.2) (h part hpart)]

theorem length_joinAll_le {f g : ι → List α} {text : List α} {rest : List (ι × List α)}
    (h : ∀ part ∈ rest, (f part.1).length ≤ (g part.1).length) :
    (joinAll f text rest).length ≤ (joinAll g text rest).length := by
  induction rest generalizing text with
  | nil => simp
  | cons part rest ih =>
      have hpart := h part List.mem_cons_self
      have hrest : (joinAll f part.2 rest).length ≤ (joinAll g part.2 rest).length :=
        ih fun p hp => h p (List.mem_cons_of_mem _ hp)
      simp only [joinAll_cons, List.length_append]
      omega

/-- Of two texts with the same parts between the places, one with shorter words is shorter. -/
theorem length_eq_of_joinAll {f g : ι → List α} {text : List α} {rest : List (ι × List α)}
    (h : ∀ part ∈ rest, (f part.1).length ≤ (g part.1).length)
    (heq : joinAll f text rest = joinAll g text rest) :
    ∀ part ∈ rest, (f part.1).length = (g part.1).length := by
  induction rest generalizing text with
  | nil => simp
  | cons part rest ih =>
      have hpart := h part List.mem_cons_self
      have hrest : ∀ p ∈ rest, (f p.1).length ≤ (g p.1).length := fun p hp =>
        h p (List.mem_cons_of_mem _ hp)
      have hbehind : (joinAll f part.2 rest).length ≤ (joinAll g part.2 rest).length :=
        length_joinAll_le hrest
      rw [joinAll_cons, joinAll_cons] at heq
      have hwords := List.append_cancel_left heq
      have hlen := congrArg List.length hwords
      simp only [List.length_append] at hlen
      have hword : (f part.1).length = (g part.1).length := by omega
      intro p hp
      rcases List.mem_cons.mp hp with rfl | hp
      · exact hword
      · exact ih hrest (List.append_inj hwords hword).2 p hp

theorem mem_joinAll {f g : ι → List α} {text : List α} {rest : List (ι × List α)} {a : α}
    (h : a ∈ joinAll g text rest) :
    (∃ part ∈ rest, a ∈ g part.1) ∨ a ∈ joinAll f text rest := by
  simp only [joinAll, List.mem_append, List.mem_flatMap] at h ⊢
  rcases h with h | ⟨part, hpart, h | h⟩
  · exact Or.inr (Or.inl h)
  · exact Or.inl ⟨part, hpart, h⟩
  · exact Or.inr (Or.inr ⟨part, hpart, Or.inr h⟩)

theorem getLast?_joinAll {f g : ι → List α} {text : List α} {rest : List (ι × List α)} {a : α}
    (hg : ∀ part ∈ rest, g part.1 ≠ []) (h : (joinAll g text rest).getLast? = some a) :
    (∃ part ∈ rest, a ∈ g part.1) ∨ (joinAll f text rest).getLast? = some a := by
  induction rest generalizing text with
  | nil => exact Or.inr (by simpa using h)
  | cons part rest ih =>
      rw [joinAll_cons, List.getLast?_append, List.getLast?_append, Option.or_assoc] at h
      rw [joinAll_cons, List.getLast?_append, List.getLast?_append]
      rcases hlast : (joinAll g part.2 rest).getLast? with - | b
      · rw [hlast, Option.none_or, List.getLast?_eq_some_getLast (hg part List.mem_cons_self),
          Option.some_or] at h
        left
        exact ⟨part, List.mem_cons_self, Option.some.inj h ▸ List.getLast_mem _⟩
      · rw [hlast, Option.some_or] at h
        obtain rfl := Option.some.inj h
        rcases ih (fun p hp => hg p (List.mem_cons_of_mem _ hp)) hlast with ⟨p, hp, ha⟩ | hlast
        · exact Or.inl ⟨p, List.mem_cons_of_mem _ hp, ha⟩
        · right
          rw [hlast, Option.some_or, Option.some_or]

/-- Words of letters that may stand next to every letter keep what holds of neighbours. -/
theorem isChain_joinAll {R : α → α → Prop} {f g : ι → List α} {text : List α}
    {rest : List (ι × List α)}
    (hg : ∀ part ∈ rest, g part.1 ≠ [] ∧ ∀ a ∈ g part.1, ∀ b, R a b ∧ R b a)
    (h : (joinAll f text rest).IsChain R) : (joinAll g text rest).IsChain R := by
  induction rest generalizing text with
  | nil => simpa using h
  | cons part rest ih =>
      rw [joinAll_cons] at h ⊢
      obtain ⟨hne, hword⟩ := hg part List.mem_cons_self
      have hbehind := ih (fun p hp => hg p (List.mem_cons_of_mem _ hp))
        h.right_of_append.right_of_append
      have hchain : (g part.1).IsChain R := by
        rw [List.isChain_iff_forall_rel_of_append_cons_cons]
        intro a b l₁ l₂ heq
        exact (hword a (by simp [heq]) b).1
      refine h.left_of_append.append (hchain.append hbehind ?_) ?_
      · intro a ha b _
        exact (hword a (List.mem_of_getLast? ha) b).1
      · intro a _ b hb
        rw [List.head?_append_of_ne_nil _ hne] at hb
        exact (hword b (List.mem_of_head? hb) a).2

/-- Cut a text at some of its places; the words of the others become part of the text. -/
def cutAt (p : ι → Prop) [DecidablePred p] (f : ι → List α) :
    List α → List (ι × List α) → List α × List (Unit × List α)
  | text, [] => (text, [])
  | text, (i, behind) :: rest =>
      let (next, others) := cutAt p f behind rest
      if p i then (text, ((), next) :: others) else (text ++ (f i ++ next), others)

/-- A word put in where a text was cut. -/
theorem joinAll_cutAt (p : ι → Prop) [DecidablePred p] (f : ι → List α) (v text : List α)
    (rest : List (ι × List α)) :
    joinAll (fun _ => v) (cutAt p f text rest).1 (cutAt p f text rest).2 =
      joinAll (fun i => if p i then v else f i) text rest := by
  induction rest generalizing text with
  | nil => simp [cutAt]
  | cons part rest ih =>
      rw [joinAll_cons, ← ih part.2]
      by_cases hp : p part.1
      · simp only [cutAt, if_pos hp]
        rw [joinAll_cons]
      · simp only [cutAt, if_neg hp]
        simp [joinAll]

/-! ## Replacing a word -/

variable [DecidableEq α]

/-- The texts between the occurrences of a word, from left to right. -/
def piecesAt (w s : List α) : List α × List (Unit × List α) :=
  splitAll (fun _ : Unit => w) [()] s

/-- Replace a word wherever it stands. -/
def replaceAll (w v s : List α) : List α :=
  substitute (fun _ : Unit => w) (fun _ => v) [()] s

theorem replaceAll_eq (w v s : List α) :
    replaceAll w v s = joinAll (fun _ => v) (piecesAt w s).1 (piecesAt w s).2 := rfl

/-- The word `w` of the places `p` stands at these places and nowhere else. -/
def StandsAt (w : List α) (p : ι → Prop) [DecidablePred p] (f : ι → List α) (text : List α)
    (rest : List (ι × List α)) : Prop :=
  piecesAt w (joinAll f text rest) = cutAt p f text rest

instance (w : List α) (p : ι → Prop) [DecidablePred p] (f : ι → List α) (text : List α)
    (rest : List (ι × List α)) : Decidable (StandsAt w p f text rest) :=
  inferInstanceAs (Decidable (_ = _))

theorem replaceAll_joinAll {w v text : List α} {p : ι → Prop} [DecidablePred p]
    {f : ι → List α} {rest : List (ι × List α)} (h : StandsAt w p f text rest) :
    replaceAll w v (joinAll f text rest) = joinAll (fun i => if p i then v else f i) text rest := by
  rw [replaceAll_eq, h, joinAll_cutAt]

/-! ## Replacing words one after the other -/

/-- Replace the words one after the other, each in the text that the words before it left
behind. -/
def replaceEach (passes : Assoc (List α) (List α)) (s : List α) : List α :=
  passes.foldl (fun s pass => replaceAll pass.1 pass.2 s) s

variable (word : ι → List α)

/-- What stands in the places after some passes. -/
def standing (passes : Assoc (List α) (List α)) (i : ι) : List α :=
  (passes.get? (word i)).getD (word i)

variable {word}

theorem standing_concat {pre : Assoc (List α) (List α)} {pass : List α × List α}
    (hnew : pass.1 ∉ pre.keys) (i : ι) :
    standing word (pre ++ [pass]) i = if word i = pass.1 then pass.2 else standing word pre i := by
  by_cases hword : word i = pass.1
  · have hnone : Assoc.get? (word i) pre = none := Assoc.get?_eq_none_iff.mpr (hword ▸ hnew)
    rw [standing, Assoc.get?_append, hnone, if_pos hword, hword]
    simp [Assoc.get?]
  · have hlast : Assoc.get? (word i) [pass] = none := by
      apply Assoc.get?_eq_none_iff.mpr
      simpa [Assoc.keys] using hword
    rw [standing, Assoc.get?_append, hlast, if_neg hword, standing, Option.or_none]

theorem replaceEach_concat (pre : Assoc (List α) (List α)) (pass : List α × List α) (s : List α) :
    replaceEach (pre ++ [pass]) s = replaceAll pass.1 pass.2 (replaceEach pre s) := by
  rw [replaceEach, List.foldl_append]
  rfl

/-- When every word stands at its places and nowhere else, each time it is looked for, the
places are filled with what the words are replaced by. -/
theorem replaceEach_joinAll {passes : Assoc (List α) (List α)} (hkeys : passes.keys.Nodup)
    {text : List α} {rest : List (ι × List α)}
    (hstands : ∀ pre pass post, passes = pre ++ pass :: post →
      StandsAt pass.1 (fun i => word i = pass.1) (standing word pre) text rest) :
    ∀ pre, pre <+: passes →
      replaceEach pre (joinAll word text rest) = joinAll (standing word pre) text rest := by
  intro pre
  induction pre using List.reverseRecOn with
  | nil =>
      intro _
      rfl
  | append_singleton pre pass ih =>
      rintro ⟨post, heq⟩
      have hsplit : passes = pre ++ pass :: post := by simp [← heq]
      have hnew : pass.1 ∉ Assoc.keys pre := by
        rw [hsplit, Assoc.keys, List.map_append, List.map_cons, List.nodup_append] at hkeys
        intro hmem
        exact hkeys.2.2 _ hmem _ List.mem_cons_self rfl
      rw [replaceEach_concat, ih ⟨pass :: post, hsplit.symm⟩,
        replaceAll_joinAll (hstands pre pass post hsplit)]
      exact joinAll_congr fun part _ => (standing_concat hnew part.1).symm

/-! ## Where the matches are -/

section Spans

omit [DecidableEq α]

/-- The parts of a text between spans, from `last` on. -/
def partsBetween (text : List α) : ℕ → List (ℕ × ℕ) → List (List α)
  | last, [] => [text.drop last]
  | last, span :: spans => (text.take span.1).drop last :: partsBetween text span.2 spans

namespace Matcher

/-- Where the matches begin and end, in a text that begins at `pos`; the first `skip` letters belong
to a match already. -/
def spansFrom (m : Matcher α τ) : ℕ → ℕ → List α → List (ℕ × ℕ)
  | _, _, [] => []
  | pos, skip + 1, _ :: s => spansFrom m (pos + 1) skip s
  | pos, 0, a :: s =>
      match m.at? (a :: s) with
      | some t =>
          (pos, pos + (m.spell t).length) :: spansFrom m (pos + 1) ((m.spell t).length - 1) s
      | none => spansFrom m (pos + 1) 0 s

/-- Where the matches begin and end. -/
def spans (m : Matcher α τ) (s : List α) : List (ℕ × ℕ) := m.spansFrom 0 0 s

variable {m : Matcher α τ}

theorem spansFrom_eq_drop (pos skip : ℕ) (s : List α) :
    m.spansFrom pos skip s = m.spansFrom (pos + skip) 0 (s.drop skip) := by
  induction s generalizing pos skip with
  | nil => simp [spansFrom]
  | cons a s ih =>
      cases skip with
      | zero => rfl
      | succ skip =>
          rw [spansFrom, ih, List.drop_succ_cons]
          congr 1
          omega

theorem spansFrom_spell_append {t : τ} {r : List α} (h : m.at? (m.spell t ++ r) = some t)
    (pos : ℕ) :
    m.spansFrom pos 0 (m.spell t ++ r) =
      (pos, pos + (m.spell t).length) :: m.spansFrom (pos + (m.spell t).length) 0 r := by
  obtain ⟨a, q, hq⟩ := List.exists_cons_of_ne_nil (m.spell_ne_nil h)
  rw [hq, List.cons_append] at h ⊢
  have hdrop : (q ++ r).drop ((m.spell t).length - 1) = r := by
    rw [hq, List.length_cons, Nat.add_sub_cancel, List.drop_left]
  have hpos : pos + 1 + ((m.spell t).length - 1) = pos + (a :: q).length := by
    rw [hq, List.length_cons]
    omega
  simp only [spansFrom, h]
  rw [spansFrom_eq_drop, hdrop, hpos, hq]

/-- What stands between the matches is what the scan leaves between them. -/
theorem partsBetween_spansFrom (front s : List α) (last : ℕ) (hlast : last ≤ front.length) :
    partsBetween (front ++ s) last (m.spansFrom front.length 0 s) =
      (front.drop last ++ (m.scan s).1) :: (m.scan s).2.map Prod.snd := by
  induction s using scan_induction (m := m) generalizing front last with
  | nil => simp [spansFrom, partsBetween]
  | skip a s hat ih =>
      have hnext := ih (front ++ [a]) last (hlast.trans (by simp))
      rw [scan_cons_of_none hat, spansFrom, hat]
      simpa [List.drop_append_of_le_length hlast] using hnext
  | found t r hat ih =>
      have hnext := ih (front ++ m.spell t) _ le_rfl
      rw [scan_spell_append hat, spansFrom_spell_append hat, partsBetween, List.take_left]
      simpa using hnext

theorem partsBetween_spans (s : List α) :
    partsBetween s 0 (m.spans s) = (m.scan s).1 :: (m.scan s).2.map Prod.snd := by
  exact partsBetween_spansFrom [] s 0 le_rfl

end Matcher

end Spans

end RagflowMineru.Library
