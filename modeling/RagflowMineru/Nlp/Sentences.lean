import RagflowMineru.Nlp.Bullets
import Mathlib.Algebra.BigOperators.Group.List.Basic
import Mathlib.Algebra.Order.Field.Rat

/-!
# Sentences around a place in a text

A text is split after every mark that ends a sentence.  Sentences next to a boundary
are collected while tokens remain.  A sentence that has more of them than remain is
trimmed, but trimming takes whole sentences, and takes the one that goes beyond.
-/

namespace RagflowMineru.Nlp

/-- `[.。！？!?；;：:\n]` -/
def isMark (c : Char) : Bool :=
  c ∈ ".。！？!?；;：:\n".toList

/-- The sentences behind `buf`, which is read already. -/
def splitFrom : Text → Text → List Text
  | buf, [] => if buf = [] then [] else [buf]
  | buf, c :: t => if isMark c then (buf ++ [c]) :: splitFrom [] t else splitFrom (buf ++ [c]) t

/-- The parts between the marks, each with the mark behind it. -/
def splitSentences (text : Text) : List Text :=
  splitFrom [] text

/-- The loop of `trim_to_tokens`. -/
def trimLoop (numTokens : Text → ℕ) : ℤ → List Text → List Text
  | _, [] => []
  | remaining, s :: seq =>
    if numTokens s = 0 then trimLoop numTokens remaining seq
    else if remaining < numTokens s then [s]
    else s :: trimLoop numTokens (remaining - numTokens s) seq

def trimToTokens (numTokens : Text → ℕ) (text : Text) (tokenBudget : ℤ) (fromTail : Bool) : Text :=
  if tokenBudget ≤ 0 ∨ text = [] then []
  else
    let sentences := splitSentences text
    if fromTail then (trimLoop numTokens tokenBudget sentences.reverse).reverse.flatten
    else (trimLoop numTokens tokenBudget sentences).flatten

/-- `find_mid_sentence_index`: the first sentence after which about half of the tokens are read;
`best` is the difference and the place of the best one so far. -/
def midLoop (numTokens : Text → ℕ) (target : ℚ) :
    ℕ → ℕ → Option (ℚ × ℕ) → List Text → Option (ℚ × ℕ)
  | _, _, best, [] => best
  | cum, i, best, s :: rest =>
    let cum := cum + numTokens s
    let diff := |cum - target|
    let best := match best with
      | none => (diff, i)
      | some best => if diff < best.1 then (diff, i) else best
    midLoop numTokens target cum (i + 1) (some best) rest

def findMidSentenceIndex (numTokens : Text → ℕ) (sentences : List Text) : ℕ :=
  if sentences = [] then 0
  else
    let total := (sentences.map numTokens).sum
    if total = 0 then sentences.length / 2
    else ((midLoop numTokens (total / 2) 0 0 none sentences).map Prod.snd).getD 0

/-- One side of `collect_context_from_sentences`, from the boundary on. -/
def collectSide (numTokens : Text → ℕ) (fromTail : Bool) : ℤ → List Text → List Text
  | _, [] => []
  | remaining, s :: rest =>
    if remaining ≤ 0 then []
    else if numTokens s = 0 then collectSide numTokens fromTail remaining rest
    else
      let s := if remaining < numTokens s then trimToTokens numTokens s remaining fromTail else s
      s :: collectSide numTokens fromTail (remaining - numTokens s) rest

/-- The sentences before the boundary and those after it. -/
def collectContext (numTokens : Text → ℕ) (sentences : List Text) (boundaryIdx : ℕ)
    (tokenBudget : ℤ) : List Text × List Text :=
  ((collectSide numTokens true tokenBudget (sentences.take (boundaryIdx + 1)).reverse).reverse,
    collectSide numTokens false tokenBudget (sentences.drop (boundaryIdx + 1)))

/-! ## Whole sentences -/

/-- A text with no mark but its last character, if that. -/
inductive IsSentence : Text → Prop
  | rest {s : Text} (hne : s ≠ []) (hs : ∀ c ∈ s, isMark c = false) : IsSentence s
  | marked {s : Text} {c : Char} (hs : ∀ c ∈ s, isMark c = false) (hc : isMark c = true) :
      IsSentence (s ++ [c])

theorem splitFrom_of_unmarked {s : Text} (hs : ∀ c ∈ s, isMark c = false) (buf t : Text) :
    splitFrom buf (s ++ t) = splitFrom (buf ++ s) t := by
  induction s generalizing buf with
  | nil => rw [List.nil_append, List.append_nil]
  | cons c s ih =>
    obtain ⟨hc, hs⟩ := List.forall_mem_cons.mp hs
    rw [List.cons_append, splitFrom, hc, if_neg Bool.false_ne_true, ih hs, List.append_assoc]
    rfl

theorem IsSentence.split {s : Text} (h : IsSentence s) : splitSentences s = [s] := by
  cases h with
  | rest hne hs =>
    rw [splitSentences, ← List.append_nil s, splitFrom_of_unmarked hs, splitFrom,
      if_neg (by simpa using hne)]
    simp
  | marked hs hc =>
    rw [splitSentences, splitFrom_of_unmarked hs, splitFrom, if_pos hc, splitFrom, if_pos rfl]
    rfl

theorem isSentence_of_mem_splitFrom {buf t s : Text} (hbuf : ∀ c ∈ buf, isMark c = false)
    (hs : s ∈ splitFrom buf t) : IsSentence s := by
  induction t generalizing buf with
  | nil =>
    rw [splitFrom] at hs
    split_ifs at hs with hempty
    · simp at hs
    · obtain rfl := List.mem_singleton.mp hs
      exact IsSentence.rest hempty hbuf
  | cons c t ih =>
    rw [splitFrom] at hs
    split_ifs at hs with hc
    · rcases List.mem_cons.mp hs with rfl | hs
      · exact IsSentence.marked hbuf hc
      · exact ih (by simp) hs
    · refine ih ?_ hs
      intro a ha
      rcases List.mem_append.mp ha with ha | ha
      · exact hbuf a ha
      · rw [List.mem_singleton.mp ha]
        simpa using hc

theorem isSentence_of_mem {text s : Text} (hs : s ∈ splitSentences text) : IsSentence s :=
  isSentence_of_mem_splitFrom (by simp) hs

theorem IsSentence.ne_nil {s : Text} (h : IsSentence s) : s ≠ [] := by
  cases h with
  | rest hne _ => exact hne
  | marked _ _ => simp

variable {numTokens : Text → ℕ}

/-- A sentence that is trimmed stays whole. -/
theorem IsSentence.trim {s : Text} (h : IsSentence s) {remaining : ℤ} (hpos : 0 < remaining)
    (hlong : remaining < numTokens s) (fromTail : Bool) :
    trimToTokens numTokens s remaining fromTail = s := by
  have hgo : ¬ (remaining ≤ 0 ∨ s = []) := by
    rintro (hle | hnil)
    · omega
    · exact h.ne_nil hnil
  have hloop : trimLoop numTokens remaining [s] = [s] := by
    rw [trimLoop, if_neg (by omega), if_pos hlong]
  rw [trimToTokens, if_neg hgo, h.split]
  cases fromTail <;> simp [hloop]

/-- Sentences with tokens, until no tokens remain. -/
def takeTokens (numTokens : Text → ℕ) : ℤ → List Text → List Text
  | _, [] => []
  | remaining, s :: rest =>
    if remaining ≤ 0 then []
    else if numTokens s = 0 then takeTokens numTokens remaining rest
    else s :: takeTokens numTokens (remaining - numTokens s) rest

theorem collectSide_eq {sentences : List Text} (h : ∀ s ∈ sentences, IsSentence s)
    (fromTail : Bool) (remaining : ℤ) :
    collectSide numTokens fromTail remaining sentences =
      takeTokens numTokens remaining sentences := by
  induction sentences generalizing remaining with
  | nil => rfl
  | cons s rest ih =>
    obtain ⟨hs, hrest⟩ := List.forall_mem_cons.mp h
    rw [collectSide, takeTokens]
    split_ifs with hdone hzero hlong
    · rfl
    · exact ih hrest remaining
    · dsimp only
      rw [hs.trim (not_le.mp hdone) hlong, ih hrest]
    · dsimp only
      rw [ih hrest]

theorem takeTokens_sublist (sentences : List Text) (remaining : ℤ) :
    (takeTokens numTokens remaining sentences).Sublist sentences := by
  induction sentences generalizing remaining with
  | nil => exact List.Sublist.slnil
  | cons s rest ih =>
    rw [takeTokens]
    split_ifs
    · exact List.nil_sublist _
    · exact (ih remaining).cons s
    · exact (ih _).cons_cons s

/-- The last sentence that is taken is the only one that can go beyond what remains. -/
theorem takeTokens_tokens (sentences : List Text) {remaining : ℤ} (hpos : 0 < remaining) :
    ((((takeTokens numTokens remaining sentences).dropLast.map numTokens).sum : ℕ) : ℤ) <
      remaining := by
  induction sentences generalizing remaining with
  | nil => simpa [takeTokens] using hpos
  | cons s rest ih =>
    rw [takeTokens, if_neg (not_le.mpr hpos)]
    split_ifs with hzero
    · exact ih hpos
    · by_cases hrest : takeTokens numTokens (remaining - numTokens s) rest = []
      · simpa [hrest] using hpos
      · have hleft : 0 < remaining - numTokens s := by
          by_contra hle
          rcases rest with _ | ⟨s', rest⟩
          · exact hrest rfl
          · exact hrest (by rw [takeTokens, if_pos (not_lt.mp hle)])
        have hih := ih hleft
        rw [List.dropLast_cons_of_ne_nil hrest, List.map_cons, List.sum_cons, Nat.cast_add]
        omega

/-- The context of a boundary consists of sentences of the text in their order, and on each side
those without the outermost have fewer tokens than the budget. -/
theorem collectContext_spec (text : Text) (boundaryIdx : ℕ) {tokenBudget : ℤ}
    (hpos : 0 < tokenBudget) :
    let context := collectContext numTokens (splitSentences text) boundaryIdx tokenBudget
    (context.1 ++ context.2).Sublist (splitSentences text) ∧
      (((context.1.tail.map numTokens).sum : ℕ) : ℤ) < tokenBudget ∧
      (((context.2.dropLast.map numTokens).sum : ℕ) : ℤ) < tokenBudget := by
  have hsentence : ∀ s ∈ splitSentences text, IsSentence s := fun s hs => isSentence_of_mem hs
  have hprev : ∀ s ∈ ((splitSentences text).take (boundaryIdx + 1)).reverse, IsSentence s :=
    fun s hs => hsentence s (List.mem_of_mem_take (List.mem_reverse.mp hs))
  have hnext : ∀ s ∈ (splitSentences text).drop (boundaryIdx + 1), IsSentence s :=
    fun s hs => hsentence s (List.mem_of_mem_drop hs)
  intro context
  dsimp only [context, collectContext]
  rw [collectSide_eq hprev, collectSide_eq hnext]
  refine ⟨?_, ?_, takeTokens_tokens _ hpos⟩
  · have hleft := (@takeTokens_sublist numTokens
      ((splitSentences text).take (boundaryIdx + 1)).reverse tokenBudget).reverse
    rw [List.reverse_reverse] at hleft
    have hboth := hleft.append (@takeTokens_sublist numTokens
      ((splitSentences text).drop (boundaryIdx + 1)) tokenBudget)
    rwa [List.take_append_drop] at hboth
  · rw [List.tail_reverse, List.map_reverse, List.sum_reverse]
    exact takeTokens_tokens _ hpos

end RagflowMineru.Nlp
