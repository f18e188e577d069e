import Mathlib.Algebra.Order.BigOperators.Group.List
import Mathlib.Logic.Relation
import RagflowMineru.Analyzer.BestTokens

/-!
# Segmenting Chinese text

A line is segmented greedily from the front and from the back.  Where the two disagree, `DFS`
tries the words of the dictionary one after the other, down to a depth, and the best of the
segmentations that it records is taken.
-/

namespace RagflowMineru.Analyzer

open Library

/-! ## The dictionary -/

/-- `Get`; there is no value where it is `-1`. -/
def DartsTrie.get (trie : DartsTrie) (key : Text) : Option ℕ := trie.entries.lookup key

def DartsTrie.hasKeysWithPrefix (trie : DartsTrie) (key : Text) : Bool := trie.traverse key != -2

def key (line : Text) : Text := line.map Char.toLower

def rKey (line : Text) : Text := 'D' :: 'D' :: line.reverse.map Char.toLower

/-- `UTF8Substr`. -/
def utf8Substr (t : Text) (start length : ℕ) : Text := (t.drop start).take length

/-- Tokens with their values. -/
abbrev TokenFreqs : Type := List (Text × ℕ)

/-- `Encode(-12, 0)`. -/
def unknownValue : ℕ := 2 ^ 23 + 12

/-- `Score`, in doubles; without tokens it is not a number. -/
def score (tokenFreqs : TokenFreqs) : List Text × Option ℚ :=
  let F := (tokenFreqs.map fun p => decodeFreq p.2).sum
  let L := tokenFreqs.countP fun p => 2 ≤ p.1.length
  let N := tokenFreqs.length
  (tokenFreqs.map Prod.fst,
    if N = 0 then none
    else some (Binary64.nearest
      (Binary64.nearest (Binary64.nearest (30 / N) + Binary64.nearest (L / N)) +
        Binary64.nearest F)))

/-! ## Greedy segmentations -/

/-- A token grows while keys go on behind it. -/
def grow (goesOn : Text → Bool) (t : Text) : Text → Text
  | [] => t
  | ch :: rest => if goesOn t then grow goesOn (t ++ [ch]) rest else t

/-- It shrinks to a word, or to one character; `n + 1` characters are left. -/
def shrink (isWord : Text → Bool) (t : Text) : ℕ → Text
  | 0 => t.take 1
  | n + 1 => if isWord (t.take (n + 2)) then t.take (n + 2) else shrink isWord t n

/-- The first `skip` characters belong to a token already. -/
def greedy (goesOn isWord : Text → Bool) : ℕ → Text → List Text
  | _, [] => []
  | skip + 1, _ :: l => greedy goesOn isWord skip l
  | 0, ch :: l =>
      let grown := grow goesOn [ch] l
      let t := shrink isWord grown (grown.length - 1)
      t :: greedy goesOn isWord (t.length - 1) l

section

variable (trie : DartsTrie)

def withValues (tokens : List Text) : TokenFreqs :=
  tokens.map fun t => (t, (trie.get (key t)).getD 0)

def maxForward (line : Text) : List Text × Option ℚ :=
  score (withValues trie
    (greedy (fun t => trie.hasKeysWithPrefix (key t)) (fun t => (trie.get (key t)).isSome) 0 line))

/-- The line is read from its end. -/
def maxBackward (line : Text) : List Text × Option ℚ :=
  score (withValues trie
    ((greedy (fun t => trie.hasKeysWithPrefix (rKey t.reverse))
      (fun t => (trie.get (key t.reverse)).isSome) 0 line.reverse).map List.reverse).reverse)

/-! ## The search -/

/-- `std::numeric_limits<double>::lowest()`. -/
def lowest : ℚ := -(2 ^ 1024 - 2 ^ 971)

/-- What the search fills in. -/
structure Found where
  tokenList : List TokenFreqs := []
  bestTokens : List Text := []
  maxScore : ℚ := lowest

def Found.record (memoAll : Bool) (found : Found) (pretks : TokenFreqs) : Found :=
  if memoAll then { found with tokenList := found.tokenList ++ [pretks] }
  else
    match (score pretks).2 with
    | some currentScore =>
        if found.maxScore < currentScore then
          { found with bestTokens := (score pretks).1, maxScore := currentScore }
        else found
    | none => found

variable (chars : Text)

/-- The end of the first word that is tried at `s`. -/
def firstEnd (s : ℕ) (preTokens : TokenFreqs) : ℕ :=
  let start :=
    if s + 2 ≤ chars.length ∧ trie.hasKeysWithPrefix (key (utf8Substr chars s 1)) ∧
        ¬ trie.hasKeysWithPrefix (key (utf8Substr chars s 2)) then s + 2
    else s + 1
  match preTokens.reverse with
  | a :: b :: c :: _ =>
      if a.1.length = 1 ∧ b.1.length = 1 ∧ c.1.length = 1 ∧
          trie.hasKeysWithPrefix (key (a.1 ++ utf8Substr chars s 1)) then s + 2
      else start
  | _ => start

/-- The loop over the ends of words, from `e` on: `recurse` goes on behind a word. -/
def wordLoop (s : ℕ) (preTokens : TokenFreqs) (recurse : ℕ → TokenFreqs → Found → ℕ × Found) :
    ℕ → ℕ → ℕ × Found → ℕ × Found
  | 0, _, st => st
  | n + 1, e, (res, found) =>
      let t := utf8Substr chars s (e - s)
      if s + 1 < e ∧ ¬ trie.hasKeysWithPrefix (key t) then (res, found)
      else
        match trie.get (key t) with
        | some v =>
            let (r, found) := recurse e (preTokens ++ [(t, v)]) found
            wordLoop s preTokens recurse n (e + 1) (max res r, found)
        | none => wordLoop s preTokens recurse n (e + 1) (res, found)

/-- `DFS`: `left` levels are left down to the depth where it gives up. -/
def dfs (memoAll : Bool) : ℕ → ℕ → TokenFreqs → Found → ℕ × Found
  | 0, s, preTokens, found =>
      if s < chars.length then
        let remaining := utf8Substr chars s (chars.length - s)
        (chars.length, found.record memoAll (preTokens ++ [(remaining, unknownValue)]))
      else (chars.length, found)
  | left + 1, s, preTokens, found =>
      if chars.length ≤ s then (s, found.record memoAll preTokens)
      else
        let S := firstEnd trie chars s preTokens
        let (res, found) := wordLoop trie chars s preTokens (dfs memoAll left)
          (chars.length + 1 - S) S (s, found)
        if s < res then (res, found)
        else
          let t := utf8Substr chars s 1
          dfs memoAll left (s + 1)
            (preTokens ++ [(t, (trie.get (key t)).getD unknownValue)]) found

/-- Depths up to `MAX_DFS_DEPTH` are searched. -/
def maxDfsDepth : ℕ := 10

/-- The segmentations that are recorded with `memo_all`. -/
def tokenList : List TokenFreqs := (dfs trie chars true (maxDfsDepth + 1) 0 [] {}).2.tokenList

/-- The best one that is found without it. -/
def bestTokens : List Text := (dfs trie chars false (maxDfsDepth + 1) 0 [] {}).2.bestTokens

end

/-- The analyzer with a dictionary. -/
def withTrie (a : RAGAnalyzer) (trie : DartsTrie) : RAGAnalyzer :=
  { a with
    maxForward := fun line => (maxForward trie line).1
    maxBackward := fun line => (maxBackward trie line).1
    bestTokens := bestTokens trie }

/-! ## What the search tries -/

section Search

variable (trie : DartsTrie) (chars : Text)

/-- The word that ends at `e` is tried at `s`: keys go on behind all that is shorter. -/
structure Tries (s : ℕ) (preTokens : TokenFreqs) (e v : ℕ) : Prop where
  first_le : firstEnd trie chars s preTokens ≤ e
  le_length : e ≤ chars.length
  get : trie.get (key (utf8Substr chars s (e - s))) = some v
  goesOn : ∀ e', firstEnd trie chars s preTokens ≤ e' → e' ≤ e → s + 1 < e' →
    trie.hasKeysWithPrefix (key (utf8Substr chars s (e' - s)))

/-- A segmentation goes on with a word that is tried, or with a character where there is none. -/
inductive Step : ℕ × TokenFreqs → ℕ × TokenFreqs → Prop
  | word {s : ℕ} {preTokens : TokenFreqs} {e v : ℕ} (hs : s < chars.length)
      (h : Tries trie chars s preTokens e v) :
      Step (s, preTokens) (e, preTokens ++ [(utf8Substr chars s (e - s), v)])
  | single {s : ℕ} {preTokens : TokenFreqs} (hs : s < chars.length)
      (h : ∀ e v, ¬ Tries trie chars s preTokens e v) :
      Step (s, preTokens) (s + 1, preTokens ++
        [(utf8Substr chars s 1, (trie.get (key (utf8Substr chars s 1))).getD unknownValue)])

/-- A way through the whole text. -/
def Way (path : TokenFreqs) : Prop :=
  Relation.ReflTransGen (Step trie chars) (0, []) (chars.length, path)

/-- The words that are tried, from the end `e` on. -/
def wordsFrom (s : ℕ) : ℕ → ℕ → List (ℕ × ℕ)
  | 0, _ => []
  | n + 1, e =>
      if s + 1 < e ∧ ¬ trie.hasKeysWithPrefix (key (utf8Substr chars s (e - s))) then []
      else
        match trie.get (key (utf8Substr chars s (e - s))) with
        | some v => (e, v) :: wordsFrom s n (e + 1)
        | none => wordsFrom s n (e + 1)

def words (s : ℕ) (preTokens : TokenFreqs) : List (ℕ × ℕ) :=
  wordsFrom trie chars s (chars.length + 1 - firstEnd trie chars s preTokens)
    (firstEnd trie chars s preTokens)

/-- Where a segmentation goes on. -/
def next (s : ℕ) (preTokens : TokenFreqs) : List (ℕ × TokenFreqs) :=
  if words trie chars s preTokens = [] then
    [(s + 1, preTokens ++
      [(utf8Substr chars s 1, (trie.get (key (utf8Substr chars s 1))).getD unknownValue)])]
  else (words trie chars s preTokens).map fun p =>
    (p.1, preTokens ++ [(utf8Substr chars s (p.1 - s), p.2)])

/-- What is recorded from a place on, in this order. -/
def leaves : ℕ → ℕ → TokenFreqs → List TokenFreqs
  | 0, s, preTokens =>
      if s < chars.length then
        [preTokens ++ [(utf8Substr chars s (chars.length - s), unknownValue)]]
      else []
  | left + 1, s, preTokens =>
      if chars.length ≤ s then [preTokens]
      else (next trie chars s preTokens).flatMap fun p => leaves left p.1 p.2

variable {trie chars} {s : ℕ} {preTokens : TokenFreqs}

theorem firstEnd_eq_or :
    firstEnd trie chars s preTokens = s + 1 ∨ firstEnd trie chars s preTokens = s + 2 := by
  rw [firstEnd]
  split <;> split_ifs <;> simp

theorem lt_firstEnd : s < firstEnd trie chars s preTokens := by
  have hfirst := @firstEnd_eq_or trie chars s preTokens
  omega

theorem firstEnd_le : firstEnd trie chars s preTokens ≤ s + 2 := by
  have hfirst := @firstEnd_eq_or trie chars s preTokens
  omega

theorem mem_wordsFrom_iff {n e₀ e v : ℕ} :
    (e, v) ∈ wordsFrom trie chars s n e₀ ↔ e₀ ≤ e ∧ e < e₀ + n ∧
      trie.get (key (utf8Substr chars s (e - s))) = some v ∧
      ∀ e', e₀ ≤ e' → e' ≤ e → s + 1 < e' →
        trie.hasKeysWithPrefix (key (utf8Substr chars s (e' - s))) := by
  induction n generalizing e₀ with
  | zero =>
    refine iff_of_false List.not_mem_nil ?_
    rintro ⟨hle, hlt, -⟩
    omega
  | succ n ih =>
    rw [wordsFrom]
    split
    · rename_i hstop
      refine iff_of_false List.not_mem_nil ?_
      rintro ⟨hle, -, -, hall⟩
      exact hstop.2 (hall e₀ le_rfl hle hstop.1)
    · rename_i hgo
      have hhere : s + 1 < e₀ →
          trie.hasKeysWithPrefix (key (utf8Substr chars s (e₀ - s))) := fun hlt => by
        by_contra hnot
        exact hgo ⟨hlt, hnot⟩
      have hrest : (e, v) ∈ wordsFrom trie chars s n (e₀ + 1) ↔ e₀ + 1 ≤ e ∧ e < e₀ + (n + 1) ∧
          trie.get (key (utf8Substr chars s (e - s))) = some v ∧
          ∀ e', e₀ ≤ e' → e' ≤ e → s + 1 < e' →
            trie.hasKeysWithPrefix (key (utf8Substr chars s (e' - s))) := by
        rw [ih]
        refine and_congr_right fun hle => and_congr (by omega) (and_congr_right fun _ => ?_)
        refine ⟨fun h e' hfrom hto hlt => ?_, fun h e' hfrom => h e' (by omega)⟩
        rcases Nat.eq_or_lt_of_le hfrom with rfl | hfrom
        · exact hhere hlt
        · exact h e' hfrom hto hlt
      have hfirst : ∀ w, trie.get (key (utf8Substr chars s (e₀ - s))) = some w →
          ((e, v) = (e₀, w) ↔ e = e₀ ∧ e < e₀ + (n + 1) ∧
            trie.get (key (utf8Substr chars s (e - s))) = some v ∧
            ∀ e', e₀ ≤ e' → e' ≤ e → s + 1 < e' →
              trie.hasKeysWithPrefix (key (utf8Substr chars s (e' - s)))) := by
        intro w hw
        constructor
        · intro heq
          obtain ⟨rfl, rfl⟩ := Prod.mk.inj heq
          refine ⟨rfl, by omega, hw, fun e' hfrom hto hlt => ?_⟩
          obtain rfl := Nat.le_antisymm hto hfrom
          exact hhere hlt
        · rintro ⟨rfl, -, hget, -⟩
          rw [hw] at hget
          rw [Option.some.inj hget]
      have hsplit : e₀ ≤ e ↔ e = e₀ ∨ e₀ + 1 ≤ e := by omega
      split
      · rename_i w hw
        rw [List.mem_cons, hfirst w hw, hrest, hsplit, or_and_right]
      · rename_i hw
        rw [hrest, hsplit, or_and_right]
        refine ⟨Or.inr, fun h => h.resolve_left ?_⟩
        rintro ⟨rfl, -, hget, -⟩
        rw [hw] at hget
        cases hget

theorem mem_words_iff {e v : ℕ} :
    (e, v) ∈ words trie chars s preTokens ↔ Tries trie chars s preTokens e v := by
  rw [words, mem_wordsFrom_iff]
  constructor
  · rintro ⟨hfirst, hlt, hget, hall⟩
    exact ⟨hfirst, by omega, hget, hall⟩
  · rintro ⟨hfirst, hle, hget, hall⟩
    exact ⟨hfirst, by omega, hget, hall⟩

theorem mem_next_iff (hs : s < chars.length) {p : ℕ × TokenFreqs} :
    p ∈ next trie chars s preTokens ↔ Step trie chars (s, preTokens) p := by
  rw [next]
  split
  · rename_i hnil
    have hnone : ∀ e v, ¬ Tries trie chars s preTokens e v := fun e v h => by
      rw [← mem_words_iff, hnil] at h
      cases h
    rw [List.mem_singleton]
    constructor
    · rintro rfl
      exact .single hs hnone
    · intro hstep
      cases hstep with
      | word _ h => exact absurd h (hnone _ _)
      | single => rfl
  · rename_i hne
    rw [List.mem_map]
    constructor
    · rintro ⟨⟨e, v⟩, hmem, rfl⟩
      exact .word hs (mem_words_iff.mp hmem)
    · intro hstep
      cases hstep with
      | word _ h => exact ⟨_, mem_words_iff.mpr h, rfl⟩
      | single _ hnone =>
        obtain ⟨⟨e, v⟩, hmem⟩ := List.exists_mem_of_ne_nil _ hne
        exact absurd (mem_words_iff.mp hmem) (hnone e v)

theorem next_ne_nil : next trie chars s preTokens ≠ [] := by
  rw [next]
  split
  · exact List.cons_ne_nil _ _
  · rename_i hne
    exact fun h => hne (List.map_eq_nil_iff.mp h)

/-! ## What the search records -/

/-- The loop tries the words in order, and stays where it is without one. -/
theorem wordLoop_spec {recurse : ℕ → TokenFreqs → Found → ℕ × Found}
    {results : ℕ → TokenFreqs → List TokenFreqs} {rec : Found → TokenFreqs → Found}
    (hrec : ∀ e ≤ chars.length, ∀ tokens found, e ≤ (recurse e tokens found).1 ∧
      (recurse e tokens found).2 = (results e tokens).foldl rec found)
    {n e : ℕ} (hn : e + n ≤ chars.length + 1) (res : ℕ) (found : Found) :
    (wordLoop trie chars s preTokens recurse n e (res, found)).2 =
        ((wordsFrom trie chars s n e).flatMap fun p =>
          results p.1 (preTokens ++ [(utf8Substr chars s (p.1 - s), p.2)])).foldl rec found ∧
      res ≤ (wordLoop trie chars s preTokens recurse n e (res, found)).1 ∧
      (wordsFrom trie chars s n e = [] →
        (wordLoop trie chars s preTokens recurse n e (res, found)).1 = res) ∧
      (wordsFrom trie chars s n e ≠ [] →
        e ≤ (wordLoop trie chars s preTokens recurse n e (res, found)).1) := by
  induction n generalizing e res found with
  | zero => exact ⟨rfl, le_rfl, fun _ => rfl, fun h => absurd rfl h⟩
  | succ n ih =>
    rw [wordLoop, wordsFrom]
    split
    · exact ⟨rfl, le_rfl, fun _ => rfl, fun h => absurd rfl h⟩
    · split
      · rename_i v hv
        obtain ⟨hle, hfound⟩ := hrec e (by omega)
          (preTokens ++ [(utf8Substr chars s (e - s), v)]) found
        obtain ⟨hrest, hres, -, -⟩ := @ih (e + 1) (by omega)
          (max res (recurse e (preTokens ++ [(utf8Substr chars s (e - s), v)]) found).1)
          (recurse e (preTokens ++ [(utf8Substr chars s (e - s), v)]) found).2
        refine ⟨?_, (le_max_left _ _).trans hres, fun h => absurd h (List.cons_ne_nil _ _),
          fun _ => hle.trans ((le_max_right _ _).trans hres)⟩
        rw [List.flatMap_cons, List.foldl_append, ← hfound]
        exact hrest
      · obtain ⟨hrest, hres, hnil, hcons⟩ := @ih (e + 1) (by omega) res found
        exact ⟨hrest, hres, hnil, fun h => (Nat.le_succ e).trans (hcons h)⟩

theorem dfs_succ {memoAll : Bool} {left : ℕ} {found : Found} (hs : s < chars.length) :
    dfs trie chars memoAll (left + 1) s preTokens found =
      if s < (wordLoop trie chars s preTokens (dfs trie chars memoAll left)
          (chars.length + 1 - firstEnd trie chars s preTokens)
          (firstEnd trie chars s preTokens) (s, found)).1 then
        wordLoop trie chars s preTokens (dfs trie chars memoAll left)
          (chars.length + 1 - firstEnd trie chars s preTokens)
          (firstEnd trie chars s preTokens) (s, found)
      else
        dfs trie chars memoAll left (s + 1)
          (preTokens ++
            [(utf8Substr chars s 1, (trie.get (key (utf8Substr chars s 1))).getD unknownValue)])
          (wordLoop trie chars s preTokens (dfs trie chars memoAll left)
            (chars.length + 1 - firstEnd trie chars s preTokens)
            (firstEnd trie chars s preTokens) (s, found)).2 := by
  rw [dfs, if_neg (not_le.mpr hs)]

/-- The search records its leaves, and does not come back. -/
theorem dfs_spec (memoAll : Bool) (left : ℕ) {s : ℕ} (hs : s ≤ chars.length)
    (preTokens : TokenFreqs) (found : Found) :
    s ≤ (dfs trie chars memoAll left s preTokens found).1 ∧
      (dfs trie chars memoAll left s preTokens found).2 =
        (leaves trie chars left s preTokens).foldl (Found.record memoAll) found := by
  induction left generalizing s preTokens found with
  | zero =>
    rw [dfs, leaves]
    by_cases hlt : s < chars.length
    · rw [if_pos hlt, if_pos hlt]
      exact ⟨hs, rfl⟩
    · rw [if_neg hlt, if_neg hlt]
      exact ⟨hs, rfl⟩
  | succ left ih =>
    by_cases hend : chars.length ≤ s
    · rw [dfs, leaves, if_pos hend, if_pos hend]
      exact ⟨le_rfl, rfl⟩
    · have hfirst := @firstEnd_le trie chars s preTokens
      have hlt := @lt_firstEnd trie chars s preTokens
      have hrange : firstEnd trie chars s preTokens +
          (chars.length + 1 - firstEnd trie chars s preTokens) ≤ chars.length + 1 := by
        omega
      have hloop := @wordLoop_spec trie chars s preTokens _ _ _
        (fun e he tokens found => @ih e he tokens found) _ _ hrange s found
      rw [← words] at hloop
      rw [dfs_succ (not_le.mp hend), leaves, if_neg hend]
      generalize wordLoop trie chars s preTokens (dfs trie chars memoAll left) _ _ (s, found) =
        st at hloop ⊢
      obtain ⟨hfound, -, hnil, hcons⟩ := hloop
      rw [next]
      by_cases hwords : words trie chars s preTokens = []
      · rw [hwords] at hfound
        obtain ⟨hle, hrest⟩ := @ih (s + 1) (by omega) (preTokens ++
          [(utf8Substr chars s 1, (trie.get (key (utf8Substr chars s 1))).getD unknownValue)])
          st.2
        rw [if_pos hwords, List.flatMap_singleton, if_neg (by rw [hnil hwords]; omega)]
        refine ⟨by omega, ?_⟩
        rw [hrest, hfound]
        rfl
      · have hres := hcons hwords
        rw [if_neg hwords, List.flatMap_map, if_pos (by omega), hfound]
        exact ⟨by omega, rfl⟩

/-! ## What a recorded segmentation is -/

theorem utf8Substr_append {e : ℕ} (hse : s ≤ e) :
    chars.take s ++ utf8Substr chars s (e - s) = chars.take e := by
  rw [utf8Substr, ← List.take_add]
  congr 1
  omega

theorem firstEnd_le_of_tries {e v : ℕ} (h : Tries trie chars s preTokens e v) : s < e :=
  lt_firstEnd.trans_le h.first_le

/-- A step reads on in the text, and adds one token. -/
theorem Step.spec {p q : ℕ × TokenFreqs} (h : Step trie chars p q) :
    p.1 < q.1 ∧ q.1 ≤ chars.length ∧ q.2.length = p.2.length + 1 ∧
      ((p.2.map Prod.fst).flatten = chars.take p.1 →
        (q.2.map Prod.fst).flatten = chars.take q.1) := by
  cases h with
  | @word s preTokens e v hs h =>
    have hlt := firstEnd_le_of_tries h
    refine ⟨hlt, h.le_length, by simp, fun hflat => ?_⟩
    have hnext := @utf8Substr_append chars s e hlt.le
    simp only [List.map_append, List.flatten_append, hflat, List.map_cons, List.map_nil,
      List.flatten_singleton]
    exact hnext
  | @single s preTokens hs h =>
    refine ⟨Nat.lt_succ_self s, hs, by simp, fun hflat => ?_⟩
    have hnext := @utf8Substr_append chars s (s + 1) (Nat.le_succ s)
    rw [Nat.add_sub_cancel_left] at hnext
    simp only [List.map_append, List.flatten_append, hflat, List.map_cons, List.map_nil,
      List.flatten_singleton]
    exact hnext

/-- What is recorded is a segmentation of the whole text. -/
theorem flatten_leaves {left : ℕ} (hs : s ≤ chars.length)
    (hflat : (preTokens.map Prod.fst).flatten = chars.take s) :
    ∀ tokens ∈ leaves trie chars left s preTokens, (tokens.map Prod.fst).flatten = chars := by
  induction left generalizing s preTokens with
  | zero =>
    intro tokens hmem
    rw [leaves] at hmem
    split at hmem
    · rw [List.mem_singleton.mp hmem, List.map_append, List.flatten_append, hflat]
      simp only [List.map_cons, List.map_nil, List.flatten_singleton]
      rw [utf8Substr_append hs, List.take_length]
    · cases hmem
  | succ left ih =>
    intro tokens hmem
    rw [leaves] at hmem
    split at hmem
    · rename_i hend
      rw [List.mem_singleton.mp hmem, hflat, List.take_of_length_le hend]
    · rename_i hend
      obtain ⟨p, hp, hmem⟩ := List.mem_flatMap.mp hmem
      obtain ⟨-, hle, -, hnext⟩ := ((mem_next_iff (not_le.mp hend)).mp hp).spec
      exact ih hle (hnext hflat) tokens hmem

/-- From every place there is a way to the end, with at least one token more for each step. -/
theorem exists_way (hs : s ≤ chars.length) (preTokens : TokenFreqs) :
    ∃ path, Relation.ReflTransGen (Step trie chars) (s, preTokens) (chars.length, path) ∧
      preTokens.length ≤ path.length ∧ (s < chars.length → preTokens.length < path.length) := by
  induction hn : chars.length - s using Nat.strong_induction_on generalizing s preTokens with
  | _ n ih =>
    subst hn
    rcases Nat.eq_or_lt_of_le hs with rfl | hlt
    · exact ⟨preTokens, .refl, le_rfl, fun h => absurd h (lt_irrefl _)⟩
    · obtain ⟨p, hp⟩ := List.exists_mem_of_ne_nil _ (@next_ne_nil trie chars s preTokens)
      have hstep := (mem_next_iff hlt).mp hp
      obtain ⟨hfar, hle, hlength, -⟩ := hstep.spec
      simp only at hfar
      obtain ⟨path, hway, hpath, -⟩ := ih (chars.length - p.1) (by omega) hle p.2 rfl
      have hmore : preTokens.length < path.length := by
        simp only at hlength
        omega
      exact ⟨path, .head hstep hway, hmore.le, fun _ => hmore⟩

/-- Nothing is recorded where every way to the end has as many tokens as there are depths. -/
theorem leaves_ne_nil_iff {left : ℕ} (hs : s ≤ chars.length) :
    leaves trie chars left s preTokens ≠ [] ↔
      ∃ path, Relation.ReflTransGen (Step trie chars) (s, preTokens) (chars.length, path) ∧
        path.length ≠ preTokens.length + left := by
  induction left generalizing s preTokens with
  | zero =>
    rw [leaves]
    by_cases hlt : s < chars.length
    · rw [if_pos hlt]
      obtain ⟨path, hway, -, hmore⟩ := @exists_way trie chars s hs preTokens
      exact iff_of_true (List.cons_ne_nil _ _) ⟨path, hway, (hmore hlt).ne'⟩
    · rw [if_neg hlt]
      refine iff_of_false (not_not.mpr rfl) ?_
      rintro ⟨path, hway, hne⟩
      cases Relation.ReflTransGen.cases_head hway with
      | inl heq => exact hne (congrArg (·.2.length) heq).symm
      | inr hfirst =>
        obtain ⟨p, hstep, -⟩ := hfirst
        obtain ⟨hfar, hle, -⟩ := hstep.spec
        exact hlt (hfar.trans_le hle)
  | succ left ih =>
    rw [leaves]
    by_cases hend : chars.length ≤ s
    · obtain rfl := Nat.le_antisymm hs hend
      rw [if_pos hend]
      exact iff_of_true (List.cons_ne_nil _ _) ⟨preTokens, .refl, by omega⟩
    · have hlt := not_le.mp hend
      rw [if_neg hend, ne_eq, List.flatMap_eq_nil_iff, not_forall]
      constructor
      · rintro ⟨p, hp⟩
        rw [Classical.not_imp] at hp
        obtain ⟨hp, hleaves⟩ := hp
        have hstep := (mem_next_iff hlt).mp hp
        obtain ⟨-, hle, hlength, -⟩ := hstep.spec
        obtain ⟨path, hway, hne⟩ := (ih hle).mp hleaves
        refine ⟨path, .head hstep hway, ?_⟩
        simp only at hlength
        omega
      · rintro ⟨path, hway, hne⟩
        cases Relation.ReflTransGen.cases_head hway with
        | inl heq => exact absurd (congrArg Prod.fst heq) hlt.ne
        | inr hfirst =>
          obtain ⟨p, hstep, hway⟩ := hfirst
          obtain ⟨-, hle, hlength, -⟩ := hstep.spec
          have hleaves := (ih hle).mpr ⟨path, hway, by simp only at hlength; omega⟩
          exact ⟨p, Classical.not_imp.mpr ⟨(mem_next_iff hlt).mpr hstep, hleaves⟩⟩

theorem length_of_mem_leaves {left : ℕ} :
    ∀ tokens ∈ leaves trie chars left s preTokens,
      tokens.length ≤ preTokens.length + left + 1 := by
  induction left generalizing s preTokens with
  | zero =>
    intro tokens hmem
    rw [leaves] at hmem
    split at hmem
    · rw [List.mem_singleton.mp hmem, List.length_append]
      exact le_rfl
    · cases hmem
  | succ left ih =>
    intro tokens hmem
    rw [leaves] at hmem
    split at hmem
    · rw [List.mem_singleton.mp hmem]
      omega
    · rename_i hend
      obtain ⟨p, hp, hmem⟩ := List.mem_flatMap.mp hmem
      obtain ⟨-, -, hlength, -⟩ := ((mem_next_iff (not_le.mp hend)).mp hp).spec
      have hle := ih tokens hmem
      simp only at hlength
      omega

end Search

/-! ## The best segmentation -/

theorem le_decodeFreq (value : ℕ) : -2 ^ 23 ≤ decodeFreq value := by
  rw [decodeFreq]
  have hlow := Nat.mod_lt (value % 2 ^ 24) (show 0 < 2 ^ 23 by norm_num)
  split_ifs <;> omega

/-- A few tokens score more than the lowest double. -/
theorem lowest_lt_score {tokens : TokenFreqs} (hne : tokens ≠ [])
    (hlength : tokens.length ≤ maxDfsDepth + 2) :
    ∃ x, (score tokens).2 = some x ∧ lowest < x := by
  have hN : tokens.length ≠ 0 := fun h => hne (List.length_eq_zero_iff.mp h)
  have hF : -2 ^ 27 ≤ (tokens.map fun p => decodeFreq p.2).sum := by
    have hsum := List.card_nsmul_le_sum (tokens.map fun p => decodeFreq p.2) (-2 ^ 23) (by
      intro x hx
      obtain ⟨p, -, rfl⟩ := List.mem_map.mp hx
      exact le_decodeFreq p.2)
    rw [List.length_map, nsmul_eq_mul] at hsum
    have hcast : (tokens.length : ℤ) ≤ 12 := by exact_mod_cast hlength
    linarith
  refine ⟨_, if_neg hN, ?_⟩
  have hquotients : 0 ≤ Binary64.nearest (Binary64.nearest (30 / (tokens.length : ℚ)) +
      Binary64.nearest ((tokens.countP fun p => 2 ≤ p.1.length : ℕ) / (tokens.length : ℚ))) :=
    Binary64.nearest_nonneg (add_nonneg (Binary64.nearest_nonneg (by positivity))
      (Binary64.nearest_nonneg (by positivity)))
  have hround : Binary64.nearest ((-2 ^ 27 : ℤ) : ℚ) = ((-2 ^ 27 : ℤ) : ℚ) :=
    Binary64.nearest_intCast (by norm_num)
  have hfreq : ((-2 ^ 27 : ℤ) : ℚ) ≤
      Binary64.nearest (((tokens.map fun p => decodeFreq p.2).sum : ℤ) : ℚ) := by
    rw [← hround]
    exact Binary64.nearest_mono (by exact_mod_cast hF)
  have hscore := Binary64.nearest_mono (hfreq.trans (le_add_of_nonneg_left hquotients))
  rw [hround] at hscore
  refine lt_of_lt_of_le ?_ hscore
  have hsplit : (2 : ℚ) ^ 1024 = 2 ^ 971 * 2 ^ 53 := by rw [← pow_add]
  have hone : (1 : ℚ) ≤ 2 ^ 971 := one_le_pow₀ (by norm_num)
  rw [lowest, hsplit]
  generalize (2 : ℚ) ^ 971 = x at hone ⊢
  norm_num
  linarith

section Best

variable {trie : DartsTrie} {chars : Text}

theorem foldl_record_true (found : Found) (lists : List TokenFreqs) :
    (lists.foldl (Found.record true) found).tokenList = found.tokenList ++ lists := by
  induction lists generalizing found with
  | nil => exact (List.append_nil _).symm
  | cons tokens lists ih =>
    rw [List.foldl_cons, ih, Found.record, if_pos rfl, List.append_assoc]
    rfl

theorem tokenList_eq : tokenList trie chars = leaves trie chars (maxDfsDepth + 1) 0 [] := by
  rw [tokenList, (dfs_spec true (maxDfsDepth + 1) (Nat.zero_le _) [] {}).2, foldl_record_true]
  rfl

/-- Every list that is recorded with `memo_all` is a segmentation of the text. -/
theorem flatten_tokenList :
    ∀ tokens ∈ tokenList trie chars, (tokens.map Prod.fst).flatten = chars := by
  rw [tokenList_eq]
  exact flatten_leaves (Nat.zero_le _) rfl

theorem tokenList_ne_nil_iff :
    tokenList trie chars ≠ [] ↔ ∃ path, Way trie chars path ∧ path.length ≠ maxDfsDepth + 1 := by
  rw [tokenList_eq, leaves_ne_nil_iff (Nat.zero_le _), List.length_nil, Nat.zero_add]
  rfl

/-- What is recorded replaces nothing but worse segmentations of the same text. -/
theorem flatten_record {found : Found} {tokens : TokenFreqs}
    (hfound : found.bestTokens.flatten = chars) (htokens : (tokens.map Prod.fst).flatten = chars) :
    (found.record false tokens).bestTokens.flatten = chars := by
  rw [Found.record, if_neg Bool.false_ne_true]
  split
  · split
    · exact htokens
    · exact hfound
  · exact hfound

theorem flatten_bestTokens_iff (hchars : chars ≠ []) :
    (bestTokens trie chars).flatten = chars ↔ tokenList trie chars ≠ [] := by
  have hflat := @flatten_tokenList trie chars
  have hlength := @length_of_mem_leaves trie chars 0 [] (maxDfsDepth + 1)
  rw [bestTokens, (dfs_spec false (maxDfsDepth + 1) (Nat.zero_le _) [] {}).2, ← tokenList_eq]
  rw [← tokenList_eq, List.length_nil, Nat.zero_add] at hlength
  cases hlist : tokenList trie chars with
  | nil => exact iff_of_false (fun h => hchars h.symm) (not_not.mpr rfl)
  | cons first rest =>
    rw [hlist, List.forall_mem_cons] at hflat hlength
    obtain ⟨x, hscore, hlow⟩ := lowest_lt_score
      (fun hnil => hchars (by rw [← hflat.1, hnil]; rfl)) hlength.1
    have hfirst : (Found.record false {} first).bestTokens.flatten = chars := by
      rw [Found.record, if_neg Bool.false_ne_true, hscore]
      simp only
      rw [if_pos hlow]
      exact hflat.1
    refine iff_of_true ?_ (List.cons_ne_nil _ _)
    rw [List.foldl_cons]
    exact List.foldlRecOn (motive := fun found : Found => found.bestTokens.flatten = chars) rest _
      hfirst fun found hfound tokens htokens => flatten_record hfound (hflat.2 tokens htokens)

/-- Nothing is found in a text all whose ways have one number of tokens. -/
theorem bestTokens_eq_nil (h : tokenList trie chars = []) : bestTokens trie chars = [] := by
  rw [bestTokens, (dfs_spec false (maxDfsDepth + 1) (Nat.zero_le _) [] {}).2, ← tokenList_eq, h]
  rfl

end Best

end RagflowMineru.Analyzer
