import Mathlib.Data.Prod.Lex
import Mathlib.Order.WithBot
import RagflowMineru.Analyzer.Tokenizer
import RagflowMineru.Library.Binary64
import RagflowMineru.Library.Leaders
import RagflowMineru.Library.Offers

/-!
# The best tokens by dynamic programming

`GetBestTokensTopN` keeps, for every prefix of the text, the best segmentations with as many
tokens and as many long tokens, since the score follows the frequencies only among those.
From the ones that are kept for the whole text it then takes the `n` best.
-/

namespace RagflowMineru.Analyzer

open Library

/-! ## The dictionary -/

/-- `DecodeFreq`. -/
def decodeFreq (value : ℕ) : ℤ :=
  let v1 := value % 2 ^ 24
  if v1.testBit 23 then -((v1 % 2 ^ 23 : ℕ) : ℤ) else v1

/-- The keys with their values. -/
structure DartsTrie where
  entries : List (Text × ℕ)

/-- `-1` for a part of a longer key only, `-2` for no key at all. -/
def DartsTrie.traverse (trie : DartsTrie) (key : Text) : ℤ :=
  match trie.entries.lookup key with
  | some value => value
  | none => if trie.entries.any fun entry => key.isPrefixOf entry.1 then -1 else -2

theorem DartsTrie.traverse_eq_iff (trie : DartsTrie) (key : Text) :
    trie.traverse key = -2 ↔ ∀ entry ∈ trie.entries, ¬ key <+: entry.1 := by
  rw [traverse]
  cases hl : trie.entries.lookup key with
  | some value =>
    obtain ⟨l₁, l₂, hentries, -⟩ := List.lookup_eq_some_iff.mp hl
    have hmem : (key, value) ∈ trie.entries := by
      simp [hentries]
    refine ⟨fun h => absurd h (by simp only; omega), fun h => ?_⟩
    exact absurd (List.prefix_refl key) (h (key, value) hmem)
  | none => simp

/-- Behind a key that is no part of any there is nothing. -/
theorem DartsTrie.traverse_append (trie : DartsTrie) {key key' : Text}
    (h : trie.traverse key = -2) : trie.traverse (key ++ key') = -2 := by
  rw [traverse_eq_iff] at h ⊢
  exact fun entry hentry hprefix => h entry hentry ((List.prefix_append key key').trans hprefix)

/-! ## The candidates -/

structure BestTokenCandidate where
  /-- The tokens, the last one first. -/
  tl : List Text := []
  /-- The number of tokens. -/
  N : ℕ := 0
  /-- The number of tokens of two characters or more. -/
  L : ℕ := 0
  /-- The sum of the frequencies. -/
  F : ℤ := 0
deriving DecidableEq

namespace BestTokenCandidate

def k (c : BestTokenCandidate) : ℕ ×ₗ ℕ := toLex (c.N, c.L)

def v (c : BestTokenCandidate) : ℤ := c.F

/-- The score in doubles; without tokens it is infinite. -/
def score (c : BestTokenCandidate) : WithTop ℚ :=
  if c.N = 0 then ⊤
  else ((Binary64.nearest
    (Binary64.nearest c.F + Binary64.nearest ((30 + c.L) / c.N)) : ℚ) : WithTop ℚ)

def update (token : Text) (keyF : ℤ) (addL : ℕ) (c : BestTokenCandidate) :
    BestTokenCandidate :=
  ⟨token :: c.tl, c.N + 1, c.L + addL, c.F + keyF⟩

/-- `HelperFunc::GetTokens`. -/
def getTokens (c : BestTokenCandidate) : List Text := c.tl.reverse

/-- `std::min_element` by `v`. -/
def minElement (group : List BestTokenCandidate) : ℕ :=
  group.findIdx fun a => group.all fun b => decide (a.v ≤ b.v)

end BestTokenCandidate

open BestTokenCandidate

/-- A full group gives up its worst candidate for a better one. -/
def addBestTokenCandidateTopN (topN : ℕ) (candidates : List BestTokenCandidate)
    (c : BestTokenCandidate) : List BestTokenCandidate :=
  let ranges := equalRange k c.k candidates
  let group := ranges.2.1
  if topN ≤ group.length then
    if (group[minElement group]?).any fun worst => decide (c.v ≤ worst.v) then candidates
    else ranges.1 ++ (group.set (minElement group) c ++ ranges.2.2)
  else ranges.1 ++ c :: (group ++ ranges.2.2)

/-! ## The table -/

/-- `dp_vec`. -/
abbrev Table := ℕ → List BestTokenCandidate

/-- `dp_f`: the candidates for `i` characters go on with the token. -/
def dpF (n i : ℕ) (token : Text) (keyF : ℤ) (addL : ℕ) (dpVec : Table) : Table :=
  Function.update dpVec (i + token.length)
    (((dpVec i).map (update token keyF addL)).foldl (addBestTokenCandidateTopN n)
      (dpVec (i + token.length)))

/-- The loop over `j`: `growing` are the characters from `i` on that are looked up, `rest` those
behind them. -/
def lookups (trie : DartsTrie) (n i : ℕ) : Text → Text → Table → Table
  | _, [], dpVec => dpVec
  | growing, ch :: rest, dpVec =>
    let token := growing ++ [ch]
    let traverseResult := trie.traverse (token.map Char.toLower)
    if 0 ≤ traverseResult then
      let addL := if 2 ≤ token.length then 1 else 0
      lookups trie n i token rest (dpF n i token (decodeFreq traverseResult.toNat) addL dpVec)
    else
      let dpVec := if token.length = 1 then dpF n i token (-12) 0 dpVec else dpVec
      if traverseResult = -2 then dpVec else lookups trie n i token rest dpVec

/-- The loop over `i`. -/
def positions (trie : DartsTrie) (n : ℕ) : ℕ → Text → Table → Table
  | _, [], dpVec => dpVec
  | i, ch :: rest, dpVec =>
    positions trie n (i + 1) rest (lookups trie n i [] (ch :: rest) dpVec)

/-- `dp_vec.back().candidates`. -/
def candidates (trie : DartsTrie) (chars : Text) (n : ℕ) : List BestTokenCandidate :=
  positions trie n 0 chars (Function.update (fun _ => []) 0 [{}]) chars.length

/-- `GetBestTokensTopN`.  There is no result for an `n` from `2 ^ 31` on, whose `top_n` is
negative: a candidate would be compared with the end of a range that has no other. -/
def getBestTokensTopN (trie : DartsTrie) (chars : Text) (n : ℕ) :
    Option (List (List Text × WithTop ℚ)) :=
  if n < 2 ^ 31 then
    let midResult := (candidates trie chars n).foldl (offer score n) []
    some (midResult.map fun c => (c.getTokens, c.score))
  else none

/-! ## Segmentations -/

section Segmentations

variable (trie : DartsTrie)

/-- A single character or a word of the dictionary. -/
def IsToken (token : Text) : Prop :=
  token.length = 1 ∨ token ≠ [] ∧ 0 ≤ trie.traverse (token.map Char.toLower)

def tokenFreq (token : Text) : ℤ :=
  if 0 ≤ trie.traverse (token.map Char.toLower) then
    decodeFreq (trie.traverse (token.map Char.toLower)).toNat
  else -12

structure IsSegmentation (chars : Text) (tokens : List Text) : Prop where
  flatten : tokens.flatten = chars
  isToken : ∀ token ∈ tokens, IsToken trie token

/-- What the segmentation is as a candidate. -/
def candidateOf (tokens : List Text) : BestTokenCandidate where
  tl := tokens.reverse
  N := tokens.length
  L := tokens.countP (2 ≤ ·.length)
  F := (tokens.map (tokenFreq trie)).sum

/-- The result holds the `n` best segmentations with their scores, the best first. -/
def BestSegmentations (chars : Text) (n : ℕ) (result : List (List Text × WithTop ℚ)) : Prop :=
  Best n (fun tokens => (candidateOf trie tokens).score)
      {tokens | IsSegmentation trie chars tokens} (result.map Prod.fst) ∧
    ∀ p ∈ result, p.2 = (candidateOf trie p.1).score

end Segmentations

/-! ## Adding a candidate -/

section Adding

variable {n : ℕ} {group cs : List BestTokenCandidate} {c : BestTokenCandidate}
  {A : Set BestTokenCandidate}

/-- The candidates stand in the order of their keys, where `std::equal_range` finds them. -/
def SortedByKey (cs : List BestTokenCandidate) : Prop := cs.Pairwise fun x y => x.k ≤ y.k

theorem minElement_spec (hne : group ≠ []) :
    ∃ g₁ worst g₂, group = g₁ ++ worst :: g₂ ∧ minElement group = g₁.length ∧
      ∀ b ∈ group, worst.v ≤ b.v := by
  obtain ⟨least, hleast⟩ :=
    Option.ne_none_iff_exists'.mp (mt List.argmin_eq_none.mp hne : group.argmin v ≠ none)
  have hlt : minElement group < group.length := by
    apply List.findIdx_lt_length_of_exists
    refine ⟨least, List.argmin_mem hleast, List.all_eq_true.mpr fun b hb => ?_⟩
    exact decide_eq_true (List.le_of_mem_argmin hb hleast)
  refine ⟨group.take (minElement group), group[minElement group],
    group.drop (minElement group + 1), ?_, ?_, fun b hb => ?_⟩
  · rw [List.cons_getElem_drop_succ, List.take_append_drop]
  · rw [List.length_take_of_le hlt.le]
  · have hall := @List.findIdx_getElem _ _ group hlt
    exact of_decide_eq_true (List.all_eq_true.mp hall b hb)

/-- All that adding a candidate can do: it takes a free place in its group, or is outdone by a full
one, or takes the place of the worst there. -/
theorem add_cases (hn : 0 < n) (hs : SortedByKey cs) (c : BestTokenCandidate) :
    (∃ l₁ l₂, cs = l₁ ++ l₂ ∧ addBestTokenCandidateTopN n cs c = l₁ ++ c :: l₂ ∧
        cs.countP (k · = c.k) < n ∧ (∀ x ∈ l₁, x.k ≤ c.k) ∧ ∀ x ∈ l₂, c.k ≤ x.k) ∨
      (addBestTokenCandidateTopN n cs c = cs ∧ n ≤ cs.countP (Outdoes k v · c)) ∨
      ∃ l₁ worst l₂, cs = l₁ ++ worst :: l₂ ∧
        addBestTokenCandidateTopN n cs c = l₁ ++ c :: l₂ ∧ Outdoes k v c worst ∧
        (∀ x ∈ cs, x.k = worst.k → worst.v ≤ x.v) ∧ n ≤ cs.countP (k · = worst.k) := by
  obtain ⟨hcs, hbelow, hgroup, habove⟩ := @equalRange_spec _ _ _ k c.k cs hs
  have hmem : ∀ x ∈ cs, x.k = c.k → x ∈ (equalRange k c.k cs).2.1 := fun x hx =>
    mem_equalRange hs hx
  have hcount := @countP_eq_length_equalRange _ _ _ k c.k cs hs
  rw [addBestTokenCandidateTopN]
  generalize equalRange k c.k cs = ranges at *
  obtain ⟨before, group, after⟩ := ranges
  simp only at hcs hbelow hgroup habove hmem hcount ⊢
  by_cases hfull : n ≤ group.length
  · rw [if_pos hfull]
    obtain ⟨g₁, worst, g₂, rfl, hplace, hworst⟩ :=
      minElement_spec (List.ne_nil_of_length_pos (hn.trans_le hfull))
    have hget : (g₁ ++ worst :: g₂)[g₁.length]? = some worst := by
      simp
    rw [hplace, hget, Option.any_some]
    rw [← hcount] at hfull
    by_cases hcv : c.v ≤ worst.v
    · rw [if_pos (decide_eq_true hcv)]
      refine Or.inr (Or.inl ⟨rfl, hfull.trans (List.countP_mono_left fun x hx hkx => ?_)⟩)
      have hkx := of_decide_eq_true hkx
      exact decide_eq_true ⟨hkx, hcv.trans (hworst x (hmem x hx hkx))⟩
    · -- The worst one of the group is replaced where it stands.
      have hkworst : worst.k = c.k := hgroup worst (by simp)
      rw [if_neg (by simpa using hcv)]
      refine Or.inr (Or.inr ⟨before ++ g₁, worst, g₂ ++ after, by simp [hcs], by simp,
        ⟨hkworst.symm, (not_le.mp hcv).le⟩, fun x hx hkx => ?_, by rwa [hkworst]⟩)
      exact hworst x (hmem x hx (hkx.trans hkworst))
  · rw [if_neg hfull]
    refine Or.inl ⟨before, group ++ after, hcs, rfl, by omega, fun x hx => (hbelow x hx).le,
      fun x hx => ?_⟩
    rcases List.mem_append.mp hx with hx | hx
    · exact (hgroup x hx).ge
    · exact (habove x hx).le

/-- A new candidate joins the leaders of its group, or is outdone by them. -/
theorem leaders_add (hn : 0 < n) (h : Leaders k v n cs A) (hs : SortedByKey cs) (hc : c ∉ A) :
    Leaders k v n (addBestTokenCandidateTopN n cs c) (insert c A) ∧
      SortedByKey (addBestTokenCandidateTopN n cs c) := by
  rcases add_cases hn hs c with ⟨l₁, l₂, rfl, heq, hplace, hbefore, hafter⟩ | ⟨heq, hout⟩ |
    ⟨l₁, worst, l₂, rfl, heq, hout, hworst, hfull⟩
  · rw [heq]
    exact ⟨h.insert hc hplace, pairwise_insert hs hbefore hafter⟩
  · rw [heq]
    exact ⟨h.drop hout, hs⟩
  · rw [heq]
    obtain ⟨-, hright, hcross⟩ := List.pairwise_append.mp hs
    refine ⟨h.replace hc hout hworst hfull, pairwise_insert (hs.sublist ?_) (fun x hx => ?_)
      fun x hx => ?_⟩
    · exact List.Sublist.append_left (List.sublist_cons_self _ _) _
    · rw [hout.1]
      exact hcross x hx worst List.mem_cons_self
    · rw [hout.1]
      exact (List.pairwise_cons.mp hright).1 x hx

theorem leaders_foldl_add (hn : 0 < n) (new : List BestTokenCandidate)
    (h : Leaders k v n cs A) (hs : SortedByKey cs) (hnodup : new.Nodup)
    (hnew : ∀ c ∈ new, c ∉ A) :
    Leaders k v n (new.foldl (addBestTokenCandidateTopN n) cs) (A ∪ {c | c ∈ new}) ∧
      SortedByKey (new.foldl (addBestTokenCandidateTopN n) cs) := by
  induction new generalizing cs A with
  | nil => exact ⟨by simpa using h, hs⟩
  | cons c new ih =>
    obtain ⟨hc, hrest⟩ := List.forall_mem_cons.mp hnew
    obtain ⟨hcnew, hnodup⟩ := List.nodup_cons.mp hnodup
    obtain ⟨hadd, hsadd⟩ := leaders_add hn h hs hc
    have hout : ∀ c' ∈ new, c' ∉ insert c A := by
      intro c' hc' hmem
      rcases Set.mem_insert_iff.mp hmem with rfl | hmem
      · exact hcnew hc'
      · exact hrest c' hc' hmem
    have hset : insert c A ∪ {c' | c' ∈ new} = A ∪ {c' | c' ∈ c :: new} := by
      ext c'
      simp only [Set.mem_union, Set.mem_insert_iff, Set.mem_ofPred_eq, List.mem_cons]
      tauto
    rw [List.foldl_cons, ← hset]
    exact ih hadd hsadd hnodup hout

end Adding

/-! ## Going on with a token -/

section Update

variable {trie : DartsTrie} {token : Text} {keyF : ℤ} {addL n : ℕ}

theorem update_injective : Function.Injective (update token keyF addL) := by
  rintro ⟨tl, N, L, F⟩ ⟨tl', N', L', F'⟩ h
  simpa [update] using h

theorem update_outdoes {c c' : BestTokenCandidate} (h : Outdoes k v c c') :
    Outdoes k v (update token keyF addL c) (update token keyF addL c') := by
  obtain ⟨hk, hv⟩ := h
  have hpair : (c.N, c.L) = (c'.N, c'.L) := toLex.injective hk
  obtain ⟨hN, hL⟩ := Prod.mk.inj hpair
  refine ⟨?_, add_le_add_left hv keyF⟩
  simp only [k, update, hN, hL]

theorem candidateOf_injective : Function.Injective (candidateOf trie) := fun _ _ h =>
  List.reverse_injective (congrArg BestTokenCandidate.tl h)

theorem candidateOf_concat (front : List Text) :
    candidateOf trie (front ++ [token])
      = update token (tokenFreq trie token) (if 2 ≤ token.length then 1 else 0)
          (candidateOf trie front) := by
  simp [candidateOf, update, List.countP_append, List.countP_singleton]

/-- The score follows the frequencies among as many tokens and long tokens. -/
theorem score_mono {c c' : BestTokenCandidate} (h : Outdoes k v c c') : c'.score ≤ c.score := by
  obtain ⟨hk, hv⟩ := h
  obtain ⟨hN, hL⟩ := Prod.mk.inj (toLex.injective hk)
  unfold score
  rw [hN, hL]
  split_ifs
  · exact le_rfl
  · refine WithTop.coe_le_coe.mpr (Binary64.nearest_mono (add_le_add_left ?_ _))
    exact Binary64.nearest_mono (by exact_mod_cast hv)

/-- Small whole numbers are added and divided exactly. -/
theorem score_of_dvd {c : BestTokenCandidate} {q : ℤ} (hN : c.N ≠ 0)
    (hq : 30 + (c.L : ℤ) = q * c.N) (hF : |c.F| < 2 ^ 53) (hq' : |q| < 2 ^ 53)
    (hsum : |c.F + q| < 2 ^ 53) : c.score = (((c.F + q : ℤ) : ℚ) : WithTop ℚ) := by
  have hquotient : ((30 + c.L : ℚ) / c.N) = q := by
    rw [div_eq_iff (by exact_mod_cast hN)]
    exact_mod_cast hq
  rw [score, if_neg hN, hquotient, Binary64.nearest_intCast hF, Binary64.nearest_intCast hq',
    ← Int.cast_add, Binary64.nearest_intCast hsum]

end Update

/-! ## What the table holds -/

section Filling

variable (trie : DartsTrie) (chars : Text)

/-- The segmentations of the first `p` characters whose last token begins before `i`, or at `i`
with at most `j` characters. -/
def Opened (i j p : ℕ) : Set (List Text) :=
  {tokens | IsSegmentation trie (chars.take p) tokens ∧
    ∀ front last, tokens = front ++ [last] →
      front.flatten.length < i ∨ front.flatten.length = i ∧ last.length ≤ j}

/-- The table keeps the best of them. -/
def Filled (n i j : ℕ) (dpVec : Table) : Prop :=
  ∀ p ≤ chars.length,
    Leaders k v n (dpVec p) (Set.image (candidateOf trie) (Opened trie chars i j p)) ∧
      SortedByKey (dpVec p)

variable {trie chars} {front : List Text} {last token done rest : Text} {n i j p : ℕ}
  {dpVec : Table}

theorem IsToken.ne_nil (h : IsToken trie token) : token ≠ [] := by
  rcases h with h | h
  · exact List.ne_nil_of_length_pos (by omega)
  · exact h.1

theorem isSegmentation_concat {text : Text} :
    IsSegmentation trie text (front ++ [last]) ↔
      text = front.flatten ++ last ∧ (∀ token ∈ front, IsToken trie token) ∧
        IsToken trie last := by
  constructor
  · rintro ⟨hflatten, htokens⟩
    simp only [List.forall_mem_append, List.forall_mem_singleton] at htokens
    exact ⟨by simpa using hflatten.symm, htokens⟩
  · rintro ⟨rfl, hfront, hlast⟩
    refine ⟨by simp, ?_⟩
    simp only [List.forall_mem_append, List.forall_mem_singleton]
    exact ⟨hfront, hlast⟩

/-- Where the last token of a segmentation begins, and where it ends. -/
theorem length_last (h : IsSegmentation trie (chars.take p) (front ++ [last]))
    (hp : p ≤ chars.length) : front.flatten.length + last.length = p ∧ 0 < last.length := by
  obtain ⟨htake, -, hlast⟩ := isSegmentation_concat.mp h
  have hlength := congrArg List.length htake
  rw [List.length_take_of_le hp, List.length_append] at hlength
  exact ⟨hlength.symm, List.length_pos_of_ne_nil hlast.ne_nil⟩

/-- The last token is read off the text. -/
theorem eq_of_begins (h : IsSegmentation trie (chars.take p) (front ++ [last]))
    (hchars : chars = done ++ rest) (hdone : front.flatten.length = done.length) :
    front.flatten = done ∧ last <+: rest := by
  obtain ⟨htake, -, -⟩ := isSegmentation_concat.mp h
  have happ : front.flatten ++ (last ++ chars.drop p) = done ++ rest := by
    rw [← List.append_assoc, ← htake, List.take_append_drop, hchars]
  obtain ⟨hfront, hlast⟩ := List.append_inj happ hdone
  exact ⟨hfront, hlast ▸ List.prefix_append last _⟩

theorem last_eq (h : IsSegmentation trie (chars.take p) (front ++ [last]))
    (hchars : chars = done ++ (token ++ rest)) (hdone : front.flatten.length = done.length)
    (hlength : last.length = token.length) : last = token := by
  have hprefix := (eq_of_begins h hchars hdone).2
  refine List.IsPrefix.eq_of_length ?_ hlength
  exact List.prefix_of_prefix_length_le hprefix (List.prefix_append _ _) hlength.le

/-- For the characters before `i` nothing is open. -/
theorem mem_opened_iff_of_le (hp : p ≤ chars.length) (hpi : p ≤ i) {tokens : List Text} :
    tokens ∈ Opened trie chars i j p ↔ IsSegmentation trie (chars.take p) tokens := by
  refine ⟨And.left, fun h => ⟨h, ?_⟩⟩
  rintro front last rfl
  obtain ⟨hlength, hpos⟩ := length_last h hp
  exact Or.inl (by omega)

/-- One more character opens only segmentations of one prefix, by one token. -/
theorem opened_succ_of_forall
    (hnone : ∀ front last, IsSegmentation trie (chars.take p) (front ++ [last]) →
      front.flatten.length = i → last.length ≠ j + 1) :
    Opened trie chars i (j + 1) p = Opened trie chars i j p := by
  ext tokens
  refine ⟨fun ⟨h, hopen⟩ => ⟨h, ?_⟩, fun ⟨h, hopen⟩ => ⟨h, ?_⟩⟩
  · rintro front last rfl
    rcases hopen front last rfl with hlt | ⟨heq, hle⟩
    · exact Or.inl hlt
    · have hne := hnone front last h heq
      exact Or.inr ⟨heq, by omega⟩
  · rintro front last rfl
    rcases hopen front last rfl with hlt | ⟨heq, hle⟩
    · exact Or.inl hlt
    · exact Or.inr ⟨heq, by omega⟩

/-- The segmentations that a token opens. -/
theorem opened_succ (hchars : chars = done ++ (token ++ rest)) (htoken : IsToken trie token)
    (hj : token.length = j + 1) :
    Opened trie chars done.length (j + 1) (done.length + token.length)
      = Opened trie chars done.length j (done.length + token.length) ∪
        Set.image (· ++ [token]) (Opened trie chars done.length j done.length) := by
  have htake : chars.take (done.length + token.length) = done ++ token := by
    rw [hchars, ← List.append_assoc, ← List.length_append, List.take_left]
  have hdone : chars.take done.length = done := by
    rw [hchars, List.take_left]
  have hle : done.length ≤ chars.length := by
    rw [hchars, List.length_append]
    omega
  ext tokens
  constructor
  · rintro ⟨h, hopen⟩
    by_cases hnew : ∃ front, tokens = front ++ [token] ∧ front.flatten.length = done.length
    · obtain ⟨front, rfl, hlength⟩ := hnew
      refine Or.inr ⟨front, (mem_opened_iff_of_le hle le_rfl).mpr ?_, rfl⟩
      obtain ⟨-, hfront, -⟩ := isSegmentation_concat.mp h
      exact ⟨hdone.symm ▸ (eq_of_begins h hchars hlength).1, hfront⟩
    · refine Or.inl ⟨h, ?_⟩
      rintro front last rfl
      rcases hopen front last rfl with hlt | ⟨heq, hlast⟩
      · exact Or.inl hlt
      · refine Or.inr ⟨heq, ?_⟩
        by_contra hgt
        have hlast' : last = token := last_eq h hchars heq (by omega)
        exact hnew ⟨front, by rw [hlast'], heq⟩
  · rintro (⟨h, hopen⟩ | ⟨front, hfront, rfl⟩)
    · refine ⟨h, fun front last heq => ?_⟩
      rcases hopen front last heq with hlt | ⟨hlength, hlast⟩
      · exact Or.inl hlt
      · exact Or.inr ⟨hlength, by omega⟩
    · have hseg := (mem_opened_iff_of_le hle le_rfl).mp hfront
      rw [hdone] at hseg
      refine ⟨isSegmentation_concat.mpr ⟨by rw [htake, hseg.flatten], hseg.isToken, htoken⟩, ?_⟩
      intro front' last heq
      obtain ⟨rfl, hlast⟩ := List.append_inj' heq rfl
      obtain rfl : token = last := by simpa using hlast
      exact Or.inr ⟨by rw [hseg.flatten], hj.le⟩

/-- Characters that are no token open nothing. -/
theorem filled_succ_of_not (h : Filled trie chars n done.length j dpVec)
    (hchars : chars = done ++ (token ++ rest)) (hj : token.length = j + 1)
    (htoken : ¬ IsToken trie token) : Filled trie chars n done.length (j + 1) dpVec := by
  intro p hp
  rw [opened_succ_of_forall]
  · exact h p hp
  · intro front last hseg hlength hlast
    have heq : last = token := last_eq hseg hchars hlength (hlast.trans hj.symm)
    exact htoken (heq ▸ (isSegmentation_concat.mp hseg).2.2)

/-- With a token the candidates for the characters before it go on. -/
theorem filled_dpF (hn : 0 < n) (h : Filled trie chars n done.length j dpVec)
    (hchars : chars = done ++ (token ++ rest)) (hj : token.length = j + 1)
    (htoken : IsToken trie token) :
    Filled trie chars n done.length (j + 1)
      (dpF n done.length token (tokenFreq trie token) (if 2 ≤ token.length then 1 else 0)
        dpVec) := by
  intro p hp
  by_cases hpt : p = done.length + token.length
  · subst hpt
    rw [dpF, Function.update_self, opened_succ hchars htoken hj, Set.image_union]
    obtain ⟨hold, hsold⟩ := h _ hp
    obtain ⟨hsource, -⟩ := h done.length (by omega)
    set goOn := update token (tokenFreq trie token) (if 2 ≤ token.length then 1 else 0)
    have himage : Set.image (candidateOf trie)
        (Set.image (· ++ [token]) (Opened trie chars done.length j done.length))
        = Set.image goOn
          (Set.image (candidateOf trie) (Opened trie chars done.length j done.length)) := by
      rw [Set.image_image, Set.image_image]
      exact Set.image_congr fun front _ => candidateOf_concat front
    -- What goes on is new: its last token begins here and is longer than those before.
    have hnew : ∀ c ∈ (dpVec done.length).map goOn, c ∉ Set.image (candidateOf trie)
        (Opened trie chars done.length j (done.length + token.length)) := by
      rintro c hc ⟨tokens, ⟨hseg, hopen⟩, rfl⟩
      obtain ⟨c, hc, hcc⟩ := List.mem_map.mp hc
      obtain ⟨front, hfront, rfl⟩ := hsource.mem c hc
      obtain rfl := candidateOf_injective ((candidateOf_concat front).trans hcc)
      obtain ⟨hlength, -⟩ := length_last hseg hp
      rcases hopen front token rfl with hlt | ⟨-, hle⟩
      · omega
      · omega
    obtain ⟨hadd, hsadd⟩ := leaders_foldl_add hn _ hold hsold
      (hsource.nodup.map update_injective) hnew
    refine ⟨?_, hsadd⟩
    rw [himage]
    refine hsource.build update_injective (fun _ _ => update_outdoes) ?_
    have hset : {c | c ∈ (dpVec done.length).map goOn}
        = Set.image goOn {c | c ∈ dpVec done.length} := by
      ext c
      simp
    rw [← hset]
    exact hadd
  · rw [dpF, Function.update_of_ne hpt, opened_succ_of_forall]
    · exact h p hp
    · intro front last hseg hlength hlast
      obtain ⟨hend, -⟩ := length_last hseg hp
      omega

/-- Where no longer token begins, all is open that begins there. -/
theorem filled_close {growing : Text} (h : Filled trie chars n done.length growing.length dpVec)
    (hchars : chars = done ++ (growing ++ rest))
    (hnone : ∀ s, s ≠ [] → s <+: rest → ¬ IsToken trie (growing ++ s)) :
    Filled trie chars n (done.length + 1) 0 dpVec := by
  intro p hp
  have heq : Opened trie chars (done.length + 1) 0 p
      = Opened trie chars done.length growing.length p := by
    ext tokens
    refine ⟨fun ⟨hseg, hopen⟩ => ⟨hseg, ?_⟩, fun ⟨hseg, hopen⟩ => ⟨hseg, ?_⟩⟩
    · rintro front last rfl
      obtain ⟨-, hpos⟩ := length_last hseg hp
      have hlt : front.flatten.length < done.length + 1 := by
        rcases hopen front last rfl with hlt | ⟨-, hle⟩
        · exact hlt
        · omega
      rcases Nat.lt_succ_iff_lt_or_eq.mp hlt with hlt | hbegin
      · exact Or.inl hlt
      · refine Or.inr ⟨hbegin, ?_⟩
        by_contra hgt
        have hprefix := (eq_of_begins hseg hchars hbegin).2
        obtain ⟨s, rfl⟩ : growing <+: last :=
          List.prefix_of_prefix_length_le (List.prefix_append _ _) hprefix (by omega)
        refine hnone s ?_ ((List.prefix_append_right_inj growing).mp hprefix)
          (isSegmentation_concat.mp hseg).2.2
        rintro rfl
        simp at hgt
    · rintro front last rfl
      refine Or.inl ?_
      rcases hopen front last rfl with hlt | ⟨hbegin, -⟩
      · omega
      · omega
  rw [heq]
  exact h p hp

/-- A key that is no part of any key is no part of a word. -/
theorem not_isToken_append {growing s : Text} (hs : s ≠ []) (hgrowing : growing ≠ [])
    (h : trie.traverse (growing.map Char.toLower) = -2) : ¬ IsToken trie (growing ++ s) := by
  rintro (hone | ⟨-, hword⟩)
  · have hlength := List.length_pos_of_ne_nil hs
    have hlength' := List.length_pos_of_ne_nil hgrowing
    rw [List.length_append] at hone
    omega
  · rw [List.map_append, trie.traverse_append h] at hword
    exact absurd hword (by norm_num)

theorem filled_lookups (hn : 0 < n) {growing : Text}
    (h : Filled trie chars n done.length growing.length dpVec)
    (hchars : chars = done ++ (growing ++ rest)) :
    Filled trie chars n (done.length + 1) 0
      (lookups trie n done.length growing rest dpVec) := by
  induction rest generalizing growing dpVec with
  | nil =>
    rw [lookups]
    refine filled_close h hchars fun s hs hprefix => ?_
    exact absurd (List.prefix_nil.mp hprefix) hs
  | cons ch rest ih =>
    have hchars' : chars = done ++ (growing ++ [ch] ++ rest) := by
      rw [hchars]
      simp
    have hj : (growing ++ [ch]).length = growing.length + 1 := by
      simp
    have hne : growing ++ [ch] ≠ [] := by
      simp
    rw [lookups]
    generalize growing ++ [ch] = token at *
    by_cases hword : 0 ≤ trie.traverse (token.map Char.toLower)
    · have htoken : IsToken trie token := Or.inr ⟨hne, hword⟩
      have hfilled := filled_dpF hn h hchars' hj htoken
      rw [tokenFreq, if_pos hword, ← hj] at hfilled
      rw [if_pos hword]
      exact ih hfilled hchars'
    · rw [if_neg hword]
      -- A single character goes on even so.
      have hfilled : Filled trie chars n done.length token.length
          (if token.length = 1 then dpF n done.length token (-12) 0 dpVec else dpVec) := by
        rw [hj]
        by_cases hone : growing.length + 1 = 1
        · have hfilled := filled_dpF hn h hchars' hj (Or.inl (hj.trans hone))
          rw [tokenFreq, if_neg hword, if_neg (by omega)] at hfilled
          rwa [if_pos hone]
        · rw [if_neg hone]
          refine filled_succ_of_not h hchars' hj ?_
          rintro (hlength | ⟨-, hin⟩)
          · exact hone (hj.symm.trans hlength)
          · exact hword hin
      by_cases hend : trie.traverse (token.map Char.toLower) = -2
      · rw [if_pos hend]
        exact filled_close hfilled hchars' fun s hs _ => not_isToken_append hs hne hend
      · rw [if_neg hend]
        exact ih hfilled hchars'

theorem filled_positions (hn : 0 < n) (h : Filled trie chars n done.length 0 dpVec)
    (hchars : chars = done ++ rest) :
    Filled trie chars n chars.length 0 (positions trie n done.length rest dpVec) := by
  induction rest generalizing done dpVec with
  | nil =>
    obtain rfl : chars = done := hchars.trans (List.append_nil done)
    exact h
  | cons ch rest ih =>
    have hfilled : Filled trie chars n (done.length + 1) 0
        (lookups trie n done.length [] (ch :: rest) dpVec) := filled_lookups hn h hchars
    have hlength : (done ++ [ch]).length = done.length + 1 := by
      simp
    rw [positions, ← hlength]
    rw [← hlength] at hfilled
    exact ih hfilled (by simp [hchars])

/-- Before the first character there is the segmentation without tokens. -/
theorem filled_start (hn : 0 < n) :
    Filled trie chars n 0 0 (Function.update (fun _ => []) 0 [{}]) := by
  intro p hp
  have hnil : ∀ tokens ∈ Opened trie chars 0 0 p, tokens = [] := by
    rintro tokens ⟨hseg, hopen⟩
    rcases List.eq_nil_or_concat' tokens with rfl | ⟨front, last, rfl⟩
    · rfl
    · obtain ⟨-, hpos⟩ := length_last hseg hp
      rcases hopen front last rfl with hlt | ⟨-, hle⟩
      · exact absurd hlt (Nat.not_lt_zero _)
      · exact absurd hle (not_le.mpr hpos)
  rcases Nat.eq_zero_or_pos p with rfl | hpos
  · have hopened : [] ∈ Opened trie chars 0 0 0 :=
      (mem_opened_iff_of_le hp le_rfl).mpr ⟨by simp, by simp⟩
    have hdefault : Set.image (candidateOf trie) (Opened trie chars 0 0 0) = {{}} := by
      rw [Set.eq_singleton_iff_unique_mem.mpr ⟨hopened, hnil⟩, Set.image_singleton]
      rfl
    rw [Function.update_self, hdefault]
    refine ⟨⟨List.nodup_singleton _, by simp, fun key => ?_, ?_⟩, List.pairwise_singleton _ _⟩
    · exact List.countP_le_length.trans hn
    · rintro a rfl hnot
      exact absurd (List.mem_singleton_self _) hnot
  · have hempty : Opened trie chars 0 0 p = ∅ := by
      refine Set.eq_empty_iff_forall_notMem.mpr fun tokens htokens => ?_
      have hlength := congrArg List.length htokens.1.flatten
      rw [hnil tokens htokens, List.length_take_of_le hp] at hlength
      exact absurd hlength hpos.ne
    rw [Function.update_of_ne hpos.ne', hempty, Set.image_empty]
    exact ⟨⟨List.nodup_nil, by simp, by simp, by simp⟩, List.Pairwise.nil⟩

/-- The candidates for the whole text are the leaders of all its segmentations, in the order of
their keys. -/
theorem leaders_candidates (hn : 0 < n) :
    Leaders k v n (candidates trie chars n)
        (Set.image (candidateOf trie) {tokens | IsSegmentation trie chars tokens}) ∧
      SortedByKey (candidates trie chars n) := by
  have hstart : Filled trie chars n ([] : Text).length 0 _ := filled_start hn
  have hfilled := filled_positions hn hstart (List.nil_append chars).symm
  obtain ⟨hleaders, hsorted⟩ := hfilled chars.length le_rfl
  have hall : Opened trie chars chars.length 0 chars.length
      = {tokens | IsSegmentation trie chars tokens} := by
    ext tokens
    rw [mem_opened_iff_of_le le_rfl le_rfl, List.take_length]
    rfl
  rw [hall] at hleaders
  exact ⟨hleaders, hsorted⟩

end Filling

/-! ## What is returned -/

/-- The function returns the `n` best segmentations, the best first. -/
def ReturnsBest (trie : DartsTrie) (chars : Text) (n : ℕ) : Prop :=
  ∃ result, getBestTokensTopN trie chars n = some result ∧
    BestSegmentations trie chars n result

section Returned

variable {trie : DartsTrie} {chars : Text} {n : ℕ}

theorem candidateOf_getTokens (hn : 0 < n) {c : BestTokenCandidate}
    (hc : c ∈ candidates trie chars n) : candidateOf trie c.getTokens = c := by
  obtain ⟨tokens, -, rfl⟩ := (leaders_candidates hn).1.mem c hc
  simp [candidateOf, getTokens]

/-- The segmentations that are returned are the best when they are the best of those that the
table has kept. -/
theorem returnsBest_iff (hn : 0 < n) :
    ReturnsBest trie chars n ↔ n < 2 ^ 31 ∧
      Best n score {c | c ∈ candidates trie chars n}
        ((candidates trie chars n).foldl (offer score n) []) := by
  have hleaders : Leaders k v n (candidates trie chars n) _ := (leaders_candidates hn).1
  set mid := (candidates trie chars n).foldl (offer score n) [] with hmid
  have hmem : ∀ c ∈ mid, c ∈ candidates trie chars n := fun c hc =>
    (mem_foldl_offer hc).resolve_left List.not_mem_nil
  have htokens : (mid.map getTokens).map (candidateOf trie) = mid := by
    rw [List.map_map]
    refine (List.map_congr_left fun c hc => ?_).trans (List.map_id mid)
    exact candidateOf_getTokens hn (hmem c hc)
  have hbest : Best n (fun tokens => (candidateOf trie tokens).score)
      {tokens | IsSegmentation trie chars tokens} (mid.map getTokens) ↔
        Best n score {c | c ∈ candidates trie chars n} mid := by
    rw [← best_map_iff candidateOf_injective, htokens]
    exact ⟨fun h => h.of_subset hmem hleaders.mem, hleaders.best fun _ _ => score_mono⟩
  have hscores : ∀ p ∈ mid.map fun c => (c.getTokens, c.score),
      p.2 = (candidateOf trie p.1).score := by
    intro p hp
    obtain ⟨c, hc, rfl⟩ := List.mem_map.mp hp
    rw [candidateOf_getTokens hn (hmem c hc)]
  rw [ReturnsBest, getBestTokensTopN]
  by_cases hsmall : n < 2 ^ 31
  · simp only [if_pos hsmall, ← hmid, Option.some_inj, exists_eq_left', BestSegmentations,
      List.map_map]
    rw [← hbest]
    exact ⟨fun h => ⟨hsmall, h.1⟩, fun h => ⟨h.2, hscores⟩⟩
  · refine iff_of_false ?_ fun h => hsmall h.1
    rintro ⟨result, heq, -⟩
    rw [if_neg hsmall] at heq
    exact absurd heq (Option.some_ne_none result).symm

/-- The table hands out the leaders of all segmentations, fewer tokens first.  One best
segmentation is always found.  More are returned in order whenever the first `n` candidates are
in order, or enough better ones stand behind those that are not; and only then, up to candidates
that score the same. -/
theorem getBestTokensTopN_best (trie : DartsTrie) (chars : Text) (n : ℕ) (hn : 1 ≤ n) :
    (Leaders k v n (candidates trie chars n)
        (Set.image (candidateOf trie) {tokens | IsSegmentation trie chars tokens}) ∧
      SortedByKey (candidates trie chars n)) ∧
    (n = 1 → ReturnsBest trie chars n) ∧
    (n < 2 ^ 31 ∧ Settled (· < ·) score n (candidates trie chars n) →
      ReturnsBest trie chars n) ∧
    (ReturnsBest trie chars n →
      n < 2 ^ 31 ∧ Settled (· ≤ ·) score n (candidates trie chars n)) := by
  have hleaders := @leaders_candidates trie chars n hn
  have hbest := @returnsBest_iff trie chars n hn
  refine ⟨hleaders, ?_, fun h => ?_, fun h => ?_⟩
  · rintro rfl
    exact hbest.mpr ⟨by norm_num, best_foldl_offer hn hleaders.1.nodup (settled_one _ _ _)⟩
  · exact hbest.mpr ⟨h.1, best_foldl_offer hn hleaders.1.nodup h.2⟩
  · obtain ⟨hsmall, hbest⟩ := hbest.mp h
    exact ⟨hsmall, settled_of_best hn hleaders.1.nodup hbest⟩

/-- The whole text as one word scores more than its characters, and comes first. -/
theorem getBestTokensTopN_best_ab :
    ReturnsBest ⟨[("ab".toList, 5), ("a".toList, 1)]⟩ "ab".toList 2 := by
  refine (getBestTokensTopN_best _ _ 2 (by norm_num)).2.2.1 ⟨by norm_num, ?_⟩
  have hcandidates : candidates ⟨[("ab".toList, 5), ("a".toList, 1)]⟩ "ab".toList 2
      = [⟨["ab".toList], 1, 1, 5⟩, ⟨["b".toList, "a".toList], 2, 0, -11⟩] := by
    decide
  have hword : score ⟨["ab".toList], 1, 1, 5⟩ = ((36 : ℤ) : ℚ) :=
    @score_of_dvd _ 31 (by norm_num) (by norm_num) (by norm_num) (by norm_num) (by norm_num)
  have hcharacters : score ⟨["b".toList, "a".toList], 2, 0, -11⟩ = ((4 : ℤ) : ℚ) :=
    @score_of_dvd _ 15 (by norm_num) (by norm_num) (by norm_num) (by norm_num) (by norm_num)
  intro i j x y hij hj hx hy hxy
  obtain rfl : i = 0 := by omega
  obtain rfl : j = 1 := by omega
  rw [hcandidates] at hx hy
  obtain rfl := Option.some_inj.mp hx
  obtain rfl := Option.some_inj.mp hy
  rw [hword, hcharacters, WithTop.coe_lt_coe] at hxy
  norm_num at hxy

/-- `ab` is a rare word and its characters are frequent: the two segmentations are returned with
fewer tokens first, and the one with the greater score comes last. -/
theorem not_returnsBest_ab :
    ¬ ReturnsBest ⟨[("ab".toList, 2 ^ 23 + 13), ("a".toList, 8), ("b".toList, 8)]⟩
      "ab".toList 2 := by
  have hcandidates : candidates
      ⟨[("ab".toList, 2 ^ 23 + 13), ("a".toList, 8), ("b".toList, 8)]⟩ "ab".toList 2
        = [⟨["ab".toList], 1, 1, -13⟩, ⟨["b".toList, "a".toList], 2, 0, 16⟩] := by
    decide
  rw [returnsBest_iff (by norm_num), hcandidates, foldl_offer_of_le _ (by simp)]
  rintro ⟨-, hbest⟩
  have hword : score ⟨["ab".toList], 1, 1, -13⟩ = ((18 : ℤ) : ℚ) :=
    @score_of_dvd _ 31 (by norm_num) (by norm_num) (by norm_num) (by norm_num) (by norm_num)
  have hcharacters : score ⟨["b".toList, "a".toList], 2, 0, 16⟩ = ((31 : ℤ) : ℚ) :=
    @score_of_dvd _ 15 (by norm_num) (by norm_num) (by norm_num) (by norm_num) (by norm_num)
  have hle := (List.pairwise_cons.mp hbest.sorted).1 _ (List.mem_singleton_self _)
  rw [hword, hcharacters, WithTop.coe_le_coe] at hle
  norm_num at hle

end Returned

end RagflowMineru.Analyzer
