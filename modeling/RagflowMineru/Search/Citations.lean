import RagflowMineru.Library.Scanning
import Mathlib.Algebra.Order.Field.Rat
import Mathlib.Data.Finset.Dedup
import Mathlib.Data.Finset.Empty
import Mathlib.Data.List.FinRange
import Mathlib.Tactic.NormNum

/-!
# Citations in an answer

An answer is cut into sentences, and behind each one that is similar enough to some
chunks their numbers are inserted, no number twice.  Blocks of code stay whole and
get a line end.  The pieces are joined again afterwards.
-/

namespace RagflowMineru.Search

open Library

abbrev Text := List Char

/-! ## The pieces of an answer -/

def fenceText : Text :=
  "```".toList

/-- The mark that opens or closes a block of code. -/
def fence : Matcher Char Unit where
  at? s := if fenceText <+: s then some () else none
  spell _ := fenceText
  spell_ne_nil _ := by decide
  spell_begins h := by
    split_ifs at h with hfence
    exact hfence

/-- `[a-z\u0600-\u06FF]` -/
def isLetter (c : Char) : Bool :=
  'a' ≤ c && c ≤ 'z' || 0x600 ≤ c.toNat && c.toNat ≤ 0x6FF

/-- The end of a sentence at the start of a text, as
`[^\|][；。？!！،؛؟۔\n]|[a-z\u0600-\u06FF][.?;!،؛؟][ \n]` matches it. -/
def boundaryAt : Text → Option Text
  | a :: b :: s =>
      if a ≠ '|' ∧ b ∈ "；。？!！،؛؟۔\n".toList then some [a, b]
      else match s with
        | c :: _ =>
            if isLetter a ∧ b ∈ ".?;!،؛؟".toList ∧ c ∈ " \n".toList then some [a, b, c] else none
        | [] => none
  | _ => none

def boundary : Matcher Char Text where
  at? := boundaryAt
  spell := id
  spell_ne_nil {s t} h := by
    rcases s with _ | ⟨a, _ | ⟨b, _ | ⟨c, s⟩⟩⟩
    · simp [boundaryAt] at h
    · simp [boundaryAt] at h
    · dsimp only [boundaryAt] at h
      split_ifs at h
      obtain rfl := Option.some.inj h
      simp
    · dsimp only [boundaryAt] at h
      split_ifs at h <;> obtain rfl := Option.some.inj h <;> simp
  spell_begins {s t} h := by
    rcases s with _ | ⟨a, _ | ⟨b, _ | ⟨c, s⟩⟩⟩
    · simp [boundaryAt] at h
    · simp [boundaryAt] at h
    · dsimp only [boundaryAt] at h
      split_ifs at h
      obtain rfl := Option.some.inj h
      exact List.prefix_rfl
    · dsimp only [boundaryAt] at h
      split_ifs at h
      · obtain rfl := Option.some.inj h
        exact ⟨c :: s, rfl⟩
      · obtain rfl := Option.some.inj h
        exact ⟨s, rfl⟩

/-- Blocks of code as they are, with a line end, and the sentences of what is between; `block` is
what has been read of a block. -/
def fencedPieces : Option Text → List Text → List Text
  | none, [] => []
  | none, p :: pieces =>
      if p = fenceText then fencedPieces (some p) pieces
      else boundary.split p ++ fencedPieces none pieces
  | some block, [] => [block ++ ['\n']]
  | some block, p :: pieces =>
      if p = fenceText then (block ++ p ++ ['\n']) :: fencedPieces none pieces
      else fencedPieces (some (block ++ p)) pieces

/-- The first character of a boundary goes to the piece before. -/
def moveBoundaries : Text → List Text → List Text
  | p, [] => [p]
  | p, q :: rest =>
      if (boundaryAt q).isSome then (p ++ q.take 1) :: moveBoundaries (q.drop 1) rest
      else p :: moveBoundaries q rest

def answerPieces (answer : Text) : List Text :=
  let pieces := fence.split answer
  let pieces := if 3 ≤ pieces.length then fencedPieces none pieces else boundary.split answer
  match pieces with
  | [] => []
  | p :: rest => moveBoundaries p rest

/-! ## Citations -/

/-- `f" [ID:{c}]"` -/
def idMarker (c : ℕ) : Text :=
  " [ID:".toList ++ Nat.toDigits 10 c ++ "]".toList

section Cites

variable {n : ℕ} (setOrder : List ℕ → List ℕ) (similarity : List Text → ℕ → Fin n → ℚ)

/-- The chunks that a piece cites, four at most, in the order in which their set is gone
through. -/
def citesOf (thr : ℚ) (sim : Fin n → ℚ) : Option (List ℕ) :=
  (List.ofFn sim).max?.bind fun most =>
    let mx := most * (99 / 100)
    if mx < thr then none
    else some ((setOrder (((List.finRange n).filter (mx < sim ·)).map Fin.val)).take 4)

/-- One round over the pieces that are long enough, each with its index. -/
def citesRound (thr : ℚ) (pieces : List (Text × ℕ)) : List (ℕ × List ℕ) :=
  pieces.zipIdx.filterMap fun piece =>
    (citesOf setOrder thr (similarity (pieces.map Prod.fst) piece.2)).map (piece.1.2, ·)

/-- So many rounds at most, with lower and lower thresholds, until something is cited. -/
def citesLoop (pieces : List (Text × ℕ)) : ℕ → ℚ → List (ℕ × List ℕ)
  | 0, _ => []
  | k + 1, thr =>
      if 3 / 10 < thr then
        let cites := citesRound setOrder similarity thr pieces
        if cites = [] then citesLoop pieces k (thr * (4 / 5)) else cites
      else []

/-- The numbers that have not been inserted yet. -/
def newIds : List ℕ → List ℕ → List ℕ
  | _, [] => []
  | seted, c :: cites =>
      if c ∈ seted then newIds seted cites else c :: newIds (seted ++ [c]) cites

/-- The text and the numbers in it. -/
def insertIds (idx : List ℕ) (cites : List (ℕ × List ℕ)) :
    List ℕ → List (Text × ℕ) → Text × List ℕ
  | seted, [] => ([], seted)
  | seted, (p, i) :: pieces =>
      let ids := if i ∈ idx then newIds seted ((cites.lookup i).getD []) else []
      let (res, seted) := insertIds idx cites (seted ++ ids) pieces
      (p ++ ids.flatMap idMarker ++ res, seted)

end Cites

/-- `Dealer.insert_citations`; `similarity` is what `hybrid_similarity` computes of the pieces,
one of them and the chunks, and `setOrder` the order in which a set of strings is gone through. -/
def insertCitations (setOrder : List ℕ → List ℕ) (answer : Text) (chunks : List Text)
    (similarity : List Text → ℕ → Fin chunks.length → ℚ) : Text × Finset ℕ :=
  if chunks = [] then (answer, ∅)
  else
    let pieces := (answerPieces answer).zipIdx
    let long := pieces.filter fun piece => ¬ piece.1.length < 5
    if long = [] then (answer, ∅)
    else
      let cites := citesLoop setOrder similarity long 4 (63 / 100)
      let (res, seted) := insertIds (long.map Prod.snd) cites [] pieces
      (res, seted.toFinset)

/-! ## Nothing is lost -/

/-- A text between two matches is not one itself. -/
theorem scan_ne_fence (s : Text) :
    (fence.scan s).1 ≠ fenceText ∧ ∀ part ∈ (fence.scan s).2, part.2 ≠ fenceText := by
  induction s using Matcher.scan_induction (m := fence) with
  | nil => exact ⟨by decide, by simp⟩
  | skip a s hat ih =>
      rw [Matcher.scan_cons_of_none hat]
      refine ⟨fun heq => ?_, ih.2⟩
      have hbegins : fenceText <+: a :: s := by
        have hjoin := fence.joinAll_scan (a :: s)
        rw [Matcher.scan_cons_of_none hat, heq] at hjoin
        exact ⟨_, hjoin⟩
      simp [fence, hbegins] at hat
  | found t r hat ih =>
      rw [Matcher.scan_spell_append hat]
      exact ⟨(List.cons_ne_nil _ _).symm, List.forall_mem_cons.mpr ⟨ih.1, ih.2⟩⟩

/-- The answer with one more line end behind each block of code, which goes up to the next mark
or to the end. -/
def blockLines : Text → List (Unit × Text) → Text
  | t, [] => t
  | t, [(_, block)] => t ++ (fenceText ++ block ++ ['\n'])
  | t, (_, block) :: (_, t') :: rest =>
      t ++ (fenceText ++ block ++ fenceText ++ ['\n']) ++ blockLines t' rest

theorem flatten_fencedPieces (t : Text) (rest : List (Unit × Text)) (ht : t ≠ fenceText)
    (hrest : ∀ part ∈ rest, part.2 ≠ fenceText) :
    (fencedPieces none (t :: rest.flatMap fun part => [fenceText, part.2])).flatten =
      blockLines t rest := by
  fun_induction blockLines t rest with
  | case1 t => simp [fencedPieces, ht, boundary.flatten_split]
  | case2 t _ block =>
      have hblock : block ≠ fenceText := hrest _ (List.mem_singleton.mpr rfl)
      rw [fencedPieces, if_neg ht, List.flatten_append, boundary.flatten_split]
      simp [fencedPieces, hblock]
  | case3 t _ block _ t' rest ih =>
      have hblock : block ≠ fenceText := hrest _ List.mem_cons_self
      have ht' : t' ≠ fenceText := hrest _ (List.mem_cons_of_mem _ List.mem_cons_self)
      have hih := ih ht' fun part hpart =>
        hrest part (List.mem_cons_of_mem _ (List.mem_cons_of_mem _ hpart))
      rw [fencedPieces, if_neg ht, List.flatten_append, boundary.flatten_split, ← hih]
      simp [fencedPieces, hblock]

theorem flatten_moveBoundaries (p : Text) (rest : List Text) :
    (moveBoundaries p rest).flatten = p ++ rest.flatten := by
  induction rest generalizing p with
  | nil => simp [moveBoundaries]
  | cons q rest ih =>
      rw [moveBoundaries]
      split_ifs
      · rw [List.flatten_cons, ih, List.flatten_cons, List.append_assoc,
          ← List.append_assoc (q.take 1), List.take_append_drop]
      · rw [List.flatten_cons, ih, List.flatten_cons]

theorem flatten_answerPieces (answer : Text) :
    (answerPieces answer).flatten = blockLines (fence.scan answer).1 (fence.scan answer).2 := by
  have hmove : ∀ pieces : List Text, (match pieces with
      | [] => []
      | p :: rest => moveBoundaries p rest).flatten = pieces.flatten := by
    rintro (_ | ⟨p, rest⟩)
    · rfl
    · exact flatten_moveBoundaries p rest
  have hsplit : fence.split answer = (fence.scan answer).1 ::
    (fence.scan answer).2.flatMap fun part => [fenceText, part.2] := rfl
  rw [answerPieces, hmove, hsplit]
  split_ifs with hlength
  · exact flatten_fencedPieces _ _ (scan_ne_fence answer).1 (scan_ne_fence answer).2
  · have hnone : (fence.scan answer).2 = [] := by
      rcases hrest : (fence.scan answer).2 with _ | ⟨part, rest⟩
      · rfl
      · rw [hrest] at hlength
        simp at hlength
    have hjoin := fence.joinAll_scan answer
    rw [hnone, joinAll_nil] at hjoin
    rw [boundary.flatten_split, hnone, blockLines, hjoin]

/-! ## No number twice -/

theorem newIds_sublist (seted cites : List ℕ) : (newIds seted cites).Sublist cites := by
  induction cites generalizing seted with
  | nil => exact List.Sublist.slnil
  | cons c cites ih =>
      rw [newIds]
      split_ifs
      · exact (ih seted).cons c
      · exact (ih _).cons_cons c

theorem nodup_append_newIds {seted : List ℕ} (h : seted.Nodup) (cites : List ℕ) :
    (seted ++ newIds seted cites).Nodup := by
  induction cites generalizing seted with
  | nil => simpa [newIds] using h
  | cons c cites ih =>
      rw [newIds]
      split_ifs with hc
      · exact ih h
      · have hnext := ih (List.nodup_append_comm.mp
          (show ([c] ++ seted).Nodup from List.nodup_cons.mpr ⟨hc, h⟩))
        rwa [List.append_assoc, List.singleton_append] at hnext

/-- A text with numbers inserted behind its parts. -/
structure Marked (n : ℕ) (text res : Text) (ids : List ℕ) : Prop where
  parts : ∃ parts : List (Text × List ℕ), (parts.map Prod.fst).flatten = text ∧
    parts.flatMap Prod.snd = ids ∧
    res = parts.flatMap fun part => part.1 ++ part.2.flatMap idMarker
  nodup : ids.Nodup
  lt : ∀ c ∈ ids, c < n

/-- Without citations a text stays as it is. -/
theorem Marked.refl (n : ℕ) (text : Text) : Marked n text text [] :=
  ⟨⟨[(text, [])], by simp⟩, List.nodup_nil, by simp⟩

theorem insertIds_spec {n : ℕ} (idx : List ℕ) {cites : List (ℕ × List ℕ)}
    (hcites : ∀ entry ∈ cites, ∀ c ∈ entry.2, c < n) (pieces : List (Text × ℕ))
    {seted : List ℕ} (hseted : seted.Nodup) :
    ∃ parts : List (Text × List ℕ), parts.map Prod.fst = pieces.map Prod.fst ∧
      (insertIds idx cites seted pieces).1 =
        parts.flatMap (fun part => part.1 ++ part.2.flatMap idMarker) ∧
      (insertIds idx cites seted pieces).2 = seted ++ parts.flatMap Prod.snd ∧
      (seted ++ parts.flatMap Prod.snd).Nodup ∧ ∀ c ∈ parts.flatMap Prod.snd, c < n := by
  induction pieces generalizing seted with
  | nil => exact ⟨[], rfl, rfl, by simp [insertIds], by simpa using hseted, by simp⟩
  | cons piece pieces ih =>
      obtain ⟨p, i⟩ := piece
      have hids : ∃ ids, insertIds idx cites seted ((p, i) :: pieces) =
          (p ++ ids.flatMap idMarker ++ (insertIds idx cites (seted ++ ids) pieces).1,
            (insertIds idx cites (seted ++ ids) pieces).2) ∧
          (seted ++ ids).Nodup ∧ ∀ c ∈ ids, c < n := by
        refine ⟨_, rfl, ?_⟩
        split_ifs
        · refine ⟨nodup_append_newIds hseted _, fun c hc => ?_⟩
          have hc := (newIds_sublist _ _).subset hc
          rcases hlookup : cites.lookup i with _ | cs
          · rw [hlookup] at hc
            simp at hc
          · rw [hlookup, Option.getD_some] at hc
            obtain ⟨before, after, heq, -⟩ := List.lookup_eq_some_iff.mp hlookup
            exact hcites (i, cs) (by rw [heq]; simp) c hc
        · exact ⟨by simpa using hseted, by simp⟩
      obtain ⟨ids, hstep, hnodup, hlt⟩ := hids
      obtain ⟨parts, hfst, hres, hset, hall, hbound⟩ := ih hnodup
      refine ⟨(p, ids) :: parts, ?_, ?_, ?_, ?_, ?_⟩
      · rw [List.map_cons, List.map_cons, hfst]
      · rw [hstep, List.flatMap_cons, hres]
      · rw [hstep, List.flatMap_cons, hset, List.append_assoc]
      · rwa [List.flatMap_cons, ← List.append_assoc]
      · rw [List.flatMap_cons]
        exact List.forall_mem_append.mpr ⟨hlt, hbound⟩

section Rounds

variable {n : ℕ} {setOrder : List ℕ → List ℕ} (hset : ∀ l, (setOrder l).Perm l)
  (similarity : List Text → ℕ → Fin n → ℚ)
include hset

theorem citesOf_lt {thr : ℚ} {sim : Fin n → ℚ} {cs : List ℕ}
    (h : citesOf setOrder thr sim = some cs) : ∀ c ∈ cs, c < n := by
  intro c hc
  obtain ⟨most, -, hcs⟩ := Option.bind_eq_some_iff.mp h
  dsimp only at hcs
  split_ifs at hcs
  obtain rfl := Option.some.inj hcs
  obtain ⟨i, -, rfl⟩ := List.mem_map.mp ((hset _).subset (List.mem_of_mem_take hc))
  exact i.isLt

theorem citesRound_lt {thr : ℚ} {pieces : List (Text × ℕ)} :
    ∀ entry ∈ citesRound setOrder similarity thr pieces, ∀ c ∈ entry.2, c < n := by
  intro entry hentry
  obtain ⟨piece, -, hpiece⟩ := List.mem_filterMap.mp hentry
  obtain ⟨cs, hcs, rfl⟩ := Option.map_eq_some_iff.mp hpiece
  exact citesOf_lt hset hcs

theorem citesLoop_lt (pieces : List (Text × ℕ)) (k : ℕ) (thr : ℚ) :
    ∀ entry ∈ citesLoop setOrder similarity pieces k thr, ∀ c ∈ entry.2, c < n := by
  induction k generalizing thr with
  | zero => simp [citesLoop]
  | succ k ih =>
      rw [citesLoop]
      dsimp only
      split_ifs
      · exact ih _
      · exact citesRound_lt hset similarity
      · simp

end Rounds

theorem citesLoop_eq_nil {n : ℕ} (setOrder : List ℕ → List ℕ)
    (similarity : List Text → ℕ → Fin n → ℚ) (pieces : List (Text × ℕ)) (k : ℕ) {thr : ℚ}
    (hthr : thr ≤ 3 / 10) : citesLoop setOrder similarity pieces k thr = [] := by
  cases k with
  | zero => rfl
  | succ k => rw [citesLoop, if_neg (not_lt.mpr hthr)]

/-- After four rounds the threshold is too low for another one. -/
theorem citesLoop_add {n : ℕ} (setOrder : List ℕ → List ℕ)
    (similarity : List Text → ℕ → Fin n → ℚ) (pieces : List (Text × ℕ)) (k : ℕ) :
    citesLoop setOrder similarity pieces (4 + k) (63 / 100) =
      citesLoop setOrder similarity pieces 4 (63 / 100) := by
  have hend : ∀ k, citesLoop setOrder similarity pieces k
      (63 / 100 * (4 / 5) * (4 / 5) * (4 / 5) * (4 / 5)) = [] := fun k =>
    citesLoop_eq_nil setOrder similarity pieces k (by norm_num)
  rw [Nat.add_comm]
  simp only [citesLoop, hend]

/-! ## The text of an answer -/

/-- Something of the answer may be cited: there are chunks, and a piece is long enough. -/
def Citable (answer : Text) (chunks : List Text) : Prop :=
  chunks ≠ [] ∧ ∃ p ∈ answerPieces answer, 5 ≤ p.length

instance (answer : Text) (chunks : List Text) : Decidable (Citable answer chunks) :=
  inferInstanceAs (Decidable (_ ∧ _))

/-- Without the numbers, the answer is what it was, with a line end behind each block of code if
something may be cited; the numbers are those of chunks, and none is inserted twice. -/
theorem insertCitations_marked {setOrder : List ℕ → List ℕ} (hset : ∀ l, (setOrder l).Perm l)
    (answer : Text) (chunks : List Text)
    (similarity : List Text → ℕ → Fin chunks.length → ℚ) :
    ∃ ids, Marked chunks.length
        (if Citable answer chunks then blockLines (fence.scan answer).1 (fence.scan answer).2
          else answer)
        (insertCitations setOrder answer chunks similarity).1 ids ∧
      (insertCitations setOrder answer chunks similarity).2 = ids.toFinset := by
  have hlong : (answerPieces answer).zipIdx.filter (fun piece => ¬ piece.1.length < 5) = [] ↔
      ¬ ∃ p ∈ answerPieces answer, 5 ≤ p.length := by
    rw [List.filter_eq_nil_iff, ← List.zipIdx_map_fst 0 (answerPieces answer)]
    simp only [List.zipIdx_map_fst, not_exists, not_and, not_le]
    constructor
    · intro h p hp
      rw [← List.zipIdx_map_fst 0 (answerPieces answer)] at hp
      obtain ⟨piece, hpiece, rfl⟩ := List.mem_map.mp hp
      simpa using h piece hpiece
    · intro h piece hpiece
      have hp := h piece.1 (by
        rw [← List.zipIdx_map_fst 0 (answerPieces answer)]
        exact List.mem_map_of_mem hpiece)
      simpa using hp
  rw [insertCitations]
  by_cases hchunks : chunks = []
  · rw [if_neg fun h : Citable answer chunks => h.1 hchunks, if_pos hchunks]
    exact ⟨[], Marked.refl _ answer, rfl⟩
  rw [if_neg hchunks]
  dsimp only
  by_cases hpiece : ∃ p ∈ answerPieces answer, 5 ≤ p.length
  · rw [if_pos (show Citable answer chunks from ⟨hchunks, hpiece⟩),
      if_neg (mt hlong.mp (not_not.mpr hpiece))]
    obtain ⟨parts, hfst, hres, hseted, hnodup, hlt⟩ := insertIds_spec
      (((answerPieces answer).zipIdx.filter fun piece => ¬ piece.1.length < 5).map Prod.snd)
      (citesLoop_lt hset similarity
        ((answerPieces answer).zipIdx.filter fun piece => ¬ piece.1.length < 5) 4 (63 / 100))
      (answerPieces answer).zipIdx List.nodup_nil
    rw [List.nil_append] at hseted hnodup
    refine ⟨parts.flatMap Prod.snd, ⟨⟨parts, ?_, rfl, hres⟩, hnodup, hlt⟩, by rw [hseted]⟩
    rw [hfst, List.zipIdx_map_fst, flatten_answerPieces]
  · rw [if_neg fun h : Citable answer chunks => hpiece h.2, if_pos (hlong.mpr hpiece)]
    exact ⟨[], Marked.refl _ answer, rfl⟩

theorem insertCitations_marked_sentences :
    ∃ ids, Marked 2
        (if Citable "Water is wet.\nFire is hot.\n".toList ["water".toList, "fire".toList] then
          blockLines (fence.scan "Water is wet.\nFire is hot.\n".toList).1
            (fence.scan "Water is wet.\nFire is hot.\n".toList).2
          else "Water is wet.\nFire is hot.\n".toList)
        (insertCitations id "Water is wet.\nFire is hot.\n".toList
          ["water".toList, "fire".toList] fun _ k i => if k = i then 1 else 0).1 ids ∧
      (insertCitations id "Water is wet.\nFire is hot.\n".toList
        ["water".toList, "fire".toList] fun _ k i => if k = i then 1 else 0).2 = ids.toFinset :=
  @insertCitations_marked id List.Perm.refl "Water is wet.\nFire is hot.\n".toList
    ["water".toList, "fire".toList] fun _ k i => if k = i then 1 else 0

/-- A block of code gets a line end. -/
theorem not_insertCitations_marked :
    ¬ ∀ (answer : Text) (chunks : List Text)
      (similarity : List Text → ℕ → Fin chunks.length → ℚ),
      ∃ ids, Marked chunks.length answer (insertCitations id answer chunks similarity).1 ids ∧
        (insertCitations id answer chunks similarity).2 = ids.toFinset := by
  intro h
  obtain ⟨ids, ⟨⟨parts, htext, hids, hres⟩, -, -⟩, hset⟩ :=
    h "```x```".toList ["x".toList] fun _ _ _ => 0
  have hout : insertCitations id "```x```".toList ["x".toList] (fun _ _ _ => 0) =
      ("```x```\n".toList, ∅) := by
    decide +kernel
  rw [hout] at hres hset
  have hnone : ids = [] := by
    rw [List.eq_nil_iff_forall_not_mem]
    intro c hc
    rw [← List.mem_toFinset, ← hset] at hc
    exact absurd hc (Finset.notMem_empty c)
  have hplain : parts.flatMap (fun part => part.1 ++ part.2.flatMap idMarker) =
      (parts.map Prod.fst).flatten := by
    rw [← List.flatMap_def]
    apply List.flatMap_congr
    intro part hpart
    rw [hnone, List.flatMap_eq_nil_iff] at hids
    simp [hids part hpart]
  rw [hplain, htext] at hres
  exact absurd hres (by decide)

end RagflowMineru.Search
