import RagflowMineru.Library.Assoc
import RagflowMineru.Library.Binary64
import Mathlib.Algebra.Order.BigOperators.Group.List
import Mathlib.Order.Bounds.Defs

/-!
# Retrieved chunks in a prompt

`kb_prompt` looks for the first chunk that goes over the budget, and counts the chunks that are not
empty on the way, this one included.  So many chunks are then rendered, from the first one on.
-/

namespace RagflowMineru.Chat

open Library

/-- A retrieved chunk, with what `get_value` finds under the two names of each field, as strings. -/
structure RetrievedChunk where
  content : List Char
  docId : List Char
  docName : Option (List Char)
  url : Option (Option (List Char))
  id : List Char

/-- `re.sub(r"\n+", " ", line)` -/
def joinLines : List Char → List Char
  | [] => []
  | c :: rest =>
      if c = '\n' then
        if rest.head? = some '\n' then joinLines rest else ' ' :: joinLines rest
      else c :: joinLines rest

def drawNode (k : List Char) (line : Option (List Char)) : List Char :=
  match line with
  | none | some [] => []
  | some line => "\n├── ".toList ++ k ++ ": ".toList ++ joinLines line

/-- The budget of `kb_prompt`, a double. -/
def tokenBudget (maxTokens : ℕ) : ℚ :=
  Binary64.nearest (Binary64.nearest maxTokens * Binary64.nearest (97 / 100))

section Prompt

variable (numTokens : List Char → ℕ)
variable (docMeta : List (List Char) → Assoc (List Char) (List (List Char × Option (List Char))))
variable (hashStr2int : List Char → ℕ → ℕ)

/-- The first loop: `chunks_num` at its end. -/
def chunksNum (budget : ℚ) : List (List Char) → (usedTokenCount chunksNum : ℕ) → ℕ
  | [], _, n => n
  | c :: rest, used, n =>
      if c = [] then chunksNum budget rest used n
      else if budget < ((used + numTokens c : ℕ) : ℚ) then n + 1
      else chunksNum budget rest (used + numTokens c) (n + 1)

/-- A chunk in the prompt. -/
def renderChunk (hashId : Bool) (docs : Assoc (List Char) (List (List Char × Option (List Char))))
    (i : ℕ) (ck : RetrievedChunk) : List Char :=
  "\nID: ".toList ++ Nat.toDigits 10 (if hashId then hashStr2int ck.id 500 else i) ++
    drawNode "Title".toList ck.docName ++ (ck.url.map (drawNode "URL".toList)).getD [] ++
    ((Assoc.get? ck.docId docs).getD []).flatMap (fun entry => drawNode entry.1 entry.2) ++
    "\n└── Content:\n".toList ++ ck.content

/-- The chunks of a prompt, each under its index. -/
def renderChunks (hashId : Bool) (chunks : List RetrievedChunk) : List (List Char) :=
  chunks.mapIdx (renderChunk hashStr2int hashId (docMeta (chunks.map RetrievedChunk.docId)))

/-- `kb_prompt` -/
def kbPrompt (chunks : List RetrievedChunk) (maxTokens : ℕ) (hashId : Bool) : List (List Char) :=
  renderChunks docMeta hashStr2int hashId (chunks.take
    (chunksNum numTokens (tokenBudget maxTokens) (chunks.map RetrievedChunk.content) 0 0))

/-! ## The longest prefix within the budget -/

/-- The tokens of the contents, of which an empty one has none. -/
def contentTokens (contents : List (List Char)) : ℕ :=
  (contents.map fun c => if c = [] then 0 else numTokens c).sum

/-- The lengths of the prefixes within the budget. -/
def Fitting (budget : ℚ) (contents : List (List Char)) : Set ℕ :=
  {n | n ≤ contents.length ∧ (contentTokens numTokens (contents.take n) : ℚ) ≤ budget}

/-- The chunks in the prompt are the longest prefix within the budget. -/
def KeepsBudget (chunks : List RetrievedChunk) (maxTokens : ℕ) : Prop :=
  ∃ n, IsGreatest (Fitting numTokens (tokenBudget maxTokens)
      (chunks.map RetrievedChunk.content)) n ∧
    kbPrompt numTokens docMeta hashStr2int chunks maxTokens false =
      renderChunks docMeta hashStr2int false (chunks.take n)

/-- All contents fit and none is empty, or exactly one is empty in front of the first one that does
not fit. -/
def OneEmpty (budget : ℚ) (contents : List (List Char)) : Prop :=
  ∃ n, IsGreatest (Fitting numTokens budget contents) n ∧
    (n = contents.length ∧ contents.count [] = 0 ∨
      n < contents.length ∧ (contents.take n).count [] = 1)

end Prompt

section Counting

variable {numTokens : List Char → ℕ} {budget : ℚ} {contents : List (List Char)}

theorem contentTokens_cons (c : List Char) (rest : List (List Char)) :
    contentTokens numTokens (c :: rest) =
      (if c = [] then 0 else numTokens c) + contentTokens numTokens rest := by
  rw [contentTokens, List.map_cons, List.sum_cons]
  rfl

/-- The prefixes that fit, with one more content in front. -/
theorem fit_cons {c : List Char} {rest : List (List Char)} {used used' k : ℕ}
    (hused : (used : ℚ) ≤ budget) (hadd : used' = used + if c = [] then 0 else numTokens c)
    (hk : ∀ m ≤ rest.length,
      ((used' + contentTokens numTokens (rest.take m) : ℕ) : ℚ) ≤ budget ↔ m ≤ k) :
    ∀ m ≤ (c :: rest).length,
      ((used + contentTokens numTokens ((c :: rest).take m) : ℕ) : ℚ) ≤ budget ↔ m ≤ k + 1 := by
  intro m hm
  cases m with
  | zero => exact iff_of_true hused (Nat.zero_le _)
  | succ m =>
      rw [List.take_succ_cons, contentTokens_cons, ← Nat.add_assoc, ← hadd,
        hk m (Nat.le_of_succ_le_succ hm)]
      exact Nat.succ_le_succ_iff.symm

/-- What the loop counts, with the empty ones, up to the first content that does not fit. -/
theorem exists_chunksNum (contents : List (List Char)) (used n : ℕ) (hused : (used : ℚ) ≤ budget) :
    ∃ k ≤ contents.length,
      (∀ m ≤ contents.length,
        ((used + contentTokens numTokens (contents.take m) : ℕ) : ℚ) ≤ budget ↔ m ≤ k) ∧
      chunksNum numTokens budget contents used n + (contents.take (k + 1)).count [] =
        n + (contents.take (k + 1)).length := by
  induction contents generalizing used n with
  | nil =>
      refine ⟨0, le_rfl, fun m hm => ?_, rfl⟩
      rw [List.take_nil]
      exact iff_of_true hused hm
  | cons c rest ih =>
      rw [chunksNum]
      split_ifs with hempty hover
      · obtain ⟨k, hle, hfit, hcount⟩ := ih used n hused
        refine ⟨k + 1, Nat.succ_le_succ hle, fit_cons hused (by rw [if_pos hempty]; rfl) hfit, ?_⟩
        rw [List.take_succ_cons, List.length_cons, hempty, List.count_cons_self]
        omega
      · refine ⟨0, Nat.zero_le _, fun m hm => ?_, ?_⟩
        · cases m with
          | zero => exact iff_of_true hused le_rfl
          | succ m =>
              refine iff_of_false (not_le.mpr (hover.trans_le ?_)) (Nat.not_succ_le_zero m)
              rw [List.take_succ_cons, contentTokens_cons, if_neg hempty]
              exact_mod_cast Nat.add_le_add_left (Nat.le_add_right _ _) used
        · rw [List.take_succ_cons, List.take_zero, List.count_cons_of_ne hempty, List.count_nil]
          rfl
      · obtain ⟨k, hle, hfit, hcount⟩ := ih (used + numTokens c) (n + 1) (not_lt.mp hover)
        refine ⟨k + 1, Nat.succ_le_succ hle, fit_cons hused (by rw [if_neg hempty]) hfit, ?_⟩
        rw [List.take_succ_cons, List.length_cons, List.count_cons_of_ne hempty]
        omega

theorem tokenBudget_nonneg (maxTokens : ℕ) : 0 ≤ tokenBudget maxTokens := by
  have hmax : 0 ≤ Binary64.nearest maxTokens := Binary64.nearest_nonneg (Nat.cast_nonneg _)
  have hshare : 0 ≤ Binary64.nearest (97 / 100) := Binary64.nearest_nonneg (by norm_num)
  exact Binary64.nearest_nonneg (mul_nonneg hmax hshare)

/-- The longest prefix that fits, and what the loop counts. -/
theorem exists_longest (contents : List (List Char)) (hbudget : 0 ≤ budget) :
    ∃ k, IsGreatest (Fitting numTokens budget contents) k ∧
      chunksNum numTokens budget contents 0 0 + (contents.take (k + 1)).count [] =
        (contents.take (k + 1)).length := by
  obtain ⟨k, hle, hfit, hcount⟩ :=
    @exists_chunksNum numTokens budget contents 0 0 (by rwa [Nat.cast_zero])
  simp only [Nat.zero_add] at hfit hcount
  exact ⟨k, ⟨⟨hle, (hfit k hle).mpr le_rfl⟩, fun m hm => (hfit m hm.1).mp hm.2⟩, hcount⟩

/-- The content behind the longest prefix that fits is not empty. -/
theorem getElem_ne_nil_of_isGreatest {k : ℕ} (h : IsGreatest (Fitting numTokens budget contents) k)
    (hlt : k < contents.length) : contents[k] ≠ [] := by
  intro hempty
  have hmem : k + 1 ∈ Fitting numTokens budget contents := by
    refine ⟨hlt, ?_⟩
    rw [List.take_succ_eq_append_getElem hlt, contentTokens, List.map_append, List.sum_append,
      List.map_singleton, hempty, if_pos rfl, List.sum_singleton]
    exact h.1.2
  exact Nat.not_succ_le_self k (h.2 hmem)

end Counting

section Rendering

variable {numTokens : List Char → ℕ} {chunks : List RetrievedChunk}
variable {docMeta : List (List Char) → Assoc (List Char) (List (List Char × Option (List Char)))}
variable {hashStr2int : List Char → ℕ → ℕ}

theorem renderChunks_take_eq_iff (hashId : Bool) (m n : ℕ) :
    renderChunks docMeta hashStr2int hashId (chunks.take m) =
        renderChunks docMeta hashStr2int hashId (chunks.take n) ↔
      min m chunks.length = min n chunks.length := by
  constructor
  · intro h
    have hlength := congrArg List.length h
    simpa only [renderChunks, List.length_mapIdx, List.length_take] using hlength
  · intro h
    rw [List.take_eq_take_iff.mpr h]

end Rendering

/-- The prompt keeps the budget, if and only if all contents fit and none is empty, or just one is
empty in front of the first one that does not fit. -/
theorem keepsBudget_iff (numTokens : List Char → ℕ)
    (docMeta : List (List Char) → Assoc (List Char) (List (List Char × Option (List Char))))
    (hashStr2int : List Char → ℕ → ℕ) (chunks : List RetrievedChunk) (maxTokens : ℕ) :
    KeepsBudget numTokens docMeta hashStr2int chunks maxTokens ↔
      OneEmpty numTokens (tokenBudget maxTokens) (chunks.map RetrievedChunk.content) := by
  obtain ⟨k, hk, hcount⟩ := @exists_longest numTokens _ (chunks.map RetrievedChunk.content)
    (tokenBudget_nonneg maxTokens)
  set contents := chunks.map RetrievedChunk.content with hcontents
  have hlength : chunks.length = contents.length := (List.length_map _).symm
  have hkeeps : KeepsBudget numTokens docMeta hashStr2int chunks maxTokens ↔
      min (chunksNum numTokens (tokenBudget maxTokens) contents 0 0) contents.length = k := by
    rw [← hlength]
    constructor
    · rintro ⟨n, hn, hprompt⟩
      rw [kbPrompt, renderChunks_take_eq_iff, hn.unique hk, hlength, min_eq_left hk.1.1] at hprompt
      rwa [hlength]
    · intro hmin
      refine ⟨k, hk, (renderChunks_take_eq_iff _ _ _).mpr (hmin.trans ?_)⟩
      rw [hlength, min_eq_left hk.1.1]
  have hone : OneEmpty numTokens (tokenBudget maxTokens) contents ↔
      (k = contents.length ∧ contents.count [] = 0 ∨
        k < contents.length ∧ (contents.take k).count [] = 1) := by
    constructor
    · rintro ⟨n, hn, h⟩
      rwa [hn.unique hk] at h
    · exact fun h => ⟨k, hk, h⟩
  rw [hkeeps, hone]
  have hcount' := (contents.take k).count_le_length (a := [])
  rcases hk.1.1.eq_or_lt with heq | hlt
  · rw [List.take_of_length_le (by omega)] at hcount
    omega
  · rw [List.take_succ_eq_append_getElem hlt, List.count_append, List.length_append,
      List.count_singleton, beq_false_of_ne (getElem_ne_nil_of_isGreatest hk hlt),
      List.length_take] at hcount
    simp only [Bool.false_eq_true, if_false, List.length_singleton] at hcount
    omega

/-- A chunk without a content, and two of one letter. -/
def emptyFirst : List RetrievedChunk :=
  ["", "a", "b"].map fun content => ⟨content.toList, "doc".toList, none, none, content.toList⟩

/-- All three fit in the budget, and the last one is left out. -/
theorem not_keepsBudget_emptyFirst :
    ¬ KeepsBudget List.length (fun _ => []) (fun _ _ => 0) emptyFirst 100 := by
  rintro ⟨n, hn, hprompt⟩
  have hall : 3 ∈ Fitting List.length (tokenBudget 100)
      (emptyFirst.map RetrievedChunk.content) := by
    constructor
    · decide
    · decide +kernel
  have hlength := congrArg List.length hprompt
  rw [le_antisymm hn.1.1 (hn.2 hall)] at hlength
  exact absurd hlength (by decide +kernel)

end RagflowMineru.Chat
