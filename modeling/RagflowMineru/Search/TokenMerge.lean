import Mathlib.Data.List.TakeDrop
import Mathlib.Data.List.TakeWhile

/-!
# Merging short tokens

`token_merge` of the Python term weights and `TokenMerge` of the Go ones.  Both join
runs of short tokens; what they do with a run of five and more differs.
-/

namespace RagflowMineru.Search

/-- The stop words, the same in both versions. -/
def stopWords : List String :=
  ["请问", "您", "你", "我", "他", "是", "的", "就", "有", "于", "及", "即", "在", "为", "最", "有",
    "从", "以", "了", "将", "与", "吗", "吧", "中", "#", "什么", "怎么", "哪个", "哪些", "啥", "相关"]

/-- A match of `[0-9a-zA-Z]` at the start. -/
def startsAlnum (t : String) : Bool :=
  match t.toList with
  | [] => false
  | c :: _ => c.isAlphanum

/-- The terms of one character, and of one or two from `[0-9a-z]`. -/
def oneTerm (t : String) : Bool :=
  t.length == 1 || (t.length == 2 && t.toList.all fun c => c.isDigit || c.isLower)

def joined (tks : List String) : String := " ".intercalate tks

section

variable (oneTerm : String → Bool)

/-- The condition under which both loops go on to the next token. -/
def short (t : String) : Bool := t != "" && !stopWords.contains t && oneTerm t

/-- Whether the first term is joined with a longer one that follows. -/
def joinsNext : List String → Bool
  | t :: next :: _ => oneTerm t && (1 < next.length && !startsAlnum next)
  | _ => false

namespace Python

/-- The loop from a token on; a long run gives up its first two tokens. -/
def mergeFrom : List String → List String
  | [] => []
  | t :: rest =>
      let run := (t :: rest).takeWhile (short oneTerm)
      if 1 < run.length then
        if run.length < 5 then joined run :: mergeFrom ((t :: rest).drop run.length)
        else joined ((t :: rest).take 2) :: mergeFrom ((t :: rest).drop 2)
      else (if 0 < t.length then [t] else []) ++ mergeFrom rest
termination_by tks => tks.length
decreasing_by all_goals simp only [List.length_drop, List.length_cons, run] at *; omega

def tokenMerge (tks : List String) : List String :=
  (if joinsNext oneTerm tks then joined (tks.take 2) :: mergeFrom oneTerm (tks.drop 2)
    else mergeFrom oneTerm tks).filter (· != "")

end Python

namespace Go

/-- The inner loop for long runs. -/
def pairs : List String → List String
  | a :: b :: rest => (a ++ " " ++ b) :: pairs rest
  | [a] => [a]
  | [] => []

/-- The loop from a token on; a long run is used up. -/
def mergeFrom : List String → List String
  | [] => []
  | t :: rest =>
      let run := (t :: rest).takeWhile (short oneTerm)
      if 1 < run.length then
        if run.length < 5 then joined run :: mergeFrom ((t :: rest).drop run.length)
        else pairs run ++ mergeFrom ((t :: rest).drop run.length)
      else (if 0 < t.length then [t] else []) ++ mergeFrom rest
termination_by tks => tks.length
decreasing_by all_goals simp only [List.length_drop, List.length_cons, run] at *; omega

def tokenMerge (tks : List String) : List String :=
  (if joinsNext oneTerm tks then joined (tks.take 2) :: mergeFrom oneTerm (tks.drop 2)
    else mergeFrom oneTerm tks).filter (· != "")

end Go

/-- Five tokens in a row are short. -/
def FiveShort (tks : List String) : Prop :=
  ∃ k, 5 ≤ ((tks.drop k).takeWhile (short oneTerm)).length

/-- The tokens that the loops go over. -/
def scanned (tks : List String) : List String :=
  if joinsNext oneTerm tks then tks.drop 2 else tks

end

/-! ## Runs of short tokens -/

section

variable {oneTerm : String → Bool} {t : String} {run rest : List String}

theorem Python.mergeFrom_cons (hrun : ((t :: rest).takeWhile (short oneTerm)).length ≤ 1) :
    Python.mergeFrom oneTerm (t :: rest) =
      (if 0 < t.length then [t] else []) ++ Python.mergeFrom oneTerm rest := by
  rw [Python.mergeFrom, if_neg (not_lt.mpr hrun)]

theorem Go.mergeFrom_cons (hrun : ((t :: rest).takeWhile (short oneTerm)).length ≤ 1) :
    Go.mergeFrom oneTerm (t :: rest) =
      (if 0 < t.length then [t] else []) ++ Go.mergeFrom oneTerm rest := by
  rw [Go.mergeFrom, if_neg (not_lt.mpr hrun)]

/-- A run of short tokens up to where it ends. -/
structure Run (oneTerm : String → Bool) (run rest : List String) : Prop where
  short : ∀ t ∈ run, short oneTerm t = true
  ends : ∀ t ∈ rest.head?, Search.short oneTerm t = false

theorem Run.takeWhile (h : Run oneTerm run rest) :
    (run ++ rest).takeWhile (Search.short oneTerm) = run := by
  rw [List.takeWhile_append_of_pos h.short]
  cases rest with
  | nil => simp
  | cons t rest => simp [h.ends t rfl]

theorem Run.drop (h : Run oneTerm run rest) (n : ℕ) : Run oneTerm (run.drop n) rest :=
  ⟨fun t ht => h.short t (List.mem_of_mem_drop ht), h.ends⟩

/-- A run of two to four is joined as a whole. -/
theorem Python.mergeFrom_run (h : Run oneTerm run rest) (htwo : 1 < run.length)
    (hfive : run.length < 5) :
    Python.mergeFrom oneTerm (run ++ rest) = joined run :: Python.mergeFrom oneTerm rest := by
  obtain ⟨t, tail, rfl⟩ := List.exists_cons_of_length_pos (by omega : 0 < run.length)
  have htake := h.takeWhile
  rw [List.cons_append] at htake ⊢
  rw [Python.mergeFrom, htake, if_pos htwo, if_pos hfive, ← List.cons_append, List.drop_left]

theorem Go.mergeFrom_run (h : Run oneTerm run rest) (htwo : 1 < run.length) :
    Go.mergeFrom oneTerm (run ++ rest) =
      (if run.length < 5 then [joined run] else Go.pairs run) ++ Go.mergeFrom oneTerm rest := by
  obtain ⟨t, tail, rfl⟩ := List.exists_cons_of_length_pos (by omega : 0 < run.length)
  have htake := h.takeWhile
  rw [List.cons_append] at htake ⊢
  rw [Go.mergeFrom, htake, if_pos htwo, ← List.cons_append, List.drop_left]
  split_ifs <;> rfl

/-- Of a longer run the first two are joined. -/
theorem Python.mergeFrom_long (h : Run oneTerm run rest) (hfive : 5 ≤ run.length) :
    Python.mergeFrom oneTerm (run ++ rest) =
      joined (run.take 2) :: Python.mergeFrom oneTerm (run.drop 2 ++ rest) := by
  obtain ⟨t, tail, rfl⟩ := List.exists_cons_of_length_pos (by omega : 0 < run.length)
  have htake := h.takeWhile
  rw [List.cons_append] at htake ⊢
  rw [Python.mergeFrom, htake, if_pos (by omega), if_neg (by omega), ← List.cons_append,
    List.take_append_of_le_length (by omega), List.drop_append_of_le_length (by omega)]

/-- The pieces that a run becomes in Python. -/
theorem Python.mergeFrom_pieces (h : Run oneTerm run rest) (htwo : 1 < run.length) :
    ∃ pieces, Python.mergeFrom oneTerm (run ++ rest) = pieces ++ Python.mergeFrom oneTerm rest ∧
      2 * pieces.length ≤ max 2 (run.length - 1) := by
  induction hlength : run.length using Nat.strong_induction_on generalizing run with
  | _ n ih =>
      rcases Nat.lt_or_ge run.length 5 with hshort | hlong
      · exact ⟨[joined run], Python.mergeFrom_run h htwo hshort, le_max_left _ _⟩
      · have hdrop : (run.drop 2).length = n - 2 := by rw [List.length_drop, hlength]
        obtain ⟨pieces, hmerge, hpieces⟩ := ih (n - 2) (by omega) (h.drop 2) (by omega) hdrop
        refine ⟨joined (run.take 2) :: pieces, ?_, ?_⟩
        · rw [Python.mergeFrom_long h hlong, hmerge, List.cons_append]
        · rw [List.length_cons]
          omega

theorem Go.length_pairs (tks : List String) : (Go.pairs tks).length = (tks.length + 1) / 2 := by
  fun_induction Go.pairs tks with
  | case1 a b rest ih =>
      simp only [List.length_cons, ih]
      omega
  | case2 a => simp
  | case3 => simp

/-! ## No piece is empty -/

theorem joined_ne_empty {tks : List String} (htwo : 1 < tks.length) : joined tks ≠ "" := by
  match tks, htwo with
  | a :: b :: rest, _ =>
      intro hempty
      have hlength := congrArg String.length hempty
      rw [joined, String.intercalate_cons_cons] at hlength
      simp only [String.length_append] at hlength
      exact absurd hlength (by simp)

theorem ne_empty_of_mem_single {l : List String} (hl : ∀ piece ∈ l, piece ≠ "") :
    ∀ piece ∈ (if 0 < t.length then [t] else []) ++ l, piece ≠ "" := by
  intro piece hpiece
  obtain hsingle | hrest := List.mem_append.mp hpiece
  · split_ifs at hsingle with ht
    · obtain rfl := List.mem_singleton.mp hsingle
      rintro rfl
      exact absurd ht (by simp)
    · exact absurd hsingle List.not_mem_nil
  · exact hl piece hrest

theorem Go.ne_empty_of_mem_pairs {tks : List String} (htks : ∀ t ∈ tks, t ≠ "") :
    ∀ piece ∈ Go.pairs tks, piece ≠ "" := by
  fun_induction Go.pairs tks with
  | case1 a b rest ih =>
      have hrest := ih fun t ht => htks t (.tail _ (.tail _ ht))
      refine List.forall_mem_cons.mpr ⟨?_, hrest⟩
      exact @joined_ne_empty [a, b] Nat.one_lt_two
  | case2 a => exact htks
  | case3 => exact nofun

theorem Python.ne_empty_of_mem (tks : List String) :
    ∀ piece ∈ Python.mergeFrom oneTerm tks, piece ≠ "" := by
  fun_induction Python.mergeFrom oneTerm tks with
  | case1 => exact nofun
  | case2 t rest run htwo hfive ih =>
      exact List.forall_mem_cons.mpr ⟨joined_ne_empty htwo, ih⟩
  | case3 t rest run htwo hfive ih =>
      have hle : run.length ≤ (t :: rest).length := (List.takeWhile_prefix _).length_le
      refine List.forall_mem_cons.mpr ⟨joined_ne_empty ?_, ih⟩
      rw [List.length_take]
      omega
  | case4 t rest run hone ih => exact ne_empty_of_mem_single ih

theorem Go.ne_empty_of_mem (tks : List String) :
    ∀ piece ∈ Go.mergeFrom oneTerm tks, piece ≠ "" := by
  fun_induction Go.mergeFrom oneTerm tks with
  | case1 => exact nofun
  | case2 t rest run htwo hfive ih =>
      exact List.forall_mem_cons.mpr ⟨joined_ne_empty htwo, ih⟩
  | case3 t rest run htwo hfive ih =>
      have hshort : ∀ t' ∈ run, t' ≠ "" := by
        intro t' ht'
        have hterm := List.mem_takeWhile_imp ht'
        simp only [short, Bool.and_eq_true, bne_iff_ne] at hterm
        exact hterm.1.1
      intro piece hpiece
      obtain hpair | hrest := List.mem_append.mp hpiece
      · exact Go.ne_empty_of_mem_pairs hshort piece hpair
      · exact ih piece hrest
  | case4 t rest run hone ih => exact ne_empty_of_mem_single ih

/-! ## Where five are short -/

theorem fiveShort_cons : FiveShort oneTerm (t :: rest) ↔
    5 ≤ ((t :: rest).takeWhile (short oneTerm)).length ∨ FiveShort oneTerm rest := by
  constructor
  · rintro ⟨k, hk⟩
    cases k with
    | zero => exact .inl hk
    | succ k => exact .inr ⟨k, hk⟩
  · rintro (hhead | ⟨k, hk⟩)
    · exact ⟨0, hhead⟩
    · exact ⟨k + 1, hk⟩

theorem fiveShort_run (h : Run oneTerm run rest) :
    FiveShort oneTerm (run ++ rest) ↔ 5 ≤ run.length ∨ FiveShort oneTerm rest := by
  induction run with
  | nil => simp
  | cons t run ih =>
      have htake := h.takeWhile
      rw [List.cons_append] at htake ⊢
      rw [fiveShort_cons, htake, ih (h.drop 1), List.length_cons]
      constructor
      · rintro (hlong | hlong | hrest)
        · exact .inl hlong
        · exact .inl (by omega)
        · exact .inr hrest
      · rintro (hlong | hrest)
        · exact .inl hlong
        · exact .inr (.inr hrest)

theorem run_takeWhile (oneTerm : String → Bool) (tks : List String) :
    Run oneTerm (tks.takeWhile (short oneTerm)) (tks.dropWhile (short oneTerm)) := by
  refine ⟨fun t ht => List.mem_takeWhile_imp ht, fun t ht => ?_⟩
  cases hdrop : tks.dropWhile (short oneTerm) with
  | nil =>
      rw [hdrop] at ht
      cases ht
  | cons u rest =>
      rw [hdrop] at ht
      obtain rfl := Option.some.inj ht
      have hne : tks.dropWhile (short oneTerm) ≠ [] := by
        rw [hdrop]
        exact List.cons_ne_nil _ _
      have hhead := List.head_dropWhile_not (short oneTerm) hne
      simpa [hdrop] using hhead

/-- Python's pieces are the same as those of Go, or fewer where five tokens are short. -/
theorem mergeFrom_cases (oneTerm : String → Bool) (tks : List String) :
    (¬ FiveShort oneTerm tks ∧ Go.mergeFrom oneTerm tks = Python.mergeFrom oneTerm tks) ∨
      (FiveShort oneTerm tks ∧
        (Python.mergeFrom oneTerm tks).length < (Go.mergeFrom oneTerm tks).length) := by
  induction hlength : tks.length using Nat.strong_induction_on generalizing tks with
  | _ n ih =>
      rcases Nat.lt_or_ge 1 (tks.takeWhile (short oneTerm)).length with htwo | hone
      · -- a run is split off
        have hrun := run_takeWhile oneTerm tks
        have hsplit : tks.takeWhile (short oneTerm) ++ tks.dropWhile (short oneTerm) = tks :=
          List.takeWhile_append_dropWhile
        generalize tks.takeWhile (short oneTerm) = run at hrun hsplit htwo
        generalize tks.dropWhile (short oneTerm) = rest at hrun hsplit
        subst hsplit
        rw [List.length_append] at hlength
        have hrest := ih _ (by omega) rest rfl
        obtain ⟨pieces, hpython, hpieces⟩ := Python.mergeFrom_pieces hrun htwo
        have hfive := fiveShort_run hrun
        rw [Go.mergeFrom_run hrun htwo]
        rcases Nat.lt_or_ge run.length 5 with hshort | hlong
        · rw [or_iff_right (by omega)] at hfive
          rw [hfive, if_pos hshort, Python.mergeFrom_run hrun htwo hshort]
          simpa using hrest
        · rw [if_neg (by omega), hpython]
          refine .inr ⟨hfive.mpr (.inl hlong), ?_⟩
          rw [List.length_append, List.length_append, Go.length_pairs]
          obtain ⟨-, heq⟩ | ⟨-, hlt⟩ := hrest
          · rw [heq]
            omega
          · omega
      · cases tks with
        | nil =>
            refine .inl ⟨?_, by rw [Go.mergeFrom, Python.mergeFrom]⟩
            rintro ⟨k, hk⟩
            simp at hk
        | cons t rest =>
            have hfive : FiveShort oneTerm (t :: rest) ↔ FiveShort oneTerm rest :=
              fiveShort_cons.trans (or_iff_right (by omega))
            rw [hfive, Go.mergeFrom_cons hone, Python.mergeFrom_cons hone]
            have hrest := ih _ (by rw [← hlength]; exact Nat.lt_succ_self _) rest rfl
            simpa using hrest

theorem ne_empty_of_joinsNext {tks : List String} (h : joinsNext oneTerm tks = true) :
    joined (tks.take 2) ≠ "" := by
  match tks, h with
  | a :: b :: rest, _ => exact @joined_ne_empty [a, b] Nat.one_lt_two

/-- No piece is filtered out at the end. -/
theorem filter_pieces {merge : List String → List String} {tks : List String}
    (hmerge : ∀ tks, ∀ piece ∈ merge tks, piece ≠ "") :
    (if joinsNext oneTerm tks then joined (tks.take 2) :: merge (tks.drop 2)
        else merge tks).filter (· != "") =
      (if joinsNext oneTerm tks then [joined (tks.take 2)] else []) ++
        merge (scanned oneTerm tks) := by
  unfold scanned
  split_ifs with hjoins
  · refine List.filter_eq_self.mpr (List.forall_mem_cons.mpr ⟨?_, fun piece hpiece => ?_⟩)
    · exact bne_iff_ne.mpr (ne_empty_of_joinsNext hjoins)
    · exact bne_iff_ne.mpr (hmerge _ piece hpiece)
  · exact List.filter_eq_self.mpr fun piece hpiece => bne_iff_ne.mpr (hmerge _ piece hpiece)

end

/-- The two versions give the same terms if and only if no five tokens in a row are short. -/
theorem tokenMerge_eq_iff (oneTerm : String → Bool) (tks : List String) :
    Go.tokenMerge oneTerm tks = Python.tokenMerge oneTerm tks ↔
      ¬ FiveShort oneTerm (scanned oneTerm tks) := by
  rw [Go.tokenMerge, Python.tokenMerge, filter_pieces Go.ne_empty_of_mem,
    filter_pieces Python.ne_empty_of_mem, List.append_cancel_left_eq]
  obtain ⟨hno, heq⟩ | ⟨hfive, hlt⟩ := mergeFrom_cases oneTerm (scanned oneTerm tks)
  · exact iff_of_true heq hno
  · refine iff_of_false (fun heq => ?_) (not_not.mpr hfive)
    rw [heq] at hlt
    exact lt_irrefl _ hlt

def sixShort : List String := ["a", "b", "c", "d", "e", "f"]

/-- Three pairs in Go, a pair and a run of four in Python. -/
theorem six_short_differ :
    Go.tokenMerge oneTerm sixShort = ["a b", "c d", "e f"] ∧
      Python.tokenMerge oneTerm sixShort = ["a b", "c d e f"] := by
  have hrun : Run oneTerm sixShort [] := ⟨by decide +kernel, nofun⟩
  constructor
  · have hgo := Go.mergeFrom_run hrun (by decide)
    rw [List.append_nil, Go.mergeFrom] at hgo
    rw [Go.tokenMerge, if_neg (by decide +kernel), hgo]
    decide +kernel
  · have hlong := Python.mergeFrom_long hrun (by decide)
    rw [Python.mergeFrom_run (hrun.drop 2) (by decide) (by decide), List.append_nil,
      Python.mergeFrom] at hlong
    rw [Python.tokenMerge, if_neg (by decide +kernel), hlong]
    decide +kernel

/-! ## The terms as groups of tokens -/

/-- `one_term`; `$` also matches in front of a last line break. -/
def Python.oneTerm (t : String) : Bool :=
  t.length == 1 || [1, 2].any fun n =>
    n ≤ t.length && (t.toList.take n).all (fun c => c.isDigit || c.isLower) &&
      (t.toList.drop n = [] || t.toList.drop n = ['\n'])

/-- `term.split(" ")`. -/
def splitSpaces (term : String) : List String := (term.toList.splitOn ' ').map String.ofList

/-- Terms that join groups of one to four tokens, which are all the tokens that are not empty. -/
structure Groups (tks terms : List String) (groups : List (List String)) : Prop where
  terms_eq : terms = groups.map joined
  flatten_eq : groups.flatten = tks.filter (· != "")
  ne_nil : ∀ g ∈ groups, g ≠ []
  length_le : ∀ g ∈ groups, g.length ≤ 4

section

variable {tks terms group : List String} {groups : List (List String)} {t : String}

theorem groups_nil : Groups [] [] [] := ⟨rfl, rfl, nofun, nofun⟩

/-- A group in front of the others. -/
theorem Groups.cons (h : Groups tks terms groups) (hne : ∀ t ∈ group, t ≠ "")
    (hnil : group ≠ []) (hlength : group.length ≤ 4) :
    Groups (group ++ tks) (joined group :: terms) (group :: groups) where
  terms_eq := by rw [h.terms_eq, List.map_cons]
  flatten_eq := by
    have hfilter : group.filter (· != "") = group :=
      List.filter_eq_self.mpr fun t ht => bne_iff_ne.mpr (hne t ht)
    rw [List.flatten_cons, h.flatten_eq, List.filter_append, hfilter]
  ne_nil := List.forall_mem_cons.mpr ⟨hnil, h.ne_nil⟩
  length_le := List.forall_mem_cons.mpr ⟨hlength, h.length_le⟩

theorem Groups.single (h : Groups tks terms groups) (t : String) :
    ∃ groups, Groups (t :: tks) ((if 0 < t.length then [t] else []) ++ terms) groups := by
  by_cases ht : t = ""
  · subst ht
    have hfilter : ("" :: tks).filter (· != "") = tks.filter (· != "") :=
      List.filter_cons_of_neg (by simp)
    exact ⟨groups, h.terms_eq, h.flatten_eq.trans hfilter.symm, h.ne_nil, h.length_le⟩
  · have hpos : 0 < t.length := by
      rw [Nat.pos_iff_ne_zero]
      exact mt String.length_eq_zero_iff.mp ht
    have hcons := h.cons (List.forall_mem_singleton.mpr ht) (List.cons_ne_nil t [])
      (Nat.le_add_left 1 3)
    have hjoined : joined [t] = t := String.intercalate_singleton
    rw [if_pos hpos]
    rw [hjoined] at hcons
    exact ⟨_, hcons⟩

theorem ne_empty_of_short {oneTerm : String → Bool} (h : short oneTerm t = true) : t ≠ "" := by
  simp only [short, Bool.and_eq_true, bne_iff_ne] at h
  exact h.1.1

/-- The loop groups the tokens that it goes over. -/
theorem Python.exists_groups (oneTerm : String → Bool) (tks : List String) :
    ∃ groups, Groups tks (Python.mergeFrom oneTerm tks) groups := by
  have hrun : ∀ t rest, ∀ t' ∈ (t :: rest).takeWhile (short oneTerm), t' ≠ "" :=
    fun t rest t' ht' => ne_empty_of_short (List.mem_takeWhile_imp ht')
  fun_induction Python.mergeFrom oneTerm tks with
  | case1 => exact ⟨[], groups_nil⟩
  | case2 t rest run htwo hfive ih =>
      obtain ⟨groups, hgroups⟩ := ih
      have hsplit : run ++ (t :: rest).drop run.length = t :: rest :=
        List.prefix_iff_eq_append.mp (List.takeWhile_prefix _)
      have hne : run ≠ [] := List.ne_nil_of_length_pos (Nat.zero_lt_of_lt htwo)
      have hcons := hgroups.cons (hrun t rest) hne (Nat.le_of_lt_succ hfive)
      rw [hsplit] at hcons
      exact ⟨_, hcons⟩
  | case3 t rest run htwo hfive ih =>
      obtain ⟨groups, hgroups⟩ := ih
      have hpair : (t :: rest).take 2 <+: run := by
        have hwhole : run <+: t :: rest := List.takeWhile_prefix (short oneTerm)
        rw [List.prefix_iff_eq_take.mp hwhole]
        exact List.take_prefix_take_left htwo
      have hshort : ∀ t' ∈ (t :: rest).take 2, t' ≠ "" := fun t' ht' =>
        hrun t rest t' (hpair.subset ht')
      have hcons := hgroups.cons hshort (List.cons_ne_nil t _) (by rw [List.length_take]; omega)
      rw [List.take_append_drop] at hcons
      exact ⟨_, hcons⟩
  | case4 t rest run hone ih =>
      obtain ⟨groups, hgroups⟩ := ih
      exact hgroups.single t

/-- No term is empty, and the first two tokens may be a group. -/
theorem Python.exists_groups_tokenMerge (tks : List String) :
    ∃ groups, Groups tks (Python.tokenMerge Python.oneTerm tks) groups := by
  rw [Python.tokenMerge, filter_pieces Python.ne_empty_of_mem]
  unfold scanned
  split_ifs with hjoins
  · obtain ⟨groups, hgroups⟩ := Python.exists_groups Python.oneTerm (tks.drop 2)
    match tks, hjoins with
    | a :: b :: rest, hjoins =>
        simp only [joinsNext, Bool.and_eq_true, decide_eq_true_eq] at hjoins
        have hpair : ∀ t ∈ [a, b], t ≠ "" := by
          refine List.forall_mem_cons.mpr ⟨?_, List.forall_mem_singleton.mpr ?_⟩
          · rintro rfl
            exact absurd hjoins.1 (by decide)
          · rintro rfl
            exact absurd hjoins.2.1 (by decide)
        exact ⟨_, hgroups.cons hpair (List.cons_ne_nil a _) (Nat.le_add_left 2 2)⟩
  · exact Python.exists_groups Python.oneTerm tks

theorem splitSpaces_joined {g : List String} (hne : g ≠ []) (hspace : ∀ t ∈ g, ' ' ∉ t.toList) :
    splitSpaces (joined g) = g := by
  have hsep : (" " : String).toList = [' '] := rfl
  rw [splitSpaces, joined, String.toList_intercalate, hsep, List.splitOn_intercalate]
  · rw [List.map_map]
    exact List.map_id'' (fun t => String.ofList_toList) g
  · intro l hl
    obtain ⟨t, ht, rfl⟩ := List.mem_map.mp hl
    exact hspace t ht
  · exact mt List.map_eq_nil_iff.mp hne

theorem Groups.flatMap_splitSpaces (h : Groups tks terms groups)
    (hspace : ∀ t ∈ tks, ' ' ∉ t.toList) :
    terms.flatMap splitSpaces = tks.filter (· != "") := by
  have hgroup : ∀ g ∈ groups, splitSpaces (joined g) = g := fun g hg =>
    splitSpaces_joined (h.ne_nil g hg) fun t ht => hspace t (by
      have hmem : t ∈ groups.flatten := List.mem_flatten.mpr ⟨g, hg, ht⟩
      rw [h.flatten_eq] at hmem
      exact (List.mem_filter.mp hmem).1)
  calc
    terms.flatMap splitSpaces = (groups.map fun g => splitSpaces (joined g)).flatten := by
      rw [h.terms_eq, List.flatMap_map, List.flatMap_def]
    _ = groups.flatten := by rw [List.map_congr_left hgroup, List.map_id']
    _ = tks.filter (· != "") := h.flatten_eq

/-- Each term joins up to four tokens, the groups are all tokens that are not empty, in order, and
splitting the terms at spaces gives these again. -/
theorem Python.tokenMerge_terms (tks : List String) :
    ∃ groups, Groups tks (Python.tokenMerge Python.oneTerm tks) groups ∧
      ((∀ t ∈ tks, ' ' ∉ t.toList) →
        (Python.tokenMerge Python.oneTerm tks).flatMap splitSpaces = tks.filter (· != "")) := by
  obtain ⟨groups, hgroups⟩ := Python.exists_groups_tokenMerge tks
  exact ⟨groups, hgroups, hgroups.flatMap_splitSpaces⟩

end

end RagflowMineru.Search
