import RagflowMineru.Library.Carrying
import RagflowMineru.MinerU.Otsl
import RagflowMineru.Search.MetaFilter
import Mathlib

/-!
# The value of a filter and the stored values

A stored value is compared with the value of the filter as the stored values before it
have left it: in lower case, evaluated as a literal, or both many times.
-/

namespace RagflowMineru.Search

open Library

variable {V D : Type}

namespace PyObjects

variable (py : PyObjects V)

/-! ## One stored value -/

/-- Whether the documents of a stored value are taken when the query value is `value`. -/
def takes (op : String) (value stored : V) : Bool :=
  match py.prepare op stored value with
  | none => false
  | some (input, value) => (py.matched op input value).getD false

/-- The query value for the stored values behind this one. -/
def carried (op : String) (value stored : V) : V :=
  match py.prepare op stored value with
  | none => value
  | some (_, value) => value

theorem filterOut_eq_gather (op : String) (v2docs : List (V × List D)) (value : V) :
    py.filterOut op v2docs value = gather (py.carried op) (py.takes op) value v2docs := by
  induction v2docs generalizing value with
  | nil => rfl
  | cons record v2docs ih =>
      obtain ⟨input, docids⟩ := record
      rw [filterOut, gather, takes, carried]
      rcases py.prepare op input value with _ | ⟨input, value⟩
      · exact ih _
      · dsimp only
        rw [← ih]
        split_ifs
        · rfl
        · rfl

/-- A value is a date if its text without blanks around it is one. -/
def isDateValue (value : V) : Bool :=
  py.isDate (py.strip (py.str value))

/-- What the query value can become: it is lowered, or evaluated if it is a literal and then
lowered, again and again until it is a date. -/
inductive Reread (value : V) : V → Prop
  | refl : Reread value value
  | lower {w : V} (hw : Reread value w) (hdate : ¬ py.isDateValue w) :
      Reread value (py.lowerStr w)
  | literal {w : V} (hw : Reread value w) (hdate : ¬ py.isDateValue w) :
      Reread value (py.lowerStr ((py.literalEval w).getD w))

/-- What is known of strings: `str` leaves them as they are, lowering and stripping do nothing
twice, and there are as many as you like that are literals, and that are not. -/
structure Lawful : Prop where
  str_ofStr : ∀ s, py.str (py.ofStr s) = s
  asStr_ofStr : ∀ s, py.asStr (py.ofStr s) = some s
  asList_ofStr : ∀ s, py.asList (py.ofStr s) = none
  lower_lower : ∀ s, py.lower (py.lower s) = py.lower s
  strip_strip : ∀ s, py.strip (py.strip s) = py.strip s
  literals : {s | (py.literalEval (py.ofStr s)).isSome}.Infinite
  names : {s | py.literalEval (py.ofStr s) = none}.Infinite

variable {py}

theorem lowerStr_ofStr (hpy : py.Lawful) (s : String) :
    py.lowerStr (py.ofStr s) = py.ofStr (py.lower s) := by
  rw [lowerStr, hpy.asStr_ofStr]

theorem lowerStr_lowerStr (hpy : py.Lawful) (v : V) :
    py.lowerStr (py.lowerStr v) = py.lowerStr v := by
  rcases hv : py.asStr v with _ | s
  · have hlower : py.lowerStr v = v := by rw [lowerStr, hv]
    rw [hlower, hlower]
  · have hlower : py.lowerStr v = py.ofStr (py.lower s) := by rw [lowerStr, hv]
    rw [hlower, lowerStr_ofStr hpy, hpy.lower_lower]

/-! ## What a stored value does to the query value -/

theorem prepare_of_not_comparison {op : String} (hop : op ∉ comparisons) (stored value : V) :
    py.prepare op stored value = some (py.lowerStr stored, py.lowerStr value) :=
  if_neg hop

/-- The date as a string. -/
def dateStr (py : PyObjects V) (value : V) : V :=
  py.ofStr (py.strip (py.str value))

theorem prepare_of_date {op : String} (hop : op ∈ comparisons) {value : V}
    (hdate : py.isDateValue value) (stored : V) :
    py.prepare op stored value =
      if py.isDateValue stored then some (py.dateStr stored, py.dateStr value) else none := by
  rw [prepare, if_pos hop]
  exact if_pos hdate

theorem prepare_of_not_date {op : String} (hop : op ∈ comparisons) {value : V}
    (hdate : ¬ py.isDateValue value) (stored : V) :
    py.prepare op stored value =
      some (py.lowerStr (py.evalLiterals stored value).1,
        py.lowerStr (py.evalLiterals stored value).2) := by
  rw [prepare, if_pos hop]
  exact if_neg hdate

/-- A stored value leaves the query value or evaluates it. -/
theorem evalLiterals_value (stored value : V) :
    (py.evalLiterals stored value).2 = value ∨
      (py.evalLiterals stored value).2 = (py.literalEval value).getD value := by
  have hpair : ∀ input : V, (py.literalPair input value).2 = value ∨
      (py.literalPair input value).2 = (py.literalEval value).getD value := by
    intro input
    rw [literalPair]
    split
    · exact Or.inl rfl
    · exact Or.inr rfl
  rw [evalLiterals]
  split
  · exact Or.inl rfl
  · exact hpair _
  · exact hpair _

/-- What is evaluated of a stored value is no matter of the query value. -/
theorem evalLiterals_input (stored value value' : V) :
    (py.evalLiterals stored value).1 = (py.evalLiterals stored value').1 := by
  have hpair : ∀ input : V, (py.literalPair input value).1 = (py.literalPair input value').1 := by
    intro input
    rw [literalPair, literalPair]
    split <;> rfl
  rw [evalLiterals, evalLiterals]
  split
  · rfl
  · exact hpair _
  · exact hpair _

theorem strip_str_dateStr (hpy : py.Lawful) (value : V) :
    py.strip (py.str (py.dateStr value)) = py.strip (py.str value) := by
  rw [dateStr, hpy.str_ofStr, hpy.strip_strip]

/-- A date is compared in the same way once its blanks are stripped. -/
theorem prepare_dateStr (hpy : py.Lawful) {op : String} (hop : op ∈ comparisons) {value : V}
    (hdate : py.isDateValue value) (stored : V) :
    py.prepare op stored (py.dateStr value) = py.prepare op stored value := by
  have hstrip := strip_str_dateStr hpy value
  have hdate' : py.isDateValue (py.dateStr value) := by rwa [isDateValue, hstrip]
  have hsame : py.dateStr (py.dateStr value) = py.dateStr value := congrArg py.ofStr hstrip
  rw [prepare_of_date hop hdate', prepare_of_date hop hdate, hsame]

variable (py) in
/-- What the query value is when a stored value is looked at. -/
def Left (value c : V) : Prop :=
  py.Reread value c ∨ ∃ w, py.Reread value w ∧ py.isDateValue w ∧ c = py.dateStr w

theorem Left.carried (hpy : py.Lawful) {op : String} (hop : op ∈ comparisons) {value c : V}
    (h : py.Left value c) (stored : V) : py.Left value (py.carried op c stored) := by
  have hdated : ∀ w, py.Reread value w → py.isDateValue w →
      py.Left value (py.carried op w stored) := by
    intro w hw hdate
    rw [PyObjects.carried, prepare_of_date hop hdate]
    by_cases hstored : py.isDateValue stored
    · rw [if_pos hstored]
      exact Or.inr ⟨w, hw, hdate, rfl⟩
    · rw [if_neg hstored]
      exact Or.inl hw
  rcases h with hc | ⟨w, hw, hdate, rfl⟩
  · by_cases hdate : py.isDateValue c
    · exact hdated c hc hdate
    · rw [PyObjects.carried, prepare_of_not_date hop hdate]
      dsimp only
      rcases evalLiterals_value stored c with heq | heq
      · rw [heq]
        exact Or.inl (hc.lower hdate)
      · rw [heq]
        exact Or.inl (hc.literal hdate)
  · rw [PyObjects.carried, prepare_dateStr hpy hop hdate]
    rw [prepare_of_date hop hdate]
    by_cases hstored : py.isDateValue stored
    · rw [if_pos hstored]
      exact Or.inr ⟨w, hw, hdate, rfl⟩
    · rw [if_neg hstored]
      exact Or.inr ⟨w, hw, hdate, rfl⟩

/-- The stored values one after the other leave a value that is read again. -/
theorem left_foldl (hpy : py.Lawful) {op : String} (hop : op ∈ comparisons) (value : V)
    (pre : List V) : py.Left value (pre.foldl (py.carried op) value) := by
  induction pre using List.reverseRecOn with
  | nil => exact Or.inl .refl
  | append_singleton pre stored ih =>
      rw [List.foldl_append]
      exact ih.carried hpy hop stored

/-! ## Stored values for every reading -/

theorem exists_fresh (hpy : py.Lawful) {texts : Set String} (h : texts.Infinite) (l : List V) :
    ∃ s ∈ texts, py.ofStr s ∉ l := by
  have hinj : Function.Injective py.ofStr := by
    intro s t heq
    have hstr := congrArg py.str heq
    rwa [hpy.str_ofStr, hpy.str_ofStr] at hstr
  have hfinite : (Set.preimage py.ofStr {v | v ∈ l}).Finite :=
    (List.finite_toSet l).preimage hinj.injOn
  obtain ⟨s, hs, hfresh⟩ := (h.sdiff hfinite).nonempty
  exact ⟨s, hs, hfresh⟩

/-- Everything the query value can become is left by some stored values, other than a given one. -/
theorem Reread.exists_foldl (hpy : py.Lawful) {op : String} (hop : op ∈ comparisons) {value w : V}
    (h : py.Reread value w) (stored : V) :
    ∃ pre : List V, (pre ++ [stored]).Nodup ∧ pre.foldl (py.carried op) value = w := by
  have hconcat : ∀ (pre : List V) (a : V), (pre ++ [stored]).Nodup → a ∉ pre ++ [stored] →
      ((pre ++ [a]) ++ [stored]).Nodup := by
    intro pre a hnodup hfresh
    rw [List.append_assoc, List.singleton_append, List.nodup_middle, List.nodup_cons]
    exact ⟨hfresh, hnodup⟩
  induction h with
  | refl => exact ⟨[], List.nodup_singleton stored, rfl⟩
  | @lower w _ hdate ih =>
      obtain ⟨pre, hnodup, hpre⟩ := ih
      obtain ⟨s, hs, hfresh⟩ := exists_fresh hpy hpy.names (pre ++ [stored])
      refine ⟨pre ++ [py.ofStr s], hconcat pre _ hnodup hfresh, ?_⟩
      rw [List.foldl_append, hpre, List.foldl_cons, List.foldl_nil, carried,
        prepare_of_not_date hop hdate, evalLiterals, hpy.asList_ofStr]
      dsimp only
      rw [literalPair, show py.literalEval (py.ofStr s) = none from hs]
  | @literal w _ hdate ih =>
      obtain ⟨pre, hnodup, hpre⟩ := ih
      obtain ⟨s, hs, hfresh⟩ := exists_fresh hpy hpy.literals (pre ++ [stored])
      obtain ⟨input, hinput⟩ := Option.isSome_iff_exists.mp hs
      refine ⟨pre ++ [py.ofStr s], hconcat pre _ hnodup hfresh, ?_⟩
      rw [List.foldl_append, hpre, List.foldl_cons, List.foldl_nil, carried,
        prepare_of_not_date hop hdate, evalLiterals, hpy.asList_ofStr]
      dsimp only
      rw [literalPair, hinput]

/-! ## The law -/

variable (py D) in
/-- Whether the documents of a stored value are returned depends on that value alone. -/
def ValuesIndependent (op : String) (value : V) : Prop :=
  ∃ kept : V → Bool, ∀ v2docs : List (V × List D), (v2docs.map Prod.fst).Nodup →
    py.filterOut op v2docs value =
      v2docs.flatMap fun record => if kept record.1 then record.2 else []

variable (py) in
/-- No stored value is compared differently with the query value when this is read again. -/
def ReadsAlike (op : String) (value : V) : Prop :=
  op ∈ comparisons → ∀ w, py.Reread value w → ∀ stored,
    py.takes op w stored = py.takes op value stored

theorem valuesIndependent_iff [Inhabited D] (hpy : py.Lawful) (op : String) (value : V) :
    py.ValuesIndependent D op value ↔ py.ReadsAlike op value := by
  have hgather : py.ValuesIndependent D op value ↔
      Independent (py.carried op) (py.takes op) D value := by
    simp only [ValuesIndependent, Independent, filterOut_eq_gather]
  rw [hgather, independent_iff]
  by_cases hop : op ∈ comparisons
  · constructor
    · intro h _ w hw stored
      obtain ⟨pre, hnodup, hpre⟩ := hw.exists_foldl hpy hop stored
      rw [← hpre]
      exact h pre stored hnodup
    · intro h pre stored _
      rcases left_foldl hpy hop value pre with hw | ⟨w, hw, hdate, heq⟩
      · exact h hop _ hw stored
      · rw [heq, takes, prepare_dateStr hpy hop hdate]
        exact h hop w hw stored
  · have hlower : ∀ w stored, py.takes op (py.lowerStr w) stored = py.takes op w stored := by
      intro w stored
      rw [takes, takes, prepare_of_not_comparison hop, prepare_of_not_comparison hop,
        lowerStr_lowerStr hpy]
    have hsame : ∀ (pre : List V) stored, py.takes op (pre.foldl (py.carried op) value) stored =
        py.takes op value stored := by
      intro pre stored
      induction pre using List.reverseRecOn with
      | nil => rfl
      | append_singleton pre other ih =>
          rw [List.foldl_append, List.foldl_cons, List.foldl_nil, carried,
            prepare_of_not_comparison hop]
          exact (hlower _ stored).trans ih
    exact iff_of_true (fun pre stored _ => hsame pre stored) (fun hop' => absurd hop' hop)

/-- A query value that is no literal, in either case, is never compared differently. -/
theorem readsAlike_of_not_literal (hpy : py.Lawful) (op : String) {value : V}
    (h : py.literalEval value = none) (hlower : py.literalEval (py.lowerStr value) = none)
    (hdate : py.isDateValue (py.lowerStr value) = py.isDateValue value) :
    py.ReadsAlike op value := by
  intro hop w hw stored
  by_cases hvalue : py.isDateValue value
  · have hsame : w = value := by
      induction hw with
      | refl => rfl
      | lower _ hnot ih => exact absurd (ih ▸ hvalue) hnot
      | literal _ hnot ih => exact absurd (ih ▸ hvalue) hnot
    rw [hsame]
  · have hreads : w = value ∨ w = py.lowerStr value := by
      induction hw with
      | refl => exact Or.inl rfl
      | lower _ _ ih =>
          rcases ih with rfl | rfl
          · exact Or.inr rfl
          · exact Or.inr (lowerStr_lowerStr hpy value)
      | literal _ _ ih =>
          rcases ih with rfl | rfl
          · exact Or.inr (by rw [h, Option.getD_none])
          · exact Or.inr (by rw [hlower, Option.getD_none, lowerStr_lowerStr hpy])
    have hinput : ∀ v, (py.evalLiterals stored v).1 = (py.evalLiterals stored value).1 :=
      fun v => evalLiterals_input stored v value
    have hsecond : ∀ v, py.literalEval v = none → (py.evalLiterals stored v).2 = v := by
      intro v hv
      rcases evalLiterals_value stored v with heq | heq
      · exact heq
      · rw [heq, hv, Option.getD_none]
    rcases hreads with rfl | rfl
    · rfl
    · rw [takes, takes, prepare_of_not_date hop (by rwa [hdate]), prepare_of_not_date hop hvalue,
        hinput, hsecond value h, hsecond _ hlower, lowerStr_lowerStr hpy]

end PyObjects

/-! ## Strings and integers -/

/-- A string or an integer. -/
inductive Scalar where
  | str (s : String)
  | num (n : ℤ)
  deriving DecidableEq

def quote : Char :=
  Char.ofNat 39

/-- A text between two quotes, without quotes and backslashes in it, or digits. -/
def Scalar.literalEval : Scalar → Option Scalar
  | num _ => none
  | str s =>
      let inner := (s.toList.drop 1).dropLast
      if s.toList = quote :: inner ++ [quote] ∧ quote ∉ inner ∧ Char.ofNat 92 ∉ inner then
        some (str (String.ofList inner))
      else if s ≠ "" ∧ s.toList.all Char.isDigit ∧ (s.toList.head? ≠ some '0' ∨ s = "0") then
        some (num (s.toList.foldl (fun n c => 10 * n + (c.toNat - '0'.toNat)) 0))
      else none

def Scalar.compare (texts : String → String → Bool) (numbers : ℤ → ℤ → Bool) :
    Scalar → Scalar → Option Bool
  | str s, str t => some (texts s t)
  | num m, num n => some (numbers m n)
  | _, _ => none

/-- Python's operations on strings and integers. -/
def scalars : PyObjects Scalar where
  str
    | .str s => s
    | .num n => toString n
  ofStr := .str
  asStr
    | .str s => some s
    | .num _ => none
  asList _ := none
  truthy
    | .str s => s ≠ ""
    | .num n => n ≠ 0
  literalEval := Scalar.literalEval
  isIn := Scalar.compare (fun s t => s.toList <:+: t.toList) fun _ _ => false
  eq a b := some (a = b)
  ne a b := some (a ≠ b)
  gt := Scalar.compare (fun s t => t < s) fun m n => n < m
  lt := Scalar.compare (fun s t => s < t) fun m n => m < n
  ge := Scalar.compare (fun s t => ¬ s < t) fun m n => n ≤ m
  le := Scalar.compare (fun s t => ¬ t < s) fun m n => m ≤ n
  lower s := String.ofList (s.toList.map Char.toLower)
  strip s := String.ofList (MinerU.strip s.toList)
  isdigit s := s ≠ "" && s.toList.all Char.isDigit

theorem scalars_lawful : scalars.Lawful where
  str_ofStr _ := rfl
  asStr_ofStr _ := rfl
  asList_ofStr _ := rfl
  lower_lower s := by
    have hchar : ∀ c : Char, c.toLower.toLower = c.toLower := by
      intro c
      simp only [Char.toLower]
      split
      · split
        · next h1 h2 =>
          simp only [UInt32.le_iff_toNat_le, UInt32.toNat_add, seval] at h1 h2
          omega
        · simp
      · rfl
    simp only [scalars, String.toList_ofList, List.map_map]
    exact congrArg String.ofList (List.map_congr_left fun c _ => hchar c)
  strip_strip s := by
    simp only [scalars, String.toList_ofList, MinerU.strip_strip]
  literals := by
    refine Set.infinite_of_injective_forall_mem
      (f := fun n => String.ofList (quote :: List.replicate n 'a' ++ [quote])) ?_ fun n => ?_
    · intro m n heq
      have hlength := congrArg (fun s : String => s.toList.length) heq
      simpa using hlength
    · have hquote : quote ∉ List.replicate n 'a' := by simp [quote]
      have hslash : Char.ofNat 92 ∉ List.replicate n 'a' := by simp
      have hinner : ((quote :: List.replicate n 'a' ++ [quote]).drop 1).dropLast =
          List.replicate n 'a' := by simp
      rw [Set.mem_ofPred_eq]
      dsimp only [scalars, Scalar.literalEval]
      rw [String.toList_ofList, hinner, if_pos ⟨rfl, hquote, hslash⟩]
      rfl
  names := by
    refine Set.infinite_of_injective_forall_mem
      (f := fun n => String.ofList (List.replicate (n + 1) 'a')) ?_ fun n => ?_
    · intro m n heq
      have hlength := congrArg (fun s : String => s.toList.length) heq
      simpa using hlength
    · rw [Set.mem_ofPred_eq]
      dsimp only [scalars, Scalar.literalEval]
      rw [String.toList_ofList, List.replicate_succ, if_neg, if_neg]
      · simp
      · intro h
        have hhead := (List.cons.inj h.1).1
        exact absurd hhead (by decide)

/-- Whether a word is greater than a number that is written. -/
theorem valuesIndependent_iff_scalars :
    scalars.ValuesIndependent ℕ ">" (.str "3") ↔ scalars.ReadsAlike ">" (.str "3") :=
  PyObjects.valuesIndependent_iff scalars_lawful ">" (.str "3")

/-- Alone `abc` is greater than `3`, but behind `5` it is compared with the number 3. -/
theorem not_valuesIndependent :
    ¬ ∀ op value, scalars.ValuesIndependent ℕ op value := by
  intro h
  obtain ⟨kept, hkept⟩ := h ">" (.str "3")
  have halone := hkept [(.str "abc", [1])] (by decide)
  have hbehind := hkept [(.str "5", []), (.str "abc", [1])] (by decide)
  have hone : scalars.filterOut ">" [(Scalar.str "abc", [1])] (.str "3") = [1] := by decide
  have hnone : scalars.filterOut ">" [(Scalar.str "5", []), (.str "abc", [1])] (.str "3") =
      ([] : List ℕ) := by decide
  rw [hone] at halone
  rw [hnone] at hbehind
  cases hkeep : kept (.str "abc") <;> simp [hkeep] at halone hbehind

end RagflowMineru.Search
