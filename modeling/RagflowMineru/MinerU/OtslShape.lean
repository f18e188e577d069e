import Mathlib.Data.List.MinMax
import RagflowMineru.MinerU.OtslErrors

/-!
# The shape of OTSL that the parts are read in step with

The rows of tokens are made of lines that are not empty, but the parts are used up
one line break at a time: an empty line, or a text that no cell takes, leaves the
parts behind the rows, and they do not catch up.  No text is then found for a filled
cell further on.
-/

namespace RagflowMineru.MinerU

open Library

/-! ## Tokens with the texts behind them -/

abbrev Pairs : Type := List (Otsl × List Char)

/-- Behind a filled cell there is a text.  A line break with a filled cell behind it stands
behind a token of its row, and is not followed by a text; `start` is set where a row begins. -/
def WellFilled : Bool → Pairs → Prop
  | _, [] => True
  | start, (token, text) :: rest =>
      (token = .fcel → strip text ≠ []) ∧
        (token = .nl → Otsl.fcel ∈ rest.map Prod.fst → start = false ∧ strip text = []) ∧
        WellFilled (token = .nl) rest

/-- The same, for a whole text: no text stands in front of the first token either. -/
def WellShaped (otslContent : List Char) : Prop :=
  (Otsl.fcel ∈ (splitAll Otsl.text Otsl.all otslContent).2.map Prod.fst →
    strip (splitAll Otsl.text Otsl.all otslContent).1 = []) ∧
    WellFilled true (splitAll Otsl.text Otsl.all otslContent).2

def foundText (s : List Char) : Option (List Char) := if strip s = [] then none else some s

/-- The parts that are kept of a token with what follows it. -/
def pairParts (p : Otsl × List Char) : List OtslPart :=
  cellParts (p.1, foundText p.2)

theorem otslExtractTokensAndText_eq (s : List Char) :
    otslExtractTokensAndText s =
      ((splitAll Otsl.text Otsl.all s).2.map Prod.fst,
        ((foundText (splitAll Otsl.text Otsl.all s).1).map OtslPart.text).toList ++
          (splitAll Otsl.text Otsl.all s).2.flatMap pairParts) := by
  have htext : ∀ t : List Char, [OtslPart.text t].filter (strip ·.str ≠ []) =
      ((foundText t).map OtslPart.text).toList := by
    intro t
    have hstr : (OtslPart.text t).str = t := rfl
    rw [foundText, List.filter_singleton, hstr]
    by_cases ht : strip t = []
    · simp [ht]
    · simp [ht]
  have hpair : ∀ p : Otsl × List Char,
      [OtslPart.token p.1, OtslPart.text p.2].filter (strip ·.str ≠ []) = pairParts p := by
    intro p
    have htoken : strip (OtslPart.token p.1).str ≠ [] := strip_text_ne_nil p.1
    rw [List.filter_cons, if_pos (decide_eq_true htoken), htext]
    rfl
  rw [otslExtractTokensAndText]
  refine Prod.ext rfl ?_
  simp only
  rw [← List.singleton_append, List.filter_append, htext, List.filter_flatMap]
  exact congrArg _ (List.flatMap_congr fun p _ => hpair p)

/-! ## Rows of pairs -/

section Rows

variable {row p : Pairs} {text : List Char}

theorem exists_row (p : Pairs) :
    ∃ row : Pairs, Otsl.nl ∉ row.map Prod.fst ∧
      (p = row ∨ ∃ text rest, p = row ++ (.nl, text) :: rest) := by
  induction p with
  | nil => exact ⟨[], by simp, .inl rfl⟩
  | cons first p ih =>
    obtain ⟨token, text⟩ := first
    by_cases hnl : token = .nl
    · exact ⟨[], by simp, .inr ⟨text, p, by rw [hnl]; rfl⟩⟩
    · obtain ⟨row, hrow, hp⟩ := ih
      refine ⟨(token, text) :: row, ?_, ?_⟩
      · rw [List.map_cons, List.mem_cons, not_or]
        exact ⟨fun h => hnl h.symm, hrow⟩
      · rcases hp with rfl | ⟨text', rest, rfl⟩
        · exact .inl rfl
        · exact .inr ⟨text', rest, rfl⟩

/-- Induction on the rows: an empty line, the last row, or a row with its line break. -/
theorem rows_induction {motive : Pairs → Prop} (nil : motive [])
    (line : ∀ text p, motive p → motive ((.nl, text) :: p))
    (last : ∀ row, row ≠ [] → Otsl.nl ∉ row.map Prod.fst → motive row)
    (row : ∀ row text p, row ≠ [] → Otsl.nl ∉ row.map Prod.fst → motive p →
      motive (row ++ (.nl, text) :: p)) (p : Pairs) : motive p := by
  induction hn : p.length using Nat.strong_induction_on generalizing p with
  | _ n ih =>
    subst hn
    obtain ⟨first, hnl, rfl | ⟨text, rest, rfl⟩⟩ := exists_row p
    · by_cases hne : p = []
      · rw [hne]
        exact nil
      · exact last p hne hnl
    · have hrest := ih rest.length (by simp; omega) rest rfl
      by_cases hne : first = []
      · rw [hne]
        exact line text rest hrest
      · exact row first text rest hne hnl hrest

theorem nl_ne_of_mem {tokens : List Otsl} (h : Otsl.nl ∉ tokens) :
    ∀ token ∈ tokens, decide (token = .nl) = false := fun _ htoken =>
  decide_eq_false (ne_of_mem_of_not_mem htoken h)

theorem splitRowTokens_line (tokens : List Otsl) :
    splitRowTokens (.nl :: tokens) = splitRowTokens tokens := by
  rw [splitRowTokens, ← List.nil_append (Otsl.nl :: tokens),
    List.splitOnP_append_cons_of_forall_mem (by simp) _ (by decide), List.filter_cons_of_neg (by simp),
    splitRowTokens]

theorem splitRowTokens_last {tokens : List Otsl} (hne : tokens ≠ []) (hnl : Otsl.nl ∉ tokens) :
    splitRowTokens tokens = [tokens] := by
  rw [splitRowTokens, List.splitOnP_eq_singleton (nl_ne_of_mem hnl), List.filter_singleton]
  simp [hne]

theorem splitRowTokens_row {tokens : List Otsl} (hne : tokens ≠ []) (hnl : Otsl.nl ∉ tokens)
    (rest : List Otsl) :
    splitRowTokens (tokens ++ .nl :: rest) = tokens :: splitRowTokens rest := by
  rw [splitRowTokens, List.splitOnP_append_cons_of_forall_mem (nl_ne_of_mem hnl) _ (by decide),
    List.filter_cons, if_pos (by simpa using hne), splitRowTokens]

/-- The rows hold every token but the line breaks. -/
theorem flatten_splitRowTokens (tokens : List Otsl) :
    (splitRowTokens tokens).flatten = tokens.filter (· ≠ .nl) := by
  rw [splitRowTokens, List.flatten_filter_ne_nil, flatten_splitOnP]
  exact List.filter_congr fun token _ => (decide_not ..).symm

end Rows

/-! ## Well-shaped rows -/

section WellFilled

variable {start : Bool} {row p : Pairs} {text : List Char}

theorem wellFilled_of_notMem (h : Otsl.fcel ∉ p.map Prod.fst) : WellFilled start p := by
  induction p generalizing start with
  | nil => exact trivial
  | cons first p ih =>
    rw [List.map_cons, List.mem_cons, not_or] at h
    exact ⟨fun hfirst => absurd hfirst.symm h.1, fun _ hmem => absurd hmem h.2, ih h.2⟩

/-- An empty line is harmless only behind the last filled cell. -/
theorem wellFilled_line_iff :
    WellFilled true ((.nl, text) :: p) ↔ Otsl.fcel ∉ p.map Prod.fst := by
  constructor
  · rintro ⟨-, hline, -⟩ hmem
    cases (hline rfl hmem).1
  · intro h
    exact ⟨fun hnl => absurd hnl (by decide), fun _ hmem => absurd hmem h, wellFilled_of_notMem h⟩

/-- Every filled cell of a row has its text. -/
def RowFilled (row : Pairs) : Prop := ∀ first ∈ row, first.1 = .fcel → strip first.2 ≠ []

theorem rowFilled_cons {first : Otsl × List Char} :
    RowFilled (first :: row) ↔ (first.1 = .fcel → strip first.2 ≠ []) ∧ RowFilled row :=
  List.forall_mem_cons

theorem wellFilled_row_iff (hnl : Otsl.nl ∉ row.map Prod.fst) :
    WellFilled start row ↔ RowFilled row := by
  induction row generalizing start with
  | nil => simp [WellFilled, RowFilled]
  | cons first row ih =>
    obtain ⟨token, text⟩ := first
    rw [List.map_cons, List.mem_cons, not_or] at hnl
    have htoken : token ≠ .nl := fun h => hnl.1 h.symm
    rw [WellFilled, ih hnl.2, rowFilled_cons]
    exact ⟨fun h => ⟨h.1, h.2.2⟩, fun h => ⟨h.1, fun h' => absurd h' htoken, h.2⟩⟩

theorem wellFilled_append_iff (hne : row ≠ []) (hnl : Otsl.nl ∉ row.map Prod.fst) :
    WellFilled start (row ++ (.nl, text) :: p) ↔
      RowFilled row ∧ (Otsl.fcel ∈ p.map Prod.fst → strip text = []) ∧ WellFilled true p := by
  induction row generalizing start with
  | nil => exact absurd rfl hne
  | cons first row ih =>
    obtain ⟨token, text'⟩ := first
    rw [List.map_cons, List.mem_cons, not_or] at hnl
    have htoken : token ≠ .nl := fun h => hnl.1 h.symm
    have htail : WellFilled (token = .nl) (row ++ (.nl, text) :: p) ↔
        RowFilled row ∧ (Otsl.fcel ∈ p.map Prod.fst → strip text = []) ∧ WellFilled true p := by
      by_cases hrow : row = []
      · rw [hrow, List.nil_append, WellFilled]
        simp [RowFilled, htoken]
      · exact ih hrow hnl.2
    rw [List.cons_append, WellFilled, htail, rowFilled_cons]
    exact ⟨fun h => ⟨⟨h.1, h.2.2.1⟩, h.2.2.2⟩,
      fun h => ⟨h.1.1, fun h' => absurd h' htoken, h.1.2, h.2⟩⟩

end WellFilled

/-! ## What is found for the rows -/

def padTo (w : ℕ) (rows : List (List Otsl)) : List (List Otsl) :=
  rows.map (·.rightpad w .ecel)

theorem count_flatten_padTo (w : ℕ) (rows : List (List Otsl)) :
    (padTo w rows).flatten.count .fcel = rows.flatten.count .fcel := by
  induction rows with
  | nil => rfl
  | cons row rows ih =>
    rw [padTo] at ih ⊢
    rw [List.map_cons, List.flatten_cons, List.flatten_cons, List.count_append, ih,
      List.rightpad, List.count_append, List.count_replicate, List.count_append]
    rfl

theorem mem_flatten_padTo {w : ℕ} {rows : List (List Otsl)} :
    Otsl.fcel ∈ (padTo w rows).flatten ↔ Otsl.fcel ∈ rows.flatten := by
  rw [← List.count_pos_iff, ← List.count_pos_iff, count_flatten_padTo]

theorem mem_flatten_splitRowTokens {p : Pairs} :
    Otsl.fcel ∈ (splitRowTokens (p.map Prod.fst)).flatten ↔ Otsl.fcel ∈ p.map Prod.fst := by
  rw [flatten_splitRowTokens, List.mem_filter]
  exact and_iff_left (by decide)

section Found

variable {row p : Pairs} {rows : List (List Otsl)} {texts rest : List OtslPart}

theorem filled_cons {first : List (Otsl × Option (List Char))}
    {found : List (List (Otsl × Option (List Char)))} :
    Filled (first :: found) ↔ (Otsl.fcel, none) ∉ first ∧ Filled found :=
  List.forall_mem_cons

theorem filled_of_notMem (h : Otsl.fcel ∉ rows.flatten) : Filled (takeRows rows texts) := by
  intro first hfirst hmem
  apply h
  rw [← takeRows_tokens rows texts, List.mem_flatten]
  exact ⟨_, List.mem_map_of_mem hfirst, List.mem_map_of_mem hmem⟩

/-- Nothing is found while another part stands in front. -/
theorem takeRow_skip {tokens : List Otsl}
    (h : ∀ token ∈ tokens, texts.head? ≠ some (.token token)) :
    takeRow tokens texts = (tokens.map (·, none), texts) := by
  induction tokens with
  | nil => rfl
  | cons token tokens ih =>
    have htake := takeToken_other (h token List.mem_cons_self)
    rw [takeRow, htake, ih fun token' h' => h token' (List.mem_cons_of_mem token h'),
      List.map_cons]

/-- A text that no cell takes is never passed. -/
theorem filled_stuck_iff (text : List Char) (rest : List OtslPart) :
    Filled (takeRows rows (.text text :: rest)) ↔ Otsl.fcel ∉ rows.flatten := by
  refine ⟨fun h hmem => ?_, filled_of_notMem⟩
  induction rows with
  | nil => cases hmem
  | cons tokens rows ih =>
    rw [takeRows, takeRow_skip (by simp), filled_cons] at h
    rw [List.flatten_cons, List.mem_append] at hmem
    rcases hmem with hmem | hmem
    · exact h.1 (List.mem_map_of_mem hmem)
    · exact ih h.2 hmem

theorem takeToken_pairParts {token : Otsl} {text : List Char}
    (hrest : ∀ text, rest.head? ≠ some (.text text)) :
    takeToken token (pairParts (token, text) ++ rest) = (foundText text, rest) := by
  rw [pairParts]
  cases foundText text with
  | some text => exact takeToken_text token text rest
  | none => exact takeToken_self hrest

/-- A row takes its own parts. -/
theorem takeRow_pairs (hrest : ∀ text, rest.head? ≠ some (.text text)) (more : List Otsl) :
    takeRow (row.map Prod.fst ++ more) (row.flatMap pairParts ++ rest) =
      (row.map (fun p => (p.1, foundText p.2)) ++ (takeRow more rest).1,
        (takeRow more rest).2) := by
  induction row with
  | nil => rfl
  | cons first row ih =>
    have hnext : ∀ text, (row.flatMap pairParts ++ rest).head? ≠ some (.text text) := by
      cases row with
      | nil => exact hrest
      | cons second row => simp [pairParts, cellParts]
    rw [List.flatMap_cons, List.map_cons, List.cons_append, List.append_assoc, takeRow,
      takeToken_pairParts hnext, ih]
    rfl

theorem takeRow_rightpad (hrest : ∀ part, rest.head? = some part → part = .token .nl) (w : ℕ) :
    takeRow ((row.map Prod.fst).rightpad w .ecel) (row.flatMap pairParts ++ rest) =
      (row.map (fun p => (p.1, foundText p.2)) ++
        (List.replicate (w - (row.map Prod.fst).length) Otsl.ecel).map (·, none), rest) := by
  have hskip : ∀ token ∈ List.replicate (w - (row.map Prod.fst).length) Otsl.ecel,
      rest.head? ≠ some (.token token) := by
    intro token htoken hhead
    have hpart := hrest _ hhead
    rw [List.eq_of_mem_replicate htoken] at hpart
    cases hpart
  have hnext : ∀ text, rest.head? ≠ some (.text text) := by
    intro text hhead
    have hpart := hrest _ hhead
    cases hpart
  rw [List.rightpad, takeRow_pairs hnext, takeRow_skip hskip]

theorem notMem_found_iff (n : ℕ) :
    (Otsl.fcel, none) ∉ row.map (fun p => (p.1, foundText p.2)) ++
        (List.replicate n Otsl.ecel).map (·, (none : Option (List Char))) ↔ RowFilled row := by
  rw [List.map_replicate, List.mem_append, not_or, and_iff_left (by simp)]
  constructor
  · intro h first hfirst hfcel hstrip
    apply h
    rw [List.mem_map]
    exact ⟨first, hfirst, by rw [hfcel, foundText, if_pos hstrip]⟩
  · intro h hmem
    obtain ⟨first, hfirst, heq⟩ := List.mem_map.mp hmem
    obtain ⟨hfcel, hnone⟩ := Prod.mk.inj heq
    rw [foundText, if_neg (h first hfirst hfcel)] at hnone
    cases hnone

end Found

/-! ## The parts do not catch up -/

def partTokens (texts : List OtslPart) : List Otsl :=
  texts.filterMap fun
    | .token token => some token
    | .text _ => none

/-- The line breaks in front of the last filled cell. -/
def breaksBefore : List Otsl → ℕ
  | [] => 0
  | token :: tokens =>
      if .fcel ∈ tokens then (if token = .nl then 1 else 0) + breaksBefore tokens else 0

/-- The rows above the last one with a filled cell. -/
def rowsAbove : List (List Otsl) → ℕ
  | [] => 0
  | _ :: rows => if .fcel ∈ rows.flatten then 1 + rowsAbove rows else 0

theorem breaksBefore_of_notMem {tokens : List Otsl} (h : Otsl.fcel ∉ tokens) :
    breaksBefore tokens = 0 := by
  cases tokens with
  | nil => rfl
  | cons token tokens => exact if_neg fun hmem => h (List.mem_cons_of_mem token hmem)

theorem breaksBefore_append {used tokens : List Otsl} (h : Otsl.nl ∉ used) :
    breaksBefore (used ++ tokens) = breaksBefore tokens := by
  induction used with
  | nil => rfl
  | cons token used ih =>
    rw [List.mem_cons, not_or] at h
    have htoken : token ≠ .nl := fun heq => h.1 heq.symm
    rw [List.cons_append, breaksBefore, ih h.2, if_neg htoken, Nat.zero_add]
    by_cases hmem : Otsl.fcel ∈ used ++ tokens
    · rw [if_pos hmem]
    · rw [if_neg hmem, breaksBefore_of_notMem fun h' => hmem (List.mem_append_right used h')]

theorem rowsAbove_padTo (w : ℕ) (rows : List (List Otsl)) :
    rowsAbove (padTo w rows) = rowsAbove rows := by
  induction rows with
  | nil => rfl
  | cons row rows ih =>
    have hmem := @mem_flatten_padTo w rows
    rw [padTo] at ih hmem ⊢
    rw [List.map_cons, rowsAbove, rowsAbove, ih]
    simp only [hmem]

theorem takeToken_used (token : Otsl) (texts : List OtslPart) :
    ∃ used, partTokens texts = used ++ partTokens (takeToken token texts).2 ∧
      (used = [] ∧ (takeToken token texts).1 = none ∨ used = [token]) := by
  rcases texts with _ | ⟨token' | text, texts⟩
  · exact ⟨[], rfl, .inl ⟨rfl, rfl⟩⟩
  · by_cases heq : token' = token
    · refine ⟨[token], ?_, .inr rfl⟩
      rw [heq]
      rcases texts with _ | ⟨token'' | text, texts⟩
      · rw [takeToken_self (by simp)]
        rfl
      · rw [takeToken_self (by simp)]
        rfl
      · rw [takeToken_text]
        rfl
    · rw [takeToken_other (by simpa using heq)]
      exact ⟨[], rfl, .inl ⟨rfl, rfl⟩⟩
  · exact ⟨[], rfl, .inl ⟨rfl, rfl⟩⟩

/-- A row uses tokens of its own kinds, and a filled cell of the parts for each filled cell that
it finds the text of. -/
theorem takeRow_used {row : List Otsl} {texts : List OtslPart} (hnl : Otsl.nl ∉ row)
    (hfilled : (Otsl.fcel, none) ∉ (takeRow row texts).1) :
    ∃ used, partTokens texts = used ++ partTokens (takeRow row texts).2 ∧ Otsl.nl ∉ used ∧
      used.count .fcel = row.count .fcel := by
  induction row generalizing texts with
  | nil => exact ⟨[], rfl, by simp, rfl⟩
  | cons token row ih =>
    rw [List.mem_cons, not_or] at hnl
    rw [takeRow, List.mem_cons, not_or] at hfilled
    obtain ⟨first, hfirst, hone⟩ := takeToken_used token texts
    obtain ⟨used, hused, hfree, hcount⟩ := ih hnl.2 hfilled.2
    refine ⟨first ++ used, ?_, ?_, ?_⟩
    · rw [takeRow, List.append_assoc, ← hused, hfirst]
    · rcases hone with ⟨rfl, -⟩ | rfl
      · exact hfree
      · exact List.not_mem_cons_of_ne_of_not_mem hnl.1 hfree
    · rw [List.count_append, hcount]
      rcases hone with ⟨rfl, hnone⟩ | rfl
      · have hne : token ≠ .fcel := fun heq => hfilled.1 (by rw [heq] at hnone ⊢; rw [hnone])
        rw [List.count_cons_of_ne hne, List.count_nil, Nat.zero_add]
      · rw [← List.count_append, List.singleton_append]

theorem skipNl_tokens (texts : List OtslPart) :
    partTokens texts = partTokens (skipNl texts) ∨
      partTokens texts = .nl :: partTokens (skipNl texts) := by
  rcases texts with _ | ⟨token | text, texts⟩
  · exact .inl rfl
  · cases token with
    | nl => exact .inr rfl
    | fcel => exact .inl rfl
    | ecel => exact .inl rfl
    | lcel => exact .inl rfl
    | ucel => exact .inl rfl
    | xcel => exact .inl rfl
  · exact .inl rfl

theorem skipNl_spec (texts : List OtslPart) :
    (partTokens texts).count .fcel = (partTokens (skipNl texts)).count .fcel ∧
      breaksBefore (partTokens texts) ≤ 1 + breaksBefore (partTokens (skipNl texts)) := by
  rcases skipNl_tokens texts with h | h
  · rw [h]
    exact ⟨rfl, Nat.le_add_left _ 1⟩
  · rw [h, breaksBefore]
    refine ⟨List.count_cons_of_ne (by decide), ?_⟩
    split
    · rfl
    · exact Nat.zero_le _

/-- Each row uses one line break at most, and each filled cell uses its own. -/
theorem breaksBefore_le_rowsAbove {rows : List (List Otsl)} {texts : List OtslPart}
    (hnl : Otsl.nl ∉ rows.flatten)
    (hcount : (partTokens texts).count .fcel = rows.flatten.count .fcel)
    (hfilled : Filled (takeRows rows texts)) :
    breaksBefore (partTokens texts) ≤ rowsAbove rows := by
  induction rows generalizing texts with
  | nil =>
    have hnone : Otsl.fcel ∉ partTokens texts := List.count_eq_zero.mp hcount
    rw [breaksBefore_of_notMem hnone]
    rfl
  | cons row rows ih =>
    rw [List.flatten_cons, List.mem_append, not_or] at hnl
    rw [takeRows, filled_cons] at hfilled
    obtain ⟨used, hused, hfree, hrow⟩ := takeRow_used hnl.1 hfilled.1
    obtain ⟨hsame, hbreaks⟩ := skipNl_spec (takeRow row texts).2
    rw [hused, List.flatten_cons, List.count_append, List.count_append, hrow] at hcount
    have hrest : (partTokens (takeRow row texts).2).count .fcel = rows.flatten.count .fcel :=
      Nat.add_left_cancel hcount
    rw [hused, breaksBefore_append hfree, rowsAbove]
    by_cases hmem : Otsl.fcel ∈ rows.flatten
    · rw [if_pos hmem]
      exact hbreaks.trans (Nat.add_le_add_left (ih hnl.2 (hsame.symm.trans hrest) hfilled.2) 1)
    · rw [if_neg hmem, breaksBefore_of_notMem]
      rwa [← List.count_eq_zero, hrest, List.count_eq_zero]

/-- The rows stand at least as many line breaks apart. -/
theorem rowsAbove_le_breaksBefore (p : Pairs) :
    rowsAbove (splitRowTokens (p.map Prod.fst)) ≤ breaksBefore (p.map Prod.fst) := by
  induction p using rows_induction with
  | nil => exact Nat.le_refl 0
  | line text p ih =>
    rw [List.map_cons, splitRowTokens_line, breaksBefore]
    by_cases hmem : Otsl.fcel ∈ p.map Prod.fst
    · rw [if_pos hmem]
      exact ih.trans (Nat.le_add_left _ _)
    · rw [breaksBefore_of_notMem hmem] at ih
      exact ih.trans (Nat.zero_le _)
  | last row hne hnl =>
    rw [splitRowTokens_last (by simpa using hne) hnl]
    exact Nat.zero_le _
  | row row text p hne hnl ih =>
    rw [List.map_append, List.map_cons, splitRowTokens_row (by simpa using hne) hnl,
      breaksBefore_append hnl, rowsAbove, breaksBefore, if_pos rfl]
    simp only [mem_flatten_splitRowTokens]
    by_cases hmem : Otsl.fcel ∈ p.map Prod.fst
    · rw [if_pos hmem, if_pos hmem]
      exact Nat.add_le_add_left ih 1
    · rw [if_neg hmem, if_neg hmem]

/-! ## Filled rows are well-shaped rows -/

theorem partTokens_pairs (p : Pairs) : partTokens (p.flatMap pairParts) = p.map Prod.fst := by
  have hone : ∀ first : Otsl × List Char, partTokens (pairParts first) = [first.1] := by
    intro first
    rw [pairParts]
    cases foundText first.2 with
    | none => rfl
    | some text => rfl
  induction p with
  | nil => rfl
  | cons first p ih =>
    have happend : partTokens (pairParts first ++ p.flatMap pairParts) =
        partTokens (pairParts first) ++ partTokens (p.flatMap pairParts) :=
      List.filterMap_append
    rw [List.flatMap_cons, happend, ih, hone]
    rfl

theorem nl_notMem_padTo (w : ℕ) (tokens : List Otsl) :
    Otsl.nl ∉ (padTo w (splitRowTokens tokens)).flatten := by
  rw [List.mem_flatten]
  rintro ⟨padded, hpadded, hmem⟩
  obtain ⟨row, hrow, rfl⟩ := List.mem_map.mp hpadded
  rw [List.rightpad, List.mem_append] at hmem
  rcases hmem with hmem | hmem
  · have hflat := List.mem_flatten.mpr ⟨row, hrow, hmem⟩
    rw [flatten_splitRowTokens, List.mem_filter] at hflat
    exact absurd hflat.2 (by decide)
  · exact absurd (List.eq_of_mem_replicate hmem) (by decide)

/-- Behind an empty line nothing is in step any more. -/
theorem not_filled_line {w : ℕ} {text : List Char} {p : Pairs}
    (hmem : Otsl.fcel ∈ p.map Prod.fst) :
    ¬ Filled (takeRows (padTo w (splitRowTokens (((Otsl.nl, text) :: p).map Prod.fst)))
      (((Otsl.nl, text) :: p).flatMap pairParts)) := by
  intro hfilled
  have hcount : (partTokens (((Otsl.nl, text) :: p).flatMap pairParts)).count .fcel =
      (padTo w (splitRowTokens (((Otsl.nl, text) :: p).map Prod.fst))).flatten.count .fcel := by
    rw [partTokens_pairs, count_flatten_padTo, flatten_splitRowTokens,
      List.count_filter (by decide)]
  have hle := breaksBefore_le_rowsAbove (nl_notMem_padTo w _) hcount hfilled
  rw [partTokens_pairs, rowsAbove_padTo, List.map_cons, splitRowTokens_line, breaksBefore,
    if_pos hmem, if_pos rfl] at hle
  have hrows := rowsAbove_le_breaksBefore p
  omega

theorem filled_iff (w : ℕ) (p : Pairs) :
    Filled (takeRows (padTo w (splitRowTokens (p.map Prod.fst))) (p.flatMap pairParts)) ↔
      WellFilled true p := by
  induction p using rows_induction with
  | nil => exact iff_of_true (by simp [Filled, takeRows, padTo, splitRowTokens]) trivial
  | line text p ih =>
    rw [wellFilled_line_iff]
    constructor
    · exact fun hfilled hmem => not_filled_line hmem hfilled
    · intro hnot
      rw [List.map_cons, splitRowTokens_line]
      exact filled_of_notMem fun hmem =>
        hnot (mem_flatten_splitRowTokens.mp (mem_flatten_padTo.mp hmem))
  | last row hne hnl =>
    have htake := @takeRow_rightpad row [] (by simp) w
    rw [List.append_nil] at htake
    rw [wellFilled_row_iff hnl, splitRowTokens_last (by simpa using hne) hnl, padTo,
      List.map_singleton, takeRows, htake, filled_cons, notMem_found_iff]
    exact and_iff_left (by simp [Filled, takeRows])
  | row row text p hne hnl ih =>
    have htake := @takeRow_rightpad row (pairParts (.nl, text) ++ p.flatMap pairParts)
      (fun part hpart => (Option.some.inj hpart).symm) w
    have hskip : skipNl (pairParts (.nl, text) ++ p.flatMap pairParts) =
        ((foundText text).map OtslPart.text).toList ++ p.flatMap pairParts := rfl
    rw [wellFilled_append_iff hne hnl, List.map_append, List.map_cons,
      splitRowTokens_row (by simpa using hne) hnl, padTo, List.map_cons, ← padTo,
      List.flatMap_append, List.flatMap_cons, takeRows, htake, filled_cons, notMem_found_iff, hskip]
    refine and_congr_right fun _ => ?_
    by_cases hstrip : strip text = []
    · rw [foundText, if_pos hstrip]
      exact ih.trans ⟨fun h => ⟨fun _ => hstrip, h⟩, fun h => h.2⟩
    · have hstuck := @filled_stuck_iff (padTo w (splitRowTokens (p.map Prod.fst))) text
        (p.flatMap pairParts)
      rw [mem_flatten_padTo, mem_flatten_splitRowTokens] at hstuck
      rw [foundText, if_neg hstrip]
      exact hstuck.trans
        ⟨fun hnot => ⟨fun hmem => absurd hmem hnot, wellFilled_of_notMem hnot⟩,
          fun h hmem => hstrip (h.1 hmem)⟩

/-! ## Tables without an error -/

/-- The table is converted without an error, and its cells have no tokens in their texts. -/
def Robust (otslContent : List Char) : Prop :=
  ∃ table, tryTableData otslContent = .ok table ∧
    tryConvertOtslToHtml otslContent = .ok (exportToHtml table) ∧
    ∀ cell ∈ table.tableCells, Free cell.text

theorem robust_iff_exists {otslContent : List Char} :
    Robust otslContent ↔ ∃ r,
      tryOtslParseTexts (otslExtractTokensAndText otslContent).2
        (otslExtractTokensAndText otslContent).1 = .ok r ∧ ∀ cell ∈ r.1, Free cell.text := by
  constructor
  · rintro ⟨table, htable, -, hfree⟩
    obtain ⟨r, hr, htable⟩ := bind_eq_ok htable
    refine ⟨r, hr, ?_⟩
    rw [← Except.ok.inj htable] at hfree
    exact hfree
  · rintro ⟨r, hr, hfree⟩
    have htable : tryTableData otslContent =
        .ok { numRows := r.2.length, numCols := maxCols r.2, tableCells := r.1 } := by
      change (tryOtslParseTexts (otslExtractTokensAndText otslContent).2
        (otslExtractTokensAndText otslContent).1 >>= _) = _
      rw [hr]
      rfl
    exact ⟨_, htable, by rw [tryConvertOtslToHtml, htable]; rfl, hfree⟩

theorem length_of_mem_padRows {rows : List (List Otsl)} :
    ∀ row ∈ padRows rows, row.length = maxCols rows := by
  intro padded hpadded
  obtain ⟨row, hrow, rfl⟩ := List.mem_map.mp hpadded
  have hle : row.length ≤ maxCols rows :=
    List.le_max_of_le' _ (List.mem_map_of_mem hrow) le_rfl
  rw [List.rightpad, List.length_append, List.length_replicate]
  omega

theorem tryOtslCells_of_nl {rows : List (List Otsl)} {rIdx cIdx : ℕ} {texts : List OtslPart}
    (h : ∀ token ∈ partTokens texts, token = .nl) :
    tryOtslCells rows rIdx cIdx texts = .ok [] := by
  induction texts generalizing rIdx cIdx with
  | nil => rfl
  | cons part texts ih =>
    cases part with
    | text text => exact ih h
    | token token =>
      have htokens : partTokens (.token token :: texts) = token :: partTokens texts := rfl
      rw [htokens, List.forall_mem_cons] at h
      rw [h.1]
      exact ih h.2

section Texts

variable {text : List Char}

/-- What is found stands in the text. -/
theorem takeToken_mem {token : Otsl} {texts : List OtslPart} :
    (takeToken token texts).2 <:+ texts ∧
      ((takeToken token texts).1 = some text → .text text ∈ texts) := by
  by_cases hhead : texts.head? = some (.token token)
  · rcases texts with _ | ⟨part, texts⟩
    · cases hhead
    · obtain rfl := Option.some.inj hhead
      rcases texts with _ | ⟨token' | text', rest⟩
      · rw [takeToken_self (by simp)]
        exact ⟨List.suffix_cons _ _, fun h => by cases h⟩
      · rw [takeToken_self (by simp)]
        exact ⟨List.suffix_cons _ _, fun h => by cases h⟩
      · rw [takeToken_text]
        refine ⟨(List.suffix_cons _ _).trans (List.suffix_cons _ _), fun h => ?_⟩
        rw [Option.some.inj h]
        simp
  · rw [takeToken_other hhead]
    exact ⟨List.suffix_rfl, fun h => by cases h⟩

theorem takeRow_mem {row : List Otsl} {texts : List OtslPart} :
    (takeRow row texts).2 <:+ texts ∧
      ∀ p ∈ (takeRow row texts).1, p.2 = some text → .text text ∈ texts := by
  induction row generalizing texts with
  | nil => exact ⟨List.suffix_rfl, by simp [takeRow]⟩
  | cons token row ih =>
    obtain ⟨hfirst, hfound⟩ := @takeToken_mem text token texts
    obtain ⟨hsuffix, hrest⟩ := @ih (takeToken token texts).2
    rw [takeRow, List.forall_mem_cons]
    exact ⟨hsuffix.trans hfirst, hfound, fun p hp h => hfirst.subset (hrest p hp h)⟩

theorem skipNl_suffix (texts : List OtslPart) : skipNl texts <:+ texts := by
  unfold skipNl
  split
  · exact List.suffix_cons _ _
  · exact List.suffix_rfl

theorem takeRows_mem {rows : List (List Otsl)} {texts : List OtslPart} :
    ∀ row ∈ takeRows rows texts, ∀ p ∈ row, p.2 = some text → .text text ∈ texts := by
  induction rows generalizing texts with
  | nil => simp [takeRows]
  | cons row rows ih =>
    obtain ⟨hsuffix, hrow⟩ := @takeRow_mem text row texts
    have hskip := skipNl_suffix (takeRow row texts).2
    rw [takeRows, List.forall_mem_cons]
    exact ⟨hrow, fun row' hrow' p hp h =>
      (hskip.trans hsuffix).subset (ih row' hrow' p hp h)⟩

end Texts

/-- In the parts of a text there are no tokens but those it was split at. -/
theorem free_of_text_mem {otslContent text : List Char}
    (h : .text text ∈ (otslExtractTokensAndText otslContent).2) : Free text := by
  obtain ⟨hfront, hbehind⟩ := @splitAll_free _ _ _ Otsl.text Otsl.all
    (fun token _ => (isTag_text token).ne_nil) otslContent
  have hmem := List.mem_of_mem_filter h
  rw [List.mem_cons, List.mem_flatMap] at hmem
  rcases hmem with heq | ⟨p, hp, hmem⟩
  · cases heq
    exact fun token => hfront token (mem_all token)
  · have heq : text = p.2 := by simpa using hmem
    rw [heq]
    exact fun token => hbehind p hp token (mem_all token)

/-- The texts found for the rows are those of the text, if and only if its shape is right. -/
theorem filled_iff_wellShaped (otslContent : List Char) (w : ℕ) :
    Filled (takeRows
        (padTo w (splitRowTokens (otslExtractTokensAndText otslContent).1))
        (otslExtractTokensAndText otslContent).2) ↔ WellShaped otslContent := by
  rw [otslExtractTokensAndText_eq, WellShaped]
  generalize (splitAll Otsl.text Otsl.all otslContent).2 = pairs
  generalize (splitAll Otsl.text Otsl.all otslContent).1 = text
  by_cases hstrip : strip text = []
  · rw [foundText, if_pos hstrip]
    exact (filled_iff w pairs).trans (and_iff_right fun _ => hstrip).symm
  · have hstuck := @filled_stuck_iff (padTo w (splitRowTokens (pairs.map Prod.fst))) text
      (pairs.flatMap pairParts)
    rw [mem_flatten_padTo, mem_flatten_splitRowTokens] at hstuck
    rw [foundText, if_neg hstrip]
    exact hstuck.trans ⟨fun hnot => ⟨fun hmem => absurd hmem hnot, wellFilled_of_notMem hnot⟩,
      fun h hmem => hstrip (h.1 hmem)⟩

/-- The parts become cells without tokens in their texts, if and only if a text is found for
every filled cell. -/
theorem tryOtslParseTexts_free_iff {texts : List OtslPart}
    (hfree : ∀ text, .text text ∈ texts → Free text) :
    (∃ r, tryOtslParseTexts texts (partTokens texts) = .ok r ∧
        ∀ cell ∈ r.1, Free cell.text) ↔
      Filled (takeRows (padRows (splitRowTokens (partTokens texts))) texts) := by
  have hparse : (∃ r, tryOtslParseTexts texts (partTokens texts) = .ok r ∧
      ∀ cell ∈ r.1, Free cell.text) ↔
      ∃ cells, tryOtslCells (padRows (splitRowTokens (partTokens texts))) 0 0
        (if padRows (splitRowTokens (partTokens texts)) = [] then texts
          else padTexts (padRows (splitRowTokens (partTokens texts))) texts) = .ok cells ∧
        ∀ cell ∈ cells, Free cell.text := by
    constructor
    · rintro ⟨r, hr, hcells⟩
      obtain ⟨cells, hread, hr⟩ := bind_eq_ok hr
      rw [← Except.ok.inj hr] at hcells
      exact ⟨cells, hread, hcells⟩
    · rintro ⟨cells, hread, hcells⟩
      refine ⟨(cells, padRows (splitRowTokens (partTokens texts))), ?_, hcells⟩
      rw [tryOtslParseTexts, hread]
      rfl
  rw [hparse]
  by_cases hrows : padRows (splitRowTokens (partTokens texts)) = []
  · have hflat := flatten_splitRowTokens (partTokens texts)
    rw [List.map_eq_nil_iff.mp hrows, List.flatten_nil, eq_comm, List.filter_eq_nil_iff] at hflat
    have hnl : ∀ token ∈ partTokens texts, token = .nl := fun token htoken => by
      simpa using hflat token htoken
    rw [if_pos hrows, hrows]
    exact iff_of_true ⟨[], tryOtslCells_of_nl hnl, by simp⟩ (by simp [Filled, takeRows])
  · rw [if_neg hrows, padTexts_eq]
    have htokens := takeRows_tokens (padRows (splitRowTokens (partTokens texts))) texts
    refine tryOtslCells_free_iff length_of_mem_padRows htokens (fun row hrow p hp hp' => ?_)
      fun row hrow p hp text htext => hfree text (takeRows_mem row hrow p hp htext)
    apply nl_notMem_padTo (maxCols (splitRowTokens (partTokens texts))) (partTokens texts)
    have hpad : padTo (maxCols (splitRowTokens (partTokens texts)))
        (splitRowTokens (partTokens texts)) =
          padRows (splitRowTokens (partTokens texts)) := rfl
    rw [hpad, ← htokens, List.mem_flatten, ← hp']
    exact ⟨_, List.mem_map_of_mem hrow, List.mem_map_of_mem hp⟩

/-- A text is converted without an error, to cells without tokens in their texts, if and only
if its shape is right. -/
theorem robust_iff (otslContent : List Char) :
    Robust otslContent ↔ WellShaped otslContent := by
  have htokens : (otslExtractTokensAndText otslContent).1 =
      partTokens (otslExtractTokensAndText otslContent).2 := by
    rw [otslExtractTokensAndText_eq]
    generalize (splitAll Otsl.text Otsl.all otslContent).2 = pairs
    refine (partTokens_pairs pairs).symm.trans ?_
    cases foundText (splitAll Otsl.text Otsl.all otslContent).1 <;> rfl
  have hshape := filled_iff_wellShaped otslContent
    (maxCols (splitRowTokens (otslExtractTokensAndText otslContent).1))
  rw [robust_iff_exists, ← hshape, htokens]
  exact tryOtslParseTexts_free_iff fun text => free_of_text_mem

/-- A filled cell without a text shows the token behind it. -/
theorem not_robust_blank : ¬ Robust "<fcel><fcel>a<nl>".toList := by
  rintro ⟨table, htable, -, hfree⟩
  have hcells : (tryTableData "<fcel><fcel>a<nl>".toList).map (·.tableCells.map (·.text)) =
      .ok ["<fcel>".toList, "a".toList] := by decide
  rw [htable] at hcells
  have htexts : table.tableCells.map (·.text) = ["<fcel>".toList, "a".toList] :=
    Except.ok.inj hcells
  have htext : "<fcel>".toList ∈ table.tableCells.map (·.text) := by
    rw [htexts]
    exact List.mem_cons_self
  obtain ⟨cell, hcell, heq⟩ := List.mem_map.mp htext
  exact hfree cell hcell .fcel (heq ▸ List.infix_rfl)

example : tryConvertOtslToHtml "<fcel><nl><lcel>".toList = .error indexError := by decide

end RagflowMineru.MinerU
