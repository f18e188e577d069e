import RagflowMineru.Library.Tiling

/-!
# Reading an HTML table

The reader knows the tags `table`, `tr` and `td` and the spans of a `td`.  The
content of a `td` goes up to the next tag, so it is read back when it has no `<`.
-/

namespace RagflowMineru.Library.Html

/-- What follows `p` at the beginning of a text. -/
def after (p s : List Char) : Option (List Char) :=
  if p <+: s then some (s.drop p.length) else none

/-! ## Writing -/

def spanAttr (name : List Char) (n : ℕ) : List Char :=
  if n > 1 then ' ' :: name ++ "=\"".toList ++ Nat.toDigits 10 n ++ "\"".toList else []

def writeTd (td : Td (List Char)) : List Char :=
  "<td".toList ++ spanAttr "rowspan".toList td.rowspan ++
    spanAttr "colspan".toList td.colspan ++ ">".toList ++ td.content ++ "</td>".toList

def writeRow (tds : List (Td (List Char))) : List Char :=
  "<tr>".toList ++ tds.flatMap writeTd ++ "</tr>".toList

def writeTable (rows : List (List (Td (List Char)))) : List Char :=
  "<table>".toList ++ rows.flatMap writeRow ++ "</table>".toList

/-! ## Reading -/

/-- A span attribute that may be missing. -/
def readSpan (name s : List Char) : Option (ℕ × List Char) :=
  match after (' ' :: name ++ "=\"".toList) s with
  | none => some (1, s)
  | some s =>
      let digits := s.takeWhile Char.isDigit
      (after "\"".toList (s.drop digits.length)).map fun s => (Nat.ofDigitChars 10 digits 0, s)

def readTd (s : List Char) : Option (Td (List Char) × List Char) := do
  let s ← after "<td".toList s
  let (rowspan, s) ← readSpan "rowspan".toList s
  let (colspan, s) ← readSpan "colspan".toList s
  let s ← after ">".toList s
  let content := s.takeWhile (· ≠ '<')
  let s ← after "</td>".toList (s.drop content.length)
  some (⟨rowspan, colspan, content⟩, s)

/-- At most so many cells, up to the end of the row. -/
def readTds : ℕ → List Char → Option (List (Td (List Char)) × List Char)
  | 0, _ => none
  | n + 1, s =>
      match after "</tr>".toList s with
      | some s => some ([], s)
      | none => do
          let (td, s) ← readTd s
          let (tds, s) ← readTds n s
          some (td :: tds, s)

/-- At most so many rows, up to the end of the table. -/
def readRows : ℕ → List Char → Option (List (List (Td (List Char))) × List Char)
  | 0, _ => none
  | n + 1, s =>
      match after "</table>".toList s with
      | some s => some ([], s)
      | none => do
          let s ← after "<tr>".toList s
          let (tds, s) ← readTds s.length s
          let (rows, s) ← readRows n s
          some (tds :: rows, s)

/-- The rows of a text that is a table. -/
def readTable (s : List Char) : Option (List (List (Td (List Char)))) := do
  let s ← after "<table>".toList s
  let (rows, s) ← readRows s.length s
  if s = [] then some rows else none

/-! ## Reading what was written -/

theorem after_append (p s : List Char) : after p (p ++ s) = some s := by
  rw [after, if_pos (List.prefix_append p s), List.drop_left]

theorem after_eq_none {p s : List Char} (h : ¬ p <+: s) : after p s = none := if_neg h

/-- A text does not begin with `p` when `p` differs from its beginning. -/
theorem not_prefix_append {p q : List Char} (r : List Char) (hpq : ¬ p <+: q) (hqp : ¬ q <+: p) :
    ¬ p <+: q ++ r := by
  intro h
  rcases List.prefix_or_prefix_of_prefix h (List.prefix_append q r) with hin | hin
  · exact hpq hin
  · exact hqp hin

theorem readSpan_spanAttr {name : List Char} {n : ℕ} (hn : 0 < n) {s : List Char}
    (hs : ¬ (' ' :: name ++ "=\"".toList) <+: s) :
    readSpan name (spanAttr name n ++ s) = some (n, s) := by
  by_cases hspan : n > 1
  · have htake : (Nat.toDigits 10 n ++ ('"' :: s)).takeWhile Char.isDigit = Nat.toDigits 10 n := by
      rw [List.takeWhile_append_of_pos fun c hc =>
        Nat.isDigit_of_mem_toDigits (by decide) le_rfl hc]
      simp
    have hafter : after (' ' :: name ++ "=\"".toList) (spanAttr name n ++ s) =
        some (Nat.toDigits 10 n ++ ('"' :: s)) := by
      rw [spanAttr, if_pos hspan, List.append_assoc, List.append_assoc, after_append]
      rfl
    rw [readSpan, hafter]
    simp only [htake, List.drop_left]
    rw [show ('"' :: s) = "\"".toList ++ s from rfl, after_append, Option.map_some,
      Nat.ofDigitChars_ten_toDigits]
  · rw [readSpan, spanAttr, if_neg hspan, List.nil_append, after_eq_none hs]
    simp only [show n = 1 by omega]

/-- A cell that is read back: its spans are positive, and no tag begins in its content. -/
def Readable (td : Td (List Char)) : Prop :=
  0 < td.rowspan ∧ 0 < td.colspan ∧ '<' ∉ td.content

theorem writeTd_append (td : Td (List Char)) (s : List Char) :
    writeTd td ++ s = "<td".toList ++ (spanAttr "rowspan".toList td.rowspan ++
      (spanAttr "colspan".toList td.colspan ++
        (">".toList ++ (td.content ++ ("</td>".toList ++ s))))) := by
  delta writeTd
  simp only [List.append_assoc]

theorem writeTd_ne_nil (td : Td (List Char)) : writeTd td ≠ [] := by
  intro h
  have hnil := writeTd_append td []
  rw [h] at hnil
  exact absurd hnil.symm (List.append_ne_nil_of_left_ne_nil (by decide) _)

theorem writeRow_append (tds : List (Td (List Char))) (s : List Char) :
    writeRow tds ++ s = "<tr>".toList ++ (tds.flatMap writeTd ++ ("</tr>".toList ++ s)) := by
  delta writeRow
  simp only [List.append_assoc]

theorem writeRow_ne_nil (tds : List (Td (List Char))) : writeRow tds ≠ [] := by
  intro h
  have hnil := writeRow_append tds []
  rw [h] at hnil
  exact absurd hnil.symm (List.append_ne_nil_of_left_ne_nil (by decide) _)

theorem readTd_writeTd {td : Td (List Char)} (htd : Readable td) (s : List Char) :
    readTd (writeTd td ++ s) = some (td, s) := by
  obtain ⟨hrow, hcol, hcontent⟩ := htd
  have htag : ∀ name : List Char, ¬ (' ' :: name ++ "=\"".toList) <+:
      ">".toList ++ (td.content ++ ("</td>".toList ++ s)) := by
    intro name hin
    exact absurd (List.cons_prefix_cons.mp hin).1 (by decide)
  have hcolspan : ¬ (' ' :: "rowspan".toList ++ "=\"".toList) <+:
      spanAttr "colspan".toList td.colspan ++
        (">".toList ++ (td.content ++ ("</td>".toList ++ s))) := by
    rw [spanAttr]
    split
    · rw [List.append_assoc, List.append_assoc]
      exact not_prefix_append _ (by decide) (by decide)
    · exact htag _
  have hclose : (td.content ++ ("</td>".toList ++ s)).takeWhile (· ≠ '<') = td.content := by
    rw [List.takeWhile_append_of_pos fun c hc => decide_eq_true (ne_of_mem_of_not_mem hc hcontent)]
    simp
  rw [writeTd_append]
  simp only [readTd, after_append, Option.bind_eq_bind, Option.bind_some]
  rw [readSpan_spanAttr hrow hcolspan]
  simp only [Option.bind_some]
  rw [readSpan_spanAttr hcol (htag _)]
  simp only [Option.bind_some, after_append, hclose, List.drop_left]

theorem length_le_flatMap {α β : Type*} {f : α → List β} (hf : ∀ a, f a ≠ []) (l : List α) :
    l.length ≤ (l.flatMap f).length := by
  induction l with
  | nil => exact Nat.zero_le _
  | cons a l ih =>
      have hpos := List.length_pos_of_ne_nil (hf a)
      rw [List.flatMap_cons, List.length_append, List.length_cons]
      omega

theorem readTds_flatMap {tds : List (Td (List Char))} (htds : ∀ td ∈ tds, Readable td) {n : ℕ}
    (hn : tds.length < n) (s : List Char) :
    readTds n (tds.flatMap writeTd ++ ("</tr>".toList ++ s)) = some (tds, s) := by
  induction tds generalizing n with
  | nil =>
      obtain ⟨n, rfl⟩ := Nat.exists_eq_succ_of_ne_zero (Nat.ne_zero_of_lt hn)
      rw [List.flatMap_nil, List.nil_append, readTds, after_append]
  | cons td tds ih =>
      obtain ⟨n, rfl⟩ := Nat.exists_eq_succ_of_ne_zero (Nat.ne_zero_of_lt hn)
      have hrest := ih (fun td' h => htds td' (List.mem_cons_of_mem td h))
        (Nat.lt_of_succ_lt_succ hn)
      have hopen : ¬ "</tr>".toList <+: writeTd td ++ (tds.flatMap writeTd ++
          ("</tr>".toList ++ s)) := by
        rw [writeTd_append]
        exact not_prefix_append _ (by decide) (by decide)
      rw [List.flatMap_cons, List.append_assoc, readTds, after_eq_none hopen]
      simp only [readTd_writeTd (htds td List.mem_cons_self), hrest, Option.bind_eq_bind,
        Option.bind_some]

theorem readRows_flatMap {rows : List (List (Td (List Char)))}
    (hrows : ∀ tds ∈ rows, ∀ td ∈ tds, Readable td) {n : ℕ} (hn : rows.length < n)
    (s : List Char) :
    readRows n (rows.flatMap writeRow ++ ("</table>".toList ++ s)) = some (rows, s) := by
  induction rows generalizing n with
  | nil =>
      obtain ⟨n, rfl⟩ := Nat.exists_eq_succ_of_ne_zero (Nat.ne_zero_of_lt hn)
      rw [List.flatMap_nil, List.nil_append, readRows, after_append]
  | cons tds rows ih =>
      obtain ⟨n, rfl⟩ := Nat.exists_eq_succ_of_ne_zero (Nat.ne_zero_of_lt hn)
      have hrest := ih (fun tds' h => hrows tds' (List.mem_cons_of_mem tds h))
        (Nat.lt_of_succ_lt_succ hn)
      have hopen : ¬ "</table>".toList <+: "<tr>".toList ++ (tds.flatMap writeTd ++
          ("</tr>".toList ++ (rows.flatMap writeRow ++ ("</table>".toList ++ s)))) :=
        not_prefix_append _ (by decide) (by decide)
      have htds : ∀ r, readTds (tds.flatMap writeTd ++ ("</tr>".toList ++ r)).length
          (tds.flatMap writeTd ++ ("</tr>".toList ++ r)) = some (tds, r) := by
        intro r
        refine readTds_flatMap (hrows tds List.mem_cons_self) ?_ r
        have hle := length_le_flatMap writeTd_ne_nil tds
        rw [List.length_append, List.length_append]
        have hpos : 0 < "</tr>".toList.length := by decide
        omega
      rw [List.flatMap_cons, List.append_assoc, writeRow_append, readRows, after_eq_none hopen]
      simp only [after_append, htds, hrest, Option.bind_eq_bind, Option.bind_some]

theorem readTable_writeTable {rows : List (List (Td (List Char)))}
    (hrows : ∀ tds ∈ rows, ∀ td ∈ tds, Readable td) :
    readTable (writeTable rows) = some rows := by
  have hread : ∀ r, readRows (rows.flatMap writeRow ++ ("</table>".toList ++ r)).length
      (rows.flatMap writeRow ++ ("</table>".toList ++ r)) = some (rows, r) := by
    intro r
    refine readRows_flatMap hrows ?_ r
    have hle := length_le_flatMap writeRow_ne_nil rows
    rw [List.length_append, List.length_append]
    have hpos : 0 < "</table>".toList.length := by decide
    omega
  have hend := hread []
  rw [List.append_nil "</table>".toList] at hend
  unfold readTable writeTable
  rw [List.append_assoc, after_append, Option.bind_eq_bind, Option.bind_some, hend,
    Option.bind_eq_bind, Option.bind_some]
  exact if_pos rfl

end RagflowMineru.Library.Html
