import RagflowMineru.Document.TaskReuse
import RagflowMineru.Library.Markers
import RagflowMineru.Library.Templates
import Mathlib.Data.Finset.Union

/-!
# Citations in bad formats

A model may write citations in other brackets, with blanks or as `ref 12`.  Four patterns are looked
for in a copy of the answer with digits of one script, and what they find in the answer itself is
written as `[ID:12]`, with the digits it had.  Each pass sees what the one before has written.
-/

namespace RagflowMineru.Chat

open Library Templates
open Document (isSpace)

/-! ## Digits -/

/-- The zeros of the scripts that have decimal digits. -/
def digitZeros : List ℕ :=
  [0x30, 0x660, 0x6F0, 0x7C0, 0x966, 0x9E6, 0xA66, 0xAE6, 0xB66, 0xBE6, 0xC66, 0xCE6, 0xD66, 0xDE6,
    0xE50, 0xED0, 0xF20, 0x1040, 0x1090, 0x17E0, 0x1810, 0x1946, 0x19D0, 0x1A80, 0x1A90, 0x1B50,
    0x1BB0, 0x1C40, 0x1C50, 0xA620, 0xA8D0, 0xA900, 0xA9D0, 0xA9F0, 0xAA50, 0xABF0, 0xFF10, 0x104A0,
    0x10D30, 0x11066, 0x110F0, 0x11136, 0x111D0, 0x112F0, 0x11450, 0x114D0, 0x11650, 0x116C0,
    0x11730, 0x118E0, 0x11950, 0x11C50, 0x11D50, 0x11DA0, 0x16A60, 0x16AC0, 0x16B50, 0x1D7CE,
    0x1D7D8, 0x1D7E2, 0x1D7EC, 0x1D7F6, 0x1E140, 0x1E2F0, 0x1E950, 0x1FBF0]

def digitValue (c : Char) : Option ℕ :=
  (digitZeros.find? fun z => z ≤ c.toNat ∧ c.toNat < z + 10).map (c.toNat - ·)

/-- `\d` -/
def isDecimal (c : Char) : Bool := (digitValue c).isSome

/-- `int`, which reads no more than 4300 digits. -/
def intOf (digits : List Char) : Option ℕ :=
  if digits.length ≤ 4300 then
    digits.foldlM (fun n c => (digitValue c).map (10 * n + ·)) 0
  else none

def normalizeDigit (c : Char) : Char :=
  if 0x660 ≤ c.toNat ∧ c.toNat ≤ 0x669 then Char.ofNat (c.toNat - 0x660 + 0x30)
  else if 0x6F0 ≤ c.toNat ∧ c.toNat ≤ 0x6F9 then Char.ofNat (c.toNat - 0x6F0 + 0x30)
  else c

def normalizeArabicDigits (text : List Char) : List Char := text.map normalizeDigit

/-! ## Patterns -/

/-- A match, with its group of digits. -/
structure Marker where
  front : List Char
  digits : List Char
  back : List Char

namespace Marker

def spell (t : Marker) : List Char := t.front ++ (t.digits ++ t.back)

def map (f : Char → Char) (t : Marker) : Marker :=
  ⟨t.front.map f, t.digits.map f, t.back.map f⟩

end Marker

/-- A pattern, up to the digits and behind them.  The items take as many letters as there are, which
no later item misses. -/
structure CitationPattern where
  front : List (Item Char)
  back : List (Item Char)

/-- `(\d+)` -/
def digitItems : List (Item Char) := [.one isDecimal, .many isDecimal]

/-- `\(\s*ID\s*[: ]*\s*(\d+)\s*\)`, with other brackets too. -/
def bracketed (left right : Char) : CitationPattern where
  front := [.one (· == left), .many isSpace, .one (· == 'I'), .one (· == 'D'), .many isSpace,
    .many fun c => c == ':' || c == ' ', .many isSpace]
  back := [.many isSpace, .one (· == right)]

/-- `ref\s*(\d+)`, in small or large letters. -/
def refPattern : CitationPattern where
  front := [.one fun c => c == 'r' || c == 'R', .one fun c => c == 'e' || c == 'E',
    .one fun c => c == 'f' || c == 'F', .many isSpace]
  back := []

/-- `BAD_CITATION_PATTERNS` -/
def badCitationPatterns : List CitationPattern :=
  [bracketed '(' ')', bracketed '[' ']', bracketed '【' '】', refPattern]

namespace CitationPattern

variable (p : CitationPattern)

/-- `pattern.match` -/
def at? (s : List Char) : Option Marker := do
  let (front, s) ← consume p.front s
  let (digits, s) ← consume digitItems s
  let (back, _) ← consume p.back s
  return ⟨front, digits, back⟩

variable {p} {s : List Char} {t : Marker}

theorem at?_eq_some_iff :
    p.at? s = some t ↔ ∃ r, s = t.spell ++ r ∧
      consume p.front s = some (t.front, t.digits ++ (t.back ++ r)) ∧
      consume digitItems (t.digits ++ (t.back ++ r)) = some (t.digits, t.back ++ r) ∧
      consume p.back (t.back ++ r) = some (t.back, r) := by
  constructor
  · intro h
    obtain ⟨⟨front, s₁⟩, hfront, h⟩ := Option.bind_eq_some_iff.mp h
    obtain ⟨⟨digits, s₂⟩, hdigits, h⟩ := Option.bind_eq_some_iff.mp h
    obtain ⟨⟨back, r⟩, hback, h⟩ := Option.bind_eq_some_iff.mp h
    obtain rfl := Option.some.inj h
    obtain rfl := append_of_consume hfront
    obtain rfl := append_of_consume hdigits
    obtain rfl := append_of_consume hback
    exact ⟨r, by simp [Marker.spell], hfront, hdigits, hback⟩
  · rintro ⟨r, -, hfront, hdigits, hback⟩
    simp [at?, hfront, hdigits, hback]

theorem digits_ne_nil (h : p.at? s = some t) : t.digits ≠ [] := by
  obtain ⟨r, -, -, hdigits, -⟩ := at?_eq_some_iff.mp h
  obtain ⟨a, s', x', -, hx, -, -⟩ := consume_one_cons hdigits
  rw [hx]
  exact List.cons_ne_nil a x'

variable (p) in
def matcher : Matcher Char Marker where
  at? := p.at?
  spell := Marker.spell
  spell_ne_nil h hnil := by
    rw [Marker.spell, List.append_eq_nil_iff, List.append_eq_nil_iff] at hnil
    exact digits_ne_nil h hnil.2.1
  spell_begins h := by
    obtain ⟨r, rfl, -⟩ := at?_eq_some_iff.mp h
    exact List.prefix_append _ r

end CitationPattern

/-! ## The passes -/

/-- Where the matches of a scan begin. -/
def positioned : ℕ → List (Marker × List Char) → List (ℕ × Marker)
  | _, [] => []
  | pos, (t, text) :: rest => (pos, t) :: positioned (pos + t.spell.length + text.length) rest

/-- `pattern.finditer` -/
def finditer (p : CitationPattern) (s : List Char) : List (ℕ × Marker) :=
  positioned (p.matcher.scan s).1.length (p.matcher.scan s).2

def slice (s : List Char) (start stop : ℕ) : List Char := (s.take stop).drop start

section Repair

variable (maxIndex : ℕ)

/-- The state of `find_and_replace` between two matches. -/
structure Replacing where
  parts : List (List Char)
  lastIdx : ℕ
  idx : Finset ℕ

/-- The body of the loop of `find_and_replace`. -/
def replaceStep (answer : List Char) (state : Replacing) (found : ℕ × Marker) : Replacing :=
  let (start, t) := found
  let stop := start + t.spell.length
  let digitStart := start + t.front.length
  let parts := state.parts ++ [slice answer state.lastIdx start]
  match intOf t.digits with
  | none => ⟨parts ++ [slice answer start stop], stop, state.idx⟩
  | some i =>
      if i < maxIndex then
        ⟨parts ++ ["[ID:".toList ++ slice answer digitStart (digitStart + t.digits.length) ++
            "]".toList],
          stop, insert i state.idx⟩
      else ⟨parts ++ [slice answer start stop], stop, state.idx⟩

def findAndReplace (state : List Char × Finset ℕ) (p : CitationPattern) : List Char × Finset ℕ :=
  let (answer, idx) := state
  match finditer p (normalizeArabicDigits answer) with
  | [] => (answer, idx)
  | found =>
      let last := found.foldl (replaceStep maxIndex answer) ⟨[], 0, idx⟩
      ((last.parts ++ [answer.drop last.lastIdx]).flatten, last.idx)

def repairBadCitationFormats (answer : List Char) (idx : Finset ℕ) : List Char × Finset ℕ :=
  badCitationPatterns.foldl (findAndReplace maxIndex) (answer, idx)

/-- What becomes of a marker: one with an index below the number of chunks is written with its own
digits in the right format. -/
def citationRule (t : Marker) : Option (ℕ × List Char) :=
  (intOf (normalizeArabicDigits t.digits)).bind fun i =>
    if i < maxIndex then some (i, "[ID:".toList ++ t.digits ++ "]".toList) else none

/-- The answer with some of its markers rewritten; the indices of these are listed. -/
abbrev Repaired (answer repaired : List Char) (is : List ℕ) : Prop :=
  Markers.Rewritten (citationRule maxIndex) (badCitationPatterns.map CitationPattern.matcher) answer
    repaired is

end Repair

/-! ## Kinds of letters -/

section Kinds

variable {c : Char} {p : CitationPattern} {item : Item Char}

/-- The letters that open a marker. -/
def openings : List Char := "([【rR".toList

theorem isDecimal_of_isSpace (h : isSpace c = true) : isDecimal c = false := by
  have hmem := of_decide_eq_true h
  rw [isDecimal, digitValue]
  generalize c.toNat = n at hmem ⊢
  revert n hmem
  decide

/-- Behind its first letter a marker has no opening letter. -/
theorem kind_of_opening :
    ∀ p ∈ badCitationPatterns, ∀ item ∈ p.front.tail ++ (digitItems ++ p.back), ∀ c ∈ openings,
      item.kind c = false := by
  intro p hp item hitem c hc
  have hall : ∀ p ∈ badCitationPatterns, ∀ item ∈ p.front.tail ++ (digitItems ++ p.back),
      openings.all (fun c => !item.kind c) = true := by
    decide
  simpa using List.all_eq_true.mp (hall p hp item hitem) c hc

theorem exists_first (hp : p ∈ badCitationPatterns) :
    ∃ q items, p.front = .one q :: items ∧ ∀ c, q c = true → c ∈ openings := by
  simp only [badCitationPatterns, List.mem_cons, List.not_mem_nil, or_false] at hp
  rcases hp with rfl | rfl | rfl | rfl
  all_goals
    refine ⟨_, _, rfl, fun c hc => ?_⟩
    simp [openings] at hc ⊢
    tauto

/-- The digits that are normalized, and what they become. -/
theorem normalizeDigit_eq (c : Char) :
    normalizeDigit c = c ∨ c ∈ "٠١٢٣٤٥٦٧٨٩۰۱۲۳۴۵۶۷۸۹".toList := by
  have hdigits : ∀ i < 10, Char.ofNat (0x660 + i) ∈ "٠١٢٣٤٥٦٧٨٩۰۱۲۳۴۵۶۷۸۹".toList ∧
      Char.ofNat (0x6F0 + i) ∈ "٠١٢٣٤٥٦٧٨٩۰۱۲۳۴۵۶۷۸۹".toList := by
    decide
  rw [normalizeDigit]
  split_ifs with harabic hpersian
  · have hmem := (hdigits (c.toNat - 0x660) (by omega)).1
    rw [Nat.add_sub_cancel' harabic.1, Char.ofNat_toNat] at hmem
    exact .inr hmem
  · have hmem := (hdigits (c.toNat - 0x6F0) (by omega)).2
    rw [Nat.add_sub_cancel' hpersian.1, Char.ofNat_toNat] at hmem
    exact .inr hmem
  · exact .inl rfl

/-- A digit of another script is of the same kinds. -/
theorem kind_normalizeDigit (hp : p ∈ badCitationPatterns)
    (hitem : item ∈ p.front ++ (digitItems ++ p.back)) (c : Char) :
    item.kind (normalizeDigit c) = item.kind c := by
  have hdigits : ∀ p ∈ badCitationPatterns, ∀ item ∈ p.front ++ (digitItems ++ p.back),
      "٠١٢٣٤٥٦٧٨٩۰۱۲۳۴۵۶۷۸۹".toList.all
        (fun c => item.kind (normalizeDigit c) == item.kind c) = true := by
    decide
  rcases normalizeDigit_eq c with hsame | hmem
  · rw [hsame]
  · exact eq_of_beq (List.all_eq_true.mp (hdigits p hp item hitem) c hmem)

end Kinds

/-! ## The rule -/

section Rule

variable {p : CitationPattern} {s r : List Char} {t : Marker} {maxIndex i : ℕ}

theorem isDecimal_of_intOf {digits : List Char} (h : intOf digits = some i) :
    ∀ c ∈ digits, isDecimal c = true := by
  rw [intOf] at h
  split_ifs at h
  generalize (0 : ℕ) = n at h
  induction digits generalizing n with
  | nil => exact fun c hc => absurd hc List.not_mem_nil
  | cons a digits ih =>
      rw [List.foldlM_cons] at h
      obtain ⟨n', hn', h⟩ := Option.bind_eq_some_iff.mp h
      obtain ⟨d, hd, -⟩ := Option.map_eq_some_iff.mp hn'
      intro c hc
      rcases List.mem_cons.mp hc with rfl | hc
      · rw [isDecimal, hd]
        rfl
      · exact ih (by simp at *; omega) n' h c hc

theorem citationRule_eq_some_iff {w : List Char} :
    citationRule maxIndex t = some (i, w) ↔
      intOf (normalizeArabicDigits t.digits) = some i ∧ i < maxIndex ∧
        w = "[ID:".toList ++ t.digits ++ "]".toList := by
  rw [citationRule, Option.bind_eq_some_iff]
  constructor
  · rintro ⟨j, hj, h⟩
    split_ifs at h with hlt
    obtain ⟨rfl, rfl⟩ := Prod.mk.inj (Option.some.inj h)
    exact ⟨hj, hlt, rfl⟩
  · rintro ⟨hi, hlt, rfl⟩
    exact ⟨i, hi, if_pos hlt⟩

/-- What is rewritten has digits only. -/
theorem isDecimal_of_citationRule {w : List Char} (h : citationRule maxIndex t = some (i, w)) :
    ∀ c ∈ t.digits, isDecimal c = true := by
  intro c hc
  have hdecimal := isDecimal_of_intOf (citationRule_eq_some_iff.mp h).1 _ (List.mem_map_of_mem hc)
  have hitem : Item.one isDecimal ∈ refPattern.front ++ (digitItems ++ refPattern.back) := by
    simp [digitItems]
  have hkind := kind_normalizeDigit (by simp [badCitationPatterns]) hitem c
  exact hkind.symm.trans hdecimal

theorem opens_matcher (hp : p ∈ badCitationPatterns) :
    Markers.Opens (· ∈ openings) p.matcher where
  opened {s t} h := by
    obtain ⟨r, rfl, hfront, hdigits, hback⟩ := CitationPattern.at?_eq_some_iff.mp h
    obtain ⟨q, items, hitems, hq⟩ := exists_first hp
    have hkind := kind_of_opening p hp
    rw [hitems] at hfront hkind
    obtain ⟨a, s', x, -, hx, ha, hfront⟩ := consume_one_cons hfront
    refine ⟨a, x ++ (t.digits ++ t.back), ?_, hq a ha, fun b hb hopening => ?_⟩
    · change t.front ++ (t.digits ++ t.back) = _
      rw [hx, List.cons_append]
    · obtain ⟨item, hitem, hb⟩ : ∃ item ∈ items ++ (digitItems ++ p.back), item.kind b = true := by
        rcases List.mem_append.mp hb with hb | hb
        · obtain ⟨item, hitem, hb⟩ := exists_kind_of_mem hfront hb
          exact ⟨item, List.mem_append_left _ hitem, hb⟩
        rcases List.mem_append.mp hb with hb | hb
        · obtain ⟨item, hitem, hb⟩ := exists_kind_of_mem hdigits hb
          exact ⟨item, List.mem_append_right _ (List.mem_append_left _ hitem), hb⟩
        · obtain ⟨item, hitem, hb⟩ := exists_kind_of_mem hback hb
          exact ⟨item, List.mem_append_right _ (List.mem_append_right _ hitem), hb⟩
      rw [hkind item hitem b hopening] at hb
      exact nomatch hb
  follow {t r r'} h hr := by
    have hnil := CitationPattern.digits_ne_nil h
    obtain ⟨r₀, hr₀, hfront, hdigits, hback⟩ := CitationPattern.at?_eq_some_iff.mp h
    obtain rfl := List.append_cancel_left hr₀
    have hkind := kind_of_opening p hp
    have hopening : ∀ {items : List (Item Char)}, items ⊆ p.front.tail ++ (digitItems ++ p.back) →
        (∃ c ∈ r'.head?, c ∈ openings) → ∃ c ∈ r'.head?, ∀ q, .many q ∈ items → q c = false := by
      rintro items hitems ⟨c, hc, hmem⟩
      exact ⟨c, hc, fun q hq => hkind (.many q) (hitems hq) c hmem⟩
    refine CitationPattern.at?_eq_some_iff.mpr ⟨r', rfl, ?_, ?_, ?_⟩
    · have hspell : ∀ u, p.matcher.spell t ++ u = t.front ++ (t.digits ++ (t.back ++ u)) := by
        intro u
        change t.front ++ (t.digits ++ t.back) ++ u = _
        rw [List.append_assoc, List.append_assoc]
      rw [hspell] at hfront ⊢
      refine consume_follow hfront (.inl ?_)
      rw [List.head?_append_of_ne_nil _ hnil, List.head?_append_of_ne_nil _ hnil]
    · refine consume_follow hdigits ?_
      cases hcase : t.back with
      | nil => exact hr.imp_right (hopening (List.subset_append_of_subset_right _
          (List.subset_append_left _ _)))
      | cons c back => exact .inl rfl
    · exact consume_follow hback (hr.imp_right (hopening (List.subset_append_of_subset_right _
        (List.subset_append_right _ _))))

/-- No other pattern finds a marker in the right format. -/
theorem at?_of_ne (hp : p ∈ badCitationPatterns) (hne : p ≠ bracketed '[' ']') (s : List Char) :
    p.at? ('[' :: s) = none := by
  simp only [badCitationPatterns, List.mem_cons, List.not_mem_nil, or_false, hne, false_or] at hp
  rcases hp with rfl | rfl | rfl <;> rfl

/-- A marker in the right format is found as it is written. -/
theorem at?_formatted {digits : List Char} (hdigits : ∀ c ∈ digits, isDecimal c = true)
    (h : (bracketed '[' ']').at? ('[' :: 'I' :: 'D' :: ':' :: (digits ++ ']' :: r)) = some t) :
    t = ⟨['[', 'I', 'D', ':'], digits, [']']⟩ := by
  have hhead : ∀ q : Char → Bool, (∀ c, isDecimal c = true → q c = false) → q ']' = false →
      ∀ c ∈ (digits ++ ']' :: r).head?, q c = false := by
    intro q hq hclose c hc
    cases digits with
    | nil => exact Option.some.inj hc ▸ hclose
    | cons d digits => exact hq c (Option.some.inj hc ▸ hdigits d List.mem_cons_self)
  have hspace : ∀ c, isDecimal c = true → isSpace c = false := by
    intro c hc
    by_contra hs
    rw [Bool.not_eq_false] at hs
    rw [isDecimal_of_isSpace hs] at hc
    exact nomatch hc
  have hcolon : ∀ c, isDecimal c = true → (c == ':' || c == ' ') = false := by
    intro c hc
    by_contra hs
    rw [Bool.not_eq_false, Bool.or_eq_true, beq_iff_eq, beq_iff_eq] at hs
    rcases hs with rfl | rfl <;> exact absurd hc (by decide)
  have hfront : consume (bracketed '[' ']').front
      ('[' :: 'I' :: 'D' :: ':' :: (digits ++ ']' :: r)) =
      some (['[', 'I', 'D', ':'], digits ++ ']' :: r) := by
    have hfar : consume [.many isSpace] (digits ++ ']' :: r) = some ([], digits ++ ']' :: r) :=
      consume_many_none (hhead _ hspace (by decide)) rfl
    have hmark := consume_many (w := [':']) (List.forall_mem_singleton.mpr rfl)
      (hhead _ hcolon (by decide)) hfar
    exact consume_one rfl (consume_many_none_cons (by decide) (consume_one rfl (consume_one rfl
      (consume_many_none_cons (by decide) hmark))))
  obtain ⟨r', hsplit, hfront', hdigits', hback'⟩ := CitationPattern.at?_eq_some_iff.mp h
  rw [hfront] at hfront'
  obtain ⟨hfrontEq, hrest⟩ := Prod.mk.inj (Option.some.inj hfront')
  rw [← hrest] at hdigits'
  cases digits with
  | nil =>
      have hclose : isDecimal ']' = false := by decide
      exact absurd hdigits' (by simp [digitItems, consume, hclose])
  | cons d digits =>
      have hgroup : consume digitItems (d :: digits ++ ']' :: r) =
          some (d :: digits, ']' :: r) := by
        refine consume_one (hdigits d List.mem_cons_self) ?_
        have hmany := consume_many (p := isDecimal) (w := digits) (u := ']' :: r)
          (fun c hc => hdigits c (List.mem_cons_of_mem _ hc))
          (fun c hc => Option.some.inj hc ▸ (by decide)) (rfl : consume [] (']' :: r) = _)
        rwa [List.append_nil] at hmany
      rw [hgroup] at hdigits'
      obtain ⟨hdigitsEq, hbackRest⟩ := Prod.mk.inj (Option.some.inj hdigits')
      have hclose : consume (bracketed '[' ']').back (']' :: r) = some ([']'], r) :=
        consume_many_none_cons (by decide) (consume_one rfl rfl)
      rw [← hbackRest, hclose] at hback'
      obtain ⟨hbackEq, -⟩ := Prod.mk.inj (Option.some.inj hback')
      obtain ⟨front, group, back⟩ := t
      exact congr (congr (congrArg Marker.mk hfrontEq.symm) hdigitsEq.symm) hbackEq.symm

theorem stable_citationRule (maxIndex : ℕ) :
    Markers.Stable (citationRule maxIndex) (· ∈ openings)
      (badCitationPatterns.map CitationPattern.matcher) where
  opened {t i w} h := by
    have hdecimal := isDecimal_of_citationRule h
    obtain ⟨-, -, rfl⟩ := citationRule_eq_some_iff.mp h
    refine ⟨'[', "ID:".toList ++ t.digits ++ "]".toList, rfl, by decide, fun b hb hopening => ?_⟩
    have hclosed : openings.all (fun c =>
        !isDecimal c && decide (c ∉ "ID:".toList) && decide (c ∉ "]".toList)) = true := by
      decide
    have hletters := List.all_eq_true.mp hclosed b hopening
    simp only [Bool.and_eq_true, Bool.not_eq_true', decide_eq_true_eq] at hletters
    obtain ⟨⟨hnot, hfront⟩, hback⟩ := hletters
    rcases List.mem_append.mp hb with hb | hb
    · rcases List.mem_append.mp hb with hb | hb
      · exact hfront hb
      · rw [hdecimal b hb] at hnot
        exact nomatch hnot
    · exact hback hb
  kept {m} hm t i w r t' hrule hat := by
    obtain ⟨p, hp, rfl⟩ := List.mem_map.mp hm
    have hdecimal := isDecimal_of_citationRule hrule
    obtain ⟨hint, hlt, rfl⟩ := citationRule_eq_some_iff.mp hrule
    by_cases hp' : p = bracketed '[' ']'
    · subst hp'
      have hword : "[ID:".toList ++ t.digits ++ "]".toList ++ r =
          '[' :: 'I' :: 'D' :: ':' :: (t.digits ++ ']' :: r) := by simp
      rw [hword] at hat
      obtain rfl := at?_formatted hdecimal hat
      exact ⟨rfl, citationRule_eq_some_iff.mpr ⟨hint, hlt, rfl⟩⟩
    · have hnone := at?_of_ne hp hp' ("ID:".toList ++ t.digits ++ "]".toList ++ r)
      exact nomatch hnone.symm.trans hat

end Rule

theorem lt_of_mem_repaired {maxIndex : ℕ} {answer repaired : List Char} {is : List ℕ}
    (h : Repaired maxIndex answer repaired is) : ∀ i ∈ is, i < maxIndex := by
  induction h with
  | nil => exact fun i hi => absurd hi List.not_mem_nil
  | keep _ _ ih => exact ih
  | replace _ _ hrule _ ih =>
      intro i hi
      rcases List.mem_cons.mp hi with rfl | hi
      · exact (citationRule_eq_some_iff.mp hrule).2.1
      · exact ih i hi

/-! ## A pass on the answer -/

section Pass

variable {p : CitationPattern} {maxIndex : ℕ}

/-- The copy with digits of one script has the same matches. -/
theorem at?_normalize (hp : p ∈ badCitationPatterns) (s : List Char) :
    p.at? (normalizeArabicDigits s) = (p.at? s).map (Marker.map normalizeDigit) := by
  have hconsume : ∀ items ⊆ p.front ++ (digitItems ++ p.back), ∀ s : List Char,
      consume items (s.map normalizeDigit) =
        (consume items s).map (Prod.map (List.map normalizeDigit) (List.map normalizeDigit)) :=
    fun items hitems s => consume_map fun item hitem c => kind_normalizeDigit hp (hitems hitem) c
  have hfront := hconsume p.front (List.subset_append_left _ _)
  have hdigits := hconsume digitItems (List.subset_append_of_subset_right _
    (List.subset_append_left _ _))
  have hback := hconsume p.back (List.subset_append_of_subset_right _
    (List.subset_append_right _ _))
  rw [normalizeArabicDigits, CitationPattern.at?, CitationPattern.at?, hfront]
  rcases consume p.front s with - | ⟨front, s₁⟩
  · rfl
  change (consume digitItems (s₁.map normalizeDigit)).bind _ =
    ((consume digitItems s₁).bind _).map _
  rw [hdigits]
  rcases consume digitItems s₁ with - | ⟨digits, s₂⟩
  · rfl
  change (consume p.back (s₂.map normalizeDigit)).bind _ = ((consume p.back s₂).bind _).map _
  rw [hback]
  rcases consume p.back s₂ with - | ⟨back, s₃⟩ <;> rfl

theorem spell_map (f : Char → Char) (t : Marker) : (t.map f).spell = t.spell.map f := by
  simp [Marker.spell, Marker.map]

theorem scan_normalize (hp : p ∈ badCitationPatterns) (s : List Char) :
    p.matcher.scan (normalizeArabicDigits s) =
      (normalizeArabicDigits (p.matcher.scan s).1,
        (p.matcher.scan s).2.map fun part =>
          (part.1.map normalizeDigit, normalizeArabicDigits part.2)) := by
  induction s using Matcher.scan_induction (m := p.matcher) with
  | nil => rfl
  | skip a s hat ih =>
      have hnone : p.matcher.at? (normalizeDigit a :: normalizeArabicDigits s) = none := by
        have h := at?_normalize hp (a :: s)
        rw [show p.at? (a :: s) = none from hat] at h
        exact h
      rw [Matcher.scan_cons_of_none hat]
      change p.matcher.scan (normalizeDigit a :: normalizeArabicDigits s) = _
      rw [Matcher.scan_cons_of_none hnone, ih]
      rfl
  | found t r hat ih =>
      have hsome : p.matcher.at? (p.matcher.spell (t.map normalizeDigit) ++
          normalizeArabicDigits r) = some (t.map normalizeDigit) := by
        have h := at?_normalize hp (p.matcher.spell t ++ r)
        rw [show p.at? (p.matcher.spell t ++ r) = some t from hat, normalizeArabicDigits,
          List.map_append] at h
        change p.at? ((t.map normalizeDigit).spell ++ _) = _
        rw [spell_map]
        exact h
      have hcopy : normalizeArabicDigits (p.matcher.spell t ++ r) =
          p.matcher.spell (t.map normalizeDigit) ++ normalizeArabicDigits r := by
        rw [normalizeArabicDigits, List.map_append]
        exact congrArg (· ++ _) (spell_map normalizeDigit t).symm
      rw [Matcher.scan_spell_append hat, hcopy, Matcher.scan_spell_append hsome, ih]
      rfl

theorem slice_middle (a b c : List Char) :
    slice (a ++ (b ++ c)) a.length (a.length + b.length) = b := by
  rw [slice, ← List.append_assoc, ← List.length_append, List.take_left, List.drop_left]

/-- One match of the copy replaces its letters of the answer. -/
theorem replaceStep_eq (front text tail : List Char) (t : Marker) (parts : List (List Char))
    (idx : Finset ℕ) :
    replaceStep maxIndex (front ++ (text ++ (t.spell ++ tail))) ⟨parts, front.length, idx⟩
        (front.length + text.length, t.map normalizeDigit) =
      ⟨parts ++ [text] ++ [(citationRule maxIndex t).elim t.spell Prod.snd],
        front.length + text.length + t.spell.length,
        idx ∪ ((citationRule maxIndex t).map Prod.fst).toList.toFinset⟩ := by
  have htext := slice_middle front text (t.spell ++ tail)
  have hspell := slice_middle (front ++ text) t.spell tail
  have hdigits := slice_middle (front ++ text ++ t.front) t.digits (t.back ++ tail)
  have hlength : (t.map normalizeDigit).spell.length = t.spell.length := by
    rw [spell_map, List.length_map]
  have hfront : (t.map normalizeDigit).front.length = t.front.length := List.length_map _
  have hgroup : (t.map normalizeDigit).digits.length = t.digits.length := List.length_map _
  have hword : front ++ text ++ t.front ++ (t.digits ++ (t.back ++ tail)) =
      front ++ (text ++ (t.spell ++ tail)) := by
    simp [Marker.spell]
  rw [List.append_assoc, List.length_append] at hspell
  rw [hword, List.length_append, List.length_append] at hdigits
  rw [replaceStep]
  dsimp only
  rw [hlength, hfront, hgroup, htext, hspell, hdigits, citationRule]
  change (match intOf (normalizeArabicDigits t.digits) with | none => _ | some i => _) = _
  rcases intOf (normalizeArabicDigits t.digits) with - | i
  · simp
  · by_cases hlt : i < maxIndex
    · simp [hlt]
    · simp [hlt]

/-- The loop over the matches, from the end of one of them on. -/
theorem foldl_replaceStep (front text : List Char) (rest : List (Marker × List Char))
    (parts : List (List Char)) (idx : Finset ℕ) :
    let answer := front ++ joinAll Marker.spell text rest
    let copies := rest.map fun part => (part.1.map normalizeDigit, normalizeArabicDigits part.2)
    let last := (positioned (front.length + text.length) copies).foldl
      (replaceStep maxIndex answer) ⟨parts, front.length, idx⟩
    (last.parts ++ [answer.drop last.lastIdx]).flatten =
        parts.flatten ++
          joinAll (fun t => (citationRule maxIndex t).elim t.spell Prod.snd) text rest ∧
      last.idx =
        idx ∪ (rest.filterMap fun part =>
          (citationRule maxIndex part.1).map Prod.fst).toFinset := by
  induction rest generalizing front text parts idx with
  | nil => simp [positioned]
  | cons part rest ih =>
      obtain ⟨t, text'⟩ := part
      have hanswer : front ++ joinAll Marker.spell text ((t, text') :: rest) =
          front ++ (text ++ (t.spell ++ joinAll Marker.spell text' rest)) := by
        rw [joinAll_cons]
      have hshift : front ++ (text ++ (t.spell ++ joinAll Marker.spell text' rest)) =
          (front ++ text ++ t.spell) ++ joinAll Marker.spell text' rest := by
        rw [List.append_assoc, List.append_assoc]
      have hlength : (front ++ text ++ t.spell).length =
          front.length + text.length + t.spell.length := by
        rw [List.length_append, List.length_append]
      have hnext := ih (front ++ text ++ t.spell) text'
        (parts ++ [text] ++ [(citationRule maxIndex t).elim t.spell Prod.snd])
        (idx ∪ ((citationRule maxIndex t).map Prod.fst).toList.toFinset)
      have hcopy : (t.map normalizeDigit).spell.length = t.spell.length := by
        rw [spell_map, List.length_map]
      have htext : (normalizeArabicDigits text').length = text'.length := List.length_map _
      dsimp only at hnext ⊢
      rw [hlength, ← hshift] at hnext
      rw [hanswer, List.map_cons, positioned, List.foldl_cons, replaceStep_eq, hcopy, htext,
        hnext.1, hnext.2]
      constructor
      · simp [joinAll_cons]
      · rw [List.filterMap_cons, Finset.union_assoc, ← List.toFinset_append]
        rcases citationRule maxIndex t with - | ⟨i, w⟩ <;> rfl

theorem findAndReplace_eq (hp : p ∈ badCitationPatterns) (answer : List Char) (idx : Finset ℕ) :
    findAndReplace maxIndex (answer, idx) p =
      (Markers.rewrite (citationRule maxIndex) p.matcher answer,
        idx ∪ (Markers.notes (citationRule maxIndex) p.matcher answer).toFinset) := by
  have hscan := p.matcher.joinAll_scan answer
  have hloop := @foldl_replaceStep maxIndex [] (p.matcher.scan answer).1
    (p.matcher.scan answer).2 [] idx
  have hfound : finditer p (normalizeArabicDigits answer) =
      positioned (([] : List Char).length + (p.matcher.scan answer).1.length)
        ((p.matcher.scan answer).2.map fun part =>
          (part.1.map normalizeDigit, normalizeArabicDigits part.2)) := by
    rw [finditer, scan_normalize hp, List.length_nil, Nat.zero_add]
    exact congrArg (positioned · _) (List.length_map _)
  dsimp only at hloop
  rw [List.nil_append, show joinAll Marker.spell _ _ = answer from hscan] at hloop
  rw [← hfound] at hloop
  rw [findAndReplace]
  cases hcase : finditer p (normalizeArabicDigits answer) with
  | nil =>
      rw [hcase] at hloop
      refine Prod.ext ?_ hloop.2
      exact (by simpa using hloop.1 : answer = _)
  | cons found rest =>
      rw [hcase] at hloop
      exact Prod.ext hloop.1 hloop.2

theorem foldl_findAndReplace {ps : List CitationPattern} (hps : ps ⊆ badCitationPatterns)
    (answer : List Char) (idx : Finset ℕ) :
    ps.foldl (findAndReplace maxIndex) (answer, idx) =
      ((Markers.runPasses (citationRule maxIndex) (ps.map CitationPattern.matcher) answer).1,
        idx ∪ (Markers.runPasses (citationRule maxIndex)
          (ps.map CitationPattern.matcher) answer).2.toFinset) := by
  induction ps generalizing answer idx with
  | nil => exact Prod.ext rfl (Finset.union_empty idx).symm
  | cons p ps ih =>
      obtain ⟨hp, hps⟩ := List.cons_subset.mp hps
      rw [List.foldl_cons, findAndReplace_eq hp, ih hps, List.map_cons, Markers.runPasses,
        List.toFinset_append, Finset.union_assoc]

theorem repairBadCitationFormats_eq (maxIndex : ℕ) (answer : List Char) (idx : Finset ℕ) :
    repairBadCitationFormats maxIndex answer idx =
      ((Markers.runPasses (citationRule maxIndex)
          (badCitationPatterns.map CitationPattern.matcher) answer).1,
        idx ∪ (Markers.runPasses (citationRule maxIndex)
          (badCitationPatterns.map CitationPattern.matcher) answer).2.toFinset) :=
  foldl_findAndReplace (List.Subset.refl _) answer idx

end Pass

end RagflowMineru.Chat
