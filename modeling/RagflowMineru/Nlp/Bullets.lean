import RagflowMineru.MinerU.Otsl

/-!
# Headings by their bullets

The patterns by which the lines of a document are told to be headings, and what
is left out before lines are looked at.  A pattern is matched at the start of a
line; only whether it matches is ever asked.
-/

namespace RagflowMineru.Nlp

open RagflowMineru

abbrev Text := List Char

/-- `str.strip`. -/
abbrev strip (t : Text) : Text :=
  MinerU.strip t

/-- Only spaces are stripped. -/
theorem mem_strip {t : Text} {c : Char} (hc : c ∈ t) (hspace : ¬ Document.isSpace c) :
    c ∈ strip t := by
  have hdrop : c ∈ t.dropWhile Document.isSpace := by
    rw [← List.takeWhile_append_dropWhile (p := Document.isSpace) (l := t)] at hc
    rcases List.mem_append.mp hc with hc | hc
    · exact absurd (List.mem_takeWhile_imp hc) hspace
    · exact hc
  rw [strip, MinerU.strip]
  rw [← List.rdropWhile_append_rtakeWhile (p := Document.isSpace)
    (l := t.dropWhile Document.isSpace)] at hdrop
  rcases List.mem_append.mp hdrop with hdrop | hdrop
  · exact hdrop
  · exact absurd (List.mem_rtakeWhile_imp hdrop) hspace

theorem strip_ne_nil_iff {t : Text} : strip t ≠ [] ↔ ∃ c ∈ t, ¬ Document.isSpace c := by
  constructor
  · intro h
    by_contra hall
    push Not at hall
    apply h
    rw [strip, MinerU.strip, List.rdropWhile_eq_nil_iff]
    exact fun c hc => hall c ((List.dropWhile_sublist _).mem hc)
  · rintro ⟨c, hc, hspace⟩
    exact List.ne_nil_of_mem (mem_strip hc hspace)

/-! ## Patterns -/

/-- The regular expressions the patterns are made of. -/
inductive Pattern where
  | lit (s : Text)
  | one (p : Char → Bool)
  | plus (p : Char → Bool)
  | upTo (n : ℕ) (p : Char → Bool)
  | opt (a : Pattern)
  | seq (a b : Pattern)
  | alt (a b : Pattern)

namespace Pattern

/-- What is left of a text after a character of the class, up to `n` times. -/
def afterUpTo (p : Char → Bool) : ℕ → Text → List Text
  | 0, t => [t]
  | _ + 1, [] => [[]]
  | n + 1, c :: t => (c :: t) :: if p c then afterUpTo p n t else []

/-- What can be left of a text after a match at its start. -/
def ends : Pattern → Text → List Text
  | .lit s, t => if s.isPrefixOf t then [t.drop s.length] else []
  | .one p, c :: t => if p c then [t] else []
  | .one _, [] => []
  | .plus p, c :: t => if p c then afterUpTo p t.length t else []
  | .plus _, [] => []
  | .upTo n p, t => afterUpTo p n t
  | .opt a, t => t :: a.ends t
  | .seq a b, t => (a.ends t).flatMap b.ends
  | .alt a b, t => a.ends t ++ b.ends t

/-- `re.match`. -/
def matchStart (a : Pattern) (t : Text) : Bool :=
  !(a.ends t).isEmpty

end Pattern

open Pattern

def isDigit (c : Char) : Bool :=
  '0' ≤ c && c ≤ '9'

/-- `[零一二三四五六七八九十百]` -/
def isNumeral (c : Char) : Bool :=
  c ∈ "零一二三四五六七八九十百".toList

def anyOf (s : String) : Pattern :=
  .one (· ∈ s.toList)

def word (s : String) : Pattern :=
  .lit s.toList

/-- `第[零一二三四五六七八九十百0-9]+` -/
def ordinal : Pattern :=
  .seq (word "第") (.plus fun c => isNumeral c || isDigit c)

/-- `[0-9]{,2}` -/
def digits : Pattern :=
  .upTo 2 isDigit

def words : List String → Pattern
  | [] => .one fun _ => false
  | s :: rest => .alt (word s) (words rest)

/-- `(I+V?|VI*|XI|IX|X)` -/
def roman : Pattern :=
  .alt (.seq (.plus (· = 'I')) (.opt (word "V"))) <|
    .alt (.seq (word "V") (.opt (.plus (· = 'I')))) <|
      .alt (word "XI") <| .alt (word "IX") (word "X")

def bulletPattern : List (List Pattern) :=
  [[.seq ordinal (.alt (.seq (.opt (word "分")) (word "编")) (word "部分")),
    .seq ordinal (word "章"),
    .seq ordinal (word "节"),
    .seq ordinal (word "条"),
    .seq (anyOf "(（") (.seq (.plus isNumeral) (anyOf ")）"))],
   [.seq (word "第") (.seq (.plus isDigit) (word "章")),
    .seq (word "第") (.seq (.plus isDigit) (word "节")),
    .seq digits (anyOf ". 、"),
    .seq digits (.seq (word ".") (.seq digits (.one fun c =>
      !(('a' ≤ c && c ≤ 'z') || ('A' ≤ c && c ≤ 'Z') || c ∈ ['/', '%', '~', '-'])))),
    .seq digits (.seq (word ".") (.seq digits (.seq (word ".") digits))),
    .seq digits (.seq (word ".") (.seq digits (.seq (word ".") (.seq digits
      (.seq (word ".") digits)))))],
   [.seq ordinal (word "章"),
    .seq ordinal (word "节"),
    .seq (.plus isNumeral) (anyOf " 、"),
    .seq (anyOf "(（") (.seq (.plus isNumeral) (anyOf ")）")),
    .seq (anyOf "(（") (.seq digits (anyOf ")）"))],
   [.seq (word "PART ")
      (words ["ONE", "TWO", "THREE", "FOUR", "FIVE", "SIX", "SEVEN", "EIGHT", "NINE", "TEN"]),
    .seq (word "Chapter ") roman,
    .seq (word "Section ") (.plus isDigit),
    .seq (word "Article ") (.plus isDigit)],
   [.seq (word "#") (.one (· ≠ '#')),
    .seq (word "##") (.one (· ≠ '#')),
    word "###",
    word "####",
    word "#####",
    word "######"]]

/-! ## Lines -/

/-- The number of words of `str.split`. -/
def wordCount (t : Text) : ℕ :=
  ((t.splitOnP Document.isSpace).filter (· ≠ [])).length

def notTitle (t : Text) : Bool :=
  if (Pattern.seq ordinal (word "条")).matchStart t then false
  else if 12 < wordCount t || (!t.contains ' ' && 32 ≤ t.length) then true
  else t.any (· ∈ ",;，。；！!".toList)

/-- `re.search(r"(title|head)", layout)`. -/
def isTitleLayout (layout : Text) : Bool :=
  "title".toList <:+: layout || "head".toList <:+: layout

/-- `t.split("@")[0].strip()`. -/
def beforeTag (t : Text) : Text :=
  strip (t.takeWhile (· ≠ '@'))

/-- A section that is looked at: more than one character before its position, and not a number. -/
def keepSection (sec : Text × Text) : Bool :=
  1 < (beforeTag sec.1).length && !(beforeTag sec.1).all isDigit

/-- The level by the first pattern that matches; else lines that are laid out as titles come next,
and all others last. -/
def levelBy (patterns : List Pattern) (text line layout : Text) : ℕ :=
  match patterns.findIdx? (·.matchStart (strip text)) with
  | some i => i
  | none =>
    if isTitleLayout layout && !notTitle line then patterns.length else patterns.length + 1

end RagflowMineru.Nlp
