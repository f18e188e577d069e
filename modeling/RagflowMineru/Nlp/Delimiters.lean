import RagflowMineru.Library.Scanning
import RagflowMineru.Nlp.Bullets
import Mathlib.Data.List.Sort

/-!
# Delimiters of the user

A string of delimiters may hold longer ones between backticks.  A text is split at
these, the longest that fits first, and the delimiters are kept among the parts.
-/

namespace RagflowMineru.Nlp

open RagflowMineru.Library

/-- The character between which delimiters are written. -/
def backtick : Char :=
  Char.ofNat 96

/-- What the parts after a backtick hold between two of them; the second one closes, so that the
part behind it is not between two. -/
def quoted : List Text → List Text
  | p :: q :: rest => if p = [] then quoted (q :: rest) else p :: quoted rest
  | _ => []

/-- The groups of the matches of a run of other characters between two backticks. -/
def customDelimiters (delimiter : Text) : List Text :=
  quoted (delimiter.splitOn backtick).tail

/-- `sorted(set(delimiters), key=len, reverse=True)`; two of the same length never fit at the
same place. -/
def longestFirst (delims : List Text) : List Text :=
  delims.dedup.insertionSort fun a b => b.length ≤ a.length

/-- The alternation of the delimiters. -/
def delimiterMatcher (delims : List Text) : Matcher Char Text where
  at? s := (longestFirst delims).find? fun d => d ≠ [] && d.isPrefixOf s
  spell := id
  spell_ne_nil h := by
    have hfound := List.find?_some h
    simp only [ne_eq, Bool.and_eq_true, decide_eq_true_eq] at hfound
    exact hfound.1
  spell_begins h := by
    have hfound := List.find?_some h
    simp only [Bool.and_eq_true] at hfound
    exact List.isPrefixOf_iff_prefix.mp hfound.2

/-- `re.split`, with the delimiters captured. -/
def splitKeeping (delims : List Text) (s : Text) : List Text :=
  ((delimiterMatcher delims).scan s).1 ::
    ((delimiterMatcher delims).scan s).2.flatMap fun part => [part.1, part.2]

/-- Nothing is lost by splitting. -/
theorem flatten_splitKeeping (delims : List Text) (s : Text) :
    (splitKeeping delims s).flatten = s :=
  (delimiterMatcher delims).flatten_split s

/-! ## Position tags -/

/-- `[\t0-9.-]` -/
def isTagChar (c : Char) : Bool :=
  c = '\t' || isDigit c || c = '.' || c = '-'

/-- A tag at the start of a text, as `@@[\t0-9.-]+?##` matches it. -/
def tagAt (s : Text) : Option Text :=
  let body := (s.drop 2).takeWhile isTagChar
  let tag := "@@".toList ++ body ++ "##".toList
  if body ≠ [] ∧ tag <+: s then some tag else none

def tagMatcher : Matcher Char Text where
  at? := tagAt
  spell := id
  spell_ne_nil h := by
    dsimp only [tagAt] at h
    split_ifs at h
    obtain rfl := Option.some.inj h
    simp
  spell_begins h := by
    dsimp only [tagAt] at h
    split_ifs at h with htag
    obtain rfl := Option.some.inj h
    exact htag.2

/-- `RAGFlowPdfParser.remove_tag`. -/
def removeTag (s : Text) : Text :=
  joinAll (fun _ => []) (tagMatcher.scan s).1 (tagMatcher.scan s).2

end RagflowMineru.Nlp
