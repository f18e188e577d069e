import RagflowMineru.Library.Parts
import RagflowMineru.Library.Tags
import Mathlib.Algebra.GroupWithZero.Nat

/-!
# The analyzer of texts

A text is its list of characters, none of them the zero byte.  The analyzer tokenizes
it with or without positions, and both ways may be followed by a finer tokenization.
The tokens do not depend on the positions, which are added to them later.
-/

namespace RagflowMineru.Analyzer

open Library

abbrev Text := List Char

/-- What the analyzer takes from its dictionary and from other libraries. -/
structure RAGAnalyzer where
  /-- The text with a blank for every run of characters that belong to no word. -/
  replaceNonWords : Text → Text
  /-- `opencc_->convert`. -/
  convert : Text → Text
  sentenceSplitter : Text → List Text
  /-- `NLTKWordTokenizer::Tokenize`. -/
  wordTokenizer : Text → List Text
  lemmatize : Text → Text
  stem : Text → Text
  maxForward : Text → List Text
  maxBackward : Text → List Text
  /-- The best tokens that `DFS` finds. -/
  bestTokens : Text → List Text
  /-- All lists of tokens that `DFS` finds, as `SortTokens` orders them. -/
  sortedTokens : Text → List (List Text)
  freq : Text → ℤ

/-- `std::string::size`. -/
def size (t : Text) : ℕ := (t.map Char.utf8Size).sum

/-- `std::string::find`. -/
def findFrom (s t : Text) (pos : ℕ) : Option ℕ := (find t (s.drop pos)).map (· + pos)

/-- Full-width characters and the ideographic space become half-width. -/
def strQ2B (input : Text) : Text :=
  input.map fun ch =>
    if 0xFF01 ≤ ch.toNat ∧ ch.toNat ≤ 0xFF5E then Char.ofNat (ch.toNat - 0xFEE0)
    else if ch.toNat = 0x3000 then ' '
    else ch

def isChinese (ch : Char) : Bool := 0x4000 ≤ ch.toNat && ch.toNat ≤ 0x9FFF

/-! ## Regular expressions -/

/-- The first class of characters of `regex_split_pattern_`. -/
def isDelimiter (ch : Char) : Bool :=
  ch ∈ " ,.<>/?;:'[]\\`!@#$%^&*()\x7b\x7d|_+=《》，。？、；‘’：“”【】~！￥%……（）——-".toList

/-- Its second class. -/
def isWordChar (ch : Char) : Bool := ch.isAlphanum || ch ∈ [',', '.', '-']

/-- A run of one class goes on, or a run of characters that are in none. -/
def continues (first ch : Char) : Bool :=
  if isDelimiter first then isDelimiter ch
  else if isWordChar first then isWordChar ch
  else !isDelimiter ch && !isWordChar ch

/-- The expression matches a part of the text. -/
def matchesSplitPattern (t : Text) : Bool := t.any fun ch => isDelimiter ch || isWordChar ch

/-- An expression that ends in `+$` looks at the last character. -/
def endsIn (p : Char → Bool) (t : Text) : Bool := t.getLast?.any p

/-- `[a-zA-Z_-]+$`. -/
def pattern1 (t : Text) : Bool := endsIn (fun ch => ch.isAlpha || ch ∈ ['_', '-']) t

/-- `[a-zA-Z\.-]+$`. -/
def pattern2 (t : Text) : Bool := endsIn (fun ch => ch.isAlpha || ch ∈ ['.', '-']) t

/-- `[0-9\.-]+$`. -/
def pattern3 (t : Text) : Bool := endsIn (fun ch => ch.isDigit || ch ∈ ['.', '-']) t

/-- `[0-9,\.-]+$`. -/
def pattern4 (t : Text) : Bool := endsIn (fun ch => ch.isDigit || ch ∈ [',', '.', '-']) t

/-- `[a-zA-Z\.-]+`. -/
def pattern5 (t : Text) : Bool := t.any fun ch => ch.isAlpha || ch ∈ ['.', '-']

/-- `Split` by `blank_pattern_`. -/
def splitBlank (t : Text) : List Text := parts ' ' t

/-- `Join` by blanks. -/
def join (tokens : List Text) : Text := [' '].intercalate tokens

/-- Each segment is Chinese or is not. -/
def splitByLang (line : Text) : List (Text × Bool) :=
  ((runs continues line).flatMap (runs fun first ch => isChinese first == isChinese ch)).map
    fun segment => (segment, segment.head?.any isChinese)

namespace RAGAnalyzer

variable (a : RAGAnalyzer)

/-- The stem of the lemma in lower case. -/
def normalize (t : Text) : Text := a.stem ((a.lemmatize t).map Char.toLower)

/-! ## Chinese segments -/

/-- How many tokens are the same from the front. -/
def sameCount : List Text → List Text → ℕ
  | t :: ts, t' :: ts' => if t = t' then sameCount ts ts' + 1 else 0
  | _, _ => 0

/-- `Join(tokens, start, end, "")`. -/
def slice (tokens : List Text) (start stop : ℕ) : List Text :=
  (tokens.take stop).drop start

/-- The loop over the tokens of both directions: `i` and `i₀` are places in `tks1`, `j` and
`j₀` are places in `tks`. -/
def innerLoop (tks tks1 : List Text) (i₀ j₀ i j : ℕ) : List Text :=
  if i < tks1.length ∧ j < tks.length then
    let tk1 := (slice tks1 i₀ i).flatten
    let tk := (slice tks j₀ j).flatten
    if tk1 ≠ tk then
      if size tk1 > size tk then innerLoop tks tks1 i₀ j₀ i (j + 1)
      else innerLoop tks tks1 i₀ j₀ (i + 1) j
    else if tks1[i]? ≠ tks[j]? then innerLoop tks tks1 i₀ j₀ (i + 1) (j + 1)
    else
      let same := 1 + sameCount (tks1.drop (i + 1)) (tks.drop (j + 1))
      join (a.bestTokens tk) :: join (slice tks j (j + same)) ::
        innerLoop tks tks1 (i + same) (j + same) (i + same + 1) (j + same + 1)
  else if i₀ < tks1.length then [join (a.bestTokens (slice tks j₀ tks.length).flatten)]
  else []
  termination_by (tks1.length - i) + (tks.length - j)

def tokenizeInner (l : Text) : List Text :=
  let tks := a.maxForward l
  let tks1 := a.maxBackward l
  let same := sameCount tks1 tks
  (if same > 0 then [join (slice tks 0 same)] else []) ++
    a.innerLoop tks tks1 same same (same + 1) (same + 1)

/-- A string with blanks is pushed in its parts. -/
def pushSplit (t : Text) : List Text := if ' ' ∈ t then splitBlank t else [t]

/-- The same loop with another way to push. -/
def tokenizeInnerWithPosition (l : Text) : List Text := (a.tokenizeInner l).flatMap pushSplit

/-- Segments that are not looked up. -/
def isPlain (l : Text) : Bool := l.length < 2 || pattern2 l || pattern3 l

/-! ## Merging -/

/-- How many tokens the longest frequent word at the front has, of at most five. -/
def mergeCount (tokens : List Text) : ℕ :=
  (List.range' 2 4).foldl (fun count e =>
    let tk := (tokens.take e).flatten
    if e ≤ tokens.length ∧ matchesSplitPattern tk ∧ a.freq tk > 0 then e else count) 1

/-- The loop of the merge, for at most so many tokens. -/
def mergeLoop : ℕ → List Text → List Text
  | 0, _ => []
  | _ + 1, [] => []
  | n + 1, t :: ts =>
      ((t :: ts).take (a.mergeCount (t :: ts))).flatten ::
        mergeLoop n ((t :: ts).drop (a.mergeCount (t :: ts)))

def mergeTokens (tokens : List Text) : List Text := a.mergeLoop tokens.length tokens

def merge (tks : Text) : Text := join (a.mergeTokens (splitBlank (collapse ' ' tks)))

def mergeWithPosition (tokens : List Text) : List Text :=
  a.mergeTokens (tokens.filter fun t => t ≠ [] ∧ t ≠ [' '])

/-! ## Coarse tokens -/

/-- The text that is tokenized. -/
def strline (line : Text) : Text := a.convert (strQ2B (a.replaceNonWords line))

def segmentStrings (segment : Text × Bool) : List Text :=
  if !segment.2 then
    ((a.sentenceSplitter segment.1).flatMap a.wordTokenizer).map a.normalize
  else if isPlain segment.1 then [segment.1]
  else a.tokenizeInner segment.1

def tokenize (line : Text) : Text :=
  a.merge (join ((splitByLang (a.strline line)).flatMap a.segmentStrings))

/-- Every term is looked for behind the one before; one that is not found is passed over. -/
def locate (sentence : Text) : ℕ → List Text → List (Text × Bool)
  | _, [] => []
  | pos, term :: terms =>
      match findFrom sentence term pos with
      | some i => (term, true) :: locate sentence (i + term.length) terms
      | none => (term, false) :: locate sentence pos terms

/-- The terms of a segment that is not Chinese, and whether they are found. -/
def terms (l : Text) : List (Text × Bool) :=
  (a.sentenceSplitter l).flatMap fun sentence => locate sentence 0 (a.wordTokenizer sentence)

def segmentTokens (segment : Text × Bool) : List Text :=
  if !segment.2 then
    ((a.terms segment.1).filter Prod.snd).map fun term => a.normalize term.1
  else if isPlain segment.1 then [segment.1]
  else a.tokenizeInnerWithPosition segment.1

/-- The loop over the segments; one that is not found is passed over. -/
def segmentLoop (strline : Text) : ℕ → List (Text × Bool) → List Text
  | _, [] => []
  | pos, segment :: arr =>
      if segment.1 = [] then segmentLoop strline pos arr
      else
        match findFrom strline segment.1 pos with
        | none => segmentLoop strline pos arr
        | some _ => a.segmentTokens segment ++ segmentLoop strline (pos + segment.1.length) arr

def tokenizeWithPosition (line : Text) : List Text :=
  a.mergeWithPosition (a.segmentLoop (a.strline line) 0 (splitByLang (a.strline line)))

/-! ## Fine tokens -/

def englishNormalize (tokens : List Text) : List Text :=
  tokens.map fun t => if pattern1 t then a.normalize t else t

/-- The number of Chinese characters. -/
def zhNum (tks : List Text) : ℕ := (tks.map fun t => t.countP isChinese).sum

/-- `zh_num < tks.size() * 0.2`; the product is exact where it is an integer. -/
def isEnglish (tks : List Text) : Bool := 5 * zhNum tks < tks.length

/-- `std::getline` by slashes; nothing is read behind a slash at the end. -/
def getlines (t : Text) : List Text :=
  let lines := t.splitOn '/'
  if lines.getLast? = some [] then lines.dropLast else lines

/-- A token or its second best tokenization. -/
def fineTokens (token : Text) : List Text :=
  if token.length < 3 || pattern4 token then [token]
  else
    match if token.length > 10 then [[token]] else a.sortedTokens token with
    | _ :: stk :: _ =>
        if stk.length = token.length then [token]
        else if pattern5 token then
          if stk.any fun t => t.length < 3 then [token] else stk
        else stk
    | _ => [token]

def fineGrainedTokenize (tokens : Text) : List Text :=
  let tks := splitBlank tokens
  if isEnglish tks then tks.flatMap getlines
  else a.englishNormalize (tks.flatMap a.fineTokens)

def fineGrainedTokenizeWithPosition (tokens : Text) : List Text :=
  let tks := splitBlank tokens
  if isEnglish tks then tks.flatMap fun token => (getlines token).filter (· ≠ [])
  else tks.flatMap a.fineTokens

/-- The tokens that are delivered; empty ones are not. -/
def analyzeImpl (text : Text) (fineGrained enablePosition : Bool) : List Text :=
  let tokens :=
    if enablePosition then
      let tokens := a.tokenizeWithPosition text
      if fineGrained then a.fineGrainedTokenizeWithPosition (join tokens) else tokens
    else
      let result := a.tokenize text
      if fineGrained then a.fineGrainedTokenize result else splitBlank result
  tokens.filter (· ≠ [])

end RAGAnalyzer

end RagflowMineru.Analyzer
