import RagflowMineru.Agent.StringFormat
import RagflowMineru.Library.Scanning
import Mathlib

/-!
# The text of a message

A `Message` component fills the references of a template with the values of
variables.  When it streams, it scans the template once.  When it does not, it
rewrites every reference to a name without punctuation, renders the result as a
template of jinja2, and then replaces the names one after the other, each in the
text that the names before left behind and each as a regular expression.
-/

namespace RagflowMineru.Agent.Message

open RagflowMineru.Library

/-! ## References -/

/-- `[a-zA-Z0-9]`; when case is ignored, four letters beyond ASCII are in `[a-z]` too. -/
def isAlphanum (ignoreCase : Bool) (c : Char) : Bool :=
  c.isAlphanum || (ignoreCase && c ∈ ['\u0130', '\u0131', '\u017F', '\u212A'])

/-- `[A-Za-z0-9_.]` -/
def isScopedChar (ignoreCase : Bool) (c : Char) : Bool :=
  isAlphanum ignoreCase c || c == '_' || c == '.'

/-- `id@name` with `[a-zA-Z:0-9]+` for the component and `[A-Za-z0-9_.-]+` for the name. -/
def isOutputName (ignoreCase : Bool) (exp : List Char) : Bool :=
  let cpnId := exp.takeWhile fun c => isAlphanum ignoreCase c || c == ':'
  match exp.drop cpnId.length with
  | '@' :: varNm =>
      !cpnId.isEmpty && !varNm.isEmpty && varNm.all fun c => isScopedChar ignoreCase c || c == '-'
  | _ => false

/-- A letter of a pattern that is in lower case. -/
def isLetter (ignoreCase : Bool) (p c : Char) : Bool :=
  c == p || (ignoreCase && (c.toLower == p || (p == 's' && c == '\u017F')))

/-- `sys.name` or `env.name`, with `[A-Za-z0-9_.]+` for the name. -/
def isScopedName (ignoreCase : Bool) (scope exp : List Char) : Bool :=
  let name := exp.drop scope.length
  ((scope.zip exp).all fun (p, c) => isLetter ignoreCase p c) && !name.isEmpty &&
    name.all (isScopedChar ignoreCase)

def isReference (ignoreCase : Bool) (exp : List Char) : Bool :=
  isOutputName ignoreCase exp || isScopedName ignoreCase "sys.".toList exp ||
    isScopedName ignoreCase "env.".toList exp

/-- A match of `variable_ref_patt`: the reference, and the braces and blanks around `{name}`. -/
structure Reference where
  before : List Char
  name : List Char
  after : List Char
  deriving DecidableEq

/-- A name in its braces. -/
def inBraces (name : List Char) : List Char := '{' :: (name ++ ['}'])

def Reference.spell (r : Reference) : List Char := r.before ++ (inBraces r.name ++ r.after)

/-- What `variable_ref_patt` matches at the beginning of a text. -/
def referenceAt (ignoreCase : Bool) (s : List Char) : Option Reference :=
  let braces := s.takeWhile (· == '{')
  let blanks := (s.drop braces.length).takeWhile (· == ' ')
  -- without blanks the last of the braces is the one that opens the reference
  let before := if blanks.isEmpty then braces.dropLast else braces ++ blanks
  match s.drop before.length with
  | '{' :: body =>
      let name := body.takeWhile (· != '}')
      match body.drop name.length with
      | '}' :: tail =>
          if isReference ignoreCase name then
            let blanks := tail.takeWhile (· == ' ')
            some ⟨before, name, blanks ++ (tail.drop blanks.length).takeWhile (· == '}')⟩
          else none
      | _ => none
  | _ => none

theorem drop_length_takeWhile {α : Type*} (p : α → Bool) (s : List α) :
    s.drop (s.takeWhile p).length = s.dropWhile p := by
  have h := congrArg (List.drop (s.takeWhile p).length)
    (List.takeWhile_append_dropWhile (p := p) (l := s))
  rw [List.drop_left] at h
  exact h.symm

theorem eq_takeWhile_append {α : Type*} (p : α → Bool) (s : List α) :
    s = s.takeWhile p ++ s.drop (s.takeWhile p).length := by
  rw [drop_length_takeWhile, List.takeWhile_append_dropWhile]

/-- A match is spelled as the text begins. -/
theorem referenceAt_spec {ignoreCase : Bool} {s : List Char} {r : Reference}
    (h : referenceAt ignoreCase s = some r) :
    r.spell <+: s ∧ isReference ignoreCase r.name = true ∧
      (∀ c ∈ r.before, c = '{' ∨ c = ' ') ∧ ∀ c ∈ r.after, c = ' ' ∨ c = '}' := by
  simp only [referenceAt] at h
  set braces := s.takeWhile (· == '{') with hbraces
  set blanks := (s.drop braces.length).takeWhile (· == ' ') with hblanks
  set before := if blanks.isEmpty then braces.dropLast else braces ++ blanks with hbefore
  have hsub : ∀ c ∈ before, c ∈ braces ∨ c ∈ blanks := by
    intro c hc
    rw [hbefore] at hc
    split_ifs at hc with hempty
    · exact Or.inl (List.mem_of_mem_dropLast hc)
    · exact List.mem_append.mp hc
  have hletters : ∀ c ∈ before, c = '{' ∨ c = ' ' := by
    intro c hc
    rcases hsub c hc with hbrace | hblank
    · exact Or.inl (by simpa using List.mem_takeWhile_imp hbrace)
    · exact Or.inr (by simpa using List.mem_takeWhile_imp hblank)
  have hbegins : before <+: s := by
    rw [hbefore]
    split_ifs with hempty
    · exact (List.dropLast_prefix _).trans (List.takeWhile_prefix _)
    · have hrest : braces ++ blanks <+: braces ++ s.drop braces.length :=
        (List.prefix_append_right_inj braces).mpr (List.takeWhile_prefix _)
      rwa [hbraces, ← eq_takeWhile_append] at hrest
  obtain ⟨rest, hrest⟩ := hbegins
  rw [← hrest, List.drop_left] at h
  split at h
  · next body =>
    split at h
    · next tail htail =>
      split_ifs at h with href
      obtain rfl := Option.some.inj h
      refine ⟨?_, href, hletters, ?_⟩
      · have hbody := eq_takeWhile_append (· != '}') body
        have htail' := eq_takeWhile_append (· == ' ') tail
        obtain ⟨last, hlast⟩ := List.takeWhile_prefix
          (l := tail.drop (tail.takeWhile (· == ' ')).length) (· == '}')
        rw [htail] at hbody
        refine ⟨last, Eq.trans ?_ hrest⟩
        rw [Reference.spell, List.append_assoc]
        apply congrArg (before ++ ·)
        rw [← hlast] at htail'
        generalize body.takeWhile (· != '}') = name at *
        rw [hbody]
        simp only [inBraces, List.cons_append, List.append_assoc, List.nil_append]
        rw [← htail']
      · intro c hc
        rcases List.mem_append.mp hc with hblank | hbrace
        · exact Or.inl (by simpa using List.mem_takeWhile_imp hblank)
        · exact Or.inr (by simpa using List.mem_takeWhile_imp hbrace)
    · contradiction
  · contradiction

/-- The letters of references. -/
def isNameChar (ignoreCase : Bool) (c : Char) : Bool :=
  isScopedChar ignoreCase c || c == '-' || c == '@' || c == ':'

theorem isNameChar_of_isOutputName {ignoreCase : Bool} {exp : List Char}
    (h : isOutputName ignoreCase exp = true) : exp ≠ [] ∧ ∀ c ∈ exp, isNameChar ignoreCase c := by
  simp only [isOutputName] at h
  have hexp := eq_takeWhile_append (fun c => isAlphanum ignoreCase c || c == ':') exp
  split at h
  · next varNm hvar =>
    rw [hvar] at hexp
    simp only [Bool.and_eq_true, List.all_eq_true] at h
    constructor
    · rintro rfl
      simp at hvar
    · intro c hc
      rw [hexp, List.mem_append, List.mem_cons] at hc
      rcases hc with hid | rfl | hname
      · have hletter := List.mem_takeWhile_imp hid
        rw [Bool.or_eq_true] at hletter
        rcases hletter with hletter | hletter
        · simp [isNameChar, isScopedChar, hletter]
        · simp [isNameChar, hletter]
      · simp [isNameChar]
      · have hletter := h.2 c hname
        rw [isNameChar, hletter]
        rfl
  · contradiction

theorem isNameChar_of_isScopedName {ignoreCase : Bool} {scope exp : List Char}
    (hscope : ∀ p ∈ scope, ∀ c, isLetter ignoreCase p c → isNameChar ignoreCase c)
    (h : isScopedName ignoreCase scope exp = true) :
    exp ≠ [] ∧ ∀ c ∈ exp, isNameChar ignoreCase c := by
  simp only [isScopedName, Bool.and_eq_true, List.all_eq_true] at h
  obtain ⟨⟨hzip, hne⟩, hname⟩ := h
  constructor
  · rintro rfl
    simp at hne
  · intro c hc
    rw [← List.take_append_drop scope.length exp, List.mem_append] at hc
    rcases hc with hc | hc
    · obtain ⟨i, hi, rfl⟩ := List.mem_iff_getElem.mp hc
      rw [List.length_take] at hi
      have hlen : i < scope.length := by omega
      rw [List.getElem_take]
      apply hscope _ (List.getElem_mem hlen)
      apply hzip (scope[i], exp[i])
      rw [List.mem_iff_getElem]
      refine ⟨i, ?_, List.getElem_zip⟩
      rw [List.length_zip]
      omega
    · have hletter := hname c hc
      simp [isNameChar, hletter]

theorem isNameChar_of_isLetter {ignoreCase : Bool} {p c : Char}
    (hp : p.isAlphanum ∨ p = '.') (h : isLetter ignoreCase p c = true) :
    isNameChar ignoreCase c := by
  have hself : c = p → isNameChar ignoreCase c = true := by
    rintro rfl
    rcases hp with hp | rfl
    · simp [isNameChar, isScopedChar, isAlphanum, hp]
    · simp [isNameChar, isScopedChar]
  rw [isLetter, Bool.or_eq_true, beq_iff_eq, Bool.and_eq_true, Bool.or_eq_true, beq_iff_eq] at h
  rcases h with h | ⟨rfl, h | h⟩
  · exact hself h
  · by_cases hupper : c.isUpper = true
    · simp [isNameChar, isScopedChar, isAlphanum, Char.isAlphanum, Char.isAlpha, hupper]
    · apply hself
      rw [← h, Char.toLower, dif_neg]
      simpa [Char.isUpper] using hupper
  · rw [Bool.and_eq_true, beq_iff_eq, beq_iff_eq] at h
    simp [isNameChar, isScopedChar, isAlphanum, h.2]

theorem isNameChar_of_isReference {ignoreCase : Bool} {exp : List Char}
    (h : isReference ignoreCase exp = true) : exp ≠ [] ∧ ∀ c ∈ exp, isNameChar ignoreCase c := by
  have hsys : ∀ p ∈ "sys.".toList, p.isAlphanum ∨ p = '.' := by simp
  have henv : ∀ p ∈ "env.".toList, p.isAlphanum ∨ p = '.' := by simp
  rw [isReference, Bool.or_eq_true, Bool.or_eq_true] at h
  rcases h with (h | h) | h
  · exact isNameChar_of_isOutputName h
  · exact isNameChar_of_isScopedName (fun p hp c => isNameChar_of_isLetter (hsys p hp)) h
  · exact isNameChar_of_isScopedName (fun p hp c => isNameChar_of_isLetter (henv p hp)) h

/-- A name has no punctuation of templates in it. -/
theorem not_isNameChar (ignoreCase : Bool) :
    ∀ c ∈ "\x7b\x7d %#\n\r\\".toList, isNameChar ignoreCase c = false := by
  have hall : ("\x7b\x7d %#\n\r\\".toList.all fun c => !isNameChar ignoreCase c) = true := by
    cases ignoreCase
    · decide
    · decide
  intro c hc
  exact (Bool.not_eq_true' _).mp (List.all_eq_true.mp hall c hc)

theorem notMem_of_isReference {ignoreCase : Bool} {exp : List Char}
    (h : isReference ignoreCase exp = true) {c : Char} (hc : c ∈ "\x7b\x7d %#\n\r\\".toList) :
    c ∉ exp := by
  intro hmem
  have hletter := (isNameChar_of_isReference h).2 c hmem
  rw [not_isNameChar ignoreCase c hc] at hletter
  contradiction

/-- A reference in its braces is found. -/
theorem referenceAt_inBraces {ignoreCase : Bool} {name : List Char}
    (h : isReference ignoreCase name = true) (s : List Char) :
    (referenceAt ignoreCase (inBraces name ++ s)).isSome := by
  obtain ⟨a, name', rfl⟩ := List.exists_cons_of_ne_nil (isNameChar_of_isReference h).1
  have hopen : a ≠ '{' := by
    rintro rfl
    exact notMem_of_isReference h (c := '{') (by decide) List.mem_cons_self
  have hblank : a ≠ ' ' := by
    rintro rfl
    exact notMem_of_isReference h (c := ' ') (by decide) List.mem_cons_self
  have hclose : (a :: name' ++ '}' :: s).takeWhile (· != '}') = a :: name' := by
    rw [List.takeWhile_append_of_pos]
    · simp
    · intro c hc
      rw [bne_iff_ne]
      rintro rfl
      exact notMem_of_isReference h (by decide) hc
  simp only [List.cons_append] at hclose
  simp [referenceAt, inBraces, hopen, hblank, hclose, h]

/-- `variable_ref_patt`; `DOTALL` does not matter for it. -/
def references (ignoreCase : Bool) : Matcher Char Reference where
  at? := referenceAt ignoreCase
  spell := Reference.spell
  spell_ne_nil := by simp [Reference.spell, inBraces]
  spell_begins h := (referenceAt_spec h).1

/-- The names that a template refers to, one for each match. -/
def refNames (ignoreCase : Bool) (template : List Char) : List (List Char) :=
  ((references ignoreCase).scan template).2.map (·.1.name)

theorem isReference_of_mem_scan {ignoreCase : Bool} {template : List Char} :
    ∀ part ∈ ((references ignoreCase).scan template).2, isReference ignoreCase part.1.name := by
  induction template using Matcher.scan_induction (m := references ignoreCase) with
  | nil => simp
  | skip a s hat ih => rwa [Matcher.scan_cons_of_none hat]
  | found r s hat ih =>
      rw [Matcher.scan_spell_append hat]
      intro part hpart
      rcases List.mem_cons.mp hpart with rfl | hpart
      · exact (referenceAt_spec hat).2.1
      · exact ih part hpart

/-! ## Streaming -/

/-- What `_stream` yields: the text in front of each match and the value of the reference, which
is looked up once, and the text behind the last match unless it is empty. -/
def streamParts (values : List Char → List Char) :
    Assoc (List Char) (List Char) → List Char → List (Reference × List Char) → List (List Char)
  | _, text, [] => if text.isEmpty then [] else [text]
  | cache, text, (r, next) :: rest =>
      match cache.get? r.name with
      | some v => text :: v :: streamParts values cache next rest
      | none =>
          let v := values r.name
          text :: v :: streamParts values (cache.set r.name v) next rest

def stream (values : List Char → List Char) (content : List Char) : List (List Char) :=
  let (text, rest) := (references false).scan content
  streamParts values [] text rest

/-! ## Rewriting the references -/

/-- `re.sub("[@:.]", "_", n)` -/
def mangle (n : List Char) : List Char := n.map fun c => if c ∈ ['@', ':', '.'] then '_' else c

/-- `get_input_elements_from_text`, with the values of the references. -/
def inputElements (values : List Char → List Char) (txt : List Char) :
    Assoc (List Char) (List Char) :=
  (refNames true txt).foldl (fun res exp => res.set exp (values exp)) []

/-- `get_kwargs`: the script with the rewritten references, and the values under the rewritten
names. -/
def getKwargs (values : List Char → List Char) (script : List Char)
    (kwargs : Assoc (List Char) (List Char)) : List Char × Assoc (List Char) (List Char) :=
  let kwargs := (inputElements values script).foldl
    (fun kwargs e => if e.1 ∈ kwargs.keys then kwargs else kwargs.set e.1 e.2) kwargs
  (kwargs.foldl (fun script e => substitute inBraces mangle [e.1] script) script,
    kwargs.foldl (fun _kwargs e => _kwargs.set (mangle e.1) e.2) [])

/-! ## Rendering without streaming -/

def isOctDigit (c : Char) : Bool := '0' ≤ c && c ≤ '7'

def octal (digits : List Char) : ℕ := digits.foldl (fun n d => 8 * n + (d.toNat - '0'.toNat)) 0

/-- `ESCAPES` of the module `re`, as far as they have letters. -/
def escapes : Assoc Char Char :=
  [('a', '\x07'), ('b', '\x08'), ('f', '\x0c'), ('n', '\n'), ('r', '\r'), ('t', '\t'),
    ('v', '\x0b'), ('\\', '\\')]

/-- What an escape in a replacement stands for, and how many letters behind the backslash belong
to it; `none` where `re.sub` raises.  The pattern has no groups but the whole match. -/
def escape (whole : List Char) : List Char → Option (List Char × ℕ)
  | [] => none
  | 'g' :: '<' :: rest =>
      let group := rest.takeWhile (· != '>')
      if group.length < rest.length && !group.isEmpty && group.all (· == '0') then
        some (whole, group.length + 3)
      else none
  | '0' :: rest =>
      let digits := (rest.take 2).takeWhile isOctDigit
      some ([Char.ofNat (octal digits)], digits.length + 1)
  | c :: rest =>
      if c.isDigit then
        let digits := c :: rest.take 2
        if digits.length = 3 && digits.all isOctDigit && octal digits ≤ 255 then
          some ([Char.ofNat (octal digits)], 3)
        else none
      else
        match escapes.get? c with
        | some d => some ([d], 1)
        | none => if c.isAlpha then none else some (['\\', c], 1)

/-- A replacement, read as a template; the first `skip` letters belong to an escape already. -/
def expandFrom (whole : List Char) : ℕ → List Char → Option (List Char)
  | _, [] => some []
  | skip + 1, _ :: repl => expandFrom whole skip repl
  | 0, c :: repl =>
      if c = '\\' then do
        let (text, length) ← escape whole repl
        let rest ← expandFrom whole length repl
        return text ++ rest
      else do
        let rest ← expandFrom whole 0 repl
        return c :: rest

/-- `re.sub` with a pattern without special characters. -/
def reSub (pattern repl text : List Char) : Option (List Char) := do
  let v ← expandFrom pattern 0 repl
  return replaceAll pattern v text

/-- `_is_jinjia2` -/
def isJinjia2 (content : List Char) : Bool :=
  (content.tails.any fun s => decide ("\x7b%".toList <+: s) &&
      (find "%\x7d".toList ((s.drop 2).takeWhile (· != '\n'))).isSome) ||
    (find "\x7b\x7b".toList content).isSome || (find "\x7d\x7d".toList content).isSome

/-- Two letters that make up a delimiter of jinja2. -/
def Delimits (a b : Char) : Prop :=
  (a = '{' ∧ (b = '{' ∨ b = '%' ∨ b = '#')) ∨ (a = '}' ∧ b = '}')

instance : DecidableRel Delimits := fun _ _ => inferInstanceAs (Decidable (_ ∨ _))

/-- A text without the syntax of jinja2. -/
def JinjaFree (text : List Char) : Prop := text.IsChain fun a b => ¬ Delimits a b

instance (text : List Char) : Decidable (JinjaFree text) :=
  inferInstanceAs (Decidable (text.IsChain _))

/-- Line breaks as jinja2 writes them. -/
def newlines : List Char → List Char
  | [] => []
  | '\r' :: '\n' :: s => '\n' :: newlines s
  | c :: s => (if c = '\r' then '\n' else c) :: newlines s

/-- What jinja2 makes of a text without its syntax: it drops a line break at the end. -/
def plainText (text : List Char) : List Char :=
  let text := newlines text
  if text.getLast? = some '\n' then text.dropLast else text

/-- The rendering of jinja2 with its default settings; `none` where it raises. -/
structure Jinja2 where
  render : List Char → Assoc (List Char) (List Char) → Option (List Char)
  render_plain : ∀ text kwargs, JinjaFree text → render text kwargs = some (plainText text)

/-- `_invoke`; the names of `kwargs` have no special characters. -/
def invoke (jinja : Jinja2) (isStream : Bool) (values : List Char → List Char)
    (content : List Char) (kwargs : Assoc (List Char) (List Char)) : Option (List Char) :=
  if isStream && !isJinjia2 content then
    some (stream values content).flatten
  else do
    let (script, kwargs) := getKwargs values content kwargs
    let content ← jinja.render script kwargs
    kwargs.foldlM (fun content e => reSub e.1 e.2 content) content

/-! ## What a message is for -/

/-- Every reference in its braces is replaced by its value. -/
def simultaneous (values : List Char → List Char) (template : List Char) : List Char :=
  substitute inBraces values (refNames false template) template

/-- Both ways to render a message put the values in the places of the references. -/
def RendersAlike (jinja : Jinja2) (values : List Char → List Char) (template : List Char) : Prop :=
  invoke jinja true values template [] = some (simultaneous values template) ∧
    invoke jinja false values template [] = some (simultaneous values template)

/-! ## The scan and the substitution -/

theorem isTag_inBraces {ignoreCase : Bool} {name : List Char}
    (h : isReference ignoreCase name = true) : IsTag '{' '}' (inBraces name) :=
  isTag_placeholder (b := (name, none))
    ⟨notMem_of_isReference h (by decide), notMem_of_isReference h (by decide)⟩

theorem inBraces_injective : Function.Injective inBraces := by
  intro name name' h
  exact List.append_cancel_right (List.cons.inj h).2

section Substitute

variable {ignoreCase : Bool} {tags : List (List Char)}
  (htags : ∀ name ∈ tags, isReference ignoreCase name = true) {f : List Char → List Char}

include htags

/-- The braces and blanks in front of a reference are passed over. -/
theorem substitute_before {before : List Char} (hbefore : ∀ c ∈ before, c = '{' ∨ c = ' ')
    (s : List Char) :
    substitute inBraces f tags (before ++ '{' :: s) =
      before ++ substitute inBraces f tags ('{' :: s) := by
  induction before with
  | nil => rfl
  | cons a before ih =>
      have hrest : ∀ c ∈ before, c = '{' ∨ c = ' ' := fun c hc =>
        hbefore c (List.mem_cons_of_mem a hc)
      have hnext : ∃ b u, before ++ '{' :: s = b :: u ∧ (b = '{' ∨ b = ' ') := by
        rcases before with - | ⟨b, u⟩
        · exact ⟨'{', s, rfl, Or.inl rfl⟩
        · exact ⟨b, u ++ '{' :: s, rfl, hrest b List.mem_cons_self⟩
      have hnone : ∀ name ∈ tags, ¬ inBraces name <+: a :: (before ++ '{' :: s) := by
        intro name hname hbegins
        obtain ⟨b, u, hu, hb⟩ := hnext
        obtain ⟨c, name', rfl⟩ :=
          List.exists_cons_of_ne_nil (isNameChar_of_isReference (htags name hname)).1
        rw [hu, inBraces, List.cons_append, List.cons_prefix_cons, List.cons_prefix_cons] at hbegins
        obtain ⟨-, rfl, -⟩ := hbegins
        have hpunctuation : c ∈ "\x7b\x7d %#\n\r\\".toList := by
          rcases hb with rfl | rfl
          · decide
          · decide
        exact notMem_of_isReference (htags _ hname) hpunctuation List.mem_cons_self
      rw [List.cons_append, substitute_cons_of_none hnone, ih hrest, List.cons_append]

/-- The substitution works match by match, and keeps the braces and blanks around. -/
theorem substitute_eq_joinAll {template : List Char} (hall : refNames ignoreCase template ⊆ tags) :
    substitute inBraces f tags template =
      joinAll (fun r : Reference => r.before ++ (f r.name ++ r.after))
        ((references ignoreCase).scan template).1 ((references ignoreCase).scan template).2 := by
  have hspell : ∀ name ∈ tags, IsTag '{' '}' (inBraces name) := fun name hname =>
    isTag_inBraces (htags name hname)
  have hinj : ∀ name ∈ tags, ∀ name' ∈ tags, inBraces name = inBraces name' → name = name' :=
    fun name _ name' _ h => inBraces_injective h
  induction template using Matcher.scan_induction (m := references ignoreCase) with
  | nil => rfl
  | skip a s hat ih =>
      rw [refNames, Matcher.scan_cons_of_none hat] at hall
      have hnone : ∀ name ∈ tags, ¬ inBraces name <+: a :: s := by
        rintro name hname ⟨u, hu⟩
        have hfound := referenceAt_inBraces (htags name hname) u
        rw [hu] at hfound
        rw [show referenceAt ignoreCase (a :: s) = none from hat] at hfound
        contradiction
      rw [substitute_cons_of_none hnone, ih hall, Matcher.scan_cons_of_none hat]
      rfl
  | found r s hat ih =>
      obtain ⟨-, -, hbefore, hafter⟩ := referenceAt_spec hat
      rw [refNames, Matcher.scan_spell_append hat, List.map_cons, List.cons_subset] at hall
      have hopen : '{' ∉ r.after := by
        intro hmem
        rcases hafter _ hmem with h | h
        · contradiction
        · contradiction
      have hspelled : (references ignoreCase).spell r ++ s =
          r.before ++ '{' :: (r.name ++ ['}'] ++ (r.after ++ s)) := by
        simp [references, Reference.spell, inBraces]
      rw [Matcher.scan_spell_append hat, hspelled, substitute_before htags hbefore,
        ← List.cons_append, ← inBraces, substitute_tag_append hspell hinj hall.1,
        substitute_append_of_notMem hspell hopen, ih hall.2, joinAll_cons]
      simp [joinAll]

end Substitute

/-! ## Streaming fills the references -/

theorem streamParts_flatten {values : List Char → List Char} {cache : Assoc (List Char) (List Char)}
    (hcache : ∀ n v, cache.get? n = some v → v = values n) (text : List Char)
    (rest : List (Reference × List Char)) :
    (streamParts values cache text rest).flatten =
      joinAll (fun r : Reference => values r.name) text rest := by
  induction rest generalizing cache text with
  | nil =>
      rw [streamParts, joinAll_nil]
      split_ifs with hempty
      · exact (List.isEmpty_iff.mp hempty).symm
      · exact List.append_nil text
  | cons part rest ih =>
      obtain ⟨r, next⟩ := part
      rw [streamParts, joinAll_cons]
      rcases hget : cache.get? r.name with - | v
      · have hnew : ∀ n v, (cache.set r.name (values r.name)).get? n = some v → v = values n := by
          intro n v hv
          by_cases hn : n = r.name
          · rw [hn, Assoc.get?_set_self] at hv
            rw [hn, ← Option.some.inj hv]
          · rw [Assoc.get?_set_of_ne hn] at hv
            exact hcache n v hv
        simp only [List.flatten_cons, ih hnew]
      · simp only [List.flatten_cons, ih hcache, hcache _ v hget]

theorem stream_flatten (values : List Char → List Char) (template : List Char) :
    (stream values template).flatten =
      joinAll (fun r : Reference => values r.name) ((references false).scan template).1
        ((references false).scan template).2 :=
  streamParts_flatten (by simp) _ _

/-- No reference has braces or blanks around it that belong to the match. -/
def Unpadded (template : List Char) : Prop :=
  ∀ part ∈ ((references false).scan template).2, part.1.before = [] ∧ part.1.after = []

instance (template : List Char) : Decidable (Unpadded template) :=
  inferInstanceAs (Decidable (∀ part ∈ _, _))

theorem simultaneous_eq (values : List Char → List Char) (template : List Char) :
    simultaneous values template =
      joinAll (fun r : Reference => r.before ++ (values r.name ++ r.after))
        ((references false).scan template).1 ((references false).scan template).2 := by
  refine @substitute_eq_joinAll false (refNames false template) ?_ values template ?_
  · intro name hname
    obtain ⟨part, hpart, rfl⟩ := List.mem_map.mp hname
    exact isReference_of_mem_scan part hpart
  · exact List.Subset.refl _

/-- Streaming loses what stands around the references, and nothing else. -/
theorem stream_eq_simultaneous_iff (values : List Char → List Char) (template : List Char) :
    (stream values template).flatten = simultaneous values template ↔ Unpadded template := by
  rw [stream_flatten, simultaneous_eq]
  constructor
  · intro h part hpart
    have hlen := length_eq_of_joinAll (by
      intro part _
      simp only [List.length_append]
      omega) h part hpart
    simp only [List.length_append] at hlen
    exact ⟨List.length_eq_zero_iff.mp (by omega), List.length_eq_zero_iff.mp (by omega)⟩
  · intro h
    apply joinAll_congr
    intro part hpart
    obtain ⟨hbefore, hafter⟩ := h part hpart
    rw [hbefore, hafter, List.nil_append, List.append_nil]

/-! ## Rewriting and replacing -/

theorem mangle_neutral {ignoreCase : Bool} {name : List Char}
    (h : isReference ignoreCase name = true) :
    mangle name ≠ [] ∧ ∀ c ∈ "\x7b\x7d %#\n\r\\".toList, c ∉ mangle name := by
  constructor
  · simpa [mangle] using (isNameChar_of_isReference h).1
  · intro c hc hmem
    obtain ⟨a, ha, hac⟩ := List.mem_map.mp hmem
    split_ifs at hac with hpunctuation
    · rw [← hac] at hc
      exact absurd hc (by decide)
    · rw [hac] at ha
      exact notMem_of_isReference h hc ha

/-- The values under the rewritten names, in the order of the names. -/
def mangledValues (values : List Char → List Char) (template : List Char) :
    Assoc (List Char) (List Char) :=
  (inputElements values template).foldl (fun _kwargs e => _kwargs.set (mangle e.1) e.2) []

theorem foldl_new_keys {kwargs res : Assoc (List Char) (List Char)}
    (h : (Assoc.keys (kwargs ++ res)).Nodup) :
    res.foldl (fun kwargs e => if e.1 ∈ kwargs.keys then kwargs else kwargs.set e.1 e.2) kwargs =
      kwargs ++ res := by
  induction res generalizing kwargs with
  | nil => rw [List.foldl_nil, List.append_nil]
  | cons e res ih =>
      have hnew : e.1 ∉ Assoc.keys kwargs := by
        rw [Assoc.keys, List.map_append, List.nodup_append] at h
        intro hmem
        exact h.2.2 _ hmem _ (by simp) rfl
      have happend : kwargs ++ e :: res = kwargs ++ [e] ++ res := by simp
      rw [happend] at h ⊢
      rw [List.foldl_cons, if_neg hnew, Assoc.set_of_notMem hnew, ih h]

theorem nodup_keys_inputElements (values : List Char → List Char) (template : List Char) :
    (inputElements values template).keys.Nodup :=
  Assoc.nodup_keys_foldl_set _ List.nodup_nil

theorem getKwargs_nil (values : List Char → List Char) (script : List Char) :
    getKwargs values script [] =
      (substituteEach inBraces mangle (inputElements values script).keys script,
        mangledValues values script) := by
  have hkeys := nodup_keys_inputElements values script
  rw [getKwargs, foldl_new_keys (by simpa using hkeys), List.nil_append, substituteEach,
    Assoc.keys, List.foldl_map]
  rfl

/-- No pass of the non-streaming path goes astray: it reads the same references as streaming does,
jinja2 drops nothing, rewriting makes no new references, rewritten names do not collide, no value
has an escape in it, and every rewritten name, when it is replaced, stands in the places of its
references and nowhere else. -/
structure NothingAstray (values : List Char → List Char) (template : List Char) : Prop where
  sameCase : (references true).scan template = (references false).scan template
  noLineBreak : '\r' ∉ template ∧ template.getLast? ≠ some '\n'
  undisturbed : Undisturbed inBraces mangle (inputElements values template).keys template
  agree : ∀ n ∈ refNames true template, ∀ n' ∈ refNames true template,
    mangle n = mangle n' → values n = values n'
  literal : ∀ n ∈ refNames true template, expandFrom (mangle n) 0 (values n) = some (values n)
  stands : ∀ pre pass post, mangledValues values template = pre ++ pass :: post →
    StandsAt pass.1 (fun r : Reference => mangle r.name = pass.1)
      (standing (fun r : Reference => mangle r.name) pre)
      ((references true).scan template).1 ((references true).scan template).2

theorem mem_inputElements {values : List Char → List Char} {template : List Char}
    {e : List Char × List Char} (h : e ∈ inputElements values template) :
    e.1 ∈ refNames true template ∧ e.2 = values e.1 := by
  rcases Assoc.mem_foldl_set h with h | ⟨n, hn, rfl⟩
  · exact absurd h List.not_mem_nil
  · exact ⟨hn, rfl⟩

theorem mem_keys_inputElements {values : List Char → List Char} {template n : List Char} :
    n ∈ (inputElements values template).keys ↔ n ∈ refNames true template := by
  constructor
  · intro h
    obtain ⟨e, he, rfl⟩ := List.mem_map.mp h
    exact (mem_inputElements he).1
  · intro h
    have hget : (inputElements values template).get? n = some (values n) :=
      Assoc.get?_foldl_set (k := fun n => n) (by
        intro i _ j _ heq
        exact congrArg values heq) h []
    exact List.mem_map_of_mem (Assoc.mem_of_get? hget)

theorem isReference_of_mem_refNames {ignoreCase : Bool} {template n : List Char}
    (h : n ∈ refNames ignoreCase template) : isReference ignoreCase n = true := by
  obtain ⟨part, hpart, rfl⟩ := List.mem_map.mp h
  exact isReference_of_mem_scan part hpart

section Passes

variable {values : List Char → List Char} {template : List Char}
  (hunpadded : Unpadded template) (h : NothingAstray values template)

include h

/-- After all replacements every reference has become its value. -/
theorem NothingAstray.standing_eq :
    ∀ part ∈ ((references true).scan template).2,
      standing (fun r : Reference => mangle r.name) (mangledValues values template) part.1 =
        values part.1.name := by
  intro part hpart
  have hname : part.1.name ∈ refNames true template := List.mem_map_of_mem hpart
  have hentry : (part.1.name, values part.1.name) ∈ inputElements values template := by
    have hkey : part.1.name ∈ (inputElements values template).keys :=
      mem_keys_inputElements.mpr hname
    obtain ⟨e, he, heq⟩ := List.mem_map.mp hkey
    have hvalue := (mem_inputElements he).2
    rw [heq] at hvalue
    rwa [← hvalue, ← heq]
  have hget := Assoc.get?_foldl_set (k := fun e : List Char × List Char => mangle e.1)
    (v := Prod.snd) (l := inputElements values template) (by
      intro e he e' he' heq
      obtain ⟨hmem, hv⟩ := mem_inputElements he
      obtain ⟨hmem', hv'⟩ := mem_inputElements he'
      rw [hv, hv', h.agree _ hmem _ hmem' heq]) hentry []
  rw [standing, mangledValues, hget]
  rfl

/-- Every value is a replacement that stands for itself. -/
theorem NothingAstray.foldlM_eq {passes : Assoc (List Char) (List Char)}
    (hpasses : passes <:+ mangledValues values template) (text : List Char) :
    passes.foldlM (fun content e => reSub e.1 e.2 content) text =
      some (replaceEach passes text) := by
  induction passes generalizing text with
  | nil => rfl
  | cons e passes ih =>
      have hrest : passes <:+ mangledValues values template :=
        (List.suffix_cons e passes).trans hpasses
      have hmem : e ∈ mangledValues values template := hpasses.subset List.mem_cons_self
      obtain hmem | ⟨e', he', rfl⟩ := Assoc.mem_foldl_set
        (k := fun e : List Char × List Char => mangle e.1) (v := Prod.snd) hmem
      · exact absurd hmem List.not_mem_nil
      obtain ⟨hname, hvalue⟩ := mem_inputElements he'
      have hsub :
          reSub (mangle e'.1) e'.2 text = some (replaceAll (mangle e'.1) e'.2 text) := by
        rw [reSub, hvalue, h.literal _ hname]
        rfl
      rw [List.foldlM_cons, hsub]
      exact ih hrest _

include hunpadded

/-- The script with the rewritten references. -/
theorem NothingAstray.script_eq :
    substituteEach inBraces mangle (inputElements values template).keys template =
      joinAll (fun r : Reference => mangle r.name) ((references true).scan template).1
        ((references true).scan template).2 := by
  have href : ∀ n ∈ (inputElements values template).keys, isReference true n = true :=
    fun n hn => isReference_of_mem_refNames (mem_keys_inputElements.mp hn)
  have hdistinct : Distinct inBraces (inputElements values template).keys :=
    (nodup_keys_inputElements values template).map inBraces_injective
  rw [(substituteEach_eq_iff (fun n hn => isTag_inBraces (href n hn)) hdistinct template).mpr
    h.undisturbed _ (List.prefix_refl _), substitute_eq_joinAll href]
  · apply joinAll_congr
    intro part hpart
    rw [h.sameCase] at hpart
    obtain ⟨hbefore, hafter⟩ := hunpadded part hpart
    rw [hbefore, hafter, List.nil_append, List.append_nil]
  · intro n hn
    exact mem_keys_inputElements.mpr hn

end Passes

/-! ## Rendering a text without syntax -/

theorem not_delimits_of_neutral {a : Char} (ha : a ∉ "\x7b\x7d %#\n\r\\".toList) (b : Char) :
    ¬ Delimits a b ∧ ¬ Delimits b a := by
  constructor
  · rintro (⟨rfl, -⟩ | ⟨rfl, -⟩)
    · exact ha (by decide)
    · exact ha (by decide)
  · rintro (⟨-, rfl | rfl | rfl⟩ | ⟨-, rfl⟩)
    · exact ha (by decide)
    · exact ha (by decide)
    · exact ha (by decide)
    · exact ha (by decide)

theorem newlines_eq_self {text : List Char} (h : '\r' ∉ text) : newlines text = text := by
  induction text with
  | nil => rfl
  | cons c text ih =>
      obtain ⟨hne, hrest⟩ := not_or.mp (List.mem_cons.not.mp h)
      rw [newlines, if_neg (Ne.symm hne), ih hrest]
      intro s hc
      exact absurd hc.symm hne

theorem plainText_eq_self {text : List Char} (hreturn : '\r' ∉ text)
    (hlast : text.getLast? ≠ some '\n') : plainText text = text := by
  simp only [plainText, newlines_eq_self hreturn, if_neg hlast]

/-- Two letters next to each other in a text without syntax are not a delimiter. -/
theorem JinjaFree.not_infix {text : List Char} (h : JinjaFree text) {a b : Char}
    (hab : Delimits a b) : ¬ [a, b] <:+: text := by
  intro hin
  have hpair : [a, b].IsChain fun a b => ¬ Delimits a b := List.IsChain.infix h hin
  exact List.isChain_pair.mp hpair hab

theorem isJinjia2_of_jinjaFree {text : List Char} (h : JinjaFree text) :
    isJinjia2 text = false := by
  have hopen : find "\x7b\x7b".toList text = none :=
    find_eq_none_iff.mpr (h.not_infix (a := '{') (b := '{') (by decide))
  have hclose : find "\x7d\x7d".toList text = none :=
    find_eq_none_iff.mpr (h.not_infix (a := '}') (b := '}') (by decide))
  have hblock : (text.tails.any fun s => decide ("\x7b%".toList <+: s) &&
      (find "%\x7d".toList ((s.drop 2).takeWhile (· != '\n'))).isSome) = false := by
    rw [List.any_eq_false]
    intro s hs
    have hbegins : ¬ "\x7b%".toList <+: s := fun hbegins =>
      h.not_infix (a := '{') (b := '%') (by decide)
        (hbegins.isInfix.trans ((List.mem_tails s text).mp hs).isInfix)
    rw [decide_eq_false hbegins, Bool.false_and]
    exact Bool.false_ne_true
  rw [isJinjia2, hopen, hclose, hblock]
  rfl

/-- Rewriting the references makes no syntax and no line breaks. -/
theorem NothingAstray.render_eq {values : List Char → List Char} {template : List Char}
    (h : NothingAstray values template) (hfree : JinjaFree template) (jinja : Jinja2)
    (kwargs : Assoc (List Char) (List Char)) :
    jinja.render (joinAll (fun r : Reference => mangle r.name)
        ((references true).scan template).1 ((references true).scan template).2) kwargs =
      some (joinAll (fun r : Reference => mangle r.name) ((references true).scan template).1
        ((references true).scan template).2) := by
  have hneutral : ∀ part ∈ ((references true).scan template).2, mangle part.1.name ≠ [] ∧
      ∀ c ∈ "\x7b\x7d %#\n\r\\".toList, c ∉ mangle part.1.name := fun part hpart =>
    mangle_neutral (isReference_of_mem_scan part hpart)
  have htemplate := Matcher.joinAll_scan (m := references true) template
  have hscript := isChain_joinAll (g := fun r : Reference => mangle r.name) (fun part hpart =>
    ⟨(hneutral part hpart).1, fun a ha b => not_delimits_of_neutral
      (fun hc => (hneutral part hpart).2 a hc ha) b⟩) (htemplate.symm ▸ hfree)
  rw [jinja.render_plain _ _ hscript, plainText_eq_self]
  · intro hreturn
    rcases mem_joinAll (f := (references true).spell) hreturn with ⟨part, hpart, hc⟩ | hc
    · exact (hneutral part hpart).2 '\r' (by decide) hc
    · rw [htemplate] at hc
      exact h.noLineBreak.1 hc
  · intro hlast
    rcases getLast?_joinAll (f := (references true).spell)
      (fun part hpart => (hneutral part hpart).1) hlast with ⟨part, hpart, hc⟩ | hc
    · exact (hneutral part hpart).2 '\n' (by decide) hc
    · rw [htemplate] at hc
      exact h.noLineBreak.2 hc

/-- A message renders alike only if no reference has braces or blanks around it, and it does when,
besides, no pass of the non-streaming path goes astray. -/
theorem rendersAlike_of_nothingAstray (jinja : Jinja2) (values : List Char → List Char)
    (template : List Char) (hfree : JinjaFree template) :
    (RendersAlike jinja values template → Unpadded template) ∧
      (Unpadded template → NothingAstray values template → RendersAlike jinja values template) := by
  have hstream : invoke jinja true values template [] = some (stream values template).flatten := by
    rw [invoke, isJinjia2_of_jinjaFree hfree]
    rfl
  constructor
  · rintro ⟨hvalue, -⟩
    rw [hstream] at hvalue
    exact (stream_eq_simultaneous_iff values template).mp (Option.some.inj hvalue)
  · intro hunpadded h
    constructor
    · rw [hstream, (stream_eq_simultaneous_iff values template).mpr hunpadded]
    · have hkeys : (mangledValues values template).keys.Nodup :=
        Assoc.nodup_keys_foldl_set (k := fun e : List Char × List Char => mangle e.1)
          (v := Prod.snd) _ List.nodup_nil
      have hsimultaneous : simultaneous values template =
          joinAll (fun r : Reference => values r.name) ((references true).scan template).1
            ((references true).scan template).2 := by
        rw [← (stream_eq_simultaneous_iff values template).mpr hunpadded, stream_flatten,
          h.sameCase]
      rw [invoke, if_neg (by simp), getKwargs_nil, h.script_eq hunpadded, hsimultaneous]
      simp only [h.render_eq hfree jinja, Option.bind_eq_bind, Option.bind_some]
      rw [h.foldlM_eq List.suffix_rfl, replaceEach_joinAll hkeys h.stands _ (List.prefix_refl _)]
      exact congrArg some (joinAll_congr h.standing_eq)

/-- jinja2, as far as templates without its syntax go. -/
def plainJinja2 : Jinja2 where
  render text _ := some (plainText text)
  render_plain _ _ _ := rfl

/-- A question and who asks it. -/
def askedTemplate : List Char := "\x7bsys.user_id\x7d:\x7bsys.query\x7d".toList

def askedValues (query : String) (n : List Char) : List Char :=
  if n = "sys.query".toList then query.toList else "u1".toList

theorem split_pair {α : Type*} {x y z : α} {pre post : List α} (h : [x, y] = pre ++ z :: post) :
    (pre = [] ∧ z = x) ∨ (pre = [x] ∧ z = y) := by
  rcases pre with - | ⟨a, - | ⟨b, pre⟩⟩
  · exact Or.inl ⟨rfl, (List.cons.inj h).1.symm⟩
  · obtain ⟨rfl, htail⟩ := List.cons.inj h
    exact Or.inr ⟨rfl, (List.cons.inj htail).1.symm⟩
  · simp at h

theorem rendersAlike_asked :
    RendersAlike plainJinja2 (askedValues "why not?") askedTemplate := by
  have hnames : (inputElements (askedValues "why not?") askedTemplate).keys =
      ["sys.user_id".toList, "sys.query".toList] := by decide +kernel
  have hpasses : mangledValues (askedValues "why not?") askedTemplate =
      [("sys_user_id".toList, "u1".toList), ("sys_query".toList, "why not?".toList)] := by
    decide +kernel
  refine (rendersAlike_of_nothingAstray plainJinja2 (askedValues "why not?") askedTemplate
    (by decide +kernel)).2 (by decide +kernel) ?_
  constructor
  · decide +kernel
  · decide +kernel
  · intro pre tag post hsplit
    rw [hnames] at hsplit
    rcases split_pair hsplit with ⟨rfl, rfl⟩ | ⟨rfl, rfl⟩
    · decide +kernel
    · decide +kernel
  · decide +kernel
  · decide +kernel
  · intro pre pass post hsplit
    rw [hpasses] at hsplit
    rcases split_pair hsplit with ⟨rfl, rfl⟩ | ⟨rfl, rfl⟩
    · decide +kernel
    · decide +kernel

/-- A backslash in a value is read as an escape. -/
theorem not_rendersAlike : ¬ ∀ jinja values template, JinjaFree template →
    RendersAlike jinja values template := by
  intro h
  have hpath := h plainJinja2 (askedValues "C:\\temp") askedTemplate (by decide +kernel)
  have hresult : invoke plainJinja2 false (askedValues "C:\\temp") askedTemplate [] =
      some "u1:C:\temp".toList := by decide +kernel
  have hlaw : simultaneous (askedValues "C:\\temp") askedTemplate = "u1:C:\\temp".toList := by
    decide +kernel
  rw [RendersAlike, hresult, hlaw] at hpath
  exact absurd hpath.2 (by decide)

end RagflowMineru.Agent.Message
