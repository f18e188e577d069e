import Mathlib.Data.List.TakeWhile

/-!
# The lexer of the command line

A text is the list of its bytes, each as the character with its number.  Words are
keywords in any case; a backslash begins a meta command.  A zero byte stands for
the end of the input, so the lexer does not go beyond one.
-/

namespace RagflowMineru.Cli

/-- The keywords in the order of their token types. -/
inductive Keyword where
  | login | register | list | services | «show» | create | service | shutdown | startup | restart
  | users | drop | user | alter | active | admin | password | dataset | datasets | of | agents
  | role | roles | description | grant | revoke | all | permission | «to» | «from» | «for» | resources
  | on | set | reset | version | var | vars | configs | envs | key | keys | generate | model
  | models | provider | providers | default | chats | chat | files | as | parse | «import» | into
  | «with» | parser | pipeline | search | current | llm | vlm | embedding | reranker | asr | tts
  | async | sync | benchmark | ping
  deriving DecidableEq

namespace Keyword

def keywords : List Keyword :=
  [login, register, list, services, «show», create, service, shutdown, startup, restart, users,
    drop, user, alter, active, admin, password, dataset, datasets, of, agents, role, roles,
    description, grant, revoke, all, permission, «to», «from», «for», resources, on, set, reset,
    version, var, vars, configs, envs, key, keys, generate, model, models, provider, providers,
    default, chats, chat, files, as, parse, «import», into, «with», parser, pipeline, search,
    current, llm, vlm, embedding, reranker, asr, tts, async, sync, benchmark, ping]

def spelling : Keyword → List Char
  | login => "LOGIN".toList
  | register => "REGISTER".toList
  | list => "LIST".toList
  | services => "SERVICES".toList
  | «show» => "SHOW".toList
  | create => "CREATE".toList
  | service => "SERVICE".toList
  | shutdown => "SHUTDOWN".toList
  | startup => "STARTUP".toList
  | restart => "RESTART".toList
  | users => "USERS".toList
  | drop => "DROP".toList
  | user => "USER".toList
  | alter => "ALTER".toList
  | active => "ACTIVE".toList
  | admin => "ADMIN".toList
  | password => "PASSWORD".toList
  | dataset => "DATASET".toList
  | datasets => "DATASETS".toList
  | of => "OF".toList
  | agents => "AGENTS".toList
  | role => "ROLE".toList
  | roles => "ROLES".toList
  | description => "DESCRIPTION".toList
  | grant => "GRANT".toList
  | revoke => "REVOKE".toList
  | all => "ALL".toList
  | permission => "PERMISSION".toList
  | «to» => "TO".toList
  | «from» => "FROM".toList
  | «for» => "FOR".toList
  | resources => "RESOURCES".toList
  | on => "ON".toList
  | set => "SET".toList
  | reset => "RESET".toList
  | version => "VERSION".toList
  | var => "VAR".toList
  | vars => "VARS".toList
  | configs => "CONFIGS".toList
  | envs => "ENVS".toList
  | key => "KEY".toList
  | keys => "KEYS".toList
  | generate => "GENERATE".toList
  | model => "MODEL".toList
  | models => "MODELS".toList
  | provider => "PROVIDER".toList
  | providers => "PROVIDERS".toList
  | default => "DEFAULT".toList
  | chats => "CHATS".toList
  | chat => "CHAT".toList
  | files => "FILES".toList
  | as => "AS".toList
  | parse => "PARSE".toList
  | «import» => "IMPORT".toList
  | into => "INTO".toList
  | «with» => "WITH".toList
  | parser => "PARSER".toList
  | pipeline => "PIPELINE".toList
  | search => "SEARCH".toList
  | current => "CURRENT".toList
  | llm => "LLM".toList
  | vlm => "VLM".toList
  | embedding => "EMBEDDING".toList
  | reranker => "RERANKER".toList
  | asr => "ASR".toList
  | tts => "TTS".toList
  | async => "ASYNC".toList
  | sync => "SYNC".toList
  | benchmark => "BENCHMARK".toList
  | ping => "PING".toList

end Keyword

inductive TokenType where
  | keyword (k : Keyword)
  | identifier | quotedString | number
  | semicolon | comma | eof | illegal
  deriving DecidableEq

structure Token where
  type : TokenType
  value : List Char
  deriving DecidableEq

/-- The byte that the lexer reads at the end of the input. -/
def nul : Char := Char.ofNat 0

/-- `unicode.IsLetter` of a byte. -/
def isLetter (ch : Char) : Bool :=
  ch.isAlpha || ch.toNat ∈ [0xAA, 0xB5, 0xBA] ||
    (0xC0 ≤ ch.toNat && ch.toNat ≤ 0xFF && ch.toNat ∉ [0xD7, 0xF7])

def isDigit (ch : Char) : Bool := ch.isDigit

def isWhitespace (ch : Char) : Bool := ch ∈ [' ', '\t', '\n', '\r']

def isIdentifierChar (ch : Char) : Bool := isLetter ch || isDigit ch || ch ∈ ['_', '-', '.']

def lookupIdent (ident : List Char) : Token :=
  match Keyword.keywords.find? (·.spelling = ident.map Char.toUpper) with
  | some k => ⟨.keyword k, ident⟩
  | none => ⟨.identifier, ident⟩

/-- The rest of a quoted string, behind its opening quote. -/
def readQuotedString (quote : Char) (s : List Char) : List Char × List Char :=
  let str := s.takeWhile fun ch => ch ≠ quote ∧ ch ≠ nul
  let rest := s.drop str.length
  (str, if rest.head? = some quote then rest.tail else rest)

def nextToken (s : List Char) : Token × List Char :=
  match s.dropWhile isWhitespace with
  | [] => (⟨.eof, []⟩, [])
  | ch :: rest =>
      if ch = ';' then (⟨.semicolon, [ch]⟩, rest)
      else if ch = ',' then (⟨.comma, [ch]⟩, rest)
      else if ch = '\'' ∨ ch = '"' then
        let (str, rest) := readQuotedString ch rest
        (⟨.quotedString, str⟩, rest)
      else if ch = '\\' then
        let name := rest.takeWhile fun ch => isLetter ch || ch = '?'
        (⟨.identifier, ch :: name⟩, rest.drop name.length)
      else if ch = nul then (⟨.eof, []⟩, ch :: rest)
      else if isLetter ch then
        let ident := (ch :: rest).takeWhile isIdentifierChar
        (lookupIdent ident, (ch :: rest).drop ident.length)
      else if isDigit ch then
        let number := (ch :: rest).takeWhile isDigit
        (⟨.number, number⟩, (ch :: rest).drop number.length)
      else (⟨.illegal, [ch]⟩, rest)

/-- At most so many tokens, up to the end of the input. -/
def tokensFrom : ℕ → List Char → List Token
  | 0, _ => []
  | n + 1, s =>
      let (token, rest) := nextToken s
      if token.type = .eof then [] else token :: tokensFrom n rest

def tokens (s : List Char) : List Token := tokensFrom s.length s

theorem length_dropWhile_le (p : Char → Bool) (s : List Char) :
    (s.dropWhile p).length ≤ s.length := (s.dropWhile_sublist p).length_le

theorem length_readQuotedString_le (quote : Char) (s : List Char) :
    (readQuotedString quote s).2.length ≤ s.length := by
  rw [readQuotedString]
  simp only
  split
  · rw [List.length_tail, List.length_drop]
    omega
  · rw [List.length_drop]
    omega

/-- A run that begins with the first character takes it. -/
theorem length_drop_takeWhile_lt {p : Char → Bool} {ch : Char} (hch : p ch) (rest : List Char) :
    ((ch :: rest).drop ((ch :: rest).takeWhile p).length).length < (ch :: rest).length := by
  rw [List.takeWhile_cons_of_pos hch, List.length_drop, List.length_cons, List.length_cons]
  omega

/-- Every token but the end takes some of the input. -/
theorem length_nextToken {s : List Char} (h : (nextToken s).1.type ≠ .eof) :
    (nextToken s).2.length < s.length := by
  have hle := length_dropWhile_le isWhitespace s
  rw [nextToken] at h ⊢
  cases hs : s.dropWhile isWhitespace with
  | nil => simp [hs] at h
  | cons ch rest =>
      rw [hs] at hle
      refine lt_of_lt_of_le ?_ hle
      simp only [hs] at h ⊢
      have hrest : rest.length < (ch :: rest).length := Nat.lt_succ_self _
      split_ifs at h ⊢ with hsemicolon hcomma hquote hmeta hnul hletter hdigit
      · exact hrest
      · exact hrest
      · exact (length_readQuotedString_le ch rest).trans_lt hrest
      · rw [List.length_drop]
        omega
      · exact absurd rfl h
      · exact length_drop_takeWhile_lt (by rw [isIdentifierChar, hletter]; rfl) rest
      · exact length_drop_takeWhile_lt hdigit rest
      · exact hrest

/-- All tokens are read. -/
theorem tokensFrom_eq {n : ℕ} {s : List Char} (hn : s.length ≤ n) : tokensFrom n s = tokens s := by
  rw [tokens]
  have hall : ∀ m n (s : List Char), s.length ≤ m → s.length ≤ n →
      tokensFrom m s = tokensFrom n s := by
    intro m
    induction m with
    | zero =>
        intro n s hm _
        obtain rfl := List.length_eq_zero_iff.mp (Nat.le_zero.mp hm)
        cases n with
        | zero => rfl
        | succ n => rfl
    | succ m ih =>
        intro n s hm hn
        cases n with
        | zero =>
            obtain rfl := List.length_eq_zero_iff.mp (Nat.le_zero.mp hn)
            rfl
        | succ n =>
            rw [tokensFrom, tokensFrom]
            by_cases heof : (nextToken s).1.type = .eof
            · simp only [if_pos heof]
            · have hlt := length_nextToken heof
              simp only [if_neg heof]
              rw [ih n _ (by omega) (by omega)]
  exact hall n s.length s hn le_rfl

end RagflowMineru.Cli
