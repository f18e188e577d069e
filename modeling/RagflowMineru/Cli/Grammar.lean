import RagflowMineru.Cli.Parser
import RagflowMineru.Library.Patterns

/-!
# The documented grammar of the command line

Every statement of the grammar is a list of symbols in front of its semicolon.
Some of its keywords are none for the lexer.
-/

namespace RagflowMineru.Cli

open Library

/-- The keywords of the grammar that the lexer reads as identifiers. -/
inductive Extra where
  | session | sessions | documents | metadata | summary | server | fingerprint | license | check
  | config
  deriving DecidableEq

def Extra.spelling : Extra → List Char
  | session => "SESSION".toList
  | sessions => "SESSIONS".toList
  | documents => "DOCUMENTS".toList
  | metadata => "METADATA".toList
  | summary => "SUMMARY".toList
  | server => "SERVER".toList
  | fingerprint => "FINGERPRINT".toList
  | license => "LICENSE".toList
  | check => "CHECK".toList
  | config => "CONFIG".toList

/-- What stands at one place of a statement.  The last two are of the parser alone:
a token that it passes over, and one in front of the semicolon. -/
inductive Sym where
  | keyword (k : Keyword)
  | extra (e : Extra)
  | quoted | identifier | number | status | comma | semicolon
  | any
  | foreign (excluded : List Keyword)
  deriving DecidableEq

namespace Sym

def isWord (t : Token) : Bool := t.type = .identifier || Parser.isKeyword t.type

/-- The characters of names in the grammar. -/
def plainName (value : List Char) : Bool :=
  value.all fun ch => ch.isAlphanum || ch ∈ ['_', '-', '.']

/-- The tokens that the grammar has for a symbol. -/
def Written : Sym → Token → Prop
  | keyword k, t => t.type = .keyword k
  | extra e, t => t.type = .identifier ∧ t.value.map Char.toUpper = e.spelling
  | quoted, t => t.type = .quotedString ∧ t.value ≠ []
  | identifier, t => isWord t ∧ plainName t.value
  | number, t => t.type = .number
  | status, t => isWord t ∧ plainName t.value
  | comma, t => t.type = .comma
  | semicolon, t => t.type = .semicolon
  | any, _ => False
  | foreign _, _ => False

/-- The tokens that the parser reads for a symbol. -/
def Read : Sym → Token → Prop
  | keyword k, t => t.type = .keyword k
  | extra _, _ => False
  | quoted, t => t.type = .quotedString
  | identifier, t => t.type = .identifier
  | number, t => t.type = .number ∧ (Parser.atoi t.value).isSome
  | status, t => t.value = "on".toList ∨ t.value = "off".toList
  | comma, t => t.type = .comma
  | semicolon, t => t.type = .semicolon
  | any, _ => True
  | foreign excluded, t => t.type ≠ .semicolon ∧ ∀ k ∈ excluded, t.type ≠ .keyword k

instance decidableWritten : ∀ (a : Sym) (t : Token), Decidable (a.Written t)
  | keyword k, t => inferInstanceAs (Decidable (t.type = .keyword k))
  | extra _, _ => inferInstanceAs (Decidable (_ ∧ _))
  | quoted, _ => inferInstanceAs (Decidable (_ ∧ _ ≠ _))
  | identifier, _ => inferInstanceAs (Decidable (_ = _ ∧ _ = _))
  | number, t => inferInstanceAs (Decidable (t.type = .number))
  | status, _ => inferInstanceAs (Decidable (_ = _ ∧ _ = _))
  | comma, t => inferInstanceAs (Decidable (t.type = .comma))
  | semicolon, t => inferInstanceAs (Decidable (t.type = .semicolon))
  | any, _ => inferInstanceAs (Decidable False)
  | foreign _, _ => inferInstanceAs (Decidable False)

instance decidableRead : ∀ (a : Sym) (t : Token), Decidable (a.Read t)
  | keyword k, t => inferInstanceAs (Decidable (t.type = .keyword k))
  | extra _, _ => inferInstanceAs (Decidable False)
  | quoted, t => inferInstanceAs (Decidable (t.type = .quotedString))
  | identifier, t => inferInstanceAs (Decidable (t.type = .identifier))
  | number, _ => inferInstanceAs (Decidable (_ ∧ _ = _))
  | status, _ => inferInstanceAs (Decidable (_ ∨ _))
  | comma, t => inferInstanceAs (Decidable (t.type = .comma))
  | semicolon, t => inferInstanceAs (Decidable (t.type = .semicolon))
  | any, _ => inferInstanceAs (Decidable True)
  | foreign _, _ => inferInstanceAs (Decidable (_ ≠ _ ∧ ∀ k ∈ _, _ ≠ _))

/-- What the grammar asks of a token that the parser reads. -/
def Plain : Sym → Token → Prop
  | quoted, t => t.value ≠ []
  | identifier, t => plainName t.value
  | status, t => isWord t
  | any, _ => False
  | foreign _, _ => False
  | _, _ => True

/-- What the parser asks of a token of the grammar. -/
def Readable : Sym → Token → Prop
  | extra _, _ => False
  | identifier, t => t.type = .identifier
  | number, t => (Parser.atoi t.value).isSome
  | status, t => t.value = "on".toList ∨ t.value = "off".toList
  | _, _ => True

/-- Some token may be read for the first symbol and be written for the second. -/
def meets : Sym → Sym → Bool
  | keyword k, keyword k' => k = k'
  | keyword _, identifier => true
  | keyword _, status => true
  | quoted, quoted => true
  | identifier, extra _ => true
  | identifier, identifier => true
  | identifier, status => true
  | number, number => true
  | status, _ => true
  | comma, comma => true
  | semicolon, semicolon => true
  | any, _ => true
  | foreign excluded, keyword k => k ∉ excluded
  | foreign _, b => b ≠ semicolon
  | _, _ => false

/-- A word is no other token. -/
theorem isWord_iff {t : Token} :
    isWord t ↔ t.type = .identifier ∨ ∃ k, t.type = .keyword k := by
  rw [isWord, Bool.or_eq_true, decide_eq_true_iff]
  cases t.type <;> simp [Parser.isKeyword]

theorem written_iff_plain {a : Sym} {t : Token} (h : a.Read t) : a.Written t ↔ a.Plain t := by
  cases a with
  | keyword k => exact iff_of_true h trivial
  | extra e => exact h.elim
  | quoted => exact and_iff_right h
  | identifier => exact and_iff_right (isWord_iff.mpr (.inl h))
  | number => exact iff_of_true h.1 trivial
  | status =>
      refine and_iff_left ?_
      obtain hon | hoff := h
      · rw [hon]
        decide
      · rw [hoff]
        decide
  | comma => exact iff_of_true h trivial
  | semicolon => exact iff_of_true h trivial
  | any => exact Iff.rfl
  | foreign excluded => exact Iff.rfl

theorem read_iff_readable {a : Sym} {t : Token} (h : a.Written t) : a.Read t ↔ a.Readable t := by
  cases a with
  | keyword k => exact iff_of_true h trivial
  | extra e => exact Iff.rfl
  | quoted => exact iff_of_true h.1 trivial
  | identifier => exact Iff.rfl
  | number => exact and_iff_right h
  | status => exact Iff.rfl
  | comma => exact iff_of_true h trivial
  | semicolon => exact iff_of_true h trivial
  | any => exact h.elim
  | foreign excluded => exact h.elim

end Sym

open RagflowMineru.Cli.Sym

/-! ## Productions -/

def keywords (ks : List Keyword) : List Sym := ks.map .keyword

def behindCommas (a : Sym) : ℕ → List Sym
  | 0 => []
  | n + 1 => comma :: a :: behindCommas a n

/-- One symbol and more of it behind commas. -/
def separated (a : Sym) (n : ℕ) : List Sym := a :: behindCommas a n

def modelKinds : List Keyword := [.llm, .vlm, .embedding, .reranker, .asr, .tts]

def createChat : List Sym := keywords [.create, .chat] ++ [quoted]

def userStatements : List (List Sym) :=
  [keywords [.ping],
    keywords [.show, .current, .user],
    keywords [.create, .model, .provider] ++ [quoted, quoted],
    keywords [.drop, .model, .provider] ++ [quoted]] ++
  modelKinds.map (fun k => keywords [.set, .default, k] ++ [quoted]) ++
  modelKinds.map (fun k => keywords [.reset, .default, k]) ++
  [keywords [.create, .dataset] ++ [quoted] ++ keywords [.with, .embedding] ++ [quoted] ++
      keywords [.parser] ++ [quoted],
    keywords [.create, .dataset] ++ [quoted] ++ keywords [.with, .embedding] ++ [quoted] ++
      keywords [.pipeline] ++ [quoted],
    keywords [.drop, .dataset] ++ [quoted],
    keywords [.list, .datasets],
    keywords [.list, .files, .of, .dataset] ++ [quoted],
    keywords [.list, .agents],
    keywords [.list, .chats],
    createChat,
    keywords [.drop, .chat] ++ [quoted],
    keywords [.list, .model, .providers],
    keywords [.list, .default, .models],
    keywords [.import] ++ [quoted] ++ keywords [.into, .dataset] ++ [quoted],
    keywords [.search] ++ [quoted] ++ keywords [.on, .datasets] ++ [quoted],
    createChat ++ [extra .session],
    keywords [.drop, .chat] ++ [quoted, extra .session, quoted],
    keywords [.list, .chat] ++ [quoted, extra .sessions],
    keywords [.chat] ++ [quoted] ++ keywords [.on] ++ [quoted, extra .session, quoted]]

/-- In front of a statement that is measured. -/
def benchmark : List Sym := keywords [.benchmark] ++ [number, number]

def otherStatements : List (List Sym) :=
  [keywords [.login, .user] ++ [quoted],
    keywords [.list, .services],
    keywords [.show, .service] ++ [number],
    keywords [.startup, .service] ++ [number],
    keywords [.shutdown, .service] ++ [number],
    keywords [.restart, .service] ++ [number],
    keywords [.register, .user] ++ [quoted] ++ keywords [.as] ++ [quoted] ++
      keywords [.password] ++ [quoted],
    keywords [.list, .users],
    keywords [.drop, .user] ++ [quoted],
    keywords [.alter, .user, .password] ++ [quoted, quoted],
    keywords [.show, .user] ++ [quoted],
    keywords [.create, .user] ++ [quoted, quoted],
    keywords [.alter, .user, .active] ++ [quoted, status],
    keywords [.list, .datasets, .of] ++ [quoted],
    keywords [.list, .agents, .of] ++ [quoted],
    keywords [.create, .role] ++ [identifier],
    keywords [.create, .role] ++ [identifier] ++ keywords [.description] ++ [quoted],
    keywords [.drop, .role] ++ [identifier],
    keywords [.alter, .role] ++ [identifier] ++ keywords [.set, .description] ++ [quoted],
    keywords [.list, .roles],
    keywords [.show, .role] ++ [identifier],
    keywords [.alter, .user] ++ [quoted] ++ keywords [.set, .role] ++ [identifier],
    keywords [.show, .user, .permission] ++ [quoted],
    keywords [.show, .version],
    keywords [.grant, .admin] ++ [quoted],
    keywords [.revoke, .admin] ++ [quoted],
    keywords [.generate, .key, .for, .user] ++ [quoted],
    keywords [.list, .keys, .of] ++ [quoted],
    keywords [.drop, .key] ++ [quoted] ++ keywords [.of] ++ [quoted],
    keywords [.set, .var] ++ [identifier, identifier],
    keywords [.show, .var] ++ [identifier],
    keywords [.list, .vars],
    keywords [.list, .configs],
    keywords [.list, .envs],
    keywords [.show] ++ [extra .fingerprint],
    keywords [.set] ++ [extra .license, quoted],
    keywords [.set] ++ [extra .license, extra .config, number, number],
    keywords [.show] ++ [extra .license],
    [extra .check, extra .license],
    keywords [.list] ++ [extra .server] ++ keywords [.configs],
    keywords [.list] ++ [extra .documents] ++ keywords [.of, .dataset] ++ [quoted],
    keywords [.list] ++ [extra .metadata, extra .summary] ++ keywords [.of, .dataset] ++ [quoted],
    keywords [.parse] ++ [quoted] ++ keywords [.of, .dataset] ++ [quoted],
    keywords [.parse, .dataset] ++ [quoted] ++ keywords [.sync],
    keywords [.parse, .dataset] ++ [quoted] ++ keywords [.async]]

/-- The statements of the grammar with a bounded number of symbols. -/
def statements : List (List Sym) :=
  userStatements ++ otherStatements ++ userStatements.map (benchmark ++ ·)

def onResource (direction : Keyword) : List Sym :=
  keywords [.on] ++ [identifier] ++ keywords [direction, .role] ++ [identifier]

/-- The rest of `GRANT … TO ROLE` and `REVOKE … FROM ROLE`, with so many names behind the
first. -/
def permission (direction : Keyword) (n : ℕ) : List Sym :=
  separated identifier n ++ onResource direction

def grantPermission (n : ℕ) : List Sym := keywords [.grant] ++ permission .to n

def revokePermission (n : ℕ) : List Sym := keywords [.revoke] ++ permission .from n

def listDatasetsMetadata (n : ℕ) : List Sym :=
  keywords [.list] ++ [extra .metadata] ++ keywords [.of, .datasets] ++ separated quoted n

def listDocumentsMetadataSummary (n : ℕ) : List Sym :=
  keywords [.list] ++ [extra .metadata, extra .summary] ++ keywords [.of, .dataset] ++
    [quoted, extra .documents] ++ separated quoted n

/-- The statements of the grammar, without their semicolons. -/
inductive Production : List Sym → Prop
  | statement {g : List Sym} (hg : g ∈ statements) : Production g
  | grantPermission (n : ℕ) : Production (grantPermission n)
  | revokePermission (n : ℕ) : Production (revokePermission n)
  | listDatasetsMetadata (n : ℕ) : Production (listDatasetsMetadata n)
  | listDocumentsMetadataSummary (n : ℕ) : Production (listDocumentsMetadataSummary n)

/-- The input is this statement with its semicolon. -/
def Spells (g : List Sym) (input : List Char) : Prop :=
  nul ∉ input ∧ List.Forall₂ Written (g ++ [semicolon]) (tokens input)

/-- A meta command has no semicolon. -/
def Documented (input : List Char) : Prop :=
  Parser.isMeta (Parser.curToken (tokens input)) ∨ ∃ g, Production g ∧ Spells g input

def Accepted (input : List Char) : Prop := ∃ c, parseInput input = .ok (some c)

end RagflowMineru.Cli
