import RagflowMineru.Cli.Lexer
import Mathlib.Algebra.Group.Nat.Defs

/-!
# The parser of the command line

The parser looks at the current token and the one behind it.  A statement is read
token by token; its semicolon may be the current token or the one behind it.
-/

namespace RagflowMineru.Cli

inductive Param where
  | str (s : List Char)
  | strs (l : List (List Char))
  | num (n : ℕ)
  | command (type : String) (params : List (String × Param))

structure Command where
  type : String
  params : List (String × Param) := []

/-- A parser; its state are the tokens from the current one on. -/
abbrev Parse (α : Type) := StateT (List Token) (Except String) α

namespace Parser

def curToken (ts : List Token) : Token := ts.headD ⟨.eof, []⟩

def peekToken (ts : List Token) : Token := curToken ts.tail

def cur : Parse Token := fun ts => .ok (curToken ts, ts)

def nextToken : Parse Unit := fun ts => .ok ((), ts.tail)

/-- Only keywords are asked for. -/
def tokenTypeToString : TokenType → String
  | .keyword k => "token(" ++ toString (Keyword.keywords.idxOf k) ++ ")"
  | _ => "token"

def expectPeek (tokenType : TokenType) : Parse Unit := fun ts =>
  if (peekToken ts).type ≠ tokenType then
    .error ("expected " ++ tokenTypeToString tokenType ++ ", got " ++
      String.ofList (peekToken ts).value)
  else .ok ((), ts.tail)

def expectSemicolon : Parse Unit := fun ts =>
  if (curToken ts).type = .semicolon then .ok ((), ts)
  else if (peekToken ts).type = .semicolon then .ok ((), ts.tail)
  else .error "expected semicolon"

def parseQuotedString : Parse (List Char) := fun ts =>
  if (curToken ts).type ≠ .quotedString then
    .error ("expected quoted string, got " ++ String.ofList (curToken ts).value)
  else .ok ((curToken ts).value, ts)

def parseIdentifier : Parse (List Char) := fun ts =>
  if (curToken ts).type ≠ .identifier then
    .error ("expected identifier, got " ++ String.ofList (curToken ts).value)
  else .ok ((curToken ts).value, ts)

/-- `strconv.Atoi` of digits; `none` for a number out of range. -/
def atoi (digits : List Char) : Option ℕ :=
  let n := Nat.ofDigitChars 10 digits 0
  if n < 2 ^ 63 then some n else none

def parseNumber : Parse ℕ := fun ts =>
  if (curToken ts).type ≠ .number then
    .error ("expected number, got " ++ String.ofList (curToken ts).value)
  else
    match atoi (curToken ts).value with
    | some n => .ok (n, ts)
    | none =>
        .error ("strconv.Atoi: parsing \"" ++ String.ofList (curToken ts).value ++
          "\": value out of range")

/-! ## Statements -/

/-- A part of a statement: a keyword, or a value for a parameter. -/
inductive Step where
  | keyword (k : Keyword) (msg : String)
  | quoted (param : String)
  | identifier (param : String)
  | number (param : String)

def Step.run : Step → Parse (List (String × Param))
  | keyword k msg => fun ts => if (curToken ts).type ≠ .keyword k then .error msg else .ok ([], ts)
  | quoted param => do return [(param, .str (← parseQuotedString))]
  | identifier param => do return [(param, .str (← parseIdentifier))]
  | number param => do return [(param, .num (← parseNumber))]

/-- Read parts of a statement, each up to the token behind it. -/
def readSteps : List Step → Parse (List (String × Param))
  | [] => return []
  | step :: steps => do
      let params ← step.run
      nextToken
      let rest ← readSteps steps
      return params ++ rest

/-- Read the rest of a statement with its semicolon. -/
def finish (type : String) (params : List (String × Param)) (steps : List Step) :
    Parse Command := do
  let rest ← readSteps steps
  expectSemicolon
  return ⟨type, params ++ rest⟩

/-- The current token is consumed; the rest of the statement follows. -/
def statement (type : String) (params : List (String × Param)) (steps : List Step) :
    Parse Command := do
  nextToken
  finish type params steps

/-- Go on by the keyword that is the current token. -/
def switch (cases : List (Keyword × Parse Command)) (otherwise : String) : Parse Command :=
  fun ts =>
    match cases.find? fun c => (curToken ts).type = .keyword c.1 with
    | some c => c.2 ts
    | none => .error (otherwise ++ String.ofList (curToken ts).value)

/-- Go on in one of two ways. -/
def branch (k : Keyword) (yes no : Parse Command) : Parse Command := fun ts =>
  if (curToken ts).type = .keyword k then yes ts else no ts

/-! ## Commands -/

def parseLoginUser : Parse Command :=
  statement "login_user" [] [.keyword .user "expected USER after LOGIN", .quoted "email"]

def parsePingServer : Parse Command := statement "ping_server" [] []

/-- Both `nextToken` and `expectPeek` go on, so a token in front of `USER` is passed over. -/
def parseRegisterCommand : Parse Command := do
  nextToken
  expectPeek (.keyword .user)
  statement "register_user" []
    [.quoted "user_name", .keyword .as "expected AS", .quoted "nickname",
      .keyword .password "expected PASSWORD", .quoted "password"]

def parseListDatasets : Parse Command := do
  nextToken
  if (← cur).type = .semicolon then return { type := "list_user_datasets" }
  branch .of (statement "list_datasets" [] [.quoted "user_name"])
    (finish "list_user_datasets" [] [])

def parseListAgents : Parse Command := do
  nextToken
  if (← cur).type = .semicolon then return { type := "list_user_agents" }
  branch .of (statement "list_agents" [] [.quoted "user_name"]) (throw "expected OF")

def parseListKeys : Parse Command :=
  statement "list_keys" [] [.keyword .of "expected OF", .quoted "user_name"]

def parseListModelProviders : Parse Command :=
  statement "list_user_model_providers" [] [.keyword .providers "expected PROVIDERS"]

def parseListDefaultModels : Parse Command :=
  statement "list_user_default_models" [] [.keyword .models "expected MODELS"]

def parseListFiles : Parse Command :=
  statement "list_user_dataset_files" []
    [.keyword .of "expected OF", .keyword .dataset "expected DATASET", .quoted "dataset_name"]

def parseListCommand : Parse Command := do
  nextToken
  switch
    [(.services, statement "list_services" [] []),
      (.users, statement "list_users" [] []),
      (.roles, statement "list_roles" [] []),
      (.vars, statement "list_variables" [] []),
      (.configs, statement "list_configs" [] []),
      (.envs, statement "list_environments" [] []),
      (.datasets, parseListDatasets),
      (.agents, parseListAgents),
      (.keys, parseListKeys),
      (.model, parseListModelProviders),
      (.default, parseListDefaultModels),
      (.chats, statement "list_user_chats" [] []),
      (.files, parseListFiles)]
    "unknown LIST target: "

def parseShowUser : Parse Command := do
  nextToken
  branch .permission (statement "show_user_permission" [] [.quoted "user_name"])
    (finish "show_user" [] [.quoted "user_name"])

def parseShowRole : Parse Command := statement "show_role" [] [.identifier "role_name"]

def parseShowVariable : Parse Command := statement "show_variable" [] [.identifier "var_name"]

def parseShowService : Parse Command := statement "show_service" [] [.number "number"]

def parseShowCommand : Parse Command := do
  nextToken
  switch
    [(.version, statement "show_version" [] []),
      (.current,
        statement "show_current_user" [] [.keyword .user "expected USER after CURRENT"]),
      (.user, parseShowUser),
      (.role, parseShowRole),
      (.var, parseShowVariable),
      (.service, parseShowService)]
    "unknown SHOW target: "

def parseCreateUser : Parse Command :=
  statement "create_user" [("role", .str "user".toList)] [.quoted "user_name", .quoted "password"]

def parseCreateRole : Parse Command := do
  nextToken
  let params ← readSteps [.identifier "role_name"]
  branch .description (statement "create_role" params [.quoted "description"])
    (finish "create_role" params [])

def parseCreateModelProvider : Parse Command :=
  statement "create_model_provider" []
    [.keyword .provider "expected PROVIDER", .quoted "provider_name", .quoted "provider_key"]

def parseCreateDataset : Parse Command := do
  nextToken
  let params ← readSteps
    [.quoted "dataset_name", .keyword .with "expected WITH",
      .keyword .embedding "expected EMBEDDING", .quoted "embedding"]
  branch .parser (statement "create_user_dataset" params [.quoted "parser_type"])
    (branch .pipeline (statement "create_user_dataset" params [.quoted "pipeline"])
      (throw "expected PARSER or PIPELINE"))

def parseCreateChat : Parse Command := statement "create_user_chat" [] [.quoted "chat_name"]

def parseCreateCommand : Parse Command := do
  nextToken
  switch
    [(.user, parseCreateUser),
      (.role, parseCreateRole),
      (.model, parseCreateModelProvider),
      (.dataset, parseCreateDataset),
      (.chat, parseCreateChat)]
    "unknown CREATE target: "

def parseDropUser : Parse Command := statement "drop_user" [] [.quoted "user_name"]

def parseDropRole : Parse Command := statement "drop_role" [] [.identifier "role_name"]

def parseDropModelProvider : Parse Command :=
  statement "drop_model_provider" []
    [.keyword .provider "expected PROVIDER", .quoted "provider_name"]

def parseDropDataset : Parse Command := statement "drop_user_dataset" [] [.quoted "dataset_name"]

def parseDropChat : Parse Command := statement "drop_user_chat" [] [.quoted "chat_name"]

def parseDropKey : Parse Command :=
  statement "drop_key" [] [.quoted "key", .keyword .of "expected OF", .quoted "user_name"]

def parseDropCommand : Parse Command := do
  nextToken
  switch
    [(.user, parseDropUser),
      (.role, parseDropRole),
      (.model, parseDropModelProvider),
      (.dataset, parseDropDataset),
      (.chat, parseDropChat),
      (.key, parseDropKey)]
    "unknown DROP target: "

def parseActivateUser : Parse Command := do
  nextToken
  let params ← readSteps [.quoted "user_name"]
  let status := (← cur).value
  if status ≠ "on".toList ∧ status ≠ "off".toList then
    throw ("expected 'on' or 'off', got " ++ String.ofList status)
  statement "activate_user" (params ++ [("activate_status", .str status)]) []

def parseAlterUser : Parse Command := do
  nextToken
  branch .active parseActivateUser
    (branch .password
      (statement "alter_user" [] [.quoted "user_name", .quoted "password"])
      (finish "alter_user_role" []
        [.quoted "user_name", .keyword .set "expected SET", .keyword .role "expected ROLE",
          .identifier "role_name"]))

def parseAlterRole : Parse Command :=
  statement "alter_role" []
    [.identifier "role_name", .keyword .set "expected SET",
      .keyword .description "expected DESCRIPTION", .quoted "description"]

def parseAlterCommand : Parse Command := do
  nextToken
  switch [(.user, parseAlterUser), (.role, parseAlterRole)] "unknown ALTER target: "

/-- The loop behind the first identifier of a list. -/
def identifierLoop (list : List (List Char)) :
    List Token → Except String (List (List Char) × List Token)
  | [] => .ok (list, [])
  | [t] =>
      if t.type = .comma then .error "expected identifier, got " else .ok (list, [t])
  | t :: t' :: ts =>
      if t.type = .comma then
        if t'.type ≠ .identifier then
          .error ("expected identifier, got " ++ String.ofList t'.value)
        else identifierLoop (list ++ [t'.value]) ts
      else .ok (list, t :: t' :: ts)

def parseIdentifierList : Parse (List (List Char)) := do
  let ident ← parseIdentifier
  nextToken
  identifierLoop [ident]

/-- The statements about permissions, with `TO` or `FROM` in front of the role. -/
def parsePermission (type : String) (k : Keyword) (msg : String) : Parse Command := do
  let actions ← parseIdentifierList
  finish type [("actions", .strs actions)]
    [.keyword .on "expected ON", .identifier "resource", .keyword k msg,
      .keyword .role "expected ROLE", .identifier "role_name"]

def parseGrantAdmin : Parse Command := statement "grant_admin" [] [.quoted "user_name"]

def parseGrantPermission : Parse Command := parsePermission "grant_permission" .to "expected TO"

def parseGrantCommand : Parse Command := do
  nextToken
  branch .admin parseGrantAdmin parseGrantPermission

def parseRevokeAdmin : Parse Command := statement "revoke_admin" [] [.quoted "user_name"]

def parseRevokePermission : Parse Command :=
  parsePermission "revoke_permission" .from "expected FROM"

def parseRevokeCommand : Parse Command := do
  nextToken
  branch .admin parseRevokeAdmin parseRevokePermission

def parseSetVariable : Parse Command :=
  statement "set_variable" [] [.identifier "var_name", .identifier "var_value"]

def modelTypes : List (Keyword × String) :=
  [(.llm, "llm_id"), (.vlm, "img2txt_id"), (.embedding, "embd_id"), (.reranker, "reranker_id"),
    (.asr, "asr_id"), (.tts, "tts_id")]

def parseSetDefault : Parse Command := do
  nextToken
  switch
    (modelTypes.map fun (k, modelType) =>
      (k, statement "set_default_model" [("model_type", .str modelType.toList)]
        [.quoted "model_id"]))
    "unknown model type: "

def parseSetCommand : Parse Command := do
  nextToken
  switch [(.var, parseSetVariable), (.default, parseSetDefault)] "unknown SET target: "

def parseResetCommand : Parse Command := do
  nextToken
  let _ ← readSteps [.keyword .default "expected DEFAULT"]
  switch
    (modelTypes.map fun (k, modelType) =>
      (k, statement "reset_default_model" [("model_type", .str modelType.toList)] []))
    "unknown model type: "

def parseGenerateCommand : Parse Command :=
  statement "generate_key" []
    [.keyword .key "expected KEY", .keyword .for "expected FOR", .keyword .user "expected USER",
      .quoted "user_name"]

def parseImportCommand : Parse Command :=
  statement "import_docs_into_dataset" []
    [.quoted "document_paths", .keyword .into "expected INTO",
      .keyword .dataset "expected DATASET", .quoted "dataset_name"]

def parseSearchCommand : Parse Command :=
  statement "search_on_datasets" []
    [.quoted "question", .keyword .on "expected ON", .keyword .datasets "expected DATASETS",
      .quoted "datasets"]

def parseParseDataset : Parse Command := do
  nextToken
  let params ← readSteps [.quoted "dataset_name"]
  branch .sync (statement "parse_dataset" (params ++ [("method", .str "sync".toList)]) [])
    (branch .async (statement "parse_dataset" (params ++ [("method", .str "async".toList)]) [])
      (throw "expected SYNC or ASYNC"))

def parseParseDocs : Parse Command :=
  finish "parse_dataset_docs" []
    [.quoted "document_names", .keyword .of "expected OF", .keyword .dataset "expected DATASET",
      .quoted "dataset_name"]

def parseParseCommand : Parse Command := do
  nextToken
  branch .dataset parseParseDataset parseParseDocs

def parseUserStatement : Parse Command :=
  switch
    [(.ping, parsePingServer),
      (.show, parseShowCommand),
      (.create, parseCreateCommand),
      (.drop, parseDropCommand),
      (.set, parseSetCommand),
      (.reset, parseResetCommand),
      (.list, parseListCommand),
      (.parse, parseParseCommand),
      (.import, parseImportCommand),
      (.search, parseSearchCommand)]
    "invalid user statement: "

def parseBenchmarkCommand : Parse Command := do
  nextToken
  let params ← readSteps [.number "concurrency", .number "iterations"]
  let nestedCmd ← parseUserStatement
  return ⟨"benchmark", params ++ [("command", .command nestedCmd.type nestedCmd.params)]⟩

/-- `STARTUP`, `SHUTDOWN` and `RESTART`. -/
def parseServiceCommand (type : String) : Parse Command :=
  statement type [] [.keyword .service "expected SERVICE", .number "number"]

def parseStartupCommand : Parse Command := parseServiceCommand "startup_service"

def parseShutdownCommand : Parse Command := parseServiceCommand "shutdown_service"

def parseRestartCommand : Parse Command := parseServiceCommand "restart_service"

def isMeta (token : Token) : Prop := token.type = .identifier ∧ token.value.head? = some '\\'

instance (token : Token) : Decidable (isMeta token) := inferInstanceAs (Decidable (_ ∧ _))

def parseMetaCommand (ts : List Token) : Command :=
  { type := "meta"
    params :=
      [("command", .str ((curToken ts).value.tail.map Char.toLower)),
        ("args", .strs (ts.tail.map Token.value))] }

def sqlCommands : List (Keyword × Parse Command) :=
  [(.login, parseLoginUser),
    (.ping, parsePingServer),
    (.list, parseListCommand),
    (.show, parseShowCommand),
    (.create, parseCreateCommand),
    (.drop, parseDropCommand),
    (.alter, parseAlterCommand),
    (.grant, parseGrantCommand),
    (.revoke, parseRevokeCommand),
    (.set, parseSetCommand),
    (.reset, parseResetCommand),
    (.generate, parseGenerateCommand),
    (.import, parseImportCommand),
    (.search, parseSearchCommand),
    (.parse, parseParseCommand),
    (.benchmark, parseBenchmarkCommand),
    (.register, parseRegisterCommand),
    (.startup, parseStartupCommand),
    (.shutdown, parseShutdownCommand),
    (.restart, parseRestartCommand)]

def isKeyword : TokenType → Bool
  | .keyword _ => true
  | _ => false

def parseSQLCommand : Parse Command := fun ts =>
  if (curToken ts).type ≠ .identifier ∧ !isKeyword (curToken ts).type then
    .error ("expected command, got " ++ String.ofList (curToken ts).value)
  else switch sqlCommands "unknown command: " ts

/-- The command of some tokens, or none when there are no tokens. -/
def parse (ts : List Token) : Except String (Option Command) :=
  if (curToken ts).type = .eof then .ok none
  else if isMeta (curToken ts) then .ok (some (parseMetaCommand ts))
  else (parseSQLCommand ts).map fun r => some r.1

end Parser

/-- `NewParser(input).Parse()`. -/
def parseInput (input : List Char) : Except String (Option Command) := Parser.parse (tokens input)

end RagflowMineru.Cli
