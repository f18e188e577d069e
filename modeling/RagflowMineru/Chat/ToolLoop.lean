import RagflowMineru.Library.Assoc
import RagflowMineru.Library.Retrying
import Mathlib.Data.List.Infix
import Mathlib.Data.String.Basic

/-!
# The tool loop of a chat model

The model is asked with the history so far.  When its reply asks for tool calls, they are run, all
at the same time, the calls and their results are put at the end of the history, and the model is
asked again; a reply with text ends the loop.  The plain loop takes whole replies, the streaming
loop puts them together from fragments.  The service, the tools and the JSON library are
parameters.
-/

namespace RagflowMineru.Chat.ToolLoop

open RagflowMineru.Library Retrying

/-! ## Messages -/

structure ToolCall where
  index : ℕ
  id : String
  name : String
  arguments : String
  deriving DecidableEq, Repr

/-- An entry of the history: a message with text, the assistant's tool calls, the result of one. -/
inductive HistEntry where
  | message (role content : String)
  | toolCalls (calls : List ToolCall)
  | tool (toolCallId content : String)
  deriving DecidableEq, Repr

def HistEntry.role : HistEntry → String
  | message role _ => role
  | toolCalls _ => "assistant"
  | tool _ _ => "tool"

/-- An exception: its class and its text. -/
structure Raised where
  kind : String
  text : String
  deriving DecidableEq, Repr

structure Message where
  toolCalls : List ToolCall
  reasoningContent : Option String
  reasoning : Option String
  content : Option String
  deriving DecidableEq, Repr

/-- A whole reply; `message` is `none` when it has no choices or no message. -/
structure Response where
  tokens : ℕ
  message : Option Message
  finishReason : String
  shown : String

/-- A piece of a tool call in a stream. -/
structure Fragment where
  index : ℕ
  id : String
  name : String
  arguments : Option String
  deriving DecidableEq, Repr

structure Delta where
  toolCalls : List Fragment
  reasoningContent : Option String
  reasoning : Option String
  content : Option String
  deriving DecidableEq, Repr

/-- A piece of a streamed reply; `delta` is `none` when it has no choices. -/
structure Chunk where
  tokens : ℕ
  delta : Option Delta
  finishReason : String
  deriving DecidableEq, Repr

/-! ## Errors -/

inductive LLMErrorCode where
  | rateLimit | auth | invalidRequest | server | timeout | connection | model | maxRounds
  | contentFilter | quota | maxRetries | generic
  deriving DecidableEq, Repr

def LLMErrorCode.value : LLMErrorCode → String
  | rateLimit => "RATE_LIMIT_EXCEEDED"
  | auth => "AUTH_ERROR"
  | invalidRequest => "INVALID_REQUEST"
  | server => "SERVER_ERROR"
  | timeout => "TIMEOUT"
  | connection => "CONNECTION_ERROR"
  | model => "MODEL_ERROR"
  | maxRounds => "ERROR_MAX_ROUNDS"
  | contentFilter => "CONTENT_FILTERED"
  | quota => "QUOTA_EXCEEDED"
  | maxRetries => "MAX_RETRIES_EXCEEDED"
  | generic => "GENERIC_ERROR"

def keywordsMapping : List (List String × LLMErrorCode) :=
  [(["quota", "capacity", "credit", "billing", "balance", "欠费"], .quota),
   (["rate limit", "429", "tpm limit", "too many requests", "requests per minute"], .rateLimit),
   (["auth", "key", "apikey", "401", "forbidden", "permission"], .auth),
   (["invalid", "bad request", "400", "format", "malformed", "parameter"], .invalidRequest),
   (["server", "503", "502", "504", "500", "unavailable"], .server),
   (["timeout", "timed out"], .timeout),
   (["connect", "network", "unreachable", "dns"], .connection),
   (["filter", "content", "policy", "blocked", "safety", "inappropriate"], .contentFilter),
   (["model", "not found", "does not exist", "not available"], .model),
   (["max rounds"], .model)]

/-- The code of the first row with a keyword that occurs in the lowered text. -/
def classifyError (lower : String → String) (error : Raised) : LLMErrorCode :=
  ((keywordsMapping.find? fun row =>
    row.1.any fun word => word.toList <:+: (lower error.text).toList).map Prod.snd).getD .generic

def shouldRetry (code : LLMErrorCode) : Bool := code = .rateLimit ∨ code = .server

def errorPrefix : String := "**ERROR**"

/-- The text that the chat ends with, or `none` when the error is worth another attempt. -/
def exceptionsAsync (lower : String → String) (maxRetries : ℕ) (e : Raised) (attempt : ℕ) :
    Option String :=
  let code := if attempt = maxRetries then .maxRetries else classifyError lower e
  if shouldRetry code then none else some (errorPrefix ++ ": " ++ code.value ++ " - " ++ e.text)

/-! ## Parameters -/

/-- The service, the tools, the JSON library and the configuration of a chat model.  `σ` is the
state of the world, `ν` the values that tools take and give. -/
structure Backend (σ ν : Type*) where
  maxRetries : ℕ
  maxRounds : ℕ
  /-- A whole reply to a history. -/
  create : σ → List HistEntry → Except Raised Response × σ
  /-- A streamed reply: its chunks, and what is raised behind the last of them. -/
  createStream : σ → List HistEntry → Except Raised (List Chunk × Option Raised) × σ
  /-- A reply to a history when no tools are offered: its text and tokens. -/
  asyncChat : σ → List HistEntry → Except Raised (String × ℕ) × σ
  /-- Run the calls at the same time: the arguments read and the result of each call. -/
  gather : σ → List ToolCall → (ℕ → Except Raised (ν × ν)) × σ
  /-- The arguments of a call, `{}` when they cannot be read. -/
  loads : String → ν
  emptyDict : ν
  isDict : ν → Bool
  dumps : ν → Except Raised String
  str : ν → String
  /-- The dumped name, arguments and result of a call. -/
  dumpsUse : String → ν → ν → Except Raised String
  /-- The dumped name and arguments of a call that begins. -/
  dumpsBegin : String → ν → String
  lower : String → String
  numTokens : String → ℕ

variable {σ ν : Type*} (b : Backend σ ν)

/-! ## Running tools -/

/-- A call that was run. -/
structure Result (ν : Type*) where
  call : ToolCall
  args : ν
  outcome : Except Raised ν

def execTool (tc : ToolCall) : Except Raised (ν × ν) → Result ν
  | .ok (args, result) => ⟨tc, args, .ok result⟩
  | .error e => ⟨tc, b.emptyDict, .error e⟩

def execTools (calls : List ToolCall) (outcomes : ℕ → Except Raised (ν × ν)) : List (Result ν) :=
  calls.mapIdx fun i tc => execTool b tc (outcomes i)

def toolUse (text : String) : String := "<tool_call>" ++ text ++ "</tool_call>"

/-- An exception is no JSON value, so that showing a call that failed raises. -/
def verboseToolUse (r : Result ν) : Except Raised String :=
  match r.outcome with
  | .ok result => (b.dumpsUse r.call.name r.args result).map toolUse
  | .error e => .error ⟨"TypeError", "Object of type " ++ e.kind ++ " is not JSON serializable"⟩

def toolContent (r : Result ν) : Except Raised String :=
  match r.outcome with
  | .error e => .ok e.text
  | .ok result => if b.isDict result then b.dumps result else .ok (b.str result)

def toolMessages : List (Result ν) → Except Raised (List HistEntry)
  | [] => .ok []
  | r :: rs => do
      let content ← toolContent b r
      let messages ← toolMessages rs
      return .tool r.call.id content :: messages

def appendHistoryBatch (hist : List HistEntry) (results : List (Result ν)) :
    Except Raised (List HistEntry) := do
  let messages ← toolMessages b results
  return hist ++ .toolCalls (results.map Result.call) :: messages

/-- The shown calls up to the first that cannot be shown. -/
def shown : List (Result ν) → List String × Option Raised
  | [] => ([], none)
  | r :: rs =>
      match verboseToolUse b r with
      | .ok text => (text :: (shown rs).1, (shown rs).2)
      | .error e => ([], some e)

/-! ## The plain loop -/

/-- A request of the log: the history sent and the calls run for its reply. -/
structure Exchange (ν : Type*) where
  history : List HistEntry
  results : List (Result ν)

structure Session (σ ν : Type*) where
  world : σ
  ans : String
  tkCount : ℕ
  log : List (Exchange ν)

def lengthNotificationCn : String :=
  "······\n由于大模型的上下文窗口大小限制，回答已经被大模型截断。"

def lengthNotificationEn : String :=
  "...\nThe answer is truncated by your chosen LLM due to its limitation on context length."

/-- The answer is tested as a list of one text, which is compared as a whole. -/
def lengthStop (ans : String) : String :=
  if "\u4e00" ≤ ans ∧ ans ≤ "\u9fff" then ans ++ lengthNotificationCn
  else ans ++ lengthNotificationEn

/-- The first of two texts that is there and not empty. -/
def reasoningOf (reasoningContent reasoning : Option String) : Option String :=
  (reasoningContent.filter (· ≠ "")).or (reasoning.filter (· ≠ ""))

def exceedMaxRounds : HistEntry :=
  .message "user" ("Exceed max rounds: " ++ toString b.maxRounds)

/-- The reply's text at the end of the answer. -/
def answerText (message : Message) (finishReason ans : String) : Except Raised Unit × String :=
  let ans :=
    match reasoningOf message.reasoningContent message.reasoning with
    | some reasoning => ans ++ "<think>" ++ reasoning ++ "</think>"
    | none => ans
  match message.content with
  | none => (.error ⟨"TypeError", "can only concatenate str (not \"NoneType\") to str"⟩, ans)
  | some content =>
      (.ok (), if finishReason = "length" then lengthStop (ans ++ content) else ans ++ content)

def round (history : List HistEntry) (s : Session σ ν) :
    Except Raised (Turn (List HistEntry) Unit) × Session σ ν :=
  let (reply, world) := b.create s.world history
  match reply with
  | .error e => (.error e, { s with world, log := s.log ++ [⟨history, []⟩] })
  | .ok response =>
      let tkCount := s.tkCount + response.tokens
      match response.message with
      | none =>
          (.error ⟨"Exception", "500 response structure error. Response: " ++ response.shown⟩,
            { s with world, tkCount, log := s.log ++ [⟨history, []⟩] })
      | some message =>
          if message.toolCalls = [] then
            let (ended, ans) := answerText message response.finishReason s.ans
            (ended.map Turn.done, ⟨world, ans, tkCount, s.log ++ [⟨history, []⟩]⟩)
          else
            let (outcomes, world) := b.gather world message.toolCalls
            let results := execTools b message.toolCalls outcomes
            let log := s.log ++ [⟨history, results⟩]
            match appendHistoryBatch b history results with
            | .error e => (.error e, ⟨world, s.ans, tkCount, log⟩)
            | .ok history =>
                let (texts, raised) := shown b results
                let s := ⟨world, s.ans ++ String.join texts, tkCount, log⟩
                match raised with
                | some e => (.error e, s)
                | none => (.ok (.again history), s)

/-- The request behind the last round, without tools. -/
def lastRequest (history : List HistEntry) (s : Session σ ν) :
    Except Raised Unit × Session σ ν :=
  let history := history ++ [exceedMaxRounds b]
  let (reply, world) := b.asyncChat s.world history
  let s := { s with world, log := s.log ++ [⟨history, []⟩] }
  match reply with
  | .error e => (.error e, s)
  | .ok (response, tokens) =>
      (.ok (), { s with ans := s.ans ++ response, tkCount := s.tkCount + tokens })

/-- The system message goes in front, unless the history is empty or has one. -/
def startHistory (system : String) (history : List HistEntry) : List HistEntry :=
  match history with
  | [] => []
  | first :: rest =>
      if system ≠ "" ∧ first.role ≠ "system" then .message "system" system :: first :: rest
      else first :: rest

def attempt (hist : List HistEntry) (s : Session σ ν) : Except Raised Unit × Session σ ν :=
  rounds (round b) (lastRequest b) (b.maxRounds + 1) hist s

/-- The chat: `none` is the assertion behind the attempts, `some` is an answer or a given up
error. -/
def chat (hist : List HistEntry) (s : Session σ ν) : Option (Except String Unit) × Session σ ν :=
  attempts (attempt b hist) (exceptionsAsync b.lower b.maxRetries) (List.range (b.maxRetries + 1)) s

/-- The answer or the error, the token count, and the session behind the chat. -/
def asyncChatWithTools (system : String) (history : List HistEntry) (world : σ) :
    Option (String × ℕ) × Session σ ν :=
  let (ended, s) := chat b (startHistory system history) ⟨world, "", 0, []⟩
  (ended.map fun r =>
    match r with
    | .ok () => (s.ans, s.tkCount)
    | .error e => (e, s.tkCount), s)

/-! ## The streaming loop -/

/-- What the stream gives to its consumer. -/
inductive Yield where
  | text (t : String)
  | tokens (n : ℕ)
  deriving DecidableEq, Repr

/-- What is known while a streamed reply is read. -/
structure Reading where
  finalToolCalls : Assoc ℕ ToolCall
  answer : String
  reasoningStart : Bool
  totalTokens : ℕ
  yields : List Yield

structure StreamSession (σ ν : Type*) where
  world : σ
  totalTokens : ℕ
  yields : List Yield
  log : List (Exchange ν)

/-- A first fragment gives the call, a later one adds to the arguments. -/
def addFragment (calls : Assoc ℕ ToolCall) (f : Fragment) : Assoc ℕ ToolCall :=
  match Assoc.get? f.index calls with
  | none => Assoc.set f.index ⟨f.index, f.id, f.name, f.arguments.getD ""⟩ calls
  | some tc =>
      Assoc.set f.index { tc with arguments := tc.arguments ++ f.arguments.getD "" } calls

/-- What a delta without tool calls gives to the consumer. -/
def readText (delta : Delta) (r : Reading) : Reading :=
  match reasoningOf delta.reasoningContent delta.reasoning with
  | some reasoning =>
      let think := if r.reasoningStart then "" else "<think>"
      { r with
        reasoningStart := true
        yields := r.yields ++ [.text (think ++ reasoning ++ "</think>")] }
  | none =>
      let content := delta.content.getD ""
      { r with
        reasoningStart := false
        answer := r.answer ++ content
        yields := r.yields ++ [.text content] }

def countTokens (total tokens : ℕ) (content : String) : ℕ :=
  if tokens = 0 then total + b.numTokens content else tokens

def readChunk (r : Reading) (c : Chunk) : Reading :=
  match c.delta with
  | none => r
  | some delta =>
      if delta.toolCalls ≠ [] then
        { r with finalToolCalls := delta.toolCalls.foldl addFragment r.finalToolCalls }
      else
        let r := readText delta r
        let totalTokens := countTokens b r.totalTokens c.tokens (delta.content.getD "")
        let r := { r with totalTokens }
        if c.finishReason = "length" then
          { r with yields := r.yields ++ [.text (lengthStop "")] }
        else r

def streamRound (history : List HistEntry) (s : StreamSession σ ν) :
    Except Raised (Turn (List HistEntry) Unit) × StreamSession σ ν :=
  let (reply, world) := b.createStream s.world history
  match reply with
  | .error e => (.error e, { s with world, log := s.log ++ [⟨history, []⟩] })
  | .ok (chunks, raised) =>
      let r := chunks.foldl (readChunk b) ⟨[], "", false, s.totalTokens, s.yields⟩
      match raised with
      | some e => (.error e, ⟨world, r.totalTokens, r.yields, s.log ++ [⟨history, []⟩]⟩)
      | none =>
          if r.answer ≠ "" ∧ r.finalToolCalls = [] then
            (.ok (.done ()),
              ⟨world, r.totalTokens, r.yields ++ [.tokens r.totalTokens],
                s.log ++ [⟨history, []⟩]⟩)
          else
            let tcs := r.finalToolCalls.map Prod.snd
            let begun := tcs.map fun tc =>
              Yield.text (toolUse (b.dumpsBegin tc.name (b.loads tc.arguments)))
            let (outcomes, world) := b.gather world tcs
            let results := execTools b tcs outcomes
            let log := s.log ++ [⟨history, results⟩]
            match appendHistoryBatch b history results with
            | .error e => (.error e, ⟨world, r.totalTokens, r.yields ++ begun, log⟩)
            | .ok history =>
                let (texts, raised) := shown b results
                let s := ⟨world, r.totalTokens, r.yields ++ begun ++ texts.map Yield.text, log⟩
                match raised with
                | some e => (.error e, s)
                | none => (.ok (.again history), s)

/-- A chunk behind the last round: tool calls and reasoning are passed over. -/
def readLastChunk (r : ℕ × List Yield) (c : Chunk) : ℕ × List Yield :=
  match c.delta.bind Delta.content with
  | none => r
  | some content => (countTokens b r.1 c.tokens content, r.2 ++ [.text content])

def lastStreamRequest (history : List HistEntry) (s : StreamSession σ ν) :
    Except Raised Unit × StreamSession σ ν :=
  let history := history ++ [exceedMaxRounds b]
  let (reply, world) := b.createStream s.world history
  let s := { s with world, log := s.log ++ [⟨history, []⟩] }
  match reply with
  | .error e => (.error e, s)
  | .ok (chunks, raised) =>
      let (totalTokens, yields) := chunks.foldl (readLastChunk b) (s.totalTokens, s.yields)
      match raised with
      | some e => (.error e, { s with totalTokens, yields })
      | none => (.ok (), { s with totalTokens, yields := yields ++ [.tokens totalTokens] })

def streamAttempt (hist : List HistEntry) (s : StreamSession σ ν) :
    Except Raised Unit × StreamSession σ ν :=
  rounds (streamRound b) (lastStreamRequest b) (b.maxRounds + 1) hist s

def streamChat (hist : List HistEntry) (s : StreamSession σ ν) :
    Option (Except String Unit) × StreamSession σ ν :=
  attempts (streamAttempt b hist) (exceptionsAsync b.lower b.maxRetries)
    (List.range (b.maxRetries + 1)) s

/-- What the consumer is given, `none` at the assertion, and the session behind the chat. -/
def asyncChatStreamlyWithTools (system : String) (history : List HistEntry) (world : σ) :
    Option (List Yield) × StreamSession σ ν :=
  let (ended, s) := streamChat b (startHistory system history) ⟨world, 0, [], []⟩
  (ended.map fun r =>
    match r with
    | .ok () => s.yields
    | .error e => s.yields ++ [.text e, .tokens s.totalTokens], s)

end RagflowMineru.Chat.ToolLoop
