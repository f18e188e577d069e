import RagflowMineru.Chat.ToolLoop
import RagflowMineru.Library.Distinct
import Mathlib.Data.List.Chain

/-!
# Whole chats with tools

Each history sent is the first one, or the one before with the calls that were run for its reply
and their results.  A call that fails is never told to the model.  The streaming loop sends what
the plain loop sends, when a stream comes to the whole reply.
-/

namespace RagflowMineru.Chat.ToolLoop

open RagflowMineru.Library Retrying

variable {σ ν : Type*} (b : Backend σ ν)

/-! ## The protocol of tool messages -/

/-- Every tool call is answered by one tool message, in order and right behind the calls; `ids`
are the calls still to be answered. -/
def paired : List String → List HistEntry → Bool
  | [], [] => true
  | [], .message _ _ :: rest => paired [] rest
  | [], .toolCalls calls :: rest => paired (calls.map ToolCall.id) rest
  | id :: ids, .tool toolCallId _ :: rest => toolCallId = id && paired ids rest
  | _, _ => false

theorem paired_append {ids : List String} {h rest : List HistEntry} (hh : paired ids h)
    (hrest : paired [] rest) : paired ids (h ++ rest) := by
  fun_induction paired ids h <;> simp_all [paired]

theorem paired_toolMessages {results : List (Result ν)} {messages : List HistEntry}
    (h : toolMessages b results = .ok messages) :
    paired (results.map fun r => r.call.id) messages := by
  induction results generalizing messages with
  | nil =>
    cases h
    rfl
  | cons r rs ih =>
    rw [toolMessages] at h
    cases hcontent : toolContent b r with
    | error e => simp [hcontent, bind, Except.bind] at h
    | ok content =>
      cases hrest : toolMessages b rs with
      | error e => simp [hcontent, hrest, bind, Except.bind] at h
      | ok rest =>
        simp only [hcontent, hrest, bind, Except.bind, pure, Except.pure, Except.ok.injEq] at h
        subst h
        simp [paired, ih hrest]

theorem paired_appendHistoryBatch {hist messages : List HistEntry} {results : List (Result ν)}
    (hhist : paired [] hist) (h : appendHistoryBatch b hist results = .ok messages) :
    paired [] messages := by
  rw [appendHistoryBatch] at h
  cases hrest : toolMessages b results with
  | error e => simp [hrest, bind, Except.bind] at h
  | ok rest =>
    simp only [hrest, bind, Except.bind, pure, Except.pure, Except.ok.injEq] at h
    subst h
    refine paired_append hhist ?_
    simpa [paired, Function.comp_def] using paired_toolMessages b hrest

/-! ## What is sent -/

/-- The history `h` is what the exchange was about, with its calls and their results. -/
def Continues (e : Exchange ν) (h : List HistEntry) : Prop :=
  (∀ r ∈ e.results, r.outcome.isOk) ∧ appendHistoryBatch b e.history e.results = .ok h

/-- The history `h` is sent after the exchange: from the start again, or as it goes on. -/
def Follows (start : List HistEntry) (e : Exchange ν) (h : List HistEntry) : Prop :=
  h = start ∨ ∃ h', Continues b e h' ∧ (h = h' ∨ h = h' ++ [exceedMaxRounds b])

structure Conversation (start : List HistEntry) (log : List (Exchange ν)) : Prop where
  starts : ∀ e ∈ log.head?, e.history = start
  follows : log.IsChain fun e e' => Follows b start e e'.history

variable {b} {start h h' : List HistEntry} {log : List (Exchange ν)} {results : List (Result ν)}

theorem Conversation.concat (hlog : Conversation b start log)
    (hempty : log = [] → h = start) (hnext : ∀ e ∈ log.getLast?, Follows b start e h) :
    Conversation b start (log ++ [⟨h, results⟩]) where
  starts := by
    cases log with
    | nil => simpa using hempty rfl
    | cons e rest => simpa using hlog.starts
  follows := List.isChain_append.mpr ⟨hlog.follows, List.isChain_singleton _, by simpa using hnext⟩

theorem Conversation.paired (hlog : Conversation b start log) (hstart : paired [] start)
    {e : Exchange ν} (he : e ∈ log) : ToolLoop.paired [] e.history := by
  refine hlog.follows.induction (fun e => ToolLoop.paired [] e.history) log ?_ ?_ e he
  · rintro e e' (hfirst | ⟨h, ⟨-, happend⟩, hh | hh⟩) hpaired
    · rwa [hfirst]
    · rw [hh]
      exact paired_appendHistoryBatch b hpaired happend
    · rw [hh]
      exact paired_append (paired_appendHistoryBatch b hpaired happend) rfl
  · intro hne
    rw [hlog.starts _ (List.head_mem_head? hne)]
    exact hstart

/-! ## Either loop -/

/-- What a round does to the log: one exchange, and if it goes on, then with its results. -/
def Sends (h : List HistEntry) (turn : Except Raised (Turn (List HistEntry) Unit))
    (log log' : List (Exchange ν)) : Prop :=
  ∃ results, log' = log ++ [⟨h, results⟩] ∧
    ∀ h', turn = .ok (.again h') → Continues b ⟨h, results⟩ h'

theorem isOk_of_shown (hshown : (shown b results).2 = none) :
    ∀ r ∈ results, r.outcome.isOk := by
  induction results with
  | nil => simp
  | cons r rs ih =>
    rw [shown] at hshown
    cases hr : verboseToolUse b r with
    | error e => simp [hr] at hshown
    | ok text =>
      rw [hr] at hshown
      rw [List.forall_mem_cons]
      refine ⟨?_, ih hshown⟩
      rw [verboseToolUse] at hr
      cases houtcome : r.outcome with
      | error e => simp [houtcome] at hr
      | ok v => rfl

theorem sends_round (s : Session σ ν) :
    Sends (b := b) h (round b h s).1 s.log (round b h s).2.log := by
  rw [round]
  rcases b.create s.world h with ⟨e | response, world⟩
  · exact ⟨[], rfl, nofun⟩
  · dsimp only
    cases response.message with
    | none => exact ⟨[], rfl, nofun⟩
    | some message =>
      dsimp only
      split
      · refine ⟨[], rfl, fun h' hturn => ?_⟩
        cases hended : (answerText message response.finishReason s.ans).1 <;>
          simp [hended, Except.map] at hturn
      · generalize execTools b message.toolCalls _ = results
        refine ⟨results, ?_⟩
        cases happend : appendHistoryBatch b h results with
        | error e => exact ⟨rfl, nofun⟩
        | ok h'' =>
          cases hraised : (shown b results).2 with
          | some e => exact ⟨rfl, nofun⟩
          | none =>
            refine ⟨rfl, fun h' hturn => ?_⟩
            cases hturn
            exact ⟨isOk_of_shown hraised, happend⟩

theorem sends_streamRound (s : StreamSession σ ν) :
    Sends (b := b) h (streamRound b h s).1 s.log (streamRound b h s).2.log := by
  rw [streamRound]
  rcases b.createStream s.world h with ⟨e | ⟨chunks, raised⟩, world⟩
  · exact ⟨[], rfl, nofun⟩
  · cases raised with
    | some e => exact ⟨[], rfl, nofun⟩
    | none =>
      dsimp only
      generalize chunks.foldl (readChunk b) ⟨[], "", false, s.totalTokens, s.yields⟩ = r
      split
      · exact ⟨[], rfl, nofun⟩
      · generalize execTools b (r.finalToolCalls.map Prod.snd) _ = results
        refine ⟨results, ?_⟩
        cases happend : appendHistoryBatch b h results with
        | error e => exact ⟨rfl, nofun⟩
        | ok h'' =>
          cases hraised : (shown b results).2 with
          | some e => exact ⟨rfl, nofun⟩
          | none =>
            refine ⟨rfl, fun h' hturn => ?_⟩
            cases hturn
            exact ⟨isOk_of_shown hraised, happend⟩

section Loops

variable {τ : Type*} (logOf : τ → List (Exchange ν))
  {next : List HistEntry → τ → Except Raised (Turn (List HistEntry) Unit) × τ}
  {last : List HistEntry → τ → Except Raised Unit × τ} {s : τ}

/-- An attempt goes on with a conversation, by at most one exchange a round and one more. -/
theorem conversation_rounds
    (hnext : ∀ h s, Sends (b := b) h (next h s).1 (logOf s) (logOf (next h s).2))
    (hlast : ∀ h s, logOf (last h s).2 = logOf s ++ [⟨h ++ [exceedMaxRounds b], []⟩])
    (hs : Conversation b start (logOf s)) :
    Conversation b start (logOf (rounds next last (b.maxRounds + 1) start s).2) ∧
      (logOf (rounds next last (b.maxRounds + 1) start s).2).length ≤
        (logOf s).length + (b.maxRounds + 2) := by
  -- with rounds gone, the history to send continues the last exchange
  let Inv (k : ℕ) (h : List HistEntry) (t : τ) : Prop :=
    Conversation b start (logOf t) ∧
      (logOf t).length + k ≤ (logOf s).length + (b.maxRounds + 1) ∧
      (h = start ∧ k = b.maxRounds + 1 ∨ ∃ e, (logOf t).getLast? = some e ∧ Continues b e h)
  have hconcat : ∀ {k h t results}, Inv (k + 1) h t →
      Conversation b start (logOf t ++ [⟨h, results⟩]) := by
    rintro k h t results ⟨hconv, -, ⟨rfl, -⟩ | ⟨e, he, hcont⟩⟩
    · exact hconv.concat (fun _ => rfl) fun e _ => .inl rfl
    · refine hconv.concat (fun hnil => by simp [hnil] at he) fun e' he' => ?_
      cases he.symm.trans he'
      exact .inr ⟨h, hcont, .inl rfl⟩
  refine rounds_spec (I := Inv) (Q := fun t => Conversation b start (logOf t) ∧
    (logOf t).length ≤ (logOf s).length + (b.maxRounds + 2)) ?_ ?_ ?_ ⟨hs, le_rfl, .inl ⟨rfl, rfl⟩⟩
  · intro k h t h' t' hinv hturn
    obtain ⟨results, hlog, hcont⟩ := hnext h t
    rw [hturn] at hlog hcont
    have hlength := hinv.2.1
    refine ⟨hlog ▸ hconcat hinv, ?_, .inr ⟨⟨h, results⟩, ?_, hcont h' rfl⟩⟩
    · simp only [hlog, List.length_append, List.length_singleton]
      omega
    · simp [hlog]
  · intro k h t hinv _
    obtain ⟨results, hlog, -⟩ := hnext h t
    have hlength := hinv.2.1
    rw [hlog]
    refine ⟨hconcat hinv, ?_⟩
    simp only [List.length_append, List.length_singleton]
    omega
  · rintro h t ⟨hconv, hlength, ⟨-, hzero⟩ | ⟨e, he, hcont⟩⟩
    · omega
    · rw [hlast]
      refine ⟨hconv.concat (fun hnil => by simp [hnil] at he) fun e' he' => ?_, ?_⟩
      · cases he.symm.trans he'
        exact .inr ⟨h, hcont, .inr rfl⟩
      · simp only [List.length_append, List.length_singleton]
        omega

theorem conversation_attempts {giveUp : Raised → ℕ → Option String}
    {run : τ → Except Raised Unit × τ}
    (hrun : ∀ s, Conversation b start (logOf s) → Conversation b start (logOf (run s).2) ∧
      (logOf (run s).2).length ≤ (logOf s).length + (b.maxRounds + 2))
    (hs : logOf s = []) {n : ℕ} :
    Conversation b start (logOf (attempts run giveUp (List.range n) s).2) ∧
      (logOf (attempts run giveUp (List.range n) s).2).length ≤ n * (b.maxRounds + 2) := by
  have hstart : Conversation b start (logOf s) := by
    rw [hs]
    exact ⟨by simp, List.isChain_nil⟩
  let Inv (k : ℕ) (t : τ) : Prop := Conversation b start (logOf t) ∧
    (logOf t).length + k * (b.maxRounds + 2) ≤ n * (b.maxRounds + 2)
  have hattempt : ∀ {k t}, Inv (k + 1) t → Inv k (run t).2 := by
    rintro k t ⟨hconv, hlength⟩
    obtain ⟨hconv', hlength'⟩ := hrun t hconv
    refine ⟨hconv', ?_⟩
    rw [Nat.succ_mul] at hlength
    omega
  have hend : ∃ k, Inv k (attempts run giveUp (List.range n) s).2 :=
    attempts_spec (I := Inv) hattempt ⟨hstart, by simp [hs]⟩
  obtain ⟨k, hconv, hlength⟩ := hend
  exact ⟨hconv, by omega⟩

end Loops

/-- At the last attempt no error is worth another one. -/
theorem isSome_exceptionsAsync (lower : String → String) (maxRetries : ℕ) (e : Raised) :
    (exceptionsAsync lower maxRetries e maxRetries).isSome := by
  simp [exceptionsAsync, shouldRetry]

theorem conversation_chat (b : Backend σ ν) (start : List HistEntry) (w : σ) :
    Conversation b start (chat b start ⟨w, "", 0, []⟩).2.log ∧
      (chat b start ⟨w, "", 0, []⟩).2.log.length ≤ (b.maxRetries + 1) * (b.maxRounds + 2) := by
  refine conversation_attempts Session.log (fun s hs => ?_) rfl
  refine conversation_rounds Session.log (fun h s => sends_round s) (fun h s => ?_) hs
  rw [lastRequest]
  rcases b.asyncChat s.world (h ++ [exceedMaxRounds b]) with ⟨e | ⟨response, tokens⟩, world⟩ <;> rfl

theorem conversation_streamChat (b : Backend σ ν) (start : List HistEntry) (w : σ) :
    Conversation b start (streamChat b start ⟨w, 0, [], []⟩).2.log ∧
      (streamChat b start ⟨w, 0, [], []⟩).2.log.length ≤
        (b.maxRetries + 1) * (b.maxRounds + 2) := by
  refine conversation_attempts StreamSession.log (fun s hs => ?_) rfl
  refine conversation_rounds StreamSession.log (fun h s => sends_streamRound s) (fun h s => ?_) hs
  rw [lastStreamRequest]
  rcases b.createStream s.world (h ++ [exceedMaxRounds b]) with ⟨e | ⟨chunks, raised⟩, world⟩
  · rfl
  · cases raised <;> rfl

/-- A service whose first reply asks for two calls and whose next replies are text. -/
def twoCalls : Backend ℕ String where
  maxRetries := 1
  maxRounds := 2
  create w _ :=
    let message : Message :=
      if w = 0 then ⟨[⟨0, "a", "now", "{}"⟩, ⟨1, "b", "now", ""⟩], none, none, none⟩
      else ⟨[], none, none, some "noon"⟩
    (.ok ⟨3, some message, "stop", ""⟩, w + 1)
  createStream w _ :=
    let chunks : List Chunk :=
      if w = 0 then
        [⟨0, some ⟨[⟨0, "a", "now", none⟩, ⟨1, "b", "now", some ""⟩], none, none, none⟩, ""⟩,
          ⟨0, some ⟨[⟨0, "", "", some "{}"⟩], none, none, none⟩, ""⟩]
      else [⟨0, none, ""⟩, ⟨3, some ⟨[], none, none, some "noon"⟩, "stop"⟩]
    (.ok (chunks, none), w + 1)
  asyncChat w _ := (.ok ("noon", 3), w + 1)
  gather w _ := (fun _ => .ok ("{}", "12:00"), w)
  loads _ := "{}"
  emptyDict := "{}"
  isDict _ := false
  dumps v := .ok v
  str v := v
  dumpsUse name args result := .ok (name ++ args ++ result)
  dumpsBegin name args := name ++ args
  lower := id
  numTokens := String.length

/-- What is known of a stream behind its last chunk. -/
def readAll (b : Backend σ ν) (chunks : List Chunk) : Reading :=
  chunks.foldl (readChunk b) ⟨[], "", false, 0, []⟩

/-- The service gives the same reply in either mode, and every reply has tool calls or text. -/
structure Agrees (b : Backend σ ν) : Prop where
  refused : ∀ {w h e w'}, b.createStream w h = (.error e, w') → b.create w h = (.error e, w')
  broken : ∀ {w h chunks e w'}, b.createStream w h = (.ok (chunks, some e), w') →
    b.create w h = (.error e, w')
  whole : ∀ {w h chunks w'}, b.createStream w h = (.ok (chunks, none), w') →
    ∃ response message, b.create w h = (.ok response, w') ∧ response.message = some message ∧
      message.toolCalls = (readAll b chunks).finalToolCalls.map Prod.snd ∧
      (message.toolCalls = [] → (readAll b chunks).answer ≠ "" ∧
        message.content = some (readAll b chunks).answer)
  lastRefused : ∀ {w h e w'}, b.createStream w h = (.error e, w') → b.asyncChat w h = (.error e, w')
  lastBroken : ∀ {w h chunks e w'}, b.createStream w h = (.ok (chunks, some e), w') →
    b.asyncChat w h = (.error e, w')
  lastWhole : ∀ {w h chunks w'}, b.createStream w h = (.ok (chunks, none), w') →
    ∃ reply, b.asyncChat w h = (.ok reply, w')

/-- Tokens and yields have no part in what calls and text are read. -/
theorem readChunk_congr {r r' : Reading} (hcalls : r.finalToolCalls = r'.finalToolCalls)
    (hanswer : r.answer = r'.answer) (c : Chunk) :
    (readChunk b r c).finalToolCalls = (readChunk b r' c).finalToolCalls ∧
      (readChunk b r c).answer = (readChunk b r' c).answer := by
  rw [readChunk, readChunk]
  cases c.delta with
  | none => exact ⟨hcalls, hanswer⟩
  | some delta =>
    have htext : (readText delta r).finalToolCalls = (readText delta r').finalToolCalls ∧
        (readText delta r).answer = (readText delta r').answer := by
      rw [readText, readText]
      cases reasoningOf delta.reasoningContent delta.reasoning <;> simp [hcalls, hanswer]
    dsimp only
    split
    · simp [hcalls, hanswer]
    · split <;> exact htext

theorem foldl_readChunk_congr (r r' : Reading) (hcalls : r.finalToolCalls = r'.finalToolCalls)
    (hanswer : r.answer = r'.answer) (chunks : List Chunk) :
    (chunks.foldl (readChunk b) r).finalToolCalls =
        (chunks.foldl (readChunk b) r').finalToolCalls ∧
      (chunks.foldl (readChunk b) r).answer = (chunks.foldl (readChunk b) r').answer := by
  induction chunks generalizing r r' with
  | nil => exact ⟨hcalls, hanswer⟩
  | cons c chunks ih =>
    obtain ⟨hcalls', hanswer'⟩ := readChunk_congr hcalls hanswer c
    exact ih _ _ hcalls' hanswer'

/-- The states of the two loops have the same world and the same log. -/
def Alike (s : Session σ ν) (t : StreamSession σ ν) : Prop := s.world = t.world ∧ s.log = t.log

theorem alike_round (hb : Agrees b) {s : Session σ ν} {t : StreamSession σ ν} (hst : Alike s t) :
    (round b h s).1 = (streamRound b h t).1 ∧ Alike (round b h s).2 (streamRound b h t).2 := by
  obtain ⟨hworld, hlog⟩ := hst
  rw [round, streamRound, hworld]
  rcases hstream : b.createStream t.world h with ⟨e | ⟨chunks, raised⟩, world⟩
  · rw [hb.refused hstream]
    exact ⟨rfl, rfl, by rw [hlog]⟩
  · cases raised with
    | some e =>
      rw [hb.broken hstream]
      exact ⟨rfl, rfl, by rw [hlog]⟩
    | none =>
      obtain ⟨response, message, hcreate, hmessage, hcalls, htext⟩ := hb.whole hstream
      obtain ⟨hread, hanswer⟩ := foldl_readChunk_congr (b := b)
        ⟨[], "", false, t.totalTokens, t.yields⟩ ⟨[], "", false, 0, []⟩ rfl rfl chunks
      rw [← readAll] at hread hanswer
      rw [hcreate]
      dsimp only
      rw [hmessage]
      generalize chunks.foldl (readChunk b) ⟨[], "", false, t.totalTokens, t.yields⟩ = r
        at hread hanswer ⊢
      rw [← hread] at hcalls
      rw [← hanswer] at htext
      by_cases hnil : message.toolCalls = []
      · obtain ⟨hne, hcontent⟩ := htext hnil
        have hfinal : r.finalToolCalls = [] := List.map_eq_nil_iff.mp (hcalls.symm.trans hnil)
        dsimp only
        rw [if_pos hnil, if_pos ⟨hne, hfinal⟩, answerText, hcontent]
        exact ⟨rfl, rfl, by rw [hlog]⟩
      · have hfinal : ¬ (r.answer ≠ "" ∧ r.finalToolCalls = []) := by
          rintro ⟨-, hfinal⟩
          exact hnil (by rw [hcalls, hfinal]; rfl)
        dsimp only
        rw [if_neg hnil, if_neg hfinal, ← hcalls]
        generalize execTools b message.toolCalls _ = results
        cases appendHistoryBatch b h results with
        | error e => exact ⟨rfl, rfl, by rw [hlog]⟩
        | ok h' =>
          cases (shown b results).2 with
          | some e => exact ⟨rfl, rfl, by rw [hlog]⟩
          | none => exact ⟨rfl, rfl, by rw [hlog]⟩

theorem alike_lastRequest (hb : Agrees b) {s : Session σ ν} {t : StreamSession σ ν}
    (hst : Alike s t) :
    (lastRequest b h s).1 = (lastStreamRequest b h t).1 ∧
      Alike (lastRequest b h s).2 (lastStreamRequest b h t).2 := by
  obtain ⟨hworld, hlog⟩ := hst
  rw [lastRequest, lastStreamRequest, hworld]
  rcases hstream : b.createStream t.world (h ++ [exceedMaxRounds b])
    with ⟨e | ⟨chunks, raised⟩, world⟩
  · rw [hb.lastRefused hstream]
    exact ⟨rfl, rfl, by rw [hlog]⟩
  · cases raised with
    | some e =>
      rw [hb.lastBroken hstream]
      exact ⟨rfl, rfl, by rw [hlog]⟩
    | none =>
      obtain ⟨⟨response, tokens⟩, hlast⟩ := hb.lastWhole hstream
      rw [hlast]
      exact ⟨rfl, rfl, by rw [hlog]⟩

/-- The two loops send the same histories, run the same calls, and end alike. -/
theorem streamChat_eq_chat (b : Backend σ ν) (hb : Agrees b) (system : String)
    (history : List HistEntry) (w : σ) :
    (asyncChatStreamlyWithTools b system history w).2.log =
        (asyncChatWithTools b system history w).2.log ∧
      (asyncChatStreamlyWithTools b system history w).2.world =
        (asyncChatWithTools b system history w).2.world ∧
      (chat b (startHistory system history) ⟨w, "", 0, []⟩).1 =
        (streamChat b (startHistory system history) ⟨w, 0, [], []⟩).1 := by
  have hrun : ∀ {s : Session σ ν} {t : StreamSession σ ν}, Alike s t →
      (attempt b (startHistory system history) s).1 =
          (streamAttempt b (startHistory system history) t).1 ∧
        Alike (attempt b (startHistory system history) s).2
          (streamAttempt b (startHistory system history) t).2 := fun hst =>
    rounds_simulation (fun hst => alike_round hb hst) (fun hst => alike_lastRequest hb hst) hst
  have hstart : Alike (⟨w, "", 0, []⟩ : Session σ ν) ⟨w, 0, [], []⟩ := ⟨rfl, rfl⟩
  obtain ⟨hended, hworld, hlog⟩ :
      (chat b (startHistory system history) ⟨w, "", 0, []⟩).1 =
          (streamChat b (startHistory system history) ⟨w, 0, [], []⟩).1 ∧
        Alike (chat b (startHistory system history) ⟨w, "", 0, []⟩).2
          (streamChat b (startHistory system history) ⟨w, 0, [], []⟩).2 :=
    attempts_simulation hrun hstart
  exact ⟨hlog.symm, hworld.symm, hended⟩

theorem agrees_twoCalls : Agrees twoCalls where
  refused h := by simp [twoCalls] at h
  broken h := by simp [twoCalls] at h
  whole {w h chunks w'} hstream := by
    rw [twoCalls] at hstream
    dsimp only at hstream
    by_cases hw : w = 0
    · rw [if_pos hw] at hstream
      cases hstream
      exact ⟨_, _, rfl, rfl, by rw [if_pos hw]; rfl, by rw [if_pos hw]; nofun⟩
    · rw [if_neg hw] at hstream
      cases hstream
      exact ⟨_, _, rfl, rfl, by rw [if_neg hw]; rfl, by rw [if_neg hw]; exact fun _ => by decide⟩
  lastRefused h := by simp [twoCalls] at h
  lastBroken h := by simp [twoCalls] at h
  lastWhole h := by
    cases h
    exact ⟨_, rfl⟩

theorem streamChat_eq_chat_twoCalls :
    Agrees twoCalls ∧
      (asyncChatStreamlyWithTools twoCalls "" [.message "user" "time?"] 0).2.log =
        (asyncChatWithTools twoCalls "" [.message "user" "time?"] 0).2.log ∧
      (asyncChatStreamlyWithTools twoCalls "" [.message "user" "time?"] 0).2.world =
        (asyncChatWithTools twoCalls "" [.message "user" "time?"] 0).2.world ∧
      (chat twoCalls (startHistory "" [.message "user" "time?"]) ⟨0, "", 0, []⟩).1 =
        (streamChat twoCalls (startHistory "" [.message "user" "time?"]) ⟨0, 0, [], []⟩).1 :=
  ⟨agrees_twoCalls, streamChat_eq_chat twoCalls agrees_twoCalls "" [.message "user" "time?"] 0⟩

/-! ## Fragments -/

/-- The call that the fragments with the index of `f` come to. -/
def callOf (fragments : List Fragment) (f : Fragment) : ToolCall :=
  ⟨f.index, f.id, f.name, String.join
    ((fragments.filter fun g => g.index = f.index).map fun g => g.arguments.getD "")⟩

theorem callOf_concat_of_eq {l : List Fragment} {f g : Fragment} (h : g.index = f.index) :
    callOf (l ++ [g]) f =
      { callOf l f with arguments := (callOf l f).arguments ++ g.arguments.getD "" } := by
  simp [callOf, List.filter_append, h, String.join_append]

theorem callOf_concat_of_ne {l : List Fragment} {f g : Fragment} (h : g.index ≠ f.index) :
    callOf (l ++ [g]) f = callOf l f := by
  simp [callOf, List.filter_append, h]

theorem callOf_concat_self {l : List Fragment} {g : Fragment} (h : g.index ∉ l.map Fragment.index) :
    callOf (l ++ [g]) g = ⟨g.index, g.id, g.name, g.arguments.getD ""⟩ := by
  have hnone : l.filter (fun f => f.index = g.index) = [] :=
    List.filter_eq_nil_iff.mpr fun f hf heq =>
      h (of_decide_eq_true heq ▸ List.mem_map_of_mem hf)
  rw [callOf_concat_of_eq rfl, callOf, hnone]
  simp [String.join]

/-- Writing a key that exists changes its entry only. -/
theorem assocSet_eq_map {κ β : Type*} [DecidableEq κ] {d : Assoc κ β} (hd : (Assoc.keys d).Nodup)
    {key : κ} (hkey : key ∈ Assoc.keys d) (value : β) :
    Assoc.set key value d = d.map fun e => if e.1 = key then (key, value) else e := by
  induction d with
  | nil => simp [Assoc.keys] at hkey
  | cons e rest ih =>
    rw [Assoc.keys, List.map_cons, List.nodup_cons] at hd
    by_cases he : e.1 = key
    · have hrest : rest.map (fun e => if e.1 = key then (key, value) else e) = rest := by
        refine (List.map_congr_left fun e' he' => if_neg fun heq => ?_).trans (List.map_id rest)
        exact hd.1 (he ▸ heq ▸ List.mem_map_of_mem he')
      rw [Assoc.set, if_pos he, List.map_cons, if_pos he, hrest, he]
    · rw [Assoc.set, if_neg he, List.map_cons, if_neg he, ih hd.2]
      rw [Assoc.keys, List.map_cons, List.mem_cons] at hkey
      exact hkey.resolve_left (Ne.symm he)

theorem foldl_addFragment (l : List Fragment) :
    l.foldl addFragment [] =
      (Distinct.firstOccurrences Fragment.index l).map fun f => (f.index, callOf l f) := by
  induction l using List.reverseRecOn with
  | nil => rfl
  | append_singleton l g ih =>
    have hkeys : Assoc.keys ((Distinct.firstOccurrences Fragment.index l).map
        fun f => (f.index, callOf l f)) =
        (Distinct.firstOccurrences Fragment.index l).map Fragment.index := by
      simp [Assoc.keys, Function.comp_def]
    have hnodup := Distinct.nodup_map_firstOccurrences Fragment.index l
    rw [List.foldl_append, List.foldl_cons, List.foldl_nil, ih, addFragment,
      Distinct.firstOccurrences_concat]
    by_cases hg : g.index ∈ l.map Fragment.index
    · obtain ⟨f, hf, hfg⟩ :=
        List.mem_map.mp ((Distinct.mem_map_firstOccurrences Fragment.index).mpr hg)
      have hget : Assoc.get? g.index ((Distinct.firstOccurrences Fragment.index l).map
          fun f => (f.index, callOf l f)) = some (callOf l f) :=
        Assoc.get?_of_mem (hkeys ▸ hnodup) (List.mem_map.mpr ⟨f, hf, by rw [hfg]⟩)
      rw [hget, if_pos hg, List.append_nil]
      dsimp only
      rw [assocSet_eq_map (hkeys ▸ hnodup) (hkeys ▸ (Distinct.mem_map_firstOccurrences _).mpr hg),
        List.map_map]
      refine List.map_congr_left fun f' hf' => ?_
      by_cases hindex : f'.index = g.index
      · have heq : f' = f := List.inj_on_of_nodup_map hnodup hf' hf (hindex.trans hfg.symm)
        subst heq
        simp [hindex, callOf_concat_of_eq hindex.symm]
      · simp [hindex, callOf_concat_of_ne (Ne.symm hindex)]
    · have hget : g.index ∉ Assoc.keys ((Distinct.firstOccurrences Fragment.index l).map
          fun f => (f.index, callOf l f)) := by
        rwa [hkeys, Distinct.mem_map_firstOccurrences]
      rw [Assoc.get?_eq_none_iff.mpr hget, if_neg hg, List.map_append]
      dsimp only
      rw [Assoc.set_of_notMem hget, List.map_singleton, callOf_concat_self hg]
      congr 1
      refine List.map_congr_left fun f hf => ?_
      have hne : g.index ≠ f.index := fun heq => hg ((Distinct.mem_map_firstOccurrences _).mp
        (heq ▸ List.mem_map_of_mem hf))
      rw [callOf_concat_of_ne hne]

/-- The fragments of tool calls in a chunk. -/
def fragmentsOf (c : Chunk) : List Fragment := (c.delta.map Delta.toolCalls).getD []

/-- The text of a chunk that has neither tool calls nor reasoning. -/
def textOf (c : Chunk) : String :=
  match c.delta with
  | none => ""
  | some delta =>
      if delta.toolCalls = [] ∧ reasoningOf delta.reasoningContent delta.reasoning = none then
        delta.content.getD ""
      else ""

theorem readChunk_spec (r : Reading) (c : Chunk) :
    (readChunk b r c).finalToolCalls = (fragmentsOf c).foldl addFragment r.finalToolCalls ∧
      (readChunk b r c).answer = r.answer ++ textOf c := by
  rw [readChunk, fragmentsOf, textOf]
  cases c.delta with
  | none => simp
  | some delta =>
    by_cases hcalls : delta.toolCalls = []
    · cases hreasoning : reasoningOf delta.reasoningContent delta.reasoning <;>
        by_cases hlength : c.finishReason = "length" <;>
        simp [hcalls, hreasoning, hlength, readText]
    · simp [hcalls]

theorem foldl_readChunk_spec (chunks : List Chunk) (r : Reading) :
    (chunks.foldl (readChunk b) r).finalToolCalls =
        (chunks.flatMap fragmentsOf).foldl addFragment r.finalToolCalls ∧
      (chunks.foldl (readChunk b) r).answer = r.answer ++ String.join (chunks.map textOf) := by
  induction chunks generalizing r with
  | nil => simp [String.join]
  | cons c chunks ih =>
    obtain ⟨hcalls, hanswer⟩ := ih (readChunk b r c)
    obtain ⟨hcalls', hanswer'⟩ := readChunk_spec (b := b) r c
    rw [List.foldl_cons, hcalls, hanswer, hcalls', hanswer', List.flatMap_cons, List.foldl_append]
    exact ⟨rfl, by rw [List.map_cons, String.join_cons, String.append_assoc]⟩

/-- However the pieces of a streamed reply are cut and mixed, the calls are those of the indices in
the order of their first fragments, with the identifier and the name of the first and the arguments
of all fragments; the text is that of all chunks without calls and reasoning. -/
theorem readAll_spec (b : Backend σ ν) (chunks : List Chunk) :
    (readAll b chunks).finalToolCalls.map Prod.snd =
        (Distinct.firstOccurrences Fragment.index (chunks.flatMap fragmentsOf)).map
          (callOf (chunks.flatMap fragmentsOf)) ∧
      (readAll b chunks).answer = String.join (chunks.map textOf) := by
  obtain ⟨hcalls, hanswer⟩ :=
    foldl_readChunk_spec (b := b) chunks ⟨[], "", false, 0, []⟩
  rw [readAll, hcalls, hanswer, foldl_addFragment, List.map_map]
  exact ⟨rfl, String.empty_append⟩

end RagflowMineru.Chat.ToolLoop
