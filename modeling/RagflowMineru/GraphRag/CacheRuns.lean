import RagflowMineru.GraphRag.Caches
import Mathlib

/-!
# Runs of the caches

A run is any sequence of setter calls and of keys running out.  Getters change
nothing, so what they answer is asked of every state on the way.
-/

namespace RagflowMineru.GraphRag

open RagflowMineru.Library

/-- A getter and its arguments. -/
inductive Request (Obj : Type)
  | llm (llmnm txt history genconf : Obj)
  | embed (llmnm txt : Obj)
  | tags (kbIds : Obj)
  deriving DecidableEq

/-- A setter and its arguments. -/
inductive Write (Obj : Type)
  | llm (llmnm txt : Obj) (v : String) (history genconf : Obj)
  | embed (llmnm txt arr : Obj)
  | tags (kbIds tags : Obj)

/-- The getter call that a setter call is meant for. -/
def Write.request {Obj : Type} : Write Obj → Request Obj
  | .llm llmnm txt _ history genconf => .llm llmnm txt history genconf
  | .embed llmnm txt _ => .embed llmnm txt
  | .tags kbIds _ => .tags kbIds

variable {Obj κ ε : Type}

namespace Python

variable (py : Python Obj κ ε)

/-! ## One key and one text for each request -/

/-- The arguments of a request, printed and run together. -/
def printed : Request Obj → String
  | .llm llmnm txt history genconf =>
      py.str llmnm ++ py.str txt ++ py.str history ++ py.str genconf
  | .embed llmnm txt => py.str llmnm ++ py.str txt
  | .tags kbIds => py.str kbIds

def key (r : Request Obj) : κ := py.hexdigest (py.printed r).toUTF8

/-- What a setter stores. -/
def text : Write Obj → Except ε String
  | .llm _ _ v _ _ => .ok v
  | .embed _ _ arr => py.dumps (py.tolist arr)
  | .tags _ tags => py.dumps tags

/-- What a getter makes of a text it has found, unless it raises. -/
def read : Request Obj → String → Option (String ⊕ Obj)
  | .llm _ _ _ _, text => some (.inl text)
  | .embed _ _, text =>
      match py.loads text >>= py.array with
      | .ok arr => some (.inr arr)
      | .error _ => none
  | .tags _, text => some (.inl text)

/-- The completed writes as Redis has seen them. -/
def journal (writes : List (Write Obj)) : List (κ × String) :=
  writes.filterMap fun w =>
    (py.text w).toOption.map fun text => (py.key w.request, text)

variable {py}

theorem embedKey_eq (llmnm txt : Obj) :
    py.embedKey llmnm txt = py.key (.embed llmnm txt) := by
  simp [embedKey, key, printed, String.toByteArray_append]

theorem key_inj (hinj : Function.Injective py.hexdigest) (r r' : Request Obj) :
    py.key r = py.key r' ↔ py.printed r = py.printed r' := by
  constructor
  · intro h
    exact String.toByteArray_inj.mp (hinj h)
  · intro h
    rw [key, key, h]

theorem journal_cons {w : Write Obj} {text : String} (h : py.text w = .ok text)
    (writes : List (Write Obj)) :
    py.journal (w :: writes) = (py.key w.request, text) :: py.journal writes := by
  simp [journal, h, Except.toOption]

theorem find_eq_some_iff {redis : Redis κ} {k : κ} {text : String} :
    find redis k = some text ↔ redis.get k = some text ∧ text ≠ "" := by
  simp [find, Option.filter_eq_some_iff]

theorem read_embed_eq_some_iff {llmnm txt : Obj} {text : String}
    {v : String ⊕ Obj} :
    py.read (.embed llmnm txt) text = some v ↔
      ∃ arr, py.loads text >>= py.array = .ok arr ∧ v = .inr arr := by
  rw [read]
  split
  · rename_i arr h
    simp [h, eq_comm]
  · rename_i e h
    simp [h]

theorem getEmbedCache_eq_ok_iff {redis : Redis κ} {llmnm txt arr : Obj} :
    py.getEmbedCache redis llmnm txt = .ok (some arr) ↔
      ∃ text, find redis (py.key (.embed llmnm txt)) = some text ∧
        py.loads text >>= py.array = .ok arr := by
  rw [getEmbedCache, embedKey_eq]
  cases find redis (py.key (.embed llmnm txt)) with
  | none => simp
  | some text =>
      cases h : py.loads text with
      | error e => simp [h, bind, Except.bind]
      | ok plain =>
          cases h' : py.array plain with
          | error e => simp [h, h', bind, Except.bind]
          | ok arr' => simp [h, h', bind, Except.bind, pure, Except.pure]

end Python

/-! ## Runs -/

variable [DecidableEq κ]

/-- Redis, and beside it the setter calls that went through, the latest
first. -/
structure Cache (Obj κ : Type) where
  redis : Redis κ
  writes : List (Write Obj)

inductive Op (Obj κ : Type)
  | write (w : Write Obj)
  | expire (k : κ)

def Cache.init : Cache Obj κ := ⟨Expiring.empty, []⟩

namespace Python

variable (py : Python Obj κ ε)

def set (redis : Redis κ) : Write Obj → Except ε (Redis κ)
  | .llm llmnm txt v history genconf =>
      .ok (py.setLlmCache redis llmnm txt v history genconf)
  | .embed llmnm txt arr => py.setEmbedCache redis llmnm txt arr
  | .tags kbIds tags => py.setTagsToCache redis kbIds tags

/-- A setter that raises has not written. -/
def step (s : Cache Obj κ) : Op Obj κ → Option (Cache Obj κ)
  | .write w =>
      match py.set s.redis w with
      | .ok redis => some ⟨redis, w :: s.writes⟩
      | .error _ => some s
  | .expire k => some { s with redis := s.redis.expire k }

/-- The states of all runs. -/
abbrev Reached (s : Cache Obj κ) : Prop :=
  Driven py.step (fun _ _ => True) Cache.init s

variable {py}

theorem set_eq (redis : Redis κ) (w : Write Obj) :
    py.set redis w =
      (py.text w).map fun text => redis.put (py.key w.request) text true := by
  cases w with
  | llm => rfl
  | embed llmnm txt arr =>
      rw [set, setEmbedCache, embedKey_eq]
      rfl
  | tags => rfl

/-! ## Redis holds what was written last under a key -/

variable (py) in
/-- The setter call that last went through for any arguments that print like
those of `r`. -/
def lastPrinted (writes : List (Write Obj)) (r : Request Obj) :
    Option (Write Obj) :=
  writes.find? fun w => py.printed w.request = py.printed r

variable (py) in
structure Kept (s : Cache Obj κ) : Prop where
  stored : ∀ w ∈ s.writes, ∃ text, py.text w = .ok text
  redis : s.redis.KeptBy (py.journal s.writes)

theorem kept_step {s t : Cache Obj κ} {op : Op Obj κ} (hs : py.Kept s)
    (hstep : py.step s op = some t) : py.Kept t := by
  cases op with
  | write w =>
      rw [step, set_eq] at hstep
      cases htext : py.text w with
      | error e =>
          rw [htext] at hstep
          obtain rfl := Option.some.inj hstep
          exact hs
      | ok text =>
          rw [htext] at hstep
          obtain rfl := Option.some.inj hstep
          constructor
          · intro w' hw'
            obtain rfl | hmem := List.mem_cons.mp hw'
            · exact ⟨text, htext⟩
            · exact hs.stored w' hmem
          · rw [journal_cons htext]
            exact hs.redis.put _ _ _
  | expire k =>
      obtain rfl := Option.some.inj hstep
      exact ⟨hs.stored, hs.redis.expire k⟩

theorem Reached.kept {s : Cache Obj κ} (hs : py.Reached s) : py.Kept s := by
  apply hs.invariant (I := py.Kept)
  · exact ⟨by simp [Cache.init], Expiring.keptBy_empty⟩
  · intro s op t hs _ hstep
    exact kept_step hs hstep

theorem latest_journal (hinj : Function.Injective py.hexdigest)
    {writes : List (Write Obj)}
    (hstored : ∀ w ∈ writes, ∃ text, py.text w = .ok text) (r : Request Obj) :
    Expiring.latest (py.journal writes) (py.key r) =
      (py.lastPrinted writes r).bind fun w => (py.text w).toOption := by
  induction writes with
  | nil => rfl
  | cons w writes ih =>
      obtain ⟨text, htext⟩ := hstored w List.mem_cons_self
      have htail := ih fun w' hw' => hstored w' (List.mem_cons_of_mem w hw')
      rw [journal_cons htext, Expiring.latest_cons]
      by_cases h : py.printed w.request = py.printed r
      · rw [if_pos ((key_inj hinj _ _).mpr h)]
        simp [lastPrinted, h, htext, Except.toOption]
      · rw [if_neg (mt (key_inj hinj _ _).mp h), htail]
        simp [lastPrinted, h]

/-- What is found under the key of a request is what the last setter call that
prints like it has stored. -/
theorem Kept.of_get {s : Cache Obj κ} (hs : py.Kept s)
    (hinj : Function.Injective py.hexdigest) {r : Request Obj} {text : String}
    (hget : s.redis.get (py.key r) = some text) :
    ∃ w, py.lastPrinted s.writes r = some w ∧ py.text w = .ok text := by
  have hlatest := hs.redis _ _ hget
  rw [latest_journal hinj hs.stored] at hlatest
  obtain ⟨w, hw, htext⟩ := Option.bind_eq_some_iff.mp hlatest
  refine ⟨w, hw, ?_⟩
  cases h : py.text w with
  | error e => simp [h, Except.toOption] at htext
  | ok text' =>
      simp only [h, Except.toOption, Option.some.injEq] at htext
      rw [htext]

/-! ## Answers that are the getter's own -/

variable [DecidableEq Obj]

/-- The setter call that last went through for these arguments. -/
def lastWrite (writes : List (Write Obj)) (r : Request Obj) :
    Option (Write Obj) :=
  writes.find? fun w => w.request = r

variable (py) in
/-- What the getter returns is what its own setter was last given for the same
arguments. -/
def AnswersOwn (s : Cache Obj κ) : Request Obj → Prop
  | .llm llmnm txt history genconf =>
      ∀ v, py.getLlmCache s.redis llmnm txt history genconf = some v →
        lastWrite s.writes (.llm llmnm txt history genconf) =
          some (.llm llmnm txt v history genconf)
  | .embed llmnm txt =>
      ∀ v, py.getEmbedCache s.redis llmnm txt = .ok (some v) →
        ∃ arr text,
          lastWrite s.writes (.embed llmnm txt) =
            some (.embed llmnm txt arr) ∧
          py.dumps (py.tolist arr) = .ok text ∧
          py.loads text >>= py.array = .ok v
  | .tags kbIds =>
      ∀ v, py.getTagsFromCache s.redis kbIds = some v →
        ∃ tags, lastWrite s.writes (.tags kbIds) = some (.tags kbIds tags) ∧
          py.dumps tags = .ok v

variable (py) in
/-- The key of `r` was last written for other arguments or by another setter,
its text is still there and `r` can make something of it, which is not what
the last setter call for `r` itself has stored. -/
def Collides (s : Cache Obj κ) (r : Request Obj) : Prop :=
  ∃ w text v, py.lastPrinted s.writes r = some w ∧ w.request ≠ r ∧
    s.redis.get (py.key r) ≠ none ∧
    py.text w = .ok text ∧ text ≠ "" ∧ py.read r text = some v ∧
    ∀ w' text', lastWrite s.writes r = some w' → py.text w' = .ok text' →
      py.read r text' ≠ some v

theorem request_of_lastWrite {writes : List (Write Obj)} {r : Request Obj}
    {w : Write Obj} (h : lastWrite writes r = some w) : w.request = r := by
  simpa using List.find?_some h

omit [DecidableEq κ] in
/-- The three getters and their answers under one form. -/
theorem answersOwn_iff_read {s : Cache Obj κ} {r : Request Obj} :
    py.AnswersOwn s r ↔
      ∀ text v, find s.redis (py.key r) = some text →
        py.read r text = some v →
        ∃ w own, lastWrite s.writes r = some w ∧ py.text w = .ok own ∧
          py.read r own = some v := by
  cases r with
  | llm llmnm txt history genconf =>
      constructor
      · intro h text v hfind hread
        exact ⟨_, _, h text hfind, rfl, hread⟩
      · intro h v hfind
        obtain ⟨w, own, hw, hown, hread⟩ := h v _ hfind rfl
        have hreq := request_of_lastWrite hw
        cases w <;> simp_all [Write.request, text, read]
  | embed llmnm txt =>
      constructor
      · intro h text v hfind hread
        obtain ⟨arr, harr, rfl⟩ := read_embed_eq_some_iff.mp hread
        obtain ⟨plain, own, hw, hown, hload⟩ :=
          h arr (getEmbedCache_eq_ok_iff.mpr ⟨text, hfind, harr⟩)
        exact ⟨_, own, hw, hown, read_embed_eq_some_iff.mpr ⟨arr, hload, rfl⟩⟩
      · intro h arr hget
        obtain ⟨text, hfind, harr⟩ := getEmbedCache_eq_ok_iff.mp hget
        obtain ⟨w, own, hw, hown, hread⟩ :=
          h text (.inr arr) hfind (read_embed_eq_some_iff.mpr ⟨arr, harr, rfl⟩)
        obtain ⟨arr', hload, heq⟩ := read_embed_eq_some_iff.mp hread
        obtain rfl := Sum.inr.inj heq
        have hreq := request_of_lastWrite hw
        cases w with
        | embed llmnm' txt' plain =>
            obtain ⟨rfl, rfl⟩ : llmnm' = llmnm ∧ txt' = txt := by
              simpa [Write.request] using hreq
            exact ⟨plain, own, hw, hown, hload⟩
        | llm => simp [Write.request] at hreq
        | tags => simp [Write.request] at hreq
  | tags kbIds =>
      constructor
      · intro h text v hfind hread
        obtain ⟨tags, hw, htext⟩ := h text hfind
        exact ⟨_, _, hw, htext, hread⟩
      · intro h v hfind
        obtain ⟨w, own, hw, hown, hread⟩ := h v _ hfind rfl
        have hreq := request_of_lastWrite hw
        cases w <;> simp_all [Write.request, text, read]

omit [DecidableEq κ] in
/-- A setter call for `r` itself that is the last to print like `r` is the
last one for `r`. -/
theorem lastWrite_of_lastPrinted {writes : List (Write Obj)} {r : Request Obj}
    {w : Write Obj} (h : py.lastPrinted writes r = some w)
    (hreq : w.request = r) : lastWrite writes r = some w := by
  rw [lastPrinted, List.find?_eq_some_iff_append] at h
  obtain ⟨-, before, after, rfl, hbefore⟩ := h
  rw [lastWrite, List.find?_eq_some_iff_append]
  refine ⟨by simpa using hreq, before, after, rfl, ?_⟩
  intro w' hw'
  have hne := hbefore w' hw'
  simp only [Bool.not_eq_eq_eq_not, Bool.not_true, decide_eq_false_iff_not] at hne ⊢
  exact fun heq => hne (by rw [heq])

/-- After any run a getter returns what its own setter stored last for the same
arguments, exactly when its key was not taken by a call that prints alike. -/
theorem answersOwn_iff_not_collides
    (hinj : Function.Injective py.hexdigest) (s : Cache Obj κ)
    (hs : py.Reached s) (r : Request Obj) :
    py.AnswersOwn s r ↔ ¬ py.Collides s r := by
  rw [answersOwn_iff_read]
  constructor
  · rintro hown ⟨w, text, v, hw, -, hget, htext, hne, hread, hother⟩
    obtain ⟨found, hfound⟩ := Option.ne_none_iff_exists'.mp hget
    obtain ⟨w', hw', htext'⟩ := (Reached.kept hs).of_get hinj hfound
    obtain rfl : w' = w := Option.some.inj (hw'.symm.trans hw)
    obtain rfl : found = text := Except.ok.inj (htext'.symm.trans htext)
    obtain ⟨w'', own, hw'', hown', hread'⟩ :=
      hown found v (find_eq_some_iff.mpr ⟨hfound, hne⟩) hread
    exact hother w'' own hw'' hown' hread'
  · intro hfree text v hfind hread
    obtain ⟨hget, hne⟩ := find_eq_some_iff.mp hfind
    obtain ⟨w, hw, htext⟩ := (Reached.kept hs).of_get hinj hget
    by_cases hreq : w.request = r
    · exact ⟨w, text, lastWrite_of_lastPrinted hw hreq, htext, hread⟩
    · by_contra hnone
      apply hfree
      refine ⟨w, text, v, hw, hreq, by simp [hget], htext, hne, hread, ?_⟩
      intro w' own hw' hown hread'
      exact hnone ⟨w', own, hw', hown, hread'⟩

/-- No two requests that print alike, no wrong answer. -/
theorem answersOwn_of_printed_injective
    (hinj : Function.Injective py.hexdigest)
    (hprint : Function.Injective py.printed) (s : Cache Obj κ)
    (hs : py.Reached s) (r : Request Obj) : py.AnswersOwn s r := by
  rw [answersOwn_iff_not_collides hinj s hs r]
  rintro ⟨w, -, -, hw, hreq, -⟩
  have hprinted := List.find?_some hw
  exact hreq (hprint (by simpa using hprinted))

end Python

/-! ## Two requests with one key -/

/-- A few Python objects, enough for a call. -/
inductive PlainObj
  | text (s : String)
  | emptyList
  | emptyDict
  deriving DecidableEq

/-- Their printing and JSON, for texts without characters to escape; the hash
is the identity. -/
def plainPython : Python PlainObj ByteArray Unit where
  str
    | .text s => s
    | .emptyList => "[]"
    | .emptyDict => "\x7b\x7d"
  hexdigest := id
  tolist := id
  dumps
    | .text s => .ok ("\"" ++ s ++ "\"")
    | .emptyList => .ok "[]"
    | .emptyDict => .ok "\x7b\x7d"
  loads text :=
    if text = "[]" then .ok .emptyList
    else if text = "\x7b\x7d" then .ok .emptyDict
    else .error ()
  array := .ok

/-- One answer is stored, for model `gpt-4`. -/
def oneAnswer : Cache PlainObj ByteArray where
  redis := plainPython.setLlmCache Expiring.empty (.text "gpt-4")
    (.text "o, name a color") "red" .emptyList .emptyDict
  writes := [.llm (.text "gpt-4") (.text "o, name a color") "red" .emptyList
    .emptyDict]

theorem oneAnswer_reached : plainPython.Reached oneAnswer :=
  Driven.refl.next
    (i := .write (.llm (.text "gpt-4") (.text "o, name a color") "red"
      .emptyList .emptyDict)) trivial rfl

/-- The answer is returned to model `gpt-4o`, which was never asked. -/
theorem other_model_answer :
    ¬ ∀ s, plainPython.Reached s → ∀ r, plainPython.AnswersOwn s r := by
  intro h
  have hown := h oneAnswer oneAnswer_reached
    (.llm (.text "gpt-4o") (.text ", name a color") .emptyList .emptyDict)
    "red"
  have hkey : plainPython.llmKey (.text "gpt-4") (.text "o, name a color")
      .emptyList .emptyDict =
      plainPython.llmKey (.text "gpt-4o") (.text ", name a color") .emptyList
        .emptyDict := by
    rfl
  have hfound : plainPython.getLlmCache oneAnswer.redis (.text "gpt-4o")
      (.text ", name a color") .emptyList .emptyDict = some "red" := by
    rw [Python.getLlmCache, ← hkey, oneAnswer, Python.setLlmCache]
    simp [Python.find]
  have hlast := hown hfound
  simp [Python.lastWrite, oneAnswer, Write.request] at hlast

/-- There the two calls collide, and nothing else is to be blamed. -/
theorem other_model_answer_iff :
    plainPython.AnswersOwn oneAnswer
        (.llm (.text "gpt-4o") (.text ", name a color") .emptyList
          .emptyDict) ↔
      ¬ plainPython.Collides oneAnswer
        (.llm (.text "gpt-4o") (.text ", name a color") .emptyList
          .emptyDict) :=
  Python.answersOwn_iff_not_collides Function.injective_id oneAnswer
    oneAnswer_reached _

end RagflowMineru.GraphRag
