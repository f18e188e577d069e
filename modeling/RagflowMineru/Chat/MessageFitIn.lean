import RagflowMineru.Library.Binary64
import Mathlib.Data.List.Enum
import Mathlib.Data.List.Infix
import Mathlib.Data.PNat.Basic

/-!
# Messages within a number of tokens

`message_fit_in` gives up the messages that are neither of the system nor the last one, and then
cuts the first or the last of those that remain.  The last one is cut to what the budget leaves
beside its own tokens, and with several messages of the system the others are not looked at.
-/

namespace RagflowMineru.Chat

open Library

structure Message where
  role : String
  content : List Char

/-- A tokenizer that keeps prefixes of token lists. -/
structure Tokenizer (τ : Type) where
  encode : List Char → List τ
  decode : List τ → List Char
  encode_decode : ∀ m n, encode (decode ((encode m).take n)) = (encode m).take n
  decode_isPrefix : ∀ m n, decode ((encode m).take n) <+: m

inductive FitError where
  | zeroDivisionError | indexError

/-- A message of the list with its place, which tells one dictionary from another. -/
abbrev MessageRef := Message × ℕ

section Fit

variable {τ : Type} (tk : Tokenizer τ)

/-- `num_tokens_from_string` -/
def numTokensFromString (s : List Char) : ℕ := (tk.encode s).length

/-- `count()` -/
def countTokens (msg : List MessageRef) : ℕ :=
  (msg.map fun m => numTokensFromString tk m.1.content).sum

/-- `l[:stop]`; a negative stop counts from the end. -/
def takeTo (l : List τ) (stop : ℤ) : List τ :=
  l.take (if 0 ≤ stop then stop else l.length + stop).toNat

/-- `msg[i]["content"] = m`, seen in all places of the list where the dictionary stands. -/
def setContent (place : ℕ) (m : List Char) (msg : List MessageRef) : List MessageRef :=
  msg.map fun r => if r.2 = place then ({ r.1 with content := m }, r.2) else r

/-- Cut a message of the list. -/
def cutTo (r : MessageRef) (stop : ℤ) (msg : List MessageRef) : List MessageRef :=
  setContent r.2 (tk.decode (takeTo (tk.encode r.1.content) stop)) msg

/-- The messages of the system, and the last one behind them. -/
def systemAndLast (msg : List MessageRef) : List MessageRef :=
  msg.filter (fun r => r.1.role = "system") ++ if 1 < msg.length then msg.getLast?.toList else []

/-- Whether the first message has more than its share; `none` is a division by zero. -/
def firstHeavy (ll ll2 : ℕ) : Option Bool :=
  (Binary64.trueDiv ll (ll + ll2)).map fun ratio => Binary64.nearest (4 / 5) < ratio

/-- `message_fit_in` -/
def messageFitIn (messages : List Message) (maxLength : ℕ+) :
    Except FitError (ℕ × List MessageRef) :=
  let msg := messages.zipIdx
  if countTokens tk msg < maxLength then .ok (countTokens tk msg, msg)
  else
    let msg := systemAndLast msg
    if countTokens tk msg < maxLength then .ok (countTokens tk msg, msg)
    else
      match msg.head?, msg.getLast? with
      | some first, some last =>
          let ll := numTokensFromString tk first.1.content
          let ll2 := numTokensFromString tk last.1.content
          match firstHeavy ll ll2 with
          | none => .error .zeroDivisionError
          | some heavy =>
              -- both branches cut to what the last message leaves
              .ok (maxLength, cutTo tk (if heavy then first else last) (maxLength - ll2) msg)
      | _, _ => .error .indexError

/-- What should come out: messages with at most so many tokens, the last one and those of the system
among them, each with a prefix of its content. -/
structure Fitted (messages : List Message) (maxLength : ℕ+) (out : List MessageRef) : Prop where
  count_le : countTokens tk out ≤ maxLength
  last_mem : messages ≠ [] → messages.length - 1 ∈ out.map Prod.snd
  system_mem : ∀ i m, messages[i]? = some m → m.role = "system" → i ∈ out.map Prod.snd
  prefix_of : ∀ r ∈ out, ∃ m, messages[r.2]? = some m ∧ r.1.role = m.role ∧
    r.1.content <+: m.content

def FitsIn (messages : List Message) (maxLength : ℕ+) : Prop :=
  ∃ c out, messageFitIn tk messages maxLength = .ok (c, out) ∧ Fitted tk messages maxLength out

/-- When the cut is enough: `c` are the tokens of the remaining messages, `ll` and `ll2` those of
the first and of the last one. -/
def CutFits (c ll ll2 maxLength : ℕ) (lastTwice : Prop) : Prop :=
  c = maxLength ∧ 0 < ll + ll2 ∨
    firstHeavy ll ll2 = some true ∧ c = ll + ll2 ∧ ll2 ≤ maxLength ∨
    firstHeavy ll ll2 = some false ∧ ¬ lastTwice ∧
      (maxLength < 2 * ll2 ∧ ll2 ≤ maxLength ∧ c ≤ 2 * ll2 ∨ maxLength < ll2 ∧ c = ll2) ∨
    firstHeavy ll ll2 = some false ∧ lastTwice ∧ ll2 ≤ maxLength ∧ c + maxLength ≤ 4 * ll2

/-- The messages that are returned have few enough tokens, and the last one is not given up. -/
def FitsWhen (messages : List Message) (maxLength : ℕ+) : Prop :=
  let msg := messages.zipIdx
  let kept := systemAndLast msg
  countTokens tk msg < maxLength ∨
    kept ≠ [] ∧ (countTokens tk kept < maxLength ∨
      ∃ first last, kept.head? = some first ∧ kept.getLast? = some last ∧
        CutFits (countTokens tk kept) (numTokensFromString tk first.1.content)
          (numTokensFromString tk last.1.content) maxLength
          (1 < messages.length ∧ last.1.role = "system"))

end Fit

section Places

variable {τ : Type} {tk : Tokenizer τ} {messages : List Message} {msg : List MessageRef}
variable {r : MessageRef} {m : List Char}

theorem map_snd_setContent (place : ℕ) (m : List Char) (msg : List MessageRef) :
    (setContent place m msg).map Prod.snd = msg.map Prod.snd := by
  rw [setContent, List.map_map]
  refine List.map_congr_left fun r _ => ?_
  dsimp only [Function.comp]
  split_ifs <;> rfl

theorem mem_zipIdx_iff : r ∈ messages.zipIdx ↔ messages[r.2]? = some r.1 :=
  List.mem_zipIdx_iff_getElem?

theorem mem_of_mem_systemAndLast (h : r ∈ systemAndLast msg) : r ∈ msg := by
  rcases List.mem_append.mp h with hsystem | hlast
  · exact List.mem_of_mem_filter hsystem
  · split_ifs at hlast
    · exact List.mem_of_getLast? (Option.mem_toList.mp hlast)
    · exact absurd hlast List.not_mem_nil

/-- All messages of the system remain. -/
theorem mem_systemAndLast_of_system {i : ℕ} {m : Message} (hget : messages[i]? = some m)
    (hrole : m.role = "system") : i ∈ (systemAndLast messages.zipIdx).map Prod.snd := by
  have hmem : (m, i) ∈ messages.zipIdx.filter fun r => r.1.role = "system" :=
    List.mem_filter.mpr ⟨mem_zipIdx_iff.mpr hget, decide_eq_true hrole⟩
  exact List.mem_map_of_mem (List.mem_append_left _ hmem)

/-- The last message remains, unless nothing does. -/
theorem last_mem_systemAndLast (hkept : systemAndLast messages.zipIdx ≠ []) :
    messages.length - 1 ∈ (systemAndLast messages.zipIdx).map Prod.snd := by
  obtain ⟨r, hr⟩ := List.exists_mem_of_ne_nil _ hkept
  rcases Nat.lt_or_ge 1 messages.length with hmany | hone
  · have hlast : messages.zipIdx.getLast? =
        some (messages[messages.length - 1], messages.length - 1) := by
      rw [List.getLast?_eq_getElem?, List.length_zipIdx, List.getElem?_zipIdx,
        List.getElem?_eq_getElem (by omega)]
      simp
    have hmem : (messages[messages.length - 1], messages.length - 1) ∈
        systemAndLast messages.zipIdx := by
      refine List.mem_append_right _ ?_
      rw [List.length_zipIdx, if_pos hmany, hlast]
      exact List.mem_singleton_self _
    exact List.mem_map_of_mem (f := Prod.snd) hmem
  · have hplace : r.2 < messages.length := by
      have hget := mem_zipIdx_iff.mp (mem_of_mem_systemAndLast hr)
      exact (List.getElem?_eq_some_iff.mp hget).1
    have heq : messages.length - 1 = r.2 := by omega
    rw [heq]
    exact List.mem_map_of_mem hr

theorem fitted_of_places {maxLength : ℕ+} {out : List MessageRef}
    (hkept : systemAndLast messages.zipIdx ≠ [])
    (hplaces : out.map Prod.snd = (systemAndLast messages.zipIdx).map Prod.snd)
    (hcontent : ∀ r ∈ out, ∃ m, messages[r.2]? = some m ∧ r.1.role = m.role ∧
      r.1.content <+: m.content) :
    Fitted tk messages maxLength out ↔ countTokens tk out ≤ maxLength := by
  refine ⟨Fitted.count_le, fun hcount => ⟨hcount, fun _ => ?_, fun i m hget hrole => ?_, hcontent⟩⟩
  · rw [hplaces]
    exact last_mem_systemAndLast hkept
  · rw [hplaces]
    exact mem_systemAndLast_of_system hget hrole

theorem prefix_of_mem (h : r ∈ messages.zipIdx) :
    ∃ m, messages[r.2]? = some m ∧ r.1.role = m.role ∧ r.1.content <+: m.content :=
  ⟨r.1, mem_zipIdx_iff.mp h, rfl, List.prefix_rfl⟩

/-- A cut leaves a prefix of the content. -/
theorem prefix_of_mem_cutTo {first : MessageRef} {stop : ℤ} (hfirst : first ∈ messages.zipIdx)
    (hmsg : ∀ r ∈ msg, r ∈ messages.zipIdx) (h : r ∈ cutTo tk first stop msg) :
    ∃ m, messages[r.2]? = some m ∧ r.1.role = m.role ∧ r.1.content <+: m.content := by
  obtain ⟨r', hr', rfl⟩ := List.mem_map.mp h
  have hget := mem_zipIdx_iff.mp (hmsg r' hr')
  split_ifs with hplace
  · have hsame : r'.1 = first.1 := by
      rw [hplace, mem_zipIdx_iff.mp hfirst] at hget
      exact (Option.some.inj hget).symm
    refine ⟨r'.1, hget, rfl, ?_⟩
    dsimp only
    rw [hsame]
    exact tk.decode_isPrefix _ _
  · exact prefix_of_mem (hmsg r' hr')

theorem fitted_zipIdx {maxLength : ℕ+} (h : countTokens tk messages.zipIdx < maxLength) :
    Fitted tk messages maxLength messages.zipIdx where
  count_le := h.le
  last_mem hne := by
    have hpos := List.length_pos_iff.mpr hne
    rw [List.zipIdx_map_snd, List.mem_range'_1]
    omega
  system_mem i m hget _ := by
    have hmem : (m, i) ∈ messages.zipIdx := mem_zipIdx_iff.mpr hget
    exact List.mem_map_of_mem (f := Prod.snd) hmem
  prefix_of _ hr := prefix_of_mem hr

theorem map_snd_cutTo (r : MessageRef) (stop : ℤ) (msg : List MessageRef) :
    (cutTo tk r stop msg).map Prod.snd = msg.map Prod.snd := map_snd_setContent _ _ _

/-- What is cut fits, if it has few enough tokens. -/
theorem fitted_cutTo {maxLength : ℕ+} (hr : r ∈ messages.zipIdx)
    (hmsg : systemAndLast messages.zipIdx = msg) (hne : msg ≠ []) (stop : ℤ) :
    Fitted tk messages maxLength (cutTo tk r stop msg) ↔
      countTokens tk (cutTo tk r stop msg) ≤ maxLength := by
  subst hmsg
  exact fitted_of_places hne (map_snd_cutTo r stop _) fun r' hr' =>
    prefix_of_mem_cutTo hr (fun _ => mem_of_mem_systemAndLast) hr'

/-- The messages fit, if what is returned has few enough tokens. -/
theorem fitsIn_iff_count (tk : Tokenizer τ) (messages : List Message) (maxLength : ℕ+) :
    FitsIn tk messages maxLength ↔
      countTokens tk messages.zipIdx < maxLength ∨
        systemAndLast messages.zipIdx ≠ [] ∧
          (countTokens tk (systemAndLast messages.zipIdx) < maxLength ∨
            ∃ first last heavy, (systemAndLast messages.zipIdx).head? = some first ∧
              (systemAndLast messages.zipIdx).getLast? = some last ∧
              firstHeavy (numTokensFromString tk first.1.content)
                (numTokensFromString tk last.1.content) = some heavy ∧
              countTokens tk (cutTo tk (if heavy then first else last)
                (maxLength - numTokensFromString tk last.1.content)
                (systemAndLast messages.zipIdx)) ≤ maxLength) := by
  have hkept : ∀ r ∈ systemAndLast messages.zipIdx, r ∈ messages.zipIdx := fun r =>
    mem_of_mem_systemAndLast
  rw [FitsIn, messageFitIn]
  dsimp only
  generalize hmsg : systemAndLast messages.zipIdx = kept at hkept
  by_cases hall : countTokens tk messages.zipIdx < maxLength
  · rw [if_pos hall]
    exact iff_of_true ⟨_, _, rfl, fitted_zipIdx hall⟩ (.inl hall)
  rw [if_neg hall, or_iff_right hall]
  by_cases hfew : countTokens tk kept < maxLength
  · rw [if_pos hfew]
    constructor
    · rintro ⟨c, out, hout, hfit⟩
      obtain ⟨-, rfl⟩ := Prod.mk.inj (Except.ok.inj hout)
      refine ⟨?_, .inl hfew⟩
      rintro rfl
      have hne : messages ≠ [] := by
        rintro rfl
        exact hall maxLength.pos
      exact absurd (hfit.last_mem hne) List.not_mem_nil
    · rintro ⟨hne, -⟩
      subst hmsg
      exact ⟨_, _, rfl, (fitted_of_places hne rfl fun r hr => prefix_of_mem (hkept r hr)).mpr
        hfew.le⟩
  · rw [if_neg hfew, or_iff_right hfew]
    have hne : kept ≠ [] := by
      rintro rfl
      exact hfew maxLength.pos
    have hhead := List.head?_eq_some_head hne
    have hlast := List.getLast?_eq_some_getLast hne
    have hfirst := hkept _ (List.head_mem hne)
    have hend := hkept _ (List.getLast_mem hne)
    rw [hhead, hlast]
    dsimp only
    generalize kept.head hne = first at hhead hfirst
    generalize kept.getLast hne = last at hlast hend
    cases hheavy : firstHeavy (numTokensFromString tk first.1.content)
        (numTokensFromString tk last.1.content) with
    | none =>
        refine iff_of_false (fun ⟨_, _, hout, _⟩ => nomatch hout) ?_
        rintro ⟨-, first', last', heavy, hhead', hlast', hheavy', -⟩
        obtain rfl := Option.some.inj hhead'
        obtain rfl := Option.some.inj hlast'
        rw [hheavy] at hheavy'
        exact nomatch hheavy'
    | some heavy =>
        have hcut : (if heavy then first else last) ∈ messages.zipIdx := by
          cases heavy
          · exact hend
          · exact hfirst
        have hfitted (stop : ℤ) : Fitted tk messages maxLength _ ↔ _ :=
          fitted_cutTo hcut hmsg hne stop
        constructor
        · rintro ⟨c, out, hout, hfit⟩
          obtain ⟨-, rfl⟩ := Prod.mk.inj (Except.ok.inj hout)
          exact ⟨hne, first, last, heavy, rfl, rfl, hheavy, (hfitted _).mp hfit⟩
        · rintro ⟨-, first', last', heavy', hhead', hlast', hheavy', hcount⟩
          obtain rfl := Option.some.inj hhead'
          obtain rfl := Option.some.inj hlast'
          obtain rfl := Option.some.inj (hheavy.symm.trans hheavy')
          exact ⟨_, _, rfl, (hfitted _).mpr hcount⟩

end Places

/-! ## Counting -/

section Counting

variable {τ : Type} {tk : Tokenizer τ} {messages : List Message} {kept system : List MessageRef}
variable {last r : MessageRef} {times : ℕ} {stop : ℤ}

/-- What remains: messages of the system with places of their own, and the last message once, or
twice if it is one of the system behind others. -/
structure Remains (messages : List Message) (kept system : List MessageRef) (last : MessageRef)
    (times : ℕ) : Prop where
  kept_eq : kept = system ++ List.replicate times last
  place_lt : ∀ r ∈ system, r.2 < last.2
  nodup : (system.map Prod.snd).Nodup
  times_eq : times = if 1 < messages.length ∧ last.1.role = "system" then 2 else 1

theorem exists_remains (hne : systemAndLast messages.zipIdx ≠ []) :
    ∃ system last times, Remains messages (systemAndLast messages.zipIdx) system last times := by
  have hmessages : messages ≠ [] := by
    rintro rfl
    exact hne rfl
  obtain ⟨front, m, rfl⟩ : ∃ front m, messages = front ++ [m] :=
    ⟨_, _, (List.dropLast_append_getLast hmessages).symm⟩
  have hzip : (front ++ [m]).zipIdx = front.zipIdx ++ [(m, front.length)] := by
    rw [List.zipIdx_append, Nat.zero_add]
    rfl
  have hlt : ∀ r ∈ front.zipIdx.filter fun r => r.1.role = "system", r.2 < front.length := by
    intro r hr
    exact (List.getElem?_eq_some_iff.mp (mem_zipIdx_iff.mp (List.mem_of_mem_filter hr))).1
  have hnodup : ((front.zipIdx.filter fun r => r.1.role = "system").map Prod.snd).Nodup := by
    refine List.Nodup.sublist (List.filter_sublist.map Prod.snd) ?_
    rw [List.zipIdx_map_snd]
    exact List.nodup_range'
  refine ⟨front.zipIdx.filter fun r => r.1.role = "system", (m, front.length), _, ?_, hlt, hnodup,
    rfl⟩
  have hzipLength : (front ++ [m]).zipIdx.length = (front ++ [m]).length := List.length_zipIdx
  rw [systemAndLast, hzipLength, hzip, List.filter_append, List.getLast?_concat,
    List.append_assoc]
  by_cases hrole : m.role = "system"
  · by_cases hmany : 1 < (front ++ [m]).length
    · rw [if_pos hmany, if_pos ⟨hmany, hrole⟩, List.filter_cons_of_pos (by simpa using hrole)]
      rfl
    · rw [if_neg hmany, if_neg (fun h => hmany h.1), List.filter_cons_of_pos (by simpa using hrole)]
      rfl
  · have hmany : 1 < (front ++ [m]).length := by
      by_contra hone
      have hfront : front = [] := by
        rw [List.length_append, List.length_singleton] at hone
        exact List.length_eq_zero_iff.mp (by omega)
      subst hfront
      apply hne
      rw [systemAndLast, if_neg (by simp), hzip, List.append_nil]
      exact List.filter_eq_nil_iff.mpr (by simpa using hrole)
    rw [if_pos hmany, if_neg (fun h => hrole h.2), List.filter_cons_of_neg (by simpa using hrole)]
    rfl

theorem countTokens_append (l l' : List MessageRef) :
    countTokens tk (l ++ l') = countTokens tk l + countTokens tk l' := by
  rw [countTokens, List.map_append, List.sum_append]
  rfl

theorem countTokens_single (r : MessageRef) :
    countTokens tk [r] = numTokensFromString tk r.1.content := List.sum_singleton

theorem countTokens_replicate (n : ℕ) (r : MessageRef) :
    countTokens tk (List.replicate n r) = n * numTokensFromString tk r.1.content := by
  rw [countTokens, List.map_replicate, List.sum_replicate_nat]

theorem setContent_of_ne {place : ℕ} {m : List Char} (h : ∀ r ∈ system, r.2 ≠ place) :
    setContent place m system = system := by
  rw [setContent]
  exact (List.map_congr_left fun r hr => if_neg (h r hr)).trans (List.map_id _)

/-- The tokens that a slice leaves of so many. -/
def sliceTokens (n : ℕ) (stop : ℤ) : ℕ := min (if 0 ≤ stop then stop else n + stop).toNat n

theorem numTokens_cut (m : List Char) (stop : ℤ) :
    numTokensFromString tk (tk.decode (takeTo (tk.encode m) stop)) =
      sliceTokens (numTokensFromString tk m) stop := by
  rw [numTokensFromString, takeTo, tk.encode_decode, List.length_take]
  rfl

theorem countTokens_cutTo_last (h : Remains messages kept system last times) (stop : ℤ) :
    countTokens tk (cutTo tk last stop kept) =
      countTokens tk system +
        times * sliceTokens (numTokensFromString tk last.1.content) stop := by
  have hsystem : setContent last.2 (tk.decode (takeTo (tk.encode last.1.content) stop)) system =
      system := setContent_of_ne fun r hr => (h.place_lt r hr).ne
  rw [cutTo, h.kept_eq, setContent, List.map_append, ← setContent, hsystem, List.map_replicate,
    if_pos rfl, countTokens_append, countTokens_replicate, numTokens_cut]

theorem countTokens_cutTo_first {first : MessageRef} {rest : List MessageRef}
    (h : Remains messages kept (first :: rest) last times) (stop : ℤ) :
    countTokens tk (cutTo tk first stop kept) =
      sliceTokens (numTokensFromString tk first.1.content) stop + countTokens tk rest +
        times * numTokensFromString tk last.1.content := by
  obtain ⟨hnotMem, -⟩ := List.nodup_cons.mp h.nodup
  have hrest : ∀ r ∈ rest ++ List.replicate times last, r.2 ≠ first.2 := by
    intro r hr heq
    rcases List.mem_append.mp hr with hr | hr
    · exact hnotMem (heq ▸ List.mem_map_of_mem (f := Prod.snd) hr)
    · rw [List.eq_of_mem_replicate hr] at heq
      exact (h.place_lt first List.mem_cons_self).ne heq.symm
  rw [cutTo, h.kept_eq, List.cons_append, setContent, List.map_cons, if_pos rfl, ← setContent,
    setContent_of_ne hrest]
  change countTokens tk ([_] ++ (rest ++ List.replicate times last)) = _
  rw [countTokens_append, countTokens_append, countTokens_replicate, countTokens_single,
    numTokens_cut, Nat.add_assoc]

variable (tk) in
theorem Remains.countTokens_kept (h : Remains messages kept system last times) :
    countTokens tk kept =
      countTokens tk system + times * numTokensFromString tk last.1.content := by
  rw [h.kept_eq, countTokens_append, countTokens_replicate]

theorem Remains.getLast?_kept (h : Remains messages kept system last times) :
    kept.getLast? = some last := by
  have htimes : times ≠ 0 := by
    rw [h.times_eq]
    split_ifs <;> decide
  rw [h.kept_eq, List.getLast?_append, List.getLast?_replicate, if_neg htimes, Option.some_or]

end Counting

/-! ## The share of the first message -/

section Share

variable {ll ll2 : ℕ}

theorem trueDiv_share (h : 0 < ll + ll2) :
    Binary64.trueDiv ll (ll + ll2) = some (Binary64.nearest (ll / (ll + ll2))) := by
  have hpos : (0 : ℚ) < ll + ll2 := by exact_mod_cast h
  have hle : ((ll : ℚ) / (ll + ll2)) ≤ 1 := by
    rw [div_le_one hpos]
    exact le_add_of_nonneg_right (Nat.cast_nonneg ll2)
  have hone : Binary64.nearest 1 = 1 := by
    exact_mod_cast Binary64.nearest_intCast (m := 1) (by norm_num)
  have hsmall : |Binary64.nearest ((ll : ℚ) / (ll + ll2))| < 2 ^ 1024 := by
    rw [abs_of_nonneg (Binary64.nearest_nonneg (by positivity))]
    calc Binary64.nearest ((ll : ℚ) / (ll + ll2)) ≤ Binary64.nearest 1 :=
          Binary64.nearest_mono hle
      _ = 1 := hone
      _ < 2 ^ 1024 := one_lt_pow₀ (by norm_num) (by norm_num)
  rw [Binary64.trueDiv, if_neg (by omega)]
  push_cast
  exact if_pos hsmall

theorem firstHeavy_eq_none_iff : firstHeavy ll ll2 = none ↔ ll + ll2 = 0 := by
  rw [firstHeavy, Option.map_eq_none_iff]
  constructor
  · intro hnone
    by_contra hne
    rw [trueDiv_share (Nat.pos_of_ne_zero hne)] at hnone
    exact nomatch hnone
  · intro hzero
    rw [Binary64.trueDiv, if_pos (by exact_mod_cast hzero)]

/-- A first message with more than its share has more than four times the tokens of the last. -/
theorem four_mul_lt_of_firstHeavy (h : firstHeavy ll ll2 = some true) : 4 * ll2 < ll := by
  have hpos : 0 < ll + ll2 := by
    by_contra hzero
    rw [firstHeavy_eq_none_iff.mpr (by omega)] at h
    exact nomatch h
  rw [firstHeavy, trueDiv_share hpos, Option.map_some, Option.some_inj, decide_eq_true_iff] at h
  by_contra hle
  refine absurd (Binary64.nearest_mono ?_) (not_le.mpr h)
  have hcast : (ll : ℚ) ≤ 4 * ll2 := by exact_mod_cast not_lt.mp hle
  rw [div_le_iff₀ (by exact_mod_cast hpos)]
  linarith

end Share

/-! ## When the messages fit -/

section FitsIff

variable {τ : Type} {tk : Tokenizer τ} {messages : List Message} {kept system : List MessageRef}
variable {first last : MessageRef} {times : ℕ} {maxLength : ℕ+}

/-- The last message is cut to what its own tokens leave. -/
theorem cut_last_le_iff (h : Remains messages kept system last times)
    (hmax : maxLength ≤ countTokens tk kept) :
    countTokens tk (cutTo tk last
        (maxLength - numTokensFromString tk last.1.content) kept) ≤ maxLength ↔
      (countTokens tk kept = maxLength ∨
        times = 1 ∧ (maxLength < 2 * numTokensFromString tk last.1.content ∧
            numTokensFromString tk last.1.content ≤ maxLength ∧
            countTokens tk kept ≤ 2 * numTokensFromString tk last.1.content ∨
          maxLength < numTokensFromString tk last.1.content ∧
            countTokens tk kept = numTokensFromString tk last.1.content) ∨
        times = 2 ∧ numTokensFromString tk last.1.content ≤ maxLength ∧
          countTokens tk kept + maxLength ≤ 4 * numTokensFromString tk last.1.content) := by
  have hcount := h.countTokens_kept tk
  have htimes := h.times_eq
  rw [countTokens_cutTo_last h]
  generalize countTokens tk system = others at *
  generalize countTokens tk kept = c at *
  generalize numTokensFromString tk last.1.content = ll2 at *
  have hpos := maxLength.pos
  rw [sliceTokens]
  generalize (maxLength : ℕ) = max at *
  split_ifs at htimes
  all_goals
    subst htimes
    split_ifs <;> omega

/-- The first message is cut to what the tokens of the last one leave. -/
theorem cut_first_le_iff {rest : List MessageRef}
    (h : Remains messages kept (first :: rest) last times)
    (hheavy : 4 * numTokensFromString tk last.1.content < numTokensFromString tk first.1.content)
    (hmax : maxLength ≤ countTokens tk kept) :
    countTokens tk (cutTo tk first
        (maxLength - numTokensFromString tk last.1.content) kept) ≤ maxLength ↔
      (countTokens tk kept = maxLength ∨
        countTokens tk kept = numTokensFromString tk first.1.content +
          numTokensFromString tk last.1.content ∧
        numTokensFromString tk last.1.content ≤ maxLength) := by
  have hcount := h.countTokens_kept tk
  have htimes := h.times_eq
  have hfirst : countTokens tk (first :: rest) =
      numTokensFromString tk first.1.content + countTokens tk rest := List.sum_cons
  rw [countTokens_cutTo_first h]
  rw [hfirst] at hcount
  generalize countTokens tk rest = others at *
  generalize countTokens tk kept = c at *
  generalize numTokensFromString tk first.1.content = ll at *
  generalize numTokensFromString tk last.1.content = ll2 at *
  have hpos := maxLength.pos
  rw [sliceTokens]
  generalize (maxLength : ℕ) = max at *
  split_ifs at htimes
  all_goals
    subst htimes
    split_ifs <;> omega

/-- The cut is enough exactly when it takes away what is too much. -/
theorem cut_le_iff (h : Remains messages kept system last times) (hhead : kept.head? = some first)
    (hmax : maxLength ≤ countTokens tk kept) :
    (∃ heavy, firstHeavy (numTokensFromString tk first.1.content)
        (numTokensFromString tk last.1.content) = some heavy ∧
      countTokens tk (cutTo tk (if heavy then first else last)
        (maxLength - numTokensFromString tk last.1.content) kept) ≤ maxLength) ↔
      CutFits (countTokens tk kept) (numTokensFromString tk first.1.content)
        (numTokensFromString tk last.1.content) maxLength
        (1 < messages.length ∧ last.1.role = "system") := by
  have hnone := @firstHeavy_eq_none_iff (numTokensFromString tk first.1.content)
    (numTokensFromString tk last.1.content)
  cases hheavy : firstHeavy (numTokensFromString tk first.1.content)
      (numTokensFromString tk last.1.content) with
  | none =>
      have hzero := hnone.mp hheavy
      simp [CutFits, hheavy, hzero]
  | some heavy =>
      have hpos : 0 < numTokensFromString tk first.1.content +
          numTokensFromString tk last.1.content := by
        by_contra hzero
        rw [hnone.mpr (by omega)] at hheavy
        exact nomatch hheavy
      cases heavy with
      | false =>
          have hcut := cut_last_le_iff h hmax
          have htimes := h.times_eq
          have hone : times = 1 ↔ ¬ (1 < messages.length ∧ last.1.role = "system") := by
            rw [htimes]
            split_ifs with htwice <;> simp [htwice]
          have htwo : times = 2 ↔ 1 < messages.length ∧ last.1.role = "system" := by
            rw [htimes]
            split_ifs with htwice <;> simp [htwice]
          rw [hone, htwo] at hcut
          simp only [CutFits, hheavy, Option.some_inj, exists_eq_left', Bool.false_eq_true,
            if_false, false_and, true_and, false_or, hpos, and_true]
          exact hcut
      | true =>
          have hfour := four_mul_lt_of_firstHeavy hheavy
          obtain ⟨rest, hsystem⟩ : ∃ rest, system = first :: rest := by
            cases system with
            | nil =>
                have hsame : first = last := by
                  rw [h.kept_eq, List.nil_append, List.head?_replicate] at hhead
                  split_ifs at hhead
                  exact (Option.some.inj hhead).symm
                subst hsame
                omega
            | cons first' rest =>
                rw [h.kept_eq, List.cons_append, List.head?_cons] at hhead
                rw [Option.some.inj hhead]
                exact ⟨rest, rfl⟩
          subst hsystem
          have hcut := cut_first_le_iff h hfour hmax
          simp only [CutFits, hheavy, Option.some_inj, exists_eq_left', if_true, reduceCtorEq,
            false_and, true_and, or_false, hpos, and_true]
          exact hcut

/-- The messages fit exactly when they have few enough tokens, or lose enough of them. -/
theorem fitsIn_iff (tk : Tokenizer τ) (messages : List Message) (maxLength : ℕ+) :
    FitsIn tk messages maxLength ↔ FitsWhen tk messages maxLength := by
  rw [fitsIn_iff_count, FitsWhen]
  refine or_congr Iff.rfl (and_congr_right fun hne => ?_)
  by_cases hfew : countTokens tk (systemAndLast messages.zipIdx) < maxLength
  · exact iff_of_true (.inl hfew) (.inl hfew)
  rw [or_iff_right hfew, or_iff_right hfew]
  obtain ⟨system, last, times, hremains⟩ := exists_remains hne
  have hmax := not_lt.mp hfew
  constructor
  · rintro ⟨first, last', heavy, hhead, hlast, hheavy, hcut⟩
    obtain rfl := Option.some.inj (hlast.symm.trans hremains.getLast?_kept)
    exact ⟨first, last', hhead, hlast, (cut_le_iff hremains hhead hmax).mp ⟨heavy, hheavy, hcut⟩⟩
  · rintro ⟨first, last', hhead, hlast, hfits⟩
    obtain rfl := Option.some.inj (hlast.symm.trans hremains.getLast?_kept)
    obtain ⟨heavy, hheavy, hcut⟩ := (cut_le_iff hremains hhead hmax).mpr hfits
    exact ⟨first, last', heavy, hhead, hlast, hheavy, hcut⟩

/-- A tokenizer with one token for each character. -/
def charTokenizer : Tokenizer Char where
  encode := id
  decode := id
  encode_decode _ _ := rfl
  decode_isPrefix m n := List.take_prefix n m

/-- Four tokens of the system and two of the user are not cut to five. -/
theorem not_fitsIn_system_user :
    ¬ FitsIn charTokenizer [⟨"system", "aaaa".toList⟩, ⟨"user", "bb".toList⟩] 5 := by
  rw [fitsIn_iff_count]
  rintro (hall | ⟨-, hfew | ⟨first, last, heavy, hhead, hlast, hheavy, hcut⟩⟩)
  · exact absurd hall (by decide)
  · exact absurd hfew (by decide)
  · obtain rfl := Option.some.inj hhead
    obtain rfl := Option.some.inj hlast
    have hlight : heavy = false := by
      cases heavy with
      | false => rfl
      | true => exact absurd (four_mul_lt_of_firstHeavy hheavy) (by decide)
    subst hlight
    exact absurd hcut (by decide)

end FitsIff

end RagflowMineru.Chat
