import RagflowMineru.Cli.Grammar
import Mathlib

/-!
# What the parser reads

A form is a list of symbols with the way in which its semicolon is looked for.  A
parser reads some forms when it succeeds exactly on the tokens that begin with one
of them.  The parsers are put together from a few parts, and so are their forms.
-/

namespace RagflowMineru.Cli

open Library Patterns RagflowMineru.Cli.Sym

/-- How the semicolon is looked for: at the current token only, or also one token
further, unless the current token is one of some keywords. -/
inductive Tail where
  | strict
  | loose (excluded : List Keyword)
  deriving DecidableEq

structure Form where
  syms : List Sym
  tail : Tail := .loose []
  deriving DecidableEq

namespace Form

/-- The patterns of the tokens that are read, with the semicolon. -/
def readings (f : Form) : List (List Sym) :=
  match f.tail with
  | .strict => [f.syms ++ [semicolon]]
  | .loose excluded => [f.syms ++ [semicolon], f.syms ++ [foreign excluded, semicolon]]

def Reads (f : Form) (ts : List Token) : Prop := ∃ r ∈ f.readings, Begins Read r ts

def behind (w : List Sym) (f : Form) : Form := { f with syms := w ++ f.syms }

@[simp] theorem behind_nil (f : Form) : f.behind [] = f := rfl

theorem readings_behind (w : List Sym) (f : Form) :
    (f.behind w).readings = f.readings.map (w ++ ·) := by
  obtain ⟨syms, tail⟩ := f
  cases tail with
  | strict => simp [readings, behind]
  | loose excluded => simp [readings, behind]

theorem reads_behind_iff {w : List Sym} {f : Form} {ts : List Token} :
    (f.behind w).Reads ts ↔
      ∃ u rest, ts = u ++ rest ∧ List.Forall₂ Read w u ∧ f.Reads rest := by
  rw [Reads, readings_behind]
  constructor
  · rintro ⟨_, hmem, h⟩
    obtain ⟨r, hr, rfl⟩ := List.mem_map.mp hmem
    obtain ⟨u, rest, hts, hu, h⟩ := begins_append_iff.mp h
    exact ⟨u, rest, hts, hu, r, hr, h⟩
  · rintro ⟨u, rest, hts, hu, r, hr, h⟩
    exact ⟨w ++ r, List.mem_map_of_mem hr, begins_append_iff.mpr ⟨u, rest, hts, hu, h⟩⟩

theorem reads_behind_cons {a : Sym} {w : List Sym} {f : Form} {ts : List Token} :
    (f.behind (a :: w)).Reads ts ↔
      ∃ t rest, ts = t :: rest ∧ a.Read t ∧ (f.behind w).Reads rest := by
  rw [reads_behind_iff]
  constructor
  · rintro ⟨u, rest, rfl, hu, h⟩
    obtain ⟨t, u, ha, hw, rfl⟩ := List.forall₂_cons_left_iff.mp hu
    exact ⟨t, u ++ rest, rfl, ha, reads_behind_iff.mpr ⟨u, rest, rfl, hw, h⟩⟩
  · rintro ⟨t, rest, rfl, ha, h⟩
    obtain ⟨u, rest, rfl, hu, h⟩ := reads_behind_iff.mp h
    exact ⟨t :: u, rest, rfl, .cons ha hu, h⟩

/-- A form reads nothing of an empty input. -/
theorem not_reads_nil (f : Form) : ¬ f.Reads [] := by
  rintro ⟨r, hr, h⟩
  obtain ⟨syms, tail⟩ := f
  have hne : r ≠ [] := by
    cases tail with
    | strict =>
        obtain rfl := List.mem_singleton.mp hr
        exact List.append_ne_nil_of_right_ne_nil _ (List.cons_ne_nil _ _)
    | loose excluded =>
        simp only [readings, List.mem_cons, List.not_mem_nil, or_false] at hr
        obtain rfl | rfl := hr
        · exact List.append_ne_nil_of_right_ne_nil _ (List.cons_ne_nil _ _)
        · exact List.append_ne_nil_of_right_ne_nil _ (List.cons_ne_nil _ _)
  cases r with
  | nil => exact hne rfl
  | cons a r => exact h

end Form

namespace Parser

variable {α β : Type}

def Succeeds (p : Parse α) (ts : List Token) : Prop := ∃ r, p ts = .ok r

/-- The parser succeeds on what the forms read. -/
def Reads (p : Parse α) (forms : Form → Prop) : Prop :=
  ∀ ts, Succeeds p ts ↔ ∃ f, forms f ∧ f.Reads ts

/-- The forms are read behind the current token. -/
def ReadsBehind (p : Parse α) (forms : Form → Prop) : Prop :=
  ∀ t ts, Succeeds p (t :: ts) ↔ ∃ f, forms f ∧ f.Reads ts

theorem bind_eq_ok_iff {p : Parse α} {q : α → Parse β} {ts : List Token} {r : β × List Token} :
    (p >>= q) ts = .ok r ↔ ∃ a rest, p ts = .ok (a, rest) ∧ q a rest = .ok r := by
  change (p ts >>= fun ar => q ar.1 ar.2) = .ok r ↔ _
  cases hp : p ts with
  | error e =>
      constructor
      · intro h
        cases h
      · rintro ⟨a, rest, h, -⟩
        cases h
  | ok ar =>
      obtain ⟨a, rest⟩ := ar
      constructor
      · exact fun h => ⟨a, rest, rfl, h⟩
      · rintro ⟨a', rest', h, hq⟩
        cases h
        exact hq

theorem succeeds_bind_iff {p : Parse α} {q : α → Parse β} {ts : List Token} :
    Succeeds (p >>= q) ts ↔ ∃ a rest, p ts = .ok (a, rest) ∧ Succeeds (q a) rest := by
  constructor
  · rintro ⟨r, h⟩
    obtain ⟨a, rest, hp, hq⟩ := bind_eq_ok_iff.mp h
    exact ⟨a, rest, hp, r, hq⟩
  · rintro ⟨a, rest, hp, r, hq⟩
    exact ⟨r, bind_eq_ok_iff.mpr ⟨a, rest, hp, hq⟩⟩

/-- A pure end does not matter. -/
theorem succeeds_bind_pure_iff {p : Parse α} {g : α → β} {ts : List Token} :
    Succeeds (p >>= fun a => pure (g a)) ts ↔ Succeeds p ts := by
  rw [succeeds_bind_iff]
  constructor
  · rintro ⟨a, rest, hp, -⟩
    exact ⟨(a, rest), hp⟩
  · rintro ⟨⟨a, rest⟩, hp⟩
    exact ⟨a, rest, hp, (g a, rest), rfl⟩

theorem readsBehind_nextToken_bind {p : Parse α} {forms : Form → Prop} (hp : Reads p forms) :
    ReadsBehind (do nextToken; p) forms := fun _ ts => hp ts

/-! ## Parts of statements -/

def Step.sym : Step → Sym
  | .keyword k _ => .keyword k
  | .quoted _ => .quoted
  | .identifier _ => .identifier
  | .number _ => .number

/-- A step looks at the current token and stays there. -/
theorem Step.run_ok_iff {step : Step} {ts rest : List Token} :
    (∃ ps, step.run ts = .ok (ps, rest)) ↔ step.sym.Read (curToken ts) ∧ rest = ts := by
  cases step with
  | keyword k msg =>
      by_cases h : (curToken ts).type = .keyword k
      · simp [Step.run, Step.sym, Sym.Read, h, eq_comm]
      · simp [Step.run, Step.sym, Sym.Read, h]
  | quoted param =>
      simp only [Step.run, Step.sym, Sym.Read, bind_eq_ok_iff]
      by_cases h : (curToken ts).type = .quotedString
      · simp [parseQuotedString, h, pure, StateT.pure, Except.pure, eq_comm]
      · simp [parseQuotedString, h]
  | identifier param =>
      simp only [Step.run, Step.sym, Sym.Read, bind_eq_ok_iff]
      by_cases h : (curToken ts).type = .identifier
      · simp [parseIdentifier, h, pure, StateT.pure, Except.pure, eq_comm]
      · simp [parseIdentifier, h]
  | number param =>
      simp only [Step.run, Step.sym, Sym.Read, bind_eq_ok_iff]
      by_cases h : (curToken ts).type = .number
      · cases hn : atoi (curToken ts).value with
        | none => simp [parseNumber, h, hn]
        | some n => simp [parseNumber, h, hn, pure, StateT.pure, Except.pure, eq_comm]
      · simp [parseNumber, h]

/-- The end of the input is read for no step. -/
theorem Step.not_read_nil (step : Step) : ¬ step.sym.Read (curToken []) := by
  cases step with
  | keyword k msg => exact TokenType.noConfusion
  | quoted param => exact TokenType.noConfusion
  | identifier param => exact TokenType.noConfusion
  | number param => exact fun h => TokenType.noConfusion h.1

theorem readSteps_ok_iff {steps : List Step} {ts rest : List Token} :
    (∃ ps, readSteps steps ts = .ok (ps, rest)) ↔
      ∃ w, ts = w ++ rest ∧ List.Forall₂ Read (steps.map Step.sym) w := by
  induction steps generalizing ts with
  | nil =>
      constructor
      · rintro ⟨ps, h⟩
        cases h
        exact ⟨[], rfl, .nil⟩
      · rintro ⟨w, rfl, hw⟩
        rw [List.forall₂_nil_left_iff.mp hw]
        exact ⟨[], rfl⟩
  | cons step steps ih =>
      rw [readSteps, List.map_cons]
      constructor
      · rintro ⟨ps, h⟩
        obtain ⟨ps₁, ts₁, hrun, hnext⟩ := bind_eq_ok_iff.mp h
        obtain ⟨hread, rfl⟩ := Step.run_ok_iff.mp ⟨ps₁, hrun⟩
        obtain ⟨_, ts₂, htail, hrest⟩ := bind_eq_ok_iff.mp hnext
        cases htail
        obtain ⟨ps₂, ts₂, hread₂, hpure⟩ := bind_eq_ok_iff.mp hrest
        cases hpure
        obtain ⟨w, hw, hsteps⟩ := ih.mp ⟨ps₂, hread₂⟩
        cases ts₁ with
        | nil => exact absurd hread step.not_read_nil
        | cons t ts => exact ⟨t :: w, congrArg (t :: ·) hw, .cons hread hsteps⟩
      · rintro ⟨w, rfl, hw⟩
        obtain ⟨t, w, hread, hsteps, rfl⟩ := List.forall₂_cons_left_iff.mp hw
        obtain ⟨ps₁, hrun⟩ := Step.run_ok_iff.mpr
          ⟨(show step.sym.Read (curToken (t :: w ++ rest)) from hread), rfl⟩
        obtain ⟨ps₂, h₂⟩ := ih.mpr ⟨w, rfl, hsteps⟩
        exact ⟨ps₁ ++ ps₂, bind_eq_ok_iff.mpr ⟨ps₁, _, hrun,
          bind_eq_ok_iff.mpr ⟨(), _, rfl, bind_eq_ok_iff.mpr ⟨ps₂, rest, h₂, rfl⟩⟩⟩⟩

/-- What is read behind some steps. -/
theorem reads_readSteps_bind {steps : List Step} {q : List (String × Param) → Parse Command}
    {forms : List Form} (hq : ∀ ps, Reads (q ps) (· ∈ forms)) :
    Reads (do let ps ← readSteps steps; q ps)
      (· ∈ forms.map (Form.behind (steps.map Step.sym))) := by
  intro ts
  rw [succeeds_bind_iff]
  constructor
  · rintro ⟨ps, rest, hps, h⟩
    obtain ⟨w, hts, hw⟩ := readSteps_ok_iff.mp ⟨ps, hps⟩
    obtain ⟨f, hf, h⟩ := (hq ps rest).mp h
    exact ⟨f.behind _, List.mem_map_of_mem hf, Form.reads_behind_iff.mpr ⟨w, rest, hts, hw, h⟩⟩
  · rintro ⟨_, hmem, h⟩
    obtain ⟨f, hf, rfl⟩ := List.mem_map.mp hmem
    obtain ⟨w, rest, hts, hw, h⟩ := Form.reads_behind_iff.mp h
    obtain ⟨ps, hps⟩ := readSteps_ok_iff.mpr ⟨w, hts, hw⟩
    exact ⟨ps, rest, hps, (hq ps rest).mpr ⟨f, hf, h⟩⟩

/-- Without further symbols, a form reads the semicolon or one token in front of it. -/
theorem reads_loose_iff {excluded : List Keyword} {ts : List Token} :
    (Form.mk [] (.loose excluded)).Reads ts ↔
      (curToken ts).type = .semicolon ∨
        (foreign excluded).Read (curToken ts) ∧ (peekToken ts).type = .semicolon := by
  rw [Form.Reads]
  simp only [Form.readings, List.mem_cons, List.not_mem_nil, or_false, List.nil_append,
    exists_eq_or_imp, exists_eq_left]
  refine or_congr ?_ ?_
  · cases ts with
    | nil => exact iff_of_false id TokenType.noConfusion
    | cons t ts => exact and_iff_left trivial
  · cases ts with
    | nil => exact iff_of_false id fun h => TokenType.noConfusion h.2
    | cons t ts =>
        cases ts with
        | nil => exact iff_of_false And.right fun h => TokenType.noConfusion h.2
        | cons t' ts => exact and_congr_right fun _ => and_iff_left trivial

theorem succeeds_expectSemicolon_iff {ts : List Token} :
    Succeeds expectSemicolon ts ↔
      (curToken ts).type = .semicolon ∨ (peekToken ts).type = .semicolon := by
  rw [Succeeds, expectSemicolon]
  by_cases hcur : (curToken ts).type = .semicolon
  · simp [hcur]
  · by_cases hpeek : (peekToken ts).type = .semicolon
    · simp [hcur, hpeek]
    · simp [hcur, hpeek]

theorem reads_expectSemicolon : Reads expectSemicolon (· ∈ [⟨[], .loose []⟩]) := by
  intro ts
  rw [succeeds_expectSemicolon_iff]
  simp only [List.mem_singleton, exists_eq_left, reads_loose_iff, Sym.Read, List.not_mem_nil,
    IsEmpty.forall_iff, implies_true, and_true]
  tauto

theorem reads_finish {type : String} {params : List (String × Param)} {steps : List Step} :
    Reads (finish type params steps) (· ∈ [⟨steps.map Step.sym, .loose []⟩]) := by
  have h := @reads_readSteps_bind steps
    (fun rest => do expectSemicolon; return ⟨type, params ++ rest⟩) [⟨[], .loose []⟩]
    fun ps ts => succeeds_bind_pure_iff.trans (reads_expectSemicolon ts)
  rw [List.map_singleton, Form.behind, List.append_nil] at h
  exact h

theorem readsBehind_statement {type : String} {params : List (String × Param)}
    {steps : List Step} :
    ReadsBehind (statement type params steps) (· ∈ [⟨steps.map Step.sym, .loose []⟩]) :=
  readsBehind_nextToken_bind reads_finish

/-- The first token is not one of a keyword. -/
def avoids (k : Keyword) (f : Form) : Bool :=
  f.readings.all fun r =>
    match r.head? with
    | some (.keyword k') => k' ≠ k
    | some .quoted => true
    | some .identifier => true
    | some .semicolon => true
    | some (.foreign excluded) => k ∈ excluded
    | _ => false

theorem not_keyword_of_avoids {k : Keyword} {f : Form} {ts : List Token} (h : avoids k f)
    (hreads : f.Reads ts) : (curToken ts).type ≠ .keyword k := by
  obtain ⟨r, hr, hbegins⟩ := hreads
  have hhead := List.all_eq_true.mp h r hr
  cases r with
  | nil => cases hhead
  | cons a r =>
      obtain ⟨t, rest, rfl, ha, -⟩ := begins_cons_iff.mp hbegins
      change t.type ≠ _
      simp only [List.head?_cons] at hhead
      cases a with
      | quoted =>
          rw [(show t.type = _ from ha)]
          exact TokenType.noConfusion
      | identifier =>
          rw [(show t.type = _ from ha)]
          exact TokenType.noConfusion
      | semicolon =>
          rw [(show t.type = _ from ha)]
          exact TokenType.noConfusion
      | foreign excluded => exact ha.2 k (of_decide_eq_true hhead)
      | keyword k' =>
          rw [(show t.type = _ from ha)]
          exact fun h => of_decide_eq_true hhead (TokenType.keyword.inj h)
      | extra e => cases hhead
      | number => cases hhead
      | status => cases hhead
      | comma => cases hhead
      | any => cases hhead

/-- Two ways: behind a keyword, and on what does not begin with it. -/
theorem reads_branch_or {k : Keyword} {yes no : Parse Command} {formsYes formsNo : Form → Prop}
    (hyes : ReadsBehind yes formsYes)
    (hno : ∀ ts, (curToken ts).type ≠ .keyword k →
      (Succeeds no ts ↔ ∃ f, formsNo f ∧ f.Reads ts))
    (havoids : ∀ f, formsNo f → avoids k f) :
    Reads (branch k yes no)
      fun f => (∃ g, formsYes g ∧ g.behind [.keyword k] = f) ∨ formsNo f := by
  intro ts
  by_cases hk : (curToken ts).type = .keyword k
  · have hbranch : Succeeds (branch k yes no) ts ↔ Succeeds yes ts := by
      rw [Succeeds, branch, if_pos hk, Succeeds]
    rw [hbranch]
    cases ts with
    | nil => cases hk
    | cons t ts =>
        rw [hyes t ts]
        constructor
        · rintro ⟨f, hf, h⟩
          exact ⟨f.behind _, .inl ⟨f, hf, rfl⟩, Form.reads_behind_cons.mpr ⟨t, ts, rfl, hk, h⟩⟩
        · rintro ⟨f, ⟨g, hg, rfl⟩ | hf, h⟩
          · obtain ⟨t', ts', hts, -, h⟩ := Form.reads_behind_cons.mp h
            obtain ⟨-, rfl⟩ := List.cons.inj hts
            exact ⟨g, hg, h⟩
          · exact absurd hk (not_keyword_of_avoids (havoids f hf) h)
  · have hbranch : Succeeds (branch k yes no) ts ↔ Succeeds no ts := by
      rw [Succeeds, branch, if_neg hk, Succeeds]
    rw [hbranch, hno ts hk]
    constructor
    · rintro ⟨f, hf, h⟩
      exact ⟨f, .inr hf, h⟩
    · rintro ⟨f, ⟨g, -, rfl⟩ | hf, h⟩
      · obtain ⟨t, rest, rfl, ht, -⟩ := Form.reads_behind_cons.mp h
        exact absurd ht hk
      · exact ⟨f, hf, h⟩

theorem reads_branch {k : Keyword} {yes no : Parse Command} {formsYes formsNo : List Form}
    (hyes : ReadsBehind yes (· ∈ formsYes))
    (hno : ∀ ts, (curToken ts).type ≠ .keyword k →
      (Succeeds no ts ↔ ∃ f ∈ formsNo, f.Reads ts))
    (havoids : ∀ f ∈ formsNo, avoids k f) :
    Reads (branch k yes no) (· ∈ formsYes.map (Form.behind [.keyword k]) ++ formsNo) := by
  intro ts
  rw [reads_branch_or hyes hno havoids ts]
  simp only [List.mem_append, List.mem_map]

/-- Only the case of the current keyword matters. -/
theorem succeeds_switch_iff {cases : List (Keyword × Parse Command)} {msg : String}
    (hnodup : (cases.map Prod.fst).Nodup) {ts : List Token} :
    Succeeds (switch cases msg) ts ↔
      ∃ c ∈ cases, (curToken ts).type = .keyword c.1 ∧ Succeeds c.2 ts := by
  rw [Succeeds, switch]
  cases hfind : cases.find? fun c => (curToken ts).type = .keyword c.1 with
  | none =>
      refine iff_of_false ?_ ?_
      · rintro ⟨r, h⟩
        cases h
      · rintro ⟨c, hc, hk, -⟩
        exact List.find?_eq_none.mp hfind c hc (decide_eq_true hk)
  | some c =>
      have hc := List.mem_of_find?_eq_some hfind
      have hk : (curToken ts).type = .keyword c.1 := by
        have hsome := List.find?_some hfind
        exact of_decide_eq_true hsome
      constructor
      · exact fun h => ⟨c, hc, hk, h⟩
      · rintro ⟨c', hc', hk', h⟩
        have hkey : c.1 = c'.1 := TokenType.keyword.inj (hk.symm.trans hk')
        rwa [List.inj_on_of_nodup_map hnodup hc hc' hkey]

/-- The forms of one case stand behind its keyword. -/
theorem succeeds_case_iff {k : Keyword} {p : Parse Command} {forms : Form → Prop}
    (hp : ReadsBehind p forms) {ts : List Token} :
    (curToken ts).type = .keyword k ∧ Succeeds p ts ↔
      ∃ f, forms f ∧ (f.behind [.keyword k]).Reads ts := by
  constructor
  · rintro ⟨hk, hsucceeds⟩
    cases ts with
    | nil => cases hk
    | cons t ts =>
        obtain ⟨f, hf, h⟩ := (hp t ts).mp hsucceeds
        exact ⟨f, hf, Form.reads_behind_cons.mpr ⟨t, ts, rfl, hk, h⟩⟩
  · rintro ⟨f, hf, h⟩
    obtain ⟨t, rest, rfl, hk, h⟩ := Form.reads_behind_cons.mp h
    exact ⟨hk, (hp t rest).mpr ⟨f, hf, h⟩⟩

theorem reads_switch {cases : List (Keyword × Parse Command)} {msg : String}
    {forms : List (List Form)} {all : List Form}
    (hcases : List.Forall₂ (fun c l => ReadsBehind c.2 (· ∈ l)) cases forms)
    (hnodup : (cases.map Prod.fst).Nodup)
    (hall : (cases.zipWith (fun c l => l.map (Form.behind [.keyword c.1])) forms).flatten = all) :
    Reads (switch cases msg) (· ∈ all) := by
  intro ts
  rw [succeeds_switch_iff hnodup]
  clear hnodup
  subst hall
  induction hcases with
  | nil => simp
  | @cons c l cases forms hc _ ih =>
      rw [List.exists_mem_cons_iff, ih, List.zipWith_cons_cons, List.flatten_cons,
        succeeds_case_iff hc]
      simp only [List.mem_append, or_and_right, exists_or]
      refine or_congr ?_ Iff.rfl
      simp only [List.mem_map, exists_exists_and_eq_and]

end Parser

end RagflowMineru.Cli
