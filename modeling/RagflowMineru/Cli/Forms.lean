import RagflowMineru.Cli.Reading

/-!
# The forms of the commands

The forms of every command are listed as its parser has them, each behind the keyword
of the command.  Only the lists of names of the permissions make them infinitely many.
-/

namespace RagflowMineru.Cli

open Library Patterns RagflowMineru.Cli.Sym

def Form.loose (syms : List Sym) : Form := { syms }

namespace Parser

/-! ## The parts of the commands -/

theorem reads_finish_excluding {k : Keyword} {type : String} {params : List (String × Param)}
    {ts : List Token} (hk : (curToken ts).type ≠ .keyword k) :
    Succeeds (finish type params []) ts ↔ ∃ f ∈ [Form.mk [] (.loose [k])], f.Reads ts := by
  rw [reads_finish ts]
  simp only [List.map_nil, List.mem_singleton, exists_eq_left, reads_loose_iff, Sym.Read,
    List.not_mem_nil, IsEmpty.forall_iff, implies_true, and_true, forall_eq]
  tauto

/-- Nothing is read by a parser that fails. -/
theorem succeeds_throw_iff {msg : String} {ts : List Token} :
    Succeeds (throw msg : Parse Command) ts ↔ ∃ f ∈ ([] : List Form), f.Reads ts := by
  refine iff_of_false ?_ ?_
  · rintro ⟨r, h⟩
    cases h
  · rintro ⟨f, hf, -⟩
    exact List.not_mem_nil hf

/-- A statement that may end at once. -/
theorem reads_orSemicolon {c : Command} {p : Parse Command} {forms : List Form}
    (hp : ∀ ts, (curToken ts).type ≠ .semicolon → (Succeeds p ts ↔ ∃ f ∈ forms, f.Reads ts))
    (hend : ∀ ts, (curToken ts).type = .semicolon → ∃ f ∈ forms, f.Reads ts) :
    Reads (do
      if (← cur).type = .semicolon then return c
      p) (· ∈ forms) := by
  intro ts
  by_cases h : (curToken ts).type = .semicolon
  · refine iff_of_true ⟨(c, ts), ?_⟩ (hend ts h)
    refine bind_eq_ok_iff.mpr ⟨curToken ts, ts, rfl, ?_⟩
    rw [if_pos h]
    rfl
  · rw [← hp ts h, succeeds_bind_iff]
    constructor
    · rintro ⟨t, rest, hcur, hp⟩
      cases hcur
      rwa [if_neg h] at hp
    · intro hp
      refine ⟨curToken ts, ts, rfl, ?_⟩
      rwa [if_neg h]

theorem readsBehind_parseListDatasets :
    ReadsBehind parseListDatasets
      (· ∈ [.loose (keywords [.of] ++ [quoted]), ⟨[], .loose [.of]⟩]) := by
  refine readsBehind_nextToken_bind (reads_orSemicolon (fun ts _ =>
    reads_branch readsBehind_statement (fun _ hk => reads_finish_excluding hk) (by decide) ts) ?_)
  intro ts hts
  exact ⟨⟨[], .loose [.of]⟩, by decide, reads_loose_iff.mpr (.inl hts)⟩

theorem readsBehind_parseListAgents :
    ReadsBehind parseListAgents
      (· ∈ [.loose (keywords [.of] ++ [quoted]), ⟨[], .strict⟩]) := by
  have hstrict : ∀ ts : List Token, (Form.mk [] .strict).Reads ts ↔
      (curToken ts).type = .semicolon := by
    intro ts
    rw [Form.Reads, Form.readings]
    simp only [List.mem_singleton, exists_eq_left, List.nil_append]
    cases ts with
    | nil => exact iff_of_false id TokenType.noConfusion
    | cons t ts => exact and_iff_left trivial
  refine readsBehind_nextToken_bind (reads_orSemicolon (fun ts hts => ?_) ?_)
  · refine (reads_branch readsBehind_statement (fun _ _ => succeeds_throw_iff)
      (by decide) ts).trans ?_
    constructor
    · rintro ⟨f, hf, h⟩
      exact ⟨f, List.mem_append_left _ hf, h⟩
    · rintro ⟨f, hf, h⟩
      rw [List.mem_cons, List.mem_singleton] at hf
      obtain rfl | rfl := hf
      · exact ⟨_, List.mem_singleton_self _, h⟩
      · exact absurd ((hstrict ts).mp h) hts
  · intro ts hts
    exact ⟨⟨[], .strict⟩, by decide, (hstrict ts).mpr hts⟩

def listForms : List Form :=
  [.loose (keywords [.services]),
    .loose (keywords [.users]),
    .loose (keywords [.roles]),
    .loose (keywords [.vars]),
    .loose (keywords [.configs]),
    .loose (keywords [.envs]),
    .loose (keywords [.datasets, .of] ++ [quoted]),
    ⟨keywords [.datasets], .loose [.of]⟩,
    .loose (keywords [.agents, .of] ++ [quoted]),
    ⟨keywords [.agents], .strict⟩,
    .loose (keywords [.keys, .of] ++ [quoted]),
    .loose (keywords [.model, .providers]),
    .loose (keywords [.default, .models]),
    .loose (keywords [.chats]),
    .loose (keywords [.files, .of, .dataset] ++ [quoted])]

theorem readsBehind_parseListCommand : ReadsBehind parseListCommand (· ∈ listForms) :=
  readsBehind_nextToken_bind (reads_switch
    (.cons readsBehind_statement (.cons readsBehind_statement (.cons readsBehind_statement
      (.cons readsBehind_statement (.cons readsBehind_statement (.cons readsBehind_statement
      (.cons readsBehind_parseListDatasets (.cons readsBehind_parseListAgents
      (.cons readsBehind_statement (.cons readsBehind_statement (.cons readsBehind_statement
      (.cons readsBehind_statement (.cons readsBehind_statement .nil)))))))))))))
    (by decide) rfl)

theorem readsBehind_parseShowUser :
    ReadsBehind parseShowUser
      (· ∈ [.loose (keywords [.permission] ++ [quoted]), .loose [quoted]]) :=
  readsBehind_nextToken_bind (reads_branch readsBehind_statement
    (fun ts _ => reads_finish ts) (by decide))

def showForms : List Form :=
  [.loose (keywords [.version]),
    .loose (keywords [.current, .user]),
    .loose (keywords [.user, .permission] ++ [quoted]),
    .loose (keywords [.user] ++ [quoted]),
    .loose (keywords [.role] ++ [identifier]),
    .loose (keywords [.var] ++ [identifier]),
    .loose (keywords [.service] ++ [number])]

theorem readsBehind_parseShowCommand : ReadsBehind parseShowCommand (· ∈ showForms) :=
  readsBehind_nextToken_bind (reads_switch
    (.cons readsBehind_statement (.cons readsBehind_statement
      (.cons readsBehind_parseShowUser (.cons readsBehind_statement
      (.cons readsBehind_statement (.cons readsBehind_statement .nil))))))
    (by decide) rfl)

theorem readsBehind_parseCreateRole :
    ReadsBehind parseCreateRole
      (· ∈ [.loose (identifier :: keywords [.description] ++ [quoted]),
        ⟨[identifier], .loose [.description]⟩]) :=
  readsBehind_nextToken_bind (reads_readSteps_bind fun _ =>
    reads_branch readsBehind_statement (fun _ hk => reads_finish_excluding hk) (by decide))

theorem readsBehind_parseCreateDataset :
    ReadsBehind parseCreateDataset
      (· ∈ [.loose (quoted :: keywords [.with, .embedding] ++ [quoted] ++
          keywords [.parser] ++ [quoted]),
        .loose (quoted :: keywords [.with, .embedding] ++ [quoted] ++
          keywords [.pipeline] ++ [quoted])]) :=
  readsBehind_nextToken_bind (reads_readSteps_bind fun _ =>
    reads_branch readsBehind_statement (fun ts _ =>
      reads_branch readsBehind_statement (fun _ _ => succeeds_throw_iff) (by decide) ts)
      (by decide))

def createForms : List Form :=
  [.loose (keywords [.user] ++ [quoted, quoted]),
    .loose (keywords [.role] ++ [identifier] ++ keywords [.description] ++ [quoted]),
    ⟨keywords [.role] ++ [identifier], .loose [.description]⟩,
    .loose (keywords [.model, .provider] ++ [quoted, quoted]),
    .loose (keywords [.dataset] ++ [quoted] ++ keywords [.with, .embedding] ++ [quoted] ++
      keywords [.parser] ++ [quoted]),
    .loose (keywords [.dataset] ++ [quoted] ++ keywords [.with, .embedding] ++ [quoted] ++
      keywords [.pipeline] ++ [quoted]),
    .loose (keywords [.chat] ++ [quoted])]

theorem readsBehind_parseCreateCommand : ReadsBehind parseCreateCommand (· ∈ createForms) :=
  readsBehind_nextToken_bind (reads_switch
    (.cons readsBehind_statement (.cons readsBehind_parseCreateRole
      (.cons readsBehind_statement (.cons readsBehind_parseCreateDataset
      (.cons readsBehind_statement .nil)))))
    (by decide) rfl)

def dropForms : List Form :=
  [.loose (keywords [.user] ++ [quoted]),
    .loose (keywords [.role] ++ [identifier]),
    .loose (keywords [.model, .provider] ++ [quoted]),
    .loose (keywords [.dataset] ++ [quoted]),
    .loose (keywords [.chat] ++ [quoted]),
    .loose (keywords [.key] ++ [quoted] ++ keywords [.of] ++ [quoted])]

theorem readsBehind_parseDropCommand : ReadsBehind parseDropCommand (· ∈ dropForms) :=
  readsBehind_nextToken_bind (reads_switch
    (.cons readsBehind_statement (.cons readsBehind_statement (.cons readsBehind_statement
      (.cons readsBehind_statement (.cons readsBehind_statement
      (.cons readsBehind_statement .nil))))))
    (by decide) rfl)

/-- The status is a value, whatever the token is. -/
theorem reads_activateStatus {params : List (String × Param)} :
    Reads (do
      let status := (← cur).value
      if status ≠ "on".toList ∧ status ≠ "off".toList then
        throw ("expected 'on' or 'off', got " ++ String.ofList status)
      statement "activate_user" (params ++ [("activate_status", .str status)]) [])
      (· ∈ [.loose [status]]) := by
  intro ts
  have hform : (∃ f ∈ [Form.loose [status]], f.Reads ts) ↔
      ∃ t rest, ts = t :: rest ∧ status.Read t ∧ (Form.mk [] (.loose [])).Reads rest := by
    simp only [List.mem_singleton, exists_eq_left]
    exact Form.reads_behind_cons (f := ⟨[], .loose []⟩) (w := [])
  rw [hform, succeeds_bind_iff]
  by_cases hstatus : (curToken ts).value ≠ "on".toList ∧ (curToken ts).value ≠ "off".toList
  · constructor
    · rintro ⟨t, rest, hcur, h⟩
      cases hcur
      rw [if_pos hstatus] at h
      obtain ⟨r, h⟩ := h
      cases h
    · rintro ⟨t, rest, rfl, ht, -⟩
      exact absurd ht (not_or.mpr hstatus)
  · have hread : status.Read (curToken ts) := by
      rw [not_and_or, not_not, not_not] at hstatus
      exact hstatus
    cases ts with
    | nil => exact absurd hread (by decide)
    | cons t ts =>
        constructor
        · rintro ⟨_, _, hcur, h⟩
          cases hcur
          rw [if_neg hstatus] at h
          obtain ⟨f, hf, h⟩ := (readsBehind_statement t ts).mp h
          obtain rfl := List.mem_singleton.mp hf
          exact ⟨t, ts, rfl, hread, h⟩
        · rintro ⟨_, _, hts, -, h⟩
          obtain ⟨rfl, rfl⟩ := List.cons.inj hts
          refine ⟨curToken (t :: ts), t :: ts, rfl, ?_⟩
          rw [if_neg hstatus]
          exact (readsBehind_statement t ts).mpr ⟨_, List.mem_singleton_self _, h⟩

theorem readsBehind_parseActivateUser :
    ReadsBehind parseActivateUser (· ∈ [.loose [quoted, status]]) :=
  readsBehind_nextToken_bind (reads_readSteps_bind fun _ => reads_activateStatus)

theorem readsBehind_parseAlterUser :
    ReadsBehind parseAlterUser
      (· ∈ [.loose (keywords [.active] ++ [quoted, status]),
        .loose (keywords [.password] ++ [quoted, quoted]),
        .loose (quoted :: keywords [.set, .role] ++ [identifier])]) :=
  readsBehind_nextToken_bind (reads_branch readsBehind_parseActivateUser
    (fun ts _ => reads_branch readsBehind_statement (fun ts _ => reads_finish ts) (by decide) ts)
    (by decide))

def alterForms : List Form :=
  [.loose (keywords [.user, .active] ++ [quoted, status]),
    .loose (keywords [.user, .password] ++ [quoted, quoted]),
    .loose (keywords [.user] ++ [quoted] ++ keywords [.set, .role] ++ [identifier]),
    .loose (keywords [.role] ++ [identifier] ++ keywords [.set, .description] ++ [quoted])]

theorem readsBehind_parseAlterCommand : ReadsBehind parseAlterCommand (· ∈ alterForms) :=
  readsBehind_nextToken_bind (reads_switch
    (.cons readsBehind_parseAlterUser (.cons readsBehind_statement .nil)) (by decide) rfl)

def setForms : List Form :=
  .loose (keywords [.var] ++ [identifier, identifier]) ::
    modelKinds.map fun k => .loose (keywords [.default, k] ++ [quoted])

theorem readsBehind_parseSetDefault :
    ReadsBehind parseSetDefault
      (· ∈ modelKinds.map fun k => .loose (keywords [k] ++ [quoted])) :=
  readsBehind_nextToken_bind (reads_switch
    (.cons readsBehind_statement (.cons readsBehind_statement (.cons readsBehind_statement
      (.cons readsBehind_statement (.cons readsBehind_statement
      (.cons readsBehind_statement .nil))))))
    (by decide) rfl)

theorem readsBehind_parseSetCommand : ReadsBehind parseSetCommand (· ∈ setForms) :=
  readsBehind_nextToken_bind (reads_switch
    (.cons readsBehind_statement (.cons readsBehind_parseSetDefault .nil)) (by decide) rfl)

def resetForms : List Form := modelKinds.map fun k => .loose (keywords [.default, k])

theorem reads_resetDefault :
    Reads (switch (modelTypes.map fun (k, modelType) =>
      (k, statement "reset_default_model" [("model_type", .str modelType.toList)] []))
      "unknown model type: ") (· ∈ modelKinds.map fun k => Form.loose (keywords [k])) :=
  reads_switch
    (.cons readsBehind_statement (.cons readsBehind_statement (.cons readsBehind_statement
      (.cons readsBehind_statement (.cons readsBehind_statement
      (.cons readsBehind_statement .nil))))))
    (by decide) rfl

theorem readsBehind_parseResetCommand : ReadsBehind parseResetCommand (· ∈ resetForms) :=
  readsBehind_nextToken_bind (reads_readSteps_bind fun _ => reads_resetDefault)

theorem readsBehind_parseParseDataset :
    ReadsBehind parseParseDataset
      (· ∈ [.loose (quoted :: keywords [.sync]), .loose (quoted :: keywords [.async])]) :=
  readsBehind_nextToken_bind (reads_readSteps_bind fun _ =>
    reads_branch readsBehind_statement (fun ts _ =>
      reads_branch readsBehind_statement (fun _ _ => succeeds_throw_iff) (by decide) ts)
      (by decide))

def parseForms : List Form :=
  [.loose (keywords [.dataset] ++ [quoted] ++ keywords [.sync]),
    .loose (keywords [.dataset] ++ [quoted] ++ keywords [.async]),
    .loose (quoted :: keywords [.of, .dataset] ++ [quoted])]

theorem readsBehind_parseParseCommand : ReadsBehind parseParseCommand (· ∈ parseForms) :=
  readsBehind_nextToken_bind (reads_branch readsBehind_parseParseDataset
    (fun ts _ => reads_finish ts) (by decide))

def importForms : List Form := [.loose (quoted :: keywords [.into, .dataset] ++ [quoted])]

def searchForms : List Form := [.loose (quoted :: keywords [.on, .datasets] ++ [quoted])]

/-! ## Statements that are measured -/

def userForms : List Form :=
  [.loose (keywords [.ping])] ++ showForms.map (.behind (keywords [.show])) ++
    createForms.map (.behind (keywords [.create])) ++
    dropForms.map (.behind (keywords [.drop])) ++ setForms.map (.behind (keywords [.set])) ++
    resetForms.map (.behind (keywords [.reset])) ++ listForms.map (.behind (keywords [.list])) ++
    parseForms.map (.behind (keywords [.parse])) ++
    importForms.map (.behind (keywords [.import])) ++
    searchForms.map (.behind (keywords [.search]))

theorem reads_parseUserStatement : Reads parseUserStatement (· ∈ userForms) :=
  reads_switch
    (.cons readsBehind_statement (.cons readsBehind_parseShowCommand
      (.cons readsBehind_parseCreateCommand (.cons readsBehind_parseDropCommand
      (.cons readsBehind_parseSetCommand (.cons readsBehind_parseResetCommand
      (.cons readsBehind_parseListCommand (.cons readsBehind_parseParseCommand
      (.cons readsBehind_statement (.cons readsBehind_statement .nil))))))))))
    (by decide) rfl

def benchmarkForms : List Form := userForms.map (.behind [number, number])

theorem readsBehind_parseBenchmarkCommand :
    ReadsBehind parseBenchmarkCommand (· ∈ benchmarkForms) :=
  readsBehind_nextToken_bind (reads_readSteps_bind fun _ ts =>
    succeeds_bind_pure_iff.trans (reads_parseUserStatement ts))

/-! ## Registration and permissions -/

theorem expectPeek_ok_iff {tokenType : TokenType} {ts rest : List Token} :
    expectPeek tokenType ts = .ok ((), rest) ↔
      (peekToken ts).type = tokenType ∧ rest = ts.tail := by
  rw [expectPeek]
  by_cases h : (peekToken ts).type = tokenType
  · simp [h, eq_comm]
  · simp [h]

/-- Any token may stand between `REGISTER` and `USER`. -/
def registerForms : List Form :=
  [.loose (any :: keywords [.user] ++ [quoted] ++ keywords [.as] ++ [quoted] ++
    keywords [.password] ++ [quoted])]

theorem readsBehind_parseRegisterCommand :
    ReadsBehind parseRegisterCommand (· ∈ registerForms) := by
  refine readsBehind_nextToken_bind fun ts => ?_
  have hform : (∃ f ∈ registerForms, f.Reads ts) ↔
      ∃ t rest, ts = t :: rest ∧ any.Read t ∧ ∃ t' rest', rest = t' :: rest' ∧
        (Sym.keyword .user).Read t' ∧
          (Form.loose ([quoted] ++ keywords [.as] ++ [quoted] ++ keywords [.password] ++
            [quoted])).Reads rest' := by
    simp only [registerForms, List.mem_singleton, exists_eq_left]
    have hany := @Form.reads_behind_cons any [.keyword .user]
      (.loose ([quoted] ++ keywords [.as] ++ [quoted] ++ keywords [.password] ++ [quoted])) ts
    simp only [Form.reads_behind_cons (a := .keyword .user), Form.behind_nil] at hany
    exact hany
  rw [hform, succeeds_bind_iff]
  constructor
  · rintro ⟨_, rest, hok, h⟩
    obtain ⟨hpeek, rfl⟩ := expectPeek_ok_iff.mp hok
    match ts with
    | [] => cases hpeek
    | [_] => cases hpeek
    | t :: t' :: ts =>
        obtain ⟨f, hf, h⟩ := (readsBehind_statement t' ts).mp h
        obtain rfl := List.mem_singleton.mp hf
        exact ⟨t, t' :: ts, rfl, trivial, t', ts, rfl, hpeek, h⟩
  · rintro ⟨t, _, rfl, -, t', ts, rfl, hpeek, h⟩
    exact ⟨(), t' :: ts, expectPeek_ok_iff.mpr ⟨hpeek, rfl⟩,
      (readsBehind_statement t' ts).mpr ⟨_, List.mem_singleton_self _, h⟩⟩

/-- The loop reads names behind commas, up to a token that is no comma. -/
theorem identifierLoop_ok_iff {list : List (List Char)} {ts rest : List Token} :
    (∃ l, identifierLoop list ts = .ok (l, rest)) ↔
      ∃ n w, ts = w ++ rest ∧ List.Forall₂ Read (behindCommas identifier n) w ∧
        (curToken rest).type ≠ .comma := by
  constructor
  · rintro ⟨l, h⟩
    fun_induction identifierLoop list ts with
    | case1 list =>
        cases h
        exact ⟨0, [], rfl, .nil, TokenType.noConfusion⟩
    | case2 list t hcomma => cases h
    | case3 list t hcomma =>
        cases h
        exact ⟨0, [], rfl, .nil, hcomma⟩
    | case4 list t t' ts hcomma hident => cases h
    | case5 list t t' ts hcomma hident ih =>
        obtain ⟨n, w, rfl, hw, hrest⟩ := ih h
        exact ⟨n + 1, t :: t' :: w, rfl, .cons hcomma (.cons (not_not.mp hident) hw), hrest⟩
    | case6 list t t' ts hcomma =>
        cases h
        exact ⟨0, [], rfl, .nil, hcomma⟩
  · rintro ⟨n, w, rfl, hw, hrest⟩
    induction n generalizing list w with
    | zero =>
        obtain rfl := List.forall₂_nil_left_iff.mp hw
        refine ⟨list, ?_⟩
        match rest with
        | [] => rfl
        | [t] => exact if_neg hrest
        | t :: t' :: ts => exact if_neg hrest
    | succ n ih =>
        obtain ⟨t, _, hcomma, hname, rfl⟩ := List.forall₂_cons_left_iff.mp hw
        obtain ⟨t', w, hident, hmore, rfl⟩ := List.forall₂_cons_left_iff.mp hname
        obtain ⟨l, h⟩ := @ih (list ++ [t'.value]) w hmore
        refine ⟨l, ?_⟩
        rw [List.cons_append, List.cons_append, identifierLoop]
        exact (if_pos hcomma).trans ((if_neg (not_not.mpr hident)).trans h)

theorem parseIdentifierList_ok_iff {ts rest : List Token} :
    (∃ l, parseIdentifierList ts = .ok (l, rest)) ↔
      ∃ n w, ts = w ++ rest ∧ List.Forall₂ Read (separated identifier n) w ∧
        (curToken rest).type ≠ .comma := by
  have hident : ∀ ident ts', parseIdentifier ts = .ok (ident, ts') ↔
      (curToken ts).type = .identifier ∧ ident = (curToken ts).value ∧ ts' = ts := by
    intro ident ts'
    rw [parseIdentifier]
    by_cases h : (curToken ts).type = .identifier
    · simp [h, eq_comm]
    · simp [h]
  constructor
  · rintro ⟨l, h⟩
    obtain ⟨ident, ts₁, hparse, hnext⟩ := bind_eq_ok_iff.mp h
    obtain ⟨htype, rfl, rfl⟩ := (hident _ _).mp hparse
    obtain ⟨_, ts₂, htail, hloop⟩ := bind_eq_ok_iff.mp hnext
    cases htail
    obtain ⟨n, w, hts, hw, hrest⟩ := identifierLoop_ok_iff.mp ⟨l, hloop⟩
    cases ts₁ with
    | nil => cases htype
    | cons t ts => exact ⟨n, t :: w, congrArg (t :: ·) hts, .cons htype hw, hrest⟩
  · rintro ⟨n, w, rfl, hw, hrest⟩
    obtain ⟨t, w, htype, hmore, rfl⟩ := List.forall₂_cons_left_iff.mp hw
    obtain ⟨l, h⟩ := (@identifierLoop_ok_iff [t.value] _ _).mpr ⟨n, w, rfl, hmore, hrest⟩
    exact ⟨l, bind_eq_ok_iff.mpr ⟨t.value, _, (hident _ _).mpr ⟨htype, rfl, rfl⟩,
      bind_eq_ok_iff.mpr ⟨(), _, rfl, h⟩⟩⟩

theorem reads_parsePermission {type : String} {direction : Keyword} {msg : String} :
    Reads (parsePermission type direction msg)
      fun f => ∃ n, f = .loose (permission direction n) := by
  intro ts
  rw [parsePermission, succeeds_bind_iff]
  constructor
  · rintro ⟨l, rest, hl, h⟩
    obtain ⟨n, w, hts, hw, -⟩ := parseIdentifierList_ok_iff.mp ⟨l, hl⟩
    obtain ⟨f, hf, h⟩ := (reads_finish rest).mp h
    obtain rfl := List.mem_singleton.mp hf
    exact ⟨_, ⟨n, rfl⟩, Form.reads_behind_iff.mpr ⟨w, rest, hts, hw, h⟩⟩
  · rintro ⟨_, ⟨n, rfl⟩, h⟩
    obtain ⟨w, rest, hts, hw, h⟩ :=
      (Form.reads_behind_iff (f := .loose (onResource direction))).mp h
    have hon : (curToken rest).type = .keyword .on := by
      obtain ⟨t, rest, rfl, ht, -⟩ := (Form.reads_behind_cons (w := [])
        (f := .loose (onResource direction).tail)).mp h
      exact ht
    obtain ⟨l, hl⟩ := parseIdentifierList_ok_iff.mpr ⟨n, w, hts, hw, by
      rw [hon]
      exact TokenType.noConfusion⟩
    exact ⟨l, rest, hl, (reads_finish rest).mpr ⟨_, List.mem_singleton_self _, h⟩⟩

/-- The forms with lists of names. -/
inductive Family : Keyword → Form → Prop
  | grant (n : ℕ) : Family .grant (.loose (permission .to n))
  | revoke (n : ℕ) : Family .revoke (.loose (permission .from n))

theorem family_grant_iff {f : Form} : Family .grant f ↔ ∃ n, f = .loose (permission .to n) := by
  constructor
  · intro hf
    cases hf with
    | grant n => exact ⟨n, rfl⟩
  · rintro ⟨n, rfl⟩
    exact .grant n

theorem family_revoke_iff {f : Form} :
    Family .revoke f ↔ ∃ n, f = .loose (permission .from n) := by
  constructor
  · intro hf
    cases hf with
    | revoke n => exact ⟨n, rfl⟩
  · rintro ⟨n, rfl⟩
    exact .revoke n

def adminForms : List Form := [.loose (keywords [.admin] ++ [quoted])]

/-- Permissions are given by name unless the first word is `ADMIN`. -/
theorem reads_permissionBranch {yes : Parse Command} {type : String} {direction : Keyword}
    {msg : String} (hyes : ReadsBehind yes (· ∈ [Form.loose [quoted]])) :
    Reads (branch .admin yes (parsePermission type direction msg))
      fun f => f ∈ adminForms ∨ ∃ n, f = .loose (permission direction n) := by
  intro ts
  rw [reads_branch_or hyes (fun ts _ => reads_parsePermission ts) ?_ ts]
  · simp only [List.mem_singleton, exists_eq_left, adminForms, eq_comm]
    rfl
  · rintro f ⟨n, rfl⟩
    rfl

theorem readsBehind_parseGrantCommand :
    ReadsBehind parseGrantCommand fun f => f ∈ adminForms ∨ Family .grant f := by
  simp only [family_grant_iff]
  exact readsBehind_nextToken_bind (reads_permissionBranch readsBehind_statement)

theorem readsBehind_parseRevokeCommand :
    ReadsBehind parseRevokeCommand fun f => f ∈ adminForms ∨ Family .revoke f := by
  simp only [family_revoke_iff]
  exact readsBehind_nextToken_bind (reads_permissionBranch readsBehind_statement)

/-! ## All commands -/

/-- The forms of each command, behind its keyword. -/
def commandForms : List (Keyword × List Form) :=
  [(.login, [.loose (keywords [.user] ++ [quoted])]),
    (.ping, [.loose []]),
    (.list, listForms),
    (.show, showForms),
    (.create, createForms),
    (.drop, dropForms),
    (.alter, alterForms),
    (.grant, adminForms),
    (.revoke, adminForms),
    (.set, setForms),
    (.reset, resetForms),
    (.generate, [.loose (keywords [.key, .for, .user] ++ [quoted])]),
    (.import, importForms),
    (.search, searchForms),
    (.parse, parseForms),
    (.benchmark, benchmarkForms),
    (.register, registerForms),
    (.startup, [.loose (keywords [.service] ++ [number])]),
    (.shutdown, [.loose (keywords [.service] ++ [number])]),
    (.restart, [.loose (keywords [.service] ++ [number])])]

/-- The forms with a bounded number of symbols. -/
def fixedForms : List Form :=
  commandForms.flatMap fun c => c.2.map (.behind [.keyword c.1])

/-- The forms of the statements that the parser reads. -/
def Parsed (f : Form) : Prop :=
  f ∈ fixedForms ∨ (∃ n, f = .loose (grantPermission n)) ∨ ∃ n, f = .loose (revokePermission n)

theorem readsBehind_or_family {k : Keyword} {p : Parse Command} {forms : List Form}
    (hp : ReadsBehind p (· ∈ forms)) (hgrant : k ≠ .grant) (hrevoke : k ≠ .revoke) :
    ReadsBehind p fun f => f ∈ forms ∨ Family k f := by
  have hnone : ∀ f, ¬ Family k f := by
    intro f hf
    cases hf with
    | grant n => exact hgrant rfl
    | revoke n => exact hrevoke rfl
  simp only [hnone, or_false]
  exact hp

theorem commandForms_read :
    List.Forall₂ (fun c l => c.1 = l.1 ∧ ReadsBehind c.2 fun f => f ∈ l.2 ∨ Family l.1 f)
      sqlCommands commandForms := by
  have hfixed : ∀ {k : Keyword} {p : Parse Command} {forms : List Form},
      ReadsBehind p (· ∈ forms) → k ≠ .grant ∧ k ≠ .revoke →
        k = k ∧ ReadsBehind p fun f => f ∈ forms ∨ Family k f :=
    fun hp hk => ⟨rfl, readsBehind_or_family hp hk.1 hk.2⟩
  exact .cons (hfixed readsBehind_statement (by decide))
    (.cons (hfixed readsBehind_statement (by decide))
    (.cons (hfixed readsBehind_parseListCommand (by decide))
    (.cons (hfixed readsBehind_parseShowCommand (by decide))
    (.cons (hfixed readsBehind_parseCreateCommand (by decide))
    (.cons (hfixed readsBehind_parseDropCommand (by decide))
    (.cons (hfixed readsBehind_parseAlterCommand (by decide))
    (.cons ⟨rfl, readsBehind_parseGrantCommand⟩
    (.cons ⟨rfl, readsBehind_parseRevokeCommand⟩
    (.cons (hfixed readsBehind_parseSetCommand (by decide))
    (.cons (hfixed readsBehind_parseResetCommand (by decide))
    (.cons (hfixed readsBehind_statement (by decide))
    (.cons (hfixed readsBehind_statement (by decide))
    (.cons (hfixed readsBehind_statement (by decide))
    (.cons (hfixed readsBehind_parseParseCommand (by decide))
    (.cons (hfixed readsBehind_parseBenchmarkCommand (by decide))
    (.cons (hfixed readsBehind_parseRegisterCommand (by decide))
    (.cons (hfixed readsBehind_statement (by decide))
    (.cons (hfixed readsBehind_statement (by decide))
    (.cons (hfixed readsBehind_statement (by decide)) .nil)))))))))))))))))))

/-- The cases of a switch, with forms from lists and families. -/
theorem exists_case_iff {cases : List (Keyword × Parse Command)}
    {forms : List (Keyword × List Form)}
    (h : List.Forall₂ (fun c l => c.1 = l.1 ∧ ReadsBehind c.2 fun f => f ∈ l.2 ∨ Family l.1 f)
      cases forms) {ts : List Token} :
    (∃ c ∈ cases, (curToken ts).type = .keyword c.1 ∧ Succeeds c.2 ts) ↔
      ∃ l ∈ forms, ∃ f, (f ∈ l.2 ∨ Family l.1 f) ∧ (f.behind [.keyword l.1]).Reads ts := by
  induction h with
  | nil => simp
  | cons hc _ ih =>
      rw [List.exists_mem_cons_iff, List.exists_mem_cons_iff, ih, hc.1, succeeds_case_iff hc.2]

/-- The forms of all commands. -/
theorem parsed_iff {f : Form} :
    Parsed f ↔
      ∃ l ∈ commandForms, ∃ g, (g ∈ l.2 ∨ Family l.1 g) ∧ g.behind [.keyword l.1] = f := by
  constructor
  · rintro (hf | ⟨n, rfl⟩ | ⟨n, rfl⟩)
    · obtain ⟨l, hl, hf⟩ := List.mem_flatMap.mp hf
      obtain ⟨g, hg, hgf⟩ := List.mem_map.mp hf
      exact ⟨l, hl, g, .inl hg, hgf⟩
    · exact ⟨(.grant, adminForms), by simp [commandForms], _, .inr (.grant n), rfl⟩
    · exact ⟨(.revoke, adminForms), by simp [commandForms], _, .inr (.revoke n), rfl⟩
  · rintro ⟨l, hl, g, hg | hg, rfl⟩
    · exact .inl (List.mem_flatMap.mpr ⟨l, hl, List.mem_map_of_mem hg⟩)
    · obtain ⟨k, forms⟩ := l
      cases hg with
      | grant n => exact .inr (.inl ⟨n, rfl⟩)
      | revoke n => exact .inr (.inr ⟨n, rfl⟩)

theorem reads_parseSQLCommand : Reads parseSQLCommand Parsed := by
  intro ts
  have hswitch : Succeeds parseSQLCommand ts ↔
      Succeeds (switch sqlCommands "unknown command: ") ts := by
    rw [Succeeds, parseSQLCommand]
    split_ifs with h
    · refine iff_of_false ?_ ?_
      · rintro ⟨r, hr⟩
        cases hr
      · intro hs
        obtain ⟨c, -, hk, -⟩ := (succeeds_switch_iff (by decide)).mp hs
        rw [hk] at h
        exact absurd h.2 (by simp [isKeyword])
    · exact Iff.rfl
  rw [hswitch, succeeds_switch_iff (by decide), exists_case_iff commandForms_read]
  simp only [parsed_iff]
  constructor
  · rintro ⟨l, hl, g, hg, h⟩
    exact ⟨_, ⟨l, hl, g, hg, rfl⟩, h⟩
  · rintro ⟨_, ⟨l, hl, g, hg, rfl⟩, h⟩
    exact ⟨l, hl, g, hg, h⟩

end Parser

end RagflowMineru.Cli
