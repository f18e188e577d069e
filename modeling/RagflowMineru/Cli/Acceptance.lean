import RagflowMineru.Cli.Forms

/-!
# Accepted statements

No input is read by a form of the parser and spelled by another statement of the
grammar, except a chat with its session.  So the parser agrees with the grammar on an
input unless it is one of a few kinds.
-/

namespace RagflowMineru.Cli

open Library Patterns RagflowMineru.Cli.Sym

namespace Form

/-- The form with the semicolon behind its last symbol. -/
def closed (f : Form) : List Sym := f.syms ++ [semicolon]

/-- The form with another token in front of the semicolon, if it may be there. -/
def astray (f : Form) : List (List Sym) :=
  match f.tail with
  | .strict => []
  | .loose excluded => [f.syms ++ [foreign excluded, semicolon]]

theorem reads_iff {f : Form} {ts : List Token} :
    f.Reads ts ↔ Begins Read f.closed ts ∨ ∃ r ∈ f.astray, Begins Read r ts := by
  obtain ⟨syms, tail⟩ := f
  cases tail with
  | strict => simp [Reads, readings, closed, astray]
  | loose excluded => simp [Reads, readings, closed, astray]

end Form

/-- With `SESSION` behind them these are statements of the grammar, and the parser reads that
word in front of the semicolon. -/
def chats : List (List Sym) := [createChat, benchmark ++ createChat]

/-- Symbols with a common token meet. -/
theorem meets_of_read_written (a b : Sym) (t : Token) (ha : a.Read t) (hb : b.Written t) :
    a.meets b := by
  have hword : isWord t → t.type = .identifier ∨ ∃ k, t.type = .keyword k := isWord_iff.mp
  cases a with
  | extra e => exact ha.elim
  | status => rfl
  | any => rfl
  | foreign excluded =>
      cases b with
      | keyword k =>
          rw [meets, decide_eq_true_iff]
          exact fun hk => ha.2 k hk hb
      | semicolon => exact absurd hb ha.1
      | any => exact hb.elim
      | foreign _ => exact hb.elim
      | extra _ => rfl
      | quoted => rfl
      | identifier => rfl
      | number => rfl
      | status => rfl
      | comma => rfl
  | keyword k => cases b <;> simp_all [Sym.Read, Sym.Written, meets]
  | quoted => cases b <;> simp_all [Sym.Read, Sym.Written, meets]
  | identifier => cases b <;> simp_all [Sym.Read, Sym.Written, meets]
  | number => cases b <;> simp_all [Sym.Read, Sym.Written, meets]
  | comma => cases b <;> simp_all [Sym.Read, Sym.Written, meets]
  | semicolon => cases b <;> simp_all [Sym.Read, Sym.Written, meets]

/-! ## Forms and productions -/

/-- The form and the statement have no input in common, unless they have the same symbols; and
none with another token in front of the semicolon, unless that is `SESSION`. -/
def Aligned (f : Form) (g : List Sym) : Prop :=
  (apart meets f.closed (g ++ [semicolon]) ∨ f.syms = g) ∧
    ((∀ r ∈ f.astray, apart meets r (g ++ [semicolon])) ∨
      f.syms ∈ chats ∧ g = f.syms ++ [extra .session])

theorem aligned_of_apart {f : Form} {g : List Sym} (h : apart meets f.syms g) : Aligned f g := by
  refine ⟨.inl (apart_append h _ _), .inl fun r hr => ?_⟩
  obtain ⟨syms, tail⟩ := f
  cases tail with
  | strict => exact (List.not_mem_nil hr).elim
  | loose excluded =>
      obtain rfl := List.mem_singleton.mp hr
      exact apart_append h _ _

/-- Another token is not the semicolon. -/
theorem apart_astray_closed {f : Form} {r : List Sym} (hr : r ∈ f.astray) :
    apart meets r f.closed := by
  obtain ⟨syms, tail⟩ := f
  cases tail with
  | strict => exact (List.not_mem_nil hr).elim
  | loose excluded =>
      obtain rfl := List.mem_singleton.mp hr
      exact apart_append_left rfl

theorem aligned_self (f : Form) : Aligned f f.syms :=
  ⟨.inr rfl, .inl fun _ hr => apart_astray_closed hr⟩

theorem aligned_of_prefix {f : Form} {g r p : List Sym} (hr : r <+: f.syms) (hp : p <+: g)
    (h : apart meets r p) : Aligned f g := by
  obtain ⟨x, hx⟩ := hr
  obtain ⟨y, rfl⟩ := hp
  exact aligned_of_apart (by rw [← hx]; exact apart_append h x y)

/-! ## Lists of names -/

/-- The first symbols of the statements about permissions. -/
def permissionPrefixes : List (List Sym) :=
  [[.keyword .grant, identifier, comma], [.keyword .grant, identifier, .keyword .on],
    [.keyword .revoke, identifier, comma], [.keyword .revoke, identifier, .keyword .on]]

/-- The first symbols of the statements with lists. -/
def listPrefixes : List (List Sym) :=
  [.keyword .list, extra .metadata] :: permissionPrefixes

theorem fixedForms_apart_statements :
    ∀ f ∈ Parser.fixedForms, ∀ g ∈ statements, apart meets f.syms g ∨ Aligned f g := by
  simp only [Aligned]
  decide +kernel

theorem fixedForms_apart_prefixes :
    ∀ f ∈ Parser.fixedForms, ∀ p ∈ listPrefixes, apart meets f.syms p := by
  decide +kernel

theorem prefixes_apart_statements :
    ∀ p ∈ permissionPrefixes, ∀ g ∈ statements, apart meets p g := by
  decide +kernel

/-- A form about permissions begins with its keyword, a word, and a comma or `ON`. -/
theorem exists_prefix_permission {k : Keyword} (direction : Keyword)
    (hcomma : [.keyword k, identifier, comma] ∈ permissionPrefixes)
    (hon : [.keyword k, identifier, .keyword .on] ∈ permissionPrefixes) (n : ℕ) :
    ∃ p ∈ permissionPrefixes, p <+: keywords [k] ++ permission direction n := by
  cases n with
  | zero => exact ⟨_, hon, _, rfl⟩
  | succ n => exact ⟨_, hcomma, _, rfl⟩

theorem exists_prefix_grantPermission (n : ℕ) :
    ∃ p ∈ permissionPrefixes, p <+: grantPermission n :=
  exists_prefix_permission .to (by decide) (by decide) n

theorem exists_prefix_revokePermission (n : ℕ) :
    ∃ p ∈ permissionPrefixes, p <+: revokePermission n :=
  exists_prefix_permission .from (by decide) (by decide) n

theorem exists_prefix_of_production {g : List Sym} (hg : Production g) :
    g ∈ statements ∨ ∃ p ∈ listPrefixes, p <+: g := by
  cases hg with
  | statement hg => exact .inl hg
  | grantPermission n =>
      obtain ⟨p, hp, h⟩ := exists_prefix_grantPermission n
      exact .inr ⟨p, List.mem_cons_of_mem _ hp, h⟩
  | revokePermission n =>
      obtain ⟨p, hp, h⟩ := exists_prefix_revokePermission n
      exact .inr ⟨p, List.mem_cons_of_mem _ hp, h⟩
  | listDatasetsMetadata n => exact .inr ⟨_, List.mem_cons_self, _, rfl⟩
  | listDocumentsMetadataSummary n => exact .inr ⟨_, List.mem_cons_self, _, rfl⟩

/-- Lists of different lengths end at different places. -/
theorem apart_behindCommas {n m : ℕ} (h : n ≠ m) (direction : Keyword) :
    apart meets (behindCommas identifier n ++ onResource direction)
      (behindCommas identifier m ++ onResource direction) := by
  induction n generalizing m with
  | zero =>
      cases m with
      | zero => exact absurd rfl h
      | succ m => rfl
  | succ n ih =>
      cases m with
      | zero => rfl
      | succ m => exact apart_append_left (p := [comma, identifier]) (ih fun hnm => h (by rw [hnm]))

theorem aligned_permission (k direction : Keyword) (n m : ℕ) :
    Aligned (.loose (keywords [k] ++ permission direction n))
      (keywords [k] ++ permission direction m) := by
  by_cases h : n = m
  · rw [h]
    exact aligned_self (.loose _)
  · have hapart := apart_append_left (p := [.keyword k, identifier])
      (apart_behindCommas h direction)
    exact aligned_of_apart hapart

/-- A form about permissions and a statement whose first keyword is another. -/
theorem aligned_of_keyword {k k' : Keyword} {w g : List Sym} (h : k ≠ k') :
    Aligned (.loose (.keyword k :: w)) (.keyword k' :: g) := by
  refine aligned_of_prefix (r := [.keyword k]) (p := [.keyword k']) ⟨_, rfl⟩ ⟨_, rfl⟩ ?_
  simp [apart, meets, h]

theorem aligned {f : Form} {g : List Sym} (hf : Parser.Parsed f) (hg : Production g) :
    Aligned f g := by
  obtain hf | ⟨n, rfl⟩ | ⟨n, rfl⟩ := hf
  · obtain hg | ⟨p, hp, hpg⟩ := exists_prefix_of_production hg
    · exact (fixedForms_apart_statements f hf g hg).elim aligned_of_apart id
    · exact aligned_of_prefix List.prefix_rfl hpg (fixedForms_apart_prefixes f hf p hp)
  · cases hg with
    | statement hg =>
        obtain ⟨p, hp, hpf⟩ := exists_prefix_grantPermission n
        exact aligned_of_prefix hpf List.prefix_rfl (prefixes_apart_statements p hp g hg)
    | grantPermission m => exact aligned_permission .grant .to n m
    | revokePermission m => exact aligned_of_keyword (by decide)
    | listDatasetsMetadata m => exact aligned_of_keyword (by decide)
    | listDocumentsMetadataSummary m => exact aligned_of_keyword (by decide)
  · cases hg with
    | statement hg =>
        obtain ⟨p, hp, hpf⟩ := exists_prefix_revokePermission n
        exact aligned_of_prefix hpf List.prefix_rfl (prefixes_apart_statements p hp g hg)
    | grantPermission m => exact aligned_of_keyword (by decide)
    | revokePermission m => exact aligned_permission .revoke .from n m
    | listDatasetsMetadata m => exact aligned_of_keyword (by decide)
    | listDocumentsMetadataSummary m => exact aligned_of_keyword (by decide)

/-! ## Acceptance -/

theorem exists_keyword_of_parsed {f : Form} {ts : List Token} (hf : Parser.Parsed f)
    (h : f.Reads ts) : ∃ k, (Parser.curToken ts).type = .keyword k := by
  obtain ⟨l, -, g, -, rfl⟩ := Parser.parsed_iff.mp hf
  obtain ⟨t, rest, rfl, ht, -⟩ := Form.reads_behind_cons.mp h
  exact ⟨l.1, ht⟩

theorem accepted_iff {input : List Char} :
    Accepted input ↔
      Parser.isMeta (Parser.curToken (tokens input)) ∨
        ∃ f, Parser.Parsed f ∧ f.Reads (tokens input) := by
  rw [← Parser.reads_parseSQLCommand (tokens input), Accepted, parseInput, Parser.parse]
  split_ifs with heof hmeta
  · refine iff_of_false ?_ ?_
    · rintro ⟨c, h⟩
      cases h
    · rintro (hmeta | hsql)
      · rw [Parser.isMeta, heof] at hmeta
        exact TokenType.noConfusion hmeta.1
      · obtain ⟨f, hf, h⟩ := (Parser.reads_parseSQLCommand _).mp hsql
        obtain ⟨k, hk⟩ := exists_keyword_of_parsed hf h
        exact TokenType.noConfusion (hk.symm.trans heof)
  · exact iff_of_true ⟨_, rfl⟩ (.inl hmeta)
  · rw [Parser.Succeeds]
    simp only [hmeta, false_or]
    cases Parser.parseSQLCommand (tokens input) with
    | error e =>
        refine iff_of_false ?_ ?_
        · rintro ⟨_, h⟩
          cases h
        · rintro ⟨_, h⟩
          cases h
    | ok r => exact iff_of_true ⟨_, rfl⟩ ⟨_, rfl⟩

theorem not_read_of_apart {r g : List Sym} {input : List Char}
    (hapart : apart meets r (g ++ [semicolon])) (hspells : Spells g input) :
    ¬ Begins Sym.Read r (tokens input) := by
  intro h
  rw [not_apart meets_of_read_written h (begins_of_forall₂ hspells.2)] at hapart
  exact Bool.noConfusion hapart

/-- What is read by a form and spelled by a statement. -/
theorem read_of_spells {f : Form} {g : List Sym} {input : List Char} (hf : Parser.Parsed f)
    (hg : Production g) (hreads : f.Reads (tokens input)) (hspells : Spells g input) :
    (f.syms = g ∧ Begins Sym.Read f.closed (tokens input)) ∨
      (f.syms ∈ chats ∧ g = f.syms ++ [extra .session]) ∧
        Begins Sym.Read f.syms (tokens input) := by
  have halign := aligned hf hg
  obtain h | ⟨r, hr, h⟩ := Form.reads_iff.mp hreads
  · obtain hapart | heq := halign.1
    · exact absurd h (not_read_of_apart hapart hspells)
    · exact .inl ⟨heq, h⟩
  · obtain hapart | hsession := halign.2
    · exact absurd h (not_read_of_apart (hapart r hr) hspells)
    · refine .inr ⟨hsession, ?_⟩
      obtain ⟨syms, tail⟩ := f
      cases tail with
      | strict => exact (List.not_mem_nil hr).elim
      | loose excluded =>
          obtain rfl := List.mem_singleton.mp hr
          exact h.left

/-- A statement begins with a keyword of the lexer or of the grammar. -/
theorem exists_first_of_production {g : List Sym} (hg : Production g) :
    (∃ k g', g = .keyword k :: g') ∨ ∃ e g', g = extra e :: g' := by
  have hstatements : ∀ g ∈ statements, g.head?.any fun a =>
      match a with
      | .keyword _ => true
      | .extra _ => true
      | _ => false := by
    decide +kernel
  obtain hg | ⟨p, hp, y, rfl⟩ := exists_prefix_of_production hg
  · have hhead := hstatements g hg
    match g with
    | [] => cases hhead
    | .keyword k :: g' => exact .inl ⟨k, g', rfl⟩
    | .extra e :: g' => exact .inr ⟨e, g', rfl⟩
  · simp only [listPrefixes, permissionPrefixes, List.mem_cons, List.not_mem_nil, or_false] at hp
    obtain rfl | rfl | rfl | rfl | rfl := hp
    all_goals exact .inl ⟨_, _, rfl⟩

/-- A meta command is no statement. -/
theorem not_isMeta_of_spells {g : List Sym} {input : List Char} (hg : Production g)
    (h : Spells g input) : ¬ Parser.isMeta (Parser.curToken (tokens input)) := by
  obtain ⟨-, h⟩ := h
  rintro ⟨htype, hhead⟩
  obtain ⟨k, g', rfl⟩ | ⟨e, g', rfl⟩ := exists_first_of_production hg
  · obtain ⟨t, ts, ht, -, hts⟩ := List.forall₂_cons_left_iff.mp h
    rw [hts] at htype
    exact TokenType.noConfusion (htype.symm.trans ht)
  · obtain ⟨t, ts, ht, -, hts⟩ := List.forall₂_cons_left_iff.mp h
    rw [hts] at hhead
    have hfirst : e.spelling.head? = some (Char.toUpper '\\') := by
      rw [← ht.2, List.head?_map, (show t.value.head? = _ from hhead)]
      rfl
    cases e with
    | session => exact absurd hfirst (by decide)
    | sessions => exact absurd hfirst (by decide)
    | documents => exact absurd hfirst (by decide)
    | metadata => exact absurd hfirst (by decide)
    | summary => exact absurd hfirst (by decide)
    | server => exact absurd hfirst (by decide)
    | fingerprint => exact absurd hfirst (by decide)
    | license => exact absurd hfirst (by decide)
    | check => exact absurd hfirst (by decide)
    | config => exact absurd hfirst (by decide)

/-- `CREATE CHAT … SESSION`, also when it is measured. -/
def OpensSession (input : List Char) : Prop :=
  ∃ w ∈ chats, Spells (w ++ [extra .session]) input ∧ Begins Readable w (tokens input)

/-- None of the ways in which the parser and the grammar differ. -/
structure Regular (input : List Char) : Prop where
  /-- No other token stands in front of a semicolon. -/
  ended : ∀ f, Parser.Parsed f → ∀ r ∈ f.astray, ¬ Begins Sym.Read r (tokens input)
  /-- Nothing stands behind a semicolon. -/
  whole : ∀ f, Parser.Parsed f → Begins Sym.Read f.closed (tokens input) →
    nul ∉ input ∧ (tokens input).length = f.closed.length
  /-- No form is read that the grammar does not have. -/
  documented : ∀ f, Parser.Parsed f → Begins Sym.Read f.closed (tokens input) →
    Production f.syms
  /-- The names and strings that are read are those of the grammar. -/
  plain : ∀ f, Parser.Parsed f → Begins Sym.Read f.closed (tokens input) →
    Begins Plain f.closed (tokens input)
  /-- The input is no statement for which the parser has no form. -/
  supported : ∀ g, Production g → Spells g input → ∃ f, Parser.Parsed f ∧ f.syms = g
  /-- No name is spelled like a keyword, no number is too large and no status is another. -/
  readable : ∀ g, Production g → Spells g input →
    Begins Readable (g ++ [semicolon]) (tokens input)

theorem Regular.documented_of_accepted {input : List Char} (h : Regular input)
    (hinput : Accepted input) : Documented input := by
  obtain hmeta | ⟨f, hf, hreads⟩ := accepted_iff.mp hinput
  · exact .inl hmeta
  · obtain hclosed | ⟨r, hr, hastray⟩ := Form.reads_iff.mp hreads
    · obtain ⟨hnul, hlen⟩ := h.whole f hf hclosed
      have hread := forall₂_of_begins hclosed hlen
      have hplain := forall₂_of_begins (h.plain f hf hclosed) hlen
      exact .inr ⟨f.syms, h.documented f hf hclosed, hnul,
        hread.mp (fun _ _ hread hplain => (written_iff_plain hread).mpr hplain) hplain⟩
    · exact absurd hastray (h.ended f hf r hr)

theorem Regular.accepted_of_documented {input : List Char} (h : Regular input)
    (hinput : Documented input) : Accepted input := by
  rw [accepted_iff]
  obtain hmeta | ⟨g, hg, hspells⟩ := hinput
  · exact .inl hmeta
  · obtain ⟨f, hf, rfl⟩ := h.supported g hg hspells
    have hlen := hspells.2.length_eq.symm
    have hreadable := forall₂_of_begins (h.readable f.syms hg hspells) hlen
    have hread := hspells.2.mp
      (fun _ _ hwritten hreadable => (read_iff_readable hwritten).mpr hreadable) hreadable
    exact .inr ⟨f, hf, Form.reads_iff.mpr (.inl (begins_of_forall₂ hread))⟩

theorem opensSession_of_read {w : List Sym} {input : List Char} (hw : w ∈ chats)
    (hspells : Spells (w ++ [extra .session]) input) (hread : Begins Sym.Read w (tokens input)) :
    OpensSession input := by
  have hwritten := (begins_of_forall₂ hspells.2).left.left
  exact ⟨w, hw, hspells, hwritten.mp (fun _ _ h => (read_iff_readable h).mp) hread⟩

theorem chats_parsed : ∀ w ∈ chats,
    Form.loose w ∈ Parser.fixedForms ∧ w ++ [extra .session] ∈ statements := by
  decide +kernel

theorem accepted_of_opensSession {input : List Char} (h : OpensSession input) :
    Accepted input := by
  obtain ⟨w, hw, hspells, hreadable⟩ := h
  have hwritten := begins_of_forall₂ hspells.2
  have hread : Begins Sym.Read w (tokens input) :=
    hwritten.left.left.mp (fun _ _ h => (read_iff_readable h).mpr) hreadable
  rw [List.append_assoc] at hwritten
  obtain ⟨u, rest, hts, hu, hrest⟩ := begins_append_iff.mp hwritten
  obtain ⟨u', rest', hts', hu'⟩ := begins_iff.mp hread
  -- both split the tokens behind the chat
  obtain ⟨rfl, rfl⟩ := List.append_inj (hts.symm.trans hts')
    (hu.length_eq.symm.trans hu'.length_eq)
  obtain ⟨t, ts, rfl, ht, hsemicolon⟩ := begins_cons_iff.mp hrest
  obtain ⟨t', ts, rfl, ht', -⟩ := begins_cons_iff.mp hsemicolon
  have hforeign : (foreign []).Read t := by
    refine ⟨?_, fun _ h => (List.not_mem_nil h).elim⟩
    rw [ht.1]
    exact TokenType.noConfusion
  refine accepted_iff.mpr (.inr ⟨.loose w, .inl (chats_parsed w hw).1, Form.reads_iff.mpr ?_⟩)
  exact .inr ⟨_, List.mem_singleton_self _,
    begins_append_iff.mpr ⟨u, t :: t' :: ts, hts, hu', hforeign, ht', trivial⟩⟩

theorem documented_of_opensSession {input : List Char} (h : OpensSession input) :
    Documented input := by
  obtain ⟨w, hw, hspells, -⟩ := h
  exact .inr ⟨_, .statement (chats_parsed w hw).2, hspells⟩

end RagflowMineru.Cli
