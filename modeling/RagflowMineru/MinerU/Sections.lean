import Mathlib.Data.List.Chain
import RagflowMineru.MinerU.ContentList

/-!
# From a content list to sections

`_transfer_to_sections` of the RAGFlow parser.  Its loop variable `section` keeps
the text of an earlier entry when no case matches the type of an entry, so the
entries that only the VLM backend writes (headers, footers, references, ...) get
the text of the entry before them.
-/

namespace RagflowMineru.MinerU

/-- The page images with their sizes, and the format of a tag. -/
structure Tagging where
  pageImages : List (ℚ × ℚ)
  format : ℕ → BBox ℚ → String

/-- The `parse_method` of the caller. -/
inductive ParseMethod where
  | manual | paper | other
  deriving DecidableEq

inductive Section where
  | manual (text : String) (type : EntryType) (tag : String)
  | paper (tagged : String) (type : EntryType)
  | plain (text : String) (tag : String)
  deriving DecidableEq

inductive TransferError where
  | keyError
  | unboundLocalError
  deriving DecidableEq

/-- `_line_tag`, with the corners in order and in the scale of the page image. -/
def lineTag (tagging : Tagging) (bx : Entry) : String :=
  let positions := bx.bbox.getD ⟨0, 0, 0, 0⟩
  let x0 : ℚ := min positions.x0 positions.x1
  let x1 : ℚ := max positions.x0 positions.x1
  let top : ℚ := min positions.y0 positions.y1
  let bott : ℚ := max positions.y0 positions.y1
  tagging.format (bx.pageIdx + 1) <|
    match tagging.pageImages[bx.pageIdx]? with
    | some (width, height) =>
        ⟨x0 / 1000 * width, top / 1000 * height, x1 / 1000 * width, bott / 1000 * height⟩
    | none => ⟨x0, top, x1, bott⟩

/-- The text that the `match` assigns; `none` when no case matches. -/
def matchType (output : Entry) : EntryType → Option String
  | .text | .equation => some (output.text.getD "")
  | .table =>
      let body := output.tableBody.getD "" ++ "\n".intercalate (output.tableCaption.getD []) ++
        "\n".intercalate (output.tableFootnote.getD [])
      some (if isBlank body then "FAILED TO PARSE TABLE" else body)
  | .image =>
      some (String.join (output.imageCaption.getD []) ++ "\n" ++
        String.join (output.imageFootnote.getD []))
  | .code =>
      some (output.codeBody.getD "" ++ "\n".intercalate (output.codeCaption.getD []))
  | .list => some ("\n".intercalate (output.listItems.getD []))
  | _ => none

/-- What is appended for an entry. -/
def appended (tagging : Tagging) (parseMethod : ParseMethod) (output : Entry) (type : EntryType)
    (text : String) : Section :=
  if text ≠ "" ∧ parseMethod = .manual then .manual text type (lineTag tagging output)
  else if text ≠ "" ∧ parseMethod = .paper then .paper (text ++ lineTag tagging output) type
  else .plain text (lineTag tagging output)

variable (tagging : Tagging) (parseMethod : ParseMethod)

/-- The loop; `current` is the variable `section` while it is bound. -/
def transferFrom (current : Option String) : List Entry → Except TransferError (List Section)
  | [] => .ok []
  | output :: outputs =>
      match output.type with
      | none => .error .keyError
      | some type =>
          if type = .discarded then transferFrom current outputs
          else
            match (matchType output type).or current with
            | none => .error .unboundLocalError
            | some text =>
                (transferFrom (some text) outputs).map
                  (appended tagging parseMethod output type text :: ·)

def transferToSections (outputs : List Entry) : Except TransferError (List Section) :=
  transferFrom tagging parseMethod none outputs

/-- The text of an entry of its own. -/
def Entry.ownText (entry : Entry) : String :=
  (entry.type.bind (matchType entry)).getD (entry.text.getD "")

/-- The section that has the text of the entry. -/
def ownSection (entry : Entry) : Section :=
  appended tagging parseMethod entry (entry.type.getD .text) entry.ownText

/-- The transfer returns, and every section has the text and the tag of one entry,
in order. -/
def HandedOver (outputs : List Entry) : Prop :=
  ∃ entries : List Entry, entries.Sublist outputs ∧
    transferToSections tagging parseMethod outputs =
      .ok (entries.map (ownSection tagging parseMethod))

/-- The consumer knows the type. -/
def Entry.Known (entry : Entry) : Prop :=
  ∃ type, entry.type = some type ∧ (type = .discarded ∨ (matchType entry type).isSome)

instance (entry : Entry) : Decidable entry.Known :=
  match h : entry.type with
  | none => .isFalse fun ⟨_, htype, _⟩ => by simp [h] at htype
  | some type =>
      decidable_of_iff (type = .discarded ∨ (matchType entry type).isSome)
        (by simp [Entry.Known, h])

/-- Every entry has a type, and one of an unknown type follows an entry with its text. -/
def NothingStale (outputs : List Entry) : Prop :=
  (∀ entry ∈ outputs, entry.type ≠ none) ∧ (∀ entry ∈ outputs.head?, entry.Known) ∧
    outputs.IsChain fun before entry => entry.Known ∨ entry.ownText = before.ownText

/-! ## The steps of the loop -/

section

variable {tagging parseMethod} {current : Option String} {output : Entry} {outputs : List Entry}
  {type : EntryType} {text other : String} {sections : List Section}

theorem appended_inj (heq : appended tagging parseMethod output type text =
    appended tagging parseMethod output type other) : text = other := by
  have hempty : ∀ {text : String}, text = "" →
      appended tagging parseMethod output type text = .plain "" (lineTag tagging output) := by
    rintro _ rfl
    rfl
  by_cases htext : text = ""
  · by_cases hother : other = ""
    · rw [htext, hother]
    · rw [hempty htext] at heq
      cases parseMethod <;> simp_all [appended]
  · by_cases hother : other = ""
    · rw [hempty hother] at heq
      cases parseMethod <;> simp_all [appended]
    · cases parseMethod <;> simp_all [appended]

/-- What an iteration does when the transfer returns. -/
theorem transferFrom_cons_eq_ok_iff :
    transferFrom tagging parseMethod current (output :: outputs) = .ok sections ↔
      (output.type = some .discarded ∧
        transferFrom tagging parseMethod current outputs = .ok sections) ∨
      ∃ type text rest, output.type = some type ∧ type ≠ .discarded ∧
        (matchType output type).or current = some text ∧
        transferFrom tagging parseMethod (some text) outputs = .ok rest ∧
        sections = appended tagging parseMethod output type text :: rest := by
  rw [transferFrom]
  cases htype : output.type with
  | none => simp
  | some type =>
      by_cases hdiscarded : type = .discarded
      · simp [hdiscarded]
      · cases htext : (matchType output type).or current with
        | none => simp [-Option.or_eq_some_iff, hdiscarded, htext]
        | some text =>
            cases htail : transferFrom tagging parseMethod (some text) outputs with
            | error e => simp [-Option.or_eq_some_iff, hdiscarded, htext, htail, Except.map]
            | ok rest =>
                simp [-Option.or_eq_some_iff, hdiscarded, htext, htail, Except.map, eq_comm]

/-- A transfer that returns has seen a type in every entry. -/
theorem typed_of_transferFrom
    (h : transferFrom tagging parseMethod current outputs = .ok sections) :
    ∀ entry ∈ outputs, entry.type ≠ none := by
  induction outputs generalizing current sections with
  | nil => exact fun entry hentry => absurd hentry List.not_mem_nil
  | cons output outputs ih =>
      rcases transferFrom_cons_eq_ok_iff.mp h with
        ⟨htype, htail⟩ | ⟨type, text, rest, htype, -, -, htail, -⟩
      all_goals
        intro entry hentry
        rcases List.mem_cons.mp hentry with rfl | hentry
        · simp [htype]
        · exact ih htail entry hentry

theorem ownText_of_match (htype : output.type = some type)
    (hmatch : matchType output type = some text) : output.ownText = text := by
  rw [Entry.ownText, htype, Option.bind_some, hmatch, Option.getD_some]

/-- When the consumer knows every type, each entry that is not discarded has its section. -/
theorem transferFrom_of_known (h : ∀ entry ∈ outputs, entry.Known) :
    transferFrom tagging parseMethod current outputs =
      .ok ((outputs.filter (·.type ≠ some .discarded)).map (ownSection tagging parseMethod)) := by
  induction outputs generalizing current with
  | nil => rfl
  | cons output outputs ih =>
      have htail := fun current => @ih current
        fun entry hentry => h entry (List.mem_cons_of_mem _ hentry)
      obtain ⟨type, htype, hknown⟩ := h output List.mem_cons_self
      rw [transferFrom_cons_eq_ok_iff]
      by_cases hdiscarded : type = .discarded
      · left
        simp [htype, hdiscarded, htail]
      · right
        obtain ⟨text, hmatch⟩ := Option.isSome_iff_exists.mp (hknown.resolve_left hdiscarded)
        refine ⟨type, text, _, htype, hdiscarded, by rw [hmatch]; rfl, htail _, ?_⟩
        simp [htype, hdiscarded, ownSection, ownText_of_match htype hmatch]

/-- Without discarded entries, the variable holds the text of the entry before. -/
theorem transferFrom_eq_own_iff (hkept : ∀ entry ∈ outputs, entry.type ≠ some .discarded) :
    transferFrom tagging parseMethod current outputs =
        .ok (outputs.map (ownSection tagging parseMethod)) ↔
      (∀ entry ∈ outputs, entry.type ≠ none) ∧
        (∀ entry ∈ outputs.head?, entry.Known ∨ current = some entry.ownText) ∧
        outputs.IsChain fun before entry => entry.Known ∨ entry.ownText = before.ownText := by
  induction outputs generalizing current with
  | nil => simp [transferFrom]
  | cons output outputs ih =>
      have hne := hkept output List.mem_cons_self
      have htail := fun current => @ih current
        fun entry hentry => hkept entry (List.mem_cons_of_mem _ hentry)
      have hchain : (output :: outputs).IsChain
            (fun before entry => entry.Known ∨ entry.ownText = before.ownText) ↔
          (∀ entry ∈ outputs.head?, entry.Known ∨ some output.ownText = some entry.ownText) ∧
            outputs.IsChain fun before entry => entry.Known ∨ entry.ownText = before.ownText := by
        rw [List.isChain_cons]
        simp only [Option.some.injEq, eq_comm]
      rw [List.map_cons, transferFrom_cons_eq_ok_iff, hchain]
      constructor
      · rintro (⟨htype, -⟩ | ⟨type, text, rest, htype, hdiscarded, htext, hrest, heq⟩)
        · exact absurd htype hne
        · obtain ⟨hhead, rfl⟩ := List.cons.inj heq
          have hown : output.ownText = text := by
            rw [ownSection, htype] at hhead
            exact appended_inj hhead
          obtain ⟨htyped, hfirst, hothers⟩ := (htail (some text)).mp hrest
          refine ⟨?_, ?_, hown ▸ hfirst, hothers⟩
          · exact List.forall_mem_cons.mpr ⟨by simp [htype], htyped⟩
          · intro entry hentry
            obtain rfl := Option.some.inj hentry
            cases hmatch : matchType output type with
            | some _ => exact .inl ⟨type, htype, .inr (by simp [hmatch])⟩
            | none =>
                rw [hmatch, Option.none_or] at htext
                exact .inr (htext.trans (congrArg some hown.symm))
      · rintro ⟨htyped, hfirst, hnext, hothers⟩
        obtain ⟨type, htype⟩ := Option.ne_none_iff_exists'.mp (htyped output List.mem_cons_self)
        have hdiscarded : type ≠ .discarded := fun heq => hne (heq ▸ htype)
        have hrest := (htail (some output.ownText)).mpr
          ⟨fun entry hentry => htyped entry (List.mem_cons_of_mem _ hentry), hnext, hothers⟩
        refine .inr ⟨type, output.ownText, _, htype, hdiscarded, ?_, hrest, ?_⟩
        · cases hmatch : matchType output type with
          | some text => rw [ownText_of_match htype hmatch, Option.some_or]
          | none =>
              have hunknown : ¬ output.Known := by
                rintro ⟨other, hother, hknown⟩
                obtain rfl := Option.some.inj (htype.symm.trans hother)
                exact hknown.elim hdiscarded fun hmatched => by simp [hmatch] at hmatched
              rw [Option.none_or]
              exact (hfirst output rfl).resolve_left hunknown
        · rw [ownSection, htype, Option.getD_some]

theorem length_of_transferFrom (hkept : ∀ entry ∈ outputs, entry.type ≠ some .discarded)
    (h : transferFrom tagging parseMethod current outputs = .ok sections) :
    sections.length = outputs.length := by
  induction outputs generalizing current sections with
  | nil =>
      obtain rfl := Except.ok.inj h
      rfl
  | cons output outputs ih =>
      rcases transferFrom_cons_eq_ok_iff.mp h with
        ⟨htype, -⟩ | ⟨type, text, rest, -, -, -, hrest, rfl⟩
      · exact absurd htype (hkept output List.mem_cons_self)
      · have hlength := ih (fun entry hentry => hkept entry (List.mem_cons_of_mem _ hentry)) hrest
        rw [List.length_cons, List.length_cons, hlength]

end

/-! ## The two backends -/

section

variable {mergeParaWithText : Lines → String} {pdfInfo : List Page} {entry : Entry}

/-- The VLM backend discards nothing. -/
theorem Vlm.type_ne_discarded (h : entry ∈ Vlm.unionMake mergeParaWithText pdfInfo) :
    entry.type ≠ some .discarded := by
  obtain ⟨page, -, hentry⟩ := List.mem_flatMap.mp h
  obtain ⟨block, -, rfl⟩ := List.mem_map.mp hentry
  simp only [Vlm.makeBlocksToContentList, Entry.place]
  split <;> simp [textEntry, Vlm.listEntry, imageEntry, tableEntry, Vlm.codeEntry]

/-- The consumer knows all types of the pipeline backend. -/
theorem Pipeline.known_of_type_ne_none (h : entry ∈ Pipeline.unionMake mergeParaWithText pdfInfo)
    (htype : entry.type ≠ none) : entry.Known := by
  obtain ⟨page, -, hentry⟩ := List.mem_flatMap.mp h
  obtain ⟨block, -, hblock⟩ := List.mem_filterMap.mp hentry
  obtain ⟨content, hcontent, rfl⟩ := Option.map_eq_some_iff.mp hblock
  split at hcontent
  case h_6 =>
    rw [equationEntry] at hcontent
    split at hcontent
    · obtain rfl := Option.some.inj hcontent
      exact ⟨_, rfl, .inr rfl⟩
    · cases hcontent
  case h_4 =>
    obtain rfl := Option.some.inj hcontent
    exact ⟨_, rfl, .inl rfl⟩
  case h_9 =>
    obtain rfl := Option.some.inj hcontent
    exact absurd rfl htype
  all_goals
    obtain rfl := Option.some.inj hcontent
    exact ⟨_, rfl, .inr rfl⟩

end

/-- The content list is handed over exactly when no entry gets the text of another. -/
theorem handedOver_iff (mergeParaWithText : Lines → String) (backend : Backend)
    (pdfInfo : List Page) :
    HandedOver tagging parseMethod (backend.unionMake mergeParaWithText pdfInfo) ↔
      NothingStale (backend.unionMake mergeParaWithText pdfInfo) := by
  cases backend with
  | pipeline =>
      have hknown : ∀ entry ∈ Backend.pipeline.unionMake mergeParaWithText pdfInfo,
          entry.type ≠ none → entry.Known := fun entry => Pipeline.known_of_type_ne_none
      constructor
      · rintro ⟨entries, -, h⟩
        have htyped := typed_of_transferFrom h
        have hall := fun entry hentry => hknown entry hentry (htyped entry hentry)
        refine ⟨htyped, fun entry hentry => hall entry (List.mem_of_mem_head? hentry), ?_⟩
        exact (List.pairwise_of_forall_mem_list fun _ _ entry hentry =>
          Or.inl (hall entry hentry)).isChain
      · rintro ⟨htyped, -⟩
        exact ⟨_, List.filter_sublist, transferFrom_of_known fun entry hentry =>
          hknown entry hentry (htyped entry hentry)⟩
  | vlm =>
      have hkept : ∀ entry ∈ Backend.vlm.unionMake mergeParaWithText pdfInfo,
          entry.type ≠ some .discarded := fun entry => Vlm.type_ne_discarded
      have hown := @transferFrom_eq_own_iff tagging parseMethod none _ hkept
      constructor
      · rintro ⟨entries, hsublist, h⟩
        have hlength := length_of_transferFrom hkept h
        rw [List.length_map] at hlength
        obtain rfl := hsublist.eq_of_length hlength
        obtain ⟨htyped, hfirst, hchain⟩ := hown.mp h
        exact ⟨htyped, fun entry hentry => (hfirst entry hentry).resolve_right (by simp), hchain⟩
      · rintro ⟨htyped, hfirst, hchain⟩
        exact ⟨_, List.Sublist.refl _,
          hown.mpr ⟨htyped, fun entry hentry => .inl (hfirst entry hentry), hchain⟩⟩

/-- What `merge_para_with_text` gives for spans of English text. -/
def spaced (lines : Lines) : String :=
  String.join (lines.flatten.map fun span => span.content ++ " ")

/-- A page with a paragraph and a header, whose section repeats the paragraph. -/
theorem header_not_handedOver :
    ¬ HandedOver ⟨[], fun _ _ => "@@1##"⟩ .other
      (Backend.vlm.unionMake spaced
        [{ paraBlocks := [{ type := .text, lines := [[{ type := .text, content := "Body" }]] }]
           discardedBlocks :=
             [{ type := .header, lines := [[{ type := .text, content := "Head" }]] }]
           pageIdx := 0
           pageSize := (600, 800) }]) := by
  rintro ⟨entries, hsublist, h⟩
  have hlength := length_of_transferFrom (fun entry => Vlm.type_ne_discarded) h
  rw [List.length_map] at hlength
  obtain rfl := hsublist.eq_of_length hlength
  exact absurd h (by decide)

end RagflowMineru.MinerU
