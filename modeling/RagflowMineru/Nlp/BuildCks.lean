import RagflowMineru.Nlp.ImageMerge

/-!
# Chunks of a document with tables and images

`_build_cks` makes a chunk of every table and image of a document, and chunks of the
texts between.  With delimiters of the user a text goes on in the next section until
a delimiter or a blank part ends it; what is read of it until then is kept in a
buffer, which the chunks of tables and images do not wait for.
-/

namespace RagflowMineru.Nlp

attribute [local instance] MinerU.lawfulBEq_letters

variable {π β : Type*}

/-- A section of the document; an empty text or table is one that is missing. -/
structure DocSection (π β : Type*) where
  text : Text
  image : Option (DocImage π β)
  table : Text

inductive CkType where
  | table
  | image
  | text
  deriving DecidableEq

structure Ck (π β : Type*) where
  text : Text
  image : Option (DocImage π β)
  ckType : CkType
  tkNums : ℕ

structure CkState (π β : Type*) where
  cks : List (Ck π β) := []
  tables : List ℕ := []
  images : List ℕ := []
  seg : Text := []

/-- A chunk of text. -/
def textCk (numTokens : Text → ℕ) (s : Text) : Ck π β :=
  ⟨s, none, .text, numTokens s⟩

/-- The buffer becomes a chunk, unless it is blank. -/
def flush (numTokens : Text → ℕ) (st : CkState π β) : CkState π β :=
  if strip st.seg = [] then { st with seg := [] }
  else { st with cks := st.cks ++ [textCk numTokens (strip st.seg)], seg := [] }

/-- Blank parts and delimiters, around which there may be spaces, end a text. -/
def isBreak (delims : List Text) (subSec : Text) : Bool :=
  strip subSec = [] || strip subSec ∈ delims

def addPart (numTokens : Text → ℕ) (delims : List Text) (st : CkState π β) (subSec : Text) :
    CkState π β :=
  if isBreak delims subSec then flush numTokens st else { st with seg := st.seg ++ subSec }

/-- The text of a section, on a line of its own. -/
def DocSection.line (sec : DocSection π β) : Text :=
  if sec.text = [] then [] else '\n' :: sec.text

def addSection (numTokens : Text → ℕ) (delims : List Text) (st : CkState π β)
    (sec : DocSection π β) : CkState π β :=
  if sec.table ≠ [] then
    let ckText := sec.line ++ sec.table
    { st with
      cks := st.cks ++ [⟨ckText, sec.image, .table, numTokens ckText⟩]
      tables := st.tables ++ [st.cks.length] }
  else if (truthyImage sec.image).isSome then
    { st with
      cks := st.cks ++ [⟨sec.line, sec.image, .image, numTokens sec.line⟩]
      images := st.images ++ [st.cks.length] }
  else if delims ≠ [] then (splitKeeping delims sec.line).foldl (addPart numTokens delims) st
  else if strip sec.line = [] then st
  else { st with cks := st.cks ++ [textCk numTokens (strip sec.line)] }

/-- The chunks, the places of the tables and the images among them, and whether there are
delimiters of the user. -/
def buildCks (numTokens : Text → ℕ) (sections : List (DocSection π β)) (delimiter : Text) :
    List (Ck π β) × List ℕ × List ℕ × Bool :=
  let delims := customDelimiters delimiter
  let st := sections.foldl (addSection numTokens delims) {}
  let st := if delims = [] then st else flush numTokens st
  (st.cks, st.tables, st.images, !delims.isEmpty)

/-! ## Reading -/

/-- The characters of a text that are no spaces. -/
def ink (t : Text) : List (Option Char) :=
  (t.filter fun c => !Document.isSpace c).map some

/-- A chunk as it is read: its text, after a mark if it is a table or an image. -/
def Ck.reading (ck : Ck π β) : List (Option Char) :=
  if ck.ckType = .text then ink ck.text else none :: ink ck.text

/-- Sections with a table or an image. -/
def DocSection.isMedia (sec : DocSection π β) : Bool :=
  sec.table ≠ [] || (truthyImage sec.image).isSome

/-- A section as it is read, without the delimiters that are taken out of a text. -/
def DocSection.reading (delims : List Text) (sec : DocSection π β) : List (Option Char) :=
  if sec.isMedia then none :: ink (sec.line ++ sec.table)
  else if delims = [] then ink sec.line
  else ((splitKeeping delims sec.line).filter fun subSec => !isBreak delims subSec).flatMap ink

theorem ink_append (a b : Text) : ink (a ++ b) = ink a ++ ink b := by
  rw [ink, List.filter_append, List.map_append]
  rfl

/-- What is stripped is not read. -/
theorem ink_strip (t : Text) : ink (strip t) = ink t := by
  have hleft : ∀ t : Text, (t.dropWhile Document.isSpace).filter (fun c => !Document.isSpace c) =
      t.filter fun c => !Document.isSpace c := by
    intro t
    have hspace : (t.takeWhile Document.isSpace).filter (fun c => !Document.isSpace c) = [] := by
      apply List.filter_eq_nil_iff.mpr
      intro c hc
      simpa using List.mem_takeWhile_imp hc
    conv_rhs => rw [← List.takeWhile_append_dropWhile (p := Document.isSpace) (l := t)]
    rw [List.filter_append, hspace, List.nil_append]
  have hright : ∀ t : Text, (t.rdropWhile Document.isSpace).filter (fun c => !Document.isSpace c) =
      t.filter fun c => !Document.isSpace c := by
    intro t
    have hspace : (t.rtakeWhile Document.isSpace).filter (fun c => !Document.isSpace c) = [] := by
      apply List.filter_eq_nil_iff.mpr
      intro c hc
      simpa using List.mem_rtakeWhile_imp hc
    conv_rhs => rw [← List.rdropWhile_append_rtakeWhile (p := Document.isSpace) (l := t)]
    rw [List.filter_append, hspace, List.append_nil]
  rw [ink, strip, MinerU.strip, hright, hleft]
  rfl

theorem ink_eq_nil_iff {t : Text} : ink t = [] ↔ strip t = [] := by
  rw [← not_iff_not, ← ne_eq (strip t), strip_ne_nil_iff, ink, List.map_eq_nil_iff,
    List.filter_eq_nil_iff]
  push Not
  simp

/-- The chunks as they are read. -/
def readCks (cks : List (Ck π β)) : List (Option Char) :=
  cks.flatMap Ck.reading

/-- The sections as they are read. -/
def readSections (delims : List Text) (sections : List (DocSection π β)) : List (Option Char) :=
  sections.flatMap (DocSection.reading delims)

section Runs

variable {numTokens : Text → ℕ} {delims : List Text}

theorem readCks_concat (cks : List (Ck π β)) (ck : Ck π β) :
    readCks (cks ++ [ck]) = readCks cks ++ ck.reading := by
  rw [readCks, List.flatMap_append, List.flatMap_singleton]
  rfl

theorem readSections_concat (sections : List (DocSection π β)) (sec : DocSection π β) :
    readSections delims (sections ++ [sec]) =
      readSections delims sections ++ sec.reading delims := by
  rw [readSections, List.flatMap_append, List.flatMap_singleton]
  rfl

/-- The buffer is read after the chunks. -/
def CkState.reading (st : CkState π β) : List (Option Char) :=
  readCks st.cks ++ ink st.seg

theorem flush_reading (st : CkState π β) :
    readCks (flush numTokens st).cks = st.reading ∧ (flush numTokens st).seg = [] := by
  unfold flush
  split_ifs with hblank
  · exact ⟨by rw [CkState.reading, ink_eq_nil_iff.mpr hblank, List.append_nil], rfl⟩
  · refine ⟨?_, rfl⟩
    rw [readCks_concat, CkState.reading, textCk, Ck.reading, if_pos rfl, ink_strip]

theorem addPart_reading (st : CkState π β) (subSec : Text) :
    (addPart numTokens delims st subSec).reading =
      st.reading ++ if isBreak delims subSec then [] else ink subSec := by
  unfold addPart
  split_ifs
  · obtain ⟨hcks, hseg⟩ := @flush_reading _ _ numTokens st
    rw [CkState.reading, hcks, hseg, List.append_nil]
    exact List.append_nil _
  · rw [CkState.reading, CkState.reading, ink_append, List.append_assoc]

theorem foldl_addPart_reading (st : CkState π β) (parts : List Text) :
    (parts.foldl (addPart numTokens delims) st).reading =
      st.reading ++ (parts.filter fun subSec => !isBreak delims subSec).flatMap ink := by
  induction parts generalizing st with
  | nil => exact (List.append_nil _).symm
  | cons subSec parts ih =>
    rw [List.foldl_cons, ih, addPart_reading, List.append_assoc]
    by_cases hbreak : isBreak delims subSec
    · simp [hbreak]
    · simp [hbreak]

/-- What is in the buffer is not blank if the last part was no break. -/
theorem foldl_addPart_seg {st : CkState π β} {parts : List Text} {last : Text} :
    ink ((parts ++ [last]).foldl (addPart numTokens delims) st).seg = [] ↔
      isBreak delims last = true := by
  rw [List.foldl_append, List.foldl_cons, List.foldl_nil, addPart]
  by_cases hbreak : isBreak delims last = true
  · rw [if_pos hbreak, (flush_reading _).2]
    exact iff_of_true rfl hbreak
  · rw [if_neg hbreak, ink_append, List.append_eq_nil_iff, @ink_eq_nil_iff last]
    refine iff_of_false (fun h => hbreak ?_) hbreak
    rw [isBreak, h.2]
    rfl

/-! ## What is pending -/

/-- The text of a section after its last delimiter. -/
def lastPart (delims : List Text) (sec : DocSection π β) : Text :=
  ((splitKeeping delims sec.line).getLast?).getD []

/-- The last section of text goes on: it does not end with a delimiter and blanks. -/
def endsOpen (delims : List Text) (sections : List (DocSection π β)) : Bool :=
  match (sections.filter fun sec => !sec.isMedia).getLast? with
  | none => false
  | some sec => !isBreak delims (lastPart delims sec)

/-- No table and no image comes while a text goes on. -/
def NothingPending (delims : List Text) (sections : List (DocSection π β)) : Prop :=
  ∀ pre media post, sections = pre ++ media :: post → media.isMedia → endsOpen delims pre = false

theorem nothingPending_concat {sections : List (DocSection π β)} {sec : DocSection π β} :
    NothingPending delims (sections ++ [sec]) ↔
      NothingPending delims sections ∧ (sec.isMedia → endsOpen delims sections = false) := by
  constructor
  · refine fun h => ⟨fun pre media post hsplit hmedia => ?_, fun hmedia => ?_⟩
    · exact h pre media (post ++ [sec]) (by rw [hsplit]; simp) hmedia
    · exact h sections sec [] rfl hmedia
  · rintro ⟨hold, hlast⟩ pre media post hsplit hmedia
    rcases post.eq_nil_or_concat with rfl | ⟨post, last, rfl⟩
    · obtain ⟨rfl, hsec⟩ := List.append_inj' hsplit rfl
      obtain rfl := List.singleton_inj.mp hsec
      exact hlast hmedia
    · rw [List.concat_eq_append, ← List.cons_append, ← List.append_assoc] at hsplit
      exact hold pre media post (List.append_inj' hsplit rfl).1 hmedia

theorem exists_splitKeeping_concat (delims : List Text) (s : Text) :
    ∃ init last, splitKeeping delims s = init ++ [last] :=
  ⟨_, _, (List.dropLast_append_getLast (List.cons_ne_nil _ _)).symm⟩

/-- A table or an image is read where the chunks end, whatever is in the buffer. -/
theorem addSection_media {st : CkState π β} {sec : DocSection π β} (hmedia : sec.isMedia = true) :
    readCks (addSection numTokens delims st sec).cks = readCks st.cks ++ sec.reading delims ∧
      (addSection numTokens delims st sec).seg = st.seg := by
  rw [DocSection.reading, if_pos hmedia]
  unfold addSection
  by_cases htable : sec.table ≠ []
  · rw [if_pos htable]
    exact ⟨readCks_concat _ _, rfl⟩
  · have himage : (truthyImage sec.image).isSome := by
      simpa [DocSection.isMedia, htable] using hmedia
    rw [if_neg htable, if_pos himage]
    have hnil : sec.table = [] := not_not.mp htable
    rw [hnil, List.append_nil]
    exact ⟨readCks_concat _ _, rfl⟩

/-- A text goes on with what is in the buffer, if there are delimiters. -/
theorem addSection_text {st : CkState π β} {sec : DocSection π β} (hdelims : delims ≠ [])
    (hmedia : sec.isMedia = false) :
    addSection numTokens delims st sec =
      (splitKeeping delims sec.line).foldl (addPart numTokens delims) st := by
  rw [DocSection.isMedia, Bool.or_eq_false_iff, decide_eq_false_iff_not] at hmedia
  rw [addSection, if_neg hmedia.1, hmedia.2, if_neg Bool.false_ne_true, if_pos hdelims]

/-- What is in the buffer is blank exactly if the last text does not go on. -/
theorem foldl_addSection_seg (hdelims : delims ≠ []) (sections : List (DocSection π β)) :
    ink (sections.foldl (addSection numTokens delims) {}).seg = [] ↔
      endsOpen delims sections = false := by
  induction sections using List.reverseRecOn with
  | nil => exact iff_of_true rfl rfl
  | append_singleton sections sec ih =>
    rw [List.foldl_append, List.foldl_cons, List.foldl_nil]
    rcases hmedia : sec.isMedia
    · obtain ⟨init, last, hsplit⟩ := exists_splitKeeping_concat delims sec.line
      have hends : endsOpen delims (sections ++ [sec]) = !isBreak delims last := by
        have hlast : lastPart delims sec = last := by rw [lastPart, hsplit]; simp
        simp [endsOpen, hmedia, hlast]
      rw [addSection_text hdelims hmedia, hsplit, foldl_addPart_seg, hends, Bool.not_eq_false']
    · have hends : endsOpen delims (sections ++ [sec]) = endsOpen delims sections := by
        simp [endsOpen, hmedia]
      rw [(addSection_media hmedia).2, ih, hends]

theorem foldl_addSection_reading (hdelims : delims ≠ []) {sections : List (DocSection π β)}
    (h : NothingPending delims sections) :
    (sections.foldl (addSection numTokens delims) {}).reading = readSections delims sections := by
  induction sections using List.reverseRecOn with
  | nil => rfl
  | append_singleton sections sec ih =>
    obtain ⟨hold, hlast⟩ := nothingPending_concat.mp h
    rw [List.foldl_append, List.foldl_cons, List.foldl_nil, readSections_concat, ← ih hold]
    rcases hmedia : sec.isMedia
    · rw [addSection_text hdelims hmedia, foldl_addPart_reading, DocSection.reading, hmedia,
        if_neg Bool.false_ne_true, if_neg hdelims]
    · obtain ⟨hcks, hseg⟩ := @addSection_media _ _ numTokens delims
        (sections.foldl (addSection numTokens delims) {}) sec hmedia
      have hblank := (@foldl_addSection_seg _ _ numTokens _ hdelims sections).mpr (hlast hmedia)
      rw [CkState.reading, CkState.reading, hcks, hseg, hblank, List.append_nil, List.append_nil]

theorem prefix_flush (st : CkState π β) : st.cks <+: (flush numTokens st).cks := by
  unfold flush
  split_ifs
  · exact List.prefix_refl _
  · exact List.prefix_append _ _

theorem prefix_addSection (st : CkState π β) (sec : DocSection π β) :
    st.cks <+: (addSection numTokens delims st sec).cks := by
  have hparts : ∀ (parts : List Text) (st : CkState π β),
      st.cks <+: (parts.foldl (addPart numTokens delims) st).cks := by
    intro parts
    induction parts with
    | nil => exact fun st => List.prefix_refl _
    | cons subSec parts ih =>
      intro st
      refine List.IsPrefix.trans ?_ (ih _)
      unfold addPart
      split_ifs
      · exact prefix_flush st
      · exact List.prefix_refl _
  unfold addSection
  split_ifs
  · exact List.prefix_append _ _
  · exact List.prefix_append _ _
  · exact hparts _ st
  · exact List.prefix_refl _
  · exact List.prefix_append _ _

theorem readCks_mono {a b : List (Ck π β)} (h : a <+: b) : readCks a <+: readCks b := by
  obtain ⟨c, rfl⟩ := h
  exact ⟨readCks c, by rw [readCks, readCks, readCks, List.flatMap_append]⟩

/-- Once a table or an image has come while a text goes on, it is read before the text. -/
theorem foldl_addSection_differs (hdelims : delims ≠ []) {sections : List (DocSection π β)}
    (h : ¬ NothingPending delims sections) :
    ∃ before c, before ++ [none] <+:
        readCks (sections.foldl (addSection numTokens delims) {}).cks ∧
      before ++ [some c] <+: readSections delims sections := by
  induction sections using List.reverseRecOn with
  | nil => exact absurd (fun pre media post hsplit => by simp at hsplit) h
  | append_singleton sections sec ih =>
    rw [List.foldl_append, List.foldl_cons, List.foldl_nil, readSections_concat]
    by_cases hold : NothingPending delims sections
    · -- the section is the first such table or image
      rw [nothingPending_concat, not_and, Classical.not_imp] at h
      obtain ⟨hmedia, hopen⟩ := h hold
      have hseg := (@foldl_addSection_seg _ _ numTokens _ hdelims sections).not.mpr hopen
      obtain ⟨head, tail, hink⟩ := List.exists_cons_of_ne_nil hseg
      obtain ⟨c, -, rfl⟩ := List.mem_map.mp (hink ▸ List.mem_cons_self : head ∈ ink _)
      refine ⟨readCks (sections.foldl (addSection numTokens delims) {}).cks, c, ?_, ?_⟩
      · rw [(addSection_media hmedia).1, DocSection.reading, if_pos hmedia]
        exact (List.prefix_append_right_inj _).mpr ⟨_, rfl⟩
      · rw [← @foldl_addSection_reading _ _ numTokens _ hdelims _ hold, CkState.reading, hink,
          List.append_assoc]
        exact (List.prefix_append_right_inj _).mpr ⟨_, rfl⟩
    · obtain ⟨before, c, hcks, hsections⟩ := ih hold
      exact ⟨before, c, hcks.trans (readCks_mono (prefix_addSection _ sec)),
        hsections.trans (List.prefix_append _ _)⟩

/-- Without delimiters nothing is kept back. -/
theorem foldl_addSection_default (sections : List (DocSection π β)) :
    (sections.foldl (addSection numTokens []) {}).seg = [] ∧
      readCks (sections.foldl (addSection numTokens []) {}).cks = readSections [] sections := by
  induction sections using List.reverseRecOn with
  | nil => exact ⟨rfl, rfl⟩
  | append_singleton sections sec ih =>
    obtain ⟨hseg, hcks⟩ := ih
    rw [List.foldl_append, List.foldl_cons, List.foldl_nil, readSections_concat, ← hcks]
    rcases hmedia : sec.isMedia
    · have hnot := hmedia
      rw [DocSection.isMedia, Bool.or_eq_false_iff, decide_eq_false_iff_not] at hnot
      rw [addSection, if_neg hnot.1, hnot.2, if_neg Bool.false_ne_true, if_neg (not_not.mpr rfl),
        DocSection.reading, hmedia, if_neg Bool.false_ne_true, if_pos rfl]
      split_ifs with hblank
      · rw [ink_eq_nil_iff.mpr hblank, List.append_nil]
        exact ⟨hseg, rfl⟩
      · rw [readCks_concat, textCk, Ck.reading, if_pos rfl, ink_strip]
        exact ⟨hseg, rfl⟩
    · obtain ⟨hmediaCks, hmediaSeg⟩ := @addSection_media _ _ numTokens []
        (sections.foldl (addSection numTokens []) {}) sec hmedia
      exact ⟨hmediaSeg.trans hseg, hmediaCks⟩

end Runs

/-- The chunks are read as the sections are, tables and images in their places, exactly if there
are no delimiters of the user or no table or image comes while a text goes on. -/
theorem buildCks_reading_iff (numTokens : Text → ℕ) (sections : List (DocSection π β))
    (delimiter : Text) :
    readCks (buildCks numTokens sections delimiter).1 =
        readSections (customDelimiters delimiter) sections ↔
      customDelimiters delimiter = [] ∨ NothingPending (customDelimiters delimiter) sections := by
  rw [buildCks]
  dsimp only
  by_cases hdelims : customDelimiters delimiter = []
  · rw [if_pos hdelims, hdelims]
    exact iff_of_true (foldl_addSection_default sections).2 (Or.inl rfl)
  rw [if_neg hdelims, or_iff_right hdelims]
  constructor
  · intro hread
    by_contra hpending
    obtain ⟨before, c, hcks, hsections⟩ :=
      @foldl_addSection_differs _ _ numTokens _ hdelims sections hpending
    have hflush := hcks.trans (readCks_mono (@prefix_flush _ _ numTokens _))
    rw [hread] at hflush
    have hsame := List.prefix_of_prefix_length_le hflush hsections (by simp)
    simp at hsame
  · intro h
    rw [(flush_reading _).1, foldl_addSection_reading hdelims h]

/-- A text, and a table after it. -/
def tableAfterText : List (DocSection ℕ ℕ) :=
  [⟨"abc".toList, none, []⟩, ⟨[], none, "<table>".toList⟩]

/-- The table is read before the text. -/
theorem not_buildCks_reading :
    ¬ ∀ (numTokens : Text → ℕ) (sections : List (DocSection ℕ ℕ)) (delimiter : Text),
      readCks (buildCks numTokens sections delimiter).1 =
        readSections (customDelimiters delimiter) sections := by
  intro h
  have hread := h List.length tableAfterText (backtick :: "##".toList ++ [backtick])
  exact absurd hread (by decide +kernel)

end RagflowMineru.Nlp
