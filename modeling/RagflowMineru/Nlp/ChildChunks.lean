import RagflowMineru.Nlp.Delimiters
import RagflowMineru.Nlp.MediaContext
import Mathlib.Data.List.Flatten

/-!
# Child chunks

A chunk is cut into child chunks at delimiters of the user.  A delimiter belongs to the
text in front of it, and where there is no text there is no child.
-/

namespace RagflowMineru.Nlp

open RagflowMineru.Library

/-! ## Documents -/

/-- What is stored of a chunk; `other` is what all chunks of a document have. -/
structure EsDoc (ι κ : Type*) where
  other : κ
  image : Option ι
  pageNumInt : Option (List ℤ)
  positionInt : Option (List (ℤ × ℤ × ℤ × ℤ × ℤ))
  topInt : Option (List ℤ)
  momWithWeight : Option Text
  contentWithWeight : Option Text
  contentLtks : Option Text
  contentSmLtks : Option Text

variable {ι κ : Type*}

namespace EsDoc

/-- `</?(table|td|caption|tr|th)( [^<>]{0,12})?>` -/
def tableTag : Pattern :=
  .seq (word "<") <| .seq (.opt (word "/")) <|
    .seq (words ["table", "td", "caption", "tr", "th"]) <|
      .seq (.opt (.seq (word " ") (.upTo 12 fun c => c ≠ '<' && c ≠ '>'))) (word ">")

/-- The tag at the start of a text: there is one way at most to match it. -/
def tableTagMatcher : Matcher Char Text where
  at? s := ((tableTag.ends s).find? (·.length < s.length)).map fun rest =>
    s.take (s.length - rest.length)
  spell := id
  spell_ne_nil {s tag} h := by
    obtain ⟨rest, hrest, rfl⟩ := Option.map_eq_some_iff.mp h
    have hlength := List.find?_some hrest
    rw [decide_eq_true_eq] at hlength
    apply List.ne_nil_of_length_pos
    rw [id, List.length_take]
    omega
  spell_begins {s tag} h := by
    obtain ⟨rest, -, rfl⟩ := Option.map_eq_some_iff.mp h
    exact List.take_prefix _ _

def tokenize (tools : TextTools) (d : EsDoc ι κ) (txt : Text) : EsDoc ι κ :=
  let t := joinAll (fun _ => [' ']) (tableTagMatcher.scan txt).1 (tableTagMatcher.scan txt).2
  { d with
    contentWithWeight := some txt
    contentLtks := some (tools.tokenize t)
    contentSmLtks := some (tools.fineGrainedTokenize (tools.tokenize t)) }

/-- The positions are page, left, right, top and bottom as `int` makes them. -/
def addPositions (d : EsDoc ι κ) (poss : List (ℤ × ℤ × ℤ × ℤ × ℤ)) : EsDoc ι κ :=
  if poss = [] then d
  else
    { d with
      pageNumInt := some (poss.map fun pos => pos.1 + 1)
      positionInt := some (poss.map fun pos => (pos.1 + 1, pos.2))
      topInt := some (poss.map fun pos => pos.2.2.2.1) }

/-- `content_with_weight`, which every document has once it is tokenized. -/
def content (d : EsDoc ι κ) : Text :=
  d.contentWithWeight.getD []

@[simp] theorem content_tokenize (tools : TextTools) (d : EsDoc ι κ) (txt : Text) :
    (d.tokenize tools txt).content = txt := rfl

end EsDoc

/-! ## Splitting -/

/-- The delimiters as alternatives, each escaped; none of them is empty. -/
def escapedPattern (delims : List {d : Text // d ≠ []}) : Matcher Char {d : Text // d ≠ []} where
  at? s := delims.find? fun d => d.1.isPrefixOf s
  spell := Subtype.val
  spell_ne_nil {_ d} _ := d.2
  spell_begins {s d} h := by
    have hbegins := List.find?_some h
    exact List.isPrefixOf_iff_prefix.mp hbegins

/-- The loop over every second part of the text. -/
def joinSegments : List Text → List Text
  | [] => []
  | [txt] => if txt = [] then [] else [txt]
  | txt :: delim :: txts =>
      if txt = [] then joinSegments txts else (txt ++ delim) :: joinSegments txts

/-- A pattern that does not compile splits nothing. -/
def splitWithPattern {τ : Type*} (tools : TextTools) (d : EsDoc ι κ)
    (pattern : Option (Matcher Char τ)) (content : Text) : List (EsDoc ι κ) :=
  match pattern with
  | none => [d.tokenize tools content]
  | some compiled => (joinSegments (compiled.split content)).map (d.tokenize tools)

/-- What `tokenize_chunks` makes of the document for one chunk, and the text that is left of it.
The parser of a PDF crops the image of a chunk, if it can. -/
def cropChunk (crop : Option (Text → Option (Option ι × List (ℤ × ℤ × ℤ × ℤ × ℤ))))
    (doc : EsDoc ι κ) (ii : ℕ) (ck : Text) : EsDoc ι κ × Text :=
  match crop with
  | none => (doc.addPositions [(ii, ii, ii, ii, ii)], ck)
  | some crop =>
    match crop ck with
    | none => (doc, ck)
    | some (image, poss) => ({ doc with image := image }.addPositions poss, removeTag ck)

/-- `tokenize_chunks` -/
def tokenizeChunks {τ : Type*} (tools : TextTools)
    (crop : Option (Text → Option (Option ι × List (ℤ × ℤ × ℤ × ℤ × ℤ))))
    (childDelimitersPattern : Option (Option (Matcher Char τ))) (chunks : List Text)
    (doc : EsDoc ι κ) : List (EsDoc ι κ) :=
  chunks.zipIdx.flatMap fun (ck, ii) =>
    if strip ck = [] then []
    else
      let (d, ck) := cropChunk crop doc ii ck
      match childDelimitersPattern with
      | some pattern => splitWithPattern tools { d with momWithWeight := some ck } pattern ck
      | none => [d.tokenize tools ck]

/-! ## What is lost -/

theorem flatten_joinSegments_sublist (txts : List Text) :
    (joinSegments txts).flatten.Sublist txts.flatten := by
  fun_induction joinSegments txts with
  | case1 => exact List.Sublist.refl _
  | case2 => exact List.nil_sublist _
  | case3 txt => exact List.Sublist.refl _
  | case4 delim txts ih => exact ih.trans (List.sublist_append_right delim _)
  | case5 txt delim txts _ ih =>
      rw [List.flatten_cons, List.flatten_cons, List.flatten_cons, ← List.append_assoc]
      exact ih.append_left _

/-- Texts with delimiters between them stay complete exactly if only the last one may be empty. -/
theorem flatten_joinSegments_eq_iff {τ : Type*} {spell : τ → Text} (hspell : ∀ t, spell t ≠ [])
    (txt : Text) (parts : List (τ × Text)) :
    (joinSegments (txt :: parts.flatMap fun part => [spell part.1, part.2])).flatten =
        (txt :: parts.flatMap fun part => [spell part.1, part.2]).flatten ↔
      (parts ≠ [] → txt ≠ [] ∧ ∀ part ∈ parts.dropLast, part.2 ≠ []) := by
  induction parts generalizing txt with
  | nil => by_cases htxt : txt = [] <;> simp [joinSegments, htxt]
  | cons part parts ih =>
      have hsublist := flatten_joinSegments_sublist
        (part.2 :: parts.flatMap fun part => [spell part.1, part.2])
      have hcons : txt :: (part :: parts).flatMap (fun part => [spell part.1, part.2]) =
          txt :: spell part.1 :: part.2 :: parts.flatMap fun part => [spell part.1, part.2] := rfl
      rw [hcons, joinSegments]
      by_cases htxt : txt = []
      · -- the delimiter is left out with the empty text in front of it
        refine iff_of_false (fun heq => ?_) (fun h => (h (List.cons_ne_nil _ _)).1 htxt)
        have hdelim := List.length_pos_of_ne_nil (hspell part.1)
        have hlength := congrArg List.length heq
        have hle := hsublist.length_le
        rw [if_pos htxt, List.flatten_cons, List.flatten_cons, List.length_append,
          List.length_append] at hlength
        omega
      · rw [if_neg htxt, List.flatten_cons, List.flatten_cons, List.flatten_cons,
          ← List.append_assoc, List.append_cancel_left_eq, ih]
        rcases parts with _ | ⟨next, parts⟩
        · simp [htxt]
        · simp [htxt]

theorem flatten_joinSegments_split {τ : Type*} (m : Matcher Char τ)
    (hspell : ∀ t, m.spell t ≠ []) (content : Text) :
    (joinSegments (m.split content)).flatten = content ↔ m.Apart content := by
  have hflatten := m.flatten_split content
  rw [Matcher.Apart, ← flatten_joinSegments_eq_iff hspell, ← Matcher.split, hflatten]

theorem flatMap_content_splitWithPattern {τ : Type*} (tools : TextTools) (d : EsDoc ι κ)
    (m : Matcher Char τ) (content : Text) :
    (splitWithPattern tools d (some m) content).flatMap EsDoc.content =
      (joinSegments (m.split content)).flatten := by
  rw [splitWithPattern, List.flatMap_map]
  exact List.flatMap_id

/-- The chunks that are cut into child chunks. -/
def parents (crop : Option (Text → Option (Option ι × List (ℤ × ℤ × ℤ × ℤ × ℤ))))
    (doc : EsDoc ι κ) (chunks : List Text) : List Text :=
  (chunks.filter (strip · ≠ [])).map fun ck => (cropChunk crop doc 0 ck).2

theorem cropChunk_text (crop : Option (Text → Option (Option ι × List (ℤ × ℤ × ℤ × ℤ × ℤ))))
    (doc : EsDoc ι κ) (ii : ℕ) (ck : Text) :
    (cropChunk crop doc ii ck).2 = (cropChunk crop doc 0 ck).2 := by
  rcases crop with _ | crop
  · rfl
  · simp only [cropChunk]

theorem flatMap_content_tokenizeChunks {τ : Type*} (tools : TextTools)
    (crop : Option (Text → Option (Option ι × List (ℤ × ℤ × ℤ × ℤ × ℤ))))
    (m : Matcher Char τ) (chunks : List Text) (doc : EsDoc ι κ) :
    (tokenizeChunks tools crop (some (some m)) chunks doc).flatMap EsDoc.content =
      (parents crop doc chunks).flatMap fun parent => (joinSegments (m.split parent)).flatten := by
  have hfrom : ∀ n, ((chunks.zipIdx n).flatMap fun (ck, ii) =>
      (if strip ck = [] then []
        else splitWithPattern tools
          { (cropChunk crop doc ii ck).1 with momWithWeight := some (cropChunk crop doc ii ck).2 }
          (some m) (cropChunk crop doc ii ck).2).flatMap EsDoc.content) =
      (parents crop doc chunks).flatMap fun parent => (joinSegments (m.split parent)).flatten := by
    induction chunks with
    | nil => exact fun n => rfl
    | cons ck chunks ih =>
        intro n
        rw [List.zipIdx_cons, List.flatMap_cons, ih, parents]
        by_cases hblank : strip ck = []
        · simp [hblank, parents]
        · simp only [if_neg hblank, flatMap_content_splitWithPattern, cropChunk_text crop doc n ck]
          simp [hblank, parents]
  rw [tokenizeChunks, List.flatMap_assoc]
  exact hfrom 0

theorem flatMap_eq_iff {α β : Type*} {f : α → List β} {g : α → List β}
    (h : ∀ a, (f a).Sublist (g a)) (l : List α) :
    l.flatMap f = l.flatMap g ↔ ∀ a ∈ l, f a = g a := by
  refine ⟨fun heq => ?_, List.flatMap_congr⟩
  induction l with
  | nil => simp
  | cons a l ih =>
      have hhead := (h a).length_le
      have htail := (List.Sublist.flatMap_right l fun b _ => h b).length_le
      have hlength := congrArg List.length heq
      rw [List.flatMap_cons, List.flatMap_cons] at heq
      rw [List.flatMap_cons, List.flatMap_cons, List.length_append, List.length_append] at hlength
      obtain ⟨ha, hl⟩ := List.append_inj heq (by omega)
      exact List.forall_mem_cons.mpr ⟨ha, ih hl⟩

/-- The child chunks make up their chunk exactly if it does not begin with a delimiter and no
delimiter directly follows another, and those of a document if this holds of all its chunks. -/
theorem childChunks_complete_iff (tools : TextTools)
    (crop : Option (Text → Option (Option ι × List (ℤ × ℤ × ℤ × ℤ × ℤ))))
    (delims : List {d : Text // d ≠ []}) (doc : EsDoc ι κ) :
    (∀ content, (splitWithPattern tools doc (some (escapedPattern delims)) content).flatMap
        EsDoc.content = content ↔ (escapedPattern delims).Apart content) ∧
      ∀ chunks, (tokenizeChunks tools crop (some (some (escapedPattern delims))) chunks doc).flatMap
          EsDoc.content = (parents crop doc chunks).flatten ↔
        ∀ parent ∈ parents crop doc chunks, (escapedPattern delims).Apart parent := by
  have hsplit := flatten_joinSegments_split (escapedPattern delims) Subtype.property
  constructor
  · intro content
    rw [flatMap_content_splitWithPattern, hsplit]
  · intro chunks
    rw [flatMap_content_tokenizeChunks, ← List.flatMap_id', flatMap_eq_iff]
    · simp only [hsplit]
    · intro parent
      have hsublist := flatten_joinSegments_sublist ((escapedPattern delims).split parent)
      rwa [Matcher.flatten_split] at hsublist

/-- The delimiter at the start of a text is lost. -/
theorem not_childChunks_complete :
    ¬ ∀ (tools : TextTools) (doc : EsDoc Unit Unit) (delims : List {d : Text // d ≠ []})
      (content : Text),
      (splitWithPattern tools doc (some (escapedPattern delims)) content).flatMap
        EsDoc.content = content := by
  intro h
  have hlost := h ⟨List.length, id, id⟩ ⟨(), none, none, none, none, none, none, none, none⟩
    [⟨"##".toList, by decide⟩] "##abc".toList
  exact absurd hlost (by decide)

end RagflowMineru.Nlp
