import Mathlib.Algebra.Order.BigOperators.Group.List
import RagflowMineru.Library.Substitute

/-!
# Blocks of an HTML page

The texts of a page come with the innermost block element that they stand in, and texts of the
same element are put together.  A text outside of every such element is added to what has been
collected; where nothing is known of an element yet, what was collected is dropped when the first
one begins.
-/

namespace RagflowMineru.Deepdoc

open Library

variable {ι : Type}

/-- What `read_text_recursively` finds: a text is not empty. -/
structure HtmlItem (ι : Type) where
  content : List Char
  content_ne_nil : content ≠ []
  tagName : List Char
  blockId : Option ι

/-- `TITLE_TAGS`. -/
def titleTag (tagName : List Char) : Option (List Char) :=
  if tagName = "h1".toList then some "#".toList
  else if tagName = "h2".toList then some "##".toList
  else if tagName = "h3".toList then some "###".toList
  else if tagName = "h4".toList then some "#####".toList
  else if tagName = "h5".toList then some "#####".toList
  else if tagName = "h6".toList then some "######".toList
  else none

namespace HtmlItem

variable (item : HtmlItem ι)

/-- An item outside of every block that is a table. -/
def isTable : Bool := item.blockId.isNone && item.tagName = "table".toList

/-- The content with the mark of its title. -/
def shown : List Char :=
  match item.blockId, titleTag item.tagName with
  | some _, some mark => mark ++ ' ' :: item.content
  | _, _ => item.content

end HtmlItem

structure BlockMerge (ι : Type) where
  blockContent : List (List Char) := []
  currentContent : List Char := []
  tableInfoList : List (HtmlItem ι) := []
  lastBlockId : Option ι := none

/-- `current_content += (" " if current_content else "") + content` -/
def addContent (current content : List Char) : List Char :=
  current ++ (if current ≠ [] then [' '] else []) ++ content

variable [DecidableEq ι]

/-- One turn of the loop of `merge_block_text`. -/
def mergeItem (st : BlockMerge ι) (item : HtmlItem ι) : BlockMerge ι :=
  match item.blockId with
  | some blockId =>
      if st.lastBlockId ≠ some blockId then
        { st with
          blockContent := if st.lastBlockId ≠ none then st.blockContent ++ [st.currentContent]
            else st.blockContent
          currentContent := item.shown
          lastBlockId := some blockId }
      else { st with currentContent := addContent st.currentContent item.shown }
  | none =>
      if item.tagName = "table".toList then
        { st with tableInfoList := st.tableInfoList ++ [item] }
      else { st with currentContent := addContent st.currentContent item.shown }

/-- `merge_block_text`. -/
def mergeBlockText (parserResult : List (HtmlItem ι)) : List (List Char) × List (HtmlItem ι) :=
  let st := parserResult.foldl mergeItem {}
  (if st.currentContent ≠ [] then st.blockContent ++ [st.currentContent] else st.blockContent,
    st.tableInfoList)

/-- The items of a block, joined. -/
def blockText (group : List (HtmlItem ι)) : List Char :=
  [' '].intercalate (group.map HtmlItem.shown)

/-- All that is known of the blocks of the items is the same. -/
def SameBlock (group : List (HtmlItem ι)) : Prop :=
  ∀ i ∈ group, ∀ j ∈ group, ∀ a b, i.blockId = some a → j.blockId = some b → a = b

/-- The texts are cut into groups of one block, and the tables stand apart. -/
def KeepsTexts (parserResult : List (HtmlItem ι)) : Prop :=
  (∃ groups : List (List (HtmlItem ι)),
    groups.flatten = (parserResult.filter fun item => !item.isTable) ∧
      (∀ g ∈ groups, g ≠ [] ∧ SameBlock g) ∧
      (mergeBlockText parserResult).1 = groups.map blockText) ∧
    (mergeBlockText parserResult).2 = parserResult.filter HtmlItem.isTable

/-! ## The texts of a run -/

section Blocks

omit [DecidableEq ι]

theorem intercalate_concat {α : Type} (sep : List α) {ls : List (List α)} (hls : ls ≠ [])
    (l : List α) : sep.intercalate (ls ++ [l]) = sep.intercalate ls ++ sep ++ l := by
  induction ls with
  | nil => exact absurd rfl hls
  | cons l' ls ih =>
      rcases ls with _ | ⟨l'', ls⟩
      · simp
      · rw [List.cons_append, List.cons_append, List.intercalate_cons_cons, ← List.cons_append,
          ih (List.cons_ne_nil _ _), List.intercalate_cons_cons]
        simp

theorem HtmlItem.shown_ne_nil (item : HtmlItem ι) : item.shown ≠ [] := by
  unfold HtmlItem.shown
  split
  · simp
  · exact item.content_ne_nil

theorem blockText_eq_nil_iff {group : List (HtmlItem ι)} : blockText group = [] ↔ group = [] := by
  rcases group with _ | ⟨item, group⟩
  · simp [blockText]
  · have hne := item.shown_ne_nil
    rcases group with _ | ⟨item', group⟩ <;> simp [blockText, hne]

theorem addContent_blockText (group : List (HtmlItem ι)) (item : HtmlItem ι) :
    addContent (blockText group) item.shown = blockText (group ++ [item]) := by
  by_cases hgroup : group = []
  · subst hgroup
    simp [addContent, blockText]
  · rw [addContent, if_pos (by rwa [ne_eq, blockText_eq_nil_iff]), blockText, blockText,
      List.map_append, List.map_singleton, intercalate_concat _ (by simpa using hgroup)]

/-- The texts from the first one with a block on, or all of them if there is none. -/
def keptTexts (texts : List (HtmlItem ι)) : List (HtmlItem ι) :=
  if texts.all fun item => item.blockId.isNone then texts
  else texts.dropWhile fun item => item.blockId.isNone

theorem SameBlock.of_forall {group : List (HtmlItem ι)} {a : ι}
    (h : ∀ item ∈ group, item.blockId = none ∨ item.blockId = some a) : SameBlock group := by
  intro i hi j hj b c hb hc
  rcases h i hi with hnone | ha
  · rw [hnone] at hb
    cases hb
  · rcases h j hj with hnone | ha'
    · rw [hnone] at hc
      cases hc
    · rw [ha] at hb
      rw [ha'] at hc
      exact (Option.some.inj hb).symm.trans (Option.some.inj hc)

/-- What has been collected of the texts: all of them, as long as no block is known, and the ones
from the first known block on afterwards. -/
inductive Collected (texts : List (HtmlItem ι)) (st : BlockMerge ι) : Prop
  | unknown (hlast : st.lastBlockId = none) (hblocks : st.blockContent = [])
      (hcurrent : st.currentContent = blockText texts)
      (hnone : ∀ item ∈ texts, item.blockId = none)
  | known (a : ι) (lost : List (HtmlItem ι)) (groups : List (List (HtmlItem ι)))
      (current : List (HtmlItem ι)) (hlast : st.lastBlockId = some a)
      (htexts : texts = lost ++ (groups.flatten ++ current))
      (hlost : ∀ item ∈ lost, item.blockId = none)
      (hfirst : ∀ item ∈ (groups.flatten ++ current).head?, item.blockId ≠ none)
      (hblocks : st.blockContent = groups.map blockText)
      (hcurrent : st.currentContent = blockText current) (hne : current ≠ [])
      (hgroups : ∀ g ∈ groups, g ≠ [] ∧ SameBlock g)
      (hsame : ∀ item ∈ current, item.blockId = none ∨ item.blockId = some a)

theorem keptTexts_of_known {lost kept : List (HtmlItem ι)}
    (hlost : ∀ item ∈ lost, item.blockId = none)
    (hfirst : ∀ item ∈ kept.head?, item.blockId ≠ none) (hne : kept ≠ []) :
    keptTexts (lost ++ kept) = kept := by
  obtain ⟨first, rest, rfl⟩ := List.exists_cons_of_ne_nil hne
  have hknown : first.blockId.isNone = false := by
    simpa [Option.isSome_iff_ne_none] using hfirst first rfl
  have hnot : ¬ ((lost ++ first :: rest).all fun item => item.blockId.isNone) = true := by
    simp [hknown]
  rw [keptTexts, if_neg hnot, List.dropWhile_append_of_pos fun item hitem => by
      simp [hlost item hitem],
    List.dropWhile_cons_of_neg (by simp [hknown])]

end Blocks

section Run

variable {texts : List (HtmlItem ι)} {st : BlockMerge ι} {item : HtmlItem ι}

theorem mergeItem_of_some {b : ι} (hblock : item.blockId = some b) :
    mergeItem st item =
      if st.lastBlockId ≠ some b then
        { st with
          blockContent := if st.lastBlockId ≠ none then st.blockContent ++ [st.currentContent]
            else st.blockContent
          currentContent := item.shown
          lastBlockId := some b }
      else { st with currentContent := addContent st.currentContent item.shown } := by
  rw [mergeItem, hblock]

/-- A text without a block goes to what is being collected. -/
theorem Collected.mergeItem_none (h : Collected texts st) (hblock : item.blockId = none)
    (htable : item.tagName ≠ "table".toList) : Collected (texts ++ [item]) (mergeItem st item) := by
  have hmerge : mergeItem st item =
      { st with currentContent := addContent st.currentContent item.shown } := by
    rw [mergeItem, hblock]
    exact if_neg htable
  rw [hmerge]
  cases h with
  | unknown hlast hblocks hcurrent hnone =>
      refine .unknown hlast hblocks ?_ ?_
      · exact (congrArg (addContent · item.shown) hcurrent).trans (addContent_blockText texts item)
      · intro i hi
        rcases List.mem_append.mp hi with hi | hi
        · exact hnone i hi
        · rwa [List.mem_singleton.mp hi]
  | known a lost groups current hlast htexts hlost hfirst hblocks hcurrent hne hgroups hsame =>
      refine .known a lost groups (current ++ [item]) hlast ?_ hlost ?_ hblocks ?_ ?_ hgroups ?_
      · rw [htexts, List.append_assoc, List.append_assoc]
      · rwa [← List.append_assoc,
          List.head?_append_of_ne_nil _ (List.append_ne_nil_of_right_ne_nil _ hne)]
      · exact (congrArg (addContent · item.shown) hcurrent).trans (addContent_blockText _ item)
      · exact List.append_ne_nil_of_left_ne_nil hne _
      · intro i hi
        rcases List.mem_append.mp hi with hi | hi
        · exact hsame i hi
        · rw [List.mem_singleton.mp hi]
          exact Or.inl hblock

/-- A text of a block is added to the texts of the same block, or begins a new one. -/
theorem Collected.mergeItem_some {b : ι} (h : Collected texts st) (hblock : item.blockId = some b) :
    Collected (texts ++ [item]) (mergeItem st item) := by
  have hsingle : ∀ i ∈ [item], i.blockId = none ∨ i.blockId = some b := fun i hi => by
    rw [List.mem_singleton.mp hi]
    exact Or.inr hblock
  have hshown : item.shown = blockText [item] := by simp [blockText]
  have hmerge := @mergeItem_of_some ι _ st item b hblock
  cases h with
  | unknown hlast hblocks hcurrent hnone =>
      rw [hlast, if_pos (Option.some_ne_none b).symm] at hmerge
      rw [hmerge]
      refine .known b texts [] [item] rfl rfl hnone ?_ ?_ hshown (List.cons_ne_nil _ _) ?_ hsingle
      · rintro i hi
        obtain rfl := Option.some.inj hi
        rw [hblock]
        exact Option.some_ne_none b
      · exact hblocks
      · exact fun g hg => absurd hg List.not_mem_nil
  | known a lost groups current hlast htexts hlost hfirst hblocks hcurrent hne hgroups hsame =>
      have hhead : ∀ i ∈ (groups.flatten ++ current ++ [item]).head?, i.blockId ≠ none := by
        rwa [List.head?_append_of_ne_nil _ (List.append_ne_nil_of_right_ne_nil _ hne)]
      have htexts' : texts ++ [item] = lost ++ (groups.flatten ++ current ++ [item]) := by
        rw [htexts, List.append_assoc]
      rw [hlast] at hmerge
      by_cases hab : a = b
      · subst hab
        rw [if_neg (not_not.mpr rfl)] at hmerge
        rw [hmerge]
        rw [List.append_assoc] at hhead htexts'
        refine .known a lost groups (current ++ [item]) rfl htexts' hlost hhead hblocks ?_ ?_
          hgroups ?_
        · exact (congrArg (addContent · item.shown) hcurrent).trans (addContent_blockText _ item)
        · exact List.append_ne_nil_of_left_ne_nil hne _
        · intro i hi
          exact (List.mem_append.mp hi).elim (hsame i) (hsingle i)
      · have hneq : some a ≠ some b := fun heq => hab (Option.some.inj heq)
        rw [if_pos hneq] at hmerge
        rw [hmerge]
        have hflatten : (groups ++ [current]).flatten = groups.flatten ++ current := by simp
        rw [← hflatten] at hhead htexts'
        refine .known b lost (groups ++ [current]) [item] rfl htexts' hlost hhead ?_ hshown
          (List.cons_ne_nil _ _) ?_ hsingle
        · rw [List.map_append, ← hblocks, List.map_singleton, ← hcurrent]
          rfl
        · intro g hg
          rcases List.mem_append.mp hg with hg | hg
          · exact hgroups g hg
          · rw [List.mem_singleton.mp hg]
            exact ⟨hne, .of_forall hsame⟩

theorem Collected.mergeItem_text (h : Collected texts st) (htext : item.isTable = false) :
    Collected (texts ++ [item]) (mergeItem st item) := by
  rcases hblock : item.blockId with _ | b
  · refine h.mergeItem_none hblock fun htable => ?_
    rw [HtmlItem.isTable, hblock, htable] at htext
    simp at htext
  · exact h.mergeItem_some hblock

/-- A table changes nothing of what is being collected. -/
theorem mergeItem_table (htable : item.isTable = true) :
    mergeItem st item = { st with tableInfoList := st.tableInfoList ++ [item] } := by
  simp only [HtmlItem.isTable, Bool.and_eq_true, Option.isNone_iff_eq_none, decide_eq_true_eq]
    at htable
  rw [mergeItem, htable.1]
  exact if_pos htable.2

omit [DecidableEq ι] in
theorem Collected.tableInfoList (h : Collected texts st) (tables : List (HtmlItem ι)) :
    Collected texts { st with tableInfoList := tables } := by
  cases h with
  | unknown hlast hblocks hcurrent hnone => exact .unknown hlast hblocks hcurrent hnone
  | known a lost groups current hlast htexts hlost hfirst hblocks hcurrent hne hgroups hsame =>
      exact .known a lost groups current hlast htexts hlost hfirst hblocks hcurrent hne hgroups
        hsame

theorem tableInfoList_mergeItem (htext : item.isTable = false) :
    (mergeItem st item).tableInfoList = st.tableInfoList := by
  rcases hblock : item.blockId with _ | b
  · simp only [HtmlItem.isTable, hblock, Option.isNone_none, Bool.true_and,
      decide_eq_false_iff_not] at htext
    simp only [mergeItem, hblock, if_neg htext]
  · simp only [mergeItem, hblock]
    split_ifs <;> rfl

theorem collected_foldl (items : List (HtmlItem ι)) (h : Collected texts st) :
    Collected (texts ++ items.filter fun item => !item.isTable) (items.foldl mergeItem st) ∧
      (items.foldl mergeItem st).tableInfoList =
        st.tableInfoList ++ items.filter HtmlItem.isTable := by
  induction items generalizing texts st with
  | nil => simpa using h
  | cons item items ih =>
      rw [List.foldl_cons, List.filter_cons, List.filter_cons]
      cases hitem : item.isTable with
      | true =>
          rw [mergeItem_table hitem]
          obtain ⟨hcollected, htables⟩ := ih (h.tableInfoList (st.tableInfoList ++ [item]))
          refine ⟨by simpa using hcollected, ?_⟩
          rw [htables, List.append_assoc]
          simp
      | false =>
          obtain ⟨hcollected, htables⟩ := ih (h.mergeItem_text hitem)
          rw [tableInfoList_mergeItem hitem] at htables
          rw [List.append_assoc] at hcollected
          exact ⟨by simpa using hcollected, by simpa using htables⟩

/-- The blocks are made of the texts that are kept, and the tables are all there. -/
theorem mergeBlockText_eq (items : List (HtmlItem ι)) :
    (∃ groups : List (List (HtmlItem ι)),
      groups.flatten = keptTexts (items.filter fun item => !item.isTable) ∧
        (∀ g ∈ groups, g ≠ [] ∧ SameBlock g) ∧
        (mergeBlockText items).1 = groups.map blockText) ∧
      (mergeBlockText items).2 = items.filter HtmlItem.isTable := by
  have hstart : Collected [] ({} : BlockMerge ι) :=
    .unknown rfl rfl rfl fun item hitem => absurd hitem List.not_mem_nil
  obtain ⟨hcollected, htables⟩ := collected_foldl items hstart
  rw [List.nil_append] at hcollected htables
  refine ⟨?_, htables⟩
  rw [mergeBlockText]
  generalize items.filter (fun item => !item.isTable) = texts at hcollected
  generalize items.foldl mergeItem {} = st at hcollected
  cases hcollected with
  | unknown hlast hblocks hcurrent hnone =>
      have hkept : keptTexts texts = texts :=
        if_pos (List.all_eq_true.mpr fun item hitem => by simp [hnone item hitem])
      rw [hkept]
      by_cases htexts : texts = []
      · refine ⟨[], htexts.symm, fun g hg => absurd hg List.not_mem_nil, ?_⟩
        have hempty : st.currentContent = [] := hcurrent.trans (blockText_eq_nil_iff.mpr htexts)
        simp [hempty, hblocks]
      · have hne : st.currentContent ≠ [] := by
          rw [hcurrent]
          exact fun h => htexts (blockText_eq_nil_iff.mp h)
        have hsame : SameBlock texts := by
          intro i hi j hj a b ha
          rw [hnone i hi] at ha
          cases ha
        refine ⟨[texts], by simp, ?_, ?_⟩
        · rintro g hg
          rw [List.mem_singleton.mp hg]
          exact ⟨htexts, hsame⟩
        · rw [if_pos hne, hblocks, hcurrent]
          rfl
  | known a lost groups current hlast htexts hlost hfirst hblocks hcurrent hne hgroups hsame =>
      have hkept := keptTexts_of_known hlost hfirst (List.append_ne_nil_of_right_ne_nil _ hne)
      have hcontent : st.currentContent ≠ [] := by
        rw [hcurrent]
        exact fun h => hne (blockText_eq_nil_iff.mp h)
      rw [htexts, hkept]
      refine ⟨groups ++ [current], by simp, ?_, ?_⟩
      · intro g hg
        rcases List.mem_append.mp hg with hg | hg
        · exact hgroups g hg
        · rw [List.mem_singleton.mp hg]
          exact ⟨hne, .of_forall hsame⟩
      · rw [if_pos hcontent, hblocks, hcurrent, List.map_append, List.map_singleton]

end Run

/-! ## What is lost -/

section Lost

omit [DecidableEq ι]

/-- The letters of a block and one more are those of its texts and one more for each. -/
theorem length_blockText {group : List (HtmlItem ι)} (hne : group ≠ []) :
    (blockText group).length + 1 = (group.map fun item => item.shown.length + 1).sum := by
  rw [blockText, length_intercalate, List.length_map, List.length_singleton, List.map_map, mul_one]
  obtain ⟨item, group, rfl⟩ := List.exists_cons_of_ne_nil hne
  simp [List.sum_map_add, Function.comp_def]
  omega

theorem sum_length_blockText {groups : List (List (HtmlItem ι))} (hne : ∀ g ∈ groups, g ≠ []) :
    ((groups.map blockText).map fun b => b.length + 1).sum =
      (groups.flatten.map fun item => item.shown.length + 1).sum := by
  induction groups with
  | nil => rfl
  | cons g groups ih =>
      obtain ⟨hg, hgroups⟩ := List.forall_mem_cons.mp hne
      simp only [List.map_cons, List.sum_cons, List.flatten_cons, List.map_append, List.sum_append,
        ih hgroups, length_blockText hg]

theorem keptTexts_eq_self {texts : List (HtmlItem ι)}
    (h : ∀ first ∈ texts.head?, first.blockId = none → ∀ item ∈ texts, item.blockId = none) :
    keptTexts texts = texts := by
  rw [keptTexts]
  split_ifs with hall
  · rfl
  rcases texts with _ | ⟨first, texts⟩
  · rfl
  · refine List.dropWhile_cons_of_neg fun hfirst => hall (List.all_eq_true.mpr fun item hitem => ?_)
    rw [h first rfl (Option.isNone_iff_eq_none.mp hfirst) item hitem]
    rfl

/-- Texts in front of the first known block make up a part of the letters. -/
theorem sum_keptTexts_lt {first : HtmlItem ι} {texts : List (HtmlItem ι)}
    (hfirst : first.blockId = none) (hknown : ∃ item ∈ texts, item.blockId ≠ none) :
    ((keptTexts (first :: texts)).map fun item => item.shown.length + 1).sum <
      ((first :: texts).map fun item => item.shown.length + 1).sum := by
  obtain ⟨item, hitem, hknown⟩ := hknown
  have hnot : ¬ ((first :: texts).all fun item => item.blockId.isNone) = true := by
    intro hall
    have hnone := List.all_eq_true.mp hall item (List.mem_cons_of_mem _ hitem)
    exact hknown (Option.isNone_iff_eq_none.mp hnone)
  have hdrop := List.dropWhile_suffix (l := texts) fun item : HtmlItem ι => item.blockId.isNone
  have hle := (hdrop.sublist.map fun item => item.shown.length + 1).sum_le_sum
    fun _ _ => Nat.zero_le _
  rw [keptTexts, if_neg hnot, List.dropWhile_cons_of_pos (by simp [hfirst]), List.map_cons,
    List.sum_cons]
  omega

end Lost

/-- No text is lost, if and only if the first one stands in a block or none does. -/
theorem keepsTexts_iff (items : List (HtmlItem ι)) :
    KeepsTexts items ↔
      ∀ first ∈ (items.filter fun item => !item.isTable).head?, first.blockId = none →
        ∀ item ∈ items.filter fun item => !item.isTable, item.blockId = none := by
  obtain ⟨⟨groups, hflatten, hgroups, hblocks⟩, htables⟩ := mergeBlockText_eq items
  constructor
  · rintro ⟨⟨groups', hflatten', hgroups', hblocks'⟩, -⟩ first hfirst hnone item hitem
    by_contra hknown
    have hsum := sum_length_blockText fun g hg => (hgroups g hg).1
    have hsum' := sum_length_blockText fun g hg => (hgroups' g hg).1
    rw [← hblocks, hflatten] at hsum
    rw [← hblocks', hflatten', hsum] at hsum'
    obtain ⟨texts, htexts⟩ := List.head?_eq_some_iff.mp hfirst
    rw [htexts] at hsum' hitem
    rcases List.mem_cons.mp hitem with rfl | hitem
    · exact hknown hnone
    · exact absurd hsum' (sum_keptTexts_lt hnone ⟨item, hitem, hknown⟩).ne
  · intro h
    rw [keptTexts_eq_self h] at hflatten
    exact ⟨⟨groups, hflatten, hgroups, hblocks⟩, htables⟩

/-- `intro<p>para</p>` -/
def introAndPara : List (HtmlItem ℕ) :=
  [⟨"intro".toList, by decide, "body".toList, none⟩, ⟨"para".toList, by decide, "p".toList, some 1⟩]

/-- The text in front of the first block is lost. -/
theorem not_keepsTexts_introAndPara : ¬ ∀ items : List (HtmlItem ℕ), KeepsTexts items := by
  intro h
  obtain ⟨⟨groups, hflatten, hgroups, hblocks⟩, -⟩ := h introAndPara
  have hlen := sum_length_blockText fun g hg => (hgroups g hg).1
  rw [hflatten, ← hblocks] at hlen
  exact absurd hlen (by decide)

end RagflowMineru.Deepdoc
