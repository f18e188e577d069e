import RagflowMineru.Nlp.NaiveMerge

/-!
# Merging sections with their images

`naive_merge_with_images` is a copy of `naive_merge` that carries an image along
with each chunk.  Its chunks are those of `naive_merge`, and the image of a chunk is
made of the images of the sections in it.
-/

namespace RagflowMineru.Nlp

attribute [local instance] MinerU.lawfulBEq_letters

/-! ## Images -/

/-- A picture, or the data from which one will be made. -/
inductive DocImage (π β : Type*) where
  | pil (picture : π)
  | lazy (blobs : List β)
  deriving DecidableEq

/-- What an imaging library does: `LazyDocxImage.to_pil`, the comparison of the pixels, and the
picture of two others, one below the other. -/
structure Imaging (π β : Type*) where
  toPil : List β → Option π
  samePixels : π → π → Bool
  stack : π → π → π

variable {π β : Type*}

/-- `bool` -/
def DocImage.truthy : DocImage π β → Bool
  | .pil _ => true
  | .lazy blobs => !blobs.isEmpty

/-- `img if img else None` -/
def truthyImage (img : Option (DocImage π β)) : Option (DocImage π β) :=
  img.filter DocImage.truthy

/-- `ensure_pil_image(img) or img` -/
def ensurePil (im : Imaging π β) : DocImage π β → DocImage π β
  | .pil picture => .pil picture
  | .lazy blobs => match im.toPil blobs with
    | some picture => .pil picture
    | none => .lazy blobs

def isLazyOrNone : Option (DocImage π β) → Bool
  | some (.pil _) => false
  | _ => true

/-- `concat_img`; the outer `none` is an exception. -/
def concatImg (im : Imaging π β) (img₁ img₂ : Option (DocImage π β)) :
    Option (Option (DocImage π β)) :=
  if isLazyOrNone img₁ && isLazyOrNone img₂ then
    match truthyImage img₁, truthyImage img₂ with
    | some a, none => some (some a)
    | none, some b => some (some b)
    | none, none => some none
    | some (.lazy blobs₁), some (.lazy blobs₂) => some (some (.lazy (blobs₁ ++ blobs₂)))
    | some _, some _ => none
  else
    match truthyImage (img₁.map (ensurePil im)), truthyImage (img₂.map (ensurePil im)) with
    | some a, none => some (some a)
    | none, some b => some (some b)
    | none, none => some none
    | some (.pil a), some (.pil b) =>
      some (some (.pil (if im.samePixels a b then a else im.stack a b)))
    | some _, some _ => none -- data of which no picture can be made has no size

/-! ## The merge -/

/-- A text, or a text with a position. -/
inductive TextItem where
  | plain (text : Option Text)
  | tuple (text pos : Option Text)

/-- The section of a text; what is missing or `None` is empty. -/
def TextItem.section : TextItem → Text × Text
  | .plain text => (text.getD [], [])
  | .tuple text pos => (text.getD [], pos.getD [])

/-- `cks` and `tk_nums`, and `result_images`, with the last entry of each apart. -/
structure ImageMerging (π β : Type*) where
  done : List Chunk := []
  last : Chunk := ⟨[], 0⟩
  doneImages : List (Option (DocImage π β)) := []
  lastImage : Option (DocImage π β) := none

def addImageChunk (numTokens : Text → ℕ) (im : Imaging π β) (chunkTokenNum : ℤ)
    (overlappedPercent : ℚ) (st : ImageMerging π β) (t : Text) (image : Option (DocImage π β))
    (pos : Text) : Option (ImageMerging π β) :=
  let tnum := numTokens t
  let pos := if tnum < 8 then [] else pos
  if st.last.text = [] ∨ tokenLimit chunkTokenNum overlappedPercent < st.last.tokens then
    let t := overlapOf overlappedPercent st.last.text ++ t
    some ⟨st.done ++ [st.last], ⟨withTag t t pos, tnum⟩, st.doneImages ++ [st.lastImage], image⟩
  else
    let combined := match st.lastImage with
      | none => some image
      | some last => concatImg im (some last) image
    combined.map fun combined =>
      ⟨st.done, ⟨st.last.text ++ withTag st.last.text t pos, st.last.tokens + tnum⟩,
        st.doneImages, combined⟩

/-- The chunks of a text with delimiters of the user, each with the image of the text. -/
def customImageChunks (numTokens : Text → ℕ) (delims : List Text) (sec : Text × Text)
    (image : Option (DocImage π β)) : List (Text × Option (DocImage π β)) :=
  ((splitKeeping delims sec.1).filter (· ∉ delims)).map fun subSec =>
    let textSeg := '\n' :: subSec
    let localPos := if numTokens textSeg < 8 then [] else sec.2
    (withTag textSeg textSeg localPos, image)

/-- `none` is an exception, which `concat_img` may raise. -/
def naiveMergeWithImages (numTokens : Text → ℕ) (im : Imaging π β) (texts : List TextItem)
    (images : List (Option (DocImage π β))) (chunkTokenNum : ℤ) (delimiter : Text)
    (overlappedPercent : ℚ) : Option (List Text × List (Option (DocImage π β))) :=
  if texts = [] ∨ texts.length ≠ images.length then some ([], [])
  else if customDelimiters delimiter = [] then
    ((texts.zip images).foldlM (fun st item =>
        addImageChunk numTokens im chunkTokenNum overlappedPercent st
          ('\n' :: item.1.section.1) item.2 item.1.section.2) {}).map fun st =>
      ((st.done ++ [st.last]).map Chunk.text, st.doneImages ++ [st.lastImage])
  else
    some (((texts.zip images).flatMap fun item =>
      customImageChunks numTokens (customDelimiters delimiter) item.1.section item.2).unzip)

/-! ## The images of a chunk -/

/-- One more image, unless there was none before. -/
def addImage (im : Imaging π β) (image next : Option (DocImage π β)) :
    Option (Option (DocImage π β)) :=
  match image with
  | none => some next
  | some last => concatImg im (some last) next

/-- Images one after the other, put together. -/
def foldImages (im : Imaging π β) (images : List (Option (DocImage π β))) :
    Option (Option (DocImage π β)) :=
  images.foldlM (addImage im) none

/-- The images of groups of sections, each put together. -/
def foldGroups (im : Imaging π β) (groups : List (List ((Text × Text) × Option (DocImage π β)))) :
    Option (List (Option (DocImage π β))) :=
  groups.mapM fun group => foldImages im (group.map Prod.snd)

/-- The state of a run with images, if the chunks without them are as in `st` and the images of
each group of sections can be put together. -/
def withImages (im : Imaging π β) (st : Merging)
    (groups : List (List ((Text × Text) × Option (DocImage π β))))
    (group : List ((Text × Text) × Option (DocImage π β))) : Option (ImageMerging π β) :=
  (foldGroups im groups).bind fun doneImages =>
    (foldImages im (group.map Prod.snd)).map fun lastImage =>
      ⟨st.done, st.last, doneImages, lastImage⟩

section Steps

variable {numTokens : Text → ℕ} {im : Imaging π β} {chunkTokenNum : ℤ} {overlappedPercent : ℚ}
  {groups : List (List ((Text × Text) × Option (DocImage π β)))}
  {group : List ((Text × Text) × Option (DocImage π β))}

theorem foldImages_concat (images : List (Option (DocImage π β)))
    (image : Option (DocImage π β)) :
    foldImages im (images ++ [image]) =
      (foldImages im images).bind fun last => addImage im last image := by
  rw [foldImages, foldImages, List.foldlM_append]
  rcases images.foldlM (addImage im) none with _ | last
  · rfl
  · simp

theorem foldGroups_concat :
    foldGroups im (groups ++ [group]) = (foldGroups im groups).bind fun images =>
      (foldImages im (group.map Prod.snd)).map fun image => images ++ [image] := by
  rw [foldGroups, List.mapM_append, List.mapM_cons, List.mapM_nil, foldGroups]
  rcases List.mapM (fun group => foldImages im (List.map Prod.snd group)) groups with _ | images
  · rfl
  · rcases foldImages im (group.map Prod.snd) with _ | image <;> rfl

theorem withImages_bind_of_full {st : Merging}
    (hfull : st.Full (tokenLimit chunkTokenNum overlappedPercent)) (sec : Text × Text)
    (image : Option (DocImage π β)) :
    ((withImages im st groups group).bind fun st' =>
        addImageChunk numTokens im chunkTokenNum overlappedPercent st' ('\n' :: sec.1) image
          sec.2) =
      withImages im (addChunk numTokens chunkTokenNum overlappedPercent st ('\n' :: sec.1) sec.2)
        (groups ++ [group]) [(sec, image)] := by
  rw [addChunk_eq_of_full hfull, withImages, withImages, foldGroups_concat]
  rcases foldGroups im groups with _ | doneImages
  · rfl
  · rcases foldImages im (group.map Prod.snd) with _ | lastImage
    · rfl
    · have hadd : addImageChunk numTokens im chunkTokenNum overlappedPercent
            ⟨st.done, st.last, doneImages, lastImage⟩ ('\n' :: sec.1) image sec.2 = _ :=
        if_pos hfull
      rw [Option.bind_some, Option.map_some, Option.bind_some, hadd]
      rfl

theorem withImages_bind_of_not_full {st : Merging}
    (hfull : ¬ st.Full (tokenLimit chunkTokenNum overlappedPercent)) (sec : Text × Text)
    (image : Option (DocImage π β)) :
    ((withImages im st groups group).bind fun st' =>
        addImageChunk numTokens im chunkTokenNum overlappedPercent st' ('\n' :: sec.1) image
          sec.2) =
      withImages im (addChunk numTokens chunkTokenNum overlappedPercent st ('\n' :: sec.1) sec.2)
        groups (group ++ [(sec, image)]) := by
  rw [addChunk_eq_of_not_full hfull, withImages, withImages, List.map_append, List.map_singleton,
    foldImages_concat]
  rcases foldGroups im groups with _ | doneImages
  · rfl
  · rcases foldImages im (group.map Prod.snd) with _ | lastImage
    · rfl
    · have hadd : addImageChunk numTokens im chunkTokenNum overlappedPercent
            ⟨st.done, st.last, doneImages, lastImage⟩ ('\n' :: sec.1) image sec.2 = _ :=
        if_neg hfull
      rw [Option.bind_some, Option.map_some, Option.bind_some, hadd, Option.bind_some,
        Option.bind_some]
      rcases lastImage with _ | last <;> rfl

/-- The sections of the pieces of chunks, and those of groups with images. -/
def SameSections (pieces : List (List Piece)) (last : List Piece)
    (groups : List (List ((Text × Text) × Option (DocImage π β))))
    (group : List ((Text × Text) × Option (DocImage π β))) : Prop :=
  pieces.map (List.map Piece.sec) = groups.map (List.map Prod.fst) ∧
    last.map Piece.sec = group.map Prod.fst

/-- The two copies of the loop go in step. -/
theorem foldlM_addImageChunk (numTokens : Text → ℕ) (im : Imaging π β) (chunkTokenNum : ℤ)
    (overlappedPercent : ℚ) (items : List ((Text × Text) × Option (DocImage π β))) :
    let st := items.foldl (fun st item =>
      addChunk numTokens chunkTokenNum overlappedPercent st ('\n' :: item.1.1) item.1.2) {}
    ∃ pieces last groups group,
      Merges numTokens (tokenLimit chunkTokenNum overlappedPercent) overlappedPercent
        st.done st.last pieces last ∧
      SameSections pieces last groups group ∧ groups.flatten ++ group = items ∧
      items.foldlM (fun st item => addImageChunk numTokens im chunkTokenNum overlappedPercent st
        ('\n' :: item.1.1) item.2 item.1.2) {} = withImages im st groups group := by
  induction items using List.reverseRecOn with
  | nil => exact ⟨[], [], [], [], Merges.start, ⟨rfl, rfl⟩, rfl, rfl⟩
  | append_singleton items item ih =>
    obtain ⟨pieces, last, groups, group, h, ⟨hdone, hlast⟩, hitems, hrun⟩ := ih
    rw [List.foldl_append, List.foldl_cons, List.foldl_nil, List.foldlM_append, hrun]
    simp only [List.foldlM_cons, List.foldlM_nil, bind_pure, Option.bind_eq_bind]
    by_cases hfull : (items.foldl (fun st item =>
        addChunk numTokens chunkTokenNum overlappedPercent st ('\n' :: item.1.1) item.1.2)
          {}).Full (tokenLimit chunkTokenNum overlappedPercent)
    · refine ⟨_, _, groups ++ [group], [item], addChunk_of_full hfull h item.1, ⟨?_, rfl⟩, ?_,
        withImages_bind_of_full hfull item.1 item.2⟩
      · rw [List.map_append, List.map_append, hdone, List.map_singleton, List.map_singleton, hlast]
      · rw [List.flatten_append, List.flatten_singleton, hitems]
    · refine ⟨_, _, groups, group ++ [item], addChunk_of_not_full hfull h item.1, ⟨hdone, ?_⟩, ?_,
        withImages_bind_of_not_full hfull item.1 item.2⟩
      · rw [List.map_append, List.map_append, hlast]
        rfl
      · rw [← List.append_assoc, hitems]

end Steps

/-- The sections, with their images, that are in each chunk: by default the sections in order, as
the chunks were made of them; with delimiters of the user the one that was split. -/
def Sources (numTokens : Text → ℕ) (chunkTokenNum : ℤ) (delimiter : Text) (overlappedPercent : ℚ)
    (items : List ((Text × Text) × Option (DocImage π β))) (cks : List Text)
    (groups : List (List ((Text × Text) × Option (DocImage π β)))) : Prop :=
  if customDelimiters delimiter = [] then
    groups.flatten = items ∧
      (cks = [] ∧ groups = [] ∨ ∃ done last pieces lastPieces,
        cks = (done ++ [last]).map Chunk.text ∧
        Merges numTokens (tokenLimit chunkTokenNum overlappedPercent) overlappedPercent done last
          pieces lastPieces ∧
        groups.map (List.map Prod.fst) = (pieces ++ [lastPieces]).map (List.map Piece.sec))
  else
    cks = items.flatMap (fun item =>
        customChunks numTokens (customDelimiters delimiter) item.1) ∧
      groups = items.flatMap fun item =>
        (customChunks numTokens (customDelimiters delimiter) item.1).map fun _ => [item]

theorem length_of_foldGroups {im : Imaging π β}
    {groups : List (List ((Text × Text) × Option (DocImage π β)))}
    {images : List (Option (DocImage π β))} (h : foldGroups im groups = some images) :
    images.length = groups.length := by
  induction groups generalizing images with
  | nil =>
    obtain rfl := Option.some.inj h
    rfl
  | cons group groups ih =>
    rw [foldGroups, List.mapM_cons] at h
    obtain ⟨image, -, h⟩ := Option.bind_eq_some_iff.mp h
    obtain ⟨rest, hrest, h⟩ := Option.bind_eq_some_iff.mp h
    obtain rfl := Option.some.inj h
    rw [List.length_cons, List.length_cons, ih hrest]

/-- Sections that stand alone keep their images. -/
theorem foldGroups_singletons (im : Imaging π β)
    (items : List ((Text × Text) × Option (DocImage π β))) :
    foldGroups im (items.map fun item => [item]) = some (items.map Prod.snd) := by
  induction items with
  | nil => rfl
  | cons item items ih =>
    rw [foldGroups] at ih
    rw [foldGroups, List.map_cons, List.mapM_cons, ih]
    rfl

theorem customImageChunks_eq (numTokens : Text → ℕ) (delims : List Text) (sec : Text × Text)
    (image : Option (DocImage π β)) :
    customImageChunks numTokens delims sec image =
      (customChunks numTokens delims sec).map fun text => (text, image) := by
  rw [customImageChunks, customChunks, List.map_map]
  rfl

/-- What the two merges have in common: each chunk is made of a group of sections, and the images of
the groups are put together. -/
def MergesAlike (numTokens : Text → ℕ) (im : Imaging π β) (texts : List TextItem)
    (images : List (Option (DocImage π β))) (chunkTokenNum : ℤ) (delimiter : Text)
    (overlappedPercent : ℚ) (cks : List Text) : Prop :=
  ∃ groups, Sources numTokens chunkTokenNum delimiter overlappedPercent
      ((texts.map TextItem.section).zip images) cks groups ∧
    naiveMergeWithImages numTokens im texts images chunkTokenNum delimiter overlappedPercent =
      (foldGroups im groups).map (fun resultImages => (cks, resultImages)) ∧
    groups.length = cks.length

section Alike

variable (numTokens : Text → ℕ) (im : Imaging π β) {texts : List TextItem}
  {images : List (Option (DocImage π β))} (chunkTokenNum : ℤ) {delimiter : Text}
  (overlappedPercent : ℚ)

theorem zip_map_section :
    (texts.map TextItem.section).zip images =
      (texts.zip images).map (Prod.map TextItem.section id) :=
  List.zip_map_left

theorem map_fst_zip_section (hlength : texts.length = images.length) :
    ((texts.map TextItem.section).zip images).map Prod.fst = texts.map TextItem.section :=
  List.map_fst_zip (by rw [List.length_map]; exact hlength.le)

theorem mergesAlike_nil :
    MergesAlike numTokens im [] images chunkTokenNum delimiter overlappedPercent [] := by
  refine ⟨[], ?_, if_pos (Or.inl rfl), rfl⟩
  rw [Sources, List.map_nil, List.zip_nil_left]
  split_ifs
  · exact ⟨rfl, Or.inl ⟨rfl, rfl⟩⟩
  · exact ⟨rfl, rfl⟩

theorem mergesAlike_default (hlength : texts.length = images.length) (htexts : texts ≠ [])
    (hdelims : customDelimiters delimiter = []) :
    MergesAlike numTokens im texts images chunkTokenNum delimiter overlappedPercent
      ((texts.map TextItem.section).foldl (fun st sec =>
        addChunk numTokens chunkTokenNum overlappedPercent st ('\n' :: sec.1) sec.2) {}).cks := by
  obtain ⟨pieces, last, groups, group, hmerges, ⟨hpieces, hlast⟩, hitems, hrun⟩ :=
    foldlM_addImageChunk numTokens im chunkTokenNum overlappedPercent
      ((texts.map TextItem.section).zip images)
  have hsame : (groups ++ [group]).map (List.map Prod.fst) =
      (pieces ++ [last]).map (List.map Piece.sec) := by
    rw [List.map_append, List.map_append, hpieces, List.map_singleton, List.map_singleton, hlast]
  rw [← map_fst_zip_section hlength, List.foldl_map]
  refine ⟨groups ++ [group], ?_, ?_, ?_⟩
  · rw [Sources, if_pos hdelims, List.flatten_append, List.flatten_singleton]
    exact ⟨hitems, Or.inr ⟨_, _, pieces, last, rfl, hmerges, hsame⟩⟩
  · rw [zip_map_section, List.foldlM_map] at hrun
    have hrun' : (texts.zip images).foldlM (fun st item =>
        addImageChunk numTokens im chunkTokenNum overlappedPercent st
          ('\n' :: item.1.section.1) item.2 item.1.section.2) {} = _ := hrun
    rw [naiveMergeWithImages, if_neg (not_or.mpr ⟨htexts, not_not.mpr hlength⟩), if_pos hdelims,
      hrun', ← zip_map_section, withImages, foldGroups_concat]
    rcases foldGroups im groups with _ | doneImages
    · rfl
    · rcases foldImages im (group.map Prod.snd) with _ | lastImage <;> rfl
  · have hlengths := congrArg List.length hsame
    rw [List.length_map, List.length_map] at hlengths
    rw [hlengths, Merging.cks, List.length_map, List.length_append, List.length_append,
      hmerges.length_eq]
    rfl

theorem mergesAlike_custom (hlength : texts.length = images.length) (htexts : texts ≠ [])
    (hdelims : customDelimiters delimiter ≠ []) :
    MergesAlike numTokens im texts images chunkTokenNum delimiter overlappedPercent
      ((texts.map TextItem.section).flatMap
        (customChunks numTokens (customDelimiters delimiter))) := by
  -- the section of each part, alone
  have hsingle : (((texts.map TextItem.section).zip images).flatMap fun item =>
      (customChunks numTokens (customDelimiters delimiter) item.1).map fun _ => [item]) =
      (((texts.map TextItem.section).zip images).flatMap fun item =>
        (customChunks numTokens (customDelimiters delimiter) item.1).map fun _ => item).map
          fun item => [item] := by
    rw [List.map_flatMap]
    simp
  rw [← map_fst_zip_section hlength, List.flatMap_map]
  refine ⟨_, by rw [Sources, if_neg hdelims]; exact ⟨rfl, rfl⟩, ?_, ?_⟩
  · rw [naiveMergeWithImages, if_neg (not_or.mpr ⟨htexts, not_not.mpr hlength⟩), if_neg hdelims,
      hsingle, foldGroups_singletons, Option.map_some, List.unzip_eq_map, zip_map_section]
    simp [customImageChunks_eq, List.flatMap_map, List.map_flatMap, Function.comp_def]
  · simp [List.length_flatMap]

end Alike

/-- The chunks are those of `naive_merge`, and there is an image for each: the images of the
sections in the chunk, put together one after the other. -/
theorem naiveMergeWithImages_eq (numTokens : Text → ℕ) (im : Imaging π β)
    {texts : List TextItem} {images : List (Option (DocImage π β))}
    (hlength : texts.length = images.length) (chunkTokenNum : ℤ) (delimiter : Text)
    (overlappedPercent : ℚ) :
    let sections := texts.map TextItem.section
    let cks := naiveMerge numTokens (.tuples sections) chunkTokenNum delimiter overlappedPercent
    ∃ groups, Sources numTokens chunkTokenNum delimiter overlappedPercent (sections.zip images)
        cks groups ∧
      naiveMergeWithImages numTokens im texts images chunkTokenNum delimiter overlappedPercent =
        (foldGroups im groups).map (fun resultImages => (cks, resultImages)) ∧
      groups.length = cks.length ∧
      ∀ resultImages, foldGroups im groups = some resultImages →
        resultImages.length = cks.length := by
  intro sections cks
  have halike : MergesAlike numTokens im texts images chunkTokenNum delimiter overlappedPercent
      cks := by
    by_cases htexts : texts = []
    · subst htexts
      exact mergesAlike_nil numTokens im chunkTokenNum overlappedPercent
    have hsections : sections ≠ [] := by
      rw [ne_eq, List.map_eq_nil_iff]
      exact htexts
    by_cases hdelims : customDelimiters delimiter = []
    · have hcks : cks = _ := (if_neg hsections).trans (if_pos hdelims)
      rw [hcks]
      exact mergesAlike_default numTokens im chunkTokenNum overlappedPercent hlength htexts hdelims
    · have hcks : cks = _ := (if_neg hsections).trans (if_neg hdelims)
      rw [hcks]
      exact mergesAlike_custom numTokens im chunkTokenNum overlappedPercent hlength htexts hdelims
  obtain ⟨groups, hsources, hresult, hgroups⟩ := halike
  exact ⟨groups, hsources, hresult, hgroups, fun _ hfold =>
    (length_of_foldGroups hfold).trans hgroups⟩

/-- Pictures as lists of rows, one below the other. -/
def rowImaging : Imaging (List ℕ) (List ℕ) where
  toPil blobs := if blobs = [] then none else some blobs.flatten
  samePixels a b := a = b
  stack a b := a ++ b

theorem naiveMergeWithImages_eq_two :
    let sections := [TextItem.tuple (some "ab".toList) none, .plain (some "c".toList)].map
      TextItem.section
    let images : List (Option (DocImage (List ℕ) (List ℕ))) :=
      [some (.pil [1]), some (.lazy [[2], [3]])]
    let cks := naiveMerge List.length (.tuples sections) 16 "\n".toList 0
    ∃ groups, Sources List.length 16 "\n".toList 0 (sections.zip images) cks groups ∧
      naiveMergeWithImages List.length rowImaging
          [.tuple (some "ab".toList) none, .plain (some "c".toList)] images 16 "\n".toList 0 =
        (foldGroups rowImaging groups).map (fun resultImages => (cks, resultImages)) ∧
      groups.length = cks.length ∧
      ∀ resultImages, foldGroups rowImaging groups = some resultImages →
        resultImages.length = cks.length :=
  naiveMergeWithImages_eq List.length rowImaging rfl 16 _ 0

end RagflowMineru.Nlp
