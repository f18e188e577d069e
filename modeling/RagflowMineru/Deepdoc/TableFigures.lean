import RagflowMineru.Deepdoc.TextMerge
import RagflowMineru.Library.Grouping
import Mathlib.Tactic.Abel

/-!
# Tables and figures

The boxes of tables and figures are taken out of the running text, table by table, and parts of a
table on two pages are joined.  A caption is then taken out too and put in front of the table or
figure that is nearest.  It is taken out before anybody asks whether there was one.
-/

namespace RagflowMineru.Deepdoc

open Library
open MinerU (strip)

attribute [local instance] MinerU.lawfulBEq_letters

abbrev LoutNo := List Char

namespace TextBox

/-- `_x_dis` -/
def xDis (a b : TextBox) : ℚ :=
  min (min |a.x1 - b.x0| |a.x0 - b.x1|) (|a.x0 + a.x1 - b.x0 - b.x1| / 2)

def xOverlapped (a b : TextBox) : Bool := !(a.x1 < b.x0 || a.x0 > b.x1)

/-- `b.get("layout_type", "").find("caption") >= 0` -/
def hasCaptionType (b : TextBox) : Bool := "caption".toList <:+: b.layoutType

/-- `is_caption`; the pattern is `[图表]+[ 0-9:：]{2,}`. -/
def isCaption (b : TextBox) : Bool :=
  let text := strip b.text
  let rest := text.dropWhile (isOneOf "图表")
  (rest.length < text.length && 2 ≤ (rest.takeWhile (isOneOf " 0123456789:：")).length) ||
    b.hasCaptionType

end TextBox

/-- The text behind words of `(数据|资料|图表)*`. -/
def dropSourceWords : List Char → List Char
  | a :: b :: text =>
      if [a, b] ∈ ["数据".toList, "资料".toList, "图表".toList] then dropSourceWords text
      else a :: b :: text
  | text => text

/-- `re.match(r"(数据|资料|图表)*来源[:： ]", text)` -/
def isSourceNote (text : List Char) : Bool :=
  match dropSourceWords text with
  | a :: b :: c :: _ => [a, b] = "来源".toList && isOneOf ":： " c
  | _ => false

/-- What becomes of a box. -/
inductive BoxRole where
  | running | note | table | figure
  deriving DecidableEq

def boxRole (needImage : Bool) (b : TextBox) : BoxRole :=
  match b.layout with
  | none => .running
  | some tag =>
      if tag.type = "table".toList then if isSourceNote b.text then .note else .table
      else if needImage ∧ tag.type = "figure".toList then
        if isSourceNote b.text then .note else .figure
      else .running

def loutNo (b : TextBox) : LoutNo :=
  (toString (b.pageNumber : ℕ)).toList ++ '-' :: b.layoutno.getD []

/-- The state of the loop that takes tables and figures out. -/
structure TakenOut where
  boxes : List TextBox
  tables : Groups LoutNo TextBox
  figures : Groups LoutNo TextBox
  lstLoutNo : LoutNo
  nomergeLoutNo : List LoutNo

def collectStep (needImage : Bool) (st : TakenOut) (b : TextBox) : TakenOut :=
  let nomerge :=
    if b.layout.isSome ∧ (b.isCaption ∨ b.layoutType ∈
        ["table caption".toList, "title".toList, "figure caption".toList, "reference".toList]) then
      st.nomergeLoutNo ++ [st.lstLoutNo]
    else st.nomergeLoutNo
  match boxRole needImage b with
  | .running => { st with boxes := st.boxes ++ [b], nomergeLoutNo := nomerge }
  | .note => { st with nomergeLoutNo := nomerge }
  | .table =>
      { st with
        tables := st.tables.add (loutNo b) b, lstLoutNo := loutNo b, nomergeLoutNo := nomerge }
  | .figure =>
      { st with
        figures := st.figures.add (loutNo b) b, lstLoutNo := loutNo b, nomergeLoutNo := nomerge }

/-- The loop over all boxes; a cursor stays where a box is popped. -/
def collect (needImage : Bool) (boxes : List TextBox) : TakenOut :=
  boxes.foldl (collectStep needImage) ⟨[], [], [], [], []⟩

section Merge

variable (stats : PageStats) (nomerge : List LoutNo)

/-- Two tables that follow one another; `none` is a `KeyError` or an `IndexError`. -/
def mergePair (k₀ k : LoutNo) (tables : Groups LoutNo TextBox) :
    Option (Groups LoutNo TextBox) :=
  match Assoc.get? k₀ tables, Assoc.get? k tables with
  | some bxs₀, some bxs =>
      if k₀ ∈ nomerge then some tables
      else if bxs.first.pageNumber = bxs₀.first.pageNumber then some tables
      else if (bxs.first.pageNumber : ℕ) > bxs₀.first.pageNumber + 1 then some tables
      else
        (ofPage stats.meanHeight bxs.first.pageNumber).map fun mh =>
          if bxs₀.last.yDis bxs.first > mh * 23 then tables else Groups.join k₀ k tables
  | _, _ => none

/-- The loop over the tables, from the last one to the first. -/
def mergeLoop : List LoutNo → Groups LoutNo TextBox → Option (Groups LoutNo TextBox)
  | k :: k₀ :: ks, tables => (mergePair stats nomerge k₀ k tables).bind (mergeLoop (k₀ :: ks))
  | _, tables => some tables

/-- `tbls` -/
def sortedKeys (tables : Groups LoutNo TextBox) : List LoutNo :=
  (tables.mergeSort fun a b => a.2.first.top < b.2.first.top ||
    (a.2.first.top = b.2.first.top && a.2.first.x0 ≤ b.2.first.x0)).map Prod.fst

def mergeTables (tables : Groups LoutNo TextBox) : Option (Groups LoutNo TextBox) :=
  mergeLoop stats nomerge (sortedKeys tables).reverse tables

end Merge

/-- The squared distance of a caption and a box. -/
def captionDistance (c b : TextBox) : ℚ :=
  let yDis := c.yDis b
  let xDis := if c.xOverlapped b then 0 else c.xDis b
  yDis * yDis + xDis * xDis

def nearestStep (c : TextBox) (k : LoutNo) (acc : Option LoutNo × ℚ) (b : TextBox) :
    Option LoutNo × ℚ :=
  if b.hasCaptionType then acc
  else if captionDistance c b < acc.2 then (some k, captionDistance c b)
  else acc

def nearestGroup (c : TextBox) (tbls : Groups LoutNo TextBox) : Option LoutNo × ℚ :=
  tbls.foldl (fun acc entry => entry.2.toList.foldl (nearestStep c entry.1) acc) (none, 1000000000)

/-- The running text, and the groups that were taken out of it. -/
structure Extracted where
  boxes : List TextBox
  tables : Groups LoutNo TextBox
  figures : Groups LoutNo TextBox

/-- The body of the loop over the captions. -/
def captionStep (st : Extracted) (c : TextBox) : Extracted :=
  if c.isCaption = false then { st with boxes := st.boxes ++ [c] }
  else
    match nearestGroup c st.tables, nearestGroup c st.figures with
    | (some tk, tv), (fk, fv) =>
        if tv < fv then { st with tables := st.tables.addFront tk c }
        else
          match fk with
          | some fk => { st with figures := st.figures.addFront fk c }
          | none => st
    | (none, _), (some fk, _) => { st with figures := st.figures.addFront fk c }
    | (none, _), (none, _) => st

/-- `_extract_table_figure`, up to the images. -/
def extractTableFigure (stats : PageStats) (needImage : Bool) (boxes : List TextBox) :
    Option Extracted :=
  let st := collect needImage boxes
  (mergeTables stats st.nomergeLoutNo st.tables).map fun tables =>
    st.boxes.foldl captionStep ⟨[], tables, st.figures⟩

/-- No box is lost but notes on sources: every other one is in the running text or, once, in a
group. -/
def LosesNothing (stats : PageStats) (needImage : Bool) (boxes : List TextBox) : Prop :=
  ∃ out, extractTableFigure stats needImage boxes = some out ∧
    (boxes : Multiset TextBox) = out.boxes +
      (boxes.filter fun b => boxRole needImage b = .note : List TextBox) +
      out.tables.contents + out.figures.contents

/-- A box that is no caption by its type, at a squared distance below `1000000000`. -/
def Near (c b : TextBox) : Prop := b.hasCaptionType = false ∧ captionDistance c b < 1000000000

/-- Each caption has a box nearby, among `pool` and the captions before it. -/
def CaptionsNear (pool : Multiset TextBox) : List TextBox → Prop
  | [] => True
  | c :: cs =>
      if c.isCaption then
        (∃ b ∈ pool, Near c b) ∧ CaptionsNear (c ::ₘ pool) cs
      else CaptionsNear pool cs

/-! ## Collecting -/

section Collect

variable {needImage : Bool} {boxes : List TextBox}

/-- The boxes of one role. -/
def ofRole (needImage : Bool) (role : BoxRole) (boxes : List TextBox) : List TextBox :=
  boxes.filter fun b => boxRole needImage b = role

theorem ofRole_concat (role : BoxRole) (boxes : List TextBox) (b : TextBox) :
    ofRole needImage role (boxes ++ [b]) =
      ofRole needImage role boxes ++ if boxRole needImage b = role then [b] else [] := by
  rw [ofRole, List.filter_append, List.filter_singleton]
  by_cases hrole : boxRole needImage b = role <;> simp [ofRole, hrole]

theorem collect_concat (boxes : List TextBox) (b : TextBox) :
    collect needImage (boxes ++ [b]) = collectStep needImage (collect needImage boxes) b := by
  rw [collect, List.foldl_append]
  rfl

/-- Every box goes where its role says. -/
theorem collect_spec (needImage : Bool) (boxes : List TextBox) :
    (collect needImage boxes).boxes = ofRole needImage .running boxes ∧
      (collect needImage boxes).tables.contents = ofRole needImage .table boxes ∧
      (collect needImage boxes).figures.contents = ofRole needImage .figure boxes ∧
      (Assoc.keys (collect needImage boxes).tables).Nodup ∧
      (Assoc.keys (collect needImage boxes).figures).Nodup := by
  induction boxes using List.reverseRecOn with
  | nil => exact ⟨rfl, rfl, rfl, List.nodup_nil, List.nodup_nil⟩
  | append_singleton boxes b ih =>
      obtain ⟨hrunning, htables, hfigures, htableKeys, hfigureKeys⟩ := ih
      have hsingle : ∀ l : List TextBox, ((l ++ [b] : List TextBox) : Multiset TextBox) =
          b ::ₘ (l : Multiset TextBox) := fun l => by
        rw [← Multiset.coe_add, add_comm]
        exact Multiset.singleton_add b _
      rw [collect_concat, collectStep]
      simp only [ofRole_concat]
      cases hrole : boxRole needImage b with
      | running => simp [hrunning, htables, hfigures, htableKeys, hfigureKeys]
      | note => simp [hrunning, htables, hfigures, htableKeys, hfigureKeys]
      | table =>
          simp [hrunning, hfigures, hfigureKeys, Groups.contents_add, htables,
            Groups.nodup_keys_add htableKeys, hsingle]
      | figure =>
          simp [hrunning, htables, htableKeys, Groups.contents_add, hfigures,
            Groups.nodup_keys_add hfigureKeys, hsingle]

/-- Every box has a role. -/
theorem coe_eq_ofRole (needImage : Bool) (boxes : List TextBox) :
    (boxes : Multiset TextBox) = ofRole needImage .running boxes + ofRole needImage .note boxes +
      (ofRole needImage .table boxes + ofRole needImage .figure boxes) := by
  induction boxes with
  | nil => rfl
  | cons b boxes ih =>
      simp only [ofRole, List.filter_cons] at ih ⊢
      rw [← Multiset.cons_coe, ih]
      cases boxRole needImage b <;>
        simp [← Multiset.cons_coe, Multiset.cons_add, Multiset.add_cons]

end Collect

/-! ## Joining the parts of a table -/

section Merging

variable {stats : PageStats} {nomerge : List LoutNo} {k₀ k : LoutNo}
variable {tables tables' : Groups LoutNo TextBox}

theorem mem_keys_iff : k ∈ Assoc.keys tables ↔ ∃ g, Assoc.get? k tables = some g := by
  rw [← Option.isSome_iff_exists, ← Option.ne_none_iff_isSome, ne_eq, Assoc.get?_eq_none_iff,
    not_not]

theorem pageNumber_first_mem {g : Cluster TextBox} (h : Assoc.get? k tables = some g) :
    g.first ∈ tables.contents :=
  Groups.mem_contents.mpr ⟨_, Assoc.mem_of_get? h, List.mem_cons_self⟩

/-- Two tables are looked at without an error, and their boxes stay in tables. -/
theorem exists_mergePair (hd : (Assoc.keys tables).Nodup) (hne : k₀ ≠ k)
    (hk₀ : k₀ ∈ Assoc.keys tables) (hk : k ∈ Assoc.keys tables)
    (hheights : ∀ b ∈ tables.contents, Covered stats.meanHeight b.pageNumber) :
    ∃ tables', mergePair stats nomerge k₀ k tables = some tables' ∧
      tables'.contents = tables.contents ∧ (Assoc.keys tables').Nodup ∧
      ∀ key ∈ Assoc.keys tables, key ≠ k → key ∈ Assoc.keys tables' := by
  obtain ⟨g₀, hg₀⟩ := mem_keys_iff.mp hk₀
  obtain ⟨g, hg⟩ := mem_keys_iff.mp hk
  have hstay : ∃ tables', some tables = some tables' ∧ tables'.contents = tables.contents ∧
      (Assoc.keys tables').Nodup ∧
      ∀ key ∈ Assoc.keys tables, key ≠ k → key ∈ Assoc.keys tables' :=
    ⟨tables, rfl, rfl, hd, fun key hkey _ => hkey⟩
  obtain ⟨mh, hmh⟩ := Option.isSome_iff_exists.mp
    (ofPage_isSome_iff.mpr (hheights g.first (pageNumber_first_mem hg)))
  rw [mergePair, hg₀, hg]
  dsimp only
  split_ifs with hnomerge hsame hfar
  · exact hstay
  · exact hstay
  · exact hstay
  · rw [hmh, Option.map_some]
    split_ifs with hdistance
    · exact hstay
    · refine ⟨_, rfl, Groups.contents_join hd hne, Groups.nodup_keys_join hd,
        fun key hkey hkeyNe => ?_⟩
      rw [Groups.join, hg₀, hg]
      dsimp only
      rw [Groups.keys_erase, Assoc.keys_set, if_pos hk₀]
      exact List.mem_filter.mpr ⟨hkey, by simpa using hkeyNe⟩

theorem exists_mergeLoop {ks : List LoutNo} (hd : (Assoc.keys tables).Nodup) (hks : ks.Nodup)
    (hmem : ∀ key ∈ ks, key ∈ Assoc.keys tables)
    (hheights : ∀ b ∈ tables.contents, Covered stats.meanHeight b.pageNumber) :
    ∃ tables', mergeLoop stats nomerge ks tables = some tables' ∧
      tables'.contents = tables.contents ∧ (Assoc.keys tables').Nodup := by
  induction ks generalizing tables with
  | nil => exact ⟨tables, rfl, rfl, hd⟩
  | cons k ks ih =>
      cases ks with
      | nil => exact ⟨tables, rfl, rfl, hd⟩
      | cons k₀ ks =>
          obtain ⟨hk, hks⟩ := List.nodup_cons.mp hks
          obtain ⟨hmemk, hmem⟩ := List.forall_mem_cons.mp hmem
          have hne : k₀ ≠ k := fun heq => hk (heq ▸ List.mem_cons_self)
          obtain ⟨tables', hpair, hcontents, hd', hkeys⟩ :
              ∃ tables', mergePair stats nomerge k₀ k tables = some tables' ∧ _ :=
            exists_mergePair hd hne (hmem k₀ List.mem_cons_self) hmemk hheights
          obtain ⟨tables'', hloop, hcontents', hd''⟩ := ih hd' hks
            (fun key hkey => hkeys key (hmem key hkey) fun heq => hk (heq ▸ hkey))
            (by rwa [hcontents])
          exact ⟨tables'', by rw [mergeLoop, hpair]; exact hloop, hcontents'.trans hcontents, hd''⟩

theorem exists_mergeTables (hd : (Assoc.keys tables).Nodup)
    (hheights : ∀ b ∈ tables.contents, Covered stats.meanHeight b.pageNumber) :
    ∃ tables', mergeTables stats nomerge tables = some tables' ∧
      tables'.contents = tables.contents ∧ (Assoc.keys tables').Nodup := by
  have hperm : (sortedKeys tables).reverse.Perm (Assoc.keys tables) :=
    (List.reverse_perm _).trans ((List.mergeSort_perm _ _).map Prod.fst)
  exact exists_mergeLoop hd (hperm.nodup_iff.mpr hd) (fun key hkey => hperm.mem_iff.mp hkey)
    hheights

end Merging

/-! ## Captions -/

section Captions

variable {c : TextBox} {tbls : Groups LoutNo TextBox} {st : Extracted}

/-- What the search has found among some boxes: a group if one of them is near. -/
structure FoundAmong (c : TextBox) (tbls : Groups LoutNo TextBox) (seen : List TextBox)
    (acc : Option LoutNo × ℚ) : Prop where
  isSome_iff : acc.1.isSome ↔ ∃ b ∈ seen, Near c b
  lt_iff : acc.2 < 1000000000 ↔ acc.1.isSome
  le : acc.2 ≤ 1000000000
  le_distance : ∀ b ∈ seen, b.hasCaptionType = false → acc.2 ≤ captionDistance c b
  mem_keys : ∀ k, acc.1 = some k → k ∈ Assoc.keys tbls

theorem FoundAmong.step {seen : List TextBox} {acc : Option LoutNo × ℚ} {k : LoutNo}
    {b : TextBox} (h : FoundAmong c tbls seen acc) (hk : k ∈ Assoc.keys tbls) :
    FoundAmong c tbls (seen ++ [b]) (nearestStep c k acc b) := by
  have hmore : (∃ x ∈ seen ++ [b], Near c x) ↔ (∃ x ∈ seen, Near c x) ∨ Near c b := by
    simp only [List.mem_append, List.mem_singleton, or_and_right, exists_or, exists_eq_left]
  have hall : ∀ {v : ℚ}, (∀ x ∈ seen, x.hasCaptionType = false → v ≤ captionDistance c x) →
      (b.hasCaptionType = false → v ≤ captionDistance c b) →
      ∀ x ∈ seen ++ [b], x.hasCaptionType = false → v ≤ captionDistance c x := by
    intro v hseen hb x hx
    rcases List.mem_append.mp hx with hx | hx
    · exact hseen x hx
    · rw [List.mem_singleton.mp hx]
      exact hb
  rw [nearestStep]
  split_ifs with hcaption hless
  · refine ⟨?_, h.lt_iff, h.le, hall h.le_distance fun hnot => ?_, h.mem_keys⟩
    · rw [hmore, h.isSome_iff, or_iff_left]
      rintro ⟨hnot, -⟩
      rw [hcaption] at hnot
      exact nomatch hnot
    · rw [hcaption] at hnot
      exact nomatch hnot
  · rw [Bool.not_eq_true] at hcaption
    have hnear := hless.trans_le h.le
    refine ⟨?_, iff_of_true hnear rfl, hnear.le, hall (fun x hx hnot =>
      hless.le.trans (h.le_distance x hx hnot)) fun _ => le_rfl, ?_⟩
    · rw [hmore]
      exact iff_of_true rfl (.inr ⟨hcaption, hnear⟩)
    · rintro key hkey
      rwa [← Option.some.inj hkey]
  · refine ⟨?_, h.lt_iff, h.le, hall h.le_distance fun _ => not_lt.mp hless, h.mem_keys⟩
    rw [hmore, h.isSome_iff, or_iff_left_of_imp]
    rintro ⟨-, hnear⟩
    rw [← h.isSome_iff, ← h.lt_iff]
    exact (not_lt.mp hless).trans_lt hnear

/-- A group is found exactly when one of its boxes is near. -/
theorem nearestGroup_spec (c : TextBox) (tbls : Groups LoutNo TextBox) :
    ((nearestGroup c tbls).1.isSome ↔ ∃ b ∈ tbls.contents, Near c b) ∧
      ((nearestGroup c tbls).2 < 1000000000 ↔ (nearestGroup c tbls).1.isSome) ∧
      (nearestGroup c tbls).2 ≤ 1000000000 ∧
      ∀ k, (nearestGroup c tbls).1 = some k → k ∈ Assoc.keys tbls := by
  have hinner : ∀ (k : LoutNo) (bxs seen : List TextBox) (acc : Option LoutNo × ℚ),
      k ∈ Assoc.keys tbls → FoundAmong c tbls seen acc →
      FoundAmong c tbls (seen ++ bxs) (bxs.foldl (nearestStep c k) acc) := by
    intro k bxs
    induction bxs with
    | nil =>
        intro seen acc _ h
        rwa [List.append_nil]
    | cons b bxs ih =>
        intro seen acc hk h
        have hnext := ih (seen ++ [b]) _ hk (h.step (b := b) hk)
        rwa [List.append_assoc] at hnext
  have houter : ∀ (d : Groups LoutNo TextBox) (seen : List TextBox) (acc : Option LoutNo × ℚ),
      (∀ entry ∈ d, entry.1 ∈ Assoc.keys tbls) → FoundAmong c tbls seen acc →
      FoundAmong c tbls (seen ++ d.flatMap fun entry => entry.2.toList)
        (d.foldl (fun acc entry => entry.2.toList.foldl (nearestStep c entry.1) acc) acc) := by
    intro d
    induction d with
    | nil =>
        intro seen acc _ h
        rwa [List.flatMap_nil, List.append_nil]
    | cons entry d ih =>
        intro seen acc hd h
        obtain ⟨hentry, hd⟩ := List.forall_mem_cons.mp hd
        have hnext := ih _ _ hd (hinner entry.1 entry.2.toList seen acc hentry h)
        rw [List.append_assoc] at hnext
        rwa [List.flatMap_cons]
  have hstart : FoundAmong c tbls [] (none, 1000000000) := by
    refine ⟨?_, ?_, le_rfl, fun b hb => absurd hb List.not_mem_nil, fun k hk => nomatch hk⟩
    · exact iff_of_false Bool.false_ne_true fun ⟨b, hb, _⟩ => absurd hb List.not_mem_nil
    · exact iff_of_false (lt_irrefl _) Bool.false_ne_true
  have hfound := houter tbls [] _ (fun entry hentry => List.mem_map_of_mem hentry) hstart
  refine ⟨hfound.isSome_iff.trans ?_, hfound.lt_iff, hfound.le, hfound.mem_keys⟩
  refine exists_congr fun b => and_congr_left fun _ => ?_
  rw [List.nil_append, Groups.mem_contents, List.mem_flatMap]

/-- The boxes of all groups. -/
def Extracted.grouped (st : Extracted) : Multiset TextBox :=
  st.tables.contents + st.figures.contents

/-- A caption is put to a group exactly when a box of one is near. -/
theorem captionStep_spec (hcaption : c.isCaption = true) (htables : (Assoc.keys st.tables).Nodup)
    (hfigures : (Assoc.keys st.figures).Nodup) :
    (captionStep st c).boxes = st.boxes ∧
      (Assoc.keys (captionStep st c).tables).Nodup ∧
      (Assoc.keys (captionStep st c).figures).Nodup ∧
      ((∃ b ∈ st.grouped, Near c b) → (captionStep st c).grouped = c ::ₘ st.grouped) ∧
      ((¬ ∃ b ∈ st.grouped, Near c b) → (captionStep st c).grouped = st.grouped) := by
  obtain ⟨htSome, htLt, htLe, htKeys⟩ := nearestGroup_spec c st.tables
  obtain ⟨hfSome, hfLt, hfLe, hfKeys⟩ := nearestGroup_spec c st.figures
  have hnear : (∃ b ∈ st.grouped, Near c b) ↔
      (nearestGroup c st.tables).1.isSome ∨ (nearestGroup c st.figures).1.isSome := by
    rw [htSome, hfSome, Extracted.grouped]
    simp only [Multiset.mem_add, or_and_right, exists_or]
  rw [hnear, captionStep, if_neg (by rw [hcaption]; decide)]
  generalize nearestGroup c st.tables = t at *
  generalize nearestGroup c st.figures = f at *
  obtain ⟨tk, tv⟩ := t
  obtain ⟨fk, fv⟩ := f
  have htable : ∀ {k}, tk = some k →
      (Groups.addFront k c st.tables).contents = c ::ₘ st.tables.contents := by
    intro k hk
    obtain ⟨g, hg⟩ := mem_keys_iff.mp (htKeys k hk)
    exact Groups.contents_addFront hg
  have hfigure : ∀ {k}, fk = some k →
      (Groups.addFront k c st.figures).contents = c ::ₘ st.figures.contents := by
    intro k hk
    obtain ⟨g, hg⟩ := mem_keys_iff.mp (hfKeys k hk)
    exact Groups.contents_addFront hg
  cases tk with
  | some tk =>
      dsimp only
      by_cases hless : tv < fv
      · rw [if_pos hless]
        refine ⟨rfl, Groups.nodup_keys_addFront htables, hfigures, fun _ => ?_,
          fun h => absurd (.inl rfl) h⟩
        rw [Extracted.grouped, htable rfl, Multiset.cons_add]
        rfl
      · rw [if_neg hless]
        cases fk with
        | some fk =>
            refine ⟨rfl, htables, Groups.nodup_keys_addFront hfigures, fun _ => ?_,
              fun h => absurd (.inl rfl) h⟩
            rw [Extracted.grouped, hfigure rfl, Multiset.add_cons]
            rfl
        | none =>
            have hfar : ¬ fv < 1000000000 := fun hlt => Bool.false_ne_true (hfLt.mp hlt)
            exact absurd ((htLt.mpr rfl).trans_le (not_lt.mp hfar)) hless
  | none =>
      cases fk with
      | some fk =>
          refine ⟨rfl, htables, Groups.nodup_keys_addFront hfigures, fun _ => ?_,
            fun h => absurd (.inr rfl) h⟩
          dsimp only
          rw [Extracted.grouped, hfigure rfl, Multiset.add_cons]
          rfl
      | none =>
          refine ⟨rfl, htables, hfigures, fun h => ?_, fun _ => rfl⟩
          exact absurd h (by simp)

/-- All captions are put to groups exactly when each has a box nearby when its turn comes. -/
theorem foldl_captionStep_spec (st : Extracted) (cs : List TextBox)
    (htables : (Assoc.keys st.tables).Nodup)
    (hfigures : (Assoc.keys st.figures).Nodup) :
    (cs.foldl captionStep st).boxes = st.boxes ++ cs.filter (fun c => !c.isCaption) ∧
      (cs.foldl captionStep st).grouped.card ≤
        st.grouped.card + (cs.filter TextBox.isCaption).length ∧
      (CaptionsNear st.grouped cs → (cs.foldl captionStep st).grouped =
        st.grouped + (cs.filter TextBox.isCaption : List TextBox)) ∧
      (¬ CaptionsNear st.grouped cs → (cs.foldl captionStep st).grouped.card <
        st.grouped.card + (cs.filter TextBox.isCaption).length) := by
  induction cs generalizing st with
  | nil =>
      exact ⟨(List.append_nil _).symm, le_rfl, fun _ => (add_zero _).symm,
        fun h => absurd trivial h⟩
  | cons c cs ih =>
      rw [List.foldl_cons, CaptionsNear]
      cases hcaption : c.isCaption with
      | false =>
          have hstep : captionStep st c = { st with boxes := st.boxes ++ [c] } := if_pos hcaption
          obtain ⟨hboxes, hcard, hnear, hfar⟩ := ih (captionStep st c)
            (by rw [hstep]; exact htables) (by rw [hstep]; exact hfigures)
          have hgrouped : (captionStep st c).grouped = st.grouped := by
            rw [hstep]
            rfl
          rw [hgrouped] at hcard hnear hfar
          rw [List.filter_cons_of_pos (by simp [hcaption]),
            List.filter_cons_of_neg (by simp [hcaption]), if_neg Bool.false_ne_true]
          refine ⟨?_, hcard, hnear, hfar⟩
          rw [hboxes, hstep, List.append_assoc]
          rfl
      | true =>
          obtain ⟨hsame, htables', hfigures', hattached, hlost⟩ :=
            captionStep_spec hcaption htables hfigures
          obtain ⟨hboxes, hcard, hnear, hfar⟩ := ih _ htables' hfigures'
          rw [List.filter_cons_of_neg (by simp [hcaption]),
            List.filter_cons_of_pos hcaption, if_pos rfl, List.length_cons]
          refine ⟨by rw [hboxes, hsame], ?_⟩
          by_cases hbox : ∃ b ∈ st.grouped, Near c b
          · rw [hattached hbox] at hcard hnear hfar
            rw [Multiset.card_cons] at hcard hfar
            refine ⟨by omega, fun h => ?_, fun h => ?_⟩
            · rw [hnear h.2, ← Multiset.cons_coe, Multiset.cons_add, Multiset.add_cons]
            · have hlt := hfar fun hrest => h ⟨hbox, hrest⟩
              omega
          · rw [hlost hbox] at hcard
            exact ⟨by omega, fun h => absurd h.1 hbox, fun _ => by omega⟩

end Captions

/-- Nothing is lost exactly when each caption in the running text has a box of a table or figure, or
a caption that has been put to one, nearby. -/
theorem losesNothing_iff (stats : PageStats) (needImage : Bool) (boxes : List TextBox)
    (hheights : ∀ b ∈ boxes, Covered stats.meanHeight b.pageNumber) :
    LosesNothing stats needImage boxes ↔
      CaptionsNear (ofRole needImage .table boxes + ofRole needImage .figure boxes)
        (ofRole needImage .running boxes) := by
  obtain ⟨hrunning, htables, hfigures, htableKeys, hfigureKeys⟩ := collect_spec needImage boxes
  have hsum := coe_eq_ofRole needImage boxes
  have hcovered : ∀ b ∈ (collect needImage boxes).tables.contents,
      Covered stats.meanHeight b.pageNumber := by
    intro b hb
    rw [htables] at hb
    exact hheights b (List.mem_of_mem_filter hb)
  obtain ⟨tables, hmerge, hcontents, htableKeys'⟩ :
      ∃ tables, mergeTables stats (collect needImage boxes).nomergeLoutNo
        (collect needImage boxes).tables = some tables ∧ _ :=
    exists_mergeTables htableKeys hcovered
  obtain ⟨hboxes, -, hnear, hfar⟩ := foldl_captionStep_spec
    ⟨[], tables, (collect needImage boxes).figures⟩ (collect needImage boxes).boxes
    htableKeys' hfigureKeys
  have hout : extractTableFigure stats needImage boxes =
      some ((collect needImage boxes).boxes.foldl captionStep
        ⟨[], tables, (collect needImage boxes).figures⟩) := by
    rw [extractTableFigure, hmerge]
    rfl
  have hpool : Extracted.grouped ⟨[], tables, (collect needImage boxes).figures⟩ =
      ofRole needImage .table boxes + ofRole needImage .figure boxes := by
    rw [Extracted.grouped, hcontents, htables, hfigures]
  rw [LosesNothing, hout]
  rw [hrunning] at hboxes hnear hfar ⊢
  rw [hpool] at hnear hfar
  generalize (ofRole needImage .running boxes).foldl captionStep
    ⟨[], tables, (collect needImage boxes).figures⟩ = out at *
  have hsplit : ((ofRole needImage .running boxes).filter TextBox.isCaption : Multiset TextBox) +
      ((ofRole needImage .running boxes).filter fun c => !c.isCaption : List TextBox) =
        ofRole needImage .running boxes := by
    rw [Multiset.coe_add]
    exact Multiset.coe_eq_coe.mpr (List.filter_append_perm _ _)
  rw [List.nil_append] at hboxes
  rw [← hsplit] at hsum
  constructor
  · rintro ⟨out', hout', hequal⟩
    obtain rfl := Option.some.inj hout'
    by_contra hnot
    have hlost := hfar hnot
    rw [hboxes, add_assoc] at hequal
    have hcard := congrArg Multiset.card (hsum.symm.trans hequal)
    simp only [Multiset.card_add, Multiset.coe_card, Extracted.grouped, ofRole] at hcard hlost
    omega
  · intro hall
    refine ⟨out, rfl, ?_⟩
    have hgrouped := hnear hall
    rw [Extracted.grouped] at hgrouped
    rw [hsum, hboxes, add_assoc _ out.tables.contents, hgrouped]
    change _ = _ + (ofRole needImage .note boxes : Multiset TextBox) + _
    abel

/-- A table on the first page. -/
def tableBox : TextBox :=
  ⟨firstPage, 0, 100, 50, 90, "1 2 3".toList, some ⟨"table-0".toList, "table".toList⟩, none⟩

/-- A line of text that begins as a caption does. -/
def captionBox : TextBox :=
  ⟨firstPage, 0, 100, 30, 40, "图1: 结构".toList, some ⟨"text-0".toList, "text".toList⟩, none⟩

theorem losesNothing_iff_captionBox :
    LosesNothing ⟨[10], [5], false⟩ true [captionBox, tableBox] ↔
      CaptionsNear (ofRole true .table [captionBox, tableBox] +
        ofRole true .figure [captionBox, tableBox]) (ofRole true .running [captionBox, tableBox]) :=
  losesNothing_iff ⟨[10], [5], false⟩ true [captionBox, tableBox] (by decide)

/-- Without a table or figure the line is lost. -/
theorem not_losesNothing_captionBox :
    ¬ LosesNothing ⟨[10], [5], false⟩ true [captionBox] := by
  rintro ⟨out, hout, hequal⟩
  have hcollect : collect true [captionBox] = ⟨[captionBox], [], [], [], [[]]⟩ := rfl
  have hmerge : mergeTables ⟨[10], [5], false⟩ [[]] [] = some [] := by
    simp [mergeTables, sortedKeys, mergeLoop]
  have hcaption : captionBox.isCaption = true := by decide
  have hempty : out = ⟨[], [], []⟩ := by
    rw [extractTableFigure, hcollect] at hout
    dsimp only at hout
    rw [hmerge, Option.map_some, List.foldl_cons, List.foldl_nil, captionStep, hcaption] at hout
    exact (Option.some.inj hout).symm
  have hcard := congrArg Multiset.card hequal
  rw [hempty] at hcard
  exact absurd hcard (by decide)

end RagflowMineru.Deepdoc
