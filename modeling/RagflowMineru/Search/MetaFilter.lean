import Mathlib.Data.Finset.Lattice.Lemmas
import Mathlib.Data.List.Infix
import Mathlib.Data.List.Perm.Basic
import Mathlib.Data.List.TakeWhile

/-!
# Filtering documents by their metadata

`metaFilter` goes through the filters and keeps the documents found so far in a
set that starts empty.  An empty set is taken for "nothing found yet" at every
turn, so a filter without a match is forgotten as long as the set is empty.
-/

namespace RagflowMineru.Search

/-- Python objects, through the operations that the filters use; `none` where
an operation raises. -/
structure PyObjects (V : Type) where
  str : V → String
  /-- A string as an object, and whether an object is a string or a list. -/
  ofStr : String → V
  asStr : V → Option String
  asList : V → Option (List V)
  truthy : V → Bool
  literalEval : V → Option V
  /-- `a in b`. -/
  isIn : V → V → Option Bool
  eq : V → V → Option Bool
  ne : V → V → Option Bool
  gt : V → V → Option Bool
  lt : V → V → Option Bool
  ge : V → V → Option Bool
  le : V → V → Option Bool
  lower : String → String
  strip : String → String
  isdigit : String → Bool

structure Filter (V : Type) where
  key : String
  op : String
  value : V

/-- For every metadata key its values, each with its documents. -/
abbrev Metas (V D : Type) := List (String × List (V × List D))

variable {V D : Type}

namespace PyObjects

variable (py : PyObjects V)

/-! ## One filter -/

/-- Strict date format: `YYYY-MM-DD`. -/
def isDate (s : String) : Bool :=
  let cs := s.toList
  cs.length == 10 && cs[4]? == some '-' && cs[7]? == some '-' &&
    py.isdigit (String.ofList (cs.take 4)) &&
    py.isdigit (String.ofList ((cs.drop 5).take 2)) &&
    py.isdigit (String.ofList ((cs.drop 8).take 2))

def lowerStr (v : V) : V :=
  match py.asStr v with
  | some s => py.ofStr (py.lower s)
  | none => v

/-- The value is evaluated only if the evaluation of the input has not raised. -/
def literalPair (input value : V) : V × V :=
  match py.literalEval input with
  | none => (input, value)
  | some input => (input, (py.literalEval value).getD value)

def evalLiterals (input value : V) : V × V :=
  match py.asList input with
  | some [] => (input, value)
  | some (first :: _) => py.literalPair first value
  | none => py.literalPair input value

def comparisons : List String := ["=", "≠", ">", "<", "≥", "≤"]

/-- Input and value as they are compared; `none` skips the record. -/
def prepare (op : String) (input value : V) : Option (V × V) :=
  if op ∈ comparisons then
    let inputStr := py.strip (py.str input)
    let valueStr := py.strip (py.str value)
    if py.isDate valueStr then
      if py.isDate inputStr then some (py.ofStr inputStr, py.ofStr valueStr)
      else none
    else
      let (input, value) := py.evalLiterals input value
      some (py.lowerStr input, py.lowerStr value)
  else
    some (py.lowerStr input, py.lowerStr value)

/-- `str(v).find(value) >= 0`, which raises unless the value is a string. -/
def finds (value v : V) : Option Bool :=
  (py.asStr value).map fun s => decide (s.toList <:+: (py.str v).toList)

def lowerText (v : V) : String := py.lower (py.str v)

/-- What `start with` and `end with` look at. -/
def inputText (input : V) : String :=
  match py.asList input with
  | none => py.lowerText input
  | some items => String.join (items.map py.lowerText)

def matched (op : String) (input value : V) : Option Bool :=
  match op with
  | "contains" =>
      match py.asList input with
      | none => py.finds value input
      | some items => items.anyM (py.finds value)
  | "not contains" =>
      match py.asList input with
      | none => (py.finds value input).map not
      | some items => items.allM fun i => (py.finds value i).map not
  | "in" =>
      match py.asList input with
      | none => py.isIn input value
      | some items => items.allM fun i => py.isIn i value
  | "not in" =>
      match py.asList input with
      | none => (py.isIn input value).map not
      | some items => items.allM fun i => (py.isIn i value).map not
  | "start with" =>
      some ((py.lowerText value).toList.isPrefixOf (py.inputText input).toList)
  | "end with" =>
      some ((py.lowerText value).toList.isSuffixOf (py.inputText input).toList)
  | "empty" => some (!py.truthy input)
  | "not empty" => some (py.truthy input)
  | "=" => py.eq input value
  | "≠" => py.ne input value
  | ">" => py.gt input value
  | "<" => py.lt input value
  | "≥" => py.ge input value
  | "≤" => py.le input value
  | _ => some false

/-- The value goes from one record to the next as the last one has left it. -/
def filterOut (op : String) : List (V × List D) → V → List D
  | [], _ => []
  | (input, docids) :: v2docs, value =>
      match py.prepare op input value with
      | none => filterOut op v2docs value
      | some (input, value) =>
          if (py.matched op input value).getD false then
            docids ++ filterOut op v2docs value
          else filterOut op v2docs value

/-- A key that is not in the metadata matches nothing. -/
def filterIds (metas : Metas V D) (f : Filter V) : List D :=
  match metas.lookup f.key with
  | none => []
  | some v2docs => py.filterOut f.op v2docs f.value

/-! ## The combination loop -/

variable [DecidableEq D]

def combine (metas : Metas V D) (logic : String) :
    Finset D → List (Filter V) → Finset D
  | docIds, [] => docIds
  | docIds, f :: filters =>
      let ids := (py.filterIds metas f).toFinset
      if docIds = ∅ then combine metas logic ids filters
      else if logic = "and" then
        if docIds ∩ ids = ∅ then ∅
        else combine metas logic (docIds ∩ ids) filters
      else combine metas logic (docIds ∪ ids) filters

/-- The returned list without its order. -/
def metaFilter (metas : Metas V D) (filters : List (Filter V))
    (logic : String) : Finset D :=
  py.combine metas logic ∅ filters

/-! ## What the loop computes -/

/-- The documents that a filter matches alone. -/
def matchedBy (metas : Metas V D) (f : Filter V) : Finset D :=
  (py.filterIds metas f).toFinset

variable {py} {metas : Metas V D} {logic : String}
  {filters : List (Filter V)}

theorem metaFilter_singleton (f : Filter V) :
    py.metaFilter metas [f] logic = py.matchedBy metas f := by
  simp [metaFilter, combine, matchedBy]

/-- Once something is found, `and` intersects. -/
theorem mem_combine_and {docIds : Finset D} (hne : docIds ≠ ∅) {x : D} :
    x ∈ py.combine metas "and" docIds filters ↔
      x ∈ docIds ∧ ∀ f ∈ filters, x ∈ py.matchedBy metas f := by
  induction filters generalizing docIds with
  | nil => simp [combine]
  | cons f filters ih =>
      rw [combine, if_neg hne, if_pos rfl, ← matchedBy, List.forall_mem_cons]
      split
      · -- the early return: nothing is in both
        rename_i hnone
        have hx : x ∉ docIds ∩ py.matchedBy metas f := by simp [hnone]
        rw [Finset.mem_inter] at hx
        simp only [Finset.notMem_empty, false_iff]
        exact fun h => hx ⟨h.1, h.2.1⟩
      · rename_i hsome
        rw [ih hsome, Finset.mem_inter, and_assoc]

variable (py metas) in
/-- The filters from the first one on that matches anything. -/
def fromFirstMatch (filters : List (Filter V)) : List (Filter V) :=
  filters.dropWhile fun f => py.matchedBy metas f = ∅

/-- The leading filters without a match leave no trace. -/
theorem mem_metaFilter_and {x : D} :
    x ∈ py.metaFilter metas filters "and" ↔
      py.fromFirstMatch metas filters ≠ [] ∧
        ∀ f ∈ py.fromFirstMatch metas filters, x ∈ py.matchedBy metas f := by
  unfold metaFilter fromFirstMatch
  induction filters with
  | nil => simp [combine]
  | cons f filters ih =>
      rw [combine, if_pos rfl, ← matchedBy]
      by_cases hempty : py.matchedBy metas f = ∅
      · rw [List.dropWhile_cons_of_pos (by simpa using hempty), hempty]
        exact ih
      · rw [List.dropWhile_cons_of_neg (by simpa using hempty),
          mem_combine_and hempty]
        simp

theorem mem_combine_other (hlogic : logic ≠ "and") {docIds : Finset D} {x : D} :
    x ∈ py.combine metas logic docIds filters ↔
      x ∈ docIds ∨ ∃ f ∈ filters, x ∈ py.matchedBy metas f := by
  induction filters generalizing docIds with
  | nil => simp [combine]
  | cons f filters ih =>
      rw [combine, if_neg hlogic, ← matchedBy]
      split
      · rename_i hempty
        simp [ih, hempty]
      · simp [ih, or_assoc]

/-! ## The combination law -/

variable (py metas logic filters) in
/-- With `and` the documents that every filter matches alone, with any other
logic those that some filter matches alone. -/
def Combined (docs : Finset D) : Prop :=
  ∀ x, x ∈ docs ↔
    if logic = "and" then ∀ f ∈ filters, x ∈ py.matchedBy metas f
    else ∃ f ∈ filters, x ∈ py.matchedBy metas f

variable (py metas logic filters) in
/-- `and`, the first filter matches nothing, and the filters from the first one
on that matches anything have a document in common. -/
def EmptyStart : Prop :=
  logic = "and" ∧ (∃ f ∈ filters.head?, py.matchedBy metas f = ∅) ∧
    py.fromFirstMatch metas filters ≠ [] ∧
    ∃ x, ∀ f ∈ py.fromFirstMatch metas filters, x ∈ py.matchedBy metas f

variable (py metas logic filters) in
/-- `and`, some filter matches nothing, and those that match anything have a
document in common. -/
def EmptySomewhere : Prop :=
  logic = "and" ∧ (∃ f ∈ filters, py.matchedBy metas f = ∅) ∧
    ∃ x, (∃ f ∈ filters, x ∈ py.matchedBy metas f) ∧
      ∀ f ∈ filters, py.matchedBy metas f ≠ ∅ → x ∈ py.matchedBy metas f

theorem fromFirstMatch_of_head (f : Filter V)
    (hf : py.matchedBy metas f ≠ ∅) :
    py.fromFirstMatch metas (f :: filters) = f :: filters :=
  List.dropWhile_cons_of_neg (by simpa using hf)

theorem combined_iff (hne : filters ≠ []) :
    py.Combined metas logic filters (py.metaFilter metas filters logic) ↔
      ¬ py.EmptyStart metas logic filters := by
  by_cases hlogic : logic = "and"
  · subst hlogic
    obtain ⟨f, rest, rfl⟩ := List.exists_cons_of_ne_nil hne
    by_cases hf : py.matchedBy metas f = ∅
    · -- the law asks for nothing, the code answers with the later filters
      constructor
      · rintro hlaw ⟨-, -, hsome, x, hx⟩
        have hall := (hlaw x).mp (mem_metaFilter_and.mpr ⟨hsome, hx⟩)
        rw [if_pos rfl] at hall
        simpa [hf] using hall f List.mem_cons_self
      · intro hnot x
        rw [if_pos rfl, mem_metaFilter_and]
        constructor
        · rintro ⟨hsome, hx⟩
          exact absurd ⟨rfl, ⟨f, rfl, hf⟩, hsome, x, hx⟩ hnot
        · intro hall
          simpa [hf] using hall f List.mem_cons_self
    · constructor
      · rintro - ⟨-, ⟨g, hg, hempty⟩, -⟩
        obtain rfl : f = g := by simpa using hg
        exact hf hempty
      · intro _ x
        rw [if_pos rfl, mem_metaFilter_and, fromFirstMatch_of_head f hf]
        simp
  · constructor
    · rintro - ⟨hand, -⟩
      exact hlogic hand
    · intro _ x
      rw [if_neg hlogic, metaFilter, mem_combine_other hlogic]
      simp

theorem combined_congr {order : List (Filter V)} (hperm : order.Perm filters)
    (docs : Finset D) :
    py.Combined metas logic order docs ↔
      py.Combined metas logic filters docs := by
  simp only [Combined, hperm.mem_iff]

variable (py metas filters) in
/-- The filters without a match, then the others. -/
def emptyFirst : List (Filter V) :=
  filters.filter (fun f => py.matchedBy metas f = ∅) ++
    filters.filter fun f => py.matchedBy metas f ≠ ∅

theorem emptyFirst_perm : (py.emptyFirst metas filters).Perm filters := by
  have hperm := List.filter_append_perm
    (fun f => decide (py.matchedBy metas f = ∅)) filters
  simpa only [emptyFirst, ne_eq, decide_not] using hperm

theorem fromFirstMatch_emptyFirst :
    py.fromFirstMatch metas (py.emptyFirst metas filters) =
      filters.filter fun f => py.matchedBy metas f ≠ ∅ := by
  rw [fromFirstMatch, emptyFirst, List.dropWhile_append_of_pos]
  · rw [List.dropWhile_eq_self_iff]
    intro hpos
    have hmem := List.getElem_mem hpos
    simpa using (List.mem_filter.mp hmem).2
  · intro f hf
    exact (List.mem_filter.mp hf).2

/-- A filter that matches anything is not dropped. -/
theorem mem_fromFirstMatch {f : Filter V} (hf : f ∈ filters)
    (hmatch : py.matchedBy metas f ≠ ∅) :
    f ∈ py.fromFirstMatch metas filters := by
  rw [← List.takeWhile_append_dropWhile
    (p := fun f => decide (py.matchedBy metas f = ∅)) (l := filters)] at hf
  obtain hdropped | hkept := List.mem_append.mp hf
  · have hempty := List.mem_takeWhile_imp hdropped
    exact absurd (by simpa using hempty) hmatch
  · exact hkept

/-- Whatever a bad start does in one order, some filter has no match. -/
theorem emptySomewhere_of_emptyStart {order : List (Filter V)}
    (hperm : order.Perm filters) (hstart : py.EmptyStart metas logic order) :
    py.EmptySomewhere metas logic filters := by
  obtain ⟨hlogic, ⟨f, hf, hempty⟩, hsome, x, hx⟩ := hstart
  refine ⟨hlogic, ⟨f, ?_, hempty⟩, x, ?_, ?_⟩
  · exact hperm.mem_iff.mp (List.mem_of_mem_head? hf)
  · obtain ⟨g, hg⟩ := List.exists_mem_of_ne_nil _ hsome
    have hmem : g ∈ order := (List.dropWhile_sublist _).subset hg
    exact ⟨g, hperm.mem_iff.mp hmem, hx g hg⟩
  · intro g hg hmatch
    exact hx g (mem_fromFirstMatch (hperm.mem_iff.mpr hg) hmatch)

theorem combined_all_orders_iff (hne : filters ≠ []) :
    (∀ order : List (Filter V), order.Perm filters →
        py.Combined metas logic filters (py.metaFilter metas order logic)) ↔
      ¬ py.EmptySomewhere metas logic filters := by
  constructor
  · rintro hlaw ⟨rfl, ⟨f, hf, hempty⟩, x, ⟨g, hg, hxg⟩, hx⟩
    -- with the filters without a match in front, `x` is returned
    have hreturned : x ∈ py.metaFilter metas (py.emptyFirst metas filters)
        "and" := by
      rw [mem_metaFilter_and, fromFirstMatch_emptyFirst]
      constructor
      · apply List.ne_nil_of_mem (a := g)
        simpa [hg] using Finset.ne_empty_of_mem hxg
      · intro h hh
        obtain ⟨hmem, hmatch⟩ := List.mem_filter.mp hh
        exact hx h hmem (by simpa using hmatch)
    have hall := (hlaw _ emptyFirst_perm x).mp hreturned
    rw [if_pos rfl] at hall
    simpa [hempty] using hall f hf
  · intro hnot order hperm
    have hne' : order ≠ [] := by
      rintro rfl
      exact hne hperm.nil_eq.symm
    rw [← combined_congr hperm, combined_iff hne']
    exact fun hstart => hnot (emptySomewhere_of_emptyStart hperm hstart)

theorem Combined.eq {docs docs' : Finset D}
    (h : py.Combined metas logic filters docs)
    (h' : py.Combined metas logic filters docs') : docs = docs' := by
  ext x
  rw [h x, h' x]

/-- The combination law for one order of the filters, and for every order: when
exactly the code obeys it. -/
theorem metaFilter_law_iff (hne : filters ≠ []) :
    (py.Combined metas logic filters (py.metaFilter metas filters logic) ↔
      ¬ py.EmptyStart metas logic filters) ∧
    ((py.Combined metas logic filters (py.metaFilter metas filters logic) ∧
        ∀ order : List (Filter V), order.Perm filters →
          py.metaFilter metas order logic =
            py.metaFilter metas filters logic) ↔
      ¬ py.EmptySomewhere metas logic filters) := by
  refine ⟨combined_iff hne, ?_⟩
  rw [← combined_all_orders_iff hne]
  constructor
  · rintro ⟨hlaw, horder⟩ order hperm
    rw [horder order hperm]
    exact hlaw
  · intro hlaw
    refine ⟨hlaw filters (List.Perm.refl _), ?_⟩
    intro order hperm
    exact (hlaw order hperm).eq (hlaw filters (List.Perm.refl _))

end PyObjects

/-! ## A filter without a match in front -/

/-- Strings alone: of them only literals could be evaluated, and none of those
below is one. -/
def texts : PyObjects String where
  str := id
  ofStr := id
  asStr := some
  asList _ := none
  truthy s := s ≠ ""
  literalEval _ := none
  isIn a b := some (a.toList <:+: b.toList)
  eq a b := some (a = b)
  ne a b := some (a ≠ b)
  gt a b := some (b < a)
  lt a b := some (a < b)
  ge a b := some (¬ a < b)
  le a b := some (¬ b < a)
  lower s := String.ofList (s.toList.map Char.toLower)
  strip s := String.ofList (s.toList.dropWhile Char.isWhitespace
    |>.reverse.dropWhile Char.isWhitespace |>.reverse)
  isdigit s := s ≠ "" && s.toList.all Char.isDigit

def oneDocument : Metas String ℕ := [("author", [("alice", [1])])]

def absentFirst : List (Filter String) :=
  [⟨"planet", "=", "mars"⟩, ⟨"author", "=", "alice"⟩]

/-- No document is from Mars, and yet document 1 is found. -/
theorem absent_key_forgotten :
    ¬ texts.Combined oneDocument "and" absentFirst
      (texts.metaFilter oneDocument absentFirst "and") := by
  have hfound : texts.metaFilter oneDocument absentFirst "and" = {1} := by
    decide
  have hmars : texts.matchedBy oneDocument ⟨"planet", "=", "mars"⟩ = ∅ := by
    decide
  intro hlaw
  have hall := (hlaw 1).mp (by simp [hfound])
  rw [if_pos rfl] at hall
  simpa [hmars] using hall _ List.mem_cons_self

/-- What is to be blamed is the filter in front. -/
theorem absent_key_emptyStart :
    (texts.Combined oneDocument "and" absentFirst
        (texts.metaFilter oneDocument absentFirst "and") ↔
      ¬ texts.EmptyStart oneDocument "and" absentFirst) ∧
    ((texts.Combined oneDocument "and" absentFirst
          (texts.metaFilter oneDocument absentFirst "and") ∧
        ∀ order : List (Filter String), order.Perm absentFirst →
          texts.metaFilter oneDocument order "and" =
            texts.metaFilter oneDocument absentFirst "and") ↔
      ¬ texts.EmptySomewhere oneDocument "and" absentFirst) :=
  PyObjects.metaFilter_law_iff (by simp [absentFirst])

end RagflowMineru.Search
