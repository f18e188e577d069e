import RagflowMineru.Library.Nested
import Mathlib.Data.Int.Order.Basic

/-!
# Splitting a JSON value

The members of an object go into the last chunk as long as they fit.  One that does not is split
itself, perhaps after a new chunk has been begun; a single item is then written whatever its size.
An object without members is split into nothing, so that it is in no chunk when it does not fit.
-/

namespace RagflowMineru.Deepdoc

open Library
open Nested (Apart apart_of_ne)

/-- What a JSON value is made of besides lists and objects; a number is kept as `json.dumps` writes
it. -/
inductive Scalar where
  | null
  | bool (b : Bool)
  | number (text : List Char)
  | str (s : List Char)
  deriving DecidableEq

abbrev Json := Nested (List Char) Scalar

abbrev Dict := Assoc (List Char) Json

/-- A JSON value as `json.loads` returns it. -/
structure JsonValue where
  json : Json
  wellFormed : json.WellFormed

/-! ## `json.dumps` -/

section Dumps

/-- A character in a string, with `ensure_ascii=False`. -/
def escape (c : Char) : List Char :=
  if c = '"' then ['\\', '"']
  else if c = '\\' then ['\\', '\\']
  else if c = '\n' then ['\\', 'n']
  else if c = '\r' then ['\\', 'r']
  else if c = '\t' then ['\\', 't']
  else if c.toNat = 12 then ['\\', 'f']
  else if c.toNat = 8 then ['\\', 'b']
  else if c.toNat < 32 then
    ['\\', 'u', '0', '0', Nat.digitChar (c.toNat / 16), Nat.digitChar (c.toNat % 16)]
  else [c]

def dumpsStr (s : List Char) : List Char := '"' :: (s.flatMap escape ++ ['"'])

def Scalar.dumps : Scalar → List Char
  | .null => "null".toList
  | .bool true => "true".toList
  | .bool false => "false".toList
  | .number text => text
  | .str s => dumpsStr s

mutual

def dumps : Json → List Char
  | .scalar s => s.dumps
  | .list items => '[' :: (List.intercalate ", ".toList (dumpsItems items) ++ [']'])
  | .dict members => '\x7b' :: (List.intercalate ", ".toList (dumpsMembers members) ++ ['\x7d'])

def dumpsItems : List Json → List (List Char)
  | [] => []
  | item :: rest => dumps item :: dumpsItems rest

def dumpsMembers : List (List Char × Json) → List (List Char)
  | [] => []
  | (key, value) :: rest => (dumpsStr key ++ ": ".toList ++ dumps value) :: dumpsMembers rest

end

/-- `_json_size` -/
def jsonSize (data : Dict) : ℕ := (dumps (.dict data)).length

end Dumps

/-! ## The parser -/

inductive DictError where
  | indexError | attributeError | typeError

/-- `_set_nested_dict` -/
def setNestedDict : List (List Char) → Json → Dict → Except DictError Dict
  | [], _, _ => .error .indexError
  | [key], value, d => .ok (Assoc.set key value d)
  | key :: next :: path, value, d =>
      match (Assoc.get? key d).getD (.dict []) with
      | .dict sub =>
          (setNestedDict (next :: path) value sub).map fun sub => Assoc.set key (.dict sub) d
      | _ => .error (if path = [] then .typeError else .attributeError)

mutual

/-- `_list_to_dict_preprocessing` -/
def listToDict : Json → Json
  | .scalar s => .scalar s
  | .list items => .dict (listToDictItems 0 items)
  | .dict members => .dict (listToDictMembers members)

def listToDictItems (i : ℕ) : List Json → List (List Char × Json)
  | [] => []
  | item :: rest => (Nat.toDigits 10 i, listToDict item) :: listToDictItems (i + 1) rest

def listToDictMembers : List (List Char × Json) → List (List Char × Json)
  | [] => []
  | (key, value) :: rest => (key, listToDict value) :: listToDictMembers rest

end

/-- The list of chunks, which is never empty. -/
structure Chunks where
  closed : List Dict
  current : Dict

def Chunks.toList (chunks : Chunks) : List Dict := chunks.closed ++ [chunks.current]

/-- `chunks.append({})` -/
def Chunks.next (chunks : Chunks) : Chunks where
  closed := chunks.toList
  current := []

/-- The last chunk is dropped when it is empty. -/
def Chunks.filled (chunks : Chunks) : List Dict :=
  if chunks.current = [] then chunks.closed else chunks.toList

def Chunks.write (chunks : Chunks) (path : List (List Char)) (value : Json) :
    Except DictError Chunks :=
  (setNestedDict path value chunks.current).map fun d => { chunks with current := d }

structure JsonParser where
  maxChunkSize : ℤ
  minChunkSize : ℤ

/-- `RAGFlowJsonParser.__init__` -/
def JsonParser.init (maxChunkSize : ℤ) (minChunkSize : Option ℤ) : JsonParser where
  maxChunkSize := maxChunkSize * 2
  minChunkSize := minChunkSize.getD (max (maxChunkSize - 200) 50)

namespace JsonParser

variable (self : JsonParser)

/-- Whether there is room for a member in the last chunk. -/
def fits (key : List Char) (value : Json) (chunks : Chunks) : Bool :=
  (jsonSize [(key, value)] : ℤ) < self.maxChunkSize - jsonSize chunks.current

/-- The chunks for a member without room: the last one is left when it is big enough. -/
def chunksFor (chunks : Chunks) : Chunks :=
  if self.minChunkSize ≤ jsonSize chunks.current then chunks.next else chunks

mutual

/-- `_json_split` -/
def jsonSplit : Json → List (List Char) → Chunks → Except DictError Chunks
  | .dict members, path, chunks => splitMembers members path chunks
  | .scalar s, path, chunks => chunks.write path (.scalar s)
  | .list items, path, chunks => chunks.write path (.list items)

def splitMembers : List (List Char × Json) → List (List Char) → Chunks → Except DictError Chunks
  | [], _, chunks => .ok chunks
  | (key, value) :: rest, path, chunks =>
      (if self.fits key value chunks then chunks.write (path ++ [key]) value
        else jsonSplit value (path ++ [key]) (self.chunksFor chunks)).bind fun chunks =>
      splitMembers rest path chunks

end

def splitJson (jsonData : Json) (convertLists : Bool) : Except DictError (List Dict) :=
  let data := if convertLists then listToDict jsonData else jsonData
  (self.jsonSplit data [] ⟨[], []⟩).map Chunks.filled

/-- One round of the loop over the members. -/
def splitMember (key : List Char) (value : Json) (path : List (List Char)) (chunks : Chunks) :
    Except DictError Chunks :=
  if self.fits key value chunks then chunks.write (path ++ [key]) value
  else self.jsonSplit value (path ++ [key]) (self.chunksFor chunks)

/-- A member that the loop comes to, with the chunks at that time. -/
structure Visit where
  key : List Char
  value : Json
  chunks : Chunks

mutual

/-- The members that a split comes to. -/
def visits : Json → List (List Char) → Chunks → List Visit
  | .dict members, path, chunks => visitsMembers members path chunks
  | _, _, _ => []

def visitsMembers : List (List Char × Json) → List (List Char) → Chunks → List Visit
  | [], _, _ => []
  | (key, value) :: rest, path, chunks =>
      ⟨key, value, chunks⟩ ::
        (if self.fits key value chunks then []
          else visits value (path ++ [key]) (self.chunksFor chunks)) ++
        match self.splitMember key value path chunks with
        | .ok chunks => visitsMembers rest path chunks
        | .error _ => []

end

/-- The members that `split_json` comes to in a value. -/
def visited (jsonData : Json) : List Visit := self.visits (listToDict jsonData) [] ⟨[], []⟩

/-- Every object without members finds room when the loop comes to it. -/
def EmptyFit (visits : List Visit) : Prop :=
  ∀ visit ∈ visits, visit.value = .dict [] → self.fits visit.key visit.value visit.chunks = true

/-- The split is lossless: the merged chunks are the value with its lists turned into objects, and
every leaf of this is in one chunk, at its path. -/
def Lossless (jsonData : Json) : Prop :=
  ∃ chunks, self.splitJson jsonData true = .ok chunks ∧
    .dict (Nested.mergeAll chunks) = listToDict jsonData ∧
    ∀ path leaf, (listToDict jsonData).at? path = some leaf → leaf.IsLeaf →
      ∃! i : ℕ, ∃ chunk, chunks[i]? = some chunk ∧ Nested.at? path (.dict chunk) = some leaf

end JsonParser

/-! ## What stands in the chunks -/

section Writing

variable {path q : List (List Char)} {value : Json} {chunks : Chunks}

/-- At a free path the value is written, with the objects that are missing on the way. -/
theorem setNestedDict_eq {d : Dict} (hpath : path ≠ [])
    (hfree : Nested.Free path (some (.dict d))) :
    setNestedDict path value d = .ok (Nested.putIn path value d) := by
  induction path generalizing d with
  | nil => exact absurd rfl hpath
  | cons key path ih =>
      match path with
      | [] => rfl
      | next :: path =>
          have hslot : Nested.Free (next :: path) (Assoc.get? key d) := hfree
          have hsub := ih (List.cons_ne_nil next path) hslot.entries
          rw [setNestedDict, hslot.getD_eq]
          simp only [hsub]
          rfl

namespace Chunks

/-- No chunk has anything at a path, nor something other than objects on the way to it. -/
def Clear (path : List (List Char)) (chunks : Chunks) : Prop :=
  ∀ chunk ∈ chunks.toList, Nested.Free path (some (.dict chunk))

def WellFormed (chunks : Chunks) : Prop :=
  ∀ chunk ∈ chunks.toList, Nested.WellFormed (.dict chunk)

/-- All that the chunks have at a path. -/
def found (path : List (List Char)) (chunks : Chunks) : List Json :=
  chunks.toList.filterMap fun chunk => Nested.at? path (.dict chunk)

/-- The chunks merged. -/
def whole (chunks : Chunks) : Json := .dict (Nested.mergeAll chunks.toList)

def put (path : List (List Char)) (value : Json) (chunks : Chunks) : Chunks where
  closed := chunks.closed
  current := Nested.putIn path value chunks.current

theorem write_eq (hpath : path ≠ []) (hclear : chunks.Clear path) (value : Json) :
    chunks.write path value = .ok (chunks.put path value) := by
  rw [write, setNestedDict_eq hpath (hclear _ (List.mem_append_right _ List.mem_cons_self))]
  rfl

theorem found_eq (q : List (List Char)) (chunks : Chunks) :
    chunks.found q = chunks.closed.filterMap (fun chunk => Nested.at? q (.dict chunk)) ++
      (Nested.at? q (.dict chunks.current)).toList := by
  rw [found, toList, List.filterMap_append]
  cases h : Nested.at? q (.dict chunks.current) <;> simp [h]

end Chunks

/-- What a stretch of the split makes of the value at a path.  It leaves what is apart from the
path, and if all objects without members are kept it writes the value. -/
structure Stores (path : List (List Char)) (value : Json) (kept : Prop)
    (chunks chunks' : Chunks) : Prop where
  wellFormed : chunks'.WellFormed
  clear : ∀ q, Apart path q → chunks.Clear q → chunks'.Clear q
  found : ∀ q, Apart path q → chunks'.found q = chunks.found q
  whole : kept → chunks'.whole = Nested.put path value (some chunks.whole)
  leaves : kept → ∀ r leaf, value.at? r = some leaf → leaf.IsLeaf →
    chunks'.found (path ++ r) = [leaf]
  lost : ¬ kept → ∃ r leaf, value.at? r = some leaf ∧ leaf.IsLeaf ∧ chunks'.found (path ++ r) = []

theorem found_of_clear (hclear : chunks.Clear path) (r : List (List Char)) :
    chunks.found (path ++ r) = [] :=
  List.filterMap_eq_nil_iff.mpr fun chunk hchunk =>
    Nested.bind_at?_of_free (hclear chunk hchunk) r

theorem stores_put (hpath : path ≠ []) (hwf : chunks.WellFormed) (hvalue : value.WellFormed)
    (hclear : chunks.Clear path) : Stores path value True chunks (chunks.put path value) where
  wellFormed chunk hchunk := by
    rcases List.mem_append.mp hchunk with hclosed | hcurrent
    · exact hwf chunk (List.mem_append_left _ hclosed)
    · rw [List.mem_singleton.mp hcurrent, Chunks.put, Nested.dict_putIn hpath]
      refine Nested.wellFormed_put hvalue fun v hv => ?_
      rw [← Option.some.inj hv]
      exact hwf _ (List.mem_append_right _ List.mem_cons_self)
  clear q hapart hq chunk hchunk := by
    rcases List.mem_append.mp hchunk with hclosed | hcurrent
    · exact hq chunk (List.mem_append_left _ hclosed)
    · rw [List.mem_singleton.mp hcurrent, Chunks.put, Nested.dict_putIn hpath]
      exact Nested.free_put hapart (hq _ (List.mem_append_right _ List.mem_cons_self))
  found q hapart := by
    have hfree := hclear _ (List.mem_append_right _ List.mem_cons_self)
    rw [Chunks.found_eq, Chunks.found_eq, Chunks.put, Nested.dict_putIn hpath,
      Nested.at?_put_of_apart hapart hfree]
    rfl
  whole _ := Nested.mergeAll_putIn hpath hwf hclear value
  leaves _ r leaf hleaf _ := by
    have hclosed : chunks.closed.filterMap
        (fun chunk => Nested.at? (path ++ r) (.dict chunk)) = [] :=
      List.filterMap_eq_nil_iff.mpr fun chunk hchunk =>
        Nested.bind_at?_of_free (hclear chunk (List.mem_append_left _ hchunk)) r
    rw [Chunks.found_eq, Chunks.put, hclosed, Nested.dict_putIn hpath, Nested.at?_put_append,
      hleaf]
    rfl
  lost hfalse := absurd trivial hfalse

/-- A new chunk changes nothing. -/
theorem Stores.of_next {kept : Prop} {chunks' : Chunks}
    (h : Stores path value kept chunks.next chunks') : Stores path value kept chunks chunks' where
  wellFormed := h.wellFormed
  clear q hapart hq := by
    refine h.clear q hapart fun chunk hchunk => ?_
    rcases List.mem_append.mp hchunk with hold | hnew
    · exact hq chunk hold
    · rw [List.mem_singleton.mp hnew]
      exact Nested.free_empty hapart.symm.ne_nil
  found q hapart := by
    rw [h.found q hapart, Chunks.found_eq, Chunks.next, Nested.at?_empty hapart.symm.ne_nil]
    exact List.append_nil _
  whole hkept := by
    have hnew : chunks.next.whole = chunks.whole := by
      rw [Chunks.whole, Chunks.toList, Nested.mergeAll_concat]
      rfl
    rw [h.whole hkept, hnew]
  leaves := h.leaves
  lost := h.lost

/-- An object without members that is not written is lost. -/
theorem stores_nothing (hwf : chunks.WellFormed) (hclear : chunks.Clear path) :
    Stores path (.dict []) False chunks chunks where
  wellFormed := hwf
  clear _ _ hq := hq
  found _ _ := rfl
  whole := False.elim
  leaves := False.elim
  lost _ := ⟨[], .dict [], rfl, rfl, found_of_clear hclear []⟩

/-- The same for the members of an object. -/
structure StoresAll (path : List (List Char)) (members : List (List Char × Json)) (kept : Prop)
    (chunks chunks' : Chunks) : Prop where
  wellFormed : chunks'.WellFormed
  clear : ∀ q, (∀ m ∈ members, Apart (path ++ [m.1]) q) → chunks.Clear q → chunks'.Clear q
  found : ∀ q, (∀ m ∈ members, Apart (path ++ [m.1]) q) → chunks'.found q = chunks.found q
  whole : kept → chunks'.whole = Nested.putEntries path members chunks.whole
  leaves : kept → ∀ m ∈ members, ∀ r leaf, m.2.at? r = some leaf → leaf.IsLeaf →
    chunks'.found (path ++ [m.1] ++ r) = [leaf]
  lost : ¬ kept → ∃ m ∈ members, ∃ r leaf, m.2.at? r = some leaf ∧ leaf.IsLeaf ∧
    chunks'.found (path ++ [m.1] ++ r) = []

theorem storesAll_nil (hwf : chunks.WellFormed) : StoresAll path [] True chunks chunks where
  wellFormed := hwf
  clear _ _ hq := hq
  found _ _ := rfl
  whole _ := rfl
  leaves _ _ hm := absurd hm List.not_mem_nil
  lost hfalse := absurd trivial hfalse

/-- The other members do not touch what stands in one of them. -/
theorem apart_members {m : List Char × Json} {rest : List (List Char × Json)}
    (hne : ∀ m' ∈ rest, m'.1 ≠ m.1) (r : List (List Char)) :
    ∀ m' ∈ rest, Apart (path ++ [m'.1]) (path ++ [m.1] ++ r) :=
  fun m' hm' => ((apart_of_ne (hne m' hm') path).symm.append r).symm

theorem StoresAll.cons {m : List Char × Json} {rest : List (List Char × Json)}
    {kept keptRest : Prop} {chunks' chunks'' : Chunks}
    (hm : Stores (path ++ [m.1]) m.2 kept chunks chunks')
    (hrest : StoresAll path rest keptRest chunks' chunks'') (hne : ∀ m' ∈ rest, m'.1 ≠ m.1) :
    StoresAll path (m :: rest) (kept ∧ keptRest) chunks chunks'' where
  wellFormed := hrest.wellFormed
  clear q hapart hq := by
    obtain ⟨happ, happs⟩ := List.forall_mem_cons.mp hapart
    exact hrest.clear q happs (hm.clear q happ hq)
  found q hapart := by
    obtain ⟨happ, happs⟩ := List.forall_mem_cons.mp hapart
    rw [hrest.found q happs, hm.found q happ]
  whole hkept := by
    rw [hrest.whole hkept.2, hm.whole hkept.1]
    rfl
  leaves hkept m' hm' r leaf hleaf hisLeaf := by
    rcases List.mem_cons.mp hm' with rfl | hm'
    · rw [hrest.found _ (apart_members hne r)]
      exact hm.leaves hkept.1 r leaf hleaf hisLeaf
    · exact hrest.leaves hkept.2 m' hm' r leaf hleaf hisLeaf
  lost hlost := by
    by_cases hkeptRest : keptRest
    · obtain ⟨r, leaf, hleaf, hisLeaf, hfound⟩ := hm.lost fun hkept => hlost ⟨hkept, hkeptRest⟩
      refine ⟨m, List.mem_cons_self, r, leaf, hleaf, hisLeaf, ?_⟩
      rw [hrest.found _ (apart_members hne r), hfound]
    · obtain ⟨m', hm', hlostRest⟩ := hrest.lost hkeptRest
      exact ⟨m', List.mem_cons_of_mem _ hm', hlostRest⟩

/-- An object with members is stored with them. -/
theorem StoresAll.stores {members : List (List Char × Json)} {kept : Prop} {chunks' : Chunks}
    (h : StoresAll path members kept chunks chunks') (hnil : members ≠ [])
    (hkeys : (Assoc.keys members).Nodup) (hpath : path ≠ []) (hwf : chunks.WellFormed)
    (hclear : chunks.Clear path) : Stores path (.dict members) kept chunks chunks' where
  wellFormed := h.wellFormed
  clear q hapart := h.clear q fun m _ => hapart.append [m.1]
  found q hapart := h.found q fun m _ => hapart.append [m.1]
  whole hkept := by
    rw [h.whole hkept]
    exact Nested.putEntries_of_free hnil hkeys (Nested.free_mergeAll hpath hwf hclear)
  leaves hkept r leaf hleaf hisLeaf := by
    match r with
    | [] =>
        rw [← Option.some.inj hleaf] at hisLeaf
        exact absurd hisLeaf hnil
    | key :: r =>
        obtain ⟨v, hget, hv⟩ := Option.bind_eq_some_iff.mp hleaf
        have hfound := h.leaves hkept _ (Assoc.mem_of_get? hget) r leaf hv hisLeaf
        rwa [List.append_assoc] at hfound
  lost hlost := by
    obtain ⟨⟨key, v⟩, hm, r, leaf, hleaf, hisLeaf, hfound⟩ := h.lost hlost
    refine ⟨key :: r, leaf, ?_, hisLeaf, ?_⟩
    · rw [Nested.at?, Assoc.get?_of_mem hkeys hm]
      exact hleaf
    · rwa [List.append_assoc] at hfound

end Writing

/-! ## Runs of the split -/

section Runs

variable {self : JsonParser} {path : List (List Char)} {value : Json} {chunks : Chunks}

namespace JsonParser

theorem emptyFit_nil : self.EmptyFit [] := fun _ hv => absurd hv List.not_mem_nil

theorem emptyFit_append_iff {vs vs' : List Visit} :
    self.EmptyFit (vs ++ vs') ↔ self.EmptyFit vs ∧ self.EmptyFit vs' := List.forall_mem_append

theorem emptyFit_cons_iff {visit : Visit} {vs : List Visit} :
    self.EmptyFit (visit :: vs) ↔
      (visit.value = .dict [] → self.fits visit.key visit.value visit.chunks = true) ∧
        self.EmptyFit vs := List.forall_mem_cons

theorem splitMembers_cons (key : List Char) (value : Json) (rest : List (List Char × Json))
    (path : List (List Char)) (chunks : Chunks) :
    self.splitMembers ((key, value) :: rest) path chunks =
      (self.splitMember key value path chunks).bind (self.splitMembers rest path) := rfl

/-- What a split makes of a value that is not an object without members. -/
def Splits (self : JsonParser) (value : Json) : Prop :=
  ∀ path chunks, path ≠ [] → value.WellFormed → value ≠ .dict [] → chunks.WellFormed →
    chunks.Clear path →
    ∃ chunks', self.jsonSplit value path chunks = .ok chunks' ∧
      Stores path value (self.EmptyFit (self.visits value path chunks)) chunks chunks'

theorem splits_of_write (hwrite : ∀ path chunks, self.jsonSplit value path chunks =
    chunks.write path value) (hvisits : ∀ path chunks, self.visits value path chunks = []) :
    self.Splits value := by
  intro path chunks hpath hvalue _ hwf hclear
  have hkept : self.EmptyFit (self.visits value path chunks) = True := by
    rw [hvisits]
    exact eq_true emptyFit_nil
  refine ⟨chunks.put path value, ?_, ?_⟩
  · rw [hwrite, Chunks.write_eq hpath hclear]
  · rw [hkept]
    exact stores_put hpath hwf hvalue hclear

theorem chunksFor_eq (self : JsonParser) (chunks : Chunks) :
    self.chunksFor chunks = chunks.next ∨ self.chunksFor chunks = chunks := by
  rw [chunksFor]
  split_ifs
  · exact Or.inl rfl
  · exact Or.inr rfl

theorem wellFormed_chunksFor (self : JsonParser) (hwf : chunks.WellFormed) :
    (self.chunksFor chunks).WellFormed := by
  rcases chunksFor_eq self chunks with h | h
  · rw [h]
    exact List.forall_mem_append.mpr ⟨hwf, List.forall_mem_singleton.mpr Nested.wellFormed_nil⟩
  · rwa [h]

theorem clear_chunksFor (self : JsonParser) (hpath : path ≠ []) (hclear : chunks.Clear path) :
    (self.chunksFor chunks).Clear path := by
  rcases chunksFor_eq self chunks with h | h
  · rw [h]
    exact List.forall_mem_append.mpr
      ⟨hclear, List.forall_mem_singleton.mpr (Nested.free_empty hpath)⟩
  · rwa [h]

theorem stores_of_chunksFor {kept : Prop} {chunks' : Chunks}
    (h : Stores path value kept (self.chunksFor chunks) chunks') :
    Stores path value kept chunks chunks' := by
  rcases chunksFor_eq self chunks with heq | heq
  · rw [heq] at h
    exact h.of_next
  · rwa [heq] at h

/-- One round stores the member, unless this is an object without members that finds no room. -/
theorem splitMember_stores (hsplits : self.Splits value) (hvalue : value.WellFormed)
    {key : List Char} (hwf : chunks.WellFormed) (hclear : chunks.Clear (path ++ [key])) :
    ∃ chunks', self.splitMember key value path chunks = .ok chunks' ∧
      Stores (path ++ [key]) value
        (self.EmptyFit (⟨key, value, chunks⟩ :: if self.fits key value chunks then []
          else self.visits value (path ++ [key]) (self.chunksFor chunks))) chunks chunks' := by
  have hpath : path ++ [key] ≠ [] := List.concat_ne_nil key path
  rw [splitMember, emptyFit_cons_iff]
  by_cases hfits : self.fits key value chunks = true
  · have hkept : (value = .dict [] → self.fits key value chunks = true) ∧ self.EmptyFit [] :=
      ⟨fun _ => hfits, emptyFit_nil⟩
    rw [if_pos hfits, if_pos hfits, Chunks.write_eq hpath hclear, eq_true hkept]
    exact ⟨_, rfl, stores_put hpath hwf hvalue hclear⟩
  · rw [if_neg hfits, if_neg hfits]
    have hwf' := wellFormed_chunksFor self hwf
    have hclear' := clear_chunksFor self hpath hclear
    by_cases hempty : value = .dict []
    · have hlost : ¬ ((value = .dict [] → self.fits key value chunks = true) ∧ self.EmptyFit
          (self.visits value (path ++ [key]) (self.chunksFor chunks))) :=
        fun hkept => hfits (hkept.1 hempty)
      rw [eq_false hlost, hempty]
      exact ⟨_, rfl, stores_of_chunksFor (stores_nothing hwf' hclear')⟩
    · obtain ⟨chunks', hsplit, hstores⟩ :=
        hsplits (path ++ [key]) _ hpath hvalue hempty hwf' hclear'
      have hkept : (value = .dict [] → self.fits key value chunks = true) :=
        fun h => absurd h hempty
      refine ⟨chunks', hsplit, ?_⟩
      rw [eq_true hkept, true_and]
      exact stores_of_chunksFor hstores

/-- The loop stores all members, as each of them is. -/
theorem splitMembers_stores {members : List (List Char × Json)}
    (hsplits : ∀ m ∈ members, self.Splits m.2) (hkeys : (Assoc.keys members).Nodup)
    (hvalues : ∀ m ∈ members, m.2.WellFormed) (hwf : chunks.WellFormed)
    (hclear : ∀ m ∈ members, chunks.Clear (path ++ [m.1])) :
    ∃ chunks', self.splitMembers members path chunks = .ok chunks' ∧
      StoresAll path members (self.EmptyFit (self.visitsMembers members path chunks))
        chunks chunks' := by
  induction members generalizing chunks with
  | nil =>
      refine ⟨chunks, rfl, ?_⟩
      rw [visitsMembers, eq_true emptyFit_nil]
      exact storesAll_nil hwf
  | cons m rest ih =>
      obtain ⟨key, value⟩ := m
      obtain ⟨hkey, hkeysRest⟩ := List.nodup_cons.mp hkeys
      obtain ⟨hsplit, hsplitsRest⟩ := List.forall_mem_cons.mp hsplits
      obtain ⟨hvalue, hvaluesRest⟩ := List.forall_mem_cons.mp hvalues
      obtain ⟨hclearKey, hclearRest⟩ := List.forall_mem_cons.mp hclear
      have hne : ∀ m ∈ rest, m.1 ≠ key := by
        intro m hm heq
        have hmem : m.1 ∈ Assoc.keys rest := List.mem_map_of_mem hm
        rw [heq] at hmem
        exact hkey hmem
      obtain ⟨chunks', hround, hstores⟩ := splitMember_stores hsplit hvalue hwf hclearKey
      obtain ⟨chunks'', hrun, hall⟩ := ih hsplitsRest hkeysRest hvaluesRest hstores.wellFormed
        fun m hm => hstores.clear _ (apart_of_ne (hne m hm).symm path) (hclearRest m hm)
      refine ⟨chunks'', ?_, ?_⟩
      · rw [splitMembers_cons, hround]
        exact hrun
      · rw [visitsMembers, hround, emptyFit_append_iff]
        exact StoresAll.cons hstores hall hne

theorem splits (self : JsonParser) (value : Json) : self.Splits value := by
  induction value using Nested.memInduction with
  | scalar s => exact splits_of_write (fun _ _ => rfl) fun _ _ => rfl
  | list items _ => exact splits_of_write (fun _ _ => rfl) fun _ _ => rfl
  | dict members ih =>
      intro path chunks hpath hvalue hempty hwf hclear
      have hnil : members ≠ [] := fun h => hempty (congrArg _ h)
      obtain ⟨chunks', hrun, hall⟩ := splitMembers_stores ih hvalue.keys_nodup hvalue.entry hwf
        fun m _ chunk hchunk => (hclear chunk hchunk).append [m.1]
      exact ⟨chunks', hrun, hall.stores hnil hvalue.keys_nodup hpath hwf hclear⟩

/-- The loop comes to nothing but values of members. -/
theorem at?_of_mem_visitsMembers {members : List (List Char × Json)}
    (hmembers : ∀ m ∈ members, ∀ path chunks, ∀ visit ∈ self.visits m.2 path chunks,
      ∃ r, m.2.at? r = some visit.value) {visit : Visit}
    (hvisit : visit ∈ self.visitsMembers members path chunks) :
    ∃ m ∈ members, ∃ r, m.2.at? r = some visit.value := by
  induction members generalizing chunks with
  | nil => exact absurd hvisit List.not_mem_nil
  | cons m rest ih =>
      obtain ⟨key, value⟩ := m
      obtain ⟨hvalue, hrest⟩ := List.forall_mem_cons.mp hmembers
      rw [visitsMembers] at hvisit
      rcases List.mem_append.mp hvisit with hround | hlater
      · refine ⟨(key, value), List.mem_cons_self, ?_⟩
        rcases List.mem_cons.mp hround with rfl | hinner
        · exact ⟨[], rfl⟩
        · split_ifs at hinner
          · exact absurd hinner List.not_mem_nil
          · exact hvalue _ _ visit hinner
      · cases hsplit : self.splitMember key value path chunks with
        | error e =>
            rw [hsplit] at hlater
            exact absurd hlater List.not_mem_nil
        | ok chunks' =>
            rw [hsplit] at hlater
            obtain ⟨m, hm, hat⟩ := ih hrest hlater
            exact ⟨m, List.mem_cons_of_mem _ hm, hat⟩

theorem at?_of_mem_visits (self : JsonParser) {value : Json} (hvalue : value.WellFormed) :
    ∀ path chunks, ∀ visit ∈ self.visits value path chunks,
      ∃ r, value.at? r = some visit.value := by
  induction value using Nested.memInduction with
  | scalar s => exact fun _ _ _ hvisit => absurd hvisit List.not_mem_nil
  | list items _ => exact fun _ _ _ hvisit => absurd hvisit List.not_mem_nil
  | dict members ih =>
      intro path chunks visit hvisit
      obtain ⟨⟨key, v⟩, hm, r, hat⟩ :=
        at?_of_mem_visitsMembers (fun m hm => ih m hm (hvalue.entry m hm)) hvisit
      refine ⟨key :: r, ?_⟩
      rw [Nested.at?, Assoc.get?_of_mem hvalue.keys_nodup hm]
      exact hat

end JsonParser

end Runs

/-! ## Lossless splits -/

section Lossless

theorem listToDictMembers_eq (members : List (List Char × Json)) :
    listToDictMembers members = members.map fun m => (m.1, listToDict m.2) := by
  induction members with
  | nil => rfl
  | cons m rest ih => rw [listToDictMembers, ih, List.map_cons]

theorem keys_listToDictItems (i : ℕ) (items : List Json) :
    Assoc.keys (listToDictItems i items) =
      (List.range' i items.length).map (Nat.toDigits 10) := by
  induction items generalizing i with
  | nil => rfl
  | cons item rest ih =>
      rw [listToDictItems, Assoc.keys, List.map_cons, List.length_cons, List.range'_succ,
        List.map_cons]
      exact congrArg (_ :: ·) (ih (i + 1))

theorem listToDictItems_mem {i : ℕ} {items : List Json} {e : List Char × Json}
    (he : e ∈ listToDictItems i items) : ∃ item ∈ items, e.2 = listToDict item := by
  induction items generalizing i with
  | nil => exact absurd he List.not_mem_nil
  | cons item rest ih =>
      rcases List.mem_cons.mp he with rfl | he
      · exact ⟨item, List.mem_cons_self, rfl⟩
      · obtain ⟨item', hitem', heq⟩ := ih he
        exact ⟨item', List.mem_cons_of_mem _ hitem', heq⟩

theorem toDigits_injective : Function.Injective (Nat.toDigits 10) := by
  intro m n h
  rw [← Nat.ofDigitChars_ten_toDigits (n := m), h, Nat.ofDigitChars_ten_toDigits]

/-- The names that items get are distinct as well. -/
theorem wellFormed_listToDict {value : Json} (h : value.WellFormed) :
    (listToDict value).WellFormed := by
  induction value using Nested.memInduction with
  | scalar s => exact h
  | list items ih =>
      have hitems : ∀ v ∈ items, Nested.WellFormed v := by
        cases h with
        | list hitems => exact hitems
      refine .dict ?_ fun e he => ?_
      · rw [keys_listToDictItems]
        exact List.Nodup.map toDigits_injective List.nodup_range'
      · obtain ⟨item, hitem, heq⟩ := listToDictItems_mem he
        rw [heq]
        exact ih item hitem (hitems item hitem)
  | dict members ih =>
      have hkeys : Assoc.keys (listToDictMembers members) = Assoc.keys members := by
        rw [listToDictMembers_eq, Assoc.keys, List.map_map]
        rfl
      refine .dict (hkeys ▸ h.keys_nodup) fun e he => ?_
      rw [listToDictMembers_eq] at he
      obtain ⟨m, hm, rfl⟩ := List.mem_map.mp he
      exact ih m hm (h.entry m hm)

/-- Where only one element has a value, there is one place with it. -/
theorem existsUnique_of_filterMap {α β : Type*} {f : α → Option β} {l : List α} {b : β}
    (h : l.filterMap f = [b]) : ∃! i : ℕ, ∃ a, l[i]? = some a ∧ f a = some b := by
  obtain ⟨before, a, after, rfl, hbefore, ha, hafter⟩ := List.filterMap_eq_cons_iff.mp h
  have hplace : (before ++ a :: after)[before.length]? = some a := by
    rw [List.getElem?_append_right le_rfl, Nat.sub_self]
    rfl
  refine ⟨before.length, ⟨a, hplace, ha⟩, ?_⟩
  rintro i ⟨a', hi, ha'⟩
  rcases lt_trichotomy i before.length with hlt | heq | hgt
  · rw [List.getElem?_append_left hlt] at hi
    rw [hbefore a' (List.mem_of_getElem? hi)] at ha'
    exact absurd ha' (Option.some_ne_none b).symm
  · exact heq
  · obtain ⟨k, rfl⟩ := Nat.exists_eq_add_of_lt hgt
    rw [List.getElem?_append_right hgt.le, Nat.add_assoc, Nat.add_sub_cancel_left,
      List.getElem?_cons_succ] at hi
    rw [List.filterMap_eq_nil_iff.mp hafter a' (List.mem_of_getElem? hi)] at ha'
    exact absurd ha' (Option.some_ne_none b).symm

variable {self : JsonParser} {jsonData : Json} {chunks : Chunks} {q : List (List Char)}

theorem Chunks.filterMap_filled (hq : q ≠ []) (chunks : Chunks) :
    chunks.filled.filterMap (fun chunk => Nested.at? q (.dict chunk)) = chunks.found q := by
  rw [filled, found_eq]
  split_ifs with hempty
  · rw [hempty, Nested.at?_empty hq]
    exact (List.append_nil _).symm
  · rw [← found_eq]
    rfl

theorem Chunks.whole_filled (chunks : Chunks) :
    (.dict (Nested.mergeAll chunks.filled) : Json) = chunks.whole := by
  rw [filled, whole]
  split_ifs with hempty
  · rw [toList, Nested.mergeAll_concat, hempty, Nested.deepMerge_nil]
  · rfl

theorem splitJson_eq (self : JsonParser) (jsonData : Json) :
    self.splitJson jsonData true =
      (self.jsonSplit (listToDict jsonData) [] ⟨[], []⟩).map Chunks.filled := rfl

/-- A single item has no path to be written at, and an object without members leaves no chunk. -/
theorem not_lossless_of_isLeaf (hleaf : (listToDict jsonData).IsLeaf) :
    ¬ self.Lossless jsonData := by
  rintro ⟨chunks, hrun, -, hleaves⟩
  rw [splitJson_eq] at hrun
  match hdata : listToDict jsonData with
  | .scalar s | .list items =>
      rw [hdata] at hrun
      exact nomatch hrun
  | .dict members =>
      rw [hdata] at hleaf
      have hempty : listToDict jsonData = .dict [] := hdata.trans (congrArg _ hleaf)
      rw [hempty] at hrun hleaves
      have hnil : [] = chunks := Except.ok.inj hrun
      obtain ⟨i, ⟨chunk, hi, -⟩, -⟩ := hleaves [] (.dict []) rfl rfl
      rw [← hnil] at hi
      exact nomatch hi

/-- A value with members is split without an error. -/
theorem exists_splitJson {members : List (List Char × Json)}
    (hdata : listToDict jsonData = .dict members) (hwf : Nested.WellFormed (.dict members)) :
    ∃ chunks, self.splitJson jsonData true = .ok chunks.filled ∧
      StoresAll [] members (self.EmptyFit (self.visited jsonData)) ⟨[], []⟩ chunks := by
  have hempty : (⟨[], []⟩ : Chunks).WellFormed :=
    List.forall_mem_singleton.mpr Nested.wellFormed_nil
  have hclear : ∀ m ∈ members, (⟨[], []⟩ : Chunks).Clear ([] ++ [m.1]) := fun m _ =>
    List.forall_mem_singleton.mpr (Nested.free_empty (List.cons_ne_nil m.1 []))
  obtain ⟨chunks, hrun, hall⟩ := JsonParser.splitMembers_stores (fun m _ => self.splits m.2)
    hwf.keys_nodup hwf.entry hempty hclear
  refine ⟨chunks, ?_, ?_⟩
  · rw [splitJson_eq, hdata, JsonParser.jsonSplit, hrun]
    rfl
  · rw [JsonParser.visited, hdata, JsonParser.visits]
    exact hall

theorem emptyFit_of_lossless {members : List (List Char × Json)}
    (hdata : listToDict jsonData = .dict members) (hwf : Nested.WellFormed (.dict members))
    (h : self.Lossless jsonData) : self.EmptyFit (self.visited jsonData) := by
  obtain ⟨chunks, hsplit, hall⟩ := @exists_splitJson self _ _ hdata hwf
  obtain ⟨chunks', hsplit', -, hleaves⟩ := h
  by_contra hlost
  obtain ⟨m, hm, r, leaf, hleaf, hisLeaf, hfound⟩ := hall.lost hlost
  have hat : (listToDict jsonData).at? (m.1 :: r) = some leaf := by
    rw [hdata, Nested.at?, Assoc.get?_of_mem hwf.keys_nodup hm]
    exact hleaf
  obtain ⟨i, ⟨chunk, hi, hchunk⟩, -⟩ := hleaves (m.1 :: r) leaf hat hisLeaf
  rw [← Except.ok.inj (hsplit.symm.trans hsplit')] at hi
  have hnone := (Chunks.filterMap_filled (List.cons_ne_nil m.1 r) chunks).trans hfound
  rw [List.filterMap_eq_nil_iff.mp hnone chunk (List.mem_of_getElem? hi)] at hchunk
  exact Option.some_ne_none leaf hchunk.symm

theorem lossless_of_emptyFit {members : List (List Char × Json)}
    (hdata : listToDict jsonData = .dict members) (hnil : members ≠ [])
    (hwf : Nested.WellFormed (.dict members)) (hkept : self.EmptyFit (self.visited jsonData)) :
    self.Lossless jsonData := by
  obtain ⟨chunks, hsplit, hall⟩ := @exists_splitJson self _ _ hdata hwf
  refine ⟨chunks.filled, hsplit, ?_, fun path leaf hleaf hisLeaf => ?_⟩
  · have hempty : (⟨[], []⟩ : Chunks).whole = Nested.put [] (.dict []) none := rfl
    rw [Chunks.whole_filled, hall.whole hkept, hdata, hempty]
    exact Nested.putEntries_put hwf.keys_nodup
  · rw [hdata] at hleaf
    apply existsUnique_of_filterMap
    match path with
    | [] =>
        rw [← Option.some.inj hleaf] at hisLeaf
        exact absurd hisLeaf hnil
    | key :: r =>
        obtain ⟨v, hget, hv⟩ := Option.bind_eq_some_iff.mp hleaf
        rw [Chunks.filterMap_filled (List.cons_ne_nil key r)]
        exact hall.leaves hkept _ (Assoc.mem_of_get? hget) r leaf hv hisLeaf

/-- Where no object or list is empty, nothing is lost, whatever the sizes. -/
theorem lossless_of_full {members : List (List Char × Json)}
    (hdata : listToDict jsonData = .dict members) (hwf : Nested.WellFormed (.dict members))
    (hfull : ∀ path, (listToDict jsonData).at? path ≠ some (.dict [])) :
    self.Lossless jsonData := by
  have hnil : members ≠ [] := by
    rintro rfl
    exact hfull [] (congrArg some hdata)
  refine lossless_of_emptyFit hdata hnil hwf fun visit hvisit hempty => ?_
  rw [JsonParser.visited, hdata] at hvisit
  obtain ⟨r, hat⟩ := self.at?_of_mem_visits hwf _ _ visit hvisit
  rw [hempty, ← hdata] at hat
  exact absurd hat (hfull r)

/-- A split is lossless when the value is an object or a list, not an empty one, and every empty
object or list in it that the split comes to finds room in the chunk of that time. -/
theorem splitJson_lossless_iff (maxChunkSize : ℤ) (minChunkSize : Option ℤ) (value : JsonValue) :
    (JsonParser.init maxChunkSize minChunkSize).Lossless value.json ↔
      ¬ (listToDict value.json).IsLeaf ∧
        (JsonParser.init maxChunkSize minChunkSize).EmptyFit
          ((JsonParser.init maxChunkSize minChunkSize).visited value.json) := by
  have hwf := wellFormed_listToDict value.wellFormed
  by_cases hleaf : (listToDict value.json).IsLeaf
  · exact iff_of_false (not_lossless_of_isLeaf hleaf) fun h => h.1 hleaf
  · match hdata : listToDict value.json with
    | .scalar _ | .list _ => exact absurd (by rw [hdata]; exact trivial) hleaf
    | .dict members =>
        have hnil : members ≠ [] := by
          rw [hdata] at hleaf
          exact hleaf
        rw [hdata] at hwf
        rw [← hdata]
        exact ⟨fun h => ⟨hleaf, emptyFit_of_lossless hdata hwf h⟩,
          fun h => lossless_of_emptyFit hdata hnil hwf h.2⟩

/-- `{"a": {}}` -/
def emptyMember : JsonValue where
  json := .dict [("a".toList, .dict [])]
  wellFormed := .dict (List.nodup_singleton _) (List.forall_mem_singleton.mpr Nested.wellFormed_nil)

/-- `5` -/
def five : JsonValue where
  json := .scalar (.number "5".toList)
  wellFormed := .scalar _

/-- With `max_chunk_size=5` the empty object finds no room in the first chunk, and of a number there
is no split at all. -/
theorem not_lossless_emptyMember :
    ¬ (JsonParser.init 5 none).Lossless emptyMember.json ∧
      ¬ (JsonParser.init 2000 none).Lossless five.json := by
  constructor
  · have hdata : listToDict emptyMember.json = .dict [("a".toList, .dict [])] := rfl
    intro h
    have hfit := emptyFit_of_lossless hdata (wellFormed_listToDict emptyMember.wellFormed) h
    have hroom := hfit ⟨"a".toList, .dict [], ⟨[], []⟩⟩ List.mem_cons_self rfl
    exact absurd hroom (by decide)
  · exact not_lossless_of_isLeaf trivial

end Lossless

end RagflowMineru.Deepdoc
