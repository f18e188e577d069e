import RagflowMineru.Library.Distinct
import Mathlib.Data.List.Sort
import Mathlib.Data.Rat.Defs
import Mathlib.Algebra.Order.Ring.Rat
import Mathlib.Data.String.Basic

/-!
# Dropping duplicates

`ListOperations` drops the items of a list whose key an earlier item has.  The
key of a value is made of tuples only: an object becomes the tuple of its
members, and cannot be told from the array of these.
-/

namespace RagflowMineru.Agent.ListOperations

open RagflowMineru.Library

/-- A JSON value as Python holds it.  The names of the members of an object are distinct. -/
inductive Json where
  | null
  | bool (b : Bool)
  | int (n : ℤ)
  | float (q : ℚ)
  | str (s : String)
  | array (items : List Json)
  | object (members : List (String × Json))

/-- What `_hashable` returns.  Numbers, also `True` and `False`, are equal by value. -/
inductive Key where
  | none
  | num (q : ℚ)
  | str (s : String)
  | tuple (items : List Key)

mutual

def Key.decEq : (a b : Key) → Decidable (a = b)
  | .none, .none => isTrue rfl
  | .num p, .num q => decidable_of_iff (p = q) ⟨congrArg _, Key.num.inj⟩
  | .str s, .str t => decidable_of_iff (s = t) ⟨congrArg _, Key.str.inj⟩
  | .tuple xs, .tuple ys =>
    match Key.decEqItems xs ys with
    | isTrue h => isTrue (congrArg _ h)
    | isFalse h => isFalse fun heq => h (Key.tuple.inj heq)
  | .none, .num _ | .none, .str _ | .none, .tuple _ => isFalse nofun
  | .num _, .none | .num _, .str _ | .num _, .tuple _ => isFalse nofun
  | .str _, .none | .str _, .num _ | .str _, .tuple _ => isFalse nofun
  | .tuple _, .none | .tuple _, .num _ | .tuple _, .str _ => isFalse nofun

def Key.decEqItems : (xs ys : List Key) → Decidable (xs = ys)
  | [], [] => isTrue rfl
  | [], _ :: _ | _ :: _, [] => isFalse nofun
  | x :: xs, y :: ys =>
    match Key.decEq x y, Key.decEqItems xs ys with
    | isTrue h, isTrue h' => isTrue (h ▸ h' ▸ rfl)
    | isFalse h, _ => isFalse fun heq => h (List.cons.inj heq).1
    | _, isFalse h => isFalse fun heq => h (List.cons.inj heq).2

end

instance : DecidableEq Key := Key.decEq

/-- Members in the order of their names. -/
def sortMembers {α : Type*} (members : List (String × α)) : List (String × α) :=
  members.insertionSort fun a b => a.1 ≤ b.1

mutual

def hashable : Json → Key
  | .null => .none
  | .bool b => .num (if b then 1 else 0)
  | .int n => .num n
  | .float q => .num q
  | .str s => .str s
  | .array items => .tuple (hashableItems items)
  | .object members =>
    .tuple ((sortMembers (hashableMembers members)).map fun m => .tuple [.str m.1, m.2])

def hashableItems : List Json → List Key
  | [] => []
  | v :: rest => hashable v :: hashableItems rest

def hashableMembers : List (String × Json) → List (String × Key)
  | [] => []
  | (k, v) :: rest => (k, hashable v) :: hashableMembers rest

end

/-- `_drop_duplicates`: the items with new keys, each of which is added to `seen`. -/
def dropDuplicates (inputs : List Json) : List Json :=
  (inputs.foldl (Distinct.scanStep hashable) ([], [])).2

/-! ## Equality of JSON values -/

/-- A JSON value without the order of members and without the kind of a number. -/
inductive Canon where
  | null
  | bool (b : Bool)
  | num (q : ℚ)
  | str (s : String)
  | array (items : List Canon)
  | object (members : List (String × Canon))

noncomputable instance : DecidableEq Canon := Classical.decEq _

mutual

def canon : Json → Canon
  | .null => .null
  | .bool b => .bool b
  | .int n => .num n
  | .float q => .num q
  | .str s => .str s
  | .array items => .array (canonItems items)
  | .object members => .object (sortMembers (canonMembers members))

def canonItems : List Json → List Canon
  | [] => []
  | v :: rest => canon v :: canonItems rest

def canonMembers : List (String × Json) → List (String × Canon)
  | [] => []
  | (k, v) :: rest => (k, canon v) :: canonMembers rest

end

mutual

/-- Objects are read as the arrays of their members, each an array of its name and its value, and
`true` and `false` as `1` and `0`. -/
def asArrays : Json → Json
  | .null => .null
  | .bool b => .int (if b then 1 else 0)
  | .int n => .int n
  | .float q => .float q
  | .str s => .str s
  | .array items => .array (asArraysItems items)
  | .object members =>
    .array ((sortMembers (asArraysMembers members)).map fun m => .array [.str m.1, m.2])

def asArraysItems : List Json → List Json
  | [] => []
  | v :: rest => asArrays v :: asArraysItems rest

def asArraysMembers : List (String × Json) → List (String × Json)
  | [] => []
  | (k, v) :: rest => (k, asArrays v) :: asArraysMembers rest

end

/-- The first occurrence of every distinct value. -/
noncomputable def firstOccurrences (inputs : List Json) : List Json :=
  Distinct.firstOccurrences canon inputs

/-! ## What a key forgets -/

mutual

/-- The key of a value without the order of its members. -/
def forget : Canon → Key
  | .null => .none
  | .bool b => .num (if b then 1 else 0)
  | .num q => .num q
  | .str s => .str s
  | .array items => .tuple (forgetItems items)
  | .object members => .tuple ((forgetMembers members).map fun m => .tuple [.str m.1, m.2])

def forgetItems : List Canon → List Key
  | [] => []
  | c :: rest => forget c :: forgetItems rest

def forgetMembers : List (String × Canon) → List (String × Key)
  | [] => []
  | (k, c) :: rest => (k, forget c) :: forgetMembers rest

end

mutual

/-- A key as a value. -/
def Key.toCanon : Key → Canon
  | .none => .null
  | .num q => .num q
  | .str s => .str s
  | .tuple items => .array (Key.toCanonItems items)

def Key.toCanonItems : List Key → List Canon
  | [] => []
  | k :: rest => k.toCanon :: Key.toCanonItems rest

end

theorem canonItems_eq (items : List Json) : canonItems items = items.map canon := by
  induction items with
  | nil => rfl
  | cons v rest ih => rw [canonItems, ih, List.map_cons]

theorem forgetMembers_eq (members : List (String × Canon)) :
    forgetMembers members = members.map (Prod.map id forget) := by
  induction members with
  | nil => rfl
  | cons m rest ih => rw [forgetMembers, ih, List.map_cons]; rfl

theorem toCanonItems_eq (items : List Key) : Key.toCanonItems items = items.map Key.toCanon := by
  induction items with
  | nil => rfl
  | cons k rest ih => rw [Key.toCanonItems, ih, List.map_cons]

/-- Members are sorted by their names, whatever their values are. -/
theorem sortMembers_map {α β : Type*} (f : α → β) (members : List (String × α)) :
    sortMembers (members.map (Prod.map id f)) = (sortMembers members).map (Prod.map id f) := by
  symm
  apply List.map_insertionSort
  intro a _ b _
  rfl

theorem canonMembers_eq (members : List (String × Json)) :
    canonMembers members = members.map (Prod.map id canon) := by
  induction members with
  | nil => rfl
  | cons m rest ih => rw [canonMembers, ih, List.map_cons]; rfl

/-- Objects are equal if their members are, in any order. -/
theorem canon_object_eq_iff {xs ys : List (String × Json)} (hxs : (xs.map Prod.fst).Nodup) :
    canon (.object xs) = canon (.object ys) ↔
      (xs.map (Prod.map id canon)).Perm (ys.map (Prod.map id canon)) := by
  rw [canon, canon, Canon.object.injEq, canonMembers_eq, canonMembers_eq]
  constructor
  · intro h
    have hperm := List.perm_insertionSort (fun a b : String × Canon => a.1 ≤ b.1)
      (xs.map (Prod.map id canon))
    exact hperm.symm.trans ((List.Perm.of_eq h).trans (List.perm_insertionSort _ _))
  · intro h
    have hsort : (sortMembers (xs.map (Prod.map id canon))).Perm
        (sortMembers (ys.map (Prod.map id canon))) :=
      (List.perm_insertionSort _ _).trans (h.trans (List.perm_insertionSort _ _).symm)
    have hnames : ((sortMembers (xs.map (Prod.map id canon))).map Prod.fst).Nodup := by
      have hperm := (List.perm_insertionSort (fun a b : String × Canon => a.1 ≤ b.1)
        (xs.map (Prod.map id canon))).map Prod.fst
      rw [List.map_map] at hperm
      exact hperm.nodup_iff.mpr hxs
    refine hsort.eq_of_pairwise (fun a b ha hb hab hba => ?_)
      (List.pairwise_insertionSort (fun a b : String × Canon => a.1 ≤ b.1) _)
      (List.pairwise_insertionSort (fun a b : String × Canon => a.1 ≤ b.1) _)
    exact List.inj_on_of_nodup_map hnames ha (hsort.mem_iff.mpr hb) (le_antisymm hab hba)

mutual

theorem forget_canon : ∀ v, forget (canon v) = hashable v
  | .null | .bool _ | .int _ | .float _ | .str _ => rfl
  | .array items => by
    rw [canon, forget, hashable, forget_canonItems items]
  | .object members => by
    rw [canon, forget, hashable, forgetMembers_eq, ← sortMembers_map, ← forgetMembers_eq,
      forget_canonMembers members]

theorem forget_canonItems : ∀ items, forgetItems (canonItems items) = hashableItems items
  | [] => rfl
  | v :: rest => by
    rw [canonItems, forgetItems, hashableItems, forget_canon v, forget_canonItems rest]

theorem forget_canonMembers : ∀ members,
    forgetMembers (canonMembers members) = hashableMembers members
  | [] => rfl
  | (k, v) :: rest => by
    rw [canonMembers, forgetMembers, hashableMembers, forget_canon v, forget_canonMembers rest]

end

mutual

theorem toCanon_injective : ∀ a b : Key, a.toCanon = b.toCanon → a = b
  | .none, b, h => by
    rcases b with _ | _ | _ | _ <;> simp_all [Key.toCanon]
  | .num _, b, h => by
    rcases b with _ | _ | _ | _ <;> simp_all [Key.toCanon]
  | .str _, b, h => by
    rcases b with _ | _ | _ | _ <;> simp_all [Key.toCanon]
  | .tuple xs, b, h => by
    rcases b with _ | _ | _ | ys
    · simp [Key.toCanon] at h
    · simp [Key.toCanon] at h
    · simp [Key.toCanon] at h
    · simp only [Key.toCanon, Canon.array.injEq] at h
      rw [toCanonItems_injective xs ys h]

theorem toCanonItems_injective : ∀ xs ys : List Key,
    Key.toCanonItems xs = Key.toCanonItems ys → xs = ys
  | [], ys, h => by
    rcases ys with _ | ⟨y, ys⟩
    · rfl
    · simp [Key.toCanonItems] at h
  | x :: xs, ys, h => by
    rcases ys with _ | ⟨y, ys⟩
    · simp [Key.toCanonItems] at h
    · simp only [Key.toCanonItems, List.cons.injEq] at h
      rw [toCanon_injective x y h.1, toCanonItems_injective xs ys h.2]

end

mutual

theorem canon_asArrays : ∀ v, canon (asArrays v) = (hashable v).toCanon
  | .null | .bool true | .bool false | .int _ | .float _ | .str _ => by
    simp [asArrays, canon, hashable, Key.toCanon]
  | .array items => by
    rw [asArrays, canon, hashable, Key.toCanon, canon_asArraysItems items]
  | .object members => by
    have hsorted := congrArg sortMembers (canon_asArraysMembers members)
    rw [sortMembers_map, sortMembers_map] at hsorted
    have hpairs := congrArg (List.map fun m => Canon.array [.str m.1, m.2]) hsorted
    rw [List.map_map, List.map_map] at hpairs
    rw [asArrays, canon, hashable, Key.toCanon, canonItems_eq, toCanonItems_eq, List.map_map,
      List.map_map]
    exact congrArg Canon.array hpairs

theorem canon_asArraysItems : ∀ items,
    canonItems (asArraysItems items) = Key.toCanonItems (hashableItems items)
  | [] => rfl
  | v :: rest => by
    rw [asArraysItems, canonItems, hashableItems, Key.toCanonItems, canon_asArrays v,
      canon_asArraysItems rest]

theorem canon_asArraysMembers : ∀ members,
    (asArraysMembers members).map (Prod.map id canon) =
      (hashableMembers members).map (Prod.map id Key.toCanon)
  | [] => rfl
  | (k, v) :: rest => by
    rw [asArraysMembers, hashableMembers, List.map_cons, List.map_cons, canon_asArraysMembers rest,
      Prod.map_apply, Prod.map_apply, canon_asArrays v]

end

/-- Keys are equal where the values are equal once objects are read as arrays. -/
theorem hashable_eq_iff (x y : Json) :
    hashable x = hashable y ↔ canon (asArrays x) = canon (asArrays y) := by
  rw [canon_asArrays, canon_asArrays]
  exact ⟨congrArg _, toCanon_injective _ _⟩

/-- Duplicates are dropped as they should be exactly if no two different values become the same
when objects are read as the arrays of their members and `true` and `false` as numbers. -/
theorem dropDuplicates_eq_iff (inputs : List Json) :
    dropDuplicates inputs = firstOccurrences inputs ↔
      ∀ x ∈ inputs, ∀ y ∈ inputs, canon (asArrays x) = canon (asArrays y) → canon x = canon y := by
  have hfine : ∀ x y, canon x = canon y → hashable x = hashable y := by
    intro x y h
    rw [← forget_canon, ← forget_canon, h]
  rw [dropDuplicates, (Distinct.foldl_scanStep hashable inputs).2, firstOccurrences]
  refine (Distinct.firstOccurrences_eq_iff hfine inputs).trans ?_
  simp only [hashable_eq_iff]

/-- An object is dropped with the array of its members. -/
theorem not_dropDuplicates_eq :
    ¬ ∀ inputs, dropDuplicates inputs = firstOccurrences inputs := by
  intro h
  have hlist := h [.object [("a", .int 1)], .array [.array [.str "a", .int 1]]]
  have hdrop : dropDuplicates [.object [("a", .int 1)], .array [.array [.str "a", .int 1]]] =
      [.object [("a", .int 1)]] := rfl
  have hfirst : firstOccurrences [.object [("a", .int 1)], .array [.array [.str "a", .int 1]]] =
      [.object [("a", .int 1)], .array [.array [.str "a", .int 1]]] := by
    simp [firstOccurrences, Distinct.firstOccurrences, List.zipIdx, canon]
  rw [hdrop, hfirst] at hlist
  simp at hlist

end RagflowMineru.Agent.ListOperations
