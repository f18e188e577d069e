import RagflowMineru.Library.Processes
import Mathlib.Algebra.Order.Ring.Int

/-!
# Ids from a shared counter

`generate_auto_increment_id` of the Python server and of the Go server, command
by command, on one key.  A check and the SET that follows from it are separate
commands, and so are an INCRBY and the SET that corrects its result.
-/

namespace RagflowMineru.Redis

open RagflowMineru.Library

/-- There are two callers. -/
theorem neZero_two : NeZero 2 := ⟨two_ne_zero⟩

attribute [local instance] neZero_two

variable {ι : Type*}

inductive Implementation
  | python
  | go
  deriving DecidableEq

/-- The arguments of a call. -/
structure IdRequest where
  implementation : Implementation
  increment : ℤ
  ensureMinimum : Option ℤ
  one_le_increment : 1 ≤ increment

/-- The next command of a client's call; `correct` is the SET after an INCRBY. -/
inductive IdCall
  | idle
  | check (r : IdRequest) (minimum : ℤ)
  | checkExists (r : IdRequest)
  | get (r : IdRequest) (minimum : ℤ)
  | set (id : ℤ)
  | incrby (r : IdRequest)
  | correct (increment : ℤ)

def IdRequest.first (r : IdRequest) : IdCall :=
  match r.implementation, r.ensureMinimum with
  | .python, none => .incrby r
  -- EXISTS and GET in one pipeline
  | .python, some minimum => .check r minimum
  | .go, _ => .checkExists r

/-- The number under the key and the ids that clients got, the latest first. -/
structure Counter (ι : Type*) where
  value : Option ℤ
  returned : List (ι × ℤ)

/-- The counter is set to an id, which the client returns. -/
def Counter.give (counter : Counter ι) (i : ι) (id : ℤ) : Counter ι :=
  ⟨some id, (i, id) :: counter.returned⟩

/-- One step of client `i`: it begins a call or sends the next command.  `float64`
is how Go rounds the minimum. -/
def generateAutoIncrementId (float64 : ℤ → ℤ) (i : ι) (counter : Counter ι) :
    IdCall → Option IdRequest → Option (Counter ι × IdCall)
  | .idle, some r => some (counter, r.first)
  | .check r minimum, none =>
      match counter.value with
      | none => some (counter, .set (max 1 minimum))
      | some current => some (counter, if current < minimum then .set minimum else .incrby r)
  | .checkExists r, none =>
      match r.ensureMinimum, counter.value with
      | none, _ => some (counter, .incrby r)
      | some minimum, none => some (counter, .set (max 1 (float64 minimum)))
      | some minimum, some _ => some (counter, .get r minimum)
  | .get r minimum, none =>
      match counter.value with
      | none => some (counter, .incrby r)
      | some current => some (counter, if current < minimum then .set minimum else .incrby r)
  | .set id, none => some (counter.give i id, .idle)
  | .incrby r, none =>
      let nextId := counter.value.getD 0 + r.increment
      -- Python takes this for the first id
      if r.implementation = .python ∧ nextId = r.increment then
        some ({ counter with value := some nextId }, .correct r.increment)
      else some (counter.give i nextId, .idle)
  | .correct increment, none => some (counter.give i (1 + increment), .idle)
  | _, _ => none

/-- Redis and its clients. -/
abbrev IdClients (ι : Type*) := Processes ι (Counter ι) IdCall

def idClients (present : Option ℤ) : IdClients ι := ⟨⟨present, []⟩, fun _ => .idle⟩

/-! ## What is claimed -/

/-- No id is given twice, and each client's ids increase. -/
structure DistinctIds [DecidableEq ι] (returned : List (ι × ℤ)) : Prop where
  nodup : (returned.map Prod.snd).Nodup
  increasing : ∀ i, ((returned.filter fun r => r.1 = i).map Prod.snd).Pairwise (· > ·)

instance [DecidableEq ι] [Fintype ι] (returned : List (ι × ℤ)) : Decidable (DistinctIds returned) :=
  decidable_of_iff
    ((returned.map Prod.snd).Nodup ∧
      ∀ i, ((returned.filter fun r => r.1 = i).map Prod.snd).Pairwise (· > ·))
    ⟨fun h => ⟨h.1, h.2⟩, fun h => ⟨h.1, h.2⟩⟩

/-- What a SET that comes next writes. -/
def IdCall.written? : IdCall → Option ℤ
  | set id => some id
  | correct increment => some (1 + increment)
  | _ => none

/-- The condition on a step: a SET finds no key, or a smaller number than its own. -/
def Raises (s : IdClients ι) (move : ι × Option IdRequest) : Prop :=
  ∀ id ∈ (s.own move.1).written?, ∀ value ∈ s.shared.value, value < id

instance (s : IdClients ι) (move : ι × Option IdRequest) : Decidable (Raises s move) :=
  inferInstanceAs (Decidable (∀ id ∈ (s.own move.1).written?, ∀ value ∈ s.shared.value, value < id))

/-! ## The counter stays ahead -/

/-- A step changes nothing, or raises the counter, with or without giving the new
number out. -/
theorem generateAutoIncrementId_spec {float64 : ℤ → ℤ} {i : ι} {counter counter' : Counter ι}
    {c c' : IdCall} {input : Option IdRequest}
    (hact : generateAutoIncrementId float64 i counter c input = some (counter', c')) :
    counter' = counter ∨
      (∃ id, c.written? = some id ∧ counter' = counter.give i id) ∨
      ∃ increment, 1 ≤ increment ∧
        (counter' = { counter with value := some (counter.value.getD 0 + increment) } ∨
          counter' = counter.give i (counter.value.getD 0 + increment)) := by
  unfold generateAutoIncrementId at hact
  split at hact
  · -- a call begins
    obtain ⟨rfl, -⟩ := Prod.mk.inj (Option.some.inj hact)
    exact .inl rfl
  · split at hact
    all_goals
      obtain ⟨rfl, -⟩ := Prod.mk.inj (Option.some.inj hact)
      exact .inl rfl
  · split at hact
    all_goals
      obtain ⟨rfl, -⟩ := Prod.mk.inj (Option.some.inj hact)
      exact .inl rfl
  · split at hact
    all_goals
      obtain ⟨rfl, -⟩ := Prod.mk.inj (Option.some.inj hact)
      exact .inl rfl
  · obtain ⟨rfl, -⟩ := Prod.mk.inj (Option.some.inj hact)
    exact .inr (.inl ⟨_, rfl, rfl⟩)
  · rename_i r
    refine .inr (.inr ⟨r.increment, r.one_le_increment, ?_⟩)
    dsimp only at hact
    split_ifs at hact
    · obtain ⟨rfl, -⟩ := Prod.mk.inj (Option.some.inj hact)
      exact .inl rfl
    · obtain ⟨rfl, -⟩ := Prod.mk.inj (Option.some.inj hact)
      exact .inr rfl
  · obtain ⟨rfl, -⟩ := Prod.mk.inj (Option.some.inj hact)
    exact .inr (.inl ⟨_, rfl, rfl⟩)
  · cases hact

/-- The ids fall towards the past, and the counter has reached the latest. -/
structure Counter.Ahead (counter : Counter ι) : Prop where
  descending : (counter.returned.map Prod.snd).Pairwise (· > ·)
  reached : ∀ r ∈ counter.returned, ∃ value, counter.value = some value ∧ r.2 ≤ value

theorem Counter.ahead_start (present : Option ℤ) :
    (⟨present, []⟩ : Counter ι).Ahead :=
  ⟨List.Pairwise.nil, nofun⟩

section

variable {counter : Counter ι}

/-- An id above the counter is above all ids. -/
theorem Counter.Ahead.give (hahead : counter.Ahead) (i : ι) {id : ℤ}
    (habove : ∀ value, counter.value = some value → value < id) : (counter.give i id).Ahead := by
  have hbelow : ∀ r ∈ counter.returned, r.2 < id := by
    intro r hr
    obtain ⟨value, hvalue, hle⟩ := hahead.reached r hr
    exact hle.trans_lt (habove value hvalue)
  constructor
  · refine List.pairwise_cons.mpr ⟨fun id' hid' => ?_, hahead.descending⟩
    obtain ⟨r, hr, rfl⟩ := List.mem_map.mp hid'
    exact hbelow r hr
  · intro r hr
    refine ⟨id, rfl, ?_⟩
    obtain rfl | hr := List.mem_cons.mp hr
    · exact le_rfl
    · exact (hbelow r hr).le

theorem Counter.Ahead.raise (hahead : counter.Ahead) {id : ℤ}
    (habove : ∀ value, counter.value = some value → value < id) :
    Counter.Ahead { counter with value := some id } := by
  refine ⟨hahead.descending, fun r hr => ⟨id, rfl, ?_⟩⟩
  obtain ⟨value, hvalue, hle⟩ := hahead.reached r hr
  exact (hle.trans_lt (habove value hvalue)).le

theorem Counter.Ahead.distinctIds [DecidableEq ι] (hahead : counter.Ahead) :
    DistinctIds counter.returned where
  nodup := hahead.descending.imp fun h => h.ne'
  increasing _ := hahead.descending.sublist (List.filter_sublist.map Prod.snd)

end

/-- In every run whose SETs raise the counter, of any number of clients, no id is
given twice and each client's ids increase. -/
theorem distinctIds_of_raises [DecidableEq ι] (float64 : ℤ → ℤ) (present : Option ℤ)
    (s : IdClients ι)
    (hs : Driven (Processes.step (generateAutoIncrementId float64)) Raises (idClients present) s) :
    DistinctIds s.shared.returned := by
  refine (Processes.invariant (J := Counter.Ahead) (L := fun _ _ _ => True)
    ⟨Counter.ahead_start present, fun _ => trivial⟩ ?_ hs).1.distinctIds
  rintro s i input counter c hahead - hraises hact
  refine ⟨?_, trivial, fun _ _ => trivial⟩
  obtain rfl | ⟨id, hwritten, rfl⟩ | ⟨increment, hpos, rfl | rfl⟩ :=
    generateAutoIncrementId_spec hact
  · exact hahead
  · exact hahead.give i fun value hvalue => hraises id hwritten value hvalue
  · refine hahead.raise fun value hvalue => ?_
    rw [hvalue, Option.getD_some]
    omega
  · refine hahead.give i fun value hvalue => ?_
    rw [hvalue, Option.getD_some]
    omega

/-! ## Two clients at the start -/

def plainRequest : IdRequest := ⟨.python, 1, none, le_rfl⟩

/-- The second INCRBY comes before the first client's correction. -/
def firstIds : List (Fin 2 × Option IdRequest) :=
  [(0, some plainRequest), (0, none), (1, some plainRequest), (1, none), (0, none)]

theorem second_client_same_id :
    ¬ ∀ s : IdClients (Fin 2),
      Driven (Processes.step (generateAutoIncrementId id)) (fun _ _ => True) (idClients none) s →
        DistinctIds s.shared.returned := by
  have hrun : (drive (Processes.step (generateAutoIncrementId id)) firstIds (idClients none)).map
      (fun s => s.shared.returned) = some [(0, 2), (1, 2)] := by
    decide
  obtain ⟨s, hs, hreturned⟩ := Driven.exists_of_map_drive hrun
  intro hlaw
  have hnodup := (hlaw s hs).nodup
  rw [hreturned] at hnodup
  exact absurd hnodup (by decide)

/-- A client corrects its first id before the other asks; the other wants at
least ten. -/
def secondIds : List (Fin 2 × Option IdRequest) :=
  [(0, some plainRequest), (0, none), (0, none),
    (1, some { plainRequest with ensureMinimum := some 10 }), (1, none), (1, none),
    (0, some plainRequest), (0, none)]

theorem one_by_one_distinctIds :
    ∃ s, drive (Processes.step (generateAutoIncrementId id)) secondIds (idClients none) = some s ∧
      DistinctIds s.shared.returned := by
  have hmeets : Meets (Processes.step (generateAutoIncrementId id)) Raises secondIds
      (idClients none) := by
    decide
  have hsome : (drive (Processes.step (generateAutoIncrementId id)) secondIds
      (idClients none)).isSome = true := by
    decide
  obtain ⟨s, hs, hrun⟩ := Driven.exists_of_meets hmeets hsome
  exact ⟨s, hs, distinctIds_of_raises id none s hrun⟩

end RagflowMineru.Redis
