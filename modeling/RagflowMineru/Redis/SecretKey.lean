import RagflowMineru.Library.Processes

/-!
# One secret key for all servers

At start-up every server asks Redis for the secret key and offers a fresh value
in case there is none.  The calls interleave command by command; nothing deletes
the key.
-/

namespace RagflowMineru.Redis

open RagflowMineru.Library

variable {ι : Type*}

/-- The next command of a call of `get_or_create_secret_key`. -/
inductive KeyCall
  | get
  | setnx
  | getAgain
  | returned (value : String)
  deriving DecidableEq

/-- One command of the call of `i`. -/
def getOrCreateSecretKey (newValue : ι → String) (i : ι) (key : Option String) :
    KeyCall → Unit → Option (Option String × KeyCall)
  | .get, _ =>
      match key with
      | some existingValue => some (key, .returned existingValue)
      | none => some (key, .setnx)
  | .setnx, _ =>
      match key with
      | none => some (some (newValue i), .returned (newValue i))
      | some _ => some (key, .getAgain)
  | .getAgain, _ =>
      match key with
      -- the key disappeared: the call starts over
      | none => some (key, .get)
      | some finalKey => some (key, .returned finalKey)
  | .returned _, _ => none

/-- The commands that are left if the key does not disappear. -/
def KeyCall.rank : KeyCall → ℕ
  | get => 3
  | setnx => 2
  | getAgain => 1
  | returned _ => 0

theorem KeyCall.eq_returned_of_rank {c : KeyCall} (h : c.rank ≤ 0) :
    ∃ v, c = .returned v := by
  cases c with
  | returned v => exact ⟨v, rfl⟩
  | get | setnx | getAgain => simp [rank] at h

/-- Redis and the calls. -/
abbrev KeyServers (ι : Type*) := Processes ι (Option String) KeyCall

def keyServers (present : Option String) : KeyServers ι := ⟨present, fun _ => .get⟩

variable {newValue : ι → String} {present : Option String}

/-! ## The key settles -/

/-- A value that somebody brought along. -/
def Proposed (newValue : ι → String) (present : Option String) (v : String) : Prop :=
  present = some v ∨ ∃ j, v = newValue j

/-- What a command does: a key that is there stays, a new one is the caller's own
value, and the caller leaves with the key that is there. -/
theorem getOrCreateSecretKey_spec {i : ι} {key key' : Option String} {c c' : KeyCall}
    (hact : getOrCreateSecretKey newValue i key c () = some (key', c')) :
    (∀ v, key = some v → key' = some v) ∧
      (∀ v, key' = some v → key = some v ∨ v = newValue i) ∧
      (c' = .getAgain → key'.isSome) ∧ ∀ v, c' = .returned v → key' = some v := by
  cases c with
  | returned v => simp [getOrCreateSecretKey] at hact
  | get | setnx | getAgain =>
      cases key with
      | none =>
          simp only [getOrCreateSecretKey, Option.some.injEq, Prod.mk.injEq] at hact
          obtain ⟨rfl, rfl⟩ := hact
          simp [eq_comm]
      | some v =>
          simp only [getOrCreateSecretKey, Option.some.injEq, Prod.mk.injEq] at hact
          obtain ⟨rfl, rfl⟩ := hact
          simp

section

variable [DecidableEq ι]

/-- Redis and the calls after `n` commands in the order of a schedule. -/
def keyAfter (newValue : ι → String) (present : Option String) (schedule : ℕ → ι) :
    ℕ → KeyServers ι :=
  Processes.play (getOrCreateSecretKey newValue) (fun m => (schedule m, ())) (keyServers present)

/-- The key is never one that nobody proposed; a call that counts on a key, or has
left with one, has seen the one that is there. -/
theorem key_settles {s : KeyServers ι}
    (hs : Driven (Processes.step (getOrCreateSecretKey newValue)) (fun _ _ => True)
      (keyServers present) s) :
    (∀ v, s.shared = some v → Proposed newValue present v) ∧
      ∀ i, (s.own i = .getAgain → s.shared.isSome) ∧
        ∀ v, s.own i = .returned v → s.shared = some v := by
  refine Processes.invariant (J := fun key => ∀ v, key = some v → Proposed newValue present v)
    (L := fun _ key c => (c = .getAgain → key.isSome) ∧ ∀ v, c = .returned v → key = some v)
    ?_ ?_ hs
  · exact ⟨fun v h => .inl h, fun i => ⟨nofun, nofun⟩⟩
  · rintro s i ⟨⟩ key c hJ hL - hact
    obtain ⟨hstays, hnew, hagain, hreturned⟩ := getOrCreateSecretKey_spec hact
    refine ⟨fun v hv => ?_, ⟨hagain, hreturned⟩, fun j _ => ⟨fun hj => ?_, fun v hj => ?_⟩⟩
    · obtain hold | rfl := hnew v hv
      · exact hJ v hold
      · exact .inr ⟨i, rfl⟩
    · obtain ⟨v, hv⟩ := Option.isSome_iff_exists.mp ((hL j).1 hj)
      rw [hstays v hv]
      rfl
    · exact hstays v ((hL j).2 v hj)

/-- A key that is there is there for good. -/
theorem key_stays {schedule : ℕ → ι} {n m : ℕ} (hnm : n ≤ m) {v : String}
    (hkey : (keyAfter newValue present schedule n).shared = some v) :
    (keyAfter newValue present schedule m).shared = some v := by
  induction m, hnm using Nat.le_induction with
  | base => exact hkey
  | succ m _ ih =>
      rw [keyAfter, Processes.play]
      rw [keyAfter] at ih
      cases hstep : Processes.step (getOrCreateSecretKey newValue)
          (Processes.play (getOrCreateSecretKey newValue) (fun m => (schedule m, ()))
            (keyServers present) m) (schedule m, ()) with
      | none => exact ih
      | some t => exact (getOrCreateSecretKey_spec (Processes.step_eq_some_iff.mp hstep).1).1 v ih

/-! ## Agreement -/

/-- What the calls come to under a schedule. -/
structure Agreement (newValue : ι → String) (present : Option String) (schedule : ℕ → ι) :
    Prop where
  /-- A call that is given its turns returns. -/
  returns : ∀ i, (∀ n, ∃ m, n ≤ m ∧ schedule m = i) →
    ∃ n v, (keyAfter newValue present schedule n).own i = .returned v
  /-- It takes three commands at most. -/
  returns_within : ∀ i n, 3 ≤ Processes.turns (fun m => (schedule m, ())) i n →
    ∃ v, (keyAfter newValue present schedule n).own i = .returned v
  /-- All calls return the same value, and somebody proposed it. -/
  agree : ∃ v, Proposed newValue present v ∧
    ∀ n i w, (keyAfter newValue present schedule n).own i = .returned w → w = v

/-- The retry is never taken, so that a call is done after three commands. -/
theorem returned_of_turns {schedule : ℕ → ι} {i : ι} {n : ℕ}
    (hturns : 3 ≤ Processes.turns (fun m => (schedule m, ())) i n) :
    ∃ v, (keyAfter newValue present schedule n).own i = .returned v := by
  have hrank : ((keyAfter newValue present schedule n).own i).rank ≤
      KeyCall.get.rank - Processes.turns (fun m => (schedule m, ())) i n := by
    refine Processes.rank_play_le
      (I := Driven (Processes.step (getOrCreateSecretKey newValue)) (fun _ _ => True)
        (keyServers present)) .refl (fun s move t hs hstep => hs.next trivial hstep) ?_ ?_ n
    · intro s a hs hpos
      have hagain := ((key_settles hs).2 i).1
      cases hc : s.own i with
      | returned v => simp [hc, KeyCall.rank] at hpos
      | get | setnx =>
          cases hkey : s.shared <;> simp [getOrCreateSecretKey, KeyCall.rank]
      | getAgain =>
          obtain ⟨v, hkey⟩ := Option.isSome_iff_exists.mp (hagain hc)
          simp [hkey, getOrCreateSecretKey, KeyCall.rank]
    · intro key c a hdone
      obtain ⟨v, rfl⟩ := KeyCall.eq_returned_of_rank hdone.le
      rfl
  refine KeyCall.eq_returned_of_rank (hrank.trans_eq ?_)
  exact Nat.sub_eq_zero_of_le hturns

theorem driven_keyAfter (schedule : ℕ → ι) (n : ℕ) :
    Driven (Processes.step (getOrCreateSecretKey newValue)) (fun _ _ => True)
      (keyServers present) (keyAfter newValue present schedule n) :=
  Processes.driven_play n

theorem key_of_returned {schedule : ℕ → ι} {n : ℕ} {i : ι} {v : String}
    (h : (keyAfter newValue present schedule n).own i = .returned v) :
    (keyAfter newValue present schedule n).shared = some v :=
  ((key_settles (driven_keyAfter schedule n)).2 i).2 v h

/-- In every interleaving all calls return, and all return the same key. -/
theorem getOrCreateSecretKey_agrees (newValue : ι → String) (present : Option String)
    (schedule : ℕ → ι) : Agreement newValue present schedule where
  returns i hfair := by
    obtain ⟨n, hn⟩ : ∃ n, Processes.turns (fun m => (schedule m, ())) i n = 3 :=
      Processes.exists_turns hfair 3
    exact ⟨n, returned_of_turns hn.ge⟩
  returns_within _ _ hturns := returned_of_turns hturns
  agree := by
    by_cases hset : ∃ n v, (keyAfter newValue present schedule n).shared = some v
    · obtain ⟨n, v, hn⟩ := hset
      refine ⟨v, (key_settles (driven_keyAfter schedule n)).1 v hn, fun m i w hw => ?_⟩
      have hm := key_of_returned hw
      obtain hnm | hmn := Nat.le_total n m
      · exact Option.some.inj (hm.symm.trans (key_stays hnm hn))
      · exact Option.some.inj ((key_stays hmn hm).symm.trans hn)
    · -- nobody has come as far as setting the key
      refine ⟨newValue (schedule 0), .inr ⟨schedule 0, rfl⟩, fun m i w hw => ?_⟩
      exact absurd ⟨m, w, key_of_returned hw⟩ hset

end

end RagflowMineru.Redis
