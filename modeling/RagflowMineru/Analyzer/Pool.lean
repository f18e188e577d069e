import RagflowMineru.Library.Driven
import RagflowMineru.Library.Table
import Mathlib.Algebra.Order.Group.Int

/-!
# The pool of analyzers

The Go server keeps copies of one analyzer in a channel.  A call takes a copy out, or
makes a new one as long as the counter allows it, and puts it back; a goroutine takes out
copies that have been idle, and `Close` takes out all.  A step is one atomic operation of
one goroutine.
-/

namespace RagflowMineru.Analyzer

open RagflowMineru.Library

/-- `MinSize` and `MaxSize`, once `Init` has set the defaults. -/
structure PoolConfig where
  minSize : ℤ
  maxSize : ℤ
  pos : 0 ≤ minSize
  le : minSize ≤ maxSize

namespace PoolConfig

/-- The defaults of `Init`. -/
def orDefault (size default : ℤ) : ℤ := if size ≤ 0 then default else size

theorem orDefault_nonneg (size : ℤ) (cpus factor : ℕ) :
    0 ≤ orDefault size (cpus * factor : ℕ) := by
  rw [orDefault]
  split <;> omega

theorem min_orDefault_nonneg (cpus : ℕ) (minSize maxSize : ℤ) :
    0 ≤ min (orDefault minSize (cpus * 2 : ℕ)) (orDefault maxSize (cpus * 16 : ℕ)) :=
  le_min (orDefault_nonneg _ _ _) (orDefault_nonneg _ _ _)

def init (cpus : ℕ) (minSize maxSize : ℤ) : PoolConfig where
  minSize := min (orDefault minSize (cpus * 2 : ℕ)) (orDefault maxSize (cpus * 16 : ℕ))
  maxSize := orDefault maxSize (cpus * 16 : ℕ)
  pos := min_orDefault_nonneg cpus minSize maxSize
  le := min_le_right _ _

end PoolConfig

/-- Where a call of `withAnalyzer` stands, from the check of `acquire` to the end of
`release`. -/
inductive Stage
  | checking
  | polling
  | loading
  | swapping (current : ℤ)
  | creating
  | failing
  | waiting
  | inUse (number : ℕ)
  | releasing (number : ℕ)
  | returning (number : ℕ)
  /-- The pool was full. -/
  | overflowing (number : ℕ)
  | uncounting
  deriving Inhabited, DecidableEq

/-- Where `shrink` stands; `toRemove` has been taken out of the channel. -/
inductive Shrink
  | idle
  | loading
  | collecting (left : ℕ) (toRemove : List ℕ)
  | judging (number left : ℕ) (toRemove : List ℕ)
  | closing (rest : List ℕ) (removed : ℕ)

/-- How far `Close` has come: the flag is down, the shrink loop has ended, the channel is
closed, everything is closed. -/
inductive Closing
  | opened
  | flagged
  | stopped
  | draining
  | closed
  deriving DecidableEq

/-- The pool and its goroutines.  Instances are numbered as they are made; `closed` are
those on which `Close` has been called, `lost` those in the hands of a goroutine that has
panicked, and `failures` counts the creations that have failed. -/
structure Pool where
  instances : List ℕ
  currentSize : ℤ
  base : Bool
  closing : Closing
  calls : Table ℕ Stage
  shrink : Shrink
  created : ℕ
  closed : List ℕ
  lost : List ℕ
  panics : ℕ
  failures : ℕ

/-- `answer` is whether a creation succeeds, an acquisition has timed out, an instance has
been idle for long. -/
inductive Input
  | call (g : ℕ)
  | proceed (g : ℕ) (answer : Bool)
  | tick
  | shrink (answer : Bool)
  | close

namespace Pool

/-- `Init` has filled the channel. -/
def init (c : PoolConfig) : Pool where
  instances := List.range c.minSize.toNat
  currentSize := c.minSize
  base := true
  closing := .opened
  calls := Table.empty
  shrink := .idle
  created := c.minSize.toNat
  closed := []
  lost := []
  panics := 0
  failures := 0

def initialized (s : Pool) : Bool := s.closing = .opened

/-- `p.instances` has been closed. -/
def channelClosed (s : Pool) : Bool := s.closing = .draining ∨ s.closing = .closed

def goto (s : Pool) (g : ℕ) (st : Stage) : Pool :=
  { s with calls := s.calls.update g fun _ => st }

def finish (s : Pool) (g : ℕ) : Pool := { s with calls := s.calls.delete g }

def panic (s : Pool) (g : ℕ) : Pool := { s.finish g with panics := s.panics + 1 }

def close (s : Pool) (k : ℕ) : Pool := { s with closed := k :: s.closed }

/-- The receive of a select: from a closed channel it is a nil instance, and the
assignment to its field panics. -/
def receive (s : Pool) (g : ℕ) (otherwise : Option Pool) : Option Pool :=
  match s.instances with
  | k :: rest => some ({ s with instances := rest }.goto g (.inUse k))
  | [] => if s.channelClosed then some (s.panic g) else otherwise

/-- The next operation of a call. -/
def advance (c : PoolConfig) (s : Pool) (g : ℕ) (answer : Bool) : Stage → Option Pool
  | .checking => if s.initialized then some (s.goto g .polling) else some (s.finish g)
  | .polling => s.receive g (some (s.goto g .loading))
  | .loading =>
      if s.currentSize < c.maxSize then some (s.goto g (.swapping s.currentSize))
      else some (s.goto g .waiting)
  | .swapping current =>
      if s.currentSize = current then
        some ({ s with currentSize := current + 1 }.goto g .creating)
      else some (s.goto g .waiting)
  | .creating =>
      if answer ∧ s.base then
        some ({ s with created := s.created + 1 }.goto g (.inUse s.created))
      else some (s.goto g .failing)
  | .failing =>
      some ({ s with
        currentSize := s.currentSize - 1
        failures := s.failures + 1 }.finish g)
  | .waiting => if answer then some (s.finish g) else s.receive g none
  | .inUse k => some (s.goto g (.releasing k))
  | .releasing k =>
      if s.initialized then some (s.goto g (.returning k)) else some ((s.close k).finish g)
  | .returning k =>
      if s.channelClosed then some ({ s with lost := k :: s.lost }.panic g)
      else if (s.instances.length : ℤ) < c.maxSize then
        some ({ s with instances := s.instances ++ [k] }.finish g)
      else some (s.goto g (.overflowing k))
  | .overflowing k => some ((s.close k).goto g .uncounting)
  | .uncounting => some ({ s with currentSize := s.currentSize - 1 }.finish g)

/-- The next operation of `shrink`; the break of its empty select only leaves the
select. -/
def advanceShrink (c : PoolConfig) (s : Pool) (answer : Bool) : Shrink → Option Pool
  | .idle => none
  | .loading =>
      if s.currentSize ≤ c.minSize then some { s with shrink := .idle }
      else some { s with shrink := .collecting (s.currentSize - c.minSize).toNat [] }
  | .collecting 0 [] => some { s with shrink := .idle }
  | .collecting 0 (k :: rest) => some { s with shrink := .closing (k :: rest) (rest.length + 1) }
  | .collecting (left + 1) toRemove =>
      match s.instances with
      | [] => some { s with shrink := .collecting left toRemove }
      | k :: rest => some { s with instances := rest, shrink := .judging k left toRemove }
  | .judging k left toRemove =>
      if answer ∨ c.maxSize ≤ s.instances.length then
        some { s with shrink := .collecting left (toRemove ++ [k]) }
      else some { s with
        instances := s.instances ++ [k]
        shrink := .collecting left toRemove }
  | .closing (k :: rest) removed => some { s.close k with shrink := .closing rest removed }
  | .closing [] removed =>
      some { s with currentSize := s.currentSize - removed, shrink := .idle }

def advanceClose (s : Pool) : Closing → Option Pool
  | .opened => some { s with closing := .flagged }
  | .flagged =>
      match s.shrink with
      | .idle => some { s with closing := .stopped }
      | _ => none
  | .stopped => some { s with closing := .draining }
  | .draining =>
      match s.instances with
      | k :: rest => some { s.close k with instances := rest }
      | [] => some { s with closing := .closed, base := false }
  | .closed => none

def step (c : PoolConfig) (s : Pool) : Input → Option Pool
  | .call g =>
      if g ∈ s.calls.keys then none
      else some { s with calls := s.calls.insert g .checking }
  | .proceed g answer => (s.calls.get? g).bind (s.advance c g answer)
  | .tick =>
      match s.shrink, s.closing with
      | .idle, .opened => some { s with shrink := .loading }
      | _, _ => none
  | .shrink answer => s.advanceShrink c answer s.shrink
  | .close => s.advanceClose s.closing

end Pool

/-! ## Where the instances are -/

/-- The instance in the hands of a call. -/
def Stage.held : Stage → Option ℕ
  | .inUse k | .releasing k | .returning k | .overflowing k => some k
  | _ => none

def Stage.holds (k : ℕ) (st : Stage) : ℤ := if st.held = some k then 1 else 0

/-- Whether the counter counts the call: it has an instance, or it is about to make one
or to take one off. -/
def Stage.weight : Stage → ℤ
  | .creating | .failing | .inUse _ | .releasing _ | .returning _ | .overflowing _
  | .uncounting => 1
  | _ => 0

/-- The stages that are ever reached; what has been loaded for the swap left room. -/
def Stage.Ok (c : PoolConfig) : Stage → Prop
  | .swapping current => current < c.maxSize
  | .overflowing _ | .uncounting => False
  | _ => True

/-- The call is about to use the channel, or may come to it without another look at the
flag. -/
def Stage.atChannel : Stage → Bool
  | .polling | .loading | .swapping _ | .waiting | .returning _ => true
  | _ => false

def Shrink.holds (k : ℕ) : Shrink → ℤ
  | .idle | .loading => 0
  | .collecting _ toRemove => toRemove.count k
  | .judging k' _ toRemove => (if k' = k then 1 else 0) + toRemove.count k
  | .closing rest _ => rest.count k

/-- The instances that the counter still counts for the shrink loop. -/
def Shrink.weight : Shrink → ℤ
  | .idle | .loading => 0
  | .collecting _ toRemove => toRemove.length
  | .judging _ _ toRemove => 1 + toRemove.length
  | .closing _ removed => removed

/-- How many it will take off the counter at most. -/
def Shrink.plan : Shrink → ℤ
  | .idle | .loading => 0
  | .collecting left toRemove => left + toRemove.length
  | .judging _ left toRemove => left + 1 + toRemove.length
  | .closing _ removed => removed

theorem Stage.holds_of_held {k' : ℕ} {st : Stage} (h : st.held = some k') (k : ℕ) :
    st.holds k = if k' = k then 1 else 0 := by
  rw [holds, h]
  simp only [Option.some_inj]

theorem Stage.holds_of_held_none {st : Stage} (h : st.held = none) (k : ℕ) : st.holds k = 0 := by
  rw [holds, h, if_neg (by simp)]

theorem Stage.holds_nonneg (k : ℕ) (st : Stage) : 0 ≤ st.holds k := by
  rw [holds]
  split <;> omega

theorem Stage.weight_nonneg (st : Stage) : 0 ≤ st.weight := by
  cases st <;> simp [weight]

theorem Shrink.holds_nonneg (k : ℕ) (sh : Shrink) : 0 ≤ sh.holds k := by
  cases sh with
  | judging k' left toRemove =>
      rw [holds]
      split <;> omega
  | idle => exact le_rfl
  | loading => exact le_rfl
  | collecting left toRemove => exact Int.natCast_nonneg _
  | closing rest removed => exact Int.natCast_nonneg _

theorem Shrink.weight_nonneg (sh : Shrink) : 0 ≤ sh.weight := by
  cases sh with
  | idle => exact le_rfl
  | loading => exact le_rfl
  | collecting left toRemove => exact Int.natCast_nonneg _
  | judging k left toRemove =>
      rw [weight]
      omega
  | closing rest removed => exact Int.natCast_nonneg _

namespace Pool

/-- How often the instance `k` is anywhere. -/
def custody (s : Pool) (k : ℕ) : ℤ :=
  s.instances.count k + s.calls.total (Stage.holds k) + s.shrink.holds k +
    s.closed.count k + s.lost.count k

/-- The instances that there are, and those that are about to be made. -/
def size (s : Pool) : ℤ :=
  s.instances.length + s.calls.total Stage.weight + s.shrink.weight

variable {c : PoolConfig} {s t : Pool} {g k : ℕ} {st : Stage} {answer : Bool}

theorem total_goto (h : s.calls.get? g = some st) (f : Stage → ℤ) (st' : Stage) :
    (s.calls.update g fun _ => st').total f = s.calls.total f - f st + f st' := by
  obtain ⟨hg, rfl⟩ := Table.get?_eq_some_iff.mp h
  exact Table.total_update f hg _

theorem total_finish (h : s.calls.get? g = some st) (f : Stage → ℤ) :
    (s.calls.delete g).total f = s.calls.total f - f st := by
  obtain ⟨hg, rfl⟩ := Table.get?_eq_some_iff.mp h
  exact Table.total_delete f hg

theorem count_cons (k k' : ℕ) (l : List ℕ) :
    ((k' :: l).count k : ℤ) = l.count k + if k' = k then 1 else 0 := by
  by_cases h : k' = k <;> simp [h]

theorem count_append_singleton (k k' : ℕ) (l : List ℕ) :
    ((l ++ [k']).count k : ℤ) = l.count k + if k' = k then 1 else 0 := by
  by_cases h : k' = k <;> simp [h]

/-! ## What a call can do -/

/-- The operations of the calls that are ever reached, by what they do to the pool. -/
inductive Effect (c : PoolConfig) (s : Pool) (g : ℕ) (st : Stage) : Pool → Prop
  | moves {st' : Stage} (held : st'.held = st.held) (weight : st'.weight = st.weight)
      (ok : st'.Ok c) (entry : st'.atChannel = true → s.initialized = true ∨ st.atChannel = true) :
      Effect c s g st (s.goto g st')
  | leaves (held : st.held = none) (weight : st.weight = 0) : Effect c s g st (s.finish g)
  | takes {k : ℕ} {rest : List ℕ} (held : st.held = none) (weight : st.weight = 0)
      (instances : s.instances = k :: rest) :
      Effect c s g st ({ s with instances := rest }.goto g (.inUse k))
  | panics (held : st.held = none) (weight : st.weight = 0)
      (stage : st = .polling ∨ st = .waiting) (closed : s.channelClosed = true) :
      Effect c s g st (s.panic g)
  | reserves (held : st.held = none) (weight : st.weight = 0)
      (room : s.currentSize < c.maxSize) :
      Effect c s g st ({ s with currentSize := s.currentSize + 1 }.goto g .creating)
  | creates (held : st.held = none) (weight : st.weight = 1) :
      Effect c s g st ({ s with created := s.created + 1 }.goto g (.inUse s.created))
  | fails (held : st.held = none) (weight : st.weight = 1) :
      Effect c s g st
        ({ s with currentSize := s.currentSize - 1, failures := s.failures + 1 }.finish g)
  | closes {k : ℕ} (held : st.held = some k) (weight : st.weight = 1)
      (down : s.initialized = false) : Effect c s g st ((s.close k).finish g)
  | loses {k : ℕ} (stage : st = .returning k) (closed : s.channelClosed = true) :
      Effect c s g st ({ s with lost := k :: s.lost }.panic g)
  | returns {k : ℕ} (stage : st = .returning k) (opened : s.channelClosed = false) :
      Effect c s g st ({ s with instances := s.instances ++ [k] }.finish g)

theorem effect_of_receive {otherwise : Option Pool} (hstage : st = .polling ∨ st = .waiting)
    (hother : ∀ t, otherwise = some t → Effect c s g st t)
    (hstep : s.receive g otherwise = some t) : Effect c s g st t := by
  have hheld : st.held = none := by
    obtain rfl | rfl := hstage <;> rfl
  have hweight : st.weight = 0 := by
    obtain rfl | rfl := hstage <;> rfl
  rw [receive] at hstep
  split at hstep
  · rename_i k rest hinstances
    cases hstep
    exact .takes hheld hweight hinstances
  · split at hstep
    · rename_i hclosed
      cases hstep
      exact .panics hheld hweight hstage hclosed
    · exact hother t hstep

/-- An instance that a call has in its hands leaves room for itself in the channel. -/
theorem effect_of_advance (hok : st.Ok c)
    (hroom : st.weight = 1 → (s.instances.length : ℤ) < c.maxSize)
    (hstep : s.advance c g answer st = some t) : Effect c s g st t := by
  cases st with
  | checking =>
      rw [advance] at hstep
      split at hstep <;> cases hstep
      · rename_i hinitialized
        exact .moves rfl rfl trivial fun _ => .inl hinitialized
      · exact .leaves rfl rfl
  | polling =>
      refine effect_of_receive (.inl rfl) (fun t ht => ?_) hstep
      cases ht
      exact .moves rfl rfl trivial fun _ => .inr rfl
  | loading =>
      rw [advance] at hstep
      split at hstep <;> cases hstep
      · rename_i hlt
        exact .moves rfl rfl hlt fun _ => .inr rfl
      · exact .moves rfl rfl trivial fun _ => .inr rfl
  | swapping current =>
      rw [advance] at hstep
      split at hstep <;> cases hstep
      · rename_i heq
        subst heq
        exact .reserves rfl rfl hok
      · exact .moves rfl rfl trivial fun _ => .inr rfl
  | creating =>
      rw [advance] at hstep
      split at hstep <;> cases hstep
      · exact .creates rfl rfl
      · exact .moves rfl rfl trivial nofun
  | failing =>
      cases hstep
      exact .fails rfl rfl
  | waiting =>
      rw [advance] at hstep
      split at hstep
      · cases hstep
        exact .leaves rfl rfl
      · exact effect_of_receive (.inr rfl) (fun t ht => by cases ht) hstep
  | inUse k =>
      cases hstep
      exact .moves rfl rfl trivial nofun
  | releasing k =>
      rw [advance] at hstep
      split at hstep <;> cases hstep
      · rename_i hinitialized
        exact .moves rfl rfl trivial fun _ => .inl hinitialized
      · rename_i hdown
        exact .closes rfl rfl (Bool.eq_false_iff.mpr hdown)
  | returning k =>
      rw [advance] at hstep
      split at hstep
      · rename_i hclosed
        cases hstep
        exact .loses rfl hclosed
      · rename_i hopened
        rw [if_pos (hroom rfl)] at hstep
        cases hstep
        exact .returns rfl (Bool.eq_false_iff.mpr hopened)
  | overflowing k => exact hok.elim
  | uncounting => exact hok.elim

/-- An instance is handed on, or made. -/
theorem Effect.custody (heffect : Effect c s g st t) (h : s.calls.get? g = some st) (k : ℕ) :
    t.custody k - (if k < t.created then 1 else 0) =
      s.custody k - if k < s.created then 1 else 0 := by
  cases heffect with
  | @moves st' held weight ok entry =>
      have hst : st'.holds k = st.holds k := by rw [Stage.holds, Stage.holds, held]
      simp only [Pool.custody, goto, total_goto h, hst]
      omega
  | leaves held weight =>
      simp only [Pool.custody, finish, total_finish h, Stage.holds_of_held_none held]
      omega
  | @takes k' rest held weight instances =>
      have hst : (Stage.inUse k').holds k = if k' = k then 1 else 0 := Stage.holds_of_held rfl k
      simp only [Pool.custody, goto, total_goto h, Stage.holds_of_held_none held, instances,
        count_cons, hst]
      omega
  | panics held weight stage closed =>
      simp only [Pool.custody, panic, finish, total_finish h, Stage.holds_of_held_none held]
      omega
  | reserves held weight room =>
      have hst : Stage.creating.holds k = 0 := Stage.holds_of_held_none rfl k
      simp only [Pool.custody, goto, total_goto h, Stage.holds_of_held_none held, hst]
      omega
  | creates held weight =>
      have hst : (Stage.inUse s.created).holds k = if s.created = k then 1 else 0 :=
        Stage.holds_of_held rfl k
      simp only [Pool.custody, goto, total_goto h, Stage.holds_of_held_none held, hst]
      split_ifs <;> omega
  | fails held weight =>
      simp only [Pool.custody, finish, total_finish h, Stage.holds_of_held_none held]
      omega
  | closes held weight down =>
      simp only [Pool.custody, finish, close, total_finish h, Stage.holds_of_held held, count_cons]
      omega
  | @loses k' stage closed =>
      subst stage
      have hst : (Stage.returning k').holds k = if k' = k then 1 else 0 :=
        Stage.holds_of_held rfl k
      simp only [Pool.custody, panic, finish, total_finish h, hst, count_cons]
      omega
  | @returns k' stage opened =>
      subst stage
      have hst : (Stage.returning k').holds k = if k' = k then 1 else 0 :=
        Stage.holds_of_held rfl k
      simp only [Pool.custody, finish, total_finish h, hst, count_append_singleton]
      omega

/-- The counter follows; an instance that is closed or lost while the pool goes down is
not taken off. -/
theorem Effect.size (heffect : Effect c s g st t) (h : s.calls.get? g = some st) :
    t.currentSize - t.size = s.currentSize - s.size ∨
      s.initialized = false ∧ t.currentSize - t.size = s.currentSize - s.size + 1 := by
  cases heffect with
  | moves held weight ok entry =>
      simp only [Pool.size, goto, total_goto h, weight]
      omega
  | leaves held weight =>
      simp only [Pool.size, finish, total_finish h, weight]
      omega
  | @takes k rest held weight instances =>
      have hst : Stage.weight (.inUse k) = 1 := rfl
      simp only [Pool.size, goto, total_goto h, weight, instances, hst, List.length_cons]
      omega
  | panics held weight stage closed =>
      simp only [Pool.size, panic, finish, total_finish h, weight]
      omega
  | reserves held weight room =>
      have hst : Stage.weight .creating = 1 := rfl
      simp only [Pool.size, goto, total_goto h, weight, hst]
      omega
  | creates held weight =>
      have hst : Stage.weight (.inUse s.created) = 1 := rfl
      simp only [Pool.size, goto, total_goto h, weight, hst]
      omega
  | fails held weight =>
      simp only [Pool.size, finish, total_finish h, weight]
      omega
  | closes held weight down =>
      simp only [Pool.size, finish, close, total_finish h, weight]
      exact .inr ⟨down, by omega⟩
  | loses stage closed =>
      subst stage
      refine .inr ⟨?_, ?_⟩
      · rw [initialized, decide_eq_false_iff_not]
        rw [channelClosed, decide_eq_true_eq] at closed
        obtain hc | hc := closed <;> rw [hc] <;> decide
      · simp only [Pool.size, panic, finish, total_finish h, Stage.weight]
        omega
  | returns stage opened =>
      subst stage
      simp only [Pool.size, finish, total_finish h, Stage.weight, List.length_append,
        List.length_singleton]
      omega

end Pool

end RagflowMineru.Analyzer
