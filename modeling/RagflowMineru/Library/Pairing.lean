import Mathlib.Data.List.Basic
import Mathlib.Data.List.Count

/-!
# Pairing up opening and closing events

A list of events pairs up when its opening and closing events can be taken away
in pairs, an opening event with a later closing one, until none is left.  This
holds exactly when there are as many of both and no prefix has more closing than
opening events, which is the form that an invariant of a run can carry.
-/

namespace RagflowMineru.Library

variable {ε : Type*} {opens closes : ε → Bool}

/-- Every opening event is matched by exactly one later closing event, and every
closing event by an earlier opening one. -/
inductive PairsUp (opens closes : ε → Bool) : List ε → Prop
  | silent {l : List ε}
      (hsilent : ∀ e ∈ l, opens e = false ∧ closes e = false) :
      PairsUp opens closes l
  | pair {l₁ l₂ l₃ : List ε} {o c : ε} (ho : opens o = true)
      (hc : closes c = true) (hrest : PairsUp opens closes (l₁ ++ l₂ ++ l₃)) :
      PairsUp opens closes (l₁ ++ o :: (l₂ ++ c :: l₃))

/-- No prefix has more closing than opening events. -/
def Ordered (opens closes : ε → Bool) (l : List ε) : Prop :=
  ∀ pre post, l = pre ++ post → pre.countP closes ≤ pre.countP opens

theorem opens_eq_false (hdisjoint : ∀ e, opens e = true → closes e = false)
    {c : ε} (hc : closes c = true) : opens c = false := by
  by_contra hne
  have hopen : opens c = true := by simpa using hne
  have hfalse := hdisjoint c hopen
  rw [hc] at hfalse
  exact absurd hfalse (by decide)

/-! ## Extending an ordered list -/

theorem ordered_nil : Ordered opens closes [] := by
  intro pre post hsplit
  have hpre : pre = [] := (List.append_eq_nil_iff.mp hsplit.symm).1
  simp [hpre]

theorem Ordered.append {l m : List ε} (hl : Ordered opens closes l)
    (hm : ∀ pre post, m = pre ++ post →
      l.countP closes + pre.countP closes ≤
        l.countP opens + pre.countP opens) :
    Ordered opens closes (l ++ m) := by
  intro pre post hsplit
  rcases List.append_eq_append_iff.mp hsplit with ⟨mid, hpre, hmid⟩ |
    ⟨mid, hpre, hmid⟩
  · rw [hpre, List.countP_append, List.countP_append]
    exact hm mid post hmid
  · exact hl pre mid hpre

/-- Events that do not close anything may be added. -/
theorem Ordered.append_opens {l m : List ε} (hl : Ordered opens closes l)
    (hm : m.countP closes = 0) : Ordered opens closes (l ++ m) := by
  apply hl.append
  intro pre post hsplit
  have hall := hl l [] (by simp)
  have hpre : pre.countP closes = 0 := by
    rw [hsplit, List.countP_append] at hm
    omega
  omega

/-- Closing events may be added as far as there are opening events for them. -/
theorem Ordered.append_closes {l m : List ε} (hl : Ordered opens closes l)
    (hm : l.countP closes + m.countP closes ≤ l.countP opens) :
    Ordered opens closes (l ++ m) := by
  apply hl.append
  intro pre post hsplit
  rw [hsplit, List.countP_append] at hm
  omega

/-! ## The characterization -/

theorem PairsUp.balanced (hdisjoint : ∀ e, opens e = true → closes e = false)
    {l : List ε} (h : PairsUp opens closes l) :
    l.countP opens = l.countP closes := by
  induction h with
  | @silent l hsilent =>
      have ho : l.countP opens = 0 := by
        rw [List.countP_eq_zero]
        intro e he
        simp [(hsilent e he).1]
      have hc : l.countP closes = 0 := by
        rw [List.countP_eq_zero]
        intro e he
        simp [(hsilent e he).2]
      rw [ho, hc]
  | @pair l₁ l₂ l₃ o c ho hc _ ih =>
      have hco := opens_eq_false hdisjoint hc
      simp only [List.countP_append, List.countP_cons, ho, hc, hco,
        hdisjoint o ho] at ih ⊢
      simp
      omega

theorem PairsUp.ordered (hdisjoint : ∀ e, opens e = true → closes e = false)
    {l : List ε} (h : PairsUp opens closes l) : Ordered opens closes l := by
  induction h with
  | @silent l hsilent =>
      intro pre post hsplit
      have hc : pre.countP closes = 0 := by
        rw [List.countP_eq_zero]
        intro e he
        have hmem : e ∈ l := by simp [hsplit, he]
        simp [(hsilent e hmem).2]
      omega
  | @pair l₁ l₂ l₃ o c ho hc _ ih =>
      intro pre post hsplit
      have hoc : closes o = false := hdisjoint o ho
      -- the prefix ends in `l₁`, in `l₂` or in `l₃`
      rcases List.append_eq_append_iff.mp hsplit with ⟨x, hpre, hx⟩ |
        ⟨x, hpre, -⟩
      · rcases List.cons_eq_append_iff.mp hx with ⟨rfl, -⟩ | ⟨y, rfl, hy⟩
        · have h₁ := ih l₁ (l₂ ++ l₃) (by simp)
          simpa [hpre] using h₁
        · rcases List.append_eq_append_iff.mp hy with ⟨z, rfl, hz⟩ |
            ⟨z, rfl, -⟩
          · rcases List.cons_eq_append_iff.mp hz with ⟨rfl, -⟩ | ⟨v, rfl, hv⟩
            · have h₂ := ih (l₁ ++ l₂) l₃ rfl
              simp only [hpre, List.countP_append, List.countP_cons, ho, hoc,
                List.append_nil] at h₂ ⊢
              simp
              omega
            · have h₃ := ih (l₁ ++ l₂ ++ v) post (by simp [hv])
              simp only [hpre, List.countP_append, List.countP_cons, ho, hoc,
                hc] at h₃ ⊢
              simp
              omega
          · have h₂ := ih (l₁ ++ y) (z ++ l₃) (by simp)
            simp only [hpre, List.countP_append, List.countP_cons, ho, hoc]
              at h₂ ⊢
            simp
            omega
      · exact ih pre (x ++ l₂ ++ l₃) (by simp [hpre])

/-- The first closing event has an opening one before it, and without the two
the list is still ordered. -/
theorem Ordered.split (hdisjoint : ∀ e, opens e = true → closes e = false)
    {l : List ε} (hl : Ordered opens closes l) (hpos : 0 < l.countP closes) :
    ∃ l₁ o l₂ c l₃, l = l₁ ++ o :: (l₂ ++ c :: l₃) ∧ opens o = true ∧
      closes c = true ∧ Ordered opens closes (l₁ ++ l₂ ++ l₃) := by
  have hfind : ∃ c, l.find? closes = some c := by
    obtain ⟨e, he, hc⟩ := List.countP_pos_iff.mp hpos
    exact Option.isSome_iff_exists.mp (List.find?_isSome.mpr ⟨e, he, hc⟩)
  obtain ⟨c, hfound⟩ := hfind
  obtain ⟨hc, front, l₃, rfl, hfront⟩ := List.find?_eq_some_iff_append.mp hfound
  have hco := opens_eq_false hdisjoint hc
  have hnone : front.countP closes = 0 := by
    rw [List.countP_eq_zero]
    intro e he
    simpa using hfront e he
  have hopen : 0 < front.countP opens := by
    have hup := hl (front ++ [c]) l₃ (by simp)
    simp only [List.countP_append, List.countP_singleton, hc, hco] at hup
    simp at hup
    omega
  obtain ⟨o, hmem, ho⟩ := List.countP_pos_iff.mp hopen
  obtain ⟨l₁, l₂, rfl⟩ := List.append_of_mem hmem
  refine ⟨l₁, o, l₂, c, l₃, by simp, ho, hc, ?_⟩
  rw [List.countP_append, List.countP_cons] at hnone
  have hrest : Ordered opens closes (l₁ ++ l₂) := by
    intro pre post hsplit
    have hzero : (pre ++ post).countP closes = 0 := by
      rw [← hsplit, List.countP_append]
      omega
    rw [List.countP_append] at hzero
    omega
  apply hrest.append
  intro pre post hsplit
  have hup := hl (l₁ ++ o :: l₂ ++ c :: pre) post (by simp [hsplit])
  simp only [List.countP_append, List.countP_cons, ho, hc, hco,
    hdisjoint o ho] at hup ⊢
  simp at hup
  omega

theorem pairsUp_iff (hdisjoint : ∀ e, opens e = true → closes e = false)
    {l : List ε} :
    PairsUp opens closes l ↔
      l.countP opens = l.countP closes ∧ Ordered opens closes l := by
  constructor
  · intro h
    exact ⟨h.balanced hdisjoint, h.ordered hdisjoint⟩
  · rintro ⟨hbalanced, hl⟩
    generalize hn : l.countP closes = n at hbalanced
    induction n generalizing l with
    | zero =>
        apply PairsUp.silent
        intro e he
        have ho := List.countP_eq_zero.mp hbalanced e he
        have hc := List.countP_eq_zero.mp hn e he
        simpa using And.intro ho hc
    | succ n ih =>
        obtain ⟨l₁, o, l₂, c, l₃, rfl, ho, hc, hrest⟩ :=
          hl.split hdisjoint (by omega)
        apply PairsUp.pair ho hc
        have hco := opens_eq_false hdisjoint hc
        simp only [List.countP_append, List.countP_cons, ho, hc, hco,
          hdisjoint o ho] at hn hbalanced
        simp at hn hbalanced
        apply ih hrest
        · simp only [List.countP_append]
          omega
        · simp only [List.countP_append]
          omega

end RagflowMineru.Library
