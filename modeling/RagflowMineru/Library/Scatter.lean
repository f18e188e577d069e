import RagflowMineru.Library.Buckets
import Mathlib.Data.List.Nodup

/-!
# Work that is sent home

Pieces of work from many owners are done in groups, one group for each key, and
each result is sent home to its owner.  An owner then has the results of its own
pieces, in the order in which the groups came; so the groups matter to it only
by their order.
-/

namespace RagflowMineru.Library

variable {κ ι α : Type*}

/-! ## Results sent home -/

/-- What has been sent home to each owner. -/
theorem foldl_modify_eq_mapIdx (home : ι → ℕ) (f : ι → α → α) (work : List ι) (l : List α) :
    work.foldl (fun l c => l.modify (home c) (f c)) l =
      l.mapIdx fun i a => (work.filter fun c => home c = i).foldl (fun a c => f c a) a := by
  induction work generalizing l with
  | nil =>
      apply List.ext_getElem?
      intro i
      simp
  | cons c work ih =>
      rw [List.foldl_cons, ih]
      apply List.ext_getElem?
      intro i
      rw [List.getElem?_mapIdx, List.getElem?_mapIdx, List.getElem?_modify]
      by_cases hc : home c = i
      · simp [hc, Function.comp_def]
      · simp [hc]

/-- Of the work of all owners, `i` is owed what it asked for itself. -/
theorem filter_home {γ : Type*} {home : ι → ℕ} {ask : γ → ℕ → List ι}
    (hhome : ∀ a i, ∀ c ∈ ask a i, home c = i) (l : List γ) (i : ℕ) :
    ((l.zipIdx.flatMap fun a => ask a.1 a.2).filter fun c => home c = i) =
      (l[i]?.map fun a => ask a i).getD [] := by
  have hshift : ∀ n, ((l.zipIdx n).flatMap fun a => ask a.1 a.2).filter (fun c => home c = i) =
      if n ≤ i then (l[i - n]?.map fun a => ask a i).getD [] else [] := by
    induction l with
    | nil => simp
    | cons a l ih =>
        intro n
        rw [List.zipIdx_cons, List.flatMap_cons, List.filter_append, ih]
        by_cases hn : n = i
        · subst n
          have hall : (ask a i).filter (fun c => home c = i) = ask a i := by
            rw [List.filter_eq_self]
            intro c hc
            simpa using hhome a i c hc
          simp [hall]
        · have hnone : (ask a n).filter (fun c => home c = i) = [] := by
            rw [List.filter_eq_nil_iff]
            intro c hc
            simpa [hhome a n c hc] using hn
          rw [hnone, List.nil_append]
          by_cases hle : n + 1 ≤ i
          · have hlt : n ≤ i := by omega
            have hsub : i - n = (i - (n + 1)) + 1 := by omega
            rw [if_pos hle, if_pos hlt, hsub, List.getElem?_cons_succ]
          · have hgt : ¬ n ≤ i := by omega
            rw [if_neg hle, if_neg hgt]
  rw [hshift 0, if_pos (Nat.zero_le i), Nat.sub_zero]

/-- Where each owner's own work makes `h` of it, all the work sent home makes `h` of all. -/
theorem foldl_modify_asked {γ : Type*} {home : ι → ℕ} {ask : γ → ℕ → List ι}
    (hhome : ∀ a i, ∀ c ∈ ask a i, home c = i) (f : ι → α → α) (l : List γ) (g h : γ → α)
    (hown : ∀ a i, (ask a i).foldl (fun b c => f c b) (g a) = h a) :
    (l.zipIdx.flatMap fun a => ask a.1 a.2).foldl (fun s c => s.modify (home c) (f c))
      (l.map g) = l.map h := by
  rw [foldl_modify_eq_mapIdx]
  apply List.ext_getElem?
  intro i
  rw [List.getElem?_mapIdx, List.getElem?_map, List.getElem?_map, filter_home hhome]
  rcases l[i]? with - | a
  · rfl
  · exact congrArg some (hown a i)

/-! ## The order of the groups -/

variable [DecidableEq κ]

/-- The keys in the order in which they first come. -/
def firsts (ks : List κ) : List κ :=
  ks.foldl (fun seen k => if k ∈ seen then seen else seen ++ [k]) []

theorem firsts_concat (ks : List κ) (k : κ) :
    firsts (ks ++ [k]) = if k ∈ firsts ks then firsts ks else firsts ks ++ [k] := by
  rw [firsts, List.foldl_append]
  rfl

theorem mem_firsts {ks : List κ} {k : κ} : k ∈ firsts ks ↔ k ∈ ks := by
  induction ks using List.reverseRecOn with
  | nil => rfl
  | append_singleton ks k' ih =>
      rw [firsts_concat, List.mem_append, List.mem_singleton, ← ih]
      split_ifs with hk
      · constructor
        · exact Or.inl
        · rintro (h | rfl)
          · exact h
          · exact hk
      · rw [List.mem_append, List.mem_singleton]

theorem nodup_firsts (ks : List κ) : (firsts ks).Nodup := by
  induction ks using List.reverseRecOn with
  | nil => exact List.nodup_nil
  | append_singleton ks k ih =>
      rw [firsts_concat]
      split_ifs with hk
      · exact ih
      · rw [List.nodup_append]
        refine ⟨ih, List.nodup_singleton k, ?_⟩
        rintro a ha _ hb rfl
        exact hk (List.mem_singleton.mp hb ▸ ha)

/-- Groups in the order of their keys, and in each the items that have the key. -/
theorem buckets_eq_map (key : ι → κ) (items : List ι) :
    buckets (fun i => [key i]) items =
      (firsts (items.map key)).map fun k => (k, items.filter fun i => key i = k) := by
  have hkeys : (buckets (fun i => [key i]) items).keys = firsts (items.map key) := by
    induction items using List.reverseRecOn with
    | nil => rfl
    | append_singleton items i ih =>
        rw [List.map_append, List.map_singleton, firsts_concat, ← ih, buckets, List.foldl_append]
        exact Assoc.keys_set _ _ _
  have hnodup : (buckets (fun i => [key i]) items).keys.Nodup := hkeys ▸ nodup_firsts _
  rw [← hkeys, Assoc.keys, List.map_map]
  symm
  rw [List.map_congr_left (g := id), List.map_id]
  rintro ⟨k, group⟩ hentry
  have hbucket := bucket_buckets (fun i => [key i]) items (fun i _ => List.nodup_singleton _) k
  rw [bucket, Assoc.get?_of_mem hnodup hentry, Option.getD_some] at hbucket
  simp only [Function.comp_apply, id_eq, hbucket, List.mem_singleton, eq_comm]

/-- Groups without results do not matter. -/
theorem flatMap_eq_of_only {ks : List κ} (hks : ks.Nodup) {k : κ} {f : κ → List α}
    (honly : ∀ k' ∈ ks, k' ≠ k → f k' = []) (hk : k ∉ ks → f k = []) : ks.flatMap f = f k := by
  induction ks with
  | nil => exact (hk List.not_mem_nil).symm
  | cons k' ks ih =>
      obtain ⟨hnew, hks⟩ := List.nodup_cons.mp hks
      rw [List.flatMap_cons]
      by_cases heq : k' = k
      · subst k'
        have hrest : ks.flatMap f = [] := by
          rw [List.flatMap_eq_nil_iff]
          intro k'' hk''
          apply honly k'' (List.mem_cons_of_mem k hk'')
          rintro rfl
          exact hnew hk''
        rw [hrest, List.append_nil]
      · rw [honly k' List.mem_cons_self heq, List.nil_append]
        apply ih hks
        · intro k'' hk''
          exact honly k'' (List.mem_cons_of_mem k' hk'')
        · intro hnot
          apply hk
          simp [hnot, Ne.symm heq]

/-- The items in the order of their groups. -/
def grouped (key : ι → κ) (items : List ι) : List ι :=
  (firsts (items.map key)).flatMap fun k => items.filter fun i => key i = k

/-- Work that is done group by group, each group at once, is done item by item. -/
theorem foldl_buckets_zip {β σ : Type*} (key : ι → κ) (items : List ι) (h : κ → ι → β)
    (step : σ → ι × β → σ) (s : σ) :
    (buckets (fun i => [key i]) items).foldl
        (fun s group => (group.2.zip (group.2.map (h group.1))).foldl step s) s =
      (grouped key items).foldl (fun s i => step s (i, h (key i) i)) s := by
  rw [buckets_eq_map, List.foldl_map, grouped, List.foldl_flatMap]
  congr 1
  funext s k
  have hzip : (items.filter fun i => key i = k).zip ((items.filter fun i => key i = k).map (h k)) =
      (items.filter fun i => key i = k).map fun i => (i, h (key i) i) := by
    rw [← List.map_prod_left_eq_zip]
    apply List.map_congr_left
    intro i hi
    rw [of_decide_eq_true (List.mem_filter.mp hi).2]
  rw [hzip, List.foldl_map]

/-- Items of one key keep their order. -/
theorem filter_grouped {key : ι → κ} {items : List ι} {p : ι → Bool} {k : κ}
    (hp : ∀ i ∈ items, p i → key i = k) : (grouped key items).filter p = items.filter p := by
  have hkey : ((items.filter fun i => key i = k).filter p) = items.filter p := by
    rw [List.filter_filter]
    apply List.filter_congr
    intro i hi
    rcases hpi : p i with - | -
    · rfl
    · simp [hp i hi hpi]
  rw [grouped, List.filter_flatMap, flatMap_eq_of_only (nodup_firsts _) (k := k), hkey]
  · intro k' _ hne
    rw [List.filter_eq_nil_iff]
    intro i hi hpi
    obtain ⟨hmem, hik⟩ := List.mem_filter.mp hi
    exact hne ((of_decide_eq_true hik).symm.trans (hp i hmem hpi))
  · intro hk
    rw [hkey, List.filter_eq_nil_iff]
    intro i hi hpi
    exact hk (mem_firsts.mpr (hp i hi hpi ▸ List.mem_map_of_mem hi))

theorem mem_grouped {key : ι → κ} {items : List ι} {i : ι} :
    i ∈ grouped key items ↔ i ∈ items := by
  constructor
  · intro hi
    obtain ⟨k, -, hi⟩ := List.mem_flatMap.mp hi
    exact (List.mem_filter.mp hi).1
  · intro hi
    exact List.mem_flatMap.mpr ⟨key i, mem_firsts.mpr (List.mem_map_of_mem hi),
      List.mem_filter.mpr ⟨hi, decide_eq_true rfl⟩⟩

theorem filter_grouped_of_agree {key : ι → κ} {items : List ι} {p : ι → Bool}
    (hp : ∀ i ∈ items, ∀ j ∈ items, p i → p j → key i = key j) :
    (grouped key items).filter p = items.filter p := by
  by_cases hany : ∃ i ∈ items, p i
  · obtain ⟨i, hi, hpi⟩ := hany
    exact filter_grouped fun j hj hpj => hp j hj i hi hpj hpi
  · have hnone : ∀ i ∈ items, ¬ p i = true := fun i hi hpi => hany ⟨i, hi, hpi⟩
    rw [List.filter_eq_nil_iff.mpr hnone, List.filter_eq_nil_iff]
    intro i hi
    exact hnone i (mem_grouped.mp hi)

/-- Those of the keys that are present. -/
def among (present ks : List κ) : List κ := ks.filter fun k => k ∈ present

theorem among_firsts (ks : List κ) : among ks (firsts ks) = firsts ks := by
  rw [among, List.filter_eq_self]
  intro k hk
  exact decide_eq_true (mem_firsts.mp hk)

/-- Only the keys that some item has matter. -/
theorem flatMap_among (ks : List κ) (key : ι → κ) (items : List ι) :
    ((among (items.map key) ks).flatMap fun k => items.filter fun i => key i = k) =
      ks.flatMap fun k => items.filter fun i => key i = k := by
  rw [among]
  induction ks with
  | nil => rfl
  | cons k ks ih =>
      rw [List.flatMap_cons, ← ih]
      by_cases hk : k ∈ items.map key
      · rw [List.filter_cons_of_pos (by simpa using hk), List.flatMap_cons]
      · have hnone : (items.filter fun i => key i = k) = [] := by
          rw [List.filter_eq_nil_iff]
          intro i hi hik
          exact hk (of_decide_eq_true hik ▸ List.mem_map_of_mem hi)
        rw [hnone, List.nil_append, List.filter_cons_of_neg (by simpa using hk)]

theorem firsts_append_const {ks more : List κ} {k : κ} (hk : k ∉ ks) (hmore : ∀ k' ∈ more, k' = k) :
    firsts (ks ++ more) = firsts ks ++ if more = [] then [] else [k] := by
  induction more using List.reverseRecOn with
  | nil => simp
  | append_singleton more k' ih =>
      obtain rfl : k' = k := hmore k' (by simp)
      have hbefore := ih fun k'' h => hmore k'' (List.mem_append_left _ h)
      have hnot : k' ∉ firsts ks := fun h => hk (mem_firsts.mp h)
      rw [← List.append_assoc, firsts_concat, hbefore, if_neg (by simp : ¬ more ++ [k'] = [])]
      by_cases hempty : more = []
      · rw [if_pos hempty, List.append_nil, if_neg hnot]
      · rw [if_neg hempty, if_pos (by simp)]

/-- The groups of some keys show the order of these keys. -/
theorem firsts_flatMap {ks : List κ} (hks : ks.Nodup) (key : ι → κ) (items : List ι) :
    firsts ((ks.flatMap fun k => items.filter fun i => key i = k).map key) =
      among (items.map key) ks := by
  rw [among]
  induction ks using List.reverseRecOn with
  | nil => rfl
  | append_singleton ks k ih =>
      obtain ⟨hks, -, hnew⟩ := List.nodup_append.mp hks
      have hk : k ∉ (ks.flatMap fun k => items.filter fun i => key i = k).map key := by
        intro hmem
        obtain ⟨i, hi, rfl⟩ := List.mem_map.mp hmem
        obtain ⟨k', hk', hi⟩ := List.mem_flatMap.mp hi
        have hkey := (List.mem_filter.mp hi).2
        exact hnew k' hk' (key i) List.mem_cons_self (of_decide_eq_true hkey).symm
      rw [List.flatMap_append, List.map_append, List.filter_append, firsts_append_const hk, ih hks]
      · congr 1
        by_cases hmem : k ∈ items.map key
        · obtain ⟨i, hi, rfl⟩ := List.mem_map.mp hmem
          rw [if_neg, List.filter_cons_of_pos (by simpa using ⟨i, hi, rfl⟩), List.filter_nil]
          simp only [List.flatMap_cons, List.flatMap_nil, List.append_nil, List.map_eq_nil_iff]
          intro hnil
          exact List.filter_eq_nil_iff.mp hnil i hi (by simp)
        · rw [if_pos, List.filter_cons_of_neg (by simpa using hmem), List.filter_nil]
          simp only [List.flatMap_cons, List.flatMap_nil, List.append_nil, List.map_eq_nil_iff]
          rw [List.filter_eq_nil_iff]
          intro i hi hkey
          exact hmem (List.mem_map.mpr ⟨i, hi, by simpa using hkey⟩)
      · intro k' hk'
        obtain ⟨i, hi, rfl⟩ := List.mem_map.mp hk'
        simp only [List.flatMap_cons, List.flatMap_nil, List.append_nil] at hi
        simpa using (List.mem_filter.mp hi).2

end RagflowMineru.Library
