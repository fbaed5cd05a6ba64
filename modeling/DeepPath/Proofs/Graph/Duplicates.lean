import DeepPath.Proofs.Graph.Cloning
import Mathlib.Data.Set.Card
import Mathlib.Order.Interval.Finset.Nat

/-!
# One copy of each object

A store duplicates a value if it has one new object, and no more, for each object that the value leads to
(`Duplicates`).  The list that a deep copy goes by names each of these objects once (`nodup_reach`,
`mem_reach_iff`), so a deep copy duplicates what it is made of (`duplicates_copy`).
-/

namespace DeepPath

theorem nodup_eraseDups : ∀ l : List Nat, l.eraseDups.Nodup
  | [] => List.nodup_nil
  | a :: l => by
    rw [List.eraseDups_cons, List.nodup_cons]
    refine ⟨fun hmem => ?_, nodup_eraseDups _⟩
    have hne := (List.mem_filter.mp (List.mem_eraseDups.mp hmem)).2
    rw [beq_self_eq_true] at hne
    cases hne
termination_by l => l.length
decreasing_by exact Nat.lt_succ_of_le (List.length_filter_le _ _)

namespace Store

variable {s t : Store} {seen : List Nat} {v w : Value} {f : Nat → Nat} {i j : Nat}

/-! ## The objects that are copied -/

theorem nodup_closure (h : seen.Nodup) : (s.closure seen).Nodup := by
  induction seen using closure.induct s with
  | case1 seen hf =>
    rw [closure, if_pos hf]
    exact h
  | case2 seen hf ih =>
    rw [closure, if_neg hf]
    refine ih (List.nodup_append'.mpr ⟨h, (nodup_eraseDups _).filter _, fun i hi hmem => ?_⟩)
    exact (mem_frontier.mp hmem).2.2 hi

theorem reaches_of_mem_closure (h : ∀ i ∈ seen, s.Reaches v i) :
    ∀ i ∈ s.closure seen, s.Reaches v i := by
  induction seen using closure.induct s with
  | case1 seen hf =>
    rw [closure, if_pos hf]
    exact h
  | case2 seen hf ih =>
    rw [closure, if_neg hf]
    refine ih fun i hi => ?_
    rcases List.mem_append.mp hi with hi | hi
    · exact h i hi
    · obtain ⟨⟨k, hk, hstep⟩, -⟩ := mem_frontier.mp hi
      exact .step (h k hk) hstep

theorem nodup_reach (s : Store) (v : Value) : (s.reach v).Nodup :=
  nodup_closure ((nodup_eraseDups _).filter _)

theorem mem_reach_iff (hs : s.WellTyped) (hv : v.WellTyped s) : i ∈ s.reach v ↔ s.Reaches v i := by
  refine ⟨fun hi => ?_, fun h => h.mem_reach hs hv⟩
  refine reaches_of_mem_closure (fun j hj => .place ?_) i hi
  exact List.mem_eraseDups.mp (List.mem_of_mem_filter hj)

/-- The copies of distinct objects come one after the other. -/
theorem copyPlace_getElem? {old : List Nat} (h : old.Nodup) {k : Nat} (hk : old[k]? = some i) :
    s.copyPlace old i = s.cells.size + k := by
  obtain ⟨l, hl, hget⟩ := copyPlace_of_mem (s := s) (List.mem_of_getElem? hk)
  rw [hl, (List.getElem?_inj (List.getElem?_eq_some_iff.mp hget).1 h).mp (hget.trans hk.symm)]

/-! ## Duplicates -/

/-- Behind the objects of `s`, which stay as they are, `t` has one new object for each object that `v` leads
to, and no other; and `w` leads to the new objects as `v` does to the old ones. -/
structure Duplicates (s : Store) (v : Value) (t : Store) (w : Value) : Prop where
  keeps : s.Keeps t
  copies : ∃ f, s.Isomorphic f v t w ∧
    Set.BijOn f {i | s.Reaches v i} (Set.Ico s.cells.size t.cells.size)
  size_eq : t.cells.size = s.cells.size + {i | s.Reaches v i}.ncard

theorem Keeps.size_le (hk : s.Keeps t) : s.cells.size ≤ t.cells.size := by
  by_contra hlt
  have hcell := hk (Array.getElem?_eq_getElem (Nat.lt_of_not_le hlt))
  exact Nat.lt_irrefl _ (Array.getElem?_eq_some_iff.mp hcell).1

/-- A bijection is all that there is to show. -/
theorem Isomorphic.duplicates (hiso : s.Isomorphic f v t w) (hk : s.Keeps t)
    (hbij : Set.BijOn f {i | s.Reaches v i} (Set.Ico s.cells.size t.cells.size)) :
    s.Duplicates v t w := by
  refine ⟨hk, ⟨f, hiso, hbij⟩, ?_⟩
  have hcard : {i | s.Reaches v i}.ncard = t.cells.size - s.cells.size := by
    rw [hbij.ncard_eq, ← Finset.coe_Ico, Set.ncard_coe_finset, Nat.card_Ico]
  rw [hcard, Nat.add_sub_cancel' hk.size_le]

theorem duplicates_copy (hs : s.WellTyped) (hv : v.WellTyped s) :
    s.Duplicates v (s.copy v).2 (s.copy v).1 := by
  have hmirrors : s.Mirrors _ v (s.copy v).2 (s.copy v).1 := mirrors_copy hs hv fun _ _ _ hc => hc
  have hinj : ∀ i j, s.Reaches v i → s.Reaches v j →
      s.copyPlace (s.reach v) i = s.copyPlace (s.reach v) j → i = j :=
    fun i j hi hj => hi.copyPlace_inj hs hv hj
  have hiso : s.Isomorphic _ v (s.copy v).2 (s.copy v).1 :=
    ⟨hmirrors, hinj, fun j => hmirrors.onto hs hv⟩
  refine hiso.duplicates (s.keeps_copy v) ⟨fun i hi => ⟨?_, ?_⟩, fun i hi j hj => hinj i j hi hj, ?_⟩
  · exact Reaches.size_le_copyPlace hs hv hi
  · obtain ⟨cell, hc⟩ := Reaches.exists_cell hs hv hi
    obtain ⟨slots, hcopy, -⟩ := hmirrors.cells i hi cell hc
    exact (Array.getElem?_eq_some_iff.mp hcopy).1
  · -- the `k`-th new object is the copy of the `k`-th object on the list
    rintro j ⟨hle, hlt⟩
    obtain ⟨k, rfl⟩ := Nat.exists_eq_add_of_le hle
    obtain ⟨hnone, -⟩ | ⟨i, -, -, hi, -⟩ :=
      copyCells_getElem? (s.copyPlace (s.reach v)) s.nextArray (s.lt_size_of_mem_reach v) k
    · have hcell := Array.getElem?_eq_getElem hlt
      rw [cells_copy_add] at hcell
      cases hnone.symm.trans hcell
    · exact ⟨i, (mem_reach_iff hs hv).mp (List.mem_of_getElem? hi),
        copyPlace_getElem? (s.nodup_reach v) hi⟩

end Store

end DeepPath
