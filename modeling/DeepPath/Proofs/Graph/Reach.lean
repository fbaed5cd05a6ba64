import DeepPath.Graph.Copy
import DeepPath.Proofs.Graph.Typing
import Mathlib.Data.List.Basic

/-!
# What can be reached

`Reaches` follows the handles in the slots of objects, and `reach` computes it: in a well-typed store
all objects that can be reached from a value are in its `reach` (`mem_reach`), which is closed under
successors (`successors_subset_reach`).
-/

namespace DeepPath

theorem Value.mem_placesOfItems {id : Nat} {items : List Value} :
    id ∈ placesOfItems items ↔ ∃ v ∈ items, id ∈ v.places := by
  induction items with
  | nil => exact ⟨nofun, fun ⟨_, hv, _⟩ => nomatch hv⟩
  | cons v rest ih =>
    rw [placesOfItems, List.mem_append, ih]
    constructor
    · rintro (h | ⟨w, hw, h⟩)
      · exact ⟨v, List.mem_cons_self, h⟩
      · exact ⟨w, List.mem_cons_of_mem _ hw, h⟩
    · rintro ⟨w, hw, h⟩
      rcases List.mem_cons.mp hw with rfl | hw
      · exact .inl h
      · exact .inr ⟨w, hw, h⟩

/-- A well-typed value only leads to objects of the store. -/
theorem Value.WellTyped.typeAt?_of_mem_places {s : Store} {v : Value} (h : v.WellTyped s)
    {id : Nat} (hid : id ∈ v.places) : ∃ type, s.typeAt? id = some type := by
  induction h with
  | object ht =>
    rw [places, List.mem_singleton] at hid
    subst hid
    exact ⟨_, ht⟩
  | array _ _ _ ih =>
    rw [places, mem_placesOfItems] at hid
    obtain ⟨v, hv, hid⟩ := hid
    exact ih v hv hid
  | _ => cases hid

namespace Store

variable {s : Store} {seen : List Nat} {v : Value} {id other : Nat}

theorem mem_frontier : id ∈ s.frontier seen ↔
    (∃ i ∈ seen, id ∈ s.successors i) ∧ id < s.cells.size ∧ id ∉ seen := by
  rw [frontier, List.mem_filter, List.mem_eraseDups, List.mem_flatMap, Bool.and_eq_true,
    decide_eq_true_iff, Bool.not_eq_true', List.contains_eq_mem, decide_eq_false_iff_not]

theorem subset_closure (s : Store) (seen : List Nat) : seen ⊆ s.closure seen := by
  induction seen using closure.induct s with
  | case1 seen h =>
    rw [closure, if_pos h]
    exact List.Subset.refl _
  | case2 seen h ih =>
    rw [closure, if_neg h]
    exact fun _ hid => ih (List.mem_append_left _ hid)

theorem lt_size_of_mem_closure (h : ∀ i ∈ seen, i < s.cells.size) :
    ∀ i ∈ s.closure seen, i < s.cells.size := by
  induction seen using closure.induct s with
  | case1 seen hf =>
    rw [closure, if_pos hf]
    exact h
  | case2 seen hf ih =>
    rw [closure, if_neg hf]
    refine ih fun i hi => ?_
    rcases List.mem_append.mp hi with hi | hi
    · exact h i hi
    · exact (mem_frontier.mp hi).2.1

/-- The closure is closed: its frontier is empty. -/
theorem mem_closure_of_successors {i : Nat} (hi : i ∈ s.closure seen)
    (hid : id ∈ s.successors i) (hlt : id < s.cells.size) : id ∈ s.closure seen := by
  induction seen using closure.induct s with
  | case1 seen hf =>
    rw [closure, if_pos hf] at hi ⊢
    by_contra hno
    have hmem : id ∈ s.frontier seen := mem_frontier.mpr ⟨⟨i, hi, hid⟩, hlt, hno⟩
    rw [hf] at hmem
    cases hmem
  | case2 seen hf ih =>
    rw [closure, if_neg hf] at hi ⊢
    exact ih hi

/-- The places of objects that can be reached from a value. -/
inductive Reaches (s : Store) (v : Value) : Nat → Prop
  | place {id : Nat} : id ∈ v.places → Reaches s v id
  | step {id next : Nat} : Reaches s v id → next ∈ s.successors id → Reaches s v next

theorem WellTyped.lt_size_of_mem_successors (hs : s.WellTyped) (hid : id ∈ s.successors other) :
    id < s.cells.size := by
  obtain ⟨w, hw, hid⟩ := Value.mem_placesOfItems.mp hid
  rw [Store.slotsAt] at hw
  split at hw
  · next cell hc =>
    obtain ⟨type, ht⟩ := ((hs hc).slots w hw).typeAt?_of_mem_places hid
    exact lt_size_of_typeAt? ht
  · cases hw

theorem lt_size_of_mem_reach (s : Store) (v : Value) : ∀ i ∈ s.reach v, i < s.cells.size :=
  lt_size_of_mem_closure fun _ hi => of_decide_eq_true (List.mem_filter.mp hi).2

theorem WellTyped.places_subset_reach (hv : v.WellTyped s) (hid : id ∈ v.places) :
    id ∈ s.reach v := by
  obtain ⟨type, ht⟩ := hv.typeAt?_of_mem_places hid
  exact s.subset_closure _ (List.mem_filter.mpr
    ⟨List.mem_eraseDups.mpr hid, decide_eq_true (lt_size_of_typeAt? ht)⟩)

theorem WellTyped.successors_subset_reach (hs : s.WellTyped) (hi : other ∈ s.reach v)
    (hid : id ∈ s.successors other) : id ∈ s.reach v :=
  mem_closure_of_successors hi hid (hs.lt_size_of_mem_successors hid)

theorem Reaches.mem_reach (hs : s.WellTyped) (hv : v.WellTyped s) (h : s.Reaches v id) :
    id ∈ s.reach v := by
  induction h with
  | place hid => exact WellTyped.places_subset_reach hv hid
  | step _ hid ih => exact hs.successors_subset_reach ih hid

theorem Reaches.lt_size (hs : s.WellTyped) (hv : v.WellTyped s) (h : s.Reaches v id) :
    id < s.cells.size :=
  s.lt_size_of_mem_reach v id (h.mem_reach hs hv)

end Store

end DeepPath
