import DeepPath.Proofs.Graph.Mirror
import DeepPath.Proofs.Graph.World

/-!
# Deep copies are isomorphic

Wherever the objects of a deep copy are as they were made, its result mirrors the value that was copied
(`mirrors_copy`).  Right after the copy this is an isomorphism onto new objects, and everything else is as
it was (`copied_graph`).
-/

namespace DeepPath

namespace Store

variable {s t : Store} {v : Value} {i j : Nat}

/-- The objects that can be reached have different copies. -/
theorem Reaches.copyPlace_inj (hs : s.WellTyped) (hv : v.WellTyped s) (hi : s.Reaches v i)
    (hj : s.Reaches v j) (h : s.copyPlace (s.reach v) i = s.copyPlace (s.reach v) j) : i = j :=
  Store.copyPlace_inj (hi.mem_reach hs hv) (hj.mem_reach hs hv) h

/-- Their copies are new. -/
theorem Reaches.size_le_copyPlace (hs : s.WellTyped) (hv : v.WellTyped s) (hi : s.Reaches v i) :
    s.cells.size ≤ s.copyPlace (s.reach v) i :=
  Store.size_le_copyPlace (hi.mem_reach hs hv)

theorem mirrors_copy (hs : s.WellTyped) (hv : v.WellTyped s)
    (hcopies : ∀ id cell, s.cells.size ≤ id → (s.copy v).2.cells[id]? = some cell →
      t.cells[id]? = some cell) :
    s.Mirrors (s.copyPlace (s.reach v)) v t (s.copy v).1 := by
  refine ⟨s.image_copy v, fun i hi cell hc => ?_⟩
  obtain ⟨slots, hcopy, himages⟩ := cells_copy_copyPlace (hi.mem_reach hs hv) hc
  exact ⟨slots, hcopies _ _ (hi.size_le_copyPlace hs hv) hcopy, himages⟩

end Store

namespace Graph

/-- A deep copy of a value of any reachable world, whatever is shared in it and whatever cycles it has.
What can be reached from the copy is isomorphic to what can be reached from the value, by a renaming of
the objects: each copy has the type of its original and holds, slot by slot, the images of what the
original holds.  All objects of the copy are new, and all old objects are as they were. -/
theorem copied_graph {w : World} (hw : Reachable w) {v : Value} (hv : w.Has v) :
    let o := copy v w.store
    (∃ f, w.store.Isomorphic f v o.state o.value ∧
      ∀ i, w.store.Reaches v i → w.store.cells.size ≤ f i ∧ f i < o.state.cells.size) ∧
    (∀ j, o.state.Reaches o.value j → w.store.cells.size ≤ j) ∧ w.store.Keeps o.state := by
  have hs := hw.wellTyped.store
  have hvs := hv.wellTyped hw.wellTyped
  have hmirrors : w.store.Mirrors _ v (w.store.copy v).2 (w.store.copy v).1 :=
    Store.mirrors_copy hs hvs fun _ _ _ hc => hc
  have hfresh (i : Nat) (hi : w.store.Reaches v i) := hi.size_le_copyPlace hs hvs
  refine ⟨⟨_, ⟨hmirrors, ?_, fun j => hmirrors.onto hs hvs⟩, fun i hi => ⟨hfresh i hi, ?_⟩⟩, ?_,
    w.store.keeps_copy v⟩
  · exact fun i j hi hj => hi.copyPlace_inj hs hvs hj
  · obtain ⟨cell, hc⟩ := hi.exists_cell hs hvs
    obtain ⟨slots, hcopy, -⟩ := hmirrors.cells i hi cell hc
    exact (Array.getElem?_eq_some_iff.mp hcopy).1
  · intro j hj
    obtain ⟨i, hi, rfl⟩ := hmirrors.onto hs hvs hj
    exact hfresh i hi

theorem reach_loop : loop.store.reach (.object ⟨0, node⟩) = [0] := by
  show loop.store.closure [0] = [0]
  rw [Store.closure, if_pos (show loop.store.frontier [0] = [] from rfl)]

/-- The store of `loop` and a copy of the node that is linked to itself, with a number in each. -/
def loopAndCopy (original copied : Int64) : Store :=
  ⟨#[⟨node, [.int original, .object ⟨0, node⟩]⟩, ⟨node, [.int 0, .null]⟩,
    ⟨node, [.int copied, .object ⟨2, node⟩]⟩], 0⟩

theorem store_copy_loop :
    loop.store.copy (.object ⟨0, node⟩) = (.object ⟨2, node⟩, loopAndCopy 0 0) := by
  unfold Store.copy
  rw [reach_loop]
  rfl

theorem copy_loop :
    copy (.object ⟨0, node⟩) loop.store = ⟨.object ⟨2, node⟩, loopAndCopy 0 0, []⟩ := by
  rw [copy, Action.change_apply, store_copy_loop]

theorem copied_loop :
    let root : Value := .object ⟨0, node⟩
    let o := copy root loop.store
    o.value = .object ⟨2, node⟩ ∧ o.state.slotsAt 2 = [.int 0, .object ⟨2, node⟩] ∧
    (∃ f, loop.store.Isomorphic f root o.state o.value ∧
      ∀ i, loop.store.Reaches root i → loop.store.cells.size ≤ f i ∧ f i < o.state.cells.size) ∧
    (∀ j, o.state.Reaches o.value j → loop.store.cells.size ≤ j) ∧ loop.store.Keeps o.state := by
  have hroot : loop.Has (.object ⟨0, node⟩) := .held (List.mem_cons_of_mem _ List.mem_cons_self)
  refine ⟨?_, ?_, copied_graph reachable_loop hroot⟩
  · rw [copy_loop]
  · rw [copy_loop]
    rfl

end Graph

end DeepPath
