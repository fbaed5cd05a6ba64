import DeepPath.Proofs.Graph.AlongsideCopy
import DeepPath.Proofs.Graph.Cloning
import DeepPath.Proofs.Graph.LostWrites

/-!
# Reversible edits agree with plain ones

A reversible edit has a copy of the root around that a plain edit does not have.  The store is embedded in
the one with the copy (`embeds_of_keeps`), so the edits go alongside if the callback does not see the copy
(`modify_beside_copy`).  So the reversible edit has the outcome of the plain one, and leaves the same objects
behind unless it is taken back (`modifyOrUndo_agrees`).
-/

namespace DeepPath

theorem Store.embeds_of_keeps {s t : Store} (hk : s.Keeps t) (hn : s.nextArray ≤ t.nextArray) :
    s.Embeds .id t := by
  refine ⟨fun {i cell} hc => ?_, fun _ _ h => h, fun _ _ h => h, fun h => Nat.lt_of_lt_of_le h hn⟩
  have hsame : cell.renamed .id = cell := by
    rw [Cell.renamed, List.map_congr_left fun v _ => v.renamed_id, List.map_id']
  rw [hsame]
  exact hk hc

namespace Graph

open Model

variable {s : Store} {root : Value} {path : Path} {change : Value → Action Store Value}

/-- A callback that does in `t` what it does in `s`, up to the names of what it makes, when an edit calls
it.  An action may count the objects of a store, but a callback that goes by the values in its hands does
not see what else there is in `t`. -/
def Blind (s t : Store) (path : Path) (root : Value) (change : Value → Action Store Value) : Prop :=
  ∀ trail, (model.trail path root s).value = .ok trail →
    Alongside Value.renamed .id s (change trail.leaf s).effect (change trail.leaf t).effect

/-- An edit does the same with a copy of the root around. -/
theorem modify_beside_copy (hs : s.WellTyped) (hr : root.WellTyped s)
    (hc : ∀ trail, (model.trail path root s).value = .ok trail →
      (change trail.leaf s).state.WellTyped ∧ s.Grows (change trail.leaf s).state ∧
        (change trail.leaf s).value.WellTyped (change trail.leaf s).state)
    (hblind : Blind s (s.copy root).2 path root change) :
    Alongside Revision.renamed .id s (model.modify path change root s).effect
      (model.modify path change root (s.copy root).2).effect := by
  have e := Store.embeds_of_keeps (s.keeps_copy root) (s.grows_copy root).nextArray
  have h := alongside_modify e hs hr path hc fun trail htrail => by
    rw [trail.leaf.renamed_id]
    exact hblind trail htrail
  rwa [root.renamed_id] at h

/-- What a callback that is a run of the client makes of a well-typed world. -/
theorem IsRun.wellTyped {w : World} (hrun : IsRun w path root change) (hw : w.WellTyped)
    (hr : root.WellTyped w.store) {trail : Trail Value}
    (htrail : (model.trail path root w.store).value = .ok trail) :
    (change trail.leaf w.store).state.WellTyped ∧
      w.store.Grows (change trail.leaf w.store).state ∧
      (change trail.leaf w.store).value.WellTyped (change trail.leaf w.store).state := by
  obtain ⟨held, hruns, hheld⟩ := hrun trail htrail
  obtain ⟨hleaf, -⟩ := wellTyped_of_trail hw.store hr htrail
  have hcalled := hw.next hw.store (.refl _) (List.forall_mem_singleton.mpr hleaf)
  obtain ⟨hcall, g⟩ := hruns.wellTyped hcalled.1
  exact ⟨hcall.store, g, hcall.held _ hheld⟩

/-- Under new names an edit fails in its ascent if it does so under the old ones. -/
theorem failsInAscent_renamed {ε : Type} {r : Renaming} {o o' : Outcome Store (Revision Value ε)}
    (h : o'.value = o.value.renamed r) : FailsInAscent o' ↔ FailsInAscent o := by
  unfold FailsInAscent
  rw [h, Revision.renamed]
  cases o.value.outcome with
  | error refusal => exact .rfl
  | ok placement =>
    constructor
    · rintro ⟨failure, hfail, -⟩
      cases hfail
    · rintro ⟨failure, hfail, -⟩
      cases hfail

/-- The leaf that an edit has found was in the store before. -/
theorem leaf_wellTyped_of_update {ε : Type} {change : Value → Action Store (Except ε Value)}
    {leaf : Value} (hs : s.WellTyped) (hr : root.WellTyped s)
    (h : (model.update path change root s).value.leaf = some leaf) : leaf.WellTyped s := by
  have hu := updates model path change root s
  have hstate := trail_state s path root
  generalize model.update path change root s = o at h hu
  cases hu with
  | lost => cases h
  | declined ht | carried ht =>
    rw [ht] at hstate
    cases hstate
    cases h
    exact (wellTyped_of_trail hs hr (by rw [ht])).1

/-- Whatever the root, the path and the graph are, a reversible edit comes to what the plain edit comes to
from the same state, up to the names `r` of what is new: it has the same outcome.  Unless that is a
failure of the ascent, every object that was there before has the same slots as after the plain edit, the
root is the same, and so is everything that the plain edit has left behind. -/
theorem modifyOrUndo_agrees {w : World} (hw : Reachable w) (hroot : w.Has root)
    (hrun : IsRun w path root change)
    (hblind : Blind w.store (w.store.copy root).2 path root change) :
    let plain := model.modify path change root w.store
    let o := modifyOrUndo path change root w.store
    ∃ r, Renaming.id.Agree w.store r ∧
      o.value.outcome = plain.value.outcome.map (Placement.renamed r) ∧
      o.value.leaf = plain.value.leaf ∧
      (¬ FailsInAscent plain → plain.value.root = root ∧ o.value.root = root ∧
        plain.state.Embeds r o.state ∧
        ∀ i < w.store.cells.size, o.state.cells[i]? = (plain.state.cells[i]?).map (Cell.renamed r)) := by
  intro plain o
  have hwell := hw.wellTyped
  have hr := hroot.wellTyped hwell
  have hc (trail : Trail Value) (htrail : (model.trail path root w.store).value = .ok trail) :=
    hrun.wellTyped hwell hr htrail
  obtain ⟨r, hagree, e, hvalue⟩ := modify_beside_copy hwell.store hr hc hblind
  have hfails := failsInAscent_renamed hvalue
  have hleaf : plain.value.leaf.map (Value.renamed r) = plain.value.leaf := by
    cases hfound : plain.value.leaf with
    | none => rfl
    | some leaf =>
      have hw := leaf_wellTyped_of_update hwell.store hr hfound
      rw [Option.map_some, hagree.value hw, leaf.renamed_id]
  by_cases h : FailsInAscent plain
  · have ho : o = _ := modifyOrUndo_of_ascent (hfails.mpr h)
    rw [ho]
    exact ⟨r, hagree, congrArg Revision.outcome hvalue,
      (congrArg Revision.leaf hvalue).trans hleaf, fun hno => absurd h hno⟩
  · have ho : o = _ := modifyOrUndo_of_not (mt hfails.mp h)
    rw [ho]
    refine ⟨r, hagree, congrArg Revision.outcome hvalue,
      (congrArg Revision.leaf hvalue).trans hleaf, fun _ => ⟨update_root .., update_root .., e, ?_⟩⟩
    intro i hi
    obtain ⟨-, g, -⟩ := wellTyped_of_modify path change hwell.store hr hc
    have hcell := e.cells_eq (g.lt_size hi)
    rwa [hagree.object hi] at hcell

theorem modifyOrUndo_agrees_in_loop :
    let root : Value := .object ⟨0, node⟩
    let path : Path := ⟨.member "next", []⟩
    let plain := model.modify path copy root loop.store
    let o := modifyOrUndo path copy root loop.store
    plain.value.outcome = .ok .written ∧ ∃ r, Renaming.id.Agree loop.store r ∧
      o.value.outcome = plain.value.outcome.map (Placement.renamed r) ∧
      o.value.leaf = plain.value.leaf ∧
      (¬ FailsInAscent plain → plain.value.root = root ∧ o.value.root = root ∧
        plain.state.Embeds r o.state ∧
        ∀ i < loop.store.cells.size,
          o.state.cells[i]? = (plain.state.cells[i]?).map (Cell.renamed r)) := by
  intro root path plain o
  have hroot : loop.Has root := .held (List.mem_cons_of_mem _ List.mem_cons_self)
  have hwell := reachable_loop.wellTyped
  refine ⟨rfl, modifyOrUndo_agrees reachable_loop hroot ?_ ?_⟩
  · intro trail _
    exact ⟨_, .copy List.mem_cons_self, List.mem_cons_self⟩
  · intro trail h
    obtain ⟨hleaf, -⟩ := wellTyped_of_trail hwell.store (hroot.wellTyped hwell) h
    have e := Store.embeds_of_keeps (loop.store.keeps_copy root) (loop.store.grows_copy root).nextArray
    have hcopy := DeepPath.alongside_copy e hwell.store hleaf
    rwa [trail.leaf.renamed_id] at hcopy

end Graph

end DeepPath
