import DeepPath.Proofs.Graph.Image
import DeepPath.Proofs.Graph.Walk

/-!
# Mirrored graphs

A value mirrors another under a renaming if it is an image of it, and so are the slots of all objects
that can be reached.  Then steps lead to mirrored values (`Mirrors.arrive`), and what can be reached from
the one are the names of what can be reached from the other (`Mirrors.reaches`, `Mirrors.onto`).  If the
renaming keeps different objects apart, the graphs are isomorphic.
-/

namespace DeepPath

open DeepPath.Graph

namespace Store

variable {s t : Store} {f : Nat → Nat} {u v w x : Value} {i j : Nat}

/-! ## What can be reached -/

theorem Reaches.of_slot (hr : s.Reaches v i) (hu : u ∈ s.slotsAt i) (h : s.Reaches u j) :
    s.Reaches v j := by
  induction h with
  | place hp => exact .step hr (Value.mem_placesOfItems.mpr ⟨u, hu, hp⟩)
  | step _ hn ih => exact .step ih hn

/-- What can be reached from an object is the object itself, or is reached from one of its slots. -/
theorem Reaches.of_object {h : Handle} (hr : s.Reaches (.object h) i) :
    i = h.id ∨ ∃ u ∈ s.slotsAt h.id, s.Reaches u i := by
  induction hr with
  | place hp => exact .inl (List.mem_singleton.mp hp)
  | step _ hn ih =>
    rcases ih with rfl | ⟨u, hu, hr⟩
    · obtain ⟨u, hu, hp⟩ := Value.mem_placesOfItems.mp hn
      exact .inr ⟨u, hu, .place hp⟩
    · exact .inr ⟨u, hu, .step hr hn⟩

/-- What can be reached after a step could be reached before. -/
theorem Reaches.of_follow {step : Step} (hf : follow s v step = .ok u) (h : s.Reaches u i) :
    s.Reaches v i := by
  obtain ⟨handle, name, rfl, rfl, hget⟩ | ⟨n, element, items, index, rfl, rfl, hget⟩ :=
    follow_eq_ok hf
  · exact .of_slot (.place (List.mem_singleton_self _)) (mem_slotsAt_of_get? hget) h
  · induction h with
    | place hp =>
      exact .place (Value.mem_placesOfItems.mpr ⟨u, List.mem_of_getElem? hget, hp⟩)
    | step _ hn ih => exact .step ih hn

theorem Reaches.of_arrive {steps : List Step} (ha : arrive? s steps v = some u)
    (h : s.Reaches u i) : s.Reaches v i := by
  induction steps generalizing v with
  | nil =>
    cases ha
    exact h
  | cons step rest ih =>
    obtain ⟨v', hv', ha⟩ := arrive?_cons_eq_some.mp ha
    exact .of_follow hv' (ih ha)

/-- An object that can be reached from its own slots. -/
def OnCycle (s : Store) (h : Handle) : Prop :=
  ∃ u ∈ s.slotsAt h.id, s.Reaches u h.id

/-- An object that is not on a cycle has no successor among the objects that it reaches. -/
theorem not_onCycle_of_mem_successors {h : Handle} (hno : ¬ s.OnCycle h)
    (hr : s.Reaches (.object h) i) (hj : j ∈ s.successors i) : j ≠ h.id := by
  rintro rfl
  rcases hr.of_object with rfl | ⟨u, hu, hr⟩
  · obtain ⟨u, hu, hp⟩ := Value.mem_placesOfItems.mp hj
    exact hno ⟨u, hu, .place hp⟩
  · exact hno ⟨u, hu, .step hr hj⟩

theorem Reaches.exists_cell (hs : s.WellTyped) (hv : v.WellTyped s) (h : s.Reaches v i) :
    ∃ cell, s.cells[i]? = some cell :=
  ⟨_, Array.getElem?_eq_getElem (h.lt_size hs hv)⟩

/-! ## Mirrored values -/

/-- `w` in `t` is `v` in `s`, with the objects renamed by `f`. -/
structure Mirrors (f : Nat → Nat) (s : Store) (v : Value) (t : Store) (w : Value) : Prop where
  image : v.Image f w
  cells : ∀ i, s.Reaches v i → ∀ cell, s.cells[i]? = some cell →
    ∃ slots, t.cells[f i]? = some ⟨cell.type, slots⟩ ∧ Value.Images f cell.slots slots

namespace Mirrors

variable (h : Mirrors f s v t w) (hs : s.WellTyped) (hv : v.WellTyped s)
include h hs hv

theorem successors_eq (hr : s.Reaches v i) : t.successors (f i) = (s.successors i).map f := by
  obtain ⟨cell, hc⟩ := hr.exists_cell hs hv
  obtain ⟨slots, ht, himages⟩ := h.cells i hr cell hc
  rw [successors, successors, slotsAt_eq hc, slotsAt_eq ht]
  exact himages.placesOfItems_eq

theorem reaches (hr : s.Reaches v i) : t.Reaches w (f i) := by
  induction hr with
  | place hp =>
    refine .place ?_
    rw [h.image.places_eq]
    exact List.mem_map_of_mem hp
  | step hr hn ih =>
    refine .step ih ?_
    rw [h.successors_eq hs hv hr]
    exact List.mem_map_of_mem hn

/-- Nothing but what is mirrored can be reached from the mirrored value. -/
theorem onto (hr : t.Reaches w j) : ∃ i, s.Reaches v i ∧ f i = j := by
  induction hr with
  | place hp =>
    rw [h.image.places_eq] at hp
    obtain ⟨i, hi, rfl⟩ := List.mem_map.mp hp
    exact ⟨i, .place hi, rfl⟩
  | step _ hn ih =>
    obtain ⟨i, hi, rfl⟩ := ih
    rw [h.successors_eq hs hv hi] at hn
    obtain ⟨k, hk, rfl⟩ := List.mem_map.mp hn
    exact ⟨k, .step hi hk, rfl⟩

omit hs in
/-- A step leads from mirrored values to mirrored values. -/
theorem follow {step : Step} (hf : follow s v step = .ok u) :
    ∃ x, Graph.follow t w step = .ok x ∧ Mirrors f s u t x := by
  have hcells : ∀ i, s.Reaches u i → ∀ cell, s.cells[i]? = some cell →
      ∃ slots, t.cells[f i]? = some ⟨cell.type, slots⟩ ∧ Value.Images f cell.slots slots :=
    fun i hi => h.cells i (hi.of_follow hf)
  obtain ⟨handle, name, rfl, rfl, hget⟩ | ⟨n, element, items, index, rfl, rfl, hget⟩ :=
    follow_eq_ok hf
  · obtain ⟨cell, hc, htype⟩ := typeAt?_eq_some_iff.mp hv.typeAt?
    obtain ⟨slots, ht, himages⟩ := h.cells _ (.place (List.mem_singleton_self _)) cell hc
    obtain rfl := h.image.of_object
    unfold get? at hget
    split at hget
    · cases hget
    · next slot m hfind =>
      rw [slotsAt_eq hc] at hget
      obtain ⟨x, hx, himage⟩ := himages.of_getElem? hget
      refine ⟨x, follow_member ?_, himage, hcells⟩
      unfold get?
      rw [hfind]
      dsimp only
      rw [slotsAt_eq ht]
      exact hx
  · obtain ⟨n', items', rfl, himages⟩ := h.image.of_array
    obtain ⟨x, hx, himage⟩ := himages.of_getElem? hget
    exact ⟨x, follow_element hx, himage, hcells⟩

end Mirrors

/-- Steps lead from mirrored values to mirrored values. -/
theorem Mirrors.arrive {steps : List Step} (h : Mirrors f s v t w) (hs : s.WellTyped)
    (hv : v.WellTyped s) (hf : arrive? s steps v = some u) :
    ∃ x, arrive? t steps w = some x ∧ Mirrors f s u t x := by
  induction steps generalizing v w with
  | nil =>
    cases hf
    exact ⟨w, rfl, h⟩
  | cons step rest ih =>
    obtain ⟨v', hv', hf⟩ := arrive?_cons_eq_some.mp hf
    obtain ⟨w', hw', h'⟩ := h.follow hv hv'
    obtain ⟨x, hx, h''⟩ := ih h' (wellTyped_of_follow hs hv hv') hf
    exact ⟨x, arrive?_cons_eq_some.mpr ⟨w', hw', hx⟩, h''⟩

/-- The graphs that can be reached from `v` in `s` and from `w` in `t` are the same up to the names of
objects: `f` is a bijection between their objects, which keeps types and slots. -/
structure Isomorphic (f : Nat → Nat) (s : Store) (v : Value) (t : Store) (w : Value) : Prop
    extends Mirrors f s v t w where
  injective : ∀ i j, s.Reaches v i → s.Reaches v j → f i = f j → i = j
  onto : ∀ j, t.Reaches w j → ∃ i, s.Reaches v i ∧ f i = j

end Store

end DeepPath
