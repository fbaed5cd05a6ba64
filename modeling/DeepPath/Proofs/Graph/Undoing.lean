import DeepPath.Graph.Undo
import DeepPath.Proofs.Graph.Edit

/-!
# Reversible edits

A reversible edit is an edit in the store with a deep copy of the root.  If its ascent fails, it ends by
taking the edit back (`modifyOrUndo_of_ascent`), and otherwise it is the edit itself
(`modifyOrUndo_of_not`).  It preserves what its callback does (`Preserved.modifyOrUndo`).
-/

namespace DeepPath.Graph

open Model

variable {s : Store} {root : Value} {path : Path} {change : Value → Action Store Value}

/-- Whether an edit has failed on its way up. -/
def FailsInAscent {ε : Type} (o : Outcome Store (Revision Value ε)) : Prop :=
  ∃ failure, o.value.outcome = .error (.failed failure) ∧ failure.direction = .ascent

theorem modifyOrUndo_of_ascent
    (h : FailsInAscent (model.modify path change root (s.copy root).2)) :
    modifyOrUndo path change root s =
      let o := model.modify path change root (s.copy root).2
      let back := takeBack o.value.root (s.copy root).1 o.state
      ⟨{ o.value with root := back.value }, back.state, o.log ++ .restored path :: back.log⟩ := by
  obtain ⟨⟨fault, step, depth, direction⟩, hout, hdir⟩ := h
  obtain rfl : direction = .ascent := hdir
  show (_ >>= _ : Action Store (Revision Value Empty)) s = _
  rw [Action.bind_apply, copy, Action.change_apply]
  dsimp only
  rw [Action.bind_apply, hout]
  show Outcome.mk _ _ ([] ++ (_ ++ (_ :: (_ ++ [])))) = _
  rw [List.append_nil]
  rfl

theorem modifyOrUndo_of_not
    (h : ¬ FailsInAscent (model.modify path change root (s.copy root).2)) :
    modifyOrUndo path change root s = model.modify path change root (s.copy root).2 := by
  show (_ >>= _ : Action Store (Revision Value Empty)) s = _
  rw [Action.bind_apply, copy, Action.change_apply]
  dsimp only
  rw [Action.bind_apply]
  generalize model.modify path change root (s.copy root).2 = o at h ⊢
  obtain ⟨⟨root', leaf, outcome⟩, t, log⟩ := o
  cases outcome with
  | ok placement => exact congrArg (Outcome.mk _ t) (List.append_nil log)
  | error refusal =>
    cases refusal with
    | declined reason => cases reason
    | failed failure =>
      obtain ⟨fault, step, depth, direction⟩ := failure
      cases direction with
      | descent => exact congrArg (Outcome.mk _ t) (List.append_nil log)
      | ascent => exact absurd ⟨_, rfl, rfl⟩ h

/-- A reversible edit fails in its ascent if the edit itself does. -/
theorem failsInAscent_of_modifyOrUndo (h : FailsInAscent (modifyOrUndo path change root s)) :
    FailsInAscent (model.modify path change root (s.copy root).2) := by
  by_contra hno
  rw [modifyOrUndo_of_not hno] at h
  exact hno h

/-- A reversible edit does not hide that the edit has failed. -/
theorem FailsInAscent.modifyOrUndo
    (h : FailsInAscent (model.modify path change root (s.copy root).2)) :
    FailsInAscent (modifyOrUndo path change root s) := by
  rw [modifyOrUndo_of_ascent h]
  exact h

theorem takeBack_object (live copied : Handle) (s : Store) :
    takeBack (.object live) (.object copied) s = ⟨.object live, s.revert live copied, []⟩ := rfl

theorem takeBack_of_no_object {saved : Value} (h : root.handle? = none) (s : Store) :
    takeBack root saved s = ⟨saved, s, []⟩ := by
  cases root with
  | object => cases h
  | _ => rfl

/-- The copy of an object is an object of the same type. -/
theorem copy_object (s : Store) (h : Handle) :
    (s.copy (.object h)).1 =
      .object ⟨s.copyPlace (s.reach (.object h)) h.id, h.type⟩ := rfl

/-- To take an edit back makes a good root of a good copy. -/
theorem Preserved.takeBack {κ : Type} {Later : κ → κ → Prop} {GoodStore : κ → Store → Prop}
    {GoodValue : κ → Value → Prop} (h : Preserved Later GoodStore GoodValue) {k : κ} {t : Store}
    (ht : GoodStore k t) (hr : GoodValue k root) (hc : GoodValue k (s.copy root).1) :
    let back := takeBack root (s.copy root).1 t
    ∃ l, Later k l ∧ GoodStore l back.state ∧ GoodValue l back.value := by
  cases hhandle : root.handle? with
  | none =>
    rw [takeBack_of_no_object hhandle]
    exact ⟨k, h.refl k, ht, hc⟩
  | some handle =>
    cases root <;> cases hhandle
    rw [copy_object] at hc ⊢
    rw [takeBack_object]
    obtain ⟨l, hl, hback⟩ := h.revert ht hr hc rfl
    exact ⟨l, hl, hback, h.mono hl hr⟩

theorem wellTyped_of_modify (path : Path) (change : Value → Action Store Value) (hs : s.WellTyped)
    (hr : root.WellTyped s)
    (hc : ∀ trail, (model.trail path root s).value = .ok trail →
      (change trail.leaf s).state.WellTyped ∧ s.Grows (change trail.leaf s).state ∧
        (change trail.leaf s).value.WellTyped (change trail.leaf s).state) :
    let o := model.modify path change root s
    o.state.WellTyped ∧ s.Grows o.state ∧
      (∀ trail, (model.trail path root s).value = .ok trail →
        (change trail.leaf s).state.Grows o.state) ∧
      o.value.root.WellTyped o.state ∧ o.value.stored.WellTyped o.state := by
  refine wellTyped_of_update path _ hs hr fun trail htrail => ?_
  obtain ⟨hw, g, hv⟩ := hc trail htrail
  refine ⟨hw, g, fun leaf hleaf => ?_⟩
  cases hleaf
  exact hv

/-- A reversible edit preserves what its callback does, if the copy of its root has been made of good
values. -/
theorem Preserved.modifyOrUndo {κ : Type} {Later : κ → κ → Prop} {GoodStore : κ → Store → Prop}
    {GoodValue : κ → Value → Prop} (h : Preserved Later GoodStore GoodValue) {k k₁ : κ}
    {trail : Trail Value} (hs : GoodStore k (s.copy root).2) (hr : GoodValue k root)
    (hsaved : GoodValue k (s.copy root).1)
    (ht : (model.trail path root (s.copy root).2).value = .ok trail) (hk : Later k k₁)
    (hcalled : GoodStore k₁ (change trail.leaf (s.copy root).2).state)
    (hleaf : GoodValue k₁ (change trail.leaf (s.copy root).2).value) :
    let o := modifyOrUndo path change root s
    ∃ l, Later k₁ l ∧ GoodStore l o.state ∧ GoodValue l o.value.root ∧ GoodValue l o.value.stored := by
  have hedit := h.modify hs hr ht hk hcalled hleaf
  by_cases hfails : FailsInAscent (model.modify path change root (s.copy root).2)
  · obtain ⟨l, hl, hedited, -, -⟩ := hedit
    have hsame : (model.modify path change root (s.copy root).2).value.root = root := update_root ..
    have hr' := h.mono (h.trans hk hl) hr
    have hsaved' := h.mono (h.trans hk hl) hsaved
    obtain ⟨m, hm, hback, hroot⟩ := h.takeBack hedited hr' hsaved'
    rw [modifyOrUndo_of_ascent hfails]
    obtain ⟨failure, hout, -⟩ := hfails
    unfold Revision.stored
    dsimp only
    rw [hsame, hout]
    exact ⟨m, h.trans hl hm, hback, hroot, hroot⟩
  · rw [modifyOrUndo_of_not hfails]
    exact hedit

/-- A reversible edit whose path leads nowhere only copies its root. -/
theorem modifyOrUndo_of_lost {failure : Failure}
    (ht : (model.trail path root (s.copy root).2).value = .error failure) :
    (modifyOrUndo path change root s).value = ⟨root, none, .error (.failed failure)⟩ ∧
      (modifyOrUndo path change root s).state = (s.copy root).2 := by
  obtain ⟨hvalue, hstate⟩ := update_of_lost
    (fun leaf => do return (.ok (← change leaf) : Except Empty Value)) ht
  have hnot : ¬ FailsInAscent (model.modify path change root (s.copy root).2) := by
    rintro ⟨failure', hout, hup⟩
    unfold Model.modify at hout
    rw [hvalue] at hout
    cases hout
    rw [trail_failure ht] at hup
    cases hup
  rw [modifyOrUndo_of_not hnot]
  exact ⟨hvalue, hstate⟩

end DeepPath.Graph
