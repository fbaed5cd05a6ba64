import DeepPath.Proofs.Graph.Restored

/-!
# Reads after an edit was taken back

A reversible edit that has failed in its ascent gives back every value that can be read.

1. Mirrored values have the same members and elements, so a step that fails on the one fails on the other
   in the same way (`Mirrors.follow_error`), and reading a path from both comes to the same
   (`Mirrors.readsAlike`).
2. A root object reads like its copy from the first step on, and any other root is the copy: `undone_reads`.
-/

namespace DeepPath

open DeepPath.Graph

/-! ## Values that look alike -/

/-- The same scalar, objects of the same type, or arrays of the same element type and length. -/
inductive Value.Alike : Value → Value → Prop
  | scalar {v : Value} (hh : v.handle? = none) (hi : v.items? = none) : Alike v v
  | object {h k : Handle} (ht : h.type = k.type) : Alike (.object h) (.object k)
  | array {m n : Nat} {element : Ty} {items items' : List Value}
      (hl : items.length = items'.length) : Alike (.array m element items) (.array n element items')

/-- Reads that fail in the same way, or find values that look alike. -/
inductive ReadsAlike : Except Failure Value → Except Failure Value → Prop
  | failed (failure : Failure) : ReadsAlike (.error failure) (.error failure)
  | found {v w : Value} (h : v.Alike w) : ReadsAlike (.ok v) (.ok w)

theorem Value.eq_object_of_handle? {v : Value} {h : Handle} (hv : v.handle? = some h) :
    v = .object h := by
  cases v <;> cases hv
  rfl

namespace Value.Image

variable {ρ : Nat → Nat} {v w : Value}

theorem alike (h : v.Image ρ w) : v.Alike w := by
  cases v with
  | object handle =>
    obtain rfl := h.of_object
    exact .object rfl
  | array n element items =>
    obtain ⟨n', items', rfl, himages⟩ := h.of_array
    exact .array himages.length_eq.symm
  | _ =>
    cases w <;> cases h
    exact .scalar rfl rfl

theorem handle?_eq_none (h : v.Image ρ w) (hv : v.handle? = none) : w.handle? = none := by
  cases h.alike with
  | scalar hh => exact hh
  | object => cases hv
  | array => rfl

theorem items?_eq_none (h : v.Image ρ w) (hv : v.items? = none) : w.items? = none := by
  cases h.alike with
  | scalar _ hi => exact hi
  | object => rfl
  | array => cases hv

theorem typeName_eq (h : v.Image ρ w) : v.typeName = w.typeName := by
  cases h.alike with
  | scalar => rfl
  | @object k l ht =>
    show k.type.lineage.name = l.type.lineage.name
    rw [ht]
  | array => rfl

end Value.Image

/-! ## Reads from mirrored values -/

namespace Graph

variable {s : Store} {v : Value}

theorem follow_member_of_no_object (hv : v.handle? = none) (name : String) :
    follow s v (.member name) = .error (.noMember v.typeName) := by
  rw [follow, getMember, hv, Option.bind_none]

theorem follow_element_of_no_array (hv : v.items? = none) (index : UInt64) :
    follow s v (.element index) = .error (.noContainer v.typeName) := by
  rw [follow, viewOf, hv]
  rfl

end Graph

namespace Store.Mirrors

variable {s t : Store} {f : Nat → Nat} {v w : Value} (h : Mirrors f s v t w)
include h

theorem get?_eq_none {handle : Handle} {name : String} (heq : v = .object handle)
    (hv : v.WellTyped s) (hget : s.get? handle name = none) :
    t.get? ⟨f handle.id, handle.type⟩ name = none := by
  subst heq
  obtain ⟨cell, hc, -⟩ := typeAt?_eq_some_iff.mp hv.typeAt?
  obtain ⟨slots, ht, himages⟩ := h.cells _ (.place (List.mem_singleton_self _)) cell hc
  unfold get? at hget ⊢
  split
  · rfl
  · next slot m hfind =>
    rw [hfind] at hget
    dsimp only at hget ⊢
    rw [slotsAt_eq hc, List.getElem?_eq_none_iff] at hget
    rw [slotsAt_eq ht, List.getElem?_eq_none_iff, himages.length_eq]
    exact hget

/-- A step fails on mirrored values in the same way. -/
theorem follow_error (hv : v.WellTyped s) {step : Step} {fault : Fault}
    (hf : Graph.follow s v step = .error fault) : Graph.follow t w step = .error fault := by
  cases step with
  | member name =>
    cases hh : v.handle? with
    | none =>
      rw [follow_member_of_no_object hh, h.image.typeName_eq] at hf
      rw [follow_member_of_no_object (h.image.handle?_eq_none hh), hf]
    | some handle =>
      obtain rfl := Value.eq_object_of_handle? hh
      obtain rfl := h.image.of_object
      rw [Graph.follow] at hf ⊢
      cases hget : s.get? handle name with
      | some found =>
        rw [getMember_of_some hget] at hf
        cases hf
      | none =>
        rw [getMember_of_none hget] at hf
        rw [getMember_of_none (h.get?_eq_none rfl hv hget)]
        exact hf
  | element index =>
    cases hi : v.items? with
    | none =>
      rw [follow_element_of_no_array hi, h.image.typeName_eq] at hf
      rw [follow_element_of_no_array (h.image.items?_eq_none hi), hf]
    | some items =>
      cases v <;> cases hi
      next n element =>
      obtain ⟨n', items', rfl, himages⟩ := h.image.of_array
      change View.get ⟨.array n element items, items⟩ index = _ at hf
      show View.get ⟨.array n' element items', items'⟩ index = _
      rcases Nat.lt_or_ge index.toNat items.length with hlt | hle
      · rw [View.get_of_lt _ hlt] at hf
        cases hf
      · rw [View.get_of_le _ hle] at hf
        rw [View.get_of_le _ (himages.length_eq ▸ hle), ← hf, View.length, View.length,
          himages.length_eq]

end Store.Mirrors

/-- Reading from mirrored values comes to the same failure, or to values that look alike. -/
theorem Store.Mirrors.readsAlike {s t : Store} {f : Nat → Nat} {v w : Value}
    (h : s.Mirrors f v t w) (hs : s.WellTyped) (hv : v.WellTyped s) (depth : Nat)
    (steps : List Step) :
    ReadsAlike (model.readFrom depth steps v s).value (model.readFrom depth steps w t).value := by
  induction steps generalizing depth v w with
  | nil => exact .found h.image.alike
  | cons step rest ih =>
    cases hf : Graph.follow s v step with
    | error fault =>
      rw [readFrom_cons_of_error hf, readFrom_cons_of_error (h.follow_error hv hf)]
      exact .failed _
    | ok u =>
      obtain ⟨x, hx, hmirrors⟩ := h.follow hv hf
      rw [readFrom_cons_of_ok hf, readFrom_cons_of_ok hx]
      exact ih hmirrors (wellTyped_of_follow hs hv hf) (depth + 1)

namespace Graph

/-! ## Undone edits -/

variable {s : Store} {root : Value} {path : Path} {change : Value → Action Store Value}

theorem readFrom_congr {v w : Value} {step : Step} (h : follow s v step = follow s w step)
    (depth : Nat) (rest : List Step) :
    (model.readFrom depth (step :: rest) v s).value =
      (model.readFrom depth (step :: rest) w s).value := by
  cases hw : follow s w step with
  | error fault => rw [readFrom_cons_of_error hw, readFrom_cons_of_error (h.trans hw)]
  | ok u => rw [readFrom_cons_of_ok hw, readFrom_cons_of_ok (h.trans hw)]

/-- An object that has been replaced reads as before. -/
theorem Replaced.readsAlike {ρ : Nat → Nat} {a : Store} {h : Handle} (hr : Replaced ρ s a h)
    (hs : s.WellTyped) (hh : (Value.object h).WellTyped s) (q : Path) :
    ReadsAlike (model.read q (.object h) s).value (model.read q (.object h) a).value := by
  rw [Model.read_value, Model.read_value, Path.steps, readFrom_congr (hr.follow_eq q.first)]
  exact hr.mirrors.readsAlike hs hh 0 (q.first :: q.rest)

/-- A root that is no object is replaced by its copy, which mirrors it. -/
theorem mirrors_of_undo (hs : s.WellTyped) (hr : root.WellTyped s) (hno : root.handle? = none)
    (hspares : Spares (s.copy root).2 path root change)
    (hfail : FailsInAscent (model.modify path change root (s.copy root).2)) :
    let o := modifyOrUndo path change root s
    s.Mirrors (s.copyPlace (s.reach root)) root o.state o.value.root := by
  have hroot : (model.modify path change root (s.copy root).2).value.root = root := update_root ..
  obtain ⟨hcopies, -⟩ := cells_of_failed_modify hs hr hspares hfail
  rw [modifyOrUndo_of_ascent hfail]
  dsimp only
  rw [hroot, takeBack_of_no_object hno]
  exact Store.mirrors_copy hs hr hcopies

/-- After a reversible edit has failed in its ascent, whatever its root is and however the graph is
shared, every path reads as before: it fails in the same way, or finds a value that looks alike.  A root
that is an object is still the same object. -/
theorem undone_reads {w : World} (hw : Reachable w) (hroot : w.Has root)
    (hspares : Spares (w.store.copy root).2 path root change)
    (hfail : FailsInAscent (modifyOrUndo path change root w.store)) :
    let o := modifyOrUndo path change root w.store
    (∀ q, ReadsAlike (model.read q root w.store).value (model.read q o.value.root o.state).value) ∧
      root.Alike o.value.root ∧ ∀ h, root = .object h → o.value.root = root := by
  have hs := hw.wellTyped.store
  have hr := hroot.wellTyped hw.wellTyped
  have hmodify := failsInAscent_of_modifyOrUndo hfail
  cases hhandle : root.handle? with
  | some h =>
    obtain rfl := Value.eq_object_of_handle? hhandle
    obtain ⟨hsame, hreplaced⟩ := replaced_of_undo hs hr hspares hmodify
    dsimp only
    rw [hsame]
    exact ⟨hreplaced.readsAlike hs hr, .object rfl, fun _ _ => rfl⟩
  | none =>
    have hmirrors := mirrors_of_undo hs hr hhandle hspares hmodify
    refine ⟨fun q => ?_, hmirrors.image.alike, ?_⟩
    · rw [Model.read_value, Model.read_value]
      exact hmirrors.readsAlike hs hr 0 q.steps
    · rintro h rfl
      cases hhandle

theorem undone_reads_in_loop :
    let root : Value := .object ⟨0, node⟩
    let o := modifyOrUndo ⟨.member "value", []⟩ (fun _ => pure (.str "many")) root loop.store
    FailsInAscent o ∧
      (∀ q, ReadsAlike (model.read q root loop.store).value
        (model.read q o.value.root o.state).value) ∧
      root.Alike o.value.root ∧ ∀ h, root = .object h → o.value.root = root := by
  have hroot : loop.Has (.object ⟨0, node⟩) := .held (List.mem_cons_of_mem _ List.mem_cons_self)
  have hfail : FailsInAscent (modifyOrUndo ⟨.member "value", []⟩ (fun _ => pure (.str "many"))
      (.object ⟨0, node⟩) loop.store) := failsInAscent_in_loop.modifyOrUndo
  exact ⟨hfail, undone_reads reachable_loop hroot (fun _ _ => .refl _) hfail⟩

end Graph

end DeepPath
