import DeepPath.Proofs.Graph.Reach

/-!
# Images of values

A value is an image of another under a renaming of objects if it differs from it only by the renaming
and by the numbers of its arrays.  Images have the same type, so the same types admit them
(`Image.admits_eq`), and an image depends only on the names of the objects that the value holds
(`Images.congr`).
-/

namespace DeepPath.Value

mutual

/-- A value with its objects renamed and the numbers of its arrays dropped. -/
def relabel (ρ : Nat → Nat) : Value → Value
  | .object handle => .object { handle with id := ρ handle.id }
  | .array _ element items => .array 0 element (relabelItems ρ items)
  | v => v

/-- Values with their objects renamed and the numbers of their arrays dropped. -/
def relabelItems (ρ : Nat → Nat) : List Value → List Value
  | [] => []
  | v :: rest => v.relabel ρ :: relabelItems ρ rest

end

theorem relabelItems_eq_map (ρ : Nat → Nat) (items : List Value) :
    relabelItems ρ items = items.map (relabel ρ) := by
  induction items with
  | nil => rfl
  | cons v rest ih => rw [relabelItems, ih, List.map_cons]

@[simp] theorem isNull_relabel (ρ : Nat → Nat) (v : Value) : (v.relabel ρ).isNull = v.isNull := by
  cases v <;> rfl

@[simp] theorem ty_relabel (ρ : Nat → Nat) (v : Value) : (v.relabel ρ).ty = v.ty := by
  cases v <;> rfl

theorem placesOfItems_map {ρ : Nat → Nat} {g : Value → Value} {items : List Value}
    (h : ∀ v ∈ items, (g v).places = v.places.map ρ) :
    placesOfItems (items.map g) = (placesOfItems items).map ρ := by
  induction items with
  | nil => rfl
  | cons v rest ih =>
    obtain ⟨hv, hrest⟩ := List.forall_mem_cons.mp h
    rw [List.map_cons, placesOfItems, placesOfItems, hv, ih hrest, List.map_append]

theorem places_relabel (ρ : Nat → Nat) (v : Value) : (v.relabel ρ).places = v.places.map ρ := by
  induction v with
  | object => rfl
  | array n element items ih =>
    rw [relabel, relabelItems_eq_map, places, places]
    exact placesOfItems_map ih
  | _ => rfl

/-- `w` is `v` with its objects renamed, up to the numbers of arrays. -/
def Image (ρ : Nat → Nat) (v w : Value) : Prop :=
  w.relabel id = v.relabel ρ

/-- The values `ws` are the images of the values `vs`, in order. -/
def Images (ρ : Nat → Nat) (vs ws : List Value) : Prop :=
  ws.map (relabel id) = vs.map (relabel ρ)

variable {ρ σ : Nat → Nat} {v w : Value} {vs ws : List Value}

theorem Image.isNull_eq (h : v.Image ρ w) : v.isNull = w.isNull := by
  rw [← isNull_relabel ρ v, ← isNull_relabel id w, h]

theorem Image.ty_eq (h : v.Image ρ w) : v.ty = w.ty := by
  rw [← ty_relabel ρ v, ← ty_relabel id w, h]

theorem Image.admits_eq (h : v.Image ρ w) (a : Ty) : a.admits v = a.admits w :=
  Ty.admits_congr h.isNull_eq h.ty_eq

theorem Image.places_eq (h : v.Image ρ w) : w.places = v.places.map ρ := by
  rw [← places_relabel ρ v, ← h, places_relabel, List.map_id]

theorem Image.of_object {h : Handle} (hw : (Value.object h).Image ρ w) :
    w = .object { h with id := ρ h.id } := by
  cases w with
  | object h' =>
    rw [Image, relabel, relabel] at hw
    exact hw
  | _ => cases hw

theorem Image.of_array {n : Nat} {element : Ty} {items : List Value}
    (hw : (Value.array n element items).Image ρ w) :
    ∃ n' items', w = .array n' element items' ∧ Images ρ items items' := by
  cases w with
  | array n' element' items' =>
    rw [Image, relabel, relabel, relabelItems_eq_map, relabelItems_eq_map] at hw
    obtain ⟨-, rfl, hitems⟩ := Value.array.inj hw
    exact ⟨n', items', rfl, hitems⟩
  | _ => cases hw

theorem Images.cons (hv : v.Image ρ w) (h : Images ρ vs ws) : Images ρ (v :: vs) (w :: ws) :=
  congrArg₂ List.cons hv h

theorem Images.placesOfItems_eq (h : Images ρ vs ws) :
    placesOfItems ws = (placesOfItems vs).map ρ := by
  rw [← placesOfItems_map fun v _ => places_relabel ρ v, ← h,
    placesOfItems_map fun v _ => places_relabel id v, List.map_id]

theorem Images.length_eq (h : Images ρ vs ws) : ws.length = vs.length := by
  rw [← List.length_map (relabel id), h, List.length_map]

theorem Images.getElem? (h : Images ρ vs ws) (i : Nat) :
    (ws[i]?).map (relabel id) = (vs[i]?).map (relabel ρ) := by
  rw [← List.getElem?_map, ← List.getElem?_map, h]

theorem Images.of_getElem? (h : Images ρ vs ws) {i : Nat} (hv : vs[i]? = some v) :
    ∃ w, ws[i]? = some w ∧ v.Image ρ w := by
  have hi := h.getElem? i
  rw [hv] at hi
  obtain ⟨w, hw, heq⟩ := Option.map_eq_some_iff.mp hi
  exact ⟨w, hw, heq⟩

theorem Images.exists_of_getElem? (h : Images ρ vs ws) {i : Nat} (hw : ws[i]? = some w) :
    ∃ v, vs[i]? = some v ∧ v.Image ρ w := by
  have hi := h.getElem? i
  rw [hw] at hi
  obtain ⟨v, hv, heq⟩ := Option.map_eq_some_iff.mp hi.symm
  exact ⟨v, hv, heq.symm⟩

theorem Images.of_mem (h : Images ρ vs ws) (hv : v ∈ vs) : ∃ w ∈ ws, v.Image ρ w := by
  obtain ⟨i, hi⟩ := List.getElem?_of_mem hv
  obtain ⟨w, hw, himage⟩ := h.of_getElem? hi
  exact ⟨w, List.mem_of_getElem? hw, himage⟩

theorem Images.exists_of_mem (h : Images ρ vs ws) (hw : w ∈ ws) : ∃ v ∈ vs, v.Image ρ w := by
  obtain ⟨i, hi⟩ := List.getElem?_of_mem hw
  obtain ⟨v, hv, himage⟩ := h.exists_of_getElem? hi
  exact ⟨v, List.mem_of_getElem? hv, himage⟩

/-- An image depends only on the names of the objects that the value holds. -/
theorem relabel_congr (h : ∀ id ∈ v.places, ρ id = σ id) : v.relabel ρ = v.relabel σ := by
  induction v with
  | object handle =>
    rw [relabel, relabel, h handle.id (List.mem_singleton_self _)]
  | array n element items ih =>
    rw [relabel, relabel, relabelItems_eq_map, relabelItems_eq_map]
    refine congrArg _ (List.map_congr_left fun v hv => ih v hv fun id hid => ?_)
    exact h id (mem_placesOfItems.mpr ⟨v, hv, hid⟩)
  | _ => rfl

theorem Images.congr (hw : Images ρ vs ws) (h : ∀ id ∈ placesOfItems vs, ρ id = σ id) :
    Images σ vs ws := by
  refine Eq.trans hw (List.map_congr_left fun v hv => relabel_congr fun id hid => ?_)
  exact h id (mem_placesOfItems.mpr ⟨v, hv, hid⟩)

end DeepPath.Value
