import DeepPath.Proofs.Graph.Image

/-!
# Deep copies

A deep copy leaves all objects alone (`cells_copy_of_lt`) and puts a copy of each object that can be
reached behind them.  The slots of a copy are the images of the slots of the original
(`cells_copy_copyPlace`), and the result is the image of the value (`image_copy`).  Copies of different
objects are different objects (`copyPlace_inj`), and copying keeps a store well-typed
(`WellTyped.copy`).
-/

namespace DeepPath

namespace Value

section

variable {s t : Store}

/-! ## Renaming -/

mutual

theorem image_rename (ρ : Nat → Nat) (next : Nat) : ∀ v : Value, v.Image ρ (v.rename ρ next).1
  | .object _ => rfl
  | .array _ element items => by
    rw [Image, relabel, relabelItems_eq_map, ← images_renameItems ρ next items, rename, relabel,
      relabelItems_eq_map]
  | .null | .bool _ | .int _ | .float _ | .str _ => rfl

theorem images_renameItems (ρ : Nat → Nat) (next : Nat) :
    ∀ items : List Value, Images ρ items (renameItems ρ next items).1
  | [] => rfl
  | v :: rest => by
    rw [Images, renameItems, List.map_cons, List.map_cons]
    exact congrArg₂ _ (image_rename ρ next v) (images_renameItems ρ _ rest)

end

mutual

theorem le_rename (ρ : Nat → Nat) (next : Nat) : ∀ v : Value, next ≤ (v.rename ρ next).2
  | .array _ _ items => Nat.le_succ_of_le (le_renameItems ρ next items)
  | .null | .bool _ | .int _ | .float _ | .str _ | .object _ => Nat.le_refl next

theorem le_renameItems (ρ : Nat → Nat) (next : Nat) :
    ∀ items : List Value, next ≤ (renameItems ρ next items).2
  | [] => Nat.le_refl next
  | v :: rest => Nat.le_trans (le_rename ρ next v) (le_renameItems ρ _ rest)

end

/-- The new names have, in `t`, the types that the old ones have in `s`. -/
def Moves (ρ : Nat → Nat) (s t : Store) (places : List Nat) : Prop :=
  ∀ id ∈ places, ∀ type, s.typeAt? id = some type → t.typeAt? (ρ id) = some type

mutual

theorem wellTyped_rename (ρ : Nat → Nat) (next : Nat) : ∀ v : Value, v.WellTyped s →
    Moves ρ s t v.places → (v.rename ρ next).2 ≤ t.nextArray → (v.rename ρ next).1.WellTyped t
  | .null, _, _, _ => .null
  | .bool b, _, _, _ => .bool b
  | .int n, _, _, _ => .int n
  | .float x, _, _, _ => .float x
  | .str text, _, _, _ => .str text
  | .object h, hv, hm, _ => .object (hm h.id (List.mem_singleton_self _) _ hv.typeAt?)
  | .array n element items, hv, hm, hn => by
    refine .array hn (fun w hw => ?_)
      (wellTyped_renameItems ρ next items hv.items hm (Nat.le_of_succ_le hn))
    obtain ⟨v, hv', himage⟩ := (images_renameItems ρ next items).exists_of_mem hw
    rw [← himage.admits_eq]
    exact hv.admits v hv'

theorem wellTyped_renameItems (ρ : Nat → Nat) (next : Nat) : ∀ items : List Value,
    (∀ v ∈ items, v.WellTyped s) → Moves ρ s t (placesOfItems items) →
      (renameItems ρ next items).2 ≤ t.nextArray →
        ∀ w ∈ (renameItems ρ next items).1, w.WellTyped t
  | [], _, _, _ => fun _ hw => nomatch hw
  | v :: rest, hv, hm, hn => by
    obtain ⟨hv, hrest⟩ := List.forall_mem_cons.mp hv
    refine List.forall_mem_cons.mpr ⟨?_, ?_⟩
    · exact wellTyped_rename ρ next v hv (fun id hid => hm id (List.mem_append_left _ hid))
        (Nat.le_trans (le_renameItems ρ _ rest) hn)
    · exact wellTyped_renameItems ρ _ rest hrest
        (fun id hid => hm id (List.mem_append_right _ hid)) hn

end

end

end Value

namespace Store

variable {s : Store} {v : Value} {old : List Nat} {ρ : Nat → Nat} {next : Nat}

/-! ## Copies of objects -/

theorem copyCells_cons {id : Nat} {rest : List Nat} {cell : Cell} (hc : s.cells[id]? = some cell) :
    s.copyCells ρ next (id :: rest) =
      let slots := Value.renameItems ρ next cell.slots
      let cells := s.copyCells ρ slots.2 rest
      (⟨cell.type, slots.1⟩ :: cells.1, cells.2) := by
  rw [copyCells, hc]

theorem le_copyCells (s : Store) (ρ : Nat → Nat) (next : Nat) (old : List Nat) :
    next ≤ (s.copyCells ρ next old).2 := by
  induction old generalizing next with
  | nil => exact Nat.le_refl next
  | cons id rest ih =>
    cases hc : s.cells[id]? with
    | none =>
      rw [copyCells, hc]
      exact ih next
    | some cell =>
      rw [copyCells_cons hc]
      exact Nat.le_trans (Value.le_renameItems ρ next cell.slots) (ih _)

/-- The copies stand in the order of the originals; all numbers of arrays in them are below the number
after the last. -/
theorem copyCells_getElem? (ρ : Nat → Nat) (next : Nat) (hold : ∀ id ∈ old, id < s.cells.size)
    (k : Nat) :
    (s.copyCells ρ next old).1[k]? = none ∧ old[k]? = none ∨
      ∃ id cell n, old[k]? = some id ∧ s.cells[id]? = some cell ∧
        (s.copyCells ρ next old).1[k]? =
          some ⟨cell.type, (Value.renameItems ρ n cell.slots).1⟩ ∧
        (Value.renameItems ρ n cell.slots).2 ≤ (s.copyCells ρ next old).2 := by
  induction old generalizing next k with
  | nil => exact .inl ⟨rfl, rfl⟩
  | cons id rest ih =>
    obtain ⟨hid, hrest⟩ := List.forall_mem_cons.mp hold
    have hc := Array.getElem?_eq_getElem hid
    rw [copyCells_cons hc]
    cases k with
    | zero =>
      refine .inr ⟨id, _, next, rfl, hc, rfl, ?_⟩
      exact s.le_copyCells ρ _ rest
    | succ k => exact ih _ hrest k

/-- The cells of a copy. -/
def copied (s : Store) (v : Value) : List Cell :=
  (s.copyCells (s.copyPlace (s.reach v)) s.nextArray (s.reach v)).1

theorem cells_copy (s : Store) (v : Value) : (s.copy v).2.cells = s.cells ++ s.copied v := rfl

/-- A deep copy leaves all objects alone. -/
theorem cells_copy_of_lt (v : Value) {id : Nat} (h : id < s.cells.size) :
    (s.copy v).2.cells[id]? = s.cells[id]? := by
  rw [cells_copy, ← Array.getElem?_toList, Array.toList_appendList, List.getElem?_append_left h,
    Array.getElem?_toList]

theorem keeps_copy (s : Store) (v : Value) : s.Keeps (s.copy v).2 := by
  intro id cell hc
  rw [cells_copy_of_lt v (Array.getElem?_eq_some_iff.mp hc).1]
  exact hc

theorem cells_copy_add (s : Store) (v : Value) (k : Nat) :
    (s.copy v).2.cells[s.cells.size + k]? = (s.copied v)[k]? := by
  rw [cells_copy, ← Array.getElem?_toList, Array.toList_appendList, ← Array.length_toList,
    List.getElem?_append_right (Nat.le_add_right ..), Nat.add_sub_cancel_left]

theorem copyPlace_of_mem {id : Nat} (h : id ∈ old) :
    ∃ k, s.copyPlace old id = s.cells.size + k ∧ old[k]? = some id := by
  obtain ⟨k, hk⟩ := Option.isSome_iff_exists.mp (List.isSome_idxOf?.mpr h)
  obtain ⟨hlt, hget, -⟩ := List.idxOf?_eq_some_iff.mp hk
  refine ⟨k, ?_, List.getElem?_eq_some_iff.mpr ⟨hlt, hget⟩⟩
  rw [copyPlace, hk]

/-- Copies are new objects. -/
theorem size_le_copyPlace {id : Nat} (h : id ∈ old) : s.cells.size ≤ s.copyPlace old id := by
  obtain ⟨k, hk, -⟩ := copyPlace_of_mem (s := s) h
  rw [hk]
  exact Nat.le_add_right _ _

/-- Different objects have different copies. -/
theorem copyPlace_inj {i j : Nat} (hi : i ∈ old) (hj : j ∈ old)
    (h : s.copyPlace old i = s.copyPlace old j) : i = j := by
  obtain ⟨k, hk, hget⟩ := copyPlace_of_mem (s := s) hi
  obtain ⟨l, hl, hget'⟩ := copyPlace_of_mem (s := s) hj
  obtain rfl : k = l := Nat.add_left_cancel (hk.symm.trans (h.trans hl))
  exact Option.some.inj (hget.symm.trans hget')

/-- The copy of an object that can be reached has its type, and the images of its slots. -/
theorem cells_copy_copyPlace {id : Nat} (h : id ∈ s.reach v) {cell : Cell}
    (hc : s.cells[id]? = some cell) :
    ∃ slots, (s.copy v).2.cells[s.copyPlace (s.reach v) id]? = some ⟨cell.type, slots⟩ ∧
      Value.Images (s.copyPlace (s.reach v)) cell.slots slots := by
  obtain ⟨k, hk, hget⟩ := copyPlace_of_mem (s := s) h
  rw [hk, cells_copy_add]
  obtain ⟨-, hnone⟩ | ⟨i, cell', n, hi, hc', hcopy, -⟩ :=
    copyCells_getElem? (s.copyPlace (s.reach v)) s.nextArray (s.lt_size_of_mem_reach v) k
  · cases hget.symm.trans hnone
  · obtain rfl := Option.some.inj (hget.symm.trans hi)
    obtain rfl := Option.some.inj (hc.symm.trans hc')
    exact ⟨_, hcopy, Value.images_renameItems _ n cell.slots⟩

theorem image_copy (s : Store) (v : Value) :
    v.Image (s.copyPlace (s.reach v)) (s.copy v).1 :=
  Value.image_rename _ _ v

theorem grows_copy (s : Store) (v : Value) : s.Grows (s.copy v).2 := by
  refine ⟨fun {id type} ht => ?_, ?_⟩
  · rw [typeAt?, cells_copy_of_lt v (lt_size_of_typeAt? ht)]
    exact ht
  · exact Nat.le_trans (s.le_copyCells _ _ _) (Value.le_rename _ _ v)

theorem moves_copy (s : Store) (v : Value) :
    Value.Moves (s.copyPlace (s.reach v)) s (s.copy v).2 (s.reach v) := by
  intro id hid type ht
  obtain ⟨cell, hc, rfl⟩ := typeAt?_eq_some_iff.mp ht
  obtain ⟨slots, hcopy, -⟩ := cells_copy_copyPlace hid hc
  exact typeAt?_eq_some_iff.mpr ⟨_, hcopy, rfl⟩

theorem WellTyped.copy (hs : s.WellTyped) (hv : v.WellTyped s) :
    (s.copy v).2.WellTyped ∧ (s.copy v).1.WellTyped (s.copy v).2 := by
  have hmoves := s.moves_copy v
  constructor
  · intro id cell hcell
    by_cases hid : id < s.cells.size
    · rw [cells_copy_of_lt v hid] at hcell
      exact (hs hcell).mono (s.grows_copy v)
    · -- a new object, whose slots are renamed from the slots of an old one
      obtain ⟨k, rfl⟩ := Nat.exists_eq_add_of_le (Nat.le_of_not_lt hid)
      rw [cells_copy_add] at hcell
      obtain ⟨hnone, -⟩ | ⟨i, original, n, hi, hc, hcopy, hn⟩ :=
        copyCells_getElem? (s.copyPlace (s.reach v)) s.nextArray (s.lt_size_of_mem_reach v) k
      · cases hcell.symm.trans hnone
      · obtain rfl := Option.some.inj (hcell.symm.trans hcopy)
        have himages := Value.images_renameItems (s.copyPlace (s.reach v)) n original.slots
        refine ⟨himages.length_eq.trans (hs hc).length, fun {slot m w} hm hw => ?_, ?_⟩
        · obtain ⟨u, hu, himage⟩ := himages.exists_of_getElem? hw
          rw [← himage.admits_eq]
          exact (hs hc).admits hm hu
        · refine Value.wellTyped_renameItems _ n _ (hs hc).slots (fun j hj => hmoves j ?_)
            (Nat.le_trans hn (Value.le_rename _ _ v))
          refine hs.successors_subset_reach (List.mem_of_getElem? hi) ?_
          rw [successors, slotsAt_eq hc]
          exact hj
  · exact Value.wellTyped_rename _ _ v hv
      (fun id hid => hmoves id (places_subset_reach hv hid)) (Nat.le_refl _)

end Store

end DeepPath
