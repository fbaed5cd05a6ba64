import DeepPath.Proofs.Graph.Typing

/-!
# Making values

Default values, new objects, new arrays and reverted objects keep a store well-typed: a new object gets
one admitted value for each member (`WellTyped.create`), a checked array holds admitted values
(`WellTyped.makeArray`), and an object takes all the slots of another object of its own type
(`WellTyped.revert`).
-/

namespace DeepPath.Store

variable {s : Store}

/-! ## Default values -/

@[simp] theorem cells_default (s : Store) (ty : Ty) : (s.default ty).2.cells = s.cells := by
  cases ty <;> rfl

theorem nextArray_le_default (s : Store) (ty : Ty) : s.nextArray ≤ (s.default ty).2.nextArray := by
  cases ty with
  | array element => exact Nat.le_succ _
  | _ => exact Nat.le_refl _

theorem grows_of_cells_eq {t : Store} (hc : t.cells = s.cells) (hn : s.nextArray ≤ t.nextArray) :
    s.Grows t := by
  refine ⟨fun {id type} ht => ?_, hn⟩
  unfold typeAt?
  rw [hc]
  exact ht

theorem keeps_of_cells_eq {t : Store} (hc : t.cells = s.cells) : s.Keeps t := by
  intro id cell h
  rwa [hc]

theorem grows_default (s : Store) (ty : Ty) : s.Grows (s.default ty).2 :=
  grows_of_cells_eq (s.cells_default ty) (s.nextArray_le_default ty)

theorem admits_default (s : Store) (ty : Ty) : ty.admits (s.default ty).1 := by
  cases ty with
  | array element => exact element.includes_self
  | _ => rfl

theorem wellTyped_default (s : Store) (ty : Ty) : (s.default ty).1.WellTyped (s.default ty).2 := by
  cases ty with
  | array element => exact .newArray (fun v hv => nomatch hv) (fun v hv => nomatch hv)
  | any => exact .null
  | anyObject => exact .null
  | object => exact .null
  | bool => exact .bool _
  | int => exact .int _
  | float => exact .float _
  | str => exact .str _

/-- The default values of members: nothing but the numbers of arrays changes, and there is one admitted
value for each member. -/
theorem defaults_spec (s : Store) (ms : List Member) :
    (s.defaults ms).2.cells = s.cells ∧ s.nextArray ≤ (s.defaults ms).2.nextArray ∧
      (s.defaults ms).1.length = ms.length ∧
      (∀ (slot : Nat) m v, ms[slot]? = some m → (s.defaults ms).1[slot]? = some v →
        m.ty.admits v) ∧
      ∀ v ∈ (s.defaults ms).1, v.WellTyped (s.defaults ms).2 := by
  induction ms generalizing s with
  | nil =>
    refine ⟨rfl, Nat.le_refl _, rfl, ?_, ?_⟩
    · intro slot m v hm
      cases hm
    · intro v hv
      cases hv
  | cons m rest ih =>
    obtain ⟨hcells, hnext, hlen, hadmits, hwell⟩ := ih (s.default m.ty).2
    have g := grows_of_cells_eq hcells hnext
    refine ⟨hcells.trans (s.cells_default m.ty),
      Nat.le_trans (s.nextArray_le_default m.ty) hnext, congrArg (· + 1) hlen, ?_, ?_⟩
    · intro slot n v hn hv
      cases slot with
      | zero =>
        cases hn
        cases hv
        exact s.admits_default m.ty
      | succ slot => exact hadmits slot n v hn hv
    · exact List.forall_mem_cons.mpr ⟨(s.wellTyped_default m.ty).mono g, hwell⟩

/-! ## Objects -/

theorem typeAt?_create (s : Store) (type : ObjectType) :
    (s.create type).2.typeAt? (s.create type).1.id = some type := by
  refine typeAt?_eq_some_iff.mpr ⟨_, Array.getElem?_push_size, rfl⟩

theorem slotsAt_create (s : Store) (type : ObjectType) :
    (s.create type).2.slotsAt (s.create type).1.id = (s.defaults type.allMembers).1 := by
  have hcell : (s.create type).2.cells[(s.create type).1.id]? =
      some ⟨type, (s.defaults type.allMembers).1⟩ := Array.getElem?_push_size
  rw [slotsAt_eq hcell]

/-- A new object has a new place. -/
theorem id_create (s : Store) (type : ObjectType) : (s.create type).1.id = s.cells.size := by
  show (s.defaults type.allMembers).2.cells.size = _
  rw [(s.defaults_spec type.allMembers).1]

theorem keeps_create (s : Store) (type : ObjectType) : s.Keeps (s.create type).2 := by
  intro id cell hc
  show ((s.defaults type.allMembers).2.cells.push _)[id]? = _
  have hlt := (Array.getElem?_eq_some_iff.mp hc).1
  rw [(s.defaults_spec type.allMembers).1, Array.getElem?_push, if_neg (Nat.ne_of_lt hlt), hc]

theorem grows_create (s : Store) (type : ObjectType) : s.Grows (s.create type).2 := by
  obtain ⟨hcells, hnext, -⟩ := s.defaults_spec type.allMembers
  refine ⟨fun {id ty} ht => ?_, hnext⟩
  have hlt := lt_size_of_typeAt? ht
  show ((s.defaults type.allMembers).2.cells.push _)[id]?.map Cell.type = _
  rw [hcells, Array.getElem?_push, if_neg (Nat.ne_of_lt hlt)]
  exact ht

theorem WellTyped.default (hs : s.WellTyped) (ty : Ty) : (s.default ty).2.WellTyped := by
  intro id cell hc
  rw [cells_default] at hc
  exact (hs hc).mono (s.grows_default ty)

theorem WellTyped.create (hs : s.WellTyped) (type : ObjectType) :
    (s.create type).2.WellTyped := by
  obtain ⟨hcells, hnext, hlen, hadmits, hwell⟩ := s.defaults_spec type.allMembers
  intro id cell hc
  change ((s.defaults type.allMembers).2.cells.push _)[id]? = some cell at hc
  rw [hcells, Array.getElem?_push] at hc
  split at hc
  · -- the new object
    cases hc
    have g : (s.defaults type.allMembers).2.Grows (s.create type).2 := by
      refine ⟨fun {i ty} ht => (s.grows_create type).typeAt? ?_, Nat.le_refl _⟩
      unfold typeAt? at ht ⊢
      rwa [hcells] at ht
    exact ⟨hlen.trans type.length_allMembers, hadmits _ _ _, fun v hv => (hwell v hv).mono g⟩
  · exact (hs hc).mono (s.grows_create type)

/-! ## Arrays -/

/-- An array that is made with a check is a new array, of values that are admitted. -/
theorem makeArray_eq_ok {element : Ty} {items : List Value} {made : Value × Store}
    (h : s.makeArray element items = .ok made) :
    made = s.newArray element items ∧ ∀ v ∈ items, element.admits v := by
  rw [makeArray] at h
  split at h
  · cases h
  · next hnone =>
    cases h
    refine ⟨rfl, fun v hv => ?_⟩
    have := List.find?_eq_none.mp hnone v hv
    rwa [Bool.not_eq_true, Bool.not_eq_false'] at this

theorem WellTyped.makeArray (hs : s.WellTyped) {element : Ty} {items : List Value}
    {made : Value × Store} (h : s.makeArray element items = .ok made)
    (hi : ∀ v ∈ items, v.WellTyped s) :
    made.2.WellTyped ∧ s.Grows made.2 ∧ made.1.WellTyped made.2 := by
  obtain ⟨rfl, ha⟩ := makeArray_eq_ok h
  exact ⟨hs.newArray element items, s.grows_newArray element items, .newArray ha hi⟩

/-! ## Reverted objects -/

theorem grows_revert (s : Store) (live saved : Handle) : s.Grows (s.revert live saved) := by
  rw [revert]
  split
  · exact .refl s
  · exact s.grows_putSlots live.id (s.slotsAt saved.id)

/-- All slots of an object may be replaced by those of another object of the same type. -/
theorem WellTyped.revert (hs : s.WellTyped) {live saved : Handle}
    (hl : s.typeAt? live.id = some live.type) (hv : s.typeAt? saved.id = some saved.type)
    (h : live.type = saved.type) : (s.revert live saved).WellTyped := by
  rw [Store.revert]
  split
  · exact hs
  · refine hs.putSlots fun type htype => ?_
    cases hl.symm.trans htype
    rw [h]
    exact hs.slotsAt hv

end DeepPath.Store
