import DeepPath.Graph.Store
import DeepPath.Proofs.Graph.Layout
import DeepPath.Proofs.Graph.Naming

/-!
# Well-typed stores

A value is well-typed in a store if its handles know the types of their objects and its arrays hold
what the types of their elements admit; a store is, if every object has one slot for each member of
its type and every slot holds a well-typed value that its member admits.  A store only grows: objects
keep their places and types, so a value stays well-typed (`Value.WellTyped.mono`).

In a well-typed store every member that a type has can be read (`exists_get?`), and writing a checked
value keeps the store well-typed (`WellTyped.write`).
-/

namespace DeepPath

namespace Store

/-- The type of the object at a place. -/
def typeAt? (s : Store) (id : Nat) : Option ObjectType :=
  s.cells[id]?.map Cell.type

theorem typeAt?_eq_some_iff {s : Store} {id : Nat} {type : ObjectType} :
    s.typeAt? id = some type ↔ ∃ cell, s.cells[id]? = some cell ∧ cell.type = type :=
  Option.map_eq_some_iff

theorem lt_size_of_typeAt? {s : Store} {id : Nat} {type : ObjectType}
    (h : s.typeAt? id = some type) : id < s.cells.size := by
  obtain ⟨cell, hc, -⟩ := typeAt?_eq_some_iff.mp h
  exact (Array.getElem?_eq_some_iff.mp hc).1

@[simp] theorem typeAt?_putSlots (s : Store) (id other : Nat) (slots : List Value) :
    (s.putSlots id slots).typeAt? other = s.typeAt? other := by
  unfold typeAt? putSlots
  rw [Array.getElem?_modify]
  split
  · rw [Option.map_map]
    rfl
  · rfl

theorem slotsAt_eq {s : Store} {id : Nat} {cell : Cell} (h : s.cells[id]? = some cell) :
    s.slotsAt id = cell.slots := by
  rw [slotsAt, h]

theorem mem_slotsAt_of_get? {s : Store} {h : Handle} {name : String} {v : Value}
    (hget : s.get? h name = some v) : v ∈ s.slotsAt h.id := by
  unfold get? at hget
  split at hget
  · cases hget
  · exact List.mem_of_getElem? hget

/-- What stands in a slot after some slots have been put stood in one before, or was put. -/
theorem mem_slotsAt_putSlots {s : Store} {id other : Nat} {slots : List Value} {v : Value}
    (h : v ∈ (s.putSlots id slots).slotsAt other) : v ∈ s.slotsAt other ∨ v ∈ slots := by
  by_cases hid : other = id
  · subst hid
    by_cases hlt : other < s.cells.size
    · rw [slotsAt_putSlots_self s slots hlt] at h
      exact .inr h
    · unfold slotsAt putSlots at h
      rw [Array.getElem?_eq_none (by simpa using hlt)] at h
      cases h
  · rw [slotsAt_putSlots_of_ne s slots hid] at h
    exact .inl h

/-- `t` comes after `s`: objects have their places and types, and no number of an array is free
again. -/
structure Grows (s t : Store) : Prop where
  typeAt? : ∀ {id type}, s.typeAt? id = some type → t.typeAt? id = some type
  nextArray : s.nextArray ≤ t.nextArray

protected theorem Grows.refl (s : Store) : s.Grows s :=
  ⟨id, Nat.le_refl _⟩

protected theorem Grows.trans {s t u : Store} (h : s.Grows t) (h' : t.Grows u) : s.Grows u :=
  ⟨fun hs => h'.typeAt? (h.typeAt? hs), Nat.le_trans h.nextArray h'.nextArray⟩

theorem grows_putSlots (s : Store) (id : Nat) (slots : List Value) :
    s.Grows (s.putSlots id slots) :=
  ⟨fun h => (typeAt?_putSlots s id _ slots).trans h, Nat.le_refl _⟩

theorem grows_newArray (s : Store) (element : Ty) (items : List Value) :
    s.Grows (s.newArray element items).2 :=
  ⟨id, Nat.le_succ _⟩

/-- Every object of `s` is in `t` with the same slots. -/
def Keeps (s t : Store) : Prop :=
  ∀ ⦃id : Nat⦄ ⦃cell : Cell⦄, s.cells[id]? = some cell → t.cells[id]? = some cell

protected theorem Keeps.refl (s : Store) : s.Keeps s :=
  fun _ _ h => h

protected theorem Keeps.trans {s t u : Store} (h : s.Keeps t) (h' : t.Keeps u) : s.Keeps u :=
  fun _ _ hc => h' (h hc)

theorem Keeps.typeAt? {s t : Store} (h : s.Keeps t) {id : Nat} {type : ObjectType}
    (ht : s.typeAt? id = some type) : t.typeAt? id = some type := by
  obtain ⟨cell, hc, rfl⟩ := typeAt?_eq_some_iff.mp ht
  exact typeAt?_eq_some_iff.mpr ⟨cell, h hc, rfl⟩

theorem Keeps.slotsAt {s t : Store} (h : s.Keeps t) {id : Nat} {type : ObjectType}
    (ht : s.typeAt? id = some type) : t.slotsAt id = s.slotsAt id := by
  obtain ⟨cell, hc, -⟩ := typeAt?_eq_some_iff.mp ht
  rw [slotsAt_eq hc, slotsAt_eq (h hc)]

end Store

/-! ## Values -/

/-- To prove something of all values, prove it of an array from its elements. -/
@[elab_as_elim, induction_eliminator]
theorem Value.induction {P : Value → Prop} (null : P .null) (bool : ∀ b, P (.bool b))
    (int : ∀ n, P (.int n)) (float : ∀ x, P (.float x)) (str : ∀ s, P (.str s))
    (object : ∀ h, P (.object h))
    (array : ∀ id element items, (∀ v ∈ items, P v) → P (.array id element items)) (v : Value) :
    P v :=
  @Value.rec P (fun items => ∀ v ∈ items, P v) null bool int float str object array
    (fun _ h => nomatch h) (fun _ _ hv hrest => List.forall_mem_cons.mpr ⟨hv, hrest⟩) v

/-- What holds of a new element and of those there were holds of all with the new one among them. -/
theorem forall_mem_set {P : Value → Prop} {items : List Value} {index : Nat} {v : Value}
    (hi : ∀ item ∈ items, P item) (hv : P v) : ∀ item ∈ items.set index v, P item := by
  intro item h
  rcases List.mem_or_eq_of_mem_set h with h | rfl
  · exact hi item h
  · exact hv

/-- A value that may stand in a store: handles know the types of their objects, and arrays have been
numbered and hold what the types of their elements admit. -/
inductive Value.WellTyped (s : Store) : Value → Prop
  | null : WellTyped s .null
  | bool (b : Bool) : WellTyped s (.bool b)
  | int (n : Int64) : WellTyped s (.int n)
  | float (x : Binary64) : WellTyped s (.float x)
  | str (text : String) : WellTyped s (.str text)
  | object {h : Handle} : s.typeAt? h.id = some h.type → WellTyped s (.object h)
  | array {id : Nat} {element : Ty} {items : List Value} : id < s.nextArray →
      (∀ v ∈ items, element.admits v) → (∀ v ∈ items, WellTyped s v) →
      WellTyped s (.array id element items)

namespace Value.WellTyped

variable {s t : Store}

theorem mono {v : Value} (h : v.WellTyped s) (g : s.Grows t) : v.WellTyped t := by
  induction h with
  | null => exact .null
  | bool b => exact .bool b
  | int n => exact .int n
  | float x => exact .float x
  | str text => exact .str text
  | object ht => exact .object (g.typeAt? ht)
  | array hid ha _ ih => exact .array (Nat.lt_of_lt_of_le hid g.nextArray) ha ih

theorem typeAt? {h : Handle} (hv : (Value.object h).WellTyped s) :
    s.typeAt? h.id = some h.type := by
  cases hv
  assumption

theorem admits {id : Nat} {element : Ty} {items : List Value}
    (h : (Value.array id element items).WellTyped s) : ∀ v ∈ items, element.admits v := by
  cases h
  assumption

theorem items {id : Nat} {element : Ty} {items : List Value}
    (h : (Value.array id element items).WellTyped s) : ∀ v ∈ items, v.WellTyped s := by
  cases h
  assumption

theorem number_lt {id : Nat} {element : Ty} {items : List Value}
    (h : (Value.array id element items).WellTyped s) : id < s.nextArray := by
  cases h
  assumption

end Value.WellTyped

/-! ## Objects and stores -/

/-- An object with one slot for each member of its type, which holds what the member admits. -/
structure Cell.WellTyped (s : Store) (c : Cell) : Prop where
  length : c.slots.length = c.type.size
  admits : ∀ {slot : Nat} {m v}, c.type.allMembers[slot]? = some m → c.slots[slot]? = some v →
    m.ty.admits v
  slots : ∀ v ∈ c.slots, v.WellTyped s

theorem Cell.WellTyped.mono {s t : Store} {c : Cell} (h : c.WellTyped s) (g : s.Grows t) :
    c.WellTyped t :=
  ⟨h.length, h.admits, fun v hv => (h.slots v hv).mono g⟩

/-- A store of well-typed objects. -/
def Store.WellTyped (s : Store) : Prop :=
  ∀ ⦃id : Nat⦄ ⦃cell : Cell⦄, s.cells[id]? = some cell → cell.WellTyped s

namespace Store.WellTyped

variable {s : Store} {h : Handle} {name : String} {slot : Nat} {m : Member} {v : Value}

/-- The slots at a place, as an object of the type that the place has. -/
theorem slotsAt (hs : s.WellTyped) {id : Nat} {type : ObjectType}
    (ht : s.typeAt? id = some type) : Cell.WellTyped s ⟨type, s.slotsAt id⟩ := by
  obtain ⟨cell, hc, rfl⟩ := typeAt?_eq_some_iff.mp ht
  rw [slotsAt_eq hc]
  exact hs hc

theorem slot_lt (hs : s.WellTyped) (ht : s.typeAt? h.id = some h.type)
    (hf : h.type.find? name = some (slot, m)) : slot < (s.slotsAt h.id).length := by
  rw [(hs.slotsAt ht).length]
  exact ObjectType.find?_slot_lt hf

/-- A member that the type has can be read, and it holds what it admits. -/
theorem exists_get? (hs : s.WellTyped) (ht : s.typeAt? h.id = some h.type)
    (hf : h.type.find? name = some (slot, m)) :
    ∃ v, s.get? h name = some v ∧ m.ty.admits v ∧ v.WellTyped s := by
  have hlt := hs.slot_lt ht hf
  have hv := List.getElem?_eq_getElem hlt
  refine ⟨_, ?_, (hs.slotsAt ht).admits (ObjectType.find?_eq_some hf).1 hv,
    (hs.slotsAt ht).slots _ (List.getElem_mem hlt)⟩
  rw [get?, hf]
  exact hv

theorem isSome_get? (hs : s.WellTyped) (ht : s.typeAt? h.id = some h.type) (name : String) :
    (s.get? h name).isSome = h.type.has name := by
  cases hf : h.type.find? name with
  | none => rw [get?, ObjectType.has, hf]; rfl
  | some hit =>
    obtain ⟨v, hv, -⟩ := hs.exists_get? ht hf
    rw [hv, ObjectType.has, hf]
    rfl

/-- What is read from a member is admitted by it. -/
theorem of_get? (hs : s.WellTyped) (ht : s.typeAt? h.id = some h.type)
    (hv : s.get? h name = some v) :
    ∃ slot m, h.type.find? name = some (slot, m) ∧ m.ty.admits v ∧ v.WellTyped s := by
  cases hf : h.type.find? name with
  | none => rw [get?, hf] at hv; cases hv
  | some hit =>
    obtain ⟨w, hw, ha, hwt⟩ := hs.exists_get? ht hf
    cases hv.symm.trans hw
    exact ⟨_, _, rfl, ha, hwt⟩

theorem putSlots (hs : s.WellTyped) {id : Nat} {slots : List Value}
    (hc : ∀ type, s.typeAt? id = some type → Cell.WellTyped s ⟨type, slots⟩) :
    (s.putSlots id slots).WellTyped := by
  intro other cell hcell
  have g := grows_putSlots s id slots
  by_cases hid : other = id
  · subst hid
    have ht : s.typeAt? other = some cell.type := by
      rw [← typeAt?_putSlots s other other slots]
      exact typeAt?_eq_some_iff.mpr ⟨cell, hcell, rfl⟩
    have hsl := slotsAt_putSlots_self s slots (lt_size_of_typeAt? ht)
    rw [slotsAt_eq hcell] at hsl
    subst hsl
    exact (hc _ ht).mono g
  · rw [Store.putSlots, Array.getElem?_modify, if_neg (Ne.symm hid)] at hcell
    exact (hs hcell).mono g

end Store.WellTyped

/-- A handle that knows the type of its object is determined by the place of the object. -/
theorem Handle.eq_of_id {s : Store} {h h' : Handle} (ht : s.typeAt? h.id = some h.type)
    (ht' : s.typeAt? h'.id = some h'.type) (hid : h.id = h'.id) : h = h' := by
  obtain ⟨id, type⟩ := h
  obtain ⟨id', type'⟩ := h'
  obtain rfl : id = id' := hid
  exact congrArg (Handle.mk id) (Option.some.inj (ht.symm.trans ht'))

/-- What a check lets pass is a slot of the object, for a value that its member admits. -/
theorem Handle.check_eq_ok {h : Handle} {name : String} {v : Value} {slot : Nat} :
    h.check name v = .ok slot ↔ ∃ m, h.type.find? name = some (slot, m) ∧ m.ty.admits v := by
  rw [check]
  constructor
  · intro hc
    split at hc
    · cases hc
    · next k m hf =>
      split at hc
      · next ha =>
        cases hc
        exact ⟨m, hf, ha⟩
      · cases hc
  · rintro ⟨m, hf, ha⟩
    rw [hf]
    exact if_pos ha

/-- Writing a checked value keeps a store well-typed. -/
theorem Store.WellTyped.write {s : Store} (hs : s.WellTyped) {h : Handle} {name : String}
    {slot : Nat} {v : Value} (ht : s.typeAt? h.id = some h.type) (hv : v.WellTyped s)
    (hc : h.check name v = .ok slot) : (s.write h.id slot v).WellTyped := by
  obtain ⟨m, hf, ha⟩ := Handle.check_eq_ok.mp hc
  have hold := hs.slotsAt ht
  refine hs.putSlots fun type htype => ?_
  cases ht.symm.trans htype
  refine ⟨(List.length_set ..).trans hold.length, ?_, ?_⟩
  · intro i n w hn hw
    by_cases hi : slot = i
    · subst hi
      rw [List.getElem?_set_self (hs.slot_lt ht hf)] at hw
      cases hw
      cases hn.symm.trans (ObjectType.find?_eq_some hf).1
      exact ha
    · rw [List.getElem?_set_ne hi] at hw
      exact hold.admits hn hw
  · exact forall_mem_set hold.slots hv

/-- A new array of admitted values is well-typed. -/
theorem Value.WellTyped.newArray {s : Store} {element : Ty} {items : List Value}
    (ha : ∀ v ∈ items, element.admits v) (hi : ∀ v ∈ items, v.WellTyped s) :
    (s.newArray element items).1.WellTyped (s.newArray element items).2 :=
  .array (Nat.lt_succ_self _) ha fun v hv => (hi v hv).mono (s.grows_newArray element items)

theorem Store.WellTyped.newArray {s : Store} (hs : s.WellTyped) (element : Ty)
    (items : List Value) : (s.newArray element items).2.WellTyped :=
  fun _ _ hc => (hs hc).mono (s.grows_newArray element items)

end DeepPath
