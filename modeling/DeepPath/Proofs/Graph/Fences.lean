import DeepPath.Proofs.Graph.Cloning

/-!
# Objects behind a fence

Some objects of a store are behind a fence `P`: they stay as they are, and no value leads to them that did
not before.  A client stays on its side of the fence whatever it does, for no operation makes a value that
leads further than the values that it is made of.

1. What a value leads to after a write it led to before, or the value that was written did
   (`reaches_putSlots`); and new objects are led to by new values only (`Reaches.of_keeps`).
2. So values that avoid the fenced objects go on avoiding them: `fences_putSlots`, `fences_of_keeps`.

Main statement: all that a client can do to values that avoid the fenced objects leaves these alone
(`preserved_fences`).
-/

namespace DeepPath

open DeepPath.Graph

variable {P : Nat → Prop} {s t u : Store} {v w : Value} {h : Handle} {id i : Nat}

theorem Value.places_eq_nil (hh : v.handle? = none) (hi : v.items? = none) : v.places = [] := by
  cases v with
  | object => cases hh
  | array => cases hi
  | _ => rfl

namespace Store

/-! ## What can be reached after a change -/

/-- All that a value leads to it leads to through a place of its own. -/
theorem Reaches.exists_place (hr : s.Reaches v i) :
    ∃ j ∈ v.places, ∀ h : Handle, h.id = j → s.Reaches (.object h) i := by
  induction hr with
  | @place j hj =>
    refine ⟨j, hj, fun h hid => .place ?_⟩
    rw [Value.places, hid]
    exact List.mem_singleton_self j
  | step _ hn ih =>
    obtain ⟨j, hj, hreach⟩ := ih
    exact ⟨j, hj, fun h hid => .step (hreach h hid) hn⟩

/-- What an object leads to can be reached from wherever the object can. -/
theorem Reaches.of_object_reached (hv : s.Reaches v h.id) (hr : s.Reaches (.object h) i) :
    s.Reaches v i := by
  induction hr with
  | place hp =>
    rw [List.mem_singleton.mp hp]
    exact hv
  | step _ hn ih => exact .step ih hn

theorem reaches_array {n : Nat} {element : Ty} {items : List Value} :
    s.Reaches (.array n element items) i ↔ ∃ item ∈ items, s.Reaches item i := by
  constructor
  · intro hr
    induction hr with
    | place hp =>
      obtain ⟨item, hitem, hp⟩ := Value.mem_placesOfItems.mp hp
      exact ⟨item, hitem, .place hp⟩
    | step _ hn ih =>
      obtain ⟨item, hitem, hr⟩ := ih
      exact ⟨item, hitem, .step hr hn⟩
  · rintro ⟨item, hitem, hr⟩
    induction hr with
    | place hp => exact .place (Value.mem_placesOfItems.mpr ⟨item, hitem, hp⟩)
    | step _ hn ih => exact .step ih hn

/-- Written values are all that can be led to in addition. -/
theorem reaches_putSlots {slots : List Value} (hr : (s.putSlots id slots).Reaches v i) :
    s.Reaches v i ∨ ∃ w ∈ slots, s.Reaches w i := by
  induction hr with
  | place hp => exact .inl (.place hp)
  | step _ hn ih =>
    obtain ⟨w, hw, hp⟩ := Value.mem_placesOfItems.mp hn
    rcases mem_slotsAt_putSlots hw with hw | hw
    · have hn' := Value.mem_placesOfItems.mpr ⟨w, hw, hp⟩
      rcases ih with hr | ⟨x, hx, hr⟩
      · exact .inl (.step hr hn')
      · exact .inr ⟨x, hx, .step hr hn'⟩
    · exact .inr ⟨w, hw, .place hp⟩

/-- Where all objects are as they were, values that there were lead to what they did. -/
theorem Reaches.of_keeps (hs : s.WellTyped) (hv : v.WellTyped s) (hk : s.Keeps t)
    (hr : t.Reaches v i) : s.Reaches v i := by
  induction hr with
  | place hp => exact .place hp
  | step _ hn ih =>
    obtain ⟨cell, hc⟩ := ih.exists_cell hs hv
    rw [successors, slotsAt_eq (hk hc), ← slotsAt_eq hc] at hn
    exact .step ih hn

/-! ## Values that avoid some objects -/

/-- Nothing behind the fence can be reached. -/
def Avoids (s : Store) (P : Nat → Prop) (v : Value) : Prop :=
  ∀ i, s.Reaches v i → ¬ P i

theorem Avoids.not_fenced (hv : s.Avoids P (.object h)) : ¬ P h.id :=
  hv h.id (.place (List.mem_singleton_self _))

theorem Avoids.slot (hv : s.Avoids P (.object h)) : ∀ w ∈ s.slotsAt h.id, s.Avoids P w :=
  fun _ hw i hr => hv i (.of_slot (.place (List.mem_singleton_self _)) hw hr)

theorem avoids_array {n : Nat} {element : Ty} {items : List Value} :
    s.Avoids P (.array n element items) ↔ ∀ item ∈ items, s.Avoids P item := by
  constructor
  · exact fun hv item hitem i hr => hv i (reaches_array.mpr ⟨item, hitem, hr⟩)
  · intro hi i hr
    obtain ⟨item, hitem, hr⟩ := reaches_array.mp hr
    exact hi item hitem i hr

theorem avoids_of_places_eq_nil (hv : v.places = []) : s.Avoids P v := by
  intro i hr
  obtain ⟨j, hj, -⟩ := hr.exists_place
  rw [hv] at hj
  cases hj

/-- Default values hold no objects. -/
theorem places_default (s : Store) (ty : Ty) : (s.default ty).1.places = [] := by
  cases ty <;> rfl

theorem places_of_mem_defaults {ms : List Member} {v : Value} (hv : v ∈ (s.defaults ms).1) :
    v.places = [] := by
  induction ms generalizing s with
  | nil => cases hv
  | cons m rest ih =>
    rcases List.mem_cons.mp hv with rfl | hv
    · exact s.places_default m.ty
    · exact ih hv

theorem Avoids.follow {step : Step} {c : Value} (hv : s.Avoids P v) (hf : Graph.follow s v step = .ok c) :
    s.Avoids P c :=
  fun i hr => hv i (.of_follow hf hr)

/-! ## Fences -/

/-- From `s` to `t` the objects behind the fence stay as they are, and values that avoid them still do. -/
structure Fences (P : Nat → Prop) (s t : Store) : Prop where
  grows : s.Grows t
  cells : ∀ i, P i → t.cells[i]? = s.cells[i]?
  avoids : ∀ {v : Value}, v.WellTyped s → s.Avoids P v → t.Avoids P v

protected theorem Fences.refl (P : Nat → Prop) (s : Store) : Fences P s s :=
  ⟨.refl s, fun _ _ => rfl, fun _ h => h⟩

protected theorem Fences.trans (h : Fences P s t) (h' : Fences P t u) : Fences P s u where
  grows := h.grows.trans h'.grows
  cells i hi := (h'.cells i hi).trans (h.cells i hi)
  avoids hv ha := h'.avoids (hv.mono h.grows) (h.avoids hv ha)

/-- Fenced objects are in the store for good. -/
theorem Fences.lt_size (h : Fences P s t) (hP : ∀ i, P i → i < s.cells.size) :
    ∀ i, P i → i < t.cells.size := by
  intro i hi
  have hcell := h.cells i hi
  rw [Array.getElem?_eq_getElem (hP i hi)] at hcell
  exact (Array.getElem?_eq_some_iff.mp hcell).1

theorem fences_putSlots {slots : List Value} (hid : ¬ P id) (hslots : ∀ w ∈ slots, s.Avoids P w) :
    Fences P s (s.putSlots id slots) where
  grows := s.grows_putSlots id slots
  cells i hi := by
    have hne : id ≠ i := fun he => hid (he ▸ hi)
    rw [putSlots, Array.getElem?_modify, if_neg hne]
  avoids _ ha i hr := by
    rcases reaches_putSlots hr with hr | ⟨w, hw, hr⟩
    · exact ha i hr
    · exact hslots w hw i hr

theorem fences_of_keeps (hs : s.WellTyped) (hP : ∀ i, P i → i < s.cells.size) (hk : s.Keeps t)
    (g : s.Grows t) : Fences P s t where
  grows := g
  cells i hi := by
    have hcell := Array.getElem?_eq_getElem (hP i hi)
    rw [hcell, hk hcell]
  avoids hv ha i hr := ha i (hr.of_keeps hs hv hk)

theorem fences_newArray (hs : s.WellTyped) (hP : ∀ i, P i → i < s.cells.size) (element : Ty)
    (items : List Value) : Fences P s (s.newArray element items).2 :=
  fences_of_keeps hs hP (keeps_of_cells_eq rfl) (s.grows_newArray element items)

end Store

/-! ## What clients do -/

namespace Graph

open Store

variable {parent child root : Value} {step : Step}

/-- A new value that was made without a change to any object. -/
theorem exists_fences_of_keeps (hs : s.WellTyped) (hP : ∀ i, P i → i < s.cells.size)
    (hmade : ∃ l, s.Grows l ∧ (t = l ∧ t.WellTyped) ∧ v.WellTyped l) (hk : s.Keeps t)
    (ha : t.Avoids P v) :
    ∃ l, Fences P s l ∧ (t = l ∧ t.WellTyped ∧ ∀ i, P i → i < t.cells.size) ∧
      v.WellTyped l ∧ l.Avoids P v := by
  obtain ⟨_, g, ⟨rfl, ht⟩, hv⟩ := hmade
  have f := fences_of_keeps hs hP hk g
  exact ⟨_, f, ⟨rfl, ht, f.lt_size hP⟩, hv, ha⟩

theorem avoids_create (hP : ∀ i, P i → i < s.cells.size) (type : ObjectType) :
    (s.create type).2.Avoids P (.object (s.create type).1) := by
  intro i hr hi
  rcases hr.of_object with rfl | ⟨w, hw, hr⟩
  · rw [s.id_create] at hi
    exact Nat.lt_irrefl _ (hP _ hi)
  · rw [s.slotsAt_create] at hw
    exact avoids_of_places_eq_nil (places_of_mem_defaults hw) i hr hi

/-- All that a copy leads to is new. -/
theorem avoids_copy (hs : s.WellTyped) (hP : ∀ i, P i → i < s.cells.size) (hv : v.WellTyped s) :
    (s.copy v).2.Avoids P (s.copy v).1 := by
  intro i hr hi
  obtain ⟨j, hj, rfl⟩ := (mirrors_copy hs hv fun _ _ _ hc => hc).onto hs hv hr
  exact Nat.not_le_of_lt (hP _ hi) (hj.size_le_copyPlace hs hv)

theorem avoids_set {n m : Nat} {element element' : Ty} {items : List Value} (f : Fences P s t)
    (hp : (Value.array n element items).WellTyped s) (hpa : s.Avoids P (.array n element items))
    (hc : t.Avoids P child) (index : Nat) :
    t.Avoids P (.array m element' (items.set index child)) := by
  refine avoids_array.mpr (forall_mem_set (fun item hitem => ?_) hc)
  exact f.avoids (hp.items item hitem) (avoids_array.mp hpa item hitem)

theorem fences_put (hs : s.WellTyped) (hP : ∀ i, P i → i < s.cells.size) (hp : parent.WellTyped s)
    (hpa : s.Avoids P parent) (hc : child.WellTyped s) (hca : s.Avoids P child) (step : Step) :
    let o := model.put parent step child s
    Fences P s o.state ∧ ∀ placement, o.value.2 = .ok placement →
      o.state.Avoids P (placement.settle parent) := by
  have ho := puts s parent step child
  generalize model.put parent step child s = o at ho ⊢
  cases ho with
  | @written h name slot =>
    have f : Fences P s (s.write h.id slot child) :=
      fences_putSlots hpa.not_fenced (forall_mem_set hpa.slot hca)
    refine ⟨f, fun placement hpl => ?_⟩
    cases hpl
    exact f.avoids hp hpa
  | @built _ element items index =>
    have f := fences_newArray hs hP (elementTy element child) (items.set index.toNat child)
    refine ⟨f, fun placement hpl => ?_⟩
    cases hpl
    exact avoids_set f hp hpa (f.avoids hc hca) index.toNat
  | @widened _ element items index =>
    have f := fences_newArray hs hP element (items.set index.toNat child)
    refine ⟨f, fun placement hpl => ?_⟩
    cases hpl
    exact avoids_set f hp hpa (f.avoids hc hca) index.toNat
  | _ => exact ⟨.refl P s, fun placement hpl => nomatch hpl⟩

theorem fences_revert {live saved : Handle} (hl : s.Avoids P (.object live))
    (hv : s.Avoids P (.object saved)) : Fences P s (s.revert live saved) := by
  rw [revert]
  split
  · exact .refl P s
  · exact fences_putSlots hl.not_fenced hv.slot

/-- All that a client can do to values on its side of the fence leaves the objects behind it alone, and
leaves values on its side. -/
theorem preserved_fences (P : Nat → Prop) :
    Preserved (Fences P) (fun t s => s = t ∧ s.WellTyped ∧ ∀ i, P i → i < s.cells.size)
      (fun t v => v.WellTyped t ∧ t.Avoids P v) where
  refl := .refl P
  trans := .trans
  mono f hv := ⟨hv.1.mono f.grows, f.avoids hv.1 hv.2⟩
  scalar t v hh hi :=
    ⟨preserved_wellTyped.scalar t hh hi, avoids_of_places_eq_nil (Value.places_eq_nil hh hi)⟩
  default := by
    rintro _ s ⟨rfl, hs, hP⟩ ty
    exact exists_fences_of_keeps hs hP (preserved_wellTyped.default ⟨rfl, hs⟩ ty)
      (keeps_of_cells_eq (s.cells_default ty)) (avoids_of_places_eq_nil (s.places_default ty))
  create := by
    rintro _ s ⟨rfl, hs, hP⟩ type
    exact exists_fences_of_keeps hs hP (preserved_wellTyped.create ⟨rfl, hs⟩ type)
      (s.keeps_create type) (avoids_create hP type)
  makeArray := by
    rintro _ s element items made ⟨rfl, hs, hP⟩ hi hm
    obtain ⟨rfl, -⟩ := makeArray_eq_ok hm
    have f := fences_newArray hs hP element items
    refine exists_fences_of_keeps hs hP
      (preserved_wellTyped.makeArray ⟨rfl, hs⟩ (fun v hv => (hi v hv).1) hm) (keeps_of_cells_eq rfl)
      (avoids_array.mpr fun item hitem => f.avoids (hi item hitem).1 (hi item hitem).2)
  follow := by
    rintro _ s v child step ⟨rfl, hs, -⟩ hv h
    exact ⟨wellTyped_of_follow hs hv.1 h, hv.2.follow h⟩
  put := by
    rintro _ s parent child ⟨rfl, hs, hP⟩ hp hc step
    obtain ⟨_, -, ⟨rfl, hw⟩, hv⟩ := preserved_wellTyped.put ⟨rfl, hs⟩ hp.1 hc.1 step
    obtain ⟨f, ha⟩ := fences_put hs hP hp.1 hp.2 hc.1 hc.2 step
    exact ⟨_, f, ⟨rfl, hw, f.lt_size hP⟩, fun placement hpl => ⟨hv placement hpl, ha placement hpl⟩⟩
  copy := by
    rintro _ s v ⟨rfl, hs, hP⟩ hv
    exact exists_fences_of_keeps hs hP (preserved_wellTyped.copy ⟨rfl, hs⟩ hv.1) (s.keeps_copy v)
      (avoids_copy hs hP hv.1)
  revert := by
    rintro _ s live saved ⟨rfl, hs, hP⟩ hl hv ht
    obtain ⟨_, -, rfl, hw⟩ := preserved_wellTyped.revert ⟨rfl, hs⟩ hl.1 hv.1 ht
    have f := fences_revert hl.2 hv.2
    exact ⟨_, f, rfl, hw, f.lt_size hP⟩

end Graph

end DeepPath
