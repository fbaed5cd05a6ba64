import DeepPath.Proofs.Graph.World

/-!
# Arrays are known by their numbers

An array is its elements and a number.  The arrays that have been made can be entered in a ledger, the one
with the number `n` in place `n`: whatever a client holds, and whatever stands in a slot or in an array,
is in the ledger as it stands there.  All that a client can do adds entries at the end (`Runs.entered`), so
no array ever changes: two arrays of one number have the same elements, also when one of them was seen
before a run and the other after it (`Runs.array_eq`).
-/

namespace DeepPath

/-- The arrays made so far in the order of their numbers: the types of their elements, and these. -/
abbrev Ledger := List (Ty × List Value)

/-! ## Values -/

/-- Every array in a value is in the ledger, at its number. -/
inductive Value.Entered (l : Ledger) : Value → Prop
  | other {v : Value} : v.items? = none → Entered l v
  | array {n : Nat} {element : Ty} {items : List Value} : l[n]? = some (element, items) →
      (∀ v ∈ items, Entered l v) → Entered l (.array n element items)

namespace Value.Entered

variable {l l' : Ledger} {n : Nat} {element : Ty} {xs : List Value}

theorem mono {v : Value} (h : v.Entered l) (hl : l <+: l') : v.Entered l' := by
  obtain ⟨more, rfl⟩ := hl
  induction h with
  | other hv => exact .other hv
  | array hn _ ih =>
    refine .array ?_ ih
    rw [List.getElem?_append_left (List.getElem?_eq_some_iff.mp hn).1]
    exact hn

theorem getElem? (h : (Value.array n element xs).Entered l) :
    l[n]? = some (element, xs) := by
  cases h with
  | other hv => cases hv
  | array hn => exact hn

theorem items (h : (Value.array n element xs).Entered l) : ∀ v ∈ xs, v.Entered l := by
  cases h with
  | other hv => cases hv
  | array _ hi => exact hi

/-- The next array is entered at the end. -/
theorem push (hi : ∀ v ∈ xs, v.Entered l) (hn : n = l.length) :
    (Value.array n element xs).Entered (l ++ [(element, xs)]) := by
  subst hn
  exact .array List.getElem?_concat_length fun v hv => (hi v hv).mono (List.prefix_append ..)

end Value.Entered

namespace Store

/-- Every array in a slot is in the ledger, which ends before the number of the next array. -/
structure Entered (l : Ledger) (s : Store) : Prop where
  length : l.length = s.nextArray
  slots : ∀ (id : Nat), ∀ v ∈ s.slotsAt id, v.Entered l

variable {l : Ledger} {s t : Store} {v : Value}

theorem slotsAt_congr (h : t.cells = s.cells) (id : Nat) : t.slotsAt id = s.slotsAt id := by
  unfold slotsAt
  rw [h]

/-- More arrays, and no other objects. -/
theorem Entered.of_cells_eq {l' : Ledger} (h : s.Entered l) (hl : l <+: l')
    (hn : l'.length = t.nextArray) (hc : t.cells = s.cells) : t.Entered l' := by
  refine ⟨hn, fun id v hv => ?_⟩
  rw [slotsAt_congr hc] at hv
  exact (h.slots id v hv).mono hl

/-! ## Making values -/

theorem Entered.newArray (h : s.Entered l) (element : Ty) {items : List Value}
    (hi : ∀ v ∈ items, v.Entered l) :
    (s.newArray element items).2.Entered (l ++ [(element, items)]) ∧
      (s.newArray element items).1.Entered (l ++ [(element, items)]) := by
  refine ⟨h.of_cells_eq (List.prefix_append ..) ?_ rfl, .push hi h.length.symm⟩
  rw [List.length_append, h.length]
  rfl

theorem Entered.default (h : s.Entered l) (ty : Ty) :
    ∃ l', l <+: l' ∧ (s.default ty).2.Entered l' ∧ (s.default ty).1.Entered l' := by
  cases ty with
  | array element => exact ⟨_, List.prefix_append .., h.newArray element fun _ hv => nomatch hv⟩
  | _ => exact ⟨l, List.prefix_refl l, h, .other rfl⟩

theorem Entered.defaults (h : s.Entered l) (ms : List Member) :
    ∃ l', l <+: l' ∧ (s.defaults ms).2.Entered l' ∧ ∀ v ∈ (s.defaults ms).1, v.Entered l' := by
  induction ms generalizing s l with
  | nil => exact ⟨l, List.prefix_refl l, h, fun _ hv => nomatch hv⟩
  | cons m rest ih =>
    obtain ⟨l₁, hl₁, hs₁, hv⟩ := h.default m.ty
    obtain ⟨l₂, hl₂, hs₂, hvs⟩ := ih hs₁
    exact ⟨l₂, hl₁.trans hl₂, hs₂, List.forall_mem_cons.mpr ⟨hv.mono hl₂, hvs⟩⟩

theorem slotsAt_push (s : Store) (cell : Cell) (next id : Nat) (v : Value)
    (hv : v ∈ (Store.mk (s.cells.push cell) next).slotsAt id) :
    v ∈ s.slotsAt id ∨ v ∈ cell.slots := by
  unfold slotsAt at hv ⊢
  rw [Array.getElem?_push] at hv
  split at hv
  · next h =>
    split at h
    · cases h
      exact .inr hv
    · next hc => exact .inl (by rwa [h])
  · cases hv

theorem Entered.create (h : s.Entered l) (type : ObjectType) :
    ∃ l', l <+: l' ∧ (s.create type).2.Entered l' := by
  obtain ⟨l', hl, hs, hvs⟩ := h.defaults type.allMembers
  refine ⟨l', hl, hs.length, fun id v hv => ?_⟩
  rcases slotsAt_push _ _ _ id v hv with hv | hv
  · exact hs.slots id v hv
  · exact hvs v hv

theorem Entered.putSlots (h : s.Entered l) (id : Nat) {slots : List Value}
    (hv : ∀ v ∈ slots, v.Entered l) : (s.putSlots id slots).Entered l := by
  refine ⟨h.length, fun other v hmem => ?_⟩
  rcases mem_slotsAt_putSlots hmem with hmem | hmem
  · exact h.slots other v hmem
  · exact hv v hmem

theorem Entered.write (h : s.Entered l) (id slot : Nat) (hv : v.Entered l) :
    (s.write id slot v).Entered l :=
  h.putSlots id (forall_mem_set (h.slots id) hv)

theorem Entered.revert (h : s.Entered l) (live saved : Handle) :
    (s.revert live saved).Entered l := by
  unfold Store.revert
  split
  · exact h
  · exact h.putSlots live.id (h.slots saved.id)

/-! ## Copies -/

end Store

mutual

theorem Value.entered_rename (ρ : Nat → Nat) : ∀ (v : Value) (l : Ledger),
    ∃ l', l <+: l' ∧ l'.length = (v.rename ρ l.length).2 ∧ (v.rename ρ l.length).1.Entered l'
  | .array _ element items, l => by
    obtain ⟨l', hl, hn, hvs⟩ := entered_renameItems ρ items l
    refine ⟨_, hl.trans (List.prefix_append ..), ?_, .push hvs hn.symm⟩
    rw [List.length_append, hn]
    rfl
  | .null, l | .bool _, l | .int _, l | .float _, l | .str _, l | .object _, l =>
    ⟨l, List.prefix_refl l, rfl, .other rfl⟩

theorem Value.entered_renameItems (ρ : Nat → Nat) : ∀ (items : List Value) (l : Ledger),
    ∃ l', l <+: l' ∧ l'.length = (renameItems ρ l.length items).2 ∧
      ∀ v ∈ (renameItems ρ l.length items).1, v.Entered l'
  | [], l => ⟨l, List.prefix_refl l, rfl, fun _ hv => nomatch hv⟩
  | v :: rest, l => by
    obtain ⟨l₁, hl₁, hn₁, hv⟩ := entered_rename ρ v l
    obtain ⟨l₂, hl₂, hn₂, hvs⟩ := entered_renameItems ρ rest l₁
    rw [hn₁] at hn₂ hvs
    exact ⟨l₂, hl₁.trans hl₂, hn₂, List.forall_mem_cons.mpr ⟨hv.mono hl₂, hvs⟩⟩

end

namespace Store

variable {l : Ledger} {s : Store}

theorem entered_copyCells (s : Store) (ρ : Nat → Nat) (old : List Nat) (l : Ledger) :
    ∃ l', l <+: l' ∧ l'.length = (s.copyCells ρ l.length old).2 ∧
      ∀ cell ∈ (s.copyCells ρ l.length old).1, ∀ v ∈ cell.slots, v.Entered l' := by
  induction old generalizing l with
  | nil => exact ⟨l, List.prefix_refl l, rfl, fun _ hc => nomatch hc⟩
  | cons id rest ih =>
    cases hc : s.cells[id]? with
    | none =>
      rw [copyCells, hc]
      exact ih l
    | some cell =>
      obtain ⟨l₁, hl₁, hn₁, hslots⟩ := Value.entered_renameItems ρ cell.slots l
      obtain ⟨l₂, hl₂, hn₂, hcells⟩ := ih l₁
      rw [hn₁] at hn₂ hcells
      rw [copyCells_cons hc]
      refine ⟨l₂, hl₁.trans hl₂, hn₂, List.forall_mem_cons.mpr ⟨?_, hcells⟩⟩
      exact fun v hv => (hslots v hv).mono hl₂

theorem slotsAt_copy (s : Store) (v : Value) (id : Nat) {u : Value}
    (hu : u ∈ (s.copy v).2.slotsAt id) :
    u ∈ s.slotsAt id ∨ ∃ cell ∈ s.copied v, u ∈ cell.slots := by
  unfold slotsAt at hu ⊢
  rcases Nat.lt_or_ge id s.cells.size with hid | hid
  · rw [cells_copy_of_lt v hid] at hu
    exact .inl hu
  · obtain ⟨k, rfl⟩ := Nat.exists_eq_add_of_le hid
    rw [cells_copy_add] at hu
    split at hu
    · next cell hc => exact .inr ⟨cell, List.mem_of_getElem? hc, hu⟩
    · cases hu

theorem Entered.copy (h : s.Entered l) (v : Value) :
    ∃ l', l <+: l' ∧ (s.copy v).2.Entered l' ∧ (s.copy v).1.Entered l' := by
  obtain ⟨l₁, hl₁, hn₁, hcells⟩ := s.entered_copyCells (s.copyPlace (s.reach v)) (s.reach v) l
  obtain ⟨l₂, hl₂, hn₂, hv⟩ := Value.entered_rename (s.copyPlace (s.reach v)) v l₁
  rw [hn₁, h.length] at hn₂ hv
  rw [h.length] at hcells
  refine ⟨l₂, hl₁.trans hl₂, ⟨hn₂, fun id u hu => ?_⟩, hv⟩
  rcases s.slotsAt_copy v id hu with hu | ⟨cell, hcell, hu⟩
  · exact (h.slots id u hu).mono (hl₁.trans hl₂)
  · exact (hcells cell hcell u hu).mono hl₂

end Store

namespace Graph

open Model

variable {l : Ledger} {s t : Store} {v leaf root child parent : Value} {step : Step} {depth : Nat}
  {links : List (Step × Value)} {path : Path}

/-! ## Steps -/

theorem entered_follow (hs : s.Entered l) (hv : v.Entered l) (h : follow s v step = .ok child) :
    child.Entered l := by
  obtain ⟨handle, name, rfl, rfl, hget⟩ | ⟨n, element, items, index, rfl, rfl, hget⟩ :=
    follow_eq_ok h
  · exact hs.slots handle.id child (Store.mem_slotsAt_of_get? hget)
  · exact hv.items child (List.mem_of_getElem? hget)

theorem entered_put (hs : s.Entered l) (hp : parent.Entered l) (hc : child.Entered l) (step : Step) :
    let o := model.put parent step child s
    ∃ l', l <+: l' ∧ o.state.Entered l' ∧
      ∀ placement, o.value.2 = .ok placement → (placement.settle parent).Entered l' := by
  have ho := puts s parent step child
  generalize model.put parent step child s = o at ho ⊢
  cases ho with
  | written =>
    refine ⟨l, List.prefix_refl l, hs.write _ _ hc, fun placement hplaced => ?_⟩
    cases hplaced
    exact hp
  | built =>
    obtain ⟨hstate, hmade⟩ := hs.newArray (elementTy _ child) (forall_mem_set hp.items hc)
    refine ⟨_, List.prefix_append .., hstate, fun placement hplaced => ?_⟩
    cases hplaced
    exact hmade
  | widened =>
    obtain ⟨hstate, hmade⟩ := hs.newArray _ (forall_mem_set hp.items hc)
    refine ⟨_, List.prefix_append .., hstate, fun placement hplaced => ?_⟩
    cases hplaced
    exact hmade
  | _ => exact ⟨l, List.prefix_refl l, hs, fun placement hplaced => nomatch hplaced⟩

/-- A world whose client only holds what is in the ledger, and whose store only has that. -/
structure World.Entered (l : Ledger) (w : World) : Prop where
  store : w.store.Entered l
  held : ∀ v ∈ w.held, v.Entered l

theorem World.Entered.next {u : World} {l' : Ledger} {new : List Value} (hu : u.Entered l)
    (hl : l <+: l') (hs : s.Entered l') (hn : ∀ v ∈ new, v.Entered l') :
    (u.next s new).Entered l' := by
  refine ⟨hs, fun v hv => ?_⟩
  rcases List.mem_append.mp hv with hv | hv
  · exact hn v hv
  · exact (hu.held v hv).mono hl

/-- All values that occur in a world are in its ledger. -/
theorem World.Has.entered {w : World} (h : w.Has v) (hw : w.Entered l) : v.Entered l := by
  induction h with
  | held hv => exact hw.held _ hv
  | slot _ hv _ => exact hw.store.slots _ _ hv
  | item _ hv ih => exact ih.items _ hv

/-! ## Runs -/

theorem preserved_entered :
    Preserved (fun l l' : Ledger => l <+: l') Store.Entered Value.Entered where
  refl := List.prefix_refl
  trans := .trans
  mono hl hv := hv.mono hl
  scalar _ _ _ hi := .other hi
  default hs ty := hs.default ty
  create hs type := by
    obtain ⟨l', hl, hmade⟩ := hs.create type
    exact ⟨l', hl, hmade, .other rfl⟩
  makeArray hs hi hm := by
    obtain ⟨rfl, -⟩ := Store.makeArray_eq_ok hm
    exact ⟨_, List.prefix_append .., hs.newArray _ hi⟩
  follow := entered_follow
  put := entered_put
  copy hs _ := hs.copy _
  revert hs _ _ _ := ⟨_, List.prefix_refl _, hs.revert _ _⟩

/-- Whatever a client does adds entries at the end of the ledger. -/
theorem Runs.entered {u w : World} (h : Runs u w) (hu : u.Entered l) :
    ∃ l', l <+: l' ∧ w.Entered l' := by
  obtain ⟨l', hl, hs, hv⟩ := preserved_entered.runs h ⟨hu.store, hu.held⟩
  exact ⟨l', hl, hs, hv⟩

/-- The arrays of a reachable world can be entered in a ledger. -/
theorem Reachable.entered {w : World} (hw : Reachable w) : ∃ l, w.Entered l := by
  have hempty : World.Entered [] ⟨{}, []⟩ :=
    ⟨⟨rfl, fun _ _ hv => nomatch hv⟩, fun _ hv => nomatch hv⟩
  obtain ⟨l, -, h⟩ := Runs.entered hw hempty
  exact ⟨l, h⟩

/-- Arrays of one number have the same elements, also when the ledger has become longer in between. -/
theorem World.Entered.array_eq {u w : World} {l' : Ledger} (hu : u.Entered l) (hl : l <+: l')
    (hw : w.Entered l') {n : Nat} {element element' : Ty} {items items' : List Value}
    (ha : u.Has (.array n element items)) (ha' : w.Has (.array n element' items')) :
    element' = element ∧ items' = items := by
  have hold := ((ha.entered hu).mono hl).getElem?
  have hnew := (ha'.entered hw).getElem?
  exact Prod.mk.inj (Option.some.inj (hnew.symm.trans hold))

/-- An array that was there before a run has the same elements after it. -/
theorem Runs.array_eq {u w : World} (hu : Reachable u) (h : Runs u w) {n : Nat}
    {element element' : Ty} {items items' : List Value} (ha : u.Has (.array n element items))
    (ha' : w.Has (.array n element' items')) : element' = element ∧ items' = items := by
  obtain ⟨l, hl⟩ := hu.entered
  obtain ⟨l', hprefix, hl'⟩ := h.entered hl
  exact hl.array_eq hprefix hl' ha ha'

end Graph

end DeepPath
