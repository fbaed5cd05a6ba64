import DeepPath.Proofs.Graph.Cloning

/-!
# Edits that were taken back

What is left of a graph when a reversible edit has failed in its ascent.

1. The steps of the edit start from objects of the store before it (`wellTyped_of_keeps`), so the ascent
   leaves all copies alone (`cells_of_failed_modify`).
2. Then the root gets the slots of its copy, and mirrors what it was, but for itself: where it can be
   reached from its own slots, there is its copy now (`replaced_of_undo`).
3. So the graph is isomorphic to what it was exactly if the root was not on a cycle, and paths that led
   to the same object do so again, but not to the root (`undone_graph`).
-/

namespace DeepPath.Graph

open Model

variable {s t : Store} {leaf root child parent : Value} {step : Step} {chain : List (Step × Value)}

/-! ## What an ascent leaves alone -/

theorem follow_of_keeps (hk : s.Keeps t) (hp : parent.WellTyped s)
    (hf : follow t parent step = .ok child) : follow s parent step = .ok child := by
  obtain ⟨handle, name, rfl, rfl, hget⟩ | ⟨n, element, items, index, rfl, rfl, hget⟩ :=
    follow_eq_ok hf
  · refine follow_member ?_
    unfold Store.get? at hget ⊢
    rwa [hk.slotsAt hp.typeAt?] at hget
  · exact follow_element hget

/-- Steps that start from what was in the store before go on to what was in it. -/
theorem wellTyped_of_keeps (hs : s.WellTyped) (hk : s.Keeps t) (hl : Linked t leaf chain)
    (hv : (top leaf chain).WellTyped s) : ∀ link ∈ chain, link.2.WellTyped s :=
  (hl.forall (fun _ _ _ hv hf => wellTyped_of_follow hs hv (follow_of_keeps hk hv hf)) hv).2

/-! ## The root and its copy -/

/-- An object of `s` that has in `a` the slots of a new object, which mirrors it. -/
structure Replaced (ρ : Nat → Nat) (s a : Store) (h : Handle) : Prop where
  mirrors : s.Mirrors ρ (.object h) a (.object ⟨ρ h.id, h.type⟩)
  injective : ∀ i j, s.Reaches (.object h) i → s.Reaches (.object h) j → ρ i = ρ j → i = j
  fresh : ∀ i, s.Reaches (.object h) i → s.cells.size ≤ ρ i
  type : a.typeAt? h.id = some h.type
  slots : a.slotsAt h.id = a.slotsAt (ρ h.id)

variable {h : Handle} {path : Path} {change : Value → Action Store Value}

/-- An ascent that has failed in the store with the copies leaves the copies as they were. -/
theorem cells_of_failed_modify (hs : s.WellTyped) (hr : root.WellTyped s)
    (hspares : Spares (s.copy root).2 path root change)
    (hfail : FailsInAscent (model.modify path change root (s.copy root).2)) :
    let o := model.modify path change root (s.copy root).2
    (∀ id cell, s.cells.size ≤ id → (s.copy root).2.cells[id]? = some cell →
      o.state.cells[id]? = some cell) ∧
    ∀ id type, s.typeAt? id = some type → o.state.typeAt? id = some type := by
  obtain ⟨failure, hout, hdir⟩ := hfail
  obtain ⟨trail, htrail, hcarry, hstate⟩ := modify_eq_carry (.error failure) hout
    fun f hf => by rw [← Except.error.inj hf]; exact hdir
  have hkeeps := s.keeps_copy root
  obtain ⟨-, -, -, hlinked⟩ := linked_of_trail htrail
  have hchain := wellTyped_of_keeps hs hkeeps hlinked hr
  have hcall := hspares trail htrail
  obtain ⟨o, failure', root', hasc, -, h⟩ | ⟨o, placement, root', log, -, -, -, h⟩ :=
    carry_cases model path trail (change trail.leaf (s.copy root).2).value root
      (change trail.leaf (s.copy root).2).state
  · dsimp only
    rw [hstate, h]
    constructor
    · intro id cell hid hc
      exact (cells_of_ascends hchain hid hasc).trans (hcall hc)
    · intro id type ht
      exact (typeAt?_of_ascends hasc id).trans ((hkeeps.trans hcall).typeAt? ht)
  · rw [h] at hcarry
    cases hcarry

/-- Where all copies are as they were made, reverting an object to its copy has it replaced by it. -/
theorem replaced_of_revert (hs : s.WellTyped) (hh : (Value.object h).WellTyped s)
    (hcopies : ∀ id cell, s.cells.size ≤ id → (s.copy (.object h)).2.cells[id]? = some cell →
      t.cells[id]? = some cell)
    (htypes : ∀ id type, s.typeAt? id = some type → t.typeAt? id = some type) :
    let ρ := s.copyPlace (s.reach (.object h))
    Replaced ρ s (t.revert h ⟨ρ h.id, h.type⟩) h := by
  intro ρ
  have hfresh (i : Nat) (hi : s.Reaches (.object h) i) := hi.size_le_copyPlace hs hh
  have hself : s.Reaches (.object h) h.id := .place (List.mem_singleton_self _)
  have hin := Store.lt_size_of_typeAt? hh.typeAt?
  have hne : h.id ≠ ρ h.id := Nat.ne_of_lt (Nat.lt_of_lt_of_le hin (hfresh _ hself))
  have ht := htypes _ _ hh.typeAt?
  rw [Store.revert, if_neg hne]
  constructor
  case mirrors =>
    refine Store.mirrors_copy hs hh fun id cell hid hc => ?_
    rw [Store.putSlots, Array.getElem?_modify, if_neg (Nat.ne_of_lt (Nat.lt_of_lt_of_le hin hid))]
    exact hcopies id cell hid hc
  case injective => exact fun i j hi hj => hi.copyPlace_inj hs hh hj
  case fresh => exact hfresh
  case type => rw [Store.typeAt?_putSlots, ht]
  case slots =>
    rw [Store.slotsAt_putSlots_self t _ (Store.lt_size_of_typeAt? ht),
      Store.slotsAt_putSlots_of_ne t _ hne.symm]

/-- A reversible edit that has failed in its ascent keeps the root and gives it the slots of its copy. -/
theorem replaced_of_undo (hs : s.WellTyped) (hh : (Value.object h).WellTyped s)
    (hspares : Spares (s.copy (.object h)).2 path (.object h) change)
    (hfail : FailsInAscent (model.modify path change (.object h) (s.copy (.object h)).2)) :
    let o := modifyOrUndo path change (.object h) s
    o.value.root = .object h ∧
      Replaced (s.copyPlace (s.reach (.object h))) s o.state h := by
  have hroot : (model.modify path change (.object h) (s.copy (.object h)).2).value.root =
      .object h := update_root ..
  obtain ⟨hcopies, htypes⟩ := cells_of_failed_modify hs hh hspares hfail
  rw [modifyOrUndo_of_ascent hfail]
  dsimp only
  rw [hroot, copy_object, takeBack_object]
  exact ⟨rfl, replaced_of_revert hs hh hcopies htypes⟩

/-! ## The graph of the root -/

namespace Replaced

variable {ρ : Nat → Nat} {a : Store} (hr : Replaced ρ s a h)
include hr

/-- A step from the object leads where it leads from the new one. -/
theorem follow_eq (step : Step) :
    follow a (.object h) step = follow a (.object ⟨ρ h.id, h.type⟩) step := by
  cases step with
  | member name =>
    have hget : a.get? h name = a.get? ⟨ρ h.id, h.type⟩ name := by
      unfold Store.get?
      rw [hr.slots]
    rw [follow, follow]
    cases hnew : a.get? ⟨ρ h.id, h.type⟩ name with
    | none =>
      rw [getMember_of_none hnew, getMember_of_none (hget.trans hnew)]
      rfl
    | some child => rw [getMember_of_some hnew, getMember_of_some (hget.trans hnew)]
  | element index => rfl

theorem cell_eq {type : ObjectType} {slots : List Value}
    (hc : a.cells[ρ h.id]? = some ⟨type, slots⟩) (htype : type = h.type) :
    a.cells[h.id]? = some ⟨type, slots⟩ := by
  obtain ⟨⟨type', slots'⟩, hcell, rfl⟩ := Store.typeAt?_eq_some_iff.mp hr.type
  have hslots : slots' = slots := by
    have h := hr.slots
    rwa [Store.slotsAt_eq hcell, Store.slotsAt_eq hc] at h
  rw [hcell, htype, hslots]

variable (hs : s.WellTyped) (hh : (Value.object h).WellTyped s)
include hs hh

/-- Paths that led from the object to some object lead to the new object in its place. -/
theorem arrive {steps : List Step} (hne : steps ≠ []) {g : Handle}
    (ha : arrive? s steps (.object h) = some (.object g)) :
    arrive? a steps (.object h) = some (.object ⟨ρ g.id, g.type⟩) ∧
      s.Reaches (.object h) g.id := by
  refine ⟨?_, .of_arrive ha (.place (List.mem_singleton_self _))⟩
  obtain ⟨x, hx, hmirrors⟩ := hr.mirrors.arrive hs hh ha
  obtain rfl := hmirrors.image.of_object
  cases steps with
  | nil => exact absurd rfl hne
  | cons step rest =>
    rw [arrive?, hr.follow_eq step]
    exact hx

/-- On a cycle, the object meets the new object on its way back to itself. -/
theorem not_isomorphic_of_onCycle (hcycle : s.OnCycle h) (f : Nat → Nat) :
    ¬ s.Isomorphic f (.object h) a (.object h) := by
  intro hiso
  obtain ⟨u, hu, hreach⟩ := hcycle
  have hself : s.Reaches (.object h) h.id := .place (List.mem_singleton_self _)
  have hfid : f h.id = h.id := by
    have himage := Value.object.inj hiso.image.of_object
    exact (congrArg Handle.id himage).symm
  obtain ⟨cell, hc⟩ := hself.exists_cell hs hh
  obtain ⟨slots, ht, himages⟩ := hiso.cells h.id hself cell hc
  have huwell := (hs.slotsAt hh.typeAt?).slots u hu
  obtain ⟨x, hx, himage⟩ := himages.of_mem (Store.slotsAt_eq hc ▸ hu)
  have hmirrors : s.Mirrors f u a x :=
    ⟨himage, fun i hi => hiso.cells i (hself.of_slot hu hi)⟩
  have hback : a.Reaches x h.id := by
    rw [← hfid]
    exact hmirrors.reaches hs huwell hreach
  -- but from the slots of the root only new objects can be reached
  rw [hfid] at ht
  have hslots : a.slotsAt h.id = slots := Store.slotsAt_eq ht
  rw [← hslots, hr.slots] at hx
  have hnew : a.Reaches (.object ⟨ρ h.id, h.type⟩) h.id :=
    .of_slot (.place (List.mem_singleton_self _)) hx hback
  obtain ⟨i, hi, hold⟩ := hr.mirrors.onto hs hh hnew
  have hle := hr.fresh i hi
  rw [hold] at hle
  exact absurd (Store.lt_size_of_typeAt? hh.typeAt?) (Nat.not_lt.mpr hle)

/-- Off all cycles, the graph is as it was, with new objects for all but the object itself. -/
theorem isomorphic_of_not_onCycle (hno : ¬ s.OnCycle h) :
    s.Isomorphic (fun i => if i = h.id then h.id else ρ i) (.object h) a (.object h) := by
  have hself : s.Reaches (.object h) h.id := .place (List.mem_singleton_self _)
  have hne (i : Nat) (hi : s.Reaches (.object h) i) : ρ i ≠ h.id :=
    Nat.ne_of_gt (Nat.lt_of_lt_of_le (Store.lt_size_of_typeAt? hh.typeAt?) (hr.fresh i hi))
  have hmirrors : s.Mirrors (fun i => if i = h.id then h.id else ρ i) (.object h) a
      (.object h) := by
    constructor
    · show Value.object h = .object ⟨if h.id = h.id then h.id else ρ h.id, h.type⟩
      rw [if_pos rfl]
    · intro i hi cell hc
      obtain ⟨slots, ht, himages⟩ := hr.mirrors.cells i hi cell hc
      refine ⟨slots, ?_, himages.congr fun j hj => ?_⟩
      · by_cases hroot : i = h.id
        · subst hroot
          have htype := Store.typeAt?_eq_some_iff.mpr ⟨cell, hc, rfl⟩
          rw [if_pos rfl]
          exact hr.cell_eq ht (Option.some.inj (htype.symm.trans hh.typeAt?))
        · rw [if_neg hroot]
          exact ht
      · -- the slots lead to other objects than the root
        rw [← Store.slotsAt_eq hc] at hj
        exact (if_neg (Store.not_onCycle_of_mem_successors hno hi hj)).symm
  refine ⟨hmirrors, fun i j hi hj heq => ?_, fun j => hmirrors.onto hs hh⟩
  by_cases hi' : i = h.id
  · by_cases hj' : j = h.id
    · rw [hi', hj']
    · rw [if_pos hi', if_neg hj'] at heq
      exact absurd heq.symm (hne j hj)
  · by_cases hj' : j = h.id
    · rw [if_neg hi', if_pos hj'] at heq
      exact absurd heq (hne i hi)
    · rw [if_neg hi', if_neg hj'] at heq
      exact hr.injective i j hi hj heq

end Replaced

/-- What is left of a graph when a reversible edit of a root object has failed in its ascent.  The root
is kept.  The graph is isomorphic to what it was, root to root, exactly if the root was not on a cycle.
Paths that led to objects lead to new objects of the same types, two of them to the same object
exactly if they did before; so a path that led back to the root leads to another object now. -/
theorem undone_graph {w : World} (hw : Reachable w) (hh : w.Has (.object h))
    (hspares : Spares (w.store.copy (.object h)).2 path (.object h) change)
    (hfail : FailsInAscent (modifyOrUndo path change (.object h) w.store)) :
    let o := modifyOrUndo path change (.object h) w.store
    o.value.root = .object h ∧
    ((∃ f, w.store.Isomorphic f (.object h) o.state (.object h)) ↔ ¬ w.store.OnCycle h) ∧
    (∀ q₁ q₂ g₁ g₂, (model.read q₁ (.object h) w.store).value = .ok (.object g₁) →
      (model.read q₂ (.object h) w.store).value = .ok (.object g₂) →
      ∃ k₁ k₂, (model.read q₁ (.object h) o.state).value = .ok (.object k₁) ∧
        (model.read q₂ (.object h) o.state).value = .ok (.object k₂) ∧
        k₁.type = g₁.type ∧ k₂.type = g₂.type ∧ (k₁.id = k₂.id ↔ g₁.id = g₂.id)) ∧
    ∀ q g, (model.read q (.object h) w.store).value = .ok (.object g) →
      ∃ k, (model.read q (.object h) o.state).value = .ok (.object k) ∧
        w.store.cells.size ≤ k.id ∧ k.id ≠ h.id := by
  have hwell := hw.wellTyped
  have hhwell := hh.wellTyped hwell
  have hundo := replaced_of_undo hwell.store hhwell hspares (failsInAscent_of_modifyOrUndo hfail)
  generalize modifyOrUndo path change (.object h) w.store = o at hundo ⊢
  obtain ⟨hroot, hr⟩ := hundo
  have hread (q : Path) (g : Handle)
      (hq : (model.read q (.object h) w.store).value = .ok (.object g)) :
      (model.read q (.object h) o.state).value =
          .ok (.object ⟨w.store.copyPlace (w.store.reach (.object h)) g.id, g.type⟩) ∧
        w.store.Reaches (.object h) g.id := by
    have ha := ((read_spec w.store q (.object h)).2 _).mp hq
    obtain ⟨hafter, hreach⟩ := hr.arrive hwell.store hhwell q.steps_ne_nil ha
    exact ⟨((read_spec o.state q (.object h)).2 _).mpr hafter, hreach⟩
  refine ⟨hroot, ⟨?_, ?_⟩, ?_, ?_⟩
  · rintro ⟨f, hf⟩ hcycle
    exact hr.not_isomorphic_of_onCycle hwell.store hhwell hcycle f hf
  · intro hno
    exact ⟨_, hr.isomorphic_of_not_onCycle hwell.store hhwell hno⟩
  · intro q₁ q₂ g₁ g₂ h₁ h₂
    obtain ⟨hk₁, hreach₁⟩ := hread q₁ g₁ h₁
    obtain ⟨hk₂, hreach₂⟩ := hread q₂ g₂ h₂
    refine ⟨_, _, hk₁, hk₂, rfl, rfl, hr.injective _ _ hreach₁ hreach₂, fun heq => ?_⟩
    dsimp only
    rw [heq]
  · intro q g hq
    obtain ⟨hk, hreach⟩ := hread q g hq
    have hnew := hr.fresh g.id hreach
    refine ⟨_, hk, hnew, Nat.ne_of_gt (Nat.lt_of_lt_of_le ?_ hnew)⟩
    exact Store.lt_size_of_typeAt? hhwell.typeAt?

/-! ## Undone edits on a cycle and off all cycles -/

theorem failsInAscent_in_loop :
    FailsInAscent (model.modify ⟨.member "value", []⟩ (fun _ => pure (.str "many"))
      (.object ⟨0, node⟩) (loop.store.copy (.object ⟨0, node⟩)).2) := by
  rw [store_copy_loop]
  exact ⟨_, rfl, rfl⟩

theorem onCycle_in_loop : loop.store.OnCycle ⟨0, node⟩ :=
  ⟨.object ⟨0, node⟩, List.mem_cons_of_mem _ List.mem_cons_self, .place List.mem_cons_self⟩

/-- The cats of a shelter where a stray is two of them. -/
def strays : Value :=
  .array 2 (.ofObjects cat) [.object ⟨0, stray⟩, .object ⟨0, stray⟩]

/-- This shelter. -/
def crowded : World where
  store := ⟨#[⟨stray, [.str ""]⟩, ⟨shelter, [strays]⟩], 3⟩
  held := strays :: sheltered.held

theorem reachable_crowded : Reachable crowded := by
  refine reachable_sheltered.trans (.trans
    (@Runs.makeArray _ (.ofObjects cat) [.object ⟨0, stray⟩, .object ⟨0, stray⟩] _ ?_ rfl)
    (.write (h := ⟨1, shelter⟩) (v := strays) "animals" ?_ List.mem_cons_self))
  · intro v hv
    have hstray : v = .object ⟨0, stray⟩ := by simpa using hv
    rw [hstray]
    exact List.mem_cons_of_mem _ (List.mem_cons_of_mem _ List.mem_cons_self)
  · exact List.mem_cons_of_mem _ (List.mem_cons_of_mem _ List.mem_cons_self)

theorem reach_crowded : crowded.store.reach (.object ⟨1, shelter⟩) = [1, 0] := by
  show crowded.store.closure [1] = [1, 0]
  rw [Store.closure, if_neg (show ¬ crowded.store.frontier [1] = [] from List.cons_ne_nil 0 []),
    Store.closure]
  exact if_pos rfl

/-- From the stray nothing else can be reached, and so not the shelter. -/
theorem not_onCycle_in_crowd : ¬ crowded.store.OnCycle ⟨1, shelter⟩ := by
  rintro ⟨u, hu, hreach⟩
  obtain rfl : u = strays := List.mem_singleton.mp hu
  have hwell := reachable_crowded.wellTyped
  have hmem := hreach.mem_reach hwell.store (hwell.held _ List.mem_cons_self)
  have hstrays : crowded.store.reach strays = [0] := by
    show crowded.store.closure [0] = [0]
    rw [Store.closure, if_pos (show crowded.store.frontier [0] = [] from rfl)]
  rw [hstrays] at hmem
  cases List.mem_singleton.mp hmem

/-- The shelter and its stray, and a copy of each. -/
def crowdAndCopy : Store :=
  ⟨#[⟨stray, [.str ""]⟩, ⟨shelter, [strays]⟩,
    ⟨shelter, [.array 3 (.ofObjects cat) [.object ⟨3, stray⟩, .object ⟨3, stray⟩]]⟩,
    ⟨stray, [.str ""]⟩], 4⟩

theorem store_copy_crowded :
    crowded.store.copy (.object ⟨1, shelter⟩) = (.object ⟨2, shelter⟩, crowdAndCopy) := by
  unfold Store.copy
  rw [reach_crowded]
  rfl

theorem failsInAscent_in_crowd :
    FailsInAscent (model.modify ⟨.member "animals", [.element 0, .member "name"]⟩
      (fun _ => pure (.str "Tom")) (.object ⟨1, shelter⟩)
      (crowded.store.copy (.object ⟨1, shelter⟩)).2) := by
  rw [store_copy_crowded]
  exact ⟨_, rfl, rfl⟩

/-- The stray has its name before the array with it turns out not to be for the shelter. -/
theorem named_in_crowd :
    (modifyOrUndo ⟨.member "animals", [.element 0, .member "name"]⟩ (fun _ => pure (.str "Tom"))
      (.object ⟨1, shelter⟩) crowded.store).state.get? ⟨0, stray⟩ "name" = some (.str "Tom") := by
  rw [modifyOrUndo_of_ascent failsInAscent_in_crowd, store_copy_crowded]
  rfl

/-- A shelter that is on no cycle gets its graph back, though the failed edit has given its stray a name:
both elements of its array lead to one new stray.  A node that is linked to itself does not. -/
theorem undone_off_and_on_cycle :
    (let root : Value := .object ⟨1, shelter⟩
      let first : Path := ⟨.member "animals", [.element 0]⟩
      let second : Path := ⟨.member "animals", [.element 1]⟩
      let o := modifyOrUndo (first ++ ⟨.member "name", []⟩) (fun _ => pure (.str "Tom")) root
        crowded.store
      FailsInAscent o ∧ o.value.root = root ∧ o.state.get? ⟨0, stray⟩ "name" = some (.str "Tom") ∧
        (∃ f, crowded.store.Isomorphic f root o.state root) ∧
        ∃ k, (model.read first root o.state).value = .ok (.object k) ∧
          (model.read second root o.state).value = .ok (.object k) ∧ k.type = stray ∧ 2 ≤ k.id) ∧
    (let root : Value := .object ⟨0, node⟩
      let o := modifyOrUndo ⟨.member "value", []⟩ (fun _ => pure (.str "many")) root loop.store
      FailsInAscent o ∧ loop.store.OnCycle ⟨0, node⟩ ∧
        ¬ ∃ f, loop.store.Isomorphic f root o.state root) := by
  constructor
  · intro root first second o
    have hroot : crowded.Has root := .held (by simp [crowded, sheltered, root])
    have hfail : FailsInAscent o := failsInAscent_in_crowd.modifyOrUndo
    obtain ⟨hsame, hiso, hpaths, hnew⟩ :=
      undone_graph reachable_crowded hroot (fun _ _ => .refl _) hfail
    have hfirst : (model.read first root crowded.store).value = .ok (.object ⟨0, stray⟩) := rfl
    have hsecond : (model.read second root crowded.store).value = .ok (.object ⟨0, stray⟩) := rfl
    obtain ⟨⟨id, type⟩, ⟨id', type'⟩, hread, hread', htype, htype', hid⟩ :=
      hpaths first second _ _ hfirst hsecond
    obtain rfl : id = id' := hid.mpr rfl
    obtain rfl : type = type' := htype.trans htype'.symm
    obtain ⟨k, hk, hfresh, -⟩ := hnew first _ hfirst
    cases hread.symm.trans hk
    exact ⟨hfail, hsame, named_in_crowd, hiso.mpr not_onCycle_in_crowd, _, hread, hread', htype,
      hfresh⟩
  · intro root o
    have hroot : loop.Has root := .held (List.mem_cons_of_mem _ List.mem_cons_self)
    have hfail : FailsInAscent o := failsInAscent_in_loop.modifyOrUndo
    obtain ⟨-, hiso, -⟩ := undone_graph reachable_loop hroot (fun _ _ => .refl _) hfail
    exact ⟨hfail, onCycle_in_loop, fun h => hiso.mp h onCycle_in_loop⟩

/-- A path that leads back to the root, and to its copy when an edit of the root has been undone. -/
theorem root_lost_in_loop :
    let root : Value := .object ⟨0, node⟩
    let next : Path := ⟨.member "next", []⟩
    let o := modifyOrUndo ⟨.member "value", []⟩ (fun _ => pure (.str "many")) root loop.store
    Reachable loop ∧ root ∈ loop.held ∧
      o.value.outcome =
        .error (.failed ⟨.wrongType "int" "str", .member "value", 0, .ascent⟩) ∧
      o.value.root = root ∧ (model.read next root loop.store).value = .ok root ∧
      (model.read next root o.state).value = .ok (.object ⟨2, node⟩) ∧
      (model.read next root o.state).value ≠ .ok root := by
  intro root next o
  have ho : o = _ := modifyOrUndo_of_ascent failsInAscent_in_loop
  rw [store_copy_loop] at ho
  have hstate : o.state = ⟨#[⟨node, [.int 0, .object ⟨2, node⟩]⟩, ⟨node, [.int 0, .null]⟩,
      ⟨node, [.int 0, .object ⟨2, node⟩]⟩], 0⟩ := by
    rw [ho]
    rfl
  have hafter : (model.read next root o.state).value = .ok (.object ⟨2, node⟩) := by
    rw [hstate]
    rfl
  refine ⟨reachable_loop, List.mem_cons_of_mem _ List.mem_cons_self, ?_, ?_, rfl, hafter, ?_⟩
  · rw [ho]
    rfl
  · rw [ho]
    rfl
  · intro h
    cases (Except.ok.inj (hafter.symm.trans h) : Value.object ⟨2, node⟩ = .object ⟨0, node⟩)

end DeepPath.Graph
