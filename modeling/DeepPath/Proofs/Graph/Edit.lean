import DeepPath.Proofs.Graph.Copying
import DeepPath.Proofs.Graph.Making
import DeepPath.Proofs.Graph.Preserved

/-!
# Edits over a store

A step up leaves everything alone but one slot of one object (`cells_put`, `typeAt?_put`), so an ascent
leaves alone what its steps do not start from.  It gives no warning (`ascends_quiet`).  Every operation keeps
the store well-typed and makes well-typed values (`preserved_wellTyped`), so an ascent does
(`wellTyped_of_ascends`), and an edit as far as its callback does (`wellTyped_of_update`).  An edit is no more
than its callback and its ascent (`update_eq_carry`).
-/

namespace DeepPath.Graph

open Model

variable {s t : Store} {v leaf root child parent : Value} {depth : Nat} {step : Step}

/-! ## Steps up -/

/-- A step up that fails leaves the store alone. -/
theorem put_of_error {fault : Fault}
    (h : (model.put parent step child s).value.2 = .error fault) :
    (model.put parent step child s).state = s := by
  have hp := puts s parent step child
  generalize model.put parent step child s = o at h hp ⊢
  cases hp with
  | written => cases h
  | built => cases h
  | widened => cases h
  | _ => rfl

theorem put_quiet (s : Store) (parent : Value) (step : Step) (child : Value) :
    ∀ e ∈ (model.put parent step child s).log, e.level ≠ .warn := by
  have h := puts s parent step child
  generalize model.put parent step child s = o at h
  intro e he
  cases h with
  | widened =>
    rw [List.mem_singleton.mp he]
    exact nofun
  | _ => cases he

theorem typeAt?_put (t : Store) (parent : Value) (step : Step) (child : Value) (id : Nat) :
    (model.put parent step child t).state.typeAt? id = t.typeAt? id := by
  have ho := puts t parent step child
  generalize model.put parent step child t = o at ho
  cases ho with
  | written => exact Store.typeAt?_putSlots ..
  | _ => rfl

/-- A step up from a value of `s` leaves all objects alone that are not in `s`. -/
theorem cells_put (hp : parent.WellTyped s) {id : Nat} (hid : s.cells.size ≤ id) (step : Step)
    (child : Value) (t : Store) :
    (model.put parent step child t).state.cells[id]? = t.cells[id]? := by
  have ho := puts t parent step child
  generalize model.put parent step child t = o at ho
  cases ho with
  | @written h _ slot _ =>
    have hlt := Store.lt_size_of_typeAt? hp.typeAt?
    show (t.cells.modify h.id _)[id]? = _
    rw [Array.getElem?_modify, if_neg (Nat.ne_of_lt (Nat.lt_of_lt_of_le hlt hid))]
  | _ => rfl

theorem wellTyped_of_puts {o : Outcome Store (Value × Except Fault (Placement Value))}
    (ho : Puts s child parent step o) (hs : s.WellTyped) (hc : child.WellTyped s)
    (hp : parent.WellTyped s) :
    o.state.WellTyped ∧ s.Grows o.state ∧
      ∀ placement, o.value.2 = .ok placement → (placement.settle o.value.1).WellTyped o.state := by
  cases ho with
  | @written h name slot hcheck =>
    have g := s.grows_putSlots h.id ((s.slotsAt h.id).set slot child)
    refine ⟨hs.write hp.typeAt? hc hcheck, g, fun placement hpl => ?_⟩
    cases hpl
    exact hp.mono g
  | @built _ element items index hlt hall =>
    refine ⟨hs.newArray (elementTy element child) (items.set index.toNat child),
      s.grows_newArray (elementTy element child) (items.set index.toNat child),
      fun placement hpl => ?_⟩
    cases hpl
    exact .newArray hall (forall_mem_set hp.items hc)
  | @widened _ element items index hlt hwide =>
    refine ⟨hs.newArray element (items.set index.toNat child),
      s.grows_newArray element (items.set index.toNat child), fun placement hpl => ?_⟩
    cases hpl
    exact .newArray (forall_mem_set hp.admits hwide) (forall_mem_set hp.items hc)
  | _ => exact ⟨hs, .refl s, fun placement hpl => nomatch hpl⟩

theorem preserved_wellTyped :
    Preserved Store.Grows (fun t s => s = t ∧ s.WellTyped) (fun t v => v.WellTyped t) where
  refl := .refl
  trans := .trans
  mono g hv := hv.mono g
  scalar t v hh hi := by
    cases v with
    | null => exact .null
    | bool b => exact .bool b
    | int n => exact .int n
    | float x => exact .float x
    | str text => exact .str text
    | object => cases hh
    | array => cases hi
  default := by
    rintro _ s ⟨rfl, hs⟩ ty
    exact ⟨_, s.grows_default ty, ⟨rfl, hs.default ty⟩, s.wellTyped_default ty⟩
  create := by
    rintro _ s ⟨rfl, hs⟩ type
    exact ⟨_, s.grows_create type, ⟨rfl, hs.create type⟩, .object (s.typeAt?_create type)⟩
  makeArray := by
    rintro _ s element items made ⟨rfl, hs⟩ hi hm
    obtain ⟨hw, g, hv⟩ := hs.makeArray hm hi
    exact ⟨_, g, ⟨rfl, hw⟩, hv⟩
  follow := by
    rintro _ s v child step ⟨rfl, hs⟩ hv h
    exact wellTyped_of_follow hs hv h
  put := by
    rintro _ s parent child ⟨rfl, hs⟩ hp hc step
    obtain ⟨hw, g, hv⟩ := wellTyped_of_puts (puts s parent step child) hs hc hp
    rw [put_root] at hv
    exact ⟨_, g, ⟨rfl, hw⟩, hv⟩
  copy := by
    rintro _ s v ⟨rfl, hs⟩ hv
    obtain ⟨hw, hcopy⟩ := hs.copy hv
    exact ⟨_, s.grows_copy v, ⟨rfl, hw⟩, hcopy⟩
  revert := by
    rintro _ s live saved ⟨rfl, hs⟩ hl hv ht
    exact ⟨_, s.grows_revert live saved, rfl, hs.revert hl.typeAt? hv.typeAt? ht⟩

/-! ## Ascents -/

section

variable {links : List (Step × Value)} {o : Outcome Store (Climb Value)}

theorem typeAt?_of_ascends (ho : model.Ascends v t depth links o) (id : Nat) :
    o.state.typeAt? id = t.typeAt? id := by
  refine ho.preserves (R := fun t u => u.typeAt? id = t.typeAt? id) (fun _ => rfl) ?_ ?_
  · exact fun h h' => h'.trans h
  · exact fun link _ child u => typeAt?_put u link.2 link.1 child id

/-- An ascent from values of `s` leaves all objects alone that are not in `s`. -/
theorem cells_of_ascends (hc : ∀ link ∈ links, link.2.WellTyped s) {id : Nat}
    (hid : s.cells.size ≤ id) (ho : model.Ascends v t depth links o) :
    o.state.cells[id]? = t.cells[id]? := by
  refine ho.preserves (R := fun t u => u.cells[id]? = t.cells[id]?) (fun _ => rfl) ?_ ?_
  · exact fun h h' => h'.trans h
  · exact fun link hlink child u => cells_put (hc link hlink) hid _ child u

/-- An ascent gives no warning. -/
theorem ascends_quiet (ho : model.Ascends leaf s depth links o) :
    ∀ e ∈ o.log, e.level ≠ .warn := by
  induction ho with
  | start => exact fun _ he => nomatch he
  | stopped _ _ ih => exact ih
  | fails _ _ _ ih =>
    intro e he
    rcases List.mem_append.mp he with he | he
    · exact ih e he
    · exact put_quiet _ _ _ _ e he
  | climbs _ _ _ ih =>
    intro e he
    rcases List.mem_append.mp he with he | he
    · exact ih e he
    · rcases List.mem_append.mp he with he | he
      · exact put_quiet _ _ _ _ e he
      · rw [List.mem_singleton.mp he]
        exact nofun

theorem wellTyped_of_ascends (ho : model.Ascends leaf s depth links o) (hs : s.WellTyped)
    (hl : leaf.WellTyped s) (hc : ∀ link ∈ links, link.2.WellTyped s) :
    o.state.WellTyped ∧ s.Grows o.state ∧ ∀ v, o.value.result = .ok v → v.WellTyped o.state := by
  obtain ⟨_, g, ⟨rfl, hw⟩, hv⟩ := preserved_wellTyped.ascends ho ⟨rfl, hs⟩ hl hc
  exact ⟨hw, g, hv⟩

end

/-! ## Edits -/

/-- An edit that was not given up before its ascent: what its ascent came to. -/
theorem update_eq_carry {ε : Type} {path : Path} {change : Value → Action Store (Except ε Value)}
    (result : Except Failure (Placement Value))
    (h : (model.update path change root s).value.outcome = result.mapError .failed)
    (hr : ∀ failure, result = .error failure → failure.direction = .ascent) :
    ∃ trail leaf, (model.trail path root s).value = .ok trail ∧
      (change trail.leaf s).value = .ok leaf ∧
      (model.carry path trail leaf root (change trail.leaf s).state).value.2 = result ∧
      (model.update path change root s).state =
        (model.carry path trail leaf root (change trail.leaf s).state).state := by
  have hu := updates model path change root s
  generalize model.update path change root s = o at h hu ⊢
  have hstate := trail_state s path root
  cases hu with
  | lost ht =>
    cases result with
    | ok placement => cases h
    | error failure =>
      cases h
      have hdown := trail_failure ht
      rw [hr _ rfl] at hdown
      cases hdown
  | declined =>
    cases result with
    | ok placement => cases h
    | error failure => cases h
  | @carried trail t found leaf o ht hc ho =>
    rw [ht] at hstate
    obtain rfl : t = s := hstate
    subst ho
    refine ⟨trail, leaf, by rw [ht], hc, ?_, rfl⟩
    dsimp only at h
    cases hres : (model.carry path trail leaf root (change trail.leaf t).state).value.2 with
    | ok placement =>
      rw [hres] at h
      cases result with
      | ok placement' => exact congrArg Except.ok (Except.ok.inj h)
      | error failure => cases h
    | error failure =>
      rw [hres] at h
      cases result with
      | ok placement' => cases h
      | error failure' => exact congrArg Except.error (Refusal.failed.inj (Except.error.inj h))

theorem modify_eq_carry {path : Path} {change : Value → Action Store Value}
    (result : Except Failure (Placement Value))
    (h : (model.modify path change root s).value.outcome = result.mapError .failed)
    (hr : ∀ failure, result = .error failure → failure.direction = .ascent) :
    ∃ trail, (model.trail path root s).value = .ok trail ∧
      (model.carry path trail (change trail.leaf s).value root
        (change trail.leaf s).state).value.2 = result ∧
      (model.modify path change root s).state =
        (model.carry path trail (change trail.leaf s).value root
          (change trail.leaf s).state).state := by
  obtain ⟨trail, leaf, htrail, hc, hcarry, hstate⟩ := update_eq_carry result h hr
  cases hc
  exact ⟨trail, htrail, hcarry, hstate⟩

/-- An edit whose path leads to a leaf is its callback and its ascent. -/
theorem modify_of_trail {path : Path} (change : Value → Action Store Value) {trail : Trail Value}
    (ht : (model.trail path root s).value = .ok trail) :
    let called := change trail.leaf s
    let carried := model.carry path trail called.value root called.state
    (model.modify path change root s).value =
        ⟨root, some trail.leaf, carried.value.2.mapError .failed⟩ ∧
      (model.modify path change root s).state = carried.state := by
  have hu := updates model path (fun leaf => do return Except.ok (ε := Empty) (← change leaf)) root s
  have hstate := trail_state s path root
  unfold Model.modify
  generalize model.update path _ root s = o at hu ⊢
  cases hu with
  | lost hlost => cases ht.symm.trans hlost
  | declined _ hc => cases hc
  | @carried trail' t found leaf o ht' hc ho =>
    rw [ht'] at ht hstate
    cases ht
    cases hstate
    cases hc
    subst ho
    refine ⟨?_, rfl⟩
    rw [carry_root]
    rfl

/-- A successful edit is a successful ascent of the whole path. -/
theorem ascends_of_modify {path : Path} {change : Value → Action Store Value} {trail : Trail Value}
    {placement : Placement Value} (ht : (model.trail path root s).value = .ok trail)
    (hok : (model.modify path change root s).value.outcome = .ok placement) :
    let called := change trail.leaf s
    let done := model.modify path change root s
    done.value.stored = placement.settle root ∧
      ∃ o, model.Ascends called.value called.state 0 (chain path trail root) o ∧
        o.value.result = .ok (placement.settle root) ∧ o.state = done.state := by
  intro called done
  obtain ⟨hvalue, hstate⟩ := modify_of_trail change ht
  have hroot := carry_root path trail called.value root called.state
  have hsame : done.value.root = root := update_root ..
  have hstored : done.value.stored = placement.settle root := by
    unfold Revision.stored
    rw [hok, hsame]
  rw [hvalue] at hok
  refine ⟨hstored, ?_⟩
  obtain ⟨o, failure, root', -, -, h⟩ | ⟨o, placement', root', log, ho, hres, -, h⟩ :=
    carry_cases model path trail called.value root called.state
  · rw [h] at hok
    cases hok
  · rw [h] at hok hroot hstate
    cases hok
    obtain rfl : root' = root := hroot
    exact ⟨o, ho, hres, hstate.symm⟩

/-- An edit keeps a store well-typed if its callback does. -/
theorem wellTyped_of_update {ε : Type} (path : Path)
    (change : Value → Action Store (Except ε Value)) (hs : s.WellTyped) (hr : root.WellTyped s)
    (hc : ∀ trail, (model.trail path root s).value = .ok trail →
      (change trail.leaf s).state.WellTyped ∧ s.Grows (change trail.leaf s).state ∧
        ∀ leaf, (change trail.leaf s).value = .ok leaf →
          leaf.WellTyped (change trail.leaf s).state) :
    let o := model.update path change root s
    o.state.WellTyped ∧ s.Grows o.state ∧
      (∀ trail, (model.trail path root s).value = .ok trail →
        (change trail.leaf s).state.Grows o.state) ∧
      o.value.root.WellTyped o.state ∧ o.value.stored.WellTyped o.state := by
  intro o
  cases ht : (model.trail path root s).value with
  | error failure =>
    obtain ⟨hvalue, hstate⟩ := update_of_lost change ht
    have hvalue : o.value = _ := hvalue
    have hstate : o.state = s := hstate
    rw [hvalue, hstate]
    exact ⟨hs, .refl s, (fun _ h => nomatch h), hr, hr⟩
  | ok trail =>
    obtain ⟨hw, g, hleaf⟩ := hc trail ht
    obtain ⟨_, g', ⟨rfl, hw'⟩, hroot, hstored⟩ :=
      preserved_wellTyped.update ⟨rfl, hs⟩ hr ht g ⟨rfl, hw⟩ hleaf
    refine ⟨hw', g.trans g', fun trail' h => ?_, hroot, hstored⟩
    cases h
    exact g'

end DeepPath.Graph
