import DeepPath.Proofs.Graph.Ledger
import DeepPath.Proofs.Graph.LostWrites
import DeepPath.Proofs.Model.Effect

/-!
# What an edit changes

`edit_footprint`: all that a successful edit changes and makes, if its callback writes to no object.

1. An ascent changes the slots that its members address, and no others (`changesOnly_of_ascends`); what
   it puts there and which arrays it makes is known (`CarriedUp`).
2. The arrays that there were are as they were: what was there before and what is there afterwards can
   be entered in one ledger (`entered_of_edit`).
-/

namespace DeepPath

/-- Every object of `s` is in `t`, with the same type and as many slots, and the slots that differ are
among those of `F`. -/
def Store.ChangesOnly (F : Nat → Nat → Prop) (s t : Store) : Prop :=
  ∀ ⦃id : Nat⦄ ⦃cell : Cell⦄, s.cells[id]? = some cell → ∃ cell', t.cells[id]? = some cell' ∧
    cell'.type = cell.type ∧ cell'.slots.length = cell.slots.length ∧
    ∀ slot : Nat, cell'.slots[slot]? ≠ cell.slots[slot]? → F id slot

namespace Store

variable {F : Nat → Nat → Prop} {s t u : Store}

theorem Keeps.changesOnly (h : s.Keeps t) : s.ChangesOnly F t :=
  fun _ cell hc => ⟨cell, h hc, rfl, rfl, fun _ hne => absurd rfl hne⟩

protected theorem ChangesOnly.trans (h : s.ChangesOnly F t) (h' : t.ChangesOnly F u) :
    s.ChangesOnly F u := by
  intro id cell hc
  obtain ⟨cell₁, hc₁, htype₁, hlen₁, hF₁⟩ := h hc
  obtain ⟨cell₂, hc₂, htype₂, hlen₂, hF₂⟩ := h' hc₁
  refine ⟨cell₂, hc₂, htype₂.trans htype₁, hlen₂.trans hlen₁, fun slot hne => ?_⟩
  by_cases hsame : cell₂.slots[slot]? = cell₁.slots[slot]?
  · exact hF₁ slot (hsame ▸ hne)
  · exact hF₂ slot hsame

theorem changesOnly_write (s : Store) {id slot : Nat} (v : Value) (hF : F id slot) :
    s.ChangesOnly F (s.write id slot v) := by
  intro other cell hc
  unfold write putSlots
  by_cases hid : id = other
  · subst hid
    refine ⟨{ cell with slots := cell.slots.set slot v }, ?_, rfl, List.length_set, ?_⟩
    · rw [Array.getElem?_modify, if_pos rfl, hc, slotsAt_eq hc]
      rfl
    · intro slot' hne
      by_cases hslot : slot = slot'
      · exact hslot ▸ hF
      · exact absurd (List.getElem?_set_ne hslot) hne
  · refine ⟨cell, ?_, rfl, rfl, fun _ hne => absurd rfl hne⟩
    rw [Array.getElem?_modify, if_neg hid, hc]

end Store

namespace Graph

open Model

variable {s t : Store} {v root parent : Value} {step : Step} {depth : Nat}
  {links : List (Step × Value)} {F : Nat → Nat → Prop}

/-! ## Slots -/

/-- A slot of an object that the member of a step addresses. -/
def Addresses (link : Step × Value) (id slot : Nat) : Prop :=
  ∃ name h m, link = (.member name, .object h) ∧ h.id = id ∧ h.type.find? name = some (slot, m)

theorem changesOnly_put (hF : ∀ id slot, Addresses (step, parent) id slot → F id slot)
    (child : Value) (s : Store) : s.ChangesOnly F (model.put parent step child s).state := by
  have ho := puts s parent step child
  generalize model.put parent step child s = o at ho ⊢
  cases ho with
  | @written h name slot hc =>
    obtain ⟨m, hfind, -⟩ := Handle.check_eq_ok.mp hc
    exact s.changesOnly_write child (hF h.id slot ⟨name, h, m, rfl, rfl, hfind⟩)
  | _ => exact (Store.Keeps.refl s).changesOnly

/-- An ascent changes the slots that its members address, and no others. -/
theorem changesOnly_of_ascends {o : Outcome Store (Climb Value)}
    (hF : ∀ link ∈ links, ∀ id slot, Addresses link id slot → F id slot)
    (ho : model.Ascends v t depth links o) : t.ChangesOnly F o.state :=
  ho.preserves (fun t => (Store.Keeps.refl t).changesOnly) Store.ChangesOnly.trans
    fun link hlink child u => changesOnly_put (hF link hlink) child u

/-! ## Edits -/

/-- The outcome of a successful edit is in the root if the first step leads to a member, and otherwise
it is the array that was built in place of the root. -/
theorem placement_of_modify {path : Path} {change : Value → Action Store Value} {trail : Trail Value}
    {placement : Placement Value} (ht : (model.trail path root s).value = .ok trail)
    (hok : (model.modify path change root s).value.outcome = .ok placement) :
    placement = if path.first.isMember then .written
      else .built (model.modify path change root s).value.stored := by
  obtain ⟨hvalue, -⟩ := modify_of_trail change ht
  obtain ⟨hstored, -⟩ := ascends_of_modify ht hok
  rw [hstored]
  rw [hvalue] at hok
  cases hcarry : (model.carry path trail (change trail.leaf s).value root
      (change trail.leaf s).state).value.2 with
  | error failure =>
    rw [hcarry] at hok
    cases hok
  | ok placement' =>
    rw [hcarry] at hok
    cases hok
    rw [← isWritten_of_carry hcarry]
    cases placement <;> rfl

/-- What was in a world before an edit and what is there afterwards can be entered in one ledger, as the
callback is a run of the client. -/
theorem entered_of_edit {w : World} (hw : Reachable w) (hroot : w.Has root) {path : Path}
    {change : Value → Action Store Value} (hrun : IsRun w path root change) {trail : Trail Value}
    (htrail : (model.trail path root w.store).value = .ok trail) :
    let done := model.modify path change root w.store
    ∃ l l', w.Entered l ∧ l <+: l' ∧ (w.next done.state (results done.value)).Entered l' := by
  intro done
  obtain ⟨held, hruns, hheld⟩ := hrun trail htrail
  obtain ⟨l, hl⟩ := hw.entered
  have hr := hroot.entered hl
  obtain ⟨hleaf, -⟩ := preserved_entered.trail hl.store hr htrail
  obtain ⟨l₁, hl₁, hcalled⟩ := hruns.entered
    (hl.next (List.prefix_refl l) hl.store (List.forall_mem_singleton.mpr hleaf))
  obtain ⟨l', hl', hs, hroot', hstored⟩ :=
    preserved_entered.modify hl.store hr htrail hl₁ hcalled.store (hcalled.held _ hheld)
  have hprefix := hl₁.trans hl'
  exact ⟨l, l', hl, hprefix, hl.next hprefix hs (forall_mem_results hroot' hstored)⟩

/-- What an edit changes in a world, and what it makes: `links` are the steps of its path with the values
that they start from, and `called` is what its callback came to. -/
structure Footprint (w : World) (links : List (Step × Value)) (called : Outcome Store Value)
    (done : Outcome Store (Revision Value Empty)) : Prop where
  /-- Of the objects that there were only such slots have changed as members of the path address. -/
  slots : w.store.ChangesOnly (fun id slot => ∃ link ∈ links, Addresses link id slot) done.state
  /-- The arrays that there were have the elements that they had. -/
  arrays : ∀ n element items element' items', w.Has (.array n element items) →
    (w.next done.state (results done.value)).Has (.array n element' items') →
    element' = element ∧ items' = items
  /-- The arrays that there were are older than those that the steps make. -/
  older : ∀ n element items, w.Has (.array n element items) → n < called.state.nextArray
  /-- What the steps hand up comes to the value that is to be stored. -/
  carried : ∃ handed, handed 0 = done.value.stored ∧
    CarriedUp called.state called.value links handed done.state

/-- All that a successful edit does whose callback writes to no object.  Its outcome is in the root if
the first step leads to a member, and otherwise it is the array that was made for the root. -/
theorem edit_footprint {w : World} (hw : Reachable w) (hroot : w.Has root) {path : Path}
    {change : Value → Action Store Value} (hrun : IsRun w path root change)
    (hspares : Spares w.store path root change) {trail : Trail Value}
    (htrail : (model.trail path root w.store).value = .ok trail) {placement : Placement Value}
    (hok : (model.modify path change root w.store).value.outcome = .ok placement) :
    let done := model.modify path change root w.store
    Footprint w (path.steps.zip trail.parents) (change trail.leaf w.store) done ∧
      done.value.root = root ∧
      placement = if path.first.isMember then .written else .built done.value.stored := by
  intro done
  have hwell := hw.wellTyped
  obtain ⟨hleaf, hchain⟩ := wellTyped_of_trail hwell.store (hroot.wellTyped hwell) htrail
  obtain ⟨hzip, -⟩ := linked_of_trail htrail
  obtain ⟨held, hruns, hheld⟩ := hrun trail htrail
  have hnext := hwell.next hwell.store (.refl _) (List.forall_mem_singleton.mpr hleaf)
  obtain ⟨hcalled, g⟩ := hruns.wellTyped hnext.1
  obtain ⟨hstored, up, hasc, hres, hstate⟩ := ascends_of_modify htrail hok
  obtain ⟨l, l', hl, hprefix, hl'⟩ := entered_of_edit hw hroot hrun htrail
  rw [hzip]
  refine ⟨⟨?_, ?_, ?_, ?_⟩, update_root .., placement_of_modify htrail hok⟩
  · rw [← hstate]
    refine (hspares trail htrail).changesOnly.trans (changesOnly_of_ascends ?_ hasc)
    exact fun link hlink id slot h => ⟨link, hlink, h⟩
  · intro n element items element' items' ha ha'
    exact hl.array_eq hprefix hl' ha ha'
  · intro n element items ha
    exact Nat.lt_of_lt_of_le (ha.wellTyped hwell).number_lt g.nextArray
  · obtain ⟨handed, hfirst, h⟩ := carriedUp_of_ascends hcalled.store (hcalled.held _ hheld)
      (fun link hlink => (hchain link hlink).mono g) hasc hres
    rw [hstate] at h
    exact ⟨handed, hfirst.trans hstored.symm, h⟩

/-- A path that leads from an array through a knot back to this array: two arrays are made, and the knot
holds the first of them. -/
theorem next_end_footprint :
    let root : Value := .object ⟨0, knot⟩
    let path : Path := ⟨.element 1, [.member "ends", .element 0]⟩
    let change : Value → Action Store Value := fun _ => pure root
    let done := model.modify path change ends tied.store
    (model.trail path ends tied.store).value = .ok ⟨[ends, root, ends], root⟩ ∧
      Footprint tied (path.steps.zip [ends, root, ends]) (change root tied.store) done ∧
      done.value.root = ends ∧ done.value.outcome = .ok (.built done.value.stored) := by
  intro root path change done
  have hroot : tied.Has ends := .held List.mem_cons_self
  have htrail : (model.trail path ends tied.store).value = .ok ⟨[ends, root, ends], root⟩ := rfl
  have hrun : IsRun tied path ends change := fun trail _ =>
    ⟨_, .refl _, List.mem_cons_of_mem _ (List.mem_cons_of_mem _ List.mem_cons_self)⟩
  have hok : done.value.outcome = .ok (.built done.value.stored) := rfl
  obtain ⟨hfootprint, hsame, -⟩ :=
    edit_footprint reachable_tied hroot hrun (fun _ _ => .refl _) htrail hok
  exact ⟨htrail, hfootprint, hsame, hok⟩

end Graph

end DeepPath
