import DeepPath.Proofs.Graph.HandedUp
import DeepPath.Proofs.Graph.Inclusion
import DeepPath.Proofs.Graph.Rebuilding

/-!
# Edits that stop half-way

An edit takes no write back, so one that fails on its way up leaves the members below the failing step
written.  `failed_edit_remains` says exactly what is left of a failed edit.

1. What the steps hand up depends on the steps and the leaf alone (`handUp`, `handUpAll`), and so does what
   they write (`Store.replay`): a step that succeeds hands up and writes just this (`put_of_ok`).
2. An ascent comes to what its steps hand up and write, or stops at one of them and leaves what the deeper
   ones have written (`ascent_replays`).
-/

namespace DeepPath

namespace Graph

/-! ## What is handed up -/

/-- What a step hands up with a child put where it leads: the object that it starts from, or, in place of
an array, one that is called `number`. -/
def handUp (number : Nat) (child : Value) : Step × Value → Value
  | (.element index, .array _ wide items) =>
    .array number (child.tyAmong wide (items.eraseIdx index.toNat)) (items.set index.toNat child)
  | (_, parent) => parent

/-- What steps hand up from a leaf in the end, the deepest first, if the arrays are numbered from `number`. -/
def handUpAll (number : Nat) (leaf : Value) : List (Step × Value) → Value
  | [] => leaf
  | link :: deeper => handUp (number + builds deeper) (handUpAll number leaf deeper) link

theorem builds_cons (link : Step × Value) (deeper : List (Step × Value)) :
    builds (link :: deeper) = builds deeper + builds [link] := by
  unfold builds
  rw [List.countP_cons, List.countP_singleton]

end Graph

namespace Store

open DeepPath.Graph

variable {s t : Store} {child leaf : Value} {links : List (Step × Value)}

/-! ## What is written -/

/-- The store with a child in the member that a step leads to. -/
def overwrite (s : Store) (child : Value) : Step × Value → Store
  | (.member name, .object h) =>
    match h.type.find? name with
    | some (slot, _) => s.write h.id slot child
    | none => s
  | _ => s

/-- The store after steps have written their members, the deepest first, each to the object that it starts
from and with what the deeper ones have handed up to it. -/
def replay (s : Store) (number : Nat) (leaf : Value) : List (Step × Value) → Store
  | [] => s
  | link :: deeper =>
    (s.replay number leaf deeper).overwrite (handUpAll number leaf deeper) link

/-- What is written depends on the objects alone. -/
theorem cells_overwrite (h : s.cells = t.cells) (child : Value) (link : Step × Value) :
    (s.overwrite child link).cells = (t.overwrite child link).cells := by
  unfold overwrite
  split
  · split
    · unfold write putSlots
      rw [slotsAt_congr h, h]
    · exact h
  · exact h

theorem Keeps.write (h : s.Keeps t) (id slot : Nat) (v : Value) :
    (s.write id slot v).Keeps (t.write id slot v) := by
  intro other cell hc
  unfold Store.write putSlots at hc ⊢
  rw [Array.getElem?_modify] at hc ⊢
  by_cases hid : id = other
  · subst hid
    rw [if_pos rfl] at hc ⊢
    obtain ⟨old, hold, rfl⟩ := Option.map_eq_some_iff.mp hc
    rw [h hold, slotsAt_eq hold, slotsAt_eq (h hold)]
    rfl
  · rw [if_neg hid] at hc ⊢
    exact h hc

theorem Keeps.overwrite (h : s.Keeps t) (child : Value) (link : Step × Value) :
    (s.overwrite child link).Keeps (t.overwrite child link) := by
  unfold Store.overwrite
  split
  · split
    · exact h.write _ _ child
    · exact h
  · exact h

/-- Writing the same on top of more objects leaves the same objects. -/
theorem Keeps.replay (h : s.Keeps t) (number : Nat) (leaf : Value) (links : List (Step × Value)) :
    (s.replay number leaf links).Keeps (t.replay number leaf links) := by
  induction links with
  | nil => exact h
  | cons link deeper ih => exact ih.overwrite _ link

end Store

namespace Graph

open Model

variable {s t : Store} {leaf root parent child : Value} {step : Step} {path : Path}
  {placement : Placement Value}

/-! ## Ascents -/

/-- What a step that succeeds hands up and writes. -/
theorem put_of_ok (hput : (model.put parent step child s).value.2 = .ok placement) :
    let o := model.put parent step child s
    placement.settle o.value.1 = handUp s.nextArray child (step, parent) ∧
      o.state.cells = (s.overwrite child (step, parent)).cells ∧
      o.state.nextArray = s.nextArray + builds [(step, parent)] := by
  have ho := puts s parent step child
  cases step with
  | member name =>
    generalize model.put parent (.member name) child s = o at ho hput ⊢
    cases ho with
    | written hc =>
      cases hput
      obtain ⟨m, hfind, -⟩ := Handle.check_eq_ok.mp hc
      refine ⟨rfl, ?_, rfl⟩
      rw [Store.overwrite, hfind]
    | refused => cases hput
    | noMember => cases hput
  | element index =>
    cases parent with
    | array n wide items =>
      rw [put_element_apply] at hput ⊢
      obtain ⟨-, -, hvalue, hstate⟩ | ⟨-, -, hvalue, -⟩ | ⟨-, hvalue, -⟩ :=
        rebuild_cases s ⟨.array n wide items, items⟩ index child
      · dsimp only at hput ⊢
        rw [hvalue] at hput
        cases hput
        rw [hstate]
        exact ⟨rfl, rfl, rfl⟩
      · dsimp only at hput
        rw [hvalue] at hput
        cases hput
      · dsimp only at hput
        rw [hvalue] at hput
        cases hput
    | _ =>
      generalize model.put _ (.element index) child s = o at ho hput
      cases ho
      cases hput

/-- What is left of an ascent: what steps have written, and arrays made. -/
structure Replayed (t : Store) (leaf : Value) (links : List (Step × Value)) (s : Store) : Prop where
  cells : s.cells = (t.replay t.nextArray leaf links).cells
  nextArray : s.nextArray = t.nextArray + builds links

/-- An ascent hands up what its steps do and writes what they do, or stops at one of them and leaves what
the deeper ones have written. -/
theorem ascent_replays (t : Store) (leaf : Value) (links : List (Step × Value)) (depth : Nat) :
    let o := model.ascent depth links leaf t
    (o.1 = .ok (handUpAll t.nextArray leaf links) ∧ Replayed t leaf links o.2) ∨
      ∃ k link fault, links[k]? = some link ∧ o.1 = .error ⟨fault, link.1, depth + k, .ascent⟩ ∧
        Replayed t leaf (links.drop (k + 1)) o.2 := by
  induction links generalizing depth with
  | nil => exact .inl ⟨rfl, rfl, rfl⟩
  | cons link deeper ih =>
    obtain ⟨step, parent⟩ := link
    dsimp only at ih ⊢
    rw [ascent_cons]
    specialize ih (depth + 1)
    generalize model.ascent (depth + 1) deeper leaf t = below at ih ⊢
    obtain ⟨result, u⟩ := below
    obtain ⟨hres, hu⟩ | ⟨k, link, fault, hk, hres, hu⟩ := ih
    · -- the deeper steps have succeeded, and this one goes on from where they came to
      obtain rfl : result = .ok _ := hres
      cases hput : (model.put parent step (handUpAll t.nextArray leaf deeper) u).value.2 with
      | error fault =>
        rw [raise_of_error hput, put_of_error hput]
        exact .inr ⟨0, _, fault, rfl, rfl, hu⟩
      | ok placement =>
        obtain ⟨hup, hcells, hnext⟩ := put_of_ok hput
        rw [raise_of_ok hput, hup]
        refine .inl ⟨?_, ?_, ?_⟩
        · rw [handUpAll, hu.nextArray]
        · rw [hcells, Store.replay]
          exact Store.cells_overwrite hu.cells _ _
        · rw [hnext, hu.nextArray, Nat.add_assoc, ← builds_cons]
    · obtain rfl : result = .error _ := hres
      refine .inr ⟨k + 1, link, fault, hk, ?_, hu⟩
      rw [raise, Nat.add_assoc, Nat.add_comm 1]

/-! ## Failed edits -/

/-- Carrying a leaf into the root fails at one of the steps, and leaves what the deeper ones have written. -/
theorem replayed_of_carry {trail : Trail Value} {failure : Failure}
    (hcarry : (model.carry path trail leaf root t).value.2 = .error failure) :
    failure.direction = .ascent ∧
      (∃ link, (chain path trail root)[failure.depth]? = some link ∧ link.1 = failure.step) ∧
      Replayed t leaf ((chain path trail root).drop (failure.depth + 1))
        (model.carry path trail leaf root t).state := by
  have hasc : model.ascent 0 (chain path trail root) leaf t =
      (.error failure, (model.carry path trail leaf root t).state) := by
    rw [ascent_chain, Outcome.effect, Prod.map, hcarry]
    rfl
  obtain ⟨hres, -⟩ | ⟨k, link, fault, hk, hres, hreplayed⟩ :=
    ascent_replays t leaf (chain path trail root) 0
  · rw [hasc] at hres
    cases hres
  · rw [hasc] at hres hreplayed
    obtain rfl := Except.error.inj hres
    rw [Nat.zero_add] at *
    exact ⟨rfl, ⟨link, hk, rfl⟩, hreplayed⟩

/-- Carrying a leaf into the root leaves all objects alone that the walk down has not met. -/
theorem cells_of_carry {trail : Trail Value}
    (hc : ∀ link ∈ chain path trail root, link.2.WellTyped s) {id : Nat} (hid : s.cells.size ≤ id) :
    (model.carry path trail leaf root t).state.cells[id]? = t.cells[id]? := by
  obtain ⟨o, _, _, hasc, -, h⟩ | ⟨o, _, _, _, hasc, -, -, h⟩ :=
    carry_cases model path trail leaf root t
  · rw [h]
    exact cells_of_ascends hc hid hasc
  · rw [h]
    exact cells_of_ascends hc hid hasc

/-- What is left of an edit that has failed, where `s` is the store before it. -/
structure Remains {ε : Type} (s : Store) (path : Path) (root : Value)
    (change : Value → Action Store (Except ε Value)) (o : Outcome Store (Revision Value ε)) :
    Prop where
  handle : o.value.root = root
  /-- If the path leads nowhere, nothing has been done. -/
  lost : ∀ failure, o.value.outcome = .error (.failed failure) → failure.direction = .descent →
    o.state = s
  /-- If the callback has declined, all objects are as they were. -/
  declined : ∀ reason, o.value.outcome = .error (.declined reason) → s.Keeps o.state
  /-- If a step up has failed, all objects are as they were but for what the deeper steps have written to
  them, and those that the callback made are as it has left them. -/
  stopped : ∀ failure, o.value.outcome = .error (.failed failure) → failure.direction = .ascent →
    ∃ trail leaf, (model.trail path root s).value = .ok trail ∧
      (change trail.leaf s).value = .ok leaf ∧
      path.steps[failure.depth]? = some failure.step ∧
      (s.replay (change trail.leaf s).state.nextArray leaf
        ((path.steps.zip trail.parents).drop (failure.depth + 1))).Keeps o.state ∧
      ∀ id, s.cells.size ≤ id → o.state.cells[id]? = (change trail.leaf s).state.cells[id]?

/-- Whatever the graph and the names of its types are: a failed edit whose callback writes to no object has
written exactly the members of the steps below the one that failed, from the deepest up. -/
theorem failed_edit_remains {ε : Type} {w : World} (hw : Reachable w) (hroot : w.Has root)
    {change : Value → Action Store (Except ε Value)} (hspares : Spares w.store path root change)
    {refusal : Refusal ε}
    (hr : (model.update path change root w.store).value.outcome = .error refusal) :
    Remains w.store path root change (model.update path change root w.store) := by
  have hwell := hw.wellTyped
  have hhandle := update_root path change root w.store
  have hsame := trail_state w.store path root
  have hu := updates model path change root w.store
  generalize model.update path change root w.store = o at hr hhandle hu ⊢
  cases hu with
  | lost ht =>
    refine ⟨rfl, fun _ _ _ => hsame, nofun, fun failure hfail hup => ?_⟩
    cases hfail
    rw [trail_failure ht] at hup
    cases hup
  | @declined trail _ _ reason ht hc =>
    rw [ht] at hsame
    obtain rfl := hsame
    have htrail : (model.trail path root w.store).value = .ok trail := by rw [ht]
    exact ⟨rfl, nofun, fun _ _ => hspares trail htrail, nofun⟩
  | @carried trail _ _ leaf o ht hc ho =>
    rw [ht] at hsame
    obtain rfl := hsame
    have htrail : (model.trail path root w.store).value = .ok trail := by rw [ht]
    subst ho
    cases hcarry : (model.carry path trail leaf root (change trail.leaf w.store).state).value.2 with
    | ok placement =>
      dsimp only at hr
      rw [hcarry] at hr
      cases hr
    | error failure =>
      obtain ⟨hup, ⟨link, hlink, hstep⟩, hreplayed⟩ := replayed_of_carry hcarry
      refine ⟨hhandle, fun failure' hfail hdown => ?_, nofun, fun failure' hfail _ => ?_⟩
      · cases hfail
        rw [hup] at hdown
        cases hdown
      cases hfail
      obtain ⟨hzip, -⟩ := linked_of_trail htrail
      obtain ⟨-, hchain⟩ := wellTyped_of_trail hwell.store (hroot.wellTyped hwell) htrail
      refine ⟨trail, leaf, htrail, hc, ?_, ?_, fun id hid => ?_⟩
      · rw [← hzip] at hlink
        rw [← hstep]
        exact (List.getElem?_zip_eq_some.mp hlink).1
      · intro id cell hcell
        rw [hzip] at hcell
        rw [hreplayed.cells]
        exact (hspares trail htrail).replay _ leaf _ hcell
      · exact cells_of_carry hchain hid

/-- A stray gets a name, and the array with it in it gets the type of strays, which the shelter does not
take: the name stays. -/
theorem named_stray_remains :
    let root : Value := .object ⟨1, shelter⟩
    let path : Path := ⟨.member "animals", [.element 0, .member "name"]⟩
    let change : Value → Action Store (Except Empty Value) := fun _ => pure (.ok (.str "Tom"))
    let o := model.update path change root sheltered.store
    Reachable sheltered ∧ sheltered.Has root ∧ Spares sheltered.store path root change ∧
      o.value.outcome =
        .error (.failed ⟨.wrongType "Animal[]" "Cat[]", .member "animals", 0, .ascent⟩) ∧
      o.state.get? ⟨0, stray⟩ "name" = some (.str "Tom") ∧
      Remains sheltered.store path root change o := by
  intro root path change o
  have hroot : sheltered.Has root := .held (List.mem_cons_of_mem _ List.mem_cons_self)
  have hspares : Spares sheltered.store path root change := fun _ _ => .refl _
  have hfail : o.value.outcome =
      .error (.failed ⟨.wrongType "Animal[]" "Cat[]", .member "animals", 0, .ascent⟩) := rfl
  have hname : o.state.get? ⟨0, stray⟩ "name" = some (.str "Tom") := by
    unfold o change path root
    rfl
  exact ⟨reachable_sheltered, hroot, hspares, hfail, hname,
    failed_edit_remains reachable_sheltered hroot hspares hfail⟩

end Graph

end DeepPath
