import DeepPath.Proofs.Graph.Undoing

/-!
# Runs of the object model

A client holds values and runs operations on them: it makes values, reads and writes members, edits
along paths, copies and reverts.  `Runs` lists the operations, failed ones included; the callback of an
edit is a run of its own, which starts with the leaf in hand.  `Reachable` worlds are those that a run
comes to from nothing.

What every operation preserves, every run preserves (`Preserved.runs`).

`Reachable.typed`: in every reachable world every object and every array is typed as declared.
-/

namespace DeepPath.Graph

open Model

/-- A store, and the values that its client holds. -/
structure World where
  store : Store
  held : List Value

namespace World

/-- The world with another store, where more values are held. -/
def next (u : World) (s : Store) (new : List Value) : World :=
  ⟨s, new ++ u.held⟩

/-- A world whose store and whose held values are well-typed. -/
structure WellTyped (w : World) : Prop where
  store : w.store.WellTyped
  held : ∀ v ∈ w.held, v.WellTyped w.store

/-- The values that occur in a world: in the hands of the client, in slots and in arrays. -/
inductive Has (w : World) : Value → Prop
  | held {v : Value} : v ∈ w.held → Has w v
  | slot {h : Handle} {v : Value} : Has w (.object h) → v ∈ w.store.slotsAt h.id → Has w v
  | item {n : Nat} {element : Ty} {items : List Value} {v : Value} :
      Has w (.array n element items) → v ∈ items → Has w v

end World

/-- What an operation hands out: its result, if it has one. -/
def handedOut {ε : Type} : Except ε Value → List Value
  | .ok v => [v]
  | .error _ => []

/-- The values an edit hands out: the root, and the root after the outcome has been stored. -/
def results {ε : Type} (r : Revision Value ε) : List Value :=
  [r.root, r.stored]

section

variable {ε : Type} {P : Value → Prop}

theorem forall_mem_handedOut {r : Except ε Value} (h : ∀ v, r = .ok v → P v) :
    ∀ v ∈ handedOut r, P v := by
  intro v hv
  cases r with
  | ok w =>
    rw [List.mem_singleton.mp hv]
    exact h w rfl
  | error => cases hv

theorem forall_mem_results {r : Revision Value ε} (hr : P r.root) (hs : P r.stored) :
    ∀ v ∈ results r, P v :=
  List.forall_mem_cons.mpr ⟨hr, List.forall_mem_singleton.mpr hs⟩

end

/-- What a client can do. -/
inductive Runs : World → World → Prop
  | refl (u : World) : Runs u u
  | trans {u v w : World} : Runs u v → Runs v w → Runs u w
  | scalar {u : World} {v : Value} (hh : v.handle? = none) (hi : v.items? = none) :
      Runs u (u.next u.store [v])
  | default (u : World) (ty : Ty) : Runs u (u.next (u.store.default ty).2 [(u.store.default ty).1])
  | create (u : World) (type : ObjectType) :
      Runs u (u.next (u.store.create type).2 [.object (u.store.create type).1])
  | makeArray {u : World} {element : Ty} {items : List Value} {made : Value × Store}
      (hi : ∀ v ∈ items, v ∈ u.held) (hm : u.store.makeArray element items = .ok made) :
      Runs u (u.next made.2 [made.1])
  | write {u : World} {h : Handle} {v : Value} (name : String) (hh : .object h ∈ u.held)
      (hv : v ∈ u.held) : Runs u (u.next (write h name v u.store).state [])
  | read {u : World} {root : Value} (path : Path) (hr : root ∈ u.held) :
      Runs u (u.next (model.read path root u.store).state
        (handedOut (model.read path root u.store).value))
  | rebuild {u : World} {array value : Value} {view : View Value} (index : UInt64)
      (ha : array ∈ u.held) (hview : viewOf array = .ok view) (hv : value ∈ u.held) :
      Runs u (u.next (rebuild view index value u.store).state
        (handedOut (rebuild view index value u.store).value))
  | copy {u : World} {v : Value} (hv : v ∈ u.held) :
      Runs u (u.next (copy v u.store).state [(copy v u.store).value])
  | revert {u : World} {live saved : Handle} (hl : .object live ∈ u.held)
      (hs : .object saved ∈ u.held) (ht : live.type = saved.type) :
      Runs u (u.next (u.store.revert live saved) [])
  /-- An edit whose path leads nowhere. -/
  | lost {u : World} {ε : Type} {path : Path} {change : Value → Action Store (Except ε Value)}
      {root : Value} {failure : Failure} (hr : root ∈ u.held)
      (ht : (model.trail path root u.store).value = .error failure) :
      Runs u (u.next (model.update path change root u.store).state
        (results (model.update path change root u.store).value))
  | update {u : World} {ε : Type} {path : Path} {change : Value → Action Store (Except ε Value)}
      {root : Value} {trail : Trail Value} {held : List Value} (hr : root ∈ u.held)
      (ht : (model.trail path root u.store).value = .ok trail)
      (hc : Runs (u.next u.store [trail.leaf]) ⟨(change trail.leaf u.store).state, held⟩)
      (hl : ∀ leaf, (change trail.leaf u.store).value = .ok leaf → leaf ∈ held) :
      Runs u ⟨(model.update path change root u.store).state,
        results (model.update path change root u.store).value ++ held⟩
  /-- A reversible edit whose path leads nowhere. -/
  | undoLost {u : World} {path : Path} {change : Value → Action Store Value} {root : Value}
      {failure : Failure} (hr : root ∈ u.held)
      (ht : (model.trail path root (u.store.copy root).2).value = .error failure) :
      Runs u (u.next (modifyOrUndo path change root u.store).state
        (results (modifyOrUndo path change root u.store).value))
  | undo {u : World} {path : Path} {change : Value → Action Store Value} {root : Value}
      {trail : Trail Value} {held : List Value} (hr : root ∈ u.held)
      (ht : (model.trail path root (u.store.copy root).2).value = .ok trail)
      (hc : Runs (u.next (u.store.copy root).2 [trail.leaf])
        ⟨(change trail.leaf (u.store.copy root).2).state, held⟩)
      (hl : (change trail.leaf (u.store.copy root).2).value ∈ held) :
      Runs u ⟨(modifyOrUndo path change root u.store).state,
        results (modifyOrUndo path change root u.store).value ++ held⟩

/-- A callback that writes to no object when an edit calls it. -/
def Spares {α : Type} (s : Store) (path : Path) (root : Value)
    (change : Value → Action Store α) : Prop :=
  ∀ trail, (model.trail path root s).value = .ok trail → s.Keeps (change trail.leaf s).state

/-- An edit with a callback that cannot decline. -/
theorem Runs.modify {u : World} {path : Path} {change : Value → Action Store Value} {root : Value}
    {trail : Trail Value} {held : List Value} (hr : root ∈ u.held)
    (ht : (model.trail path root u.store).value = .ok trail)
    (hc : Runs (u.next u.store [trail.leaf]) ⟨(change trail.leaf u.store).state, held⟩)
    (hl : (change trail.leaf u.store).value ∈ held) :
    Runs u ⟨(model.modify path change root u.store).state,
      results (model.modify path change root u.store).value ++ held⟩ := by
  refine .update hr ht hc fun leaf hleaf => ?_
  cases hleaf
  exact hl

/-- An edit that puts a value that is held in place of the leaf. -/
theorem Runs.replace {u : World} {path : Path} {value root : Value} {trail : Trail Value}
    (hr : root ∈ u.held) (hv : value ∈ u.held)
    (ht : (model.trail path root u.store).value = .ok trail) :
    Runs u ⟨(model.replace path value root u.store).state,
      results (model.replace path value root u.store).value ++ trail.leaf :: u.held⟩ :=
  .modify hr ht (.refl _) (List.mem_cons_of_mem _ hv)

/-- A world that a client can come to. -/
def Reachable (w : World) : Prop :=
  Runs ⟨{}, []⟩ w

/-! ## Some worlds -/

/-- A type of linked nodes. -/
def node : ObjectType :=
  .root "Node" [⟨"value", .int, .shown⟩, ⟨"next", .anyObject, .shown⟩]

/-- Two nodes, of which the first one is linked to itself. -/
def loop : World where
  store := ⟨#[⟨node, [.int 0, .object ⟨0, node⟩]⟩, ⟨node, [.int 0, .null]⟩], 0⟩
  held := [.object ⟨1, node⟩, .object ⟨0, node⟩]

theorem reachable_loop : Reachable loop := by
  have created := Runs.create ⟨{}, []⟩ node
  refine created.trans (.trans (.write (h := ⟨0, node⟩) (v := .object ⟨0, node⟩) "next" ?_ ?_)
    (.create _ node))
  · exact List.mem_cons_self
  · exact List.mem_cons_self

/-- A type of knots. -/
def knot : ObjectType :=
  .root "Knot" [⟨"ends", .array .anyObject, .shown⟩, ⟨"next", .anyObject, .shown⟩]

/-- The two ends of a knot. -/
def ends : Value :=
  .array 1 .anyObject [.object ⟨0, knot⟩, .object ⟨0, knot⟩]

/-- A knot whose ends both lead back to it. -/
def tied : World where
  store := ⟨#[⟨knot, [ends, .null]⟩], 2⟩
  held := [ends, .object ⟨0, knot⟩]

theorem reachable_tied : Reachable tied := by
  have created := Runs.create ⟨{}, []⟩ knot
  refine created.trans (.trans
    (@Runs.makeArray _ .anyObject [.object ⟨0, knot⟩, .object ⟨0, knot⟩] _ ?_ rfl)
    (.write (h := ⟨0, knot⟩) (v := ends) "ends" ?_ List.mem_cons_self))
  · intro v hv
    rcases List.mem_cons.mp hv with rfl | hv
    · exact List.mem_cons_self
    · rw [List.mem_singleton.mp hv]
      exact List.mem_cons_self
  · exact List.mem_cons_of_mem _ List.mem_cons_self

/-- A type of animals. -/
def animal : ObjectType :=
  .root "Animal" []

/-- A type of animals that are cats. -/
def cat : ObjectType :=
  .extend animal "Cat" []

/-- A type of strays, which has the name of the type of cats. -/
def stray : ObjectType :=
  .root "Cat" [⟨"name", .str, .shown⟩]

/-- A type of shelters for animals. -/
def shelter : ObjectType :=
  .root "Shelter" [⟨"animals", .array (.ofObjects animal), .shown⟩]

/-- A stray among the cats of a shelter. -/
def sheltered : World where
  store := ⟨#[⟨stray, [.str ""]⟩,
    ⟨shelter, [.array 1 (.ofObjects cat) [.object ⟨0, stray⟩]]⟩], 2⟩
  held := [.array 1 (.ofObjects cat) [.object ⟨0, stray⟩], .object ⟨1, shelter⟩, .object ⟨0, stray⟩]

theorem reachable_sheltered : Reachable sheltered := by
  have created := (Runs.create ⟨{}, []⟩ stray).trans (.create _ shelter)
  refine created.trans (.trans (@Runs.makeArray _ (.ofObjects cat) [.object ⟨0, stray⟩] _ ?_ rfl)
    (.write (h := ⟨1, shelter⟩) (v := .array 1 (.ofObjects cat) [.object ⟨0, stray⟩]) "animals"
      ?_ ?_))
  · intro v hv
    rw [List.mem_singleton.mp hv]
    exact List.mem_cons_of_mem _ List.mem_cons_self
  · exact List.mem_cons_of_mem _ List.mem_cons_self
  · exact List.mem_cons_self

/-! ## What runs preserve -/

variable {u w : World} {s : Store}

section

variable {κ : Type} {Later : κ → κ → Prop} {GoodStore : κ → Store → Prop} {GoodValue : κ → Value → Prop}
  {k l : κ}

/-- A world whose store is good, as are the values held. -/
structure World.Good (GoodStore : κ → Store → Prop) (GoodValue : κ → Value → Prop) (k : κ)
    (w : World) : Prop where
  store : GoodStore k w.store
  held : ∀ v ∈ w.held, GoodValue k v

namespace Preserved

variable (h : Preserved Later GoodStore GoodValue)
include h

theorem next (hu : u.Good GoodStore GoodValue k) (hl : Later k l) (hs : GoodStore l s)
    {new : List Value} (hn : ∀ v ∈ new, GoodValue l v) : (u.next s new).Good GoodStore GoodValue l := by
  refine ⟨hs, fun v hv => ?_⟩
  rcases List.mem_append.mp hv with hv | hv
  · exact hn v hv
  · exact h.mono hl (hu.held v hv)

theorem write (hs : GoodStore k s) {handle : Handle} {v : Value} (name : String)
    (hh : GoodValue k (.object handle)) (hv : GoodValue k v) :
    ∃ l, Later k l ∧ GoodStore l (write handle name v s).state := by
  obtain ⟨l, hl, hput, -⟩ := h.put hs hh hv (.member name)
  rw [put_member_apply] at hput
  exact ⟨l, hl, hput⟩

theorem rebuild (hs : GoodStore k s) {array value : Value} {view : View Value} (index : UInt64)
    (ha : GoodValue k array) (hview : viewOf array = .ok view) (hv : GoodValue k value) :
    ∃ l, Later k l ∧ GoodStore l (rebuild view index value s).state ∧
      ∀ v, (rebuild view index value s).value = .ok v → GoodValue l v := by
  cases array with
  | array n element items =>
    cases hview
    obtain ⟨l, hl, hput, hup⟩ := h.put hs ha hv (.element index)
    rw [put_element_apply] at hput hup
    refine ⟨l, hl, hput, fun v hres => hup (.built v) ?_⟩
    dsimp only
    rw [hres]
    rfl
  | _ => cases hview

/-- Whatever a client does to good values leaves good ones, at a later stage. -/
theorem runs (hr : Runs u w) (hu : u.Good GoodStore GoodValue k) :
    ∃ l, Later k l ∧ w.Good GoodStore GoodValue l := by
  induction hr generalizing k with
  | refl u => exact ⟨k, h.refl k, hu⟩
  | trans _ _ ih ih' =>
    obtain ⟨l, hl, hv⟩ := ih hu
    obtain ⟨m, hm, hw⟩ := ih' hv
    exact ⟨m, h.trans hl hm, hw⟩
  | scalar hh hi =>
    exact ⟨k, h.refl k, h.next hu (h.refl k) hu.store
      (List.forall_mem_singleton.mpr (h.scalar k hh hi))⟩
  | default u ty =>
    obtain ⟨l, hl, hs, hv⟩ := h.default hu.store ty
    exact ⟨l, hl, h.next hu hl hs (List.forall_mem_singleton.mpr hv)⟩
  | create u type =>
    obtain ⟨l, hl, hs, hv⟩ := h.create hu.store type
    exact ⟨l, hl, h.next hu hl hs (List.forall_mem_singleton.mpr hv)⟩
  | makeArray hi hm =>
    obtain ⟨l, hl, hs, hv⟩ := h.makeArray hu.store (fun v hv => hu.held v (hi v hv)) hm
    exact ⟨l, hl, h.next hu hl hs (List.forall_mem_singleton.mpr hv)⟩
  | write name hh hv =>
    obtain ⟨l, hl, hs⟩ := h.write hu.store name (hu.held _ hh) (hu.held _ hv)
    exact ⟨l, hl, h.next hu hl hs fun _ hv => nomatch hv⟩
  | @read u root path hr =>
    obtain ⟨hstate, hread⟩ := read_spec u.store path root
    rw [hstate]
    refine ⟨k, h.refl k, h.next hu (h.refl k) hu.store (forall_mem_handedOut fun v hv => ?_)⟩
    exact of_arrive? (fun _ _ _ => h.follow hu.store) (hu.held root hr) ((hread v).mp hv)
  | rebuild index ha hview hv =>
    obtain ⟨l, hl, hs, hb⟩ := h.rebuild hu.store index (hu.held _ ha) hview (hu.held _ hv)
    exact ⟨l, hl, h.next hu hl hs (forall_mem_handedOut hb)⟩
  | copy hv =>
    obtain ⟨l, hl, hs, hcopy⟩ := h.copy hu.store (hu.held _ hv)
    exact ⟨l, hl, h.next hu hl hs (List.forall_mem_singleton.mpr hcopy)⟩
  | revert hl hs ht =>
    obtain ⟨l, hkl, hback⟩ := h.revert hu.store (hu.held _ hl) (hu.held _ hs) ht
    exact ⟨l, hkl, h.next hu hkl hback fun _ hv => nomatch hv⟩
  | lost hr ht =>
    obtain ⟨hvalue, hstate⟩ := update_of_lost _ ht
    rw [hvalue, hstate]
    exact ⟨k, h.refl k, h.next hu (h.refl k) hu.store
      (forall_mem_results (hu.held _ hr) (hu.held _ hr))⟩
  | update hr ht _ hleaf ih =>
    obtain ⟨hfound, -⟩ := h.trail hu.store (hu.held _ hr) ht
    obtain ⟨k₁, hk, hcalled⟩ :=
      ih (h.next hu (h.refl k) hu.store (List.forall_mem_singleton.mpr hfound))
    obtain ⟨l, hl, hs, hroot, hstored⟩ := h.update hu.store (hu.held _ hr) ht hk hcalled.store
      fun leaf hres => hcalled.held leaf (hleaf leaf hres)
    exact ⟨l, h.trans hk hl, h.next hcalled hl hs (forall_mem_results hroot hstored)⟩
  | undoLost hr ht =>
    obtain ⟨l, hl, hcopied, -⟩ := h.copy hu.store (hu.held _ hr)
    obtain ⟨hvalue, hstate⟩ := modifyOrUndo_of_lost ht
    rw [hvalue, hstate]
    have hroot := h.mono hl (hu.held _ hr)
    exact ⟨l, hl, h.next hu hl hcopied (forall_mem_results hroot hroot)⟩
  | undo hr ht _ hleaf ih =>
    obtain ⟨l, hl, hcopied, hsaved⟩ := h.copy hu.store (hu.held _ hr)
    have hroot := h.mono hl (hu.held _ hr)
    obtain ⟨hfound, -⟩ := h.trail hcopied hroot ht
    obtain ⟨k₁, hk, hcalled⟩ := ih (h.next hu hl hcopied (List.forall_mem_singleton.mpr hfound))
    obtain ⟨m, hm, hs, hroot', hstored⟩ :=
      h.modifyOrUndo hcopied hroot hsaved ht hk hcalled.store (hcalled.held _ hleaf)
    exact ⟨m, h.trans hl (h.trans hk hm), h.next hcalled hm hs (forall_mem_results hroot' hstored)⟩

end Preserved

end

/-! ## Well-typed worlds -/

theorem World.WellTyped.next (hu : u.WellTyped) (hs : s.WellTyped) (g : u.store.Grows s)
    {new : List Value} (hn : ∀ v ∈ new, v.WellTyped s) :
    (u.next s new).WellTyped ∧ u.store.Grows (u.next s new).store := by
  have hgood := preserved_wellTyped.next (u := u) ⟨⟨rfl, hu.store⟩, hu.held⟩ g ⟨rfl, hs⟩ hn
  exact ⟨⟨hs, hgood.held⟩, g⟩

theorem wellTyped_of_write (hs : s.WellTyped) {h : Handle} {v : Value} (name : String)
    (hh : (Value.object h).WellTyped s) (hv : v.WellTyped s) :
    (write h name v s).state.WellTyped ∧ s.Grows (write h name v s).state := by
  obtain ⟨_, g, rfl, hw⟩ := preserved_wellTyped.write ⟨rfl, hs⟩ name hh hv
  exact ⟨hw, g⟩

/-- Whatever a client does keeps its world well-typed. -/
theorem Runs.wellTyped (h : Runs u w) (hu : u.WellTyped) :
    w.WellTyped ∧ u.store.Grows w.store := by
  obtain ⟨_, g, ⟨rfl, hs⟩, hv⟩ := preserved_wellTyped.runs h ⟨⟨rfl, hu.store⟩, hu.held⟩
  exact ⟨⟨hs, hv⟩, g⟩

/-! ## Reachable worlds -/

theorem Reachable.wellTyped (hw : Reachable w) : w.WellTyped := by
  have hempty : World.WellTyped ⟨{}, []⟩ := by
    constructor
    · intro id cell hc
      cases hc
    · intro v hv
      cases hv
  exact (Runs.wellTyped hw hempty).1

/-- All values that occur in a well-typed world are well-typed. -/
theorem World.Has.wellTyped {v : Value} (h : w.Has v) (hw : w.WellTyped) :
    v.WellTyped w.store := by
  induction h with
  | held hv => exact hw.held _ hv
  | slot _ hv ih => exact (hw.store.slotsAt ih.typeAt?).slots _ hv
  | item _ hv ih => exact ih.items _ hv

theorem World.Has.follow {v c : Value} {step : Step} (h : w.Has v)
    (hf : follow w.store v step = .ok c) : w.Has c := by
  obtain ⟨handle, name, rfl, rfl, hget⟩ | ⟨n, element, items, index, rfl, rfl, hget⟩ :=
    follow_eq_ok hf
  · exact .slot h (Store.mem_slotsAt_of_get? hget)
  · exact .item h (List.mem_of_getElem? hget)

theorem World.Has.of_linked {leaf : Value} {chain : List (Step × Value)}
    (hl : Linked w.store leaf chain) (h : w.Has (top leaf chain)) :
    w.Has leaf ∧ ∀ link ∈ chain, w.Has link.2 :=
  hl.forall (fun _ _ _ => World.Has.follow) h

/-- A world in which everything is typed as declared. -/
structure World.Typed (w : World) : Prop where
  /-- Objects have one slot for each member. -/
  slots : ∀ (id : Nat) cell, w.store.cells[id]? = some cell → cell.slots.length = cell.type.size
  /-- Slots hold what their members admit. -/
  admits : ∀ (id : Nat) cell, w.store.cells[id]? = some cell →
    ∀ (slot : Nat) m v, cell.type.allMembers[slot]? = some m → cell.slots[slot]? = some v →
      m.ty.admits v
  /-- Arrays hold what their element types admit. -/
  items : ∀ n element items, w.Has (.array n element items) → ∀ v ∈ items, element.admits v
  /-- What a checked write is going to write is a slot of the object. -/
  inBounds : ∀ h, w.Has (.object h) → ∀ name v slot, h.check name v = .ok slot →
    slot < (w.store.slotsAt h.id).length
  /-- Exactly the members that the type has can be read. -/
  reads : ∀ h, w.Has (.object h) → ∀ name, (w.store.get? h name).isSome = h.type.has name

/-- Everything is typed as declared, whatever has been done, successfully or not. -/
theorem Reachable.typed (hw : Reachable w) : w.Typed := by
  have hwell := hw.wellTyped
  constructor
  case slots =>
    intro id cell hc
    exact (hwell.store hc).length
  case admits =>
    intro id cell hc slot m v hm hv
    exact (hwell.store hc).admits hm hv
  case items =>
    intro n element items h
    exact (h.wellTyped hwell).admits
  case inBounds =>
    intro h hh name v slot hcheck
    obtain ⟨m, hf, -⟩ := Handle.check_eq_ok.mp hcheck
    exact hwell.store.slot_lt (hh.wellTyped hwell).typeAt? hf
  case reads =>
    intro h hh name
    exact hwell.store.isSome_get? (hh.wellTyped hwell).typeAt? name

theorem loop_typed : Reachable loop ∧ loop.Typed :=
  ⟨reachable_loop, Reachable.typed reachable_loop⟩

end DeepPath.Graph
