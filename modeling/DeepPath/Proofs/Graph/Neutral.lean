import Mathlib.Data.List.Forall2
import DeepPath.Proofs.Graph.Progress
import DeepPath.Proofs.Graph.ReadBack

/-!
# Edits that hand the leaf back

Where names of types stand for one type each, an edit whose callback hands the leaf back succeeds, and
nothing reads differently afterwards, but that some arrays have got narrower element types: `neutral_edit`.

1. A value `Narrows` another if it differs from it in no more than the numbers and the element types of
   its arrays, at any depth.  A store narrows to another if all slots do (`Store.NarrowsTo`).
2. A step up that is handed a narrowed child takes it, writes it over the value that it narrows, and hands
   up a narrowed parent (`put_narrows`).  So the whole ascent does (`ascent_narrows`), also where it comes
   to one slot more than once: each time it puts there what narrows the value that stood there at first.
3. A step down leads from narrowed values to narrowed values, or fails on both for one reason
   (`NarrowsTo.follow`), and so does reading a path (`NarrowsTo.readFrom`).
-/

namespace DeepPath

open DeepPath.Graph

/-! ## Lists that are related element by element -/

section

variable {α β : Type} {R : α → β → Prop} {as : List α} {bs : List β}

theorem forall₂_getElem? (h : List.Forall₂ R as bs) (i : Nat) : Option.Rel R as[i]? bs[i]? := by
  induction h generalizing i with
  | nil => exact .none
  | cons hab _ ih =>
    cases i with
    | zero => exact .some hab
    | succ i => exact ih i

theorem forall₂_set (h : List.Forall₂ R as bs) {i : Nat} {a : α} {b : β} (hb : bs[i]? = some b)
    (hab : R a b) : List.Forall₂ R (as.set i a) bs := by
  induction h generalizing i with
  | nil => exact .nil
  | cons hfirst hrest ih =>
    cases i with
    | zero =>
      cases hb
      exact .cons hab hrest
    | succ i => exact .cons hfirst (ih hb)

end

/-! ## Narrowed values -/

/-- The same value, or an array of a narrower element type whose elements are those of the other, narrowed
in turn. -/
inductive Value.Narrows : Value → Value → Prop
  | same (v : Value) : Narrows v v
  | array {n n' : Nat} {wide narrow : Ty} {items items' : List Value} (hi : wide.includes narrow)
      (hitems : List.Forall₂ Narrows items' items) :
      Narrows (.array n' narrow items') (.array n wide items)

namespace Value.Narrows

variable {v v' : Value} {K : Lineage → Prop}

theorem items_same (items : List Value) : List.Forall₂ Narrows items items :=
  List.forall₂_same.mpr fun v _ => .same v

theorem of_object {h : Handle} (hn : v'.Narrows (.object h)) : v' = .object h := by
  cases hn
  rfl

theorem of_array {n : Nat} {wide : Ty} {items : List Value} (hn : v'.Narrows (.array n wide items)) :
    ∃ n' narrow items', v' = .array n' narrow items' ∧ wide.includes narrow ∧
      List.Forall₂ Narrows items' items := by
  cases hn with
  | same => exact ⟨n, wide, items, rfl, wide.includes_self, items_same items⟩
  | array hi hitems => exact ⟨_, _, _, rfl, hi, hitems⟩

theorem handle?_eq (hn : v'.Narrows v) : v'.handle? = v.handle? := by
  cases hn <;> rfl

theorem items?_eq_none (hn : v'.Narrows v) (hv : v.items? = none) : v'.items? = none := by
  cases hn with
  | same => exact hv
  | array => cases hv

theorem refines (hn : v'.Narrows v) (hK : v'.ty.Within K) : Refines K v' v := by
  cases hn with
  | same => exact .same _
  | array hi => exact .array hi hK

end Value.Narrows

/-! ## Narrowed stores -/

namespace Store

variable {s t : Store}

/-- Every object of `s` is in `t`, with a narrowed value in each slot. -/
def NarrowsTo (s t : Store) : Prop :=
  ∀ ⦃id : Nat⦄ ⦃cell : Cell⦄, s.cells[id]? = some cell →
    ∃ slots, t.cells[id]? = some ⟨cell.type, slots⟩ ∧
      List.Forall₂ Value.Narrows slots cell.slots

namespace NarrowsTo

protected theorem refl (s : Store) : s.NarrowsTo s :=
  fun _ cell hc => ⟨cell.slots, hc, Value.Narrows.items_same cell.slots⟩

/-- What is put in a slot narrows what stood there at first; nothing is asked of what stands there now. -/
theorem write (h : s.NarrowsTo t) {id slot : Nat} {old child : Value}
    (hold : (s.slotsAt id)[slot]? = some old) (hn : child.Narrows old) :
    s.NarrowsTo (t.write id slot child) := by
  intro other cell hc
  obtain ⟨slots, ht, hslots⟩ := h hc
  unfold Store.write putSlots
  rw [Array.getElem?_modify]
  by_cases hid : id = other
  · subst hid
    rw [slotsAt_eq hc] at hold
    rw [if_pos rfl, ht, slotsAt_eq ht]
    exact ⟨_, rfl, forall₂_set hslots hold hn⟩
  · rw [if_neg hid]
    exact ⟨slots, ht, hslots⟩

theorem get? (h : s.NarrowsTo t) {handle : Handle} (ht : s.typeAt? handle.id = some handle.type)
    (name : String) : Option.Rel Value.Narrows (t.get? handle name) (s.get? handle name) := by
  obtain ⟨cell, hc, -⟩ := typeAt?_eq_some_iff.mp ht
  obtain ⟨slots, ht, hslots⟩ := h hc
  unfold Store.get?
  cases handle.type.find? name with
  | none => exact .none
  | some hit =>
    dsimp only
    rw [slotsAt_eq hc, slotsAt_eq ht]
    exact forall₂_getElem? hslots hit.1

end NarrowsTo

end Store

/-! ## Reads from narrowed values -/

/-- Reads that fail at the same step for the same reason, or find values of which the first narrows the
second. -/
inductive ReadsNarrower : Except Failure Value → Except Failure Value → Prop
  | failed {fault fault' : Fault} (step : Step) (depth : Nat) (hr : fault'.reason = fault.reason) :
      ReadsNarrower (.error ⟨fault', step, depth, .descent⟩) (.error ⟨fault, step, depth, .descent⟩)
  | found {v v' : Value} (hn : v'.Narrows v) : ReadsNarrower (.ok v') (.ok v)

namespace Store.NarrowsTo

variable {s t : Store} {v v' : Value}

/-- A step leads from narrowed values to narrowed values, or fails on both for the same reason. -/
theorem follow (h : s.NarrowsTo t) (hv : v.WellTyped s) (hn : v'.Narrows v) (step : Step) :
    (∃ c c', Graph.follow s v step = .ok c ∧ Graph.follow t v' step = .ok c' ∧ c'.Narrows c) ∨
      ∃ fault fault', Graph.follow s v step = .error fault ∧
        Graph.follow t v' step = .error fault' ∧ fault'.reason = fault.reason := by
  cases step with
  | member name =>
    cases hh : v.handle? with
    | none =>
      exact .inr ⟨_, _, follow_member_of_no_object hh name,
        follow_member_of_no_object (hn.handle?_eq.trans hh) name, rfl⟩
    | some handle =>
      obtain rfl := Value.eq_object_of_handle? hh
      obtain rfl := hn.of_object
      have hrel := h.get? hv.typeAt? name
      generalize hs : s.get? handle name = c, ht : t.get? handle name = c' at hrel
      cases hrel with
      | some hc => exact .inl ⟨_, _, follow_member hs, follow_member ht, hc⟩
      | none => exact .inr ⟨_, _, getMember_of_none hs, getMember_of_none ht, rfl⟩
  | element index =>
    cases hi : v.items? with
    | none =>
      exact .inr ⟨_, _, follow_element_of_no_array hi index,
        follow_element_of_no_array (hn.items?_eq_none hi) index, rfl⟩
    | some items =>
      cases v <;> cases hi
      next n wide =>
      obtain ⟨n', narrow, items', rfl, -, hitems⟩ := hn.of_array
      have hlen := hitems.length_eq
      rcases Nat.lt_or_ge index.toNat items.length with hlt | hle
      · have hlt' : index.toNat < items'.length := hlen ▸ hlt
        exact .inl ⟨_, _, follow_element (List.getElem?_eq_getElem hlt),
          follow_element (List.getElem?_eq_getElem hlt'), hitems.get hlt' hlt⟩
      · exact .inr ⟨_, _, View.get_of_le _ hle, View.get_of_le _ (hlen ▸ hle), rfl⟩

/-- Reading steps from narrowed values fails on both for the same reason, or finds narrowed values. -/
theorem readFrom (h : s.NarrowsTo t) (hs : s.WellTyped) (hv : v.WellTyped s) (hn : v'.Narrows v)
    (depth : Nat) (steps : List Step) :
    ReadsNarrower (model.readFrom depth steps v' t).value (model.readFrom depth steps v s).value := by
  induction steps generalizing depth v v' with
  | nil => exact .found hn
  | cons step rest ih =>
    obtain ⟨c, c', hf, hf', hc⟩ | ⟨fault, fault', hf, hf', hr⟩ := h.follow hv hn step
    · rw [readFrom_cons_of_ok hf, readFrom_cons_of_ok hf']
      exact ih (wellTyped_of_follow hs hv hf) hc (depth + 1)
    · rw [readFrom_cons_of_error hf, readFrom_cons_of_error hf']
      exact .failed step depth hr

theorem read (h : s.NarrowsTo t) (hs : s.WellTyped) (hv : v.WellTyped s) (hn : v'.Narrows v)
    (q : Path) : ReadsNarrower (model.read q v' t).value (model.read q v s).value := by
  rw [Model.read_value, Model.read_value]
  exact h.readFrom hs hv hn 0 q.steps

end Store.NarrowsTo

namespace Graph

open Model

variable {s t u : Store} {K : Lineage → Prop} {old child parent leaf root : Value} {step : Step}
  {path : Path}

/-! ## Ascents of what was there -/

/-- A step up that is handed a narrowed child takes it: in place of what the child narrows there is now the
child, and the parent that is handed up is narrowed too. -/
theorem put_narrows (hK : Lineage.Distinct K) (hs : s.WellTyped) (hp : parent.WellTyped s)
    (hpK : parent.ty.Within K) (hoK : old.ty.Within K) (hf : follow s parent step = .ok old)
    (hcK : child.ty.Within K) (hn : child.Narrows old) (ht : s.NarrowsTo t) :
    let o := model.put parent step child t
    ∃ placement, o.value.2 = .ok placement ∧ (placement.settle o.value.1).Narrows parent ∧
      (placement.settle o.value.1).ty.Within K ∧ s.NarrowsTo o.state := by
  obtain ⟨placement, hput, href⟩ := put_refines hK hs hp hpK hoK hf (hn.refines hcK) t
  have hup := href.within hpK
  have hincludes := href.includes
  have ho := puts t parent step child
  generalize model.put parent step child t = o at hput hup hincludes ho ⊢
  obtain ⟨h, name, rfl, rfl, hget⟩ | ⟨n, wide, items, index, rfl, rfl, hget⟩ := follow_eq_ok hf
  · -- a member that held the old value
    cases ho with
    | written hcheck =>
      cases hput
      obtain ⟨m, hfind, -⟩ := Handle.check_eq_ok.mp hcheck
      rw [Store.get?, hfind] at hget
      exact ⟨.written, rfl, .same _, hpK, ht.write hget hn⟩
    | _ => cases hput
  · -- an array whose element was the old value
    have hitems := forall₂_set (Value.Narrows.items_same items) hget hn
    cases ho with
    | built =>
      cases hput
      exact ⟨.built _, rfl, .array hincludes hitems, hup, ht⟩
    | widened =>
      cases hput
      exact ⟨.built _, rfl, .array hincludes hitems, hup, ht⟩
    | _ => cases hput

/-- An ascent that carries up what its steps lead to succeeds, and narrows what it comes to. -/
theorem ascent_narrows (hK : Lineage.Distinct K) (hs : s.WellTyped)
    {chain : List (Step × Value)} (hl : Linked s leaf chain) (hleaf : leaf.ty.Within K)
    (hc : ∀ link ∈ chain, link.2.WellTyped s ∧ link.2.ty.Within K) (depth : Nat) :
    ∃ child u, model.ascent depth chain leaf s = (.ok child, u) ∧ child.Narrows (top leaf chain) ∧
      child.ty.Within K ∧ s.NarrowsTo u := by
  induction chain generalizing depth with
  | nil => exact ⟨leaf, s, rfl, .same leaf, hleaf, .refl s⟩
  | cons link deeper ih =>
    obtain ⟨step, parent⟩ := link
    obtain ⟨⟨hparent, hpK⟩, hdeeper⟩ := List.forall_mem_cons.mp hc
    obtain ⟨child, u, hasc, hn, hcK, hu⟩ := ih hl.2 hdeeper (depth + 1)
    have htop := within_top hleaf hdeeper
    obtain ⟨placement, hput, hup⟩ := put_narrows hK hs hparent hpK htop hl.1 hcK hn hu
    rw [ascent_cons, hasc, raise_of_ok hput]
    exact ⟨_, _, rfl, hup⟩

/-! ## Neutral edits -/

/-- An edit comes to what the ascent of its whole path comes to. -/
theorem modify_of_ascent (change : Value → Action Store Value) {trail : Trail Value}
    (htrail : (model.trail path root s).value = .ok trail)
    (hasc : model.ascent 0 (chain path trail root) (change trail.leaf s).value
      (change trail.leaf s).state = (.ok child, u)) :
    let o := model.modify path change root s
    (∃ placement, o.value.outcome = .ok placement) ∧ o.value.stored = child ∧ o.state = u := by
  obtain ⟨hvalue, hstate⟩ := modify_of_trail change htrail
  have hroot := carry_root path trail (change trail.leaf s).value root (change trail.leaf s).state
  rw [ascent_chain] at hasc
  dsimp only
  rw [hvalue, hstate]
  generalize model.carry path trail _ root _ = carried at hasc hroot
  obtain ⟨⟨root', failure | placement⟩, u', log⟩ := carried
  · cases hasc
  · obtain rfl : root' = root := hroot
    cases hasc
    exact ⟨⟨placement, rfl⟩, rfl, rfl⟩

/-- An edit after which everything reads as before, up to narrower element types of arrays. -/
structure Neutral (w : World) (root : Value) (o : Outcome Store (Revision Value Empty)) : Prop where
  succeeds : ∃ placement, o.value.outcome = .ok placement
  stored : o.value.stored.Narrows root
  reads : ∀ q, ReadsNarrower (model.read q o.value.stored o.state).value
    (model.read q root w.store).value
  /-- Also from what was not edited, but shares objects with what was. -/
  others : ∀ v, w.Has v → ∀ q, ReadsNarrower (model.read q v o.state).value
    (model.read q v w.store).value

/-- Whatever the graph is, with cycles and shared objects, and whatever the path: if it can be read, and
names of types stand for one type each, then the edit that hands the leaf back is neutral. -/
theorem neutral_edit {w : World} (hw : Reachable w) (hn : w.NamesDetermine) (hroot : w.Has root)
    (hread : (model.read path root w.store).value = .ok leaf) :
    Neutral w root (model.modify path pure root w.store) := by
  have hwell := hw.wellTyped
  have hs := hwell.store
  obtain ⟨trail, htrail, -⟩ := trail_of_read hread
  obtain ⟨-, -, -, hlinked⟩ := linked_of_trail htrail
  obtain ⟨-, hchain⟩ := wellTyped_of_trail hs (hroot.wellTyped hwell) htrail
  obtain ⟨hleaf, hhas⟩ := hroot.of_linked hlinked
  obtain ⟨child, u, hasc, hchild, -, hu⟩ := ascent_narrows hn.distinct hs hlinked hleaf.within
    (fun link hlink => ⟨hchain link hlink, (hhas link hlink).within⟩) 0
  obtain ⟨hsucceeds, hstored, hstate⟩ := modify_of_ascent pure htrail hasc
  refine ⟨hsucceeds, ?_, fun q => ?_, fun v hv q => ?_⟩
  · rw [hstored]
    exact hchild
  · rw [hstored, hstate]
    exact hu.read hs (hroot.wellTyped hwell) hchild q
  · rw [hstate]
    exact hu.read hs (hv.wellTyped hwell) (.same v) q

/-- A path comes to the ends of a knot twice, and the edit writes them twice: the knot has ends of a narrower
type afterwards, and they still lead back to it. -/
theorem neutral_edit_of_ends :
    let root : Value := .object ⟨0, knot⟩
    let path : Path := ⟨.member "ends", [.element 0, .member "ends", .element 1]⟩
    let o := model.modify path pure root tied.store
    tied.NamesDetermine ∧ (model.read path root tied.store).value = .ok root ∧
      o.state.get? ⟨0, knot⟩ "ends" = some (.array 3 (.ofObjects knot) [root, root]) ∧
      Neutral tied root o := by
  intro root path o
  have hnames : tied.NamesDetermine := tied_namesDetermine.of_next
  have hroot : tied.Has root := .held (List.mem_cons_of_mem _ List.mem_cons_self)
  have hread : (model.read path root tied.store).value = .ok root := rfl
  have hends : o.state.get? ⟨0, knot⟩ "ends" = some (.array 3 (.ofObjects knot) [root, root]) := by
    unfold o path root
    rfl
  exact ⟨hnames, hread, hends, neutral_edit reachable_tied hnames hroot hread⟩

end Graph

end DeepPath
