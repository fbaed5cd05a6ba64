import DeepPath.Proofs.Graph.NoTrace
import DeepPath.Proofs.Model.Effect

/-!
# Ascents that cannot fail

`accepted_edit_succeeds`: where names of types stand for one type each, the only step of an ascent that
can fail is the first one, into the value that holds the leaf.  If this value accepts the new leaf, it
hands up a value that refines the old one, every parent accepts that in turn, and so the edit succeeds
(`ascent_of_accepts`).
-/

namespace DeepPath.Graph

open Model

variable {s t : Store} {K : Lineage → Prop} {leaf parent root v : Value} {step : Step}

/-- What a client had before it got more values in hand, it still has. -/
theorem World.Has.next {w : World} (h : w.Has v) (new : List Value) :
    (w.next w.store new).Has v := by
  induction h with
  | held hv => exact .held (List.mem_append_right _ hv)
  | slot _ hv ih => exact .slot ih hv
  | item _ hv ih => exact .item ih hv

theorem World.Has.of_next {w : World} {new : List Value} (hnew : ∀ u ∈ new, w.Has u)
    (h : (w.next w.store new).Has v) : w.Has v := by
  induction h with
  | held hv => exact (List.mem_append.mp hv).elim (hnew _) .held
  | slot _ hv ih => exact .slot ih hv
  | item _ hv ih => exact .item ih hv

theorem World.Knows.next {w : World} {l : Lineage} (h : w.Knows l) (new : List Value) :
    (w.next w.store new).Knows l := by
  induction h with
  | object hv => exact .object (hv.next new)
  | element hv hl => exact .element (hv.next new) hl
  | base _ hb ih => exact .base ih hb

/-- If names stand for one type each with more values in hand, they did so before. -/
theorem World.NamesDetermine.of_next {w : World} {new : List Value}
    (h : (w.next w.store new).NamesDetermine) : w.NamesDetermine :=
  fun l m hl hm => h l m (hl.next new) (hm.next new)

/-- An ascent that follows linked steps succeeds if the last of them starts from a value that accepts the
new leaf. -/
theorem ascent_of_accepts (hK : Lineage.Distinct K) (hs : s.WellTyped)
    {chain : List (Step × Value)} (hl : Linked s leaf chain) (hleaf : leaf.ty.Within K)
    (hc : ∀ link ∈ chain, link.2.WellTyped s ∧ link.2.ty.Within K)
    (hlast : chain.getLast? = some (step, parent)) (hv : v.ty.Within K)
    (ha : Accepts parent step v) (depth : Nat) :
    ∃ child u, model.ascent depth chain v t = (.ok child, u) ∧
      Refines K child (top leaf chain) := by
  induction chain generalizing depth with
  | nil => cases hlast
  | cons link deeper ih =>
    obtain ⟨upper, above⟩ := link
    obtain ⟨⟨habove, haboveK⟩, hdeeper⟩ := List.forall_mem_cons.mp hc
    have handed : ∃ child u, model.ascent (depth + 1) deeper v t = (.ok child, u) ∧
        child.ty.Within K ∧ Accepts above upper child := by
      cases deeper with
      | nil =>
        -- this is the last step, and what it is handed is the new leaf
        cases hlast
        exact ⟨v, t, rfl, hv, ha⟩
      | cons next rest =>
        obtain ⟨child, u, hasc, href⟩ := ih hl.2 hdeeper hlast (depth + 1)
        have htop := within_top hleaf hdeeper
        exact ⟨child, u, hasc, href.within htop, href.accepts hK hs habove htop hl.1⟩
    obtain ⟨child, u, hasc, hchild, haccepts⟩ := handed
    obtain ⟨placement, hput, href⟩ := put_of_accepts haboveK hchild hl.1 haccepts u
    rw [ascent_cons, hasc, raise_of_ok hput]
    exact ⟨_, _, rfl, href⟩

/-- Whatever the graph, the path and the callback are: if the path leads to a leaf, names of types stand
for one type each in the world with the new leaf in hand, and the value that holds the leaf accepts the
new leaf, then the edit succeeds. -/
theorem accepted_edit_succeeds {w : World} (hw : Reachable w) (hroot : w.Has root) {path : Path}
    {change : Value → Action Store Value} {trail : Trail Value}
    (htrail : (model.trail path root w.store).value = .ok trail)
    (hn : (w.next w.store [(change trail.leaf w.store).value]).NamesDetermine)
    (hlast : (path.steps.zip trail.parents).getLast? = some (step, parent))
    (ha : Accepts parent step (change trail.leaf w.store).value) :
    ∃ placement, (model.modify path change root w.store).value.outcome = .ok placement := by
  have hwell := hw.wellTyped
  obtain ⟨hzip, -, -, hlinked⟩ := linked_of_trail htrail
  obtain ⟨-, hchain⟩ := wellTyped_of_trail hwell.store (hroot.wellTyped hwell) htrail
  obtain ⟨hleaf, hhas⟩ := hroot.of_linked hlinked
  rw [hzip] at hlast
  obtain ⟨child, u, hasc, -⟩ := ascent_of_accepts (t := (change trail.leaf w.store).state)
    hn.distinct hwell.store hlinked (hleaf.next _).within
    (fun link hlink => ⟨hchain link hlink, ((hhas link hlink).next _).within⟩) hlast
    (World.Has.held List.mem_cons_self).within ha 0
  obtain ⟨placement, hcarry⟩ := carry_of_ascent hasc
  obtain ⟨hvalue, -⟩ := modify_of_trail change htrail
  refine ⟨placement, ?_⟩
  rw [hvalue]
  exact congrArg (Except.mapError Refusal.failed) hcarry

theorem tied_has (h : tied.Has v) : v = .null ∨ v = .object ⟨0, knot⟩ ∨ v = ends := by
  induction h with
  | held hv =>
    rcases List.mem_cons.mp hv with rfl | hv
    · exact .inr (.inr rfl)
    · exact .inr (.inl (List.mem_singleton.mp hv))
  | slot _ hv ih =>
    rcases ih with h | h | h <;> cases h
    rcases List.mem_cons.mp hv with rfl | hv
    · exact .inr (.inr rfl)
    · exact .inl (List.mem_singleton.mp hv)
  | item _ hv ih =>
    rcases ih with h | h | h <;> cases h
    simp only [List.mem_cons, List.not_mem_nil, or_false, or_self] at hv
    exact .inr (.inl hv)

/-- All that a client knows that has a knot in its hands is the type of knots. -/
theorem tied_namesDetermine : (tied.next tied.store [.object ⟨0, knot⟩]).NamesDetermine := by
  have hknows (l : Lineage) (h : (tied.next tied.store [.object ⟨0, knot⟩]).Knows l) :
      l = ⟨"Knot", []⟩ := by
    have hold {v : Value} (hv : (tied.next tied.store [.object ⟨0, knot⟩]).Has v) : tied.Has v :=
      hv.of_next fun u hu => .held (List.mem_cons_of_mem _ hu)
    induction h with
    | object hv =>
      rcases tied_has (hold hv) with h | h | h <;> cases h
      rfl
    | element hv hl =>
      rcases tied_has (hold hv) with h | h | h <;> cases h
      cases hl
    | base _ hb ih =>
      rw [ih] at hb
      cases hb
  intro l m hl hm _
  rw [hknows l hl, hknows m hm]

/-- An element of an array is replaced by a value of a narrower type, which the array takes and the object
that holds it. -/
theorem accepted_end_is_replaced :
    let root : Value := .object ⟨0, knot⟩
    let path : Path := ⟨.member "ends", [.element 0]⟩
    let change : Value → Action Store Value := fun _ => pure root
    (model.trail path root tied.store).value = .ok ⟨[root, ends], root⟩ ∧
      (tied.next tied.store [(change root tied.store).value]).NamesDetermine ∧
      Accepts ends (.element 0) (change root tied.store).value ∧
      ∃ placement, (model.modify path change root tied.store).value.outcome = .ok placement := by
  intro root path change
  have hroot : tied.Has root := .held (List.mem_cons_of_mem _ List.mem_cons_self)
  have htrail : (model.trail path root tied.store).value = .ok ⟨[root, ends], root⟩ := rfl
  have hnames : (tied.next tied.store [(change root tied.store).value]).NamesDetermine :=
    tied_namesDetermine
  have haccepts : Accepts ends (.element 0) (change root tied.store).value := rfl
  exact ⟨htrail, hnames, haccepts,
    accepted_edit_succeeds reachable_tied hroot htrail hnames rfl haccepts⟩

end DeepPath.Graph
