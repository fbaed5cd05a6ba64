import DeepPath.Graph.Copy
import DeepPath.Proofs.Graph.Walk

/-!
# What clients preserve

Some properties of stores and values survive whatever a client does, for one reason: what an operation
finds in good values of a good store is good, and what it makes of good values is good.  `Preserved` lists
what there is to check, operation by operation.  Such a property may come in stages, as new objects and
arrays are made: then a good value of one stage is one of every later stage, and each operation may lead to
a later one.

The root of an edit stays (`update_root`), and an edit does no more than walk down, call its callback and
walk up.  So it preserves what its callback preserves: `Preserved.trail`, `Preserved.ascends`,
`Preserved.carry`, `Preserved.update`, `Preserved.modify`.
-/

namespace DeepPath.Graph

open Model

variable {s t : Store} {v leaf root child parent : Value} {step : Step} {path : Path}

/-! ## Roots -/

theorem put_root (s : Store) (parent : Value) (step : Step) (child : Value) :
    (model.put parent step child s).value.1 = parent := by
  have h := puts s parent step child
  generalize model.put parent step child s = o at h
  cases h <;> rfl

theorem carry_root (path : Path) (trail : Trail Value) (leaf root : Value) (s : Store) :
    (model.carry path trail leaf root s).value.1 = root := by
  rw [carry, Action.bind_apply]
  generalize model.ascend 1 (path.rest.zip trail.parents.tail) leaf s = o
  cases hc : o.value.result with
  | error failure => rfl
  | ok child =>
    dsimp only
    rw [Action.bind_apply]
    have hroot := put_root o.state root path.first child
    cases hp : (model.put root path.first child o.state).value.2 with
    | error fault => exact hroot
    | ok placement => exact hroot

/-- The root of an edit stays: an object keeps its identity, and nothing else can be written. -/
theorem update_root {ε : Type} (path : Path) (change : Value → Action Store (Except ε Value))
    (root : Value) (s : Store) : (model.update path change root s).value.root = root := by
  have h := updates model path change root s
  generalize model.update path change root s = o at h
  cases h with
  | lost => rfl
  | declined => rfl
  | carried _ _ ho =>
    subst ho
    exact carry_root ..

/-- An edit whose path leads nowhere does nothing. -/
theorem update_of_lost {ε : Type} {failure : Failure}
    (change : Value → Action Store (Except ε Value))
    (ht : (model.trail path root s).value = .error failure) :
    (model.update path change root s).value = ⟨root, none, .error (.failed failure)⟩ ∧
      (model.update path change root s).state = s := by
  have h := updates model path change root s
  have hstate := trail_state s path root
  generalize model.update path change root s = o at h ⊢
  cases h with
  | lost ht' =>
    cases ht.symm.trans ht'
    exact ⟨rfl, hstate⟩
  | declined ht' =>
    rw [ht'] at ht
    cases ht
  | carried ht' =>
    rw [ht'] at ht
    cases ht

/-! ## Preserved properties -/

section

variable {κ : Type} {Later : κ → κ → Prop} {GoodStore : κ → Store → Prop} {GoodValue : κ → Value → Prop}
  {k k₁ : κ} {depth : Nat} {links : List (Step × Value)}

/-- Properties of stores and of values, at each stage, that every operation preserves. -/
structure Preserved (Later : κ → κ → Prop) (GoodStore : κ → Store → Prop)
    (GoodValue : κ → Value → Prop) : Prop where
  refl (k : κ) : Later k k
  trans {k l m : κ} (h : Later k l) (h' : Later l m) : Later k m
  mono {k l : κ} {v : Value} (h : Later k l) (hv : GoodValue k v) : GoodValue l v
  scalar (k : κ) {v : Value} (hh : v.handle? = none) (hi : v.items? = none) : GoodValue k v
  default {k : κ} {s : Store} (hs : GoodStore k s) (ty : Ty) :
    ∃ l, Later k l ∧ GoodStore l (s.default ty).2 ∧ GoodValue l (s.default ty).1
  create {k : κ} {s : Store} (hs : GoodStore k s) (type : ObjectType) :
    ∃ l, Later k l ∧ GoodStore l (s.create type).2 ∧ GoodValue l (.object (s.create type).1)
  makeArray {k : κ} {s : Store} {element : Ty} {items : List Value} {made : Value × Store}
    (hs : GoodStore k s) (hi : ∀ v ∈ items, GoodValue k v)
    (hm : s.makeArray element items = .ok made) :
    ∃ l, Later k l ∧ GoodStore l made.2 ∧ GoodValue l made.1
  follow {k : κ} {s : Store} {v child : Value} {step : Step} (hs : GoodStore k s)
    (hv : GoodValue k v) (h : follow s v step = .ok child) : GoodValue k child
  put {k : κ} {s : Store} {parent child : Value} (hs : GoodStore k s) (hp : GoodValue k parent)
    (hc : GoodValue k child) (step : Step) :
    ∃ l, Later k l ∧ GoodStore l (model.put parent step child s).state ∧
      ∀ placement, (model.put parent step child s).value.2 = .ok placement →
        GoodValue l (placement.settle parent)
  copy {k : κ} {s : Store} {v : Value} (hs : GoodStore k s) (hv : GoodValue k v) :
    ∃ l, Later k l ∧ GoodStore l (s.copy v).2 ∧ GoodValue l (s.copy v).1
  revert {k : κ} {s : Store} {live saved : Handle} (hs : GoodStore k s)
    (hl : GoodValue k (.object live)) (hv : GoodValue k (.object saved)) (ht : live.type = saved.type) :
    ∃ l, Later k l ∧ GoodStore l (s.revert live saved)

namespace Preserved

variable (h : Preserved Later GoodStore GoodValue)
include h

/-! ## Walks -/

theorem trail (hs : GoodStore k s) (hr : GoodValue k root) {trail : Trail Value}
    (ht : (model.trail path root s).value = .ok trail) :
    GoodValue k trail.leaf ∧ ∀ link ∈ chain path trail root, GoodValue k link.2 :=
  (linked_of_trail ht).2.2.2.forall (fun _ _ _ => h.follow hs) hr

theorem ascends {o : Outcome Store (Climb Value)} (ho : model.Ascends leaf s depth links o)
    (hs : GoodStore k s) (hl : GoodValue k leaf) (hc : ∀ link ∈ links, GoodValue k link.2) :
    ∃ l, Later k l ∧ GoodStore l o.state ∧ ∀ v, o.value.result = .ok v → GoodValue l v := by
  induction ho with
  | start =>
    refine ⟨k, h.refl k, hs, fun v hv => ?_⟩
    cases hv
    exact hl
  | stopped _ _ ih => exact ih (List.forall_mem_cons.mp hc).2
  | fails _ hchild _ ih =>
    obtain ⟨hparent, hdeeper⟩ := List.forall_mem_cons.mp hc
    obtain ⟨l, hkl, ht, hv⟩ := ih hdeeper
    obtain ⟨m, hlm, hput, -⟩ := h.put ht (h.mono hkl hparent) (hv _ hchild) _
    exact ⟨m, h.trans hkl hlm, hput, fun v hv => nomatch hv⟩
  | climbs _ hchild hp ih =>
    obtain ⟨hparent, hdeeper⟩ := List.forall_mem_cons.mp hc
    obtain ⟨l, hkl, ht, hv⟩ := ih hdeeper
    obtain ⟨m, hlm, hput, hup⟩ := h.put ht (h.mono hkl hparent) (hv _ hchild) _
    refine ⟨m, h.trans hkl hlm, hput, fun v hv => ?_⟩
    cases hv
    rw [put_root]
    exact hup _ hp

theorem carry {trail : Trail Value} (hs : GoodStore k s) (hl : GoodValue k leaf)
    (hc : ∀ link ∈ chain path trail root, GoodValue k link.2) :
    let o := model.carry path trail leaf root s
    ∃ l, Later k l ∧ GoodStore l o.state ∧
      ∀ placement, o.value.2 = .ok placement → GoodValue l (placement.settle root) := by
  have hroot := carry_root path trail leaf root s
  obtain ⟨o, failure, root', ho, -, heq⟩ | ⟨o, placement, root', log, ho, hres, -, heq⟩ :=
    carry_cases model path trail leaf root s
  · obtain ⟨l, hkl, ht, -⟩ := h.ascends ho hs hl hc
    rw [heq]
    exact ⟨l, hkl, ht, fun placement hpl => nomatch hpl⟩
  · obtain ⟨l, hkl, ht, hv⟩ := h.ascends ho hs hl hc
    rw [heq] at hroot ⊢
    obtain rfl : root' = root := hroot
    refine ⟨l, hkl, ht, fun placement hpl => ?_⟩
    cases hpl
    exact hv _ hres

/-- An edit preserves what its callback does. -/
theorem update {ε : Type} {change : Value → Action Store (Except ε Value)} {trail : Trail Value}
    (hs : GoodStore k s) (hr : GoodValue k root)
    (ht : (model.trail path root s).value = .ok trail) (hk : Later k k₁)
    (hcalled : GoodStore k₁ (change trail.leaf s).state)
    (hleaf : ∀ leaf, (change trail.leaf s).value = .ok leaf → GoodValue k₁ leaf) :
    let o := model.update path change root s
    ∃ l, Later k₁ l ∧ GoodStore l o.state ∧ GoodValue l o.value.root ∧ GoodValue l o.value.stored := by
  have hu := updates model path change root s
  have hroot := update_root path change root s
  have hstate := trail_state s path root
  obtain ⟨-, hchain⟩ := h.trail hs hr ht
  have hr₁ := h.mono hk hr
  generalize model.update path change root s = o at hu hroot ⊢
  cases hu with
  | lost ht' => cases ht.symm.trans ht'
  | declined ht' =>
    rw [ht'] at ht hstate
    cases ht
    cases hstate
    exact ⟨k₁, h.refl k₁, hcalled, hr₁, hr₁⟩
  | @carried trail' t found leaf o ht' hc ho =>
    rw [ht'] at ht hstate
    cases ht
    cases hstate
    subst ho
    obtain ⟨l, hl, hcarried, hup⟩ := h.carry hcalled (hleaf leaf hc)
      fun link hlink => h.mono hk (hchain link hlink)
    unfold Revision.stored
    dsimp only at hroot ⊢
    rw [hroot]
    refine ⟨l, hl, hcarried, h.mono hl hr₁, ?_⟩
    cases hres : (model.carry path trail leaf root (change trail.leaf t).state).value.2 with
    | error failure => exact h.mono hl hr₁
    | ok placement => exact hup placement hres

theorem modify {change : Value → Action Store Value} {trail : Trail Value} (hs : GoodStore k s)
    (hr : GoodValue k root) (ht : (model.trail path root s).value = .ok trail) (hk : Later k k₁)
    (hcalled : GoodStore k₁ (change trail.leaf s).state)
    (hleaf : GoodValue k₁ (change trail.leaf s).value) :
    let o := model.modify path change root s
    ∃ l, Later k₁ l ∧ GoodStore l o.state ∧ GoodValue l o.value.root ∧ GoodValue l o.value.stored := by
  refine h.update hs hr ht hk hcalled fun leaf hres => ?_
  cases hres
  exact hleaf

end Preserved

end

end DeepPath.Graph
