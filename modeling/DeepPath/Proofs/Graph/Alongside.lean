import DeepPath.Proofs.Graph.Renaming
import DeepPath.Proofs.Model.Effect

/-!
# Edits under new names

What is done in one store is done `Alongside` in another one if the results and the stores afterwards are
the same up to a renaming, which leaves the names of what was there before as they were.

1. A write keeps one store embedded in the other (`Embeds.write`), and a new array gets a number in each
   (`Embeds.newArray`).  So a step up goes alongside (`Embeds.put`).
2. By induction on its steps, an ascent goes alongside (`alongside_ascent`).
3. So does an edit, as far as its callback does (`alongside_update`).
-/

namespace DeepPath

open DeepPath.Graph DeepPath.Model

/-- `x` in the one store is `y` in the other, under a renaming that gives the names `r` to what was in
`s`. -/
def Alongside {α β : Type} (rename : Renaming → α → β) (r : Renaming) (s : Store) (x : α × Store)
    (y : β × Store) : Prop :=
  ∃ r', r.Agree s r' ∧ x.2.Embeds r' y.2 ∧ y.1 = rename r' x.1

theorem Alongside.of_agree {α β : Type} {rename : Renaming → α → β} {r r' : Renaming} {s u : Store}
    {x : α × Store} {y : β × Store} (hagree : r.Agree s r') (g : s.Grows u)
    (h : Alongside rename r' u x y) : Alongside rename r s x y := by
  obtain ⟨r'', hagree', e, hvalue⟩ := h
  exact ⟨r'', hagree.trans g hagree', e, hvalue⟩

namespace Store.Embeds

variable {s t : Store} {r r' : Renaming} {leaf root child parent : Value} (e : s.Embeds r t)
include e

/-! ## Steps -/

theorem write {i : Nat} (hi : i < s.cells.size) (slot : Nat) (v : Value) :
    (s.write i slot v).Embeds r (t.write (r.object i) slot (v.renamed r)) := by
  refine ⟨fun {j cell} hc => ?_, ?_, e.array_inj, e.array_lt⟩
  · unfold Store.write putSlots at hc ⊢
    rw [Array.getElem?_modify] at hc ⊢
    by_cases hij : i = j
    · subst hij
      rw [if_pos rfl] at hc ⊢
      obtain ⟨old, hold, rfl⟩ := Option.map_eq_some_iff.mp hc
      rw [e.cells hold, e.slotsAt hi, ← List.map_set]
      rfl
    · rw [if_neg hij] at hc
      have hj := (Array.getElem?_eq_some_iff.mp hc).1
      rw [if_neg fun h => hij (e.object_inj hi hj h)]
      exact e.cells hc
  · unfold Store.write
    rw [size_putSlots]
    exact e.object_inj

theorem newArray (hs : s.WellTyped) (element : Ty) {items : List Value}
    (hi : ∀ v ∈ items, v.WellTyped s) :
    Alongside Value.renamed r s (s.newArray element items)
      (t.newArray element (items.map (Value.renamed r))) := by
  have hagree := r.agree_extend s t
  refine ⟨_, hagree, ?_, ?_⟩
  · have h := e.extend hs [] (Nat.le_add_right s.nextArray 1)
    rw [r.array_extend_succ s t (Nat.le_refl _), r.array_extend_self s t] at h
    simpa [Store.newArray] using h
  · unfold Store.newArray
    dsimp only
    rw [Value.renamed_array, r.array_extend_self s t, hagree.values hi]

theorem rebuild (hs : s.WellTyped) (n : Nat) (element : Ty) {items : List Value}
    (hi : ∀ v ∈ items, v.WellTyped s) (hc : child.WellTyped s) (index : UInt64) :
    Alongside (fun r => Except.map (Value.renamed r)) r s
      (rebuild ⟨.array n element items, items⟩ index child s).effect
      (rebuild ⟨.array (r.array n) element (items.map (Value.renamed r)),
        items.map (Value.renamed r)⟩ index (child.renamed r) t).effect := by
  have hall (a : Ty) : ((items.set index.toNat child).map (Value.renamed r)).all a.admits =
      (items.set index.toNat child).all a.admits := by
    simp only [List.all_map, Function.comp_def, Value.admits_renamed]
  have hset : ∀ v ∈ items.set index.toNat child, v.WellTyped s := forall_mem_set hi hc
  have hmade (a : Ty) := e.newArray hs a hset
  rw [rebuild_apply, rebuild_apply]
  dsimp only [vouchedTy]
  rw [List.length_map, ← List.map_set, Value.elementTy_renamed, Value.admits_renamed, hall]
  split
  · split
    · obtain ⟨r', hagree, e', hvalue⟩ := hmade (elementTy element child)
      exact ⟨r', hagree, e', congrArg Except.ok hvalue⟩
    · split
      · obtain ⟨r', hagree, e', hvalue⟩ := hmade element
        exact ⟨r', hagree, e', congrArg Except.ok hvalue⟩
      · rw [Value.typeName_renamed]
        exact ⟨r, .refl s r, e, rfl⟩
  · unfold View.length
    rw [List.length_map]
    exact ⟨r, .refl s r, e, rfl⟩

/-- A step up does the same under new names. -/
theorem put (hs : s.WellTyped) (hp : parent.WellTyped s) (hc : child.WellTyped s) (step : Step) :
    Alongside (fun r o => (o.1.renamed r, o.2.map (Placement.renamed r))) r s
      (model.put parent step child s).effect
      (model.put (parent.renamed r) step (child.renamed r) t).effect := by
  cases step with
  | member name =>
    cases parent with
    | object h =>
      show Alongside _ r s _ (model.put (.object (h.renamed r)) _ _ t).effect
      rw [put_member_apply, put_member_apply, write_apply, write_apply, Handle.check_renamed]
      cases h.check name child with
      | ok slot =>
        exact ⟨r, .refl s r, e.write (lt_size_of_typeAt? hp.typeAt?) slot child, rfl⟩
      | error fault => exact ⟨r, .refl s r, e, rfl⟩
    | _ => exact ⟨r, .refl s r, e, rfl⟩
  | element index =>
    cases parent with
    | array n element items =>
      have hparent := Value.renamed_array r n element items
      obtain ⟨r', hagree, e', hvalue⟩ := e.rebuild hs n element hp.items hc index
      rw [hparent, put_element_apply, put_element_apply]
      refine ⟨r', hagree, e', Prod.ext (hparent.symm.trans (hagree.value hp).symm) ?_⟩
      dsimp only [Outcome.effect] at hvalue ⊢
      rw [hvalue]
      cases (Graph.rebuild ⟨.array n element items, items⟩ index child s).value <;> rfl
    | _ => exact ⟨r, .refl s r, e, rfl⟩

end Store.Embeds

/-! ## Ascents -/

variable {s t : Store} {r : Renaming} {leaf root : Value}

section

variable {x y : Except Failure Value × Store} (e : x.2.Embeds r y.2)
  (h : y.1 = x.1.map (Value.renamed r)) (hs : x.2.WellTyped)
  (hx : ∀ v, x.1 = .ok v → v.WellTyped x.2)
include e h hs hx

theorem alongside_raise {link : Step × Value} (hp : link.2.WellTyped x.2) (depth : Nat) :
    Alongside (fun r => Except.map (Value.renamed r)) r x.2 (model.raise depth link x)
      (model.raise depth (link.map id (Value.renamed r)) y) := by
  obtain ⟨result, s⟩ := x
  obtain ⟨result', t⟩ := y
  obtain rfl : result' = _ := h
  cases result with
  | error failure => exact ⟨r, .refl s r, e, rfl⟩
  | ok child =>
    obtain ⟨r', hagree, e', hvalue⟩ := e.put hs hp (hx child rfl) link.1
    refine ⟨r', hagree, e', ?_⟩
    dsimp only [Outcome.effect] at hvalue
    dsimp only [Model.raise, Except.map, Prod.map, id]
    rw [hvalue]
    dsimp only
    cases (model.put link.2 link.1 child s).value.2 with
    | error fault => rfl
    | ok placement => cases placement <;> rfl

theorem alongside_land (hr : root.WellTyped x.2) (step : Step) :
    Alongside (fun r o => (o.1.renamed r, o.2.map (Placement.renamed r))) r x.2
      (model.land root step x) (model.land (root.renamed r) step y) := by
  obtain ⟨result, s⟩ := x
  obtain ⟨result', t⟩ := y
  obtain rfl : result' = _ := h
  cases result with
  | error failure => exact ⟨r, .refl s r, e, rfl⟩
  | ok child =>
    obtain ⟨r', hagree, e', hvalue⟩ := e.put hs hr (hx child rfl) step
    refine ⟨r', hagree, e', ?_⟩
    dsimp only [Outcome.effect] at hvalue
    dsimp only [Model.land, Except.map]
    rw [hvalue]
    dsimp only
    cases (model.put root step child s).value.2 <;> rfl

end

/-- An ascent does the same under new names. -/
theorem alongside_ascent (e : s.Embeds r t) (hs : s.WellTyped) (hl : leaf.WellTyped s)
    {links : List (Step × Value)} (hc : ∀ link ∈ links, link.2.WellTyped s) (depth : Nat) :
    Alongside (fun r => Except.map (Value.renamed r)) r s (model.ascent depth links leaf s)
      (model.ascent depth (links.map (Prod.map id (Value.renamed r))) (leaf.renamed r) t) := by
  induction links generalizing depth with
  | nil => exact ⟨r, .refl s r, e, rfl⟩
  | cons link deeper ih =>
    obtain ⟨hparent, hdeeper⟩ := List.forall_mem_cons.mp hc
    obtain ⟨r', hagree, e', hvalue⟩ := ih hdeeper (depth + 1)
    obtain ⟨hw, g, hres⟩ :=
      wellTyped_of_ascends (ascends model (depth + 1) deeper leaf s) hs hl hdeeper
    have hlink : link.map id (Value.renamed r) = link.map id (Value.renamed r') :=
      Prod.ext rfl (hagree.value hparent).symm
    rw [List.map_cons, ascent_cons, ascent_cons, hlink]
    exact .of_agree hagree g (alongside_raise e' hvalue hw hres (hparent.mono g) depth)

/-- Carrying a leaf into the root does the same under new names. -/
theorem alongside_carry (e : s.Embeds r t) (hs : s.WellTyped) (hl : leaf.WellTyped s) (path : Path)
    {trail : Trail Value} (hc : ∀ link ∈ chain path trail root, link.2.WellTyped s) :
    Alongside (fun r o => (o.1.renamed r, o.2.map (Placement.renamed r))) r s
      (model.carry path trail leaf root s).effect
      (model.carry path (trail.renamed r) (leaf.renamed r) (root.renamed r) t).effect := by
  obtain ⟨hroot, hdeeper⟩ := List.forall_mem_cons.mp hc
  obtain ⟨r', hagree, e', hvalue⟩ := alongside_ascent e hs hl hdeeper 1
  obtain ⟨hw, g, hres⟩ := wellTyped_of_ascends (ascends model 1 _ leaf s) hs hl hdeeper
  have hlinks : path.rest.zip (trail.renamed r).parents.tail =
      (path.rest.zip trail.parents.tail).map (Prod.map id (Value.renamed r)) := by
    rw [Trail.renamed, ← List.map_tail, List.zip_map_right]
  rw [effect_carry, effect_carry, hlinks, ← hagree.value hroot]
  exact .of_agree hagree g (alongside_land e' hvalue hw hres (hroot.mono g) path.first)

/-! ## Edits -/

theorem descent_eq_of_trail {path : Path} {found : Except Failure (Trail Value)}
    (h : (model.trail path root s).value = found) :
    model.descent 0 path.steps root s = (found, s) := by
  rw [← effect_trail, Outcome.effect, h, trail_state]

/-- What is on a trail was in the store before. -/
theorem Renaming.Agree.trail {r' : Renaming} (h : r.Agree s r') (hs : s.WellTyped)
    (hr : root.WellTyped s) {path : Path} {trail : Trail Value}
    (hfound : (model.trail path root s).value = .ok trail) : trail.renamed r' = trail.renamed r := by
  obtain ⟨hleaf, hchain⟩ := wellTyped_of_trail hs hr hfound
  obtain ⟨hzip, -, hlen, -⟩ := linked_of_trail hfound
  have hparents : (path.steps.zip trail.parents).map Prod.snd = trail.parents :=
    List.map_snd_zip (Nat.le_of_eq (hlen.trans path.length_steps.symm))
  rw [hzip] at hparents
  unfold Trail.renamed
  rw [h.value hleaf, h.values]
  intro v hv
  rw [← hparents] at hv
  obtain ⟨link, hlink, rfl⟩ := List.mem_map.mp hv
  exact hchain link hlink

/-- An edit does the same under new names, as far as its callback does. -/
theorem alongside_update {ε : Type} {change change' : Value → Action Store (Except ε Value)}
    (e : s.Embeds r t) (hs : s.WellTyped) (hr : root.WellTyped s) (path : Path)
    (hc : ∀ trail, (model.trail path root s).value = .ok trail →
      (change trail.leaf s).state.WellTyped ∧ s.Grows (change trail.leaf s).state ∧
        ∀ leaf, (change trail.leaf s).value = .ok leaf →
          leaf.WellTyped (change trail.leaf s).state)
    (hsame : ∀ trail, (model.trail path root s).value = .ok trail →
      Alongside (fun r => Except.map (Value.renamed r)) r s (change trail.leaf s).effect
        (change' (trail.leaf.renamed r) t).effect) :
    Alongside Revision.renamed r s (model.update path change root s).effect
      (model.update path change' (root.renamed r) t).effect := by
  have htrail := e.trail hs hr path
  cases hfound : (model.trail path root s).value with
  | error failure =>
    rw [hfound] at htrail
    rw [effect_update_of_lost (descent_eq_of_trail hfound),
      effect_update_of_lost (descent_eq_of_trail htrail)]
    exact ⟨r, .refl s r, e, rfl⟩
  | ok trail =>
    rw [hfound] at htrail
    obtain ⟨hleaf, hchain⟩ := wellTyped_of_trail hs hr hfound
    obtain ⟨hw, g, hwell⟩ := hc trail hfound
    obtain ⟨r', hagree, e', hcall⟩ := hsame trail hfound
    cases hvalue : (change trail.leaf s).value with
    | error reason =>
      have hplain : (change trail.leaf s).effect = (.error reason, _) := Prod.ext hvalue rfl
      have hother : (change' (trail.leaf.renamed r) t).effect = (.error reason, _) :=
        Prod.ext (by rw [hcall, hplain]; rfl) rfl
      rw [effect_update_of_declined (descent_eq_of_trail hfound) hplain,
        effect_update_of_declined (descent_eq_of_trail htrail) hother]
      refine ⟨r', hagree, e', ?_⟩
      rw [Revision.renamed, Trail.leaf_renamed, hagree.value hr, Option.map_some, hagree.value hleaf]
      rfl
    | ok leaf =>
      have hplain : (change trail.leaf s).effect = (.ok leaf, _) := Prod.ext hvalue rfl
      have hother : (change' (trail.leaf.renamed r) t).effect = (.ok (leaf.renamed r'), _) :=
        Prod.ext (by rw [hcall, hplain]; rfl) rfl
      have hcarry := alongside_carry e' hw (hwell leaf hvalue) path
        fun link hlink => (hchain link hlink).mono g
      rw [hagree.trail hs hr hfound, hagree.value hr] at hcarry
      obtain ⟨r'', hagree', e'', hcarried⟩ := hcarry.of_agree hagree g
      rw [effect_update_of_carried (descent_eq_of_trail hfound) hplain,
        effect_update_of_carried (descent_eq_of_trail htrail) hother]
      refine ⟨r'', hagree', e'', ?_⟩
      dsimp only [Prod.map]
      rw [hcarried, Trail.leaf_renamed, ← hagree'.value hleaf]
      exact (Revision.renamed_of_carry r'' trail.leaf _).symm

theorem alongside_modify {change change' : Value → Action Store Value} (e : s.Embeds r t)
    (hs : s.WellTyped) (hr : root.WellTyped s) (path : Path)
    (hc : ∀ trail, (model.trail path root s).value = .ok trail →
      (change trail.leaf s).state.WellTyped ∧ s.Grows (change trail.leaf s).state ∧
        (change trail.leaf s).value.WellTyped (change trail.leaf s).state)
    (hsame : ∀ trail, (model.trail path root s).value = .ok trail →
      Alongside Value.renamed r s (change trail.leaf s).effect
        (change' (trail.leaf.renamed r) t).effect) :
    Alongside Revision.renamed r s (model.modify path change root s).effect
      (model.modify path change' (root.renamed r) t).effect := by
  refine alongside_update e hs hr path ?_ ?_
  · intro trail htrail
    obtain ⟨hw, g, hv⟩ := hc trail htrail
    refine ⟨hw, g, fun leaf hleaf => ?_⟩
    cases hleaf
    exact hv
  · intro trail htrail
    obtain ⟨r', hagree, e', hvalue⟩ := hsame trail htrail
    exact ⟨r', hagree, e', congrArg Except.ok hvalue⟩

end DeepPath
