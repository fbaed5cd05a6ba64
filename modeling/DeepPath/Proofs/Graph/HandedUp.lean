import DeepPath.Proofs.Graph.Edit

/-!
# What an ascent hands up

A successful ascent writes the members of its steps and builds an array for each element, the deepest
first.  `carriedUp_of_ascends` says all that it does to the values on its way.

1. A write changes what one member of one object holds (`get?_write_self`, `get?_write_of_ne`).
2. Each step up hands up what it started from, if that is an object, and in place of an array one that
   was made for it, where one element is another (`handsUp_put`).
3. Steps further up leave a member alone unless they lead through it again, so in the end it holds what
   the first step through it was handed (`CarriedUp.climb`).
-/

namespace DeepPath

/-- A write changes one slot of one object. -/
theorem Store.getElem?_slotsAt_write_of_ne {s : Store} {id other slot k : Nat}
    (hid : id < s.cells.size) (hne : other ≠ id ∨ k ≠ slot) (v : Value) :
    ((s.write id slot v).slotsAt other)[k]? = (s.slotsAt other)[k]? := by
  rw [write]
  by_cases heq : other = id
  · subst heq
    rw [slotsAt_putSlots_self s _ hid, List.getElem?_set_ne (hne.resolve_left (· rfl)).symm]
  · rw [slotsAt_putSlots_of_ne s _ heq]

namespace Store.WellTyped

variable {s : Store} {h C : Handle} {name n : String} {slot : Nat} {v : Value}

theorem get?_write_self (hs : s.WellTyped) (hC : s.typeAt? C.id = some C.type)
    (hc : C.check n v = .ok slot) : (s.write C.id slot v).get? C n = some v := by
  obtain ⟨m, hf, -⟩ := Handle.check_eq_ok.mp hc
  rw [Store.get?, hf]
  show ((s.putSlots C.id _).slotsAt C.id)[slot]? = some v
  rw [slotsAt_putSlots_self s _ (lt_size_of_typeAt? hC), List.getElem?_set_self (hs.slot_lt hC hf)]

/-- A write leaves every other member alone, of the same object and of others. -/
theorem get?_write_of_ne (hh : s.typeAt? h.id = some h.type) (hC : s.typeAt? C.id = some C.type)
    (hc : h.check name v = .ok slot) (hne : ¬ (h = C ∧ name = n)) :
    (s.write h.id slot v).get? C n = s.get? C n := by
  obtain ⟨m, hf, -⟩ := Handle.check_eq_ok.mp hc
  unfold Store.get?
  cases hn : C.type.find? n with
  | none => rfl
  | some hit =>
    refine getElem?_slotsAt_write_of_ne (lt_size_of_typeAt? hh) ?_ v
    rw [← not_and_or]
    rintro ⟨hid, rfl⟩
    -- the same slot of the same object is the same member
    obtain rfl : h = C := Handle.eq_of_id hh hC hid.symm
    exact hne ⟨rfl, ObjectType.find?_slot_inj hf hn⟩

end Store.WellTyped

namespace Graph

open Model

variable {s t : Store} {v child parent : Value} {step : Step} {C : Handle} {n : String} {depth : Nat}
  {links : List (Step × Value)} {handed : Nat → Value} {placement : Placement Value}

/-! ## One step -/

/-- What a step hands up with a child put where it leads: the object it started from, or, in place of an
array, the array called `number`, where the element that the step leads to is the child. -/
inductive HandsUp (number : Nat) (child : Value) : Step × Value → Value → Prop
  | object {name : String} {h : Handle} :
      HandsUp number child (.member name, .object h) (.object h)
  | array {old : Nat} {wide narrow : Ty} {items : List Value} {index : UInt64} (hold : old < number)
      (hlt : index.toNat < items.length) :
      HandsUp number child (.element index, .array old wide items)
        (.array number narrow (items.set index.toNat child))

/-- The number of arrays that steps make: one for each element. -/
def builds (links : List (Step × Value)) : Nat :=
  links.countP fun link => !link.1.isMember

theorem handsUp_put (hp : parent.WellTyped s)
    (hput : (model.put parent step child s).value.2 = .ok placement) :
    let o := model.put parent step child s
    HandsUp s.nextArray child (step, parent) (placement.settle o.value.1) ∧
      o.state.nextArray = s.nextArray + builds [(step, parent)] := by
  have ho := puts s parent step child
  generalize model.put parent step child s = o at ho hput ⊢
  cases ho with
  | written =>
    cases hput
    exact ⟨.object, rfl⟩
  | built hlt =>
    cases hput
    exact ⟨.array hp.number_lt hlt, rfl⟩
  | widened hlt =>
    cases hput
    exact ⟨.array hp.number_lt hlt, rfl⟩
  | _ => cases hput

theorem get?_put_self (hs : s.WellTyped) (hC : s.typeAt? C.id = some C.type)
    (hput : (model.put (.object C) (.member n) child s).value.2 = .ok placement) :
    (model.put (.object C) (.member n) child s).state.get? C n = some child := by
  have ho := puts s (.object C) (.member n) child
  generalize model.put (.object C) (.member n) child s = o at ho hput ⊢
  cases ho with
  | written hcheck => exact hs.get?_write_self hC hcheck
  | _ => cases hput

theorem get?_put_of_ne (hp : parent.WellTyped s) (hC : s.typeAt? C.id = some C.type)
    (hne : (step, parent) ≠ (.member n, .object C)) :
    (model.put parent step child s).state.get? C n = s.get? C n := by
  have ho := puts s parent step child
  generalize model.put parent step child s = o at ho
  cases ho with
  | written hc =>
    refine Store.WellTyped.get?_write_of_ne hp.typeAt? hC hc fun ⟨hh, hn⟩ => hne ?_
    rw [hh, hn]
  | _ => rfl

/-! ## All steps -/

/-- What the steps of an ascent hand up, `handed k` at the depth `k`, and what they leave in the store. -/
structure CarriedUp (t : Store) (leaf : Value) (links : List (Step × Value)) (handed : Nat → Value)
    (s : Store) : Prop where
  /-- The last step is handed the leaf. -/
  leaf : handed links.length = leaf
  /-- Each step hands up what it is handed, put where it leads. -/
  steps : ∀ k link, links[k]? = some link →
    HandsUp (t.nextArray + builds (links.drop (k + 1))) (handed (k + 1)) link (handed k)
  /-- A member holds what the first step through it was handed. -/
  written : ∀ k name h, links[k]? = some (.member name, .object h) →
    (∀ j < k, links[j]? ≠ some (.member name, .object h)) → s.get? h name = some (handed (k + 1))
  /-- No more arrays are made than one for each element. -/
  made : s.nextArray = t.nextArray + builds links

/-- One more step up. -/
theorem CarriedUp.climb (h : CarriedUp t v links handed s) (hs : s.WellTyped) (g : t.Grows s)
    (hp : parent.WellTyped t) (hlinks : ∀ link ∈ links, link.2.WellTyped t)
    (hput : (model.put parent step (handed 0) s).value.2 = .ok placement) :
    let o := model.put parent step (handed 0) s
    CarriedUp t v ((step, parent) :: links)
      (fun | 0 => placement.settle o.value.1 | k + 1 => handed k) o.state := by
  intro o
  obtain ⟨hup, hmade⟩ := handsUp_put (hp.mono g) hput
  constructor
  · exact h.leaf
  · intro k link hk
    cases k with
    | zero =>
      cases hk
      rw [h.made] at hup
      exact hup
    | succ k => exact h.steps k link hk
  · intro k name C hk hfirst
    cases k with
    | zero =>
      cases hk
      exact get?_put_self hs (g.typeAt? hp.typeAt?) hput
    | succ k =>
      have hC := g.typeAt? (hlinks _ (List.mem_of_getElem? hk)).typeAt?
      have hne : (step, parent) ≠ (.member name, .object C) := by
        intro heq
        exact hfirst 0 (Nat.succ_pos k) (congrArg some heq)
      rw [get?_put_of_ne (hp.mono g) hC hne]
      exact h.written k name C hk fun j hj => hfirst (j + 1) (Nat.succ_lt_succ hj)
  · rw [hmade, h.made, Nat.add_assoc, Nat.add_comm (builds links)]
    unfold builds
    rw [← List.countP_append, List.singleton_append]

theorem carriedUp_of_ascends {o : Outcome Store (Climb Value)} (ht : t.WellTyped)
    (hv : v.WellTyped t) (hc : ∀ link ∈ links, link.2.WellTyped t)
    (ho : model.Ascends v t depth links o) (hr : o.value.result = .ok child) :
    ∃ handed, handed 0 = child ∧ CarriedUp t v links handed o.state := by
  induction ho generalizing child with
  | start =>
    cases hr
    refine ⟨fun _ => v, rfl, rfl, ?_, ?_, rfl⟩
    · intro k link hk
      cases hk
    · intro k name h hk
      cases hk
  | stopped _ hf => cases hf.symm.trans hr
  | fails => cases hr
  | climbs ho hbelow hp ih =>
    obtain ⟨hparent, hdeeper⟩ := List.forall_mem_cons.mp hc
    obtain ⟨hw, g, -⟩ := wellTyped_of_ascends ho ht hv hdeeper
    obtain ⟨handed, rfl, h⟩ := ih hdeeper hbelow
    cases hr
    exact ⟨_, rfl, h.climb hw g hparent hdeeper hp⟩

end Graph

end DeepPath
