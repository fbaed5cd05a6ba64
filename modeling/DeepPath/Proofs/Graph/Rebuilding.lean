import DeepPath.Proofs.Graph.Ledger
import DeepPath.Proofs.Model.Effect

/-!
# Replacing an element of an array

Replacing an element makes a new array.  `effect_rebuild` says for every view when this succeeds, which
element type the array gets, and how it fails otherwise.

1. The new element decides: its type is that of the array if it admits the others (`Value.Covers`), and else
   the type that the view vouches for has to admit the new element.
2. Of an array in a reachable world the elements fit the type that it vouches for, so they fit the type of
   the new array too: `replaced_element`.
3. A view that is not laid out from its source may vouch for what it does not hold: `rebuilt_fits_iff`
   says when the elements fit all the same.
-/

namespace DeepPath

/-- The elements of a view but for the one at a position. -/
def View.others {V : Type} (view : View V) (index : UInt64) : List V :=
  view.elements.eraseIdx index.toNat

/-- What holds of all elements after one was replaced holds of the new one and of the others. -/
theorem forall_mem_set_iff {P : Value → Prop} {items : List Value} {index : Nat} {v : Value}
    (hlt : index < items.length) :
    (∀ item ∈ items.set index v, P item) ↔ P v ∧ ∀ item ∈ items.eraseIdx index, P item := by
  rw [List.set_eq_take_append_cons_drop, if_pos hlt, List.eraseIdx_eq_take_drop_succ,
    List.forall_mem_append, List.forall_mem_append, List.forall_mem_cons]
  exact and_left_comm

namespace Value

/-- Whether a value has a type of its own that admits all the others. -/
def Covers (v : Value) (others : List Value) : Prop :=
  v.isNull = false ∧ ∀ item ∈ others, v.ty.admits item

instance (v : Value) (others : List Value) : Decidable (v.Covers others) :=
  inferInstanceAs (Decidable (_ ∧ _))

/-- The element type of an array in which a new element stands among others: the type of the new one if
this admits the others, and else the element type `wide` that there was. -/
def tyAmong (wide : Ty) (others : List Value) (v : Value) : Ty :=
  if v.Covers others then v.ty else wide

end Value

namespace Graph

open Model

variable {s : Store} {view : View Value} {index : UInt64} {v : Value} {wide : Ty} {items : List Value}

/-! ## All views -/

/-- All elements fit the type that the new element asks for if it covers the others; `null` asks for the
type that there was. -/
theorem all_elementTy_iff (wide : Ty) (v : Value) (hlt : index.toNat < items.length) :
    (items.set index.toNat v).all (elementTy wide v).admits ↔
      v.Covers (items.eraseIdx index.toNat) ∨
        v.isNull ∧ wide.admits v ∧ ∀ item ∈ items.eraseIdx index.toNat, wide.admits item := by
  rw [List.all_eq_true, forall_mem_set_iff hlt, elementTy, Value.Covers]
  cases hn : v.isNull with
  | true => simp
  | false => simp [v.ty_admits_self]

/-- With an element that is accepted, all elements fit the new element type if the new one covers the
others, or these fit the element type that there was. -/
theorem admits_tyAmong_iff (hlt : index.toNat < items.length)
    (hfits : wide.admits v ∨ v.Covers (items.eraseIdx index.toNat)) :
    (∀ item ∈ items.set index.toNat v,
        (v.tyAmong wide (items.eraseIdx index.toNat)).admits item) ↔
      v.Covers (items.eraseIdx index.toNat) ∨
        ∀ item ∈ items.eraseIdx index.toNat, wide.admits item := by
  rw [forall_mem_set_iff hlt, Value.tyAmong]
  by_cases hcovers : v.Covers (items.eraseIdx index.toNat)
  · rw [if_pos hcovers]
    exact iff_of_true ⟨v.ty_admits_self, hcovers.2⟩ (.inl hcovers)
  · rw [if_neg hcovers, or_iff_right hcovers]
    exact and_iff_right (hfits.resolve_right hcovers)

/-- Replacing an element succeeds in range if the element type that there was admits the new element, or
the new element covers the others. -/
theorem effect_rebuild (s : Store) (view : View Value) (index : UInt64) (v : Value) :
    (rebuild view index v s).effect =
      let wide := vouchedTy view
      let others := view.others index
      let made := s.newArray (v.tyAmong wide others) (view.elements.set index.toNat v)
      if index.toNat < view.elements.length then
        if wide.admits v ∨ v.Covers others then (.ok made.1, made.2)
        else (.error (.wrongType wide.text v.typeName), s)
      else (.error (.outOfRange index view.length), s) := by
  rw [Outcome.effect, rebuild_apply]
  dsimp only
  by_cases hlt : index.toNat < view.elements.length
  swap
  · rw [if_neg hlt, if_neg hlt]
  have hall := all_elementTy_iff (vouchedTy view) v hlt
  rw [← View.others] at hall
  rw [if_pos hlt, if_pos hlt, Value.tyAmong]
  by_cases hcovers : v.Covers (view.others index)
  · have hty : elementTy (vouchedTy view) v = v.ty := by simp [elementTy, hcovers.1]
    rw [if_pos (hall.mpr (.inl hcovers)), if_pos (.inr hcovers), if_pos hcovers, hty]
  rw [if_neg hcovers]
  by_cases hfit : (view.elements.set index.toNat v).all (elementTy (vouchedTy view) v).admits
  · -- it is `null`, for which there is no other type than the one there was
    obtain ⟨hnull, hwide, -⟩ := (hall.mp hfit).resolve_left hcovers
    have hty : elementTy (vouchedTy view) v = vouchedTy view := by simp [elementTy, hnull]
    rw [if_pos hfit, if_pos (.inl hwide), hty]
  · rw [if_neg hfit]
    by_cases hwide : (vouchedTy view).admits v
    · rw [if_pos hwide, if_pos (.inl hwide)]
    · rw [if_neg hwide, if_neg (not_or.mpr ⟨hwide, hcovers⟩)]

/-- The three ways in which replacing an element goes. -/
theorem rebuild_cases (s : Store) (view : View Value) (index : UInt64) (v : Value) :
    let o := rebuild view index v s
    let made := s.newArray (v.tyAmong (vouchedTy view) (view.others index))
      (view.elements.set index.toNat v)
    (index.toNat < view.elements.length ∧
        ((vouchedTy view).admits v ∨ v.Covers (view.others index)) ∧
        o.value = .ok made.1 ∧ o.state = made.2) ∨
      (index.toNat < view.elements.length ∧
        ¬ ((vouchedTy view).admits v ∨ v.Covers (view.others index)) ∧
        o.value = .error (.wrongType (vouchedTy view).text v.typeName) ∧ o.state = s) ∨
      (view.elements.length ≤ index.toNat ∧
        o.value = .error (.outOfRange index view.length) ∧ o.state = s) := by
  have h := effect_rebuild s view index v
  unfold Outcome.effect at h
  dsimp only at h ⊢
  split at h
  · next hlt =>
    split at h
    · next hfits => exact .inl ⟨hlt, hfits, Prod.mk.inj h⟩
    · next hfits => exact .inr (.inl ⟨hlt, hfits, Prod.mk.inj h⟩)
  · next hle => exact .inr (.inr ⟨Nat.le_of_not_lt hle, Prod.mk.inj h⟩)

/-- When an element of a view is replaced, the elements of the new array fit its element type exactly if
the new element covers the others, or the others fit the type that the view vouches for. -/
theorem rebuilt_fits_iff {made : Value} (h : (rebuild view index v s).value = .ok made) :
    ∃ n element items, made = .array n element items ∧
      ((∀ item ∈ items, element.admits item) ↔ v.Covers (view.others index) ∨
        ∀ item ∈ view.others index, (vouchedTy view).admits item) := by
  obtain ⟨hlt, hfits, hvalue, -⟩ | ⟨-, -, hvalue, -⟩ | ⟨-, hvalue, -⟩ := rebuild_cases s view index v
  · cases hvalue.symm.trans h
    exact ⟨_, _, _, rfl, admits_tyAmong_iff hlt hfits⟩
  · cases hvalue.symm.trans h
  · cases hvalue.symm.trans h

/-- Elements that the view does not vouch for, but the new one covers. -/
theorem rebuilt_from_misfits_fits :
    let view : View Value := ⟨.array 0 .int [], [.str "one", .str "two"]⟩
    let made : Value := .array 1 .str [.str "one", .str "three"]
    (rebuild view 1 (.str "three") ⟨#[], 1⟩).value = .ok made ∧
      ∃ n element items, made = .array n element items ∧
        ((∀ item ∈ items, element.admits item) ↔ (Value.str "three").Covers (view.others 1) ∨
          ∀ item ∈ view.others 1, Ty.int.admits item) := by
  intro view made
  have hmade : (rebuild view 1 (.str "three") ⟨#[], 1⟩).value = .ok made := rfl
  exact ⟨hmade, rebuilt_fits_iff hmade⟩

/-- An array of whole numbers with a text in it: the view vouches for whole numbers and holds a text, which
nothing asks about as the new element is a whole number. -/
theorem misfit_stays_in_rebuilt :
    let source : Value := .array 0 .int [.int 1, .int 2]
    let view : View Value := ⟨source, [.int 1, .str "two"]⟩
    Store.makeArray {} .int [.int 1, .int 2] = .ok (source, ⟨#[], 1⟩) ∧
      (rebuild view 0 (.int 7) ⟨#[], 1⟩).value = .ok (.array 1 .int [.int 7, .str "two"]) ∧
      Ty.int.admits (.str "two") = false :=
  ⟨rfl, rfl, rfl⟩

/-! ## Arrays of a world -/

/-- What comes of replacing an element of an array of a world, which has the element type `wide`. -/
structure Replacement (w : World) (wide : Ty) (items : List Value) (index : UInt64) (v : Value)
    (o : Outcome Store (Except Fault Value)) : Prop where
  outOfRange : o.value = .error (.outOfRange index items.length) ↔ items.length ≤ index.toNat
  succeeds : index.toNat < items.length →
    ((∃ made, o.value = .ok made) ↔ wide.admits v ∨ v.Covers (items.eraseIdx index.toNat))
  wrongType : index.toNat < items.length →
    ∀ fault, o.value = .error fault → fault = .wrongType wide.text v.typeName
  /-- The array that is made has the other elements where they were. -/
  made : ∀ array, o.value = .ok array →
    array = .array w.store.nextArray (v.tyAmong wide (items.eraseIdx index.toNat))
      (items.set index.toNat v)
  /-- No array of the world has the number of the one that is made. -/
  older : ∀ n element xs, w.Has (.array n element xs) → n < w.store.nextArray
  fits : ∀ n element xs, o.value = .ok (.array n element xs) → ∀ item ∈ xs, element.admits item
  failed : ∀ fault, o.value = .error fault → o.state = w.store
  objects : o.state.cells = w.store.cells
  /-- The arrays that there were have the elements that they had. -/
  arrays : w.Has v → ∀ n element xs element' xs', w.Has (.array n element xs) →
    (w.next o.state (handedOut o.value)).Has (.array n element' xs') → element' = element ∧ xs' = xs

/-- What was in a world before an element was replaced and what is there afterwards can be entered in one
ledger. -/
theorem entered_of_rebuild {w : World} (hw : Reachable w) {array : Value} (ha : w.Has array)
    (hview : viewOf array = .ok view) (hv : w.Has v) (index : UInt64) :
    let o := rebuild view index v w.store
    ∃ l l', w.Entered l ∧ l <+: l' ∧ (w.next o.state (handedOut o.value)).Entered l' := by
  obtain ⟨l, hl⟩ := hw.entered
  obtain ⟨l', hprefix, hs, hmade⟩ :=
    preserved_entered.rebuild hl.store index (ha.entered hl) hview (hv.entered hl)
  exact ⟨l, l', hl, hprefix, hl.next hprefix hs (forall_mem_handedOut hmade)⟩

/-- Whatever array of a reachable world, position and value are given, replacing the element fails out of
range only, or with a value that neither fits the array nor covers its other elements; else there is a new
array, and all its elements fit its element type. -/
theorem replaced_element {w : World} (hw : Reachable w) {n : Nat}
    (ha : w.Has (.array n wide items)) (index : UInt64) (v : Value) :
    ∃ view, viewOf (.array n wide items) = .ok view ∧
      Replacement w wide items index v (rebuild view index v w.store) := by
  have hwell := hw.wellTyped
  have hothers : ∀ item ∈ items.eraseIdx index.toNat, wide.admits item := fun item hitem =>
    (ha.wellTyped hwell).admits item (List.mem_of_mem_eraseIdx hitem)
  have hview : viewOf (.array n wide items) = .ok ⟨.array n wide items, items⟩ := rfl
  refine ⟨_, hview, ?_⟩
  have hcases := rebuild_cases w.store ⟨.array n wide items, items⟩ index v
  have hledger (hv : w.Has v) := entered_of_rebuild hw ha hview hv index
  dsimp only [vouchedTy, View.others, View.length] at hcases
  generalize rebuild ⟨.array n wide items, items⟩ index v w.store = o at hcases hledger ⊢
  constructor
  case older => exact fun m element xs h => (h.wellTyped hwell).number_lt
  case arrays =>
    intro hv m element xs element' xs' hold hnew
    obtain ⟨l, l', hl, hprefix, hl'⟩ := hledger hv
    exact hl.array_eq hprefix hl' hold hnew
  -- the other fields say what one of the three cases says, and are void in the others
  all_goals
    obtain ⟨hlt, hfit, hvalue, hstate⟩ | ⟨hlt, hfit, hvalue, hstate⟩ | ⟨hle, hvalue, hstate⟩ := hcases
  case outOfRange.inl | outOfRange.inr.inl => simp [hvalue, hlt]
  case outOfRange.inr.inr => simp [hvalue, hle]
  case succeeds.inl | succeeds.inr.inl => simpa [hvalue, hlt] using hfit
  case wrongType.inl | wrongType.inr.inl => simp [hvalue]
  case succeeds.inr.inr | wrongType.inr.inr => exact fun hlt => absurd hlt (Nat.not_lt.mpr hle)
  case made.inl =>
    intro array harray
    exact Except.ok.inj (harray.symm.trans hvalue)
  case fits.inl =>
    intro m element xs harray
    cases hvalue.symm.trans harray
    exact (admits_tyAmong_iff hlt hfit).mpr (.inr hothers)
  case made.inr.inl | made.inr.inr | fits.inr.inl | fits.inr.inr | failed.inl => simp [hvalue]
  case failed.inr.inl | failed.inr.inr => exact fun _ _ => hstate
  case objects.inl =>
    rw [hstate]
    rfl
  case objects.inr.inl | objects.inr.inr => rw [hstate]

/-- An end of a knot is replaced by the knot itself, of a narrower type than the ends have. -/
theorem end_replaced :
    let root : Value := .object ⟨0, knot⟩
    Reachable tied ∧ tied.Has ends ∧ ∃ view, viewOf ends = .ok view ∧
      Replacement tied .anyObject [root, root] 1 root (rebuild view 1 root tied.store) := by
  have hends : tied.Has ends := .held List.mem_cons_self
  exact ⟨reachable_tied, hends, replaced_element reachable_tied hends 1 _⟩

end Graph

end DeepPath
