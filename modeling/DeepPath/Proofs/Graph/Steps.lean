import DeepPath.Graph.Model
import DeepPath.Model.Update
import DeepPath.Proofs.Graph.Typing

/-!
# Steps over a store

What one step of a walk does to a store of objects.  A step down reads the store and leaves it alone
(`step_apply`); `follow_eq_ok` says where it can lead.  A step up either writes one checked slot, or
makes one array, or fails and leaves the store alone: `puts` lists the cases with their guards, and
every property of an ascent is derived from it.
-/

namespace DeepPath.Graph

variable {s : Store} {v child parent : Value} {step : Step}

/-! ## Down -/

/-- What a step leads to. -/
def follow (s : Store) (v : Value) : Step → Except Fault Value
  | .member name => getMember s v name
  | .element index => (viewOf v).bind fun view => view.get index

theorem getMember_of_some {h : Handle} {name : String} (hget : s.get? h name = some child) :
    getMember s (.object h) name = .ok child := by
  unfold getMember Value.handle?
  rw [Option.bind_some, hget]

theorem getMember_of_none {h : Handle} {name : String} (hget : s.get? h name = none) :
    getMember s (.object h) name = .error (.noMember (Value.object h).typeName) := by
  unfold getMember Value.handle?
  rw [Option.bind_some, hget]

theorem get?_eq_none_of_not_has {h : Handle} {name : String} (hn : h.type.has name = false) :
    s.get? h name = none := by
  rw [ObjectType.has, Option.isSome_eq_false_iff, Option.isNone_iff_eq_none] at hn
  rw [Store.get?, hn]

theorem step_apply (s : Store) (v : Value) (step : Step) :
    model.step v step s = ⟨follow s v step, s, []⟩ := by
  cases step with
  | member name =>
    show (if (v.handle?.map fun handle => handle.type.has name).getD false = true then _ else _ :
      Action Store (Except Fault Value)) s = _
    split
    · rfl
    · next hn =>
      -- the model asks before it reads, but reading fails with the same fault
      show (⟨.error (.noMember v.typeName), s, []⟩ : Outcome Store (Except Fault Value)) = _
      cases v with
      | object h =>
        rw [Bool.not_eq_true] at hn
        rw [follow, getMember_of_none (get?_eq_none_of_not_has hn)]
      | _ => rfl
  | element index =>
    cases v with
    | array id element items => rfl
    | _ => rfl

theorem follow_member {h : Handle} {name : String} (hget : s.get? h name = some child) :
    follow s (.object h) (.member name) = .ok child :=
  getMember_of_some hget

theorem follow_element {id : Nat} {element : Ty} {items : List Value} {index : UInt64}
    (hget : items[index.toNat]? = some child) :
    follow s (.array id element items) (.element index) = .ok child := by
  show View.get ⟨.array id element items, items⟩ index = _
  rw [View.get, hget]

/-- A step leads from an object to what a member holds, or from an array to one of its elements. -/
theorem follow_eq_ok (h : follow s parent step = .ok child) :
    (∃ h name, parent = .object h ∧ step = .member name ∧ s.get? h name = some child) ∨
    (∃ id element items index, parent = .array id element items ∧ step = .element index ∧
      items[index.toNat]? = some child) := by
  cases step with
  | member name =>
    cases parent with
    | object handle =>
      refine .inl ⟨handle, name, rfl, rfl, ?_⟩
      rw [follow] at h
      cases hget : s.get? handle name with
      | none =>
        rw [getMember_of_none hget] at h
        cases h
      | some found =>
        rw [getMember_of_some hget] at h
        cases h
        rfl
    | _ => cases h
  | element index =>
    cases parent with
    | array id element items =>
      refine .inr ⟨id, element, items, index, rfl, rfl, ?_⟩
      change View.get ⟨.array id element items, items⟩ index = _ at h
      rw [View.get] at h
      split at h
      · next hget => cases h; exact hget
      · cases h
    | _ => cases h

theorem wellTyped_of_follow (hs : s.WellTyped) (hv : parent.WellTyped s)
    (h : follow s parent step = .ok child) : child.WellTyped s := by
  obtain ⟨handle, name, rfl, rfl, hget⟩ | ⟨id, element, items, index, rfl, rfl, hget⟩ :=
    follow_eq_ok h
  · obtain ⟨-, -, -, -, hw⟩ := hs.of_get? hv.typeAt? hget
    exact hw
  · exact hv.items _ (List.mem_of_getElem? hget)

/-! ## Up -/

/-- The element type that a new element asks for, where `wide` is the one there was. -/
def elementTy (wide : Ty) (child : Value) : Ty :=
  if child.isNull then wide else child.ty

theorem write_apply (s : Store) (h : Handle) (name : String) (child : Value) :
    write h name child s =
      match h.check name child with
      | .ok slot => ⟨.ok (), s.write h.id slot child, []⟩
      | .error fault => ⟨.error fault, s, []⟩ := by
  unfold write
  rw [Action.bind_apply]
  dsimp only [Action.get_apply, Store.set]
  cases h.check name child <;> rfl

/-- Replacing an element of an array: in turn, the outcomes are a new array of the type that the new
element asks for, one of the type there was, and the two faults. -/
theorem rebuild_apply (s : Store) (view : View Value) (index : UInt64) (child : Value) :
    rebuild view index child s =
      let wide := vouchedTy view
      let items := view.elements.set index.toNat child
      if index.toNat < view.elements.length then
        if items.all (elementTy wide child).admits then
          ⟨.ok (s.newArray (elementTy wide child) items).1,
            (s.newArray (elementTy wide child) items).2, []⟩
        else if wide.admits child then
          ⟨.ok (s.newArray wide items).1, (s.newArray wide items).2,
            [.widened (elementTy wide child).text wide.text]⟩
        else
          ⟨.error (.wrongType wide.text child.typeName), s, []⟩
      else
        ⟨.error (.outOfRange index view.length), s, []⟩ := by
  dsimp only
  unfold rebuild
  by_cases hlt : index.toNat < view.elements.length
  · rw [if_pos hlt, view.replaced_of_lt child hlt]
    dsimp only
    rw [← elementTy]
    by_cases hall : (view.elements.set index.toNat child).all
        (elementTy (vouchedTy view) child).admits = true
    · rw [if_pos hall, if_pos hall]
      rfl
    · rw [if_neg hall, if_neg hall]
      by_cases hwide : (vouchedTy view).admits child = true
      · rw [if_pos hwide, if_pos hwide]
        rfl
      · rw [if_neg hwide, if_neg hwide]
        rfl
  · rw [if_neg hlt, view.replaced_of_le child (Nat.le_of_not_lt hlt)]
    rfl

/-- What comes of putting `child` where a step leads from a value. -/
inductive Puts (s : Store) (child : Value) :
    Value → Step → Outcome Store (Value × Except Fault (Placement Value)) → Prop
  | written {h : Handle} {name : String} {slot : Nat} (hc : h.check name child = .ok slot) :
      Puts s child (.object h) (.member name)
        ⟨(.object h, .ok .written), s.write h.id slot child, []⟩
  | refused {h : Handle} {name : String} {fault : Fault} (hc : h.check name child = .error fault) :
      Puts s child (.object h) (.member name) ⟨(.object h, .error fault), s, []⟩
  | noMember {v : Value} {name : String} (hv : v.handle? = none) :
      Puts s child v (.member name) ⟨(v, .error (.noMember v.typeName)), s, []⟩
  | built {id : Nat} {element : Ty} {items : List Value} {index : UInt64}
      (hlt : index.toNat < items.length)
      (hall : ∀ item ∈ items.set index.toNat child, (elementTy element child).admits item) :
      Puts s child (.array id element items) (.element index)
        ⟨(.array id element items, .ok (.built
          (s.newArray (elementTy element child) (items.set index.toNat child)).1)),
          (s.newArray (elementTy element child) (items.set index.toNat child)).2, []⟩
  | widened {id : Nat} {element : Ty} {items : List Value} {index : UInt64}
      (hlt : index.toNat < items.length) (hwide : element.admits child) :
      Puts s child (.array id element items) (.element index)
        ⟨(.array id element items,
          .ok (.built (s.newArray element (items.set index.toNat child)).1)),
          (s.newArray element (items.set index.toNat child)).2,
          [.widened (elementTy element child).text element.text]⟩
  | unfit {id : Nat} {element : Ty} {items : List Value} {index : UInt64}
      (hlt : index.toNat < items.length) (hno : element.admits child = false) :
      Puts s child (.array id element items) (.element index)
        ⟨(.array id element items, .error (.wrongType element.text child.typeName)), s, []⟩
  | outOfRange {id : Nat} {element : Ty} {items : List Value} {index : UInt64}
      (hle : items.length ≤ index.toNat) :
      Puts s child (.array id element items) (.element index)
        ⟨(.array id element items, .error (.outOfRange index items.length)), s, []⟩
  | noContainer {v : Value} {index : UInt64} (hv : v.items? = none) :
      Puts s child v (.element index) ⟨(v, .error (.noContainer v.typeName)), s, []⟩

theorem put_member_apply (s : Store) (h : Handle) (name : String) (child : Value) :
    model.put (.object h) (.member name) child s =
      ⟨(.object h, (write h name child s).value.map fun _ => .written),
        (write h name child s).state, (write h name child s).log⟩ := by
  show Outcome.mk _ _ ((write h name child s).log ++ [] ++ []) = _
  rw [List.append_nil, List.append_nil]
  rfl

theorem put_element_apply (s : Store) (id : Nat) (element : Ty) (items : List Value)
    (index : UInt64) (child : Value) :
    model.put (.array id element items) (.element index) child s =
      let done := rebuild ⟨.array id element items, items⟩ index child s
      ⟨(.array id element items, done.value.map .built), done.state, done.log⟩ := by
  show Outcome.mk _ _ ((rebuild ⟨.array id element items, items⟩ index child s).log ++ []) = _
  rw [List.append_nil]
  rfl

theorem puts (s : Store) (parent : Value) (step : Step) (child : Value) :
    Puts s child parent step (model.put parent step child s) := by
  cases step with
  | member name =>
    cases parent with
    | object h =>
      rw [put_member_apply, write_apply]
      cases hc : h.check name child with
      | ok slot => exact .written hc
      | error fault => exact .refused hc
    | _ => exact .noMember rfl
  | element index =>
    cases parent with
    | array id element items =>
      rw [put_element_apply, rebuild_apply]
      dsimp only [vouchedTy]
      by_cases hlt : index.toNat < items.length
      · rw [if_pos hlt]
        by_cases hall : (items.set index.toNat child).all (elementTy element child).admits = true
        · rw [if_pos hall]
          exact .built hlt (List.all_eq_true.mp hall)
        · rw [if_neg hall]
          by_cases hwide : element.admits child = true
          · rw [if_pos hwide]
            exact .widened hlt hwide
          · rw [if_neg hwide]
            exact .unfit hlt (Bool.eq_false_iff.mpr hwide)
      · rw [if_neg hlt]
        exact .outOfRange (Nat.le_of_not_lt hlt)
    | _ => exact .noContainer rfl

end DeepPath.Graph
