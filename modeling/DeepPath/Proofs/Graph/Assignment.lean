import DeepPath.Proofs.Graph.HandedUp
import DeepPath.Proofs.Graph.World

/-!
# Assigning members

`member_assigned`: when an object takes a value under a name, what is different afterwards, and how it
fails otherwise.

1. The name and the value decide whether a write passes its check, by the last member that has the name:
   `check_of_isLast`, `check_of_no_member`.
2. A write that passes `Assigns` the value: every handle on the object reads it, and nothing else differs,
   since two names never share a slot (`assigns_write`).
-/

namespace DeepPath

open Member

variable {s : Store} {h : Handle} {name : String} {slot : Nat} {m : Member} {v : Value}

/-! ## The check -/

namespace Handle

theorem check_of_isLast (hm : IsLast h.type.allMembers name slot m) (v : Value) :
    h.check name v =
      if m.ty.admits v then .ok slot else .error (.wrongType m.ty.text v.typeName) := by
  rw [check, ObjectType.find?_eq_some_iff.mpr hm]

theorem check_of_no_member (hm : ∀ m ∈ h.type.allMembers, m.name ≠ name) (v : Value) :
    h.check name v = .error (.noMember h.type.name) := by
  rw [check, ObjectType.find?_eq_none_iff.mpr hm]

end Handle

/-! ## The write -/

namespace Store

/-- The store `t` differs from `s` in that an object has another value in the slot of a member. -/
structure Assigns (s t : Store) (h : Handle) (name : String) (slot : Nat) (v : Value) : Prop where
  /-- Every handle on the object reads the value. -/
  reads : ∀ g : Handle, s.typeAt? g.id = some g.type → g.id = h.id → t.get? g name = some v
  /-- Whatever else can be read of this object, and all that can be read of others, is as it was. -/
  others : ∀ (g : Handle) (other : String), s.typeAt? g.id = some g.type →
    g.id ≠ h.id ∨ other ≠ name → t.get? g other = s.get? g other
  /-- All other slots hold what they held, also those of members that no name finds. -/
  slots : ∀ id other : Nat, id ≠ h.id ∨ other ≠ slot →
    (t.slotsAt id)[other]? = (s.slotsAt id)[other]?
  types : ∀ id : Nat, t.typeAt? id = s.typeAt? id

theorem assigns_write (hs : s.WellTyped) (hh : s.typeAt? h.id = some h.type)
    (hc : h.check name v = .ok slot) : s.Assigns (s.write h.id slot v) h name slot v := by
  constructor
  case reads =>
    intro g hg hid
    rw [Handle.eq_of_id hg hh hid]
    exact hs.get?_write_self hh hc
  case others =>
    intro g other hg hne
    refine WellTyped.get?_write_of_ne hh hg hc ?_
    rintro ⟨rfl, rfl⟩
    exact hne.elim (· rfl) (· rfl)
  case slots => exact fun id other hne => getElem?_slotsAt_write_of_ne (lt_size_of_typeAt? hh) hne v
  case types => exact fun id => typeAt?_putSlots s h.id id _

end Store

namespace Graph

/-- What comes of writing a value to an object of a reachable world under a name.  The last member that
has the name decides.  If it takes the value, every handle on the object reads it there, and no other
member and no other slot of any object differs.  If it does not, or there is none, the write fails, says so,
and leaves the store alone. -/
theorem member_assigned {w : World} (hw : Reachable w) {h : Handle}
    (hh : w.store.typeAt? h.id = some h.type) (name : String) (v : Value) :
    let s := w.store
    let o := write h name v s
    (o.value = .ok () ↔ ∃ slot m, IsLast h.type.allMembers name slot m ∧ m.ty.admits v) ∧
    (∀ slot m, IsLast h.type.allMembers name slot m → m.ty.admits v →
      s.Assigns o.state h name slot v) ∧
    (∀ slot m, IsLast h.type.allMembers name slot m → m.ty.admits v = false →
      o = ⟨.error (.wrongType m.ty.text v.typeName), s, []⟩) ∧
    ((∀ m ∈ h.type.allMembers, m.name ≠ name) → o = ⟨.error (.noMember h.type.name), s, []⟩) := by
  intro s o
  have ho : o = _ := write_apply s h name v
  refine ⟨?_, fun slot m hm ha => ?_, fun slot m hm ha => ?_, fun hm => ?_⟩
  · have hcheck : o.value = .ok () ↔ ∃ slot, h.check name v = .ok slot := by
      rw [ho]
      cases h.check name v <;> simp
    simp only [hcheck, Handle.check_eq_ok, ObjectType.find?_eq_some_iff]
  · have hc := Handle.check_of_isLast hm v
    rw [if_pos ha] at hc
    rw [ho, hc]
    exact Store.assigns_write hw.wellTyped.store hh hc
  · rw [ho, Handle.check_of_isLast hm, if_neg (Bool.eq_false_iff.mp ha)]
  · rw [ho, Handle.check_of_no_member hm]

/-- A world of one button. -/
def panel : World where
  store := ⟨#[⟨.button, [.int 0, .str "", .str "", .int 0]⟩], 0⟩
  held := [.object ⟨0, .button⟩]

theorem reachable_panel : Reachable panel :=
  .create _ .button

theorem button_renamed :
    let h : Handle := ⟨0, .button⟩
    let s := panel.store
    let m : Member := ⟨"name", .int, .hidden⟩
    Reachable panel ∧ s.typeAt? h.id = some h.type ∧ IsLast h.type.allMembers "name" 3 m ∧
      m.ty.admits (.int 7) ∧ (write h "name" (.int 7) s).value = .ok () ∧
      s.Assigns (write h "name" (.int 7) s).state h "name" 3 (.int 7) ∧
      write h "name" (.str "OK") s = ⟨.error (.wrongType "int" "str"), s, []⟩ ∧
      write h "size" (.int 7) s = ⟨.error (.noMember "Button"), s, []⟩ := by
  intro h s m
  have hh : s.typeAt? h.id = some h.type := rfl
  have hm : IsLast h.type.allMembers "name" 3 m := ObjectType.find?_eq_some_iff.mp rfl
  obtain ⟨hok, hassigns, -⟩ := member_assigned reachable_panel hh "name" (.int 7)
  obtain ⟨-, -, hmisfit, -⟩ := member_assigned reachable_panel hh "name" (.str "OK")
  obtain ⟨-, -, -, hnone⟩ := member_assigned reachable_panel hh "size" (.int 7)
  exact ⟨reachable_panel, hh, hm, rfl, hok.mpr ⟨3, m, hm, rfl⟩, hassigns 3 m hm rfl,
    hmisfit 3 m hm rfl, hnone (by decide)⟩

end Graph

end DeepPath
