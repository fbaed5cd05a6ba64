import DeepPath.Graph.ObjectType

/-!
# The layout of objects

A type looks for a name among its own members and then in its base, and numbers its own slots on from
those of the base.  `member_layout` says what this comes to in terms of all members, laid out in order:
the last one of the name is found, in the slot that is its position.

1. The search for the last member of a name can be cut anywhere (`findLast?_append`).  What it finds
   `IsLast` of its name, and only one member is.
2. So a type searches all its members (`find?_eq_findLast?`): `find?_eq_some_iff` and `find?_eq_none_iff`.
3. A slot that is found lies inside the object, and different names never find the same slot.
-/

namespace DeepPath

namespace Member

variable {name : String} {members rest : List Member} {start slot : Nat} {m n : Member}

/-- The member in a slot is the last one of a name. -/
structure IsLast (members : List Member) (name : String) (slot : Nat) (m : Member) : Prop where
  getElem? : members[slot]? = some m
  name_eq : m.name = name
  last : ∀ {later : Nat} {n : Member}, slot < later → members[later]? = some n → n.name ≠ name

theorem IsLast.unique {k : Nat} (h : IsLast members name slot m) (h' : IsLast members name k n) :
    slot = k ∧ m = n := by
  obtain hlt | rfl | hgt := Nat.lt_trichotomy slot k
  · exact absurd h'.name_eq (h.last hlt h'.getElem?)
  · exact ⟨rfl, Option.some.inj (h.getElem?.symm.trans h'.getElem?)⟩
  · exact absurd h.name_eq (h'.last hgt h.getElem?)

theorem IsLast.cons (h : IsLast rest name slot m) (head : Member) :
    IsLast (head :: rest) name (slot + 1) m := by
  refine ⟨h.getElem?, h.name_eq, fun {later n} hlt hn => ?_⟩
  cases later with
  | zero => omega
  | succ later => exact h.last (Nat.lt_of_succ_lt_succ hlt) hn

theorem isLast_head (hm : m.name = name) (hrest : ∀ n ∈ rest, n.name ≠ name) :
    IsLast (m :: rest) name 0 m := by
  refine ⟨rfl, hm, fun {later n} hlt hn => ?_⟩
  cases later with
  | zero => omega
  | succ later => exact hrest n (List.mem_of_getElem? hn)

/-! ## The search -/

theorem findLast?_cons (name : String) (start : Nat) (m : Member) (rest : List Member) :
    findLast? name start (m :: rest) =
      (findLast? name (start + 1) rest).or (if m.name = name then some (start, m) else none) := by
  rw [findLast?]
  cases findLast? name (start + 1) rest <;> rfl

theorem findLast?_append (name : String) (start : Nat) (ms ns : List Member) :
    findLast? name start (ms ++ ns) =
      (findLast? name (start + ms.length) ns).or (findLast? name start ms) := by
  induction ms generalizing start with
  | nil => exact Option.or_none.symm
  | cons m rest ih =>
    rw [List.cons_append, findLast?_cons, findLast?_cons, ih, Option.or_assoc, List.length_cons,
      Nat.add_right_comm, Nat.add_assoc]

theorem findLast?_eq_none_iff :
    findLast? name start members = none ↔ ∀ m ∈ members, m.name ≠ name := by
  induction members generalizing start with
  | nil => exact iff_of_true rfl fun _ h => nomatch h
  | cons m rest ih =>
    rw [findLast?_cons, Option.or_eq_none_iff, ih, List.forall_mem_cons, and_comm]
    refine and_congr_left fun _ => ?_
    split <;> simp_all

theorem isLast_of_findLast? (h : findLast? name start members = some (slot, m)) :
    ∃ k, slot = start + k ∧ IsLast members name k m := by
  induction members generalizing start with
  | nil => cases h
  | cons head rest ih =>
    rw [findLast?_cons, Option.or_eq_some_iff] at h
    rcases h with h | ⟨hnone, h⟩
    · obtain ⟨k, rfl, hk⟩ := ih h
      exact ⟨k + 1, by omega, hk.cons head⟩
    · split at h
      · next hname =>
        cases h
        exact ⟨0, rfl, isLast_head hname (findLast?_eq_none_iff.mp hnone)⟩
      · cases h

theorem findLast?_eq_some_iff :
    findLast? name start members = some (slot, m) ↔
      ∃ k, slot = start + k ∧ IsLast members name k m := by
  refine ⟨isLast_of_findLast?, ?_⟩
  rintro ⟨k, rfl, hk⟩
  cases hfind : findLast? name start members with
  | none => exact absurd hk.name_eq (findLast?_eq_none_iff.mp hfind m (List.mem_of_getElem? hk.getElem?))
  | some hit =>
    obtain ⟨k', hslot, hk'⟩ := isLast_of_findLast? hfind
    obtain ⟨rfl, rfl⟩ := hk.unique hk'
    rw [← hslot]

theorem isLast_iff_findLast? :
    IsLast members name slot m ↔ findLast? name 0 members = some (slot, m) := by
  rw [findLast?_eq_some_iff]
  simp only [Nat.zero_add, exists_eq_left']

end Member

namespace ObjectType

open Member

variable {t base : ObjectType} {name other : String} {slot : Nat} {m n : Member}

/-! ## Types -/

theorem find?_eq_findLast? (t : ObjectType) (name : String) :
    t.find? name = findLast? name 0 t.allMembers := by
  induction t with
  | root type own => rfl
  | extend base type own ih =>
    rw [find?, allMembers, findLast?_append, length_allMembers, Nat.zero_add, ← ih]
    cases findLast? name base.size own <;> rfl

theorem find?_eq_none_iff : t.find? name = none ↔ ∀ m ∈ t.allMembers, m.name ≠ name := by
  rw [find?_eq_findLast?, findLast?_eq_none_iff]

theorem find?_eq_some_iff : t.find? name = some (slot, m) ↔ IsLast t.allMembers name slot m := by
  rw [find?_eq_findLast?, isLast_iff_findLast?]

theorem find?_eq_some (h : t.find? name = some (slot, m)) :
    t.allMembers[slot]? = some m ∧ m.name = name :=
  have hlast := find?_eq_some_iff.mp h
  ⟨hlast.getElem?, hlast.name_eq⟩

theorem find?_slot_lt (h : t.find? name = some (slot, m)) : slot < t.size := by
  rw [← length_allMembers]
  exact (List.getElem?_eq_some_iff.mp (find?_eq_some h).1).1

/-- Different names find different slots. -/
theorem find?_slot_inj (h : t.find? name = some (slot, m)) (h' : t.find? other = some (slot, n)) :
    name = other := by
  obtain ⟨hm, rfl⟩ := find?_eq_some h
  obtain ⟨hn, rfl⟩ := find?_eq_some h'
  rw [Option.some.inj (hm.symm.trans hn)]

/-! ## Bases -/

theorem allMembers_eq_append (h : t.base? = some base) :
    t.allMembers = base.allMembers ++ t.own := by
  cases t with
  | root => cases h
  | extend =>
    cases h
    rfl

/-- A member of the base that no own member hides is found where the base finds it. -/
theorem find?_eq_find?_base (h : t.base? = some base) (hown : ∀ m ∈ t.own, m.name ≠ name) :
    t.find? name = base.find? name := by
  rw [find?_eq_findLast?, allMembers_eq_append h, findLast?_append, findLast?_eq_none_iff.mpr hown,
    Option.none_or, ← find?_eq_findLast?]

/-- How the members of an object are laid out.  There is one slot for each member, those of the base come
first, and a name finds the last member that has it.  So no two names share a slot, and what the base
finds under a name is found in the same slot, unless an own member has the name. -/
theorem member_layout (t : ObjectType) :
    t.allMembers.length = t.size ∧
    (∀ base, t.base? = some base → base.allMembers <+: t.allMembers) ∧
    (∀ name, (t.find? name = none ↔ ∀ m ∈ t.allMembers, m.name ≠ name) ∧
      ∀ slot m, t.find? name = some (slot, m) ↔ IsLast t.allMembers name slot m) ∧
    (∀ name other slot m n, t.find? name = some (slot, m) → t.find? other = some (slot, n) →
      name = other) ∧
    ∀ base name, t.base? = some base → (∀ m ∈ t.own, m.name ≠ name) →
      t.find? name = base.find? name := by
  refine ⟨t.length_allMembers, fun base h => ?_, fun name => ⟨find?_eq_none_iff, fun slot m =>
    find?_eq_some_iff⟩, fun name other slot m n => find?_slot_inj, fun base name => find?_eq_find?_base⟩
  rw [allMembers_eq_append h]
  exact List.prefix_append ..

/-- A type with a hidden member. -/
def widget : ObjectType :=
  .ofDeclarations "Widget" none [⟨"id", .int, .hidden⟩, ⟨"name", .str, .shown⟩]

/-- A type that has the name of an inherited member again, and declares another one twice. -/
def button : ObjectType :=
  .ofDeclarations "Button" (some widget)
    [⟨"caption", .int, .shown⟩, ⟨"name", .int, .hidden⟩, ⟨"caption", .str, .shown⟩]

theorem button_layout :
    button.base? = some widget ∧ (∀ m ∈ button.own, m.name ≠ "id") ∧
      widget.allMembers <+: button.allMembers ∧ button.find? "id" = widget.find? "id" ∧
      IsLast button.allMembers "caption" 2 ⟨"caption", .str, .shown⟩ ∧
      IsLast button.allMembers "name" 3 ⟨"name", .int, .hidden⟩ := by
  obtain ⟨-, hbase, hfind, -, hkept⟩ := member_layout button
  have hown : ∀ m ∈ button.own, m.name ≠ "id" := by decide
  exact ⟨rfl, hown, hbase widget rfl, hkept widget "id" rfl hown, ((hfind "caption").2 2 _).mp rfl,
    ((hfind "name").2 3 _).mp rfl⟩

end ObjectType

end DeepPath
