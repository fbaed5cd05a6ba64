import DeepPath.Proofs.Graph.Layout
import Mathlib.Data.List.Induction

/-!
# Declarations of members

The members of a type are declared one after the other, and a name may be declared again.
`declared_members` says what the declarations come to: each name has one member, the names stand in the
order in which they came up first, and the member of a name is the one that was declared last.

1. A declaration leaves the names as they are if its name is among them, and adds its name at the end if it
   is not (`map_name_insert`).  It puts its own member there and keeps the members of other names
   (`mem_insert_iff`).
2. So it keeps what is known of the members that the declarations before it came to (`Settled.insert`), and
   this is known of all declarations (`settled_ofDeclarations`).
3. The position of a name can be looked up among entries that are made once for all (`positions`), where a
   later member replaces the entry of an earlier one.  Such a look-up is the search for the last member of
   the name (`findLast?_eq_bind_positions`), and among members of different names it finds the only one
   (`positions_eq_some_iff`).
-/

namespace DeepPath

theorem eraseDups_concat {α : Type} [BEq α] [LawfulBEq α] (l : List α) (a : α) :
    (l ++ [a]).eraseDups = if a ∈ l then l.eraseDups else l.eraseDups ++ [a] := by
  rw [List.eraseDups_append, List.removeAll]
  split
  · next h => simp [h]
  · next h => simp [h, List.eraseDups_cons]

namespace Member

variable {name : String} {declarations members : List Member} {start slot : Nat} {m n : Member}

/-! ## One declaration -/

theorem map_name_insert (m : Member) (members : List Member) :
    (insert m members).map Member.name =
      if m.name ∈ members.map Member.name then members.map Member.name
      else members.map Member.name ++ [m.name] := by
  induction members with
  | nil => rfl
  | cons other rest ih =>
    unfold insert
    by_cases hname : other.name = m.name
    · simp [hname]
    · have hmem : m.name ∈ (other :: rest).map Member.name ↔ m.name ∈ rest.map Member.name := by
        rw [List.map_cons, List.mem_cons, or_iff_right (Ne.symm hname)]
      rw [if_neg hname, List.map_cons, ih]
      simp only [hmem]
      split <;> rfl

theorem nodup_insert (h : (members.map Member.name).Nodup) (m : Member) :
    ((insert m members).map Member.name).Nodup := by
  rw [map_name_insert]
  split
  · exact h
  · next hm => exact List.nodup_append.mpr ⟨h, List.pairwise_singleton .., by simpa using hm⟩

/-- There is only one member of a name to replace. -/
theorem mem_insert_iff (h : (members.map Member.name).Nodup) :
    n ∈ insert m members ↔ n = m ∨ n ∈ members ∧ n.name ≠ m.name := by
  induction members with
  | nil => simp [insert]
  | cons other rest ih =>
    obtain ⟨hother, hrest⟩ := List.nodup_cons.mp h
    unfold insert
    by_cases hname : other.name = m.name
    · have hne : ∀ k ∈ rest, k.name ≠ m.name := by
        intro k hk hkm
        exact hother (List.mem_map.mpr ⟨k, hk, hkm.trans hname.symm⟩)
      rw [if_pos hname]
      simp only [List.mem_cons]
      grind
    · rw [if_neg hname, List.mem_cons, ih hrest, List.mem_cons]
      grind

/-! ## The last member of a name -/

theorem findLast?_concat (name : String) (members : List Member) (m : Member) :
    findLast? name 0 (members ++ [m]) =
      if m.name = name then some (members.length, m) else findLast? name 0 members := by
  rw [findLast?_append, findLast?_cons, Nat.zero_add]
  split <;> rfl

theorem isLast_concat_iff :
    IsLast (members ++ [m]) name slot n ↔
      if m.name = name then members.length = slot ∧ m = n else IsLast members name slot n := by
  rw [isLast_iff_findLast?, findLast?_concat, isLast_iff_findLast?]
  split
  · rw [Option.some.injEq, Prod.mk.injEq]
  · rfl

/-- Among members of different names each is the last of its name. -/
theorem isLast_iff_of_nodup (h : (members.map Member.name).Nodup) :
    IsLast members name slot m ↔ members[slot]? = some m ∧ m.name = name := by
  refine ⟨fun hlast => ⟨hlast.getElem?, hlast.name_eq⟩, ?_⟩
  rintro ⟨hm, rfl⟩
  refine ⟨hm, rfl, fun {later n} hlt hn hname => ?_⟩
  have hslot : (members.map Member.name)[slot]? = some m.name := by simp [hm]
  have hlater : (members.map Member.name)[later]? = some m.name := by simp [hn, hname]
  have hlength := (List.getElem?_eq_some_iff.mp hslot).1
  have heq := (List.getElem?_inj hlength h).mp (hslot.trans hlater.symm)
  omega

/-! ## All declarations -/

/-- What declarations come to: the declared names, each once and where it came up first, with what was
declared of them last. -/
structure Settled (declarations members : List Member) : Prop where
  nodup : (members.map Member.name).Nodup
  names_eq : members.map Member.name = (declarations.map Member.name).eraseDups
  mem_iff : ∀ m, m ∈ members ↔ ∃ k, IsLast declarations m.name k m

theorem settled_nil : Settled [] [] :=
  ⟨List.nodup_nil, rfl, fun _ => iff_of_false List.not_mem_nil fun ⟨_, hk⟩ => nomatch hk.getElem?⟩

theorem Settled.insert (h : Settled declarations members) (m : Member) :
    Settled (declarations ++ [m]) (insert m members) where
  nodup := nodup_insert h.nodup m
  names_eq := by
    have hmem : m.name ∈ members.map Member.name ↔ m.name ∈ declarations.map Member.name := by
      rw [h.names_eq, List.mem_eraseDups]
    rw [map_name_insert, List.map_append, List.map_singleton, eraseDups_concat, ← h.names_eq]
    simp only [hmem]
  mem_iff := by
    intro n
    rw [mem_insert_iff h.nodup]
    simp only [isLast_concat_iff]
    -- `m` is now the last of its own name, and the last of any other name is what it was
    by_cases hname : m.name = n.name
    · simp only [if_pos hname, exists_eq_left']
      grind
    · simp only [if_neg hname, ← h.mem_iff]
      grind

theorem ofDeclarations_concat (declarations : List Member) (m : Member) :
    ofDeclarations (declarations ++ [m]) = insert m (ofDeclarations declarations) := by
  simp only [ofDeclarations, List.foldl_append, List.foldl_cons, List.foldl_nil]

theorem settled_ofDeclarations (declarations : List Member) :
    Settled declarations (ofDeclarations declarations) := by
  -- induction on the declaration that is made last
  induction declarations using List.reverseRecOn with
  | nil => exact settled_nil
  | append_singleton declarations m ih =>
    rw [ofDeclarations_concat]
    exact ih.insert m

/-! ## Positions -/

/-- The positions of members by name, entered one after the other. -/
def positions (members : List Member) : Std.HashMap String Nat :=
  members.zipIdx.foldl (fun entered (m, position) => entered.insert m.name position) ∅

theorem positions_concat (members : List Member) (m : Member) :
    positions (members ++ [m]) = (positions members).insert m.name members.length := by
  simp [positions, List.zipIdx_append]

/-- Entries find the last member of a name. -/
theorem getElem?_positions (members : List Member) (name : String) :
    (positions members)[name]? = (findLast? name 0 members).map Prod.fst := by
  induction members using List.reverseRecOn with
  | nil => simp [positions, findLast?]
  | append_singleton members m ih =>
    rw [positions_concat, Std.HashMap.getElem?_insert, findLast?_concat, ih]
    by_cases hname : m.name = name <;> simp [hname]

theorem getElem?_positions_eq_some_iff :
    (positions members)[name]? = some slot ↔ ∃ m, IsLast members name slot m := by
  simp [getElem?_positions, isLast_iff_findLast?]

/-- A search that counts from `start` is a look-up of the position and then of the member. -/
theorem findLast?_eq_bind_positions (name : String) (start : Nat) (members : List Member) :
    findLast? name start members =
      (positions members)[name]?.bind fun k => members[k]?.map fun m => (start + k, m) := by
  ext ⟨slot, m⟩
  rw [findLast?_eq_some_iff, Option.bind_eq_some_iff]
  simp only [Option.map_eq_some_iff, Prod.mk.injEq, getElem?_positions_eq_some_iff]
  constructor
  · rintro ⟨k, rfl, hk⟩
    exact ⟨k, ⟨m, hk⟩, m, hk.getElem?, rfl, rfl⟩
  · rintro ⟨k, ⟨n, hk⟩, _, hm, rfl, rfl⟩
    cases hk.getElem?.symm.trans hm
    exact ⟨k, rfl, hk⟩

theorem positions_eq_some_iff (h : (members.map Member.name).Nodup) :
    (positions members)[name]? = some slot ↔ (members.map Member.name)[slot]? = some name := by
  simp only [getElem?_positions_eq_some_iff, isLast_iff_of_nodup h, List.getElem?_map,
    Option.map_eq_some_iff]

end Member

namespace ObjectType

open Member

theorem own_ofDeclarations (type : String) (base? : Option ObjectType) (declarations : List Member) :
    (ofDeclarations type base? declarations).own = Member.ofDeclarations declarations := by
  cases base? <;> rfl

/-- The members of a type that is built by declarations, of any number and in any order.  No two have one
name; the names stand in the order in which they were declared first; and the members are those that were
declared last of their names.  The entries of positions hold these names, each with the position of its
member, and no other names; and the search of a type for a name among its own members, whose slots are
numbered from some `start` on, is a look-up of its entry. -/
theorem declared_members (type : String) (base? : Option ObjectType) (declarations : List Member) :
    let own := (ofDeclarations type base? declarations).own
    (own.map Member.name).Nodup ∧
    own.map Member.name = (declarations.map Member.name).eraseDups ∧
    (∀ m, m ∈ own ↔ ∃ k, IsLast declarations m.name k m) ∧
    (∀ (name : String) (k : Nat), (positions own)[name]? = some k ↔
      (own.map Member.name)[k]? = some name) ∧
    ∀ name start, findLast? name start own =
      (positions own)[name]?.bind fun k => own[k]?.map fun m => (start + k, m) := by
  intro own
  have hown : own = Member.ofDeclarations declarations := own_ofDeclarations type base? declarations
  have hsettled : Settled declarations own := hown ▸ settled_ofDeclarations declarations
  exact ⟨hsettled.nodup, hsettled.names_eq, hsettled.mem_iff,
    fun _ _ => positions_eq_some_iff hsettled.nodup,
    fun name start => findLast?_eq_bind_positions name start own⟩

/-- A name that is declared again keeps its place. -/
example : button.own = [⟨"caption", .str, .shown⟩, ⟨"name", .int, .hidden⟩] := by
  decide

end ObjectType

end DeepPath
