import Mathlib.Data.List.Forall2
import DeepPath.Proofs.Graph.Ledger

/-!
# Equality of values

Arrays are equal if they are one array, and also if they have the same content: the same element type, up to
the names of object types, and elements that are equal one by one (`equal_array_iff`).

1. Equality of element types is equality of what is left of them without ancestors (`Ty.same_iff`), and
   equality of numbers is transitive (`Binary64.equal_trans`).
2. The first way to be equal is more than the second one for an array that holds what is no number, and only
   for such an array: nothing else differs from itself (`equal_self_iff`).  This is `arrays_equal_iff`.
3. Equality is symmetric and transitive all the same (`equality_symm_trans`), by induction on the arrays of
   the ledger: values of one number have one content, so that an array may stand for one that it is.
-/

namespace DeepPath

namespace Ty

variable {a b c : Ty}

/-- The type without the ancestors of its object type, of which only the name is left. -/
def byName : Ty → Ty
  | .object type => .object ⟨type.name, []⟩
  | .array element => .array element.byName
  | a => a

/-- Types are the same if they are built alike from object types of the same names. -/
theorem same_iff : a.same b ↔ a.byName = b.byName := by
  induction a generalizing b with
  | array e ih => cases b <;> simp [same, byName, ih]
  | _ => cases b <;> simp [same, byName]

theorem same_symm (h : a.same b) : b.same a :=
  same_iff.mpr (same_iff.mp h).symm

theorem same_trans (hab : a.same b) (hbc : b.same c) : a.same c :=
  same_iff.mpr ((same_iff.mp hab).trans (same_iff.mp hbc))

end Ty

namespace Binary64

variable {x y z : Binary64}

theorem equal_iff : x.equal y ↔
    x.isNaN = false ∧ y.isNaN = false ∧ (x = y ∨ x.isZero ∧ y.isZero) := by
  obtain ⟨xbits⟩ := x
  obtain ⟨ybits⟩ := y
  simp [equal, and_assoc]

theorem equal_trans (hxy : x.equal y) (hyz : y.equal z) : x.equal z := by
  rw [equal_iff] at hxy hyz ⊢
  obtain ⟨hx, -, rfl | ⟨hx0, hy0⟩⟩ := hxy
  · exact hyz
  · obtain ⟨-, hz, rfl | ⟨-, hz0⟩⟩ := hyz
    · exact ⟨hx, hz, .inr ⟨hx0, hy0⟩⟩
    · exact ⟨hx, hz, .inr ⟨hx0, hz0⟩⟩

end Binary64

/-! ## Relations of lists, from relations of their elements -/

section

variable {α : Type} {R : α → α → Prop} {as bs cs : List α}

theorem forall₂_symm_of_mem (hR : ∀ a ∈ as, ∀ b, R a b → R b a) (h : List.Forall₂ R as bs) :
    List.Forall₂ R bs as := by
  induction h with
  | nil => exact .nil
  | cons hab _ ih =>
    obtain ⟨hfirst, hrest⟩ := List.forall_mem_cons.mp hR
    exact .cons (hfirst _ hab) (ih hrest)

theorem forall₂_trans_of_mem (hR : ∀ b ∈ bs, ∀ a ∈ as, ∀ c ∈ cs, R a b → R b c → R a c)
    (h : List.Forall₂ R as bs) (h' : List.Forall₂ R bs cs) : List.Forall₂ R as cs := by
  induction h generalizing cs with
  | nil => exact h'
  | cons hab _ ih =>
    cases h' with
    | cons hbc hrest =>
      refine .cons ?_ (ih (fun b hb a ha c hc => ?_) hrest)
      · exact hR _ List.mem_cons_self _ List.mem_cons_self _ List.mem_cons_self hab hbc
      · exact hR b (List.mem_cons_of_mem _ hb) a (List.mem_cons_of_mem _ ha) c
          (List.mem_cons_of_mem _ hc)

end

/-! ## Equal values -/

namespace Value

variable {u v w : Value} {i j : Nat} {a b : Ty} {xs ys : List Value} {l : Ledger}

/-- The same element type, and elements that are equal one by one. -/
def SameContent (a b : Ty) (xs ys : List Value) : Prop :=
  a.same b ∧ List.Forall₂ (fun x y => x.equal y) xs ys

/-- A floating-point number that is no number. -/
def IsNaN (v : Value) : Prop :=
  ∃ x, v = .float x ∧ x.isNaN

theorem equalItems_iff : equalItems xs ys ↔ List.Forall₂ (fun x y => x.equal y) xs ys := by
  induction xs generalizing ys with
  | nil => cases ys <;> simp [equalItems]
  | cons x xs ih => cases ys <;> simp [equalItems, ih]

theorem equal_array_iff :
    (array i a xs).equal (array j b ys) ↔ i = j ∨ SameContent a b xs ys := by
  simp [equal, SameContent, equalItems_iff]

/-- Only what is no number differs from itself. -/
theorem equal_self_iff : v.equal v ↔ ¬ v.IsNaN := by
  cases v with
  | float x =>
    rw [equal, Binary64.equal_self]
    simp [IsNaN]
  | array i a xs => simp [equal_array_iff, IsNaN]
  | _ => simp [equal, IsNaN]

theorem sameContent_self_iff : SameContent a a xs xs ↔ ¬ ∃ v ∈ xs, v.IsNaN := by
  simp [SameContent, Ty.same_self, List.forall₂_same, equal_self_iff]

/-- Only arrays equal an array. -/
theorem exists_of_equal_array (h : u.equal (array j b ys)) : ∃ i a xs, u = array i a xs := by
  cases u <;> first | exact ⟨_, _, _, rfl⟩ | cases h

theorem exists_of_array_equal (h : (array i a xs).equal v) : ∃ j b ys, v = array j b ys := by
  cases v <;> first | exact ⟨_, _, _, rfl⟩ | cases h

theorem equal_symm_of_items? (hu : u.items? = none) (h : u.equal v) : v.equal u := by
  cases u with
  | array => cases hu
  | float x =>
    cases v with
    | float y => exact (x.equal_comm y).symm.trans h
    | _ => cases h
  | _ => cases v <;> simp_all [equal]

theorem equal_trans_of_items? (hv : v.items? = none) (huv : u.equal v) (hvw : v.equal w) :
    u.equal w := by
  cases v with
  | array => cases hv
  | float y =>
    cases u with
    | float x =>
      cases w with
      | float z => exact Binary64.equal_trans huv hvw
      | _ => cases hvw
    | _ => cases huv
  | _ => cases u <;> cases w <;> simp_all [equal]

namespace Entered

/-- Arrays of one number in a ledger are one array. -/
theorem array_inj (h : (Value.array i a xs).Entered l) (h' : (Value.array i b ys).Entered l) :
    Value.array i a xs = .array i b ys := by
  obtain ⟨rfl, rfl⟩ := Prod.mk.inj (Option.some.inj (h.getElem?.symm.trans h'.getElem?))
  rfl

theorem equal_symm (hu : u.Entered l) (h : u.equal v) : v.equal u := by
  induction hu generalizing v with
  | other hu => exact equal_symm_of_items? hu h
  | array _ _ ih =>
    obtain ⟨j, b, ys, rfl⟩ := exists_of_array_equal h
    rw [equal_array_iff] at h ⊢
    refine h.imp Eq.symm fun ⟨hty, hitems⟩ => ⟨Ty.same_symm hty, ?_⟩
    exact forall₂_symm_of_mem (fun x hx _ => ih x hx) hitems

/-- The induction is on the value in the middle: where it is one array with a neighbour, the other
neighbour equals this one already. -/
theorem equal_trans (hu : u.Entered l) (hv : v.Entered l) (hw : w.Entered l) (huv : u.equal v)
    (hvw : v.equal w) : u.equal w := by
  induction hv generalizing u w with
  | other hv => exact equal_trans_of_items? hv huv hvw
  | array hn hitems ih =>
    have hv := Entered.array hn hitems
    obtain ⟨i, a, xs, rfl⟩ := exists_of_equal_array huv
    obtain ⟨k, c, zs, rfl⟩ := exists_of_array_equal hvw
    obtain rfl | ⟨hab, hxy⟩ := equal_array_iff.mp huv
    · rwa [hu.array_inj hv]
    obtain rfl | ⟨hbc, hyz⟩ := equal_array_iff.mp hvw
    · rwa [← hv.array_inj hw]
    refine equal_array_iff.mpr (.inr ⟨Ty.same_trans hab hbc, ?_⟩)
    exact forall₂_trans_of_mem
      (fun y hy x hx z hz => ih y hy (hu.items x hx) (hw.items z hz)) hxy hyz

end Entered

end Value

/-! ## Values of reachable worlds -/

namespace Graph

open Value

/-- What is no number. -/
def nan : Value :=
  .float ⟨0x7ff8000000000000⟩

/-- An array that holds what is no number. -/
def gap : Value :=
  .array 0 .float [nan]

/-- An array made later with the same elements. -/
def newGap : Value :=
  .array 1 .float [nan]

/-- Arrays around the first one, each made anew. -/
def around (n : Nat) : Value :=
  .array n (.array .float) [gap]

/-- The arrays made, and what they are made of. -/
def gaps : World where
  store := ⟨#[], 5⟩
  held := [around 4, around 3, around 2, newGap, gap, nan]

theorem reachable_gaps : Reachable gaps := by
  have made := @Runs.scalar ⟨{}, []⟩ nan rfl rfl
  refine made.trans (.trans (@Runs.makeArray _ .float [nan] (gap, ⟨#[], 1⟩) ?_ rfl)
    (.trans (@Runs.makeArray _ .float [nan] (newGap, ⟨#[], 2⟩) ?_ rfl)
    (.trans (@Runs.makeArray _ (.array .float) [gap] (around 2, ⟨#[], 3⟩) ?_ rfl)
    (.trans (@Runs.makeArray _ (.array .float) [gap] (around 3, ⟨#[], 4⟩) ?_ rfl)
    (@Runs.makeArray _ (.array .float) [gap] (around 4, ⟨#[], 5⟩) ?_ rfl)))))
  all_goals exact List.forall_mem_singleton.mpr (by simp [World.next])

variable {w : World} {i j : Nat} {a b : Ty} {xs ys : List Value}

/-- Arrays of a reachable world are equal exactly if they are one array or have the same content; and they
are equal exactly if they have the same content, unless they are one array with an element that is no
number. -/
theorem arrays_equal_iff (hw : Reachable w) (ha : w.Has (.array i a xs))
    (hb : w.Has (.array j b ys)) :
    ((Value.array i a xs).equal (.array j b ys) ↔ i = j ∨ SameContent a b xs ys) ∧
    (((Value.array i a xs).equal (.array j b ys) ↔ SameContent a b xs ys) ↔
      ¬ (i = j ∧ ∃ v ∈ xs, v.IsNaN)) := by
  refine ⟨equal_array_iff, ?_⟩
  rw [equal_array_iff]
  by_cases hij : i = j
  · subst hij
    obtain ⟨l, hl⟩ := hw.entered
    obtain ⟨rfl, rfl⟩ := hl.array_eq (List.prefix_refl l) hl ha hb
    rw [sameContent_self_iff]
    simp
  · simp [hij]

/-- An array with what is no number equals itself, and differs from an array made with the same elements. -/
theorem gaps_equal_iff :
    Reachable gaps ∧ gaps.Has gap ∧ gaps.Has newGap ∧
      (gap.equal newGap ↔ 0 = 1 ∨ SameContent .float .float [nan] [nan]) ∧
      ((gap.equal newGap ↔ SameContent .float .float [nan] [nan]) ↔
        ¬ (0 = 1 ∧ ∃ v ∈ [nan], v.IsNaN)) ∧
      ((gap.equal gap ↔ SameContent .float .float [nan] [nan]) ↔
        ¬ (0 = 0 ∧ ∃ v ∈ [nan], v.IsNaN)) := by
  have hgap : gaps.Has gap := .held (by simp [gaps])
  have hnew : gaps.Has newGap := .held (by simp [gaps])
  obtain ⟨hequal, hcontent⟩ := arrays_equal_iff reachable_gaps hgap hnew
  obtain ⟨-, hself⟩ := arrays_equal_iff reachable_gaps hgap hgap
  exact ⟨reachable_gaps, hgap, hnew, hequal, hcontent, hself⟩

/-- The array equals itself though not all its elements equal themselves. -/
theorem gap_equals_itself :
    Reachable gaps ∧ gaps.Has gap ∧ gap.equal gap ∧ ¬ SameContent .float .float [nan] [nan] := by
  refine ⟨reachable_gaps, .held (by simp [gaps]), rfl, fun ⟨_, hitems⟩ => ?_⟩
  cases hitems with
  | cons hnan => exact absurd hnan (by decide)

/-- On the values of a reachable world equality is symmetric and transitive.  Floating-point numbers are
equal as numbers are: what is no number equals nothing, and the two zeros are equal.  So what is no number
differs from itself, as no other value does.  Arrays are equal if they are one array, or if their elements
are equal one by one and the types of these are alike, but for the ancestors of object types, which are
known by their names. -/
theorem equality_symm_trans (hw : Reachable w) :
    (∀ u v, w.Has u → w.Has v → u.equal v → v.equal u) ∧
    (∀ u v x, w.Has u → w.Has v → w.Has x → u.equal v → v.equal x → u.equal x) ∧
    (∀ x y : Binary64, (Value.float x).equal (.float y) ↔
      x.isNaN = false ∧ y.isNaN = false ∧ (x = y ∨ x.isZero ∧ y.isZero)) ∧
    (∀ v : Value, v.equal v ↔ ¬ v.IsNaN) ∧
    ∀ i j a b xs ys, (Value.array i a xs).equal (.array j b ys) ↔
      i = j ∨ a.byName = b.byName ∧ List.Forall₂ (fun x y => x.equal y) xs ys := by
  obtain ⟨l, hl⟩ := hw.entered
  refine ⟨fun u v hu _ h => ?_, fun u v x hu hv hx huv hvx => ?_, fun x y => ?_,
    fun v => equal_self_iff, fun i j a b xs ys => ?_⟩
  · exact (hu.entered hl).equal_symm h
  · exact (hu.entered hl).equal_trans (hv.entered hl) (hx.entered hl) huv hvx
  · rw [equal]
    exact Binary64.equal_iff
  · rw [equal_array_iff, SameContent, Ty.same_iff]

/-- Arrays around one array are equal, whatever this one holds.  But what is no number differs from itself,
and so an array of it from one that is made anew.  The zeros of both signs are equal, and so are arrays
whose element types have one name. -/
theorem around_gap_equal :
    Reachable gaps ∧ (around 2).equal (around 3) ∧ (around 3).equal (around 4) ∧
      (around 2).equal (around 4) ∧ (around 3).equal (around 2) ∧
      gaps.Has nan ∧ ¬ nan.equal nan ∧ gaps.Has gap ∧ gaps.Has newGap ∧ gap.equal gap ∧
      ¬ gap.equal newGap ∧ (Value.float ⟨0⟩).equal (.float ⟨0x8000000000000000⟩) ∧
      (Value.array 5 (.ofObjects cat) []).equal (.array 6 (.ofObjects stray) []) := by
  have hhas {v : Value} (h : v ∈ gaps.held) : gaps.Has v := .held h
  have h2 : gaps.Has (around 2) := hhas (by simp [gaps])
  have h3 : gaps.Has (around 3) := hhas (by simp [gaps])
  have h4 : gaps.Has (around 4) := hhas (by simp [gaps])
  obtain ⟨hsymm, htrans, hfloat, hself, harray⟩ := equality_symm_trans reachable_gaps
  have hnan : ¬ nan.equal nan := mt (hself nan).mp (not_not_intro ⟨_, rfl, by decide⟩)
  have hnew : ¬ gap.equal newGap := by
    intro h
    obtain h | ⟨-, hitems⟩ := (harray _ _ _ _ _ _).mp h
    · cases h
    · cases hitems with
      | cons hfirst => exact hnan hfirst
  refine ⟨reachable_gaps, rfl, rfl, htrans _ _ _ h2 h3 h4 rfl rfl, hsymm _ _ h2 h3 rfl,
    hhas (by simp [gaps]), hnan, hhas (by simp [gaps]), hhas (by simp [gaps]), ?_, hnew, ?_, ?_⟩
  · exact (harray _ _ _ _ _ _).mpr (.inl rfl)
  · exact (hfloat _ _).mpr ⟨by decide, by decide, .inr ⟨by decide, by decide⟩⟩
  · exact (harray _ _ _ _ _ _).mpr (.inr ⟨rfl, .nil⟩)

end Graph

end DeepPath
