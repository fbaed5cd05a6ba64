import DeepPath.Graph.Value

/-!
# Types known by name

Types of objects are compared by name, so inclusion of types is not transitive as it stands:
`includes_iff_of_includes` says what has to be added.  Where a name stands for one lineage nothing has
to be: `includes_trans` states it over a set of lineages that is closed under bases and in which names
determine lineages.
-/

namespace DeepPath

/-- The lineage of the base type. -/
def Lineage.base? (l : Lineage) : Option Lineage :=
  match l.ancestors with
  | [] => none
  | name :: ancestors => some ⟨name, ancestors⟩

/-- A set of lineages with the bases of its members, in which a name stands for one lineage. -/
structure Lineage.Distinct (K : Lineage → Prop) : Prop where
  base : ∀ {l b}, K l → l.base? = some b → K b
  name : ∀ {l m}, K l → K m → l.name = m.name → l = m

/-- What a lineage names is, with all its ancestors, the rest of the lineage from there on. -/
theorem Lineage.Distinct.names_suffix {K : Lineage → Prop} (hK : Lineage.Distinct K)
    {l m : Lineage} (hl : K l) (hm : K m) (h : m.name ∈ l.names) : m.names <:+ l.names := by
  obtain ⟨name, ancestors⟩ := l
  induction ancestors generalizing name with
  | nil =>
    rw [names, List.mem_singleton] at h
    obtain rfl := hK.name hm hl h
    exact List.suffix_rfl
  | cons next rest ih =>
    rw [names, List.mem_cons] at h
    rcases h with h | h
    · obtain rfl := hK.name hm hl h
      exact List.suffix_rfl
    · exact (ih next (hK.base hl rfl) h).trans (List.suffix_cons ..)

theorem Lineage.Distinct.names_subset {K : Lineage → Prop} (hK : Lineage.Distinct K)
    {l m : Lineage} (hl : K l) (hm : K m) (h : m.name ∈ l.names) : m.names ⊆ l.names :=
  (hK.names_suffix hl hm h).subset

namespace Ty

/-- The type of objects that a type is about, at the bottom of its arrays. -/
def lineage? : Ty → Option Lineage
  | .object type => some type
  | .array element => element.lineage?
  | _ => none

/-- A type that is about types of objects in `K` only. -/
def Within (K : Lineage → Prop) (a : Ty) : Prop :=
  ∀ l, a.lineage? = some l → K l

variable {K : Lineage → Prop} {a b c : Ty}

theorem Within.object {type : Lineage} (h : K type) : (Ty.object type).Within K := by
  intro l hl
  cases hl
  exact h

/-- A type that is about objects only includes types that are about objects of that name. -/
theorem lineage?_of_includes {l : Lineage} (h : a.includes b) (ha : a.lineage? = some l) :
    ∃ m, b.lineage? = some m ∧ l.name ∈ m.names := by
  induction a generalizing b with
  | object k =>
    cases ha
    cases b with
    | object m => exact ⟨m, rfl, Lineage.descendsFrom_iff.mp h⟩
    | _ => cases h
  | array e ih =>
    cases b with
    | array f => exact ih (b := f) h ha
    | _ => cases h
  | _ => cases ha

/-- Inclusion composes in all but one respect: at the bottom of `c`, the name at the bottom of `a` has to
be found again. -/
theorem includes_iff_of_includes (hab : a.includes b) (hbc : b.includes c) :
    a.includes c ↔ ∀ l n, a.lineage? = some l → c.lineage? = some n → l.name ∈ n.names := by
  constructor
  · intro hac l n hl hn
    obtain ⟨m, hm, hname⟩ := lineage?_of_includes hac hl
    cases hn.symm.trans hm
    exact hname
  intro h
  induction a generalizing b c with
  | any => rfl
  | object l =>
    cases b with
    | object m =>
      cases c with
      | object n => exact Lineage.descendsFrom_iff.mpr (h l n rfl rfl)
      | _ => cases hbc
    | _ => cases hab
  | array e ih =>
    cases b with
    | array f =>
      cases c with
      | array g => exact ih (b := f) (c := g) hab hbc h
      | _ => cases hbc
    | _ => cases hab
  | anyObject =>
    cases b with
    | anyObject | object =>
      cases c with
      | anyObject | object => rfl
      | _ => cases hbc
    | _ => cases hab
  | _ =>
    cases b <;> first | exact hbc | cases hab

theorem includes_trans (hK : Lineage.Distinct K) (hb : b.Within K) (hc : c.Within K)
    (hab : a.includes b) (hbc : b.includes c) : a.includes c := by
  refine (includes_iff_of_includes hab hbc).mpr fun l n hl hn => ?_
  obtain ⟨m, hm, hlm⟩ := lineage?_of_includes hab hl
  obtain ⟨n', hn', hmn⟩ := lineage?_of_includes hbc hm
  cases hn.symm.trans hn'
  -- the one step that needs the names: the ancestors of `m` are ancestors of `n`
  exact hK.names_subset (hc n hn) (hb m hm) hmn hlm

end Ty

/-! ## Types of values -/

theorem Value.eq_null_or (v : Value) : v = .null ∨ v.isNull = false := by
  cases v with
  | null => exact .inl rfl
  | _ => exact .inr rfl

namespace Ty

variable {a : Ty} {v w : Value}

/-- What is not `null` is admitted by the types that include its type. -/
theorem admits_eq_includes (h : v.isNull = false) : a.admits v = a.includes v.ty := by
  cases v with
  | null => cases h
  | _ => cases a <;> rfl

/-- Whether a type admits a value depends only on the type of the value and whether it is `null`. -/
theorem admits_congr (hn : v.isNull = w.isNull) (ht : v.ty = w.ty) : a.admits v = a.admits w := by
  rcases w.eq_null_or with rfl | hw
  · rcases v.eq_null_or with rfl | hv
    · rfl
    · exact absurd (hv.symm.trans hn) Bool.false_ne_true
  · rw [admits_eq_includes (hn.trans hw), admits_eq_includes hw, ht]

end Ty

theorem Value.ty_admits_self (v : Value) : v.ty.admits v := by
  rcases v.eq_null_or with rfl | hnull
  · rfl
  · rw [Ty.admits_eq_includes hnull]
    exact v.ty.includes_self

end DeepPath
