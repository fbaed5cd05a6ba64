import DeepPath.Proofs.Graph.World

/-!
# What inclusion of types promises

A type that includes another should take all that the other takes.  Types of objects are known by name,
so this is so wherever a name stands for one type.  Where it need not, an unrelated type of the name of
the included one is taken by this one and not by the other: `inclusion_sound_iff` says for which types
the promise is kept all the same.

A type takes a value exactly if it includes the type of the value, but for `null`, of which nothing is
known: `acceptance_agrees`.
-/

namespace DeepPath

namespace Ty

variable {a b : Ty} {v : Value} {m n : Lineage}

/-! ## One value -/

/-- The types that take `null` are those of references, and the type of every value. -/
theorem admits_null_iff :
    a.admits .null ↔ a = .any ∨ a = .anyObject ∨ (∃ l, a = .object l) ∨ ∃ e, a = .array e := by
  cases a <;> simp [admits]

theorem admits_null_of_includes (hab : a.includes b) (hb : b.admits .null) : a.admits .null := by
  cases b with
  | any | anyObject | object | array => cases a <;> first | rfl | cases hab
  | _ => cases hb

/-- A type that is about objects only takes values that are about objects of that name. -/
theorem name_mem_of_admits (hb : b.admits v) (hm : b.lineage? = some m)
    (hn : v.ty.lineage? = some n) : m.name ∈ n.names := by
  rcases v.eq_null_or with rfl | hnull
  · cases hn
  · rw [admits_eq_includes hnull] at hb
    obtain ⟨n', hn', hname⟩ := lineage?_of_includes hb hm
    cases hn.symm.trans hn'
    exact hname

/-- A value that the included type takes is taken if its type finds the name at the bottom of `a`
again. -/
theorem admits_iff_of_includes (hab : a.includes b) (hb : b.admits v) :
    a.admits v ↔ ∀ l n, a.lineage? = some l → v.ty.lineage? = some n → l.name ∈ n.names := by
  refine ⟨fun ha l n hl hn => name_mem_of_admits ha hl hn, fun h => ?_⟩
  rcases v.eq_null_or with rfl | hnull
  · exact admits_null_of_includes hab hb
  · rw [admits_eq_includes hnull] at hb ⊢
    exact (includes_iff_of_includes hab hb).mpr h

/-- Where names stand for one type each, the promise is kept. -/
theorem admits_of_includes {K : Lineage → Prop} (hK : Lineage.Distinct K) (hbK : b.Within K)
    (hvK : v.ty.Within K) (hab : a.includes b) (hb : b.admits v) : a.admits v := by
  refine (admits_iff_of_includes hab hb).mpr fun l n hl hn => ?_
  obtain ⟨m, hm, hname⟩ := lineage?_of_includes hab hl
  exact hK.names_subset (hvK n hn) (hbK m hm) (name_mem_of_admits hb hm hn) hname

/-! ## Namesakes -/

/-- The type with an unrelated type of objects, of the same name, at its bottom. -/
def namesake : Ty → Ty
  | .object type => .object ⟨type.name, []⟩
  | .array element => .array element.namesake
  | a => a

theorem includes_namesake (b : Ty) : b.includes b.namesake := by
  induction b with
  | object m => exact Lineage.descendsFrom_iff.mpr (List.mem_cons_self ..)
  | array element ih => exact ih
  | _ => rfl

theorem lineage?_namesake (hb : b.lineage? = some m) :
    b.namesake.lineage? = some ⟨m.name, []⟩ := by
  induction b with
  | object type =>
    cases hb
    rfl
  | array element ih => exact ih hb
  | _ => cases hb

/-- A client can make a value of such a type: an object, or an empty array. -/
theorem exists_reachable_namesake (hb : b.lineage? = some m) :
    ∃ w v, Graph.Reachable w ∧ v ∈ w.held ∧ v.isNull = false ∧ v.ty = b.namesake := by
  cases b with
  | object type => exact ⟨_, _, .create _ (.root type.name []), List.mem_cons_self, rfl, rfl⟩
  | array element =>
    have hmade : Graph.Reachable _ :=
      @Graph.Runs.makeArray _ element.namesake [] _ (fun _ h => nomatch h) rfl
    exact ⟨_, _, hmade, List.mem_cons_self, rfl, rfl⟩
  | _ => cases hb

end Ty

namespace Graph

variable {a b : Ty}

/-! ## All values -/

/-- When a type that includes another takes all that the other takes.  It does so among types of which no
two have one name.  Without this assumption it does so in all reachable worlds if, and only if, the two
types are not about objects of types of different names. -/
theorem inclusion_sound_iff (hab : a.includes b) :
    (∀ K, Lineage.Distinct K → b.Within K → ∀ v : Value, v.ty.Within K → b.admits v →
      a.admits v) ∧
    ((∀ w, Reachable w → ∀ v, w.Has v → b.admits v → a.admits v) ↔
      ∀ l m, a.lineage? = some l → b.lineage? = some m → l.name = m.name) := by
  refine ⟨fun K hK hbK v hvK hb => Ty.admits_of_includes hK hbK hvK hab hb, ?_, ?_⟩
  · -- a namesake of what is at the bottom of `b` has no other name than that
    intro hsound l m hl hm
    obtain ⟨w, v, hw, hheld, hnull, hty⟩ := Ty.exists_reachable_namesake hm
    have hb : b.admits v := by
      rw [Ty.admits_eq_includes hnull, hty]
      exact b.includes_namesake
    have hnames := (Ty.admits_iff_of_includes hab hb).mp (hsound w hw v (.held hheld) hb)
    rw [hty] at hnames
    exact List.mem_singleton.mp (hnames l _ hl (Ty.lineage?_namesake hm))
  · intro hsame w _ v _ hb
    refine (Ty.admits_iff_of_includes hab hb).mpr fun l n hl hn => ?_
    obtain ⟨m, hm, -⟩ := Ty.lineage?_of_includes hab hl
    rw [hsame l m hl hm]
    exact Ty.name_mem_of_admits hb hm hn

/-- Another type with the name of the type of cats, of what is no animal. -/
def otherCat : ObjectType :=
  .root "Cat" []

theorem inclusion_of_cats :
    let a : Ty := .ofObjects animal
    let b : Ty := .ofObjects cat
    a.includes b ∧
      (∀ K, Lineage.Distinct K → b.Within K → ∀ v : Value, v.ty.Within K → b.admits v →
        a.admits v) ∧
      ((∀ w, Reachable w → ∀ v, w.Has v → b.admits v → a.admits v) ↔
        ∀ l m, a.lineage? = some l → b.lineage? = some m → l.name = m.name) :=
  ⟨rfl, inclusion_sound_iff rfl⟩

/-- A slot for animals takes cats, and a slot for cats takes this object, but the slot for animals does
not take it. -/
theorem other_cat_is_no_animal :
    let made : World := ⟨⟨#[⟨otherCat, []⟩], 0⟩, [.object ⟨0, otherCat⟩]⟩
    let v : Value := .object ⟨0, otherCat⟩
    Reachable made ∧ made.Has v ∧ (Ty.ofObjects animal).includes (.ofObjects cat) ∧
      (Ty.ofObjects cat).admits v ∧ (Ty.ofObjects animal).admits v = false :=
  ⟨.create ⟨{}, []⟩ otherCat, .held List.mem_cons_self, rfl, rfl, rfl⟩

/-! ## Values and their types -/

/-- When a type takes a value of a reachable world, where the type of an object is the one that its place
has.  It takes `null` if it is the type of all values, or one of objects or arrays; any other value, if it
includes the type of the value.  So every value is taken by its own type. -/
theorem acceptance_agrees {w : World} (hw : Reachable w) {v : Value} (hv : w.Has v) (a : Ty) :
    (∀ h, v = .object h → w.store.typeAt? h.id = some h.type) ∧
    (v.isNull = false → (a.admits v ↔ a.includes v.ty)) ∧
    (a.admits .null ↔ a = .any ∨ a = .anyObject ∨ (∃ l, a = .object l) ∨ ∃ e, a = .array e) ∧
    v.ty.admits v := by
  refine ⟨?_, fun hnull => ?_, Ty.admits_null_iff, v.ty_admits_self⟩
  · rintro h rfl
    exact (hv.wellTyped hw.wellTyped).typeAt?
  · rw [Ty.admits_eq_includes hnull]

theorem acceptance_of_ends :
    let a : Ty := .array .any
    Reachable tied ∧ tied.Has ends ∧ ends.isNull = false ∧ (a.admits ends ↔ a.includes ends.ty) ∧
      a.admits .null ∧ ends.ty.admits ends := by
  intro a
  have hends : tied.Has ends := .held List.mem_cons_self
  obtain ⟨-, hagree, hnull, hself⟩ := acceptance_agrees reachable_tied hends a
  exact ⟨reachable_tied, hends, rfl, hagree rfl, hnull.mpr (.inr (.inr (.inr ⟨.any, rfl⟩))), hself⟩

end Graph

end DeepPath
