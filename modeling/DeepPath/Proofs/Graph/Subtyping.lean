import DeepPath.Proofs.Graph.Layout
import DeepPath.Proofs.Graph.Naming

/-!
# The order of types

Types of objects are known by name.  Among types of objects of which, with all their ancestors, no two
have one name, inclusion is a partial order, and so is being a subtype: `subtyping_order`.

1. What one lineage names is a rest of another (`names_suffix`), so that two lineages that name each other
   are one (`eq_of_descendsFrom`).  Types of slots inherit this from the lineages at the bottom of their
   arrays (`eq_of_includes`), as they do from equal names (`eq_of_same`).
2. The lineage of a type of objects names the types of its chain of bases: `descendsFrom_iff_mem_chain`.
-/

namespace DeepPath

/-! ## Lineages -/

section

variable {K : Lineage → Prop} {l m : Lineage} {a b : Ty}

theorem Lineage.Distinct.eq_of_descendsFrom (hK : Lineage.Distinct K) (hl : K l) (hm : K m)
    (hlm : l.descendsFrom m) (hml : m.descendsFrom l) : l = m := by
  have hsuffix := hK.names_suffix hl hm (descendsFrom_iff.mp hlm)
  have hlength := (hK.names_suffix hm hl (descendsFrom_iff.mp hml)).length_le
  have hnames : m.names = l.names := hsuffix.eq_of_length_le hlength
  exact hK.name hl hm (List.cons.inj hnames).1.symm

namespace Ty

theorem Within.mono {L : Lineage → Prop} (h : a.Within K) (hKL : ∀ l, K l → L l) : a.Within L :=
  fun l hl => hKL l (h l hl)

theorem eq_of_includes (hK : Lineage.Distinct K) (ha : a.Within K) (hb : b.Within K)
    (hab : a.includes b) (hba : b.includes a) : a = b := by
  induction a generalizing b with
  | object l =>
    cases b with
    | object m => rw [hK.eq_of_descendsFrom (ha l rfl) (hb m rfl) hba hab]
    | _ => cases hab
  | array e ih =>
    cases b with
    | array f => rw [ih (b := f) ha hb hab hba]
    | _ => cases hab
  | _ =>
    cases b <;>
      first | rfl | exact absurd hab Bool.false_ne_true | exact absurd hba Bool.false_ne_true

theorem eq_of_same (hK : Lineage.Distinct K) (ha : a.Within K) (hb : b.Within K) (h : a.same b) :
    a = b := by
  induction a generalizing b with
  | object l =>
    cases b with
    | object m => rw [hK.name (ha l rfl) (hb m rfl) (beq_iff_eq.mp h)]
    | _ => cases h
  | array e ih =>
    cases b with
    | array f => rw [ih (b := f) ha hb h]
    | _ => cases h
  | _ => cases b <;> first | rfl | cases h

end Ty

end

/-! ## Chains of bases -/

namespace ObjectType

variable {K : ObjectType → Prop} {s t u base : ObjectType} {a b c : Ty}

/-- A type, its base, the base of that, and so on. -/
def chain : ObjectType → List ObjectType
  | .root name own => [.root name own]
  | .extend base name own => .extend base name own :: base.chain

theorem self_mem_chain (t : ObjectType) : t ∈ t.chain := by
  cases t <;> exact List.mem_cons_self

theorem base_mem_chain (hs : s ∈ t.chain) (h : s.base? = some base) : base ∈ t.chain := by
  induction t with
  | root name own =>
    rw [List.mem_singleton.mp hs] at h
    cases h
  | extend next name own ih =>
    rcases List.mem_cons.mp hs with rfl | hs
    · cases h
      exact List.mem_cons_of_mem _ (self_mem_chain _)
    · exact List.mem_cons_of_mem _ (ih hs)

theorem base?_lineage (t : ObjectType) : t.lineage.base? = t.base?.map lineage := by
  cases t <;> rfl

theorem names_lineage (t : ObjectType) : t.lineage.names = t.chain.map name := by
  induction t with
  | root => rfl
  | extend base name own ih => exact congrArg (List.cons name) ih

theorem name_lineage (t : ObjectType) : t.lineage.name = t.name := by
  cases t <;> rfl

/-- A type is a subtype of the types that have the name of one in its chain. -/
theorem descendsFrom_lineage_iff :
    t.lineage.descendsFrom u.lineage ↔ ∃ s ∈ t.chain, s.name = u.name := by
  rw [Lineage.descendsFrom_iff, names_lineage, name_lineage, List.mem_map]

/-- Among some types and all that they extend, types of one name are one type. -/
def NamesDetermine (K : ObjectType → Prop) : Prop :=
  ∀ ⦃t u⦄, K t → K u → ∀ s ∈ t.chain, ∀ r ∈ u.chain, s.name = r.name → s = r

/-- The lineages of some types and of all that they extend. -/
def Lineages (K : ObjectType → Prop) (l : Lineage) : Prop :=
  ∃ t, K t ∧ ∃ s ∈ t.chain, s.lineage = l

/-- A type of slots that is about objects of some types only. -/
def Over (K : ObjectType → Prop) (a : Ty) : Prop :=
  a.Within fun l => ∃ t, K t ∧ t.lineage = l

theorem lineages_of_mem (h : K t) : Lineages K t.lineage :=
  ⟨t, h, t, self_mem_chain t, rfl⟩

theorem Over.within (h : Over K a) : a.Within (Lineages K) :=
  h.mono fun _ ⟨_, ht, hl⟩ => hl ▸ lineages_of_mem ht

theorem over_ofObjects (h : K t) : Over K (.ofObjects t) :=
  .object ⟨t, h, rfl⟩

namespace NamesDetermine

variable (hK : NamesDetermine K)
include hK

theorem eq_of_name (ht : K t) (hu : K u) (h : t.name = u.name) : t = u :=
  hK ht hu t (self_mem_chain t) u (self_mem_chain u) h

theorem distinct : Lineage.Distinct (Lineages K) := by
  constructor
  · rintro _ b ⟨t, ht, s, hs, rfl⟩ hbase
    rw [base?_lineage] at hbase
    obtain ⟨base, hb, rfl⟩ := Option.map_eq_some_iff.mp hbase
    exact ⟨t, ht, base, base_mem_chain hs hb, rfl⟩
  · rintro _ _ ⟨t, ht, s, hs, rfl⟩ ⟨u, hu, r, hr, rfl⟩ hname
    rw [name_lineage, name_lineage] at hname
    rw [hK ht hu s hs r hr hname]

theorem descendsFrom_iff_mem_chain (ht : K t) (hu : K u) :
    t.lineage.descendsFrom u.lineage ↔ u ∈ t.chain := by
  rw [descendsFrom_lineage_iff]
  refine ⟨fun ⟨s, hs, hname⟩ => ?_, fun h => ⟨u, h, rfl⟩⟩
  rwa [← hK ht hu s hs u (self_mem_chain u) hname]

theorem descendsFrom_trans (hs : K s) (ht : K t) (hst : s.lineage.descendsFrom t.lineage)
    (htu : t.lineage.descendsFrom u.lineage) : s.lineage.descendsFrom u.lineage :=
  Ty.includes_trans (a := .ofObjects u) hK.distinct (over_ofObjects ht).within
    (over_ofObjects hs).within htu hst

theorem eq_of_descendsFrom (ht : K t) (hu : K u) (htu : t.lineage.descendsFrom u.lineage)
    (hut : u.lineage.descendsFrom t.lineage) : t = u := by
  have hlineage := hK.distinct.eq_of_descendsFrom (lineages_of_mem ht) (lineages_of_mem hu) htu hut
  refine hK.eq_of_name ht hu ?_
  rw [← name_lineage, hlineage, name_lineage]

theorem includes_antisymm_iff (ha : Over K a) (hb : Over K b) :
    a.includes b ∧ b.includes a ↔ a.same b := by
  constructor
  · rintro ⟨hab, hba⟩
    rw [Ty.eq_of_includes hK.distinct ha.within hb.within hab hba]
    exact b.same_self
  · intro h
    rw [Ty.eq_of_same hK.distinct ha.within hb.within h]
    exact ⟨b.includes_self, b.includes_self⟩

end NamesDetermine

/-- The order of the types that are about some types of objects, where a name stands for one of these and of
all that they extend.  Inclusion is reflexive and transitive, however deep the arrays, and types include
each other exactly if they are the same.  So it is with subtypes, where a type is a subtype of the types in
its chain. -/
theorem subtyping_order (hK : NamesDetermine K) :
    (∀ a : Ty, a.includes a) ∧
    (∀ a b c : Ty, Over K b → Over K c → a.includes b → b.includes c → a.includes c) ∧
    (∀ a b : Ty, Over K a → Over K b → (a.includes b ∧ b.includes a ↔ a.same b)) ∧
    (∀ t : ObjectType, t.lineage.descendsFrom t.lineage) ∧
    (∀ s t u : ObjectType, K s → K t → s.lineage.descendsFrom t.lineage →
      t.lineage.descendsFrom u.lineage → s.lineage.descendsFrom u.lineage) ∧
    (∀ s t, K s → K t → s.lineage.descendsFrom t.lineage → t.lineage.descendsFrom s.lineage →
      s = t) ∧
    ∀ s t, K s → K t → (s.lineage.descendsFrom t.lineage ↔ t ∈ s.chain) :=
  ⟨Ty.includes_self, fun _ _ _ hb hc => Ty.includes_trans hK.distinct hb.within hc.within,
    fun _ _ => hK.includes_antisymm_iff, fun t => t.lineage.descendsFrom_self,
    fun _ _ _ => hK.descendsFrom_trans, fun _ _ => hK.eq_of_descendsFrom,
    fun _ _ => hK.descendsFrom_iff_mem_chain⟩

/-- The names of what they extend matter too: these two types have different names, and each is a subtype of
the other. -/
example :
    let s : ObjectType := .extend (.root "B" []) "A" []
    let t : ObjectType := .extend (.root "A" []) "B" []
    s.lineage.descendsFrom t.lineage ∧ t.lineage.descendsFrom s.lineage := by
  decide

/-- The types of widgets. -/
def IsWidget (t : ObjectType) : Prop :=
  t = widget ∨ t = button

theorem namesDetermine_isWidget : NamesDetermine IsWidget := by
  have hchain : ∀ t, IsWidget t → ∀ s ∈ t.chain, IsWidget s := by
    rintro _ (rfl | rfl) s hs
    · exact .inl (List.mem_singleton.mp hs)
    · rcases List.mem_cons.mp hs with rfl | hs
      · exact .inr rfl
      · exact .inl (List.mem_singleton.mp hs)
  intro t u ht hu s hs r hr hname
  rcases hchain t ht s hs with rfl | rfl <;> rcases hchain u hu r hr with rfl | rfl
  · rfl
  · exact absurd hname (by decide)
  · exact absurd hname (by decide)
  · rfl

theorem widgets_ordered :
    let objects : Ty := .array .anyObject
    let widgets : Ty := .array (.ofObjects widget)
    let buttons : Ty := .array (.ofObjects button)
    NamesDetermine IsWidget ∧ Over IsWidget widgets ∧ Over IsWidget buttons ∧
      objects.includes widgets ∧ widgets.includes buttons ∧ objects.includes buttons ∧
      (widgets.includes buttons ∧ buttons.includes widgets ↔ widgets.same buttons) ∧
      (button.lineage.descendsFrom widget.lineage ↔ widget ∈ button.chain) := by
  intro objects widgets buttons
  obtain ⟨-, htrans, hsame, -, -, -, hchain⟩ := subtyping_order namesDetermine_isWidget
  have hw : Over IsWidget widgets := over_ofObjects (.inl rfl)
  have hb : Over IsWidget buttons := over_ofObjects (.inr rfl)
  exact ⟨namesDetermine_isWidget, hw, hb, rfl, rfl, htrans objects widgets buttons hw hb rfl rfl,
    hsame widgets buttons hw hb, hchain button widget (.inr rfl) (.inl rfl)⟩

end ObjectType

end DeepPath
