import DeepPath.Proofs.Graph.Agreement
import DeepPath.Session.Change

/-!
# Changes as callbacks

A change writes members one after the other and then transforms the leaf.  Where its objects and values
are in the hands of the client, a change is a run of the client (`Change.isRun`), and it does not see what
else there is in the store (`Change.blind`).
-/

namespace DeepPath.Session

open DeepPath.Graph DeepPath.Model

/-- The values that a transformation brings in. -/
def Transform.values {V : Type} : Transform V → List V
  | .const value => [value]
  | .write _ value => [value]
  | _ => []

/-- A change of objects and values that are held. -/
structure Change.Held (c : Change Handle Value) (held : List Value) : Prop where
  writes : ∀ x ∈ c.writes, .object x.1 ∈ held ∧ x.2.2 ∈ held
  values : ∀ v ∈ c.transform.values, v ∈ held

variable {u w : World} {s t : Store} {leaf : Value} {transform : Transform Value}

/-- The first write comes first. -/
theorem effect_apply_cons (write : Handle × String × Value)
    (writes : List (Handle × String × Value)) :
    (Change.apply ⟨write :: writes, transform⟩ leaf s).effect =
      (Change.apply ⟨writes, transform⟩ leaf
        (Graph.write write.1 write.2.1 write.2.2 s).state).effect := by
  simp [Change.apply, Outcome.effect]

/-! ## Changes run -/

theorem runs_transform (hv : ∀ v ∈ transform.values, v ∈ u.held) (hl : leaf ∈ u.held) :
    ∃ held, Runs u ⟨(transform.apply leaf u.store).state, held⟩ ∧
      (transform.apply leaf u.store).value ∈ held := by
  cases transform with
  | keep => exact ⟨_, .refl u, hl⟩
  | const value => exact ⟨_, .refl u, hv value (List.mem_singleton_self _)⟩
  | copy => exact ⟨_, .copy hl, List.mem_cons_self⟩
  | write name value =>
    cases leaf with
    | object h => exact ⟨_, .write name hl (hv value (List.mem_singleton_self _)), hl⟩
    | _ => exact ⟨_, .refl u, hl⟩
  | _ =>
    cases leaf <;> first
      | exact ⟨_, .refl u, hl⟩
      | exact ⟨_, .scalar rfl rfl, List.mem_cons_self⟩

theorem runs_change {c : Change Handle Value} (hc : c.Held u.held) (hl : leaf ∈ u.held) :
    ∃ held, Runs u ⟨(c.apply leaf u.store).state, held⟩ ∧ (c.apply leaf u.store).value ∈ held := by
  obtain ⟨writes, transform⟩ := c
  induction writes generalizing u with
  | nil => exact runs_transform hc.values hl
  | cons write rest ih =>
    obtain ⟨hwrite, hrest⟩ := List.forall_mem_cons.mp hc.writes
    have hstep := Runs.write write.2.1 hwrite.1 hwrite.2
    obtain ⟨held, hruns, hvalue⟩ :=
      ih (u := u.next (Graph.write write.1 write.2.1 write.2.2 u.store).state []) hl
        ⟨hrest, hc.values⟩
    obtain ⟨hv, hs⟩ := Prod.mk.inj (effect_apply_cons write rest)
    rw [hv, hs]
    exact ⟨held, hstep.trans hruns, hvalue⟩

theorem Change.isRun {c : Change Handle Value} (hc : c.Held w.held) (path : Path) (root : Value) :
    IsRun w path root c.apply := by
  intro trail _
  have hheld : c.Held (trail.leaf :: w.held) :=
    ⟨fun x hx => (hc.writes x hx).imp (List.mem_cons_of_mem _) (List.mem_cons_of_mem _),
      fun v hv => List.mem_cons_of_mem _ (hc.values v hv)⟩
  exact runs_change (u := w.next w.store [trail.leaf]) hheld List.mem_cons_self

/-! ## Changes do not see what else there is -/

theorem embeds_write {h : Handle} {v : Value} (e : s.Embeds .id t)
    (hh : (Value.object h).WellTyped s) (name : String) :
    (Graph.write h name v s).state.Embeds .id (Graph.write h name v t).state := by
  rw [write_apply, write_apply]
  cases h.check name v with
  | ok slot =>
    have h := e.write (Store.lt_size_of_typeAt? hh.typeAt?) slot v
    rwa [v.renamed_id] at h
  | error fault => exact e

theorem alongside_transform (e : s.Embeds .id t) (hs : s.WellTyped) (hl : leaf.WellTyped s)
    (transform : Transform Value) :
    Alongside Value.renamed .id s (transform.apply leaf s).effect (transform.apply leaf t).effect := by
  have hstay (v : Value) : Alongside Value.renamed .id s (v, s) (v, t) :=
    ⟨.id, .refl s .id, e, v.renamed_id.symm⟩
  cases transform with
  | keep => exact hstay leaf
  | const value => exact hstay value
  | copy =>
    have h := alongside_copy e hs hl
    rwa [leaf.renamed_id] at h
  | write name value =>
    cases leaf with
    | object h => exact ⟨.id, .refl s .id, embeds_write e hl name, (Value.renamed_id _).symm⟩
    | _ => exact hstay _
  | _ => cases leaf <;> exact hstay _

theorem alongside_change {c : Change Handle Value} (e : s.Embeds .id t) (hs : s.WellTyped)
    (hc : ∀ x ∈ c.writes, (Value.object x.1).WellTyped s ∧ x.2.2.WellTyped s)
    (hl : leaf.WellTyped s) :
    Alongside Value.renamed .id s (c.apply leaf s).effect (c.apply leaf t).effect := by
  obtain ⟨writes, transform⟩ := c
  induction writes generalizing s t with
  | nil => exact alongside_transform e hs hl transform
  | cons write rest ih =>
    obtain ⟨⟨hh, hv⟩, hrest⟩ := List.forall_mem_cons.mp hc
    obtain ⟨hw, g⟩ := wellTyped_of_write hs write.2.1 hh hv
    rw [effect_apply_cons, effect_apply_cons]
    refine .of_agree (.refl s .id) g ?_
    exact ih (embeds_write e hh write.2.1) hw (hl.mono g)
      fun x hx => ⟨(hrest x hx).1.mono g, (hrest x hx).2.mono g⟩

/-- A change of objects and values that are held is a blind callback. -/
theorem Change.blind {c : Change Handle Value} (hw : w.WellTyped) (hc : c.Held w.held) {root : Value}
    (hr : w.Has root) (path : Path) (hk : w.store.Keeps t) (hn : w.store.nextArray ≤ t.nextArray) :
    Blind w.store t path root c.apply := by
  intro trail htrail
  obtain ⟨hleaf, -⟩ := wellTyped_of_trail hw.store (hr.wellTyped hw) htrail
  refine alongside_change (Store.embeds_of_keeps hk hn) hw.store (fun x hx => ?_) hleaf
  obtain ⟨hh, hv⟩ := hc.writes x hx
  exact ⟨hw.held _ hh, hw.held _ hv⟩

end DeepPath.Session
