import DeepPath.Proofs.Graph.World

/-!
# Failed edits leave no trace

`failed_edit_leaves_no_trace`: where names of types stand for one type each, a failed edit has written
nothing.

1. A value `Refines` another if it is the same, or an array of a narrower element type.  What admits the
   old value admits the refined one (`Refines.admits`), by transitivity of inclusion.
2. A step that led down to a value takes what its parent `Accepts`, and hands up a refined parent
   (`put_of_accepts`).  A refined value is accepted (`Refines.accepts`), so it is taken (`put_refines`).
3. An ascent writes nothing at all before it writes its first member, and from then on it hands up
   refined values, so that it cannot fail any more (`ascends_writes_nothing`).
-/

namespace DeepPath.Graph

open Model

namespace World

/-- The lineages that a world knows: of its objects, of the elements of its arrays, and their bases. -/
inductive Knows (w : World) : Lineage → Prop
  | object {h : Handle} : w.Has (.object h) → Knows w h.type.lineage
  | element {n : Nat} {element : Ty} {items : List Value} {l : Lineage} :
      w.Has (.array n element items) → element.lineage? = some l → Knows w l
  | base {l b : Lineage} : Knows w l → l.base? = some b → Knows w b

/-- Types of one name are one type. -/
def NamesDetermine (w : World) : Prop :=
  ∀ l m, w.Knows l → w.Knows m → l.name = m.name → l = m

variable {w : World}

theorem NamesDetermine.distinct (h : w.NamesDetermine) : Lineage.Distinct w.Knows :=
  ⟨.base, h _ _⟩

theorem Has.within {v : Value} (h : w.Has v) : v.ty.Within w.Knows := by
  cases v with
  | object handle => exact .object (.object h)
  | array n element items => exact fun l hl => .element h hl
  | _ => exact nofun

end World

variable {s t : Store} {K : Lineage → Prop} {old child parent leaf leaf' root : Value} {step : Step}

/-! ## Refined values -/

/-- The same value, or an array of a narrower element type. -/
inductive Refines (K : Lineage → Prop) : Value → Value → Prop
  | same (v : Value) : Refines K v v
  | array {n n' : Nat} {wide narrow : Ty} {items items' : List Value}
      (hi : wide.includes narrow) (hw : narrow.Within K) :
      Refines K (.array n' narrow items') (.array n wide items)

theorem Refines.within (h : Refines K child old) (ho : old.ty.Within K) : child.ty.Within K := by
  cases h with
  | same => exact ho
  | array _ hw => exact hw

theorem Refines.includes (h : Refines K child old) : old.ty.includes child.ty := by
  cases h with
  | same => exact old.ty.includes_self
  | array hi => exact hi

/-- What admits a value admits the values that refine it. -/
theorem Refines.admits (hK : Lineage.Distinct K) (h : Refines K child old) (ho : old.ty.Within K)
    {a : Ty} (ha : a.admits old) : a.admits child := by
  cases h with
  | same => exact ha
  | array hi hw =>
    rw [Ty.admits_eq_includes rfl] at ha ⊢
    exact Ty.includes_trans hK ho hw ha hi

theorem elementTy_includes {wide : Ty} (h : wide.admits child) :
    wide.includes (elementTy wide child) := by
  unfold elementTy
  cases hn : child.isNull with
  | true =>
    rw [if_pos rfl]
    exact wide.includes_self
  | false =>
    rw [if_neg Bool.false_ne_true, ← Ty.admits_eq_includes hn]
    exact h

theorem elementTy_within {wide : Ty} (hw : wide.Within K) (hc : child.ty.Within K) :
    (elementTy wide child).Within K := by
  unfold elementTy
  split
  · exact hw
  · exact hc

/-- Whether a value that a step starts from takes a new value there: an object by the declared type of
the member, an array by the type of its elements. -/
def Accepts : Value → Step → Value → Prop
  | .object h, .member name, child => ∃ slot m, h.type.find? name = some (slot, m) ∧ m.ty.admits child
  | .array _ wide _, .element _, child => wide.admits child
  | _, _, _ => False

/-- Where a step led down to a value, an accepted value can be put back, and it refines the parent. -/
theorem put_of_accepts (hpK : parent.ty.Within K) (hcK : child.ty.Within K)
    (hf : follow s parent step = .ok old) (ha : Accepts parent step child) (t : Store) :
    ∃ placement, (model.put parent step child t).value.2 = .ok placement ∧
      Refines K (placement.settle (model.put parent step child t).value.1) parent := by
  have ho := puts t parent step child
  generalize model.put parent step child t = o at ho ⊢
  obtain ⟨h, name, rfl, rfl, hget⟩ | ⟨n, wide, items, index, rfl, rfl, hget⟩ := follow_eq_ok hf
  · obtain ⟨slot, m, hfind, hadmits⟩ := ha
    have hcheck := Handle.check_eq_ok.mpr ⟨m, hfind, hadmits⟩
    cases ho with
    | written => exact ⟨.written, rfl, .same _⟩
    | refused hc => cases hcheck.symm.trans hc
    | noMember hv => cases hv
  · change wide.admits child = true at ha
    have hlt := (List.getElem?_eq_some_iff.mp hget).1
    cases ho with
    | built => exact ⟨.built _, rfl, .array (elementTy_includes ha) (elementTy_within hpK hcK)⟩
    | widened => exact ⟨.built _, rfl, .array wide.includes_self hpK⟩
    | unfit _ hno => cases ha.symm.trans hno
    | outOfRange hle => exact absurd hlt (Nat.not_lt.mpr hle)
    | noContainer hv => cases hv

/-- Where a step led down to a value, refined values are accepted. -/
theorem Refines.accepts (hK : Lineage.Distinct K) (hs : s.WellTyped) (hp : parent.WellTyped s)
    (hoK : old.ty.Within K) (hf : follow s parent step = .ok old) (hr : Refines K child old) :
    Accepts parent step child := by
  obtain ⟨h, name, rfl, rfl, hget⟩ | ⟨n, wide, items, index, rfl, rfl, hget⟩ := follow_eq_ok hf
  · -- a member that held the old value
    obtain ⟨slot, m, hfind, ha, -⟩ := hs.of_get? hp.typeAt? hget
    exact ⟨slot, m, hfind, hr.admits hK hoK ha⟩
  · -- an array whose element was the old value
    exact hr.admits hK hoK (hp.admits old (List.mem_of_getElem? hget))

/-- Where a step led down to a value, it takes a refined value back. -/
theorem put_refines (hK : Lineage.Distinct K) (hs : s.WellTyped) (hp : parent.WellTyped s)
    (hpK : parent.ty.Within K) (hoK : old.ty.Within K) (hf : follow s parent step = .ok old)
    (hr : Refines K child old) (t : Store) :
    ∃ placement, (model.put parent step child t).value.2 = .ok placement ∧
      Refines K (placement.settle (model.put parent step child t).value.1) parent :=
  put_of_accepts hpK (hr.within hoK) hf (hr.accepts hK hs hp hoK hf) t

/-! ## Failed edits -/

theorem within_top {chain : List (Step × Value)} (hleaf : leaf.ty.Within K)
    (hc : ∀ link ∈ chain, link.2.WellTyped s ∧ link.2.ty.Within K) : (top leaf chain).ty.Within K :=
  of_top (P := fun v => v.ty.Within K) hleaf fun link hlink => (hc link hlink).2

/-- An ascent that follows linked steps writes nothing, or has a refined value in hand. -/
theorem ascends_writes_nothing (hK : Lineage.Distinct K) (hs : s.WellTyped) {depth : Nat}
    {chain : List (Step × Value)} {o : Outcome Store (Climb Value)}
    (ho : model.Ascends leaf' t depth chain o) (hl : Linked s leaf chain)
    (hleaf : leaf.ty.Within K)
    (hc : ∀ link ∈ chain, link.2.WellTyped s ∧ link.2.ty.Within K) :
    (t.Keeps o.state ∧ o.value.written = 0) ∨
      ∃ child, o.value.result = .ok child ∧ Refines K child (top leaf chain) := by
  induction ho with
  | start => exact .inl ⟨.refl t, rfl⟩
  | stopped _ hf ih =>
    rcases ih hl.2 (List.forall_mem_cons.mp hc).2 with h | ⟨child, hres, -⟩
    · exact .inl h
    · cases hf.symm.trans hres
  | @fails _ step parent child deeper o fault _ hres hp ih =>
    obtain ⟨⟨hparent, hpK⟩, hdeeper⟩ := List.forall_mem_cons.mp hc
    rcases ih hl.2 hdeeper with ⟨hkeeps, hwritten⟩ | ⟨child', hres', href⟩
    · rw [put_of_error hp]
      exact .inl ⟨hkeeps, hwritten⟩
    · cases hres.symm.trans hres'
      have htop := within_top hleaf hdeeper
      obtain ⟨placement, hok, -⟩ := put_refines hK hs hparent hpK htop hl.1 href o.state
      cases hp.symm.trans hok
  | @climbs _ step parent child deeper o placement _ hres hp ih =>
    obtain ⟨⟨hparent, hpK⟩, hdeeper⟩ := List.forall_mem_cons.mp hc
    rcases ih hl.2 hdeeper with ⟨hkeeps, hwritten⟩ | ⟨child', hres', href⟩
    · have ho := puts o.state parent step child
      generalize model.put parent step child o.state = up at ho hp
      cases ho with
      | written =>
        -- the first write: from now on the value in hand is one of those on the way down
        cases hp
        exact .inr ⟨_, rfl, .same _⟩
      | built =>
        cases hp
        exact .inl ⟨hkeeps, hwritten⟩
      | widened =>
        cases hp
        exact .inl ⟨hkeeps, hwritten⟩
      | _ => cases hp
    · cases hres.symm.trans hres'
      have htop := within_top hleaf hdeeper
      obtain ⟨placement', hok, href'⟩ := put_refines hK hs hparent hpK htop hl.1 href o.state
      cases hp.symm.trans hok
      exact .inr ⟨_, rfl, href'⟩

/-- An edit that has left no trace: every object is as it was, a failed ascent reports that no member was
written, and only warnings of the callback are in the log. -/
structure LeavesNoTrace {α ε : Type} (s : Store) (path : Path) (root : Value)
    (change : Value → Action Store α) (o : Outcome Store (Revision Value ε)) : Prop where
  keeps : s.Keeps o.state
  written : ∀ failure, o.value.outcome = .error (.failed failure) → failure.direction = .ascent →
    ∃ log, o.log = log ++ [.ascentFailed path 0 failure]
  warnings : ∀ e ∈ o.log, e.level = .warn →
    ∃ trail, (model.trail path root s).value = .ok trail ∧ e ∈ (change trail.leaf s).log

/-- A failed ascent has written nothing. -/
theorem carry_leaves_no_trace {w : World} (hw : w.WellTyped) (hn : w.NamesDetermine)
    (hroot : w.Has root) {path : Path} {trail : Trail Value}
    (ht : (model.trail path root w.store).value = .ok trail) {failure : Failure}
    (hf : (model.carry path trail leaf root t).value.2 = .error failure) :
    t.Keeps (model.carry path trail leaf root t).state ∧
      ∃ log, (model.carry path trail leaf root t).log = log ++ [.ascentFailed path 0 failure] ∧
        ∀ e ∈ log, e.level ≠ .warn := by
  obtain ⟨-, -, -, hlinked⟩ := linked_of_trail ht
  obtain ⟨-, hchain⟩ := wellTyped_of_trail hw.store (hroot.wellTyped hw) ht
  obtain ⟨hleaf, hhas⟩ := hroot.of_linked hlinked
  obtain ⟨o, failure', root', hasc, hres, h⟩ | ⟨o, placement, root', log, -, -, -, h⟩ :=
    carry_cases model path trail leaf root t
  · rw [h] at hf ⊢
    cases hf
    have hnothing := ascends_writes_nothing hn.distinct hw.store hasc hlinked hleaf.within
      fun link hlink => ⟨hchain link hlink, (hhas link hlink).within⟩
    rcases hnothing with ⟨hkeeps, hwritten⟩ | ⟨child, hchild, -⟩
    · rw [hwritten]
      exact ⟨hkeeps, o.log, rfl, ascends_quiet hasc⟩
    · cases hres.symm.trans hchild
  · rw [h] at hf
    cases hf

theorem update_leaves_no_trace {ε : Type} {w : World} (hw : w.WellTyped) (hn : w.NamesDetermine)
    (hroot : w.Has root) {path : Path} {change : Value → Action Store (Except ε Value)}
    (hspares : Spares w.store path root change) {refusal : Refusal ε}
    (hr : (model.update path change root w.store).value.outcome = .error refusal) :
    LeavesNoTrace w.store path root change (model.update path change root w.store) := by
  have h := updates model path change root w.store
  generalize model.update path change root w.store = o at h hr ⊢
  obtain ⟨found, hfound, hquiet⟩ := trail_eq w.store path root
  cases h with
  | lost ht =>
    rw [hfound] at ht ⊢
    refine ⟨.refl _, ?_, fun e he hwarn => absurd hwarn (hquiet e he)⟩
    intro failure hf hdir
    cases hf
    rw [trailFrom_failure ht] at hdir
    cases hdir
  | @declined trail _ _ reason ht hc =>
    obtain ⟨-, rfl, rfl⟩ := Outcome.mk.inj (hfound.symm.trans ht)
    have hv : (model.trail path root w.store).value = .ok trail := by rw [ht]
    refine ⟨hspares trail hv, ?_, ?_⟩
    · intro failure hf
      cases hf
    · intro e he hwarn
      rcases List.mem_append.mp he with he | he
      · exact absurd hwarn (hquiet e he)
      · exact ⟨trail, hv, he⟩
  | @carried trail _ _ leaf o ht hc ho =>
    obtain ⟨-, rfl, rfl⟩ := Outcome.mk.inj (hfound.symm.trans ht)
    have hv : (model.trail path root w.store).value = .ok trail := by rw [ht]
    subst ho
    cases hres : (model.carry path trail leaf root (change trail.leaf w.store).state).value.2 with
    | ok placement =>
      dsimp only at hr
      rw [hres] at hr
      cases hr
    | error failure =>
      obtain ⟨hkeeps, log, hlog, hup⟩ := carry_leaves_no_trace hw hn hroot hv hres
      rw [hlog]
      refine ⟨(hspares trail hv).trans hkeeps, ?_, ?_⟩
      · intro f hf _
        cases hf
        exact ⟨found ++ ((change trail.leaf w.store).log ++ log), by
          rw [List.append_assoc, List.append_assoc]⟩
      · intro e he hwarn
        rcases List.mem_append.mp he with he | he
        · exact absurd hwarn (hquiet e he)
        rcases List.mem_append.mp he with he | he
        · exact ⟨trail, hv, he⟩
        rcases List.mem_append.mp he with he | he
        · exact absurd hwarn (hup e he)
        · rw [List.mem_singleton.mp he] at hwarn
          cases hwarn

/-- Whatever the root, the path and the callback are: if an edit fails where names of types stand for one
type each, and its callback writes to no object, then every object is as it was, no member is reported as
written, and no warning is given. -/
theorem failed_edit_leaves_no_trace {w : World} (hw : Reachable w) (hn : w.NamesDetermine)
    (hroot : w.Has root) (path : Path) :
    (∀ {ε : Type} (change : Value → Action Store (Except ε Value)) (r : Refusal ε),
      Spares w.store path root change →
      (model.update path change root w.store).value.outcome = .error r →
        LeavesNoTrace w.store path root change (model.update path change root w.store)) ∧
    (∀ (change : Value → Action Store Value) r, Spares w.store path root change →
      (model.modify path change root w.store).value.outcome = .error r →
        LeavesNoTrace w.store path root change (model.modify path change root w.store)) ∧
    ∀ value r, (model.replace path value root w.store).value.outcome = .error r →
      LeavesNoTrace w.store path root (fun _ => (pure value : Action Store Value))
        (model.replace path value root w.store) := by
  have hmodify (change : Value → Action Store Value) (r : Refusal Empty)
      (hspares : Spares w.store path root change)
      (hr : (model.modify path change root w.store).value.outcome = .error r) :
      LeavesNoTrace w.store path root change (model.modify path change root w.store) := by
    obtain ⟨hkeeps, hwritten, hwarn⟩ := update_leaves_no_trace hw.wellTyped hn hroot hspares hr
    refine ⟨hkeeps, hwritten, fun e he hlevel => ?_⟩
    obtain ⟨trail, ht, he⟩ := hwarn e he hlevel
    rcases List.mem_append.mp he with he | he
    · exact ⟨trail, ht, he⟩
    · cases he
  refine ⟨?_, hmodify, ?_⟩
  · intro ε change r hspares hr
    exact update_leaves_no_trace hw.wellTyped hn hroot hspares hr
  · intro value r
    exact hmodify _ r fun _ _ => .refl _

theorem loop_has {v : Value} (h : loop.Has v) :
    v = .int 0 ∨ v = .null ∨ ∃ id, v = .object ⟨id, node⟩ := by
  induction h with
  | held hv =>
    rcases List.mem_cons.mp hv with rfl | hv
    · exact .inr (.inr ⟨1, rfl⟩)
    · rw [List.mem_singleton.mp hv]
      exact .inr (.inr ⟨0, rfl⟩)
  | @slot h v _ hv _ =>
    unfold Store.slotsAt at hv
    split at hv
    · next cell hc =>
      have hcell := Array.mem_of_getElem? hc
      rcases List.mem_cons.mp (Array.mem_toList_iff.mpr hcell) with rfl | hcell
      · rcases List.mem_cons.mp hv with rfl | hv
        · exact .inl rfl
        · rw [List.mem_singleton.mp hv]
          exact .inr (.inr ⟨0, rfl⟩)
      · rw [List.mem_singleton.mp hcell] at hv
        rcases List.mem_cons.mp hv with rfl | hv
        · exact .inl rfl
        · exact .inr (.inl (List.mem_singleton.mp hv))
    · cases hv
  | item _ _ ih => rcases ih with h | h | ⟨id, h⟩ <;> cases h

theorem loop_namesDetermine : loop.NamesDetermine := by
  have hknows (l : Lineage) (h : loop.Knows l) : l = ⟨"Node", []⟩ := by
    induction h with
    | object h =>
      rcases loop_has h with h | h | ⟨id, h⟩ <;> cases h
      rfl
    | element h => rcases loop_has h with h | h | ⟨id, h⟩ <;> cases h
    | base _ hb ih =>
      rw [ih] at hb
      cases hb
  intro l m hl hm _
  rw [hknows l hl, hknows m hm]

theorem failed_edit_in_loop :
    let path : Path := ⟨.member "next", [.member "value"]⟩
    let root : Value := .object ⟨0, node⟩
    let o := model.replace path (.str "x") root loop.store
    o.value.outcome = .error (.failed ⟨.wrongType "int" "str", .member "value", 1, .ascent⟩) ∧
      LeavesNoTrace loop.store path root (fun _ => (pure (.str "x") : Action Store Value)) o := by
  have hroot : loop.Has (.object ⟨0, node⟩) := .held (List.mem_cons_of_mem _ List.mem_cons_self)
  exact ⟨rfl, (failed_edit_leaves_no_trace reachable_loop loop_namesDetermine hroot _).2.2 _ _ rfl⟩

end DeepPath.Graph
