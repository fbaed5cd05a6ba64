import DeepPath.Proofs.Graph.Fences

/-!
# Copies are isolated

A deep copy and what it was made of share no object.  Whoever works on the one, and only makes it lead to
its own objects and to new ones, cannot be noticed by whoever reads the other.

1. What is read from a value depends on nothing but the objects that it leads to (`read_of_cells`).
2. `Works` lists the operations that may be done on the graph of a value, with the values that they may
   write.  All of them stay on one side of a fence around the objects of another graph (`Works.fences`).
3. A copy leads to new objects only, so that the fence may be put up on either side of it
   (`separate_copy`).

Main statements: what is read from a value stays the same while its copy is worked on, and the other way
round (`isolated_copy`); a client that holds nothing but the copy may even do whatever it likes
(`isolated_from_holder`).
-/

namespace DeepPath.Graph

open Model

variable {P : Nat → Prop} {s t : Store} {a v x : Value} {u w : World} {i : Nat}

/-! ## Reads -/

theorem get?_of_cells {h : Handle} (hc : t.cells[h.id]? = s.cells[h.id]?) (name : String) :
    t.get? h name = s.get? h name := by
  unfold Store.get? Store.slotsAt
  rw [hc]

/-- A step looks at no more than the objects that a value holds directly. -/
theorem follow_of_cells (hc : ∀ i ∈ v.places, t.cells[i]? = s.cells[i]?) (step : Step) :
    follow t v step = follow s v step := by
  cases step with
  | element index => rfl
  | member name =>
    cases v with
    | object h =>
      have hget := get?_of_cells (hc h.id (List.mem_singleton_self _)) name
      show getMember t (.object h) name = getMember s (.object h) name
      cases hs : s.get? h name with
      | none => rw [getMember_of_none hs, getMember_of_none (hget.trans hs)]
      | some child => rw [getMember_of_some hs, getMember_of_some (hget.trans hs)]
    | _ => rfl

theorem readFrom_of_cells (hc : ∀ i, s.Reaches v i → t.cells[i]? = s.cells[i]?) (depth : Nat)
    (steps : List Step) :
    (model.readFrom depth steps v t).value = (model.readFrom depth steps v s).value := by
  induction steps generalizing depth v with
  | nil => rfl
  | cons step rest ih =>
    have hf := follow_of_cells (fun i hi => hc i (.place hi)) step
    cases hs : follow s v step with
    | error fault => rw [readFrom_cons_of_error hs, readFrom_cons_of_error (hf.trans hs)]
    | ok child =>
      rw [readFrom_cons_of_ok hs, readFrom_cons_of_ok (hf.trans hs)]
      exact ih (fun i hi => hc i (.of_follow hs hi)) (depth + 1)

/-- What is read from a value depends on nothing but the objects that it leads to. -/
theorem read_of_cells (hc : ∀ i, s.Reaches v i → t.cells[i]? = s.cells[i]?) (path : Path) :
    (model.read path v t).value = (model.read path v s).value := by
  rw [read_value, read_value]
  exact readFrom_of_cells hc 0 path.steps

/-! ## Work on the graph of a value -/

/-- `x` stands in the graph of `a`, as that was in `s` or as it is in `t`. -/
def InGraph (s : Store) (a : Value) (t : Store) (x : Value) : Prop :=
  ∀ i ∈ x.places, s.Reaches a i ∨ t.Reaches a i

/-- All that `x` leads to is in the graph of `a`, as that was in `s` or as it is in `t`, or newer than
`s`. -/
def Belongs (s : Store) (a : Value) (t : Store) (x : Value) : Prop :=
  ∀ i, t.Reaches x i → s.Reaches a i ∨ t.Reaches a i ∨ s.cells.size ≤ i

/-- Work on the graph that `a` had in `s`: whatever is written to an object of it, returned by a callback or
restored belongs to it.  A callback may work on it, too. -/
inductive Works (s : Store) (a : Value) : World → World → Prop
  | refl (u : World) : Works s a u u
  | trans {u v w : World} : Works s a u v → Works s a v w → Works s a u w
  /-- Anything at all that leaves the objects there are as they are: making new ones, reading, edits whose
  path leads nowhere. -/
  | make {u w : World} (hr : Runs u w) (hk : u.store.Keeps w.store) : Works s a u w
  | write {u : World} {h : Handle} {v : Value} (name : String) (hh : .object h ∈ u.held)
      (hv : v ∈ u.held) (hg : InGraph s a u.store (.object h)) (hb : Belongs s a u.store v) :
      Works s a u (u.next (write h name v u.store).state [])
  | update {u : World} {ε : Type} {path : Path} {change : Value → Action Store (Except ε Value)}
      {root : Value} {trail : Trail Value} {held : List Value} (hr : root ∈ u.held)
      (hg : InGraph s a u.store root) (ht : (model.trail path root u.store).value = .ok trail)
      (hc : Works s a (u.next u.store [trail.leaf]) ⟨(change trail.leaf u.store).state, held⟩)
      (hl : ∀ leaf, (change trail.leaf u.store).value = .ok leaf →
        leaf ∈ held ∧ Belongs s a (change trail.leaf u.store).state leaf) :
      Works s a u ⟨(model.update path change root u.store).state,
        results (model.update path change root u.store).value ++ held⟩
  | undo {u : World} {path : Path} {change : Value → Action Store Value} {root : Value}
      {trail : Trail Value} {held : List Value} (hr : root ∈ u.held) (hg : InGraph s a u.store root)
      (ht : (model.trail path root (u.store.copy root).2).value = .ok trail)
      (hc : Works s a (u.next (u.store.copy root).2 [trail.leaf])
        ⟨(change trail.leaf (u.store.copy root).2).state, held⟩)
      (hl : (change trail.leaf (u.store.copy root).2).value ∈ held)
      (hb : Belongs s a (change trail.leaf (u.store.copy root).2).state
        (change trail.leaf (u.store.copy root).2).value) :
      Works s a u ⟨(modifyOrUndo path change root u.store).state,
        results (modifyOrUndo path change root u.store).value ++ held⟩
  | revert {u : World} {live saved : Handle} (hl : .object live ∈ u.held)
      (hs : .object saved ∈ u.held) (ht : live.type = saved.type)
      (hg : InGraph s a u.store (.object live)) (hb : Belongs s a u.store (.object saved)) :
      Works s a u (u.next (u.store.revert live saved) [])

theorem Works.runs (h : Works s a u w) : Runs u w := by
  induction h with
  | refl u => exact .refl u
  | trans _ _ ih ih' => exact .trans ih ih'
  | make hr _ => exact hr
  | write name hh hv => exact .write name hh hv
  | update hr _ ht _ hl ih => exact .update hr ht ih fun leaf hleaf => (hl leaf hleaf).1
  | undo hr _ ht _ hl _ ih => exact .undo hr ht ih hl
  | revert hl hs ht => exact .revert hl hs ht

theorem inGraph_self (s : Store) (a : Value) (t : Store) : InGraph s a t a :=
  fun _ hi => .inl (.place hi)

theorem belongs_of_places_eq_nil (s : Store) (a : Value) (t : Store) (hx : x.places = []) :
    Belongs s a t x := by
  intro i hr
  obtain ⟨j, hj, -⟩ := hr.exists_place
  rw [hx] at hj
  cases hj

/-- An edit that puts a value that is held in place of the leaf. -/
theorem Works.replace {path : Path} {value root : Value} {trail : Trail Value} (hr : root ∈ u.held)
    (hg : InGraph s a u.store root) (hv : value ∈ u.held) (hb : Belongs s a u.store value)
    (ht : (model.trail path root u.store).value = .ok trail) :
    Works s a u ⟨(model.replace path value root u.store).state,
      results (model.replace path value root u.store).value ++ trail.leaf :: u.held⟩ := by
  refine .update hr hg ht (.refl _) fun leaf hleaf => ?_
  cases hleaf
  exact ⟨List.mem_cons_of_mem _ hv, hb⟩

/-- A scalar may be put wherever the graph leads. -/
theorem Works.replace_scalar {path : Path} {root : Value} {trail : Trail Value} (value : Value)
    (hh : value.handle? = none) (hi : value.items? = none) (hr : root ∈ u.held)
    (hg : InGraph s a u.store root) (ht : (model.trail path root u.store).value = .ok trail) :
    Works s a u ⟨(model.replace path value root u.store).state,
      results (model.replace path value root u.store).value ++ trail.leaf :: value :: u.held⟩ :=
  .trans (.make (.scalar hh hi) (.refl _)) (.replace (List.mem_cons_of_mem _ hr) hg List.mem_cons_self
    (belongs_of_places_eq_nil _ _ _ (Value.places_eq_nil hh hi)) ht)

/-! ## Work stays on its side -/

section

variable (hP : ∀ i, P i → i < s.cells.size) (hs : s.WellTyped) (ha : a.WellTyped s)
  (hside : s.Avoids P a)
include hP hs ha hside

omit hs in
theorem Belongs.avoids (f : Store.Fences P s t) (h : Belongs s a t x) : t.Avoids P x := by
  intro i hr hi
  rcases h i hr with hr | hr | hnew
  · exact hside i hr hi
  · exact f.avoids ha hside i hr hi
  · exact Nat.not_le_of_lt (hP i hi) hnew

omit hP in
theorem InGraph.avoids (f : Store.Fences P s t) (h : InGraph s a t x) : t.Avoids P x := by
  intro i hr
  obtain ⟨j, hj, hobject⟩ := hr.exists_place
  rcases h j hj with hold | hnow
  · -- the object was in the graph, and has led to nothing fenced since then
    obtain ⟨cell, hc⟩ := hold.exists_cell hs ha
    have hw : (Value.object ⟨j, cell.type⟩).WellTyped s :=
      .object (Store.typeAt?_eq_some_iff.mpr ⟨cell, hc, rfl⟩)
    have havoids : s.Avoids P (.object ⟨j, cell.type⟩) :=
      fun k hk => hside k (.of_object_reached hold hk)
    exact f.avoids hw havoids i (hobject _ rfl)
  · exact f.avoids ha hside i (.of_object_reached hnow (hobject ⟨j, node⟩ rfl))

/-- Work on the graph of a value that avoids the fenced objects leaves these alone. -/
theorem Works.fences (h : Works s a u w) (hu : u.WellTyped) (f : Store.Fences P s u.store) :
    Store.Fences P u.store w.store := by
  have K := preserved_fences P
  induction h with
  | refl u => exact .refl P u.store
  | trans h _ ih ih' =>
    have f₁ := ih hu f
    exact f₁.trans (ih' (h.runs.wellTyped hu).1 (f.trans f₁))
  | make hr hk => exact Store.fences_of_keeps hu.store (f.lt_size hP) hk (hr.wellTyped hu).2
  | write name hh hv hg hb =>
    obtain ⟨_, f', rfl, -⟩ := K.write ⟨rfl, hu.store, f.lt_size hP⟩ name
      ⟨hu.held _ hh, hg.avoids hs ha hside f⟩ ⟨hu.held _ hv, hb.avoids hP ha hside f⟩
    exact f'
  | @update u ε path change root trail held hr hg ht hc hl ih =>
    have hroot := hu.held root hr
    have hleaf := (wellTyped_of_trail hu.store hroot ht).1
    have hfound := (hu.next hu.store (.refl _) (List.forall_mem_singleton.mpr hleaf)).1
    have hcalled := (hc.runs.wellTyped hfound).1
    have f₁ := ih hfound f
    obtain ⟨_, f₂, ⟨rfl, -⟩, -⟩ := K.update ⟨rfl, hu.store, f.lt_size hP⟩
      ⟨hroot, hg.avoids hs ha hside f⟩ ht f₁ ⟨rfl, hcalled.store, (f.trans f₁).lt_size hP⟩
      fun leaf hres => ⟨hcalled.held leaf (hl leaf hres).1,
        (hl leaf hres).2.avoids hP ha hside (f.trans f₁)⟩
    exact f₁.trans f₂
  | @undo u path change root trail held hr hg ht hc hl hb ih =>
    have hroot := hu.held root hr
    obtain ⟨_, f₁, ⟨rfl, hcopied, hP₁⟩, hsaved⟩ := K.copy ⟨rfl, hu.store, f.lt_size hP⟩
      ⟨hroot, hg.avoids hs ha hside f⟩
    have hroot₁ := K.mono f₁ ⟨hroot, hg.avoids hs ha hside f⟩
    have hleaf := (wellTyped_of_trail hcopied hroot₁.1 ht).1
    have hfound := (hu.next hcopied f₁.grows (List.forall_mem_singleton.mpr hleaf)).1
    have hcalled := (hc.runs.wellTyped hfound).1
    have f₂ := ih hfound (f.trans f₁)
    have f₃ := (f.trans f₁).trans f₂
    obtain ⟨_, f₄, ⟨rfl, -⟩, -⟩ := K.modifyOrUndo ⟨rfl, hcopied, hP₁⟩ hroot₁ hsaved ht f₂
      ⟨rfl, hcalled.store, f₃.lt_size hP⟩ ⟨hcalled.held _ hl, hb.avoids hP ha hside f₃⟩
    exact f₁.trans (f₂.trans f₄)
  | revert hl hv ht hg hb =>
    obtain ⟨_, f', rfl, -⟩ := K.revert ⟨rfl, hu.store, f.lt_size hP⟩
      ⟨hu.held _ hl, hg.avoids hs ha hside f⟩ ⟨hu.held _ hv, hb.avoids hP ha hside f⟩ ht
    exact f'

end

/-! ## Copies -/

variable {b : Value}

/-- Two values of a well-typed store that share no object. -/
structure Separate (s : Store) (a b : Value) : Prop where
  store : s.WellTyped
  left : a.WellTyped s
  right : b.WellTyped s
  disjoint : ∀ i, s.Reaches a i → ¬ s.Reaches b i

namespace Separate

theorem symm (h : Separate s a b) : Separate s b a :=
  ⟨h.store, h.right, h.left, fun i hb ha => h.disjoint i ha hb⟩

theorem lt_size (h : Separate s a b) : ∀ i, s.Reaches b i → i < s.cells.size :=
  fun _ hi => hi.lt_size h.store h.right

/-- While the graph of one value is worked on, what is read from the other stays. -/
theorem read_eq_of_works (h : Separate s a b) (hu : u.WellTyped) (hstart : u.store = s)
    (hw : Works s a u w) (path : Path) :
    (model.read path b w.store).value = (model.read path b s).value := by
  subst hstart
  have f := hw.fences h.lt_size h.store h.left h.disjoint hu (.refl _ _)
  exact read_of_cells f.cells path

/-- Nor does it matter to what is read from the one what is done by a client that holds the other alone. -/
theorem read_eq_of_runs (h : Separate s a b) (hr : Runs ⟨s, [a]⟩ w) (path : Path) :
    (model.read path b w.store).value = (model.read path b s).value := by
  obtain ⟨_, f, ⟨rfl, -⟩, -⟩ := (preserved_fences (s.Reaches b)).runs hr
    ⟨⟨rfl, h.store, h.lt_size⟩, List.forall_mem_singleton.mpr ⟨h.left, h.disjoint⟩⟩
  exact read_of_cells f.cells path

end Separate

/-- A copy shares no object with what it was made of. -/
theorem separate_copy (hs : s.WellTyped) (hv : v.WellTyped s) :
    Separate (s.copy v).2 (s.copy v).1 v := by
  obtain ⟨hcopied, hcopy⟩ := hs.copy hv
  refine ⟨hcopied, hcopy, hv.mono (s.grows_copy v), fun i hc hr => ?_⟩
  have hold := (hr.of_keeps hs hv (s.keeps_copy v)).lt_size hs hv
  exact avoids_copy (P := fun i => i < s.cells.size) hs (fun _ hi => hi) hv i hc hold

/-- A copy of a value of any reachable world is isolated from it.  While the graph of the copy is worked on,
by operations that fail as well as by others, every path reads the same from the value, an error as well
as a value; and so it does from the copy while the graph of the value is worked on. -/
theorem isolated_copy {w : World} (hw : Reachable w) {v : Value} (hv : w.Has v) :
    let o := copy v w.store
    let u := w.next o.state [o.value, v]
    (∀ u', Works o.state o.value u u' → ∀ path,
      (model.read path v u'.store).value = (model.read path v o.state).value) ∧
    (∀ u', Works o.state v u u' → ∀ path,
      (model.read path o.value u'.store).value = (model.read path o.value o.state).value) := by
  intro o u
  have hwell := hw.wellTyped
  have hseparate := separate_copy hwell.store (hv.wellTyped hwell)
  have hu : u.WellTyped := (hwell.next hseparate.store (w.store.grows_copy v)
    (List.forall_mem_cons.mpr ⟨hseparate.left, List.forall_mem_singleton.mpr hseparate.right⟩)).1
  exact ⟨fun _ h => hseparate.read_eq_of_works hu rfl h,
    fun _ h => hseparate.symm.read_eq_of_works hu rfl h⟩

/-- By way of the link, either of the two gets another number. -/
theorem isolated_copy_in_loop :
    let v : Value := .object ⟨0, node⟩
    let o := copy v loop.store
    let u := loop.next o.state [o.value, v]
    let path : Path := ⟨.member "next", [.member "value"]⟩
    (∃ u', Works o.state o.value u u' ∧ (model.read path o.value u'.store).value = .ok (.int 7) ∧
      (model.read path v u'.store).value = (model.read path v o.state).value) ∧
    (∃ u', Works o.state v u u' ∧ (model.read path v u'.store).value = .ok (.int 7) ∧
      (model.read path o.value u'.store).value = (model.read path o.value o.state).value) := by
  intro v o u path
  have hv : loop.Has v := .held (List.mem_cons_of_mem _ List.mem_cons_self)
  obtain ⟨hcopy, hvalue⟩ := isolated_copy reachable_loop hv
  have hfound : (model.trail path o.value o.state).value =
      .ok ⟨[.object ⟨2, node⟩, .object ⟨2, node⟩], .int 0⟩ := by
    show (model.trail path (copy v loop.store).value (copy v loop.store).state).value = _
    rw [copy_loop]
    rfl
  have hfound' : (model.trail path v o.state).value = .ok ⟨[v, v], .int 0⟩ := by
    show (model.trail path v (copy v loop.store).state).value = _
    rw [copy_loop]
    rfl
  have hwork : Works o.state o.value u _ :=
    .replace_scalar (.int 7) rfl rfl List.mem_cons_self (inGraph_self _ _ _) hfound
  have hwork' : Works o.state v u _ :=
    .replace_scalar (.int 7) rfl rfl (List.mem_cons_of_mem _ List.mem_cons_self) (inGraph_self _ _ _)
      hfound'
  have hstate : (model.replace path (.int 7) o.value o.state).state = loopAndCopy 0 7 := by
    show (model.replace path (.int 7) (copy v loop.store).value (copy v loop.store).state).state = _
    rw [copy_loop]
    rfl
  have hstate' : (model.replace path (.int 7) v o.state).state = loopAndCopy 7 0 := by
    show (model.replace path (.int 7) v (copy v loop.store).state).state = _
    rw [copy_loop]
    rfl
  refine ⟨⟨_, hwork, ?_, hcopy _ hwork path⟩, ⟨_, hwork', ?_, hvalue _ hwork' path⟩⟩
  · show (model.read path (copy v loop.store).value
      (model.replace path (.int 7) o.value o.state).state).value = _
    rw [copy_loop, hstate]
    rfl
  · show (model.read path v (model.replace path (.int 7) v o.state).state).value = _
    rw [hstate']
    rfl

/-- A client that holds nothing but the copy may do whatever it likes without being noticed by whoever reads
the value that was copied; and so may a client that holds nothing but the value. -/
theorem isolated_from_holder {w : World} (hw : Reachable w) {v : Value} (hv : w.Has v) :
    let o := copy v w.store
    (∀ u', Runs ⟨o.state, [o.value]⟩ u' → ∀ path,
      (model.read path v u'.store).value = (model.read path v o.state).value) ∧
    (∀ u', Runs ⟨o.state, [v]⟩ u' → ∀ path,
      (model.read path o.value u'.store).value = (model.read path o.value o.state).value) := by
  intro o
  have hwell := hw.wellTyped
  have hseparate := separate_copy hwell.store (hv.wellTyped hwell)
  exact ⟨fun _ h => hseparate.read_eq_of_runs h, fun _ h => hseparate.symm.read_eq_of_runs h⟩

end DeepPath.Graph
