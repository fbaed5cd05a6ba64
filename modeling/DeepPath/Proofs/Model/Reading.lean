import DeepPath.Proofs.Model.Joined
import DeepPath.Tree.Basic

/-!
# Readings and trails

Reading a path and recording its trail are two walks down the same steps.  Over a model whose questions
leave the state alone they tell the same.

1. A trail starts with the value that the walk starts from and has one value more than there are steps
   (`trail_of_descent`); the trail of the first steps is what the whole trail starts with
   (`descent_append_eq_ok`).
2. A walk that fails has done some steps, and fails at the step behind them (`descent_eq_error`); it fails
   in the same way whatever steps follow (`descent_append_of_error`).

Main statement: a reading is the leaf of a trail or the same failure, the trail records what the readings
of all shorter paths find (`Records`), and the failure is at the first step that cannot be done
(`Locates`) (`reading_agrees_with_trail`).
-/

namespace DeepPath

@[simp] theorem Trail.get?_append {V : Type} (t u : Trail V) :
    (t.append u).get? t.parents.length = u.get? 0 := by
  simp [get?, append, values]

namespace Model

variable {σ V : Type} {M : Model σ V}

/-- Asking for the parts of a value leaves the state as it is. -/
structure ReadsQuietly (M : Model σ V) : Prop where
  typeName : ∀ v s, (M.typeName v s).state = s
  hasMember : ∀ v name s, (M.hasMember v name s).state = s
  getMember : ∀ v name s, (M.getMember v name s).state = s
  isContainer : ∀ v s, (M.isContainer v s).state = s
  view : ∀ v s, (M.view v s).state = s

/-- What a trail tells about the readings along its path. -/
structure Records (M : Model σ V) (p : Path) (root : V) (s : σ) (trail : Trail V) : Prop where
  length : trail.length = p.length + 1
  start : trail.get? 0 = some root
  /-- Behind the first steps stands the value that they lead to. -/
  get : ∀ q : Path, q.steps <+: p.steps →
    ∃ v, (M.read q root s).value = .ok v ∧ trail.get? q.length = some v
  beyond : ∀ depth, p.length < depth → trail.get? depth = none

/-- What a failure tells about the readings along a path: it is at the first step that cannot be done. -/
structure Locates (M : Model σ V) (p : Path) (root : V) (s : σ) (failure : Failure) : Prop where
  direction : failure.direction = .descent
  step : p.steps[failure.depth]? = some failure.step
  /-- The steps in front of it lead to a value from which it cannot be done. -/
  fault : ∃ v, (M.readFrom 0 (p.steps.take failure.depth) root s).value = .ok v ∧
    (M.step v failure.step s).value = .error failure.fault
  before : ∀ q : Path, q.steps <+: p.steps → q.length ≤ failure.depth →
    ∃ v, (M.read q root s).value = .ok v
  after : ∀ q : Path, q.steps <+: p.steps → failure.depth < q.length →
    (M.read q root s).value = .error failure
  /-- It makes no difference what steps follow. -/
  beyond : ∀ q : Path, (M.read (p ++ q) root s).value = .error failure

/-! ## Quiet walks -/

namespace ReadsQuietly

variable (h : M.ReadsQuietly)
include h

theorem state_step (v : V) (step : Step) (s : σ) : (M.step v step s).state = s := by
  cases step with
  | member name =>
    rw [Model.step, Action.state_bind, h.hasMember]
    split
    · exact h.getMember v name s
    · exact h.typeName v s
  | element index =>
    rw [Model.step, Action.state_bind, h.isContainer]
    split
    · exact h.view v s
    · exact h.typeName v s

theorem state_descent (depth : Nat) (steps : List Step) (v : V) (s : σ) :
    (M.descent depth steps v s).2 = s := by
  induction steps generalizing depth v with
  | nil => rfl
  | cons step rest ih =>
    cases hstep : (M.step v step s).value with
    | error fault =>
      rw [descent_cons_of_error hstep]
      exact h.state_step v step s
    | ok next =>
      rw [descent_cons_of_ok hstep, h.state_step]
      exact ih (depth + 1) next

end ReadsQuietly

/-! ## Walks down -/

section

variable {depth : Nat} {a b steps : List Step} {v root : V} {s t : σ} {trail : Trail V}
  {failure : Failure} {p q : Path}

theorem trail_of_descent (h : M.descent depth steps v s = (.ok trail, t)) :
    trail.get? 0 = some v ∧ trail.parents.length = steps.length := by
  cases steps with
  | nil =>
    cases h
    exact ⟨rfl, rfl⟩
  | cons step rest =>
    obtain ⟨parents, hparents, hlen⟩ := parents_of_descent h
    rw [Trail.get?, Trail.values, hparents]
    exact ⟨rfl, congrArg Nat.succ hlen⟩

/-- A walk along joined steps gets to the end of the first ones, and from there along the others. -/
theorem descent_append_eq_ok (h : M.descent depth (a ++ b) v s = (.ok trail, t)) :
    ∃ first u, M.descent depth a v s = (.ok first, u) ∧
      ∃ second, M.descent (depth + a.length) b first.leaf u = (.ok second, t) ∧
        trail = first.append second := by
  rw [descent_append] at h
  rcases ha : M.descent depth a v s with ⟨failure | first, u⟩ <;> rw [ha] at h
  · cases h
  · dsimp only at h
    rcases hb : M.descent (depth + a.length) b first.leaf u with ⟨failure | second, w⟩ <;>
      rw [hb] at h <;> cases h
    exact ⟨first, u, rfl, second, hb, rfl⟩

theorem descent_append_of_error (h : M.descent depth a v s = (.error failure, t)) (b : List Step) :
    M.descent depth (a ++ b) v s = (.error failure, t) := by
  rw [descent_append, h]

/-- A walk that fails has done the steps in front of the one that it fails at. -/
theorem descent_eq_error (h : M.descent depth steps v s = (.error failure, t)) :
    ∃ a step b found u, steps = a ++ step :: b ∧ M.descent depth a v s = (.ok found, u) ∧
      ∃ fault, (M.step found.leaf step u).value = .error fault ∧
        failure = ⟨fault, step, depth + a.length, .descent⟩ := by
  induction steps generalizing depth v s with
  | nil => cases h
  | cons step rest ih =>
    cases hstep : (M.step v step s).value with
    | error fault =>
      rw [descent_cons_of_error hstep] at h
      cases h
      exact ⟨[], step, rest, ⟨[], v⟩, s, rfl, rfl, fault, hstep, rfl⟩
    | ok next =>
      rw [descent_cons_of_ok hstep] at h
      rcases hrest : M.descent (depth + 1) rest next (M.step v step s).state with
        ⟨failure' | found, u⟩ <;> rw [hrest] at h <;> cases h
      obtain ⟨a, step', b, found, u, rfl, ha, fault, hfault, rfl⟩ := ih hrest
      refine ⟨step :: a, step', b, found.after v, u, rfl, ?_, fault, hfault, ?_⟩
      · rw [descent_cons_of_ok hstep, ha]
        rfl
      · rw [List.length_cons, Nat.add_assoc, Nat.add_comm 1]

/-! ## Readings and trails -/

theorem value_readFrom (M : Model σ V) (depth : Nat) (steps : List Step) (v : V) (s : σ) :
    (M.readFrom depth steps v s).value = (M.descent depth steps v s).1.map Trail.leaf :=
  congrArg Prod.fst (M.effect_readFrom depth steps v s)

theorem value_read (M : Model σ V) (p : Path) (root : V) (s : σ) :
    (M.read p root s).value = (M.descent 0 p.steps root s).1.map Trail.leaf :=
  (M.read_value p root s).trans (M.value_readFrom 0 p.steps root s)

theorem value_trail (M : Model σ V) (p : Path) (root : V) (s : σ) :
    (M.trail p root s).value = (M.descent 0 p.steps root s).1 :=
  congrArg Prod.fst effect_trail

theorem value_read_of_ok (h : M.descent 0 p.steps root s = (.ok trail, t)) :
    (M.read p root s).value = .ok trail.leaf := by
  rw [value_read, h]
  rfl

theorem value_read_of_error (h : M.descent 0 p.steps root s = (.error failure, t)) :
    (M.read p root s).value = .error failure := by
  rw [value_read, h]
  rfl

theorem records_of_descent (h : M.descent 0 p.steps root s = (.ok trail, t)) :
    Records M p root s trail := by
  obtain ⟨hroot, hlen⟩ := trail_of_descent h
  have hlength : trail.length = p.length + 1 := congrArg Nat.succ hlen
  refine ⟨hlength, hroot, ?_, ?_⟩
  · rintro q ⟨b, hp⟩
    rw [← hp] at h
    obtain ⟨first, u, hq, second, hb, rfl⟩ := descent_append_eq_ok h
    refine ⟨first.leaf, value_read_of_ok hq, ?_⟩
    rw [← Path.length_steps, ← (trail_of_descent hq).2, Trail.get?_append]
    exact (trail_of_descent hb).1
  · intro depth hdepth
    rw [Trail.get?, List.getElem?_eq_none_iff, Trail.length_values, hlength]
    exact hdepth

theorem ReadsQuietly.locates_of_descent (hM : M.ReadsQuietly)
    (h : M.descent 0 p.steps root s = (.error failure, t)) : Locates M p root s failure := by
  obtain ⟨a, step, b, found, u, hsteps, ha, fault, hfault, rfl⟩ := descent_eq_error h
  obtain rfl : s = u := by
    rw [← hM.state_descent 0 a root s, ha]
  rw [Nat.zero_add] at h ⊢
  have hfirst : M.descent 0 (a ++ [step]) root s =
      (.error ⟨fault, step, a.length, .descent⟩, (M.step found.leaf step s).state) := by
    rw [descent_append, ha]
    dsimp only
    rw [descent_cons_of_error hfault, Nat.zero_add]
    rfl
  constructor
  case direction => rfl
  case step => simp [hsteps]
  case fault =>
    refine ⟨found.leaf, ?_, hfault⟩
    rw [hsteps, List.take_left, value_readFrom, ha]
    rfl
  case before =>
    intro q hq hlen
    -- the steps of `q` are among those that have been done
    obtain ⟨c, rfl⟩ : q.steps <+: a :=
      List.prefix_of_prefix_length_le hq ⟨step :: b, hsteps.symm⟩ hlen
    obtain ⟨first, _, hfound, -⟩ := descent_append_eq_ok ha
    exact ⟨first.leaf, value_read_of_ok hfound⟩
  case after =>
    intro q hq hlen
    have hprefix : a ++ [step] <+: p.steps := ⟨b, by rw [hsteps, List.append_assoc]; rfl⟩
    obtain ⟨c, hc⟩ : a ++ [step] <+: q.steps :=
      List.prefix_of_prefix_length_le hprefix hq (by simpa using Nat.succ_le_of_lt hlen)
    have hfail := descent_append_of_error hfirst c
    rw [hc] at hfail
    exact value_read_of_error hfail
  case beyond =>
    intro q
    exact value_read_of_error (descent_append_of_error h q.steps)

/-- What a further path finds, it finds behind a path that has been read. -/
theorem ReadsQuietly.read_append (hM : M.ReadsQuietly) (h : (M.read p root s).value = .ok v)
    (q : Path) :
    (M.read (p ++ q) root s).value = (M.read q v s).value.mapError (.below p.length) := by
  rcases hp : M.descent 0 p.steps root s with ⟨failure | trail, t⟩
  · rw [value_read_of_error hp] at h
    cases h
  · rw [value_read_of_ok hp] at h
    cases h
    obtain rfl : s = t := by
      rw [← hM.state_descent 0 p.steps root s, hp]
    rw [value_read, value_read, Path.steps_append, descent_append, hp]
    dsimp only
    rw [Path.length_steps, Nat.add_comm 0, descent_add]
    rcases M.descent 0 q.steps trail.leaf s with ⟨failure | second, u⟩ <;> rfl

end

/-- Over a model that reads quietly, a path is read exactly if its trail can be recorded, as the leaf of the
trail, and otherwise both fail alike.  The trail holds what all shorter paths lead to, and a failure is at
the first step that cannot be done, whatever steps follow.  Behind a path that can be read, a further path
leads to what it leads to from there; a failure is as much deeper as the first path is long. -/
theorem reading_agrees_with_trail (hM : M.ReadsQuietly) (p : Path) (root : V) (s : σ) :
    (M.read p root s).value = (M.trail p root s).value.map Trail.leaf ∧
    (∀ trail, (M.trail p root s).value = .ok trail → Records M p root s trail) ∧
    (∀ failure, (M.read p root s).value = .error failure → Locates M p root s failure) ∧
    ∀ v, (M.read p root s).value = .ok v → ∀ q : Path,
      (M.read (p ++ q) root s).value = (M.read q v s).value.mapError (.below p.length) := by
  refine ⟨?_, fun trail htrail => ?_, fun failure hfail => ?_, fun v hv q => hM.read_append hv q⟩
  · rw [value_read, value_trail]
  · refine records_of_descent (t := (M.descent 0 p.steps root s).2) (Prod.ext ?_ rfl)
    rw [← value_trail, htrail]
  · rcases hp : M.descent 0 p.steps root s with ⟨failure' | trail, t⟩
    · rw [value_read_of_error hp] at hfail
      cases hfail
      exact hM.locates_of_descent hp
    · rw [value_read_of_ok hp] at hfail
      cases hfail

end Model

namespace Tree

open Model

theorem model_readsQuietly {σ : Type} : (model : Model σ Tree).ReadsQuietly :=
  ⟨fun _ _ => rfl, fun _ _ _ => rfl, fun _ _ _ => rfl, fun _ _ => rfl, fun _ _ => rfl⟩

/-- An item with a label. -/
def item (label : String) : Tree :=
  .record "Item" [("label", .text label)]

/-- Two items in a record. -/
def inventory : Tree :=
  .record "Inventory" [("items", .tuple [item "a", item "b"]), ("count", .int 2)]

theorem reading_agrees_in_inventory :
    let M : Model Unit Tree := model
    let second : Path := ⟨.member "items", [.element 1]⟩
    let label : Path := ⟨.member "label", []⟩
    let missing : Path := ⟨.member "items", [.element 5, .member "label"]⟩
    let failure : Failure := ⟨.outOfRange 5 2, .element 5, 1, .descent⟩
    M.ReadsQuietly ∧
    (∃ trail, (M.trail second inventory ()).value = .ok trail ∧
      Records M second inventory () trail) ∧
    (M.read missing inventory ()).value = .error failure ∧
      Locates M missing inventory () failure ∧
    (M.read second inventory ()).value = .ok (item "b") ∧
      (M.read (second ++ label) inventory ()).value =
        (M.read label (item "b") ()).value.mapError (.below 2) := by
  intro M second label missing failure
  have hM : M.ReadsQuietly := model_readsQuietly
  obtain ⟨-, hrecords, -, happend⟩ := reading_agrees_with_trail hM second inventory ()
  obtain ⟨-, -, hlocates, -⟩ := reading_agrees_with_trail hM missing inventory ()
  exact ⟨hM, ⟨_, rfl, hrecords _ rfl⟩, rfl, hlocates failure rfl, rfl, happend _ rfl label⟩

end Tree

end DeepPath
