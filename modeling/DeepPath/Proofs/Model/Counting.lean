import DeepPath.Proofs.Model.Reading

/-!
# Counting what is written

How many members an edit writes is not seen in its result.  `Model.tallied` is a model with a number beside
its state, which goes up by one whenever a member is written.

1. An edit over the model with the number is the edit over the model itself: they have one result and one
   log, and leave one state (`Model.Extends.update`).
2. A number that counts the writes goes up in an ascent by what the ascent says it has written
   (`Counts.ascends`).  That is the number of members among the steps that have been done
   (`Ascends.written_of_ok`, `Ascends.written_of_error`).

So an edit writes as many members as its path and its outcome tell (`Path.written`, `count_update`).
-/

namespace DeepPath

/-! ## More state -/

namespace Action

variable {σ τ α β : Type} {part : τ → σ}

/-- `y` does to a part of its state what `x` does to a whole state, with the same result and the same log. -/
def Extends (part : τ → σ) (x : Action σ α) (y : Action τ α) : Prop :=
  ∀ t, (⟨(y t).value, part (y t).state, (y t).log⟩ : Outcome σ α) = x (part t)

namespace Extends

theorem pure (a : α) : Extends part (pure a) (pure a) :=
  fun _ => rfl

theorem emit (e : Event) : Extends part (emit e) (emit e) :=
  fun _ => rfl

theorem bind {x : Action σ α} {y : Action τ α} {f : α → Action σ β} {g : α → Action τ β}
    (hx : Extends part x y) (hf : ∀ a, Extends part (f a) (g a)) :
    Extends part (x >>= f) (y >>= g) := by
  intro t
  rw [bind_apply, bind_apply, ← hx t]
  dsimp only
  rw [← hf]

end Extends

/-- An action beside a number, which it leaves as it is. -/
def uncounted (x : Action σ α) : Action (σ × Nat) α :=
  .within Prod.fst (fun s t => (s, t.2)) x

theorem uncounted_extends (x : Action σ α) : Extends Prod.fst x x.uncounted :=
  fun _ => rfl

theorem count_uncounted (x : Action σ α) (t : σ × Nat) : (x.uncounted t).state.2 = t.2 :=
  rfl

end Action

namespace Model

variable {σ τ V ε : Type} {M : Model σ V} {N : Model τ V} {part : τ → σ}

/-- The operations of `N` do to a part of the state what those of `M` do. -/
structure Extends (part : τ → σ) (M : Model σ V) (N : Model τ V) : Prop where
  typeName : ∀ v, Action.Extends part (M.typeName v) (N.typeName v)
  hasMember : ∀ v name, Action.Extends part (M.hasMember v name) (N.hasMember v name)
  getMember : ∀ v name, Action.Extends part (M.getMember v name) (N.getMember v name)
  setMember : ∀ v name w, Action.Extends part (M.setMember v name w) (N.setMember v name w)
  isContainer : ∀ v, Action.Extends part (M.isContainer v) (N.isContainer v)
  view : ∀ v, Action.Extends part (M.view v) (N.view v)
  rebuild : ∀ view index v,
    Action.Extends part (M.rebuild view index v) (N.rebuild view index v)

namespace Extends

variable (h : Extends part M N)
include h

theorem step (v : V) (step : Step) : Action.Extends part (M.step v step) (N.step v step) := by
  cases step with
  | member name =>
    refine (h.hasMember v name).bind fun found => ?_
    split
    · exact h.getMember v name
    · exact (h.typeName v).bind fun _ => .pure _
  | element index =>
    refine (h.isContainer v).bind fun found => ?_
    split
    · exact (h.view v).bind fun _ => .pure _
    · exact (h.typeName v).bind fun _ => .pure _

theorem visit (depth : Nat) (v : V) (step : Step) :
    Action.Extends part (M.visit depth v step) (N.visit depth v step) :=
  (h.step v step).bind fun _ => (Action.Extends.emit _).bind fun _ => .pure _

theorem trailFrom (depth : Nat) (steps : List Step) (v : V) :
    Action.Extends part (M.trailFrom depth steps v) (N.trailFrom depth steps v) := by
  induction steps generalizing depth v with
  | nil => exact .pure _
  | cons step rest ih =>
    refine (h.visit depth v step).bind fun result => ?_
    cases result with
    | error failure => exact .pure _
    | ok next => exact (ih (depth + 1) next).bind fun _ => .pure _

theorem trail (path : Path) (root : V) :
    Action.Extends part (M.trail path root) (N.trail path root) := by
  refine (h.trailFrom 0 path.steps root).bind fun result => ?_
  cases result with
  | error failure => exact (Action.Extends.emit _).bind fun _ => .pure _
  | ok trail => exact .pure _

theorem put (parent : V) (step : Step) (child : V) :
    Action.Extends part (M.put parent step child) (N.put parent step child) := by
  cases step with
  | member name => exact (h.setMember parent name child).bind fun _ => .pure _
  | element index =>
    refine (h.view parent).bind fun result => ?_
    cases result with
    | error fault => exact .pure _
    | ok view => exact (h.rebuild view index child).bind fun _ => .pure _

theorem ascend (depth : Nat) (links : List (Step × V)) (leaf : V) :
    Action.Extends part (M.ascend depth links leaf) (N.ascend depth links leaf) := by
  induction links generalizing depth with
  | nil => exact .pure _
  | cons link deeper ih =>
    refine (ih (depth + 1)).bind fun climb => ?_
    cases climb.result with
    | error failure => exact .pure _
    | ok child =>
      refine (h.put link.2 link.1 child).bind fun result => ?_
      obtain ⟨parent, fault | placement⟩ := result
      · exact .pure _
      · exact (Action.Extends.emit _).bind fun _ => .pure _

theorem carry (path : Path) (trail : Trail V) (leaf root : V) :
    Action.Extends part (M.carry path trail leaf root) (N.carry path trail leaf root) := by
  refine (h.ascend 1 _ leaf).bind fun climb => ?_
  cases climb.result with
  | error failure => exact (Action.Extends.emit _).bind fun _ => .pure _
  | ok child =>
    refine (h.put root path.first child).bind fun result => ?_
    obtain ⟨root, fault | placement⟩ := result
    · exact (Action.Extends.emit _).bind fun _ => .pure _
    · exact .pure _

/-- An edit does no more to the rest of the state than its callback does. -/
theorem update {change : V → Action σ (Except ε V)} {change' : V → Action τ (Except ε V)}
    (hc : ∀ v, Action.Extends part (change v) (change' v)) (path : Path) (root : V) :
    Action.Extends part (M.update path change root) (N.update path change' root) := by
  refine (h.trail path root).bind fun found => ?_
  cases found with
  | error failure => exact .pure _
  | ok trail =>
    refine (hc trail.leaf).bind fun answer => ?_
    cases answer with
    | error reason => exact .pure _
    | ok leaf => exact (h.carry path trail leaf root).bind fun _ => .pure _

end Extends

/-- A model with a number beside its state: the number of members written. -/
def tallied (M : Model σ V) : Model (σ × Nat) V where
  typeName v := (M.typeName v).uncounted
  hasMember v name := (M.hasMember v name).uncounted
  getMember v name := (M.getMember v name).uncounted
  setMember v name w := fun t =>
    let done := M.setMember v name w t.1
    ⟨done.value, (done.state, if done.value.2.isOk then t.2 + 1 else t.2), done.log⟩
  isContainer v := (M.isContainer v).uncounted
  view v := (M.view v).uncounted
  rebuild view index v := (M.rebuild view index v).uncounted

theorem tallied_extends (M : Model σ V) : Extends Prod.fst M M.tallied :=
  ⟨fun _ _ => rfl, fun _ _ _ => rfl, fun _ _ _ => rfl, fun _ _ _ _ => rfl, fun _ _ => rfl,
    fun _ _ => rfl, fun _ _ _ _ => rfl⟩

/-! ## Writes -/

theorem put_member (M : Model σ V) (parent : V) (name : String) (child : V) (s : σ) :
    M.put parent (.member name) child s =
      let o := M.setMember parent name child s
      ⟨(o.value.1, o.value.2.map fun _ => .written), o.state, o.log ++ []⟩ := rfl

theorem put_element (M : Model σ V) (parent : V) (index : UInt64) (child : V) (s : σ) :
    M.put parent (.element index) child s =
      let o := M.view parent s
      match o.value with
      | .error fault => ⟨(parent, .error fault), o.state, o.log ++ []⟩
      | .ok view =>
        let built := M.rebuild view index child o.state
        ⟨(parent, built.value.map .built), built.state, o.log ++ (built.log ++ [])⟩ := by
  rw [put, Action.bind_apply]
  dsimp only
  cases (M.view parent s).value <;> rfl

/-- A number in the state that goes up by one whenever a member is written, and stays otherwise. -/
structure Counts (M : Model σ V) (count : σ → Nat) : Prop where
  typeName : ∀ v s, count (M.typeName v s).state = count s
  hasMember : ∀ v name s, count (M.hasMember v name s).state = count s
  getMember : ∀ v name s, count (M.getMember v name s).state = count s
  setMember : ∀ v name w s, count (M.setMember v name w s).state =
    if (M.setMember v name w s).value.2.isOk then count s + 1 else count s
  isContainer : ∀ v s, count (M.isContainer v s).state = count s
  view : ∀ v s, count (M.view v s).state = count s
  rebuild : ∀ view index v s, count (M.rebuild view index v s).state = count s

theorem tallied_counts (M : Model σ V) : M.tallied.Counts Prod.snd :=
  ⟨fun _ _ => rfl, fun _ _ _ => rfl, fun _ _ _ => rfl, fun _ _ _ _ => rfl, fun _ _ => rfl,
    fun _ _ => rfl, fun _ _ _ _ => rfl⟩

namespace Counts

variable {count : σ → Nat} (h : M.Counts count)
include h

theorem step (v : V) (step : Step) (s : σ) : count (M.step v step s).state = count s := by
  cases step with
  | member name =>
    rw [Model.step, Action.state_bind]
    split
    · rw [h.getMember, h.hasMember]
    · exact (h.typeName _ _).trans (h.hasMember _ _ _)
  | element index =>
    rw [Model.step, Action.state_bind]
    split
    · exact (h.view _ _).trans (h.isContainer _ _)
    · exact (h.typeName _ _).trans (h.isContainer _ _)

theorem descent (depth : Nat) (steps : List Step) (v : V) (s : σ) :
    count (M.descent depth steps v s).2 = count s := by
  induction steps generalizing depth v s with
  | nil => rfl
  | cons step rest ih =>
    cases hstep : (M.step v step s).value with
    | error fault =>
      rw [descent_cons_of_error hstep]
      exact h.step v step s
    | ok next =>
      rw [descent_cons_of_ok hstep]
      exact (ih _ _ _).trans (h.step v step s)

theorem trail (path : Path) (root : V) (s : σ) : count (M.trail path root s).state = count s := by
  have heffect : (M.trail path root s).effect = M.descent 0 path.steps root s := effect_trail
  have hstate : (M.trail path root s).state = _ := congrArg Prod.snd heffect
  rw [hstate]
  exact h.descent 0 path.steps root s

/-- A step up counts as what it places. -/
theorem put (parent : V) (step : Step) (child : V) (s : σ) :
    count (M.put parent step child s).state =
      match (M.put parent step child s).value.2 with
      | .ok placement => count s + placement.writes
      | .error _ => count s := by
  cases step with
  | member name =>
    have hset := h.setMember parent name child s
    rw [put_member]
    generalize M.setMember parent name child s = o at hset ⊢
    rcases o with ⟨⟨parent', fault | done⟩, t, log⟩ <;> exact hset
  | element index =>
    have hview := h.view parent s
    rw [put_element]
    generalize M.view parent s = o at hview ⊢
    rcases o with ⟨fault | view, t, log⟩
    · exact hview
    · -- a new container is no write
      have hbuilt := h.rebuild view index child t
      dsimp only at hview ⊢
      generalize M.rebuild view index child t = o at hbuilt ⊢
      rcases o with ⟨fault | container, u, log'⟩ <;> exact hbuilt.trans hview

/-- What an ascent says it has written is what has been written. -/
theorem ascends {leaf : V} {s : σ} {depth : Nat} {links : List (Step × V)} {o : Outcome σ (Climb V)}
    (ho : M.Ascends leaf s depth links o) : count o.state = count s + o.value.written := by
  induction ho with
  | start => rfl
  | stopped _ _ ih => exact ih
  | fails _ _ hp ih =>
    rw [h.put, hp]
    exact ih
  | climbs _ _ hp ih =>
    rw [h.put, hp]
    exact (congrArg (· + _) ih).trans (Nat.add_assoc ..)

end Counts

end Model

/-! ## The number of members written -/

/-- A failure is at the step of this index among some steps, of which the first is at `depth`. -/
structure Failure.At (f : Failure) (way : Direction) (depth : Nat) (steps : List Step) (i : Nat) :
    Prop where
  way : f.direction = way
  depth : f.depth = depth + i
  step : steps[i]? = some f.step

namespace Failure.At

variable {f : Failure} {way : Direction} {depth i j : Nat} {steps : List Step}

theorem head (fault : Fault) (step : Step) (way : Direction) (depth : Nat) (steps : List Step) :
    Failure.At ⟨fault, step, depth, way⟩ way depth (step :: steps) 0 :=
  ⟨rfl, rfl, rfl⟩

theorem cons (h : f.At way (depth + 1) steps i) (step : Step) :
    f.At way depth (step :: steps) (i + 1) :=
  ⟨h.way, by rw [h.depth, Nat.add_right_comm, Nat.add_assoc], h.step⟩

theorem unique (hi : f.At way depth steps i) (hj : f.At way depth steps j) : i = j :=
  Nat.add_left_cancel (hi.depth.symm.trans hj.depth)

end Failure.At

/-- The number of members that an edit along a path writes when it comes to this: all members of the path if
it succeeds, those below the step that fails if it fails on its way up, and otherwise none. -/
def Path.written {V ε : Type} (path : Path) : Except (Refusal ε) (Placement V) → Nat
  | .ok _ => path.steps.countP Step.isMember
  | .error (.declined _) => 0
  | .error (.failed failure) =>
    match failure.direction with
    | .descent => 0
    | .ascent => (path.steps.drop (failure.depth + 1)).countP Step.isMember

section

variable {V ε : Type} {path : Path} {failure : Failure} {i : Nat}

theorem Path.written_of_descent (h : failure.At .descent 0 path.steps i) :
    path.written (.error (.failed failure) : Except (Refusal ε) (Placement V)) = 0 := by
  rw [written, h.way]

theorem Path.written_of_ascent (h : failure.At .ascent 0 path.steps i) :
    path.written (.error (.failed failure) : Except (Refusal ε) (Placement V)) =
      (path.steps.drop (i + 1)).countP Step.isMember := by
  rw [written, h.way, h.depth, Nat.zero_add]

end

namespace Model

variable {σ V ε : Type} {M : Model σ V} {path : Path} {leaf root : V} {s t : σ} {depth : Nat}
  {links : List (Step × V)} {trail : Trail V} {failure : Failure} {o : Outcome σ (Climb V)}

/-- A step up counts as a write if it is to a member. -/
theorem writes_of_put {parent child : V} {step : Step} {placement : Placement V}
    (h : (M.put parent step child s).value.2 = .ok placement) :
    placement.writes = if step.isMember then 1 else 0 := by
  rw [← isWritten_of_put h]
  cases placement <;> rfl

theorem Ascends.written_of_ok {v : V} (ho : M.Ascends leaf s depth links o)
    (hv : o.value.result = .ok v) :
    o.value.written = (links.map Prod.fst).countP Step.isMember := by
  induction ho generalizing v with
  | start => rfl
  | stopped _ hf _ =>
    rw [hf] at hv
    cases hv
  | fails => cases hv
  | climbs _ hc hp ih =>
    rw [List.map_cons, List.countP_cons, ← ih hc, writes_of_put hp]

theorem Ascends.written_of_error (ho : M.Ascends leaf s depth links o)
    (hf : o.value.result = .error failure) :
    ∃ i, failure.At .ascent depth (links.map Prod.fst) i ∧
      o.value.written = ((links.map Prod.fst).drop (i + 1)).countP Step.isMember := by
  induction ho with
  | start => cases hf
  | stopped _ _ ih =>
    obtain ⟨i, hi, hw⟩ := ih hf
    exact ⟨i + 1, hi.cons _, hw⟩
  | fails ho hc _ _ =>
    cases hf
    exact ⟨0, .head .., ho.written_of_ok hc⟩
  | climbs => cases hf

/-- A walk down fails on its way down. -/
theorem at_of_descent {steps : List Step} {v : V}
    (h : M.descent depth steps v s = (.error failure, t)) :
    ∃ i, failure.At .descent depth steps i := by
  obtain ⟨a, step, b, _, _, rfl, _, fault, _, rfl⟩ := descent_eq_error h
  exact ⟨a.length, rfl, rfl, by simp⟩

/-- The steps of a path that has been walked down are carried up. -/
theorem steps_chain (h : (M.trail path root s).value = .ok trail) :
    (chain path trail root).map Prod.fst = path.steps := by
  rw [value_trail] at h
  obtain ⟨parents, hparents, hlen⟩ :=
    parents_of_descent (Prod.ext h rfl : M.descent 0 path.steps root s = (.ok trail, _))
  rw [chain, hparents, List.map_cons, List.tail_cons, List.map_fst_zip (Nat.le_of_eq hlen.symm)]
  rfl

/-- What is carried up into a root counts as the outcome tells. -/
theorem Counts.carry {count : σ → Nat} (h : M.Counts count)
    (hchain : (chain path trail root).map Prod.fst = path.steps) :
    let o := M.carry path trail leaf root s
    count o.state = count s + path.written (o.value.2.mapError (Refusal.failed : _ → Refusal ε)) := by
  obtain ⟨o, failure, root', ho, hf, hcarry⟩ | ⟨o, placement, root', log, ho, hv, -, hcarry⟩ :=
    carry_cases M path trail leaf root s
  · obtain ⟨i, hi, hw⟩ := ho.written_of_error hf
    rw [hchain] at hi hw
    rw [hcarry]
    exact (h.ascends ho).trans (by rw [hw, ← Path.written_of_ascent hi]; rfl)
  · have hw := ho.written_of_ok hv
    rw [hchain] at hw
    rw [hcarry]
    exact (h.ascends ho).trans (by rw [hw]; rfl)

/-- An edit writes as many members as its path and its outcome tell. -/
theorem count_update {count : σ → Nat} (h : M.Counts count) {change : V → Action σ (Except ε V)}
    (hc : ∀ v t, count (change v t).state = count t) (path : Path) (root : V) (s : σ) :
    let o := M.update path change root s
    count o.state = count s + path.written o.value.outcome := by
  have hdown := h.trail path root s
  have hu := updates M path change root s
  generalize M.update path change root s = o at hu ⊢
  cases hu with
  | lost ht =>
    rw [value_trail] at ht
    obtain ⟨i, hi⟩ := at_of_descent (Prod.ext ht rfl : M.descent 0 path.steps root s = (_, _))
    dsimp only
    rw [Path.written_of_descent hi, hdown]
    rfl
  | declined ht =>
    rw [ht] at hdown
    exact (hc _ _).trans hdown
  | carried ht hok ho =>
    subst ho
    have hchain := steps_chain (congrArg Outcome.value ht)
    rw [ht] at hdown
    rw [← hdown, ← hc]
    exact h.carry hchain

end Model

end DeepPath
