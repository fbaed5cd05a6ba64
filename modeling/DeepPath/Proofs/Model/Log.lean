import DeepPath.Proofs.Model.Counting

/-!
# What an edit reports

Over a model whose operations report nothing, the log of an edit is known from its path, its outcome and
what its callback reports: `update_told`.

1. A walk down reports each step that it tries (`Silent.lines_trailFrom`), an ascent each step that it has
   done (`Silent.lines_of_ok`, `Silent.lines_of_error`).
2. The step into the root is a step like the others, but for its report (`carry_cases`): so the steps
   reported on the way up are those of an ascent of the whole path, without the first.
3. The number in the report of a failed ascent is the number of members written, which `Model.tallied`
   counts (`count_update`).
-/

namespace DeepPath

/-! ## Lines -/

namespace Event

/-- The lines of a log: what is reported, and at which level. -/
def lines (log : List Event) : List (Level × Event) :=
  log.map fun e => (e.level, e)

@[simp] theorem lines_nil : lines [] = [] := rfl

@[simp] theorem lines_cons (e : Event) (log : List Event) :
    lines (e :: log) = (e.level, e) :: lines log := rfl

@[simp] theorem lines_append (log log' : List Event) :
    lines (log ++ log') = lines log ++ lines log' :=
  List.map_append

/-- A failure that leaves members written is a warning. -/
theorem level_ascentFailed (path : Path) (written : Nat) (failure : Failure) :
    (ascentFailed path written failure).level = if 0 < written then .warn else .debug := by
  cases written <;> rfl

/-- The lines of a walk down that does all these steps, of which the first is at `depth`. -/
def down (depth : Nat) (steps : List Step) : List (Level × Event) :=
  (steps.zipIdx depth).map fun (step, k) => (.trace, .descended step k true)

/-- The lines of an ascent that does all these steps, the last one first. -/
def up (depth : Nat) (steps : List Step) : List (Level × Event) :=
  ((steps.zipIdx depth).map fun (step, k) => (.trace, .ascended step k)).reverse

@[simp] theorem down_nil (depth : Nat) : down depth [] = [] := rfl

@[simp] theorem down_cons (depth : Nat) (step : Step) (steps : List Step) :
    down depth (step :: steps) = (.trace, .descended step depth true) :: down (depth + 1) steps := rfl

@[simp] theorem up_nil (depth : Nat) : up depth [] = [] := rfl

@[simp] theorem up_cons (depth : Nat) (step : Step) (steps : List Step) :
    up depth (step :: steps) = up (depth + 1) steps ++ [(.trace, .ascended step depth)] := by
  simp [up]

end Event

open Event

/-- What the log of an edit tells, by what its callback does, if it is called, and by what the edit comes
to; and how many members the edit writes.  The lines of the callback stand between those of the way down and
those of the way up. -/
inductive Told {σ V ε : Type} (path : Path) : Option (Outcome σ (Except ε V)) →
    Except (Refusal ε) (Placement V) → List (Level × Event) → Nat → Prop
  /-- A step down fails. -/
  | lost {failure : Failure} {depth : Nat} (hf : failure.At .descent 0 path.steps depth) :
      Told path none (.error (.failed failure))
        (down 0 (path.steps.take depth) ++
          [(.trace, .descended failure.step depth false), (.debug, .trailFailed path failure)]) 0
  /-- The callback declines the leaf. -/
  | declined {answer : Outcome σ (Except ε V)} {reason : ε} (ha : answer.value = .error reason) :
      Told path (some answer) (.error (.declined reason)) (down 0 path.steps ++ lines answer.log) 0
  /-- A step up fails: the number in its line is that of the members behind it on the path. -/
  | stuck {answer : Outcome σ (Except ε V)} {leaf : V} {failure : Failure} {depth written : Nat}
      (ha : answer.value = .ok leaf) (hf : failure.At .ascent 0 path.steps depth)
      (hw : written = (path.steps.drop (depth + 1)).countP Step.isMember) :
      Told path (some answer) (.error (.failed failure))
        (down 0 path.steps ++ lines answer.log ++ up (depth + 1) (path.steps.drop (depth + 1)) ++
          [(if 0 < written then .warn else .debug, .ascentFailed path written failure)]) written
  /-- All steps up succeed, and all but the one into the root are reported. -/
  | done {answer : Outcome σ (Except ε V)} {leaf : V} (ha : answer.value = .ok leaf)
      (placement : Placement V) :
      Told path (some answer) (.ok placement)
        (down 0 path.steps ++ lines answer.log ++ up 1 path.rest) (path.steps.countP Step.isMember)

namespace Model

variable {σ V ε : Type} {M : Model σ V} {path : Path} {leaf root : V} {s t : σ} {depth : Nat}
  {links : List (Step × V)} {trail : Trail V} {failure : Failure}

/-- What the callback of an edit does, if the walk down gets to a leaf. -/
def asked (M : Model σ V) (path : Path) (change : V → Action σ (Except ε V)) (root : V) (s : σ) :
    Option (Outcome σ (Except ε V)) :=
  match M.trail path root s with
  | ⟨.ok trail, t, _⟩ => some (change trail.leaf t)
  | ⟨.error _, _, _⟩ => none

/-- The operations report nothing themselves. -/
structure Silent (M : Model σ V) : Prop where
  typeName : ∀ v s, (M.typeName v s).log = []
  hasMember : ∀ v name s, (M.hasMember v name s).log = []
  getMember : ∀ v name s, (M.getMember v name s).log = []
  setMember : ∀ v name w s, (M.setMember v name w s).log = []
  isContainer : ∀ v s, (M.isContainer v s).log = []
  view : ∀ v s, (M.view v s).log = []
  rebuild : ∀ view index v s, (M.rebuild view index v s).log = []

/-! ## Down -/

namespace Silent

variable (h : M.Silent)
include h

theorem log_step (v : V) (step : Step) (s : σ) : (M.step v step s).log = [] := by
  cases step with
  | member name =>
    rw [Model.step, Action.log_bind, h.hasMember]
    split
    · exact h.getMember _ _ _
    · simp [h.typeName]
  | element index =>
    rw [Model.step, Action.log_bind, h.isContainer]
    split
    · simp [h.view]
    · simp [h.typeName]

theorem log_visit (depth : Nat) (v : V) (step : Step) (s : σ) :
    (M.visit depth v step s).log = [.descended step depth (M.step v step s).value.isOk] := by
  simp [visit, h.log_step]

/-- A walk down reports the steps that it has done and, if it fails, the one that it fails at. -/
theorem lines_trailFrom (depth : Nat) (steps : List Step) (v : V) (s : σ) :
    match M.trailFrom depth steps v s with
    | ⟨.ok _, _, log⟩ => lines log = down depth steps
    | ⟨.error failure, _, log⟩ => ∃ i, failure.At .descent depth steps i ∧
        lines log = down depth (steps.take i) ++ [(.trace, .descended failure.step (depth + i) false)] := by
  induction steps generalizing depth v s with
  | nil => rfl
  | cons step rest ih =>
    have hlog := h.log_visit depth v step s
    rw [trailFrom, Action.bind_apply]
    cases hstep : (M.step v step s).value with
    | error fault =>
      rw [hstep] at hlog
      rw [visit_of_error hstep, hlog]
      exact ⟨0, .head .., rfl⟩
    | ok next =>
      rw [hstep] at hlog
      rw [visit_of_ok hstep, hlog]
      have hrest := ih (depth + 1) next (M.visit depth v step s).state
      dsimp only
      rw [Action.bind_apply]
      generalize M.trailFrom (depth + 1) rest next (M.visit depth v step s).state = o at hrest ⊢
      rcases o with ⟨failure | found, t, log⟩
      · obtain ⟨i, hi, hlines⟩ := hrest
        refine ⟨i + 1, hi.cons step, ?_⟩
        simp [hlines, Event.level, Except.isOk, Except.toBool, Nat.add_assoc, Nat.add_comm 1]
      · show lines (.descended step depth true :: (log ++ [])) = down depth (step :: rest)
        rw [List.append_nil, lines_cons, show lines log = _ from hrest]
        rfl

/-! ## Up -/

theorem log_put (parent : V) (step : Step) (child : V) (s : σ) :
    (M.put parent step child s).log = [] := by
  cases step with
  | member name => simp [put_member, h.setMember]
  | element index =>
    have hview := h.view parent s
    rw [put_element]
    generalize M.view parent s = o at hview ⊢
    rcases o with ⟨fault | view, t, log⟩
    · simpa using hview
    · simpa [h.rebuild] using hview

/-- An ascent that succeeds reports all its steps, the deepest one first. -/
theorem lines_of_ok {v : V} {o : Outcome σ (Climb V)} (ho : M.Ascends leaf s depth links o)
    (hv : o.value.result = .ok v) : lines o.log = up depth (links.map Prod.fst) := by
  induction ho generalizing v with
  | start => rfl
  | stopped _ hf _ =>
    rw [hf] at hv
    cases hv
  | fails => cases hv
  | climbs _ hc _ ih => simp [ih hc, h.log_put, Event.level]

/-- An ascent that fails reports the steps below the one that it fails at. -/
theorem lines_of_error {o : Outcome σ (Climb V)} (ho : M.Ascends leaf s depth links o)
    (hf : o.value.result = .error failure) :
    ∃ i, failure.At .ascent depth (links.map Prod.fst) i ∧
      lines o.log = up (depth + i + 1) ((links.map Prod.fst).drop (i + 1)) := by
  induction ho with
  | start => cases hf
  | stopped _ _ ih =>
    obtain ⟨i, hi, hlines⟩ := ih hf
    refine ⟨i + 1, hi.cons _, hlines.trans ?_⟩
    rw [Nat.add_assoc _ 1 i, Nat.add_comm 1 i]
    rfl
  | fails ho hc =>
    cases hf
    refine ⟨0, .head .., ?_⟩
    simp [h.lines_of_ok ho hc, h.log_put]
  | climbs => cases hf

/-! ## Edits -/

/-- Recording the trail of a path ends with a line of its own if it fails. -/
theorem lines_trail (path : Path) (root : V) (s : σ) :
    match M.trail path root s with
    | ⟨.ok _, _, log⟩ => lines log = down 0 path.steps
    | ⟨.error failure, _, log⟩ => ∃ i, failure.At .descent 0 path.steps i ∧
        lines log = down 0 (path.steps.take i) ++
          [(.trace, .descended failure.step i false), (.debug, .trailFailed path failure)] := by
  have hlines := h.lines_trailFrom 0 path.steps root s
  rw [trail, Action.bind_apply]
  generalize M.trailFrom 0 path.steps root s = o at hlines ⊢
  rcases o with ⟨failure | found, t, log⟩
  · obtain ⟨i, hi, hlines⟩ := hlines
    exact ⟨i, hi, by simp [hlines, Event.level]⟩
  · simpa using hlines

/-- On the way up all steps but the one into the root are reported, and a failure with the number of members
below it. -/
theorem lines_carry (leaf root : V) (s : σ)
    (hchain : (chain path trail root).map Prod.fst = path.steps) :
    match M.carry path trail leaf root s with
    | ⟨(_, .ok _), _, log⟩ => lines log = up 1 path.rest
    | ⟨(_, .error failure), _, log⟩ => ∃ i, failure.At .ascent 0 path.steps i ∧
        let written := (path.steps.drop (i + 1)).countP Step.isMember
        lines log = up (i + 1) (path.steps.drop (i + 1)) ++
          [(if 0 < written then .warn else .debug, .ascentFailed path written failure)] := by
  obtain ⟨o, failure, root', ho, hf, hcarry⟩ | ⟨o, placement, root', log, ho, hv, hlog, hcarry⟩ :=
    carry_cases M path trail leaf root s
  · obtain ⟨i, hi, hw⟩ := ho.written_of_error hf
    obtain ⟨j, hj, hlines⟩ := h.lines_of_error ho hf
    obtain rfl := hi.unique hj -- both are at the step that failed
    rw [hchain] at hi hw hlines
    rw [hcarry]
    refine ⟨i, hi, ?_⟩
    rw [lines_append, hlines, hw, lines_cons, lines_nil, level_ascentFailed, Nat.zero_add]
  · -- the log of the ascent has one line more, for the step into the root
    have hlines := h.lines_of_ok ho hv
    rw [hlog, hchain] at hlines
    rw [hcarry]
    simpa [Event.level, Path.steps] using hlines

/-- The log of an edit, with the number of members that its path and its outcome tell. -/
theorem told (path : Path) (change : V → Action σ (Except ε V)) (root : V) (s : σ) :
    let o := M.update path change root s
    Told path (M.asked path change root s) o.value.outcome (lines o.log)
      (path.written o.value.outcome) := by
  have hdown := h.lines_trail path root s
  have hu := updates M path change root s
  generalize M.update path change root s = o at hu ⊢
  unfold asked
  cases hu with
  | lost ht =>
    generalize M.trail path root s = found at ht hdown ⊢
    rcases found with ⟨failure | trail, t, log⟩ <;> cases ht
    obtain ⟨i, hi, hlines⟩ := hdown
    dsimp only
    rw [Path.written_of_descent hi, hlines]
    exact .lost hi
  | declined ht hc =>
    rw [ht] at hdown ⊢
    dsimp only at hdown ⊢
    rw [lines_append, hdown]
    exact .declined hc
  | @carried trail t found leaf o ht hc ho =>
    have hchain := steps_chain (congrArg Outcome.value ht)
    have hup := h.lines_carry leaf root (change trail.leaf t).state hchain
    rw [ho] at hup
    rw [ht] at hdown ⊢
    dsimp only at hdown ⊢
    rw [lines_append, lines_append, hdown, ← List.append_assoc]
    obtain ⟨⟨root', failure | placement⟩, u, log⟩ := o
    · obtain ⟨i, hi, hlines⟩ := hup
      have hw : path.written (.error (.failed failure) : Except (Refusal ε) (Placement V)) = _ :=
        Path.written_of_ascent hi
      dsimp only at hlines
      rw [← hw] at hlines
      rw [hlines, ← List.append_assoc]
      exact .stuck hc hi hw
    · rw [show lines log = _ from hup]
      exact .done hc placement

end Silent

/-- Over a model that reports nothing itself, the log of an edit tells what has been done.  The number in it
is what counts the writes of the edit, and counting them changes nothing else. -/
theorem update_told (hM : M.Silent) (path : Path) (change : V → Action σ (Except ε V)) (root : V)
    (s : σ) :
    let o := M.update path change root s
    let counted := M.tallied.update path (fun v => (change v).uncounted) root (s, 0)
    o = ⟨counted.value, counted.state.1, counted.log⟩ ∧
      Told path (M.asked path change root s) o.value.outcome (lines o.log) counted.state.2 := by
  have hsame := M.tallied_extends.update (fun v => (change v).uncounted_extends) path root (s, 0)
  have hcount := count_update M.tallied_counts (fun v => (change v).count_uncounted) path root (s, 0)
  refine ⟨hsame.symm, ?_⟩
  rw [hcount, Nat.zero_add, show _ = _ from congrArg Outcome.value hsame]
  exact hM.told path change root s

end Model

namespace Tree

open Model

theorem model_silent {σ : Type} : (model : Model σ Tree).Silent :=
  ⟨fun _ _ => rfl, fun _ _ _ => rfl, fun _ _ _ => rfl, fun _ _ _ _ => rfl, fun _ _ => rfl,
    fun _ _ => rfl, fun _ _ _ _ => rfl⟩

/-- Items in a record that cannot be written. -/
def vault : Tree :=
  .record "Vault" [("sealed", .record frozen [("items", .tuple [item "a", item "b"])])]

/-- An edit below the record that cannot be written ends with a warning: one member is written. -/
theorem told_in_vault :
    let M : Model Unit Tree := model
    let path : Path := ⟨.member "sealed", [.member "items", .element 1, .member "label"]⟩
    let change : Tree → Action Unit (Except String Tree) := fun _ => return .ok (.text "c")
    let o := M.update path change vault ()
    let counted := M.tallied.update path (fun v => (change v).uncounted) vault ((), 0)
    let failure : Failure := ⟨.wrongType "a writable record" frozen, .member "items", 1, .ascent⟩
    M.Silent ∧ o = ⟨counted.value, counted.state.1, counted.log⟩ ∧
      Told path (M.asked path change vault ()) o.value.outcome (lines o.log) counted.state.2 ∧
      o.value.outcome = .error (.failed failure) ∧ counted.state.2 = 1 ∧
      lines o.log = down 0 path.steps ++
        [(.trace, .ascended (.member "label") 3), (.trace, .ascended (.element 1) 2),
          (.warn, .ascentFailed path 1 failure)] := by
  intro M path change o counted failure
  have hM : M.Silent := model_silent
  obtain ⟨hsame, htold⟩ := update_told hM path change vault ()
  exact ⟨hM, hsame, htold, rfl, rfl, rfl⟩

end Tree

end DeepPath
