import DeepPath.Proofs.Model.Ascent

/-!
# What walks come to

The effect of an action is its result and the state afterwards, without the log.  `descent` and `ascent`
are the effects of recording a trail and of an ascent; they go step by step (`descent_cons_of_ok`,
`ascent_cons`), and the effects of a reading and of an edit are put together from them (`effect_read`,
`effect_update_of_lost`, `effect_update_of_declined`, `effect_update_of_carried`).
-/

namespace DeepPath

/-- What an action comes to: its result and the state afterwards. -/
def Outcome.effect {σ α : Type} (o : Outcome σ α) : α × σ :=
  (o.value, o.state)

namespace Action

variable {σ α β : Type}

@[simp] theorem value_map (f : α → β) (x : Action σ α) (s : σ) :
    ((f <$> x) s).value = f (x s).value := rfl

@[simp] theorem state_map (f : α → β) (x : Action σ α) (s : σ) :
    ((f <$> x) s).state = (x s).state := rfl

@[simp] theorem log_map (f : α → β) (x : Action σ α) (s : σ) : ((f <$> x) s).log = (x s).log :=
  List.append_nil _

end Action

namespace Model

variable {σ V ε : Type} {M : Model σ V}

/-! ## Down -/

/-- The effect of recording a trail of some steps, of which the first is at `depth`. -/
def descent (M : Model σ V) (depth : Nat) (steps : List Step) (v : V) (s : σ) :
    Except Failure (Trail V) × σ :=
  (M.trailFrom depth steps v s).effect

section

variable {depth : Nat} {step : Step} {rest : List Step} {v : V} {s t : σ}

@[simp] theorem state_visit (depth : Nat) (v : V) (step : Step) (s : σ) :
    (M.visit depth v step s).state = (M.step v step s).state := rfl

theorem visit_of_error {fault : Fault} (h : (M.step v step s).value = .error fault) :
    (M.visit depth v step s).value = .error ⟨fault, step, depth, .descent⟩ := by
  rw [visit, Action.value_bind, h]
  rfl

theorem visit_of_ok {next : V} (h : (M.step v step s).value = .ok next) :
    (M.visit depth v step s).value = .ok next := by
  rw [visit, Action.value_bind, h]
  rfl

theorem descent_cons_of_error {fault : Fault} (h : (M.step v step s).value = .error fault) :
    M.descent depth (step :: rest) v s =
      (.error ⟨fault, step, depth, .descent⟩, (M.step v step s).state) := by
  simp [descent, Outcome.effect, trailFrom, visit_of_error h]

theorem descent_cons_of_ok {next : V} (h : (M.step v step s).value = .ok next) :
    M.descent depth (step :: rest) v s =
      (M.descent (depth + 1) rest next (M.step v step s).state).map
        (fun found => found.map (Trail.after v)) id := by
  simp [descent, Outcome.effect, trailFrom, visit_of_ok h]

/-- Reading comes to the leaf of the trail, or to the failure of recording it. -/
theorem effect_readFrom (M : Model σ V) (depth : Nat) (steps : List Step) (v : V) (s : σ) :
    (M.readFrom depth steps v s).effect =
      (M.descent depth steps v s).map (fun found => found.map Trail.leaf) id := by
  induction steps generalizing depth v s with
  | nil => rfl
  | cons step rest ih =>
    cases h : (M.step v step s).value with
    | error fault =>
      rw [descent_cons_of_error h]
      simp [Outcome.effect, readFrom, visit_of_error h, Except.map]
    | ok next =>
      rw [descent_cons_of_ok h]
      have hnext : (M.readFrom depth (step :: rest) v s).effect =
          (M.readFrom (depth + 1) rest next (M.step v step s).state).effect := by
        simp [Outcome.effect, readFrom, visit_of_ok h]
      rw [hnext, ih]
      rcases M.descent (depth + 1) rest next (M.step v step s).state with ⟨failure | found, t⟩ <;> rfl

/-- A trail starts with the value that the walk starts from. -/
theorem parents_of_descent {trail : Trail V}
    (h : M.descent depth (step :: rest) v s = (.ok trail, t)) :
    ∃ parents, trail.parents = v :: parents ∧ parents.length = rest.length := by
  induction rest generalizing depth step v s trail with
  | nil =>
    cases hs : (M.step v step s).value with
    | error fault =>
      rw [descent_cons_of_error hs] at h
      cases h
    | ok next =>
      rw [descent_cons_of_ok hs] at h
      cases h
      exact ⟨[], rfl, rfl⟩
  | cons step' rest ih =>
    cases hs : (M.step v step s).value with
    | error fault =>
      rw [descent_cons_of_error hs] at h
      cases h
    | ok next =>
      rw [descent_cons_of_ok hs] at h
      rcases hd : M.descent (depth + 1) (step' :: rest) next (M.step v step s).state with
        ⟨failure | inner, u⟩
      · rw [hd] at h
        cases h
      · rw [hd] at h
        cases h
        obtain ⟨parents, hinner, hlen⟩ := ih hd
        exact ⟨inner.parents, rfl, by rw [hinner, List.length_cons, hlen, List.length_cons]⟩

end

/-! ## Up -/

/-- The effect of an ascent. -/
def ascent (M : Model σ V) (depth : Nat) (links : List (Step × V)) (leaf : V) (s : σ) :
    Except Failure V × σ :=
  ((M.ascend depth links leaf s).value.result, (M.ascend depth links leaf s).state)

/-- One step up from what the deeper steps have come to. -/
def raise (M : Model σ V) (depth : Nat) (link : Step × V) :
    Except Failure V × σ → Except Failure V × σ
  | (.error failure, t) => (.error failure, t)
  | (.ok child, t) =>
    let o := M.put link.2 link.1 child t
    ((o.value.2.map (·.settle o.value.1)).mapError (⟨·, link.1, depth, .ascent⟩), o.state)

/-- The step into the root, from what the steps below have come to. -/
def land (M : Model σ V) (root : V) (step : Step) :
    Except Failure V × σ → (V × Except Failure (Placement V)) × σ
  | (.error failure, t) => ((root, .error failure), t)
  | (.ok child, t) =>
    let o := M.put root step child t
    ((o.value.1, o.value.2.mapError (⟨·, step, 0, .ascent⟩)), o.state)

section

variable {depth : Nat} {links : List (Step × V)} {leaf root : V} {s : σ}

section

variable {step : Step} {parent child : V}

theorem raise_of_error {fault : Fault} (h : (M.put parent step child s).value.2 = .error fault) :
    M.raise depth (step, parent) (.ok child, s) =
      (.error ⟨fault, step, depth, .ascent⟩, (M.put parent step child s).state) := by
  rw [raise, h]
  rfl

theorem raise_of_ok {placement : Placement V}
    (h : (M.put parent step child s).value.2 = .ok placement) :
    M.raise depth (step, parent) (.ok child, s) =
      (.ok (placement.settle (M.put parent step child s).value.1),
        (M.put parent step child s).state) := by
  rw [raise, h]
  rfl

theorem land_of_error {fault : Fault} (h : (M.put root step child s).value.2 = .error fault) :
    M.land root step (.ok child, s) =
      (((M.put root step child s).value.1, .error ⟨fault, step, 0, .ascent⟩),
        (M.put root step child s).state) := by
  rw [land, h]
  rfl

theorem land_of_ok {placement : Placement V}
    (h : (M.put root step child s).value.2 = .ok placement) :
    M.land root step (.ok child, s) =
      (((M.put root step child s).value.1, .ok placement), (M.put root step child s).state) := by
  rw [land, h]
  rfl

end

theorem ascent_cons (link : Step × V) :
    M.ascent depth (link :: links) leaf s =
      M.raise depth link (M.ascent (depth + 1) links leaf s) := by
  obtain ⟨step, parent⟩ := link
  unfold ascent
  rw [ascend, Action.bind_apply]
  generalize M.ascend (depth + 1) links leaf s = o
  cases hc : o.value.result with
  | error failure => simp [raise, hc]
  | ok child =>
    cases hp : (M.put parent step child o.state).value.2 with
    | error fault => simp [raise_of_error hp, hp]
    | ok placement => simp [raise_of_ok hp, hp]

theorem effect_carry (path : Path) (trail : Trail V) :
    (M.carry path trail leaf root s).effect =
      M.land root path.first (M.ascent 1 (path.rest.zip trail.parents.tail) leaf s) := by
  unfold ascent Outcome.effect
  rw [carry, Action.bind_apply]
  generalize M.ascend 1 (path.rest.zip trail.parents.tail) leaf s = o
  cases hc : o.value.result with
  | error failure => simp [land, giveUp]
  | ok child =>
    cases hp : (M.put root path.first child o.state).value.2 with
    | error fault => simp [land_of_error hp, hp, giveUp]
    | ok placement => simp [land_of_ok hp, hp]

/-- A step to a member writes it, and a step to an element builds a container. -/
theorem isWritten_of_put {step : Step} {parent child : V} {placement : Placement V}
    (h : (M.put parent step child s).value.2 = .ok placement) :
    placement.isWritten = step.isMember := by
  cases step with
  | member name =>
    rw [put, Action.value_bind] at h
    rcases hset : (M.setMember parent name child s).value with ⟨parent', fault | done⟩ <;>
      rw [hset] at h <;> cases h
    rfl
  | element index =>
    rw [put, Action.value_bind] at h
    rcases hview : (M.view parent s).value with fault | view <;> rw [hview] at h
    · cases h
    rw [Action.value_bind] at h
    rcases hbuilt : (M.rebuild view index child (M.view parent s).state).value with fault | container <;>
      rw [hbuilt] at h <;> cases h
    rfl

/-- An edit is written in its root exactly if the path starts with a member. -/
theorem isWritten_of_carry {path : Path} {trail : Trail V} {placement : Placement V}
    (h : (M.carry path trail leaf root s).value.2 = .ok placement) :
    placement.isWritten = path.first.isMember := by
  have heffect : ((M.carry path trail leaf root s).effect.1).2 = .ok placement := h
  rw [effect_carry] at heffect
  generalize M.ascent 1 (path.rest.zip trail.parents.tail) leaf s = up at heffect
  rcases up with ⟨failure | child, t⟩
  · cases heffect
  · cases hput : (M.put root path.first child t).value.2 with
    | error fault =>
      rw [land_of_error hput] at heffect
      cases heffect
    | ok placement' =>
      rw [land_of_ok hput] at heffect
      cases heffect
      exact isWritten_of_put hput

/-- Carrying a leaf into the root is an ascent of the whole path. -/
theorem ascent_chain (path : Path) (trail : Trail V) :
    M.ascent 0 (chain path trail root) leaf s =
      (M.carry path trail leaf root s).effect.map (fun r => r.2.map (·.settle r.1)) id := by
  rw [effect_carry, chain, ascent_cons]
  rcases M.ascent 1 (path.rest.zip trail.parents.tail) leaf s with ⟨failure | child, t⟩
  · rfl
  · dsimp only [raise, land, Prod.map]
    cases (M.put root path.first child t).value.2 <;> rfl

/-- What ascends the whole path is carried into the root. -/
theorem carry_of_ascent {path : Path} {trail : Trail V} {child : V} {t : σ}
    (h : M.ascent 0 (chain path trail root) leaf s = (.ok child, t)) :
    ∃ placement, (M.carry path trail leaf root s).value.2 = .ok placement := by
  rw [ascent_chain] at h
  generalize M.carry path trail leaf root s = o at h ⊢
  rcases o with ⟨⟨root', failure | placement⟩, u, log⟩
  · cases h
  · exact ⟨placement, rfl⟩

end

/-! ## Edits -/

section

variable {path : Path} {change : V → Action σ (Except ε V)} {root leaf : V} {s t u : σ}
  {trail : Trail V}

theorem effect_trail : (M.trail path root s).effect = M.descent 0 path.steps root s := by
  unfold descent Outcome.effect
  rw [Model.trail, Action.bind_apply]
  generalize M.trailFrom 0 path.steps root s = o
  cases h : o.value <;> simp

theorem effect_read : (M.read path root s).effect =
    (M.descent 0 path.steps root s).map (fun found => found.map Trail.leaf) id := by
  rw [← effect_readFrom]
  unfold Outcome.effect
  rw [Model.read, Action.bind_apply]
  generalize M.readFrom 0 path.steps root s = o
  cases h : o.value <;> simp

/-- A path that can be read has a trail to what is read. -/
theorem trail_of_read (hread : (M.read path root s).value = .ok leaf) :
    ∃ trail, (M.trail path root s).value = .ok trail ∧ trail.leaf = leaf := by
  have heffect : (M.read path root s).effect =
      (M.trail path root s).effect.map (fun found => found.map Trail.leaf) id := by
    rw [effect_read, effect_trail]
  have hvalue : (M.read path root s).value = (M.trail path root s).value.map Trail.leaf :=
    (Prod.mk.inj heffect).1
  rw [hread] at hvalue
  cases htrail : (M.trail path root s).value with
  | error failure =>
    rw [htrail] at hvalue
    cases hvalue
  | ok trail =>
    rw [htrail] at hvalue
    exact ⟨trail, rfl, (Except.ok.inj hvalue).symm⟩

theorem effect_update_of_lost {failure : Failure}
    (h : M.descent 0 path.steps root s = (.error failure, t)) :
    (M.update path change root s).effect = (⟨root, none, .error (.failed failure)⟩, t) := by
  rw [← effect_trail] at h
  obtain ⟨hv, hs⟩ := Prod.mk.inj h
  simp [update, Outcome.effect, hv, hs]

theorem effect_update_of_declined {reason : ε}
    (h : M.descent 0 path.steps root s = (.ok trail, t))
    (hc : (change trail.leaf t).effect = (.error reason, u)) :
    (M.update path change root s).effect =
      (⟨root, some trail.leaf, .error (.declined reason)⟩, u) := by
  rw [← effect_trail] at h
  obtain ⟨hv, hs⟩ := Prod.mk.inj h
  obtain ⟨hcv, hcs⟩ := Prod.mk.inj hc
  simp [update, Outcome.effect, hv, hs, hcv, hcs]

theorem effect_update_of_carried (h : M.descent 0 path.steps root s = (.ok trail, t))
    (hc : (change trail.leaf t).effect = (.ok leaf, u)) :
    (M.update path change root s).effect =
      (M.carry path trail leaf root u).effect.map
        (fun r => ⟨r.1, some trail.leaf, r.2.mapError .failed⟩) id := by
  rw [← effect_trail] at h
  obtain ⟨hv, hs⟩ := Prod.mk.inj h
  obtain ⟨hcv, hcs⟩ := Prod.mk.inj hc
  simp [update, Outcome.effect, hv, hs, hcv, hcs]

end

end Model

end DeepPath
