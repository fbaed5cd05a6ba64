import DeepPath.Model.Update

/-!
# Ascents and edits, case by case

`Ascends` lists the ways in which an ascent goes: it starts with the leaf, and each step up either
finds that a deeper one has failed, or fails itself, or hands a value on.  What holds of all ascents
is proved by induction on it.  The step into the root is one more step of the same kind
(`carry_cases`), and an edit is lost on its way down, declined, or carried up (`updates`).
-/

namespace DeepPath.Model

variable {σ V ε : Type} {M : Model σ V}

/-- How a leaf is carried up through steps, of which the first is at a depth, from a state `s`. -/
inductive Ascends (M : Model σ V) (leaf : V) (s : σ) :
    Nat → List (Step × V) → Outcome σ (Climb V) → Prop
  | start (depth : Nat) : Ascends M leaf s depth [] ⟨⟨0, .ok leaf⟩, s, []⟩
  /-- A deeper step has failed. -/
  | stopped {depth : Nat} {step : Step} {parent : V} {deeper : List (Step × V)}
      {o : Outcome σ (Climb V)} {failure : Failure} (ho : Ascends M leaf s (depth + 1) deeper o)
      (hf : o.value.result = .error failure) : Ascends M leaf s depth ((step, parent) :: deeper) o
  /-- This step fails. -/
  | fails {depth : Nat} {step : Step} {parent child : V} {deeper : List (Step × V)}
      {o : Outcome σ (Climb V)} {fault : Fault} (ho : Ascends M leaf s (depth + 1) deeper o)
      (hc : o.value.result = .ok child)
      (hp : (M.put parent step child o.state).value.2 = .error fault) :
      Ascends M leaf s depth ((step, parent) :: deeper)
        ⟨⟨o.value.written, .error ⟨fault, step, depth, .ascent⟩⟩,
          (M.put parent step child o.state).state, o.log ++ (M.put parent step child o.state).log⟩
  /-- This step hands a value on. -/
  | climbs {depth : Nat} {step : Step} {parent child : V} {deeper : List (Step × V)}
      {o : Outcome σ (Climb V)} {placement : Placement V}
      (ho : Ascends M leaf s (depth + 1) deeper o) (hc : o.value.result = .ok child)
      (hp : (M.put parent step child o.state).value.2 = .ok placement) :
      Ascends M leaf s depth ((step, parent) :: deeper)
        ⟨⟨o.value.written + placement.writes,
            .ok (placement.settle (M.put parent step child o.state).value.1)⟩,
          (M.put parent step child o.state).state,
          o.log ++ ((M.put parent step child o.state).log ++ [.ascended step depth])⟩

theorem ascends (M : Model σ V) (depth : Nat) (chain : List (Step × V)) (leaf : V) (s : σ) :
    M.Ascends leaf s depth chain (M.ascend depth chain leaf s) := by
  induction chain generalizing depth with
  | nil => exact .start depth
  | cons link deeper ih =>
    obtain ⟨step, parent⟩ := link
    have ho := ih (depth + 1)
    rw [ascend, Action.bind_apply]
    generalize M.ascend (depth + 1) deeper leaf s = o at ho ⊢
    cases hc : o.value.result with
    | error failure =>
      show Ascends M leaf s depth _ ⟨o.value, o.state, o.log ++ []⟩
      rw [List.append_nil]
      exact .stopped ho hc
    | ok child =>
      dsimp only
      rw [Action.bind_apply]
      cases hp : (M.put parent step child o.state).value.2 with
      | error fault =>
        show Ascends M leaf s depth _ ⟨_, _, o.log ++ (_ ++ [])⟩
        rw [List.append_nil]
        exact .fails ho hc hp
      | ok placement => exact .climbs ho hc hp

/-- What every step up preserves is preserved by an ascent. -/
theorem Ascends.preserves {R : σ → σ → Prop} (refl : ∀ t, R t t)
    (trans : ∀ {t u v}, R t u → R u v → R t v) {leaf : V} {s : σ} {depth : Nat}
    {chain : List (Step × V)} {o : Outcome σ (Climb V)}
    (hput : ∀ link ∈ chain, ∀ child t, R t (M.put link.2 link.1 child t).state)
    (ho : M.Ascends leaf s depth chain o) : R s o.state := by
  induction ho with
  | start => exact refl s
  | stopped _ _ ih => exact ih (List.forall_mem_cons.mp hput).2
  | fails _ _ _ ih =>
    obtain ⟨hstep, hdeeper⟩ := List.forall_mem_cons.mp hput
    exact trans (ih hdeeper) (hstep _ _)
  | climbs _ _ _ ih =>
    obtain ⟨hstep, hdeeper⟩ := List.forall_mem_cons.mp hput
    exact trans (ih hdeeper) (hstep _ _)

/-- The steps of a path with the values they start from, when the first starts from `root`. -/
def chain (path : Path) (trail : Trail V) (root : V) : List (Step × V) :=
  (path.first, root) :: path.rest.zip trail.parents.tail

/-- The step into the root is the last step of an ascent of the whole path: if it fails, the failure
is reported with the number of members written; if it succeeds, it is not reported. -/
theorem carry_cases (M : Model σ V) (path : Path) (trail : Trail V) (leaf root : V) (s : σ) :
    (∃ o failure root', M.Ascends leaf s 0 (chain path trail root) o ∧
      o.value.result = .error failure ∧ M.carry path trail leaf root s =
        ⟨(root', .error failure), o.state,
          o.log ++ [.ascentFailed path o.value.written failure]⟩) ∨
    (∃ o placement root' log, M.Ascends leaf s 0 (chain path trail root) o ∧
      o.value.result = .ok (placement.settle root') ∧ o.log = log ++ [.ascended path.first 0] ∧
      M.carry path trail leaf root s = ⟨(root', .ok placement), o.state, log⟩) := by
  have ho := ascends M 1 (path.rest.zip trail.parents.tail) leaf s
  rw [carry, Action.bind_apply]
  generalize M.ascend 1 (path.rest.zip trail.parents.tail) leaf s = o at ho ⊢
  cases hc : o.value.result with
  | error failure => exact .inl ⟨o, failure, root, .stopped ho hc, hc, rfl⟩
  | ok child =>
    dsimp only
    rw [Action.bind_apply]
    cases hp : (M.put root path.first child o.state).value.2 with
    | error fault =>
      refine .inl ⟨_, _, (M.put root path.first child o.state).value.1, .fails ho hc hp, rfl, ?_⟩
      show Outcome.mk _ _ (o.log ++ (_ ++ _)) = _
      rw [← List.append_assoc]
      rfl
    | ok placement =>
      refine .inr ⟨_, placement, (M.put root path.first child o.state).value.1,
        o.log ++ (M.put root path.first child o.state).log, .climbs ho hc hp, rfl, ?_, ?_⟩
      · rw [List.append_assoc]
      · show Outcome.mk _ _ (o.log ++ (_ ++ [])) = _
        rw [List.append_nil]
        rfl

/-- How an edit goes. -/
inductive Updates (M : Model σ V) (path : Path) (change : V → Action σ (Except ε V)) (root : V)
    (s : σ) : Outcome σ (Revision V ε) → Prop
  | lost {failure : Failure} (ht : (M.trail path root s).value = .error failure) :
      Updates M path change root s
        ⟨⟨root, none, .error (.failed failure)⟩, (M.trail path root s).state,
          (M.trail path root s).log⟩
  | declined {trail : Trail V} {t : σ} {found : List Event} {reason : ε}
      (ht : M.trail path root s = ⟨.ok trail, t, found⟩)
      (hc : (change trail.leaf t).value = .error reason) :
      Updates M path change root s
        ⟨⟨root, some trail.leaf, .error (.declined reason)⟩, (change trail.leaf t).state,
          found ++ (change trail.leaf t).log⟩
  | carried {trail : Trail V} {t : σ} {found : List Event} {leaf : V}
      {o : Outcome σ (V × Except Failure (Placement V))}
      (ht : M.trail path root s = ⟨.ok trail, t, found⟩)
      (hc : (change trail.leaf t).value = .ok leaf)
      (ho : M.carry path trail leaf root (change trail.leaf t).state = o) :
      Updates M path change root s
        ⟨⟨o.value.1, some trail.leaf, o.value.2.mapError .failed⟩, o.state,
          found ++ ((change trail.leaf t).log ++ o.log)⟩

theorem updates (M : Model σ V) (path : Path) (change : V → Action σ (Except ε V)) (root : V)
    (s : σ) : M.Updates path change root s (M.update path change root s) := by
  rw [update, Action.bind_apply]
  rcases ht : M.trail path root s with ⟨found, t, log⟩
  cases found with
  | error failure =>
    have hv : (M.trail path root s).value = .error failure := by rw [ht]
    have h : M.Updates path change root s _ := .lost hv
    rw [ht] at h
    show M.Updates path change root s ⟨_, t, log ++ []⟩
    rw [List.append_nil]
    exact h
  | ok trail =>
    dsimp only
    rw [Action.bind_apply]
    cases hc : (change trail.leaf t).value with
    | error reason =>
      show M.Updates path change root s ⟨_, _, log ++ (_ ++ [])⟩
      rw [List.append_nil]
      exact .declined ht hc
    | ok leaf =>
      show M.Updates path change root s ⟨_, _, log ++ (_ ++ (_ ++ []))⟩
      rw [List.append_nil]
      exact .carried ht hc rfl

end DeepPath.Model
