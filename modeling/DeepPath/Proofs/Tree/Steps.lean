import DeepPath.Proofs.Model.Effect
import DeepPath.Tree.Basic

/-!
# Steps through trees

What one step of a walk does to a tree, as a function of trees: `follow` for a step down, `inject` for a
step up.  The model leaves the state alone and reports nothing, so its steps are these functions
(`step_apply`, `put_apply`).
-/

namespace DeepPath.Tree

open Model

variable {σ δ : Type} {t : Tree} {name : String}

/-- What a step leads to. -/
def follow (t : Tree) : Step → Except Fault Tree
  | .member name => t.getMember name
  | .element index => t.view.bind fun view => view.get index

/-- The tree with `child` where a step leads. -/
def inject (t : Tree) : Step → Tree → Except Fault Tree
  | .member name, child => t.setMember name child
  | .element index, child => t.view.bind fun view => rebuild view index child

/-- The tree after an edit whose first step is `step`, and where the outcome is: a member is written in the
tree, an element is in a new tuple. -/
def placed (t : Tree) (step : Step) : Except δ Tree → Tree × Except δ (Placement Tree)
  | .error e => (t, .error e)
  | .ok u => if step.isMember then (u, .ok .written) else (t, .ok (.built u))

theorem placed_mapError {δ' : Type} (t : Tree) (step : Step) (f : δ → δ') (r : Except δ Tree) :
    t.placed step (r.mapError f) = (t.placed step r).map id fun outcome => outcome.mapError f := by
  cases r with
  | error e => rfl
  | ok u => cases step <;> rfl

/-- The outcome stored in the tree is the tree it was to be. -/
theorem settle_placed (t : Tree) (step : Step) (r : Except δ Tree) :
    (t.placed step r).2.map (·.settle (t.placed step r).1) = r := by
  cases r with
  | error e => rfl
  | ok u => cases step <;> rfl

/-! ## Down -/

theorem hasMember_apply (t : Tree) (name : String) (s : σ) :
    model.hasMember t name s = ⟨(t.members.lookup name).isSome, s, []⟩ := rfl

theorem isContainer_apply (t : Tree) (s : σ) :
    model.isContainer t s = ⟨t.isContainer, s, []⟩ := rfl

theorem view_apply (t : Tree) (s : σ) : model.view t s = ⟨t.view, s, []⟩ := rfl

theorem getMember_of_not_has (h : ¬ (t.members.lookup name).isSome) :
    t.getMember name = .error (.noMember t.kind) := by
  rw [Option.not_isSome_iff_eq_none] at h
  rw [getMember, h]

theorem view_of_not_isContainer (h : ¬ t.isContainer) : t.view = .error (.noContainer t.kind) := by
  cases t with
  | tuple items => exact absurd rfl h
  | _ => rfl

/-- The model asks before it reads, but reading fails with the same fault. -/
theorem step_apply (t : Tree) (step : Step) (s : σ) :
    model.step t step s = ⟨t.follow step, s, []⟩ := by
  cases step with
  | member name =>
    rw [Model.step, Action.bind_apply, hasMember_apply]
    by_cases h : (t.members.lookup name).isSome
    · rw [if_pos h]
      rfl
    · rw [if_neg h, follow, getMember_of_not_has h]
      rfl
  | element index =>
    rw [Model.step, Action.bind_apply, isContainer_apply]
    by_cases h : t.isContainer
    · rw [if_pos h]
      rfl
    · rw [if_neg h, follow, view_of_not_isContainer h]
      rfl

/-! ## Up -/

section

variable {child : Tree}

theorem setMember_of_error {fault : Fault} (h : t.setMember name child = .error fault) (s : σ) :
    model.setMember t name child s = ⟨(t, .error fault), s, []⟩ := by
  simp only [model, h]
  rfl

theorem setMember_of_ok {written : Tree} (h : t.setMember name child = .ok written) (s : σ) :
    model.setMember t name child s = ⟨(written, .ok ()), s, []⟩ := by
  simp only [model, h]
  rfl

end

theorem put_apply (t : Tree) (step : Step) (child : Tree) (s : σ) :
    model.put t step child s = ⟨t.placed step (t.inject step child), s, []⟩ := by
  cases step with
  | member name =>
    rw [Model.put, Action.bind_apply, inject]
    rcases h : t.setMember name child with fault | written
    · rw [setMember_of_error h]
      rfl
    · rw [setMember_of_ok h]
      rfl
  | element index =>
    rw [Model.put, Action.bind_apply, view_apply, inject]
    cases t.view with
    | error fault => rfl
    | ok view =>
      show Outcome.mk (t, (rebuild view index child).map Placement.built) s [] = _
      dsimp only [Except.bind]
      cases rebuild view index child <;> rfl

/-- A step up hands on the tree with the child in it. -/
theorem raise_apply (depth : Nat) (step : Step) (t : Tree) (result : Except Failure Tree) (s : σ) :
    model.raise depth (step, t) (result, s) =
      (result.bind fun child => (t.inject step child).mapError (⟨·, step, depth, .ascent⟩), s) := by
  cases result with
  | error failure => rfl
  | ok child =>
    simp only [raise, put_apply, settle_placed]
    rfl

/-- The step into the root places the tree with the child in it. -/
theorem land_apply (root : Tree) (step : Step) (result : Except Failure Tree) (s : σ) :
    model.land root step (result, s) =
      (root.placed step
        (result.bind fun child => (root.inject step child).mapError (⟨·, step, 0, .ascent⟩)), s) := by
  cases result with
  | error failure => rfl
  | ok child =>
    simp only [land, put_apply, Except.bind, placed_mapError]
    rfl

end DeepPath.Tree
