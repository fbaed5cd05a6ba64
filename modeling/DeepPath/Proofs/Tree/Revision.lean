import DeepPath.Proofs.Tree.Steps

/-!
# Edits of trees by recursion

An edit walks down a path, recording the trail, and back up the trail.  For trees this comes to the plain
recursion along the path: read the child that the first step leads to, revise it along the other steps, and
put it back.

1. The walk leaves the state alone, so only the callback can change it (`state_descent`, `state_ascent`).
2. The recursion reads what the walk down records, and puts back what the walk up does (`revise_eq`).

Main statement: an edit comes to the recursion, and calls its callback once, on the value that the path
leads to, or not at all (`update_eq_revise`).
-/

namespace DeepPath.Tree

open Model

variable {σ ε : Type}

/-- Revises the leaf at the end of some steps, of which the first is at `depth`: reads the child that the
first step leads to, revises it along the others, and puts it back. -/
def revise (change : Tree → Except ε Tree) : Nat → List Step → Tree → Except (Refusal ε) Tree
  | _, [], leaf => (change leaf).mapError .declined
  | depth, step :: rest, t => do
    let child ← (t.follow step).mapError fun fault => .failed ⟨fault, step, depth, .descent⟩
    let revised ← revise change (depth + 1) rest child
    (t.inject step revised).mapError fun fault => .failed ⟨fault, step, depth, .ascent⟩

/-! ## The walk, step by step -/

section

variable {depth : Nat} {step : Step} {rest : List Step} {t : Tree}

theorem descent_of_follow_error {fault : Fault} (h : t.follow step = .error fault) (s : σ) :
    model.descent depth (step :: rest) t s = (.error ⟨fault, step, depth, .descent⟩, s) := by
  have hstep : (model.step t step s).value = .error fault := by rw [step_apply, h]
  rw [descent_cons_of_error hstep, step_apply]

theorem descent_of_follow_ok {child : Tree} (h : t.follow step = .ok child) (s : σ) :
    model.descent depth (step :: rest) t s =
      (model.descent (depth + 1) rest child s).map (fun found => found.map (Trail.after t)) id := by
  have hstep : (model.step t step s).value = .ok child := by rw [step_apply, h]
  rw [descent_cons_of_ok hstep, step_apply]

theorem state_descent (depth : Nat) (steps : List Step) (t : Tree) (s : σ) :
    (model.descent depth steps t s).2 = s := by
  induction steps generalizing depth t with
  | nil => rfl
  | cons step rest ih =>
    rcases h : t.follow step with fault | child
    · rw [descent_of_follow_error h]
    · rw [descent_of_follow_ok h]
      exact ih (depth + 1) child

theorem ascent_cons_apply (link : Step × Tree) (links : List (Step × Tree)) (leaf : Tree) (s : σ) :
    model.ascent depth (link :: links) leaf s =
      ((model.ascent (depth + 1) links leaf s).1.bind fun child =>
        (link.2.inject link.1 child).mapError (⟨·, link.1, depth, .ascent⟩),
        (model.ascent (depth + 1) links leaf s).2) := by
  rw [ascent_cons]
  exact raise_apply depth link.1 link.2 _ _

theorem state_ascent (depth : Nat) (links : List (Step × Tree)) (leaf : Tree) (s : σ) :
    (model.ascent depth links leaf s).2 = s := by
  induction links generalizing depth with
  | nil => rfl
  | cons link links ih =>
    rw [ascent_cons_apply]
    exact ih (depth + 1)

end

/-! ## The walk and the recursion -/

/-- The recursion reads what the walk down records and puts back what the walk up does, in whichever states
they are walked. -/
theorem revise_eq (change : Tree → Except ε Tree) (depth : Nat) (steps : List Step) (t : Tree)
    (s u : σ) :
    revise change depth steps t =
      (model.descent depth steps t s).1.mapError .failed >>= fun trail =>
        (change trail.leaf).mapError .declined >>= fun leaf =>
          (model.ascent depth (steps.zip trail.parents) leaf u).1.mapError .failed := by
  induction steps generalizing depth t with
  | nil =>
    show (change t).mapError Refusal.declined = ((change t).mapError .declined).bind fun leaf => .ok leaf
    cases change t <;> rfl
  | cons step rest ih =>
    unfold revise
    rcases hfollow : t.follow step with fault | child
    · rw [descent_of_follow_error hfollow]
      rfl
    rw [descent_of_follow_ok hfollow]
    show (revise change (depth + 1) rest child).bind _ = _
    rw [ih (depth + 1) child]
    rcases model.descent (depth + 1) rest child s with ⟨failure | trail, v⟩
    · rfl
    show ((change trail.leaf).mapError Refusal.declined >>= _).bind _ =
      ((change trail.leaf).mapError Refusal.declined).bind fun leaf =>
        (model.ascent depth ((step, t) :: rest.zip trail.parents) leaf u).1.mapError .failed
    rcases change trail.leaf with reason | leaf
    · rfl
    -- the walk up ends with the step that the recursion does last
    show ((model.ascent (depth + 1) (rest.zip trail.parents) leaf u).1.mapError Refusal.failed).bind _ =
      (model.ascent depth ((step, t) :: rest.zip trail.parents) leaf u).1.mapError Refusal.failed
    rw [ascent_cons_apply]
    rcases model.ascent (depth + 1) (rest.zip trail.parents) leaf u with ⟨failure | revised, v⟩
    · rfl
    · show (t.inject step revised).mapError _ = ((t.inject step revised).mapError _).mapError _
      cases t.inject step revised <;> rfl

/-! ## Edits -/

section

variable {path : Path} {root leaf : Tree} {trail : Trail Tree} {s : σ}

section

variable {change : Tree → Except ε Tree}

theorem revise_of_lost {failure : Failure}
    (h : model.descent 0 path.steps root s = (.error failure, s)) :
    revise change 0 path.steps root = .error (.failed failure) := by
  rw [revise_eq change 0 path.steps root s s, h]
  rfl

theorem revise_of_declined {reason : ε}
    (h : model.descent 0 path.steps root s = (.ok trail, s))
    (hc : change trail.leaf = .error reason) :
    revise change 0 path.steps root = .error (.declined reason) := by
  rw [revise_eq change 0 path.steps root s s, h]
  show ((change trail.leaf).mapError Refusal.declined).bind _ = _
  rw [hc]
  rfl

theorem revise_of_carried (h : model.descent 0 path.steps root s = (.ok trail, s))
    (hc : change trail.leaf = .ok leaf) (u : σ) :
    revise change 0 path.steps root =
      (model.ascent 0 (chain path trail root) leaf u).1.mapError .failed := by
  obtain ⟨parents, htrail, -⟩ := parents_of_descent h
  have hchain : path.steps.zip trail.parents = chain path trail root := by
    rw [chain, htrail]
    rfl
  rw [revise_eq change 0 path.steps root s u, h]
  show ((change trail.leaf).mapError Refusal.declined).bind _ = _
  rw [hc, ← hchain]
  rfl

end

/-- A leaf that is carried into the root ascends the whole path, and the first step places the outcome. -/
theorem effect_carry_placed :
    (model.carry path trail leaf root s).effect =
      (root.placed path.first (model.ascent 0 (chain path trail root) leaf s).1, s) := by
  have hstate := state_ascent 1 (path.rest.zip trail.parents.tail) leaf s
  rw [effect_carry, chain, ascent_cons_apply]
  generalize model.ascent 1 (path.rest.zip trail.parents.tail) leaf s = up at hstate ⊢
  obtain ⟨result, t⟩ := up
  obtain rfl : t = s := hstate
  exact land_apply root path.first result t

theorem read_value : (model.read path root s).value =
    (model.descent 0 path.steps root s).1.map Trail.leaf :=
  congrArg Prod.fst effect_read

/-- What an edit of a tree comes to: the first step places what the recursion returns. -/
theorem effect_update (path : Path) (change : Tree → Action σ (Except ε Tree)) (root : Tree) (s : σ) :
    let found := (model.read path root s).value
    let placed :=
      root.placed path.first (revise (fun leaf => (change leaf s).value) 0 path.steps root)
    (model.update path change root s).effect =
      (⟨placed.1, found.toOption, placed.2⟩,
        match found with
        | .ok leaf => (change leaf s).state
        | .error _ => s) := by
  have hstate := state_descent 0 path.steps root s
  rcases hdown : model.descent 0 path.steps root s with ⟨failure | trail, t⟩ <;>
    rw [hdown] at hstate <;>
    obtain rfl : t = s := hstate
  · rw [effect_update_of_lost hdown, read_value, hdown, revise_of_lost hdown]
    rfl
  rw [read_value, hdown]
  show _ = (_, (change trail.leaf t).state)
  rcases hchange : (change trail.leaf t).effect with ⟨reason | leaf, u⟩ <;>
    obtain ⟨hvalue, rfl⟩ := Prod.mk.inj hchange
  · rw [effect_update_of_declined hdown hchange, revise_of_declined hdown hvalue]
    rfl
  · rw [effect_update_of_carried hdown hchange, effect_carry_placed,
      revise_of_carried hdown hvalue (change trail.leaf t).state, placed_mapError]
    rfl

/-- An edit of a tree comes to the recursion along its path.  If the recursion returns a tree, that is the
root once the outcome is stored; it is written in the root exactly if the path starts with a member, and is
otherwise handed out as a new tuple.  If the recursion fails, the edit fails in the same way and its root is
unchanged.  The callback runs once, on the value that the path leads to, or not at all if it leads to
none. -/
theorem update_eq_revise (path : Path) (change : Tree → Action σ (Except ε Tree)) (root : Tree) (s : σ) :
    let done := model.update path change root s
    let found := (model.read path root s).value
    (match revise (fun leaf => (change leaf s).value) 0 path.steps root with
      | .ok revised => done.value.stored = revised ∧
          (done.value.root, done.value.outcome) =
            if path.first.isMember then (revised, .ok .written) else (root, .ok (.built revised))
      | .error refusal => done.value.root = root ∧ done.value.outcome = .error refusal) ∧
    done.value.leaf = found.toOption ∧
    done.state =
      match found with
      | .ok leaf => (change leaf s).state
      | .error _ => s := by
  intro done found
  obtain ⟨hvalue, hstate⟩ := Prod.mk.inj (effect_update path change root s)
  have hdone : done.value = _ := hvalue
  refine ⟨?_, congrArg Revision.leaf hvalue, hstate⟩
  rw [hdone]
  rcases revise (fun leaf => (change leaf s).value) 0 path.steps root with refusal | revised
  · exact ⟨rfl, rfl⟩
  · unfold placed Revision.stored
    by_cases hfirst : path.first.isMember <;> simp [hfirst, Placement.settle]

/-- A callback that notes what it is called with. -/
example :
    let change : Tree → Action (List Tree) (Except Empty Tree) := fun leaf seen =>
      ⟨.ok (.int 7), seen ++ [leaf], []⟩
    let root : Tree := .record "Pair" [("both", .tuple [.int 1, .int 2])]
    (model.update ⟨.member "both", [.element 1]⟩ change root []).state = [.int 2] := by
  rfl

end

end DeepPath.Tree
