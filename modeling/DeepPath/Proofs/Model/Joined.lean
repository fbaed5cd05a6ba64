import DeepPath.Proofs.Model.Effect

/-!
# Edits along joined paths

`update_append`: an edit along `p ++ q` comes to what an edit along `p` comes to whose callback edits the
leaf along `q`, over every model.

1. The trail of joined steps is the trail of the first ones, continued from its leaf by the trail of the
   others (`descent_append`), and an ascent of joined links is the ascent of the lower ones followed by that
   of the upper ones (`ascent_append`).
2. Steps that start deeper fail deeper, and differ in nothing else (`descent_add`, `ascent_add`).
3. So the steps of `q` are carried up to the leaf of `p` in the same way, whether this is on the way to a
   root or a root itself (`ascent_joined`).
-/

namespace DeepPath

/-- The same failure, counted from `k` steps further up. -/
def Failure.below (k : Nat) (f : Failure) : Failure :=
  { f with depth := k + f.depth }

/-- A refusal of an edit whose callback is an edit, `k` steps further down, as a refusal of one edit. -/
def Refusal.flatten {ε : Type} (k : Nat) : Refusal (Refusal ε) → Refusal ε
  | .failed failure => .failed failure
  | .declined (.failed failure) => .failed (failure.below k)
  | .declined (.declined reason) => .declined reason

/-- A trail that goes on with another one, which starts at its leaf. -/
def Trail.append {V : Type} (t u : Trail V) : Trail V :=
  ⟨t.parents ++ u.parents, u.leaf⟩

namespace Model

variable {σ V ε : Type} {M : Model σ V}

/-! ## Joined walks -/

theorem descent_append (M : Model σ V) (depth : Nat) (a b : List Step) (v : V) (s : σ) :
    M.descent depth (a ++ b) v s =
      match M.descent depth a v s with
      | (.error failure, t) => (.error failure, t)
      | (.ok trail, t) =>
        (M.descent (depth + a.length) b trail.leaf t).map (fun found => found.map trail.append) id := by
  induction a generalizing depth v s with
  | nil =>
    show M.descent depth b v s = (M.descent depth b v s).map (fun found => found.map id) id
    rcases M.descent depth b v s with ⟨failure | trail, t⟩ <;> rfl
  | cons step rest ih =>
    rw [List.cons_append]
    cases h : (M.step v step s).value with
    | error fault => rw [descent_cons_of_error h, descent_cons_of_error h]
    | ok next =>
      rw [descent_cons_of_ok h, descent_cons_of_ok h, ih]
      rcases M.descent (depth + 1) rest next (M.step v step s).state with ⟨failure | trail, t⟩
      · rfl
      · dsimp only [Prod.map, Except.map, id_eq, Trail.leaf_after]
        rw [List.length_cons, Nat.add_assoc, Nat.add_comm 1]
        rcases M.descent (depth + (rest.length + 1)) b trail.leaf t with ⟨failure | found, u⟩ <;> rfl

theorem descent_add (M : Model σ V) (k depth : Nat) (steps : List Step) (v : V) (s : σ) :
    M.descent (k + depth) steps v s =
      (M.descent depth steps v s).map (fun found => found.mapError (.below k)) id := by
  induction steps generalizing depth v s with
  | nil => rfl
  | cons step rest ih =>
    cases h : (M.step v step s).value with
    | error fault =>
      rw [descent_cons_of_error h, descent_cons_of_error h]
      rfl
    | ok next =>
      rw [descent_cons_of_ok h, descent_cons_of_ok h, Nat.add_assoc, ih]
      rcases M.descent (depth + 1) rest next (M.step v step s).state with ⟨failure | trail, t⟩ <;> rfl

theorem ascent_append (M : Model σ V) (depth : Nat) (a b : List (Step × V)) (leaf : V) (s : σ) :
    M.ascent depth (a ++ b) leaf s =
      match M.ascent (depth + a.length) b leaf s with
      | (.error failure, t) => (.error failure, t)
      | (.ok child, t) => M.ascent depth a child t := by
  induction a generalizing depth with
  | nil =>
    rw [List.nil_append, List.length_nil, Nat.add_zero]
    rcases M.ascent depth b leaf s with ⟨failure | child, t⟩ <;> rfl
  | cons link rest ih =>
    rw [List.cons_append, ascent_cons, ih, List.length_cons, Nat.add_assoc, Nat.add_comm 1]
    rcases M.ascent (depth + (rest.length + 1)) b leaf s with ⟨failure | child, t⟩
    · rfl
    · exact (ascent_cons link).symm

theorem ascent_add (M : Model σ V) (k depth : Nat) (links : List (Step × V)) (leaf : V) (s : σ) :
    M.ascent (k + depth) links leaf s =
      (M.ascent depth links leaf s).map (fun result => result.mapError (.below k)) id := by
  induction links generalizing depth with
  | nil => rfl
  | cons link rest ih =>
    rw [ascent_cons, ascent_cons, Nat.add_assoc, ih]
    rcases M.ascent (depth + 1) rest leaf s with ⟨failure | child, t⟩
    · rfl
    · obtain ⟨step, parent⟩ := link
      show M.raise (k + depth) _ (.ok child, t) = (M.raise depth _ (.ok child, t)).map _ id
      cases hp : (M.put parent step child t).value.2 with
      | error fault =>
        rw [raise_of_error hp, raise_of_error hp]
        rfl
      | ok placement =>
        rw [raise_of_ok hp, raise_of_ok hp]
        rfl

/-! ## Joined paths -/

section

variable {p q : Path} {tp tq : Trail V} {root : V} {s t u : σ}
  (hp : M.descent 0 p.steps root s = (.ok tp, t)) (hq : M.descent 0 q.steps tp.leaf t = (.ok tq, u))
include hp hq

theorem chain_append :
    (p ++ q).rest.zip (tp.append tq).parents.tail =
      p.rest.zip tp.parents.tail ++ chain q tq tp.leaf := by
  obtain ⟨parents, htp, hlen⟩ := parents_of_descent hp
  obtain ⟨parents', htq, -⟩ := parents_of_descent hq
  rw [Path.rest_append, Trail.append, chain, htp, htq, List.cons_append, List.tail_cons,
    List.tail_cons, List.zip_append hlen.symm]
  rfl

/-- The steps of `q` hand up what an edit of the leaf of `p` would store in its place. -/
theorem ascent_joined (leaf : V) (w : σ) :
    M.ascent 1 ((p ++ q).rest.zip (tp.append tq).parents.tail) leaf w =
      match (M.carry q tq leaf tp.leaf w).effect with
      | ((_, .error failure), w') => (.error (failure.below p.length), w')
      | ((leaf', .ok placement), w') =>
        M.ascent 1 (p.rest.zip tp.parents.tail) (placement.settle leaf') w' := by
  obtain ⟨parents, htp, hlen⟩ := parents_of_descent hp
  have hdepth : 1 + (p.rest.zip tp.parents.tail).length = p.length + 0 := by
    simp [htp, hlen, Path.length, Nat.add_comm]
  rw [chain_append hp hq, ascent_append, hdepth, ascent_add, ascent_chain]
  rcases (M.carry q tq leaf tp.leaf w).effect with ⟨⟨leaf', failure | placement⟩, w'⟩ <;> rfl

end

/-! ## Edits -/

/-- Edits a leaf along a further path; a new container is stored in place of the leaf. -/
def updateLeaf (M : Model σ V) (path : Path) (change : V → Action σ (Except ε V)) (leaf : V) :
    Action σ (Except (Refusal ε) V) := do
  let revision ← M.update path change leaf
  return revision.outcome.map fun _ => revision.stored

theorem effect_updateLeaf {path : Path} {change : V → Action σ (Except ε V)} {leaf : V} {s t : σ}
    {revision : Revision V ε} (h : (M.update path change leaf s).effect = (revision, t)) :
    (M.updateLeaf path change leaf s).effect =
      (revision.outcome.map fun _ => revision.stored, t) := by
  obtain ⟨rfl, rfl⟩ := Prod.mk.inj h
  rfl

/-- An edit along joined paths is an edit along the first one whose callback edits the leaf along the
second one.  They end in the same state, with the same root and the same outcome; a failure below the
leaf of the first path is, along the joined paths, as much deeper as that path is long. -/
theorem update_append (M : Model σ V) (p q : Path) (change : V → Action σ (Except ε V)) (root : V)
    (s : σ) :
    let joined := M.update (p ++ q) change root s
    let nested := M.update p (M.updateLeaf q change) root s
    joined.state = nested.state ∧ joined.value.root = nested.value.root ∧
      joined.value.outcome = nested.value.outcome.mapError (.flatten p.length) := by
  suffices h : (M.update (p ++ q) change root s).effect.map (fun r => (r.root, r.outcome)) id =
      (M.update p (M.updateLeaf q change) root s).effect.map
        (fun r => (r.root, r.outcome.mapError (.flatten p.length))) id by
    obtain ⟨hvalue, hstate⟩ := Prod.mk.inj h
    obtain ⟨hroot, houtcome⟩ := Prod.mk.inj hvalue
    exact ⟨hstate, hroot, houtcome⟩
  have hdown := M.descent_append 0 p.steps q.steps root s
  rw [← Path.steps_append, Nat.zero_add, Path.length_steps] at hdown
  rcases hp : M.descent 0 p.steps root s with ⟨failure | tp, t⟩ <;> rw [hp] at hdown
  · -- lost before the leaf of `p`
    rw [effect_update_of_lost hdown, effect_update_of_lost hp]
    rfl
  dsimp only at hdown
  rw [← Nat.add_zero p.length, descent_add] at hdown
  rcases hq : M.descent 0 q.steps tp.leaf t with ⟨failure | tq, u⟩ <;> rw [hq] at hdown
  · -- lost behind it
    have hinner : (M.update q change tp.leaf t).effect = _ := effect_update_of_lost hq
    have hleaf := effect_updateLeaf hinner
    rw [effect_update_of_lost hdown, effect_update_of_declined hp hleaf]
    rfl
  rcases hc : (change tq.leaf u).effect with ⟨reason | leaf, u'⟩
  · have hleaf := effect_updateLeaf (effect_update_of_declined hq hc)
    rw [effect_update_of_declined hdown hc, effect_update_of_declined hp hleaf]
    rfl
  have hinner := effect_update_of_carried hq hc
  rw [effect_update_of_carried hdown hc, effect_carry, ascent_joined hp hq leaf u']
  rcases hcarry : (M.carry q tq leaf tp.leaf u').effect with ⟨⟨leaf', failure | placement⟩, w⟩ <;>
    rw [hcarry] at hinner
  · -- carried up, but not to the leaf of `p`
    rw [effect_update_of_declined hp (effect_updateLeaf hinner)]
    rfl
  · have hleaf : (M.updateLeaf q change tp.leaf t).effect = (.ok (placement.settle leaf'), w) :=
      effect_updateLeaf hinner
    rw [effect_update_of_carried hp hleaf, effect_carry, Path.first_append]
    generalize M.land root p.first _ = landed
    rcases landed with ⟨⟨root', failure | placement'⟩, w'⟩ <;> rfl

end Model

end DeepPath
