import DeepPath.Model.Read
import DeepPath.Model.Trail
import DeepPath.Proofs.Graph.Steps
import DeepPath.Proofs.Model.Ascent

/-!
# Walks down a store

A walk down reads the store and leaves it alone.  Reading a path finds what its steps lead to
(`read_spec`).  The steps of a recorded trail are linked: each leads from its value to the value of the
next step, the last one to the leaf (`linked_of_trail`).  What every step keeps holds at the end of a walk
(`of_arrive?`) and of all values on its way (`Linked.forall`).
-/

namespace DeepPath.Graph

open Model

variable {s t : Store} {v leaf root : Value} {depth : Nat} {step : Step} {rest : List Step}

/-! ## Down -/

theorem visit_apply (s : Store) (depth : Nat) (v : Value) (step : Step) :
    model.visit depth v step s =
      ⟨(follow s v step).mapError fun fault => ⟨fault, step, depth, .descent⟩, s,
        [.descended step depth (follow s v step).isOk]⟩ := by
  rw [visit, Action.bind_apply, step_apply]
  rfl

theorem trailFrom_cons_of_ok {u : Value} (h : follow s v step = .ok u) :
    model.trailFrom depth (step :: rest) v s =
      ⟨(model.trailFrom (depth + 1) rest u s).value.map (Trail.after v),
        (model.trailFrom (depth + 1) rest u s).state,
        .descended step depth true :: (model.trailFrom (depth + 1) rest u s).log⟩ := by
  rw [trailFrom, Action.bind_apply, visit_apply, h]
  show Outcome.mk _ _ (_ :: (_ ++ [])) = _
  rw [List.append_nil]
  rfl

theorem trailFrom_cons_of_error {fault : Fault} (h : follow s v step = .error fault) :
    model.trailFrom depth (step :: rest) v s =
      ⟨.error ⟨fault, step, depth, .descent⟩, s, [.descended step depth false]⟩ := by
  rw [trailFrom, Action.bind_apply, visit_apply, h]
  rfl

/-- Recording a trail changes nothing and gives no warning. -/
theorem trailFrom_quiet (s : Store) (depth : Nat) (steps : List Step) (v : Value) :
    (model.trailFrom depth steps v s).state = s ∧
      ∀ e ∈ (model.trailFrom depth steps v s).log, e.level ≠ .warn := by
  induction steps generalizing depth v with
  | nil => exact ⟨rfl, fun e he => nomatch he⟩
  | cons step rest ih =>
    cases h : follow s v step with
    | error fault =>
      rw [trailFrom_cons_of_error h]
      refine ⟨rfl, fun e he => ?_⟩
      rw [List.mem_singleton.mp he]
      exact nofun
    | ok u =>
      rw [trailFrom_cons_of_ok h]
      obtain ⟨hs, hlog⟩ := ih (depth + 1) u
      refine ⟨hs, fun e he => ?_⟩
      rcases List.mem_cons.mp he with rfl | he
      · exact nofun
      · exact hlog e he

theorem trail_eq (s : Store) (path : Path) (v : Value) :
    ∃ log, model.trail path v s = ⟨(model.trailFrom 0 path.steps v s).value, s, log⟩ ∧
      ∀ e ∈ log, e.level ≠ .warn := by
  obtain ⟨hs, hlog⟩ := trailFrom_quiet s 0 path.steps v
  rw [trail, Action.bind_apply]
  rcases h : model.trailFrom 0 path.steps v s with ⟨found, t, log⟩
  rw [h] at hs hlog
  obtain rfl : t = s := hs
  cases found with
  | ok found => exact ⟨log ++ [], rfl, by rwa [List.append_nil]⟩
  | error failure =>
    refine ⟨log ++ [.trailFailed path failure], rfl, fun e he => ?_⟩
    rcases List.mem_append.mp he with he | he
    · exact hlog e he
    · rw [List.mem_singleton.mp he]
      exact nofun

theorem trailFrom_failure {steps : List Step} {failure : Failure}
    (h : (model.trailFrom depth steps v s).value = .error failure) :
    failure.direction = .descent := by
  induction steps generalizing depth v with
  | nil => cases h
  | cons step rest ih =>
    cases hf : follow s v step with
    | error fault =>
      rw [trailFrom_cons_of_error hf] at h
      cases h
      rfl
    | ok u =>
      rw [trailFrom_cons_of_ok hf] at h
      dsimp only at h
      cases hr : (model.trailFrom (depth + 1) rest u s).value with
      | error inner =>
        rw [hr] at h
        cases h
        exact ih hr
      | ok inner =>
        rw [hr] at h
        cases h

/-- A trail that cannot be recorded fails on the way down. -/
theorem trail_failure {path : Path} {failure : Failure}
    (h : (model.trail path root s).value = .error failure) : failure.direction = .descent := by
  obtain ⟨log, heq, -⟩ := trail_eq s path root
  rw [heq] at h
  exact trailFrom_failure h

theorem trail_state (s : Store) (path : Path) (v : Value) : (model.trail path v s).state = s := by
  obtain ⟨log, h, -⟩ := trail_eq s path v
  rw [h]

/-! ## Reads -/

/-- What steps lead to, if all of them can be done. -/
def arrive? (s : Store) : List Step → Value → Option Value
  | [], v => some v
  | step :: rest, v =>
    match follow s v step with
    | .ok u => arrive? s rest u
    | .error _ => none

theorem arrive?_cons_eq_some {w : Value} :
    arrive? s (step :: rest) v = some w ↔
      ∃ u, follow s v step = .ok u ∧ arrive? s rest u = some w := by
  rw [arrive?]
  cases follow s v step with
  | ok u => exact ⟨fun h => ⟨u, rfl, h⟩, fun ⟨_, hu, h⟩ => Except.ok.inj hu ▸ h⟩
  | error fault => exact ⟨nofun, fun ⟨_, hu, _⟩ => nomatch hu⟩

theorem readFrom_spec (s : Store) (depth : Nat) (steps : List Step) (v : Value) :
    (model.readFrom depth steps v s).state = s ∧
      ∀ w, (model.readFrom depth steps v s).value = .ok w ↔ arrive? s steps v = some w := by
  induction steps generalizing depth v with
  | nil => exact ⟨rfl, fun w => ⟨fun h => by cases h; rfl, fun h => by cases h; rfl⟩⟩
  | cons step rest ih =>
    rw [readFrom, Action.bind_apply, visit_apply, arrive?]
    cases h : follow s v step with
    | error fault => exact ⟨rfl, fun w => ⟨nofun, nofun⟩⟩
    | ok u => exact ih (depth + 1) u

theorem readFrom_cons_of_ok {u : Value} (h : follow s v step = .ok u) :
    (model.readFrom depth (step :: rest) v s).value =
      (model.readFrom (depth + 1) rest u s).value := by
  rw [readFrom, Action.bind_apply, visit_apply, h]
  rfl

theorem readFrom_cons_of_error {fault : Fault} (h : follow s v step = .error fault) :
    (model.readFrom depth (step :: rest) v s).value = .error ⟨fault, step, depth, .descent⟩ := by
  rw [readFrom, Action.bind_apply, visit_apply, h]
  rfl

/-- Reading a path changes nothing, and finds what its steps lead to. -/
theorem read_spec (s : Store) (path : Path) (v : Value) :
    (model.read path v s).state = s ∧
      ∀ w, (model.read path v s).value = .ok w ↔ arrive? s path.steps v = some w := by
  obtain ⟨hs, hv⟩ := readFrom_spec s 0 path.steps v
  rw [Model.read, Action.bind_apply]
  rcases h : model.readFrom 0 path.steps v s with ⟨found, t, log⟩
  rw [h] at hs hv
  cases found with
  | ok found => exact ⟨hs, hv⟩
  | error failure => exact ⟨hs, hv⟩

/-- What holds of a value and is kept by every step holds of what is found. -/
theorem of_arrive? {P : Value → Prop}
    (hP : ∀ ⦃v : Value⦄ ⦃step : Step⦄ ⦃c : Value⦄, P v → follow s v step = .ok c → P c)
    {steps : List Step} {w : Value} (hv : P v) (h : arrive? s steps v = some w) : P w := by
  induction steps generalizing v with
  | nil =>
    cases h
    exact hv
  | cons step rest ih =>
    obtain ⟨u, hu, h⟩ := arrive?_cons_eq_some.mp h
    exact ih (hP hv hu) h

/-! ## Linked steps -/

/-- The value that the first of some steps starts from; the leaf if there is none. -/
def top (leaf : Value) : List (Step × Value) → Value
  | [] => leaf
  | (_, v) :: _ => v

theorem of_top {P : Value → Prop} {chain : List (Step × Value)} (hl : P leaf)
    (hc : ∀ link ∈ chain, P link.2) : P (top leaf chain) := by
  cases chain with
  | nil => exact hl
  | cons link deeper => exact hc link List.mem_cons_self

/-- Each step leads from its value to that of the next, and the last one to the leaf. -/
def Linked (s : Store) (leaf : Value) : List (Step × Value) → Prop
  | [] => True
  | (step, v) :: deeper => follow s v step = .ok (top leaf deeper) ∧ Linked s leaf deeper

theorem Linked.follow_eq {pre rest : List (Step × Value)}
    (h : Linked s leaf (pre ++ (step, v) :: rest)) : follow s v step = .ok (top leaf rest) := by
  induction pre with
  | nil => exact h.1
  | cons link pre ih => exact ih h.2

theorem linked_of_trailFrom {trail : Trail Value} (steps : List Step) {depth : Nat} {v : Value}
    (h : (model.trailFrom depth steps v s).value = .ok trail) :
    trail.parents.length = steps.length ∧ top trail.leaf (steps.zip trail.parents) = v ∧
      Linked s trail.leaf (steps.zip trail.parents) := by
  induction steps generalizing depth v trail with
  | nil =>
    cases h
    exact ⟨rfl, rfl, trivial⟩
  | cons step rest ih =>
    cases hf : follow s v step with
    | error fault =>
      rw [trailFrom_cons_of_error hf] at h
      cases h
    | ok u =>
      rw [trailFrom_cons_of_ok hf] at h
      cases hr : (model.trailFrom (depth + 1) rest u s).value with
      | error failure =>
        dsimp only at h
        rw [hr] at h
        cases h
      | ok inner =>
        dsimp only at h
        rw [hr] at h
        cases h
        obtain ⟨hlen, htop, hlink⟩ := ih hr
        refine ⟨congrArg (· + 1) hlen, rfl, ?_, hlink⟩
        rw [← htop] at hf
        exact hf

/-- A recorded trail starts with the root, and its steps are linked. -/
theorem linked_of_trail {trail : Trail Value} {path : Path}
    (h : (model.trail path root s).value = .ok trail) :
    path.steps.zip trail.parents = chain path trail root ∧ trail.parents.head? = some root ∧
      trail.parents.length = path.length ∧ Linked s trail.leaf (chain path trail root) := by
  obtain ⟨log, heq, -⟩ := trail_eq s path root
  rw [heq] at h
  obtain ⟨hlen, htop, hlink⟩ := linked_of_trailFrom path.steps h
  obtain ⟨parents, leaf⟩ := trail
  cases parents with
  | nil => cases hlen
  | cons first parents =>
    obtain rfl : first = root := htop
    exact ⟨rfl, rfl, hlen, hlink⟩

/-- What holds of the top and is kept by every step holds of all values on the way. -/
theorem Linked.forall {P : Value → Prop}
    (hP : ∀ ⦃v : Value⦄ ⦃step : Step⦄ ⦃c : Value⦄, P v → follow s v step = .ok c → P c)
    {chain : List (Step × Value)} (hl : Linked s leaf chain) (hv : P (top leaf chain)) :
    P leaf ∧ ∀ link ∈ chain, P link.2 := by
  induction chain with
  | nil => exact ⟨hv, fun _ h => nomatch h⟩
  | cons link deeper ih =>
    obtain ⟨hleaf, hall⟩ := ih hl.2 (hP hv hl.1)
    exact ⟨hleaf, List.forall_mem_cons.mpr ⟨hv, hall⟩⟩

theorem wellTyped_of_trail (hs : s.WellTyped) (hr : root.WellTyped s) {trail : Trail Value}
    {path : Path} (h : (model.trail path root s).value = .ok trail) :
    trail.leaf.WellTyped s ∧ ∀ link ∈ chain path trail root, link.2.WellTyped s :=
  (linked_of_trail h).2.2.2.forall (fun _ _ _ => wellTyped_of_follow hs) hr

end DeepPath.Graph
