import DeepPath.Event

/-!
# Actions

An action reads and changes a state, reports events and has a result.  Actions run one after the
other are an action again, whose log is the two logs in order: actions form a lawful monad.
-/

namespace DeepPath

/-- What an action leaves behind. -/
structure Outcome (σ α : Type) where
  /-- The result. -/
  value : α
  /-- The state afterwards. -/
  state : σ
  /-- The events reported, first to last. -/
  log : List Event

/-- A computation on a state that reports events. -/
def Action (σ α : Type) : Type :=
  σ → Outcome σ α

namespace Action

variable {σ τ α β γ : Type}

/-- The action that does nothing and has this result. -/
protected def pure (a : α) : Action σ α :=
  fun s => ⟨a, s, []⟩

/-- One action, and then another that depends on its result. -/
protected def bind (x : Action σ α) (f : α → Action σ β) : Action σ β := fun s =>
  let first := x s
  let second := f first.value first.state
  ⟨second.value, second.state, first.log ++ second.log⟩

instance : Monad (Action σ) where
  pure := Action.pure
  bind := Action.bind

/-- Reports one event. -/
def emit (e : Event) : Action σ Unit :=
  fun s => ⟨(), s, [e]⟩

/-- Reports these events. -/
def emitAll (events : List Event) : Action σ Unit :=
  fun s => ⟨(), s, events⟩

/-- The state. -/
def get : Action σ σ :=
  fun s => ⟨s, s, []⟩

/-- Puts `s` in place of the state. -/
def set (s : σ) : Action σ Unit :=
  fun _ => ⟨(), s, []⟩

/-- Changes the state without a report. -/
def change (f : σ → α × σ) : Action σ α := fun s =>
  ⟨(f s).1, (f s).2, []⟩

/-- An action on a part of the state. -/
def within (part : τ → σ) (put : σ → τ → τ) (x : Action σ α) : Action τ α := fun t =>
  let done := x (part t)
  ⟨done.value, put done.state t, done.log⟩

/-! ## What the operations do -/

@[ext] theorem ext {x y : Action σ α} (h : ∀ s, x s = y s) : x = y :=
  funext h

@[simp] theorem pure_apply (a : α) (s : σ) : (pure a : Action σ α) s = ⟨a, s, []⟩ := rfl

@[simp] theorem value_bind (x : Action σ α) (f : α → Action σ β) (s : σ) :
    ((x >>= f) s).value = (f (x s).value (x s).state).value := rfl

@[simp] theorem state_bind (x : Action σ α) (f : α → Action σ β) (s : σ) :
    ((x >>= f) s).state = (f (x s).value (x s).state).state := rfl

@[simp] theorem log_bind (x : Action σ α) (f : α → Action σ β) (s : σ) :
    ((x >>= f) s).log = (x s).log ++ (f (x s).value (x s).state).log := rfl

theorem bind_apply (x : Action σ α) (f : α → Action σ β) (s : σ) :
    (x >>= f) s =
      ⟨(f (x s).value (x s).state).value, (f (x s).value (x s).state).state,
        (x s).log ++ (f (x s).value (x s).state).log⟩ := rfl

@[simp] theorem emit_apply (e : Event) (s : σ) : emit e s = ⟨(), s, [e]⟩ := rfl

@[simp] theorem emitAll_apply (events : List Event) (s : σ) :
    emitAll events s = ⟨(), s, events⟩ := rfl

@[simp] theorem get_apply (s : σ) : (get : Action σ σ) s = ⟨s, s, []⟩ := rfl

@[simp] theorem set_apply (s t : σ) : set s t = ⟨(), s, []⟩ := rfl

@[simp] theorem change_apply (f : σ → α × σ) (s : σ) : change f s = ⟨(f s).1, (f s).2, []⟩ := rfl

instance : LawfulMonad (Action σ) :=
  LawfulMonad.mk' (Action σ)
    (fun x => by
      ext s
      simp [Functor.map, Action.bind, Action.pure])
    (fun a f => by
      ext s
      simp [bind_apply])
    (fun x f g => by
      ext s
      simp [bind_apply, List.append_assoc])

end Action

end DeepPath
