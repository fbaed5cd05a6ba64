import DeepPath.Proofs.Tree.Revision

/-!
# Paths as lenses

A step into a tree is a lens: what is put there is found there, putting back what is there changes nothing,
and of two trees that are put there the second counts.  The lens is partial, for kinds are checked on the
way up; but a tree that was put there leaves every check as it was.

1. A step up writes the first member of a name, or replaces an element of a tuple (`takes`).  From this
   follow the three laws of a step: `follow_inject`, `inject_follow`, `inject_inject`.
2. The recursion along a path has the same laws, by induction on its steps: `exists_leaf_of_revise`,
   `eq_of_revise_ok`, `revise_revise`.

Main statement: so has an edit along a path, failures included (`replace_lens`).
-/

namespace DeepPath

/-- An edit whose outcome can be stored. -/
def Revision.Succeeds {V ε : Type} (r : Revision V ε) : Prop :=
  ∃ placement, r.outcome = .ok placement

namespace Tree

open Model

variable {σ ε δ : Type} {s : σ}

/-! ## Members -/

section

variable {name other : String} {v w old : Tree} {members : List (String × Tree)}

theorem lookup_cons_of_ne (h : name ≠ other) (members : List (String × Tree)) :
    ((other, old) :: members).lookup name = members.lookup name := by
  have hb : (name == other) = false := beq_false_of_ne h
  rw [List.lookup_cons, hb]

theorem writeFirst_cons_self (name : String) (v old : Tree) (members : List (String × Tree)) :
    writeFirst name v ((name, old) :: members) = (name, v) :: members :=
  if_pos rfl

theorem writeFirst_cons_of_ne (h : name ≠ other) (v : Tree) (members : List (String × Tree)) :
    writeFirst name v ((other, old) :: members) = (other, old) :: writeFirst name v members :=
  if_neg h

theorem lookup_writeFirst (h : members.lookup name = some old) (v : Tree) :
    (writeFirst name v members).lookup name = some v := by
  induction members with
  | nil => cases h
  | cons m rest ih =>
    obtain ⟨first, held⟩ := m
    by_cases hn : name = first
    · subst hn
      rw [writeFirst_cons_self, List.lookup_cons_self]
    · rw [lookup_cons_of_ne hn] at h
      rw [writeFirst_cons_of_ne hn, lookup_cons_of_ne hn, ih h]

theorem lookup_writeFirst_of_ne (h : other ≠ name) (v : Tree) (members : List (String × Tree)) :
    (writeFirst name v members).lookup other = members.lookup other := by
  induction members with
  | nil => rfl
  | cons m rest ih =>
    obtain ⟨first, held⟩ := m
    by_cases hn : name = first
    · subst hn
      rw [writeFirst_cons_self, lookup_cons_of_ne h, lookup_cons_of_ne h]
    · rw [writeFirst_cons_of_ne hn, List.lookup_cons, List.lookup_cons, ih]

theorem writeFirst_of_lookup (h : members.lookup name = some v) :
    writeFirst name v members = members := by
  induction members with
  | nil => rfl
  | cons m rest ih =>
    obtain ⟨first, held⟩ := m
    by_cases hn : name = first
    · subst hn
      rw [List.lookup_cons_self] at h
      rw [writeFirst_cons_self, Option.some.inj h]
    · rw [lookup_cons_of_ne hn] at h
      rw [writeFirst_cons_of_ne hn, ih h]

theorem writeFirst_writeFirst (name : String) (v w : Tree) (members : List (String × Tree)) :
    writeFirst name w (writeFirst name v members) = writeFirst name w members := by
  induction members with
  | nil => rfl
  | cons m rest ih =>
    obtain ⟨first, held⟩ := m
    by_cases hn : name = first
    · subst hn
      rw [writeFirst_cons_self, writeFirst_cons_self, writeFirst_cons_self]
    · rw [writeFirst_cons_of_ne hn, writeFirst_cons_of_ne hn, writeFirst_cons_of_ne hn, ih]

end

/-! ## One step -/

section

variable {type name : String} {members : List (String × Tree)} {items : List Tree} {index : UInt64}
  {t u v w child old : Tree} {step : Step}

theorem follow_record (type : String) (members : List (String × Tree)) (name : String) :
    (Tree.record type members).follow (.member name) =
      match members.lookup name with
      | some value => .ok value
      | none => .error (.noMember type) := rfl

theorem follow_tuple (items : List Tree) (index : UInt64) :
    (Tree.tuple items).follow (.element index) =
      match items[index.toNat]? with
      | some item => .ok item
      | none => .error (.outOfRange index items.length) := by
  show (View.mk (Tree.tuple items) items).get index = _
  rw [View.get]
  cases items[index.toNat]? <;> rfl

/-- Writing a member that there is, of a record that can be written. -/
theorem inject_record (hf : type ≠ frozen) (hl : members.lookup name = some old) (child : Tree) :
    (Tree.record type members).inject (.member name) child =
      if old.kind = child.kind then .ok (.record type (writeFirst name child members))
      else .error (.wrongType old.kind child.kind) := by
  rw [inject, setMember, if_neg (show (Tree.record type members).kind ≠ frozen from hf), hl]

/-- Replacing an element that there is. -/
theorem inject_tuple (h : index.toNat < items.length) (child : Tree) :
    (Tree.tuple items).inject (.element index) child =
      match (items.set index.toNat child).find? fun item => item.kind != child.kind with
      | some other => .error (.wrongType child.kind other.kind)
      | none => .ok (.tuple (items.set index.toNat child)) := by
  show rebuild ⟨.tuple items, items⟩ index child = _
  rw [rebuild, View.replaced_of_lt _ child h]
  rfl

/-- How a tree comes to have `child` where a step leads. -/
inductive Takes (child : Tree) : Tree → Step → Tree → Prop
  | member {type name : String} {members : List (String × Tree)} {old : Tree} (hf : type ≠ frozen)
      (hl : members.lookup name = some old) (hk : old.kind = child.kind) :
      Takes child (.record type members) (.member name) (.record type (writeFirst name child members))
  | element {items : List Tree} {index : UInt64} (hlt : index.toNat < items.length) :
      Takes child (.tuple items) (.element index) (.tuple (items.set index.toNat child))

theorem takes (h : t.inject step child = .ok u) : Takes child t step u := by
  cases step with
  | member name =>
    cases t with
    | record type members =>
      rw [inject, setMember] at h
      split at h
      · cases h
      · next hf =>
        split at h
        · cases h
        · next old hl =>
          split at h
          · next hk =>
            cases h
            exact .member hf hl hk
          · cases h
    | _ => cases h
  | element index =>
    cases t with
    | tuple items =>
      by_cases hlt : index.toNat < items.length
      · rw [inject_tuple hlt] at h
        split at h
        · cases h
        · cases h
          exact .element hlt
      · change rebuild ⟨.tuple items, items⟩ index child = _ at h
        rw [rebuild, View.replaced_of_le _ child (Nat.le_of_not_lt hlt)] at h
        cases h
    | _ => cases h

/-- What was put is found. -/
theorem follow_inject (h : t.inject step child = .ok u) : u.follow step = .ok child := by
  cases takes h with
  | member hf hl hk => rw [follow_record, lookup_writeFirst hl]
  | element hlt => rw [follow_tuple, List.getElem?_set_self hlt]

/-- Putting back what is there changes nothing. -/
theorem inject_follow (hc : t.follow step = .ok child) (h : t.inject step child = .ok u) : u = t := by
  cases takes h with
  | member hf hl hk =>
    rw [follow_record, hl] at hc
    cases hc
    rw [writeFirst_of_lookup hl]
  | element hlt =>
    rw [follow_tuple, List.getElem?_eq_getElem hlt] at hc
    cases hc
    rw [List.set_getElem_self]

/-- What was put before does not matter, nor does it for the checks. -/
theorem inject_inject (h : t.inject step v = .ok u) (w : Tree) : u.inject step w = t.inject step w := by
  cases takes h with
  | member hf hl hk =>
    rw [inject_record hf hl, inject_record hf (lookup_writeFirst hl v), writeFirst_writeFirst, hk]
  | @element items index hlt =>
    have hlt' : index.toNat < (items.set index.toNat v).length := by rwa [List.length_set]
    rw [inject_tuple hlt, inject_tuple hlt', List.set_set]

end

/-! ## Along a path -/

section

variable {change : Tree → Except ε Tree} {depth : Nat} {step : Step} {rest steps : List Step}
  {t u w child : Tree}

theorem readFrom_cons (depth : Nat) (step : Step) (rest : List Step) (t : Tree) (s : σ) :
    (model.readFrom depth (step :: rest) t s).value =
      ((t.follow step).mapError fun fault => ⟨fault, step, depth, .descent⟩) >>= fun child =>
        (model.readFrom (depth + 1) rest child s).value := by
  have hstep : (model.step t step s).value = t.follow step := by rw [step_apply]
  have hstate : (model.step t step s).state = s := by rw [step_apply]
  rw [readFrom, Action.value_bind, state_visit, hstate]
  rcases hf : t.follow step with fault | child <;> rw [hf] at hstep
  · rw [visit_of_error hstep]
    rfl
  · rw [visit_of_ok hstep]
    rfl

theorem revise_cons_of_follow (h : t.follow step = .ok child) :
    revise change depth (step :: rest) t =
      revise change (depth + 1) rest child >>= fun revised =>
        (t.inject step revised).mapError fun fault => .failed ⟨fault, step, depth, .ascent⟩ := by
  rw [revise, h]
  rfl

/-- A recursion that succeeds has followed its first step, and has put there what it made of the child. -/
theorem of_revise_cons (h : revise change depth (step :: rest) t = .ok u) :
    ∃ child revised, t.follow step = .ok child ∧
      revise change (depth + 1) rest child = .ok revised ∧ t.inject step revised = .ok u := by
  rcases hf : t.follow step with fault | child
  · rw [revise, hf] at h
    cases h
  rw [revise_cons_of_follow hf] at h
  rcases hr : revise change (depth + 1) rest child with refusal | revised <;> rw [hr] at h
  · cases h
  change (t.inject step revised).mapError _ = _ at h
  rcases hi : t.inject step revised with fault | placed <;> rw [hi] at h <;> cases h
  exact ⟨child, revised, rfl, hr, hi⟩

/-- What the callback has made of the leaf is read back. -/
theorem exists_leaf_of_revise (h : revise change depth steps t = .ok u) (s : σ) :
    ∃ leaf made, (model.readFrom depth steps t s).value = .ok leaf ∧ change leaf = .ok made ∧
      (model.readFrom depth steps u s).value = .ok made := by
  induction steps generalizing depth t u with
  | nil =>
    rw [revise] at h
    rcases hc : change t with reason | made <;> rw [hc] at h <;> cases h
    exact ⟨t, u, rfl, hc, rfl⟩
  | cons step rest ih =>
    obtain ⟨child, revised, hf, hr, hi⟩ := of_revise_cons h
    rw [readFrom_cons, readFrom_cons, hf, follow_inject hi]
    exact ih hr

/-- A callback that returns its leaf changes nothing. -/
theorem eq_of_revise_ok (h : revise (.ok : Tree → Except ε Tree) depth steps t = .ok u) : u = t := by
  induction steps generalizing depth t u with
  | nil =>
    cases h
    rfl
  | cons step rest ih =>
    obtain ⟨child, revised, hf, hr, hi⟩ := of_revise_cons h
    rw [ih hr] at hi
    exact inject_follow hf hi

/-- Putting a tree at the leaf comes to the same before and after another edit of the leaf. -/
theorem revise_revise (h : revise change depth steps t = .ok u) (w : Tree) :
    revise (fun _ => (.ok w : Except δ Tree)) depth steps u =
      revise (fun _ => .ok w) depth steps t := by
  induction steps generalizing depth t u with
  | nil => rfl
  | cons step rest ih =>
    obtain ⟨child, revised, hf, hr, hi⟩ := of_revise_cons h
    rw [revise_cons_of_follow hf, revise_cons_of_follow (follow_inject hi), ih hr]
    simp only [inject_inject hi]

end

/-! ## Edits -/

section

variable {path : Path} {change : Tree → Action σ (Except ε Tree)} {root : Tree}

theorem outcome_update (path : Path) (change : Tree → Action σ (Except ε Tree)) (root : Tree) (s : σ) :
    (model.update path change root s).value.outcome =
      (root.placed path.first (revise (fun leaf => (change leaf s).value) 0 path.steps root)).2 :=
  congrArg Revision.outcome (Prod.mk.inj (effect_update path change root s)).1

/-- An edit that succeeds stores what the recursion returns. -/
theorem revise_of_succeeds (h : (model.update path change root s).value.Succeeds) :
    revise (fun leaf => (change leaf s).value) 0 path.steps root =
      .ok (model.update path change root s).value.stored := by
  have hvalue : (model.update path change root s).value = _ :=
    (Prod.mk.inj (effect_update path change root s)).1
  rw [hvalue] at h ⊢
  generalize revise (fun leaf => (change leaf s).value) 0 path.steps root = result at h ⊢
  obtain ⟨placement, hplaced⟩ := h
  dsimp only at hplaced
  have hsettled := settle_placed root path.first result
  rw [hplaced] at hsettled
  unfold Revision.stored
  dsimp only
  rw [hplaced]
  exact hsettled.symm

theorem revise_of_replace {v : Tree} (h : (model.replace path v root s).value.Succeeds) :
    revise (fun _ => (.ok v : Except Empty Tree)) 0 path.steps root =
      .ok (model.replace path v root s).value.stored :=
  revise_of_succeeds h

/-- Where an outcome is does not depend on the root that it is about. -/
theorem outcome_placed (t u : Tree) (step : Step) (r : Except δ Tree) :
    (t.placed step r).2 = (u.placed step r).2 := by
  cases r with
  | error e => rfl
  | ok v => cases step <;> rfl

end

/-- Every path is a lens, as far as edits along it succeed.  What was put at its leaf is read there.  An
edit that returns the leaf leaves the tree as it is.  After an edit, putting another tree at the leaf has
the outcome that it has without it, a failure as well as a tree. -/
theorem replace_lens (path : Path) (v w root : Tree) (s : σ) :
    let first := model.replace path v root s
    let second := model.replace path w first.value.stored first.state
    let alone := model.replace path w root s
    let kept := model.modify path pure root s
    (first.value.Succeeds →
      (model.read path first.value.stored first.state).value = .ok v ∧
      second.value.outcome = alone.value.outcome ∧
      (alone.value.Succeeds → second.value.stored = alone.value.stored)) ∧
    (kept.value.Succeeds → kept.value.stored = root) := by
  intro first second alone kept
  refine ⟨fun hfirst => ?_, fun hkept => eq_of_revise_ok (revise_of_succeeds hkept)⟩
  have hput := revise_of_replace hfirst
  have hsame := revise_revise (δ := Empty) hput w
  have houtcome : second.value.outcome = alone.value.outcome := by
    have hsecond : second.value.outcome = _ := outcome_update path _ first.value.stored first.state
    have halone : alone.value.outcome = _ := outcome_update path _ root s
    rw [hsecond, halone, outcome_placed _ root]
    exact congrArg (fun result => (root.placed path.first result).2) hsame
  refine ⟨?_, houtcome, fun halone => ?_⟩
  · obtain ⟨leaf, made, -, hmade, hfound⟩ := exists_leaf_of_revise hput first.state
    cases hmade
    rw [Model.read_value]
    exact hfound
  · have hsecond : second.value.Succeeds := by
      rwa [Revision.Succeeds, houtcome]
    have htwice := revise_of_replace hsecond
    have honce := revise_of_replace halone
    exact Except.ok.inj (htwice.symm.trans (hsame.trans honce))

/-- The first of two members called `x` is a tuple of one element, which takes a tree of another kind. -/
theorem replace_lens_single :
    let path : Path := ⟨.member "x", [.element 0]⟩
    let root : Tree := .record "Twice" [("x", .tuple [.int 1]), ("x", .int 2)]
    let first := model.replace path (.text "a") root ()
    let second := model.replace path (.int 3) first.value.stored first.state
    let alone := model.replace path (.int 3) root ()
    first.value.stored = .record "Twice" [("x", .tuple [.text "a"]), ("x", .int 2)] ∧
      (model.read path first.value.stored first.state).value = .ok (.text "a") ∧
      second.value.stored = alone.value.stored ∧
      (model.modify path pure root ()).value.stored = root := by
  intro path root first second alone
  have hfirst : first.value.Succeeds := ⟨.written, rfl⟩
  have halone : alone.value.Succeeds := ⟨.written, rfl⟩
  obtain ⟨hput, hkept⟩ := replace_lens path (.text "a") (.int 3) root ()
  obtain ⟨hread, -, hstored⟩ := hput hfirst
  exact ⟨rfl, hread, hstored halone, hkept ⟨.written, rfl⟩⟩

end Tree

end DeepPath
