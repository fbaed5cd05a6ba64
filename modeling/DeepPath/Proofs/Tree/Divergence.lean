import DeepPath.Proofs.Tree.Lens

/-!
# Paths that part

Two paths part if neither is the beginning of the other: after some common steps, possibly none, each goes
on with a step of its own.  They lead to separate places of a tree, whatever is there.  Going back up, an
edit along one of them rebuilds all that the common steps lead through, and still touches nothing of the
other's.

1. Where two steps differ, what one puts the other does not find (`follow_inject_of_ne`), and both may put
   in either order (`inject_comm`).
2. By induction on how two paths part, the same holds of the recursions along them: `readFrom_of_part`,
   `revise_comm`.

Main statements: an edit along one path is invisible along the other, to reads that fail as well
(`read_update_of_part`); and replacements along both give the same tree in either order
(`replace_replace_comm`).
-/

namespace DeepPath

/-- After common steps there is a step of each, and these differ. -/
inductive Part : List Step → List Step → Prop
  | here {a b : Step} (h : a ≠ b) (p q : List Step) : Part (a :: p) (b :: q)
  | there (a : Step) {p q : List Step} (h : Part p q) : Part (a :: p) (a :: q)

theorem part_of_incomparable {p q : List Step} (hp : ¬ p <+: q) (hq : ¬ q <+: p) : Part p q := by
  induction p generalizing q with
  | nil => exact absurd List.nil_prefix hp
  | cons a p ih =>
    cases q with
    | nil => exact absurd List.nil_prefix hq
    | cons b q =>
      by_cases hab : a = b
      · subst hab
        exact .there a (ih (fun h => hp (List.cons_prefix_cons.mpr ⟨rfl, h⟩))
          fun h => hq (List.cons_prefix_cons.mpr ⟨rfl, h⟩))
      · exact .here hab p q

namespace Tree

open Model

variable {σ ε δ : Type} {s : σ}

/-! ## Steps that differ -/

section

variable {t u v x y ta tb : Tree} {a b : Step}

theorem writeFirst_comm {name other : String} (h : name ≠ other) (v w : Tree)
    (members : List (String × Tree)) :
    writeFirst name v (writeFirst other w members) = writeFirst other w (writeFirst name v members) := by
  induction members with
  | nil => rfl
  | cons m rest ih =>
    obtain ⟨first, held⟩ := m
    by_cases hn : name = first
    · subst hn
      rw [writeFirst_cons_of_ne h.symm, writeFirst_cons_self, writeFirst_cons_self,
        writeFirst_cons_of_ne h.symm]
    by_cases ho : other = first
    · subst ho
      rw [writeFirst_cons_self, writeFirst_cons_of_ne hn, writeFirst_cons_of_ne hn, writeFirst_cons_self]
    · rw [writeFirst_cons_of_ne ho, writeFirst_cons_of_ne hn, writeFirst_cons_of_ne hn,
        writeFirst_cons_of_ne ho, ih]

theorem toNat_ne {i j : UInt64} (h : Step.element i ≠ Step.element j) : i.toNat ≠ j.toNat :=
  fun he => h (congrArg Step.element (UInt64.toNat_inj.mp he))

/-- What one step puts, another does not find. -/
theorem follow_inject_of_ne (h : t.inject a x = .ok u) (hab : a ≠ b) : u.follow b = t.follow b := by
  cases takes h with
  | @member type name members old hf hl hk =>
    cases b with
    | member other =>
      have hne : other ≠ name := fun he => hab (congrArg Step.member he.symm)
      rw [follow_record, follow_record, lookup_writeFirst_of_ne hne]
    | element index => rfl
  | @element items index hlt =>
    cases b with
    | member other => rfl
    | element j =>
      rw [follow_tuple, follow_tuple, List.getElem?_set_ne (toNat_ne hab), List.length_set]

/-- Where both orders of putting are possible, they come to the same. -/
theorem inject_comm (hab : a ≠ b) (ha : t.inject a x = .ok ta) (hu : ta.inject b y = .ok u)
    (hb : t.inject b y = .ok tb) (hv : tb.inject a x = .ok v) : u = v := by
  cases takes ha with
  | @member type name members =>
    cases takes hb with
    | @member _ other =>
      cases takes hu
      cases takes hv
      have hne : other ≠ name := fun he => hab (congrArg Step.member he.symm)
      rw [writeFirst_comm hne]
  | @element items i =>
    cases takes hb with
    | @element _ j =>
      cases takes hu
      cases takes hv
      rw [List.set_comm _ _ (toNat_ne hab)]

end

/-! ## Paths that part -/

section

variable {change other : Tree → Except ε Tree} {depth : Nat} {p q : List Step} {t u v tp tq : Tree}

/-- Trees hold no state. -/
theorem readFrom_value_state (depth : Nat) (steps : List Step) (t : Tree) (s s' : σ) :
    (model.readFrom depth steps t s).value = (model.readFrom depth steps t s').value := by
  induction steps generalizing depth t with
  | nil => rfl
  | cons step rest ih =>
    rw [readFrom_cons, readFrom_cons]
    exact congrArg _ (funext fun child => ih (depth + 1) child)

theorem readFrom_of_part (hpq : Part p q) (h : revise change depth p t = .ok u) (s s' : σ) :
    (model.readFrom depth q u s').value = (model.readFrom depth q t s).value := by
  induction hpq generalizing depth t u with
  | here hab p q =>
    obtain ⟨child, revised, -, -, hi⟩ := of_revise_cons h
    rw [readFrom_value_state depth _ u s' s, readFrom_cons, readFrom_cons, follow_inject_of_ne hi hab]
  | there a hpq ih =>
    obtain ⟨child, revised, hf, hr, hi⟩ := of_revise_cons h
    rw [readFrom_cons, readFrom_cons, hf, follow_inject hi]
    exact ih hr

theorem revise_comm (hpq : Part p q)
    (hp : revise change depth p t = .ok tp) (hu : revise other depth q tp = .ok u)
    (hq : revise other depth q t = .ok tq) (hv : revise change depth p tq = .ok v) : u = v := by
  induction hpq generalizing depth t u v tp tq with
  | here hab p q =>
    obtain ⟨x, x', hfx, hx, hxp⟩ := of_revise_cons hp
    obtain ⟨y, y', hfy, hy, hyu⟩ := of_revise_cons hu
    obtain ⟨y₂, y₂', hfy₂, hy₂, hyq⟩ := of_revise_cons hq
    obtain ⟨x₂, x₂', hfx₂, hx₂, hxv⟩ := of_revise_cons hv
    -- neither sees what the other has put, so each puts the same in both orders
    rw [follow_inject_of_ne hxp hab, hfy₂] at hfy
    rw [follow_inject_of_ne hyq hab.symm, hfx] at hfx₂
    cases hfy
    cases hfx₂
    rw [hx] at hx₂
    rw [hy] at hy₂
    cases hx₂
    cases hy₂
    exact inject_comm hab hxp hyu hyq hxv
  | there a hpq ih =>
    obtain ⟨x, x', hfx, hx, hxp⟩ := of_revise_cons hp
    obtain ⟨y, y', hfy, hy, hyu⟩ := of_revise_cons hu
    obtain ⟨y₂, y₂', hfy₂, hy₂, hyq⟩ := of_revise_cons hq
    obtain ⟨x₂, x₂', hfx₂, hx₂, hxv⟩ := of_revise_cons hv
    -- the second finds what the first has put, and what it puts is all that counts
    rw [hfx] at hfy₂
    cases hfy₂
    rw [follow_inject hxp] at hfy
    rw [follow_inject hyq] at hfx₂
    cases hfy
    cases hfx₂
    rw [inject_inject hxp] at hyu
    rw [inject_inject hyq, ← ih hx hy hy₂ hx₂] at hxv
    exact Except.ok.inj (hyu.symm.trans hxv)

end

/-! ## Edits -/

section

variable {p q : Path}

/-- An edit along one path is invisible along a path that parts from it: what is read there, a failure as
well as a tree, is what was read there before. -/
theorem read_update_of_part (hp : ¬ p.steps <+: q.steps) (hq : ¬ q.steps <+: p.steps)
    (change : Tree → Action σ (Except ε Tree)) (root : Tree) (s : σ)
    (h : (model.update p change root s).value.Succeeds) :
    let done := model.update p change root s
    (model.read q done.value.stored done.state).value = (model.read q root s).value := by
  intro done
  rw [Model.read_value, Model.read_value]
  exact readFrom_of_part (part_of_incomparable hp hq) (revise_of_succeeds h) s done.state

/-- An element of a tuple is replaced, and the path to a member of its neighbour still fails. -/
theorem read_update_of_part_neighbour :
    let p : Path := ⟨.member "both", [.element 0]⟩
    let q : Path := ⟨.member "both", [.element 1, .member "x"]⟩
    let root : Tree := .record "Pair" [("both", .tuple [.int 1, .int 2])]
    let done := model.update p (fun _ => pure (.ok (.int 7) : Except Empty Tree)) root ()
    done.value.stored = .record "Pair" [("both", .tuple [.int 7, .int 2])] ∧
      (model.read q done.value.stored done.state).value = (model.read q root ()).value ∧
      (model.read q root ()).value = .error ⟨.noMember "int", .member "x", 2, .descent⟩ :=
  ⟨rfl, read_update_of_part (by decide) (by decide) _ _ () ⟨.written, rfl⟩, rfl⟩

/-- Replacements along two paths that part may be made in either order: if both orders succeed, they give
the same tree. -/
theorem replace_replace_comm (hp : ¬ p.steps <+: q.steps) (hq : ¬ q.steps <+: p.steps)
    (v w root : Tree) (s : σ) :
    let ofP := model.replace p v root s
    let ofPThenQ := model.replace q w ofP.value.stored ofP.state
    let ofQ := model.replace q w root s
    let ofQThenP := model.replace p v ofQ.value.stored ofQ.state
    ofP.value.Succeeds → ofPThenQ.value.Succeeds → ofQ.value.Succeeds → ofQThenP.value.Succeeds →
      ofPThenQ.value.stored = ofQThenP.value.stored := by
  intro ofP ofPThenQ ofQ ofQThenP hofP hpq hofQ hqp
  exact revise_comm (part_of_incomparable hp hq) (revise_of_replace hofP) (revise_of_replace hpq)
    (revise_of_replace hofQ) (revise_of_replace hqp)

/-- Both elements of a tuple in a member, in either order. -/
theorem replace_replace_comm_elements :
    let p : Path := ⟨.member "both", [.element 0]⟩
    let q : Path := ⟨.member "both", [.element 1]⟩
    let root : Tree := .record "Pair" [("both", .tuple [.int 1, .int 2])]
    let ofP := model.replace p (.int 3) root ()
    let ofPThenQ := model.replace q (.int 4) ofP.value.stored ofP.state
    let ofQ := model.replace q (.int 4) root ()
    let ofQThenP := model.replace p (.int 3) ofQ.value.stored ofQ.state
    ofPThenQ.value.stored = ofQThenP.value.stored ∧
      ofQThenP.value.stored = .record "Pair" [("both", .tuple [.int 3, .int 4])] :=
  ⟨replace_replace_comm (p := ⟨.member "both", [.element 0]⟩) (by decide) (by decide) (.int 3) (.int 4) _ ()
    ⟨.written, rfl⟩ ⟨.written, rfl⟩ ⟨.written, rfl⟩ ⟨.written, rfl⟩, rfl⟩

/-- One order may fail where the other succeeds: of two elements that differ in kind only one can come
first. -/
example :
    let root : Tree := .tuple [.int 1, .text "a"]
    let ofP := model.replace ⟨.element 0, []⟩ (.text "b") root ()
    (model.replace ⟨.element 1, []⟩ (.text "c") ofP.value.stored ()).value.stored =
        .tuple [.text "b", .text "c"] ∧
      (model.replace ⟨.element 1, []⟩ (.text "c") root ()).value.outcome =
        .error (.failed ⟨.wrongType "text" "int", .element 1, 0, .ascent⟩) :=
  ⟨rfl, rfl⟩

end

end Tree

end DeepPath
