import DeepPath.Proofs.Graph.HandedUp
import DeepPath.Proofs.Graph.World

/-!
# Which writes are kept

An edit writes the new leaf first and the members above it afterwards.  So a member holds what the first,
shallowest step through it was handed (`CarriedUp.get?_of_first`).  If the trail passes through the member
of the leaf already on its way down, this is not the new leaf but what was handed up in place of the old
one (`HandsUp.eq_iff`): `write_kept_iff` says when the new leaf stays.
-/

namespace DeepPath.Graph

open Model

variable {s t : Store} {leaf v root child : Value} {C : Handle} {n : String} {depth : Nat}
  {chain : List (Step × Value)} {o : Outcome Store (Climb Value)}

/-! ## Ascents -/

/-- What is handed up in place of a value is no older value, unless both are one object. -/
theorem HandsUp.eq_iff {number : Nat} {step : Step} {back : Value}
    (h : HandsUp number child (step, leaf) back) (hv : v.WellTyped t) (hn : t.nextArray ≤ number) :
    back = v ↔ v = leaf ∧ ∃ h, leaf = .object h := by
  cases h with
  | @object _ C => exact ⟨fun heq => ⟨heq.symm, C, rfl⟩, fun ⟨heq, _⟩ => heq.symm⟩
  | array =>
    constructor
    · rintro rfl
      exact absurd hv.number_lt (Nat.not_lt.mpr hn)
    · rintro ⟨-, h, hobject⟩
      cases hobject

theorem CarriedUp.get?_of_first {handed : Nat → Value} {pre rest : List (Step × Value)}
    (h : CarriedUp t v (pre ++ (.member n, .object C) :: rest) handed s)
    (hpre : (.member n, .object C) ∉ pre) : s.get? C n = some (handed (pre.length + 1)) := by
  refine h.written pre.length n C (by simp) fun j hj hmem => hpre ?_
  rw [List.getElem?_append_left hj] at hmem
  exact List.mem_of_getElem? hmem

/-- The new leaf stays where it was put if no step above leads through its member; if one does, the old
leaf is written back to it, as it was if it is an object, and as a new array otherwise. -/
theorem leaf_kept_iff_of_ascends (ht : t.WellTyped) (hv : v.WellTyped t)
    (hc : ∀ link ∈ chain, link.2.WellTyped t) (hl : Linked s leaf chain)
    (hlast : chain.getLast? = some (.member n, .object C))
    (ho : model.Ascends v t depth chain o) (hr : o.value.result = .ok child) :
    o.state.get? C n = some v ↔
      (.member n, .object C) ∉ chain.dropLast ∨ v = leaf ∧ ∃ h, leaf = .object h := by
  obtain ⟨handed, -, h⟩ := carriedUp_of_ascends ht hv hc ho hr
  have hold : follow s (.object C) (.member n) = .ok leaf := by
    rw [← List.dropLast_append_getLast? _ hlast] at hl
    exact hl.follow_eq
  -- the first step through the member of the leaf, which may be one above it
  obtain ⟨pre, rest, rfl, hpre⟩ := List.eq_append_cons_of_mem (List.mem_of_getLast? hlast)
  have htop : top leaf rest = leaf := Except.ok.inj (hl.follow_eq.symm.trans hold)
  rw [h.get?_of_first hpre, Option.some.injEq]
  cases rest with
  | nil =>
    have hleaf := h.leaf
    rw [List.length_append, List.length_singleton] at hleaf
    rw [hleaf, List.dropLast_concat]
    exact ⟨fun _ => .inl hpre, fun _ => rfl⟩
  | cons next rest =>
    obtain ⟨step, found⟩ := next
    obtain rfl : found = leaf := htop
    have habove : (.member n, .object C) ∈
        (pre ++ (.member n, .object C) :: (step, found) :: rest).dropLast := by
      rw [List.dropLast_append_cons, List.dropLast_cons_of_ne_nil (List.cons_ne_nil _ _)]
      exact List.mem_append_right _ List.mem_cons_self
    have hup := h.steps (pre.length + 1) (step, found) (by simp)
    rw [hup.eq_iff hv (Nat.le_add_right ..)]
    exact (or_iff_right (not_not_intro habove)).symm

/-! ## Edits -/

/-- A callback that is a run of the client, which starts with the leaf in hand and ends with its result
in hand. -/
def IsRun (w : World) (path : Path) (root : Value) (change : Value → Action Store Value) : Prop :=
  ∀ trail, (model.trail path root w.store).value = .ok trail →
    ∃ held, Runs (w.next w.store [trail.leaf]) ⟨(change trail.leaf w.store).state, held⟩ ∧
      (change trail.leaf w.store).value ∈ held

/-- When a successful edit keeps what it wrote.  The member that holds the leaf holds the new leaf
afterwards if the trail does not pass through this member already above the leaf.  If it does, what is
on the trail below is written back: the new leaf is lost, unless it is the old leaf, an object, again. -/
theorem write_kept_iff {w : World} (hw : Reachable w) (hroot : w.Has root) {path : Path}
    {change : Value → Action Store Value} (hrun : IsRun w path root change) {trail : Trail Value}
    (htrail : (model.trail path root w.store).value = .ok trail)
    (hlast : (path.steps.zip trail.parents).getLast? = some (.member n, .object C))
    {placement : Placement Value}
    (hok : (model.modify path change root w.store).value.outcome = .ok placement) :
    (model.modify path change root w.store).state.get? C n =
        some (change trail.leaf w.store).value ↔
      (.member n, .object C) ∉ (path.steps.zip trail.parents).dropLast ∨
        (change trail.leaf w.store).value = trail.leaf ∧ ∃ h, trail.leaf = .object h := by
  obtain ⟨held, hruns, hheld⟩ := hrun trail htrail
  have hwell := hw.wellTyped
  obtain ⟨hleaf, hchain⟩ := wellTyped_of_trail hwell.store (hroot.wellTyped hwell) htrail
  obtain ⟨hzip, -, -, hlinked⟩ := linked_of_trail htrail
  have hcalled := hwell.next hwell.store (.refl _) (List.forall_mem_singleton.mpr hleaf)
  obtain ⟨hcall, g⟩ := hruns.wellTyped hcalled.1
  obtain ⟨trail', htrail', hcarry, hstate⟩ := modify_eq_carry (.ok placement) hok nofun
  cases htrail.symm.trans htrail'
  rw [hstate, hzip]
  rw [hzip] at hlast
  obtain ⟨o, failure, root', -, -, h⟩ | ⟨o, placement', root', log, hasc, hres, -, h⟩ :=
    carry_cases model path trail (change trail.leaf w.store).value root
      (change trail.leaf w.store).state
  · rw [h] at hcarry
    cases hcarry
  · rw [h]
    exact leaf_kept_iff_of_ascends hcall.store (hcall.held _ hheld)
      (fun link hlink => (hchain link hlink).mono g) hlinked hlast hasc hres

/-- The knot is on the trail twice, at different members: the array above the leaf is made anew and written
back, and the leaf stays. -/
theorem write_kept_in_knot :
    let root : Value := .object ⟨0, knot⟩
    let path : Path := ⟨.member "ends", [.element 1, .member "next"]⟩
    let o := model.modify path (fun _ => pure root) root tied.store
    Reachable tied ∧ tied.Has root ∧
      (model.trail path root tied.store).value = .ok ⟨[root, ends, root], .null⟩ ∧
      o.value.outcome = .ok .written ∧
      o.state.get? ⟨0, knot⟩ "ends" = some (.array 2 (.ofObjects knot) [root, root]) ∧
      o.state.get? ⟨0, knot⟩ "next" = some root := by
  intro root path o
  have hheld : root ∈ tied.held := List.mem_cons_of_mem _ List.mem_cons_self
  have hrun : IsRun tied path root fun _ => pure root :=
    fun _ _ => ⟨_, .refl _, List.mem_cons_of_mem _ hheld⟩
  have htrail : (model.trail path root tied.store).value = .ok ⟨[root, ends, root], .null⟩ := rfl
  have hok : o.value.outcome = .ok .written := rfl
  have hends : o.state.get? ⟨0, knot⟩ "ends" =
      some (.array 2 (.ofObjects knot) [root, root]) := by
    unfold o path root
    rfl
  have hapart : (.member "next", .object ⟨0, knot⟩) ∉
      (path.steps.zip [root, ends, root]).dropLast := by
    simp [path]
  exact ⟨reachable_tied, .held hheld, htrail, hok, hends,
    (write_kept_iff reachable_tied (.held hheld) hrun htrail rfl hok).mpr (.inl hapart)⟩

/-- A successful edit that loses what it wrote: the trail passes through the same member twice. -/
theorem write_lost_in_loop :
    let root : Value := .object ⟨0, node⟩
    let other : Value := .object ⟨1, node⟩
    let path : Path := ⟨.member "next", [.member "next"]⟩
    let o := model.replace path other root loop.store
    Reachable loop ∧ root ∈ loop.held ∧ other ∈ loop.held ∧
      (model.trail path root loop.store).value = .ok ⟨[root, root], root⟩ ∧
      o.value.outcome = .ok .written ∧ o.state.get? ⟨0, node⟩ "next" = some root ∧
      o.state.get? ⟨0, node⟩ "next" ≠ some other := by
  refine ⟨reachable_loop, List.mem_cons_of_mem _ List.mem_cons_self, List.mem_cons_self, rfl, rfl,
    rfl, ?_⟩
  intro h
  cases h

end DeepPath.Graph
