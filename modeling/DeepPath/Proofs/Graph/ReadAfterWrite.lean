import DeepPath.Proofs.Graph.HandedUp
import DeepPath.Proofs.Graph.World

/-!
# Reading what was written

`replaced_leaf_reads_back`: if no two steps of a path lead through the same member of the same object,
then after the leaf of the path was replaced, reading the path finds the new leaf, however the graph is
shared.

1. What a step handed up leads down again to what it was handed: an object to what was written to its
   member, since no other step has written this member, and a new array to what was put into it
   (`CarriedUp.follow`).
2. So the whole path leads down from what was handed up in the end to the new leaf (`CarriedUp.arrive`).
-/

namespace DeepPath.Graph

open Model

variable {s t : Store} {leaf root : Value} {links : List (Step × Value)} {handed : Nat → Value}

/-- Steps of which no two lead through the same member of the same object. -/
def Apart (links : List (Step × Value)) : Prop :=
  links.Pairwise fun x y => ∀ name h g, x = (.member name, .object h) →
    y = (.member name, .object g) → h.id ≠ g.id

/-- No step before a member leads through it too. -/
theorem Apart.first (hapart : Apart links) {j k : Nat} (hj : j < k) {name : String} {h : Handle}
    (hk : links[k]? = some (.member name, .object h)) :
    links[j]? ≠ some (.member name, .object h) := by
  intro hsame
  obtain ⟨hk, heq⟩ := List.getElem?_eq_some_iff.mp hk
  obtain ⟨hj', heq'⟩ := List.getElem?_eq_some_iff.mp hsame
  exact List.pairwise_iff_getElem.mp hapart j k hj' hk hj name h h heq' heq rfl

theorem CarriedUp.follow (h : CarriedUp t leaf links handed s) (hapart : Apart links) {k : Nat}
    {link : Step × Value} (hk : links[k]? = some link) :
    follow s (handed k) link.1 = .ok (handed (k + 1)) := by
  have hup := h.steps k link hk
  generalize handed k = up at hup ⊢
  cases hup with
  | object => exact follow_member (h.written k _ _ hk fun j hj => hapart.first hj hk)
  | array _ hlt => exact follow_element (List.getElem?_set_self hlt)

/-- The steps lead down from what was handed up in the end to the leaf that was carried up. -/
theorem CarriedUp.arrive (h : CarriedUp t leaf links handed s) (hapart : Apart links) :
    arrive? s (links.map Prod.fst) (handed 0) = some leaf := by
  suffices hsteps : ∀ deeper pre, links = pre ++ deeper →
      arrive? s (deeper.map Prod.fst) (handed pre.length) = some leaf from hsteps links [] rfl
  intro deeper
  induction deeper with
  | nil =>
    intro pre hlinks
    rw [← h.leaf, hlinks, List.append_nil]
    rfl
  | cons link deeper ih =>
    intro pre hlinks
    refine arrive?_cons_eq_some.mpr ⟨handed (pre.length + 1), ?_, ?_⟩
    · exact h.follow hapart (by simp [hlinks])
    · have hrest := ih (pre ++ [link]) (by simp [hlinks])
      rwa [List.length_append, List.length_singleton] at hrest

/-- Whatever the graph and the path are: if the steps of the path are apart, and its leaf was replaced by
`v`, then reading the path from the root, after the outcome has been stored in it, finds `v`. -/
theorem replaced_leaf_reads_back {w : World} (hw : Reachable w) (hroot : w.Has root) (hv : w.Has v)
    {path : Path} {trail : Trail Value}
    (htrail : (model.trail path root w.store).value = .ok trail)
    (hapart : Apart (path.steps.zip trail.parents)) {placement : Placement Value}
    (hok : (model.replace path v root w.store).value.outcome = .ok placement) :
    let o := model.replace path v root w.store
    (model.read path o.value.stored o.state).value = .ok v := by
  intro o
  have hwell := hw.wellTyped
  obtain ⟨-, hchain⟩ := wellTyped_of_trail hwell.store (hroot.wellTyped hwell) htrail
  obtain ⟨hzip, -, hlen, -⟩ := linked_of_trail htrail
  obtain ⟨hstored, up, hasc, hres, hstate⟩ := ascends_of_modify htrail hok
  obtain ⟨handed, hfirst, h⟩ :=
    carriedUp_of_ascends hwell.store (hv.wellTyped hwell) hchain hasc hres
  have hsteps : path.steps.length ≤ trail.parents.length :=
    Nat.le_of_eq (path.length_steps.trans hlen.symm)
  rw [← hzip] at h
  have harrive := h.arrive hapart
  rw [hstate, List.map_fst_zip hsteps, hfirst, ← hstored] at harrive
  exact ((read_spec o.state path o.value.stored).2 v).mpr harrive

/-- A path that comes back to the object it starts from, through an array, and goes on with another
member. -/
theorem replaced_next_reads_back :
    let root : Value := .object ⟨0, knot⟩
    let path : Path := ⟨.member "ends", [.element 1, .member "next"]⟩
    let o := model.replace path root root tied.store
    (model.trail path root tied.store).value = .ok ⟨[root, ends, root], .null⟩ ∧
      Apart (path.steps.zip [root, ends, root]) ∧ o.value.outcome = .ok .written ∧
      (model.read path o.value.stored o.state).value = .ok root := by
  intro root path o
  have hroot : tied.Has root := .held (List.mem_cons_of_mem _ List.mem_cons_self)
  have htrail : (model.trail path root tied.store).value = .ok ⟨[root, ends, root], .null⟩ := rfl
  have hapart : Apart (path.steps.zip [root, ends, root]) := by
    refine .cons ?_ (.cons ?_ (List.pairwise_singleton ..))
    · rintro link hlink name h g hends rfl
      obtain rfl : "ends" = name := Step.member.inj (Prod.mk.inj hends).1
      simp [path] at hlink
    · rintro link - name h g hindex
      cases hindex
  have hok : o.value.outcome = .ok .written := rfl
  exact ⟨htrail, hapart, hok, replaced_leaf_reads_back reachable_tied hroot hroot htrail hapart hok⟩

end DeepPath.Graph
