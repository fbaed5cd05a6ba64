import DeepPath.Proofs.Graph.Alongside
import DeepPath.Proofs.Graph.Copying

/-!
# Deep copies under new names

Where one store is embedded in another, the same places are found from a value under their new names, in
the same order (`Embeds.reach`).  So a deep copy makes the same objects and arrays in both, in the same
order, and goes alongside under the renaming that continues in this order (`alongside_copy`).
-/

namespace DeepPath

variable {f : Nat → Nat}

/-! ## Lists under new names -/

theorem eraseDups_map : ∀ {l : List Nat}, (∀ i ∈ l, ∀ j ∈ l, f i = f j → i = j) →
    (l.map f).eraseDups = l.eraseDups.map f
  | [], _ => rfl
  | a :: l, h => by
    obtain ⟨ha, hl⟩ := List.forall_mem_cons.mp h
    have hfilter : (l.map f).filter (fun b => !b == f a) = (l.filter fun b => !b == a).map f := by
      rw [List.filter_map]
      refine congrArg _ (List.filter_congr fun b hb => ?_)
      have hiff : f b = f a ↔ b = a :=
        ⟨fun heq => (ha b (List.mem_cons_of_mem _ hb) heq.symm).symm, congrArg f⟩
      simp [hiff]
    have hrest : ∀ i ∈ l.filter (fun b => !b == a), ∀ j ∈ l.filter (fun b => !b == a),
        f i = f j → i = j := fun i hi j hj =>
      hl i (List.mem_of_mem_filter hi) j (List.mem_cons_of_mem _ (List.mem_of_mem_filter hj))
    rw [List.map_cons, List.eraseDups_cons, List.eraseDups_cons, hfilter, eraseDups_map hrest,
      List.map_cons]
termination_by l => l.length
decreasing_by exact Nat.lt_succ_of_le (List.length_filter_le _ _)

theorem idxOf?_map {a : Nat} {l : List Nat} (h : ∀ i ∈ l, f i = f a → i = a) :
    (l.map f).idxOf? (f a) = l.idxOf? a := by
  induction l with
  | nil => rfl
  | cons b l ih =>
    obtain ⟨hb, hl⟩ := List.forall_mem_cons.mp h
    have hiff : f b = f a ↔ b = a := ⟨hb, congrArg f⟩
    rw [List.map_cons, List.idxOf?_cons, List.idxOf?_cons, ih hl]
    simp [hiff]

/-! ## What is copied -/

namespace Store.Embeds

variable {s t : Store} {r : Renaming} {v : Value} {seen old : List Nat} (e : s.Embeds r t)
include e

theorem successors {i : Nat} (hi : i < s.cells.size) :
    t.successors (r.object i) = (s.successors i).map r.object := by
  rw [Store.successors, Store.successors, e.slotsAt hi]
  exact Value.placesOfItems_map fun v _ => (v.image_renamed r).places_eq

theorem eraseDups {l : List Nat} (hl : ∀ i ∈ l, i < s.cells.size) :
    (l.map r.object).eraseDups = l.eraseDups.map r.object :=
  eraseDups_map fun i hi j hj => e.object_inj (hl i hi) (hl j hj)

theorem contains {i : Nat} (hseen : ∀ i ∈ seen, i < s.cells.size) (hi : i < s.cells.size) :
    (seen.map r.object).contains (r.object i) = seen.contains i := by
  rw [Bool.eq_iff_iff, List.contains_iff_mem, List.contains_iff_mem, List.mem_map]
  constructor
  · rintro ⟨j, hj, heq⟩
    rwa [← e.object_inj (hseen j hj) hi heq]
  · exact fun hmem => ⟨i, hmem, rfl⟩

theorem frontier (hs : s.WellTyped) (hseen : ∀ i ∈ seen, i < s.cells.size) :
    t.frontier (seen.map r.object) = (s.frontier seen).map r.object := by
  have hflat : (seen.map r.object).flatMap t.successors =
      (seen.flatMap s.successors).map r.object := by
    rw [List.flatMap_map, List.map_flatMap]
    exact List.flatMap_congr fun i hi => e.successors (hseen i hi)
  have hlt : ∀ i ∈ seen.flatMap s.successors, i < s.cells.size := by
    intro i hi
    obtain ⟨j, -, hj⟩ := List.mem_flatMap.mp hi
    exact hs.lt_size_of_mem_successors hj
  rw [Store.frontier, Store.frontier, hflat, e.eraseDups hlt, List.filter_map]
  refine congrArg _ (List.filter_congr fun i hi => ?_)
  have hi := hlt i (List.mem_eraseDups.mp hi)
  dsimp only [Function.comp_apply]
  rw [e.contains hseen hi, decide_eq_true hi, decide_eq_true (e.object_lt hi)]

theorem closure (hs : s.WellTyped) (hseen : ∀ i ∈ seen, i < s.cells.size) :
    t.closure (seen.map r.object) = (s.closure seen).map r.object := by
  induction seen using Store.closure.induct s with
  | case1 seen hf =>
    have hfrontier := e.frontier hs hseen
    rw [hf, List.map_nil] at hfrontier
    rw [Store.closure.eq_def s, if_pos hf, Store.closure.eq_def t, if_pos hfrontier]
  | case2 seen hf ih =>
    have hfrontier := e.frontier hs hseen
    rw [Store.closure.eq_def s, if_neg hf, Store.closure.eq_def t, hfrontier,
      if_neg (mt List.map_eq_nil_iff.mp hf), ← List.map_append]
    refine ih fun i hi => ?_
    rcases List.mem_append.mp hi with hi | hi
    · exact hseen i hi
    · exact (mem_frontier.mp hi).2.1

/-- From a renamed value the same places can be reached, in the same order. -/
theorem reach (hs : s.WellTyped) (hv : v.WellTyped s) :
    t.reach (v.renamed r) = (s.reach v).map r.object := by
  have hlt : ∀ i ∈ v.places, i < s.cells.size := by
    intro i hi
    obtain ⟨type, ht⟩ := hv.typeAt?_of_mem_places hi
    exact lt_size_of_typeAt? ht
  have hstart : (v.renamed r).places.eraseDups.filter (fun i => i < t.cells.size) =
      (v.places.eraseDups.filter fun i => i < s.cells.size).map r.object := by
    rw [(v.image_renamed r).places_eq, e.eraseDups hlt, List.filter_map]
    refine congrArg _ (List.filter_congr fun i hi => ?_)
    have hi := hlt i (List.mem_eraseDups.mp hi)
    dsimp only [Function.comp_apply]
    rw [decide_eq_true hi, decide_eq_true (e.object_lt hi)]
  rw [Store.reach, Store.reach, hstart]
  exact e.closure hs fun i hi => of_decide_eq_true (List.mem_filter.mp hi).2

/-- The places of the copies are renamed as what is new. -/
theorem copyPlace (hold : ∀ i ∈ old, i < s.cells.size) {i : Nat} (hi : i ∈ old) :
    t.copyPlace (old.map r.object) (r.object i) = (r.extend s t).object (s.copyPlace old i) := by
  have hidx : (old.map r.object).idxOf? (r.object i) = old.idxOf? i :=
    idxOf?_map fun j hj => e.object_inj (hold j hj) (hold i hi)
  obtain ⟨k, hk⟩ := Option.isSome_iff_exists.mp (List.isSome_idxOf?.mpr hi)
  rw [Store.copyPlace, Store.copyPlace, hidx, hk]
  dsimp only
  rw [r.object_extend s t (Nat.le_add_right ..), Nat.add_sub_cancel_left]

end Store.Embeds

/-! ## Numbering -/

variable {s t : Store} {r : Renaming} {ρ ρ' : Nat → Nat}

namespace Value

mutual

/-- Values are copied alongside: their objects get the names `ρ` and `ρ'`, which the renaming takes to
each other, and their arrays get the next numbers. -/
theorem rename_renamed {next : Nat} (hn : s.nextArray ≤ next) : ∀ v : Value,
    (∀ i ∈ v.places, ρ' (r.object i) = (r.extend s t).object (ρ i)) →
      (v.renamed r).rename ρ' ((r.extend s t).array next) =
        ((v.rename ρ next).1.renamed (r.extend s t), (r.extend s t).array (v.rename ρ next).2)
  | .object h, hρ => by
    have hplace := hρ h.id (List.mem_singleton_self _)
    simp only [renamed, rename]
    rw [hplace]
  | .array n element items, hρ => by
    have hitems := renameItems_renamed hn items hρ
    have hle := Nat.le_trans hn (le_renameItems ρ next items)
    simp only [renamed, rename, hitems]
    rw [r.array_extend_succ s t hle]
  | .null, _ | .bool _, _ | .int _, _ | .float _, _ | .str _, _ => rfl

theorem renameItems_renamed {next : Nat} (hn : s.nextArray ≤ next) : ∀ items : List Value,
    (∀ i ∈ placesOfItems items, ρ' (r.object i) = (r.extend s t).object (ρ i)) →
      renameItems ρ' ((r.extend s t).array next) (renamedItems r items) =
        (renamedItems (r.extend s t) (renameItems ρ next items).1,
          (r.extend s t).array (renameItems ρ next items).2)
  | [], _ => rfl
  | v :: rest, hρ => by
    have hv := rename_renamed hn v fun i hi => hρ i (List.mem_append_left _ hi)
    have hrest := renameItems_renamed (Nat.le_trans hn (le_rename ρ next v)) rest
      fun i hi => hρ i (List.mem_append_right _ hi)
    simp only [renamedItems, renameItems, hv, hrest]

end

end Value

namespace Store

theorem copyCells_renamed (e : s.Embeds r t) {next : Nat} (hn : s.nextArray ≤ next)
    {old : List Nat} (hold : ∀ i ∈ old, i < s.cells.size)
    (hρ : ∀ i ∈ old, ∀ j ∈ s.successors i, ρ' (r.object j) = (r.extend s t).object (ρ j)) :
    t.copyCells ρ' ((r.extend s t).array next) (old.map r.object) =
      ((s.copyCells ρ next old).1.map (Cell.renamed (r.extend s t)),
        (r.extend s t).array (s.copyCells ρ next old).2) := by
  induction old generalizing next with
  | nil => rfl
  | cons i rest ih =>
    obtain ⟨hi, hrest⟩ := List.forall_mem_cons.mp hold
    obtain ⟨hρi, hρrest⟩ := List.forall_mem_cons.mp hρ
    have hc := Array.getElem?_eq_getElem hi
    rw [Store.successors, slotsAt_eq hc] at hρi
    have hslots := Value.renameItems_renamed hn s.cells[i].slots hρi
    have hle := Nat.le_trans hn (Value.le_renameItems ρ next s.cells[i].slots)
    rw [Value.renamedItems_eq_map, Value.renamedItems_eq_map] at hslots
    rw [List.map_cons, copyCells_cons hc, copyCells_cons (e.cells hc)]
    dsimp only [Cell.renamed]
    rw [hslots, ih hle hrest hρrest]
    rfl

end Store

/-- A deep copy does the same under new names. -/
theorem alongside_copy {v : Value} (e : s.Embeds r t) (hs : s.WellTyped) (hv : v.WellTyped s) :
    Alongside Value.renamed r s (s.copy v) (t.copy (v.renamed r)) := by
  have hold := s.lt_size_of_mem_reach v
  have hplace (i : Nat) (hi : i ∈ s.reach v) := e.copyPlace hold hi
  have hle := s.le_copyCells (s.copyPlace (s.reach v)) s.nextArray (s.reach v)
  have hcells := Store.copyCells_renamed e (Nat.le_refl _) hold
    fun i hi j hj => hplace j (hs.successors_subset_reach hi hj)
  have hvalue := Value.rename_renamed hle v
    fun i hi => hplace i (Store.WellTyped.places_subset_reach hv hi)
  rw [r.array_extend_self s t] at hcells
  have hcopy : t.copy (v.renamed r) = ((s.copy v).1.renamed (r.extend s t),
      ⟨t.cells ++ (s.copied v).map (Cell.renamed (r.extend s t)),
        (r.extend s t).array (s.copy v).2.nextArray⟩) := by
    rw [Store.copy, e.reach hs hv]
    dsimp only
    rw [hcells]
    dsimp only
    rw [hvalue]
    rfl
  have hembeds := e.extend hs (s.copied v) (s.grows_copy v).nextArray
  rw [hcopy]
  exact ⟨_, r.agree_extend s t, hembeds, rfl⟩

end DeepPath
