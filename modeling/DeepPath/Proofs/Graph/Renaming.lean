import DeepPath.Proofs.Graph.Edit
import DeepPath.Proofs.Graph.Image

/-!
# Stores under new names

A store is embedded in another one by a renaming if each of its objects is there under its new name,
with its slots renamed (`Embeds`).  It stays so while both stores grow by the same objects and arrays
(`Embeds.extend`).

The other store may hold more objects, but no walk comes to them: a step from a renamed value leads to
the renamed value (`Embeds.follow`), and the trail of a path is renamed (`Embeds.trail`).
-/

namespace DeepPath

/-- New names for objects, and new numbers for arrays. -/
structure Renaming where
  object : Nat → Nat
  array : Nat → Nat

/-- The renaming that leaves everything as it is. -/
def Renaming.id : Renaming :=
  ⟨fun i => i, fun n => n⟩

/-! ## Values -/

namespace Value

mutual

/-- A value under new names. -/
def renamed (r : Renaming) : Value → Value
  | .object handle => .object { handle with id := r.object handle.id }
  | .array n element items => .array (r.array n) element (renamedItems r items)
  | v => v

/-- Values under new names. -/
def renamedItems (r : Renaming) : List Value → List Value
  | [] => []
  | v :: rest => v.renamed r :: renamedItems r rest

end

theorem renamedItems_eq_map (r : Renaming) (items : List Value) :
    renamedItems r items = items.map (renamed r) := by
  induction items with
  | nil => rfl
  | cons v rest ih => rw [renamedItems, ih, List.map_cons]

theorem renamed_array (r : Renaming) (n : Nat) (element : Ty) (items : List Value) :
    (array n element items).renamed r = array (r.array n) element (items.map (renamed r)) := by
  rw [renamed, renamedItems_eq_map]

/-- A value under new names is an image of it. -/
theorem image_renamed (r : Renaming) (v : Value) : v.Image r.object (v.renamed r) := by
  induction v with
  | array n element items ih =>
    rw [renamed_array, Image, relabel, relabel, relabelItems_eq_map, relabelItems_eq_map,
      List.map_map]
    exact congrArg _ (List.map_congr_left ih)
  | _ => rfl

@[simp] theorem isNull_renamed (r : Renaming) (v : Value) : (v.renamed r).isNull = v.isNull :=
  (v.image_renamed r).isNull_eq.symm

@[simp] theorem ty_renamed (r : Renaming) (v : Value) : (v.renamed r).ty = v.ty :=
  (v.image_renamed r).ty_eq.symm

@[simp] theorem typeName_renamed (r : Renaming) (v : Value) :
    (v.renamed r).typeName = v.typeName := by
  cases v <;> rfl

@[simp] theorem admits_renamed (a : Ty) (r : Renaming) (v : Value) :
    a.admits (v.renamed r) = a.admits v :=
  ((v.image_renamed r).admits_eq a).symm

@[simp] theorem elementTy_renamed (wide : Ty) (r : Renaming) (v : Value) :
    Graph.elementTy wide (v.renamed r) = Graph.elementTy wide v := by
  simp [Graph.elementTy]

theorem renamed_id (v : Value) : v.renamed .id = v := by
  induction v with
  | array n element items ih =>
    rw [renamed_array, List.map_congr_left ih, List.map_id']
    rfl
  | _ => rfl

end Value

/-- An object under new names. -/
def Handle.renamed (r : Renaming) (h : Handle) : Handle :=
  { h with id := r.object h.id }

/-- A cell under new names. -/
def Cell.renamed (r : Renaming) (c : Cell) : Cell :=
  ⟨c.type, c.slots.map (Value.renamed r)⟩

/-- Where an outcome is found, under new names. -/
def Placement.renamed (r : Renaming) : Placement Value → Placement Value
  | .written => .written
  | .built container => .built (container.renamed r)

/-- A trail under new names. -/
def Trail.renamed (r : Renaming) (trail : Trail Value) : Trail Value :=
  ⟨trail.parents.map (Value.renamed r), trail.leaf.renamed r⟩

@[simp] theorem Trail.leaf_renamed (r : Renaming) (trail : Trail Value) :
    (trail.renamed r).leaf = trail.leaf.renamed r := rfl

/-- What an edit comes to, under new names. -/
def Revision.renamed {ε : Type} (r : Renaming) (o : Revision Value ε) : Revision Value ε :=
  ⟨o.root.renamed r, o.leaf.map (Value.renamed r), o.outcome.map (Placement.renamed r)⟩

theorem Revision.renamed_of_carry {ε : Type} (r : Renaming) (leaf : Value)
    (o : Value × Except Failure (Placement Value)) :
    (⟨o.1, some leaf, o.2.mapError .failed⟩ : Revision Value ε).renamed r =
      ⟨o.1.renamed r, some (leaf.renamed r),
        (o.2.map (Placement.renamed r)).mapError .failed⟩ := by
  obtain ⟨root, result⟩ := o
  cases result <;> rfl

@[simp] theorem Handle.check_renamed (r : Renaming) (h : Handle) (name : String) (v : Value) :
    (h.renamed r).check name (v.renamed r) = h.check name v := by
  simp [check, Handle.renamed]

/-! ## Stores -/

/-- Two renamings that give the same names to what is in a store. -/
structure Renaming.Agree (s : Store) (r r' : Renaming) : Prop where
  object : ∀ {i}, i < s.cells.size → r'.object i = r.object i
  array : ∀ {n}, n < s.nextArray → r'.array n = r.array n

/-- Every object of `s` is in `t` under its new name, with its slots renamed; objects keep apart, and so
do arrays. -/
structure Store.Embeds (r : Renaming) (s t : Store) : Prop where
  cells : ∀ {i cell}, s.cells[i]? = some cell → t.cells[r.object i]? = some (cell.renamed r)
  object_inj : ∀ {i j}, i < s.cells.size → j < s.cells.size → r.object i = r.object j → i = j
  array_inj : ∀ {m n}, m < s.nextArray → n < s.nextArray → r.array m = r.array n → m = n
  array_lt : ∀ {n}, n < s.nextArray → r.array n < t.nextArray

open DeepPath.Graph

variable {s t : Store} {r r' r'' : Renaming} {v : Value}

theorem Store.Grows.lt_size (g : s.Grows t) {i : Nat} (hi : i < s.cells.size) :
    i < t.cells.size := by
  have hc := Array.getElem?_eq_getElem hi
  exact lt_size_of_typeAt? (g.typeAt? (typeAt?_eq_some_iff.mpr ⟨_, hc, rfl⟩))

namespace Renaming.Agree

protected theorem refl (s : Store) (r : Renaming) : r.Agree s r :=
  ⟨fun _ => rfl, fun _ => rfl⟩

protected theorem trans (h : r.Agree s r') (g : s.Grows t) (h' : r'.Agree t r'') :
    r.Agree s r'' :=
  ⟨fun hi => (h'.object (g.lt_size hi)).trans (h.object hi),
    fun hn => (h'.array (Nat.lt_of_lt_of_le hn g.nextArray)).trans (h.array hn)⟩

theorem value (h : r.Agree s r') (hv : v.WellTyped s) : v.renamed r' = v.renamed r := by
  induction hv with
  | object ht =>
    rw [Value.renamed, Value.renamed, h.object (Store.lt_size_of_typeAt? ht)]
  | array hn _ _ ih =>
    rw [Value.renamed_array, Value.renamed_array, h.array hn, List.map_congr_left ih]
  | _ => rfl

theorem values (h : r.Agree s r') {vs : List Value} (hvs : ∀ v ∈ vs, v.WellTyped s) :
    vs.map (Value.renamed r') = vs.map (Value.renamed r) :=
  List.map_congr_left fun v hv => h.value (hvs v hv)

end Renaming.Agree

/-! ## Growing stores -/

/-- The renaming that gives what is new after `s` the names of what is new after `t`, in order. -/
def Renaming.extend (r : Renaming) (s t : Store) : Renaming where
  object i := if i < s.cells.size then r.object i else t.cells.size + (i - s.cells.size)
  array n := if n < s.nextArray then r.array n else t.nextArray + (n - s.nextArray)

namespace Renaming

variable (r : Renaming) (s t : Store)

theorem agree_extend : r.Agree s (r.extend s t) :=
  ⟨fun hi => if_pos hi, fun hn => if_pos hn⟩

theorem object_extend {i : Nat} (hi : s.cells.size ≤ i) :
    (r.extend s t).object i = t.cells.size + (i - s.cells.size) :=
  if_neg (Nat.not_lt.mpr hi)

theorem array_extend {n : Nat} (hn : s.nextArray ≤ n) :
    (r.extend s t).array n = t.nextArray + (n - s.nextArray) :=
  if_neg (Nat.not_lt.mpr hn)

theorem array_extend_self : (r.extend s t).array s.nextArray = t.nextArray := by
  rw [r.array_extend s t (Nat.le_refl _), Nat.sub_self, Nat.add_zero]

theorem array_extend_succ {n : Nat} (hn : s.nextArray ≤ n) :
    (r.extend s t).array (n + 1) = (r.extend s t).array n + 1 := by
  rw [r.array_extend s t hn, r.array_extend s t (Nat.le_succ_of_le hn)]
  omega

end Renaming

/-- A function that is injective below `a`, with values below `b`, and goes on from `b`. -/
theorem eq_of_shifted {f : Nat → Nat} {a b i j : Nat}
    (hinj : ∀ {i j}, i < a → j < a → f i = f j → i = j) (hlt : ∀ {i}, i < a → f i < b)
    (hshift : ∀ {i}, a ≤ i → f i = b + (i - a)) (h : f i = f j) : i = j := by
  rcases Nat.lt_or_ge i a with hi | hi <;> rcases Nat.lt_or_ge j a with hj | hj
  · exact hinj hi hj h
  · have := hlt hi
    have := hshift hj
    omega
  · have := hshift hi
    have := hlt hj
    omega
  · have := hshift hi
    have := hshift hj
    omega

namespace Store.Embeds

variable (e : s.Embeds r t)
include e

theorem cells_eq {i : Nat} (hi : i < s.cells.size) :
    t.cells[r.object i]? = (s.cells[i]?).map (Cell.renamed r) := by
  have hc := Array.getElem?_eq_getElem hi
  rw [hc, e.cells hc, Option.map_some]

theorem object_lt {i : Nat} (hi : i < s.cells.size) : r.object i < t.cells.size :=
  (Array.getElem?_eq_some_iff.mp (e.cells (Array.getElem?_eq_getElem hi))).1

theorem congr (hs : s.WellTyped) (h : r.Agree s r') : s.Embeds r' t := by
  refine ⟨fun {i cell} hc => ?_, fun {i j} hi hj => ?_, fun {m n} hm hn => ?_, fun {n} hn => ?_⟩
  · rw [h.object (Array.getElem?_eq_some_iff.mp hc).1, e.cells hc, Cell.renamed, Cell.renamed,
      h.values (hs hc).slots]
  · rw [h.object hi, h.object hj]
    exact e.object_inj hi hj
  · rw [h.array hm, h.array hn]
    exact e.array_inj hm hn
  · rw [h.array hn]
    exact e.array_lt hn

/-- Stores stay embedded if what is new in the one is added, renamed, to the other. -/
theorem extend (hs : s.WellTyped) (cells : List Cell) {n : Nat} (hn : s.nextArray ≤ n) :
    Embeds (r.extend s t) ⟨s.cells ++ cells, n⟩
      ⟨t.cells ++ cells.map (Cell.renamed (r.extend s t)), (r.extend s t).array n⟩ := by
  have e' := e.congr hs (r.agree_extend s t)
  constructor
  case cells =>
    intro i cell hc
    rw [← Array.getElem?_toList, Array.toList_appendList] at hc ⊢
    rcases Nat.lt_or_ge i s.cells.size with hi | hi
    · rw [List.getElem?_append_left hi, Array.getElem?_toList] at hc
      have hcell := e'.cells hc
      rw [List.getElem?_append_left (Array.getElem?_eq_some_iff.mp hcell).1, Array.getElem?_toList,
        hcell]
    · rw [List.getElem?_append_right hi] at hc
      rw [r.object_extend s t hi, ← Array.length_toList, List.getElem?_append_right
        (Nat.le_add_right ..), Nat.add_sub_cancel_left, List.getElem?_map]
      rw [Array.length_toList] at hc
      rw [hc, Option.map_some]
  case object_inj =>
    exact fun _ _ h => eq_of_shifted e'.object_inj e'.object_lt (r.object_extend s t) h
  case array_inj =>
    exact fun _ _ h => eq_of_shifted e'.array_inj e'.array_lt (r.array_extend s t) h
  case array_lt =>
    intro m hm
    dsimp only at hm ⊢
    rw [r.array_extend s t hn]
    rcases Nat.lt_or_ge m s.nextArray with hold | hnew
    · have hlt := e'.array_lt hold
      omega
    · rw [r.array_extend s t hnew]
      omega

/-! ## Walks -/

theorem slotsAt {i : Nat} (hi : i < s.cells.size) :
    t.slotsAt (r.object i) = (s.slotsAt i).map (Value.renamed r) := by
  have hc := Array.getElem?_eq_getElem hi
  rw [slotsAt_eq hc, slotsAt_eq (e.cells hc)]
  rfl

theorem get? {h : Handle} (hh : s.typeAt? h.id = some h.type) (name : String) :
    t.get? (h.renamed r) name = (s.get? h name).map (Value.renamed r) := by
  unfold Store.get? Handle.renamed
  cases h.type.find? name with
  | none => rfl
  | some hit =>
    dsimp only
    rw [e.slotsAt (lt_size_of_typeAt? hh), List.getElem?_map]

/-- A step from a renamed value leads to the renamed value, or fails in the same way. -/
theorem follow (hv : v.WellTyped s) (step : Step) :
    Graph.follow t (v.renamed r) step = (Graph.follow s v step).map (Value.renamed r) := by
  cases step with
  | member name =>
    cases v with
    | object h =>
      have hget := e.get? hv.typeAt? name
      cases hold : s.get? h name with
      | none =>
        rw [hold] at hget
        rw [Graph.follow, Graph.follow, Graph.getMember_of_none hold]
        exact Graph.getMember_of_none hget
      | some child =>
        rw [hold] at hget
        rw [Graph.follow_member hold]
        exact Graph.follow_member hget
    | _ => rfl
  | element index =>
    cases v with
    | array n element items =>
      rw [Value.renamed_array]
      show View.get ⟨_, items.map _⟩ index = (View.get ⟨_, items⟩ index).map _
      unfold View.get View.length
      rw [List.getElem?_map, List.length_map]
      cases items[index.toNat]? <;> rfl
    | _ => rfl

theorem trailFrom (hs : s.WellTyped) (hv : v.WellTyped s) (depth : Nat) (steps : List Step) :
    (model.trailFrom depth steps (v.renamed r) t).value =
      (model.trailFrom depth steps v s).value.map (Trail.renamed r) := by
  induction steps generalizing depth v with
  | nil => rfl
  | cons step rest ih =>
    have hstep := e.follow hv step
    cases hf : Graph.follow s v step with
    | error fault =>
      rw [hf] at hstep
      rw [trailFrom_cons_of_error hf, trailFrom_cons_of_error hstep]
      rfl
    | ok u =>
      rw [hf] at hstep
      rw [trailFrom_cons_of_ok hf, trailFrom_cons_of_ok hstep]
      dsimp only
      rw [ih (wellTyped_of_follow hs hv hf) (depth + 1)]
      cases (model.trailFrom (depth + 1) rest u s).value <;> rfl

/-- The trail of a path is renamed. -/
theorem trail (hs : s.WellTyped) (hv : v.WellTyped s) (path : Path) :
    (model.trail path (v.renamed r) t).value =
      (model.trail path v s).value.map (Trail.renamed r) := by
  obtain ⟨log, h, -⟩ := trail_eq s path v
  obtain ⟨log', h', -⟩ := trail_eq t path (v.renamed r)
  rw [h, h']
  exact e.trailFrom hs hv 0 path.steps

end Store.Embeds

end DeepPath
