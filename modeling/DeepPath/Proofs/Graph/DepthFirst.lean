import DeepPath.Proofs.Graph.Duplicates
import DeepPath.Proofs.Graph.Fences
import Mathlib.Logic.Function.Basic

/-!
# Deep copies, object by object

A deep copy can also be made depth first, by a recursion that keeps in mind where the copies are of the
objects it has seen.  It copies an object that it sees for the first time: it makes an empty copy, copies
the slots, and fills the copy.  An object seen before is not copied again; an array always is.

`Clones` is this recursion, by rules; a derivation is a finite tree of its calls.

1. The recursion ends, on every graph (`exists_clones`): each call has fewer objects not seen yet, or
   smaller values to copy.  It ends in one way only (`Clones.unique`).
2. The copies are the new objects, one for each object seen (`Clones.tally`); and the objects seen are
   those that the values lead to (`Clones.made`, `Clones.seen`).

Main statement: the recursion ends, and both it and the deep copy of a value make one new object for each
object that the value leads to (`one_copy_each`).
-/

namespace DeepPath

/-- A deep copy under way: where the copies are of the objects that have been seen, and the store. -/
structure Cloning where
  copyOf : Nat → Option Nat
  store : Store

namespace Cloning

/-- Nothing has been seen. -/
def start (s : Store) : Cloning :=
  ⟨fun _ => none, s⟩

/-- An object is seen for the first time: it gets an empty copy. -/
def enter (c : Cloning) (h : Handle) : Cloning where
  copyOf := Function.update c.copyOf h.id (some c.store.cells.size)
  store := { c.store with cells := c.store.cells.push ⟨h.type, []⟩ }

/-- A copy gets its slots. -/
def fill (c : Cloning) (id : Nat) (slots : List Value) : Cloning :=
  { c with store := c.store.putSlots id slots }

/-- An array is made. -/
def makeArray (c : Cloning) (element : Ty) (items : List Value) : Cloning :=
  { c with store := (c.store.newArray element items).2 }

/-- The names of the copies; an object that has not been seen goes by its own. -/
def name (c : Cloning) (i : Nat) : Nat :=
  (c.copyOf i).getD i

/-- The objects of a store that have not been seen. -/
def unseen (c : Cloning) (s : Store) : Finset Nat :=
  (Finset.range s.cells.size).filter fun i => c.copyOf i = none

end Cloning

/-- The recursion: from `c`, copying the values `vs` gives the values `ws` and ends at `d`. -/
inductive Clones : Cloning → List Value → List Value → Cloning → Prop
  | done {c : Cloning} : Clones c [] [] c
  | scalar {c d : Cloning} {v : Value} {vs ws : List Value} (hh : v.handle? = none)
      (hi : v.items? = none) (hrest : Clones c vs ws d) : Clones c (v :: vs) (v :: ws) d
  | array {c d e : Cloning} {n : Nat} {element : Ty} {items copied vs ws : List Value}
      (hitems : Clones c items copied d) (hrest : Clones (d.makeArray element copied) vs ws e) :
      Clones c (.array n element items :: vs) (.array d.store.nextArray element copied :: ws) e
  | known {c d : Cloning} {h : Handle} {j : Nat} {vs ws : List Value} (hseen : c.copyOf h.id = some j)
      (hrest : Clones c vs ws d) : Clones c (.object h :: vs) (.object ⟨j, h.type⟩ :: ws) d
  | fresh {c d e : Cloning} {h : Handle} {slots vs ws : List Value} (hseen : c.copyOf h.id = none)
      (hslots : Clones (c.enter h) (c.store.slotsAt h.id) slots d)
      (hrest : Clones (d.fill c.store.cells.size slots) vs ws e) :
      Clones c (.object h :: vs) (.object ⟨c.store.cells.size, h.type⟩ :: ws) e

variable {s : Store} {c d e : Cloning} {v w : Value} {vs ws slots : List Value} {h : Handle}
  {f : Nat → Nat} {i j m n : Nat}

/-! ## How far a copy has come -/

namespace Cloning

theorem name_eq (hi : c.copyOf i = some j) : c.name i = j := by
  rw [name, hi, Option.getD_some]

theorem copyOf_enter_self (c : Cloning) (h : Handle) :
    (c.enter h).copyOf h.id = some c.store.cells.size :=
  Function.update_self ..

theorem copyOf_enter_of_ne (c : Cloning) (hne : i ≠ h.id) : (c.enter h).copyOf i = c.copyOf i :=
  Function.update_of_ne hne ..

/-- The copies are those that there were, and the new one. -/
theorem copyOf_enter_eq_some (hi : (c.enter h).copyOf i = some j) :
    i = h.id ∧ j = c.store.cells.size ∨ c.copyOf i = some j := by
  by_cases hne : i = h.id
  · subst hne
    exact .inl ⟨rfl, Option.some.inj (hi.symm.trans (c.copyOf_enter_self h))⟩
  · rw [c.copyOf_enter_of_ne hne] at hi
    exact .inr hi

@[simp] theorem size_enter (c : Cloning) (h : Handle) :
    (c.enter h).store.cells.size = c.store.cells.size + 1 :=
  Array.size_push _

@[simp] theorem size_fill (c : Cloning) (id : Nat) (slots : List Value) :
    (c.fill id slots).store.cells.size = c.store.cells.size :=
  c.store.size_putSlots id slots

/-- The empty copy is behind all objects. -/
theorem cells_enter (c : Cloning) (h : Handle) :
    (c.enter h).store.cells[c.store.cells.size]? = some ⟨h.type, []⟩ :=
  Array.getElem?_push_size

theorem cells_fill_of_ne (c : Cloning) (slots : List Value) (hne : i ≠ j) :
    (c.fill j slots).store.cells[i]? = c.store.cells[i]? :=
  (Array.getElem?_modify ..).trans (if_neg hne.symm)

theorem cells_fill_self (slots : List Value) {cell : Cell} (hj : c.store.cells[j]? = some cell) :
    (c.fill j slots).store.cells[j]? = some ⟨cell.type, slots⟩ := by
  rw [fill, Store.putSlots, Array.getElem?_modify, if_pos rfl, hj]
  rfl

/-- `d` comes after `c`: the objects that were there are as they were, and what was seen has been seen. -/
structure Extends (c d : Cloning) : Prop where
  keeps : c.store.Keeps d.store
  copyOf : ∀ {i j : Nat}, c.copyOf i = some j → d.copyOf i = some j

protected theorem Extends.refl (c : Cloning) : c.Extends c :=
  ⟨.refl _, id⟩

protected theorem Extends.trans (h : c.Extends d) (h' : d.Extends e) : c.Extends e :=
  ⟨h.keeps.trans h'.keeps, fun hi => h'.copyOf (h.copyOf hi)⟩

theorem extends_makeArray (c : Cloning) (element : Ty) (items : List Value) :
    c.Extends (c.makeArray element items) :=
  ⟨.refl _, id⟩

theorem extends_enter (hseen : c.copyOf h.id = none) : c.Extends (c.enter h) where
  keeps := by
    intro id cell hc
    have hlt := (Array.getElem?_eq_some_iff.mp hc).1
    exact (Array.getElem?_push_lt hlt).trans ((Array.getElem?_eq_getElem hlt).symm.trans hc)
  copyOf {i j} hi := by
    have hne : i ≠ h.id := by
      rintro rfl
      cases hseen.symm.trans hi
    rw [c.copyOf_enter_of_ne hne]
    exact hi

/-- To fill the copy that was entered leaves alone what was there before. -/
theorem Extends.fill (hseen : c.copyOf h.id = none) (hx : (c.enter h).Extends d)
    (slots : List Value) : c.Extends (d.fill c.store.cells.size slots) where
  keeps := by
    intro id cell hc
    rw [cells_fill_of_ne d slots (Nat.ne_of_lt (Array.getElem?_eq_some_iff.mp hc).1)]
    exact hx.keeps ((extends_enter hseen).keeps hc)
  copyOf hi := hx.copyOf ((extends_enter hseen).copyOf hi)

theorem Extends.unseen_subset (h : c.Extends d) (s : Store) : d.unseen s ⊆ c.unseen s := by
  intro i hi
  obtain ⟨hlt, hnone⟩ := Finset.mem_filter.mp hi
  refine Finset.mem_filter.mpr ⟨hlt, ?_⟩
  cases hc : c.copyOf i with
  | none => rfl
  | some j => cases hnone.symm.trans (h.copyOf hc)

theorem card_unseen_enter_lt (hseen : c.copyOf h.id = none) (hlt : h.id < s.cells.size) :
    ((c.enter h).unseen s).card < (c.unseen s).card := by
  refine Finset.card_lt_card ⟨(extends_enter hseen).unseen_subset s, fun hsub => ?_⟩
  have hmem := hsub (Finset.mem_filter.mpr ⟨Finset.mem_range.mpr hlt, hseen⟩)
  cases (c.copyOf_enter_self h).symm.trans (Finset.mem_filter.mp hmem).2

end Cloning

open Cloning

theorem Clones.extends (hc : Clones c vs ws d) : c.Extends d := by
  induction hc with
  | done => exact .refl _
  | scalar _ _ _ ih => exact ih
  | array _ _ ih ih' => exact (ih.trans (extends_makeArray ..)).trans ih'
  | known _ _ ih => exact ih
  | fresh hseen _ _ ih ih' => exact (ih.fill hseen _).trans ih'

/-! ## The recursion ends -/

/-- The recursion ends in one way only. -/
theorem Clones.unique {vs' : List Value} {d' : Cloning} (hc : Clones c vs ws d)
    (hc' : Clones c vs vs' d') : vs' = ws ∧ d' = d := by
  induction hc generalizing vs' d' with
  | done =>
    cases hc'
    exact ⟨rfl, rfl⟩
  | scalar hh hi _ ih =>
    cases hc' with
    | scalar _ _ hrest =>
      obtain ⟨rfl, rfl⟩ := ih hrest
      exact ⟨rfl, rfl⟩
    | array => cases hi
    | known | fresh => cases hh
  | array _ _ ih ih' =>
    cases hc' with
    | scalar _ hi _ => cases hi
    | array hitems hrest =>
      obtain ⟨rfl, rfl⟩ := ih hitems
      obtain ⟨rfl, rfl⟩ := ih' hrest
      exact ⟨rfl, rfl⟩
  | known hseen _ ih =>
    cases hc' with
    | scalar hh => cases hh
    | known hseen' hrest =>
      cases hseen.symm.trans hseen'
      obtain ⟨rfl, rfl⟩ := ih hrest
      exact ⟨rfl, rfl⟩
    | fresh hseen' => cases hseen.symm.trans hseen'
  | fresh hseen _ _ ih ih' =>
    cases hc' with
    | scalar hh => cases hh
    | known hseen' => cases hseen.symm.trans hseen'
    | fresh _ hslots hrest =>
      obtain ⟨rfl, rfl⟩ := ih hslots
      obtain ⟨rfl, rfl⟩ := ih' hrest
      exact ⟨rfl, rfl⟩

/-- The slots of an object are well-typed as long as it is as it was. -/
theorem Value.WellTyped.slotsAt_eq (hs : s.WellTyped) (hk : s.Keeps c.store)
    (hv : (Value.object h).WellTyped s) :
    c.store.slotsAt h.id = s.slotsAt h.id ∧ ∀ w ∈ s.slotsAt h.id, w.WellTyped s :=
  ⟨hk.slotsAt hv.typeAt?, (hs.slotsAt hv.typeAt?).slots⟩

/-- The recursion ends.  At most `n` objects have not been seen when it starts: the slots of an object are
copied with fewer, whatever they hold, and all else that is copied is smaller. -/
theorem exists_clones (hs : s.WellTyped) (n : Nat) (c : Cloning) (hk : s.Keeps c.store)
    (hn : (c.unseen s).card ≤ n) : ∀ vs : List Value, (∀ v ∈ vs, v.WellTyped s) →
      ∃ ws d, Clones c vs ws d
  | [], _ => ⟨[], c, .done⟩
  | .array _ element items :: vs, hvs => by
    obtain ⟨hv, hvs⟩ := List.forall_mem_cons.mp hvs
    obtain ⟨copied, d, hitems⟩ := exists_clones hs n c hk hn items hv.items
    have hd := hitems.extends.trans (extends_makeArray d element copied)
    obtain ⟨ws, e, hrest⟩ := exists_clones hs n (d.makeArray element copied) (hk.trans hd.keeps)
      ((Finset.card_le_card (hd.unseen_subset s)).trans hn) vs hvs
    exact ⟨_, e, .array hitems hrest⟩
  | .object h :: vs, hvs => by
    obtain ⟨hv, hvs⟩ := List.forall_mem_cons.mp hvs
    cases hseen : c.copyOf h.id with
    | some j =>
      obtain ⟨ws, d, hrest⟩ := exists_clones hs n c hk hn vs hvs
      exact ⟨_, d, .known hseen hrest⟩
    | none =>
      obtain ⟨heq, hwell⟩ := hv.slotsAt_eq hs hk
      have hlt := card_unseen_enter_lt hseen (Store.lt_size_of_typeAt? hv.typeAt?)
      have hless : ((c.enter h).unseen s).card < n := hlt.trans_le hn
      obtain ⟨slots, d, hslots⟩ := exists_clones hs _ (c.enter h)
        (hk.trans (extends_enter hseen).keeps) (Nat.le_refl _) (s.slotsAt h.id) hwell
      rw [← heq] at hslots
      have hd := hslots.extends.fill hseen slots
      obtain ⟨ws, e, hrest⟩ := exists_clones hs n (d.fill c.store.cells.size slots)
        (hk.trans hd.keeps) ((Finset.card_le_card (hd.unseen_subset s)).trans hn) vs hvs
      exact ⟨_, e, .fresh hseen hslots hrest⟩
  | .null :: vs, hvs | .bool _ :: vs, hvs | .int _ :: vs, hvs | .float _ :: vs, hvs
  | .str _ :: vs, hvs => by
    obtain ⟨ws, d, hrest⟩ := exists_clones hs n c hk hn vs (List.forall_mem_cons.mp hvs).2
    exact ⟨_, d, .scalar rfl rfl hrest⟩
termination_by vs => (n, sizeOf vs)

/-! ## The copies are the new objects -/

/-- The new objects, behind those of `s`, are the copies of the objects seen, each of one of them. -/
structure Cloning.Tally (s : Store) (c : Cloning) : Prop where
  size_le : s.cells.size ≤ c.store.cells.size
  mem : ∀ {i j : Nat}, c.copyOf i = some j → j ∈ Set.Ico s.cells.size c.store.cells.size
  injective : ∀ {i j k : Nat}, c.copyOf i = some k → c.copyOf j = some k → i = j
  onto : ∀ j ∈ Set.Ico s.cells.size c.store.cells.size, ∃ i, c.copyOf i = some j

theorem Cloning.tally_start (s : Store) : (start s).Tally s where
  size_le := Nat.le_refl _
  mem hi := nomatch hi
  injective hi := nomatch hi
  onto _ hj := absurd hj.2 (Nat.not_lt.mpr hj.1)

theorem Cloning.Tally.enter (hc : c.Tally s) (hseen : c.copyOf h.id = none) :
    (c.enter h).Tally s := by
  constructor
  case size_le =>
    rw [size_enter]
    exact Nat.le_succ_of_le hc.size_le
  case mem =>
    intro i j hi
    rw [size_enter]
    obtain ⟨-, rfl⟩ | hi := copyOf_enter_eq_some hi
    · exact ⟨hc.size_le, Nat.lt_succ_self _⟩
    · exact ⟨(hc.mem hi).1, Nat.lt_succ_of_lt (hc.mem hi).2⟩
  case injective =>
    intro i j k hi hj
    obtain ⟨rfl, rfl⟩ | hi := copyOf_enter_eq_some hi
    · obtain ⟨rfl, -⟩ | hj := copyOf_enter_eq_some hj
      · rfl
      · exact absurd (hc.mem hj).2 (Nat.lt_irrefl _)
    · obtain ⟨rfl, rfl⟩ | hj := copyOf_enter_eq_some hj
      · exact absurd (hc.mem hi).2 (Nat.lt_irrefl _)
      · exact hc.injective hi hj
  case onto =>
    intro j hj
    rw [size_enter] at hj
    obtain hlt | rfl := Nat.lt_succ_iff_lt_or_eq.mp hj.2
    · obtain ⟨i, hi⟩ := hc.onto j ⟨hj.1, hlt⟩
      exact ⟨i, (extends_enter hseen).copyOf hi⟩
    · exact ⟨h.id, c.copyOf_enter_self h⟩

/-- What is filled into copies and what arrays are made does not matter. -/
theorem Cloning.Tally.congr (hc : c.Tally s) (hcopies : d.copyOf = c.copyOf)
    (hsize : d.store.cells.size = c.store.cells.size) : d.Tally s := by
  obtain ⟨hle, hmem, hinj, honto⟩ := hc
  rw [← hsize] at hle
  rw [← hcopies, ← hsize] at hmem honto
  rw [← hcopies] at hinj
  exact ⟨hle, hmem, hinj, honto⟩

theorem Clones.tally (hc : Clones c vs ws d) (ht : c.Tally s) : d.Tally s := by
  induction hc with
  | done => exact ht
  | scalar _ _ _ ih => exact ih ht
  | array _ _ ih ih' => exact ih' ((ih ht).congr rfl rfl)
  | known _ _ ih => exact ih ht
  | fresh hseen _ _ ih ih' => exact ih' ((ih (ht.enter hseen)).congr rfl (size_fill ..))

/-! ## What is copied -/

/-- All that the values hold directly has been seen. -/
theorem Clones.seen (hc : Clones c vs ws d) :
    ∀ i ∈ Value.placesOfItems vs, ∃ j, d.copyOf i = some j := by
  induction hc with
  | done => exact fun _ hi => nomatch hi
  | scalar hh hi _ ih =>
    rw [Value.placesOfItems, Value.places_eq_nil hh hi]
    exact ih
  | @array c d e n element items copied vs ws hitems hrest ih ih' =>
    intro i hi
    rcases List.mem_append.mp hi with hi | hi
    · obtain ⟨j, hj⟩ := ih i hi
      exact ⟨j, ((extends_makeArray d element copied).trans hrest.extends).copyOf hj⟩
    · exact ih' i hi
  | known hseen hrest ih =>
    refine List.forall_mem_cons.mpr ⟨⟨_, hrest.extends.copyOf hseen⟩, ih⟩
  | @fresh c d e h slots vs ws hseen hslots hrest ih ih' =>
    refine List.forall_mem_cons.mpr ⟨⟨c.store.cells.size, ?_⟩, ih'⟩
    exact hrest.extends.copyOf (hslots.extends.copyOf (c.copyOf_enter_self h))

/-- The results are the images of the values, under any renaming that knows the copies. -/
theorem Clones.images (hc : Clones c vs ws d) (hf : ∀ {i j : Nat}, d.copyOf i = some j → f i = j) :
    Value.Images f vs ws := by
  induction hc with
  | done => rfl
  | @scalar c d v vs ws hh hi _ ih =>
    have hv : v.Image f v := by
      cases v with
      | object => cases hh
      | array => cases hi
      | _ => rfl
    exact .cons hv (ih hf)
  | @array c d e n element items copied vs ws _ hrest ih ih' =>
    have hitems : Value.Images f items copied :=
      ih fun hi => hf (((extends_makeArray d element copied).trans hrest.extends).copyOf hi)
    refine .cons ?_ (ih' hf)
    rw [Value.Image, Value.relabel, Value.relabel, Value.relabelItems_eq_map,
      Value.relabelItems_eq_map, hitems]
  | known hseen hrest ih =>
    refine .cons ?_ (ih hf)
    rw [Value.Image, Value.relabel, Value.relabel, hf (hrest.extends.copyOf hseen), id]
  | @fresh c d e h slots vs ws _ hslots hrest _ ih' =>
    have hcopy := hrest.extends.copyOf (hslots.extends.copyOf (c.copyOf_enter_self h))
    refine .cons ?_ (ih' hf)
    rw [Value.Image, Value.relabel, Value.relabel, hf hcopy, id]

/-- What is known at the end `d` of an object `i`, whose copy `j` was made when the values `vs` were copied,
in a store of `n` objects. -/
structure Made (s : Store) (f : Nat → Nat) (n : Nat) (vs : List Value) (d : Cloning) (i j : Nat) :
    Prop where
  reached : ∃ v ∈ vs, s.Reaches v i
  new : n ≤ j
  copy : ∃ cell slots, s.cells[i]? = some cell ∧ d.store.cells[j]? = some ⟨cell.type, slots⟩ ∧
    Value.Images f cell.slots slots
  seen : ∀ k ∈ s.successors i, ∃ l, d.copyOf k = some l

theorem Made.mono (hm : Made s f n vs c i j)
    (hv : ∀ v ∈ vs, s.Reaches v i → ∃ w ∈ ws, s.Reaches w i) (hn : m ≤ n)
    (hj : ∀ cell, c.store.cells[j]? = some cell → d.store.cells[j]? = some cell)
    (hcopies : ∀ {i j : Nat}, c.copyOf i = some j → d.copyOf i = some j) : Made s f m ws d i j where
  reached := by
    obtain ⟨v, hmem, hr⟩ := hm.reached
    exact hv v hmem hr
  new := hn.trans hm.new
  copy := by
    obtain ⟨cell, slots, hc, hcopy, himages⟩ := hm.copy
    exact ⟨cell, slots, hc, hj _ hcopy, himages⟩
  seen k hk := by
    obtain ⟨l, hl⟩ := hm.seen k hk
    exact ⟨l, hcopies hl⟩

theorem Made.of_rest (hm : Made s f n vs d i j) (v : Value) (hn : m ≤ n) :
    Made s f m (v :: vs) d i j :=
  hm.mono (fun w hw hr => ⟨w, List.mem_cons_of_mem _ hw, hr⟩) hn (fun _ => id) id

theorem Made.of_items {element : Ty} {items : List Value} (hm : Made s f n items d i j)
    (hx : d.Extends e) (number : Nat) (vs : List Value) :
    Made s f n (.array number element items :: vs) e i j :=
  hm.mono (fun w hw hr => ⟨_, List.mem_cons_self, Store.reaches_array.mpr ⟨w, hw, hr⟩⟩)
    (Nat.le_refl n) (fun _ hcell => hx.keeps hcell) hx.copyOf

/-- What is made for the slots of an object is behind the copy of the object, which is filled next. -/
theorem Made.of_slots (hm : Made s f (c.enter h).store.cells.size (s.slotsAt h.id) d i j)
    (hx : (d.fill c.store.cells.size slots).Extends e) (vs : List Value) :
    Made s f c.store.cells.size (.object h :: vs) e i j := by
  rw [size_enter] at hm
  refine hm.mono (fun w hw hr => ⟨_, List.mem_cons_self, ?_⟩) (Nat.le_succ _)
    (fun _ hcell => hx.keeps ?_) hx.copyOf
  · exact .of_slot (.place (List.mem_singleton_self _)) hw hr
  · rw [d.cells_fill_of_ne slots (Nat.ne_of_gt hm.new)]
    exact hcell

/-- The copy of the object itself is filled with the copies of its slots. -/
theorem made_of_slots (hv : (Value.object h).WellTyped s)
    (hslots : Clones (c.enter h) (s.slotsAt h.id) slots d)
    (hx : (d.fill c.store.cells.size slots).Extends e)
    (hf : ∀ {i j : Nat}, e.copyOf i = some j → f i = j) (vs : List Value) :
    Made s f c.store.cells.size (.object h :: vs) e h.id c.store.cells.size where
  reached := ⟨_, List.mem_cons_self, .place (List.mem_singleton_self _)⟩
  new := Nat.le_refl _
  copy := by
    obtain ⟨cell, hcell, htype⟩ := Store.typeAt?_eq_some_iff.mp hv.typeAt?
    have himages := hslots.images fun hl => hf (hx.copyOf hl)
    have hfilled := cells_fill_self slots (hslots.extends.keeps (c.cells_enter h))
    rw [Store.slotsAt_eq hcell] at himages
    rw [← htype] at hfilled
    exact ⟨cell, slots, hcell, hx.keeps hfilled, himages⟩
  seen k hk := by
    obtain ⟨l, hl⟩ := hslots.seen k hk
    exact ⟨l, hx.copyOf hl⟩

/-- Objects that are seen while the values `vs` are copied are copied too. -/
theorem Clones.made (hc : Clones c vs ws d) (hs : s.WellTyped) (hk : s.Keeps c.store)
    (hvs : ∀ v ∈ vs, v.WellTyped s) (hf : ∀ {i j : Nat}, d.copyOf i = some j → f i = j)
    (hnone : c.copyOf i = none) (hi : d.copyOf i = some j) :
    Made s f c.store.cells.size vs d i j := by
  induction hc with
  | done => cases hnone.symm.trans hi
  | scalar _ _ _ ih | known _ _ ih =>
    exact (ih hk (List.forall_mem_cons.mp hvs).2 hf hnone hi).of_rest _ (Nat.le_refl _)
  | @array c d e n element items copied vs ws hitems hrest ih ih' =>
    obtain ⟨hv, hvs⟩ := List.forall_mem_cons.mp hvs
    have hx := (extends_makeArray d element copied).trans hrest.extends
    cases hd : d.copyOf i with
    | some k =>
      obtain rfl : k = j := Option.some.inj ((hx.copyOf hd).symm.trans hi)
      exact (ih hk hv.items (fun hl => hf (hx.copyOf hl)) hnone hd).of_items hx n vs
    | none =>
      have hsize := hitems.extends.keeps.size_le
      exact (ih' (hk.trans hitems.extends.keeps) hvs hf hd hi).of_rest _ hsize
  | @fresh c d e h slots vs ws hseen hslots hrest ih ih' =>
    obtain ⟨hv, hvs⟩ := List.forall_mem_cons.mp hvs
    obtain ⟨heq, hwell⟩ := hv.slotsAt_eq hs hk
    rw [heq] at hslots ih
    have hx := hrest.extends
    by_cases hne : i = h.id
    · subst hne
      have hcopy := hx.copyOf (hslots.extends.copyOf (c.copyOf_enter_self h))
      obtain rfl : c.store.cells.size = j := Option.some.inj (hcopy.symm.trans hi)
      exact made_of_slots hv hslots hx hf vs
    · have hnone' := (c.copyOf_enter_of_ne hne).trans hnone
      cases hd : d.copyOf i with
      | some k =>
        obtain rfl : k = j := Option.some.inj ((hx.copyOf hd).symm.trans hi)
        exact (ih (hk.trans (extends_enter hseen).keeps) hwell (fun hl => hf (hx.copyOf hl)) hnone'
          hd).of_slots hx vs
      | none =>
        have hbefore := hslots.extends.fill hseen slots
        exact (ih' (hk.trans hbefore.keeps) hvs hf hd hi).of_rest _ hbefore.keeps.size_le

/-! ## One copy of each object -/

section

variable (hc : Clones (start s) [v] ws d) (hs : s.WellTyped) (hv : v.WellTyped s)
include hc hs hv

theorem Clones.made_of_seen (hi : d.copyOf i = some j) : Made s d.name s.cells.size [v] d i j :=
  hc.made hs (.refl s) (List.forall_mem_singleton.mpr hv) name_eq rfl hi

/-- The objects seen are those that the value leads to. -/
theorem Clones.exists_copyOf_iff : (∃ j, d.copyOf i = some j) ↔ s.Reaches v i := by
  constructor
  · rintro ⟨j, hj⟩
    obtain ⟨u, hu, hr⟩ := (hc.made_of_seen hs hv hj).reached
    rwa [List.mem_singleton.mp hu] at hr
  · intro hr
    induction hr with
    | place hp => exact hc.seen _ (List.mem_append_left _ hp)
    | step _ hn ih =>
      obtain ⟨j, hj⟩ := ih
      exact (hc.made_of_seen hs hv hj).seen _ hn

end

theorem Clones.mirrors (hc : Clones (start s) [v] [w] d) (hs : s.WellTyped) (hv : v.WellTyped s) :
    s.Mirrors d.name v d.store w := by
  refine ⟨(List.cons.inj (hc.images name_eq)).1, fun i hr cell hcell => ?_⟩
  obtain ⟨j, hj⟩ := (hc.exists_copyOf_iff hs hv).mpr hr
  obtain ⟨cell', slots, hcell', hcopy, himages⟩ := (hc.made_of_seen hs hv hj).copy
  obtain rfl := Option.some.inj (hcell.symm.trans hcell')
  rw [name_eq hj]
  exact ⟨slots, hcopy, himages⟩

/-- The recursion makes one copy of each object that it comes to. -/
theorem Clones.duplicates (hc : Clones (start s) [v] [w] d) (hs : s.WellTyped) (hv : v.WellTyped s) :
    s.Duplicates v d.store w := by
  have htally := hc.tally (tally_start s)
  have hmirrors := hc.mirrors hs hv
  have hinj : ∀ i j, s.Reaches v i → s.Reaches v j → d.name i = d.name j → i = j := by
    intro i j hi hj heq
    obtain ⟨k, hk⟩ := (hc.exists_copyOf_iff hs hv).mpr hi
    obtain ⟨l, hl⟩ := (hc.exists_copyOf_iff hs hv).mpr hj
    rw [name_eq hk, name_eq hl] at heq
    subst heq
    exact htally.injective hk hl
  have hiso : s.Isomorphic d.name v d.store w := ⟨hmirrors, hinj, fun j => hmirrors.onto hs hv⟩
  refine hiso.duplicates hc.extends.keeps ⟨fun i hi => ?_, fun i hi j hj => hinj i j hi hj, ?_⟩
  · obtain ⟨j, hj⟩ := (hc.exists_copyOf_iff hs hv).mpr hi
    rw [name_eq hj]
    exact htally.mem hj
  · intro j hj
    obtain ⟨i, hi⟩ := htally.onto j hj
    exact ⟨i, (hc.exists_copyOf_iff hs hv).mp ⟨j, hi⟩, name_eq hi⟩

namespace Graph

/-- A deep copy of a value of any reachable world, whatever is shared in it and whatever cycles it has.
The recursion ends, in one way only, and makes one new object for each object that the value leads to.  So
does the deep copy, for which the objects are listed first. -/
theorem one_copy_each {w : World} (hw : Reachable w) {v : Value} (hv : w.Has v) :
    (∃ copied d, (∀ vs c, Clones (start w.store) [v] vs c ↔ vs = [copied] ∧ c = d) ∧
      w.store.Duplicates v d.store copied) ∧
    w.store.Duplicates v (copy v w.store).state (copy v w.store).value := by
  have hs := hw.wellTyped.store
  have hvs := hv.wellTyped hw.wellTyped
  refine ⟨?_, Store.duplicates_copy hs hvs⟩
  obtain ⟨vs, d, hc⟩ := exists_clones hs _ (start w.store) (.refl _) (Nat.le_refl _) [v]
    (List.forall_mem_singleton.mpr hvs)
  obtain ⟨copied, rfl⟩ := List.length_eq_one_iff.mp (hc.images name_eq).length_eq
  refine ⟨copied, d, fun vs c => ⟨hc.unique, ?_⟩, hc.duplicates hs hvs⟩
  rintro ⟨rfl, rfl⟩
  exact hc

theorem reach_tied : tied.store.reach (.object ⟨0, knot⟩) = [0] := by
  show tied.store.closure [0] = [0]
  rw [Store.closure, if_pos (show tied.store.frontier [0] = [] from rfl)]

/-- The knot is reached three times, from outside and by its two ends, and copied once. -/
theorem one_copy_of_knot :
    let root : Value := .object ⟨0, knot⟩
    let copied : Value := .object ⟨1, knot⟩
    let o := copy root tied.store
    (∃ d, Clones (start tied.store) [root] [copied] d) ∧ o.value = copied ∧ o.state.cells.size = 2 ∧
    o.state.slotsAt 1 = [.array 2 .anyObject [copied, copied], .null] ∧
    (∃ copied d, (∀ vs c, Clones (start tied.store) [root] vs c ↔ vs = [copied] ∧ c = d) ∧
      tied.store.Duplicates root d.store copied) ∧
    tied.store.Duplicates root o.state o.value := by
  have hroot : tied.Has (.object ⟨0, knot⟩) := .held (List.mem_cons_of_mem _ List.mem_cons_self)
  have hcopy : copy (.object ⟨0, knot⟩) tied.store = ⟨.object ⟨1, knot⟩,
      ⟨tied.store.cells.push
        ⟨knot, [.array 2 .anyObject [.object ⟨1, knot⟩, .object ⟨1, knot⟩], .null]⟩, 3⟩, []⟩ := by
    rw [copy, Action.change_apply, Store.copy, reach_tied]
    rfl
  refine ⟨⟨_, .fresh rfl (.array (.known rfl (.known rfl .done)) (.scalar rfl rfl .done)) .done⟩,
    ?_, ?_, ?_, one_copy_each reachable_tied hroot⟩
  · rw [hcopy]
  · rw [hcopy]
    rfl
  · rw [hcopy]
    rfl

end Graph

end DeepPath
