import DeepPath.Proofs.Path.Grammar
import Mathlib.Data.List.Chain

/-!
# Writing and reading

A written path is its words joined (`render_eq_join`): a member is one word, an element two.  These words
are a cut of themselves if no member that is called like the marker stands in front of a word that opens
like an element word (`matches_stepWords`), and steps that have been read always meet this condition
(`Matches.isChain`).

Main statements: a path is read back from what is written of it exactly if its names are words and its
steps meet the condition (`parse_render_iff`); and what has been read is read again from what is written of
it, which is the same text exactly if this was written without empty pieces and leading zeros
(`render_of_parsed`).
-/

namespace DeepPath.Dialect

variable {d : Dialect} {raw : String} {p : Path} {blocks : List (List (List Char))}
  {steps : List Step}

/-- The words of a step as it is written. -/
def stepWords (d : Dialect) : Step → List (List Char)
  | .member name => [name.toList]
  | .element index => [d.marker.toList, d.elementToken index]

/-- The first word of a step. -/
def firstWord (d : Dialect) : Step → List Char
  | .member name => name.toList
  | .element _ => d.marker.toList

/-- Whether a step may stand right in front of another: the member that is called like the marker must not
stand in front of a word that opens like an element word. -/
def MayPrecede (d : Dialect) (step next : Step) : Prop :=
  step = .member d.marker → ¬ d.opening <+: d.firstWord next

instance (d : Dialect) : DecidableRel d.MayPrecede := fun step next =>
  inferInstanceAs (Decidable (step = .member d.marker → ¬ d.opening <+: d.firstWord next))

theorem flatten_stepWords_ne_nil (h : steps ≠ []) : (steps.map d.stepWords).flatten ≠ [] := by
  obtain ⟨step, rest, rfl⟩ := List.exists_cons_of_ne_nil h
  cases step <;> simp [stepWords]

/-! ## Written words -/

theorem intercalate_cons {x : Char} (w : List Char) (l : List (List Char)) :
    [x].intercalate (w :: l) = w ++ l.flatMap (x :: ·) := by
  induction l generalizing w with
  | nil => simp
  | cons w' l ih => simp [List.intercalate_cons_cons, ih]

theorem tailChars_eq (d : Dialect) (steps : List Step) :
    d.tailChars steps = (steps.map d.stepWords).flatten.flatMap (d.separator :: ·) := by
  induction steps with
  | nil => rfl
  | cons step steps ih => cases step <;> simp [stepChars, stepWords, ih]

/-- A path is written as its words with a separator between neighbours. -/
theorem render_eq_join (d : Dialect) (p : Path) :
    d.render p = d.join (p.steps.map d.stepWords).flatten := by
  rw [render, join, pathChars, tailChars_eq, Path.steps, List.map_cons, List.flatten_cons]
  cases p.first <;> simp [stepChars, stepWords, intercalate_cons]

/-! ## Steps that have been read -/

theorem Matches.head?_flatten (h : d.Matches blocks steps) :
    blocks.flatten.head? = steps.head?.map d.firstWord := by
  cases h <;> rfl

/-- Steps that stand for blocks may stand next to each other as they do. -/
theorem Matches.isChain (h : d.Matches blocks steps) : steps.IsChain d.MayPrecede := by
  induction h with
  | nil => exact .nil
  | element hnum rest ih => exact ih.cons fun next _ => nofun
  | @member name blocks steps hnext rest ih =>
    refine ih.cons fun next hmem hname => ?_
    refine hnext (Step.member.inj hname) (d.firstWord next) ?_
    rw [rest.head?_flatten, hmem]
    rfl

/-- The words of steps that may stand next to each other stand for these steps. -/
theorem matches_stepWords (h : steps.IsChain d.MayPrecede) :
    d.Matches (steps.map d.stepWords) steps := by
  induction steps with
  | nil => exact .nil
  | cons step steps ih =>
    have hrest := ih h.tail
    cases step with
    | element index =>
      rw [List.map_cons, stepWords, elementToken_eq]
      exact .element (isNumeral_toDigits index) hrest
    | member name =>
      refine .member (fun hname next hnext => ?_) hrest
      rw [hrest.head?_flatten] at hnext
      obtain ⟨step, hstep, rfl⟩ := Option.map_eq_some_iff.mp hnext
      exact h.rel_head? hstep (congrArg Step.member hname)

/-- Words that may stand next to each other as they do are read back. -/
theorem parse_render_of_isWord (hwords : ∀ w ∈ (p.steps.map d.stepWords).flatten, d.IsWord w)
    (hchain : p.steps.IsChain d.MayPrecede) : d.parse (d.render p) = .ok p := by
  refine parse_eq_ok_iff.mpr ⟨p.steps.map d.stepWords, ?_, matches_stepWords hchain⟩
  rw [render_eq_join, words_join hwords]

theorem Matches.toList_mem {name : String} (h : d.Matches blocks steps)
    (hname : .member name ∈ steps) : name.toList ∈ blocks.flatten := by
  induction h with
  | nil => cases hname
  | element hnum rest ih =>
    simp only [List.mem_cons, reduceCtorEq, false_or] at hname
    simp [ih hname]
  | member hnext rest ih =>
    rcases List.mem_cons.mp hname with heq | hname
    · rw [Step.member.inj heq]
      simp
    · exact List.mem_cons_of_mem _ (ih hname)

theorem IsWord.elementToken {digits : List Char} {index : UInt64}
    (h : d.IsWord (d.bracketed digits)) (hnum : IsNumeral digits index) :
    d.IsWord (d.elementToken index) := by
  rw [elementToken_eq]
  refine ⟨by simp [bracketed], fun hmem => h.2 ?_⟩
  simp only [bracketed, List.mem_append] at hmem ⊢
  exact hmem.imp_left (Or.imp_right fun hdigit => hnum.toDigits_subset hdigit)

/-- What is written of steps that have been read is words. -/
theorem Matches.isWord (h : d.Matches blocks steps) (hblocks : ∀ w ∈ blocks.flatten, d.IsWord w) :
    ∀ w ∈ (steps.map d.stepWords).flatten, d.IsWord w := by
  induction h with
  | nil => nofun
  | element hnum rest ih =>
    rw [List.flatten_cons, List.forall_mem_append] at hblocks
    rw [List.map_cons, List.flatten_cons, List.forall_mem_append]
    obtain ⟨hpair, hrest⟩ := hblocks
    have hmarker := hpair _ List.mem_cons_self
    have helement := hpair _ (List.mem_cons_of_mem _ List.mem_cons_self)
    refine ⟨?_, ih hrest⟩
    simp [stepWords, hmarker, helement.elementToken hnum]
  | member hnext rest ih =>
    rw [List.flatten_cons, List.forall_mem_append] at hblocks
    rw [List.map_cons, List.flatten_cons, List.forall_mem_append]
    exact ⟨hblocks.1, ih hblocks.2⟩

/-- Blocks are those that are written of their steps unless one has a leading zero. -/
theorem Matches.eq_map_iff (h : d.Matches blocks steps) :
    blocks = steps.map d.stepWords ↔
      ∀ digits, [d.marker.toList, d.bracketed digits] ∈ blocks → ¬ LeadingZero digits := by
  induction h with
  | nil => simp
  | @element digits index blocks steps hnum rest ih =>
    simp only [List.map_cons, stepWords, elementToken_eq, List.cons.injEq, true_and, and_true,
      bracketed_inj, List.mem_cons, hnum.eq_toDigits_iff, ih]
    constructor
    · rintro ⟨hlead, hrest⟩ digits' (heq | hmem)
      · rwa [heq]
      · exact hrest digits' hmem
    · exact fun hall => ⟨hall digits (.inl rfl), fun digits' hmem => hall digits' (.inr hmem)⟩
  | member hnext rest ih => simp [stepWords, ih]

/-- What has been read is read again from what is written of it.  This is the text that was read exactly
if no piece of it is empty and no numeral in it has a leading zero. -/
theorem render_of_parsed (h : d.parse raw = .ok p) :
    d.parse (d.render p) = .ok p ∧
    ∃ blocks, d.Cuts (d.words raw) blocks p.steps ∧
      (d.render p = raw ↔ [] ∉ d.pieces raw ∧
        ∀ digits, [d.marker.toList, d.bracketed digits] ∈ blocks → ¬ LeadingZero digits) := by
  obtain ⟨blocks, hcut⟩ := parse_eq_ok_iff.mp h
  obtain ⟨hflat, hmatch⟩ := hcut
  have hwords := hmatch.isWord fun w hw => isWord_of_mem_words (hflat ▸ hw)
  have hwritten := matches_stepWords hmatch.isChain
  refine ⟨parse_render_of_isWord hwords hmatch.isChain, blocks, ⟨hflat, hmatch⟩, ?_⟩
  -- both texts have the same words exactly if both have the same cut
  have hsame : d.words raw = (p.steps.map d.stepWords).flatten ↔ blocks = p.steps.map d.stepWords := by
    constructor
    · intro heq
      exact (hmatch.unique hwritten (hflat.trans heq)).1
    · rintro rfl
      exact hflat.symm
  rw [render_eq_join, join_eq_iff hwords (flatten_stepWords_ne_nil p.steps_ne_nil), hsame,
    hmatch.eq_map_iff]

/-- A digit may separate words: what is read from `5items55Array5data[007]` is written
`items5Array5data[7]`. -/
theorem render_of_parsed_between_digits :
    let d : Dialect := { separator := '5' }
    let raw := "5items55Array5data[007]"
    let p : Path := ⟨.member "items", [.element 7]⟩
    d.parse raw = .ok p ∧ d.parse (d.render p) = .ok p ∧
    ∃ blocks, d.Cuts (d.words raw) blocks p.steps ∧
      (d.render p = raw ↔ [] ∉ d.pieces raw ∧
        ∀ digits, [d.marker.toList, d.bracketed digits] ∈ blocks → ¬ LeadingZero digits) := by
  intro d raw p
  have hparse : d.parse raw = .ok p := by decide
  exact ⟨hparse, render_of_parsed hparse⟩

/-! ## Paths that are read back -/

/-- The separator of a dialect does not occur in what it writes for elements, and its marker is a word. -/
structure Separated (d : Dialect) : Prop where
  marker_ne : d.marker ≠ ""
  marker : d.separator ∉ d.marker.toList
  element : d.separator ∉ d.element.toList
  ne_open : d.separator ≠ '['
  ne_close : d.separator ≠ ']'
  not_digit : d.separator.isDigit = false

theorem isWord_toList {name : String} :
    d.IsWord name.toList ↔ name ≠ "" ∧ d.separator ∉ name.toList := by
  simp [IsWord]

theorem Separated.elementToken (hd : d.Separated) (index : UInt64) :
    d.IsWord (d.elementToken index) := by
  have hdigits : d.separator ∉ Nat.toDigits 10 index.toNat := fun hmem => by
    have := Nat.isDigit_of_mem_toDigits (by decide) (by decide) hmem
    simp [hd.not_digit] at this
  rw [elementToken_eq]
  refine ⟨by simp [bracketed], ?_⟩
  simp [bracketed, opening, hd.element, hd.ne_open, hd.ne_close, hdigits]

theorem Separated.isWord (hd : d.Separated)
    (hnames : ∀ name, .member name ∈ steps → d.IsWord name.toList) :
    ∀ w ∈ (steps.map d.stepWords).flatten, d.IsWord w := by
  intro w hw
  obtain ⟨words, hwords, hmem⟩ := List.mem_flatten.mp hw
  obtain ⟨step, hstep, rfl⟩ := List.mem_map.mp hwords
  cases step with
  | member name =>
    rw [List.mem_singleton.mp hmem]
    exact hnames name hstep
  | element index =>
    simp only [stepWords, List.mem_cons, List.not_mem_nil, or_false] at hmem
    rcases hmem with rfl | rfl
    · exact isWord_toList.mpr ⟨hd.marker_ne, hd.marker⟩
    · exact hd.elementToken index

/-- A path is read back from what is written of it exactly if its names are not empty and hold no
separator, and no member that is called like the marker stands in front of a word that opens like an
element word. -/
theorem parse_render_iff (hd : d.Separated) (p : Path) :
    d.parse (d.render p) = .ok p ↔
      (∀ name, .member name ∈ p.steps → name ≠ "" ∧ d.separator ∉ name.toList) ∧
        p.steps.IsChain d.MayPrecede := by
  constructor
  · intro h
    obtain ⟨blocks, hflat, hmatch⟩ := parse_eq_ok_iff.mp h
    refine ⟨fun name hname => isWord_toList.mp ?_, hmatch.isChain⟩
    have hmem : name.toList ∈ d.words (d.render p) := hflat ▸ hmatch.toList_mem hname
    exact isWord_of_mem_words hmem
  · rintro ⟨hnames, hchain⟩
    exact parse_render_of_isWord (hd.isWord fun name hname => isWord_toList.mpr (hnames name hname))
      hchain

/-- Where the marker looks like an element word, the member of this name is read back in front of another
member, but not in front of an element. -/
theorem parse_render_marker_like_element :
    let d : Dialect := { marker := "data[0]" }
    let kept : Path := ⟨.member "data[0]", [.member "data", .element 5]⟩
    let lost : Path := ⟨.member "data", [.member "data[0]", .element 5]⟩
    d.Separated ∧ d.parse (d.render kept) = .ok kept ∧ d.parse (d.render lost) ≠ .ok lost := by
  intro d kept lost
  have hd : d.Separated := by constructor <;> decide
  refine ⟨hd, (parse_render_iff hd kept).mpr ⟨fun name hname => ?_, by decide⟩, fun h => ?_⟩
  · simp only [kept, Path.steps_mk, List.mem_cons, Step.member.injEq, reduceCtorEq,
      List.not_mem_nil, or_false] at hname
    rcases hname with rfl | rfl <;> decide
  · exact absurd ((parse_render_iff hd lost).mp h).2 (by decide)

end DeepPath.Dialect
