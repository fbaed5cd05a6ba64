import DeepPath.Proofs.Path.Numeral
import DeepPath.Proofs.Path.Words
import Mathlib.Data.List.Basic
import Mathlib.Data.Set.Subsingleton

/-!
# The grammar of written paths

What the reader should accept, said without the reader.  The words of a text are cut into blocks, and each
block stands for a step: the marker and a bracketed numeral for an element, any other word for the member
of that name.  The marker alone stands for a member only if no word follows that opens like an element.

1. A word is an element word exactly if the reader finds a position in it (`position?_eq_ok_iff`).
2. What the reader makes of some tokens is a cut of them (`cuts_of_scan`), and every cut is what the reader
   makes of them (`scan_of_cuts`).
3. No two cuts of the same words differ (`Cuts.unique`).

Main statement: the steps of a text are those of its only cut (`parse_iff_cuts`).
-/

namespace DeepPath.Dialect

variable {d : Dialect} {raw : String} {digits token : List Char} {index : UInt64}
  {blocks blocks' : List (List (List Char))} {steps steps' : List Step}

/-! ## Element words -/

/-- The word of an element, with `inside` between the brackets. -/
def bracketed (d : Dialect) (inside : List Char) : List Char :=
  d.opening ++ inside ++ [']']

theorem bracketed_inj {inside inside' : List Char} :
    d.bracketed inside = d.bracketed inside' ↔ inside = inside' := by
  simp [bracketed]

theorem opening_prefix_bracketed (d : Dialect) (inside : List Char) :
    d.opening <+: d.bracketed inside :=
  ⟨inside ++ [']'], by simp [bracketed]⟩

/-- An element is written with the default numeral of its position. -/
theorem elementToken_eq (d : Dialect) (index : UInt64) :
    d.elementToken index = d.bracketed (Nat.toDigits 10 index.toNat) := by
  simp [elementToken, bracketed, opening]

theorem position?_eq_none_iff : d.position? token = none ↔ ¬ d.opening <+: token := by
  rw [position?, Option.map_eq_none_iff, ← Option.not_isSome_iff_eq_none,
    List.isSome_isPrefixOf?_eq_isPrefixOf, List.isPrefixOf_iff_prefix]

theorem position?_bracketed (d : Dialect) (inside : List Char) :
    d.position? (d.bracketed inside) = some (readPosition inside) := by
  have hopen : d.opening.isPrefixOf? (d.bracketed inside) = some (inside ++ [']']) :=
    List.isPrefixOf?_eq_some_iff_append_eq.mpr (by simp [bracketed])
  have hclose : [']'].isSuffixOf? (inside ++ [']']) = some inside :=
    List.isSuffixOf?_eq_some_iff_append_eq.mpr rfl
  simp [position?, hopen, hclose]

/-- The reader finds a position in the element words with a numeral, and in no other word. -/
theorem position?_eq_ok_iff :
    d.position? token = some (.ok index) ↔
      ∃ digits, IsNumeral digits index ∧ token = d.bracketed digits := by
  constructor
  · intro h
    obtain ⟨inside, hopen, hread⟩ := Option.map_eq_some_iff.mp h
    rcases hclose : [']'].isSuffixOf? inside with _ | digits
    · rw [hclose] at hread
      cases hread
    · rw [hclose] at hread
      refine ⟨digits, readPosition_eq_ok_iff.mp hread, ?_⟩
      rw [bracketed, List.append_assoc, List.isSuffixOf?_eq_some_iff_append_eq.mp hclose,
        List.isPrefixOf?_eq_some_iff_append_eq.mp hopen]
  · rintro ⟨digits, hnum, rfl⟩
    rw [position?_bracketed, readPosition_eq_ok_iff.mpr hnum]

/-! ## Cuts -/

/-- Blocks of words that stand for steps, one by one. -/
inductive Matches (d : Dialect) : List (List (List Char)) → List Step → Prop
  | nil : Matches d [] []
  /-- The marker, and an element word with a numeral. -/
  | element {digits : List Char} {index : UInt64} {blocks : List (List (List Char))}
      {steps : List Step} (hnum : IsNumeral digits index) (rest : Matches d blocks steps) :
      Matches d ([d.marker.toList, d.bracketed digits] :: blocks) (.element index :: steps)
  /-- A name; if it is the marker, what follows does not open like an element word. -/
  | member {name : String} {blocks : List (List (List Char))} {steps : List Step}
      (hnext : name = d.marker → ∀ next ∈ blocks.flatten.head?, ¬ d.opening <+: next)
      (rest : Matches d blocks steps) :
      Matches d ([name.toList] :: blocks) (.member name :: steps)

/-- Some words cut, in order, into blocks that stand for steps. -/
def Cuts (d : Dialect) (words : List (List Char)) (blocks : List (List (List Char)))
    (steps : List Step) : Prop :=
  blocks.flatten = words ∧ d.Matches blocks steps

/-- What is cut into a member and more does not start like an element. -/
theorem not_opening_of_flatten {name : String} {rest : List (List Char)}
    (hnext : name = d.marker → ∀ next ∈ blocks.flatten.head?, ¬ d.opening <+: next)
    (h : name.toList :: blocks.flatten = d.marker.toList :: d.bracketed digits :: rest) : False := by
  simp only [List.cons.injEq, String.toList_inj] at h
  exact hnext h.1 (d.bracketed digits) (by simp [h.2]) (d.opening_prefix_bracketed digits)

theorem Matches.unique (h : d.Matches blocks steps) (h' : d.Matches blocks' steps')
    (hflat : blocks.flatten = blocks'.flatten) : blocks = blocks' ∧ steps = steps' := by
  induction h generalizing blocks' steps' with
  | nil =>
    cases h' with
    | nil => exact ⟨rfl, rfl⟩
    | element => simp at hflat
    | member => simp at hflat
  | element hnum rest ih =>
    cases h' with
    | nil => simp at hflat
    | element hnum' rest' =>
      simp only [List.flatten_cons, List.cons_append, List.nil_append, List.cons.injEq,
        true_and, bracketed_inj] at hflat
      obtain ⟨rfl, hflat⟩ := hflat
      obtain ⟨rfl, rfl⟩ := ih rest' hflat
      exact ⟨rfl, by rw [UInt64.toNat_inj.mp (hnum.value.symm.trans hnum'.value)]⟩
    | member hnext' rest' => exact (not_opening_of_flatten hnext' hflat.symm).elim
  | member hnext rest ih =>
    cases h' with
    | nil => simp at hflat
    | element hnum' rest' => exact (not_opening_of_flatten hnext hflat).elim
    | member hnext' rest' =>
      simp only [List.flatten_cons, List.cons_append, List.nil_append, List.cons.injEq,
        String.toList_inj] at hflat
      obtain ⟨rfl, hflat⟩ := hflat
      obtain ⟨rfl, rfl⟩ := ih rest' hflat
      exact ⟨rfl, rfl⟩

/-- Words are cut in one way at most. -/
theorem Cuts.unique {words : List (List Char)} (h : d.Cuts words blocks steps)
    (h' : d.Cuts words blocks' steps') : blocks = blocks' ∧ steps = steps' :=
  h.2.unique h'.2 (h.1.trans h'.1.symm)

theorem Cuts.element {words : List (List Char)} (h : d.Cuts words blocks steps)
    (hnum : IsNumeral digits index) :
    d.Cuts (d.marker.toList :: d.bracketed digits :: words)
      ([d.marker.toList, d.bracketed digits] :: blocks) (.element index :: steps) :=
  ⟨by rw [← h.1]; rfl, .element hnum h.2⟩

theorem Cuts.member {words : List (List Char)} (h : d.Cuts words blocks steps) (name : String)
    (hnext : name = d.marker → ∀ next ∈ words.head?, ¬ d.opening <+: next) :
    d.Cuts (name.toList :: words) ([name.toList] :: blocks) (.member name :: steps) :=
  ⟨by rw [← h.1]; rfl, .member (h.1 ▸ hnext) h.2⟩

/-! ## Reading -/

section

variable {t u : Token} {tokens : List Token} {scan : Scan}

theorem pairPosition?_eq_none_iff :
    d.pairPosition? t u = none ↔ (t.text = d.marker.toList → ¬ d.opening <+: u.text) := by
  unfold pairPosition?
  by_cases h : t.text = d.marker.toList
  · simp [h, position?_eq_none_iff]
  · simp [h]

theorem pairPosition?_eq_ok_iff :
    d.pairPosition? t u = some (.ok index) ↔
      t.text = d.marker.toList ∧ ∃ digits, IsNumeral digits index ∧ u.text = d.bracketed digits := by
  unfold pairPosition?
  by_cases h : t.text = d.marker.toList
  · simp [h, position?_eq_ok_iff]
  · simp [h]

theorem scan_cons_of_none (h : ∀ u ∈ tokens.head?, d.pairPosition? t u = none) :
    d.scan (t :: tokens) = .member t (d.scan tokens) := by
  cases tokens with
  | nil => rfl
  | cons u rest => rw [scan, h u rfl]

theorem scan_cons_of_ok (h : d.pairPosition? t u = some (.ok index)) :
    d.scan (t :: u :: tokens) = .element index (d.scan tokens) := by
  rw [scan, h]

theorem steps_member_eq_ok_iff :
    (Scan.member t scan).steps = .ok steps ↔
      ∃ rest, scan.steps = .ok rest ∧ steps = .member (String.ofList t.text) :: rest := by
  unfold Scan.member
  cases scan.steps <;> simp [Except.map, eq_comm]

theorem steps_element_eq_ok_iff :
    (Scan.element index scan).steps = .ok steps ↔
      ∃ rest, scan.steps = .ok rest ∧ steps = .element index :: rest := by
  unfold Scan.element
  cases scan.steps <;> simp [Except.map, eq_comm]

end

/-- What the reader makes of tokens is a cut of their words. -/
theorem cuts_of_scan {tokens : List Token} (h : (d.scan tokens).steps = .ok steps) :
    ∃ blocks, d.Cuts (tokens.map Token.text) blocks steps := by
  fun_induction d.scan tokens generalizing steps with
  | case1 =>
    cases h
    exact ⟨[], rfl, .nil⟩
  | case2 t =>
    cases h
    have hcut : d.Cuts [] [] [] := ⟨rfl, .nil⟩
    have hcut' := hcut.member (String.ofList t.text) (by simp)
    rw [String.toList_ofList] at hcut'
    exact ⟨_, hcut'⟩
  | case3 t u rest hpair ih =>
    obtain ⟨tail, htail, rfl⟩ := steps_member_eq_ok_iff.mp h
    obtain ⟨blocks, hcut⟩ := ih htail
    have hcut' := hcut.member (String.ofList t.text) fun hname next hnext => by
      obtain rfl : u.text = next := by simpa using hnext
      exact pairPosition?_eq_none_iff.mp hpair (by simp [← hname])
    rw [String.toList_ofList] at hcut'
    exact ⟨_, hcut'⟩
  | case4 t u rest index hpair ih =>
    obtain ⟨tail, htail, rfl⟩ := steps_element_eq_ok_iff.mp h
    obtain ⟨blocks, hcut⟩ := ih htail
    obtain ⟨ht, digits, hnum, hu⟩ := pairPosition?_eq_ok_iff.mp hpair
    rw [List.map_cons, List.map_cons, ht, hu]
    exact ⟨_, hcut.element hnum⟩
  | case5 t u rest cause hpair => cases h

/-- Every cut of words is what the reader makes of them. -/
theorem scan_of_cuts {tokens : List Token} (h : d.Cuts (tokens.map Token.text) blocks steps) :
    (d.scan tokens).steps = .ok steps := by
  obtain ⟨hflat, hmatch⟩ := h
  induction hmatch generalizing tokens with
  | nil =>
    rw [List.flatten_nil, eq_comm, List.map_eq_nil_iff] at hflat
    rw [hflat]
    rfl
  | element hnum rest ih =>
    obtain ⟨t, tokens', rfl, ht, htokens'⟩ := List.map_eq_cons_iff.mp hflat.symm
    obtain ⟨u, tokens, rfl, hu, htokens⟩ := List.map_eq_cons_iff.mp htokens'
    rw [scan_cons_of_ok (pairPosition?_eq_ok_iff.mpr ⟨ht, _, hnum, hu⟩)]
    exact steps_element_eq_ok_iff.mpr ⟨_, ih htokens.symm, rfl⟩
  | @member name blocks steps hnext rest ih =>
    obtain ⟨t, tokens, rfl, ht, htokens⟩ := List.map_eq_cons_iff.mp hflat.symm
    have hwords : tokens.map Token.text = blocks.flatten := htokens
    have hpair : ∀ u ∈ tokens.head?, d.pairPosition? t u = none := fun u hu => by
      refine pairPosition?_eq_none_iff.mpr fun hname => ?_
      rw [ht, String.toList_inj] at hname
      exact hnext hname u.text (by rw [← hwords, List.head?_map, hu]; rfl)
    rw [scan_cons_of_none hpair]
    exact steps_member_eq_ok_iff.mpr ⟨steps, ih hwords.symm, by rw [ht, String.ofList_toList]⟩

/-- A path is read from a text if the words of the text can be cut into blocks for its steps. -/
theorem parse_eq_ok_iff {p : Path} :
    d.parse raw = .ok p ↔ ∃ blocks, d.Cuts (d.words raw) blocks p.steps := by
  have hscan : (d.scan (d.tokens raw.toList)).steps = .ok p.steps ↔
      ∃ blocks, d.Cuts (d.words raw) blocks p.steps := by
    rw [← map_text_tokens_toList]
    exact ⟨cuts_of_scan, fun ⟨_, h⟩ => scan_of_cuts h⟩
  rw [← hscan, parse]
  rcases (d.scan (d.tokens raw.toList)).steps with ⟨offset, cause⟩ | steps
  · simp
  · rw [Except.ok.injEq, ← Path.ofSteps?_eq_some_iff]
    cases h : Path.ofSteps? steps <;> simp [h]

/-- The reader accepts a text with these steps exactly if there is a step and the words of the text can be
cut into blocks that stand for the steps; and words are cut in one way at most. -/
theorem parse_iff_cuts (d : Dialect) (raw : String) (steps : List Step) :
    ((d.parse raw).map Path.steps = .ok steps ↔
      steps ≠ [] ∧ ∃ blocks, d.Cuts (d.words raw) blocks steps) ∧
    {cut : List (List (List Char)) × List Step | d.Cuts (d.words raw) cut.1 cut.2}.Subsingleton := by
  refine ⟨⟨fun h => ?_, ?_⟩, fun cut h cut' h' => ?_⟩
  · rcases hp : d.parse raw with malformed | p
    · rw [hp] at h
      cases h
    · rw [hp] at h
      obtain rfl : p.steps = steps := Except.ok.inj h
      exact ⟨p.steps_ne_nil, parse_eq_ok_iff.mp hp⟩
  · rintro ⟨hne, hcut⟩
    obtain ⟨first, rest, rfl⟩ := List.exists_cons_of_ne_nil hne
    have hp : d.parse raw = .ok ⟨first, rest⟩ := parse_eq_ok_iff.mpr hcut
    rw [hp]
    rfl
  · obtain ⟨hblocks, hsteps⟩ := h.unique h'
    exact Prod.ext hblocks hsteps

end DeepPath.Dialect
