import DeepPath.Proofs.Path.RoundTrip

/-!
# Joined texts

The words of two texts with a separator between them are the words of both (`words_append`), and cuts of
them are joined to a cut, unless a member that is called like the marker comes to stand in front of a word
that opens like an element word (`Matches.append`).

Main statement: reading commutes with joining up to this one exception, and writing commutes with it always
(`parse_joined_iff`).
-/

namespace DeepPath.Dialect

variable {d : Dialect} {blocks blocks' : List (List (List Char))} {steps steps' : List Step}

theorem words_append (d : Dialect) (a b : String) :
    d.words (a ++ d.separator.toString ++ b) = d.words a ++ d.words b := by
  have hpieces : d.pieces (a ++ d.separator.toString ++ b) = d.pieces a ++ d.pieces b := by
    simpa [pieces] using List.splitOn_append_cons_self a.toList b.toList
  rw [words, hpieces, List.filter_append, words, words]

theorem Matches.append (h : d.Matches blocks steps) (h' : d.Matches blocks' steps')
    (hseam : steps.getLast? = some (.member d.marker) →
      ∀ next ∈ blocks'.flatten.head?, ¬ d.opening <+: next) :
    d.Matches (blocks ++ blocks') (steps ++ steps') := by
  induction h with
  | nil => exact h'
  | element hnum rest ih =>
    refine .element hnum (ih fun hlast => hseam ?_)
    rw [List.getLast?_cons, hlast]
    rfl
  | @member name blocks steps hnext rest ih =>
    refine .member (fun hname next hmem => ?_) (ih fun hlast => hseam ?_)
    · change next ∈ (blocks ++ blocks').flatten.head? at hmem
      rw [List.flatten_append, List.head?_append, Option.mem_def, Option.or_eq_some_iff] at hmem
      obtain hmem | ⟨hnone, hmem⟩ := hmem
      · exact hnext hname next hmem
      · -- the member is the last step, and what follows it is behind the seam
        rw [rest.head?_flatten, Option.map_eq_none_iff, List.head?_eq_none_iff] at hnone
        subst hnone hname
        exact hseam rfl next hmem
    · rw [List.getLast?_cons, hlast]
      rfl

/-- Two texts that are paths, with a separator between them, are the concatenation of the paths exactly
unless the first path ends with a member that is called like the marker and the second text starts like an
element word.  A concatenation is written as its two parts with a separator between them. -/
theorem parse_joined_iff (d : Dialect) :
    (∀ {a b : String} {p q : Path}, d.parse a = .ok p → d.parse b = .ok q →
      (d.parse (a ++ d.separator.toString ++ b) = .ok (p ++ q) ↔
        ¬ (p.last = .member d.marker ∧ ∃ w ∈ (d.words b).head?, d.opening <+: w))) ∧
    ∀ p q : Path, d.render (p ++ q) = d.render p ++ d.separator.toString ++ d.render q := by
  refine ⟨fun {a b p q} ha hb => ?_, d.render_append⟩
  obtain ⟨blocks, hflat, hmatch⟩ := parse_eq_ok_iff.mp ha
  obtain ⟨blocks', hflat', hmatch'⟩ := parse_eq_ok_iff.mp hb
  constructor
  · rintro hjoined ⟨hlast, w, hw, hopening⟩
    obtain ⟨_, -, hmatch''⟩ := parse_eq_ok_iff.mp hjoined
    rw [Path.steps_append] at hmatch''
    obtain ⟨-, -, hchain⟩ := List.isChain_append.mp hmatch''.isChain
    rw [← hflat', hmatch'.head?_flatten] at hw
    obtain ⟨next, hnext, rfl⟩ := Option.map_eq_some_iff.mp hw
    exact hchain p.last (Path.getLast?_steps p) next hnext hlast hopening
  · intro hseam
    refine parse_eq_ok_iff.mpr ⟨blocks ++ blocks', ?_, hmatch.append hmatch' fun hlast => ?_⟩
    · rw [List.flatten_append, hflat, hflat', words_append]
    · rw [Path.getLast?_steps, Option.some.injEq] at hlast
      rw [hflat']
      exact fun next hnext hopening => hseam ⟨hlast, next, hnext, hopening⟩

/-- A member that is called like the marker is read as a member at the end of a text, and in front of
another member, but not in front of an element word. -/
theorem parse_joined_at_marker :
    let d := Dialect.standard
    let p : Path := ⟨.member "items", [.member "Array"]⟩
    let data : Path := ⟨.member "data", []⟩
    let element : Path := ⟨.member "data[1]", []⟩
    d.parse "items.Array" = .ok p ∧ d.parse "data" = .ok data ∧ d.parse "data[1]" = .ok element ∧
      d.parse ("items.Array" ++ d.separator.toString ++ "data") = .ok (p ++ data) ∧
      d.parse ("items.Array" ++ d.separator.toString ++ "data[1]") ≠ .ok (p ++ element) := by
  intro d p data element
  have hp : d.parse "items.Array" = .ok p := by decide
  have hdata : d.parse "data" = .ok data := by decide
  have helement : d.parse "data[1]" = .ok element := by decide
  obtain ⟨hjoined, -⟩ := parse_joined_iff d
  refine ⟨hp, hdata, helement, (hjoined hp hdata).mpr (by decide), fun h => ?_⟩
  exact absurd ((hjoined hp helement).mp h) (by decide)

end DeepPath.Dialect
