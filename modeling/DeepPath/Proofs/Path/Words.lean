import DeepPath.Path.Token

/-!
# Words of a text

The pieces of a text are what stands between its separators; its words are the pieces that are not empty.
A text is its pieces joined again (`join_pieces`), and words without a separator are the words of their
join (`words_join`).
-/

namespace DeepPath.Dialect

variable {d : Dialect} {raw : String} {l : List (List Char)} {w : List Char}

/-- What stands between the separators of a text, empty pieces included. -/
def pieces (d : Dialect) (raw : String) : List (List Char) :=
  raw.toList.splitOn d.separator

/-- The pieces of a text that are not empty. -/
def words (d : Dialect) (raw : String) : List (List Char) :=
  (d.pieces raw).filter fun piece => !piece.isEmpty

/-- The text of these words, with a separator between neighbours. -/
def join (d : Dialect) (l : List (List Char)) : String :=
  String.ofList ([d.separator].intercalate l)

/-- A word is not empty and holds no separator. -/
def IsWord (d : Dialect) (w : List Char) : Prop :=
  w ≠ [] ∧ d.separator ∉ w

/-- The tokens of a text are its words, each at its place. -/
theorem map_text_tokens_toList (d : Dialect) (raw : String) :
    (d.tokens raw.toList).map Token.text = d.words raw :=
  d.map_text_tokens raw.toList

theorem mem_words : w ∈ d.words raw ↔ w ∈ d.pieces raw ∧ w ≠ [] := by
  simp [words]

/-! ## Splitting -/

theorem separator_notMem_of_mem_splitOn {cs : List Char} (h : w ∈ cs.splitOn d.separator) :
    d.separator ∉ w := by
  induction cs generalizing w with
  | nil =>
    rw [List.splitOn_nil, List.mem_singleton] at h
    simp [h]
  | cons c cs ih =>
    rw [List.splitOn_cons_eq_if_modifyHead] at h
    by_cases hc : c = d.separator
    · rw [if_pos (beq_iff_eq.mpr hc)] at h
      rcases List.mem_cons.mp h with rfl | h
      · simp
      · exact ih h
    · rw [if_neg (by simpa using hc)] at h
      -- the character goes in front of the first piece of the rest
      obtain ⟨first, rest, hsplit⟩ :=
        List.exists_cons_of_ne_nil (List.splitOn_ne_nil d.separator cs)
      rw [hsplit] at h ih
      rw [List.modifyHead_cons] at h
      rcases List.mem_cons.mp h with rfl | h
      · have hfirst := ih List.mem_cons_self
        simp [hfirst, Ne.symm hc]
      · exact ih (List.mem_cons_of_mem first h)

theorem isWord_of_mem_words (h : w ∈ d.words raw) : d.IsWord w :=
  ⟨(mem_words.mp h).2, separator_notMem_of_mem_splitOn (mem_words.mp h).1⟩

theorem words_eq_pieces (h : [] ∉ d.pieces raw) : d.words raw = d.pieces raw := by
  refine List.filter_eq_self.mpr fun piece hp => ?_
  have hne : piece ≠ [] := fun hnil => h (hnil ▸ hp)
  simpa using hne

/-! ## Joining -/

@[simp] theorem join_pieces (d : Dialect) (raw : String) : d.join (d.pieces raw) = raw := by
  simp [join, pieces, List.intercalate_splitOn]

theorem pieces_join (h : ∀ w ∈ l, d.IsWord w) (hne : l ≠ []) : d.pieces (d.join l) = l := by
  simpa [pieces, join] using List.splitOn_intercalate d.separator (fun w hw => (h w hw).2) hne

theorem words_join (h : ∀ w ∈ l, d.IsWord w) : d.words (d.join l) = l := by
  by_cases hne : l = []
  · subst hne
    simp [words, pieces, join, List.intercalate_nil, List.splitOn_nil]
  · have hnil : [] ∉ d.pieces (d.join l) := by
      rw [pieces_join h hne]
      exact fun hmem => (h [] hmem).1 rfl
    rw [words_eq_pieces hnil, pieces_join h hne]

/-- Words of which none is missing make up a text if they are all its words and it has no empty piece. -/
theorem join_eq_iff (h : ∀ w ∈ l, d.IsWord w) (hne : l ≠ []) :
    d.join l = raw ↔ [] ∉ d.pieces raw ∧ d.words raw = l := by
  constructor
  · rintro rfl
    rw [words_join h, pieces_join h hne]
    exact ⟨fun hmem => (h [] hmem).1 rfl, rfl⟩
  · rintro ⟨hnil, rfl⟩
    rw [words_eq_pieces hnil, join_pieces]

end DeepPath.Dialect
