import DeepPath.Proofs.Path.Words
import Mathlib.Data.List.Basic

/-!
# Where tokens stand

A text begins with a separator or with a word that is as long as it can be, or it is empty
(`separated_induction`); the tokens are found in this way, from left to right (`tokensFrom_separator`,
`tokensFrom_word`).  So the tokens in front of a token are those of the text in front of it, whose length in
bytes is the offset of the token (`exists_of_tokensFrom_eq`), and wherever a word stands between separators
there is a token (`tokensFrom_append_word`).
-/

namespace DeepPath

/-- The bytes of the characters of a string are the bytes of the string. -/
theorem byteLength_toList (s : String) : byteLength s.toList = s.utf8ByteSize := by
  have h (cs : List Char) : (String.ofList cs).utf8ByteSize = byteLength cs := by
    induction cs with
    | nil => rfl
    | cons c cs ih =>
      rw [String.ofList_cons, String.utf8ByteSize_append, String.utf8ByteSize_singleton, ih,
        byteLength_cons]
  rw [← h, String.ofList_toList]

namespace Dialect

variable {d : Dialect} {cs w before after : List Char} {start : Nat}

/-- The tokens of a text whose first byte is at `start`. -/
def tokensFrom (d : Dialect) (start : Nat) (cs : List Char) : List Token :=
  (Token.locate d.separator.utf8Size start (cs.splitOn d.separator)).filter fun t => !t.text.isEmpty

/-- Characters that a word may stand in front of: if there are any, they start with a separator. -/
def StartsApart (d : Dialect) (cs : List Char) : Prop :=
  ∀ c ∈ cs.head?, c = d.separator

/-- Characters that a word may stand behind: if there are any, they end with a separator. -/
def EndsApart (d : Dialect) (cs : List Char) : Prop :=
  ∀ c ∈ cs.getLast?, c = d.separator

theorem tokens_eq_tokensFrom (d : Dialect) (cs : List Char) : d.tokens cs = d.tokensFrom 0 cs := rfl

@[simp] theorem startsApart_nil (d : Dialect) : d.StartsApart [] := by
  simp [StartsApart]

@[simp] theorem startsApart_cons {c : Char} : d.StartsApart (c :: cs) ↔ c = d.separator := by
  simp [StartsApart]

@[simp] theorem endsApart_nil (d : Dialect) : d.EndsApart [] := by
  simp [EndsApart]

@[simp] theorem endsApart_append_singleton {c : Char} :
    d.EndsApart (cs ++ [c]) ↔ c = d.separator := by
  simp [EndsApart]

/-! ## Reading from left to right -/

@[simp] theorem tokensFrom_nil (d : Dialect) (start : Nat) : d.tokensFrom start [] = [] := by
  simp [tokensFrom, List.splitOn_nil, Token.locate]

theorem tokensFrom_separator (d : Dialect) (start : Nat) (cs : List Char) :
    d.tokensFrom start (d.separator :: cs) = d.tokensFrom (start + d.separator.utf8Size) cs := by
  simp [tokensFrom, List.splitOn_cons_eq_if_modifyHead, Token.locate]

/-- A word that is as long as it can be is a token. -/
theorem tokensFrom_word (hw : d.IsWord w) (hafter : d.StartsApart after) :
    d.tokensFrom start (w ++ after) = ⟨start, w⟩ :: d.tokensFrom (start + byteLength w) after := by
  cases after with
  | nil =>
    rw [List.append_nil, tokensFrom_nil, tokensFrom, List.splitOn_eq_singleton hw.2]
    simp [Token.locate, hw.1]
  | cons c after =>
    obtain rfl : c = d.separator := startsApart_cons.mp hafter
    rw [tokensFrom_separator, tokensFrom, List.splitOn_append_cons_self_of_not_mem hw.2]
    simp [Token.locate, hw.1, tokensFrom]

/-- A text that does not begin with a separator begins with a word that is as long as it can be. -/
theorem exists_word_append {c : Char} (hc : c ≠ d.separator) (cs : List Char) :
    ∃ w after, c :: cs = w ++ after ∧ d.IsWord w ∧ d.StartsApart after := by
  induction cs generalizing c with
  | nil => exact ⟨[c], [], rfl, ⟨by simp, by simpa using hc.symm⟩, d.startsApart_nil⟩
  | cons c' cs ih =>
    by_cases hc' : c' = d.separator
    · exact ⟨[c], c' :: cs, rfl, ⟨by simp, by simpa using hc.symm⟩, startsApart_cons.mpr hc'⟩
    · obtain ⟨w, after, heq, hw, hafter⟩ := ih hc'
      refine ⟨c :: w, after, by rw [heq, List.cons_append], ⟨by simp, ?_⟩, hafter⟩
      simpa [hc.symm] using hw.2

/-- What holds of the empty text, and is kept by a separator in front and by a word in front that is as long
as it can be, holds of all texts. -/
@[elab_as_elim]
theorem separated_induction {motive : List Char → Prop} (d : Dialect) (nil : motive [])
    (separator : ∀ cs, motive cs → motive (d.separator :: cs))
    (word : ∀ w cs, d.IsWord w → d.StartsApart cs → motive cs → motive (w ++ cs)) (cs : List Char) :
    motive cs := by
  induction h : cs.length using Nat.strongRecOn generalizing cs with
  | ind n ih =>
    subst h
    rcases cs with _ | ⟨c, cs⟩
    · exact nil
    by_cases hc : c = d.separator
    · subst hc
      exact separator cs (ih cs.length (Nat.lt_succ_self _) cs rfl)
    · obtain ⟨w, after, heq, hw, hafter⟩ := exists_word_append hc cs
      rw [heq] at ih ⊢
      have hlt : after.length < (w ++ after).length := by
        have hpos := List.length_pos_iff.mpr hw.1
        rw [List.length_append]
        omega
      exact word w after hw hafter (ih after.length hlt after rfl)

/-- Only in a text of separators there is no token. -/
theorem tokensFrom_eq_nil_iff : d.tokensFrom start cs = [] ↔ ∀ c ∈ cs, c = d.separator := by
  induction cs using separated_induction d generalizing start with
  | nil => simp
  | separator cs ih => simp [tokensFrom_separator, ih]
  | word w cs hw hcs ih =>
    rw [tokensFrom_word hw hcs]
    refine ⟨nofun, fun h => ?_⟩
    obtain ⟨c, hc⟩ := List.exists_mem_of_ne_nil w hw.1
    obtain rfl := h c (List.mem_append_left _ hc)
    exact absurd hc hw.2

/-! ## Tokens and the text around them -/

/-- The tokens on both sides of a separator. -/
theorem tokensFrom_append_separator (start : Nat) (before after : List Char) :
    d.tokensFrom start (before ++ d.separator :: after) =
      d.tokensFrom start before ++
        d.tokensFrom (start + byteLength before + d.separator.utf8Size) after := by
  induction before using separated_induction d generalizing start with
  | nil => rw [List.nil_append, tokensFrom_separator, tokensFrom_nil, List.nil_append,
      byteLength_nil, Nat.add_zero]
  | separator cs ih =>
    rw [List.cons_append, tokensFrom_separator, tokensFrom_separator, ih, byteLength_cons,
      Nat.add_assoc start]
  | word w cs hw hcs ih =>
    have hrest : d.StartsApart (cs ++ d.separator :: after) := by
      cases cs with
      | nil => exact startsApart_cons.mpr rfl
      | cons c cs => exact startsApart_cons.mpr (startsApart_cons.mp hcs)
    rw [List.append_assoc, tokensFrom_word hw hrest, tokensFrom_word hw hcs, ih, byteLength_append,
      List.cons_append, Nat.add_assoc start]

/-- Wherever a word stands between separators there is a token. -/
theorem tokensFrom_append_word (hbefore : d.EndsApart before) (hw : d.IsWord w)
    (hafter : d.StartsApart after) :
    d.tokensFrom start (before ++ w ++ after) =
      d.tokensFrom start before ++ ⟨start + byteLength before, w⟩ ::
        d.tokensFrom (start + byteLength before + byteLength w) after := by
  rcases List.eq_nil_or_concat' before with rfl | ⟨cs, c, rfl⟩
  · rw [List.nil_append, tokensFrom_word hw hafter, tokensFrom_nil, byteLength_nil]
    rfl
  · obtain rfl : c = d.separator := endsApart_append_singleton.mp hbefore
    rw [List.append_assoc, List.append_assoc, List.singleton_append, tokensFrom_append_separator,
      tokensFrom_append_separator, tokensFrom_word hw hafter, tokensFrom_nil, List.append_nil,
      byteLength_append, byteLength_cons, byteLength_nil, Nat.add_zero, Nat.add_assoc start]

theorem startsApart_of_forall (h : ∀ c ∈ cs, c = d.separator) : d.StartsApart cs :=
  fun c hc => h c (List.mem_of_mem_head? hc)

theorem endsApart_append_of_forall (before : List Char) (hne : cs ≠ [])
    (h : ∀ c ∈ cs, c = d.separator) : d.EndsApart (before ++ cs) := by
  rw [EndsApart, List.getLast?_append_of_ne_nil before hne]
  exact fun c hc => h c (List.mem_of_getLast? hc)

/-- The last token of a text that ends with a word. -/
theorem tokensFrom_append_last (hbefore : d.EndsApart before) (hw : d.IsWord w) :
    d.tokensFrom start (before ++ w) =
      d.tokensFrom start before ++ [⟨start + byteLength before, w⟩] := by
  simpa using tokensFrom_append_word hbefore hw d.startsApart_nil

/-- Behind a token there is no other one exactly if only separators follow. -/
theorem tokensFrom_append_word_eq_iff (hbefore : d.EndsApart before) (hw : d.IsWord w)
    (hafter : d.StartsApart after) :
    d.tokensFrom start (before ++ w ++ after) =
        d.tokensFrom start before ++ [⟨start + byteLength before, w⟩] ↔
      ∀ c ∈ after, c = d.separator := by
  rw [tokensFrom_append_word hbefore hw hafter, List.append_cancel_left_eq, List.cons.injEq,
    tokensFrom_eq_nil_iff]
  simp

/-- What a word may stand in front of does not begin with another word. -/
theorem startsApart_of_append (hw : d.IsWord w) (h : d.StartsApart (before ++ w ++ after)) :
    before ≠ [] ∧ d.StartsApart before := by
  cases before with
  | nil =>
    obtain ⟨c, w, rfl⟩ := List.exists_cons_of_ne_nil hw.1
    obtain rfl : c = d.separator := startsApart_cons.mp h
    exact absurd List.mem_cons_self hw.2
  | cons c before => exact ⟨List.cons_ne_nil c before, startsApart_cons.mpr (startsApart_cons.mp h)⟩

theorem not_endsApart_append (hw : d.IsWord w) : ¬ d.EndsApart (before ++ w) := by
  intro h
  rcases List.eq_nil_or_concat' w with rfl | ⟨cs, c, rfl⟩
  · exact hw.1 rfl
  · rw [← List.append_assoc, endsApart_append_singleton] at h
    exact hw.2 (h ▸ List.mem_append_right _ (List.mem_singleton_self c))

/-- A token is a word between separators at its offset, and the tokens in front of it are those of the text in
front of it. -/
theorem exists_of_tokensFrom_eq {front rest : List Token} {t : Token}
    (h : d.tokensFrom start cs = front ++ t :: rest) :
    ∃ before after, cs = before ++ t.text ++ after ∧ d.IsWord t.text ∧ d.EndsApart before ∧
      d.StartsApart after ∧ t.offset = start + byteLength before ∧
      d.tokensFrom start before = front := by
  induction cs using separated_induction d generalizing start front with
  | nil => simp at h
  | separator cs ih =>
    rw [tokensFrom_separator] at h
    obtain ⟨before, after, rfl, hw, hbefore, hafter, hoffset, hfront⟩ := ih h
    refine ⟨d.separator :: before, after, rfl, hw, ?_, hafter, ?_, ?_⟩
    · cases before with
      | nil => simp [EndsApart]
      | cons c before => simpa [EndsApart] using hbefore
    · rw [hoffset, byteLength_cons, Nat.add_assoc]
    · rw [tokensFrom_separator, hfront]
  | word w cs hw hcs ih =>
    rw [tokensFrom_word hw hcs] at h
    cases front with
    | nil =>
      obtain rfl : t = ⟨start, w⟩ := (List.cons.inj h).1.symm
      exact ⟨[], cs, rfl, hw, d.endsApart_nil, hcs, rfl, tokensFrom_nil d start⟩
    | cons t' front =>
      obtain ⟨rfl, hrest⟩ := List.cons.inj h
      obtain ⟨before, after, rfl, ht, hbefore, hafter, hoffset, hfront⟩ := ih hrest
      obtain ⟨hne, hstart⟩ := startsApart_of_append ht hcs
      refine ⟨w ++ before, after, by simp only [List.append_assoc], ht, ?_, hafter, ?_, ?_⟩
      · rwa [EndsApart, List.getLast?_append_of_ne_nil w hne]
      · rw [hoffset, byteLength_append, Nat.add_assoc]
      · rw [tokensFrom_word hw hstart, hfront]

end Dialect

end DeepPath
