import DeepPath.Proofs.Path.Grammar
import DeepPath.Proofs.Path.Places

/-!
# Bad tokens

What is wrong with a text that is no path, said without the reader.  Either it has no token, or there is a
token that opens like an element word behind the marker, without a position that fits; the text in front of
these two tokens is no reason to fail.

1. A token is bad for one reason exactly, which the message gives (`explains_iff`,
   `position?_eq_error_iff`).
2. The reader stops at a bad token behind the marker, where everything in front of the two has been read and
   the marker is not the second token of an element (`exists_of_scan_eq_error`), and it goes on to any such
   place (`scan_append`), with the members that it has read on the way (`BadToken.scan_tokens`).
3. Tokens are places in the text (`exists_of_tokensFrom_eq`, `tokensFrom_append_word`).

Main statement: a text is malformed exactly for one of the two reasons, and the offset is that of the bad
token (`parse_eq_error_iff`).
-/

namespace DeepPath.Dialect

variable {d : Dialect} {raw : String} {digits token inside : List Char} {cause cause' : Malformed.Cause}
  {steps : List Step}

/-! ## Bad positions -/

/-- Digits with a value that does not fit a 64-bit word, in front of a bracket. -/
def Oversized (inside : List Char) : Prop :=
  ∃ digits, inside = digits ++ [']'] ∧ digits ≠ [] ∧ (∀ c ∈ digits, c.isDigit) ∧
    UInt64.size ≤ Nat.ofDigitChars 10 digits 0

/-- What is said to be wrong with an element word in which `inside` follows the opening bracket. -/
structure Explains (cause : Malformed.Cause) (inside : List Char) : Prop where
  unclosed_iff : cause.message = "unterminated element index" ↔ ¬ [']'] <:+ inside
  tooLarge_iff : cause.message = "element index is too large" ↔ Oversized inside
  notDecimal_iff : cause.message = "element index must be a non-negative base-10 integer" ↔
    [']'] <:+ inside ∧ ¬ Oversized inside

/-- Different causes have different messages. -/
theorem message_inj : cause.message = cause'.message ↔ cause = cause' := by
  cases cause <;> cases cause' <;> simp [Malformed.Cause.message]

theorem Oversized.isSuffix (h : Oversized inside) : [']'] <:+ inside := by
  obtain ⟨digits, rfl, -⟩ := h
  exact List.suffix_append _ _

/-- One of three things is said. -/
theorem explains_iff : Explains cause inside ↔
    cause = .unclosed ∧ ¬ [']'] <:+ inside ∨ cause = .tooLarge ∧ Oversized inside ∨
      cause = .notDecimal ∧ [']'] <:+ inside ∧ ¬ Oversized inside := by
  constructor
  · intro h
    by_cases hclosed : [']'] <:+ inside
    · by_cases hsize : Oversized inside
      · exact .inr (.inl ⟨message_inj.mp (h.tooLarge_iff.mpr hsize), hsize⟩)
      · exact .inr (.inr ⟨message_inj.mp (h.notDecimal_iff.mpr ⟨hclosed, hsize⟩), hclosed, hsize⟩)
    · exact .inl ⟨message_inj.mp (h.unclosed_iff.mpr hclosed), hclosed⟩
  · rintro (⟨rfl, hopen⟩ | ⟨rfl, hsize⟩ | ⟨rfl, hclosed, hsize⟩)
    · have hsize : ¬ Oversized inside := fun hsize => hopen hsize.isSuffix
      constructor <;> simp [Malformed.Cause.message, hopen, hsize]
    · constructor <;> simp [Malformed.Cause.message, hsize, hsize.isSuffix]
    · constructor <;> simp [Malformed.Cause.message, hclosed, hsize]

theorem Explains.unique (h : Explains cause inside) (h' : Explains cause' inside) : cause = cause' := by
  obtain ⟨rfl, hc⟩ | ⟨rfl, hc⟩ | ⟨rfl, hc⟩ := explains_iff.mp h
  · exact (message_inj.mp (h'.unclosed_iff.mpr hc)).symm
  · exact (message_inj.mp (h'.tooLarge_iff.mpr hc)).symm
  · exact (message_inj.mp (h'.notDecimal_iff.mpr hc)).symm

/-- Where no position is read, this is why. -/
theorem explains_of_readPosition (h : readPosition digits = .error cause) :
    Explains cause (digits ++ [']']) := by
  have hclosed : [']'] <:+ digits ++ [']'] := List.suffix_append _ _
  have hover : Oversized (digits ++ [']']) ↔
      digits ≠ [] ∧ (∀ c ∈ digits, c.isDigit) ∧ UInt64.size ≤ Nat.ofDigitChars 10 digits 0 := by
    simp [Oversized]
  unfold readPosition at h
  split_ifs at h with hbad hfits <;> cases h
  · simp only [Bool.or_eq_true, List.isEmpty_iff, Bool.not_eq_true', Bool.eq_false_iff,
      ne_eq, List.all_eq_true] at hbad
    refine explains_iff.mpr (.inr (.inr ⟨rfl, hclosed, fun hsize => ?_⟩))
    obtain ⟨hne, hdigits, -⟩ := hover.mp hsize
    rcases hbad with hnil | hdigit
    · exact absurd hnil hne
    · exact absurd hdigits hdigit
  · simp only [Bool.or_eq_true, List.isEmpty_iff, Bool.not_eq_true', not_or,
      Bool.not_eq_false, List.all_eq_true] at hbad
    exact explains_iff.mpr (.inr (.inl ⟨rfl, hover.mpr ⟨hbad.1, hbad.2, Nat.le_of_not_lt hfits⟩⟩))

/-- An element word is bad if it has no numeral; what is wrong with it follows the opening bracket. -/
theorem position?_eq_error_iff :
    d.position? token = some (.error cause) ↔
      (∀ digits index, IsNumeral digits index → token ≠ d.bracketed digits) ∧
        ∃ inside, token = d.opening ++ inside ∧ Explains cause inside := by
  have hexplains {cause} (h : d.position? token = some (.error cause)) :
      ∃ inside, token = d.opening ++ inside ∧ Explains cause inside := by
    obtain ⟨inside, hopen, hread⟩ := Option.map_eq_some_iff.mp h
    refine ⟨inside, (List.isPrefixOf?_eq_some_iff_append_eq.mp hopen).symm, ?_⟩
    rcases hclose : [']'].isSuffixOf? inside with _ | digits
    · rw [hclose] at hread
      cases hread
      have hopened : ¬ [']'] <:+ inside := by
        rw [← List.isSuffixOf_iff_suffix, ← List.isSome_isSuffixOf?_eq_isSuffixOf, hclose]
        exact Bool.false_ne_true
      exact explains_iff.mpr (.inl ⟨rfl, hopened⟩)
    · rw [hclose] at hread
      rw [← List.isSuffixOf?_eq_some_iff_append_eq.mp hclose]
      exact explains_of_readPosition hread
  constructor
  · intro h
    refine ⟨fun digits index hnum htoken => ?_, hexplains h⟩
    rw [position?_eq_ok_iff.mpr ⟨digits, hnum, htoken⟩] at h
    cases h
  · rintro ⟨hnot, inside, rfl, hinside⟩
    rcases hread : d.position? (d.opening ++ inside) with _ | cause' | index
    · exact absurd ⟨inside, rfl⟩ (position?_eq_none_iff.mp hread)
    · obtain ⟨inside', heq, hinside'⟩ := hexplains hread
      obtain rfl := List.append_cancel_left heq
      rw [hinside.unique hinside']
    · obtain ⟨digits, hnum, htoken⟩ := position?_eq_ok_iff.mp hread
      exact absurd htoken (hnot digits index hnum)

/-! ## Where the reader stops -/

section

variable {t u : Token} {front tokens : List Token} {offset : Nat} {name : String}

theorem steps_member (t : Token) (scan : Scan) :
    (Scan.member t scan).steps = scan.steps.map (.member (String.ofList t.text) :: ·) := rfl

theorem steps_element (index : UInt64) (scan : Scan) :
    (Scan.element index scan).steps = scan.steps.map (.element index :: ·) := rfl

theorem map_eq_error_iff {ε α β : Type} {f : α → β} {r : Except ε α} {e : ε} :
    r.map f = .error e ↔ r = .error e := by
  cases r <;> simp [Except.map]

theorem pairPosition?_eq_error_iff :
    d.pairPosition? t u = some (.error cause) ↔
      t.text = d.marker.toList ∧ d.position? u.text = some (.error cause) := by
  unfold pairPosition?
  by_cases h : t.text = d.marker.toList <;> simp [h]

/-- No token is read as nothing. -/
theorem scan_eq_ok_nil_iff : (d.scan tokens).steps = .ok [] ↔ tokens = [] := by
  fun_cases d.scan tokens with
  | case1 => simp [Scan.done]
  | case2 t => simp [steps_member_eq_ok_iff]
  | case3 t u rest hpair => simp [steps_member_eq_ok_iff]
  | case4 t u rest index hpair => simp [steps_element_eq_ok_iff]
  | case5 t u rest cause hpair => simp [Scan.stop]

/-- The reader stops at a bad token.  It has read what is in front of it and of the marker, and it reads
the marker as a member if the text ends there. -/
theorem exists_of_scan_eq_error (h : (d.scan tokens).steps = .error (offset, cause)) :
    ∃ front t u rest steps, tokens = front ++ t :: u :: rest ∧
      d.pairPosition? t u = some (.error cause) ∧ u.offset = offset ∧
      (d.scan front).steps = .ok steps ∧
      (d.scan (front ++ [t])).steps = .ok (steps ++ [.member (String.ofList t.text)]) := by
  fun_induction d.scan tokens with
  | case1 => cases h
  | case2 t => cases h
  | case3 t u rest hpair ih =>
    rw [steps_member, map_eq_error_iff] at h
    obtain ⟨front, t', u', rest', steps, heq, hbad, hoffset, hfront, hlast⟩ := ih h
    -- what follows `t` is the same token as before
    have hhead : (front ++ [t']).head? = some u := by
      have := congrArg List.head? heq
      cases front <;> simpa using this.symm
    have hpair' : ∀ v ∈ (front ++ [t']).head?, d.pairPosition? t v = none := by
      rw [hhead]
      rintro v ⟨⟩
      exact hpair
    have hpair'' : ∀ v ∈ front.head?, d.pairPosition? t v = none := fun v hv =>
      hpair' v (List.mem_head?_append_of_mem_head? hv)
    refine ⟨t :: front, t', u', rest', .member (String.ofList t.text) :: steps, ?_, hbad, hoffset,
      ?_, ?_⟩
    · rw [heq, List.cons_append]
    · rw [scan_cons_of_none hpair'', steps_member, hfront]
      rfl
    · rw [List.cons_append, scan_cons_of_none hpair', steps_member, hlast]
      rfl
  | case4 t u rest index hpair ih =>
    rw [steps_element, map_eq_error_iff] at h
    obtain ⟨front, t', u', rest', steps, rfl, hbad, hoffset, hfront, hlast⟩ := ih h
    refine ⟨t :: u :: front, t', u', rest', .element index :: steps, rfl, hbad, hoffset, ?_, ?_⟩
    · rw [scan_cons_of_ok hpair, steps_element, hfront]
      rfl
    · rw [List.cons_append, List.cons_append, scan_cons_of_ok hpair, steps_element, hlast]
      rfl
  | case5 t u rest cause' hpair =>
    cases h
    exact ⟨[], t, u, rest, [], rfl, hpair, rfl, rfl, rfl⟩

theorem exists_of_steps_member (hne : tokens ≠ [])
    (h : (Scan.member t (d.scan tokens)).steps = .ok (steps ++ [.member name])) :
    ∃ rest, steps = .member (String.ofList t.text) :: rest ∧
      (d.scan tokens).steps = .ok (rest ++ [.member name]) := by
  obtain ⟨l, hl, heq⟩ := steps_member_eq_ok_iff.mp h
  obtain ⟨-, hsingle⟩ | ⟨rest, rfl, rfl⟩ := List.append_eq_cons_iff.mp heq
  · obtain rfl : l = [] := (List.cons.inj hsingle).2.symm
    exact absurd (scan_eq_ok_nil_iff.mp hl) hne
  · exact ⟨rest, rfl, hl⟩

/-- A scan that goes on where these steps have been read, some of them from these tokens as members. -/
def behind (steps : List Step) (members : List Token) (scan : Scan) : Scan :=
  ⟨scan.steps.map (steps ++ ·), members ++ scan.members⟩

theorem behind_nil (scan : Scan) : behind [] [] scan = scan := by
  obtain ⟨steps | steps, members⟩ := scan <;> rfl

theorem member_behind (t : Token) (steps : List Step) (members : List Token) (scan : Scan) :
    Scan.member t (behind steps members scan) =
      behind (.member (String.ofList t.text) :: steps) (t :: members) scan := by
  obtain ⟨steps | steps, members⟩ := scan <;> rfl

theorem element_behind (index : UInt64) (steps : List Step) (members : List Token) (scan : Scan) :
    Scan.element index (behind steps members scan) =
      behind (.element index :: steps) members scan := by
  obtain ⟨steps | steps, members⟩ := scan <;> rfl

/-- Where a token has been read as the last member, the reader goes on with it if more tokens follow. -/
theorem scan_append (h : (d.scan (front ++ [t])).steps = .ok (steps ++ [.member name]))
    (more : List Token) :
    d.scan (front ++ t :: more) = behind steps (d.scan front).members (d.scan (t :: more)) := by
  have hend {steps : List Step} (h : (d.scan [t]).steps = .ok (steps ++ [.member name])) :
      d.scan (t :: more) = behind steps [] (d.scan (t :: more)) := by
    obtain rfl : steps = [] := List.length_eq_zero_iff.mp (by
      simpa using congrArg List.length (Except.ok.inj h).symm)
    exact (behind_nil _).symm
  induction front using Dialect.scan.induct d generalizing steps with
  | case1 => exact hend h
  | case2 u =>
    rw [List.singleton_append] at h ⊢
    rcases hpair : d.pairPosition? u t with _ | cause | index
    · rw [scan_cons_of_none (by simpa using hpair)] at h ⊢
      obtain ⟨rest, rfl, hrest⟩ := exists_of_steps_member (List.cons_ne_nil _ _) h
      exact (congrArg (Scan.member u) (hend hrest)).trans (member_behind ..)
    · rw [Dialect.scan, hpair] at h
      cases h
    · -- an element would be the last step
      rw [scan_cons_of_ok hpair] at h
      obtain ⟨-, ⟨⟩, heq⟩ := steps_element_eq_ok_iff.mp h
      have hlast := congrArg List.getLast? heq
      simp at hlast
  | case3 u v rest hpair ih =>
    have hfirst : d.scan (u :: v :: rest) = .member u (d.scan (v :: rest)) :=
      scan_cons_of_none (by simpa using hpair)
    rw [List.cons_append, scan_cons_of_none (by simpa using hpair)] at h ⊢
    obtain ⟨rest', rfl, hrest⟩ := exists_of_steps_member (List.cons_ne_nil _ _) h
    rw [ih hrest, member_behind, hfirst]
    rfl
  | case4 u v rest index hpair ih =>
    rw [List.cons_append, List.cons_append, scan_cons_of_ok hpair] at h ⊢
    obtain ⟨l, hl, heq⟩ := steps_element_eq_ok_iff.mp h
    obtain ⟨-, heq⟩ | ⟨steps, rfl, rfl⟩ := List.append_eq_cons_iff.mp heq
    · cases heq
    · rw [ih hl, element_behind, scan_cons_of_ok hpair]
      rfl
  | case5 u v rest cause hpair =>
    rw [List.cons_append, List.cons_append, Dialect.scan, hpair] at h
    cases h

end

/-! ## Malformed texts -/

theorem parse_eq_ok_iff_scan {p : Path} :
    d.parse raw = .ok p ↔ (d.scan (d.tokens raw.toList)).steps = .ok p.steps := by
  rw [parse]
  rcases (d.scan (d.tokens raw.toList)).steps with ⟨offset, cause⟩ | steps
  · simp
  · rw [Except.ok.injEq, ← Path.ofSteps?_eq_some_iff]
    cases h : Path.ofSteps? steps <;> simp [h]

theorem parse_eq_error_iff_scan {m : Malformed} :
    d.parse raw = .error m ↔ m.raw = raw ∧
      ((d.scan (d.tokens raw.toList)).steps = .error (m.offset, m.cause) ∨
        d.tokens raw.toList = [] ∧ m.offset = 0 ∧ m.cause = .noSteps) := by
  rw [parse, ← scan_eq_ok_nil_iff]
  obtain ⟨raw', offset', cause'⟩ := m
  rcases (d.scan (d.tokens raw.toList)).steps with ⟨offset, cause⟩ | _ | ⟨step, steps⟩
  · simp [eq_comm]
  · simp [Path.ofSteps?, eq_comm]
  · simp [Path.ofSteps?]

/-- A bad token, behind the marker.  What is in front of both is no reason to fail, and the marker is not the
second token of an element: the text up to it is read with a member at the end. -/
structure BadToken (d : Dialect) (raw : String) (offset : Nat) (cause : Malformed.Cause)
    (front gap token rest : String) : Prop where
  raw_eq : raw = front ++ d.marker ++ gap ++ token ++ rest
  offset_eq : offset = (front ++ d.marker ++ gap).utf8ByteSize
  /-- The token is as long as it can be. -/
  isWord : d.IsWord token.toList
  rest_apart : d.StartsApart rest.toList
  /-- The marker is the token in front of it. -/
  marker_isWord : d.IsWord d.marker.toList
  front_apart : d.EndsApart front.toList
  gap_ne : gap ≠ ""
  gap_eq : ∀ c ∈ gap.toList, c = d.separator
  front_read : d.words front = [] ∨ ∃ p, d.parse front = .ok p
  marker_read : ∃ p, d.parse (front ++ d.marker) = .ok p ∧ p.last = .member d.marker
  /-- The token opens like an element word, but there is no position in it. -/
  not_element : ∀ digits index, IsNumeral digits index → token.toList ≠ d.bracketed digits
  explained : ∃ inside, token.toList = d.opening ++ inside ∧ Explains cause inside

theorem last_eq_iff {p : Path} {s : Step} : p.last = s ↔ ∃ steps, p.steps = steps ++ [s] := by
  rw [← Option.some.injEq, ← Path.getLast?_steps, List.getLast?_eq_some_iff]

theorem exists_path_append (steps : List Step) (s : Step) : ∃ p : Path, p.steps = steps ++ [s] := by
  cases steps with
  | nil => exact ⟨⟨s, []⟩, rfl⟩
  | cons first rest => exact ⟨⟨first, rest ++ [s]⟩, rfl⟩

/-- A text in which the reader does not stop is a path, or it has no words. -/
theorem words_eq_nil_or_parse (h : (d.scan (d.tokens raw.toList)).steps = .ok steps) :
    d.words raw = [] ∨ ∃ p, d.parse raw = .ok p := by
  rcases steps with _ | ⟨first, rest⟩
  · rw [← map_text_tokens_toList, scan_eq_ok_nil_iff.mp h]
    exact .inl rfl
  · exact .inr ⟨⟨first, rest⟩, parse_eq_ok_iff_scan.mpr h⟩

/-- Where the reader stops, there is a bad token. -/
theorem exists_badToken {offset : Nat}
    (h : (d.scan (d.tokens raw.toList)).steps = .error (offset, cause)) :
    ∃ front gap token rest, d.BadToken raw offset cause front gap token rest := by
  obtain ⟨read, ⟨place, _⟩, ⟨_, token⟩, more, steps, htokens, hbad, rfl, hread, hlast⟩ :=
    exists_of_scan_eq_error h
  obtain ⟨rfl, hcause⟩ := pairPosition?_eq_error_iff.mp hbad
  obtain ⟨hnot, hexplained⟩ := position?_eq_error_iff.mp hcause
  -- the text in front of the bad token, and in it the text in front of the marker
  rw [List.append_cons] at htokens
  obtain ⟨before, after, hraw, htoken, hbefore, hafter, rfl, hseen⟩ :=
    exists_of_tokensFrom_eq htokens
  obtain ⟨front, gap, rfl, hmarker, hfront, hgap, rfl, hread'⟩ := exists_of_tokensFrom_eq hseen
  rw [← hread', tokensFrom_append_word_eq_iff hfront hmarker hgap] at hseen
  refine ⟨.ofList front, .ofList gap, .ofList token, .ofList after, ?_⟩
  constructor
  case raw_eq => simp [← String.toList_inj, hraw]
  case offset_eq => simp [← byteLength_toList]
  case isWord => rwa [String.toList_ofList]
  case rest_apart => rwa [String.toList_ofList]
  case marker_isWord => exact hmarker
  case front_apart => rwa [String.toList_ofList]
  case gap_ne =>
    intro hempty
    obtain rfl : gap = [] := by simpa using congrArg String.toList hempty
    rw [List.append_nil] at hbefore
    exact not_endsApart_append hmarker hbefore
  case gap_eq => rwa [String.toList_ofList]
  case front_read =>
    have hok : (d.scan (d.tokens (String.ofList front).toList)).steps = .ok steps := by
      rwa [String.toList_ofList, tokens_eq_tokensFrom, hread']
    exact words_eq_nil_or_parse hok
  case marker_read =>
    obtain ⟨p, hp⟩ := exists_path_append steps (.member d.marker)
    refine ⟨p, parse_eq_ok_iff_scan.mpr ?_, last_eq_iff.mpr ⟨steps, hp⟩⟩
    rw [String.toList_append, String.toList_ofList, tokens_eq_tokensFrom,
      tokensFrom_append_last hfront hmarker, hread', hlast, hp, String.ofList_toList]
  case not_element => rwa [String.toList_ofList]
  case explained => rwa [String.toList_ofList]

/-- At a bad token the reader stops, with the members read that are in front of the marker. -/
theorem BadToken.scan_tokens {offset : Nat} {front gap token rest : String}
    (h : d.BadToken raw offset cause front gap token rest) :
    d.scan (d.tokens raw.toList) = ⟨.error (offset, cause), d.memberTokens front⟩ := by
  obtain ⟨p, hp, hlast⟩ := h.marker_read
  obtain ⟨steps, hsteps⟩ := last_eq_iff.mp hlast
  have hbefore : d.EndsApart (front.toList ++ d.marker.toList ++ gap.toList) :=
    endsApart_append_of_forall _ (by simpa using h.gap_ne) h.gap_eq
  have hseen : d.tokensFrom 0 (front.toList ++ d.marker.toList ++ gap.toList) = _ :=
    (tokensFrom_append_word_eq_iff h.front_apart h.marker_isWord
      (startsApart_of_forall h.gap_eq)).mpr h.gap_eq
  -- up to the marker the text is read as a path
  rw [parse_eq_ok_iff_scan, tokens_eq_tokensFrom, String.toList_append,
    tokensFrom_append_last h.front_apart h.marker_isWord, hsteps] at hp
  have hpair : d.pairPosition? ⟨0 + byteLength front.toList, d.marker.toList⟩
      ⟨offset, token.toList⟩ = some (.error cause) :=
    pairPosition?_eq_error_iff.mpr ⟨rfl, position?_eq_error_iff.mpr ⟨h.not_element, h.explained⟩⟩
  have hoffset : 0 + byteLength (front.toList ++ d.marker.toList ++ gap.toList) = offset := by
    rw [Nat.zero_add, ← String.toList_append, ← String.toList_append, byteLength_toList, h.offset_eq]
  rw [h.raw_eq, String.toList_append, String.toList_append, String.toList_append,
    String.toList_append, tokens_eq_tokensFrom, tokensFrom_append_word hbefore h.isWord h.rest_apart,
    hseen, hoffset, List.append_assoc, List.singleton_append, scan_append hp, Dialect.scan, hpair]
  exact congrArg (Scan.mk _) (List.append_nil _)

theorem BadToken.scan_eq {offset : Nat} {front gap token rest : String}
    (h : d.BadToken raw offset cause front gap token rest) :
    (d.scan (d.tokens raw.toList)).steps = .error (offset, cause) := by
  rw [h.scan_tokens]

/-- A text is malformed exactly if it holds nothing but separators, or there is a bad token in it at the
offset that is reported.  The message says what is wrong. -/
theorem parse_eq_error_iff (d : Dialect) (raw : String) (m : Malformed) :
    d.parse raw = .error m ↔ m.raw = raw ∧
      ((∀ c ∈ raw.toList, c = d.separator) ∧ m.offset = 0 ∧
          m.cause.message = "path has no segments" ∨
        ∃ front gap token rest, d.BadToken raw m.offset m.cause front gap token rest) := by
  rw [parse_eq_error_iff_scan, tokens_eq_tokensFrom, tokensFrom_eq_nil_iff, or_comm]
  have hscan : (d.scan (d.tokensFrom 0 raw.toList)).steps = .error (m.offset, m.cause) ↔
      ∃ front gap token rest, d.BadToken raw m.offset m.cause front gap token rest :=
    ⟨exists_badToken, fun ⟨_, _, _, _, h⟩ => h.scan_eq⟩
  have hempty : m.cause.message = Malformed.Cause.noSteps.message ↔ m.cause = .noSteps := message_inj
  rw [hscan, ← hempty]
  rfl

/-- Offsets count bytes, also those of separators with nothing between them. -/
example :
    { standard with separator := '→' : Dialect }.parse "items→→Array→→data[x]" =
      .error ⟨"items→→Array→→data[x]", 22, .notDecimal⟩ := by
  decide

end DeepPath.Dialect
