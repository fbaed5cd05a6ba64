import DeepPath.Model.Given
import DeepPath.Proofs.Path.BadTokens

/-!
# Tokens in the log

Reading a text reports the tokens that are read as members.  What the log says of them is true of the bytes
of the text.

1. A piece of a text is spelled by the bytes from where it starts (`spelledAt_of_eq`).  A token is such a
   piece, between separators or ends (`stands_of_mem`), and tokens further right start further right
   (`pairwise_tokensFrom`).
2. The members of a scan are tokens that it was given, in their order (`members_sublist`), and if it comes to
   an end they are called like its member steps (`names_of_scan`).
3. If it stops at a bad token, they are the members of the text in front of the marker
   (`BadToken.scan_tokens`).

Main statement: `read_reports`.
-/

namespace DeepPath

/-- The name of the member that a step leads to. -/
def Step.name? : Step → Option String
  | .member name => some name
  | .element _ => none

/-- A token as a text. -/
def Token.name (t : Token) : String :=
  String.ofList t.text

/-- The bytes of a text from `offset` on spell `piece`. -/
def SpelledAt (raw : String) (offset : Nat) (piece : String) : Prop :=
  raw.toUTF8.extract offset (offset + piece.utf8ByteSize) = piece.toUTF8

theorem spelledAt_of_eq {raw before piece : String} {place : Nat} (after : String)
    (hraw : raw.toList = before.toList ++ piece.toList ++ after.toList)
    (hplace : place = before.utf8ByteSize) : SpelledAt raw place piece := by
  obtain rfl : raw = before ++ piece ++ after := by
    simpa [← String.toList_inj] using hraw
  have hskip := @ByteArray.extract_append_size_add before.toByteArray
    (piece.toByteArray ++ after.toByteArray) 0 piece.toByteArray.size
  rw [Nat.add_zero] at hskip
  rw [SpelledAt, hplace, String.toUTF8_eq_toByteArray, String.toUTF8_eq_toByteArray,
    String.toByteArray_append, String.toByteArray_append, ByteArray.append_assoc,
    ← String.size_toByteArray, ← String.size_toByteArray, hskip]
  exact ByteArray.extract_append_eq_left rfl

namespace Dialect

variable {d : Dialect} {raw : String} {cs : List Char} {start : Nat} {t : Token} {tokens : List Token}
  {steps : List Step} {p : Path}

/-! ## Places -/

/-- A token that is found in the bytes of a text at its offset, between separators or ends of the text. -/
structure Stands (d : Dialect) (raw : String) (t : Token) : Prop where
  spelled : SpelledAt raw t.offset t.name
  front : t.offset = 0 ∨ ∃ place, t.offset = place + d.separator.utf8Size ∧
    SpelledAt raw place d.separator.toString
  back : t.offset + t.name.utf8ByteSize = raw.utf8ByteSize ∨
    SpelledAt raw (t.offset + t.name.utf8ByteSize) d.separator.toString

theorem stands_of_mem (h : t ∈ d.tokens raw.toList) : d.Stands raw t := by
  obtain ⟨front, rest, htokens⟩ := List.append_of_mem h
  obtain ⟨before, after, hraw, -, hbefore, hafter, hoffset, -⟩ := exists_of_tokensFrom_eq htokens
  rw [Nat.zero_add, ← String.toList_ofList (l := before), byteLength_toList] at hoffset
  have hstop : t.offset + t.name.utf8ByteSize = (String.ofList before ++ t.name).utf8ByteSize := by
    rw [hoffset, String.utf8ByteSize_append]
  constructor
  case spelled => exact spelledAt_of_eq (.ofList after) (by simp [hraw, Token.name]) hoffset
  case front =>
    rcases List.eq_nil_or_concat' before with rfl | ⟨cs, c, rfl⟩
    · exact .inl hoffset
    · obtain rfl : c = d.separator := endsApart_append_singleton.mp hbefore
      refine .inr ⟨(String.ofList cs).utf8ByteSize, by simp [hoffset], ?_⟩
      exact spelledAt_of_eq (t.name ++ .ofList after) (by simp [hraw, Token.name]) rfl
  case back =>
    rcases after with _ | ⟨c, after⟩
    · refine .inl (hstop.trans (congrArg String.utf8ByteSize ?_))
      simp [← String.toList_inj, hraw, Token.name]
    · obtain rfl : c = d.separator := startsApart_cons.mp hafter
      exact .inr (spelledAt_of_eq (.ofList after) (by simp [hraw, Token.name]) hstop)

theorem pairwise_tokensFrom (d : Dialect) (start : Nat) (cs : List Char) :
    (d.tokensFrom start cs).Pairwise (fun t u => t.offset < u.offset) ∧
      ∀ t ∈ d.tokensFrom start cs, start ≤ t.offset := by
  induction cs using separated_induction d generalizing start with
  | nil => simp
  | separator cs ih =>
    rw [tokensFrom_separator]
    obtain ⟨hpairwise, hle⟩ := ih (start + d.separator.utf8Size)
    exact ⟨hpairwise, fun t ht => (Nat.le_add_right ..).trans (hle t ht)⟩
  | word w cs hw hcs ih =>
    rw [tokensFrom_word hw hcs]
    obtain ⟨hpairwise, hle⟩ := ih (start + byteLength w)
    have hlt : start < start + byteLength w := by
      obtain ⟨c, w, rfl⟩ := List.exists_cons_of_ne_nil hw.1
      have := c.utf8Size_pos
      rw [byteLength_cons]
      omega
    refine ⟨List.pairwise_cons.mpr ⟨fun t ht => hlt.trans_le (hle t ht), hpairwise⟩, ?_⟩
    exact List.forall_mem_cons.mpr ⟨Nat.le_refl _, fun t ht => hlt.le.trans (hle t ht)⟩

/-! ## Members -/

theorem members_sublist (d : Dialect) (tokens : List Token) :
    (d.scan tokens).members.Sublist tokens := by
  fun_induction d.scan tokens with
  | case1 => exact .slnil
  | case2 t => exact List.Sublist.refl [t]
  | case3 t u rest hpair ih => exact ih.cons_cons t
  | case4 t u rest index hpair ih => exact (ih.cons u).cons t
  | case5 t u rest cause hpair => exact List.nil_sublist _

theorem names_of_scan (h : (d.scan tokens).steps = .ok steps) :
    (d.scan tokens).members.map Token.name = steps.filterMap Step.name? := by
  fun_induction d.scan tokens generalizing steps with
  | case1 =>
    cases h
    rfl
  | case2 t =>
    cases h
    rfl
  | case3 t u rest hpair ih =>
    obtain ⟨rest, hrest, rfl⟩ := steps_member_eq_ok_iff.mp h
    exact congrArg (t.name :: ·) (ih hrest)
  | case4 t u rest index hpair ih =>
    obtain ⟨rest, hrest, rfl⟩ := steps_element_eq_ok_iff.mp h
    have hnames := ih hrest
    exact hnames
  | case5 t u rest cause hpair => cases h

theorem stands_of_mem_memberTokens (h : t ∈ d.memberTokens raw) : d.Stands raw t :=
  stands_of_mem ((d.members_sublist _).subset h)

theorem names_of_parse (h : d.parse raw = .ok p) :
    (d.memberTokens raw).map Token.name = p.steps.filterMap Step.name? :=
  names_of_scan (parse_eq_ok_iff_scan.mp h)

theorem memberTokens_of_words (h : d.words raw = []) : d.memberTokens raw = [] := by
  rw [← map_text_tokens_toList, List.map_eq_nil_iff] at h
  rw [memberTokens, h]
  rfl

/-! ## Reports -/

/-- What is true of the tokens that are reported while a text is read. -/
structure Reports (d : Dialect) (raw : String) (reported : List Token) : Prop where
  increasing : reported.Pairwise fun t u => t.offset < u.offset
  stands : ∀ t ∈ reported, d.Stands raw t
  /-- They are the members of the path. -/
  of_ok : ∀ p, d.parse raw = .ok p → reported.map Token.name = p.steps.filterMap Step.name?
  /-- If there is no path, they are what is reported of the text up to the marker of the bad token: the
  members of the path that stands there. -/
  of_error : ∀ m, d.parse raw = .error m →
    (∀ c ∈ raw.toList, c = d.separator) ∧ reported = [] ∨
      ∃ front gap token rest, d.BadToken raw m.offset m.cause front gap token rest ∧
        reported = d.memberTokens front ∧ (∀ t ∈ reported, d.Stands front t) ∧
        (d.words front = [] ∧ reported = [] ∨
          ∃ p, d.parse front = .ok p ∧ reported.map Token.name = p.steps.filterMap Step.name?)

theorem reports_memberTokens (d : Dialect) (raw : String) : d.Reports raw (d.memberTokens raw) := by
  constructor
  case increasing =>
    exact (d.pairwise_tokensFrom 0 raw.toList).1.sublist (d.members_sublist _)
  case stands => exact fun t => stands_of_mem_memberTokens
  case of_ok => exact fun p => names_of_parse
  case of_error =>
    intro m hm
    obtain hstop | ⟨hnone, -, -⟩ := (parse_eq_error_iff_scan.mp hm).2
    · obtain ⟨front, gap, token, rest, hbad⟩ := exists_badToken hstop
      rw [memberTokens, hbad.scan_tokens]
      refine .inr ⟨front, gap, token, rest, hbad, rfl, fun t => stands_of_mem_memberTokens, ?_⟩
      exact hbad.front_read.imp (fun h => ⟨h, memberTokens_of_words h⟩)
        fun ⟨p, hp⟩ => ⟨p, hp, names_of_parse hp⟩
    · refine .inl ⟨tokensFrom_eq_nil_iff.mp hnone, ?_⟩
      rw [memberTokens, hnone]
      rfl

/-- Reading a text reports tokens at increasing offsets, each one spelled by the bytes at its offset between
separators or ends of the text.  They are the members of the path that is read; of a malformed text they are
the members in front of the marker of the bad token. -/
theorem read_reports {σ : Type} (d : Dialect) (raw : String) (s : σ) :
    (d.read raw s).value = d.parse raw ∧
    (∀ e ∈ (d.read raw s).log, e.level = .trace) ∧
    ∃ reported, (d.read raw s).log = reported.map (.memberRead raw) ∧ d.Reports raw reported := by
  rw [read_apply]
  refine ⟨rfl, fun e he => ?_, d.memberTokens raw, rfl, d.reports_memberTokens raw⟩
  obtain ⟨t, -, rfl⟩ := List.mem_map.mp he
  rfl

/-- Separators of three bytes, of which two stand together, and a member that is called like the marker. -/
example :
    { standard with separator := '→' : Dialect }.memberTokens "é→→Array→x→Array→data[2]→y" =
      [⟨0, ['é']⟩, ⟨8, "Array".toList⟩, ⟨16, ['x']⟩, ⟨38, ['y']⟩] := by
  decide

end Dialect

end DeepPath
