import Lox.Proofs.Token.Rescanning
import Lox.Proofs.Token.Spelling

/-!
# Texts that are one token

The text of a token is scanned as that token again, so its kind can be read off its text.  The texts
of words, numbers and operators have no blank and no parenthesis in them.
-/

namespace Lox

/-- A text that is scanned as one token of a kind, with nothing around it. -/
def Kind.Scans (kind : Kind) (text : String) : Prop :=
  segments text.toList = [⟨.token kind, text.toList⟩]

instance (kind : Kind) (text : String) : Decidable (kind.Scans text) :=
  inferInstanceAs (Decidable (_ = _))

/-- The kind of the token that a text is, if it is one. -/
def Kind.ofText (text : String) : Kind :=
  match segments text.toList with
  | [⟨.token kind, _⟩] => kind
  | _ => .endOfInput

theorem Kind.Scans.ofText_eq {kind : Kind} {text : String} (h : kind.Scans text) :
    Kind.ofText text = kind := by
  unfold Kind.ofText
  rw [h]

theorem Kind.Scans.spells {kind : Kind} {text : String} (h : kind.Scans text) :
    kind.Spells text := by
  have hmem : (⟨.token kind, text.toList⟩ : Segment) ∈ segments text.toList := by
    rw [h]
    exact List.mem_singleton_self _
  have hspelt := Segment.spelt_of_mem_cut hmem kind rfl
  rwa [String.ofList_toList] at hspelt

theorem Kind.ofWord_ne_number (word : String) (value : Number) : ofWord word ≠ .number value := by
  have hkeywords : ∀ p ∈ keywords, p.2 ≠ .number value := by simp [keywords]
  unfold ofWord
  cases h : keywords.lookup word with
  | none => rintro ⟨⟩
  | some kind =>
    obtain ⟨left, right, hsplit, -⟩ := List.lookup_eq_some_iff.1 h
    apply hkeywords (word, kind)
    rw [hsplit]
    exact List.mem_append_right _ List.mem_cons_self

/-- The text of a token of a source is that token again. -/
theorem scans_of_mem_tokens {source : String} {t : Token} (ht : t ∈ tokens source)
    (hend : t.kind ≠ .endOfInput) : t.kind.Scans t.lexeme := by
  have hcontent : t.content ∈ (tokens source).map Token.content := List.mem_map_of_mem ht
  rw [map_tokens] at hcontent
  rcases List.mem_append.1 hcontent with hcontent | hlast
  · obtain ⟨⟨role, text⟩, hs, htoken⟩ := List.mem_filterMap.1 hcontent
    cases role with
    | token kind =>
      obtain ⟨hkind, hlexeme⟩ := Prod.mk.inj (Option.some.inj htoken)
      have hfirm := Segment.firm_of_mem_segments hs [] (.inl rfl)
      rw [List.append_nil, hkind] at hfirm
      rw [Kind.Scans, ← hlexeme, String.toList_ofList]
      exact hfirm
    | _ => cases htoken
  · exact absurd (congrArg Prod.fst (List.mem_singleton.1 hlast)) hend

namespace Segment

/-- Neither a space nor a parenthesis. -/
def IsSolid (c : Char) : Prop :=
  c ≠ ' ' ∧ c ≠ '(' ∧ c ≠ ')'

instance : DecidablePred IsSolid :=
  fun _ ↦ inferInstanceAs (Decidable (_ ∧ _))

section Solid

variable {c : Char} {rest : List Char} {kind : Kind}

theorem isSolid_of_isWordRest (h : isWordRest c = true) : IsSolid c := by
  refine ⟨?_, ?_, ?_⟩ <;> rintro rfl <;> cases h

theorem isSolid_of_isDigit (h : c.isDigit = true) : IsSolid c := by
  refine ⟨?_, ?_, ?_⟩ <;> rintro rfl <;> cases h

theorem isSolid_number (hc : c.isDigit = true) : ∀ d ∈ (number c rest).1.text, IsSolid d := by
  have hdigits (text : List Char) : ∀ d ∈ text.takeWhile Char.isDigit, IsSolid d :=
    fun d hd ↦ isSolid_of_isDigit (List.mem_takeWhile_imp hd)
  have hwhole : ∀ d ∈ c :: rest.takeWhile Char.isDigit, IsSolid d :=
    List.forall_mem_cons.2 ⟨isSolid_of_isDigit hc, hdigits rest⟩
  obtain ⟨digit, after, -, hdigit, hnumber⟩ | hnumber := number_cases c rest
  · rw [hnumber]
    apply List.forall_mem_append.2 ⟨hwhole, List.forall_mem_cons.2 ⟨by decide, _⟩⟩
    exact List.forall_mem_cons.2 ⟨isSolid_of_isDigit hdigit, hdigits after⟩
  · rw [hnumber]
    exact hwhole

theorem isSolid_next (hrole : (next c rest).1.role = .token kind) (hleft : kind ≠ .leftParen)
    (hright : kind ≠ .rightParen) (hstring : ∀ content, kind ≠ .string content) :
    ∀ d ∈ (next c rest).1.text, IsSolid d := by
  have hsuits := suits_opening c
  rw [next_eq] at hrole ⊢
  cases hopening : opening c with
  | single found =>
    rw [hopening] at hrole hsuits
    cases hrole
    refine List.forall_mem_singleton.2 ⟨?_, ?_, ?_⟩
    · rintro rfl
      cases hsuits
    · rintro rfl
      exact hleft (Option.some.inj hsuits).symm
    · rintro rfl
      exact hright (Option.some.inj hsuits).symm
  | operator short long =>
    rw [hopening] at hsuits
    have hsolid : IsSolid c := by
      refine ⟨?_, ?_, ?_⟩ <;> rintro rfl <;> cases hsuits
    dsimp only
    unfold operator
    split
    · exact List.forall_mem_cons.2 ⟨hsolid, List.forall_mem_singleton.2 (by decide)⟩
    · exact List.forall_mem_singleton.2 hsolid
  | slash =>
    rw [hopening] at hrole
    dsimp only at hrole ⊢
    revert hrole
    unfold slash
    split
    · rintro ⟨⟩
    · split <;> rintro ⟨⟩
    · exact fun _ ↦ List.forall_mem_singleton.2 (by decide)
  | string =>
    rw [hopening] at hrole
    dsimp only at hrole
    unfold string at hrole
    dsimp only at hrole
    split at hrole
    · cases hrole
    · cases hrole
      exact absurd rfl (hstring _)
  | number =>
    rw [hopening] at hsuits
    exact isSolid_number hsuits
  | word =>
    rw [hopening] at hsuits
    have hfirst : IsSolid c := by
      refine ⟨?_, ?_, ?_⟩ <;> rintro rfl <;> cases hsuits
    exact List.forall_mem_cons.2
      ⟨hfirst, fun d hd ↦ isSolid_of_isWordRest (List.mem_takeWhile_imp hd)⟩
  | blank =>
    rw [hopening] at hrole
    cases hrole
  | unexpected =>
    rw [hopening] at hrole
    cases hrole

/-- Only numbers are scanned as numbers. -/
theorem ofDigits_of_next {value : Number}
    (hrole : (next c rest).1.role = .token (.number value)) :
    ∃ whole fraction, value = .ofDigits whole fraction := by
  have hsuits := suits_opening c
  rw [next_eq] at hrole
  cases hopening : opening c with
  | number =>
    rw [hopening] at hrole
    dsimp only at hrole
    obtain ⟨digit, after, -, -, hnumber⟩ | hnumber := number_cases c rest
    · rw [hnumber] at hrole
      cases hrole
      exact ⟨_, _, rfl⟩
    · rw [hnumber] at hrole
      cases hrole
      exact ⟨_, _, rfl⟩
  | single found =>
    rw [hopening] at hrole hsuits
    obtain rfl : found = .number value := Role.token.inj hrole
    change single? c = _ at hsuits
    unfold single? at hsuits
    split at hsuits <;> cases hsuits
  | operator short long =>
    rw [hopening] at hrole hsuits
    change extensible? c = _ at hsuits
    unfold extensible? at hsuits
    dsimp only at hrole
    unfold operator at hrole
    split at hsuits <;> cases hsuits <;> split at hrole <;> cases hrole
  | slash =>
    rw [hopening] at hrole
    dsimp only at hrole
    revert hrole
    unfold slash
    split
    · rintro ⟨⟩
    · split <;> rintro ⟨⟩
    · rintro ⟨⟩
  | string =>
    rw [hopening] at hrole
    dsimp only at hrole
    revert hrole
    unfold string
    dsimp only
    split <;> rintro ⟨⟩
  | word =>
    rw [hopening] at hrole
    exact absurd (Role.token.inj hrole) (Kind.ofWord_ne_number _ _)
  | blank =>
    rw [hopening] at hrole
    cases hrole
  | unexpected =>
    rw [hopening] at hrole
    cases hrole

end Solid

end Segment

namespace Kind.Scans

variable {kind : Kind} {text : String}

/-- A text that is one token starts with that token. -/
theorem next_eq (h : kind.Scans text) :
    ∃ c rest, text.toList = c :: rest ∧ (Segment.next c rest).1 = ⟨.token kind, c :: rest⟩ := by
  unfold Scans at h
  cases htext : text.toList with
  | nil =>
    rw [htext] at h
    cases h
  | cons c rest =>
    rw [htext, segments_cons] at h
    exact ⟨c, rest, rfl, (List.cons.inj h).1⟩

/-- The text of a word, a number or an operator is not empty and has no space or parenthesis. -/
theorem solid (h : kind.Scans text) (hleft : kind ≠ .leftParen) (hright : kind ≠ .rightParen)
    (hstring : ∀ content, kind ≠ .string content) :
    text.toList ≠ [] ∧ ∀ d ∈ text.toList, Segment.IsSolid d := by
  obtain ⟨c, rest, htext, hnext⟩ := h.next_eq
  rw [htext]
  refine ⟨List.cons_ne_nil _ _, ?_⟩
  have hsolid := Segment.isSolid_next (congrArg Segment.role hnext) hleft hright hstring
  rwa [hnext] at hsolid

/-- Number tokens are read from digits. -/
theorem ofDigits {value : Number} (h : Kind.Scans (.number value) text) :
    ∃ whole fraction, value = .ofDigits whole fraction := by
  obtain ⟨c, rest, -, hnext⟩ := h.next_eq
  exact Segment.ofDigits_of_next (congrArg Segment.role hnext)

/-- A text that is one token is scanned as this token at the start, and the end behind it. -/
theorem scan_eq (h : kind.Scans text) :
    scan text = [.token ⟨kind, text, 1, 1⟩,
      .token (Item.endToken (Position.start.after text.toList))] := by
  unfold Scans at h
  rw [scan, h]
  simp only [Item.ofSegments, Item.ofSegment?, String.ofList_toList]
  rfl

end Kind.Scans

end Lox
