import Lox.Proofs.Token.Rescanning

/-!
# Unexpected characters

Which characters of a source are outside strings and comments is told by reading it once, without
any regard to tokens.  Those among them with which nothing starts are the ones that the scanner
reports, each of them once.
-/

namespace Lox

namespace Segment

instance : DecidablePred Unexpected :=
  fun _ ↦ inferInstanceAs (Decidable (_ ∧ _))

/-- Where a character may stand. -/
inductive Place where
  | code
  | string
  | lineComment
  | blockComment

/-- The characters of a text that are outside strings and comments, given where the text starts. The
signs that open a string or a comment and those that close it do not count. -/
def bare : Place → List Char → List Char
  | _, [] => []
  | .code, '"' :: rest => bare .string rest
  | .code, '/' :: '/' :: rest => bare .lineComment rest
  | .code, '/' :: '*' :: rest => bare .blockComment rest
  | .code, c :: rest => c :: bare .code rest
  | .string, '"' :: rest => bare .code rest
  | .string, _ :: rest => bare .string rest
  | .lineComment, '\n' :: rest => '\n' :: bare .code rest
  | .lineComment, _ :: rest => bare .lineComment rest
  | .blockComment, '*' :: '/' :: rest => bare .code rest
  | .blockComment, _ :: rest => bare .blockComment rest

/-- The characters outside strings and comments that nothing starts with. -/
def strays (text : List Char) : List Char :=
  (bare .code text).filter Unexpected

/-- A character that opens no string and no comment, and that something may start with or have in
it. -/
def Plain (c : Char) : Prop :=
  c ≠ '"' ∧ c ≠ '/' ∧ ¬Unexpected c

instance : DecidablePred Plain :=
  fun _ ↦ inferInstanceAs (Decidable (_ ∧ _))

section Strays

variable {c : Char} {rest text : List Char}

theorem bare_cons (hquote : c ≠ '"') (hslash : c ≠ '/') (rest : List Char) :
    bare .code (c :: rest) = c :: bare .code rest :=
  bare.eq_5 _ _ hquote (fun _ heq ↦ absurd heq hslash) fun _ heq ↦ absurd heq hslash

theorem strays_cons (hc : Plain c) (rest : List Char) : strays (c :: rest) = strays rest := by
  obtain ⟨hquote, hslash, hplain⟩ := hc
  rw [strays, bare_cons hquote hslash]
  exact List.filter_cons_of_neg (by simpa using hplain)

theorem strays_append (h : ∀ c ∈ text, Plain c) (more : List Char) :
    strays (text ++ more) = strays more := by
  induction text with
  | nil => rfl
  | cons c text ih =>
    obtain ⟨hc, htext⟩ := List.forall_mem_cons.1 h
    rw [List.cons_append, strays_cons hc, ih htext]

theorem bare_string (rest : List Char) :
    bare .string rest = bare .code (rest.dropWhile (· ≠ '"')).tail := by
  induction rest with
  | nil => rfl
  | cons c rest ih =>
    by_cases hc : c = '"'
    · subst hc
      rfl
    · rw [bare.eq_7 _ _ hc, List.dropWhile_cons_of_pos (by simpa using hc)]
      exact ih

theorem bare_lineComment (rest : List Char) :
    bare .lineComment rest = bare .code (rest.dropWhile (· ≠ '\n')) := by
  induction rest with
  | nil => rfl
  | cons c rest ih =>
    by_cases hc : c = '\n'
    · subst hc
      rw [List.dropWhile_cons_of_neg (by decide), bare_cons (by decide) (by decide)]
      rfl
    · rw [bare.eq_9 _ _ hc, List.dropWhile_cons_of_pos (by simpa using hc)]
      exact ih

theorem bare_blockComment (rest : List Char) : bare .blockComment rest =
    bare .code (((splitCommentEnd rest).map Prod.snd).getD []) := by
  induction rest with
  | nil => rfl
  | cons c rest ih =>
    by_cases hclose : ∃ more, c = '*' ∧ rest = '/' :: more
    · obtain ⟨more, rfl, rfl⟩ := hclose
      rfl
    · have hsplit : (splitCommentEnd (c :: rest)).map Prod.snd =
          (splitCommentEnd rest).map Prod.snd := by
        rw [splitCommentEnd, Option.map_map]
        · rfl
        · intro more hstar hslash
          exact hclose ⟨more, hstar, hslash⟩
      rw [bare.eq_11 _ _ fun more hstar hslash ↦ hclose ⟨more, hstar, hslash⟩, ih, hsplit]

theorem plain_of_isWordRest (h : isWordRest c = true) : Plain c := by
  rcases Bool.or_eq_true_iff.1 h with halphanum | hunderscore
  · refine ⟨?_, ?_, fun hunexpected ↦ Bool.noConfusion (halphanum.symm.trans hunexpected.1)⟩
    · rintro rfl
      cases halphanum
    · rintro rfl
      cases halphanum
  · obtain rfl := of_decide_eq_true hunderscore
    decide

theorem isWordRest_of_isDigit (h : c.isDigit = true) : isWordRest c = true := by
  rw [isWordRest, Char.isAlphanum, h, Bool.or_true, Bool.true_or]

theorem plain_of_isDigit (h : c.isDigit = true) : Plain c :=
  plain_of_isWordRest (isWordRest_of_isDigit h)

/-- What opens neither a string nor a comment, and is expected, is plain. -/
theorem plain_of_suits {o : Opening} (h : o.Suits c) (hslash : o ≠ .slash) (hstring : o ≠ .string)
    (hunexpected : o ≠ .unexpected) : Plain c := by
  cases o with
  | single kind =>
    have hsingle : single? c = some kind := h
    unfold single? at hsingle
    split at hsingle
    all_goals first | decide | cases hsingle
  | operator short long =>
    have hextensible : extensible? c = some (short, long) := h
    unfold extensible? at hextensible
    split at hextensible
    all_goals first | decide | cases hextensible
  | blank =>
    rcases isBlank_cases h with rfl | rfl | rfl | rfl
    all_goals decide
  | number => exact plain_of_isDigit h
  | word =>
    rcases Bool.or_eq_true_iff.1 h with halpha | hunderscore
    · apply plain_of_isWordRest
      rw [isWordRest, Char.isAlphanum, halpha, Bool.true_or, Bool.true_or]
    · obtain rfl := of_decide_eq_true hunderscore
      decide
  | slash => exact absurd rfl hslash
  | string => exact absurd rfl hstring
  | unexpected => exact absurd rfl hunexpected

/-- The character that a segment reports as unexpected. -/
def Role.stray? : Role → Option Char
  | .fault (.unexpected c) => some c
  | _ => none

/-- The strays of a text are those that its segments report. -/
def Strays (text : List Char) (cut : Segment × List Char) : Prop :=
  strays text = (Role.stray? cut.1.role).toList ++ strays cut.2

theorem strays_operator (hc : Plain c) (short long : Kind) (rest : List Char) :
    Strays (c :: rest) (operator c short long rest) := by
  unfold operator
  split
  · rename_i rest
    exact (strays_cons hc _).trans (strays_cons (by decide) rest)
  · exact strays_cons hc rest

theorem strays_slash (rest : List Char) : Strays ('/' :: rest) (slash rest) := by
  unfold slash
  split
  · rename_i rest
    exact congrArg (List.filter Unexpected) (bare_lineComment rest)
  · rename_i rest
    have hbare := congrArg (List.filter Unexpected) (bare_blockComment rest)
    split
    · rename_i hsplit
      rw [hsplit] at hbare
      exact hbare
    · rename_i hsplit
      rw [hsplit] at hbare
      exact hbare
  · rename_i hline hblock
    have hbare : bare .code ('/' :: rest) = '/' :: bare .code rest :=
      bare.eq_5 _ _ (by decide) (fun more _ heq ↦ hline more heq) fun more _ heq ↦ hblock more heq
    rw [Strays, strays, hbare, List.filter_cons_of_neg (by decide)]
    rfl

theorem strays_string (rest : List Char) : Strays ('"' :: rest) (string rest) := by
  have hbare : strays ('"' :: rest) = strays (rest.dropWhile (· ≠ '"')).tail := by
    unfold strays
    rw [← bare_string]
    rfl
  rw [Strays, hbare, string]
  cases rest.dropWhile (· ≠ '"') with
  | nil => rfl
  | cons quote after => rfl

theorem strays_number (hc : c.isDigit = true) (rest : List Char) :
    Strays (c :: rest) (number c rest) := by
  have hplain : ∀ text : List Char, ∀ d ∈ text.takeWhile Char.isDigit, Plain d :=
    fun _ _ hd ↦ plain_of_isDigit (List.mem_takeWhile_imp hd)
  have hcut := (cutFrom_number c rest).2
  rw [← hcut]
  obtain ⟨digit, after, -, hdigit, hnumber⟩ | hnumber := number_cases c rest
  · rw [hnumber]
    apply strays_append
    exact List.forall_mem_append.2 ⟨List.forall_mem_cons.2 ⟨plain_of_isDigit hc, hplain rest⟩,
      List.forall_mem_cons.2 ⟨by decide,
        List.forall_mem_cons.2 ⟨plain_of_isDigit hdigit, hplain after⟩⟩⟩
  · rw [hnumber]
    exact strays_append (List.forall_mem_cons.2 ⟨plain_of_isDigit hc, hplain rest⟩) _

theorem strays_word (hc : Plain c) (rest : List Char) : Strays (c :: rest) (word c rest) := by
  have hcut := (cutFrom_word c rest).2
  rw [← hcut]
  exact strays_append (List.forall_mem_cons.2
    ⟨hc, fun _ hd ↦ plain_of_isWordRest (List.mem_takeWhile_imp hd)⟩) _

theorem strays_unexpected (hc : Unexpected c) (rest : List Char) :
    Strays (c :: rest) (⟨.fault (.unexpected c), [c]⟩, rest) := by
  have hquote : c ≠ '"' := by
    rintro rfl
    revert hc
    decide
  have hslash : c ≠ '/' := by
    rintro rfl
    revert hc
    decide
  rw [Strays, strays, bare_cons hquote hslash]
  exact List.filter_cons_of_pos (decide_eq_true hc)

theorem strays_next (c : Char) (rest : List Char) : Strays (c :: rest) (next c rest) := by
  have hsuits := suits_opening c
  have hplain := plain_of_suits hsuits
  rw [next_eq]
  cases hopening : opening c with
  | single kind =>
    rw [hopening] at hplain
    exact strays_cons (hplain nofun nofun nofun) rest
  | operator short long =>
    rw [hopening] at hplain
    exact strays_operator (hplain nofun nofun nofun) short long rest
  | blank =>
    rw [hopening] at hplain
    exact strays_cons (hplain nofun nofun nofun) rest
  | slash =>
    rw [hopening] at hsuits
    obtain rfl : c = '/' := hsuits
    exact strays_slash rest
  | string =>
    rw [hopening] at hsuits
    obtain rfl : c = '"' := hsuits
    exact strays_string rest
  | number =>
    rw [hopening] at hsuits
    exact strays_number hsuits rest
  | word =>
    rw [hopening] at hplain
    exact strays_word (hplain nofun nofun nofun) rest
  | unexpected =>
    rw [hopening] at hsuits
    exact strays_unexpected hsuits rest

end Strays

end Segment

/-- The character that an item reports as unexpected. -/
def Item.stray? : Item → Option Char
  | .fault _ (.unexpected c) => some c
  | _ => none

theorem stray?_ofSegment? (p : Position) (s : Segment) :
    (Item.ofSegment? p s).bind Item.stray? = Segment.Role.stray? s.role := by
  obtain ⟨role, text⟩ := s
  cases role with
  | fault cause =>
    cases cause with
    | unexpected c => rfl
    | unterminatedString => rfl
    | unterminatedComment => rfl
  | token kind => rfl
  | blank => rfl
  | comment => rfl

theorem filterMap_stray? (p : Position) (text : List Char) :
    (Item.ofSegments p (segments text)).filterMap Item.stray? = Segment.strays text := by
  induction text using Segment.next_induction generalizing p with
  | nil => rfl
  | cons c rest ih =>
    have hstray := stray?_ofSegment? p (Segment.next c rest).1
    rw [Segment.strays_next c rest, ← ih (p.after (Segment.next c rest).1.text), ← hstray,
      segments_cons, Item.ofSegments]
    cases hitem : Item.ofSegment? p (Segment.next c rest).1 with
    | none => rfl
    | some item =>
      rw [Option.bind_some]
      dsimp only
      cases hfirst : item.stray? with
      | none => exact List.filterMap_cons_none hfirst
      | some d => exact List.filterMap_cons_some hfirst

/-- Every character that nothing starts with is reported once, if it is outside strings and
comments, and in the order of the source. -/
theorem strays_reported (source : String) :
    (scan source).filterMap Item.stray? = Segment.strays source.toList :=
  filterMap_stray? .start source.toList

end Lox
