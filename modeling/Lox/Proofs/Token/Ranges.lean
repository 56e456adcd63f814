import Lox.Proofs.Token.Bytes
import Lox.Proofs.Token.Cursor
import Mathlib.Data.List.TakeWhile

/-!
# Ranges of bytes

The segments of a source take up ranges of its bytes that follow one another without a gap.  What a
range holds is told in terms of the bytes alone: a token is the slice of its range and stands where
the newlines before it say; whatever is no token is a blank, a comment that ends where it should, or
a reported error.
-/

namespace Lox

namespace Segment

/-- A character with which no token, blank or comment starts. -/
def Unexpected (c : Char) : Prop :=
  c.isAlphanum = false ∧ c ∉ "()\x7b\x7d,.-+;*!=<>/\"_ \t\r\n".toList

/-- What a segment looks like, given the text behind it. -/
inductive Shape : Role → (text after : List Char) → Prop
  | token {kind : Kind} {text after : List Char} (h : kind ≠ .endOfInput) :
      Shape (.token kind) text after
  | blank {c : Char} {after : List Char} (h : isBlank c = true) : Shape .blank [c] after
  | lineComment {body after : List Char} (hbody : '\n' ∉ body)
      (hafter : after = [] ∨ ∃ more, after = '\n' :: more) :
      Shape .comment ('/' :: '/' :: body) after
  | blockComment {body after : List Char} (hbody : ¬['*', '/'] <:+: body ++ ['*']) :
      Shape .comment ('/' :: '*' :: (body ++ ['*', '/'])) after
  | unexpected {c : Char} {after : List Char} (h : Unexpected c) :
      Shape (.fault (.unexpected c)) [c] after
  | unterminatedString {body : List Char} (hbody : '"' ∉ body) :
      Shape (.fault .unterminatedString) ('"' :: body) []
  | unterminatedComment {body : List Char} (hbody : ¬['*', '/'] <:+: body) :
      Shape (.fault .unterminatedComment) ('/' :: '*' :: body) []

/-- The comment ends at the first `*/`: there is none before it, nor one that overlaps it. -/
theorem splitCommentEnd_eq_some {text found after : List Char}
    (h : splitCommentEnd text = some (found, after)) :
    ∃ body, found = body ++ ['*', '/'] ∧ ¬['*', '/'] <:+: body ++ ['*'] := by
  induction text generalizing found after with
  | nil => cases h
  | cons c rest ih =>
    unfold splitCommentEnd at h
    split at h
    · cases h
      exact ⟨[], rfl, by decide⟩
    · rename_i hnot
      obtain ⟨⟨inner, later⟩, hinner, heq⟩ := Option.map_eq_some_iff.1 h
      cases heq
      obtain ⟨body, rfl, hbody⟩ := ih hinner
      refine ⟨c :: body, rfl, fun hinfix ↦ ?_⟩
      rw [List.cons_append, List.infix_cons_iff, List.cons_prefix_cons] at hinfix
      rcases hinfix with ⟨rfl, hslash⟩ | hlater
      · -- A slash behind the star would have ended the comment here.
        have hrest := splitCommentEnd_append hinner
        obtain ⟨more, hmore⟩ := hslash
        cases body with
        | nil => cases hmore
        | cons d body =>
          cases hmore
          exact hnot _ rfl hrest.symm
      · exact hbody hlater

theorem splitCommentEnd_eq_none {text : List Char} (h : splitCommentEnd text = none) :
    ¬['*', '/'] <:+: text := by
  induction text with
  | nil => decide
  | cons c rest ih =>
    unfold splitCommentEnd at h
    split at h
    · cases h
    · rename_i hnot
      intro hinfix
      rw [List.infix_cons_iff, List.cons_prefix_cons] at hinfix
      rcases hinfix with ⟨rfl, more, rfl⟩ | hlater
      · exact hnot _ rfl rfl
      · exact ih (Option.map_eq_none_iff.1 h) hlater

theorem notMem_takeWhile_ne (c : Char) (text : List Char) : c ∉ text.takeWhile (· ≠ c) := by
  intro hmem
  have hne := List.mem_takeWhile_imp hmem
  exact absurd rfl (of_decide_eq_true hne)

theorem shape_slash (rest : List Char) :
    Shape (slash rest).1.role (slash rest).1.text (slash rest).2 := by
  unfold slash
  split
  · rename_i rest
    refine .lineComment (notMem_takeWhile_ne _ _) ?_
    cases hafter : rest.dropWhile (· ≠ '\n') with
    | nil => exact .inl rfl
    | cons d more =>
      have hstop := List.head_dropWhile_not (· ≠ '\n') (by rw [hafter]; exact List.cons_ne_nil _ _)
      simp only [hafter, List.head_cons] at hstop
      exact .inr ⟨more, by simpa using hstop⟩
  · split
    · rename_i hsplit
      obtain ⟨body, rfl, hbody⟩ := splitCommentEnd_eq_some hsplit
      exact .blockComment hbody
    · rename_i hsplit
      exact .unterminatedComment (splitCommentEnd_eq_none hsplit)
  · exact .token nofun

theorem shape_string (rest : List Char) :
    Shape (string rest).1.role (string rest).1.text (string rest).2 := by
  unfold string
  cases rest.dropWhile (· ≠ '"') with
  | nil => exact .unterminatedString (notMem_takeWhile_ne _ _)
  | cons quote after => exact .token nofun

theorem shape_number (c : Char) (rest : List Char) :
    Shape (number c rest).1.role (number c rest).1.text (number c rest).2 := by
  obtain ⟨value, hrole⟩ := role_number c rest
  rw [hrole]
  exact .token nofun

theorem unexpected_of_next {c : Char} (hsingle : single? c = none)
    (hextensible : extensible? c = none) (hblank : ¬isBlank c = true) (hslash : c ≠ '/')
    (hquote : c ≠ '"') (hdigit : ¬c.isDigit = true) (hword : ¬isWordStart c = true) :
    Unexpected c := by
  refine ⟨?_, fun hmem ↦ ?_⟩
  · unfold isWordStart at hword
    unfold Char.isAlphanum
    simp_all
  · have hall : ("()\x7b\x7d,.-+;*!=<>/\"_ \t\r\n".toList.all fun c ↦ (single? c).isSome ||
        (extensible? c).isSome || isBlank c || c = '/' || c = '"' || isWordStart c) = true := by
      decide
    have hcases := List.all_eq_true.1 hall c hmem
    rw [hsingle, hextensible] at hcases
    simp_all

/-- What a first character announces. -/
inductive Opening where
  | single (kind : Kind)
  | operator (short long : Kind)
  | blank
  | slash
  | string
  | number
  | word
  | unexpected

/-- The first character decides how a text is cut. -/
def opening (c : Char) : Opening :=
  match single? c, extensible? c with
  | some kind, _ => .single kind
  | none, some (short, long) => .operator short long
  | none, none =>
    if isBlank c then .blank
    else if c = '/' then .slash
    else if c = '"' then .string
    else if c.isDigit then .number
    else if isWordStart c then .word
    else .unexpected

/-- What is known of a character that announces something. -/
def Opening.Suits (c : Char) : Opening → Prop
  | single kind => single? c = some kind
  | operator short long => extensible? c = some (short, long)
  | blank => isBlank c = true
  | slash => c = '/'
  | string => c = '"'
  | number => c.isDigit = true
  | word => isWordStart c = true
  | unexpected => Unexpected c

theorem suits_opening (c : Char) : (opening c).Suits c := by
  unfold opening
  split
  · assumption
  · assumption
  · split
    · assumption
    · split
      · assumption
      · split
        · assumption
        · split
          · assumption
          · split
            · assumption
            · exact unexpected_of_next ‹_› ‹_› ‹_› ‹_› ‹_› ‹_› ‹_›

/-- A text is cut as its first character announces. -/
theorem next_eq (c : Char) (rest : List Char) : next c rest =
    match opening c with
    | .single kind => (⟨.token kind, [c]⟩, rest)
    | .operator short long => operator c short long rest
    | .blank => (⟨.blank, [c]⟩, rest)
    | .slash => slash rest
    | .string => string rest
    | .number => number c rest
    | .word => word c rest
    | .unexpected => (⟨.fault (.unexpected c), [c]⟩, rest) := by
  unfold next opening
  cases single? c with
  | some kind => rfl
  | none =>
    cases extensible? c with
    | some kinds => rfl
    | none =>
      dsimp only
      split
      · rfl
      · split
        · rfl
        · split
          · rfl
          · split
            · rfl
            · split
              · rfl
              · rfl

theorem shape_next (c : Char) (rest : List Char) :
    Shape (next c rest).1.role (next c rest).1.text (next c rest).2 := by
  have hend := notEnd_next c rest
  revert hend
  unfold next
  split
  · intro hend
    exact .token fun heq ↦ hend (congrArg Role.token heq)
  · unfold operator
    split
    · intro hend
      exact .token fun heq ↦ hend (congrArg Role.token heq)
    · intro hend
      exact .token fun heq ↦ hend (congrArg Role.token heq)
  · rename_i hsingle hextensible
    split
    · exact fun _ ↦ .blank ‹_›
    · split
      · exact fun _ ↦ shape_slash rest
      · split
        · exact fun _ ↦ shape_string rest
        · split
          · exact fun _ ↦ shape_number c rest
          · split
            · exact fun hend ↦ .token fun heq ↦ hend (congrArg Role.token heq)
            · rename_i hblank hslash hquote hdigit hword
              exact fun _ ↦ .unexpected
                (unexpected_of_next hsingle hextensible hblank hslash hquote hdigit hword)

theorem text_ne_nil (text : List Char) : ∀ s ∈ segments text, s.text ≠ [] := by
  induction text using next_induction with
  | nil => exact nofun
  | cons c rest ih =>
    rw [segments_cons]
    exact List.forall_mem_cons.2 ⟨(cutFrom_next c rest).1, ih⟩

end Segment

/-- What may stand between the items of a source, given the bytes behind it: one blank, a comment up
to the end of its line, or a comment up to the first `*/`. -/
inductive Gap : (range behind : List UInt8) → Prop
  | blank {c : Char} {behind : List UInt8} (h : c ∈ [' ', '\t', '\r', '\n']) :
      Gap [c.toUInt8] behind
  | lineComment {body behind : List UInt8} (hbody : '\n'.toUInt8 ∉ body)
      (hbehind : behind = [] ∨ ∃ more, behind = '\n'.toUInt8 :: more) :
      Gap ('/'.toUInt8 :: '/'.toUInt8 :: body) behind
  | blockComment {body behind : List UInt8}
      (hbody : ¬['*'.toUInt8, '/'.toUInt8] <:+: body ++ ['*'.toUInt8]) :
      Gap ('/'.toUInt8 :: '*'.toUInt8 :: (body ++ ['*'.toUInt8, '/'.toUInt8])) behind

/-- What a reported error is about: one character, or all that is left of the source behind a quote
or a `/*` that nothing closes. -/
inductive Faulty : LexicalFault → (range behind : List UInt8) → Prop
  | unexpected {c : Char} {behind : List UInt8} (h : Segment.Unexpected c) :
      Faulty (.unexpected c) (String.utf8EncodeChar c) behind
  | unterminatedString {body : List UInt8} (hbody : '"'.toUInt8 ∉ body) :
      Faulty .unterminatedString ('"'.toUInt8 :: body) []
  | unterminatedComment {body : List UInt8}
      (hbody : ¬['*'.toUInt8, '/'.toUInt8] <:+: body) :
      Faulty .unterminatedComment ('/'.toUInt8 :: '*'.toUInt8 :: body) []

/-- A range of bytes, up to and not including `stop`, with the item that it yields, if any. -/
structure Piece where
  start : Nat
  stop : Nat
  item? : Option Item

namespace Piece

/-- A piece of a source says the truth about its range. -/
def Fits (bytes : List UInt8) (piece : Piece) : Prop :=
  let range := (bytes.take piece.stop).drop piece.start
  let behind := bytes.drop piece.stop
  match piece.item? with
  | some (.token t) =>
    t.kind ≠ .endOfInput ∧ t.lexeme.toUTF8.data.toList = range ∧
      t.line = lineAt bytes piece.start ∧ t.column = columnAt bytes piece.start
  | some (.fault line cause) => line = lineAt bytes piece.stop ∧ Faulty cause range behind
  | none => Gap range behind

/-- The ranges of segments that start at a position and an offset. -/
def ofSegments (p : Position) (start : Nat) : List Segment → List Piece
  | [] => []
  | s :: rest =>
    let stop := start + (utf8 s.text).length
    ⟨start, stop, Item.ofSegment? p s⟩ :: ofSegments (p.after s.text) stop rest

theorem filterMap_ofSegments (p : Position) (start : Nat) (segments : List Segment) :
    (ofSegments p start segments).filterMap Piece.item? = Item.yield p segments := by
  induction segments generalizing p start with
  | nil => rfl
  | cons s rest ih =>
    rw [ofSegments, Item.yield, List.filterMap_cons, ih]
    dsimp only
    cases Item.ofSegment? p s with
    | none => rfl
    | some item => rfl

/-- Pieces that are not empty and follow one another from one offset to another. -/
def Tiles : Nat → List Piece → Nat → Prop
  | low, [], high => low = high
  | low, piece :: rest, high => piece.start = low ∧ low < piece.stop ∧ Tiles piece.stop rest high

theorem tiles_ofSegments {segments : List Segment} (h : ∀ s ∈ segments, s.text ≠ [])
    (p : Position) (start : Nat) :
    Tiles start (ofSegments p start segments)
      (start + (utf8 (segments.flatMap Segment.text)).length) := by
  induction segments generalizing p start with
  | nil => rfl
  | cons s rest ih =>
    obtain ⟨hs, hrest⟩ := List.forall_mem_cons.1 h
    rw [ofSegments, List.flatMap_cons, utf8_append, List.length_append, ← Nat.add_assoc]
    refine ⟨rfl, ?_, ih hrest _ _⟩
    exact Nat.lt_add_of_pos_right (List.length_pos_iff.2 (utf8_ne_nil hs))

namespace Tiles

variable {low high : Nat} {pieces : List Piece}

theorem bounds (h : Tiles low pieces high) :
    low ≤ high ∧ ∀ p ∈ pieces, low ≤ p.start ∧ p.start < p.stop ∧ p.stop ≤ high := by
  induction pieces generalizing low with
  | nil => exact ⟨Nat.le_of_eq h, nofun⟩
  | cons piece rest ih =>
    obtain ⟨hstart, hlt, hrest⟩ := h
    obtain ⟨hle, hbounds⟩ := ih hrest
    refine ⟨by omega, List.forall_mem_cons.2 ⟨by omega, fun p hp ↦ ?_⟩⟩
    have hp := hbounds p hp
    omega

theorem pairwise (h : Tiles low pieces high) :
    pieces.Pairwise fun p q ↦ p.stop ≤ q.start := by
  induction pieces generalizing low with
  | nil => exact .nil
  | cons piece rest ih =>
    obtain ⟨-, -, hrest⟩ := h
    exact .cons (fun q hq ↦ (hrest.bounds.2 q hq).1) (ih hrest)

theorem covers (h : Tiles low pieces high) {i : Nat} (hlow : low ≤ i) (hhigh : i < high) :
    ∃ p ∈ pieces, p.start ≤ i ∧ i < p.stop := by
  induction pieces generalizing low with
  | nil =>
    have heq : low = high := h
    omega
  | cons piece rest ih =>
    obtain ⟨hstart, hlt, hrest⟩ := h
    by_cases hi : i < piece.stop
    · exact ⟨piece, List.mem_cons_self, by omega, hi⟩
    · obtain ⟨p, hp, hinside⟩ := ih hrest (Nat.not_lt.1 hi)
      exact ⟨p, List.mem_cons_of_mem _ hp, hinside⟩

end Tiles

/-! ### Segments fit -/

theorem gap_of_blank {c : Char} (h : Segment.isBlank c = true) (behind : List UInt8) :
    Gap (utf8 [c]) behind := by
  obtain ⟨hblank, hascii⟩ : c ∈ [' ', '\t', '\r', '\n'] ∧ c.toNat < 128 := by
    obtain rfl | rfl | rfl | rfl := Segment.isBlank_cases h
    all_goals exact ⟨by decide, by decide⟩
  rw [utf8_singleton, utf8EncodeChar_of_ascii hascii]
  exact .blank hblank

/-- What a segment looks like tells what its bytes look like. -/
theorem fits_of_shape {role : Role} {text after : List Char}
    (h : Segment.Shape role text after) (before : List Char) :
    Fits (utf8 (before ++ (text ++ after))) ⟨(utf8 before).length,
      (utf8 before).length + (utf8 text).length,
      Item.ofSegment? (Position.start.after before) ⟨role, text⟩⟩ := by
  have hsplit : utf8 (before ++ (text ++ after)) = utf8 before ++ utf8 text ++ utf8 after := by
    rw [utf8_append, utf8_append, List.append_assoc]
  have hrange : ((utf8 (before ++ (text ++ after))).take
      ((utf8 before).length + (utf8 text).length)).drop (utf8 before).length = utf8 text := by
    rw [hsplit, ← List.length_append, List.take_left, List.drop_left]
  have hbehind : (utf8 (before ++ (text ++ after))).drop
      ((utf8 before).length + (utf8 text).length) = utf8 after := by
    rw [hsplit, ← List.length_append, List.drop_left]
  have hstart := after_start_append before (text ++ after)
  have hstop := after_start_append (before ++ text) after
  rw [List.append_assoc, utf8_append before text, List.length_append,
    Position.after_append] at hstop
  unfold Fits
  dsimp only
  rw [hrange, hbehind]
  cases h with
  | token hkind =>
    refine ⟨hkind, ?_, congrArg Position.line hstart, congrArg Position.column hstart⟩
    rw [toUTF8_eq, String.toList_ofList]
  | blank hblank => exact gap_of_blank hblank _
  | @lineComment body _ hbody hafter =>
    have hbytes : '\n'.toUInt8 ∉ utf8 body := fun hmem ↦ hbody ((mem_utf8_iff (by decide)).1 hmem)
    dsimp only [Item.ofSegment?]
    rw [utf8_cons_of_ascii (by decide), utf8_cons_of_ascii (by decide)]
    refine .lineComment hbytes ?_
    rcases hafter with rfl | ⟨more, rfl⟩
    · exact .inl rfl
    · exact .inr ⟨utf8 more, utf8_cons_of_ascii (by decide) _⟩
  | @blockComment body _ hbody =>
    have hstar : utf8 ['*'] = ['*'.toUInt8] := utf8_cons_of_ascii (by decide) _
    have hbytes : ¬['*'.toUInt8, '/'.toUInt8] <:+: utf8 body ++ ['*'.toUInt8] := by
      rw [← hstar, ← utf8_append]
      exact fun hinfix ↦ hbody (infix_of_infix_utf8 (by decide) (by decide) hinfix)
    dsimp only [Item.ofSegment?]
    rw [utf8_cons_of_ascii (by decide), utf8_cons_of_ascii (by decide), utf8_append,
      utf8_cons_of_ascii (by decide) ['/'], utf8_cons_of_ascii (by decide) []]
    exact .blockComment hbytes
  | unexpected hunexpected =>
    refine ⟨congrArg Position.line hstop, ?_⟩
    rw [utf8_singleton]
    exact .unexpected hunexpected
  | @unterminatedString body hbody =>
    have hbytes : '"'.toUInt8 ∉ utf8 body := fun hmem ↦ hbody ((mem_utf8_iff (by decide)).1 hmem)
    refine ⟨congrArg Position.line hstop, ?_⟩
    rw [utf8_cons_of_ascii (by decide)]
    exact .unterminatedString hbytes
  | @unterminatedComment body hbody =>
    have hbytes : ¬['*'.toUInt8, '/'.toUInt8] <:+: utf8 body := fun hinfix ↦
      hbody (infix_of_infix_utf8 (by decide) (by decide) hinfix)
    refine ⟨congrArg Position.line hstop, ?_⟩
    rw [utf8_cons_of_ascii (by decide), utf8_cons_of_ascii (by decide)]
    exact .unterminatedComment hbytes

theorem fits_ofSegments (text before : List Char) :
    ∀ piece ∈ ofSegments (Position.start.after before) (utf8 before).length (segments text),
      piece.Fits (utf8 (before ++ text)) := by
  -- A segment fits the whole text, so the induction has to keep the text already read.
  induction text using Segment.next_induction generalizing before with
  | nil => exact nofun
  | cons c rest ih =>
    have hcut := (Segment.cutFrom_next c rest).2
    have hfirst := fits_of_shape (Segment.shape_next c rest) before
    have hlater := ih (before ++ (Segment.next c rest).1.text)
    rw [Position.after_append, utf8_append before (Segment.next c rest).1.text, List.length_append,
      List.append_assoc, hcut] at hlater
    rw [hcut] at hfirst
    rw [segments_cons, ofSegments]
    exact List.forall_mem_cons.2 ⟨hfirst, hlater⟩

end Piece

/-- The scanner tiles its input and reports exact positions.  There are ranges of bytes, in order
and without a gap, each of which yields an item that says the truth about it, or is a blank or a
comment.  The items are those of the ranges, with one end token behind them, which stands where the
source ends.  A cursor gives these items in order, and nothing from then on. -/
theorem scan_tiles (source : String) : ∃ pieces : List Piece,
    pieces.Pairwise (fun p q ↦ p.stop ≤ q.start) ∧
    (∀ p ∈ pieces, p.start < p.stop ∧ p.stop ≤ source.toUTF8.size ∧
      p.Fits source.toUTF8.data.toList) ∧
    (∀ i < source.toUTF8.size, ∃ p ∈ pieces, p.start ≤ i ∧ i < p.stop) ∧
    scan source = pieces.filterMap Piece.item? ++
      [.token ⟨.endOfInput, "", lineAt source.toUTF8.data.toList source.toUTF8.size,
        columnAt source.toUTF8.data.toList source.toUTF8.size⟩] ∧
    ∀ asked, (Cursor.start source).answer asked = (scan source)[asked]? := by
  have hbytes := toUTF8_eq source
  have hsize : source.toUTF8.size = (utf8 source.toList).length := by
    rw [← hbytes]
    exact (Array.length_toList ..).symm
  have htiles := Piece.tiles_ofSegments (Segment.text_ne_nil source.toList) .start 0
  have hfits := Piece.fits_ofSegments source.toList []
  rw [flatMap_segments, Nat.zero_add] at htiles
  rw [hbytes, hsize]
  refine ⟨Piece.ofSegments .start 0 (segments source.toList), htiles.pairwise, fun p hp ↦ ?_,
    fun i hi ↦ htiles.covers (Nat.zero_le i) hi, ?_, Cursor.answer_start source⟩
  · obtain ⟨-, hlt, hle⟩ := htiles.bounds.2 p hp
    exact ⟨hlt, hle, hfits p hp⟩
  · rw [Piece.filterMap_ofSegments, scan, Item.ofSegments_eq, flatMap_segments, Item.endToken,
      after_start]

end Lox
