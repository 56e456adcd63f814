import Lox.Proofs.Token.Reading
import Lox.Proofs.Token.Strays

/-!
# Slices end between characters

The scanner of bytes never takes a slice inside a character, never reads behind the end and always
comes to an end: it reads a source in the segments of the source, and gives what the scanner of
characters gives (`scanned_safely`).
-/

namespace Lox

namespace ByteScanner

theorem some_bind {α β : Type} (a : α) (f : α → Part β) : (Part.some a >>= f) = f a :=
  Part.bind_some a f

theorem findIdx?_eq_none {byte : UInt8} {list : List UInt8} (h : byte ∉ list) :
    list.findIdx? (· == byte) = none := by
  apply List.findIdx?_eq_none_iff.2
  intro other hother
  rw [beq_eq_false_iff_ne]
  rintro rfl
  exact h hother

/-- What is found where a segment of a role is. -/
def Finding.ofRole : Role → Finding
  | .token kind => .ok (some kind)
  | .blank => .ok none
  | .comment => .ok none
  | .fault cause => .error cause

/-- A scanner that was to read a segment has read it as it is cut. -/
def Reads (source : String) (front : List Char) (cut : Segment × List Char)
    (result : Part (Finding × ByteScanner)) : Prop :=
  ∃ behind, result = .some (Finding.ofRole cut.1.role, behind) ∧
    Reading source front cut.1.text cut.2 behind

namespace Reading

variable {source : String} {front rest : List Char} {c : Char} {s : ByteScanner}

/-- Only ASCII characters are compared with the next byte. -/
theorem advance_ascii {text : List Char} (h : Reading source front text (c :: rest) s)
    (hc : c.toNat < 128) :
    s.advance source = .some (c.toUInt8, { s with current := s.current + 1 }) := by
  rw [h.advance_cons, h.peek_ascii hc]

theorem operator {short long : Kind} (h : Reading source front [c] rest s) :
    Reads source front (Segment.operator c short long rest)
      (if s.follows source '=' then do
        let (_, s) ← s.advance source
        return (.ok (some long), s)
      else return (.ok (some short), s)) := by
  unfold Segment.operator
  split
  · rw [if_pos (h.follows_cons (by decide)), h.advance_ascii (by decide), some_bind]
    exact ⟨_, rfl, h.jump_ascii (by decide) (by decide)⟩
  · rename_i hnot
    rw [if_neg (h.not_follows (by decide) hnot)]
    exact ⟨_, rfl, h⟩

theorem lineComment (h : Reading source front ['/', '/'] rest s) :
    Reads source front
      (⟨.comment, '/' :: '/' :: rest.takeWhile (· ≠ '\n')⟩, rest.dropWhile (· ≠ '\n'))
      (s.lineComment source) := by
  have hno := Segment.notMem_takeWhile_ne '\n' rest
  have hno' : '\n'.toUInt8 ∉ utf8 (rest.takeWhile (· ≠ '\n')) :=
    fun hmem ↦ hno ((mem_utf8_iff (by decide)).1 hmem)
  have hnone := findIdx?_eq_none hno'
  have hstop := List.head?_dropWhile_not (· ≠ '\n') rest
  have hrest := List.takeWhile_append_dropWhile (p := (· ≠ '\n')) (l := rest)
  generalize rest.takeWhile (· ≠ '\n') = body at *
  generalize rest.dropWhile (· ≠ '\n') = after at *
  subst hrest
  have hlength := h.length
  rw [ByteScanner.lineComment, h.range_rest, some_bind, utf8_append,
    List.findIdx?_append, hnone, Option.none_or]
  cases after with
  | nil =>
    refine ⟨_, rfl, ?_⟩
    rw [hlength, List.append_nil]
    exact h.jump hno
  | cons d more =>
    obtain rfl : d = '\n' := by simpa using hstop
    have hfirst : (utf8 ('\n' :: more)).findIdx? (· == '\n'.toUInt8) = some 0 := by
      rw [utf8_cons_of_ascii (by decide)]
      rfl
    rw [hfirst, Option.map_some, Nat.zero_add]
    exact ⟨_, rfl, h.jump hno⟩

theorem blockComment (h : Reading source front ['/', '*'] rest s) :
    Reads source front (Segment.slash ('*' :: rest)) (s.blockComment source) := by
  rw [ByteScanner.blockComment, h.range_rest, some_bind, Segment.slash]
  cases hsplit : Segment.splitCommentEnd rest with
  | none =>
    have hno : ¬['*'.toUInt8, '/'.toUInt8] <:+: utf8 rest := fun hinfix ↦
      Segment.splitCommentEnd_eq_none hsplit (infix_of_infix_utf8 (by decide) (by decide) hinfix)
    rw [commentEnd?_eq_none hno]
    have hall : Reading source front ['/', '*'] (rest ++ []) s := by rwa [List.append_nil]
    refine ⟨_, rfl, ?_⟩
    rw [h.length]
    exact hall.count
  | some cut =>
    obtain ⟨found, after⟩ := cut
    obtain ⟨body, rfl, hbody⟩ := Segment.splitCommentEnd_eq_some hsplit
    have hrest := Segment.splitCommentEnd_append hsplit
    rw [List.append_assoc] at hrest
    subst hrest
    have hstar : utf8 ['*'] = ['*'.toUInt8] := utf8_cons_of_ascii (by decide) _
    have hno : ¬['*'.toUInt8, '/'.toUInt8] <:+: utf8 body ++ ['*'.toUInt8] := by
      rw [← hstar, ← utf8_append]
      exact fun hinfix ↦ hbody (infix_of_infix_utf8 (by decide) (by decide) hinfix)
    have hbytes : utf8 (body ++ (['*', '/'] ++ after)) =
        utf8 body ++ '*'.toUInt8 :: '/'.toUInt8 :: utf8 after := by
      rw [utf8_append, List.cons_append, List.cons_append, List.nil_append,
        utf8_cons_of_ascii (by decide), utf8_cons_of_ascii (by decide)]
    rw [hbytes, commentEnd?_append hno]
    dsimp only
    rw [h.range, some_bind]
    have hend := (h.count.jump_ascii (by decide) (by decide)).jump_ascii (by decide) (by decide)
    rw [List.append_assoc, ← List.singleton_append] at hend
    have htext : '/' :: '*' :: (body ++ ['*', '/']) = ['/', '*'] ++ body ++ (['*'] ++ ['/']) := rfl
    exact ⟨_, rfl, htext ▸ hend⟩

theorem slash (h : Reading source front ['/'] rest s) :
    Reads source front (Segment.slash rest) (s.slash source) := by
  rw [ByteScanner.slash]
  by_cases hslash : ∃ more, rest = '/' :: more
  · obtain ⟨more, rfl⟩ := hslash
    rw [if_pos (h.follows_cons (by decide)), h.advance_ascii (by decide), some_bind]
    exact (h.jump_ascii (by decide) (by decide)).lineComment
  · rw [if_neg fun hfollows ↦ hslash ((h.follows_iff (by decide)).1 hfollows)]
    by_cases hstar : ∃ more, rest = '*' :: more
    · obtain ⟨more, rfl⟩ := hstar
      rw [if_pos (h.follows_cons (by decide)), h.advance_ascii (by decide), some_bind]
      exact (h.jump_ascii (by decide) (by decide)).blockComment
    · rw [if_neg fun hfollows ↦ hstar ((h.follows_iff (by decide)).1 hfollows),
        Segment.slash.eq_3 _ (fun more heq ↦ hslash ⟨more, heq⟩) fun more heq ↦ hstar ⟨more, heq⟩]
      exact ⟨_, rfl, h⟩

theorem string (h : Reading source front ['"'] rest s) :
    Reads source front (Segment.string rest) (s.string source) := by
  obtain ⟨behind, hskip, hbehind⟩ := h.skipString
  have hstop := List.head?_dropWhile_not (· ≠ '"') rest
  rw [ByteScanner.string, hskip, some_bind, Segment.string]
  generalize rest.takeWhile (· ≠ '"') = body at *
  generalize rest.dropWhile (· ≠ '"') = after at *
  cases after with
  | nil =>
    rw [if_pos hbehind.atEnd_nil]
    exact ⟨_, rfl, hbehind⟩
  | cons d after =>
    obtain rfl : d = '"' := by simpa using hstop
    have hsplit : source.toList = front ++ ['"'] ++ body ++ '"' :: after := by
      rw [hbehind.split, ← List.append_assoc front]
    have hslice := slice_eq hsplit
    have hstart : (utf8 (front ++ ['"'])).length = behind.start + 1 := by
      rw [utf8_append, List.length_append, hbehind.start]
      rfl
    have hclose : (utf8 (front ++ ['"'] ++ body)).length = behind.current := by
      rw [hbehind.current, List.append_assoc]
    rw [hstart, hclose] at hslice
    rw [if_neg (Bool.eq_false_iff.1 hbehind.atEnd_cons), hbehind.advance_ascii (by decide),
      some_bind]
    dsimp only
    rw [Nat.add_sub_cancel, hslice, some_bind]
    exact ⟨_, rfl, hbehind.jump_ascii (by decide) (by decide)⟩

/-! A number is read off its digits and its point. -/

theorem takeWhile_ne_point {text : List Char} (h : ∀ c ∈ text, c.isDigit = true) :
    text.takeWhile (· ≠ '.') = text := by
  apply List.takeWhile_eq_self_iff.2
  intro c hc
  rw [decide_eq_true_iff]
  rintro rfl
  exact Bool.noConfusion (h _ hc)

theorem numberOf_digits {text : List Char} (h : ∀ c ∈ text, c.isDigit = true) :
    numberOf text = .ofDigits text [] := by
  have hnone : text.dropWhile (· ≠ '.') = [] := by
    rw [← takeWhile_ne_point h, Segment.dropWhile_takeWhile]
  rw [numberOf, takeWhile_ne_point h, hnone]
  rfl

theorem numberOf_point {whole more : List Char} (h : ∀ c ∈ whole, c.isDigit = true) :
    numberOf (whole ++ '.' :: more) = .ofDigits whole more := by
  have hnone : whole.dropWhile (· ≠ '.') = [] := by
    rw [← takeWhile_ne_point h, Segment.dropWhile_takeWhile]
  rw [numberOf, Segment.takeWhile_append_stop (by decide), takeWhile_ne_point h,
    Segment.dropWhile_append_stop (by decide), hnone]
  rfl

theorem skipDigits {text : List Char} (h : Reading source front text rest s) :
    ∃ behind, s.skipWhile source isDigit = .some behind ∧
      Reading source front (text ++ rest.takeWhile Char.isDigit) (rest.dropWhile Char.isDigit)
        behind :=
  h.skipWhile isDigit_of_le (by decide) (by decide)

theorem fraction {text : List Char} (h : Reading source front text rest s)
    (hno : ∀ digit more, rest = '.' :: digit :: more → digit.isDigit = false) :
    s.fraction source = .some s := by
  rw [ByteScanner.fraction, if_neg]
  · rfl
  · rw [Bool.and_eq_true, decide_eq_true_iff]
    rintro ⟨hpoint, hdigit⟩
    cases rest with
    | nil =>
      rw [h.peek_nil] at hpoint
      cases hpoint
    | cons d rest =>
      have hmem := h.peek_cons
      rw [hpoint, mem_utf8EncodeChar_iff (by decide)] at hmem
      subst hmem
      have hbehind := h.jump_ascii (by decide) (by decide)
      cases rest with
      | nil =>
        rw [hbehind.peek_nil] at hdigit
        cases hdigit
      | cons digit rest =>
        have hsame := eq_of_mem isDigit_of_le hbehind.peek_cons
        have hdigit' := hsame.symm.trans hdigit
        rw [hno digit rest rfl] at hdigit'
        cases hdigit'

theorem fraction_point {text : List Char} {digit : Char}
    (h : Reading source front text ('.' :: digit :: rest) s) (hdigit : digit.isDigit = true) :
    ∃ behind, s.fraction source = .some behind ∧
      Reading source front (text ++ '.' :: digit :: rest.takeWhile Char.isDigit)
        (rest.dropWhile Char.isDigit) behind := by
  have hpoint := h.jump_ascii (by decide) (by decide)
  obtain ⟨behind, hskip, hbehind⟩ := hpoint.skipDigits
  rw [List.takeWhile_cons_of_pos hdigit, List.dropWhile_cons_of_pos hdigit,
    List.append_assoc] at hbehind
  refine ⟨behind, ?_, hbehind⟩
  have hpeek : isDigit (peek source (s.current + 1)) = true :=
    (eq_of_mem isDigit_of_le hpoint.peek_cons).trans hdigit
  rw [ByteScanner.fraction, h.peek_ascii (by decide), hpeek, if_pos (by decide), h.advance_cons,
    some_bind]
  exact hskip

theorem number (h : Reading source front [c] rest s) (hc : c.isDigit = true) :
    Reads source front (Segment.number c rest) (s.number source) := by
  obtain ⟨whole, hskip, hwhole⟩ := h.skipDigits
  have hdigits : ∀ d ∈ [c] ++ rest.takeWhile Char.isDigit, d.isDigit = true :=
    List.forall_mem_cons.2 ⟨hc, fun _ hd ↦ List.mem_takeWhile_imp hd⟩
  rw [ByteScanner.number, hskip, some_bind]
  by_cases hpoint : ∃ digit after, rest.dropWhile Char.isDigit = '.' :: digit :: after ∧
      digit.isDigit = true
  · obtain ⟨digit, after, hafter, hdigit⟩ := hpoint
    rw [hafter] at hwhole
    obtain ⟨behind, hfraction, hbehind⟩ := hwhole.fraction_point hdigit
    rw [Segment.number_of_point hafter hdigit, hfraction, some_bind, hbehind.slice, some_bind,
      String.toList_ofList, numberOf_point hdigits]
    exact ⟨behind, rfl, hbehind⟩
  · have hno : ∀ digit after, rest.dropWhile Char.isDigit = '.' :: digit :: after →
        digit.isDigit = false := by
      intro digit after hafter
      exact Bool.eq_false_iff.2 fun hdigit ↦ hpoint ⟨digit, after, hafter, hdigit⟩
    rw [Segment.number_of_no_point hno, hwhole.fraction hno, some_bind, hwhole.slice, some_bind,
      String.toList_ofList, numberOf_digits hdigits]
    exact ⟨whole, rfl, hwhole⟩

theorem word (h : Reading source front [c] rest s) :
    Reads source front (Segment.word c rest) (s.word source) := by
  obtain ⟨behind, hskip, hbehind⟩ := h.skipWhile isWordRest_of_le (by decide) (by decide)
  have hskip' : s.skipWhile source isWordRest = .some behind := hskip
  rw [ByteScanner.word, hskip', some_bind, hbehind.slice, some_bind]
  exact ⟨behind, rfl, hbehind⟩

/-- Only the first byte has been read, but the whole character is named and left behind. -/
theorem unexpected (h : Reading source front [] (c :: rest) s) (hc : c ≠ '\n') :
    Reads source front (⟨.fault (.unexpected c), [c]⟩, rest)
      (ByteScanner.unexpected source { s with current := s.current + 1 }) := by
  have hslice : ByteScanner.slice source s.start (bytes source).length =
      .some (.ofList (c :: rest)) := by
    have hsplit : source.toList = front ++ (c :: rest) ++ [] := by
      rw [h.split, List.append_nil, List.append_nil]
    rw [h.start, bytes_eq, h.split, List.append_nil]
    exact slice_eq hsplit
  have hstart : s.start = s.current := by rw [h.start, h.current, List.append_nil]
  have hjump := h.jump_cons hc
  rw [utf8_singleton, String.length_utf8EncodeChar, ← hstart] at hjump
  rw [ByteScanner.unexpected, hslice, some_bind, String.toList_ofList]
  exact ⟨_, rfl, hjump⟩

/-- A segment of a source is read as it is cut. -/
theorem segment (h : Reading source front [] (c :: rest) s) :
    Reads source front (Segment.next c rest) (s.segment source) := by
  have hopening := eq_of_mem opening_of_le h.peek_cons
  have hsuits := Segment.suits_opening c
  rw [ByteScanner.segment, h.advance_cons, some_bind, Segment.next_eq]
  dsimp only
  rw [hopening]
  have hascii : Segment.opening c ≠ .unexpected → c.toNat < 128 := lt_of_suits hsuits
  have hnewline : Segment.opening c ≠ .blank → c ≠ '\n' := by
    rintro hne rfl
    exact hne rfl
  cases ho : Segment.opening c with
  | single kind =>
    rw [ho] at hascii hnewline
    exact ⟨_, rfl, h.jump_ascii (hascii nofun) (hnewline nofun)⟩
  | operator short long =>
    rw [ho] at hascii hnewline
    exact (h.jump_ascii (hascii nofun) (hnewline nofun)).operator
  | blank =>
    rw [ho] at hascii
    rw [h.peek_ascii (hascii nofun)]
    by_cases hc : c = '\n'
    · subst hc
      exact ⟨_, rfl, h.newline⟩
    · have hbyte : c.toUInt8 ≠ '\n'.toUInt8 := by
        intro hbyte
        apply hc
        rw [← character_toUInt8 (hascii nofun), hbyte]
        rfl
      rw [if_neg hbyte]
      exact ⟨_, rfl, h.jump_ascii (hascii nofun) hc⟩
  | slash =>
    rw [ho] at hsuits
    obtain rfl : c = '/' := hsuits
    exact (h.jump_ascii (by decide) (by decide)).slash
  | string =>
    rw [ho] at hsuits
    obtain rfl : c = '"' := hsuits
    exact (h.jump_ascii (by decide) (by decide)).string
  | number =>
    rw [ho] at hsuits hascii hnewline
    exact (h.jump_ascii (hascii nofun) (hnewline nofun)).number hsuits
  | word =>
    rw [ho] at hascii hnewline
    exact (h.jump_ascii (hascii nofun) (hnewline nofun)).word
  | unexpected =>
    rw [ho] at hnewline
    exact h.unexpected (hnewline nofun)

end Reading

/-! ### Items and requests -/

/-- A scanner has passed over a text that lies behind where it was. -/
structure Takes (source : String) (s behind : ByteScanner) (text : String) : Prop where
  ordered : s.current ≤ behind.start
  advances : behind.start < behind.current
  slice : slice source behind.start behind.current = .some text

/-- How a scanner moves when it is asked.  The end token is given at the end of the source, and then
the scanner stays where it is.  Any other item is given for a text that has been passed over: the
text of a token, the one character that is unexpected, or all that is left. -/
inductive Moves (source : String) (s behind : ByteScanner) : Option Item → Prop
  | stays (hfinished : s.finished = true) (hbehind : behind = s) : Moves source s behind none
  | ends {t : Token} (hkind : t.kind = .endOfInput) (hfinished : behind.finished = true)
      (hcurrent : behind.current = source.utf8ByteSize) : Moves source s behind (some (.token t))
  | token {t : Token} (hkind : t.kind ≠ .endOfInput) (htakes : Takes source s behind t.lexeme) :
      Moves source s behind (some (.token t))
  | unexpected {line : Nat} {c : Char} (htakes : Takes source s behind (.singleton c)) :
      Moves source s behind (some (.fault line (.unexpected c)))
  | unterminated {line : Nat} {cause : LexicalFault} {text : String}
      (hcause : ∀ c, cause ≠ .unexpected c) (htakes : Takes source s behind text)
      (hcurrent : behind.current = source.utf8ByteSize) :
      Moves source s behind (some (.fault line cause))

theorem Takes.mono {source text : String} {s between behind : ByteScanner}
    (h : Takes source between behind text) (hle : s.current ≤ between.current) :
    Takes source s behind text where
  ordered := hle.trans h.ordered
  advances := h.advances
  slice := h.slice

theorem Moves.mono {source : String} {s between behind : ByteScanner} {item : Item}
    (h : Moves source between behind (some item)) (hle : s.current ≤ between.current) :
    Moves source s behind (some item) := by
  cases h with
  | ends hkind hfinished hcurrent => exact .ends hkind hfinished hcurrent
  | token hkind htakes => exact .token hkind (htakes.mono hle)
  | unexpected htakes => exact .unexpected (htakes.mono hle)
  | unterminated hcause htakes hcurrent => exact .unterminated hcause (htakes.mono hle) hcurrent

/-- A scanner of bytes and one of characters stand at the same place. -/
inductive Matches (source : String) : ByteScanner → Cursor → Prop
  | standing {s : ByteScanner} {front rest : List Char}
      (h : Reading source front [] rest { s with start := s.current }) :
      Matches source s ⟨rest, Position.start.after front, false⟩
  | finished {s : ByteScanner} {position : Position} (hfinished : s.finished = true)
      (hcurrent : s.current = source.utf8ByteSize) : Matches source s ⟨[], position, true⟩

namespace Reading

variable {source : String} {front text rest : List Char} {s behind : ByteScanner}

theorem takes (h : Reading source front text rest behind) (htext : text ≠ [])
    (hstart : s.current = (utf8 front).length) : Takes source s behind (.ofList text) where
  ordered := by rw [hstart, h.start]
  advances := by
    have hpos := List.length_pos_iff.2 (utf8_ne_nil htext)
    rw [h.start, h.current, utf8_append, List.length_append]
    omega
  slice := h.slice

theorem current_of_nil (h : Reading source front text [] s) : s.current = source.utf8ByteSize := by
  have hlength := h.length
  rw [length_bytes] at hlength
  exact hlength.symm

/-- A segment yields what it yields for the scanner of characters. -/
theorem yield (h : Reading source front text rest behind) (role : Role) :
    behind.yield source (Position.start.after front).line (Position.start.after front).column
        (Finding.ofRole role) =
      .some (Item.ofSegment? (Position.start.after front) ⟨role, text⟩) := by
  cases role with
  | token kind =>
    rw [Finding.ofRole, ByteScanner.yield, h.slice]
    exact some_bind ..
  | fault cause =>
    rw [Item.ofSegment?, ← Position.after_append, h.position]
    rfl
  | blank => rfl
  | comment => rfl

/-- How a scanner moves over a segment that yields an item. -/
theorem moves {role : Role} {item : Item} (h : Reading source front text rest behind)
    (hshape : Segment.Shape role text rest) (htext : text ≠ [])
    (hstart : s.current = (utf8 front).length) (p : Position)
    (hitem : Item.ofSegment? p ⟨role, text⟩ = some item) : Moves source s behind (some item) := by
  have htakes := h.takes htext hstart
  cases hshape with
  | token hkind =>
    cases hitem
    exact .token hkind htakes
  | unexpected hunexpected =>
    cases hitem
    exact .unexpected htakes
  | unterminatedString hbody =>
    cases hitem
    exact .unterminated nofun htakes h.current_of_nil
  | unterminatedComment hbody =>
    cases hitem
    exact .unterminated nofun htakes h.current_of_nil
  | blank => cases hitem
  | lineComment => cases hitem
  | blockComment => cases hitem

/-- A scanner of bytes finds the item that the scanner of characters finds. -/
theorem find (h : Reading source front [] rest { s with start := s.current }) :
    ∃ behind, s.find source = .some ((Cursor.find (Position.start.after front) rest).1, behind) ∧
      Matches source behind (Cursor.find (Position.start.after front) rest).2 ∧
      Moves source s behind (some (Cursor.find (Position.start.after front) rest).1) := by
  -- Blanks and comments are passed over before the next segment is read, so the induction is on the
  -- segments of the text that is left.
  induction rest using Segment.next_induction generalizing front s with
  | nil =>
    have hend : s.atEnd source = true := h.atEnd_nil
    have hposition := h.position
    rw [List.append_nil] at hposition
    have hcolumn : s.column s.current = .some (columnAt (bytes source) s.current) := h.column
    rw [Cursor.find, Item.endToken, hposition]
    refine ⟨{ s with finished := true }, ?_, .finished rfl h.current_of_nil,
      .ends rfl rfl h.current_of_nil⟩
    apply Part.eq_some_iff.2
    apply PFun.fix_stop
    rw [round, if_pos hend, hcolumn, some_bind]
    exact Part.mem_some _
  | cons c rest ih =>
    obtain ⟨behind, hsegment, hbehind⟩ := h.segment
    have hend : s.atEnd source = false := h.atEnd_cons
    have hposition := h.position
    rw [List.append_nil] at hposition
    have hcurrent : s.current = (utf8 front).length := by
      rw [← List.append_nil front]
      exact h.current
    have hyield := hbehind.yield (Segment.next c rest).1.role
    have hround : s.round source =
        (Item.ofSegment? (Position.start.after front) (Segment.next c rest).1).elim
          (Part.some (.inr behind)) fun item ↦ Part.some (.inl (item, behind)) := by
      rw [hposition] at hyield ⊢
      rw [round, if_neg (Bool.eq_false_iff.1 hend)]
      dsimp only
      rw [h.column, some_bind, hsegment, some_bind]
      dsimp only
      rewrite [hyield, some_bind]
      cases Item.ofSegment? _ (Segment.next c rest).1 with
      | some item => rfl
      | none => rfl
    rw [Cursor.find]
    cases hitem : Item.ofSegment? (Position.start.after front) (Segment.next c rest).1 with
    | some item =>
      rw [hitem] at hround
      refine ⟨behind, ?_, ?_, hbehind.moves (Segment.shape_next c rest)
        (Segment.cutFrom_next c rest).1 hcurrent _ hitem⟩
      · apply Part.eq_some_iff.2
        apply PFun.fix_stop
        rw [hround]
        exact Part.mem_some _
      · rw [← Position.after_append]
        exact .standing hbehind.restart
    | none =>
      rw [hitem] at hround
      obtain ⟨last, hfind, hmatches, hlast⟩ := ih hbehind.restart
      rw [Position.after_append] at hfind hmatches hlast
      have hle : s.current ≤ behind.current := by
        rw [hcurrent, hbehind.current, utf8_append, List.length_append]
        omega
      refine ⟨last, ?_, hmatches, hlast.mono hle⟩
      rw [← hfind]
      apply PFun.fix_fwd_eq
      rw [hround]
      exact Part.mem_some _

end Reading

namespace Matches

variable {source : String} {s : ByteScanner} {cursor : Cursor}

theorem next (h : Matches source s cursor) :
    ∃ behind, s.next source = .some (cursor.next.1, behind) ∧
      Matches source behind cursor.next.2 ∧ Moves source s behind cursor.next.1 := by
  cases h with
  | @standing front rest h =>
    obtain ⟨behind, hfind, hmatches, hmoves⟩ := h.find
    refine ⟨behind, ?_, hmatches, hmoves⟩
    have hunfinished : ¬s.finished = true := Bool.eq_false_iff.1 h.unfinished
    rw [ByteScanner.next, if_neg hunfinished, hfind, some_bind]
    rfl
  | finished hfinished hcurrent =>
    refine ⟨s, ?_, .finished hfinished hcurrent, .stays hfinished rfl⟩
    rw [ByteScanner.next, if_pos hfinished]
    rfl

theorem start (source : String) : Matches source {} (Cursor.start source) := by
  have h : Reading source [] [] source.toList {} := ⟨rfl, rfl, rfl, rfl, rfl, rfl⟩
  exact @standing source {} [] source.toList h

/-- Between two characters, and not behind the end. -/
theorem bounds (h : Matches source s cursor) :
    s.current ≤ source.utf8ByteSize ∧ String.Pos.Raw.IsValid source ⟨s.current⟩ := by
  cases h with
  | @standing front rest h =>
    have hlength := h.length
    have hcurrent := h.current
    rw [length_bytes] at hlength
    rw [List.append_nil] at hcurrent
    dsimp only at hlength hcurrent
    have hsplit := h.split
    rw [List.append_nil] at hsplit
    refine ⟨by omega, ?_⟩
    rw [hcurrent]
    exact isValid_of_split hsplit
  | finished hfinished hcurrent =>
    rw [hcurrent]
    exact ⟨Nat.le_refl _, String.Pos.Raw.isValid_rawEndPos⟩

/-- However often it has been asked, the scanner of bytes has kept up with the cursor. -/
theorem after (source : String) (asked : Nat) : ∃ s cursor,
    ByteScanner.after source asked = .some s ∧ Matches source s cursor ∧
      cursor.remaining = (scan source).drop asked := by
  induction asked with
  | zero => exact ⟨{}, Cursor.start source, rfl, start source, rfl⟩
  | succ asked ih =>
    obtain ⟨s, cursor, hafter, hmatches, hremaining⟩ := ih
    obtain ⟨behind, hnext, hbehind, -⟩ := hmatches.next
    refine ⟨behind, cursor.next.2, ?_, hbehind, ?_⟩
    · rw [ByteScanner.after, hafter, some_bind, hnext]
      exact some_bind ..
    · rw [cursor.next_eq.2, hremaining, List.tail_drop]

end Matches

end ByteScanner

/-- Scanning a source is safe and complete.  However often it has been asked, the scanner of bytes
has an answer: it comes to an end, reads no byte behind the end and takes no slice but between two
characters.  The answers are the items of the source in order, and nothing from then on; before the
end each of them moves the scanner on, over the text of a token or over the one character that is
unexpected.  The unexpected characters outside strings and comments are reported once each. -/
theorem scanned_safely (source : String) :
    (∀ asked, ∃ s item behind, ByteScanner.after source asked = .some s ∧
      s.next source = .some (item, behind) ∧ item = (scan source)[asked]? ∧
      behind.current ≤ source.utf8ByteSize ∧
      String.Pos.Raw.IsValid source ⟨behind.current⟩ ∧
      ByteScanner.Moves source s behind item) ∧
    (scan source).filterMap Item.stray? = Segment.strays source.toList := by
  refine ⟨fun asked ↦ ?_, strays_reported source⟩
  obtain ⟨s, cursor, hafter, hmatches, hremaining⟩ := ByteScanner.Matches.after source asked
  obtain ⟨behind, hnext, hbehind, hmoves⟩ := hmatches.next
  obtain ⟨hle, hvalid⟩ := hbehind.bounds
  have hitem : cursor.next.1 = (scan source)[asked]? := by
    rw [cursor.next_eq.1, hremaining, List.head?_drop]
  exact ⟨s, cursor.next.1, behind, hafter, hnext, hitem, hle, hvalid, hmoves⟩

end Lox
