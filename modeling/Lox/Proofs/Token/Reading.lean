import Lox.Proofs.Token.ByteScanner

/-!
# Where a scanner of bytes stands

No byte of a character outside ASCII is an ASCII character, so whatever a scanner of bytes looks for
stands where a character starts.  A scanner that stands between two characters (`Reading`) stands
between two characters again when it has read on, and it keeps its line and the start of the line.
-/

namespace Lox

namespace ByteScanner

section Bytes

variable {list body more : List UInt8} {i n : Nat}

theorem lineAt_add (list : List UInt8) (i n : Nat) :
    lineAt list (i + n) = lineAt list i + ((list.drop i).take n).count '\n'.toUInt8 := by
  calc lineAt list (i + n)
    _ = 1 + (list.take i ++ (list.drop i).take n).count '\n'.toUInt8 := by
      rw [lineAt, List.take_add]
    _ = lineAt list i + ((list.drop i).take n).count '\n'.toUInt8 := by
      rw [List.count_append, ← Nat.add_assoc, lineAt]

theorem all_ne_of_notMem {byte : UInt8} (h : byte ∉ list) :
    ∀ other ∈ list.reverse, decide (other ≠ byte) = true := by
  intro other hother
  rw [decide_eq_true_iff]
  rintro rfl
  exact h (List.mem_reverse.1 hother)

theorem columnAt_add (hlength : i + n ≤ list.length)
    (hno : '\n'.toUInt8 ∉ (list.drop i).take n) : columnAt list (i + n) = columnAt list i + n := by
  have hlast : ((list.drop i).take n).reverse.length = n := by
    rw [List.length_reverse, List.length_take, List.length_drop]
    omega
  calc columnAt list (i + n)
    _ = 1 + ((((list.drop i).take n).reverse ++ (list.take i).reverse).takeWhile
        (· ≠ '\n'.toUInt8)).length := by rw [columnAt, List.take_add, List.reverse_append]
    _ = 1 + (n + ((list.take i).reverse.takeWhile (· ≠ '\n'.toUInt8)).length) := by
      rw [List.takeWhile_append_of_pos (all_ne_of_notMem hno), List.length_append, hlast]
    _ = columnAt list i + n := by
      rw [columnAt]
      omega

theorem columnAt_behind (hbody : (list.drop i).take n = body ++ '\n'.toUInt8 :: more)
    (hno : '\n'.toUInt8 ∉ more) : columnAt list (i + n) = 1 + more.length := by
  have hreverse : (list.take (i + n)).reverse =
      more.reverse ++ '\n'.toUInt8 :: (list.take i ++ body).reverse := by
    rw [List.take_add, hbody]
    simp
  calc columnAt list (i + n)
    _ = 1 + ((more.reverse ++ '\n'.toUInt8 :: (list.take i ++ body).reverse).takeWhile
        (· ≠ '\n'.toUInt8)).length := by rw [columnAt, hreverse]
    _ = 1 + more.reverse.length := by
      rw [List.takeWhile_append_of_pos (all_ne_of_notMem hno),
        List.takeWhile_cons_of_neg (by simp), List.append_nil]
    _ = 1 + more.length := by rw [List.length_reverse]

theorem lastIdx?_cases (byte : UInt8) (list : List UInt8) :
    lastIdx? byte list = none ∧ byte ∉ list ∨
      ∃ front back, list = front ++ byte :: back ∧ byte ∉ back ∧
        lastIdx? byte list = some front.length := by
  induction list with
  | nil => exact .inl ⟨rfl, List.not_mem_nil⟩
  | cons first rest ih =>
    rw [lastIdx?]
    rcases ih with ⟨hnone, hno⟩ | ⟨front, back, rfl, hback, hsome⟩
    · rw [hnone]
      by_cases hfirst : first = byte
      · exact .inr ⟨[], rest, by rw [hfirst]; rfl, hno, if_pos hfirst⟩
      · refine .inl ⟨if_neg hfirst, fun hmem ↦ ?_⟩
        rcases List.mem_cons.1 hmem with rfl | hmem
        · exact hfirst rfl
        · exact hno hmem
    · rw [hsome]
      exact .inr ⟨first :: front, back, rfl, hback, rfl⟩

theorem commentEnd?_append (h : ¬['*'.toUInt8, '/'.toUInt8] <:+: body ++ ['*'.toUInt8]) :
    commentEnd? (body ++ '*'.toUInt8 :: '/'.toUInt8 :: more) = some body.length := by
  induction body with
  | nil => rfl
  | cons byte body ih =>
    rw [List.cons_append, List.infix_cons_iff, not_or] at h
    obtain ⟨hfirst, hlater⟩ := h
    rw [List.cons_append, commentEnd?, if_neg, ih hlater]
    · rfl
    · rintro ⟨rfl, hslash⟩
      rw [List.cons_prefix_cons] at hfirst
      refine hfirst ⟨rfl, ?_⟩
      cases body with
      | nil => cases hslash
      | cons next body =>
        cases hslash
        exact List.prefix_append ['/'.toUInt8] _

theorem commentEnd?_eq_none (h : ¬['*'.toUInt8, '/'.toUInt8] <:+: list) :
    commentEnd? list = none := by
  induction list with
  | nil => rfl
  | cons byte list ih =>
    rw [List.infix_cons_iff, not_or] at h
    obtain ⟨hfirst, hlater⟩ := h
    rw [commentEnd?, if_neg, ih hlater]
    · rfl
    · rintro ⟨rfl, hslash⟩
      rw [List.cons_prefix_cons] at hfirst
      refine hfirst ⟨rfl, ?_⟩
      cases list with
      | nil => cases hslash
      | cons next list =>
        cases hslash
        exact List.prefix_append ['/'.toUInt8] _

end Bytes

/-! ### Bytes and characters -/

section Characters

variable {c : Char} {byte : UInt8}

theorem toNat_character (byte : UInt8) : (character byte).toNat = byte.toNat := by
  have hbyte := byte.toNat_lt
  have hvalid : byte.toNat.isValidChar := .inl (by omega)
  rw [character, Char.ofNat, dif_pos hvalid]
  rfl

theorem character_toUInt8 (hc : c.toNat < 128) : character c.toUInt8 = c := by
  rw [← Char.toNat_inj, toNat_character, toNat_toUInt8 hc]

/-- The bytes of a character are like the character itself, or all beyond ASCII as it is. -/
theorem character_of_mem (hbyte : byte ∈ String.utf8EncodeChar c) :
    character byte = c ∨ 128 ≤ (character byte).toNat ∧ 128 ≤ c.toNat := by
  by_cases hc : c.toNat < 128
  · rw [utf8EncodeChar_of_ascii hc, List.mem_singleton] at hbyte
    rw [hbyte]
    exact .inl (character_toUInt8 hc)
  · have hc' := Nat.not_lt.1 hc
    refine .inr ⟨?_, hc'⟩
    rw [toNat_character]
    exact le_of_mem_utf8EncodeChar hc' hbyte

/-- What is the same for all characters beyond ASCII can be told by any byte of a character. -/
theorem eq_of_mem {α : Type} {f : Char → α} {beyond : α}
    (hf : ∀ c, 128 ≤ c.toNat → f c = beyond) (hbyte : byte ∈ String.utf8EncodeChar c) :
    f (character byte) = f c := by
  rcases character_of_mem hbyte with heq | ⟨hbeyond, hbeyond'⟩
  · rw [heq]
  · rw [hf _ hbeyond, hf _ hbeyond']

theorem lt_of_isAlphanum (h : c.isAlphanum = true) : c.toNat < 128 := by
  have hle : c.val ≤ 'Z'.val ∨ c.val ≤ 'z'.val ∨ c.val ≤ '9'.val := by
    rcases Bool.or_eq_true_iff.1 h with halpha | hdigit
    · rcases Bool.or_eq_true_iff.1 halpha with hupper | hlower
      · exact .inl (of_decide_eq_true hupper).2
      · exact .inr (.inl (of_decide_eq_true (Bool.and_eq_true_iff.1 hlower).2))
    · exact .inr (.inr (of_decide_eq_true (Bool.and_eq_true_iff.1 hdigit).2))
  simp only [UInt32.le_iff_toNat_le] at hle
  have hval : c.toNat = c.val.toNat := rfl
  have hupper : 'Z'.val.toNat = 90 := rfl
  have hlower : 'z'.val.toNat = 122 := rfl
  have hdigit : '9'.val.toNat = 57 := rfl
  omega

theorem isAlphanum_of_le (hc : 128 ≤ c.toNat) : c.isAlphanum = false := by
  rw [Bool.eq_false_iff]
  intro h
  have hlt := lt_of_isAlphanum h
  omega

theorem isDigit_of_le (c : Char) (hc : 128 ≤ c.toNat) : c.isDigit = false :=
  (Bool.or_eq_false_iff.1 (isAlphanum_of_le hc)).2

theorem ne_of_le {a : Char} (ha : a.toNat < 128) (hc : 128 ≤ c.toNat) : c ≠ a := by
  rintro rfl
  omega

theorem isWordRest_of_le (c : Char) (hc : 128 ≤ c.toNat) : Segment.isWordRest c = false := by
  rw [Segment.isWordRest, isAlphanum_of_le hc, decide_eq_false (ne_of_le (by decide) hc)]
  rfl

/-- Whatever starts a token, a blank or a comment is an ASCII character. -/
theorem lt_of_suits {o : Segment.Opening} (h : o.Suits c) (ho : o ≠ .unexpected) :
    c.toNat < 128 := by
  by_contra hlt
  have hc := Nat.not_lt.1 hlt
  cases o with
  | single kind =>
    have hsingle : Segment.single? c = some kind := h
    unfold Segment.single? at hsingle
    split at hsingle
    all_goals first | exact hlt (by decide) | cases hsingle
  | operator short long =>
    have hextensible : Segment.extensible? c = some (short, long) := h
    unfold Segment.extensible? at hextensible
    split at hextensible
    all_goals first | exact hlt (by decide) | cases hextensible
  | blank =>
    rcases Segment.isBlank_cases h with rfl | rfl | rfl | rfl
    all_goals exact hlt (by decide)
  | slash => exact ne_of_le (by decide) hc h
  | string => exact ne_of_le (by decide) hc h
  | number => exact Bool.noConfusion (h.symm.trans (isDigit_of_le c hc))
  | word =>
    have hstart : (c.isAlpha || decide (c = '_')) = true := h
    rw [(Bool.or_eq_false_iff.1 (isAlphanum_of_le hc)).1,
      decide_eq_false (ne_of_le (by decide) hc)] at hstart
    cases hstart
  | unexpected => exact ho rfl

theorem opening_of_le (c : Char) (hc : 128 ≤ c.toNat) : Segment.opening c = .unexpected := by
  by_contra hne
  have hlt := lt_of_suits (Segment.suits_opening c) hne
  omega

/-- The first byte of a text, that of its first character. -/
theorem exists_utf8_cons (c : Char) (rest : List Char) :
    ∃ byte more, byte ∈ String.utf8EncodeChar c ∧ utf8 (c :: rest) = byte :: more := by
  obtain ⟨byte, more, hbytes⟩ := List.exists_cons_of_ne_nil (utf8EncodeChar_ne_nil c)
  refine ⟨byte, more ++ utf8 rest, ?_, ?_⟩
  · rw [hbytes]
    exact List.mem_cons_self
  · rw [utf8_cons, hbytes]
    rfl

end Characters

/-! ### Where a scanner stands -/

section Slices

variable {source : String} {front text rest : List Char}

theorem bytes_eq (source : String) : bytes source = utf8 source.toList :=
  toUTF8_eq source

theorem utf8ByteSize_ofList (text : List Char) :
    (String.ofList text).utf8ByteSize = (utf8 text).length := by
  calc (String.ofList text).utf8ByteSize
    _ = (bytes (String.ofList text)).length := by
      rw [← String.size_toByteArray, ByteArray.size, ← Array.length_toList]
      rfl
    _ = (utf8 (String.ofList text).toList).length := by rw [bytes_eq]
    _ = (utf8 text).length := by rw [String.toList_ofList]

theorem length_bytes (source : String) : (bytes source).length = source.utf8ByteSize := by
  rw [bytes_eq, ← utf8ByteSize_ofList, String.ofList_toList]

/-- Between two characters of a source a slice may start or end. -/
theorem isValid_of_split (h : source.toList = front ++ rest) :
    String.Pos.Raw.IsValid source ⟨(utf8 front).length⟩ := by
  apply String.Pos.Raw.isValid_iff_exists_append.2
  refine ⟨.ofList front, .ofList rest, ?_, ?_⟩
  · rw [← String.ofList_append, ← h, String.ofList_toList]
  · rw [← utf8ByteSize_ofList]
    rfl

theorem slice_eq (h : source.toList = front ++ text ++ rest) :
    slice source (utf8 front).length (utf8 (front ++ text)).length = .some (.ofList text) := by
  have hbytes : source.toByteArray.data.toList = utf8 (front ++ text ++ rest) := by
    rw [← h]
    exact toUTF8_eq source
  have hle : (utf8 front).length ≤ (utf8 (front ++ text)).length := by
    rw [utf8_append, List.length_append]
    omega
  have hrange : ((utf8 (front ++ text ++ rest)).drop (utf8 front).length).take
      ((utf8 (front ++ text)).length - (utf8 front).length) = utf8 text := by
    calc
      _ = ((utf8 front ++ (utf8 text ++ utf8 rest)).drop (utf8 front).length).take
          (utf8 text).length := by
        rw [List.append_assoc, utf8_append front, utf8_append front, utf8_append text,
          List.length_append, Nat.add_sub_cancel_left]
      _ = utf8 text := by rw [List.drop_left, List.take_left]
  have hstart : source.toList = front ++ (text ++ rest) := by rw [h, List.append_assoc]
  rw [slice, Part.assert_pos ⟨hle, isValid_of_split hstart, isValid_of_split h⟩, Part.some_inj,
    ← String.toByteArray_inj, String.toByteArray_extract]
  apply ByteArray.ext
  apply Array.toList_inj.1
  rw [ByteArray.data_extract, Array.toList_extract, hbytes, List.extract_eq_take_drop]
  calc
    _ = utf8 text := hrange
    _ = utf8 (String.ofList text).toList := by rw [String.toList_ofList]
    _ = bytes (String.ofList text) := (bytes_eq _).symm

end Slices

/-- A scanner stands between two characters: it has read the text `front` before the segment and
`text` of the segment, and `rest` is left.  The line and its first byte are those of this place. -/
structure Reading (source : String) (front text rest : List Char) (s : ByteScanner) : Prop where
  split : source.toList = front ++ text ++ rest
  start : s.start = (utf8 front).length
  current : s.current = (utf8 (front ++ text)).length
  line : s.line = lineAt (bytes source) s.current
  lineStart : s.lineStart + columnAt (bytes source) s.current = s.current + 1
  unfinished : s.finished = false

namespace Reading

variable {source : String} {front text more rest : List Char} {c : Char} {s : ByteScanner}

theorem drop (h : Reading source front text rest s) :
    (bytes source).drop s.current = utf8 rest := by
  calc (bytes source).drop s.current
    _ = (utf8 (front ++ text) ++ utf8 rest).drop (utf8 (front ++ text)).length := by
      rw [bytes_eq, h.split, h.current, utf8_append _ rest]
    _ = utf8 rest := List.drop_left ..

theorem length (h : Reading source front text rest s) :
    (bytes source).length = s.current + (utf8 rest).length := by
  rw [bytes_eq, h.split, h.current, utf8_append _ rest, List.length_append]

theorem getElem? (h : Reading source front text rest s) :
    (bytes source)[s.current]? = (utf8 rest).head? := by
  rw [← h.drop, List.head?_drop]

theorem atEnd_iff (h : Reading source front text rest s) :
    s.atEnd source = true ↔ rest = [] := by
  rw [atEnd, decide_eq_true_iff, h.length]
  constructor
  · intro hle
    by_contra hrest
    have hpos := List.length_pos_iff.2 (utf8_ne_nil hrest)
    omega
  · rintro rfl
    exact Nat.le_refl _

theorem atEnd_cons (h : Reading source front text (c :: rest) s) : s.atEnd source = false := by
  rw [Bool.eq_false_iff, ne_eq, h.atEnd_iff]
  exact List.cons_ne_nil c rest

theorem atEnd_nil (h : Reading source front text [] s) : s.atEnd source = true :=
  h.atEnd_iff.2 rfl

/-- At the end of a source one looks at a zero. -/
theorem peek_nil (h : Reading source front text [] s) : peek source s.current = 0 := by
  rw [peek, h.getElem?]
  rfl

/-- Elsewhere one looks at a byte of the next character. -/
theorem peek_cons (h : Reading source front text (c :: rest) s) :
    peek source s.current ∈ String.utf8EncodeChar c := by
  obtain ⟨byte, more, hbyte, hbytes⟩ := exists_utf8_cons c rest
  rw [peek, h.getElem?, hbytes]
  exact hbyte

theorem advance_cons (h : Reading source front text (c :: rest) s) :
    s.advance source =
      .some (peek source s.current, { s with current := s.current + 1 }) := by
  obtain ⟨byte, more, hbyte, hbytes⟩ := exists_utf8_cons c rest
  rw [advance, byteAt, peek, h.getElem?, hbytes]
  exact Part.bind_some ..

theorem peek_ascii (h : Reading source front text (c :: rest) s) (hc : c.toNat < 128) :
    peek source s.current = c.toUInt8 := by
  have hmem := h.peek_cons
  rwa [utf8EncodeChar_of_ascii hc, List.mem_singleton] at hmem

/-- A text has been read on with the lines in it counted. -/
theorem count (h : Reading source front text (more ++ rest) s) :
    Reading source front (text ++ more) rest
      { s.countLines (utf8 more) with current := s.current + (utf8 more).length } := by
  have hmore : ((bytes source).drop s.current).take (utf8 more).length = utf8 more := by
    rw [h.drop, utf8_append, List.take_left]
  have hlength : s.current + (utf8 more).length ≤ (bytes source).length := by
    rw [h.length, utf8_append, List.length_append]
    omega
  have hsplit : source.toList = front ++ (text ++ more) ++ rest := by
    rw [h.split, List.append_assoc, List.append_assoc, List.append_assoc]
  have hcurrent : s.current + (utf8 more).length = (utf8 (front ++ (text ++ more))).length := by
    rw [h.current, ← List.append_assoc, utf8_append _ more, List.length_append]
  have hline := lineAt_add (bytes source) s.current (utf8 more).length
  rw [hmore, ← h.line] at hline
  have hlineStart := h.lineStart
  rcases lastIdx?_cases '\n'.toUInt8 (utf8 more) with
    ⟨hnone, hno⟩ | ⟨body, behind, hbody, hno, hlast⟩
  · have hcolumn := columnAt_add hlength (by rwa [hmore])
    rw [List.count_eq_zero_of_not_mem hno] at hline
    rw [countLines, hnone]
    exact ⟨hsplit, h.start, hcurrent, hline.symm, by dsimp only; omega, h.unfinished⟩
  · have hcolumn := columnAt_behind (hmore.trans hbody) hno
    have hsize := congrArg List.length hbody
    rw [List.length_append, List.length_cons] at hsize
    rw [countLines, hlast]
    exact ⟨hsplit, h.start, hcurrent, hline.symm, by dsimp only; omega, h.unfinished⟩

/-- A text without a newline has been read on. -/
theorem jump (h : Reading source front text (more ++ rest) s) (hno : '\n' ∉ more) :
    Reading source front (text ++ more) rest
      { s with current := s.current + (utf8 more).length } := by
  have hcount := h.count
  rcases lastIdx?_cases '\n'.toUInt8 (utf8 more) with ⟨hnone, -⟩ | ⟨body, behind, hbody, -, -⟩
  · rwa [countLines, hnone] at hcount
  · refine absurd ((mem_utf8_iff (by decide)).1 ?_) hno
    rw [hbody]
    exact List.mem_append_right _ List.mem_cons_self

theorem jump_cons (h : Reading source front text (c :: rest) s) (hne : c ≠ '\n') :
    Reading source front (text ++ [c]) rest
      { s with current := s.current + (utf8 [c]).length } := by
  have hsplit : Reading source front text ([c] ++ rest) s := h
  exact hsplit.jump fun hmem ↦ hne (List.mem_singleton.1 hmem).symm

theorem jump_ascii (h : Reading source front text (c :: rest) s) (hc : c.toNat < 128)
    (hne : c ≠ '\n') :
    Reading source front (text ++ [c]) rest { s with current := s.current + 1 } := by
  have hjump := h.jump_cons hne
  rwa [utf8_cons_of_ascii hc] at hjump

theorem newline (h : Reading source front text ('\n' :: rest) s) :
    Reading source front (text ++ ['\n']) rest
      (ByteScanner.newline { s with current := s.current + 1 } s.current) := by
  have hsplit : Reading source front text (['\n'] ++ rest) s := h
  exact hsplit.count

theorem follows_iff (h : Reading source front text rest s) (hc : c.toNat < 128) :
    s.follows source c = true ↔ ∃ more, rest = c :: more := by
  rw [follows, Bool.and_eq_true, Bool.not_eq_true', Bool.eq_false_iff, ne_eq, h.atEnd_iff,
    decide_eq_true_iff]
  cases rest with
  | nil => exact ⟨fun hnot ↦ absurd rfl hnot.1, nofun⟩
  | cons d rest =>
    constructor
    · rintro ⟨-, hpeek⟩
      have hmem := h.peek_cons
      rw [hpeek, mem_utf8EncodeChar_iff hc] at hmem
      exact ⟨rest, by rw [hmem]⟩
    · rintro ⟨more, heq⟩
      obtain ⟨rfl, rfl⟩ := List.cons.inj heq
      exact ⟨List.cons_ne_nil d rest, h.peek_ascii hc⟩

theorem follows_cons (h : Reading source front text (c :: rest) s) (hc : c.toNat < 128) :
    s.follows source c = true :=
  (h.follows_iff hc).2 ⟨rest, rfl⟩

theorem not_follows (h : Reading source front text rest s) (hc : c.toNat < 128)
    (hne : ∀ more, rest ≠ c :: more) : ¬s.follows source c = true := by
  rw [h.follows_iff hc]
  rintro ⟨more, heq⟩
  exact hne more heq

/-- The text of the segment is a slice. -/
theorem slice (h : Reading source front text rest s) :
    slice source s.start s.current = .some (.ofList text) := by
  rw [h.start, h.current]
  exact slice_eq h.split

theorem range (h : Reading source front text (more ++ rest) s) :
    range source s.current (s.current + (utf8 more).length) = .some (utf8 more) := by
  have hlength := h.length
  rw [utf8_append, List.length_append] at hlength
  calc ByteScanner.range source s.current (s.current + (utf8 more).length)
    _ = .some (((bytes source).drop s.current).take (utf8 more).length) := by
      rw [ByteScanner.range, Part.assert_pos ⟨by omega, by omega⟩, List.drop_take,
        Nat.add_sub_cancel_left]
    _ = .some ((utf8 more ++ utf8 rest).take (utf8 more).length) := by rw [h.drop, utf8_append]
    _ = .some (utf8 more) := by rw [List.take_left]

theorem range_rest (h : Reading source front text rest s) :
    ByteScanner.range source s.current (bytes source).length = .some (utf8 rest) := by
  have hsplit : Reading source front text (rest ++ []) s := by rwa [List.append_nil]
  rw [h.length]
  exact hsplit.range

theorem column (h : Reading source front text rest s) :
    s.column s.current = .some (columnAt (bytes source) s.current) := by
  have hlineStart := h.lineStart
  have hpos : 1 ≤ columnAt (bytes source) s.current := Nat.le_add_right ..
  rw [ByteScanner.column, Part.assert_pos (by omega), Part.some_inj]
  omega

/-- The next segment starts where this one ends. -/
theorem restart (h : Reading source front text rest s) :
    Reading source (front ++ text) [] rest { s with start := s.current } where
  split := by rw [h.split, List.append_nil]
  start := h.current
  current := by rw [List.append_nil]; exact h.current
  line := h.line
  lineStart := h.lineStart
  unfinished := h.unfinished

theorem position (h : Reading source front text rest s) :
    Position.start.after (front ++ text) = ⟨s.line, columnAt (bytes source) s.current⟩ := by
  rw [after_start_append _ rest, h.line, bytes_eq, h.split, h.current]

/-! ### Loops -/

section SkipWhile

variable {q : Char → Bool} (hq : ∀ c, 128 ≤ c.toNat → q c = false) (hnewline : q '\n' = false)
  (hzero : q '\x00' = false)

include hq hnewline hzero

/-- Bytes that only ASCII characters have are skipped as these characters are. -/
theorem skipWhile (h : Reading source front text rest s) :
    ∃ behind, s.skipWhile source (fun byte ↦ q (character byte)) = .some behind ∧
      Reading source front (text ++ rest.takeWhile q) (rest.dropWhile q) behind := by
  induction rest generalizing text s with
  | nil =>
    refine ⟨s, Part.eq_some_iff.2 (PFun.fix_stop ?_), ?_⟩
    · have hstop : ¬q (character (peek source s.current)) = true := by
        rw [h.peek_nil]
        exact Bool.eq_false_iff.1 hzero
      rw [if_neg hstop]
      exact Part.mem_some _
    · rw [List.takeWhile_nil, List.append_nil]
      exact h
  | cons c rest ih =>
    have hsame := eq_of_mem hq h.peek_cons
    by_cases hc : q c = true
    · have hascii : c.toNat < 128 := by
        by_contra hlt
        exact Bool.noConfusion (hc.symm.trans (hq c (Nat.not_lt.1 hlt)))
      have hne : c ≠ '\n' := by
        rintro rfl
        exact Bool.noConfusion (hc.symm.trans hnewline)
      obtain ⟨behind, hskip, hbehind⟩ := ih (h.jump_ascii hascii hne)
      refine ⟨behind, ?_, ?_⟩
      · rw [← hskip]
        apply PFun.fix_fwd_eq
        rw [if_pos (hsame.trans hc), h.advance_cons, Part.bind_eq_bind, Part.bind_some]
        exact Part.mem_some _
      · rw [List.takeWhile_cons_of_pos hc, List.dropWhile_cons_of_pos hc]
        rwa [List.append_assoc] at hbehind
    · refine ⟨s, Part.eq_some_iff.2 (PFun.fix_stop ?_), ?_⟩
      · rw [if_neg fun hpass ↦ hc (hsame.symm.trans hpass)]
        exact Part.mem_some _
      · rw [List.takeWhile_cons_of_neg hc, List.dropWhile_cons_of_neg hc, List.append_nil]
        exact h

end SkipWhile

/-! A string may hold characters of several bytes, none of which is a quote or a newline unless the
character is. -/

theorem skipString_stop {source : String} {s : ByteScanner}
    (hstop : s.atEnd source = true ∨ peek source s.current = '"'.toUInt8) :
    s.skipString source = .some s := by
  apply Part.eq_some_iff.2
  apply PFun.fix_stop
  rw [if_neg ?_]
  · exact Part.mem_some _
  · rw [Bool.and_eq_true, Bool.not_eq_true', decide_eq_true_iff]
    rintro ⟨hend, hquote⟩
    rcases hstop with hend' | hquote'
    · exact Bool.noConfusion (hend'.symm.trans hend)
    · exact hquote hquote'

theorem skipString_cons {source : String} {s : ByteScanner} {byte : UInt8} {more : List UInt8}
    (hdrop : (bytes source).drop s.current = byte :: more) (hbyte : byte ≠ '"'.toUInt8) :
    s.skipString source = ByteScanner.skipString source (if byte = '\n'.toUInt8
      then ByteScanner.newline { s with current := s.current + 1 } s.current
      else { s with current := s.current + 1 }) := by
  have hget : (bytes source)[s.current]? = some byte := by
    rw [← List.head?_drop, hdrop]
    rfl
  have hpeek : peek source s.current = byte := by
    rw [peek, hget]
    rfl
  have hend : s.atEnd source = false := by
    obtain ⟨hlt, -⟩ := List.getElem?_eq_some_iff.1 hget
    rw [atEnd, decide_eq_false_iff_not]
    omega
  have hadvance : s.advance source = .some (byte, { s with current := s.current + 1 }) := by
    rw [advance, byteAt, hget]
    exact Part.bind_some ..
  apply PFun.fix_fwd_eq
  have hpass : (!s.atEnd source && peek source s.current ≠ '"'.toUInt8) = true := by
    rw [hend, hpeek, decide_eq_true hbyte]
    rfl
  rw [if_pos hpass, hadvance, Part.bind_eq_bind, Part.bind_some]
  exact Part.mem_some _

theorem skipString_run {source : String} {run more : List UInt8} {s : ByteScanner}
    (hdrop : (bytes source).drop s.current = run ++ more)
    (hrun : ∀ byte ∈ run, byte ≠ '"'.toUInt8 ∧ byte ≠ '\n'.toUInt8) :
    s.skipString source =
      ByteScanner.skipString source { s with current := s.current + run.length } := by
  induction run generalizing s with
  | nil => rfl
  | cons byte run ih =>
    obtain ⟨⟨hquote, hnewline⟩, hrun⟩ := List.forall_mem_cons.1 hrun
    have hlater : (bytes source).drop (s.current + 1) = run ++ more := by
      rw [← List.drop_drop, hdrop]
      rfl
    calc s.skipString source
      _ = ByteScanner.skipString source { s with current := s.current + 1 } := by
        rw [skipString_cons hdrop hquote, if_neg hnewline]
      _ = ByteScanner.skipString source { s with current := s.current + 1 + run.length } :=
        ih hlater hrun
      _ = ByteScanner.skipString source { s with current := s.current + (byte :: run).length } := by
        rw [List.length_cons, Nat.add_assoc, Nat.add_comm 1]

theorem skipString (h : Reading source front text rest s) :
    ∃ behind, s.skipString source = .some behind ∧
      Reading source front (text ++ rest.takeWhile (· ≠ '"')) (rest.dropWhile (· ≠ '"'))
        behind := by
  induction rest generalizing text s with
  | nil =>
    refine ⟨s, skipString_stop (.inl h.atEnd_nil), ?_⟩
    rw [List.takeWhile_nil, List.append_nil]
    exact h
  | cons c rest ih =>
    by_cases hquote : c = '"'
    · subst hquote
      refine ⟨s, skipString_stop (.inr (h.peek_ascii (by decide))), ?_⟩
      rw [List.takeWhile_cons_of_neg (by decide), List.dropWhile_cons_of_neg (by decide),
        List.append_nil]
      exact h
    · have htake : (c :: rest).takeWhile (· ≠ '"') = c :: rest.takeWhile (· ≠ '"') :=
        List.takeWhile_cons_of_pos (decide_eq_true hquote)
      have hdropped : (c :: rest).dropWhile (· ≠ '"') = rest.dropWhile (· ≠ '"') :=
        List.dropWhile_cons_of_pos (decide_eq_true hquote)
      rw [htake, hdropped]
      by_cases hnewline : c = '\n'
      · subst hnewline
        obtain ⟨behind, hskip, hbehind⟩ := ih h.newline
        rw [List.append_assoc] at hbehind
        refine ⟨behind, ?_, hbehind⟩
        have hdrop : (bytes source).drop s.current = '\n'.toUInt8 :: utf8 rest := by
          rw [h.drop, utf8_cons_of_ascii (by decide)]
        rw [skipString_cons hdrop (by decide), if_pos rfl, hskip]
      · obtain ⟨behind, hskip, hbehind⟩ := ih (h.jump_cons hnewline)
        rw [List.append_assoc] at hbehind
        refine ⟨behind, ?_, hbehind⟩
        have hdrop : (bytes source).drop s.current = utf8 [c] ++ utf8 rest := by
          rw [h.drop, ← utf8_append]
          rfl
        rw [skipString_run hdrop, hskip]
        intro byte hbyte
        rw [utf8_singleton] at hbyte
        constructor
        · rintro rfl
          exact hquote ((mem_utf8EncodeChar_iff (by decide)).1 hbyte)
        · rintro rfl
          exact hnewline ((mem_utf8EncodeChar_iff (by decide)).1 hbyte)

end Reading

end ByteScanner

end Lox
