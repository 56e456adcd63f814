import Lox.Machine.Builtins
import Mathlib.Data.List.DropRight

/-!
# Lines of text

A text falls into lines, each with the newline that ends it.  Of the bytes of UTF-8 only the newline
itself is spelled with a newline byte, so bytes that spell a text can be split at those before they
are decoded, and spell the same lines.
-/

namespace Lox

section Splitting

variable {α : Type} [DecidableEq α] {newline : α}

/-- What comes first up to and with the first newline, and what is left. -/
def splitLine (newline : α) : List α → List α × List α
  | [] => ([], [])
  | a :: rest =>
    if a = newline then ([a], rest)
    else
      let (line, left) := splitLine newline rest
      (a :: line, left)

/-- Split after each newline. Behind the last newline there is a line only if something is left. -/
def lines (newline : α) : List α → List (List α)
  | [] => []
  | a :: rest =>
    if a = newline then [a] :: lines newline rest
    else
      match lines newline rest with
      | [] => [[a]]
      | line :: more => (a :: line) :: more

example : lines '\n' "a\n\nb".toList = ["a\n".toList, "\n".toList, "b".toList] := by decide

theorem splitLine_eq (newline : α) (text : List α) :
    splitLine newline text =
      (text.takeWhile (· ≠ newline) ++ (text.dropWhile (· ≠ newline)).take 1,
        (text.dropWhile (· ≠ newline)).drop 1) := by
  induction text with
  | nil => rfl
  | cons a rest ih =>
    by_cases ha : a = newline
    · simp [splitLine, ha]
    · simp only [splitLine, if_neg ha, ih]
      simp [ha]

/-- What holds no newline belongs to the line it is followed by. -/
theorem splitLine_append {part : List α} (h : newline ∉ part) (rest : List α) :
    splitLine newline (part ++ rest) =
      (part ++ (splitLine newline rest).1, (splitLine newline rest).2) := by
  induction part with
  | nil => rfl
  | cons a part ih =>
    rw [List.mem_cons, not_or] at h
    rw [List.cons_append, splitLine, if_neg (Ne.symm h.1), ih h.2]
    rfl

/-- The lines of a text are its first line and the lines of what is left. -/
theorem lines_eq_cons {text : List α} (h : text ≠ []) :
    lines newline text =
      (splitLine newline text).1 :: lines newline (splitLine newline text).2 := by
  induction text with
  | nil => exact absurd rfl h
  | cons a rest ih =>
    by_cases ha : a = newline
    · simp only [lines, splitLine, if_pos ha]
    · cases rest with
      | nil => simp only [lines, splitLine, if_neg ha]
      | cons b more =>
        simp only [lines, splitLine, if_neg ha] at ih ⊢
        rw [ih (List.cons_ne_nil b more)]

/-- Nothing of a text gets lost. -/
theorem flatten_lines (newline : α) (text : List α) : (lines newline text).flatten = text := by
  induction text with
  | nil => rfl
  | cons a rest ih =>
    by_cases ha : a = newline
    · simp only [lines, if_pos ha, List.flatten_cons, ih, List.singleton_append]
    · simp only [lines, if_neg ha]
      cases hrest : lines newline rest with
      | nil =>
        rw [hrest] at ih
        exact congrArg (a :: ·) ih
      | cons line more =>
        rw [hrest] at ih
        exact congrArg (a :: ·) ih

/-- A newline stands only at the end of a line. -/
theorem not_mem_dropLast_of_mem_lines {text line : List α} (h : line ∈ lines newline text) :
    newline ∉ line.dropLast := by
  induction text generalizing line with
  | nil => cases h
  | cons a rest ih =>
    by_cases ha : a = newline
    · rw [lines, if_pos ha] at h
      rcases List.mem_cons.1 h with rfl | hrest
      · exact List.not_mem_nil
      · exact ih hrest
    · rw [lines, if_neg ha] at h
      cases hlines : lines newline rest with
      | nil =>
        rw [hlines] at h
        rw [List.mem_singleton.1 h]
        exact List.not_mem_nil
      | cons first more =>
        rw [hlines] at h ih
        rcases List.mem_cons.1 h with rfl | hmore
        · cases first with
          | nil => exact List.not_mem_nil
          | cons b tail =>
            rw [List.dropLast_cons_cons, List.mem_cons, not_or]
            exact ⟨Ne.symm ha, ih List.mem_cons_self⟩
        · exact ih (List.mem_cons_of_mem _ hmore)

end Splitting

/-- A line without its terminator, a newline with or without a carriage return in front. -/
def withoutTerminator (line : List Char) : List Char :=
  match line.reverse with
  | '\n' :: '\r' :: body => body.reverse
  | '\n' :: body => body.reverse
  | _ => line

theorem exists_terminator (line : List Char) :
    ∃ terminator, (∀ c ∈ terminator, c = '\n' ∨ c = '\r') ∧
      line = withoutTerminator line ++ terminator ∧
      (terminator = [] → line.getLast? ≠ some '\n') := by
  unfold withoutTerminator
  split
  · rename_i body hline
    refine ⟨['\r', '\n'], by simp, ?_, nofun⟩
    rw [← List.reverse_inj, hline]
    simp
  · rename_i body _ hline
    refine ⟨['\n'], by simp, ?_, nofun⟩
    rw [← List.reverse_inj, hline]
    simp
  · rename_i _ hline
    refine ⟨[], by simp, (List.append_nil line).symm, fun _ hlast ↦ ?_⟩
    rw [← List.head?_reverse] at hlast
    cases hreverse : line.reverse with
    | nil => simp [hreverse] at hlast
    | cons c rest =>
      rw [hreverse] at hlast
      cases hlast
      exact hline rest hreverse

/-- A line without all the carriage returns and newlines at its end. -/
def trimmed (line : List Char) : List Char :=
  line.rdropWhile fun c ↦ c = '\n' || c = '\r'

theorem Run.trimLine_ofList (line : List Char) :
    trimLine (.ofList line) = .ofList (trimmed line) := by
  rw [trimLine, String.toList_ofList]
  rfl

/-- What trimming takes away is taken away behind a body too. -/
theorem rdropWhile_append {α : Type} {p : α → Bool} {body terminator : List α}
    (h : ∀ a ∈ terminator, p a = true) :
    (body ++ terminator).rdropWhile p = body.rdropWhile p := by
  rw [List.rdropWhile, List.reverse_append, List.dropWhile_append_of_pos]
  · rfl
  · intro a ha
    exact h a (List.mem_reverse.1 ha)

/-- Trimming a line takes away no more than its terminator exactly if no carriage return stands in
front of that. -/
theorem trimmed_eq_iff {line : List Char} (h : '\n' ∉ line.dropLast) :
    trimmed line = withoutTerminator line ↔ (withoutTerminator line).getLast? ≠ some '\r' := by
  obtain ⟨terminator, hterminator, hline, hnone⟩ := exists_terminator line
  generalize withoutTerminator line = body at hline ⊢
  subst hline
  have hbody : body.getLast? ≠ some '\n' := by
    cases terminator with
    | nil => simpa using hnone rfl
    | cons c rest =>
      rw [List.dropLast_append_cons, List.mem_append, not_or] at h
      exact fun hlast ↦ h.1 (List.mem_of_getLast? hlast)
  have htrimmed : trimmed (body ++ terminator) = trimmed body := by
    apply rdropWhile_append
    intro c hc
    simpa using hterminator c hc
  rw [htrimmed, trimmed, List.rdropWhile_eq_self_iff]
  constructor
  · intro hkeeps hlast
    obtain ⟨before, rfl⟩ := List.getLast?_eq_some_iff.1 hlast
    simp at hkeeps
  · intro hlast hne hp
    rw [List.getLast?_eq_some_getLast hne] at hlast hbody
    simp only [Bool.or_eq_true, decide_eq_true_eq] at hp
    rcases hp with hnewline | hreturn
    · exact hbody (congrArg some hnewline)
    · exact hlast (congrArg some hreturn)

/-! ### Decoding -/

namespace Utf8

/-- Bytes that spell a character wherever they stand. Only a newline is spelled with the byte of a
newline, and with no other. -/
structure SpellsChar (bytes : List UInt8) (c : Char) : Prop where
  decodes : ∀ offset decoded rest, decodeFrom offset decoded (bytes ++ rest) =
    decodeFrom (offset + bytes.length) (c :: decoded) rest
  newline : bytes = [10] ∧ c = '\n' ∨ bytes ≠ [] ∧ 10 ∉ bytes ∧ c ≠ '\n'

/-- Bytes that spell one character after another. -/
inductive Spells : List UInt8 → List Char → Prop
  | nil : Spells [] []
  | cons {bytes rest : List UInt8} {c : Char} {text : List Char} (hc : SpellsChar bytes c)
      (hrest : Spells rest text) : Spells (bytes ++ rest) (c :: text)

theorem Spells.decodeFrom_eq {bytes : List UInt8} {text : List Char} (h : Spells bytes text)
    (offset : Nat) (decoded : List Char) :
    decodeFrom offset decoded bytes = .ok (.ofList (decoded.reverse ++ text)) := by
  induction h generalizing offset decoded with
  | nil => rw [decodeFrom, List.append_nil]
  | cons hc _ ih => rw [hc.decodes, ih, List.reverse_cons, List.append_assoc]; rfl

theorem codePoint_eq_newline_iff {leadBits : Nat} {continuation : List UInt8} :
    codePoint leadBits continuation = '\n' ↔
      continuation.foldl (fun value b ↦ value * 64 + b.toNat % 64) leadBits = 10 := by
  unfold codePoint
  generalize continuation.foldl _ leadBits = n
  constructor
  · intro h
    by_cases hvalid : n.isValidChar
    · have hchar : Char.ofNat n = Char.ofNatAux n hvalid := dif_pos hvalid
      rw [hchar] at h
      exact congrArg Char.toNat h
    · have hnull : Char.ofNat n = '\x00' := dif_neg hvalid
      rw [hnull] at h
      exact absurd h (by decide)
  · rintro rfl
    rfl

/-- The bytes behind a leading byte lie above all single ones, and high enough for no character to
be spelled with more bytes than it needs. -/
theorem bounds_of_allowsSecond {lead b : UInt8} (h : allowsSecond lead b = true) :
    128 ≤ b.toNat ∧ b.toNat < 192 ∧ (lead.toNat = 224 → 160 ≤ b.toNat) ∧
      (lead.toNat = 240 → 144 ≤ b.toNat) := by
  simp only [allowsSecond, isContinuation, ← UInt8.toNat_inj, UInt8.le_iff_toNat_le] at h
  simp only [UInt8.reduceToNat] at h
  split_ifs at h
  all_goals
    rw [Bool.and_eq_true, decide_eq_true_eq, decide_eq_true_eq] at h
    omega

theorem bounds_of_isContinuation {b : UInt8} (h : isContinuation b = true) :
    128 ≤ b.toNat ∧ b.toNat < 192 := by
  simp only [isContinuation, UInt8.le_iff_toNat_le, Bool.and_eq_true, decide_eq_true_eq] at h
  simp only [UInt8.reduceToNat] at h
  omega

/-- A longer sequence spells no newline and holds no byte of a newline. -/
theorem spellsChar_of_bounds {bytes : List UInt8} {c : Char}
    (hdecodes : ∀ offset decoded rest, decodeFrom offset decoded (bytes ++ rest) =
      decodeFrom (offset + bytes.length) (c :: decoded) rest)
    (hsome : bytes ≠ []) (hbytes : ∀ b ∈ bytes, 128 ≤ b.toNat) (hc : c ≠ '\n') :
    SpellsChar bytes c := by
  refine ⟨hdecodes, .inr ⟨hsome, fun hmem ↦ ?_, hc⟩⟩
  have hhigh : 128 ≤ (10 : UInt8).toNat := hbytes 10 hmem
  exact absurd hhigh (by decide)

theorem spellsChar_one {a : UInt8} (ha : a < 0x80) : SpellsChar [a] (codePoint a.toNat []) := by
  constructor
  · intro offset decoded rest
    rw [List.singleton_append]
    conv_lhs => rw [decodeFrom.eq_def]
    exact if_pos ha
  · by_cases hnewline : a = 10
    · subst hnewline
      exact .inl ⟨rfl, rfl⟩
    · refine .inr ⟨List.cons_ne_nil _ _, by simpa using Ne.symm hnewline, ?_⟩
      rw [Ne, codePoint_eq_newline_iff]
      exact fun heq ↦ hnewline (UInt8.toNat_inj.1 heq)

theorem bounds_of_lead {a : UInt8} (hlead : ¬(a < 0xC2 ∨ 0xF4 < a)) :
    194 ≤ a.toNat ∧ a.toNat ≤ 244 := by
  rw [not_or, UInt8.not_lt, UInt8.not_lt] at hlead
  exact ⟨UInt8.le_iff_toNat_le.1 hlead.1, UInt8.le_iff_toNat_le.1 hlead.2⟩

theorem spellsChar_two {a b : UInt8} (ha : ¬a < 0x80) (hlead : ¬(a < 0xC2 ∨ 0xF4 < a))
    (hb : allowsSecond a b = true) (hshort : a < 0xE0) :
    SpellsChar [a, b] (codePoint (a.toNat % 32) [b]) := by
  have hfirst := bounds_of_lead hlead
  have hsecond := bounds_of_allowsSecond hb
  have hlength : a.toNat < 224 := UInt8.lt_iff_toNat_lt.1 hshort
  refine spellsChar_of_bounds ?_ (List.cons_ne_nil _ _) ?_ ?_
  · intro offset decoded rest
    rw [List.cons_append, List.singleton_append]
    conv_lhs => rw [decodeFrom.eq_def]
    simp only [if_neg ha, if_neg hlead, hb, if_pos hshort, Bool.not_true, Bool.false_eq_true,
      if_false]
    rfl
  · simp only [List.forall_mem_cons, List.not_mem_nil, false_implies, implies_true, and_true]
    omega
  · rw [Ne, codePoint_eq_newline_iff]
    simp only [List.foldl_cons, List.foldl_nil]
    omega

theorem spellsChar_three {a b c : UInt8} (ha : ¬a < 0x80) (hlead : ¬(a < 0xC2 ∨ 0xF4 < a))
    (hb : allowsSecond a b = true) (hlong : ¬a < 0xE0) (hc : isContinuation c = true)
    (hshort : a < 0xF0) : SpellsChar [a, b, c] (codePoint (a.toNat % 16) [b, c]) := by
  have hfirst := bounds_of_lead hlead
  have hsecond := bounds_of_allowsSecond hb
  have hthird := bounds_of_isContinuation hc
  have hlower : 224 ≤ a.toNat := UInt8.le_iff_toNat_le.1 (UInt8.not_lt.1 hlong)
  have hupper : a.toNat < 240 := UInt8.lt_iff_toNat_lt.1 hshort
  refine spellsChar_of_bounds ?_ (List.cons_ne_nil _ _) ?_ ?_
  · intro offset decoded rest
    rw [List.cons_append, List.cons_append, List.singleton_append]
    conv_lhs => rw [decodeFrom.eq_def]
    simp only [if_neg ha, if_neg hlead, hb, if_neg hlong, hc, if_pos hshort, Bool.not_true,
      Bool.false_eq_true, if_false]
    rfl
  · simp only [List.forall_mem_cons, List.not_mem_nil, false_implies, implies_true, and_true]
    omega
  · rw [Ne, codePoint_eq_newline_iff]
    simp only [List.foldl_cons, List.foldl_nil]
    omega

theorem spellsChar_four {a b c d : UInt8} (ha : ¬a < 0x80) (hlead : ¬(a < 0xC2 ∨ 0xF4 < a))
    (hb : allowsSecond a b = true) (hlong : ¬a < 0xE0) (hc : isContinuation c = true)
    (hlonger : ¬a < 0xF0) (hd : isContinuation d = true) :
    SpellsChar [a, b, c, d] (codePoint (a.toNat % 8) [b, c, d]) := by
  have hfirst := bounds_of_lead hlead
  have hsecond := bounds_of_allowsSecond hb
  have hthird := bounds_of_isContinuation hc
  have hfourth := bounds_of_isContinuation hd
  have hlower : 240 ≤ a.toNat := UInt8.le_iff_toNat_le.1 (UInt8.not_lt.1 hlonger)
  refine spellsChar_of_bounds ?_ (List.cons_ne_nil _ _) ?_ ?_
  · intro offset decoded rest
    rw [List.cons_append, List.cons_append, List.cons_append, List.singleton_append]
    conv_lhs => rw [decodeFrom.eq_def]
    simp only [if_neg ha, if_neg hlead, hb, if_neg hlong, hc, if_neg hlonger, hd, Bool.not_true,
      Bool.false_eq_true, if_false]
    rfl
  · simp only [List.forall_mem_cons, List.not_mem_nil, false_implies, implies_true, and_true]
    omega
  · rw [Ne, codePoint_eq_newline_iff]
    simp only [List.foldl_cons, List.foldl_nil]
    omega

/-- What is left behind a character is decoded behind it. -/
theorem SpellsChar.extend {bytes rest : List UInt8} {c : Char} {decoded : List Char} {text : String}
    (hc : SpellsChar bytes c)
    (h : ∃ chars, Spells rest chars ∧ text = .ofList ((c :: decoded).reverse ++ chars)) :
    ∃ chars, Spells (bytes ++ rest) chars ∧ text = .ofList (decoded.reverse ++ chars) := by
  obtain ⟨chars, hrest, htext⟩ := h
  refine ⟨c :: chars, .cons hc hrest, ?_⟩
  rw [htext, List.reverse_cons, List.append_assoc, List.singleton_append]

/-- Bytes that can be decoded spell the characters that are found, one after the other. -/
theorem spells_of_decodeFrom {offset : Nat} {decoded : List Char} {bytes : List UInt8}
    {text : String} (h : decodeFrom offset decoded bytes = .ok text) :
    ∃ chars, Spells bytes chars ∧ text = .ofList (decoded.reverse ++ chars) := by
  fun_induction decodeFrom offset decoded bytes with
  | case1 offset decoded =>
    cases h
    exact ⟨[], .nil, congrArg String.ofList (List.append_nil _).symm⟩
  | case2 offset decoded a rest ha ih => exact (spellsChar_one ha).extend (ih h)
  | case6 offset decoded a ha hlead b rest hb hshort ih =>
    rw [Bool.not_eq_true, Bool.not_eq_false'] at hb
    exact (spellsChar_two ha hlead hb hshort).extend (ih h)
  | case9 offset decoded a ha hlead b hb hlong c rest hc hshort ih =>
    rw [Bool.not_eq_true, Bool.not_eq_false'] at hb hc
    exact (spellsChar_three ha hlead hb hlong hc hshort).extend (ih h)
  | case12 offset decoded a ha hlead b hb hlong c hc hlonger d rest hd ih =>
    rw [Bool.not_eq_true, Bool.not_eq_false'] at hb hc hd
    exact (spellsChar_four ha hlead hb hlong hc hlonger hd).extend (ih h)
  | _ => cases h

theorem Spells.eq_nil {text : List Char} (h : Spells [] text) : text = [] := by
  generalize hbytes : ([] : List UInt8) = bytes at h
  cases h with
  | nil => rfl
  | cons hc hrest =>
    obtain ⟨rfl, -⟩ := List.append_eq_nil_iff.1 hbytes.symm
    rcases hc.newline with ⟨hnil, -⟩ | ⟨hnil, -⟩
    · cases hnil
    · exact absurd rfl hnil

theorem decode_eq_ok_iff {bytes : List UInt8} {text : String} :
    decode bytes = .ok text ↔ Spells bytes text.toList := by
  constructor
  · intro h
    obtain ⟨chars, hspells, rfl⟩ := spells_of_decodeFrom h
    rw [String.toList_ofList]
    exact hspells
  · intro h
    calc decode bytes
      _ = .ok (.ofList text.toList) := h.decodeFrom_eq 0 []
      _ = .ok text := by rw [String.ofList_toList]

/-- The first line and what is left are spelled by the first line of the bytes and what is left of
them. -/
theorem Spells.splitLine {bytes : List UInt8} {text : List Char} (h : Spells bytes text) :
    Spells (splitLine 10 bytes).1 (splitLine '\n' text).1 ∧
      Spells (splitLine 10 bytes).2 (splitLine '\n' text).2 := by
  induction h with
  | nil => exact ⟨.nil, .nil⟩
  | @cons bytes rest c text hc hrest ih =>
    rcases hc.newline with ⟨rfl, rfl⟩ | ⟨-, hbytes, hne⟩
    · exact ⟨.cons hc .nil, hrest⟩
    · rw [splitLine_append hbytes, Lox.splitLine, if_neg hne]
      exact ⟨.cons hc ih.1, ih.2⟩

end Utf8

end Lox
