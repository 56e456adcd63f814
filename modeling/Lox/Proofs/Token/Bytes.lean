import Lox.Token.Scan
import Mathlib.Data.List.Infix

/-!
# Bytes of a text

Scanning works on characters, but columns count bytes.  A character outside ASCII is spelled with
bytes outside ASCII only, so whatever is delimited by ASCII characters in a text is delimited by the
same bytes in its encoding.
-/

namespace Lox

/-- The bytes of a text. -/
def utf8 (text : List Char) : List UInt8 :=
  text.flatMap String.utf8EncodeChar

section Bytes

variable {a b c : Char} {text : List Char}

theorem utf8_cons (c : Char) (text : List Char) :
    utf8 (c :: text) = String.utf8EncodeChar c ++ utf8 text :=
  List.flatMap_cons

theorem utf8_append (text more : List Char) : utf8 (text ++ more) = utf8 text ++ utf8 more :=
  List.flatMap_append

theorem utf8EncodeChar_ne_nil (c : Char) : String.utf8EncodeChar c ≠ [] := by
  rw [← List.length_pos_iff, String.length_utf8EncodeChar]
  exact c.utf8Size_pos

theorem utf8_ne_nil (h : text ≠ []) : utf8 text ≠ [] := by
  obtain ⟨c, rest, rfl⟩ := List.exists_cons_of_ne_nil h
  rw [utf8_cons]
  exact List.append_ne_nil_of_left_ne_nil (utf8EncodeChar_ne_nil c) _

theorem toUTF8_eq (source : String) : source.toUTF8.data.toList = utf8 source.toList := by
  rw [String.toUTF8_eq_toByteArray, ← String.utf8Encode_toList]
  exact List.toList_data_toByteArray

theorem utf8EncodeChar_of_ascii (hc : c.toNat < 128) : String.utf8EncodeChar c = [c.toUInt8] := by
  apply String.utf8EncodeChar_eq_singleton
  rw [Char.utf8Size_eq_one_iff, UInt32.le_iff_toNat_le]
  exact Nat.le_of_lt_succ hc

theorem utf8_singleton (c : Char) : utf8 [c] = String.utf8EncodeChar c :=
  List.append_nil _

theorem utf8_cons_of_ascii (hc : c.toNat < 128) (text : List Char) :
    utf8 (c :: text) = c.toUInt8 :: utf8 text := by
  rw [utf8_cons, utf8EncodeChar_of_ascii hc]
  rfl

theorem le_of_mem_utf8EncodeChar (hc : 128 ≤ c.toNat) {byte : UInt8}
    (hbyte : byte ∈ String.utf8EncodeChar c) : 128 ≤ byte.toNat := by
  have hlong : ¬c.val.toNat ≤ 127 := Nat.not_le.2 hc
  unfold String.utf8EncodeChar at hbyte
  simp only [hlong, if_false] at hbyte
  split at hbyte
  · simp only [List.mem_cons, List.not_mem_nil, or_false] at hbyte
    rcases hbyte with rfl | rfl <;> rw [UInt8.toNat_ofNat'] <;> omega
  · split at hbyte
    · simp only [List.mem_cons, List.not_mem_nil, or_false] at hbyte
      rcases hbyte with rfl | rfl | rfl <;> rw [UInt8.toNat_ofNat'] <;> omega
    · simp only [List.mem_cons, List.not_mem_nil, or_false] at hbyte
      rcases hbyte with rfl | rfl | rfl | rfl <;> rw [UInt8.toNat_ofNat'] <;> omega

theorem toNat_toUInt8 (ha : a.toNat < 128) : a.toUInt8.toNat = a.toNat := by
  change a.toNat % 256 = a.toNat
  exact Nat.mod_eq_of_lt (by omega)

/-- An ASCII byte spells its character and occurs in no other. -/
theorem mem_utf8EncodeChar_iff (ha : a.toNat < 128) :
    a.toUInt8 ∈ String.utf8EncodeChar c ↔ c = a := by
  constructor
  · intro hmem
    by_cases hc : c.toNat < 128
    · rw [utf8EncodeChar_of_ascii hc, List.mem_singleton] at hmem
      have hsame := congrArg UInt8.toNat hmem
      rw [toNat_toUInt8 ha, toNat_toUInt8 hc] at hsame
      exact (Char.toNat_inj.1 hsame).symm
    · have hle := le_of_mem_utf8EncodeChar (Nat.not_lt.1 hc) hmem
      rw [toNat_toUInt8 ha] at hle
      omega
  · rintro rfl
    rw [utf8EncodeChar_of_ascii ha]
    exact List.mem_cons_self

theorem mem_utf8_iff (ha : a.toNat < 128) : a.toUInt8 ∈ utf8 text ↔ a ∈ text := by
  unfold utf8
  simp only [List.mem_flatMap, mem_utf8EncodeChar_iff ha]
  constructor
  · rintro ⟨c, hc, rfl⟩
    exact hc
  · intro hmem
    exact ⟨a, hmem, rfl⟩

theorem head_of_prefix_utf8 (ha : a.toNat < 128) (h : [a.toUInt8] <+: utf8 text) :
    ∃ rest, text = a :: rest := by
  cases text with
  | nil => simp [utf8] at h
  | cons c rest =>
    rw [utf8_cons] at h
    obtain ⟨first, bytes, henc⟩ : ∃ first bytes, String.utf8EncodeChar c = first :: bytes :=
      List.exists_cons_of_ne_nil (utf8EncodeChar_ne_nil c)
    rw [henc, List.cons_append, List.cons_prefix_cons] at h
    have hmem : a.toUInt8 ∈ String.utf8EncodeChar c := by
      rw [henc, h.1]
      exact List.mem_cons_self
    exact ⟨rest, by rw [(mem_utf8EncodeChar_iff ha).1 hmem]⟩

theorem infix_of_infix_utf8 (ha : a.toNat < 128) (hb : b.toNat < 128)
    (h : [a.toUInt8, b.toUInt8] <:+: utf8 text) : [a, b] <:+: text := by
  induction text with
  | nil => simp [utf8] at h
  | cons c rest ih =>
    rw [utf8_cons] at h
    by_cases hc : c.toNat < 128
    · rw [utf8EncodeChar_of_ascii hc, List.singleton_append, List.infix_cons_iff] at h
      rcases h with hfront | hlater
      · rw [List.cons_prefix_cons] at hfront
        obtain ⟨more, rfl⟩ := head_of_prefix_utf8 hb hfront.2
        have hsame : c = a := by
          apply (mem_utf8EncodeChar_iff ha).1
          rw [utf8EncodeChar_of_ascii hc, hfront.1]
          exact List.mem_cons_self
        rw [hsame]
        exact (List.prefix_append [a, b] more).isInfix
      · exact (ih hlater).trans (List.suffix_cons c rest).isInfix
    · -- All bytes of the character are outside ASCII, so the two lie behind it.
      have hskip : ∀ front : List UInt8, (∀ byte ∈ front, 128 ≤ byte.toNat) →
          [a.toUInt8, b.toUInt8] <:+: front ++ utf8 rest →
          [a.toUInt8, b.toUInt8] <:+: utf8 rest := by
        intro front hfront hinfix
        induction front with
        | nil => exact hinfix
        | cons byte front ih =>
          obtain ⟨hbyte, hfront⟩ := List.forall_mem_cons.1 hfront
          rw [List.cons_append, List.infix_cons_iff, List.cons_prefix_cons] at hinfix
          rcases hinfix with ⟨rfl, -⟩ | hlater
          · rw [toNat_toUInt8 ha] at hbyte
            omega
          · exact ih hfront hlater
      have hbytes : ∀ byte ∈ String.utf8EncodeChar c, 128 ≤ byte.toNat :=
        fun _ hbyte ↦ le_of_mem_utf8EncodeChar (Nat.not_lt.1 hc) hbyte
      exact (ih (hskip _ hbytes h)).trans (List.suffix_cons c rest).isInfix

end Bytes

/-- The line of a byte: one more than the newlines before it. -/
def lineAt (bytes : List UInt8) (offset : Nat) : Nat :=
  1 + (bytes.take offset).count '\n'.toUInt8

/-- The column of a byte: one more than the bytes between the last newline before it, or the start,
and the byte. -/
def columnAt (bytes : List UInt8) (offset : Nat) : Nat :=
  1 + ((bytes.take offset).reverse.takeWhile (· ≠ '\n'.toUInt8)).length

/-- The position kept while scanning is the one that the bytes tell. -/
theorem after_start (text : List Char) :
    Position.start.after text = ⟨lineAt (utf8 text) (utf8 text).length,
      columnAt (utf8 text) (utf8 text).length⟩ := by
  -- From the last character on: a newline starts a line, any other character moves on by its bytes,
  -- none of which is a newline.
  unfold lineAt columnAt
  simp only [List.take_length]
  induction text using List.reverseRecOn with
  | nil => rfl
  | append_singleton text c ih =>
    rw [Position.after_append, ih, utf8_append, utf8_singleton, List.reverse_append,
      List.count_append]
    change Position.advance _ c = _
    unfold Position.advance
    by_cases hc : c = '\n'
    · subst hc
      rw [if_pos rfl, utf8EncodeChar_of_ascii (by decide)]
      simp only [List.reverse_singleton, List.singleton_append, List.count_singleton_self,
        ne_eq, not_true_eq_false, decide_false, Bool.false_eq_true, not_false_eq_true,
        List.takeWhile_cons_of_neg, List.length_nil, Nat.add_assoc, Nat.add_zero]
    · have hnone : '\n'.toUInt8 ∉ String.utf8EncodeChar c := fun hmem ↦
        hc ((mem_utf8EncodeChar_iff (by decide)).1 hmem)
      have hall : ∀ byte ∈ (String.utf8EncodeChar c).reverse,
          decide (byte ≠ '\n'.toUInt8) = true := by
        intro byte hbyte
        rw [decide_eq_true_iff]
        rintro rfl
        exact hnone (List.mem_reverse.1 hbyte)
      rw [if_neg hc, List.count_eq_zero_of_not_mem hnone, List.takeWhile_append_of_pos hall,
        List.length_append, List.length_reverse, String.length_utf8EncodeChar]
      congr 1
      dsimp only
      omega

/-- Where a text starts in a longer one. -/
theorem after_start_append (before text : List Char) :
    Position.start.after before = ⟨lineAt (utf8 (before ++ text)) (utf8 before).length,
      columnAt (utf8 (before ++ text)) (utf8 before).length⟩ := by
  have htake : (utf8 before).take (utf8 before).length =
      (utf8 (before ++ text)).take (utf8 before).length := by
    rw [utf8_append, List.take_length, List.take_left]
  calc Position.start.after before
    _ = ⟨lineAt (utf8 before) (utf8 before).length, columnAt (utf8 before) (utf8 before).length⟩ :=
      after_start before
    _ = ⟨lineAt (utf8 (before ++ text)) (utf8 before).length,
        columnAt (utf8 (before ++ text)) (utf8 before).length⟩ := by
      rw [lineAt, columnAt, htake, ← lineAt, ← columnAt]

end Lox
