import Lox.Token.Segment

/-!
# Segments tile the source

Each step of the scanner cuts a nonempty segment off the front of the text and loses nothing, so the
segments of a source, put together, are the source (`flatMap_segments`).
-/

namespace Lox

namespace Segment

/-- A segment and the text behind it are cut from a text: nothing is lost, and the segment takes at
least one character. -/
def CutFrom (text : List Char) (cut : Segment × List Char) : Prop :=
  cut.1.text ≠ [] ∧ cut.1.text ++ cut.2 = text

theorem cutFrom_operator (c : Char) (short long : Kind) (rest : List Char) :
    CutFrom (c :: rest) (operator c short long rest) := by
  unfold operator
  split <;> simp [CutFrom]

theorem splitCommentEnd_append {text body after : List Char}
    (h : splitCommentEnd text = some (body, after)) : body ++ after = text := by
  induction text generalizing body after with
  | nil => simp [splitCommentEnd] at h
  | cons c rest ih =>
    unfold splitCommentEnd at h
    split at h
    · obtain ⟨rfl, rfl⟩ : _ ∧ _ := by simpa using h
      rfl
    · obtain ⟨⟨b, a⟩, hb, he⟩ := Option.map_eq_some_iff.1 h
      obtain ⟨rfl, rfl⟩ : _ ∧ _ := by simpa using he
      simp [ih hb]

theorem cutFrom_slash (rest : List Char) : CutFrom ('/' :: rest) (slash rest) := by
  unfold slash
  split
  · simp [CutFrom, List.takeWhile_append_dropWhile]
  · split
    · rename_i h
      simp [CutFrom, splitCommentEnd_append h]
    · simp [CutFrom]
  · simp [CutFrom]

theorem cutFrom_string (rest : List Char) : CutFrom ('"' :: rest) (string rest) := by
  have h := List.takeWhile_append_dropWhile (p := (· ≠ '"')) (l := rest)
  unfold string
  split <;> rename_i hd <;> rw [hd] at h <;> simpa [CutFrom] using h

theorem cutFrom_number (c : Char) (rest : List Char) : CutFrom (c :: rest) (number c rest) := by
  have h := List.takeWhile_append_dropWhile (p := Char.isDigit) (l := rest)
  simp only [number]
  split
  · rename_i digit more hd
    split
    · rw [hd] at h
      simpa [CutFrom, List.takeWhile_append_dropWhile] using h
    · simp [CutFrom, h]
  · simp [CutFrom, h]

theorem cutFrom_word (c : Char) (rest : List Char) : CutFrom (c :: rest) (word c rest) := by
  simp [CutFrom, word, List.takeWhile_append_dropWhile]

theorem cutFrom_next (c : Char) (rest : List Char) : CutFrom (c :: rest) (next c rest) := by
  unfold next
  split
  · simp [CutFrom]
  · exact cutFrom_operator c _ _ rest
  · by_cases hb : isBlank c
    · simp [CutFrom, hb]
    · by_cases hs : c = '/'
      · subst hs
        simpa [hb] using cutFrom_slash rest
      · by_cases hq : c = '"'
        · subst hq
          simpa [hb] using cutFrom_string rest
        · by_cases hd : c.isDigit
          · simpa [hb, hs, hq, hd] using cutFrom_number c rest
          · by_cases hw : isWordStart c
            · simpa [hb, hs, hq, hd, hw] using cutFrom_word c rest
            · simp [CutFrom, hb, hs, hq, hd, hw]

theorem exists_next_of_mem_cut {count : Nat} {text : List Char} {s : Segment}
    (h : s ∈ cut count text) : ∃ c rest, s = (next c rest).1 := by
  induction count generalizing text with
  | zero => cases h
  | succ count ih =>
    cases text with
    | nil => cases h
    | cons c rest =>
      rcases List.mem_cons.1 h with rfl | h
      · exact ⟨c, rest, rfl⟩
      · exact ih h

theorem CutFrom.length_lt {text : List Char} {cut : Segment × List Char} (h : CutFrom text cut) :
    cut.2.length < text.length := by
  rw [← h.2, List.length_append]
  exact Nat.lt_add_of_pos_left (List.length_pos_iff.2 h.1)

/-- Cutting loses nothing if it may cut as often as there are characters. -/
theorem flatMap_cut {count : Nat} {text : List Char} (h : text.length ≤ count) :
    (cut count text).flatMap Segment.text = text := by
  induction count generalizing text with
  | zero => simp [cut, List.length_eq_zero_iff.1 (Nat.le_zero.1 h)]
  | succ count ih =>
    cases text with
    | nil => rfl
    | cons c rest =>
      have hc := cutFrom_next c rest
      have hle : (next c rest).2.length ≤ count :=
        Nat.le_of_lt_succ (Nat.lt_of_lt_of_le hc.length_lt h)
      simp only [cut, List.flatMap_cons, ih hle]
      exact hc.2

end Segment

/-- The segments of a source are the whole source. -/
theorem flatMap_segments (source : List Char) :
    (segments source).flatMap Segment.text = source :=
  Segment.flatMap_cut (Nat.le_refl _)

end Lox
