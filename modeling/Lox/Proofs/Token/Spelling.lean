import Lox.Token.Scan
import Lox.Token.Tiling

/-!
# Words are spelled as their kind says

A keyword has one spelling, and a word that is spelled like a keyword is no identifier.  So no name
that a program declares is spelled like a keyword.
-/

namespace Lox

/-- An identifier is not spelled like a keyword, and a keyword is spelled like itself. -/
def Kind.Spells (kind : Kind) (text : String) : Prop :=
  (kind = .identifier → keywords.lookup text = none) ∧
    ∀ word, (word, kind) ∈ keywords → text = word

namespace Kind

theorem ne_identifier_of_mem_keywords : ∀ p ∈ keywords, p.2 ≠ identifier := by
  decide

theorem eq_of_mem_keywords : ∀ p ∈ keywords, ∀ q ∈ keywords, p.2 = q.2 → p.1 = q.1 := by
  decide

/-- The kinds that are neither a keyword nor an identifier can be spelled in any way. -/
theorem spells_of_not_word {kind : Kind} (hidentifier : kind ≠ .identifier)
    (hkeyword : ∀ p ∈ keywords, p.2 ≠ kind) (text : String) : kind.Spells text :=
  ⟨fun h ↦ absurd h hidentifier, fun _ hmem ↦ absurd rfl (hkeyword _ hmem)⟩

theorem spells_ofWord (word : String) : (ofWord word).Spells word := by
  unfold ofWord
  cases h : keywords.lookup word with
  | none =>
    exact ⟨fun _ ↦ h, fun other hmem ↦ absurd rfl (ne_identifier_of_mem_keywords _ hmem)⟩
  | some kind =>
    obtain ⟨left, right, hsplit, -⟩ := List.lookup_eq_some_iff.1 h
    have hmem : (word, kind) ∈ keywords := by
      rw [hsplit]
      exact List.mem_append_right _ List.mem_cons_self
    refine ⟨fun hkind ↦ absurd hkind (ne_identifier_of_mem_keywords _ hmem), fun other hother ↦ ?_⟩
    exact eq_of_mem_keywords _ hmem _ hother rfl

end Kind

/-- A token whose text fits its kind. -/
def Token.Spelt (t : Token) : Prop :=
  t.kind.Spells t.lexeme

namespace Segment

/-- The text of a token segment fits its kind. -/
def Spelt (s : Segment) : Prop :=
  ∀ kind, s.role = .token kind → kind.Spells (.ofList s.text)

theorem spelt_of_kind {kind : Kind} {text : List Char}
    (h : ∀ s, kind.Spells s) : Spelt ⟨.token kind, text⟩ := by
  rintro _ ⟨⟩
  exact h _

theorem spelt_of_not_token {s : Segment} (h : ∀ kind, s.role ≠ .token kind) : Spelt s :=
  fun kind hkind ↦ absurd hkind (h kind)

theorem spells_of_single {c : Char} {kind : Kind} (h : single? c = some kind) (text : String) :
    kind.Spells text := by
  unfold single? at h
  split at h <;> first
    | (cases h; exact Kind.spells_of_not_word (by decide) (by decide) text)
    | cases h

theorem spells_of_extensible {c : Char} {short long : Kind}
    (h : extensible? c = some (short, long)) (text : String) :
    short.Spells text ∧ long.Spells text := by
  unfold extensible? at h
  split at h <;> first
    | (cases h
       exact ⟨Kind.spells_of_not_word (by decide) (by decide) text,
        Kind.spells_of_not_word (by decide) (by decide) text⟩)
    | cases h

theorem spells_string (content text : String) : (Kind.string content).Spells text :=
  Kind.spells_of_not_word (by simp) (by simp [Kind.keywords]) text

theorem spells_number (value : Number) (text : String) : (Kind.number value).Spells text :=
  Kind.spells_of_not_word (by simp) (by simp [Kind.keywords]) text

theorem spelt_operator {c : Char} {short long : Kind} (hshort : ∀ s, short.Spells s)
    (hlong : ∀ s, long.Spells s) (rest : List Char) : (operator c short long rest).1.Spelt := by
  unfold operator
  split
  · exact spelt_of_kind hlong
  · exact spelt_of_kind hshort

theorem spelt_slash (rest : List Char) : (slash rest).1.Spelt := by
  unfold slash
  split
  · exact spelt_of_not_token nofun
  · split
    · exact spelt_of_not_token nofun
    · exact spelt_of_not_token nofun
  · exact spelt_of_kind (Kind.spells_of_not_word (by decide) (by decide))

theorem spelt_string (rest : List Char) : (string rest).1.Spelt := by
  unfold string
  split
  · exact spelt_of_not_token nofun
  · exact spelt_of_kind (spells_string _)

theorem spelt_number (c : Char) (rest : List Char) : (number c rest).1.Spelt := by
  simp only [number]
  split
  · split
    · exact spelt_of_kind (spells_number _)
    · exact spelt_of_kind (spells_number _)
  · exact spelt_of_kind (spells_number _)

theorem spelt_word (c : Char) (rest : List Char) : (word c rest).1.Spelt := by
  rintro _ ⟨⟩
  exact Kind.spells_ofWord _

theorem spelt_next (c : Char) (rest : List Char) : (next c rest).1.Spelt := by
  unfold next
  split
  · rename_i h
    exact spelt_of_kind (spells_of_single h)
  · rename_i h
    exact spelt_operator (fun s ↦ (spells_of_extensible h s).1)
      (fun s ↦ (spells_of_extensible h s).2) rest
  · split
    · exact spelt_of_not_token nofun
    · split
      · exact spelt_slash rest
      · split
        · exact spelt_string rest
        · split
          · exact spelt_number c rest
          · split
            · exact spelt_word c rest
            · exact spelt_of_not_token nofun

theorem spelt_of_mem_cut {count : Nat} {text : List Char} {s : Segment}
    (h : s ∈ cut count text) : s.Spelt := by
  obtain ⟨c, rest, rfl⟩ := exists_next_of_mem_cut h
  exact spelt_next c rest

end Segment

theorem Item.spelt_of_mem {p : Position} {segments : List Segment} {t : Token}
    (hsegments : ∀ s ∈ segments, s.Spelt) (h : .token t ∈ ofSegments p segments) : t.Spelt := by
  induction segments generalizing p with
  | nil =>
    cases List.mem_singleton.1 h
    have hspells : ∀ text, Kind.endOfInput.Spells text :=
      Kind.spells_of_not_word (by decide) (by decide)
    exact hspells _
  | cons s rest ih =>
    have hrest := ih (p := p.after s.text) fun s' hs' ↦ hsegments s' (List.mem_cons_of_mem _ hs')
    unfold ofSegments at h
    split at h
    · rename_i item hitem
      rcases List.mem_cons.1 h with rfl | h
      · unfold ofSegment? at hitem
        split at hitem
        · rename_i kind hkind
          cases hitem
          exact hsegments s List.mem_cons_self kind hkind
        all_goals cases hitem
      · exact hrest h
    · exact hrest h

/-- The tokens of a source are spelled as their kind says. -/
theorem spelt_of_mem_tokens {source : String} {t : Token} (h : t ∈ tokens source) : t.Spelt := by
  obtain ⟨item, hitem, ht⟩ := List.mem_filterMap.1 h
  cases item with
  | fault line cause => cases ht
  | token t' =>
    cases ht
    exact Item.spelt_of_mem (fun s hs ↦ Segment.spelt_of_mem_cut hs) hitem

end Lox
