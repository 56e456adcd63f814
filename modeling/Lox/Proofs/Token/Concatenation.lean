import Lox.Session
import Lox.Token.Tiling

/-!
# Scanning one source after another

A blank ends every segment before it, except a comment up to the end of the line.  So two sources
with a newline between them are cut into the segments of the one and those of the other, and the
tokens of the second are found as many lines further down as the first takes.
-/

namespace Lox

namespace Segment

section Blank

variable {b : Char}

theorem isBlank_cases (h : isBlank b = true) : b = ' ' ∨ b = '\r' ∨ b = '\t' ∨ b = '\n' := by
  simpa [isBlank, or_assoc] using h

theorem isDigit_of_isBlank (h : isBlank b = true) : b.isDigit = false := by
  rcases isBlank_cases h with rfl | rfl | rfl | rfl <;> decide

theorem isWordRest_of_isBlank (h : isBlank b = true) : isWordRest b = false := by
  rcases isBlank_cases h with rfl | rfl | rfl | rfl <;> decide

theorem takeWhile_append_stop {p : Char → Bool} (hb : p b = false) (text more : List Char) :
    (text ++ b :: more).takeWhile p = text.takeWhile p := by
  induction text with
  | nil => simp [hb]
  | cons c text ih =>
    rw [List.cons_append, List.takeWhile_cons, List.takeWhile_cons, ih]

theorem dropWhile_append_stop {p : Char → Bool} (hb : p b = false) (text more : List Char) :
    (text ++ b :: more).dropWhile p = text.dropWhile p ++ b :: more := by
  induction text with
  | nil => simp [hb]
  | cons c text ih =>
    rw [List.cons_append, List.dropWhile_cons, List.dropWhile_cons, ih]
    split
    · rfl
    · rfl

/-- The same cut with more text behind it. -/
def followedBy (cut : Segment × List Char) (more : List Char) : Segment × List Char :=
  (cut.1, cut.2 ++ more)

theorem operator_append (hb : isBlank b = true) (c : Char) (short long : Kind)
    (rest more : List Char) :
    operator c short long (rest ++ b :: more) =
      followedBy (operator c short long rest) (b :: more) := by
  cases rest with
  | nil => rcases isBlank_cases hb with rfl | rfl | rfl | rfl <;> rfl
  | cons d rest =>
    by_cases hd : d = '='
    · subst hd
      rfl
    · rw [List.cons_append]
      unfold operator followedBy
      split
      · rename_i heq
        cases heq
        exact absurd rfl hd
      · split
        · rename_i heq
          cases heq
          exact absurd rfl hd
        · rfl

theorem splitCommentEnd_append_some {text body after : List Char} (more : List Char)
    (h : splitCommentEnd text = some (body, after)) :
    splitCommentEnd (text ++ more) = some (body, after ++ more) := by
  induction text generalizing body after with
  | nil => cases h
  | cons c rest ih =>
    rw [List.cons_append]
    unfold splitCommentEnd at h ⊢
    split at h
    · cases h
      rfl
    · rename_i hend
      obtain ⟨⟨body', after'⟩, hrest, heq⟩ := Option.map_eq_some_iff.1 h
      cases heq
      rw [ih hrest]
      split
      · rename_i rest' heq
        -- A slash that closes the comment stands in the text, since the comment ends there.
        cases rest with
        | nil => cases hrest
        | cons d rest =>
          cases heq
          exact absurd rfl (hend _ rfl)
      · rfl

theorem slash_append (hb : isBlank b = true) {rest : List Char}
    (hfault : ∀ cause, (slash rest).1.role ≠ .fault cause)
    (hcomment : (slash rest).1.role = .comment → b = '\n') (more : List Char) :
    slash (rest ++ b :: more) = followedBy (slash rest) (b :: more) := by
  cases rest with
  | nil => rcases isBlank_cases hb with rfl | rfl | rfl | rfl <;> rfl
  | cons d rest =>
    rw [List.cons_append]
    by_cases hslash : d = '/'
    · subst hslash
      have hend : b = '\n' := hcomment rfl
      subst hend
      simp only [slash, followedBy]
      rw [takeWhile_append_stop (by decide), dropWhile_append_stop (by decide)]
    · by_cases hstar : d = '*'
      · subst hstar
        simp only [slash, followedBy] at hfault ⊢
        cases hsplit : splitCommentEnd rest with
        | none =>
          rw [hsplit] at hfault
          exact absurd rfl (hfault .unterminatedComment)
        | some split =>
          obtain ⟨body, after⟩ := split
          rw [splitCommentEnd_append_some _ hsplit]
      · have hplain : ∀ text, slash (d :: text) = (⟨.token .slash, ['/']⟩, d :: text) := by
          intro text
          unfold slash
          split
          · rename_i heq
            cases heq
            exact absurd rfl hslash
          · rename_i heq
            cases heq
            exact absurd rfl hstar
          · rfl
        rw [hplain, hplain]
        rfl

theorem string_append {rest : List Char} (hfault : ∀ cause, (string rest).1.role ≠ .fault cause)
    (more : List Char) : string (rest ++ more) = followedBy (string rest) more := by
  have hclosed : rest.dropWhile (· ≠ '"') ≠ [] := by
    intro hopen
    unfold string at hfault
    rw [hopen] at hfault
    exact hfault .unterminatedString rfl
  have htake : (rest ++ more).takeWhile (· ≠ '"') = rest.takeWhile (· ≠ '"') := by
    rw [List.takeWhile_append, if_neg]
    intro hlength
    have hsplit :=
      congrArg List.length (List.takeWhile_append_dropWhile (p := (· ≠ '"')) (l := rest))
    rw [List.length_append] at hsplit
    exact hclosed (List.length_eq_zero_iff.1 (by omega))
  have hdrop : (rest ++ more).dropWhile (· ≠ '"') = rest.dropWhile (· ≠ '"') ++ more := by
    rw [List.dropWhile_append, if_neg]
    simpa using hclosed
  unfold string followedBy
  rw [htake, hdrop]
  dsimp only
  cases hafter : rest.dropWhile (· ≠ '"') with
  | nil => exact absurd hafter hclosed
  | cons quote after => rfl

theorem number_of_point {c digit : Char} {rest after : List Char}
    (hafter : rest.dropWhile Char.isDigit = '.' :: digit :: after)
    (hdigit : digit.isDigit = true) :
    number c rest =
      (⟨.token (.number (.ofDigits (c :: rest.takeWhile Char.isDigit)
          (digit :: after.takeWhile Char.isDigit))),
        c :: rest.takeWhile Char.isDigit ++ '.' :: digit :: after.takeWhile Char.isDigit⟩,
        after.dropWhile Char.isDigit) := by
  simp only [number]
  split
  · rename_i heq
    rw [hafter] at heq
    cases heq
    rw [if_pos hdigit]
  · rename_i hno
    exact absurd hafter (hno _ _)

theorem number_of_no_point {c : Char} {rest : List Char}
    (hno : ∀ digit after, rest.dropWhile Char.isDigit = '.' :: digit :: after →
      digit.isDigit = false) :
    number c rest =
      (⟨.token (.number (.ofDigits (c :: rest.takeWhile Char.isDigit) [])),
        c :: rest.takeWhile Char.isDigit⟩, rest.dropWhile Char.isDigit) := by
  simp only [number]
  split
  · rename_i heq
    rw [if_neg (by rw [hno _ _ heq]; exact Bool.false_ne_true)]
  · rfl

/-- A number has digits behind a point, or it is a run of digits. -/
theorem number_cases (c : Char) (rest : List Char) :
    (∃ digit after, rest.dropWhile Char.isDigit = '.' :: digit :: after ∧ digit.isDigit = true ∧
      number c rest =
        (⟨.token (.number (.ofDigits (c :: rest.takeWhile Char.isDigit)
            (digit :: after.takeWhile Char.isDigit))),
          c :: rest.takeWhile Char.isDigit ++ '.' :: digit :: after.takeWhile Char.isDigit⟩,
          after.dropWhile Char.isDigit)) ∨
      number c rest =
        (⟨.token (.number (.ofDigits (c :: rest.takeWhile Char.isDigit) [])),
          c :: rest.takeWhile Char.isDigit⟩, rest.dropWhile Char.isDigit) := by
  by_cases hpoint : ∃ digit after, rest.dropWhile Char.isDigit = '.' :: digit :: after ∧
      digit.isDigit = true
  · obtain ⟨digit, after, hafter, hdigit⟩ := hpoint
    exact .inl ⟨digit, after, hafter, hdigit, number_of_point hafter hdigit⟩
  · refine .inr (number_of_no_point fun digit after hafter ↦ ?_)
    exact Bool.eq_false_iff.2 fun hdigit ↦ hpoint ⟨digit, after, hafter, hdigit⟩

theorem role_number (c : Char) (rest : List Char) :
    ∃ value, (number c rest).1.role = .token (.number value) := by
  obtain ⟨digit, after, -, -, hnumber⟩ | hnumber := number_cases c rest
  · exact ⟨_, by rw [hnumber]⟩
  · exact ⟨_, by rw [hnumber]⟩

theorem number_append (hb : isBlank b = true) (c : Char) (rest more : List Char) :
    number c (rest ++ b :: more) = followedBy (number c rest) (b :: more) := by
  have hdigit := isDigit_of_isBlank hb
  have htake := takeWhile_append_stop hdigit rest more
  have hdrop := dropWhile_append_stop hdigit rest more
  by_cases hpoint : ∃ digit after, rest.dropWhile Char.isDigit = '.' :: digit :: after ∧
      digit.isDigit = true
  · obtain ⟨digit, after, hafter, hfirst⟩ := hpoint
    have hafter' : (rest ++ b :: more).dropWhile Char.isDigit =
        '.' :: digit :: (after ++ b :: more) := by
      rw [hdrop, hafter]
      rfl
    rw [number_of_point hafter hfirst, number_of_point hafter' hfirst, htake,
      takeWhile_append_stop hdigit, dropWhile_append_stop hdigit]
    rfl
  · have hno : ∀ digit after, rest.dropWhile Char.isDigit = '.' :: digit :: after →
        digit.isDigit = false := by
      intro digit after hafter
      exact Bool.eq_false_iff.2 fun hfirst ↦ hpoint ⟨digit, after, hafter, hfirst⟩
    rw [number_of_no_point hno, number_of_no_point, htake, hdrop]
    · rfl
    · -- Where the digits end, there is what was there before, or the blank, or a point before it.
      intro digit after hafter
      rw [hdrop] at hafter
      cases hrest : rest.dropWhile Char.isDigit with
      | nil =>
        rw [hrest] at hafter
        cases hafter
        cases hb
      | cons d after' =>
        rw [hrest] at hafter hno
        obtain ⟨rfl, htail⟩ := List.cons.inj hafter
        cases after' with
        | nil =>
          cases htail
          exact hdigit
        | cons digit' after' =>
          obtain ⟨rfl, -⟩ := List.cons.inj htail
          exact hno _ _ rfl

theorem word_append (hb : isBlank b = true) (c : Char) (rest more : List Char) :
    word c (rest ++ b :: more) = followedBy (word c rest) (b :: more) := by
  have hrest := isWordRest_of_isBlank hb
  simp only [word, followedBy]
  rw [takeWhile_append_stop hrest, dropWhile_append_stop hrest]

/-- A blank ends the segment before it, unless that is a fault, or a comment up to the end of a line
that does not end here. -/
theorem next_append (hb : isBlank b = true) {c : Char} {rest : List Char}
    (hfault : ∀ cause, (next c rest).1.role ≠ .fault cause)
    (hcomment : (next c rest).1.role = .comment → b = '\n') (more : List Char) :
    next c (rest ++ b :: more) = followedBy (next c rest) (b :: more) := by
  unfold next at hfault hcomment ⊢
  split
  · rfl
  · exact operator_append hb ..
  · rename_i hsingle hextensible
    rw [hsingle, hextensible] at hfault hcomment
    dsimp only at hfault hcomment
    split
    · rfl
    · rename_i hblank
      rw [if_neg hblank] at hfault hcomment
      split
      · rename_i hslash
        rw [if_pos hslash] at hfault hcomment
        exact slash_append hb hfault hcomment more
      · rename_i hslash
        rw [if_neg hslash] at hfault hcomment
        split
        · rename_i hquote
          rw [if_pos hquote] at hfault
          exact string_append hfault _
        · split
          · exact number_append hb ..
          · split
            · exact word_append hb ..
            · rfl

end Blank

/-- Any two bounds that are not reached cut alike. -/
theorem cut_eq_cut {count count' : Nat} {text : List Char} (h : text.length ≤ count)
    (h' : text.length ≤ count') : cut count text = cut count' text := by
  induction count generalizing count' text with
  | zero =>
    rw [List.length_eq_zero_iff.1 (Nat.le_zero.1 h)]
    cases count' <;> rfl
  | succ count ih =>
    cases text with
    | nil => cases count' <;> rfl
    | cons c rest =>
      have hlt := (cutFrom_next c rest).length_lt
      cases count' with
      | zero => cases h'
      | succ count' =>
        simp only [cut]
        rw [ih (Nat.le_of_lt_succ (Nat.lt_of_lt_of_le hlt h))
          (Nat.le_of_lt_succ (Nat.lt_of_lt_of_le hlt h'))]

end Segment

theorem segments_cons (c : Char) (rest : List Char) :
    segments (c :: rest) = (Segment.next c rest).1 :: segments (Segment.next c rest).2 := by
  have hlt := (Segment.cutFrom_next c rest).length_lt
  unfold segments
  rw [List.length_cons, Segment.cut]
  exact congrArg _ (Segment.cut_eq_cut (Nat.le_of_lt_succ hlt) (Nat.le_refl _))

/-- A newline separates the segments before it from those behind it. -/
theorem segments_append (text more : List Char)
    (hfault : ∀ s ∈ segments text, ∀ cause, s.role ≠ .fault cause) :
    segments (text ++ '\n' :: more) = segments text ++ ⟨.blank, ['\n']⟩ :: segments more := by
  induction hn : text.length using Nat.strongRecOn generalizing text with
  | _ n ih =>
    cases text with
    | nil => exact segments_cons '\n' more
    | cons c rest =>
      rw [segments_cons] at hfault
      obtain ⟨hfirst, hrest⟩ := List.forall_mem_cons.1 hfault
      have hlt := (Segment.cutFrom_next c rest).length_lt
      rw [hn] at hlt
      rw [List.cons_append, segments_cons, segments_cons,
        Segment.next_append (by decide) hfirst (fun _ ↦ rfl)]
      rw [List.cons_append, ← ih _ hlt _ hrest rfl]
      rfl

namespace Item

/-- What segments yield from a position on, without an end token. -/
def yield (p : Position) : List Segment → List Item
  | [] => []
  | s :: rest => (ofSegment? p s).toList ++ yield (p.after s.text) rest

theorem ofSegments_append (p : Position) (segments more : List Segment) :
    ofSegments p (segments ++ more) =
      yield p segments ++ ofSegments (p.after (segments.flatMap Segment.text)) more := by
  induction segments generalizing p with
  | nil => rfl
  | cons s rest ih =>
    rw [List.cons_append, List.flatMap_cons, Position.after_append, yield, ofSegments]
    cases ofSegment? p s with
    | none => exact ih _
    | some item => exact congrArg _ (ih _)

theorem ofSegments_eq (p : Position) (segments : List Segment) :
    ofSegments p segments =
      yield p segments ++ [.token (endToken (p.after (segments.flatMap Segment.text)))] := by
  have h := ofSegments_append p segments []
  rwa [List.append_nil] at h

end Item

/-- The position a number of lines further down. -/
def Position.down (p : Position) (lines : Nat) : Position :=
  ⟨p.line + lines, p.column⟩

theorem Position.after_down (p : Position) (lines : Nat) (text : List Char) :
    (p.down lines).after text = (p.after text).down lines := by
  induction text generalizing p with
  | nil => rfl
  | cons c text ih =>
    have hadvance : (p.down lines).advance c = (p.advance c).down lines := by
      unfold Position.advance Position.down
      split
      · rw [Nat.add_right_comm]
      · rfl
    change ((p.down lines).advance c).after text = ((p.advance c).after text).down lines
    rw [hadvance]
    exact ih _

namespace Segment

/-- No text is a token of the end. -/
def NotEnd (s : Segment) : Prop :=
  s.role ≠ .token .endOfInput

theorem notEnd_operator {c d : Char} {short long : Kind} (h : extensible? c = some (short, long))
    (rest : List Char) : (operator d short long rest).1.NotEnd := by
  have hkinds : short ≠ .endOfInput ∧ long ≠ .endOfInput := by
    unfold extensible? at h
    split at h <;> first
      | (cases h; exact ⟨by decide, by decide⟩)
      | cases h
  unfold operator
  split
  · exact fun heq ↦ hkinds.2 (Role.token.inj heq)
  · exact fun heq ↦ hkinds.1 (Role.token.inj heq)

theorem notEnd_slash (rest : List Char) : (slash rest).1.NotEnd := by
  unfold slash
  split
  · exact nofun
  · split
    · exact nofun
    · exact nofun
  · exact nofun

theorem notEnd_string (rest : List Char) : (string rest).1.NotEnd := by
  unfold string
  split
  · exact nofun
  · exact nofun

theorem notEnd_number (c : Char) (rest : List Char) : (number c rest).1.NotEnd := by
  obtain ⟨value, hrole⟩ := role_number c rest
  rw [NotEnd, hrole]
  exact nofun

theorem notEnd_word (c : Char) (rest : List Char) : (word c rest).1.NotEnd := by
  have hword : ∀ text, Kind.ofWord text ≠ .endOfInput := by
    intro text
    unfold Kind.ofWord
    cases hlookup : Kind.keywords.lookup text with
    | none => exact nofun
    | some kind =>
      obtain ⟨left, right, hsplit, -⟩ := List.lookup_eq_some_iff.1 hlookup
      have hkeywords : ∀ p ∈ Kind.keywords, p.2 ≠ .endOfInput := by decide
      have hmem : (text, kind) ∈ Kind.keywords := by
        rw [hsplit]
        exact List.mem_append_right _ List.mem_cons_self
      exact hkeywords (text, kind) hmem
  exact fun heq ↦ hword _ (Role.token.inj heq)

theorem notEnd_next (c : Char) (rest : List Char) : (next c rest).1.NotEnd := by
  unfold next
  split
  · rename_i kind hsingle
    have hkind : kind ≠ .endOfInput := by
      unfold single? at hsingle
      split at hsingle <;> first
        | (cases hsingle; decide)
        | cases hsingle
    exact fun heq ↦ hkind (Role.token.inj heq)
  · rename_i hextensible
    exact notEnd_operator hextensible rest
  · split
    · exact nofun
    · split
      · exact notEnd_slash rest
      · split
        · exact notEnd_string rest
        · split
          · exact notEnd_number c rest
          · split
            · exact notEnd_word c rest
            · exact nofun

theorem notEnd_of_mem_cut {count : Nat} {text : List Char} {s : Segment}
    (h : s ∈ cut count text) : s.NotEnd := by
  obtain ⟨c, rest, rfl⟩ := exists_next_of_mem_cut h
  exact notEnd_next c rest

end Segment

/-! ### Tokens -/

/-- The same token a number of lines further down. -/
def Token.down (t : Token) (lines : Nat) : Token :=
  { t with line := t.line + lines }

namespace Item

/-- What starts further down is found further down. -/
theorem tokens_down (p : Position) (lines : Nat) (segments : List Segment) :
    (ofSegments (p.down lines) segments).filterMap token? =
      ((ofSegments p segments).filterMap token?).map (·.down lines) := by
  induction segments generalizing p with
  | nil => rfl
  | cons s rest ih =>
    obtain ⟨role, text⟩ := s
    have hrest := ih (p.after text)
    rw [← Position.after_down] at hrest
    cases role with
    | token kind => exact congrArg _ hrest
    | fault cause => exact hrest
    | blank => exact hrest
    | comment => exact hrest

theorem lexicalErrors_eq_nil_iff (p : Position) (segments : List Segment) :
    lexicalErrors (ofSegments p segments) = [] ↔
      ∀ s ∈ segments, ∀ cause, s.role ≠ .fault cause := by
  induction segments generalizing p with
  | nil => exact ⟨fun _ ↦ nofun, fun _ ↦ rfl⟩
  | cons s rest ih =>
    rw [List.forall_mem_cons, ← ih (p.after s.text)]
    obtain ⟨role, text⟩ := s
    cases role with
    | token kind => exact ⟨fun h ↦ ⟨nofun, h⟩, fun h ↦ h.2⟩
    | fault cause => exact ⟨nofun, fun h ↦ absurd rfl (h.1 cause)⟩
    | blank => exact ⟨fun h ↦ ⟨nofun, h⟩, fun h ↦ h.2⟩
    | comment => exact ⟨fun h ↦ ⟨nofun, h⟩, fun h ↦ h.2⟩

theorem kind_ne_of_mem_yield {p : Position} {segments : List Segment} {t : Token}
    (hsegments : ∀ s ∈ segments, s.NotEnd) (h : .token t ∈ yield p segments) :
    t.kind ≠ .endOfInput := by
  induction segments generalizing p with
  | nil => cases h
  | cons s rest ih =>
    obtain ⟨hs, hrest⟩ := List.forall_mem_cons.1 hsegments
    rcases List.mem_append.1 h with h | h
    · obtain ⟨role, text⟩ := s
      cases role with
      | token kind =>
        cases List.mem_singleton.1 h
        exact fun heq ↦ hs (congrArg Role.token heq)
      | fault cause => cases List.mem_singleton.1 h
      | blank => cases h
      | comment => cases h
    · exact ih hrest h

end Item

/-- The number of the last line of a source. -/
def lastLine (source : String) : Nat :=
  (Position.start.after source.toList).line

section Append

variable {source more : String}

theorem takeWhile_tokens (source : String) :
    (tokens source).takeWhile (·.kind ≠ .endOfInput) =
      (Item.yield .start (segments source.toList)).filterMap Item.token? := by
  rw [tokens, scan, Item.ofSegments_eq, List.filterMap_append, List.takeWhile_append_of_pos]
  · exact List.append_nil _
  · intro t ht
    obtain ⟨item, hitem, htoken⟩ := List.mem_filterMap.1 ht
    cases item with
    | fault line cause => cases htoken
    | token t' =>
      cases htoken
      exact decide_eq_true
        (Item.kind_ne_of_mem_yield (fun s hs ↦ Segment.notEnd_of_mem_cut hs) hitem)

theorem segments_newline (hfault : lexicalErrors (scan source) = []) :
    segments (source ++ "\n" ++ more).toList =
      segments source.toList ++ ⟨.blank, ['\n']⟩ :: segments more.toList := by
  calc segments (source ++ "\n" ++ more).toList
    _ = segments (source.toList ++ '\n' :: more.toList) := by
      rw [String.toList_append, String.toList_append, List.append_assoc]
      rfl
    _ = segments source.toList ++ ⟨.blank, ['\n']⟩ :: segments more.toList :=
      segments_append _ _ ((Item.lexicalErrors_eq_nil_iff _ _).1 hfault)

/-- With a newline between them, the tokens of one source come before those of the other, which are
found further down. -/
theorem tokens_newline (hfault : lexicalErrors (scan source) = []) :
    tokens (source ++ "\n" ++ more) =
      (tokens source).takeWhile (·.kind ≠ .endOfInput) ++
        (tokens more).map (·.down (lastLine source)) := by
  have hposition : (Position.start.after source.toList).after ['\n'] =
      Position.start.down (lastLine source) := by
    change (⟨_, _⟩ : Position) = ⟨_, _⟩
    rw [Nat.add_comm]
    rfl
  have hitems : scan (source ++ "\n" ++ more) =
      Item.yield .start (segments source.toList) ++
        Item.ofSegments (Position.start.down (lastLine source)) (segments more.toList) := by
    rw [scan, segments_newline hfault, Item.ofSegments_append, flatMap_segments, ← hposition]
    rfl
  calc tokens (source ++ "\n" ++ more)
    _ = (Item.yield .start (segments source.toList)).filterMap Item.token? ++
        (Item.ofSegments (Position.start.down (lastLine source))
          (segments more.toList)).filterMap Item.token? := by
      rw [tokens, hitems, List.filterMap_append]
    _ = (tokens source).takeWhile (·.kind ≠ .endOfInput) ++
        (tokens more).map (·.down (lastLine source)) := by
      rw [takeWhile_tokens, Item.tokens_down, tokens, scan]

theorem lexicalErrors_newline (hfault : lexicalErrors (scan source) = [])
    (hfault' : lexicalErrors (scan more) = []) :
    lexicalErrors (scan (source ++ "\n" ++ more)) = [] := by
  unfold scan
  rw [segments_newline hfault]
  refine (Item.lexicalErrors_eq_nil_iff _ _).2 fun s hs ↦ ?_
  rcases List.mem_append.1 hs with hs | hs
  · exact (Item.lexicalErrors_eq_nil_iff _ _).1 hfault s hs
  · rcases List.mem_cons.1 hs with rfl | hs
    · exact nofun
    · exact (Item.lexicalErrors_eq_nil_iff _ _).1 hfault' s hs

end Append

end Lox
