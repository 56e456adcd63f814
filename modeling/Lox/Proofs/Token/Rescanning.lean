import Lox.Proofs.Token.Ranges

/-!
# Scanning the texts of tokens again

A token is as long as its first character allows, so its text is cut as one token also where nothing
or a blank follows it.  Hence the tokens of a source are found again in their texts, with blanks and
comments in between (`tokens_rescanned`).
-/

namespace Lox

namespace Segment

section Alone

variable {c : Char} {rest body : List Char} {kind : Kind}

theorem takeWhile_takeWhile_append {p : Char → Bool} {stop : Char} (hstop : p stop = false)
    (text more : List Char) :
    (text.takeWhile p ++ stop :: more).takeWhile p = text.takeWhile p := by
  rw [takeWhile_append_stop hstop, List.takeWhile_idem]

theorem dropWhile_takeWhile {p : Char → Bool} (text : List Char) :
    (text.takeWhile p).dropWhile p = [] :=
  List.dropWhile_eq_nil_iff.2 fun _ hd ↦ List.mem_takeWhile_imp hd

theorem operator_alone {short long : Kind}
    (htext : (operator c short long rest).1.text = c :: body) :
    operator c short long body = ((operator c short long rest).1, []) := by
  rw [operator.eq_def c short long rest] at htext ⊢
  split at htext
  · cases htext
    rfl
  · cases htext
    rfl

theorem slash_alone (hrole : (slash rest).1.role = .token kind)
    (htext : (slash rest).1.text = '/' :: body) : slash body = ((slash rest).1, []) := by
  revert hrole htext
  rw [slash.eq_def rest]
  split
  · exact nofun
  · split
    · exact nofun
    · exact nofun
  · rintro - ⟨⟩
    rfl

theorem string_alone (hrole : (string rest).1.role = .token kind)
    (htext : (string rest).1.text = '"' :: body) : string body = ((string rest).1, []) := by
  have hstop := List.head?_dropWhile_not (· ≠ '"') rest
  revert hrole htext
  rw [string.eq_def rest]
  cases hafter : rest.dropWhile (· ≠ '"') with
  | nil => exact nofun
  | cons quote after =>
    rw [hafter] at hstop
    obtain rfl : quote = '"' := by simpa using hstop
    intro _ htext
    obtain rfl := (List.cons.inj htext).2
    rw [string.eq_def, List.append_eq, takeWhile_takeWhile_append (by decide),
      dropWhile_append_stop (by decide), dropWhile_takeWhile]
    rfl

theorem number_alone (htext : (number c rest).1.text = c :: body) :
    number c body = ((number c rest).1, []) := by
  have hpoint : ('.' : Char).isDigit = false := by decide
  by_cases hfraction : ∃ digit after, rest.dropWhile Char.isDigit = '.' :: digit :: after ∧
      digit.isDigit = true
  · obtain ⟨digit, after, hafter, hdigit⟩ := hfraction
    rw [number_of_point hafter hdigit] at htext ⊢
    obtain rfl := (List.cons.inj htext).2
    -- The digits before the point end there again, and those behind it at the end.
    have hrest : (rest.takeWhile Char.isDigit ++ '.' :: digit ::
        after.takeWhile Char.isDigit).dropWhile Char.isDigit =
          '.' :: digit :: after.takeWhile Char.isDigit := by
      rw [dropWhile_append_stop hpoint, dropWhile_takeWhile]
      rfl
    rw [List.append_eq, number_of_point hrest hdigit, takeWhile_takeWhile_append hpoint,
      List.takeWhile_idem, dropWhile_takeWhile]
  · have hno : ∀ digit after, rest.dropWhile Char.isDigit = '.' :: digit :: after →
        digit.isDigit = false := by
      intro digit after hafter
      exact Bool.eq_false_iff.2 fun hdigit ↦ hfraction ⟨digit, after, hafter, hdigit⟩
    rw [number_of_no_point hno] at htext ⊢
    obtain rfl := (List.cons.inj htext).2
    rw [number_of_no_point, List.takeWhile_idem, dropWhile_takeWhile]
    intro digit after hafter
    rw [dropWhile_takeWhile] at hafter
    cases hafter

theorem word_alone (htext : (word c rest).1.text = c :: body) :
    word c body = ((word c rest).1, []) := by
  obtain rfl := (List.cons.inj htext).2
  rw [word, List.takeWhile_idem, dropWhile_takeWhile]
  rfl

/-- A token that stands alone is cut as it was in its source. -/
theorem next_alone (hrole : (next c rest).1.role = .token kind)
    (htext : (next c rest).1.text = c :: body) : next c body = ((next c rest).1, []) := by
  have hsuits := suits_opening c
  rw [next_eq] at hrole htext
  rw [next_eq, next_eq c rest]
  cases hopening : opening c with
  | single kind =>
    rw [hopening] at htext
    obtain rfl := (List.cons.inj htext).2
    rfl
  | operator short long =>
    rw [hopening] at htext
    exact operator_alone htext
  | slash =>
    rw [hopening] at hrole htext hsuits
    obtain rfl : c = '/' := hsuits
    exact slash_alone hrole htext
  | string =>
    rw [hopening] at hrole htext hsuits
    obtain rfl : c = '"' := hsuits
    exact string_alone hrole htext
  | number =>
    rw [hopening] at htext
    exact number_alone htext
  | word =>
    rw [hopening] at htext
    exact word_alone htext
  | blank =>
    rw [hopening] at hrole
    cases hrole
  | unexpected =>
    rw [hopening] at hrole
    cases hrole

end Alone

/-- The texts behind which a token ends: none, and those that start with a blank. -/
def Parts (text : List Char) : Prop :=
  text = [] ∨ ∃ b rest, isBlank b = true ∧ text = b :: rest

/-- The text of a token in front of a text that parts. -/
theorem next_parted {c : Char} {rest body more : List Char} {kind : Kind}
    (hrole : (next c rest).1.role = .token kind) (htext : (next c rest).1.text = c :: body)
    (hmore : Parts more) : next c (body ++ more) = ((next c rest).1, more) := by
  have halone := next_alone hrole htext
  rcases hmore with rfl | ⟨b, more, hb, rfl⟩
  · rw [List.append_nil]
    exact halone
  · have hrole' : (next c body).1.role = .token kind := by rw [halone, hrole]
    have hfault : ∀ cause, (next c body).1.role ≠ .fault cause := by
      rw [hrole']
      exact fun _ ↦ nofun
    have hcomment : (next c body).1.role = .comment → b = '\n' := by
      rw [hrole']
      exact nofun
    rw [next_append hb hfault hcomment, halone]
    rfl

/-- A text that is cut as a token of a kind, wherever it is parted from what follows. -/
def Firm (kind : Kind) (text : List Char) : Prop :=
  ∀ more, Parts more → segments (text ++ more) = ⟨.token kind, text⟩ :: segments more

theorem firm_of_mem_segments {source text : List Char} {kind : Kind}
    (hmem : ⟨.token kind, text⟩ ∈ segments source) : Firm kind text := by
  induction source using next_induction with
  | nil => cases hmem
  | cons c rest ih =>
    rw [segments_cons] at hmem
    rcases List.mem_cons.1 hmem with hfirst | hlater
    · intro more hmore
      obtain ⟨hne, hsplit⟩ := cutFrom_next c rest
      rw [← hfirst] at hne hsplit
      obtain ⟨d, body, rfl⟩ := List.exists_cons_of_ne_nil hne
      obtain rfl : d = c := (List.cons.inj hsplit).1
      have hnext := next_parted (congrArg Segment.role hfirst).symm
        (congrArg Segment.text hfirst).symm hmore
      rw [List.cons_append, segments_cons, hnext, ← hfirst]
    · exact ih hlater

/-! ### Between tokens -/

/-- A comment with its end: that of its line, or the first `*/`. -/
inductive Comment : List Char → Prop
  | line {body : List Char} (hbody : '\n' ∉ body) : Comment ('/' :: '/' :: (body ++ ['\n']))
  | block {body : List Char} (hbody : ¬['*', '/'] <:+: body ++ ['*']) :
      Comment ('/' :: '*' :: (body ++ ['*', '/']))

/-- Blanks and comments, in any mix. -/
inductive Filling : List Char → Prop
  | nil : Filling []
  | blank {b : Char} {rest : List Char} (hb : isBlank b = true) (hrest : Filling rest) :
      Filling (b :: rest)
  | comment {text rest : List Char} (htext : Comment text) (hrest : Filling rest) :
      Filling (text ++ rest)

/-- Neither a token nor a fault. -/
def IsGap (s : Segment) : Prop :=
  s.role = .blank ∨ s.role = .comment

theorem next_of_isBlank {b : Char} (hb : isBlank b = true) (rest : List Char) :
    next b rest = (⟨.blank, [b]⟩, rest) := by
  rcases isBlank_cases hb with rfl | rfl | rfl | rfl <;> rfl

theorem splitCommentEnd_eq_of_ends {body : List Char} (hbody : ¬['*', '/'] <:+: body ++ ['*'])
    (more : List Char) :
    splitCommentEnd (body ++ '*' :: '/' :: more) = some (body ++ ['*', '/'], more) := by
  induction body with
  | nil => rfl
  | cons c body ih =>
    rw [List.cons_append, List.infix_cons_iff, not_or] at hbody
    obtain ⟨hfirst, hlater⟩ := hbody
    rw [List.cons_append, splitCommentEnd.eq_def]
    dsimp only
    split
    · rename_i rest heq
      -- A star with a slash behind it would end the comment here.
      refine absurd ?_ hfirst
      rw [List.cons_prefix_cons]
      refine ⟨rfl, ?_⟩
      cases body with
      | nil => cases heq
      | cons d body =>
        cases heq
        exact List.prefix_append ['/'] _
    · rw [ih hlater]
      rfl

/-- A comment is cut off, and what follows is cut as if it stood alone. -/
theorem Comment.segments {text : List Char} (htext : Comment text) (more : List Char) :
    ∃ gaps, Lox.segments (text ++ more) = gaps ++ Lox.segments more ∧ ∀ s ∈ gaps, s.IsGap := by
  cases htext with
  | @line body hbody =>
    have hslash : next '/' ('/' :: (body ++ '\n' :: more)) =
        (⟨.comment, '/' :: '/' :: body⟩, '\n' :: more) := by
      have hall : ∀ c ∈ body, decide (c ≠ '\n') = true := by
        intro c hc
        rw [decide_eq_true_iff]
        rintro rfl
        exact hbody hc
      calc slash ('/' :: (body ++ '\n' :: more))
        _ = (⟨.comment, '/' :: '/' :: body.takeWhile (· ≠ '\n')⟩,
            body.dropWhile (· ≠ '\n') ++ '\n' :: more) := by
          simp only [slash]
          rw [takeWhile_append_stop (by decide), dropWhile_append_stop (by decide)]
        _ = (⟨.comment, '/' :: '/' :: body⟩, '\n' :: more) := by
          rw [List.takeWhile_eq_self_iff.2 hall, List.dropWhile_eq_nil_iff.2 hall]
          rfl
    refine ⟨[⟨.comment, '/' :: '/' :: body⟩, ⟨.blank, ['\n']⟩], ?_, ?_⟩
    · calc Lox.segments ('/' :: '/' :: (body ++ ['\n']) ++ more)
        _ = Lox.segments ('/' :: '/' :: (body ++ '\n' :: more)) := by simp
        _ = ⟨.comment, '/' :: '/' :: body⟩ :: Lox.segments ('\n' :: more) := by
          rw [segments_cons, hslash]
        _ = ⟨.comment, '/' :: '/' :: body⟩ :: ⟨.blank, ['\n']⟩ :: Lox.segments more := by
          rw [segments_cons, next_of_isBlank (by decide)]
    · simp [IsGap]
  | @block body hbody =>
    have hslash : next '/' ('*' :: (body ++ '*' :: '/' :: more)) =
        (⟨.comment, '/' :: '*' :: (body ++ ['*', '/'])⟩, more) := by
      change slash ('*' :: (body ++ '*' :: '/' :: more)) = _
      simp only [slash]
      rw [splitCommentEnd_eq_of_ends hbody]
    refine ⟨[⟨.comment, '/' :: '*' :: (body ++ ['*', '/'])⟩], ?_, ?_⟩
    · rw [List.cons_append, List.cons_append, List.append_assoc, segments_cons]
      exact congrArg (fun cut : Segment × List Char ↦ cut.1 :: Lox.segments cut.2) hslash
    · simp [IsGap]

theorem Filling.segments {filling : List Char} (h : Filling filling) (more : List Char) :
    ∃ gaps, Lox.segments (filling ++ more) = gaps ++ Lox.segments more ∧ ∀ s ∈ gaps, s.IsGap := by
  induction h with
  | nil => exact ⟨[], rfl, nofun⟩
  | @blank b rest hb _ ih =>
    obtain ⟨gaps, hgaps, hall⟩ := ih
    refine ⟨⟨.blank, [b]⟩ :: gaps, ?_, List.forall_mem_cons.2 ⟨.inl rfl, hall⟩⟩
    rw [List.cons_append, segments_cons, next_of_isBlank hb, hgaps]
    rfl
  | @comment text rest htext _ ih =>
    obtain ⟨gaps, hgaps, hall⟩ := ih
    obtain ⟨first, hfirst, hall'⟩ := htext.segments (rest ++ more)
    refine ⟨first ++ gaps, ?_, List.forall_mem_append.2 ⟨hall', hall⟩⟩
    rw [List.append_assoc, hfirst, hgaps, List.append_assoc]

end Segment

/-- What may stand between two tokens: blanks and comments, with a blank in front.  Whether there is
a blank at the end, too, does not matter. -/
structure Separator (text : String) : Prop where
  filling : Segment.Filling text.toList
  front : ∃ b rest, Segment.isBlank b = true ∧ text.toList = b :: rest

/-- Texts in a row, with a separator between any two of them. -/
inductive Spaced : List String → String → Prop
  | nil : Spaced [] ""
  | single (text : String) : Spaced [text] text
  | cons {text separator next joined : String} {rest : List String} (h : Separator separator)
      (hrest : Spaced (next :: rest) joined) :
      Spaced (text :: next :: rest) (text ++ separator ++ joined)

theorem separator_space : Separator " " :=
  ⟨.blank (by decide) .nil, ' ', [], by decide, rfl⟩

theorem spaced_intercalate (texts : List String) : Spaced texts (" ".intercalate texts) := by
  induction texts with
  | nil =>
    rw [String.intercalate_nil]
    exact .nil
  | cons text rest ih =>
    cases rest with
    | nil =>
      rw [String.intercalate_singleton]
      exact .single text
    | cons next rest =>
      rw [String.intercalate_cons_cons]
      exact .cons separator_space ih

/-! ### Tokens in a row -/

/-- The tokens of a source without the end. -/
def innerTokens (source : String) : List Token :=
  (tokens source).takeWhile (·.kind ≠ .endOfInput)

/-- The tokens among segments, each with its kind and its text. -/
def Segment.token? (s : Segment) : Option (Kind × String) :=
  match s.role with
  | .token kind => some (kind, .ofList s.text)
  | _ => none

theorem Item.map_filterMap_token? (p : Position) (segments : List Segment) :
    ((yield p segments).filterMap Item.token?).map Token.content =
      segments.filterMap Segment.token? := by
  induction segments generalizing p with
  | nil => rfl
  | cons s rest ih =>
    obtain ⟨role, text⟩ := s
    have hrest := ih (p.after text)
    cases role with
    | token kind => exact congrArg _ hrest
    | fault cause => exact hrest
    | blank => exact hrest
    | comment => exact hrest

theorem map_tokens (source : String) :
    (tokens source).map Token.content =
      (segments source.toList).filterMap Segment.token? ++ [(.endOfInput, "")] := by
  calc (tokens source).map Token.content
    _ = ((Item.yield .start (segments source.toList)).filterMap Item.token?).map Token.content ++
        [(.endOfInput, "")] := by
      rw [tokens, scan, Item.ofSegments_eq, List.filterMap_append, List.map_append]
      rfl
    _ = (segments source.toList).filterMap Segment.token? ++ [(.endOfInput, "")] := by
      rw [Item.map_filterMap_token?]

/-- Texts that are firm and parted by separators are cut into tokens of their kinds. -/
theorem Spaced.segments {found : List (Kind × String)}
    (hfirm : ∀ t ∈ found, Segment.Firm t.1 t.2.toList) {joined : String}
    (h : Spaced (found.map Prod.snd) joined) :
    (Lox.segments joined.toList).filterMap Segment.token? = found ∧
      ∀ s ∈ Lox.segments joined.toList, ∀ cause, s.role ≠ .fault cause := by
  generalize htexts : found.map Prod.snd = texts at h
  induction h generalizing found with
  | nil =>
    obtain rfl := List.map_eq_nil_iff.1 htexts
    exact ⟨rfl, nofun⟩
  | single text =>
    obtain ⟨⟨kind, text⟩, rfl, rfl⟩ := List.map_eq_singleton_iff.1 htexts
    have halone := hfirm _ List.mem_cons_self [] (.inl rfl)
    rw [List.append_nil] at halone
    rw [halone]
    refine ⟨?_, List.forall_mem_singleton.2 fun _ ↦ nofun⟩
    exact congrArg (fun t ↦ [(kind, t)]) String.ofList_toList
  | @cons text separator next joined rest hseparator _ ih =>
    obtain ⟨⟨kind, _⟩, found, rfl, rfl, hrest⟩ := List.map_eq_cons_iff.1 htexts
    obtain ⟨hfirst, hlater⟩ := List.forall_mem_cons.1 hfirm
    obtain ⟨hfound, hsound⟩ := ih hlater hrest
    obtain ⟨gaps, hgaps, hgap⟩ := hseparator.filling.segments joined.toList
    obtain ⟨b, more, hb, hfront⟩ := hseparator.front
    have hparts : Segment.Parts (separator.toList ++ joined.toList) := by
      rw [hfront]
      exact .inr ⟨b, _, hb, rfl⟩
    have hnone : gaps.filterMap Segment.token? = [] := by
      refine List.filterMap_eq_nil_iff.2 fun s hs ↦ ?_
      rw [Segment.token?]
      rcases hgap s hs with hrole | hrole <;> rw [hrole]
    rw [String.toList_append, String.toList_append, List.append_assoc, hfirst _ hparts, hgaps]
    constructor
    · rw [List.filterMap_cons, List.filterMap_append, hnone, hfound]
      exact congrArg (fun t ↦ (kind, t) :: found) String.ofList_toList
    · refine List.forall_mem_cons.2 ⟨fun _ ↦ nofun, List.forall_mem_append.2 ⟨?_, hsound⟩⟩
      intro s hs cause
      rcases hgap s hs with hrole | hrole <;> rw [hrole] <;> exact nofun

/-- Scanning again gives the same tokens.  Take the texts of the tokens of any source, with or
without lexical faults, and put single spaces between them, or any separators at all: there is no
fault in what results, and its tokens have the same kinds, values and texts, with the end behind
them. -/
theorem tokens_rescanned (source : String) :
    Spaced ((innerTokens source).map Token.lexeme)
        (" ".intercalate ((innerTokens source).map Token.lexeme)) ∧
      ∀ joined, Spaced ((innerTokens source).map Token.lexeme) joined →
        lexicalErrors (scan joined) = [] ∧
          (tokens joined).map Token.content =
            (innerTokens source).map Token.content ++ [(.endOfInput, "")] := by
  refine ⟨spaced_intercalate _, fun joined hjoined ↦ ?_⟩
  have hfound : (innerTokens source).map Token.content =
      (segments source.toList).filterMap Segment.token? := by
    rw [← Item.map_filterMap_token? .start, ← takeWhile_tokens]
    rfl
  have htexts : (innerTokens source).map Token.lexeme =
      ((innerTokens source).map Token.content).map Prod.snd := by
    rw [List.map_map]
    rfl
  have hfirm : ∀ t ∈ (innerTokens source).map Token.content, Segment.Firm t.1 t.2.toList := by
    intro t ht
    rw [hfound] at ht
    obtain ⟨⟨role, text⟩, hmem, htoken⟩ := List.mem_filterMap.1 ht
    cases role with
    | token kind =>
      cases htoken
      rw [String.toList_ofList]
      exact Segment.firm_of_mem_segments hmem
    | fault cause => cases htoken
    | blank => cases htoken
    | comment => cases htoken
  rw [htexts] at hjoined
  obtain ⟨hagain, hsound⟩ := hjoined.segments hfirm
  refine ⟨(Item.lexicalErrors_eq_nil_iff _ _).2 hsound, ?_⟩
  rw [map_tokens, hagain]

/-- A source with a fault, whose tokens would run together, or into comments, with nothing between
them. -/
theorem tokens_rescanned_comments : ∃ source texts joined,
    source = "a//b\n/=1.25.$\"/*\"classy" ∧
    joined = "a /\n//=\n=\t1.25 /***/. \"/*\"\r\nclassy" ∧
    lexicalErrors (scan source) = [.lexical 2 (.unexpected '$')] ∧
    (innerTokens source).map Token.lexeme = texts ∧
    Spaced texts joined ∧ lexicalErrors (scan joined) = [] ∧
    (tokens joined).map Token.content =
      (innerTokens source).map Token.content ++ [(.endOfInput, "")] := by
  have htexts : (innerTokens "a//b\n/=1.25.$\"/*\"classy").map Token.lexeme =
      ["a", "/", "=", "1.25", ".", "\"/*\"", "classy"] := by
    decide +kernel
  have hcomment : Separator "\n//=\n" :=
    ⟨.blank (by decide) (.comment (@Segment.Comment.line ['='] (by decide)) .nil), '\n', _,
      by decide, rfl⟩
  have hstars : Separator " /***/" :=
    ⟨.blank (by decide) (.comment (@Segment.Comment.block ['*'] (by decide)) .nil), ' ', _,
      by decide, rfl⟩
  have htab : Separator "\t" := ⟨.blank (by decide) .nil, '\t', [], by decide, rfl⟩
  have hline : Separator "\r\n" :=
    ⟨.blank (by decide) (.blank (by decide) .nil), '\r', ['\n'], by decide, rfl⟩
  have hspaced : Spaced ["a", "/", "=", "1.25", ".", "\"/*\"", "classy"]
      "a /\n//=\n=\t1.25 /***/. \"/*\"\r\nclassy" :=
    .cons separator_space (.cons hcomment (.cons htab (.cons hstars
      (.cons separator_space (.cons hline (.single "classy"))))))
  have hagain := (tokens_rescanned "a//b\n/=1.25.$\"/*\"classy").2 _ (htexts ▸ hspaced)
  exact ⟨_, _, _, rfl, rfl, by decide +kernel, htexts, hspaced, hagain⟩

end Lox
