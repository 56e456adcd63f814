import Lox.Proofs.Session.Reporting
import Lox.Proofs.Session.Splitting

/-!
# Layout does not matter

Two sources whose tokens agree in kind and text run alike, wherever their tokens stand.  Positions
reach nothing but the line numbers of diagnostics and the tokens that functions keep.
-/

namespace Lox

/-- Tokens of the same kind and the same text, wherever they stand. -/
def Token.SameText (t t' : Token) : Prop :=
  t.content = t'.content

theorem Token.faithful_sameText : Token.Faithful Token.SameText where
  kind h := congrArg Prod.fst h
  lexeme h := congrArg Prod.snd h

/-- A diagnostic on another line. -/
def Diagnostic.moveTo (line : Nat) : Diagnostic → Diagnostic
  | lexical _ fault => lexical line fault
  | syntactic token fault => syntactic { token with line } fault
  | static token fault => static { token with line } fault
  | runtime _ fault => runtime line fault
  | output text => output text

/-- Diagnostics that read the same once they are on one line. -/
def Diagnostic.SameButLine (d d' : Diagnostic) : Prop :=
  ∀ line, (d.moveTo line).text = (d'.moveTo line).text

theorem Diagnostic.location_eq {t t' : Token} (h : t.SameText t') (line : Nat) :
    location { t with line } = location { t' with line } := by
  unfold location
  dsimp only
  rw [Token.faithful_sameText.kind h, Token.faithful_sameText.lexeme h]

theorem Diagnostic.Alike.sameButLine {d d' : Diagnostic} (h : d.Alike Token.SameText d') :
    d.SameButLine d' := by
  intro line
  cases h with
  | lexical line' fault => rfl
  | syntactic htoken fault =>
    dsimp only [Diagnostic.moveTo, Diagnostic.text]
    rw [Diagnostic.location_eq htoken]
  | static htoken fault =>
    dsimp only [Diagnostic.moveTo, Diagnostic.text]
    rw [Diagnostic.location_eq htoken]
  | runtime hline fault => rfl
  | output text => rfl

/-- Lines of the stream of diagnostics that differ in line numbers only. -/
def SameReport (text text' : String) : Prop :=
  ∃ d d' : Diagnostic, text = d.text ++ "\n" ∧ text' = d'.text ++ "\n" ∧ d.SameButLine d'

namespace Session

/-- Diagnostics that differ in line numbers are reported alike, for a stream does not fail because
of what is written to it. -/
theorem reportAll_alike {ds ds' : List Diagnostic}
    (h : List.Forall₂ (Diagnostic.Alike Token.SameText) ds ds') {s s' : Session}
    (herr : s.machine.host.err = s'.machine.host.err) (hhad : s.hadError = s'.hadError) :
    (s.reportAll ds).hadError = (s'.reportAll ds').hadError ∧
      ∃ texts texts',
        Channel.err.pieces (s.reportAll ds).machine.host.log =
          Channel.err.pieces s.machine.host.log ++ texts ∧
        Channel.err.pieces (s'.reportAll ds').machine.host.log =
          Channel.err.pieces s'.machine.host.log ++ texts' ∧
        List.Forall₂ SameReport texts texts' := by
  induction h generalizing s s' with
  | nil => exact ⟨hhad, [], [], (List.append_nil _).symm, (List.append_nil _).symm, .nil⟩
  | @cons d d' rest rest' hd _ ih =>
    obtain ⟨hafter, hwritten⟩ := s.err_report d
    obtain ⟨hafter', hwritten'⟩ := s'.err_report d'
    have hsame : (s.report d).machine.host.err = (s'.report d').machine.host.err := by
      rw [hafter, hafter', herr]
    have hflag : (s.report d).hadError = (s'.report d').hadError := by
      change (s.hadError || d.isCompileTime) = (s'.hadError || d'.isCompileTime)
      rw [hhad, hd.isCompileTime]
    obtain ⟨hlast, texts, texts', htexts, htexts', hrest⟩ := ih hsame hflag
    refine ⟨hlast, errText s.machine.host.err d ++ texts, errText s'.machine.host.err d' ++ texts',
      ?_, ?_, List.rel_append ?_ hrest⟩
    · rw [← List.append_assoc, ← hwritten]
      exact htexts
    · rw [← List.append_assoc, ← hwritten']
      exact htexts'
    · unfold errText
      rw [herr]
      split
      · exact .nil
      · exact .cons ⟨d, d', rfl, rfl, hd.sameButLine⟩ .nil

end Session

/-- Where no lexical fault is found, what is scanned are the tokens. -/
theorem items_alike {T : Token → Token → Prop} {items items' : List Item}
    (hlexical : lexicalErrors items = []) (hlexical' : lexicalErrors items' = [])
    (htokens : List.Forall₂ T (items.filterMap Item.token?) (items'.filterMap Item.token?)) :
    List.Forall₂ (Item.Alike T) items items' := by
  have htoken : ∀ {items : List Item}, lexicalErrors items = [] →
      items = (items.filterMap Item.token?).map .token := by
    intro items h
    induction items with
    | nil => rfl
    | cons item rest ih =>
      cases item with
      | token t => exact congrArg _ (ih h)
      | fault line cause => cases h
  rw [htoken hlexical, htoken hlexical', List.forall₂_map_left_iff, List.forall₂_map_right_iff]
  exact htokens.imp fun _ _ ht ↦ .token ht

/-- Steps from one session that differ in places only: they have the same outcome, they have printed
the same text, and they have reported the same up to line numbers, wherever the stream of
diagnostics may have failed.  The sessions behind them are the same up to the places and identifiers
in trees. -/
structure Step.SameButPlaces (s : Session) (step step' : Step) : Prop where
  outcome : step.outcome = step'.outcome
  printed : step.session.machine.host.written .out = step'.session.machine.host.written .out
  reported : List.Forall₂ Diagnostic.SameButLine step.reported step'.reported
  written : ∃ texts texts',
    Channel.err.pieces step.session.machine.host.log =
      Channel.err.pieces s.machine.host.log ++ texts ∧
    Channel.err.pieces step'.session.machine.host.log =
      Channel.err.pieces s.machine.host.log ++ texts' ∧
    List.Forall₂ SameReport texts texts'
  session : step.session.Alike Token.SameText step'.session
  hadError : step.session.hadError = step'.session.hadError

/-- Layout does not matter: sources without lexical errors whose tokens agree in kind and text are
run alike by a session, with the same streams, input, clock and files. -/
theorem Session.Reachable.run_layout {s : Session} {known : List Site} (hs : s.Reachable known)
    {source source' : String} (hlexical : lexicalErrors (scan source) = [])
    (hlexical' : lexicalErrors (scan source') = [])
    (htokens : (tokens source).map Token.content = (tokens source').map Token.content)
    (fuel : Nat) :
    Option.Rel (Step.SameButPlaces s) (s.run fuel source) (s.run fuel source') := by
  have hself : s.Alike Token.SameText s := hs.alike.imp fun t t' ht ↦ congrArg Token.content ht
  have hsame : List.Forall₂ Token.SameText (tokens source) (tokens source') := by
    rw [← List.forall₂_eq_eq_eq, List.forall₂_map_left_iff, List.forall₂_map_right_iff] at htokens
    exact htokens
  have hrun := hself.run Token.faithful_sameText (items_alike hlexical hlexical' hsame) fuel
  generalize hr : s.run fuel source = r at hrun
  generalize hr' : s.run fuel source' = r' at hrun
  cases hrun with
  | none => exact .none
  | @some step step' hstep =>
    have hreports := Session.sameReports_run hr
    have hreports' := Session.sameReports_run hr'
    obtain ⟨hhad, texts, texts', htexts, htexts', hsame⟩ :=
      Session.reportAll_alike hstep.reported (s := s) rfl rfl
    refine .some
      { outcome := hstep.outcome
        printed := hstep.session.machine.host.written
        reported := hstep.reported.imp fun _ _ hd ↦ hd.sameButLine
        written := ⟨texts, texts', ?_, ?_, hsame⟩
        session := hstep.session
        hadError := ?_ }
    · rw [hreports.written]
      exact htexts
    · rw [hreports'.written]
      exact htexts'
    · rw [hreports.hadError, hreports'.hadError]
      exact hhad

/-- A call that fails, with and without newlines and comments around it. -/
theorem Session.run_layout_comments :
    ((Session.start {}).run 9 "fun f(a) { return -a; } f(nil);").map Step.outcome =
        some .runtimeError ∧
      Option.Rel (Step.SameButPlaces (Session.start {}))
        ((Session.start {}).run 9 "fun f(a) { return -a; } f(nil);")
        ((Session.start {}).run 9 "fun f(a)\n{ return /* minus */ -a; }\n// call\nf ( nil ) ;") :=
  ⟨by decide +kernel, (Session.Reachable.start {}).run_layout (by decide +kernel)
    (by decide +kernel) (by decide +kernel) 9⟩

end Lox
