import Lox.Proofs.Grammar.Nearest
import Lox.Proofs.Parser.Completeness
import Lox.Proofs.Parser.Soundness

/-!
# The parser accepts exactly the grammar

Statements and declarations are read as they are derived, and a program is read without errors if
and only if its tokens derive one.
-/

namespace Lox.Parser

open Grammar

/-- The continuations of a statement: where an `else` could still belong to it, none follows. -/
def NoElse (dangling : Bool) (rest : List Token) : Prop :=
  dangling = true → Stops (· = .elseWord) rest

/-- A declaration that was read, up to identifiers. -/
def Kept (s : Stmt) (o : Option Stmt) : Prop :=
  ∃ s', o = some s' ∧ s.Renumbered s'

theorem Kept.reduceOption {ss : List Stmt} {os : List (Option Stmt)} (h : List.Forall₂ Kept ss os) :
    List.Forall₂ Stmt.Renumbered ss os.reduceOption := by
  induction h with
  | nil => exact .nil
  | cons h _ ih =>
    obtain ⟨s', rfl, hs⟩ := h
    exact .cons hs ih

namespace Complete

variable {ts us : List Token} {bound : Nat}

theorem expression_before (closing : Kind) {e : Expr} (h : Expression ts e)
    (hbound : ts.length ≤ bound) (hextends : extendsExpression closing = false) :
    Complete (Parser.expression bound) ts (begins (· = closing) · = true) e.Renumbered :=
  (expression bound ts e h hbound).mono (fun _ hrest ↦ .of_begins hrest hextends) fun _ he ↦ he

theorem optionalExpression (closing : Kind) {o : Option Expr} (h : Maybe Expression ts o)
    (hbound : ts.length ≤ bound) (hstarts : startsExpression closing = false)
    (hextends : extendsExpression closing = false) :
    Complete (Parser.optionalExpression bound closing) ts (begins (· = closing) · = true)
      (Option.Rel Expr.Renumbered o) := by
  cases h with
  | absent => exact check (fun rest hrest ↦ hrest) (pure .none)
  | present h =>
    refine check (b := false) (fun rest _ ↦ begins_eq_false_of_begins h.begins hstarts rest) ?_
    exact map (expression_before closing h hbound hextends) fun e he ↦ pure (.some he)

theorem initialValue {o : Option Expr} (h : Initializer ts o) (hbound : ts.length ≤ bound) :
    Complete (Parser.initialValue bound) ts (begins (· = .semicolon) · = true)
      (Option.Rel Expr.Renumbered o) := by
  cases h with
  | absent => exact accept_false (fun rest hrest ↦ .of_begins hrest rfl) (pure .none)
  | present hequals h =>
    rw [List.length_cons] at hbound
    refine accept_true hequals ?_
    exact map (expression_before .semicolon h (by omega) rfl) fun e he ↦ pure (.some he)

theorem variableDeclaration {keyword : Token} {s : Stmt} (h : VarDecl (keyword :: ts) s)
    (hbound : ts.length ≤ bound) (follow : List Token → Prop) :
    Complete (Parser.variableDeclaration bound) ts follow s.Renumbered := by
  cases h with
  | mk _ hname hinitializer hsemicolon =>
    rw [List.length_cons, List.length_append] at hbound
    refine expect hname (bind (initialValue hinitializer (by omega)) (fun rest _ ↦ ?_) ?_)
    · simp [hsemicolon]
    · exact fun o ho ↦ expect hsemicolon (pure (.var rfl ho))

theorem expressionStatement {s : Stmt} (h : ExprStmt ts s) (hbound : ts.length ≤ bound + 1)
    (follow : List Token → Prop) :
    Complete (Parser.expressionStatement bound) ts follow s.Renumbered := by
  cases h with
  | mk h hsemicolon =>
    rw [List.length_append, List.length_singleton] at hbound
    refine bind (expression_before .semicolon h (by omega) rfl) (fun rest _ ↦ ?_) ?_
    · exact decide_eq_true hsemicolon
    · exact fun e he ↦ expect hsemicolon (pure (.expression he))

theorem forInitializer {o : Option Stmt} (h : ForStart ts o) (hbound : ts.length ≤ bound)
    (follow : List Token → Prop) :
    Complete (Parser.forInitializer bound) ts follow (Option.Rel Stmt.Renumbered o) := by
  cases h with
  | none hsemicolon => exact accept_true hsemicolon (pure .none)
  | varDecl h =>
    obtain ⟨hkeyword, hname, hinitializer, hsemicolon⟩ := h
    rw [List.length_cons] at hbound
    refine accept_false (fun rest _ ↦ by simp [Stops, hkeyword]) (accept_true hkeyword ?_)
    exact map (variableDeclaration (.mk hkeyword hname hinitializer hsemicolon) (by omega) follow)
      fun s hs ↦ pure (.some hs)
  | exprStmt h =>
    refine accept_false (fun rest _ ↦ ?_) (accept_false (fun rest _ ↦ ?_) ?_)
    · exact begins_eq_false_of_begins h.begins rfl rest
    · exact begins_eq_false_of_begins h.begins rfl rest
    · exact map (expressionStatement h (Nat.le_succ_of_le hbound) follow) fun s hs ↦ pure (.some hs)

theorem superclass {o : Option Expr} (h : Superclass ts o) :
    Complete Parser.superclass ts (begins (· = .leftBrace) · = true)
      (Option.Rel Expr.Renumbered o) := by
  cases h with
  | absent => exact accept_false (fun rest hrest ↦ .of_begins hrest rfl) (pure .none)
  | present hless hname =>
    exact accept_true hless (expect hname (freshId fun id ↦ pure (.some (.var trivial rfl))))

/-! ### Statements and declarations -/

/-- How statements inside a statement are read. -/
def Statements (statement : Bool → Parser Stmt) (bound : Nat) : Prop :=
  ∀ inLoop dangling us s, Statement true inLoop dangling us s → 2 * us.length ≤ bound →
    Complete (statement inLoop) us (NoElse dangling) s.Renumbered

/-- How declarations inside a statement are read. -/
def Declares (declaration : Bool → Parser (Option Stmt)) (bound : Nat) : Prop :=
  ∀ inLoop dangling us s, Declaration true inLoop dangling us s → 2 * us.length + 1 ≤ bound →
    Complete (declaration inLoop) us (NoElse dangling) (Kept s)

/-- Declarations are read up to a continuation that holds neither a declaration nor an `else`. -/
theorem declarations {declaration : Bool → Parser (Option Stmt)}
    (hdeclares : Declares declaration bound) {done : Parser Bool} {test : List Token → Bool}
    (hdone : ∀ s, done s = .ok (test s.rest) s)
    (hstart : ∀ inLoop dangling us s rest, Declaration true inLoop dangling us s →
      test (us ++ rest) = false)
    (hend : ∀ rest, test rest = true → Stops (· = .elseWord) rest) {inLoop : Bool}
    {body : List Stmt} (h : Declarations true inLoop ts body) (hbound : 2 * ts.length + 1 ≤ bound)
    (rounds : Nat) (hrounds : ts.length ≤ rounds) :
    Complete (Parser.manyUntil done (declaration inLoop) rounds) ts (test · = true)
      (List.Forall₂ Kept body) := by
  have hlength : body.length ≤ ts.length := by
    refine h.many.length_le fun us s hs ↦ ?_
    obtain ⟨dangling, hs⟩ := hs
    exact hs.length_pos
  refine manyUntil hdone ?_ ?_ hend h.many rounds (Nat.le_trans hlength hrounds) (Nat.le_refl _)
  · rintro us s ⟨dangling, hs⟩ hus
    exact (hdeclares inLoop dangling us s hs (by omega)).mono (fun _ hrest _ ↦ hrest) fun _ h ↦ h
  · rintro us s rest ⟨dangling, hs⟩
    exact ⟨hstart _ _ _ _ rest hs, begins_eq_false_of_begins hs.begins rfl rest⟩

/-- Whether a block ends here. -/
def endsBlock (rest : List Token) : Bool :=
  rest.isEmpty || begins (· = .rightBrace) rest

theorem blockEnd_eq (s : State) : Parser.blockEnd s = .ok (endsBlock s.rest) s := by
  obtain ⟨rest, stop, n, errors⟩ := s
  cases rest with
  | nil => rfl
  | cons t rest => rfl

theorem endsBlock_eq_false {wanted : Kind → Bool} (h : begins wanted us = true)
    (hwanted : wanted .rightBrace = false) (rest : List Token) :
    endsBlock (us ++ rest) = false := by
  have hbrace := begins_eq_false_of_begins h hwanted rest
  cases us with
  | nil => exact absurd h (by simp)
  | cons t us => rw [endsBlock, hbrace]; rfl

theorem block {declaration : Bool → Parser (Option Stmt)} (hdeclares : Declares declaration bound)
    {inLoop : Bool} {left : Token} {body : List Stmt} (h : Block true inLoop (left :: ts) body)
    (hbound : 2 * ts.length ≤ bound) (follow : List Token → Prop) :
    Complete (Parser.block bound (declaration inLoop)) ts follow
      (List.Forall₂ Stmt.Renumbered body) := by
  cases h with
  | @mk _ _ right us _ _ hbody hright =>
    rw [List.length_append, List.length_singleton] at hbound
    have hmany := declarations hdeclares blockEnd_eq
      (fun _ _ _ _ rest hs ↦ endsBlock_eq_false hs.begins rfl rest) ?_ hbody (by omega)
      bound (by omega)
    · refine bind hmany (fun rest _ ↦ ?_) fun os hos ↦ expect hright (pure (Kept.reduceOption hos))
      simp [endsBlock, hright]
    · intro rest hrest
      cases rest with
      | nil => rfl
      | cons t rest =>
        have hbrace : begins (· = .rightBrace) (t :: rest) = true := by
          simpa [endsBlock] using hrest
        exact .of_begins hbrace rfl

theorem routine {declaration : Bool → Parser (Option Stmt)} {kind : RoutineKind}
    (hdeclares : Declares declaration bound) {routine : Routine Stmt}
    (h : Function true ts routine) (hbound : 2 * ts.length ≤ bound + 2)
    (follow : List Token → Prop) :
    Complete (Parser.routine bound kind declaration) ts follow
      (Routine.Alike Eq Stmt.Renumbered routine) := by
  obtain @⟨name, left, right, us, vs, params, body, hname, hleft, hparams, hright, hbody⟩ := h
  obtain @⟨_, brace, right', ws, _, hbrace, hbody, hright'⟩ := hbody
  simp only [List.length_cons, List.length_append, List.length_nil] at hbound
  have hparameter : ∀ us t, Name us t → us.length ≤ bound →
      Complete (Parser.expect .identifier .expectParameterName) us (fun _ ↦ True) (t = ·) := by
    rintro us t ⟨ht⟩ _
    exact expect_only ht
  have hlist : Complete (Parser.listed bound .tooManyParameters
      (Parser.expect .identifier .expectParameterName)) us (begins (· = .rightParen) · = true)
      (List.Forall₂ Eq params) :=
    listed _ hparameter (fun _ _ _ ↦ trivial) (fun us t rest ht ↦ by obtain ⟨ht⟩ := ht; simp [ht])
      hparams (by omega) (by omega)
  refine expect hname (expect hleft ?_)
  refine bind hlist (fun rest _ ↦ by simp [hright]) fun params' hp ↦ ?_
  refine expect hright (expect hbrace ?_)
  have hlength : 2 * (ws ++ [right']).length ≤ bound := by
    rw [List.length_append, List.length_singleton]
    omega
  have hblock := block hdeclares (.mk hbrace hbody hright') hlength follow
  exact map hblock fun body' hb ↦ pure (.mk rfl hp hb)

theorem methods {declaration : Bool → Parser (Option Stmt)}
    (hdeclares : Declares declaration bound) {methods : List (Routine Stmt)}
    (h : Functions true ts methods) (hbound : 2 * ts.length ≤ bound) :
    Complete (Parser.manyUntil Parser.blockEnd (Parser.routine bound .method declaration) bound) ts
      (endsBlock · = true) (List.Forall₂ (Routine.Alike Eq Stmt.Renumbered) methods) := by
  have hbegins : ∀ {us r}, Function true us r → begins (· = .identifier) us = true := by
    rintro us r ⟨hname, -, -, -, -⟩
    exact decide_eq_true hname
  have hlength : methods.length ≤ ts.length :=
    h.many.length_le fun us r hr ↦ length_pos_of_begins (hbegins hr)
  refine manyUntil blockEnd_eq ?_ ?_ (fun _ _ ↦ trivial) h.many bound (by omega) (Nat.le_refl _)
  · exact fun us r hr hus ↦ routine hdeclares hr (by omega) _
  · exact fun us r rest hr ↦ ⟨endsBlock_eq_false (hbegins hr) rfl rest, trivial⟩

/-- A declaration that is no statement, behind its keyword. -/
theorem declarationAfter {declaration : Bool → Parser (Option Stmt)}
    (hdeclares : Declares declaration bound) {inLoop dangling : Bool} {s : Stmt}
    (h : Declaration true inLoop dangling ts s) (hbound : 2 * ts.length ≤ bound)
    (follow : List Token → Prop) :
    Statement true inLoop dangling ts s ∨
      ∃ token us, ts = token :: us ∧ startsDeclaration token.kind = true ∧
        Complete (Parser.declarationAfter bound declaration token) us follow s.Renumbered := by
  cases h with
  | @classDecl _ keyword name left right us vs extended methods' hkeyword hname hextended hleft
      hmethods hright =>
    refine .inr ⟨keyword, _, rfl, by simp [hkeyword, startsDeclaration], ?_⟩
    simp only [List.length_cons, List.length_append, List.length_nil] at hbound
    simp only [Parser.declarationAfter, hkeyword]
    refine expect hname (bind (superclass hextended) (fun rest _ ↦ by simp [hleft]) ?_)
    intro extended' hextended'
    refine expect hleft (bind (methods hdeclares hmethods (by omega)) (fun rest _ ↦ ?_) ?_)
    · simp [endsBlock, hright]
    · exact fun methods' hmethods' ↦ expect hright (pure (.classDecl rfl hextended' hmethods'))
  | @funDecl _ keyword us r hkeyword h =>
    refine .inr ⟨keyword, us, rfl, by simp [hkeyword, startsDeclaration], ?_⟩
    rw [List.length_cons] at hbound
    simp only [Parser.declarationAfter, hkeyword]
    exact map (routine hdeclares h (by omega) follow) fun r' hr ↦ pure (.function hr)
  | varDecl h =>
    obtain ⟨hkeyword, hname, hinitializer, hsemicolon⟩ := h
    refine .inr ⟨_, _, rfl, by simp [hkeyword, startsDeclaration], ?_⟩
    rw [List.length_cons] at hbound
    simp only [Parser.declarationAfter, hkeyword]
    exact variableDeclaration (.mk hkeyword hname hinitializer hsemicolon) (by omega) follow
  | statement h => exact .inl h

/-- A statement that is no expression, behind its first token. -/
theorem statementAfter {statement : Bool → Parser Stmt} {declaration : Bool → Parser (Option Stmt)}
    (hstatements : Statements statement bound) (hdeclares : Declares declaration bound)
    {inLoop dangling : Bool} {s : Stmt} (h : Statement true inLoop dangling ts s)
    (hbound : 2 * ts.length ≤ bound + 1) :
    ExprStmt ts s ∨ ∃ token us, ts = token :: us ∧ startsStatement token.kind = true ∧
      Complete (Parser.statementAfter bound statement declaration inLoop token) us
        (NoElse dangling) s.Renumbered := by
  cases h with
  | expression h => exact .inl h
  | @forLoop _ _ keyword left semicolon right us vs ws xs initializer condition increment body
      hkeyword hleft hinitializer hcondition hsemicolon hincrement hright hbody =>
    refine .inr ⟨keyword, _, rfl, by simp [hkeyword, startsStatement], ?_⟩
    simp only [List.length_cons, List.length_append] at hbound
    simp only [Parser.statementAfter, hkeyword]
    rw [List.append_assoc]
    refine expect hleft (bind (forInitializer hinitializer (by omega) fun _ ↦ True)
      (fun _ _ ↦ trivial) fun initializer' hi ↦ ?_)
    refine bind (optionalExpression .semicolon hcondition (by omega) rfl rfl) (fun rest _ ↦ ?_)
      fun condition' hc ↦ expect hsemicolon ?_
    · exact decide_eq_true hsemicolon
    refine bind (optionalExpression .rightParen hincrement (by omega) rfl rfl) (fun rest _ ↦ ?_)
      fun increment' hn ↦ expect hright ?_
    · exact decide_eq_true hright
    exact map (hstatements true dangling xs body hbody (by omega))
      fun body' hb ↦ pure (.forLoop hi hc hn hb)
  | @ifThen _ inner keyword left right us vs condition branch hkeyword hleft hcondition hright
      hbranch =>
    refine .inr ⟨keyword, _, rfl, by simp [hkeyword, startsStatement], ?_⟩
    simp only [List.length_cons, List.length_append] at hbound
    simp only [Parser.statementAfter, hkeyword]
    refine expect hleft (bind (expression_before .rightParen hcondition (by omega) rfl)
      (fun rest _ ↦ decide_eq_true hright) fun condition' hc ↦ expect hright ?_)
    refine map ((hstatements inLoop inner vs branch hbranch (by omega)).mono
      (fun rest hrest _ ↦ hrest rfl) fun _ h ↦ h) fun branch' hb ↦ ?_
    exact accept_false (fun rest hrest ↦ hrest rfl) (pure (.ifThen hc hb))
  | @ifElse _ inner _ keyword left right otherwise us vs ws condition branch other hkeyword hleft
      hcondition hright hbranch hnearest hotherwise hother =>
    refine .inr ⟨keyword, _, rfl, by simp [hkeyword, startsStatement], ?_⟩
    simp only [List.length_cons, List.length_append] at hbound
    simp only [Parser.statementAfter, hkeyword]
    refine expect hleft (bind (expression_before .rightParen hcondition (by omega) rfl)
      (fun rest _ ↦ decide_eq_true hright) fun condition' hc ↦ expect hright ?_)
    refine bind (hstatements inLoop inner vs branch hbranch (by omega)) (fun rest _ hinner ↦ ?_)
      fun branch' hb ↦ accept_true hotherwise ?_
    · exact absurd hinner (by simp [hnearest rfl])
    exact map (hstatements inLoop dangling ws other hother (by omega))
      fun other' ho ↦ pure (.ifElse hc hb ho)
  | @print _ keyword semicolon us e hkeyword h hsemicolon =>
    refine .inr ⟨keyword, _, rfl, by simp [hkeyword, startsStatement], ?_⟩
    simp only [List.length_cons, List.length_append] at hbound
    simp only [Parser.statementAfter, hkeyword]
    exact bind (expression_before .semicolon h (by omega) rfl)
      (fun rest _ ↦ decide_eq_true hsemicolon) fun e' he ↦ expect hsemicolon (pure (.print he))
  | @«return» _ keyword semicolon us value hkeyword h hsemicolon =>
    refine .inr ⟨keyword, _, rfl, by simp [hkeyword, startsStatement], ?_⟩
    simp only [List.length_cons, List.length_append] at hbound
    simp only [Parser.statementAfter, hkeyword]
    exact bind (optionalExpression .semicolon h (by omega) rfl rfl)
      (fun rest _ ↦ decide_eq_true hsemicolon)
      fun value' hv ↦ expect hsemicolon (pure (.return rfl hv))
  | @«while» _ _ keyword left right us vs condition body hkeyword hleft hcondition hright hbody =>
    refine .inr ⟨keyword, _, rfl, by simp [hkeyword, startsStatement], ?_⟩
    simp only [List.length_cons, List.length_append] at hbound
    simp only [Parser.statementAfter, hkeyword]
    refine expect hleft (bind (expression_before .rightParen hcondition (by omega) rfl)
      (fun rest _ ↦ decide_eq_true hright) fun condition' hc ↦ expect hright ?_)
    exact map (hstatements true dangling vs body hbody (by omega))
      fun body' hb ↦ pure (.while hc hb)
  | @«break» keyword semicolon hkeyword hsemicolon =>
    refine .inr ⟨keyword, _, rfl, by simp [hkeyword, startsStatement], ?_⟩
    simp only [Parser.statementAfter, hkeyword]
    exact expect hsemicolon (pure (.break rfl))
  | @«continue» keyword semicolon hkeyword hsemicolon =>
    refine .inr ⟨keyword, _, rfl, by simp [hkeyword, startsStatement], ?_⟩
    simp only [Parser.statementAfter, hkeyword]
    exact expect hsemicolon (pure (.continue rfl))
  | block h =>
    obtain ⟨hleft, hbody, hright⟩ := h
    refine .inr ⟨_, _, rfl, by simp [hleft, startsStatement], ?_⟩
    simp only [List.length_cons] at hbound
    simp only [Parser.statementAfter, hleft]
    exact map (block hdeclares (.mk hleft hbody hright) (by omega) _)
      fun body' hb ↦ pure (.block hb)

theorem recover {p : Parser Stmt} {s : Stmt} {follow : List Token → Prop}
    (h : Complete p ts follow s.Renumbered) :
    Complete (Parser.recover p) ts follow (Kept s) := by
  intro n
  obtain ⟨s', n', hs, hp⟩ := h n
  refine ⟨some s', n', ⟨s', rfl, hs⟩, fun rest stop errors hrest ↦ ?_⟩
  rw [Parser.recover, hp rest stop errors hrest]

/-- Both recursive rules are complete, by induction on their bound. -/
theorem declaration_and_statement (bound : Nat) :
    Declares (Parser.declaration bound) bound ∧ Statements (Parser.statement bound) bound := by
  induction bound with
  | zero =>
    refine ⟨fun inLoop dangling us s h hbound ↦ ?_, fun inLoop dangling us s h hbound ↦ ?_⟩
    · omega
    · exact absurd (length_pos_of_begins h.begins) (by omega)
  | succ bound ih =>
    obtain ⟨hdeclares, hstatements⟩ := ih
    refine ⟨fun inLoop dangling us s h hbound ↦ recover ?_, fun inLoop dangling us s h hbound ↦ ?_⟩
    · rcases declarationAfter hdeclares h (by omega) (NoElse dangling) with
        h | ⟨token, us, rfl, htoken, hafter⟩
      · refine acceptIf_none (fun rest _ ↦ ?_) (hstatements inLoop dangling us s h (by omega))
        exact begins_append_eq_false h.begins
          (fun kind hkind ↦ by cases kind <;> first | rfl | exact absurd hkind (by decide)) rest
      · exact acceptIf_some htoken hafter
    · rcases statementAfter hstatements hdeclares h hbound with h | ⟨token, us, rfl, htoken, hafter⟩
      · refine acceptIf_none (fun rest _ ↦ ?_) (expressionStatement h (by omega) _)
        exact begins_append_eq_false h.begins
          (fun kind hkind ↦ by cases kind <;> first | rfl | exact absurd hkind (by decide)) rest
      · exact acceptIf_some htoken hafter

theorem program {program : List Stmt} (h : Program true ts program) (hbound : ts.length ≤ bound) :
    Complete (Parser.manyUntil Parser.atEnd (Parser.declaration (2 * bound + 1) false) bound) ts
      (·.isEmpty = true) (List.Forall₂ Kept program) := by
  refine declarations (declaration_and_statement (2 * bound + 1)).1 (fun s ↦ rfl)
    (fun _ _ us s rest hs ↦ ?_) (fun rest hrest ↦ ?_) h (by omega) bound hbound
  · have hpos := hs.length_pos
    rw [List.isEmpty_eq_false_iff, ← List.length_pos_iff, List.length_append]
    omega
  · rw [List.isEmpty_iff.1 hrest]
    rfl

end Complete

end Lox.Parser

namespace Lox

/-- What derives a program is read without errors, and read as it is derived. -/
theorem errors_eq_nil_of_program (nextId : NodeId) {tokens : List Token} {program : List Stmt}
    (h : Grammar.Program true (tokens.takeWhile (·.kind ≠ .endOfInput)) program) :
    (readProgram nextId tokens).errors = [] ∧
      List.Forall₂ Stmt.Renumbered program (readProgram nextId tokens).result := by
  obtain ⟨os, n, hos, hread⟩ := Parser.Complete.program h (Nat.le_refl _) nextId
  have hstart := hread [] (Parser.stopOf tokens) #[] rfl
  rw [List.append_nil] at hstart
  have hresult : readProgram nextId tokens = ⟨os.reduceOption, [], n⟩ := by
    unfold readProgram
    dsimp only
    rw [show Parser.State.start nextId tokens = ⟨_, _, _, _⟩ from rfl, hstart]
  rw [hresult]
  exact ⟨rfl, Parser.Kept.reduceOption hos⟩

/-- The parser accepts exactly the grammar: reading notes no error if and only if the tokens before
the end derive a program.  Then what was read is a program derived from them with every `else` at
the nearest `if`, and up to identifiers it is the only one. -/
theorem errors_eq_nil_iff_program (nextId : NodeId) (tokens : List Token) :
    ((readProgram nextId tokens).errors = [] ↔
      ∃ program, Grammar.Program false (tokens.takeWhile (·.kind ≠ .endOfInput)) program) ∧
    ((readProgram nextId tokens).errors = [] →
      Grammar.Program true (tokens.takeWhile (·.kind ≠ .endOfInput))
        (readProgram nextId tokens).result ∧
      ∀ program, Grammar.Program true (tokens.takeWhile (·.kind ≠ .endOfInput)) program →
        List.Forall₂ Stmt.Renumbered program (readProgram nextId tokens).result) := by
  refine ⟨⟨fun h ↦ ?_, fun h ↦ ?_⟩, fun h ↦ ⟨program_of_errors_eq_nil h, fun program hp ↦ ?_⟩⟩
  · exact ⟨_, (program_of_errors_eq_nil h).weaken (by simp) id⟩
  · obtain ⟨program, hprogram⟩ := h
    obtain ⟨program', hprogram'⟩ := hprogram.exists_nearest
    exact (errors_eq_nil_of_program nextId hprogram').1
  · exact (errors_eq_nil_of_program nextId hp).2

/-- The tokens of `if (a) if (b) {} else {}`. -/
def danglingElse : List Token :=
  [⟨.ifWord, "if", 1, 1⟩, ⟨.leftParen, "(", 1, 4⟩, ⟨.identifier, "a", 1, 5⟩,
    ⟨.rightParen, ")", 1, 6⟩, ⟨.ifWord, "if", 1, 8⟩, ⟨.leftParen, "(", 1, 11⟩,
    ⟨.identifier, "b", 1, 12⟩, ⟨.rightParen, ")", 1, 13⟩, ⟨.leftBrace, "\x7b", 1, 15⟩,
    ⟨.rightBrace, "\x7d", 1, 16⟩, ⟨.elseWord, "else", 1, 18⟩, ⟨.leftBrace, "\x7b", 1, 23⟩,
    ⟨.rightBrace, "\x7d", 1, 24⟩, ⟨.endOfInput, "", 1, 25⟩]

theorem program_danglingElse : (readProgram 0 danglingElse).errors = [] ∧
    Grammar.Program true (danglingElse.takeWhile (·.kind ≠ .endOfInput))
      (readProgram 0 danglingElse).result := by
  have herrors : (readProgram 0 danglingElse).errors = [] := by decide +kernel
  exact ⟨herrors, ((errors_eq_nil_iff_program 0 danglingElse).2 herrors).1⟩

end Lox
