import Lox.Proofs.Parser.Acceptance
import Lox.Proofs.Session.Likeness
import Lox.Proofs.Session.Scoping
import Lox.Proofs.Session.Steps
import Lox.Proofs.Token.Concatenation

/-!
# Programs in parts

Two sources without errors may be given to a session one after the other, or both at once with a
newline between them.  It makes no difference, except that the tokens of the second source are found
further down and nodes have other identifiers.

Each phase is taken apart in turn.  The tokens of the second source follow those of the first, so
the declarations do; resolution leaves no scope open between them, so depths are the same; and what
runs first leaves a machine behind on which the rest runs.
-/

namespace Lox

/-- A source in which scanning, reading and resolution find no errors. -/
structure Accepted (source : String) : Prop where
  lexical : lexicalErrors (scan source) = []
  syntactic : (readProgram 0 (tokens source)).errors = []
  static : Quiet (resolve (readProgram 0 (tokens source)).result)

instance (source : String) : Decidable (Accepted source) :=
  decidable_of_iff
    (lexicalErrors (scan source) = [] ∧ (readProgram 0 (tokens source)).errors = [] ∧
      ∀ f ∈ resolve (readProgram 0 (tokens source)).result, f.violation? = none)
    ⟨fun ⟨hlexical, hsyntactic, hstatic⟩ ↦ ⟨hlexical, hsyntactic, hstatic⟩,
      fun h ↦ ⟨h.lexical, h.syntactic, h.static⟩⟩

namespace Accepted

variable {source more : String}

/-- Whichever identifiers are given out, no errors are found. -/
theorem at_id (h : Accepted source) (n : NodeId) :
    (readProgram n (tokens source)).errors = [] ∧
      Quiet (resolve (readProgram n (tokens source)).result) := by
  have hreading := Reading.Alike.readProgram Token.faithful_eq
    (List.forall₂_same.2 fun t (_ : t ∈ tokens source) ↦ rfl) rfl 0 n
  obtain ⟨hresult, herrors⟩ := hreading
  rw [h.syntactic] at herrors
  refine ⟨List.forall₂_nil_left_iff.1 herrors, ?_⟩
  exact .of_alike (Stmt.Alike.findingsAll Token.faithful_eq {} [] hresult) h.static

end Accepted

/-- A token of a source that may have moved down a number of lines, or any token that has not
moved. -/
def Token.Moved (source : String) (lines : Nat) (t t' : Token) : Prop :=
  t' = t ∨ t ∈ tokens source ∧ t' = t.down lines

theorem Token.faithful_moved (source : String) (lines : Nat) :
    Token.Faithful (Token.Moved source lines) where
  kind := by
    rintro t t' (rfl | ⟨-, rfl⟩)
    · rfl
    · rfl
  lexeme := by
    rintro t t' (rfl | ⟨-, rfl⟩)
    · rfl
    · rfl

section Reading

variable {source more : String}

/-- A source further down is read like the source. -/
theorem readProgram_down (source : String) (lines : Nat) (n n' : NodeId) :
    Reading.Alike (Token.Moved source lines)
      (List.Forall₂ (Stmt.Similar (Token.Moved source lines)))
      (readProgram n (tokens source)) (readProgram n' ((tokens source).map (·.down lines))) := by
  have hT := Token.faithful_moved source lines
  have htokens : List.Forall₂ (Token.Moved source lines) (tokens source)
      ((tokens source).map (·.down lines)) :=
    List.forall₂_map_right_iff.2 (List.forall₂_same.2 fun t ht ↦ .inr ⟨ht, rfl⟩)
  exact .readProgram hT htokens (stopOf_alike hT htokens (exists_endOfInput source)) n n'

/-- The tokens before the end of two sources at once are those of both. -/
theorem takeWhile_tokens_newline (hlexical : lexicalErrors (scan source) = []) :
    (tokens (source ++ "\n" ++ more)).takeWhile (·.kind ≠ .endOfInput) =
      (tokens source).takeWhile (·.kind ≠ .endOfInput) ++
        ((tokens more).map (·.down (lastLine source))).takeWhile (·.kind ≠ .endOfInput) := by
  rw [tokens_newline hlexical]
  exact List.takeWhile_append_of_pos fun t ht ↦ List.all_eq_true.1 List.all_takeWhile t ht

/-- Two sources at once are read as the declarations of one and then those of the other. -/
theorem readProgram_newline (hsource : Accepted source) (hmore : Accepted more)
    (n n₁ n₂ : NodeId) :
    (readProgram n (tokens (source ++ "\n" ++ more))).errors = [] ∧ ∃ first second,
      (readProgram n (tokens (source ++ "\n" ++ more))).result = first ++ second ∧
      List.Forall₂ (Stmt.Similar Eq) (readProgram n₁ (tokens source)).result first ∧
      List.Forall₂ (Stmt.Similar (Token.Moved more (lastLine source)))
        (readProgram n₂ (tokens more)).result second := by
  obtain ⟨hsimilar, herrors⟩ := readProgram_down more (lastLine source) n₂ 0
  rw [(hmore.at_id n₂).1, List.forall₂_nil_left_iff] at herrors
  have hderived := (program_of_errors_eq_nil (hsource.at_id n₁).1).append
    (program_of_errors_eq_nil herrors)
  rw [← takeWhile_tokens_newline hsource.lexical] at hderived
  obtain ⟨hnone, hread⟩ := errors_eq_nil_of_program n hderived
  have hlength : (readProgram n₁ (tokens source)).result.length =
      ((readProgram n (tokens (source ++ "\n" ++ more))).result.take
        (readProgram n₁ (tokens source)).result.length).length := by
    have htotal := hread.length_eq
    rw [List.length_append] at htotal
    rw [List.length_take]
    omega
  rw [← List.take_append_drop (readProgram n₁ (tokens source)).result.length
    (readProgram n (tokens (source ++ "\n" ++ more))).result] at hread
  obtain ⟨hfirst, hsecond⟩ := forall₂_of_append hlength hread
  refine ⟨hnone, _, _, (List.take_append_drop _ _).symm, hfirst,
    Stmt.Alike.transAll ?_ hsimilar hsecond⟩
  rintro t t' t'' ht rfl
  exact ht

/-- Two sources at once have no errors if neither has. -/
theorem Accepted.newline (hsource : Accepted source) (hmore : Accepted more) :
    Accepted (source ++ "\n" ++ more) := by
  obtain ⟨hsyntactic, first, second, hread, hfirst, hsecond⟩ :=
    readProgram_newline hsource hmore 0 0 0
  refine ⟨lexicalErrors_newline hsource.lexical hmore.lexical, hsyntactic, ?_⟩
  have hT := Token.faithful_moved more (lastLine source)
  rw [hread, resolve, Stmt.findingsAll_append]
  exact Quiet.append_iff.2
    ⟨.of_alike (Stmt.Alike.findingsAll Token.faithful_eq {} [] hfirst) hsource.static,
      .of_alike (Stmt.Alike.findingsAll hT {} [] hsecond) hmore.static⟩

end Reading

/-! ### Running -/

/-- Where flushing never fails, it cannot be told whether there was a flush. -/
theorem Host.alike_flush_out {h : Host} (hflush : ∀ n, h.out.flushFailure n = none) :
    (h.flush .out).1 = .ok () ∧ (h.flush .out).2.Alike h := by
  unfold Host.flush
  dsimp only [Host.sink, Host.setSink]
  rw [hflush]
  refine ⟨rfl, ⟨fun _ ↦ rfl, fun k ↦ ?_⟩, rfl, rfl, fun _ ↦ rfl, rfl⟩
  rw [hflush]
  exact (hflush _).symm

theorem Run.flush_eq (m : Machine) : Run.flush m =
    match (m.host.flush .out).1 with
    | .ok () => .ok () { m with host := (m.host.flush .out).2 }
    | .error failure => .error (.output failure) { m with host := (m.host.flush .out).2 } := by
  change (match (m.host.flush .out).1 with
    | .ok () => pure ()
    | .error failure => throw (.output failure) : Run Unit)
    { m with host := (m.host.flush .out).2 } = _
  generalize (m.host.flush .out).1 = result
  cases result with
  | ok _ => rfl
  | error _ => rfl

namespace Session

variable {s s' : Session} {source : String} {x y : Run Unit} {m : Machine}

theorem runWith_of_accepted (h : Accepted source) (execute : List Stmt → Run Unit) (s : Session) :
    s.runWith execute source =
      (s.resolved source).perform (execute (readProgram s.nextId (tokens source)).result) := by
  obtain ⟨herrors, hquiet⟩ := h.at_id s.nextId
  cases s.programFate source with
  | misread hsome _ => exact absurd (programErrors_eq_nil_iff.2 ⟨h.lexical, herrors⟩) hsome
  | violating _ _ hsome _ => exact absurd (violations_eq_nil_iff.2 hquiet) hsome
  | executed _ _ _ hstep => exact hstep execute

theorem perform_program_of_ok {fuel : Nat} {part : List Stmt}
    (h : Run.each fuel part s.machine = .ok () m) (rest : List Stmt) :
    s.perform (Run.program fuel (part ++ rest)) =
      Session.perform { s with machine := m } (Run.program fuel rest) := by
  unfold Session.perform
  rw [Run.program_append_of_ok h rest]

/-- What follows a part that halts makes no difference. -/
theorem perform_program_of_error {fuel : Nat} {part : List Stmt} {halt : Halt}
    (h : Run.each fuel part s.machine = .error halt m) (rest : List Stmt) :
    s.perform (Run.program fuel (part ++ rest)) = s.perform (Run.each fuel part) := by
  apply Session.perform_congr
  rw [Run.program_append_of_error h rest, h]

/-- Two parts that halt alike are reported alike, as runtime errors. -/
theorem Alike.perform_each_of_error (h : s.Alike Eq s') {fuel : Nat} {part part' : List Stmt}
    (heach : Run.Likewise Eq (s.tables s') Eq (Run.each fuel part) (Run.each fuel part'))
    {halt : Halt} (hhalt : Run.each fuel part s.machine = .error halt m) :
    Option.Rel (fun first both ↦ first.outcome = .runtimeError ∧ first.Alike Eq both)
      (s.perform (Run.each fuel part)) (s'.perform (Run.each fuel part')) := by
  have halike := h.perform heach
  generalize hstep : s.perform (Run.each fuel part) = o at halike ⊢
  generalize s'.perform (Run.each fuel part') = o' at halike ⊢
  cases halike with
  | none => exact .none
  | some hboth => exact .some ⟨Session.outcome_perform_of_error hhalt hstep, hboth⟩

theorem Alike.imp {T T' : Token → Token → Prop} (hT : ∀ t t', T t t' → T' t t')
    (h : s.Alike T s') : s.Alike T' s' where
  machine := ⟨h.machine.heap.imp hT fun _ _ hi ↦ hi, h.machine.current, h.machine.addresses,
    h.machine.host⟩
  recorded := h.recorded
  recorded' := h.recorded'
  hadRuntimeError := h.hadRuntimeError

theorem HasResolved.of_append {first second : List Stmt} (h : s.HasResolved (first ++ second)) :
    s.HasResolved first ∧ s.HasResolved second := by
  obtain ⟨hquiet, haddressed, hgiven⟩ := h
  rw [resolve, Stmt.findingsAll_append] at hquiet
  rw [← Stmt.map_id_sitesAll [], Stmt.sitesAll_append, List.map_append] at hgiven
  rw [Stmt.sitesAll_append] at haddressed
  obtain ⟨hquiet₁, hquiet₂⟩ := Quiet.append_iff.1 hquiet
  obtain ⟨haddressed₁, haddressed₂⟩ := List.forall_mem_append.1 haddressed
  obtain ⟨hgiven₁, hgiven₂⟩ := List.forall_mem_append.1 hgiven
  rw [Stmt.map_id_sitesAll] at hgiven₁ hgiven₂
  exact ⟨⟨hquiet₁, haddressed₁, hgiven₁⟩, ⟨hquiet₂, haddressed₂, hgiven₂⟩⟩

/-- What runs leaves the depths as they are. -/
theorem HasResolved.run_to {program : List Stmt} (h : s.HasResolved program)
    (hm : m.addresses = s.machine.addresses) :
    Session.HasResolved { s with machine := m } program := by
  refine ⟨h.quiet, ?_, h.given⟩
  rw [hm]
  exact h.addressed

/-- What runs decides nothing about when a flush fails. -/
theorem Sound.flushFailure_each {known : List Site} (h : s.Sound known) (hsource : Accepted source)
    {fuel : Nat} (hm : Run.each fuel (readProgram s.nextId (tokens source)).result
      (s.resolved source).machine = .ok () m) :
    m.host.out.flushFailure = s.machine.host.out.flushFailure := by
  obtain ⟨herrors, hquiet⟩ := hsource.at_id s.nextId
  have hprogram := Run.program_append_of_ok hm []
  have hpost := (h.agree .exhausted fuel source herrors hquiet).2
  rw [List.append_nil] at hprogram
  rw [hprogram, Run.program, Run.flush_eq] at hpost
  have hend : (m.host.flush .out).2.out.flushFailure = s.machine.host.out.flushFailure := by
    cases hok : (m.host.flush .out).1 with
    | ok _ =>
      rw [hok] at hpost
      exact hpost.1.host.flushFailure
    | error failure =>
      rw [hok] at hpost
      exact hpost.1.host.flushFailure
  calc m.host.out.flushFailure
    _ = (m.host.flush .out).2.out.flushFailure := m.host.keeps_flush.flushFailure.symm
    _ = s.machine.host.out.flushFailure := hend

/-- A source runs like the part of a larger program that is read from it, on a session that has
resolved the larger program. -/
theorem Alike.run_part {T : Token → Token → Prop} (hT : Token.Faithful T) (h : s.Alike T s')
    (hsource : Accepted source) {part : List Stmt}
    (hsimilar : List.Forall₂ (Stmt.Similar T) (readProgram s.nextId (tokens source)).result part)
    (hpart : s'.HasResolved part) (fuel : Nat) :
    Option.Rel (Step.Alike T) (s.run fuel source) (s'.perform (Run.program fuel part)) := by
  rw [Session.run, runWith_of_accepted hsource]
  have hresolved := Session.hasResolved h.recorded (hsource.at_id s.nextId).2
  have hgrown := h.grow (.resolved h.recorded source) (.refl h.recorded')
  exact hgrown.perform (Run.Likewise.program hT fuel (hresolved.alike hT hsimilar hpart))

/-- After the first part one flush more is all that tells the machines apart, so the second part
goes on alike. -/
theorem Alike.run_rest (h : s.Alike Eq s') {m' : Machine} (hm : m.Alike Eq (s.tables s') m')
    (hflush : ∀ n, m.host.out.flushFailure n = none) (hsource : Accepted source) {lines : Nat}
    {rest : List Stmt} (hsimilar : List.Forall₂ (Stmt.Similar (Token.Moved source lines))
      (readProgram s.nextId (tokens source)).result rest)
    (hrest : s'.HasResolved rest) (fuel : Nat) :
    Option.Rel (Step.Alike (Token.Moved source lines))
      (Session.run fuel { s with machine := { m with host := (m.host.flush .out).2 } } source)
      (Session.perform { s' with machine := m' } (Run.program fuel rest)) := by
  have hhost := (Host.alike_flush_out hflush).2
  have hafter := h.run_to (m := { m with host := (m.host.flush .out).2 })
    ⟨hm.heap, hm.current, hm.addresses, hhost.trans hm.host⟩
  exact (hafter.imp fun t t' ht ↦ .inl ht.symm).run_part (Token.faithful_moved _ _) hsource hsimilar
    (hrest.run_to hm.addresses.2) fuel

end Session

/-- It makes no difference whether two sources without errors run one after the other or at once.
If the first one succeeds, the second one then ends as both do at once: with the same outcome, the
same error up to its line, the same printed text, and the same session up to trees, in which tokens
of the second source are further down.  If the first one fails, both at once end just as it does,
and so would anything in the place of the declarations of the second. -/
theorem Session.Reachable.run_newline {s : Session} {known : List Site} (hs : s.Reachable known)
    (hflush : ∀ n, s.machine.host.out.flushFailure n = none) {source more : String}
    (hsource : Accepted source) (hmore : Accepted more) (fuel : Nat) :
    Accepted (source ++ "\n" ++ more) ∧
      match s.run fuel source with
      | none => s.run fuel (source ++ "\n" ++ more) = none
      | some first =>
        match first.outcome with
        | .success =>
          Option.Rel (Step.Alike (Token.Moved more (lastLine source))) (first.session.run fuel more)
            (s.run fuel (source ++ "\n" ++ more))
        | .runtimeError =>
          ∃ both, s.run fuel (source ++ "\n" ++ more) = some both ∧ first.Alike Eq both ∧
            ∀ others, s.runWith (fun program ↦ Run.program fuel (program.take
              (readProgram s.nextId (tokens source)).result.length ++ others))
              (source ++ "\n" ++ more) = some both
        | .compileError => False := by
  have hboth := hsource.newline hmore
  have hself := hs.alike
  obtain ⟨-, first, second, hread, hfirst, hsecond⟩ :=
    readProgram_newline hsource hmore s.nextId s.nextId (s.resolved source).nextId
  have hresolved : (s.resolved source).Alike Eq (s.resolved (source ++ "\n" ++ more)) :=
    hself.grow (.resolved hself.recorded _) (.resolved hself.recorded _)
  have hprogram := Session.hasResolved hself.recorded (hsource.at_id s.nextId).2
  have hprograms := Session.hasResolved hself.recorded (hboth.at_id s.nextId).2
  rw [hread] at hprograms
  obtain ⟨hpart, hpart'⟩ := hprograms.of_append
  have heach : Run.Likewise Eq ((s.resolved source).tables (s.resolved (source ++ "\n" ++ more))) Eq
      (Run.each fuel (readProgram s.nextId (tokens source)).result) (Run.each fuel first) :=
    .each Token.faithful_eq fuel (hprogram.alike Token.faithful_eq hfirst hpart)
  have hends := heach _ _ hresolved.machine
  have hrun : s.run fuel source = (s.resolved source).perform
      (Run.program fuel ((readProgram s.nextId (tokens source)).result ++ [])) := by
    rw [List.append_nil]
    exact Session.runWith_of_accepted hsource _ s
  have hruns : ∀ execute, s.runWith execute (source ++ "\n" ++ more) =
      (s.resolved (source ++ "\n" ++ more)).perform (execute (first ++ second)) := by
    intro execute
    rw [Session.runWith_of_accepted hboth, hread]
  refine ⟨hboth, ?_⟩
  generalize hr : Run.each fuel (readProgram s.nextId (tokens source)).result
    (s.resolved source).machine = r at hends
  generalize hr' : Run.each fuel first (s.resolved (source ++ "\n" ++ more)).machine = r' at hends
  cases hends with
  | @ok _ _ m m' _ hm =>
    have hnever : ∀ n, m.host.out.flushFailure n = none := by
      rw [hs.sound.flushFailure_each hsource hr]
      exact hflush
    have hdone := Run.program_append_of_ok hr []
    rw [Run.program, Run.flush_eq, (Host.alike_flush_out hnever).1] at hdone
    have hrest : s.run fuel (source ++ "\n" ++ more) =
        Session.perform { s.resolved (source ++ "\n" ++ more) with machine := m' }
          (Run.program fuel second) := by
      rw [Session.run, hruns, Session.perform_program_of_ok hr']
    rw [hrun, Session.perform_of_ok hdone, hrest]
    exact hresolved.run_rest hm hnever hmore hsecond hpart' fuel
  | error hhalt hm =>
    have htake : (first ++ second).take (readProgram s.nextId (tokens source)).result.length =
        first := List.take_left' hfirst.length_eq.symm
    have hhalts := hresolved.perform_each_of_error heach hr
    simp only [Session.run, hruns, htake, Session.perform_program_of_error hr'] at hrun ⊢
    rw [hrun, Session.perform_program_of_error hr]
    generalize (s.resolved source).perform _ = o at hhalts ⊢
    generalize (s.resolved (source ++ "\n" ++ more)).perform _ = o' at hhalts ⊢
    cases hhalts with
    | none => rfl
    | some hstep =>
      obtain ⟨houtcome, halike⟩ := hstep
      dsimp only
      rw [houtcome]
      exact ⟨_, rfl, halike, fun _ ↦ rfl⟩

/-- A function and an assignment to the variable it reads, and a call in another source. -/
theorem Session.run_newline_closure : ∃ first,
    (Session.start {}).serve 9 (.run "var a = 1; fun f() { return a; }") = some first ∧
      first.outcome = .success ∧
      Option.Rel (Step.Alike (Token.Moved "a = 2; print f();" 1))
        (first.session.serve 9 (.run "a = 2; print f();"))
        ((Session.start {}).serve 9
          (.run ("var a = 1; fun f() { return a; }" ++ "\n" ++ "a = 2; print f();"))) := by
  have hfirst : Accepted "var a = 1; fun f() { return a; }" := by decide +kernel
  have hsecond : Accepted "a = 2; print f();" := by decide +kernel
  have hlines : lastLine "var a = 1; fun f() { return a; }" = 1 := by decide +kernel
  have hmap : ((Session.start {}).serve 9 (.run "var a = 1; fun f() { return a; }")).map
      Step.outcome = some .success := by
    decide +kernel
  obtain ⟨first, hstep, houtcome⟩ := Option.map_eq_some_iff.1 hmap
  refine ⟨first, hstep, houtcome, ?_⟩
  revert hstep hfirst hsecond
  rw [← hlines]
  generalize "var a = 1; fun f() { return a; }" = source
  generalize "a = 2; print f();" = more
  intro hsource hmore hstep
  have hboth := ((Session.Reachable.start {}).run_newline (fun _ ↦ rfl) hsource hmore 9).2
  rw [show Session.run 9 _ source = some first from hstep] at hboth
  dsimp only at hboth
  rw [houtcome] at hboth
  exact hboth

end Lox
