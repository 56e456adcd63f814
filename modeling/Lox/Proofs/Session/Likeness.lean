import Lox.Proofs.Machine.Simulation
import Lox.Proofs.Parser.Likeness
import Lox.Proofs.Resolution.Likeness
import Lox.Proofs.Session.Growth
import Lox.Proofs.Session.Request

/-!
# Sessions up to the trees they hold

Two sessions are alike if their machines are, where two identifiers correspond if both have been
given out and the same depth is kept for them.  Sessions that are alike answer requests alike.
-/

namespace Lox

variable {T : Token → Token → Prop}

/-- The same fault at corresponding tokens or on their lines. -/
inductive Diagnostic.Alike (T : Token → Token → Prop) : Diagnostic → Diagnostic → Prop
  | lexical (line : Nat) (fault : LexicalFault) :
      Diagnostic.Alike T (.lexical line fault) (.lexical line fault)
  | syntactic {token token' : Token} (htoken : T token token') (fault : SyntaxFault) :
      Diagnostic.Alike T (.syntactic token fault) (.syntactic token' fault)
  | static {token token' : Token} (htoken : T token token') (fault : StaticFault) :
      Diagnostic.Alike T (.static token fault) (.static token' fault)
  | runtime {line line' : Nat} (hline : Token.Lines T line line') (fault : RuntimeFault) :
      Diagnostic.Alike T (.runtime line fault) (.runtime line' fault)
  | output (text : String) : Diagnostic.Alike T (.output text) (.output text)

namespace Diagnostic.Alike

variable {d d' : Diagnostic}

theorem isCompileTime (h : d.Alike T d') : d.isCompileTime = d'.isCompileTime := by
  cases h <;> rfl

/-- Where tokens correspond only to themselves, so do diagnostics. -/
theorem eq (h : d.Alike Eq d') : d = d' := by
  cases h with
  | lexical line fault => rfl
  | syntactic htoken fault => rw [htoken]
  | static htoken fault => rw [htoken]
  | runtime hline fault =>
    obtain ⟨t, t', rfl, rfl, rfl⟩ := hline
    rfl
  | output text => rfl

theorem eq_of_forall₂ {ds ds' : List Diagnostic} (h : List.Forall₂ (Diagnostic.Alike Eq) ds ds') :
    ds = ds' :=
  List.forall₂_eq_eq_eq ▸ h.imp fun _ _ hd ↦ hd.eq

theorem ofHalt {halt halt' : Halt} (h : halt.Alike T halt') :
    Option.Rel (Diagnostic.Alike T) halt.diagnostic? halt'.diagnostic? := by
  cases h with
  | fault hline cause => exact .some (.runtime hline cause)
  | output text => exact .some (.output text)
  | exhausted => exact .none

theorem ofSyntaxErrors {es es' : List SyntaxError}
    (h : List.Forall₂ (SyntaxError.Alike T) es es') :
    List.Forall₂ (Diagnostic.Alike T) (es.map SyntaxError.diagnostic)
      (es'.map SyntaxError.diagnostic) := by
  induction h with
  | nil => exact .nil
  | @cons e e' _ _ he _ ih =>
    obtain ⟨token, fault⟩ := e
    obtain ⟨token', fault'⟩ := e'
    obtain ⟨htoken, rfl⟩ := he
    exact .cons (.syntactic htoken _) ih

theorem ofFindings {found found' : List Finding}
    (h : List.Forall₂ (Finding.Alike T) found found') :
    List.Forall₂ (Diagnostic.Alike T) (found.filterMap Finding.violation?)
      (found'.filterMap Finding.violation?) := by
  induction h with
  | nil => exact .nil
  | cons hf _ ih =>
    cases hf with
    | use hname depth => exact ih
    | violation htoken fault => exact .cons (.static htoken fault) ih

end Diagnostic.Alike

/-- Corresponding tokens, or the same lexical fault. -/
inductive Item.Alike (T : Token → Token → Prop) : Item → Item → Prop
  | token {t t' : Token} (h : T t t') : Item.Alike T (.token t) (.token t')
  | fault (line : Nat) (cause : LexicalFault) : Item.Alike T (.fault line cause) (.fault line cause)

namespace Item.Alike

variable {items items' : List Item}

theorem tokens (h : List.Forall₂ (Item.Alike T) items items') :
    List.Forall₂ T (items.filterMap Item.token?) (items'.filterMap Item.token?) := by
  induction h with
  | nil => exact .nil
  | cons hitem _ ih =>
    cases hitem with
    | token ht => exact .cons ht ih
    | fault line cause => exact ih

theorem lexicalErrors (h : List.Forall₂ (Item.Alike T) items items') :
    List.Forall₂ (Diagnostic.Alike T) (Lox.lexicalErrors items) (Lox.lexicalErrors items') := by
  induction h with
  | nil => exact .nil
  | cons hitem _ ih =>
    cases hitem with
    | token ht => exact ih
    | fault line cause => exact .cons (.lexical line cause) ih

theorem refl (items : List Item) : List.Forall₂ (Item.Alike Eq) items items := by
  induction items with
  | nil => exact .nil
  | cons item _ ih =>
    cases item with
    | token t => exact .cons (.token rfl) ih
    | fault line cause => exact .cons (.fault line cause) ih

end Item.Alike

theorem exists_endOfInput (source : String) : ∃ t ∈ tokens source, t.kind = .endOfInput := by
  have hsegments : ∀ (segments : List Segment) (p : Position),
      ∃ t, .token t ∈ Item.ofSegments p segments ∧ t.kind = .endOfInput := by
    intro segments
    induction segments with
    | nil => exact fun p ↦ ⟨_, List.mem_cons_self, rfl⟩
    | cons s rest ih =>
      intro p
      obtain ⟨t, ht, hkind⟩ := ih (p.after s.text)
      unfold Item.ofSegments
      split
      · exact ⟨t, List.mem_cons_of_mem _ ht, hkind⟩
      · exact ⟨t, ht, hkind⟩
  obtain ⟨t, ht, hkind⟩ := hsegments (segments source.toList) .start
  exact ⟨t, List.mem_filterMap.2 ⟨_, ht, rfl⟩, hkind⟩

theorem stopOf_alike (hT : Token.Faithful T) {ts ts' : List Token} (hts : List.Forall₂ T ts ts')
    (hend : ∃ t ∈ ts, t.kind = .endOfInput) : T (Parser.stopOf ts) (Parser.stopOf ts') := by
  have hfind : ∃ t t', ts.find? (·.kind = .endOfInput) = some t ∧
      ts'.find? (·.kind = .endOfInput) = some t' ∧ T t t' := by
    induction hts with
    | nil => exact absurd hend (by simp)
    | @cons t t' rest rest' ht _ ih =>
      rw [List.find?_cons, List.find?_cons, hT.kind ht]
      by_cases hkind : t'.kind = .endOfInput
      · exact ⟨t, t', by simp [hkind], by simp [hkind], ht⟩
      · obtain ⟨u, hu, hukind⟩ := hend
        rcases List.mem_cons.1 hu with rfl | hu
        · exact absurd ((hT.kind ht).symm.trans hukind) hkind
        · obtain ⟨v, v', hv, hv', hvv⟩ := ih ⟨u, hu, hukind⟩
          exact ⟨v, v', by simpa [hkind] using hv, by simpa [hkind] using hv', hvv⟩
  obtain ⟨t, t', ht, ht', htt⟩ := hfind
  unfold Parser.stopOf
  rw [ht, ht']
  exact htt

/-! ### Sessions and requests -/

/-- Identifiers that have been given out and for which the same depth is kept. -/
def Session.Corresponding (s s' : Session) (i i' : NodeId) : Prop :=
  i < s.nextId ∧ i' < s'.nextId ∧ s.machine.addresses[i]? = s'.machine.addresses[i']?

def Session.tables (s s' : Session) : Tables (s.Corresponding s') :=
  ⟨s.machine.addresses, s'.machine.addresses, fun _ _ h ↦ h.2.2⟩

/-- The same session up to the trees in it, and up to whether there have been errors before anything
ran. -/
structure Session.Alike (T : Token → Token → Prop) (s s' : Session) : Prop where
  machine : s.machine.Alike T (s.tables s') s'.machine
  recorded : ∀ id depth, s.machine.addresses[id]? = some depth → id < s.nextId
  recorded' : ∀ id depth, s'.machine.addresses[id]? = some depth → id < s'.nextId
  hadRuntimeError : s.hadRuntimeError = s'.hadRuntimeError

/-- The same step up to trees: the same outcome, the same diagnostics and the same session. -/
structure Step.Alike (T : Token → Token → Prop) (step step' : Step) : Prop where
  outcome : step.outcome = step'.outcome
  reported : List.Forall₂ (Diagnostic.Alike T) step.reported step'.reported
  session : step.session.Alike T step'.session

namespace Session.Alike

variable {s s' t t' : Session}

/-- What has run nothing since stays alike. -/
theorem grow (h : s.Alike T s') (hgrows : s.Grows t) (hgrows' : s'.Grows t') : t.Alike T t' where
  machine :=
    { heap := by
        rw [hgrows.heap, hgrows'.heap]
        refine h.machine.heap.imp (fun _ _ ht ↦ ht) fun i i' hi ↦ ?_
        obtain ⟨hlt, hlt', hsame⟩ := hi
        refine ⟨Nat.lt_of_lt_of_le hlt hgrows.next, Nat.lt_of_lt_of_le hlt' hgrows'.next, ?_⟩
        rw [hgrows.kept i hlt, hgrows'.kept i' hlt']
        exact hsame
      current := by
        rw [hgrows.current, hgrows'.current]
        exact h.machine.current
      addresses := ⟨rfl, rfl⟩
      host := by
        have hsame : t.machine.host.Alike s'.machine.host := hgrows.host.symm.trans h.machine.host
        exact hsame.trans hgrows'.host }
  recorded := hgrows.recorded
  recorded' := hgrows'.recorded
  hadRuntimeError := by
    rw [hgrows.hadRuntimeError, hgrows'.hadRuntimeError]
    exact h.hadRuntimeError

/-- What has run leaves the tables as they are. -/
theorem run_to (h : s.Alike T s') {m m' : Machine} (hm : m.Alike T (s.tables s') m') :
    Session.Alike T { s with machine := m } { s' with machine := m' } := by
  have haddresses : m.addresses = s.machine.addresses := hm.addresses.1
  have haddresses' : m'.addresses = s'.machine.addresses := hm.addresses.2
  refine ⟨⟨hm.heap.imp (fun _ _ ht ↦ ht) fun i i' hi ↦ ?_, hm.current, ⟨rfl, rfl⟩, hm.host⟩, ?_, ?_,
    h.hadRuntimeError⟩
  · obtain ⟨hlt, hlt', hsame⟩ := hi
    refine ⟨hlt, hlt', ?_⟩
    dsimp only
    rw [haddresses, haddresses']
    exact hsame
  · intro id depth
    dsimp only
    rw [haddresses]
    exact h.recorded id depth
  · intro id depth
    dsimp only
    rw [haddresses']
    exact h.recorded' id depth

theorem report (h : s.Alike T s') {d d' : Diagnostic} (hd : d.Alike T d') :
    (s.report d).Alike T (s'.report d') where
  machine :=
    { heap := h.machine.heap
      current := h.machine.current
      addresses := ⟨rfl, rfl⟩
      host := by
        have hsame : (s.report d).machine.host.Alike s'.machine.host :=
          (s.alike_host_report d).symm.trans h.machine.host
        exact hsame.trans (s'.alike_host_report d') }
  recorded := h.recorded
  recorded' := h.recorded'
  hadRuntimeError := by
    unfold Session.report
    dsimp only
    rw [h.hadRuntimeError, hd.isCompileTime]

theorem reportAll (h : s.Alike T s') {ds ds' : List Diagnostic}
    (hds : List.Forall₂ (Diagnostic.Alike T) ds ds') :
    (s.reportAll ds).Alike T (s'.reportAll ds') := by
  induction hds generalizing s s' with
  | nil => exact h
  | cons hd _ ih => exact ih (h.report hd)

theorem reject (h : s.Alike T s') {ds ds' : List Diagnostic}
    (hds : List.Forall₂ (Diagnostic.Alike T) ds ds') : (s.reject ds).Alike T (s'.reject ds') :=
  ⟨rfl, hds, h.reportAll hds⟩

/-- Both are rejected for corresponding errors, or neither is for want of errors. -/
theorem reject_or (h : s.Alike T s') {ds ds' : List Diagnostic}
    (hds : List.Forall₂ (Diagnostic.Alike T) ds ds') {o o' : Option Step}
    (ho : ds = [] → ds' = [] → Option.Rel (Step.Alike T) o o') :
    Option.Rel (Step.Alike T) (if ds ≠ [] then some (s.reject ds) else o)
      (if ds' ≠ [] then some (s'.reject ds') else o') := by
  cases hds with
  | nil => exact ho rfl rfl
  | cons hd hrest => exact .some (h.reject (.cons hd hrest))

theorem perform (h : s.Alike T s') {x y : Run Unit} (hxy : Run.Likewise T (s.tables s') Eq x y) :
    Option.Rel (Step.Alike T) (s.perform x) (s'.perform y) := by
  have hends := hxy s.machine s'.machine h.machine
  unfold Session.perform
  generalize x s.machine = r at hends ⊢
  generalize y s'.machine = r' at hends ⊢
  cases hends with
  | ok _ hm => exact .some ⟨rfl, .nil, h.run_to hm⟩
  | error he hm =>
    have hd := Diagnostic.Alike.ofHalt he
    dsimp only
    revert hd
    generalize Halt.diagnostic? _ = o
    generalize Halt.diagnostic? _ = o'
    intro hd
    cases hd with
    | none => exact .none
    | some hd => exact .some ⟨rfl, .cons hd .nil, (h.run_to hm).report hd⟩

end Session.Alike

/-- Similar programs that have been resolved correspond, identifiers included. -/
theorem Session.HasResolved.alike (hT : Token.Faithful T) {s s' : Session} {p p' : List Stmt}
    (hp : List.Forall₂ (Stmt.Similar T) p p') (h : s.HasResolved p) (h' : s'.HasResolved p') :
    List.Forall₂ (Stmt.Alike T (s.Corresponding s')) p p' := by
  obtain ⟨hquiet, haddressed, hlt⟩ := h
  obtain ⟨hquiet', haddressed', hlt'⟩ := h'
  have hfound := Stmt.Alike.findingsAll hT {} [] hp
  have hsites : Stmt.findingsAll {} [] p = (Stmt.sitesAll [] p).map Site.finding :=
    (Stmt.talliesAll {} [] p).eq_of_quiet hquiet
  have hsites' : Stmt.findingsAll {} [] p' = (Stmt.sitesAll [] p').map Site.finding :=
    (Stmt.talliesAll {} [] p').eq_of_quiet hquiet'
  rw [hsites, hsites'] at hfound
  refine Stmt.Alike.renumberAll (fun _ _ ht ↦ ht) hp ?_
  rw [← Stmt.map_id_sitesAll [] p] at hlt ⊢
  rw [← Stmt.map_id_sitesAll [] p'] at hlt' ⊢
  -- The k-th sites of both programs have the same depth, and that is what is kept for each.
  generalize Stmt.sitesAll [] p = sites at hfound haddressed hlt ⊢
  generalize Stmt.sitesAll [] p' = sites' at hfound haddressed' hlt' ⊢
  induction sites generalizing sites' with
  | nil =>
    cases sites' with
    | nil => exact .nil
    | cons site' rest' => cases hfound
  | cons site rest ih =>
    cases sites' with
    | nil => cases hfound
    | cons site' rest' =>
      obtain ⟨hfirst, hrest⟩ := List.forall₂_cons.1 hfound
      obtain ⟨hkept, haddressed⟩ := List.forall_mem_cons.1 haddressed
      obtain ⟨hkept', haddressed'⟩ := List.forall_mem_cons.1 haddressed'
      obtain ⟨hid, hlt⟩ := List.forall_mem_cons.1 hlt
      obtain ⟨hid', hlt'⟩ := List.forall_mem_cons.1 hlt'
      refine .cons ⟨hid, hid', ?_⟩ (ih haddressed hlt rest' hrest haddressed' hlt')
      rw [hkept, hkept']
      exact hfirst.depth_eq

namespace Session.Alike

variable {s s' : Session}

theorem run (hT : Token.Faithful T) (h : s.Alike T s') {source source' : String}
    (hitems : List.Forall₂ (Item.Alike T) (scan source) (scan source')) (fuel : Nat) :
    Option.Rel (Step.Alike T) (s.run fuel source) (s'.run fuel source') := by
  have htokens : List.Forall₂ T (tokens source) (tokens source') := Item.Alike.tokens hitems
  have hstop := stopOf_alike hT htokens (exists_endOfInput source)
  have hreading := Reading.Alike.readProgram hT htokens hstop s.nextId s'.nextId
  have hfound := Stmt.Alike.findingsAll hT {} [] hreading.result
  have herrors : List.Forall₂ (Diagnostic.Alike T)
      (lexicalErrors (scan source) ++
        (readProgram s.nextId (tokens source)).errors.map SyntaxError.diagnostic)
      (lexicalErrors (scan source') ++
        (readProgram s'.nextId (tokens source')).errors.map SyntaxError.diagnostic) :=
    List.rel_append (Item.Alike.lexicalErrors hitems)
      (Diagnostic.Alike.ofSyntaxErrors hreading.errors)
  have hread := h.grow
    (.next_id h.recorded (issued_readProgram s.nextId (tokens source)).1)
    (.next_id h.recorded' (issued_readProgram s'.nextId (tokens source')).1)
  have hresolved := h.grow (.resolved h.recorded source) (.resolved h.recorded' source')
  unfold Session.run Session.runWith
  refine hread.reject_or herrors fun _ _ ↦
    hresolved.reject_or (Diagnostic.Alike.ofFindings hfound) fun hquiet hquiet' ↦ ?_
  have hprogram := Session.hasResolved h.recorded (List.filterMap_eq_nil_iff.1 hquiet)
  have hprogram' := Session.hasResolved h.recorded' (List.filterMap_eq_nil_iff.1 hquiet')
  exact hresolved.perform
    (Run.Likewise.program hT fuel (hprogram.alike hT hreading.result hprogram'))

/-- No depth is kept for the nodes of an expression that is read by itself, so they correspond. -/
theorem alike_readExpression (h : s.Alike T s') (ts ts' : List Token) (e e' : Expr)
    (he : (readExpression s.nextId ts).result = some e)
    (he' : (readExpression s'.nextId ts').result = some e') (hsimilar : e.Similar T e') :
    e.Alike T (Session.Corresponding { s with nextId := (readExpression s.nextId ts).nextId }
      { s' with nextId := (readExpression s'.nextId ts').nextId }) e' := by
  obtain ⟨-, hissued⟩ := issued_readExpression s.nextId ts
  obtain ⟨-, hissued'⟩ := issued_readExpression s'.nextId ts'
  rw [he] at hissued
  rw [he'] at hissued'
  refine hsimilar.renumber (fun _ _ ht ↦ ht) (forall₂_of_mem hsimilar.ids fun i hi i' hi' ↦ ?_)
  obtain ⟨hlow, hhigh⟩ := hissued.bounds hi
  obtain ⟨hlow', hhigh'⟩ := hissued'.bounds hi'
  have hnone : s.machine.addresses[i]? = none :=
    Option.eq_none_iff_forall_ne_some.2 fun depth hdepth ↦
      Nat.not_lt_of_le hlow (h.recorded i depth hdepth)
  have hnone' : s'.machine.addresses[i']? = none :=
    Option.eq_none_iff_forall_ne_some.2 fun depth hdepth ↦
      Nat.not_lt_of_le hlow' (h.recorded' i' depth hdepth)
  refine ⟨hhigh, hhigh', ?_⟩
  rw [hnone, hnone']

theorem withExpression (hT : Token.Faithful T) (h : s.Alike T s') {source source' : String}
    (hitems : List.Forall₂ (Item.Alike T) (scan source) (scan source')) {use : Expr → Run Unit}
    (huse : ∀ {I : NodeId → NodeId → Prop} (tables : Tables I) (e e' : Expr), e.Alike T I e' →
      Run.Likewise T tables Eq (use e) (use e')) :
    Option.Rel (Step.Alike T) (s.withExpression source use) (s'.withExpression source' use) := by
  have htokens : List.Forall₂ T (tokens source) (tokens source') := Item.Alike.tokens hitems
  have hstop := stopOf_alike hT htokens (exists_endOfInput source)
  obtain ⟨hresult, hsyntax⟩ := Reading.Alike.readExpression hT htokens hstop s.nextId s'.nextId
  have herrors := List.rel_append (Item.Alike.lexicalErrors hitems)
    (Diagnostic.Alike.ofSyntaxErrors hsyntax)
  have hread := h.grow (.next_id h.recorded (issued_readExpression s.nextId (tokens source)).1)
    (.next_id h.recorded' (issued_readExpression s'.nextId (tokens source')).1)
  have halike := h.alike_readExpression (tokens source) (tokens source')
  unfold Session.withExpression
  dsimp only
  rw [show (scan source).filterMap Item.token? = tokens source from rfl,
    show (scan source').filterMap Item.token? = tokens source' from rfl]
  dsimp only at herrors
  generalize (readExpression s.nextId (tokens source)).result = o at hresult halike ⊢
  generalize (readExpression s'.nextId (tokens source')).result = o' at hresult halike ⊢
  generalize lexicalErrors (scan source) ++ _ = ds at herrors ⊢
  generalize lexicalErrors (scan source') ++ _ = ds' at herrors ⊢
  cases hresult with
  | none => exact .some (hread.reject herrors)
  | some he =>
    cases herrors with
    | nil => exact hread.perform (huse _ _ _ (halike _ _ rfl rfl he))
    | cons hd hrest => exact .some (hread.reject (.cons hd hrest))

theorem evaluate (hT : Token.Faithful T) (h : s.Alike T s') {source source' : String}
    (hitems : List.Forall₂ (Item.Alike T) (scan source) (scan source')) (fuel : Nat) :
    Option.Rel (Step.Alike T) (s.evaluate fuel source) (s'.evaluate fuel source') := by
  refine h.withExpression hT hitems fun tables e e' he ↦ ?_
  refine .bind ((Run.Likewise.evaluate_and_execute hT fuel).1 e e' he) fun v v' hv ↦ ?_
  rw [hv.display hT]
  exact Run.Likewise.printLine _

theorem parse (hT : Token.Faithful T) (h : s.Alike T s') {source source' : String}
    (hitems : List.Forall₂ (Item.Alike T) (scan source) (scan source')) :
    Option.Rel (Step.Alike T) (s.parse source) (s'.parse source') := by
  refine h.withExpression hT hitems fun tables e e' he ↦ ?_
  rw [he.print hT]
  exact Run.Likewise.printLine _

theorem listItems (h : s.Alike T s') (line : Token → String) {reported reported' : List Diagnostic}
    (hreported : List.Forall₂ (Diagnostic.Alike T) reported reported') (items : List Item) :
    (s.listItems line reported items).Alike T (s'.listItems line reported' items) := by
  induction items generalizing s s' reported reported' with
  | nil =>
    refine ⟨?_, hreported, h⟩
    cases hreported with
    | nil => rfl
    | cons _ _ => rfl
  | cons item rest ih =>
    cases item with
    | fault n cause =>
      exact ih (h.report (.lexical n cause)) (List.rel_append hreported (.cons (.lexical ..) .nil))
    | token t =>
      have hends := Run.Likewise.printLine (line t) s.machine s'.machine h.machine
      unfold Session.listItems
      generalize Run.printLine (line t) s.machine = r at hends ⊢
      generalize Run.printLine (line t) s'.machine = r' at hends ⊢
      cases hends with
      | ok _ hm => exact ih (h.run_to hm) hreported
      | @error halt halt' _ _ hhalt hm =>
        have hfailures : List.Forall₂ (Diagnostic.Alike T) halt.diagnostic?.toList
            halt'.diagnostic?.toList := by
          have hd := Diagnostic.Alike.ofHalt hhalt
          generalize halt.diagnostic? = o at hd
          generalize halt'.diagnostic? = o' at hd
          cases hd with
          | none => exact .nil
          | some hd => exact .cons hd .nil
        exact ⟨rfl, List.rel_append hreported hfailures, (h.run_to hm).reportAll hfailures⟩

/-- Sessions that are alike serve a request alike. -/
theorem serve (h : s.Alike Eq s') (fuel : Nat) (request : Request) :
    Option.Rel (Step.Alike Eq) (s.serve fuel request) (s'.serve fuel request) := by
  cases request with
  | run source => exact h.run Token.faithful_eq (Item.Alike.refl _) fuel
  | evaluate source => exact h.evaluate Token.faithful_eq (Item.Alike.refl _) fuel
  | parse source => exact h.parse Token.faithful_eq (Item.Alike.refl _)
  | tokenize json source => exact .some (h.listItems _ .nil _)
  | reset =>
    refine .some ⟨rfl, .nil, ?_⟩
    exact ⟨⟨h.machine.heap, h.machine.current, ⟨rfl, rfl⟩, h.machine.host⟩, h.recorded, h.recorded',
      rfl⟩

end Session.Alike

/-- By induction on the requests: a reachable session is like itself. -/
theorem Session.Reachable.alike {s : Session} {known : List Site} (hs : s.Reachable known) :
    s.Alike Eq s := by
  induction hs with
  | start host =>
    have hrecorded : ∀ id depth, (Session.start host).machine.addresses[id]? = some depth →
        id < (Session.start host).nextId := by
      intro id depth hdepth
      rw [show (Session.start host).machine.addresses = ∅ from rfl, Std.TreeMap.getElem?_emptyc]
        at hdepth
      cases hdepth
    have hbuiltins : ∀ I,
        (Bindings.ofList (Builtin.all.map fun b ↦ (b.name, Value.builtin b))).Alike
          (Value.Alike Eq I) (.ofList (Builtin.all.map fun b ↦ (b.name, Value.builtin b))) := by
      intro I
      refine .ofList (List.forall₂_same.2 fun p hp ↦ ?_)
      obtain ⟨b, -, rfl⟩ := List.mem_map.1 hp
      exact ⟨rfl, .builtin b⟩
    exact ⟨⟨⟨.cons ⟨hbuiltins _, rfl⟩ .nil, .nil, rfl⟩, rfl, ⟨rfl, rfl⟩, .refl _⟩, hrecorded,
      hrecorded, rfl⟩
  | serve _ fuel request hstep ih =>
    have hserve := ih.serve fuel request
    rw [hstep] at hserve
    cases hserve with
    | some hstep => exact hstep.session
  | host _ host ih =>
    exact ⟨⟨ih.machine.heap, ih.machine.current, ⟨rfl, rfl⟩, .refl _⟩, ih.recorded, ih.recorded',
      rfl⟩

end Lox
