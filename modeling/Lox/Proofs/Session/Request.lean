import Lox.Proofs.Resolution.Sites
import Lox.Session

/-!
# Requests and the sessions they lead to

A session is asked for one thing after another.  Between two requests the world may change at will.
-/

namespace Lox

/-- What a session can be asked for. -/
inductive Request where
  | run (source : String)
  | evaluate (source : String)
  | parse (source : String)
  | tokenize (json : Bool) (source : String)
  | reset

namespace Session

/-- Do what is asked for. To forget earlier errors always succeeds. -/
def serve (fuel : Nat) (s : Session) : Request → Option Step
  | .run source => s.run fuel source
  | .evaluate source => s.evaluate fuel source
  | .parse source => s.parse source
  | .tokenize json source => some (s.tokenize json source)
  | .reset => some ⟨.success, [], s.reset⟩

/-- The session once a source has been read and resolved. -/
def resolved (s : Session) (source : String) : Session :=
  { s with
    machine := s.machine.record (resolve (readProgram s.nextId (tokens source)).result)
    nextId := (readProgram s.nextId (tokens source)).nextId }

/-- The sites of a source, read as a session reads it. -/
def sitesOf (s : Session) (source : String) : List Site :=
  Stmt.sitesAll [] (readProgram s.nextId (tokens source)).result

/-- The sites that a request adds to those of a session. Only programs are resolved. -/
def newSites (s : Session) : Request → List Site
  | .run source => s.sitesOf source
  | _ => []

/-- The sessions that requests lead to, each with the sites of all programs that it was asked to
run. -/
inductive Reachable : Session → List Site → Prop
  | start (host : Host) : Reachable (.start host) []
  | serve {s : Session} {known : List Site} (hs : Reachable s known) (fuel : Nat)
      (request : Request) {step : Step} (hstep : s.serve fuel request = some step) :
      Reachable step.session (known ++ s.newSites request)
  | host {s : Session} {known : List Site} (hs : Reachable s known) (host : Host) :
      Reachable { s with machine := { s.machine with host } } known

end Session

end Lox
