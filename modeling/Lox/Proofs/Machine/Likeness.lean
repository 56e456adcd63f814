import Lox.Machine.Basic
import Lox.Proofs.Computation
import Lox.Proofs.Heap.Likeness

/-!
# Machines up to the trees they hold

Two machines are alike if their heaps are, they stand in the same scope, corresponding identifiers
have the same depths, and their hosts cannot be told apart by what a program may ask or print.  What
was written to the stream of diagnostics does not matter.
-/

namespace Lox

variable {T : Token → Token → Prop} {I : NodeId → NodeId → Prop}

/-- From now on both streams fail at the same writes and flushes. -/
structure Sink.Alike (s s' : Sink) : Prop where
  write : ∀ k, s.writeFailure (s.writes + k) = s'.writeFailure (s'.writes + k)
  flush : ∀ k, s.flushFailure (s.flushes + k) = s'.flushFailure (s'.flushes + k)

theorem Sink.Alike.refl (s : Sink) : s.Alike s :=
  ⟨fun _ ↦ rfl, fun _ ↦ rfl⟩

/-- What a log tells about a stream, piece by piece. -/
def Channel.pieces (channel : Channel) (log : Array (Channel × String)) : List String :=
  (log.toList.filter (·.1 = channel)).map Prod.snd

theorem Channel.pieces_push (channel other : Channel) (log : Array (Channel × String))
    (text : String) :
    channel.pieces (log.push (other, text)) =
      channel.pieces log ++ if other = channel then [text] else [] := by
  unfold Channel.pieces
  rw [Array.toList_push, List.filter_append, List.map_append]
  by_cases heq : other = channel
  · simp [heq]
  · simp [heq]

/-- A program can tell no difference: the same has been printed, and from now on there is the same
input, the same readings of the clock and the same files. -/
structure Host.Alike (h h' : Host) : Prop where
  out : h.out.Alike h'.out
  printed : Channel.out.pieces h.log = Channel.out.pieces h'.log
  input : h.input = h'.input
  clock : ∀ k, h.clock (h.clockReads + k) = h'.clock (h'.clockReads + k)
  files : h.files = h'.files

namespace Host

variable {h h' : Host}

theorem Alike.refl (h : Host) : h.Alike h :=
  ⟨.refl _, rfl, rfl, fun _ ↦ rfl, rfl⟩

theorem Alike.written (hh : h.Alike h') : h.written .out = h'.written .out :=
  congrArg String.join hh.printed

theorem Alike.write (hh : h.Alike h') (text : String) :
    (h.write .out text).1 = (h'.write .out text).1 ∧
      (h.write .out text).2.Alike (h'.write .out text).2 := by
  have hfails := hh.out.write 0
  rw [Nat.add_zero, Nat.add_zero] at hfails
  have hlater : ∀ k, h.out.writeFailure (h.out.writes + 1 + k) =
      h'.out.writeFailure (h'.out.writes + 1 + k) := by
    intro k
    rw [Nat.add_assoc, Nat.add_assoc]
    exact hh.out.write (1 + k)
  unfold Host.write
  dsimp only [Host.sink, Host.setSink]
  rw [hfails]
  split
  · exact ⟨rfl, ⟨hlater, hh.out.flush⟩, hh.printed, hh.input, hh.clock, hh.files⟩
  · refine ⟨rfl, ⟨hlater, hh.out.flush⟩, ?_, hh.input, hh.clock, hh.files⟩
    change Channel.out.pieces (h.log.push _) = Channel.out.pieces (h'.log.push _)
    rw [Channel.pieces_push, Channel.pieces_push, hh.printed]

theorem Alike.flush (hh : h.Alike h') :
    (h.flush .out).1 = (h'.flush .out).1 ∧ (h.flush .out).2.Alike (h'.flush .out).2 := by
  have hfails := hh.out.flush 0
  rw [Nat.add_zero, Nat.add_zero] at hfails
  have hlater : ∀ k, h.out.flushFailure (h.out.flushes + 1 + k) =
      h'.out.flushFailure (h'.out.flushes + 1 + k) := by
    intro k
    rw [Nat.add_assoc, Nat.add_assoc]
    exact hh.out.flush (1 + k)
  unfold Host.flush
  dsimp only [Host.sink, Host.setSink]
  rw [hfails]
  split
  · exact ⟨rfl, ⟨hh.out.write, hlater⟩, hh.printed, hh.input, hh.clock, hh.files⟩
  · exact ⟨rfl, ⟨hh.out.write, hlater⟩, hh.printed, hh.input, hh.clock, hh.files⟩

theorem Alike.readLine (hh : h.Alike h') :
    h.readLine.1 = h'.readLine.1 ∧ h.readLine.2.Alike h'.readLine.2 := by
  unfold Host.readLine
  rw [hh.input]
  split
  · exact ⟨rfl, hh.out, hh.printed, rfl, hh.clock, hh.files⟩
  · exact ⟨rfl, hh.out, hh.printed, rfl, hh.clock, hh.files⟩

theorem Alike.readClock (hh : h.Alike h') :
    h.readClock.1 = h'.readClock.1 ∧ h.readClock.2.Alike h'.readClock.2 := by
  refine ⟨hh.clock 0, hh.out, hh.printed, hh.input, fun k ↦ ?_, hh.files⟩
  unfold Host.readClock
  dsimp only
  rw [Nat.add_assoc, Nat.add_assoc]
  exact hh.clock (1 + k)

/-- What is written to the stream of diagnostics cannot be told. -/
theorem alike_write_err (h : Host) (text : String) : h.Alike (h.write .err text).2 := by
  unfold Host.write
  dsimp only [Host.sink, Host.setSink]
  split
  · exact ⟨.refl _, rfl, rfl, fun _ ↦ rfl, rfl⟩
  · refine ⟨.refl _, ?_, rfl, fun _ ↦ rfl, rfl⟩
    change Channel.out.pieces h.log = Channel.out.pieces (h.log.push _)
    rw [Channel.pieces_push]
    exact (List.append_nil _).symm

theorem alike_flush_err (h : Host) : h.Alike (h.flush .err).2 := by
  unfold Host.flush
  dsimp only [Host.sink, Host.setSink]
  split
  · exact ⟨.refl _, rfl, rfl, fun _ ↦ rfl, rfl⟩
  · exact ⟨.refl _, rfl, rfl, fun _ ↦ rfl, rfl⟩

theorem Alike.symm (hh : h.Alike h') : h'.Alike h :=
  ⟨⟨fun k ↦ (hh.out.write k).symm, fun k ↦ (hh.out.flush k).symm⟩, hh.printed.symm, hh.input.symm,
    fun k ↦ (hh.clock k).symm, hh.files.symm⟩

theorem Alike.trans {h'' : Host} (first : h.Alike h') (second : h'.Alike h'') : h.Alike h'' :=
  ⟨⟨fun k ↦ (first.out.write k).trans (second.out.write k),
      fun k ↦ (first.out.flush k).trans (second.out.flush k)⟩,
    first.printed.trans second.printed, first.input.trans second.input,
    fun k ↦ (first.clock k).trans (second.clock k), first.files.trans second.files⟩

end Host

/-- Lines on which corresponding tokens stand. -/
def Token.Lines (T : Token → Token → Prop) (line line' : Nat) : Prop :=
  ∃ t t', T t t' ∧ t.line = line ∧ t'.line = line'

theorem Token.Lines.intro {t t' : Token} (h : T t t') : Token.Lines T t.line t'.line :=
  ⟨t, t', h, rfl, rfl⟩

/-- Halts for the same reason, on the lines of corresponding tokens. -/
inductive Halt.Alike (T : Token → Token → Prop) : Halt → Halt → Prop
  | fault {line line' : Nat} (hline : Token.Lines T line line') (cause : RuntimeFault) :
      Halt.Alike T (.fault line cause) (.fault line' cause)
  | output (text : String) : Halt.Alike T (.output text) (.output text)
  | exhausted : Halt.Alike T .exhausted .exhausted

inductive Flow.Alike (T : Token → Token → Prop) (I : NodeId → NodeId → Prop) : Flow → Flow → Prop
  | normal : Flow.Alike T I .normal .normal
  | return {v v' : Value} (hv : v.Alike T I v') : Flow.Alike T I (.return v) (.return v')
  | break : Flow.Alike T I .break .break
  | continue : Flow.Alike T I .continue .continue

/-- Two tables of depths that agree on corresponding identifiers. -/
structure Tables (I : NodeId → NodeId → Prop) where
  left : Std.TreeMap NodeId Nat
  right : Std.TreeMap NodeId Nat
  agree : ∀ i i', I i i' → left[i]? = right[i']?

/-- The same machine up to the trees in it, with given tables of depths. -/
structure Machine.Alike (T : Token → Token → Prop) {I : NodeId → NodeId → Prop} (tables : Tables I)
    (m m' : Machine) : Prop where
  heap : m.heap.Alike T I m'.heap
  current : m.current = m'.current
  addresses : m.addresses = tables.left ∧ m'.addresses = tables.right
  host : m.host.Alike m'.host

theorem Machine.Alike.getElem? {tables : Tables I} {m m' : Machine} (hm : m.Alike T tables m')
    {id id' : NodeId} (hid : I id id') : m.addresses[id]? = m'.addresses[id']? := by
  rw [hm.addresses.1, hm.addresses.2]
  exact tables.agree id id' hid

theorem Machine.Alike.scopeOf? {tables : Tables I} {m m' : Machine} (hm : m.Alike T tables m')
    {id id' : NodeId} (hid : I id id') : m.scopeOf? id = m'.scopeOf? id' := by
  unfold Machine.scopeOf?
  rw [hm.getElem? hid, hm.current]
  split
  · exact hm.heap.ancestor? _ _
  · rfl

end Lox
