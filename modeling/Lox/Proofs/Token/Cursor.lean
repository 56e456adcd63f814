import Lox.Proofs.Token.Concatenation

/-!
# Scanning on demand

A cursor gives one item of a source after the other, each only when it is asked for.  It passes over
blanks and comments, gives the end token once the text is used up, and nothing from then on.  So the
items that it gives are the items of the whole source.
-/

namespace Lox

/-- Induction on a text, one segment at a time. -/
@[elab_as_elim]
theorem Segment.next_induction {motive : List Char → Prop} (nil : motive [])
    (cons : ∀ c rest, motive (Segment.next c rest).2 → motive (c :: rest)) (text : List Char) :
    motive text := by
  induction hn : text.length using Nat.strongRecOn generalizing text with
  | _ n ih =>
    cases text with
    | nil => exact nil
    | cons c rest =>
      have hlt := (Segment.cutFrom_next c rest).length_lt
      rw [hn] at hlt
      exact cons c rest (ih _ hlt _ rfl)

/-- The text that is left, where it starts, and whether the end token has been given. -/
structure Cursor where
  rest : List Char
  position : Position
  finished : Bool := false

namespace Cursor

def start (source : String) : Cursor where
  rest := source.toList
  position := .start

/-- The next item of a text and the cursor behind it. -/
def find (p : Position) : List Char → Item × Cursor
  | [] => (.token (Item.endToken p), ⟨[], p, true⟩)
  | c :: rest =>
    match Item.ofSegment? p (Segment.next c rest).1 with
    | some item =>
      (item, ⟨(Segment.next c rest).2, p.after (Segment.next c rest).1.text, false⟩)
    | none => find (p.after (Segment.next c rest).1.text) (Segment.next c rest).2
termination_by text => text.length
decreasing_by exact (Segment.cutFrom_next c rest).length_lt

/-- Ask for an item. Once the end token has been given there is none. -/
def next (cursor : Cursor) : Option Item × Cursor :=
  if cursor.finished then (none, cursor)
  else
    let (item, cursor) := find cursor.position cursor.rest
    (some item, cursor)

/-- What a cursor gives when it is asked again, after the given number of times. -/
def answer : (asked : Nat) → Cursor → Option Item
  | 0, cursor => cursor.next.1
  | asked + 1, cursor => answer asked cursor.next.2

/-- The items that a cursor has yet to give. -/
def remaining (cursor : Cursor) : List Item :=
  if cursor.finished then [] else Item.ofSegments cursor.position (segments cursor.rest)

theorem find_eq (p : Position) (text : List Char) :
    Item.ofSegments p (segments text) = (find p text).1 :: (find p text).2.remaining := by
  induction text using Segment.next_induction generalizing p with
  | nil =>
    rw [find]
    rfl
  | cons c rest ih =>
    rw [segments_cons, Item.ofSegments, find]
    cases Item.ofSegment? p (Segment.next c rest).1 with
    | some item => rfl
    | none => exact ih _

/-- A cursor gives the first of the remaining items and keeps the others. -/
theorem next_eq (cursor : Cursor) :
    cursor.next.1 = cursor.remaining.head? ∧ cursor.next.2.remaining = cursor.remaining.tail := by
  unfold next
  by_cases hfinished : cursor.finished = true
  · have hnone : cursor.remaining = [] := if_pos hfinished
    rw [if_pos hfinished]
    dsimp only
    rw [hnone]
    exact ⟨rfl, rfl⟩
  · rw [if_neg hfinished, remaining, if_neg hfinished, find_eq]
    exact ⟨rfl, rfl⟩

theorem answer_eq (cursor : Cursor) (asked : Nat) :
    cursor.answer asked = cursor.remaining[asked]? := by
  induction asked generalizing cursor with
  | zero =>
    rw [answer, cursor.next_eq.1]
    exact List.head?_eq_getElem?
  | succ asked ih =>
    rw [answer, ih, cursor.next_eq.2]
    exact List.getElem?_tail

/-- The answers of a cursor are the items of the source, and nothing behind them. -/
theorem answer_start (source : String) (asked : Nat) :
    (start source).answer asked = (scan source)[asked]? :=
  answer_eq _ _

end Cursor

end Lox
