/-!
# Bindings

Names with their values, each name at most once.  Binding a name again replaces its value, and no
other name notices (`Bindings.get?_set`).
-/

namespace Lox

/-- Names and their values, the name bound last first. -/
structure Bindings (α : Type) where
  entries : List (String × α) := []
deriving Inhabited

namespace Bindings

variable {α : Type}

def get? (b : Bindings α) (name : String) : Option α :=
  b.entries.lookup name

def contains (b : Bindings α) (name : String) : Bool :=
  (b.get? name).isSome

def names (b : Bindings α) : List String :=
  b.entries.map Prod.fst

/-- Replace the value of a name in a list of entries, or put the name in front. -/
def replace (name : String) (value : α) : List (String × α) → Option (List (String × α))
  | [] => none
  | (other, old) :: rest =>
    if name = other then some ((other, value) :: rest)
    else (replace name value rest).map ((other, old) :: ·)

/-- Bind a name, whether it is bound already or not. -/
def set (b : Bindings α) (name : String) (value : α) : Bindings α :=
  ⟨(replace name value b.entries).getD ((name, value) :: b.entries)⟩

/-- Bind names in order; of two equal names the later one counts. -/
def ofList (pairs : List (String × α)) : Bindings α :=
  pairs.foldl (fun b (name, value) ↦ b.set name value) {}

theorem lookup_replace {name : String} {value : α} {entries changed : List (String × α)}
    (h : replace name value entries = some changed) (other : String) :
    changed.lookup other = if other = name then some value else entries.lookup other := by
  induction entries generalizing changed with
  | nil => simp [replace] at h
  | cons entry rest ih =>
    obtain ⟨key, old⟩ := entry
    by_cases hk : name = key
    · subst hk
      simp only [replace, if_true, Option.some.injEq] at h
      subst h
      by_cases ho : other = name
      · simp [ho]
      · have hb : (other == name) = false := by simpa using ho
        simp [List.lookup_cons, hb, ho]
    · simp only [replace, hk, if_false, Option.map_eq_some_iff] at h
      obtain ⟨new, hn, rfl⟩ := h
      by_cases ho : other = key
      · subst ho
        have hne : other ≠ name := fun e ↦ hk e.symm
        simp [hne]
      · have hb : (other == key) = false := by simpa using ho
        simp only [List.lookup_cons, hb]
        exact ih hn

/-- Setting a name changes what it is bound to and nothing else. -/
theorem get?_set (b : Bindings α) (name other : String) (value : α) :
    (b.set name value).get? other = if other = name then some value else b.get? other := by
  unfold set get?
  cases h : replace name value b.entries with
  | some changed => simpa using lookup_replace h other
  | none =>
    by_cases ho : other = name
    · simp [ho]
    · have hb : (other == name) = false := by simpa using ho
      simp [List.lookup_cons, hb, ho]

end Bindings

end Lox
