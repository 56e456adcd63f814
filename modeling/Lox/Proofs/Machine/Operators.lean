import Lox.Machine.Operators

/-!
# What operators give

Literals and the results of operators are plain data: they hold no scope, class or instance, so
whatever is asked of the values that do is true of them.
-/

namespace Lox.Value

/-- Values that refer to nothing in a heap. -/
def IsData : Value → Prop
  | nil => True
  | bool _ => True
  | number _ => True
  | string _ => True
  | _ => False

theorem isData_ofLiteral (value : Literal) : (ofLiteral value).IsData := by
  cases value <;> trivial

theorem isData_of_unary {op : Kind} {a v : Value} (h : a.unary op = .ok v) : v.IsData := by
  unfold unary at h
  repeat' split at h
  all_goals
    cases h
    try trivial

theorem isData_of_arithmetic {op : Kind} {a b : Number} {v : Value}
    (h : arithmetic op a b = .ok v) : v.IsData := by
  unfold arithmetic at h
  repeat' split at h
  all_goals
    cases h
    try trivial

theorem isData_of_binary {op : Kind} {a b v : Value} (h : a.binary op b = .ok v) : v.IsData := by
  unfold binary at h
  split at h
  · split at h
    all_goals
      cases h
      try trivial
  · cases h
    trivial
  · cases h
    trivial
  · split at h
    · exact isData_of_arithmetic h
    · cases h

end Lox.Value
