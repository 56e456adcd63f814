import Lox.Heap
import Lox.Text.Quoted

/-!
# Descriptions

A function or an instance is described by what can be told about it without following the values it
refers to, since those can lead back to it.
-/

namespace Lox

/-- A description: a title, and named parts between braces. -/
def described (title : String) (parts : List (String × String)) : String :=
  title ++ " \x7b " ++ ", ".intercalate (parts.map fun (name, text) ↦ name ++ ": " ++ text) ++
    " \x7d"

/-- A function is described by its name, the number of its parameters and whether it is an
initializer. -/
def Function.describe (f : Function) : String :=
  described "LoxFunction"
    [("name", Quoted.name f.name), ("arity", Nat.repr f.arity),
      ("is_initializer", if f.isInitializer then "true" else "false")]

/-- An instance is described by its class and the names of its fields in ascending order. -/
def Instance.describe (i : Instance) (h : Heap) : String :=
  let names := (h.fieldsOf i).names.mergeSort (· ≤ ·)
  described "LoxInstance"
    [("class", Quoted.name i.cls.name),
      ("fields", "[" ++ ", ".intercalate (names.map Quoted.name) ++ "]")]

/-- The description of a value that has one. -/
def Value.describe? (h : Heap) : Value → Option String
  | function f => some f.describe
  | .instance i => some (i.describe h)
  | _ => none

end Lox
