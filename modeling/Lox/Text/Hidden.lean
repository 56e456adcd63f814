import Lox.Text.Extending
import Lox.Text.Unassigned

/-!
# Hidden characters

A character is hidden if a reader of a text cannot tell that it is there, or which one it is: it has
no shape of its own, or none that everybody knows.  The space is not hidden; every other blank is.
-/

namespace Lox.CodeRange

def controls : List CodeRange :=
  [⟨0x0, 0x1F⟩, ⟨0x7F, 0x9F⟩]

/-- The blanks and the separators of lines and paragraphs, without the space. -/
def separators : List CodeRange :=
  [⟨0xA0, 0xA0⟩, ⟨0x1680, 0x1680⟩, ⟨0x2000, 0x200A⟩, ⟨0x2028, 0x2029⟩, ⟨0x202F, 0x202F⟩,
   ⟨0x205F, 0x205F⟩, ⟨0x3000, 0x3000⟩]

/-- The characters that only steer how the text around them is shown. -/
def formatting : List CodeRange :=
  [⟨0xAD, 0xAD⟩, ⟨0x600, 0x605⟩, ⟨0x61C, 0x61C⟩, ⟨0x6DD, 0x6DD⟩, ⟨0x70F, 0x70F⟩, ⟨0x890, 0x891⟩,
   ⟨0x8E2, 0x8E2⟩, ⟨0x180E, 0x180E⟩, ⟨0x200B, 0x200F⟩, ⟨0x202A, 0x202E⟩, ⟨0x2060, 0x2064⟩,
   ⟨0x2066, 0x206F⟩, ⟨0xFEFF, 0xFEFF⟩, ⟨0xFFF9, 0xFFFB⟩, ⟨0x110BD, 0x110BD⟩, ⟨0x110CD, 0x110CD⟩,
   ⟨0x13430, 0x1343F⟩, ⟨0x1BCA0, 0x1BCA3⟩, ⟨0x1D173, 0x1D17A⟩, ⟨0xE0001, 0xE0001⟩,
   ⟨0xE0020, 0xE007F⟩]

/-- The letters that fill the place of a missing letter and are not drawn. -/
def fillers : List CodeRange :=
  [⟨0x115F, 0x1160⟩, ⟨0x3164, 0x3164⟩, ⟨0xFFA0, 0xFFA0⟩]

/-- The code points that are left to private agreement. -/
def privateUse : List CodeRange :=
  [⟨0xE000, 0xF8FF⟩, ⟨0xF0000, 0xFFFFD⟩, ⟨0x100000, 0x10FFFD⟩]

end Lox.CodeRange

namespace Lox

/-- The classes of hidden characters. -/
def hidden : List (List CodeRange) :=
  [CodeRange.controls, CodeRange.separators, CodeRange.formatting, CodeRange.fillers,
    CodeRange.privateUse, CodeRange.extending, CodeRange.unassigned]

def isHidden (c : Char) : Bool :=
  hidden.any (CodeRange.includes · c.toNat)

end Lox
