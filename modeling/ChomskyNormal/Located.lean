/-!
# Values at a place

What is read from a file, and what is wrong with it, belongs to the file or to one line of it.

- `Location` : a file, or one line of it;
- `Located` : a value together with its location;
- `Located.text` : an error as a user sees it, the location in bold red.
-/

namespace ChomskyNormal

/-- A file as a whole, or its line with the given number, counted from one. -/
structure Location where
  file : String
  line? : Option Nat
  deriving DecidableEq, Repr

namespace Location

/-- The file's name, followed by the line's number where there is one. -/
def text (location : Location) : String :=
  match location.line? with
  | none => location.file
  | some line => s!"{location.file}:{line}"

instance : ToString Location := ⟨text⟩

end Location

structure Located (α : Type) where
  location : Location
  value : α
  deriving DecidableEq, Repr

namespace Located

variable {ε : Type} [ToString ε]

/-- The location in brackets, bold and red, then two blanks and the error's message in bold. -/
def text (error : Located ε) : String :=
  s!"\x1b[31;49;1m[{error.location}]\x1b[39;49;1m  {error.value}\x1b[0m"

end Located

end ChomskyNormal
