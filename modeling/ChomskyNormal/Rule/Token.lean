import ChomskyNormal.Character.Blank

/-!
# Tokens of a rule line

A line holds three kinds of tokens: the define mark `::=`, the bar `|`, and maximal runs of
other characters. Blanks end a run and are dropped. A colon may only begin a define mark, so
a line with any other colon has no tokens at all.
-/

namespace ChomskyNormal

inductive Token
  | define
  | bar
  | symbols (run : List Char)
  deriving DecidableEq, Repr

namespace Token

/-- Whether a character can stand in a run: all but blanks, bars and colons. -/
def inRun (c : Char) : Bool :=
  !(isBlank c || c == '|' || c == ':')

/-- Puts a character before the tokens that follow it. It extends their first run when it
`touches` that run, and is a run of its own otherwise. -/
def prepend (c : Char) (touches : Bool) : List Token → List Token
  | .symbols run :: tokens =>
      if touches then .symbols (c :: run) :: tokens else .symbols [c] :: .symbols run :: tokens
  | tokens => .symbols [c] :: tokens

/-- The tokens of a line, or `none` if a colon does not begin a define mark. -/
def scan? : List Char → Option (List Token)
  | [] => some []
  | ':' :: ':' :: '=' :: rest => (scan? rest).map (.define :: ·)
  | c :: rest =>
      -- Define marks are dealt with above, so this colon does not begin one.
      if c = ':' then none
      else if c = '|' then (scan? rest).map (.bar :: ·)
      else if isBlank c then scan? rest
      else (scan? rest).map (prepend c (rest.head?.any inRun))

def letters : Token → List Char
  | .symbols run => run
  | .define => []
  | .bar => []

end Token

end ChomskyNormal
