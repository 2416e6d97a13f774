import ChomskyNormal.Command.Value

/-!
# Arguments of the command line

The first positional argument is the grammar's file and all others are words. Options stand
anywhere before `--`, after which every argument is positional.

- An option has a long name, as in `--start A` or `--start=A`. Most have a short one too, as
  in `-s A`, `-sA` or `-s=A`, and short options without a value may share one dash.
- A value may not begin with a dash unless it is attached to its option.
- No option but `--verbose` may be given twice.
- `--help` and `--version` end the reading as soon as they are met, so nothing after them is
  looked at.

Main definition: `readArguments`.
-/

namespace ChomskyNormal.Command

/-! ## Options -/

/-- Options that stand alone. -/
inductive Flag
  | table
  | verbose
  | help
  | version
  deriving DecidableEq, Repr

/-- Options that take a value. -/
inductive Setting
  | start
  | generate
  | maxDepth
  | seed
  deriving DecidableEq, Repr

inductive Name
  | flag (flag : Flag)
  | setting (setting : Setting)
  deriving DecidableEq, Repr

def Name.ofLong? (name : List Char) : Option Name :=
  match String.ofList name with
  | "start" => some (.setting .start)
  | "table" => some (.flag .table)
  | "generate" => some (.setting .generate)
  | "max-depth" => some (.setting .maxDepth)
  | "seed" => some (.setting .seed)
  | "verbose" => some (.flag .verbose)
  | "help" => some (.flag .help)
  | "version" => some (.flag .version)
  | _ => none

def Name.ofShort? : Char → Option Name
  | 's' => some (.setting .start)
  | 't' => some (.flag .table)
  | 'n' => some (.setting .generate)
  | 'v' => some (.flag .verbose)
  | 'h' => some (.flag .help)
  | 'V' => some (.flag .version)
  | _ => none

/-! ## What the arguments say so far -/

structure Given where
  file? : Option String
  words : List String
  table : Bool
  start? : Option Char
  amount? : Option Nat
  maxDepth? : Option Nat
  seed? : Option Nat
  deriving DecidableEq, Repr

def Given.nothing : Given where
  file? := none
  words := []
  table := false
  start? := none
  amount? := none
  maxDepth? := none
  seed? := none

/-- Why the program does not go on to load a grammar. -/
inductive Stop
  | misuse
  | help
  | version
  deriving DecidableEq, Repr

namespace Given

/-- Takes the first positional argument as the file, which needs a name. -/
def addPositional (given : Given) (argument : String) : Except Stop Given :=
  match given.file? with
  | none => if argument = "" then .error .misuse else .ok { given with file? := some argument }
  | some _ => .ok { given with words := given.words ++ [argument] }

def raise (given : Given) : Flag → Except Stop Given
  | .table => if given.table then .error .misuse else .ok { given with table := true }
  | .verbose => .ok given
  | .help => .error .help
  | .version => .error .version

def fill {α : Type} (current? new? : Option α) : Except Stop α :=
  match current?, new? with
  | none, some value => .ok value
  | _, _ => .error .misuse

def set (given : Given) (setting : Setting) (value : List Char) : Except Stop Given :=
  match setting with
  | .start =>
      (fill given.start? (readChar? value)).map
        fun start => { given with start? := some start }
  | .generate =>
      (fill given.amount? (readNonnegative? UInt32.size value)).map
        fun amount => { given with amount? := some amount }
  | .maxDepth =>
      (fill given.maxDepth? (readUnsigned? UInt64.size value)).map
        fun depth => { given with maxDepth? := some depth }
  | .seed =>
      (fill given.seed? (readUnsigned? UInt64.size value)).map
        fun seed => { given with seed? := some seed }

/-! ## One argument -/

/-- Reads the options that share one dash. A setting takes all that follows it as its value,
less an equals sign; if nothing follows, it is returned and waits for the next argument. -/
def readShort (given : Given) : List Char → Except Stop (Given × Option Setting)
  | [] => .ok (given, none)
  | c :: rest =>
      match Name.ofShort? c with
      | none => .error .misuse
      | some (.flag flag) => given.raise flag >>= (readShort · rest)
      | some (.setting setting) =>
          -- The rest of the cluster belongs to the setting, so no further option is read.
          match rest with
          | [] => .ok (given, some setting)
          | '=' :: value => (given.set setting value).map (·, none)
          | value => (given.set setting value).map (·, none)

/-- Reads an option by its long name. Only a setting may have a value attached; without one
it is returned and waits for the next argument. -/
def readLong (given : Given) (text : List Char) : Except Stop (Given × Option Setting) :=
  let value? := match text.dropWhile (· ≠ '=') with
    | _ :: value => some value
    | [] => none
  match Name.ofLong? (text.takeWhile (· ≠ '=')), value? with
  | some (.setting setting), some value => (given.set setting value).map (·, none)
  | some (.setting setting), none => .ok (given, some setting)
  | some (.flag flag), none => (given.raise flag).map (·, none)
  | _, _ => .error .misuse

def readArgument (given : Given) (argument : String) : Except Stop (Given × Option Setting) :=
  match argument.toList with
  | '-' :: '-' :: text => given.readLong text
  | '-' :: c :: text => given.readShort (c :: text)
  | _ => (given.addPositional argument).map (·, none)

/-- Whether an argument could be an option: a lone dash is an ordinary text. -/
def looksLikeOption (argument : String) : Bool :=
  match argument.toList with
  | '-' :: _ :: _ => true
  | _ => false

/-! ## All arguments -/

/-- Reads arguments from left to right; `waiting?` is a setting that still needs its value. -/
def readAll (given : Given) (waiting? : Option Setting) : List String → Except Stop Given
  | [] => if waiting?.isNone then .ok given else .error .misuse
  | argument :: later =>
      match waiting? with
      | some setting =>
          if looksLikeOption argument then
            .error .misuse
          else
            given.set setting argument.toList >>= (readAll · none later)
      | none =>
          if argument = "--" then
            later.foldlM addPositional given
          else
            given.readArgument argument >>= fun (given, waiting?) => readAll given waiting? later

end Given

/-! ## Requests -/

structure Request where
  file : String
  words : List String
  start? : Option Char
  /-- Whether to show the recognition table of every word. -/
  table : Bool
  /-- How many words to sample. -/
  amount : Nat
  /-- The limit on the height of the trees of sampled words. -/
  maxDepth : Nat
  seed? : Option Nat
  deriving DecidableEq, Repr

def defaultDepth : Nat := 8

/-- Reads all arguments; the file is the only one that has to be there. -/
def readArguments (arguments : List String) : Except Stop Request := do
  let given ← Given.nothing.readAll none arguments
  match given.file? with
  | none => throw .misuse
  | some file =>
      return {
        file
        words := given.words
        start? := given.start?
        table := given.table
        amount := given.amount?.getD 0
        maxDepth := given.maxDepth?.getD defaultDepth
        seed? := given.seed? }

end ChomskyNormal.Command
