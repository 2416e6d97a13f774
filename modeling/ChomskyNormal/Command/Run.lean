import ChomskyNormal.Command.Arguments
import ChomskyNormal.Load.Grammar
import ChomskyNormal.Recognition.Text
import ChomskyNormal.Sampling.Sample

/-!
# Running a request

The program loads the grammar, checks the words in the given order, and samples words last.
It stops at the first failure. What it has written by then stays written.

- `Outcome` : everything a run shows to the outside;
- `answerWords`, `sampleWords` : the two kinds of queries;
- `run` : what a request comes to, given the contents of its file and a source;
- `respond` : the same from the arguments of the command line.
-/

namespace ChomskyNormal.Command

/-- The exit code and what is written on each stream; a line feed follows each text. -/
structure Outcome where
  exitCode : Nat
  output : List String
  errors : List String
  deriving DecidableEq, Repr

def streamText (texts : List String) : String :=
  String.join (texts.map (· ++ "\n"))

/-! ## Loading -/

def loadReport (file : String) (errors : List LoadError) : List String :=
  errors.map Located.text ++ [s!"Error: could not load {file} ({errors.length} errors)"]

/-! ## Checking words -/

def answerWord (grammar : Grammar) (showTable : Bool) (word : String) :
    Except WordError (List String) :=
  (grammar.table word).map fun table =>
    (word ++ if table.isDerived then ": yes" else ": no") ::
      (if showTable then [table.text] else [])

/-- The answers up to the first word that cannot be checked, and what is wrong with it. -/
def answerWords (grammar : Grammar) (showTable : Bool) :
    List String → List String × Option (String × WordError)
  | [] => ([], none)
  | word :: later =>
      match answerWord grammar showTable word with
      | .error error => ([], some (word, error))
      | .ok answer =>
          let (answers, failure?) := answerWords grammar showTable later
          (answer ++ answers, failure?)

def indent (text : String) : String :=
  "    " ++ "\n    ".intercalate ((pieces '\n' text.toList).map String.ofList)

def wordReport (word : String) (error : WordError) : List String :=
  [s!"Error: cannot check `{word}`", "", "Caused by:", indent error.message]

/-! ## Sampling -/

/-- Sampled words up to the first failure, from the number at a position on. -/
def sampleWords (grammar : Grammar) (maxDepth : Nat) (source : Source) :
    Nat → Nat → List String × Option SampleError
  | 0, _ => ([], none)
  | amount + 1, position =>
      match grammar.sample maxDepth source position with
      | .error error _ => ([], some error)
      | .ok tree next =>
          let (words, failure?) := sampleWords grammar maxDepth source amount next
          (tree.word :: words, failure?)

def sampleReport (error : SampleError) : List String :=
  [s!"Error: {error}"]

/-! ## The program -/

def query (grammar : Grammar) (request : Request) (source : Source) : Outcome :=
  match answerWords grammar request.table request.words with
  | (answers, some (word, error)) => ⟨1, answers, wordReport word error⟩
  | (answers, none) =>
      match sampleWords grammar request.maxDepth source request.amount 0 with
      | (words, some error) => ⟨1, answers ++ words, sampleReport error⟩
      | (words, none) => ⟨0, answers ++ words, []⟩

/-- What a request comes to; the contents are `none` if there is no such file. -/
def run (request : Request) (contents? : Option ByteArray) (source : Source) : Outcome :=
  match Grammar.ofFile request.file contents? request.start? with
  | .error errors => ⟨1, [], loadReport request.file errors⟩
  | .ok grammar => query grammar request source

def versionText : String := "cyk 0.1.0"

def usage : List String :=
  ["Usage: cyk [OPTIONS] <FILE> [WORDS]...",
    "",
    "Arguments:",
    "  <FILE>      File containing the grammar, one `A ::= BC | a` rule per line",
    "  [WORDS]...  Words to check against the grammar",
    "",
    "Options:",
    "  -s, --start <SYMBOL>     Start symbol (default: head of the first rule in the file)",
    "  -t, --table              Print the recognition table of every word",
    "  -n, --generate <AMOUNT>  Amount of random words to generate (default: none)",
    "      --max-depth <DEPTH>  Deepest derivation tree used for generated words [default: 8]",
    "      --seed <SEED>        Seed for reproducible generated words",
    "  -v, --verbose            Accepted for convenience; there is no log",
    "  -h, --help               Print help",
    "  -V, --version            Print version"]

def Stop.outcome : Stop → Outcome
  | .misuse => ⟨2, [], ["error: the arguments are not understood", ""] ++ usage⟩
  | .help => ⟨0, usage, []⟩
  | .version => ⟨0, [versionText], []⟩

/-- What the program does with its arguments. `contents?` looks a file up and `source` gives
random numbers, from a seed where one is given. -/
def respond (arguments : List String) (contents? : String → Option ByteArray)
    (source : Option Nat → Source) : Outcome :=
  match readArguments arguments with
  | .error stop => stop.outcome
  | .ok request => run request (contents? request.file) (source request.seed?)

end ChomskyNormal.Command
