import Aggregation.Command.Arguments
import Aggregation.Command.Execute

/-!
# Running the program

The outcome of a run is a function of the arguments and the standard input. The
input is read only when a command needs it and is not given as an option.
-/

namespace Aggregation.Command

/-- The standard input: a terminal, which is not read, or the bytes of a pipe. -/
inductive StandardInput where
  | terminal
  | piped (bytes : ByteArray)

/-- What a run leaves behind. -/
structure Outcome where
  exit : UInt32
  stdout : String
  stderr : String

/-- Name and version of the program. -/
def versionLine : String := "mql 0.1.0\n"

/-- What a usage fault shows. -/
def usageText : String :=
  "Usage: mql render [-i|--input JSON] [-p|--pretty]\n" ++
  "       mql coerce [-i|--input JSON]\n" ++
  "       mql -V|--version\n"

/-- The text of the standard input, if it is not a terminal. -/
def StandardInput.text? : StandardInput → Except Error (Option String)
  | .terminal => .ok none
  | .piped bytes =>
    match String.fromUTF8? bytes with
    | some text => .ok (some text)
    | none => .error (.io "stream did not contain valid UTF-8")

/-- The text a command works on: the option's, or else the standard input's. -/
def inputText (given : Option String) (stdin : StandardInput) : Except Error (Option String) :=
  match given with
  | some text => .ok (some text)
  | none => stdin.text?

/-- Whether the invocation reads the standard input. -/
def Invocation.readsStandardInput : Invocation → Bool
  | .render none _ => true
  | .coerce none => true
  | _ => false

/-- What an invocation prints. -/
def Invocation.output (stdin : StandardInput) : Invocation → Except Error String
  | .version => .ok versionLine
  | .render given pretty => do
    let input ← inputText given stdin
    let document ← renderInput input
    return (if pretty then document.pretty else document.compact) ++ "\n"
  | .coerce given => do
    let input ← inputText given stdin
    let result ← coerceInput input
    let kind := (result.kind?.map Kind.name).getD "unchanged"
    return "kind: " ++ kind ++ "\n" ++ result.rendered.compact ++ "\n"

/-- Run the program: exit 2 for a usage fault, 1 for a failed command. -/
def run (arguments : List String) (stdin : StandardInput) : Outcome :=
  match Invocation.ofArguments? arguments with
  | none => ⟨2, "", usageText⟩
  | some invocation =>
    match invocation.output stdin with
    | .ok text => ⟨0, text, ""⟩
    | .error fault => ⟨1, "", fault.message ++ "\n"⟩

end Aggregation.Command
