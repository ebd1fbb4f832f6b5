/-!
# Arguments of the command line

`render` takes `-i V` or `--input V`, and `-p` or `--pretty`; `coerce` takes the
input alone. Short options may be joined, a value may be attached, with or
without `=`, or follow as the next argument, which then must not look like an
option. An option may stand once. Two hyphens alone end the options, and nothing
may follow them. `-V` or `--version` counts in the place of a command only.
Anything else is a usage fault.
-/

namespace Aggregation.Command

/-- What the arguments ask for. -/
inductive Invocation where
  | version
  | render (input : Option String) (pretty : Bool)
  | coerce (input : Option String)
  deriving DecidableEq, Repr

/-- The options of a command. -/
structure Options where
  input : Option String := none
  pretty : Bool := false

/-- One option of an argument. -/
inductive Setting where
  | pretty
  | input (text : String)
  /-- The input is the next argument. -/
  | inputFollows
  deriving DecidableEq, Repr

/-- The options of an argument of joined short options, after its hyphen. -/
def shortSettings? : List Char → Option (List Setting)
  | [] => some []
  | 'p' :: rest => (shortSettings? rest).map (.pretty :: ·)
  | ['i'] => some [.inputFollows]
  | 'i' :: '=' :: text => some [.input (String.ofList text)]
  | 'i' :: text => some [.input (String.ofList text)]
  | _ => none

/-- The option of an argument with a long name, after its two hyphens. -/
def longSettings? (characters : List Char) : Option (List Setting) :=
  let name := String.ofList (characters.takeWhile (· ≠ '='))
  match characters.dropWhile (· ≠ '=') with
  | [] =>
    if name = "input" then some [.inputFollows]
    else if name = "pretty" then some [.pretty]
    else none
  | _ :: text => if name = "input" then some [.input (String.ofList text)] else none

/-- The options of an argument, if it has the form of options. -/
def settings? (argument : String) : Option (List Setting) :=
  match argument.toList with
  | '-' :: '-' :: name => longSettings? name
  | '-' :: c :: cs => shortSettings? (c :: cs)
  | _ => none

/-- Whether an argument starts like an option; a hyphen alone does not. -/
def looksLikeOption (argument : String) : Bool :=
  match argument.toList with
  | '-' :: _ :: _ => true
  | _ => false

/-- Take an option into account; none may stand twice. -/
def Options.set? (options : Options) : Setting → Option Options
  | .pretty => if options.pretty then none else some { options with pretty := true }
  | .input text => if options.input.isSome then none else some { options with input := some text }
  | .inputFollows => none

/-- Take the arguments of a command into account. -/
def readOptions? (options : Options) : List String → Option Options
  | [] => some options
  | ["--"] => some options
  | [argument] => do
    let settings ← settings? argument
    settings.foldlM Options.set? options
  | argument :: next :: rest => do
    let settings ← settings? argument
    if settings.getLast? = some .inputFollows then
      if looksLikeOption next then none
      else
        let options ← (settings.dropLast ++ [Setting.input next]).foldlM Options.set? options
        readOptions? options rest
    else
      let options ← settings.foldlM Options.set? options
      readOptions? options (next :: rest)

/-- What the arguments ask for, if they are well formed. -/
def Invocation.ofArguments? : List String → Option Invocation
  | "render" :: rest => do
    let options ← readOptions? {} rest
    return .render options.input options.pretty
  | "coerce" :: rest => do
    let options ← readOptions? {} rest
    if options.pretty then none else return .coerce options.input
  | argument :: _ =>
    if argument = "--version" then some .version
    else
      match argument.toList with
      | '-' :: 'V' :: _ => some .version
      | _ => none
  | [] => none

end Aggregation.Command
