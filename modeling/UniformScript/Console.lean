import UniformScript.Session
import UniformScript.Report.Terminal
import UniformScript.Syntax.Canonical

/-!
# The command line

`uniform FILE` runs a file, or lists its tokens, or writes its canonical text.  Without a file the
lines of the input are run one after the other in one session, until the input ends or a line says
to leave; a program that reads a line takes the next one.

All of it is a function from the arguments, the files and the input to what is written on the two
outputs and the exit code.
-/

namespace UniformScript.Console

/-- The version of the language. -/
def version : String := "0.1.0"

/-! ## Arguments -/

/-- What the arguments ask for. -/
structure Options where
  /-- The file to work on. -/
  file : Option String
  /-- Whether the tokens are to be listed. -/
  tokens : Bool
  /-- Whether the canonical text is to be written. -/
  ast : Bool
  /-- Whether reports are to be written without colour. -/
  noColor : Bool

/-- The meaning of the arguments. -/
inductive Request where
  /-- Work to do. -/
  | work (options : Options)
  /-- The version is asked for. -/
  | version
  /-- An argument that means nothing. -/
  | unexpected (argument : String)

/-- What is written, and the exit code. -/
structure Result where
  /-- The text on the standard output. -/
  stdout : String
  /-- The text on the error output. -/
  stderr : String
  /-- The exit code. -/
  code : Nat
  deriving Repr, Inhabited

/-- Takes up the letters behind a single dash. -/
def readLetters (o : Options) : List Char → Except Request Options
  | [] => .ok o
  | c :: cs =>
    if c = 't' then readLetters { o with tokens := true } cs
    else if c = 'a' then readLetters { o with ast := true } cs
    else if c = 'v' then readLetters o cs
    else if c = 'V' then .error .version
    else .error (.unexpected ("-" ++ c.toString))

/-- Takes up an argument that is no option: there is room for one file. -/
def readFile (o : Options) (argument : String) : Except Request Options :=
  if o.file.isSome then .error (.unexpected argument) else .ok { o with file := some argument }

/-- Takes up an argument. -/
def readArgument (o : Options) (argument : String) : Except Request Options :=
  if argument = "--tokens" then .ok { o with tokens := true }
  else if argument = "--ast" then .ok { o with ast := true }
  else if argument = "--no-color" then .ok { o with noColor := true }
  else if argument = "--verbose" then .ok o
  else if argument = "--version" then .error .version
  else
    match argument.toList with
    | '-' :: '-' :: _ => .error (.unexpected argument)
    | '-' :: c :: cs => readLetters o (c :: cs)
    | _ => readFile o argument

/-- Takes up the arguments in order; behind two dashes there are no more options. -/
def readArguments (o : Options) : List String → Request
  | [] => .work o
  | argument :: rest =>
    if argument = "--" then
      match rest.foldlM readFile o with
      | .ok o => .work o
      | .error r => r
    else
      match readArgument o argument with
      | .ok o => readArguments o rest
      | .error r => r

/-! ## Files -/

/-- What the events of a program put on the output: lines, and prompts without a line break. -/
def written (events : List Event) : String :=
  String.join (events.map fun
    | .printed text => text ++ "\n"
    | .prompted text => text)

/-- The input as a world to run in: lines with the characters that end them. -/
def host (input : String) (randoms : Nat → Float) : Host :=
  Host.start .console ((Text.linesWithBreaks input.toList).map String.ofList) randoms

/-- A number, with blanks in front where it has less than four digits. -/
def padded (n : Nat) : String :=
  let digits := toString n
  String.ofList (List.replicate (4 - digits.length) ' ') ++ digits

/-- The line above and below a listing. -/
def rule : String := String.ofList (List.replicate 60 '=')

/-- The listing of the tokens of a file. -/
def listing (name : String) (tokens : List Token) : String :=
  let rows := (tokens.zipIdx).map fun (t, i) => padded i ++ ": " ++ t.listed ++ "\n"
  "Tokens for '" ++ name ++ "':\n" ++ rule ++ "\n" ++ String.join rows ++ rule ++ "\n" ++
    "Total tokens: " ++ toString tokens.length ++ "\n"

/-- The result of work that a failure ends. -/
def refused (color : Bool) (stdout : String) (failure : Failure) : Result :=
  ⟨stdout, failure.report.terminal color, 1⟩

/-- Works on a file. -/
def workOn (fuel : Nat) (o : Options) (color : Bool) (source : Source) (host : Host) :
    Except Stop Result :=
  if o.tokens then
    match Token.scan source with
    | .ok tokens => .ok ⟨listing source.name tokens, "", 0⟩
    | .error f => .ok (refused color "" (.lexical f))
  else if o.ast then
    match Program.read source with
    | .ok p => .ok ⟨p.canonical ++ "\n", "", 0⟩
    | .error failure => .ok (refused color "" failure)
  else do
    let (answer, s) ← (Session.start true host).run fuel source
    let stdout := written s.log
    match answer with
    | .failed failure => return refused color stdout failure
    | _ => return ⟨stdout, "", 0⟩

/-! ## Conversations -/

/-- What is shown for an answer: one value by itself, several as a list. -/
def shown : Answer → String
  | .values [v] => v.shown ++ "\n"
  | .values vs => (Value.list vs).shown ++ "\n"
  | _ => ""

/-- What is reported for an answer. -/
def reported (color : Bool) : Answer → String
  | .failed failure => failure.report.terminal color
  | _ => ""

/-- Whether a line says to leave. -/
def isFarewell (line : List Char) : Bool :=
  let word := String.ofList (Text.trim line)
  word == "exit" || word == "quit"

/-- Runs the lines of the input, at most so many, and gives what is written on the two outputs. -/
def converse (fuel : Nat) (color : Bool) (lines : Nat) (s : Session) :
    Except Stop (String × String) :=
  match lines, s.machine.host.input with
  | lines + 1, line :: rest =>
    let text := Text.withoutBreak line.toList
    if isFarewell text then .ok ("", "")
    else do
      let host := { s.machine.host with input := rest, log := #[] }
      let (answer, s) ←
        Session.run ⟨⟨s.machine.arena, host⟩, s.runs⟩ fuel ⟨"<stdin>", String.ofList text⟩
      let (stdout, stderr) ← converse fuel color lines s
      return (written s.log ++ shown answer ++ stdout, reported color answer ++ stderr)
  | _, _ => .ok ("", "")

/-- What is written before the first line is run. -/
def greeting : String :=
  "Uniform v" ++ version ++ " - Language Interpreter\nType 'exit' to quit\n\n"

/-- What is written behind the last line. -/
def farewell : String := "\nGoodbye!\n"

/-- Runs the input line by line. -/
def talk (fuel : Nat) (color : Bool) (host : Host) : Except Stop Result := do
  let (stdout, stderr) ← converse fuel color host.input.length (Session.start true host)
  return ⟨greeting ++ stdout ++ farewell, stderr, 0⟩

/-! ## All of it -/

/-- What is said about an argument that means nothing. -/
def usage (argument : String) : String :=
  "error: unexpected argument '" ++ argument ++ "' found\n\nUsage: uniform [OPTIONS] [FILE]\n\n" ++
    "For more information, try '--help'.\n"

/-- Does what the arguments ask for.  `files` gives the text of a file or says why it cannot be
read, and `terminal` says whether reports are seen on a terminal. -/
def run (fuel : Nat) (args : List String) (files : String → Except String String) (input : String)
    (randoms : Nat → Float) (terminal : Bool) : Except Stop Result :=
  match readArguments ⟨none, false, false, false⟩ args with
  | .version => .ok ⟨"uniform " ++ version ++ "\n", "", 0⟩
  | .unexpected argument => .ok ⟨"", usage argument, 2⟩
  | .work o =>
    let color := terminal && !o.noColor
    match o.file with
    | none => talk fuel color (host input randoms)
    | some name =>
      match files name with
      | .error reason => .ok ⟨"", "Failed to read file '" ++ name ++ "': " ++ reason ++ "\n", 1⟩
      | .ok text => workOn fuel o color ⟨name, text⟩ (host input randoms)

end UniformScript.Console
