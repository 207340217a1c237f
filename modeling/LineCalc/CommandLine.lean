import LineCalc.CommandLine.Folder
import LineCalc.Session

/-!
# The command line

The program runs one file, in a session of its own, and writes what the run puts out. Arguments are
read from left to right: the first that is wrong refuses the command line, and a request for the
version or for help is answered as soon as it is met.
-/

namespace LineCalc

/-- What the arguments ask of a run. -/
structure Options where
  /-- The file to run, if one is named. -/
  input : Option String := none
  slots : Bool := false
  keepGoing : Bool := false
deriving DecidableEq, Repr

/-- What the arguments ask for. -/
inductive Request where
  | run (options : Options)
  | version
  | help
  | refused
deriving DecidableEq, Repr

/-- What the program writes, and the code with which it exits. -/
structure Response where
  exit : Nat
  stdout : String := ""
  stderr : String := ""
deriving DecidableEq, Repr

namespace Options

/-- The file that is run when none is named. -/
def defaultInput : String := "input.txt"

/-- Names the file to run. It can be named only once, and must have a name. -/
def withInput? (o : Options) (path : String) : Option Options :=
  if o.input.isSome || path.isEmpty then none else some { o with input := some path }

/-- Asks for memory slots, which can be done only once. -/
def withSlots? (o : Options) : Option Options :=
  if o.slots then none else some { o with slots := true }

/-- Asks to keep going, which can be done only once. -/
def withKeepGoing? (o : Options) : Option Options :=
  if o.keepGoing then none else some { o with keepGoing := true }

/-- How the session is run. -/
def config (o : Options) : Config where
  names := if o.slots then .memorySlots else .free
  keepGoing := o.keepGoing

end Options

/-! ### Arguments -/

/-- What an argument comes to. -/
inductive Step where
  /-- The options so far. -/
  | go (options : Options)
  /-- The next argument names the file. -/
  | needsInput (options : Options)
  | stop (request : Request)
deriving DecidableEq, Repr

namespace Step

/-- Goes on with new options, unless they are refused. -/
def ofOptions? : Option Options → Step
  | some o => .go o
  | none => .stop .refused

end Step

namespace CommandLine

/-- Can this argument be a value? An argument that starts with a hyphen cannot, unless it is nothing
but the hyphen. -/
def isValue (arg : String) : Bool := arg == "-" || !arg.startsWith "-"

/-- Letters that stand behind one hyphen. The rest of the argument behind `i` names the file, with
or without an equals sign. -/
def letters (o : Options) : List Char → Step
  | [] => .go o
  | 'k' :: rest =>
    match o.withKeepGoing? with
    | some o => letters o rest
    | none => .stop .refused
  | 'V' :: _ => .stop .version
  | 'h' :: _ => .stop .help
  | ['i'] => .needsInput o
  | 'i' :: '=' :: path => .ofOptions? (o.withInput? (String.ofList path))
  | 'i' :: path => .ofOptions? (o.withInput? (String.ofList path))
  | _ => .stop .refused

/-- A word that stands behind two hyphens, with the value behind its equals sign, if it has one. -/
def word (o : Options) (name : String) (value? : Option String) : Step :=
  match name, value? with
  | "input", some path => .ofOptions? (o.withInput? path)
  | "input", none => .needsInput o
  | "slots", none => .ofOptions? o.withSlots?
  | "keep-going", none => .ofOptions? o.withKeepGoing?
  | "version", none => .stop .version
  | "help", none => .stop .help
  | _, _ => .stop .refused

/-- The part of a word before its equals sign, and the part behind it. -/
def splitWord (chars : List Char) : String × Option String :=
  let name := String.ofList (chars.takeWhile (· != '='))
  match chars.dropWhile (· != '=') with
  | _ :: value => (name, some (String.ofList value))
  | [] => (name, none)

/-- What a single argument comes to. -/
def argument (o : Options) (arg : String) : Step :=
  match arg.toList with
  | '-' :: '-' :: rest =>
    let (name, value?) := splitWord rest
    word o name value?
  | '-' :: c :: rest => letters o (c :: rest)
  | _ => .stop .refused

/-- What the arguments ask for, after those that gave the options `o`. Two hyphens alone end the
options; there is nothing else that may follow them. -/
def requestFrom (o : Options) : List String → Request
  | [] => .run o
  | arg :: rest =>
    if arg = "--" then
      if rest.isEmpty then .run o else .refused
    else
      match argument o arg with
      | .go o => requestFrom o rest
      | .stop request => request
      | .needsInput o =>
        match rest with
        | path :: rest =>
          match if isValue path then o.withInput? path else none with
          | some o => requestFrom o rest
          | none => .refused
        | [] => .refused

/-- What the arguments ask for. -/
def request (args : List String) : Request := requestFrom {} args

/-! ### Answers -/

/-- The name of the program and its version. -/
def versionText : String := "climb-calc 0.1.0\n"

/-- How the program is called. -/
def helpText : String :=
  Transcript.lines [
    "Calculator language front-end: lexer, precedence-climbing evaluator and symbol table",
    "",
    "Usage: climb-calc [OPTIONS]",
    "",
    "Options:",
    "  -i, --input <INPUT>  Input file with calculator statements [default: input.txt]",
    "      --slots          Only accept the memory slots MEM_1 .. MEM_10 as variable names",
    "  -k, --keep-going     Skip to the next line after a syntax error instead of stopping",
    "  -h, --help           Print help",
    "  -V, --version        Print version"]

/-- The answer to a file that has no text. -/
def unreadable (path : String) : ReadFailure → Response
  | .notFound => { exit := 1, stderr := s!"file not found: {path}\n" }
  | failure => {
      exit := 1
      stderr :=
        s!"Error: can't read {Text.quoted path}\n\nCaused by:\n    {failure.reason}\n" }

/-- The answer to a run. It succeeds if the whole text was run. -/
def answer (t : Transcript) : Response where
  exit := if t.completed then 0 else 1
  stdout := t.stdout
  stderr := t.stderr

/-- What is written when the arguments are refused. -/
def refusedText : String :=
  Transcript.lines [
    "error: invalid arguments",
    "",
    "Usage: climb-calc [OPTIONS]",
    "",
    "For more information, try '--help'."]

/-- The answer to arguments, where `read` gives the text of a file. There is none if the arguments
are refused. -/
def respond? {m : Type → Type} [Monad m] (read : String → m (Except ReadFailure String))
    (args : List String) : m (Option Response) := do
  match request args with
  | .refused => return none
  | .version => return some { exit := 0, stdout := versionText }
  | .help => return some { exit := 0, stdout := helpText }
  | .run o =>
    let path := o.input.getD Options.defaultInput
    match ← read path with
    | .error failure => return some (unreadable path failure)
    | .ok source => return some (answer (Session.run { config := o.config } source).1)

end CommandLine

end LineCalc
