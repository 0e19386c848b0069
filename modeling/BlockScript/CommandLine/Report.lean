import BlockScript.CommandLine.Files
import BlockScript.Toolchain

/-!
# The command line

What the program answers to its arguments: an exit status and what it writes to standard
output and to standard error. The file is read by whoever calls; all else happens here. A crash is
not taken up: where it happens there is no report, and what was printed is lost.
-/

namespace BlockScript

/-- An exit status and what is written. -/
structure Report where
  status : Nat
  stdout : String
  stderr : String
deriving DecidableEq, Repr

/-- What the arguments ask for. -/
structure Options where
  file : String
  checkOnly : Bool
  noCheck : Bool
  emit : Bool
  verbose : Bool

namespace CommandLine

def usage : String :=
  "plc [OPTIONS] FILE\n\n" ++
  "Check and run a PLC (.plc) program. The exit status is main's Integer result\n" ++
  "modulo 256 (so -1 exits 255); 1 is also the status of any reported error.\n\n" ++
  "Options:\n" ++
  "  --check      Analyze only; do not run\n" ++
  "  --no-check   Run without analyzing first\n" ++
  "  --emit       Analyze, then print the program re-rendered as source\n" ++
  "  --verbose    Log pass progress to stderr\n" ++
  "  --help       Show this help message\n"

/-- A line of the program's own on standard error. -/
def complaint (text : String) : String := "plc: " ++ text ++ "\n"

/-- The report of arguments that make no sense. -/
def rejection (text : String) : Report := ⟨2, "", complaint text⟩

/-- Arguments are read in order, and the first that settles the matter does. -/
def readArguments (options : Options) : List String → Except Report Options
  | [] => .ok options
  | arg :: args =>
    if arg = "--help" || arg = "-h" then .error ⟨0, usage, ""⟩
    else if arg = "--check" then readArguments { options with checkOnly := true } args
    else if arg = "--no-check" then readArguments { options with noCheck := true } args
    else if arg = "--emit" then readArguments { options with emit := true } args
    else if arg = "--verbose" then readArguments { options with verbose := true } args
    else if arg.startsWith "-" then .error (rejection ("unknown flag '" ++ arg ++ "'"))
    else if options.file = "" then readArguments { options with file := arg } args
    else .error (rejection ("unexpected argument '" ++ arg ++ "'"))

/-- The options that arguments stand for, or the report that ends the matter at once. -/
def parseArguments (args : List String) : Except Report Options := do
  let options ← readArguments ⟨"", false, false, false, false⟩ args
  if options.file = "" then throw (rejection "missing file argument")
  else if options.noCheck && (options.checkOnly || options.emit) then
    throw (rejection "--no-check cannot be combined with --check or --emit")
  else return options

/-- A line of the log. -/
def logLine (logger text : String) : String := "plc." ++ logger ++ ": " ++ text ++ "\n"

def eventLine : Event → String
  | .checkingMethod name arity =>
    logLine "analyzer" ("checking method " ++ name ++ "/" ++ toString arity)
  | .entryPointResolved => logLine "analyzer" "entry point main/0 resolved"
  | .entryPointInvoked => logLine "interpreter" "invoking entry point main/0"
  | .calling name arity =>
    logLine "interpreter" ("calling " ++ name ++ "/" ++ toString arity)
  | .printed text => logLine "interpreter" ("print " ++ Text.Quoted.encode text)

/-- What is logged, if logging is asked for. -/
def logged (options : Options) (text : String) : String := if options.verbose then text else ""

/-- The step that the program takes next, for the log. -/
def step (options : Options) (text : String) : String :=
  logged options (logLine "cli" (text ++ " " ++ options.file))

/-- The events of a log whose newest is first, one a line. -/
def events (options : Options) (log : List Event) : String :=
  logged options (String.join (log.reverse.map eventLine))

/-- The report of a failure, after what is on standard output and on standard error. -/
def failed (stdout before label : String) : Failure → Except Crash Report
  | .diagnostic d => .ok ⟨1, stdout, before ++ complaint (label ++ ": " ++ d.message)⟩
  | .misuse m => .ok ⟨1, stdout, before ++ complaint (label ++ ": " ++ m.message)⟩
  | .outOfFuel => .ok ⟨1, stdout, before ++ complaint (label ++ ": out of fuel")⟩
  | .crash crash => .error crash

/-- The exit status of a run: an integer modulo 256, all else zero. -/
def exitStatus : Value → Nat
  | .integer n => (n % 256).toNat
  | _ => 0

/-- Runs a program; `before` is already on standard error. -/
def runProgram (fuel : Nat) (options : Options) (before : String) (p : Program) :
    Except Crash Report :=
  let log := before ++ step options "running"
  let last := p.run fuel .initial none
  let state := Attempt.state last
  let stdout := String.join ((Event.output state.log).map (· ++ "\n"))
  let log := log ++ events options state.log
  match Attempt.result last with
  | .ok value => .ok ⟨exitStatus value, stdout, log⟩
  | .error e => failed stdout log "runtime error" e

/-- Checks a program, then prints or runs it, as the options say. -/
def checkProgram (fuel : Nat) (options : Options) (before : String) (p : Program) :
    Except Crash Report :=
  let last := p.check .initial none
  let log := before ++ step options "analyzing" ++
    events options (Attempt.state last).log
  match Attempt.result last with
  | .error e => failed "" log "analysis error" e
  | .ok _ =>
    if options.checkOnly then .ok ⟨0, "", log⟩
    else if options.emit then
      match p.print with
      | .ok text => .ok ⟨0, text, log⟩
      | .error misuse => .ok ⟨1, "", log ++ complaint misuse.message⟩
    else runProgram fuel options log p

/-- Treats the text of the file. -/
def processText (fuel : Nat) (options : Options) (text : String) : Except Crash Report :=
  let log := step options "parsing"
  match Program.parse text with
  | .error d => failed "" log "syntax error" (.diagnostic d)
  | .ok p =>
    if options.noCheck then runProgram fuel options log p else checkProgram fuel options log p

/-- Treats what reading the file gave. -/
def process (fuel : Nat) (options : Options) : FileContent → Except Crash Report
  | .missing => .ok ⟨1, "", complaint (options.file ++ ": No such file or directory")⟩
  | .unreadable reason => .ok ⟨1, "", complaint (options.file ++ ": " ++ reason)⟩
  | .bytes bytes =>
    match String.fromUTF8? bytes with
    | some text => processText fuel options text
    | none => .ok ⟨1, "", complaint (options.file ++ ": invalid utf-8")⟩

/-- The report on a list of arguments, where `read` gives the contents of files. -/
def report (fuel : Nat) (read : String → FileContent) (args : List String) :
    Except Crash Report :=
  match parseArguments args with
  | .ok options => process fuel options (read options.file)
  | .error report => .ok report

/-- More rounds of a loop than any run comes to. -/
def plenty : Nat := 4611686018427387904

end CommandLine

end BlockScript
