import ClassScript.Program
import ClassScript.Syntax.Printed
import ClassScript.Text.Quoted

/-! The command line: four commands that read a file, and an option to keep a log. What a command
answers is a function of the file; fetching files is left to the caller. -/
namespace ClassScript.CommandLine

inductive Command where
  | tokenize
  | parse
  | evaluate
  | run
  deriving DecidableEq, Repr

def Command.ofName? : String → Option Command
  | "tokenize" => some tokenize
  | "parse" => some parse
  | "evaluate" => some evaluate
  | "run" => some run
  | _ => none

structure Invocation where
  command : Command
  file : Option String
  /-- The log file, when a log is asked for. -/
  log : Option String
  deriving DecidableEq, Repr

/-- The log file that is used when no other is named. -/
def defaultLog : String := "yajs.log"

/-- Arguments taken apart: whether a log is asked for, the log file, and the words that are no
options. -/
structure Arguments where
  log : Bool
  logFile : String
  words : List String
  deriving DecidableEq, Repr

/-- Takes arguments apart; an option may stand at any place. -/
def Arguments.ofList : List String → Arguments
  | [] => ⟨false, defaultLog, []⟩
  | "--log" :: rest => { ofList rest with log := true }
  | ["--log-file"] => ⟨false, defaultLog, []⟩
  | "--log-file" :: path :: rest =>
    let parsed := ofList rest
    { parsed with logFile := path }
  | word :: rest =>
    let parsed := ofList rest
    match word.dropPrefix? "--log-file=" with
    | some path => { parsed with logFile := path.toString }
    | none => { parsed with words := word :: parsed.words }

/-- The invocation that a list of arguments asks for. -/
def Invocation.ofArguments? (arguments : List String) : Option Invocation :=
  let parsed := Arguments.ofList arguments
  let log := if parsed.log then some parsed.logFile else none
  match parsed.words with
  | [command] => (Command.ofName? command).map (⟨·, none, log⟩)
  | [command, file] => (Command.ofName? command).map (⟨·, some file, log⟩)
  | _ => none

/-- What a command answers: its exit status and what it writes. -/
structure Answer where
  status : Nat
  stdout : String
  stderr : String
  deriving DecidableEq, Repr

/-- The status after an error in the source. -/
def dataError : Nat := 65

/-- The status after an error in the run. -/
def softwareError : Nat := 70

def lines (texts : List String) : String := .join (texts.map (· ++ "\n"))

def statusOf (diagnostics : List Diagnostic) : Nat :=
  if diagnostics.any Diagnostic.isRuntime then softwareError else dataError

def failed (diagnostics : List Diagnostic) (stdout : String) : Answer :=
  ⟨statusOf diagnostics, stdout, lines (diagnostics.map Diagnostic.message)⟩

/-- Writes the tokens, and the faults between them as errors. -/
def tokenize (source : List UInt8) : Answer :=
  let items := Item.ofSource source
  let stdout := lines ((items.filterMap Item.token?).map Token.display)
  match items.filterMap Item.fault? with
  | [] => ⟨0, stdout, ""⟩
  | faults => failed (faults.map fun (cause, line) => .lexical cause line) stdout

def parse (source : List UInt8) : Answer :=
  match ClassScript.parse source with
  | .ok program => ⟨0, lines (program.map Stmt.printed), ""⟩
  | .error diagnostics => failed diagnostics ""

def evaluate (source : List UInt8) : Answer :=
  match parseExpression source with
  | .error diagnostics => failed diagnostics ""
  | .ok e =>
    match Machine.evaluate Machine.ampleDepth e (.fresh .unlimited) with
    | .ok value _ => ⟨0, value.display ++ "\n", ""⟩
    | .error (.error e) _ => failed [.runtime e] ""
    | .error .tooDeep _ => ⟨softwareError, "", ""⟩

/-- Runs a program, which writes to standard output as it goes. -/
def run (stdout : Sink) (source : List UInt8) : Answer :=
  let (ending, m) := Machine.run Machine.ampleDepth source (.fresh stdout)
  let stdout := Text.decodeString m.sink.accepted.toList
  match ending with
  | .finished => ⟨0, stdout, ""⟩
  | .failed diagnostics => failed diagnostics stdout
  | .tooDeep => ⟨softwareError, stdout, ""⟩

/-- The answer of a command to a source. Standard output is given to the command that writes to it
while a program runs; what the others print is left to the caller. -/
def Command.answer (stdout : Sink) : Command → List UInt8 → Answer
  | tokenize => CommandLine.tokenize
  | parse => CommandLine.parse
  | evaluate => CommandLine.evaluate
  | run => CommandLine.run stdout

/-- What became of fetching a file; a failure has the system's reason. -/
inductive Fetched where
  | bytes (source : List UInt8)
  | notOpened (reason : String)
  | notRead (reason : String)

/-- The answer to something that has nothing to do with the language. -/
def troubled (context cause : String) : Answer :=
  ⟨1, "", "Error: " ++ context ++ "\n\nCaused by:\n    " ++ cause ++ "\n"⟩

/-- The answer when the log file cannot be made. -/
def logTrouble (path reason : String) : Answer :=
  troubled ("Failed to create " ++ Text.nameQuote path) reason

/-- The answer without a file. -/
def noFile : Answer := ⟨0, "No input filepath was provided. Exiting...\n", ""⟩

/-- The answer of a command to a file. -/
def Command.answerFile (stdout : Sink) (command : Command) (path : String) : Fetched → Answer
  | .notOpened reason => troubled ("Failed to open file " ++ Text.nameQuote path) reason
  | .notRead reason => troubled ("Failed to read file " ++ Text.nameQuote path) reason
  | .bytes source =>
    match Text.decodeStrict source with
    | .error malformed =>
      troubled (Text.nameQuote path ++ " is not valid UTF-8") malformed.message
    | .ok _ => command.answer stdout source

/-- Carries an invocation out in any monad that can make a log file and fetch a file. Making the log
file gives a reason if it fails. Standard output takes everything. -/
def Invocation.perform [Monad m] (makeLog : String → m (Option String)) (fetch : String → m Fetched)
    (i : Invocation) : m Answer := do
  if let some path := i.log then
    if let some reason ← makeLog path then return logTrouble path reason
  match i.file with
  | none => return noFile
  | some path => return i.command.answerFile .unlimited path (← fetch path)

end ClassScript.CommandLine
