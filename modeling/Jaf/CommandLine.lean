import Jaf.CommandLine.LogFilter
import Jaf.CommandLine.Request
import Jaf.Container.Dump

/-!
# The command line

A run has an exit status and two texts, one for the standard output and one for standard error. The
output holds nothing but the tables, so that it can be processed further. All else is told on standard
error, in the order in which it comes about. Log records are shown as a filter asks for, or if there is
none, by how talkative the run is. What is wrong with the filter is told before all else.
-/

namespace Jaf

/-- A log record in one line. -/
def LogEvent.line (e : LogEvent) : String :=
  "[" ++ e.level.text ++ " " ++ e.origin ++ "] " ++ e.message ++ "\n"

/-- A report as it is shown. -/
def Report.shown (f : LogFilter) : Report → String
  | text s => s
  | log e => if f.shows e then e.line else ""

/-- How a run of the program ended and what it wrote. -/
structure Exit where
  status : Nat
  stdout : String
  stderr : String
deriving DecidableEq, Repr

namespace Options

/-- The line that opens a talkative run. -/
def openingLine (o : Options) : String :=
  "Compiling " ++ o.input ++ " (ain version " ++ toString o.settings.version ++ ")\n"

/-- The line that closes a talkative run that succeeded. -/
def closingLine (o : Options) (c : Container) : String :=
  "Analyzed " ++ o.input ++ ": " ++ toString c.structs.length ++ " structs, "
    ++ toString c.functions.length ++ " functions, " ++ toString c.globals.length ++ " globals, "
    ++ toString c.initvals.length ++ " initvals\n"

/-- The line that closes a run that failed; a reading error gives its reason once more. -/
def failureLine (o : Options) (e : CompileError) : String :=
  "error: failed to compile " ++ o.input ++ ": " ++ e.diagnostic.text ++
    (match e with
      | .unreadable reason => ": " ++ reason.message
      | _ => "") ++ "\n"

/-- Runs a compilation of a file, given what reading it gave. -/
def run (o : Options) (filter : LogFilter) (content : Except ReadError String) : Exit :=
  let ⟨reports, result⟩ := Compilation.ofFile o.settings o.input content
  let told := (if o.settings.verbose then o.openingLine else "")
    ++ String.join (reports.map (·.shown filter))
  match result with
  | .ok program =>
    ⟨0, if o.tables then program.container.dump else "",
      told ++ if o.settings.verbose then o.closingLine program.container else ""⟩
  | .error e => ⟨1, "", told ++ o.failureLine e⟩

end Options

namespace CommandLine

/-- The answer to a question for the version. -/
def versionText : String := "jafc 0.1.0\n"

/-- How the program is called. -/
def usage : String := "Usage: jafc [OPTIONS] <INPUT>\n"

/-- The answer to a call for help. -/
def helpText : String :=
  "Static analysis frontend for JAF scripts targeting AIN containers\n\n" ++ usage ++
  "\nArguments:\n" ++
  "  <INPUT>  Input source file (.jaf)\n" ++
  "\nOptions:\n" ++
  "      --ain-version <AIN_VERSION>  AIN container version to target [default: 4]\n" ++
  "  -v, --verbose                    Verbose output\n" ++
  "      --dump-tokens                Dump tokens (for debugging)\n" ++
  "      --dump-ast                   Dump AST after analysis (for debugging)\n" ++
  "      --dump-tables                Print the resulting struct, function and global tables\n" ++
  "  -h, --help                       Print help\n" ++
  "  -V, --version                    Print version\n"

/-- Runs the program on arguments, with a log filter if one is given, and a way to read files. -/
def run (args : List String) (log : Option String) (read : String → Except ReadError String) : Exit :=
  match Request.ofArgs args with
  | .compile o =>
    let (filter, errors) := (log.map LogFilter.ofText).getD (.byDefault o.settings.verbose, [])
    let exit := o.run filter (read o.input)
    { exit with stderr := String.join (errors.map (·.line)) ++ exit.stderr }
  | .showVersion => ⟨0, versionText, ""⟩
  | .showHelp => ⟨0, helpText, ""⟩
  | .misuse => ⟨2, "", usage⟩

end CommandLine

end Jaf
