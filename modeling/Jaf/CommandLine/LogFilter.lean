import Jaf.Analysis.Session
import Jaf.Text.Pattern.Reader
import Jaf.Text.Pieces

/-!
# Choosing log records

Which log records are shown is written as a list of directives with commas between them. A level alone
is for all parts of the program; a part of the program alone asks for all its records; a part and a
level with an equals sign between them ask for the records of that part up to that level. A part is
named by the front of its path. After a slash there may be a pattern, which the message of a record
must match as well.

The directive with the longest fitting name decides about a record, and of two with names of the same
length the later. A directive for a name that already has one takes its place. What cannot be read is
reported and ignored, and if nothing is left, only errors are shown.
-/

namespace Jaf

/-- The rank of the last level that is shown, for a word in any case. -/
def LogLevel.lastRank? (word : String) : Option Nat :=
  match word.toLower with
  | "off" => some 0
  | "error" => some error.rank
  | "warn" => some warn.rank
  | "info" => some info.rank
  | "debug" => some debug.rank
  | "trace" => some trace.rank
  | _ => none

/-- Shows the records of a part of the program, or of all of it, up to the rank of a level. -/
structure LogDirective where
  part : Option String
  rank : Nat
deriving DecidableEq, Repr

namespace LogDirective

/-- Whether a directive is about records of an origin. -/
def covers (d : LogDirective) (origin : String) : Bool :=
  d.part.all fun p => p.toList.isPrefixOf origin.toList

/-- The length of the name of the part. -/
def reach (d : LogDirective) : Nat := (d.part.map (·.utf8ByteSize)).getD 0

/-- Adds a directive; one for the same part gives way to it. -/
def insert (d : LogDirective) (ds : List LogDirective) : List LogDirective :=
  if ds.any (·.part = d.part) then ds.map fun e => if e.part = d.part then d else e
  else ds ++ [d]

end LogDirective

/-- Why a piece of a filter is ignored. -/
inductive LogFilterError where
  | unknownLevel (word : String)
  | badDirective (written : String)
  | manySlashes (written : String)
  | badPattern (written : String) (m : Pattern.Misread)
deriving DecidableEq, Repr

namespace LogFilterError

/-- The wording of an error. -/
def message : LogFilterError → String
  | unknownLevel word => "invalid logging spec '" ++ word ++ "'"
  | badDirective written => "invalid logging spec '" ++ written ++ "'"
  | manySlashes written => "invalid logging spec '" ++ written ++ "' (too many '/'s)"
  | badPattern written m => "invalid regex filter - " ++ m.message written

/-- The line that reports an error. -/
def line (e : LogFilterError) : String := "warning: " ++ e.message ++ ", ignoring it\n"

end LogFilterError

/-- Reads a directive. -/
def LogDirective.read (written : List Char) : Except LogFilterError LogDirective :=
  match pieces '=' written with
  | [word] =>
    match LogLevel.lastRank? (String.ofList word) with
    | some rank => .ok ⟨none, rank⟩
    | none => .ok ⟨some (String.ofList word), LogLevel.trace.rank⟩
  | [part, word] =>
    let part := String.ofList part
    let word := String.ofList (trimWhiteSpace word)
    match LogLevel.lastRank? word with
    | some rank => .ok ⟨some part, rank⟩
    | none => if word = "" then .ok ⟨some part, LogLevel.trace.rank⟩ else .error (.unknownLevel word)
  | _ => .error (.badDirective (String.ofList written))

/-- Which log records are shown. -/
structure LogFilter where
  directives : List LogDirective
  pattern : Option Pattern
deriving DecidableEq, Repr

namespace LogFilter

/-- The records of all parts of the program up to a level. -/
def upTo (level : LogLevel) : LogFilter := ⟨[⟨none, level.rank⟩], none⟩

/-- The filter if none is asked for. -/
def byDefault (verbose : Bool) : LogFilter := upTo (if verbose then .debug else .warn)

/-- The directives among the pieces between commas, and the errors of the others. -/
def readDirectives : List (List Char) → List LogDirective → List LogDirective × List LogFilterError
  | [], ds => (ds, [])
  | piece :: rest, ds =>
    let written := trimWhiteSpace piece
    if written.isEmpty then readDirectives rest ds
    else match LogDirective.read written with
      | .ok d => readDirectives rest (d.insert ds)
      | .error e => let (ds, es) := readDirectives rest ds; (ds, e :: es)

/-- The pattern after a slash. -/
def readPattern (written : Option (List Char)) : Option Pattern × List LogFilterError :=
  match written with
  | none => (none, [])
  | some cs =>
    match Pattern.read (String.ofList cs) with
    | .ok p => (some p, [])
    | .error m => (none, [.badPattern (String.ofList cs) m])

/-- The filter that is written in a text, and the errors in it. -/
def ofText (text : String) : LogFilter × List LogFilterError :=
  match pieces '/' text.toList with
  | directives :: rest =>
    if rest.length > 1 then (upTo .error, [.manySlashes text])
    else
      let (ds, flawed) := readDirectives (pieces ',' directives) []
      let (p, misread) := readPattern rest.head?
      (⟨if ds.isEmpty then (upTo .error).directives else ds, p⟩, flawed ++ misread)
  | [] => (upTo .error, [])

/-- The directive that decides about records of an origin. -/
def directive? (f : LogFilter) (origin : String) : Option LogDirective :=
  f.directives.foldl
    (fun best d => if d.covers origin && best.all (·.reach ≤ d.reach) then some d else best) none

/-- Whether a record is shown. -/
def shows (f : LogFilter) (e : LogEvent) : Bool :=
  (f.directive? e.origin).any (e.level.rank ≤ ·.rank) && f.pattern.all (·.occursIn e.message)

end LogFilter

end Jaf
