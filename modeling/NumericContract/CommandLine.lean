import NumericContract.Json.Reader
import NumericContract.Report

/-!
# The command line

A run is given words, of which one names a file that holds a contract and the others are options,
and the values of environment variables. It ends with an exit status and text for both output
streams. Options may stand anywhere, long ones may be cut short as long as they stay
unambiguous, and short ones may be joined; after `--` every word is a file name.
-/

namespace NumericContract.CommandLine

open Decimal Text

/-! ## Words -/

inductive Switch where
  | help
  | rangesOnly
  | verbose
deriving Repr, DecidableEq

def longNames : List (String × Switch) :=
  [("--help", .help), ("--ranges-only", .rangesOnly), ("--verbose", .verbose)]

def shortSwitch? : Char → Option Switch
  | 'h' => some .help
  | 'v' => some .verbose
  | _ => none

/-- What a word stands for: a file or options, perhaps one that is not known. A word may also
give a value to an option, which takes none, join options that are not all known, or be short for
several options. -/
inductive Word where
  | file
  | options (given : List Switch)
  | unknown
  | misused
  | ambiguous
deriving Repr, DecidableEq

/-- Whether a word could be a negative number, which no option looks like. A line feed may end
it. -/
def looksNegative (body : List Char) : Bool :=
  let isDigit := fun c => (digitValue? c).isSome
  let body := if body.getLast? = some '\n' then body.dropLast else body
  match body.dropWhile isDigit with
  | [] => !body.isEmpty
  | '.' :: places => !places.isEmpty && places.all isDigit
  | _ => false

/-- A word that is no option that is known, though it starts like one. -/
def Word.other (word : List Char) : Word :=
  if looksNegative (word.drop 1) || word.contains ' ' then .file else .unknown

def Word.long (word : List Char) : Word :=
  let name := word.takeWhile (· ≠ '=')
  let hasValue := word.contains '='
  match longNames.filter fun (full, _) => name.isPrefixOf full.toList with
  | [] => .other word
  | [(_, switch)] => if hasValue then .misused else .options [switch]
  | _ => .ambiguous

/-- An option and the letters that are joined to it, all of which must be options too. -/
def Word.joined (first : Switch) (letters : List Char) : Word :=
  match letters.mapM shortSwitch? with
  | some rest => .options (first :: rest)
  | none => .misused

/-- Short options, perhaps joined. A `=` may follow the first letter if more letters follow it. -/
def Word.short (word : List Char) : Word :=
  match word.drop 1 with
  | [] => .file
  | letter :: rest =>
      match shortSwitch? letter, rest with
      | none, _ => .other word
      | some _, ['='] => .misused
      | some first, '=' :: letters => joined first letters
      | some first, letters => joined first letters

def Word.ofString (word : String) : Word :=
  match word.toList with
  | '-' :: '-' :: rest => .long ('-' :: '-' :: rest)
  | '-' :: rest => .short ('-' :: rest)
  | _ => .file

/-! ## Requests -/

inductive Request where
  | help
  | misuse
  | report (path : String) (rangesOnly : Bool)
deriving Repr, DecidableEq

/-- The words that have been read: file names, last one first, and options, and whether the last
of these words was a file name. -/
structure Request.Words where
  files : List String
  rangesOnly : Bool
  unknown : Bool
  endsInFile : Bool

namespace Request

/-- The request of words that have all been read: one file and nothing that is not known. -/
def ofWords (w : Words) : Request :=
  match w.files with
  | [path] => if w.unknown then .misuse else .report path w.rangesOnly
  | _ => .misuse

/-- Reads the words from left to right. Help and misuse end the reading. After `--` come file
names only; it may not stand apart from the only file name. -/
def read (w : Words) : List String → Request
  | [] => ofWords w
  | word :: rest =>
      if word = "--" then
        if w.files.isEmpty || w.endsInFile then
          ofWords { w with files := rest.reverse ++ w.files }
        else .misuse
      else
        match Word.ofString word with
        | .file => read { w with files := word :: w.files, endsInFile := true } rest
        | .misused | .ambiguous => .misuse
        | .unknown => read { w with unknown := true, endsInFile := false } rest
        | .options given =>
            if given.contains .help then .help
            else
              let rangesOnly := w.rangesOnly || given.contains .rangesOnly
              read { w with rangesOnly := rangesOnly, endsInFile := false } rest

/-- The request of all words. An ambiguous one is misuse wherever it stands. -/
def ofArguments (arguments : List String) : Request :=
  if (arguments.takeWhile (· ≠ "--")).any (Word.ofString · = .ambiguous) then .misuse
  else read ⟨[], false, false, false⟩ arguments

end Request

/-! ## Runs -/

structure Answer where
  exit : UInt32
  output : String
  error : String
deriving Repr, DecidableEq

def usage : String :=
  "usage: numeric-contract [-h] [--ranges-only] [--verbose] contract"

def helpText : String :=
  usage ++ "\n\nCompute CET payout groups for a contract\n\n" ++
    "positional arguments:\n  contract        Contract descriptor JSON file\n\n" ++
    "options:\n  -h, --help      show this help message and exit\n" ++
    "  --ranges-only   Only print payout ranges, skip digit-prefix grouping\n" ++
    "  --verbose, -v   Verbose output\n"

/-! ### Contracts in files -/

/-- Why a file gives no contract: it cannot be read, its text is not JSON, or the value has issues. -/
inductive LoadFault where
  | unreadable
  | malformed
  | invalid (notices : List Notice)
deriving Repr, DecidableEq

/-- Reads a contract. An integer that is too long to be read and arithmetic without a result are
failures, which no run answers. -/
def load (ctx : Context) (text : String) : Except Failure (Except LoadFault Contract) :=
  match Json.ofText text with
  | .error .malformed => .ok (.error .malformed)
  | .error (.tooManyDigits count) => .error (.value (.tooManyDigits count))
  | .ok v =>
      match Contract.ofJson ctx v with
      | .valid c => .ok (.ok c)
      | .invalid issues => .ok (.error (.invalid (issues.map Issue.notice)))
      | .failed failure => .error failure

abbrev Wording := LoadFault → String

def refusal (wording : Wording) (path : String) (fault : LoadFault) : Answer :=
  ⟨1, "", "Error: cannot load contract " ++ path ++ ": " ++ wording fault⟩

def LoadFault.text : Wording
  | .unreadable => "the file cannot be read"
  | .malformed => "the text is not JSON"
  | .invalid notices => "\n".intercalate (notices.map Notice.text)

/-! ### Answers -/

def precisionVariable : String := "DLC_ENGINE_DECIMAL_PRECISION"

def scanStepsVariable : String := "DLC_ENGINE_MAX_SCAN_STEPS"

def settings (environment : String → Option String) : Except Failure Settings :=
  Settings.ofTexts (environment precisionVariable) (environment scanStepsVariable)

/-- An engine failure ends a run in order; any other failure is none of its answers. -/
def answerOf (result : Except Failure Report) : Except Failure Answer :=
  match result with
  | .ok report => .ok ⟨0, report.text, ""⟩
  | .error failure =>
      match failure.family? with
      | some family => .ok ⟨1, "", "Error: " ++ family ++ ": " ++ failure.message⟩
      | none => .error failure

/-- Reports on the contract in a file, whose text is absent if the file cannot be read. -/
def report (ctx : Context) (wording : Wording) (path : String) (rangesOnly : Bool)
    (text? : Option String) (environment : String → Option String) : Except Failure Answer := do
  let loaded ← match text? with
    | some text => load ctx text
    | none => pure (.error .unreadable)
  match loaded with
  | .error fault => return refusal wording path fault
  | .ok c => answerOf (Report.ofContract ctx c (← settings environment) rangesOnly)

/-- Answers a request; `text?` is the text of the file that it names. -/
def Request.answer (request : Request) (ctx : Context) (wording : Wording) (text? : Option String)
    (environment : String → Option String) : Except Failure Answer :=
  match request with
  | .help => .ok ⟨0, helpText, ""⟩
  | .misuse => .ok ⟨2, "", usage⟩
  | .report path rangesOnly => CommandLine.report ctx wording path rangesOnly text? environment

end NumericContract.CommandLine
