import EntityFlow.Codec.Diagnostic
import EntityFlow.Codec.Graph
import EntityFlow.Json.Printer
import EntityFlow.Publish

/-! # The command line

Commands read graphs through a store and answer with an exit code and what they print: 0 for
success, 1 for errors in a graph, 2 for a graph that cannot be compiled, 3 for files. -/

namespace EntityFlow

inductive Command where
  | compile (graph : String) (output : Option String) (options : Options)
  | check (graph : String)
  | batch (graphs : List String) (folder : String) (options : Options)
deriving DecidableEq, Repr, Inhabited

structure Outcome where
  exit : Nat
  stdout : String := ""
  stderr : List String := []
deriving DecidableEq, Repr, Inhabited

/-! ## Arguments -/

/-- Options and operands as given. -/
structure Arguments where
  options : List (String × String) := []
  operands : List String := []
deriving DecidableEq, Repr, Inhabited

namespace Arguments

/-- Add an option; none may be given twice. -/
def addOption (a : Arguments) (name value : String) : Option Arguments :=
  if (a.options.lookup name).isSome then none
  else some { a with options := a.options ++ [(name, value)] }

/-- Add an option with its value, which may not be empty. -/
def addValue (a : Arguments) (name value : String) : Option Arguments :=
  if value.isEmpty then none else a.addOption name value

def addOperand (a : Arguments) (operand : String) : Option Arguments :=
  if operand.isEmpty then none else some { a with operands := a.operands ++ [operand] }

/-- Whether an option was given. -/
def has (a : Arguments) (name : String) : Bool := (a.options.lookup name).isSome

/-- The value of an option. -/
def value? (a : Arguments) (name : String) : Option String := a.options.lookup name

end Arguments

/-- The options a command knows: those that stand alone, those with a value, and the one-letter
names of the latter. -/
structure OptionNames where
  flags : List String := []
  valued : List String := []
  letters : List (Char × String) := []
deriving DecidableEq, Repr, Inhabited

/-- Text before and after the first equals sign. -/
def splitAtEquals (cs : List Char) : String × Option String :=
  (String.ofList (cs.takeWhile (· ≠ '=')),
    ((cs.dropWhile (· ≠ '=')).tail?).map String.ofList)

/-- Arguments that begin an option; a lone dash is a value. -/
def looksLikeOption (arg : String) : Bool := arg.startsWith "-" && arg ≠ "-"

/-- What a single argument says. -/
inductive Reading where
  | operand
  | flag (name : String)
  | valued (name value : String)
  /-- The value is the next argument. -/
  | pending (name : String)
  /-- Everything after it is an operand. -/
  | endOfOptions
  | unknown
deriving DecidableEq, Repr, Inhabited

namespace OptionNames

def readLong (names : OptionNames) (text : List Char) : Reading :=
  let (name, value) := splitAtEquals text
  if names.flags.contains name then
    match value with
    | none => .flag name
    | some _ => .unknown
  else if names.valued.contains name then
    match value with
    | none => .pending name
    | some value => .valued name value
  else .unknown

def readShort (names : OptionNames) (letter : Char) (text : List Char) : Reading :=
  match names.letters.lookup letter, text with
  | none, _ => .unknown
  | some name, [] => .pending name
  | some name, '=' :: value => .valued name (String.ofList value)
  | some name, value => .valued name (String.ofList value)

def read (names : OptionNames) (arg : String) : Reading :=
  match arg.toList with
  | ['-', '-'] => .endOfOptions
  | '-' :: '-' :: text => names.readLong text
  | '-' :: letter :: text => names.readShort letter text
  | _ => .operand

/-- Read arguments in order. -/
def scan (names : OptionNames) (a : Arguments) : List String → Option Arguments
  | [] => some a
  | arg :: rest =>
      match names.read arg with
      | .operand => (a.addOperand arg).bind fun a => scan names a rest
      | .flag name => (a.addOption name "").bind fun a => scan names a rest
      | .valued name value => (a.addValue name value).bind fun a => scan names a rest
      | .pending name =>
          match rest with
          | [] => none
          | value :: rest =>
              if looksLikeOption value then none
              else (a.addValue name value).bind fun a => scan names a rest
      | .endOfOptions => rest.foldlM Arguments.addOperand a
      | .unknown => none

end OptionNames

/-- A natural number below 2^64, with or without a plus sign. -/
def readCount? (text : String) : Option Nat :=
  let digits := match text.toList with
    | '+' :: rest => rest
    | cs => cs
  if digits.isEmpty || !digits.all Char.isDigit then none
  else
    let n := digits.foldl (fun n c => 10 * n + (c.toNat - '0'.toNat)) 0
    if n < 0x1_0000_0000_0000_0000 then some n else none

namespace Arguments

/-- The options of a compilation. -/
def compileOptions? (a : Arguments) : Option Options := do
  let indent ← match a.value? "indent" with
    | some text => readCount? text
    | none => some 4
  return {
    debugScript := a.has "debug-script"
    traceability := !a.has "no-traceability"
    indent
    denyErrors := a.has "deny-errors" }

end Arguments

namespace Command

def compileFlags : List String := ["debug-script", "no-traceability", "deny-errors"]

def parse? : List String → Option Command
  | "compile" :: args => do
      let names : OptionNames :=
        { flags := compileFlags, valued := ["indent", "output"], letters := [('o', "output")] }
      let a ← names.scan {} args
      match a.operands with
      | [graph] => return .compile graph (a.value? "output") (← a.compileOptions?)
      | _ => none
  | "check" :: args => do
      let a ← OptionNames.scan {} {} args
      match a.operands with
      | [graph] => return .check graph
      | _ => none
  | "batch" :: args => do
      let names : OptionNames := { flags := compileFlags, valued := ["indent", "out-dir"] }
      let a ← names.scan {} args
      if a.operands.isEmpty then none
      else return .batch a.operands ((a.value? "out-dir").getD "./Generated") (← a.compileOptions?)
  | _ => none

/-! ## Running -/

section Run

variable {m : Type → Type} [Monad m] (store : Store m)

/-- A graph from a file, or what to say when there is none. -/
def load (path : String) : m (Except String Graph) := do
  match ← store.read path with
  | none => return .error ("Error: failed to read '" ++ path ++ "'")
  | some text =>
      match Graph.parse? text with
      | none => return .error ("Error: failed to parse '" ++ path ++ "'")
      | some g => return .ok g

def diagnosticLines (ds : List Diagnostic) : List String := ds.map fun d => "  - " ++ d.render

/-- What a failed compilation says, with its exit code. -/
def failure : CompileError → Outcome
  | .analysisFailed ds =>
      { exit := 1
        stderr := ("Analysis failed with " ++ toString ds.length ++ " diagnostic(s):")
          :: diagnosticLines ds }
  | .ioFailure => { exit := 3, stderr := ["I/O error"] }
  | e => { exit := 2, stderr := ["Compilation error: " ++ e.message] }

def errorLines (u : CompiledUnit) : List String :=
  (u.name ++ " reported errors:") :: diagnosticLines u.diagnostics

def runCompile (path : String) (output : Option String) (options : Options) : m Outcome := do
  match ← load store path with
  | .error message => return { exit := 3, stderr := [message] }
  | .ok g =>
      match g.compile options with
      | .error e => return failure e
      | .ok u => do
          let stdout := if output.isSome then "" else u.source
          if let some path := output then
            if !(← store.write path u.source) then
              return { exit := 3, stderr := ["Error: failed to write '" ++ path ++ "'"] }
          if Diagnostic.hasErrors u.diagnostics then
            return { exit := 1, stdout, stderr := errorLines u }
          else return { exit := 0, stdout, stderr := diagnosticLines u.diagnostics }

def runCheck (path : String) : m Outcome := do
  match ← load store path with
  | .error message => return { exit := 3, stderr := [message] }
  | .ok g =>
      let found := g.check
      return {
        exit := if Diagnostic.hasErrors found then 1 else 0
        stdout := (Json.list Diagnostic.toJson found).pretty ++ "\n" }

/-- Compile a graph of a batch and write its unit. -/
def runUnit (folder : String) (options : Options) (g : Graph) : m Outcome := do
  match g.compile options with
  | .error e => return failure e
  | .ok u => do
      match ← u.publish store folder with
      | .error e => return failure e
      | .ok _ =>
          if Diagnostic.hasErrors u.diagnostics then return { exit := 1, stderr := errorLines u }
          else return { exit := 0 }

/-- One outcome after the other; the worst exit code counts. -/
def combine (outcomes : List Outcome) : Outcome where
  exit := outcomes.foldl (fun worst o => max worst o.exit) 0
  stdout := String.join (outcomes.map Outcome.stdout)
  stderr := outcomes.flatMap Outcome.stderr

/-- Every graph is read before the first one is compiled. -/
def runBatch (paths : List String) (folder : String) (options : Options) : m Outcome := do
  let loaded ← paths.mapM (load store)
  let unread := loaded.filterMap fun
    | .error message => some { exit := 3, stderr := [message] }
    | .ok _ => none
  let graphs := loaded.filterMap Except.toOption
  return combine (unread ++ (← graphs.mapM (runUnit store folder options)))

def run : Command → m Outcome
  | .compile graph output options => runCompile store graph output options
  | .check graph => runCheck store graph
  | .batch graphs folder options => runBatch store graphs folder options

end Run

end Command

end EntityFlow
