import Kernelwright.Bounded
import Kernelwright.FileTree

/-!
# Commands

The commands of the program: generate the kernels of a request, show the declarations of a type, and
run one of the samples on the host. A command writes to two streams and ends with an exit code.
-/

namespace Kernelwright

/-- The samples that can be run. -/
inductive Demo where
  | mapMul
  | mapDouble
  | reduce
deriving DecidableEq, Repr

def Demo.ofName? : String → Option Demo
  | "map-mul" => some mapMul
  | "map-double" => some mapDouble
  | "reduce" => some reduce
  | _ => none

/-- The commands. -/
inductive Command where
  /-- Generate the kernels of the request in a file. -/
  | kernel (path : String)
  | parseType (grammar : String)
  | demo (which : Demo) (size : Nat)
deriving DecidableEq, Repr

/-- A command with the flags that hold for all commands. -/
structure CommandLine where
  command : Command
  noSoa : Bool
  noGuards : Bool
  comments : Bool
  verbose : Bool
  devices : Option UInt64
deriving DecidableEq, Repr

/-! ### Reading arguments -/

/-- What was read of the arguments so far. -/
structure Arguments where
  noSoa : Bool := false
  noGuards : Bool := false
  comments : Bool := false
  verbose : Bool := false
  devices : Option UInt64 := none
  size : Option UInt64 := none
  /-- Whether all further arguments stand for themselves. -/
  literal : Bool := false
  /-- The arguments that are no flags. -/
  words : List String := []
deriving DecidableEq, Repr

namespace Arguments

def looksLikeFlag (s : String) : Bool :=
  match s.toList with
  | '-' :: _ :: _ => true
  | _ => false

/-- The value of an argument `flag=value`. -/
def valueOf? (flag s : String) : Option String :=
  let start := (flag ++ "=").toList
  if start.isPrefixOf s.toList then some (String.ofList (s.toList.drop start.length)) else none

def readDevices? (a : Arguments) (s : String) : Option Arguments :=
  (Options.parseWord? s).map fun n => { a with devices := some n }

def readSize? (a : Arguments) (s : String) : Option Arguments :=
  (Options.parseWord? s).map fun n => { a with size := some n }

def readOne? (a : Arguments) (s : String) : Option Arguments :=
  if a.literal then some { a with words := a.words ++ [s] }
  else match s with
    | "--no-soa" => some { a with noSoa := true }
    | "--no-guards" => some { a with noGuards := true }
    | "--comments" => some { a with comments := true }
    | "--verbose" => some { a with verbose := true }
    | "--" => some { a with literal := true }
    | s =>
      match valueOf? "--devices" s, valueOf? "--size" s with
      | some v, _ => a.readDevices? v
      | none, some v => a.readSize? v
      | none, none => if looksLikeFlag s then none else some { a with words := a.words ++ [s] }

/-- Read all arguments. Flags may stand anywhere. -/
def read? (a : Arguments) : List String → Option Arguments
  | [] => some a
  | [s] => a.readOne? s
  | s :: t :: rest =>
    if a.literal = false ∧ s = "--devices" then
      match a.readDevices? t with
      | some a => a.read? rest
      | none => none
    else if a.literal = false ∧ s = "--size" then
      match a.readSize? t with
      | some a => a.read? rest
      | none => none
    else
      match a.readOne? s with
      | some a => a.read? (t :: rest)
      | none => none

/-- The number of elements of a sample where none is given. -/
def defaultSize : UInt64 := 10

def command? (a : Arguments) : Option Command :=
  match a.words, a.size with
  | ["kernel", path], none => some (.kernel path)
  | ["parse-type", grammar], none => some (.parseType grammar)
  | ["demo", which], size =>
    (Demo.ofName? which).map fun which => .demo which (size.getD defaultSize).toNat
  | _, _ => none

end Arguments

namespace CommandLine

def parse? (args : List String) : Option CommandLine := do
  let a ← Arguments.read? {} args
  let c ← a.command?
  return ⟨c, a.noSoa, a.noGuards, a.comments, a.verbose, a.devices⟩

/-- The options of a command line, where flags go before settings. -/
def options (c : CommandLine) (lookup : String → Option String) : Options :=
  let o := Options.ofLookup lookup
  { o with
    soa := o.soa && !c.noSoa
    guards := o.guards && !c.noGuards
    comments := o.comments || c.comments
    devices := (c.devices.map fun n => max n 1).getD o.devices }

end CommandLine

/-! ### Running commands -/

/-- What a command has written. -/
structure Output where
  out : String
  err : String
deriving DecidableEq, Repr, Inhabited

/-- A command at work; an exception is an exit code, and what was written before it stays. -/
abbrev Script := ExceptT UInt8 (StateM Output)

namespace Script

/-- Write to the first stream. -/
def print (s : String) : Script PUnit := modify fun o => { o with out := o.out ++ s }

/-- Write a line to the second stream. -/
def report (s : String) : Script PUnit :=
  modify fun o => { o with err := o.err ++ "marawacc: " ++ s ++ "\n" }

/-- Report an error and exit. -/
def die (code : UInt8) (message : String) : Script α := do
  report message
  throw code

/-- Exit because there is no room in memory for what was asked. -/
def dieOfRoom : Script α := die 101 "error: capacity overflow"

/-- The hint for a request that has no kernel. -/
def hostHint : String := "run the computation on the host evaluator instead"

/-- Compile a request, or exit. -/
def compile (o : Offload) (r : Request) (verbose : Bool) : Script (Compiled × Offload) := do
  match Bounded.compile o r with
  | .ok (c, o) =>
    if verbose then
      report ("request " ++ c.id ++ " (" ++ toString c.kernels.length ++ " device kernel(s)"
        ++ (if c.cached then ", cached" else "") ++ ")")
      c.diagnostics.forM fun d => report d.text
    return (c, o)
  | .error .noRoom => dieOfRoom
  | .error (.refused e) =>
    let d : Diagnostic := ⟨some .generationFailed, .error, none, e.message, some hostHint⟩
    die 1 d.text

/-- The text of compiled kernels; several are told apart by their devices. -/
def kernelsText (c : Compiled) : String :=
  String.join (c.kernels.map fun k =>
    (if c.kernels.length > 1 then "// device " ++ toString k.device ++ "\n" else "") ++ k.source)

def printKernels (o : Offload) (r : Request) (verbose : Bool) : Script Offload := do
  let (c, o) ← compile o r verbose
  print (kernelsText c)
  return o

def kernel (path : String) (file : Except FileError String) (options : Options) (verbose : Bool) :
    Script PUnit := do
  match file with
  | .error e => die 2 ("error: " ++ path ++ ": " ++ e.message)
  | .ok text =>
    match Request.parse? text with
    | none => die 2 ("error: " ++ path ++ ": invalid kernel request: no request in JSON")
    | some r =>
      let _ ← printKernels (.start options) r verbose

/-- Show a type and the structs that it needs. -/
def parseType (grammar : String) : Script PUnit := do
  match ElementType.parse grammar with
  | .error (.noRoom _) => dieOfRoom
  | .error e => die 2 ("error: " ++ e.message)
  | .ok t =>
    print (t.text ++ "\n")
    let structs := Code.Structs.empty.register t
    if structs.types.isEmpty then print "(no struct declaration needed)\n"
    else print structs.text

/-- A result of the host, or an exit. -/
def ofHost (r : Except HostError α) : Script α :=
  match r with
  | .ok a => return a
  | .error e => die 1 ("error: " ++ e.message)

/-- The result of a computation for an input. -/
def onHost (input : Except (Limited ArrayError) PortableArray)
    (result : PortableArray → Except HostError PortableArray) : Script PortableArray :=
  match input with
  | .ok a => ofHost (result a)
  | .error .noRoom => dieOfRoom
  | .error (.refused e) => ofHost (.error (.array e))

/-- Generate the kernels of a sample and run it on the host. -/
def demo (which : Demo) (size : Nat) (options : Options) (verbose : Bool) : Script PUnit := do
  let o := Offload.start options
  let result ← match which with
    | .mapMul => do
      let _ ← printKernels o Sample.mapMul verbose
      onHost (Bounded.pairs size) Sample.products
    | .mapDouble => do
      let _ ← printKernels o Sample.mapDouble verbose
      onHost (Bounded.unbounded (Sample.integers size)) Sample.doubles
    | .reduce => do
      let o ← printKernels o Sample.mapMul verbose
      let _ ← printKernels o Sample.reduceSum verbose
      onHost (Bounded.pairs size) Sample.sumOfProducts
  let values := result.toList?.getD []
  print ("// host result: [" ++ ", ".intercalate (values.map Value.text) ++ "]\n")

end Script

namespace CommandLine

/-- The command as a script; `file` is the content of the file that it names. -/
def script (c : CommandLine) (lookup : String → Option String) (file : Except FileError String) :
    Script PUnit := do
  let o := c.options lookup
  if c.verbose then
    Script.report ("soa = " ++ toString o.soa ++ ", guards = " ++ toString o.guards
      ++ ", devices = " ++ toString o.devices.toNat)
  match c.command with
  | .kernel path => Script.kernel path file o c.verbose
  | .parseType grammar => Script.parseType grammar
  | .demo which size => Script.demo which size o c.verbose

/-- Run a command: its exit code and what it writes. -/
def run (c : CommandLine) (lookup : String → Option String) (file : Except FileError String) :
    UInt8 × Output :=
  match (c.script lookup file).run ⟨"", ""⟩ with
  | (.ok _, o) => (0, o)
  | (.error code, o) => (code, o)

def file? (c : CommandLine) : Option String :=
  match c.command with
  | .kernel path => some path
  | _ => none

end CommandLine

end Kernelwright
