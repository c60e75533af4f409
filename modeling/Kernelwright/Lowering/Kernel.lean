import Kernelwright.Lowering.Bundle

/-!
# Kernels

A kernel is a skeleton lowered together with the lambda that it drives. The text of a kernel
declares the structs, defines the functions and ends with the kernel itself. Kernels of one session
share the declared structs.
-/

namespace Kernelwright.Lowering

open Code

/-- What a kernel is generated from. -/
structure KernelInput where
  skeleton : Graph
  lambda : Graph
  nested : List Graph
  computation : Computation
  input : ElementType
  output : ElementType
  /-- The layout of the input, where that is a sequence. -/
  sequence : Option SequenceLayout
deriving DecidableEq, Repr

/-- A generated kernel. Its text still has the placeholder for the offset of a device. -/
structure Kernel where
  name : String
  source : String
deriving DecidableEq, Repr

/-- What the kernels of a session share. -/
structure Session where
  options : Options
  structs : Structs
  /-- The extra arrays of the latest kernel. -/
  extra : ExtraArrays
  diagnostics : List Diagnostic
deriving DecidableEq, Repr

def Session.start (options : Options) : Session := ⟨options, .empty, .empty, []⟩

namespace KernelInput

/-- Check the graphs and the types. -/
def validate (k : KernelInput) : Except KernelError Unit := do
  k.skeleton.validate
  k.lambda.validate
  k.nested.forM Graph.validate
  k.input.validate.mapError .type
  k.output.validate.mapError .type

def lambdas (k : KernelInput) : List Graph := k.lambda :: k.nested

def opening (k : KernelInput) (guards : Bool) : List Stmt :=
  (if k.computation = .map then [.globalSize] else []) ++ (if guards then [.clearFlag] else [])

/-- The lowered kernel: its function, what it needs, and its extra arrays. -/
def lower (k : KernelInput) (options : Options) :
    Except KernelError (Function × Bundle × ExtraArrays) := do
  let structs := (Structs.empty.register k.input).register k.output
  let s ← Signature.ofKernel k.skeleton k.lambda k.computation structs options.soa options.guards
  let site := s.site k.skeleton (.kernel k.computation k.sequence) options.guards
  let function :=
    functionFor k.lambdas [] (lowerBundle k.lambdas options.guards (callDepth k.lambdas))
  let (_, p) ← (lowerBody site k.lambdas function s.dimensions (k.opening options.guards)).run
    (.start s.symbols s.structs)
  let kernel : Function := ⟨.kernel (Skeleton.kernelName k.skeleton), s.parameters, p.body⟩
  return (kernel, ⟨p.functions, p.structs, p.diagnostics⟩, s.extra)

end KernelInput

/-- The line that asks for double precision. -/
def pragmas : String := "#pragma OPENCL EXTENSION cl_khr_fp64 : enable\n"

def source (structs : Structs) (functions : List Function) (kernel : Function) (comments : Bool) :
    String :=
  pragmas ++ "\n"
    ++ (if structs.types.isEmpty then "" else structs.text ++ "\n")
    ++ String.join (functions.map fun f => f.text comments ++ "\n")
    ++ kernel.text comments

def generate (k : KernelInput) (session : Session) : Except KernelError (Kernel × Session) := do
  k.validate
  let (kernel, b, extra) ← k.lower session.options
  let structs := session.structs.merge b.structs
  let kernel := ⟨kernel.name, source structs b.functions kernel session.options.comments⟩
  return (kernel, { session with
    structs := structs
    extra := extra
    diagnostics := session.diagnostics ++ b.diagnostics })

end Kernelwright.Lowering
