import Kernelwright.Json.Decode
import Kernelwright.Text.Blank

/-!
# Options

What a caller chooses about generated kernels. Options come from a lookup of settings by name, where
a setting that cannot be read keeps the default, or from JSON.
-/

namespace Kernelwright

/-- What a caller chooses about generated kernels. -/
structure Options where
  /-- Pass an array of tuples as one array a field. -/
  soa : Bool
  /-- Write guards, and pass the flag that they raise. -/
  guards : Bool
  /-- Write a comment for each visited node. -/
  comments : Bool
  /-- The number of devices that share the input. -/
  devices : UInt64
  /-- Report the finished kernel. -/
  printKernel : Bool
deriving DecidableEq, Repr

namespace Options

def default : Options := ⟨true, true, false, 1, false⟩

instance : Inhabited Options := ⟨default⟩

/-! ### Settings -/

/-- The setting of `soa`. -/
def soaSetting : String := "MARAWACC_SOA"

/-- The setting of `guards`. -/
def guardsSetting : String := "MARAWACC_GUARDS"

/-- The setting of `comments`. -/
def commentsSetting : String := "MARAWACC_DEBUG_KERNEL"

/-- The setting of `devices`. -/
def devicesSetting : String := "MARAWACC_DEVICES"

/-- The setting of `printKernel`. -/
def printKernelSetting : String := "MARAWACC_PRINT_KERNEL"

/-- A truth value in one of its spellings, in any case and with blanks around it. -/
def parseBool? (raw : String) : Option Bool :=
  let word := (Text.trim raw).map Char.toLower
  if word = "1" ∨ word = "true" ∨ word = "on" then some true
  else if word = "0" ∨ word = "false" ∨ word = "off" then some false
  else none

/-- A natural number of sixty-four bits in decimal digits, perhaps after a plus sign. -/
def parseWord? (raw : String) : Option UInt64 :=
  let digits := match raw.toList with
    | '+' :: ds => ds
    | ds => ds
  if digits.isEmpty ∨ ¬ digits.all Json.isDigit then none
  else
    let n := digits.foldl (fun n d => 10 * n + Json.digitValue d) 0
    if n < UInt64.size then some (UInt64.ofNat n) else none

/-- A number of devices, which is positive. -/
def parseDevices? (raw : String) : Option UInt64 :=
  (parseWord? (Text.trim raw)).filter (0 < ·)

def ofLookup (lookup : String → Option String) : Options :=
  let bool (setting : String) (value : Bool) := ((lookup setting).bind parseBool?).getD value
  { soa := bool soaSetting default.soa
    guards := bool guardsSetting default.guards
    comments := bool commentsSetting default.comments
    devices := ((lookup devicesSetting).bind parseDevices?).getD default.devices
    printKernel := bool printKernelSetting default.printKernel }

/-! ### JSON -/

/-- Read options; what is missing keeps its default. -/
def ofJson : Decode Options :=
  .record ["soa", "deopt_guards", "comments", "devices", "print_kernel"] fun room fs => do
    return {
      soa := ← fs.withDefault "soa" default.soa .bool room
      guards := ← fs.withDefault "deopt_guards" default.guards .bool room
      comments := ← fs.withDefault "comments" default.comments .bool room
      devices := ← fs.withDefault "devices" default.devices .uint64 room
      printKernel := ← fs.withDefault "print_kernel" default.printKernel .bool room }

end Options

end Kernelwright
