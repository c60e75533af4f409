import Kernelwright.Request.Basic
import Kernelwright.Request.Cache
import Kernelwright.Text.Replace

/-!
# Offloading

A request is compiled once for all devices; after that its kernels come from the cache. The kernels
of the devices differ in one place: the offset at which a device starts in a sequence.
-/

namespace Kernelwright

/-- The text of the offset of a device. A sequence is split in two halves when there are several
devices, and only the first device starts at the beginning. -/
def deviceOffset (device devices : Nat) (total : Option Nat) : String :=
  if devices ≤ 1 ∨ device = 0 then "" else " + " ++ toString (total.getD 0 / 2)

def DeviceKernel.ofKernel (k : Lowering.Kernel) (devices : Nat) (total : Option Nat)
    (device : Nat) : DeviceKernel where
  device := device
  name := k.name
  source := Text.replace k.source Code.offsetDevice (deviceOffset device devices total)

/-- A compiled request. -/
structure Compiled where
  id : String
  kernels : List DeviceKernel
  /-- The findings; none are repeated for kernels from the cache. -/
  diagnostics : List Diagnostic
  /-- The extra arrays; none are repeated for kernels from the cache. -/
  extra : Code.ExtraArrays
  /-- Whether the kernels come from the cache. -/
  cached : Bool
deriving Repr

/-- A compiler of requests with its cache. -/
structure Offload where
  options : Options
  cache : KernelCache
deriving Repr

namespace Offload

/-- A compiler that has compiled nothing yet. -/
def start (options : Options) : Offload := ⟨options, .empty⟩

/-- The number of devices, which is at least one. -/
def devices (o : Offload) : Nat := max o.options.devices.toNat 1

/-- The kernels of a request, newly generated, and what was reported on the way. -/
def generate (o : Offload) (r : Request) :
    Except KernelError (List DeviceKernel × Lowering.Session) :=
  match r.generate (.start o.options) with
  | .error e => .error e
  | .ok (k, s) =>
    .ok ((List.range o.devices).map (.ofKernel k o.devices (r.totalSize.map UInt64.toNat)), s)

/-- Compile a request for all devices. The compiler is also there after a request that is
refused. -/
def compile (o : Offload) (r : Request) : Except KernelError Compiled × Offload :=
  match o.cache.getAll? r.identity o.devices with
  | some kernels => (.ok ⟨r.identity, kernels, [], .empty, true⟩, o)
  | none =>
    match o.generate r with
    | .error e => (.error e, o)
    | .ok (kernels, s) =>
      (.ok ⟨r.identity, kernels, s.diagnostics, s.extra, false⟩,
        { o with cache := o.cache.commit r.identity kernels })

end Offload

end Kernelwright
