/-!
# The kernel cache

Kernels by the identity of their request and the device that they are for. A kernel that is stored
again replaces the one that was there.
-/

namespace Kernelwright

/-- A kernel for a device. -/
structure DeviceKernel where
  device : Nat
  name : String
  source : String
deriving DecidableEq, Repr

/-- An entry of the cache. -/
structure CacheEntry where
  id : String
  kernel : DeviceKernel
deriving DecidableEq, Repr

/-- The kernel cache. -/
structure KernelCache where
  entries : List CacheEntry
deriving DecidableEq, Repr, Inhabited

namespace KernelCache

def empty : KernelCache := ⟨[]⟩

def isFor (id : String) (device : Nat) (e : CacheEntry) : Bool :=
  e.id == id && e.kernel.device == device

def get? (c : KernelCache) (id : String) (device : Nat) : Option DeviceKernel :=
  (c.entries.find? (isFor id device)).map (·.kernel)

/-- The kernels of a request for a number of devices, from a device on. -/
def getFrom? (c : KernelCache) (id : String) : Nat → Nat → Option (List DeviceKernel)
  | _, 0 => some []
  | device, count + 1 =>
    match c.get? id device with
    | none => none
    | some k =>
      match c.getFrom? id (device + 1) count with
      | none => none
      | some ks => some (k :: ks)

/-- The kernels of a request for all devices; `none` unless every one of them is there. -/
def getAll? (c : KernelCache) (id : String) (devices : Nat) : Option (List DeviceKernel) :=
  c.getFrom? id 0 devices

def insert (c : KernelCache) (id : String) (k : DeviceKernel) : KernelCache :=
  ⟨⟨id, k⟩ :: c.entries.filter fun e => !isFor id k.device e⟩

def commit (c : KernelCache) (id : String) (kernels : List DeviceKernel) : KernelCache :=
  kernels.foldl (fun c k => c.insert id k) c

def size (c : KernelCache) : Nat := c.entries.length

end KernelCache

end Kernelwright
