import Kernelwright.Graph.Builder
import Kernelwright.Graph.Printer
import Kernelwright.Main
import Kernelwright.Proofs.Element.RoundTrip
import Kernelwright.Proofs.PortableArray.Buffers
import Kernelwright.Proofs.Lowering.Returns
import Kernelwright.Proofs.Lowering.BackEdges
import Kernelwright.Proofs.Request.Cache
import Kernelwright.Proofs.Graph.Inference
import Kernelwright.Proofs.Host.Termination
import Kernelwright.Proofs.Lowering.Scoping
import Kernelwright.Proofs.Request.Identity
import Kernelwright.Proofs.Lowering.EncodedInput
import Kernelwright.Proofs.Lowering.ReduceKernel
import Kernelwright.Proofs.Lowering.Arguments
import Kernelwright.Proofs.Lowering.Balance
import Kernelwright.Proofs.PortableArray.Encoding
import Kernelwright.Proofs.Host.Sharding
import Kernelwright.Proofs.Host.ResultKinds
import Kernelwright.Proofs.Host.TwosComplement
import Kernelwright.Proofs.Host.CallResults
import Kernelwright.Proofs.Code.Registration
import Kernelwright.Proofs.PortableArray.Chunks
import Kernelwright.Proofs.Lowering.LoopUpdates
import Kernelwright.Proofs.Code.Scopes
import Kernelwright.Proofs.Lowering.Operators
import Kernelwright.Proofs.Host.FieldStores
