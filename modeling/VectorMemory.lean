import VectorMemory.AddressIndex
import VectorMemory.Architecture
import VectorMemory.Binary.Format
import VectorMemory.Binary.Shortest
import VectorMemory.Bytes
import VectorMemory.Codec.Basic
import VectorMemory.Codec.Document
import VectorMemory.Codec.Manifest
import VectorMemory.Codec.Memory
import VectorMemory.Compile
import VectorMemory.Config
import VectorMemory.Constants.Blob
import VectorMemory.Constants.Staging
import VectorMemory.Constants.Tally
import VectorMemory.Digest.Basic
import VectorMemory.Digest.Blake3
import VectorMemory.Extent
import VectorMemory.FreePool
import VectorMemory.InputError
import VectorMemory.Json.Number
import VectorMemory.Json.Printer
import VectorMemory.Json.Reader
import VectorMemory.Json.Value
import VectorMemory.Manifest
import VectorMemory.MemoryError
import VectorMemory.NameSet
import VectorMemory.Object
import VectorMemory.Outcome
import VectorMemory.Planner.Basic
import VectorMemory.Planner.Script
import VectorMemory.Region
import VectorMemory.Registry.Basic
import VectorMemory.Registry.Blend
import VectorMemory.Registry.Sweep
import VectorMemory.Space
import VectorMemory.Span
import VectorMemory.Tensor
import VectorMemory.Trace
import VectorMemory.Usage
import VectorMemory.Uuid
import VectorMemory.Word
import VectorMemory.Proofs.Outcome
import VectorMemory.Proofs.Span
import VectorMemory.Proofs.Gaps
import VectorMemory.Proofs.FreePool
import VectorMemory.Proofs.Space
import VectorMemory.Proofs.AddressIndex
import VectorMemory.Proofs.Registry
import VectorMemory.Proofs.Dropping
import VectorMemory.Proofs.Operations
import VectorMemory.Proofs.Lookup
import VectorMemory.Proofs.Memory
import VectorMemory.Proofs.Moves
import VectorMemory.Proofs.Nearest
import VectorMemory.Proofs.Steps
import VectorMemory.Proofs.Commands
import VectorMemory.Proofs.Ownership
import VectorMemory.Proofs.Conservation
import VectorMemory.Proofs.LiveViews
import VectorMemory.Proofs.Outputs
import VectorMemory.Proofs.Pinned
import VectorMemory.Proofs.Buffers
import VectorMemory.Proofs.Rows
import VectorMemory.Proofs.Constants
import VectorMemory.Proofs.Supersession
import VectorMemory.Proofs.FreeSet
import VectorMemory.Proofs.LifeCycle
import VectorMemory.Proofs.Requests
import VectorMemory.Proofs.GivingBack
import VectorMemory.Proofs.Tracing
import VectorMemory.Proofs.IdleLayers
import VectorMemory.Proofs.Documents
import VectorMemory.Proofs.Framing
import VectorMemory.Proofs.Layout
import VectorMemory.Proofs.RoundTrip
import VectorMemory.Proofs.Sweeping
import VectorMemory.Proofs.Refusals
import VectorMemory.Proofs.Delivery
import VectorMemory.Proofs.FirstFit
import VectorMemory.Proofs.Blending
import VectorMemory.Proofs.Unwritten
import VectorMemory.Proofs.DoubleFree
import VectorMemory.Proofs.Lanes
import VectorMemory.Proofs.Overflow
import VectorMemory.Proofs.Binary
import VectorMemory.Proofs.FixedPoint
import VectorMemory.Proofs.Integers
import VectorMemory.Proofs.Annotations
import VectorMemory.Proofs.CanonicalForm
import VectorMemory.Proofs.Usage
