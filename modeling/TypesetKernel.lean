import TypesetKernel.BinaryFraction
import TypesetKernel.Bytes
import TypesetKernel.CommandLine
import TypesetKernel.CommandTable
import TypesetKernel.FixedPoint
import TypesetKernel.FontMetrics.Basic
import TypesetKernel.FontMetrics.Decode
import TypesetKernel.FontMetrics.File
import TypesetKernel.FontTable
import TypesetKernel.Kernel
import TypesetKernel.RenderState
import TypesetKernel.Proofs.BinaryFraction.Binary64
import TypesetKernel.Proofs.BinaryFraction.Shortest
import TypesetKernel.Proofs.ByteStream
import TypesetKernel.Proofs.Bytes
import TypesetKernel.Proofs.CommandLine
import TypesetKernel.Proofs.CommandTable.Chains
import TypesetKernel.Proofs.CommandTable.Meanings
import TypesetKernel.Proofs.CommandTable.Order
import TypesetKernel.Proofs.Decimal
import TypesetKernel.Proofs.Decoder
import TypesetKernel.Proofs.FixWord
import TypesetKernel.Proofs.FontMetrics.Damage
import TypesetKernel.Proofs.FontMetrics.Decode
import TypesetKernel.Proofs.FontMetrics.File
import TypesetKernel.Proofs.FontMetrics.HeaderTexts
import TypesetKernel.Proofs.FontMetrics.Ignored
import TypesetKernel.Proofs.FontMetrics.Layout
import TypesetKernel.Proofs.FontMetrics.Lookup
import TypesetKernel.Proofs.FontMetrics.Restored
import TypesetKernel.Proofs.FontTable.Loads
import TypesetKernel.Proofs.FontTable.Sizes
import TypesetKernel.Proofs.Kernel.Boot
import TypesetKernel.Proofs.Kernel.FontCommands
import TypesetKernel.Proofs.Kernel.Requests
import TypesetKernel.Proofs.NodeArena
import TypesetKernel.Proofs.RenderState.Ends
import TypesetKernel.Proofs.RenderState.Groups
import TypesetKernel.Proofs.RenderState.Isolation
import TypesetKernel.Proofs.RenderState.Requests
import TypesetKernel.Proofs.RenderState.Sequences
import TypesetKernel.Proofs.Runs
import TypesetKernel.Proofs.Scaled
import TypesetKernel.Proofs.Utf8
