import AvcSyntax.Fixup.SpsPatcher
import AvcSyntax.Proofs.Sei
import AvcSyntax.Proofs.ParameterSets
import AvcSyntax.Proofs.Slice.Layer
import AvcSyntax.Proofs.Nal.Header
import AvcSyntax.Proofs.Stream.NalUnit
import AvcSyntax.Proofs.Nal.ByteStream
import AvcSyntax.Proofs.Nal.Escaping
import AvcSyntax.Proofs.Nal.Payloads
import AvcSyntax.Proofs.Stream.Basic
import AvcSyntax.Proofs.Fixup.Patching
import AvcSyntax.Proofs.Fixup.SpsPatcher
import AvcSyntax.Proofs.Fixup.Replay
import AvcSyntax.Proofs.Stream.ParameterSets
import AvcSyntax.Proofs.Fixup.Downstream
import AvcSyntax.Proofs.Fixup.Repeated
import AvcSyntax.Proofs.Canonical.SliceHeader
import AvcSyntax.Proofs.Slice.Moving
import AvcSyntax.Proofs.Slice.Agreement
import AvcSyntax.Proofs.Fixup.Owed
import AvcSyntax.Proofs.Stream.History
import AvcSyntax.Proofs.Stream.Strictness
import AvcSyntax.Proofs.Bits.Room
import AvcSyntax.Proofs.Stream.Room
import AvcSyntax.Proofs.Fixup.Failing
import AvcSyntax.Proofs.Retracing
import AvcSyntax.Proofs.Stream.Messages
import AvcSyntax.Proofs.Bits.Numbers
import AvcSyntax.Proofs.Bits.Overrun
import AvcSyntax.Proofs.Bits.Cursor
import AvcSyntax.Proofs.Bits.GolombCode
import AvcSyntax.Proofs.Bits.GolombFaults
import AvcSyntax.Proofs.Nal.MoreData
import AvcSyntax.Proofs.Nal.UnitSearch
import AvcSyntax.Proofs.Nal.IllegalEscapes
import AvcSyntax.Proofs.Nal.OutputRoom
import AvcSyntax.Proofs.Bits.Truncation
import AvcSyntax.Proofs.Slice.Termination
import AvcSyntax.Proofs.ScalingCodes
import AvcSyntax.Proofs.Truncation
import AvcSyntax.Proofs.Stream.Truncation
import AvcSyntax.Proofs.Exact.ChangeCycle
import AvcSyntax.Proofs.Fixup.Peeking
import AvcSyntax.Proofs.Exact.Dimensions
import AvcSyntax.Proofs.Slice.Safety
