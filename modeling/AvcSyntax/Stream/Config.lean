/-!
# How strictly a stream is read

Headers that break a rule are refused unless the reader is told otherwise. A missing or zero stop
bit is accepted unless it is told otherwise.
-/
namespace AvcSyntax

structure StreamConfig where
  /-- Whether the accesses to each unit are recorded; no result depends on it. -/
  traceBits : Bool := false
  strictHeader : Bool := true
  strictTrailingBits : Bool := false
  deriving DecidableEq, Repr

def StreamConfig.describe (c : StreamConfig) : String :=
  s!"StreamConfig \x7b trace_bits: {c.traceBits}, strict_nal_header: {c.strictHeader}, " ++
  s!"strict_trailing_bits: {c.strictTrailingBits} \x7d"

end AvcSyntax
