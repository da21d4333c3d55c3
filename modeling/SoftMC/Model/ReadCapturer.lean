import Mathlib.Data.BitVec
/-!
# `read_capturer`

The capturer registers what the PHY returns and writes it to the read-back
FIFO, except the words tagged as a periodic read's. A burst issued in slot
`1` comes back aligned with the bus; one issued in slot `0` is half a word
early and is put together from two. A FIFO that is almost full stalls the
dispatcher a cycle later.
-/

namespace SoftMC

/-- A word of the read-back path: `4 * DQ_WIDTH` bits. -/
abbrev RdWord := BitVec 256

/-- The registers of `read_capturer`. -/
structure ReadCapturer where
  rdDataR : RdWord
  rdDataR2 : RdWord
  rdDataEnR : Bool
  rdDataEnEvenR : Bool
  rdDataEnOddR : Bool
  rdbackFifoFullR : Bool
  deriving DecidableEq, Repr

namespace ReadCapturer

/-- The registers after reset. -/
def reset : ReadCapturer where
  rdDataR := 0
  rdDataR2 := 0
  rdDataEnR := false
  rdDataEnEvenR := false
  rdDataEnOddR := false
  rdbackFifoFullR := false

/-- The inputs of one cycle. -/
structure In where
  dfiRddata : RdWord
  dfiRddataValid : Bool
  dfiRddataValidEven : Bool
  dfiRddataValidOdd : Bool
  rdbackFifoAlmostFull : Bool
  rdbackFifoFull : Bool
  deriving DecidableEq, Repr

variable (s : ReadCapturer)

/-- The write port of the FIFO. -/
def rdbackFifoWren : Bool := !s.rdDataEnOddR && s.rdDataEnR

def rdbackFifoWrdata : RdWord :=
  if s.rdDataEnEvenR then s.rdDataR.extractLsb' 0 128 ++ s.rdDataR2.extractLsb' 128 128
  else s.rdDataR

abbrev dfiClkDisable : Bool := s.rdbackFifoFullR

/-- The clock edge. -/
def next (rst : Bool) (s : ReadCapturer) (i : In) : ReadCapturer :=
  if rst then reset
  else
    { rdDataR := i.dfiRddata
      rdDataR2 := s.rdDataR
      rdDataEnR := i.dfiRddataValid
      rdDataEnEvenR := i.dfiRddataValidEven
      rdDataEnOddR := i.dfiRddataValidOdd
      rdbackFifoFullR := i.rdbackFifoAlmostFull || i.rdbackFifoFull }

/-- A returned word is written one cycle later, unless its odd tag is
set. -/
theorem rdbackFifoWren_next (i : In) :
    (next false s i).rdbackFifoWren = (!i.dfiRddataValidOdd && i.dfiRddataValid) := rfl

end ReadCapturer

end SoftMC
