import SoftMC.Model.IseqDispatcher
import SoftMC.Model.ReadCapturer
import SoftMC.Common.Clocked
/-!
# The read path

`iseq_dispatcher` with its FIFOs, the PHY's read strobes,
`read_capturer` and the read-back FIFO, wired as in `softMC.v`: the
capturer's stall is `dfi_ready` inverted. Of the PHY this is what the
patched `phy_rdctrl_sync` does with the read enables: shift registers that
delay each by the read latency, whatever `dfi_dram_clk_disable`. The
read-back FIFO is generated, and modelled by its documented behaviour.
-/

namespace SoftMC

open Clocked

/-- The depth of `rdback_fifo`. -/
abbrev RDBACK_DEPTH : ℕ := 1024

/-- The read enables of one cycle. -/
structure RddataEn where
  en : Bool
  even : Bool
  odd : Bool
  deriving DecidableEq, Repr

namespace RddataEn

/-- What the shift registers power up with. -/
def idle : RddataEn := { en := false, even := false, odd := false }

/-- A word for the host is asked for: it is not a periodic read's. -/
def forHost (t : RddataEn) : Bool := !t.odd && t.en

end RddataEn

/-- The registers of the read path. -/
structure ReadPath where
  exec : Exec
  phy : List RddataEn
  capturer : ReadCapturer
  rdbackFifo : List RdWord
  deriving DecidableEq, Repr

namespace ReadPath

/-- The inputs of one cycle. -/
structure In where
  wr0 : Option Instr
  wr1 : Option Instr
  processIseq : Bool
  periodicReadLock : Bool
  dfiRddata : RdWord
  rdbackFifoRden : Bool
  deriving DecidableEq, Repr

variable (p : ReadPath) (i : In)

def dfiReady : Bool := !p.capturer.dfiClkDisable

def execIn : Exec.In where
  wr0 := i.wr0
  wr1 := i.wr1
  processIseq := i.processIseq
  periodicReadLock := i.periodicReadLock
  dfiReady := p.dfiReady

/-- What `instr_dispatcher` computes in the cycle. -/
def dispComb : Dispatcher.Comb := p.exec.iseq.disp.comb (p.exec.dispIn (p.execIn i))

def dfiRddataEn : RddataEn where
  en := (p.dispComb i).dfiRddataEn
  even := (p.dispComb i).dfiRddataEnEven
  odd := (p.dispComb i).dfiRddataEnOdd

/-- What the PHY gives out. -/
def dfiRddataValid : RddataEn := p.phy.headD RddataEn.idle

def rdbackFifoFull : Bool := fifoFull (some RDBACK_DEPTH) p.rdbackFifo

/-- At most one more word fits. -/
def rdbackFifoAlmostFull : Bool := decide (RDBACK_DEPTH ≤ p.rdbackFifo.length + 1)

def capturerIn : ReadCapturer.In where
  dfiRddata := i.dfiRddata
  dfiRddataValid := p.dfiRddataValid.en
  dfiRddataValidEven := p.dfiRddataValid.even
  dfiRddataValidOdd := p.dfiRddataValid.odd
  rdbackFifoAlmostFull := p.rdbackFifoAlmostFull
  rdbackFifoFull := p.rdbackFifoFull

/-- The write port of the read-back FIFO. -/
def rdbackFifoWr : Option RdWord :=
  if p.capturer.rdbackFifoWren then some p.capturer.rdbackFifoWrdata else none

/-- The clock edge, with instruction FIFOs of the given depth. -/
def next (depth : Option ℕ) (p : ReadPath) (i : In) : ReadPath where
  exec := Exec.next depth p.exec (p.execIn i)
  phy := shift p.phy (p.dfiRddataEn i)
  capturer := ReadCapturer.next false p.capturer (p.capturerIn i)
  rdbackFifo := fifoNext (some RDBACK_DEPTH) i.rdbackFifoRden p.rdbackFifoWr p.rdbackFifo

end ReadPath

end SoftMC
