import SoftMC.Model.MaintCtrl
import SoftMC.Model.PcieApp
import SoftMC.Model.ReadPath
/-!
# `softMC_top`

The whole design between the two RIFFA channels and the PHY: `softMC_pcie_app`
in front of `softMC`, which is the maintenance controllers, the instruction
path and the read path, wired as in `softMC_top.v` and `softMC.v`. Of the
PHY there are the read strobes; what is on the data bus is an input.
-/

namespace SoftMC

/-- The registers of the design. -/
structure SoftMCTop where
  rx : PcieRx
  system : System
  phy : List RddataEn
  capturer : ReadCapturer
  rdbackFifo : List RdWord
  tx : PcieTx
  deriving DecidableEq, Repr

namespace SoftMCTop

/-- The inputs of one cycle: the two channels, and what comes from the
PHY. -/
structure In where
  rx : PcieRx.In
  chnlTxDataRen : Bool
  dfiInitComplete : Bool
  ddrX : BitVec 3
  dfiRddata : RdWord
  deriving DecidableEq, Repr

variable (t : SoftMCTop) (i : In)

abbrev core : Core := t.system.controller.core

/-- `dfi_ready` is the capturer's stall inverted. -/
def dfiReady : Bool := !t.capturer.dfiClkDisable

def systemIn : System.In where
  dfiInitComplete := i.dfiInitComplete
  ddrX := i.ddrX
  appEn := t.rx.appEn
  appInstr := t.rx.appInstr
  dfiReady := t.dfiReady

def controllerIn : Controller.In := t.system.controllerIn (t.systemIn i)

def appAck : Bool := t.system.controller.appAck (t.controllerIn i)

/-- The dispatcher and what follows it, on the way back to the host. -/
def readPath : ReadPath where
  exec := t.core.exec
  phy := t.phy
  capturer := t.capturer
  rdbackFifo := t.rdbackFifo

def readPathIn : ReadPath.In where
  wr0 := t.core.recv.instr0Fifo
  wr1 := t.core.recv.instr1Fifo
  processIseq := t.core.recv.processIseqR
  periodicReadLock := t.system.controller.handler.periodicReadLock
  dfiRddata := i.dfiRddata
  rdbackFifoRden := t.tx.rdbackFifoRden

def txIn : PcieTx.In where
  rdbackFifoEmpty := t.rdbackFifo.isEmpty
  rdbackData := t.rdbackFifo.headD 0
  chnlTxDataRen := i.chnlTxDataRen

/-- The clock edge, with instruction FIFOs of the given depth. -/
def next (depth : Option ℕ) (t : SoftMCTop) (i : In) : SoftMCTop where
  rx := PcieRx.next t.rx i.rx (t.appAck i)
  system := System.next depth t.system (t.systemIn i)
  phy := (ReadPath.next depth t.readPath (t.readPathIn i)).phy
  capturer := (ReadPath.next depth t.readPath (t.readPathIn i)).capturer
  rdbackFifo := (ReadPath.next depth t.readPath (t.readPathIn i)).rdbackFifo
  tx := PcieTx.next false t.tx (t.txIn i)

/-- The dispatcher of the read path is the controller's. -/
theorem readPath_next (depth : Option ℕ) :
    (next depth t i).readPath = ReadPath.next depth t.readPath (t.readPathIn i) := rfl

end SoftMCTop

end SoftMC
