import SoftMC.Model.Instr
import SoftMC.Model.ReadCapturer
/-!
# `softMC_pcie_app`

The host's side. One register takes the words of the RIFFA channel to the
controller; a receiver and a sender with a state machine each take the
words of the read-back FIFO to the channel, in four beats. The two sides
share nothing but the clock.
-/

namespace SoftMC

/-- A word of the RIFFA channel: `C_PCI_DATA_WIDTH` bits. -/
abbrev ChnlWord := BitVec 64

/-! ## From the host -/

/-- The registers of the receiving side. -/
structure PcieRx where
  oldChnlRx : Bool
  pendingAck : Bool
  chnlRxAck : Bool
  appEnR : Bool
  rxDataR : ChnlWord
  deriving DecidableEq, Repr

namespace PcieRx

/-- The registers as they power up; none has a reset. -/
def powerUp : PcieRx where
  oldChnlRx := false
  pendingAck := false
  chnlRxAck := false
  appEnR := false
  rxDataR := 0

/-- The inputs of one cycle, `app_ack` apart. -/
structure In where
  chnlRx : Bool
  chnlRxData : ChnlWord
  chnlRxDataValid : Bool
  deriving DecidableEq, Repr

variable (x : PcieRx)

abbrev appEn : Bool := x.appEnR

/-- `app_instr`: the port is 32 bits wide. -/
def appInstr : Instr := x.rxDataR.extractLsb' 0 32

def chnlRxDataRen (appAck : Bool) : Bool := !x.appEnR || appAck

/-- The clock edge. -/
def next (x : PcieRx) (i : In) (appAck : Bool) : PcieRx where
  oldChnlRx := i.chnlRx
  pendingAck :=
    if !x.chnlRxAck && x.pendingAck then false
    else if !x.oldChnlRx && i.chnlRx then true
    else x.pendingAck
  chnlRxAck := if x.chnlRxAck then false else x.pendingAck
  appEnR := if x.chnlRxDataRen appAck then i.chnlRxDataValid else x.appEnR
  rxDataR := if x.chnlRxDataRen appAck then i.chnlRxData else x.rxDataR

end PcieRx

/-! ## To the host -/

/-- The states of the receiver of read-back words. -/
inductive RecvBusy
  | idle
  | busy
  deriving DecidableEq, Repr

/-- The registers of the sending side, and the value `CHNL_TX_DATA_VALID`
was last assigned: the block assigns it only while the receiver is busy. -/
structure PcieTx where
  recvState : RecvBusy
  sendDataR : RdWord
  senderState : BitVec 3
  lastDataValid : Bool
  deriving DecidableEq, Repr

namespace PcieTx

/-- The registers after reset; `CHNL_TX_DATA_VALID` is what it was. -/
def reset (lastDataValid : Bool) : PcieTx where
  recvState := .idle
  sendDataR := 0
  senderState := 0
  lastDataValid := lastDataValid

/-- The inputs of one cycle. -/
structure In where
  rdbackFifoEmpty : Bool
  rdbackData : RdWord
  chnlTxDataRen : Bool
  deriving DecidableEq, Repr

variable (x : PcieTx)

def rdbackFifoRden : Bool := decide (x.recvState = .idle)

/-- The combinational block. -/
def chnlTx : Bool := if x.recvState = .busy then true else x.senderState.getLsbD 2

def chnlTxDataValid : Bool := if x.recvState = .busy then true else x.lastDataValid

def senderStateNs (chnlTxDataRen : Bool) : BitVec 3 :=
  if x.recvState = .busy ∧ chnlTxDataRen then x.senderState + 1 else x.senderState

def senderAck (chnlTxDataRen : Bool) : Bool :=
  decide (x.recvState = .busy) && chnlTxDataRen && decide (x.senderState.extractLsb' 0 2 = 3)

/-- A 64-bit slice of a read-back word. -/
def slice (w : RdWord) (k : ℕ) : ChnlWord := w.extractLsb' (64 * k) 64

/-- `CHNL_TX_LEN`: the length of a transaction, in words of 32 bits. -/
def chnlTxLen : BitVec 32 := 16

/-- `CHNL_TX_DATA`. -/
def chnlTxData : ChnlWord := slice x.sendDataR (x.senderState.extractLsb' 0 2).toNat

/-- The clock edge. -/
def next (rst : Bool) (x : PcieTx) (i : In) : PcieTx :=
  if rst then
    { x with recvState := .idle, senderState := 0, lastDataValid := x.chnlTxDataValid }
  else
    { recvState :=
        match x.recvState with
        | .idle => if i.rdbackFifoEmpty then .idle else .busy
        | .busy => if x.senderAck i.chnlTxDataRen then .idle else .busy
      sendDataR := if x.recvState = .idle ∧ !i.rdbackFifoEmpty then i.rdbackData else x.sendDataR
      senderState := x.senderStateNs i.chnlTxDataRen
      lastDataValid := x.chnlTxDataValid }

end PcieTx

end SoftMC
