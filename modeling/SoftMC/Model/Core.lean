import SoftMC.Model.IseqDispatcher
import SoftMC.Model.Receiver
/-!
# The instruction path

`instr_receiver`, the two instruction FIFOs and `iseq_dispatcher`, wired
as in `softMC.v`: the receiver is held off while the dispatcher is busy.
-/

namespace SoftMC

/-- The registers of the instruction path. -/
structure Core where
  recv : Receiver
  exec : Exec
  deriving DecidableEq, Repr

namespace Core

/-- The state after reset. -/
def reset : Core := { recv := Receiver.reset, exec := Exec.reset }

/-- The inputs of one cycle. -/
structure In where
  appEn : Bool
  appInstr : Instr
  maintEn : Bool
  maintInstr : Instr
  periodicReadLock : Bool
  dfiReady : Bool
  deriving DecidableEq, Repr

variable (c : Core) (i : In)

def recvIn : Receiver.In where
  dispatcherReady := !c.exec.iseq.dispatcherBusyR
  appEn := i.appEn
  appInstr := i.appInstr
  maintEn := i.maintEn
  maintInstr := i.maintInstr

def execIn : Exec.In where
  wr0 := c.recv.instr0Fifo
  wr1 := c.recv.instr1Fifo
  processIseq := c.recv.processIseqR
  periodicReadLock := i.periodicReadLock
  dfiReady := i.dfiReady

def appAck : Bool := (c.recv.comb (c.recvIn i)).appAck
def maintAck : Bool := (c.recv.comb (c.recvIn i)).maintAck

/-- The clock edge. -/
def next (depth : Option ℕ) (c : Core) (i : In) : Core where
  recv := Receiver.next false c.recv (c.recvIn i)
  exec := Exec.next depth c.exec (c.execIn i)

end Core

end SoftMC
