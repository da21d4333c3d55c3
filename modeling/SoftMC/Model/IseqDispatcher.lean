import SoftMC.Model.Dispatcher
import SoftMC.Model.PipeReg
/-!
# `iseq_dispatcher`, with its instruction FIFOs

`iseq_dispatcher` moves one instruction sequence from the two instruction
FIFOs through two `pipe_reg` stages into `instr_dispatcher`, from the
`process_iseq` pulse until both FIFOs and both stages are empty. `Exec`
adds the two FIFOs of `softMC.v`.
-/

namespace SoftMC

/-- The registers of `iseq_dispatcher` and of the modules it
instantiates. -/
structure IseqDispatcher where
  dispatcherBusyR : Bool
  instr0Reg : PipeReg Instr
  instr1Reg : PipeReg Instr
  disp : Dispatcher
  deriving DecidableEq, Repr

namespace IseqDispatcher

/-- The registers after reset. -/
def reset : IseqDispatcher where
  dispatcherBusyR := false
  instr0Reg := PipeReg.reset
  instr1Reg := PipeReg.reset
  disp := Dispatcher.reset

/-- The inputs of one cycle. -/
structure In where
  processIseq : Bool
  periodicReadLock : Bool
  instr0FifoEmpty : Bool
  instr0FifoData : Instr
  instr1FifoEmpty : Bool
  instr1FifoData : Instr
  dfiReady : Bool

variable (d : IseqDispatcher)

/-- What the pipe stages show `instr_dispatcher`. -/
def dispIn (periodicReadLock dfiReady : Bool) : Dispatcher.In where
  periodicReadLock := periodicReadLock
  enIn0 := d.instr0Reg.validOut
  instrIn0 := d.instr0Reg.dataOut
  enIn1 := d.instr1Reg.validOut
  instrIn1 := d.instr1Reg.dataOut
  dfiReady := dfiReady

abbrev instr0DispEn : Bool := d.instr0Reg.validOut
abbrev instr1DispEn : Bool := d.instr1Reg.validOut

def instr0DispAck (i : In) : Bool := d.disp.enAck0 (d.dispIn i.periodicReadLock i.dfiReady)
def instr1DispAck (i : In) : Bool := d.disp.enAck1 (d.dispIn i.periodicReadLock i.dfiReady)

def instr0FifoRd : Bool := d.instr0Reg.readyOut && d.dispatcherBusyR
def instr1FifoRd : Bool := d.instr1Reg.readyOut && d.dispatcherBusyR

/-- A sequence is being dispatched until nothing is left to take. -/
def dispatcherBusyNs (rst : Bool) (i : In) : Bool :=
  (!rst && i.processIseq) ||
    (d.dispatcherBusyR && (!(i.instr0FifoEmpty && i.instr1FifoEmpty) ||
      d.instr0DispEn || d.instr1DispEn))

/-- The clock edge. -/
def next (rst : Bool) (d : IseqDispatcher) (i : In) : IseqDispatcher where
  dispatcherBusyR := d.dispatcherBusyNs rst i
  instr0Reg := PipeReg.next rst (d.instr0DispAck i) (d.dispatcherBusyR && !i.instr0FifoEmpty)
    i.instr0FifoData d.instr0Reg
  instr1Reg := PipeReg.next rst (d.instr1DispAck i) (d.dispatcherBusyR && !i.instr1FifoEmpty)
    i.instr1FifoData d.instr1Reg
  disp := Dispatcher.next rst d.disp (d.dispIn i.periodicReadLock i.dfiReady)

end IseqDispatcher

/-! ## With the instruction FIFOs -/

/-- The two instruction FIFOs and `iseq_dispatcher`. -/
structure Exec where
  fifo0 : List Instr
  fifo1 : List Instr
  iseq : IseqDispatcher
  deriving DecidableEq, Repr

namespace Exec

/-- The state after reset: FIFOs empty. -/
def reset : Exec := { fifo0 := [], fifo1 := [], iseq := IseqDispatcher.reset }

/-- The inputs of one cycle: a word written to each FIFO, if any, and the
signals of `iseq_dispatcher` that come from elsewhere. -/
structure In where
  wr0 : Option Instr
  wr1 : Option Instr
  processIseq : Bool
  periodicReadLock : Bool
  dfiReady : Bool
  deriving DecidableEq, Repr

variable (e : Exec) (i : In)

/-- What the FIFOs show `iseq_dispatcher`: the first word falls through;
the data lines of an empty FIFO carry no word. -/
def iseqIn : IseqDispatcher.In where
  processIseq := i.processIseq
  periodicReadLock := i.periodicReadLock
  instr0FifoEmpty := e.fifo0.isEmpty
  instr0FifoData := e.fifo0.headD 0
  instr1FifoEmpty := e.fifo1.isEmpty
  instr1FifoData := e.fifo1.headD 0
  dfiReady := i.dfiReady

/-- What `instr_dispatcher` sees in the cycle. -/
abbrev dispIn : Dispatcher.In := e.iseq.dispIn i.periodicReadLock i.dfiReady

/-- The clock edge, with FIFOs of the given depth. Runs start after
reset, which stays low. -/
def next (depth : Option ℕ) (e : Exec) (i : In) : Exec where
  fifo0 := fifoNext depth e.iseq.instr0FifoRd i.wr0 e.fifo0
  fifo1 := fifoNext depth e.iseq.instr1FifoRd i.wr1 e.fifo1
  iseq := IseqDispatcher.next false e.iseq (e.iseqIn i)

end Exec

end SoftMC
