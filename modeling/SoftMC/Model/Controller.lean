import SoftMC.Model.Core
import SoftMC.Model.MaintHandler
/-!
# The controller: the instruction path with its maintenance

`maint_handler` and `autoref_config` around the instruction path, wired as
in `softMC.v`. The requests of `maint_ctrl_top` are inputs: whatever its
timers do, what it raises is one of their waveforms.
-/

namespace SoftMC

/-- The registers of `autoref_config`. -/
structure AutorefConfig where
  arefEn : Bool
  arefInterval : BitVec 28
  trfc : BitVec 28
  deriving DecidableEq, Repr

namespace AutorefConfig

/-- The registers after reset. -/
def reset : AutorefConfig := { arefEn := false, arefInterval := 0, trfc := 0 }

/-- The clock edge. -/
def next (rst setInterval : Bool) (intervalIn : BitVec 28) (setTrfc : Bool) (trfcIn : BitVec 28)
    (a : AutorefConfig) : AutorefConfig :=
  if rst then reset
  else
    { arefEn := if setInterval then decide (intervalIn ≠ 0) else a.arefEn
      arefInterval := if setInterval then intervalIn else a.arefInterval
      trfc := if setTrfc then trfcIn else a.trfc }

end AutorefConfig

/-- The registers of the controller. -/
structure Controller where
  handler : MaintHandler
  aref : AutorefConfig
  core : Core
  deriving DecidableEq, Repr

namespace Controller

/-- The state after reset. -/
def reset : Controller :=
  { handler := MaintHandler.reset, aref := AutorefConfig.reset, core := Core.reset }

/-- The inputs of one cycle: the maintenance requests, the application's
instruction and `dfi_ready`. -/
structure In where
  prRdReq : Bool
  zqReq : Bool
  autorefReq : Bool
  ddrX : BitVec 3
  appEn : Bool
  appInstr : Instr
  dfiReady : Bool
  deriving DecidableEq, Repr

variable (c : Controller) (i : In)

/-- `dfi_odt0` tells the handler the direction of the bus. -/
def handlerIn : MaintHandler.In where
  prRdReq := i.prRdReq
  zqReq := i.zqReq
  autorefReq := i.autorefReq
  curBusDir := if c.core.exec.iseq.disp.dfiOdt then BUS_DIR_WRITE else BUS_DIR_READ
  prRdAck := c.core.exec.iseq.disp.prRdAck
  trfc := c.aref.trfc
  ddrX := i.ddrX

def coreIn : Core.In where
  appEn := i.appEn
  appInstr := i.appInstr
  maintEn := c.handler.maintInstrEn
  maintInstr := c.handler.maintInstr (c.handlerIn i)
  periodicReadLock := c.handler.periodicReadLock
  dfiReady := i.dfiReady

abbrev maintAck : Bool := c.core.maintAck (c.coreIn i)
abbrev appAck : Bool := c.core.appAck (c.coreIn i)

/-- The clock edge, with instruction FIFOs of the given depth. -/
def next (depth : Option ℕ) (c : Controller) (i : In) : Controller where
  handler := MaintHandler.next c.handler (c.handlerIn i) (c.maintAck i) false
  aref := AutorefConfig.next false c.core.exec.iseq.disp.arefSetInterval
    c.core.exec.iseq.disp.arefInterval c.core.exec.iseq.disp.arefSetTrfc
    c.core.exec.iseq.disp.arefTrfc c.aref
  core := Core.next depth c.core (c.coreIn i)

end Controller

end SoftMC
