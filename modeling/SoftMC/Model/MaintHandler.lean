import SoftMC.Model.Instr
/-!
# `maint_handler`

The handler turns a maintenance request into a short program and offers
it to the receiver one instruction at a time. The three programs share
one state counter; the periodic read also moves the lock under which its
data is tagged.
-/

namespace SoftMC

/-- `DEF_TRP` … `DEF_TZQCS` of `softMC.inc` at `tCK = 2500`. -/
abbrev DEF_TRP : ℕ := 15000 / 2500
abbrev DEF_TRCD : ℕ := 15000 / 2500
abbrev DEF_TRAS : ℕ := 35000 / 2500
abbrev DEF_TZQCS : ℕ := 64

/-! ## The words it emits -/

/-- A DDR instruction with the clock enabled and the chip selected; `x`
are the bits `4'b1xxx` leaves open. -/
def maintDdr (x : BitVec 3) (ras cas we a10 : Bool) : Instr :=
  1#1 ++ x ++ 0#3 ++ 1#1 ++ 0#2 ++ BitVec.ofBool ras ++ BitVec.ofBool cas ++ BitVec.ofBool we ++
    0#8 ++ BitVec.ofBool a10 ++ 0#10

def maintWait (count : BitVec 28) : Instr := 4#4 ++ count

def maintBusdir (dir : BitVec 2) : Instr := 1#4 ++ 0#26 ++ dir

def maintEnd : Instr := 0#4 ++ 0#28

/-! ## The states -/

abbrev PR_RD_IO : BitVec 4 := 0
abbrev PR_RD_PRE : BitVec 4 := 1
abbrev PR_RD_WAIT_PRE : BitVec 4 := 2
abbrev PR_RD_ACT : BitVec 4 := 3
abbrev PR_RD_WAIT_ACT : BitVec 4 := 4
abbrev PR_RD_READ : BitVec 4 := 5
abbrev PR_RD_WAIT_READ : BitVec 4 := 6
abbrev PR_RD_PRE2 : BitVec 4 := 7
abbrev PR_RD_WAIT_PRE2 : BitVec 4 := 8
abbrev PR_RD_WR_IO : BitVec 4 := 9
abbrev MAINT_FIN : BitVec 4 := 10

abbrev ZQ_PRE : BitVec 4 := 0
abbrev ZQ_WAIT_PRE : BitVec 4 := 1
abbrev ZQ_ZQ : BitVec 4 := 2
abbrev ZQ_WAIT_ZQ : BitVec 4 := 3

abbrev AREF_PRE : BitVec 4 := 0
abbrev AREF_WAIT_PRE : BitVec 4 := 1
abbrev AREF_REF : BitVec 4 := 2
abbrev AREF_WAIT_REF : BitVec 4 := 3

/-- The registers of `maint_handler`. -/
structure MaintHandler where
  prRdProcessR : Bool
  zqProcessR : Bool
  autorefProcessR : Bool
  maintState : BitVec 4
  lockPrRdR : Bool
  curBusDirR : BitVec 2
  deriving DecidableEq, Repr

namespace MaintHandler

/-- The registers after reset, the process flags as they power up. -/
def reset : MaintHandler where
  prRdProcessR := false
  zqProcessR := false
  autorefProcessR := false
  maintState := 0
  lockPrRdR := false
  curBusDirR := BUS_DIR_READ

/-- The inputs of one cycle, `maint_ack` apart. `ddrX` are the bits the
literal of `DDR_INSTR` leaves open. -/
structure In where
  prRdReq : Bool
  zqReq : Bool
  autorefReq : Bool
  curBusDir : BitVec 2
  prRdAck : Bool
  trfc : BitVec 28
  ddrX : BitVec 3
  deriving DecidableEq, Repr

/-- The signals the combinational block assigns. -/
structure Comb where
  prRdProcessNs : Bool
  zqProcessNs : Bool
  autorefProcessNs : Bool
  lockPrRdNs : Bool
  zqAck : Bool
  autorefAck : Bool
  maintStateNs : BitVec 4
  maintInstr : Instr
  curBusDirNs : BitVec 2
  deriving DecidableEq, Repr

variable (h : MaintHandler) (i : In) (maintAck : Bool)

def maintProcess : Bool := h.prRdProcessR || h.zqProcessR || h.autorefProcessR

abbrev maintInstrEn : Bool := h.maintProcess
abbrev periodicReadLock : Bool := h.lockPrRdR

/-- The defaults of the block. -/
def defaults : Comb where
  prRdProcessNs := h.prRdProcessR
  zqProcessNs := h.zqProcessR
  autorefProcessNs := h.autorefProcessR
  lockPrRdNs := h.lockPrRdR
  zqAck := false
  autorefAck := false
  maintStateNs := h.maintState
  maintInstr := maintEnd
  curBusDirNs := h.curBusDirR

/-- Entering maintenance. -/
def enter (c : Comb) : Comb :=
  if !h.maintProcess then
    if i.prRdReq && !h.lockPrRdR then
      { c with prRdProcessNs := true, maintStateNs := PR_RD_IO }
    else if i.zqReq then { c with zqProcessNs := true, maintStateNs := ZQ_PRE }
    else if i.autorefReq then { c with autorefProcessNs := true, maintStateNs := AREF_PRE }
    else c
  else c

/-- A state that offers an instruction and moves on when it is taken. -/
def Comb.offer (c : Comb) (maintAck : Bool) (instr : Instr) (nxt : BitVec 4) : Comb :=
  { c with maintInstr := instr, maintStateNs := if maintAck then nxt else c.maintStateNs }

/-- The periodic read: precharge, activate and read bank `0`, and put a
write direction back. -/
def prRdCase (c : Comb) : Comb :=
  match h.maintState.toNat with
  | 0 => { c.offer maintAck (maintBusdir 0) PR_RD_PRE with curBusDirNs := i.curBusDir }
  | 1 => c.offer maintAck (maintDdr i.ddrX false true false false) PR_RD_WAIT_PRE
  | 2 => c.offer maintAck (maintWait (.ofNat 28 DEF_TRP)) PR_RD_ACT
  | 3 => c.offer maintAck (maintDdr i.ddrX false true true false) PR_RD_WAIT_ACT
  | 4 => c.offer maintAck (maintWait (.ofNat 28 DEF_TRCD)) PR_RD_READ
  | 5 => c.offer maintAck (maintDdr i.ddrX true false true false) PR_RD_WAIT_READ
  | 6 => c.offer maintAck (maintWait (.ofNat 28 (DEF_TRAS - DEF_TRCD))) PR_RD_PRE2
  | 7 => c.offer maintAck (maintDdr i.ddrX false true false false) PR_RD_WAIT_PRE2
  | 8 => c.offer maintAck (maintWait (.ofNat 28 DEF_TRP))
      (if h.curBusDirR = BUS_DIR_READ then MAINT_FIN else PR_RD_WR_IO)
  | 9 => c.offer maintAck (maintBusdir BUS_DIR_WRITE) MAINT_FIN
  | 10 => { c with maintInstr := maintEnd, prRdProcessNs := false, lockPrRdNs := true }
  | _ => c

/-- ZQ calibration, behind a precharge of all banks. -/
def zqCase (c : Comb) : Comb :=
  match h.maintState.toNat with
  | 0 => c.offer maintAck (maintDdr i.ddrX false true false true) ZQ_WAIT_PRE
  | 1 => c.offer maintAck (maintWait (.ofNat 28 DEF_TRP)) ZQ_ZQ
  | 2 => c.offer maintAck (maintDdr i.ddrX true true false false) ZQ_WAIT_ZQ
  | 3 => c.offer maintAck (maintWait (.ofNat 28 DEF_TZQCS)) MAINT_FIN
  | 10 => { c with maintInstr := maintEnd, zqProcessNs := false, zqAck := true }
  | _ => c

/-- Auto-refresh, behind a precharge of all banks. -/
def autorefCase (c : Comb) : Comb :=
  match h.maintState.toNat with
  | 0 => c.offer maintAck (maintDdr i.ddrX false true false true) AREF_WAIT_PRE
  | 1 => c.offer maintAck (maintWait (.ofNat 28 DEF_TRP)) AREF_REF
  | 2 => c.offer maintAck (maintDdr i.ddrX false false true true) AREF_WAIT_REF
  | 3 => c.offer maintAck (maintWait i.trfc) MAINT_FIN
  | 10 => { c with maintInstr := maintEnd, autorefProcessNs := false, autorefAck := true }
  | _ => c

/-- Processing maintenance. -/
def process (c : Comb) : Comb :=
  if h.maintProcess then
    if h.prRdProcessR then h.prRdCase i maintAck c
    else if h.zqProcessR then h.zqCase i maintAck c
    else if h.autorefProcessR then h.autorefCase i maintAck c
    else c
  else c

/-- The combinational block. An acknowledged read releases the lock and
drops a periodic read, in any state. -/
def comb : Comb :=
  let c := h.process i maintAck (h.enter i h.defaults)
  if i.prRdAck then { c with lockPrRdNs := false, prRdProcessNs := false } else c

/-- The instruction on offer, which does not depend on `maint_ack`. -/
def maintInstr : Instr := (h.comb i false).maintInstr

/-- The clock edge. The process flags have no reset. -/
def next (rst : Bool) : MaintHandler :=
  let c := h.comb i maintAck
  { prRdProcessR := c.prRdProcessNs
    zqProcessR := c.zqProcessNs
    autorefProcessR := c.autorefProcessNs
    lockPrRdR := if rst then false else c.lockPrRdNs
    maintState := if rst then 0 else c.maintStateNs
    curBusDirR := if rst then BUS_DIR_READ else c.curBusDirNs }

end MaintHandler

end SoftMC
