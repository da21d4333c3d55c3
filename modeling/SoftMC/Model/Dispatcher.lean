import SoftMC.Model.Instr
/-!
# `instr_dispatcher` and `instr_decoder`

The dispatcher issues up to two instructions a cycle, one for each DRAM
cycle of the PHY's clock: slot `0` from one input queue and slot `1` from
the other, the roles exchanged by `instr_src_r`. Its combinational block
assigns defaults, then slot `0`'s effects, then slot `1`'s; the model
threads one record of signals through the three, as the block's
assignments do.
-/

namespace SoftMC

/-! ## `instr_decoder` -/

/-- The command pins of one slot; an address the decoder leaves at `x` is
`none`. -/
structure DfiCmd where
  csN : Bool
  rasN : Bool
  casN : Bool
  weN : Bool
  bank : Option (BitVec BANK_WIDTH)
  address : Option (BitVec ROW_WIDTH)
  deriving DecidableEq, Repr

/-- The pins of a slot that issues no command. -/
def DfiCmd.deselect : DfiCmd :=
  { csN := true, rasN := true, casN := true, weN := true, bank := none, address := none }

/-- `instr_decoder`. -/
def instrDecoder (en : Bool) (instr : Instr) : DfiCmd :=
  if en then
    { csN := csBit instr, rasN := rasBit instr, casN := casBit instr, weN := weBit instr,
      bank := some (instr.extractLsb' ROW_OFFSET BANK_WIDTH),
      address := some (instr.extractLsb' 0 ROW_WIDTH) }
  else DfiCmd.deselect

/-! ## Registers and inputs -/

/-- The registers of `instr_dispatcher`. -/
structure Dispatcher where
  waitCyclesR : BitVec 10
  readBurstR : Bool
  readBurstEvenR : Bool
  readBurstOddR : Bool
  writeBurstR : Bool
  writeBurstDataR : BitVec 8
  busWriteR : Bool
  prRdAckR : Bool
  instrSrcR : Bool
  cke0R : Bool
  cke1R : Bool
  arefSetInterval : Bool
  arefInterval : BitVec 28
  arefSetTrfc : Bool
  arefTrfc : BitVec 28
  deriving DecidableEq, Repr

namespace Dispatcher

/-- The registers after reset. -/
def reset : Dispatcher where
  waitCyclesR := 0
  readBurstR := false
  readBurstEvenR := false
  readBurstOddR := false
  writeBurstR := false
  writeBurstDataR := 0
  busWriteR := false
  prRdAckR := false
  instrSrcR := false
  cke0R := true
  cke1R := true
  arefSetInterval := false
  arefInterval := 0
  arefSetTrfc := false
  arefTrfc := 0

/-- The inputs of one cycle. -/
structure In where
  periodicReadLock : Bool
  enIn0 : Bool
  instrIn0 : Instr
  enIn1 : Bool
  instrIn1 : Instr
  dfiReady : Bool
  deriving DecidableEq, Repr

section Wires

variable (s : Dispatcher) (i : In)

/-- The input queue each slot reads, by `instr_src_r`. -/
def en0 : Bool := if s.instrSrcR then i.enIn1 else i.enIn0
def instr0 : Instr := if s.instrSrcR then i.instrIn1 else i.instrIn0
def en1 : Bool := if s.instrSrcR then i.enIn0 else i.enIn1
def instr1 : Instr := if s.instrSrcR then i.instrIn0 else i.instrIn1

end Wires

/-! ## The combinational block -/

/-- The signals the block assigns. -/
structure Comb where
  ioConfigStrobe : Bool
  ioConfig : BitVec 2
  busWrite : Bool
  instrSrcNs : Bool
  ack0 : Bool
  ack1 : Bool
  dec0En : Bool
  dec1En : Bool
  readBurstNs : Bool
  readBurstEvenNs : Bool
  readBurstOddNs : Bool
  writeBurstNs : Bool
  writeBurstDataNs : BitVec 8
  dfiRddataEn : Bool
  dfiRddataEnEven : Bool
  dfiRddataEnOdd : Bool
  dfiWrdataEn : Bool
  prRdAckNs : Bool
  arefSetIntervalNs : Bool
  arefIntervalNs : BitVec 28
  arefSetTrfcNs : Bool
  arefTrfcNs : BitVec 28
  waitCyclesNs : BitVec 10
  loadCounter : Bool
  blockOtherSlot : Bool
  cke0 : Bool
  cke1 : Bool
  deriving DecidableEq, Repr

/-- The defaults. Values the source leaves at `x` are never read while
their strobe is low and stand at zero here. -/
def defaults (s : Dispatcher) (i : In) : Comb where
  ioConfigStrobe := false
  ioConfig := 0
  busWrite := s.busWriteR
  instrSrcNs := if !(i.enIn0 || i.enIn1) then false else s.instrSrcR
  ack0 := true
  ack1 := true
  dec0En := false
  dec1En := false
  readBurstNs := false
  readBurstEvenNs := false
  readBurstOddNs := false
  writeBurstNs := false
  writeBurstDataNs := s.writeBurstDataR
  dfiRddataEn := s.readBurstR
  dfiRddataEnEven := s.readBurstEvenR
  dfiRddataEnOdd := s.readBurstOddR
  dfiWrdataEn := s.writeBurstR
  prRdAckNs := false
  arefSetIntervalNs := false
  arefIntervalNs := 0
  arefSetTrfcNs := false
  arefTrfcNs := 0
  waitCyclesNs := 0
  loadCounter := false
  blockOtherSlot := false
  cke0 := s.cke0R
  cke1 := s.cke1R

namespace Comb

variable (c : Comb)

/-- The arms both slots share. -/
def setBusdir (instr : Instr) : Comb :=
  { c with ioConfigStrobe := true, ioConfig := busDir instr,
           busWrite := decide (busDir instr = BUS_DIR_WRITE) }

def setTrefi (instr : Instr) : Comb :=
  { c with arefSetIntervalNs := true, arefIntervalNs := configValue instr }

def setTrfc (instr : Instr) : Comb :=
  { c with arefSetTrfcNs := true, arefTrfcNs := configValue instr }

/-- A write found in either slot. -/
def write (instr : Instr) : Comb :=
  { c with dfiWrdataEn := true, writeBurstNs := true, writeBurstDataNs := wrPattern instr }

/-- A read found in slot `1`: no even tag. -/
def read1 (periodicReadLock : Bool) : Comb :=
  { c with dfiRddataEn := true, readBurstNs := true, dfiRddataEnOdd := periodicReadLock,
           readBurstOddNs := periodicReadLock, prRdAckNs := true }

/-- A read found in slot `0`. -/
def read0 (periodicReadLock : Bool) : Comb :=
  { c.read1 periodicReadLock with dfiRddataEnEven := true, readBurstEvenNs := true }

end Comb

/-- Slot `0`'s `DDR_INSTR` arm. -/
def ddr0 (s : Dispatcher) (i : In) (instr : Instr) (c : Comb) : Comb :=
  let c := { c with dec0En := true, cke0 := ckeBit instr }
  let c := if readPins instr && c.cke0 && s.cke0R then c.read0 i.periodicReadLock else c
  if writePins instr && c.cke0 && s.cke0R then c.write instr else c

/-- Slot `1`'s `DDR_INSTR` arm. -/
def ddr1 (s : Dispatcher) (i : In) (instr : Instr) (c : Comb) : Comb :=
  let c := { c with dec1En := true, cke1 := ckeBit instr }
  let c := if readPins instr && c.cke1 && s.cke1R then c.read1 i.periodicReadLock else c
  if writePins instr && c.cke1 && s.cke1R then c.write instr else c

/-- Slot `0`'s `WAIT` arm: one less for the second slot. -/
def wait0 (s : Dispatcher) (instr : Instr) (c : Comb) : Comb :=
  { c with
    loadCounter := true
    waitCyclesNs := waitCount instr - 1#10
    blockOtherSlot := if waitCount instr > 1#10 then true else c.blockOtherSlot
    instrSrcNs := if !instr.getLsbD 0 then !s.instrSrcR else c.instrSrcNs }

/-- Slot `1`'s `WAIT` arm. -/
def wait1 (s : Dispatcher) (instr : Instr) (c : Comb) : Comb :=
  { c with
    waitCyclesNs := waitCount instr
    loadCounter := true
    instrSrcNs := if !instr.getLsbD 0 then !s.instrSrcR else c.instrSrcNs }

/-- Slot `0`'s `casex`. -/
def arm0 (s : Dispatcher) (i : In) (instr : Instr) (c : Comb) : Comb :=
  match opcode instr with
  | .setBusdir => c.setBusdir instr
  | .ddr => s.ddr0 i instr c
  | .wait => s.wait0 instr c
  | .setTrefi => c.setTrefi instr
  | .setTrfc => c.setTrfc instr
  | .endIseq | .reserved => c

/-- Slot `1`'s `casex`. -/
def arm1 (s : Dispatcher) (i : In) (instr : Instr) (c : Comb) : Comb :=
  match opcode instr with
  | .setBusdir => c.setBusdir instr
  | .ddr => s.ddr1 i instr c
  | .wait => s.wait1 instr c
  | .setTrefi => c.setTrefi instr
  | .setTrfc => c.setTrfc instr
  | .endIseq | .reserved => c

/-- Slot `0` of the block. -/
def slot0 (s : Dispatcher) (i : In) (c : Comb) : Comb :=
  if i.dfiReady && decide (s.waitCyclesR ≤ 1#10) then
    if s.en0 i then s.arm0 i (s.instr0 i) c else c
  else { c with ack0 := false }

/-- Slot `1` of the block. -/
def slot1 (s : Dispatcher) (i : In) (c : Comb) : Comb :=
  if !(s.en0 i && c.blockOtherSlot) && i.dfiReady && decide (s.waitCyclesR ≤ 2#10) then
    if s.en1 i then s.arm1 i (s.instr1 i) c else c
  else { c with ack1 := false }

/-- The whole block. -/
def comb (s : Dispatcher) (i : In) : Comb := s.slot1 i (s.slot0 i (s.defaults i))

/-! ## What is issued -/

/-- The instruction slot `0` acts on in the cycle, if it reaches its
`casex`. -/
def issue0 (s : Dispatcher) (i : In) : Option Instr :=
  if i.dfiReady && decide (s.waitCyclesR ≤ 1#10) && s.en0 i then some (s.instr0 i) else none

/-- And slot `1`. -/
def issue1 (s : Dispatcher) (i : In) : Option Instr :=
  if !(s.en0 i && (s.slot0 i (s.defaults i)).blockOtherSlot) && i.dfiReady &&
      decide (s.waitCyclesR ≤ 2#10) && s.en1 i then
    some (s.instr1 i)
  else none

/-! ## Outputs and the clock edge -/

/-- The acknowledgments, crossed by `instr_src_r`. -/
def enAck0 (s : Dispatcher) (i : In) : Bool :=
  if s.instrSrcR then (s.comb i).ack1 else (s.comb i).ack0

def enAck1 (s : Dispatcher) (i : In) : Bool :=
  if s.instrSrcR then (s.comb i).ack0 else (s.comb i).ack1

/-- The DFI command of each slot. -/
def dfiCmd0 (s : Dispatcher) (i : In) : DfiCmd := instrDecoder (s.comb i).dec0En (s.instr0 i)
def dfiCmd1 (s : Dispatcher) (i : In) : DfiCmd := instrDecoder (s.comb i).dec1En (s.instr1 i)

/-- One of the 32 equal bytes of `dfi_wrdata`. -/
def dfiWrdata (s : Dispatcher) (i : In) : BitVec 8 :=
  if (s.dfiCmd0 i).casN then s.writeBurstDataR else (s.comb i).writeBurstDataNs

abbrev dfiOdt (s : Dispatcher) : Bool := s.busWriteR
abbrev prRdAck (s : Dispatcher) : Bool := s.prRdAckR

/-- The counter, saturating at zero. -/
def waitCyclesNext (s : Dispatcher) (c : Comb) : BitVec 10 :=
  if c.loadCounter then c.waitCyclesNs
  else if s.waitCyclesR.extractLsb' 1 9 ≠ 0#9 then s.waitCyclesR - 2#10
  else 0

/-- The clock edge. `pr_rd_ack_r` has no reset. -/
def next (rst : Bool) (s : Dispatcher) (i : In) : Dispatcher :=
  let c := s.comb i
  if rst then { reset with prRdAckR := c.prRdAckNs }
  else
    { waitCyclesR := s.waitCyclesNext c
      readBurstR := c.readBurstNs
      readBurstEvenR := c.readBurstEvenNs
      readBurstOddR := c.readBurstOddNs
      writeBurstR := c.writeBurstNs
      writeBurstDataR := c.writeBurstDataNs
      busWriteR := c.busWrite
      prRdAckR := c.prRdAckNs
      instrSrcR := c.instrSrcNs
      cke0R := c.cke0
      cke1R := c.cke1
      arefSetInterval := c.arefSetIntervalNs
      arefInterval := c.arefIntervalNs
      arefSetTrfc := c.arefSetTrfcNs
      arefTrfc := c.arefTrfcNs }

end Dispatcher

end SoftMC
