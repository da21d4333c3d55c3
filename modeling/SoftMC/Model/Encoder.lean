import SoftMC.Model.Instr
/-!
# The encoder of `softmc.cpp`

Each function of the API assembles an instruction in a 64-bit value by
shifts relative to what is there already; the offsets are those of
`softmc.h`. A failed assertion gives no instruction.
-/

namespace SoftMC

/-- `Instruction`, a `uint64_t`. -/
abbrev Instruction := BitVec 64

/-- `uint`, a `uint32_t`. -/
abbrev UInt := BitVec 32

/-! ## The offsets and enumerations of `softmc.h` -/

namespace Encoder

abbrev BANK_OFFSET : ℕ := 3
abbrev ROW_OFFSET : ℕ := 16
abbrev CMD_OFFSET : ℕ := 4
abbrev COL_OFFSET : ℕ := 10
abbrev SIGNAL_OFFSET : ℕ := 6

inductive InstrType
  | endOfInstrs
  | setBusDir
  | wait
  | ddr
  deriving DecidableEq, Repr

def InstrType.toUInt : InstrType → UInt
  | .endOfInstrs => 0#32
  | .setBusDir => 1#32
  | .wait => 4#32
  | .ddr => 8#32

inductive Busdir
  | read
  | write
  deriving DecidableEq, Repr

def Busdir.toUInt : Busdir → UInt
  | .read => 0#32
  | .write => 2#32

inductive AutoPrecharge
  | noAP
  | AP
  deriving DecidableEq, Repr

inductive PreType
  | single
  | all
  deriving DecidableEq, Repr

inductive BurstLength
  | chop
  | fixed
  deriving DecidableEq, Repr

inductive Register
  | trefi
  | trfc
  deriving DecidableEq, Repr

def Register.toUInt : Register → UInt
  | .trefi => 2#32
  | .trfc => 3#32

/-! ## The generators -/

/-- `CKE(1) CS(0) RAS(0) CAS(1) WE_ACT(1)`. -/
def genACT (bank row : UInt) : Instruction :=
  let instr := InstrType.ddr.toUInt.setWidth 64
  let instr := instr <<< (32 - CMD_OFFSET - BANK_OFFSET - ROW_OFFSET) ||| 0x23#64
  let instr := instr <<< BANK_OFFSET ||| bank.setWidth 64
  instr <<< ROW_OFFSET ||| row.setWidth 64

/-- `CKE(1) CS(0) RAS(0) CAS(1) WE_PRE(0)`; a precharge of all banks has
no bank. -/
def genPRE (bank : UInt) (pc : PreType) : Instruction :=
  let instr := InstrType.ddr.toUInt.setWidth 64
  let instr := instr <<< (32 - CMD_OFFSET - BANK_OFFSET - ROW_OFFSET) ||| 0x22#64
  match pc with
  | .all => (instr <<< (BANK_OFFSET + ROW_OFFSET - COL_OFFSET) ||| 0x1#64) <<< COL_OFFSET
  | .single => (instr <<< BANK_OFFSET ||| bank.setWidth 64) <<< ROW_OFFSET

/-- `CKE(1) CS(0) RAS(1) CAS(0) WE(0)`, the pattern around the address. -/
def genWR (bank col : UInt) (pattern : BitVec 8) (ap : AutoPrecharge) (bl : BurstLength) :
    Instruction :=
  let instr := InstrType.ddr.toUInt.setWidth 64
  let instr := instr <<< (32 - SIGNAL_OFFSET - BANK_OFFSET - ROW_OFFSET - CMD_OFFSET) |||
    pattern.setWidth 64 >>> 2
  let instr := instr <<< SIGNAL_OFFSET ||| 0x24#64
  let instr := instr <<< BANK_OFFSET ||| bank.setWidth 64
  let instr := instr <<< 2 ||| (pattern.setWidth 64 &&& 0x3#64)
  let instr := instr <<< 2
  let instr := if bl = .fixed then instr ||| 0x1#64 else instr
  let instr := instr <<< 2
  let instr := if ap = .AP then instr ||| 0x1#64 else instr
  instr <<< COL_OFFSET ||| col.setWidth 64

/-- `CKE(1) CS(0) RAS(1) CAS(0) WE(1)`. -/
def genRD (bank col : UInt) (ap : AutoPrecharge) (bl : BurstLength) : Instruction :=
  let instr := 0x25#64
  let instr := instr <<< BANK_OFFSET ||| bank.setWidth 64
  let instr := instr <<< 4
  let instr := if bl = .fixed then instr ||| 0x1#64 else instr
  let instr := instr <<< 2
  let instr := if ap = .AP then instr ||| 0x1#64 else instr
  let instr := instr <<< COL_OFFSET ||| col.setWidth 64
  let instr2 := InstrType.ddr.toUInt.setWidth 64
  instr2 <<< 28 ||| instr

/-- At least one cycle, and no more than the hardware's counter holds. -/
def genWAIT (cycles : UInt) : Option Instruction :=
  if cycles ≥ 1 ∧ cycles ≤ 1023 then
    let instr := InstrType.wait.toUInt.setWidth 64
    some (instr <<< 28 ||| cycles.setWidth 64)
  else none

def genBUSDIR (dir : Busdir) : Instruction :=
  let instr := InstrType.setBusDir.toUInt.setWidth 64
  instr <<< 28 ||| dir.toUInt.setWidth 64

def genEND : Instruction := (InstrType.endOfInstrs.toUInt <<< 28).setWidth 64

/-- `CKE(1) CS(0) RAS(1) CAS(1) WE(0)`. -/
def genZQ : Instruction :=
  let instr := InstrType.ddr.toUInt.setWidth 64
  let instr := instr <<< (32 - CMD_OFFSET - BANK_OFFSET - ROW_OFFSET) ||| 0x26#64
  instr <<< (BANK_OFFSET + ROW_OFFSET)

/-- `CKE(1) CS(0) RAS(0) CAS(0) WE(1)`. -/
def genREF : Instruction :=
  let instr := InstrType.ddr.toUInt.setWidth 64
  let instr := instr <<< (32 - CMD_OFFSET - BANK_OFFSET - ROW_OFFSET) ||| 0x21#64
  instr <<< (BANK_OFFSET + ROW_OFFSET)

def genREF_CONFIG (val : UInt) (r : Register) : Option Instruction :=
  if val < 0x10000000 then
    let instr := r.toUInt.setWidth 64
    some (instr <<< 28 ||| val.setWidth 64)
  else none

end Encoder

end SoftMC
