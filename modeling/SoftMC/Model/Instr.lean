import Mathlib.Data.BitVec
/-!
# Instruction words

The 32-bit format of `softMC.inc`: an opcode in bits `31:28`, and for a
DDR instruction the pins and address fields at fixed offsets. The format
is the hardware's; the encoder of `softmc.cpp` writes into it.
-/

namespace SoftMC

/-- A word of the instruction queues. -/
abbrev Instr := BitVec 32

/-- The opcodes of `softMC.inc`. `reserved` are the words no `casex` arm
matches and the END comparison rejects. -/
inductive Opcode
  | endIseq
  | setBusdir
  | setTrefi
  | setTrfc
  | wait
  | ddr
  | reserved
  deriving DecidableEq, Repr

/-- Bits `31:28`; `DDR_INSTR` is `4'b1xxx`. -/
def opcode (instr : Instr) : Opcode :=
  match (instr.extractLsb' 28 4).toNat with
  | 0 => .endIseq
  | 1 => .setBusdir
  | 2 => .setTrefi
  | 3 => .setTrfc
  | 4 => .wait
  | 5 => .reserved
  | 6 => .reserved
  | 7 => .reserved
  | _ => .ddr

/-! ## Fields, at the offsets of `softMC.inc` -/

abbrev ROW_OFFSET : ℕ := 16
abbrev WE_OFFSET : ℕ := 19
abbrev CAS_OFFSET : ℕ := 20
abbrev RAS_OFFSET : ℕ := 21
abbrev CS_OFFSET : ℕ := 22
abbrev CKE_OFFSET : ℕ := 24

/-- The widths `softMC_top` instantiates: one rank, so one chip select. -/
abbrev ROW_WIDTH : ℕ := 16
abbrev BANK_WIDTH : ℕ := 3

abbrev weBit (instr : Instr) : Bool := instr.getLsbD WE_OFFSET
abbrev casBit (instr : Instr) : Bool := instr.getLsbD CAS_OFFSET
abbrev rasBit (instr : Instr) : Bool := instr.getLsbD RAS_OFFSET
abbrev csBit (instr : Instr) : Bool := instr.getLsbD CS_OFFSET
abbrev ckeBit (instr : Instr) : Bool := instr.getLsbD CKE_OFFSET

/-- `instr[9:0]`, the count of a WAIT. -/
def waitCount (instr : Instr) : BitVec 10 := instr.extractLsb' 0 10

/-- `instr[27:0]`, the value of SET_TREFI and SET_TRFC. -/
def configValue (instr : Instr) : BitVec 28 := instr.extractLsb' 0 28

/-- `instr[1:0]`, the direction of SET_BUSDIR. -/
def busDir (instr : Instr) : BitVec 2 := instr.extractLsb' 0 2

abbrev BUS_DIR_READ : BitVec 2 := 0b00#2
abbrev BUS_DIR_WRITE : BitVec 2 := 0b10#2

/-- `{instr[30:25], instr[(ROW_OFFSET - 1) -: 2]}`, a write's pattern. -/
def wrPattern (instr : Instr) : BitVec 8 :=
  instr.extractLsb' 25 6 ++ instr.extractLsb' (ROW_OFFSET - 2) 2

/-- The pins of a read: `cs` and `cas` low, `ras` and `we` high. -/
def readPins (instr : Instr) : Bool :=
  !csBit instr && rasBit instr && !casBit instr && weBit instr

/-- The pins of a write: `we` low as well. -/
def writePins (instr : Instr) : Bool :=
  !csBit instr && rasBit instr && !casBit instr && !weBit instr

/-- The distance a WAIT asks for, in DRAM cycles; the hardware reads ten
bits of it. -/
def waitOf (instr : Instr) : Option ℕ :=
  if opcode instr = .wait then some (waitCount instr).toNat else none

theorem waitOf_of_wait {instr : Instr} (h : opcode instr = .wait) :
    waitOf instr = some (waitCount instr).toNat := if_pos h

theorem waitOf_of_ne {instr : Instr} (h : opcode instr ≠ .wait) : waitOf instr = none := if_neg h

theorem waitOf_lt {instr : Instr} {n : ℕ} (h : waitOf instr = some n) : n < 1024 := by
  unfold waitOf at h
  split at h
  · simp only [Option.some.injEq] at h
    exact h ▸ (waitCount instr).isLt
  · cases h

end SoftMC
