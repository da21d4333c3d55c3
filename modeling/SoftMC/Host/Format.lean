import SoftMC.Model.Encoder
import SoftMC.Dispatch.Slots
/-!
# The encoder and the decoder agree

`softmc.cpp` assembles an instruction by relative shifts, the hardware
takes it apart at absolute positions. Between the two stand the layouts:
every generator fills one of two, and the decoder reads the fields of each
back.
-/

namespace SoftMC

open Dispatcher Encoder

/-! ## The layouts -/

/-- A DDR instruction: the pattern's upper bits, the clock enable and the
pins, the bank and the address. -/
def ddrWord (hi cmd : BitVec 6) (bank : BitVec 3) (addr : BitVec 16) : Instr :=
  1#1 ++ hi ++ cmd ++ bank ++ addr

/-- Any other instruction: an opcode and its operand. -/
def ctrlWord (op : BitVec 4) (val : BitVec 28) : Instr := op ++ val

theorem toNat_ddrWord (hi cmd : BitVec 6) (bank : BitVec 3) (addr : BitVec 16) :
    (ddrWord hi cmd bank addr).toNat =
      2 ^ 31 + hi.toNat * 2 ^ 25 + cmd.toNat * 2 ^ 19 + bank.toNat * 2 ^ 16 + addr.toNat := by
  rw [ddrWord, BitVec.toNat_append, BitVec.toNat_append, BitVec.toNat_append, BitVec.toNat_append,
    ← Nat.shiftLeft_add_eq_or_of_lt hi.isLt, ← Nat.shiftLeft_add_eq_or_of_lt cmd.isLt,
    ← Nat.shiftLeft_add_eq_or_of_lt bank.isLt, ← Nat.shiftLeft_add_eq_or_of_lt addr.isLt]
  simp only [Nat.shiftLeft_eq, BitVec.toNat_ofNat]
  omega

theorem toNat_ctrlWord (op : BitVec 4) (val : BitVec 28) :
    (ctrlWord op val).toNat = op.toNat * 2 ^ 28 + val.toNat := by
  rw [ctrlWord, BitVec.toNat_append, ← Nat.shiftLeft_add_eq_or_of_lt val.isLt, Nat.shiftLeft_eq]

section Fields

variable (hi cmd : BitVec 6) (bank : BitVec 3) (addr : BitVec 16) (op : BitVec 4) (val : BitVec 28)

/-- A field of a word, as a number. -/
theorem toNat_field (w : Instr) (start len : ℕ) :
    (w.extractLsb' start len).toNat = w.toNat / 2 ^ start % 2 ^ len := by
  rw [BitVec.extractLsb'_toNat, Nat.shiftRight_eq_div_pow]

@[simp] theorem opcode_ddrWord : opcode (ddrWord hi cmd bank addr) = .ddr := by
  have h : 8 ≤ ((ddrWord hi cmd bank addr).extractLsb' 28 4).toNat := by
    rw [toNat_field, toNat_ddrWord]
    omega
  unfold opcode
  split <;> first | rfl | omega

/-- The command bits stand from `WE_OFFSET` on. -/
theorem getLsbD_ddrWord {k : ℕ} (hk : k < 6) :
    (ddrWord hi cmd bank addr).getLsbD (19 + k) = cmd.getLsbD k := by
  rw [ddrWord, BitVec.getLsbD_append, if_neg (by omega), BitVec.getLsbD_append, if_neg (by omega),
    BitVec.getLsbD_append, if_pos (by omega)]
  congr 1
  omega

@[simp] theorem weBit_ddrWord : weBit (ddrWord hi cmd bank addr) = cmd.getLsbD 0 :=
  getLsbD_ddrWord (k := 0) hi cmd bank addr (by decide)

@[simp] theorem casBit_ddrWord : casBit (ddrWord hi cmd bank addr) = cmd.getLsbD 1 :=
  getLsbD_ddrWord (k := 1) hi cmd bank addr (by decide)

@[simp] theorem rasBit_ddrWord : rasBit (ddrWord hi cmd bank addr) = cmd.getLsbD 2 :=
  getLsbD_ddrWord (k := 2) hi cmd bank addr (by decide)

@[simp] theorem csBit_ddrWord : csBit (ddrWord hi cmd bank addr) = cmd.getLsbD 3 :=
  getLsbD_ddrWord (k := 3) hi cmd bank addr (by decide)

@[simp] theorem ckeBit_ddrWord : ckeBit (ddrWord hi cmd bank addr) = cmd.getLsbD 5 :=
  getLsbD_ddrWord (k := 5) hi cmd bank addr (by decide)

@[simp] theorem bank_ddrWord :
    (ddrWord hi cmd bank addr).extractLsb' SoftMC.ROW_OFFSET BANK_WIDTH = bank := by
  apply BitVec.eq_of_toNat_eq
  rw [toNat_field, toNat_ddrWord]
  simp only [SoftMC.ROW_OFFSET, BANK_WIDTH]
  omega

@[simp] theorem address_ddrWord :
    (ddrWord hi cmd bank addr).extractLsb' 0 ROW_WIDTH = addr :=
  BitVec.extractLsb'_append_eq_right

@[simp] theorem wrPattern_ddrWord :
    wrPattern (ddrWord hi cmd bank addr) = hi ++ addr.extractLsb' 14 2 := by
  rw [wrPattern]
  congr 1
  · apply BitVec.eq_of_toNat_eq
    rw [toNat_field, toNat_ddrWord]
    omega
  · apply BitVec.eq_of_toNat_eq
    rw [toNat_field, toNat_ddrWord, BitVec.extractLsb'_toNat, Nat.shiftRight_eq_div_pow]
    change (_ / 2 ^ 14) % _ = _
    omega

@[simp] theorem opcodeBits_ctrlWord : (ctrlWord op val).extractLsb' 28 4 = op :=
  BitVec.extractLsb'_append_eq_left

/-- The opcode is the upper nibble. -/
theorem opcode_ctrlWord : opcode (ctrlWord op val) = opcode (ctrlWord op 0#28) := by
  rw [opcode, opcode, opcodeBits_ctrlWord, opcodeBits_ctrlWord]

@[simp] theorem configValue_ctrlWord : configValue (ctrlWord op val) = val :=
  BitVec.extractLsb'_append_eq_right

@[simp] theorem waitCount_ctrlWord : waitCount (ctrlWord op val) = val.setWidth 10 := by
  apply BitVec.eq_of_toNat_eq
  rw [waitCount, toNat_field, toNat_ctrlWord, BitVec.toNat_setWidth]
  omega

end Fields

/-! ## What the generators build -/

/-- **One step of a generator**: a shift, and a field in the bits it has
freed. -/
theorem toNat_push {x y : BitVec 64} {a b : ℕ} (n : ℕ) (hx : x.toNat = a) (hy : y.toNat = b)
    (ha : a * 2 ^ n < 2 ^ 64) (hb : b < 2 ^ n) : (x <<< n ||| y).toNat = a * 2 ^ n + b := by
  rw [BitVec.toNat_or, BitVec.toNat_shiftLeft, hx, hy, Nat.shiftLeft_eq, Nat.mod_eq_of_lt ha,
    ← Nat.shiftLeft_eq, Nat.shiftLeft_add_eq_or_of_lt hb]

theorem toNat_shift {x : BitVec 64} {a : ℕ} (n : ℕ) (hx : x.toNat = a) (ha : a * 2 ^ n < 2 ^ 64) :
    (x <<< n).toNat = a * 2 ^ n := by
  rw [BitVec.toNat_shiftLeft, hx, Nat.shiftLeft_eq, Nat.mod_eq_of_lt ha]

/-- A step that sets a flag, or leaves it. -/
theorem toNat_flag {x : BitVec 64} {a : ℕ} (n : ℕ) (c : Prop) [Decidable c] (hx : x.toNat = a)
    (hn : 1 < 2 ^ n) (ha : a * 2 ^ n < 2 ^ 64) :
    (if c then x <<< n ||| 1#64 else x <<< n).toNat = a * 2 ^ n + if c then 1 else 0 := by
  split
  · exact toNat_push n hx rfl ha hn
  · exact toNat_shift n hx ha

/-- An operand of the API in the 64-bit value. -/
theorem toNat_uint (x : UInt) : (x.setWidth 64).toNat = x.toNat :=
  BitVec.toNat_setWidth_of_le (by decide)

theorem toNat_ddr : (InstrType.ddr.toUInt.setWidth 64).toNat = 8 := rfl

/-- A value that stands for an instruction word. -/
theorem eq_setWidth {i : Instruction} {w : Instr} (h : i.toNat = w.toNat) : i = w.setWidth 64 :=
  BitVec.eq_of_toNat_eq (h.trans (BitVec.toNat_setWidth_of_le (by decide)).symm)

variable {bank row col : UInt} {pattern : BitVec 8} {ap : AutoPrecharge} {bl : BurstLength}

theorem genACT_eq (hb : bank.toNat < 8) (hr : row.toNat < 2 ^ 16) :
    genACT bank row = (ddrWord 0#6 0x23#6 (bank.setWidth 3) (row.setWidth 16)).setWidth 64 := by
  have h1 := toNat_push (b := 0x23) (y := 0x23#64) 9 toNat_ddr rfl (by decide) (by decide)
  have h2 := toNat_push 3 h1 (toNat_uint bank) (by decide) (by omega)
  have h3 := toNat_push 16 h2 (toNat_uint row) (by omega) (by omega)
  refine eq_setWidth (h3.trans ?_)
  rw [toNat_ddrWord]
  simp only [BitVec.toNat_setWidth, BitVec.toNat_ofNat]
  omega

theorem genPRE_single_eq (hb : bank.toNat < 8) :
    genPRE bank .single = (ddrWord 0#6 0x22#6 (bank.setWidth 3) 0#16).setWidth 64 := by
  have h1 := toNat_push (b := 0x22) (y := 0x22#64) 9 toNat_ddr rfl (by decide) (by decide)
  have h2 := toNat_push 3 h1 (toNat_uint bank) (by decide) (by omega)
  have h3 := toNat_shift 16 h2 (by omega)
  refine eq_setWidth (h3.trans ?_)
  rw [toNat_ddrWord]
  simp only [BitVec.toNat_setWidth, BitVec.toNat_ofNat]
  omega

theorem genPRE_all_eq : genPRE bank .all = (ddrWord 0#6 0x22#6 0#3 0x400#16).setWidth 64 :=
  eq_setWidth rfl

/-- The flags of a column command: burst length and auto-precharge. -/
def flags (ap : AutoPrecharge) (bl : BurstLength) : ℕ :=
  (if bl = .fixed then 1 else 0) * 2 ^ 12 + (if ap = .AP then 1 else 0) * 2 ^ 10

theorem genWR_eq (hb : bank.toNat < 8) (hc : col.toNat < 1024) :
    genWR bank col pattern ap bl =
      (ddrWord (.ofNat 6 (pattern.toNat / 4)) 0x24#6 (bank.setWidth 3)
        (.ofNat 16 (pattern.toNat % 4 * 2 ^ 14 + flags ap bl + col.toNat))).setWidth 64 := by
  have hhi : (pattern.setWidth 64 >>> 2).toNat = pattern.toNat / 4 := by
    rw [BitVec.toNat_ushiftRight, BitVec.toNat_setWidth_of_le (by decide),
      Nat.shiftRight_eq_div_pow]
  have hlo : (pattern.setWidth 64 &&& 0x3#64).toNat = pattern.toNat % 4 := by
    rw [BitVec.toNat_and, BitVec.toNat_setWidth_of_le (by decide)]
    exact Nat.and_two_pow_sub_one_eq_mod _ 2
  have hpat := pattern.isLt
  have hbl : (if bl = .fixed then 1 else 0) < 2 := by split <;> decide
  have hap : (if ap = .AP then 1 else 0) < 2 := by split <;> decide
  -- the opcode's own zeros make room for the upper bits of the pattern
  have hddr : InstrType.ddr.toUInt.setWidth 64 <<< 3 = 1#64 <<< 6 := by decide
  have h1 := toNat_push (a := 1) (x := 1#64) 6 rfl hhi (by decide) (by omega)
  rw [← hddr] at h1
  have h2 := toNat_push (b := 0x24) (y := 0x24#64) 6 h1 rfl (by omega) (by decide)
  have h3 := toNat_push 3 h2 (toNat_uint bank) (by omega) (by omega)
  have h4 := toNat_push 2 h3 hlo (by omega) (by omega)
  have h5 := toNat_flag 2 (bl = .fixed) h4 (by decide) (by omega)
  have h6 := toNat_flag 2 (ap = .AP) h5 (by decide) (by omega)
  have h7 := toNat_push 10 h6 (toNat_uint col) (by omega) (by omega)
  refine eq_setWidth (h7.trans ?_)
  rw [toNat_ddrWord, flags]
  simp only [BitVec.toNat_setWidth, BitVec.toNat_ofNat]
  omega

theorem genRD_eq (hb : bank.toNat < 8) (hc : col.toNat < 1024) :
    genRD bank col ap bl =
      (ddrWord 0#6 0x25#6 (bank.setWidth 3) (.ofNat 16 (flags ap bl + col.toNat))).setWidth 64 := by
  have hbl : (if bl = .fixed then 1 else 0) < 2 := by split <;> decide
  have hap : (if ap = .AP then 1 else 0) < 2 := by split <;> decide
  have h1 := toNat_push (a := 0x25) (x := 0x25#64) 3 rfl (toNat_uint bank) (by decide) (by omega)
  have h2 := toNat_flag 4 (bl = .fixed) h1 (by decide) (by omega)
  have h3 := toNat_flag 2 (ap = .AP) h2 (by decide) (by omega)
  have h4 := toNat_push 10 h3 (toNat_uint col) (by omega) (by omega)
  have h5 := toNat_push 28 toNat_ddr h4 (by decide) (by omega)
  refine eq_setWidth (h5.trans ?_)
  rw [toNat_ddrWord, flags]
  simp only [BitVec.toNat_setWidth, BitVec.toNat_ofNat]
  omega

theorem genZQ_eq : genZQ = (ddrWord 0#6 0x26#6 0#3 0#16).setWidth 64 := eq_setWidth rfl

theorem genREF_eq : genREF = (ddrWord 0#6 0x21#6 0#3 0#16).setWidth 64 := eq_setWidth rfl

theorem genEND_eq : genEND = (ctrlWord 0#4 0#28).setWidth 64 := eq_setWidth rfl

theorem genBUSDIR_eq (dir : Busdir) :
    genBUSDIR dir = (ctrlWord 1#4 (dir.toUInt.setWidth 28)).setWidth 64 := by
  cases dir <;> exact eq_setWidth rfl

theorem genWAIT_eq {cycles : UInt} (h1 : 1 ≤ cycles.toNat) (h2 : cycles.toNat ≤ 1023) :
    genWAIT cycles = some ((ctrlWord 4#4 (cycles.setWidth 28)).setWidth 64) := by
  have hassert : cycles ≥ 1 ∧ cycles ≤ 1023 := ⟨BitVec.le_def.2 h1, BitVec.le_def.2 h2⟩
  rw [genWAIT, if_pos hassert]
  refine congrArg some (eq_setWidth ?_)
  have h := toNat_push (a := 4) (x := InstrType.wait.toUInt.setWidth 64) 28 rfl (toNat_uint cycles)
    (by decide) (by omega)
  refine h.trans ?_
  rw [toNat_ctrlWord]
  simp only [BitVec.toNat_setWidth, BitVec.toNat_ofNat]
  omega

theorem genREF_CONFIG_eq {val : UInt} (h : val.toNat < 2 ^ 28) (r : Register) :
    genREF_CONFIG val r =
      some ((ctrlWord (r.toUInt.setWidth 4) (val.setWidth 28)).setWidth 64) := by
  have hassert : val < 0x10000000 := BitVec.lt_def.2 h
  rw [genREF_CONFIG, if_pos hassert]
  refine congrArg some (eq_setWidth ?_)
  have hr : (r.toUInt.setWidth 64).toNat = r.toUInt.toNat := toNat_uint _
  have hr' : r.toUInt.toNat < 16 := by cases r <;> decide
  refine (toNat_push 28 hr (toNat_uint val) (by omega) h).trans ?_
  rw [toNat_ctrlWord]
  simp only [BitVec.toNat_setWidth]
  omega

/-! ## What the hardware makes of a word -/

/-- The DDR3 commands a slot can drive. -/
inductive DramCmd
  | activate (bank : BitVec BANK_WIDTH) (row : BitVec ROW_WIDTH)
  | precharge (bank : BitVec BANK_WIDTH)
  | prechargeAll
  | write (bank : BitVec BANK_WIDTH) (col : BitVec 10) (autoPrecharge burst8 : Bool)
  | read (bank : BitVec BANK_WIDTH) (col : BitVec 10) (autoPrecharge burst8 : Bool)
  | zqShort
  | zqLong
  | refresh
  | modeRegister (bank : BitVec BANK_WIDTH) (op : BitVec ROW_WIDTH)
  | nop
  deriving DecidableEq, Repr

/-- The truth table of the command pins, `A10` and `A12` being flags. -/
def DfiCmd.dramCmd (c : DfiCmd) : Option DramCmd :=
  match c.csN, c.bank, c.address with
  | false, some bank, some a =>
    some <| match c.rasN, c.casN, c.weN with
      | false, true, true => .activate bank a
      | false, true, false => if a.getLsbD 10 then .prechargeAll else .precharge bank
      | true, false, false => .write bank (a.extractLsb' 0 10) (a.getLsbD 10) (a.getLsbD 12)
      | true, false, true => .read bank (a.extractLsb' 0 10) (a.getLsbD 10) (a.getLsbD 12)
      | true, true, false => if a.getLsbD 10 then .zqLong else .zqShort
      | false, false, true => .refresh
      | false, false, false => .modeRegister bank a
      | true, true, true => .nop
  | _, _, _ => none

/-- What an instruction makes the hardware do. A write comes with its
pattern. -/
inductive Action
  | ddr (cke : Bool) (cmd : DramCmd) (pattern : Option (BitVec 8))
  | setBusdir (dir : BitVec 2)
  | wait (cycles : BitVec 10)
  | setTrefi (val : BitVec 28)
  | setTrfc (val : BitVec 28)
  | endIseq
  deriving DecidableEq, Repr

/-- The word decoded: `casex` on the opcode, `instr_decoder` on a DDR
instruction, and the fields of the others. -/
def decode (instr : Instr) : Option Action :=
  match opcode instr with
  | .ddr => (instrDecoder true instr).dramCmd.map fun cmd =>
      .ddr (ckeBit instr) cmd (if isWrite instr then some (wrPattern instr) else none)
  | .setBusdir => some (.setBusdir (busDir instr))
  | .wait => some (.wait (waitCount instr))
  | .setTrefi => some (.setTrefi (configValue instr))
  | .setTrfc => some (.setTrfc (configValue instr))
  | .endIseq => some .endIseq
  | .reserved => none

/-- The instruction a value of the API arrives as. -/
def Instruction.word (i : Instruction) : Instr := i.setWidth 32

/-! ## The calls of the API -/

/-- A call of a generator. -/
inductive Call
  | act (bank row : UInt)
  | pre (bank : UInt) (pc : PreType)
  | wr (bank col : UInt) (pattern : BitVec 8) (ap : AutoPrecharge) (bl : BurstLength)
  | rd (bank col : UInt) (ap : AutoPrecharge) (bl : BurstLength)
  | wait (cycles : UInt)
  | busdir (dir : Busdir)
  | endIseq
  | zq
  | ref
  | refConfig (val : UInt) (r : Register)
  deriving DecidableEq, Repr

namespace Call

/-- The operands the API admits. -/
def Valid : Call → Prop
  | act bank row => bank.toNat < 8 ∧ row.toNat < 2 ^ 16
  | pre bank _ => bank.toNat < 8
  | wr bank col _ _ _ | rd bank col _ _ => bank.toNat < 8 ∧ col.toNat < 1024
  | wait cycles => 1 ≤ cycles.toNat ∧ cycles.toNat ≤ 1023
  | refConfig val _ => val.toNat < 2 ^ 28
  | busdir _ | endIseq | zq | ref => True

/-- The value generated, unless an assertion fails. -/
def gen : Call → Option Instruction
  | act bank row => some (genACT bank row)
  | pre bank pc => some (genPRE bank pc)
  | wr bank col pattern ap bl => some (genWR bank col pattern ap bl)
  | rd bank col ap bl => some (genRD bank col ap bl)
  | wait cycles => genWAIT cycles
  | busdir dir => some (genBUSDIR dir)
  | endIseq => some genEND
  | zq => some genZQ
  | ref => some genREF
  | refConfig val r => genREF_CONFIG val r

/-- What the caller asks for. -/
def intended : Call → Action
  | act bank row => .ddr true (.activate (bank.setWidth _) (row.setWidth _)) none
  | pre bank .single => .ddr true (.precharge (bank.setWidth _)) none
  | pre _ .all => .ddr true .prechargeAll none
  | wr bank col pattern ap bl =>
    .ddr true (.write (bank.setWidth _) (col.setWidth _) (decide (ap = .AP)) (decide (bl = .fixed)))
      (some pattern)
  | rd bank col ap bl =>
    .ddr true (.read (bank.setWidth _) (col.setWidth _) (decide (ap = .AP)) (decide (bl = .fixed)))
      none
  | wait cycles => .wait (cycles.setWidth _)
  | busdir .read => .setBusdir BUS_DIR_READ
  | busdir .write => .setBusdir BUS_DIR_WRITE
  | endIseq => .endIseq
  | zq => .ddr true .zqShort none
  | ref => .ddr true .refresh none
  | refConfig val .trefi => .setTrefi (val.setWidth _)
  | refConfig val .trfc => .setTrfc (val.setWidth _)

/-- The calls that read, and those that write. -/
def isRD : Call → Bool
  | rd _ _ _ _ => true
  | _ => false

def isWR : Call → Bool
  | wr _ _ _ _ _ => true
  | _ => false

/-- **Encoder and decoder agree on a call**: its value fits in a word, and
the word is decoded to what was asked for. -/
structure Agrees (c : Call) (i : Instruction) : Prop where
  fits : i.toNat < 2 ^ 32
  decodes : decode i.word = some c.intended
  /-- END, reads and writes are what the hardware takes for these. -/
  ends : opcode i.word = .endIseq ↔ c = .endIseq
  reads : isRead i.word = c.isRD
  writes : isWrite i.word = c.isWR

end Call

theorem isRead_ddrWord (hi cmd : BitVec 6) (bank : BitVec 3) (addr : BitVec 16) :
    isRead (ddrWord hi cmd bank addr) =
      (!cmd.getLsbD 3 && cmd.getLsbD 2 && !cmd.getLsbD 1 && cmd.getLsbD 0 && cmd.getLsbD 5) := by
  simp [isRead, isDdr, readPins]

theorem isWrite_ddrWord (hi cmd : BitVec 6) (bank : BitVec 3) (addr : BitVec 16) :
    isWrite (ddrWord hi cmd bank addr) =
      (!cmd.getLsbD 3 && cmd.getLsbD 2 && !cmd.getLsbD 1 && !cmd.getLsbD 0 && cmd.getLsbD 5) := by
  simp [isWrite, isDdr, writePins]

theorem word_setWidth (w : Instr) : Instruction.word (w.setWidth 64) = w := by
  rw [Instruction.word]
  exact BitVec.setWidth_setWidth_of_le _ (by decide)

/-- A DDR instruction decoded. -/
theorem decode_ddrWord (hi cmd : BitVec 6) (bank : BitVec 3) (addr : BitVec 16) :
    decode (ddrWord hi cmd bank addr) =
      (DfiCmd.dramCmd { csN := cmd.getLsbD 3, rasN := cmd.getLsbD 2, casN := cmd.getLsbD 1,
                        weN := cmd.getLsbD 0, bank := some bank, address := some addr }).map
        fun c => .ddr (cmd.getLsbD 5) c
          (if isWrite (ddrWord hi cmd bank addr) then some (hi ++ addr.extractLsb' 14 2)
            else none) := by
  rw [decode, opcode_ddrWord, instrDecoder, if_pos rfl, bank_ddrWord, address_ddrWord,
    ckeBit_ddrWord, csBit_ddrWord, rasBit_ddrWord, casBit_ddrWord, weBit_ddrWord,
    wrPattern_ddrWord]

/-! ## The address of a column command -/

section Column

variable (hi : ℕ) {ap : AutoPrecharge} {bl : BurstLength} {col : UInt}

theorem flags_add_lt (ap : AutoPrecharge) (bl : BurstLength) {n : ℕ} (hn : n < 1024) :
    flags ap bl + n < 2 ^ 14 := by
  cases ap <;> cases bl <;> simp only [flags, reduceCtorEq, if_true, if_false] <;> omega

/-- The column stands in `A9:0`. -/
theorem column_address :
    (BitVec.ofNat 16 (hi * 2 ^ 14 + flags ap bl + col.toNat)).extractLsb' 0 10 =
      col.setWidth 10 := by
  apply BitVec.eq_of_toNat_eq
  rw [BitVec.extractLsb'_toNat, BitVec.toNat_ofNat, BitVec.toNat_setWidth, Nat.shiftRight_zero]
  cases ap <;> cases bl <;> simp only [flags, reduceCtorEq, if_true, if_false] <;> omega

/-- `A10` asks for auto-precharge. -/
theorem column_a10 (hc : col.toNat < 1024) :
    (BitVec.ofNat 16 (hi * 2 ^ 14 + flags ap bl + col.toNat)).getLsbD 10 = decide (ap = .AP) := by
  rw [BitVec.getLsbD_ofNat, Nat.testBit_eq_decide_div_mod_eq]
  cases ap <;> cases bl <;> simp only [flags, reduceCtorEq, if_true, if_false] <;> simp <;> omega

/-- `A12` asks for the full burst. -/
theorem column_a12 (hc : col.toNat < 1024) :
    (BitVec.ofNat 16 (hi * 2 ^ 14 + flags ap bl + col.toNat)).getLsbD 12 =
      decide (bl = .fixed) := by
  rw [BitVec.getLsbD_ofNat, Nat.testBit_eq_decide_div_mod_eq]
  cases ap <;> cases bl <;> simp only [flags, reduceCtorEq, if_true, if_false] <;> simp <;> omega

/-- The pattern is put together again. -/
theorem column_pattern (hc : col.toNat < 1024) (pattern : BitVec 8) :
    BitVec.ofNat 6 (pattern.toNat / 4) ++
        (BitVec.ofNat 16 (pattern.toNat % 4 * 2 ^ 14 + flags ap bl + col.toNat)).extractLsb' 14 2 =
      pattern := by
  have hflags := flags_add_lt ap bl hc
  have hpat := pattern.isLt
  apply BitVec.eq_of_toNat_eq
  rw [BitVec.toNat_append, ← Nat.shiftLeft_add_eq_or_of_lt (BitVec.isLt _), BitVec.toNat_ofNat,
    BitVec.extractLsb'_toNat, BitVec.toNat_ofNat, Nat.shiftRight_eq_div_pow, Nat.shiftLeft_eq]
  omega

end Column

namespace Call

/-- A call agrees where its word is decoded to what was asked for. -/
theorem agrees_of_word {c : Call} {w : Instr} (hd : decode w = some c.intended)
    (he : opcode w = .endIseq ↔ c = .endIseq) (hr : isRead w = c.isRD) (hw : isWrite w = c.isWR) :
    c.Agrees (w.setWidth 64) where
  fits := by
    rw [BitVec.toNat_setWidth_of_le (by decide)]
    exact w.isLt
  decodes := by rw [word_setWidth, hd]
  ends := by rw [word_setWidth, he]
  reads := by rw [word_setWidth, hr]
  writes := by rw [word_setWidth, hw]

/-- A call of a DDR instruction reads or writes by its pins. -/
theorem agrees_of_ddr {c : Call} {hi cmd : BitVec 6} {bank : BitVec 3} {addr : BitVec 16}
    (hd : decode (ddrWord hi cmd bank addr) = some c.intended) (hc : c ≠ .endIseq)
    (hr : (!cmd.getLsbD 3 && cmd.getLsbD 2 && !cmd.getLsbD 1 && cmd.getLsbD 0 && cmd.getLsbD 5) =
      c.isRD)
    (hw : (!cmd.getLsbD 3 && cmd.getLsbD 2 && !cmd.getLsbD 1 && !cmd.getLsbD 0 && cmd.getLsbD 5) =
      c.isWR) : c.Agrees ((ddrWord hi cmd bank addr).setWidth 64) :=
  agrees_of_word hd (iff_of_false (by simp) hc) ((isRead_ddrWord _ _ _ _).trans hr)
    ((isWrite_ddrWord _ _ _ _).trans hw)

/-- A call of another opcode than the DDR one neither reads nor writes. -/
theorem agrees_of_ctrl {c : Call} {op : BitVec 4} {val : BitVec 28}
    (hop : opcode (ctrlWord op 0#28) ≠ .ddr) (hd : decode (ctrlWord op val) = some c.intended)
    (he : opcode (ctrlWord op 0#28) = .endIseq ↔ c = .endIseq) (hr : c.isRD = false)
    (hw : c.isWR = false) : c.Agrees ((ctrlWord op val).setWidth 64) := by
  have hddr : isDdr (ctrlWord op val) = false := by
    rw [isDdr, opcode_ctrlWord]
    exact decide_eq_false hop
  refine agrees_of_word hd (by rw [opcode_ctrlWord, he]) ?_ ?_
  · rw [isRead, hddr, hr]
    rfl
  · rw [isWrite, hddr, hw]
    rfl

/-- Generator by generator, what is built is read back. -/
theorem exists_agrees (c : Call) (hc : c.Valid) : ∃ i, c.gen = some i ∧ c.Agrees i := by
  cases c with
  | act bank row =>
    refine ⟨_, congrArg some (genACT_eq hc.1 hc.2), agrees_of_ddr ?_ (by simp) rfl rfl⟩
    simp [decode_ddrWord, DfiCmd.dramCmd, isWrite_ddrWord, intended]
  | pre bank pc =>
    cases pc with
    | single =>
      refine ⟨_, congrArg some (genPRE_single_eq hc), agrees_of_ddr ?_ (by simp) rfl rfl⟩
      simp [decode_ddrWord, DfiCmd.dramCmd, isWrite_ddrWord, intended]
    | all =>
      refine ⟨_, congrArg some genPRE_all_eq, agrees_of_ddr ?_ (by simp) rfl rfl⟩
      simp [decode_ddrWord, DfiCmd.dramCmd, isWrite_ddrWord, intended]
  | wr bank col pattern ap bl =>
    refine ⟨_, congrArg some (genWR_eq hc.1 hc.2), agrees_of_ddr ?_ (by simp) rfl rfl⟩
    rw [decode_ddrWord, isWrite_ddrWord, column_pattern hc.2]
    simp [DfiCmd.dramCmd, intended]
    exact ⟨column_address _, column_a10 _ hc.2, column_a12 _ hc.2⟩
  | rd bank col ap bl =>
    refine ⟨_, congrArg some (genRD_eq hc.1 hc.2), agrees_of_ddr ?_ (by simp) rfl rfl⟩
    -- a column without a pattern over it
    have haddr := @column_address 0 ap bl col
    have ha10 := @column_a10 0 ap bl col hc.2
    have ha12 := @column_a12 0 ap bl col hc.2
    rw [Nat.zero_mul, Nat.zero_add] at haddr ha10 ha12
    rw [decode_ddrWord, isWrite_ddrWord]
    simp [DfiCmd.dramCmd, intended, haddr, ha10, ha12]
  | wait cycles =>
    refine ⟨_, genWAIT_eq hc.1 hc.2,
      agrees_of_ctrl (by decide) ?_ (iff_of_false (by decide) (by simp)) rfl rfl⟩
    have hop : opcode (ctrlWord 4#4 (cycles.setWidth 28)) = .wait := opcode_ctrlWord _ _
    rw [decode, hop, waitCount_ctrlWord, BitVec.setWidth_setWidth_of_le _ (by decide)]
    rfl
  | busdir dir =>
    cases dir <;>
      exact ⟨_, congrArg some (genBUSDIR_eq _),
        agrees_of_ctrl (by decide) (by decide) (by decide) rfl rfl⟩
  | endIseq =>
    exact ⟨_, congrArg some genEND_eq,
      agrees_of_ctrl (by decide) (by decide) (by decide) rfl rfl⟩
  | zq =>
    exact ⟨_, congrArg some genZQ_eq, agrees_of_word (by decide) (by decide) (by decide) (by decide)⟩
  | ref =>
    exact ⟨_, congrArg some genREF_eq,
      agrees_of_word (by decide) (by decide) (by decide) (by decide)⟩
  | refConfig val r =>
    refine ⟨_, genREF_CONFIG_eq hc r, ?_⟩
    cases r with
    | trefi =>
      refine agrees_of_ctrl (by decide) ?_ (iff_of_false (by decide) (by simp)) rfl rfl
      have hop : opcode (ctrlWord 2#4 (val.setWidth 28)) = .setTrefi := opcode_ctrlWord _ _
      change decode (ctrlWord 2#4 (val.setWidth 28)) = _
      rw [decode, hop, configValue_ctrlWord]
      rfl
    | trfc =>
      refine agrees_of_ctrl (by decide) ?_ (iff_of_false (by decide) (by simp)) rfl rfl
      have hop : opcode (ctrlWord 3#4 (val.setWidth 28)) = .setTrfc := opcode_ctrlWord _ _
      change decode (ctrlWord 3#4 (val.setWidth 28)) = _
      rw [decode, hop, configValue_ctrlWord]
      rfl

/-- **The encoder and the decoder agree on the whole format.** -/
theorem agrees (c : Call) (hc : c.Valid) : ∃ i, c.gen = some i ∧ c.Agrees i := exists_agrees c hc

/-- A write of bank 5 with auto-precharge, its pattern split. -/
theorem write_agrees :
    (Call.wr 5#32 1000#32 0xA7#8 .AP .fixed).Valid ∧
      ∃ i, (Call.wr 5#32 1000#32 0xA7#8 .AP .fixed).gen = some i ∧ i = 0xD325D7E8#64 ∧
        (Call.wr 5#32 1000#32 0xA7#8 .AP .fixed).Agrees i := by
  have hvalid : (Call.wr 5#32 1000#32 0xA7#8 .AP .fixed).Valid := ⟨by decide, by decide⟩
  obtain ⟨i, hi, h⟩ := agrees _ hvalid
  refine ⟨hvalid, i, hi, ?_, h⟩
  rw [← Option.some.inj hi]
  decide

end Call

end SoftMC
