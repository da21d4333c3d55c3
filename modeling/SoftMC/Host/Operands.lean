import SoftMC.Host.Format
/-!
# Operands that do not fit

The generators for DDR commands mask nothing and assert nothing: the bits
of an operand above its field are or-ed into the fields and the command
bits above. What they do there depends on where they fall, for each
command on its own list of bits.
-/

namespace SoftMC

open Dispatcher Encoder

/-! ## A word with operands or-ed in -/

/-- The bank and a row or column, or-ed into a word at their places. -/
def spill (w : Instr) (bank x : UInt) : Instr := w ||| bank <<< 16 ||| x

theorem word_or (i j : Instruction) : (i ||| j).word = i.word ||| j.word := BitVec.setWidth_or

theorem word_uint (x : UInt) : Instruction.word (x.setWidth 64) = x := word_setWidth x

theorem word_shiftLeft (i : Instruction) (n : ℕ) :
    Instruction.word (i <<< n) = i.word <<< n :=
  BitVec.setWidth_shiftLeft_of_le (by decide : 32 ≤ 64)

/-- **One step of a generator**, with a part that is or-ed in apart. -/
theorem step_or (x y f : BitVec 64) (n : ℕ) :
    (x ||| y) <<< n ||| f = x <<< n ||| f ||| y <<< n := by
  rw [BitVec.shiftLeft_or_distrib, BitVec.or_assoc, BitVec.or_comm (y <<< n), ← BitVec.or_assoc]

/-- And one that sets a flag, or leaves it. -/
theorem flag_or (x y : BitVec 64) (n : ℕ) (c : Prop) [Decidable c] :
    (if c then (x ||| y) <<< n ||| 1#64 else (x ||| y) <<< n) =
      (if c then x <<< n ||| 1#64 else x <<< n) ||| y <<< n := by
  split
  · exact step_or x y _ n
  · exact BitVec.shiftLeft_or_distrib x y n

/-- An operand that is zero changes nothing. -/
theorem or_zero_uint (x : BitVec 64) : x ||| (0#32).setWidth 64 = x := BitVec.or_zero

section Generators

variable (bank row col : UInt) (pattern : BitVec 8) (ap : AutoPrecharge) (bl : BurstLength)

/-- **The generators are or-s**: the operands stand over the word of none. -/
theorem genACT_word : (genACT bank row).word = spill (ddrWord 0#6 0x23#6 0#3 0#16) bank row := by
  have hzero : (genACT 0#32 0#32).word = ddrWord 0#6 0x23#6 0#3 0#16 := by decide
  have hor : genACT bank row =
      genACT 0#32 0#32 ||| bank.setWidth 64 <<< 16 ||| row.setWidth 64 := by
    rw [genACT, genACT]
    simp only [or_zero_uint]
    rw [BitVec.shiftLeft_or_distrib]
  rw [hor, word_or, word_or, hzero, word_shiftLeft, word_uint, word_uint, spill]

theorem genPRE_word : (genPRE bank .single).word =
    spill (ddrWord 0#6 0x22#6 0#3 0#16) bank 0#32 := by
  have hzero : (genPRE 0#32 .single).word = ddrWord 0#6 0x22#6 0#3 0#16 := by decide
  have hor : genPRE bank .single = genPRE 0#32 .single ||| bank.setWidth 64 <<< 16 := by
    rw [genPRE, genPRE]
    simp only [or_zero_uint]
    rw [BitVec.shiftLeft_or_distrib]
  rw [hor, word_or, hzero, word_shiftLeft, word_uint, spill, BitVec.or_zero]

/-- The word of a column command, its operands apart. -/
def columnWord (cmd : BitVec 6) (pattern : BitVec 8) (ap : AutoPrecharge) (bl : BurstLength) :
    Instr :=
  ddrWord (.ofNat 6 (pattern.toNat / 4)) cmd 0#3
    (.ofNat 16 (pattern.toNat % 4 * 2 ^ 14 + flags ap bl))

theorem genWR_word : (genWR bank col pattern ap bl).word =
    spill (columnWord 0x24#6 pattern ap bl) bank col := by
  have hzero : (genWR 0#32 0#32 pattern ap bl).word = columnWord 0x24#6 pattern ap bl := by
    have hcol : (0#32).toNat = 0 := rfl
    have hbank : (0#32).setWidth 3 = 0#3 := rfl
    rw [genWR_eq (by decide) (by decide), word_setWidth, hcol, hbank, Nat.add_zero, columnWord]
  have hor : genWR bank col pattern ap bl =
      genWR 0#32 0#32 pattern ap bl ||| bank.setWidth 64 <<< 16 ||| col.setWidth 64 := by
    rw [genWR, genWR]
    simp only [or_zero_uint]
    have hshift : bank.setWidth 64 <<< 2 <<< 2 <<< 2 <<< 10 = bank.setWidth 64 <<< 16 := by
      rw [← BitVec.shiftLeft_add, ← BitVec.shiftLeft_add, ← BitVec.shiftLeft_add]
    rw [step_or _ (bank.setWidth 64), flag_or, flag_or, BitVec.shiftLeft_or_distrib, hshift]
  rw [hor, word_or, word_or, hzero, word_shiftLeft, word_uint, word_uint, spill]

theorem genRD_word : (genRD bank col ap bl).word =
    spill (columnWord 0x25#6 0#8 ap bl) bank col := by
  have hzero : (genRD 0#32 0#32 ap bl).word = columnWord 0x25#6 0#8 ap bl := by
    cases ap <;> cases bl <;> decide
  have hor : genRD bank col ap bl =
      genRD 0#32 0#32 ap bl ||| bank.setWidth 64 <<< 16 ||| col.setWidth 64 := by
    rw [genRD, genRD]
    simp only [or_zero_uint]
    have hshift : bank.setWidth 64 <<< 4 <<< 2 <<< 10 = bank.setWidth 64 <<< 16 := by
      rw [← BitVec.shiftLeft_add, ← BitVec.shiftLeft_add]
    rw [flag_or, flag_or, BitVec.shiftLeft_or_distrib, hshift, ← BitVec.or_assoc, ← BitVec.or_assoc]
  rw [hor, word_or, word_or, hzero, word_shiftLeft, word_uint, word_uint, spill]

end Generators

/-! ## What the decoder reads of it -/

section Fields

variable (hi cmd : BitVec 6) (addr : BitVec 16) (bank x : UInt)

theorem getLsbD_spill (w : Instr) {k : ℕ} (hk : k < 32) (h16 : 16 ≤ k) :
    (spill w bank x).getLsbD k = (w.getLsbD k || bank.getLsbD (k - 16) || x.getLsbD k) := by
  rw [spill, BitVec.getLsbD_or, BitVec.getLsbD_or, BitVec.getLsbD_shiftLeft]
  simp [hk, Nat.not_lt.2 h16]

/-- A command bit, with the bits of the operands that fall on it. -/
theorem pin_spill {k : ℕ} (hk : k < 6) :
    (spill (ddrWord hi cmd 0#3 addr) bank x).getLsbD (19 + k) =
      (cmd.getLsbD k || bank.getLsbD (3 + k) || x.getLsbD (19 + k)) := by
  rw [getLsbD_spill _ _ _ (by omega) (by omega), getLsbD_ddrWord _ _ _ _ hk]
  congr 3
  omega

theorem opcode_spill : opcode (spill (ddrWord hi cmd 0#3 addr) bank x) = .ddr := by
  have hbit : (spill (ddrWord hi cmd 0#3 addr) bank x).getLsbD 31 = true := by
    have h31 : (ddrWord hi cmd 0#3 addr).getLsbD 31 = true := by
      rw [ddrWord, BitVec.getLsbD_append, if_neg (by omega), BitVec.getLsbD_append,
        if_neg (by omega), BitVec.getLsbD_append, if_neg (by omega), BitVec.getLsbD_append,
        if_neg (by omega)]
      rfl
    rw [getLsbD_spill _ _ _ (by omega) (by omega), h31]
    rfl
  have h : 8 ≤ ((spill (ddrWord hi cmd 0#3 addr) bank x).extractLsb' 28 4).toNat := by
    have hge := Nat.ge_two_pow_of_testBit hbit
    have hlt := (spill (ddrWord hi cmd 0#3 addr) bank x).isLt
    rw [toNat_field]
    omega
  unfold opcode
  split <;> first | rfl | omega

/-- A field that lies above the row, with what falls on it. -/
theorem field_spill (w : Instr) {i n : ℕ} (hi : 16 ≤ i) (hn : i + n ≤ 32) :
    (spill w bank x).extractLsb' i n =
      w.extractLsb' i n ||| bank.extractLsb' (i - 16) n ||| x.extractLsb' i n := by
  refine BitVec.eq_of_getLsbD_eq fun k hk => ?_
  rw [BitVec.getLsbD_or, BitVec.getLsbD_or, BitVec.getLsbD_extractLsb', BitVec.getLsbD_extractLsb',
    BitVec.getLsbD_extractLsb', BitVec.getLsbD_extractLsb', getLsbD_spill _ _ _ (by omega) (by omega)]
  have hsub : i + k - 16 = i - 16 + k := by omega
  rw [hsub, decide_eq_true hk]
  rfl

/-- A field below the bank, where only the row or column falls. -/
theorem low_field_spill (w : Instr) {i n : ℕ} (hn : i + n ≤ 16) :
    (spill w bank x).extractLsb' i n = w.extractLsb' i n ||| x.extractLsb' i n := by
  refine BitVec.eq_of_getLsbD_eq fun k hk => ?_
  have hlow : i + k < 16 := by omega
  simp [spill, hk, hlow]

end Fields

/-- The pins of an instruction: `CKE`, `CS`, `RAS`, `CAS` and `WE`. -/
def pins (w : Instr) : Bool × Bool × Bool × Bool × Bool :=
  (ckeBit w, csBit w, rasBit w, casBit w, weBit w)

section Decode

variable {w : Instr} (h : opcode w = .ddr)

include h

theorem decode_ddr : decode w =
    (DfiCmd.dramCmd { csN := csBit w, rasN := rasBit w, casN := casBit w, weN := weBit w,
                      bank := some (w.extractLsb' SoftMC.ROW_OFFSET BANK_WIDTH),
                      address := some (w.extractLsb' 0 ROW_WIDTH) }).map
      fun c => .ddr (ckeBit w) c
        (if (!csBit w && rasBit w && !casBit w && !weBit w && ckeBit w) = true then
          some (wrPattern w) else none) := by
  rw [decode, h, isWrite, isDdr, h, writePins]
  rfl

/-- **A word is decoded to a command with all its operands** where the
pins and the fields are those of the command. -/
theorem decode_activate_iff {b : BitVec 3} {a : BitVec 16} :
    decode w = some (.ddr true (.activate b a) none) ↔
      pins w = (true, false, false, true, true) ∧
        w.extractLsb' SoftMC.ROW_OFFSET BANK_WIDTH = b ∧ w.extractLsb' 0 ROW_WIDTH = a := by
  rw [decode_ddr h, pins]
  cases ckeBit w <;> cases csBit w <;> cases rasBit w <;> cases casBit w <;> cases weBit w <;>
    simp [DfiCmd.dramCmd] <;> split <;> simp

theorem decode_precharge_iff {b : BitVec 3} :
    decode w = some (.ddr true (.precharge b) none) ↔
      pins w = (true, false, false, true, false) ∧
        w.extractLsb' SoftMC.ROW_OFFSET BANK_WIDTH = b ∧
        (w.extractLsb' 0 ROW_WIDTH).getLsbD 10 = false := by
  rw [decode_ddr h, pins]
  generalize w.extractLsb' 0 ROW_WIDTH = a
  cases ckeBit w <;> cases csBit w <;> cases rasBit w <;> cases casBit w <;> cases weBit w <;>
    by_cases ha : a.getLsbD 10 = true <;> simp [DfiCmd.dramCmd, ha]

theorem decode_write_iff {b : BitVec 3} {c : BitVec 10} {ap bl : Bool} {p : BitVec 8} :
    decode w = some (.ddr true (.write b c ap bl) (some p)) ↔
      pins w = (true, false, true, false, false) ∧
        w.extractLsb' SoftMC.ROW_OFFSET BANK_WIDTH = b ∧
        (w.extractLsb' 0 ROW_WIDTH).extractLsb' 0 10 = c ∧
        (w.extractLsb' 0 ROW_WIDTH).getLsbD 10 = ap ∧
        (w.extractLsb' 0 ROW_WIDTH).getLsbD 12 = bl ∧ wrPattern w = p := by
  rw [decode_ddr h, pins]
  generalize w.extractLsb' 0 ROW_WIDTH = a
  cases ckeBit w <;> cases csBit w <;> cases rasBit w <;> cases casBit w <;> cases weBit w <;>
    simp [DfiCmd.dramCmd, and_assoc]

theorem decode_read_iff {b : BitVec 3} {c : BitVec 10} {ap bl : Bool} :
    decode w = some (.ddr true (.read b c ap bl) none) ↔
      pins w = (true, false, true, false, true) ∧
        w.extractLsb' SoftMC.ROW_OFFSET BANK_WIDTH = b ∧
        (w.extractLsb' 0 ROW_WIDTH).extractLsb' 0 10 = c ∧
        (w.extractLsb' 0 ROW_WIDTH).getLsbD 10 = ap ∧
        (w.extractLsb' 0 ROW_WIDTH).getLsbD 12 = bl := by
  rw [decode_ddr h, pins]
  generalize w.extractLsb' 0 ROW_WIDTH = a
  cases ckeBit w <;> cases csBit w <;> cases rasBit w <;> cases casBit w <;> cases weBit w <;>
    simp [DfiCmd.dramCmd] <;> split <;> simp

end Decode

/-- An or that changes nothing. -/
theorem or_eq_left_iff {n : ℕ} (x y : BitVec n) :
    x ||| y = x ↔ ∀ k < n, y.getLsbD k = true → x.getLsbD k = true := by
  constructor
  · intro h k _ hk
    rw [← h, BitVec.getLsbD_or, hk, Bool.or_true]
  · intro h
    refine BitVec.eq_of_getLsbD_eq fun k hk => ?_
    rw [BitVec.getLsbD_or]
    rcases Bool.eq_false_or_eq_true (y.getLsbD k) with hy | hy
    · rw [hy, h k hk hy, Bool.or_true]
    · rw [hy, Bool.or_false]

/-! ## What the operands may hold -/

/-- The `n` bits of `x` from `i` on fall on bits of `y`, from `j` on, that
are set wherever they are. -/
def Covered {m : ℕ} (x : UInt) (i n : ℕ) (y : BitVec m) (j : ℕ) : Prop :=
  ∀ k < n, x.getLsbD (i + k) = true → y.getLsbD (j + k) = true

namespace Call

/-- **The operands that do no harm**, command by command: what lies above
an operand's field falls on bits that are set already, or on bits the
decoder does not read for this command. -/
def Harmless : Call → Prop
  | act bank row =>
    bank.getLsbD 5 = false ∧ bank.getLsbD 6 = false ∧ row.getLsbD 21 = false ∧
      row.getLsbD 22 = false ∧ Covered row 16 3 bank 0
  | pre bank .single =>
    bank.getLsbD 3 = false ∧ bank.getLsbD 5 = false ∧ bank.getLsbD 6 = false
  | wr bank col pattern ap bl =>
    bank.getLsbD 3 = false ∧ bank.getLsbD 4 = false ∧ bank.getLsbD 6 = false ∧
      col.getLsbD 19 = false ∧ col.getLsbD 20 = false ∧ col.getLsbD 22 = false ∧
      (col.getLsbD 10 = true → ap = .AP) ∧ (col.getLsbD 12 = true → bl = .fixed) ∧
      Covered col 16 3 bank 0 ∧ Covered col 14 2 pattern 0 ∧ Covered col 25 6 pattern 2 ∧
      Covered bank 9 6 pattern 2
  | rd bank col ap bl =>
    bank.getLsbD 4 = false ∧ bank.getLsbD 6 = false ∧ col.getLsbD 20 = false ∧
      col.getLsbD 22 = false ∧ (col.getLsbD 10 = true → ap = .AP) ∧
      (col.getLsbD 12 = true → bl = .fixed) ∧ Covered col 16 3 bank 0
  | pre _ .all | wait _ | busdir _ | endIseq | zq | ref | refConfig _ _ => True

/-- **A call keeps its instruction**: it is rejected, or the hardware
decodes its own opcode, pins and operands. -/
def Keeps (c : Call) : Prop := ∀ i, c.gen = some i → decode i.word = some c.intended

end Call

section Spill

variable (hi cmd : BitVec 6) (addr : BitVec 16) (bank x : UInt)

theorem pins_spill : pins (spill (ddrWord hi cmd 0#3 addr) bank x) =
    (cmd.getLsbD 5 || bank.getLsbD 8 || x.getLsbD 24, cmd.getLsbD 3 || bank.getLsbD 6 || x.getLsbD 22,
      cmd.getLsbD 2 || bank.getLsbD 5 || x.getLsbD 21, cmd.getLsbD 1 || bank.getLsbD 4 || x.getLsbD 20,
      cmd.getLsbD 0 || bank.getLsbD 3 || x.getLsbD 19) := by
  rw [pins, ckeBit, csBit, rasBit, casBit, weBit]
  simp only [Prod.mk.injEq]
  exact ⟨pin_spill hi cmd addr bank x (k := 5) (by decide),
    pin_spill hi cmd addr bank x (k := 3) (by decide),
    pin_spill hi cmd addr bank x (k := 2) (by decide),
    pin_spill hi cmd addr bank x (k := 1) (by decide),
    pin_spill hi cmd addr bank x (k := 0) (by decide)⟩

/-- The bank is its own where the row or column covers it. -/
theorem bank_spill_iff :
    (spill (ddrWord hi cmd 0#3 addr) bank x).extractLsb' SoftMC.ROW_OFFSET BANK_WIDTH =
      bank.setWidth 3 ↔ Covered x 16 3 bank 0 := by
  have hbank : bank.extractLsb' 0 3 = bank.setWidth 3 := (BitVec.setWidth_eq_extractLsb' (by decide)).symm
  rw [field_spill _ _ _ (by decide) (by decide), bank_ddrWord, BitVec.zero_or, Nat.sub_self, hbank,
    or_eq_left_iff]
  refine forall_congr' fun k => forall_congr' fun hk => ?_
  have hk' : k < 3 := hk
  rw [BitVec.getLsbD_extractLsb', BitVec.getLsbD_setWidth, decide_eq_true hk', Bool.true_and,
    Bool.true_and, Nat.zero_add]

end Spill

/-! ## The column commands -/

section Column

variable (cmd : BitVec 6) (pattern : BitVec 8) (ap : AutoPrecharge) (bl : BurstLength)
  (bank col : UInt)

theorem address_columnWord :
    (spill (columnWord cmd pattern ap bl) bank col).extractLsb' 0 ROW_WIDTH =
      .ofNat 16 (pattern.toNat % 4 * 2 ^ 14 + flags ap bl) ||| col.extractLsb' 0 16 := by
  rw [low_field_spill _ _ _ (by decide), columnWord, address_ddrWord]

/-- The column is its own, whatever stands beside it. -/
theorem column_spill :
    ((spill (columnWord cmd pattern ap bl) bank col).extractLsb' 0 ROW_WIDTH).extractLsb' 0 10 =
      col.setWidth 10 := by
  have hzero := @column_address (pattern.toNat % 4) ap bl 0#32
  rw [BitVec.toNat_zero, Nat.add_zero, BitVec.setWidth_zero] at hzero
  rw [address_columnWord, BitVec.extractLsb'_or, hzero, BitVec.zero_or]
  refine BitVec.eq_of_getLsbD_eq fun k hk => ?_
  have hk' : k < 16 := by omega
  simp [hk, hk']

theorem a10_spill_iff :
    ((spill (columnWord cmd pattern ap bl) bank col).extractLsb' 0 ROW_WIDTH).getLsbD 10 =
      decide (ap = .AP) ↔ (col.getLsbD 10 = true → ap = .AP) := by
  have hflag := @column_a10 (pattern.toNat % 4) ap bl 0#32 (by decide)
  rw [BitVec.toNat_zero, Nat.add_zero] at hflag
  rw [address_columnWord, BitVec.getLsbD_or, hflag, BitVec.getLsbD_extractLsb']
  have hwidth : 10 < ROW_WIDTH := by decide
  by_cases hap : ap = .AP <;> simp [hap, hwidth]

theorem a12_spill_iff :
    ((spill (columnWord cmd pattern ap bl) bank col).extractLsb' 0 ROW_WIDTH).getLsbD 12 =
      decide (bl = .fixed) ↔ (col.getLsbD 12 = true → bl = .fixed) := by
  have hflag := @column_a12 (pattern.toNat % 4) ap bl 0#32 (by decide)
  rw [BitVec.toNat_zero, Nat.add_zero] at hflag
  rw [address_columnWord, BitVec.getLsbD_or, hflag, BitVec.getLsbD_extractLsb']
  have hwidth : 12 < ROW_WIDTH := by decide
  by_cases hbl : bl = .fixed <;> simp [hbl, hwidth]

/-- What falls on the pattern of a column command. -/
theorem wrPattern_spill :
    wrPattern (spill (columnWord cmd pattern ap bl) bank col) =
      pattern ||| ((bank.extractLsb' 9 6 ||| col.extractLsb' 25 6) ++ col.extractLsb' 14 2) := by
  have hhalves := @column_pattern ap bl 0#32 (by decide) pattern
  simp only [BitVec.toNat_zero, Nat.add_zero] at hhalves
  have hown : wrPattern (columnWord cmd pattern ap bl) = pattern := by
    rw [columnWord, wrPattern_ddrWord, hhalves]
  rw [wrPattern, field_spill _ _ _ (by decide) (by decide), low_field_spill _ _ _ (by decide),
    BitVec.or_assoc, ← BitVec.or_append]
  exact congrArg (· ||| _) hown

/-- The pattern is its own where it covers what falls on it. -/
theorem pattern_spill_iff :
    wrPattern (spill (columnWord cmd pattern ap bl) bank col) = pattern ↔
      Covered col 14 2 pattern 0 ∧ Covered col 25 6 pattern 2 ∧ Covered bank 9 6 pattern 2 := by
  -- the two low bits of the pattern and the six high ones lie apart in the word
  have hbit : ∀ k, ((bank.extractLsb' 9 6 ||| col.extractLsb' 25 6) ++
      col.extractLsb' 14 2 : BitVec 8).getLsbD k =
        if k < 2 then col.getLsbD (14 + k)
        else decide (k - 2 < 6) && (bank.getLsbD (9 + (k - 2)) || col.getLsbD (25 + (k - 2))) := by
    intro k
    rw [BitVec.getLsbD_append]
    by_cases hk : k < 2
    · simp [hk]
    · by_cases hk' : k - 2 < 6 <;> simp [hk, hk']
  rw [wrPattern_spill, or_eq_left_iff]
  constructor
  · intro h
    refine ⟨fun k hk hc => ?_, fun k hk hc => ?_, fun k hk hc => ?_⟩
    · rw [Nat.zero_add]
      exact h k (by omega) (by rw [hbit, if_pos hk, hc])
    · rw [Nat.add_comm]
      refine h (k + 2) (by omega) ?_
      rw [hbit, if_neg (by omega), Nat.add_sub_cancel, decide_eq_true hk, hc, Bool.or_true]
      rfl
    · rw [Nat.add_comm]
      refine h (k + 2) (by omega) ?_
      rw [hbit, if_neg (by omega), Nat.add_sub_cancel, decide_eq_true hk, hc, Bool.true_or]
      rfl
  · rintro ⟨hlow, hcol, hbank⟩ k hk hc
    rw [hbit] at hc
    rcases Nat.lt_or_ge k 2 with hk' | hk'
    · rw [if_pos hk'] at hc
      simpa using hlow k hk' hc
    · obtain ⟨m, rfl⟩ := Nat.exists_eq_add_of_le hk'
      rw [if_neg (by omega), Nat.add_sub_cancel_left, Bool.and_eq_true, Bool.or_eq_true] at hc
      rcases hc.2 with hb | hx
      · exact hbank m (by omega) hb
      · exact hcol m (by omega) hx

end Column

namespace Call

/-- A call that is rejected or agrees keeps its instruction. -/
theorem keeps_of_valid {c : Call} (h : c.gen ≠ none → c.Valid) : c.Keeps := by
  intro i hi
  obtain ⟨j, hj, hagrees⟩ := exists_agrees c (h (by rw [hi]; exact Option.some_ne_none i))
  rw [Option.some.inj (hi.symm.trans hj)]
  exact hagrees.decodes

/-- `genWAIT` and `genREF_CONFIG` assert what their fields hold. -/
theorem wait_keeps (cycles : UInt) : (wait cycles).Keeps := by
  refine keeps_of_valid fun hgen => ?_
  rw [gen, genWAIT] at hgen
  by_cases h : cycles ≥ 1 ∧ cycles ≤ 1023
  · exact ⟨BitVec.le_def.1 h.1, BitVec.le_def.1 h.2⟩
  · exact absurd (if_neg h) hgen

theorem refConfig_keeps (val : UInt) (r : Register) : (refConfig val r).Keeps := by
  refine keeps_of_valid fun hgen => ?_
  rw [gen, genREF_CONFIG] at hgen
  by_cases h : val < 0x10000000
  · exact BitVec.lt_def.1 h
  · exact absurd (if_neg h) hgen

theorem act_keeps_iff (bank row : UInt) : (act bank row).Keeps ↔ (act bank row).Harmless := by
  have haddr : (spill (ddrWord 0#6 0x23#6 0#3 0#16) bank row).extractLsb' 0 ROW_WIDTH =
      row.setWidth 16 := by
    rw [low_field_spill _ _ _ (by decide), address_ddrWord, BitVec.zero_or,
      BitVec.setWidth_eq_extractLsb' (by decide)]
  simp only [Keeps, gen, Option.some.injEq, forall_eq', intended]
  rw [genACT_word, decode_activate_iff (opcode_spill _ _ _ _ _), pins_spill, bank_spill_iff, haddr]
  simp [Harmless]
  tauto

theorem pre_keeps_iff (bank : UInt) (pc : PreType) :
    (pre bank pc).Keeps ↔ (pre bank pc).Harmless := by
  cases pc with
  | all =>
    refine iff_of_true (fun i hi => ?_) trivial
    have hdecode : decode (ddrWord 0#6 0x22#6 0#3 0x400#16) =
        some (.ddr true .prechargeAll none) := by decide
    rw [← Option.some.inj hi, genPRE_all_eq, word_setWidth, hdecode, intended]
  | single =>
    have haddr : (spill (ddrWord 0#6 0x22#6 0#3 0#16) bank 0#32).extractLsb' 0 ROW_WIDTH = 0#16 := by
      rw [low_field_spill _ _ _ (by decide), address_ddrWord, BitVec.zero_or]
      rfl
    have hcovered : Covered 0#32 16 3 bank 0 := fun k _ hk => by simp at hk
    simp only [Keeps, gen, Option.some.injEq, forall_eq', intended]
    rw [genPRE_word, decode_precharge_iff (opcode_spill _ _ _ _ _), pins_spill, bank_spill_iff, haddr]
    simp [Harmless, hcovered]
    tauto

theorem wr_keeps_iff (bank col : UInt) (pattern : BitVec 8) (ap : AutoPrecharge)
    (bl : BurstLength) :
    (wr bank col pattern ap bl).Keeps ↔ (wr bank col pattern ap bl).Harmless := by
  simp only [Keeps, gen, Option.some.injEq, forall_eq', intended]
  have hopcode : opcode (spill (columnWord 0x24#6 pattern ap bl) bank col) = .ddr :=
    opcode_spill _ _ _ _ _
  rw [genWR_word, decode_write_iff hopcode, a10_spill_iff, a12_spill_iff,
    pattern_spill_iff, column_spill, columnWord, pins_spill, bank_spill_iff]
  simp [Harmless]
  tauto

theorem rd_keeps_iff (bank col : UInt) (ap : AutoPrecharge) (bl : BurstLength) :
    (rd bank col ap bl).Keeps ↔ (rd bank col ap bl).Harmless := by
  simp only [Keeps, gen, Option.some.injEq, forall_eq', intended]
  have hopcode : opcode (spill (columnWord 0x25#6 0#8 ap bl) bank col) = .ddr :=
    opcode_spill _ _ _ _ _
  rw [genRD_word, decode_read_iff hopcode, a10_spill_iff, a12_spill_iff,
    column_spill, columnWord, pins_spill, bank_spill_iff]
  simp [Harmless]
  tauto

/-- **Which operands keep the instruction what it is**: the harmless ones
and no others. -/
theorem keeps_iff (c : Call) : c.Keeps ↔ c.Harmless := by
  cases c with
  | act bank row => exact act_keeps_iff bank row
  | pre bank pc => exact pre_keeps_iff bank pc
  | wr bank col pattern ap bl => exact wr_keeps_iff bank col pattern ap bl
  | rd bank col ap bl => exact rd_keeps_iff bank col ap bl
  | wait cycles => exact iff_of_true (wait_keeps cycles) trivial
  | refConfig val r => exact iff_of_true (refConfig_keeps val r) trivial
  | busdir _ | endIseq | zq | ref => exact iff_of_true (keeps_of_valid fun _ => trivial) trivial

/-- **A precharge of bank 8** is an activation of bank 0. -/
theorem pre_eight_activates : ¬ (pre 8#32 .single).Keeps ∧
    decode (genPRE 8#32 .single).word = some (.ddr true (.activate 0#3 0#16) none) := by
  have hdecode : decode (genPRE 8#32 .single).word =
      some (.ddr true (.activate 0#3 0#16) none) := by decide
  refine ⟨fun h => ?_, hdecode⟩
  have hown := h _ rfl
  rw [hdecode] at hown
  exact absurd hown (by decide)

end Call

end SoftMC
