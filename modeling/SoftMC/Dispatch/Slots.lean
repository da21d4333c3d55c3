import SoftMC.Model.Dispatcher
import Mathlib.Tactic.SplitIfs
/-!
# What the dispatcher's combinational block computes

The block is read once, here. Every signal the rest of the development
uses is given in terms of `issue0` and `issue1`, the instructions the two
slots act on in the cycle; nothing below unfolds the block again.

The signals fall in two parts: `Flow`, what decides which instructions are
taken and when, and `Command`, what a DDR instruction drives. A slot's
`casex` changes the first only in its WAIT arm and the second only in its
DDR arm.
-/

namespace SoftMC

namespace Dispatcher

/-- A slot-`0` WAIT of more than one DRAM cycle holds slot `1` closed. -/
def blocks (instr : Instr) : Bool := decide (opcode instr = .wait) && decide (waitCount instr > 1#10)

/-- The WAITs that exchange the two queues. -/
def evenWait (instr : Instr) : Bool := decide (opcode instr = .wait) && !instr.getLsbD 0

/-! ## The two parts -/

/-- The signals that decide which instructions are taken, and when. -/
structure Flow where
  ack0 : Bool
  ack1 : Bool
  blockOtherSlot : Bool
  instrSrcNs : Bool
  load : Option (BitVec 10)

/-- The signals a DDR instruction drives, the write path apart. -/
structure Command where
  dec0En : Bool
  dec1En : Bool
  cke0 : Bool
  cke1 : Bool
  readBurstNs : Bool
  readBurstOddNs : Bool
  dfiRddataEn : Bool
  dfiRddataEnOdd : Bool
  prRdAckNs : Bool

def Comb.flow (c : Comb) : Flow where
  ack0 := c.ack0
  ack1 := c.ack1
  blockOtherSlot := c.blockOtherSlot
  instrSrcNs := c.instrSrcNs
  load := if c.loadCounter then some c.waitCyclesNs else none

def Comb.command (c : Comb) : Command where
  dec0En := c.dec0En
  dec1En := c.dec1En
  cke0 := c.cke0
  cke1 := c.cke1
  readBurstNs := c.readBurstNs
  readBurstOddNs := c.readBurstOddNs
  dfiRddataEn := c.dfiRddataEn
  dfiRddataEnOdd := c.dfiRddataEnOdd
  prRdAckNs := c.prRdAckNs

section Arms

variable (s : Dispatcher) (i : In) (instr : Instr) (c : Comb)

theorem ddr0_flow : (s.ddr0 i instr c).flow = c.flow := by
  simp only [ddr0]; split_ifs <;> rfl

theorem ddr1_flow : (s.ddr1 i instr c).flow = c.flow := by
  simp only [ddr1]; split_ifs <;> rfl

/-- Only a WAIT changes the flow. -/
theorem arm0_flow :
    (s.arm0 i instr c).flow = if opcode instr = .wait then (s.wait0 instr c).flow else c.flow := by
  unfold arm0
  cases opcode instr with
  | ddr => exact ddr0_flow s i instr c
  | _ => rfl

theorem arm1_flow :
    (s.arm1 i instr c).flow = if opcode instr = .wait then (s.wait1 instr c).flow else c.flow := by
  unfold arm1
  cases opcode instr with
  | ddr => exact ddr1_flow s i instr c
  | _ => rfl

/-- Only a DDR instruction changes the command. -/
theorem arm0_command :
    (s.arm0 i instr c).command =
      if opcode instr = .ddr then (s.ddr0 i instr c).command else c.command := by
  unfold arm0
  cases opcode instr <;> rfl

theorem arm1_command :
    (s.arm1 i instr c).command =
      if opcode instr = .ddr then (s.ddr1 i instr c).command else c.command := by
  unfold arm1
  cases opcode instr <;> rfl

end Arms

/-! ## The slots -/

variable {s : Dispatcher} {i : In}

/-- Slot `0` acts on the head of its queue or not at all. -/
theorem issue0_eq_some {w : Instr} (h : s.issue0 i = some w) :
    i.dfiReady = true ∧ s.waitCyclesR ≤ 1#10 ∧ s.en0 i = true ∧ s.instr0 i = w := by
  unfold issue0 at h
  split at h
  · rename_i hc
    simp only [Bool.and_eq_true, decide_eq_true_eq] at hc
    exact ⟨hc.1.1, hc.1.2, hc.2, Option.some.inj h⟩
  · cases h

theorem issue0_isSome :
    (s.issue0 i).isSome = (i.dfiReady && decide (s.waitCyclesR ≤ 1#10) && s.en0 i) := by
  unfold issue0
  split <;> simp_all

/-- Slot `0` of the block, by what it acts on. -/
theorem slot0_eq (c : Comb) :
    s.slot0 i c =
      match s.issue0 i with
      | some w => s.arm0 i w c
      | none => if i.dfiReady && decide (s.waitCyclesR ≤ 1#10) then c else { c with ack0 := false } := by
  unfold slot0 issue0
  cases i.dfiReady && decide (s.waitCyclesR ≤ 1#10) <;> cases s.en0 i <;> rfl

/-- Whether slot `1` is held closed is whether slot `0` acts on a blocking
WAIT. -/
theorem blockOtherSlot_slot0 :
    (s.en0 i && (s.slot0 i (s.defaults i)).blockOtherSlot) = (s.issue0 i).any blocks := by
  have hdef : (s.defaults i).blockOtherSlot = false := rfl
  rw [slot0_eq]
  cases h : s.issue0 i with
  | none => simp only [Option.any_none]; split <;> simp [hdef]
  | some w =>
    have harm : (s.arm0 i w (s.defaults i)).blockOtherSlot = blocks w := by
      have hflow := congrArg Flow.blockOtherSlot (arm0_flow s i w (s.defaults i))
      change (s.arm0 i w (s.defaults i)).blockOtherSlot = _ at hflow
      rw [hflow, blocks]
      by_cases hw : opcode w = .wait
      · rw [if_pos hw]; simp [Comb.flow, wait0, hw, hdef]
      · rw [if_neg hw]; simp [Comb.flow, hw, hdef]
    simp only [Option.any_some]
    rw [harm, (issue0_eq_some h).2.2.1, Bool.true_and]

/-- **What slot `1` acts on**, without the signals slot `0` has assigned. -/
theorem issue1_eq :
    s.issue1 i =
      if !(s.issue0 i).any blocks && i.dfiReady && decide (s.waitCyclesR ≤ 2#10) && s.en1 i then
        some (s.instr1 i)
      else none := by
  unfold issue1
  rw [blockOtherSlot_slot0]

theorem issue1_isSome :
    (s.issue1 i).isSome =
      (!(s.issue0 i).any blocks && i.dfiReady && decide (s.waitCyclesR ≤ 2#10) && s.en1 i) := by
  rw [issue1_eq]
  split <;> simp_all

theorem issue1_eq_some {w : Instr} (h : s.issue1 i = some w) :
    (s.issue0 i).any blocks = false ∧ i.dfiReady = true ∧ s.waitCyclesR ≤ 2#10 ∧ s.en1 i = true ∧
      s.instr1 i = w := by
  rw [issue1_eq] at h
  split at h
  · rename_i hc
    simp only [Bool.and_eq_true, decide_eq_true_eq, Bool.not_eq_true'] at hc
    exact ⟨hc.1.1.1, hc.1.1.2, hc.1.2, hc.2, Option.some.inj h⟩
  · cases h

/-- The whole block, by what the two slots act on. -/
theorem comb_eq :
    s.comb i =
      match s.issue1 i with
      | some w => s.arm1 i w (s.slot0 i (s.defaults i))
      | none =>
        if !(s.issue0 i).any blocks && i.dfiReady && decide (s.waitCyclesR ≤ 2#10) then
          s.slot0 i (s.defaults i)
        else { s.slot0 i (s.defaults i) with ack1 := false } := by
  rw [issue1_eq, comb, slot1, blockOtherSlot_slot0]
  cases !(s.issue0 i).any blocks && i.dfiReady && decide (s.waitCyclesR ≤ 2#10) <;>
    cases s.en1 i <;> rfl

/-! ## Flow -/

/-- What slot `0` leaves of the flow. -/
theorem slot0_flow :
    (s.slot0 i (s.defaults i)).flow =
      { ack0 := i.dfiReady && decide (s.waitCyclesR ≤ 1#10)
        ack1 := true
        blockOtherSlot := (s.issue0 i).any blocks
        instrSrcNs :=
          if (s.issue0 i).any evenWait then !s.instrSrcR else (s.defaults i).instrSrcNs
        load := (s.issue0 i).bind fun w =>
          if opcode w = .wait then some (waitCount w - 1#10) else none } := by
  rw [slot0_eq]
  cases h : s.issue0 i with
  | none =>
    simp only [Option.any_none, Option.bind_none]
    split
    · rename_i hc; simp [Comb.flow, defaults, hc]
    · rename_i hc; simp [Comb.flow, defaults, hc]
  | some w =>
    obtain ⟨hr, hw, -, -⟩ := issue0_eq_some h
    simp only [arm0_flow, Option.any_some, Option.bind_some, blocks, evenWait]
    by_cases hop : opcode w = .wait
    · simp [Comb.flow, wait0, defaults, hop, hr, hw]
    · simp [Comb.flow, defaults, hop, hr, hw]

/-- **The flow of one cycle.** -/
theorem comb_flow :
    (s.comb i).flow =
      { ack0 := i.dfiReady && decide (s.waitCyclesR ≤ 1#10)
        ack1 := !(s.issue0 i).any blocks && i.dfiReady && decide (s.waitCyclesR ≤ 2#10)
        blockOtherSlot := (s.issue0 i).any blocks
        instrSrcNs :=
          if (s.issue0 i).any evenWait || (s.issue1 i).any evenWait then !s.instrSrcR
          else (s.defaults i).instrSrcNs
        load :=
          ((s.issue1 i).bind fun w => if opcode w = .wait then some (waitCount w) else none) <|>
          ((s.issue0 i).bind fun w =>
            if opcode w = .wait then some (waitCount w - 1#10) else none) } := by
  have h0 := slot0_flow (s := s) (i := i)
  simp only [Comb.flow, Flow.mk.injEq] at h0
  obtain ⟨ha0, ha1, hb, hsrc, hload⟩ := h0
  rw [comb_eq]
  cases h : s.issue1 i with
  | none =>
    simp only [Option.any_none, Option.bind_none, Bool.or_false]
    split
    · rename_i hc
      simp only [Comb.flow, ha0, ha1, hb, hsrc, hload, Flow.mk.injEq]
      simp [hc]
    · rename_i hc
      simp only [Comb.flow, ha0, hb, hsrc, hload, Flow.mk.injEq]
      simp [hc]
  | some w =>
    obtain ⟨hnb, hr, hw, -, -⟩ := issue1_eq_some h
    simp only [arm1_flow, Option.any_some, Option.bind_some, evenWait]
    by_cases hop : opcode w = .wait
    · simp only [hop, if_true, Comb.flow, wait1, ha0, ha1, hb, hsrc, hnb, hr, Flow.mk.injEq]
      simp only [hw, decide_true, Bool.not_false, Bool.and_self, true_and]
      cases w.getLsbD 0 <;> simp
    · simp only [hop, if_false, Comb.flow, ha0, ha1, hb, hsrc, hload, hnb, hr, Flow.mk.injEq]
      simp [hw]

/-! ## Taking from the input queues -/

/-- The word taken from input `0`: the slot `instr_src_r` has it feed. -/
def taken0 (s : Dispatcher) (i : In) : Option Instr :=
  if s.instrSrcR then s.issue1 i else s.issue0 i

/-- And from input `1`. -/
def taken1 (s : Dispatcher) (i : In) : Option Instr :=
  if s.instrSrcR then s.issue0 i else s.issue1 i

theorem comb_ack0 : (s.comb i).ack0 = (i.dfiReady && decide (s.waitCyclesR ≤ 1#10)) :=
  congrArg Flow.ack0 comb_flow

theorem comb_ack1 :
    (s.comb i).ack1 =
      (!(s.issue0 i).any blocks && i.dfiReady && decide (s.waitCyclesR ≤ 2#10)) :=
  congrArg Flow.ack1 comb_flow

/-- **A word is taken exactly when a slot acts on it**: the acknowledgment
of an input with a word is the guard of the slot it feeds. -/
theorem isSome_taken0 : (s.taken0 i).isSome = (i.enIn0 && s.enAck0 i) := by
  unfold taken0 enAck0
  cases h : s.instrSrcR
  · simp only [Bool.false_eq_true, if_false]
    rw [issue0_isSome, comb_ack0, en0, h]
    simp only [Bool.false_eq_true, if_false]
    exact Bool.and_comm _ _
  · simp only [if_true]
    rw [issue1_isSome, comb_ack1, en1, h]
    simp only [if_true]
    exact Bool.and_comm _ _

theorem isSome_taken1 : (s.taken1 i).isSome = (i.enIn1 && s.enAck1 i) := by
  unfold taken1 enAck1
  cases h : s.instrSrcR
  · simp only [Bool.false_eq_true, if_false]
    rw [issue1_isSome, comb_ack1, en1, h]
    simp only [Bool.false_eq_true, if_false]
    exact Bool.and_comm _ _
  · simp only [if_true]
    rw [issue0_isSome, comb_ack0, en0, h]
    simp only [if_true]
    exact Bool.and_comm _ _

theorem taken0_eq_some {w : Instr} (h : s.taken0 i = some w) : i.enIn0 = true ∧ i.instrIn0 = w := by
  unfold taken0 at h
  cases hs : s.instrSrcR
  · rw [hs] at h
    obtain ⟨-, -, he, hi⟩ := issue0_eq_some h
    rw [en0, hs] at he; rw [instr0, hs] at hi
    exact ⟨he, hi⟩
  · rw [hs] at h
    obtain ⟨-, -, -, he, hi⟩ := issue1_eq_some h
    rw [en1, hs] at he; rw [instr1, hs] at hi
    exact ⟨he, hi⟩

theorem taken1_eq_some {w : Instr} (h : s.taken1 i = some w) : i.enIn1 = true ∧ i.instrIn1 = w := by
  unfold taken1 at h
  cases hs : s.instrSrcR
  · rw [hs] at h
    obtain ⟨-, -, -, he, hi⟩ := issue1_eq_some h
    rw [en1, hs] at he; rw [instr1, hs] at hi
    exact ⟨he, hi⟩
  · rw [hs] at h
    obtain ⟨-, -, he, hi⟩ := issue0_eq_some h
    rw [en0, hs] at he; rw [instr0, hs] at hi
    exact ⟨he, hi⟩

/-- **The dispatcher always makes progress** when it is ready, its counter
has run down and an input has a word. -/
theorem taken_of_ready (hr : i.dfiReady = true) (hw : s.waitCyclesR ≤ 1#10)
    (hen : i.enIn0 = true ∨ i.enIn1 = true) :
    (s.taken0 i).isSome = true ∨ (s.taken1 i).isSome = true := by
  have hslot : (s.issue0 i).isSome = true ∨ (s.issue1 i).isSome = true := by
    cases he : s.en0 i with
    | true => left; rw [issue0_isSome, hr, he]; simp [hw]
    | false =>
      right
      have h0 : s.issue0 i = none := by simp [issue0, he]
      have h1 : s.en1 i = true := by
        unfold en0 at he
        unfold en1
        cases hs : s.instrSrcR <;> simp_all
      have hw2 : s.waitCyclesR ≤ 2#10 := by bv_omega
      rw [issue1_isSome, h0, hr, h1]; simp [hw2]
  unfold taken0 taken1
  cases s.instrSrcR
  · exact hslot
  · exact hslot.symm

/-! ## The counter and the source flag -/

theorem evenWait_eq (w : Instr) : evenWait w = (waitOf w).any (· % 2 = 0) := by
  unfold evenWait
  by_cases h : opcode w = .wait
  · rw [waitOf_of_wait h]
    have hbit : (waitCount w).toNat % 2 = (w.getLsbD 0).toNat := by
      rw [waitCount, BitVec.extractLsb'_toNat, BitVec.getLsbD, Nat.testBit_zero]
      rcases Nat.mod_two_eq_zero_or_one w.toNat with h2 | h2 <;> simp [h2]
    simp only [h, decide_true, Bool.true_and, Option.any_some, hbit]
    cases w.getLsbD 0 <;> rfl
  · rw [waitOf_of_ne h]; simp [h]

theorem blocks_eq (w : Instr) : blocks w = (waitOf w).any (1 < ·) := by
  unfold blocks
  by_cases h : opcode w = .wait
  · rw [waitOf_of_wait h]
    simp only [h, decide_true, Bool.true_and, Option.any_some]
    rw [decide_eq_decide]
    bv_omega
  · rw [waitOf_of_ne h]; simp [h]

/-- The counter without a load: down by two, saturating. -/
theorem toNat_countDown (w : BitVec 10) :
    (if w.extractLsb' 1 9 ≠ 0#9 then w - 2#10 else 0).toNat = w.toNat - 2 := by
  have hhigh : (w.extractLsb' 1 9).toNat = w.toNat / 2 := by
    rw [BitVec.extractLsb'_toNat, Nat.shiftRight_eq_div_pow]
    have := w.isLt
    omega
  split
  · rename_i h
    have : (w.extractLsb' 1 9).toNat ≠ 0 := fun h0 => h (BitVec.eq_of_toNat_eq h0)
    bv_omega
  · rename_i h
    have h0 : w.extractLsb' 1 9 = 0#9 := not_not.1 h
    have : (w.extractLsb' 1 9).toNat = 0 := by rw [h0]; rfl
    change 0 = _
    omega

/-- **The counter.** Slot `1` loads its count, slot `0` one less in ten
bits; without a load it falls by two, saturating. -/
theorem toNat_waitCyclesR_next :
    (Dispatcher.next false s i).waitCyclesR.toNat =
      ((s.issue1 i).bind waitOf <|>
        ((s.issue0 i).bind waitOf).map fun n => (n + 1023) % 1024).getD
          (s.waitCyclesR.toNat - 2) := by
  have hload := congrArg Flow.load (comb_flow (s := s) (i := i))
  simp only [Comb.flow] at hload
  have hnext : (Dispatcher.next false s i).waitCyclesR =
      (if (s.comb i).loadCounter then some (s.comb i).waitCyclesNs else none).getD
        (if s.waitCyclesR.extractLsb' 1 9 ≠ 0#9 then s.waitCyclesR - 2#10 else 0) := by
    simp only [next, waitCyclesNext]
    cases (s.comb i).loadCounter <;> rfl
  rw [hnext, hload]
  have hmap : ∀ (o : Option (BitVec 10)) b,
      (o.getD b).toNat = (o.map BitVec.toNat).getD b.toNat := by
    intro o b; cases o <;> rfl
  have h1 : ∀ o : Option Instr,
      (o.bind fun w => if opcode w = .wait then some (waitCount w) else none).map BitVec.toNat =
        o.bind waitOf := by
    intro o
    cases o with
    | none => rfl
    | some w => by_cases h : opcode w = .wait <;> simp [waitOf, h]
  have h0 : ∀ o : Option Instr,
      (o.bind fun w => if opcode w = .wait then some (waitCount w - 1#10) else none).map
          BitVec.toNat = (o.bind waitOf).map fun n => (n + 1023) % 1024 := by
    intro o
    cases o with
    | none => rfl
    | some w =>
      by_cases h : opcode w = .wait
      · simp [waitOf, h, BitVec.toNat_sub, Nat.add_comm]
      · simp [waitOf, h]
  -- slot `1` is decoded behind slot `0`, so its load is the one that counts
  rw [hmap, toNat_countDown, ← h1, ← h0]
  cases (s.issue1 i).bind fun w => if opcode w = .wait then some (waitCount w) else none <;> rfl

/-- The counter, where a WAIT in slot `0` is of at least one cycle. -/
theorem toNat_waitCyclesR_next_of_pos
    (hpos : ∀ w, s.issue0 i = some w → ∀ n, waitOf w = some n → 0 < n) :
    (Dispatcher.next false s i).waitCyclesR.toNat =
      match (s.issue1 i).bind waitOf, (s.issue0 i).bind waitOf with
      | some n, _ => n
      | none, some n => n - 1
      | none, none => s.waitCyclesR.toNat - 2 := by
  rw [toNat_waitCyclesR_next]
  cases h1 : (s.issue1 i).bind waitOf with
  | some n => rfl
  | none =>
    cases h0 : (s.issue0 i).bind waitOf with
    | none => rfl
    | some n =>
      obtain ⟨w, hw, hn⟩ := Option.bind_eq_some_iff.1 h0
      have := hpos w hw n hn
      have := waitOf_lt hn
      change (n + 1023) % 1024 = n - 1
      omega

/-- **The source flag** turns on an even WAIT, and falls back to the first
queue when both inputs are empty. -/
theorem instrSrcR_next :
    (Dispatcher.next false s i).instrSrcR =
      if (s.issue0 i).any evenWait || (s.issue1 i).any evenWait then !s.instrSrcR
      else if !(i.enIn0 || i.enIn1) then false else s.instrSrcR :=
  congrArg Flow.instrSrcNs (comb_flow (s := s) (i := i))

/-- Nothing is issued without a word at the inputs. -/
theorem issue_of_empty (h0 : i.enIn0 = false) (h1 : i.enIn1 = false) :
    s.issue0 i = none ∧ s.issue1 i = none := by
  have he0 : s.en0 i = false := by unfold en0; split <;> assumption
  have he1 : s.en1 i = false := by unfold en1; split <;> assumption
  exact ⟨by simp [issue0, he0], by simp [issue1_eq, he1]⟩

/-- With both inputs empty the counter runs down and the source flag
rests. -/
theorem next_of_empty (h0 : i.enIn0 = false) (h1 : i.enIn1 = false) :
    (Dispatcher.next false s i).waitCyclesR.toNat = s.waitCyclesR.toNat - 2 ∧
      (Dispatcher.next false s i).instrSrcR = false := by
  obtain ⟨hi0, hi1⟩ := issue_of_empty (s := s) h0 h1
  constructor
  · rw [toNat_waitCyclesR_next, hi0, hi1]; rfl
  · rw [instrSrcR_next, hi0, hi1, h0, h1]; rfl

/-! ## Commands -/

/-- An instruction the dispatcher drives on the command pins. -/
def isDdr (instr : Instr) : Bool := decide (opcode instr = .ddr)

/-- The word of a read command with the clock enabled. -/
def isRead (instr : Instr) : Bool := isDdr instr && readPins instr && ckeBit instr

/-- A write of a clock-enabled instruction. -/
def isWrite (instr : Instr) : Bool := isDdr instr && writePins instr && ckeBit instr

/-- A read recognised in each slot: the clock is enabled and was. -/
def reads0 (s : Dispatcher) (i : In) : Bool := (s.issue0 i).any fun w => isRead w && s.cke0R
def reads1 (s : Dispatcher) (i : In) : Bool := (s.issue1 i).any fun w => isRead w && s.cke1R

/-- The clock enable a slot leaves. -/
def ckeAfter (o : Option Instr) (cke : Bool) : Bool :=
  match o with
  | some w => if isDdr w then ckeBit w else cke
  | none => cke

/-- A DDR arm drives the pins and the clock enable, and on a read the
read signals. -/
theorem ddr0_command (s : Dispatcher) (i : In) (instr : Instr) (c : Comb) :
    (s.ddr0 i instr c).command =
      if readPins instr && ckeBit instr && s.cke0R then
        { c.command with dec0En := true, cke0 := ckeBit instr, readBurstNs := true,
                         readBurstOddNs := i.periodicReadLock, dfiRddataEn := true,
                         dfiRddataEnOdd := i.periodicReadLock, prRdAckNs := true }
      else { c.command with dec0En := true, cke0 := ckeBit instr } := by
  simp only [ddr0]
  cases readPins instr && ckeBit instr && s.cke0R
  all_goals
    simp only [Bool.false_eq_true, if_false, if_true]
    split_ifs <;> rfl

theorem ddr1_command (s : Dispatcher) (i : In) (instr : Instr) (c : Comb) :
    (s.ddr1 i instr c).command =
      if readPins instr && ckeBit instr && s.cke1R then
        { c.command with dec1En := true, cke1 := ckeBit instr, readBurstNs := true,
                         readBurstOddNs := i.periodicReadLock, dfiRddataEn := true,
                         dfiRddataEnOdd := i.periodicReadLock, prRdAckNs := true }
      else { c.command with dec1En := true, cke1 := ckeBit instr } := by
  simp only [ddr1]
  cases readPins instr && ckeBit instr && s.cke1R
  all_goals
    simp only [Bool.false_eq_true, if_false, if_true]
    split_ifs <;> rfl

/-- The command without a DDR instruction. -/
theorem defaults_command :
    (s.defaults i).command =
      { dec0En := false, dec1En := false, cke0 := s.cke0R, cke1 := s.cke1R, readBurstNs := false,
        readBurstOddNs := false, dfiRddataEn := s.readBurstR, dfiRddataEnOdd := s.readBurstOddR,
        prRdAckNs := false } := rfl

/-- What slot `0` leaves of the command. -/
theorem slot0_command :
    (s.slot0 i (s.defaults i)).command =
      { dec0En := (s.issue0 i).any isDdr
        dec1En := false
        cke0 := ckeAfter (s.issue0 i) s.cke0R
        cke1 := s.cke1R
        readBurstNs := s.reads0 i
        readBurstOddNs := s.reads0 i && i.periodicReadLock
        dfiRddataEn := s.reads0 i || s.readBurstR
        dfiRddataEnOdd := if s.reads0 i then i.periodicReadLock else s.readBurstOddR
        prRdAckNs := s.reads0 i } := by
  rw [slot0_eq]
  unfold reads0 ckeAfter
  cases h : s.issue0 i with
  | none =>
    simp only [Option.any_none]
    split
    · exact defaults_command
    · exact defaults_command (i := i)
  | some w =>
    simp only [arm0_command, defaults_command, Option.any_some, isRead, isDdr]
    by_cases hop : opcode w = .ddr
    · simp only [hop, if_true, decide_true, Bool.true_and, ddr0_command, defaults_command]
      cases readPins w && ckeBit w && s.cke0R <;> rfl
    · simp [hop]

/-- **The command of one cycle.** -/
theorem comb_command :
    (s.comb i).command =
      { dec0En := (s.issue0 i).any isDdr
        dec1En := (s.issue1 i).any isDdr
        cke0 := ckeAfter (s.issue0 i) s.cke0R
        cke1 := ckeAfter (s.issue1 i) s.cke1R
        readBurstNs := s.reads0 i || s.reads1 i
        readBurstOddNs := (s.reads0 i || s.reads1 i) && i.periodicReadLock
        dfiRddataEn := s.reads0 i || s.reads1 i || s.readBurstR
        dfiRddataEnOdd :=
          if s.reads0 i || s.reads1 i then i.periodicReadLock else s.readBurstOddR
        prRdAckNs := s.reads0 i || s.reads1 i } := by
  have h0 := slot0_command (s := s) (i := i)
  rw [comb_eq]
  unfold reads1
  cases h : s.issue1 i with
  | none =>
    simp only [Option.any_none, Bool.or_false]
    split
    · exact h0
    · exact h0
  | some w =>
    simp only [arm1_command, h0, Option.any_some, isRead]
    by_cases hop : opcode w = .ddr
    · have hddr : isDdr w = true := decide_eq_true hop
      simp only [hop, if_true, hddr, Bool.true_and, ddr1_command, h0, ckeAfter]
      cases readPins w && ckeBit w && s.cke1R <;> simp
    · have hddr : isDdr w = false := decide_eq_false hop
      simp [hop, hddr, ckeAfter]

/-- **A slot drives the pins of the DDR instruction it issues**, and is
deselected otherwise. -/
theorem dfiCmd0_eq :
    s.dfiCmd0 i =
      match s.issue0 i with
      | some w => instrDecoder (isDdr w) w
      | none => DfiCmd.deselect := by
  have hdec : (s.comb i).dec0En = (s.issue0 i).any isDdr :=
    congrArg Command.dec0En comb_command
  rw [dfiCmd0, hdec]
  cases h : s.issue0 i with
  | none => rfl
  | some w => rw [(issue0_eq_some h).2.2.2]; rfl

theorem dfiCmd1_eq :
    s.dfiCmd1 i =
      match s.issue1 i with
      | some w => instrDecoder (isDdr w) w
      | none => DfiCmd.deselect := by
  have hdec : (s.comb i).dec1En = (s.issue1 i).any isDdr :=
    congrArg Command.dec1En comb_command
  rw [dfiCmd1, hdec]
  cases h : s.issue1 i with
  | none => rfl
  | some w => rw [(issue1_eq_some h).2.2.2.2]; rfl

end Dispatcher

end SoftMC
