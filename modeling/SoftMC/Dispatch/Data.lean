import SoftMC.Dispatch.Slots
import SoftMC.Common.Clocked
/-!
# The dispatcher's data signals

The rest of what the combinational block drives: the direction of the bus,
the write data with its enable, and the even tag of a read. And the runs of
the dispatcher alone, under any waveform of its inputs, with what it issues
in each DRAM cycle.
-/

namespace SoftMC

open Clocked

namespace Dispatcher

/-! ## One cycle -/

/-- The bus direction, the even tag and the write path. -/
structure Data where
  busWrite : Bool
  readBurstEvenNs : Bool
  dfiRddataEnEven : Bool
  writeBurstNs : Bool
  writeBurstDataNs : BitVec 8
  dfiWrdataEn : Bool

def Comb.data (c : Comb) : Data where
  busWrite := c.busWrite
  readBurstEvenNs := c.readBurstEvenNs
  dfiRddataEnEven := c.dfiRddataEnEven
  writeBurstNs := c.writeBurstNs
  writeBurstDataNs := c.writeBurstDataNs
  dfiWrdataEn := c.dfiWrdataEn

/-- A write recognised in each slot: the clock is enabled and was. -/
def writes0 (s : Dispatcher) (i : In) : Bool := (s.issue0 i).any fun w => isWrite w && s.cke0R
def writes1 (s : Dispatcher) (i : In) : Bool := (s.issue1 i).any fun w => isWrite w && s.cke1R

/-- The bus direction a slot leaves. -/
def dirAfter (o : Option Instr) (dir : Bool) : Bool :=
  match o with
  | some w => if opcode w = .setBusdir then decide (busDir w = BUS_DIR_WRITE) else dir
  | none => dir

/-- The pattern a slot leaves. -/
def patternAfter (o : Option Instr) (wr : Bool) (pattern : BitVec 8) : BitVec 8 :=
  match o with
  | some w => if wr then wrPattern w else pattern
  | none => pattern

variable {s : Dispatcher} {i : In}

/-- What a slot's `casex` does to the data signals, a read being one with
an even tag or not. -/
def Data.after (d : Data) (o : Option Instr) (even wr : Bool) : Data where
  busWrite := dirAfter o d.busWrite
  readBurstEvenNs := d.readBurstEvenNs || even
  dfiRddataEnEven := d.dfiRddataEnEven || even
  writeBurstNs := d.writeBurstNs || wr
  writeBurstDataNs := patternAfter o wr d.writeBurstDataNs
  dfiWrdataEn := d.dfiWrdataEn || wr

theorem Data.after_none (d : Data) : d.after none false false = d := by
  simp [Data.after, dirAfter, patternAfter]

theorem ddr0_data (w : Instr) (c : Comb) (hop : opcode w = .ddr) :
    (s.ddr0 i w c).data =
      c.data.after (some w) (readPins w && ckeBit w && s.cke0R)
        (writePins w && ckeBit w && s.cke0R) := by
  have hop' : ¬ opcode w = .setBusdir := by rw [hop]; decide
  simp only [ddr0, Data.after, dirAfter, patternAfter, if_neg hop']
  cases readPins w && ckeBit w && s.cke0R <;>
    simp only [Bool.false_eq_true, if_false, if_true, Comb.read0, Comb.read1] <;>
    cases writePins w && ckeBit w && s.cke0R <;> simp [Comb.data, Comb.write]

theorem ddr1_data (w : Instr) (c : Comb) (hop : opcode w = .ddr) :
    (s.ddr1 i w c).data = c.data.after (some w) false (writePins w && ckeBit w && s.cke1R) := by
  have hop' : ¬ opcode w = .setBusdir := by rw [hop]; decide
  simp only [ddr1, Data.after, dirAfter, patternAfter, if_neg hop']
  cases readPins w && ckeBit w && s.cke1R <;>
    simp only [Bool.false_eq_true, if_false, if_true, Comb.read1] <;>
    cases writePins w && ckeBit w && s.cke1R <;> simp [Comb.data, Comb.write]

/-- Slot `0`'s `casex`. -/
theorem arm0_data (w : Instr) (c : Comb) :
    (s.arm0 i w c).data = c.data.after (some w) (isRead w && s.cke0R) (isWrite w && s.cke0R) := by
  unfold arm0 isRead isWrite isDdr
  cases hop : opcode w with
  | ddr => exact ddr0_data w c hop
  | _ => simp [Data.after, dirAfter, patternAfter, hop, Comb.data, Comb.setBusdir, Comb.setTrefi,
      Comb.setTrfc, wait0]

/-- Slot `1`'s, which has no even tag. -/
theorem arm1_data (w : Instr) (c : Comb) :
    (s.arm1 i w c).data = c.data.after (some w) false (isWrite w && s.cke1R) := by
  unfold arm1 isWrite isDdr
  cases hop : opcode w with
  | ddr => exact ddr1_data w c hop
  | _ => simp [Data.after, dirAfter, patternAfter, hop, Comb.data, Comb.setBusdir, Comb.setTrefi,
      Comb.setTrfc, wait1]

/-- **The data signals of one cycle**: slot `0`'s effects, then slot
`1`'s. -/
theorem comb_data :
    (s.comb i).data =
      ((s.defaults i).data.after (s.issue0 i) (s.reads0 i) (s.writes0 i)).after (s.issue1 i) false
        (s.writes1 i) := by
  have h0 : (s.slot0 i (s.defaults i)).data =
      (s.defaults i).data.after (s.issue0 i) (s.reads0 i) (s.writes0 i) := by
    rw [slot0_eq]
    unfold reads0 writes0
    cases s.issue0 i with
    | none =>
      simp only [Option.any_none, Data.after_none]
      split <;> rfl
    | some w => exact arm0_data w _
  rw [comb_eq]
  unfold writes1
  cases s.issue1 i with
  | none =>
    simp only [Option.any_none, Data.after_none]
    split <;> exact h0
  | some w =>
    rw [arm1_data, h0]
    rfl

/-- **The direction of the bus** is the one set last. -/
theorem busWriteR_next :
    (Dispatcher.next false s i).busWriteR = dirAfter (s.issue1 i) (dirAfter (s.issue0 i) s.busWriteR) :=
  congrArg Data.busWrite comb_data

theorem readBurstEvenR_next : (Dispatcher.next false s i).readBurstEvenR = s.reads0 i := by
  refine (congrArg Data.readBurstEvenNs comb_data).trans ?_
  exact (Bool.or_false _).trans (Bool.false_or _)

theorem dfiRddataEnEven_eq : (s.comb i).dfiRddataEnEven = (s.readBurstEvenR || s.reads0 i) := by
  refine (congrArg Data.dfiRddataEnEven comb_data).trans ?_
  exact Bool.or_false _

/-- Each slot keeps a clock enable of its own. -/
theorem cke0R_next : (Dispatcher.next false s i).cke0R = ckeAfter (s.issue0 i) s.cke0R :=
  congrArg Command.cke0 comb_command

theorem cke1R_next : (Dispatcher.next false s i).cke1R = ckeAfter (s.issue1 i) s.cke1R :=
  congrArg Command.cke1 comb_command

/-- A clock that is enabled stays so where every command enables it. -/
theorem ckeAfter_of_enabled {o : Option Instr}
    (h : ∀ w, o = some w → isDdr w = true → ckeBit w = true) : ckeAfter o true = true := by
  cases o with
  | none => rfl
  | some w =>
    unfold ckeAfter
    cases hd : isDdr w with
    | false => simp [hd]
    | true => simp [hd, h w rfl hd]

/-- A read fills its cycle and the next, under the lock of its own. -/
theorem readBurstR_next : (Dispatcher.next false s i).readBurstR = (s.reads0 i || s.reads1 i) :=
  congrArg Command.readBurstNs comb_command

theorem readBurstOddR_next :
    (Dispatcher.next false s i).readBurstOddR =
      ((s.reads0 i || s.reads1 i) && i.periodicReadLock) :=
  congrArg Command.readBurstOddNs comb_command

theorem dfiRddataEn_eq :
    (s.comb i).dfiRddataEn = (s.reads0 i || s.reads1 i || s.readBurstR) :=
  congrArg Command.dfiRddataEn comb_command

theorem dfiRddataEnOdd_eq :
    (s.comb i).dfiRddataEnOdd =
      if s.reads0 i || s.reads1 i then i.periodicReadLock else s.readBurstOddR :=
  congrArg Command.dfiRddataEnOdd comb_command

theorem writeBurstR_next :
    (Dispatcher.next false s i).writeBurstR = (s.writes0 i || s.writes1 i) := by
  refine (congrArg Data.writeBurstNs comb_data).trans ?_
  exact congrArg (· || s.writes1 i) (Bool.false_or _)

theorem dfiWrdataEn_eq :
    (s.comb i).dfiWrdataEn = (s.writeBurstR || (s.writes0 i || s.writes1 i)) := by
  refine (congrArg Data.dfiWrdataEn comb_data).trans ?_
  exact Bool.or_assoc _ _ _

/-- The pattern registered is slot `1`'s over slot `0`'s over the old
one. -/
theorem writeBurstDataNs_eq :
    (s.comb i).writeBurstDataNs =
      patternAfter (s.issue1 i) (s.writes1 i)
        (patternAfter (s.issue0 i) (s.writes0 i) s.writeBurstDataR) :=
  congrArg Data.writeBurstDataNs comb_data

/-! ## Configuration -/

theorem arm0_arefSetTrfc (w : Instr) (c : Comb) :
    (s.arm0 i w c).arefSetTrfcNs = (decide (opcode w = .setTrfc) || c.arefSetTrfcNs) := by
  have hddr : (s.ddr0 i w c).arefSetTrfcNs = c.arefSetTrfcNs := by
    simp only [ddr0]
    repeat' split
    all_goals rfl
  unfold arm0
  cases opcode w with
  | ddr => exact hddr
  | _ => rfl

theorem arm1_arefSetTrfc (w : Instr) (c : Comb) :
    (s.arm1 i w c).arefSetTrfcNs = (decide (opcode w = .setTrfc) || c.arefSetTrfcNs) := by
  have hddr : (s.ddr1 i w c).arefSetTrfcNs = c.arefSetTrfcNs := by
    simp only [ddr1]
    repeat' split
    all_goals rfl
  unfold arm1
  cases opcode w with
  | ddr => exact hddr
  | _ => rfl

/-- The strobe of `SET_TRFC` is up after one, in either slot. -/
theorem arefSetTrfc_next :
    (Dispatcher.next false s i).arefSetTrfc =
      ((s.issue0 i).any (fun w => decide (opcode w = .setTrfc)) ||
        (s.issue1 i).any fun w => decide (opcode w = .setTrfc)) := by
  have h0 : (s.slot0 i (s.defaults i)).arefSetTrfcNs =
      (s.issue0 i).any fun w => decide (opcode w = .setTrfc) := by
    rw [slot0_eq]
    cases s.issue0 i with
    | none =>
      simp only [Option.any_none]
      split <;> rfl
    | some w => exact (arm0_arefSetTrfc w _).trans (Bool.or_false _)
  change (s.comb i).arefSetTrfcNs = _
  rw [comb_eq]
  cases s.issue1 i with
  | none =>
    simp only [Option.any_none, Bool.or_false]
    split <;> exact h0
  | some w => rw [arm1_arefSetTrfc, h0, Option.any_some, Bool.or_comm]

end Dispatcher

/-! ## Runs of the dispatcher alone -/

/-- **A run of the dispatcher** from reset, under any waveform of its
inputs. -/
structure DispatcherRun where
  wave : ℕ → Dispatcher.In

namespace DispatcherRun

open Dispatcher

variable (r : DispatcherRun)

/-- The registers at the start of cycle `n`, and what the block computes
in it. -/
def state (n : ℕ) : Dispatcher := run (Dispatcher.next false) Dispatcher.reset r.wave n

def comb (n : ℕ) : Dispatcher.Comb := (r.state n).comb (r.wave n)

/-- What is issued in DRAM cycle `h = 2 * n + s`: by slot `s` of cycle
`n`. -/
def issuedAt (h : ℕ) : Option Instr :=
  if h % 2 = 0 then (r.state (h / 2)).issue0 (r.wave (h / 2))
  else (r.state (h / 2)).issue1 (r.wave (h / 2))

/-- Every DDR instruction issued enables the clock. -/
def ClockEnabled : Prop :=
  ∀ h w, r.issuedAt h = some w → isDdr w = true → ckeBit w = true

variable {r}

theorem issuedAt_even (n : ℕ) : r.issuedAt (2 * n) = (r.state n).issue0 (r.wave n) := by
  rw [issuedAt, if_pos (Nat.mul_mod_right 2 n), Nat.mul_div_cancel_left n (by decide)]

theorem issuedAt_odd (n : ℕ) : r.issuedAt (2 * n + 1) = (r.state n).issue1 (r.wave n) := by
  have hdiv : (2 * n + 1) / 2 = n := by omega
  rw [issuedAt, if_neg (by omega), hdiv]

/-- An enabled clock stays enabled. -/
theorem cke (hcke : r.ClockEnabled) (n : ℕ) :
    (r.state n).cke0R = true ∧ (r.state n).cke1R = true := by
  induction n with
  | zero => exact ⟨rfl, rfl⟩
  | succ n ih =>
    constructor
    · refine (cke0R_next (s := r.state n)).trans ?_
      rw [ih.1, ← issuedAt_even]
      exact ckeAfter_of_enabled fun w => hcke _ w
    · refine (cke1R_next (s := r.state n)).trans ?_
      rw [ih.2, ← issuedAt_odd]
      exact ckeAfter_of_enabled fun w => hcke _ w

end DispatcherRun

end SoftMC
