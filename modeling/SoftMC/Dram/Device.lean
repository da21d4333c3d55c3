import SoftMC.Common.Banked
import SoftMC.Common.Distances
import SoftMC.Host.Format
import Mathlib.Data.Fintype.EquivFin
/-!
# The memory behind the controller

The DIMM as a banked memory: what a word of the instruction queues does to
it, once the hardware has decoded it. A burst has eight columns of eight
bytes, and the mode register that the MIG project sets up fixes its length
whatever `A12` says; a burst that does not start at its first column, a
low clock enable, a mode register set and a long calibration are left
outside.

The distances are those of the DDR3 standard, in DRAM cycles, with the
parameters of a part left open.
-/

namespace SoftMC

open Banked Dispatcher TwoSlot

/-- The data of a burst: 64 bytes. -/
abbrev Burst := BitVec 512

namespace Burst

/-- `rbuf8[j]`. -/
def byte (x : Burst) (j : ℕ) : BitVec 8 := x.extractLsb' (8 * j) 8

/-- What a write leaves: its pattern in every byte. -/
def fill (pattern : BitVec 8) : Burst := BitVec.replicate 64 pattern

theorem byte_fill (pattern : BitVec 8) {j : ℕ} (hj : j < 64) : byte (fill pattern) j = pattern := by
  refine BitVec.eq_of_getLsbD_eq fun k hk => ?_
  rw [byte, fill, BitVec.getLsbD_extractLsb', BitVec.getLsbD_replicate, decide_eq_true hk,
    decide_eq_true (show 8 * j + k < 8 * 64 by omega), Bool.true_and, Bool.true_and,
    Nat.mul_add_mod, Nat.mod_eq_of_lt hk]

end Burst

instance : Fintype (BitVec BANK_WIDTH) :=
  .ofEquiv (Fin (2 ^ BANK_WIDTH)) ⟨BitVec.ofFin, BitVec.toFin, fun _ => rfl, fun _ => rfl⟩

/-- The columns of a row, by their bursts. -/
abbrev BurstCol := BitVec 7

abbrev DeviceCmd := Cmd (BitVec BANK_WIDTH) (BitVec ROW_WIDTH) BurstCol Burst
abbrev Device := Memory (BitVec BANK_WIDTH) (BitVec ROW_WIDTH) BurstCol Burst
abbrev Cells := BitVec BANK_WIDTH → BitVec ROW_WIDTH → BurstCol → Burst

/-! ## What an instruction does -/

/-- The burst a column address starts, if it starts one. -/
def burstCol (col : BitVec 10) : Option BurstCol :=
  if col.extractLsb' 0 3 = 0 then some (col.extractLsb' 3 7) else none

/-- A command on the pins, with the pattern of a write. -/
def DramCmd.device (pattern : Option (BitVec 8)) : DramCmd → List DeviceCmd
  | .activate bank row => [.activate bank row]
  | .precharge bank => [.precharge bank]
  | .prechargeAll => [.prechargeAll]
  | .write bank col autoPrecharge _ =>
    match burstCol col, pattern with
    | some c, some p => [.write bank c (.fill p) autoPrecharge]
    | _, _ => [.other]
  | .read bank col autoPrecharge _ =>
    match burstCol col with
    | some c => [.read bank c autoPrecharge]
    | none => [.other]
  | .zqShort | .refresh => [.service]
  | .zqLong | .modeRegister _ _ => [.other]
  | .nop => []

/-- An instruction decoded. Only a DDR instruction reaches the device. -/
def Action.device : Action → List DeviceCmd
  | .ddr true cmd pattern => cmd.device pattern
  | .ddr false _ _ => [.other]
  | .setBusdir _ | .wait _ | .setTrefi _ | .setTrfc _ | .endIseq => []

/-- **What the device is given** for a word of the queues. -/
def deviceCmds (w : Instr) : List DeviceCmd := (decode w).elim [] Action.device

/-- And for a program, with a label. -/
def labelled {L : Type*} (ℓ : L) (l : List Instr) : List (L × DeviceCmd) :=
  (l.flatMap deviceCmds).map (ℓ, ·)

/-! ### Reads -/

def DramCmd.isRead : DramCmd → Bool
  | .read _ _ _ _ => true
  | .activate _ _ | .precharge _ | .prechargeAll | .write _ _ _ _ => false
  | .zqShort | .zqLong | .refresh | .modeRegister _ _ | .nop => false

def Action.isRead : Action → Bool
  | .ddr true cmd _ => cmd.isRead
  | .ddr false _ _ | .setBusdir _ | .wait _ | .setTrefi _ | .setTrfc _ | .endIseq => false

theorem DfiCmd.isRead_dramCmd {c : DfiCmd} {b : BitVec BANK_WIDTH} {a : BitVec ROW_WIDTH}
    (hb : c.bank = some b) (ha : c.address = some a) :
    c.dramCmd.any DramCmd.isRead = (!c.csN && c.rasN && !c.casN && c.weN) := by
  obtain ⟨cs, ras, cas, we, bank, address⟩ := c
  obtain rfl : bank = some b := hb
  obtain rfl : address = some a := ha
  cases cs with
  | true => rfl
  | false =>
    cases ras <;> cases cas <;> cases we <;> try rfl
    all_goals
      simp only [DfiCmd.dramCmd, Option.any_some]
      split <;> rfl

/-- **The dispatcher recognises the reads.** -/
theorem any_isRead_decode (w : Instr) : (decode w).any Action.isRead = isRead w := by
  unfold decode isRead isDdr
  cases hop : opcode w with
  | ddr =>
    have hpins := DfiCmd.isRead_dramCmd (c := instrDecoder true w) rfl rfl
    change _ = readPins w at hpins
    rw [← hpins]
    cases hke : ckeBit w <;> cases (instrDecoder true w).dramCmd <;> simp [Action.isRead]
  | _ => rfl

section Labels

variable {L : Type*} (ℓ : L)

theorem DramCmd.labels_of_reads {cmd : DramCmd} {x : Option (BitVec 8)}
    (h : Cmd.other ∉ cmd.device x) :
    (((cmd.device x).map (ℓ, ·)).filter fun c => c.2.isRead).map Prod.fst =
      if cmd.isRead then [ℓ] else [] := by
  cases cmd with
  | read bank col ap bl =>
    cases hc : burstCol col with
    | none => simp [device, hc] at h
    | some c => simp [device, hc, Cmd.isRead, isRead]
  | write bank col ap bl =>
    cases hc : burstCol col <;> cases x <;> simp_all [device, Cmd.isRead, isRead]
  | _ => simp [device, Cmd.isRead, isRead]

/-- A word gives data if it is a read. -/
theorem labels_of_reads {w : Instr} (h : Cmd.other ∉ deviceCmds w) :
    (((deviceCmds w).map (ℓ, ·)).filter fun c => c.2.isRead).map Prod.fst =
      if isRead w then [ℓ] else [] := by
  rw [← any_isRead_decode]
  unfold deviceCmds at *
  cases hd : decode w with
  | none => rfl
  | some a =>
    rw [hd] at h
    cases a with
    | ddr cke cmd x =>
      cases cke with
      | true => exact DramCmd.labels_of_reads ℓ h
      | false => simp [Action.device] at h
    | _ => rfl

omit ℓ in
theorem labels_of_stream {l : List (L × Instr)} (h : ∀ e ∈ l, Cmd.other ∉ deviceCmds e.2) :
    ((l.flatMap fun e => (deviceCmds e.2).map (e.1, ·)).filter fun c => c.2.isRead).map Prod.fst =
      (l.filter fun e => isRead e.2).map Prod.fst := by
  induction l with
  | nil => rfl
  | cons e l ih =>
    rw [List.flatMap_cons, List.filter_append, List.map_append,
      labels_of_reads e.1 (h e List.mem_cons_self), ih fun e' he' => h e' (List.mem_cons_of_mem e he')]
    cases hr : isRead e.2 <;> simp [hr]

end Labels

/-! ## What distance it asks for -/

/-- **The parameters of a part**, in DRAM cycles. `tWR` and `tWTR` count
from the end of a burst. -/
structure Ddr3 where
  tRP : ℕ
  tRCD : ℕ
  tRAS : ℕ
  tRRD : ℕ
  tCCD : ℕ
  tRTP : ℕ
  tWR : ℕ
  tWTR : ℕ
  tRFC : ℕ
  tZQCS : ℕ
  CL : ℕ
  CWL : ℕ
  deriving DecidableEq, Repr

namespace Ddr3

variable (p : Ddr3)

/-- From a write command to a precharge of its bank: the latency, a burst
of four cycles, and the recovery. -/
def writeToPre : ℕ := p.CWL + 4 + p.tWR

/-- From a write to a read. -/
def writeToRead : ℕ := p.CWL + 4 + p.tWTR

/-- From a read to a write, the bus turned. -/
def readToWrite : ℕ := p.CL + p.tCCD + 2 - p.CWL

/-- What a command asks for that leaves banks closed, `t` from now: they
can be activated, and all of them serviced. -/
def afterClosing (banks : BitVec BANK_WIDTH → Bool) (t : ℕ) : DramCmd → ℕ
  | .activate b _ => if banks b then t else 0
  | .refresh | .zqShort => t
  | .precharge _ | .prechargeAll | .write _ _ _ _ | .read _ _ _ _ => 0
  | .zqLong | .modeRegister _ _ | .nop => 0

def afterActivate (b : BitVec BANK_WIDTH) : DramCmd → ℕ
  | .activate b' _ => if b = b' then p.tRAS + p.tRP else p.tRRD
  | .precharge b' => if b = b' then p.tRAS else 0
  | .prechargeAll => p.tRAS
  | .write b' _ _ _ | .read b' _ _ _ => if b = b' then p.tRCD else 0
  | .refresh | .zqShort | .zqLong | .modeRegister _ _ | .nop => 0

/-- A column command that closes its bank by itself, or does not. -/
def afterColumn (b : BitVec BANK_WIDTH) (autoPrecharge : Bool) (write read toPre : ℕ) :
    DramCmd → ℕ
  | .write _ _ _ _ => write
  | .read _ _ _ _ => read
  | .precharge b' => if b = b' then toPre else 0
  | .prechargeAll => toPre
  | .activate b' _ => if autoPrecharge && b == b' then toPre + p.tRP else 0
  | .refresh | .zqShort => if autoPrecharge then toPre + p.tRP else 0
  | .zqLong | .modeRegister _ _ | .nop => 0

/-- A service keeps everything off. -/
def afterService (t : ℕ) : DramCmd → ℕ
  | .nop => 0
  | .activate _ _ | .precharge _ | .prechargeAll | .write _ _ _ _ | .read _ _ _ _ => t
  | .refresh | .zqShort | .zqLong | .modeRegister _ _ => t

/-- **The distance of two commands**, the first before the second. -/
def cmdGap (c c' : DramCmd) : ℕ :=
  match c with
  | .activate b _ => p.afterActivate b c'
  | .precharge b => afterClosing (· == b) p.tRP c'
  | .prechargeAll => afterClosing (fun _ => true) p.tRP c'
  | .write b _ autoPrecharge _ =>
    p.afterColumn b autoPrecharge p.tCCD p.writeToRead p.writeToPre c'
  | .read b _ autoPrecharge _ => p.afterColumn b autoPrecharge p.readToWrite p.tCCD p.tRTP c'
  | .refresh => afterService p.tRFC c'
  | .zqShort => afterService p.tZQCS c'
  | .zqLong | .modeRegister _ _ | .nop => 0

end Ddr3

end SoftMC
