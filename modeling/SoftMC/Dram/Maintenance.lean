import SoftMC.Dram.Timing
/-!
# What maintenance does to the memory

Each program of `maint_handler` closes the banks it needs closed, so it is
accepted in any state of the banks; none of them writes. Closing banks is
the trace they leave: a program of the application that counts on an open
row does not find it. The distances they keep are those of the constants
in `softMC.inc`, and for a refresh the configured tRFC.
-/

namespace SoftMC

open Banked TwoSlot

variable {L : Type*}

theorem labelled_decode (ℓ : L) (l : List Instr) :
    labelled ℓ l = (((l.map decode).flatMap fun a => a.elim [] Action.device)).map (ℓ, ·) := by
  rw [labelled, List.flatMap_map]
  rfl

/-! ## The programs decoded -/

theorem decode_maintDdr (x : BitVec 3) :
    decode (maintDdr x false true false false) = some (.ddr true (.precharge 0) none) ∧
      decode (maintDdr x false true false true) = some (.ddr true .prechargeAll none) ∧
      decode (maintDdr x false true true false) = some (.ddr true (.activate 0 0) none) ∧
      decode (maintDdr x true false true false) =
        some (.ddr true (.read 0 0 false false) none) ∧
      decode (maintDdr x true true false false) = some (.ddr true .zqShort none) ∧
      decode (maintDdr x false false true true) = some (.ddr true .refresh none) := by
  revert x
  decide

theorem decode_maintWait (count : BitVec 28) :
    decode (maintWait count) = some (.wait (count.setWidth 10)) := by
  change decode (ctrlWord 4#4 count) = _
  have hop : opcode (ctrlWord 4#4 count) = .wait := opcode_ctrlWord _ _
  rw [decode, hop, waitCount_ctrlWord]

namespace MaintProg

/-- A program, handed over in cycles with the inputs `i`. -/
def instrs (dir : BitVec 2) (p : MaintProg) (i : ℕ → MaintHandler.In) : List Instr :=
  (List.range (p.length dir)).map fun k => p.word k (i k)

/-- And decoded. -/
def actions (dir : BitVec 2) (trfc : BitVec 28) : MaintProg → List (Option Action)
  | .prRd =>
    [some (.setBusdir BUS_DIR_READ), does (.precharge 0) none, waitsFor DEF_TRP,
      does (.activate 0 0) none, waitsFor DEF_TRCD, does (.read 0 0 false false) none,
      waitsFor (DEF_TRAS - DEF_TRCD), does (.precharge 0) none, waitsFor DEF_TRP] ++
      if dir = BUS_DIR_READ then [] else [some (.setBusdir BUS_DIR_WRITE)]
  | .zq => [does .prechargeAll none, waitsFor DEF_TRP, does .zqShort none, waitsFor DEF_TZQCS]
  | .autoref =>
    [does .prechargeAll none, waitsFor DEF_TRP, does .refresh none, some (.wait (trfc.setWidth 10))]

/-- **What a program makes the hardware do.** -/
theorem decode_instrs (dir : BitVec 2) (p : MaintProg) (i : ℕ → MaintHandler.In) :
    (p.instrs dir i).map decode = p.actions dir (i 3).trfc := by
  cases p with
  | prRd =>
    have hdir : decode (maintBusdir 0#2) = some (.setBusdir BUS_DIR_READ) := by decide
    have hdir' : decode (maintBusdir BUS_DIR_WRITE) = some (.setBusdir BUS_DIR_WRITE) := by decide
    by_cases h : dir = BUS_DIR_READ
    · simp [instrs, length, actions, h, List.range_succ, word, decode_maintDdr, decode_maintWait,
        hdir]
    · simp [instrs, length, actions, h, List.range_succ, word, decode_maintDdr, decode_maintWait,
        hdir, hdir']
  | zq =>
    simp [instrs, length, actions, List.range_succ, word, decode_maintDdr, decode_maintWait]
  | autoref =>
    simp [instrs, length, actions, List.range_succ, word, decode_maintDdr, decode_maintWait]

/-! ## On the device -/

/-- The device's commands of a program. -/
def commands : MaintProg → List DeviceCmd
  | .prRd => onRow 0 0 [.read 0 0 false]
  | .zq | .autoref => [.prechargeAll, .service]

theorem labelled_instrs (ℓ : L) (dir : BitVec 2) (p : MaintProg) (i : ℕ → MaintHandler.In) :
    labelled ℓ (p.instrs dir i) = p.commands.map (ℓ, ·) := by
  rw [labelled_decode, decode_instrs]
  cases p with
  | prRd => by_cases h : dir = BUS_DIR_READ <;> simp [actions, h] <;> rfl
  | zq => rfl
  | autoref => rfl

/-- A periodic read reads the first burst of the memory and closes its
bank. -/
theorem exec_prRd (ℓ : L) (m : Device) :
    exec m (MaintProg.prRd.commands.map (ℓ, ·)) =
      some (⟨Function.update m.bank 0 .idle, m.cell⟩, [(ℓ, m.cell 0 0 0)]) :=
  exec_read_row 0 0 [0] ℓ m

/-- Calibration and refresh close all banks. -/
theorem exec_service (ℓ : L) (m : Device) :
    exec m (([.prechargeAll, .service] : List DeviceCmd).map (ℓ, ·)) =
      some (⟨fun _ => .idle, m.cell⟩, []) := by
  have hs : Banked.step (⟨fun _ => .idle, m.cell⟩ : Device) .service = some (⟨fun _ => .idle, m.cell⟩, []) :=
    step_service fun _ => rfl
  simp [exec_cons, hs]

/-- **A program relies on nothing.** -/
theorem selfContained (ℓ : L) (p : MaintProg) : SelfContained (p.commands.map (ℓ, ·)) := by
  intro m
  cases p with
  | prRd => rw [exec_prRd]; exact Option.some_ne_none _
  | zq => rw [commands, exec_service]; exact Option.some_ne_none _
  | autoref => rw [commands, exec_service]; exact Option.some_ne_none _

/-- **And writes nothing.** -/
theorem writeFree (ℓ : L) (p : MaintProg) : WriteFree (p.commands.map (ℓ, ·)) := by
  intro c hc b col d close
  obtain ⟨c', hc', rfl⟩ := List.mem_map.1 hc
  have hne : ∀ p : MaintProg, ∀ c ∈ p.commands, c ≠ .write b col d close := by
    intro p
    cases p <;> simp [commands, onRow]
  exact hne p c' hc'

end MaintProg

/-! ## The distances -/

/-- **The parts that maintenance suits**, refresh apart. -/
structure Ddr3.SuitsMaint (p : Ddr3) : Prop where
  tRP : p.tRP ≤ DEF_TRP + 1
  tRCD : p.tRCD ≤ DEF_TRCD + 1
  tRAS : p.tRAS ≤ DEF_TRAS + 2
  tRC : p.tRAS + p.tRP ≤ DEF_TRAS + DEF_TRP + 3
  tRRD : p.tRRD ≤ DEF_TRAS + DEF_TRP + 3
  tRTP : p.tRTP ≤ DEF_TRAS - DEF_TRCD + 1
  tCCD : p.tCCD ≤ DEF_TRAS - DEF_TRCD + DEF_TRP + 2
  turn : p.readToWrite ≤ DEF_TRAS - DEF_TRCD + DEF_TRP + 2
  tZQCS : p.tZQCS ≤ DEF_TZQCS + 1

namespace MaintProg

@[simp] theorem cost_trp : cost actionWait (waitsFor DEF_TRP) = 6 := rfl
@[simp] theorem cost_tras : cost actionWait (waitsFor (DEF_TRAS - DEF_TRCD)) = 8 := rfl
@[simp] theorem cost_tzqcs : cost actionWait (waitsFor DEF_TZQCS) = 64 := rfl

@[simp] theorem cost_trfc (trfc : BitVec 28) :
    cost actionWait (some (.wait (trfc.setWidth 10))) = trfc.toNat % 1024 := by
  rw [cost_of_some (n := trfc.toNat % 1024)]
  simp [actionWait, Action.waits, BitVec.toNat_setWidth]

variable {p : Ddr3} (hp : p.SuitsMaint) {trfc : BitVec 28}

include hp

/-- **A program keeps its distances.** -/
theorem paced_actions (dir : BitVec 2) (prog : MaintProg) :
    Paced actionWait p.gap (prog.actions dir trfc) := by
  obtain ⟨hrp, hrcd, hras, -, -, hrtp, -, -, -⟩ := hp
  simp only [DEF_TRP, DEF_TRCD, DEF_TRAS] at hrp hrcd hras hrtp
  cases prog with
  | prRd =>
    by_cases h : dir = BUS_DIR_READ <;>
      · simp [actions, h, Ddr3.cmdGap, Ddr3.afterClosing, Ddr3.afterActivate, Ddr3.afterColumn]
        omega
  | zq =>
    simp [actions, Ddr3.cmdGap, Ddr3.afterClosing]
    omega
  | autoref =>
    simp [actions, Ddr3.cmdGap, Ddr3.afterClosing]
    omega

/-- **And nothing is owed when it ends**, a refresh being waited for. -/
theorem settled_actions (dir : BitVec 2) (prog : MaintProg)
    (hrfc : prog = .autoref → p.tRFC ≤ trfc.toNat % 1024 + 1) :
    Settled actionWait p.gap (fun _ => True) (prog.actions dir trfc) := by
  obtain ⟨hrp, hrcd, hras, hrc, hrrd, hrtp, hccd, hturn, hzq⟩ := hp
  simp only [DEF_TRP, DEF_TRCD, DEF_TRAS, DEF_TZQCS] at hrp hrcd hras hrc hrrd hrtp hccd hturn hzq
  have hpre : ∀ y, p.gap (does (.precharge 0) none) y ≤ 7 :=
    gap_does_le fun c => Nat.le_trans (cmdGap_precharge_le 0 c) hrp
  have hall : ∀ y, p.gap (does .prechargeAll none) y ≤ 7 :=
    gap_does_le fun c => Nat.le_trans (cmdGap_prechargeAll_le c) hrp
  have hact : ∀ y, p.gap (does (.activate 0 0) none) y ≤ 23 :=
    gap_does_le (cmdGap_activate_le hrc hrrd (by omega))
  have hread : ∀ y, p.gap (does (.read 0 0 false false) none) y ≤ 16 :=
    gap_does_le (afterColumn_le hturn hccd (by omega))
  have hzqcs : ∀ y, p.gap (does .zqShort none) y ≤ 65 :=
    gap_does_le fun c => Nat.le_trans (cmdGap_service_le c).2 hzq
  cases prog with
  | prRd =>
    by_cases h : dir = BUS_DIR_READ <;>
      · simp only [actions, h, if_true, if_false, List.append_nil, List.cons_append,
          List.nil_append, settled_cons, settled_nil, gap_busdir_left, gap_wait_left, total_cons,
          total_nil, cost_does, cost_trp, cost_tras, Nat.zero_le, implies_true, and_true,
          true_and, forall_const]
        exact ⟨fun y => Nat.le_trans (hpre y) (by omega), fun y => Nat.le_trans (hact y) (by omega),
          fun y => Nat.le_trans (hread y) (by omega), fun y => Nat.le_trans (hpre y) (by omega)⟩
  | zq =>
    simp only [actions, settled_cons, settled_nil, gap_wait_left, total_cons, total_nil, cost_does,
      cost_trp, cost_tzqcs, Nat.zero_le, implies_true, and_true, true_and, forall_const]
    exact ⟨fun y => Nat.le_trans (hall y) (by omega), hzqcs⟩
  | autoref =>
    have href : ∀ y, p.gap (does .refresh none) y ≤ trfc.toNat % 1024 + 1 :=
      gap_does_le fun c => Nat.le_trans (cmdGap_service_le c).1 (hrfc rfl)
    simp only [actions, settled_cons, settled_nil, gap_wait_left, total_cons, total_nil, cost_does,
      cost_trp, cost_trfc, Nat.zero_le, implies_true, and_true, true_and, forall_const]
    exact ⟨fun y => Nat.le_trans (hall y) (by omega), fun y => Nat.le_trans (href y) (by omega)⟩

end MaintProg

end SoftMC
