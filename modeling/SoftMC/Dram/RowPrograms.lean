import SoftMC.Dram.Device
import SoftMC.Host.RowPrograms
/-!
# What the row programs do to the memory

`writeRow` leaves its pattern in every byte of one row and touches nothing
else, whatever state the banks are in; `readAndCompareRow` reads a row
burst by burst and changes nothing. Both rely on no bank being open or
closed, and leave their own closed.
-/

namespace SoftMC

open Banked

namespace RetentionTest

variable {L : Type*}

/-- The device's commands of a list of calls. -/
def deviceCalls (calls : List Call) : List DeviceCmd := calls.flatMap fun c => c.intended.device

/-- **A program's commands are its calls'.** -/
theorem labelled_program (ℓ : L) {calls : List Call} (hvalid : ∀ c ∈ calls, c.Valid) :
    labelled ℓ (program calls) = (deviceCalls calls).map (ℓ, ·) := by
  have hdecode := decode_program hvalid
  have hcmds : (program calls).flatMap deviceCmds =
      ((program calls).map decode).flatMap fun a => a.elim [] Action.device := by
    rw [List.flatMap_map]
    rfl
  rw [labelled, hcmds, hdecode, List.flatMap_map]
  rfl

/-- The bursts of a row, in the order the loop goes over them. -/
def bursts : List BurstCol := (List.range (NUM_COLS / 8)).map (BitVec.ofNat 7)

theorem mem_bursts (c : BurstCol) : c ∈ bursts := by
  refine List.mem_map.2 ⟨c.toNat, List.mem_range.2 c.isLt, ?_⟩
  rw [BitVec.ofNat_toNat, BitVec.setWidth_eq]

/-- Each column the loop names starts a burst. -/
theorem burstCol_column {k : ℕ} (hk : k < NUM_COLS / 8) :
    burstCol (BitVec.ofNat 10 (8 * k)) = some (BitVec.ofNat 7 k) := by
  have hk : k < 128 := hk
  have hlow : (BitVec.ofNat 10 (8 * k)).extractLsb' 0 3 = 0 := by
    apply BitVec.eq_of_toNat_eq
    rw [BitVec.extractLsb'_toNat, BitVec.toNat_ofNat, Nat.shiftRight_zero]
    change 8 * k % 2 ^ 10 % 2 ^ 3 = 0
    omega
  have hhigh : (BitVec.ofNat 10 (8 * k)).extractLsb' 3 7 = BitVec.ofNat 7 k := by
    apply BitVec.eq_of_toNat_eq
    rw [BitVec.extractLsb'_toNat, BitVec.toNat_ofNat, BitVec.toNat_ofNat,
      Nat.shiftRight_eq_div_pow]
    omega
  rw [burstCol, if_pos hlow, hhigh]

section Row

variable {row bank : UInt} {burst : UInt → Call} (cmd : BurstCol → DeviceCmd)

/-- **A row program opens its row, works on it and closes it.** -/
theorem deviceCalls_rowCalls
    (h : ∀ k < NUM_COLS / 8,
      (burst (.ofNat 32 (8 * k))).intended.device = [cmd (.ofNat 7 k)]) :
    deviceCalls (rowCalls row bank burst) =
      onRow (bank.setWidth BANK_WIDTH) (row.setWidth ROW_WIDTH) (bursts.map cmd) := by
  have hcols : (columns.flatMap fun i => [burst i, .wait (6 + 4)]).flatMap
      (fun c => c.intended.device) = bursts.map cmd := by
    rw [columns, bursts, List.flatMap_map, List.flatMap_assoc, List.map_map, List.map_eq_flatMap]
    refine List.flatMap_congr fun k hk => ?_
    rw [List.flatMap_cons, h k (List.mem_range.1 hk)]
    rfl
  rw [deviceCalls, rowCalls, List.flatMap_append, List.flatMap_append, hcols]
  simp [Call.intended, Action.device, DramCmd.device, onRow]

theorem rowCalls_valid (hb : bank.toNat < 8) (hr : row.toNat < 2 ^ 16)
    (h : ∀ i ∈ columns, (burst i).Valid) : ∀ c ∈ rowCalls row bank burst, c.Valid := by
  intro c hc
  simp only [rowCalls, List.mem_append, List.mem_cons, List.mem_flatMap, List.not_mem_nil,
    or_false] at hc
  rcases hc with ((rfl | rfl | rfl | rfl) | ⟨i, hi, rfl | rfl⟩) | (rfl | rfl | rfl | rfl)
  · exact hb
  · exact ⟨by decide, by decide⟩
  · exact ⟨hb, hr⟩
  · exact ⟨by decide, by decide⟩
  · exact h i hi
  · exact ⟨by decide, by decide⟩
  · exact ⟨by decide, by decide⟩
  · exact hb
  · exact ⟨by decide, by decide⟩
  · trivial

end Row

theorem column_lt {i : UInt} (hi : i ∈ columns) : i.toNat < 1024 := by
  obtain ⟨k, hk, rfl⟩ := List.mem_map.1 hi
  have hk : k < 128 := List.mem_range.1 hk
  rw [BitVec.toNat_ofNat]
  omega

variable {row bank : UInt} (hb : bank.toNat < 8) (hr : row.toNat < 2 ^ 16) (pattern : BitVec 8)

include hb hr

theorem writeRowCalls_valid : ∀ c ∈ writeRowCalls row bank pattern, c.Valid :=
  rowCalls_valid hb hr fun _ hi => ⟨hb, column_lt hi⟩

theorem readRowCalls_valid : ∀ c ∈ readRowCalls row bank, c.Valid :=
  rowCalls_valid hb hr fun _ hi => ⟨hb, column_lt hi⟩

/-- **`writeRow` fills its row**, from any state of the banks. -/
theorem exec_writeRow (ℓ : L) (m : Device) :
    exec m (labelled ℓ (program (writeRowCalls row bank pattern))) =
      some (⟨Function.update m.bank (bank.setWidth _) .idle,
        overwrite m.cell (bank.setWidth _) (row.setWidth _) bursts fun _ => .fill pattern⟩, []) := by
  rw [labelled_program ℓ (writeRowCalls_valid hb hr pattern), writeRowCalls,
    deviceCalls_rowCalls fun c => .write (bank.setWidth _) c (.fill pattern) false]
  · exact exec_write_row _ _ _ _ ℓ m
  · intro k hk
    simp [Call.intended, Action.device, DramCmd.device, burstCol_column hk]

/-- **`readAndCompareRow` reads its row.** -/
theorem exec_readRow (ℓ : L) (m : Device) :
    exec m (labelled ℓ (program (readRowCalls row bank))) =
      some (⟨Function.update m.bank (bank.setWidth _) .idle, m.cell⟩,
        bursts.map fun c => (ℓ, m.cell (bank.setWidth _) (row.setWidth _) c)) := by
  rw [labelled_program ℓ (readRowCalls_valid hb hr), readRowCalls,
    deviceCalls_rowCalls fun c => .read (bank.setWidth _) c false]
  · exact exec_read_row _ _ _ ℓ m
  · intro k hk
    simp [Call.intended, Action.device, DramCmd.device, burstCol_column hk]

end RetentionTest

end SoftMC
