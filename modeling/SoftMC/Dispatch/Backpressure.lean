import SoftMC.Dispatch.Run
/-!
# Program order under back-pressure

`wait_cycles_r` keeps counting while `dfi_ready` is low. At an even
residue the next instruction is due in slot `1` alone, in the one cycle
with the counter at two; a stall in that cycle lets it pass, and the next
ready cycle opens slot `0` first, on the instruction behind. Any other
stall only delays.
-/

namespace SoftMC

open Clocked TwoSlot

/-- **Program order** of a stream of issued instructions: they are the
first ones of the program, each at least the count of its WAIT, or one
DRAM cycle, before its successor. -/
structure InOrder (P : List Instr) (issued : List (ℕ × Instr)) : Prop where
  order : issued.map Prod.snd <+: P
  apart : ∀ i, (hi : i + 1 < issued.length) →
    issued[i].1 + (match waitOf issued[i].2 with | some n => n | none => 1) ≤ issued[i + 1].1

/-- Spacing is program order. -/
theorem inOrder_of_spaced {P : List Instr} {issued : List (ℕ × Instr)} {t : ℕ}
    (hP : issued.map Prod.snd <+: P) (hs : Spaced waitOf t issued) : InOrder P issued := by
  refine ⟨hP, fun i hi => ?_⟩
  have hcost : ∀ w, cost waitOf w = match waitOf w with | some n => n | none => 1 := by
    intro w
    unfold cost
    cases waitOf w <;> rfl
  rw [← hcost]
  exact hs.getElem_le waitOf hi

namespace Dispatch

variable {d : Dispatch}

/-- `dfi_ready` is low at a counter of two with both pipe outputs
valid. -/
def StallsAtTwo (d : Dispatch) (n : ℕ) : Prop :=
  (d.wave n).dfiReady = false ∧ (d.state n).iseq.disp.waitCyclesR = 2#10 ∧
    (d.state n).iseq.instr0DispEn = true ∧ (d.state n).iseq.instr1DispEn = true

instance (d : Dispatch) (n : ℕ) : Decidable (d.StallsAtTwo n) :=
  inferInstanceAs (Decidable (_ ∧ _ ∧ _ ∧ _))

/-- It is the stall that breaks the order of the two-slot machine. -/
theorem badStall_iff {n : ℕ} (h : (d.state n).Flowing) :
    BadStall (d.wave n).dfiReady (d.state n).slots ↔ d.StallsAtTwo n := by
  have hw : (d.state n).slots.wait = 2 ↔ (d.state n).iseq.disp.waitCyclesR = 2#10 :=
    ⟨fun h => BitVec.eq_of_toNat_eq h, fun h => by unfold Exec.slots; rw [h]; rfl⟩
  have h0 : (d.state n).content0 ≠ [] ↔ (d.state n).iseq.instr0DispEn = true := by
    rw [← Bool.not_eq_false]; exact h.pipe0.valid_iff.not.symm
  have h1 : (d.state n).content1 ≠ [] ↔ (d.state n).iseq.instr1DispEn = true := by
    rw [← Bool.not_eq_false]; exact h.pipe1.valid_iff.not.symm
  have hq : (d.state n).slots.lead ≠ [] ∧ (d.state n).slots.trail ≠ [] ↔
      (d.state n).content0 ≠ [] ∧ (d.state n).content1 ≠ [] := by
    unfold Exec.slots
    cases (d.state n).iseq.disp.instrSrcR
    · exact Iff.rfl
    · exact And.comm
  rw [BadStall, StallsAtTwo, hw, hq, h0, h1]

/-- **Back-pressure keeps the program order** in every run without a stall
at a counter of two with both outputs valid. -/
theorem inOrder_of_no_stallsAtTwo {P : Program} (hload : d.Loads P.instrs) (hidle : d.Idle) {n : ℕ}
    (hstall : ∀ k < n, ¬ d.StallsAtTwo k) : InOrder P.instrs (d.issued n) := by
  have hlater : ∀ m, 2 + m ≤ n → InOrder P.instrs (d.issued (2 + m)) := by
    intro m hm
    have hslots := d.slots_two hidle hload
    have hheld : Held (d.state 2).slots P.instrs := by
      rw [hslots]; exact Or.inl (Or.inl ⟨Or.inl rfl, rfl⟩)
    obtain ⟨R, hR, -, hspaced, -⟩ := (d.isRun hload P.waits).keepsOrder hheld P.waits (n := m)
      fun k hk hbad => hstall (2 + k) (by omega) ((badStall_iff (by
        rw [Nat.add_comm]; exact d.flowing k)).1 hbad)
    rw [← d.issued_eq] at hR hspaced
    exact inOrder_of_spaced ⟨R, hR.symm⟩ hspaced
  rcases Nat.lt_or_ge n 2 with hn | hn
  · -- nothing is issued before cycle `2`
    have hnil : d.issued n = [] := trace_eq_nil fun k hk => d.events_of_lt (by omega)
    rw [hnil]
    exact ⟨List.nil_prefix, fun i hi => absurd hi (by simp)⟩
  · obtain ⟨m, rfl⟩ := Nat.exists_eq_add_of_le hn
    exact hlater m (Nat.le_refl _)

/-- WAIT 3, two DDR instructions and the END. -/
def waitThree : Program where
  instrs := [0x40000003#32, 0x81190005#32, 0x81291000#32, 0x00000000#32]
  ends := ⟨[0x40000003#32, 0x81190005#32, 0x81291000#32], 0x00000000#32, rfl, by decide⟩
  waits := posWaits_of_ne (by simp [waitOf, opcode, waitCount])

/-- A stall in cycle `4`, at a counter of zero, does no harm. -/
theorem waitThree_inOrder :
    InOrder waitThree.instrs ((fromReset waitThree.instrs fun n => n != 4).issued 5) :=
  inOrder_of_no_stallsAtTwo (P := waitThree) (d := fromReset waitThree.instrs fun n => n != 4) rfl
    ⟨rfl, rfl⟩ (by decide +kernel)

/-- **One stalled cycle swaps two instructions**: cycle `3` holds the
counter's even residue, and cycle `4` issues the third instruction before
the second. -/
theorem waitThree_reordered :
    (fromReset waitThree.instrs fun n => n != 3).Loads waitThree.instrs ∧
      (fromReset waitThree.instrs fun n => n != 3).Idle ∧
      ¬ InOrder waitThree.instrs ((fromReset waitThree.instrs fun n => n != 3).issued 5) := by
  refine ⟨rfl, ⟨rfl, rfl⟩, fun h => ?_⟩
  have hissued : ((fromReset waitThree.instrs fun n => n != 3).issued 5).map Prod.snd =
      [0x40000003#32, 0x81291000#32, 0x81190005#32] := by decide +kernel
  have horder := h.order
  rw [hissued] at horder
  exact absurd horder (by decide +kernel)

end Dispatch

end SoftMC
