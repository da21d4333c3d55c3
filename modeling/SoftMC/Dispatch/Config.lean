import SoftMC.Dispatch.Data
/-!
# What the dispatcher configures

A SET_TREFI or a SET_TRFC in either slot strobes its value to
`autoref_config`. Where both slots set the same register, slot `1` has the
last word.
-/

namespace SoftMC

/-- The value an instruction sets by the opcode `op`. -/
def sets (op : Opcode) (w : Instr) : Option (BitVec 28) :=
  if opcode w = op then some (configValue w) else none

theorem sets_eq_some {op : Opcode} {w : Instr} {v : BitVec 28} (h : sets op w = some v) :
    opcode w = op ∧ configValue w = v := by
  unfold sets at h
  split at h
  · rename_i hop
    exact ⟨hop, Option.some.inj h⟩
  · cases h

namespace Dispatcher

/-- What is strobed to `autoref_config`. -/
structure Config where
  interval : Option (BitVec 28)
  trfc : Option (BitVec 28)

def Comb.config (c : Comb) : Config where
  interval := if c.arefSetIntervalNs then some c.arefIntervalNs else none
  trfc := if c.arefSetTrfcNs then some c.arefTrfcNs else none

section Arms

variable (s : Dispatcher) (i : In) (instr : Instr) (c : Comb)

theorem ddr0_config : (s.ddr0 i instr c).config = c.config := by
  simp only [ddr0]; split_ifs <;> rfl

theorem ddr1_config : (s.ddr1 i instr c).config = c.config := by
  simp only [ddr1]; split_ifs <;> rfl

/-- Only the two arms of `autoref_config` change it. -/
theorem arm0_config :
    (s.arm0 i instr c).config =
      { interval := sets .setTrefi instr <|> c.config.interval
        trfc := sets .setTrfc instr <|> c.config.trfc } := by
  unfold arm0 sets
  cases opcode instr with
  | ddr => exact ddr0_config s i instr c
  | _ => rfl

theorem arm1_config :
    (s.arm1 i instr c).config =
      { interval := sets .setTrefi instr <|> c.config.interval
        trfc := sets .setTrfc instr <|> c.config.trfc } := by
  unfold arm1 sets
  cases opcode instr with
  | ddr => exact ddr1_config s i instr c
  | _ => rfl

end Arms

variable {s : Dispatcher} {i : In}

/-- **The configuration of one cycle.** -/
theorem comb_config :
    (s.comb i).config =
      { interval := (s.issue1 i).bind (sets .setTrefi) <|> (s.issue0 i).bind (sets .setTrefi)
        trfc := (s.issue1 i).bind (sets .setTrfc) <|> (s.issue0 i).bind (sets .setTrfc) } := by
  have h0 : (s.slot0 i (s.defaults i)).config =
      { interval := (s.issue0 i).bind (sets .setTrefi)
        trfc := (s.issue0 i).bind (sets .setTrfc) } := by
    rw [slot0_eq]
    cases s.issue0 i with
    | none => simp only; split <;> rfl
    | some w =>
      refine (arm0_config s i w _).trans ?_
      change Config.mk (sets .setTrefi w <|> none) (sets .setTrfc w <|> none) = _
      simp
  rw [comb_eq]
  cases s.issue1 i with
  | none =>
    simp only
    refine Eq.trans ?_ h0
    split <;> rfl
  | some w => rw [arm1_config, h0]; rfl

/-- What is strobed stands in the registers of the next cycle. -/
theorem config_next :
    (if (Dispatcher.next false s i).arefSetInterval then
        some (Dispatcher.next false s i).arefInterval else none) =
        ((s.issue1 i).bind (sets .setTrefi) <|> (s.issue0 i).bind (sets .setTrefi)) ∧
      (if (Dispatcher.next false s i).arefSetTrfc then
        some (Dispatcher.next false s i).arefTrfc else none) =
        ((s.issue1 i).bind (sets .setTrfc) <|> (s.issue0 i).bind (sets .setTrfc)) :=
  ⟨congrArg Config.interval comb_config, congrArg Config.trfc comb_config⟩

end Dispatcher

end SoftMC
