import SoftMC.Model.MaintHandler
import Mathlib.Tactic.IntervalCases
/-!
# The maintenance programs

What `maint_handler` hands over for each request, instruction by
instruction, and the step of its state counter that belongs to each. A
handler at a step of a program offers that step's instruction and moves on
when it is taken; behind the last one it offers an END for one cycle.
-/

namespace SoftMC

/-! ## The programs -/

/-- The programs of `maint_handler`. -/
inductive MaintProg
  | prRd
  | zq
  | autoref
  deriving DecidableEq, Repr

namespace MaintProg

/-- The number of instructions, the END apart. The periodic read puts the
direction of the bus back where it was not reading. -/
def length (dir : BitVec 2) : MaintProg → ℕ
  | .prRd => if dir = BUS_DIR_READ then 9 else 10
  | .zq | .autoref => 4

/-- The value of `maint_state` behind `k` instructions. -/
def step (dir : BitVec 2) (p : MaintProg) (k : ℕ) : BitVec 4 :=
  if k < p.length dir then .ofNat 4 k else MAINT_FIN

/-- Instruction `k`, handed over in a cycle with inputs `i`. -/
def word : MaintProg → ℕ → MaintHandler.In → Instr
  | .prRd, 0, _ => maintBusdir 0
  | .prRd, 1, i => maintDdr i.ddrX false true false false
  | .prRd, 2, _ => maintWait (.ofNat 28 DEF_TRP)
  | .prRd, 3, i => maintDdr i.ddrX false true true false
  | .prRd, 4, _ => maintWait (.ofNat 28 DEF_TRCD)
  | .prRd, 5, i => maintDdr i.ddrX true false true false
  | .prRd, 6, _ => maintWait (.ofNat 28 (DEF_TRAS - DEF_TRCD))
  | .prRd, 7, i => maintDdr i.ddrX false true false false
  | .prRd, 8, _ => maintWait (.ofNat 28 DEF_TRP)
  | .prRd, 9, _ => maintBusdir BUS_DIR_WRITE
  | .zq, 0, i => maintDdr i.ddrX false true false true
  | .zq, 1, _ => maintWait (.ofNat 28 DEF_TRP)
  | .zq, 2, i => maintDdr i.ddrX true true false false
  | .zq, 3, _ => maintWait (.ofNat 28 DEF_TZQCS)
  | .autoref, 0, i => maintDdr i.ddrX false true false true
  | .autoref, 1, _ => maintWait (.ofNat 28 DEF_TRP)
  | .autoref, 2, i => maintDdr i.ddrX false false true true
  | .autoref, 3, i => maintWait i.trfc
  | _, _, _ => maintEnd

theorem length_prRd (dir : BitVec 2) :
    9 ≤ MaintProg.prRd.length dir ∧ MaintProg.prRd.length dir ≤ 10 := by
  rw [length]
  split_ifs <;> omega

theorem length_pos (dir : BitVec 2) (p : MaintProg) : 0 < p.length dir := by
  have := length_prRd dir
  cases p
  · omega
  all_goals decide +revert

theorem length_le (dir : BitVec 2) (p : MaintProg) : p.length dir ≤ 10 := by
  cases p
  · exact (length_prRd dir).2
  all_goals decide +revert

theorem opcode_maintDdr (x : BitVec 3) (ras cas we a10 : Bool) :
    opcode (maintDdr x ras cas we a10) = .ddr := by
  revert x ras cas we a10
  decide

theorem opcode_maintWait (count : BitVec 28) : opcode (maintWait count) = .wait := by
  have h : (maintWait count).extractLsb' 28 4 = 4#4 := BitVec.extractLsb'_append_eq_left
  rw [opcode, h]
  rfl

theorem opcode_maintEnd : opcode maintEnd = .endIseq := by decide

/-- **Program by program**: the ten instructions of the periodic read, and
the four of each of the others. -/
@[elab_as_elim]
theorem by_program {motive : MaintProg → ℕ → Prop} {p : MaintProg} {k : ℕ} {dir : BitVec 2}
    (hk : k < p.length dir) (prRd : ∀ k < 10, motive .prRd k) (zq : ∀ k < 4, motive .zq k)
    (autoref : ∀ k < 4, motive .autoref k) : motive p k := by
  cases p with
  | prRd => exact prRd k (Nat.lt_of_lt_of_le hk (length_le dir _))
  | zq => exact zq k hk
  | autoref => exact autoref k hk

/-- No instruction of a program closes its sequence. -/
theorem opcode_word {p : MaintProg} {k : ℕ} {dir : BitVec 2} (i : MaintHandler.In)
    (hk : k < p.length dir) : opcode (p.word k i) ≠ .endIseq := by
  refine by_program hk (fun k h => ?_) (fun k h => ?_) fun k h => ?_
  all_goals
    interval_cases k <;> simp only [word, opcode_maintDdr, opcode_maintWait] <;> decide

end MaintProg

/-! ## A handler at a step -/

namespace MaintHandler

/-- The process flag of `p` is set, and no other. -/
def Runs (h : MaintHandler) (p : MaintProg) : Prop :=
  h.prRdProcessR = decide (p = .prRd) ∧ h.zqProcessR = decide (p = .zq) ∧
    h.autorefProcessR = decide (p = .autoref)

/-- No process flag is set. -/
def Quiet (h : MaintHandler) : Prop :=
  h.prRdProcessR = false ∧ h.zqProcessR = false ∧ h.autorefProcessR = false

/-- The handler has handed over `k` instructions of `p`. -/
structure At (h : MaintHandler) (p : MaintProg) (k : ℕ) : Prop where
  runs : h.Runs p
  state : h.maintState = p.step h.curBusDirR k

variable {h : MaintHandler} {i : In} {p : MaintProg} {k : ℕ}

theorem quiet_reset : reset.Quiet := ⟨rfl, rfl, rfl⟩

theorem Quiet.maintInstrEn (hq : h.Quiet) : h.maintInstrEn = false := by
  simp [MaintHandler.maintInstrEn, maintProcess, hq.1, hq.2.1, hq.2.2]

theorem At.maintInstrEn (ha : h.At p k) : h.maintInstrEn = true := by
  obtain ⟨h1, h2, h3⟩ := ha.runs
  cases p <;> simp [MaintHandler.maintInstrEn, maintProcess, h1, h2, h3]

/-- The case of a program. -/
def progCase (h : MaintHandler) (i : In) (p : MaintProg) (maintAck : Bool) (c : Comb) : Comb :=
  match p with
  | .prRd => h.prRdCase i maintAck c
  | .zq => h.zqCase i maintAck c
  | .autoref => h.autorefCase i maintAck c

/-- The block at a step: nothing is entered, and the program's case
applies. -/
theorem At.comb_eq (ha : h.At p k) (hack : i.prRdAck = false) (maintAck : Bool) :
    h.comb i maintAck = h.progCase i p maintAck h.defaults := by
  obtain ⟨h1, h2, h3⟩ := ha.runs
  cases p <;> simp [comb, process, enter, maintProcess, progCase, h1, h2, h3, hack]

theorem At.maintState (ha : h.At p k) (hk : k < p.length h.curBusDirR) :
    h.maintState = .ofNat 4 k := by
  rw [ha.state, MaintProg.step, if_pos hk]

/-- `MAINT_FIN` stands behind the last instruction. -/
theorem At.length_le_of_fin (ha : h.At p k) (hs : h.maintState = MAINT_FIN) :
    p.length h.curBusDirR ≤ k := by
  by_contra hlt
  have h10 := p.length_le h.curBusDirR
  have hnat := congrArg BitVec.toNat ((ha.maintState (by omega)).symm.trans hs)
  rw [BitVec.toNat_ofNat, Nat.mod_eq_of_lt (by omega)] at hnat
  change k = 10 at hnat
  omega

/-- The program's case, at a step with an instruction to offer. -/
theorem progCase_eq (p : MaintProg) (maintAck : Bool) (c : Comb) (hk : k < p.length h.curBusDirR)
    (hs : h.maintState = .ofNat 4 k) :
    h.progCase i p maintAck c =
      { c with
        maintInstr := p.word k i
        maintStateNs := if maintAck then p.step h.curBusDirR (k + 1) else c.maintStateNs
        curBusDirNs := if p = .prRd ∧ k = 0 then i.curBusDir else c.curBusDirNs } := by
  unfold progCase
  cases p with
  | prRd =>
    have h10 : k < 10 := Nat.lt_of_lt_of_le hk (MaintProg.length_le _ _)
    rw [MaintProg.length] at hk
    by_cases hd : h.curBusDirR = BUS_DIR_READ
    · rw [if_pos hd] at hk
      interval_cases k <;>
        simp [prRdCase, hs, Comb.offer, MaintProg.word, MaintProg.step, MaintProg.length, hd]
    · rw [if_neg hd] at hk
      interval_cases k <;>
        simp [prRdCase, hs, Comb.offer, MaintProg.word, MaintProg.step, MaintProg.length, hd]
  | zq =>
    have h4 : k < 4 := hk
    interval_cases k <;>
      simp [zqCase, hs, Comb.offer, MaintProg.word, MaintProg.step, MaintProg.length]
  | autoref =>
    have h4 : k < 4 := hk
    interval_cases k <;>
      simp [autorefCase, hs, Comb.offer, MaintProg.word, MaintProg.step, MaintProg.length]

/-- **At a step the program's instruction is on offer**, and taking it, or
not, moves the handler accordingly. -/
theorem At.offers (ha : h.At p k) (hack : i.prRdAck = false) (hk : k < p.length h.curBusDirR) :
    h.maintInstr i = p.word k i ∧ (next h i true false).At p (k + 1) ∧
      (next h i false false).At p k := by
  have hcomb : ∀ maintAck, h.comb i maintAck = _ := fun maintAck =>
    (ha.comb_eq hack maintAck).trans (progCase_eq p maintAck h.defaults hk (ha.maintState hk))
  -- the direction the program ends on is fixed with its first instruction
  have hstep : ∀ j, j ≤ k + 1 → p.step (if p = .prRd ∧ k = 0 then i.curBusDir else h.curBusDirR) j =
      p.step h.curBusDirR j := by
    intro j hj
    by_cases hf : p = .prRd ∧ k = 0
    · obtain ⟨rfl, rfl⟩ := hf
      have h1 := MaintProg.length_prRd i.curBusDir
      have h2 := MaintProg.length_prRd h.curBusDirR
      rw [if_pos ⟨rfl, rfl⟩, MaintProg.step, MaintProg.step, if_pos (by omega), if_pos (by omega)]
    · rw [if_neg hf]
  refine ⟨by rw [maintInstr, hcomb], ⟨?_, ?_⟩, ⟨?_, ?_⟩⟩
  · simp only [Runs, next, hcomb]; exact ha.runs
  · simp only [next, hcomb, Bool.false_eq_true, if_false]
    exact (hstep (k + 1) le_rfl).symm
  · simp only [Runs, next, hcomb]; exact ha.runs
  · simp only [next, hcomb, Bool.false_eq_true, if_false]
    exact ha.state.trans (hstep k (Nat.le_succ k)).symm

/-- The direction is recorded with a periodic read's first instruction. -/
theorem At.curBusDirR_next (ha : h.At p k) (hack : i.prRdAck = false)
    (hk : k < p.length h.curBusDirR) :
    (next h i true false).curBusDirR = if p = .prRd ∧ k = 0 then i.curBusDir else h.curBusDirR := by
  rw [next, ha.comb_eq hack, progCase_eq p true h.defaults hk (ha.maintState hk)]
  rfl

/-- Taking an instruction leaves its program as long as the next step
needs. -/
theorem At.length_next (ha : h.At p k) (hack : i.prRdAck = false)
    (hk : k < p.length h.curBusDirR) : k + 1 ≤ p.length (next h i true false).curBusDirR := by
  rw [ha.curBusDirR_next hack hk]
  by_cases hf : p = .prRd ∧ k = 0
  · obtain ⟨rfl, rfl⟩ := hf
    exact MaintProg.length_pos _ _
  · rw [if_neg hf]
    exact hk

/-- **Behind the last instruction the END is on offer**, for one cycle,
taken or not. -/
theorem At.ends (ha : h.At p (p.length h.curBusDirR)) (hack : i.prRdAck = false) :
    h.maintInstr i = maintEnd ∧ ∀ maintAck, (next h i maintAck false).Quiet := by
  have hs : h.maintState = MAINT_FIN := by
    rw [ha.state, MaintProg.step, if_neg (Nat.lt_irrefl _)]
  have hcomb := ha.comb_eq hack
  obtain ⟨h1, h2, h3⟩ := ha.runs
  unfold Quiet
  cases p <;>
    simp [maintInstr, next, hcomb, progCase, prRdCase, zqCase, autorefCase, hs, defaults, h1, h2, h3]

/-- A quiet handler enters a program at its first instruction, if any. -/
theorem Quiet.next (hq : h.Quiet) (maintAck : Bool) :
    (next h i maintAck false).Quiet ∨ ∃ p, (next h i maintAck false).At p 0 := by
  obtain ⟨h1, h2, h3⟩ := hq
  have hat : ∀ p, (MaintHandler.next h i maintAck false).Runs p →
      (MaintHandler.next h i maintAck false).maintState = 0 →
      (MaintHandler.next h i maintAck false).At p 0 := by
    intro p hr hs
    refine ⟨hr, ?_⟩
    rw [hs, MaintProg.step, if_pos (MaintProg.length_pos _ _)]
    rfl
  -- by priority: periodic read, ZQ calibration, refresh
  cases hreq : i.prRdReq && !h.lockPrRdR with
  | true =>
    cases hack : i.prRdAck with
    | true =>
      left
      -- an application read has served the request
      simp [Quiet, MaintHandler.next, comb, process, enter, maintProcess, defaults, h1, h2, h3,
        hreq, hack]
    | false =>
      refine Or.inr ⟨.prRd, hat _ ?_ ?_⟩ <;>
        simp [Runs, MaintHandler.next, comb, process, enter, maintProcess, defaults, h1, h2, h3,
          hreq, hack]
  | false =>
    cases hzq : i.zqReq with
    | true =>
      refine Or.inr ⟨.zq, hat _ ?_ ?_⟩ <;> cases hack : i.prRdAck <;>
        simp [Runs, MaintHandler.next, comb, process, enter, maintProcess, defaults, h1, h2, h3,
          hreq, hzq, hack]
    | false =>
      cases haref : i.autorefReq with
      | true =>
        refine Or.inr ⟨.autoref, hat _ ?_ ?_⟩ <;> cases hack : i.prRdAck <;>
          simp [Runs, MaintHandler.next, comb, process, enter, maintProcess, defaults, h1, h2, h3,
            hreq, hzq, haref, hack]
      | false =>
        left
        cases hack : i.prRdAck <;>
          simp [Quiet, MaintHandler.next, comb, process, enter, maintProcess, defaults, h1, h2,
            h3, hreq, hzq, haref, hack]

theorem comb_of_ack (hack : i.prRdAck = true) (maintAck : Bool) :
    h.comb i maintAck =
      { h.comb { i with prRdAck := false } maintAck with lockPrRdNs := false, prRdProcessNs := false } := by
  simp only [comb, hack, if_true, Bool.false_eq_true, if_false]
  rfl

/-- Waiting at its first instruction, a program stays there, unless it is a
periodic read and a read is acknowledged. -/
theorem At.waits (ha : h.At p 0) :
    (next h i false false).At p 0 ∨ (i.prRdAck = true ∧ p = .prRd ∧ (next h i false false).Quiet) := by
  cases hack : i.prRdAck with
  | false => exact Or.inl (ha.offers hack (MaintProg.length_pos _ _)).2.2
  | true =>
    -- the cycle is the one without the acknowledgment, but for the flag it clears
    have hstay := (ha.offers (i := { i with prRdAck := false }) rfl (MaintProg.length_pos _ _)).2.2
    obtain ⟨h1, h2, h3⟩ := hstay.runs
    have hpr : (next h i false false).prRdProcessR = false := by
      rw [next, comb_of_ack hack]
    cases p with
    | prRd => exact Or.inr ⟨rfl, rfl, hpr, by rw [next, comb_of_ack hack]; exact h2,
        by rw [next, comb_of_ack hack]; exact h3⟩
    | zq => exact Or.inl ⟨⟨hpr, by rw [next, comb_of_ack hack]; exact h2,
        by rw [next, comb_of_ack hack]; exact h3⟩, by rw [next, comb_of_ack hack]; exact hstay.state⟩
    | autoref => exact Or.inl ⟨⟨hpr, by rw [next, comb_of_ack hack]; exact h2,
        by rw [next, comb_of_ack hack]; exact h3⟩, by rw [next, comb_of_ack hack]; exact hstay.state⟩

/-! ## The lock -/

theorem prRdCase_lockPrRdNs (maintAck : Bool) (c : Comb) :
    (h.prRdCase i maintAck c).lockPrRdNs = (c.lockPrRdNs || decide (h.maintState = MAINT_FIN)) := by
  have hfin : decide (h.maintState = MAINT_FIN) = decide (h.maintState.toNat = 10) :=
    decide_eq_decide.2 BitVec.toNat_inj.symm
  rw [hfin]
  unfold prRdCase
  split
  case h_12 _ hs => rw [decide_eq_false hs, Bool.or_false]
  all_goals rename_i hs; simp [Comb.offer, hs]

theorem zqCase_lockPrRdNs (maintAck : Bool) (c : Comb) :
    (h.zqCase i maintAck c).lockPrRdNs = c.lockPrRdNs := by
  unfold zqCase
  split <;> rfl

theorem autorefCase_lockPrRdNs (maintAck : Bool) (c : Comb) :
    (h.autorefCase i maintAck c).lockPrRdNs = c.lockPrRdNs := by
  unfold autorefCase
  split <;> rfl

theorem enter_lockPrRdNs (c : Comb) : (h.enter i c).lockPrRdNs = c.lockPrRdNs := by
  unfold enter
  split_ifs <;> rfl

/-- **The lock** closes with a periodic read's END and opens with an
acknowledged read. -/
theorem lockPrRdR_next (maintAck : Bool) :
    (next h i maintAck false).lockPrRdR =
      (!i.prRdAck && (h.lockPrRdR || (h.prRdProcessR && decide (h.maintState = MAINT_FIN)))) := by
  have hprocess : ∀ c, (h.process i maintAck c).lockPrRdNs =
      (c.lockPrRdNs || (h.prRdProcessR && decide (h.maintState = MAINT_FIN))) := by
    intro c
    unfold process maintProcess
    cases h.prRdProcessR with
    | true => simp [prRdCase_lockPrRdNs]
    | false =>
      simp only [Bool.false_or, Bool.false_eq_true, if_false, Bool.false_and, Bool.or_false]
      split_ifs <;> simp [zqCase_lockPrRdNs, autorefCase_lockPrRdNs]
  simp only [next, comb, Bool.false_eq_true, if_false]
  cases i.prRdAck with
  | true => rfl
  | false =>
    simp only [Bool.false_eq_true, if_false, Bool.not_false, Bool.true_and]
    rw [hprocess, enter_lockPrRdNs]
    rfl

end MaintHandler

end SoftMC
