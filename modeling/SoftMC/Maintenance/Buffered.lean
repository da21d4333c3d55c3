import SoftMC.Maintenance.Handover
import SoftMC.Path.Sequence
/-!
# A maintenance program on the path

What maintenance hands over is stored instruction by instruction, its END
apart, and always fits the FIFOs: a program is no longer than ten
instructions. So with its `process_iseq` the FIFOs hold exactly the
program, whatever the application has made them discard before.
-/

namespace SoftMC

open Clocked

namespace ControllerRun

variable {r : ControllerRun}

/-- What is stored in cycle `n`. -/
abbrev stored (r : ControllerRun) (n : ℕ) : List Instr := (r.state n).core.stored (r.coreIn n)

theorem handed_of_ack {n : ℕ} (h : (r.state n).maintAck (r.wave n) = true) :
    r.handed n =
      if (r.state n).handler.maintInstrEn then [(r.state n).handler.maintInstr (r.handlerIn n)]
      else [] := by
  rw [handed, Controller.handed, h, Bool.and_true]
  rfl

/-- What maintenance hands over in a cycle: an instruction of a program, or
the END that leaves `STATE_MAINT`. -/
theorem handed_cases (n : ℕ) :
    r.handed n = [] ∨
      (∃ p k, k < MaintProg.length (r.state n).handler.curBusDirR p ∧
        r.handed n = [p.word k (r.handlerIn n)]) ∨
      (r.recvState n = .maint ∧ r.handed n = [maintEnd]) := by
  have hnone : (r.state n).maintAck (r.wave n) = false → r.handed n = [] := by
    intro hack
    rw [handed, Controller.handed, hack, Bool.and_false]
    rfl
  rcases r.inStep n with ⟨p, m, k, hs, -, hat, hshort, -⟩ | ⟨hs, hq⟩ | ⟨p, hs, hat⟩
  · rcases Nat.lt_or_eq_of_le hshort with hlt | heq
    · exact Or.inr (Or.inl ⟨p, k + 1, hlt, (taken_of_maint hs hat hlt).2.2.2⟩)
    · rw [heq] at hat
      exact Or.inr (Or.inr ⟨hs, (closed_of_maint hs hat).2.2.2⟩)
  · left
    rw [handed, Controller.handed, hq.maintInstrEn]
    rfl
  · rcases opened_or_not hs with ⟨-, -, -, hack, hrd⟩ | ⟨-, hack⟩
    · have hpos := MaintProg.length_pos (r.state n).handler.curBusDirR p
      refine Or.inr (Or.inl ⟨p, 0, hpos, ?_⟩)
      rw [handed_of_ack hack, if_pos hat.maintInstrEn, (hat.offers hrd hpos).1]
    · exact Or.inl (hnone hack)

/-- What the path accepts from maintenance is what maintenance hands
over. -/
theorem handed_of_accepted {n : ℕ} {w : Instr} (h : (Source.maint, w) ∈ r.path.accepted n) :
    w ∈ r.handed n := by
  rw [PathRun.accepted, path_state] at h
  unfold Core.accepted Receiver.accepted at h
  split at h
  · simp at h
  · split at h
    · rename_i hm
      have hm' : ((r.state n).handler.maintInstrEn && (r.state n).maintAck (r.wave n)) = true := hm
      have hw : w = ((r.state n).core.recvIn (r.coreIn n)).maintInstr := by
        rw [Option.mem_toList] at h
        exact (Prod.mk.inj (Option.some.inj h)).2.symm
      rw [handed, Controller.handed, if_pos hm', hw]
      exact List.mem_singleton_self _
    · cases h

/-- What it accepts from the application is what the application offers. -/
theorem appInstr_of_accepted {n : ℕ} {w : Instr} (h : (Source.app, w) ∈ r.path.accepted n) :
    w = (r.wave n).appInstr := by
  rw [PathRun.accepted, path_state] at h
  unfold Core.accepted Receiver.accepted at h
  split at h
  · rw [Option.mem_toList] at h
    exact (Prod.mk.inj (Option.some.inj h)).2.symm
  · split at h
    · simp at h
    · cases h

/-- In `STATE_MAINT` nothing else is accepted. -/
theorem accepted_of_maint {n : ℕ} (hs : r.recvState n = .maint) :
    r.path.accepted n = (r.handed n).map (Prod.mk .maint) := by
  have happ : ((r.state n).core.recv.comb ((r.state n).core.recvIn (r.coreIn n))).appAck = false := by
    simp only [Receiver.comb, show (r.state n).core.recv.stateR = .maint from hs]
    split <;> rfl
  rw [PathRun.accepted, path_state, handed, Controller.handed]
  unfold Core.accepted Receiver.accepted
  change (if _ && ((r.state n).core.recv.comb ((r.state n).core.recvIn (r.coreIn n))).appAck then _
    else if (r.state n).handler.maintInstrEn && (r.state n).maintAck (r.wave n) then _
    else none).toList = _
  rw [happ, Bool.and_false, if_neg Bool.false_ne_true]
  split <;> rfl

/-- Every instruction handed over is stored, … -/
theorem stored_of_maint {n : ℕ} (hs : r.recvState (n + 1) = .maint) : r.stored n = r.handed n := by
  have hns : ((r.state n).core.recv.comb ((r.state n).core.recvIn (r.coreIn n))).stateNs = .maint :=
    hs
  by_cases h : r.recvState n = .maint
  · obtain ⟨hack, hst, -, hns'⟩ := Receiver.comb_maint (r.state n).core.recv
      ((r.state n).core.recvIn (r.coreIn n)) h
    rw [handed_of_ack hack]
    change (r.state n).core.recv.stored _ = _
    rw [hst]
    rw [hns] at hns'
    change (if (r.state n).handler.maintInstrEn &&
      !decide (opcode ((r.state n).handler.maintInstr (r.handlerIn n)) = .endIseq) then _ else _) = _
    have hend : ((r.state n).handler.maintInstrEn &&
        decide (opcode ((r.state n).handler.maintInstr (r.handlerIn n)) = .endIseq)) = false := by
      by_contra hne
      exact absurd (hns'.trans (if_pos (Bool.not_eq_false _ ▸ hne))) (by simp)
    cases hen : (r.state n).handler.maintInstrEn with
    | false => rfl
    | true =>
      rw [hen, Bool.true_and] at hend
      rw [hend]
      rfl
  · rcases Receiver.comb_of_ne_maint (r.state n).core.recv
      ((r.state n).core.recvIn (r.coreIn n)) h with ⟨-, hack, -, -, -, hen, hst⟩ | ⟨hne, -⟩
    · have hen' : (r.state n).handler.maintInstrEn = true := hen
      rw [handed_of_ack hack, if_pos hen']
      exact hst
    · exact absurd hns hne

/-- … but for the END. -/
theorem stored_of_closed {n : ℕ} (hs : r.recvState n = .maint) (hleft : r.recvState (n + 1) ≠ .maint) :
    r.stored n = [] := by
  obtain ⟨-, hst, -, hns⟩ := Receiver.comb_maint (r.state n).core.recv
    ((r.state n).core.recvIn (r.coreIn n)) hs
  change (r.state n).core.recv.stored _ = _
  rw [hst]
  change ((r.state n).core.recv.comb ((r.state n).core.recvIn (r.coreIn n))).stateNs ≠ _ at hleft
  rw [hns] at hleft
  split at hleft
  · rename_i hend
    simp only [Bool.and_eq_true] at hend
    simp [hend.2]
  · exact absurd rfl hleft

/-- A receiver that takes maintenance has a dispatcher at rest, … -/
theorem atRest_of_maint {n : ℕ} (hs : r.recvState n = .maint) : (r.state n).core.AtRest := by
  rcases mode (r := r) n with hrest | hd
  · exact hrest
  · exact absurd (hd.idle.symm.trans hs) (by simp)

/-- … and so has one that opens a maintenance sequence. -/
theorem atRest_of_opened {n : ℕ} (hs : r.recvState n = .idle) (hs' : r.recvState (n + 1) = .maint) :
    (r.state n).core.AtRest ∧ (r.state n).core.recv.processIseqR = false := by
  rcases Receiver.comb_of_ne_maint (r.state n).core.recv
      ((r.state n).core.recvIn (r.coreIn n)) (fun h => by cases hs.symm.trans h) with
    ⟨-, -, -, hp, hready, -, -⟩ | ⟨hns, -⟩
  · refine ⟨?_, hp⟩
    rcases mode (r := r) n with hrest | hd
    · exact hrest
    · rw [Core.recvIn, hd.busy] at hready; cases hready
  · exact absurd hs' hns

/-- The FIFOs hold five words or more, as `instr_fifo` does. -/
def Roomy (r : ControllerRun) : Prop := ∀ d ∈ r.depth, 5 ≤ d

theorem fits_of_short {n : ℕ} {P : List Instr} (hroom : r.Roomy)
    (hb : (r.state n).core.Buffering P) (hP : P.length ≤ 10) :
    Exec.Fits r.depth (r.state n).core.exec ((r.state n).core.execIn (r.coreIn n)) := by
  cases hd : r.depth with
  | none => exact Exec.fits_of_unbounded
  | some d =>
    have := hroom d (by rw [hd]; rfl)
    exact hb.fits (by omega)

/-- **While a program is handed over the path buffers exactly it.** -/
theorem buffering_visit (hroom : r.Roomy) {n : ℕ} (hs : r.recvState n = .maint) :
    (r.state n).core.Buffering (r.visit n) := by
  induction n with
  | zero => cases hs
  | succ n ih =>
    have hst := stored_of_maint hs
    by_cases h : r.recvState n = .maint
    · obtain ⟨p, -, -, -, -, -, hle⟩ := visit_of_maint h
      have h10 := p.length_le (r.state n).handler.curBusDirR
      have hb := ih h
      have hp : (r.state n).core.recv.processIseqR = false := (hb.opened fun hi => by cases h.symm.trans hi).1
      rw [visit_succ, if_neg (by rw [h]; simp), ← hst]
      exact hb.next_of_not_pulse (fits_of_short hroom hb (by omega)) hp
    · rcases opened_or_not h with ⟨hidle, -⟩ | ⟨hne, -⟩
      · obtain ⟨hrest, hp⟩ := atRest_of_opened hidle hs
        have hb : (r.state n).core.Buffering [] := hrest.fresh hidle hp
        rw [visit_succ, if_pos hidle, ← hst]
        exact hb.next_of_not_pulse (fits_of_short hroom hb (by simp)) hp
      · exact absurd hs hne

/-- **With `process_iseq` the FIFOs hold the whole program.** -/
theorem dealt_of_closed (hroom : r.Roomy) {n : ℕ} (hs : r.recvState n = .maint)
    (hleft : r.recvState (n + 1) ≠ .maint) :
    deal (r.visit n) =
        ((r.state (n + 1)).core.exec.fifo0, (r.state (n + 1)).core.exec.fifo1) ∧
      (r.state (n + 1)).core.exec.Resting ∧ (r.state (n + 1)).core.recv.instrEnR = false := by
  obtain ⟨p, -, -, -, -, -, hle⟩ := visit_of_maint hs
  have h10 := p.length_le (r.state n).handler.curBusDirR
  have hb := buffering_visit hroom hs
  have hp : (r.state n).core.recv.processIseqR = false := (hb.opened fun hi => by cases hs.symm.trans hi).1
  have hb' : (r.state (n + 1)).core.Buffering (r.visit n ++ r.stored n) :=
    hb.next_of_not_pulse (fits_of_short hroom hb (by omega)) hp
  have hst := stored_of_closed hs hleft
  obtain ⟨L, hL, hdeal, -⟩ := hb'.landed
  have hfl : (r.state (n + 1)).core.recv.inFlight = [] := hst
  rw [hst, hfl, List.append_nil, List.append_nil] at hL
  refine ⟨hL ▸ hdeal, hb'.resting, ?_⟩
  by_contra hen
  rw [Receiver.inFlight, if_pos (Bool.not_eq_false _ ▸ hen)] at hfl
  cases hfl

/-- So does the dispatcher. -/
theorem contents_of_closed (hroom : r.Roomy) {n : ℕ} (hs : r.recvState n = .maint)
    (hleft : r.recvState (n + 1) ≠ .maint) :
    (r.state (n + 1)).core.exec.content0 = (deal (r.visit n)).1 ∧
      (r.state (n + 1)).core.exec.content1 = (deal (r.visit n)).2 := by
  obtain ⟨hdeal, hrest, -⟩ := dealt_of_closed hroom hs hleft
  rw [hdeal, Exec.content0, Exec.content1, hrest.2.1.empty.held_eq, hrest.2.2.empty.held_eq]
  exact ⟨rfl, rfl⟩

end ControllerRun

end SoftMC
