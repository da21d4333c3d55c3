import SoftMC.Maintenance.Run
/-!
# A maintenance program is handed over completely

The handler gives its END for a single cycle without looking whether it is
taken, and an acknowledged read drops a periodic read in any state. Neither
comes at a wrong time: a read is acknowledged only while the dispatcher is
busy, and then the receiver is idle. So from its first instruction on the
handler and the receiver stay in step.
-/

namespace SoftMC

namespace ControllerRun

variable {r : ControllerRun}

/-- **How the handler stands to the receiver** in cycle `n`: in
`STATE_MAINT` some instructions of one program have been handed over, in
the cycles just before; outside it, none. -/
inductive InStep (r : ControllerRun) (n : ℕ) : Prop
  | maint (p : MaintProg) (m k : ℕ) (state : r.recvState n = .maint) (now : n = m + (k + 1))
      (at_ : (r.state n).handler.At p (k + 1))
      (short : k + 1 ≤ p.length (r.state n).handler.curBusDirR)
      (visit : r.visit n = r.words p m (k + 1))
  | quiet (state : r.recvState n ≠ .maint) (quiet : (r.state n).handler.Quiet)
  | waits (p : MaintProg) (state : r.recvState n ≠ .maint) (at_ : (r.state n).handler.At p 0)

/-- The handler's registers after a cycle, by what it was acknowledged. -/
theorem handler_succ {n : ℕ} {maintAck : Bool} (h : (r.state n).maintAck (r.wave n) = maintAck) :
    (r.state (n + 1)).handler =
      MaintHandler.next (r.state n).handler (r.handlerIn n) maintAck false := by
  rw [← h]
  rfl

theorem recvState_succ (n : ℕ) :
    r.recvState (n + 1) =
      ((r.state n).core.recv.comb ((r.state n).core.recvIn (r.coreIn n))).stateNs := rfl

/-- In `STATE_MAINT`, at a step with an instruction to offer, it is taken. -/
theorem taken_of_maint {n : ℕ} {p : MaintProg} {k : ℕ} (hs : r.recvState n = .maint)
    (hat : (r.state n).handler.At p k) (hk : k < p.length (r.state n).handler.curBusDirR) :
    r.recvState (n + 1) = .maint ∧ (r.state (n + 1)).handler.At p (k + 1) ∧
      k + 1 ≤ p.length (r.state (n + 1)).handler.curBusDirR ∧
      r.handed n = [p.word k (r.handlerIn n)] := by
  obtain ⟨hword, hnext, -⟩ := hat.offers (ack_of_maint hs) hk
  obtain ⟨hack, -, -, hns⟩ := Receiver.comb_maint (r.state n).core.recv
    ((r.state n).core.recvIn (r.coreIn n)) hs
  have hop : opcode ((r.state n).core.recvIn (r.coreIn n)).maintInstr ≠ .endIseq := by
    change opcode ((r.state n).handler.maintInstr (r.handlerIn n)) ≠ _
    rw [hword]
    exact MaintProg.opcode_word _ hk
  have hmack : (r.state n).maintAck (r.wave n) = true := hack
  refine ⟨?_, ?_, ?_, ?_⟩
  · rw [recvState_succ, hns, decide_eq_false hop, Bool.and_false]; rfl
  · rw [handler_succ hmack]; exact hnext
  · rw [handler_succ hmack]; exact hat.length_next (ack_of_maint hs) hk
  · rw [handed, Controller.handed, hat.maintInstrEn, hmack]
    exact congrArg (fun w => [w]) hword

/-- Behind the last instruction the END is taken, and the receiver starts
the dispatch. -/
theorem closed_of_maint {n : ℕ} {p : MaintProg} (hs : r.recvState n = .maint)
    (hat : (r.state n).handler.At p (p.length (r.state n).handler.curBusDirR)) :
    r.recvState (n + 1) = .idle ∧ (r.state (n + 1)).core.recv.processIseqR = true ∧
      (r.state (n + 1)).handler.Quiet ∧ r.handed n = [maintEnd] := by
  obtain ⟨hword, hnext⟩ := hat.ends (ack_of_maint hs)
  obtain ⟨hack, -, hpulse, hns⟩ := Receiver.comb_maint (r.state n).core.recv
    ((r.state n).core.recvIn (r.coreIn n)) hs
  have hend : (((r.state n).core.recvIn (r.coreIn n)).maintEn &&
      decide (opcode ((r.state n).core.recvIn (r.coreIn n)).maintInstr = .endIseq)) = true := by
    change ((r.state n).handler.maintInstrEn &&
      decide (opcode ((r.state n).handler.maintInstr (r.handlerIn n)) = .endIseq)) = true
    rw [hat.maintInstrEn, hword, MaintProg.opcode_maintEnd]
    rfl
  have hmack : (r.state n).maintAck (r.wave n) = true := hack
  refine ⟨?_, hpulse.trans hend, ?_, ?_⟩
  · rw [recvState_succ, hns, hend]; rfl
  · rw [handler_succ hmack]; exact hnext _
  · rw [handed, Controller.handed, hat.maintInstrEn, hmack]
    exact congrArg (fun w => [w]) hword

/-- Outside `STATE_MAINT` the receiver opens the program that waits, or
takes nothing of it. -/
theorem opened_or_not {n : ℕ} (hs : r.recvState n ≠ .maint) :
    (r.recvState n = .idle ∧ r.recvState (n + 1) = .maint ∧
        (r.state n).handler.maintInstrEn = true ∧ (r.state n).maintAck (r.wave n) = true ∧
        (r.handlerIn n).prRdAck = false) ∨
      (r.recvState (n + 1) ≠ .maint ∧ (r.state n).maintAck (r.wave n) = false) := by
  rcases Receiver.comb_of_ne_maint (r.state n).core.recv
      ((r.state n).core.recvIn (r.coreIn n)) hs with
    ⟨hns, hack, hidle, -, hready, hen, -⟩ | h
  · refine Or.inl ⟨hidle, hns, hen, hack, ?_⟩
    rw [← Bool.not_eq_true]
    intro hrd
    have hbusy := busy_of_ack hrd
    rw [Core.recvIn, hbusy] at hready
    cases hready
  · exact Or.inr h

/-- **Every cycle keeps the handler and the receiver in step.** -/
theorem InStep.next {n : ℕ} (h : r.InStep n) : r.InStep (n + 1) := by
  rcases h with ⟨p, m, k, hs, hn, hat, hshort, hvisit⟩ | ⟨hs, hq⟩ | ⟨p, hs, hat⟩
  · rcases Nat.lt_or_eq_of_le hshort with hlt | heq
    · obtain ⟨hs', hat', hshort', hhand⟩ := taken_of_maint hs hat hlt
      refine .maint p m (k + 1) hs' (by omega) hat' hshort' ?_
      rw [visit_succ, if_neg (by rw [hs]; simp), hvisit, hhand, words_succ p m (k + 1), hn]
    · rw [heq] at hat
      obtain ⟨hs', -, hq, -⟩ := closed_of_maint hs hat
      exact .quiet (by rw [hs']; simp) hq
  · rcases opened_or_not hs with ⟨-, -, hen, -, -⟩ | ⟨hs', hack⟩
    · rw [hq.maintInstrEn] at hen; cases hen
    · have hnext := hq.next (i := r.handlerIn n) false
      rw [← handler_succ hack] at hnext
      rcases hnext with hq' | ⟨p, hat'⟩
      · exact .quiet hs' hq'
      · exact .waits p hs' hat'
  · rcases opened_or_not hs with ⟨hidle, hs', -, hack, hrd⟩ | ⟨hs', hack⟩
    · obtain ⟨hword, hnext, -⟩ := hat.offers hrd (MaintProg.length_pos _ _)
      rw [← handler_succ hack] at hnext
      refine .maint p n 0 hs' rfl hnext (MaintProg.length_pos _ _) ?_
      rw [visit_succ, if_pos hidle, handed, Controller.handed, hat.maintInstrEn, hack]
      exact congrArg (fun w => [w]) hword
    · have hnext := hat.waits (i := r.handlerIn n)
      rw [← handler_succ hack] at hnext
      rcases hnext with hat' | ⟨-, -, hq⟩
      · exact .waits p hs' hat'
      · exact .quiet hs' hq

theorem inStep (r : ControllerRun) (n : ℕ) : r.InStep n := by
  induction n with
  | zero =>
    refine .quiet (fun h => ?_) MaintHandler.quiet_reset
    cases h
  | succ n ih => exact ih.next

/-- In `STATE_MAINT` the program being handed over, and where it is. -/
theorem visit_of_maint {n : ℕ} (hs : r.recvState n = .maint) :
    ∃ p m, n = m + (r.visit n).length ∧ r.visit n = r.words p m (r.visit n).length ∧
      (r.state n).handler.At p (r.visit n).length ∧ 0 < (r.visit n).length ∧
      (r.visit n).length ≤ p.length (r.state n).handler.curBusDirR := by
  rcases r.inStep n with ⟨p, m, k, -, hn, hat, hshort, hvisit⟩ | ⟨hne, -⟩ | ⟨-, hne, -⟩
  · have hlen : (r.visit n).length = k + 1 := by rw [hvisit, length_words]
    rw [hlen]
    exact ⟨p, m, hn, hvisit, hat, Nat.succ_pos k, hshort⟩
  · exact absurd hs hne
  · exact absurd hs hne

/-- It is left behind the last instruction of the program. -/
theorem visit_of_left {n : ℕ} (hs : r.recvState n = .maint) (hleft : r.recvState (n + 1) ≠ .maint) :
    ∃ p m, n = m + p.length (r.state n).handler.curBusDirR ∧
      (r.state n).handler.At p (p.length (r.state n).handler.curBusDirR) ∧
      r.visit n = r.words p m (p.length (r.state n).handler.curBusDirR) := by
  obtain ⟨p, m, hn, hv, hat, -, hle⟩ := visit_of_maint hs
  have heq : (r.visit n).length = p.length (r.state n).handler.curBusDirR := by
    refine Nat.le_antisymm hle (Nat.le_of_not_lt fun hlt => ?_)
    exact hleft (taken_of_maint hs hat hlt).1
  rw [heq] at hn hat hv
  exact ⟨p, m, hn, hat, hv⟩

/-- A visit to `STATE_MAINT` ends: every cycle of it hands over one more
instruction. -/
theorem exists_left {n : ℕ} (hs : r.recvState n = .maint) :
    ∃ j, j ≤ 10 - (r.visit n).length ∧ (∀ i ≤ j, r.recvState (n + i) = .maint) ∧
      r.recvState (n + j + 1) = .idle := by
  obtain ⟨p, m, hn, hv, hat, hpos, hle⟩ := visit_of_maint hs
  have h10 := p.length_le (r.state n).handler.curBusDirR
  -- by what is left of the longest program
  generalize hd : 10 - (r.visit n).length = d
  induction d generalizing n p m with
  | zero =>
    have heq : (r.visit n).length = p.length (r.state n).handler.curBusDirR := by omega
    rw [heq] at hat
    refine ⟨0, le_rfl, fun i hi => ?_, (closed_of_maint hs hat).1⟩
    obtain rfl : i = 0 := by omega
    exact hs
  | succ d ih =>
    rcases Nat.lt_or_eq_of_le hle with hlt | heq
    · obtain ⟨hs', -, -, hhand⟩ := taken_of_maint hs hat hlt
      have hlen : (r.visit (n + 1)).length = (r.visit n).length + 1 := by
        rw [visit_succ, if_neg (by rw [hs]; simp), hhand, List.length_append, List.length_singleton]
      obtain ⟨p', m', hn', hv', hat', hpos', hle'⟩ := visit_of_maint hs'
      obtain ⟨j, hj, hall, hleft⟩ := ih hs' p' m' hn' hv' hat' hpos' hle' (p'.length_le _) (by omega)
      refine ⟨j + 1, by omega, fun i hi => ?_, by rw [← hleft]; congr 1; omega⟩
      cases i with
      | zero => exact hs
      | succ i => rw [← hall i (by omega)]; congr 1; omega
    · rw [heq] at hat
      refine ⟨0, Nat.zero_le _, fun i hi => ?_, (closed_of_maint hs hat).1⟩
      obtain rfl : i = 0 := by omega
      exact hs

/-- No `MAINT_FIN` cycle goes unseen. -/
theorem seen_of_fin {n : ℕ} (hen : (r.state n).handler.maintInstrEn = true)
    (hfin : (r.state n).handler.maintState = MAINT_FIN) :
    r.recvState n = .maint ∧ r.handed n = [maintEnd] ∧ r.recvState (n + 1) = .idle := by
  rcases r.inStep n with ⟨p, m, k, hs, -, hat, hshort, -⟩ | ⟨-, hq⟩ | ⟨p, -, hat⟩
  · have heq : k + 1 = p.length (r.state n).handler.curBusDirR :=
      Nat.le_antisymm hshort (hat.length_le_of_fin hfin)
    rw [heq] at hat
    obtain ⟨hs', -, -, hhand⟩ := closed_of_maint hs hat
    exact ⟨hs, hhand, hs'⟩
  · rw [hq.maintInstrEn] at hen; cases hen
  · have := hat.length_le_of_fin hfin
    have := p.length_pos (r.state n).handler.curBusDirR
    omega

/-- **A complete hand-over** of every maintenance program of a run. -/
structure HandsOver (r : ControllerRun) : Prop where
  /-- In `STATE_MAINT` the handler offers an instruction, at the step reached
  by those accepted since the receiver left `STATE_IDLE`, one in each cycle
  since. -/
  inStep : ∀ n, r.recvState n = .maint →
    (r.state n).handler.maintInstrEn = true ∧
      ∃ p m, n = m + (r.visit n).length ∧ 0 < (r.visit n).length ∧
        (r.state n).handler.At p (r.visit n).length ∧
        r.visit n = r.words p m (r.visit n).length
  /-- No visit to `STATE_MAINT` lasts for more than ten cycles. -/
  leaves : ∀ n, r.recvState n = .maint →
    ∃ j < 10, (∀ i ≤ j, r.recvState (n + i) = .maint) ∧ r.recvState (n + j + 1) = .idle
  /-- A visit is left in the `MAINT_FIN` cycle, with one full program and its
  END accepted, and the program is dispatched. -/
  full : ∀ n, r.recvState n = .maint → r.recvState (n + 1) ≠ .maint →
    (r.state n).handler.maintState = MAINT_FIN ∧
      (∃ p m, (r.state n).handler.Runs p ∧ r.visit (n + 1) =
        r.words p m (p.length (r.state n).handler.curBusDirR) ++ [maintEnd]) ∧
      r.recvState (n + 1) = .idle ∧ (r.state (n + 1)).core.recv.processIseqR = true
  /-- No `MAINT_FIN` cycle goes unseen. -/
  seen : ∀ n, (r.state n).handler.maintInstrEn = true →
    (r.state n).handler.maintState = MAINT_FIN →
    r.recvState n = .maint ∧ r.handed n = [maintEnd] ∧ r.recvState (n + 1) = .idle
  /-- An acknowledged read meets a periodic read only before its first
  instruction has been accepted. -/
  cancels : ∀ n, (r.handlerIn n).prRdAck = true → (r.state n).handler.prRdProcessR = true →
    (r.state n).handler.At .prRd 0 ∧ r.recvState n ≠ .maint ∧ r.handed n = []

/-- **A maintenance sequence, once started, is always handed over
completely.** -/
theorem handsOver (r : ControllerRun) : r.HandsOver where
  inStep n hs := by
    obtain ⟨p, m, hn, hv, hat, hpos, -⟩ := visit_of_maint hs
    exact ⟨hat.maintInstrEn, p, m, hn, hpos, hat, hv⟩
  leaves n hs := by
    obtain ⟨-, -, -, -, -, hpos, -⟩ := visit_of_maint hs
    obtain ⟨j, hj, hall, hleft⟩ := exists_left hs
    exact ⟨j, by omega, hall, hleft⟩
  full n hs hleft := by
    obtain ⟨p, m, -, hat, hv⟩ := visit_of_left hs hleft
    obtain ⟨hs', hpulse, -, hhand⟩ := closed_of_maint hs hat
    refine ⟨?_, ⟨p, m, hat.runs, ?_⟩, hs', hpulse⟩
    · rw [hat.state, MaintProg.step, if_neg (Nat.lt_irrefl _)]
    · rw [visit_succ, if_neg (by rw [hs]; simp), hhand]
      exact congrArg (· ++ [maintEnd]) hv
  seen _ hen hfin := seen_of_fin hen hfin
  cancels n hack hpr := by
    rcases r.inStep n with ⟨p, m, k, hs, -, hat, -, -⟩ | ⟨-, hq⟩ | ⟨p, hs, hat⟩
    · rw [ack_of_maint hs] at hack; cases hack
    · rw [hq.1] at hpr; cases hpr
    · obtain rfl : p = .prRd := of_decide_eq_true (hat.runs.1.symm.trans hpr)
      refine ⟨hat, hs, ?_⟩
      rcases opened_or_not hs with ⟨-, -, -, -, hrd⟩ | ⟨-, hmack⟩
      · rw [hrd] at hack; cases hack
      · rw [handed, Controller.handed, hmack, Bool.and_false]; rfl

end ControllerRun

end SoftMC
