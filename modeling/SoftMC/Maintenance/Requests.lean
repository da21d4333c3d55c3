import SoftMC.Maintenance.Handover
import SoftMC.Maintenance.Timers
/-!
# Maintenance requests are served exactly once

The request controllers close the loop around the handler. An
acknowledgment comes when a program has been handed over, the request
falls a cycle later, and a periodic read waits for its lock besides. So
between two programs for one request its flag falls and rises again, and
the rise finds the request raised anew.
-/

namespace SoftMC

open Clocked

/-! ## The flags and the acknowledgments of the handler -/

namespace MaintHandler

/-- The process flag of a program. -/
def processR (h : MaintHandler) : MaintProg → Bool
  | .prRd => h.prRdProcessR
  | .zq => h.zqProcessR
  | .autoref => h.autorefProcessR

/-- The acknowledgment of a program's request. A periodic read is
acknowledged by the dispatcher. -/
def Comb.ack (c : Comb) : MaintProg → Bool
  | .prRd => false
  | .zq => c.zqAck
  | .autoref => c.autorefAck

variable {h : MaintHandler} {i : In} {p : MaintProg} {k : ℕ}

theorem Runs.processR_eq (hr : h.Runs p) (q : MaintProg) : h.processR q = decide (q = p) := by
  obtain ⟨h1, h2, h3⟩ := hr
  cases q <;> simp only [processR, h1, h2, h3] <;> cases p <;> rfl

theorem Quiet.processR_eq (hq : h.Quiet) (q : MaintProg) : h.processR q = false := by
  obtain ⟨h1, h2, h3⟩ := hq
  cases q <;> assumption

/-- What a quiet handler needs to enter a program. -/
def Requested (h : MaintHandler) (i : In) : MaintProg → Prop
  | .prRd => i.prRdReq = true ∧ h.lockPrRdR = false
  | .zq => i.zqReq = true
  | .autoref => i.autorefReq = true

/-- **A quiet handler enters what is requested**, a periodic read with the
lock open. -/
theorem Quiet.requested (hq : h.Quiet) {maintAck : Bool}
    (hp : (MaintHandler.next h i maintAck false).processR p = true) : h.Requested i p := by
  obtain ⟨h1, h2, h3⟩ := hq
  revert hp
  simp only [processR, Requested, MaintHandler.next, comb, process, enter, maintProcess, defaults,
    h1, h2, h3]
  cases p with
  | prRd =>
    cases i.prRdReq <;> cases h.lockPrRdR <;> cases i.zqReq <;> cases i.autorefReq <;>
      cases i.prRdAck <;> simp
  | zq =>
    cases i.prRdReq <;> cases h.lockPrRdR <;> cases i.zqReq <;> cases i.autorefReq <;>
      cases i.prRdAck <;> simp
  | autoref =>
    cases i.prRdReq <;> cases h.lockPrRdR <;> cases i.zqReq <;> cases i.autorefReq <;>
      cases i.prRdAck <;> simp

/-- An acknowledged read acknowledges no request of the handler's. -/
theorem ack_comb_of_ack (hack : i.prRdAck = true) (maintAck : Bool) (q : MaintProg) :
    (h.comb i maintAck).ack q = (h.comb { i with prRdAck := false } maintAck).ack q := by
  rw [comb_of_ack hack]
  cases q <;> rfl

/-- A quiet handler acknowledges nothing. -/
theorem Quiet.ack (hq : h.Quiet) (maintAck : Bool) (q : MaintProg) :
    (h.comb i maintAck).ack q = false := by
  obtain ⟨h1, h2, h3⟩ := hq
  have henter : (h.enter i h.defaults).ack q = false := by
    unfold enter
    cases q <;> split_ifs <;> rfl
  have hidle : h.maintProcess = false := by rw [maintProcess, h1, h2, h3]; rfl
  rw [comb, process, hidle, if_neg Bool.false_ne_true]
  split_ifs
  · cases q <;> exact henter
  · exact henter

/-- Nor does one with an instruction to offer. -/
theorem At.ack_of_lt (ha : h.At p k) (hk : k < p.length h.curBusDirR) (maintAck : Bool)
    (q : MaintProg) : (h.comb i maintAck).ack q = false := by
  have hfree : ∀ i : In, i.prRdAck = false → (h.comb i maintAck).ack q = false := by
    intro i hack
    rw [ha.comb_eq hack, progCase_eq p maintAck h.defaults hk (ha.maintState hk)]
    cases q <;> rfl
  cases hack : i.prRdAck with
  | false => exact hfree i hack
  | true =>
    rw [ack_comb_of_ack hack]
    exact hfree _ rfl

/-- **Behind its last instruction a program's request is acknowledged.** -/
theorem At.ack (ha : h.At p (p.length h.curBusDirR)) (hack : i.prRdAck = false) (maintAck : Bool)
    (q : MaintProg) : (h.comb i maintAck).ack q = decide (q = p ∧ p ≠ .prRd) := by
  have hs : h.maintState = MAINT_FIN := by
    rw [ha.state, MaintProg.step, if_neg (Nat.lt_irrefl _)]
  rw [ha.comb_eq hack]
  cases p <;> cases q <;>
    simp [progCase, prRdCase, zqCase, autorefCase, hs, defaults, Comb.ack]

end MaintHandler

/-! ## Programs accepted -/

namespace ControllerRun

variable {r : ControllerRun}

/-- The receiver accepts the first instruction of `p` in cycle `n`. -/
def Accepts (r : ControllerRun) (p : MaintProg) (n : ℕ) : Prop :=
  r.recvState n = .idle ∧ r.recvState (n + 1) = .maint ∧ (r.state n).handler.processR p = true

/-- The handler at a step runs that program and no other. -/
theorem runs_unique {h : MaintHandler} {p q : MaintProg} (hp : h.processR p = true) (hq : h.Runs q) :
    p = q := of_decide_eq_true ((hq.processR_eq p).symm.trans hp)

/-- **At most one process flag is set.** -/
theorem processR_unique {n : ℕ} {p q : MaintProg} (hp : (r.state n).handler.processR p = true)
    (hq : (r.state n).handler.processR q = true) : p = q := by
  rcases r.inStep n with ⟨x, _, k, -, -, hx, -, -⟩ | ⟨-, hquiet⟩ | ⟨x, -, hx⟩
  · rw [runs_unique hp hx.runs, runs_unique hq hx.runs]
  · rw [hquiet.processR_eq] at hp
    cases hp
  · rw [runs_unique hp hx.runs, runs_unique hq hx.runs]

/-- **A process flag stays** until the END has been handed over, or a
periodic read dropped. -/
theorem process_next {n : ℕ} {p : MaintProg} (hp : (r.state n).handler.processR p = true) :
    (r.state (n + 1)).handler.processR p = true ∨
      ((r.state (n + 1)).handler.Quiet ∧
        ((r.recvState n = .maint ∧
            (r.state n).handler.At p (p.length (r.state n).handler.curBusDirR)) ∨
          (p = .prRd ∧ (r.handlerIn n).prRdAck = true))) := by
  have hstay : ∀ k, (r.state (n + 1)).handler.At p k → (r.state (n + 1)).handler.processR p = true :=
    fun k hat => (hat.runs.processR_eq p).trans (decide_eq_true rfl)
  rcases r.inStep n with ⟨q, m, k, hs, -, hat, hshort, -⟩ | ⟨-, hq⟩ | ⟨q, hs, hat⟩
  · -- handed over: the flag falls behind the END
    obtain rfl := runs_unique hp hat.runs
    rcases Nat.lt_or_eq_of_le hshort with hlt | heq
    · exact Or.inl (hstay _ (taken_of_maint hs hat hlt).2.1)
    · rw [heq] at hat
      exact Or.inr ⟨(closed_of_maint hs hat).2.2.1, Or.inl ⟨hs, hat⟩⟩
  · rw [hq.processR_eq] at hp
    cases hp
  · -- waiting for the receiver: only a periodic read can be dropped
    obtain rfl := runs_unique hp hat.runs
    rcases opened_or_not hs with ⟨-, -, -, hack, hrd⟩ | ⟨-, hack⟩
    · have hnext := (hat.offers hrd (MaintProg.length_pos _ _)).2.1
      rw [← handler_succ hack] at hnext
      exact Or.inl (hstay _ hnext)
    · have hnext := hat.waits (i := r.handlerIn n)
      rw [← handler_succ hack] at hnext
      rcases hnext with hat' | ⟨hrd, rfl, hq⟩
      · exact Or.inl (hstay _ hat')
      · exact Or.inr ⟨hq, Or.inr ⟨rfl, hrd⟩⟩

/-- A process flag that rises rises from a quiet handler. -/
theorem quiet_of_rise {n : ℕ} {p : MaintProg} (hlow : (r.state n).handler.processR p = false)
    (hup : (r.state (n + 1)).handler.processR p = true) : (r.state n).handler.Quiet := by
  have hrun : ∀ q k, (r.state n).handler.At q k → (r.state n).handler.Quiet := by
    intro q k hat
    exfalso
    have hq : (r.state n).handler.processR q = true :=
      (hat.runs.processR_eq q).trans (decide_eq_true rfl)
    rcases process_next hq with hq' | ⟨hquiet, -⟩
    · rw [processR_unique hup hq', hq] at hlow
      cases hlow
    · rw [hquiet.processR_eq] at hup
      cases hup
  rcases r.inStep n with ⟨q, _, k, -, -, hat, -, -⟩ | ⟨-, hq⟩ | ⟨q, -, hat⟩
  · exact hrun q _ hat
  · exact hq
  · exact hrun q _ hat

/-- An accepted program has handed over its first instruction. -/
theorem Accepts.at_one {n : ℕ} {p : MaintProg} (h : r.Accepts p n) :
    (r.state (n + 1)).handler.At p 1 := by
  obtain ⟨hidle, hmaint, hp⟩ := h
  rcases r.inStep n with ⟨q, -, -, hs, -⟩ | ⟨-, hq⟩ | ⟨q, hs, hat⟩
  · rw [hs] at hidle
    cases hidle
  · rw [hq.processR_eq] at hp
    cases hp
  · obtain rfl := runs_unique hp hat.runs
    rcases opened_or_not hs with ⟨-, -, -, hack, hrd⟩ | ⟨hno, -⟩
    · have hnext := (hat.offers hrd (MaintProg.length_pos _ _)).2.1
      rwa [← handler_succ hack] at hnext
    · exact absurd hmaint hno

/-- **An accepted program is handed over** one instruction a cycle. -/
theorem Accepts.at_step {a : ℕ} {p : MaintProg} (h : r.Accepts p a) {j : ℕ}
    (hj : ∀ dir, j < p.length dir) :
    r.recvState (a + 1 + j) = .maint ∧ (r.state (a + 1 + j)).handler.At p (j + 1) := by
  induction j with
  | zero => exact ⟨h.2.1, h.at_one⟩
  | succ j ih =>
    obtain ⟨hs, hat⟩ := ih fun dir => Nat.lt_of_succ_lt (hj dir)
    obtain ⟨hs', hat', -, -⟩ := taken_of_maint hs hat (hj _)
    exact ⟨hs', hat'⟩

/-- What is handed over has been accepted, so many cycles ago. -/
theorem exists_accepts {n : ℕ} (hs : r.recvState n = .maint) :
    ∃ p a k, a + (k + 1) = n ∧ r.Accepts p a ∧ (r.state n).handler.At p (k + 1) ∧
      k + 1 ≤ p.length (r.state n).handler.curBusDirR := by
  induction n with
  | zero => cases hs
  | succ n ih =>
    by_cases hn : r.recvState n = .maint
    · obtain ⟨p, a, k, hnow, hacc, hat, hle⟩ := ih hn
      rcases Nat.lt_or_eq_of_le hle with hlt | heq
      · obtain ⟨-, hat', hle', -⟩ := taken_of_maint hn hat hlt
        exact ⟨p, a, k + 1, by omega, hacc, hat', hle'⟩
      · rw [heq] at hat
        have hidle := (closed_of_maint hn hat).1
        rw [hs] at hidle
        cases hidle
    · rcases opened_or_not hn with ⟨hidle, -, hen, -, -⟩ | ⟨hno, -⟩
      · -- accepted in this cycle, for one of the three flags
        have hat : ∃ p, (r.state n).handler.processR p = true := by
          rw [MaintHandler.maintInstrEn, MaintHandler.maintProcess, Bool.or_eq_true,
            Bool.or_eq_true] at hen
          rcases hen with (hen | hen) | hen
          · exact ⟨.prRd, hen⟩
          · exact ⟨.zq, hen⟩
          · exact ⟨.autoref, hen⟩
        obtain ⟨p, hp⟩ := hat
        have hacc : r.Accepts p n := ⟨hidle, hs, hp⟩
        exact ⟨p, n, 0, rfl, hacc, hacc.at_one, MaintProg.length_pos _ _⟩
      · exact absurd hs hno

/-- A receiver that leaves `STATE_MAINT` leaves the handler quiet. -/
theorem quiet_of_left {n : ℕ} (hs : r.recvState n = .maint) (hleft : r.recvState (n + 1) ≠ .maint) :
    (r.state (n + 1)).handler.Quiet := by
  obtain ⟨p, a, k, -, -, hat, hle⟩ := exists_accepts hs
  rcases Nat.lt_or_eq_of_le hle with hlt | heq
  · exact absurd (taken_of_maint hs hat hlt).1 hleft
  · rw [heq] at hat
    exact (closed_of_maint hs hat).2.2.1

/-- What the handler acknowledges in cycle `n`. -/
def acks (r : ControllerRun) (p : MaintProg) (n : ℕ) : Bool :=
  ((r.state n).handler.comb (r.handlerIn n) ((r.state n).maintAck (r.wave n))).ack p

/-- A program that ends acknowledges its request. -/
theorem acks_of_ends {n : ℕ} {p : MaintProg} (hs : r.recvState n = .maint)
    (hat : (r.state n).handler.At p (p.length (r.state n).handler.curBusDirR)) (q : MaintProg) :
    r.acks q n = decide (q = p ∧ p ≠ .prRd) := hat.ack (ack_of_maint hs) _ q

/-- **A request is acknowledged once for each program accepted**, as its
END is handed over. -/
theorem acks_iff {p : MaintProg} (hp : p ≠ .prRd) (t : ℕ) :
    r.acks p t = true ↔ ∃ a, a + 4 = t ∧ r.Accepts p a := by
  have hlen : ∀ dir, p.length dir = 4 := fun dir => by
    cases p with
    | prRd => exact absurd rfl hp
    | zq => rfl
    | autoref => rfl
  constructor
  · -- only the END of a program is acknowledged
    intro hack
    rcases r.inStep t with ⟨-, -, -, hs, -⟩ | ⟨-, hq⟩ | ⟨q, -, hat⟩
    · obtain ⟨q, a, k, hnow, hacc, hat, hle⟩ := exists_accepts hs
      rcases Nat.lt_or_eq_of_le hle with hlt | heq
      · exact absurd (hack.symm.trans (hat.ack_of_lt hlt _ p)) (by simp)
      · rw [heq] at hat
        obtain ⟨rfl, -⟩ := of_decide_eq_true ((acks_of_ends hs hat p).symm.trans hack)
        exact ⟨a, by rw [← hnow, heq, hlen], hacc⟩
    · exact absurd (hack.symm.trans (hq.ack _ p)) (by simp)
    · exact absurd (hack.symm.trans (hat.ack_of_lt (MaintProg.length_pos _ _) _ p)) (by simp)
  · rintro ⟨a, rfl, hacc⟩
    obtain ⟨hs, hat⟩ := hacc.at_step (j := 3) fun dir => by rw [hlen]; decide
    have hat' : (r.state (a + 4)).handler.At p (p.length (r.state (a + 4)).handler.curBusDirR) := by
      rw [hlen]
      exact hat
    rw [acks_of_ends (r := r) (n := a + 4) hs hat' p]
    exact decide_eq_true ⟨rfl, hp⟩

end ControllerRun

/-! ## The controllers around it -/

/-- **A run of the controller under its own maintenance requests**, from
reset. Reset leaves the timers as they are. -/
structure SystemRun where
  depth : Option ℕ
  start : MaintCtrlTop
  wave : ℕ → System.In

namespace SystemRun

variable (r : SystemRun)

/-- The registers at the start of cycle `n`. -/
def state (n : ℕ) : System :=
  run (System.next r.depth) { maintCtrl := r.start, controller := Controller.reset } r.wave n

/-- The controller of the run, whose requests are the ones raised. -/
def controller : ControllerRun where
  depth := r.depth
  wave n := (r.state n).controllerIn (r.wave n)

/-- What `maint_ctrl_top` sees in cycle `n`. -/
def maintCtrlIn (n : ℕ) : MaintCtrlTop.In := (r.state n).maintCtrlIn (r.wave n)

def prrdIn (n : ℕ) : PeriodicRdCtrl.In := (r.state n).maintCtrl.prrdIn (r.maintCtrlIn n)
def zqCalibIn (n : ℕ) : ZqCalibCtrl.In := (r.state n).maintCtrl.zqCalibIn (r.maintCtrlIn n)
def autorefIn (n : ℕ) : AutorefCtrl.In := (r.state n).maintCtrl.autorefIn (r.maintCtrlIn n)

/-- The last ticks of the three timers. -/
def periodicRdTimerOne (n : ℕ) : Bool :=
  (r.state n).maintCtrl.prrdCtrl.periodicRdTimerOne (r.prrdIn n)
def zqTick (n : ℕ) : Bool := (r.state n).maintCtrl.zqCalibCtrl.zqTick (r.zqCalibIn n)
def autorefTimerOne (n : ℕ) : Bool :=
  (r.state n).maintCtrl.autorefCtrl.autorefTimerOne (r.autorefIn n)

/-- A read is acknowledged in cycle `n`. -/
def prRdAck (n : ℕ) : Bool := (r.maintCtrlIn n).periodicRdAck

/-- The process flag of a program, and its acknowledgment. -/
def process (p : MaintProg) (n : ℕ) : Bool := (r.state n).controller.handler.processR p
def acks (p : MaintProg) (n : ℕ) : Bool := ((r.state n).handlerComb (r.wave n)).ack p

/-- **The controller of a run is a run of the controller.** -/
theorem controller_state (n : ℕ) : r.controller.state n = (r.state n).controller :=
  (run_map (F := System.next r.depth) (G := Controller.next r.depth) System.controller
    System.controllerIn (fun _ _ => rfl) { maintCtrl := r.start, controller := Controller.reset }
    r.wave n).symm

theorem acks_eq (p : MaintProg) (n : ℕ) : r.controller.acks p n = r.acks p n := by
  rw [ControllerRun.acks, ControllerRun.handlerIn, r.controller_state]
  rfl

theorem prrdAlarm : Alarm (fun n => (r.state n).maintCtrl.prrdCtrl.periodicRdTimerR.toNat)
    (fun n => PeriodicRdCtrl.load (r.prrdIn n)) (fun n => (r.prrdIn n).maintPrescalerTick)
    (fun n => (r.state n).maintCtrl.prrdCtrl.periodicRdReq) r.prRdAck :=
  PeriodicRdCtrl.alarm (s := fun n => (r.state n).maintCtrl.prrdCtrl) (i := r.prrdIn) fun _ => rfl

theorem zqFlag : Flag (fun n => (r.state n).maintCtrl.zqCalibCtrl.zqRequestR)
    (fun n => !(r.wave n).dfiInitComplete || r.zqTick n) (r.acks .zq) :=
  ZqCalibCtrl.flag (s := fun n => (r.state n).maintCtrl.zqCalibCtrl) (i := r.zqCalibIn) fun _ => rfl

theorem autorefAlarm : Alarm (fun n => (r.state n).maintCtrl.autorefCtrl.autorefTimerR.toNat)
    (fun n => (r.state n).maintCtrl.autorefCtrl.load (r.autorefIn n))
    (fun n => (r.autorefIn n).maintPrescalerTick)
    (fun n => (r.state n).maintCtrl.autorefCtrl.autorefReq)
    (fun n => AutorefCtrl.clears (r.autorefIn n)) :=
  AutorefCtrl.alarm (s := fun n => (r.state n).maintCtrl.autorefCtrl) (i := r.autorefIn) fun _ => rfl

/-- The receiver accepts the first instruction of `p` in cycle `n`, and
the handler enters `p`. -/
def Accepts (p : MaintProg) (n : ℕ) : Prop := r.controller.Accepts p n
def Enters (p : MaintProg) (n : ℕ) : Prop := r.process p n = false ∧ r.process p (n + 1) = true

/-- Between cycles `a` and `b` the request for `p` was raised anew. -/
def Renewed (a b : ℕ) : MaintProg → Prop
  | .prRd => ∃ u s, a < u ∧ u < s ∧ s < b ∧ r.prRdAck u = true ∧ r.periodicRdTimerOne s = true
  | .zq => ∃ s, a < s ∧ s < b ∧ (r.zqTick s = true ∨ (r.wave s).dfiInitComplete = false)
  | .autoref => ∃ s, a < s ∧ s < b ∧ r.autorefTimerOne s = true

/-- **Maintenance requests are served exactly once.** -/
structure ServedOnce : Prop where
  /-- At most one process flag is set. -/
  one : ∀ n p q, r.process p n = true → r.process q n = true → p = q
  /-- Between two programs accepted for a request it is raised anew. -/
  accepted : ∀ p a b, a < b → r.Accepts p a → r.Accepts p b → r.Renewed a b p
  /-- And between two entered. -/
  entered : ∀ p a b, a < b → r.Enters p a → r.Enters p b → r.Renewed a b p
  /-- A ZQ or auto-refresh request is acknowledged in one cycle for each
  program accepted. -/
  acked : ∀ p t, p ≠ .prRd → (r.acks p t = true ↔ ∃ a, a + 4 = t ∧ r.Accepts p a)

variable {r}

/-- The handler in a run, and what it sees. -/
theorem process_eq (p : MaintProg) (n : ℕ) :
    r.process p n = (r.controller.state n).handler.processR p := by
  rw [process, r.controller_state]

theorem prRdAck_eq (n : ℕ) : r.prRdAck n = (r.controller.handlerIn n).prRdAck := by
  rw [ControllerRun.handlerIn, r.controller_state]
  rfl

/-- **Where a process flag falls** its request has been acknowledged; a
periodic read was dropped by a read acknowledged, or has closed the
lock. -/
theorem acked_of_fall {p : MaintProg} {t : ℕ} (ht : r.process p t = true)
    (ht' : r.process p (t + 1) = false) :
    (p ≠ .prRd ∧ r.acks p t = true) ∨
      (p = .prRd ∧ (r.prRdAck t = true ∨ (r.state (t + 1)).controller.handler.lockPrRdR = true)) := by
  rw [process_eq] at ht ht'
  rcases ControllerRun.process_next ht with hup | ⟨-, ⟨hs, hat⟩ | ⟨rfl, hack⟩⟩
  · rw [hup] at ht'
    cases ht'
  · by_cases hp : p = .prRd
    · refine Or.inr ⟨hp, Or.inr ?_⟩
      have hfin : (r.controller.state t).handler.maintState = MAINT_FIN := by
        rw [hat.state, MaintProg.step, if_neg (Nat.lt_irrefl _)]
      have hrun : (r.controller.state t).handler.prRdProcessR = true := by
        rw [hp] at ht
        exact ht
      rw [← r.controller_state, ControllerRun.handler_succ rfl, MaintHandler.lockPrRdR_next, hrun,
        hfin, ControllerRun.ack_of_maint hs]
      cases (r.controller.state t).handler.lockPrRdR <;> rfl
    · refine Or.inl ⟨hp, ?_⟩
      rw [← acks_eq, ControllerRun.acks_of_ends hs hat]
      exact decide_eq_true ⟨rfl, hp⟩
  · exact Or.inr ⟨rfl, Or.inl (by rw [prRdAck_eq]; exact hack)⟩

/-- **Where a process flag rises** its request is up, and the lock open. -/
theorem requested_of_rise {p : MaintProg} {e : ℕ} (he : r.process p e = false)
    (he' : r.process p (e + 1) = true) :
    (r.state e).controller.handler.Requested
      ((r.state e).controller.handlerIn ((r.state e).controllerIn (r.wave e))) p := by
  rw [process_eq] at he he'
  have hquiet := ControllerRun.quiet_of_rise he he'
  rw [ControllerRun.handler_succ rfl] at he'
  have hreq := hquiet.requested he'
  rw [ControllerRun.handlerIn, r.controller_state] at hreq
  exact hreq

/-- The lock opens with a read acknowledged only. -/
theorem ack_of_opened {n : ℕ} (hlock : (r.state n).controller.handler.lockPrRdR = true)
    (hopen : (r.state (n + 1)).controller.handler.lockPrRdR = false) : r.prRdAck n = true := by
  rw [← r.controller_state] at hlock hopen
  rw [ControllerRun.handler_succ rfl, MaintHandler.lockPrRdR_next, hlock, Bool.true_or,
    Bool.and_true, Bool.not_eq_false'] at hopen
  rw [prRdAck_eq]
  exact hopen

/-- **Between a fall and a rise of its flag a request is raised anew.** -/
theorem renewed {p : MaintProg} {a b t e : ℕ} (hat : a < t) (hte : t < e) (heb : e ≤ b)
    (ht : r.process p t = true) (ht' : r.process p (t + 1) = false) (he : r.process p e = false)
    (he' : r.process p (e + 1) = true) : r.Renewed a b p := by
  have hreq := requested_of_rise he he'
  rcases acked_of_fall ht ht' with ⟨hp, hack⟩ | ⟨rfl, hack⟩
  · cases p with
    | prRd => exact absurd rfl hp
    | zq =>
      -- the request register was cleared at the fall and is set at the rise
      have hreq' : (r.state e).maintCtrl.zqCalibCtrl.zqRequestR = true :=
        (Bool.and_eq_true_iff.1 hreq).2
      obtain ⟨s, hs, hse, hset⟩ := r.zqFlag.exists_set hack hte hreq'
      rw [Bool.or_eq_true, Bool.not_eq_true'] at hset
      exact ⟨s, by omega, by omega, hset.symm⟩
    | autoref =>
      have hclear : AutorefCtrl.clears (r.autorefIn t) = true := by
        have hack' : (r.autorefIn t).autorefAck = true := hack
        rw [AutorefCtrl.clears, hack', Bool.not_true, Bool.and_false]
        rfl
      obtain ⟨s, hs, hse, hfire⟩ := r.autorefAlarm.exists_fires hclear hte hreq
      refine ⟨s, by omega, by omega, ?_⟩
      rw [autorefTimerOne, AutorefCtrl.autorefTimerOne, decide_eq_one (by decide)]
      exact hfire
  · -- the read acknowledged: the one that dropped it, or the one that opens the lock
    have hopened : ∃ u, t ≤ u ∧ u < e ∧ r.prRdAck u = true := by
      rcases hack with hack | hlock
      · exact ⟨t, le_rfl, hte, hack⟩
      · obtain ⟨u, hu, hue, hcl, hop⟩ := exists_fall
          (f := fun n => (r.state n).controller.handler.lockPrRdR) hte hlock hreq.2
        exact ⟨u, by omega, hue, ack_of_opened hcl hop⟩
    obtain ⟨u, hu, hue, hack⟩ := hopened
    obtain ⟨s, hs, hse, hfire⟩ := r.prrdAlarm.exists_fires hack hue hreq.1
    refine ⟨u, s, by omega, hs, by omega, hack, ?_⟩
    rw [periodicRdTimerOne, PeriodicRdCtrl.periodicRdTimerOne, decide_eq_one (clogb2_pos _)]
    exact hfire

/-- **Maintenance requests are served exactly once**, whatever the
application, `dfi_ready` and the PHY's initialisation. -/
theorem servedOnce (r : SystemRun) : r.ServedOnce where
  one n p q hp hq := by
    rw [process_eq] at hp hq
    exact ControllerRun.processR_unique hp hq
  accepted p a b hab ha hb := by
    have hup : r.process p (a + 1) = true := by
      rw [process_eq, ha.at_one.runs.processR_eq]
      exact decide_eq_true rfl
    have hupb : r.process p b = true := by
      rw [process_eq]
      exact hb.2.2
    -- the receiver has left the first program before it accepts the second
    obtain ⟨m, hm, hmb, hin, hout⟩ := exists_fall
      (f := fun n => decide (r.controller.recvState n = .maint)) (a := a + 1) (b := b) hab
      (decide_eq_true ha.2.1) (decide_eq_false (by rw [hb.1]; simp))
    have hlow : r.process p (m + 1) = false := by
      rw [process_eq]
      exact (ControllerRun.quiet_of_left (of_decide_eq_true hin) (of_decide_eq_false hout)).processR_eq p
    obtain ⟨t, hat, htm, ht, ht'⟩ := exists_fall (f := r.process p) (by omega) hup hlow
    obtain ⟨e, hme, heb, he, he'⟩ := exists_rise (f := r.process p) hmb hlow hupb
    exact renewed hat (by omega) (by omega) ht ht' he he'
  entered p a b hab ha hb := by
    obtain ⟨t, hat, htb, ht, ht'⟩ := exists_fall (f := r.process p) hab ha.2 hb.1
    exact renewed hat htb le_rfl ht ht' hb.1 hb.2
  acked p t hp := by
    rw [← acks_eq]
    exact ControllerRun.acks_iff hp t

end SystemRun

end SoftMC
