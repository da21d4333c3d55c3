import SoftMC.Maintenance.Buffered
import SoftMC.Dispatch.Reads
import SoftMC.Model.ReadCapturer
/-!
# Periodic reads and user reads are never confused

One lock tags the data of a periodic read. It closes when the program has
been handed over and opens when a read has been acknowledged, a cycle
late. While a maintenance sequence is dispatched the lock is accounted
for: it is closed exactly while the program's one read is still to issue,
or is being acknowledged. While an application's sequence is dispatched it
is open.
-/

namespace SoftMC

open Clocked Dispatcher

/-! ## The words of a program -/

namespace MaintProg

theorem isRead_maintDdr (x : BitVec 3) (ras cas we a10 : Bool) :
    isRead (maintDdr x ras cas we a10) = (ras && !cas && we) := by
  revert x ras cas we a10
  decide

theorem ckeBit_maintDdr (x : BitVec 3) (ras cas we a10 : Bool) :
    ckeBit (maintDdr x ras cas we a10) = true := by
  revert x ras cas we a10
  decide

theorem isRead_maintWait (count : BitVec 28) : isRead (maintWait count) = false := by
  simp [isRead, isDdr, opcode_maintWait]

/-- The periodic read reads once, the other programs never. -/
theorem isRead_word {p : MaintProg} {k : ℕ} {dir : BitVec 2} (i : MaintHandler.In)
    (hk : k < p.length dir) : isRead (p.word k i) = decide (p = .prRd ∧ k = 5) := by
  refine by_program hk (fun k h => ?_) (fun k h => ?_) fun k h => ?_
  all_goals
    interval_cases k <;> simp only [word, isRead_maintDdr, isRead_maintWait] <;> decide

/-- Every command of a program has the clock enabled. -/
theorem ckeBit_word {p : MaintProg} {k : ℕ} {dir : BitVec 2} (i : MaintHandler.In)
    (hk : k < p.length dir) (hop : opcode (p.word k i) = .ddr) : ckeBit (p.word k i) = true := by
  revert hop
  refine by_program hk (fun k h => ?_) (fun k h => ?_) fun k h => ?_
  all_goals
    intro hop
    interval_cases k <;> simp only [word, opcode_maintWait, ckeBit_maintDdr] at hop ⊢ <;>
      exact absurd hop (by decide)

end MaintProg

/-! ## Along a run -/

namespace ControllerRun

variable {r : ControllerRun}

/-- The lock, the acknowledgment and the reads left, in cycle `n`. -/
abbrev lock (r : ControllerRun) (n : ℕ) : Bool := (r.state n).handler.lockPrRdR
abbrev ack (r : ControllerRun) (n : ℕ) : Bool := (r.state n).core.exec.iseq.disp.prRdAckR
abbrev readsLeft (r : ControllerRun) (n : ℕ) : ℕ := (r.state n).core.exec.readsLeft

/-- The application's commands have the clock enabled, as every generator
of the API emits them. -/
def ClockEnabled (r : ControllerRun) : Prop :=
  ∀ n w, (Source.app, w) ∈ r.path.accepted n → opcode w = .ddr → ckeBit w = true

/-- Every command on the path has the clock enabled. -/
theorem ckeBit_of_holds (hcke : r.ClockEnabled) {n : ℕ} {w : Instr} (h : (r.state n).core.Holds w)
    (hop : opcode w = .ddr) : ckeBit w = true := by
  rw [← path_state] at h
  have hQ : ∀ k, ∀ x ∈ r.path.accepted k, opcode x.2 = .ddr → ckeBit x.2 = true := by
    rintro k ⟨src, v⟩ hv hop
    cases src with
    | app => exact hcke k v hv hop
    | maint =>
      have hhand := handed_of_accepted hv
      rcases handed_cases (r := r) k with hnil | ⟨p, j, hj, hword⟩ | ⟨-, hend⟩
      · rw [hnil] at hhand; cases hhand
      · rw [hword, List.mem_singleton] at hhand
        subst hhand
        exact MaintProg.ckeBit_word _ hj hop
      · rw [hend, List.mem_singleton] at hhand
        subst hhand
        exact absurd hop (by decide)
  obtain ⟨src, hw⟩ := PathRun.exists_of_holds hQ h
  exact hw hop

/-- The clock is never disabled. -/
theorem cke (hcke : r.ClockEnabled) (n : ℕ) :
    (r.state n).core.exec.iseq.disp.cke0R = true ∧ (r.state n).core.exec.iseq.disp.cke1R = true := by
  induction n with
  | zero => exact ⟨rfl, rfl⟩
  | succ n ih => exact Exec.cke_next (fun w hw => ckeBit_of_holds hcke (Or.inl hw)) ih.1 ih.2

/-- A program's words hold its reads. -/
theorem countP_words (p : MaintProg) (m : ℕ) (dir : BitVec 2) :
    (r.words p m (p.length dir)).countP isRead = if p = .prRd then 1 else 0 := by
  have hcount : (r.words p m (p.length dir)).countP isRead =
      (List.range (p.length dir)).countP fun j => decide (p = .prRd ∧ j = 5) := by
    rw [words, List.countP_map]
    refine List.countP_congr fun j hj => ?_
    rw [Function.comp_apply, MaintProg.isRead_word _ (List.mem_range.1 hj)]
  rw [hcount]
  cases p with
  | prRd =>
    rw [MaintProg.length]
    split <;> decide
  | zq => rfl
  | autoref => rfl

/-! ## The account of the lock -/

/-- From its `process_iseq` on a sequence is in the dispatcher's hands. -/
def Handing (r : ControllerRun) (n : ℕ) : Prop :=
  (r.state n).core.recv.processIseqR = true ∨ (r.state n).core.Dispatching

/-- **The lock is accounted for**, by what the path is doing. -/
inductive Accounted (r : ControllerRun) (n : ℕ) : Prop
  | rest (rest : (r.state n).core.AtRest) (pulse : (r.state n).core.recv.processIseqR = false)
      (lock : r.lock n = false)
  | app (handing : r.Handing n) (src : ∀ x ∈ r.path.sequence n, x.1 = .app)
      (lock : r.lock n = false)
  | maint (handing : r.Handing n) (src : ∀ x ∈ r.path.sequence n, x.1 = .maint)
      (landed : (r.state n).core.recv.instrEnR = false)
      (account : r.readsLeft n + (r.ack n).toNat = (r.lock n).toNat)

theorem Handing.idle {n : ℕ} (h : r.Handing n) : r.recvState n = .idle := by
  rcases h with hp | hd
  · have := PathRun.idle_of_pulse (r := r.path) (n := n) (by rw [path_state]; exact hp)
    rwa [path_state] at this
  · exact hd.idle

/-- The lock moves with a periodic read's END and with an acknowledged
read. -/
theorem lock_succ (n : ℕ) :
    r.lock (n + 1) = (!r.ack n && (r.lock n || ((r.state n).handler.prRdProcessR &&
      decide ((r.state n).handler.maintState = MAINT_FIN)))) :=
  MaintHandler.lockPrRdR_next _

/-- But for the END of a program it does not close. -/
theorem lock_succ_of_not_end {n : ℕ} (h : ¬ (r.recvState n = .maint ∧ r.recvState (n + 1) = .idle)) :
    r.lock (n + 1) = (!r.ack n && r.lock n) := by
  rw [lock_succ]
  cases hpr : (r.state n).handler.prRdProcessR with
  | false => rw [Bool.false_and, Bool.or_false]
  | true =>
    by_cases hfin : (r.state n).handler.maintState = MAINT_FIN
    · obtain ⟨hs, -, hs'⟩ := seen_of_fin
        (by simp [MaintHandler.maintInstrEn, MaintHandler.maintProcess, hpr]) hfin
      exact absurd ⟨hs, hs'⟩ h
    · rw [decide_eq_false hfin, Bool.and_false, Bool.or_false]

/-- A dispatcher at rest acknowledges nothing. -/
theorem ack_of_resting {n : ℕ} (h : (r.state n).core.exec.Resting) : r.ack n = false := by
  rw [← Bool.not_eq_true]
  intro hack
  exact absurd (h.1.symm.trans (busy_of_ack hack)) (by simp)

theorem atRest_of_resting {n : ℕ} (h : (r.state n).core.exec.Resting) :
    (r.state n).core.AtRest := by
  rcases mode (r := r) n with hrest | hd
  · exact hrest
  · exact absurd h hd.not_resting

/-- One instruction tells the source of all that is gathered with it. -/
theorem source_of_accepted {n : ℕ} {src : Source} {w : Instr}
    (h : (src, w) ∈ r.path.accepted n) (hp : (r.state (n + 1)).core.recv.processIseqR = true) :
    ∀ x ∈ r.path.sequence (n + 1), x.1 = src := by
  rw [PathRun.sequence_of_pulse (by rw [path_state]; exact hp)]
  obtain ⟨src', hsrc⟩ := (PathRun.gathered_spec (r := r.path) (n + 1)).source
  have hmem : (src, w) ∈ r.path.gathered (n + 1) := List.mem_append_right _ h
  intro x hx
  rw [hsrc x hx, ← hsrc _ hmem]

/-- Any other END than a program's is the application's. -/
theorem app_of_pulse {n : ℕ} (hp : (r.state (n + 1)).core.recv.processIseqR = true)
    (hend : ¬ (r.recvState n = .maint ∧ r.recvState (n + 1) = .idle)) :
    ∀ x ∈ r.path.sequence (n + 1), x.1 = .app := by
  rcases (r.state n).core.recv.outcome ((r.state n).core.recvIn (r.coreIn n)) with
    ⟨-, -, -, hn⟩ | ⟨-, -, -, -, -, -, -, -, hn⟩ | ⟨-, -, -, -, -, -, -, hn⟩ |
    ⟨src, w, hnow, hacc, -, hs', -, -⟩
  · exact absurd (hn.symm.trans hp) (by simp)
  · exact absurd (hn.symm.trans hp) (by simp)
  · exact absurd (hn.symm.trans hp) (by simp)
  · cases src with
    | maint => exact absurd ⟨hnow, hs'⟩ hend
    | app =>
      refine source_of_accepted (w := w) ?_ hp
      rw [PathRun.accepted, path_state]
      exact Option.mem_toList.2 hacc

/-- With the END of a program the lock is closed on its read, or it has
none. -/
theorem Accounted.of_end (hroom : r.Roomy) {n : ℕ} (hs : r.recvState n = .maint)
    (hs' : r.recvState (n + 1) = .idle) (hlock : r.lock n = false) : r.Accounted (n + 1) := by
  have hleft : r.recvState (n + 1) ≠ .maint := by rw [hs']; simp
  obtain ⟨p, m, -, hat, hv⟩ := visit_of_left hs hleft
  obtain ⟨-, hpulse, -, hhand⟩ := closed_of_maint hs hat
  obtain ⟨-, hrest, hen⟩ := dealt_of_closed hroom hs hleft
  obtain ⟨hc0, hc1⟩ := contents_of_closed hroom hs hleft
  have hcount : r.readsLeft (n + 1) = if p = .prRd then 1 else 0 := by
    rw [← countP_words (r := r) p m (r.state n).handler.curBusDirR, ← hv, ← countP_deal, readsLeft,
      Exec.readsLeft, hc0, hc1]
  have hfin : (r.state n).handler.maintState = MAINT_FIN := by
    rw [hat.state, MaintProg.step, if_neg (Nat.lt_irrefl _)]
  have hlock' : r.lock (n + 1) = decide (p = .prRd) := by
    have hack : r.ack n = false := ack_of_maint hs
    rw [lock_succ, hack, hlock, hat.runs.1, hfin]
    simp
  refine .maint (Or.inl hpulse) (source_of_accepted (w := maintEnd) ?_ hpulse) hen ?_
  · rw [accepted_of_maint hs, hhand]; simp
  · rw [hcount, ack_of_resting hrest, hlock']
    by_cases hp : p = .prRd <;> simp [hp]

/-- While a sequence is accepted the lock stays open. -/
theorem Accounted.next_of_rest (hroom : r.Roomy) {n : ℕ} (hrest : (r.state n).core.AtRest)
    (hp : (r.state n).core.recv.processIseqR = false) (hlock : r.lock n = false) :
    r.Accounted (n + 1) := by
  by_cases hend : r.recvState n = .maint ∧ r.recvState (n + 1) = .idle
  · exact Accounted.of_end hroom hend.1 hend.2 hlock
  · have hlock' : r.lock (n + 1) = false := by
      rw [lock_succ_of_not_end hend, hlock, Bool.and_false]
    cases hp' : (r.state (n + 1)).core.recv.processIseqR with
    | false =>
      exact .rest (atRest_of_resting (hrest.resting.next hp)) hp' hlock'
    | true => exact .app (Or.inl hp') (app_of_pulse hp' hend) hlock'

/-- A sequence stays in the dispatcher's hands until nothing of it is
left. -/
theorem Handing.next {n : ℕ} (h : r.Handing n) :
    (r.state (n + 1)).core.Buffering [] ∨
      ((r.state (n + 1)).core.Dispatching ∧ r.path.sequence (n + 1) = r.path.sequence n) := by
  have hseq : (r.state (n + 1)).core.Dispatching →
      r.path.sequence (n + 1) = r.path.sequence n := fun hd =>
    PathRun.sequence_of_dispatching (by rw [path_state]; exact hd)
  rcases h with hp | hd
  · have hidle : (r.state n).core.recv.stateR = .idle := Handing.idle (Or.inl hp)
    have hrest : (r.state n).core.AtRest := by
      rcases mode (r := r) n with hrest | hd
      · exact hrest
      · exact absurd (hd.noPulse.symm.trans hp) (by simp)
    have hd' : (r.state (n + 1)).core.Dispatching :=
      Core.dispatching_of_pulse hrest.resting hidle hp
    exact Or.inr ⟨hd', hseq hd'⟩
  · rcases hd.next (D := r.depth) (i := r.coreIn n) with hb | ⟨-, hd'⟩
    · exact Or.inl hb
    · exact Or.inr ⟨hd', hseq hd'⟩

/-- The path in any state. -/
theorem sound (n : ℕ) : (r.state n).core.exec.Sound := (mode n).sound

/-- **The account is kept.** -/
theorem Accounted.next (hroom : r.Roomy) (hcke : r.ClockEnabled) {n : ℕ} (h : r.Accounted n) :
    r.Accounted (n + 1) := by
  -- no program ends while a sequence is in the dispatcher's hands
  have hlock : r.Handing n → r.lock (n + 1) = (!r.ack n && r.lock n) := fun hh =>
    lock_succ_of_not_end fun hend => by cases hend.1.symm.trans hh.idle
  have hrest : (r.state (n + 1)).core.Buffering [] → r.lock (n + 1) = false →
      r.Accounted (n + 1) := by
    intro hb hl
    refine .rest (atRest_of_resting hb.resting) ?_ hl
    by_contra hp
    exact hb.closed (Bool.not_eq_false _ ▸ hp) rfl
  rcases h with ⟨hrest, hp, hl⟩ | ⟨hh, hsrc, hl⟩ | ⟨hh, hsrc, hen, hacc⟩
  · exact Accounted.next_of_rest hroom hrest hp hl
  · have hl' : r.lock (n + 1) = false := by rw [hlock hh, hl, Bool.and_false]
    rcases hh.next with hb | ⟨hd, hseq⟩
    · exact hrest hb hl'
    · exact .app (Or.inr hd) (hseq ▸ hsrc) hl'
  · have hacc' : r.readsLeft (n + 1) + (r.ack (n + 1)).toNat = (r.lock (n + 1)).toNat := by
      obtain ⟨hw0, hw1⟩ := Core.no_write_of_not_en (i := r.coreIn n) hen
      obtain ⟨hc0, hc1⟩ := cke hcke n
      have hreads := Exec.readsLeft_next (D := r.depth) (sound n) hw0 hw1 hc0 hc1
      change (r.ack (n + 1) = false ∧ r.readsLeft (n + 1) = r.readsLeft n) ∨
        (r.ack (n + 1) = true ∧ r.readsLeft (n + 1) < r.readsLeft n) at hreads
      rw [hlock hh]
      rcases hreads with ⟨ha', hle⟩ | ⟨ha', hlt⟩
      · cases ha : r.ack n <;> cases hl : r.lock n <;>
          simp only [ha, hl, ha', Bool.toNat_false, Bool.toNat_true, Bool.not_false, Bool.not_true,
            Bool.and_self, Bool.and_false, Bool.and_true] at hacc ⊢ <;> omega
      · cases ha : r.ack n <;> cases hl : r.lock n <;>
          simp only [ha, hl, ha', Bool.toNat_false, Bool.toNat_true, Bool.not_false, Bool.not_true,
            Bool.and_self, Bool.and_false, Bool.and_true] at hacc ⊢ <;> omega
    rcases hh.next with hb | ⟨hd, hseq⟩
    · refine hrest hb ?_
      have hnone : r.readsLeft (n + 1) = 0 := by
        rw [readsLeft, Exec.readsLeft, List.countP_eq_zero.2, List.countP_eq_zero.2]
        · exact fun w hw => absurd (Or.inl (Or.inr hw)) (hb.not_holds w)
        · exact fun w hw => absurd (Or.inl (Or.inl hw)) (hb.not_holds w)
      rw [hnone, ack_of_resting hb.resting] at hacc'
      cases hl : r.lock (n + 1) with
      | false => rfl
      | true => rw [hl] at hacc'; cases hacc'
    · exact .maint (Or.inr hd) (hseq ▸ hsrc) hd.noWrite hacc'

/-- **The lock is accounted for in every state.** -/
theorem accounted (hroom : r.Roomy) (hcke : r.ClockEnabled) (n : ℕ) : r.Accounted n := by
  induction n with
  | zero => exact .rest Core.idle_reset.atRest rfl rfl
  | succ n ih => exact ih.next hroom hcke

/-! ## What is issued under it -/

/-- What `instr_dispatcher` sees in cycle `n`, and computes. -/
def dispIn (r : ControllerRun) (n : ℕ) : Dispatcher.In :=
  (r.state n).core.exec.dispIn ((r.state n).core.execIn (r.coreIn n))

def dispComb (r : ControllerRun) (n : ℕ) : Dispatcher.Comb :=
  (r.state n).core.exec.iseq.disp.comb (r.dispIn n)

/-- A slot issues the instruction in cycle `n`. -/
def Issues (r : ControllerRun) (n : ℕ) (w : Instr) : Prop :=
  (r.state n).core.exec.iseq.disp.issue0 (r.dispIn n) = some w ∨
    (r.state n).core.exec.iseq.disp.issue1 (r.dispIn n) = some w

/-- What the PHY returns for cycle `n`: some data, with the cycle's
tags. -/
def returned (r : ControllerRun) (n : ℕ) (data : RdWord) (almostFull full : Bool) :
    ReadCapturer.In where
  dfiRddata := data
  dfiRddataValid := (r.dispComb n).dfiRddataEn
  dfiRddataValidEven := (r.dispComb n).dfiRddataEnEven
  dfiRddataValidOdd := (r.dispComb n).dfiRddataEnOdd
  rdbackFifoAlmostFull := almostFull
  rdbackFifoFull := full

/-- Cycle `n` asks for a data word with the given odd tag, and
`read_capturer` discards it or not accordingly. -/
def DataTagged (r : ControllerRun) (n : ℕ) (odd : Bool) : Prop :=
  (r.dispComb n).dfiRddataEn = true ∧ (r.dispComb n).dfiRddataEnOdd = odd ∧
    ∀ s data almostFull full,
      (ReadCapturer.next false s (r.returned n data almostFull full)).rdbackFifoWren = !odd

instance (n : ℕ) (w : Instr) : Decidable (r.Issues n w) := inferInstanceAs (Decidable (_ ∨ _))

theorem dataTagged {n : ℕ} {odd : Bool} (hen : (r.dispComb n).dfiRddataEn = true)
    (hodd : (r.dispComb n).dfiRddataEnOdd = odd) : r.DataTagged n odd := by
  refine ⟨hen, hodd, fun s data almostFull full => ?_⟩
  rw [ReadCapturer.rdbackFifoWren_next, returned, hen, hodd, Bool.and_true]

/-- Whether a read is recognised in cycle `n`. -/
def reads (r : ControllerRun) (n : ℕ) : Bool :=
  (r.state n).core.exec.iseq.disp.reads0 (r.dispIn n) ||
    (r.state n).core.exec.iseq.disp.reads1 (r.dispIn n)

theorem dfiRddataEn_eq (n : ℕ) :
    (r.dispComb n).dfiRddataEn = (r.reads n || (r.state n).core.exec.iseq.disp.readBurstR) :=
  Dispatcher.dfiRddataEn_eq

theorem dfiRddataEnOdd_eq (n : ℕ) :
    (r.dispComb n).dfiRddataEnOdd =
      if r.reads n then r.lock n else (r.state n).core.exec.iseq.disp.readBurstOddR :=
  Dispatcher.dfiRddataEnOdd_eq

/-- A read's burst fills the next cycle as well. -/
theorem readBurst_succ (n : ℕ) :
    (r.state (n + 1)).core.exec.iseq.disp.readBurstR = r.reads n ∧
      (r.state (n + 1)).core.exec.iseq.disp.readBurstOddR = (r.reads n && r.lock n) :=
  ⟨readBurstR_next, readBurstOddR_next⟩

/-- Only a dispatch issues, and of the sequence handed over. -/
theorem Issues.dispatching {n : ℕ} {w : Instr} (h : r.Issues n w) :
    (r.state n).core.Dispatching ∧ ∃ src, (src, w) ∈ r.path.sequence n := by
  have hmem := Exec.mem_of_issue h
  have hd : (r.state n).core.Dispatching := by
    rcases mode (r := r) n with hrest | hd
    · obtain ⟨h0, h1⟩ := issue_of_empty (s := (r.state n).core.exec.iseq.disp) (i := r.dispIn n)
        hrest.resting.2.1.1 hrest.resting.2.2.1
      rw [Issues, h0, h1] at h
      rcases h with h | h <;> cases h
    · exact hd
  have hspec := (PathRun.holds_spec (r := r.path) n).2
  rw [path_state] at hspec
  exact ⟨hd, hspec hd w (Or.inl hmem)⟩

/-- A read recognised is one issued. -/
theorem exists_issues {n : ℕ} (h : r.reads n = true) : ∃ w, r.Issues n w ∧ isRead w = true := by
  unfold reads reads0 reads1 at h
  rw [Bool.or_eq_true, Option.any_eq_true, Option.any_eq_true] at h
  rcases h with ⟨w, hw, hr⟩ | ⟨w, hw, hr⟩
  · exact ⟨w, Or.inl hw, (Bool.and_eq_true _ _ ▸ hr).1⟩
  · exact ⟨w, Or.inr hw, (Bool.and_eq_true _ _ ▸ hr).1⟩

/-- And one issued is recognised, the clock enabled. -/
theorem Issues.reads (hcke : r.ClockEnabled) {n : ℕ} {w : Instr} (h : r.Issues n w)
    (hr : isRead w = true) : r.reads n = true := by
  obtain ⟨h0, h1⟩ := cke hcke n
  unfold ControllerRun.reads reads0 reads1
  rw [h0, h1]
  rcases h with h | h
  · rw [h]; simp [hr]
  · rw [h]; simp [hr]

/-- **Periodic reads and user reads kept apart.** -/
structure NeverConfused (r : ControllerRun) : Prop where
  /-- What issues is of the sequence handed over last, all of one source. -/
  origin : ∀ n w, r.Issues n w →
    ∃ src, (src, w) ∈ r.path.sequence n ∧ ∀ x ∈ r.path.sequence n, x.1 = src
  /-- The READ of a maintenance sequence issues under the lock; both its data
  words are tagged odd and discarded. -/
  periodic : ∀ n w, r.Issues n w → opcode w = .ddr → readPins w = true →
    (Source.maint, w) ∈ r.path.sequence n →
    (r.state n).handler.periodicReadLock = true ∧ r.DataTagged n true ∧ r.DataTagged (n + 1) true
  /-- A READ of an application's sequence issues with the lock open; neither
  of its data words is discarded. -/
  user : ∀ n w, r.Issues n w → opcode w = .ddr → readPins w = true →
    (Source.app, w) ∈ r.path.sequence n →
    (r.state n).handler.periodicReadLock = false ∧ r.DataTagged n false ∧ r.DataTagged (n + 1) false

/-- A READ of the path is a read recognised. -/
theorem Issues.isRead (hcke : r.ClockEnabled) {n : ℕ} {w : Instr} (h : r.Issues n w)
    (hop : opcode w = .ddr) (hpins : readPins w = true) : isRead w = true := by
  rw [Dispatcher.isRead, isDdr, decide_eq_true hop, hpins,
    ckeBit_of_holds hcke (Or.inl (Exec.mem_of_issue h)) hop]
  rfl

/-- **The two data words of a read carry the lock it is issued under**, if
a read in the next cycle is issued under the same. -/
theorem tagged_of_reads {n : ℕ} {odd : Bool} (hreads : r.reads n = true) (hlock : r.lock n = odd)
    (hnext : r.reads (n + 1) = true → r.lock (n + 1) = odd) :
    r.DataTagged n odd ∧ r.DataTagged (n + 1) odd := by
  obtain ⟨hb, hbo⟩ := readBurst_succ (r := r) n
  refine ⟨dataTagged ?_ ?_, dataTagged ?_ ?_⟩
  · rw [dfiRddataEn_eq, hreads, Bool.true_or]
  · rw [dfiRddataEnOdd_eq, hreads, if_pos rfl, hlock]
  · rw [dfiRddataEn_eq, hb, hreads, Bool.or_true]
  · rw [dfiRddataEnOdd_eq, hbo, hreads, hlock, Bool.true_and]
    split
    · rename_i hreads'
      exact hnext hreads'
    · rfl

/-- A sequence of maintenance issues one read, under the lock, and none is
left for the cycle behind it. -/
theorem lock_of_maint (hroom : r.Roomy) (hcke : r.ClockEnabled) {n : ℕ} {w : Instr}
    (h : r.Issues n w) (hread : isRead w = true) (hw : (Source.maint, w) ∈ r.path.sequence n) :
    r.lock n = true ∧ r.reads (n + 1) = false := by
  rcases accounted hroom hcke n with ⟨hrest, -, -⟩ | ⟨-, hsrc, -⟩ | ⟨-, hsrc, hen, hacc⟩
  · exact absurd hrest.resting h.dispatching.1.not_resting
  · cases hsrc _ hw
  · have hpos : 0 < r.readsLeft n := Exec.readsLeft_pos (Exec.mem_of_issue h) hread
    have hlock : r.lock n = true := by
      cases hl : r.lock n with
      | true => rfl
      | false => rw [hl, Bool.toNat_false] at hacc; omega
    refine ⟨hlock, ?_⟩
    rw [← Bool.not_eq_true]
    intro hreads'
    obtain ⟨w', hw', hr'⟩ := exists_issues hreads'
    have hpos' : 0 < r.readsLeft (n + 1) := Exec.readsLeft_pos (Exec.mem_of_issue hw') hr'
    obtain ⟨hw0, hw1⟩ := Core.no_write_of_not_en (i := r.coreIn n) hen
    obtain ⟨hc0, hc1⟩ := cke hcke n
    have hstep := Exec.readsLeft_next (D := r.depth) (sound n) hw0 hw1 hc0 hc1
    change (r.ack (n + 1) = false ∧ r.readsLeft (n + 1) = r.readsLeft n) ∨
      (r.ack (n + 1) = true ∧ r.readsLeft (n + 1) < r.readsLeft n) at hstep
    have hack : r.ack (n + 1) = true := Exec.prRdAckR_next.trans (h.reads hcke hread)
    rw [hlock, Bool.toNat_true] at hacc
    rcases hstep with ⟨hno, -⟩ | ⟨-, hlt⟩
    · rw [hack] at hno; cases hno
    · omega

/-- What is issued of an application's sequence finds the lock open. -/
theorem lock_of_app (hroom : r.Roomy) (hcke : r.ClockEnabled) {n : ℕ} {v w : Instr}
    (h : r.Issues n v) (hw : (Source.app, w) ∈ r.path.sequence n) : r.lock n = false := by
  rcases accounted hroom hcke n with ⟨hrest, -, -⟩ | ⟨-, -, hl⟩ | ⟨-, hsrc, -, -⟩
  · exact absurd hrest.resting h.dispatching.1.not_resting
  · exact hl
  · cases hsrc _ hw

/-- **Periodic reads and user reads are never confused**, whatever the
requests, the application's sequences and `dfi_ready`. -/
theorem neverConfused (hroom : r.Roomy) (hcke : r.ClockEnabled) : r.NeverConfused where
  origin n w h := by
    obtain ⟨-, src, hw⟩ := h.dispatching
    obtain ⟨src', hsrc⟩ := PathRun.sequence_source (r := r.path) n
    exact ⟨src, hw, fun x hx => (hsrc x hx).trans (hsrc _ hw).symm⟩
  periodic n w h hop hpins hw := by
    have hread := h.isRead hcke hop hpins
    obtain ⟨hlock, hnone⟩ := lock_of_maint hroom hcke h hread hw
    refine ⟨hlock, tagged_of_reads (h.reads hcke hread) hlock fun hreads' => ?_⟩
    rw [hnone] at hreads'
    cases hreads'
  user n w h hop hpins hw := by
    have hread := h.isRead hcke hop hpins
    have hlock := lock_of_app hroom hcke h hw
    refine ⟨hlock, tagged_of_reads (h.reads hcke hread) hlock fun hreads' => ?_⟩
    -- a read in the next cycle is of the same sequence
    obtain ⟨w', hw', -⟩ := exists_issues hreads'
    have hseq : r.path.sequence (n + 1) = r.path.sequence n :=
      PathRun.sequence_of_dispatching (by rw [path_state]; exact hw'.dispatching.1)
    exact lock_of_app hroom hcke hw' (by rw [hseq]; exact hw)

/-- A user read and its END beside a periodic read that is requested all
the time: the acknowledgment of the first drops the second once. -/
def readBesidePeriodic : ControllerRun where
  depth := some 1024
  wave n := {
    prRdReq := true
    zqReq := false
    autorefReq := false
    ddrX := 0
    appEn := decide (n < 2)
    appInstr := if n = 0 then 0x81290000#32 else 0x00000000#32
    dfiReady := true }

theorem readBesidePeriodic_apart :
    readBesidePeriodic.NeverConfused ∧
      (readBesidePeriodic.DataTagged 4 false ∧ readBesidePeriodic.DataTagged 5 false) ∧
      readBesidePeriodic.DataTagged 26 true ∧ readBesidePeriodic.DataTagged 27 true := by
  have h : readBesidePeriodic.NeverConfused := by
    refine neverConfused (fun d hd => ?_) fun n w hw hop => ?_
    · have hd' : 1024 = d := Option.some.inj hd
      omega
    · rw [appInstr_of_accepted hw] at hop ⊢
      simp only [readBesidePeriodic] at hop ⊢
      split at hop
      · rename_i hn
        rw [if_pos hn]
        decide
      · exact absurd hop (by decide)
  refine ⟨h, ?_, ?_⟩
  · exact (h.user 4 0x81290000#32 (by decide +kernel) (by decide) (by decide) (by decide +kernel)).2
  · exact (h.periodic 26 (maintDdr 0 true false true false) (by decide +kernel) (by decide)
      (by decide) (by decide +kernel)).2

end ControllerRun

end SoftMC
