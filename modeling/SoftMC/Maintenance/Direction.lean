import SoftMC.Maintenance.ReadLock
import SoftMC.Dispatch.Direction
/-!
# Maintenance preserves the direction of the bus

A periodic read switches the bus to reading. The handler records the
direction in the cycle its first instruction is accepted, with the
dispatcher at rest, and closes the program with a switch back where it was
writing. Outside the dispatch of a program the direction is the one the
application's own instructions have left.
-/

namespace SoftMC

open Clocked Dispatcher

namespace MaintProg

theorem setsDir_of_ne {w : Instr} (h : opcode w ≠ .setBusdir) : setsDir w = none := if_neg h

/-- The periodic read switches to reading first, and to writing last. -/
theorem setsDir_word {p : MaintProg} {k : ℕ} {dir : BitVec 2} (i : MaintHandler.In)
    (hk : k < p.length dir) :
    setsDir (p.word k i) =
      if p = .prRd ∧ k = 0 then some false else if p = .prRd ∧ k = 9 then some true else none := by
  have hddr : ∀ x ras cas we a10, setsDir (maintDdr x ras cas we a10) = none := fun x ras cas we a10 =>
    setsDir_of_ne (by rw [opcode_maintDdr]; decide)
  have hwait : ∀ count, setsDir (maintWait count) = none := fun count =>
    setsDir_of_ne (by rw [opcode_maintWait]; decide)
  refine by_program hk (fun k h => ?_) (fun k h => ?_) fun k h => ?_
  all_goals
    interval_cases k <;> simp only [word, hddr, hwait] <;> decide

end MaintProg

namespace ControllerRun

variable (r : ControllerRun)

/-- The direction the dispatcher holds in cycle `n`, and with it
`dfi_odt0` and `dfi_odt1`. -/
abbrev busWrite (n : ℕ) : Bool := (r.state n).core.exec.iseq.disp.busWriteR

/-- The sequence handed over last is of maintenance. -/
def ofMaint (n : ℕ) : Bool := (r.path.sequence n).any fun x => decide (x.1 = .maint)

/-- **The application's direction**: what its own SET_BUSDIR instructions
leave. -/
def appDir : ℕ → Bool
  | 0 => false
  | n + 1 =>
    if r.ofMaint n then appDir n
    else dirAfter ((r.state n).core.exec.iseq.disp.issue1 (r.dispIn n))
      (dirAfter ((r.state n).core.exec.iseq.disp.issue0 (r.dispIn n)) (appDir n))

/-- Nothing of a sequence handed over is left to issue. -/
def Drained (n : ℕ) : Prop :=
  (r.state n).core.exec.content0 = [] ∧ (r.state n).core.exec.content1 = []

/-- A maintenance sequence is being dispatched, and something of it is
left. -/
def MaintLeft (n : ℕ) : Prop := r.Handing n ∧ r.ofMaint n = true ∧ ¬ r.Drained n

/-- The receiver accepts the first instruction of a maintenance sequence in
cycle `m`, and hands the sequence over in cycle `e`. -/
structure MaintVisit (m e : ℕ) : Prop where
  lt : m + 1 < e
  opened : r.recvState m = .idle
  taken : ∀ k, m < k → k < e → r.recvState k = .maint
  closed : r.recvState e = .idle

/-- **Maintenance preserves the direction of the bus.** -/
structure PreservesDirection : Prop where
  /-- Once the last instruction of a maintenance sequence has issued, the
  direction is that of the cycle in which its first was accepted, for as
  long as no other sequence is received. -/
  restored : ∀ m e n, r.MaintVisit m e → e ≤ n → (∀ k, e ≤ k → k ≤ n → r.recvState k = .idle) →
    r.Drained n → r.busWrite n = r.busWrite m
  /-- But for the dispatch of a maintenance sequence it is the one the
  application's own instructions have left. -/
  app : ∀ n, ¬ r.MaintLeft n → r.busWrite n = r.appDir n

variable {r}

/-! ## Cycles that issue nothing -/

theorem busWrite_succ (n : ℕ) :
    r.busWrite (n + 1) = dirAfter ((r.state n).core.exec.iseq.disp.issue1 (r.dispIn n))
      (dirAfter ((r.state n).core.exec.iseq.disp.issue0 (r.dispIn n)) (r.busWrite n)) :=
  Exec.busWriteR_next

theorem not_valid_of_resting {e : Exec} (h : e.Resting) :
    e.iseq.instr0Reg.rValid1 = false ∧ e.iseq.instr1Reg.rValid1 = false := ⟨h.2.1.1, h.2.2.1⟩

/-- A dispatcher at rest changes neither direction. -/
theorem dirs_of_atRest {n : ℕ} (h : (r.state n).core.AtRest) :
    r.busWrite (n + 1) = r.busWrite n ∧ r.appDir (n + 1) = r.appDir n := by
  obtain ⟨hv0, hv1⟩ := not_valid_of_resting h.resting
  obtain ⟨h0, h1⟩ := issue_of_empty (s := (r.state n).core.exec.iseq.disp) (i := r.dispIn n) hv0 hv1
  constructor
  · rw [busWrite_succ, h0, h1]
    rfl
  · rw [appDir, h0, h1]
    split <;> rfl

/-! ## The recorded direction -/

/-- **While a periodic read is handed over, the direction recorded is the
bus's.** -/
theorem curBusDirR_of_maint {n : ℕ} (hs : r.recvState n = .maint)
    (hp : (r.state n).handler.prRdProcessR = true) :
    (r.state n).handler.curBusDirR = if r.busWrite n then BUS_DIR_WRITE else BUS_DIR_READ := by
  induction n with
  | zero => cases hs
  | succ n ih =>
    rcases r.inStep n with ⟨p, m, k, hsn, -, hat, hshort, -⟩ | ⟨hne, hq⟩ | ⟨p, hne, hat⟩
    · -- a further instruction
      have hrest := atRest_of_maint hsn
      rcases Nat.lt_or_eq_of_le hshort with hlt | heq
      · obtain ⟨-, hat', -, -⟩ := taken_of_maint hsn hat hlt
        have hpr : p = .prRd := of_decide_eq_true (hat'.runs.1.symm.trans hp)
        have hack : (r.state n).maintAck (r.wave n) = true :=
          (Receiver.comb_maint (r.state n).core.recv
            ((r.state n).core.recvIn (r.coreIn n)) hsn).1
        have hdir := hat.curBusDirR_next (i := r.handlerIn n) (ack_of_maint hsn) hlt
        rw [← handler_succ hack, if_neg (by omega)] at hdir
        rw [hdir, (dirs_of_atRest hrest).1]
        exact ih hsn (hat.runs.1.trans (decide_eq_true hpr))
      · rw [heq] at hat
        exact absurd ((closed_of_maint hsn hat).1.symm.trans hs) (by simp)
    · rcases opened_or_not hne with ⟨-, -, hen, -, -⟩ | ⟨hs', -⟩
      · rw [hq.maintInstrEn] at hen; cases hen
      · exact absurd hs hs'
    · -- the first
      rcases opened_or_not hne with ⟨hidle, hs', -, hack, hrd⟩ | ⟨hs', -⟩
      · have hpos := MaintProg.length_pos (r.state n).handler.curBusDirR p
        have hat' := (hat.offers (i := r.handlerIn n) hrd hpos).2.1
        rw [← handler_succ hack] at hat'
        have hpr : p = .prRd := of_decide_eq_true (hat'.runs.1.symm.trans hp)
        have hdir := hat.curBusDirR_next (i := r.handlerIn n) hrd hpos
        rw [← handler_succ hack, if_pos ⟨hpr, rfl⟩] at hdir
        rw [hdir, (dirs_of_atRest (atRest_of_opened hidle hs').1).1]
        rfl
      · exact absurd hs hs'

/-! ## The dispatch of a program -/

/-- What is left of a program, with the direction it was accepted under. -/
def PutsBack (e : Exec) (dir : Bool) : Prop := (dir = true ∧ e.Switching) ∨ e.Settles dir

theorem PutsBack.settled {e : Exec} {dir : Bool} (h : PutsBack e dir) (h0 : e.content0 = [])
    (h1 : e.content1 = []) : e.iseq.disp.busWriteR = dir := by
  rcases h with ⟨-, hsw⟩ | hset
  · obtain ⟨a, l, hq, -, -⟩ := hsw.queue0
    rw [h0] at hq
    cases hq
  · exact hset.settled h0 h1

/-- A periodic read accepted while writing ends with a switch back. -/
theorem switching_of_end (hroom : r.Roomy) {n m : ℕ} (hs : r.recvState n = .maint)
    (hs' : r.recvState (n + 1) = .idle) (hv : r.visit n = r.words .prRd m 10) :
    (r.state (n + 1)).core.exec.Switching := by
  obtain ⟨hc0, hc1⟩ := contents_of_closed hroom hs (by rw [hs']; simp)
  rw [hv] at hc0 hc1
  let at_ (k : ℕ) : Instr := MaintProg.prRd.word k (r.handlerIn (m + k))
  have hset : ∀ k < 10, setsDir (at_ k) =
      if k = 0 then some false else if k = 9 then some true else none := by
    intro k hk
    rw [MaintProg.setsDir_word _ (show k < MaintProg.prRd.length BUS_DIR_WRITE from hk)]
    simp only [true_and]
  have hnone : ∀ k < 9, 0 < k → setsDir (at_ k) = none := by
    intro k hk hk0
    rw [hset k (by omega), if_neg (by omega), if_neg (by omega)]
  obtain ⟨hv0, hv1⟩ := not_valid_of_resting (atRest_of_maint hs).resting
  refine ⟨(next_of_empty (s := (r.state n).core.exec.iseq.disp) (i := r.dispIn n) hv0 hv1).2,
    ⟨at_ 0, [at_ 2, at_ 4, at_ 6, at_ 8], hc0, hset 0 (by decide), fun w hmem => ?_⟩,
    ⟨at_ 1, [at_ 3, at_ 5, at_ 7], at_ 9, hc1, hset 9 (by decide), fun w hmem => ?_,
      Or.inr ⟨List.cons_ne_nil _ _, ?_⟩⟩⟩
  · simp only [List.mem_cons, List.not_mem_nil, or_false] at hmem
    rcases hmem with rfl | rfl | rfl | rfl <;> exact hnone _ (by decide) (by decide)
  · simp only [List.mem_cons, List.not_mem_nil, or_false] at hmem
    rcases hmem with rfl | rfl | rfl | rfl <;> exact hnone _ (by decide) (by decide)
  · change opcode (maintDdr _ _ _ _ _) ≠ _
    rw [MaintProg.opcode_maintDdr]
    decide

/-- Any other program sets no direction but the one it was accepted
under. -/
theorem settles_of_end (hroom : r.Roomy) {n m : ℕ} {p : MaintProg} (hs : r.recvState n = .maint)
    (hs' : r.recvState (n + 1) = .idle)
    (hv : r.visit n = r.words p m (p.length (r.state n).handler.curBusDirR))
    (hp : p = .prRd → (r.state n).handler.curBusDirR = BUS_DIR_READ ∧ r.busWrite n = false) :
    (r.state (n + 1)).core.exec.Settles (r.busWrite n) := by
  obtain ⟨hc0, hc1⟩ := contents_of_closed hroom hs (by rw [hs']; simp)
  refine ⟨fun w hmem d hd => ?_, Or.inl (dirs_of_atRest (atRest_of_maint hs)).1⟩
  rw [hc0, hc1, hv, mem_deal, words, List.mem_map] at hmem
  obtain ⟨k, hk, rfl⟩ := hmem
  have hk' := List.mem_range.1 hk
  rw [MaintProg.setsDir_word _ hk'] at hd
  by_cases hpr : p = .prRd
  · obtain ⟨hdir, hread⟩ := hp hpr
    rw [hpr, hdir, MaintProg.length, if_pos rfl] at hk'
    rw [if_neg (c := p = .prRd ∧ k = 9) (by omega)] at hd
    split at hd
    · rw [hread]
      exact (Option.some.inj hd).symm
    · cases hd
  · rw [if_neg fun h => hpr h.1, if_neg fun h => hpr h.1] at hd
    cases hd

/-- **A program handed over puts back the direction it was accepted
under.** -/
theorem putsBack_of_end (hroom : r.Roomy) {n : ℕ} (hs : r.recvState n = .maint)
    (hs' : r.recvState (n + 1) = .idle) :
    PutsBack (r.state (n + 1)).core.exec (r.busWrite n) := by
  obtain ⟨p, m, -, hat, hv⟩ := visit_of_left hs (by rw [hs']; simp)
  by_cases hw : p = .prRd ∧ r.busWrite n = true
  · obtain ⟨rfl, hw⟩ := hw
    have hdir := curBusDirR_of_maint hs hat.runs.1
    rw [hw, if_pos rfl] at hdir
    rw [hdir] at hv
    exact Or.inl ⟨hw, switching_of_end hroom hs hs' hv⟩
  · refine Or.inr (settles_of_end hroom hs hs' hv fun hpr => ?_)
    have hread : r.busWrite n = false := by
      rw [← Bool.not_eq_true]
      exact fun h => hw ⟨hpr, h⟩
    have hdir := curBusDirR_of_maint hs (hat.runs.1.trans (decide_eq_true hpr))
    rw [hread, if_neg Bool.false_ne_true] at hdir
    exact ⟨hdir, hread⟩

/-! ## The invariant -/

/-- **The direction is accounted for**, by what the path is doing. -/
inductive Directed (r : ControllerRun) (n : ℕ) : Prop
  | rest (rest : (r.state n).core.AtRest) (pulse : (r.state n).core.recv.processIseqR = false)
      (dir : r.busWrite n = r.appDir n)
  | app (handing : r.Handing n) (src : r.ofMaint n = false) (dir : r.busWrite n = r.appDir n)
  | maint (handing : r.Handing n) (src : r.ofMaint n = true)
      (landed : (r.state n).core.recv.instrEnR = false)
      (putsBack : PutsBack (r.state n).core.exec (r.appDir n))

theorem ofMaint_of_app {n : ℕ} (h : ∀ x ∈ r.path.sequence n, x.1 = .app) : r.ofMaint n = false := by
  rw [ofMaint, List.any_eq_false]
  intro x hx
  rw [h x hx]
  decide

/-- A program's END is of maintenance. -/
theorem ofMaint_of_end {n : ℕ} (hs : r.recvState n = .maint) (hs' : r.recvState (n + 1) = .idle) :
    r.ofMaint (n + 1) = true ∧ (r.state (n + 1)).core.recv.processIseqR = true := by
  obtain ⟨p, m, -, hat, -⟩ := visit_of_left hs (by rw [hs']; simp)
  obtain ⟨-, hpulse, -, hhand⟩ := closed_of_maint hs hat
  refine ⟨?_, hpulse⟩
  rw [ofMaint, PathRun.sequence_of_pulse (by rw [path_state]; exact hpulse), List.any_eq_true]
  refine ⟨(.maint, maintEnd), List.mem_append_right _ ?_, rfl⟩
  rw [accepted_of_maint hs, hhand]
  exact List.mem_singleton_self _

theorem drained_of_buffering {n : ℕ} (hb : (r.state n).core.Buffering []) : r.Drained n :=
  ⟨List.eq_nil_iff_forall_not_mem.2 fun w hw => hb.not_holds w (Or.inl (Or.inl hw)),
    List.eq_nil_iff_forall_not_mem.2 fun w hw => hb.not_holds w (Or.inl (Or.inr hw))⟩

/-- A program goes on putting the direction back. -/
theorem PutsBack.next {n : ℕ} {dir : Bool} (hen : (r.state n).core.recv.instrEnR = false)
    (h : PutsBack (r.state n).core.exec dir) : PutsBack (r.state (n + 1)).core.exec dir := by
  obtain ⟨hw0, hw1⟩ := Core.no_write_of_not_en (i := r.coreIn n) hen
  have hshow : ((r.state n).core.exec.iseq.instr0Reg.rValid1 = false ∧
      (r.state n).core.exec.iseq.instr1Reg.rValid1 = false) ∨ (r.state n).core.exec.Flowing := by
    rcases mode (r := r) n with hrest | hd
    · exact Or.inl (not_valid_of_resting hrest.resting)
    · exact hd.exec.imp_left fun hl => ⟨hl.2.1.1, hl.2.2.1⟩
  rcases h with ⟨hdir, hsw⟩ | hset
  · subst hdir
    exact (hsw.next (D := r.depth) (sound n) hw0 hw1 hshow).imp_left fun h => ⟨rfl, h⟩
  · exact Or.inr (hset.next (sound n) hw0 hw1)

/-- **The account is kept.** -/
theorem Directed.next (hroom : r.Roomy) {n : ℕ} (h : r.Directed n) : r.Directed (n + 1) := by
  have hclosed : (r.state (n + 1)).core.Buffering [] →
      (r.state (n + 1)).core.recv.processIseqR = false := by
    intro hb
    by_contra hp
    exact hb.closed (Bool.not_eq_false _ ▸ hp) rfl
  have hsame : r.path.sequence (n + 1) = r.path.sequence n → r.ofMaint (n + 1) = r.ofMaint n :=
    fun hseq => by rw [ofMaint, hseq, ofMaint]
  rcases h with ⟨hrest, hp, hdir⟩ | ⟨hh, hsrc, hdir⟩ | ⟨hh, hsrc, hen, hput⟩
  · -- at rest: only an END of maintenance leaves a direction to put back
    obtain ⟨hbus, happ⟩ := dirs_of_atRest hrest
    by_cases hend : r.recvState n = .maint ∧ r.recvState (n + 1) = .idle
    · obtain ⟨hof, hpulse⟩ := ofMaint_of_end hend.1 hend.2
      refine .maint (Or.inl hpulse) hof (dealt_of_closed hroom hend.1 (by rw [hend.2]; simp)).2.2 ?_
      rw [happ, ← hdir]
      exact putsBack_of_end hroom hend.1 hend.2
    · have hdir' : r.busWrite (n + 1) = r.appDir (n + 1) := by rw [hbus, happ, hdir]
      cases hp' : (r.state (n + 1)).core.recv.processIseqR with
      | false => exact .rest (atRest_of_resting (hrest.resting.next hp)) hp' hdir'
      | true => exact .app (Or.inl hp') (ofMaint_of_app (app_of_pulse hp' hend)) hdir'
  · -- in the dispatch of an application the two change together
    have hdir' : r.busWrite (n + 1) = r.appDir (n + 1) := by
      rw [busWrite_succ, appDir, hsrc, if_neg Bool.false_ne_true, hdir]
    rcases hh.next with hb | ⟨hd, hseq⟩
    · exact .rest (atRest_of_resting hb.resting) (hclosed hb) hdir'
    · exact .app (Or.inr hd) ((hsame hseq).trans hsrc) hdir'
  · -- in one of maintenance the application's is kept, and is put back
    have happ : r.appDir (n + 1) = r.appDir n := by rw [appDir, hsrc, if_pos rfl]
    have hput' := hput.next hen
    rw [← happ] at hput'
    rcases hh.next with hb | ⟨hd, hseq⟩
    · obtain ⟨h0, h1⟩ := drained_of_buffering hb
      exact .rest (atRest_of_resting hb.resting) (hclosed hb) (hput'.settled h0 h1)
    · exact .maint (Or.inr hd) ((hsame hseq).trans hsrc) hd.noWrite hput'

theorem directed (hroom : r.Roomy) (n : ℕ) : r.Directed n := by
  induction n with
  | zero => exact .rest Core.idle_reset.atRest rfl rfl
  | succ n ih => exact ih.next hroom

/-- Outside the dispatch of a program the direction is the application's. -/
theorem busWrite_eq (hroom : r.Roomy) {n : ℕ} (h : ¬ r.MaintLeft n) :
    r.busWrite n = r.appDir n := by
  rcases directed hroom n with ⟨-, -, hdir⟩ | ⟨-, -, hdir⟩ | ⟨hh, hsrc, -, hput⟩
  · exact hdir
  · exact hdir
  · have hdr : r.Drained n := by
      by_contra hdr
      exact h ⟨hh, hsrc, hdr⟩
    exact hput.settled hdr.1 hdr.2

/-! ## From the first instruction to the last -/

/-- A receiver that waits hands nothing over. -/
theorem sequence_of_idle {n : ℕ} (hs : r.recvState n = .idle) :
    r.path.sequence (n + 1) = r.path.sequence n := by
  have hp : (r.state (n + 1)).core.recv.processIseqR = false := by
    rcases (r.state n).core.recv.outcome ((r.state n).core.recvIn (r.coreIn n)) with
      ⟨-, -, -, hn⟩ | ⟨-, -, -, -, -, -, -, -, hn⟩ | ⟨-, -, -, -, -, -, -, hn⟩ |
      ⟨src, w, hnow, -, -, -, -, -⟩
    · exact hn
    · exact hn
    · exact hn
    · rw [recvState] at hs
      rw [hs] at hnow
      cases src <;> cases hnow
  rw [PathRun.sequence, path_state, hp, if_neg Bool.false_ne_true]

/-- **Maintenance preserves the direction of the bus.** -/
theorem preservesDirection (hroom : r.Roomy) : r.PreservesDirection where
  restored m e n hv hen hidle hdr := by
    obtain ⟨hlt, hopen, htaken, hclosed⟩ := hv
    obtain ⟨hrest, hpulse⟩ := atRest_of_opened hopen (htaken (m + 1) (by omega) hlt)
    have hfirst : r.busWrite m = r.appDir m := by
      refine busWrite_eq hroom fun hleft => ?_
      rcases hleft.1 with hp | hd
      · exact absurd (hpulse.symm.trans hp) (by simp)
      · exact absurd hrest.resting hd.not_resting
    -- from its END on the sequence stays the last one handed over
    obtain ⟨d, rfl⟩ : ∃ d, e = d + 1 := ⟨e - 1, by omega⟩
    have hof : ∀ k, d + 1 ≤ k → k ≤ n → r.ofMaint k = true := by
      intro k hk
      induction k, hk using Nat.le_induction with
      | base => exact fun _ => (ofMaint_of_end (htaken d (by omega) (by omega)) hclosed).1
      | succ k hk ih =>
        intro hkn
        rw [ofMaint, sequence_of_idle (hidle k hk (by omega))]
        exact ih (by omega)
    have happ : ∀ k, m ≤ k → k ≤ n → r.appDir k = r.appDir m := by
      intro k hk
      induction k, hk using Nat.le_induction with
      | base => exact fun _ => rfl
      | succ k hk ih =>
        intro hkn
        rw [← ih (by omega)]
        rcases Nat.lt_or_ge k (d + 1) with hkd | hkd
        · rcases Nat.eq_or_lt_of_le hk with rfl | hmk
          · exact (dirs_of_atRest hrest).2
          · exact (dirs_of_atRest (atRest_of_maint (htaken k hmk hkd))).2
        · rw [appDir, hof k hkd (by omega), if_pos rfl]
    rw [hfirst, ← happ n (by omega) le_rfl]
    exact busWrite_eq hroom fun hleft => hleft.2.2 hdr
  app n h := busWrite_eq hroom h

/-- A periodic read behind a switch to writing. -/
def readWhileWriting : ControllerRun where
  depth := some 1024
  wave n := {
    prRdReq := decide (5 ≤ n ∧ n < 20)
    zqReq := false
    autorefReq := false
    ddrX := 0
    appEn := decide (n < 2)
    appInstr := if n = 0 then 0x10000002#32 else 0x00000000#32
    dfiReady := true }

theorem readWhileWriting_preserved :
    readWhileWriting.PreservesDirection ∧ readWhileWriting.busWrite 6 = true ∧
      readWhileWriting.busWrite 20 = false ∧ readWhileWriting.busWrite 35 = true := by
  have h : readWhileWriting.PreservesDirection := by
    refine preservesDirection fun d hd => ?_
    have hd' : 1024 = d := Option.some.inj hd
    omega
  have htaken : ∀ k < 17, 6 < k → readWhileWriting.recvState k = .maint := by decide +kernel
  have hidle : ∀ k < 36, 17 ≤ k → readWhileWriting.recvState k = .idle := by decide +kernel
  have hv : readWhileWriting.MaintVisit 6 17 :=
    ⟨by decide, by decide +kernel, fun k hm he => htaken k he hm, hidle 17 (by decide) le_rfl⟩
  have hback := h.restored 6 17 35 hv (by decide) (fun k he hn => hidle k (by omega) he)
    ⟨by decide +kernel, by decide +kernel⟩
  exact ⟨h, by decide +kernel, by decide +kernel, hback.trans (by decide +kernel)⟩

end ControllerRun

end SoftMC
