import SoftMC.Dram.Maintenance
import SoftMC.Maintenance.Buffered
import SoftMC.Maintenance.RefreshTime
import SoftMC.Path.Schedule
/-!
# The sequences a controller serves

A sequence of maintenance is one of the programs of `maint_handler`,
complete. All of them but a refresh leave the counter as the sequence
behind them needs it, and a refresh does at an even time: then nothing
maintenance does costs a run its program order, and the whole of it is
issued on schedule.
-/

namespace SoftMC

open Clocked TwoSlot

namespace MaintProg

theorem waitOf_maintDdr (x : BitVec 3) (ras cas we a10 : Bool) :
    waitOf (maintDdr x ras cas we a10) = none :=
  waitOf_of_ne (by rw [opcode_maintDdr]; simp)

theorem waitOf_maintBusdir (dir : BitVec 2) : waitOf (maintBusdir dir) = none := by
  decide +revert

theorem total_instrs (dir : BitVec 2) (p : MaintProg) (i : ℕ → MaintHandler.In) :
    total waitOf (p.instrs dir i) = total actionWait (p.actions dir (i 3).trfc) := by
  rw [← decode_instrs, total_map, show waitOf = actionWait ∘ decode from funext waitOf_eq]

/-- The last instruction of a program. -/
theorem getLast?_instrs (dir : BitVec 2) (p : MaintProg) (i : ℕ → MaintHandler.In) :
    (p.instrs dir i).getLast? = some (p.word (p.length dir - 1) (i (p.length dir - 1))) := by
  have hpos := length_pos dir p
  rw [instrs, List.getLast?_map, List.getLast?_range, if_neg (by omega)]
  rfl

/-- **A program ends safely**, a refresh if its time is even. -/
theorem endsSafely (dir : BitVec 2) (p : MaintProg) (i : ℕ → MaintHandler.In)
    (heven : p = .autoref → (i 3).trfc.toNat % 2 = 0) : PathRun.EndsSafely (p.instrs dir i) := by
  intro w n hlast hn
  rw [getLast?_instrs] at hlast
  obtain rfl := Option.some.inj hlast
  cases p with
  | prRd =>
    by_cases h : dir = BUS_DIR_READ
    · rw [length, if_pos h] at hn
      obtain rfl : 6 = n := Option.some.inj ((waitOf_maintWait _).symm.trans hn)
      exact Or.inl (Nat.le_refl 6)
    · rw [length, if_neg h] at hn
      cases (waitOf_maintBusdir BUS_DIR_WRITE).symm.trans hn
  | zq =>
    right
    rw [total_instrs]
    simp [actions]
  | autoref =>
    right
    have htime := heven rfl
    rw [total_instrs]
    simp [actions]
    omega

end MaintProg

namespace ControllerRun

variable {r : ControllerRun}

/-! ## The programs among the sequences -/

/-- Nothing is buffered by an idle receiver. -/
theorem since_eq_nil {n : ℕ} (hidle : r.recvState n = .idle)
    (hp : (r.state n).core.recv.processIseqR = false) : r.path.since n = [] := by
  have hgath := PathRun.gathered_spec (r := r.path) n
  rw [r.path_state n] at hgath
  generalize r.path.gathered n = A at hgath
  generalize r.path.since n = P at hgath ⊢
  rcases hgath with _ | ⟨src, w, l, hstate, -, -⟩ | ⟨src, w, e, l, -, hpulse, -, -⟩
  · rfl
  · cases src <;> cases hidle.symm.trans hstate
  · rw [hp] at hpulse; cases hpulse

/-- While a program is handed over, what is buffered is what has been
handed over. -/
theorem since_eq_visit {n : ℕ} (hs : r.recvState n = .maint) : r.path.since n = r.visit n := by
  induction n with
  | zero => cases hs
  | succ n ih =>
    have hst := stored_of_maint hs
    have hsince : r.path.since (n + 1) =
        (if (r.state n).core.recv.processIseqR then [] else r.path.since n) ++ r.stored n := by
      change (r.path.state n).buffered (r.coreIn n) (r.path.since n) = _
      rw [r.path_state n]
      rfl
    by_cases h : r.recvState n = .maint
    · have hp : (r.state n).core.recv.processIseqR = false := by
        by_contra hp
        have hidle := (atRest_of_maint h).idle (by simpa using hp)
        cases hidle.symm.trans h
      rw [hsince, hp, visit_succ, h, ← hst, ih h]
      rfl
    · rcases opened_or_not h with ⟨hidle, -⟩ | ⟨hne, -⟩
      · obtain ⟨-, hp⟩ := atRest_of_opened hidle hs
        rw [hsince, hp, since_eq_nil hidle hp, visit_succ, if_pos hidle, ← hst]
        rfl
      · exact absurd hs hne

/-- **A sequence of maintenance is one of the programs**, complete. -/
theorem exists_program {n : ℕ} (hp : (r.path.state n).recv.processIseqR = true)
    (hsrc : r.path.origin n = .maint) :
    ∃ dir prog m, r.path.since n = MaintProg.instrs dir prog (fun k => r.handlerIn (m + k)) ∧
      (prog = .autoref → n = m + 5 ∧ r.AutorefHanded (m + 4)) := by
  obtain ⟨k, rfl, hs, hs'⟩ := PathRun.exists_end_of_pulse hp
  rw [hsrc, r.path_state k] at hs
  rw [r.path_state (k + 1)] at hs'
  have hleft : r.recvState (k + 1) ≠ .maint := fun h => by cases hs'.symm.trans h
  obtain ⟨prog, m, hm, hat, hv⟩ := visit_of_left hs hleft
  refine ⟨(r.state k).handler.curBusDirR, prog, m, ?_, ?_⟩
  · have hsince : r.path.since (k + 1) = r.path.since k ++ r.stored k := by
      have hp' : (r.state k).core.recv.processIseqR = false := by
        by_contra hp'
        have hidle := (atRest_of_maint hs).idle (by simpa using hp')
        cases hidle.symm.trans hs
      change (r.path.state k).buffered (r.coreIn k) (r.path.since k) = _
      rw [r.path_state k, Core.buffered, hp']
      rfl
    rw [hsince, stored_of_closed hs hleft, List.append_nil, since_eq_visit hs, hv]
    rfl
  · rintro rfl
    refine ⟨by rw [hm]; rfl, ?_⟩
    obtain rfl : k = m + 4 := hm
    exact ⟨hs, hs', hat.runs.2.2⟩

/-- A sequence is the application's or a program. -/
theorem served_cases {n : ℕ} {s : Source × List Instr} (h : s ∈ r.path.served n) :
    s.1 = .app ∨ s.1 = .maint ∧ ∃ dir prog m,
      s.2 = MaintProg.instrs dir prog (fun k => r.handlerIn (m + k)) ∧
        (prog = .autoref → r.AutorefHanded (m + 4)) := by
  obtain ⟨k, -, hp, rfl⟩ := PathRun.exists_pulse h
  cases hsrc : r.path.origin k with
  | app => exact Or.inl rfl
  | maint =>
    obtain ⟨dir, prog, m, hprog, hauto⟩ := exists_program hp hsrc
    exact Or.inr ⟨rfl, dir, prog, m, hprog, fun h => (hauto h).2⟩

/-! ## On schedule -/

/-- **Every sequence ends safely**, if a refresh has an even time. -/
theorem endsSafely_served (heven : ∀ n, r.AutorefHanded (n + 1) → r.trfc n % 2 = 0) (n : ℕ) :
    ∀ s ∈ r.path.served n, PathRun.EndsSafely s.2 := by
  intro s hs
  rcases served_cases hs with happ | ⟨-, dir, prog, m, hprog, hauto⟩
  · obtain ⟨k, -, hp, rfl⟩ := PathRun.exists_pulse hs
    obtain ⟨w, e, l, hsince, -, hend, -⟩ := PathRun.exists_closed_of_pulse hp
    have happ : r.path.origin k = .app := happ
    intro v n hlast hn
    change (r.path.since k).getLast? = some v at hlast
    rw [hsince, happ, Source.endStored, List.getLast?_append, List.getLast?_singleton] at hlast
    obtain rfl : e = v := Option.some.inj hlast
    rw [waitOf_of_ne (by rw [hend]; simp)] at hn
    cases hn
  · rw [hprog]
    exact MaintProg.endsSafely dir prog _ fun h => heven (m + 3) (hauto h)

section Scheduled

variable (hfit : ∀ n, r.path.Fits n) (hready : ∀ n, (r.wave n).dfiReady = true)
  (hwaits : ∀ n, ∀ w ∈ r.stored n, waitOf w ≠ some 0)
  (heven : ∀ n, r.AutorefHanded (n + 1) → r.trfc n % 2 = 0)

include hfit hready hwaits heven

/-- **With even refresh times** each sequence is handed over at a counter
that keeps its order. -/
theorem handsOver_of_even {n : ℕ} (hp : (r.state n).core.recv.processIseqR = true) :
    (r.state n).core.HandsOver := by
  rw [← path_state] at hp ⊢
  refine PathRun.handsOver_of_endsSafely (r := r.path) (Nat.zero_le 4) hfit hready (fun k w hw => ?_)
    (endsSafely_served heven) hp
  rw [path_state] at hw
  exact hwaits k w hw

/-- **A run is issued on schedule**: the sequences served follow one
another in order, each of them from slot `0` and to the cycle, whatever
maintenance comes in between. -/
theorem issues_onSchedule (n : ℕ) :
    ∃ evs, OnSchedule waitOf evs ((r.path.served n).map Prod.snd) ∧ r.path.issued n <+: evs ∧
      ((r.state n).core.exec.iseq.dispatcherBusyR = false → r.path.issued n = evs) := by
  have h := PathRun.exists_onSchedule (r := r.path) hfit hready
    (fun k w hw => hwaits k w (by rwa [path_state] at hw))
    (fun k hp => by
      rw [path_state] at hp ⊢
      exact handsOver_of_even hfit hready hwaits heven hp) n
  rwa [path_state] at h

end Scheduled

/-- A read of the application's own: its refresh time, the program of a
periodic read, and the END. -/
def configuredRead : List Instr :=
  0x3000002C#32 :: MaintProg.prRd.instrs BUS_DIR_READ (fun _ => {
    prRdReq := false, zqReq := false, autorefReq := false, curBusDir := BUS_DIR_READ,
    prRdAck := false, trfc := 0, ddrX := 0 }) ++ [maintEnd]

/-- It is received from reset, and an auto-refresh comes behind it. -/
def readThenRefresh : ControllerRun where
  depth := none
  wave n := {
    prRdReq := false
    zqReq := false
    autorefReq := decide (12 ≤ n ∧ n < 34)
    ddrX := 0
    appEn := decide (n < 11)
    appInstr := configuredRead.getD n 0
    dfiReady := true }

namespace ReadThenRefresh

/-- After cycle `66` nothing happens any more. -/
theorem wave_eq {n : ℕ} (hn : 66 ≤ n) : readThenRefresh.wave n = readThenRefresh.wave 66 := by
  have hlen : configuredRead.length = 11 := rfl
  have hget : configuredRead.getD n 0 = 0 := by
    rw [List.getD_eq_getElem?_getD, List.getElem?_eq_none (by omega)]
    rfl
  simp only [readThenRefresh]
  rw [decide_eq_false (by omega), decide_eq_false (by omega), hget]
  rfl

theorem state_eq {n : ℕ} (hn : 66 ≤ n) : readThenRefresh.state n = readThenRefresh.state 66 :=
  run_fixed (fun _ hn => wave_eq hn) (by decide +kernel) hn

/-- Two sequences are handed over. -/
theorem pulse_cases {n : ℕ} (h : (readThenRefresh.path.state n).recv.processIseqR = true) :
    n = 11 ∨ n = 36 := by
  rw [path_state] at h
  rcases Nat.lt_or_ge n 66 with hlt | hge
  · have hcases : ∀ n < 66, (readThenRefresh.state n).core.recv.processIseqR = true →
        n = 11 ∨ n = 36 := by decide +kernel
    exact hcases n hlt h
  · rw [state_eq hge] at h
    exact absurd h (by decide +kernel)

theorem since_app : readThenRefresh.path.since 11 = configuredRead := by decide +kernel

theorem app_of_served {n : ℕ} {s : Source × List Instr} (h : s ∈ readThenRefresh.path.served n)
    (hs : s.1 = .app) : s.2 = configuredRead := by
  obtain ⟨k, -, hp, rfl⟩ := PathRun.exists_pulse h
  have hs : readThenRefresh.path.origin k = .app := hs
  rcases pulse_cases hp with rfl | rfl
  · exact since_app
  · have horigin : readThenRefresh.path.origin 36 = .maint := by decide +kernel
    rw [horigin] at hs
    cases hs

/-- The refresh that comes behind. -/
def autorefWords : List Instr :=
  [maintDdr 0 false true false true, maintWait (.ofNat 28 DEF_TRP), maintDdr 0 false false true true,
    maintWait 44]

theorem since_maint : readThenRefresh.path.since 36 = autorefWords := by decide +kernel

theorem waitOf_ne {w : Instr} (h : w ∈ configuredRead ++ autorefWords) : waitOf w ≠ some 0 := by
  have hall : (configuredRead ++ autorefWords).all (waitOf · != some 0) = true := by decide +kernel
  simpa using List.all_eq_true.1 hall w h

theorem waits (n : ℕ) : ∀ w ∈ readThenRefresh.stored n, waitOf w ≠ some 0 := by
  intro w hw
  have hmem : w ∈ readThenRefresh.path.stored (n + 67) := by
    refine mem_trace.2 ⟨n, by omega, ?_⟩
    rw [path_state]
    exact hw
  have hlast : (readThenRefresh.state 66).core.recv.stateR = .idle ∧
      (readThenRefresh.state 66).core.recv.processIseqR = false := by decide +kernel
  rw [← state_eq (show 66 ≤ n + 67 by omega)] at hlast
  rw [PathRun.stored_eq_served, since_eq_nil hlast.1 hlast.2, List.append_nil] at hmem
  obtain ⟨s, hs, hw⟩ := List.mem_flatMap.1 hmem
  obtain ⟨k, -, hp, rfl⟩ := PathRun.exists_pulse hs
  have hw : w ∈ readThenRefresh.path.since k := hw
  rcases pulse_cases hp with rfl | rfl
  · rw [since_app] at hw
    exact waitOf_ne (List.mem_append_left _ hw)
  · rw [since_maint] at hw
    exact waitOf_ne (List.mem_append_right _ hw)

theorem trfc_of_handed {n : ℕ} (h : readThenRefresh.AutorefHanded (n + 1)) :
    readThenRefresh.trfc n = 44 := by
  obtain ⟨hs, hs', -⟩ := h
  have hpulse : (readThenRefresh.state (n + 2)).core.recv.processIseqR = true := by
    obtain ⟨_, -, -, hat, -⟩ := visit_of_left hs (by rw [hs']; simp)
    exact (closed_of_maint hs hat).2.1
  have hat : n + 2 = 11 ∨ n + 2 = 36 := pulse_cases (by rw [path_state]; exact hpulse)
  have hnot : readThenRefresh.recvState 10 = .app := by decide +kernel
  have htime : readThenRefresh.trfc 34 = 44 := by decide +kernel
  rcases hat with h | h
  · rw [show n + 1 = 10 by omega, hnot] at hs
    cases hs
  · rw [show n = 34 by omega, htime]

theorem even_trfc (n : ℕ) (h : readThenRefresh.AutorefHanded (n + 1)) :
    readThenRefresh.trfc n % 2 = 0 := by
  rw [trfc_of_handed h]

end ReadThenRefresh

/-- The read, and the refresh behind it. -/
theorem readThenRefresh_onSchedule :
    OnSchedule waitOf (readThenRefresh.path.issued 67)
      [configuredRead, ReadThenRefresh.autorefWords] := by
  obtain ⟨evs, honSchedule, -, hall⟩ := issues_onSchedule (r := readThenRefresh)
    (PathRun.fits_of_unbounded rfl) (fun _ => rfl) ReadThenRefresh.waits ReadThenRefresh.even_trfc 67
  have hserved : (readThenRefresh.path.served 67).map Prod.snd =
      [configuredRead, ReadThenRefresh.autorefWords] := by decide +kernel
  rw [hall (by decide +kernel), ← hserved]
  exact honSchedule

end ControllerRun

end SoftMC
