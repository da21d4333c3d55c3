import SoftMC.Dram.Requests
import SoftMC.Dram.UserReads
/-!
# Requests on the controller

A controller that is sent the programs of requests, one behind the other,
and has programs of maintenance to serve in between. What is sent never
overfills the FIFOs, is served in order and whole, and does to the memory
what the requests do by themselves.
-/

namespace SoftMC

open Banked Clocked RetentionTest TwoSlot Units

/-- **A part that suits** the programs of maintenance and of the requests.
A burst takes it four cycles. -/
structure Ddr3.Suits (p : Ddr3) : Prop where
  maint : p.SuitsMaint
  requests : p.SuitsRequests
  burst : 4 ≤ p.tCCD
  refresh : 2 ≤ p.tRFC

namespace ControllerRun

variable {r : ControllerRun}

/-! ## Waits -/

/-- No WAIT of a program is of zero cycles, if the refresh time is not. -/
theorem waitOf_word {q : MaintProg} {k : ℕ} {dir : BitVec 2} {i : MaintHandler.In}
    (hk : k < q.length dir) (htrfc : q = .autoref → k = 3 → i.trfc.toNat % 1024 ≠ 0) :
    waitOf (q.word k i) ≠ some 0 := by
  revert htrfc
  refine MaintProg.by_program hk (fun k h => ?_) (fun k h => ?_) fun k h => ?_
  all_goals
    intro htrfc
    interval_cases k <;>
      simp only [MaintProg.word, MaintProg.waitOf_maintDdr, MaintProg.waitOf_maintBusdir,
        waitOf_maintWait]
  all_goals first
    | exact fun h => htrfc rfl rfl (Option.some.inj h)
    | decide

/-- **The END of an auto-refresh** is handed over right behind its WAIT. -/
theorem autorefHanded_of_word {n : ℕ} {q : MaintProg} (hs : r.recvState n = .maint)
    (hat : (r.state n).handler.At q 3) (hq : q = .autoref) : r.AutorefHanded (n + 1) := by
  subst hq
  obtain ⟨hs', hat', -, -⟩ := taken_of_maint hs hat (show 3 < 4 by decide)
  exact ⟨hs', (closed_of_maint hs' hat').1, hat'.runs.2.2⟩

/-- What maintenance hands over waits for something. -/
theorem waitOf_of_handed (hrfc : ∀ n, r.AutorefHanded (n + 1) → r.trfc n % 1024 ≠ 0) {n : ℕ}
    {w : Instr} (hw : w ∈ r.handed n) : waitOf w ≠ some 0 := by
  rcases r.inStep n with ⟨q, m, k, hs, -, hat, hshort, -⟩ | ⟨-, hquiet⟩ | ⟨q, hs, hat⟩
  · rcases Nat.lt_or_eq_of_le hshort with hlt | heq
    · rw [(taken_of_maint hs hat hlt).2.2.2, List.mem_singleton] at hw
      rw [hw]
      refine waitOf_word hlt fun hq hk => hrfc n (autorefHanded_of_word hs ?_ hq)
      rwa [hk] at hat
    · rw [heq] at hat
      rw [(closed_of_maint hs hat).2.2.2, List.mem_singleton] at hw
      rw [hw]
      decide
  · rw [handed, Controller.handed, hquiet.maintInstrEn] at hw
    cases hw
  · have hpos := MaintProg.length_pos (r.state n).handler.curBusDirR q
    rcases opened_or_not hs with ⟨-, -, -, hack, hrd⟩ | ⟨-, hack⟩
    · rw [handed_of_ack hack, if_pos hat.maintInstrEn, (hat.offers hrd hpos).1,
        List.mem_singleton] at hw
      rw [hw]
      exact waitOf_word hpos fun _ hk => absurd hk (by decide)
    · rw [handed, Controller.handed, hack, Bool.and_false] at hw
      cases hw

/-- **Nothing stored waits for nothing**, if nothing accepted of the
application does. -/
theorem waitOf_of_stored (hrfc : ∀ n, r.AutorefHanded (n + 1) → r.trfc n % 1024 ≠ 0)
    (happ : ∀ n w, (Source.app, w) ∈ r.path.accepted n → waitOf w ≠ some 0) (n : ℕ) :
    ∀ w ∈ r.stored n, waitOf w ≠ some 0 := by
  intro w hw
  obtain ⟨src, hacc⟩ := Core.exists_accepted_of_stored hw
  have hmem : (src, w) ∈ r.path.accepted n := by
    rw [PathRun.accepted, path_state]
    change (src, w) ∈ ((r.state n).core.accepted (r.coreIn n)).toList
    rw [hacc]
    exact List.mem_singleton_self _
  cases src with
  | app => exact happ n w hmem
  | maint => exact waitOf_of_handed hrfc (handed_of_accepted hmem)

/-! ## Lengths -/

/-- A sequence of maintenance is no longer than its program. -/
theorem length_since_of_maint {n : ℕ} (hsrc : r.path.origin n = .maint) :
    (r.path.since n).length ≤ 10 := by
  have hspec := PathRun.gathered_spec (r := r.path) n
  rw [r.path_state n] at hspec
  generalize hA : r.path.gathered n = A at hspec
  generalize hP : r.path.since n = P at hspec
  rcases hspec with _ | ⟨src, w, l, hstate, -, -⟩ | ⟨src, w, e, l, -, hpulse, -, -⟩
  · exact Nat.zero_le 10
  · obtain rfl : src = .maint := by
      rw [← hsrc]
      exact (PathRun.origin_eq (w := w) (by rw [hA]; exact List.mem_cons_self)).symm
    have hs : r.recvState n = .maint := hstate
    obtain ⟨q, m, -, -, -, -, hle⟩ := visit_of_maint hs
    rw [← hP, since_eq_visit hs]
    exact Nat.le_trans hle (q.length_le _)
  · rw [← path_state] at hpulse
    obtain ⟨dir, q, m, hsince, -⟩ := exists_program hpulse hsrc
    rw [← hP, hsince, MaintProg.instrs, List.length_map, List.length_range]
    exact q.length_le dir

/-! ## Serving requests -/

/-- **A run that is asked for requests**: what it has accepted of the
application is at any moment the beginning of requests, one behind the
other. -/
structure Asked (r : ControllerRun) : Prop where
  deep : ∀ d ∈ r.depth, 132 ≤ d
  asked : ∀ n, ∃ qs : List Request, (∀ q ∈ qs, q.Valid) ∧
    r.path.appAccepted n <+: (qs.map Request.words).flatten

/-- **A run that serves requests** for a part: it refreshes with an even
time that is the part's or longer. -/
structure Serves (r : ControllerRun) (p : Ddr3) : Prop extends r.Asked where
  ready : ∀ n, (r.wave n).dfiReady = true
  evenRefresh : ∀ n, r.AutorefHanded (n + 1) → r.trfc n % 2 = 0
  refreshTime : ∀ n, r.AutorefHanded (n + 1) → p.tRFC ≤ r.trfc n % 1024 + 1

/-- The words of requests are units. -/
theorem isUnit_of_requests {qs : List Request} (h : ∀ q ∈ qs, q.Valid) :
    ∀ l ∈ qs.map Request.words, IsUnit IsEnd l := by
  intro l hl
  obtain ⟨q, hq, rfl⟩ := List.mem_map.1 hl
  exact Request.isUnit_words (h q hq)

/-- **The requests served** are the first of those asked for. -/
theorem appServed_eq {n : ℕ} {qs : List Request} (h : ∀ q ∈ qs, q.Valid)
    (hasked : r.path.appAccepted n <+: (qs.map Request.words).flatten) :
    r.path.appServed n = (qs.take (r.path.appServed n).length).map Request.words := by
  rw [List.map_take]
  exact PathRun.appServed_eq_take (isUnit_of_requests h) hasked

theorem appStream_eq (n : ℕ) :
    r.appStream n = (r.path.appServed n).flatMap fun l => labelled Source.app l := by
  rw [appStream, PathRun.appServed, List.flatMap_map]
  refine List.flatMap_congr fun s hs => ?_
  rw [of_decide_eq_true (List.mem_filter.1 hs).2]

/-- **What the requests served do**, by themselves. -/
theorem exec_appStream {n : ℕ} {qs : List Request} (h : ∀ q ∈ qs, q.Valid)
    (hasked : r.path.appAccepted n <+: (qs.map Request.words).flatten) (m : Device) :
    ∃ m₁, exec m (r.appStream n) =
        some (m₁, (Request.applyAll m.cell
          (qs.take (r.path.appServed n).length)).2.map (Source.app, ·)) ∧
      m₁.cell = (Request.applyAll m.cell (qs.take (r.path.appServed n).length)).1 := by
  have hserved := appServed_eq h hasked
  rw [appStream_eq]
  generalize (r.path.appServed n).length = k at hserved ⊢
  rw [hserved, List.flatMap_map]
  exact Request.exec_all (fun q hq => h q (List.mem_of_mem_take hq)) Source.app m

namespace Asked

variable (hs : r.Asked)

include hs

/-- An instruction of the application is one of a request. -/
theorem exists_request {n : ℕ} {w : Instr} (h : (Source.app, w) ∈ r.path.accepted n) :
    ∃ q : Request, q.Valid ∧ w ∈ q.words := by
  obtain ⟨qs, hqs, hasked⟩ := hs.asked (n + 1)
  obtain ⟨l, hl, hw⟩ := List.mem_flatten.1 (hasked.subset (PathRun.mem_appAccepted h))
  obtain ⟨q, hq, rfl⟩ := List.mem_map.1 hl
  exact ⟨q, hqs q hq, hw⟩

theorem roomy : r.Roomy := fun d hd => by
  have hdeep := hs.deep d hd
  omega

theorem clockEnabled : r.ClockEnabled := by
  intro n w hw hop
  obtain ⟨q, hq, hmem⟩ := hs.exists_request hw
  exact Request.ckeBit_eq hq hmem hop

/-- **The FIFOs are never overfilled.** -/
theorem fits (n : ℕ) : r.path.Fits n := by
  refine PathRun.fits_of_length (c := 264) (fun d hd => ?_) (fun k => ?_) n
  · have hdeep := hs.deep d hd
    omega
  · cases hsrc : r.path.origin k with
    | app =>
      obtain ⟨qs, hqs, hasked⟩ := hs.asked k
      refine PathRun.length_since_le (isUnit_of_requests hqs) hasked (fun l hl => ?_) hsrc
      obtain ⟨q, -, rfl⟩ := List.mem_map.1 hl
      exact q.length_words_le
    | maint => exact Nat.le_trans (length_since_of_maint hsrc) (by decide)

/-- Each sequence of the application is a request. -/
theorem exists_request_of_served {n : ℕ} {s : Source × List Instr} (h : s ∈ r.path.served n)
    (hsrc : s.1 = .app) : ∃ q : Request, q.Valid ∧ s.2 = q.words := by
  obtain ⟨qs, hqs, hasked⟩ := hs.asked n
  have hmem : s.2 ∈ r.path.appServed n :=
    List.mem_map.2 ⟨s, List.mem_filter.2 ⟨h, decide_eq_true hsrc⟩, rfl⟩
  rw [appServed_eq hqs hasked] at hmem
  obtain ⟨q, hq, hwords⟩ := List.mem_map.1 hmem
  exact ⟨q, hqs q (List.mem_of_mem_take hq), hwords.symm⟩

theorem selfContained : r.AppSelfContained := by
  intro n s h hsrc
  obtain ⟨q, hq, hwords⟩ := hs.exists_request_of_served h hsrc
  rw [hwords]
  exact Request.selfContained hq s.1

theorem paced {p : Ddr3} (hp : p.Suits) : r.AppPaced p := by
  intro n s h hsrc
  obtain ⟨q, hq, hwords⟩ := hs.exists_request_of_served h hsrc
  rw [hwords]
  exact Request.paced_words hp.requests hq

end Asked

namespace Serves

variable {p : Ddr3} (hs : r.Serves p)

include hs

theorem waits (hp : p.Suits) (n : ℕ) : ∀ w ∈ r.stored n, waitOf w ≠ some 0 := by
  refine waitOf_of_stored (fun n h => ?_) (fun n w hw => ?_) n
  · have hrefresh := hs.refreshTime n h
    have htwo := hp.refresh
    omega
  · obtain ⟨q, hq, hmem⟩ := hs.exists_request hw
    exact Request.waitOf_ne hq hmem

theorem hands_over (hp : p.Suits) (n : ℕ) (hpulse : (r.state n).core.recv.processIseqR = true) :
    (r.state n).core.HandsOver :=
  handsOver_of_even hs.fits hs.ready (hs.waits hp) hs.evenRefresh hpulse

/-- **The distances of the part are kept.** -/
theorem respects (hp : p.Suits) (n : ℕ) : Respects p.instrGap (r.path.issued n) := by
  obtain ⟨R, hR, -, hspaced⟩ := served_eq_issued hs.fits hs.ready (hs.waits hp) (hs.hands_over hp) n
  have hpaced := paced_served hp.maint hs.refreshTime (hs.paced hp) n
  rw [hR] at hpaced
  exact hpaced.left.respects hspaced

end Serves

end ControllerRun

end SoftMC
