import SoftMC.Maintenance.ReadLock
import SoftMC.Dispatch.Data
import SoftMC.Path.Stream
/-!
# Auto-refresh and the refresh time

The auto-refresh program ends with a WAIT of the configured tRFC, which is
still counted while the next sequence is received. Handed over at a counter
that will not be even, its REF issues in slot `1` and the WAIT in slot `0`
behind it, whose count of ten bits is one less: up to `1024` it is the
refresh time.
-/

namespace SoftMC

open Clocked Dispatcher TwoSlot

/-! ## The program in the two slots -/

/-- The pins of a REF: `we` high, the others low. -/
def refPins (instr : Instr) : Bool :=
  !csBit instr && !rasBit instr && !casBit instr && weBit instr

/-- The word of a refresh command. -/
def isRef (instr : Instr) : Bool := isDdr instr && refPins instr

theorem waitOf_maintWait (count : BitVec 28) :
    waitOf (maintWait count) = some (count.toNat % 1024) := by
  have hcount : waitCount (maintWait count) = count.extractLsb' 0 10 :=
    BitVec.extractLsb'_append_eq_of_add_le (by decide)
  rw [waitOf_of_wait (MaintProg.opcode_maintWait count), hcount, BitVec.extractLsb'_toNat]
  rfl

namespace MaintProg

theorem isRef_maintDdr (x : BitVec 3) (ras cas we a10 : Bool) :
    isRef (maintDdr x ras cas we a10) = (!ras && !cas && we) := by
  revert x ras cas we a10
  decide

theorem isRef_maintWait (count : BitVec 28) : isRef (maintWait count) = false := by
  simp [isRef, isDdr, opcode_maintWait]

/-- Only auto-refresh refreshes, with its third instruction. -/
theorem isRef_word {p : MaintProg} {k : ℕ} {dir : BitVec 2} (i : MaintHandler.In)
    (hk : k < p.length dir) : isRef (p.word k i) = decide (p = .autoref ∧ k = 2) := by
  refine by_program hk (fun k h => ?_) (fun k h => ?_) fun k h => ?_
  all_goals
    interval_cases k <;> simp only [word, isRef_maintDdr, isRef_maintWait] <;> decide

end MaintProg

/-- Two instructions to come in each queue: a cycle counts down, or issues
the first of each and loads the WAIT. -/
theorem next_of_ahead {a b c d : Instr} (ha : waitOf a = none) (hb : waitOf b = some 6) {k : ℕ}
    (hk : Aligned k) :
    (Aligned (k - 2) ∧ 2 < k ∧
        (⟨k, [a, c], [b, d]⟩ : Slots Instr).next waitOf true = ⟨k - 2, [a, c], [b, d]⟩) ∨
      (k ≤ 1 ∧ (⟨k, [a, c], [b, d]⟩ : Slots Instr).next waitOf true = ⟨6, [d], [c]⟩) := by
  rcases Nat.lt_or_ge 1 k with hlt | hle
  · have hodd : k % 2 = 1 := hk.resolve_left (by omega)
    obtain ⟨h0, h1⟩ := Slots.idle_of_wait (W := waitOf) (s := ⟨k, [a, c], [b, d]⟩) true
      (show 2 < k by omega)
    exact Or.inl ⟨Or.inr (by omega), by omega, Slots.next_of_idle h0 h1⟩
  · refine Or.inr ⟨hle, ?_⟩
    have h2 : k ≤ 2 := by omega
    simp [Slots.next, Slots.nextWait, Slots.swaps, Slots.issue0, Slots.issue1, Slots.blocked,
      Slots.lead', Slots.trail', ha, hb, hle, h2]

/-- One in each, at an even counter: a cycle counts down, or issues the
trailing one. -/
theorem next_of_even {c d : Instr} (hc : waitOf c = none) {k : ℕ} (heven : k % 2 = 0)
    (h2 : 2 ≤ k) :
    (2 < k ∧ (⟨k, [d], [c]⟩ : Slots Instr).next waitOf true = ⟨k - 2, [d], [c]⟩) ∨
      (k = 2 ∧ (⟨k, [d], [c]⟩ : Slots Instr).next waitOf true = ⟨0, [d], []⟩) := by
  rcases Nat.lt_or_ge 2 k with hlt | hle
  · obtain ⟨h0, h1⟩ := Slots.idle_of_wait (W := waitOf) (s := ⟨k, [d], [c]⟩) true hlt
    exact Or.inl ⟨hlt, Slots.next_of_idle h0 h1⟩
  · obtain rfl : k = 2 := by omega
    refine Or.inr ⟨rfl, ?_⟩
    simp [Slots.next, Slots.nextWait, Slots.swaps, Slots.issue0, Slots.issue1, Slots.blocked,
      Slots.lead', Slots.trail', hc]

namespace ControllerRun

variable (r : ControllerRun)

/-- The dispatcher of a run is a run of the dispatcher. -/
def dispatcher : DispatcherRun where
  wave := r.dispIn

/-- The END of an auto-refresh sequence is accepted in cycle `n`, and the
sequence is handed over in the next. -/
def AutorefHanded (n : ℕ) : Prop :=
  r.recvState n = .maint ∧ r.recvState (n + 1) = .idle ∧
    (r.state n).handler.autorefProcessR = true

/-- The configured refresh time in cycle `n`. -/
abbrev trfc (n : ℕ) : ℕ := (r.state n).aref.trfc.toNat

/-- **Auto-refresh respects tRFC**: behind a REF of maintenance no DDR
command is issued, of whatever sequence, for as many DRAM cycles as are
configured. -/
def RespectsTrfc : Prop :=
  ∀ h w, r.dispatcher.issuedAt h = some w → isRef w = true →
    (Source.maint, w) ∈ r.path.sequence (h / 2) →
    ∀ k v, h < k → k ≤ h + r.trfc (h / 2) → r.dispatcher.issuedAt k = some v → opcode v ≠ .ddr

variable {r}

theorem dispatcher_state (n : ℕ) :
    r.dispatcher.state n = (r.state n).core.exec.iseq.disp :=
  (run_map (F := Controller.next r.depth) (G := Dispatcher.next false)
    (fun c => c.core.exec.iseq.disp)
    (fun c i => c.core.exec.dispIn (c.core.execIn (c.coreIn i))) (fun _ _ => rfl)
    Controller.reset r.wave n).symm

/-- The events of cycle `n`, by DRAM cycle. -/
abbrev events (r : ControllerRun) (n : ℕ) : List (ℕ × Instr) :=
  (r.state n).core.exec.events n ((r.state n).core.execIn (r.coreIn n))

theorem mem_events_of_issuedAt {k : ℕ} {w : Instr} (h : r.dispatcher.issuedAt k = some w) :
    (k, w) ∈ r.events (k / 2) := by
  rw [Exec.mem_events]
  rw [DispatcherRun.issuedAt, dispatcher_state] at h
  split at h
  · exact Or.inl ⟨by omega, h⟩
  · exact Or.inr ⟨by omega, h⟩

theorem issues_of_mem_events {n k : ℕ} {w : Instr} (h : (k, w) ∈ r.events n) : r.Issues n w :=
  (Exec.mem_events.1 h).imp And.right And.right

/-! ## From the hand-over to the REF -/

/-- **A dispatch of maintenance** begins behind the END of its program. -/
theorem exists_handed {n : ℕ} {w : Instr} (hd : (r.state n).core.Dispatching)
    (hw : (Source.maint, w) ∈ r.path.sequence n) :
    ∃ m, m + 1 < n ∧ r.recvState m = .maint ∧ r.recvState (m + 1) = .idle ∧
      ∀ k, m + 1 < k → k ≤ n → (r.state k).core.Dispatching := by
  induction n with
  | zero => cases hd.busy
  | succ n ih =>
    have hseq : r.path.sequence (n + 1) = r.path.sequence n :=
      PathRun.sequence_of_dispatching (by rw [path_state]; exact hd)
    rw [hseq] at hw
    rcases mode (r := r) n with hrest | hdn
    · -- the pulse
      have hp : (r.state n).core.recv.processIseqR = true := by
        by_contra hp
        have hrest' : (r.state (n + 1)).core.exec.Resting :=
          hrest.resting.next (Bool.not_eq_true _ ▸ hp)
        exact absurd hrest' hd.not_resting
      cases n with
      | zero => cases hp
      | succ m =>
        have hend : r.recvState m = .maint ∧ r.recvState (m + 1) = .idle := by
          by_contra hend
          cases app_of_pulse hp hend _ hw
        refine ⟨m, by omega, hend.1, hend.2, fun k hk hkn => ?_⟩
        obtain rfl : k = m + 1 + 1 := by omega
        exact hd
    · obtain ⟨m, hmn, hs, hs', hall⟩ := ih hdn hw
      refine ⟨m, by omega, hs, hs', fun k hk hkn => ?_⟩
      rcases Nat.eq_or_lt_of_le hkn with rfl | hlt
      · exact hd
      · exact hall k hk (by omega)

/-- What is left of a dispatch is of the sequence handed over. -/
theorem mem_visit_of_contents (hroom : r.Roomy) {m n : ℕ} (hs : r.recvState m = .maint)
    (hs' : r.recvState (m + 1) = .idle) (hmn : m < n)
    (hdisp : ∀ k, m + 1 < k → k ≤ n → (r.state k).core.Dispatching) {w : Instr}
    (hw : w ∈ (r.state n).core.exec.content0 ∨ w ∈ (r.state n).core.exec.content1) :
    w ∈ r.visit m := by
  have hleft : r.recvState (m + 1) ≠ .maint := by rw [hs']; simp
  induction n, hmn using Nat.le_induction with
  | base =>
    obtain ⟨hc0, hc1⟩ := contents_of_closed hroom hs hleft
    rw [hc0, hc1] at hw
    exact mem_deal.1 hw
  | succ n hmn ih =>
    have hen : (r.state n).core.recv.instrEnR = false := by
      rcases Nat.eq_or_lt_of_le hmn with heq | hlt
      · rw [← heq]
        exact (dealt_of_closed hroom hs hleft).2.2
      · exact (hdisp n hlt (by omega)).noWrite
    obtain ⟨hw0, hw1⟩ := Core.no_write_of_not_en (i := r.coreIn n) hen
    exact ih (fun k hk hkn => hdisp k hk (by omega))
      (Exec.mem_contents_of_no_write (sound n) hw0 hw1 hw)

/-- While a program is handed over, from the cycle that opens it, the
dispatcher is at rest. -/
theorem atRest_of_visit {n : ℕ} (hs : r.recvState n = .maint) (j : ℕ)
    (hj : j ≤ (r.visit n).length) : (r.state (n - j)).core.AtRest := by
  induction n generalizing j with
  | zero => cases hs
  | succ n ih =>
    cases j with
    | zero => exact atRest_of_maint hs
    | succ j =>
      rw [Nat.succ_sub_succ]
      by_cases h : r.recvState n = .maint
      · refine ih h j ?_
        rcases handed_cases (r := r) n with hnil | ⟨p, k, -, hword⟩ | ⟨-, hend⟩
        all_goals
          rw [visit_succ, if_neg (by rw [h]; simp), List.length_append] at hj
        · rw [hnil, List.length_nil] at hj
          omega
        · rw [hword, List.length_singleton] at hj
          omega
        · rw [hend, List.length_singleton] at hj
          omega
      · -- the first instruction
        rcases opened_or_not h with ⟨hidle, -, hen, hack, -⟩ | ⟨hne, -⟩
        · have hlen : (r.visit (n + 1)).length = 1 := by
            rw [visit_succ, if_pos hidle, handed_of_ack hack, if_pos hen]
            rfl
          obtain rfl : j = 0 := by omega
          exact (atRest_of_opened hidle hs).1
        · exact absurd hs hne

/-! ## The refresh time is not touched -/

theorem trfc_succ {n : ℕ} (h : (r.state n).core.exec.iseq.disp.arefSetTrfc = false) :
    r.trfc (n + 1) = r.trfc n := by
  have hnext : (r.state (n + 1)).aref.trfc =
      if (r.state n).core.exec.iseq.disp.arefSetTrfc then
        (r.state n).core.exec.iseq.disp.arefTrfc else (r.state n).aref.trfc := rfl
  rw [trfc, hnext, h, if_neg Bool.false_ne_true]

/-- Without a SET_TRFC the configured time stays, from the next cycle
on. -/
theorem trfc_eq {m n : ℕ} (hmn : m < n)
    (hno : ∀ j, m ≤ j → j < n → ∀ w, r.Issues j w → opcode w ≠ .setTrfc) :
    r.trfc n = r.trfc (m + 1) := by
  induction n, hmn using Nat.le_induction with
  | base => rfl
  | succ n hmn ih =>
    rw [← ih fun j hj hjn => hno j hj (by omega)]
    obtain ⟨j, rfl⟩ : ∃ j, n = j + 1 := ⟨n - 1, by omega⟩
    have hany : ∀ o : Option Instr, (∀ w, o = some w → opcode w ≠ .setTrfc) →
        o.any (fun w => decide (opcode w = .setTrfc)) = false := by
      intro o ho
      cases o with
      | none => rfl
      | some w => exact decide_eq_false (ho w rfl)
    refine trfc_succ (arefSetTrfc_next.trans ?_)
    have hj := hno j (by omega) (by omega)
    rw [Bool.or_eq_false_iff]
    exact ⟨hany _ fun w hw => hj w (Or.inl hw), hany _ fun w hw => hj w (Or.inr hw)⟩

/-! ## The dispatch of the program -/

/-- A sequence handed over in cycle `m + 1` is on display two cycles on, at
a counter four less. -/
theorem slots_of_handed (hroom : r.Roomy) {m : ℕ} (hs : r.recvState m = .maint)
    (hs' : r.recvState (m + 1) = .idle) :
    (r.state (m + 2)).core.exec.Loading ∧ (r.state (m + 3)).core.exec.Flowing ∧
      (r.state (m + 3)).core.exec.slots =
        ⟨(r.state (m + 1)).core.exec.iseq.disp.waitCyclesR.toNat - 4, (deal (r.visit m)).1,
          (deal (r.visit m)).2⟩ := by
  have hleft : r.recvState (m + 1) ≠ .maint := by rw [hs']; simp
  obtain ⟨-, hrest, hen⟩ := dealt_of_closed hroom hs hleft
  obtain ⟨hc0, hc1⟩ := contents_of_closed hroom hs hleft
  obtain ⟨p, -, -, hat, -⟩ := visit_of_left hs hleft
  have hpulse := (closed_of_maint hs hat).2.1
  -- the cycle of the pulse
  obtain ⟨hw0, hw1⟩ := Core.no_write_of_not_en (i := r.coreIn (m + 1)) hen
  have hdisp : (r.state (m + 2)).core.Dispatching := Core.dispatching_of_pulse hrest hs' hpulse
  have hload : (r.state (m + 2)).core.exec.Loading := hrest.loading hpulse
  obtain ⟨-, hwait, -⟩ := Exec.idle_next (D := r.depth)
    (i := (r.state (m + 1)).core.execIn (r.coreIn (m + 1))) hrest.2.1.1 hrest.2.2.1 0
  obtain ⟨hn0, hn1⟩ := Exec.contents_of_not_valid (D := r.depth) hrest.sound hw0 hw1 hrest.2.1.1
    hrest.2.2.1
  -- the cycle that loads the stages
  obtain ⟨hw0', hw1'⟩ := hdisp.no_write (i := r.coreIn (m + 2))
  obtain ⟨-, hwait', hsrc⟩ := Exec.idle_next (D := r.depth)
    (i := (r.state (m + 2)).core.execIn (r.coreIn (m + 2))) hload.2.1.1 hload.2.2.1 0
  obtain ⟨hn0', hn1'⟩ := Exec.contents_of_not_valid (D := r.depth) hload.sound hw0' hw1'
    hload.2.1.1 hload.2.2.1
  refine ⟨hload, hload.next hw0' hw1', ?_⟩
  have hcount : (r.state (m + 3)).core.exec.iseq.disp.waitCyclesR.toNat =
      (r.state (m + 1)).core.exec.iseq.disp.waitCyclesR.toNat - 4 := by
    refine hwait'.trans ?_
    rw [show (r.state (m + 2)).core.exec.iseq.disp.waitCyclesR.toNat = _ from hwait]
    omega
  have hq0 : (r.state (m + 3)).core.exec.content0 = (deal (r.visit m)).1 :=
    hn0'.trans (hn0.trans hc0)
  have hq1 : (r.state (m + 3)).core.exec.content1 = (deal (r.visit m)).2 :=
    hn1'.trans (hn1.trans hc1)
  have hsrc' : (r.state (m + 3)).core.exec.iseq.disp.instrSrcR = false := hsrc
  rw [Exec.slots, hcount, hsrc', hq0, hq1, if_neg Bool.false_ne_true, if_neg Bool.false_ne_true]

/-- **Where the program of auto-refresh stands** in the two slots. -/
inductive Stands (r : ControllerRun) (n : ℕ) (a b c d : Instr) : Prop
  | ahead (wait : ℕ) (aligned : Aligned wait)
      (slots : (r.state n).core.exec.slots = ⟨wait, [a, c], [b, d]⟩)
  | waits (wait : ℕ) (even : wait % 2 = 0) (two : 2 ≤ wait)
      (slots : (r.state n).core.exec.slots = ⟨wait, [d], [c]⟩)
  | gone (none : ∀ w, w ∈ (r.state n).core.exec.content0 ∨ w ∈ (r.state n).core.exec.content1 →
      isRef w = false)

section Program

variable {a b c d : Instr} (ha : waitOf a = none) (hb : waitOf b = some 6) (hc : waitOf c = none)

/-- A flowing cycle is one of the two-slot machine; slot `0` must not load
a WAIT of zero. -/
theorem slots_succ {n : ℕ} (hd : (r.state n).core.Dispatching)
    (hflow : (r.state n).core.exec.Flowing) (hready : (r.wave n).dfiReady = true)
    (hpos : ∀ w, (r.state n).core.exec.slots.issue0 true = some w → ∀ k, waitOf w = some k → 0 < k) :
    (r.state (n + 1)).core.exec.slots = (r.state n).core.exec.slots.next waitOf true := by
  obtain ⟨hw0, hw1⟩ := hd.no_write (i := r.coreIn n)
  have hr : ((r.state n).core.execIn (r.coreIn n)).dfiReady = true := hready
  have hnext := Exec.slots_next_of_pos (D := r.depth)
    (i := (r.state n).core.execIn (r.coreIn n)) hflow (by rw [hr]; exact hpos) hw0 hw1
  rw [hr] at hnext
  exact hnext

theorem flowing_succ {n : ℕ} (hd : (r.state n).core.Dispatching)
    (hflow : (r.state n).core.exec.Flowing) : (r.state (n + 1)).core.exec.Flowing := by
  obtain ⟨hw0, hw1⟩ := hd.no_write (i := r.coreIn n)
  exact hflow.next hd.noPulse hw0 hw1

include hc in
/-- At an even counter slot `0` is closed, and the REF issues in slot `1`
with the counter at two. -/
theorem slots_of_waits {n wait : ℕ} (hd : (r.state n).core.Dispatching)
    (hflow : (r.state n).core.exec.Flowing) (hready : (r.wave n).dfiReady = true)
    (heven : wait % 2 = 0) (h2 : 2 ≤ wait)
    (hslots : (r.state n).core.exec.slots = ⟨wait, [d], [c]⟩) :
    (2 < wait ∧ (r.state (n + 1)).core.exec.slots = ⟨wait - 2, [d], [c]⟩) ∨
      (wait = 2 ∧ (r.state (n + 1)).core.exec.slots = ⟨0, [d], []⟩) := by
  have hclosed : (r.state n).core.exec.slots.issue0 true = none := by
    rw [hslots, Slots.issue0, if_neg (by simp only; omega)]
  have hnext := slots_succ hd hflow hready fun w hw => absurd (hclosed.symm.trans hw) (by simp)
  rw [hnext, hslots]
  exact next_of_even hc heven h2

include ha hb hc in
/-- **A cycle of the dispatch keeps the program where it stands or moves it
on.** -/
theorem Stands.next {n : ℕ} (hd : (r.state n).core.Dispatching)
    (hflow : (r.state n).core.exec.Flowing) (hready : (r.wave n).dfiReady = true)
    (hnd : isRef d = false) (h : r.Stands n a b c d) : r.Stands (n + 1) a b c d := by
  rcases h with ⟨wait, hal, hslots⟩ | ⟨wait, heven, h2, hslots⟩ | hnone
  · -- only `a` can issue in slot `0`, and is no WAIT
    have hpos : ∀ w, (r.state n).core.exec.slots.issue0 true = some w →
        ∀ k, waitOf w = some k → 0 < k := by
      intro w hw k hk
      rw [hslots, Slots.issue0] at hw
      split at hw
      · obtain rfl : a = w := Option.some.inj hw
        rw [ha] at hk; cases hk
      · cases hw
    have hnext := slots_succ hd hflow hready hpos
    rw [hslots] at hnext
    rcases next_of_ahead (c := c) (d := d) ha hb hal with ⟨hal', -, heq⟩ | ⟨-, heq⟩
    · exact .ahead _ hal' (hnext.trans heq)
    · exact .waits 6 rfl (by decide) (hnext.trans heq)
  · rcases slots_of_waits hc hd hflow hready heven h2 hslots with ⟨hlt, heq⟩ | ⟨-, heq⟩
    · exact .waits _ (by omega) (by omega) heq
    · -- behind `c` only `d` is left
      refine .gone fun w hw => ?_
      rw [← Exec.mem_slots, heq] at hw
      rcases hw with hw | hw
      · rw [List.mem_singleton.1 hw, hnd]
      · cases hw
  · obtain ⟨hw0, hw1⟩ := hd.no_write (i := r.coreIn n)
    exact .gone fun w hw => hnone w (Exec.mem_contents_of_no_write hflow.sound hw0 hw1 hw)

include hc in
/-- **The REF issues in slot `1`**, and leaves its WAIT alone for slot
`0`. -/
theorem Stands.of_ref {n h : ℕ} {w : Instr} (hd : (r.state n).core.Dispatching)
    (hflow : (r.state n).core.exec.Flowing) (hready : (r.wave n).dfiReady = true)
    (hna : isRef a = false) (hnb : isRef b = false) (hst : r.Stands n a b c d)
    (hmem : (h, w) ∈ r.events n) (href : isRef w = true) :
    h = 2 * n + 1 ∧ (r.state (n + 1)).core.exec.slots = ⟨0, [d], []⟩ := by
  have hr : ((r.state n).core.execIn (r.coreIn n)).dfiReady = true := hready
  have hev := Exec.mem_events.1 hmem
  rw [Exec.issue0_refines hflow, Exec.issue1_refines hflow, hr] at hev
  rcases hst with ⟨wait, hal, hslots⟩ | ⟨wait, heven, h2, hslots⟩ | hnone
  · -- neither `a` nor `b` is the REF
    rw [hslots, Slots.issue0, Slots.issue1] at hev
    rcases hev with ⟨-, hw⟩ | ⟨-, hw⟩
    · split at hw
      · obtain rfl : a = w := Option.some.inj hw
        rw [hna] at href; cases href
      · cases hw
    · split at hw
      · obtain rfl : b = w := Option.some.inj hw
        rw [hnb] at href; cases href
      · cases hw
  · rw [hslots, Slots.issue0, Slots.issue1] at hev
    rcases hev with ⟨-, hw⟩ | ⟨hh, hw⟩
    · rw [if_neg (by simp only; omega)] at hw
      cases hw
    · refine ⟨hh, ?_⟩
      rcases slots_of_waits hc hd hflow hready heven h2 hslots with ⟨hlt, -⟩ | ⟨-, heq⟩
      · rw [if_neg (by simp only; omega)] at hw
        cases hw
      · exact heq
  · have := hnone w (Exec.mem_of_issue (issues_of_mem_events hmem))
    rw [this] at href
    cases href

end Program

/-! ## Behind the REF -/

theorem due_mono {m n : ℕ} (h : m ≤ n) :
    (r.state m).core.exec.slots.due m ≤ (r.state n).core.exec.slots.due n := by
  induction n, h using Nat.le_induction with
  | base => exact le_rfl
  | succ n _ ih => exact ih.trans (Exec.due_mono n)

/-- **Behind the REF only its WAIT issues** for as long as it counts. -/
theorem quiet_of_wait {n v k : ℕ} {w : Instr} {count : BitVec 28}
    (hflow : (r.state n).core.exec.Flowing) (hready : (r.wave n).dfiReady = true)
    (hslots : (r.state n).core.exec.slots = ⟨0, [maintWait count], []⟩) (hv : count.toNat = v)
    (hpos : 0 < v) (hle : v ≤ 1024) (hk : 2 * n ≤ k) (hkv : k < 2 * n + v)
    (hw : (k, w) ∈ r.events (k / 2)) : opcode w ≠ .ddr := by
  have hr : ((r.state n).core.execIn (r.coreIn n)).dfiReady = true := hready
  have h0 : (r.state n).core.exec.iseq.disp.issue0 (r.dispIn n) = some (maintWait count) := by
    refine (Exec.issue0_refines hflow).trans ?_
    rw [hr, hslots]
    rfl
  have h1 : (r.state n).core.exec.iseq.disp.issue1 (r.dispIn n) = none := by
    refine (Exec.issue1_refines hflow).trans ?_
    rw [hr, hslots, Slots.issue1, List.head?_nil, ite_self]
  rcases Nat.eq_or_lt_of_le (show n ≤ k / 2 by omega) with heq | hlt
  · -- the cycle of the WAIT
    rw [← heq] at hw
    rcases issues_of_mem_events hw with hi | hi
    · rw [h0] at hi
      rw [← Option.some.inj hi, MaintProg.opcode_maintWait]
      decide
    · rw [h1] at hi
      cases hi
  · -- and behind it
    have hcount : (r.state (n + 1)).core.exec.iseq.disp.waitCyclesR.toNat = v - 1 := by
      refine (Dispatcher.toNat_waitCyclesR_next (s := (r.state n).core.exec.iseq.disp)
        (i := r.dispIn n)).trans ?_
      rw [h0, h1, Option.bind_some, waitOf_maintWait, hv]
      change (v % 1024 + 1023) % 1024 = v - 1
      omega
    have hdue : (r.state (n + 1)).core.exec.slots.due (n + 1) = 2 * (n + 1) + (v - 1 - 1) :=
      congrArg (fun x => 2 * (n + 1) + (x - 1)) hcount
    -- what issues is due, and the next word is not due before the WAIT ends
    have hmono := due_mono (r := r) (show n + 1 ≤ k / 2 by omega)
    have hperm := Exec.due_le_of_event hw
    omega

/-! ## A refresh of maintenance -/

section Handed

variable (hroom : r.Roomy) {m n : ℕ} (hs : r.recvState m = .maint)
  (hs' : r.recvState (m + 1) = .idle)

include hroom hs hs'

/-- **A REF of maintenance is auto-refresh's**, whose four instructions were
handed over in the cycles before. -/
theorem autoref_of_ref (hmn : m < n)
    (hdisp : ∀ k, m + 1 < k → k ≤ n → (r.state k).core.Dispatching) {w : Instr}
    (hw : r.Issues n w) (href : isRef w = true) :
    r.AutorefHanded m ∧ ∃ k, m = k + 4 ∧ r.visit m = r.words .autoref k 4 := by
  have hleft : r.recvState (m + 1) ≠ .maint := by rw [hs']; simp
  obtain ⟨p, k, hk, hat, hvis⟩ := visit_of_left hs hleft
  have hin := mem_visit_of_contents hroom hs hs' hmn hdisp (Exec.mem_of_issue hw)
  rw [hvis, words, List.mem_map] at hin
  obtain ⟨j, hj, rfl⟩ := hin
  rw [MaintProg.isRef_word _ (List.mem_range.1 hj)] at href
  obtain ⟨rfl, -⟩ := of_decide_eq_true href
  exact ⟨⟨hs, hs', hat.runs.2.2⟩, k, hk, hvis⟩

/-- From its first instruction on no SET_TRFC is issued: the dispatcher is
at rest, and then issues the program. -/
theorem not_setTrfc_of_handed {k : ℕ} (hk : m = k + 4) (hvis : r.visit m = r.words .autoref k 4)
    (hdisp : ∀ j, m + 1 < j → j ≤ n → (r.state j).core.Dispatching) :
    ∀ j, k ≤ j → j < n → ∀ w, r.Issues j w → opcode w ≠ .setTrfc := by
  intro j hkj hjn w hw hop
  have hword : ∀ x ∈ r.words .autoref k 4, opcode x ≠ .setTrfc := by
    intro x hx
    simp only [words, List.mem_map, List.mem_range] at hx
    obtain ⟨i, hi, rfl⟩ := hx
    interval_cases i <;>
      simp [MaintProg.word, MaintProg.opcode_maintDdr, MaintProg.opcode_maintWait]
  rcases Nat.lt_or_ge m j with hmj | hjm
  · have hin := mem_visit_of_contents hroom hs hs' hmj (fun i hi hij => hdisp i hi (by omega))
      (Exec.mem_of_issue hw)
    exact hword w (hvis ▸ hin) hop
  · have hrest := atRest_of_visit hs (m - j) (by rw [hvis, length_words]; omega)
    rw [Nat.sub_sub_self hjm] at hrest
    exact absurd hrest.resting hw.dispatching.1.not_resting

/-- The loading cycle issues nothing. -/
theorem le_of_issues (hmn : m + 1 < n) {w : Instr} (hw : r.Issues n w) : m + 3 ≤ n := by
  by_contra hlt
  obtain rfl : n = m + 2 := by omega
  obtain ⟨hload, -, -⟩ := slots_of_handed hroom hs hs'
  obtain ⟨h0, h1⟩ := issue_of_empty (s := (r.state (m + 2)).core.exec.iseq.disp)
    (i := r.dispIn (m + 2)) hload.2.1.1 hload.2.2.1
  rcases hw with hw | hw
  · cases h0.symm.trans hw
  · cases h1.symm.trans hw

/-- **The program stands somewhere** in every cycle of its dispatch, if the
counter of its hand-over keeps its order. -/
theorem stands_of_handed {a b c d : Instr} (ha : waitOf a = none) (hb : waitOf b = some 6)
    (hc : waitOf c = none) (hd : isRef d = false) (hready : ∀ n, (r.wave n).dfiReady = true)
    (hover : (r.state (m + 1)).core.HandsOver) (hvis : r.visit m = [a, b, c, d])
    (hmn : m + 3 ≤ n) (hdisp : ∀ k, m + 1 < k → k ≤ n → (r.state k).core.Dispatching) :
    (r.state n).core.exec.Flowing ∧ r.Stands n a b c d := by
  induction n, hmn using Nat.le_induction with
  | base =>
    obtain ⟨-, hflow, hslots⟩ := slots_of_handed hroom hs hs'
    refine ⟨hflow, .ahead _ ?_ (hslots.trans (by rw [hvis]; rfl))⟩
    rcases hover with hover | hover
    · exact Or.inl (by omega)
    · rcases Nat.lt_or_ge 4 (r.state (m + 1)).core.exec.iseq.disp.waitCyclesR.toNat with hgt | hle
      · exact Or.inr (by omega)
      · exact Or.inl (by omega)
  | succ n hmn ih =>
    obtain ⟨hflow, hst⟩ := ih fun k hk hkn => hdisp k hk (by omega)
    have hdn := hdisp n (by omega) (by omega)
    exact ⟨flowing_succ hdn hflow, hst.next ha hb hc hdn hflow (hready n) hd⟩

end Handed

/-- **Auto-refresh respects tRFC** in every run in which each auto-refresh
sequence is handed over with tRFC at most `1024` and the counter odd or at
most four. -/
theorem respectsTrfc (hroom : r.Roomy) (hready : ∀ n, (r.wave n).dfiReady = true)
    (hhanded : ∀ n, r.AutorefHanded n → r.trfc (n + 1) ≤ 1024 ∧
      (r.state (n + 1)).core.HandsOver) : r.RespectsTrfc := by
  intro h w hw href hsrc k v hk hkv hvk
  have hmem := mem_events_of_issuedAt hw
  have hiss := issues_of_mem_events hmem
  obtain ⟨m, hmn, hs, hs', hdisp⟩ := exists_handed hiss.dispatching.1 hsrc
  generalize hn : h / 2 = n at *
  obtain ⟨hand, m0, rfl, hvis⟩ := autoref_of_ref hroom hs hs' (by omega) hdisp hiss href
  obtain ⟨hle, hover⟩ := hhanded _ hand
  -- tRFC is not touched from the hand-over of its WAIT on
  have hno := not_setTrfc_of_handed hroom hs hs' rfl hvis hdisp
  have htrfc : ∀ j, m0 < j → j ≤ n → r.trfc j = r.trfc n := by
    intro j hj hjn
    rw [trfc_eq (m := m0) (by omega) hno,
      trfc_eq (m := m0) hj fun i hi hij => hno i hi (by omega)]
  rw [htrfc (m0 + 4 + 1) (by omega) (by omega)] at hle
  -- the REF issues in slot `1`, with its WAIT next in slot `0`
  have hmn3 := le_of_issues hroom hs hs' hmn hiss
  have hddr : ∀ x ras cas we a10, waitOf (maintDdr x ras cas we a10) = none :=
    fun x ras cas we a10 => waitOf_of_ne (by rw [MaintProg.opcode_maintDdr]; decide)
  obtain ⟨hflow, hst⟩ := stands_of_handed hroom hs hs' (hddr _ _ _ _ _)
    (waitOf_maintWait (.ofNat 28 DEF_TRP)) (hddr _ _ _ _ _) (MaintProg.isRef_maintWait _) hready
    hover hvis hmn3 hdisp
  have hdn := hdisp n (by omega) le_rfl
  obtain ⟨rfl, hnext⟩ := hst.of_ref (hddr _ _ _ _ _) hdn hflow (hready n)
    (MaintProg.isRef_maintDdr _ _ _ _ _) (MaintProg.isRef_maintWait _) hmem href
  exact quiet_of_wait (flowing_succ hdn hflow) (hready (n + 1)) hnext
    (htrfc (m0 + 3) (by omega) (by omega)) (by omega) hle (by omega) (by omega)
    (mem_events_of_issuedAt hvk)

/-- A SET_TRFC from reset, the auto-refreshes of a request that falls in
cycle `fall`, and from cycle `start` on an ACT and its END. -/
def refreshThenApp (trfc : BitVec 28) (fall start : ℕ) : ControllerRun where
  depth := some 1024
  wave n := {
    prRdReq := false
    zqReq := false
    autorefReq := decide (5 ≤ n ∧ n < fall)
    ddrX := 0
    appEn := decide (n < 2 ∨ start ≤ n ∧ n < start + 2)
    appInstr := if n = 0 then 0x3#4 ++ trfc else if n = start then 0x81190005#32 else 0x00000000#32
    dfiReady := true }

/-- With thirteen cycles of tRFC the ACT waits for them. -/
theorem refreshThenApp_respectsTrfc :
    (refreshThenApp 13 10 20).RespectsTrfc ∧
      ((refreshThenApp 13 10 20).dispatcher.issuedAt 33).any isRef = true ∧
      (refreshThenApp 13 10 20).trfc 16 = 13 := by
  -- after cycle `30` nothing happens any more
  have hwave : ∀ n, 30 ≤ n →
      (refreshThenApp 13 10 20).wave n = (refreshThenApp 13 10 20).wave 30 := by
    intro n hn
    obtain ⟨k, rfl⟩ := Nat.exists_eq_add_of_le' hn
    simp only [refreshThenApp]
    rw [decide_eq_false (by omega), decide_eq_false (by omega), if_neg (by omega),
      if_neg (by omega)]
    rfl
  have hfix : ∀ n, 30 ≤ n →
      (refreshThenApp 13 10 20).state n = (refreshThenApp 13 10 20).state 30 :=
    fun n hn => run_fixed hwave (by decide +kernel) hn
  have hover : ∀ n < 31, (refreshThenApp 13 10 20).recvState n = .maint →
      (refreshThenApp 13 10 20).trfc (n + 1) ≤ 1024 ∧
        ((refreshThenApp 13 10 20).state (n + 1)).core.HandsOver := by decide +kernel
  refine ⟨respectsTrfc (fun d hd => ?_) (fun _ => rfl) fun n hn => ?_, by decide +kernel,
    by decide +kernel⟩
  · have hd' : 1024 = d := Option.some.inj hd
    omega
  · refine hover n ?_ hn.1
    by_contra hge
    have hidle : (refreshThenApp 13 10 20).recvState 30 = .idle := by decide +kernel
    have hmaint : (refreshThenApp 13 10 20).recvState 30 = .maint := by
      rw [recvState, ← hfix n (by omega)]
      exact hn.1
    cases hidle.symm.trans hmaint

/-- **Two ways to lose the refresh time**: a count of more than ten bits,
and a second auto-refresh handed over at an even counter, whose WAIT issues
before its REF. -/
theorem refreshThenApp_early :
    ¬ (refreshThenApp 1025 10 20).RespectsTrfc ∧ ¬ (refreshThenApp 31 20 54).RespectsTrfc := by
  refine ⟨fun h => ?_, fun h => ?_⟩
  · exact h 33 0x81080400#32 (by decide +kernel) (by decide) (by decide +kernel) 48 0x81190005#32
      (by decide) (by decide +kernel) (by decide +kernel) (by decide)
  · exact h 103 0x81080400#32 (by decide +kernel) (by decide) (by decide +kernel) 116
      0x81190005#32 (by decide) (by decide +kernel) (by decide +kernel) (by decide)

end ControllerRun

end SoftMC
