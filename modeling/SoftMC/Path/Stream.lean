import SoftMC.Path.Run
import SoftMC.Dispatch.Backpressure
import SoftMC.Model.MaintHandler
/-!
# Program order across sequences

The dispatcher falls idle while the trailing WAIT of a maintenance
sequence is still being counted, and the next sequence meets the counter
in its third cycle, four less than at the `process_iseq` pulse. At an
even residue of two or more its second instruction would be the first to
issue. Wherever that does not happen, what issues is the stream of
everything accepted, in order and with every distance kept, the trailing
WAITs included.
-/

namespace SoftMC

open Clocked TwoSlot

/-! ## Where the rest of the stream stands -/

namespace Core

/-- **Where the instructions `R` handed over but not issued stand**, by
the phase of the path. -/
inductive Standing (c : Core) (R : List Instr) : Prop
  /-- Nothing is left while the next sequence is buffered. -/
  | buffering (P : List Instr) (phase : c.Buffering P) (nil : R = [])
  /-- They are about to load, at a counter that will not be even. -/
  | loading (phase : c.Dispatching) (load : c.exec.Loading)
      (deal : deal R = (c.exec.fifo0, c.exec.fifo1))
      (wait : c.exec.iseq.disp.waitCyclesR.toNat ≤ 2 ∨
        c.exec.iseq.disp.waitCyclesR.toNat % 2 = 1)
  /-- They are being dispatched. -/
  | flowing (phase : c.Dispatching) (flow : c.exec.Flowing) (held : Held c.exec.slots R)

/-- The counter a sequence is handed over at: odd, or gone by the time the
stages have loaded. -/
def HandsOver (c : Core) : Prop :=
  c.exec.iseq.disp.waitCyclesR.toNat ≤ 4 ∨ c.exec.iseq.disp.waitCyclesR.toNat % 2 = 1

/-- What a step does to the stream: it issues the next instructions, none
early, and leaves the rest standing. -/
structure Streams (t d : ℕ) (c' : Core) (R P : List Instr) (evs : List (ℕ × Instr))
    (R' P' : List Instr) : Prop where
  split : R ++ P = evs.map Prod.snd ++ (R' ++ P')
  standing : c'.Standing R'
  spaced : Spaced waitOf d evs
  permits : after waitOf d evs ≤ c'.exec.slots.due (t + 1)

instance (c : Core) : Decidable c.HandsOver := inferInstanceAs (Decidable (_ ∨ _))

variable {c : Core} {i : In} {D : Option ℕ} {R P : List Instr} {t d : ℕ}

/-- The words held are those that remain. -/
theorem posWaits_of_held {e : Exec} (h : Held e.slots R) (hW : TwoSlot.PosWaits waitOf R) :
    e.PosWaits := by
  have hmem : ∀ w, w ∈ e.slots.lead ∨ w ∈ e.slots.trail → w ∈ R := by
    intro w hw
    refine mem_deal.1 ?_
    rcases h with (⟨-, h⟩ | ⟨-, h⟩) | ⟨hl, h⟩
    · rw [h]; exact hw
    · rw [h]; exact hw.symm
    · rw [hl] at hw
      rw [h]
      rcases hw with hw | hw
      · cases hw
      · exact Or.inl hw
  constructor
  · exact fun w hw => hW w (hmem w (e.mem_slots.2 (Or.inl hw)))
  · exact fun w hw => hW w (hmem w (e.mem_slots.2 (Or.inr hw)))

theorem eq_nil_of_held {e : Exec} (h : Held e.slots R) (h0 : e.content0 = [])
    (h1 : e.content1 = []) : R = [] := by
  obtain ⟨hl, ht⟩ := (Exec.slots_eq_nil e).1 ⟨h0, h1⟩
  rcases h with h | ⟨-, h⟩
  · exact h.eq_nil_iff.1 ⟨hl, ht⟩
  · rw [ht] at h
    exact deal_fst_eq_nil.1 (congrArg Prod.fst h)

/-- A cycle without a word on display only counts down. -/
theorem streams_idle (h0 : c.exec.iseq.instr0Reg.rValid1 = false)
    (h1 : c.exec.iseq.instr1Reg.rValid1 = false) :
    c.exec.events t (c.execIn i) = [] ∧
      (Core.next D c i).exec.iseq.disp.waitCyclesR.toNat =
        c.exec.iseq.disp.waitCyclesR.toNat - 2 ∧
      (Core.next D c i).exec.iseq.disp.instrSrcR = false ∧
      c.exec.slots.due t ≤ (Core.next D c i).exec.slots.due (t + 1) := by
  obtain ⟨hev, hw, hs⟩ := Exec.idle_next (D := D) (i := c.execIn i) h0 h1 t
  refine ⟨hev, hw, hs, ?_⟩
  change 2 * t + (c.exec.iseq.disp.waitCyclesR.toNat - 1) ≤
    2 * (t + 1) + ((Core.next D c i).exec.iseq.disp.waitCyclesR.toNat - 1)
  rw [show (Core.next D c i).exec.iseq.disp.waitCyclesR.toNat = _ from hw]
  omega

/-- A dispatch in flow stands after the cycle, drained or not. -/
theorem Dispatching.standing (hdisp : c.Dispatching) (hflow : (Core.next D c i).exec.Flowing)
    (hheld : Held (Core.next D c i).exec.slots R) : (Core.next D c i).Standing R := by
  rcases hdisp.next (D := D) (i := i) with hb | ⟨-, hd'⟩
  · obtain ⟨h0, h1⟩ := hflow.drained hb.resting.1
    exact .buffering [] hb (eq_nil_of_held hheld h0 h1)
  · exact .flowing hd' hflow hheld

/-- **Buffering**: at the pulse the sequence joins what is to be issued. -/
theorem Buffering.streams (hb : c.Buffering P) (hfit : Exec.Fits D c.exec (c.execIn i))
    (hover : c.recv.processIseqR = true → c.HandsOver) (hd : d ≤ c.exec.slots.due t) :
    ∃ R', Streams t d (Core.next D c i) [] (P ++ c.stored i)
      (c.exec.events t (c.execIn i)) R' (c.buffered i P) := by
  obtain ⟨hev, hw, -, hdue⟩ := streams_idle (D := D) (i := i) (t := t) hb.resting.2.1.1
    hb.resting.2.2.1
  cases hp : c.recv.processIseqR with
  | true =>
    obtain ⟨hd', hdeal⟩ := hb.next_of_pulse hfit hp
    have hst : c.stored i = [] := hb.stored_of_pulse hp
    refine ⟨P, ?_, .loading hd' (hb.resting.loading hp) hdeal ?_, ?_, ?_⟩
    · rw [hev, buffered, hp, hst]; simp
    · have hcount := hover hp
      unfold HandsOver at hcount
      rw [hw]
      omega
    · rw [hev]; trivial
    · rw [hev]; exact Nat.le_trans hd hdue
  | false =>
    refine ⟨[], ?_, .buffering _ (hb.next_of_not_pulse hfit hp) rfl, ?_, ?_⟩
    · rw [hev, buffered, hp]; simp
    · rw [hev]; trivial
    · rw [hev]; exact Nat.le_trans hd hdue

/-- **Loading**: both queues come on display at the counter the pulse has
left. -/
theorem Dispatching.streams_of_loading (hdisp : c.Dispatching) (hload : c.exec.Loading)
    (hdeal : deal R = (c.exec.fifo0, c.exec.fifo1))
    (hwait : c.exec.iseq.disp.waitCyclesR.toNat ≤ 2 ∨
      c.exec.iseq.disp.waitCyclesR.toNat % 2 = 1) (hd : d ≤ c.exec.slots.due t) :
    Streams t d (Core.next D c i) R ([] ++ c.stored i) (c.exec.events t (c.execIn i)) R
      (c.buffered i []) := by
  obtain ⟨hev, hw, hs, hdue⟩ := streams_idle (D := D) (i := i) (t := t) hload.2.1.1 hload.2.2.1
  obtain ⟨hw0, hw1⟩ := hdisp.no_write (i := i)
  have hheld : Held (Core.next D c i).exec.slots R := by
    obtain ⟨hq0, hq1⟩ := Exec.contents_of_not_valid (D := D) hload.sound hw0 hw1 hload.2.1.1
      hload.2.2.1
    rw [Exec.content0, Exec.content0, hload.2.1.empty.held_eq, List.nil_append] at hq0
    rw [Exec.content1, Exec.content1, hload.2.2.empty.held_eq, List.nil_append] at hq1
    refine Or.inl (Or.inl ⟨?_, ?_⟩)
    · change Aligned (Core.next D c i).exec.iseq.disp.waitCyclesR.toNat
      rw [hw, Aligned]
      omega
    · rw [hdeal]
      unfold Exec.slots
      rw [hs]
      exact Prod.ext hq0.symm hq1.symm
  refine ⟨?_, hdisp.standing (hload.next hw0 hw1) hheld, by rw [hev]; trivial,
    by rw [hev]; exact Nat.le_trans hd hdue⟩
  rw [hev, buffered, hdisp.noPulse, hdisp.stored]
  simp

/-- **Flowing**: a cycle of the two-slot machine. -/
theorem Dispatching.streams_of_flowing (hdisp : c.Dispatching) (hflow : c.exec.Flowing)
    (hheld : Held c.exec.slots R) (hW : TwoSlot.PosWaits waitOf R) (hready : i.dfiReady = true)
    (hd : d ≤ c.exec.slots.due t) :
    ∃ R', Streams t d (Core.next D c i) R ([] ++ c.stored i)
      (c.exec.events t (c.execIn i)) R' (c.buffered i []) := by
  obtain ⟨hw0, hw1⟩ := hdisp.no_write (i := i)
  have hr : (c.execIn i).dfiReady = true := hready
  obtain ⟨R', hkeep⟩ : ∃ R', KeepsOrder waitOf t d (c.exec.slots.next waitOf true) R
      (c.exec.slots.events waitOf true t) R' :=
    held_step hheld hW (fun hbad => by cases hbad.1) hd
  have hslots := Exec.slots_next (D := D) hflow (posWaits_of_held hheld hW) hw0 hw1
  have hev := Exec.events_refines (i := c.execIn i) hflow t
  rw [hr] at hslots hev
  rw [← hslots, ← hev] at hkeep
  refine ⟨R', ?_, hdisp.standing (hflow.next hdisp.noPulse hw0 hw1) hkeep.held, hkeep.spaced,
    hkeep.permits⟩
  rw [buffered, hdisp.noPulse, hdisp.stored]
  simpa using hkeep.split

/-- **One step of the stream.** -/
theorem Standing.next (hstand : c.Standing R) (hphase : c.Phase P)
    (hfit : Exec.Fits D c.exec (c.execIn i)) (hW : TwoSlot.PosWaits waitOf R)
    (hover : c.recv.processIseqR = true → c.HandsOver)
    (hready : i.dfiReady = true) (hd : d ≤ c.exec.slots.due t) :
    ∃ R', Streams t d (Core.next D c i) R (P ++ c.stored i)
      (c.exec.events t (c.execIn i)) R' (c.buffered i P) := by
  rcases hstand with ⟨P', hb, rfl⟩ | ⟨hdisp, hload, hdeal, hwait⟩ | ⟨hdisp, hflow, hheld⟩
  · rcases hphase with hb' | ⟨-, hdisp⟩
    · exact hb'.streams hfit hover hd
    · exact absurd hb.resting hdisp.not_resting
  · obtain rfl := hdisp.eq_nil hphase
    exact ⟨R, hdisp.streams_of_loading hload hdeal hwait hd⟩
  · obtain rfl := hdisp.eq_nil hphase
    exact hdisp.streams_of_flowing hflow hheld hW hready hd

end Core

/-! ## Runs -/

namespace PathRun

variable {r : PathRun}

/-- **Where a run stands**: everything stored has been issued in order and
with its distances, but for what stands in the dispatcher and what is
being buffered. -/
theorem streams_of_fits (hfit : ∀ n, r.Fits n) (hready : ∀ n, (r.wave n).dfiReady = true)
    (hwaits : ∀ n, ∀ w ∈ (r.state n).stored (r.wave n), waitOf w ≠ some 0) {n : ℕ}
    (hover : ∀ k < n, (r.state k).recv.processIseqR = true → (r.state k).HandsOver) :
    ∃ R, r.stored n = (r.issued n).map Prod.snd ++ (R ++ r.since n) ∧ (r.state n).Standing R ∧
      Spaced waitOf 0 (r.issued n) ∧
      after waitOf 0 (r.issued n) ≤ (r.state n).exec.slots.due n := by
  induction n with
  | zero => exact ⟨[], rfl, .buffering [] r.idle.1 rfl, trivial, Nat.zero_le _⟩
  | succ n ih =>
    obtain ⟨R, hR, hstand, hspaced, hdue⟩ := ih fun k hk => hover k (by omega)
    have hposW : TwoSlot.PosWaits waitOf R := by
      refine posWaits_of_ne fun w hw => ?_
      have hmem : w ∈ r.stored n := by
        rw [hR]; exact List.mem_append_right _ (List.mem_append_left _ hw)
      obtain ⟨k, -, hk⟩ := mem_trace.1 hmem
      exact hwaits k w hk
    obtain ⟨R', hstep⟩ := hstand.next (phase fun k _ => hfit k) (hfit n) hposW
      (hover n (by omega)) (hready n) hdue
    refine ⟨R', ?_, hstep.standing, ?_, ?_⟩
    · have hsplit := hstep.split
      rw [stored_succ, hR, issued_succ, List.map_append, List.append_assoc, List.append_assoc,
        List.append_assoc, hsplit]
      rfl
    · rw [issued_succ, spaced_append]
      exact ⟨hspaced, hstep.spaced⟩
    · rw [issued_succ, after_append]
      exact hstep.permits

/-- An ideal FIFO has room for everything. -/
theorem streams (hideal : r.depth = none) (hready : ∀ n, (r.wave n).dfiReady = true)
    (hwaits : ∀ n, ∀ w ∈ (r.state n).stored (r.wave n), waitOf w ≠ some 0) {n : ℕ}
    (hover : ∀ k < n, (r.state k).recv.processIseqR = true → (r.state k).HandsOver) :
    ∃ R, r.stored n = (r.issued n).map Prod.snd ++ (R ++ r.since n) ∧ (r.state n).Standing R ∧
      Spaced waitOf 0 (r.issued n) ∧
      after waitOf 0 (r.issued n) ≤ (r.state n).exec.slots.due n :=
  streams_of_fits (fits_of_unbounded hideal) hready hwaits hover

/-- **Program order holds across sequences** in every run that hands each
sequence over at an odd counter or one of at most four: what has issued
is at every moment the beginning of what was accepted, every distance
kept, and each sequence handed over is issued to its end. -/
theorem inOrder_across_sequences (hideal : r.depth = none)
    (hready : ∀ n, (r.wave n).dfiReady = true)
    (hwaits : ∀ n, ∀ w ∈ (r.state n).stored (r.wave n), waitOf w ≠ some 0)
    (hover : ∀ n, (r.state n).recv.processIseqR = true → (r.state n).HandsOver) :
    (∀ n, InOrder (r.stored n) (r.issued n)) ∧
      ∀ n, (r.state n).recv.processIseqR = true →
        ∃ m, n ≤ m ∧ (r.issued m).map Prod.snd = r.stored n := by
  have hfit : ∀ n, r.Fits n := fits_of_unbounded hideal
  constructor
  · intro n
    obtain ⟨R, hR, -, hspaced, -⟩ := streams hideal hready hwaits (n := n) fun k _ => hover k
    exact inOrder_of_spaced ⟨_, hR.symm⟩ hspaced
  · intro n hp
    have hbuf : (r.state n).Buffering (r.since n) := by
      rcases phase (r := r) (n := n) fun k _ => hfit k with h | ⟨-, h⟩
      · exact h
      · rw [h.noPulse] at hp; cases hp
    have hstart : (r.state (n + 1)).Dispatching := (hbuf.next_of_pulse (hfit n) hp).1
    obtain ⟨k, hdisp, -, hb⟩ := exists_dispatched hstart fun n => ⟨n, le_rfl, hready n⟩
    obtain ⟨R, hR, hstand, -, -⟩ := streams hideal hready hwaits (n := n + 1 + k + 1)
      fun k _ => hover k
    -- at the end of its dispatch nothing of the stream stands on the path
    have hnil : R = [] := by
      rcases hstand with ⟨-, -, h⟩ | ⟨h, -, -, -⟩ | ⟨h, -, -⟩
      · exact h
      · exact absurd (h.busy.symm.trans hb) (by simp)
      · exact absurd (h.busy.symm.trans hb) (by simp)
    have hsince : r.since (n + 1 + k + 1) = [] := by
      rcases phase (r := r) (n := n + 1 + k) fun k _ => hfit k with h | ⟨hP, h⟩
      · exact absurd h.resting (hdisp k le_rfl).not_resting
      · rw [since, Core.buffered, h.noPulse, h.stored, hP]; rfl
    have hstored : r.stored (n + 1) = r.stored n := by
      rw [stored_succ, hbuf.stored_of_pulse hp, List.append_nil]
    refine ⟨n + 1 + k + 1, by omega, ?_⟩
    rw [← hstored, ← stored_of_dispatching hdisp, hR, hnil, hsince]
    simp

/-- An auto-refresh sequence from reset, and behind it, as soon as the
receiver takes it, an application's ACT and END. -/
def autorefThenApp (trfc : BitVec 28) : PathRun where
  depth := none
  start := Core.reset
  wave n := {
    appEn := decide (5 ≤ n ∧ n ≤ 14)
    appInstr := if n ≤ 13 then 0x81190005#32 else 0x00000000#32
    maintEn := decide (n < 5)
    maintInstr := [maintDdr 0 false true false true, maintWait (.ofNat 28 DEF_TRP),
      maintDdr 0 false false true true, maintWait trfc, maintEnd].getD n 0
    periodicReadLock := false
    dfiReady := true }
  idle := Core.idle_reset

/-- With `trfc` at `12` the second pulse finds the counter at five. -/
theorem autorefThenApp_inOrder :
    (∀ n, InOrder ((autorefThenApp 12).stored n) ((autorefThenApp 12).issued n)) ∧
      ∀ n, ((autorefThenApp 12).state n).recv.processIseqR = true →
        ∃ m, n ≤ m ∧ ((autorefThenApp 12).issued m).map Prod.snd = (autorefThenApp 12).stored n := by
  -- after cycle `30` nothing happens any more
  have hwave : ∀ n, 30 ≤ n → (autorefThenApp 12).wave n = (autorefThenApp 12).wave 30 := by
    intro n hn
    obtain ⟨k, rfl⟩ := Nat.exists_eq_add_of_le' hn
    simp only [autorefThenApp]
    rw [decide_eq_false (by omega), if_neg (by omega), decide_eq_false (by omega)]
    rfl
  have hfix : ∀ n, 30 ≤ n → (autorefThenApp 12).state n = (autorefThenApp 12).state 30 :=
    fun n hn => run_fixed hwave (by decide +kernel) hn
  have hwaits : ∀ n < 31, (((autorefThenApp 12).state n).stored ((autorefThenApp 12).wave n)).all
      (waitOf · != some 0) = true := by decide +kernel
  have hover : ∀ n < 31, ((autorefThenApp 12).state n).recv.processIseqR = true →
      ((autorefThenApp 12).state n).HandsOver := by decide +kernel
  refine inOrder_across_sequences rfl (fun _ => rfl) (fun n w hw => ?_) fun n hp => ?_
  · rcases Nat.lt_or_ge n 30 with hn | hn
    · simpa using List.all_eq_true.1 (hwaits n (by omega)) w hw
    · rw [hfix n hn, hwave n hn] at hw
      simpa using List.all_eq_true.1 (hwaits 30 (by omega)) w hw
  · rcases Nat.lt_or_ge n 30 with hn | hn
    · exact hover n (by omega) hp
    · rw [hfix n hn] at hp ⊢
      exact hover 30 (by omega) hp

/-- **An odd refresh time swaps the sequence behind it**: with `trfc` at
`13` the second pulse finds the counter at six, and the END issues before
the ACT. -/
theorem autorefThenApp_reordered :
    ((autorefThenApp 13).stored 20).map opcode =
        [.ddr, .wait, .ddr, .wait, .ddr, .endIseq] ∧
      ¬ InOrder ((autorefThenApp 13).stored 20) ((autorefThenApp 13).issued 20) := by
  refine ⟨by decide +kernel, fun h => ?_⟩
  exact absurd h.order (by decide +kernel)

end PathRun

end SoftMC
