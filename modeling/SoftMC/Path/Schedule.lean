import SoftMC.Common.Schedules
import SoftMC.Path.Served
/-!
# The schedule of a run

Where nothing stalls the dispatcher, each sequence it is handed over at a
counter that keeps its order is issued to the cycle, from slot `0` on. The
counter the next one meets is then known from the sequence before it: it
is gone behind an END, and odd behind a program of even length.
-/

namespace SoftMC

open Clocked TwoSlot

namespace Core

/-- **Where a run on schedule stands** at the start of cycle `t`, with what
has been issued and the sequences handed over. -/
inductive OnTime (c : Core) (t : ℕ) (evs : List (ℕ × Instr)) (S : List (List Instr)) : Prop
  /-- All of it has been issued, and the next sequence is buffered. -/
  | buffering (P : List Instr) (phase : c.Buffering P) (done : OnSchedule waitOf evs S)
  /-- The last is about to load. -/
  | loading (R : List Instr) (S' : List (List Instr)) (split : S = S' ++ [R])
      (phase : c.Dispatching) (load : c.exec.Loading)
      (deal : deal R = (c.exec.fifo0, c.exec.fifo1))
      (wait : c.exec.iseq.disp.waitCyclesR.toNat ≤ 2 ∨
        c.exec.iseq.disp.waitCyclesR.toNat % 2 = 1)
      (done : OnSchedule waitOf evs S')
  /-- It is being dispatched, and the rest of it is placed and due. -/
  | flowing (R : List Instr) (phase : c.Dispatching) (flow : c.exec.Flowing)
      (placed : Placed c.exec.slots R)
      (done : OnSchedule waitOf (evs ++ schedule waitOf (c.exec.slots.due t) R) S)

variable {c : Core} {i : In} {D : Option ℕ} {R P : List Instr} {t : ℕ}
  {evs : List (ℕ × Instr)} {S : List (List Instr)}

/-- A dispatch in flow is on time after the cycle, drained or not. -/
theorem Dispatching.onTime (hdisp : c.Dispatching) (hflow : (Core.next D c i).exec.Flowing)
    (hplaced : Placed (Core.next D c i).exec.slots R)
    (hdone : OnSchedule waitOf (evs ++ schedule waitOf ((Core.next D c i).exec.slots.due t) R) S) :
    (Core.next D c i).OnTime t evs S := by
  rcases hdisp.next (D := D) (i := i) with hb | ⟨-, hd'⟩
  · obtain ⟨h0, h1⟩ := hflow.drained hb.resting.1
    obtain rfl : R = [] := hplaced.eq_nil_iff.1 ((Exec.slots_eq_nil _).1 ⟨h0, h1⟩)
    rw [schedule_nil, List.append_nil] at hdone
    exact .buffering [] hb hdone
  · exact .flowing R hd' hflow hplaced hdone

/-- **Loading**: the sequence is placed, and due at slot `0`. -/
theorem Dispatching.onTime_of_loading {S' : List (List Instr)} (hdisp : c.Dispatching)
    (hload : c.exec.Loading) (hdeal : deal R = (c.exec.fifo0, c.exec.fifo1))
    (hwait : c.exec.iseq.disp.waitCyclesR.toNat ≤ 2 ∨
      c.exec.iseq.disp.waitCyclesR.toNat % 2 = 1) (hd : after waitOf 0 evs ≤ c.exec.slots.due t)
    (hdone : OnSchedule waitOf evs S') :
    (Core.next D c i).OnTime (t + 1) (evs ++ c.exec.events t (c.execIn i)) (S' ++ [R]) := by
  obtain ⟨hev, hw, hs, hdue⟩ := streams_idle (D := D) (i := i) (t := t) hload.2.1.1 hload.2.2.1
  obtain ⟨hw0, hw1⟩ := hdisp.no_write (i := i)
  obtain ⟨hq0, hq1⟩ := Exec.contents_of_not_valid (D := D) hload.sound hw0 hw1 hload.2.1.1
    hload.2.2.1
  rw [Exec.content0, Exec.content0, hload.2.1.empty.held_eq, List.nil_append] at hq0
  rw [Exec.content1, Exec.content1, hload.2.2.empty.held_eq, List.nil_append] at hq1
  have haligned : Aligned (Core.next D c i).exec.slots.wait := by
    change Aligned (Core.next D c i).exec.iseq.disp.waitCyclesR.toNat
    rw [hw, Aligned]
    omega
  have hplaced : Placed (Core.next D c i).exec.slots R := by
    refine Or.inl ⟨haligned, ?_⟩
    rw [hdeal]
    unfold Exec.slots
    rw [hs]
    exact Prod.ext hq0.symm hq1.symm
  rw [hev, List.append_nil]
  refine hdisp.onTime (hload.next hw0 hw1) hplaced (hdone.snoc ?_ (Nat.le_trans hd hdue))
  rw [Slots.due]
  rcases haligned with h | h <;> omega

/-- **Flowing**: a cycle of the two-slot machine. -/
theorem Dispatching.onTime_of_flowing (hdisp : c.Dispatching) (hflow : c.exec.Flowing)
    (hplaced : Placed c.exec.slots R) (hW : TwoSlot.PosWaits waitOf R) (hready : i.dfiReady = true)
    (hdone : OnSchedule waitOf (evs ++ schedule waitOf (c.exec.slots.due t) R) S) :
    (Core.next D c i).OnTime (t + 1) (evs ++ c.exec.events t (c.execIn i)) S := by
  obtain ⟨hw0, hw1⟩ := hdisp.no_write (i := i)
  have hr : (c.execIn i).dfiReady = true := hready
  obtain ⟨R', hadv⟩ := placed_step hplaced hW t
  have hslots := Exec.slots_next (D := D) hflow (posWaits_of_held (Or.inl hplaced) hW) hw0 hw1
  have hev := Exec.events_refines (i := c.execIn i) hflow t
  rw [hr] at hslots hev
  rw [← hslots, ← hev] at hadv
  refine hdisp.onTime (hflow.next hdisp.noPulse hw0 hw1) hadv.placed ?_
  rw [List.append_assoc]
  exact hadv.times ▸ hdone

/-- **One step on schedule.** -/
theorem OnTime.next (h : c.OnTime t evs S) (hphase : c.Phase P)
    (hfit : Exec.Fits D c.exec (c.execIn i)) (hW : ∀ w ∈ S.flatten, waitOf w ≠ some 0)
    (hover : c.recv.processIseqR = true → c.HandsOver) (hready : i.dfiReady = true)
    (hd : after waitOf 0 evs ≤ c.exec.slots.due t) :
    (Core.next D c i).OnTime (t + 1) (evs ++ c.exec.events t (c.execIn i))
      (S ++ if c.recv.processIseqR then [P] else []) := by
  rcases h with ⟨P', hb, hdone⟩ | ⟨R, S', rfl, hdisp, hload, hdeal, hwait, hdone⟩ |
    ⟨R, hdisp, hflow, hplaced, hdone⟩
  · obtain ⟨hev, hw, -, -⟩ := streams_idle (D := D) (i := i) (t := t) hb.resting.2.1.1
      hb.resting.2.2.1
    have hb' : c.Buffering P := by
      rcases hphase with hb' | ⟨-, hdisp⟩
      · exact hb'
      · exact absurd hb.resting hdisp.not_resting
    rw [hev, List.append_nil]
    cases hp : c.recv.processIseqR with
    | true =>
      obtain ⟨hd', hdeal⟩ := hb'.next_of_pulse hfit hp
      refine .loading P S rfl hd' (hb.resting.loading hp) hdeal ?_ hdone
      have hcount := hover hp
      unfold HandsOver at hcount
      rw [hw]
      omega
    | false =>
      rw [if_neg Bool.false_ne_true, List.append_nil]
      exact .buffering _ (hb'.next_of_not_pulse hfit hp) hdone
  · rw [hdisp.noPulse, if_neg Bool.false_ne_true, List.append_nil]
    exact hdisp.onTime_of_loading hload hdeal hwait hd hdone
  · rw [hdisp.noPulse, if_neg Bool.false_ne_true, List.append_nil]
    refine hdisp.onTime_of_flowing hflow hplaced (posWaits_of_ne fun w hw => hW w ?_) hready hdone
    rw [← hdone.map_snd, List.map_append, schedule_map_snd]
    exact List.mem_append_right _ hw

end Core

/-! ## The counter -/

/-- What the last instruction issued has left of the counter at the start
of cycle `n`, or what the start `d` of the run has. -/
def residue (d : ℕ) (evs : List (ℕ × Instr)) (n : ℕ) : ℕ :=
  evs.getLast?.elim (d - 2 * n) fun e => (waitOf e.2).elim 0 fun k => e.1 + k + 1 - 2 * n

/-- **One step of the counter.** -/
theorem Exec.toNat_waitCyclesR_next {D : Option ℕ} {e : Exec} {i : In} {d t : ℕ}
    {evs : List (ℕ × Instr)} (hpos : ∀ x ∈ e.events t i, waitOf x.2 ≠ some 0)
    (h : e.iseq.disp.waitCyclesR.toNat = residue d evs t) :
    (Exec.next D e i).iseq.disp.waitCyclesR.toNat = residue d (evs ++ e.events t i) (t + 1) := by
  have hnext := Dispatcher.toNat_waitCyclesR_next_of_pos (s := e.iseq.disp) (i := e.dispIn i)
    fun w hw n hn => Nat.pos_of_ne_zero fun h0 =>
      hpos (2 * t, w) (mem_events.2 (Or.inl ⟨rfl, hw⟩)) (h0 ▸ hn)
  refine hnext.trans ?_
  rw [residue, List.getLast?_append, events]
  cases h1 : e.iseq.disp.issue1 (e.dispIn i) with
  | some w =>
    obtain ⟨hblocks, -, hle, -, -⟩ := Dispatcher.issue1_eq_some h1
    simp only [Option.toList_some, List.map_cons, List.map_nil, List.getLast?_append,
      List.getLast?_singleton, Option.some_or, Option.bind_some, Option.elim_some]
    cases hw : waitOf w with
    | some n => simp only [Option.elim_some]; omega
    | none =>
      cases h0 : e.iseq.disp.issue0 (e.dispIn i) with
      | none => exact Nat.sub_eq_zero_of_le (BitVec.le_def.1 hle)
      | some v =>
        -- slot `0` has left slot `1` open, so its wait is of one cycle
        rw [h0, Option.any_some, Dispatcher.blocks_eq] at hblocks
        cases hv : waitOf v with
        | none =>
          simp only [Option.bind_some, hv]
          exact Nat.sub_eq_zero_of_le (BitVec.le_def.1 hle)
        | some n =>
          rw [hv, Option.any_some, decide_eq_false_iff_not] at hblocks
          simp only [Option.bind_some, hv]
          exact Nat.sub_eq_zero_of_le (Nat.not_lt.1 hblocks)
  | none =>
    simp only [Option.toList_none, List.map_nil, List.append_nil, Option.bind_none]
    cases h0 : e.iseq.disp.issue0 (e.dispIn i) with
    | some v =>
      have hle := BitVec.le_def.1 (Dispatcher.issue0_eq_some h0).2.1
      simp only [Option.toList_some, List.map_cons, List.map_nil, List.getLast?_singleton,
        Option.some_or, Option.bind_some, Option.elim_some]
      cases hv : waitOf v with
      | none => exact Nat.sub_eq_zero_of_le (Nat.le_succ_of_le hle)
      | some n => simp only [Option.elim_some]; omega
    | none =>
      simp only [Option.toList_none, List.map_nil, List.getLast?_nil, Option.none_or,
        Option.bind_none]
      rw [h, residue]
      cases evs.getLast? with
      | none => exact Nat.sub_sub _ _ _
      | some x =>
        cases hx : waitOf x.2 with
        | none => simp only [hx, Option.elim_some, Option.elim_none]
        | some n =>
          simp only [hx, Option.elim_some]
          exact Nat.sub_sub _ _ _

namespace PathRun

variable {r : PathRun}

/-- **A run is on schedule** as long as each sequence is handed over at a
counter that keeps its order. -/
theorem onTime (hfit : ∀ n, r.Fits n) (hready : ∀ n, (r.wave n).dfiReady = true)
    (hwaits : ∀ n, ∀ w ∈ (r.state n).stored (r.wave n), waitOf w ≠ some 0) {n : ℕ}
    (hover : ∀ k < n, (r.state k).recv.processIseqR = true → (r.state k).HandsOver) :
    (r.state n).OnTime n (r.issued n) ((r.served n).map Prod.snd) := by
  induction n with
  | zero => exact .buffering [] r.idle.1 .nil
  | succ n ih =>
    have hbefore : ∀ k < n, (r.state k).recv.processIseqR = true → (r.state k).HandsOver :=
      fun k hk => hover k (by omega)
    obtain ⟨-, -, -, -, hdue⟩ := streams_of_fits hfit hready hwaits hbefore
    have hposW : ∀ w ∈ ((r.served n).map Prod.snd).flatten, waitOf w ≠ some 0 := by
      intro w hw
      have hmem : w ∈ r.stored n := by
        rw [stored_eq_served, List.flatMap_def]
        exact List.mem_append_left _ hw
      obtain ⟨k, -, hk⟩ := mem_trace.1 hmem
      exact hwaits k w hk
    have hstep := (ih hbefore).next (phase fun k _ => hfit k) (hfit n) hposW
      (hover n (by omega)) (hready n) hdue
    have hserved : (r.served (n + 1)).map Prod.snd = (r.served n).map Prod.snd ++
        if (r.state n).recv.processIseqR then [r.since n] else [] := by
      rw [served, List.map_append]
      split <;> rfl
    rw [hserved]
    exact hstep

/-- **What has been issued** is the beginning of a schedule of all that has
been handed over, and all of it while the dispatcher is not busy. -/
theorem exists_onSchedule (hfit : ∀ n, r.Fits n) (hready : ∀ n, (r.wave n).dfiReady = true)
    (hwaits : ∀ n, ∀ w ∈ (r.state n).stored (r.wave n), waitOf w ≠ some 0)
    (hover : ∀ n, (r.state n).recv.processIseqR = true → (r.state n).HandsOver) (n : ℕ) :
    ∃ evs, OnSchedule waitOf evs ((r.served n).map Prod.snd) ∧ r.issued n <+: evs ∧
      ((r.state n).exec.iseq.dispatcherBusyR = false → r.issued n = evs) := by
  rcases onTime hfit hready hwaits (n := n) fun k _ => hover k with
    ⟨P, -, hdone⟩ | ⟨R, S', hS, hdisp, -, -, -, hdone⟩ | ⟨R, hdisp, -, -, hdone⟩
  · exact ⟨_, hdone, List.prefix_rfl, fun _ => rfl⟩
  · rw [hS]
    refine ⟨_, hdone.snoc (Nat.mul_mod_right 2 _) (Nat.le_mul_of_pos_left _ Nat.zero_lt_two),
      List.prefix_append _ _, fun h => ?_⟩
    rw [hdisp.busy] at h
    cases h
  · refine ⟨_, hdone, List.prefix_append _ _, fun h => ?_⟩
    rw [hdisp.busy] at h
    cases h

/-- **The counter** is what the last instruction issued has left of it. -/
theorem toNat_waitCyclesR {n : ℕ} (hpos : ∀ e ∈ r.issued n, waitOf e.2 ≠ some 0) :
    (r.state n).exec.iseq.disp.waitCyclesR.toNat =
      residue r.start.exec.iseq.disp.waitCyclesR.toNat (r.issued n) n := by
  induction n with
  | zero => rfl
  | succ n ih =>
    rw [issued_succ] at hpos ⊢
    exact Exec.toNat_waitCyclesR_next (fun x hx => hpos x (List.mem_append_right _ hx))
      (ih fun e he => hpos e (List.mem_append_left _ he))

/-! ## Handing over -/

/-- **A sequence that ends safely** for the one behind it: in no WAIT, in one
that is gone when the next sequence comes, or an even time behind its
start. -/
def EndsSafely (l : List Instr) : Prop :=
  ∀ w n, l.getLast? = some w → waitOf w = some n → n ≤ 6 ∨ total waitOf l % 2 = 0

/-- Nothing is issued in the last two cycles before a sequence is handed
over. -/
theorem lt_of_issued {n : ℕ} (hp : (r.state n).recv.processIseqR = true) {e : ℕ × Instr}
    (he : e ∈ r.issued n) : e.1 + 2 < 2 * n := by
  obtain ⟨k, rfl, hstate, -⟩ := exists_end_of_pulse hp
  have hrest : (r.state k).AtRest := by
    rcases mode (r := r) k with h | h
    · exact h
    · rw [h.idle] at hstate
      cases hsrc : r.origin (k + 1) <;> rw [hsrc] at hstate <;> cases hstate
  have hev : r.events k = [] :=
    (Core.streams_idle (D := r.depth) hrest.resting.2.1.1 hrest.resting.2.2.1).1
  rw [issued_succ, hev, List.append_nil] at he
  obtain ⟨j, hj, hmem⟩ := mem_trace.1 he
  rcases Exec.mem_events.1 hmem with ⟨h, -⟩ | ⟨h, -⟩ <;> omega

/-- **Behind sequences that end safely** every counter keeps the order. -/
theorem handsOver_of_endsSafely (hstart : r.start.exec.iseq.disp.waitCyclesR.toNat ≤ 4)
    (hfit : ∀ n, r.Fits n) (hready : ∀ n, (r.wave n).dfiReady = true)
    (hwaits : ∀ n, ∀ w ∈ (r.state n).stored (r.wave n), waitOf w ≠ some 0)
    (hends : ∀ n, ∀ s ∈ r.served n, EndsSafely s.2) {n : ℕ}
    (hp : (r.state n).recv.processIseqR = true) : (r.state n).HandsOver := by
  induction n using Nat.strong_induction_on with
  | _ n ih =>
    have hpos : ∀ e ∈ r.issued n, waitOf e.2 ≠ some 0 := by
      intro e he
      obtain ⟨R, hR, -, -, -⟩ := streams_of_fits hfit hready hwaits fun k hk => ih k hk
      have hmem : e.2 ∈ r.stored n := by
        rw [hR]
        exact List.mem_append_left _ (List.mem_map_of_mem he)
      obtain ⟨k, -, hk⟩ := mem_trace.1 hmem
      exact hwaits k _ hk
    have hcount := toNat_waitCyclesR hpos
    rw [residue] at hcount
    have htime := onTime hfit hready hwaits (n := n) fun k hk => ih k hk
    rcases htime with ⟨P, -, hdone⟩ | ⟨-, -, -, hdisp, -, -, -, -⟩ | ⟨-, hdisp, -, -, -⟩
    · rw [Core.HandsOver, hcount]
      rcases hlast : ((r.served n).map Prod.snd).getLast? with _ | l
      · -- nothing has been issued yet
        have hnil := hdone.map_snd
        rw [List.getLast?_eq_none_iff.1 hlast, List.flatten_nil, List.map_eq_nil_iff] at hnil
        rw [hnil]
        exact Or.inl (Nat.le_trans (Nat.sub_le _ _) hstart)
      · obtain ⟨s, hs, rfl⟩ := List.mem_map.1 (List.mem_of_getLast? hlast)
        obtain ⟨k, -, hpk, rfl⟩ := exists_pulse hs
        obtain ⟨w, e, l, hsince, -, -, -⟩ := exists_closed_of_pulse hpk
        obtain ⟨T, x, hT, hx, hlast', hsum⟩ := hdone.exists_last hlast (by rw [hsince]; simp)
        rw [hx, Option.elim_some]
        have hbefore := lt_of_issued hp (List.mem_of_getLast? hx)
        cases hw : waitOf x.2 with
        | none => exact Or.inl (Nat.zero_le 4)
        | some c =>
          simp only [Option.elim_some]
          rw [cost_of_some hw] at hsum
          rcases hends n _ hs x.2 c hlast' hw with hc | heven <;> omega
    · rw [hdisp.noPulse] at hp
      cases hp
    · rw [hdisp.noPulse] at hp
      cases hp

end PathRun

end SoftMC
