import SoftMC.Path.Served
/-!
# What is issued has been handed over

Whatever the counter a sequence is handed over at, and however `dfi_ready`
moves: the slots issue no more of an instruction than the sequences of its
source hold.
-/

namespace SoftMC

open Clocked

namespace Exec

/-- The number of instructions of a kind left to take. -/
def leftOf (e : Exec) (Q : Instr → Bool) : ℕ := e.content0.countP Q + e.content1.countP Q

variable {D : Option ℕ} {e : Exec} {i : In}

/-- **A cycle without writes** issues what it no longer leaves. -/
theorem countP_events (hs : e.Sound) (hw0 : i.wr0 = none) (hw1 : i.wr1 = none) (Q : Instr → Bool)
    (t : ℕ) : (e.events t i).countP (fun x => Q x.2) + (Exec.next D e i).leftOf Q = e.leftOf Q := by
  obtain ⟨hc0, hc1⟩ := contents_of_no_write (D := D) hs hw0 hw1
  have hone : ∀ (k : ℕ) (o : Option Instr),
      (o.toList.map (k, ·)).countP (fun x => Q x.2) = o.toList.countP Q := by
    intro k o
    rw [List.countP_map]
    rfl
  have htaken : (e.taken0 i).toList.countP Q + (e.taken1 i).toList.countP Q =
      (e.events t i).countP fun x => Q x.2 := by
    rw [events, List.countP_append, hone, hone]
    unfold taken0 taken1 Dispatcher.taken0 Dispatcher.taken1
    cases e.iseq.disp.instrSrcR
    · rfl
    · exact Nat.add_comm _ _
  rw [leftOf, leftOf, hc0, hc1, List.countP_append, List.countP_append, ← htaken]
  omega

end Exec

namespace PathRun

variable {r : PathRun}

/-- The events of a cycle are of one source. -/
theorem countP_eventsBy (src : Source) (Q : Instr → Bool) (n : ℕ) :
    (r.eventsBy n).countP (fun e => decide (e.1.2 = src) && Q e.2) =
      if r.turn n = src then (r.events n).countP fun x => Q x.2 else 0 := by
  rw [eventsBy, List.countP_map]
  split
  · rename_i h
    exact List.countP_congr fun x _ => by simp [h]
  · rename_i h
    exact List.countP_eq_zero.2 fun x _ => by simp [h]

/-- **What is issued of a source has been handed over**, but for what is
still in the dispatcher's hands. -/
theorem countP_issuedBy (hfit : ∀ n, r.Fits n) (src : Source) (Q : Instr → Bool) (n : ℕ) :
    (r.issuedBy n).countP (fun e => decide (e.1.2 = src) && Q e.2) +
        (if (r.state n).exec.iseq.dispatcherBusyR ∧ r.turn n = src then (r.state n).exec.leftOf Q
          else 0) ≤
      (((r.served n).filter (·.1 = src)).flatMap Prod.snd).countP Q := by
  induction n with
  | zero =>
    have hbusy : (r.state 0).exec.iseq.dispatcherBusyR = false := r.idle.1.resting.1
    rw [hbusy, if_neg (by simp)]
    exact Nat.le_refl 0
  | succ n ih =>
    rw [issuedBy_succ, List.countP_append, countP_eventsBy]
    rcases phase (r := r) (n := n) fun k _ => hfit k with hb | ⟨-, hd⟩
    · have hev : r.events n = [] :=
        (Core.streams_idle (D := r.depth) hb.resting.2.1.1 hb.resting.2.2.1).1
      rw [hev, List.countP_nil, ite_self, Nat.add_zero]
      cases hp : (r.state n).recv.processIseqR with
      | true =>
        -- the sequence is dealt to the queues
        obtain ⟨hd', hdeal⟩ := hb.next_of_pulse (hfit n) hp
        have hload := hb.resting.loading (D := r.depth) (i := (r.state n).execIn (r.wave n)) hp
        have hleft : (r.state (n + 1)).exec.leftOf Q = (r.since n).countP Q := by
          rw [← countP_deal, hdeal, Exec.leftOf, Exec.content0, Exec.content1]
          change ((Core.next r.depth (r.state n) (r.wave n)).exec.iseq.instr0Reg.held ++ _).countP Q +
            ((Core.next r.depth (r.state n) (r.wave n)).exec.iseq.instr1Reg.held ++ _).countP Q = _
          rw [show (Core.next r.depth (r.state n) (r.wave n)).exec.iseq.instr0Reg.held = [] from
              hload.2.1.empty.held_eq,
            show (Core.next r.depth (r.state n) (r.wave n)).exec.iseq.instr1Reg.held = [] from
              hload.2.2.empty.held_eq]
          rfl
        have hturn : r.turn (n + 1) = r.origin n := by rw [turn, if_pos hp]
        rw [hturn, hleft, served_succ_of_pulse hp, List.filter_append, List.flatMap_append,
          List.countP_append]
        have hbefore := Nat.le_trans (Nat.le_add_right _ _) ih
        by_cases hsrc : r.origin n = src
        · rw [List.filter_cons_of_pos (by simpa using hsrc), if_pos ⟨hd'.busy, hsrc⟩]
          simp only [List.filter_nil, List.flatMap_cons, List.flatMap_nil, List.append_nil]
          omega
        · rw [if_neg fun h => hsrc h.2]
          omega
      | false =>
        have hbusy : (r.state (n + 1)).exec.iseq.dispatcherBusyR = false :=
          (hb.next_of_not_pulse (hfit n) hp).resting.1
        rw [served_succ_of_no_pulse hp, hbusy, if_neg (by simp)]
        exact Nat.le_trans (Nat.add_le_add_left (Nat.zero_le _) _) ih
    · have hcount := Exec.countP_events (D := r.depth) (Core.Mode.sound (Or.inr hd))
        (hd.no_write (i := r.wave n)).1 (hd.no_write (i := r.wave n)).2 Q n
      change (r.events n).countP (fun x => Q x.2) + (r.state (n + 1)).exec.leftOf Q = _ at hcount
      have hturn : r.turn (n + 1) = r.turn n := by rw [turn, if_neg (by simp [hd.noPulse])]
      rw [served_succ_of_no_pulse hd.noPulse, hturn]
      rw [hd.busy] at ih
      by_cases hsrc : r.turn n = src
      · rw [if_pos ⟨rfl, hsrc⟩] at ih
        rw [if_pos hsrc]
        split <;> omega
      · rw [if_neg fun h => hsrc h.2] at ih
        rw [if_neg hsrc, if_neg fun h => hsrc h.2]
        exact ih

end PathRun

end SoftMC
