import SoftMC.Dispatch.Queue
import SoftMC.Common.TwoSlot
/-!
# The dispatcher refines two-slot issue

While both queues show their heads, a cycle of `iseq_dispatcher` is a
cycle of the two-slot machine: the counter is its counter, and the queues
by `instr_src_r` are its leading and its trailing one. The fallback of
the source flag to the first queue is invisible, both queues being empty
when it happens.
-/

namespace SoftMC

open Clocked TwoSlot

namespace Exec

/-- What the two slots issue in cycle `t`, by DRAM cycle `2 * t + s`. -/
def events (t : ℕ) (e : Exec) (i : In) : List (ℕ × Instr) :=
  (e.iseq.disp.issue0 (e.dispIn i)).toList.map (2 * t, ·) ++
    (e.iseq.disp.issue1 (e.dispIn i)).toList.map (2 * t + 1, ·)

/-- **The abstraction.** -/
def slots (e : Exec) : Slots Instr where
  wait := e.iseq.disp.waitCyclesR.toNat
  lead := if e.iseq.disp.instrSrcR then e.content1 else e.content0
  trail := if e.iseq.disp.instrSrcR then e.content0 else e.content1

theorem slots_eq_nil (e : Exec) :
    (e.content0 = [] ∧ e.content1 = []) ↔ e.slots.lead = [] ∧ e.slots.trail = [] := by
  unfold slots
  cases e.iseq.disp.instrSrcR
  · exact Iff.rfl
  · exact And.comm

/-- Both hold the same words. -/
theorem mem_slots (e : Exec) {w : Instr} :
    (w ∈ e.slots.lead ∨ w ∈ e.slots.trail) ↔ (w ∈ e.content0 ∨ w ∈ e.content1) := by
  unfold slots
  cases e.iseq.disp.instrSrcR
  · exact Iff.rfl
  · exact Or.comm

/-- Every WAIT still to be taken asks for at least one cycle. -/
def PosWaits (e : Exec) : Prop :=
  TwoSlot.PosWaits waitOf e.content0 ∧ TwoSlot.PosWaits waitOf e.content1

variable {D : Option ℕ} {e : Exec} {i : In}

section Heads

variable (h : e.Flowing)
include h

theorem lead_head? :
    e.slots.lead.head? =
      if e.iseq.disp.en0 (e.dispIn i) then some (e.iseq.disp.instr0 (e.dispIn i)) else none := by
  unfold slots Dispatcher.en0 Dispatcher.instr0
  cases e.iseq.disp.instrSrcR
  · exact h.pipe0.head?
  · exact h.pipe1.head?

theorem trail_head? :
    e.slots.trail.head? =
      if e.iseq.disp.en1 (e.dispIn i) then some (e.iseq.disp.instr1 (e.dispIn i)) else none := by
  unfold slots Dispatcher.en1 Dispatcher.instr1
  cases e.iseq.disp.instrSrcR
  · exact h.pipe1.head?
  · exact h.pipe0.head?

/-- Slot `0` issues what the machine's slot `0` does. -/
theorem issue0_refines : e.iseq.disp.issue0 (e.dispIn i) = e.slots.issue0 i.dfiReady := by
  have hw : e.iseq.disp.waitCyclesR ≤ 1#10 ↔ e.slots.wait ≤ 1 := BitVec.le_def
  rw [Slots.issue0, lead_head? h (i := i), Dispatcher.issue0]
  by_cases hr : i.dfiReady = true <;> by_cases hl : e.slots.wait ≤ 1 <;>
    simp [IseqDispatcher.dispIn, hr, hw, hl]

/-- And slot `1`. -/
theorem issue1_refines : e.iseq.disp.issue1 (e.dispIn i) = e.slots.issue1 waitOf i.dfiReady := by
  have hw : e.iseq.disp.waitCyclesR ≤ 2#10 ↔ e.slots.wait ≤ 2 := BitVec.le_def
  have hb : (e.iseq.disp.issue0 (e.dispIn i)).any Dispatcher.blocks =
      e.slots.blocked waitOf i.dfiReady := by
    rw [issue0_refines h, Slots.blocked]
    cases e.slots.issue0 i.dfiReady with
    | none => rfl
    | some w => exact Dispatcher.blocks_eq w
  rw [Slots.issue1, trail_head? h (i := i), Dispatcher.issue1_eq, hb]
  by_cases hr : i.dfiReady = true <;> by_cases hl : e.slots.wait ≤ 2 <;>
    cases e.slots.blocked waitOf i.dfiReady <;> simp [IseqDispatcher.dispIn, hr, hw, hl]

theorem events_refines (t : ℕ) : e.events t i = e.slots.events waitOf i.dfiReady t := by
  rw [events, Slots.events, issue0_refines h, issue1_refines h]

end Heads

/-- The head of a queue of positive waits is one. -/
theorem PosWaits.issue0 (hp : e.PosWaits) (h : e.Flowing) {w : Instr}
    (hw : e.iseq.disp.issue0 (e.dispIn i) = some w) {n : ℕ} (hn : waitOf w = some n) : 0 < n := by
  have hmem : w ∈ e.slots.lead := by
    rw [issue0_refines h, Slots.issue0] at hw
    split at hw
    · exact List.mem_of_head? hw
    · cases hw
  unfold slots at hmem
  cases hs : e.iseq.disp.instrSrcR
  · rw [hs] at hmem; exact hp.1 w hmem n hn
  · rw [hs] at hmem; exact hp.2 w hmem n hn

/-- What is left of a queue once its head has been taken or not. -/
theorem eq_tail_of_toList {α : Type} {o : Option α} {l l' : List α} (h : l = o.toList ++ l') :
    l' = if o.isSome then l.tail else l := by
  subst h
  cases o <;> rfl

/-- The queues a cycle leaves, by the slot that takes from them. -/
theorem contents_next (h : e.Flowing) (hw0 : i.wr0 = none) (hw1 : i.wr1 = none) :
    (Exec.next D e i).content0 =
        (if e.iseq.disp.instrSrcR then e.slots.trail' waitOf i.dfiReady
          else e.slots.lead' i.dfiReady) ∧
      (Exec.next D e i).content1 =
        (if e.iseq.disp.instrSrcR then e.slots.lead' i.dfiReady
          else e.slots.trail' waitOf i.dfiReady) := by
  obtain ⟨hc0, hc1⟩ := contents_of_no_write (D := D) h.sound hw0 hw1
  rw [eq_tail_of_toList hc0, eq_tail_of_toList hc1, taken0, taken1, Dispatcher.taken0,
    Dispatcher.taken1, issue0_refines h, issue1_refines h]
  unfold Slots.lead' Slots.trail' slots
  cases e.iseq.disp.instrSrcR <;> exact ⟨rfl, rfl⟩

/-- The queues by the flag. Where it falls back to the first queue both
are empty. -/
theorem slots_queues {e' : Exec} {l r : List Instr} {src swap valid : Bool}
    (h0 : e'.content0 = if src then r else l) (h1 : e'.content1 = if src then l else r)
    (hsrc : e'.iseq.disp.instrSrcR = if swap then !src else if !valid then false else src)
    (hempty : valid = false → l = [] ∧ r = []) :
    e'.slots.lead = (if swap then r else l) ∧ e'.slots.trail = (if swap then l else r) := by
  unfold slots
  rw [h0, h1, hsrc]
  cases swap with
  | true => cases src <;> exact ⟨rfl, rfl⟩
  | false =>
    cases valid with
    | true => cases src <;> exact ⟨rfl, rfl⟩
    | false => obtain ⟨rfl, rfl⟩ := hempty rfl; cases src <;> exact ⟨rfl, rfl⟩

/-- A busy cycle is one cycle of the two-slot machine, unless slot `0`
issues a WAIT of zero. -/
theorem slots_next_of_pos (h : e.Flowing)
    (hpos : ∀ w, e.slots.issue0 i.dfiReady = some w → ∀ n, waitOf w = some n → 0 < n)
    (hw0 : i.wr0 = none) (hw1 : i.wr1 = none) :
    (Exec.next D e i).slots = e.slots.next waitOf i.dfiReady := by
  have hwait : (Exec.next D e i).slots.wait = e.slots.nextWait waitOf i.dfiReady := by
    rw [← issue0_refines h] at hpos
    rw [Slots.nextWait, ← issue0_refines h, ← issue1_refines h]
    exact Dispatcher.toNat_waitCyclesR_next_of_pos hpos
  have hsrc : (Exec.next D e i).iseq.disp.instrSrcR =
      if e.slots.swaps waitOf i.dfiReady then !e.iseq.disp.instrSrcR
      else if !(e.iseq.instr0Reg.rValid1 || e.iseq.instr1Reg.rValid1) then false
      else e.iseq.disp.instrSrcR := by
    -- a WAIT of even count swaps the queues that feed the slots
    have heven : ∀ o : Option Instr,
        (o.bind waitOf).any (· % 2 = 0) = o.any Dispatcher.evenWait := by
      intro o
      cases o with
      | none => rfl
      | some w => exact (Dispatcher.evenWait_eq w).symm
    rw [Slots.swaps, ← issue0_refines h, ← issue1_refines h, heven, heven]
    exact Dispatcher.instrSrcR_next
  obtain ⟨hn0, hn1⟩ := contents_next (D := D) h hw0 hw1
  have hempty : (e.iseq.instr0Reg.rValid1 || e.iseq.instr1Reg.rValid1) = false →
      e.slots.lead' i.dfiReady = [] ∧ e.slots.trail' waitOf i.dfiReady = [] := by
    intro hv
    obtain ⟨hv0, hv1⟩ := Bool.or_eq_false_iff.1 hv
    have hl : e.slots.lead = [] ∧ e.slots.trail = [] := by
      have h0 : e.content0 = [] := h.pipe0.valid_iff.1 hv0
      have h1 : e.content1 = [] := h.pipe1.valid_iff.1 hv1
      unfold slots
      cases e.iseq.disp.instrSrcR <;> simp [h0, h1]
    unfold Slots.lead' Slots.trail'
    rw [hl.1, hl.2]
    simp
  have hqueues := slots_queues hn0 hn1 hsrc hempty
  rw [Slots.next, ← hwait, ← hqueues.1, ← hqueues.2]

/-- **One busy cycle is one cycle of the two-slot machine.** -/
theorem slots_next (h : e.Flowing) (hp : e.PosWaits) (hw0 : i.wr0 = none) (hw1 : i.wr1 = none) :
    (Exec.next D e i).slots = e.slots.next waitOf i.dfiReady :=
  slots_next_of_pos h (fun _ hw _ hn => hp.issue0 h ((issue0_refines h).trans hw) hn) hw0 hw1

/-- Without a word on display the two-slot machine only counts down. -/
theorem idle_next (h0 : e.iseq.instr0Reg.rValid1 = false) (h1 : e.iseq.instr1Reg.rValid1 = false)
    (t : ℕ) :
    e.events t i = [] ∧
      (Exec.next D e i).iseq.disp.waitCyclesR.toNat = e.iseq.disp.waitCyclesR.toNat - 2 ∧
      (Exec.next D e i).iseq.disp.instrSrcR = false := by
  obtain ⟨hi0, hi1⟩ := Dispatcher.issue_of_empty (s := e.iseq.disp) (i := e.dispIn i) h0 h1
  refine ⟨by simp [events, hi0, hi1], Dispatcher.next_of_empty h0 h1⟩

/-- And both queues stay as they are. -/
theorem contents_of_not_valid (hs : e.Sound) (hw0 : i.wr0 = none) (hw1 : i.wr1 = none)
    (h0 : e.iseq.instr0Reg.rValid1 = false) (h1 : e.iseq.instr1Reg.rValid1 = false) :
    (Exec.next D e i).content0 = e.content0 ∧ (Exec.next D e i).content1 = e.content1 := by
  obtain ⟨hc0, hc1⟩ := contents_of_no_write (D := D) hs hw0 hw1
  rw [toList_taken0, h0] at hc0
  rw [toList_taken1, h1] at hc1
  exact ⟨hc0.symm, hc1.symm⟩

/-! ## What the counter permits, in any cycle -/

theorem mem_events {t k : ℕ} {w : Instr} :
    (k, w) ∈ e.events t i ↔
      (k = 2 * t ∧ e.iseq.disp.issue0 (e.dispIn i) = some w) ∨
        (k = 2 * t + 1 ∧ e.iseq.disp.issue1 (e.dispIn i) = some w) := by
  simp only [events, List.mem_append, List.mem_map, Option.mem_toList, Prod.mk.injEq,
    eq_comm (a := k)]
  constructor
  · rintro (⟨a, ha, hk, rfl⟩ | ⟨a, ha, hk, rfl⟩)
    · exact Or.inl ⟨hk, ha⟩
    · exact Or.inr ⟨hk, ha⟩
  · rintro (⟨hk, ha⟩ | ⟨hk, ha⟩)
    · exact Or.inl ⟨w, ha, hk, rfl⟩
    · exact Or.inr ⟨w, ha, hk, rfl⟩

/-- Nothing is issued before the counter permits it. -/
theorem due_le_of_event {t k : ℕ} {w : Instr} (h : (k, w) ∈ e.events t i) : e.slots.due t ≤ k := by
  change 2 * t + (e.iseq.disp.waitCyclesR.toNat - 1) ≤ k
  rcases mem_events.1 h with ⟨rfl, hi⟩ | ⟨rfl, hi⟩
  · have hle : e.iseq.disp.waitCyclesR.toNat ≤ 1 :=
      BitVec.le_def.1 (Dispatcher.issue0_eq_some hi).2.1
    omega
  · have hle : e.iseq.disp.waitCyclesR.toNat ≤ 2 :=
      BitVec.le_def.1 (Dispatcher.issue1_eq_some hi).2.2.1
    omega

/-- **What is permitted never comes closer**, whatever is issued. -/
theorem due_mono (t : ℕ) : e.slots.due t ≤ (Exec.next D e i).slots.due (t + 1) := by
  change 2 * t + (e.iseq.disp.waitCyclesR.toNat - 1) ≤
    2 * (t + 1) + ((Exec.next D e i).iseq.disp.waitCyclesR.toNat - 1)
  have hnext : (Exec.next D e i).iseq.disp.waitCyclesR.toNat = _ :=
    Dispatcher.toNat_waitCyclesR_next (s := e.iseq.disp) (i := e.dispIn i)
  cases h1 : e.iseq.disp.issue1 (e.dispIn i) with
  | some w =>
    have hle : e.iseq.disp.waitCyclesR.toNat ≤ 2 :=
      BitVec.le_def.1 (Dispatcher.issue1_eq_some h1).2.2.1
    omega
  | none =>
    cases h0 : e.iseq.disp.issue0 (e.dispIn i) with
    | some w =>
      have hle : e.iseq.disp.waitCyclesR.toNat ≤ 1 :=
        BitVec.le_def.1 (Dispatcher.issue0_eq_some h0).2.1
      omega
    | none =>
      rw [h0, h1] at hnext
      have hdown : (Exec.next D e i).iseq.disp.waitCyclesR.toNat =
          e.iseq.disp.waitCyclesR.toNat - 2 := hnext
      omega

end Exec

end SoftMC
