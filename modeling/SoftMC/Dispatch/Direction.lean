import SoftMC.Dispatch.Data
import SoftMC.Dispatch.Reads
/-!
# The direction a dispatch leaves

A dispatch under stalls may exchange neighbours, so the direction it leaves
is not simply the last one of its program. Two kinds of queues leave a known
one: those in which every SET_BUSDIR left sets it, and those that open with
a switch to reading and close with one to writing, too far apart for a stall
to exchange them.
-/

namespace SoftMC

open Dispatcher

/-- The direction a SET_BUSDIR sets, writing or not. -/
def setsDir (w : Instr) : Option Bool :=
  if opcode w = .setBusdir then some (decide (busDir w = BUS_DIR_WRITE)) else none

theorem dirAfter_eq (o : Option Instr) (dir : Bool) :
    dirAfter o dir = (o.bind setsDir).getD dir := by
  cases o with
  | none => rfl
  | some w => by_cases h : opcode w = .setBusdir <;> simp [dirAfter, setsDir, h]

/-- A slot that sets nothing else keeps the direction. -/
theorem dirAfter_of_only {o : Option Instr} {dir : Bool}
    (h : ∀ w, o = some w → ∀ d, setsDir w = some d → d = dir) : dirAfter o dir = dir := by
  rw [dirAfter_eq]
  cases o with
  | none => rfl
  | some w =>
    cases hd : setsDir w with
    | none => rw [Option.bind_some, hd, Option.getD_none]
    | some d => rw [Option.bind_some, hd, Option.getD_some, h w rfl d hd]

theorem dirAfter_of_sets {w : Instr} {dir : Bool} (h : setsDir w = some dir) (dir' : Bool) :
    dirAfter (some w) dir' = dir := by
  rw [dirAfter_eq, Option.bind_some, h, Option.getD_some]

namespace Exec

variable {D : Option ℕ} {e : Exec} {i : In} {dir : Bool}

/-- The direction the dispatcher holds, one cycle on. -/
theorem busWriteR_next :
    (Exec.next D e i).iseq.disp.busWriteR =
      dirAfter (e.iseq.disp.issue1 (e.dispIn i))
        (dirAfter (e.iseq.disp.issue0 (e.dispIn i)) e.iseq.disp.busWriteR) :=
  Dispatcher.busWriteR_next

/-- A word left to take is issued or still left. -/
theorem issued_or_left (hs : e.Sound) (hw0 : i.wr0 = none) (hw1 : i.wr1 = none) {w : Instr}
    (h : w ∈ e.content0 ∨ w ∈ e.content1) :
    (e.iseq.disp.issue0 (e.dispIn i) = some w ∨ e.iseq.disp.issue1 (e.dispIn i) = some w) ∨
      (w ∈ (Exec.next D e i).content0 ∨ w ∈ (Exec.next D e i).content1) := by
  obtain ⟨hc0, hc1⟩ := contents_of_no_write (D := D) hs hw0 hw1
  have htaken : ∀ {o : Option Instr} {l l' : List Instr}, l = o.toList ++ l' → w ∈ l →
      o = some w ∨ w ∈ l' := by
    intro o l l' hl hw
    rw [hl, List.mem_append, Option.mem_toList] at hw
    exact hw
  have hissued : e.taken0 i = some w ∨ e.taken1 i = some w →
      e.iseq.disp.issue0 (e.dispIn i) = some w ∨ e.iseq.disp.issue1 (e.dispIn i) = some w := by
    unfold taken0 taken1 Dispatcher.taken0 Dispatcher.taken1
    cases e.iseq.disp.instrSrcR
    · exact id
    · exact Or.symm
  rcases h with h | h
  · rcases htaken hc0 h with h | h
    · exact Or.inl (hissued (Or.inl h))
    · exact Or.inr (Or.inl h)
  · rcases htaken hc1 h with h | h
    · exact Or.inl (hissued (Or.inr h))
    · exact Or.inr (Or.inr h)

/-! ## Queues that set one direction only -/

/-- **The direction settles**: nothing left sets another, and it is set or
will be. -/
structure Settles (e : Exec) (dir : Bool) : Prop where
  only : ∀ w, w ∈ e.content0 ∨ w ∈ e.content1 → ∀ d, setsDir w = some d → d = dir
  pending : e.iseq.disp.busWriteR = dir ∨
    ∃ w, (w ∈ e.content0 ∨ w ∈ e.content1) ∧ setsDir w = some dir

/-- A cycle without writes goes on settling. -/
theorem Settles.next (h : e.Settles dir) (hs : e.Sound) (hw0 : i.wr0 = none)
    (hw1 : i.wr1 = none) : (Exec.next D e i).Settles dir where
  only w hw d hd := h.only w (mem_contents_of_no_write hs hw0 hw1 hw) d hd
  pending := by
    have hkeep0 : dirAfter (e.iseq.disp.issue0 (e.dispIn i)) dir = dir :=
      dirAfter_of_only fun w hw => h.only w (mem_of_issue (Or.inl hw))
    have hkeep1 : dirAfter (e.iseq.disp.issue1 (e.dispIn i)) dir = dir :=
      dirAfter_of_only fun w hw => h.only w (mem_of_issue (Or.inr hw))
    rw [busWriteR_next]
    rcases h.pending with hdir | ⟨w, hw, hset⟩
    · left
      rw [hdir, hkeep0, hkeep1]
    · rcases issued_or_left (D := D) hs hw0 hw1 hw with (hi | hi) | hleft
      · left
        rw [hi, dirAfter_of_sets hset, hkeep1]
      · left
        rw [hi, dirAfter_of_sets hset]
      · exact Or.inr ⟨w, hleft, hset⟩

/-- With nothing left it is settled. -/
theorem Settles.settled (h : e.Settles dir) (h0 : e.content0 = []) (h1 : e.content1 = []) :
    e.iseq.disp.busWriteR = dir := by
  rcases h.pending with hdir | ⟨w, hw, -⟩
  · exact hdir
  · rw [h0, h1] at hw
    rcases hw with hw | hw <;> cases hw

/-! ## Queues that switch to reading and back -/

/-- **A switch is ahead**: the first queue opens with a switch to reading,
the second ends with one to writing, and slot `1` may run ahead of slot `0`
by one instruction at most. -/
structure Switching (e : Exec) : Prop where
  src : e.iseq.disp.instrSrcR = false
  queue0 : ∃ a l, e.content0 = a :: l ∧ setsDir a = some false ∧ ∀ w ∈ l, setsDir w = none
  queue1 : ∃ v l b, e.content1 = v :: l ++ [b] ∧ setsDir b = some true ∧
    (∀ w ∈ v :: l, setsDir w = none) ∧
    (e.iseq.disp.waitCyclesR.toNat ≤ 1 ∨ (l ≠ [] ∧ opcode v ≠ .wait))

/-- The counter of a cycle that issues no WAIT. -/
theorem waitCyclesR_next_of_not (h0 : e.iseq.disp.issue0 (e.dispIn i) = none)
    (h1 : (e.iseq.disp.issue1 (e.dispIn i)).bind waitOf = none) :
    (Exec.next D e i).iseq.disp.waitCyclesR.toNat = e.iseq.disp.waitCyclesR.toNat - 2 := by
  refine (Dispatcher.toNat_waitCyclesR_next (s := e.iseq.disp) (i := e.dispIn i)).trans ?_
  rw [h1, h0]
  rfl

/-- And its source flag, the first queue leading. -/
theorem instrSrcR_next_of_not (hsrc : e.iseq.disp.instrSrcR = false)
    (h0 : e.iseq.disp.issue0 (e.dispIn i) = none)
    (h1 : (e.iseq.disp.issue1 (e.dispIn i)).bind waitOf = none) :
    (Exec.next D e i).iseq.disp.instrSrcR = false := by
  have heven : (e.iseq.disp.issue1 (e.dispIn i)).any evenWait = false := by
    cases h : e.iseq.disp.issue1 (e.dispIn i) with
    | none => rfl
    | some w =>
      rw [h, Option.bind_some] at h1
      rw [Option.any_some, evenWait_eq, h1]
      rfl
  refine (Dispatcher.instrSrcR_next (s := e.iseq.disp) (i := e.dispIn i)).trans ?_
  rw [h0, heven, hsrc, Option.any_none]
  simp

/-- Slot `1` issues beside a word on display for slot `0` only at a residue
of two. -/
theorem wait_eq_two_of_issue1 {w : Instr} (hen0 : e.iseq.disp.en0 (e.dispIn i) = true)
    (h0 : e.iseq.disp.issue0 (e.dispIn i) = none)
    (h1 : e.iseq.disp.issue1 (e.dispIn i) = some w) : e.iseq.disp.waitCyclesR.toNat = 2 := by
  obtain ⟨-, hready, hle, -, -⟩ := issue1_eq_some h1
  have hle' : e.iseq.disp.waitCyclesR.toNat ≤ 2 := BitVec.le_def.1 hle
  have hgt : ¬ e.iseq.disp.waitCyclesR.toNat ≤ 1 := by
    intro hone
    have hone' : e.iseq.disp.waitCyclesR ≤ 1#10 := BitVec.le_def.2 hone
    rw [issue0, hready, hen0, decide_eq_true hone'] at h0
    cases h0
  omega

/-- Queues that set no direction but the last one, to writing. -/
theorem settles_of_queues {l0 l1 : List Instr} {b : Instr} (h0 : e.content0 = l0)
    (h1 : e.content1 = l1 ++ [b]) (hl0 : ∀ w ∈ l0, setsDir w = none)
    (hl1 : ∀ w ∈ l1, setsDir w = none) (hb : setsDir b = some true) : e.Settles true := by
  refine ⟨fun w hw d hd => ?_, Or.inr ⟨b, Or.inr ?_, hb⟩⟩
  · rw [h0, h1, List.mem_append, List.mem_singleton] at hw
    rcases hw with hw | hw | rfl
    · rw [hl0 w hw] at hd; cases hd
    · rw [hl1 w hw] at hd; cases hd
    · rw [hb] at hd; exact (Option.some.inj hd).symm
  · rw [h1]
    exact List.mem_append_right _ (List.mem_singleton_self b)

/-- **A cycle switches to reading, or the switch is still ahead.** -/
theorem Switching.next (h : e.Switching) (hs : e.Sound) (hw0 : i.wr0 = none) (hw1 : i.wr1 = none)
    (hshow : (e.iseq.instr0Reg.rValid1 = false ∧ e.iseq.instr1Reg.rValid1 = false) ∨ e.Flowing) :
    (Exec.next D e i).Switching ∨ (Exec.next D e i).Settles true := by
  obtain ⟨hsrc, ⟨a, l0, hq0, ha, hl0⟩, ⟨v, l, b, hq1, hb, hl, hguard⟩⟩ := h
  obtain ⟨hc0, hc1⟩ := contents_of_no_write (D := D) hs hw0 hw1
  have ht0 : e.taken0 i = e.iseq.disp.issue0 (e.dispIn i) := by
    rw [taken0, Dispatcher.taken0, hsrc, if_neg Bool.false_ne_true]
  have ht1 : e.taken1 i = e.iseq.disp.issue1 (e.dispIn i) := by
    rw [taken1, Dispatcher.taken1, hsrc, if_neg Bool.false_ne_true]
  rw [hq0, ht0] at hc0
  rw [hq1, ht1] at hc1
  cases h0 : e.iseq.disp.issue0 (e.dispIn i) with
  | some w =>
    -- slot `0` has switched; slot `1` has not come to the switch back
    right
    rw [h0] at hc0
    have hq0' : (Exec.next D e i).content0 = l0 := (List.cons.inj hc0).2.symm
    cases h1 : e.iseq.disp.issue1 (e.dispIn i) with
    | none =>
      rw [h1] at hc1
      exact settles_of_queues hq0' hc1.symm hl0 hl hb
    | some w' =>
      rw [h1] at hc1
      exact settles_of_queues hq0' (List.cons.inj hc1).2.symm hl0
        (fun w hw => hl w (List.mem_cons_of_mem _ hw)) hb
  | none =>
    left
    rw [h0] at hc0
    have hq0' : (Exec.next D e i).content0 = a :: l0 := hc0.symm
    cases h1 : e.iseq.disp.issue1 (e.dispIn i) with
    | none =>
      rw [h1] at hc1
      have hw : (e.iseq.disp.issue1 (e.dispIn i)).bind waitOf = none := by rw [h1]; rfl
      refine ⟨instrSrcR_next_of_not hsrc h0 hw, ⟨a, l0, hq0', ha, hl0⟩,
        ⟨v, l, b, hc1.symm, hb, hl, ?_⟩⟩
      rw [waitCyclesR_next_of_not h0 hw]
      exact hguard.imp_left fun h => by omega
    | some w =>
      rcases hshow with ⟨hv0, hv1⟩ | hflow
      · rw [(issue_of_empty (s := e.iseq.disp) (i := e.dispIn i) hv0 hv1).2] at h1
        cases h1
      -- slot `0` shows the switch, so only a residue of two opens slot `1` alone
      have hen0 : e.iseq.disp.en0 (e.dispIn i) = true := by
        have hne : e.content0 ≠ [] := by rw [hq0]; exact List.cons_ne_nil a l0
        rw [en0, hsrc, if_neg Bool.false_ne_true]
        by_contra hv
        exact hne (hflow.pipe0.valid_iff.1 (Bool.not_eq_true _ ▸ hv))
      have htwo := wait_eq_two_of_issue1 hen0 h0 h1
      obtain ⟨hne, hop⟩ := hguard.resolve_left (by omega)
      rw [h1] at hc1
      obtain ⟨rfl, hl'⟩ := List.cons.inj hc1
      have hw : (e.iseq.disp.issue1 (e.dispIn i)).bind waitOf = none := by
        rw [h1, Option.bind_some, waitOf_of_ne hop]
      obtain ⟨v', t, rfl⟩ := List.exists_cons_of_ne_nil hne
      refine ⟨instrSrcR_next_of_not hsrc h0 hw, ⟨a, l0, hq0', ha, hl0⟩,
        ⟨v', t, b, hl'.symm, hb, fun w hw => hl w (List.mem_cons_of_mem _ hw), Or.inl ?_⟩⟩
      rw [waitCyclesR_next_of_not h0 hw]
      omega

end Exec

end SoftMC
