import SoftMC.Dispatch.Queue
import SoftMC.Dispatch.Data
/-!
# Reads on their way through the dispatcher

A READ is recognised when a slot acts on it with the clock enabled, and is
acknowledged a cycle later. Without writes the reads left in the queues
only fall, by those acknowledged.
-/

namespace SoftMC

open Dispatcher

/-! ## The reads left to issue -/

namespace Exec

/-- The reads among the words left to take. -/
def readsLeft (e : Exec) : ℕ := e.content0.countP isRead + e.content1.countP isRead

variable {D : Option ℕ} {e : Exec} {i : In}

theorem readsLeft_pos {w : Instr} (hw : w ∈ e.content0 ∨ w ∈ e.content1) (hr : isRead w = true) :
    0 < e.readsLeft := by
  unfold readsLeft
  rcases hw with hw | hw
  · have := List.countP_pos_iff.2 ⟨w, hw, hr⟩
    omega
  · have := List.countP_pos_iff.2 ⟨w, hw, hr⟩
    omega

/-- A word issued is one of those left to take. -/
theorem mem_of_issue {w : Instr}
    (h : e.iseq.disp.issue0 (e.dispIn i) = some w ∨ e.iseq.disp.issue1 (e.dispIn i) = some w) :
    w ∈ e.content0 ∨ w ∈ e.content1 := by
  have hmem : ∀ {p : PipeReg Instr} {q : List Instr}, p.rValid1 = true ∧ p.rData1 = w →
      w ∈ p.held ++ q := by
    rintro p q ⟨hv, rfl⟩
    simp [PipeReg.held, hv]
  have htaken : e.taken0 i = some w ∨ e.taken1 i = some w := by
    unfold taken0 taken1 Dispatcher.taken0 Dispatcher.taken1
    cases e.iseq.disp.instrSrcR
    · exact h
    · exact h.symm
  exact htaken.imp (fun h => hmem (Dispatcher.taken0_eq_some h))
    fun h => hmem (Dispatcher.taken1_eq_some h)

/-- The reads recognised, where the clock is enabled. -/
theorem reads_eq (h0 : e.iseq.disp.cke0R = true) (h1 : e.iseq.disp.cke1R = true) :
    (e.iseq.disp.reads0 (e.dispIn i) || e.iseq.disp.reads1 (e.dispIn i)) =
      ((e.taken0 i).any isRead || (e.taken1 i).any isRead) := by
  unfold reads0 reads1 taken0 taken1 Dispatcher.taken0 Dispatcher.taken1
  simp only [h0, h1, Bool.and_true]
  cases e.iseq.disp.instrSrcR
  · rfl
  · exact Bool.or_comm _ _

/-- The acknowledgment of the next cycle. -/
theorem prRdAckR_next :
    (Exec.next D e i).iseq.disp.prRdAckR =
      (e.iseq.disp.reads0 (e.dispIn i) || e.iseq.disp.reads1 (e.dispIn i)) :=
  congrArg Command.prRdAckNs (comb_command (s := e.iseq.disp) (i := e.dispIn i))

/-- **A cycle without writes acknowledges a read and leaves fewer, or
neither.** -/
theorem readsLeft_next (hs : e.Sound) (hw0 : i.wr0 = none) (hw1 : i.wr1 = none)
    (h0 : e.iseq.disp.cke0R = true) (h1 : e.iseq.disp.cke1R = true) :
    ((Exec.next D e i).iseq.disp.prRdAckR = false ∧
        (Exec.next D e i).readsLeft = e.readsLeft) ∨
      ((Exec.next D e i).iseq.disp.prRdAckR = true ∧
        (Exec.next D e i).readsLeft < e.readsLeft) := by
  obtain ⟨hc0, hc1⟩ := contents_of_no_write (D := D) hs hw0 hw1
  have hl0 := congrArg (List.countP isRead) hc0
  have hl1 := congrArg (List.countP isRead) hc1
  rw [List.countP_append] at hl0 hl1
  have hcount : ∀ o : Option Instr, o.toList.countP isRead = (o.any isRead).toNat := by
    intro o
    cases o with
    | none => rfl
    | some w => cases h : isRead w <;> simp [h]
  rw [hcount] at hl0 hl1
  rw [prRdAckR_next, reads_eq h0 h1]
  unfold readsLeft
  cases ha : (e.taken0 i).any isRead <;> cases hb : (e.taken1 i).any isRead
  · left
    rw [ha] at hl0; rw [hb] at hl1
    exact ⟨rfl, by simp only [Bool.toNat_false] at hl0 hl1; omega⟩
  all_goals
    right
    rw [ha] at hl0; rw [hb] at hl1
    refine ⟨rfl, ?_⟩
    simp only [Bool.toNat_false, Bool.toNat_true] at hl0 hl1
    omega

/-- The clock stays enabled as long as every command enables it. -/
theorem cke_next (hw : ∀ w, w ∈ e.content0 ∨ w ∈ e.content1 → opcode w = .ddr → ckeBit w = true)
    (h0 : e.iseq.disp.cke0R = true) (h1 : e.iseq.disp.cke1R = true) :
    (Exec.next D e i).iseq.disp.cke0R = true ∧ (Exec.next D e i).iseq.disp.cke1R = true := by
  constructor
  · refine (cke0R_next (s := e.iseq.disp) (i := e.dispIn i)).trans ?_
    rw [h0]
    exact ckeAfter_of_enabled fun w h hd => hw w (mem_of_issue (Or.inl h)) (of_decide_eq_true hd)
  · refine (cke1R_next (s := e.iseq.disp) (i := e.dispIn i)).trans ?_
    rw [h1]
    exact ckeAfter_of_enabled fun w h hd => hw w (mem_of_issue (Or.inr h)) (of_decide_eq_true hd)

end Exec

end SoftMC
