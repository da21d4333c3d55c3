import SoftMC.Dispatch.Queue
/-!
# `pipe_reg` is a two-entry FIFO

The ready output of the stage is a register, so the producer learns of a
stall one cycle late, and the word of that cycle goes to the second
register. The stage alone is followed here, with any producer and any
consumer, from either value of `r_ready` that a reset leaves.
-/

namespace SoftMC

open Clocked

namespace PipeReg

/-- The inputs of one cycle. -/
structure In (α : Type) where
  readyIn : Bool
  validIn : Bool
  dataIn : α

variable {α : Type} {p : PipeReg α}

theorem held_length_le (p : PipeReg α) : p.held.length ≤ 2 := by
  rw [held]
  split
  · split <;> simp
  · simp

/-- What the stage shows is the first word it holds. -/
theorem held_head? (p : PipeReg α) :
    p.held.head? = if p.validOut then some p.dataOut else none := by
  rw [held, validOut, dataOut]
  split <;> rfl

variable [Inhabited α] {readyIn validIn : Bool} {dataIn : α}

/-- **A word that is not taken stays.** -/
theorem stays (hvalid : p.validOut = true) (hready : readyIn = false) :
    (next false readyIn validIn dataIn p).validOut = true ∧
      (next false readyIn validIn dataIn p).dataOut = p.dataOut := by
  have hfull : p.firstBufReady readyIn = false := by
    rw [firstBufReady, hready, show p.rValid1 = true from hvalid]
    rfl
  rw [next, if_neg Bool.false_ne_true, hfull, hready]
  split
  · exact ⟨hvalid, rfl⟩
  · exact ⟨hvalid, rfl⟩

/-- A consumer that takes makes the stage ready. -/
theorem readyOut_next (hready : readyIn = true) :
    (next false readyIn validIn dataIn p).readyOut = true := by
  rw [next, if_neg Bool.false_ne_true, firstBufReady, hready]
  split <;> rfl

/-- And then the word offered is the next one shown. -/
theorem validOut_next (hready : readyIn = true) (hp : p.readyOut = true) :
    (next false readyIn validIn dataIn p).validOut = validIn := by
  rw [next, if_neg Bool.false_ne_true, firstBufReady, hready, if_pos hp]
  rfl

end PipeReg

/-! ## Over a run -/

/-- **A run of the stage** from any registers a reset leaves. -/
structure StageRun (α : Type) where
  start : PipeReg α
  valid1 : start.rValid1 = false
  valid2 : start.rValid2 = false
  wave : ℕ → PipeReg.In α

namespace StageRun

variable {α : Type} [Inhabited α] (r : StageRun α)

/-- The registers at the start of cycle `n`. -/
def state (n : ℕ) : PipeReg α :=
  run (fun p (i : PipeReg.In α) => PipeReg.next false i.readyIn i.validIn i.dataIn p) r.start
    r.wave n

/-- The words accepted and those delivered before cycle `n`. -/
def accepted (n : ℕ) : List α :=
  trace (fun k => if (r.state k).readyOut && (r.wave k).validIn then [(r.wave k).dataIn] else []) n
def delivered (n : ℕ) : List α :=
  trace (fun k => if (r.state k).validOut && (r.wave k).readyIn then [(r.state k).dataOut] else [])
    n

/-- **A two-entry FIFO**: what is accepted is what is delivered and what is
held, in this order; the word shown is the first one held, and stays until
it is taken; and nothing is lost in time either. -/
structure TwoEntryFifo : Prop where
  order : ∀ n, r.accepted n = r.delivered n ++ (r.state n).held
  bounded : ∀ n, (r.state n).held.length ≤ 2
  shown : ∀ n, (r.state n).held.head? =
    if (r.state n).validOut then some (r.state n).dataOut else none
  stable : ∀ n, (r.state n).validOut = true → (r.wave n).readyIn = false →
    (r.state (n + 1)).validOut = true ∧ (r.state (n + 1)).dataOut = (r.state n).dataOut
  flows : (∀ n, (r.wave n).validIn = true) → (∀ n, (r.wave n).readyIn = true) →
    ∀ n, 2 ≤ n → ∃ x, r.delivered (n + 1) = r.delivered n ++ [x]

variable {r}

theorem sound (n : ℕ) : (r.state n).Sound := by
  induction n with
  | zero => exact fun _ _ => r.valid2
  | succ n ih => exact ih.next

theorem order (n : ℕ) : r.accepted n = r.delivered n ++ (r.state n).held := by
  have hstart : (r.state 0).held = [] := by
    rw [PipeReg.held, state, run_zero, r.valid1]
    rfl
  rw [accepted, delivered,
    ← trace_conserved (q := fun k => (r.state k).held) (fun k => PipeReg.held_next (sound k)) n,
    hstart, List.nil_append]

/-- With a consumer that always takes the stage is ready from the first
cycle on, and with a producer that always offers it shows a word from the
second on. -/
theorem validOut_of_flow (hvalid : ∀ n, (r.wave n).validIn = true)
    (hready : ∀ n, (r.wave n).readyIn = true) (n : ℕ) : (r.state (n + 2)).validOut = true :=
  (PipeReg.validOut_next (hready (n + 1)) (PipeReg.readyOut_next (hready n))).trans (hvalid (n + 1))

theorem twoEntryFifo (r : StageRun α) : r.TwoEntryFifo where
  order := order
  bounded n := PipeReg.held_length_le _
  shown n := PipeReg.held_head? _
  stable n hvalid hready := PipeReg.stays hvalid hready
  flows hvalid hready n hn := by
    obtain ⟨m, rfl⟩ := Nat.exists_eq_add_of_le' hn
    refine ⟨(r.state (m + 2)).dataOut, ?_⟩
    rw [delivered, trace_succ, validOut_of_flow hvalid hready, hready]
    rfl

end StageRun

end SoftMC
