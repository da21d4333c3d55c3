import Mathlib.Tactic.Common
/-!
# `pipe_reg`, and the generated FIFOs

`pipe_reg` is a two-entry skid buffer whose ready output is registered.
The FIFOs in front of it are generated IP: a first-word-fall-through
queue of a given depth that discards a write while full. They are
modelled by that documented behaviour, with `none` for the depth of an
ideal FIFO that never fills.
-/

namespace SoftMC

variable {α : Type}

/-- The registers of `pipe_reg`. -/
structure PipeReg (α : Type) where
  rReady : Bool
  rValid1 : Bool
  rValid2 : Bool
  rData1 : α
  rData2 : α
  deriving DecidableEq, Repr

namespace PipeReg

variable (p : PipeReg α)

def firstBufReady (readyIn : Bool) : Bool := readyIn || !p.rValid1

abbrev dataOut : α := p.rData1
abbrev validOut : Bool := p.rValid1
abbrev readyOut : Bool := p.rReady

/-- The clock edge. `r_ready` is assigned after, and so also during,
reset. -/
def next [Inhabited α] (rst readyIn validIn : Bool) (dataIn : α) (p : PipeReg α) : PipeReg α :=
  if rst then
    { rReady := p.firstBufReady readyIn, rValid1 := false, rValid2 := false,
      rData1 := default, rData2 := default }
  else if p.rReady then
    if p.firstBufReady readyIn then
      { p with rData1 := dataIn, rValid1 := validIn, rReady := p.firstBufReady readyIn }
    else
      { p with rData2 := dataIn, rValid2 := validIn, rReady := p.firstBufReady readyIn }
  else if readyIn then
    { p with rData1 := p.rData2, rValid1 := p.rValid2, rReady := p.firstBufReady readyIn }
  else
    { p with rReady := p.firstBufReady readyIn }

/-- The registers a reset leaves, once `r_ready` has risen. -/
def reset [Inhabited α] : PipeReg α :=
  { rReady := true, rValid1 := false, rValid2 := false, rData1 := default, rData2 := default }

end PipeReg

/-! ## The generated FIFOs -/

/-- The `full` flag of a FIFO of the given depth. -/
def fifoFull (depth : Option ℕ) (q : List α) : Bool := depth.any (· ≤ q.length)

/-- The clock edge of a FIFO: a read takes the head, a write goes to the
end unless the FIFO is full. -/
def fifoNext (depth : Option ℕ) (rdEn : Bool) (wr : Option α) (q : List α) : List α :=
  (if rdEn then q.tail else q) ++ (if fifoFull depth q then [] else wr.toList)

/-- A FIFO that is not written only gives out its head. -/
@[simp] theorem fifoNext_none_wr (depth : Option ℕ) (rdEn : Bool) (q : List α) :
    fifoNext depth rdEn none q = if rdEn then q.tail else q := by
  simp [fifoNext]

/-- A FIFO never holds more than its depth. -/
theorem fifoNext_length_le {n : ℕ} {rdEn : Bool} {wr : Option α} {q : List α} (h : q.length ≤ n) :
    (fifoNext (some n) rdEn wr q).length ≤ n := by
  have htail : (if rdEn then q.tail else q).length ≤ q.length := by
    cases rdEn <;> simp
  unfold fifoNext
  rw [List.length_append]
  by_cases hfull : fifoFull (some n) q = true
  · rw [if_pos hfull, List.length_nil]; omega
  · have hroom : q.length < n := by simpa [fifoFull] using hfull
    have hone : wr.toList.length ≤ 1 := by cases wr <;> simp
    rw [if_neg hfull]
    omega

end SoftMC
