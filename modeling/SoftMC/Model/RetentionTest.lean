import Mathlib.Data.List.Basic
import Mathlib.Tactic.Common
/-!
# `testRetention`

The loop of the retention test: it writes a group of rows, waits for the
retention time, and reads the group back. Two cursors go over the DIMM,
one for each half of the loop. Of the calls it makes, the rows they are
made for are kept.
-/

namespace SoftMC

abbrev NUM_ROWS : ℕ := 32768
abbrev NUM_BANKS : ℕ := 8

/-- The address of a row, and a cursor. -/
structure DramAddr where
  row : ℕ
  bank : ℕ
  deriving DecidableEq, Repr

namespace RetentionTest

/-- `cur_row++`, and on to the next bank after the last row. -/
def advance (a : DramAddr) : DramAddr :=
  if a.row + 1 = NUM_ROWS then { row := 0, bank := a.bank + 1 } else { a with row := a.row + 1 }

/-- What a loop over a group leaves: the rows it called for, the cursor,
and whether it broke off. -/
structure Sweep where
  rows : List DramAddr
  cur : DramAddr
  dimmDone : Bool
  deriving DecidableEq, Repr

/-- `for(int i = 0; i < group_size; i++)`, with `k` rounds to go. -/
def sweep : ℕ → DramAddr → Sweep
  | 0, a => { rows := [], cur := a, dimmDone := false }
  | k + 1, a =>
    if (advance a).bank = NUM_BANKS then { rows := [a], cur := advance a, dimmDone := true }
    else { sweep k (advance a) with rows := a :: (sweep k (advance a)).rows }

/-- The variables of `testRetention`. -/
structure State where
  curWrite : DramAddr
  curRead : DramAddr
  dimmDone : Bool
  deriving DecidableEq, Repr

def start : State where
  curWrite := { row := 0, bank := 0 }
  curRead := { row := 0, bank := 0 }
  dimmDone := false

/-- The rows of one iteration. -/
structure Iteration where
  written : List DramAddr
  read : List DramAddr
  deriving DecidableEq, Repr

/-- The body of the loop. The loop that reads breaks off as well, and sets
no flag. -/
def body (groupSize : ℕ) (s : State) : Iteration × State :=
  ({ written := (sweep groupSize s.curWrite).rows, read := (sweep groupSize s.curRead).rows },
   { curWrite := (sweep groupSize s.curWrite).cur
     curRead := (sweep groupSize s.curRead).cur
     dimmDone := (sweep groupSize s.curWrite).dimmDone || s.dimmDone })

/-- `while(!dimm_done)`, for as many iterations as there is fuel. -/
def loop (groupSize : ℕ) : ℕ → State → Option (List Iteration)
  | 0, _ => none
  | fuel + 1, s =>
    if s.dimmDone then some []
    else (loop groupSize fuel (body groupSize s).2).map ((body groupSize s).1 :: ·)

/-- The test, by its iterations. -/
def testRetention (groupSize fuel : ℕ) : Option (List Iteration) := loop groupSize fuel start

end RetentionTest

end SoftMC
