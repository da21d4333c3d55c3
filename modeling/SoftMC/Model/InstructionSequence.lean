import SoftMC.Model.Encoder
/-!
# `InstructionSequence`

The growable list of instructions of `softmc.cpp`. An access outside an
array gives no result; `new` gives an array whose cells hold nothing yet.
An allocation always succeeds.
-/

namespace SoftMC

/-- A cell of an array of instructions. -/
abbrev Cell := Option Instruction

/-- `INSTR_SIZE`, in words of 32 bits. -/
def INSTR_SIZE : UInt := 2

/-- The members of the class. -/
structure InstructionSequence where
  size : UInt
  instrs : List Cell
  capacity : UInt
  deriving DecidableEq, Repr

namespace InstructionSequence

/-- `new Instruction[n]`. -/
def newCells (n : UInt) : List Cell := List.replicate n.toNat none

/-- The constructor with a capacity. -/
def create (capacity : UInt) : InstructionSequence where
  size := 0
  instrs := newCells capacity
  capacity := capacity

/-- The default capacity. -/
def initCap : UInt := 256

variable (s : InstructionSequence)

/-- `for(int i = 0; i < size; i++) tmp[i] = instrs[i];` with `k` rounds to
go. The index is signed. -/
def copyLoop (instrs : List Cell) : ℕ → ℕ → List Cell → Option (List Cell)
  | 0, _, tmp => some tmp
  | k + 1, i, tmp =>
    if i < 2 ^ 31 ∧ i < tmp.length then
      instrs[i]?.bind fun c => copyLoop instrs k (i + 1) (tmp.set i c)
    else none

/-- The growth of a full sequence. -/
def grow : Option InstructionSequence :=
  (copyLoop s.instrs s.size.toNat 0 (newCells (s.capacity * 2))).map fun tmp =>
    { s with instrs := tmp, capacity := s.capacity * 2 }

/-- `instrs[size++] = c;` -/
def store (c : Instruction) : Option InstructionSequence :=
  if s.size.toNat < s.instrs.length then
    some { s with instrs := s.instrs.set s.size.toNat (some c), size := s.size + 1 }
  else none

def insert (c : Instruction) : Option InstructionSequence :=
  if s.size = s.capacity then s.grow.bind (·.store c) else s.store c

/-- `iseq->size = 0`, by which a sequence is used again. -/
def reset : InstructionSequence := { s with size := 0 }

/-- The two words of an instruction, as they lie in memory. -/
def words (c : Cell) : List (Option (BitVec 32)) :=
  [c.map (·.extractLsb' 0 32), c.map (·.extractLsb' 32 32)]

/-- What `execute` sends: `INSTR_SIZE*size` words from `instrs` on. -/
def execute : List (Option (BitVec 32)) :=
  (s.instrs.flatMap words).take (INSTR_SIZE * s.size).toNat

end InstructionSequence

end SoftMC
