import SoftMC.Host.Format
import SoftMC.Host.Sequence
import SoftMC.Model.RetentionTest
/-!
# The programs of `RetentionTest.cpp`

`writeRow`, `readAndCompareRow`, `turnBus` and `setRefreshConfig` build a
program by inserting what the generators give, one after the other, into a
sequence that is new or used again, and execute it. What is built is the
instructions of the calls, and what is sent their words.
-/

namespace SoftMC

namespace RetentionTest

abbrev NUM_COLS : ℕ := 1024

/-! ## The calls -/

/-- `for(int i = 0; i < NUM_COLS; i+=8)`. -/
def columns : List UInt := (List.range (NUM_COLS / 8)).map fun k => .ofNat 32 (8 * k)

/-- The row opened, worked on burst by burst, and closed. -/
def rowCalls (row bank : UInt) (burst : UInt → Call) : List Call :=
  [.pre bank .single, .wait 5, .act bank row, .wait 5] ++
    columns.flatMap (fun i => [burst i, .wait (6 + 4)]) ++
    [.wait 3, .pre bank .single, .wait 5, .endIseq]

def writeRowCalls (row bank : UInt) (pattern : BitVec 8) : List Call :=
  rowCalls row bank fun i => .wr bank i pattern .noAP .fixed

def readRowCalls (row bank : UInt) : List Call :=
  rowCalls row bank fun i => .rd bank i .noAP .fixed

def turnBusCalls (b : Encoder.Busdir) : List Call := [.busdir b, .wait 5, .endIseq]

def setRefreshConfigCalls (trefi trfc : UInt) : List Call :=
  [.refConfig trfc .trfc, .refConfig trefi .trefi, .endIseq]

/-! ## Building and sending -/

/-- `new InstructionSequence()`, or the one provided with its size at
zero. -/
def reuse : Option InstructionSequence → InstructionSequence
  | none => .create InstructionSequence.initCap
  | some iseq => iseq.reset

/-- `iseq->insert(gen…())`, call by call. -/
def insertCalls (iseq : InstructionSequence) (calls : List Call) : Option InstructionSequence :=
  calls.foldlM (fun s c => c.gen.bind s.insert) iseq

/-- The sequence as it is left, and what `iseq->execute(fpga)` sends. -/
def send (calls : List Call) (iseq : Option InstructionSequence) :
    Option (InstructionSequence × List (Option (BitVec 32))) :=
  (insertCalls (reuse iseq) calls).map fun s => (s, s.execute)

def writeRow (row bank : UInt) (pattern : BitVec 8) (iseq : Option InstructionSequence) :=
  send (writeRowCalls row bank pattern) iseq

def readRow (row bank : UInt) (iseq : Option InstructionSequence) :=
  send (readRowCalls row bank) iseq

def turnBus (b : Encoder.Busdir) (iseq : Option InstructionSequence) := send (turnBusCalls b) iseq

/-- It always takes a new sequence. -/
def setRefreshConfig (trefi trfc : UInt) := send (setRefreshConfigCalls trefi trfc) none

/-! ## What is built -/

/-- The instructions of the calls, as the hardware receives them. -/
def program (calls : List Call) : List Instr := calls.filterMap fun c => c.gen.map (·.word)

/-- A sequence that may be used again: a new one, or one that holds
something. -/
def Reusable (iseq : Option InstructionSequence) : Prop := ∀ s ∈ iseq, ∃ l, s.Holds l

theorem reuse_holds {iseq : Option InstructionSequence} (h : Reusable iseq) :
    (reuse iseq).Holds [] := by
  cases iseq with
  | none => exact InstructionSequence.holds_create (by decide)
  | some s =>
    obtain ⟨l, hl⟩ := h s rfl
    exact hl.reset

/-- The insertions go through and add the instructions of the calls. -/
theorem insertCalls_holds {s : InstructionSequence} {l : List Instruction} (h : s.Holds l)
    {calls : List Call} (hvalid : ∀ c ∈ calls, c.Valid) (hlen : l.length + calls.length < 2 ^ 31) :
    ∃ s', insertCalls s calls = some s' ∧ s'.Holds (l ++ calls.filterMap Call.gen) := by
  induction calls generalizing s l with
  | nil => exact ⟨s, rfl, by simpa using h⟩
  | cons c calls ih =>
    rw [List.length_cons] at hlen
    obtain ⟨i, hgen, -⟩ := c.exists_agrees (hvalid c List.mem_cons_self)
    obtain ⟨s₁, hins, h₁⟩ := h.insert (by omega) i
    obtain ⟨s₂, hrest, h₂⟩ := ih h₁ (fun c' hc' => hvalid c' (List.mem_cons_of_mem c hc'))
      (by rw [List.length_append, List.length_singleton]; omega)
    refine ⟨s₂, ?_, ?_⟩
    · rw [insertCalls, List.foldlM_cons, hgen]
      change (s.insert i).bind (fun s => insertCalls s calls) = _
      rw [hins, Option.bind_some, hrest]
    · rw [List.filterMap_cons, hgen]
      rwa [List.append_assoc] at h₂

/-- **What is sent is what was asked for**: from any sequence that may be
used again the words are those of the calls' instructions. -/
theorem send_eq {calls : List Call} (hvalid : ∀ c ∈ calls, c.Valid) (hlen : calls.length < 2 ^ 31)
    {iseq : Option InstructionSequence} (h : Reusable iseq) :
    ∃ s, send calls iseq =
        some (s, ((calls.filterMap Call.gen).map some).flatMap InstructionSequence.words) ∧
      s.Holds (calls.filterMap Call.gen) := by
  obtain ⟨s, hins, hs⟩ := insertCalls_holds (reuse_holds h) hvalid (by simpa using hlen)
  rw [List.nil_append] at hs
  have hle : (calls.filterMap Call.gen).length ≤ calls.length := List.length_filterMap_le _ _
  refine ⟨s, ?_, hs⟩
  rw [send, hins, Option.map_some, hs.execute_eq (by omega)]

/-- The hardware decodes what was asked for, call by call. -/
theorem decode_program {calls : List Call} (hvalid : ∀ c ∈ calls, c.Valid) :
    (program calls).map decode = calls.map fun c => some c.intended := by
  induction calls with
  | nil => rfl
  | cons c calls ih =>
    obtain ⟨i, hgen, hi⟩ := c.exists_agrees (hvalid c List.mem_cons_self)
    have hrest := ih fun c' hc' => hvalid c' (List.mem_cons_of_mem c hc')
    rw [program, List.filterMap_cons, hgen, Option.map_some, List.map_cons, List.map_cons,
      hi.decodes]
    exact congrArg _ hrest

end RetentionTest

end SoftMC
