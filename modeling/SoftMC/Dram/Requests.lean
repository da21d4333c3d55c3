import SoftMC.Common.Blocks
import SoftMC.Dram.RowDispatch
import SoftMC.Path.Application
/-!
# What the test asks for

`RetentionTest.cpp` talks to the hardware in four programs: a row is
written, a row is read, the bus is turned, the refresh is configured. Each
is a sequence of its own that relies on no row being open, so what they do
to the memory can be said without one: of a request there are the cells it
leaves and the bursts it gives.
-/

namespace SoftMC

open Banked TwoSlot Units

namespace RetentionTest

/-- What the host asks for with one program. -/
inductive Request
  | writeRow (row bank : UInt) (pattern : BitVec 8)
  | readRow (row bank : UInt)
  | turnBus (b : Encoder.Busdir)
  | setRefreshConfig (trefi trfc : UInt)
  deriving DecidableEq, Repr

namespace Request

/-- The operands the API admits. -/
def Valid : Request → Prop
  | writeRow row bank _ | readRow row bank => bank.toNat < 8 ∧ row.toNat < 2 ^ 16
  | turnBus _ => True
  | setRefreshConfig trefi trfc => trefi.toNat < 2 ^ 28 ∧ trfc.toNat < 2 ^ 28

def calls : Request → List Call
  | writeRow row bank pattern => writeRowCalls row bank pattern
  | readRow row bank => readRowCalls row bank
  | turnBus b => turnBusCalls b
  | setRefreshConfig trefi trfc => setRefreshConfigCalls trefi trfc

/-- The words it is sent in. -/
def words (q : Request) : List Instr := program q.calls

/-- **What it does**: the cells it leaves, and the bursts it gives. -/
def apply (cell : Cells) : Request → Cells × List Burst
  | writeRow row bank pattern =>
    (overwrite cell (bank.setWidth _) (row.setWidth _) bursts fun _ => .fill pattern, [])
  | readRow row bank => (cell, bursts.map (cell (bank.setWidth _) (row.setWidth _)))
  | turnBus _ | setRefreshConfig _ _ => (cell, [])

/-- One request after the other. -/
def applyAll (cell : Cells) : List Request → Cells × List Burst
  | [] => (cell, [])
  | q :: qs => ((applyAll (q.apply cell).1 qs).1, (q.apply cell).2 ++ (applyAll (q.apply cell).1 qs).2)

/-- What is given for the first requests is given first. -/
theorem applyAll_take (cell : Cells) (qs : List Request) (k : ℕ) :
    (applyAll cell (qs.take k)).2 <+: (applyAll cell qs).2 := by
  induction qs generalizing cell k with
  | nil => rw [List.take_nil]
  | cons q qs ih =>
    cases k with
    | zero => exact List.nil_prefix
    | succ k => exact (List.prefix_append_right_inj _).2 (ih _ k)

variable {q : Request}

theorem calls_valid (h : q.Valid) : ∀ c ∈ q.calls, c.Valid := by
  cases q with
  | writeRow row bank pattern => exact writeRowCalls_valid h.1 h.2 pattern
  | readRow row bank => exact readRowCalls_valid h.1 h.2
  | turnBus b => simp [calls, turnBusCalls, Call.Valid]
  | setRefreshConfig trefi trfc => simpa [calls, setRefreshConfigCalls, Call.Valid] using h.symm

/-! ## On the channel -/

/-- A row program has one `genEND`. -/
theorem rowCalls_eq {row bank : UInt} {burst : UInt → Call} (h : ∀ i, burst i ≠ .endIseq) :
    ∃ init, rowCalls row bank burst = init ++ [.endIseq] ∧ init ≠ [] ∧ Call.endIseq ∉ init := by
  refine ⟨_, (List.append_assoc _ [Call.wait 3, .pre bank .single, .wait 5] [.endIseq]).symm, by simp,
    ?_⟩
  simp only [List.mem_append, List.mem_flatMap, not_or, not_exists, not_and]
  refine ⟨⟨by simp, fun i _ hi => ?_⟩, by simp⟩
  rcases List.mem_cons.1 hi with hi | hi
  · exact h i hi.symm
  · cases List.mem_singleton.1 hi

theorem calls_eq (q : Request) :
    ∃ init, q.calls = init ++ [.endIseq] ∧ init ≠ [] ∧ Call.endIseq ∉ init := by
  cases q with
  | writeRow row bank pattern => exact rowCalls_eq fun i => by simp
  | readRow row bank => exact rowCalls_eq fun i => by simp
  | turnBus b => exact ⟨[.busdir b, .wait 5], rfl, by simp, by simp⟩
  | setRefreshConfig trefi trfc =>
    exact ⟨[.refConfig trfc .trfc, .refConfig trefi .trefi], rfl, by simp, by simp⟩

/-- A word of a program is that of a call. -/
theorem exists_call_of_mem {calls : List Call} (hvalid : ∀ c ∈ calls, c.Valid) {w : Instr}
    (hw : w ∈ program calls) :
    ∃ c ∈ calls, decode w = some c.intended ∧ (opcode w = .endIseq ↔ c = .endIseq) := by
  obtain ⟨c, hc, hgen⟩ := List.mem_filterMap.1 hw
  obtain ⟨i, hi, hagrees⟩ := c.exists_agrees (hvalid c hc)
  rw [hi] at hgen
  obtain rfl : i.word = w := Option.some.inj hgen
  exact ⟨c, hc, hagrees.decodes, hagrees.ends⟩

/-- **A request is one unit of the stream.** -/
theorem isUnit_words (h : q.Valid) : IsUnit IsEnd q.words := by
  obtain ⟨init, hcalls, hne, hend⟩ := q.calls_eq
  have hvalid := calls_valid h
  have hwords : q.words = program init ++ [Encoder.genEND.word] := by
    rw [words, hcalls, program, List.filterMap_append]
    rfl
  have hinit : ∀ c ∈ init, c.Valid := fun c hc =>
    hvalid c (hcalls ▸ List.mem_append_left _ hc)
  obtain ⟨c, init, rfl⟩ := List.exists_cons_of_ne_nil hne
  obtain ⟨i, hi, -⟩ := c.exists_agrees (hinit c List.mem_cons_self)
  have hfirst : program (c :: init) = i.word :: program init := by
    rw [program, List.filterMap_cons, hi]
    rfl
  refine ⟨i.word, program init, Encoder.genEND.word, ?_, fun v hv => ?_, by decide⟩
  · rw [hwords, hfirst, List.cons_append]
  · obtain ⟨c', hc', -, hiff⟩ := exists_call_of_mem
      (fun c' hc' => hinit c' (List.mem_cons_of_mem _ hc')) hv
    intro hv'
    rw [hiff.1 hv'] at hc'
    exact hend (List.mem_cons_of_mem _ hc')

theorem length_rowCalls (row bank : UInt) (burst : UInt → Call) :
    (rowCalls row bank burst).length = 264 := by
  have hcols : (columns.flatMap fun i => [burst i, .wait (6 + 4)]).length = 256 := by
    rw [Blocks.length_flatMap (c := 2) fun _ => rfl, columns, List.length_map, List.length_range]
    rfl
  rw [rowCalls, List.length_append, List.length_append, hcols]
  rfl

theorem length_calls_le (q : Request) : q.calls.length ≤ 264 := by
  cases q with
  | writeRow row bank pattern => exact (length_rowCalls _ _ _).le
  | readRow row bank => exact (length_rowCalls _ _ _).le
  | turnBus b => exact Nat.le_of_ble_eq_true rfl
  | setRefreshConfig trefi trfc => exact Nat.le_of_ble_eq_true rfl

theorem length_words_le (q : Request) : q.words.length ≤ 264 :=
  Nat.le_trans (List.length_filterMap_le _ _) q.length_calls_le

/-- No WAIT of it is of zero cycles. -/
theorem waitOf_ne (h : q.Valid) {w : Instr} (hw : w ∈ q.words) : waitOf w ≠ some 0 := by
  intro h0
  exact Nat.lt_irrefl 0 (posWaits_program (calls_valid h) w hw 0 h0)

/-- Every command of it has the clock enabled. -/
theorem ckeBit_eq (h : q.Valid) {w : Instr} (hw : w ∈ q.words) (hop : opcode w = .ddr) :
    ckeBit w = true := by
  obtain ⟨c, -, hdec, -⟩ := exists_call_of_mem (calls_valid h) hw
  rw [decode, hop] at hdec
  obtain ⟨cmd, -, hcmd⟩ := Option.map_eq_some_iff.1 hdec
  cases c with
  | pre bank pc => cases pc <;> exact (Action.ddr.inj hcmd).1
  | busdir dir => cases dir <;> cases hcmd
  | refConfig val r => cases r <;> cases hcmd
  | wait cycles => cases hcmd
  | endIseq => cases hcmd
  | act bank row => exact (Action.ddr.inj hcmd).1
  | wr bank col pattern ap bl => exact (Action.ddr.inj hcmd).1
  | rd bank col ap bl => exact (Action.ddr.inj hcmd).1
  | zq => exact (Action.ddr.inj hcmd).1
  | ref => exact (Action.ddr.inj hcmd).1

/-! ## From the program to the channel -/

/-- What the test does for a request with the sequence it keeps. A row
program leaves it the sequence it has used; `turnBus` is given the pointer
by value, so a sequence it has made itself is lost; and
`setRefreshConfig` has one of its own. -/
def send (iseq : Option InstructionSequence) :
    Request → Option (Option InstructionSequence × List (Option (BitVec 32)))
  | writeRow row bank pattern =>
    (RetentionTest.writeRow row bank pattern iseq).map fun p => (some p.1, p.2)
  | readRow row bank => (RetentionTest.readRow row bank iseq).map fun p => (some p.1, p.2)
  | turnBus b => (RetentionTest.turnBus b iseq).map fun p => (iseq.map fun _ => p.1, p.2)
  | setRefreshConfig trefi trfc =>
    (RetentionTest.setRefreshConfig trefi trfc).map fun p => (iseq, p.2)

/-- One request after the other, with the same sequence. -/
def sendAll (iseq : Option InstructionSequence) :
    List Request → Option (Option InstructionSequence × List (Option (BitVec 32)))
  | [] => some (iseq, [])
  | q :: qs => (send iseq q).bind fun p => (sendAll p.1 qs).map fun p' => (p'.1, p.2 ++ p'.2)

/-- What `app_instr` takes of the words sent: the lower of each two, which
are one word of the channel. -/
def lowHalves : List (Option (BitVec 32)) → List (Option (BitVec 32))
  | lo :: _ :: l => lo :: lowHalves l
  | _ => []

theorem lowHalves_words (l : List Instruction) (rest : List (Option (BitVec 32))) :
    lowHalves ((l.map some).flatMap InstructionSequence.words ++ rest) =
      l.map (some ·.word) ++ lowHalves rest := by
  induction l with
  | nil => rfl
  | cons i l ih =>
    have hlow : i.extractLsb' 0 32 = i.word := by
      refine BitVec.eq_of_getLsbD_eq fun k hk => ?_
      simp [Instruction.word, hk]
    rw [List.map_cons, List.flatMap_cons, List.map_cons, List.cons_append, ← ih, ← hlow]
    rfl

/-- A sequence that holds something may be used again. -/
theorem reusable_of_holds {s : InstructionSequence} {l : List Instruction} (h : s.Holds l) :
    Reusable (some s) := by
  intro s' hs
  obtain rfl := Option.some.inj hs
  exact ⟨l, h⟩

/-- **A request is sent as its instructions**, and the sequence can be used
again. -/
theorem exists_send (h : q.Valid) {iseq : Option InstructionSequence} (hiseq : Reusable iseq) :
    ∃ iseq', q.send iseq = some (iseq',
        ((q.calls.filterMap Call.gen).map some).flatMap InstructionSequence.words) ∧
      Reusable iseq' := by
  have hlen : q.calls.length < 2 ^ 31 := Nat.lt_of_le_of_lt (length_calls_le q) (by decide)
  cases q with
  | writeRow row bank pattern =>
    obtain ⟨s, hs, hholds⟩ := send_eq (calls_valid h) hlen hiseq
    have hrow : RetentionTest.writeRow row bank pattern iseq = _ := hs
    exact ⟨some s, by rw [send, hrow, Option.map_some], reusable_of_holds hholds⟩
  | readRow row bank =>
    obtain ⟨s, hs, hholds⟩ := send_eq (calls_valid h) hlen hiseq
    have hrow : RetentionTest.readRow row bank iseq = _ := hs
    exact ⟨some s, by rw [send, hrow, Option.map_some], reusable_of_holds hholds⟩
  | turnBus b =>
    obtain ⟨s, hs, hholds⟩ := send_eq (calls_valid h) hlen hiseq
    have hbus : RetentionTest.turnBus b iseq = _ := hs
    refine ⟨iseq.map fun _ => s, by rw [send, hbus, Option.map_some], ?_⟩
    cases iseq with
    | none => exact hiseq
    | some s' => exact reusable_of_holds hholds
  | setRefreshConfig trefi trfc =>
    have hnone : Reusable none := fun s hs => by cases hs
    obtain ⟨s, hs, -⟩ := send_eq (calls_valid h) hlen hnone
    have hconfig : RetentionTest.setRefreshConfig trefi trfc = _ := hs
    exact ⟨iseq, by rw [send, hconfig, Option.map_some], hiseq⟩

/-- **What the test sends is what it asks for**: whatever sequence it has
used before, the low halves of the words of its requests are the programs,
one behind the other, and no word is undefined. -/
theorem sendAll_words {qs : List Request} (hqs : ∀ q ∈ qs, q.Valid)
    {iseq : Option InstructionSequence} (hiseq : Reusable iseq) :
    ∃ iseq' ws, sendAll iseq qs = some (iseq', ws) ∧ none ∉ ws ∧
      lowHalves ws = (qs.map words).flatten.map some := by
  induction qs generalizing iseq with
  | nil => exact ⟨iseq, [], rfl, List.not_mem_nil, rfl⟩
  | cons q qs ih =>
    obtain ⟨iseq₁, hsend, hiseq₁⟩ := exists_send (hqs q List.mem_cons_self) hiseq
    obtain ⟨iseq₂, ws, hrest, hdefined, hwords⟩ :=
      ih (fun q' hq' => hqs q' (List.mem_cons_of_mem q hq')) hiseq₁
    refine ⟨iseq₂, _, by rw [sendAll, hsend, Option.bind_some, hrest]; rfl, ?_, ?_⟩
    · intro hnone
      rcases List.mem_append.1 hnone with hnone | hnone
      · obtain ⟨c, hc, hmem⟩ := List.mem_flatMap.1 hnone
        obtain ⟨i, -, rfl⟩ := List.mem_map.1 hc
        simp [InstructionSequence.words] at hmem
      · exact hdefined hnone
    · rw [lowHalves_words, hwords, List.map_cons, List.flatten_cons, List.map_append]
      congr 1
      rw [words, program, List.map_filterMap, List.map_filterMap]
      exact List.filterMap_congr fun c _ => (by cases c.gen <;> rfl)

/-- A bus turned and a row written, with a first sequence. -/
theorem sendAll_words_first :
    ∃ iseq' ws, sendAll none [turnBus .write, writeRow 77 5 0xff] = some (iseq', ws) ∧ none ∉ ws ∧
      lowHalves ws = (([turnBus .write, writeRow 77 5 0xff].map words).flatten).map some :=
  sendAll_words (by
    intro q hq
    simp only [List.mem_cons, List.not_mem_nil, or_false] at hq
    rcases hq with rfl | rfl
    · trivial
    · exact ⟨by decide, by decide⟩) fun s hs => by cases hs

/-! ## On the memory -/

variable {L : Type*}

/-- A request that sends the device nothing. -/
theorem exec_words_of_nil (h : q.Valid) (hnil : deviceCalls q.calls = []) (ℓ : L) (m : Device) :
    exec m (labelled ℓ q.words) = some (m, []) := by
  rw [words, labelled_program ℓ (calls_valid h), hnil]
  rfl

/-- **A request does what it is for**, whatever the banks are. -/
theorem exec_words (h : q.Valid) (ℓ : L) (m : Device) :
    ∃ m₁, exec m (labelled ℓ q.words) = some (m₁, (q.apply m.cell).2.map (ℓ, ·)) ∧
      m₁.cell = (q.apply m.cell).1 := by
  cases q with
  | writeRow row bank pattern => exact ⟨_, exec_writeRow h.1 h.2 pattern ℓ m, rfl⟩
  | readRow row bank =>
    rw [apply, List.map_map]
    exact ⟨_, exec_readRow h.1 h.2 ℓ m, rfl⟩
  | turnBus b => exact ⟨m, exec_words_of_nil h (by cases b <;> rfl) ℓ m, rfl⟩
  | setRefreshConfig trefi trfc => exact ⟨m, exec_words_of_nil h rfl ℓ m, rfl⟩

theorem selfContained (h : q.Valid) (ℓ : L) : SelfContained (labelled ℓ q.words) := by
  intro m
  obtain ⟨m₁, hexec, -⟩ := exec_words h ℓ m
  rw [hexec]
  exact Option.some_ne_none _

/-- **So do requests one after the other.** -/
theorem exec_all {qs : List Request} (h : ∀ q ∈ qs, q.Valid) (ℓ : L) (m : Device) :
    ∃ m₁, exec m (qs.flatMap fun q => labelled ℓ q.words) =
        some (m₁, (applyAll m.cell qs).2.map (ℓ, ·)) ∧ m₁.cell = (applyAll m.cell qs).1 := by
  induction qs generalizing m with
  | nil => exact ⟨m, rfl, rfl⟩
  | cons q qs ih =>
    obtain ⟨m₁, h₁, hcell⟩ := exec_words (h q List.mem_cons_self) ℓ m
    obtain ⟨m₂, h₂, hcell₂⟩ := ih (fun q' hq' => h q' (List.mem_cons_of_mem q hq')) m₁
    rw [hcell] at h₂ hcell₂
    refine ⟨m₂, ?_, hcell₂⟩
    rw [List.flatMap_cons, exec_append_of_some h₁ h₂, applyAll, List.map_append]

end Request

end RetentionTest

/-! ## In time -/

/-- **The parts that the programs suit.** -/
structure Ddr3.SuitsRequests (p : Ddr3) : Prop where
  tRP : p.tRP ≤ 6
  tRCD : p.tRCD ≤ 6
  tRAS : p.tRAS ≤ 1417
  tRRD : p.tRRD ≤ 1424
  tCCD : p.tCCD ≤ 11
  tRTP : p.tRTP ≤ 14
  tWR : p.writeToPre ≤ 14
  tWTR : p.writeToRead ≤ 21
  turn : p.readToWrite ≤ 21

namespace RetentionTest.Request

variable {p : Ddr3} (hp : p.SuitsRequests) {q : Request}

/-- What holds no command keeps no distance. -/
theorem paced_of_no_cmd {l : List (Option Action)} (h : ∀ a ∈ l, a.bind Action.cmd = none) :
    Paced actionWait p.gap l ∧ Settled actionWait p.gap (fun _ => True) l := by
  induction l with
  | nil => exact ⟨trivial, trivial⟩
  | cons a l ih =>
    obtain ⟨hpaced, hsettled⟩ := ih fun b hb => h b (List.mem_cons_of_mem a hb)
    have hzero : ∀ b, p.gap a b = 0 := fun b =>
      gap_of_no_cmd (Or.inl (h a List.mem_cons_self))
    exact ⟨⟨behind_of_zero fun b _ => hzero b, hpaced⟩,
      fun b _ => by rw [hzero]; exact Nat.zero_le _, hsettled⟩

include hp

/-- A column command of a row program is done with its row in time. -/
theorem cmdGap_column_le (bank : UInt) (k : ℕ) (c : DramCmd) :
    p.cmdGap (writeCmd bank k) c ≤ 21 ∧ p.cmdGap (readCmd bank k) c ≤ 21 := by
  have hccd := hp.tCCD
  have hrtp := hp.tRTP
  have hwr := hp.tWR
  exact ⟨afterColumn_le (by omega) hp.tWTR (by omega) c, afterColumn_le hp.turn (by omega) (by omega) c⟩

theorem cmdGap_activate_le' (b : BitVec BANK_WIDTH) (r : BitVec ROW_WIDTH) (c : DramCmd) :
    p.cmdGap (.activate b r) c ≤ 1424 := by
  have hrp := hp.tRP
  have hrcd := hp.tRCD
  have hras := hp.tRAS
  exact cmdGap_activate_le (by omega) hp.tRRD (by omega) c

/-- **A request keeps its distances**, and settles what it owes. -/
theorem paced_words (h : q.Valid) :
    Paced waitOf p.instrGap q.words ∧ Settled waitOf p.instrGap (fun _ => True) q.words := by
  have hrp := hp.tRP
  have hdec := decode_program (calls_valid h)
  have hnone : (∀ a ∈ q.calls.map fun c => some c.intended, a.bind Action.cmd = none) →
      Paced waitOf p.instrGap q.words ∧ Settled waitOf p.instrGap (fun _ => True) q.words := by
    intro hcmd
    rw [← hdec] at hcmd
    obtain ⟨hpaced, hsettled⟩ := paced_of_no_cmd (p := p) hcmd
    exact ⟨paced_decode.2 hpaced, settled_decode hsettled⟩
  cases q with
  | writeRow row bank pattern =>
    refine ⟨(paced_writeRow_iff h.1 h.2 pattern).2 ⟨hp.tRP, hp.tRCD, hp.tRAS, hp.tCCD, hp.tWR⟩,
      settled_decode ?_⟩
    rw [words, hdec, calls, writeRowCalls, intended_rowCalls (c := writeCmd bank) fun _ => rfl]
    exact settled_row (by omega) (cmdGap_activate_le' hp _ _)
      (fun k c => (cmdGap_column_le hp bank k c).1) List.length_range
  | readRow row bank =>
    refine ⟨(paced_readRow_iff h.1 h.2).2 ⟨hp.tRP, hp.tRCD, hp.tRAS, hp.tCCD, hp.tRTP⟩,
      settled_decode ?_⟩
    rw [words, hdec, calls, readRowCalls, intended_rowCalls (c := readCmd bank) fun _ => rfl]
    exact settled_row (by omega) (cmdGap_activate_le' hp _ _)
      (fun k c => (cmdGap_column_le hp bank k c).2) List.length_range
  | turnBus b => exact hnone (by cases b <;> simp [calls, turnBusCalls, Call.intended, Action.cmd])
  | setRefreshConfig trefi trfc =>
    exact hnone (by simp [calls, setRefreshConfigCalls, Call.intended, Action.cmd])

end RetentionTest.Request

end SoftMC
