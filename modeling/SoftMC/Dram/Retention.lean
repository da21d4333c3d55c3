import SoftMC.Dram.RowPrograms
import SoftMC.Host.Retention
/-!
# What the retention test finds

The loop of `testRetention` against a memory whose cells lose, while the
test waits, whatever they lose. In each iteration all the rows of its group
hold the pattern when the wait begins, so what `readAndCompareRow` prints
is the bytes that were lost in the wait, each once, and nothing else.
-/

namespace SoftMC

open Banked

namespace RetentionTest

/-! ## Comparing -/

/-- `uint8_t pattern = 0xff`. -/
def PATTERN : BitVec 8 := 0xff

/-- A line of the test's output. -/
structure Report where
  col : UInt
  row : UInt
  bank : UInt
  data : BitVec 8
  deriving DecidableEq, Repr

/-- `for(int j = 0; j < 64; j++)`, over a burst received. -/
def compareBurst (row bank : UInt) (pattern : BitVec 8) (col : UInt) (rbuf : Burst) : List Report :=
  (List.range 64).filterMap fun j =>
    if rbuf.byte j ≠ pattern then some { col, row, bank, data := rbuf.byte j } else none

/-- The loop of `readAndCompareRow` that receives, burst by burst. -/
def compareRow (row bank : UInt) (pattern : BitVec 8) (recv : List Burst) : List Report :=
  (columns.zip recv).flatMap fun x => compareBurst row bank pattern x.1 x.2

/-! ## The loop, on a memory -/

/-- The operands a cursor gives. -/
def rowOf (a : DramAddr) : UInt := .ofNat 32 a.row
def bankOf (a : DramAddr) : UInt := .ofNat 32 a.bank

/-- A program executed, and the bursts it reads. -/
def perform (m : Device) (calls : List Call) : Option (Device × List Burst) :=
  (exec m (labelled () (program calls))).map fun p => (p.1, p.2.map Prod.snd)

def writeRows (m : Device) : List DramAddr → Option Device
  | [] => some m
  | a :: l =>
    (perform m (writeRowCalls (rowOf a) (bankOf a) PATTERN)).bind fun p => writeRows p.1 l

def readRows (m : Device) : List DramAddr → Option (Device × List Report)
  | [] => some (m, [])
  | a :: l =>
    (perform m (readRowCalls (rowOf a) (bankOf a))).bind fun p =>
      (readRows p.1 l).map fun q => (q.1, compareRow (rowOf a) (bankOf a) PATTERN p.2 ++ q.2)

/-- One iteration, and what the cells lose in its wait. -/
def iterate (decay : Cells → Cells) (m : Device) (it : Iteration) :
    Option (Device × List Report) :=
  (perform m (turnBusCalls .write)).bind fun p =>
    (writeRows p.1 it.written).bind fun m₁ =>
      (perform m₁ (turnBusCalls .read)).bind fun q =>
        readRows { q.1 with cell := decay q.1.cell } it.read

/-- The iterations from number `j` on, and all that is printed. -/
def testOn (decay : ℕ → Cells → Cells) (m : Device) (j : ℕ) : List Iteration → Option (List Report)
  | [] => some []
  | it :: its =>
    (iterate (decay j) m it).bind fun p => (testOn decay p.1 (j + 1) its).map (p.2 ++ ·)

/-! ## A row full of the pattern -/

/-- An address of the DIMM. -/
def InDimm (a : DramAddr) : Prop := a.bank < NUM_BANKS ∧ a.row < NUM_ROWS

/-- The burst of a row. -/
def burstAt (cell : Cells) (a : DramAddr) (c : BurstCol) : Burst :=
  cell ((bankOf a).setWidth _) ((rowOf a).setWidth _) c

/-- **A row holds the pattern** in every byte. -/
def Filled (cell : Cells) (a : DramAddr) : Prop := ∀ c, burstAt cell a c = .fill PATTERN

/-- What is printed of a row. -/
def rowReports (cell : Cells) (a : DramAddr) : List Report :=
  compareRow (rowOf a) (bankOf a) PATTERN (bursts.map (burstAt cell a))

/-- A row's reports are its bursts'. -/
theorem rowReports_eq (cell : Cells) (a : DramAddr) :
    rowReports cell a = bursts.flatMap fun c =>
      compareBurst (rowOf a) (bankOf a) PATTERN (.ofNat 32 (8 * c.toNat)) (burstAt cell a c) := by
  have hcol : columns = bursts.map fun c => .ofNat 32 (8 * c.toNat) := by decide +kernel
  rw [rowReports, compareRow, hcol, List.zip_map', List.flatMap_map]

theorem mem_compareBurst {row bank col : UInt} {pattern : BitVec 8} {x : Burst} {r : Report} :
    r ∈ compareBurst row bank pattern col x ↔
      ∃ j < 64, x.byte j ≠ pattern ∧ r = { col, row, bank, data := x.byte j } := by
  rw [compareBurst, List.mem_filterMap]
  constructor
  · rintro ⟨j, hj, hr⟩
    split at hr
    next hne => exact ⟨j, List.mem_range.1 hj, hne, (Option.some.inj hr).symm⟩
    next => cases hr
  · rintro ⟨j, hj, hne, rfl⟩
    exact ⟨j, List.mem_range.2 hj, if_pos hne⟩

/-- **What is printed of a row**: a line for each byte that is not the
pattern's. -/
theorem mem_rowReports {cell : Cells} {a : DramAddr} {r : Report} :
    r ∈ rowReports cell a ↔ ∃ c, ∃ j < 64, (burstAt cell a c).byte j ≠ PATTERN ∧
      r = { col := .ofNat 32 (8 * c.toNat), row := rowOf a, bank := bankOf a,
            data := (burstAt cell a c).byte j } := by
  rw [rowReports_eq, List.mem_flatMap]
  constructor
  · rintro ⟨c, -, hr⟩
    exact ⟨c, mem_compareBurst.1 hr⟩
  · rintro ⟨c, hr⟩
    exact ⟨c, mem_bursts c, mem_compareBurst.2 hr⟩

/-! ## Rows written and read -/

/-- The cells with rows filled. -/
def fillRows (cell : Cells) (l : List DramAddr) : Cells :=
  l.foldl (fun cell a =>
    overwrite cell ((bankOf a).setWidth _) ((rowOf a).setWidth _) bursts fun _ => .fill PATTERN) cell

theorem filled_overwrite (cell : Cells) (a : DramAddr) :
    Filled (overwrite cell ((bankOf a).setWidth _) ((rowOf a).setWidth _) bursts
      fun _ => .fill PATTERN) a := by
  intro c
  rw [burstAt, overwrite, if_pos ⟨rfl, rfl, mem_bursts c⟩]

/-- A row that is full stays so, whichever row is filled. -/
theorem Filled.overwrite {cell : Cells} {a : DramAddr} (h : Filled cell a)
    (b : BitVec BANK_WIDTH) (r : BitVec ROW_WIDTH) :
    Filled (overwrite cell b r bursts fun _ => .fill PATTERN) a := by
  intro c
  rw [burstAt, Banked.overwrite]
  split
  · rfl
  · exact h c

theorem Filled.fillRows {cell : Cells} {a : DramAddr} (h : Filled cell a) (l : List DramAddr) :
    Filled (fillRows cell l) a := by
  induction l generalizing cell with
  | nil => exact h
  | cons a' l ih => exact ih (h.overwrite _ _)

/-- **All rows of a group are full** once it is written. -/
theorem filled_fillRows (cell : Cells) {l : List DramAddr} {a : DramAddr} (ha : a ∈ l) :
    Filled (fillRows cell l) a := by
  induction l generalizing cell with
  | nil => cases ha
  | cons a' l ih =>
    rcases List.mem_cons.1 ha with rfl | hmem
    · exact (filled_overwrite cell a).fillRows l
    · exact ih _ hmem

variable {a : DramAddr} {l : List DramAddr}

theorem InDimm.bank_lt (h : InDimm a) : (bankOf a).toNat < 8 := by
  have hbank : a.bank < 8 := h.1
  rw [bankOf, BitVec.toNat_ofNat]
  omega

theorem InDimm.row_lt (h : InDimm a) : (rowOf a).toNat < 2 ^ 16 := by
  have hrow : a.row < 32768 := h.2
  rw [rowOf, BitVec.toNat_ofNat]
  omega

/-- `turnBus` sends the memory nothing. -/
theorem perform_turnBus (m : Device) (b : Encoder.Busdir) :
    perform m (turnBusCalls b) = some (m, []) := by
  have hvalid : ∀ c ∈ turnBusCalls b, c.Valid := by
    intro c hc
    simp only [turnBusCalls, List.mem_cons, List.not_mem_nil, or_false] at hc
    rcases hc with rfl | rfl | rfl
    · trivial
    · exact ⟨by decide, by decide⟩
    · trivial
  have hnone : deviceCalls (turnBusCalls b) = [] := by
    cases b <;> rfl
  rw [perform, labelled_program () hvalid, hnone]
  rfl

theorem writeRows_eq (hl : ∀ a ∈ l, InDimm a) (m : Device) :
    ∃ m', writeRows m l = some m' ∧ m'.cell = fillRows m.cell l := by
  induction l generalizing m with
  | nil => exact ⟨m, rfl, rfl⟩
  | cons a l ih =>
    have ha := hl a List.mem_cons_self
    have hexec := exec_writeRow ha.bank_lt ha.row_lt PATTERN () m
    obtain ⟨m', hm', hcell⟩ := ih (fun a' ha' => hl a' (List.mem_cons_of_mem a ha'))
      ⟨Function.update m.bank ((bankOf a).setWidth _) .idle,
        overwrite m.cell ((bankOf a).setWidth _) ((rowOf a).setWidth _) bursts
          fun _ => .fill PATTERN⟩
    refine ⟨m', ?_, hcell⟩
    rw [writeRows, perform, hexec]
    exact hm'

theorem readRows_eq (hl : ∀ a ∈ l, InDimm a) (m : Device) :
    ∃ m', readRows m l = some (m', l.flatMap (rowReports m.cell)) ∧ m'.cell = m.cell := by
  induction l generalizing m with
  | nil => exact ⟨m, rfl, rfl⟩
  | cons a l ih =>
    have ha := hl a List.mem_cons_self
    have hexec := exec_readRow ha.bank_lt ha.row_lt () m
    obtain ⟨m', hm', hcell⟩ := ih (fun a' ha' => hl a' (List.mem_cons_of_mem a ha'))
      ⟨Function.update m.bank ((bankOf a).setWidth _) .idle, m.cell⟩
    refine ⟨m', ?_, hcell⟩
    rw [readRows, perform, hexec, Option.map_some, Option.bind_some, hm', Option.map_some,
      List.map_map, List.flatMap_cons]
    rfl

/-! ## The test -/

/-- The wait of an iteration: its number, and the cells as it begins. -/
structure Pause where
  number : ℕ
  it : Iteration
  cell : Cells

/-- The waits of the iterations from number `j` on. -/
def pauses (decay : ℕ → Cells → Cells) (cell : Cells) (j : ℕ) : List Iteration → List Pause
  | [] => []
  | it :: its =>
    { number := j, it, cell := fillRows cell it.written } ::
      pauses decay (decay j (fillRows cell it.written)) (j + 1) its

/-- What is printed after a wait. -/
def Pause.reports (decay : ℕ → Cells → Cells) (w : Pause) : List Report :=
  w.it.written.flatMap (rowReports (decay w.number w.cell))

variable (decay : ℕ → Cells → Cells)

theorem iterate_eq {it : Iteration} (hit : it.read = it.written) (hl : ∀ a ∈ it.written, InDimm a)
    (f : Cells → Cells) (m : Device) :
    ∃ m', iterate f m it =
        some (m', it.written.flatMap (rowReports (f (fillRows m.cell it.written)))) ∧
      m'.cell = f (fillRows m.cell it.written) := by
  obtain ⟨m₁, hwrite, hcell⟩ := writeRows_eq hl m
  obtain ⟨m₂, hread, hcell₂⟩ := readRows_eq hl { m₁ with cell := f m₁.cell }
  refine ⟨m₂, ?_, by rw [hcell₂, hcell]⟩
  rw [iterate, perform_turnBus, Option.bind_some, hwrite, Option.bind_some, perform_turnBus,
    Option.bind_some, hit, hread, hcell]

/-- **The run of the test**, wait by wait. -/
theorem testOn_eq {its : List Iteration} (hits : ∀ it ∈ its, it.read = it.written)
    (hl : ∀ it ∈ its, ∀ a ∈ it.written, InDimm a) (m : Device) (j : ℕ) :
    testOn decay m j its = some ((pauses decay m.cell j its).flatMap (Pause.reports decay)) := by
  induction its generalizing m j with
  | nil => rfl
  | cons it its ih =>
    obtain ⟨m₁, hiter, hcell⟩ :=
      iterate_eq (hits it List.mem_cons_self) (hl it List.mem_cons_self) (decay j) m
    have hrest := ih (fun it' h => hits it' (List.mem_cons_of_mem it h))
      (fun it' h => hl it' (List.mem_cons_of_mem it h)) m₁ (j + 1)
    rw [testOn, hiter, Option.bind_some, hrest, hcell, Option.map_some, pauses, List.flatMap_cons]
    rfl

theorem filled_pause {cell : Cells} {j : ℕ} {its : List Iteration} {w : Pause}
    (hw : w ∈ pauses decay cell j its) {a : DramAddr} (ha : a ∈ w.it.written) :
    Filled w.cell a := by
  induction its generalizing cell j with
  | nil => cases hw
  | cons it its ih =>
    rcases List.mem_cons.1 hw with rfl | hmem
    · exact filled_fillRows cell ha
    · exact ih hmem

/-- Each iteration waits once. -/
theorem map_it_pauses (cell : Cells) (j : ℕ) (its : List Iteration) :
    (pauses decay cell j its).map Pause.it = its := by
  induction its generalizing cell j with
  | nil => rfl
  | cons it its ih => rw [pauses, List.map_cons, ih]

/-- A byte of a row that a wait has changed. -/
def Pause.Lost (w : Pause) (a : DramAddr) (c : BurstCol) (j : ℕ) : Prop :=
  (burstAt (decay w.number w.cell) a c).byte j ≠ (burstAt w.cell a c).byte j

/-- **What the test finds.** The memory accepts every command; each row of
the DIMM is under test in one wait, and full of the pattern as it begins;
and the test prints the rows' reports, wait by wait, a line for each byte
that its wait has changed and none for another. -/
structure Finds (its : List Iteration) (m : Device) : Prop where
  prints : testOn decay m 0 its =
    some ((pauses decay m.cell 0 its).flatMap (Pause.reports decay))
  each : ((pauses decay m.cell 0 its).flatMap fun w => w.it.written).Nodup
  all : ∀ a, InDimm a → ∃ w ∈ pauses decay m.cell 0 its, a ∈ w.it.written
  full : ∀ w ∈ pauses decay m.cell 0 its, ∀ a ∈ w.it.written, Filled w.cell a
  reports : ∀ w ∈ pauses decay m.cell 0 its, ∀ r, r ∈ w.reports decay ↔
    ∃ a ∈ w.it.written, ∃ c, ∃ j < 64, w.Lost decay a c j ∧
      r = { col := .ofNat 32 (8 * c.toNat), row := rowOf a, bank := bankOf a,
            data := (burstAt (decay w.number w.cell) a c).byte j }

end RetentionTest

end SoftMC
