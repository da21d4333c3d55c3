import SoftMC.Dispatch.Refine
/-!
# One dispatch

The dispatcher from the `process_iseq` pulse on, with both FIFOs loaded
and no further writes. The pulse of cycle `0` raises `dispatcher_busy`,
the stages load in cycle `1`, and from cycle `2` on both queues show
their heads.
-/

namespace SoftMC

open Clocked TwoSlot

/-- **A dispatch**: the dispatcher rests with its stages empty when
`process_iseq` is pulsed in cycle `0`, and nothing is written from then
on. The counter and the source flag, `periodic_read_lock` and `dfi_ready`
are left open. -/
structure Dispatch where
  depth : Option ℕ
  start : Exec
  wave : ℕ → Exec.In
  notBusy : start.iseq.dispatcherBusyR = false
  empty0 : start.iseq.instr0Reg.Empty
  empty1 : start.iseq.instr1Reg.Empty
  pulse : ∀ n, (wave n).processIseq = decide (n = 0)
  noWrite : ∀ n, (wave n).wr0 = none ∧ (wave n).wr1 = none

namespace Dispatch

/-- The dispatch of a list from reset, under a waveform of `dfi_ready`. -/
def fromReset (P : List Instr) (ready : ℕ → Bool) : Dispatch where
  depth := none
  start := { fifo0 := (deal P).1, fifo1 := (deal P).2, iseq := IseqDispatcher.reset }
  wave n := { wr0 := none, wr1 := none, processIseq := decide (n = 0), periodicReadLock := false,
              dfiReady := ready n }
  notBusy := rfl
  empty0 := PipeReg.idle_reset.empty
  empty1 := PipeReg.idle_reset.empty
  pulse _ := rfl
  noWrite _ := ⟨rfl, rfl⟩

variable (d : Dispatch)

/-- The registers at the start of cycle `n`. -/
def state (n : ℕ) : Exec := run (Exec.next d.depth) d.start d.wave n

/-- What the slots issue in cycle `t`, by DRAM cycle. -/
def events (t : ℕ) : List (ℕ × Instr) := (d.state t).events t (d.wave t)

/-- The instructions issued before cycle `n`, with their DRAM cycles. -/
def issued (n : ℕ) : List (ℕ × Instr) := trace d.events n

/-- The dispatcher is idle: no count is left, and the first queue leads. -/
def Idle : Prop := d.start.iseq.disp.waitCyclesR = 0 ∧ d.start.iseq.disp.instrSrcR = false

/-- Element `i` of the list stands in FIFO `i mod 2`. -/
def Loads (P : List Instr) : Prop := deal P = (d.start.fifo0, d.start.fifo1)

@[simp] theorem state_zero : d.state 0 = d.start := rfl

theorem state_succ (n : ℕ) : d.state (n + 1) = Exec.next d.depth (d.state n) (d.wave n) := rfl

/-! ## The first cycles -/

theorem loading : (d.state 1).Loading := by
  have hb : (d.state 1).iseq.dispatcherBusyR = true := by
    rw [state_succ, Exec.busy_next, d.pulse 0]; rfl
  exact ⟨hb, Exec.idle_next_of_not_busy d.notBusy d.empty0 d.empty1⟩

theorem flowing (n : ℕ) : (d.state (n + 2)).Flowing := by
  induction n with
  | zero => exact d.loading.next (d.noWrite 1).1 (d.noWrite 1).2
  | succ n ih =>
    exact ih.next (by rw [d.pulse]; exact decide_eq_false (by omega)) (d.noWrite _).1 (d.noWrite _).2

theorem sound (n : ℕ) : (d.state n).Sound :=
  run_invariant (I := fun _ e => Exec.Sound e) ⟨d.empty0.sound, d.empty1.sound⟩
    (fun _ h => h.next) n

/-- Nothing is on display before cycle `2`. -/
theorem empty_of_lt {n : ℕ} (hn : n < 2) :
    (d.state n).iseq.instr0Reg.Empty ∧ (d.state n).iseq.instr1Reg.Empty := by
  rcases Nat.lt_or_ge n 1 with h | h
  · obtain rfl : n = 0 := by omega
    exact ⟨d.empty0, d.empty1⟩
  · obtain rfl : n = 1 := by omega
    exact ⟨d.loading.2.1.empty, d.loading.2.2.empty⟩

theorem not_valid_of_lt {n : ℕ} (hn : n < 2) :
    (d.state n).iseq.instr0Reg.rValid1 = false ∧ (d.state n).iseq.instr1Reg.rValid1 = false :=
  ⟨(d.empty_of_lt hn).1.1, (d.empty_of_lt hn).2.1⟩

theorem events_of_lt {n : ℕ} (hn : n < 2) : d.events n = [] :=
  (Exec.idle_next (D := d.depth) (d.not_valid_of_lt hn).1 (d.not_valid_of_lt hn).2 n).1

/-! ## The queues over a run -/

/-- The words taken from each input in cycle `n`. -/
def taken0 (n : ℕ) : List Instr := ((d.state n).taken0 (d.wave n)).toList
def taken1 (n : ℕ) : List Instr := ((d.state n).taken1 (d.wave n)).toList

/-- **Each FIFO is taken in order**, and what is not taken is still held. -/
theorem fifo_eq (n : ℕ) :
    d.start.fifo0 = trace d.taken0 n ++ (d.state n).content0 ∧
      d.start.fifo1 = trace d.taken1 n ++ (d.state n).content1 := by
  induction n with
  | zero =>
    simp only [trace_zero, state_zero, Exec.content0, Exec.content1, d.empty0.held_eq,
      d.empty1.held_eq, List.nil_append, and_self]
  | succ n ih =>
    obtain ⟨hq0, hq1⟩ := Exec.contents_of_no_write (D := d.depth) (d.sound n) (d.noWrite n).1
      (d.noWrite n).2
    rw [trace_succ, trace_succ, List.append_assoc, List.append_assoc, state_succ]
    unfold taken0 taken1 at *
    rw [← hq0, ← hq1]
    exact ih

/-- Nothing is taken before cycle `2`. -/
theorem contents_of_le {n : ℕ} (hn : n ≤ 2) :
    (d.state n).content0 = d.start.fifo0 ∧ (d.state n).content1 = d.start.fifo1 := by
  have hnone : ∀ k < 2, d.taken0 k = [] ∧ d.taken1 k = [] := by
    intro k hk
    obtain ⟨hv0, hv1⟩ := d.not_valid_of_lt hk
    exact ⟨by simp [taken0, Exec.toList_taken0, hv0], by simp [taken1, Exec.toList_taken1, hv1]⟩
  have htrace : trace d.taken0 n = [] ∧ trace d.taken1 n = [] :=
    ⟨trace_eq_nil fun k hk => (hnone k (by omega)).1,
      trace_eq_nil fun k hk => (hnone k (by omega)).2⟩
  obtain ⟨h0, h1⟩ := d.fifo_eq n
  rw [htrace.1] at h0
  rw [htrace.2] at h1
  exact ⟨h0.symm, h1.symm⟩

/-- From the idle state the two-slot machine starts on the loaded list. -/
theorem slots_two (hidle : d.Idle) {P : List Instr} (hload : d.Loads P) :
    (d.state 2).slots = ⟨0, (deal P).1, (deal P).2⟩ := by
  have hrun : ∀ n ≤ 2, (d.state n).iseq.disp.waitCyclesR.toNat = 0 ∧
      (d.state n).iseq.disp.instrSrcR = false := by
    intro n
    induction n with
    | zero => exact fun _ => ⟨by rw [state_zero, hidle.1]; rfl, hidle.2⟩
    | succ n ih =>
      intro hn
      obtain ⟨hv0, hv1⟩ := d.not_valid_of_lt (n := n) (by omega)
      obtain ⟨-, hw, hs⟩ := Exec.idle_next (D := d.depth) (i := d.wave n) hv0 hv1 n
      exact ⟨by rw [state_succ, hw, (ih (by omega)).1], hs⟩
  obtain ⟨hw, hs⟩ := hrun 2 le_rfl
  obtain ⟨h0, h1⟩ := d.contents_of_le (n := 2) le_rfl
  rw [Exec.slots, hw, hs, h0, h1, hload]
  rfl

/-- The waits left to take stay positive. -/
theorem posWaits {P : List Instr} (hload : d.Loads P) (hP : TwoSlot.PosWaits waitOf P) (n : ℕ) :
    (d.state n).PosWaits := by
  have hmem : ∀ w, w ∈ d.start.fifo0 ∨ w ∈ d.start.fifo1 → w ∈ P := by
    intro w hw
    refine mem_deal.1 ?_
    rw [hload]
    exact hw
  obtain ⟨h0, h1⟩ := d.fifo_eq n
  constructor
  · exact fun w hw => hP w (hmem w (Or.inl (by rw [h0]; exact List.mem_append_right _ hw)))
  · exact fun w hw => hP w (hmem w (Or.inr (by rw [h1]; exact List.mem_append_right _ hw)))

/-- **A dispatch is a run of the two-slot machine**, from cycle `2` on. -/
theorem isRun {P : List Instr} (hload : d.Loads P) (hP : TwoSlot.PosWaits waitOf P) :
    IsRun waitOf (fun n => (d.wave (2 + n)).dfiReady) 2 (fun n => (d.state (2 + n)).slots)
      (fun n => d.events (2 + n)) := by
  intro n
  have hflow : (d.state (2 + n)).Flowing := by rw [Nat.add_comm]; exact d.flowing n
  have hnext : d.state (2 + (n + 1)) = Exec.next d.depth (d.state (2 + n)) (d.wave (2 + n)) := rfl
  refine ⟨?_, Exec.events_refines hflow _⟩
  simp only [hnext]
  exact Exec.slots_next hflow (d.posWaits hload hP _) (d.noWrite _).1 (d.noWrite _).2

theorem issued_eq (n : ℕ) : d.issued (2 + n) = trace (fun k => d.events (2 + k)) n := by
  rw [issued, trace_add, trace_eq_nil fun k hk => d.events_of_lt hk, List.nil_append]

/-- **A drained dispatcher comes back to the idle state**: it falls idle,
the flag to the first queue, and the counter runs down. -/
theorem runs_down {n : ℕ} (h : (d.state (2 + n)).content0 = [] ∧ (d.state (2 + n)).content1 = [])
    (k : ℕ) :
    ((d.state (2 + n + k)).content0 = [] ∧ (d.state (2 + n + k)).content1 = []) ∧
      (d.state (2 + n + k)).iseq.disp.waitCyclesR.toNat =
        (d.state (2 + n)).iseq.disp.waitCyclesR.toNat - 2 * k ∧
      (0 < k → (d.state (2 + n + k)).Resting ∧
        (d.state (2 + n + k)).iseq.disp.instrSrcR = false) := by
  induction k with
  | zero => exact ⟨h, rfl, fun hk => absurd hk (Nat.lt_irrefl 0)⟩
  | succ k ih =>
    obtain ⟨hc, hw, -⟩ := ih
    have hflow : ∀ m, (d.state (2 + m)).Flowing := fun m => by rw [Nat.add_comm]; exact d.flowing m
    have hf := hflow (n + k)
    rw [← Nat.add_assoc] at hf
    obtain ⟨-, hwait, hsrc⟩ := Exec.idle_next (D := d.depth) (i := d.wave (2 + n + k))
      (hf.pipe0.valid_iff.2 hc.1) (hf.pipe1.valid_iff.2 hc.2) 0
    have hb := (hf.busy_next (D := d.depth) (i := d.wave (2 + n + k))
      (by rw [d.pulse]; exact decide_eq_false (by omega))).2 hc
    obtain ⟨hq0, hq1⟩ := Exec.contents_of_no_write (D := d.depth) hf.sound
      (d.noWrite (2 + n + k)).1 (d.noWrite (2 + n + k)).2
    rw [hc.1] at hq0
    rw [hc.2] at hq1
    simp only [List.nil_eq, List.append_eq_nil_iff] at hq0 hq1
    have hf' := hflow (n + k + 1)
    rw [show 2 + (n + k + 1) = 2 + n + k + 1 by omega, state_succ] at hf'
    refine ⟨⟨hq0.2, hq1.2⟩, ?_, fun _ => ⟨(hf'.resting hb).1, hsrc⟩⟩
    rw [← Nat.add_assoc, state_succ, hwait, hw]
    omega

end Dispatch

/-! ## Programs -/

/-- **A program**: instructions closed by an END, with no WAIT of zero
DRAM cycles, as `genWAIT` asserts. The upper bound it asserts is the ten
bits the hardware reads. -/
structure Program where
  instrs : List Instr
  ends : ∃ l w, instrs = l ++ [w] ∧ opcode w = .endIseq
  waits : TwoSlot.PosWaits waitOf instrs

theorem Program.ne_nil (P : Program) : P.instrs ≠ [] := by
  obtain ⟨l, w, h, -⟩ := P.ends
  rw [h]
  exact List.append_ne_nil_of_right_ne_nil l (List.cons_ne_nil w [])

end SoftMC
