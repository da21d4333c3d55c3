import SoftMC.Dispatch.Run
/-!
# Two-slot dispatch is sequential execution

With `dfi_ready` high throughout, a program dispatched from the idle
state runs as if its instructions were executed one after the other:
instruction `i` issues in DRAM cycle `time i`, each the count of its WAIT
or one cycle after its predecessor, and nothing issues in between.
-/

namespace SoftMC

open Clocked TwoSlot

namespace Dispatch

variable (d : Dispatch)

/-- The instruction a slot acts on in DRAM cycle `k`, slot `k mod 2` of
fabric cycle `k / 2`. -/
def issuedAt (k : ℕ) : Option Instr :=
  let e := d.state (k / 2)
  let i := e.dispIn (d.wave (k / 2))
  if k % 2 = 0 then e.iseq.disp.issue0 i else e.iseq.disp.issue1 i

/-- The DFI command of DRAM cycle `k`. -/
def cmdAt (k : ℕ) : DfiCmd :=
  let e := d.state (k / 2)
  let i := e.dispIn (d.wave (k / 2))
  if k % 2 = 0 then e.iseq.disp.dfiCmd0 i else e.iseq.disp.dfiCmd1 i

/-- A pipe output is valid in cycle `n`. -/
def Shows (n : ℕ) : Prop :=
  (d.state n).iseq.instr0DispEn = true ∨ (d.state n).iseq.instr1DispEn = true

/-- `dispatcher_busy` in cycle `n`. -/
def busy (n : ℕ) : Bool := (d.state n).iseq.dispatcherBusyR

/-- **Sequential execution** of `P`, instruction `i` in DRAM cycle
`time i`. -/
structure Executes (P : List Instr) (time : ℕ → ℕ) : Prop where
  /-- Instruction `0` issues in slot `0` of the first cycle with a valid
  pipe output. -/
  first : ∃ t, time 0 = 2 * t ∧ d.Shows t ∧ ∀ n < t, ¬ d.Shows n
  /-- The successor of a WAIT `n` issues exactly `n` DRAM cycles after it,
  that of any other instruction in the next one. -/
  next : ∀ i w, P[i]? = some w →
    time (i + 1) = time i + (match waitOf w with | some n => n | none => 1)
  /-- A DRAM cycle issues the instruction whose time it is, if any. -/
  issues : ∀ k w, d.issuedAt k = some w ↔ ∃ i, P[i]? = some w ∧ time i = k
  /-- Each instruction issues once, in program order. -/
  once : ∃ N, ∀ n ≥ N, (d.issued n).map Prod.snd = P
  /-- A slot drives the command of the DDR instruction it issues and is
  deselected otherwise. -/
  pins : ∀ k, d.cmdAt k =
    match d.issuedAt k with
    | some w => if opcode w = .ddr then instrDecoder true w else DfiCmd.deselect
    | none => DfiCmd.deselect
  /-- The dispatcher is busy up to the cycle after the one that issues the
  closing END. -/
  busy : ∀ n, d.busy n = true ↔ 1 ≤ n ∧ 2 * n ≤ time (P.length - 1) + 2
  /-- It comes back to the idle state, with nothing left to take. -/
  idle : ∃ N, ∀ n ≥ N, (d.state n).Resting ∧ (d.state n).content0 = [] ∧
    (d.state n).content1 = [] ∧ (d.state n).iseq.disp.waitCyclesR = 0 ∧
    (d.state n).iseq.disp.instrSrcR = false

/-! ## Issue by DRAM cycle -/

variable {d}

/-- The events of a cycle, read back by DRAM cycle. -/
theorem issuedAt_eq_some {k : ℕ} {w : Instr} :
    d.issuedAt k = some w ↔ (k, w) ∈ d.events (k / 2) := by
  refine Iff.trans ?_ Exec.mem_events.symm
  unfold issuedAt
  split
  · constructor
    · exact fun h => Or.inl ⟨by omega, h⟩
    · rintro (⟨-, h⟩ | ⟨hk, -⟩)
      · exact h
      · omega
  · constructor
    · exact fun h => Or.inr ⟨by omega, h⟩
    · rintro (⟨hk, -⟩ | ⟨-, h⟩)
      · omega
      · exact h

/-- What issues depends on `dfi_ready` up to its cycle. -/
theorem issuedAt_fromReset_congr {P : List Instr} {ready ready' : ℕ → Bool} {k : ℕ}
    (h : ∀ n ≤ k / 2, ready n = ready' n) :
    (fromReset P ready).issuedAt k = (fromReset P ready').issuedAt k := by
  have hwave : ∀ n ≤ k / 2, (fromReset P ready).wave n = (fromReset P ready').wave n := by
    intro n hn
    exact congrArg (Exec.In.mk none none (decide (n = 0)) false) (h n hn)
  have hstate : (fromReset P ready).state (k / 2) = (fromReset P ready').state (k / 2) :=
    run_congr fun n hn => hwave n (Nat.le_of_lt hn)
  rw [issuedAt, issuedAt, hstate, hwave _ (Nat.le_refl _)]

/-- An event bears the cycle that emits it. -/
theorem event_cycle {n : ℕ} {e : ℕ × Instr} (he : e ∈ d.events n) : e.1 / 2 = n := by
  obtain ⟨k, w⟩ := e
  rcases Exec.mem_events.1 he with ⟨rfl, -⟩ | ⟨rfl, -⟩
  · omega
  · omega

/-- What has been issued before cycle `n`, by DRAM cycle. -/
theorem mem_issued {n k : ℕ} {w : Instr} :
    (k, w) ∈ d.issued n ↔ k / 2 < n ∧ d.issuedAt k = some w := by
  rw [issued, mem_trace, issuedAt_eq_some]
  constructor
  · rintro ⟨t, ht, hmem⟩
    obtain rfl : k / 2 = t := event_cycle hmem
    exact ⟨ht, hmem⟩
  · rintro ⟨hk, hmem⟩
    exact ⟨k / 2, hk, hmem⟩

/-- **The pins of a DRAM cycle.** -/
theorem cmdAt_eq (k : ℕ) :
    d.cmdAt k =
      match d.issuedAt k with
      | some w => if opcode w = .ddr then instrDecoder true w else DfiCmd.deselect
      | none => DfiCmd.deselect := by
  have hdec : ∀ w : Instr, instrDecoder (Dispatcher.isDdr w) w =
      if opcode w = .ddr then instrDecoder true w else DfiCmd.deselect := by
    intro w
    by_cases h : opcode w = .ddr <;> simp [Dispatcher.isDdr, h, instrDecoder]
  unfold cmdAt issuedAt
  rcases Nat.mod_two_eq_zero_or_one k with hk | hk
  · rw [if_pos hk, if_pos hk, Dispatcher.dfiCmd0_eq]
    cases (d.state (k / 2)).iseq.disp.issue0 ((d.state (k / 2)).dispIn (d.wave (k / 2))) with
    | none => rfl
    | some w => exact hdec w
  · rw [if_neg (by omega), if_neg (by omega), Dispatcher.dfiCmd1_eq]
    cases (d.state (k / 2)).iseq.disp.issue1 ((d.state (k / 2)).dispIn (d.wave (k / 2))) with
    | none => rfl
    | some w => exact hdec w

/-! ## The run -/

/-- The DRAM cycle of instruction `i`. -/
def time (P : List Instr) (i : ℕ) : ℕ := finish waitOf 4 (P.take i)

theorem time_succ {P : List Instr} {i : ℕ} {w : Instr} (h : P[i]? = some w) :
    time P (i + 1) = time P i + (match waitOf w with | some n => n | none => 1) := by
  have hcost : cost waitOf w = match waitOf w with | some n => n | none => 1 := by
    unfold cost
    cases waitOf w <;> rfl
  rw [time, time, List.take_add_one, h, finish_append, ← hcost]
  simp

theorem mem_schedule {P : List Instr} {k : ℕ} {w : Instr} :
    (k, w) ∈ schedule waitOf 4 P ↔ ∃ i, P[i]? = some w ∧ time P i = k := by
  rw [List.mem_iff_getElem?]
  refine exists_congr fun i => ?_
  rw [schedule_getElem?, Option.map_eq_some_iff]
  constructor
  · rintro ⟨a, ha, hk⟩
    obtain ⟨rfl, rfl⟩ := Prod.mk.inj hk
    exact ⟨ha, rfl⟩
  · rintro ⟨ha, rfl⟩
    exact ⟨w, ha, rfl⟩

section Run

variable {P : Program} (hload : d.Loads P.instrs) (hidle : d.Idle)
  (hready : ∀ n, (d.wave n).dfiReady = true)
include hload hidle hready

/-- **The schedule is followed**: what has been issued, and what the
queues still hold, are the schedule. -/
theorem scheduled (n : ℕ) :
    ∃ R, P.instrs = (d.issued (2 + n)).map Prod.snd ++ R ∧ Placed (d.state (2 + n)).slots R ∧
      schedule waitOf 4 P.instrs =
        d.issued (2 + n) ++ schedule waitOf ((d.state (2 + n)).slots.due (2 + n)) R := by
  have hrun : IsRun waitOf (fun _ => true) 2 (fun n => (d.state (2 + n)).slots)
      (fun n => d.events (2 + n)) := by
    have h := d.isRun hload P.waits
    simp only [hready] at h
    exact h
  have hslots := d.slots_two hidle hload
  have hplaced : Placed (d.state 2).slots P.instrs := by
    rw [hslots]; exact Or.inl ⟨Or.inl rfl, rfl⟩
  have hdue : (d.state 2).slots.due 2 = 4 := by rw [hslots]; rfl
  obtain ⟨R, hR, hp, hsched⟩ := hrun.scheduled hplaced P.waits n
  rw [← d.issued_eq] at hR hsched
  exact ⟨R, hR, hp, by rw [← hsched, ← hdue]⟩

/-- Nothing is left once the last instruction's time has passed. -/
theorem drained_iff (n : ℕ) :
    ((d.state (2 + n)).content0 = [] ∧ (d.state (2 + n)).content1 = []) ↔
      time P.instrs (P.instrs.length - 1) < 2 * (2 + n) := by
  obtain ⟨R, hR, hp, hsched⟩ := scheduled hload hidle hready n
  -- the last instruction of the schedule, and on which side of cycle `2 + n` it falls
  obtain ⟨w, hw⟩ : ∃ w, P.instrs[P.instrs.length - 1]? = some w := by
    have := List.length_pos_iff.2 P.ne_nil
    exact ⟨_, List.getElem?_eq_getElem (by omega)⟩
  have hlast : (d.issued (2 + n) ++
      schedule waitOf ((d.state (2 + n)).slots.due (2 + n)) R)[P.instrs.length - 1]? =
        some (time P.instrs (P.instrs.length - 1), w) := by
    rw [← hsched, schedule_getElem?, hw]; rfl
  rw [Exec.slots_eq_nil, hp.eq_nil_iff]
  constructor
  · rintro rfl
    rw [schedule_nil, List.append_nil] at hlast
    have := (mem_issued.1 (List.mem_of_getElem? hlast)).1
    omega
  · intro hlt
    by_contra hne
    have hlen := congrArg List.length hR
    rw [List.length_append, List.length_map] at hlen
    have hpos := List.length_pos_iff.2 hne
    rw [List.getElem?_append_right (by omega)] at hlast
    have := le_of_mem_schedule waitOf (List.mem_of_getElem? hlast)
    simp only [Slots.due] at this
    omega

theorem issued_of_drained {n : ℕ} (hn : time P.instrs (P.instrs.length - 1) < 2 * (2 + n)) :
    d.issued (2 + n) = schedule waitOf 4 P.instrs := by
  obtain ⟨R, hR, hp, hsched⟩ := scheduled hload hidle hready n
  have hnil : R = [] :=
    hp.eq_nil_iff.1 ((Exec.slots_eq_nil _).1 ((drained_iff hload hidle hready n).2 hn))
  rw [hsched, hnil, schedule_nil, List.append_nil]

/-- A DRAM cycle issues what the schedule has in it. -/
theorem issuedAt_iff (k : ℕ) (w : Instr) :
    d.issuedAt k = some w ↔ (k, w) ∈ schedule waitOf 4 P.instrs := by
  constructor
  · intro h
    have hmem : (k, w) ∈ d.issued (2 + k) := mem_issued.2 ⟨by omega, h⟩
    obtain ⟨R, -, -, hsched⟩ := scheduled hload hidle hready k
    rw [hsched]
    exact List.mem_append_left _ hmem
  · intro h
    rw [← issued_of_drained hload hidle hready
      (n := time P.instrs (P.instrs.length - 1)) (by omega)] at h
    exact (mem_issued.1 h).2

/-- The dispatcher is busy until the cycle after the one that issues the
last instruction. -/
theorem busy_iff (n : ℕ) :
    d.busy n = true ↔ 1 ≤ n ∧ 2 * n ≤ time P.instrs (P.instrs.length - 1) + 2 := by
  have hfour : 4 ≤ time P.instrs (P.instrs.length - 1) := Nat.le_add_right 4 _
  have hflow : ∀ m, (d.state (2 + m)).Flowing := fun m => by rw [Nat.add_comm]; exact d.flowing m
  match n with
  | 0 => exact iff_of_false (fun h => by rw [busy, state_zero, d.notBusy] at h; cases h) (by omega)
  | 1 => exact iff_of_true d.loading.1 (by omega)
  | 2 =>
    refine iff_of_true ?_ (by omega)
    have hne := (drained_iff hload hidle hready 0).not.2 (by omega)
    rw [busy]
    by_contra hb
    exact hne ((hflow 0).drained (Bool.not_eq_true _ ▸ hb))
  | m + 3 =>
    have hb := ((hflow m).busy_next (D := d.depth) (i := d.wave (2 + m))
      (by rw [d.pulse]; exact decide_eq_false (by omega))).trans
        (drained_iff hload hidle hready m)
    rw [← state_succ, show 2 + m + 1 = m + 3 by omega] at hb
    rw [busy, ← Bool.not_eq_false, hb]
    omega

/-- **Two-slot dispatch is sequential execution.** -/
theorem executes : d.Executes P.instrs (time P.instrs) where
  first := by
    refine ⟨2, rfl, ?_, fun n hn h => ?_⟩
    · have hne := (drained_iff hload hidle hready 0).not.2 (by
        have : 4 ≤ time P.instrs (P.instrs.length - 1) := Nat.le_add_right 4 _
        omega)
      by_contra hno
      rw [Shows, not_or, Bool.not_eq_true, Bool.not_eq_true] at hno
      exact hne ⟨(d.flowing 0).pipe0.valid_iff.1 hno.1, (d.flowing 0).pipe1.valid_iff.1 hno.2⟩
    · obtain ⟨hv0, hv1⟩ := d.not_valid_of_lt hn
      rcases h with h | h
      · exact Bool.false_ne_true (hv0.symm.trans h)
      · exact Bool.false_ne_true (hv1.symm.trans h)
  next _ _ h := time_succ h
  issues k w := (issuedAt_iff hload hidle hready k w).trans mem_schedule
  once := by
    refine ⟨2 + time P.instrs (P.instrs.length - 1), fun n hn => ?_⟩
    obtain ⟨m, rfl⟩ := Nat.exists_eq_add_of_le hn
    rw [Nat.add_assoc, issued_of_drained hload hidle hready (by omega), schedule_map_snd]
  pins := cmdAt_eq
  busy := busy_iff hload hidle hready
  idle := by
    have hnil := (drained_iff hload hidle hready (time P.instrs (P.instrs.length - 1))).2 (by omega)
    refine ⟨2 + time P.instrs (P.instrs.length - 1) + 512, fun n hn => ?_⟩
    obtain ⟨m, rfl⟩ := Nat.exists_eq_add_of_le hn
    rw [Nat.add_assoc _ 512]
    obtain ⟨hc, hw, hrest⟩ := d.runs_down hnil (512 + m)
    obtain ⟨hr, hs⟩ := hrest (by omega)
    refine ⟨hr, hc.1, hc.2, BitVec.eq_of_toNat_eq ?_, hs⟩
    have := (d.state (2 + time P.instrs (P.instrs.length - 1))).iseq.disp.waitCyclesR.isLt
    rw [hw]
    change _ = 0
    omega

end Run

/-- ACT, a WAIT of four, RD and the END. -/
def activateRead : Program where
  instrs := [0x81190005#32, 0x40000004#32, 0x81291000#32, 0x00000000#32]
  ends := ⟨[0x81190005#32, 0x40000004#32, 0x81291000#32], 0x00000000#32, rfl, by decide⟩
  waits := posWaits_of_ne (by simp [waitOf, opcode, waitCount])

theorem activateRead_executes :
    (fromReset activateRead.instrs fun _ => true).Executes activateRead.instrs
      (time activateRead.instrs) :=
  executes rfl ⟨rfl, rfl⟩ fun _ => rfl

end Dispatch

end SoftMC
