import SoftMC.Dispatch.Data
import SoftMC.Dispatch.Sequential
/-!
# The clock enable between DDR instructions

The clock enable is one pin of the DRAM, and the dispatcher keeps it in two
registers, one for each slot. A level set in one slot reaches the other only
through a DDR instruction issued there: the level is that of sequential
execution exactly when every instruction that changes it is followed by
another DDR instruction.
-/

namespace SoftMC

open Clocked Dispatcher TwoSlot

/-- **The level of sequential execution** in DRAM cycle `k`, for a program
started in DRAM cycle `T` at level `c`: a DDR instruction sets it, and it
holds until the next. -/
def ckeLevel : Bool → ℕ → List Instr → ℕ → Bool
  | c, _, [], _ => c
  | c, T, w :: l, k =>
    if k < T then c else ckeLevel (ckeAfter (some w) c) (T + cost waitOf w) l k

/-- From level `c`, an instruction that changes the level is followed by a
DDR instruction. -/
def ChangesPaired : Bool → List Instr → Prop
  | _, [] => True
  | c, w :: l => (ckeAfter (some w) c ≠ c → l.head?.any isDdr = true) ∧
      ChangesPaired (ckeAfter (some w) c) l

/-! ## Levels -/

/-- A DDR instruction sets the level whatever it was. -/
theorem ckeAfter_of_ddr {o : Option Instr} (h : o.any isDdr = true) (c c' : Bool) :
    ckeAfter o c = ckeAfter o c' := by
  cases o with
  | none => cases h
  | some w =>
    have hd : isDdr w = true := h
    simp only [ckeAfter, hd, if_true]

/-- Nothing else changes it. -/
theorem ckeAfter_of_not {o : Option Instr} (h : o.any isDdr = false) (c : Bool) :
    ckeAfter o c = c := by
  cases o with
  | none => rfl
  | some w =>
    have hd : isDdr w = false := h
    simp only [ckeAfter, hd, Bool.false_eq_true, if_false]

/-- **A pin kept in two registers**, each written every other cycle: it has
the level of one register exactly when the two start equal and every change
is followed by a further write. -/
theorem pin_eq_iff {o : ℕ → Option Instr} {pin level : ℕ → Bool}
    (hpin : ∀ k, pin (k + 2) = ckeAfter (o k) (pin k))
    (hlevel : ∀ k, level (k + 1) = ckeAfter (o k) (level k)) (h0 : o 0 = none)
    (h1 : pin 1 = level 0) :
    (∀ k, pin (k + 1) = level k) ↔
      pin 0 = pin 1 ∧ ∀ k, level (k + 1) ≠ level k → (o (k + 1)).any isDdr = true := by
  have hsecond : pin 2 = pin 0 := by rw [hpin, h0]; rfl
  have hfirst : level 1 = level 0 := by rw [hlevel, h0]; rfl
  constructor
  · intro h
    refine ⟨by rw [← hsecond, h 1, hfirst, h1], fun k hne => ?_⟩
    by_contra hddr
    rw [Bool.not_eq_true] at hddr
    -- the other register still holds the level from before the change
    have hold : pin (k + 3) = level k := by
      rw [hpin (k + 1), ckeAfter_of_not hddr, h k]
    have hkept : level (k + 2) = level (k + 1) := by
      rw [hlevel (k + 1), ckeAfter_of_not hddr]
    exact hne (by rw [← hkept, ← h (k + 2), hold])
  · rintro ⟨heq, hpair⟩ k
    have hboth : pin (k + 1) = level k ∧ pin (k + 2) = level (k + 1) := by
      induction k with
      | zero => exact ⟨h1, by rw [hsecond, hfirst, heq, h1]⟩
      | succ k ih =>
        refine ⟨ih.2, ?_⟩
        rw [hpin (k + 1), hlevel (k + 1), ih.1]
        cases hddr : (o (k + 1)).any isDdr with
        | true => exact ckeAfter_of_ddr hddr _ _
        | false =>
          have hsame : level (k + 1) = level k := by
            by_contra hne
            exact absurd ((hpair k hne).symm.trans hddr) (by simp)
          rw [hsame]
    exact hboth.1

/-! ## Along the schedule -/

section Schedule

variable {P : List Instr} {T k : ℕ} {c : Bool}

theorem cost_pos (hP : PosWaits waitOf P) {w : Instr} (hw : w ∈ P) : 1 ≤ cost waitOf w := by
  cases h : waitOf w with
  | none => rw [cost_of_none h]
  | some n =>
    rw [cost_of_some h]
    exact hP w hw n h

/-- The level before the start. -/
theorem ckeLevel_of_lt (h : k < T) : ckeLevel c T P k = c := by
  cases P with
  | nil => rfl
  | cons w l => rw [ckeLevel, if_pos h]

theorem ckeLevel_cons {w : Instr} {l : List Instr} (h : T ≤ k) :
    ckeLevel c T (w :: l) k = ckeLevel (ckeAfter (some w) c) (T + cost waitOf w) l k := by
  rw [ckeLevel, if_neg (by omega)]

/-- The level changes by what the schedule has in the cycle. -/
theorem ckeLevel_of_mem (hP : PosWaits waitOf P) (hT : 0 < T) {w : Instr}
    (h : (k, w) ∈ schedule waitOf T P) :
    ckeLevel c T P k = ckeAfter (some w) (ckeLevel c T P (k - 1)) := by
  induction P generalizing T c with
  | nil => cases h
  | cons v l ih =>
    have hcost := cost_pos hP List.mem_cons_self
    rcases List.mem_cons.1 h with heq | h
    · obtain ⟨rfl, rfl⟩ := Prod.mk.inj heq
      rw [ckeLevel_cons le_rfl, ckeLevel_of_lt (by omega), ckeLevel_of_lt (by omega)]
    · have hle : T + cost waitOf v ≤ k := le_of_mem_schedule waitOf h
      rw [ckeLevel_cons (by omega), ckeLevel_cons (by omega)]
      exact ih hP.tail (by omega) h

/-- It holds in every other cycle. -/
theorem ckeLevel_of_not_mem (hP : PosWaits waitOf P) (hT : 0 < T)
    (h : ∀ w, (k, w) ∉ schedule waitOf T P) : ckeLevel c T P k = ckeLevel c T P (k - 1) := by
  induction P generalizing T c with
  | nil => rfl
  | cons v l ih =>
    have hcost := cost_pos hP List.mem_cons_self
    rcases Nat.lt_trichotomy k T with hlt | rfl | hgt
    · rw [ckeLevel_of_lt hlt, ckeLevel_of_lt (by omega)]
    · exact absurd List.mem_cons_self (h v)
    · rw [ckeLevel_cons (by omega), ckeLevel_cons (by omega)]
      exact ih hP.tail (by omega) fun w hw => h w (List.mem_cons_of_mem _ hw)

/-- Behind an instruction of one cycle the schedule has the next one. -/
theorem exists_succ_iff {v : Instr} {l : List Instr} (hP : PosWaits waitOf l)
    (hcost : cost waitOf v = 1) (p : Instr → Bool) :
    (∃ w, (T + 1, w) ∈ schedule waitOf T (v :: l) ∧ p w = true) ↔ l.head?.any p = true := by
  rw [schedule_cons, hcost]
  constructor
  · rintro ⟨w, hw, hp⟩
    rcases List.mem_cons.1 hw with heq | hw
    · exact absurd (congrArg Prod.fst heq) (by simp)
    · cases l with
      | nil => cases hw
      | cons u l =>
        rcases List.mem_cons.1 hw with heq | hw
        · obtain ⟨-, rfl⟩ := Prod.mk.inj heq
          exact hp
        · have hu := cost_pos hP List.mem_cons_self
          have hle : T + 1 + cost waitOf u ≤ T + 1 := le_of_mem_schedule waitOf hw
          omega
  · intro hany
    cases l with
    | nil => cases hany
    | cons u l => exact ⟨u, List.mem_cons_of_mem _ List.mem_cons_self, hany⟩

/-- **The condition by DRAM cycle**: a change is followed by a DDR
instruction in the next cycle. -/
theorem changesPaired_iff (hP : PosWaits waitOf P) (hT : 0 < T) :
    (∀ k, ckeLevel c T P k ≠ ckeLevel c T P (k - 1) →
      ∃ w, (k + 1, w) ∈ schedule waitOf T P ∧ isDdr w = true) ↔ ChangesPaired c P := by
  induction P generalizing T c with
  | nil => exact iff_of_true (fun _ h => absurd rfl h) trivial
  | cons v l ih =>
    have hcost := cost_pos hP List.mem_cons_self
    -- only a DDR instruction changes the level, and it is one cycle long
    have hone : ckeAfter (some v) c ≠ c → cost waitOf v = 1 := by
      intro hne
      have hop : opcode v = .ddr := by
        by_contra hop
        exact hne (ckeAfter_of_not (o := some v) (decide_eq_false hop) c)
      exact cost_of_none (waitOf_of_ne (by rw [hop]; decide))
    have hstart : ckeLevel c T (v :: l) T = ckeAfter (some v) c ∧
        ckeLevel c T (v :: l) (T - 1) = c := by
      rw [ckeLevel_cons le_rfl, ckeLevel_of_lt (by omega), ckeLevel_of_lt (by omega)]
      exact ⟨rfl, rfl⟩
    rw [ChangesPaired, ← ih (T := T + cost waitOf v) hP.tail (by omega)]
    constructor
    · intro h
      refine ⟨fun hne => ?_, fun k hk => ?_⟩
      · exact (exists_succ_iff hP.tail (hone hne) isDdr).1
          (h T (by rw [hstart.1, hstart.2]; exact hne))
      · have hT' : T + cost waitOf v ≤ k := by
          by_contra hlt
          rw [ckeLevel_of_lt (by omega), ckeLevel_of_lt (by omega)] at hk
          exact hk rfl
        obtain ⟨w, hw, hd⟩ := h k (by rwa [ckeLevel_cons (by omega), ckeLevel_cons (by omega)])
        rcases List.mem_cons.1 hw with heq | hw
        · have := congrArg Prod.fst heq
          simp only at this
          omega
        · exact ⟨w, hw, hd⟩
    · rintro ⟨hhead, hrest⟩ k hk
      rcases Nat.lt_trichotomy k T with hlt | rfl | hgt
      · rw [ckeLevel_of_lt hlt, ckeLevel_of_lt (by omega)] at hk
        exact absurd rfl hk
      · rw [hstart.1, hstart.2] at hk
        exact (exists_succ_iff hP.tail (hone hk) isDdr).2 (hhead hk)
      · rw [ckeLevel_cons (by omega), ckeLevel_cons (by omega)] at hk
        obtain ⟨w, hw, hd⟩ := hrest k hk
        exact ⟨w, List.mem_cons_of_mem _ hw, hd⟩

end Schedule

/-! ## The dispatch -/

namespace Dispatch

variable (d : Dispatch)

/-- `dfi_cke0` and `dfi_cke1` by DRAM cycle, slot `k mod 2` of fabric cycle
`k / 2`. -/
def ckeAt (k : ℕ) : Bool :=
  if k % 2 = 0 then (d.state (k / 2)).iseq.disp.cke0R else (d.state (k / 2)).iseq.disp.cke1R

/-- **The clock enable is held**: one fabric cycle after issue the pins have
the level of sequential execution, from the level before. -/
def HoldsLevel (P : List Instr) : Prop :=
  ∀ k, d.ckeAt (k + 2) = ckeLevel (d.ckeAt 1) (time P 0) P k

variable {d}

/-- A slot's register changes by what the slot issues. -/
theorem ckeAt_add_two (k : ℕ) : d.ckeAt (k + 2) = ckeAfter (d.issuedAt k) (d.ckeAt k) := by
  have hdiv : (k + 2) / 2 = k / 2 + 1 := by omega
  have hmod : (k + 2) % 2 = k % 2 := by omega
  unfold ckeAt issuedAt
  rw [hdiv, hmod]
  rcases Nat.mod_two_eq_zero_or_one k with hk | hk
  · rw [if_pos hk, if_pos hk, if_pos hk]
    exact cke0R_next
  · rw [if_neg (by omega), if_neg (by omega), if_neg (by omega)]
    exact cke1R_next

/-- **The clock enable is held exactly where every change is paired.** -/
theorem holdsLevel_iff {P : Program} (hload : d.Loads P.instrs) (hidle : d.Idle)
    (hready : ∀ n, (d.wave n).dfiReady = true) :
    d.HoldsLevel P.instrs ↔
      d.ckeAt 0 = d.ckeAt 1 ∧ ChangesPaired (d.ckeAt 1) P.instrs := by
  have hissued := issuedAt_iff hload hidle hready
  -- the level before each DRAM cycle
  have hlevel : ∀ k, ckeLevel (d.ckeAt 1) 4 P.instrs k =
      ckeAfter (d.issuedAt k) (ckeLevel (d.ckeAt 1) 4 P.instrs (k - 1)) := by
    intro k
    cases h : d.issuedAt k with
    | none =>
      refine ckeLevel_of_not_mem P.waits (by decide) fun w hw => ?_
      rw [← hissued, h] at hw
      cases hw
    | some w => exact ckeLevel_of_mem P.waits (by decide) ((hissued k w).1 h)
  have hnone : d.issuedAt 0 = none := by
    cases h : d.issuedAt 0 with
    | none => rfl
    | some w =>
      have hle := le_of_mem_schedule waitOf ((hissued 0 w).1 h)
      simp at hle
  have hstart : ckeLevel (d.ckeAt 1) 4 P.instrs 0 = d.ckeAt 1 := ckeLevel_of_lt (by decide)
  have hpin := @pin_eq_iff d.issuedAt d.ckeAt (fun k => ckeLevel (d.ckeAt 1) 4 P.instrs (k - 1))
    ckeAt_add_two hlevel hnone hstart.symm
  have hany : ∀ k, (d.issuedAt (k + 1)).any isDdr = true ↔
      ∃ w, (k + 1, w) ∈ schedule waitOf 4 P.instrs ∧ isDdr w = true := by
    intro k
    rw [Option.any_eq_true]
    exact exists_congr fun w => and_congr_left' (hissued (k + 1) w)
  rw [← changesPaired_iff P.waits (by decide : 0 < 4)]
  simp only [hany, Nat.add_sub_cancel] at hpin
  rw [← hpin]
  constructor
  · intro h k
    cases k with
    | zero => exact hstart.symm
    | succ k => exact h k
  · exact fun h k => h (k + 1)

/-- Self-refresh entered with one instruction. -/
def enterAlone : Program where
  instrs := [0x80080000#32, 0x40000004#32, 0x00000000#32]
  ends := ⟨[0x80080000#32, 0x40000004#32], 0x00000000#32, rfl, by decide⟩
  waits := posWaits_of_ne (by simp [waitOf, opcode, waitCount])

/-- The next DRAM cycle has the clock enabled again. -/
theorem enterAlone_not_holdsLevel :
    ¬ (fromReset enterAlone.instrs fun _ => true).HoldsLevel enterAlone.instrs := by
  intro h
  have hnext := h 5
  revert hnext
  decide +kernel

/-- Entered and left with a NOP behind each change. -/
def enterTwice : Program where
  instrs := [0x80080000#32, 0x80380000#32, 0x40000005#32, 0x81380000#32, 0x81380000#32,
    0x00000000#32]
  ends := ⟨[0x80080000#32, 0x80380000#32, 0x40000005#32, 0x81380000#32, 0x81380000#32],
    0x00000000#32, rfl, by decide⟩
  waits := posWaits_of_ne (by simp [waitOf, opcode, waitCount])

theorem enterTwice_holdsLevel :
    (fromReset enterTwice.instrs fun _ => true).HoldsLevel enterTwice.instrs :=
  (holdsLevel_iff (d := fromReset enterTwice.instrs fun _ => true) rfl ⟨rfl, rfl⟩ fun _ => rfl).2
    ⟨rfl, by decide, by decide, by decide, by decide, by decide, by decide, trivial⟩

end Dispatch

end SoftMC
