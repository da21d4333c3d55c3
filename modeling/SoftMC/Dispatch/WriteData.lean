import SoftMC.Dispatch.Data
/-!
# Write data carries the pattern of its own write

Enable and pattern of a write are stretched over two cycles by registers
of their own, and the data bus chooses between the registered and the next
pattern by the CAS pin of slot `0`. Where commands with that pin low keep
four DRAM cycles apart, no pattern leaks into another write's beats.
-/

namespace SoftMC

open Dispatcher

namespace DispatcherRun

variable (r : DispatcherRun)

/-- `dfi_wrdata_en` in cycle `n`, and one of the equal bytes of
`dfi_wrdata`. -/
def wrdataEn (n : ℕ) : Bool := (r.comb n).dfiWrdataEn
def wrdata (n : ℕ) : BitVec 8 := (r.state n).dfiWrdata (r.wave n)

/-- A DDR instruction with the CAS bit low issues in DRAM cycle `h`. -/
def casLow (h : ℕ) : Bool := (r.issuedAt h).any fun w => isDdr w && !casBit w

/-- Such instructions are four DRAM cycles apart. -/
def CasSpaced : Prop := ∀ h h', h < h' → r.casLow h = true → r.casLow h' = true → h + 4 ≤ h'

/-- The write `w` issues in DRAM cycle `h`. -/
def Writes (h : ℕ) (w : Instr) : Prop :=
  r.issuedAt h = some w ∧ opcode w = .ddr ∧ writePins w = true

/-- **Write data carries the pattern of its own write.** -/
structure CarriesPattern : Prop where
  /-- The data is enabled in the write's cycle and the next. -/
  enabled : ∀ h w, r.Writes h w → r.wrdataEn (h / 2) = true ∧ r.wrdataEn (h / 2 + 1) = true
  /-- It is the write's pattern in these two cycles for slot `0`, and in the
  two from the next on for slot `1`. -/
  data : ∀ h w, r.Writes h w →
    r.wrdata ((h + 1) / 2) = wrPattern w ∧ r.wrdata ((h + 1) / 2 + 1) = wrPattern w
  /-- It is enabled for nothing else. -/
  only : ∀ n, r.wrdataEn n = true → ∃ h w, r.Writes h w ∧ (n = h / 2 ∨ n = h / 2 + 1)

variable {r}

theorem Writes.casLow {h : ℕ} {w : Instr} (hw : r.Writes h w) : r.casLow h = true := by
  obtain ⟨hi, hop, hpins⟩ := hw
  have hcas : casBit w = false := by
    simp only [writePins, Bool.and_eq_true, Bool.not_eq_true'] at hpins
    exact hpins.1.2
  rw [DispatcherRun.casLow, hi, Option.any_some, isDdr, hop, hcas]
  rfl

theorem Writes.isWrite (hcke : r.ClockEnabled) {h : ℕ} {w : Instr} (hw : r.Writes h w) :
    isWrite w = true := by
  obtain ⟨hi, hop, hpins⟩ := hw
  have hddr : isDdr w = true := decide_eq_true hop
  rw [Dispatcher.isWrite, hddr, hpins, hcke h w hi hddr]
  rfl

/-- A write recognised is one issued, in either slot. -/
theorem writes_iff (hcke : r.ClockEnabled) (n : ℕ) :
    ((r.state n).writes0 (r.wave n) = true ↔ ∃ w, r.Writes (2 * n) w) ∧
      ((r.state n).writes1 (r.wave n) = true ↔ ∃ w, r.Writes (2 * n + 1) w) := by
  obtain ⟨h0, h1⟩ := cke hcke n
  have hany : ∀ h, ((r.issuedAt h).any fun w => Dispatcher.isWrite w && true) = true ↔
      ∃ w, r.Writes h w := by
    intro h
    rw [Option.any_eq_true]
    constructor
    · rintro ⟨w, hw, hwr⟩
      simp only [Bool.and_true, Dispatcher.isWrite, isDdr, Bool.and_eq_true, decide_eq_true_iff] at hwr
      exact ⟨w, hw, hwr.1.1, hwr.1.2⟩
    · rintro ⟨w, hw⟩
      exact ⟨w, hw.1, by rw [hw.isWrite hcke]; rfl⟩
  refine ⟨?_, ?_⟩
  · rw [← hany, issuedAt_even, writes0, h0]
  · rw [← hany, issuedAt_odd, writes1, h1]

/-- The CAS pin of slot `0`. -/
theorem casN_eq (n : ℕ) : ((r.state n).dfiCmd0 (r.wave n)).casN = !r.casLow (2 * n) := by
  rw [dfiCmd0_eq, casLow, issuedAt_even]
  cases (r.state n).issue0 (r.wave n) with
  | none => rfl
  | some w =>
    rw [Option.any_some]
    cases h : isDdr w <;> simp [instrDecoder, DfiCmd.deselect, h]

theorem wrdataEn_eq (n : ℕ) :
    r.wrdataEn n = ((r.state n).writeBurstR ||
      ((r.state n).writes0 (r.wave n) || (r.state n).writes1 (r.wave n))) := dfiWrdataEn_eq

/-- The data bus: the next pattern under a low CAS pin of slot `0`, the
registered one otherwise. -/
theorem wrdata_eq (n : ℕ) :
    r.wrdata n =
      if r.casLow (2 * n) then (r.comb n).writeBurstDataNs else (r.state n).writeBurstDataR := by
  rw [wrdata, dfiWrdata, casN_eq]
  cases r.casLow (2 * n) <;> rfl

/-- A cycle without a write keeps the pattern. -/
theorem pattern_kept (hcke : r.ClockEnabled) {n : ℕ} (h0 : r.casLow (2 * n) = false)
    (h1 : r.casLow (2 * n + 1) = false) :
    (r.comb n).writeBurstDataNs = (r.state n).writeBurstDataR := by
  have hno : ∀ h w, r.Writes h w → r.casLow h = false → False := fun h w hw hl =>
    absurd (hw.casLow.symm.trans hl) (by simp)
  have hw0 : (r.state n).writes0 (r.wave n) = false := by
    rw [← Bool.not_eq_true, (writes_iff hcke n).1]
    rintro ⟨w, hw⟩
    exact hno _ w hw h0
  have hw1 : (r.state n).writes1 (r.wave n) = false := by
    rw [← Bool.not_eq_true, (writes_iff hcke n).2]
    rintro ⟨w, hw⟩
    exact hno _ w hw h1
  rw [comb, writeBurstDataNs_eq, hw0, hw1]
  unfold patternAfter
  cases (r.state n).issue0 (r.wave n) <;> cases (r.state n).issue1 (r.wave n) <;> rfl

/-- A write in slot `0`, alone in its cycle, sets the pattern. -/
theorem pattern_of_write0 (hcke : r.ClockEnabled) {n : ℕ} {w : Instr} (hw : r.Writes (2 * n) w)
    (h1 : r.casLow (2 * n + 1) = false) : (r.comb n).writeBurstDataNs = wrPattern w := by
  have hw0 : (r.state n).writes0 (r.wave n) = true := (writes_iff hcke n).1.2 ⟨w, hw⟩
  have hw1 : (r.state n).writes1 (r.wave n) = false := by
    rw [← Bool.not_eq_true, (writes_iff hcke n).2]
    rintro ⟨v, hv⟩
    exact absurd (hv.casLow.symm.trans h1) (by simp)
  have hi : (r.state n).issue0 (r.wave n) = some w := (issuedAt_even n).symm.trans hw.1
  rw [comb, writeBurstDataNs_eq, hw0, hw1, hi]
  unfold patternAfter
  cases (r.state n).issue1 (r.wave n) <;> rfl

/-- A write in slot `1` sets it over slot `0`. -/
theorem pattern_of_write1 (hcke : r.ClockEnabled) {n : ℕ} {w : Instr}
    (hw : r.Writes (2 * n + 1) w) : (r.comb n).writeBurstDataNs = wrPattern w := by
  have hw1 : (r.state n).writes1 (r.wave n) = true := (writes_iff hcke n).2.2 ⟨w, hw⟩
  have hi : (r.state n).issue1 (r.wave n) = some w := (issuedAt_odd n).symm.trans hw.1
  rw [comb, writeBurstDataNs_eq, hw1, hi]
  rfl

/-- A cycle that recognises a write issues one in either slot. -/
theorem exists_writes_iff (hcke : r.ClockEnabled) (n : ℕ) :
    ((r.state n).writes0 (r.wave n) || (r.state n).writes1 (r.wave n)) = true ↔
      ∃ h w, r.Writes h w ∧ h / 2 = n := by
  rw [Bool.or_eq_true_iff, (writes_iff hcke n).1, (writes_iff hcke n).2]
  constructor
  · rintro (⟨w, hw⟩ | ⟨w, hw⟩)
    · exact ⟨_, w, hw, by omega⟩
    · exact ⟨_, w, hw, by omega⟩
  · rintro ⟨h, w, hw, rfl⟩
    rcases Nat.mod_two_eq_zero_or_one h with hm | hm
    · have he : 2 * (h / 2) = h := by omega
      exact Or.inl ⟨w, he.symm ▸ hw⟩
    · have he : 2 * (h / 2) + 1 = h := by omega
      exact Or.inr ⟨w, he.symm ▸ hw⟩

/-- Slot `0`'s pattern goes through the multiplexer at once, and then comes
from the register. -/
theorem wrdata_of_write0 (hcke : r.ClockEnabled) {n : ℕ} {w : Instr} (hw : r.Writes (2 * n) w)
    (h1 : r.casLow (2 * n + 1) = false) (h2 : r.casLow (2 * (n + 1)) = false) :
    r.wrdata n = wrPattern w ∧ r.wrdata (n + 1) = wrPattern w := by
  have hset := pattern_of_write0 hcke hw h1
  constructor
  · rw [wrdata_eq, hw.casLow, if_pos rfl, hset]
  · rw [wrdata_eq, h2, if_neg Bool.false_ne_true]
    exact hset

/-- Slot `1`'s is registered, and kept for a cycle. -/
theorem wrdata_of_write1 (hcke : r.ClockEnabled) {n : ℕ} {w : Instr}
    (hw : r.Writes (2 * n + 1) w) (h1 : r.casLow (2 * (n + 1)) = false)
    (h2 : r.casLow (2 * (n + 1) + 1) = false) (h3 : r.casLow (2 * (n + 1 + 1)) = false) :
    r.wrdata (n + 1) = wrPattern w ∧ r.wrdata (n + 1 + 1) = wrPattern w := by
  have hreg : (r.state (n + 1)).writeBurstDataR = wrPattern w := pattern_of_write1 hcke hw
  constructor
  · rw [wrdata_eq, h1, if_neg Bool.false_ne_true, hreg]
  · rw [wrdata_eq, h3, if_neg Bool.false_ne_true]
    exact (pattern_kept hcke h1 h2).trans hreg

/-- **Write data carries the pattern of its own write** where the commands
with the CAS bit low keep apart. -/
theorem carriesPattern (hcke : r.ClockEnabled) (hspace : r.CasSpaced) : r.CarriesPattern where
  enabled h w hw := by
    have hwr := (exists_writes_iff hcke (h / 2)).2 ⟨h, w, hw, rfl⟩
    constructor
    · rw [wrdataEn_eq, hwr, Bool.or_true]
    · have hburst : (r.state (h / 2 + 1)).writeBurstR = true := writeBurstR_next.trans hwr
      rw [wrdataEn_eq, hburst, Bool.true_or]
  data h w hw := by
    -- the register is rewritten by CAS commands, and none is near enough
    have hquiet : ∀ k, h < k → k < h + 4 → r.casLow k = false := by
      intro k hk hk'
      rw [← Bool.not_eq_true]
      intro hc
      have := hspace h k hk hw.casLow hc
      omega
    rcases Nat.mod_two_eq_zero_or_one h with hm | hm
    · obtain ⟨n, rfl⟩ : ∃ n, h = 2 * n := ⟨h / 2, by omega⟩
      have hn : (2 * n + 1) / 2 = n := by omega
      rw [hn]
      exact wrdata_of_write0 hcke hw (hquiet _ (by omega) (by omega))
        (hquiet _ (by omega) (by omega))
    · obtain ⟨n, rfl⟩ : ∃ n, h = 2 * n + 1 := ⟨h / 2, by omega⟩
      have hn : (2 * n + 1 + 1) / 2 = n + 1 := by omega
      rw [hn]
      exact wrdata_of_write1 hcke hw (hquiet _ (by omega) (by omega))
        (hquiet _ (by omega) (by omega)) (hquiet _ (by omega) (by omega))
  only n hen := by
    rw [wrdataEn_eq, Bool.or_eq_true] at hen
    rcases hen with hburst | hnow
    · cases n with
      | zero => cases hburst
      | succ n =>
        obtain ⟨h, w, hw, rfl⟩ := (exists_writes_iff hcke n).1 (writeBurstR_next.symm.trans hburst)
        exact ⟨h, w, hw, Or.inr rfl⟩
    · obtain ⟨h, w, hw, rfl⟩ := (exists_writes_iff hcke n).1 hnow
      exact ⟨h, w, hw, Or.inl rfl⟩

/-- A write in slot `0` and another in slot `1` two cycles later. -/
def twoWrites : DispatcherRun where
  wave n := {
    periodicReadLock := false
    enIn0 := decide (n = 0)
    instrIn0 := 0xD325D7E8#32
    enIn1 := decide (n = 2)
    instrIn1 := 0x81205000#32
    dfiReady := true }

theorem twoWrites_carry :
    twoWrites.CarriesPattern ∧ twoWrites.wrdata 0 = 0xA7#8 ∧ twoWrites.wrdata 1 = 0xA7#8 ∧
      twoWrites.wrdata 3 = 0x01#8 ∧ twoWrites.wrdata 4 = 0x01#8 := by
  -- nothing is issued behind the second write
  have hlate : ∀ h, 6 ≤ h → twoWrites.issuedAt h = none := by
    intro h hh
    have h0 : (twoWrites.wave (h / 2)).enIn0 = false := decide_eq_false (by omega)
    have h1 : (twoWrites.wave (h / 2)).enIn1 = false := decide_eq_false (by omega)
    obtain ⟨hi0, hi1⟩ := issue_of_empty (s := twoWrites.state (h / 2)) h0 h1
    rw [issuedAt, hi0, hi1, ite_self]
  have hcke : twoWrites.ClockEnabled := by
    intro h w hw hd
    rcases Nat.lt_or_ge h 6 with hlt | hge
    · have hall : ∀ h < 6, ((twoWrites.issuedAt h).all fun w => !isDdr w || ckeBit w) = true := by
        decide
      have := hall h hlt
      rw [hw, Option.all_some, hd] at this
      exact this
    · rw [hlate h hge] at hw
      cases hw
  have hspace : twoWrites.CasSpaced := by
    intro h h' hlt hc hc'
    have hsmall : ∀ k, twoWrites.casLow k = true → k < 6 := by
      intro k hk
      by_contra hge
      rw [casLow, hlate k (by omega)] at hk
      cases hk
    have hall : ∀ h' < 6, ∀ h < h', twoWrites.casLow h = true → twoWrites.casLow h' = true →
        h + 4 ≤ h' := by decide
    exact hall h' (hsmall h' hc') h hlt hc hc'
  exact ⟨carriesPattern hcke hspace, by decide, by decide, by decide, by decide⟩

end DispatcherRun

end SoftMC
