import SoftMC.Dispatch.Sequential
import SoftMC.Readback.Bursts
/-!
# The READs that issue

The dispatcher recognises a READ with its CKE bit set, in a slot whose own
clock-enable register is high. A READ that issues while that register is
low gets no tags, and the capturer writes nothing for it. So the words of
all READs for the host arrive in order if and only if each of them finds
the clock enabled in its slot.
-/

namespace SoftMC

open Clocked Dispatcher

namespace BurstRun

variable (r : BurstRun)

/-- A READ issues in DRAM cycle `h`. -/
def issuesRead (h : ℕ) : Bool := (r.issuedAt h).any fun w => isDdr w && readPins w

/-- It issues for the host, with the lock open. -/
def issuesUser (h : ℕ) : Bool := r.forHost r.issuesRead h

/-- The clock is enabled for what issues in DRAM cycle `h`: by its CKE bit,
and by the register of its slot. -/
def enabledAt (h : ℕ) : Bool :=
  (r.issuedAt h).any ckeBit &&
    if h % 2 = 0 then (r.state (h / 2)).cke0R else (r.state (h / 2)).cke1R

/-- **Read bursts are put together in order**: what has been written is the
two words of every READ issued for the host, in issue order, but for the
second word of one of the last cycle, and nothing else. -/
def Reassembles (burst : ℕ → ℕ → BitVec 128) : Prop :=
  ∀ n, r.written (n + r.latency + 1) ++ owed r.issuesUser burst n = expected r.issuesUser burst n

variable {r} {burst : ℕ → ℕ → BitVec 128}

/-- **What is recognised** is what issues with the clock enabled. -/
theorem recognisedAt_eq_issuesRead (h : ℕ) : r.recognisedAt h = (r.issuesRead h && r.enabledAt h) := by
  have hany : ∀ (o : Option Instr) (cke : Bool), o.any (fun w => isRead w && cke) =
      (o.any (fun w => isDdr w && readPins w) && (o.any ckeBit && cke)) := by
    intro o cke
    cases o with
    | none => rfl
    | some w =>
      simp only [Option.any_some, isRead]
      cases isDdr w <;> cases readPins w <;> cases ckeBit w <;> rfl
  rw [recognisedAt, issuesRead, enabledAt, DispatcherRun.issuedAt]
  by_cases hslot : h % 2 = 0
  · rw [if_pos hslot, if_pos hslot, if_pos hslot]
    exact hany _ _
  · rw [if_neg hslot, if_neg hslot, if_neg hslot]
    exact hany _ _

theorem userAt_eq_issuesUser (h : ℕ) : r.userAt h = (r.issuesUser h && r.enabledAt h) := by
  rw [userAt, forHost, recognisedAt_eq_issuesRead, issuesUser, forHost, Bool.and_right_comm]

theorem readSpaced_of_issuesRead (hs : FourApart r.issuesRead) : r.ReadSpaced := by
  intro h h' hlt hr hr'
  rw [recognisedAt_eq_issuesRead, Bool.and_eq_true] at hr hr'
  exact hs h h' hlt hr.1 hr'.1

theorem places_of_issuesRead (hp : r.PlacesFor r.issuesRead burst) : r.Places burst := by
  intro h hr
  rw [recognisedAt_eq_issuesRead, Bool.and_eq_true] at hr
  exact hp h hr.1

/-! ## Counting the words -/

/-- The words of a cycle's reads for the host. -/
theorem length_words_le_of_userAt (h : ℕ) :
    (firstWord r.userAt burst h ++ secondWord r.userAt burst h).length ≤
      (firstWord r.issuesUser burst h ++ secondWord r.issuesUser burst h).length := by
  rw [firstWord, secondWord, firstWord, secondWord, userAt_eq_issuesUser]
  cases r.issuesUser h <;> cases r.enabledAt h <;> simp

theorem words_of_not {user : ℕ → Bool} {h : ℕ} (hu : user h = false) :
    firstWord user burst h = [] ∧ secondWord user burst h = [] := by
  rw [firstWord, secondWord, hu]
  exact ⟨rfl, rfl⟩

/-- A read that is not recognised leaves the host short of words. -/
theorem length_expected_lt {h n : ℕ} (hu : r.issuesUser h = true) (hcke : r.enabledAt h = false)
    (hn : h / 2 < n) :
    (expected r.userAt burst n).length < (expected r.issuesUser burst n).length := by
  have hle : ∀ k, (firstWord r.userAt burst k ++ secondWord r.userAt burst k).length ≤
      (firstWord r.issuesUser burst k ++ secondWord r.issuesUser burst k).length :=
    length_words_le_of_userAt
  have hcycle : ∀ (user : ℕ → Bool) (k : ℕ),
      ((firstWord user burst (2 * k) ++ secondWord user burst (2 * k)) ++
        (firstWord user burst (2 * k + 1) ++ secondWord user burst (2 * k + 1))).length =
      (firstWord user burst (2 * k) ++ secondWord user burst (2 * k)).length +
        (firstWord user burst (2 * k + 1) ++ secondWord user burst (2 * k + 1)).length :=
    fun _ _ => List.length_append
  have hlt : (firstWord r.userAt burst h ++ secondWord r.userAt burst h).length <
      (firstWord r.issuesUser burst h ++ secondWord r.issuesUser burst h).length := by
    obtain ⟨h1, h2⟩ : firstWord r.userAt burst h = [] ∧ secondWord r.userAt burst h = [] :=
      words_of_not (by rw [userAt_eq_issuesUser, hcke, Bool.and_false])
    rw [h1, h2, firstWord, hu]
    simp
  refine length_trace_lt (k := h / 2) (fun k _ => ?_) hn ?_
  · have h0 := hle (2 * k)
    have h1 := hle (2 * k + 1)
    rw [hcycle, hcycle]
    omega
  · have h0 := hle (2 * (h / 2))
    have h1 := hle (2 * (h / 2) + 1)
    rw [hcycle, hcycle]
    rcases Nat.mod_two_eq_zero_or_one h with heven | hodd
    · rw [show h = 2 * (h / 2) by omega] at hlt
      omega
    · rw [show h = 2 * (h / 2) + 1 by omega] at hlt
      omega

/-- Where the order is kept every READ for the host has been recognised. -/
theorem Reassembles.enabled (h : r.Reassembles burst) (hs : FourApart r.issuesRead)
    (hp : r.PlacesFor r.issuesRead burst) {k : ℕ} (hu : r.issuesUser k = true) :
    r.enabledAt k = true := by
  by_contra hne
  have hcke : r.enabledAt k = false := Bool.eq_false_of_not_eq_true hne
  -- no READ issues in the cycle behind it, so no word is still to come
  have hread : r.issuesRead k = true := (Bool.and_eq_true_iff.1 hu).1
  have hquiet : ∀ j, k < j → j < k + 4 → r.issuesUser j = false := by
    intro j hj hlt
    rw [← Bool.not_eq_true]
    intro hc
    have := hs k j hj hread (Bool.and_eq_true_iff.1 hc).1
    omega
  have hnone : ∀ user : ℕ → Bool, (∀ j, k < j → j < k + 4 → user j = false) →
      owed user burst (k / 2 + 2) = [] := by
    intro user hj
    rw [owed, (words_of_not (hj _ (by omega) (by omega))).2,
      (words_of_not (hj _ (by omega) (by omega))).2]
    rfl
  have hissued := h (k / 2 + 2)
  have hrecognised := written_eq (readSpaced_of_issuesRead hs) (places_of_issuesRead hp) (k / 2 + 2)
  rw [hnone _ hquiet] at hissued
  rw [hnone r.userAt fun j hj hlt => by
    rw [userAt_eq_issuesUser, hquiet j hj hlt, Bool.false_and]] at hrecognised
  have hlt : (expected r.userAt burst (k / 2 + 2)).length <
      (expected r.issuesUser burst (k / 2 + 2)).length :=
    length_expected_lt hu hcke (by omega)
  rw [← hissued, ← hrecognised] at hlt
  exact Nat.lt_irrefl _ hlt

/-- **The words of all READs for the host arrive, in order, if and only if
each of them issues with the clock enabled**: with its CKE bit set, in a
slot whose clock-enable register is high. -/
theorem reassembles_iff (hs : FourApart r.issuesRead) (hp : r.PlacesFor r.issuesRead burst) :
    r.Reassembles burst ↔ ∀ h, r.issuesUser h = true → r.enabledAt h = true := by
  constructor
  · intro h k hu
    exact h.enabled hs hp hu
  · intro h n
    have huser : r.issuesUser = r.userAt := by
      funext k
      rw [userAt_eq_issuesUser]
      cases hu : r.issuesUser k with
      | false => rfl
      | true => rw [h k hu]; rfl
    rw [huser]
    exact written_eq (readSpaced_of_issuesRead hs) (places_of_issuesRead hp) n

/-- Two READs for the host, in slots `0` and `1`, and a periodic one. -/
def threeReads : BurstRun where
  wave n := {
    periodicReadLock := decide (n = 5)
    enIn0 := decide (n = 0 ∨ n = 5)
    instrIn0 := 0x81290000#32
    enIn1 := decide (n = 2)
    instrIn1 := 0x81290000#32
    dfiReady := true }
  latency := 2
  latency_pos := by decide
  bus n := BitVec.ofNat 128 n
  almostFull _ := false
  full _ := false

theorem threeReads_written :
    threeReads.written 9 = [4#128 ++ 3#128, 6#128 ++ 5#128, 9#128 ++ 8#128, 11#128 ++ 10#128] := by
  -- nothing is issued behind the periodic read
  have hlate : ∀ h, 12 ≤ h → threeReads.issuedAt h = none := by
    intro h hge
    have h0 : (threeReads.wave (h / 2)).enIn0 = false := decide_eq_false (by omega)
    have h1 : (threeReads.wave (h / 2)).enIn1 = false := decide_eq_false (by omega)
    obtain ⟨hi0, hi1⟩ := issue_of_empty (s := threeReads.state (h / 2)) h0 h1
    rw [DispatcherRun.issuedAt, hi0, hi1, ite_self]
  have hsmall : ∀ h, threeReads.issuesRead h = true → h < 12 := by
    intro h hr
    by_contra hge
    rw [issuesRead, hlate h (Nat.le_of_not_lt hge)] at hr
    cases hr
  have hspaced : FourApart threeReads.issuesRead := by
    intro h h' hlt hr hr'
    have hall : ∀ h' < 12, ∀ h < h', threeReads.issuesRead h = true →
        threeReads.issuesRead h' = true → h + 4 ≤ h' := by decide +kernel
    exact hall h' (hsmall h' hr') h hlt hr hr'
  have hplaces : threeReads.PlacesFor threeReads.issuesRead
      fun h k => BitVec.ofNat 128 (h + 2 * 2 - 1 + k) := fun _ _ _ _ => rfl
  have henabled : ∀ h, threeReads.issuesUser h = true → threeReads.enabledAt h = true := by
    intro h hu
    have hall : ∀ h < 12, threeReads.issuesUser h = true → threeReads.enabledAt h = true := by
      decide +kernel
    exact hall h (hsmall h (Bool.and_eq_true_iff.1 hu).1) hu
  have hwritten := (reassembles_iff hspaced hplaces).2 henabled 6
  have howed : owed threeReads.issuesUser (fun h k => BitVec.ofNat 128 (h + 2 * 2 - 1 + k)) 6 = [] := by
    decide +kernel
  rw [howed, List.append_nil] at hwritten
  exact hwritten.trans (by decide +kernel)

/-! ## A READ that is not recognised -/

/-- The dispatcher of a dispatch, with its PHY and a capturer. -/
def ofDispatch (d : Dispatch) (latency : ℕ) (hpos : 0 < latency) (bus : ℕ → BitVec 128) :
    BurstRun where
  wave n := (d.state n).dispIn (d.wave n)
  latency := latency
  latency_pos := hpos
  bus := bus
  almostFull _ := false
  full _ := false

/-- What it issues is what the dispatch does. -/
theorem ofDispatch_issuedAt {d : Dispatch} (hd : d.start.iseq.disp = Dispatcher.reset) {latency : ℕ}
    (hpos : 0 < latency) (bus : ℕ → BitVec 128) (h : ℕ) :
    (ofDispatch d latency hpos bus).issuedAt h = d.issuedAt h := by
  have hstate : ∀ n, (ofDispatch d latency hpos bus).state n = (d.state n).iseq.disp := by
    intro n
    have hmap := run_map (F := Exec.next d.depth) (G := Dispatcher.next false)
      (fun e => e.iseq.disp) (fun e i => e.dispIn i) (fun _ _ => rfl) d.start d.wave n
    rw [hd] at hmap
    exact hmap.symm
  rw [DispatcherRun.issuedAt, hstate]
  rfl

/-- The clock is disabled from slot `0` and enabled again from slot `1`;
the READ issues in slot `0`. -/
def wakesOneSlot : Program where
  instrs := [0x80380000#32, 0x40000004#32, 0x81380000#32, 0x4000000A#32, 0x81290000#32,
    0x00000000#32]
  ends := ⟨[0x80380000#32, 0x40000004#32, 0x81380000#32, 0x4000000A#32, 0x81290000#32],
    0x00000000#32, rfl, by decide⟩
  waits := TwoSlot.posWaits_of_ne (by simp [waitOf, opcode, waitCount])

/-- Its dispatch from reset, with a latency of two cycles. -/
def deafSlot : BurstRun :=
  ofDispatch (Dispatch.fromReset wakesOneSlot.instrs fun _ => true) 2 (by decide) fun n =>
    BitVec.ofNat 128 n

/-- **A READ for the host is lost**: the clock is enabled again before it,
but not in the register of its slot. -/
theorem deafSlot_not_reassembles :
    (FourApart deafSlot.issuesRead ∧
        deafSlot.PlacesFor deafSlot.issuesRead fun h k => BitVec.ofNat 128 (h + 2 * 2 - 1 + k)) ∧
      ¬ deafSlot.Reassembles fun h k => BitVec.ofNat 128 (h + 2 * 2 - 1 + k) := by
  have honly : ∀ h, deafSlot.issuesRead h = true → h = 20 := by
    intro h hr
    obtain ⟨w, hw, hread⟩ := (Option.any_eq_true _ _).1 hr
    let d := Dispatch.fromReset wakesOneSlot.instrs fun _ => true
    have hissued : d.issuedAt h = some w := (ofDispatch_issuedAt rfl _ _ h).symm.trans hw
    have hmem := (Dispatch.issuedAt_iff (d := d) (P := wakesOneSlot) rfl ⟨rfl, rfl⟩ (fun _ => rfl)
      h w).1 hissued
    have hall : ∀ e ∈ TwoSlot.schedule waitOf 4 wakesOneSlot.instrs,
        (isDdr e.2 && readPins e.2) = true → e.1 = 20 := by decide +kernel
    exact hall (h, w) hmem hread
  have hspaced : FourApart deafSlot.issuesRead := by
    intro h h' hlt hr hr'
    rw [honly h hr, honly h' hr'] at hlt
    exact absurd hlt (Nat.lt_irrefl 20)
  have hplaces : deafSlot.PlacesFor deafSlot.issuesRead
      fun h k => BitVec.ofNat 128 (h + 2 * 2 - 1 + k) := fun _ _ _ _ => rfl
  refine ⟨⟨hspaced, hplaces⟩, fun h => ?_⟩
  have huser : deafSlot.issuesUser 20 = true ∧ deafSlot.enabledAt 20 = false := by decide +kernel
  rw [h.enabled hspaced hplaces huser.1] at huser
  exact Bool.noConfusion huser.2

end BurstRun

end SoftMC
