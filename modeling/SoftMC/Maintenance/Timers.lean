import SoftMC.Model.MaintCtrl
import SoftMC.Common.Countdown
/-!
# The maintenance timers

Each request controller is an alarm. Its timer is revived by its own
acknowledgment only, and auto-refresh also by being enabled, so the
question is whether some coincidence of tick, acknowledgment, enable and
new interval leaves one dead, or early.
-/

namespace SoftMC

open Clocked

theorem clogb2_pos (n : ℕ) : 0 < clogb2 n := by
  rw [clogb2, clogb2Loop]
  split <;> omega

/-- A timer at its last count. -/
theorem decide_eq_one {w : ℕ} (hw : 0 < w) (t : BitVec w) : decide (t = 1) = decide (t.toNat = 1) := by
  have hone : (1 : BitVec w).toNat = 1 := Nat.mod_eq_of_lt (Nat.one_lt_two_pow hw.ne')
  rw [decide_eq_decide, ← BitVec.toNat_inj, hone]

/-- Nothing is loaded where the condition is low. -/
theorem load_eq_none {b : Bool} {k : ℕ} : (if b then some k else none) = none ↔ b = false := by
  cases b <;> simp

/-! ## The controllers as alarms -/

namespace PeriodicRdCtrl

/-- What the timer is loaded with. -/
def load (i : In) : Option ℕ :=
  if !i.dfiInitComplete then some 0
  else if i.periodicRdAck then some PERIODIC_RD_TIMER_DIV
  else none

/-- **The periodic read's timer is an alarm**, cleared where it is
acknowledged. -/
theorem alarm {s : ℕ → PeriodicRdCtrl} {i : ℕ → In} (h : ∀ n, s (n + 1) = (s n).next (i n) false) :
    Alarm (fun n => (s n).periodicRdTimerR.toNat) (fun n => load (i n))
      (fun n => (i n).maintPrescalerTick) (fun n => (s n).periodicRdReq)
      (fun n => (i n).periodicRdAck) where
  loads n k hk := by
    simp only [load] at hk
    simp only [h, next]
    split at hk
    · rw [if_pos ‹_›]
      exact Option.some.inj hk
    · split at hk
      · rw [if_neg ‹_›, if_pos ‹_›, ← Option.some.inj hk]
        exact toNat_ofNat_clogb2 _
      · cases hk
  counts n hk := by
    simp only [load] at hk
    simp only [h, next]
    split at hk
    · cases hk
    · split at hk
      · cases hk
      · rw [if_neg ‹_›, if_neg ‹_›, toNat_countDown]
  latch n := by
    simp only [h, next, periodicRdReq, periodicRdTimerOne, fires, decide_eq_one (clogb2_pos _),
      Bool.not_false, Bool.true_and]

end PeriodicRdCtrl

namespace ZqCalibCtrl

/-- What the timer is loaded with. -/
def load (s : ZqCalibCtrl) (i : In) : Option ℕ :=
  if !i.dfiInitComplete || s.zqTick i then some ZQ_TIMER_DIV else none

theorem countdown {s : ℕ → ZqCalibCtrl} {i : ℕ → In} (h : ∀ n, s (n + 1) = (s n).next (i n) false) :
    Countdown (fun n => (s n).zqTimerR.toNat) (fun n => load (s n) (i n))
      (fun n => (i n).maintPrescalerTick) where
  loads n k hk := by
    simp only [load] at hk
    simp only [h, next]
    split at hk
    · rw [if_pos ‹_›, ← Option.some.inj hk]
      exact toNat_ofNat_clogb2 _
    · cases hk
  counts n hk := by
    simp only [load] at hk
    simp only [h, next]
    split at hk
    · cases hk
    · rw [if_neg ‹_›, toNat_countDown]

/-- **The ZQ request is a flag** that a tick sets over an acknowledgment. -/
theorem flag {s : ℕ → ZqCalibCtrl} {i : ℕ → In} (h : ∀ n, s (n + 1) = (s n).next (i n) false) :
    Flag (fun n => (s n).zqRequestR) (fun n => !(i n).dfiInitComplete || (s n).zqTick (i n))
      (fun n => (i n).zqAck) where
  step n := by
    have hdiv : decide (ZQ_TIMER_DIV ≠ 0) = true := by decide
    simp only [h, next, hdiv, Bool.not_false, Bool.true_and, Bool.and_true]
    cases (i n).dfiInitComplete <;> cases (s n).zqTick (i n) <;> cases (i n).zqAck <;>
      cases (s n).zqRequestR <;> rfl

/-- The timer's tick is its last count. -/
theorem zqTick_eq (s : ZqCalibCtrl) (i : In) :
    s.zqTick i = (i.maintPrescalerTick && decide (s.zqTimerR.toNat = 1)) := by
  rw [zqTick, decide_eq_one (clogb2_pos _), Bool.and_comm]

end ZqCalibCtrl

namespace AutorefCtrl

/-- What the timer is loaded with. -/
def load (s : AutorefCtrl) (i : In) : Option ℕ :=
  if s.loads i then some i.autorefInterval.toNat else none

/-- The request is taken back by an acknowledgment, and by disabling. -/
def clears (i : In) : Bool := !(i.dfiInitComplete && i.autorefEn && !i.autorefAck)

/-- **The refresh timer is an alarm.** -/
theorem alarm {s : ℕ → AutorefCtrl} {i : ℕ → In} (h : ∀ n, s (n + 1) = (s n).next (i n) false) :
    Alarm (fun n => (s n).autorefTimerR.toNat) (fun n => load (s n) (i n))
      (fun n => (i n).maintPrescalerTick) (fun n => (s n).autorefReq) (fun n => clears (i n)) where
  loads n k hk := by
    simp only [load] at hk
    simp only [h, next]
    split at hk
    · rw [if_pos ‹_›]
      exact Option.some.inj hk
    · cases hk
  counts n hk := by
    simp only [load] at hk
    simp only [h, next]
    split at hk
    · cases hk
    · rw [if_neg ‹_›, toNat_countDown]
  latch n := by
    simp only [h, next, autorefReq, autorefTimerOne, clears, fires,
      decide_eq_one (by decide : 0 < 28), Bool.not_false, Bool.true_and, Bool.not_not,
      Bool.and_assoc]

end AutorefCtrl

/-! ## `autoref_config` and `autoref_ctrl` -/

/-- The registers of `autoref_config` and `autoref_ctrl`. -/
structure Refresh where
  config : AutorefConfig
  ctrl : AutorefCtrl
  deriving DecidableEq, Repr

namespace Refresh

/-- The inputs of one cycle: a configuration write, the prescaler's tick
and the handler's acknowledgment. -/
structure In where
  setInterval : Bool
  intervalIn : BitVec 28
  setTrfc : Bool
  trfcIn : BitVec 28
  tick : Bool
  ack : Bool
  deriving DecidableEq, Repr

/-- What `autoref_ctrl` sees, the PHY initialised. -/
def ctrlIn (s : Refresh) (i : In) : AutorefCtrl.In where
  autorefEn := s.config.arefEn
  autorefInterval := s.config.arefInterval
  autorefAck := i.ack
  dfiInitComplete := true
  maintPrescalerTick := i.tick

/-- The clock edge. -/
def next (s : Refresh) (i : In) : Refresh where
  config := AutorefConfig.next false i.setInterval i.intervalIn i.setTrfc i.trfcIn s.config
  ctrl := s.ctrl.next (s.ctrlIn i) false

end Refresh

/-- **A run of the refresh timer** from reset, under any waveform of
writes, ticks and acknowledgments. Reset leaves the timer as it is. -/
structure RefreshRun where
  start : AutorefCtrl
  wave : ℕ → Refresh.In

namespace RefreshRun

variable (r : RefreshRun)

/-- The registers at the start of cycle `n`. -/
def state (n : ℕ) : Refresh :=
  run Refresh.next { config := AutorefConfig.reset, ctrl := r.start } r.wave n

/-- `autoref_en` and `autoref_interval` in cycle `n`. -/
def en (n : ℕ) : Bool := (r.state n).config.arefEn
def interval (n : ℕ) : ℕ := (r.state n).config.arefInterval.toNat

/-- `autoref_timer_r` and `autoref_req` in cycle `n`. -/
def timer (n : ℕ) : ℕ := (r.state n).ctrl.autorefTimerR.toNat
def req (n : ℕ) : Bool := (r.state n).ctrl.autorefReq

def tick (n : ℕ) : Bool := (r.wave n).tick
def ack (n : ℕ) : Bool := (r.wave n).ack

/-- The timer is loaded in cycle `n`: acknowledged or enabled. -/
def loads (n : ℕ) : Bool := (r.state n).ctrl.loads ((r.state n).ctrlIn (r.wave n))

/-- The last count of an earlier interval ticks in the cycle in which
auto-refresh is enabled. -/
def stale (n : ℕ) : Bool :=
  r.en n && !(r.state n).ctrl.refEnR && !r.ack n && (r.tick n && decide (r.timer n = 1))

theorem loads_eq (n : ℕ) :
    r.loads n = (r.ack n || (!(r.state n).ctrl.refEnR && r.en n)) := rfl

/-- **The timer of a run is an alarm.** -/
theorem alarm : Alarm r.timer (fun n => if r.loads n then some (r.interval n) else none) r.tick
    r.req (fun n => !(r.en n && !r.ack n)) :=
  AutorefCtrl.alarm (s := fun n => (r.state n).ctrl) (i := fun n => (r.state n).ctrlIn (r.wave n))
    fun _ => rfl

variable {r}

/-- Auto-refresh is enabled by an interval that is not zero. -/
theorem en_iff (n : ℕ) : r.en n = true ↔ 0 < r.interval n := by
  suffices h : r.en n = decide (0 < r.interval n) by rw [h, decide_eq_true_iff]
  induction n with
  | zero => rfl
  | succ n ih =>
    have hpos : ∀ v : BitVec 28, decide (v ≠ 0) = decide (0 < v.toNat) := fun v => by
      rw [decide_eq_decide, Nat.pos_iff_ne_zero, ne_eq, ne_eq, ← BitVec.toNat_inj]
      rfl
    change (Refresh.next (r.state n) (r.wave n)).config.arefEn =
      decide (0 < (Refresh.next (r.state n) (r.wave n)).config.arefInterval.toNat)
    simp only [Refresh.next, AutorefConfig.next, Bool.false_eq_true, if_false]
    cases (r.wave n).setInterval with
    | true => exact hpos _
    | false => exact ih

/-- `ref_en_r` is the enable of the cycle before. -/
theorem refEnR_succ (n : ℕ) : (r.state (n + 1)).ctrl.refEnR = r.en n := rfl

/-- A write sets the interval. -/
theorem interval_of_set {n : ℕ} (h : (r.wave n).setInterval = true) :
    r.interval (n + 1) = (r.wave n).intervalIn.toNat := by
  change (Refresh.next (r.state n) (r.wave n)).config.arefInterval.toNat = _
  simp only [Refresh.next, AutorefConfig.next, Bool.false_eq_true, if_false, h, if_true]

/-- The interval stays until a write. -/
theorem interval_of_no_set {n m : ℕ} (h : ∀ j < m, (r.wave (n + j)).setInterval = false) :
    r.interval (n + m) = r.interval n := by
  induction m with
  | zero => rfl
  | succ m ih =>
    rw [← ih fun j hj => h j (by omega)]
    change (Refresh.next (r.state (n + m)) (r.wave (n + m))).config.arefInterval.toNat = _
    simp only [Refresh.next, AutorefConfig.next, Bool.false_eq_true, if_false,
      h m (Nat.lt_succ_self m)]
    rfl

/-- A timer not enabled the cycle before requests nothing. -/
theorem req_of_not_refEnR {n : ℕ} (hen : r.en n = true) (href : (r.state n).ctrl.refEnR = false) :
    r.req n = false := by
  cases n with
  | zero => cases hen
  | succ n =>
    rw [r.alarm.latch, ← refEnR_succ, href]
    rfl

/-! ## No timer goes dead, and each counts exactly -/

/-- **The refresh timer counts exactly.** -/
structure CountsExactly (r : RefreshRun) : Prop where
  /-- Enabled in two cycles, it requests or counts in the second. -/
  alive : ∀ n, r.en n = true → r.en (n + 1) = true →
    r.req (n + 1) = true ∨ 0 < r.timer (n + 1)
  /-- Loaded in cycle `c`, and not again while it stays enabled, it requests
  from the tick on that counts the value loaded. -/
  raised : ∀ c m, r.loads c = true → (∀ j < m, r.loads (c + 1 + j) = false) →
    (∀ j ≤ m, r.en (c + j) = true) →
    (r.req (c + 1 + m) = true ↔ r.interval c ≤ tally r.tick (c + 1) m)
  /-- A request stays until it is acknowledged or auto-refresh disabled. -/
  stays : ∀ n, r.req n = true → r.ack n = false → r.en n = true → r.req (n + 1) = true

/-- A load with nothing stale leaves no request behind. -/
theorem req_succ_of_loads {c : ℕ} (hload : r.loads c = true) (hen : r.en c = true)
    (hstale : r.stale c = false) : r.req (c + 1) = false := by
  rw [r.alarm.latch, hen, Bool.not_not, Bool.true_and]
  cases hack : r.ack c with
  | true => rfl
  | false =>
    have href : (r.state c).ctrl.refEnR = false := by
      rw [loads_eq, hack, hen, Bool.false_or, Bool.and_true, Bool.not_eq_true'] at hload
      exact hload
    rw [stale, hen, href, hack] at hstale
    rw [req_of_not_refEnR hen href, fires]
    exact hstale

/-- Enabled, the timer requests or counts in the next cycle: the first
cycle enabled loads it, and none after lets it die. -/
theorem alive_of_en {n : ℕ} (hen : r.en n = true) : r.req (n + 1) = true ∨ 0 < r.timer (n + 1) := by
  induction n with
  | zero => exact absurd hen Bool.false_ne_true
  | succ n ih =>
    refine r.alarm.alive_succ (fun k hk => ?_) (fun hc => ?_) ?_
    · split at hk
      · rw [← Option.some.inj hk]
        exact (en_iff _).1 hen
      · cases hk
    · have hack : r.ack (n + 1) = true := by
        rw [hen, Bool.true_and, Bool.not_not] at hc
        exact hc
      rw [loads_eq, hack, Bool.true_or, if_pos rfl]
      exact Option.some_ne_none _
    · cases href : r.en n with
      | true => exact Or.inr (ih href)
      | false =>
        left
        rw [loads_eq, refEnR_succ, href, hen, Bool.not_false, Bool.and_self, Bool.or_true,
          if_pos rfl]
        exact Option.some_ne_none _

/-- **The refresh timer counts exactly where nothing stale ticks** in the
cycle in which auto-refresh is enabled, and only there. -/
theorem countsExactly_iff : r.CountsExactly ↔ ∀ n, r.stale n = false := by
  constructor
  · -- a stale tick raises the request before any tick of the new countdown
    intro h n
    rw [← Bool.not_eq_true]
    intro hstale
    simp only [stale, Bool.and_eq_true, Bool.not_eq_true'] at hstale
    obtain ⟨⟨⟨hen, href⟩, hack⟩, hfire⟩ := hstale
    have hl : r.loads n = true := by rw [loads_eq, href, hen]; exact Bool.or_true _
    have hfire' : fires r.timer r.tick n = true := Bool.and_eq_true_iff.2 hfire
    have hreq : r.req (n + 1) = true := by
      rw [r.alarm.latch, hen, hack, hfire', Bool.or_true]
      rfl
    have hle := (h.raised n 0 hl (fun j hj => absurd hj (Nat.not_lt_zero j)) fun j hj => by
      rw [Nat.le_zero.1 hj]; exact hen).1 hreq
    rw [tally_zero] at hle
    have hpos := (en_iff n).1 hen
    omega
  · -- without one every load starts a countdown of its own
    intro h
    refine ⟨fun n hn hn' => ?_, fun c m hl hno hen => ?_, fun n hreq hack hen => ?_⟩
    · exact alive_of_en hn
    · have hen0 : r.en c = true := hen 0 (Nat.zero_le m)
      refine r.alarm.up_of_load (by rw [hl, if_pos rfl]) ((en_iff c).1 hen0)
        (req_succ_of_loads hl hen0 (h c)) (fun j hj => load_eq_none.2 (hno j hj)) fun j hj => ?_
      have hack : r.ack (c + 1 + j) = false := by
        have hlj := hno j hj
        rw [loads_eq, Bool.or_eq_false_iff] at hlj
        exact hlj.1
      have henj : r.en (c + 1 + j) = true := by
        rw [Nat.add_right_comm]
        exact hen (j + 1) (by omega)
      rw [hack, henj]
      rfl
    · rw [r.alarm.latch, hreq, hack, hen]
      rfl

/-! ## When a new interval takes effect -/

/-- In cycle `w` an interval of `v` ticks is written, `v` not zero. -/
def Installs (r : RefreshRun) (w v : ℕ) : Prop :=
  (r.wave w).setInterval = true ∧ (r.wave w).intervalIn.toNat = v ∧ 0 < v

/-- From cycle `u` on, `m` cycles bring no write and no acknowledgment. -/
def Undisturbed (r : RefreshRun) (u m : ℕ) : Prop :=
  ∀ j < m, (r.wave (u + j)).setInterval = false ∧ r.ack (u + j) = false

/-- An interval takes effect at once: its last tick, counted even from two
cycles behind the write, finds the request raised. -/
def Prompt (r : RefreshRun) : Prop :=
  ∀ w v m, r.Installs w v → r.Undisturbed (w + 1) (m + 1) → v ≤ tally r.tick (w + 2) m →
    ∃ j ≤ m, r.req (w + 2 + j) = true

/-- **When a new interval takes effect.** -/
structure TakesEffect (r : RefreshRun) : Prop where
  /-- Where auto-refresh was disabled the countdown starts over, and the
  request is raised with the last of its ticks or before. -/
  disabled : ∀ w v m, r.Installs w v → r.en w = false → r.Undisturbed (w + 1) (m + 1) →
    r.timer (w + 2) = v ∧ (v ≤ tally r.tick (w + 2) m → r.req (w + 2 + m) = true)
  /-- Where it was enabled the countdown is kept, and the request is raised
  with the last tick of what was left. -/
  enabled : ∀ w v m, r.Installs w v → r.en w = true → r.Undisturbed (w + 1) m →
    (r.req (w + 1) = true ∨ 0 < r.timer (w + 1)) ∧
      (r.req (w + 1 + m) = true ↔
        r.req (w + 1) = true ∨ (0 < r.timer (w + 1) ∧ r.timer (w + 1) ≤ tally r.tick (w + 1) m))
  /-- The next acknowledgment starts the new interval. -/
  acknowledged : ∀ w v c m, r.Installs w v → r.Undisturbed (w + 1) c → r.ack (w + 1 + c) = true →
    (r.wave (w + 1 + c)).setInterval = false → r.Undisturbed (w + 1 + c + 1) m →
    r.timer (w + 1 + c + 1) = v ∧
      (r.req (w + 1 + c + 1 + m) = true ↔ v ≤ tally r.tick (w + 1 + c + 1) m)

theorem Undisturbed.of_add {u k m : ℕ} (h : r.Undisturbed u (k + m)) : r.Undisturbed (u + k) m := by
  intro j hj
  rw [Nat.add_assoc]
  exact h (k + j) (by omega)

/-- The interval written is there from the next cycle on. -/
theorem Installs.interval {w v m : ℕ} (h : r.Installs w v) (hu : r.Undisturbed (w + 1) m) {j : ℕ}
    (hj : j ≤ m) : r.interval (w + 1 + j) = v := by
  rw [interval_of_no_set fun i hi => (hu i (by omega)).1, interval_of_set h.1]
  exact h.2.1

theorem Installs.en {w v m : ℕ} (h : r.Installs w v) (hu : r.Undisturbed (w + 1) m) {j : ℕ}
    (hj : j ≤ m) : r.en (w + 1 + j) = true := by
  rw [en_iff, h.interval hu hj]
  exact h.2.2

/-- Undisturbed and enabled for more than a cycle, the timer counts down. -/
theorem Undisturbed.up_iff {u m : ℕ} (h : r.Undisturbed u m) (hen : ∀ j ≤ m, r.en (u + j) = true)
    (href : (r.state u).ctrl.refEnR = true) :
    r.req (u + m) = true ↔ r.req u = true ∨ (0 < r.timer u ∧ r.timer u ≤ tally r.tick u m) := by
  have href' : ∀ j < m, (r.state (u + j)).ctrl.refEnR = true := by
    intro j hj
    cases j with
    | zero => exact href
    | succ j => exact hen j (by omega)
  refine r.alarm.up_iff (fun j hj => load_eq_none.2 ?_) fun j hj => ?_
  · rw [loads_eq, (h j hj).2, href' j hj]
    rfl
  · rw [hen j (by omega), (h j hj).2]
    rfl

/-- **When a new interval takes effect**: at once where auto-refresh was
disabled, and behind the next acknowledgment where it was enabled. -/
theorem takesEffect (r : RefreshRun) : r.TakesEffect where
  disabled w v m hw hen hu := by
    -- `ref_en` rises behind the write, which loads the timer
    have hload : r.loads (w + 1) = true := by
      rw [loads_eq, refEnR_succ, hen, hw.en hu (Nat.zero_le _)]
      exact Bool.or_true _
    have htimer : r.timer (w + 2) = v := by
      rw [← hw.interval hu (Nat.zero_le _)]
      exact r.alarm.loads (w + 1) _ (by rw [hload, if_pos rfl])
    refine ⟨htimer, fun hle => ?_⟩
    rw [Nat.add_comm m 1] at hu
    refine (hu.of_add.up_iff (fun j hj => ?_) (hw.en hu (Nat.zero_le _))).2
      (Or.inr ⟨by rw [htimer]; exact hw.2.2, by rw [htimer]; exact hle⟩)
    rw [Nat.add_assoc]
    exact hw.en hu (by omega)
  enabled w v m hw hen hu :=
    ⟨alive_of_en hen, hu.up_iff (fun _ hj => hw.en hu hj) hen⟩
  acknowledged w v c m hw hu hack hset hu' := by
    -- the acknowledgment loads the interval that is there by then
    have hint := hw.interval hu le_rfl
    have henc := hw.en hu le_rfl
    have htimer : r.timer (w + 1 + c + 1) = v := by
      rw [← hint]
      exact r.alarm.loads (w + 1 + c) _ (by rw [loads_eq, hack, Bool.true_or, if_pos rfl])
    have hdown : r.req (w + 1 + c + 1) = false := by
      rw [r.alarm.latch, hack, henc]
      rfl
    have hen : ∀ j ≤ m, r.en (w + 1 + c + 1 + j) = true := by
      intro j hj
      rw [en_iff, interval_of_no_set fun i hi => (hu' i (by omega)).1,
        interval_of_no_set (n := w + 1 + c) (m := 1) fun i hi => by
          rw [Nat.lt_one_iff.1 hi]; exact hset, hint]
      exact hw.2.2
    refine ⟨htimer, ?_⟩
    rw [hu'.up_iff hen henc, hdown, htimer]
    simp only [Bool.false_eq_true, false_or]
    exact and_iff_right hw.2.2

/-- An interval of a thousand ticks, and one of two ticks written over
it, with a tick in every cycle. -/
def lateInterval : RefreshRun where
  start := { autorefTimerR := 0, autorefRequestR := false, refEnR := false }
  wave n := {
    setInterval := decide (n = 0 ∨ n = 4)
    intervalIn := if n = 0 then 1000 else 2
    setTrfc := false
    trfcIn := 0
    tick := true
    ack := false }

theorem lateInterval_not_prompt : ¬ lateInterval.Prompt := by
  intro h
  have hu : lateInterval.Undisturbed 5 3 := fun j hj =>
    ⟨decide_eq_false (by omega), rfl⟩
  have hlow : ∀ j ≤ 2, lateInterval.req (4 + 2 + j) = false := by decide
  obtain ⟨j, hj, hreq⟩ := h 4 2 2 ⟨by decide, by decide, by decide⟩ hu (by decide)
  rw [hlow j hj] at hreq
  cases hreq

end RefreshRun

/-- **A run of the three timers** with the PHY initialised, on one
prescaler tick. -/
structure TimersRun extends RefreshRun where
  prrdStart : PeriodicRdCtrl
  prRdAck : ℕ → Bool
  zqStart : ZqCalibCtrl
  zqAck : ℕ → Bool

namespace TimersRun

variable (r : TimersRun)

/-- What the other two controllers see. -/
def prrdIn (n : ℕ) : PeriodicRdCtrl.In where
  dfiInitComplete := true
  maintPrescalerTick := r.tick n
  periodicRdAck := r.prRdAck n

def zqIn (n : ℕ) : ZqCalibCtrl.In where
  zqAck := r.zqAck n
  dfiInitComplete := true
  maintPrescalerTick := r.tick n

/-- Their registers at the start of cycle `n`. -/
def prrd (n : ℕ) : PeriodicRdCtrl := run (fun s i => s.next i false) r.prrdStart r.prrdIn n
def zqCalib (n : ℕ) : ZqCalibCtrl := run (fun s i => s.next i false) r.zqStart r.zqIn n

/-- `zq_tick` and `zq_request` in cycle `n`. -/
def zqTick (n : ℕ) : Bool := (r.zqCalib n).zqTick (r.zqIn n)
def zqRequest (n : ℕ) : Bool := (r.zqCalib n).zqRequest true

/-- **The maintenance timers never go dead and count exactly.** -/
structure AliveAndExact : Prop where
  autoref : r.toRefreshRun.CountsExactly
  /-- Once a read has been acknowledged, a periodic read is requested or its
  timer counts. -/
  prrdAlive : ∀ c n, r.prRdAck c = true → c < n →
    (r.prrd n).periodicRdReq = true ∨ (r.prrd n).periodicRdTimerR ≠ 0
  /-- The request comes with the last tick counted from the last
  acknowledgment. -/
  prrdRaised : ∀ c m, r.prRdAck c = true → (∀ j < m, r.prRdAck (c + 1 + j) = false) →
    ((r.prrd (c + 1 + m)).periodicRdReq = true ↔ PERIODIC_RD_TIMER_DIV ≤ tally r.tick (c + 1) m)
  prrdStays : ∀ n, (r.prrd n).periodicRdReq = true → r.prRdAck n = false →
    (r.prrd (n + 1)).periodicRdReq = true
  /-- A tick of the ZQ timer leaves a request, whatever is acknowledged. -/
  zqSet : ∀ n, r.zqTick n = true → r.zqRequest (n + 1) = true
  /-- Behind one tick of the ZQ timer the next is the prescaler tick that
  counts its period. -/
  zqApart : ∀ a m, r.zqTick a = true → (∀ j < m, r.zqTick (a + 1 + j) = false) →
    (r.zqTick (a + 1 + m) = true ↔
      r.tick (a + 1 + m) = true ∧ tally r.tick (a + 1) (m + 1) = ZQ_TIMER_DIV)
  zqStays : ∀ n, r.zqRequest n = true → r.zqAck n = false → r.zqRequest (n + 1) = true

theorem prrdAlarm : Alarm (fun n => (r.prrd n).periodicRdTimerR.toNat)
    (fun n => if r.prRdAck n then some PERIODIC_RD_TIMER_DIV else none) r.tick
    (fun n => (r.prrd n).periodicRdReq) r.prRdAck :=
  PeriodicRdCtrl.alarm (s := r.prrd) (i := r.prrdIn) fun _ => rfl

theorem zqCountdown : Countdown (fun n => (r.zqCalib n).zqTimerR.toNat)
    (fun n => if r.zqTick n then some ZQ_TIMER_DIV else none) r.tick :=
  ZqCalibCtrl.countdown (s := r.zqCalib) (i := r.zqIn) fun _ => rfl

theorem zqFlag : Flag r.zqRequest r.zqTick r.zqAck :=
  ZqCalibCtrl.flag (s := r.zqCalib) (i := r.zqIn) fun _ => rfl

variable {r}

/-- Once acknowledged, a periodic read's timer is kept alive. -/
theorem prrd_alive {c n : ℕ} (hack : r.prRdAck c = true) (hcn : c < n) :
    (r.prrd n).periodicRdReq = true ∨ 0 < (r.prrd n).periodicRdTimerR.toNat := by
  have hstep : ∀ u, (r.prRdAck u = true ∨ (r.prrd u).periodicRdReq = true ∨
      0 < (r.prrd u).periodicRdTimerR.toNat) → (r.prrd (u + 1)).periodicRdReq = true ∨
      0 < (r.prrd (u + 1)).periodicRdTimerR.toNat := by
    intro u hu
    refine r.prrdAlarm.alive_succ (fun k hk => ?_) (fun hc => ?_) (hu.imp_left fun ha => ?_)
    · split at hk
      · rw [← Option.some.inj hk]
        decide
      · cases hk
    · rw [hc, if_pos rfl]
      exact Option.some_ne_none _
    · rw [ha, if_pos rfl]
      exact Option.some_ne_none _
  induction n with
  | zero => omega
  | succ n ih =>
    rcases Nat.lt_or_eq_of_le (Nat.le_of_lt_succ hcn) with hlt | rfl
    · exact hstep n (Or.inr (ih hlt))
    · exact hstep c (Or.inl hack)

/-- **The timers count exactly unless a stale refresh count ticks** in the
cycle that enables auto-refresh. -/
theorem aliveAndExact_iff : r.AliveAndExact ↔ ∀ n, r.stale n = false := by
  refine ⟨fun h => RefreshRun.countsExactly_iff.1 h.autoref, fun h => ?_⟩
  refine
    { autoref := RefreshRun.countsExactly_iff.2 h
      prrdAlive := fun c n hack hcn => ?_
      prrdRaised := fun c m hack hno => ?_
      prrdStays := fun n hreq hack => ?_
      zqSet := fun n htick => ?_
      zqApart := fun a m htick hno => ?_
      zqStays := fun n hreq hack => ?_ }
  · refine (prrd_alive hack hcn).imp_right fun hpos hz => ?_
    rw [hz] at hpos
    exact absurd hpos (by simp)
  · have hdown : (r.prrd (c + 1)).periodicRdReq = false := by
      rw [r.prrdAlarm.latch, hack]
      rfl
    exact r.prrdAlarm.up_of_load (by rw [hack, if_pos rfl]) (by decide) hdown
      (fun j hj => load_eq_none.2 (hno j hj)) hno
  · rw [r.prrdAlarm.latch, hack, hreq]
    rfl
  · rw [r.zqFlag.step, htick, Bool.true_or]
  · have hleft := r.zqCountdown.left_of_load (m := m) (by rw [htick, if_pos rfl])
      fun j hj => load_eq_none.2 (hno j hj)
    rw [zqTick, ZqCalibCtrl.zqTick_eq, Bool.and_eq_true, decide_eq_true_iff, hleft, tally_succ]
    refine and_congr_right fun ht => ?_
    change r.tick (a + 1 + m) = true at ht
    rw [ht, Bool.toNat_true]
    omega
  · rw [r.zqFlag.step, hack, hreq, Bool.not_false, Bool.and_self, Bool.or_true]

/-- An interval of one tick set, taken back and set to five: the tick of
the cycle that enables auto-refresh again ends the old one. -/
def staleTick : TimersRun where
  start := { autorefTimerR := 0, autorefRequestR := false, refEnR := false }
  wave n := {
    setInterval := decide (n ≤ 2)
    intervalIn := if n = 0 then 1 else if n = 1 then 0 else 5
    setTrfc := false
    trfcIn := 0
    tick := decide (n = 3)
    ack := false }
  prrdStart := { periodicRdTimerR := 0, periodicRdRequestR := false }
  prRdAck _ := false
  zqStart := { zqTimerR := 0, zqRequestR := false }
  zqAck _ := false

theorem staleTick_early : ¬ staleTick.AliveAndExact := by
  intro h
  have hle : 5 ≤ 0 := (h.autoref.raised 3 0 (by decide) (fun j hj => absurd hj (Nat.not_lt_zero j))
    fun j hj => by rw [Nat.le_zero.1 hj]; decide).1 (by decide)
  omega

end TimersRun

end SoftMC
