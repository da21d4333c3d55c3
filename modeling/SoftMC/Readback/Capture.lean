import SoftMC.Model.ReadPath
import SoftMC.Dispatch.Run
import SoftMC.Dispatch.Reads
/-!
# Read data and a full read-back FIFO

A word asked for is in the PHY for the read latency and in the capturer
for a cycle before it is written. The stall looks at what the FIFO holds
and leaves a margin of one word, so it keeps a place for both words of one
read: of a read that issues when every word before it has been counted. A
read that issues while others are on their way needs a place of its own.
-/

namespace SoftMC

open Clocked Dispatcher TwoSlot

/-! ## Runs -/

/-- **A run of the read path**: the PHY's shift registers idle, the
capturer reset and the read-back FIFO empty, the dispatcher in any
state. -/
structure CaptureRun where
  latency : ℕ
  latency_pos : 0 < latency
  depth : Option ℕ
  start : Exec
  wave : ℕ → ReadPath.In

namespace CaptureRun

variable (r : CaptureRun)

def init : ReadPath where
  exec := r.start
  phy := List.replicate r.latency RddataEn.idle
  capturer := ReadCapturer.reset
  rdbackFifo := []

/-- The registers at the start of cycle `n`. -/
def state (n : ℕ) : ReadPath := run (ReadPath.next r.depth) r.init r.wave n

/-- A word for the host is asked for in cycle `n`. -/
def asks (n : ℕ) : Bool := ((r.state n).dfiRddataEn (r.wave n)).forHost

/-- `rdback_fifo_wren`. -/
def writes (n : ℕ) : Bool := (r.state n).capturer.rdbackFifoWren

/-- The host takes a word. -/
def takes (n : ℕ) : Bool := (r.wave n).rdbackFifoRden && !(r.state n).rdbackFifo.isEmpty

/-- `rdback_fifo_wren` is high while the FIFO is full. -/
def Loses (n : ℕ) : Prop := r.writes n = true ∧ (r.state n).rdbackFifoFull = true

/-- The words in the FIFO, and those asked for that have not reached it. -/
def stored (n : ℕ) : ℕ := (r.state n).rdbackFifo.length
def inFlight (n : ℕ) : ℕ := (r.state n).phy.countP RddataEn.forHost + (r.writes n).toNat

/-- What the slots act on in cycle `n`. -/
def issue0 (n : ℕ) : Option Instr :=
  (r.state n).exec.iseq.disp.issue0 ((r.state n).exec.dispIn ((r.state n).execIn (r.wave n)))

def issue1 (n : ℕ) : Option Instr :=
  (r.state n).exec.iseq.disp.issue1 ((r.state n).exec.dispIn ((r.state n).execIn (r.wave n)))

/-- Whether a read is recognised in cycle `n`. -/
def reads (n : ℕ) : Bool :=
  (r.issue0 n).any (fun w => isRead w && (r.state n).exec.iseq.disp.cke0R) ||
    (r.issue1 n).any fun w => isRead w && (r.state n).exec.iseq.disp.cke1R

variable {r}

/-! ## What is asked for -/

/-- A read recognised asks for a word, untagged with the lock open. -/
theorem asks_eq (n : ℕ) :
    r.asks n =
      (!(if r.reads n then (r.wave n).periodicReadLock
          else (r.state n).exec.iseq.disp.readBurstOddR) &&
        (r.reads n || (r.state n).exec.iseq.disp.readBurstR)) := by
  have hen : ((r.state n).dispComb (r.wave n)).dfiRddataEn =
      (r.reads n || (r.state n).exec.iseq.disp.readBurstR) :=
    dfiRddataEn_eq
  have hodd : ((r.state n).dispComb (r.wave n)).dfiRddataEnOdd =
      if r.reads n then (r.wave n).periodicReadLock
      else (r.state n).exec.iseq.disp.readBurstOddR :=
    dfiRddataEnOdd_eq
  rw [← hen, ← hodd]
  rfl

/-- And for one more in the cycle after. -/
theorem burst_succ (n : ℕ) :
    (r.state (n + 1)).exec.iseq.disp.readBurstR = r.reads n ∧
      (r.state (n + 1)).exec.iseq.disp.readBurstOddR =
        (r.reads n && (r.wave n).periodicReadLock) :=
  ⟨readBurstR_next, readBurstOddR_next⟩

/-! ## The way to the FIFO -/

theorem phy_eq (n : ℕ) :
    (r.state n).phy = run shift (List.replicate r.latency RddataEn.idle)
      (fun k => (r.state k).dfiRddataEn (r.wave k)) n :=
  run_map ReadPath.phy (fun p i => p.dfiRddataEn i) (fun _ _ => rfl) r.init r.wave n

theorem replicate_ne_nil : List.replicate r.latency RddataEn.idle ≠ [] := by
  have := r.latency_pos
  simp
  omega

/-- What leaves the PHY is written a cycle later, but for a periodic
read's. -/
theorem writes_succ (n : ℕ) : r.writes (n + 1) = ((r.state n).phy.headD RddataEn.idle).forHost := rfl

/-- It was asked for as many cycles before as the line is long. -/
theorem writes_succ_eq (n : ℕ) :
    r.writes (n + 1) = if n < r.latency then false else r.asks (n - r.latency) := by
  rw [writes_succ, phy_eq, headD_run_shift r.latency_pos]
  split <;> rfl

/-- Nothing is written before the first word can have arrived. -/
theorem not_writes {n : ℕ} (hn : n ≤ r.latency) : r.writes n = false := by
  cases n with
  | zero => rfl
  | succ n => rw [writes_succ_eq, if_pos (by omega)]

/-- A full line of the PHY: the enables of the last cycles. -/
theorem phy_full (n : ℕ) :
    (r.state (n + r.latency)).phy =
      (List.range r.latency).map fun k => (r.state (n + k)).dfiRddataEn (r.wave (n + k)) := by
  have h := run_shift_full (replicate_ne_nil (r := r))
    (fun k => (r.state k).dfiRddataEn (r.wave k)) n
  rw [List.length_replicate] at h
  rw [phy_eq, h]

/-- **A word asked for is written `latency + 1` cycles later.** -/
theorem writes_of_asks (n : ℕ) : r.writes (n + r.latency + 1) = r.asks n := by
  rw [writes_succ_eq, if_neg (by omega), Nat.add_sub_cancel]

/-- What is in flight once the line is full: the words asked for last. -/
theorem inFlight_full (n : ℕ) : r.inFlight (n + r.latency + 1) = tally r.asks n (r.latency + 1) := by
  have hline : (r.state (n + r.latency + 1)).phy.countP RddataEn.forHost =
      tally r.asks (n + 1) r.latency := by
    rw [Nat.add_right_comm, phy_full, List.countP_map]
    rfl
  rw [inFlight, hline, writes_of_asks, tally_succ', Nat.add_comm]

/-! ## The account -/

theorem phy_ne_nil (n : ℕ) : (r.state n).phy ≠ [] := by
  cases n with
  | zero => exact replicate_ne_nil
  | succ n => exact shift_ne_nil _ _

/-- Words in flight are asked for, and written. -/
theorem inFlight_succ (n : ℕ) :
    r.inFlight (n + 1) + (r.writes n).toNat = r.inFlight n + (r.asks n).toNat := by
  have h := countP_shift (phy_ne_nil (r := r) n) RddataEn.forHost
    ((r.state n).dfiRddataEn (r.wave n)) RddataEn.idle
  have hw := writes_succ (r := r) n
  have hphy : (r.state (n + 1)).phy = shift (r.state n).phy ((r.state n).dfiRddataEn (r.wave n)) := rfl
  rw [inFlight, inFlight, hw, hphy]
  unfold asks
  omega

theorem rdbackFifo_succ (n : ℕ) :
    (r.state (n + 1)).rdbackFifo =
      (if (r.wave n).rdbackFifoRden then (r.state n).rdbackFifo.tail else (r.state n).rdbackFifo) ++
        (if (r.state n).rdbackFifoFull then [] else (r.state n).rdbackFifoWr.toList) := rfl

/-- What the host leaves. -/
theorem length_left (n : ℕ) :
    (if (r.wave n).rdbackFifoRden then (r.state n).rdbackFifo.tail
      else (r.state n).rdbackFifo).length + (r.takes n).toNat = r.stored n := by
  unfold takes stored
  cases (r.wave n).rdbackFifoRden with
  | false => rfl
  | true => cases (r.state n).rdbackFifo <;> rfl

/-- Words stored are written, unless lost, and taken. -/
theorem stored_succ {n : ℕ} (h : ¬ r.Loses n) :
    r.stored (n + 1) + (r.takes n).toNat = r.stored n + (r.writes n).toNat := by
  have hleft := length_left (r := r) n
  have hwrite : (if (r.state n).rdbackFifoFull then [] else (r.state n).rdbackFifoWr.toList).length =
      (r.writes n).toNat := by
    rw [ReadPath.rdbackFifoWr]
    change _ = (r.state n).capturer.rdbackFifoWren.toNat
    cases hw : (r.state n).capturer.rdbackFifoWren with
    | false => simp
    | true =>
      have hroom : (r.state n).rdbackFifoFull = false := by
        rw [← Bool.not_eq_true]
        exact fun hfull => h ⟨hw, hfull⟩
      rw [hroom]
      rfl
  rw [stored, rdbackFifo_succ, List.length_append, hwrite]
  omega

/-- A word lost is not stored. -/
theorem stored_succ_of_loses {n : ℕ} (h : r.Loses n) :
    r.stored (n + 1) + (r.takes n).toNat = r.stored n := by
  rw [stored, rdbackFifo_succ, h.2, if_pos rfl, List.append_nil]
  exact length_left n

theorem stored_succ_le (n : ℕ) :
    r.stored (n + 1) + (r.takes n).toNat ≤ r.stored n + (r.writes n).toNat := by
  by_cases h : r.Loses n
  · have := stored_succ_of_loses h
    omega
  · exact (stored_succ h).le

/-- **What a word finds when it arrives**: as long as nothing is lost, what
was stored and in flight when it was asked for, less what the host has
taken since. -/
theorem stored_at_arrival {u : ℕ} (h : ∀ k < r.latency + 1, ¬ r.Loses (u + k)) :
    r.stored (u + r.latency + 1) + tally r.takes u (r.latency + 1) = r.stored u + r.inFlight u := by
  have hstored := tally_conserved (q := r.stored) fun k hk => stored_succ (h k hk)
  have hflight := tally_conserved (q := r.inFlight) (u := u) (m := r.latency + 1)
    fun k _ => inFlight_succ (u + k)
  rw [← Nat.add_assoc, inFlight_full] at hflight
  rw [← Nat.add_assoc] at hstored
  omega

theorem full_iff (n : ℕ) : (r.state n).rdbackFifoFull = true ↔ RDBACK_DEPTH ≤ r.stored n := by
  simp [ReadPath.rdbackFifoFull, fifoFull, stored]

/-- The FIFO holds no more than it has room for. -/
theorem stored_le (n : ℕ) : r.stored n ≤ RDBACK_DEPTH := by
  induction n with
  | zero => exact Nat.zero_le _
  | succ n ih =>
    by_cases h : r.Loses n
    · have := stored_succ_of_loses h
      omega
    · have hstep := stored_succ h
      rw [Loses, full_iff] at h
      cases hw : r.writes n with
      | false =>
        rw [hw, Bool.toNat_false] at hstep
        omega
      | true =>
        have hroom : ¬ RDBACK_DEPTH ≤ r.stored n := fun hfull => h ⟨hw, hfull⟩
        rw [hw, Bool.toNat_true] at hstep
        omega

/-- What has been stored and taken has been written. -/
theorem stored_add_takes_le (n : ℕ) : r.stored n + tally r.takes 0 n ≤ tally r.writes 0 n := by
  induction n with
  | zero => exact Nat.le_refl 0
  | succ n ih =>
    have hstep := stored_succ_le (r := r) n
    rw [tally_succ, tally_succ, Nat.zero_add]
    omega

/-- What has been written was asked for `latency + 1` cycles before. -/
theorem tally_writes (n : ℕ) : tally r.writes 0 (n + r.latency + 1) = tally r.asks 0 n := by
  induction n with
  | zero => exact tally_eq_zero fun k hk => not_writes (by omega)
  | succ n ih =>
    have hcycle : n + 1 + r.latency + 1 = n + r.latency + 1 + 1 := by omega
    rw [hcycle, tally_succ, ih, tally_succ, Nat.zero_add, Nat.zero_add, writes_of_asks]

/-- What is stored and in flight grows by what is asked for at most. -/
theorem outstanding_succ_le (n : ℕ) :
    r.stored (n + 1) + r.inFlight (n + 1) ≤ r.stored n + r.inFlight n + (r.asks n).toNat := by
  have hstored := stored_succ_le (r := r) n
  have hflight := inFlight_succ (r := r) n
  omega

theorem outstanding_zero : r.stored 0 + r.inFlight 0 = 0 := by
  have hline : (List.replicate r.latency RddataEn.idle).countP RddataEn.forHost = 0 := by
    rw [List.countP_replicate]
    rfl
  change 0 + ((List.replicate r.latency RddataEn.idle).countP RddataEn.forHost + 0) = 0
  rw [hline]

/-- No more than has been asked for. -/
theorem outstanding_le (n : ℕ) : r.stored n + r.inFlight n ≤ tally r.asks 0 n := by
  induction n with
  | zero => rw [outstanding_zero, tally_zero]
  | succ n ih =>
    have hgrow := outstanding_succ_le (r := r) n
    rw [tally_succ, Nat.zero_add]
    omega

/-! ## The stall -/

/-- `dfi_ready` is high while two words fit, a cycle late. -/
theorem dfiReady_succ_iff (n : ℕ) :
    (r.state (n + 1)).dfiReady = true ↔ r.stored n + 1 < RDBACK_DEPTH := by
  have hready : (r.state (n + 1)).dfiReady =
      !(decide (RDBACK_DEPTH ≤ r.stored n + 1) || (r.state n).rdbackFifoFull) := rfl
  rw [hready, Bool.not_eq_true', Bool.or_eq_false_iff, decide_eq_false_iff_not, ← Bool.not_eq_true,
    full_iff]
  omega

/-- A stalled dispatcher issues nothing. -/
theorem dfiReady_of_reads {n : ℕ} (h : r.reads n = true) : (r.state n).dfiReady = true := by
  rw [reads, Bool.or_eq_true] at h
  rcases h with h | h
  · obtain ⟨w, hw, -⟩ := (Option.any_eq_true _ _).1 h
    exact (issue0_eq_some hw).1
  · obtain ⟨w, hw, -⟩ := (Option.any_eq_true _ _).1 h
    exact (issue1_eq_some hw).2.1

variable (r)

/-- The words on their way that the stall of cycle `n` has not counted:
those in flight and asked for the cycle before. -/
def uncounted : ℕ → ℕ
  | 0 => 0
  | n + 1 => r.inFlight n + (r.asks n).toNat

/-- The cycle of the read that asks for the word of cycle `n`: its own, or
the one before. -/
def readOf (n : ℕ) : ℕ := if r.reads n then n else n - 1

/-- **Paced reads.** A word for the host is asked for by a read that issues
when the stall has counted every word before it, or with room for it beside
all that is stored and in flight. -/
def Paced : Prop :=
  ∀ u, r.asks u = true →
    r.uncounted (r.readOf u) = 0 ∨ r.stored u + r.inFlight u < RDBACK_DEPTH

variable {r}

/-- **The stall keeps a place for two words**: where a read issues and
every word before it is counted, at most `1022` are outstanding. -/
theorem outstanding_of_counted {v : ℕ} (hread : r.reads v = true) (hcount : r.uncounted v = 0) :
    r.stored v + r.inFlight v + 2 ≤ RDBACK_DEPTH := by
  have hdepth : RDBACK_DEPTH = 1024 := rfl
  cases v with
  | zero =>
    rw [outstanding_zero]
    omega
  | succ w =>
    have hroom := (dfiReady_succ_iff w).1 (dfiReady_of_reads hread)
    have hgrow := outstanding_succ_le (r := r) w
    rw [uncounted] at hcount
    omega

/-- A word asked for without a read of its cycle is the second of one of
the cycle before. -/
theorem reads_of_asks {n : ℕ} (hask : r.asks (n + 1) = true) (hread : r.reads (n + 1) = false) :
    r.reads n = true := by
  rw [asks_eq, hread, Bool.false_or, (burst_succ n).1, Bool.and_eq_true] at hask
  exact hask.2

/-- A paced word has a place. -/
theorem Paced.room (h : r.Paced) {u : ℕ} (hask : r.asks u = true) :
    r.stored u + r.inFlight u < RDBACK_DEPTH := by
  have hdepth : RDBACK_DEPTH = 1024 := rfl
  rcases h u hask with hcount | hroom
  · cases hread : r.reads u with
    | true =>
      rw [readOf, hread, if_pos rfl] at hcount
      have := outstanding_of_counted hread hcount
      omega
    | false =>
      rw [readOf, hread, if_neg Bool.false_ne_true] at hcount
      cases u with
      | zero =>
        rw [outstanding_zero]
        omega
      | succ n =>
        -- the second word, behind the first
        have hfirst := outstanding_of_counted (reads_of_asks hask hread) hcount
        have hgrow := outstanding_succ_le (r := r) n
        have hone : (r.asks n).toNat ≤ 1 := Bool.toNat_le _
        omega
  · exact hroom

/-- **Paced reads lose nothing.** -/
theorem Paced.lossless (h : r.Paced) (n : ℕ) : ¬ r.Loses n := by
  induction n using Nat.strong_induction_on with
  | h n ih =>
    rintro ⟨hw, hfull⟩
    -- a word written now was asked for `latency + 1` cycles ago
    obtain ⟨u, rfl⟩ : ∃ u, n = u + r.latency + 1 := by
      refine ⟨n - (r.latency + 1), ?_⟩
      by_contra hne
      rw [not_writes (by omega)] at hw
      cases hw
    rw [writes_of_asks] at hw
    have harrive := stored_at_arrival (u := u) fun k hk => ih (u + k) (by omega)
    have hroom := h.room hw
    rw [full_iff] at hfull
    omega

/-! ## Whatever the host takes -/

/-- The same run with a host that takes its words at other times. -/
def draining (r : CaptureRun) (ren : ℕ → Bool) : CaptureRun :=
  { r with wave := fun n => { r.wave n with rdbackFifoRden := ren n } }

theorem draining_state_congr {ren ren' : ℕ → Bool} {n : ℕ} (h : ∀ k < n, ren k = ren' k) :
    (r.draining ren).state n = (r.draining ren').state n := by
  refine run_congr fun k hk => ?_
  change { r.wave k with rdbackFifoRden := ren k } = { r.wave k with rdbackFifoRden := ren' k }
  rw [h k hk]

/-- A word that is asked for without room is lost if the host stops. -/
theorem room_of_lossless (h : ∀ ren n, ¬ (r.draining ren).Loses n) (ren : ℕ → Bool) {u : ℕ}
    (hask : (r.draining ren).asks u = true) :
    (r.draining ren).stored u + (r.draining ren).inFlight u < RDBACK_DEPTH := by
  let stops : ℕ → Bool := fun k => decide (k < u) && ren k
  have hstate : (r.draining ren).state u = (r.draining stops).state u := by
    refine draining_state_congr fun k hk => ?_
    change ren k = (decide (k < u) && ren k)
    rw [decide_eq_true hk, Bool.true_and]
  have hask' : (r.draining stops).asks u = true := by
    rw [asks, ← hstate]
    exact hask
  have hout : (r.draining stops).stored u + (r.draining stops).inFlight u =
      (r.draining ren).stored u + (r.draining ren).inFlight u := by
    rw [stored, inFlight, writes, ← hstate]
    rfl
  have harrive := stored_at_arrival (r := r.draining stops) (u := u) fun k _ => h stops (u + k)
  have htakes : tally (r.draining stops).takes u ((r.draining stops).latency + 1) = 0 := by
    refine tally_eq_zero fun k _ => ?_
    have hstop : stops (u + k) = false := by
      change (decide (u + k < u) && ren (u + k)) = false
      rw [decide_eq_false (by omega), Bool.false_and]
    change (stops (u + k) && _) = false
    rw [hstop, Bool.false_and]
  have hroom := h stops (u + (r.draining stops).latency + 1)
  rw [Loses, writes_of_asks, full_iff] at hroom
  have hlt : (r.draining stops).stored (u + (r.draining stops).latency + 1) < RDBACK_DEPTH :=
    Nat.lt_of_not_le fun hle => hroom ⟨hask', hle⟩
  omega

/-! ## Reads that keep apart -/

/-- A user read is recognised at DRAM cycle `k`, in slot `k mod 2`. -/
def ReadsAt (r : CaptureRun) (k : ℕ) : Prop :=
  let p := r.state (k / 2)
  let i := p.exec.dispIn (p.execIn (r.wave (k / 2)))
  (if k % 2 = 0 then p.exec.iseq.disp.reads0 i else p.exec.iseq.disp.reads1 i) = true ∧
    (r.wave (k / 2)).periodicReadLock = false

/-- Consecutive user reads are at least `D` DRAM cycles apart. -/
def ReadsApart (r : CaptureRun) (D : ℕ) : Prop :=
  ∀ k k', r.ReadsAt k → r.ReadsAt k' → k < k' → k + D ≤ k'

/-- A read of a cycle in which the lock is open is one of its two slots'. -/
theorem exists_readsAt {n : ℕ} (hread : r.reads n = true)
    (hlock : (r.wave n).periodicReadLock = false) : ∃ k, r.ReadsAt k ∧ k / 2 = n := by
  have hodd : (2 * n + 1) / 2 = n := by omega
  rw [reads, Bool.or_eq_true] at hread
  rcases hread with hread | hread
  · refine ⟨2 * n, ?_, by omega⟩
    rw [ReadsAt, Nat.mul_div_cancel_left n (by decide), if_pos (Nat.mul_mod_right 2 n)]
    exact ⟨hread, hlock⟩
  · refine ⟨2 * n + 1, ?_, hodd⟩
    rw [ReadsAt, hodd, if_neg (by omega)]
    exact ⟨hread, hlock⟩

theorem reads_of_readsAt {k : ℕ} (h : r.ReadsAt k) : r.reads (k / 2) = true := by
  have hread := h.1
  rw [reads, Bool.or_eq_true]
  split at hread
  · exact Or.inl hread
  · exact Or.inr hread

theorem readOf_bounds (n : ℕ) : r.readOf n ≤ n ∧ n ≤ r.readOf n + 1 := by
  rw [readOf]
  split <;> omega

/-- The word of a cycle is asked for by a user read. -/
theorem exists_readsAt_of_asks {n : ℕ} (h : r.asks (n + 1) = true) :
    ∃ k, r.ReadsAt k ∧ k / 2 = r.readOf (n + 1) := by
  rw [asks_eq, Bool.and_eq_true, Bool.not_eq_true'] at h
  cases hread : r.reads (n + 1) with
  | true =>
    rw [hread, if_pos rfl] at h
    rw [readOf, hread, if_pos rfl]
    exact exists_readsAt hread h.1
  | false =>
    rw [hread, if_neg Bool.false_ne_true, Bool.false_or, (burst_succ n).1, (burst_succ n).2,
      Bool.and_eq_false_iff] at h
    obtain ⟨hodd, hprev⟩ := h
    rw [readOf, hread, if_neg Bool.false_ne_true]
    exact exists_readsAt hprev (hodd.resolve_left (by rw [hprev]; decide))

/-- Nothing is in flight that has not been asked for in the last cycles. -/
theorem inFlight_eq_zero {n : ℕ} (h : ∀ k < n, n ≤ k + r.latency + 1 → r.asks k = false) :
    r.inFlight n = 0 := by
  rcases Nat.lt_or_ge n (r.latency + 1) with hlt | hge
  · have hnone : tally r.asks 0 n = 0 := tally_eq_zero fun k hk => by
      rw [Nat.zero_add]
      exact h k hk (by omega)
    have hle := outstanding_le (r := r) n
    omega
  · obtain ⟨u, rfl⟩ := Nat.exists_eq_add_of_le' hge
    rw [← Nat.add_assoc, inFlight_full]
    exact tally_eq_zero fun k hk => h (u + k) (by omega) (by omega)

/-- **Reads that wait for the stall are paced**: at `2 * latency + 8` DRAM
cycles each issues after the words of the one before have been counted. -/
theorem paced_of_readsApart (h : r.ReadsApart (2 * r.latency + 8)) : r.Paced := by
  intro u hask
  have hdepth : RDBACK_DEPTH = 1024 := rfl
  cases u with
  | zero =>
    right
    rw [outstanding_zero]
    omega
  | succ n =>
    obtain ⟨k', hk', hv⟩ := exists_readsAt_of_asks hask
    obtain ⟨hle, hge⟩ := readOf_bounds (r := r) (n + 1)
    -- no user read is near enough before it to ask for a word not counted
    have hquiet : ∀ y, y + 1 < r.readOf (n + 1) → r.readOf (n + 1) ≤ y + r.latency + 3 →
        r.asks (y + 1) = false := by
      intro y hy hnear
      rw [← Bool.not_eq_true]
      intro hask'
      obtain ⟨k, hk, hcycle⟩ := exists_readsAt_of_asks hask'
      have hbounds := readOf_bounds (r := r) (y + 1)
      have hgap := h k k' hk hk' (by omega)
      omega
    cases hread : r.readOf (n + 1) with
    | zero => exact Or.inl rfl
    | succ w =>
      rw [hread] at hquiet hle hge
      by_cases hstray : r.asks 0 = true ∧ w ≤ r.latency + 1
      · -- a word the run starts with, and the first of its reads
        right
        have hrest : tally r.asks 1 w = 0 := by
          refine tally_eq_zero fun k hk => ?_
          rw [Nat.add_comm]
          exact hquiet k (by omega) (by omega)
        have hone : (r.asks 0).toNat ≤ 1 := Bool.toNat_le _
        have hlast : (r.asks (1 + w)).toNat ≤ 1 := Bool.toNat_le _
        have hout := outstanding_le (r := r) (n + 1)
        have hcases : n = w ∨ n = w + 1 := by omega
        rw [tally_succ', Nat.zero_add] at hout
        rcases hcases with rfl | rfl
        · omega
        · rw [tally_succ] at hout
          omega
      · left
        have hnone : ∀ k, k < w + 1 → w ≤ k + r.latency + 1 → r.asks k = false := by
          intro k hk hnear
          cases k with
          | zero =>
            rw [← Bool.not_eq_true]
            exact fun hask0 => hstray ⟨hask0, by omega⟩
          | succ k => exact hquiet k (by omega) (by omega)
        rw [uncounted, inFlight_eq_zero fun k hk hnear => hnone k (by omega) hnear,
          hnone w (by omega) (by omega)]
        rfl

end CaptureRun

end SoftMC
