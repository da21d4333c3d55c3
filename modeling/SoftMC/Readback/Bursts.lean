import SoftMC.Model.ReadPath
import SoftMC.Dispatch.Data
/-!
# Read bursts are put together in order

A burst issued in slot `0` comes back half a word early. The dispatcher
tags it, the tags go through the PHY beside the data, and the capturer
reads the tag of the cycle. Reads four DRAM cycles apart never share a
cycle's tags, whatever slots they were issued in.
-/

namespace SoftMC

open Clocked Dispatcher

/-- **A run of the read tags**: the dispatcher under any waveform, the
PHY's shift registers idle, the capturer reset. `bus` is what is on the
data bus in each DRAM cycle. -/
structure BurstRun extends DispatcherRun where
  latency : ℕ
  latency_pos : 0 < latency
  bus : ℕ → BitVec 128
  almostFull : ℕ → Bool
  full : ℕ → Bool

namespace BurstRun

variable (r : BurstRun)

/-- The read enables of cycle `n`, and those the PHY gives back. -/
def rddataEn (n : ℕ) : RddataEn where
  en := (r.comb n).dfiRddataEn
  even := (r.comb n).dfiRddataEnEven
  odd := (r.comb n).dfiRddataEnOdd

def rddataValid (n : ℕ) : RddataEn :=
  (run shift (List.replicate r.latency RddataEn.idle) r.rddataEn n).headD RddataEn.idle

/-- `dfi_rddata` in cycle `n`: DRAM cycle `2 * n` in the low half,
`2 * n + 1` in the high half. -/
def rddata (n : ℕ) : RdWord := r.bus (2 * n + 1) ++ r.bus (2 * n)

def capturerIn (n : ℕ) : ReadCapturer.In where
  dfiRddata := r.rddata n
  dfiRddataValid := (r.rddataValid n).en
  dfiRddataValidEven := (r.rddataValid n).even
  dfiRddataValidOdd := (r.rddataValid n).odd
  rdbackFifoAlmostFull := r.almostFull n
  rdbackFifoFull := r.full n

/-- The capturer's registers at the start of cycle `n`. -/
def capturer (n : ℕ) : ReadCapturer := run (ReadCapturer.next false) ReadCapturer.reset r.capturerIn n

/-- The words written in cycle `n`, and before it. -/
def writes (n : ℕ) : List RdWord :=
  if (r.capturer n).rdbackFifoWren then [(r.capturer n).rdbackFifoWrdata] else []

def written (n : ℕ) : List RdWord := trace r.writes n

/-- A read is recognised in DRAM cycle `h`: one issues in a slot whose
clock-enable register is high. It is the host's where the lock is open. -/
def recognisedAt (h : ℕ) : Bool :=
  if h % 2 = 0 then (r.state (h / 2)).reads0 (r.wave (h / 2))
  else (r.state (h / 2)).reads1 (r.wave (h / 2))

def forHost (reads : ℕ → Bool) (h : ℕ) : Bool := reads h && !(r.wave (h / 2)).periodicReadLock

def userAt (h : ℕ) : Bool := r.forHost r.recognisedAt h

/-- Reads are four DRAM cycles apart. -/
def FourApart (reads : ℕ → Bool) : Prop :=
  ∀ h h', h < h' → reads h = true → reads h' = true → h + 4 ≤ h'

def ReadSpaced : Prop := FourApart r.recognisedAt

/-- The PHY places the quarters of each read's burst, in order, from DRAM
cycle `h + 2 * latency - 1` on. -/
def PlacesFor (reads : ℕ → Bool) (burst : ℕ → ℕ → BitVec 128) : Prop :=
  ∀ h, reads h = true → ∀ k < 4, r.bus (h + 2 * r.latency - 1 + k) = burst h k

def Places (burst : ℕ → ℕ → BitVec 128) : Prop := r.PlacesFor r.recognisedAt burst

/-- The two words of a read for the host. -/
def firstWord (user : ℕ → Bool) (burst : ℕ → ℕ → BitVec 128) (h : ℕ) : List RdWord :=
  if user h then [burst h 1 ++ burst h 0] else []

def secondWord (user : ℕ → Bool) (burst : ℕ → ℕ → BitVec 128) (h : ℕ) : List RdWord :=
  if user h then [burst h 3 ++ burst h 2] else []

/-- What the host is to get for the reads of the cycles before `n`, in
issue order. -/
def expected (user : ℕ → Bool) (burst : ℕ → ℕ → BitVec 128) (n : ℕ) : List RdWord :=
  trace (fun k => (firstWord user burst (2 * k) ++ secondWord user burst (2 * k)) ++
    (firstWord user burst (2 * k + 1) ++ secondWord user burst (2 * k + 1))) n

/-- The word that is still to come of a read of the last cycle. -/
def owed (user : ℕ → Bool) (burst : ℕ → ℕ → BitVec 128) : ℕ → List RdWord
  | 0 => []
  | n + 1 => secondWord user burst (2 * n) ++ secondWord user burst (2 * n + 1)

variable {burst : ℕ → ℕ → BitVec 128}

variable {r}

theorem recognisedAt_even (n : ℕ) : r.recognisedAt (2 * n) = (r.state n).reads0 (r.wave n) := by
  rw [recognisedAt, if_pos (Nat.mul_mod_right 2 n), Nat.mul_div_cancel_left n (by decide)]

theorem recognisedAt_odd (n : ℕ) : r.recognisedAt (2 * n + 1) = (r.state n).reads1 (r.wave n) := by
  have hdiv : (2 * n + 1) / 2 = n := by omega
  rw [recognisedAt, if_neg (by omega), hdiv]

/-! ## What the capturer writes -/

/-- Nothing before the latency is over. -/
theorem writes_early {n : ℕ} (hn : n ≤ r.latency) : r.writes n = [] := by
  have hwren : (r.capturer n).rdbackFifoWren = false := by
    cases n with
    | zero => rfl
    | succ n =>
      change ReadCapturer.rdbackFifoWren (ReadCapturer.next false (r.capturer n) (r.capturerIn n)) = _
      rw [ReadCapturer.rdbackFifoWren_next, capturerIn, rddataValid, headD_run_shift r.latency_pos,
        if_pos (Nat.lt_of_succ_le hn)]
      rfl
  rw [writes, hwren, if_neg Bool.false_ne_true]

/-- A word put together from the halves of two. -/
theorem join_halves (a b c d : BitVec 128) :
    (b ++ a : RdWord).extractLsb' 0 128 ++ (d ++ c : RdWord).extractLsb' 128 128 = a ++ d := by
  have hlow : (b ++ a).extractLsb' 0 128 = a := BitVec.extractLsb'_append_eq_right
  have hhigh : (d ++ c).extractLsb' 128 128 = d := BitVec.extractLsb'_append_eq_left
  rw [hlow, hhigh]

/-- The capturer's registers one cycle on. -/
theorem capturer_succ (n : ℕ) :
    (r.capturer (n + 1)).rdDataR = r.rddata n ∧
      (r.capturer (n + 1)).rdDataR2 = (r.capturer n).rdDataR ∧
      (r.capturer (n + 1)).rdDataEnEvenR = (r.rddataValid n).even ∧
      (r.capturer (n + 1)).rdbackFifoWren = (!(r.rddataValid n).odd && (r.rddataValid n).en) :=
  ⟨rfl, rfl, rfl, rfl⟩

/-- **Then the word the tags of a cycle ask for**, from the latency on: the
half words of its own and the previous cycle under an even tag. -/
theorem writes_late (n : ℕ) :
    r.writes (n + r.latency + 1) =
      if !(r.rddataEn n).odd && (r.rddataEn n).en then
        [if (r.rddataEn n).even then
            r.bus (2 * n + 2 * r.latency) ++ r.bus (2 * n + 2 * r.latency - 1)
          else r.bus (2 * n + 2 * r.latency + 1) ++ r.bus (2 * n + 2 * r.latency)]
      else [] := by
  have hpos := r.latency_pos
  have hvalid : r.rddataValid (n + r.latency) = r.rddataEn n := by
    rw [rddataValid, headD_run_shift r.latency_pos, if_neg (by omega), Nat.add_sub_cancel]
  obtain ⟨hreg, hold, heven, hwren⟩ := capturer_succ (r := r) (n + r.latency)
  obtain ⟨m, hm⟩ : ∃ m, n + r.latency = m + 1 := ⟨n + r.latency - 1, by omega⟩
  have hold' : (r.capturer (n + r.latency)).rdDataR = r.rddata m := by
    rw [hm]
    exact (capturer_succ m).1
  have hnow : 2 * (n + r.latency) = 2 * n + 2 * r.latency := by omega
  have hprev : 2 * m + 1 = 2 * n + 2 * r.latency - 1 := by omega
  rw [writes, ReadCapturer.rdbackFifoWrdata, hwren, heven, hreg, hold, hold', hvalid, rddata, rddata,
    join_halves, hnow, hprev]

/-! ## The tags -/

/-- The tags in the cycle of a read. -/
theorem rddataEn_of_read {n : ℕ} (h : r.recognisedAt (2 * n) = true ∨ r.recognisedAt (2 * n + 1) = true) :
    r.rddataEn n =
      { en := true, even := (r.state n).readBurstEvenR || r.recognisedAt (2 * n),
        odd := (r.wave n).periodicReadLock } := by
  have hreads : ((r.state n).reads0 (r.wave n) || (r.state n).reads1 (r.wave n)) = true := by
    rw [← recognisedAt_even, ← recognisedAt_odd]
    exact Bool.or_eq_true_iff.2 h
  rw [rddataEn, DispatcherRun.comb, dfiRddataEn_eq, dfiRddataEnEven_eq, dfiRddataEnOdd_eq, hreads,
    recognisedAt_even, Bool.true_or, if_pos rfl]

/-- The tags of the cycle behind it, with no other read. -/
theorem rddataEn_of_no_read {n : ℕ} (h0 : r.recognisedAt (2 * n) = false)
    (h1 : r.recognisedAt (2 * n + 1) = false) :
    r.rddataEn n =
      { en := (r.state n).readBurstR, even := (r.state n).readBurstEvenR,
        odd := (r.state n).readBurstOddR } := by
  rw [recognisedAt_even] at h0
  rw [recognisedAt_odd] at h1
  rw [rddataEn, DispatcherRun.comb, dfiRddataEn_eq, dfiRddataEnEven_eq, dfiRddataEnOdd_eq, h0, h1,
    Bool.or_false, Bool.or_false, Bool.false_or, if_neg Bool.false_ne_true]

/-- What is registered of a cycle. -/
theorem burst_succ (n : ℕ) :
    (r.state (n + 1)).readBurstR = (r.recognisedAt (2 * n) || r.recognisedAt (2 * n + 1)) ∧
      (r.state (n + 1)).readBurstEvenR = r.recognisedAt (2 * n) ∧
      (r.state (n + 1)).readBurstOddR =
        ((r.recognisedAt (2 * n) || r.recognisedAt (2 * n + 1)) && (r.wave n).periodicReadLock) := by
  rw [recognisedAt_even, recognisedAt_odd]
  exact ⟨readBurstR_next, readBurstEvenR_next, readBurstOddR_next⟩

theorem ReadSpaced.quiet (hs : r.ReadSpaced) {h k : ℕ} (hr : r.recognisedAt h = true)
    (hne : h ≠ k) (hk : k < h + 4) (hk' : h < k + 4) : r.recognisedAt k = false := by
  rw [← Bool.not_eq_true]
  intro hc
  rcases Nat.lt_or_gt_of_ne hne with hlt | hgt
  · have := hs h k hlt hr hc
    omega
  · have := hs k h hgt hc hr
    omega

/-- No read in a cycle, nothing for the host. -/
theorem userAt_of_not {h : ℕ} (hr : r.recognisedAt h = false) : r.userAt h = false := by
  rw [userAt, forHost, hr, Bool.false_and]

theorem userAt_even (n : ℕ) :
    r.userAt (2 * n) = (r.recognisedAt (2 * n) && !(r.wave n).periodicReadLock) := by
  rw [userAt, forHost, Nat.mul_div_cancel_left n (by decide)]

theorem userAt_odd (n : ℕ) :
    r.userAt (2 * n + 1) = (r.recognisedAt (2 * n + 1) && !(r.wave n).periodicReadLock) := by
  have hdiv : (2 * n + 1) / 2 = n := by omega
  rw [userAt, forHost, hdiv]

/-- A quarter where the PHY has placed it. -/
theorem Places.bus_eq (hp : r.Places burst) {h k x : ℕ} (hr : r.recognisedAt h = true) (hk : k < 4)
    (hx : x = h + 2 * r.latency - 1 + k) : r.bus x = burst h k := by
  rw [hx]
  exact hp h hr k hk

/-- A read of the cycle before owes nothing beside one of this cycle. -/
theorem owed_of_read (hs : r.ReadSpaced) {n : ℕ}
    (hr : r.recognisedAt (2 * n) = true ∨ r.recognisedAt (2 * n + 1) = true) : owed r.userAt burst n = [] := by
  cases n with
  | zero => rfl
  | succ m =>
    have hprev : r.recognisedAt (2 * m) = false ∧ r.recognisedAt (2 * m + 1) = false := by
      rcases hr with hr | hr
      · exact ⟨hs.quiet hr (by omega) (by omega) (by omega),
          hs.quiet hr (by omega) (by omega) (by omega)⟩
      · exact ⟨hs.quiet hr (by omega) (by omega) (by omega),
          hs.quiet hr (by omega) (by omega) (by omega)⟩
    rw [owed, secondWord, secondWord, userAt_of_not hprev.1, userAt_of_not hprev.2]
    rfl

/-- A read in slot `0` writes its first word out of two. -/
theorem writes_of_read0 (hp : r.Places burst) {n : ℕ} (h0 : r.recognisedAt (2 * n) = true) :
    r.writes (n + r.latency + 1) = firstWord r.userAt burst (2 * n) := by
  have hpos := r.latency_pos
  have hq0 : r.bus (2 * n + 2 * r.latency - 1) = burst (2 * n) 0 :=
    hp.bus_eq h0 (by decide) (by omega)
  have hq1 : r.bus (2 * n + 2 * r.latency) = burst (2 * n) 1 :=
    hp.bus_eq h0 (by decide) (by omega)
  rw [writes_late, rddataEn_of_read (Or.inl h0), firstWord, userAt_even, h0, Bool.or_true, hq0, hq1]
  simp only [Bool.and_true, Bool.true_and, if_true]

/-- One in slot `1` writes a whole word. -/
theorem writes_of_read1 (hs : r.ReadSpaced) (hp : r.Places burst) {n : ℕ}
    (h1 : r.recognisedAt (2 * n + 1) = true) :
    r.writes (n + r.latency + 1) = firstWord r.userAt burst (2 * n + 1) := by
  have hpos := r.latency_pos
  have h0 : r.recognisedAt (2 * n) = false := hs.quiet h1 (by omega) (by omega) (by omega)
  have heven : (r.state n).readBurstEvenR = false := by
    cases n with
    | zero => rfl
    | succ m =>
      rw [(burst_succ m).2.1]
      exact hs.quiet h1 (by omega) (by omega) (by omega)
  have hq0 : r.bus (2 * n + 2 * r.latency) = burst (2 * n + 1) 0 :=
    hp.bus_eq h1 (by decide) (by omega)
  have hq1 : r.bus (2 * n + 2 * r.latency + 1) = burst (2 * n + 1) 1 :=
    hp.bus_eq h1 (by decide) (by omega)
  rw [writes_late, rddataEn_of_read (Or.inr h1), firstWord, userAt_odd, h1, heven, h0, hq0, hq1]
  simp only [Bool.or_self, Bool.and_true, Bool.true_and, Bool.false_eq_true, if_false]

/-- A cycle without a read writes the word owed. -/
theorem writes_of_no_read (hs : r.ReadSpaced) (hp : r.Places burst) {n : ℕ}
    (h0 : r.recognisedAt (2 * n) = false) (h1 : r.recognisedAt (2 * n + 1) = false) :
    r.writes (n + r.latency + 1) = owed r.userAt burst n := by
  have hpos := r.latency_pos
  rw [writes_late, rddataEn_of_no_read h0 h1]
  cases n with
  | zero => rfl
  | succ m =>
    obtain ⟨hb, hbe, hbo⟩ := burst_succ (r := r) m
    rw [hb, hbe, hbo, owed, secondWord, secondWord, userAt_even, userAt_odd]
    cases h2 : r.recognisedAt (2 * m) with
    | true =>
      have h3 : r.recognisedAt (2 * m + 1) = false := hs.quiet h2 (by omega) (by omega) (by omega)
      have hq2 : r.bus (2 * (m + 1) + 2 * r.latency - 1) = burst (2 * m) 2 :=
        hp.bus_eq h2 (by decide) (by omega)
      have hq3 : r.bus (2 * (m + 1) + 2 * r.latency) = burst (2 * m) 3 :=
        hp.bus_eq h2 (by decide) (by omega)
      simp [h3, hq2, hq3]
    | false =>
      cases h3 : r.recognisedAt (2 * m + 1) with
      | true =>
        have hq2 : r.bus (2 * (m + 1) + 2 * r.latency) = burst (2 * m + 1) 2 :=
          hp.bus_eq h3 (by decide) (by omega)
        have hq3 : r.bus (2 * (m + 1) + 2 * r.latency + 1) = burst (2 * m + 1) 3 :=
          hp.bus_eq h3 (by decide) (by omega)
        simp [hq2, hq3]
      | false => simp

/-- **Each cycle's tags write the word owed, and the first of a read.** -/
theorem writes_eq (hs : r.ReadSpaced) (hp : r.Places burst) (n : ℕ) :
    r.writes (n + r.latency + 1) =
      owed r.userAt burst n ++ (firstWord r.userAt burst (2 * n) ++ firstWord r.userAt burst (2 * n + 1)) := by
  have hnone : ∀ h, r.recognisedAt h = false → firstWord r.userAt burst h = [] := by
    intro h hr
    rw [firstWord, userAt_of_not hr, if_neg Bool.false_ne_true]
  cases h0 : r.recognisedAt (2 * n) with
  | true =>
    have h1 : r.recognisedAt (2 * n + 1) = false := hs.quiet h0 (by omega) (by omega) (by omega)
    rw [writes_of_read0 hp h0, owed_of_read hs (Or.inl h0), hnone _ h1, List.append_nil,
      List.nil_append]
  | false =>
    cases h1 : r.recognisedAt (2 * n + 1) with
    | true =>
      rw [writes_of_read1 hs hp h1, owed_of_read hs (Or.inr h1), hnone _ h0, List.nil_append,
        List.nil_append]
    | false =>
      rw [writes_of_no_read hs hp h0 h1, hnone _ h0, hnone _ h1, List.append_nil, List.append_nil]

/-- **The bursts recognised are put together in order**: what has been
written is the two words of every read recognised for the host, in issue
order, the second word of a read of the last cycle still to come; nothing
is written for a periodic read. -/
theorem written_eq (hs : r.ReadSpaced) (hp : r.Places burst) (n : ℕ) :
    r.written (n + r.latency + 1) ++ owed r.userAt burst n = expected r.userAt burst n := by
  have hnil : trace r.writes (r.latency + 1) = [] :=
    trace_eq_nil fun k hk => writes_early (Nat.le_of_lt_succ hk)
  have hsplit : n + r.latency + 1 = r.latency + 1 + n := by omega
  rw [written, hsplit, trace_add, hnil, List.nil_append]
  -- one of two reads of a cycle has no words
  have hone : ∀ k, secondWord r.userAt burst (2 * k) = [] ∨ firstWord r.userAt burst (2 * k + 1) = [] := by
    intro k
    cases h : r.recognisedAt (2 * k) with
    | false =>
      left
      rw [secondWord, userAt_of_not h]
      rfl
    | true =>
      right
      rw [firstWord, userAt_of_not (hs.quiet h (by omega) (by omega) (by omega))]
      rfl
  have hcons := trace_conserved (q := owed r.userAt burst)
    (f := fun k => (firstWord r.userAt burst (2 * k) ++ secondWord r.userAt burst (2 * k)) ++
      (firstWord r.userAt burst (2 * k + 1) ++ secondWord r.userAt burst (2 * k + 1)))
    (g := fun k => r.writes (r.latency + 1 + k)) (fun k => ?_) n
  · exact hcons.symm
  · have hcycle : r.latency + 1 + k = k + r.latency + 1 := by omega
    rw [hcycle, writes_eq hs hp, owed]
    rcases hone k with h | h
    · rw [h]
      simp only [List.append_assoc, List.append_nil, List.nil_append]
    · rw [h]
      simp only [List.append_assoc, List.append_nil, List.nil_append]

end BurstRun

end SoftMC
