import SoftMC.Dispatch.Sequential
import SoftMC.Host.Format
import SoftMC.Readback.Capture
/-!
# Trains of reads

A program that reads once in every `D` DRAM cycles, dispatched under the
stall of the read-back FIFO. Up to the stall its reads issue on schedule;
where the words of a read are not counted before the next one issues, the
stall comes too late, and data is lost. So the distance that keeps reads
paced is the least at which none is.
-/

namespace SoftMC

open Clocked Dispatcher TwoSlot

namespace Train

/-! ## The program -/

/-- WAITs for `n` DRAM cycles, of at most `1023` each. -/
def pause (n : ℕ) : List Instr :=
  List.replicate (n / 1023) (ctrlWord 4#4 (.ofNat 28 1023)) ++
    if n % 1023 = 0 then [] else [ctrlWord 4#4 (.ofNat 28 (n % 1023))]

/-- `m` READs, each with a pause to the next, and the END. -/
def body (D : ℕ) : ℕ → List Instr
  | 0 => [0x00000000#32]
  | m + 1 => 0x81290000#32 :: (pause (D - 1) ++ body D m)

/-- They stand behind a pause of `a` DRAM cycles. -/
def words (a D m : ℕ) : List Instr := pause a ++ body D m

example : words 0 4 2 =
    [0x81290000#32, 0x40000003#32, 0x81290000#32, 0x40000003#32, 0x00000000#32] := by decide

theorem waitOf_ctrlWord {k : ℕ} (hk : k < 1024) : waitOf (ctrlWord 4#4 (.ofNat 28 k)) = some k := by
  have hop : opcode (ctrlWord 4#4 (.ofNat 28 k)) = .wait := opcode_ctrlWord _ _
  rw [waitOf_of_wait hop, waitCount_ctrlWord, BitVec.toNat_setWidth, BitVec.toNat_ofNat]
  congr 1
  omega

/-- A word of a pause waits, for a positive count. -/
theorem mem_pause {n : ℕ} {w : Instr} (h : w ∈ pause n) :
    opcode w = .wait ∧ waitOf w ≠ some 0 := by
  have hword : ∀ k, 0 < k → k < 1024 → opcode (ctrlWord 4#4 (.ofNat 28 k)) = .wait ∧
      waitOf (ctrlWord 4#4 (.ofNat 28 k)) ≠ some 0 := by
    intro k hpos hlt
    refine ⟨opcode_ctrlWord _ _, ?_⟩
    rw [waitOf_ctrlWord hlt]
    intro hz
    exact Nat.ne_of_gt hpos (Option.some.inj hz)
  have hmod : n % 1023 < 1023 := Nat.mod_lt n (by decide)
  rcases List.mem_append.1 h with h | h
  · rw [List.eq_of_mem_replicate h]
    exact hword 1023 (by decide) (by decide)
  · split at h
    · exact absurd h List.not_mem_nil
    · rw [List.mem_singleton.1 h]
      exact hword _ (by omega) (by omega)

/-- A pause takes its DRAM cycles. -/
theorem finish_pause (T n : ℕ) : finish waitOf T (pause n) = T + n := by
  have hmod : n % 1023 < 1023 := Nat.mod_lt n (by decide)
  have hdiv := Nat.div_add_mod n 1023
  have hfull : finish waitOf T (List.replicate (n / 1023) (ctrlWord 4#4 (.ofNat 28 1023))) =
      T + n / 1023 * 1023 := by
    rw [finish, List.map_replicate, List.sum_replicate_nat,
      cost_of_some (waitOf_ctrlWord (by decide))]
  rw [pause, finish_append, hfull]
  split
  · rw [finish_nil]
    omega
  · rw [finish_cons, finish_nil, cost_of_some (waitOf_ctrlWord (by omega))]
    omega

/-- Every word is a READ with its CKE bit set, a WAIT, or the END. -/
theorem mem_words {a D m : ℕ} {w : Instr} (h : w ∈ words a D m) :
    w = 0x81290000#32 ∨ (opcode w = .wait ∧ waitOf w ≠ some 0) ∨ w = 0x00000000#32 := by
  rcases List.mem_append.1 h with h | h
  · exact Or.inr (Or.inl (mem_pause h))
  · induction m with
    | zero => exact Or.inr (Or.inr (List.mem_singleton.1 h))
    | succ m ih =>
      rcases List.mem_cons.1 h with h | h
      · exact Or.inl h
      · rcases List.mem_append.1 h with h | h
        · exact Or.inr (Or.inl (mem_pause h))
        · exact ih (List.mem_append_right _ h) h

theorem not_isRead_of_wait {w : Instr} (h : opcode w = .wait) : isRead w = false := by
  rw [isRead, isDdr, h]
  rfl

theorem posWaits (a D m : ℕ) : PosWaits waitOf (words a D m) := by
  refine posWaits_of_ne fun w hw => ?_
  rcases mem_words hw with rfl | ⟨-, hw⟩ | rfl
  · decide
  · exact hw
  · decide

/-- What a schedule holds is of its list. -/
theorem mem_of_mem_schedule {T : ℕ} {l : List Instr} {e : ℕ × Instr}
    (h : e ∈ schedule waitOf T l) : e.2 ∈ l := by
  rw [← schedule_map_snd waitOf T l]
  exact List.mem_map_of_mem h

/-- **The reads of a train** are `D` DRAM cycles apart. -/
theorem mem_schedule_body {T D m k : ℕ} {w : Instr} (hD : 0 < D) :
    ((k, w) ∈ schedule waitOf T (body D m) ∧ isRead w = true) ↔
      w = 0x81290000#32 ∧ ∃ j < m, k = T + j * D := by
  induction m generalizing T with
  | zero =>
    constructor
    · rintro ⟨h, hr⟩
      have hw : w = 0x00000000#32 := List.mem_singleton.1 (mem_of_mem_schedule h)
      rw [hw] at hr
      exact absurd hr (by decide)
    · rintro ⟨-, j, hj, -⟩
      exact absurd hj (Nat.not_lt_zero j)
  | succ m ih =>
    have hcost : cost waitOf 0x81290000#32 = 1 := cost_of_none (by decide)
    have hnext : finish waitOf (T + 1) (pause (D - 1)) = T + D := by
      rw [finish_pause]
      omega
    rw [body, schedule_cons, hcost, schedule_append, hnext, List.mem_cons, List.mem_append]
    constructor
    · rintro ⟨h | h | h, hr⟩
      · obtain ⟨rfl, rfl⟩ := Prod.mk.inj h
        exact ⟨rfl, 0, Nat.succ_pos m, by rw [Nat.zero_mul, Nat.add_zero]⟩
      · rw [not_isRead_of_wait (mem_pause (mem_of_mem_schedule h)).1] at hr
        cases hr
      · obtain ⟨hw, j, hj, hk⟩ := ih.1 ⟨h, hr⟩
        refine ⟨hw, j + 1, Nat.succ_lt_succ hj, ?_⟩
        rw [hk, Nat.succ_mul]
        omega
    · rintro ⟨rfl, j, hj, rfl⟩
      refine ⟨?_, by decide⟩
      cases j with
      | zero =>
        left
        rw [Nat.zero_mul, Nat.add_zero]
      | succ j =>
        right; right
        refine (ih.2 ⟨rfl, j, Nat.lt_of_succ_lt_succ hj, ?_⟩).1
        rw [Nat.succ_mul]
        omega

theorem mem_schedule_words {T a D m k : ℕ} {w : Instr} (hD : 0 < D) :
    ((k, w) ∈ schedule waitOf T (words a D m) ∧ isRead w = true) ↔
      w = 0x81290000#32 ∧ ∃ j < m, k = T + a + j * D := by
  rw [words, schedule_append, finish_pause, List.mem_append, ← mem_schedule_body hD]
  constructor
  · rintro ⟨h | h, hr⟩
    · rw [not_isRead_of_wait (mem_pause (mem_of_mem_schedule h)).1] at hr
      cases hr
    · exact ⟨h, hr⟩
  · rintro ⟨h, hr⟩
    exact ⟨Or.inr h, hr⟩

theorem countP_words (a D m : ℕ) : (words a D m).countP isRead = m := by
  have hpause : ∀ n, (pause n).countP isRead = 0 := by
    intro n
    refine List.countP_eq_zero.2 fun w hw => ?_
    rw [not_isRead_of_wait (mem_pause hw).1]
    exact Bool.false_ne_true
  have hread : isRead 0x81290000#32 = true := by decide
  rw [words, List.countP_append, hpause, Nat.zero_add]
  induction m with
  | zero => exact List.countP_eq_zero.2 fun w hw => by rw [List.mem_singleton.1 hw]; decide
  | succ m ih => rw [body, List.countP_cons, List.countP_append, hpause, ih, hread, Nat.zero_add,
      if_pos rfl]

theorem exists_end (a D m : ℕ) : ∃ l, words a D m = l ++ [0x00000000#32] := by
  have hbody : ∃ l, body D m = l ++ [0x00000000#32] := by
    induction m with
    | zero => exact ⟨[], rfl⟩
    | succ m ih =>
      obtain ⟨l, hl⟩ := ih
      exact ⟨0x81290000#32 :: (pause (D - 1) ++ l), by rw [body, hl]; simp⟩
  obtain ⟨l, hl⟩ := hbody
  exact ⟨pause a ++ l, by rw [words, hl, List.append_assoc]⟩

/-- **A train of reads**, as a program. -/
def program (a D m : ℕ) : Program where
  instrs := words a D m
  ends := by
    obtain ⟨l, hl⟩ := exists_end a D m
    exact ⟨l, 0x00000000#32, hl, by decide⟩
  waits := posWaits a D m

/-- The cycle of its read `j`. -/
def mark (a D j : ℕ) : ℕ := (4 + a + j * D) / 2

theorem mark_lt {a D : ℕ} (hD : 2 ≤ D) (j : ℕ) : mark a D j < mark a D (j + 1) := by
  rw [mark, mark, Nat.succ_mul]
  omega

theorem mark_le {a D : ℕ} (hD : 2 ≤ D) {i j : ℕ} (h : i ≤ j) : mark a D i ≤ mark a D j :=
  (strictMono_nat_of_lt_succ (mark_lt hD)).monotone h

/-- Its dispatch from reset, under a waveform of `dfi_ready`. -/
abbrev dispatch (a D m : ℕ) (ready : ℕ → Bool) : Dispatch := Dispatch.fromReset (words a D m) ready

/-- As long as it is not stalled its reads issue on schedule. -/
theorem issuedAt_iff {a D m k : ℕ} {ready : ℕ → Bool} (hD : 0 < D)
    (hready : ∀ n ≤ k / 2, ready n = true) :
    (∃ w, (dispatch a D m ready).issuedAt k = some w ∧ isRead w = true) ↔
      ∃ j < m, k = 4 + a + j * D := by
  have hfree : (dispatch a D m ready).issuedAt k = (dispatch a D m fun _ => true).issuedAt k :=
    Dispatch.issuedAt_fromReset_congr hready
  have hsched := Dispatch.issuedAt_iff (d := dispatch a D m fun _ => true) (P := program a D m) rfl
    ⟨rfl, rfl⟩ (fun _ => rfl) k
  rw [hfree]
  constructor
  · rintro ⟨w, hw, hr⟩
    exact ((mem_schedule_words hD).1 ⟨(hsched w).1 hw, hr⟩).2
  · intro hj
    obtain ⟨hmem, hr⟩ := (mem_schedule_words hD).2 ⟨rfl, hj⟩
    exact ⟨_, (hsched _).2 hmem, hr⟩

end Train

/-! ## The run -/

namespace CaptureRun

/-- **The run of a train**: dispatched from reset with the lock open, and
nothing behind it. What the host drains is left open. -/
structure IsTrain (r : CaptureRun) (a D m : ℕ) : Prop where
  depth : r.depth = none
  start : r.start = (Train.dispatch a D m fun _ => true).start
  wave : ∀ n, (r.wave n).wr0 = none ∧ (r.wave n).wr1 = none ∧
    (r.wave n).processIseq = decide (n = 0) ∧ (r.wave n).periodicReadLock = false

namespace IsTrain

variable {r : CaptureRun} {a D m : ℕ} (h : r.IsTrain a D m)

include h

theorem execIn_eq (n : ℕ) : (r.state n).execIn (r.wave n) =
    (Train.dispatch a D m fun n => (r.state n).dfiReady).wave n := by
  obtain ⟨hw0, hw1, hpulse, hlock⟩ := h.wave n
  rw [ReadPath.execIn, hw0, hw1, hpulse, hlock]
  rfl

/-- It is dispatched under the stall of the read-back FIFO. -/
theorem exec_eq (n : ℕ) : (r.state n).exec =
    (Train.dispatch a D m fun n => (r.state n).dfiReady).state n := by
  have hmap : (r.state n).exec =
      run (Exec.next r.depth) r.start (fun k => (r.state k).execIn (r.wave k)) n :=
    run_map ReadPath.exec (fun p i => p.execIn i) (fun _ _ => rfl) r.init r.wave n
  rw [hmap, funext h.execIn_eq, h.depth, h.start]
  rfl

theorem issue_eq (k : ℕ) : (if k % 2 = 0 then r.issue0 (k / 2) else r.issue1 (k / 2)) =
    (Train.dispatch a D m fun n => (r.state n).dfiReady).issuedAt k := by
  rw [issue0, issue1, h.execIn_eq, h.exec_eq]
  rfl

/-- Every word left to take is of the train. -/
theorem mem_contents {n : ℕ} {w : Instr}
    (hw : w ∈ (r.state n).exec.content0 ∨ w ∈ (r.state n).exec.content1) :
    w ∈ Train.words a D m := by
  obtain ⟨h0, h1⟩ : (deal (Train.words a D m)).1 = _ ∧ (deal (Train.words a D m)).2 = _ :=
    (Train.dispatch a D m fun n => (r.state n).dfiReady).fifo_eq n
  rw [h.exec_eq] at hw
  refine mem_deal.1 (hw.imp (fun hw => ?_) fun hw => ?_)
  · rw [h0]
    exact List.mem_append_right _ hw
  · rw [h1]
    exact List.mem_append_right _ hw

/-- The clock is enabled throughout. -/
theorem cke (n : ℕ) :
    (r.state n).exec.iseq.disp.cke0R = true ∧ (r.state n).exec.iseq.disp.cke1R = true := by
  induction n with
  | zero =>
    rw [h.exec_eq]
    exact ⟨rfl, rfl⟩
  | succ n ih =>
    refine Exec.cke_next (fun w hw hop => ?_) ih.1 ih.2
    rcases Train.mem_words (h.mem_contents hw) with rfl | ⟨hwait, -⟩ | rfl
    · decide
    · rw [hwait] at hop
      cases hop
    · exact absurd hop (by decide)

/-- A user read is recognised where a READ issues. -/
theorem readsAt_iff (k : ℕ) : r.ReadsAt k ↔
    ∃ w, (Train.dispatch a D m fun n => (r.state n).dfiReady).issuedAt k = some w ∧
      isRead w = true := by
  obtain ⟨h0, h1⟩ := h.cke (k / 2)
  have hissue := h.issue_eq k
  have hreads : r.ReadsAt k ↔
      (if k % 2 = 0 then r.issue0 (k / 2) else r.issue1 (k / 2)).any isRead = true := by
    rw [ReadsAt, (h.wave _).2.2.2, reads0, reads1, h0, h1]
    simp only [Bool.and_true, and_true]
    split <;> rfl
  rw [hreads, hissue, Option.any_eq_true]

/-- **Its reads are on schedule** as long as it is not stalled. -/
theorem readsAt_of_ready (hD : 0 < D) {k : ℕ} (hready : ∀ n ≤ k / 2, (r.state n).dfiReady = true) :
    r.ReadsAt k ↔ ∃ j < m, k = 4 + a + j * D := by
  rw [h.readsAt_iff, Train.issuedAt_iff hD hready]

/-- A cycle reads where one of them is due. -/
theorem reads_iff (hD : 0 < D) {n : ℕ} (hready : ∀ k ≤ n, (r.state k).dfiReady = true) :
    r.reads n = true ↔ ∃ j < m, Train.mark a D j = n := by
  constructor
  · intro hread
    obtain ⟨k, hk, rfl⟩ := exists_readsAt hread (h.wave n).2.2.2
    obtain ⟨j, hj, rfl⟩ := (h.readsAt_of_ready hD hready).1 hk
    exact ⟨j, hj, rfl⟩
  · rintro ⟨j, hj, rfl⟩
    exact reads_of_readsAt ((h.readsAt_of_ready hD hready).2 ⟨j, hj, rfl⟩)

/-- Before read `q` there are `q` of them. -/
theorem le_tally_reads (hD : 2 ≤ D) {q : ℕ} (hq : q < m)
    (hready : ∀ n ≤ Train.mark a D q, (r.state n).dfiReady = true) :
    q ≤ tally r.reads 0 (Train.mark a D q) := by
  refine le_tally_of_marks (Train.mark_lt hD) fun i hi => ?_
  have hle : Train.mark a D i ≤ Train.mark a D q := Train.mark_le hD (Nat.le_of_lt hi)
  exact (h.reads_iff (by omega) fun n hn => hready n (by omega)).2 ⟨i, by omega, rfl⟩

/-- No more is read than the train holds. -/
theorem tally_reads_le (n : ℕ) : tally r.reads 0 n ≤ m := by
  have hleft : (r.state n).exec.readsLeft + tally r.reads 0 n ≤ m := by
    induction n with
    | zero =>
      have hcount := countP_deal isRead (Train.words a D m)
      rw [Train.countP_words] at hcount
      rw [h.exec_eq, tally_zero, Nat.add_zero]
      exact hcount.le
    | succ n ih =>
      obtain ⟨h0, h1⟩ := h.cke n
      have hsound : (r.state n).exec.Sound := by
        rw [h.exec_eq]
        exact Dispatch.sound _ n
      have hstep := Exec.readsLeft_next (D := r.depth) (i := (r.state n).execIn (r.wave n)) hsound
        (h.wave n).1 (h.wave n).2.1 h0 h1
      rw [Exec.prRdAckR_next] at hstep
      change (r.reads n = false ∧ (r.state (n + 1)).exec.readsLeft = _) ∨
        (r.reads n = true ∧ (r.state (n + 1)).exec.readsLeft < _) at hstep
      rw [tally_succ, Nat.zero_add]
      rcases hstep with ⟨hr, hstep⟩ | ⟨hr, hstep⟩
      · rw [hr, Bool.toNat_false]
        omega
      · rw [hr, Bool.toNat_true]
        omega
  omega

/-- **Its reads are `D` DRAM cycles apart** in the whole run, if the stall
lets all of them issue on schedule. -/
theorem readsApart {q : ℕ} (hq : m = q + 1) (hD : 2 ≤ D)
    (hready : ∀ n ≤ Train.mark a D q, (r.state n).dfiReady = true) : r.ReadsApart D := by
  have hall : ∀ k, r.ReadsAt k → ∃ j, k = 4 + a + j * D := by
    intro k hk
    rcases Nat.lt_or_ge (Train.mark a D q) (k / 2) with hlt | hge
    · -- all of them have been read by then
      exfalso
      obtain ⟨d, hd⟩ := Nat.exists_eq_add_of_lt hlt
      have hcount := h.le_tally_reads hD (by omega) hready
      have hlast : r.reads (Train.mark a D q) = true :=
        (h.reads_iff (by omega) hready).2 ⟨q, by omega, rfl⟩
      have hread := reads_of_readsAt hk
      have hle := h.tally_reads_le (Train.mark a D q + 1 + d + 1)
      rw [hd, Nat.add_right_comm] at hread
      simp only [tally_succ, tally_add, Nat.zero_add, hlast, hread, Bool.toNat_true] at hle
      omega
    · obtain ⟨j, -, hj⟩ := (h.readsAt_of_ready (by omega) fun n hn => hready n (by omega)).1 hk
      exact ⟨j, hj⟩
  intro k k' hk hk' hlt
  obtain ⟨i, rfl⟩ := hall k hk
  obtain ⟨j, rfl⟩ := hall k' hk'
  have hij : i < j := by
    by_contra hge
    have := Nat.mul_le_mul_right D (Nat.le_of_not_lt hge)
    omega
  have := Nat.mul_le_mul_right D (Nat.succ_le_of_lt hij)
  rw [Nat.succ_mul] at this
  omega

/-! ### What it asks for -/

/-- With the lock open a read asks for its word, and for one more. -/
theorem asks_succ (n : ℕ) : r.asks (n + 1) = (r.reads (n + 1) || r.reads n) := by
  rw [asks_eq, (burst_succ n).1, (burst_succ n).2, (h.wave n).2.2.2, (h.wave (n + 1)).2.2.2,
    Bool.and_false, ite_self]
  rfl

theorem tally_asks_le (n : ℕ) :
    tally r.asks 0 (n + 1) ≤ tally r.reads 0 (n + 1) + tally r.reads 0 n := by
  induction n with
  | zero =>
    have hasks : r.asks 0 = r.reads 0 := by
      have hburst : (r.state 0).exec.iseq.disp.readBurstR = false ∧
          (r.state 0).exec.iseq.disp.readBurstOddR = false := by
        rw [h.exec_eq]
        exact ⟨rfl, rfl⟩
      rw [asks_eq, hburst.1, hburst.2, (h.wave 0).2.2.2, ite_self, Bool.or_false]
      rfl
    rw [tally_succ, tally_succ, hasks]
    exact Nat.le_refl _
  | succ n ih =>
    have hstep : (r.asks (n + 1)).toNat ≤ (r.reads (n + 1)).toNat + (r.reads n).toNat := by
      rw [h.asks_succ]
      cases r.reads (n + 1) <;> cases r.reads n <;> decide
    rw [tally_succ, tally_succ _ _ (n + 1), tally_succ r.reads 0 n, Nat.zero_add, Nat.zero_add]
    rw [tally_succ r.reads 0 n, Nat.zero_add] at ih
    omega

/-- Reads that keep apart ask for two words each. -/
theorem le_tally_asks (hD : 4 ≤ D) (hapart : r.ReadsApart D) (n : ℕ) :
    tally r.reads 0 (n + 1) + tally r.reads 0 n ≤ tally r.asks 0 (n + 1) := by
  induction n with
  | zero =>
    have hasks : (r.reads 0).toNat ≤ (r.asks 0).toNat := by
      rw [asks_eq, (h.wave 0).2.2.2]
      cases r.reads 0 with
      | false => exact Nat.zero_le _
      | true => exact Nat.le_refl _
    simp only [tally_succ, tally_zero, Nat.zero_add, Nat.add_zero]
    exact hasks
  | succ n ih =>
    have hstep : (r.reads (n + 1)).toNat + (r.reads n).toNat ≤ (r.asks (n + 1)).toNat := by
      rw [h.asks_succ]
      cases hnext : r.reads (n + 1) with
      | false => cases r.reads n <;> decide
      | true =>
        cases hnow : r.reads n with
        | false => decide
        | true =>
          -- two reads in neighbouring cycles are too near
          obtain ⟨k, hk, hcycle⟩ := exists_readsAt hnow (h.wave n).2.2.2
          obtain ⟨k', hk', hcycle'⟩ := exists_readsAt hnext (h.wave (n + 1)).2.2.2
          have := hapart k k' hk hk' (by omega)
          omega
    rw [tally_succ r.asks, tally_succ r.reads 0 (n + 1), tally_succ r.reads 0 n, Nat.zero_add,
      Nat.zero_add]
    rw [tally_succ r.reads 0 n, Nat.zero_add] at ih
    omega

/-- Up to the mark of read `j` two words have been asked for by each read
before it, and in its cycle one more. -/
theorem tally_asks_mark (hD : 2 ≤ D) {j n : ℕ} (hready : ∀ k < n, (r.state k).dfiReady = true) :
    (n ≤ Train.mark a D j → tally r.asks 0 n ≤ 2 * j) ∧
      (n ≤ Train.mark a D j + 1 → tally r.asks 0 n ≤ 2 * j + 1) := by
  have hreads : ∀ i y, y ≤ n → y ≤ Train.mark a D i → tally r.reads 0 y ≤ i := by
    intro i y hy hmark
    refine tally_le_of_marks (Train.mark_lt hD) hmark fun x hx hread => ?_
    obtain ⟨j, -, hj⟩ := (h.reads_iff (by omega) fun k hk => hready k (by omega)).1 hread
    exact ⟨j, hj⟩
  cases n with
  | zero => exact ⟨fun _ => Nat.zero_le _, fun _ => Nat.zero_le _⟩
  | succ n =>
    have hasks := h.tally_asks_le n
    have hlt := Train.mark_lt (a := a) hD j
    constructor
    · intro hn
      have h1 := hreads j (n + 1) (Nat.le_refl _) hn
      have h2 := hreads j n (by omega) (by omega)
      omega
    · intro hn
      have h1 := hreads (j + 1) (n + 1) (Nat.le_refl _) (by omega)
      have h2 := hreads j n (by omega) (by omega)
      omega

/-- **The stall comes late**: read `511` and all within its latency are not
stalled. -/
theorem ready_of_le (hD : 2 ≤ D) {n : ℕ} (hn : n ≤ Train.mark a D 511 + r.latency + 2) :
    (r.state n).dfiReady = true := by
  have hdepth : RDBACK_DEPTH = 1024 := rfl
  induction n using Nat.strong_induction_on with
  | h n ih =>
    cases n with
    | zero => rfl
    | succ x =>
      rw [dfiReady_succ_iff]
      have hstored := stored_add_takes_le (r := r) x
      rcases Nat.lt_or_ge x (r.latency + 1) with hlt | hge
      · have hnone : tally r.writes 0 x = 0 := tally_eq_zero fun k hk => not_writes (by omega)
        omega
      · obtain ⟨y, rfl⟩ := Nat.exists_eq_add_of_le' hge
        have hasks := (h.tally_asks_mark hD (j := 511) (n := y) fun k hk =>
          ih k (by omega) (by omega)).1 (by omega)
        rw [← Nat.add_assoc, tally_writes] at hstored
        rw [← Nat.add_assoc]
        omega

/-- Where all of `513` reads issue on schedule, and the host takes no more
than a word of theirs, **one is lost**. -/
theorem loses (hm : m = 513) (hD : 4 ≤ D)
    (hready : ∀ n ≤ Train.mark a D 512, (r.state n).dfiReady = true)
    (htakes : ∀ n, tally r.takes 0 n ≤ 1) : r.ReadsApart D ∧ ¬ ∀ n, ¬ r.Loses n := by
  have hapart : r.ReadsApart D := h.readsApart hm (by omega) hready
  refine ⟨hapart, fun hall => ?_⟩
  have hcount := h.le_tally_reads (by omega) (by omega) hready
  have hlast : r.reads (Train.mark a D 512) = true :=
    (h.reads_iff (by omega) hready).2 ⟨512, by omega, rfl⟩
  -- `1026` words are asked for, and at most one is taken
  have hasks := h.le_tally_asks hD hapart (Train.mark a D 512 + 1)
  simp only [tally_succ _ _ (Train.mark a D 512), Nat.zero_add, hlast, Bool.toNat_true,
    tally_succ r.reads 0 (Train.mark a D 512 + 1)] at hasks
  have hstored := tally_conserved (q := r.stored) (u := 0)
    (m := Train.mark a D 512 + 1 + 1 + r.latency + 1) fun k _ => stored_succ (hall (0 + k))
  have hone := htakes (Train.mark a D 512 + 1 + 1 + r.latency + 1)
  have hfits := stored_le (r := r) (Train.mark a D 512 + 1 + 1 + r.latency + 1)
  have hdepth : RDBACK_DEPTH = 1024 := rfl
  have hzero : r.stored 0 = 0 := rfl
  rw [tally_writes, Nat.zero_add, hzero] at hstored
  omega

end IsTrain

/-! ## The stall comes too late -/

/-- The run of a train with a read latency of `L` and a host that drains by
`ren`. -/
def ofTrain (a D m L : ℕ) (hL : 0 < L) (ren : ℕ → Bool) : CaptureRun where
  latency := L
  latency_pos := hL
  depth := none
  start := (Train.dispatch a D m fun _ => true).start
  wave n := { wr0 := none, wr1 := none, processIseq := decide (n = 0), periodicReadLock := false,
              dfiRddata := 0, rdbackFifoRden := ren n }

theorem isTrain_ofTrain (a D m : ℕ) {L : ℕ} (hL : 0 < L) (ren : ℕ → Bool) :
    (ofTrain a D m L hL ren).IsTrain a D m where
  depth := rfl
  start := rfl
  wave _ := ⟨rfl, rfl, rfl, rfl⟩

/-- Reads at full rate, and a host that takes nothing. -/
def undrained (L : ℕ) (hL : 0 < L) : CaptureRun := ofTrain 0 4 513 L hL fun _ => false

theorem undrained_loses (L : ℕ) (hL : 0 < L) :
    (undrained L hL).ReadsApart 4 ∧ ¬ ∀ n, ¬ (undrained L hL).Loses n := by
  have h : (undrained L hL).IsTrain 0 4 513 := isTrain_ofTrain 0 4 513 hL _
  have hmark : Train.mark 0 4 512 = Train.mark 0 4 511 + 2 := by decide
  refine h.loses rfl (Nat.le_refl 4) (fun n hn => h.ready_of_le (by decide) (by omega)) fun n => ?_
  have hnone : tally (undrained L hL).takes 0 n = 0 := tally_eq_zero fun k _ => rfl
  omega

/-- **Read data is lost**: 513 reads four DRAM cycles apart, a latency of one
cycle and a host that takes nothing. -/
theorem undrained_overflows :
    (undrained 1 Nat.one_pos).ReadsApart 4 ∧ ¬ ∀ n, ¬ (undrained 1 Nat.one_pos).Loses n :=
  undrained_loses 1 Nat.one_pos

/-- Reads `2 * L + 7` DRAM cycles apart, in slots `1` and `0` in turn, and a
host that takes the first word and no other. -/
def drainedOnce (L : ℕ) (hL : 0 < L) : CaptureRun :=
  ofTrain 1 (2 * L + 7) 513 L hL fun n => decide (n = L + 4)

/-- The host takes its word. -/
theorem takes_drainedOnce (L : ℕ) (hL : 0 < L) : (drainedOnce L hL).takes (L + 4) = true := by
  have h : (drainedOnce L hL).IsTrain 1 (2 * L + 7) 513 := isTrain_ofTrain 1 _ 513 hL _
  have hD : 2 ≤ 2 * L + 7 := by omega
  have hmark : Train.mark 1 (2 * L + 7) 0 = 2 := by rw [Train.mark, Nat.zero_mul]
  have hfirst : Train.mark 1 (2 * L + 7) 0 ≤ Train.mark 1 (2 * L + 7) 511 :=
    Train.mark_le hD (Nat.zero_le 511)
  have hready : ∀ n ≤ 2, ((drainedOnce L hL).state n).dfiReady = true := fun n hn =>
    h.ready_of_le hD (by omega)
  have hask : (drainedOnce L hL).asks 2 = true := by
    have hread : (drainedOnce L hL).reads 2 = true :=
      (h.reads_iff (by omega) hready).2 ⟨0, by decide, hmark⟩
    rw [h.asks_succ, hread, Bool.true_or]
  have hwrite : (drainedOnce L hL).writes (L + 3) = true := by
    have hw := writes_of_asks (r := drainedOnce L hL) 2
    have hcycle : 2 + (drainedOnce L hL).latency + 1 = L + 3 := by
      change 2 + L + 1 = L + 3
      omega
    rw [hcycle] at hw
    exact hw.trans hask
  -- the FIFO is empty when it arrives
  have hempty : (drainedOnce L hL).stored (L + 3) = 0 := by
    have hasks := (h.tally_asks_mark hD (j := 0) (n := 2) fun k hk => hready k (by omega)).1
      (by omega)
    have hstored := stored_add_takes_le (r := drainedOnce L hL) (2 + L + 1)
    have hw : tally (drainedOnce L hL).writes 0 (2 + L + 1) = _ := tally_writes 2
    have hcycle : 2 + L + 1 = L + 3 := by omega
    rw [hcycle] at hstored hw
    omega
  have hstep := stored_succ (r := drainedOnce L hL) (n := L + 3) fun hlose => by
    have hfull := (full_iff _).1 hlose.2
    rw [hempty] at hfull
    exact absurd hfull (by decide)
  have hno : (drainedOnce L hL).takes (L + 3) = false := by
    change (decide (L + 3 = L + 4) && _) = false
    rw [decide_eq_false (by omega), Bool.false_and]
  rw [hempty, hwrite, hno, Bool.toNat_false, Bool.toNat_true] at hstep
  change (decide (L + 4 = L + 4) && !((drainedOnce L hL).state (L + 4)).rdbackFifo.isEmpty) = true
  have hne : ((drainedOnce L hL).state (L + 4)).rdbackFifo ≠ [] := by
    intro hnil
    have hlen : (drainedOnce L hL).stored (L + 4) = 0 := by
      rw [stored, hnil]
      rfl
    change (drainedOnce L hL).stored (L + 4) + 0 = 0 + 1 at hstep
    omega
  rw [decide_eq_true rfl, Bool.true_and, Bool.not_eq_true', List.isEmpty_eq_false_iff]
  exact hne

theorem drainedOnce_loses (L : ℕ) (hL : 0 < L) :
    (drainedOnce L hL).ReadsApart (2 * L + 7) ∧ ¬ ∀ n, ¬ (drainedOnce L hL).Loses n := by
  have h : (drainedOnce L hL).IsTrain 1 (2 * L + 7) 513 := isTrain_ofTrain 1 _ 513 hL _
  have hD : 2 ≤ 2 * L + 7 := by omega
  have hdepth : RDBACK_DEPTH = 1024 := rfl
  have hmark : Train.mark 1 (2 * L + 7) 512 = Train.mark 1 (2 * L + 7) 511 + L + 3 := by
    rw [Train.mark, Train.mark]
    omega
  have hearly : ∀ n ≤ Train.mark 1 (2 * L + 7) 511 + L + 2,
      ((drainedOnce L hL).state n).dfiReady = true := fun n hn => h.ready_of_le hD hn
  refine h.loses rfl (by omega) (fun n hn => ?_) fun n => ?_
  · rcases Nat.lt_or_ge n (Train.mark 1 (2 * L + 7) 512) with hlt | hge
    · exact hearly n (by omega)
    · -- the word taken makes room in the stall's count for one read more
      obtain rfl : n = Train.mark 1 (2 * L + 7) 511 + 1 + L + 1 + 1 := by omega
      rw [dfiReady_succ_iff]
      have hasks := (h.tally_asks_mark hD (j := 511) (n := Train.mark 1 (2 * L + 7) 511 + 1)
        fun k hk => hearly k (by omega)).2 (Nat.le_refl _)
      have hstored := stored_add_takes_le (r := drainedOnce L hL)
        (Train.mark 1 (2 * L + 7) 511 + 1 + L + 1)
      have hwrites : tally (drainedOnce L hL).writes 0 (Train.mark 1 (2 * L + 7) 511 + 1 + L + 1) =
          _ := tally_writes (Train.mark 1 (2 * L + 7) 511 + 1)
      have htaken : 1 ≤ tally (drainedOnce L hL).takes 0
          (Train.mark 1 (2 * L + 7) 511 + 1 + L + 1) := by
        have hlate : 511 ≤ Train.mark 1 (2 * L + 7) 511 := by
          rw [Train.mark]
          omega
        obtain ⟨k, hk⟩ : ∃ k, Train.mark 1 (2 * L + 7) 511 + 1 + L + 1 = L + 4 + 1 + k :=
          ⟨Train.mark 1 (2 * L + 7) 511 - 3, by omega⟩
        rw [hk, tally_add, tally_succ, Nat.zero_add, takes_drainedOnce, Bool.toNat_true]
        omega
      omega
  · have hother : ∀ k, k ≠ L + 4 → (drainedOnce L hL).takes k = false := by
      intro k hk
      change (decide (k = L + 4) && _) = false
      rw [decide_eq_false hk, Bool.false_and]
    rcases Nat.lt_or_ge (L + 4) n with hlt | hge
    · rw [tally_single hother (Nat.zero_le _) (by omega)]
      exact Bool.toNat_le _
    · have hnone : tally (drainedOnce L hL).takes 0 n = 0 :=
        tally_eq_zero fun k hk => hother _ (by omega)
      omega

/-- **When no read data is lost.** A paced run loses none. Whatever the host
drains, a stream of reads loses none if and only if it is paced whatever
the host drains. And reads at least `D` DRAM cycles apart lose none in any
run of a latency if and only if `D` leaves the stall the time to count each
of them. -/
theorem loses_nothing_iff (r : CaptureRun) (D : ℕ) :
    (r.Paced → ∀ n, ¬ r.Loses n) ∧
      ((∀ ren n, ¬ (r.draining ren).Loses n) ↔ ∀ ren, (r.draining ren).Paced) ∧
      ((∀ r' : CaptureRun, r'.latency = r.latency → r'.ReadsApart D → ∀ n, ¬ r'.Loses n) ↔
        2 * r.latency + 8 ≤ D) := by
  refine ⟨fun h => h.lossless, ⟨fun h ren u hask => ?_, fun h ren => (h ren).lossless⟩,
    fun h => ?_, fun hD r' hlat hapart => ?_⟩
  · exact Or.inr (room_of_lossless h ren hask)
  · by_contra hlt
    obtain ⟨hapart, hloses⟩ := drainedOnce_loses r.latency r.latency_pos
    refine hloses (h (drainedOnce r.latency r.latency_pos) rfl fun k k' hk hk' hkk' => ?_)
    have := hapart k k' hk hk' hkk'
    omega
  · refine (paced_of_readsApart fun k k' hk hk' hlt => ?_).lossless
    have := hapart k k' hk hk' hlt
    omega

/-- 512 reads ten DRAM cycles apart, a latency of one cycle and a host that
takes nothing. -/
def slowTrain : CaptureRun := ofTrain 0 10 512 1 Nat.one_pos fun _ => false

theorem slowTrain_loses_nothing : slowTrain.ReadsApart 10 ∧ ∀ n, ¬ slowTrain.Loses n := by
  have h : slowTrain.IsTrain 0 10 512 := isTrain_ofTrain 0 10 512 Nat.one_pos _
  have hapart : slowTrain.ReadsApart 10 :=
    h.readsApart rfl (by decide) fun n hn => h.ready_of_le (by decide) (by omega)
  exact ⟨hapart, (loses_nothing_iff slowTrain 10).2.2.2 (Nat.le_refl 10) slowTrain rfl hapart⟩

end CaptureRun

end SoftMC
