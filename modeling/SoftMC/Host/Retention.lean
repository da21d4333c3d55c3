import SoftMC.Model.RetentionTest
/-!
# The retention test covers the DIMM

The cursors count through the rows of the DIMM, bank by bank: after `n`
calls a cursor stands at row `n % NUM_ROWS` of bank `n / NUM_ROWS`. Both
loops of an iteration start from the same row and break off at the same
one, so what is read is what was written.
-/

namespace SoftMC

namespace RetentionTest

/-! ## The rows in order -/

/-- The order of the rows: by bank, then by row. -/
def Before (a b : DramAddr) : Prop := a.bank < b.bank ∨ a.bank = b.bank ∧ a.row < b.row

/-- The row of a number. -/
def addr (n : ℕ) : DramAddr where
  row := n % NUM_ROWS
  bank := n / NUM_ROWS

/-- How many rows there are. -/
abbrev TOTAL : ℕ := NUM_BANKS * NUM_ROWS

theorem before_addr {m n : ℕ} (h : m < n) : Before (addr m) (addr n) := by
  simp only [Before, addr, NUM_ROWS]
  omega

theorem mem_map_addr {a : DramAddr} :
    a ∈ (List.range TOTAL).map addr ↔ a.bank < NUM_BANKS ∧ a.row < NUM_ROWS := by
  simp only [List.mem_map, List.mem_range, TOTAL, NUM_BANKS, NUM_ROWS]
  constructor
  · rintro ⟨n, hn, rfl⟩
    simp only [addr, NUM_ROWS]
    exact ⟨by omega, by omega⟩
  · intro ⟨hbank, hrow⟩
    refine ⟨a.bank * 32768 + a.row, by omega, ?_⟩
    have hmod : (a.bank * 32768 + a.row) % 32768 = a.row := by omega
    have hdiv : (a.bank * 32768 + a.row) / 32768 = a.bank := by omega
    rw [addr, NUM_ROWS, hmod, hdiv]

/-! ## The cursors -/

/-- **A cursor counts.** -/
theorem advance_addr (n : ℕ) : advance (addr n) = addr (n + 1) := by
  rw [advance]
  by_cases hrow : (addr n).row + 1 = NUM_ROWS
  · rw [if_pos hrow]
    simp only [addr, NUM_ROWS, DramAddr.mk.injEq] at hrow ⊢
    exact ⟨by omega, by omega⟩
  · rw [if_neg hrow]
    simp only [addr, NUM_ROWS, DramAddr.mk.injEq] at hrow ⊢
    exact ⟨by omega, by omega⟩

/-- It reaches the end of the DIMM after the last row and not before. -/
theorem bank_addr_iff {n : ℕ} (hn : n < TOTAL) : (addr (n + 1)).bank = NUM_BANKS ↔ n + 1 = TOTAL := by
  simp only [addr, TOTAL, NUM_BANKS, NUM_ROWS] at hn ⊢
  omega

/-- **A loop over a group** takes the next rows, as many as there are. -/
theorem sweep_addr (k : ℕ) {n : ℕ} (hn : n < TOTAL) :
    sweep k (addr n) = { rows := (List.range' n (min k (TOTAL - n))).map addr
                         cur := addr (n + min k (TOTAL - n))
                         dimmDone := decide (TOTAL ≤ n + k) } := by
  induction k generalizing n with
  | zero =>
    have hnot : ¬ TOTAL ≤ n + 0 := by omega
    rw [sweep, Nat.zero_min, decide_eq_false hnot]
    rfl
  | succ k ih =>
    rw [sweep, advance_addr]
    by_cases hlast : n + 1 = TOTAL
    · have hmin : min (k + 1) (TOTAL - n) = 1 := by omega
      have hend : TOTAL ≤ n + (k + 1) := by omega
      rw [if_pos ((bank_addr_iff hn).2 hlast), hmin, decide_eq_true hend]
      rfl
    · have hmin : min (k + 1) (TOTAL - n) = min k (TOTAL - (n + 1)) + 1 := by omega
      rw [if_neg fun h => hlast ((bank_addr_iff hn).1 h), ih (by omega), hmin, List.range'_succ,
        Nat.add_right_comm n 1 k, Nat.add_assoc n k 1, Nat.add_right_comm n 1, Nat.add_assoc n _ 1]
      rfl

/-! ## The loop -/

/-- Both cursors at row `n`. -/
def stateAt (n : ℕ) : State where
  curWrite := addr n
  curRead := addr n
  dimmDone := decide (TOTAL ≤ n)

/-- The rows of the iteration from row `n` on. -/
def rowsFrom (g n : ℕ) : List DramAddr := (List.range' n (min g (TOTAL - n))).map addr

/-- **One iteration** reads the rows it writes. -/
theorem body_stateAt (g : ℕ) {n : ℕ} (hn : n < TOTAL) :
    body g (stateAt n) =
      ({ written := rowsFrom g n, read := rowsFrom g n }, stateAt (n + min g (TOTAL - n))) := by
  have hflag : (decide (TOTAL ≤ n + g) || decide (TOTAL ≤ n)) =
      decide (TOTAL ≤ n + min g (TOTAL - n)) := by
    rw [← Bool.decide_or]
    exact decide_eq_decide.2 (by omega)
  rw [body, stateAt, sweep_addr g hn, stateAt, ← hflag, rowsFrom]

/-- A loop that is done makes no iteration. -/
theorem loop_done (g : ℕ) {n m fuel : ℕ} (hn : TOTAL ≤ n) (hfuel : m < fuel) :
    loop g fuel (stateAt n) = some [] := by
  obtain ⟨k, rfl⟩ := Nat.exists_eq_add_of_lt hfuel
  have hdone : (stateAt n).dimmDone = true := decide_eq_true hn
  rw [loop, if_pos hdone]

/-- **The loop ends**, and its iterations are the rows that are left. -/
theorem loop_stateAt {g : ℕ} (hg : 0 < g) {m n : ℕ} (hm : TOTAL - n ≤ m) (hn : n ≤ TOTAL) :
    ∃ its, (∀ fuel, m < fuel → loop g fuel (stateAt n) = some its) ∧
      its.flatMap Iteration.written = (List.range' n (TOTAL - n)).map addr ∧
      ∀ it ∈ its, it.read = it.written := by
  induction m generalizing n with
  | zero =>
    refine ⟨[], fun fuel hfuel => loop_done g (by omega) hfuel, ?_, fun it hit => by cases hit⟩
    rw [Nat.le_zero.1 hm]
    rfl
  | succ m ih =>
    rcases Nat.lt_or_ge n TOTAL with hlt | hge
    · -- an iteration takes a group, or what is left of the DIMM
      obtain ⟨its, hloop, hwritten, hread⟩ := ih (n := n + min g (TOTAL - n)) (by omega) (by omega)
      refine ⟨{ written := rowsFrom g n, read := rowsFrom g n } :: its, fun fuel hfuel => ?_, ?_, ?_⟩
      · obtain ⟨k, rfl⟩ := Nat.exists_eq_add_of_lt hfuel
        have hdone : ¬ (stateAt n).dimmDone = true := by simp [stateAt]; omega
        rw [loop, if_neg hdone, body_stateAt g hlt, hloop _ (by omega)]
        rfl
      · have hsplit : TOTAL - n = min g (TOTAL - n) + (TOTAL - (n + min g (TOTAL - n))) := by omega
        rw [List.flatMap_cons, hwritten, rowsFrom, ← List.map_append]
        congr 1
        conv_rhs => rw [hsplit]
        rw [← List.range'_append_1]
      · intro it hit
        rcases List.mem_cons.1 hit with rfl | hmem
        · rfl
        · exact hread it hmem
    · have hz : TOTAL - n = 0 := by omega
      refine ⟨[], fun fuel hfuel => loop_done g hge hfuel, ?_, fun it hit => by cases hit⟩
      rw [hz]
      rfl

/-- **The test covers the DIMM**: with enough fuel it ends; every row is
written, once and in order, and no other address; and every iteration
reads what it wrote. -/
structure Covers (g : ℕ) (its : List Iteration) : Prop where
  ends : ∃ N, ∀ fuel, N ≤ fuel → testRetention g fuel = some its
  every : ∀ a, a ∈ its.flatMap Iteration.written ↔ a.bank < NUM_BANKS ∧ a.row < NUM_ROWS
  once : (its.flatMap Iteration.written).Nodup
  inOrder : (its.flatMap Iteration.written).Pairwise Before
  readBack : ∀ it ∈ its, it.read = it.written

theorem testRetention_covers {g : ℕ} (hg : 0 < g) : ∃ its, Covers g its := by
  obtain ⟨its, hloop, hwritten, hread⟩ :=
    loop_stateAt hg (n := 0) (Nat.le_refl (TOTAL - 0)) (Nat.zero_le TOTAL)
  rw [Nat.sub_zero, ← List.range_eq_range'] at hwritten
  have hordered : (its.flatMap Iteration.written).Pairwise Before := by
    rw [hwritten, List.pairwise_map]
    exact List.pairwise_lt_range.imp before_addr
  refine ⟨its, ⟨TOTAL + 1, fun fuel hfuel => hloop fuel hfuel⟩, fun a => ?_, ?_, hordered, hread⟩
  · rw [hwritten, mem_map_addr]
  · refine hordered.imp ?_
    rintro a b hbefore rfl
    rw [Before] at hbefore
    omega

/-- Groups of seven rows, which divide neither a bank nor the DIMM. -/
theorem testRetention_covers_seven : ∃ its, Covers 7 its := testRetention_covers (by decide)

end RetentionTest

end SoftMC
