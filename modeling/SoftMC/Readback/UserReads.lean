import SoftMC.Readback.Bursts
/-!
# The words of the reads for the host

What the capturer has written at any moment is the beginning of the words
of the reads for the host, two for each, and the words of a read are
written once the latency is over.
-/

namespace SoftMC

open Clocked Dispatcher

namespace BurstRun

variable (r : BurstRun)

/-- The reads for the host of cycle `k`, and of the cycles before `n`, by
DRAM cycle. -/
def userReadsOf (k : ℕ) : List ℕ := [2 * k, 2 * k + 1].filter r.userAt

def userReads (n : ℕ) : List ℕ := trace r.userReadsOf n

/-- The two words of a burst. -/
def words (burst : ℕ → ℕ → BitVec 128) (h : ℕ) : List RdWord :=
  [burst h 1 ++ burst h 0, burst h 3 ++ burst h 2]

variable {r} {burst : ℕ → ℕ → BitVec 128}

theorem userReads_succ (n : ℕ) : r.userReads (n + 1) = r.userReads n ++ r.userReadsOf n := rfl

theorem userAt_of_userAt (hs : r.ReadSpaced) {n : ℕ} (h : r.userAt (2 * n) = true) :
    r.userAt (2 * n + 1) = false := by
  have hread : r.recognisedAt (2 * n) = true := (Bool.and_eq_true_iff.1 h).1
  exact userAt_of_not (hs.quiet hread (by omega) (by omega) (by omega))

/-- The words of a cycle's reads. -/
theorem words_of_cycle (hs : r.ReadSpaced) (n : ℕ) :
    (r.userReadsOf n).flatMap (words burst) =
      (firstWord r.userAt burst (2 * n) ++ firstWord r.userAt burst (2 * n + 1)) ++
        (secondWord r.userAt burst (2 * n) ++ secondWord r.userAt burst (2 * n + 1)) := by
  unfold userReadsOf firstWord secondWord
  cases h0 : r.userAt (2 * n) with
  | true => simp [h0, userAt_of_userAt hs h0, words]
  | false =>
    cases h1 : r.userAt (2 * n + 1) with
    | true => simp [h0, h1, words]
    | false => simp [h0, h1]

/-- **What is written and owed** is the words of the reads. -/
theorem written_append_owed (hs : r.ReadSpaced) (hp : r.Places burst) (n : ℕ) :
    r.written (n + r.latency + 1) ++ owed r.userAt burst n = (r.userReads n).flatMap (words burst) := by
  induction n with
  | zero =>
    have hnil : r.written (0 + r.latency + 1) = [] :=
      trace_eq_nil fun k hk => writes_early (by omega)
    rw [hnil]
    rfl
  | succ n ih =>
    have hcycle : n + 1 + r.latency + 1 = n + r.latency + 1 + 1 := by omega
    rw [hcycle, written, trace_succ, ← written, writes_eq hs hp, ← List.append_assoc, ih,
      userReads_succ, List.flatMap_append, words_of_cycle hs, owed, List.append_assoc,
      List.append_assoc]

/-- **In order**, at every moment. -/
theorem written_prefix (hs : r.ReadSpaced) (hp : r.Places burst) (n : ℕ) :
    r.written n <+: (r.userReads n).flatMap (words burst) := by
  rcases Nat.lt_or_ge n (r.latency + 1) with hlt | hge
  · have hnil : r.written n = [] := trace_eq_nil fun k hk => writes_early (by omega)
    rw [hnil]
    exact List.nil_prefix
  · obtain ⟨k, rfl⟩ := Nat.exists_eq_add_of_le' hge
    rw [← Nat.add_assoc, Nat.add_assoc, userReads, trace_add, List.flatMap_append, ← userReads,
      ← written_append_owed hs hp]
    exact (List.prefix_append _ _).trans (List.prefix_append _ _)

/-- **And in the end**: a read is written a cycle after the latency is
over. -/
theorem le_length_written (hs : r.ReadSpaced) (hp : r.Places burst) (n : ℕ) :
    2 * (r.userReads n).length ≤ (r.written (n + r.latency + 2)).length := by
  have hnext := congrArg List.length (written_append_owed hs hp (n + 1))
  have hcycle : n + 1 + r.latency + 1 = n + r.latency + 2 := by omega
  have howed : (owed r.userAt burst (n + 1)).length ≤ (r.userReadsOf n).length := by
    unfold owed userReadsOf secondWord
    cases h0 : r.userAt (2 * n) <;> cases h1 : r.userAt (2 * n + 1) <;> simp [h0, h1]
  have hlen : ∀ l : List ℕ, (l.flatMap (words burst)).length = 2 * l.length := by
    intro l
    rw [List.length_flatMap]
    simp [words, Nat.mul_comm]
  rw [hcycle, List.length_append, hlen, userReads_succ, List.length_append] at hnext
  omega

/-- **No more than two words a read**, however close the reads are: what
has been written, and the word a read of the last cycle still asks for. -/
theorem length_written_le (n : ℕ) :
    (r.written (n + r.latency + 1)).length +
        ((r.state n).readBurstR && !(r.state n).readBurstOddR).toNat ≤ 2 * (r.userReads n).length := by
  induction n with
  | zero =>
    have hnil : r.written (0 + r.latency + 1) = [] :=
      trace_eq_nil fun k hk => writes_early (by omega)
    rw [hnil]
    exact Nat.le_refl 0
  | succ n ih =>
    have hcycle : n + 1 + r.latency + 1 = n + r.latency + 1 + 1 := by omega
    have hreads : (r.userReadsOf n).length = (r.userAt (2 * n)).toNat + (r.userAt (2 * n + 1)).toNat := by
      unfold userReadsOf
      cases h0 : r.userAt (2 * n) <;> cases h1 : r.userAt (2 * n + 1) <;> simp [h0, h1]
    obtain ⟨hburst, -, hodd⟩ := burst_succ (r := r) n
    rw [hcycle, written, trace_succ, ← written, List.length_append, writes_late, userReads_succ,
      List.length_append, hreads, hburst, hodd, userAt_even, userAt_odd]
    by_cases hread : r.recognisedAt (2 * n) = true ∨ r.recognisedAt (2 * n + 1) = true
    · have hany : (r.recognisedAt (2 * n) || r.recognisedAt (2 * n + 1)) = true := by
        rwa [Bool.or_eq_true]
      rw [rddataEn_of_read hread, hany]
      cases hlock : (r.wave n).periodicReadLock with
      | true => simp; omega
      | false =>
        have hone : 1 ≤ (r.recognisedAt (2 * n)).toNat + (r.recognisedAt (2 * n + 1)).toNat := by
          rcases hread with h | h <;> simp [h]
        simp only [Bool.not_false, Bool.and_true, Bool.and_false, if_true, List.length_singleton,
          Bool.toNat_true]
        omega
    · rw [not_or, Bool.not_eq_true, Bool.not_eq_true] at hread
      obtain ⟨h0, h1⟩ := hread
      rw [rddataEn_of_no_read h0 h1, h0, h1]
      cases hr : (r.state n).readBurstR <;> cases ho : (r.state n).readBurstOddR <;>
        simp [hr, ho] at ih ⊢ <;> omega

theorem length_written_le_reads (n : ℕ) : (r.written n).length ≤ 2 * (r.userReads n).length := by
  rcases Nat.lt_or_ge n (r.latency + 1) with hlt | hge
  · have hnil : r.written n = [] := trace_eq_nil fun k hk => writes_early (by omega)
    rw [hnil]
    exact Nat.zero_le _
  · obtain ⟨k, rfl⟩ := Nat.exists_eq_add_of_le' hge
    have hle := length_written_le (r := r) k
    have hmono : (r.userReads k).length ≤ (r.userReads (k + (r.latency + 1))).length := by
      rw [userReads, userReads, trace_add, List.length_append]
      omega
    rw [← Nat.add_assoc] at hmono ⊢
    omega

end BurstRun

end SoftMC
