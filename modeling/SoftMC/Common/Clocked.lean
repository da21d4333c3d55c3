import Mathlib.Data.Nat.Find
import Mathlib.Data.List.Basic
import Mathlib.Order.Monotone.Basic
import Mathlib.Tactic.Common
/-!
# Clocked machines

A synchronous circuit is a step function: the registers at one clock
edge and the inputs of the cycle give the registers at the next. A run
is the sequence of register states under an input waveform, and a trace
is what a signal has emitted cycle by cycle. This file carries the rules
the rest of the development runs on: invariants, conservation of what a
queue holds, delay lines, and progress. It names no circuit.
-/

namespace Clocked

variable {σ ι τ κ α β : Type*}

/-! ## Runs -/

/-- The registers at the start of cycle `n`, under the waveform `w`. -/
def run (step : σ → ι → σ) (s : σ) (w : ℕ → ι) : ℕ → σ
  | 0 => s
  | n + 1 => step (run step s w n) (w n)

@[simp] theorem run_zero (step : σ → ι → σ) (s : σ) (w : ℕ → ι) : run step s w 0 = s := rfl

@[simp] theorem run_succ (step : σ → ι → σ) (s : σ) (w : ℕ → ι) (n : ℕ) :
    run step s w (n + 1) = step (run step s w n) (w n) := rfl

/-- **The invariant rule**, for a property that may name the cycle. -/
theorem run_invariant {step : σ → ι → σ} {s : σ} {w : ℕ → ι} {I : ℕ → σ → Prop} (h0 : I 0 s)
    (hstep : ∀ n, I n (run step s w n) → I (n + 1) (step (run step s w n) (w n))) (n : ℕ) :
    I n (run step s w n) := by
  induction n with
  | zero => exact h0
  | succ n ih => exact hstep n ih

/-- A run depends on the inputs before it. -/
theorem run_congr {step : σ → ι → σ} {s : σ} {w w' : ℕ → ι} {n : ℕ} (h : ∀ k < n, w k = w' k) :
    run step s w n = run step s w' n := by
  induction n with
  | zero => rfl
  | succ n ih => rw [run_succ, run_succ, ih fun k hk => h k (by omega), h n (by omega)]

/-- A run that has come to a fixed point under a constant input stays
there. -/
theorem run_fixed {step : σ → ι → σ} {s : σ} {w : ℕ → ι} {N : ℕ} {i : ι}
    (hw : ∀ n, N ≤ n → w n = i) (hfix : step (run step s w N) i = run step s w N) {n : ℕ}
    (hn : N ≤ n) : run step s w n = run step s w N := by
  obtain ⟨k, rfl⟩ := Nat.exists_eq_add_of_le hn
  induction k with
  | zero => rfl
  | succ k ih => rw [← Nat.add_assoc, run_succ, ih (by omega), hw (N + k) (by omega), hfix]

/-- **A component of a run is a run**: where the projection commutes with
one step, it commutes with all of them. -/
theorem run_map {F : σ → ι → σ} {G : τ → κ → τ} (f : σ → τ) (g : σ → ι → κ)
    (h : ∀ s i, f (F s i) = G (f s) (g s i)) (s : σ) (w : ℕ → ι) (n : ℕ) :
    f (run F s w n) = run G (f s) (fun k => g (run F s w k) (w k)) n := by
  induction n with
  | zero => rfl
  | succ n ih => rw [run_succ, h, ih, run_succ]

/-! ## Traces -/

/-- What a signal emits in cycles `0 … n - 1`, in order. -/
def trace (f : ℕ → List α) : ℕ → List α
  | 0 => []
  | n + 1 => trace f n ++ f n

@[simp] theorem trace_zero (f : ℕ → List α) : trace f 0 = [] := rfl

@[simp] theorem trace_succ (f : ℕ → List α) (n : ℕ) : trace f (n + 1) = trace f n ++ f n := rfl

/-- A trace from cycle `m` on. -/
theorem trace_add (f : ℕ → List α) (m n : ℕ) :
    trace f (m + n) = trace f m ++ trace (fun k => f (m + k)) n := by
  induction n with
  | zero => simp
  | succ n ih => rw [← Nat.add_assoc, trace_succ, ih, trace_succ, List.append_assoc]

theorem trace_map (g : α → β) (f : ℕ → List α) (n : ℕ) :
    (trace f n).map g = trace (fun k => (f k).map g) n := by
  induction n with
  | zero => rfl
  | succ n ih => rw [trace_succ, List.map_append, ih, trace_succ]

theorem trace_flatMap (g : α → List β) (f : ℕ → List α) (n : ℕ) :
    (trace f n).flatMap g = trace (fun k => (f k).flatMap g) n := by
  induction n with
  | zero => rfl
  | succ n ih => rw [trace_succ, List.flatMap_append, ih, trace_succ]

theorem mem_trace {f : ℕ → List α} {n : ℕ} {a : α} :
    a ∈ trace f n ↔ ∃ k < n, a ∈ f k := by
  induction n with
  | zero => simp
  | succ n ih =>
    rw [trace_succ, List.mem_append, ih]
    constructor
    · rintro (⟨k, hk, ha⟩ | ha)
      · exact ⟨k, by omega, ha⟩
      · exact ⟨n, by omega, ha⟩
    · rintro ⟨k, hk, ha⟩
      rcases Nat.lt_succ_iff_lt_or_eq.1 hk with h | rfl
      · exact Or.inl ⟨k, h, ha⟩
      · exact Or.inr ha

/-- A trace reads the cycles before its own only. -/
theorem trace_congr {f g : ℕ → List α} {n : ℕ} (h : ∀ k < n, f k = g k) : trace f n = trace g n := by
  induction n with
  | zero => rfl
  | succ n ih => rw [trace_succ, trace_succ, ih fun k hk => h k (by omega), h n (by omega)]

/-- Cycles that emit nothing leave no trace. -/
theorem trace_eq_nil {f : ℕ → List α} {n : ℕ} (h : ∀ k < n, f k = []) : trace f n = [] := by
  induction n with
  | zero => rfl
  | succ n ih => rw [trace_succ, ih fun k hk => h k (by omega), h n (by omega), List.append_nil]

/-- A signal that never emits more has not emitted more. -/
theorem length_trace_le {f : ℕ → List α} {g : ℕ → List β} {n : ℕ}
    (h : ∀ k < n, (f k).length ≤ (g k).length) : (trace f n).length ≤ (trace g n).length := by
  induction n with
  | zero => exact Nat.le_refl 0
  | succ n ih =>
    have hprev := ih fun k hk => h k (Nat.lt_succ_of_lt hk)
    have hlast := h n (Nat.lt_succ_self n)
    rw [trace_succ, trace_succ, List.length_append, List.length_append]
    omega

/-- One that emits less in some cycle has emitted less from then on. -/
theorem length_trace_lt {f : ℕ → List α} {g : ℕ → List β} {k n : ℕ}
    (h : ∀ i < n, (f i).length ≤ (g i).length) (hk : k < n)
    (hlt : (f k).length < (g k).length) : (trace f n).length < (trace g n).length := by
  induction n with
  | zero => exact absurd hk (Nat.not_lt_zero k)
  | succ n ih =>
    have hlast := h n (Nat.lt_succ_self n)
    rw [trace_succ, trace_succ, List.length_append, List.length_append]
    rcases Nat.lt_succ_iff_lt_or_eq.1 hk with hk | rfl
    · have hprev := ih (fun i hi => h i (Nat.lt_succ_of_lt hi)) hk
      omega
    · have hprev := length_trace_le (n := k) fun i hi => h i (Nat.lt_succ_of_lt hi)
      omega

/-- **Conservation.** If every cycle moves what it holds and takes in to
what it gives out and holds next, so does every run. -/
theorem trace_conserved {q f g : ℕ → List α} (h : ∀ n, q n ++ f n = g n ++ q (n + 1)) (n : ℕ) :
    q 0 ++ trace f n = trace g n ++ q n := by
  induction n with
  | zero => simp
  | succ n ih => rw [trace_succ, ← List.append_assoc, ih, List.append_assoc, h, trace_succ,
      List.append_assoc]


/-- What a signal emits in cycles `a … b - 1`. -/
def during (f : ℕ → List α) (a b : ℕ) : List α := trace (fun k => f (a + k)) (b - a)

theorem trace_eq_append_during (f : ℕ → List α) {a b : ℕ} (hab : a ≤ b) :
    trace f b = trace f a ++ during f a b := by
  rw [during, ← trace_add, Nat.add_sub_cancel' hab]

/-- The same cycles, of a signal that is seen from cycle `u` on. -/
theorem during_shift {f g : ℕ → List α} {u a b : ℕ}
    (h : ∀ k, a ≤ k → u + k < u + b → f k = g (u + k)) :
    during f a b = during g (u + a) (u + b) := by
  rw [during, during, Nat.add_sub_add_left]
  refine trace_congr fun k hk => ?_
  rw [h (a + k) (by omega) (by omega), Nat.add_assoc]

theorem during_map (g : α → β) (f : ℕ → List α) (a b : ℕ) :
    (during f a b).map g = during (fun k => (f k).map g) a b :=
  trace_map g _ _

/-! ## Counting cycles -/

/-- In how many of the `m` cycles from `u` on the signal `f` is high. -/
def tally (f : ℕ → Bool) (u m : ℕ) : ℕ := (List.range m).countP fun k => f (u + k)

@[simp] theorem tally_zero (f : ℕ → Bool) (u : ℕ) : tally f u 0 = 0 := rfl

@[simp] theorem tally_succ (f : ℕ → Bool) (u m : ℕ) :
    tally f u (m + 1) = tally f u m + (f (u + m)).toNat := by
  rw [tally, List.range_succ, List.countP_append]
  cases h : f (u + m) <;> simp [tally, h]

theorem tally_succ' (f : ℕ → Bool) (u m : ℕ) :
    tally f u (m + 1) = (f u).toNat + tally f (u + 1) m := by
  induction m with
  | zero => simp
  | succ m ih => rw [tally_succ, ih, tally_succ, Nat.add_assoc, Nat.add_right_comm u 1 m]; rfl

theorem tally_add (f : ℕ → Bool) (u m k : ℕ) :
    tally f u (m + k) = tally f u m + tally f (u + m) k := by
  induction k with
  | zero => rfl
  | succ k ih => rw [← Nat.add_assoc, tally_succ, ih, tally_succ, Nat.add_assoc, Nat.add_assoc u]

/-- A signal that is never high. -/
theorem tally_eq_zero {f : ℕ → Bool} {u m : ℕ} (h : ∀ k < m, f (u + k) = false) :
    tally f u m = 0 := by
  rw [tally, List.countP_eq_zero]
  intro k hk
  rw [h k (List.mem_range.1 hk)]
  exact Bool.false_ne_true

/-- A signal that emits a word wherever it is high emits as many as it is
high in cycles. -/
theorem length_during (f : ℕ → Bool) (x : ℕ → α) (a b : ℕ) :
    (during (fun k => if f k then [x k] else []) a b).length = tally f a (b - a) := by
  rw [during]
  induction b - a with
  | zero => rfl
  | succ m ih =>
    rw [trace_succ, List.length_append, ih, tally_succ]
    cases f (a + m) <;> rfl

/-- A signal that is high in one cycle at most. -/
theorem tally_single {f : ℕ → Bool} {t u m : ℕ} (hother : ∀ n, n ≠ t → f n = false) (hut : u ≤ t)
    (htm : t < u + m) : tally f u m = (f t).toNat := by
  obtain ⟨k, rfl⟩ := Nat.exists_eq_add_of_le hut
  obtain ⟨l, rfl⟩ : ∃ l, m = k + 1 + l := ⟨m - k - 1, by omega⟩
  have hbefore : tally f u k = 0 := tally_eq_zero fun j hj => hother (u + j) (by omega)
  have hafter : tally f (u + (k + 1)) l = 0 := tally_eq_zero fun j _ => hother _ (by omega)
  rw [tally_add, tally_succ, hbefore, hafter, Nat.zero_add, Nat.add_zero]

/-- A signal that is high at growing marks only has been high no more often
than marks have been passed, … -/
theorem tally_le_of_marks {f : ℕ → Bool} {c : ℕ → ℕ} (hc : ∀ i, c i < c (i + 1)) {j y : ℕ}
    (hy : y ≤ c j) (hf : ∀ x < y, f x = true → ∃ i, c i = x) : tally f 0 y ≤ j := by
  have hmono : StrictMono c := strictMono_nat_of_lt_succ hc
  induction j generalizing y with
  | zero =>
    refine (tally_eq_zero fun x hx => ?_).le
    rw [Nat.zero_add, ← Bool.not_eq_true]
    intro hhigh
    obtain ⟨i, rfl⟩ := hf x hx hhigh
    have := hmono.monotone (Nat.zero_le i)
    omega
  | succ j ih =>
    rcases Nat.le_total y (c j) with hle | hge
    · exact Nat.le_succ_of_le (ih hle hf)
    · obtain ⟨k, rfl⟩ := Nat.exists_eq_add_of_le hge
      have hbefore := ih (Nat.le_refl (c j)) fun x hx => hf x (by omega)
      cases k with
      | zero => exact Nat.le_succ_of_le hbefore
      | succ k =>
        -- behind the mark `c j` the signal is low up to the next
        have hrest : tally f (0 + c j + 1) k = 0 := by
          refine tally_eq_zero fun x hx => ?_
          rw [← Bool.not_eq_true]
          intro hhigh
          obtain ⟨i, hi⟩ := hf _ (by omega) hhigh
          have hlow : j < i := hmono.lt_iff_lt.1 (by omega)
          have hhi : i < j + 1 := hmono.lt_iff_lt.1 (by omega)
          omega
        have hone : (f (0 + c j)).toNat ≤ 1 := Bool.toNat_le _
        rw [tally_add, tally_succ', hrest]
        omega

/-- … and no less often, if it is high at each of them. -/
theorem le_tally_of_marks {f : ℕ → Bool} {c : ℕ → ℕ} (hc : ∀ i, c i < c (i + 1)) {j : ℕ}
    (hf : ∀ i < j, f (c i) = true) : j ≤ tally f 0 (c j) := by
  induction j with
  | zero => exact Nat.zero_le _
  | succ j ih =>
    obtain ⟨k, hk⟩ := Nat.exists_eq_add_of_le (hc j)
    have hbefore := ih fun i hi => hf i (by omega)
    rw [hk, tally_add, tally_succ, Nat.zero_add, hf j (Nat.lt_succ_self j), Bool.toNat_true]
    omega

/-- A periodic signal is high as often in every period of its length. -/
theorem tally_periodic {f : ℕ → Bool} {a d : ℕ} (h : ∀ n, a ≤ n → f (n + d) = f n) {n : ℕ}
    (hn : a ≤ n) : tally f n d = tally f a d := by
  obtain ⟨m, rfl⟩ := Nat.exists_eq_add_of_le hn
  induction m with
  | zero => rfl
  | succ m ih =>
    have hfirst := tally_succ' f (a + m) d
    rw [tally_succ, h (a + m) (by omega), ih (by omega)] at hfirst
    change tally f (a + m + 1) d = _
    omega

/-- **Conservation, counted**: what is held and goes in is what goes out
and is held next, over any cycles of which it holds one by one. -/
theorem tally_conserved {q : ℕ → ℕ} {f g : ℕ → Bool} {u m : ℕ}
    (h : ∀ k < m, q (u + k + 1) + (g (u + k)).toNat = q (u + k) + (f (u + k)).toNat) :
    q (u + m) + tally g u m = q u + tally f u m := by
  induction m with
  | zero => rfl
  | succ m ih =>
    have hlast := h m (Nat.lt_succ_self m)
    have hbefore := ih fun k hk => h k (by omega)
    rw [tally_succ, tally_succ]
    change q (u + m + 1) + _ = _
    omega

/-! ## Edges -/

/-- A signal that is high and later low falls in between. -/
theorem exists_fall {f : ℕ → Bool} {a b : ℕ} (hab : a ≤ b) (ha : f a = true) (hb : f b = false) :
    ∃ t, a ≤ t ∧ t < b ∧ f t = true ∧ f (t + 1) = false := by
  induction b with
  | zero =>
    rw [Nat.le_zero.1 hab, hb] at ha
    cases ha
  | succ b ih =>
    have hle : a ≤ b := by
      rcases Nat.lt_or_eq_of_le hab with hlt | rfl
      · exact Nat.le_of_lt_succ hlt
      · rw [hb] at ha; cases ha
    cases hfb : f b with
    | true => exact ⟨b, hle, Nat.lt_succ_self b, hfb, hb⟩
    | false =>
      obtain ⟨t, hat, htb, ht⟩ := ih hle hfb
      exact ⟨t, hat, by omega, ht⟩

/-- And one that is low and later high rises. -/
theorem exists_rise {f : ℕ → Bool} {a b : ℕ} (hab : a ≤ b) (ha : f a = false) (hb : f b = true) :
    ∃ t, a ≤ t ∧ t < b ∧ f t = false ∧ f (t + 1) = true := by
  obtain ⟨t, hat, htb, ht, ht'⟩ := exists_fall (f := fun n => !f n) hab (by rw [ha]; rfl)
    (by rw [hb]; rfl)
  rw [Bool.not_eq_true'] at ht
  rw [Bool.not_eq_false'] at ht'
  exact ⟨t, hat, htb, ht, ht'⟩

/-- A period of a signal that has ended: it is high from cycle `a` to
cycle `b`, and low on either side. -/
structure Period (f : ℕ → Bool) (a b : ℕ) : Prop where
  lt : a < b
  before : ∀ k, k + 1 = a → f k = false
  high : ∀ k, a ≤ k → k < b → f k = true
  after : f b = false

instance (f : ℕ → Bool) (a b : ℕ) : Decidable (Period f a b) :=
  decidable_of_iff (a < b ∧ (∀ k < a, k + 1 = a → f k = false) ∧
      (∀ k < b, a ≤ k → f k = true) ∧ f b = false)
    ⟨fun ⟨hlt, hbefore, hhigh, hafter⟩ =>
        ⟨hlt, fun k hk => hbefore k (by omega) hk, fun k hak hkb => hhigh k hkb hak, hafter⟩,
      fun h => ⟨h.lt, fun k _ hk => h.before k hk, fun k hkb hak => h.high k hak hkb, h.after⟩⟩

/-- In how many cycles before `n` a period has ended. -/
def ended (f : ℕ → Bool) (n : ℕ) : ℕ := tally (fun k => f k && !f (k + 1)) 0 n

@[simp] theorem ended_zero (f : ℕ → Bool) : ended f 0 = 0 := rfl

theorem ended_succ (f : ℕ → Bool) (n : ℕ) :
    ended f (n + 1) = ended f n + (f n && !f (n + 1)).toNat := by
  rw [ended, ended, tally_succ, Nat.zero_add]

namespace Period

variable {f : ℕ → Bool} {a b : ℕ}

/-- A period of a signal that starts low has a cycle before it. -/
theorem exists_before (h : Period f a b) (h0 : f 0 = false) : ∃ u, a = u + 1 ∧ f u = false := by
  rcases Nat.eq_zero_or_pos a with rfl | hpos
  · rw [h.high 0 (Nat.le_refl 0) h.lt] at h0
    cases h0
  · exact ⟨a - 1, by omega, h.before (a - 1) (by omega)⟩

/-- **Periods do not touch**: between two there is a low cycle. -/
theorem lt_of_lt {a' b' : ℕ} (h : Period f a b) (h' : Period f a' b') (hlt : a < a') : b < a' := by
  by_contra hle
  have hlow := h'.before (a' - 1) (by omega)
  rw [h.high (a' - 1) (by omega) (by omega)] at hlow
  cases hlow

/-- No other period ends while one lasts. -/
theorem ended_eq (h : Period f a b) : ended f b = ended f a + 1 := by
  have hrest : ∀ m, a + m < b → ended f (a + m) = ended f a := by
    intro m
    induction m with
    | zero => exact fun _ => rfl
    | succ m ih =>
      intro hm
      rw [← Nat.add_assoc, ended_succ, ih (by omega), h.high (a + m + 1) (by omega) (by omega),
        Bool.not_true, Bool.and_false]
      rfl
  have hlt := h.lt
  obtain ⟨m, rfl⟩ : ∃ m, b = a + m + 1 := ⟨b - a - 1, by omega⟩
  rw [ended_succ, hrest m (by omega), h.high (a + m) (by omega) (by omega), h.after]
  rfl

end Period

/-- **Every period that has ended is one**, from its first cycle to its
last. -/
theorem exists_period {f : ℕ → Bool} {i n : ℕ} (h : i < ended f n) :
    ∃ a b, Period f a b ∧ b ≤ n ∧ ended f a = i := by
  induction n with
  | zero => exact absurd h (Nat.not_lt_zero i)
  | succ n ih =>
    by_cases hi : i < ended f n
    · obtain ⟨a, b, hper, hb, ha⟩ := ih hi
      exact ⟨a, b, hper, by omega, ha⟩
    · rw [ended_succ] at h
      have hfall : (f n && !f (n + 1)) = true := by
        by_contra hno
        rw [Bool.not_eq_true] at hno
        rw [hno] at h
        exact hi h
      obtain ⟨hn, hlow⟩ := Bool.and_eq_true_iff.1 hfall
      rw [Bool.not_eq_true'] at hlow
      -- back to where the signal rose
      have hex : ∃ a, ∀ k, a ≤ k → k < n + 1 → f k = true :=
        ⟨n, fun k hk hlt => by rwa [show k = n by omega]⟩
      have hspec := Nat.find_spec hex
      have hle : Nat.find hex ≤ n :=
        Nat.find_min' hex fun k hk hlt => by rwa [show k = n by omega]
      have hper : Period f (Nat.find hex) (n + 1) := by
        refine ⟨by omega, fun k hk => ?_, hspec, hlow⟩
        by_contra hf
        rw [Bool.not_eq_false] at hf
        refine Nat.find_min hex (show k < Nat.find hex by omega) fun j hj hlt => ?_
        rcases Nat.lt_or_eq_of_le hj with hlt' | rfl
        · exact hspec j (by omega) hlt
        · exact hf
      refine ⟨_, _, hper, Nat.le_refl (n + 1), ?_⟩
      have hended := hper.ended_eq
      rw [ended_succ, hfall] at hended
      rw [hfall, Bool.toNat_true] at h
      rw [Bool.toNat_true] at hended
      omega

/-! ## Delay lines -/

/-- The clock edge of a delay line, which gives out its head. -/
def shift (l : List α) (a : α) : List α := l.tail ++ [a]

theorem shift_ne_nil (l : List α) (a : α) : shift l a ≠ [] :=
  List.append_ne_nil_of_right_ne_nil _ (List.cons_ne_nil a [])

/-- What a delay line counts, one cycle to the next. -/
theorem countP_shift {l : List α} (hl : l ≠ []) (p : α → Bool) (a d : α) :
    (shift l a).countP p + (p (l.headD d)).toNat = l.countP p + (p a).toNat := by
  obtain ⟨b, l, rfl⟩ := List.exists_cons_of_ne_nil hl
  rw [shift, List.tail_cons, List.countP_append, List.countP_singleton, List.headD_cons,
    List.countP_cons]
  cases p a <;> cases p b <;> simp

/-- A delay line holds what it has taken in behind what it started with. -/
theorem run_shift {l : List α} (hl : l ≠ []) (f : ℕ → α) (n : ℕ) :
    run shift l f n = (l ++ (List.range n).map f).drop n := by
  induction n with
  | zero => simp
  | succ n ih =>
    have hlen : n + 1 ≤ (l ++ (List.range n).map f).length := by
      have := List.length_pos_of_ne_nil hl
      rw [List.length_append, List.length_map, List.length_range]
      omega
    rw [run_succ, ih, shift, List.tail_drop, List.range_succ, List.map_append, List.map_singleton,
      ← List.append_assoc, List.drop_append_of_le_length hlen]

/-- At first it gives out what it started with. -/
theorem run_shift_head?_of_lt {l : List α} (f : ℕ → α) {n : ℕ} (hn : n < l.length) :
    (run shift l f n).head? = l[n]? := by
  rw [run_shift (List.ne_nil_of_length_pos (by omega)), List.head?_drop, List.getElem?_append_left hn]

/-- **Then the line holds its last inputs.** -/
theorem run_shift_full {l : List α} (hl : l ≠ []) (f : ℕ → α) (n : ℕ) :
    run shift l f (n + l.length) = (List.range l.length).map fun k => f (n + k) := by
  rw [run_shift hl, Nat.add_comm n, ← List.drop_drop, List.drop_left, ← List.map_drop]
  refine List.ext_getElem? fun k => ?_
  simp only [List.getElem?_map, List.getElem?_drop]
  by_cases hk : k < l.length
  · rw [List.getElem?_range (by omega), List.getElem?_range hk]; rfl
  · rw [List.getElem?_eq_none (by simp; omega), List.getElem?_eq_none (by simp; omega)]; rfl

/-- **An idle line gives out its input, delayed by its length.** -/
theorem headD_run_shift {L : ℕ} (hL : 0 < L) (d : α) (f : ℕ → α) (n : ℕ) :
    (run shift (List.replicate L d) f n).headD d = if n < L then d else f (n - L) := by
  have hne : List.replicate L d ≠ [] := by simp; omega
  split
  · rename_i hn
    rw [List.headD_eq_head?_getD, run_shift_head?_of_lt f (by rw [List.length_replicate]; exact hn),
      List.getElem?_replicate, if_pos hn]
    rfl
  · rename_i hn
    obtain ⟨m, rfl⟩ : ∃ m, n = m + L := ⟨n - L, by omega⟩
    have hfull := run_shift_full hne f m
    rw [List.length_replicate] at hfull
    obtain ⟨k, rfl⟩ := Nat.exists_eq_add_of_lt hL
    rw [hfull, Nat.add_sub_cancel, List.range_succ_eq_map]
    rfl

/-! ## Progress -/

/-- **The progress rule.** A measure that, wherever it is positive, is
strictly smaller at some later cycle, reaches zero. -/
theorem exists_zero_of_progress {μ : ℕ → ℕ} {a : ℕ}
    (hprog : ∀ n, a ≤ n → 0 < μ n → ∃ m, n ≤ m ∧ μ (m + 1) < μ n) :
    ∃ m, a ≤ m ∧ μ m = 0 := by
  have key : ∀ k n, a ≤ n → μ n ≤ k → ∃ m, a ≤ m ∧ μ m = 0 := by
    intro k
    induction k with
    | zero => exact fun n hn hk => ⟨n, hn, by omega⟩
    | succ k ih =>
      intro n hn hk
      rcases Nat.eq_zero_or_pos (μ n) with hz | hpos
      · exact ⟨n, hn, hz⟩
      · obtain ⟨m, hm, hlt⟩ := hprog n hn hpos
        exact ih (m + 1) (by omega) (by omega)
  exact key (μ a) a (Nat.le_refl a) (Nat.le_refl _)

end Clocked
