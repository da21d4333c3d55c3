import SoftMC.Path.Phases
import SoftMC.Dispatch.Progress
import SoftMC.Dispatch.Refine
/-!
# Runs of the instruction path

A run starts at rest. As long as no write meets a full FIFO every state
of it is in a phase, with what has been buffered since the last
`process_iseq`; and where `dfi_ready` is not low for ever, every dispatch
ends.
-/

namespace SoftMC

open Clocked

/-- **A run of the path** from rest, with FIFOs of the given depth and an
arbitrary waveform at its inputs. -/
structure PathRun where
  depth : Option ℕ
  start : Core
  wave : ℕ → Core.In
  idle : start.Idle

namespace PathRun

variable (r : PathRun)

/-- The registers at the start of cycle `n`. -/
def state (n : ℕ) : Core := run (Core.next r.depth) r.start r.wave n

/-- What has been buffered since the last `process_iseq`. -/
def since : ℕ → List Instr
  | 0 => []
  | n + 1 => (r.state n).buffered (r.wave n) (since n)

/-- The instructions stored for the FIFOs before cycle `n`, in the order
of their acceptance. -/
def stored (n : ℕ) : List Instr := trace (fun k => (r.state k).stored (r.wave k)) n

/-- The inputs of the dispatcher and its FIFOs in cycle `n`. -/
def execIn (n : ℕ) : Exec.In := (r.state n).execIn (r.wave n)

/-- What the slots issue in cycle `t`, by DRAM cycle. -/
def events (t : ℕ) : List (ℕ × Instr) := (r.state t).exec.events t (r.execIn t)

/-- The instructions issued before cycle `n`, with their DRAM cycles. -/
def issued (n : ℕ) : List (ℕ × Instr) := trace r.events n

/-- The words taken from each input of the dispatcher before cycle `n`. -/
def taken0 (n : ℕ) : List Instr :=
  trace (fun k => ((r.state k).exec.taken0 (r.execIn k)).toList) n

def taken1 (n : ℕ) : List Instr :=
  trace (fun k => ((r.state k).exec.taken1 (r.execIn k)).toList) n

/-- No write of cycle `n` is discarded. -/
def Fits (n : ℕ) : Prop := Exec.Fits r.depth (r.state n).exec (r.execIn n)

@[simp] theorem state_zero : r.state 0 = r.start := rfl

theorem state_succ (n : ℕ) : r.state (n + 1) = Core.next r.depth (r.state n) (r.wave n) := rfl

theorem stored_succ (n : ℕ) :
    r.stored (n + 1) = r.stored n ++ (r.state n).stored (r.wave n) := rfl

theorem issued_succ (n : ℕ) : r.issued (n + 1) = r.issued n ++ r.events n := rfl

variable {r}

/-- **Every state of a run is in a phase.** -/
theorem phase {n : ℕ} (hfit : ∀ k < n, r.Fits k) : (r.state n).Phase (r.since n) := by
  induction n with
  | zero => exact Or.inl r.idle.1
  | succ n ih => exact (ih fun k hk => hfit k (by omega)).next (hfit n (by omega))

/-- An ideal FIFO discards nothing. -/
theorem fits_of_unbounded (h : r.depth = none) (n : ℕ) : r.Fits n := by
  rw [Fits, h]
  exact Exec.fits_of_unbounded

/-- **Every state has a mode**, whatever the FIFOs discard. -/
theorem mode (n : ℕ) : (r.state n).Mode := by
  induction n with
  | zero => exact Or.inl r.idle.atRest
  | succ n ih => exact ih.next

theorem idle_of_pulse {n : ℕ} (hp : (r.state n).recv.processIseqR = true) :
    (r.state n).recv.stateR = .idle := by
  rcases mode (r := r) n with hrest | hd
  · exact hrest.idle hp
  · exact hd.idle

/-- A dispatch goes on while the dispatcher is busy. -/
theorem dispatching_of_busy {n : ℕ} (h : (r.state n).Dispatching) (k : ℕ)
    (hbusy : ∀ j, n ≤ j → j ≤ n + k → (r.state j).exec.iseq.dispatcherBusyR = true) :
    (r.state (n + k)).Dispatching := by
  induction k with
  | zero => exact h
  | succ k ih =>
    have hd := ih fun j hj hjk => hbusy j hj (by omega)
    rcases hd.next (D := r.depth) (i := r.wave (n + k)) with hb | ⟨-, hd'⟩
    · have hrest := hb.resting.1
      rw [← state_succ, Nat.add_assoc, hbusy (n + (k + 1)) (by omega) (by omega)] at hrest
      cases hrest
    · exact hd'

/-- **A dispatch ends** where `dfi_ready` is not low for ever. -/
theorem exists_not_busy {n : ℕ} (h : (r.state n).Dispatching)
    (hready : ∀ n, ∃ m, n ≤ m ∧ (r.wave m).dfiReady = true) :
    ∃ m, n ≤ m ∧ (r.state m).exec.iseq.dispatcherBusyR = false := by
  by_contra hno
  have hbusy : ∀ m, n ≤ m → (r.state m).exec.iseq.dispatcherBusyR = true := by
    intro m hm
    by_contra hb
    exact hno ⟨m, hm, Bool.not_eq_true _ ▸ hb⟩
  have hdisp : ∀ m, n ≤ m → (r.state m).Dispatching := by
    intro m hm
    obtain ⟨k, rfl⟩ := Nat.exists_eq_add_of_le hm
    exact dispatching_of_busy h k fun j hj _ => hbusy j hj
  have hflow : ∀ m, n + 1 ≤ m → (r.state m).exec.Flowing := by
    intro m hm
    obtain ⟨k, rfl⟩ := Nat.exists_eq_add_of_le' (show 1 ≤ m by omega)
    have hd := hdisp k (by omega)
    rcases hd.exec with h | h
    · exact h.next hd.no_write.1 hd.no_write.2
    · exact h.next hd.noPulse hd.no_write.1 hd.no_write.2
  obtain ⟨m, hm, hnil⟩ := Exec.exists_drained (D := r.depth) (e := fun m => (r.state m).exec)
    (i := r.execIn) (a := n + 1) (fun _ _ => rfl) hflow (fun m hm => (hdisp m (by omega)).no_write)
    hready
  have hb := ((hflow m hm).busy_next (D := r.depth) (i := r.execIn m)
    (hdisp m (by omega)).noPulse).2 hnil
  have := hbusy (m + 1) (by omega)
  rw [state_succ] at this
  exact Bool.false_ne_true (hb.symm.trans this)

/-- **A dispatch runs to its end undisturbed**: from its first cycle to the
first in which the dispatcher is not busy the path is dispatching. -/
theorem exists_dispatched {n : ℕ} (h : (r.state n).Dispatching)
    (hready : ∀ n, ∃ m, n ≤ m ∧ (r.wave m).dfiReady = true) :
    ∃ k, (∀ j, j ≤ k → (r.state (n + j)).Dispatching) ∧ (r.state (n + k + 1)).Phase [] ∧
      (r.state (n + k + 1)).exec.iseq.dispatcherBusyR = false := by
  have hex := exists_not_busy h hready
  have hfind := Nat.find_spec hex
  have hmin : ∀ j, n ≤ j → j < Nat.find hex → (r.state j).exec.iseq.dispatcherBusyR = true := by
    intro j hj hlt
    have := Nat.find_min hex hlt
    rw [not_and, Bool.not_eq_false] at this
    exact this hj
  obtain ⟨k, hk⟩ : ∃ k, Nat.find hex = n + k + 1 := by
    obtain ⟨j, hj⟩ := Nat.exists_eq_add_of_le hfind.1
    cases j with
    | zero =>
      have hb := hfind.2
      rw [hj, Nat.add_zero, h.busy] at hb
      cases hb
    | succ j => exact ⟨j, hj⟩
  have hdisp : ∀ j, j ≤ k → (r.state (n + j)).Dispatching := fun j hj =>
    dispatching_of_busy h j fun i hi hij => hmin i hi (by omega)
  exact ⟨k, hdisp, (hdisp k le_rfl).next, by rw [← hk]; exact hfind.2⟩

/-- Nothing is stored by a dispatch. -/
theorem stored_of_dispatching {n k : ℕ} (h : ∀ j, j ≤ k → (r.state (n + j)).Dispatching) :
    r.stored (n + k + 1) = r.stored n := by
  induction k with
  | zero =>
    have h0 : (r.state n).Dispatching := h 0 le_rfl
    rw [Nat.add_zero, stored_succ, h0.stored, List.append_nil]
  | succ k ih =>
    rw [stored_succ, (h (k + 1) le_rfl).stored, List.append_nil]
    exact ih fun j hj => h j (by omega)

/-- A dispatch only takes from what the queues hold. -/
theorem contents_of_dispatching {n k : ℕ}
    (h : ∀ j, j < k → (r.state (n + j)).Dispatching) :
    r.taken0 n ++ (r.state n).exec.content0 = r.taken0 (n + k) ++ (r.state (n + k)).exec.content0 ∧
      r.taken1 n ++ (r.state n).exec.content1 =
        r.taken1 (n + k) ++ (r.state (n + k)).exec.content1 := by
  induction k with
  | zero => exact ⟨rfl, rfl⟩
  | succ k ih =>
    obtain ⟨ih0, ih1⟩ := ih fun j hj => h j (by omega)
    have hd := h k (by omega)
    have hsound : (r.state (n + k)).exec.Sound := by
      rcases hd.exec with h | h
      · exact h.sound
      · exact h.sound
    obtain ⟨hq0, hq1⟩ := Exec.contents_of_no_write (D := r.depth) hsound
      (hd.no_write (i := r.wave (n + k))).1 (hd.no_write (i := r.wave (n + k))).2
    rw [ih0, ih1, hq0, hq1, ← Nat.add_assoc]
    simp only [taken0, taken1, trace_succ, List.append_assoc]
    exact ⟨rfl, rfl⟩

/-- Nothing is taken from a dispatcher at rest. -/
theorem taken_of_resting {n : ℕ} (h : ∀ k < n, (r.state k).exec.Resting) :
    r.taken0 n = [] ∧ r.taken1 n = [] := by
  constructor
  · refine trace_eq_nil fun k hk => ?_
    simp [Exec.toList_taken0, (h k hk).2.1.1]
  · refine trace_eq_nil fun k hk => ?_
    simp [Exec.toList_taken1, (h k hk).2.2.1]

end PathRun

end SoftMC
