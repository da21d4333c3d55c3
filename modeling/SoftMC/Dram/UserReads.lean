import SoftMC.Dram.Run
import SoftMC.Maintenance.ReadLock
/-!
# The reads of the application

What the memory gives out, read by read: the data of the reads that issue
with the lock open are, in order, what the application's own sequences
read.
-/

namespace SoftMC

open Banked Clocked Dispatcher TwoSlot

/-! ## The lock and the source -/

namespace PathRun

variable {r : PathRun}

/-- Between two pulses the sequence in the dispatcher's hands is the last
one handed over. -/
theorem turn_eq {n : ℕ} {x : Source × Instr} (hx : x ∈ r.sequence n)
    (hp : (r.state n).recv.processIseqR = false) : r.turn n = x.1 := by
  induction n with
  | zero => cases hx
  | succ n ih =>
    rw [sequence, if_neg (by simp [hp])] at hx
    cases hp' : (r.state n).recv.processIseqR with
    | true =>
      rw [sequence_of_pulse hp'] at hx
      rw [turn, if_pos hp', origin_eq hx]
    | false =>
      rw [turn, if_neg (by simp [hp']), ih hx hp']

end PathRun

namespace ControllerRun

variable (r : ControllerRun)

/-- The commands issued before cycle `n`, each with its DRAM cycle and the
source of its sequence. -/
def deviceBy (n : ℕ) : List ((ℕ × Source) × DeviceCmd) :=
  (r.path.issuedBy n).flatMap fun e => (deviceCmds e.2).map (e.1, ·)

/-- The reads among them of the application, by DRAM cycle. -/
def appReads (n : ℕ) : List ℕ :=
  ((r.path.issuedBy n).filter fun e => e.1.2 = .app && isRead e.2).map fun e => e.1.1

variable {r}

/-- **A read finds the lock open exactly if it is the application's.** -/
theorem turn_of_read (hroom : r.Roomy) (hcke : r.ClockEnabled) {n : ℕ} {w : Instr}
    (h : r.Issues n w) (hr : isRead w = true) : r.path.turn n = .app ↔ r.lock n = false := by
  obtain ⟨hd, src, hmem⟩ := h.dispatching
  have hp : (r.path.state n).recv.processIseqR = false := by
    rw [r.path_state n]
    exact hd.noPulse
  rw [PathRun.turn_eq hmem hp]
  cases src with
  | app => exact iff_of_true rfl (lock_of_app hroom hcke h hmem)
  | maint =>
    rw [(lock_of_maint hroom hcke h hr hmem).1]
    exact iff_of_false (by simp) (by simp)

/-! ## What they read -/

theorem deviceStream_eq_servedBy (n : ℕ) :
    r.deviceStream n = (r.path.servedBy n).flatMap fun x => (deviceCmds x.2).map (x.1, ·) := by
  rw [deviceStream, PathRun.servedBy, List.flatMap_assoc]
  refine List.flatMap_congr fun s _ => ?_
  rw [labelled, List.map_flatMap, List.flatMap_map]

/-- What is given bears the labels of the reads issued. -/
theorem map_fst_out {n : ℕ} {m m₁ : Device} {out : List ((ℕ × Source) × Burst)}
    (he : exec m (r.deviceBy n) = some (m₁, out)) :
    out.map Prod.fst = ((r.path.issuedBy n).filter fun e => isRead e.2).map Prod.fst := by
  have hother : ∀ e ∈ r.path.issuedBy n, Cmd.other ∉ deviceCmds e.2 := by
    intro e hmem hcmd
    refine other_not_mem (m := m) (l := r.deviceBy n) (by rw [he]; exact Option.some_ne_none _)
      (List.mem_flatMap.2 ⟨e, hmem, List.mem_map_of_mem hcmd⟩) rfl
  rw [map_fst_output he, deviceBy, labels_of_stream hother]

section Ordered

variable (hfit : ∀ n, r.path.Fits n) (hready : ∀ n, (r.wave n).dfiReady = true)
  (hwaits : ∀ n, ∀ w ∈ r.stored n, waitOf w ≠ some 0)
  (hover : ∀ n, (r.state n).core.recv.processIseqR = true → (r.state n).core.HandsOver)

include hfit hready hwaits hover

theorem deviceStream_eq_deviceBy (n : ℕ) :
    ∃ R, r.deviceStream n = (r.deviceBy n).map (Prod.map Prod.snd id) ++ R ∧
      ((r.state n).core.exec.iseq.dispatcherBusyR = false → R = []) := by
  obtain ⟨R, hR, -, hnil⟩ := PathRun.servedBy_eq_issuedBy (r := r.path) hfit hready
    (fun n w hw => hwaits n w (by rwa [r.path_state n] at hw))
    (fun n hp => by rw [r.path_state n] at hp ⊢; exact hover n hp) n
  rw [r.path_state n] at hnil
  refine ⟨R.flatMap fun x => (deviceCmds x.2).map (x.1, ·), ?_, fun hb => by rw [hnil hb]; rfl⟩
  rw [deviceStream_eq_servedBy, hR, List.flatMap_append, List.flatMap_map, deviceBy,
    List.map_flatMap]
  congr 1
  refine List.flatMap_congr fun e _ => ?_
  rw [List.map_map]
  rfl

/-- **What the application's sequences read**, read by read: the data of
the reads issued so far, and what is still to come of a sequence in the
dispatcher's hands. -/
theorem exec_appReads (hself : r.AppSelfContained) (n : ℕ) (m : Device) :
    ∃ m₁ out m₂ rest, exec m (r.deviceBy n) = some (m₁, out) ∧
      exec m (r.appStream n) =
        some (m₂, (out.filter (·.1.2 = .app)).map (Prod.map Prod.snd id) ++ rest) ∧
      (out.filter (·.1.2 = .app)).map (·.1.1) = r.appReads n ∧
      ((r.state n).core.exec.iseq.dispatcherBusyR = false → rest = []) := by
  obtain ⟨m₁, m₂, outS, hS, happ, -⟩ := exec_deviceStream hself n m
  obtain ⟨R, hR, hnil⟩ := deviceStream_eq_deviceBy hfit hready hwaits hover n
  rw [hR] at hS
  obtain ⟨mA, oA, oB, hA, hB, rfl⟩ := exec_append_eq_some hS
  rw [exec_relabel] at hA
  obtain ⟨⟨m₃, out⟩, hout, heq⟩ := Option.map_eq_some_iff.1 hA
  obtain ⟨-, rfl⟩ := Prod.mk.inj heq
  refine ⟨m₃, out, m₂, oB.filter (·.1 = .app), hout, ?_, ?_, fun hb => ?_⟩
  · rw [happ, List.filter_append, List.filter_map]
    rfl
  · -- by the labels of the reads
    have hlabels := map_fst_out hout
    have hfilter := congrArg (fun l => (l.filter (·.2 = Source.app)).map Prod.fst) hlabels
    simp only [List.filter_map, List.filter_filter, List.map_map] at hfilter
    exact hfilter
  · rw [hnil hb] at hB
    obtain ⟨-, rfl⟩ := Prod.mk.inj (Option.some.inj hB)
    rfl

end Ordered

end ControllerRun

end SoftMC
