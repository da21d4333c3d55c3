import SoftMC.Dram.Serving
import SoftMC.Host.Receive
import SoftMC.Maintenance.Progress
import SoftMC.Path.Issued
import SoftMC.Top.ReadBack
/-!
# A host that sends requests

The words the channel has transferred are the instructions accepted of the
application, and the one that waits in the receive register. So a host
that sends requests has them served: in the order it sends them in, and
all of them.
-/

namespace SoftMC

open Banked Clocked Dispatcher RetentionTest TwoSlot Units

namespace TopRun

variable (r : TopRun)

/-- What the host has sent before cycle `n`: the low halves of the words
transferred, behind what the register powers up with. -/
def sent (n : ℕ) : List Instr :=
  r.rx.waiting ++ trace (fun k => ((r.state k).rx.transferred (r.chnlRx k)
    ((r.state k).appAck (r.wave k))).map (·.extractLsb' 0 32)) n

/-- The number of requests that have been handed over. -/
def servedCount (n : ℕ) : ℕ := (r.controller.path.appServed n).length

variable {r}

/-- What is taken of the register is what the path accepts of the
application. -/
theorem rx_accepted (n : ℕ) :
    (r.state n).rx.accepted ((r.state n).appAck (r.wave n)) =
      PathRun.ofApp (r.controller.path.accepted n) := by
  obtain ⟨m, w, hacc⟩ : ∃ (m : Bool) (w : Instr), r.controller.path.accepted n =
      (if (r.state n).rx.appEnR && (r.state n).appAck (r.wave n) then
        some (Source.app, (r.state n).rx.appInstr)
        else if m then some (Source.maint, w) else none).toList := by
    rw [PathRun.accepted, ControllerRun.path_state, controller_state]
    change ∃ m w, (Core.accepted _ (r.controller.coreIn n)).toList = _
    rw [controller_coreIn]
    exact ⟨_, _, rfl⟩
  rw [PcieRx.accepted, hacc]
  by_cases happ : ((r.state n).rx.appEnR && (r.state n).appAck (r.wave n)) = true
  · rw [if_pos happ, if_pos happ]
    rfl
  · rw [if_neg happ, if_neg happ]
    cases m <;> rfl

/-- **What has been sent has been accepted, or waits.** -/
theorem sent_eq (n : ℕ) :
    r.sent n = r.controller.path.appAccepted n ++ (r.state n).rx.waiting := by
  have hcons := trace_conserved (q := fun k => (r.state k).rx.waiting)
    (fun k => (r.state k).rx.waiting_next (r.chnlRx k) ((r.state k).appAck (r.wave k))) n
  rw [trace_congr (f := fun k => (r.state k).rx.accepted ((r.state k).appAck (r.wave k)))
    fun k _ => rx_accepted k] at hcons
  exact hcons

theorem appAccepted_prefix_sent (n : ℕ) : r.controller.path.appAccepted n <+: r.sent n :=
  ⟨(r.state n).rx.waiting, (sent_eq n).symm⟩

theorem sent_mono {m n : ℕ} (h : m ≤ n) : r.sent m <+: r.sent n := by
  obtain ⟨k, rfl⟩ := Nat.exists_eq_add_of_le h
  rw [sent, sent, trace_add, ← List.append_assoc]
  exact List.prefix_append _ _

/-- **No more is read for the host** than it has sent reads. -/
theorem length_userReads_le (h : r.controller.Asked) (n : ℕ) :
    (r.readback.userReads n).length ≤ (r.sent n).countP isRead := by
  have hissued := PathRun.countP_issuedBy h.fits .app isRead n
  rw [List.flatMap_def] at hissued
  rw [userReads_eq h.roomy h.clockEnabled, ControllerRun.appReads, List.length_map,
    ← List.countP_eq_length_filter, sent_eq, PathRun.appAccepted_eq, PathRun.appServed,
    List.append_assoc, List.countP_append]
  omega

/-! ## All of it is accepted -/

/-- The register offers its word until it is taken. -/
theorem appEn_of_not_accepted {n m : ℕ} (hn : n ≤ m) (hen : (r.state n).rx.appEnR = true)
    (hnone : ∀ k, n ≤ k → k < m → ∀ w, (Source.app, w) ∉ r.controller.path.accepted k) :
    (r.state m).rx.appEnR = true := by
  induction m, hn using Nat.le_induction with
  | base => exact hen
  | succ m hm ih =>
    have hprev := ih fun k hk hlt => hnone k hk (Nat.lt_succ_of_lt hlt)
    have hack : (r.state m).appAck (r.wave m) = false := by
      by_contra hne
      have hacc := rx_accepted (r := r) m
      rw [PcieRx.accepted, hprev, Bool.eq_true_of_not_eq_false hne] at hacc
      have hmem : (r.state m).rx.appInstr ∈ PathRun.ofApp (r.controller.path.accepted m) :=
        hacc ▸ List.mem_singleton_self _
      obtain ⟨x, hx, -⟩ := List.mem_map.1 hmem
      obtain ⟨hx, hsrc⟩ := List.mem_filter.1 hx
      exact hnone m hm (Nat.lt_succ_self m) x.2 (of_decide_eq_true hsrc ▸ hx)
    change (if (r.state m).rx.chnlRxDataRen ((r.state m).appAck (r.wave m)) then _ else _) = true
    rw [PcieRx.chnlRxDataRen, hprev, hack]
    exact hprev

/-- **Everything sent is accepted** in the end. -/
theorem exists_sent_accepted (hready : ∀ n, (r.controller.wave n).dfiReady = true) (n : ℕ) :
    ∃ m, n ≤ m ∧ r.sent n <+: r.controller.path.appAccepted m := by
  have hsplit := sent_eq (r := r) n
  cases hen : (r.state n).rx.appEnR with
  | false =>
    rw [PcieRx.waiting, hen, if_neg Bool.false_ne_true, List.append_nil] at hsplit
    exact ⟨n, Nat.le_refl n, hsplit ▸ List.prefix_rfl⟩
  | true =>
    obtain ⟨m, hm, w, hw⟩ := ControllerRun.exists_accepted (r := r.controller) (n := n)
      (fun k => ⟨k, Nat.le_refl k, hready k⟩) fun m hm hnone => by
        rw [controller_wave]
        exact appEn_of_not_accepted hm hen hnone
    refine ⟨m + 1, by omega, ?_⟩
    -- both are the beginning of what has been sent by then
    have hlen : (r.sent n).length ≤ (r.controller.path.appAccepted (m + 1)).length := by
      have hone : (r.state n).rx.waiting.length ≤ 1 := by
        rw [PcieRx.waiting]
        split <;> simp
      have hmore : (r.controller.path.appAccepted n).length <
          (r.controller.path.appAccepted (m + 1)).length := by
        obtain ⟨k, rfl⟩ := Nat.exists_eq_add_of_le hm
        have hpos := List.length_pos_of_mem (PathRun.mem_ofApp hw)
        rw [PathRun.appAccepted, PathRun.appAccepted, trace_succ, trace_add, List.length_append,
          List.length_append]
        omega
      rw [hsplit, List.length_append]
      omega
    exact List.prefix_of_prefix_length_le (sent_mono (by omega)) (appAccepted_prefix_sent (m + 1)) hlen

end TopRun

end SoftMC
