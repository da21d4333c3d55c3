import SoftMC.Maintenance.Buffered
/-!
# The application is not locked out

A visit of maintenance to the receiver ends, and so does every dispatch;
and a receiver that is idle takes an instruction of the application before
one of maintenance. So what the application keeps on offer is taken,
whatever maintenance is requested.
-/

namespace SoftMC

namespace ControllerRun

variable {r : ControllerRun}

/-- The receiver takes what the application offers: it is in the middle of
its sequence, or idle in front of a dispatcher that is not busy. -/
def Receptive (r : ControllerRun) (n : ℕ) : Prop :=
  r.recvState n = .app ∨
    (r.recvState n = .idle ∧ (r.state n).core.recv.processIseqR = false ∧
      (r.state n).core.exec.iseq.dispatcherBusyR = false)

/-- **The application comes first.** -/
theorem Receptive.accepted {n : ℕ} (h : r.Receptive n) (hen : (r.wave n).appEn = true) :
    r.path.accepted n = [(Source.app, (r.wave n).appInstr)] := by
  have hack : ((r.state n).core.recv.comb ((r.state n).core.recvIn (r.coreIn n))).appAck = true := by
    rcases h with happ | ⟨hidle, hp, hbusy⟩
    · exact (Receiver.comb_app _ _ happ).1
    · have hready : ((r.state n).core.recvIn (r.coreIn n)).dispatcherReady = true := by
        rw [Core.recvIn, hbusy]
        rfl
      rw [Receiver.comb_idle_app _ _ hidle hready hp hen]
  have hacc : (r.state n).core.accepted (r.coreIn n) = some (.app, (r.wave n).appInstr) := by
    rw [Core.accepted, Receiver.accepted, hack]
    exact if_pos (Bool.and_eq_true_iff.2 ⟨hen, rfl⟩)
  rw [PathRun.accepted, path_state]
  change ((r.state n).core.accepted (r.coreIn n)).toList = _
  rw [hacc]
  rfl

section Ready

variable (hready : ∀ n, ∃ m, n ≤ m ∧ (r.wave m).dfiReady = true)

include hready

/-- A dispatch ends with a receiver that is idle. -/
theorem exists_receptive_of_dispatching {n : ℕ} (h : (r.state n).core.Dispatching) :
    ∃ m, n ≤ m ∧ r.Receptive m := by
  rw [← path_state] at h
  obtain ⟨k, -, hphase, hbusy⟩ := PathRun.exists_dispatched h hready
  rw [path_state] at hphase hbusy
  rcases hphase with hbuf | ⟨-, hdisp⟩
  · refine ⟨n + k + 1, by omega, Or.inr ⟨?_, ?_, hbusy⟩⟩
    · by_contra hne
      exact (hbuf.opened hne).2 rfl
    · by_contra hp
      exact hbuf.closed (Bool.not_eq_false _ ▸ hp) rfl
  · rw [hdisp.busy] at hbusy
    cases hbusy

theorem exists_receptive_of_idle {n : ℕ} (h : r.recvState n = .idle) :
    ∃ m, n ≤ m ∧ r.Receptive m := by
  rcases mode (r := r) n with hrest | hdisp
  · cases hp : (r.state n).core.recv.processIseqR with
    | false => exact ⟨n, Nat.le_refl n, Or.inr ⟨h, hp, hrest.resting.1⟩⟩
    | true =>
      have hdisp : (r.state (n + 1)).core.Dispatching := by
        have hcore : (r.state (n + 1)).core =
            Core.next r.depth (r.state n).core (r.coreIn n) := rfl
        rw [hcore]
        exact Core.dispatching_of_pulse hrest.resting h hp
      obtain ⟨m, hm, hrec⟩ := exists_receptive_of_dispatching hready hdisp
      exact ⟨m, by omega, hrec⟩
  · exact exists_receptive_of_dispatching hready hdisp

/-- **The receiver comes back to the application**, from any state. -/
theorem exists_receptive (n : ℕ) : ∃ m, n ≤ m ∧ r.Receptive m := by
  cases hs : r.recvState n with
  | app => exact ⟨n, Nat.le_refl n, Or.inl hs⟩
  | idle => exact exists_receptive_of_idle hready hs
  | maint =>
    obtain ⟨j, -, -, hidle⟩ := exists_left hs
    obtain ⟨m, hm, hrec⟩ := exists_receptive_of_idle hready hidle
    exact ⟨m, by omega, hrec⟩

/-- **An offer that is kept up is taken.** -/
theorem exists_accepted {n : ℕ}
    (hoffer : ∀ m, n ≤ m → (∀ k, n ≤ k → k < m → ∀ w, (Source.app, w) ∉ r.path.accepted k) →
      (r.wave m).appEn = true) :
    ∃ m, n ≤ m ∧ ∃ w, (Source.app, w) ∈ r.path.accepted m := by
  by_contra hno
  have hnone : ∀ k, n ≤ k → ∀ w, (Source.app, w) ∉ r.path.accepted k :=
    fun k hk w hw => hno ⟨k, hk, w, hw⟩
  obtain ⟨m, hm, hrec⟩ := exists_receptive hready n
  have hacc := hrec.accepted (hoffer m hm fun k hk _ => hnone k hk)
  exact hnone m hm _ (hacc ▸ List.mem_singleton_self _)

end Ready

end ControllerRun

end SoftMC
