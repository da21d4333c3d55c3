import SoftMC.Dispatch.Config
import SoftMC.Maintenance.RefreshTime
import SoftMC.Maintenance.Requests
/-!
# The configuration of auto-refresh

`autoref_config` holds what the program has set last, two cycles after it
was issued. So nothing is refreshed before the program has enabled it, and
a refresh waits for the time of the last SET_TRFC.
-/

namespace SoftMC

open Clocked Dispatcher

namespace ControllerRun

variable (r : ControllerRun)

/-- The values set by the instructions of the opcode `op` that were issued
before cycle `n`. -/
def settings (op : Opcode) (n : ℕ) : List (BitVec 28) :=
  (r.path.issued n).filterMap fun e => sets op e.2

/-- **`autoref_config` holds what was set last.** -/
structure Configured (n : ℕ) : Prop where
  interval : (r.state (n + 1)).aref.arefInterval = (r.settings .setTrefi n).getLast?.getD 0
  trfc : (r.state (n + 1)).aref.trfc = (r.settings .setTrfc n).getLast?.getD 0
  en : (r.state (n + 1)).aref.arefEn = decide ((r.state (n + 1)).aref.arefInterval ≠ 0)

variable {r}

theorem path_events (n : ℕ) :
    r.path.events n = (r.state n).core.exec.events n ((r.state n).core.execIn (r.coreIn n)) := by
  rw [PathRun.events, PathRun.execIn, path_state]
  rfl

theorem settings_succ (op : Opcode) (n : ℕ) :
    r.settings op (n + 1) =
      r.settings op n ++ (r.path.events n).filterMap fun e => sets op e.2 := by
  rw [settings, PathRun.issued_succ, List.filterMap_append, settings]

/-- What a cycle sets last. -/
theorem getLast?_events (op : Opcode) (n : ℕ) :
    ((r.path.events n).filterMap fun e => sets op e.2).getLast? =
      (((r.state n).core.exec.iseq.disp.issue1 (r.dispIn n)).bind (sets op) <|>
        ((r.state n).core.exec.iseq.disp.issue0 (r.dispIn n)).bind (sets op)) := by
  have hone : ∀ (k : ℕ) (o : Option Instr),
      (o.toList.map (k, ·)).filterMap (fun e => sets op e.2) = (o.bind (sets op)).toList := by
    intro k o
    cases o with
    | none => rfl
    | some w => cases h : sets op w <;> simp [h]
  rw [path_events, Exec.events, List.filterMap_append, hone, hone, List.getLast?_append]
  change ((Option.bind (Dispatcher.issue1 _ (r.dispIn n)) _).toList.getLast?.or
    (Option.bind (Dispatcher.issue0 _ (r.dispIn n)) _).toList.getLast?) = _
  cases (Dispatcher.issue1 _ (r.dispIn n)).bind (sets op) <;>
    cases (Dispatcher.issue0 _ (r.dispIn n)).bind (sets op) <;> rfl

/-- **In every cycle of every run.** -/
theorem configured_all (n : ℕ) : r.Configured n := by
  induction n with
  | zero => exact ⟨rfl, rfl, rfl⟩
  | succ n ih =>
    obtain ⟨hinterval, htrfc⟩ := config_next (s := (r.state n).core.exec.iseq.disp) (i := r.dispIn n)
    rw [← getLast?_events] at hinterval htrfc
    have haref : (r.state (n + 1 + 1)).aref = AutorefConfig.next false
        (Dispatcher.next false (r.state n).core.exec.iseq.disp (r.dispIn n)).arefSetInterval
        (Dispatcher.next false (r.state n).core.exec.iseq.disp (r.dispIn n)).arefInterval
        (Dispatcher.next false (r.state n).core.exec.iseq.disp (r.dispIn n)).arefSetTrfc
        (Dispatcher.next false (r.state n).core.exec.iseq.disp (r.dispIn n)).arefTrfc
        (r.state (n + 1)).aref := rfl
    refine ⟨?_, ?_, ?_⟩
    · rw [settings_succ, List.getLast?_append, ← hinterval, haref]
      simp only [AutorefConfig.next, Bool.false_eq_true, if_false]
      split
      · rfl
      · exact ih.interval
    · rw [settings_succ, List.getLast?_append, ← htrfc, haref]
      simp only [AutorefConfig.next, Bool.false_eq_true, if_false]
      split
      · rfl
      · exact ih.trfc
    · rw [haref]
      simp only [AutorefConfig.next, Bool.false_eq_true, if_false]
      split
      · rfl
      · exact ih.en

/-- What has been set is not taken back. -/
theorem settings_mono (op : Opcode) {m n : ℕ} (h : m ≤ n) :
    r.settings op m <+: r.settings op n := by
  induction n, h using Nat.le_induction with
  | base => exact List.prefix_rfl
  | succ n _ ih =>
    rw [settings_succ]
    exact ih.trans (List.prefix_append _ _)

theorem settings_ne_nil_of_le {op : Opcode} {m n : ℕ} (h : m ≤ n) (hm : r.settings op m ≠ []) :
    r.settings op n ≠ [] := by
  intro hnil
  have hpre := settings_mono (r := r) op h
  rw [hnil, List.prefix_nil] at hpre
  exact hm hpre

/-- Auto-refresh is enabled by the program. -/
theorem exists_trefi_of_en {n : ℕ} (h : (r.state n).aref.arefEn = true) :
    ∃ m, n = m + 1 ∧ r.settings .setTrefi m ≠ [] := by
  cases n with
  | zero => cases h
  | succ m =>
    refine ⟨m, rfl, fun hnil => ?_⟩
    have hconf := configured_all (r := r) m
    rw [hconf.en, hconf.interval, hnil] at h
    cases h

/-- The time of a refresh is one that was set, if any was. -/
theorem exists_trfc {n : ℕ} (h : r.settings .setTrfc n ≠ []) :
    ∃ e ∈ r.path.issued n, opcode e.2 = .setTrfc ∧ (configValue e.2).toNat = r.trfc (n + 1) := by
  have hlast := (configured_all (r := r) n).trfc
  rw [List.getLast?_eq_getLast_of_ne_nil h, Option.getD_some] at hlast
  obtain ⟨e, he, hset⟩ := List.mem_filterMap.1 (List.getLast_mem h)
  obtain ⟨hop, hval⟩ := sets_eq_some hset
  exact ⟨e, he, hop, by rw [hval, ← hlast]⟩

/-- The flag of a program rises with its request. -/
theorem exists_requested {p : MaintProg} {n : ℕ} (h : (r.state n).handler.processR p = true) :
    ∃ e < n, (r.state e).handler.Requested (r.handlerIn e) p := by
  obtain ⟨e, -, hlt, hlow, hup⟩ := exists_rise (f := fun k => (r.state k).handler.processR p)
    (Nat.zero_le n) (by cases p <;> rfl) h
  have hquiet := quiet_of_rise hlow hup
  rw [handler_succ rfl] at hup
  exact ⟨e, hlt, hquiet.requested hup⟩

/-- A run without requests has no refresh. -/
theorem not_autorefHanded (h : ∀ n, (r.wave n).autorefReq = false) (n : ℕ) : ¬ r.AutorefHanded n := by
  rintro ⟨-, -, hflag⟩
  obtain ⟨e, -, hreq⟩ := exists_requested (p := .autoref) hflag
  exact Bool.false_ne_true ((h e).symm.trans hreq)

end ControllerRun

namespace SystemRun

variable {r : SystemRun}

/-- A request of `autoref_ctrl` has been enabled in the cycle before. -/
theorem en_of_autorefReq (hreset : r.start.autorefCtrl.autorefRequestR = false) {n : ℕ}
    (h : (r.controller.wave n).autorefReq = true) :
    ∃ m, n = m + 1 ∧ (r.controller.state m).aref.arefEn = true := by
  cases n with
  | zero => exact absurd (hreset.symm.trans h) Bool.false_ne_true
  | succ m =>
    refine ⟨m, rfl, ?_⟩
    rw [controller_state]
    change (!false && _ && (r.state m).controller.aref.arefEn && _) = true at h
    rw [Bool.and_eq_true, Bool.and_eq_true] at h
    exact h.1.2

/-- **Nothing is refreshed before the program has enabled it.** -/
theorem exists_trefi_of_autorefReq (hreset : r.start.autorefCtrl.autorefRequestR = false) {n : ℕ}
    (h : (r.controller.wave n).autorefReq = true) :
    ∃ m, n = m + 2 ∧ r.controller.settings .setTrefi m ≠ [] := by
  obtain ⟨k, rfl, hen⟩ := en_of_autorefReq hreset h
  obtain ⟨m, rfl, hset⟩ := ControllerRun.exists_trefi_of_en hen
  exact ⟨m, rfl, hset⟩

end SystemRun

end SoftMC
