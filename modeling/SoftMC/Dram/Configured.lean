import SoftMC.Dram.Serving
import SoftMC.Maintenance.Configured
/-!
# Refreshes as the requests configure them

`setRefreshConfig` sets the time of a refresh before it enables it. As
long as each of these times is even and the part's or longer, so is the
time of every refresh: the first request to enable them is issued in
program order, nothing having been refreshed before it.
-/

namespace SoftMC

open Banked Clocked RetentionTest TwoSlot Units

/-! ## What a request configures -/

namespace RetentionTest.Request

/-- **A request that suits the part**: a refresh time it sets is even, and
no shorter than the part's. -/
def Suits (p : Ddr3) : Request → Prop
  | setRefreshConfig _ trfc => trfc.toNat % 2 = 0 ∧ p.tRFC ≤ trfc.toNat % 1024 + 1
  | writeRow _ _ _ | readRow _ _ | turnBus _ => True

variable {q : Request}

/-- What is decoded as a setting. -/
theorem decode_setTrfc_iff {w : Instr} {v : BitVec 28} :
    decode w = some (.setTrfc v) ↔ opcode w = .setTrfc ∧ configValue w = v := by
  unfold decode
  cases opcode w <;> simp

theorem decode_setTrefi_iff {w : Instr} {v : BitVec 28} :
    decode w = some (.setTrefi v) ↔ opcode w = .setTrefi ∧ configValue w = v := by
  unfold decode
  cases opcode w <;> simp

/-- The calls that set something. -/
theorem refConfig_of_intended {c : Call} {v : BitVec 28} :
    (c.intended = .setTrfc v → ∃ val, c = .refConfig val .trfc ∧ val.setWidth 28 = v) ∧
      (c.intended = .setTrefi v → ∃ val, c = .refConfig val .trefi) := by
  cases c with
  | refConfig val reg => cases reg <;> simp [Call.intended]
  | pre bank pc => cases pc <;> simp [Call.intended]
  | busdir dir => cases dir <;> simp [Call.intended]
  | act bank row => simp [Call.intended]
  | wr bank col pattern ap bl => simp [Call.intended]
  | rd bank col ap bl => simp [Call.intended]
  | wait cycles => simp [Call.intended]
  | endIseq => simp [Call.intended]
  | zq => simp [Call.intended]
  | ref => simp [Call.intended]

/-- They are those of `setRefreshConfig`. -/
theorem eq_of_refConfig_mem {val : UInt} {reg : Encoder.Register}
    (h : Call.refConfig val reg ∈ q.calls) :
    ∃ trefi trfc, q = setRefreshConfig trefi trfc ∧ (reg = .trfc → val = trfc) := by
  cases q with
  | setRefreshConfig trefi trfc =>
    refine ⟨trefi, trfc, rfl, fun hreg => ?_⟩
    subst hreg
    simpa [calls, setRefreshConfigCalls] using h
  | writeRow row bank pattern => simp [calls, writeRowCalls, rowCalls] at h
  | readRow row bank => simp [calls, readRowCalls, rowCalls] at h
  | turnBus b => simp [calls, turnBusCalls] at h

/-- **The time a request sets** suits. -/
theorem suits_of_setTrfc {p : Ddr3} (hv : q.Valid) (hs : q.Suits p) {w : Instr} (hw : w ∈ q.words)
    (hop : opcode w = .setTrfc) :
    (configValue w).toNat % 2 = 0 ∧ p.tRFC ≤ (configValue w).toNat % 1024 + 1 := by
  obtain ⟨c, hc, hdec, -⟩ := exists_call_of_mem (calls_valid hv) hw
  have hset : decode w = some (.setTrfc (configValue w)) := decode_setTrfc_iff.2 ⟨hop, rfl⟩
  rw [hdec] at hset
  obtain ⟨val, rfl, hvalue⟩ := refConfig_of_intended.1 (Option.some.inj hset)
  obtain ⟨trefi, trfc, rfl, hval⟩ := eq_of_refConfig_mem hc
  obtain rfl := hval rfl
  rw [← hvalue, BitVec.toNat_setWidth, Nat.mod_eq_of_lt hv.2]
  exact hs

/-- **The time is set before it is enabled.** -/
theorem guarded_words (hv : q.Valid) :
    Guarded (fun w => opcode w = .setTrfc) (fun w => opcode w = .setTrefi) q.words := by
  have hnone : (∀ trefi trfc, q ≠ setRefreshConfig trefi trfc) →
      Guarded (fun w => opcode w = .setTrfc) (fun w => opcode w = .setTrefi) q.words := by
    intro hne
    refine Guarded.of_none fun w hw hop => ?_
    obtain ⟨c, hc, hdec, -⟩ := exists_call_of_mem (calls_valid hv) hw
    have hset : decode w = some (.setTrefi (configValue w)) := decode_setTrefi_iff.2 ⟨hop, rfl⟩
    rw [hdec] at hset
    obtain ⟨val, rfl⟩ := refConfig_of_intended.2 (Option.some.inj hset)
    obtain ⟨trefi, trfc, hq, -⟩ := eq_of_refConfig_mem hc
    exact hne trefi trfc hq
  cases q with
  | setRefreshConfig trefi trfc =>
    obtain ⟨i, hi, hagrees⟩ := (Call.refConfig trfc .trfc).exists_agrees hv.2
    have hwords : (setRefreshConfig trefi trfc).words =
        i.word :: program [.refConfig trefi .trefi, .endIseq] := by
      rw [words, calls, setRefreshConfigCalls, program, List.filterMap_cons, hi]
      rfl
    have hop : opcode i.word = .setTrfc := (decode_setTrfc_iff.1 hagrees.decodes).1
    rw [hwords]
    exact ⟨fun h => (by cases hop.symm.trans h), Or.inl hop⟩
  | writeRow row bank pattern => exact hnone fun _ _ h => by cases h
  | readRow row bank => exact hnone fun _ _ h => by cases h
  | turnBus b => exact hnone fun _ _ h => by cases h

end RetentionTest.Request

namespace MaintProg

/-- Maintenance configures nothing. -/
theorem opcode_word_ne {p : MaintProg} {k : ℕ} {dir : BitVec 2} (i : MaintHandler.In)
    (hk : k < p.length dir) : opcode (p.word k i) ≠ .setTrfc ∧ opcode (p.word k i) ≠ .setTrefi := by
  refine by_program hk (fun k h => ?_) (fun k h => ?_) fun k h => ?_
  all_goals
    interval_cases k <;> simp only [word, opcode_maintDdr, opcode_maintWait] <;> decide

end MaintProg

namespace ControllerRun

/-! ## A run broken off -/

/-- Nothing at the inputs. -/
def quietIn : Controller.In where
  prRdReq := false
  zqReq := false
  autorefReq := false
  ddrX := 0
  appEn := false
  appInstr := 0
  dfiReady := true

/-- The run up to cycle `N`, with nothing at its inputs from then on. -/
def cut (r : ControllerRun) (N : ℕ) : ControllerRun where
  depth := r.depth
  wave n := if n ≤ N then r.wave n else quietIn

variable {r : ControllerRun} {N n : ℕ}

theorem cut_wave (h : n ≤ N) : (r.cut N).wave n = r.wave n := if_pos h

theorem cut_wave_of_lt (h : N < n) : (r.cut N).wave n = quietIn := if_neg (Nat.not_le.2 h)

theorem cut_state (h : n ≤ N + 1) : (r.cut N).state n = r.state n :=
  run_congr fun _ hk => cut_wave (by omega)

theorem cut_coreIn (h : n ≤ N) : (r.cut N).coreIn n = r.coreIn n := by
  rw [coreIn, coreIn, cut_state (by omega), cut_wave h]

theorem cut_issued : (r.cut N).path.issued (N + 1) = r.path.issued (N + 1) :=
  trace_congr fun k hk => by
    rw [path_events, path_events, cut_state (by omega), cut_coreIn (by omega)]

theorem path_accepted (n : ℕ) :
    r.path.accepted n = ((r.state n).core.accepted (r.coreIn n)).toList := by
  rw [PathRun.accepted, path_state]
  rfl

/-- Nothing is accepted of an application that offers nothing. -/
theorem ofApp_accepted_of_not_en (h : (r.wave n).appEn = false) :
    PathRun.ofApp (r.path.accepted n) = [] := by
  have hen : ((r.state n).core.recvIn (r.coreIn n)).appEn = false := h
  rw [path_accepted, Core.accepted, Receiver.accepted, hen, Bool.false_and, if_neg Bool.false_ne_true]
  split <;> rfl

theorem appAccepted_mono {m n : ℕ} (h : m ≤ n) : r.path.appAccepted m <+: r.path.appAccepted n := by
  obtain ⟨k, rfl⟩ := Nat.exists_eq_add_of_le h
  rw [PathRun.appAccepted, PathRun.appAccepted, trace_add]
  exact List.prefix_append _ _

theorem cut_appAccepted (n : ℕ) :
    (r.cut N).path.appAccepted n = r.path.appAccepted (min n (N + 1)) := by
  induction n with
  | zero => rw [Nat.zero_min]; rfl
  | succ n ih =>
    rw [PathRun.appAccepted, trace_succ, ← PathRun.appAccepted, ih]
    rcases Nat.lt_or_ge N n with hlt | hle
    · have hnone : ((r.cut N).wave n).appEn = false := by rw [cut_wave_of_lt hlt]; rfl
      rw [ofApp_accepted_of_not_en hnone, List.append_nil, Nat.min_eq_right (by omega),
        Nat.min_eq_right (by omega)]
    · rw [Nat.min_eq_left (by omega), Nat.min_eq_left (by omega), path_accepted,
        cut_state (by omega), cut_coreIn hle, ← path_accepted, PathRun.appAccepted,
        PathRun.appAccepted, trace_succ]

/-! ## What is set -/

/-- **What is issued** is of a request, or of maintenance. -/
theorem issued_cases {S : Request → Prop}
    (hasked : ∀ n, ∃ qs : List Request, (∀ q ∈ qs, S q) ∧
      r.path.appAccepted n <+: (qs.map Request.words).flatten) {e : ℕ × Instr}
    (he : e ∈ r.path.issued n) :
    (∃ q, S q ∧ e.2 ∈ q.words) ∨
      (∃ (p : MaintProg) (dir : BitVec 2) (k : ℕ) (i : MaintHandler.In),
        k < p.length dir ∧ e.2 = p.word k i) ∨
      e.2 = maintEnd := by
  obtain ⟨k, -, hk⟩ := mem_trace.1 he
  rw [path_events] at hk
  have hholds : (r.path.state k).Holds e.2 := by
    rw [path_state]
    exact Or.inl (Exec.mem_of_issue (issues_of_mem_events (k := e.1) hk))
  have hQ : ∀ j, ∀ x ∈ r.path.accepted j, (∃ q, S q ∧ x.2 ∈ q.words) ∨
      (∃ (p : MaintProg) (dir : BitVec 2) (k : ℕ) (i : MaintHandler.In),
        k < p.length dir ∧ x.2 = p.word k i) ∨ x.2 = maintEnd := by
    rintro j ⟨src, w⟩ hw
    cases src with
    | app =>
      obtain ⟨qs, hqs, hpre⟩ := hasked (j + 1)
      obtain ⟨l, hl, hmem⟩ := List.mem_flatten.1 (hpre.subset (PathRun.mem_appAccepted hw))
      obtain ⟨q, hq, rfl⟩ := List.mem_map.1 hl
      exact Or.inl ⟨q, hqs q hq, hmem⟩
    | maint =>
      have hhand := handed_of_accepted hw
      rcases handed_cases (r := r) j with hnil | ⟨q, i, hi, hword⟩ | ⟨-, hend⟩
      · rw [hnil] at hhand
        cases hhand
      · rw [hword, List.mem_singleton] at hhand
        exact Or.inr (Or.inl ⟨q, _, i, _, hi, hhand⟩)
      · rw [hend, List.mem_singleton] at hhand
        exact Or.inr (Or.inr hhand)
  obtain ⟨src, hall⟩ := PathRun.exists_of_holds hQ hholds
  exact hall

/-- What is issued to set the time of a refresh suits. -/
theorem suits_of_issued {p : Ddr3}
    (hasked : ∀ n, ∃ qs : List Request, (∀ q ∈ qs, q.Valid ∧ q.Suits p) ∧
      r.path.appAccepted n <+: (qs.map Request.words).flatten) {e : ℕ × Instr}
    (he : e ∈ r.path.issued n) (hop : opcode e.2 = .setTrfc) :
    (configValue e.2).toNat % 2 = 0 ∧ p.tRFC ≤ (configValue e.2).toNat % 1024 + 1 := by
  rcases issued_cases hasked he with ⟨q, hq, hw⟩ | ⟨q, dir, k, i, hk, hw⟩ | hw
  · exact Request.suits_of_setTrfc hq.1 hq.2 hw hop
  · rw [hw] at hop
    exact absurd hop (MaintProg.opcode_word_ne _ hk).1
  · rw [hw] at hop
    exact absurd hop (by decide)

section Asked

variable {p : Ddr3} (hdeep : ∀ d ∈ r.depth, 132 ≤ d) (hready : ∀ n, (r.wave n).dfiReady = true)
  (hasked : ∀ n, ∃ qs : List Request, (∀ q ∈ qs, q.Valid ∧ q.Suits p) ∧
    r.path.appAccepted n <+: (qs.map Request.words).flatten)

include hdeep hready hasked

/-- Broken off before a refresh is requested, it serves what it has
accepted. -/
theorem cut_serves (hquiet : ∀ n ≤ N, (r.wave n).autorefReq = false) : (r.cut N).Serves p := by
  have hnone : ∀ n, ((r.cut N).wave n).autorefReq = false := by
    intro n
    rcases Nat.lt_or_ge N n with hlt | hle
    · rw [cut_wave_of_lt hlt]; rfl
    · rw [cut_wave hle, hquiet n hle]
  refine ⟨⟨hdeep, fun n => ?_⟩, fun n => ?_, fun n h => ?_, fun n h => ?_⟩
  · obtain ⟨qs, hqs, hpre⟩ := hasked (N + 1)
    refine ⟨qs, fun q hq => (hqs q hq).1, List.IsPrefix.trans ?_ hpre⟩
    rw [cut_appAccepted]
    exact appAccepted_mono (Nat.min_le_right _ _)
  · rcases Nat.lt_or_ge N n with hlt | hle
    · rw [cut_wave_of_lt hlt]; rfl
    · rw [cut_wave hle, hready n]
  · exact absurd h (not_autorefHanded hnone (n + 1))
  · exact absurd h (not_autorefHanded hnone (n + 1))

/-- **The first to enable refreshes has set their time.** -/
theorem settings_setTrfc (hp : p.Suits) (hquiet : ∀ n ≤ N, (r.wave n).autorefReq = false)
    (h : r.settings .setTrefi (N + 1) ≠ []) : r.settings .setTrfc (N + 1) ≠ [] := by
  have hs := cut_serves hdeep hready hasked hquiet
  obtain ⟨R, hR, -, -⟩ := served_eq_issued hs.fits hs.ready (hs.waits hp) (hs.hands_over hp) (N + 1)
  rw [cut_issued] at hR
  have hguarded : Guarded (fun w => opcode w = .setTrfc) (fun w => opcode w = .setTrefi)
      ((r.path.issued (N + 1)).map Prod.snd) := by
    suffices hall : Guarded (fun w => opcode w = .setTrfc) (fun w => opcode w = .setTrefi)
        ((r.path.issued (N + 1)).map Prod.snd ++ R) from hall.left
    rw [← hR, List.flatMap_def]
    refine Guarded.flatten fun l hl => ?_
    obtain ⟨s, hserved, rfl⟩ := List.mem_map.1 hl
    rcases served_cases hserved with happ | ⟨-, dir, prog, m, hprog, -⟩
    · obtain ⟨q, hq, hwords⟩ := hs.exists_request_of_served hserved happ
      rw [hwords]
      exact Request.guarded_words hq
    · refine Guarded.of_none fun w hw => ?_
      rw [hprog] at hw
      obtain ⟨k, hk, rfl⟩ := List.mem_map.1 hw
      exact (MaintProg.opcode_word_ne _ (List.mem_range.1 hk)).2
  obtain ⟨v, hv⟩ := List.exists_mem_of_ne_nil _ h
  obtain ⟨e, he, hset⟩ := List.mem_filterMap.1 hv
  obtain ⟨w, hw, hop⟩ := hguarded.exists_of_mem (List.mem_map_of_mem he) (sets_eq_some hset).1
  obtain ⟨e', he', rfl⟩ := List.mem_map.1 hw
  exact List.ne_nil_of_mem (List.mem_filterMap.2 ⟨e', he', if_pos hop⟩)

end Asked

end ControllerRun

namespace SystemRun

variable {r : SystemRun} {p : Ddr3}

/-- **Every refresh takes an even time**, no shorter than the part's. -/
theorem trfc_of_autorefHanded (hreset : r.start.autorefCtrl.autorefRequestR = false)
    (hdeep : ∀ d ∈ r.depth, 132 ≤ d) (hready : ∀ n, (r.controller.wave n).dfiReady = true)
    (hasked : ∀ n, ∃ qs : List Request, (∀ q ∈ qs, q.Valid ∧ q.Suits p) ∧
      r.controller.path.appAccepted n <+: (qs.map Request.words).flatten)
    (hp : p.Suits) {n : ℕ} (h : r.controller.AutorefHanded (n + 1)) :
    r.controller.trfc n % 2 = 0 ∧ p.tRFC ≤ r.controller.trfc n % 1024 + 1 := by
  obtain ⟨e, he, hreq⟩ := ControllerRun.exists_requested (p := .autoref) h.2.2
  obtain ⟨m, rfl, hset⟩ := exists_trefi_of_autorefReq hreset hreq
  -- the cycle in which refreshes are enabled for the first time
  have hex : ∃ k, r.controller.settings .setTrefi (k + 1) ≠ [] := by
    cases m with
    | zero => exact absurd rfl hset
    | succ m => exact ⟨m, hset⟩
  have hfirst := Nat.find_spec hex
  have hbefore : ∀ k ≤ Nat.find hex, r.controller.settings .setTrefi k = [] := by
    intro k hk
    cases k with
    | zero => rfl
    | succ k => exact not_not.1 (Nat.find_min hex hk)
  have hquiet : ∀ k ≤ Nat.find hex, (r.controller.wave k).autorefReq = false := by
    intro k hk
    by_contra hreq
    obtain ⟨j, rfl, hj⟩ := exists_trefi_of_autorefReq hreset (Bool.eq_true_of_not_eq_false hreq)
    exact hj (hbefore j (by omega))
  have htime := ControllerRun.settings_setTrfc hdeep hready hasked hp hquiet hfirst
  have hlt : Nat.find hex < m := by
    by_contra hge
    exact hset (hbefore m (Nat.le_of_not_lt hge))
  obtain ⟨k, rfl⟩ : ∃ k, n = k + 1 := ⟨n - 1, by omega⟩
  obtain ⟨x, hx, hop, hvalue⟩ := ControllerRun.exists_trfc
    (ControllerRun.settings_ne_nil_of_le (n := k) (by omega) htime)
  rw [← hvalue]
  exact ControllerRun.suits_of_issued hasked hx hop

end SystemRun

end SoftMC
