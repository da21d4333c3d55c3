import SoftMC.Dram.Configured
import SoftMC.Top.Memory
/-!
# A store of rows

From channel to channel the design is a store of rows. Whatever a host
asks for with the programs of `RetentionTest.cpp`, and whatever
maintenance is requested in between, the transactions bring it what its
reads give on the cells alone, in order and in full, its writes are in the
cells, and the part behind the controller has its distances kept.
-/

namespace SoftMC

open Banked Clocked Dispatcher RetentionTest TwoSlot Units

namespace TopRun

/-- **A host that asks**: what it sends is requests that suit the part, one
behind the other; it lets no more than 511 of its reads be outstanding, and
reads in no gap. The instruction FIFOs hold a row program, and no refresh
is requested at reset. -/
structure Asks (r : TopRun) (p : Ddr3) : Prop where
  deep : ∀ d ∈ r.depth, 132 ≤ d
  reset : r.maintCtrl.autorefCtrl.autorefRequestR = false
  sends : ∀ n, ∃ qs : List Request, (∀ q ∈ qs, q.Valid ∧ q.Suits p) ∧
    r.sent n <+: (qs.map Request.words).flatten
  outstanding : ∀ n, (r.sent n).countP isRead ≤ ended r.chnlTx n + 511
  sparesGaps : r.SparesGaps

/-- **A store of rows** with a memory of the part `p` behind it. -/
structure StoresRows (r : TopRun) (p : Ddr3) (m : Device) : Prop where
  /-- No command is issued to a bank that is not ready for it. -/
  accepts : ∀ n, exec m (r.controller.deviceIssued n) ≠ none
  /-- None is issued too early. -/
  respects : ∀ n, Respects p.instrGap (r.controller.path.issued n)
  /-- What is sent is served in the end, … -/
  serves : ∀ n (qs : List Request), (∀ q ∈ qs, q.Valid) →
    (qs.map Request.words).flatten <+: r.sent n →
      ∃ k, n ≤ k ∧ (r.state k).core.exec.iseq.dispatcherBusyR = false ∧
        qs.length ≤ r.servedCount k
  /-- … and what is served is in the cells while the dispatcher is not
  busy. -/
  writes : ∀ n (qs : List Request), (∀ q ∈ qs, q.Valid) →
    r.sent n <+: (qs.map Request.words).flatten →
      (r.state n).core.exec.iseq.dispatcherBusyR = false →
        ∃ m₁ out, exec m (r.controller.deviceIssued n) = some (m₁, out) ∧
          m₁.cell = (Request.applyAll m.cell (qs.take (r.servedCount n))).1
  /-- Each transaction brings the burst of its number. -/
  reads : ∀ n (qs : List Request), (∀ q ∈ qs, q.Valid) →
    r.sent n <+: (qs.map Request.words).flatten →
      ∀ a b, b ≤ n → Period r.chnlTx a b →
        ∃ x, (Request.applyAll m.cell qs).2[ended r.chnlTx a]? = some x ∧
          during r.transferred a b = x.beats
  /-- Where the channel goes on reading, it brings all of them. -/
  complete : (∀ n, ∃ k, n ≤ k ∧ r.chnlTxDataRen k = true) →
    ∀ n (qs : List Request), (∀ q ∈ qs, q.Valid) →
      (qs.map Request.words).flatten <+: r.sent n →
        ∀ i < (Request.applyAll m.cell qs).2.length,
          ∃ a b, Period r.chnlTx a b ∧ ended r.chnlTx a = i

variable {r : TopRun} {p : Ddr3}

namespace Asks

variable (h : r.Asks p)

include h

theorem accepted (n : ℕ) : ∃ qs : List Request, (∀ q ∈ qs, q.Valid ∧ q.Suits p) ∧
    r.controller.path.appAccepted n <+: (qs.map Request.words).flatten := by
  obtain ⟨qs, hqs, hsent⟩ := h.sends n
  exact ⟨qs, hqs, (appAccepted_prefix_sent n).trans hsent⟩

theorem asked : r.controller.Asked where
  deep := h.deep
  asked n := by
    obtain ⟨qs, hqs, haccepted⟩ := h.accepted n
    exact ⟨qs, fun q hq => (hqs q hq).1, haccepted⟩

/-- **The host keeps up**: it has asked for all that is read. -/
theorem keepsUp : r.KeepsUp := by
  refine keepsUp_of_outstanding fun n => ?_
  exact Nat.le_trans (length_userReads_le h.asked n) (h.outstanding n)

/-- The refresh times are those it has set. -/
theorem serves (hp : p.Suits) : r.controller.Serves p where
  toAsked := h.asked
  ready := h.keepsUp.dfiReady
  evenRefresh _ hend :=
    (SystemRun.trfc_of_autorefHanded h.reset h.deep h.keepsUp.dfiReady h.accepted hp hend).1
  refreshTime _ hend :=
    (SystemRun.trfc_of_autorefHanded h.reset h.deep h.keepsUp.dfiReady h.accepted hp hend).2

/-- **A host that asks has a regular run.** -/
theorem regular (hp : p.Suits) : r.Regular where
  fits := h.asked.fits
  roomy := h.asked.roomy
  clockEnabled := h.asked.clockEnabled
  waits := (h.serves hp).waits hp
  evenRefresh := (h.serves hp).evenRefresh
  selfContained := h.asked.selfContained
  readSpaced := readSpaced_of_respects h.asked.clockEnabled hp.burst ((h.serves hp).respects hp)
  keepsUp := h.keepsUp
  sparesGaps := h.sparesGaps

/-- **Whole requests that have been sent are served.** -/
theorem exists_served {n : ℕ} {qs : List Request} (hqs : ∀ q ∈ qs, q.Valid)
    (hsent : (qs.map Request.words).flatten <+: r.sent n) :
    ∃ k, n ≤ k ∧ (r.state k).core.exec.iseq.dispatcherBusyR = false ∧
      qs.map Request.words <+: r.controller.path.appServed k := by
  obtain ⟨j, hj, hacc⟩ := exists_sent_accepted h.keepsUp.dfiReady n
  obtain ⟨k, hk, hbusy, hserved⟩ := PathRun.exists_appServed
    (fun n => ⟨n, Nat.le_refl n, h.keepsUp.dfiReady n⟩)
    (ControllerRun.isUnit_of_requests hqs) (hsent.trans hacc)
  rw [ControllerRun.path_state, controller_state] at hbusy
  exact ⟨k, Nat.le_trans hj hk, hbusy, hserved⟩

/-- What has been served is in the cells while the dispatcher is not
busy. -/
theorem exec_idle (hp : p.Suits) {n : ℕ} {qs : List Request} (hqs : ∀ q ∈ qs, q.Valid)
    (hsent : r.sent n <+: (qs.map Request.words).flatten)
    (hbusy : (r.state n).core.exec.iseq.dispatcherBusyR = false) (m : Device) :
    ∃ m₁ out, exec m (r.controller.deviceIssued n) = some (m₁, out) ∧
      m₁.cell = (Request.applyAll m.cell (qs.take (r.servedCount n))).1 := by
  have hidle : (r.controller.state n).core.exec.iseq.dispatcherBusyR = false := by
    rw [controller_state]
    exact hbusy
  obtain ⟨m₁, m₂, out, hissued, -, happ, hcell⟩ :=
    (ControllerRun.exec_deviceIssued h.asked.fits h.keepsUp.dfiReady ((h.serves hp).waits hp)
      ((h.serves hp).hands_over hp) h.asked.selfContained n m).2 hidle
  obtain ⟨m₃, halone, hcells⟩ :=
    ControllerRun.exec_appStream hqs ((appAccepted_prefix_sent n).trans hsent) m
  rw [happ] at halone
  obtain ⟨rfl, -⟩ := Prod.mk.inj (Option.some.inj halone)
  exact ⟨m₁, _, hissued, hcell.trans hcells⟩

/-- A transaction brings the burst of its number. -/
theorem exists_burst (hp : p.Suits) {m : Device} (hm : r.Returns m) {n : ℕ} {qs : List Request}
    (hqs : ∀ q ∈ qs, q.Valid) (hsent : r.sent n <+: (qs.map Request.words).flatten) {a b : ℕ}
    (hb : b ≤ n) (hper : Period r.chnlTx a b) :
    ∃ x, (Request.applyAll m.cell qs).2[ended r.chnlTx a]? = some x ∧
      during r.transferred a b = x.beats := by
  obtain ⟨m₁, out, hout, hbrings⟩ := (h.regular hp).inOrder hm n
  obtain ⟨x, hx, hbeats⟩ := hbrings a b hb hper
  obtain ⟨m₂, halone, -⟩ :=
    ControllerRun.exec_appStream hqs ((appAccepted_prefix_sent n).trans hsent) m
  rw [hout] at halone
  obtain ⟨-, rfl⟩ := Prod.mk.inj (Option.some.inj halone)
  rw [List.getElem?_map] at hx
  obtain ⟨y, hy, rfl⟩ := Option.map_eq_some_iff.1 hx
  refine ⟨y, ?_, hbeats⟩
  obtain ⟨t, ht⟩ := Request.applyAll_take m.cell qs (r.controller.path.appServed n).length
  rw [← ht, List.getElem?_append_left (List.getElem?_eq_some_iff.1 hy).1, hy]

/-- All that whole requests give is brought. -/
theorem exists_transaction_of_sent (hp : p.Suits)
    (hren : ∀ n, ∃ k, n ≤ k ∧ r.chnlTxDataRen k = true) {m : Device} (hm : r.Returns m) {n : ℕ}
    {qs : List Request} (hqs : ∀ q ∈ qs, q.Valid)
    (hsent : (qs.map Request.words).flatten <+: r.sent n) {i : ℕ}
    (hi : i < (Request.applyAll m.cell qs).2.length) :
    ∃ a b, Period r.chnlTx a b ∧ ended r.chnlTx a = i := by
  obtain ⟨k, -, hbusy, rest, hserved⟩ := h.exists_served hqs hsent
  obtain ⟨m₁, out, hout, -⟩ := (h.regular hp).inOrder hm k
  refine (h.regular hp).complete hren hbusy hout ?_
  -- the requests are run first, and give what they give by themselves
  rw [ControllerRun.appStream_eq, ← hserved, List.flatMap_append, List.flatMap_map] at hout
  obtain ⟨m₂, o, o', hfirst, -, rfl⟩ := exec_append_eq_some hout
  obtain ⟨m₃, hall, -⟩ := Request.exec_all hqs Source.app m
  rw [hall] at hfirst
  obtain ⟨-, rfl⟩ := Prod.mk.inj (Option.some.inj hfirst)
  rw [List.length_append, List.length_map]
  omega

/-- Its bursts never meet on the bus. -/
theorem neverMeet (hp : p.Suits) (m : Device) : r.NeverMeet m := by
  have hregular := h.regular hp
  refine TopRun.neverMeet hp.burst ((h.serves hp).respects hp) fun n => ?_
  obtain ⟨m₁, out, m₂, rest, hout, -⟩ := ControllerRun.exec_appReads hregular.fits
    hregular.keepsUp.dfiReady hregular.waits hregular.hands_over hregular.selfContained n m
  rw [hout]
  exact Option.some_ne_none _

end Asks

/-- The design with a host that asks for `qs`. -/
abbrev requesting (r : TopRun) (qs : List Request) : TopRun :=
  r.hosting (qs.map Request.words).flatten

section Hosting

variable {qs : List Request}

/-- What is accepted of the host is of its list. -/
theorem accepted_hosting (hrx : r.rx.appEnR = false) (n : ℕ) :
    (r.requesting qs).sent n <+: (qs.map Request.words).flatten ∧
      (r.requesting qs).controller.path.appAccepted n <+:
        (qs.map Request.words).flatten := by
  have hwaiting : r.rx.waiting = [] := by rw [PcieRx.waiting, hrx, if_neg Bool.false_ne_true]
  have hsent : (r.requesting qs).sent n <+:
      (qs.map Request.words).flatten :=
    ⟨_, (sent_hosting n).trans (by rw [hwaiting, List.nil_append])⟩
  exact ⟨hsent, (appAccepted_prefix_sent n).trans hsent⟩

/-- **A host with requests to send asks**, if there are no more than 511
reads in them. -/
theorem asks_hosting (hqs : ∀ q ∈ qs, q.Valid ∧ q.Suits p) (hdeep : ∀ d ∈ r.depth, 132 ≤ d)
    (hreset : r.maintCtrl.autorefCtrl.autorefRequestR = false) (hrx : r.rx.appEnR = false)
    (hreads : (qs.map Request.words).flatten.countP isRead ≤ 511) :
    (r.requesting qs).Asks p where
  deep := hdeep
  reset := hreset
  sends n := ⟨qs, hqs, (accepted_hosting hrx n).1⟩
  outstanding n := by
    have hle : ((r.requesting qs).sent n).countP isRead ≤
        (qs.map Request.words).flatten.countP isRead :=
      (accepted_hosting hrx n).1.sublist.countP_le
    omega
  sparesGaps := sparesGaps_hosting

/-- **And has a memory**, whatever is in it: there are data for the bus that
are its answers. -/
theorem exists_answers (hqs : ∀ q ∈ qs, q.Valid ∧ q.Suits p) (hp : p.Suits)
    (hdeep : ∀ d ∈ r.depth, 132 ≤ d)
    (hreset : r.maintCtrl.autorefCtrl.autorefRequestR = false) (hrx : r.rx.appEnR = false)
    (hreads : (qs.map Request.words).flatten.countP isRead ≤ 511) (m : Device) :
    ∃ bus, ((r.onBus bus).requesting qs).Asks p ∧ ((r.onBus bus).requesting qs).Returns m := by
  have h : (r.requesting qs).Asks p := asks_hosting hqs hdeep hreset hrx hreads
  obtain ⟨bus, hbus⟩ := exists_returns hp.burst ((h.serves hp).respects hp) m
  refine ⟨bus, asks_hosting hqs hdeep hreset hrx hreads, ?_⟩
  rw [requesting, hosting_onBus]
  exact hbus

/-- In the end the whole list has been sent. -/
theorem exists_all_sent (h : (r.requesting qs).Asks p) (hgo : r.Offers)
    (hrx : r.rx.appEnR = false) :
    ∃ n, (qs.map Request.words).flatten <+: (r.requesting qs).sent n := by
  obtain ⟨n, hnil⟩ := exists_words_nil h.keepsUp.dfiReady hgo
  have hsent : (r.requesting qs).sent n ++ _ = _ := sent_hosting n
  rw [hnil, List.append_nil, PcieRx.waiting, hrx, if_neg Bool.false_ne_true,
    List.nil_append] at hsent
  exact ⟨n, by rw [hsent]⟩

end Hosting

/-- The surroundings of a run: the PHY is ready from cycle `1` on, and the
host offers its words in stretches. A row program fits in each, the
configuration before it in the first; maintenance is served in between. -/
def surroundings : TopRun where
  depth := some 4096
  latency := 4
  latency_pos := by decide
  rx := PcieRx.powerUp
  maintCtrl := {
    maintCtrl := { maintPrescalerR := 0, maintPrescalerTickRLcl := false }
    prrdCtrl := { periodicRdTimerR := 0, periodicRdRequestR := false }
    zqCalibCtrl := { zqTimerR := 0, zqRequestR := false }
    autorefCtrl := { autorefTimerR := 0, autorefRequestR := false, refEnR := false } }
  tx := PcieTx.reset false
  txIdle := rfl
  txZero := rfl
  chnlRx n := {
    chnlRx := false
    chnlRxData := 0
    chnlRxDataValid := decide (n % 1200 < if n < 1200 then 272 else 264) }
  chnlTxDataRen _ := false
  dfiInitComplete n := decide (0 < n)
  ddrX _ := 0
  bus _ := 0

theorem offers_surroundings : surroundings.Offers :=
  fun n => ⟨1200 * n, by omega, decide_eq_true (by split <;> omega)⟩

/-- Refreshes are configured, a row is written and read, and another one is
read. -/
def rowAndBack : List Request :=
  [.setRefreshConfig 8 104, .writeRow 77 5 0xa5, .readRow 77 5, .readRow 78 5]

/-- A part the row programs suit. -/
def suitedPart : Ddr3 := { ControllerRun.ReadThenRefresh.grade800 with tWR := 5 }

theorem suits_suitedPart : suitedPart.Suits where
  maint := by constructor <;> decide
  requests := by constructor <;> decide
  burst := by decide
  refresh := by decide

/-- A memory with its address in every burst. -/
def addressed : Device where
  bank _ := .unknown
  cell bank row col := (bank ++ row ++ col).setWidth 512

theorem valid_rowAndBack : ∀ q ∈ rowAndBack, q.Valid ∧ q.Suits suitedPart := by
  intro q hq
  simp only [rowAndBack, List.mem_cons, List.not_mem_nil, or_false] at hq
  rcases hq with rfl | rfl | rfl | rfl
  · exact ⟨by constructor <;> decide, by constructor <;> decide⟩
  · exact ⟨by constructor <;> decide, trivial⟩
  · exact ⟨by constructor <;> decide, trivial⟩
  · exact ⟨by constructor <;> decide, trivial⟩

theorem exists_addressed :
    ∃ bus, ((surroundings.onBus bus).requesting rowAndBack).Asks suitedPart ∧
      ((surroundings.onBus bus).requesting rowAndBack).Returns addressed :=
  exists_answers valid_rowAndBack suits_suitedPart (by rintro d ⟨⟩; decide) rfl rfl
    (by decide +kernel) addressed

end TopRun

end SoftMC
