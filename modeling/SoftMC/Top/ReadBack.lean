import SoftMC.Dram.UserReads
import SoftMC.Readback.Delivery
import SoftMC.Readback.UserReads
import SoftMC.Top.Run
/-!
# What the host reads back

The design from channel to channel, with a memory behind it: the host's
transactions bring it, one burst each, what the sequences it has sent read
when they are run on the memory by themselves. Neither maintenance nor the
slots its reads were issued in show.
-/

namespace SoftMC

open Banked Clocked Dispatcher TwoSlot

/-! ## A burst on its way -/

namespace Burst

/-- The quarters of a burst are on the bus in one DRAM cycle each. -/
def quarter (d : Burst) (k : ℕ) : BitVec 128 := d.extractLsb' (128 * k) 128

/-- Its eight words on the channel. -/
def beats (d : Burst) : List ChnlWord := (List.range 8).map fun k => d.extractLsb' (64 * k) 64

/-- A slice of a word is a slice of the burst. -/
theorem slice_extractLsb' (d : Burst) (s : ℕ) {k : ℕ} (hk : k < 4) :
    PcieTx.slice (d.extractLsb' s 256) k = d.extractLsb' (s + 64 * k) 64 := by
  refine BitVec.eq_of_getLsbD_eq fun i hi => ?_
  simp only [PcieTx.slice, BitVec.getLsbD_extractLsb']
  rw [decide_eq_true (show 64 * k + i < 256 by omega), Bool.true_and, Nat.add_assoc]

/-- **Two words of the read path are the burst.** -/
theorem slices_words (d : Burst) :
    Sender.slices (d.quarter 1 ++ d.quarter 0) ++ Sender.slices (d.quarter 3 ++ d.quarter 2) =
      d.beats := by
  have hlow : (d.quarter 1 ++ d.quarter 0 : RdWord) = d.extractLsb' 0 256 :=
    BitVec.extractLsb'_append_extractLsb'_eq_extractLsb' rfl
  have hhigh : (d.quarter 3 ++ d.quarter 2 : RdWord) = d.extractLsb' 256 256 :=
    BitVec.extractLsb'_append_extractLsb'_eq_extractLsb' rfl
  have hword : ∀ s, Sender.slices (d.extractLsb' s 256) =
      (List.range 4).map fun k => d.extractLsb' (s + 64 * k) 64 := fun s =>
    List.map_congr_left fun k hk => slice_extractLsb' d s (List.mem_range.1 hk)
  rw [hlow, hhigh, hword, hword]
  rfl

end Burst

namespace TopRun

variable (r : TopRun)

/-- The bursts the bus carries, by the DRAM cycles of their reads. -/
def burst (h k : ℕ) : BitVec 128 := r.bus (h + 2 * r.latency - 1 + k)

/-- **The memory answers**: what a read gives out is on the bus when the
latency is over. -/
def Returns (m : Device) : Prop :=
  ∀ n m₁ out, exec m (r.controller.deviceBy n) = some (m₁, out) →
    ∀ x ∈ out, ∀ k < 4, r.burst x.1.1 k = x.2.quarter k

/-- `CHNL_TX`, and the word the channel transfers in cycle `n`. -/
def chnlTx (n : ℕ) : Bool := (r.state n).tx.chnlTx

def transferred (n : ℕ) : List ChnlWord :=
  if (r.state n).tx.chnlTx && (r.state n).tx.chnlTxDataValid && r.chnlTxDataRen n then
    [(r.state n).tx.chnlTxData]
  else []

/-- The channel does not read in the gap of a transaction. -/
def SparesGaps : Prop :=
  ∀ n, (r.state n).tx.recvState = .idle → (r.state n).tx.senderState.getLsbD 2 = true →
    r.chnlTxDataRen n = false

variable {r}

theorem chnlTx_eq : r.chnlTx = r.sender.chnlTx := by
  funext n
  rw [chnlTx, FrameRun.chnlTx, sender_state]

theorem transferred_eq (hgaps : r.SparesGaps) (n : ℕ) : r.transferred n = r.sender.presented n := by
  have hbeat := Sender.beat_eq (i := r.sender.wave n) (r.sender.sound n)
  have hnogap : ¬ ((r.sender.state n).Gap ∧ (r.sender.wave n).chnlTxDataRen = true) := by
    rintro ⟨hgap, hren⟩
    rw [sender_state] at hgap
    exact Bool.false_ne_true ((hgaps n hgap.1 hgap.2).symm.trans hren)
  rw [if_neg hnogap, List.append_nil, ← FrameRun.presented_eq, sender_state] at hbeat
  exact hbeat

/-- **The host keeps up** if no more than 511 bursts are outstanding, read
and not yet brought. -/
theorem keepsUp_of_outstanding
    (h : ∀ n, (r.readback.userReads n).length ≤ ended r.chnlTx n + 511) : r.KeepsUp := by
  intro n
  have hfifo : (r.sender.state n).fifo = (r.state n).rdbackFifo := by rw [sender_state]
  have harrived : (r.sender.arrived n).length ≤ (r.readback.written n).length := by
    change (trace _ n).length ≤ _
    refine length_trace_le fun k _ => ?_
    rw [readback_writes, Sender.written]
    split
    · exact Nat.zero_le _
    · exact Nat.le_refl _
  have hwritten := BurstRun.length_written_le_reads (r := r.readback) n
  have hended := FrameRun.two_mul_ended_le (r := r.sender) n
  have hread := h n
  rw [FrameRun.arrived_eq, List.length_append, hfifo] at harrived
  rw [chnlTx_eq] at hread
  rw [ReadPath.rdbackFifoAlmostFull, decide_eq_false_iff_not]
  change ¬ 1024 ≤ (r.state n).rdbackFifo.length + 1
  omega

/-- The words the sender has taken are the first of the reads for the
host. -/
theorem popped_prefix (hup : r.KeepsUp) (hs : r.readback.ReadSpaced) (n : ℕ) :
    r.sender.popped n <+: (r.readback.userReads n).flatMap (BurstRun.words r.burst) := by
  have hplaces : r.readback.Places r.burst := fun _ _ _ _ => rfl
  refine List.IsPrefix.trans ?_ (BurstRun.written_prefix hs hplaces n)
  rw [hup.written_popped]
  exact List.prefix_append _ _

/-- **A transaction brings the read of its number.** -/
theorem exists_read_of_transaction (hup : r.KeepsUp) (hs : r.readback.ReadSpaced)
    (hgaps : r.SparesGaps) {a b : ℕ} (h : Period r.chnlTx a b) :
    ∃ x, (r.readback.userReads b)[ended r.chnlTx a]? = some x ∧
      during r.transferred a b =
        Sender.slices (r.burst x 1 ++ r.burst x 0) ++ Sender.slices (r.burst x 3 ++ r.burst x 2) := by
  have hper : Period r.sender.chnlTx a b := chnlTx_eq ▸ h
  obtain ⟨w, w', hw, hw', hslices⟩ := FrameRun.exists_pair hper
  obtain ⟨t, ht⟩ := popped_prefix hup hs b
  have hword : ∀ i, i < 2 → ∀ v, (r.sender.popped b)[2 * ended r.sender.chnlTx a + i]? = some v →
      ((r.readback.userReads b)[ended r.sender.chnlTx a]?.bind fun x =>
        (BurstRun.words r.burst x)[i]?) = some v := by
    intro i hi v hv
    rw [← Blocks.getElem?_flatMap (c := 2) (fun _ => rfl) _ _ hi, ← ht,
      List.getElem?_append_left (List.getElem?_eq_some_iff.1 hv).1, hv]
  have h0 := hword 0 (by decide) w hw
  have h1 := hword 1 (by decide) w' hw'
  rw [chnlTx_eq]
  obtain ⟨x, hx, hx0⟩ := Option.bind_eq_some_iff.1 h0
  rw [hx, Option.bind_some] at h1
  obtain rfl : r.burst x 1 ++ r.burst x 0 = w := Option.some.inj hx0
  obtain rfl : r.burst x 3 ++ r.burst x 2 = w' := Option.some.inj h1
  refine ⟨x, hx, ?_⟩
  rw [← hslices]
  exact trace_congr fun k _ => transferred_eq hgaps (a + k)

/-! ## The reads of the application -/

/-- One slot's read for the host. -/
theorem filter_events (o : Option Instr) (h : ℕ) (src : Source) :
    (((o.toList.map (h, ·)).map fun e => ((e.1, src), e.2)).filter fun e =>
        e.1.2 = Source.app && isRead e.2).map (fun e => e.1.1) =
      if decide (src = .app) && o.any isRead then [h] else [] := by
  cases o with
  | none => simp
  | some w => cases hr : isRead w <;> cases src <;> simp [hr]

/-- What the slots act on in cycle `k`. -/
abbrev issue0 (r : TopRun) (k : ℕ) : Option Instr :=
  (r.state k).core.exec.iseq.disp.issue0 (r.dispIn k)
abbrev issue1 (r : TopRun) (k : ℕ) : Option Instr :=
  (r.state k).core.exec.iseq.disp.issue1 (r.dispIn k)

theorem issues_iff (k : ℕ) (w : Instr) :
    r.controller.Issues k w ↔ r.issue0 k = some w ∨ r.issue1 k = some w := by
  rw [ControllerRun.Issues, controller_dispIn, controller_state]

theorem events_eq (k : ℕ) :
    r.controller.path.events k =
      (r.issue0 k).toList.map (2 * k, ·) ++ (r.issue1 k).toList.map (2 * k + 1, ·) := by
  rw [PathRun.events, PathRun.execIn, ControllerRun.path_state, controller_state]
  change Exec.events k _ (Core.execIn _ (r.controller.coreIn k)) = _
  rw [controller_coreIn]
  rfl

/-- With the clock enabled every read that issues is recognised. -/
theorem recognisedAt_eq (hcke : r.controller.ClockEnabled) (k : ℕ) :
    r.readback.recognisedAt (2 * k) = (r.issue0 k).any isRead ∧
      r.readback.recognisedAt (2 * k + 1) = (r.issue1 k).any isRead := by
  obtain ⟨h0, h1⟩ := ControllerRun.cke hcke k
  rw [controller_state] at h0 h1
  rw [BurstRun.recognisedAt_even, BurstRun.recognisedAt_odd, readback_state, reads0, reads1]
  simp only [h0, h1, Bool.and_true]
  exact ⟨rfl, rfl⟩

/-- A read recognised is one issued. -/
theorem exists_issued_of_recognisedAt (hcke : r.controller.ClockEnabled) {h : ℕ}
    (hread : r.readback.recognisedAt h = true) :
    ∃ w, (h, w) ∈ r.controller.path.events (h / 2) ∧ isRead w = true := by
  obtain ⟨h0, h1⟩ := recognisedAt_eq hcke (h / 2)
  rw [events_eq]
  rcases Nat.mod_two_eq_zero_or_one h with heven | hodd
  · have hh : 2 * (h / 2) = h := by omega
    rw [hh, hread] at h0
    obtain ⟨w, hw, hr⟩ := (Option.any_eq_true _ _).1 h0.symm
    refine ⟨w, List.mem_append_left _ ?_, hr⟩
    rw [hh, hw]
    exact List.mem_singleton_self _
  · have hh : 2 * (h / 2) + 1 = h := by omega
    rw [hh, hread] at h1
    obtain ⟨w, hw, hr⟩ := (Option.any_eq_true _ _).1 h1.symm
    refine ⟨w, List.mem_append_right _ ?_, hr⟩
    rw [hh, hw]
    exact List.mem_singleton_self _

/-- **Reads are four DRAM cycles apart** where a part with such a tCCD has
its distances kept. -/
theorem readSpaced_of_respects (hcke : r.controller.ClockEnabled) {p : Ddr3} (hp : 4 ≤ p.tCCD)
    (h : ∀ n, Respects p.instrGap (r.controller.path.issued n)) : r.readback.ReadSpaced := by
  intro t t' hlt ht ht'
  obtain ⟨w, hw, hread⟩ := exists_issued_of_recognisedAt hcke ht
  obtain ⟨w', hw', hread'⟩ := exists_issued_of_recognisedAt hcke ht'
  have hmem : (t, w) ∈ r.controller.path.issued (t' / 2 + 1) :=
    mem_trace.2 ⟨t / 2, by omega, hw⟩
  have hmem' : (t', w') ∈ r.controller.path.issued (t' / 2 + 1) :=
    mem_trace.2 ⟨t' / 2, by omega, hw'⟩
  have hgap := (h (t' / 2 + 1)).le_of_lt hmem hmem' hlt
  rw [p.instrGap_reads hread hread'] at hgap
  omega

/-- **The reads for the host are the application's.** -/
theorem userReads_eq (hroom : r.controller.Roomy) (hcke : r.controller.ClockEnabled) (n : ℕ) :
    r.readback.userReads n = r.controller.appReads n := by
  have hread : ∀ k o, (∀ w, o = some w → r.controller.Issues k w) →
      (o.any isRead && !r.controller.lock k) =
        (decide (r.controller.path.turn k = .app) && o.any isRead) := by
    intro k o ho
    cases hany : o.any isRead with
    | false => rw [Bool.false_and, Bool.and_false]
    | true =>
      obtain ⟨w, rfl, hw⟩ := (Option.any_eq_true _ _).1 hany
      have hsrc := ControllerRun.turn_of_read hroom hcke (ho w rfl) hw
      rw [Bool.true_and, Bool.and_true, Bool.eq_iff_iff, decide_eq_true_iff, hsrc, Bool.not_eq_true']
  have hcycle : ∀ k, r.readback.userReadsOf k =
      ((r.controller.path.eventsBy k).filter fun e => e.1.2 = .app && isRead e.2).map
        fun e => e.1.1 := by
    intro k
    have hlock : (r.dispIn k).periodicReadLock = r.controller.lock k := by
      rw [ControllerRun.lock, controller_state]
      rfl
    obtain ⟨h0, h1⟩ := recognisedAt_eq hcke k
    have huser0 := BurstRun.userAt_even (r := r.readback) k
    have huser1 := BurstRun.userAt_odd (r := r.readback) k
    change _ = (_ && !(r.dispIn k).periodicReadLock) at huser0
    change _ = (_ && !(r.dispIn k).periodicReadLock) at huser1
    rw [h0, hlock, hread k _ fun w hw => (issues_iff k w).2 (Or.inl hw)] at huser0
    rw [h1, hlock, hread k _ fun w hw => (issues_iff k w).2 (Or.inr hw)] at huser1
    rw [BurstRun.userReadsOf, PathRun.eventsBy, events_eq, List.map_append, List.filter_append,
      List.map_append, filter_events, filter_events, ← huser0, ← huser1, List.filter_cons,
      List.filter_cons, List.filter_nil]
    cases r.readback.userAt (2 * k) <;> cases r.readback.userAt (2 * k + 1) <;> rfl
  rw [BurstRun.userReads, ControllerRun.appReads, PathRun.issuedBy]
  induction n with
  | zero => rfl
  | succ n ih => rw [trace_succ, trace_succ, List.filter_append, List.map_append, ih, hcycle]

/-! ## From the host to the memory and back -/

/-- **A regular run.** The instructions fit their FIFOs, enable the clock
and wait for something; each refresh has an even time, and the
application's sequences rely on no row being open; reads are four DRAM
cycles apart, and the host keeps up with them without reading in a gap. -/
structure Regular (r : TopRun) : Prop where
  fits : ∀ n, r.controller.path.Fits n
  roomy : r.controller.Roomy
  clockEnabled : r.controller.ClockEnabled
  waits : ∀ n, ∀ w ∈ r.controller.stored n, waitOf w ≠ some 0
  evenRefresh : ∀ n, r.controller.AutorefHanded (n + 1) → r.controller.trfc n % 2 = 0
  selfContained : r.controller.AppSelfContained
  readSpaced : r.readback.ReadSpaced
  keepsUp : r.KeepsUp
  sparesGaps : r.SparesGaps

theorem Regular.hands_over (h : r.Regular) (n : ℕ)
    (hpulse : (r.controller.state n).core.recv.processIseqR = true) :
    (r.controller.state n).core.HandsOver :=
  ControllerRun.handsOver_of_even h.fits h.keepsUp.dfiReady h.waits h.evenRefresh hpulse

/-- **In order**: at any moment the transactions that have ended have
brought what the application's sequences read on the memory, alone. -/
theorem Regular.inOrder (h : r.Regular) {m : Device} (hm : r.Returns m) (n : ℕ) :
    ∃ m₁ out, exec m (r.controller.appStream n) = some (m₁, out) ∧
      ∀ a b, b ≤ n → Period r.chnlTx a b → ∃ x, out[ended r.chnlTx a]? = some x ∧
        during r.transferred a b = x.2.beats := by
  obtain ⟨m₁, out, m₂, rest, hout, happ, hlabels, -⟩ :=
    ControllerRun.exec_appReads h.fits h.keepsUp.dfiReady h.waits h.hands_over h.selfContained n m
  refine ⟨m₂, _, happ, fun a b hb hper => ?_⟩
  obtain ⟨x, hx, hbeats⟩ := exists_read_of_transaction h.keepsUp h.readSpaced h.sparesGaps hper
  have hsplit : r.readback.userReads n =
      r.readback.userReads b ++ during r.readback.userReadsOf b n := trace_eq_append_during _ hb
  have hread : (r.readback.userReads n)[ended r.chnlTx a]? = some x := by
    rw [hsplit, List.getElem?_append_left (List.getElem?_eq_some_iff.1 hx).1, hx]
  rw [userReads_eq h.roomy h.clockEnabled, ← hlabels, List.getElem?_map] at hread
  obtain ⟨y, hy, rfl⟩ := Option.map_eq_some_iff.1 hread
  refine ⟨(y.1.2, y.2), ?_, ?_⟩
  · rw [List.getElem?_append_left (by
      rw [List.length_map]; exact (List.getElem?_eq_some_iff.1 hy).1), List.getElem?_map, hy]
    rfl
  · have hq := hm n m₁ out hout y (List.mem_filter.1 (List.mem_of_getElem? hy)).1
    rw [hbeats, hq 0 (by decide), hq 1 (by decide), hq 2 (by decide), hq 3 (by decide),
      Burst.slices_words]

/-- **And in full**: where the channel goes on reading, all of it is
brought. -/
theorem Regular.complete (h : r.Regular) (hren : ∀ n, ∃ k, n ≤ k ∧ r.chnlTxDataRen k = true)
    {m m₁ : Device} {n : ℕ} {out : List (Source × Burst)}
    (hbusy : (r.state n).core.exec.iseq.dispatcherBusyR = false)
    (hout : exec m (r.controller.appStream n) = some (m₁, out)) {i : ℕ} (hi : i < out.length) :
    ∃ a b, Period r.chnlTx a b ∧ ended r.chnlTx a = i := by
  obtain ⟨_, out', _, rest, -, happ, hlabels, hrest⟩ :=
    ControllerRun.exec_appReads h.fits h.keepsUp.dfiReady h.waits h.hands_over h.selfContained n m
  rw [controller_state] at hrest
  rw [hout, hrest hbusy, List.append_nil] at happ
  obtain ⟨-, rfl⟩ := Prod.mk.inj (Option.some.inj happ)
  have hlen := congrArg List.length hlabels
  rw [List.length_map, ← userReads_eq h.roomy h.clockEnabled] at hlen
  rw [List.length_map, hlen] at hi
  have hplaces : r.readback.Places r.burst := fun _ _ _ _ => rfl
  have hwritten := BurstRun.le_length_written h.readSpaced hplaces n
  have harrived : r.sender.arrived (n + r.readback.latency + 2) =
      r.readback.written (n + r.readback.latency + 2) := by
    rw [FrameRun.arrived_eq, h.keepsUp.written_popped, sender_state]
  rw [← harrived] at hwritten
  rw [chnlTx_eq]
  exact FrameRun.exists_transaction hren (N := n + r.readback.latency + 2) (by omega)

/-- **No gap lasts**: what is written is pairs of words, so the second of
them comes. -/
theorem exists_no_gap (hup : r.KeepsUp) (hs : r.readback.ReadSpaced) (n : ℕ) :
    ∃ k, n ≤ k ∧ ¬ (r.sender.state k).Gap := by
  by_contra hno
  have hgap : ∀ k, n ≤ k → (r.sender.state k).Gap := by
    intro k hk
    by_contra hne
    exact hno ⟨k, hk, hne⟩
  have hidle : ∀ k, n ≤ k → (r.sender.state k).tx.recvState = .idle := fun k hk => (hgap k hk).1
  have hwritten : ∀ k, n ≤ k → (r.readback.written k).length = (r.sender.popped n).length := by
    intro k hk
    have hnil : (r.state k).rdbackFifo = [] := by
      have hfifo := FrameRun.fifo_eq_nil (hidle k hk) (hidle (k + 1) (by omega))
      rwa [sender_state] at hfifo
    rw [hup.written_popped, hnil, List.append_nil, FrameRun.popped_of_idle hidle hk]
  have hplaces : r.readback.Places r.burst := fun _ _ _ _ => rfl
  have hlow := BurstRun.le_length_written hs hplaces n
  have hhigh := BurstRun.length_written_le_reads (r := r.readback) n
  have hodd := FrameRun.odd_of_gap (hgap n (Nat.le_refl n))
  rw [hwritten _ (by omega)] at hlow
  rw [hwritten n (Nat.le_refl n)] at hhigh
  omega

/-- **What the host reads back.** -/
structure ReadsBack (r : TopRun) (m : Device) : Prop where
  /-- The transactions that have ended have brought, in order and one burst
  each, what the application's sequences read on the memory, alone. -/
  inOrder : ∀ n, ∃ m₁ out, exec m (r.controller.appStream n) = some (m₁, out) ∧
    ∀ a b, b ≤ n → Period r.chnlTx a b → ∃ x, out[ended r.chnlTx a]? = some x ∧
      during r.transferred a b = x.2.beats
  /-- Where the channel goes on reading, what has been read is brought. -/
  complete : (∀ n, ∃ k, n ≤ k ∧ r.chnlTxDataRen k = true) →
    ∀ n, (r.state n).core.exec.iseq.dispatcherBusyR = false →
      ∀ m₁ out, exec m (r.controller.appStream n) = some (m₁, out) →
        ∀ i < out.length, ∃ a b, Period r.chnlTx a b ∧ ended r.chnlTx a = i

end TopRun

end SoftMC
