import SoftMC.Dispatch.Run
/-!
# No instruction is lost or executed twice

Whatever the FIFOs hold and however `dfi_ready` moves, the words of each
input are taken in order, one slot acts on a word exactly in the cycle it
is taken, and `dispatcher_busy` falls only when all have been. A word on
display that is not taken leaves no trace of itself in the cycle.
-/

namespace SoftMC

open Clocked

/-! ## A word that is not taken -/

namespace Dispatcher

variable {s : Dispatcher} {i i' : In}

/-- **The block reads its words through the slots only**: inputs that
agree on what they issue, on the valid bits, the lock and `dfi_ready`
compute the same. -/
theorem comb_congr (hlock : i'.periodicReadLock = i.periodicReadLock)
    (hen0 : i'.enIn0 = i.enIn0) (hen1 : i'.enIn1 = i.enIn1) (hr : i'.dfiReady = i.dfiReady)
    (h0 : s.issue0 i' = s.issue0 i) (h1 : s.issue1 i' = s.issue1 i) : s.comb i' = s.comb i := by
  have hdef : s.defaults i' = s.defaults i := by simp only [defaults, hen0, hen1]
  have hddr : ∀ w c, s.ddr0 i' w c = s.ddr0 i w c ∧ s.ddr1 i' w c = s.ddr1 i w c := by
    intro w c
    simp only [ddr0, ddr1, hlock, and_self]
  have harm : ∀ w c, s.arm0 i' w c = s.arm0 i w c ∧ s.arm1 i' w c = s.arm1 i w c := by
    intro w c
    simp only [arm0, arm1, hddr, and_self]
  have hslot : s.slot0 i' (s.defaults i') = s.slot0 i (s.defaults i) := by
    rw [slot0_eq, slot0_eq, h0, hdef, hr]
    cases s.issue0 i with
    | none => rfl
    | some w => exact (harm w _).1
  rw [comb_eq, comb_eq, h0, h1, hr, hslot]
  cases s.issue1 i with
  | none => rfl
  | some w => exact (harm w _).2

/-- What the cycle shows of its inputs: the block's signals, the commands,
the write data and the registers it leaves. -/
def SameCycle (s : Dispatcher) (i' i : In) : Prop :=
  s.comb i' = s.comb i ∧ s.dfiCmd0 i' = s.dfiCmd0 i ∧ s.dfiCmd1 i' = s.dfiCmd1 i ∧
    s.dfiWrdata i' = s.dfiWrdata i ∧ next false s i' = next false s i

theorem sameCycle_of_issue (hlock : i'.periodicReadLock = i.periodicReadLock)
    (hen0 : i'.enIn0 = i.enIn0) (hen1 : i'.enIn1 = i.enIn1) (hr : i'.dfiReady = i.dfiReady)
    (h0 : s.issue0 i' = s.issue0 i) (h1 : s.issue1 i' = s.issue1 i) : s.SameCycle i' i := by
  have hc := comb_congr hlock hen0 hen1 hr h0 h1
  have hcmd : s.dfiCmd0 i' = s.dfiCmd0 i := by rw [dfiCmd0_eq, dfiCmd0_eq, h0]
  refine ⟨hc, hcmd, by rw [dfiCmd1_eq, dfiCmd1_eq, h1], ?_, ?_⟩
  · rw [dfiWrdata, dfiWrdata, hcmd, hc]
  · rw [next, next, hc]

/-- A slot that does not act does not look at its word. -/
theorem issue0_eq_of_none (h : s.issue0 i = none) (hr : i'.dfiReady = i.dfiReady)
    (he : s.en0 i' = s.en0 i) : s.issue0 i' = s.issue0 i := by
  rw [h]
  rw [← Option.not_isSome_iff_eq_none, issue0_isSome] at h ⊢
  rw [hr, he]
  exact h

theorem issue1_eq_of_none (h : s.issue1 i = none) (hr : i'.dfiReady = i.dfiReady)
    (he : s.en1 i' = s.en1 i) (h0 : s.issue0 i' = s.issue0 i) : s.issue1 i' = s.issue1 i := by
  rw [h]
  rw [← Option.not_isSome_iff_eq_none, issue1_isSome] at h ⊢
  rw [h0, hr, he]
  exact h

/-- **A word that is not taken leaves no trace**, of input `0` … -/
theorem sameCycle_of_not_taken0 (h : (i.enIn0 && s.enAck0 i) = false) (w : Instr) :
    s.SameCycle { i with instrIn0 := w } i := by
  have hnone : s.taken0 i = none := by
    rw [← Option.not_isSome_iff_eq_none, isSome_taken0, h]; exact Bool.false_ne_true
  have hissue : s.issue0 { i with instrIn0 := w } = s.issue0 i ∧
      s.issue1 { i with instrIn0 := w } = s.issue1 i := by
    unfold taken0 at hnone
    cases hs : s.instrSrcR with
    | false =>
      simp only [hs, Bool.false_eq_true, if_false] at hnone
      have h0 : s.issue0 { i with instrIn0 := w } = s.issue0 i := issue0_eq_of_none hnone rfl rfl
      refine ⟨h0, ?_⟩
      rw [issue1_eq, issue1_eq, h0]
      simp only [en1, instr1, hs, Bool.false_eq_true, if_false]
    | true =>
      simp only [hs, if_true] at hnone
      have h0 : s.issue0 { i with instrIn0 := w } = s.issue0 i := by
        simp only [issue0, en0, instr0, hs, if_true]
      exact ⟨h0, issue1_eq_of_none hnone rfl rfl h0⟩
  exact sameCycle_of_issue rfl rfl rfl rfl hissue.1 hissue.2

/-- … and of input `1`. -/
theorem sameCycle_of_not_taken1 (h : (i.enIn1 && s.enAck1 i) = false) (w : Instr) :
    s.SameCycle { i with instrIn1 := w } i := by
  have hnone : s.taken1 i = none := by
    rw [← Option.not_isSome_iff_eq_none, isSome_taken1, h]; exact Bool.false_ne_true
  have hissue : s.issue0 { i with instrIn1 := w } = s.issue0 i ∧
      s.issue1 { i with instrIn1 := w } = s.issue1 i := by
    unfold taken1 at hnone
    cases hs : s.instrSrcR with
    | true =>
      simp only [hs, if_true] at hnone
      have h0 : s.issue0 { i with instrIn1 := w } = s.issue0 i := issue0_eq_of_none hnone rfl rfl
      refine ⟨h0, ?_⟩
      rw [issue1_eq, issue1_eq, h0]
      simp only [en1, instr1, hs, if_true]
    | false =>
      simp only [hs, Bool.false_eq_true, if_false] at hnone
      have h0 : s.issue0 { i with instrIn1 := w } = s.issue0 i := by
        simp only [issue0, en0, instr0, hs, Bool.false_eq_true, if_false]
      exact ⟨h0, issue1_eq_of_none hnone rfl rfl h0⟩
  exact sameCycle_of_issue rfl rfl rfl rfl hissue.1 hissue.2

end Dispatcher

/-! ## Over a dispatch -/

namespace Dispatch

variable (d : Dispatch)

/-- What `instr_dispatcher` sees in cycle `n`. -/
def dispIn (n : ℕ) : Dispatcher.In := (d.state n).dispIn (d.wave n)

/-- The word is taken from its input: `en_in` and `en_ack` are high. -/
def takes0 (n : ℕ) : Bool :=
  (d.dispIn n).enIn0 && (d.state n).iseq.disp.enAck0 (d.dispIn n)

def takes1 (n : ℕ) : Bool :=
  (d.dispIn n).enIn1 && (d.state n).iseq.disp.enAck1 (d.dispIn n)

/-- The words taken from each input before cycle `n`, in order. -/
def stream0 (n : ℕ) : List Instr :=
  trace (fun k => if d.takes0 k then [(d.dispIn k).instrIn0] else []) n

def stream1 (n : ℕ) : List Instr :=
  trace (fun k => if d.takes1 k then [(d.dispIn k).instrIn1] else []) n

/-- The word of each input a slot acts on in cycle `n`: slot `0` acts on
input `0` and slot `1` on input `1`, exchanged by `instr_src_r`. -/
def acts0 (n : ℕ) : Option Instr :=
  let s := (d.state n).iseq.disp
  if s.instrSrcR then s.issue1 (d.dispIn n) else s.issue0 (d.dispIn n)

def acts1 (n : ℕ) : Option Instr :=
  let s := (d.state n).iseq.disp
  if s.instrSrcR then s.issue0 (d.dispIn n) else s.issue1 (d.dispIn n)

/-- **Conservation** of the words of a dispatch. -/
structure Conserves : Prop where
  /-- The words taken are at every moment the first ones of their FIFO. -/
  prefix0 : ∀ n, d.stream0 n <+: d.start.fifo0
  prefix1 : ∀ n, d.stream1 n <+: d.start.fifo1
  /-- A slot acts on a word exactly when it is taken. -/
  acts0 : ∀ n, d.acts0 n = if d.takes0 n then some (d.dispIn n).instrIn0 else none
  acts1 : ∀ n, d.acts1 n = if d.takes1 n then some (d.dispIn n).instrIn1 else none
  /-- A word that is not taken has no effect in the cycle, whatever it is. -/
  untaken0 : ∀ n w, d.takes0 n = false →
    (d.state n).iseq.disp.SameCycle { d.dispIn n with instrIn0 := w } (d.dispIn n)
  untaken1 : ∀ n w, d.takes1 n = false →
    (d.state n).iseq.disp.SameCycle { d.dispIn n with instrIn1 := w } (d.dispIn n)
  /-- The dispatcher is not busy only when every word has been taken. -/
  falls : ∀ n, 1 ≤ n → (d.state n).iseq.dispatcherBusyR = false →
    d.stream0 n = d.start.fifo0 ∧ d.stream1 n = d.start.fifo1

variable {d}

theorem stream_eq (n : ℕ) : d.stream0 n = trace d.taken0 n ∧ d.stream1 n = trace d.taken1 n := by
  have h0 : d.taken0 = fun k => if d.takes0 k then [(d.dispIn k).instrIn0] else [] :=
    funext fun k => Exec.toList_taken0
  have h1 : d.taken1 = fun k => if d.takes1 k then [(d.dispIn k).instrIn1] else [] :=
    funext fun k => Exec.toList_taken1
  rw [h0, h1]
  exact ⟨rfl, rfl⟩

/-- **No instruction is lost or executed twice.** -/
theorem conserves (d : Dispatch) : d.Conserves where
  prefix0 n := by rw [(stream_eq n).1]; exact ⟨_, (d.fifo_eq n).1.symm⟩
  prefix1 n := by rw [(stream_eq n).2]; exact ⟨_, (d.fifo_eq n).2.symm⟩
  acts0 n := by
    change (d.state n).iseq.disp.taken0 (d.dispIn n) = _
    have hsome := Dispatcher.isSome_taken0 (s := (d.state n).iseq.disp) (i := d.dispIn n)
    rw [takes0, ← hsome]
    cases h : (d.state n).iseq.disp.taken0 (d.dispIn n) with
    | none => rfl
    | some w => rw [(Dispatcher.taken0_eq_some h).2]; rfl
  acts1 n := by
    change (d.state n).iseq.disp.taken1 (d.dispIn n) = _
    have hsome := Dispatcher.isSome_taken1 (s := (d.state n).iseq.disp) (i := d.dispIn n)
    rw [takes1, ← hsome]
    cases h : (d.state n).iseq.disp.taken1 (d.dispIn n) with
    | none => rfl
    | some w => rw [(Dispatcher.taken1_eq_some h).2]; rfl
  untaken0 _ w h := Dispatcher.sameCycle_of_not_taken0 h w
  untaken1 _ w h := Dispatcher.sameCycle_of_not_taken1 h w
  falls n hn hb := by
    have hnil : (d.state n).content0 = [] ∧ (d.state n).content1 = [] := by
      -- while the dispatch is loading it cannot end
      rcases Nat.lt_or_ge n 2 with h | h
      · obtain rfl : n = 1 := by omega
        rw [d.loading.1] at hb
        cases hb
      · obtain ⟨m, rfl⟩ := Nat.exists_eq_add_of_le' h
        exact (d.flowing m).drained hb
    obtain ⟨h0, h1⟩ := d.fifo_eq n
    rw [hnil.1, List.append_nil] at h0
    rw [hnil.2, List.append_nil] at h1
    rw [(stream_eq n).1, (stream_eq n).2]
    exact ⟨h0.symm, h1.symm⟩

end Dispatch

end SoftMC
