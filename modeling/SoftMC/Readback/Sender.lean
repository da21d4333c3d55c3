import SoftMC.Model.PcieApp
import SoftMC.Model.PipeReg
import SoftMC.Common.Clocked
/-!
# Read-back data on the channel

The sender gives each word of the read-back FIFO to the channel in four
beats. Between the two words of a transaction it is idle for a cycle or
more with `CHNL_TX` high, and `CHNL_TX_DATA_VALID`, which the block does
not assign there, still has the value of the last word. A channel that
reads in such a cycle gets a beat the sender does not count.
-/

namespace SoftMC

open Clocked

/-! ## The FIFO and the sender -/

/-- The read-back FIFO and the sending side of `softMC_pcie_app`. -/
structure Sender where
  fifo : List RdWord
  tx : PcieTx
  deriving DecidableEq, Repr

namespace Sender

/-- The inputs of one cycle: a word written to the FIFO, if any, and
`CHNL_TX_DATA_REN`. -/
structure In where
  wr : Option RdWord
  chnlTxDataRen : Bool
  deriving DecidableEq, Repr

variable (s : Sender) (i : In)

def txIn : PcieTx.In where
  rdbackFifoEmpty := s.fifo.isEmpty
  rdbackData := s.fifo.headD 0
  chnlTxDataRen := i.chnlTxDataRen

/-- The clock edge, with a FIFO of the given depth. -/
def next (depth : Option ℕ) (s : Sender) (i : In) : Sender where
  fifo := fifoNext depth s.tx.rdbackFifoRden i.wr s.fifo
  tx := PcieTx.next false s.tx (s.txIn i)

/-- The word written to the FIFO in the cycle, if it has room. -/
def written (depth : Option ℕ) : List RdWord := if fifoFull depth s.fifo then [] else i.wr.toList

/-- The word popped in the cycle. -/
def popped : List RdWord := if s.tx.rdbackFifoRden then s.fifo.head?.toList else []

/-- The beat transferred in the cycle: `CHNL_TX`, `CHNL_TX_DATA_VALID` and
`CHNL_TX_DATA_REN` are all high. -/
def beat : List ChnlWord :=
  if s.tx.chnlTx && s.tx.chnlTxDataValid && i.chnlTxDataRen then [s.tx.chnlTxData] else []

/-- The four beats of a word. -/
def slices (w : RdWord) : List ChnlWord := (List.range 4).map (PcieTx.slice w)

/-- The beats of the current word that are still to be sent. -/
def unsent : List ChnlWord :=
  if s.tx.recvState = .busy then
    (slices s.tx.sendDataR).drop (s.tx.senderState.extractLsb' 0 2).toNat
  else []

/-- The gap of a transaction: idle, with `CHNL_TX` high. -/
def Gap (s : Sender) : Prop := s.tx.recvState = .idle ∧ s.tx.senderState.getLsbD 2 = true

instance : Decidable s.Gap := inferInstanceAs (Decidable (_ ∧ _))

/-! ## One cycle -/

/-- Between words no beat of a word is open, and a word sent has left its
valid bit. -/
structure Sound (s : Sender) : Prop where
  whole : s.tx.recvState = .idle → s.tx.senderState.extractLsb' 0 2 = 0
  valid : s.tx.recvState = .idle → s.tx.senderState.getLsbD 2 = true → s.tx.lastDataValid = true

variable {s i} {D : Option ℕ}

/-- The counter of the sender, by its values. -/
theorem senderState_cases (k : BitVec 3) :
    (k.extractLsb' 0 2 = 3 ∧ (k + 1).extractLsb' 0 2 = 0) ∨
      (k.extractLsb' 0 2 ≠ 3 ∧
        ((k + 1).extractLsb' 0 2).toNat = (k.extractLsb' 0 2).toNat + 1) := by
  revert k
  decide

/-- An idle sender waits for a word and takes it. -/
theorem tx_next_idle (hs : s.tx.recvState = .idle) :
    (Sender.next D s i).tx =
      match s.fifo with
      | [] => s.tx
      | w :: _ => { s.tx with recvState := .busy, sendDataR := w } := by
  obtain ⟨fifo, state, data, k, v⟩ := s
  cases hs
  cases fifo <;> rfl

/-- A busy one sends a beat with every enable. -/
theorem tx_next_busy (hs : s.tx.recvState = .busy) :
    (Sender.next D s i).tx =
      if i.chnlTxDataRen then
        { s.tx with recvState := if s.tx.senderState.extractLsb' 0 2 = 3 then .idle else .busy
                    senderState := s.tx.senderState + 1
                    lastDataValid := true }
      else { s.tx with lastDataValid := true } := by
  obtain ⟨fifo, state, data, k, v⟩ := s
  obtain ⟨wr, ren⟩ := i
  cases hs
  cases ren
  · rfl
  · by_cases hk : k.extractLsb' 0 2 = 3 <;>
      simp [Sender.next, PcieTx.next, PcieTx.senderAck, PcieTx.senderStateNs, PcieTx.chnlTxDataValid,
        txIn, hk]

/-- With the counter at zero nothing is open. -/
theorem sound_of_zero (h : s.tx.senderState = 0) : s.Sound where
  whole _ := by rw [h]; rfl
  valid _ hk := by rw [h] at hk; cases hk

theorem Sound.next (h : s.Sound) : (Sender.next D s i).Sound := by
  cases hs : s.tx.recvState with
  | idle =>
    cases hf : s.fifo with
    | nil =>
      have hnext : (Sender.next D s i).tx = s.tx := by rw [tx_next_idle hs, hf]
      exact ⟨by rw [hnext]; exact h.whole, by rw [hnext]; exact h.valid⟩
    | cons w q => constructor <;> intro hi <;> rw [tx_next_idle hs, hf] at hi <;> cases hi
  | busy =>
    refine ⟨fun hi => ?_, fun _ _ => ?_⟩
    · rw [tx_next_busy hs] at hi ⊢
      split at hi
      · rename_i hren
        rw [if_pos hren]
        rcases senderState_cases s.tx.senderState with ⟨-, hz⟩ | ⟨hne, -⟩
        · exact hz
        · rw [if_neg hne] at hi; cases hi
      · exact absurd (hs.symm.trans hi) (by simp)
    · rw [tx_next_busy hs]
      split <;> rfl

theorem slices_drop (w : RdWord) {k : ℕ} (hk : k < 4) :
    (slices w).drop k = PcieTx.slice w k :: (slices w).drop (k + 1) := by
  rw [List.drop_eq_getElem_cons (by simpa [slices] using hk)]
  simp [slices]

/-- The beat the sender counts. -/
def counted (s : Sender) (i : In) : List ChnlWord :=
  if s.tx.recvState = .busy then (if i.chnlTxDataRen then [s.tx.chnlTxData] else []) else []

/-- **The sender conserves its words**, in the beats it counts. -/
theorem unsent_next (h : s.Sound) :
    s.unsent ++ s.popped.flatMap slices = s.counted i ++ (Sender.next D s i).unsent := by
  cases hs : s.tx.recvState with
  | idle =>
    have hz := h.whole hs
    rw [unsent, unsent, counted, popped, PcieTx.rdbackFifoRden, hs, tx_next_idle hs]
    cases s.fifo with
    | nil => simp [hs]
    | cons w q => simp [hz]
  | busy =>
    rw [unsent, unsent, counted, popped, PcieTx.rdbackFifoRden, hs, tx_next_busy hs]
    cases i.chnlTxDataRen with
    | false => simp [hs]
    | true =>
      simp only [if_true, PcieTx.chnlTxData]
      rcases senderState_cases s.tx.senderState with ⟨h3, hz⟩ | ⟨hne, hsucc⟩
      · rw [if_pos h3, h3]
        rfl
      · have hk : (s.tx.senderState.extractLsb' 0 2).toNat < 4 := BitVec.isLt _
        rw [if_neg hne, hsucc, slices_drop _ hk]
        simp

/-- **The gap**: beats and counted beats differ in a gap that is read, by
one beat. -/
theorem beat_eq (h : s.Sound) :
    s.beat i = s.counted i ++
      if s.Gap ∧ i.chnlTxDataRen = true then [s.tx.chnlTxData] else [] := by
  by_cases hgap : s.Gap
  · obtain ⟨hs, hk⟩ := hgap
    simp [beat, counted, PcieTx.chnlTx, PcieTx.chnlTxDataValid, Gap, hs, hk, h.valid hs hk]
  · rw [if_neg fun hg => hgap hg.1, List.append_nil]
    cases hs : s.tx.recvState with
    | busy => simp [beat, counted, PcieTx.chnlTx, PcieTx.chnlTxDataValid, hs]
    | idle =>
      have hk : s.tx.senderState.getLsbD 2 = false := by simpa [Gap, hs] using hgap
      have htx : s.tx.chnlTx = false := by rw [PcieTx.chnlTx, hs]; exact hk
      simp [beat, counted, hs, htx]

/-- The FIFO gives out its words in order. -/
theorem fifo_next (D : Option ℕ) :
    s.fifo ++ s.written i D = s.popped ++ (Sender.next D s i).fifo := by
  simp only [written, popped, Sender.next, fifoNext]
  cases s.tx.rdbackFifoRden with
  | false => simp
  | true => cases s.fifo <;> simp

end Sender

/-! ## Over a run -/

/-- **A run of the sender** from reset, with any words in its FIFO. -/
structure SendRun where
  depth : Option ℕ
  words : List RdWord
  lastDataValid : Bool
  wave : ℕ → Sender.In

namespace SendRun

variable (r : SendRun)

def start : Sender := { fifo := r.words, tx := PcieTx.reset r.lastDataValid }

/-- The registers at the start of cycle `n`. -/
def state (n : ℕ) : Sender := run (Sender.next r.depth) r.start r.wave n

/-- The words written to the FIFO, those popped and the beats transferred,
before cycle `n`. -/
def written (n : ℕ) : List RdWord := trace (fun k => (r.state k).written (r.wave k) r.depth) n
def popped (n : ℕ) : List RdWord := trace (fun k => (r.state k).popped) n
def beats (n : ℕ) : List ChnlWord := trace (fun k => (r.state k).beat (r.wave k)) n

/-- **Read-back data delivered exactly once**, at every moment: the words
are popped in order, and the beats transferred are the slices of those
popped, but for the ones of the last that are still to be sent. -/
structure DeliversOnce : Prop where
  order : ∀ n, r.words ++ r.written n = r.popped n ++ (r.state n).fifo
  beats : ∀ n, r.beats n ++ (r.state n).unsent = (r.popped n).flatMap Sender.slices

variable {r}

theorem sound (n : ℕ) : (r.state n).Sound := by
  induction n with
  | zero => exact Sender.sound_of_zero rfl
  | succ n ih => exact ih.next

theorem order (n : ℕ) : r.words ++ r.written n = r.popped n ++ (r.state n).fifo :=
  trace_conserved (q := fun k => (r.state k).fifo) (fun _ => Sender.fifo_next r.depth) n

/-- One cycle, with the beat of a gap that is read. -/
theorem beats_step (n : ℕ) :
    (r.state n).unsent ++ (r.state n).popped.flatMap Sender.slices =
      (r.state n).counted (r.wave n) ++ (r.state (n + 1)).unsent :=
  Sender.unsent_next (sound n)

/-- **Read-back data is delivered exactly once if and only if the channel
reads in no gap.** -/
theorem deliversOnce_iff (r : SendRun) :
    r.DeliversOnce ↔ ∀ n, (r.state n).Gap → (r.wave n).chnlTxDataRen = false := by
  constructor
  · intro h n hgap
    rw [← Bool.not_eq_true]
    intro hren
    -- the beat of the gap is one too many
    have hbeats : r.beats (n + 1) = r.beats n ++ (r.state n).beat (r.wave n) := rfl
    have hpopped : r.popped (n + 1) = r.popped n ++ (r.state n).popped := rfl
    have hstep := congrArg List.length (beats_step (r := r) n)
    have hnow := congrArg List.length (h.beats n)
    have hnext := congrArg List.length (h.beats (n + 1))
    rw [hbeats, hpopped, Sender.beat_eq (sound n), if_pos ⟨hgap, hren⟩, List.flatMap_append] at hnext
    simp only [List.length_append, List.length_singleton] at hstep hnow hnext
    omega
  · intro h
    refine ⟨order, fun n => ?_⟩
    induction n with
    | zero => rfl
    | succ n ih =>
      have hbeat : (r.state n).beat (r.wave n) = (r.state n).counted (r.wave n) := by
        rw [Sender.beat_eq (sound n), if_neg, List.append_nil]
        rintro ⟨hgap, hren⟩
        rw [h n hgap] at hren
        cases hren
      calc r.beats (n + 1) ++ (r.state (n + 1)).unsent
          = r.beats n ++ ((r.state n).counted (r.wave n) ++ (r.state (n + 1)).unsent) := by
            rw [beats, trace_succ, hbeat, List.append_assoc]
            rfl
        _ = r.beats n ++ (r.state n).unsent ++ (r.state n).popped.flatMap Sender.slices := by
            rw [← beats_step, List.append_assoc]
        _ = (r.popped (n + 1)).flatMap Sender.slices := by
            rw [ih, ← List.flatMap_append]
            rfl

/-- Two words in the FIFO, and a channel that always reads. -/
def readAlways : SendRun where
  depth := some 1024
  words := [0x0000000000000004000000000000000300000000000000020000000000000001#256,
    0x0000000000000008000000000000000700000000000000060000000000000005#256]
  lastDataValid := false
  wave _ := { wr := none, chnlTxDataRen := true }

/-- **The first beat of the first word is sent twice**, in the gap between
the two. -/
theorem readAlways_repeats :
    readAlways.beats 10 = [1, 2, 3, 4, 1, 5, 6, 7, 8] ∧ ¬ readAlways.DeliversOnce := by
  refine ⟨by decide +kernel, fun h => ?_⟩
  exact absurd (h.beats 10) (by decide +kernel)

end SendRun

end SoftMC
