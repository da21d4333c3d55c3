import SoftMC.Common.Blocks
import SoftMC.Readback.Sender
/-!
# The transactions of the sender

`CHNL_TX` is high while the receiver is busy and, between the two words of
a transaction, by the top bit of the beat counter. So it falls with every
eighth beat and with no other, whatever the arrivals and the channel do.
-/

namespace SoftMC

open Clocked

/-! ## One cycle -/

namespace Sender

variable {s : Sender} {i : In} {D : Option ℕ}

theorem counted_length_le (s : Sender) (i : In) : (s.counted i).length ≤ 1 := by
  rw [counted]
  split
  · split <;> simp
  · simp

/-- The counter of beats, one cycle to the next. -/
theorem senderState_next (s : Sender) (i : In) :
    (Sender.next D s i).tx.senderState = s.tx.senderState + BitVec.ofNat 3 (s.counted i).length := by
  cases hs : s.tx.recvState with
  | idle =>
    rw [tx_next_idle hs, counted, hs]
    cases s.fifo <;> simp
  | busy =>
    rw [tx_next_busy hs, counted, if_pos hs]
    cases i.chnlTxDataRen <;> simp

/-- `CHNL_TX` is low between transactions only. -/
theorem chnlTx_eq_false (h : s.Sound) :
    s.tx.chnlTx = false ↔ s.tx.recvState = .idle ∧ s.tx.senderState = 0 := by
  have hzero : ∀ k : BitVec 3, k.extractLsb' 0 2 = 0 → k.getLsbD 2 = false → k = 0 := by decide
  rw [PcieTx.chnlTx]
  cases hs : s.tx.recvState with
  | busy => simp
  | idle =>
    refine ⟨fun hk => ⟨rfl, hzero _ (h.whole hs) hk⟩, fun hk => ?_⟩
    rw [hk.2]
    rfl

/-- A beat that brings the counter around ends the transaction. -/
theorem chnlTx_next_of_wrap (hc : s.counted i ≠ []) (hz : (Sender.next D s i).tx.senderState = 0) :
    (Sender.next D s i).tx.chnlTx = false := by
  have hlast : ∀ k : BitVec 3, k + 1 = 0 → k.extractLsb' 0 2 = 3 := by decide
  have hs : s.tx.recvState = .busy := by
    by_contra hs
    exact hc (if_neg hs)
  have hren : i.chnlTxDataRen = true := by
    by_contra hren
    rw [counted, if_pos hs, if_neg hren] at hc
    exact hc rfl
  rw [tx_next_busy hs, if_pos hren] at hz ⊢
  rw [PcieTx.chnlTx, if_pos (hlast _ hz)]
  exact congrArg (BitVec.getLsbD · 2) hz

/-- Before its first beat a transaction goes on. -/
theorem chnlTx_next_of_wait (htx : s.tx.chnlTx = true) (hz : s.tx.senderState = 0)
    (hc : s.counted i = []) : (Sender.next D s i).tx.chnlTx = true := by
  have hs : s.tx.recvState = .busy := by
    by_contra hs
    rw [PcieTx.chnlTx, if_neg hs, hz] at htx
    cases htx
  have hren : i.chnlTxDataRen ≠ true := by
    intro hren
    rw [counted, if_pos hs, if_pos hren] at hc
    cases hc
  rw [tx_next_busy hs, if_neg hren, PcieTx.chnlTx, if_pos hs]

/-- How many beats of the current word are to be sent. -/
theorem unsent_length (s : Sender) :
    s.unsent.length =
      if s.tx.recvState = .busy then 4 - (s.tx.senderState.extractLsb' 0 2).toNat else 0 := by
  rw [unsent]
  split <;> simp [slices]

theorem slices_length (w : RdWord) : (slices w).length = 4 := by simp [slices]

end Sender

/-! ## Over a run -/

/-- **A run of the sender** from any registers a reset leaves: `send_data_r`
and the FIFO are not reset. -/
structure FrameRun where
  depth : Option ℕ
  start : Sender
  idle : start.tx.recvState = .idle
  zero : start.tx.senderState = 0
  wave : ℕ → Sender.In

namespace FrameRun

variable (r : FrameRun)

/-- The registers at the start of cycle `n`. -/
def state (n : ℕ) : Sender := run (Sender.next r.depth) r.start r.wave n

def chnlTx (n : ℕ) : Bool := (r.state n).tx.chnlTx

/-- `sender_state` advances in cycle `n`. -/
def advances (n : ℕ) : Bool :=
  decide ((r.state (n + 1)).tx.senderState ≠ (r.state n).tx.senderState)

/-- The slice presented in cycle `n`, if `sender_state` advances. -/
def presented (n : ℕ) : List ChnlWord :=
  if r.advances n then [(r.state n).tx.chnlTxData] else []

/-- The words popped before cycle `n`. -/
def popped (n : ℕ) : List RdWord := trace (fun k => (r.state k).popped) n

/-- The number of the word in `send_data_r`, for a beat of cycle `n`. -/
def wordNo (n : ℕ) : List ℕ := if r.advances n then [(r.popped n).length - 1] else []

/-- **Transactions are framed by pairs of words.** The transaction after
`k` others has the beats of the words `2k` and `2k + 1`, as many as
`CHNL_TX_LEN` announces; a word stays until its four slices are taken; and
`CHNL_TX` is low between two transactions. -/
structure Framed : Prop where
  beats : ∀ a b, Period r.chnlTx a b → tally r.advances a (b - a) = 8
  length : ∀ a b, Period r.chnlTx a b →
    64 * tally r.advances a (b - a) = 32 * PcieTx.chnlTxLen.toNat
  pair : ∀ a b, Period r.chnlTx a b → ∃ w w',
    (r.popped b)[2 * ended r.chnlTx a]? = some w ∧
      (r.popped b)[2 * ended r.chnlTx a + 1]? = some w' ∧
      during r.presented a b = Sender.slices w ++ Sender.slices w'
  stays : ∀ n, (r.state (n + 1)).tx.sendDataR ≠ (r.state n).tx.sendDataR →
    trace r.presented n = (r.popped n).flatMap Sender.slices
  apart : ∀ a b a' b', Period r.chnlTx a b → Period r.chnlTx a' b' → a < a' →
    ∃ n, b ≤ n ∧ n < a' ∧ r.chnlTx n = false

variable {r}

theorem sound (n : ℕ) : (r.state n).Sound := by
  induction n with
  | zero => exact Sender.sound_of_zero r.zero
  | succ n ih => exact ih.next

/-- The beats presented are those the sender counts. -/
theorem presented_eq (n : ℕ) : r.presented n = (r.state n).counted (r.wave n) := by
  have hnext : (r.state (n + 1)).tx.senderState =
      (r.state n).tx.senderState + BitVec.ofNat 3 ((r.state n).counted (r.wave n)).length :=
    Sender.senderState_next _ _
  rw [presented, advances, hnext, Sender.counted]
  by_cases hs : (r.state n).tx.recvState = .busy
  · rw [if_pos hs]
    cases (r.wave n).chnlTxDataRen with
    | false => simp
    | true => simp
  · simp [hs]

theorem trace_presented (n : ℕ) :
    trace r.presented n = trace (fun k => (r.state k).counted (r.wave k)) n :=
  trace_congr fun k _ => presented_eq k

/-- **Every beat is a slice of a word popped**, and what is missing is
still to be sent. -/
theorem presented_append_unsent (n : ℕ) :
    trace r.presented n ++ (r.state n).unsent = (r.popped n).flatMap Sender.slices := by
  have hstart : (r.state 0).unsent = [] := by
    rw [Sender.unsent, state, run_zero, r.idle]
    rfl
  rw [trace_presented, popped, trace_flatMap,
    ← trace_conserved (q := fun k => (r.state k).unsent) (fun k => Sender.unsent_next (sound k)) n,
    hstart, List.nil_append]

/-- The beats presented before cycle `n`, counted. -/
def count (r : FrameRun) (n : ℕ) : ℕ := (trace r.presented n).length

theorem count_succ (n : ℕ) : r.count (n + 1) = r.count n + (r.presented n).length := by
  rw [count, trace_succ, List.length_append, count]

/-- `sender_state` counts them, modulo eight. -/
theorem senderState_eq (n : ℕ) : (r.state n).tx.senderState = BitVec.ofNat 3 (r.count n) := by
  induction n with
  | zero => exact r.zero
  | succ n ih =>
    rw [count_succ, presented_eq, BitVec.ofNat_add, ← ih]
    exact Sender.senderState_next _ _

theorem senderState_eq_zero (n : ℕ) : (r.state n).tx.senderState = 0 ↔ r.count n % 8 = 0 := by
  rw [senderState_eq, ← BitVec.toNat_inj, BitVec.toNat_ofNat]
  rfl

/-- Four beats for every word popped, but for those still to be sent. -/
theorem count_add_unsent (n : ℕ) :
    r.count n + (r.state n).unsent.length = 4 * (r.popped n).length := by
  have h := congrArg List.length (presented_append_unsent (r := r) n)
  rwa [List.length_append, Blocks.length_flatMap Sender.slices_length] at h

/-- `CHNL_TX` is low where a multiple of eight beats is sent and no word
is taken. -/
theorem chnlTx_eq_false (n : ℕ) :
    r.chnlTx n = false ↔ (r.state n).tx.recvState = .idle ∧ r.count n % 8 = 0 := by
  rw [chnlTx, Sender.chnlTx_eq_false (sound n), senderState_eq_zero]

/-- Between transactions nothing is sent. -/
theorem presented_of_low {n : ℕ} (h : r.chnlTx n = false) : r.presented n = [] := by
  rw [presented_eq, Sender.counted, ((chnlTx_eq_false n).1 h).1]
  rfl

/-- **The framing invariant**: the transactions that have ended have taken
eight beats each, and the one that is open fewer. -/
theorem count_framed (n : ℕ) :
    8 * ended r.chnlTx n ≤ r.count n ∧ r.count n < 8 * ended r.chnlTx n + 8 ∧
      (r.chnlTx n = false → r.count n = 8 * ended r.chnlTx n) := by
  induction n with
  | zero => exact ⟨Nat.le_refl 0, Nat.zero_lt_succ 7, fun _ => rfl⟩
  | succ n ih =>
    obtain ⟨hle, hlt, hlow⟩ := ih
    have hone : (r.presented n).length ≤ 1 := by
      rw [presented_eq]
      exact Sender.counted_length_le _ _
    -- a beat that brings the count around ends the transaction, and no wait does
    have hwrap : r.presented n ≠ [] → r.count (n + 1) % 8 = 0 → r.chnlTx (n + 1) = false := by
      intro hc hz
      rw [presented_eq] at hc
      exact Sender.chnlTx_next_of_wrap hc ((senderState_eq_zero (n + 1)).2 hz)
    have hwait : r.chnlTx n = true → r.count n % 8 = 0 → r.presented n = [] →
        r.chnlTx (n + 1) = true := by
      intro htx hz hc
      rw [presented_eq] at hc
      exact Sender.chnlTx_next_of_wait htx ((senderState_eq_zero n).2 hz) hc
    rw [count_succ] at hwrap ⊢
    rw [ended_succ]
    rcases Bool.eq_false_or_eq_true (r.chnlTx n) with htx | htx
    · rcases Bool.eq_false_or_eq_true (r.chnlTx (n + 1)) with htx' | htx'
      · -- a transaction goes on: it has not had its eighth beat
        have hnot : (r.count n + (r.presented n).length) ≠ 8 * ended r.chnlTx n + 8 := by
          intro heq
          have hc : r.presented n ≠ [] := by
            intro hnil
            rw [hnil, List.length_nil] at heq
            omega
          rw [hwrap hc (by omega)] at htx'
          cases htx'
        rw [htx, htx']
        simp only [Bool.not_true, Bool.and_false, Bool.toNat_false, Nat.add_zero]
        exact ⟨by omega, by omega, fun h => by cases h⟩
      · -- it ends: it has had its eighth beat
        have hz := ((chnlTx_eq_false (n + 1)).1 htx').2
        rw [count_succ] at hz
        have hnot : (r.count n + (r.presented n).length) ≠ 8 * ended r.chnlTx n := by
          intro heq
          have hc : r.presented n = [] := List.length_eq_zero_iff.1 (by omega)
          rw [hwait htx (by omega) hc] at htx'
          cases htx'
        rw [htx, htx']
        simp only [Bool.not_false, Bool.and_true, Bool.toNat_true]
        exact ⟨by omega, by omega, fun _ => by omega⟩
    · rw [htx, presented_of_low htx]
      simp only [Bool.false_and, Bool.toNat_false, Nat.add_zero, List.length_nil]
      exact ⟨hle, hlt, fun _ => hlow htx⟩

/-! ### One transaction -/

section Transaction

variable {a b : ℕ}

theorem not_chnlTx_zero : r.chnlTx 0 = false :=
  (chnlTx_eq_false 0).2 ⟨r.idle, rfl⟩

/-- A transaction starts with a multiple of eight beats. -/
theorem count_first (h : Period r.chnlTx a b) : r.count a = 8 * ended r.chnlTx a := by
  obtain ⟨u, rfl, hu⟩ := h.exists_before not_chnlTx_zero
  rw [count_succ, ended_succ, presented_of_low hu, hu, (count_framed u).2.2 hu]
  rfl

theorem count_last (h : Period r.chnlTx a b) : r.count b = 8 * ended r.chnlTx a + 8 := by
  rw [(count_framed b).2.2 h.after, h.ended_eq]
  rfl

/-- Its beats are the last eight of those presented until it ends. -/
theorem during_presented (h : Period r.chnlTx a b) :
    during r.presented a b = (trace r.presented b).drop (8 * ended r.chnlTx a) := by
  rw [trace_eq_append_during r.presented h.lt.le, ← count_first h, count, List.drop_left]

theorem tally_advances (h : Period r.chnlTx a b) : tally r.advances a (b - a) = 8 := by
  have hlen : (during r.presented a b).length = tally r.advances a (b - a) :=
    length_during r.advances (fun n => (r.state n).tx.chnlTxData) a b
  rw [← hlen, during_presented h, List.length_drop, ← count, count_last h]
  omega

/-- When it ends all words popped have been sent. -/
theorem unsent_last (h : Period r.chnlTx a b) : (r.state b).unsent = [] := by
  rw [Sender.unsent, ((chnlTx_eq_false b).1 h.after).1]
  rfl

/-- **Two words** are popped for it. -/
theorem popped_length (h : Period r.chnlTx a b) :
    (r.popped b).length = 2 * ended r.chnlTx a + 2 := by
  have hcount := count_add_unsent (r := r) b
  rw [count_last h, unsent_last h] at hcount
  simp only [List.length_nil] at hcount
  omega

theorem exists_pair (h : Period r.chnlTx a b) :
    ∃ w w', (r.popped b)[2 * ended r.chnlTx a]? = some w ∧
      (r.popped b)[2 * ended r.chnlTx a + 1]? = some w' ∧
      during r.presented a b = Sender.slices w ++ Sender.slices w' := by
  have hlen := popped_length h
  have hdrop : (r.popped b).drop (2 * ended r.chnlTx a) =
      [(r.popped b)[2 * ended r.chnlTx a], (r.popped b)[2 * ended r.chnlTx a + 1]] := by
    rw [List.drop_eq_getElem_cons (by omega), List.drop_eq_getElem_cons (by omega),
      List.drop_eq_nil_of_le (by omega)]
  refine ⟨_, _, List.getElem?_eq_getElem (by omega), List.getElem?_eq_getElem (by omega), ?_⟩
  have hmul : 8 * ended r.chnlTx a = 4 * (2 * ended r.chnlTx a) := by omega
  have hall := presented_append_unsent (r := r) b
  rw [unsent_last h, List.append_nil] at hall
  rw [during_presented h, hall, hmul, Blocks.drop_flatMap Sender.slices_length, hdrop]
  simp

end Transaction

/-- While a beat is sent, its word is the last one popped. -/
theorem popped_length_of_advances {n : ℕ} (h : r.advances n = true) :
    (r.popped n).length = r.count n / 4 + 1 := by
  have hs : (r.state n).tx.recvState = .busy := by
    by_contra hs
    have hc := presented_eq (r := r) n
    rw [presented, if_pos h, Sender.counted, if_neg hs] at hc
    cases hc
  have hk : ((r.state n).tx.senderState.extractLsb' 0 2).toNat = r.count n % 4 := by
    rw [senderState_eq, BitVec.extractLsb'_toNat, BitVec.toNat_ofNat]
    omega
  have hcount := count_add_unsent (r := r) n
  rw [Sender.unsent_length, if_pos hs, hk] at hcount
  omega

/-- Four beats for each word, in order. -/
theorem trace_wordNo (n : ℕ) : trace r.wordNo n = (List.range (r.count n)).map (· / 4) := by
  induction n with
  | zero => rfl
  | succ n ih =>
    rw [trace_succ, ih, count_succ, wordNo, presented]
    rcases Bool.eq_false_or_eq_true (r.advances n) with h | h
    · simp [h, popped_length_of_advances h, List.range_succ]
    · simp [h]

/-- The beats of a transaction, by the numbers of their words. -/
theorem during_wordNo {a b : ℕ} (h : Period r.chnlTx a b) :
    during r.wordNo a b =
      List.replicate 4 (2 * ended r.chnlTx a) ++ List.replicate 4 (2 * ended r.chnlTx a + 1) := by
  have hall := trace_eq_append_during r.wordNo h.lt.le
  rw [trace_wordNo, trace_wordNo, count_first h, count_last h, List.range_add, List.map_append]
    at hall
  rw [← List.append_cancel_left hall]
  simp [List.range_succ]
  omega

/-- A new word is taken where the one before it has been sent. -/
theorem stays (n : ℕ) (h : (r.state (n + 1)).tx.sendDataR ≠ (r.state n).tx.sendDataR) :
    trace r.presented n = (r.popped n).flatMap Sender.slices := by
  have hs : (r.state n).tx.recvState = .idle := by
    by_contra hs
    have hbusy : (r.state n).tx.recvState = .busy := by
      cases hb : (r.state n).tx.recvState with
      | idle => exact absurd hb hs
      | busy => rfl
    refine h ?_
    have hnext : (r.state (n + 1)).tx = _ := Sender.tx_next_busy hbusy
    rw [hnext]
    split <;> rfl
  rw [← presented_append_unsent, Sender.unsent, hs]
  simp

theorem framed (r : FrameRun) : r.Framed where
  beats _ _ h := tally_advances h
  length _ _ h := by rw [tally_advances h]; rfl
  pair _ _ h := exists_pair h
  stays := stays
  apart _ b _ _ h h' hlt := ⟨b, Nat.le_refl b, h.lt_of_lt h' hlt, h.after⟩

end FrameRun

end SoftMC
