import SoftMC.Top.Host
/-!
# A host in the loop

A host with a list of words to send: it presents the next of them in the
cycles in which its own surroundings let it, until the channel has taken
it, and reads wherever there is no gap. In the pauses the controller may
serve maintenance. Whatever the surroundings do, what the host has sent and
what it has yet to send are always its list.
-/

namespace SoftMC

open Clocked

/-- The design, and the words the host has yet to send. -/
structure Hosted where
  top : SoftMCTop
  words : List Instr

namespace Hosted

variable (h : Hosted) (i : SoftMCTop.In)

/-- The host has a word, and does not pause. -/
def offers : Bool := i.rx.chnlRxDataValid && !h.words.isEmpty

/-- It presents its next word. -/
def chnlRx : PcieRx.In where
  chnlRx := !h.words.isEmpty
  chnlRxData := (h.words.headD 0).setWidth 64
  chnlRxDataValid := h.offers i

/-- It reads, but in the gap of a transaction. -/
def chnlTxDataRen : Bool :=
  !(decide (h.top.tx.recvState = .idle) && h.top.tx.senderState.getLsbD 2)

/-- The inputs of a cycle, with the channels the host's. -/
def input : SoftMCTop.In :=
  { i with rx := h.chnlRx i, chnlTxDataRen := h.chnlTxDataRen }

/-- A word taken is not presented again. -/
def next (depth : Option ℕ) (h : Hosted) (i : SoftMCTop.In) : Hosted where
  top := SoftMCTop.next depth h.top (h.input i)
  words :=
    if h.offers i && h.top.rx.chnlRxDataRen (h.top.appAck (h.input i)) then h.words.tail
    else h.words

/-- **No word is lost, and none sent twice.** -/
theorem transferred_append (ack : Bool) :
    (h.top.rx.transferred (h.chnlRx i) ack).map (·.extractLsb' 0 32) ++
        (if h.offers i && h.top.rx.chnlRxDataRen ack then h.words.tail else h.words) =
      h.words := by
  have hvalid : (h.chnlRx i).chnlRxDataValid = h.offers i := rfl
  rw [PcieRx.transferred, hvalid]
  by_cases htaken : (h.offers i && h.top.rx.chnlRxDataRen ack) = true
  · rw [if_pos htaken, if_pos htaken]
    obtain ⟨top, words⟩ := h
    cases words with
    | nil =>
      rw [offers, List.isEmpty_nil, Bool.not_true, Bool.and_false, Bool.false_and] at htaken
      cases htaken
    | cons w ws =>
      have hword : (w.setWidth 64).extractLsb' 0 32 = w := by
        refine BitVec.eq_of_getLsbD_eq fun i hi => ?_
        simp only [BitVec.getLsbD_extractLsb', BitVec.getLsbD_setWidth, Nat.zero_add]
        rw [decide_eq_true hi, decide_eq_true (show i < 64 by omega), Bool.true_and, Bool.true_and]
      change [(w.setWidth 64).extractLsb' 0 32] ++ ws = w :: ws
      rw [hword]
      rfl
  · rw [if_neg htaken, if_neg htaken]
    rfl

end Hosted

namespace TopRun

variable (r : TopRun) (ws : List Instr)

/-- The design with a host in front of it that sends `ws`. -/
def hosted (n : ℕ) : Hosted := run (Hosted.next r.depth) { top := r.start, words := ws } r.wave n

/-- **The run with the host**: the surroundings are those of `r`, but for
the channels. It pauses where `r` has no valid word. -/
def hosting : TopRun :=
  { r with
    chnlRx := fun n => (r.hosted ws n).chnlRx (r.wave n)
    chnlTxDataRen := fun n => (r.hosted ws n).chnlTxDataRen }

variable {r ws}

theorem hosted_succ (n : ℕ) :
    r.hosted ws (n + 1) = Hosted.next r.depth (r.hosted ws n) (r.wave n) := rfl

theorem hosting_wave (n : ℕ) : (r.hosting ws).wave n = (r.hosted ws n).input (r.wave n) := rfl

theorem hosting_state (n : ℕ) : (r.hosting ws).state n = (r.hosted ws n).top := by
  induction n with
  | zero => rfl
  | succ n ih =>
    rw [state_succ, ih, hosting_wave]
    rfl

/-- **What is sent is the host's list**, as far as it has been taken. -/
theorem sent_hosting (n : ℕ) :
    (r.hosting ws).sent n ++ (r.hosted ws n).words = r.rx.waiting ++ ws := by
  induction n with
  | zero =>
    change (r.rx.waiting ++ []) ++ ws = _
    rw [List.append_nil]
  | succ n ih =>
    have hword := (r.hosted ws n).transferred_append (r.wave n)
      ((r.hosted ws n).top.appAck ((r.hosted ws n).input (r.wave n)))
    have hsent : (r.hosting ws).sent (n + 1) = (r.hosting ws).sent n ++
        ((r.hosted ws n).top.rx.transferred ((r.hosted ws n).chnlRx (r.wave n))
          ((r.hosted ws n).top.appAck ((r.hosted ws n).input (r.wave n)))).map
            (·.extractLsb' 0 32) := by
      rw [sent, trace_succ, ← List.append_assoc, hosting_state, hosting_wave]
      rfl
    rw [hsent, List.append_assoc, ← ih]
    exact congrArg _ hword

/-- The host reads in no gap. -/
theorem sparesGaps_hosting : (r.hosting ws).SparesGaps := by
  intro n hidle hgap
  rw [hosting_state] at hidle hgap
  change (!(decide ((r.hosted ws n).top.tx.recvState = .idle) &&
    (r.hosted ws n).top.tx.senderState.getLsbD 2)) = false
  rw [hidle, hgap]
  rfl

theorem chnlTxDataRen_hosting (n : ℕ) :
    (r.hosting ws).chnlTxDataRen n = true ↔ ¬ ((r.hosting ws).sender.state n).Gap := by
  rw [sender_state, hosting_state, Sender.Gap]
  change (!(decide ((r.hosted ws n).top.tx.recvState = .idle) &&
    (r.hosted ws n).top.tx.senderState.getLsbD 2)) = true ↔ _
  rw [Bool.not_eq_true', Bool.and_eq_false_iff, decide_eq_false_iff_not, not_and_or,
    Bool.not_eq_true]

/-! ## All of it is sent -/

theorem length_sent_hosting (r : TopRun) (ws : List Instr) (n : ℕ) :
    ((r.hosting ws).sent n).length + (r.hosted ws n).words.length =
      r.rx.waiting.length + ws.length := by
  rw [← List.length_append, sent_hosting, List.length_append]

theorem length_words_le (r : TopRun) (ws : List Instr) {m n : ℕ} (h : m ≤ n) :
    (r.hosted ws n).words.length ≤ (r.hosted ws m).words.length := by
  have hmono := (sent_mono (r := r.hosting ws) h).length_le
  have hm := length_sent_hosting r ws m
  have hn := length_sent_hosting r ws n
  omega

/-- The host offers a word again and again. -/
def Offers (r : TopRun) : Prop := ∀ n, ∃ k, n ≤ k ∧ (r.chnlRx k).chnlRxDataValid = true

/-- **A register that is empty takes the next word**, if the host offers it
in the cycle. -/
theorem succ_of_empty {n : ℕ} (hen : ((r.hosting ws).state n).rx.appEnR = false)
    (hne : (r.hosted ws n).words ≠ []) :
    (r.hosted ws (n + 1)).words =
        (if (r.chnlRx n).chnlRxDataValid then (r.hosted ws n).words.tail
        else (r.hosted ws n).words) ∧
      ((r.hosting ws).state (n + 1)).rx.appEnR = (r.chnlRx n).chnlRxDataValid := by
  rw [hosting_state] at hen
  have hren : ∀ ack, (r.hosted ws n).top.rx.chnlRxDataRen ack = true := by
    intro ack
    rw [PcieRx.chnlRxDataRen, hen]
    rfl
  have hoffers : (r.hosted ws n).offers (r.wave n) = (r.chnlRx n).chnlRxDataValid := by
    change ((r.chnlRx n).chnlRxDataValid && !(r.hosted ws n).words.isEmpty) = _
    rw [List.isEmpty_eq_false_iff.2 hne, Bool.not_false, Bool.and_true]
  constructor
  · rw [hosted_succ, Hosted.next, hoffers, hren, Bool.and_true]
  · rw [hosting_state, hosted_succ]
    change (if (r.hosted ws n).top.rx.chnlRxDataRen _ then (r.hosted ws n).offers (r.wave n)
      else _) = _
    rw [hren, if_pos rfl, hoffers]

theorem length_words_succ_lt {n : ℕ} (hen : ((r.hosting ws).state n).rx.appEnR = false)
    (hne : (r.hosted ws n).words ≠ []) (hnow : (r.chnlRx n).chnlRxDataValid = true) :
    (r.hosted ws (n + 1)).words.length < (r.hosted ws n).words.length := by
  rw [(succ_of_empty hen hne).1, if_pos hnow, List.length_tail]
  exact Nat.sub_lt (List.length_pos_of_ne_nil hne) Nat.one_pos

/-- It waits for the cycle in which the host does. -/
theorem exists_words_lt_of_empty {n d : ℕ} (hen : ((r.hosting ws).state n).rx.appEnR = false)
    (hne : (r.hosted ws n).words ≠ []) (hgo : (r.chnlRx (n + d)).chnlRxDataValid = true) :
    ∃ k, n ≤ k ∧ (r.hosted ws (k + 1)).words.length < (r.hosted ws n).words.length := by
  induction d generalizing n with
  | zero => exact ⟨n, Nat.le_refl n, length_words_succ_lt hen hne hgo⟩
  | succ d ih =>
    cases hnow : (r.chnlRx n).chnlRxDataValid with
    | true => exact ⟨n, Nat.le_refl n, length_words_succ_lt hen hne hnow⟩
    | false =>
      obtain ⟨hwords, hnext⟩ := succ_of_empty hen hne
      rw [hnow, if_neg Bool.false_ne_true] at hwords
      rw [hnow] at hnext
      have hlater : (r.chnlRx (n + 1 + d)).chnlRxDataValid = true := by
        rw [Nat.add_right_comm]
        exact hgo
      obtain ⟨k, hk, hlt⟩ := ih hnext (hwords ▸ hne) hlater
      exact ⟨k, by omega, hwords ▸ hlt⟩

section Ready

variable (hready : ∀ n, ((r.hosting ws).controller.wave n).dfiReady = true) (hgo : r.Offers)

include hready hgo

/-- A word the host has is taken in the end. -/
theorem exists_words_lt {n : ℕ} (h : 0 < (r.hosted ws n).words.length) :
    ∃ m, n ≤ m ∧ (r.hosted ws (m + 1)).words.length < (r.hosted ws n).words.length := by
  obtain ⟨m, hm, hacc⟩ := exists_sent_accepted hready n
  have hmono := length_words_le r ws hm
  cases hen : ((r.hosting ws).state m).rx.appEnR with
  | false =>
    -- what has been sent is accepted, and the next word is taken
    rcases Decidable.em ((r.hosted ws m).words = []) with hnil | hne
    · have hnext := length_words_le r ws (Nat.le_add_right m 1)
      rw [hnil, List.length_nil] at hnext
      exact ⟨m, hm, Nat.lt_of_le_of_lt hnext h⟩
    · obtain ⟨g, hg, hvalid⟩ := hgo m
      obtain ⟨d, rfl⟩ := Nat.exists_eq_add_of_le hg
      obtain ⟨k, hk, hlt⟩ := exists_words_lt_of_empty hen hne hvalid
      exact ⟨k, Nat.le_trans hm hk, Nat.lt_of_lt_of_le hlt hmono⟩
  | true =>
    -- a word behind it waits
    have hone : ((r.hosting ws).state m).rx.waiting.length = 1 := by
      rw [PcieRx.waiting, hen, if_pos rfl]
      rfl
    have hlen := hacc.length_le
    have hfirst := length_sent_hosting r ws n
    have hlater := length_sent_hosting r ws m
    have hsplit := congrArg List.length (sent_eq (r := r.hosting ws) m)
    rw [List.length_append] at hsplit
    have hlt : (r.hosted ws m).words.length < (r.hosted ws n).words.length := by omega
    exact ⟨m, hm, Nat.lt_of_le_of_lt (length_words_le r ws (Nat.le_add_right m 1)) hlt⟩

/-- **The host gets rid of its words**, if nothing stalls the dispatcher. -/
theorem exists_words_nil : ∃ n, (r.hosted ws n).words = [] := by
  obtain ⟨n, -, hn⟩ := exists_zero_of_progress (μ := fun n => (r.hosted ws n).words.length)
    (a := 0) fun n _ h => exists_words_lt hready hgo h
  exact ⟨n, List.length_eq_zero_iff.1 hn⟩

end Ready

end TopRun

end SoftMC
