import SoftMC.Path.Run
/-!
# How long a sequence may be

The receiver acknowledges every instruction of an application's sequence,
whatever the FIFOs hold, and nothing is read from them before the END has
arrived. So a sequence is executed completely exactly when each FIFO can
hold its half of it; and an END on its own never is, the receiver taking
the first instruction of a sequence without looking at it.
-/

namespace SoftMC

open Clocked

/-! ## An application's sequence -/

/-- **A sequence**: instructions none of which is an END, and an END. -/
structure Sequence where
  body : List Instr
  close : Instr
  noEnd : ∀ w ∈ body, opcode w ≠ .endIseq
  isEnd : opcode close = .endIseq

namespace Sequence

def instrs (s : Sequence) : List Instr := s.body ++ [s.close]

abbrev length (s : Sequence) : ℕ := s.instrs.length

theorem ne_nil (s : Sequence) : s.instrs ≠ [] :=
  List.append_ne_nil_of_right_ne_nil _ (List.cons_ne_nil _ _)

/-- An END stands at the end of the sequence and nowhere else. -/
theorem opcode_head (s : Sequence) {l t : List Instr} {w : Instr} (h : s.instrs = l ++ w :: t) :
    opcode w = .endIseq ↔ t = [] := by
  unfold instrs at h
  rcases List.eq_nil_or_concat t with rfl | ⟨t', e, rfl⟩
  · have hw := List.append_inj_right' h rfl
    rw [List.cons.injEq] at hw
    exact iff_of_true (hw.1 ▸ s.isEnd) rfl
  · rw [List.concat_eq_append, ← List.cons_append, ← List.append_assoc] at h
    have hbody := List.append_inj_left' h rfl
    refine iff_of_false (s.noEnd w ?_) (by simp)
    rw [hbody]
    exact List.mem_append_right _ List.mem_cons_self

end Sequence

/-! ## Its delivery -/

/-- The path and what the application has still to deliver. -/
structure Feed where
  core : Core
  rest : List Instr

namespace Feed

/-- The inputs of one cycle. `app_en` is high where the application offers
its next instruction, and low in the gaps. -/
structure In where
  offer : Bool
  maintEn : Bool
  maintInstr : Instr
  periodicReadLock : Bool
  dfiReady : Bool

variable (f : Feed) (i : In)

def coreIn : Core.In where
  appEn := i.offer && !f.rest.isEmpty
  appInstr := f.rest.headD 0
  maintEn := i.maintEn
  maintInstr := i.maintInstr
  periodicReadLock := i.periodicReadLock
  dfiReady := i.dfiReady

/-- The instruction on offer is acknowledged. -/
def acks : Bool := (f.coreIn i).appEn && f.core.appAck (f.coreIn i)

/-- The clock edge: an acknowledged instruction has been delivered. -/
def next (depth : ℕ) (f : Feed) (i : In) : Feed where
  core := Core.next (some depth) f.core (f.coreIn i)
  rest := if f.acks i then f.rest.tail else f.rest

end Feed

/-- **A delivery** of a sequence, from a path at rest that takes its first
instruction in cycle `0`: any gaps that end, any maintenance, and a
`dfi_ready` that is not low for ever. -/
structure Delivery where
  depth : ℕ
  seq : Sequence
  start : Core
  wave : ℕ → Feed.In
  idle : start.Idle
  first : (wave 0).offer = true
  offers : ∀ n, ∃ m, n ≤ m ∧ (wave m).offer = true
  ready : ∀ n, ∃ m, n ≤ m ∧ (wave m).dfiReady = true

namespace Delivery

variable (d : Delivery)

/-- The registers at the start of cycle `n`, and what is left to deliver. -/
def state (n : ℕ) : Feed := run (Feed.next d.depth) ⟨d.start, d.seq.instrs⟩ d.wave n

abbrev rest (n : ℕ) : List Instr := (d.state n).rest

/-- The instruction on offer in cycle `n` is acknowledged. -/
def acks (n : ℕ) : Bool := (d.state n).acks (d.wave n)

/-- The run of the path under the delivery. -/
def path : PathRun where
  depth := some d.depth
  start := d.start
  wave n := (d.state n).coreIn (d.wave n)
  idle := d.idle

/-- **The sequence is executed completely**: no write of an acknowledged
instruction meets a full FIFO, and the dispatcher takes all of them. -/
def Completes : Prop :=
  (∀ k, d.acks k = true → d.path.Fits (k + 1)) ∧
    ∃ m, (deal d.seq.instrs).1 <+: d.path.taken0 m ∧
      (deal d.seq.instrs).2 <+: d.path.taken1 m

theorem core_eq (n : ℕ) : (d.state n).core = d.path.state n :=
  run_map (F := Feed.next d.depth) Feed.core Feed.coreIn (fun _ _ => rfl) _ d.wave n

theorem rest_succ (n : ℕ) : d.rest (n + 1) = if d.acks n then (d.rest n).tail else d.rest n := rfl

theorem acks_eq (n : ℕ) :
    d.acks n = (((d.wave n).offer && !(d.rest n).isEmpty) &&
      ((d.path.state n).recv.comb ((d.path.state n).recvIn (d.path.wave n))).appAck) := by
  rw [← core_eq]; rfl

/-! ## Receiving it -/

variable {d}

/-- The sequence is being received: what is stored and what is left make
it up. -/
structure Receiving (d : Delivery) (n : ℕ) : Prop where
  state : (d.path.state n).recv.stateR = .app
  noPulse : (d.path.state n).recv.processIseqR = false
  split : d.seq.instrs = d.path.since n ++ d.rest n

/-- The first instruction is taken unseen. -/
theorem receiving_one : d.Receiving 1 ∧ d.rest 1 = d.seq.instrs.tail ∧ d.acks 0 = true := by
  have hrest : d.rest 0 = d.seq.instrs := rfl
  have hen : (d.path.wave 0).appEn = true := by
    change ((d.wave 0).offer && !(d.rest 0).isEmpty) = true
    rw [d.first, hrest]
    cases h : d.seq.instrs with
    | nil => exact absurd h d.seq.ne_nil
    | cons w t => rfl
  have hready : ((d.path.state 0).recvIn (d.path.wave 0)).dispatcherReady = true := by
    change (!d.start.exec.iseq.dispatcherBusyR) = true
    rw [d.idle.1.resting.1]
    rfl
  have hcomb := Receiver.comb_idle_app _ _ d.idle.2.1 hready d.idle.2.2 hen
  have hacks : d.acks 0 = true := by
    rw [acks_eq]
    change ((d.path.wave 0).appEn && (d.start.recv.comb _).appAck) = true
    rw [hcomb, hen]
    rfl
  have htail : d.rest 1 = d.seq.instrs.tail := by rw [rest_succ, hacks, if_pos rfl, hrest]
  refine ⟨⟨congrArg Receiver.Comb.stateNs hcomb, congrArg Receiver.Comb.processIseqNs hcomb, ?_⟩,
    htail, hacks⟩
  have hstored : (d.path.state 0).stored (d.path.wave 0) = [(d.path.wave 0).appInstr] := by
    change (if (d.start.recv.comb _).instrEnNs then [(d.start.recv.comb _).instrNs] else []) = _
    rw [hcomb]
    rfl
  rw [PathRun.since, Core.buffered, PathRun.since, hstored, htail]
  change d.seq.instrs = (if d.start.recv.processIseqR then [] else []) ++ [d.seq.instrs.headD 0] ++
    d.seq.instrs.tail
  cases h : d.seq.instrs with
  | nil => exact absurd h d.seq.ne_nil
  | cons w t => simp

/-- While it is received an instruction on offer is taken. -/
theorem Receiving.acks_eq {n : ℕ} (h : d.Receiving n) :
    d.acks n = (d.path.wave n).appEn := by
  rw [Delivery.acks_eq, (Receiver.comb_app _ _ h.state).1, Bool.and_true]
  rfl

/-- A cycle of the delivery: a gap, an instruction, or the END. -/
theorem Receiving.next {n : ℕ} (h : d.Receiving n) :
    (d.acks n = false ∧ d.rest (n + 1) = d.rest n ∧ d.Receiving (n + 1)) ∨
      ∃ w t, d.acks n = true ∧ d.rest n = w :: t ∧ d.rest (n + 1) = t ∧
        (t ≠ [] → d.Receiving (n + 1)) ∧
        (t = [] → (d.path.state (n + 1)).recv.processIseqR = true ∧
          d.path.since (n + 1) = d.seq.instrs) := by
  obtain ⟨-, hstored, hpulse, hstate⟩ :=
    Receiver.comb_app (d.path.state n).recv ((d.path.state n).recvIn (d.path.wave n)) h.state
  have hi : ((d.path.state n).recvIn (d.path.wave n)).appEn = (d.path.wave n).appEn ∧
      ((d.path.state n).recvIn (d.path.wave n)).appInstr = (d.path.wave n).appInstr := ⟨rfl, rfl⟩
  rw [hi.1, hi.2] at hstored
  rw [hi.1, hi.2] at hpulse hstate
  have hsince : d.path.since (n + 1) = d.path.since n ++ (d.path.state n).recv.stored
      ((d.path.state n).recvIn (d.path.wave n)) := by
    rw [PathRun.since, Core.buffered, h.noPulse]; rfl
  cases hen : (d.path.wave n).appEn with
  | false =>
    have hacks : d.acks n = false := h.acks_eq.trans hen
    have hrest : d.rest (n + 1) = d.rest n := by rw [rest_succ, hacks]; rfl
    rw [hen] at hstored hpulse hstate
    refine Or.inl ⟨hacks, hrest, hstate, hpulse, ?_⟩
    rw [hsince, hrest, hstored]
    simpa using h.split
  | true =>
    have hacks : d.acks n = true := h.acks_eq.trans hen
    have hen' : ((d.wave n).offer && !(d.rest n).isEmpty) = true := hen
    obtain ⟨w, t, hr⟩ : ∃ w t, d.rest n = w :: t := by
      cases hr : d.rest n with
      | nil => rw [hr] at hen'; simp at hen'
      | cons w t => exact ⟨w, t, rfl⟩
    have hinstr : (d.path.wave n).appInstr = w := by
      change (d.rest n).headD 0 = w
      rw [hr]; rfl
    have hrest : d.rest (n + 1) = t := by rw [rest_succ, hacks, if_pos rfl, hr]; rfl
    have hsplit := h.split
    rw [hr] at hsplit
    -- the receiver tells the END by its opcode, and only the last word has it
    have hop := d.seq.opcode_head hsplit
    rw [hen, hinstr] at hstored hpulse hstate
    have hsince' : d.path.since (n + 1) = d.path.since n ++ [w] := by rw [hsince, hstored]; rfl
    refine Or.inr ⟨w, t, hacks, hr, hrest, fun ht => ?_, fun ht => ?_⟩
    · have hne : opcode w ≠ .endIseq := fun hw => ht (hop.1 hw)
      rw [decide_eq_false hne] at hpulse hstate
      refine ⟨hstate, hpulse, ?_⟩
      rw [hsince', hrest, List.append_assoc]
      exact hsplit
    · rw [decide_eq_true (hop.2 ht)] at hpulse
      exact ⟨hpulse, by rw [hsince', hsplit, ht]⟩

theorem receiving {n : ℕ} (hn : 1 ≤ n) (hrest : d.rest n ≠ []) : d.Receiving n := by
  obtain ⟨k, rfl⟩ := Nat.exists_eq_add_of_le' hn
  induction k with
  | zero => exact receiving_one.1
  | succ k ih =>
    have hne : d.rest (k + 1) ≠ [] := by
      intro hnil
      rw [rest_succ, hnil] at hrest
      exact hrest (by split <;> rfl)
    rcases (ih (by omega) hne).next with ⟨-, -, h⟩ | ⟨w, t, -, -, ht, h, -⟩
    · exact h
    · exact h (by rw [← ht]; exact hrest)

/-- Offers that come back deliver another instruction. -/
theorem exists_delivered {n : ℕ} (hn : 1 ≤ n) (hrest : 0 < (d.rest n).length) :
    ∃ m, n ≤ m ∧ (d.rest (m + 1)).length < (d.rest n).length := by
  by_contra hno
  have hnever : ∀ m, n ≤ m → (d.rest n).length ≤ (d.rest (m + 1)).length := by
    intro m hm
    by_contra hlt
    exact hno ⟨m, hm, by omega⟩
  -- were nothing more delivered, the same word would be on offer for ever
  have hsame : ∀ j, d.rest (n + j) = d.rest n := by
    intro j
    induction j with
    | zero => rfl
    | succ j ih =>
      have hj : d.Receiving (n + j) :=
        receiving (by omega) (by rw [ih]; exact List.length_pos_iff.1 hrest)
      rcases hj.next with ⟨-, h, -⟩ | ⟨w, t, -, hr, ht, -, -⟩
      · rw [← Nat.add_assoc, h, ih]
      · have hlen := hnever (n + j) (by omega)
        rw [ht, ← ih, hr, List.length_cons] at hlen
        omega
  obtain ⟨m, hm, hoffer⟩ := d.offers n
  obtain ⟨j, rfl⟩ := Nat.exists_eq_add_of_le hm
  have hj : d.Receiving (n + j) :=
    receiving (by omega) (by rw [hsame j]; exact List.length_pos_iff.1 hrest)
  rcases hj.next with ⟨hacks, -, -⟩ | ⟨w, t, -, hr, ht, -, -⟩
  · have hen : (d.path.wave (n + j)).appEn = true := by
      change ((d.wave (n + j)).offer && !(d.rest (n + j)).isEmpty) = true
      rw [hoffer, hsame j]
      cases h : d.rest n with
      | nil => rw [h] at hrest; cases hrest
      | cons w t => rfl
    rw [hj.acks_eq, hen] at hacks
    cases hacks
  · have hlen := hnever (n + j) (by omega)
    rw [ht, ← hsame j, hr, List.length_cons] at hlen
    omega

/-- What has been delivered stays delivered. -/
theorem rest_eq_nil {c k : ℕ} (hc : d.rest c = []) (hk : c ≤ k) : d.rest k = [] := by
  obtain ⟨j, rfl⟩ := Nat.exists_eq_add_of_le hk
  induction j with
  | zero => exact hc
  | succ j ih =>
    rw [← Nat.add_assoc, rest_succ, ih (by omega)]
    split <;> rfl

/-- **The END closes the sequence** with the pulse of cycle `c`, unless it
is all there is. -/
theorem exists_closed (hlen : 2 ≤ d.seq.length) :
    ∃ c, (∀ k, 1 ≤ k → k < c → d.Receiving k) ∧ d.rest c = [] ∧
      (d.path.state c).recv.processIseqR = true ∧ d.path.since c = d.seq.instrs := by
  -- the first cycle before which all is delivered
  have hex : ∃ m, d.rest m = [] := by
    obtain ⟨m, -, hm⟩ := exists_zero_of_progress (μ := fun n => (d.rest n).length) (a := 1)
      fun n hn hpos => exists_delivered hn hpos
    exact ⟨m, List.length_eq_zero_iff.1 hm⟩
  have hmin : ∀ k, k < Nat.find hex → d.rest k ≠ [] := fun k hk => Nat.find_min hex hk
  have hfind := Nat.find_spec hex
  obtain ⟨m, hm⟩ : ∃ m, Nat.find hex = m + 2 := by
    have h0 : Nat.find hex ≠ 0 := by
      intro h
      rw [h] at hfind
      exact d.seq.ne_nil hfind
    have h1 : Nat.find hex ≠ 1 := by
      intro h
      rw [h, receiving_one.2.1] at hfind
      have htail := congrArg List.length hfind
      rw [List.length_tail, List.length_nil] at htail
      have h2 : 2 ≤ d.seq.instrs.length := hlen
      omega
    exact ⟨Nat.find hex - 2, by omega⟩
  have hrec : ∀ k, 1 ≤ k → k < Nat.find hex → d.Receiving k :=
    fun k hk hlt => receiving hk (hmin k hlt)
  rw [hm] at hfind hmin hrec
  refine ⟨m + 2, hrec, hfind, ?_⟩
  rcases (hrec (m + 1) (by omega) (by omega)).next with ⟨-, h, -⟩ | ⟨w, t, -, -, ht, -, h⟩
  · rw [hfind] at h
    exact absurd h.symm (hmin (m + 1) (by omega))
  · exact h (by rw [← ht]; exact hfind)

/-! ## The writes -/

/-- In cycle `0` nothing is in flight. -/
theorem no_write_zero : (d.path.execIn 0).wr0 = none ∧ (d.path.execIn 0).wr1 = none := by
  obtain ⟨L, hL, -, -⟩ := d.idle.1.landed
  have hen : d.start.recv.instrEnR = false := by
    cases h : d.start.recv.instrEnR with
    | false => rfl
    | true =>
      rw [Receiver.inFlight, if_pos h] at hL
      cases L <;> cases hL
  simp [PathRun.execIn, Core.execIn, Receiver.instr0Fifo, Receiver.instr1Fifo, path, hen]

theorem not_dispatching {c k : ℕ} (hrec : ∀ k, 1 ≤ k → k < c → d.Receiving k)
    (hpulse : (d.path.state c).recv.processIseqR = true) (hk : k ≤ c) :
    ¬ (d.path.state k).Dispatching := by
  intro h
  rcases Nat.lt_or_ge k c with hlt | hge
  · rcases Nat.eq_zero_or_pos k with rfl | hpos
    · have hb : (d.path.state 0).exec.iseq.dispatcherBusyR = false := d.idle.1.resting.1
      exact absurd (h.busy.symm.trans hb) (by simp)
    · have hst := (hrec k hpos hlt).state
      rw [h.idle] at hst
      cases hst
  · obtain rfl : k = c := by omega
    rw [h.noPulse] at hpulse
    cases hpulse

theorem buffering {c k : ℕ} (hrec : ∀ k, 1 ≤ k → k < c → d.Receiving k)
    (hpulse : (d.path.state c).recv.processIseqR = true) (hk : k ≤ c)
    (hfit : ∀ j < k, d.path.Fits j) : (d.path.state k).Buffering (d.path.since k) := by
  rcases PathRun.phase hfit with h | ⟨-, h⟩
  · exact h
  · exact absurd h (not_dispatching hrec hpulse hk)

/-- **Short enough a sequence is stored whole.** -/
theorem fits_of_length_le (hlen : d.seq.length ≤ 2 * d.depth) {c : ℕ}
    (hrec : ∀ k, 1 ≤ k → k < c → d.Receiving k)
    (hpulse : (d.path.state c).recv.processIseqR = true) (hsince : d.path.since c = d.seq.instrs)
    (k : ℕ) (hk : k ≤ c) : d.path.Fits k := by
  induction k using Nat.strong_induction_on with
  | _ k ih =>
    have hbuf := buffering hrec hpulse hk fun j hj => ih j hj (by omega)
    refine hbuf.fits (i := d.path.wave k) ?_
    -- no more is buffered than there is to deliver
    have hle : (d.path.since k).length ≤ d.seq.instrs.length := by
      rcases Nat.lt_or_ge k c with hlt | hge
      · rcases Nat.eq_zero_or_pos k with rfl | hpos
        · exact Nat.zero_le _
        · rw [(hrec k hpos hlt).split, List.length_append]; omega
      · obtain rfl : k = c := by omega
        rw [hsince]
    exact Nat.le_trans hle hlen

/-- What is kept of every acknowledged instruction keeps all writes. -/
theorem fits_of_kept (hkept : ∀ k, d.acks k = true → d.path.Fits (k + 1)) {c : ℕ}
    (hrec : ∀ k, 1 ≤ k → k < c → d.Receiving k) (k : ℕ) (hk : k ≤ c) : d.path.Fits k := by
  cases k with
  | zero => exact Exec.fits_of_no_write no_write_zero.1 no_write_zero.2
  | succ k =>
    rcases Nat.eq_zero_or_pos k with rfl | hpos
    · exact hkept 0 receiving_one.2.2
    · have h := hrec k hpos (by omega)
      cases hacks : d.acks k with
      | true => exact hkept k hacks
      | false =>
        have hst := (Receiver.comb_app (d.path.state k).recv
          ((d.path.state k).recvIn (d.path.wave k)) h.state).2.1
        rw [h.acks_eq] at hacks
        rw [show ((d.path.state k).recvIn (d.path.wave k)).appEn = false from hacks] at hst
        have hen : (d.path.state (k + 1)).recv.instrEnR = false := by
          have hfly : (d.path.state (k + 1)).recv.inFlight = [] := hst
          by_contra hne
          rw [Receiver.inFlight, if_pos (Bool.not_eq_false _ ▸ hne)] at hfly
          cases hfly
        exact Exec.fits_of_no_write
          (by simp [PathRun.execIn, Core.execIn, Receiver.instr0Fifo, hen])
          (by simp [PathRun.execIn, Core.execIn, Receiver.instr1Fifo, hen])

/-- The FIFOs hold no more than their depth. -/
theorem fifo_length_le (n : ℕ) :
    (d.path.state n).exec.fifo0.length ≤ d.depth ∧
      (d.path.state n).exec.fifo1.length ≤ d.depth := by
  induction n with
  | zero =>
    obtain ⟨L, hL, hdeal, -⟩ := d.idle.1.landed
    obtain ⟨rfl, -⟩ := List.append_eq_nil_iff.1 hL.symm
    rw [deal_nil, Prod.mk.injEq] at hdeal
    change d.start.exec.fifo0.length ≤ _ ∧ d.start.exec.fifo1.length ≤ _
    rw [← hdeal.1, ← hdeal.2]
    simp
  | succ n ih => exact ⟨fifoNext_length_le ih.1, fifoNext_length_le ih.2⟩

/-- **A sequence that is stored whole is short enough.** -/
theorem length_le_of_kept (hkept : ∀ k, d.acks k = true → d.path.Fits (k + 1))
    (hlen : 2 ≤ d.seq.length) : d.seq.length ≤ 2 * d.depth := by
  obtain ⟨c, hrec, -, hpulse, hsince⟩ := exists_closed hlen
  have hfit := fits_of_kept hkept hrec
  have hbuf := buffering hrec hpulse le_rfl fun j hj => hfit j (by omega)
  rw [hsince] at hbuf
  have hdeal := (hbuf.next_of_pulse (D := d.path.depth) (i := d.path.wave c) (hfit c le_rfl) hpulse).2
  rw [← PathRun.state_succ] at hdeal
  obtain ⟨hl0, hl1⟩ := deal_length d.seq.instrs
  simp only [hdeal] at hl0 hl1
  obtain ⟨h0, h1⟩ := fifo_length_le (d := d) (c + 1)
  change d.seq.instrs.length ≤ _
  omega

/-! ## Its dispatch -/

/-- **A sequence that is stored whole is dispatched whole.** -/
theorem exists_taken {c : ℕ} (hrec : ∀ k, 1 ≤ k → k < c → d.Receiving k)
    (hpulse : (d.path.state c).recv.processIseqR = true) (hsince : d.path.since c = d.seq.instrs)
    (hfit : ∀ k, k ≤ c → d.path.Fits k) :
    ∃ m, d.path.taken0 m = (deal d.seq.instrs).1 ∧ d.path.taken1 m = (deal d.seq.instrs).2 := by
  have hbuf : ∀ k, k ≤ c → (d.path.state k).Buffering (d.path.since k) :=
    fun k hk => buffering hrec hpulse hk fun j hj => hfit j (by omega)
  obtain ⟨hstart, hdeal⟩ := (hbuf c le_rfl).next_of_pulse (D := d.path.depth)
    (i := d.path.wave c) (hfit c le_rfl) hpulse
  have hload := (hbuf c le_rfl).resting.loading (D := d.path.depth) (i := d.path.execIn c) hpulse
  rw [← PathRun.state_succ] at hstart hdeal
  obtain ⟨k, hdisp, hend, hnotBusy⟩ := PathRun.exists_dispatched hstart d.ready
  refine ⟨c + 1 + (k + 1), ?_⟩
  obtain ⟨hc0, hc1⟩ := PathRun.contents_of_dispatching (k := k + 1) fun j hj => hdisp j (by omega)
  obtain ⟨ht0, ht1⟩ := PathRun.taken_of_resting (r := d.path) (n := c + 1)
    fun j hj => (hbuf j (by omega)).resting
  have hbegin : (d.path.state (c + 1)).exec.content0 = (d.path.state (c + 1)).exec.fifo0 ∧
      (d.path.state (c + 1)).exec.content1 = (d.path.state (c + 1)).exec.fifo1 := by
    have h0 : (d.path.state (c + 1)).exec.iseq.instr0Reg.held = [] := hload.2.1.empty.held_eq
    have h1 : (d.path.state (c + 1)).exec.iseq.instr1Reg.held = [] := hload.2.2.empty.held_eq
    rw [Exec.content0, Exec.content1, h0, h1]
    exact ⟨rfl, rfl⟩
  have hempty : (d.path.state (c + 1 + (k + 1))).exec.content0 = [] ∧
      (d.path.state (c + 1 + (k + 1))).exec.content1 = [] := by
    rcases hend with h | ⟨-, h⟩
    · obtain ⟨L, hL, hd, -⟩ := h.landed
      obtain ⟨rfl, -⟩ := List.append_eq_nil_iff.1 hL.symm
      rw [deal_nil, Prod.mk.injEq] at hd
      rw [← Nat.add_assoc, Exec.content0, Exec.content1, h.resting.2.1.empty.held_eq,
        h.resting.2.2.empty.held_eq, ← hd.1, ← hd.2]
      exact ⟨rfl, rfl⟩
    · exact absurd (h.busy.symm.trans hnotBusy) (by simp)
  -- contents before the dispatch, taken in it, and nothing after it
  rw [ht0, hbegin.1, hempty.1, List.append_nil, List.nil_append] at hc0
  rw [ht1, hbegin.2, hempty.2, List.append_nil, List.nil_append] at hc1
  rw [← hc0, ← hc1, ← hsince, hdeal]
  exact ⟨rfl, rfl⟩

/-- An END alone is never handed over. -/
theorem not_taken_of_single (hone : d.seq.length < 2) (m : ℕ) : d.path.taken0 m = [] := by
  have hrest : d.rest 1 = [] := by
    rw [receiving_one.2.1]
    refine List.length_eq_zero_iff.1 ?_
    have : d.seq.instrs.length < 2 := hone
    rw [List.length_tail]
    omega
  have hstuck : ∀ k, d.Receiving (k + 1) ∧ d.rest (k + 1) = [] := by
    intro k
    induction k with
    | zero => exact ⟨receiving_one.1, hrest⟩
    | succ k ih =>
      rcases ih.1.next with ⟨-, hr, h⟩ | ⟨w, t, -, hr, -⟩
      · exact ⟨h, hr.trans ih.2⟩
      · rw [ih.2] at hr
        cases hr
  have hresting : ∀ k, (d.path.state k).exec.Resting := by
    intro k
    induction k with
    | zero => exact d.idle.1.resting
    | succ k ih =>
      refine ih.next ?_
      cases k with
      | zero => exact d.idle.2.2
      | succ k => exact (hstuck k).1.noPulse
  exact (PathRun.taken_of_resting fun k _ => hresting k).1

/-- **How long a sequence may be**: it is executed completely if and only
if it is of two instructions or more, and of twice the FIFOs' depth or
less. -/
theorem completes_iff (d : Delivery) :
    d.Completes ↔ 2 ≤ d.seq.length ∧ d.seq.length ≤ 2 * d.depth := by
  constructor
  · rintro ⟨hkept, m, h0, -⟩
    have htwo : 2 ≤ d.seq.length := by
      by_contra hlt
      rw [not_taken_of_single (by omega) m, List.prefix_nil, deal_fst_eq_nil] at h0
      exact d.seq.ne_nil h0
    exact ⟨htwo, length_le_of_kept hkept htwo⟩
  · rintro ⟨htwo, hle⟩
    obtain ⟨c, hrec, hdone, hpulse, hsince⟩ := exists_closed htwo
    have hfit := fits_of_length_le hle hrec hpulse hsince
    obtain ⟨m, h0, h1⟩ := exists_taken hrec hpulse hsince hfit
    refine ⟨fun k hk => ?_, m, by rw [h0], by rw [h1]⟩
    -- once the END has been taken nothing more is acknowledged
    have hlt : k < c := by
      by_contra hge
      rw [acks_eq, rest_eq_nil hdone (by omega)] at hk
      simp at hk
    exact hfit (k + 1) hlt

/-- `8192` instructions, the limit the README gives, offered without a
gap to a path at reset, with FIFOs two words deeper than configured. -/
def documentedLimit : Delivery where
  depth := 1026
  seq := {
    body := List.replicate 8191 0x81190005#32
    close := 0x00000000#32
    noEnd := fun w hw => by rw [List.eq_of_mem_replicate hw]; decide
    isEnd := by decide }
  start := Core.reset
  wave _ := { offer := true, maintEn := false, maintInstr := 0, periodicReadLock := false,
              dfiReady := true }
  idle := Core.idle_reset
  first := rfl
  offers n := ⟨n, le_rfl, rfl⟩
  ready n := ⟨n, le_rfl, rfl⟩

/-- **A sequence at the documented limit loses instructions.** -/
theorem documentedLimit_incomplete :
    documentedLimit.seq.length = 8192 ∧ ¬ documentedLimit.Completes := by
  have hlen : documentedLimit.seq.length = 8192 := by
    change (List.replicate 8191 _ ++ [_]).length = 8192
    rw [List.length_append, List.length_replicate, List.length_singleton]
  refine ⟨hlen, fun h => ?_⟩
  have hle := length_le_of_kept h.1 (by omega)
  have hdepth : documentedLimit.depth = 1026 := rfl
  omega

end Delivery

end SoftMC
