import SoftMC.Model.Core
import SoftMC.Dispatch.Queue
import SoftMC.Common.Deal
/-!
# The phases of the instruction path

The path is either buffering one sequence, the dispatcher at rest, or
dispatching it, the receiver idle and silent. While it buffers, the FIFOs
hold the sequence dealt, the write of the last instruction still in
flight. The invariant `Phase` carries the instructions buffered since the
last `process_iseq`; one step preserves it as long as no write meets a
full FIFO.
-/

namespace SoftMC

open Clocked

/-- Where an instruction comes from. -/
inductive Source
  | app
  | maint
  deriving DecidableEq, Repr

/-- The state in which a source's sequence is received. -/
def Source.state : Source → RecvState
  | .app => .app
  | .maint => .maint

/-- The END that closes a sequence is stored with it for the application
only. -/
def Source.endStored : Source → Instr → List Instr
  | .app, w => [w]
  | .maint, _ => []

/-! ## What a cycle of the receiver does -/

namespace Receiver

variable (r : Receiver) (i : In)

/-- The instruction handed over in the cycle: enable and acknowledgment of
its source are both high. -/
def accepted : Option (Source × Instr) :=
  if i.appEn && (r.comb i).appAck then some (.app, i.appInstr)
  else if i.maintEn && (r.comb i).maintAck then some (.maint, i.maintInstr)
  else none

/-- The instruction registered for the FIFOs in the cycle. -/
def stored : List Instr := if (r.comb i).instrEnNs then [(r.comb i).instrNs] else []

/-- The write the FIFOs see in the cycle. -/
def inFlight : List Instr := if r.instrEnR then [r.instrR] else []

/-- The outcomes of a cycle: nothing is accepted, a sequence is opened,
continued or closed. -/
inductive Outcome : Prop
  | quiet (acc : r.accepted i = none) (state : (r.comb i).stateNs = r.stateR)
      (store : r.stored i = []) (pulse : (r.comb i).processIseqNs = false)
  | opens (src : Source) (w : Instr) (idle : r.stateR = .idle) (ready : i.dispatcherReady = true)
      (still : r.processIseqR = false) (acc : r.accepted i = some (src, w))
      (state : (r.comb i).stateNs = src.state) (store : r.stored i = [w])
      (pulse : (r.comb i).processIseqNs = false)
  | continues (src : Source) (w : Instr) (now : r.stateR = src.state)
      (acc : r.accepted i = some (src, w)) (op : opcode w ≠ .endIseq)
      (state : (r.comb i).stateNs = src.state) (store : r.stored i = [w])
      (pulse : (r.comb i).processIseqNs = false)
  | closes (src : Source) (w : Instr) (now : r.stateR = src.state)
      (acc : r.accepted i = some (src, w)) (op : opcode w = .endIseq)
      (state : (r.comb i).stateNs = .idle)
      (store : r.stored i = src.endStored w) (pulse : (r.comb i).processIseqNs = true)

/-- **A cycle of the receiver has one of these outcomes.** -/
theorem outcome : r.Outcome i := by
  cases hs : r.stateR with
  | idle =>
    cases hg : i.dispatcherReady && !r.processIseqR with
    | false =>
      have hc : r.comb i = r.defaults := by simp [comb, hs, hg]
      exact .quiet (by simp [accepted, hc, defaults]) (by rw [hc]; rfl)
        (by simp [stored, hc, defaults]) (by rw [hc]; rfl)
    | true =>
      simp only [Bool.and_eq_true, Bool.not_eq_true'] at hg
      cases ha : i.appEn with
      | true =>
        -- the application comes first; its instruction is stored whatever it is
        exact .opens .app i.appInstr hs hg.1 hg.2 (by simp [accepted, comb, hs, hg, ha])
          (by simp [comb, hs, hg, ha, Source.state]) (by simp [stored, comb, hs, hg, ha])
          (by simp [comb, hs, hg, ha, defaults])
      | false =>
        cases hm : i.maintEn with
        | true =>
          exact .opens .maint i.maintInstr hs hg.1 hg.2
            (by simp [accepted, comb, hs, hg, ha, hm])
            (by simp [comb, hs, hg, ha, hm, Source.state])
            (by simp [stored, comb, hs, hg, ha, hm]) (by simp [comb, hs, hg, ha, hm, defaults])
        | false =>
          have hc : r.comb i = r.defaults := by simp [comb, hs, ha, hm]
          exact .quiet (by simp [accepted, hc, defaults]) (by rw [hc]; rfl)
            (by simp [stored, hc, defaults]) (by rw [hc]; rfl)
  | app =>
    cases ha : i.appEn with
    | false =>
      exact .quiet (by simp [accepted, comb, hs, ha, defaults])
        (by simp [comb, hs, ha, defaults]) (by simp [stored, comb, hs, ha])
        (by simp [comb, hs, ha, defaults])
    | true =>
      by_cases hop : opcode i.appInstr = .endIseq
      · exact .closes .app i.appInstr hs (by simp [accepted, comb, hs, ha, hop]) hop
          (by simp [comb, hs, ha, hop])
          (by simp [stored, comb, hs, ha, hop, Source.endStored]) (by simp [comb, hs, ha, hop])
      · exact .continues .app i.appInstr hs (by simp [accepted, comb, hs, ha, hop]) hop
          (by simp [comb, hs, ha, hop, defaults, Source.state])
          (by simp [stored, comb, hs, ha, hop]) (by simp [comb, hs, ha, hop, defaults])
  | maint =>
    -- what is on offer from the application waits until the visit is over
    have hack : (r.comb i).appAck = false := by
      simp only [comb, hs]; split <;> rfl
    cases hm : i.maintEn with
    | false =>
      exact .quiet (by simp [accepted, hack, hm])
        (by simp [comb, hs, hm, defaults]) (by simp [stored, comb, hs, hm])
        (by simp [comb, hs, hm, defaults])
    | true =>
      by_cases hop : opcode i.maintInstr = .endIseq
      · exact .closes .maint i.maintInstr hs
          (by simp [accepted, hack]; simp [comb, hs, hm, hop]) hop
          (by simp [comb, hs, hm, hop])
          (by simp [stored, comb, hs, hm, hop, Source.endStored]) (by simp [comb, hs, hm, hop])
      · exact .continues .maint i.maintInstr hs
          (by simp [accepted, hack]; simp [comb, hs, hm, hop]) hop
          (by simp [comb, hs, hm, hop, defaults, Source.state])
          (by simp [stored, comb, hs, hm, hop]) (by simp [comb, hs, hm, hop, defaults])

/-- An application's first instruction is taken unseen. -/
theorem comb_idle_app (h : r.stateR = .idle) (hr : i.dispatcherReady = true)
    (hp : r.processIseqR = false) (ha : i.appEn = true) :
    r.comb i = { r.defaults with stateNs := .app, instrEnNs := true, instrNs := i.appInstr,
                                 appAck := true } := by
  simp [comb, h, hr, hp, ha]

/-- In `STATE_APP` every instruction offered is taken, and an END closes
the sequence. -/
theorem comb_app (h : r.stateR = .app) :
    (r.comb i).appAck = true ∧ r.stored i = (if i.appEn then [i.appInstr] else []) ∧
      (r.comb i).processIseqNs = (i.appEn && decide (opcode i.appInstr = .endIseq)) ∧
      (r.comb i).stateNs =
        if i.appEn && decide (opcode i.appInstr = .endIseq) then .idle else .app := by
  cases ha : i.appEn <;> by_cases hop : opcode i.appInstr = .endIseq <;>
    simp [comb, stored, h, ha, hop, defaults]

/-- In `STATE_MAINT` likewise, but the END is not stored. -/
theorem comb_maint (h : r.stateR = .maint) :
    (r.comb i).maintAck = true ∧
      r.stored i =
        (if i.maintEn && !decide (opcode i.maintInstr = .endIseq) then [i.maintInstr] else []) ∧
      (r.comb i).processIseqNs = (i.maintEn && decide (opcode i.maintInstr = .endIseq)) ∧
      (r.comb i).stateNs =
        if i.maintEn && decide (opcode i.maintInstr = .endIseq) then .idle else .maint := by
  cases hm : i.maintEn <;> by_cases hop : opcode i.maintInstr = .endIseq <;>
    simp [comb, stored, h, hm, hop, defaults]

/-- A maintenance sequence is opened by its first instruction, taken unseen
in `STATE_IDLE` from a dispatcher that is ready. -/
theorem comb_of_ne_maint (h : r.stateR ≠ .maint) :
    ((r.comb i).stateNs = .maint ∧ (r.comb i).maintAck = true ∧ r.stateR = .idle ∧
        r.processIseqR = false ∧ i.dispatcherReady = true ∧ i.maintEn = true ∧
        r.stored i = [i.maintInstr]) ∨
      ((r.comb i).stateNs ≠ .maint ∧ (r.comb i).maintAck = false) := by
  cases hs : r.stateR with
  | maint => exact absurd hs h
  | app =>
    right
    cases ha : i.appEn <;> by_cases hop : opcode i.appInstr = .endIseq <;>
      simp [comb, hs, ha, hop, defaults]
  | idle =>
    cases hg : i.dispatcherReady && !r.processIseqR with
    | false => right; simp [comb, hs, hg, defaults]
    | true =>
      simp only [Bool.and_eq_true, Bool.not_eq_true'] at hg
      cases ha : i.appEn <;> cases hm : i.maintEn <;> simp [comb, stored, hs, hg, ha, hm, defaults]

/-- The instruction registered in a cycle is in flight in the next. -/
theorem inFlight_next : (Receiver.next false r i).inFlight = r.stored i := rfl

/-- `P` is dealt to the FIFOs but for the instruction in flight, which
`sel_fifo` sends where it belongs. -/
def Landed (r : Receiver) (q0 q1 P : List Instr) : Prop :=
  ∃ L, P = L ++ r.inFlight ∧ deal L = (q0, q1) ∧ r.selFifo = decide (L.length % 2 = 1)

variable {r i} {q0 q1 P : List Instr}

/-- The write in flight completes the deal. -/
theorem Landed.lands (h : r.Landed q0 q1 P) :
    deal P = (q0 ++ r.instr0Fifo.toList, q1 ++ r.instr1Fifo.toList) := by
  obtain ⟨L, rfl, hdeal, hsel⟩ := h
  unfold inFlight instr0Fifo instr1Fifo
  cases hen : r.instrEnR with
  | false => simp [hdeal]
  | true =>
    simp only [if_true, deal_concat, hdeal, Bool.and_true, hsel]
    by_cases hpar : L.length % 2 = 0
    · rw [if_pos hpar]; simp [hpar]
    · rw [if_neg hpar]; simp [show L.length % 2 = 1 by omega]

/-- And the next instruction is in flight behind it. -/
theorem Landed.next (h : r.Landed q0 q1 P) (hp : r.processIseqR = false) :
    (Receiver.next false r i).Landed (q0 ++ r.instr0Fifo.toList) (q1 ++ r.instr1Fifo.toList)
      (P ++ r.stored i) := by
  refine ⟨P, by rw [inFlight_next], h.lands, ?_⟩
  obtain ⟨L, rfl, hdeal, hsel⟩ := h
  simp only [Receiver.next, hp, Bool.false_eq_true, if_false, inFlight]
  by_cases hen : r.instrEnR = true
  · simp only [hen, if_true, hsel, List.length_append, List.length_singleton]
    rcases Nat.mod_two_eq_zero_or_one L.length with hpar | hpar
    · simp [hpar, show (L.length + 1) % 2 = 1 by omega]
    · simp [hpar, show (L.length + 1) % 2 = 0 by omega]
  · simp [hen, hsel]

end Receiver

/-! ## The phases -/

namespace Exec

variable {D : Option ℕ} {e : Exec} {i : In}

/-- Nothing is read from the FIFOs while the dispatcher rests. -/
theorem fifos_next_of_resting (h : e.Resting) (hf : Fits D e i) :
    (Exec.next D e i).fifo0 = e.fifo0 ++ i.wr0.toList ∧
      (Exec.next D e i).fifo1 = e.fifo1 ++ i.wr1.toList := by
  have h0 := content0_next h.sound hf
  have h1 := content1_next h.sound hf
  obtain ⟨hi0, hi1⟩ := idle_next_of_not_busy (D := D) (i := i) h.1 h.2.1.empty h.2.2.empty
  have ht0 : (e.taken0 i).toList = [] := by simp [toList_taken0, h.2.1.1]
  have ht1 : (e.taken1 i).toList = [] := by simp [toList_taken1, h.2.2.1]
  rw [ht0, List.nil_append, content0, content0, h.2.1.empty.held_eq, hi0.empty.held_eq] at h0
  rw [ht1, List.nil_append, content1, content1, h.2.2.empty.held_eq, hi1.empty.held_eq] at h1
  exact ⟨h0.symm, h1.symm⟩

theorem Resting.next (h : e.Resting) (hp : i.processIseq = false) :
    (Exec.next D e i).Resting :=
  ⟨by rw [busy_next, hp, h.1]; rfl, idle_next_of_not_busy h.1 h.2.1.empty h.2.2.empty⟩

/-- The pulse starts the dispatch. -/
theorem Resting.loading (h : e.Resting) (hp : i.processIseq = true) :
    (Exec.next D e i).Loading :=
  ⟨by rw [busy_next, hp]; rfl, idle_next_of_not_busy h.1 h.2.1.empty h.2.2.empty⟩

end Exec

namespace Core

variable (c : Core) (i : In)

/-- What is accepted and what is stored in the cycle. -/
def accepted : Option (Source × Instr) := c.recv.accepted (c.recvIn i)
def stored : List Instr := c.recv.stored (c.recvIn i)

/-- **Buffering** the instructions `P`: the dispatcher rests, and the
receiver has closed the sequence only with its `process_iseq`. -/
structure Buffering (c : Core) (P : List Instr) : Prop where
  resting : c.exec.Resting
  landed : c.recv.Landed c.exec.fifo0 c.exec.fifo1 P
  idle : c.recv.stateR = .idle → c.recv.processIseqR = false → P = []
  opened : c.recv.stateR ≠ .idle → c.recv.processIseqR = false ∧ P ≠ []
  closed : c.recv.processIseqR = true → P ≠ []

/-- **Dispatching**: the receiver waits, with nothing in flight. -/
structure Dispatching (c : Core) : Prop where
  busy : c.exec.iseq.dispatcherBusyR = true
  idle : c.recv.stateR = .idle
  noPulse : c.recv.processIseqR = false
  noWrite : c.recv.instrEnR = false
  sel : c.recv.selFifo = false
  exec : c.exec.Loading ∨ c.exec.Flowing

/-- **The invariant of the path**, with the instructions buffered since
the last `process_iseq`. -/
def Phase (c : Core) (P : List Instr) : Prop := c.Buffering P ∨ (P = [] ∧ c.Dispatching)

/-- What has been buffered after the cycle. -/
def buffered (P : List Instr) : List Instr :=
  (if c.recv.processIseqR then [] else P) ++ c.stored i

/-- At rest: nothing received, nothing to dispatch. -/
def Idle (c : Core) : Prop :=
  c.Buffering [] ∧ c.recv.stateR = .idle ∧ c.recv.processIseqR = false

theorem idle_reset : reset.Idle := by
  refine ⟨⟨⟨rfl, PipeReg.idle_reset, PipeReg.idle_reset⟩, ⟨[], rfl, rfl, rfl⟩, ?_, ?_, ?_⟩, rfl, rfl⟩
  · exact fun _ _ => rfl
  · exact fun h => absurd rfl h
  · exact fun h => by cases h

variable {c i} {P : List Instr} {D : Option ℕ}

/-- Nothing is written while nothing is in flight. -/
theorem no_write_of_not_en (h : c.recv.instrEnR = false) :
    (c.execIn i).wr0 = none ∧ (c.execIn i).wr1 = none := by
  simp [execIn, Receiver.instr0Fifo, Receiver.instr1Fifo, h]

theorem Dispatching.no_write (h : c.Dispatching) :
    (c.execIn i).wr0 = none ∧ (c.execIn i).wr1 = none := no_write_of_not_en h.noWrite

/-- A dispatcher at work is not at rest. -/
theorem Dispatching.not_resting (h : c.Dispatching) : ¬ c.exec.Resting := by
  intro hrest
  exact absurd (hrest.1.symm.trans h.busy) (by simp)

/-- During a dispatch nothing is buffered. -/
theorem Dispatching.eq_nil {P : List Instr} (h : c.Dispatching) (hphase : c.Phase P) : P = [] := by
  rcases hphase with hb | ⟨hnil, -⟩
  · exact absurd hb.resting h.not_resting
  · exact hnil

/-- While the dispatcher is busy nothing is accepted. -/
theorem Dispatching.quiet (h : c.Dispatching) : c.recv.comb (c.recvIn i) = c.recv.defaults := by
  simp [Receiver.comb, h.idle, recvIn, h.busy]

theorem Dispatching.stored (h : c.Dispatching) : c.stored i = [] := by
  simp [Core.stored, Receiver.stored, h.quiet, Receiver.defaults]

/-- A step of the dispatch goes on with it or comes to rest. -/
theorem Dispatching.next (h : c.Dispatching) : (Core.next D c i).Phase [] := by
  have hflow : (Core.next D c i).exec.Flowing := by
    rcases h.exec with hl | hf
    · exact hl.next h.no_write.1 h.no_write.2
    · exact hf.next h.noPulse h.no_write.1 h.no_write.2
  have hcomb := h.quiet (i := i)
  have hstate : (Core.next D c i).recv.stateR = .idle := by
    simp [Core.next, Receiver.next, hcomb, Receiver.defaults, h.idle]
  have hpulse : (Core.next D c i).recv.processIseqR = false := by
    simp [Core.next, Receiver.next, hcomb, Receiver.defaults]
  have hwrite : (Core.next D c i).recv.instrEnR = false := by
    simp [Core.next, Receiver.next, hcomb, Receiver.defaults]
  have hsel : (Core.next D c i).recv.selFifo = false := by
    simp [Core.next, Receiver.next, h.noPulse, h.noWrite, h.sel]
  cases hb : (Core.next D c i).exec.iseq.dispatcherBusyR with
  | true => exact Or.inr ⟨rfl, hb, hstate, hpulse, hwrite, hsel, Or.inr hflow⟩
  | false =>
    obtain ⟨hrest, hq0, hq1⟩ := hflow.resting hb
    refine Or.inl ⟨hrest, ⟨[], ?_, ?_, hsel⟩, fun _ _ => rfl, ?_, ?_⟩
    · simp [Receiver.inFlight, hwrite]
    · rw [hq0, hq1]; rfl
    · exact fun hne => absurd hstate hne
    · exact fun hp => by rw [hpulse] at hp; cases hp

/-- The receiver pulses in its idle state, and takes nothing then. -/
theorem Buffering.idle_of_pulse (h : c.Buffering P) (hp : c.recv.processIseqR = true) :
    c.recv.stateR = .idle := by
  by_contra hne
  rw [(h.opened hne).1] at hp
  cases hp

theorem Buffering.quiet_of_pulse (h : c.Buffering P) (hp : c.recv.processIseqR = true) :
    c.recv.comb (c.recvIn i) = c.recv.defaults := by
  simp [Receiver.comb, h.idle_of_pulse hp, hp]

theorem Buffering.stored_of_pulse (h : c.Buffering P) (hp : c.recv.processIseqR = true) :
    c.stored i = [] := by
  simp [Core.stored, Receiver.stored, h.quiet_of_pulse hp, Receiver.defaults]

/-- What fits two FIFOs of the given depth is written without loss. -/
theorem Buffering.fits (h : c.Buffering P) {n : ℕ} (hlen : P.length ≤ 2 * n) :
    Exec.Fits (some n) c.exec (c.execIn i) := by
  obtain ⟨L, rfl, hdeal, hsel⟩ := h.landed
  obtain ⟨hl0, hl1⟩ := deal_length L
  simp only [hdeal] at hl0 hl1
  have hwrite : c.recv.instrEnR = true → L.length + 1 ≤ 2 * n := by
    intro hen
    rw [List.length_append, Receiver.inFlight, if_pos hen, List.length_singleton] at hlen
    exact hlen
  constructor
  · intro hw
    cases hs : c.recv.selFifo <;> cases hen : c.recv.instrEnR
    case false.true =>
      have := hwrite hen
      rw [hs] at hsel
      have heven : ¬ L.length % 2 = 1 := of_decide_eq_false hsel.symm
      simp only [fifoFull, Option.any_some, decide_eq_false_iff_not]
      omega
    all_goals exact absurd (by simp [execIn, Receiver.instr0Fifo, hs, hen]) hw
  · intro hw
    cases hs : c.recv.selFifo <;> cases hen : c.recv.instrEnR
    case true.true =>
      have := hwrite hen
      simp only [fifoFull, Option.any_some, decide_eq_false_iff_not]
      omega
    all_goals exact absurd (by simp [execIn, Receiver.instr1Fifo, hs, hen]) hw

/-- The pulse starts a dispatch. -/
theorem dispatching_of_pulse (hrest : c.exec.Resting) (hidle : c.recv.stateR = .idle)
    (hp : c.recv.processIseqR = true) : (Core.next D c i).Dispatching := by
  have hcomb : c.recv.comb (c.recvIn i) = c.recv.defaults := by simp [Receiver.comb, hidle, hp]
  have hload : (Core.next D c i).exec.Loading := hrest.loading hp
  refine ⟨hload.1, ?_, ?_, ?_, ?_, Or.inl hload⟩
  · simp [Core.next, Receiver.next, hcomb, Receiver.defaults, hidle]
  · simp [Core.next, Receiver.next, hcomb, Receiver.defaults]
  · simp [Core.next, Receiver.next, hcomb, Receiver.defaults]
  · simp [Core.next, Receiver.next, hp]

/-- The pulse hands the sequence over. -/
theorem Buffering.next_of_pulse (h : c.Buffering P) (hf : Exec.Fits D c.exec (c.execIn i))
    (hp : c.recv.processIseqR = true) :
    (Core.next D c i).Dispatching ∧
      deal P = ((Core.next D c i).exec.fifo0, (Core.next D c i).exec.fifo1) := by
  refine ⟨dispatching_of_pulse h.resting (h.idle_of_pulse hp) hp, ?_⟩
  obtain ⟨hq0, hq1⟩ := Exec.fifos_next_of_resting h.resting hf
  rw [h.landed.lands]
  exact (Prod.mk.injEq ..).mpr ⟨hq0.symm, hq1.symm⟩

/-- Without the pulse the path goes on buffering. -/
theorem Buffering.next_of_not_pulse (h : c.Buffering P) (hf : Exec.Fits D c.exec (c.execIn i))
    (hp : c.recv.processIseqR = false) : (Core.next D c i).Buffering (P ++ c.stored i) := by
  obtain ⟨hq0, hq1⟩ := Exec.fifos_next_of_resting h.resting hf
  have hlanded : (Core.next D c i).recv.Landed (Core.next D c i).exec.fifo0
      (Core.next D c i).exec.fifo1 (P ++ c.stored i) := by
    have hl := h.landed.next (i := c.recvIn i) hp
    rw [show (Core.next D c i).exec.fifo0 = _ from hq0, show (Core.next D c i).exec.fifo1 = _ from hq1]
    exact hl
  have hstate : (Core.next D c i).recv.stateR = (c.recv.comb (c.recvIn i)).stateNs := rfl
  have hpulse : (Core.next D c i).recv.processIseqR = (c.recv.comb (c.recvIn i)).processIseqNs := rfl
  -- the three conditions on the receiver, by its outcome of the cycle
  refine ⟨h.resting.next hp, hlanded, ?_, ?_, ?_⟩
  all_goals simp only [hstate, hpulse]
  · intro hi hn
    rcases c.recv.outcome (c.recvIn i) with ⟨-, hs, hst, -⟩ | ⟨src, w, -, -, -, -, hs, -, -⟩ |
      ⟨src, w, -, -, -, hs, -, -⟩ | ⟨src, w, -, -, -, -, -, hpl⟩
    · rw [hs] at hi
      rw [h.idle hi hp, List.nil_append]
      exact hst
    · rw [hs] at hi; cases src <;> cases hi
    · rw [hs] at hi; cases src <;> cases hi
    · rw [hpl] at hn; cases hn
  · intro hne
    rcases c.recv.outcome (c.recvIn i) with ⟨-, hs, hst, hpl⟩ | ⟨src, w, -, -, -, -, hs, hst, hpl⟩ |
      ⟨src, w, -, -, -, hs, hst, hpl⟩ | ⟨src, w, -, -, -, hs, -, -⟩
    · rw [hs] at hne
      refine ⟨hpl, ?_⟩
      rw [Core.stored, hst, List.append_nil]
      exact (h.opened hne).2
    · exact ⟨hpl, by rw [Core.stored, hst]; simp⟩
    · exact ⟨hpl, by rw [Core.stored, hst]; simp⟩
    · exact absurd hs hne
  · intro hpl
    rcases c.recv.outcome (c.recvIn i) with ⟨-, -, -, hn⟩ | ⟨src, w, -, -, -, -, -, -, hn⟩ |
      ⟨src, w, -, -, -, -, -, hn⟩ | ⟨src, w, hnow, -, -, -, -, -⟩
    · rw [hn] at hpl; cases hpl
    · rw [hn] at hpl; cases hpl
    · rw [hn] at hpl; cases hpl
    · have hne : c.recv.stateR ≠ .idle := by rw [hnow]; cases src <;> simp [Source.state]
      exact List.append_ne_nil_of_left_ne_nil (h.opened hne).2 _

/-- **One step keeps the phase**, as long as no write meets a full FIFO. -/
theorem Phase.next (h : c.Phase P) (hf : Exec.Fits D c.exec (c.execIn i)) :
    (Core.next D c i).Phase (c.buffered i P) := by
  rcases h with hb | ⟨rfl, hd⟩
  · cases hp : c.recv.processIseqR with
    | true =>
      simp only [buffered, hp, if_true, hb.stored_of_pulse hp, List.append_nil]
      exact Or.inr ⟨rfl, (hb.next_of_pulse hf hp).1⟩
    | false =>
      simp only [buffered, hp, Bool.false_eq_true, if_false]
      exact Or.inl (hb.next_of_not_pulse hf hp)
  · simp only [buffered, hd.noPulse, Bool.false_eq_true, if_false, hd.stored, List.append_nil]
    exact hd.next

/-! ## Whatever the FIFOs discard -/

/-- At rest: the dispatcher does nothing; the receiver has started its
dispatch, holds a sequence open, or has nothing. -/
structure AtRest (c : Core) : Prop where
  resting : c.exec.Resting
  idle : c.recv.processIseqR = true → c.recv.stateR = .idle
  fresh : c.recv.stateR = .idle → c.recv.processIseqR = false → c.Buffering []

/-- **Who has the path**: the dispatcher rests, or it dispatches with the
receiver silent. This much holds where writes meet full FIFOs, too. -/
def Mode (c : Core) : Prop := c.AtRest ∨ c.Dispatching

theorem Idle.atRest (h : c.Idle) : c.AtRest :=
  ⟨h.1.resting, h.1.idle_of_pulse, fun _ _ => h.1⟩

theorem Mode.sound (h : c.Mode) : c.exec.Sound := by
  rcases h with h | h
  · exact h.resting.sound
  · exact h.exec.elim Exec.Loading.sound Exec.Flowing.sound

/-- The words between receiver and dispatcher. -/
def Holds (c : Core) (w : Instr) : Prop :=
  (w ∈ c.exec.content0 ∨ w ∈ c.exec.content1) ∨ w ∈ c.recv.inFlight

/-- A FIFO is written with the word in flight. -/
theorem mem_inFlight_of_write {w : Instr}
    (h : (c.execIn i).wr0 = some w ∨ (c.execIn i).wr1 = some w) : w ∈ c.recv.inFlight := by
  have hwrite : ∀ b : Bool, (if b && c.recv.instrEnR then some c.recv.instrR else none) = some w →
      w ∈ c.recv.inFlight := by
    intro b hb
    split at hb
    · rename_i hen
      rw [Receiver.inFlight, if_pos (Bool.and_eq_true_iff.1 hen).2, ← Option.some.inj hb]
      exact List.mem_singleton_self _
    · cases hb
  exact h.elim (hwrite _) (hwrite _)

/-- Every word held was held or has just been stored. -/
theorem holds_next (hs : c.exec.Sound) {w : Instr} (h : (Core.next D c i).Holds w) :
    c.Holds w ∨ w ∈ c.stored i := by
  rcases h with h | h
  · left
    exact (Exec.mem_contents_next hs h).imp id mem_inFlight_of_write
  · exact Or.inr h

/-- With nothing buffered the FIFOs are empty and nothing is in flight. -/
theorem Buffering.empty (h : c.Buffering []) :
    c.exec.fifo0 = [] ∧ c.exec.fifo1 = [] ∧ c.recv.inFlight = [] := by
  obtain ⟨L, hL, hdeal, -⟩ := h.landed
  obtain ⟨rfl, hfl⟩ := List.append_eq_nil_iff.1 hL.symm
  obtain ⟨h0, h1⟩ := Prod.mk.inj hdeal
  exact ⟨h0.symm, h1.symm, hfl⟩

/-- Nothing is held at rest. -/
theorem Buffering.not_holds (h : c.Buffering []) (w : Instr) : ¬ c.Holds w := by
  obtain ⟨h0, h1, hfl⟩ := h.empty
  simp [Holds, Exec.content0, Exec.content1, h.resting.2.1.empty.held_eq,
    h.resting.2.2.empty.held_eq, h0, h1, hfl]

theorem Mode.next (h : c.Mode) : (Core.next D c i).Mode := by
  rcases h with hrest | hd
  · cases hp : c.recv.processIseqR with
    | true => exact Or.inr (dispatching_of_pulse hrest.resting (hrest.idle hp) hp)
    | false =>
      refine Or.inl ⟨hrest.resting.next hp, fun hpl => ?_, fun hi hn => ?_⟩
      · rcases c.recv.outcome (c.recvIn i) with ⟨-, -, -, hn⟩ | ⟨src, w, -, -, -, -, -, -, hn⟩ |
          ⟨src, w, -, -, -, -, -, hn⟩ | ⟨src, w, -, -, -, hs, -, -⟩
        · exact absurd (hn.symm.trans hpl) Bool.false_ne_true
        · exact absurd (hn.symm.trans hpl) Bool.false_ne_true
        · exact absurd (hn.symm.trans hpl) Bool.false_ne_true
        · exact hs
      · rcases c.recv.outcome (c.recvIn i) with ⟨-, hs, hst, -⟩ |
          ⟨src, w, -, -, -, -, hs, -, -⟩ | ⟨src, w, -, -, -, hs, -, -⟩ |
          ⟨src, w, -, -, -, -, -, hpl⟩
        · have hb := hrest.fresh (hs.symm.trans hi) hp
          have hen : c.recv.instrEnR = false := by
            by_contra hen
            refine hb.not_holds c.recv.instrR (Or.inr ?_)
            rw [Receiver.inFlight, if_pos (Bool.not_eq_false _ ▸ hen)]
            exact List.mem_singleton_self _
          have hnw := no_write_of_not_en (i := i) hen
          have hb' := hb.next_of_not_pulse (D := D) (i := i)
            (Exec.fits_of_no_write hnw.1 hnw.2) hp
          rw [Core.stored, hst] at hb'
          exact hb'
        · have hi' := hs.symm.trans hi; cases src <;> cases hi'
        · have hi' := hs.symm.trans hi; cases src <;> cases hi'
        · exact absurd (hpl.symm.trans hn) (by simp)
  · rcases hd.next (D := D) (i := i) with hb | ⟨-, hd'⟩
    · exact Or.inl ⟨hb.resting, hb.idle_of_pulse, fun _ _ => hb⟩
    · exact Or.inr hd'

/-- **A read is acknowledged while the dispatcher is still busy.** -/
theorem Mode.busy_of_ack (h : c.Mode)
    (hack : (Core.next D c i).exec.iseq.disp.prRdAckR = true) :
    (Core.next D c i).exec.iseq.dispatcherBusyR = true := by
  have hcomb := congrArg Dispatcher.Command.prRdAckNs
    (Dispatcher.comb_command (s := c.exec.iseq.disp) (i := c.exec.dispIn (c.execIn i)))
  have hreads : (c.exec.iseq.disp.reads0 (c.exec.dispIn (c.execIn i)) ||
      c.exec.iseq.disp.reads1 (c.exec.dispIn (c.execIn i))) = true := hcomb.symm.trans hack
  have hvalid : ¬ (c.exec.iseq.instr0Reg.rValid1 = false ∧ c.exec.iseq.instr1Reg.rValid1 = false) := by
    rintro ⟨h0, h1⟩
    obtain ⟨hi0, hi1⟩ := Dispatcher.issue_of_empty (s := c.exec.iseq.disp)
      (i := c.exec.dispIn (c.execIn i)) h0 h1
    rw [Dispatcher.reads0, Dispatcher.reads1, hi0, hi1] at hreads
    cases hreads
  rcases h with hrest | hd
  · exact absurd ⟨hrest.resting.2.1.1, hrest.resting.2.2.1⟩ hvalid
  · rcases hd.exec with hl | hf
    · exact absurd ⟨hl.2.1.1, hl.2.2.1⟩ hvalid
    · by_contra hb
      obtain ⟨h0, h1⟩ := (hf.busy_next (D := D) (i := c.execIn i) hd.noPulse).1
        (Bool.eq_false_iff.2 hb)
      exact hvalid ⟨hf.pipe0.valid_iff.2 h0, hf.pipe1.valid_iff.2 h1⟩

end Core

end SoftMC
