import SoftMC.Path.Phases
/-!
# What closes a sequence

The receiver fed by the application alone. It looks for an END where it
goes on with a sequence, not where it opens one: an END in front is taken
for the first instruction of a sequence that is still to come.
-/

namespace SoftMC

open Clocked

/-- A stream cut behind each END: the complete units and the rest. -/
def cut (l : List Instr) : List (List Instr) × List Instr :=
  l.foldl (fun c w =>
    if opcode w = .endIseq then (c.1 ++ [c.2 ++ [w]], []) else (c.1, c.2 ++ [w])) ([], [])

theorem cut_concat (l : List Instr) (w : Instr) :
    cut (l ++ [w]) =
      if opcode w = .endIseq then ((cut l).1 ++ [(cut l).2 ++ [w]], [])
      else ((cut l).1, (cut l).2 ++ [w]) := by
  rw [cut, List.foldl_append]
  rfl

/-- **A run of the receiver** from reset, with no maintenance: a waveform
of the dispatcher's ready, of the application's enable and instruction. -/
structure ReceiverRun where
  ready : ℕ → Bool
  appEn : ℕ → Bool
  appInstr : ℕ → Instr

namespace ReceiverRun

variable (r : ReceiverRun)

/-- The receiver's inputs in cycle `n`. -/
def recvIn (n : ℕ) : Receiver.In where
  dispatcherReady := r.ready n
  appEn := r.appEn n
  appInstr := r.appInstr n
  maintEn := false
  maintInstr := 0

/-- The registers at the start of cycle `n`. -/
def state (n : ℕ) : Receiver := run (Receiver.next false) Receiver.reset r.recvIn n

/-- The instruction accepted in cycle `n`: enable and acknowledgment are
both high. -/
def accepted (n : ℕ) : List Instr :=
  if r.appEn n && ((r.state n).comb (r.recvIn n)).appAck then [r.appInstr n] else []

/-- The stream accepted before cycle `n`. -/
def stream (n : ℕ) : List Instr := trace r.accepted n

/-- `process_iseq` in cycle `n`. -/
def pulse (n : ℕ) : Bool := (r.state n).processIseqR

/-- What the FIFOs are written in cycle `n`, and what they have been
written since the last `process_iseq`. -/
def written (n : ℕ) : List Instr :=
  (r.state n).instr0Fifo.toList ++ (r.state n).instr1Fifo.toList

def filled : ℕ → List Instr
  | 0 => []
  | n + 1 => if r.pulse n then [] else filled n ++ r.written n

/-- The units dispatched before cycle `n`: what the FIFOs hold at each
`process_iseq`. -/
def units : ℕ → List (List Instr)
  | 0 => []
  | n + 1 => if r.pulse n then units n ++ [r.filled n ++ r.written n] else units n

/-- **Every END closes one sequence.** -/
structure ClosesEach : Prop where
  /-- An END accepted pulses `process_iseq` in the next cycle, and nothing
  else does. -/
  pulses : ∀ n, r.pulse (n + 1) = true ↔ ∃ w ∈ r.accepted n, opcode w = .endIseq
  /-- The units dispatched are the stream cut behind each END. -/
  cuts : ∀ n, r.units (n + 1) = (cut (r.stream n)).1
  /-- Behind an END the receiver is in `STATE_IDLE`. -/
  idles : ∀ n, ∀ w ∈ r.accepted n, opcode w = .endIseq → (r.state (n + 1)).stateR = .idle

/-- In cycle `n` an END is accepted in `STATE_IDLE`, as the first
instruction of a sequence. -/
def opensWithEnd (n : ℕ) : Prop :=
  (r.state n).stateR = .idle ∧ ∃ w ∈ r.accepted n, opcode w = .endIseq

variable {r}

/-- The write is the acceptance a cycle late. -/
theorem written_succ (n : ℕ) :
    r.written (n + 1) = (r.state n).stored (r.recvIn n) := by
  have hone : ∀ s : Receiver, s.instr0Fifo.toList ++ s.instr1Fifo.toList = s.inFlight := by
    intro s
    unfold Receiver.instr0Fifo Receiver.instr1Fifo Receiver.inFlight
    cases s.selFifo <;> cases s.instrEnR <;> rfl
  rw [written, hone]
  rfl

/-- What a cycle of the receiver does, fed by the application alone. -/
inductive Outcome (r : ReceiverRun) (n : ℕ) : Prop
  | quiet (acc : r.accepted n = []) (state : (r.state (n + 1)).stateR = (r.state n).stateR)
      (store : r.written (n + 1) = []) (pulse : r.pulse (n + 1) = false)
  | opens (w : Instr) (idle : (r.state n).stateR = .idle) (still : r.pulse n = false)
      (acc : r.accepted n = [w]) (store : r.written (n + 1) = [w])
      (state : (r.state (n + 1)).stateR = .app) (pulse : r.pulse (n + 1) = false)
  | continues (w : Instr) (now : (r.state n).stateR = .app) (acc : r.accepted n = [w])
      (op : opcode w ≠ .endIseq) (store : r.written (n + 1) = [w])
      (state : (r.state (n + 1)).stateR = .app) (pulse : r.pulse (n + 1) = false)
  | closes (w : Instr) (now : (r.state n).stateR = .app) (acc : r.accepted n = [w])
      (op : opcode w = .endIseq) (store : r.written (n + 1) = [w])
      (state : (r.state (n + 1)).stateR = .idle) (pulse : r.pulse (n + 1) = true)

/-- **A cycle has one of these outcomes.** -/
theorem outcome (n : ℕ) : r.Outcome n := by
  have hacc : ∀ o, (r.state n).accepted (r.recvIn n) = o →
      r.accepted n = (o.map Prod.snd).toList ∧ ∀ x ∈ o, x.1 = Source.app := by
    rintro o rfl
    unfold accepted Receiver.accepted
    change _ = (Option.map _ (if (r.appEn n && _) = true then _ else if (false && _) = true then _
      else _)).toList ∧ _
    cases r.appEn n && ((r.state n).comb (r.recvIn n)).appAck with
    | true => exact ⟨rfl, by simp [recvIn]⟩
    | false => exact ⟨rfl, by simp [recvIn]⟩
  rcases (r.state n).outcome (r.recvIn n) with ⟨ha, hs, hst, hp⟩ |
    ⟨src, w, hidle, -, hstill, ha, hs, hst, hp⟩ | ⟨src, w, hnow, ha, hop, hs, hst, hp⟩ |
    ⟨src, w, hnow, ha, hop, hs, hst, hp⟩
  · exact .quiet (hacc _ ha).1 hs ((written_succ n).trans hst) hp
  · obtain rfl : src = .app := (hacc _ ha).2 _ rfl
    exact .opens w hidle hstill (hacc _ ha).1 ((written_succ n).trans hst) hs hp
  · obtain rfl : src = .app := (hacc _ ha).2 _ rfl
    exact .continues w hnow (hacc _ ha).1 hop ((written_succ n).trans hst) hs hp
  · obtain rfl : src = .app := (hacc _ ha).2 _ rfl
    exact .closes w hnow (hacc _ ha).1 hop ((written_succ n).trans hst) hs hp

/-- **Where no sequence is opened by an END**, the stream is cut into what
has been dispatched and what the FIFOs hold. -/
theorem cut_stream (h : ∀ n, ¬ r.opensWithEnd n) (n : ℕ) :
    (r.pulse n = true → (r.state n).stateR = .idle) ∧
      cut (r.stream n) =
        if r.pulse n then (r.units n ++ [r.filled n ++ r.written n], [])
        else (r.units n, r.filled n ++ r.written n) := by
  induction n with
  | zero => exact ⟨fun hp => absurd hp Bool.false_ne_true, rfl⟩
  | succ n ih =>
    obtain ⟨hidle, hcut⟩ := ih
    -- a pulse finds the receiver idle, so no sequence goes on in its cycle
    have hstill : (r.state n).stateR = .app → r.pulse n = false := by
      intro hs
      rw [← Bool.not_eq_true]
      intro hp
      rw [hidle hp] at hs
      cases hs
    have hstream : r.stream (n + 1) = r.stream n ++ r.accepted n := rfl
    rw [hstream, filled, units]
    rcases outcome (r := r) n with ⟨hacc, -, hst, hp⟩ | ⟨w, hs, hstill, hacc, hst, -, hp⟩ |
      ⟨w, hs, hacc, hop, hst, -, hp⟩ | ⟨w, hs, hacc, hop, hst, hs', hp⟩
    · refine ⟨fun hp' => absurd (hp.symm.trans hp') (by simp), ?_⟩
      rw [hacc, hst, hp, List.append_nil, List.append_nil, hcut, if_neg Bool.false_ne_true]
      cases r.pulse n <;> rfl
    · -- opened, and not by an END
      have hop : opcode w ≠ .endIseq := fun hop =>
        h n ⟨hs, w, by rw [hacc]; exact List.mem_singleton_self w, hop⟩
      refine ⟨fun hp' => absurd (hp.symm.trans hp') (by simp), ?_⟩
      rw [hacc, hst, hp, hstill, cut_concat, if_neg hop, hcut, hstill]
      rfl
    · refine ⟨fun hp' => absurd (hp.symm.trans hp') (by simp), ?_⟩
      rw [hacc, hst, hp, hstill hs, cut_concat, if_neg hop, hcut, hstill hs]
      rfl
    · refine ⟨fun _ => hs', ?_⟩
      rw [hacc, hst, hp, hstill hs, cut_concat, if_pos hop, hcut, hstill hs]
      rfl

/-- **Every END closes one sequence exactly where none is accepted as the
first instruction of a sequence.** -/
theorem closesEach_iff : r.ClosesEach ↔ ∀ n, ¬ r.opensWithEnd n := by
  constructor
  · -- `STATE_IDLE` does not look at the opcode, so its END makes no pulse
    rintro h n ⟨hs, w, hw, hop⟩
    have hp := (h.pulses n).2 ⟨w, hw, hop⟩
    rcases outcome (r := r) n with ⟨-, -, -, hp'⟩ | ⟨-, -, -, -, -, -, hp'⟩ |
      ⟨-, -, -, -, -, -, hp'⟩ | ⟨-, hs', -⟩
    · rw [hp] at hp'; cases hp'
    · rw [hp] at hp'; cases hp'
    · rw [hp] at hp'; cases hp'
    · rw [hs] at hs'; cases hs'
  · refine fun h => ⟨fun n => ?_, fun n => ?_, fun n w hw hop => ?_⟩
    · rcases outcome (r := r) n with ⟨hacc, -, -, hp⟩ | ⟨w, hs, -, hacc, -, -, hp⟩ |
        ⟨w, -, hacc, hop, -, -, hp⟩ | ⟨w, -, hacc, hop, -, -, hp⟩
      · rw [hacc, hp]
        simp
      · refine iff_of_false (by rw [hp]; exact Bool.false_ne_true) fun hend => h n ⟨hs, hend⟩
      · rw [hacc, hp]
        simp [hop]
      · rw [hacc, hp]
        simp [hop]
    · rw [units, (cut_stream h n).2]
      cases r.pulse n <;> rfl
    · rcases outcome (r := r) n with ⟨hacc, -⟩ | ⟨v, hs, -⟩ | ⟨v, -, hacc, hop', -⟩ |
        ⟨v, -, -, -, -, hs', -⟩
      · rw [hacc] at hw
        cases hw
      · exact absurd ⟨hs, w, hw, hop⟩ (h n)
      · rw [hacc, List.mem_singleton] at hw
        exact absurd (hw ▸ hop) hop'
      · exact hs'

/-- An END alone, offered to a receiver at rest. -/
def loneEnd : ReceiverRun where
  ready _ := true
  appEn n := decide (n = 0)
  appInstr _ := 0x00000000#32

theorem loneEnd_swallowed : ¬ loneEnd.ClosesEach := by
  intro h
  have hp : loneEnd.pulse 1 = true := (h.pulses 0).2 ⟨0x00000000#32, by decide, by decide⟩
  exact absurd hp (by decide)

end ReceiverRun

end SoftMC
