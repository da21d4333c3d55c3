import SoftMC.Model.PcieApp
import SoftMC.Maintenance.Buffered
/-!
# Sequences are buffered whole, unmixed and correctly split

The receive register stands in front of the controller: what it has been
given is what the controller has accepted and the word it still holds. So
the instructions of an application's sequence are consecutive words of the
RIFFA channel, and with the results on the path, whatever stands in the
FIFOs when a sequence is handed over is one whole sequence of one source.
-/

namespace SoftMC

open Clocked

/-! ## The register -/

namespace PcieRx

variable (x : PcieRx) (i : In) (appAck : Bool)

/-- The word the channel transfers in the cycle: valid and enable are both
high. -/
def transferred : List ChnlWord :=
  if i.chnlRxDataValid && x.chnlRxDataRen appAck then [i.chnlRxData] else []

/-- The instruction the register holds. -/
def waiting : List Instr := if x.appEnR then [x.appInstr] else []

/-- The instruction accepted of it. -/
def accepted : List Instr := if x.appEnR && appAck then [x.appInstr] else []

/-- **The register conserves the stream.** -/
theorem waiting_next :
    x.waiting ++ (x.transferred i appAck).map (·.extractLsb' 0 32) =
      x.accepted appAck ++ (PcieRx.next x i appAck).waiting := by
  obtain ⟨rx, pending, ack, en, data⟩ := x
  obtain ⟨chnlRx, word, valid⟩ := i
  cases en <;> cases appAck <;> cases valid <;> rfl

end PcieRx

/-! ## The register and the controller -/

/-- The receive register and the controller. -/
structure HostPath where
  rx : PcieRx
  ctrl : Controller
  deriving DecidableEq, Repr

namespace HostPath

/-- The inputs of one cycle: the RIFFA channel, the maintenance requests and
`dfi_ready`. -/
structure In where
  rx : PcieRx.In
  prRdReq : Bool
  zqReq : Bool
  autorefReq : Bool
  ddrX : BitVec 3
  dfiReady : Bool
  deriving DecidableEq, Repr

/-- After power-up and reset. -/
def reset : HostPath := { rx := PcieRx.powerUp, ctrl := Controller.reset }

variable (h : HostPath) (i : In)

def ctrlIn : Controller.In where
  prRdReq := i.prRdReq
  zqReq := i.zqReq
  autorefReq := i.autorefReq
  ddrX := i.ddrX
  appEn := h.rx.appEn
  appInstr := h.rx.appInstr
  dfiReady := i.dfiReady

abbrev appAck : Bool := h.ctrl.appAck (h.ctrlIn i)

/-- The clock edge, with instruction FIFOs of the given depth. -/
def next (depth : Option ℕ) (h : HostPath) (i : In) : HostPath where
  rx := PcieRx.next h.rx i.rx (h.appAck i)
  ctrl := Controller.next depth h.ctrl (h.ctrlIn i)

end HostPath

/-! ## Over a run -/

/-- **A run of the host's path** from power-up, with ideal instruction
FIFOs. -/
structure HostRun where
  wave : ℕ → HostPath.In

namespace HostRun

variable (r : HostRun)

/-- The registers at the start of cycle `n`. -/
def state (n : ℕ) : HostPath := run (HostPath.next none) HostPath.reset r.wave n

/-- The controller's part of the run, and its instruction path. -/
def ctrlRun : ControllerRun where
  depth := none
  wave n := (r.state n).ctrlIn (r.wave n)

abbrev path : PathRun := r.ctrlRun.path

/-- `app_ack` in cycle `n`. -/
abbrev appAck (n : ℕ) : Bool := (r.state n).appAck (r.wave n)

/-- The words the channel has transferred, and the application's
instructions the controller has accepted, before cycle `n`. -/
def transferred (n : ℕ) : List ChnlWord := 
  trace (fun k => (r.state k).rx.transferred (r.wave k).rx (r.appAck k)) n

def appAccepted (n : ℕ) : List Instr := trace (fun k => (r.state k).rx.accepted (r.appAck k)) n

/-- `process_iseq` in cycle `n`, and the FIFOs. -/
def processIseq (n : ℕ) : Bool := (r.state n).ctrl.core.recv.processIseqR
def exec (n : ℕ) : Exec := (r.state n).ctrl.core.exec

theorem ctrlRun_state (n : ℕ) : r.ctrlRun.state n = (r.state n).ctrl :=
  (run_map (F := HostPath.next none) (G := Controller.next none) HostPath.ctrl
    HostPath.ctrlIn (fun _ _ => rfl) HostPath.reset r.wave n).symm

theorem path_state (n : ℕ) : r.path.state n = (r.state n).ctrl.core := by
  rw [ControllerRun.path_state, ctrlRun_state]

/-- **One whole sequence** `body ++ [last]` of source `src`, first accepted
in cycle `m` and handed over in cycle `n`. -/
structure Whole (n : ℕ) (src : Source) (m : ℕ) (body : List Instr) (last : Instr) : Prop where
  /-- FIFOs and stages were empty when its first instruction was accepted. -/
  fresh : (r.exec m).fifo0 = [] ∧ (r.exec m).fifo1 = [] ∧ (r.exec m).iseq.instr0Reg.Idle ∧
    (r.exec m).iseq.instr1Reg.Idle
  first : r.path.accepted m ≠ []
  /-- It is what has been accepted since the last `process_iseq`, in the
  cycles from `m` on. -/
  since : r.path.gathered n = (body ++ [last]).map (Prod.mk src)
  cycles : m ≤ n ∧ r.path.gathered n = trace (fun j => r.path.accepted (m + j)) (n - m)
  /-- The END closes it; only an application's first instruction may be one
  as well. -/
  closes : opcode last = .endIseq
  open_ : ∀ w ∈ (match src with | .app => body.tail | .maint => body), opcode w ≠ .endIseq
  /-- Landed, it is dealt to the two FIFOs, a maintenance END apart. -/
  dealt : deal (body ++ src.endStored last) = ((r.exec (n + 1)).fifo0, (r.exec (n + 1)).fifo1)
  /-- An application's sequence is consecutive words of those accepted. -/
  consecutive : src = .app → r.appAccepted n = r.appAccepted m ++ (body ++ [last])

/-- **Whole sequences**, whatever the run. -/
structure BuffersWhole : Prop where
  /-- The application's instructions are the low halves of the words of the
  channel in order, none lost or repeated, up to the one that waits. -/
  stream : ∀ n, (r.transferred n).map (·.extractLsb' 0 32) = r.appAccepted n ++ (r.state n).rx.waiting
  whole : ∀ n, r.processIseq n = true → ∃ src m body last, r.Whole n src m body last

variable {r}

theorem stream (n : ℕ) :
    (r.transferred n).map (·.extractLsb' 0 32) = r.appAccepted n ++ (r.state n).rx.waiting := by
  rw [transferred, trace_map]
  exact trace_conserved (q := fun k => (r.state k).rx.waiting)
    (fun k => (r.state k).rx.waiting_next (r.wave k).rx (r.appAck k)) n

/-- What the path accepts of the application is what it takes of the
register. -/
theorem accepted_app {n : ℕ} (h : ∀ x ∈ r.path.accepted n, x.1 = .app) :
    (r.state n).rx.accepted (r.appAck n) = (r.path.accepted n).map Prod.snd := by
  obtain ⟨m, w, hacc⟩ : ∃ (m : Bool) (w : Instr), r.path.accepted n =
      (if (r.state n).rx.appEnR && r.appAck n then some (Source.app, (r.state n).rx.appInstr)
        else if m then some (Source.maint, w) else none).toList := by
    rw [PathRun.accepted, path_state]
    change ∃ m w, ((r.state n).ctrl.core.accepted (r.ctrlRun.coreIn n)).toList = _
    rw [ControllerRun.coreIn, ctrlRun_state]
    exact ⟨_, _, rfl⟩
  rw [PcieRx.accepted, hacc]
  rw [hacc] at h
  by_cases happ : ((r.state n).rx.appEnR && r.appAck n) = true
  · rw [if_pos happ, if_pos happ]; rfl
  · rw [if_neg happ] at h ⊢
    rw [if_neg happ]
    cases m with
    | false => rfl
    | true => cases h _ (List.mem_singleton_self _)

/-- A maintenance sequence is opened with an instruction of its program. -/
theorem opcode_of_first {m : ℕ} {w : Instr} (hidle : (r.state m).ctrl.core.recv.stateR = .idle)
    (h : (Source.maint, w) ∈ r.path.accepted m) : opcode w ≠ .endIseq := by
  have hhand := ControllerRun.handed_of_accepted h
  rcases ControllerRun.handed_cases (r := r.ctrlRun) m with hnil | ⟨p, j, hj, hword⟩ | ⟨hs, -⟩
  · rw [hnil] at hhand; cases hhand
  · rw [hword, List.mem_singleton] at hhand
    rw [hhand]
    exact MaintProg.opcode_word _ hj
  · rw [ControllerRun.recvState, ctrlRun_state, hidle] at hs; cases hs

/-- The instruction gathered first is the first accepted. -/
theorem mem_accepted_of_head {m k : ℕ} {x : Source × Instr} {l : List (Source × Instr)}
    (hfirst : r.path.accepted m ≠ [])
    (htr : x :: l = trace (fun j => r.path.accepted (m + j)) k) : x ∈ r.path.accepted m := by
  obtain ⟨y, hy⟩ : ∃ y, r.path.accepted m = [y] := by
    unfold PathRun.accepted at hfirst ⊢
    cases h : (r.path.state m).accepted (r.path.wave m) with
    | none => rw [h] at hfirst; exact absurd rfl hfirst
    | some y => exact ⟨y, rfl⟩
  cases k with
  | zero => cases htr
  | succ k =>
    rw [Nat.add_comm, trace_add, trace_succ, trace_zero, List.nil_append, Nat.add_zero, hy] at htr
    rw [hy, (List.cons.inj htr).1]
    exact List.mem_singleton_self _

/-- While only the application is served, it is what the path accepts. -/
theorem appAccepted_add {m k : ℕ} {l : List Instr}
    (htr : l.map (Prod.mk Source.app) = trace (fun j => r.path.accepted (m + j)) k) :
    r.appAccepted (m + k) = r.appAccepted m ++ l := by
  have hcycle : ∀ j < k, (r.state (m + j)).rx.accepted (r.appAck (m + j)) =
      (r.path.accepted (m + j)).map Prod.snd := by
    intro j hj
    refine accepted_app fun x hx => ?_
    have hmem : x ∈ l.map (Prod.mk Source.app) := htr ▸ mem_trace.2 ⟨j, hj, hx⟩
    obtain ⟨v, -, rfl⟩ := List.mem_map.1 hmem
    rfl
  rw [appAccepted, trace_add]
  refine congrArg (appAccepted r m ++ ·) ?_
  rw [trace_congr hcycle, ← trace_map, ← htr, List.map_map]
  exact List.map_id _

/-- **Every sequence handed over is one whole sequence.** -/
theorem exists_whole {n : ℕ} (hp : r.processIseq n = true) :
    ∃ src m body last, r.Whole n src m body last := by
  have hp' : (r.path.state n).recv.processIseqR = true := by rw [path_state]; exact hp
  have hspec := PathRun.gathered_spec (r := r.path) n
  have hfit : ∀ k, r.path.Fits k := PathRun.fits_of_unbounded rfl
  have hphase := PathRun.phase (r := r.path) (n := n) fun k _ => hfit k
  generalize hA : r.path.gathered n = A at hspec
  generalize hP : r.path.since n = P at hspec hphase
  rcases hspec with ⟨-, hn⟩ | ⟨-, -, -, -, hn, -⟩ | ⟨src, w, last, l, -, -, hbody, hlast⟩
  · rw [hn] at hp'; cases hp'
  · rw [hn] at hp'; cases hp'
  · -- the pulse is of a sequence closed in the cycle before
    obtain ⟨m, k, rfl, hfirst, hidle, htr⟩ := PathRun.exists_opened (r := r.path) (n := n)
      (by rw [hA]; simp)
    rw [path_state] at hidle
    obtain ⟨h0, h1, -⟩ := hidle.1.empty
    refine ⟨src, m, w :: l, last, ⟨h0, h1, hidle.1.resting.2.1, hidle.1.resting.2.2⟩, hfirst, hA,
      ⟨Nat.le_add_right m k, by rw [Nat.add_sub_cancel_left]; exact htr⟩, hlast, ?_, ?_, ?_⟩
    · cases src with
      | app => exact hbody
      | maint =>
        intro v hv
        -- the first word goes by unseen, but maintenance opens with no END
        rcases List.mem_cons.1 hv with rfl | hv
        · exact opcode_of_first hidle.2.1 (mem_accepted_of_head hfirst (hA.symm.trans htr))
        · exact hbody v hv
    · have hbuf : (r.path.state (m + k)).Buffering (w :: l ++ src.endStored last) := by
        rcases hphase with h | ⟨hnil, -⟩
        · exact h
        · cases hnil
      have hdeal := (hbuf.next_of_pulse (hfit (m + k)) hp').2
      have hnext : (r.state (m + k + 1)).ctrl.core =
          Core.next none (r.path.state (m + k)) (r.path.wave (m + k)) := by
        rw [← path_state]
        exact PathRun.state_succ r.path (m + k)
      rw [exec, hnext]
      exact hdeal
    · rintro rfl
      exact appAccepted_add (hA.symm.trans htr)

/-- **Sequences are buffered whole, unmixed and correctly split.** -/
theorem buffersWhole (r : HostRun) : r.BuffersWhole where
  stream := stream
  whole _ hp := exists_whole hp

end HostRun

end SoftMC
