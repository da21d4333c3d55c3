import SoftMC.Model.Controller
import SoftMC.Maintenance.Program
import SoftMC.Path.Phases
import SoftMC.Path.Run
/-!
# Runs of the controller

A run of the controller starts from reset under an arbitrary waveform of
requests, application instructions and `dfi_ready`. Its instruction path
is a run of the path, and the maintenance program it is handing over is
followed by the instructions accepted since the receiver left its idle
state.
-/

namespace SoftMC

open Clocked

namespace Controller

variable (c : Controller) (i : In)

/-- The instruction maintenance hands over in the cycle: enable and
acknowledgment are both high. -/
def handed : List Instr :=
  if c.handler.maintInstrEn && c.maintAck i then [c.handler.maintInstr (c.handlerIn i)] else []

end Controller

/-- **A run of the controller** from reset, with FIFOs of the given depth. -/
structure ControllerRun where
  depth : Option ℕ
  wave : ℕ → Controller.In

namespace ControllerRun

variable (r : ControllerRun)

/-- The registers at the start of cycle `n`. -/
def state (n : ℕ) : Controller := run (Controller.next r.depth) Controller.reset r.wave n

/-- The state of the receiver. -/
abbrev recvState (n : ℕ) : RecvState := (r.state n).core.recv.stateR

/-- What the handler sees in cycle `n`, and what the path sees. -/
def handlerIn (n : ℕ) : MaintHandler.In := (r.state n).handlerIn (r.wave n)
def coreIn (n : ℕ) : Core.In := (r.state n).coreIn (r.wave n)

/-- The maintenance instruction handed over in cycle `n`. -/
def handed (n : ℕ) : List Instr := (r.state n).handed (r.wave n)

/-- What maintenance has handed over since the receiver left
`STATE_IDLE`. -/
def visit : ℕ → List Instr
  | 0 => []
  | n + 1 => (if r.recvState n = .idle then [] else visit n) ++ r.handed n

/-- The first `k` instructions of a program, handed over in the cycles
from `m` on. -/
def words (p : MaintProg) (m k : ℕ) : List Instr :=
  (List.range k).map fun j => p.word j (r.handlerIn (m + j))

/-- The instruction path of the controller. -/
def path : PathRun where
  depth := r.depth
  start := Core.reset
  wave := r.coreIn
  idle := Core.idle_reset

theorem visit_succ (n : ℕ) :
    r.visit (n + 1) = (if r.recvState n = .idle then [] else r.visit n) ++ r.handed n := rfl

/-- **The path of a run is a run of the path.** -/
theorem path_state (n : ℕ) : r.path.state n = (r.state n).core :=
  (run_map (F := Controller.next r.depth) (G := Core.next r.depth) Controller.core
    Controller.coreIn (fun _ _ => rfl) Controller.reset r.wave n).symm

variable {r}

theorem words_succ (p : MaintProg) (m k : ℕ) :
    r.words p m (k + 1) = r.words p m k ++ [p.word k (r.handlerIn (m + k))] := by
  rw [words, List.range_succ, List.map_append]
  rfl

@[simp] theorem length_words (p : MaintProg) (m k : ℕ) : (r.words p m k).length = k := by
  rw [words, List.length_map, List.length_range]

/-- The path has a mode in every state, whatever its FIFOs discard. -/
theorem mode (n : ℕ) : (r.state n).core.Mode := r.path_state n ▸ PathRun.mode n

/-- A read is acknowledged while the dispatcher is still busy. -/
theorem busy_of_ack {n : ℕ} (h : (r.handlerIn n).prRdAck = true) :
    (r.state n).core.exec.iseq.dispatcherBusyR = true := by
  cases n with
  | zero => cases h
  | succ n => exact (mode n).busy_of_ack h

/-- A receiver that takes maintenance has a dispatcher at rest, and no
read is acknowledged. -/
theorem ack_of_maint {n : ℕ} (h : r.recvState n = .maint) : (r.handlerIn n).prRdAck = false := by
  rw [← Bool.not_eq_true]
  intro hack
  have hbusy := busy_of_ack hack
  rcases mode n with hrest | hd
  · rw [hrest.resting.1] at hbusy; cases hbusy
  · rw [recvState, hd.idle] at h; cases h

end ControllerRun

end SoftMC
