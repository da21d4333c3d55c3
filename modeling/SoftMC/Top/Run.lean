import SoftMC.Model.SoftMCTop
import SoftMC.Maintenance.ReadLock
import SoftMC.Maintenance.Requests
import SoftMC.Readback.Bursts
import SoftMC.Readback.Framing
/-!
# Runs of the whole design

The parts of a run of the design are runs of the parts: its controller is a
run of the controller under its own maintenance requests, its dispatcher
with the PHY and the capturer a run of the read tags, and its sender a run
of the sender, behind a FIFO that holds what the capturer has written.
-/

namespace SoftMC

open Clocked

/-- **A run of the design** from reset. What has no reset is arbitrary:
the receive register, the timers, and the word last sent. -/
structure TopRun where
  depth : Option ℕ
  latency : ℕ
  latency_pos : 0 < latency
  rx : PcieRx
  maintCtrl : MaintCtrlTop
  tx : PcieTx
  txIdle : tx.recvState = .idle
  txZero : tx.senderState = 0
  chnlRx : ℕ → PcieRx.In
  chnlTxDataRen : ℕ → Bool
  dfiInitComplete : ℕ → Bool
  ddrX : ℕ → BitVec 3
  bus : ℕ → BitVec 128

namespace TopRun

variable (r : TopRun)

/-- On the data bus are two DRAM cycles in each cycle. -/
def wave (n : ℕ) : SoftMCTop.In where
  rx := r.chnlRx n
  chnlTxDataRen := r.chnlTxDataRen n
  dfiInitComplete := r.dfiInitComplete n
  ddrX := r.ddrX n
  dfiRddata := r.bus (2 * n + 1) ++ r.bus (2 * n)

def start : SoftMCTop where
  rx := r.rx
  system := { maintCtrl := r.maintCtrl, controller := Controller.reset }
  phy := List.replicate r.latency RddataEn.idle
  capturer := ReadCapturer.reset
  rdbackFifo := []
  tx := r.tx

/-- The registers at the start of cycle `n`. -/
def state (n : ℕ) : SoftMCTop := run (SoftMCTop.next r.depth) r.start r.wave n

theorem state_succ (n : ℕ) : r.state (n + 1) = SoftMCTop.next r.depth (r.state n) (r.wave n) := rfl

/-! ## The controller -/

def system : SystemRun where
  depth := r.depth
  start := r.maintCtrl
  wave n := (r.state n).systemIn (r.wave n)

theorem system_state (n : ℕ) : r.system.state n = (r.state n).system :=
  (run_map (F := SoftMCTop.next r.depth) (G := System.next r.depth) SoftMCTop.system
    SoftMCTop.systemIn (fun _ _ => rfl) r.start r.wave n).symm

abbrev controller : ControllerRun := r.system.controller

theorem controller_state (n : ℕ) : r.controller.state n = (r.state n).system.controller := by
  rw [controller, SystemRun.controller_state, system_state]

theorem controller_wave (n : ℕ) :
    r.controller.wave n = (r.state n).controllerIn (r.wave n) := by
  change (r.system.state n).controllerIn _ = _
  rw [system_state]
  rfl

/-- `dfi_ready`, as the dispatcher sees it. -/
theorem dfiReady_eq (n : ℕ) : (r.controller.wave n).dfiReady = (r.state n).dfiReady := by
  rw [controller_wave]
  rfl

/-! ## The read path -/

/-- What the instruction path sees in cycle `n`, and the dispatcher. -/
def coreIn (n : ℕ) : Core.In :=
  (r.state n).system.controller.coreIn ((r.state n).controllerIn (r.wave n))

def dispIn (n : ℕ) : Dispatcher.In :=
  (r.state n).core.exec.dispIn ((r.state n).core.execIn (r.coreIn n))

theorem controller_coreIn (n : ℕ) : r.controller.coreIn n = r.coreIn n := by
  rw [ControllerRun.coreIn, controller_state, controller_wave, coreIn]

theorem controller_dispIn (n : ℕ) : r.controller.dispIn n = r.dispIn n := by
  rw [ControllerRun.dispIn, controller_coreIn, controller_state, dispIn]

/-- The dispatcher with its read tags, the PHY and the capturer. -/
def readback : BurstRun where
  wave := r.dispIn
  latency := r.latency
  latency_pos := r.latency_pos
  bus := r.bus
  almostFull n := (r.state n).readPath.rdbackFifoAlmostFull
  full n := (r.state n).readPath.rdbackFifoFull

theorem readback_state (n : ℕ) : r.readback.state n = (r.state n).core.exec.iseq.disp :=
  (run_map (F := SoftMCTop.next r.depth) (G := Dispatcher.next false)
    (fun t => t.core.exec.iseq.disp)
    (fun t i => t.core.exec.dispIn
      (t.core.execIn (t.system.controller.coreIn (t.controllerIn i))))
    (fun _ _ => rfl) r.start r.wave n).symm

theorem phy_eq (n : ℕ) :
    (r.state n).phy = run shift (List.replicate r.latency RddataEn.idle) r.readback.rddataEn n := by
  induction n with
  | zero => rfl
  | succ n ih =>
    rw [run_succ, ← ih, BurstRun.rddataEn, DispatcherRun.comb, readback_state]
    rfl

/-- The capturer sees what the PHY gives out. -/
theorem readback_capturerIn (n : ℕ) :
    r.readback.capturerIn n = (r.state n).readPath.capturerIn ((r.state n).readPathIn (r.wave n)) := by
  have hvalid : r.readback.rddataValid n = (r.state n).readPath.dfiRddataValid := by
    rw [ReadPath.dfiRddataValid, SoftMCTop.readPath, phy_eq]
    rfl
  rw [BurstRun.capturerIn, hvalid]
  rfl

theorem readback_capturer (n : ℕ) : r.readback.capturer n = (r.state n).capturer := by
  induction n with
  | zero => rfl
  | succ n ih =>
    have hsucc : r.readback.capturer (n + 1) =
        ReadCapturer.next false (r.readback.capturer n) (r.readback.capturerIn n) := rfl
    rw [hsucc, ih, readback_capturerIn]
    rfl

/-- **What the capturer writes** is put together from the read tags. -/
theorem readback_writes (n : ℕ) :
    r.readback.writes n = (r.state n).readPath.rdbackFifoWr.toList := by
  rw [BurstRun.writes, readback_capturer, ReadPath.rdbackFifoWr]
  change _ = (if (r.state n).capturer.rdbackFifoWren then _ else none).toList
  split <;> rfl

/-! ## The sender -/

/-- The sender with the read-back FIFO. -/
def sender : FrameRun where
  depth := some RDBACK_DEPTH
  start := { fifo := [], tx := r.tx }
  idle := r.txIdle
  zero := r.txZero
  wave n := { wr := (r.state n).readPath.rdbackFifoWr, chnlTxDataRen := r.chnlTxDataRen n }

theorem sender_state (n : ℕ) :
    r.sender.state n = { fifo := (r.state n).rdbackFifo, tx := (r.state n).tx } :=
  (run_map (F := SoftMCTop.next r.depth) (G := Sender.next (some RDBACK_DEPTH))
    (fun t => { fifo := t.rdbackFifo, tx := t.tx })
    (fun t i => { wr := t.readPath.rdbackFifoWr, chnlTxDataRen := i.chnlTxDataRen })
    (fun _ _ => rfl) r.start r.wave n).symm

/-- **The host keeps up**: the read-back FIFO is never almost full. -/
def KeepsUp : Prop := ∀ n, (r.state n).readPath.rdbackFifoAlmostFull = false

variable {r}

theorem KeepsUp.not_full (h : r.KeepsUp) (n : ℕ) : (r.state n).readPath.rdbackFifoFull = false := by
  have halmost := h n
  rw [ReadPath.rdbackFifoAlmostFull, decide_eq_false_iff_not] at halmost
  rw [ReadPath.rdbackFifoFull, fifoFull, Option.any_some, decide_eq_false_iff_not]
  omega

/-- Then nothing stalls the dispatcher, … -/
theorem KeepsUp.dfiReady (h : r.KeepsUp) (n : ℕ) : (r.controller.wave n).dfiReady = true := by
  rw [dfiReady_eq]
  cases n with
  | zero => rfl
  | succ n =>
    change (!((r.state n).readPath.rdbackFifoAlmostFull || (r.state n).readPath.rdbackFifoFull)) = true
    rw [h n, h.not_full n]
    rfl

/-- … and everything written reaches the sender, in order. -/
theorem KeepsUp.written_popped (h : r.KeepsUp) (n : ℕ) :
    r.readback.written n = r.sender.popped n ++ (r.state n).rdbackFifo := by
  have hwritten : ∀ k, (r.sender.state k).written (r.sender.wave k) (some RDBACK_DEPTH) =
      r.readback.writes k := by
    intro k
    have hfull : fifoFull (some RDBACK_DEPTH) (r.state k).rdbackFifo = false := h.not_full k
    rw [Sender.written, sender_state, hfull, readback_writes]
    rfl
  have hcons := trace_conserved (q := fun k => (r.sender.state k).fifo)
    (f := fun k => (r.sender.state k).written (r.sender.wave k) (some RDBACK_DEPTH))
    (g := fun k => (r.sender.state k).popped) (fun k => Sender.fifo_next _) n
  rw [trace_congr fun k _ => hwritten k] at hcons
  have hfifo : (r.sender.state n).fifo = (r.state n).rdbackFifo := by rw [sender_state]
  rw [hfifo] at hcons
  exact hcons

end TopRun

end SoftMC
