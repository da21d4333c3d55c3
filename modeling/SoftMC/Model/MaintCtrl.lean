import SoftMC.Model.Controller
/-!
# `maint_ctrl_top`

The prescaler and the three controllers that raise the maintenance
requests, at the parameters of `softMC.v`. Only the request registers look
at `rst`; the timers are loaded while the PHY initialises.
-/

namespace SoftMC

/-! ## The parameters -/

/-- The loop of `clogb2`. -/
def clogb2Loop (size : ℕ) : ℕ :=
  if 1 < size then clogb2Loop (size >>> 1) + 1 else 1
termination_by size
decreasing_by
  rw [Nat.shiftRight_eq_div_pow]
  omega

/-- The width of a counter that takes `size` values. -/
def clogb2 (size : ℕ) : ℕ := clogb2Loop (size - 1)

abbrev tCK : ℕ := 2500
abbrev nCK_PER_CLK : ℕ := 2
abbrev MAINT_PRESCALER_PERIOD : ℕ := 200000

abbrev tPRDI : ℕ := 1000000
abbrev PERIODIC_RD_TIMER_DIV : ℕ := tPRDI / MAINT_PRESCALER_PERIOD
abbrev PERIODIC_RD_TIMER_WIDTH : ℕ := clogb2 (PERIODIC_RD_TIMER_DIV + 1)

abbrev MAINT_PRESCALER_PERIOD_NS : ℕ := MAINT_PRESCALER_PERIOD / 1000
abbrev tZQI : ℕ := 128000000
abbrev ZQ_TIMER_DIV : ℕ := tZQI / MAINT_PRESCALER_PERIOD_NS
abbrev ZQ_TIMER_WIDTH : ℕ := clogb2 (ZQ_TIMER_DIV + 1)

theorem lt_two_pow_clogb2Loop (n : ℕ) : n < 2 ^ clogb2Loop n := by
  induction n using Nat.strong_induction_on with
  | _ n ih =>
    rw [clogb2Loop]
    split
    · have hhalf := ih (n >>> 1) (by rw [Nat.shiftRight_eq_div_pow]; omega)
      rw [Nat.shiftRight_eq_div_pow] at hhalf ⊢
      rw [Nat.pow_succ]
      omega
    · omega

/-- A counter of that width holds its largest value. -/
theorem toNat_ofNat_clogb2 (n : ℕ) : (BitVec.ofNat (clogb2 (n + 1)) n).toNat = n := by
  rw [BitVec.toNat_ofNat]
  exact Nat.mod_eq_of_lt (lt_two_pow_clogb2Loop n)

/-- The countdown of every timer: one less with a tick, down to zero. -/
def countDown {w : ℕ} (t : BitVec w) (tick : Bool) : BitVec w :=
  if t ≠ 0 ∧ tick then t - 1 else t

theorem toNat_countDown {w : ℕ} (t : BitVec w) (tick : Bool) :
    (countDown t tick).toNat = t.toNat - tick.toNat := by
  rw [countDown]
  cases tick with
  | false => simp
  | true =>
    by_cases h : t = 0
    · simp [h]
    · have hone : 1#w ≤ t := by
        have hpos : t.toNat ≠ 0 := fun hz => h (BitVec.toNat_inj.1 (by simpa using hz))
        rw [BitVec.le_def, BitVec.toNat_ofNat]
        exact (Nat.mod_le _ _).trans (by omega)
      rw [if_pos ⟨h, rfl⟩]
      change (t - 1#w).toNat = _
      rw [BitVec.toNat_sub_of_le hone, BitVec.toNat_ofNat]
      have hw : w ≠ 0 := by
        rintro rfl
        exact h (BitVec.eq_nil t)
      rw [Nat.mod_eq_of_lt (Nat.one_lt_two_pow hw), Bool.toNat_true]

/-! ## The prescaler -/

/-- The parameters of `maint_ctrl`, with a constant that is not zero. -/
structure MaintParams where
  tCK : ℕ
  nCK_PER_CLK : ℕ
  maintPrescalerPeriod : ℕ
  div_pos : 1 ≤ maintPrescalerPeriod / (tCK * nCK_PER_CLK)

namespace MaintParams

variable (p : MaintParams)

/-- The constants and the widths of the counters that are loaded with
them. -/
def maintPrescalerDiv : ℕ := p.maintPrescalerPeriod / (p.tCK * p.nCK_PER_CLK)
def maintPrescalerWidth : ℕ := clogb2 (p.maintPrescalerDiv + 1)

def periodicRdTimerDiv : ℕ := tPRDI / p.maintPrescalerPeriod
def periodicRdTimerWidth : ℕ := clogb2 (p.periodicRdTimerDiv + 1)

def zqTimerDiv : ℕ := tZQI / (p.maintPrescalerPeriod / 1000)
def zqTimerWidth : ℕ := clogb2 (p.zqTimerDiv + 1)

/-- The parameters of `softMC.v`. -/
def softMC : MaintParams where
  tCK := SoftMC.tCK
  nCK_PER_CLK := SoftMC.nCK_PER_CLK
  maintPrescalerPeriod := MAINT_PRESCALER_PERIOD
  div_pos := by decide

end MaintParams

/-- The registers of `maint_ctrl`, with a counter of `w` bits. -/
structure Prescaler (w : ℕ) where
  maintPrescalerR : BitVec w
  maintPrescalerTickRLcl : Bool
  deriving DecidableEq, Repr

namespace Prescaler

variable {w : ℕ} (s : Prescaler w)

def maintPrescalerTickNs : Bool := decide (s.maintPrescalerR = BitVec.ofNat w 1)

abbrev maintPrescalerTick : Bool := s.maintPrescalerTickRLcl

/-- The clock edge. The constant is cut to the counter's width. -/
def next (div : ℕ) (dfiInitComplete : Bool) : Prescaler w where
  maintPrescalerR :=
    if !dfiInitComplete || s.maintPrescalerTickNs then BitVec.ofNat w div
    else if s.maintPrescalerR ≠ 0 then s.maintPrescalerR - BitVec.ofNat w 1
    else s.maintPrescalerR
  maintPrescalerTickRLcl := s.maintPrescalerTickNs

end Prescaler

/-- `maint_ctrl` as `softMC.v` builds it. -/
abbrev MaintCtrl : Type := Prescaler MaintParams.softMC.maintPrescalerWidth

/-! ## The three controllers -/

/-- The registers of `periodic_rd_ctrl`. -/
structure PeriodicRdCtrl where
  periodicRdTimerR : BitVec PERIODIC_RD_TIMER_WIDTH
  periodicRdRequestR : Bool
  deriving DecidableEq, Repr

namespace PeriodicRdCtrl

structure In where
  dfiInitComplete : Bool
  maintPrescalerTick : Bool
  periodicRdAck : Bool
  deriving DecidableEq, Repr

variable (s : PeriodicRdCtrl) (i : In)

def periodicRdTimerOne : Bool := i.maintPrescalerTick && decide (s.periodicRdTimerR = 1)

abbrev periodicRdReq : Bool := s.periodicRdRequestR

/-- The clock edge. The timer starts with the first acknowledged read. -/
def next (rst : Bool) : PeriodicRdCtrl where
  periodicRdTimerR :=
    if !i.dfiInitComplete then 0
    else if i.periodicRdAck then .ofNat _ PERIODIC_RD_TIMER_DIV
    else countDown s.periodicRdTimerR i.maintPrescalerTick
  periodicRdRequestR :=
    !rst && (!i.periodicRdAck && (s.periodicRdRequestR || s.periodicRdTimerOne i))

end PeriodicRdCtrl

/-- The registers of `zq_calib_ctrl`. -/
structure ZqCalibCtrl where
  zqTimerR : BitVec ZQ_TIMER_WIDTH
  zqRequestR : Bool
  deriving DecidableEq, Repr

namespace ZqCalibCtrl

structure In where
  zqAck : Bool
  dfiInitComplete : Bool
  maintPrescalerTick : Bool
  deriving DecidableEq, Repr

variable (s : ZqCalibCtrl) (i : In)

/-- The timer's tick, `ZQ_TIMER_DIV` not being zero. -/
def zqTick : Bool := decide (s.zqTimerR = 1) && i.maintPrescalerTick

/-- The request is held back while the PHY initialises. -/
def zqRequest (dfiInitComplete : Bool) : Bool := dfiInitComplete && s.zqRequestR

/-- The clock edge. A tick sets the request even where it is
acknowledged. -/
def next (rst : Bool) : ZqCalibCtrl where
  zqTimerR :=
    if !i.dfiInitComplete || s.zqTick i then .ofNat _ ZQ_TIMER_DIV
    else countDown s.zqTimerR i.maintPrescalerTick
  zqRequestR :=
    !rst && ((!i.dfiInitComplete && decide (ZQ_TIMER_DIV ≠ 0)) ||
      (s.zqRequestR && !i.zqAck) || s.zqTick i)

end ZqCalibCtrl

/-- The registers of `autoref_ctrl`. -/
structure AutorefCtrl where
  autorefTimerR : BitVec 28
  autorefRequestR : Bool
  refEnR : Bool
  deriving DecidableEq, Repr

namespace AutorefCtrl

structure In where
  autorefEn : Bool
  autorefInterval : BitVec 28
  autorefAck : Bool
  dfiInitComplete : Bool
  maintPrescalerTick : Bool
  deriving DecidableEq, Repr

variable (s : AutorefCtrl) (i : In)

/-- The timer takes the interval while the PHY initialises, with an
acknowledgment, and when auto-refresh is enabled. -/
def loads : Bool := !i.dfiInitComplete || i.autorefAck || (!s.refEnR && i.autorefEn)

def autorefTimerOne : Bool := i.maintPrescalerTick && decide (s.autorefTimerR = 1)

abbrev autorefReq : Bool := s.autorefRequestR

/-- The clock edge. -/
def next (rst : Bool) : AutorefCtrl where
  autorefTimerR :=
    if s.loads i then i.autorefInterval else countDown s.autorefTimerR i.maintPrescalerTick
  autorefRequestR :=
    !rst && i.dfiInitComplete && i.autorefEn &&
      (!i.autorefAck && (s.autorefRequestR || s.autorefTimerOne i))
  refEnR := i.autorefEn

end AutorefCtrl

/-! ## Together -/

/-- The registers of `maint_ctrl_top`. -/
structure MaintCtrlTop where
  maintCtrl : MaintCtrl
  prrdCtrl : PeriodicRdCtrl
  zqCalibCtrl : ZqCalibCtrl
  autorefCtrl : AutorefCtrl
  deriving DecidableEq, Repr

namespace MaintCtrlTop

structure In where
  dfiInitComplete : Bool
  periodicRdAck : Bool
  zqAck : Bool
  autorefEn : Bool
  autorefInterval : BitVec 28
  autorefAck : Bool
  deriving DecidableEq, Repr

variable (s : MaintCtrlTop) (i : In)

def prrdIn : PeriodicRdCtrl.In where
  dfiInitComplete := i.dfiInitComplete
  maintPrescalerTick := s.maintCtrl.maintPrescalerTick
  periodicRdAck := i.periodicRdAck

def zqCalibIn : ZqCalibCtrl.In where
  zqAck := i.zqAck
  dfiInitComplete := i.dfiInitComplete
  maintPrescalerTick := s.maintCtrl.maintPrescalerTick

def autorefIn : AutorefCtrl.In where
  autorefEn := i.autorefEn
  autorefInterval := i.autorefInterval
  autorefAck := i.autorefAck
  dfiInitComplete := i.dfiInitComplete
  maintPrescalerTick := s.maintCtrl.maintPrescalerTick

/-- The clock edge. -/
def next (rst : Bool) : MaintCtrlTop where
  maintCtrl := s.maintCtrl.next MaintParams.softMC.maintPrescalerDiv i.dfiInitComplete
  prrdCtrl := s.prrdCtrl.next (s.prrdIn i) rst
  zqCalibCtrl := s.zqCalibCtrl.next (s.zqCalibIn i) rst
  autorefCtrl := s.autorefCtrl.next (s.autorefIn i) rst

end MaintCtrlTop

/-! ## Around the controller -/

/-- The registers of `softMC.v` that raise and serve the maintenance
requests. -/
structure System where
  maintCtrl : MaintCtrlTop
  controller : Controller
  deriving DecidableEq, Repr

namespace System

/-- The inputs of one cycle. -/
structure In where
  dfiInitComplete : Bool
  ddrX : BitVec 3
  appEn : Bool
  appInstr : Instr
  dfiReady : Bool
  deriving DecidableEq, Repr

variable (s : System) (i : In)

/-- `zq_request` is gated in its cycle; the other requests are registers. -/
def controllerIn : Controller.In where
  prRdReq := s.maintCtrl.prrdCtrl.periodicRdReq
  zqReq := s.maintCtrl.zqCalibCtrl.zqRequest i.dfiInitComplete
  autorefReq := s.maintCtrl.autorefCtrl.autorefReq
  ddrX := i.ddrX
  appEn := i.appEn
  appInstr := i.appInstr
  dfiReady := i.dfiReady

/-- What the handler's block computes in the cycle. -/
def handlerComb : MaintHandler.Comb :=
  s.controller.handler.comb (s.controller.handlerIn (s.controllerIn i))
    (s.controller.maintAck (s.controllerIn i))

def maintCtrlIn : MaintCtrlTop.In where
  dfiInitComplete := i.dfiInitComplete
  periodicRdAck := s.controller.core.exec.iseq.disp.prRdAck
  zqAck := (s.handlerComb i).zqAck
  autorefEn := s.controller.aref.arefEn
  autorefInterval := s.controller.aref.arefInterval
  autorefAck := (s.handlerComb i).autorefAck

/-- The clock edge, with instruction FIFOs of the given depth. -/
def next (depth : Option ℕ) (s : System) (i : In) : System where
  maintCtrl := s.maintCtrl.next (s.maintCtrlIn i) false
  controller := Controller.next depth s.controller (s.controllerIn i)

end System

end SoftMC
