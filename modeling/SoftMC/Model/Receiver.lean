import SoftMC.Model.Instr
/-!
# `instr_receiver`

The receiver accepts one sequence at a time, from the application or from
maintenance, and deals its instructions to the two FIFOs. An END closes
the sequence and starts the dispatch; an application's END is stored with
its sequence, a maintenance END is not.
-/

namespace SoftMC

/-- The receiver's states; `2'b11` is never entered. -/
inductive RecvState
  | idle
  | app
  | maint
  deriving DecidableEq, Repr

/-- The registers of `instr_receiver`. -/
structure Receiver where
  processIseqR : Bool
  stateR : RecvState
  selFifo : Bool
  instrEnR : Bool
  instrR : Instr
  deriving DecidableEq, Repr

namespace Receiver

/-- The registers after reset. -/
def reset : Receiver where
  processIseqR := false
  stateR := .idle
  selFifo := false
  instrEnR := false
  instrR := 0

/-- The inputs of one cycle. -/
structure In where
  dispatcherReady : Bool
  appEn : Bool
  appInstr : Instr
  maintEn : Bool
  maintInstr : Instr
  deriving DecidableEq, Repr

/-- The signals the combinational block assigns. -/
structure Comb where
  processIseqNs : Bool
  stateNs : RecvState
  instrEnNs : Bool
  instrNs : Instr
  appAck : Bool
  maintAck : Bool
  deriving DecidableEq, Repr

variable (r : Receiver) (i : In)

/-- The defaults of the block. -/
def defaults : Comb where
  processIseqNs := false
  stateNs := r.stateR
  instrEnNs := false
  instrNs := r.instrR
  appAck := false
  maintAck := false

/-- The combinational block. -/
def comb : Comb :=
  match r.stateR with
  | .idle =>
    if i.dispatcherReady && !r.processIseqR then
      if i.appEn then
        { r.defaults with stateNs := .app, instrEnNs := i.appEn, instrNs := i.appInstr,
                          appAck := true }
      else if i.maintEn then
        { r.defaults with stateNs := .maint, instrEnNs := i.maintEn, instrNs := i.maintInstr,
                          maintAck := true }
      else r.defaults
    else r.defaults
  | .app =>
    let c := { r.defaults with appAck := true, instrEnNs := i.appEn, instrNs := i.appInstr }
    if c.instrEnNs && decide (opcode c.instrNs = .endIseq) then
      { c with processIseqNs := true, stateNs := .idle }
    else c
  | .maint =>
    let c := { r.defaults with maintAck := true, instrEnNs := i.maintEn, instrNs := i.maintInstr }
    if c.instrEnNs && decide (opcode c.instrNs = .endIseq) then
      { c with instrEnNs := false, processIseqNs := true, stateNs := .idle }
    else c

/-- The write ports of the FIFOs. -/
def instr0Fifo : Option Instr := if !r.selFifo && r.instrEnR then some r.instrR else none
def instr1Fifo : Option Instr := if r.selFifo && r.instrEnR then some r.instrR else none

/-- The clock edge. -/
def next (rst : Bool) (r : Receiver) (i : In) : Receiver :=
  let c := r.comb i
  if rst then reset
  else
    { stateR := c.stateNs
      processIseqR := c.processIseqNs
      instrEnR := c.instrEnNs
      instrR := c.instrNs
      selFifo :=
        if r.processIseqR then false else if r.instrEnR then !r.selFifo else r.selFifo }

end Receiver

end SoftMC
