import SoftMC.Top.Loop
/-!
# The data do not show

What is on the data bus reaches the host and nothing else: with the read
data left out, the design is a machine of its own. So runs on different
data issue the same commands in the same cycles, and a memory can always
stand behind the design: what its reads give depends on no data, and
finds its place on the bus.
-/

namespace SoftMC

open Banked Clocked Dispatcher RetentionTest TwoSlot

/-- What a FIFO holds, mapped. -/
theorem fifoNext_map {α β : Type} (f : α → β) (depth : Option ℕ) (rdEn : Bool) (wr : Option α)
    (q : List α) :
    (fifoNext depth rdEn wr q).map f = fifoNext depth rdEn (wr.map f) (q.map f) := by
  have hfull : fifoFull depth (q.map f) = fifoFull depth q := by
    rw [fifoFull, fifoFull, List.length_map]
  rw [fifoNext, fifoNext, hfull, List.map_append]
  congr 1
  · cases rdEn
    · rfl
    · exact List.map_tail
  · cases fifoFull depth q
    · cases wr <;> rfl
    · rfl

/-! ## The design without data -/

/-- The capturer, its data left out. -/
def ReadCapturer.blind (s : ReadCapturer) : ReadCapturer := { s with rdDataR := 0, rdDataR2 := 0 }

/-- The sender, its data left out. -/
def PcieTx.blind (x : PcieTx) : PcieTx := { x with sendDataR := 0 }

namespace SoftMCTop

/-- The registers, the read data left out. -/
def blind (t : SoftMCTop) : SoftMCTop :=
  { t with
    capturer := t.capturer.blind
    rdbackFifo := t.rdbackFifo.map fun _ => 0
    tx := t.tx.blind }

def In.blind (i : In) : In := { i with dfiRddata := 0 }

theorem capturer_blind_next {s s' : ReadCapturer} {i i' : ReadCapturer.In}
    (hvalid : i.dfiRddataValid = i'.dfiRddataValid)
    (heven : i.dfiRddataValidEven = i'.dfiRddataValidEven)
    (hodd : i.dfiRddataValidOdd = i'.dfiRddataValidOdd)
    (halmost : i.rdbackFifoAlmostFull = i'.rdbackFifoAlmostFull)
    (hfull : i.rdbackFifoFull = i'.rdbackFifoFull) :
    (ReadCapturer.next false s i).blind = (ReadCapturer.next false s' i').blind := by
  obtain ⟨data, valid, even, odd, almost, full⟩ := i
  obtain ⟨data', valid', even', odd', almost', full'⟩ := i'
  obtain rfl : valid = valid' := hvalid
  obtain rfl : even = even' := heven
  obtain rfl : odd = odd' := hodd
  obtain rfl : almost = almost' := halmost
  obtain rfl : full = full' := hfull
  rfl

theorem tx_blind_next (x : PcieTx) {i i' : PcieTx.In}
    (hempty : i.rdbackFifoEmpty = i'.rdbackFifoEmpty) (hren : i.chnlTxDataRen = i'.chnlTxDataRen) :
    (PcieTx.next false x i).blind = (PcieTx.next false x.blind i').blind := by
  obtain ⟨empty, data, ren⟩ := i
  obtain ⟨empty', data', ren'⟩ := i'
  obtain rfl : empty = empty' := hempty
  obtain rfl : ren = ren' := hren
  rfl

section Next

variable (depth : Option ℕ) (t : SoftMCTop) (i : In)

theorem length_blind : t.blind.readPath.rdbackFifo.length = t.readPath.rdbackFifo.length :=
  List.length_map _

theorem next_capturer_blind :
    (next depth t i).capturer.blind = (next depth t.blind i.blind).capturer.blind := by
  refine capturer_blind_next rfl rfl rfl ?_ ?_
  · change decide (_ ≤ t.readPath.rdbackFifo.length + 1) =
      decide (_ ≤ t.blind.readPath.rdbackFifo.length + 1)
    rw [length_blind]
  · change decide (t.readPath.rdbackFifo.length ≥ _) =
      decide (t.blind.readPath.rdbackFifo.length ≥ _)
    rw [length_blind]

theorem rdbackFifoWr_blind :
    t.readPath.rdbackFifoWr.map (fun _ => (0 : RdWord)) =
      t.blind.readPath.rdbackFifoWr.map fun _ => 0 := by
  have hwren : t.blind.readPath.capturer.rdbackFifoWren = t.readPath.capturer.rdbackFifoWren := rfl
  rw [ReadPath.rdbackFifoWr, ReadPath.rdbackFifoWr, hwren]
  by_cases h : t.readPath.capturer.rdbackFifoWren = true
  · rw [if_pos h, if_pos h, Option.map_some, Option.map_some]
  · rw [if_neg h, if_neg h, Option.map_none]

theorem next_rdbackFifo :
    (next depth t i).rdbackFifo = fifoNext (some RDBACK_DEPTH) t.tx.rdbackFifoRden
      t.readPath.rdbackFifoWr t.rdbackFifo := rfl

theorem next_rdbackFifo_blind :
    (next depth t i).rdbackFifo.map (fun _ => (0 : RdWord)) =
      (next depth t.blind i.blind).rdbackFifo.map fun _ => 0 := by
  have hrden : t.blind.tx.rdbackFifoRden = t.tx.rdbackFifoRden := rfl
  have hfifo : t.blind.rdbackFifo.map (fun _ => (0 : RdWord)) = t.rdbackFifo.map fun _ => 0 := by
    change (t.rdbackFifo.map fun _ => (0 : RdWord)).map _ = _
    rw [List.map_map]
    rfl
  rw [next_rdbackFifo, next_rdbackFifo, fifoNext_map, fifoNext_map, rdbackFifoWr_blind, hrden,
    hfifo]

theorem next_tx_blind :
    (next depth t i).tx.blind = (next depth t.blind i.blind).tx.blind := by
  refine tx_blind_next t.tx ?_ rfl
  change t.rdbackFifo.isEmpty = (t.rdbackFifo.map fun _ => (0 : RdWord)).isEmpty
  rw [List.isEmpty_map]

/-- **The design without data** is a machine of its own. -/
theorem blind_next : (next depth t i).blind = (next depth t.blind i.blind).blind := by
  rw [blind, next_capturer_blind, next_rdbackFifo_blind, next_tx_blind]
  rfl

end Next

end SoftMCTop

/-- The host sees no data. -/
def Hosted.blind (h : Hosted) : Hosted := { h with top := h.top.blind }

theorem Hosted.blind_next (depth : Option ℕ) (h : Hosted) (i : SoftMCTop.In) :
    (Hosted.next depth h i).blind = (Hosted.next depth h.blind i.blind).blind := by
  have htop := SoftMCTop.blind_next depth h.top (h.input i)
  rw [Hosted.blind, Hosted.next, htop]
  rfl

namespace TopRun

variable (r : TopRun) (bus : ℕ → BitVec 128)

/-- The run with other data on the bus. -/
def onBus : TopRun := { r with bus := bus }

/-- The inputs of a cycle, the data left out. -/
def blindWave (n : ℕ) : SoftMCTop.In where
  rx := r.chnlRx n
  chnlTxDataRen := r.chnlTxDataRen n
  dfiInitComplete := r.dfiInitComplete n
  ddrX := r.ddrX n
  dfiRddata := 0

variable {r bus}

theorem blind_state (n : ℕ) :
    (r.state n).blind = run (fun t i => (SoftMCTop.next r.depth t i).blind) r.start.blind
      r.blindWave n :=
  run_map (F := SoftMCTop.next r.depth)
    (G := fun t i => (SoftMCTop.next r.depth t i).blind) SoftMCTop.blind (fun _ i => i.blind)
    (SoftMCTop.blind_next r.depth) r.start r.wave n

theorem blind_onBus (n : ℕ) : ((r.onBus bus).state n).blind = (r.state n).blind := by
  have hwave : (r.onBus bus).blindWave = r.blindWave := rfl
  rw [blind_state, blind_state, hwave]
  rfl

theorem system_onBus : (r.onBus bus).system = r.system := by
  have hwave : ∀ n, ((r.onBus bus).state n).systemIn ((r.onBus bus).wave n) =
      (r.state n).systemIn (r.wave n) := fun n =>
    congrArg (fun t => t.systemIn (r.wave n).blind) (blind_onBus n)
  exact congrArg (SystemRun.mk r.depth r.maintCtrl) (funext hwave)

theorem controller_onBus : (r.onBus bus).controller = r.controller :=
  congrArg SystemRun.controller system_onBus

theorem chnlTx_onBus : (r.onBus bus).chnlTx = r.chnlTx := by
  funext n
  exact congrArg (fun t => t.tx.chnlTx) (blind_onBus n)

theorem sent_onBus (n : ℕ) : (r.onBus bus).sent n = r.sent n := by
  refine congrArg (r.rx.waiting ++ ·) (trace_congr fun k _ => ?_)
  exact congrArg (fun t => (t.rx.transferred (r.chnlRx k) (t.appAck (r.blindWave k))).map
    (·.extractLsb' 0 32)) (blind_onBus k)

theorem length_transferred_onBus (n : ℕ) :
    ((r.onBus bus).transferred n).length = (r.transferred n).length := by
  have hlen : ∀ r : TopRun, (r.transferred n).length =
      ((r.state n).tx.chnlTx && (r.state n).tx.chnlTxDataValid && r.chnlTxDataRen n).toNat := by
    intro r
    rw [transferred]
    split
    · rename_i h
      rw [h]
      rfl
    · rename_i h
      rw [Bool.eq_false_of_not_eq_true h]
      rfl
  rw [hlen, hlen]
  exact congrArg (fun t => (t.tx.chnlTx && t.tx.chnlTxDataValid && r.chnlTxDataRen n).toNat)
    (blind_onBus n)

/-- **The data do not show.** With other data on the bus the controller
sees and does the same in every cycle: it has the same inputs, so it
issues the same commands. The host sends the same and sees the same
transactions with as many words in each cycle; only the words are
others. -/
theorem data_do_not_show (r : TopRun) (bus : ℕ → BitVec 128) :
    (r.onBus bus).controller = r.controller ∧ (r.onBus bus).chnlTx = r.chnlTx ∧
      ∀ n, (r.onBus bus).sent n = r.sent n ∧
        ((r.onBus bus).transferred n).length = (r.transferred n).length :=
  ⟨controller_onBus, chnlTx_onBus,
    fun n => ⟨sent_onBus n, length_transferred_onBus n⟩⟩

end TopRun

/-! ## A memory behind the bus -/

namespace ControllerRun

variable {r : ControllerRun} {m : Device}

/-- What is given first stays first. -/
theorem out_prefix_out {n n' : ℕ} (hn : n ≤ n') {m₁ m₁' : Device}
    {out out' : List ((ℕ × Source) × Burst)} (he : exec m (r.deviceBy n) = some (m₁, out))
    (he' : exec m (r.deviceBy n') = some (m₁', out')) : out <+: out' := by
  obtain ⟨k, rfl⟩ := Nat.exists_eq_add_of_le hn
  rw [deviceBy, PathRun.issuedBy, trace_add, List.flatMap_append] at he'
  obtain ⟨m₂, o, o', hfirst, -, rfl⟩ := exec_append_eq_some he'
  rw [deviceBy, PathRun.issuedBy, hfirst] at he
  obtain ⟨-, rfl⟩ := Prod.mk.inj (Option.some.inj he)
  exact List.prefix_append _ _

variable {p : Ddr3} (hp : 4 ≤ p.tCCD) (h : ∀ n, Respects p.instrGap (r.path.issued n))

include hp h

/-- Bursts are read four DRAM cycles apart. -/
theorem pairwise_out {n : ℕ} {m₁ : Device} {out : List ((ℕ × Source) × Burst)}
    (he : exec m (r.deviceBy n) = some (m₁, out)) :
    out.Pairwise fun x y => x.1.1 + 4 ≤ y.1.1 := by
  have hissued := h n
  rw [← PathRun.map_fst_issuedBy, Respects, List.pairwise_map] at hissued
  have hreads : ((r.path.issuedBy n).filter fun e => isRead e.2).Pairwise
      fun e e' => e.1.1 + 4 ≤ e'.1.1 := by
    refine (hissued.filter _).imp_of_mem fun {e e'} hmem hmem' hgap => ?_
    have hccd := p.instrGap_reads (List.mem_filter.1 hmem).2 (List.mem_filter.1 hmem').2
    rw [hccd] at hgap
    omega
  have hfst : (out.map Prod.fst).Pairwise fun a b => a.1 + 4 ≤ b.1 := by
    rw [map_fst_out he, List.pairwise_map]
    exact hreads
  rwa [List.pairwise_map] at hfst

/-- So the quarters of their bursts do not meet. -/
theorem eq_of_meet {n : ℕ} {m₁ : Device} {out : List ((ℕ × Source) × Burst)}
    (he : exec m (r.deviceBy n) = some (m₁, out)) {x y : (ℕ × Source) × Burst} (hx : x ∈ out)
    (hy : y ∈ out) {k j : ℕ} (hk : k < 4) (hj : j < 4) (ht : x.1.1 + k = y.1.1 + j) :
    x = y ∧ k = j := by
  have hpair := pairwise_out hp h he
  have hall := List.Pairwise.forall_of_forall_of_flip
    (R := fun x y : (ℕ × Source) × Burst =>
      x = y ∨ x.1.1 + 4 ≤ y.1.1 ∨ y.1.1 + 4 ≤ x.1.1)
    (fun x _ => Or.inl rfl) (hpair.imp fun hxy => Or.inr (Or.inl hxy))
    (hpair.imp fun hxy => Or.inr (Or.inr hxy))
  rcases hall hx hy with rfl | hlt | hlt
  · exact ⟨rfl, by omega⟩
  · omega
  · omega

end ControllerRun

namespace TopRun

variable {r : TopRun} {m : Device}

/-- A memory's burst has the bus in DRAM cycle `t`, with its quarter `d`. -/
def Carries (r : TopRun) (m : Device) (t : ℕ) (d : BitVec 128) : Prop :=
  ∃ n m₁ out, exec m (r.controller.deviceBy n) = some (m₁, out) ∧
    ∃ x ∈ out, ∃ k < 4, t = x.1.1 + 2 * r.latency - 1 + k ∧ d = x.2.quarter k

/-- **Bursts never meet on the bus**: the memory accepts what is issued, and
a DRAM cycle carries one quarter of one of its bursts at most. -/
def NeverMeet (r : TopRun) (m : Device) : Prop :=
  ∀ n, ∃ m₁ out, exec m (r.controller.deviceBy n) = some (m₁, out) ∧
    ∀ x ∈ out, ∀ y ∈ out, ∀ k < 4, ∀ j < 4,
      x.1.1 + 2 * r.latency - 1 + k = y.1.1 + 2 * r.latency - 1 + j → x = y ∧ k = j

section Apart

variable {p : Ddr3} (hp : 4 ≤ p.tCCD)
  (h : ∀ n, Respects p.instrGap (r.controller.path.issued n))

include hp h

theorem neverMeet (haccepts : ∀ n, exec m (r.controller.deviceBy n) ≠ none) : r.NeverMeet m := by
  intro n
  obtain ⟨⟨m₁, out⟩, he⟩ := Option.ne_none_iff_exists'.1 (haccepts n)
  refine ⟨m₁, out, he, fun x hx y hy k hk j hj ht => ?_⟩
  have hlat := r.latency_pos
  exact ControllerRun.eq_of_meet hp h he hx hy hk hj (by omega)

/-- At most one burst has the bus. -/
theorem Carries.unique {t : ℕ} {d d' : BitVec 128} (hd : r.Carries m t d)
    (hd' : r.Carries m t d') : d = d' := by
  obtain ⟨n, m₁, out, he, x, hx, k, hk, hxt, rfl⟩ := hd
  obtain ⟨n', m₁', out', he', y, hy, j, hj, hyt, rfl⟩ := hd'
  have hlat := r.latency_pos
  have ht : x.1.1 + k = y.1.1 + j := by omega
  rcases Nat.le_total n n' with hn | hn
  · have hmem := (ControllerRun.out_prefix_out hn he he').subset hx
    obtain ⟨rfl, rfl⟩ := ControllerRun.eq_of_meet hp h he' hmem hy hk hj ht
    rfl
  · have hmem := (ControllerRun.out_prefix_out hn he' he).subset hy
    obtain ⟨rfl, rfl⟩ := ControllerRun.eq_of_meet hp h he hx hmem hk hj ht
    rfl

/-- **A memory can stand behind the design**: there are data for the bus
that are its answers to what is issued with them there. -/
theorem exists_returns (m : Device) : ∃ bus, (r.onBus bus).Returns m := by
  have hall : ∀ t, ∃ d, ∀ d', r.Carries m t d' → d' = d := by
    intro t
    by_cases hex : ∃ d, r.Carries m t d
    · obtain ⟨d, hd⟩ := hex
      exact ⟨d, fun d' hd' => Carries.unique hp h hd' hd⟩
    · exact ⟨0, fun d' hd' => absurd ⟨d', hd'⟩ hex⟩
  choose bus hbus using hall
  refine ⟨bus, ?_⟩
  intro n m₁ out he x hx k hk
  rw [controller_onBus] at he
  exact (hbus _ _ ⟨n, m₁, out, he, x, hx, k, hk, rfl, rfl⟩).symm

end Apart

/-! ## With a host in front -/

variable {ws : List Instr} {bus : ℕ → BitVec 128}

theorem hosted_blind (n : ℕ) :
    (r.hosted ws n).blind = run (fun h i => (Hosted.next r.depth h i).blind)
      { top := r.start.blind, words := ws } r.blindWave n :=
  run_map (F := Hosted.next r.depth) (G := fun h i => (Hosted.next r.depth h i).blind)
    Hosted.blind (fun _ i => i.blind) (Hosted.blind_next r.depth)
    { top := r.start, words := ws } r.wave n

theorem hosted_onBus (r : TopRun) (bus : ℕ → BitVec 128) (ws : List Instr) (n : ℕ) :
    ((r.onBus bus).hosted ws n).blind = (r.hosted ws n).blind := by
  have hwave : (r.onBus bus).blindWave = r.blindWave := rfl
  rw [hosted_blind, hosted_blind, hwave]
  rfl

/-- The host does the same on other data. -/
theorem hosting_onBus : (r.onBus bus).hosting ws = (r.hosting ws).onBus bus := by
  have hrx : ∀ n, ((r.onBus bus).hosted ws n).chnlRx ((r.onBus bus).wave n) =
      (r.hosted ws n).chnlRx (r.wave n) := by
    intro n
    have hblind := congrArg (fun h => h.chnlRx (r.blindWave n)) (hosted_onBus r bus ws n)
    exact hblind
  have hren : ∀ n, ((r.onBus bus).hosted ws n).chnlTxDataRen =
      (r.hosted ws n).chnlTxDataRen := by
    intro n
    have hblind := congrArg Hosted.chnlTxDataRen (hosted_onBus r bus ws n)
    exact hblind
  exact congrArg₂ (fun rx ren => { r with chnlRx := rx, chnlTxDataRen := ren, bus := bus })
    (funext hrx) (funext hren)

end TopRun

end SoftMC
