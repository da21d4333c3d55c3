import SoftMC.Model.IseqDispatcher
import SoftMC.Dispatch.Slots
import SoftMC.Common.Clocked
/-!
# A FIFO and its pipe stage are one queue

What a pipe stage and the FIFO behind it hold together is a queue:
nothing enters but what is written, nothing leaves but what is taken, and
while the dispatcher is busy the head of the queue is always on display.
-/

namespace SoftMC

open Clocked

/-! ## The stage -/

namespace PipeReg

variable {α : Type}

/-- The words the stage holds, oldest first. The second register counts
only while the stage is not ready. -/
def held (p : PipeReg α) : List α :=
  if p.rValid1 then p.rData1 :: (if !p.rReady && p.rValid2 then [p.rData2] else []) else []

/-- A word in the second register stands behind one in the first. -/
def Sound (p : PipeReg α) : Prop :=
  p.rReady = false → p.rValid1 = false → p.rValid2 = false

/-- A stage that holds nothing, the registers of reset included. -/
def Empty (p : PipeReg α) : Prop :=
  p.rValid1 = false ∧ (p.rReady = false → p.rValid2 = false)

/-- An empty stage that is ready to load. -/
def Idle (p : PipeReg α) : Prop := p.rValid1 = false ∧ p.rReady = true

theorem Empty.sound {p : PipeReg α} (h : p.Empty) : p.Sound := fun hr _ => h.2 hr

theorem Idle.empty {p : PipeReg α} (h : p.Idle) : p.Empty :=
  ⟨h.1, fun hr => by rw [h.2] at hr; cases hr⟩

theorem Empty.held_eq {p : PipeReg α} (h : p.Empty) : p.held = [] := by
  rw [held, h.1]; rfl

theorem idle_reset [Inhabited α] : (reset : PipeReg α).Idle := ⟨rfl, rfl⟩

variable {p : PipeReg α}

/-- **No bubble**: the stage shows a word unless the FIFO behind it is
empty as well. -/
structure Flowing (p : PipeReg α) (q : List α) : Prop where
  ready : p.rValid1 = false → p.rReady = true
  shown : p.rValid1 = false → q = []
  second : p.rReady = false → p.rValid2 = false → q = []

theorem Flowing.sound {q : List α} (h : p.Flowing q) : p.Sound := by
  intro hr hv
  rw [h.ready hv] at hr
  cases hr

/-- What the queue shows is its first word. -/
theorem Flowing.head? {q : List α} (h : p.Flowing q) :
    (p.held ++ q).head? = if p.rValid1 then some p.rData1 else none := by
  cases hv : p.rValid1 with
  | false => simp [held, hv, h.shown hv]
  | true => simp [held, hv]

theorem Flowing.valid_iff {q : List α} (h : p.Flowing q) :
    p.rValid1 = false ↔ p.held ++ q = [] := by
  constructor
  · intro hv; simp [held, hv, h.shown hv]
  · intro hnil
    cases hv : p.rValid1 with
    | false => rfl
    | true => simp [held, hv] at hnil

variable [Inhabited α] {readyIn validIn : Bool} {dataIn : α}

theorem Sound.next (h : p.Sound) : (PipeReg.next false readyIn validIn dataIn p).Sound := by
  obtain ⟨r, v1, v2, d1, d2⟩ := p
  cases r <;> cases v1 <;> cases readyIn <;>
    simp_all [Sound, PipeReg.next, firstBufReady]

/-- **The stage conserves its words.** -/
theorem held_next (h : p.Sound) :
    p.held ++ (if p.rReady && validIn then [dataIn] else []) =
      (if p.rValid1 && readyIn then [p.rData1] else []) ++
        (PipeReg.next false readyIn validIn dataIn p).held := by
  obtain ⟨r, v1, v2, d1, d2⟩ := p
  cases r <;> cases v1 <;> cases v2 <;> cases readyIn <;> cases validIn <;>
    simp_all [Sound, held, PipeReg.next, firstBufReady]

/-- An empty stage that is offered nothing is idle one cycle later. -/
theorem Empty.next_idle (h : p.Empty) : (PipeReg.next false readyIn false dataIn p).Idle := by
  obtain ⟨r, v1, v2, d1, d2⟩ := p
  obtain ⟨h1, h2⟩ := h
  cases r <;> cases readyIn <;> simp_all [Idle, PipeReg.next, firstBufReady]

/-- An idle stage loads at once, and a flowing one keeps flowing. -/
theorem flowing_next {q : List α} (h : p.Idle ∨ p.Flowing q) :
    (PipeReg.next false readyIn (!q.isEmpty) (q.headD dataIn) p).Flowing
      (if p.rReady then q.tail else q) := by
  obtain ⟨r, v1, v2, d1, d2⟩ := p
  rcases h with ⟨hv, hr⟩ | ⟨hready, hshown, hsecond⟩
  · cases q <;> constructor <;> simp_all [PipeReg.next, firstBufReady]
  · cases r <;> cases v1 <;> cases readyIn <;> cases q <;> constructor <;>
      simp_all [PipeReg.next, firstBufReady]

/-- A stage loading from its FIFO, together with the FIFO, only gives out
its head. -/
theorem held_append_next (h : p.Sound) (busy : Bool) (q : List α) :
    p.held ++ q =
      (if p.rValid1 && readyIn then [p.rData1] else []) ++
        ((PipeReg.next false readyIn (busy && !q.isEmpty) (q.headD dataIn) p).held ++
          (if p.rReady && busy then q.tail else q)) := by
  rw [← List.append_assoc, ← held_next h, List.append_assoc]
  cases p.rReady <;> cases busy <;> cases q <;> simp

end PipeReg

/-! ## Both queues -/

namespace Exec

/-- What input `0` of the dispatcher still has to take, stage and FIFO. -/
def content0 (e : Exec) : List Instr := e.iseq.instr0Reg.held ++ e.fifo0
def content1 (e : Exec) : List Instr := e.iseq.instr1Reg.held ++ e.fifo1

/-- The words the dispatcher takes in the cycle. -/
def taken0 (e : Exec) (i : In) : Option Instr := e.iseq.disp.taken0 (e.dispIn i)
def taken1 (e : Exec) (i : In) : Option Instr := e.iseq.disp.taken1 (e.dispIn i)

/-- Both stages hold their words in order. -/
def Sound (e : Exec) : Prop := e.iseq.instr0Reg.Sound ∧ e.iseq.instr1Reg.Sound

/-- No write of the cycle is discarded. -/
def Fits (depth : Option ℕ) (e : Exec) (i : In) : Prop :=
  (i.wr0 ≠ none → fifoFull depth e.fifo0 = false) ∧
    (i.wr1 ≠ none → fifoFull depth e.fifo1 = false)

variable {D : Option ℕ} {e : Exec} {i : In}

theorem fits_of_unbounded : Fits none e i := ⟨fun _ => rfl, fun _ => rfl⟩

theorem fits_of_no_write (h0 : i.wr0 = none) (h1 : i.wr1 = none) : Fits D e i :=
  ⟨fun h => absurd h0 h, fun h => absurd h1 h⟩

theorem Sound.next (h : e.Sound) : (Exec.next D e i).Sound :=
  ⟨PipeReg.Sound.next h.1, PipeReg.Sound.next h.2⟩

theorem toList_taken0 :
    (e.taken0 i).toList =
      if e.iseq.instr0Reg.rValid1 && e.iseq.instr0DispAck (e.iseqIn i) then
        [e.iseq.instr0Reg.rData1]
      else [] := by
  have hsome : (e.taken0 i).isSome = (e.iseq.instr0Reg.rValid1 && e.iseq.instr0DispAck (e.iseqIn i)) :=
    Dispatcher.isSome_taken0
  rw [← hsome]
  cases h : e.taken0 i with
  | none => rfl
  | some w => exact congrArg (fun x => [x]) (Dispatcher.taken0_eq_some h).2.symm

theorem toList_taken1 :
    (e.taken1 i).toList =
      if e.iseq.instr1Reg.rValid1 && e.iseq.instr1DispAck (e.iseqIn i) then
        [e.iseq.instr1Reg.rData1]
      else [] := by
  have hsome : (e.taken1 i).isSome = (e.iseq.instr1Reg.rValid1 && e.iseq.instr1DispAck (e.iseqIn i)) :=
    Dispatcher.isSome_taken1
  rw [← hsome]
  cases h : e.taken1 i with
  | none => rfl
  | some w => exact congrArg (fun x => [x]) (Dispatcher.taken1_eq_some h).2.symm

/-- A queue takes in what is written, unless its FIFO is full. -/
theorem content0_eq (hs : e.Sound) :
    e.content0 ++ (if fifoFull D e.fifo0 then [] else i.wr0.toList) =
      (e.taken0 i).toList ++ (Exec.next D e i).content0 := by
  have hfifo : (Exec.next D e i).fifo0 = (if e.iseq.instr0FifoRd then e.fifo0.tail else e.fifo0) ++
      (if fifoFull D e.fifo0 then [] else i.wr0.toList) := rfl
  rw [content0, content0, hfifo, toList_taken0, ← List.append_assoc (PipeReg.held _),
    ← List.append_assoc, List.append_cancel_right_eq]
  exact PipeReg.held_append_next hs.1 _ _

theorem content1_eq (hs : e.Sound) :
    e.content1 ++ (if fifoFull D e.fifo1 then [] else i.wr1.toList) =
      (e.taken1 i).toList ++ (Exec.next D e i).content1 := by
  have hfifo : (Exec.next D e i).fifo1 = (if e.iseq.instr1FifoRd then e.fifo1.tail else e.fifo1) ++
      (if fifoFull D e.fifo1 then [] else i.wr1.toList) := rfl
  rw [content1, content1, hfifo, toList_taken1, ← List.append_assoc (PipeReg.held _),
    ← List.append_assoc, List.append_cancel_right_eq]
  exact PipeReg.held_append_next hs.2 _ _

/-- **Each queue is conserved**: what it holds and is written is what is
taken and what it holds next. -/
theorem content0_next (hs : e.Sound) (hf : Fits D e i) :
    e.content0 ++ i.wr0.toList = (e.taken0 i).toList ++ (Exec.next D e i).content0 := by
  rw [← content0_eq hs]
  cases hw : i.wr0 with
  | none => simp
  | some w => rw [hf.1 (by simp [hw])]; rfl

theorem content1_next (hs : e.Sound) (hf : Fits D e i) :
    e.content1 ++ i.wr1.toList = (e.taken1 i).toList ++ (Exec.next D e i).content1 := by
  rw [← content1_eq hs]
  cases hw : i.wr1 with
  | none => simp
  | some w => rw [hf.2 (by simp [hw])]; rfl

/-- No word comes from nowhere. -/
theorem mem_contents_next (hs : e.Sound) {w : Instr}
    (h : w ∈ (Exec.next D e i).content0 ∨ w ∈ (Exec.next D e i).content1) :
    (w ∈ e.content0 ∨ w ∈ e.content1) ∨ i.wr0 = some w ∨ i.wr1 = some w := by
  have key : ∀ {l l' t : List Instr} {wr : Option Instr} {full : Bool},
      l ++ (if full then [] else wr.toList) = t ++ l' → w ∈ l' → w ∈ l ∨ wr = some w := by
    intro l l' t wr full heq hw
    have hmem : w ∈ l ++ (if full then [] else wr.toList) := heq ▸ List.mem_append_right t hw
    rcases List.mem_append.1 hmem with hl | hr
    · exact Or.inl hl
    · cases full with
      | true => cases hr
      | false => exact Or.inr (Option.mem_toList.1 hr)
  rcases h with h | h
  · exact (key (content0_eq (D := D) hs) h).imp Or.inl Or.inl
  · exact (key (content1_eq (D := D) hs) h).imp Or.inr Or.inr

/-! ## The phases of a dispatch -/

/-- Nothing to dispatch: not busy, the stages empty. -/
def Resting (e : Exec) : Prop :=
  e.iseq.dispatcherBusyR = false ∧ e.iseq.instr0Reg.Idle ∧ e.iseq.instr1Reg.Idle

/-- The first busy cycle: the stages are about to load. -/
def Loading (e : Exec) : Prop :=
  e.iseq.dispatcherBusyR = true ∧ e.iseq.instr0Reg.Idle ∧ e.iseq.instr1Reg.Idle

/-- Both queues show their heads; a dispatcher that is not busy has none
left to show. -/
structure Flowing (e : Exec) : Prop where
  pipe0 : e.iseq.instr0Reg.Flowing e.fifo0
  pipe1 : e.iseq.instr1Reg.Flowing e.fifo1
  drained : e.iseq.dispatcherBusyR = false → e.content0 = [] ∧ e.content1 = []

theorem Flowing.sound (h : e.Flowing) : e.Sound := ⟨h.pipe0.sound, h.pipe1.sound⟩

theorem Resting.sound (h : e.Resting) : e.Sound := ⟨h.2.1.empty.sound, h.2.2.empty.sound⟩

theorem Loading.sound (h : e.Loading) : e.Sound := ⟨h.2.1.empty.sound, h.2.2.empty.sound⟩

/-- The busy flag of the next cycle. -/
theorem busy_next :
    (Exec.next D e i).iseq.dispatcherBusyR =
      (i.processIseq || (e.iseq.dispatcherBusyR && (!(e.fifo0.isEmpty && e.fifo1.isEmpty) ||
        e.iseq.instr0Reg.rValid1 || e.iseq.instr1Reg.rValid1))) := by
  simp [Exec.next, IseqDispatcher.next, IseqDispatcher.dispatcherBusyNs, iseqIn]

/-- While nothing is to be dispatched the stages stay idle. -/
theorem idle_next_of_not_busy (hb : e.iseq.dispatcherBusyR = false)
    (h0 : e.iseq.instr0Reg.Empty) (h1 : e.iseq.instr1Reg.Empty) :
    (Exec.next D e i).iseq.instr0Reg.Idle ∧ (Exec.next D e i).iseq.instr1Reg.Idle := by
  simp only [Exec.next, IseqDispatcher.next, hb, Bool.false_and]
  exact ⟨h0.next_idle, h1.next_idle⟩

/-- A queue written nothing holds what was not taken of it. -/
theorem contents_of_no_write (hs : e.Sound) (hw0 : i.wr0 = none) (hw1 : i.wr1 = none) :
    e.content0 = (e.taken0 i).toList ++ (Exec.next D e i).content0 ∧
      e.content1 = (e.taken1 i).toList ++ (Exec.next D e i).content1 := by
  have hc0 := content0_next (D := D) hs (fits_of_no_write hw0 hw1)
  have hc1 := content1_next (D := D) hs (fits_of_no_write hw0 hw1)
  rw [hw0, Option.toList_none, List.append_nil] at hc0
  rw [hw1, Option.toList_none, List.append_nil] at hc1
  exact ⟨hc0, hc1⟩

/-- So whatever is left of it was left before. -/
theorem mem_contents_of_no_write (hs : e.Sound) (hw0 : i.wr0 = none) (hw1 : i.wr1 = none)
    {w : Instr} (h : w ∈ (Exec.next D e i).content0 ∨ w ∈ (Exec.next D e i).content1) :
    w ∈ e.content0 ∨ w ∈ e.content1 := by
  obtain ⟨hc0, hc1⟩ := contents_of_no_write (D := D) hs hw0 hw1
  rw [hc0, hc1, List.mem_append, List.mem_append]
  exact h.imp Or.inr Or.inr

/-- Not written, a stage loads from its FIFO while busy, and flows. -/
theorem pipes_flowing_next (hw0 : i.wr0 = none) (hw1 : i.wr1 = none)
    (hb : e.iseq.dispatcherBusyR = false → e.fifo0 = [] ∧ e.fifo1 = [])
    (h0 : e.iseq.instr0Reg.Idle ∨ e.iseq.instr0Reg.Flowing e.fifo0)
    (h1 : e.iseq.instr1Reg.Idle ∨ e.iseq.instr1Reg.Flowing e.fifo1) :
    (Exec.next D e i).iseq.instr0Reg.Flowing (Exec.next D e i).fifo0 ∧
      (Exec.next D e i).iseq.instr1Reg.Flowing (Exec.next D e i).fifo1 := by
  have hvalid : (e.iseq.dispatcherBusyR && !e.fifo0.isEmpty) = !e.fifo0.isEmpty ∧
      (e.iseq.dispatcherBusyR && !e.fifo1.isEmpty) = !e.fifo1.isEmpty := by
    cases hbusy : e.iseq.dispatcherBusyR with
    | true => exact ⟨rfl, rfl⟩
    | false => rw [(hb hbusy).1, (hb hbusy).2]; exact ⟨rfl, rfl⟩
  have hread : ∀ r : Bool, (if r && e.iseq.dispatcherBusyR then e.fifo0.tail else e.fifo0) =
      (if r then e.fifo0.tail else e.fifo0) ∧
      (if r && e.iseq.dispatcherBusyR then e.fifo1.tail else e.fifo1) =
        (if r then e.fifo1.tail else e.fifo1) := by
    intro r
    cases hbusy : e.iseq.dispatcherBusyR with
    | true => simp
    | false => rw [(hb hbusy).1, (hb hbusy).2]; simp
  simp only [Exec.next, IseqDispatcher.next, hw0, hw1, fifoNext_none_wr,
    IseqDispatcher.instr0FifoRd, IseqDispatcher.instr1FifoRd, iseqIn, hvalid, hread]
  exact ⟨PipeReg.flowing_next h0, PipeReg.flowing_next h1⟩

/-- After the first busy cycle both queues show their heads. -/
theorem Loading.next (h : e.Loading) (hw0 : i.wr0 = none) (hw1 : i.wr1 = none) :
    (Exec.next D e i).Flowing := by
  obtain ⟨hb, h0, h1⟩ := h
  obtain ⟨hf0, hf1⟩ := pipes_flowing_next (D := D) hw0 hw1
    (fun hn => by rw [hb] at hn; cases hn) (Or.inl h0) (Or.inl h1)
  refine ⟨hf0, hf1, fun hn => ?_⟩
  have hempty : e.fifo0 = [] ∧ e.fifo1 = [] := by
    rw [Exec.busy_next, hb] at hn
    simp only [Bool.true_and, Bool.or_eq_false_iff, Bool.not_eq_false', Bool.and_eq_true,
      List.isEmpty_iff] at hn
    exact hn.2.1.1
  obtain ⟨hq0, hq1⟩ := contents_of_no_write (D := D) ⟨h0.empty.sound, h1.empty.sound⟩ hw0 hw1
  rw [content0, h0.empty.held_eq, hempty.1] at hq0
  rw [content1, h1.empty.held_eq, hempty.2] at hq1
  simp only [List.append_nil, List.nil_eq, List.append_eq_nil_iff] at hq0 hq1
  exact ⟨hq0.2, hq1.2⟩

/-- The dispatcher stays busy exactly while it holds a word. -/
theorem Flowing.busy_next (h : e.Flowing) (hp : i.processIseq = false) :
    (Exec.next D e i).iseq.dispatcherBusyR = false ↔ e.content0 = [] ∧ e.content1 = [] := by
  rw [Exec.busy_next, hp, Bool.false_or]
  constructor
  · intro hn
    cases hb : e.iseq.dispatcherBusyR with
    | false => exact h.drained hb
    | true =>
      rw [hb] at hn
      simp only [Bool.true_and, Bool.or_eq_false_iff] at hn
      exact ⟨h.pipe0.valid_iff.1 hn.1.2, h.pipe1.valid_iff.1 hn.2⟩
  · rintro ⟨hc0, hc1⟩
    have hv0 := h.pipe0.valid_iff.2 hc0
    have hv1 := h.pipe1.valid_iff.2 hc1
    simp [hv0, hv1, h.pipe0.shown hv0, h.pipe1.shown hv1]

/-- Not written, the queues keep showing their heads. -/
theorem Flowing.next (h : e.Flowing) (hp : i.processIseq = false) (hw0 : i.wr0 = none)
    (hw1 : i.wr1 = none) : (Exec.next D e i).Flowing := by
  have hfifos : e.iseq.dispatcherBusyR = false → e.fifo0 = [] ∧ e.fifo1 = [] := by
    intro hb
    obtain ⟨hc0, hc1⟩ := h.drained hb
    exact ⟨(List.append_eq_nil_iff.1 hc0).2, (List.append_eq_nil_iff.1 hc1).2⟩
  obtain ⟨hf0, hf1⟩ := pipes_flowing_next (D := D) hw0 hw1 hfifos (Or.inr h.pipe0)
    (Or.inr h.pipe1)
  refine ⟨hf0, hf1, fun hn => ?_⟩
  obtain ⟨hq0, hq1⟩ := contents_of_no_write (D := D) h.sound hw0 hw1
  obtain ⟨he0, he1⟩ := (h.busy_next hp).1 hn
  rw [he0] at hq0
  rw [he1] at hq1
  simp only [List.nil_eq, List.append_eq_nil_iff] at hq0 hq1
  exact ⟨hq0.2, hq1.2⟩

/-- A drained dispatcher rests. -/
theorem Flowing.resting (h : e.Flowing) (hb : e.iseq.dispatcherBusyR = false) :
    e.Resting ∧ e.fifo0 = [] ∧ e.fifo1 = [] := by
  obtain ⟨hc0, hc1⟩ := h.drained hb
  have hv0 := h.pipe0.valid_iff.2 hc0
  have hv1 := h.pipe1.valid_iff.2 hc1
  exact ⟨⟨hb, ⟨hv0, h.pipe0.ready hv0⟩, ⟨hv1, h.pipe1.ready hv1⟩⟩, h.pipe0.shown hv0,
    h.pipe1.shown hv1⟩

end Exec

end SoftMC
