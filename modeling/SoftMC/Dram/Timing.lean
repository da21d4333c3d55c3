import SoftMC.Dram.RowPrograms
import SoftMC.Maintenance.Program
/-!
# The distances the programs keep

What a program asks of a part can be read off it. The row programs of the
retention test and the programs of `maint_handler` are walked through once,
with the parameters left open.
-/

namespace SoftMC

open TwoSlot

/-- The command of an instruction decoded, and its WAIT. -/
def Action.cmd : Action → Option DramCmd
  | .ddr true cmd _ => some cmd
  | _ => none

def Action.waits : Action → Option ℕ
  | .wait cycles => some cycles.toNat
  | _ => none

/-- The distance of two instructions decoded. -/
def Ddr3.gap (p : Ddr3) (a b : Option Action) : ℕ :=
  match a.bind Action.cmd, b.bind Action.cmd with
  | some c, some c' => p.cmdGap c c'
  | _, _ => 0

/-- **The distance of two words of the queues.** -/
def Ddr3.instrGap (p : Ddr3) (w w' : Instr) : ℕ := p.gap (decode w) (decode w')

/-- A read decoded. -/
theorem exists_read_of_isRead {w : Instr} (h : Dispatcher.isRead w = true) :
    ∃ b c ap l x, decode w = some (.ddr true (.read b c ap l) x) := by
  rw [← any_isRead_decode] at h
  obtain ⟨a, ha, hread⟩ := (Option.any_eq_true _ _).1 h
  cases a with
  | ddr cke cmd x =>
    cases cke with
    | false => cases hread
    | true =>
      cases cmd with
      | read b c ap l => exact ⟨b, c, ap, l, x, ha⟩
      | _ => cases hread
  | _ => cases hread

/-- Two reads are tCCD apart. -/
theorem Ddr3.instrGap_reads (p : Ddr3) {w w' : Instr} (h : Dispatcher.isRead w = true)
    (h' : Dispatcher.isRead w' = true) : p.instrGap w w' = p.tCCD := by
  obtain ⟨b, c, ap, l, x, hw⟩ := exists_read_of_isRead h
  obtain ⟨b', c', ap', l', x', hw'⟩ := exists_read_of_isRead h'
  rw [instrGap, hw, hw']
  rfl

/-- The distance an instruction decoded asks for to its successor. -/
def actionWait (a : Option Action) : Option ℕ := a.bind Action.waits

theorem waitOf_eq (w : Instr) : waitOf w = actionWait (decode w) := by
  unfold waitOf decode actionWait
  cases h : opcode w with
  | ddr =>
    rw [if_neg (by simp)]
    cases (instrDecoder true w).dramCmd <;> rfl
  | wait => rfl
  | _ => rfl

theorem paced_decode {p : Ddr3} {l : List Instr} :
    Paced waitOf p.instrGap l ↔ Paced actionWait p.gap (l.map decode) := by
  rw [paced_map, show waitOf = actionWait ∘ decode from funext waitOf_eq]
  rfl

theorem settled_decode {p : Ddr3} {l : List Instr}
    (h : Settled actionWait p.gap (fun _ => True) (l.map decode)) :
    Settled waitOf p.instrGap (fun _ => True) l := by
  rw [show waitOf = actionWait ∘ decode from funext waitOf_eq]
  exact settled_map decode h

variable {p : Ddr3}

/-- The command of a DDR instruction, and a WAIT. -/
abbrev does (c : DramCmd) (pattern : Option (BitVec 8)) : Option Action :=
  some (.ddr true c pattern)

abbrev waitsFor (n : ℕ) : Option Action := some (.wait (.ofNat 10 n))

@[simp] theorem gap_does (c c' : DramCmd) (x x' : Option (BitVec 8)) :
    p.gap (does c x) (does c' x') = p.cmdGap c c' := rfl

@[simp] theorem cost_does (c : DramCmd) (x : Option (BitVec 8)) :
    cost actionWait (does c x) = 1 := rfl

/-- What is no command keeps no distance. -/
theorem gap_of_no_cmd {a b : Option Action} (h : a.bind Action.cmd = none ∨ b.bind Action.cmd = none) :
    p.gap a b = 0 := by
  unfold Ddr3.gap
  split
  · rename_i ha hb
    rcases h with h | h
    · rw [h] at ha; cases ha
    · rw [h] at hb; cases hb
  · rfl

@[simp] theorem gap_wait_left (n : BitVec 10) (b : Option Action) : p.gap (some (.wait n)) b = 0 :=
  gap_of_no_cmd (Or.inl rfl)

@[simp] theorem gap_wait_right (a : Option Action) (n : BitVec 10) : p.gap a (some (.wait n)) = 0 :=
  gap_of_no_cmd (Or.inr rfl)

@[simp] theorem gap_end_left (b : Option Action) : p.gap (some .endIseq) b = 0 :=
  gap_of_no_cmd (Or.inl rfl)

@[simp] theorem gap_end_right (a : Option Action) : p.gap a (some .endIseq) = 0 :=
  gap_of_no_cmd (Or.inr rfl)

@[simp] theorem gap_busdir_left (d : BitVec 2) (b : Option Action) :
    p.gap (some (.setBusdir d)) b = 0 :=
  gap_of_no_cmd (Or.inl rfl)

@[simp] theorem gap_busdir_right (a : Option Action) (d : BitVec 2) :
    p.gap a (some (.setBusdir d)) = 0 :=
  gap_of_no_cmd (Or.inr rfl)

/-- No command asks for more than the largest distance it can ask for. -/
theorem gap_does_le {c : DramCmd} {x : Option (BitVec 8)} {n : ℕ} (h : ∀ c', p.cmdGap c c' ≤ n)
    (b : Option Action) : p.gap (does c x) b ≤ n := by
  cases hb : b.bind Action.cmd with
  | none => rw [gap_of_no_cmd (Or.inr hb)]; exact Nat.zero_le n
  | some c' =>
    have : p.gap (does c x) b = p.cmdGap c c' := by simp [Ddr3.gap, hb, Action.cmd]
    rw [this]
    exact h c'

/-! ## The largest distance of a command -/

theorem cmdGap_precharge_le (b : BitVec BANK_WIDTH) (c : DramCmd) :
    p.cmdGap (.precharge b) c ≤ p.tRP := by
  cases c <;> simp only [Ddr3.cmdGap, Ddr3.afterClosing] <;> grind

theorem cmdGap_prechargeAll_le (c : DramCmd) : p.cmdGap .prechargeAll c ≤ p.tRP := by
  cases c <;> simp only [Ddr3.cmdGap, Ddr3.afterClosing] <;> grind

theorem cmdGap_activate_le {b : BitVec BANK_WIDTH} {r : BitVec ROW_WIDTH} {n : ℕ}
    (hrc : p.tRAS + p.tRP ≤ n) (hrrd : p.tRRD ≤ n) (hrcd : p.tRCD ≤ n) (c : DramCmd) :
    p.cmdGap (.activate b r) c ≤ n := by
  cases c <;> simp only [Ddr3.cmdGap, Ddr3.afterActivate] <;> grind

/-- A column command that leaves its bank open. -/
theorem afterColumn_le {b : BitVec BANK_WIDTH} {write read toPre n : ℕ} (hw : write ≤ n)
    (hr : read ≤ n) (hp : toPre ≤ n) (c : DramCmd) :
    p.afterColumn b false write read toPre c ≤ n := by
  cases c <;> simp only [Ddr3.afterColumn] <;> grind

theorem cmdGap_service_le (c : DramCmd) :
    p.cmdGap .refresh c ≤ p.tRFC ∧ p.cmdGap .zqShort c ≤ p.tZQCS := by
  cases c <;> simp [Ddr3.cmdGap, Ddr3.afterService]

/-! ## The row programs -/

namespace RetentionTest

/-- The loop of a row program, decoded. -/
def burstActions (f : ℕ → Option Action) (ks : List ℕ) : List (Option Action) :=
  ks.flatMap fun k => [f k, waitsFor 10]

/-- What stands behind the loop. -/
def closeActions (b : BitVec BANK_WIDTH) : List (Option Action) :=
  [waitsFor 3, does (.precharge b) none, waitsFor 5, some .endIseq]

def rowActions (b : BitVec BANK_WIDTH) (r : BitVec ROW_WIDTH) (f : ℕ → Option Action)
    (ks : List ℕ) : List (Option Action) :=
  does (.precharge b) none :: waitsFor 5 :: does (.activate b r) none :: waitsFor 5 ::
    (burstActions f ks ++ closeActions b)

@[simp] theorem cost_waitsFor_three : cost actionWait (waitsFor 3) = 3 := rfl
@[simp] theorem cost_waitsFor_five : cost actionWait (waitsFor 5) = 5 := rfl
@[simp] theorem cost_waitsFor_ten : cost actionWait (waitsFor 10) = 10 := rfl

/-- Commands that keep the same distances, on an open row of a bank. -/
structure Columns (p : Ddr3) (b : BitVec BANK_WIDTH) (r : BitVec ROW_WIDTH) (c : ℕ → DramCmd)
    (close : ℕ) : Prop where
  open_ : ∀ k, p.cmdGap (.activate b r) (c k) = p.tRCD
  free : ∀ k, p.cmdGap (.precharge b) (c k) = 0
  next : ∀ k k', p.cmdGap (c k) (c k') = p.tCCD
  close : ∀ k, p.cmdGap (c k) (.precharge b) = close

section Row

variable {b : BitVec BANK_WIDTH} {r : BitVec ROW_WIDTH} {c : ℕ → DramCmd} {close : ℕ}
  {x : Option (BitVec 8)}

theorem total_burstActions (ks : List ℕ) :
    total actionWait (burstActions (fun k => does (c k) x) ks) = 11 * ks.length := by
  induction ks with
  | nil => rfl
  | cons k ks ih =>
    rw [burstActions, List.flatMap_cons, total_append, List.length_cons]
    change 11 + total actionWait (burstActions (fun k => does (c k) x) ks) = _
    rw [ih]
    omega

theorem total_close : total actionWait (closeActions b) = 10 := rfl

/-- The commands of the loop keep a distance from what stands before. -/
theorem behind_bursts {a : Option Action} {d : ℕ} {ks : List ℕ}
    (h : ∀ k ∈ ks, p.gap a (does (c k) x) ≤ d) :
    Behind actionWait p.gap a d (burstActions (fun k => does (c k) x) ks) := by
  refine behind_of_le fun y hy => ?_
  obtain ⟨k, hk, hy⟩ := List.mem_flatMap.1 hy
  rcases List.mem_pair.1 hy with rfl | rfl
  · exact h k hk
  · rw [gap_wait_right]
    exact Nat.zero_le d

theorem paced_close : Paced actionWait p.gap (closeActions b) := by
  simp [closeActions]

/-- The loop and what stands behind it. -/
theorem paced_bursts_iff (hc : Columns p b r c close) {ks : List ℕ} (hks : 2 ≤ ks.length) :
    Paced actionWait p.gap (burstActions (fun k => does (c k) x) ks ++ closeActions b) ↔
      p.tCCD ≤ 11 ∧ close ≤ 14 := by
  constructor
  · intro h
    obtain ⟨k, k', l, rfl⟩ : ∃ k k' l, ks = k :: k' :: l := by
      match ks with
      | k :: k' :: l => exact ⟨k, k', l, rfl⟩
    have hnext := h.1.2.1
    rw [gap_does, hc.next] at hnext
    obtain ⟨init, last, hlast⟩ : ∃ init last, k :: k' :: l = init ++ [last] :=
      ⟨_, _, (List.dropLast_append_getLast (List.cons_ne_nil k (k' :: l))).symm⟩
    rw [hlast, burstActions, List.flatMap_append, List.append_assoc] at h
    have hclose := h.of_append_right.1.2.2.1
    rw [gap_does, hc.close] at hclose
    exact ⟨hnext, hclose⟩
  · rintro ⟨hnext, hclose⟩
    clear hks
    induction ks with
    | nil => exact paced_close
    | cons k ks ih =>
      have hrest : Behind actionWait p.gap (does (c k) x) 11
          (burstActions (fun k => does (c k) x) ks ++ closeActions b) := by
        refine behind_append.2 ⟨behind_bursts fun k' _ => by rwa [gap_does, hc.next], ?_⟩
        refine Behind.mono (d := 11) ?_ (Nat.le_add_right _ _)
        simp [closeActions, hc.close, hclose]
      rw [burstActions, List.flatMap_cons, List.append_assoc]
      refine ⟨⟨by simp, hrest⟩, behind_of_zero fun y _ => by simp, ih⟩

/-- The precharge in front of a row, and its activation. -/
theorem behind_precharge_iff (hc : Columns p b r c close) (ks : List ℕ) :
    Behind actionWait p.gap (does (.precharge b) none) 1
      (waitsFor 5 :: does (.activate b r) none :: waitsFor 5 ::
        (burstActions (fun k => does (c k) x) ks ++ closeActions b)) ↔ p.tRP ≤ 6 := by
  have hact : p.cmdGap (.precharge b) (.activate b r) = p.tRP := by
    simp [Ddr3.cmdGap, Ddr3.afterClosing]
  have hbursts : Behind actionWait p.gap (does (.precharge b) none) 12
      (burstActions (fun k => does (c k) x) ks ++ closeActions b) := by
    refine behind_append.2 ⟨behind_bursts fun k _ => by simp [hc.free], ?_⟩
    simp [closeActions, Ddr3.cmdGap, Ddr3.afterClosing]
  simp [hact, hbursts]

theorem behind_activate_iff (hc : Columns p b r c close) {ks : List ℕ} (hks : 2 ≤ ks.length) :
    Behind actionWait p.gap (does (.activate b r) none) 1
      (waitsFor 5 :: (burstActions (fun k => does (c k) x) ks ++ closeActions b)) ↔
      p.tRCD ≤ 6 ∧ p.tRAS ≤ 11 * ks.length + 9 := by
  have hpre : p.cmdGap (.activate b r) (.precharge b) = p.tRAS := by
    simp [Ddr3.cmdGap, Ddr3.afterActivate]
  rw [behind_cons, cost_waitsFor_five, behind_append, total_burstActions]
  constructor
  · rintro ⟨-, hbursts, hclose⟩
    obtain ⟨k, l, rfl⟩ : ∃ k l, ks = k :: l := by
      match ks with
      | k :: l => exact ⟨k, l, rfl⟩
    have hopen := hbursts.1
    rw [gap_does, hc.open_] at hopen
    have hras := hclose.2.1
    rw [gap_does, hpre, cost_waitsFor_three] at hras
    exact ⟨hopen, by omega⟩
  · rintro ⟨hopen, hras⟩
    refine ⟨by simp, behind_bursts fun k _ => by rwa [gap_does, hc.open_], ?_⟩
    simp only [closeActions, behind_cons, gap_wait_right, gap_does, gap_end_right, hpre,
      cost_waitsFor_three, behind_nil, Nat.zero_le, true_and, and_true]
    omega

/-- **Which part a row program suits.** -/
theorem paced_row_iff (hc : Columns p b r c close) {ks : List ℕ} (hks : 2 ≤ ks.length) :
    Paced actionWait p.gap (rowActions b r (fun k => does (c k) x) ks) ↔
      p.tRP ≤ 6 ∧ p.tRCD ≤ 6 ∧ p.tRAS ≤ 11 * ks.length + 9 ∧ p.tCCD ≤ 11 ∧ close ≤ 14 := by
  have hwait : ∀ (n : BitVec 10) (d : ℕ) (l : List (Option Action)),
      Behind actionWait p.gap (some (.wait n)) d l := fun n d l => behind_of_zero fun y _ => by simp
  have hpre := behind_precharge_iff (x := x) hc ks
  have hact := behind_activate_iff (x := x) hc hks
  have hbursts := paced_bursts_iff (x := x) hc hks
  change (Behind _ _ _ 1 _ ∧ Behind _ _ _ _ _ ∧ Behind _ _ _ 1 _ ∧ Behind _ _ _ _ _ ∧ Paced _ _ _) ↔ _
  rw [hpre, hact, hbursts]
  simp only [hwait, true_and, and_assoc]

/-- **And when it is done with it**: whatever follows keeps its distance. -/
theorem settled_row (hfree : p.tRP ≤ 7) (hopen : ∀ c', p.cmdGap (.activate b r) c' ≤ 1424)
    (hcol : ∀ k c', p.cmdGap (c k) c' ≤ 21) {ks : List ℕ} (hks : ks.length = 128) :
    Settled actionWait p.gap (fun _ => True) (rowActions b r (fun k => does (c k) x) ks) := by
  have hpre : ∀ y, p.gap (does (.precharge b) none) y ≤ 7 :=
    gap_does_le fun c' => Nat.le_trans (cmdGap_precharge_le b c') hfree
  have hclose : Settled actionWait p.gap (fun _ => True) (closeActions b) :=
    ⟨fun y _ => by simp, fun y _ => hpre y, fun y _ => by simp, fun y _ => by simp, trivial⟩
  have hbursts : Settled actionWait p.gap (fun _ => True)
      (burstActions (fun k => does (c k) x) ks ++ closeActions b) := by
    clear hks
    induction ks with
    | nil => exact hclose
    | cons k ks ih =>
      rw [burstActions, List.flatMap_cons, List.append_assoc]
      refine ⟨fun y _ => ?_, fun y _ => by simp, ih⟩
      refine Nat.le_trans (gap_does_le (hcol k) y) ?_
      change 21 ≤ total actionWait ([does (c k) x, waitsFor 10] ++ (_ ++ closeActions b))
      rw [total_append, total_append, total_close]
      change 21 ≤ 11 + _
      omega
  have htotal : total actionWait (burstActions (fun k => does (c k) x) ks ++ closeActions b) = 1418 := by
    rw [total_append, total_burstActions, total_close, hks]
  refine ⟨fun y _ => ?_, fun y _ => by simp, fun y _ => ?_, fun y _ => by simp, hbursts⟩
  · simp only [total_cons, htotal]
    exact Nat.le_trans (hpre y) (by omega)
  · simp only [total_cons, htotal, cost_does, cost_waitsFor_five]
    exact gap_does_le hopen y

end Row

/-! ### Writing and reading a row -/

section Calls

variable {row bank : UInt} {burst : UInt → Call} {c : ℕ → DramCmd} {x : Option (BitVec 8)}

/-- The calls of a row program, decoded. -/
theorem intended_rowCalls (h : ∀ k, (burst (.ofNat 32 (8 * k))).intended = .ddr true (c k) x) :
    (rowCalls row bank burst).map (fun c => some c.intended) =
      rowActions (bank.setWidth _) (row.setWidth _) (fun k => does (c k) x) (List.range 128) := by
  have hcols : (columns.flatMap fun i => [burst i, .wait (6 + 4)]).map (fun c => some c.intended) =
      burstActions (fun k => does (c k) x) (List.range 128) := by
    rw [columns, burstActions, List.flatMap_map, List.map_flatMap]
    refine List.flatMap_congr fun k _ => ?_
    rw [List.map_cons, h k]
    rfl
  rw [rowCalls, List.map_append, List.map_append, hcols, List.append_assoc]
  rfl

end Calls

/-- The writes of a row, and its reads. -/
def writeCmd (bank : UInt) (k : ℕ) : DramCmd :=
  .write (bank.setWidth _) ((BitVec.ofNat 32 (8 * k)).setWidth _) false true

def readCmd (bank : UInt) (k : ℕ) : DramCmd :=
  .read (bank.setWidth _) ((BitVec.ofNat 32 (8 * k)).setWidth _) false true

theorem columns_writeCmd (bank : UInt) (r : BitVec ROW_WIDTH) :
    Columns p (bank.setWidth _) r (writeCmd bank) p.writeToPre where
  open_ k := by simp [writeCmd, Ddr3.cmdGap, Ddr3.afterActivate]
  free k := by simp [writeCmd, Ddr3.cmdGap, Ddr3.afterClosing]
  next k k' := by simp [writeCmd, Ddr3.cmdGap, Ddr3.afterColumn]
  close k := by simp [writeCmd, Ddr3.cmdGap, Ddr3.afterColumn]

theorem columns_readCmd (bank : UInt) (r : BitVec ROW_WIDTH) :
    Columns p (bank.setWidth _) r (readCmd bank) p.tRTP where
  open_ k := by simp [readCmd, Ddr3.cmdGap, Ddr3.afterActivate]
  free k := by simp [readCmd, Ddr3.cmdGap, Ddr3.afterClosing]
  next k k' := by simp [readCmd, Ddr3.cmdGap, Ddr3.afterColumn]
  close k := by simp [readCmd, Ddr3.cmdGap, Ddr3.afterColumn]

theorem two_le_bursts : 2 ≤ (List.range 128).length := by
  rw [List.length_range]
  decide

section Programs

variable {row bank : UInt} (hb : bank.toNat < 8) (hr : row.toNat < 2 ^ 16) (pattern : BitVec 8)

include hb hr

/-- **Which part `writeRow` suits.** -/
theorem paced_writeRow_iff :
    Paced waitOf p.instrGap (program (writeRowCalls row bank pattern)) ↔
      p.tRP ≤ 6 ∧ p.tRCD ≤ 6 ∧ p.tRAS ≤ 1417 ∧ p.tCCD ≤ 11 ∧ p.writeToPre ≤ 14 := by
  rw [paced_decode, decode_program (writeRowCalls_valid hb hr pattern), writeRowCalls,
    intended_rowCalls (c := writeCmd bank) (x := some pattern) fun _ => rfl]
  have hrow := paced_row_iff (x := some pattern)
    (columns_writeCmd (p := p) bank (row.setWidth _)) two_le_bursts
  rwa [List.length_range] at hrow

/-- **And `readAndCompareRow`.** -/
theorem paced_readRow_iff :
    Paced waitOf p.instrGap (program (readRowCalls row bank)) ↔
      p.tRP ≤ 6 ∧ p.tRCD ≤ 6 ∧ p.tRAS ≤ 1417 ∧ p.tCCD ≤ 11 ∧ p.tRTP ≤ 14 := by
  rw [paced_decode, decode_program (readRowCalls_valid hb hr), readRowCalls,
    intended_rowCalls (c := readCmd bank) (x := none) fun _ => rfl]
  have hrow := paced_row_iff (x := none)
    (columns_readCmd (p := p) bank (row.setWidth _)) two_le_bursts
  rwa [List.length_range] at hrow

end Programs

end RetentionTest

end SoftMC
