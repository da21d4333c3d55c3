import SoftMC.Common.Blocks
import SoftMC.Model.InstructionSequence
/-!
# The instruction sequence as a list

A sequence doubles its capacity when it is full. From any capacity but
zero that makes room, and the sequence holds what was inserted since it
was last reset; twice zero is zero, and the first instruction goes past
the end of an empty array.
-/

namespace SoftMC

namespace InstructionSequence

/-! ## One operation -/

/-- **What a sequence holds.** -/
structure Holds (s : InstructionSequence) (l : List Instruction) : Prop where
  pos : 0 < s.capacity.toNat
  alloc : s.instrs.length = s.capacity.toNat
  fits : s.size ≤ s.capacity
  length : s.size.toNat = l.length
  cells : s.instrs.take l.length = l.map some

variable {s : InstructionSequence} {l : List Instruction}

theorem holds_create {cap : UInt} (hcap : cap ≠ 0) : (create cap).Holds [] where
  pos := by
    rw [Nat.pos_iff_ne_zero]
    exact fun h => hcap (BitVec.eq_of_toNat_eq h)
  alloc := List.length_replicate
  fits := BitVec.le_def.2 (Nat.zero_le _)
  length := rfl
  cells := rfl

theorem Holds.reset (h : s.Holds l) : s.reset.Holds [] where
  pos := h.pos
  alloc := h.alloc
  fits := BitVec.le_def.2 (Nat.zero_le _)
  length := rfl
  cells := rfl

/-- **The copy loop** copies the cells it runs over and leaves the rest. -/
theorem copyLoop_eq (instrs tmp : List Cell) (k i : ℕ) (hk : i + k ≤ instrs.length)
    (htmp : i + k ≤ tmp.length) (hint : i + k ≤ 2 ^ 31) (hdone : tmp.take i = instrs.take i) :
    ∃ tmp', copyLoop instrs k i tmp = some tmp' ∧ tmp'.length = tmp.length ∧
      tmp'.take (i + k) = instrs.take (i + k) := by
  induction k generalizing i tmp with
  | zero => exact ⟨tmp, rfl, rfl, hdone⟩
  | succ k ih =>
    have hi : i < instrs.length := by omega
    have hnext : (tmp.set i instrs[i]).take (i + 1) = instrs.take (i + 1) := by
      rw [List.take_succ_eq_append_getElem (by rw [List.length_set]; omega),
        List.take_succ_eq_append_getElem hi, List.getElem_set_self, List.take_set_of_le (Nat.le_refl i),
        hdone]
    obtain ⟨tmp', hloop, hlen, htake⟩ := ih (tmp.set i instrs[i]) (i + 1) (by omega)
      (by rw [List.length_set]; omega) (by omega) hnext
    refine ⟨tmp', ?_, by rw [hlen, List.length_set], ?_⟩
    · rw [copyLoop, if_pos ⟨by omega, by omega⟩, List.getElem?_eq_getElem hi]
      exact hloop
    · rw [← Nat.add_assoc, Nat.add_right_comm]
      exact htake

/-- A full sequence grows to twice its capacity. -/
theorem Holds.grow (h : s.Holds l) (hfull : s.size = s.capacity) (hl : l.length < 2 ^ 31) :
    ∃ s', s.grow = some s' ∧ s'.Holds l ∧ l.length < s'.instrs.length := by
  have hlen : s.instrs.length = l.length := by rw [h.alloc, ← hfull, h.length]
  have hpos : 0 < l.length := by rw [← hlen, h.alloc]; exact h.pos
  have htwice : (s.capacity * 2).toNat = 2 * l.length := by
    have htwo : (2 : UInt).toNat = 2 := rfl
    rw [BitVec.toNat_mul, ← h.alloc, hlen, htwo, Nat.mul_comm]
    exact Nat.mod_eq_of_lt (by omega)
  have hnew : (newCells (s.capacity * 2)).length = 2 * l.length := by
    rw [newCells, List.length_replicate, htwice]
  obtain ⟨tmp, hloop, htmp, htake⟩ := copyLoop_eq s.instrs (newCells (s.capacity * 2))
    l.length 0 (by omega) (by omega) (by omega) rfl
  refine ⟨{ s with instrs := tmp, capacity := s.capacity * 2 }, ?_, ?_, ?_⟩
  · rw [InstructionSequence.grow, h.length, hloop]
    rfl
  · refine ⟨?_, by rw [htmp, hnew, htwice], ?_, h.length, ?_⟩
    · change 0 < (s.capacity * 2).toNat
      omega
    · rw [BitVec.le_def, h.length, htwice]
      omega
    · rw [Nat.zero_add] at htake
      rw [htake, h.cells]
  · rw [htmp, hnew]
    omega

/-- A sequence with room takes an instruction at its end. -/
theorem Holds.store (h : s.Holds l) (hroom : l.length < s.instrs.length) (c : Instruction) :
    ∃ s', s.store c = some s' ∧ s'.Holds (l ++ [c]) := by
  have hcap := s.capacity.isLt
  have halloc := h.alloc
  have hsize : (s.size + 1).toNat = l.length + 1 := by
    have hone : (1 : UInt).toNat = 1 := rfl
    rw [BitVec.toNat_add, h.length, hone]
    exact Nat.mod_eq_of_lt (by omega)
  refine ⟨{ s with instrs := s.instrs.set s.size.toNat (some c), size := s.size + 1 }, ?_, ?_⟩
  · rw [InstructionSequence.store, if_pos (by rw [h.length]; exact hroom)]
  · refine ⟨h.pos, by rw [List.length_set, halloc], ?_, by rw [hsize, List.length_append]; rfl, ?_⟩
    · rw [BitVec.le_def, hsize, ← halloc]
      exact hroom
    · rw [List.length_append, List.length_singleton, h.length,
        List.take_succ_eq_append_getElem (by rw [List.length_set]; exact hroom),
        List.getElem_set_self, List.take_set_of_le (Nat.le_refl _), h.cells, List.map_append]
      rfl

theorem Holds.insert (h : s.Holds l) (hl : l.length < 2 ^ 31) (c : Instruction) :
    ∃ s', s.insert c = some s' ∧ s'.Holds (l ++ [c]) := by
  rw [InstructionSequence.insert]
  by_cases hfull : s.size = s.capacity
  · obtain ⟨s', hgrow, hholds, hroom⟩ := h.grow hfull hl
    rw [if_pos hfull, hgrow]
    exact hholds.store hroom c
  · have hroom : l.length < s.instrs.length := by
      have hle := BitVec.le_def.1 h.fits
      rw [h.alloc, ← h.length]
      refine Nat.lt_of_le_of_ne hle fun heq => hfull (BitVec.eq_of_toNat_eq heq)
    rw [if_neg hfull]
    exact h.store hroom c

/-- **What `execute` sends** are the words of the instructions held. -/
theorem Holds.execute_eq (h : s.Holds l) (hl : l.length < 2 ^ 31) :
    s.execute = (l.map some).flatMap words := by
  have htwo : INSTR_SIZE.toNat = 2 := rfl
  have hlen : (INSTR_SIZE * s.size).toNat = 2 * l.length := by
    rw [BitVec.toNat_mul, h.length, htwo]
    exact Nat.mod_eq_of_lt (by omega)
  rw [execute, hlen, Blocks.take_flatMap (f := words) (c := 2) fun _ => rfl, h.cells]

/-! ## Histories -/

/-- What is done to a sequence. -/
inductive Op
  | insert (c : Instruction)
  | reset
  deriving DecidableEq, Repr

def apply (s : InstructionSequence) : Op → Option InstructionSequence
  | .insert c => s.insert c
  | .reset => some s.reset

/-- A history from the constructor on. -/
def after (cap : UInt) (ops : List Op) : Option InstructionSequence := ops.foldlM apply (create cap)

/-- The instructions inserted since the last reset. -/
def inserted (ops : List Op) : List Instruction :=
  ops.foldl (fun l op => match op with | .insert c => l ++ [c] | .reset => []) []

/-- A history with fewer than `2^31` elements at every moment. -/
structure History where
  ops : List Op
  short : ∀ past, past <+: ops → (inserted past).length < 2 ^ 31

/-- **A faithful growable list**: at every moment no access has missed the
array, the size is within the capacity, the sequence is what was inserted
since the last reset, and this is what `execute` sends. -/
def Faithful (cap : UInt) (ops : List Op) : Prop :=
  ∀ past, past <+: ops → ∃ s, after cap past = some s ∧ s.size ≤ s.capacity ∧
    s.size.toNat = (inserted past).length ∧
    s.instrs.take s.size.toNat = (inserted past).map some ∧
    s.execute = ((inserted past).map some).flatMap words

theorem after_concat (cap : UInt) (ops : List Op) (op : Op) :
    after cap (ops ++ [op]) = (after cap ops).bind (apply · op) := by
  rw [after, List.foldlM_append]
  simp only [List.foldlM_cons, List.foldlM_nil, bind_pure]
  rfl

theorem inserted_concat (ops : List Op) (op : Op) :
    inserted (ops ++ [op]) = match op with | .insert c => inserted ops ++ [c] | .reset => [] := by
  rw [inserted, List.foldl_append]
  rfl

/-- From a positive capacity every history goes through. -/
theorem after_holds {cap : UInt} (hcap : cap ≠ 0) (ops : List Op)
    (hshort : ∀ past, past <+: ops → (inserted past).length < 2 ^ 31) :
    ∃ s, after cap ops = some s ∧ s.Holds (inserted ops) := by
  induction ops using List.reverseRecOn with
  | nil => exact ⟨create cap, rfl, holds_create hcap⟩
  | append_singleton ops op ih =>
    have hprefix := List.prefix_append ops [op]
    obtain ⟨s, hs, hholds⟩ := ih fun past hpast => hshort past (hpast.trans hprefix)
    rw [after_concat, hs, inserted_concat, Option.bind_some]
    cases op with
    | insert c => exact hholds.insert (hshort ops hprefix) c
    | reset => exact ⟨s.reset, rfl, hholds.reset⟩

/-- Without an insertion nothing happens. -/
theorem after_of_no_insert (cap : UInt) (ops : List Op) (hops : ∀ c, Op.insert c ∉ ops) :
    after cap ops = some (create cap) ∧ inserted ops = [] := by
  induction ops using List.reverseRecOn with
  | nil => exact ⟨rfl, rfl⟩
  | append_singleton ops op ih =>
    obtain ⟨hafter, -⟩ := ih fun c hc => hops c (List.mem_append_left _ hc)
    rw [after_concat, inserted_concat, hafter]
    cases op with
    | insert c => exact absurd (List.mem_append_right ops (List.mem_singleton_self _)) (hops c)
    | reset => exact ⟨rfl, rfl⟩

/-- **The first insertion into an empty array misses it**: twice zero is
zero. -/
theorem insert_create_zero (c : Instruction) : (create 0).insert c = none := rfl

theorem after_zero_of_insert {ops : List Op} {c : Instruction} (hc : Op.insert c ∈ ops) :
    after 0 ops = none := by
  rw [after]
  induction ops with
  | nil => cases hc
  | cons op ops ih =>
    rw [List.foldlM_cons]
    cases op with
    | insert c' =>
      rw [apply, insert_create_zero]
      rfl
    | reset =>
      rcases List.mem_cons.1 hc with heq | hmem
      · cases heq
      · exact ih hmem

/-- **From a positive capacity** the sequence is a faithful list. -/
theorem faithful_of_ne_zero {cap : UInt} (hcap : cap ≠ 0) (h : History) : Faithful cap h.ops := by
  intro past hpast
  obtain ⟨s, hs, hholds⟩ := after_holds hcap past fun p hp => h.short p (hp.trans hpast)
  refine ⟨s, hs, hholds.fits, hholds.length, ?_, hholds.execute_eq (h.short past hpast)⟩
  rw [hholds.length, hholds.cells]

/-- So it is with the default one. -/
theorem faithful_initCap (h : History) : Faithful initCap h.ops :=
  faithful_of_ne_zero (by decide) h

theorem faithful_of_no_insert (cap : UInt) {ops : List Op} (hops : ∀ c, Op.insert c ∉ ops) :
    Faithful cap ops := by
  intro past hpast
  obtain ⟨hafter, hnil⟩ := after_of_no_insert cap past fun c hc => hops c (hpast.subset hc)
  rw [hnil]
  exact ⟨create cap, hafter, BitVec.le_def.2 (Nat.zero_le _), rfl, rfl, rfl⟩

theorem not_faithful_zero {ops : List Op} {c : Instruction} (hc : Op.insert c ∈ ops) :
    ¬ Faithful 0 ops := by
  intro h
  obtain ⟨s, hs, -⟩ := h ops (List.prefix_refl ops)
  rw [after_zero_of_insert hc] at hs
  cases hs

/-- **When the sequence is a faithful list**: its capacity is not zero, or
nothing is ever inserted. -/
theorem faithful_iff (cap : UInt) (h : History) :
    Faithful cap h.ops ↔ cap ≠ 0 ∨ ∀ c, Op.insert c ∉ h.ops := by
  constructor
  · intro hfaithful
    by_cases hcap : cap = 0
    · refine Or.inr fun c hc => ?_
      rw [hcap] at hfaithful
      exact not_faithful_zero hc hfaithful
    · exact Or.inl hcap
  · rintro (hcap | hops)
    · exact faithful_of_ne_zero hcap h
    · exact faithful_of_no_insert cap hops

/-- An end of sequence into a sequence of capacity zero. -/
theorem empty_misses : ¬ Faithful 0 [.insert Encoder.genEND] := by
  intro h
  obtain ⟨s, hs, -⟩ := h _ (List.prefix_refl _)
  cases hs

end InstructionSequence

end SoftMC
