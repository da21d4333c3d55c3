import Mathlib.Logic.Function.Basic
import Mathlib.Data.Fintype.Basic
import Mathlib.Data.List.Basic
/-!
# Banked memories

A memory of banks, each with at most one row open. A row is opened before
it is read or written and the bank closed before the next is opened; a
command a bank is not ready for has no result.

What is known of a bank may be less than what it is: a program accepted by
banks of which nothing is known is accepted by all, and does the same in
each (`exec_mono`). Programs of this kind can be interleaved whole, and
those among them that write nothing leave no trace in the others
(`exec_interleaved`).
-/

namespace Banked

/-- The commands. `service` wants every bank closed, and `other` stands for
what no bank accepts. -/
inductive Cmd (B R C D : Type*)
  | activate (bank : B) (row : R)
  | precharge (bank : B)
  | prechargeAll
  | write (bank : B) (col : C) (data : D) (close : Bool)
  | read (bank : B) (col : C) (close : Bool)
  | service
  | other
  deriving DecidableEq, Repr

/-- The commands that give data. -/
def Cmd.isRead {B R C D : Type*} : Cmd B R C D → Bool
  | .read _ _ _ => true
  | .activate _ _ | .precharge _ | .prechargeAll | .write _ _ _ _ | .service | .other => false

/-- What is known of a bank. -/
inductive BankState (R : Type*)
  | unknown
  | idle
  | active (row : R)
  deriving DecidableEq, Repr

/-- The banks and the cells. -/
structure Memory (B R C D : Type*) where
  bank : B → BankState R
  cell : B → R → C → D

variable {L B R C D : Type*}

/-- The second state is the first, or more is known in it. -/
def BankState.Le (s s' : BankState R) : Prop := s = .unknown ∨ s = s'

namespace BankState

theorem Le.refl (s : BankState R) : s.Le s := Or.inr rfl

theorem Le.eq {s s' : BankState R} (h : s.Le s') (hs : s ≠ .unknown) : s' = s :=
  (h.resolve_left hs).symm

end BankState

/-! ## One command -/

section Step

variable [DecidableEq B] [DecidableEq R] [DecidableEq C] [Fintype B]

/-- A bank after a column command, closed behind it or not. -/
def closed (s : B → BankState R) (b : B) (close : Bool) : B → BankState R :=
  if close then Function.update s b .idle else s

/-- The banks after a command they are ready for. -/
def nextBanks (s : B → BankState R) : Cmd B R C D → Option (B → BankState R)
  | .activate b r => if s b = .idle then some (Function.update s b (.active r)) else none
  | .precharge b => some (Function.update s b .idle)
  | .prechargeAll => some fun _ => .idle
  | .write b _ _ close | .read b _ close =>
    match s b with
    | .active _ => some (closed s b close)
    | _ => none
  | .service => if ∀ b, s b = .idle then some s else none
  | .other => none

/-- A cell overwritten. -/
def store (cell : B → R → C → D) (b : B) (r : R) (c : C) (d : D) : B → R → C → D :=
  fun b' r' c' => if b' = b ∧ r' = r ∧ c' = c then d else cell b' r' c'

/-- The cells after a command. -/
def nextCell (s : B → BankState R) (cell : B → R → C → D) : Cmd B R C D → B → R → C → D
  | .write b c d _ =>
    match s b with
    | .active r => store cell b r c d
    | _ => cell
  | _ => cell

/-- What a command reads. -/
def output (s : B → BankState R) (cell : B → R → C → D) : Cmd B R C D → List D
  | .read b c _ =>
    match s b with
    | .active r => [cell b r c]
    | _ => []
  | _ => []

/-- **One command.** -/
def step (m : Memory B R C D) (c : Cmd B R C D) : Option (Memory B R C D × List D) :=
  (nextBanks m.bank c).map fun s => (⟨s, nextCell m.bank m.cell c⟩, output m.bank m.cell c)

variable {m : Memory B R C D} {b : B} {r : R}

theorem step_activate (h : m.bank b = .idle) (r : R) :
    step m (.activate b r) = some (⟨Function.update m.bank b (.active r), m.cell⟩, []) := by
  simp only [step, nextBanks, if_pos h, Option.map_some]
  rfl

@[simp] theorem step_precharge (m : Memory B R C D) (b : B) :
    step m (.precharge b) = some (⟨Function.update m.bank b .idle, m.cell⟩, []) := rfl

@[simp] theorem step_prechargeAll (m : Memory B R C D) :
    step m .prechargeAll = some (⟨fun _ => .idle, m.cell⟩, []) := rfl

theorem step_write (h : m.bank b = .active r) (c : C) (d : D) (close : Bool) :
    step m (.write b c d close) = some (⟨closed m.bank b close, store m.cell b r c d⟩, []) := by
  simp only [step, nextBanks, nextCell, output, h, Option.map_some]

theorem step_read (h : m.bank b = .active r) (c : C) (close : Bool) :
    step m (.read b c close) = some (⟨closed m.bank b close, m.cell⟩, [m.cell b r c]) := by
  simp only [step, nextBanks, nextCell, output, h, Option.map_some]

theorem step_service (h : ∀ b, m.bank b = .idle) : step m .service = some (m, []) := by
  simp only [step, nextBanks, if_pos h, Option.map_some]
  rfl

/-- **What banks have to be ready for.** A column command names a bank with
a row open, an activation a closed one, and a service finds all closed. -/
theorem ready_of_step {c : Cmd B R C D} (h : step m c ≠ none) :
    match c with
    | .activate b _ => m.bank b = .idle
    | .write b _ _ _ | .read b _ _ => ∃ r, m.bank b = .active r
    | .service => ∀ b, m.bank b = .idle
    | .precharge _ | .prechargeAll => True
    | .other => False := by
  cases c with
  | activate b r =>
    by_contra hb
    exact h (by simp only [step, nextBanks, if_neg hb, Option.map_none])
  | service =>
    by_contra hb
    exact h (by simp only [step, nextBanks, if_neg hb, Option.map_none])
  | write b c d close =>
    cases hb : m.bank b with
    | active r => exact ⟨r, hb⟩
    | unknown => exact absurd (by simp only [step, nextBanks, hb, Option.map_none]) h
    | idle => exact absurd (by simp only [step, nextBanks, hb, Option.map_none]) h
  | read b c close =>
    cases hb : m.bank b with
    | active r => exact ⟨r, hb⟩
    | unknown => exact absurd (by simp only [step, nextBanks, hb, Option.map_none]) h
    | idle => exact absurd (by simp only [step, nextBanks, hb, Option.map_none]) h
  | other => exact h rfl
  | precharge b => trivial
  | prechargeAll => trivial

/-- **A program**, each command with a label that its data bear. -/
def exec (m : Memory B R C D) : List (L × Cmd B R C D) → Option (Memory B R C D × List (L × D))
  | [] => some (m, [])
  | c :: l => (step m c.2).bind fun p =>
      (exec p.1 l).map fun q => (q.1, p.2.map (c.1, ·) ++ q.2)

@[simp] theorem exec_nil (m : Memory B R C D) : exec (L := L) m [] = some (m, []) := rfl

theorem exec_cons (m : Memory B R C D) (c : L × Cmd B R C D) (l : List (L × Cmd B R C D)) :
    exec m (c :: l) = (step m c.2).bind fun p =>
      (exec p.1 l).map fun q => (q.1, p.2.map (c.1, ·) ++ q.2) := rfl

/-- What a program's first command does, and its others. -/
theorem exec_cons_eq_some {m m₁ : Memory B R C D} {c : L × Cmd B R C D}
    {l : List (L × Cmd B R C D)} {out : List (L × D)} (h : exec m (c :: l) = some (m₁, out)) :
    ∃ m₂ ds out', step m c.2 = some (m₂, ds) ∧ exec m₂ l = some (m₁, out') ∧
      out = ds.map (c.1, ·) ++ out' := by
  rw [exec_cons, Option.bind_eq_some_iff] at h
  obtain ⟨⟨m₂, ds⟩, hstep, hrest⟩ := h
  obtain ⟨⟨m₃, out'⟩, hexec, heq⟩ := Option.map_eq_some_iff.1 hrest
  obtain ⟨rfl, rfl⟩ := Prod.mk.inj heq
  exact ⟨m₂, ds, out', hstep, hexec, rfl⟩

/-- One program after another. -/
theorem exec_append (m : Memory B R C D) (l l' : List (L × Cmd B R C D)) :
    exec m (l ++ l') =
      (exec m l).bind fun p => (exec p.1 l').map fun q => (q.1, p.2 ++ q.2) := by
  induction l generalizing m with
  | nil => simp
  | cons c l ih =>
    rw [List.cons_append, exec_cons, exec_cons]
    cases step m c.2 with
    | none => rfl
    | some p =>
      simp only [Option.bind_some, ih, Option.bind_map, Option.map_bind]
      congr 1
      funext q
      simp [Function.comp_def, List.append_assoc]

theorem exec_append_of_some {m m₁ m₂ : Memory B R C D} {l l' : List (L × Cmd B R C D)}
    {out out' : List (L × D)} (h : exec m l = some (m₁, out)) (h' : exec m₁ l' = some (m₂, out')) :
    exec m (l ++ l') = some (m₂, out ++ out') := by
  rw [exec_append, h, Option.bind_some, h', Option.map_some]

/-- What two programs do, each for itself. -/
theorem exec_append_eq_some {m m₁ : Memory B R C D} {l l' : List (L × Cmd B R C D)}
    {out : List (L × D)} (h : exec m (l ++ l') = some (m₁, out)) :
    ∃ m₂ o o', exec m l = some (m₂, o) ∧ exec m₂ l' = some (m₁, o') ∧ out = o ++ o' := by
  rw [exec_append, Option.bind_eq_some_iff] at h
  obtain ⟨⟨m₂, o⟩, hl, hrest⟩ := h
  obtain ⟨⟨m₃, o'⟩, hl', heq⟩ := Option.map_eq_some_iff.1 hrest
  obtain ⟨rfl, rfl⟩ := Prod.mk.inj heq
  exact ⟨m₂, o, o', hl, hl', rfl⟩

/-- What is accepted is accepted up to any of its commands. -/
theorem exec_ne_none_of_prefix {m : Memory B R C D} {l l' : List (L × Cmd B R C D)} (h : l' <+: l)
    (hl : exec m l ≠ none) : exec m l' ≠ none := by
  obtain ⟨t, rfl⟩ := h
  obtain ⟨⟨m₁, out⟩, he⟩ := Option.ne_none_iff_exists'.1 hl
  obtain ⟨m₂, o, o', hl', -, -⟩ := exec_append_eq_some he
  rw [hl']
  exact Option.some_ne_none _

theorem length_output {m m₁ : Memory B R C D} {c : Cmd B R C D} {ds : List D}
    (h : step m c = some (m₁, ds)) : ds.length = c.isRead.toNat := by
  have hready := ready_of_step (m := m) (c := c) (by rw [h]; exact Option.some_ne_none _)
  obtain ⟨s, -, heq⟩ := Option.map_eq_some_iff.1 h
  obtain ⟨-, rfl⟩ := Prod.mk.inj heq
  cases c with
  | read b c close =>
    obtain ⟨r, hb⟩ := hready
    simp [output, hb, Cmd.isRead]
  | _ => rfl

/-- **The data of a program bear the labels of its reads.** -/
theorem map_fst_output {m m₁ : Memory B R C D} {l : List (L × Cmd B R C D)} {out : List (L × D)}
    (he : exec m l = some (m₁, out)) :
    out.map Prod.fst = (l.filter fun c => c.2.isRead).map Prod.fst := by
  induction l generalizing m out with
  | nil =>
    obtain ⟨-, rfl⟩ := Prod.mk.inj (Option.some.inj he)
    rfl
  | cons c l ih =>
    obtain ⟨m₂, ds, out', hstep, hexec, rfl⟩ := exec_cons_eq_some he
    have hlen := length_output hstep
    rw [List.map_append, ih hexec, List.map_map]
    cases hc : c.2.isRead with
    | true =>
      obtain ⟨d, rfl⟩ := List.length_eq_one_iff.1 (by rw [hlen, hc]; rfl)
      rw [List.filter_cons, if_pos hc]
      rfl
    | false =>
      obtain rfl := List.length_eq_zero_iff.1 (by rw [hlen, hc]; rfl)
      rw [List.filter_cons, if_neg (by simp [hc])]
      rfl

/-- What is accepted is a command. -/
theorem other_not_mem {m : Memory B R C D} {l : List (L × Cmd B R C D)} (h : exec m l ≠ none) {c}
    (hc : c ∈ l) : c.2 ≠ .other := by
  induction l generalizing m with
  | nil => cases hc
  | cons c' l ih =>
    obtain ⟨⟨m₁, out⟩, he⟩ := Option.ne_none_iff_exists'.1 h
    obtain ⟨m₂, ds, out', hstep, hexec, -⟩ := exec_cons_eq_some he
    rcases List.mem_cons.1 hc with rfl | hmem
    · intro hother
      rw [hother] at hstep
      cases hstep
    · exact ih (by rw [hexec]; exact Option.some_ne_none _) hmem

/-- Labels are carried along. -/
theorem exec_relabel {L' : Type*} (f : L → L') (m : Memory B R C D)
    (l : List (L × Cmd B R C D)) :
    exec m (l.map (Prod.map f id)) =
      (exec m l).map fun p => (p.1, p.2.map (Prod.map f id)) := by
  induction l generalizing m with
  | nil => rfl
  | cons c l ih =>
    rw [List.map_cons, exec_cons, exec_cons, Option.map_bind]
    change (step m c.2).bind _ = (step m c.2).bind _
    congr 1
    funext p
    simp only [ih, Function.comp_apply, Option.map_map]
    congr 1
    funext q
    simp [Function.comp_def]

end Step

/-! ## Knowing less -/

/-- The same cells, and nothing known in the first memory but what is so in
the second. -/
structure Memory.Le (m m' : Memory B R C D) : Prop where
  cell : m.cell = m'.cell
  bank : ∀ b, (m.bank b).Le (m'.bank b)

/-- Nothing is known of the banks. -/
def Memory.forget (m : Memory B R C D) : Memory B R C D := { m with bank := fun _ => .unknown }

theorem Memory.forget_le (m : Memory B R C D) : m.forget.Le m := ⟨rfl, fun _ => Or.inl rfl⟩

section Mono

variable [DecidableEq B]

theorem le_update {s s' : B → BankState R} (h : ∀ b, (s b).Le (s' b)) (b : B) (x : BankState R)
    (b' : B) : (Function.update s b x b').Le (Function.update s' b x b') := by
  by_cases hb : b' = b
  · subst hb
    rw [Function.update_self, Function.update_self]
    exact .refl x
  · rw [Function.update_of_ne hb, Function.update_of_ne hb]
    exact h b'

theorem le_closed {s s' : B → BankState R} (h : ∀ b, (s b).Le (s' b)) (b : B) (close : Bool)
    (b' : B) : (closed s b close b').Le (closed s' b close b') := by
  unfold closed
  split
  · exact le_update h b .idle b'
  · exact h b'

variable [DecidableEq R] [DecidableEq C] [Fintype B]

/-- **A command accepted on what is known is accepted**, and does the
same. -/
theorem step_mono {m m' m₁ : Memory B R C D} {c : Cmd B R C D} {out : List D} (h : m.Le m')
    (hs : step m c = some (m₁, out)) : ∃ m₁', step m' c = some (m₁', out) ∧ m₁.Le m₁' := by
  have hready := ready_of_step (m := m) (c := c) (by rw [hs]; exact Option.some_ne_none _)
  have hactive : ∀ b r, m.bank b = .active r → m'.bank b = .active r := by
    intro b r hb
    rw [(h.bank b).eq (by rw [hb]; simp), hb]
  have hidle : ∀ b, m.bank b = .idle → m'.bank b = .idle := by
    intro b hb
    rw [(h.bank b).eq (by rw [hb]; simp), hb]
  cases c with
  | activate b r =>
    rw [step_activate hready] at hs
    obtain ⟨rfl, rfl⟩ := Prod.mk.inj (Option.some.inj hs)
    exact ⟨_, step_activate (hidle b hready) r, h.cell, le_update h.bank b (.active r)⟩
  | precharge b =>
    obtain ⟨rfl, rfl⟩ := Prod.mk.inj (Option.some.inj hs)
    exact ⟨_, rfl, h.cell, le_update h.bank b .idle⟩
  | prechargeAll =>
    obtain ⟨rfl, rfl⟩ := Prod.mk.inj (Option.some.inj hs)
    exact ⟨_, rfl, h.cell, fun _ => .refl .idle⟩
  | write b c d close =>
    obtain ⟨r, hb⟩ := hready
    rw [step_write hb] at hs
    obtain ⟨rfl, rfl⟩ := Prod.mk.inj (Option.some.inj hs)
    exact ⟨_, step_write (hactive b r hb) c d close, by rw [h.cell], le_closed h.bank b close⟩
  | read b c close =>
    obtain ⟨r, hb⟩ := hready
    rw [step_read hb] at hs
    obtain ⟨rfl, rfl⟩ := Prod.mk.inj (Option.some.inj hs)
    refine ⟨⟨closed m'.bank b close, m'.cell⟩, ?_, h.cell, le_closed h.bank b close⟩
    rw [step_read (hactive b r hb), h.cell]
  | service =>
    rw [step_service hready] at hs
    obtain ⟨rfl, rfl⟩ := Prod.mk.inj (Option.some.inj hs)
    exact ⟨m', step_service fun b => hidle b (hready b), h⟩
  | other => exact hready.elim

/-- **And so for programs.** -/
theorem exec_mono {m m' m₁ : Memory B R C D} {l : List (L × Cmd B R C D)} {out : List (L × D)}
    (h : m.Le m') (he : exec m l = some (m₁, out)) :
    ∃ m₁', exec m' l = some (m₁', out) ∧ m₁.Le m₁' := by
  induction l generalizing m m' out with
  | nil =>
    obtain ⟨rfl, rfl⟩ := Prod.mk.inj (Option.some.inj he)
    exact ⟨m', rfl, h⟩
  | cons c l ih =>
    obtain ⟨m₂, ds, out', hstep, hexec, rfl⟩ := exec_cons_eq_some he
    obtain ⟨m₂', hstep', hle⟩ := step_mono h hstep
    obtain ⟨m₁', hexec', hle'⟩ := ih hle hexec
    exact ⟨m₁', by rw [exec_cons, hstep', Option.bind_some, hexec']; rfl, hle'⟩

/-! ## Programs that rely on nothing -/

/-- A program is accepted whatever the banks are. -/
def SelfContained (l : List (L × Cmd B R C D)) : Prop :=
  ∀ m : Memory B R C D, exec m l ≠ none

/-- **A program that relies on nothing** leaves cells and reads data by the
cells alone. -/
theorem SelfContained.exec_congr {l : List (L × Cmd B R C D)} (h : SelfContained l)
    {m m' : Memory B R C D} (hcell : m.cell = m'.cell) :
    ∃ m₁ m₁' out, exec m l = some (m₁, out) ∧ exec m' l = some (m₁', out) ∧
      m₁.cell = m₁'.cell := by
  obtain ⟨⟨m₀, out⟩, h₀⟩ := Option.ne_none_iff_exists'.1 (h m.forget)
  obtain ⟨m₁, h₁, hle⟩ := exec_mono m.forget_le h₀
  have hle' : m.forget.Le m' := ⟨hcell, fun _ => Or.inl rfl⟩
  obtain ⟨m₁', h₁', hle₁⟩ := exec_mono hle' h₀
  exact ⟨m₁, m₁', out, h₁, h₁', by rw [← hle.cell, hle₁.cell]⟩

/-- No command writes. -/
def WriteFree (l : List (L × Cmd B R C D)) : Prop :=
  ∀ c ∈ l, ∀ b col d close, c.2 ≠ .write b col d close

theorem step_cell {m m₁ : Memory B R C D} {c : Cmd B R C D} {out : List D}
    (hc : ∀ b col d close, c ≠ .write b col d close) (hs : step m c = some (m₁, out)) :
    m₁.cell = m.cell := by
  obtain ⟨s, -, heq⟩ := Option.map_eq_some_iff.1 hs
  obtain ⟨rfl, -⟩ := Prod.mk.inj heq
  cases c with
  | write b col d close => exact absurd rfl (hc b col d close)
  | _ => rfl

theorem exec_cell {m m₁ : Memory B R C D} {l : List (L × Cmd B R C D)} {out : List (L × D)}
    (hl : WriteFree l) (he : exec m l = some (m₁, out)) : m₁.cell = m.cell := by
  induction l generalizing m out with
  | nil =>
    obtain ⟨rfl, -⟩ := Prod.mk.inj (Option.some.inj he)
    rfl
  | cons c l ih =>
    obtain ⟨m₂, ds, out', hstep, hexec, -⟩ := exec_cons_eq_some he
    rw [ih (fun c hc => hl c (List.mem_cons_of_mem _ hc)) hexec,
      step_cell (hl c List.mem_cons_self) hstep]

/-- What a program reads bears its labels. -/
theorem label_of_mem_output {m m₁ : Memory B R C D} {l : List (L × Cmd B R C D)}
    {out : List (L × D)} (he : exec m l = some (m₁, out)) {x : L × D} (hx : x ∈ out) :
    ∃ c ∈ l, c.1 = x.1 := by
  induction l generalizing m out with
  | nil =>
    obtain ⟨-, rfl⟩ := Prod.mk.inj (Option.some.inj he)
    cases hx
  | cons c l ih =>
    obtain ⟨m₂, ds, out', -, hexec, rfl⟩ := exec_cons_eq_some he
    rcases List.mem_append.1 hx with h | h
    · obtain ⟨d, -, rfl⟩ := List.mem_map.1 h
      exact ⟨c, List.mem_cons_self, rfl⟩
    · obtain ⟨c', hc', hlab⟩ := ih hexec h
      exact ⟨c', List.mem_cons_of_mem _ hc', hlab⟩

end Mono

/-! ## Interleaving -/

/-- A sequence of programs, each with a label, run one after the other. -/
def flat (S : List (L × List (Cmd B R C D))) : List (L × Cmd B R C D) :=
  S.flatMap fun s => s.2.map (s.1, ·)

@[simp] theorem flat_nil : flat ([] : List (L × List (Cmd B R C D))) = [] := rfl

@[simp] theorem flat_cons (s : L × List (Cmd B R C D)) (S : List (L × List (Cmd B R C D))) :
    flat (s :: S) = s.2.map (s.1, ·) ++ flat S := List.flatMap_cons

section Interleaved

variable [DecidableEq B] [DecidableEq R] [DecidableEq C] [Fintype B] [DecidableEq L]

/-- **Programs interleaved.** Where each relies on nothing, and those that
do not bear `ℓ` write nothing, the ones that bear `ℓ` read and leave what
they would alone. -/
theorem exec_interleaved {ℓ : L} {S : List (L × List (Cmd B R C D))}
    (hself : ∀ s ∈ S, SelfContained (s.2.map (s.1, ·)))
    (hfree : ∀ s ∈ S, s.1 ≠ ℓ → WriteFree (s.2.map (s.1, ·))) {m m' : Memory B R C D}
    (hcell : m.cell = m'.cell) :
    ∃ m₁ m₁' out out', exec m (flat S) = some (m₁, out) ∧
      exec m' (flat (S.filter (·.1 = ℓ))) = some (m₁', out') ∧
      out.filter (·.1 = ℓ) = out' ∧ m₁.cell = m₁'.cell := by
  induction S generalizing m m' with
  | nil => exact ⟨m, m', [], [], rfl, rfl, rfl, hcell⟩
  | cons s S ih =>
    have hself' : ∀ t ∈ S, SelfContained (t.2.map (t.1, ·)) := fun t ht =>
      hself t (List.mem_cons_of_mem s ht)
    have hfree' : ∀ t ∈ S, t.1 ≠ ℓ → WriteFree (t.2.map (t.1, ·)) := fun t ht =>
      hfree t (List.mem_cons_of_mem s ht)
    obtain ⟨m₁, m₁', out, h₁, h₁', hcell₁⟩ := (hself s List.mem_cons_self).exec_congr hcell
    have hlabel : ∀ x ∈ out, x.1 = s.1 := by
      intro x hx
      obtain ⟨c, hc, hlab⟩ := label_of_mem_output h₁ hx
      obtain ⟨c', -, rfl⟩ := List.mem_map.1 hc
      exact hlab.symm
    by_cases hs : s.1 = ℓ
    · obtain ⟨m₂, m₂', out₂, out₂', h₂, h₂', hout, hcell₂⟩ := ih hself' hfree' hcell₁
      refine ⟨m₂, m₂', out ++ out₂, out ++ out₂', ?_, ?_, ?_, hcell₂⟩
      · rw [flat_cons, exec_append_of_some h₁ h₂]
      · rw [List.filter_cons_of_pos (by simpa using hs), flat_cons, exec_append_of_some h₁' h₂']
      · rw [List.filter_append, hout, List.filter_eq_self.2 fun x hx => by simp [hlabel x hx, hs]]
    · have hkept : m₁.cell = m'.cell := by
        rw [exec_cell (hfree s List.mem_cons_self hs) h₁, hcell]
      obtain ⟨m₂, m₂', out₂, out₂', h₂, h₂', hout, hcell₂⟩ := ih hself' hfree' hkept
      refine ⟨m₂, m₂', out ++ out₂, out₂', ?_, ?_, ?_, hcell₂⟩
      · rw [flat_cons, exec_append_of_some h₁ h₂]
      · rw [List.filter_cons_of_neg (by simpa using hs), h₂']
      · rw [List.filter_append, hout, List.filter_eq_nil_iff.2, List.nil_append]
        intro x hx
        simp [hlabel x hx, hs]

end Interleaved

/-! ## Programs of one row -/

section Row

variable [DecidableEq B] [DecidableEq R] [DecidableEq C] [Fintype B]

/-- Precharge a bank, open a row, run the commands, and precharge again. -/
def onRow (b : B) (r : R) (l : List (Cmd B R C D)) : List (Cmd B R C D) :=
  .precharge b :: .activate b r :: (l ++ [.precharge b])

/-- Columns of a row overwritten. -/
def overwrite (cell : B → R → C → D) (b : B) (r : R) (cols : List C) (d : C → D) : B → R → C → D :=
  fun b' r' c' => if b' = b ∧ r' = r ∧ c' ∈ cols then d c' else cell b' r' c'

variable (b : B) (r : R) (cols : List C) (d : C → D) (ℓ : L)

omit [Fintype B] in
@[simp] theorem overwrite_nil (cell : B → R → C → D) : overwrite cell b r [] d = cell := by
  funext b' r' c'
  simp [overwrite]

omit [Fintype B] in
theorem overwrite_cons (cell : B → R → C → D) (c : C) :
    overwrite cell b r (c :: cols) d = overwrite (store cell b r c (d c)) b r cols d := by
  funext b' r' c'
  simp only [overwrite, store, List.mem_cons]
  grind

/-- Writes, all to the row that is open. -/
theorem exec_writes {m : Memory B R C D} (h : m.bank b = .active r) :
    exec m ((cols.map fun c => .write b c (d c) false).map (ℓ, ·)) =
      some (⟨m.bank, overwrite m.cell b r cols d⟩, []) := by
  induction cols generalizing m with
  | nil => simp
  | cons c cols ih =>
    have hrest := ih (m := ⟨m.bank, store m.cell b r c (d c)⟩) h
    rw [List.map_cons, List.map_cons, exec_cons, step_write h c (d c) false, Option.bind_some]
    change (exec ⟨m.bank, store m.cell b r c (d c)⟩ _).map _ = _
    rw [hrest, overwrite_cons]
    rfl

/-- Reads, all of the row that is open. -/
theorem exec_reads {m : Memory B R C D} (h : m.bank b = .active r) :
    exec m ((cols.map fun c => .read b c false).map (ℓ, ·)) =
      some (m, cols.map fun c => (ℓ, m.cell b r c)) := by
  induction cols with
  | nil => rfl
  | cons c cols ih =>
    rw [List.map_cons, List.map_cons, exec_cons, step_read h c false, Option.bind_some]
    change (exec m _).map _ = _
    rw [ih]
    rfl

/-- **A row of a bank in any state**: opened, worked on and closed. -/
theorem exec_onRow (m : Memory B R C D) {l : List (Cmd B R C D)} {cell : B → R → C → D}
    {out : List (L × D)}
    (h : exec ⟨Function.update m.bank b (.active r), m.cell⟩ (l.map (ℓ, ·)) =
      some (⟨Function.update m.bank b (.active r), cell⟩, out)) :
    exec m ((onRow b r l).map (ℓ, ·)) = some (⟨Function.update m.bank b .idle, cell⟩, out) := by
  have hact := step_activate (m := ⟨Function.update m.bank b .idle, m.cell⟩) (b := b)
    (Function.update_self b _ _) r
  rw [onRow, List.map_cons, exec_cons, step_precharge, Option.bind_some, List.map_cons, exec_cons,
    hact, Option.bind_some, List.map_append, Function.update_idem]
  have hclose : exec (L := L) ⟨Function.update m.bank b (.active r), cell⟩
      ([.precharge b].map (ℓ, ·)) = some (⟨Function.update m.bank b .idle, cell⟩, []) := by
    simp [exec_cons]
  rw [exec_append_of_some h hclose]
  simp

/-- **A row written.** -/
theorem exec_write_row (m : Memory B R C D) :
    exec m ((onRow b r (cols.map fun c => .write b c (d c) false)).map (ℓ, ·)) =
      some (⟨Function.update m.bank b .idle, overwrite m.cell b r cols d⟩, []) :=
  exec_onRow b r ℓ m (exec_writes b r cols d ℓ (Function.update_self b _ _))

/-- **A row read.** -/
theorem exec_read_row (m : Memory B R C D) :
    exec m ((onRow b r (cols.map fun c => .read b c false)).map (ℓ, ·)) =
      some (⟨Function.update m.bank b .idle, m.cell⟩, cols.map fun c => (ℓ, m.cell b r c)) :=
  exec_onRow b r ℓ m (exec_reads b r cols ℓ (Function.update_self b _ _))

end Row

end Banked
