import SoftMC.Common.Deal
import SoftMC.Common.Clocked
import Mathlib.Algebra.BigOperators.Group.List.Basic
import Mathlib.Algebra.GroupWithZero.Nat
/-!
# Two-slot issue from two queues

A program is dealt to two queues and issued at two slots a cycle: slot
`0` takes from the leading queue, slot `1` from the trailing one. An
instruction may carry a wait, the distance in slots to its successor;
the machine keeps it in a counter that falls by two a cycle, opens slot
`1` alone at an even residue, and exchanges the queues on an even wait.

The specification is the sequential schedule: each instruction a fixed
distance after its predecessor. This file proves the machine follows it
when it is never stalled (`placed_step`), and that it keeps the order and every
distance under stalls as long as none falls on an even residue with both
queues waiting (`held_step`).
-/

namespace TwoSlot

open Clocked

variable {α : Type*} (W : α → Option ℕ)

/-! ## The sequential schedule -/

/-- The distance from an instruction to its successor. -/
def cost (a : α) : ℕ := (W a).getD 1

/-- **Sequential execution** from time `T`. -/
def schedule : ℕ → List α → List (ℕ × α)
  | _, [] => []
  | T, a :: l => (T, a) :: schedule (T + cost W a) l

/-- The time at which a successor of `l`, started at `T`, is due. -/
def finish (T : ℕ) (l : List α) : ℕ := T + (l.map (cost W)).sum

@[simp] theorem schedule_nil (T : ℕ) : schedule W T [] = [] := rfl

@[simp] theorem schedule_cons (T : ℕ) (a : α) (l : List α) :
    schedule W T (a :: l) = (T, a) :: schedule W (T + cost W a) l := rfl

@[simp] theorem finish_nil (T : ℕ) : finish W T [] = T := by simp [finish]

@[simp] theorem finish_cons (T : ℕ) (a : α) (l : List α) :
    finish W T (a :: l) = finish W (T + cost W a) l := by
  simp only [finish, List.map_cons, List.sum_cons]; omega

theorem finish_append (T : ℕ) (l l' : List α) :
    finish W T (l ++ l') = finish W (finish W T l) l' := by
  simp only [finish, List.map_append, List.sum_append]; omega

/-- The schedule names the program's instructions in order. -/
@[simp] theorem schedule_map_snd (T : ℕ) (l : List α) : (schedule W T l).map Prod.snd = l := by
  induction l generalizing T with
  | nil => rfl
  | cons a l ih => rw [schedule_cons, List.map_cons, ih]

theorem schedule_append (T : ℕ) (l l' : List α) :
    schedule W T (l ++ l') = schedule W T l ++ schedule W (finish W T l) l' := by
  induction l generalizing T with
  | nil => simp
  | cons a l ih => rw [List.cons_append, schedule_cons, schedule_cons, ih, finish_cons,
      List.cons_append]

/-- Position `i` of the schedule is due when the first `i` instructions
have run. -/
theorem schedule_getElem? (T : ℕ) (l : List α) (i : ℕ) :
    (schedule W T l)[i]? = l[i]?.map fun a => (finish W T (l.take i), a) := by
  induction l generalizing T i with
  | nil => simp
  | cons a l ih =>
    cases i with
    | zero => simp
    | succ i => simp only [schedule_cons, List.getElem?_cons_succ, ih, List.take_succ_cons,
        finish_cons]

/-- Nothing is due before the start. -/
theorem le_of_mem_schedule {T : ℕ} {l : List α} {e : ℕ × α} (h : e ∈ schedule W T l) :
    T ≤ e.1 := by
  induction l generalizing T with
  | nil => cases h
  | cons a l ih =>
    rcases List.mem_cons.1 h with rfl | h
    · exact Nat.le_refl T
    · exact Nat.le_trans (Nat.le_add_right T _) (ih h)

/-! ## Spacing -/

/-- Times and distances of a list of events: none before `d`, and none
less than its predecessor's distance after it. -/
def Spaced : ℕ → List (ℕ × α) → Prop
  | _, [] => True
  | d, e :: l => d ≤ e.1 ∧ Spaced (e.1 + cost W e.2) l

/-- When a successor of the events is permitted, `d` if there are none. -/
def after : ℕ → List (ℕ × α) → ℕ
  | d, [] => d
  | _, e :: l => after (e.1 + cost W e.2) l

@[simp] theorem spaced_nil (d : ℕ) : Spaced W d [] := trivial

@[simp] theorem spaced_cons {d : ℕ} {e : ℕ × α} {l : List (ℕ × α)} :
    Spaced W d (e :: l) ↔ d ≤ e.1 ∧ Spaced W (e.1 + cost W e.2) l := Iff.rfl

@[simp] theorem after_nil (d : ℕ) : after W d [] = d := rfl

@[simp] theorem after_cons (d : ℕ) (e : ℕ × α) (l : List (ℕ × α)) :
    after W d (e :: l) = after W (e.1 + cost W e.2) l := rfl

theorem after_append (d : ℕ) (l l' : List (ℕ × α)) :
    after W d (l ++ l') = after W (after W d l) l' := by
  induction l generalizing d with
  | nil => rfl
  | cons e l ih => rw [List.cons_append, after_cons, after_cons, ih]

theorem spaced_append {d : ℕ} {l l' : List (ℕ × α)} :
    Spaced W d (l ++ l') ↔ Spaced W d l ∧ Spaced W (after W d l) l' := by
  induction l generalizing d with
  | nil => simp
  | cons e l ih => simp only [List.cons_append, spaced_cons, ih, after_cons, and_assoc]

/-- **What spacing says of neighbours.** -/
theorem Spaced.getElem_le {d : ℕ} {l : List (ℕ × α)} (h : Spaced W d l) {i : ℕ}
    (hi : i + 1 < l.length) : l[i].1 + cost W l[i].2 ≤ l[i + 1].1 := by
  induction l generalizing d i with
  | nil => exact absurd hi (by simp)
  | cons e l ih =>
    cases i with
    | succ i => simpa using ih h.2 (by simpa using hi)
    | zero =>
      cases l with
      | nil => exact absurd hi (by simp)
      | cons e' l => exact h.2.1

theorem Spaced.mono {d d' : ℕ} {l : List (ℕ × α)} (h : Spaced W d l) (hd : d' ≤ d) :
    Spaced W d' l := by
  cases l with
  | nil => trivial
  | cons e l => exact ⟨Nat.le_trans hd h.1, h.2⟩

theorem after_mono {d d' : ℕ} (hd : d' ≤ d) (l : List (ℕ × α)) : after W d' l ≤ after W d l := by
  cases l with
  | nil => exact hd
  | cons e l => exact Nat.le_refl _

/-- A schedule keeps its distances, and permits a successor where it ends. -/
theorem spaced_schedule (T : ℕ) (l : List α) : Spaced W T (schedule W T l) := by
  induction l generalizing T with
  | nil => trivial
  | cons a l ih => exact ⟨Nat.le_refl T, ih _⟩

theorem after_schedule (T : ℕ) (l : List α) : after W T (schedule W T l) = finish W T l := by
  induction l generalizing T with
  | nil => simp
  | cons a l ih => rw [schedule_cons, after_cons, ih, finish_cons]

/-! ## The machine -/

/-- The wait counter and the two queues, by the slot each feeds. -/
structure Slots (α : Type*) where
  wait : ℕ
  lead : List α
  trail : List α

namespace Slots

variable (ready : Bool) (s : Slots α)

/-- Slot `0` is open at a counter of at most one. -/
def issue0 : Option α := if ready = true ∧ s.wait ≤ 1 then s.lead.head? else none

/-- A wait of more than one slot keeps slot `1` closed. -/
def blocked : Bool := ((s.issue0 ready).bind W).any (1 < ·)

/-- Slot `1` is open at a counter of at most two. -/
def issue1 : Option α :=
  if ready = true ∧ s.wait ≤ 2 ∧ s.blocked W ready = false then s.trail.head? else none

/-- The counter: loaded by a wait, one less from slot `0`; otherwise down
by two. -/
def nextWait : ℕ :=
  match (s.issue1 W ready).bind W, (s.issue0 ready).bind W with
  | some n, _ => n
  | none, some n => n - 1
  | none, none => s.wait - 2

/-- An even wait exchanges the queues. -/
def swaps : Bool :=
  ((s.issue0 ready).bind W).any (· % 2 = 0) || ((s.issue1 W ready).bind W).any (· % 2 = 0)

/-- What each queue still holds after the cycle. -/
def lead' : List α := if (s.issue0 ready).isSome then s.lead.tail else s.lead
def trail' : List α := if (s.issue1 W ready).isSome then s.trail.tail else s.trail

/-- **One cycle.** -/
def next : Slots α where
  wait := s.nextWait W ready
  lead := if s.swaps W ready then s.trail' W ready else s.lead' ready
  trail := if s.swaps W ready then s.lead' ready else s.trail' W ready

/-- What is issued in cycle `t`, with its slot time `2 * t` or `2 * t + 1`. -/
def events (t : ℕ) : List (ℕ × α) :=
  (s.issue0 ready).toList.map (2 * t, ·) ++ (s.issue1 W ready).toList.map (2 * t + 1, ·)

/-- The earliest slot time the counter still permits. -/
def due (t : ℕ) : ℕ := 2 * t + (s.wait - 1)

end Slots

/-! ## Where a program stands in the queues -/

/-- Slot `0` is the next to open. -/
def Aligned (w : ℕ) : Prop := w = 0 ∨ w % 2 = 1

/-- **The placement of what remains of a program.** Its next instruction
heads the queue of the slot that opens next. -/
def Placed (s : Slots α) (R : List α) : Prop :=
  (Aligned s.wait ∧ deal R = (s.lead, s.trail)) ∨ (¬ Aligned s.wait ∧ deal R = (s.trail, s.lead))

/-- Every wait is at least one slot. -/
def PosWaits (l : List α) : Prop := ∀ a ∈ l, ∀ n, W a = some n → 0 < n

variable {W}

theorem cost_of_none {a : α} (h : W a = none) : cost W a = 1 := by rw [cost, h]; rfl

theorem cost_of_some {a : α} {n : ℕ} (h : W a = some n) : cost W a = n := by rw [cost, h]; rfl

theorem PosWaits.tail {a : α} {l : List α} (h : PosWaits W (a :: l)) : PosWaits W l :=
  fun b hb => h b (List.mem_cons_of_mem a hb)

/-- The queues are empty when nothing remains. -/
theorem Placed.eq_nil_iff {s : Slots α} {R : List α} (h : Placed s R) :
    (s.lead = [] ∧ s.trail = []) ↔ R = [] := by
  have hdeal : deal R = ([], []) ↔ R = [] := by
    constructor
    · exact fun h => deal_fst_eq_nil.1 (congrArg Prod.fst h)
    · rintro rfl; rfl
  rw [← hdeal]
  rcases h with ⟨-, h⟩ | ⟨-, h⟩
  · rw [h, Prod.mk.injEq]
  · rw [h, Prod.mk.injEq]; exact And.comm

theorem posWaits_of_ne {l : List α} (h : ∀ a ∈ l, W a ≠ some 0) : PosWaits W l := by
  intro a ha n hn
  refine Nat.pos_of_ne_zero ?_
  rintro rfl
  exact h a ha hn

theorem PosWaits.append_right {l l' : List α} (h : PosWaits W (l ++ l')) : PosWaits W l' :=
  fun b hb => h b (List.mem_append_right l hb)

/-- What slot `1` loads places the rest, the queues exchanged if even. -/
theorem placed_load1 {lead trail R : List α} (hR : deal R = (lead, trail)) {n : ℕ} (hn : 0 < n) :
    Placed ⟨n, if n % 2 = 0 then trail else lead, if n % 2 = 0 then lead else trail⟩ R := by
  by_cases h : n % 2 = 0
  · refine Or.inr ⟨?_, by simp [h, hR]⟩
    simp only [Aligned]; omega
  · refine Or.inl ⟨?_, by simp [h, hR]⟩
    simp only [Aligned]; omega

/-- And what slot `0` loads, one less. -/
theorem placed_load0 {lead trail R : List α} (hR : deal R = (trail, lead)) {n : ℕ} (hn : 1 < n) :
    Placed ⟨n - 1, if n % 2 = 0 then trail else lead, if n % 2 = 0 then lead else trail⟩ R := by
  by_cases h : n % 2 = 0
  · refine Or.inl ⟨?_, by simp [h, hR]⟩
    simp only [Aligned]; omega
  · refine Or.inr ⟨?_, by simp [h, hR]⟩
    simp only [Aligned]; omega

theorem placed_zero {lead trail R : List α} (hR : deal R = (lead, trail)) :
    Placed ⟨0, lead, trail⟩ R :=
  Or.inl ⟨Or.inl rfl, hR⟩

/-- Either way: whatever slot `1` has issued, the rest is placed. -/
theorem placed_after1 {lead trail R : List α} (hR : deal R = (lead, trail)) {b : α}
    (hb : ∀ n, W b = some n → 0 < n) :
    Placed ⟨(W b).getD 0, if (W b).any (· % 2 = 0) then trail else lead,
      if (W b).any (· % 2 = 0) then lead else trail⟩ R := by
  cases h : W b with
  | none => simpa using placed_zero hR
  | some n => simpa using placed_load1 hR (hb n h)

/-! ## One cycle, by what it issues -/

namespace Slots

variable {s : Slots α} {ready : Bool}

theorem next_of_idle (h0 : s.issue0 ready = none) (h1 : s.issue1 W ready = none) :
    s.next W ready = ⟨s.wait - 2, s.lead, s.trail⟩ := by
  simp [next, nextWait, swaps, lead', trail', h0, h1]

/-- Slot `0` alone issues, and holds slot `1` closed. -/
theorem next_of_slot0 {a : α} {n : ℕ} (h0 : s.issue0 ready = some a) (h1 : s.issue1 W ready = none)
    (ha : W a = some n) :
    s.next W ready = ⟨n - 1, if n % 2 = 0 then s.trail else s.lead.tail,
      if n % 2 = 0 then s.lead.tail else s.trail⟩ := by
  simp [next, nextWait, swaps, lead', trail', h0, h1, ha]

/-- Slot `1` issues, and slot `0` has left the counter nothing to load. -/
theorem next_of_slot1 {b : α} (hw : s.wait ≤ 2) (h1 : s.issue1 W ready = some b)
    (h0 : ∀ a, s.issue0 ready = some a → cost W a = 1) :
    s.next W ready = ⟨(W b).getD 0,
      if (W b).any (· % 2 = 0) then s.trail.tail else s.lead' ready,
      if (W b).any (· % 2 = 0) then s.lead' ready else s.trail.tail⟩ := by
  have hodd : ((s.issue0 ready).bind W).any (· % 2 = 0) = false := by
    cases h : s.issue0 ready with
    | none => rfl
    | some a =>
      have hc := h0 a h
      cases hWa : W a with
      | none => simp [hWa]
      | some n => rw [cost_of_some hWa] at hc; simp [hWa, hc]
  have hload : s.nextWait W ready = (W b).getD 0 := by
    unfold nextWait
    rw [h1, Option.bind_some]
    cases W b with
    | some n => rfl
    | none =>
      cases h : s.issue0 ready with
      | none => simp; omega
      | some a =>
        have hc := h0 a h
        cases hWa : W a with
        | none => simp [hWa]; omega
        | some n => rw [cost_of_some hWa] at hc; simp [hWa, hc]
  simp only [next, swaps, hodd, hload, h1, trail', Option.bind_some, Bool.false_or,
    Option.isSome_some, if_true]

/-- Nothing issues while the counter is above two. -/
theorem idle_of_wait (ready : Bool) (h : 2 < s.wait) :
    s.issue0 ready = none ∧ s.issue1 W ready = none := by
  constructor
  · rw [issue0, if_neg (by omega)]
  · rw [issue1, if_neg (by omega)]

/-- Nothing issues in a stalled cycle. -/
theorem idle_of_stall : s.issue0 false = none ∧ s.issue1 W false = none := by
  constructor <;> simp [issue0, issue1]

end Slots

/-! ## Without stalls: the schedule -/

/-- **What one unstalled cycle does to a placed program**: it issues the
next instructions `evs` at the times the schedule names, and leaves the
rest `R'` placed and due where the schedule goes on. -/
structure Advances (W : α → Option ℕ) (t : ℕ) (s s' : Slots α) (R : List α) (evs : List (ℕ × α))
    (R' : List α) : Prop where
  split : R = evs.map Prod.snd ++ R'
  placed : Placed s' R'
  times : schedule W (s.due t) R = evs ++ schedule W (s'.due (t + 1)) R'
  permits : finish W (s.due t) (evs.map Prod.snd) ≤ s'.due (t + 1)

section Step

variable {s : Slots α} {R : List α} {t : ℕ}

/-- A closed cycle only counts down. -/
theorem advances_closed (hp : Placed s R) (hw : 2 < s.wait) :
    Advances W t s (s.next W true) R (s.events W true t) R := by
  obtain ⟨h0, h1⟩ := Slots.idle_of_wait (W := W) true hw
  have hev : s.events W true t = [] := by simp [Slots.events, h0, h1]
  have hdue : (s.next W true).due (t + 1) = s.due t := by
    simp only [Slots.next_of_idle h0 h1, Slots.due]; omega
  rw [hev]
  refine ⟨rfl, ?_, by rw [hdue]; rfl, by rw [hdue]; simp⟩
  rw [Slots.next_of_idle h0 h1]
  refine hp.imp (fun h => ⟨?_, h.2⟩) (fun h => ⟨?_, h.2⟩) <;>
    · have := h.1
      simp only [Aligned] at this ⊢
      omega

/-- Slot `1` issues `b` at `2 * t + 1`, the rest of the program being
`R'`: shared by the cycle that opens slot `1` alone and the one in which
slot `0` has issued before it. -/
theorem advances_slot1 {b : α} {R' : List α} (hb : ∀ n, W b = some n → 0 < n) {lead : List α}
    (hR : deal R' = (lead, s.trail.tail)) {s' : Slots α}
    (hs' : s' = ⟨(W b).getD 0, if (W b).any (· % 2 = 0) then s.trail.tail else lead,
      if (W b).any (· % 2 = 0) then lead else s.trail.tail⟩) :
    Placed s' R' ∧ s'.due (t + 1) = 2 * t + 1 + cost W b := by
  subst hs'
  refine ⟨placed_after1 hR hb, ?_⟩
  cases h : W b with
  | none => simp only [cost_of_none h, Slots.due, Option.getD_none]; omega
  | some n =>
    have := hb n h
    simp only [cost_of_some h, Slots.due, Option.getD_some]; omega

/-- At an even residue slot `1` issues alone. -/
theorem advances_odd (hp : Placed s R) (hW : PosWaits W R) (hw : s.wait = 2) :
    ∃ R', Advances W t s (s.next W true) R (s.events W true t) R' := by
  have h0 : s.issue0 true = none := by rw [Slots.issue0, if_neg (by omega)]
  have h1 : s.issue1 W true = s.trail.head? := by
    rw [Slots.issue1, if_pos ⟨rfl, by omega, by simp [Slots.blocked, h0]⟩]
  have hR : deal R = (s.trail, s.lead) := by
    rcases hp with ⟨ha, -⟩ | ⟨-, h⟩
    · simp only [Aligned] at ha; omega
    · exact h
  have hdue : s.due t = 2 * t + 1 := by simp only [Slots.due]; omega
  cases R with
  | nil =>
    obtain ⟨htr, hld⟩ : s.trail = [] ∧ s.lead = [] := by simpa [eq_comm] using hR
    rw [htr] at h1
    have hev : s.events W true t = [] := by simp [Slots.events, h0, h1]
    rw [hev]
    refine ⟨[], rfl, ?_, rfl, ?_⟩
    · rw [Slots.next_of_idle h0 h1, hw, hld, htr]; exact placed_zero rfl
    · rw [Slots.next_of_idle h0 h1]; simp only [Slots.due, List.map_nil, finish_nil]; omega
  | cons b R' =>
    obtain ⟨htr, hld⟩ : s.trail = b :: (deal R').2 ∧ s.lead = (deal R').1 := by
      simpa [eq_comm] using hR
    rw [htr] at h1
    have hnext := Slots.next_of_slot1 (by omega) h1 fun a ha => by rw [h0] at ha; cases ha
    have hlead : s.lead' true = s.lead := by simp [Slots.lead', h0]
    rw [hlead] at hnext
    obtain ⟨hpl, hd⟩ := advances_slot1 (t := t) (hW b List.mem_cons_self)
      (by rw [htr, hld]; rfl) hnext
    have hev : s.events W true t = [(2 * t + 1, b)] := by simp [Slots.events, h0, h1]
    rw [hev]
    refine ⟨R', rfl, hpl, ?_, ?_⟩
    · rw [schedule_cons, hd, hdue]; rfl
    · rw [hd, hdue]; simp

/-- A wait of more than one slot, issued in slot `0`, keeps slot `1`
closed. -/
theorem advances_blocked {a : α} {R' : List α} (hR : deal (a :: R') = (s.lead, s.trail))
    (hw : s.wait ≤ 1) (hblk : s.blocked W true = true) :
    Advances W t s (s.next W true) (a :: R') (s.events W true t) R' := by
  obtain ⟨hld, htr⟩ : s.lead = a :: (deal R').2 ∧ s.trail = (deal R').1 := by
    simpa [eq_comm] using hR
  have h0 : s.issue0 true = some a := by rw [Slots.issue0, if_pos ⟨rfl, hw⟩, hld]; rfl
  have h1 : s.issue1 W true = none := by simp [Slots.issue1, hblk]
  obtain ⟨n, hn, hn1⟩ : ∃ n, W a = some n ∧ 1 < n := by
    rw [Slots.blocked, h0, Option.bind_some] at hblk
    obtain ⟨n, hn, hn1⟩ := (Option.any_eq_true _ _).1 hblk
    exact ⟨n, hn, of_decide_eq_true hn1⟩
  have hdue : s.due t = 2 * t := by simp only [Slots.due]; omega
  have hd : (s.next W true).due (t + 1) = 2 * t + n := by
    rw [Slots.next_of_slot0 h0 h1 hn]; simp only [Slots.due]; omega
  have hev : s.events W true t = [(2 * t, a)] := by simp [Slots.events, h0, h1]
  rw [hev]
  refine ⟨rfl, ?_, ?_, ?_⟩
  · rw [Slots.next_of_slot0 h0 h1 hn]
    exact placed_load0 (by rw [htr, hld]; rfl) hn1
  · rw [schedule_cons, hd, hdue, cost_of_some hn]; rfl
  · rw [hd, hdue]; simp [cost_of_some hn]

/-- The last instruction, one slot long, issues alone. -/
theorem advances_single {a : α} (hR : deal [a] = (s.lead, s.trail)) (hw : s.wait ≤ 1)
    (hcost : cost W a = 1) :
    Advances W t s (s.next W true) [a] (s.events W true t) [] := by
  obtain ⟨hld, htr⟩ : s.lead = [a] ∧ s.trail = [] := by simpa [eq_comm] using hR
  have h0 : s.issue0 true = some a := by rw [Slots.issue0, if_pos ⟨rfl, hw⟩, hld]; rfl
  have h1 : s.issue1 W true = none := by simp [Slots.issue1, htr]
  have hdue : s.due t = 2 * t := by simp only [Slots.due]; omega
  have hw0 : (s.next W true).wait = 0 := by
    simp only [Slots.next, Slots.nextWait, h0, h1, Option.bind_some, Option.bind_none]
    cases hWa : W a with
    | none => simp only; omega
    | some n => rw [cost_of_some hWa] at hcost; simp only; omega
  have hq : (s.next W true).lead = [] ∧ (s.next W true).trail = [] := by
    simp only [Slots.next, Slots.lead', Slots.trail', h0, h1, hld, htr]
    simp
  have hev : s.events W true t = [(2 * t, a)] := by simp [Slots.events, h0, h1]
  rw [hev]
  refine ⟨rfl, Or.inl ⟨Or.inl hw0, by rw [hq.1, hq.2]; rfl⟩, ?_, ?_⟩
  · simp [hdue]
  · simp only [Slots.due, hw0, List.map_cons, List.map_nil, finish_cons, finish_nil, hcost]
    omega

/-- Slot `1` issues behind an instruction of slot `0` that is one slot
long. -/
theorem advances_both {a b : α} {R' : List α} (hR : deal (a :: b :: R') = (s.lead, s.trail))
    (hw : s.wait ≤ 1) (hblk : s.blocked W true = false) (hcost : cost W a = 1)
    (hb : ∀ n, W b = some n → 0 < n) :
    Advances W t s (s.next W true) (a :: b :: R') (s.events W true t) R' := by
  obtain ⟨hld, htr⟩ : s.lead = a :: (deal R').1 ∧ s.trail = b :: (deal R').2 := by
    simpa [eq_comm] using hR
  have h0 : s.issue0 true = some a := by rw [Slots.issue0, if_pos ⟨rfl, hw⟩, hld]; rfl
  have h1 : s.issue1 W true = some b := by
    rw [Slots.issue1, if_pos ⟨rfl, by omega, hblk⟩, htr]; rfl
  have hnext := Slots.next_of_slot1 (by omega) h1 fun a' ha' => by
    rw [h0] at ha'; cases ha'; exact hcost
  have hlead : s.lead' true = (deal R').1 := by simp [Slots.lead', h0, hld]
  rw [hlead] at hnext
  obtain ⟨hpl, hd⟩ := advances_slot1 (t := t) hb (by rw [htr]; rfl) hnext
  have hdue : s.due t = 2 * t := by simp only [Slots.due]; omega
  have hev : s.events W true t = [(2 * t, a), (2 * t + 1, b)] := by
    simp [Slots.events, h0, h1]
  rw [hev]
  refine ⟨rfl, hpl, ?_, ?_⟩
  · rw [schedule_cons, schedule_cons, hd, hdue, hcost]; rfl
  · rw [hd, hdue]; simp [hcost]

/-- At a counter of at most one slot `0` issues, and slot `1` unless a
wait holds it closed. -/
theorem advances_even (hp : Placed s R) (hW : PosWaits W R) (hw : s.wait ≤ 1) :
    ∃ R', Advances W t s (s.next W true) R (s.events W true t) R' := by
  have hR : deal R = (s.lead, s.trail) := by
    rcases hp with ⟨-, h⟩ | ⟨ha, -⟩
    · exact h
    · simp only [Aligned] at ha; omega
  cases R with
  | nil =>
    obtain ⟨hld, htr⟩ : s.lead = [] ∧ s.trail = [] := by simpa [eq_comm] using hR
    have h0 : s.issue0 true = none := by rw [Slots.issue0, if_pos ⟨rfl, hw⟩, hld]; rfl
    have h1 : s.issue1 W true = none := by simp [Slots.issue1, htr]
    have hev : s.events W true t = [] := by simp [Slots.events, h0, h1]
    rw [hev]
    refine ⟨[], rfl, ?_, rfl, ?_⟩
    · rw [Slots.next_of_idle h0 h1, hld, htr, show s.wait - 2 = 0 by omega]; exact placed_zero rfl
    · rw [Slots.next_of_idle h0 h1]; simp only [Slots.due, List.map_nil, finish_nil]; omega
  | cons a R₁ =>
    cases hblk : s.blocked W true with
    | true => exact ⟨R₁, advances_blocked hR hw hblk⟩
    | false =>
      have hld : s.lead = a :: (deal R₁).2 := (congrArg Prod.fst hR).symm
      have h0 : s.issue0 true = some a := by rw [Slots.issue0, if_pos ⟨rfl, hw⟩, hld]; rfl
      have hcost : cost W a = 1 := by
        cases hWa : W a with
        | none => exact cost_of_none hWa
        | some n =>
          have hpos := hW a List.mem_cons_self n hWa
          have : ¬ 1 < n := by simpa [Slots.blocked, h0, hWa] using hblk
          rw [cost_of_some hWa]; omega
      cases R₁ with
      | nil => exact ⟨[], advances_single hR hw hcost⟩
      | cons b R' => exact ⟨R', advances_both hR hw hblk hcost (hW b (by simp))⟩

/-- **One unstalled cycle follows the schedule.** -/
theorem placed_step (hp : Placed s R) (hW : PosWaits W R) (t : ℕ) :
    ∃ R', Advances W t s (s.next W true) R (s.events W true t) R' := by
  rcases Nat.lt_or_ge 2 s.wait with h | h
  · exact ⟨R, advances_closed hp h⟩
  · rcases Nat.lt_or_ge 1 s.wait with h1 | h1
    · exact advances_odd hp hW (by omega)
    · exact advances_even hp hW h1

end Step

/-! ## Under stalls: the order and the distances -/

/-- Placed, or down to a last instruction alone in the trailing queue,
which a stall may leave behind. -/
def Held (s : Slots α) (R : List α) : Prop :=
  Placed s R ∨ (s.lead = [] ∧ deal R = (s.trail, []))

/-- **The stall that breaks the order**: an even residue passes while both
queues wait, and slot `0` opens next instead of slot `1`. -/
def BadStall (ready : Bool) (s : Slots α) : Prop :=
  ready = false ∧ s.wait = 2 ∧ s.lead ≠ [] ∧ s.trail ≠ []

/-- **What one cycle keeps of a program's order**: the instructions
issued are the next ones, none of them early, and what follows is not
permitted before the counter says. -/
structure KeepsOrder (W : α → Option ℕ) (t d : ℕ) (s' : Slots α) (R : List α)
    (evs : List (ℕ × α)) (R' : List α) : Prop where
  split : R = evs.map Prod.snd ++ R'
  held : Held s' R'
  spaced : Spaced W d evs
  permits : after W d evs ≤ s'.due (t + 1)

section Stall

variable {s s' : Slots α} {R R' : List α} {t d : ℕ} {evs : List (ℕ × α)}

/-- Following the schedule keeps the order. -/
theorem Advances.keepsOrder (h : Advances W t s s' R evs R') (hd : d ≤ s.due t) :
    KeepsOrder W t d s' R evs R' := by
  have hsched : evs = schedule W (s.due t) (evs.map Prod.snd) := by
    have htimes := h.times
    rw [h.split, schedule_append] at htimes
    refine (List.append_inj_left htimes ?_).symm
    have hlen := congrArg List.length (schedule_map_snd W (s.due t) (evs.map Prod.snd))
    rwa [List.length_map, List.length_map] at hlen
  have hspaced := spaced_schedule W (s.due t) (evs.map Prod.snd)
  rw [← hsched] at hspaced
  refine ⟨h.split, Or.inl h.placed, hspaced.mono W hd, ?_⟩
  have hafter := after_schedule W (s.due t) (evs.map Prod.snd)
  rw [← hsched] at hafter
  exact Nat.le_trans (after_mono W hd evs) (hafter ▸ h.permits)

/-- A cycle that issues nothing only moves the permitted time closer. -/
theorem keepsOrder_idle {ready : Bool} (h0 : s.issue0 ready = none) (h1 : s.issue1 W ready = none)
    (hd : d ≤ s.due t) (hheld : Held ⟨s.wait - 2, s.lead, s.trail⟩ R) :
    KeepsOrder W t d (s.next W ready) R (s.events W ready t) R := by
  have hev : s.events W ready t = [] := by simp [Slots.events, h0, h1]
  rw [hev, Slots.next_of_idle h0 h1]
  refine ⟨rfl, hheld, trivial, ?_⟩
  simp only [Slots.due, after_nil] at hd ⊢
  omega

/-- A last instruction left in the trailing queue issues at slot `1`. -/
theorem keepsOrder_last (hld : s.lead = []) (hR : deal R = (s.trail, [])) (hW : PosWaits W R)
    (hd : d ≤ s.due t) :
    ∃ R', KeepsOrder W t d (s.next W true) R (s.events W true t) R' := by
  have h0 : s.issue0 true = none := by simp [Slots.issue0, hld]
  have hheld : Held ⟨s.wait - 2, s.lead, s.trail⟩ R := Or.inr ⟨hld, hR⟩
  by_cases hw : s.wait ≤ 2
  · have h1 : s.issue1 W true = s.trail.head? := by
      rw [Slots.issue1, if_pos ⟨rfl, hw, by simp [Slots.blocked, h0]⟩]
    cases R with
    | nil =>
      have htr : s.trail = [] := by simpa [eq_comm] using congrArg Prod.fst hR
      rw [htr] at h1
      exact ⟨[], keepsOrder_idle h0 h1 hd hheld⟩
    | cons r R₁ =>
      obtain ⟨htr, hnil⟩ : s.trail = r :: (deal R₁).2 ∧ (deal R₁).1 = [] := by
        simpa [eq_comm] using hR
      obtain rfl : R₁ = [] := deal_fst_eq_nil.1 hnil
      have htr : s.trail = [r] := htr
      rw [htr] at h1
      have hnext := Slots.next_of_slot1 hw h1 fun a ha => by rw [h0] at ha; cases ha
      have hdeal : deal [] = (s.lead' true, s.trail.tail) := by
        rw [htr]; simp [Slots.lead', h0, hld]
      obtain ⟨hpl, hdue⟩ := advances_slot1 (t := t) (hW r List.mem_cons_self) hdeal hnext
      have hev : s.events W true t = [(2 * t + 1, r)] := by simp [Slots.events, h0, h1]
      rw [hev]
      refine ⟨[], rfl, Or.inl hpl, ⟨?_, trivial⟩, by rw [hdue]; exact Nat.le_refl _⟩
      simp only [Slots.due] at hd
      omega
  · obtain ⟨-, h1⟩ := Slots.idle_of_wait (W := W) (s := s) true (by omega)
    exact ⟨R, keepsOrder_idle h0 h1 hd hheld⟩

/-- A stalled cycle that is not a bad one leaves the program held. -/
theorem held_of_stall (hp : Held s R) (hbad : ¬ BadStall false s) :
    Held ⟨s.wait - 2, s.lead, s.trail⟩ R := by
  rcases hp with (⟨ha, hR⟩ | ⟨ha, hR⟩) | h
  · refine Or.inl (Or.inl ⟨?_, hR⟩)
    simp only [Aligned] at ha ⊢
    omega
  · by_cases hw : s.wait = 2
    · have hld : s.lead = [] := by
        by_contra hne
        have htr : s.trail = [] := by
          by_contra htr
          exact hbad ⟨rfl, hw, hne, htr⟩
        rw [htr] at hR
        have hnil : R = [] := deal_fst_eq_nil.1 (congrArg Prod.fst hR)
        rw [hnil] at hR
        exact hne (congrArg Prod.snd hR).symm
      exact Or.inr ⟨hld, by rw [hR, hld]⟩
    · refine Or.inl (Or.inr ⟨?_, hR⟩)
      simp only [Aligned] at ha ⊢
      omega
  · exact Or.inr h

/-- **One cycle, stalled or not, keeps the order**, unless it is the bad
stall. -/
theorem held_step {ready : Bool} (hp : Held s R) (hW : PosWaits W R)
    (hbad : ¬ BadStall ready s) (hd : d ≤ s.due t) :
    ∃ R', KeepsOrder W t d (s.next W ready) R (s.events W ready t) R' := by
  cases ready with
  | false =>
    obtain ⟨h0, h1⟩ := Slots.idle_of_stall (W := W) (s := s)
    exact ⟨R, keepsOrder_idle h0 h1 hd (held_of_stall hp hbad)⟩
  | true =>
    rcases hp with hp | ⟨hld, hR⟩
    · obtain ⟨R', h⟩ := placed_step hp hW t
      exact ⟨R', h.keepsOrder hd⟩
    · exact keepsOrder_last hld hR hW hd

end Stall

/-! ## Runs -/

/-- The states `s` and the events `evs` of a machine started in cycle
`t`, stalled where `ready` is low. -/
def IsRun (W : α → Option ℕ) (ready : ℕ → Bool) (t : ℕ) (s : ℕ → Slots α)
    (evs : ℕ → List (ℕ × α)) : Prop :=
  ∀ n, s (n + 1) = (s n).next W (ready n) ∧ evs n = (s n).events W (ready n) (t + n)

section Run

variable {ready : ℕ → Bool} {t : ℕ} {s : ℕ → Slots α} {evs : ℕ → List (ℕ × α)} {R : List α}

/-- **An unstalled run follows the schedule**: at any time it has issued
a part of it, and the rest is placed and due. -/
theorem IsRun.scheduled (h : IsRun W (fun _ => true) t s evs) (hp : Placed (s 0) R)
    (hW : PosWaits W R) (n : ℕ) :
    ∃ R', R = (trace evs n).map Prod.snd ++ R' ∧ Placed (s n) R' ∧
      schedule W ((s 0).due t) R = trace evs n ++ schedule W ((s n).due (t + n)) R' := by
  induction n with
  | zero => exact ⟨R, rfl, hp, rfl⟩
  | succ n ih =>
    obtain ⟨R₁, hR, hp₁, hsched⟩ := ih
    have hW₁ : PosWaits W R₁ := by rw [hR] at hW; exact hW.append_right
    obtain ⟨R', hadv⟩ := placed_step hp₁ hW₁ (t + n)
    rw [← (h n).1, ← (h n).2] at hadv
    refine ⟨R', ?_, hadv.placed, ?_⟩
    · rw [trace_succ, List.map_append, List.append_assoc, ← hadv.split]
      exact hR
    · rw [trace_succ, List.append_assoc, hsched, hadv.times]
      rfl

/-- **A run without a bad stall keeps the order and the distances.** -/
theorem IsRun.keepsOrder (h : IsRun W ready t s evs) (hp : Held (s 0) R) (hW : PosWaits W R)
    {n : ℕ} (hbad : ∀ k < n, ¬ BadStall (ready k) (s k)) :
    ∃ R', R = (trace evs n).map Prod.snd ++ R' ∧ Held (s n) R' ∧
      Spaced W ((s 0).due t) (trace evs n) ∧
      after W ((s 0).due t) (trace evs n) ≤ (s n).due (t + n) := by
  induction n with
  | zero => exact ⟨R, rfl, hp, trivial, Nat.le_refl _⟩
  | succ n ih =>
    obtain ⟨R₁, hR, hp₁, hspaced, hdue⟩ := ih fun k hk => hbad k (by omega)
    have hW₁ : PosWaits W R₁ := by rw [hR] at hW; exact hW.append_right
    obtain ⟨R', hkeep⟩ := held_step hp₁ hW₁ (hbad n (by omega)) hdue
    rw [← (h n).1, ← (h n).2] at hkeep
    refine ⟨R', ?_, hkeep.held, ?_, ?_⟩
    · rw [trace_succ, List.map_append, List.append_assoc, ← hkeep.split]
      exact hR
    · rw [trace_succ, spaced_append]
      exact ⟨hspaced, hkeep.spaced⟩
    · rw [trace_succ, after_append]
      exact hkeep.permits

end Run

end TwoSlot
