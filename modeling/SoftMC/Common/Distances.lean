import SoftMC.Common.TwoSlot
/-!
# Minimum distances

A target asks for a minimum distance between any two instructions it is
given, neighbours or not. Whether a program keeps them can be read off the
program: the distance of two of its instructions is the cost of what stands
between them, and executing it can only put them further apart.

A program is `Paced` if it keeps the distances within itself, and `Settled`
if nothing in it is still owed when it ends. Programs of this kind can
follow one another in any order.
-/

namespace TwoSlot

variable {α : Type*} (W : α → Option ℕ) (gap : α → α → ℕ)

/-- **Every two events keep their distance.** -/
def Respects (evs : List (ℕ × α)) : Prop := evs.Pairwise fun e e' => e.1 + gap e.2 e'.2 ≤ e'.1

/-- The instructions of a list keep their distances from `a`, which stands
`d` before it. -/
def Behind (a : α) : ℕ → List α → Prop
  | _, [] => True
  | d, b :: l => gap a b ≤ d ∧ Behind a (d + cost W b) l

/-- **A program keeps its distances.** -/
def Paced : List α → Prop
  | [] => True
  | a :: l => Behind W gap a (cost W a) l ∧ Paced l

/-- What a program takes. -/
def total (l : List α) : ℕ := (l.map (cost W)).sum

/-- **Nothing is owed at the end** of a program to an instruction that may
follow it. -/
def Settled (U : α → Prop) : List α → Prop
  | [] => True
  | a :: l => (∀ b, U b → gap a b ≤ total W (a :: l)) ∧ Settled U l

section Decidable

instance decidableBehind (a : α) (d : ℕ) (l : List α) : Decidable (Behind W gap a d l) :=
  match l with
  | [] => isTrue trivial
  | b :: l =>
    have := decidableBehind a (d + cost W b) l
    inferInstanceAs (Decidable (_ ∧ _))

instance decidablePaced (l : List α) : Decidable (Paced W gap l) :=
  match l with
  | [] => isTrue trivial
  | _ :: l =>
    have := decidablePaced l
    inferInstanceAs (Decidable (_ ∧ _))

end Decidable

variable {W gap}

@[simp] theorem behind_nil (a : α) (d : ℕ) : Behind W gap a d [] := trivial

@[simp] theorem behind_cons {a b : α} {d : ℕ} {l : List α} :
    Behind W gap a d (b :: l) ↔ gap a b ≤ d ∧ Behind W gap a (d + cost W b) l := Iff.rfl

@[simp] theorem paced_nil : Paced W gap [] := trivial

@[simp] theorem paced_cons {a : α} {l : List α} :
    Paced W gap (a :: l) ↔ Behind W gap a (cost W a) l ∧ Paced W gap l := Iff.rfl

@[simp] theorem settled_nil (U : α → Prop) : Settled W gap U [] := trivial

@[simp] theorem settled_cons {U : α → Prop} {a : α} {l : List α} :
    Settled W gap U (a :: l) ↔
      (∀ b, U b → gap a b ≤ total W (a :: l)) ∧ Settled W gap U l := Iff.rfl

@[simp] theorem total_nil : total W ([] : List α) = 0 := rfl

@[simp] theorem total_cons (a : α) (l : List α) :
    total W (a :: l) = cost W a + total W l := by
  rw [total, List.map_cons, List.sum_cons, total]

@[simp] theorem total_append (l l' : List α) : total W (l ++ l') = total W l + total W l' := by
  rw [total, List.map_append, List.sum_append, total, total]

/-! ## Programs put together -/

theorem Behind.mono {a : α} {d d' : ℕ} {l : List α} (h : Behind W gap a d l) (hd : d ≤ d') :
    Behind W gap a d' l := by
  induction l generalizing d d' with
  | nil => trivial
  | cons b l ih => exact ⟨Nat.le_trans h.1 hd, ih h.2 (Nat.add_le_add_right hd _)⟩

theorem behind_append {a : α} {d : ℕ} {l l' : List α} :
    Behind W gap a d (l ++ l') ↔ Behind W gap a d l ∧ Behind W gap a (d + total W l) l' := by
  induction l generalizing d with
  | nil => simp
  | cons b l ih =>
    rw [List.cons_append, behind_cons, behind_cons, ih, total_cons, and_assoc, Nat.add_assoc]

/-- Far enough off, everything keeps its distance. -/
theorem behind_of_le {a : α} {d : ℕ} {l : List α} (h : ∀ b ∈ l, gap a b ≤ d) :
    Behind W gap a d l := by
  induction l generalizing d with
  | nil => trivial
  | cons b l ih =>
    refine ⟨h b List.mem_cons_self, ih fun c hc => ?_⟩
    exact Nat.le_trans (h c (List.mem_cons_of_mem b hc)) (Nat.le_add_right d _)

/-- An instruction that keeps no distance can stand anywhere. -/
theorem behind_of_zero {a : α} {d : ℕ} {l : List α} (h : ∀ b ∈ l, gap a b = 0) :
    Behind W gap a d l :=
  behind_of_le fun b hb => by rw [h b hb]; exact Nat.zero_le d

/-- **One program behind another.** -/
theorem Paced.append {U : α → Prop} {l l' : List α} (h : Paced W gap l) (hs : Settled W gap U l)
    (h' : Paced W gap l') (hU : ∀ b ∈ l', U b) : Paced W gap (l ++ l') := by
  induction l with
  | nil => exact h'
  | cons a l ih =>
    refine ⟨behind_append.2 ⟨h.1, behind_of_le fun b hb => ?_⟩, ih h.2 hs.2⟩
    have := hs.1 b (hU b hb)
    rwa [total_cons] at this

theorem Settled.append {U : α → Prop} {l l' : List α} (h : Settled W gap U l)
    (h' : Settled W gap U l') : Settled W gap U (l ++ l') := by
  induction l with
  | nil => exact h'
  | cons a l ih =>
    refine ⟨fun b hb => ?_, ih h.2⟩
    change gap a b ≤ total W ((a :: l) ++ l')
    rw [total_append]
    exact Nat.le_trans (h.1 b hb) (Nat.le_add_right _ _)

/-- **Programs in any order.** -/
theorem paced_flatten {U : α → Prop} {S : List (List α)} (h : ∀ l ∈ S, Paced W gap l)
    (hs : ∀ l ∈ S, Settled W gap U l) (hU : ∀ l ∈ S, ∀ b ∈ l, U b) : Paced W gap S.flatten := by
  induction S with
  | nil => trivial
  | cons l S ih =>
    rw [List.flatten_cons]
    refine (h l List.mem_cons_self).append (hs l List.mem_cons_self)
      (ih (fun l hl => h l (List.mem_cons_of_mem _ hl)) (fun l hl => hs l (List.mem_cons_of_mem _ hl))
        fun l hl => hU l (List.mem_cons_of_mem _ hl)) ?_
    intro b hb
    obtain ⟨l', hl', hb'⟩ := List.mem_flatten.1 hb
    exact hU l' (List.mem_cons_of_mem _ hl') b hb'

/-- A program broken off keeps its distances. -/
theorem Paced.left {l l' : List α} (h : Paced W gap (l ++ l')) : Paced W gap l := by
  induction l with
  | nil => trivial
  | cons a l ih => exact ⟨(behind_append.1 h.1).1, ih h.2⟩

theorem Paced.of_append_right {l l' : List α} (h : Paced W gap (l ++ l')) : Paced W gap l' := by
  induction l with
  | nil => exact h
  | cons a l ih => exact ih h.2

/-! ## Programs seen through a map -/

section Map

variable {β : Type*} (f : β → α)

theorem behind_map {b : β} {d : ℕ} {l : List β} :
    Behind W gap (f b) d (l.map f) ↔ Behind (W ∘ f) (fun x y => gap (f x) (f y)) b d l := by
  induction l generalizing d with
  | nil => exact Iff.rfl
  | cons c l ih => exact and_congr_right fun _ => ih

theorem paced_map {l : List β} :
    Paced W gap (l.map f) ↔ Paced (W ∘ f) (fun x y => gap (f x) (f y)) l := by
  induction l with
  | nil => exact Iff.rfl
  | cons b l ih => exact and_congr (behind_map f) ih

theorem total_map (l : List β) : total W (l.map f) = total (W ∘ f) l := by
  rw [total, total, List.map_map]
  rfl

theorem settled_map {U : α → Prop} {l : List β} (h : Settled W gap U (l.map f)) :
    Settled (W ∘ f) (fun x y => gap (f x) (f y)) (fun b => U (f b)) l := by
  induction l with
  | nil => trivial
  | cons b l ih =>
    refine ⟨fun c hc => ?_, ih h.2⟩
    rw [← total_map]
    exact h.1 (f c) hc

end Map

/-! ## Executed -/

/-- What follows an instruction in a run, no closer than in the program. -/
theorem le_of_behind {a : α} {T d : ℕ} {evs : List (ℕ × α)} (hs : Spaced W d evs)
    {k : ℕ} (hd : T + k ≤ d) (h : Behind W gap a k (evs.map Prod.snd)) :
    ∀ e ∈ evs, T + gap a e.2 ≤ e.1 := by
  induction evs generalizing d k with
  | nil => intro e he; cases he
  | cons e' evs ih =>
    intro e he
    have hk := h.1
    have hde := hs.1
    rcases List.mem_cons.1 he with rfl | he
    · omega
    · exact ih hs.2 (k := k + cost W e'.2) (by omega) h.2 e he

/-- **A run that keeps a paced program's order and distances respects
every minimum.** -/
theorem Paced.respects {d : ℕ} {evs : List (ℕ × α)} (h : Paced W gap (evs.map Prod.snd))
    (hs : Spaced W d evs) : Respects gap evs := by
  induction evs generalizing d with
  | nil => exact List.Pairwise.nil
  | cons e evs ih => exact List.Pairwise.cons (le_of_behind hs.2 (Nat.le_refl _) h.1) (ih h.2 hs.2)

/-- What respects its minimums does so by time, whatever the order of the
list. -/
theorem Respects.le_of_lt {evs : List (ℕ × α)} (h : Respects gap evs) {e e' : ℕ × α} (he : e ∈ evs)
    (he' : e' ∈ evs) (hlt : e.1 < e'.1) : e.1 + gap e.2 e'.2 ≤ e'.1 := by
  induction evs with
  | nil => cases he
  | cons x evs ih =>
    obtain ⟨hhead, htail⟩ := List.pairwise_cons.1 h
    rcases List.mem_cons.1 he with heq | hmem
    · rcases List.mem_cons.1 he' with heq' | hmem'
      · rw [heq, heq'] at hlt
        exact absurd hlt (Nat.lt_irrefl _)
      · rw [heq]
        exact hhead e' hmem'
    · rcases List.mem_cons.1 he' with heq' | hmem'
      · have hback := hhead e hmem
        rw [← heq'] at hback
        omega
      · exact ih htail hmem hmem'

theorem behind_of_schedule {a : α} {T k : ℕ} {l : List α}
    (h : ∀ e ∈ schedule W (T + k) l, T + gap a e.2 ≤ e.1) : Behind W gap a k l := by
  induction l generalizing k with
  | nil => trivial
  | cons b l ih =>
    rw [schedule_cons] at h
    have hb := h _ List.mem_cons_self
    refine ⟨by simp only at hb; omega, ih fun e he => ?_⟩
    exact h e (List.mem_cons_of_mem _ (by rwa [← Nat.add_assoc] at he))

/-- **And on schedule they are respected only by a paced one.** -/
theorem respects_schedule_iff (T : ℕ) (l : List α) :
    Respects gap (schedule W T l) ↔ Paced W gap l := by
  constructor
  · intro h
    induction l generalizing T with
    | nil => trivial
    | cons a l ih =>
      rw [schedule_cons] at h
      obtain ⟨hfirst, hrest⟩ := List.pairwise_cons.1 h
      exact ⟨behind_of_schedule hfirst, ih _ hrest⟩
  · intro h
    refine Paced.respects (W := W) ?_ (spaced_schedule W T l)
    rwa [schedule_map_snd]

end TwoSlot
