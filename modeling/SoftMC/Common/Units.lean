import Mathlib.Data.List.Basic
import Mathlib.Tactic.Common
/-!
# Streams of units

A stream that is put together of units, each of which ends with a closing
word. The first word of a unit is taken unseen, so it may be a closing
word itself; the units of a stream are found all the same, as long as each
of them has a word besides the one that closes it.
-/

namespace Units

variable {α : Type*}

/-- **A unit**: a first word, words that close nothing, and one that
does. -/
def IsUnit (isEnd : α → Prop) (l : List α) : Prop :=
  ∃ w b e, l = w :: (b ++ [e]) ∧ (∀ v ∈ b, ¬ isEnd v) ∧ isEnd e

/-- The beginning of a unit that is not closed yet. -/
def IsOpen (isEnd : α → Prop) : List α → Prop
  | [] => True
  | _ :: b => ∀ v ∈ b, ¬ isEnd v

variable {isEnd : α → Prop}

theorem IsUnit.length_pos {l : List α} (h : IsUnit isEnd l) : 0 < l.length := by
  obtain ⟨w, b, e, rfl, -, -⟩ := h
  exact Nat.succ_pos _

/-- Where the first closing word stands. -/
theorem append_cons_inj {b b' r r' : List α} {e e' : α} (hb : ∀ v ∈ b, ¬ isEnd v)
    (hb' : ∀ v ∈ b', ¬ isEnd v) (he : isEnd e) (he' : isEnd e') (h : b ++ e :: r = b' ++ e' :: r') :
    b = b' ∧ e = e' ∧ r = r' := by
  induction b generalizing b' with
  | nil =>
    cases b' with
    | nil => exact ⟨rfl, List.cons.inj h⟩
    | cons v b' =>
      obtain ⟨rfl, -⟩ := List.cons.inj h
      exact absurd he (hb' e List.mem_cons_self)
  | cons v b ih =>
    cases b' with
    | nil =>
      obtain ⟨rfl, -⟩ := List.cons.inj h
      exact absurd he' (hb v List.mem_cons_self)
    | cons v' b' =>
      obtain ⟨rfl, htail⟩ := List.cons.inj h
      obtain ⟨rfl, hend⟩ := ih (fun u hu => hb u (List.mem_cons_of_mem _ hu))
        (fun u hu => hb' u (List.mem_cons_of_mem _ hu)) htail
      exact ⟨rfl, hend⟩

/-- **A stream begins with one unit only.** -/
theorem IsUnit.append_inj {l l' r r' : List α} (h : IsUnit isEnd l) (h' : IsUnit isEnd l')
    (heq : l ++ r = l' ++ r') : l = l' ∧ r = r' := by
  obtain ⟨w, b, e, rfl, hb, he⟩ := h
  obtain ⟨w', b', e', rfl, hb', he'⟩ := h'
  simp only [List.cons_append, List.append_assoc, List.nil_append] at heq
  obtain ⟨rfl, htail⟩ := List.cons.inj heq
  obtain ⟨rfl, rfl, rfl⟩ := append_cons_inj hb hb' he he' htail
  exact ⟨rfl, rfl⟩

/-- **Units at the beginning of a stream of units are its first.** -/
theorem eq_take_of_prefix_flatten {ss ps : List (List α)} {rest : List α} (hs : ∀ s ∈ ss, IsUnit isEnd s)
    (hp : ∀ p ∈ ps, IsUnit isEnd p) (h : ss.flatten ++ rest <+: ps.flatten) :
    ss = ps.take ss.length ∧ rest <+: (ps.drop ss.length).flatten := by
  induction ss generalizing ps with
  | nil => exact ⟨rfl, h⟩
  | cons s ss ih =>
    obtain ⟨t, ht⟩ := h
    have hsunit := hs s List.mem_cons_self
    rw [List.flatten_cons, List.append_assoc, List.append_assoc] at ht
    cases ps with
    | nil =>
      have hpos := hsunit.length_pos
      have hlen := congrArg List.length ht
      rw [List.length_append] at hlen
      change _ = 0 at hlen
      omega
    | cons p ps =>
      rw [List.flatten_cons] at ht
      obtain ⟨rfl, htail⟩ := hsunit.append_inj (hp p List.mem_cons_self) ht
      obtain ⟨htake, hdrop⟩ := ih (fun u hu => hs u (List.mem_cons_of_mem _ hu))
        (fun u hu => hp u (List.mem_cons_of_mem _ hu)) ⟨t, by rw [← htail, List.append_assoc]⟩
      exact ⟨congrArg (s :: ·) htake, hdrop⟩

/-- What is open is not as long as the unit it is of. -/
theorem IsOpen.length_lt {l p r t : List α} (h : IsOpen isEnd l) (hp : IsUnit isEnd p)
    (heq : l ++ t = p ++ r) : l.length < p.length := by
  obtain ⟨w', b', e, rfl, -, he⟩ := hp
  cases l with
  | nil => exact Nat.succ_pos _
  | cons w b =>
    simp only [List.cons_append, List.append_assoc, List.nil_append] at heq
    by_contra hge
    simp only [List.length_cons, List.length_append, List.length_nil] at hge
    -- the closing word of the unit would be in what is open
    have hget : (b ++ t)[b'.length]? = (b' ++ e :: r)[b'.length]? := by
      rw [(List.cons.inj heq).2]
    rw [List.getElem?_append_left (by omega), List.getElem?_append_right (Nat.le_refl _),
      Nat.sub_self] at hget
    exact h e (List.mem_of_getElem? hget) he

theorem IsOpen.length_le {l : List α} (h : IsOpen isEnd l) {ps : List (List α)}
    (hp : ∀ p ∈ ps, IsUnit isEnd p) {c : ℕ} (hc : ∀ p ∈ ps, p.length ≤ c)
    (hpre : l <+: ps.flatten) : l.length ≤ c := by
  obtain ⟨t, ht⟩ := hpre
  cases ps with
  | nil =>
    rw [(List.append_eq_nil_iff.1 ht).1]
    exact Nat.zero_le c
  | cons p ps =>
    have hlt := h.length_lt (hp p List.mem_cons_self) ht
    have hle := hc p List.mem_cons_self
    omega

/-- **A stream with these units at its beginning has them among its
first**, whatever is still open at its end. -/
theorem prefix_of_flatten_prefix {ss ps : List (List α)} {rest : List α}
    (hs : ∀ s ∈ ss, IsUnit isEnd s) (hp : ∀ p ∈ ps, IsUnit isEnd p) (hrest : IsOpen isEnd rest)
    (h : ps.flatten <+: ss.flatten ++ rest) : ps <+: ss := by
  induction ps generalizing ss with
  | nil => exact List.nil_prefix
  | cons p ps ih =>
    obtain ⟨t, ht⟩ := h
    have hunit := hp p List.mem_cons_self
    rw [List.flatten_cons, List.append_assoc] at ht
    cases ss with
    | nil =>
      have hlt := hrest.length_lt (t := []) hunit ((List.append_nil rest).trans ht.symm)
      have hlen := congrArg List.length ht
      rw [List.length_append] at hlen
      change _ = rest.length at hlen
      omega
    | cons s ss =>
      rw [List.flatten_cons, List.append_assoc] at ht
      obtain ⟨rfl, htail⟩ := hunit.append_inj (hs s List.mem_cons_self) ht
      exact (List.prefix_cons_inj p).2 (ih (fun u hu => hs u (List.mem_cons_of_mem _ hu))
        (fun u hu => hp u (List.mem_cons_of_mem _ hu)) ⟨t, htail⟩)

/-! ## What comes only behind something else -/

/-- No `Q` stands before a `P`. -/
def Guarded (P Q : α → Prop) : List α → Prop
  | [] => True
  | a :: l => ¬ Q a ∧ (P a ∨ Guarded P Q l)

variable {P Q : α → Prop}

theorem Guarded.of_none {l : List α} (h : ∀ a ∈ l, ¬ Q a) : Guarded P Q l := by
  induction l with
  | nil => trivial
  | cons a l ih =>
    exact ⟨h a List.mem_cons_self, Or.inr (ih fun b hb => h b (List.mem_cons_of_mem _ hb))⟩

theorem Guarded.append {l l' : List α} (h : Guarded P Q l) (h' : Guarded P Q l') :
    Guarded P Q (l ++ l') := by
  induction l with
  | nil => exact h'
  | cons a l ih => exact ⟨h.1, h.2.imp id ih⟩

theorem Guarded.flatten {S : List (List α)} (h : ∀ l ∈ S, Guarded P Q l) :
    Guarded P Q S.flatten := by
  induction S with
  | nil => trivial
  | cons l S ih =>
    exact (h l List.mem_cons_self).append (ih fun l' hl' => h l' (List.mem_cons_of_mem _ hl'))

theorem Guarded.left {l l' : List α} (h : Guarded P Q (l ++ l')) : Guarded P Q l := by
  induction l with
  | nil => trivial
  | cons a l ih => exact ⟨h.1, h.2.imp id ih⟩

/-- Where there is a `Q`, there is a `P`. -/
theorem Guarded.exists_of_mem {l : List α} (h : Guarded P Q l) {b : α} (hb : b ∈ l) (hQ : Q b) :
    ∃ a ∈ l, P a := by
  induction l with
  | nil => cases hb
  | cons a l ih =>
    rcases List.mem_cons.1 hb with rfl | hb
    · exact absurd hQ h.1
    · rcases h.2 with hP | htail
      · exact ⟨a, List.mem_cons_self, hP⟩
      · obtain ⟨c, hc, hP⟩ := ih htail hb
        exact ⟨c, List.mem_cons_of_mem a hc, hP⟩

end Units
