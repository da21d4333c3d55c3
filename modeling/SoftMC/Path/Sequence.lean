import SoftMC.Path.Run
/-!
# The sequences a run accepts

What has been accepted since the last `process_iseq` comes from one source
and is closed by the END that raises the next; it was opened while FIFOs
and stages were empty. What the dispatcher holds is of the sequence handed
over last. None of this needs the FIFOs to have room.
-/

namespace SoftMC

open Clocked

/-! ## Against the receiver -/

/-- **What has been gathered**, against the receiver's state: `A` accepted
and `P` stored since the last `process_iseq`. The first instruction is
taken without a look at its opcode. -/
inductive Gathered (c : Core) : List (Source × Instr) → List Instr → Prop
  | none (idle : c.recv.stateR = .idle) (pulse : c.recv.processIseqR = false) :
      Gathered c [] []
  | opened (src : Source) (w : Instr) (l : List Instr) (state : c.recv.stateR = src.state)
      (pulse : c.recv.processIseqR = false) (body : ∀ v ∈ l, opcode v ≠ .endIseq) :
      Gathered c ((w :: l).map (Prod.mk src)) (w :: l)
  | closed (src : Source) (w e : Instr) (l : List Instr) (idle : c.recv.stateR = .idle)
      (pulse : c.recv.processIseqR = true) (body : ∀ v ∈ l, opcode v ≠ .endIseq)
      (last : opcode e = .endIseq) :
      Gathered c ((w :: l ++ [e]).map (Prod.mk src))
        (w :: l ++ src.endStored e)

/-- Nothing gathered: the receiver waits for a first instruction. -/
theorem Gathered.of_nil {c : Core} {P : List Instr} (h : Gathered c [] P) :
    c.recv.stateR = .idle ∧ c.recv.processIseqR = false := by
  generalize hA : ([] : List (Source × Instr)) = A at h
  rcases h with ⟨hidle, hp⟩ | _ | _
  · exact ⟨hidle, hp⟩
  all_goals simp at hA

/-- What is stored has been accepted. -/
theorem Gathered.accepted {c : Core} {A : List (Source × Instr)} {P : List Instr}
    (h : Gathered c A P) {w : Instr} (hw : w ∈ P) : ∃ src, (src, w) ∈ A := by
  rcases h with _ | ⟨src, v, l, -, -, -⟩ | ⟨src, v, e, l, -, -, -, -⟩
  · cases hw
  · exact ⟨src, List.mem_map_of_mem hw⟩
  · refine ⟨src, List.mem_map_of_mem ?_⟩
    cases src with
    | app => exact hw
    | maint => exact List.mem_append_left _ (by simpa [Source.endStored] using hw)

/-- All of it is of one source. -/
theorem Gathered.source {c : Core} {A : List (Source × Instr)} {P : List Instr}
    (h : Gathered c A P) : ∃ src, ∀ x ∈ A, x.1 = src := by
  have hmap : ∀ (src : Source) (l : List Instr), ∀ x ∈ l.map (Prod.mk src), x.1 = src := by
    intro src l x hx
    obtain ⟨v, -, rfl⟩ := List.mem_map.1 hx
    rfl
  rcases h with _ | ⟨src, v, l, -, -, -⟩ | ⟨src, v, e, l, -, -, -, -⟩
  · exact ⟨.app, fun x hx => by cases hx⟩
  · exact ⟨src, hmap src _⟩
  · exact ⟨src, hmap src _⟩

namespace Core

variable {c : Core} {i : In} {D : Option ℕ} {A : List (Source × Instr)} {P : List Instr}

/-- **One step of the receiver** goes on with the sequence, opens the next
or closes it. -/
theorem gathered_next (h : Gathered c A P) :
    Gathered (Core.next D c i)
      ((if c.recv.processIseqR then [] else A) ++ (c.accepted i).toList) (c.buffered i P) := by
  have hout := c.recv.outcome (c.recvIn i)
  unfold buffered Core.stored Core.accepted
  -- by what is gathered, and then by the outcome of the receiver
  rcases h with ⟨hidle, hp⟩ | ⟨src, w, l, hs, hp, hbody⟩ | ⟨src, w, e, l, hidle, hp, hbody, hend⟩
  · rw [if_neg (by simp [hp]), if_neg (by simp [hp])]
    rcases hout with ⟨hacc, hs, hst, hpl⟩ | ⟨src, w, -, -, -, hacc, hs, hst, hpl⟩ |
      ⟨src, w, hnow, -, -, -, -, -⟩ | ⟨src, w, hnow, -, -, -, -, -⟩
    · rw [hacc, hst]; exact .none (hs.trans hidle) hpl
    · rw [hacc, hst]; exact .opened src w [] hs hpl (by simp)
    · rw [hidle] at hnow; cases src <;> cases hnow
    · rw [hidle] at hnow; cases src <;> cases hnow
  · rw [if_neg (by simp [hp]), if_neg (by simp [hp])]
    rcases hout with ⟨hacc, hs', hst, hpl⟩ | ⟨src', w', hidle, -, -, -, -, -, -⟩ |
      ⟨src', w', hnow, hacc, hop, hs', hst, hpl⟩ | ⟨src', w', hnow, hacc, hop, hs', hst, hpl⟩
    · rw [hacc, hst, Option.toList_none, List.append_nil, List.append_nil]
      exact .opened src w l (hs'.trans hs) hpl hbody
    · rw [hs] at hidle; cases src <;> cases hidle
    · obtain rfl : src' = src := by cases src <;> cases src' <;> simp_all [Source.state]
      have hbody' : ∀ v ∈ l ++ [w'], opcode v ≠ .endIseq := by
        intro v hv
        rcases List.mem_append.1 hv with hv | hv
        · exact hbody v hv
        · rw [List.mem_singleton.1 hv]; exact hop
      rw [hacc, hst]
      have := Gathered.opened (c := Core.next D c i) src' w (l ++ [w']) hs' hpl hbody'
      rw [← List.cons_append, List.map_append] at this
      exact this
    · obtain rfl : src' = src := by cases src <;> cases src' <;> simp_all [Source.state]
      rw [hacc, hst]
      have := Gathered.closed (c := Core.next D c i) src' w w' l hs' hpl hbody hop
      rw [List.map_append] at this
      exact this
  · rw [if_pos hp, if_pos hp]
    rcases hout with ⟨hacc, hs, hst, hpl⟩ | ⟨-, -, -, -, hstill, -, -, -, -⟩ |
      ⟨src', w', hnow, -, -, -, -, -⟩ | ⟨src', w', hnow, -, -, -, -, -⟩
    · rw [hacc, hst]; exact .none (hs.trans hidle) hpl
    · rw [hp] at hstill; cases hstill
    · rw [hidle] at hnow; cases src' <;> cases hnow
    · rw [hidle] at hnow; cases src' <;> cases hnow

end Core

/-! ## Over a run -/

namespace PathRun

variable (r : PathRun)

/-- The instruction accepted in cycle `n`, with its source. -/
def accepted (n : ℕ) : List (Source × Instr) := ((r.state n).accepted (r.wave n)).toList

/-- What has been accepted since the last `process_iseq`. -/
def gathered : ℕ → List (Source × Instr)
  | 0 => []
  | n + 1 => (if (r.state n).recv.processIseqR then [] else gathered n) ++ r.accepted n

/-- The sequence handed over by the latest `process_iseq`. -/
def sequence : ℕ → List (Source × Instr)
  | 0 => []
  | n + 1 => if (r.state (n + 1)).recv.processIseqR then r.gathered (n + 1) else sequence n

variable {r}

theorem gathered_spec (n : ℕ) : Gathered (r.state n) (r.gathered n) (r.since n) := by
  induction n with
  | zero => exact .none r.idle.2.1 r.idle.2.2
  | succ n ih => exact Core.gathered_next ih

/-- **A sequence is opened at rest**: whatever has been gathered is the
acceptances of the cycles since the one that found FIFOs, stages and
receiver idle. -/
theorem exists_opened {n : ℕ} (h : r.gathered n ≠ []) :
    ∃ m k, n = m + k ∧ r.accepted m ≠ [] ∧ (r.state m).Idle ∧
      r.gathered n = trace (fun j => r.accepted (m + j)) k := by
  induction n with
  | zero => exact absurd rfl h
  | succ n ih =>
    have hnext : r.gathered (n + 1) =
      (if (r.state n).recv.processIseqR then [] else r.gathered n) ++ r.accepted n := rfl
    have hquiet : (r.state n).recv.processIseqR = true → r.accepted n = [] := by
      intro hp
      rcases (r.state n).recv.outcome ((r.state n).recvIn (r.wave n)) with ⟨hacc, -, -, -⟩ |
        ⟨-, -, -, -, hstill, -, -, -, -⟩ | ⟨src, -, hnow, -, -, -, -, -⟩ |
        ⟨src, -, hnow, -, -, -, -, -⟩
      · rw [accepted, Core.accepted, hacc]; rfl
      · rw [hp] at hstill; cases hstill
      · rw [idle_of_pulse hp] at hnow; cases src <;> cases hnow
      · rw [idle_of_pulse hp] at hnow; cases src <;> cases hnow
    cases hp : (r.state n).recv.processIseqR with
    | true => rw [hnext, if_pos hp, hquiet hp] at h; exact absurd rfl h
    | false =>
      rw [if_neg (by simp [hp])] at hnext
      by_cases hnil : r.gathered n = []
      · -- the first instruction
        rw [hnext, hnil, List.nil_append] at h
        have hgath := gathered_spec (r := r) n
        rw [hnil] at hgath
        refine ⟨n, 1, rfl, h, ⟨?_, hgath.of_nil⟩, by rw [hnext, hnil]; rfl⟩
        rcases mode (r := r) n with hrest | hd
        · exact hrest.fresh hgath.of_nil.1 hgath.of_nil.2
        · refine absurd ?_ h
          simp [accepted, Core.accepted, Receiver.accepted, hd.quiet, Receiver.defaults]
      · obtain ⟨m, k, hn, hm, hidle, htr⟩ := ih hnil
        refine ⟨m, k + 1, by omega, hm, hidle, ?_⟩
        rw [hnext, htr, trace_succ, hn]

/-- A sequence is of one source. -/
theorem sequence_source (n : ℕ) : ∃ src, ∀ x ∈ r.sequence n, x.1 = src := by
  induction n with
  | zero => exact ⟨.app, fun x hx => by cases hx⟩
  | succ n ih =>
    rw [sequence]
    split
    · exact (gathered_spec (n + 1)).source
    · exact ih

theorem sequence_of_pulse {n : ℕ} (hp : (r.state n).recv.processIseqR = true) :
    r.sequence n = r.gathered n := by
  cases n with
  | zero => rw [state_zero, r.idle.2.2] at hp; cases hp
  | succ n => rw [sequence, if_pos hp]

/-- A dispatch is of the sequence handed over last. -/
theorem sequence_of_dispatching {n : ℕ} (h : (r.state (n + 1)).Dispatching) :
    r.sequence (n + 1) = r.sequence n := by
  rw [sequence, if_neg (by simp [h.noPulse])]

/-- **What is held on the path** has been gathered, and during a dispatch
it is of the sequence handed over. -/
theorem holds_spec (n : ℕ) :
    ((r.state n).AtRest → ∀ w, (r.state n).Holds w → w ∈ r.since n) ∧
      ((r.state n).Dispatching → ∀ w, (r.state n).Holds w → ∃ src, (src, w) ∈ r.sequence n) := by
  induction n with
  | zero =>
    exact ⟨fun _ w hw => absurd hw (r.idle.1.not_holds w),
      fun hd => absurd r.idle.1.resting hd.not_resting⟩
  | succ n ih =>
    obtain ⟨hgath, hseq⟩ := ih
    rcases mode (r := r) n with hrest | hd
    · cases hp : (r.state n).recv.processIseqR with
      | true =>
        -- the pulse: what has been gathered becomes the sequence dispatched
        have hd := Core.dispatching_of_pulse (D := r.depth) (i := r.wave n) hrest.resting
          (hrest.idle hp) hp
        have hst : (r.state n).stored (r.wave n) = [] := by
          simp [Core.stored, Receiver.stored, Receiver.comb, hrest.idle hp, hp, Receiver.defaults]
        refine ⟨fun h => absurd h.resting hd.not_resting, fun _ w hw => ?_⟩
        rw [sequence_of_dispatching hd, sequence_of_pulse hp]
        rcases Core.holds_next hrest.resting.sound hw with hw | hw
        · exact (gathered_spec n).accepted (hgath hrest w hw)
        · rw [hst] at hw; cases hw
      | false =>
        have hrest' : (r.state (n + 1)).exec.Resting := hrest.resting.next hp
        refine ⟨fun _ w hw => ?_, fun h => absurd hrest' h.not_resting⟩
        rw [since, Core.buffered, if_neg (by simp [hp])]
        rcases Core.holds_next hrest.resting.sound hw with hw | hw
        · exact List.mem_append_left _ (hgath hrest w hw)
        · exact List.mem_append_right _ hw
    · constructor
      · intro hrest w hw
        rcases hd.next (D := r.depth) (i := r.wave n) with hb | ⟨-, hd'⟩
        -- the last cycle of a dispatch leaves nothing behind
        · exact absurd hw (hb.not_holds w)
        · exact absurd hrest.resting hd'.not_resting
      · intro hd' w hw
        rw [sequence_of_dispatching hd']
        rcases Core.holds_next (Core.Mode.sound (Or.inr hd)) hw with hw | hw
        · exact hseq hd w hw
        · rw [hd.stored] at hw; cases hw

/-- What holds of every instruction accepted holds of every word held. -/
theorem exists_of_holds {Q : Source × Instr → Prop} (hQ : ∀ n, ∀ x ∈ r.accepted n, Q x) {n : ℕ}
    {w : Instr} (h : (r.state n).Holds w) : ∃ src, Q (src, w) := by
  have hall : ∀ n, (∀ x ∈ r.gathered n, Q x) ∧ ∀ x ∈ r.sequence n, Q x := by
    intro n
    induction n with
    | zero => exact ⟨fun x hx => (List.not_mem_nil hx).elim, fun x hx => (List.not_mem_nil hx).elim⟩
    | succ n ih =>
      have hgath : ∀ x ∈ r.gathered (n + 1), Q x := by
        intro x hx
        rw [gathered] at hx
        rcases List.mem_append.1 hx with hx | hx
        · split at hx
          · cases hx
          · exact ih.1 x hx
        · exact hQ n x hx
      refine ⟨hgath, ?_⟩
      rw [sequence]
      split
      · exact hgath
      · exact ih.2
  rcases mode (r := r) n with hrest | hd
  · obtain ⟨src, hx⟩ := (gathered_spec n).accepted ((holds_spec n).1 hrest w h)
    exact ⟨src, (hall n).1 _ hx⟩
  · obtain ⟨src, hx⟩ := (holds_spec n).2 hd w h
    exact ⟨src, (hall n).2 _ hx⟩

end PathRun

end SoftMC
