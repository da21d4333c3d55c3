import SoftMC.Path.Sequence
import SoftMC.Path.Stream
/-!
# The sequences a run serves

The stream of a run falls into the sequences handed over by its
`process_iseq` pulses, each of one source. Where program order holds,
what has issued is the sequences served so far, one after the other, the
last of them perhaps broken off; a dispatcher that is not busy has broken
none off.
-/

namespace SoftMC

open Clocked TwoSlot

namespace PathRun

variable (r : PathRun)

/-- The source of what has been gathered. -/
def origin (n : ℕ) : Source := ((r.gathered n).head?.map Prod.fst).getD .app

/-- **The sequences handed over** before cycle `n`, as they are stored, with
their sources. -/
def served : ℕ → List (Source × List Instr)
  | 0 => []
  | n + 1 => served n ++
      if (r.state n).recv.processIseqR then [(r.origin n, r.since n)] else []

/-- The source of the sequence handed over last. -/
def turn : ℕ → Source
  | 0 => .app
  | n + 1 => if (r.state n).recv.processIseqR then r.origin n else turn n

/-- What has been issued, with the source of its sequence. -/
def eventsBy (t : ℕ) : List ((ℕ × Source) × Instr) :=
  (r.events t).map fun e => ((e.1, r.turn t), e.2)

def issuedBy (n : ℕ) : List ((ℕ × Source) × Instr) := trace r.eventsBy n

/-- The sequences handed over, instruction by instruction. -/
def servedBy (n : ℕ) : List (Source × Instr) := (r.served n).flatMap fun s => s.2.map (s.1, ·)

variable {r}

theorem served_succ_of_pulse {n : ℕ} (h : (r.state n).recv.processIseqR = true) :
    r.served (n + 1) = r.served n ++ [(r.origin n, r.since n)] := by
  rw [served, if_pos h]

theorem served_succ_of_no_pulse {n : ℕ} (h : (r.state n).recv.processIseqR = false) :
    r.served (n + 1) = r.served n := by
  rw [served, h]
  exact List.append_nil _

/-- What is served was handed over by a pulse. -/
theorem exists_pulse {n : ℕ} {s : Source × List Instr} (h : s ∈ r.served n) :
    ∃ k < n, (r.state k).recv.processIseqR = true ∧ s = (r.origin k, r.since k) := by
  induction n with
  | zero => cases h
  | succ n ih =>
    cases hp : (r.state n).recv.processIseqR with
    | false =>
      rw [served_succ_of_no_pulse hp] at h
      obtain ⟨k, hk, hs⟩ := ih h
      exact ⟨k, by omega, hs⟩
    | true =>
      rw [served_succ_of_pulse hp] at h
      rcases List.mem_append.1 h with h | h
      · obtain ⟨k, hk, hs⟩ := ih h
        exact ⟨k, by omega, hs⟩
      · exact ⟨n, by omega, hp, List.mem_singleton.1 h⟩

/-- **The stream falls into sequences**, and what is being buffered. -/
theorem stored_eq_served (n : ℕ) : r.stored n = (r.served n).flatMap Prod.snd ++ r.since n := by
  induction n with
  | zero => rfl
  | succ n ih =>
    have hsince : r.since (n + 1) = (if (r.state n).recv.processIseqR then [] else r.since n) ++
        (r.state n).stored (r.wave n) := rfl
    rw [stored_succ, ih, hsince]
    cases hp : (r.state n).recv.processIseqR with
    | false => rw [served_succ_of_no_pulse hp, List.append_assoc]; rfl
    | true => simp [served_succ_of_pulse hp, List.append_assoc]

/-- A sequence of an application ends with an END, and has none before it
but perhaps in front. -/
theorem exists_closed_of_pulse {n : ℕ} (h : (r.state n).recv.processIseqR = true) :
    ∃ w e l, r.since n = w :: l ++ (r.origin n).endStored e ∧
      r.gathered n = (w :: l ++ [e]).map (Prod.mk (r.origin n)) ∧ opcode e = .endIseq ∧
      ∀ v ∈ l, opcode v ≠ .endIseq := by
  have hgath := gathered_spec (r := r) n
  unfold origin
  generalize r.gathered n = A at hgath ⊢
  generalize r.since n = P at hgath ⊢
  rcases hgath with ⟨-, hp⟩ | ⟨src, w, l, -, hp, -⟩ | ⟨src, w, e, l, -, -, hbody, hlast⟩
  · rw [hp] at h; cases h
  · rw [hp] at h; cases h
  · exact ⟨w, e, l, rfl, rfl, hlast, hbody⟩

/-- The source of a sequence is that of any instruction of it. -/
theorem origin_eq {n : ℕ} {src : Source} {w : Instr} (h : (src, w) ∈ r.gathered n) :
    r.origin n = src := by
  obtain ⟨src', hsrc⟩ := (gathered_spec (r := r) n).source
  obtain rfl : src = src' := hsrc _ h
  obtain ⟨x, A, hA⟩ := List.exists_cons_of_ne_nil (List.ne_nil_of_mem h)
  rw [origin, hA, List.head?_cons, Option.map_some, Option.getD_some]
  exact hsrc x (by rw [hA]; exact List.mem_cons_self)

/-- A pulse comes a cycle after the END of its source. -/
theorem exists_end_of_pulse {n : ℕ} (h : (r.state n).recv.processIseqR = true) :
    ∃ k, n = k + 1 ∧ (r.state k).recv.stateR = (r.origin n).state ∧
      (r.state n).recv.stateR = .idle := by
  cases n with
  | zero => rw [state_zero, r.idle.2.2] at h; cases h
  | succ k =>
    have hpulse : ((r.state k).recv.comb ((r.state k).recvIn (r.wave k))).processIseqNs = true := h
    rcases (r.state k).recv.outcome ((r.state k).recvIn (r.wave k)) with
      ⟨-, -, -, hp⟩ | ⟨src, w, -, -, -, -, -, -, hp⟩ | ⟨src, w, -, -, -, -, -, hp⟩ |
      ⟨src, w, hnow, hacc, -, hstate, -, -⟩
    · rw [hp] at hpulse; cases hpulse
    · rw [hp] at hpulse; cases hpulse
    · rw [hp] at hpulse; cases hpulse
    · have hmem : (src, w) ∈ r.gathered (k + 1) := by
        refine List.mem_append_right _ ?_
        rw [accepted, Core.accepted, hacc]
        exact List.mem_singleton_self _
      rw [origin_eq hmem]
      exact ⟨k, rfl, hnow, hstate⟩

/-! ## Sequences and their sources -/

theorem servedBy_succ_of_pulse {n : ℕ} (h : (r.state n).recv.processIseqR = true) :
    r.servedBy (n + 1) = r.servedBy n ++ (r.since n).map (r.origin n, ·) := by
  rw [servedBy, served_succ_of_pulse h, List.flatMap_append, List.flatMap_singleton, servedBy]

theorem servedBy_succ_of_no_pulse {n : ℕ} (h : (r.state n).recv.processIseqR = false) :
    r.servedBy (n + 1) = r.servedBy n := by
  rw [servedBy, served_succ_of_no_pulse h, servedBy]

theorem issuedBy_succ (n : ℕ) : r.issuedBy (n + 1) = r.issuedBy n ++ r.eventsBy n := rfl

theorem map_snd_servedBy (n : ℕ) :
    (r.servedBy n).map Prod.snd = (r.served n).flatMap Prod.snd := by
  rw [servedBy, List.map_flatMap]
  refine List.flatMap_congr fun s _ => ?_
  rw [List.map_map]
  exact List.map_id _

theorem map_fst_issuedBy (n : ℕ) :
    (r.issuedBy n).map (fun e => (e.1.1, e.2)) = r.issued n := by
  rw [issuedBy, issued, trace_map]
  refine trace_congr fun k _ => ?_
  rw [eventsBy, List.map_map]
  exact List.map_id _

theorem map_snd_issuedBy (n : ℕ) :
    (r.issuedBy n).map (Prod.snd ∘ fun e => (e.1.2, e.2)) = (r.issued n).map Prod.snd := by
  rw [← map_fst_issuedBy, List.map_map]
  rfl

/-- Labels that are all the same. -/
theorem eq_map_snd {src : Source} {l : List (Source × Instr)} (h : ∀ x ∈ l, x.1 = src) :
    l = (l.map Prod.snd).map (src, ·) := by
  rw [List.map_map]
  conv_lhs => rw [← List.map_id l]
  refine List.map_congr_left fun x hx => ?_
  rw [Function.comp_apply, ← h x hx]
  rfl

/-- Nothing issues with a pulse, and the dispatcher is busy a cycle
later. -/
theorem events_of_pulse {n : ℕ} (hp : (r.state n).recv.processIseqR = true) :
    (r.state n).exec.iseq.dispatcherBusyR = false ∧ r.events n = [] ∧
      (r.state (n + 1)).exec.iseq.dispatcherBusyR = true := by
  have hrest : (r.state n).AtRest := by
    rcases mode (r := r) n with h | h
    · exact h
    · rw [h.noPulse] at hp; cases hp
  exact ⟨hrest.resting.1,
    (Core.streams_idle (D := r.depth) hrest.resting.2.1.1 hrest.resting.2.2.1).1,
    (Core.dispatching_of_pulse hrest.resting (hrest.idle hp) hp).busy⟩

section Ordered

variable (hfit : ∀ n, r.Fits n) (hready : ∀ n, (r.wave n).dfiReady = true)
  (hwaits : ∀ n, ∀ w ∈ (r.state n).stored (r.wave n), waitOf w ≠ some 0)
  (hover : ∀ n, (r.state n).recv.processIseqR = true → (r.state n).HandsOver)

include hfit hready hwaits hover

/-- **What has issued is the sequences served**, but for what stands in the
dispatcher. -/
theorem served_eq_issued (n : ℕ) :
    ∃ R, (r.served n).flatMap Prod.snd = (r.issued n).map Prod.snd ++ R ∧
      ((r.state n).exec.iseq.dispatcherBusyR = false → R = []) ∧
      Spaced waitOf 0 (r.issued n) := by
  obtain ⟨R, hR, hstand, hspaced, -⟩ := streams_of_fits hfit hready hwaits fun k _ => hover k
  refine ⟨R, ?_, fun hbusy => ?_, hspaced⟩
  · rw [stored_eq_served, ← List.append_assoc] at hR
    exact List.append_cancel_right hR
  · rcases hstand with ⟨-, -, hnil⟩ | ⟨hd, -, -, -⟩ | ⟨hd, -, -⟩
    · exact hnil
    · rw [hd.busy] at hbusy; cases hbusy
    · rw [hd.busy] at hbusy; cases hbusy

/-- **What has issued bears the source of its sequence.** -/
theorem servedBy_eq_issuedBy (n : ℕ) :
    ∃ R, r.servedBy n = (r.issuedBy n).map (fun e => (e.1.2, e.2)) ++ R ∧
      (∀ x ∈ R, x.1 = r.turn n) ∧ ((r.state n).exec.iseq.dispatcherBusyR = false → R = []) := by
  induction n with
  | zero => exact ⟨[], rfl, by simp, fun _ => rfl⟩
  | succ n ih =>
    obtain ⟨R, hR, hsrc, hnil⟩ := ih
    cases hp : (r.state n).recv.processIseqR with
    | true =>
      -- the next sequence, and nothing of the one before it is left
      obtain ⟨hbusy, hev, hbusy'⟩ := events_of_pulse hp
      refine ⟨(r.since n).map (r.origin n, ·), ?_, fun x hx => ?_, fun hb => ?_⟩
      · rw [servedBy_succ_of_pulse hp, hR, hnil hbusy, List.append_nil, issuedBy_succ, eventsBy, hev]
        simp
      · obtain ⟨w, -, rfl⟩ := List.mem_map.1 hx
        rw [turn, if_pos hp]
      · rw [hbusy'] at hb
        cases hb
    | false =>
      obtain ⟨Q, hQ, hQnil, -⟩ := served_eq_issued hfit hready hwaits hover (n + 1)
      -- the events of the cycle are the first of what was left
      have hsplit : R.map Prod.snd = (r.events n).map Prod.snd ++ Q := by
        have hall := congrArg (List.map Prod.snd) hR
        rw [map_snd_servedBy, List.map_append, List.map_map] at hall
        rw [served_succ_of_no_pulse hp, issued_succ, List.map_append, List.append_assoc, hall,
          ← map_snd_issuedBy] at hQ
        exact List.append_cancel_left hQ
      have hevents : (r.eventsBy n).map (fun e => (e.1.2, e.2)) =
          ((r.events n).map Prod.snd).map (r.turn n, ·) := by
        rw [eventsBy, List.map_map, List.map_map]
        rfl
      refine ⟨Q.map (r.turn n, ·), ?_, fun x hx => ?_, fun hb => ?_⟩
      · rw [servedBy_succ_of_no_pulse hp, hR, issuedBy_succ, List.map_append, hevents,
          List.append_assoc, ← List.map_append, ← hsplit, ← eq_map_snd hsrc]
      · obtain ⟨w, -, rfl⟩ := List.mem_map.1 hx
        rw [turn, if_neg (by simp [hp])]
      · rw [hQnil hb]
        rfl

end Ordered

end PathRun

end SoftMC
