import SoftMC.Common.Units
import SoftMC.Path.Served
/-!
# The application's sequences

What has been accepted of the application, whatever was served in between,
is its sequences one after the other: those served, and the one that is
being gathered. So the sequences it has sent are served in the order it
has sent them in.
-/

namespace SoftMC

open Clocked Units

/-- What closes a sequence. -/
abbrev IsEnd (w : Instr) : Prop := opcode w = .endIseq

/-- What is stored has been accepted in the cycle. -/
theorem Core.exists_accepted_of_stored {c : Core} {i : Core.In} {w : Instr} (h : w ∈ c.stored i) :
    ∃ src, c.accepted i = some (src, w) := by
  rcases c.recv.outcome (c.recvIn i) with ⟨-, -, hst, -⟩ | ⟨src, v, -, -, -, hacc, -, hst, -⟩ |
    ⟨src, v, -, hacc, -, -, hst, -⟩ | ⟨src, v, -, hacc, -, -, hst, -⟩
  · rw [stored, hst] at h
    cases h
  · rw [stored, hst] at h
    exact ⟨src, List.mem_singleton.1 h ▸ hacc⟩
  · rw [stored, hst] at h
    exact ⟨src, List.mem_singleton.1 h ▸ hacc⟩
  · rw [stored, hst] at h
    cases src with
    | app => exact ⟨.app, List.mem_singleton.1 h ▸ hacc⟩
    | maint => cases h

namespace PathRun

/-- The application's instructions among those accepted. -/
def ofApp (l : List (Source × Instr)) : List Instr := (l.filter (·.1 = .app)).map Prod.snd

@[simp] theorem ofApp_nil : ofApp [] = [] := rfl

theorem ofApp_append (l l' : List (Source × Instr)) : ofApp (l ++ l') = ofApp l ++ ofApp l' := by
  rw [ofApp, List.filter_append, List.map_append, ofApp, ofApp]

@[simp] theorem ofApp_app (l : List Instr) : ofApp (l.map (Prod.mk .app)) = l := by
  induction l with
  | nil => rfl
  | cons w l ih => rw [List.map_cons, ofApp, List.filter_cons_of_pos rfl, List.map_cons, ← ofApp, ih]

@[simp] theorem ofApp_maint (l : List Instr) : ofApp (l.map (Prod.mk .maint)) = [] := by
  induction l with
  | nil => rfl
  | cons w l ih => rw [List.map_cons, ofApp, List.filter_cons_of_neg (by simp), ← ofApp, ih]

theorem mem_ofApp {l : List (Source × Instr)} {w : Instr} (h : (Source.app, w) ∈ l) : w ∈ ofApp l :=
  List.mem_map.2 ⟨(.app, w), List.mem_filter.2 ⟨h, rfl⟩, rfl⟩

variable (r : PathRun)

/-- The application's instructions accepted before cycle `n`, and its
sequences served. -/
def appAccepted (n : ℕ) : List Instr := trace (fun k => ofApp (r.accepted k)) n

def appServed (n : ℕ) : List (List Instr) := ((r.served n).filter (·.1 = .app)).map Prod.snd

variable {r}

theorem appServed_succ_of_no_pulse {n : ℕ} (h : (r.state n).recv.processIseqR = false) :
    r.appServed (n + 1) = r.appServed n := by
  rw [appServed, served_succ_of_no_pulse h, appServed]

theorem appServed_succ_of_pulse {n : ℕ} (h : (r.state n).recv.processIseqR = true) :
    r.appServed (n + 1) = r.appServed n ++ if r.origin n = .app then [r.since n] else [] := by
  rw [appServed, served_succ_of_pulse h, List.filter_append, List.map_append, ← appServed]
  split
  · rename_i hsrc
    rw [List.filter_cons_of_pos (by simpa using hsrc)]
    rfl
  · rename_i hsrc
    rw [List.filter_cons_of_neg (by simpa using hsrc)]
    rfl

/-- **The application's instructions fall into its sequences**, and what is
being gathered. -/
theorem appAccepted_eq (n : ℕ) :
    r.appAccepted n = (r.appServed n).flatten ++ ofApp (r.gathered n) := by
  induction n with
  | zero => rfl
  | succ n ih =>
    have hgathered : r.gathered (n + 1) =
        (if (r.state n).recv.processIseqR then [] else r.gathered n) ++ r.accepted n := rfl
    rw [appAccepted, trace_succ, ← appAccepted, ih, hgathered, ofApp_append, ← List.append_assoc]
    congr 1
    cases hp : (r.state n).recv.processIseqR with
    | false => rw [appServed_succ_of_no_pulse hp, if_neg Bool.false_ne_true]
    | true =>
      obtain ⟨w, e, l, hsince, hacc, -, -⟩ := exists_closed_of_pulse hp
      rw [appServed_succ_of_pulse hp, if_pos rfl, ofApp_nil, List.append_nil, hacc, hsince,
        List.flatten_append]
      cases r.origin n with
      | app => rw [ofApp_app, if_pos rfl]; simp [Source.endStored]
      | maint => rw [ofApp_maint, if_neg (by simp)]; rfl

/-- A sequence of the application is a unit. -/
theorem isUnit_of_mem_appServed {n : ℕ} {s : List Instr} (h : s ∈ r.appServed n) :
    IsUnit IsEnd s := by
  obtain ⟨x, hx, rfl⟩ := List.mem_map.1 h
  obtain ⟨hserved, hsrc⟩ := List.mem_filter.1 hx
  obtain ⟨k, -, hp, rfl⟩ := exists_pulse hserved
  obtain ⟨w, e, l, hsince, -, hend, hbody⟩ := exists_closed_of_pulse hp
  have horigin : r.origin k = .app := of_decide_eq_true hsrc
  refine ⟨w, l, e, ?_, hbody, hend⟩
  rw [hsince, horigin]
  rfl

theorem mem_appAccepted {n : ℕ} {w : Instr} (h : (Source.app, w) ∈ r.accepted n) :
    w ∈ r.appAccepted (n + 1) :=
  mem_trace.2 ⟨n, Nat.lt_succ_self n, mem_ofApp h⟩

/-- What is buffered is dealt to the FIFOs, half of it to each. -/
theorem fits_of_length {c : ℕ} (hd : ∀ d ∈ r.depth, c ≤ 2 * d) (hlen : ∀ n, (r.since n).length ≤ c)
    (n : ℕ) : r.Fits n := by
  induction n using Nat.strong_induction_on with
  | _ n ih =>
    rcases phase ih with hbuf | ⟨-, hdisp⟩
    · rw [Fits]
      cases hdepth : r.depth with
      | none => exact Exec.fits_of_unbounded
      | some d => exact hbuf.fits (Nat.le_trans (hlen n) (hd d (by rw [hdepth]; rfl)))
    · obtain ⟨h0, h1⟩ := hdisp.no_write (i := r.wave n)
      exact ⟨fun h => absurd h0 h, fun h => absurd h1 h⟩

/-- What is being gathered of the application is not closed, but with its
pulse. -/
theorem isOpen_gathered {n : ℕ} (hp : (r.state n).recv.processIseqR = false) :
    IsOpen IsEnd (ofApp (r.gathered n)) := by
  have hspec := gathered_spec (r := r) n
  generalize r.gathered n = A at hspec ⊢
  generalize r.since n = P at hspec
  rcases hspec with _ | ⟨src, w, l, -, -, hbody⟩ | ⟨src, w, e, l, -, hpulse, -, -⟩
  · exact trivial
  · cases src with
    | app => rw [ofApp_app]; exact hbody
    | maint => rw [ofApp_maint]; exact trivial
  · rw [hp] at hpulse
    cases hpulse

/-- A pulse is one cycle long. -/
theorem no_pulse_succ {n : ℕ} (hp : (r.state n).recv.processIseqR = true) :
    (r.state (n + 1)).recv.processIseqR = false := by
  rcases mode (r := r) n with hrest | hdisp
  · exact (Core.dispatching_of_pulse hrest.resting (hrest.idle hp) hp).noPulse
  · rw [hdisp.noPulse] at hp
    cases hp

theorem appServed_mono {m n : ℕ} (h : m ≤ n) : r.appServed m <+: r.appServed n := by
  induction n, h using Nat.le_induction with
  | base => exact List.prefix_rfl
  | succ n _ ih =>
    refine ih.trans ?_
    cases hp : (r.state n).recv.processIseqR with
    | false => rw [appServed_succ_of_no_pulse hp]
    | true => rw [appServed_succ_of_pulse hp]; exact List.prefix_append _ _

/-- **Sequences that have been accepted are served**, and dispatched. -/
theorem exists_appServed (hready : ∀ n, ∃ m, n ≤ m ∧ (r.wave m).dfiReady = true)
    {ps : List (List Instr)} (hps : ∀ p ∈ ps, IsUnit IsEnd p) {n : ℕ}
    (h : ps.flatten <+: r.appAccepted n) :
    ∃ m, n ≤ m ∧ (r.state m).exec.iseq.dispatcherBusyR = false ∧ ps <+: r.appServed m := by
  obtain ⟨k, hk, hp, hpre⟩ : ∃ k, n ≤ k ∧ (r.state k).recv.processIseqR = false ∧
      ps.flatten <+: r.appAccepted k := by
    cases hp : (r.state n).recv.processIseqR with
    | false => exact ⟨n, Nat.le_refl n, hp, h⟩
    | true =>
      refine ⟨n + 1, Nat.le_succ n, no_pulse_succ hp, h.trans ?_⟩
      rw [appAccepted, appAccepted, trace_succ]
      exact List.prefix_append _ _
  rw [appAccepted_eq] at hpre
  have hserved : ps <+: r.appServed k :=
    prefix_of_flatten_prefix (fun s hs => isUnit_of_mem_appServed hs) hps (isOpen_gathered hp) hpre
  rcases mode (r := r) k with hrest | hdisp
  · exact ⟨k, hk, hrest.resting.1, hserved⟩
  · obtain ⟨m, hm, hbusy⟩ := exists_not_busy hdisp hready
    exact ⟨m, Nat.le_trans hk hm, hbusy, hserved.trans (appServed_mono hm)⟩

section Stream

variable {ps : List (List Instr)} (hp : ∀ p ∈ ps, IsUnit IsEnd p) {n : ℕ}
  (h : r.appAccepted n <+: ps.flatten)

include hp h

/-- **Sequences are served in the order of the stream.** -/
theorem appServed_eq_take : r.appServed n = ps.take (r.appServed n).length := by
  rw [appAccepted_eq] at h
  exact (eq_take_of_prefix_flatten (fun s hs => isUnit_of_mem_appServed hs) hp h).1

/-- What is buffered of the application is no longer than its sequences. -/
theorem length_since_le {c : ℕ} (hc : ∀ p ∈ ps, p.length ≤ c) (hsrc : r.origin n = .app) :
    (r.since n).length ≤ c := by
  rw [appAccepted_eq] at h
  have hserved : ∀ s ∈ r.appServed n, IsUnit IsEnd s := fun s hs => isUnit_of_mem_appServed hs
  have hrest := (eq_take_of_prefix_flatten hserved hp h).2
  have hdrop : ∀ p ∈ ps.drop (r.appServed n).length, p ∈ ps := fun p => List.mem_of_mem_drop
  have hspec := gathered_spec (r := r) n
  generalize hA : r.gathered n = A at hspec
  generalize r.since n = P at hspec ⊢
  rw [hA] at hrest h
  rcases hspec with ⟨-, -⟩ | ⟨src, w, l, -, -, hbody⟩ | ⟨src, w, e, l, -, -, hbody, hend⟩
  · exact Nat.zero_le c
  · obtain rfl : src = .app := by
      rw [← hsrc]
      exact (origin_eq (w := w) (by rw [hA]; exact List.mem_cons_self)).symm
    rw [ofApp_app] at hrest
    have hopen : IsOpen IsEnd (w :: l) := hbody
    exact hopen.length_le
      (fun p hp' => hp p (hdrop p hp')) (fun p hp' => hc p (hdrop p hp')) hrest
  · obtain rfl : src = .app := by
      rw [← hsrc]
      exact (origin_eq (w := w) (by rw [hA]; exact List.mem_cons_self)).symm
    rw [ofApp_app] at hrest
    have hunit : IsUnit IsEnd (w :: l ++ [e]) := ⟨w, l, e, rfl, hbody, hend⟩
    have hone := (eq_take_of_prefix_flatten
      (fun s hs => List.mem_singleton.1 hs ▸ hunit) (fun p hp' => hp p (hdrop p hp'))
      (by simpa using hrest)).1
    have hmem : w :: l ++ [e] ∈ ps :=
      hdrop _ (List.mem_of_mem_take (hone ▸ List.mem_singleton_self _))
    exact hc _ hmem

end Stream

end PathRun

end SoftMC
