import SoftMC.Dram.Sequences
/-!
# Maintenance and the application share one memory

A run of the controller serves the sequences of the application and the
programs of maintenance one after the other, in whatever order the
receiver takes them. The memory accepts all of it, the application reads
and leaves what it would alone, and every minimum distance is kept, across
sequences as well: as long as each of the application's sequences relies
on no row being open and settles what it owes.
-/

namespace SoftMC

open Banked Clocked TwoSlot

namespace ControllerRun

variable {r : ControllerRun}

/-! ## What the memory is given -/

variable (r)

/-- The commands of the sequences served before cycle `n`, with their
sources, and the application's alone. -/
def deviceStream (n : ℕ) : List (Source × DeviceCmd) :=
  (r.path.served n).flatMap fun s => labelled s.1 s.2

def appStream (n : ℕ) : List (Source × DeviceCmd) :=
  ((r.path.served n).filter (·.1 = .app)).flatMap fun s => labelled s.1 s.2

/-- The commands issued before cycle `n`, whatever their sources. -/
def deviceIssued (n : ℕ) : List (Unit × DeviceCmd) := labelled () ((r.path.issued n).map Prod.snd)

/-- **The memory of one user**: maintenance does not show. -/
structure Transparent (m : Device) : Prop where
  /-- No command is issued to a bank that is not ready for it. -/
  accepts : ∀ n, exec m (r.deviceIssued n) ≠ none
  /-- While the dispatcher is not busy the application has read, and left in
  the cells, what its own sequences do alone. -/
  alone : ∀ n, (r.state n).core.exec.iseq.dispatcherBusyR = false →
    ∃ m₁ m₂ out, exec m (r.deviceIssued n) = some (m₁, out.map (Prod.map (fun _ => ()) id)) ∧
      exec m (r.deviceStream n) = some (m₁, out) ∧
      exec m (r.appStream n) = some (m₂, out.filter (·.1 = .app)) ∧ m₁.cell = m₂.cell

/-- Each of the application's sequences relies on no row being open. -/
def AppSelfContained : Prop :=
  ∀ n, ∀ s ∈ r.path.served n, s.1 = .app → SelfContained (labelled s.1 s.2)

/-- Each of them keeps its distances and settles them. -/
def AppPaced (p : Ddr3) : Prop :=
  ∀ n, ∀ s ∈ r.path.served n, s.1 = .app →
    Paced waitOf p.instrGap s.2 ∧ Settled waitOf p.instrGap (fun _ => True) s.2

variable {r}

/-- The commands of the sequences, label by label. -/
theorem deviceStream_eq (S : List (Source × List Instr)) :
    (S.flatMap fun s => labelled s.1 s.2) = flat (S.map fun s => (s.1, s.2.flatMap deviceCmds)) := by
  rw [flat, List.flatMap_map]
  rfl

theorem unlabelled_stream (S : List (Source × List Instr)) :
    (S.flatMap fun s => labelled s.1 s.2).map (Prod.map (fun _ => ()) id) =
      labelled () (S.flatMap Prod.snd) := by
  rw [labelled, List.flatMap_assoc, List.map_flatMap, List.map_flatMap]
  refine List.flatMap_congr fun s _ => ?_
  rw [labelled, List.map_map]
  rfl

section Shared

variable (hself : r.AppSelfContained)

include hself

theorem selfContained_served {n : ℕ} {s : Source × List Instr} (h : s ∈ r.path.served n) :
    SelfContained (labelled s.1 s.2) := by
  rcases served_cases h with happ | ⟨hm, dir, prog, m, hprog, -⟩
  · exact hself n s h happ
  · rw [hprog, MaintProg.labelled_instrs]
    exact MaintProg.selfContained _ prog

/-- **Programs among sequences**, on the device. -/
theorem exec_deviceStream (n : ℕ) (m : Device) :
    ∃ m₁ m₂ out, exec m (r.deviceStream n) = some (m₁, out) ∧
      exec m (r.appStream n) = some (m₂, out.filter (·.1 = .app)) ∧ m₁.cell = m₂.cell := by
  have hmem : ∀ t ∈ (r.path.served n).map (fun s => (s.1, s.2.flatMap deviceCmds)),
      ∃ s ∈ r.path.served n, t = (s.1, s.2.flatMap deviceCmds) := by
    intro t ht
    obtain ⟨s, hs, rfl⟩ := List.mem_map.1 ht
    exact ⟨s, hs, rfl⟩
  obtain ⟨m₁, m₂, out, out', h₁, h₂, hout, hcell⟩ := exec_interleaved (ℓ := Source.app)
    (S := (r.path.served n).map fun s => (s.1, s.2.flatMap deviceCmds)) (fun t ht => by
      obtain ⟨s, hs, rfl⟩ := hmem t ht
      exact selfContained_served hself hs)
    (fun t ht hne => by
      obtain ⟨s, hs, rfl⟩ := hmem t ht
      rcases served_cases hs with happ | ⟨hm, dir, prog, k, hprog, -⟩
      · exact absurd happ hne
      · change WriteFree (labelled s.1 s.2)
        rw [hprog, MaintProg.labelled_instrs]
        exact MaintProg.writeFree _ prog) (Eq.refl m.cell)
  refine ⟨m₁, m₂, out, ?_, ?_, hcell⟩
  · rw [deviceStream, deviceStream_eq, h₁]
  · rw [appStream, deviceStream_eq, hout, ← h₂]
    congr 2
    rw [List.filter_map]
    rfl

end Shared

section Paced

variable {p : Ddr3} (hp : p.SuitsMaint)
  (hrfc : ∀ n, r.AutorefHanded (n + 1) → p.tRFC ≤ r.trfc n % 1024 + 1) (happ : r.AppPaced p)

include hp hrfc happ

/-- The sequences served keep their distances, whatever the order they are
served in. -/
theorem paced_served (n : ℕ) : Paced waitOf p.instrGap ((r.path.served n).flatMap Prod.snd) := by
  have hseq : ∀ s ∈ r.path.served n, Paced waitOf p.instrGap s.2 ∧
      Settled waitOf p.instrGap (fun _ => True) s.2 := by
    intro s hs
    rcases served_cases hs with h | ⟨-, dir, prog, m, hprog, hauto⟩
    · exact happ n s hs h
    · rw [hprog, paced_decode, MaintProg.decode_instrs]
      refine ⟨MaintProg.paced_actions hp dir prog, settled_decode ?_⟩
      rw [MaintProg.decode_instrs]
      exact MaintProg.settled_actions hp dir prog fun h => hrfc (m + 3) (hauto h)
  rw [List.flatMap_def]
  refine paced_flatten (U := fun _ => True) ?_ ?_ fun _ _ _ _ => trivial
  · intro l hl
    obtain ⟨s, hs, rfl⟩ := List.mem_map.1 hl
    exact (hseq s hs).1
  · intro l hl
    obtain ⟨s, hs, rfl⟩ := List.mem_map.1 hl
    exact (hseq s hs).2

end Paced

section Ordered

variable (hfit : ∀ n, r.path.Fits n) (hready : ∀ n, (r.wave n).dfiReady = true)
  (hwaits : ∀ n, ∀ w ∈ r.stored n, waitOf w ≠ some 0)
  (hover : ∀ n, (r.state n).core.recv.processIseqR = true → (r.state n).core.HandsOver)

include hfit hready hwaits hover

theorem served_eq_issued (n : ℕ) :
    ∃ R, (r.path.served n).flatMap Prod.snd = (r.path.issued n).map Prod.snd ++ R ∧
      ((r.state n).core.exec.iseq.dispatcherBusyR = false → R = []) ∧
      Spaced waitOf 0 (r.path.issued n) := by
  have h := PathRun.served_eq_issued (r := r.path) hfit hready
    (fun n w hw => hwaits n w (by rwa [r.path_state n] at hw))
    (fun n hp => by rw [r.path_state n] at hp ⊢; exact hover n hp) n
  rwa [r.path_state n] at h

/-- What has been issued is accepted by the memory; while the dispatcher is
not busy it is the sequences served. -/
theorem exec_deviceIssued (hself : r.AppSelfContained) (n : ℕ) (m : Device) :
    exec m (r.deviceIssued n) ≠ none ∧
      ((r.state n).core.exec.iseq.dispatcherBusyR = false →
        ∃ m₁ m₂ out, exec m (r.deviceIssued n) = some (m₁, out.map (Prod.map (fun _ => ()) id)) ∧
          exec m (r.deviceStream n) = some (m₁, out) ∧
          exec m (r.appStream n) = some (m₂, out.filter (·.1 = .app)) ∧ m₁.cell = m₂.cell) := by
  obtain ⟨m₁, m₂, out, h₁, h₂, hcell⟩ := exec_deviceStream hself n m
  obtain ⟨R, hR, hnil, -⟩ := served_eq_issued hfit hready hwaits hover n
  have hissued : (r.deviceStream n).map (Prod.map (fun _ => ()) id) =
      r.deviceIssued n ++ labelled () R := by
    rw [deviceStream, unlabelled_stream, hR, deviceIssued, labelled, labelled, labelled,
      List.flatMap_append, List.map_append]
  constructor
  · refine exec_ne_none_of_prefix ⟨labelled () R, hissued.symm⟩ ?_
    rw [exec_relabel, h₁]
    exact Option.some_ne_none _
  · intro hbusy
    refine ⟨m₁, m₂, out, ?_, h₁, h₂, hcell⟩
    have hall : r.deviceIssued n = (r.deviceStream n).map (Prod.map (fun _ => ()) id) := by
      rw [hissued, hnil hbusy]
      exact (List.append_nil _).symm
    rw [hall, exec_relabel, h₁]
    rfl

end Ordered

section Even

variable (hfit : ∀ n, r.path.Fits n) (hready : ∀ n, (r.wave n).dfiReady = true)
  (hwaits : ∀ n, ∀ w ∈ r.stored n, waitOf w ≠ some 0)
  (heven : ∀ n, r.AutorefHanded (n + 1) → r.trfc n % 2 = 0)

include hfit hready hwaits heven

/-- **Every minimum distance of the part is kept**, between any two
commands of a run and across its sequences. -/
theorem keeps_distances {p : Ddr3} (hp : p.SuitsMaint)
    (hrfc : ∀ n, r.AutorefHanded (n + 1) → p.tRFC ≤ r.trfc n % 1024 + 1) (happ : r.AppPaced p)
    (n : ℕ) : Respects p.instrGap (r.path.issued n) := by
  obtain ⟨R, hR, -, hspaced⟩ := served_eq_issued hfit hready hwaits
    (fun n => handsOver_of_even hfit hready hwaits heven) n
  have hpaced := paced_served hp hrfc happ n
  rw [hR] at hpaced
  exact hpaced.left.respects hspaced

end Even

namespace ReadThenRefresh

theorem deviceCmds_configuredRead :
    configuredRead.flatMap deviceCmds = MaintProg.prRd.commands := by decide +kernel

theorem appSelfContained : readThenRefresh.AppSelfContained := by
  intro n s hs happ
  rw [app_of_served hs happ, happ, labelled, deviceCmds_configuredRead]
  exact MaintProg.selfContained _ _

/-- A part of the DDR3-800 grade. -/
def grade800 : Ddr3 where
  tRP := 6
  tRCD := 6
  tRAS := 15
  tRRD := 4
  tCCD := 4
  tRTP := 4
  tWR := 6
  tWTR := 4
  tRFC := 44
  tZQCS := 64
  CL := 6
  CWL := 5

theorem suitsMaint_grade800 : grade800.SuitsMaint := by constructor <;> decide

theorem appPaced : readThenRefresh.AppPaced grade800 := by
  intro n s hs happ
  rw [app_of_served hs happ]
  have hdecode : configuredRead.map decode =
      some (.setTrfc 44) :: MaintProg.prRd.actions BUS_DIR_READ 0 ++ [some .endIseq] := by
    decide +kernel
  have hpaced : Paced actionWait grade800.gap (MaintProg.prRd.actions BUS_DIR_READ 0) :=
    MaintProg.paced_actions suitsMaint_grade800 _ _
  have hsettled : Settled actionWait grade800.gap (fun _ => True)
      (MaintProg.prRd.actions BUS_DIR_READ 0) :=
    MaintProg.settled_actions suitsMaint_grade800 _ _ fun h => by cases h
  have hend : Paced actionWait grade800.gap [some .endIseq] ∧
      Settled actionWait grade800.gap (fun _ => True) [some .endIseq] := by
    simp
  have hset : ∀ b, grade800.gap (some (.setTrfc 44)) b = 0 := fun b => gap_of_no_cmd (Or.inl rfl)
  constructor
  · rw [paced_decode, hdecode]
    refine ⟨behind_of_zero fun b _ => hset b, ?_⟩
    exact hpaced.append hsettled hend.1 fun _ _ => trivial
  · refine settled_decode ?_
    rw [hdecode]
    exact ⟨fun b _ => by rw [hset b]; exact Nat.zero_le _, hsettled.append hend.2⟩

theorem refresh_time (n : ℕ) (h : readThenRefresh.AutorefHanded (n + 1)) :
    grade800.tRFC ≤ readThenRefresh.trfc n % 1024 + 1 := by
  rw [trfc_of_handed h]
  decide

end ReadThenRefresh

/-- The memory as it powers up: nothing is known of its banks. -/
def powerUp : Device where
  bank _ := .unknown
  cell _ _ _ := 0

theorem readThenRefresh_keeps_distances :
    Respects ReadThenRefresh.grade800.instrGap (readThenRefresh.path.issued 67) :=
  keeps_distances (PathRun.fits_of_unbounded rfl) (fun _ => rfl) ReadThenRefresh.waits
    ReadThenRefresh.even_trfc ReadThenRefresh.suitsMaint_grade800 ReadThenRefresh.refresh_time
    ReadThenRefresh.appPaced 67

end ControllerRun

end SoftMC
