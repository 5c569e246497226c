import OmniRush.Box.Gate

/-!
# What a snapshot is told of the box

The gate is closed while a snapshot is under way, so no command enters, and once none runs none
will. That needs a gate that only its last snapshot opens.
-/

namespace OmniRush.Box

/-- The gate is open exactly when no snapshot is under way, and what `begin` answers stays true. -/
structure GateSound (w : Connections) : Prop where
  running : w.gate.running = w.inside.length
  closed : w.snapshots ≠ [] → w.gate.snap = true
  opened : w.snapshots = [] → w.gate.snap = false
  quiet : ∀ s ∈ w.snapshots, s.quiet = some true → w.inside = []

/-- No command waits until its time is up, and a snapshot ends when it is the only one. -/
def OneByOne (w : Connections) : GateAct → Prop
  | .enter _ late => late = false
  | .finish snapshot => ∀ s ∈ w.snapshots, s.id = snapshot
  | _ => True

theorem gateSound_new : GateSound {} :=
  ⟨rfl, fun h => absurd rfl h, fun _ => rfl, nofun⟩

variable {w w' : Connections}

theorem GateSound.enter (h : GateSound w) (command : Nat) : GateSound (w.enter command false) := by
  simp only [Connections.enter, SnapshotGate.tryEnter]
  cases hsnap : w.gate.snap with
  | true => exact h
  | false =>
      have hnone : w.snapshots = [] := by
        by_contra hne
        rw [h.closed hne] at hsnap
        cases hsnap
      exact {
        running := by
          show w.gate.running + 1 = ((w.inside ++ [command]).length : Int)
          rw [List.length_append, List.length_singleton, h.running]
          rfl
        closed := fun hne => absurd hnone hne
        opened := fun _ => rfl
        quiet := by
          intro s hs
          rw [show w.snapshots = [] from hnone] at hs
          cases hs }

theorem GateSound.leave (h : GateSound w) {command : Nat} (hin : command ∈ w.inside) :
    GateSound { w with gate := w.gate.leave, inside := w.inside.erase command } :=
  { h with
    running := by
      have hlength := List.length_erase_add_one hin
      have hrunning := h.running
      show w.gate.running - 1 = ((w.inside.erase command).length : Int)
      omega
    quiet := by
      intro s hs hquiet
      rw [h.quiet s hs hquiet]
      rfl }

theorem GateSound.look (h : GateSound w) (snapshot : Nat) (late : Bool) :
    GateSound (w.look snapshot late) := by
  simp only [Connections.look]
  cases hlook : w.gate.tryBegin late with
  | none => exact h
  | some quiet =>
      exact { h with
        closed := fun hne => h.closed fun hnil => hne (by rw [hnil]; rfl)
        opened := fun hnil => h.opened (List.map_eq_nil_iff.mp hnil)
        quiet := by
          intro s hs hquiet
          obtain ⟨old, hold, rfl⟩ := List.mem_map.mp hs
          split at hquiet
          · obtain rfl : quiet = true := Option.some.inj hquiet
            simp only [SnapshotGate.tryBegin] at hlook
            split at hlook
            · next hzero =>
                rw [h.running] at hzero
                exact List.length_eq_zero_iff.mp (Int.natCast_eq_zero.mp hzero)
            · split at hlook <;> cases hlook
          · exact h.quiet old hold hquiet }

theorem GateSound.step {act : GateAct} (h : GateSound w) (hguard : OneByOne w act)
    (hstep : w.step act = some w') : GateSound w' := by
  cases act with
  | command =>
      cases hstep
      exact { h with }
  | enter command late =>
      simp only [Connections.step] at hstep
      split at hstep
      · cases hstep
        obtain rfl : late = false := hguard
        exact h.enter command
      · cases hstep
  | leave command =>
      simp only [Connections.step] at hstep
      split at hstep
      · next hin =>
          cases hstep
          exact h.leave hin
      · cases hstep
  | begin =>
      cases hstep
      exact { h with
        closed := fun _ => rfl
        opened := fun hnil => absurd hnil (by simp)
        quiet := by
          intro s hs hquiet
          rcases List.mem_append.mp hs with hold | hnew
          · exact h.quiet s hold hquiet
          · rw [List.mem_singleton.mp hnew] at hquiet
            cases hquiet }
  | look snapshot late =>
      simp only [Connections.step] at hstep
      split at hstep
      · cases hstep
        exact h.look snapshot late
      · cases hstep
  | finish snapshot =>
      simp only [Connections.step] at hstep
      split at hstep
      · cases hstep
        have hnone : w.snapshots.filter (fun s => s.id ≠ snapshot) = [] := by
          rw [List.filter_eq_nil_iff]
          intro s hs
          simp [hguard s hs]
        exact { h with
          closed := fun hne => absurd hnone hne
          opened := fun _ => rfl
          quiet := by
            intro s hs
            rw [show _ = [] from hnone] at hs
            cases hs }
      · cases hstep

/-- In every run in which no snapshot ends beside another, no command runs from the moment a
snapshot is told that the box is quiet until it ends, and once all have ended every command that
waits is let in. -/
theorem gate_sound (hrun : Reach Connections.step OneByOne {} w) :
    (∀ s ∈ w.snapshots, s.quiet = some true → w.inside = [] ∧
        ∀ command, w.enter command false = w) ∧
      (w.snapshots = [] → ∀ command ∈ w.waiting, ∃ w',
        w.step (.enter command false) = some w' ∧ command ∈ w'.inside) ∧
      0 ≤ w.gate.running := by
  have h : GateSound w := hrun.invariant (fun _ _ _ h hguard hstep => h.step hguard hstep)
    gateSound_new
  refine ⟨fun s hs hquiet => ⟨h.quiet s hs hquiet, fun command => ?_⟩, fun hnone command hin => ?_, ?_⟩
  · have hclosed := h.closed (List.ne_nil_of_mem hs)
    simp only [Connections.enter, SnapshotGate.tryEnter, hclosed]
    rfl
  · refine ⟨w.enter command false, if_pos hin, ?_⟩
    simp only [Connections.enter, SnapshotGate.tryEnter, h.opened hnone]
    exact List.mem_append_right _ (List.mem_singleton.mpr rfl)
  · rw [h.running]
    exact Int.natCast_nonneg _

instance (w : Connections) (act : GateAct) : Decidable (OneByOne w act) := by
  cases act with
  | enter command late => exact inferInstanceAs (Decidable (late = false))
  | finish snapshot =>
      exact inferInstanceAs (Decidable (∀ s ∈ w.snapshots, s.id = snapshot))
  | _ => exact inferInstanceAs (Decidable True)

/-- A command is inside when a snapshot begins; once it has left the box is quiet, and another
command waits. -/
theorem gate_sound_waits : ∃ w : Connections,
    (w.snapshots = [⟨1, some true⟩] ∧ w.waiting = [2]) ∧
      (∀ s ∈ w.snapshots, s.quiet = some true → w.inside = [] ∧
        ∀ command, w.enter command false = w) ∧
      (w.snapshots = [] → ∀ command ∈ w.waiting, ∃ w',
        w.step (.enter command false) = some w' ∧ command ∈ w'.inside) ∧
      0 ≤ w.gate.running := by
  have hrun : (runActions
      (fun w act => if OneByOne w act then Connections.step w act else none)
      [.command, .enter 0 false, .begin, .look 1 false, .command, .enter 2 false, .leave 0,
        .look 1 false] {}).any
        (fun w => w.snapshots = [⟨1, some true⟩] && w.waiting = [2]) = true := by decide +kernel
  obtain ⟨w, hw, hstate⟩ := exists_of_any hrun
  simp only [Bool.and_eq_true, decide_eq_true_eq] at hstate
  exact ⟨w, hstate, gate_sound (reach_of_checked hw).1⟩

/-- Two snapshots overlap, and the first to end lets a command in beside the other. -/
theorem gate_opened_beside :
    ∃ w, runActions Connections.step
        [.begin, .look 0 false, .begin, .look 1 false, .finish 0, .command, .enter 2 false] {} =
          some w ∧
      w.snapshots = [⟨1, some true⟩] ∧ w.inside = [2] := by
  have hrun : (runActions Connections.step
      [.begin, .look 0 false, .begin, .look 1 false, .finish 0, .command, .enter 2 false] {}).any
        (fun w => w.snapshots = [⟨1, some true⟩] && w.inside = [2]) = true := by decide +kernel
  obtain ⟨w, hw, hstate⟩ := exists_of_any hrun
  simp only [Bool.and_eq_true, decide_eq_true_eq] at hstate
  exact ⟨w, hw, hstate⟩

end OmniRush.Box
