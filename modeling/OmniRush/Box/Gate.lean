import OmniRush.Lib.Machine
import Mathlib.Data.List.Basic

/-!
# The gate between commands and snapshots

`main.go` of the daemon in the box. A command waits at the gate while a snapshot reads the files,
and a snapshot waits until no command runs; both look again every few milliseconds, each time
under the lock, and go on when their time is up. Every connection has its own command or snapshot,
so any number of either is under way, and a step is one of them under the lock.
-/

namespace OmniRush.Box

structure SnapshotGate where
  running : Int := 0
  snap : Bool := false
  deriving DecidableEq, Repr

namespace SnapshotGate

variable (g : SnapshotGate)

/-- One look of `enter`: the gate with the command counted in, if it may. -/
def tryEnter (late : Bool) : Option SnapshotGate :=
  if !g.snap || late then some { g with running := g.running + 1 } else none

def leave : SnapshotGate := { g with running := g.running - 1 }

/-- `begin` up to its first look. -/
def close : SnapshotGate := { g with snap := true }

/-- One look of `begin`: its answer, if it has one. -/
def tryBegin (late : Bool) : Option Bool :=
  if g.running = 0 then some true else if late then some false else none

/-- `end`. -/
def reopen : SnapshotGate := { g with snap := false }

end SnapshotGate

/-! ## Connections -/

structure Snapshot where
  id : Nat
  /-- What `begin` answered; none while it waits. -/
  quiet : Option Bool
  deriving DecidableEq, Repr

structure Connections where
  gate : SnapshotGate := {}
  /-- The commands in `enter`. -/
  waiting : List Nat := []
  inside : List Nat := []
  /-- The snapshots from `begin` to `end`. -/
  snapshots : List Snapshot := []
  next : Nat := 0
  deriving DecidableEq, Repr

inductive GateAct where
  | command
  | enter (command : Nat) (late : Bool)
  | leave (command : Nat)
  | begin
  | look (snapshot : Nat) (late : Bool)
  | finish (snapshot : Nat)
  deriving DecidableEq, Repr

namespace Connections

variable (w : Connections)

def enter (command : Nat) (late : Bool) : Connections :=
  match w.gate.tryEnter late with
  | some gate =>
      { w with gate, waiting := w.waiting.erase command, inside := w.inside ++ [command] }
  | none => w

/-- `begin` looks whether a command runs. -/
def look (snapshot : Nat) (late : Bool) : Connections :=
  match w.gate.tryBegin late with
  | some quiet =>
      { w with snapshots := w.snapshots.map fun s =>
          if s.id = snapshot then { s with quiet := some quiet } else s }
  | none => w

def step : GateAct → Option Connections
  | .command => some { w with waiting := w.waiting ++ [w.next], next := w.next + 1 }
  | .enter command late => if command ∈ w.waiting then some (w.enter command late) else none
  | .leave command =>
      if command ∈ w.inside then
        some { w with gate := w.gate.leave, inside := w.inside.erase command }
      else none
  | .begin =>
      some { w with
        gate := w.gate.close, snapshots := w.snapshots ++ [⟨w.next, none⟩], next := w.next + 1 }
  | .look snapshot late =>
      if ⟨snapshot, none⟩ ∈ w.snapshots then some (w.look snapshot late) else none
  | .finish snapshot =>
      if ∃ s ∈ w.snapshots, s.id = snapshot ∧ s.quiet.isSome then
        some { w with
          gate := w.gate.reopen
          snapshots := w.snapshots.filter fun s => s.id ≠ snapshot }
      else none

end Connections

end OmniRush.Box
