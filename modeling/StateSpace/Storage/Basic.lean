import StateSpace.Storage.Path

/-!
# Storages

A storage makes folders, one at a time, and tells where folders are. That is enough to make a folder
together with those on the way to it.
-/

namespace StateSpace

structure Storage (m : Type → Type) where
  /-- Makes one folder, where nothing is yet, in a folder that is there. -/
  create : Path → m (Option Obstacle)
  isFolder : Path → m Bool

namespace Storage

variable {m : Type → Type} [Monad m]

/-- Makes one folder, unless it is there. -/
def ensure (s : Storage m) (p : Path) : m (Option Obstacle) := do
  match ← s.create p with
  | none => return none
  | some obstacle => if ← s.isFolder p then return none else return some obstacle

/-- Makes a folder and, as far as they are missing, its given ancestors, the nearest one first. -/
def ensureWith (s : Storage m) : List Path → Path → m (Option Obstacle)
  | [], p => s.ensure p
  | parent :: rest, p => do
    match ← s.ensure p with
    | some .missing =>
      match ← s.ensureWith rest parent with
      | none => s.ensure p
      | some obstacle => return some obstacle
    | outcome => return outcome

/-- Makes a folder and the folders on the way to it, as far as they are missing. Those made before
an obstacle stay. -/
def ensureAll (s : Storage m) (p : Path) : m (Option Obstacle) :=
  s.ensureWith p.ancestors p

end Storage

end StateSpace
