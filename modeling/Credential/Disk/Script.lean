import Credential.Disk.Tree
/-!
Sequences of single operations on a disk, each deciding by the replies to those before it. They are
run here on a tree, with any operation made to fail.
-/

namespace Credential.Disk

inductive Made where
  | made
  | noParent
  | refused
deriving DecidableEq, Repr

inductive Kind where
  | directory
  | file
deriving DecidableEq, Repr

def Node.kind : Node → Kind
  | directory => .directory
  | file _ => .file

/-- One operation. `restore` and `discard` undo others. -/
inductive Operation where
  | makeDirectory (path : Path)
  | inspect (path : Path)
  | createTemporary (directory : Path)
  | write (path : Path) (content : Bytes)
  | move (source target : Path)
  | restore (source target : Path)
  | discard (path : Path)
  | consult
  | remember (content : Bytes)
deriving DecidableEq, Repr

namespace Operation

abbrev Reply : Operation → Type
  | makeDirectory _ => Made
  | inspect _ => Option Kind
  | createTemporary _ => Option Path
  | write .. => Bool
  | move .. => Bool
  | restore .. => Bool
  | discard _ => Bool
  | consult => Bool
  | remember _ => Unit

def isUndoing : Operation → Bool
  | restore .. => true
  | discard _ => true
  | _ => false

end Operation

structure Storage where
  tree : Tree
  memory : Option Bytes
deriving DecidableEq, Repr

/-- How a disk behaves beyond what the operations say. Each operation goes by its place in time. -/
structure Conduct where
  fails : Nat → Operation → Bool
  names : Nat → String
  written : Nat → Nat

namespace Storage

def withTree (s : Storage) : Option Tree → Bool × Storage
  | some t => (true, { s with tree := t })
  | none => (false, s)

def makeDirectory (s : Storage) (p : Path) : Made × Storage :=
  match s.tree.walkToDirectory p with
  | .missing => (.noParent, s)
  | .entry place =>
    match s.tree.get? place with
    | none => (.made, { s with tree := s.tree.put place .directory })
    | some _ => (.refused, s)
  | _ => (.refused, s)

def createFile (s : Storage) (p : Path) : Option Path × Storage :=
  match s.tree.create? p with
  | some t => (some p, { s with tree := t })
  | none => (none, s)

def perform (s : Storage) (name : String) : (op : Operation) → op.Reply × Storage
  | .makeDirectory p => s.makeDirectory p
  | .inspect p => ((s.tree.inspect? p).map Node.kind, s)
  | .createTemporary d => s.createFile (d.join name)
  | .write p content => s.withTree (s.tree.write? p content)
  | .move source target => s.withTree (s.tree.move? source target)
  | .restore source target => s.withTree (s.tree.move? source target)
  | .discard p => s.withTree (s.tree.remove? p)
  | .consult => (s.memory.isSome, s)
  | .remember content => ((), { s with memory := some content })

/-- The reply to an operation that fails. Looking something up and the memory do not fail. -/
def fail (s : Storage) (written : Nat) : (op : Operation) → op.Reply × Storage
  | .makeDirectory _ => (.refused, s)
  | .inspect p => ((s.tree.inspect? p).map Node.kind, s)
  | .createTemporary _ => (none, s)
  | .write p content => (false, (s.withTree (s.tree.write? p (content.take written))).2)
  | .move .. => (false, s)
  | .restore .. => (false, s)
  | .discard _ => (false, s)
  | .consult => (s.memory.isSome, s)
  | .remember content => ((), { s with memory := some content })

end Storage

inductive Script (α : Type) where
  | done (result : α)
  | step (op : Operation) (next : op.Reply → Script α)

namespace Script

variable {α β : Type}

def bind : Script α → (α → Script β) → Script β
  | done a, f => f a
  | step op next, f => step op fun reply => (next reply).bind f

instance : Monad Script where
  pure := done
  bind := bind

def ask (op : Operation) : Script op.Reply := step op done

/-- A disk in the course of a run: its state, how many operations there have been, and the states
after each of them, the latest first. -/
structure World where
  storage : Storage
  count : Nat
  history : List Storage
deriving DecidableEq, Repr

def World.start (s : Storage) : World := ⟨s, 0, []⟩

def answer (c : Conduct) (w : World) (op : Operation) : op.Reply × World :=
  let (reply, storage) :=
    if c.fails w.count op then w.storage.fail (c.written w.count) op
    else w.storage.perform (c.names w.count) op
  (reply, ⟨storage, w.count + 1, storage :: w.history⟩)

def run (c : Conduct) : Script α → World → α × World
  | done a, w => (a, w)
  | step op next, w =>
    let (reply, w) := answer c w op
    (next reply).run c w

@[simp] theorem run_pure (c : Conduct) (a : α) (w : World) :
    (pure a : Script α).run c w = (a, w) := rfl

@[simp] theorem run_bind (c : Conduct) (x : Script α) (f : α → Script β) (w : World) :
    (x >>= f).run c w = (f (x.run c w).1).run c (x.run c w).2 := by
  show (x.bind f).run c w = _
  induction x generalizing w with
  | done a => rfl
  | step op next ih => exact ih ..

@[simp] theorem run_ask (c : Conduct) (op : Operation) (w : World) :
    (ask op).run c w = answer c w op := rfl

end Script

end Credential.Disk
