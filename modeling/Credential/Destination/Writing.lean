import Credential.Destination.Basic
import Credential.Disk.Script
import Credential.KeyFile
import Credential.KeyStore
/-!
Writing a key store to its destination. All files are complete under temporary names before the
first of them takes its place. They take their places one by one, the key store last, and when one
cannot, those before it are put back in reverse order.
-/

namespace Credential

open Disk

inductive WriteError where
  | store (cause : StoreError)
  | io (path : Path)
  | keyEncryption (cause : Error)
  | missingEntry
deriving DecidableEq, Repr

def WriteError.message : WriteError → String
  | store cause => cause.message
  | io path => s!"could not write `{path.text}`"
  | keyEncryption _ => "could not encrypt the private key"
  | missingEntry => "the keystore does not hold the certificate to write"

structure WriteDraws where
  container : Container.Draws
  companion : Seal

structure Material where
  store : KeyStore
  certificate : Certificate
  privateKey : Bytes

namespace FileTarget

structure Staged where
  temporary : Path
  target : Path
deriving DecidableEq, Repr

structure Installed where
  target : Path
  backup : Option Path
deriving DecidableEq, Repr

/-- Why a row of steps stopped, and the files that it leaves under their temporary names. -/
structure Halted where
  cause : WriteError
  left : List Staged
deriving DecidableEq, Repr

/-- Makes the first of these directories, each of which lies in the next one. -/
def makeDirectories : List Path → Script Bool
  | [] => return true
  | p :: ancestors => do
    match ← Script.ask (.makeDirectory p) with
    | .made => return true
    | .refused => return (← Script.ask (.inspect p)) = some .directory
    | .noParent =>
      if ← makeDirectories ancestors then
        match ← Script.ask (.makeDirectory p) with
        | .made => return true
        | _ => return (← Script.ask (.inspect p)) = some .directory
      else return false

def stage (directory : Path) (content : Bytes) : Script (Except WriteError Path) := do
  match ← Script.ask (.createTemporary directory) with
  | none => return .error (.io directory)
  | some temporary =>
    if ← Script.ask (.write temporary content) then return .ok temporary
    else
      let _ ← Script.ask (.discard temporary)
      return .error (.io temporary)

def discardAll : List Path → Script Unit
  | [] => return ()
  | p :: rest => do
    let _ ← Script.ask (.discard p)
    discardAll rest

def stageAll (directory : Path) :
    List (Path × Except WriteError Bytes) → Script (Except Halted (List Staged))
  | [] => return .ok []
  | (_, .error e) :: _ => return .error ⟨e, []⟩
  | (target, .ok content) :: rest => do
    match ← stage directory content with
    | .error e => return .error ⟨e, []⟩
    | .ok temporary =>
      match ← stageAll directory rest with
      | .error h => return .error ⟨h.cause, ⟨temporary, target⟩ :: h.left⟩
      | .ok others => return .ok (⟨temporary, target⟩ :: others)

/-- Puts back what an installed file replaced. A backup that cannot be put back is lost. -/
def Installed.rollBack (i : Installed) : Script Unit := do
  match i.backup with
  | some backup =>
    if ← Script.ask (.restore backup i.target) then return ()
    else
      let _ ← Script.ask (.discard backup)
      return ()
  | none =>
    let _ ← Script.ask (.discard i.target)
    return ()

def moveAside (directory target : Path) : Script (Except WriteError (Option Path)) := do
  match ← Script.ask (.inspect target) with
  | some .file =>
    match ← Script.ask (.createTemporary directory) with
    | none => return .error (.io directory)
    | some backup =>
      if ← Script.ask (.move target backup) then return .ok (some backup)
      else
        let _ ← Script.ask (.discard backup)
        return .error (.io target)
  | _ => return .ok none

/-- Moves a staged file to its place; when that fails nothing of it is left. -/
def install (directory : Path) (s : Staged) : Script (Except WriteError Installed) := do
  match ← moveAside directory s.target with
  | .error e =>
    let _ ← Script.ask (.discard s.temporary)
    return .error e
  | .ok backup =>
    if ← Script.ask (.move s.temporary s.target) then return .ok ⟨s.target, backup⟩
    else
      if backup.isSome then Installed.rollBack ⟨s.target, backup⟩
      let _ ← Script.ask (.discard s.temporary)
      return .error (.io s.target)

/-- Installs the files in order. When one cannot be, those before it are put back, the last one
first. -/
def installAll (directory : Path) : List Staged → Script (Except Halted (List Installed))
  | [] => return .ok []
  | s :: rest => do
    match ← install directory s with
    | .error e => return .error ⟨e, rest⟩
    | .ok first =>
      match ← installAll directory rest with
      | .error h =>
        first.rollBack
        return .error h
      | .ok others => return .ok (first :: others)

def entryOf? (s : KeyStore) (c : Certificate) : Option Container.KeyEntry :=
  s.entries.find? (·.chain.head? = some c)

def companions (t : FileTarget) (m : Material) (drawn : Seal) :
    Except WriteError (List (Path × Bytes)) :=
  match entryOf? m.store m.certificate with
  | none => .error .missingEntry
  | some entry =>
    match KeyFile.write m.privateKey entry.password drawn with
    | .error e => .error (.keyEncryption e)
    | .ok text => .ok [
        (t.certificatePath, m.certificate.der),
        (t.pemPath, Bytes.ofText m.certificate.pem),
        (t.keyPath, Bytes.ofText text)]

def contents (t : FileTarget) (m : Material) (d : WriteDraws) :
    Except WriteError (List (Path × Except WriteError Bytes)) := do
  let companions ← if t.hasCompanions then t.companions m d.companion else pure []
  return companions.map (fun (path, content) => (path, .ok content)) ++
    [(t.path, (m.store.toBytes d.container).mapError .store)]

def Halted.clear (h : Halted) : Script (Except WriteError Unit) := do
  discardAll (h.left.map (·.temporary))
  return .error h.cause

def writeContents (directory : Path) (contents : List (Path × Except WriteError Bytes)) :
    Script (Except WriteError Unit) := do
  match ← stageAll directory contents with
  | .error h => h.clear
  | .ok staged =>
    match ← installAll directory staged with
    | .error h => h.clear
    | .ok installed =>
      discardAll (installed.filterMap (·.backup))
      return .ok ()

def write (t : FileTarget) (m : Material) (d : WriteDraws) : Script (Except WriteError Unit) := do
  let directory := t.path.directory
  if ← makeDirectories directory.ancestors then
    match t.contents m d with
    | .error e => return .error e
    | .ok contents => writeContents directory contents
  else return .error (.io directory)

end FileTarget

namespace Destination

def isTaken : Destination → Script Bool
  | file target => return (← Script.ask (.inspect target.path)).isSome
  | memory => Script.ask .consult

def write (d : Destination) (m : Material) (draws : WriteDraws) : Script (Except WriteError Unit) :=
  match d with
  | file target => target.write m draws
  | memory =>
    match m.store.toBytes draws.container with
    | .error e => return .error (.store e)
    | .ok content => do
      Script.ask (.remember content)
      return .ok ()

end Destination

end Credential
