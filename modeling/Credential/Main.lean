import Credential.Generator
import Credential.Settings.Basic
import Std.Time.DateTime.Timestamp

namespace Credential.Main

open Disk

def defaultFile : String := "Keystore.toml"

def kindOf (path : String) : IO (Option Kind) := do
  let opened ← (IO.FS.Handle.mk path .read).toBaseIO
  match opened with
  | .error _ => return none
  | .ok handle =>
    match ← (handle.read 1).toBaseIO with
    | .ok _ => return some .file
    | .error _ => return some .directory

def succeeds (action : IO Unit) : IO Bool := do
  match ← action.toBaseIO with
  | .ok _ => return true
  | .error _ => return false

def makeDirectory (path : String) : IO Made := do
  match ← (IO.FS.createDir path).toBaseIO with
  | .ok _ => return .made
  | .error (.noFileOrDirectory ..) => return .noParent
  | .error _ => return .refused

def temporaryName : IO String := do
  let e : Entropy := ⟨(← IO.getRandomBytes 16).data.toList⟩
  return s!".tmp{e.natural 64}"

def ownerOnly : IO.FileRight where
  user := { read := true, write := true }

def createTemporary (directory : Path) : IO (Option Path) := do
  let path := directory.join (← temporaryName)
  match ← (IO.FS.Handle.mk path.text .writeNew).toBaseIO with
  | .ok _ =>
    let _ ← (IO.setAccessRights path.text ownerOnly).toBaseIO
    return some path
  | .error _ => return none

def perform (memory : IO.Ref (Option Bytes)) : (op : Operation) → IO op.Reply
  | .makeDirectory p => makeDirectory p.text
  | .inspect p => kindOf p.text
  | .createTemporary d => createTemporary d
  | .write p content => succeeds (IO.FS.writeBinFile p.text ⟨content.toArray⟩)
  | .move source target => succeeds (IO.FS.rename source.text target.text)
  | .restore source target => succeeds (IO.FS.rename source.text target.text)
  | .discard p => succeeds (IO.FS.removeFile p.text)
  | .consult => return (← memory.get).isSome
  | .remember content => memory.set (some content)

def carryOut {α : Type} (memory : IO.Ref (Option Bytes)) : Script α → IO α
  | .done a => return a
  | .step op next => do
    let reply ← perform memory op
    carryOut memory (next reply)

def readText? (path : String) : IO (Option String) := do
  match ← (IO.FS.readFile path).toBaseIO with
  | .ok s => return some s
  | .error _ => return none

def variableOf (line : String) : String × String :=
  let cs := line.toList
  (String.ofList (cs.takeWhile (· ≠ '=')), String.ofList ((cs.dropWhile (· ≠ '=')).drop 1))

def environment : IO (List (String × String)) := do
  let listing := (← readText? "/proc/self/environ").getD ""
  return (listing.splitOn "\x00").map variableOf

def clock : IO Instant := do
  let now ← Std.Time.Timestamp.now
  return ⟨now.toSecondsSinceUnixEpoch.val, 0, 0⟩

def circumstances : IO Circumstances := do
  let seed : Entropy := ⟨(← IO.getRandomBytes 64).data.toList⟩
  let host ← readText? "/proc/sys/kernel/hostname"
  return .draw seed (← clock) (Circumstances.hostOrDefault (host.map Text.trim))

def describe (e : Settings.DecodingError) : String :=
  let fault := match e.fault with
    | .malformed => "malformed document"
    | .period cause => cause.message
    | .wrongType => "invalid type"
    | .wrongValue => "invalid value"
    | .wrongLength => "invalid length"
    | .unknownVariant name => s!"unknown variant `{name}`"
    | .missingField name => s!"missing field `{name}`"
  if e.path.isEmpty then fault else fault ++ " for key `" ++ ".".intercalate e.path ++ "`"

def generate (settings : Settings) : IO (Except (Failure GenerationError) Outcome) := do
  let memory ← IO.mkRef none
  let script :=
    Generator.generateIfNeeded settings.generation settings.destination (← circumstances)
  return (← carryOut memory script).2

def complain (message : String) : IO UInt32 := do
  IO.eprintln s!"Error: {message}"
  return 1

end Credential.Main

open Credential Credential.Main

def main (arguments : List String) : IO UInt32 := do
  let file ← readText? (arguments.headD defaultFile)
  match Settings.load file (← environment) with
  | .error e => complain (describe e)
  | .ok settings =>
    match ← generate settings with
    | .error (.raised e) => complain (e.message ++ ": " ++ e.cause.message)
    | .error .overflow => return 101
    | .ok _ => return 0
