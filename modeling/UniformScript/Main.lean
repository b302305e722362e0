import UniformScript.Console

/-!
# The program

Reads the arguments, the file and the whole input, and writes what `Console.run` answers.
-/

namespace UniformScript.Main

/-- A bound on the depth of evaluation that no program meets in practice. -/
def fuel : Nat := 1000000000000

/-- The text of a file, or why it cannot be read. -/
def readFile (name : String) : IO (Except String String) := do
  try
    return .ok (← IO.FS.readFile name)
  catch
    | .noFileOrDirectory .. => return .error "No such file or directory (os error 2)"
    | e => return .error (toString e)

/-- The whole of the standard input, behind what has been read. -/
partial def readAll (input : IO.FS.Stream) (text : String) : IO String := do
  let line ← input.getLine
  if line.isEmpty then return text else readAll input (text ++ line)

/-- The random number drawn as the `k`-th, from zero up to one, for a seed: a counter, stirred. -/
def stirred (seed : UInt64) (k : Nat) : Float :=
  let z := seed + 0x9E3779B97F4A7C15 * UInt64.ofNat (k + 1)
  let z := (z ^^^ (z >>> 30)) * 0xBF58476D1CE4E5B9
  let z := (z ^^^ (z >>> 27)) * 0x94D049BB133111EB
  let z := z ^^^ (z >>> 31)
  (z >>> 11).toFloat / 9007199254740992

end UniformScript.Main

open UniformScript in
/-- Runs the command line. -/
def main (args : List String) : IO UInt32 := do
  let named := match Console.readArguments ⟨none, false, false, false⟩ args with
    | .work o => o.file
    | _ => none
  let text ← match named with
    | some name => Main.readFile name
    | none => pure (.ok "")
  let input ← Main.readAll (← IO.getStdin) ""
  let seed := UInt64.ofNat (← IO.monoNanosNow)
  let terminal ← (← IO.getStderr).isTty
  match Console.run Main.fuel args (fun _ => text) input (Main.stirred seed) terminal with
  | .ok result =>
    IO.print result.stdout
    IO.eprint result.stderr
    return UInt32.ofNat result.code
  | .error _ =>
    IO.eprintln "The program nests too deeply."
    return 1
