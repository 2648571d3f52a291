import BytecodeFlow.CommandLine.Run
import Std.Time

namespace BytecodeFlow.CommandLine

def twoDigits (n : Int) : String := if n < 10 then "0" ++ toString n else toString n

def renderTime (t : Std.Time.Timestamp) : String :=
  let d := Std.Time.DateTime.ofTimestampWithZone t .UTC
  let date := "-".intercalate
    [toString d.year.toInt, twoDigits d.month.val, twoDigits d.day.val]
  let time := ":".intercalate
    [twoDigits d.hour.val, twoDigits d.minute.val, twoDigits d.second.val]
  date ++ "T" ++ time ++ "Z"

def fileText (file : String) : IO (Except Unreadable String) := do
  try return .ok (← IO.FS.readFile file)
  catch
    | .inappropriateType .. => return .error .directory
    | .invalidArgument .. => return .error .malformed
    | .unsatisfiedConstraints .. => return .error .tooLong
    | _ => return .error .missing

def runOnDisk (args : List String) : IO Outcome :=
  match Command.parse args with
  | .error e => return .failed e.message
  | .ok c => do
    let texts ← c.files.mapM fun file => return (file, ← fileText file)
    return c.run fun file => (texts.lookup file).getD (.error .missing)

end BytecodeFlow.CommandLine

open BytecodeFlow.CommandLine in
def main (args : List String) : IO UInt32 := do
  let start ← IO.monoNanosNow
  let outcome ← runOnDisk args
  let finish ← IO.monoNanosNow
  let out ← IO.getStdout
  let occasion : Occasion := {
    color := ← out.isTty
    duration := (finish - start : Nat)
    timestamp := renderTime (← Std.Time.Timestamp.now) }
  out.putStr (outcome.answer.render occasion)
  if outcome.message ≠ "" then IO.eprintln outcome.message
  return outcome.code.toUInt32
