import Std.Time.DateTime.Timestamp
import Sameness.CommandLine

/-! The program. -/

namespace Sameness

/-- More steps than any run of the program takes. -/
def budget : Nat := 2 ^ 62

end Sameness

open Sameness

/-- All lines of the log bear the time of the start. -/
def main (arguments : List String) : IO UInt32 := do
  let time := toString (← Std.Time.Timestamp.now).toSecondsSinceUnixEpoch.val
  let logger := Logger.stamped fun _ => time
  let setting? ← IO.getEnv "RUST_LOG"
  let request := CommandLine.parse arguments
  let answer := (CommandLine.answer logger setting? request).within budget
  let report := (answer.getD none).getD CommandLine.refusal
  IO.print report.stdout
  for line in report.stderr do
    IO.eprintln line
  return report.exit.toUInt32
