import AssetServer.Text.Quoted

/-!
# Exit statuses

How a process ended, as the 32-bit status word that waiting for it gives.
-/

namespace AssetServer

/-- The status word of a process that was waited for. -/
structure ExitStatus where
  word : UInt32
  deriving DecidableEq, Repr, Inhabited

namespace ExitStatus

/-- The status of a process that left with a code. -/
def exited (code : UInt8) : ExitStatus := ⟨code.toUInt32 <<< 8⟩

/-- The status of a process that a signal ended. -/
def killed (signal : UInt8) : ExitStatus := ⟨signal.toUInt32 &&& 0x7F⟩

/-- The code a process left with, if no signal ended it. -/
def code? (s : ExitStatus) : Option Nat :=
  if s.word &&& 0x7F = 0 then some ((s.word >>> 8) &&& 0xFF).toNat else none

/-- Whether a process left with code 0. -/
def success (s : ExitStatus) : Bool :=
  s.code? == some 0

/-- The signal that ended a process. -/
def signal? (s : ExitStatus) : Option Nat :=
  let low := s.word &&& 0x7F
  if low ≠ 0 ∧ low ≠ 0x7F then some low.toNat else none

/-- Whether a memory image was written when the process ended. -/
def dumped (s : ExitStatus) : Bool :=
  s.word &&& 0x80 != 0

/-- The signal that stopped a process that has not ended. -/
def stopSignal? (s : ExitStatus) : Option Nat :=
  if s.word &&& 0xFF = 0x7F then some ((s.word >>> 8) &&& 0xFF).toNat else none

/-- Names of the signals from 1. -/
def signalNames : List String :=
  ["SIGHUP", "SIGINT", "SIGQUIT", "SIGILL", "SIGTRAP", "SIGABRT", "SIGBUS", "SIGFPE", "SIGKILL",
   "SIGUSR1", "SIGSEGV", "SIGUSR2", "SIGPIPE", "SIGALRM", "SIGTERM", "SIGSTKFLT", "SIGCHLD",
   "SIGCONT", "SIGSTOP", "SIGTSTP", "SIGTTIN", "SIGTTOU", "SIGURG", "SIGXCPU", "SIGXFSZ",
   "SIGVTALRM", "SIGPROF", "SIGWINCH", "SIGIO", "SIGPWR", "SIGSYS"]

/-- A signal by its number, and its name if it has one. -/
def showSignal (signal : Nat) : String :=
  let name := match signal with
    | 0 => none
    | n + 1 => signalNames[n]?
  match name with
  | some name => toString signal ++ " (" ++ name ++ ")"
  | none => toString signal

/-- The status word as a signed number. -/
def signed (s : ExitStatus) : Int :=
  s.word.toInt32.toInt

/-- How messages word a status. -/
def message (s : ExitStatus) : String :=
  match s.code?, s.signal?, s.stopSignal? with
  | some code, _, _ => "exit status: " ++ toString code
  | none, some signal, _ =>
    "signal: " ++ showSignal signal ++ (if s.dumped then " (core dumped)" else "")
  | none, none, some signal => "stopped (not terminated) by signal: " ++ showSignal signal
  | none, none, none =>
    if s.word = 0xFFFF then "continued (WIFCONTINUED)"
    else "unrecognised wait status: " ++ toString s.signed ++ " 0x" ++ Text.hex s.word.toNat

end ExitStatus

end AssetServer
