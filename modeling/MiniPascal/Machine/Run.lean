import MiniPascal.Machine.Step

/-!
# Runs of the machine

A run steps until the program ends, is refused, or is cancelled. It looks for a cancellation whenever
the number of steps is a multiple of 1024. Output goes to a writer, chunk by chunk; what a line of output
meets there is not looked at, only the last chunk of a run may turn a good end into a failure.
-/

namespace MiniPascal

/-- Where output goes: a chunk is taken, or refused with a reason, and the writer goes on. -/
structure Writer (σ : Type) where
  write : σ → Text → Option Text × σ

namespace Writer

/-- Write chunks one after the other and forget how that went. -/
def feed {σ : Type} (w : Writer σ) (s : σ) (chunks : List Text) : σ :=
  chunks.foldl (fun s chunk => (w.write s chunk).2) s

/-- Chunks may be written in two parts. -/
theorem feed_append {σ : Type} (w : Writer σ) (s : σ) (first second : List Text) :
    w.feed s (first ++ second) = w.feed (w.feed s first) second := by
  simp [feed, List.foldl_append]

/-- The reason with which a full writer refuses. -/
def full : Text := Text.ofString "out full"

/-- A writer with room for a number of bytes in all, or for any number. A chunk that does not fit is
refused whole. -/
def bounded (limit : Option Nat) : Writer (Array UInt8) where
  write s chunk :=
    match limit with
    | some n => if n < s.size + chunk.length then (some full, s) else (none, s ++ chunk)
    | none => (none, s ++ chunk)

end Writer

namespace Machine

/-- How a run ended. -/
inductive Outcome where
  | finished
  | cancelled
  | faulted (pc sp : Int64) (cause : Fault)
  | crashed
  | writeFailed (reason : Text)
deriving DecidableEq, Repr

namespace Outcome

/-- The report on a run; a good end has none. -/
def message : Outcome → Text
  | .finished => []
  | .cancelled => Text.ofString "run: context canceled"
  | .faulted pc sp cause => Status.report pc.toInt sp.toInt cause.name
  | .crashed => Text.ofString "crash"
  | .writeFailed reason => Text.ofString "write output: " ++ reason

end Outcome

/-- Up to a number of steps; the outcome is there if the machine came to an end. -/
def stretch : Nat → Machine → Option Outcome × Machine
  | 0, m => (none, m)
  | n + 1, m =>
    let pc := m.pc
    match m.step with
    | (.success, m) => stretch n m
    | (.halted, m) => (some .finished, m)
    | (.stopped (.fault cause), m) => (some (.faulted pc m.sp cause), m)
    | (.stopped .crash, m) => (some .crashed, m)

/-- The number of steps between two looks for a cancellation. -/
def interval : Nat := 1024

/-- Go on from a moment at which the machine looks for a cancellation, which is there once a number of
looks have found none. -/
def proceed : Nat → Machine → Outcome × Machine
  | 0, m => (.cancelled, m)
  | looks + 1, m =>
    match stretch interval m with
    | (some outcome, m) => (outcome, m)
    | (none, m) => proceed looks m

/-- The number of steps up to the next look. -/
def untilLook (m : Machine) : Nat := (interval - m.steps % interval) % interval

/-- Run up to an end or a cancellation, without the output. -/
def execution (looks : Nat) (m : Machine) : Outcome × Machine :=
  match stretch m.untilLook m with
  | (some outcome, m) => (outcome, m)
  | (none, m) => proceed looks m

/-- Hand the collected chunks to a writer. -/
def drain {σ : Type} (w : Writer σ) (m : Machine) (s : σ) : Machine × σ :=
  let chunks := m.out.chunks.toList
  ({ m with out := { m.out with chunks := #[] } }, w.feed s chunks)

/-- Hand the pending bytes to a writer, and tell whether it refused them. -/
def close {σ : Type} (w : Writer σ) (m : Machine) (s : σ) : Option Text × Machine × σ :=
  let pending := m.out.pending.toList
  let m := { m with out := { m.out with pending := #[] } }
  if pending.isEmpty then (none, m, s)
  else
    let (reason, s) := w.write s pending
    (reason, m, s)

/-- Run with a writer; a cancellation is there after a number of looks. -/
def run {σ : Type} (w : Writer σ) (looks : Nat) (m : Machine) (s : σ) : Outcome × Machine × σ :=
  let (outcome, m) := m.execution looks
  let (m, s) := m.drain w s
  let (reason, m, s) := m.close w s
  match outcome, reason with
  | .finished, some reason => (.writeFailed reason, m, s)
  | outcome, _ => (outcome, m, s)

end Machine

end MiniPascal
