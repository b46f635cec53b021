import RegisterLang.Machine.Step

/-!
# Runs of the machine

A run starts with function zero on a cleared machine and goes on until that function returns, an
instruction fails, or the steps that it was given are used up.
-/
namespace RegisterLang

inductive RunError where
  | header (e : HeaderError)
  | start (e : RunFault)
  | startWindow (need registers : Nat)
  | step (pc : Nat) (e : RunFault)
  deriving DecidableEq

def RunError.fault : RunError → Fault
  | header e => e.fault
  | start e | step _ e => e.fault
  | startWindow .. => .registerOverflow

def RunError.message : RunError → String
  | header e => "header: " ++ e.message
  | start e => "main: " ++ e.message
  | startWindow need n =>
    "main needs " ++ toString need ++ " registers of " ++ toString n ++ ": " ++
      Fault.registerOverflow.text
  | step pc e => "pc " ++ offsetText pc ++ ": " ++ e.message

namespace Machine

inductive Ending where
  | returned (value : Register)
  | failed (e : RunError)
  | unfinished
  deriving DecidableEq

/-- How a run ended, with the number of instructions that were read and what is left on the machine:
open frames, bytes on the stack and flags. -/
structure Run where
  ending : Ending
  steps : Nat := 0
  depth : Nat := 0
  stack : Nat := 0
  flags : Flags := {}
  deriving DecidableEq

/-- What is left of a machine that ended in a state. -/
def State.ended (s : State) (ending : Ending) (steps depth : Nat) : Run :=
  { ending, steps, depth, stack := s.stack.size, flags := s.flags }

/-- A run from a state for at most `fuel` steps, where `steps` were done before. -/
def runFrom (p : Program) (limits : Limits) (fuel steps : Nat) (s : State) : Run :=
  match fuel with
  | 0 => s.ended .unfinished steps s.depth
  | fuel + 1 =>
    match fetch p.image s.pc with
    | .error e => s.ended (.failed (.step s.pc e)) steps s.depth
    | .ok i =>
      match effect p limits s i with
      | .error e => s.ended (.failed (.step s.pc e)) (steps + 1) s.depth
      | .ok e =>
        match s.apply i.next e with
        | .running s => runFrom p limits fuel (steps + 1) s
        | .returned value s => s.ended (.returned value) (steps + 1) 0

/-- The program of an image and the machine before its first step. -/
def start (limits : Limits) (image : Image) : Except RunError (Program × State) :=
  match Header.read image with
  | .error e => .error (.header e)
  | .ok h =>
    let p : Program := ⟨image, h.functions, h.labels⟩
    match p.prologue 0 with
    | .error e => .error (.start e)
    | .ok f =>
      if limits.registers < f.regs then .error (.startWindow f.regs limits.registers)
      else
        .ok (p,
          { regs := Array.replicate limits.registers {}
            frame := ⟨0, f.regs, -1⟩
            pc := f.body })

/-- Runs an image for at most `fuel` steps. -/
def run (limits : Limits) (image : Image) (fuel : Nat) : Run :=
  match start limits image with
  | .error e => { ending := .failed e }
  | .ok (p, s) => runFrom p limits fuel 0 s

/-- An instruction that was read, and the machine before it. -/
structure Event where
  pc : Nat
  op : Opcode
  type : RegType
  frame : Frame
  flags : Flags

/-- The first `n` instructions that are read from a state on. -/
def eventsFrom (p : Program) (limits : Limits) : Nat → State → List Event
  | 0, _ => []
  | n + 1, s =>
    match fetch p.image s.pc with
    | .error _ => []
    | .ok i =>
      ⟨s.pc, i.op, i.type, s.frame, s.flags⟩ ::
        match effect p limits s i with
        | .error _ => []
        | .ok e =>
          match s.apply i.next e with
          | .running s => eventsFrom p limits n s
          | .returned .. => []

/-- The first `n` instructions of a run. -/
def events (limits : Limits) (image : Image) (n : Nat) : List Event :=
  match start limits image with
  | .error _ => []
  | .ok (p, s) => eventsFrom p limits n s

end Machine

end RegisterLang
