import RegisterLang.Proofs.Codec
import RegisterLang.Proofs.Execution

/-!
# The machine as an interpreter of decoded instructions

The machine reads an instruction in place: first its operation and its type, then each operand when it
is needed. Here it is once more, with every step taken from the instruction that decoding gives. The
two do the same on all bytes and from all states, so a machine and a listing never read different
programs.
-/
namespace RegisterLang

def DecodeError.runFault : DecodeError → RunFault
  | noOpcode _ => .noOpcode
  | unknownOpcode code _ => .unknownOpcode code
  | badRegType op _ code => .badRegType op code
  | short op _ => .short op

theorem DecodeError.fault_runFault (e : DecodeError) : e.runFault.fault = e.fault := by
  cases e <;> rfl

namespace Machine
namespace Interpreter

def step (p : Program) (limits : Limits) (s : State) : Except RunFault Next :=
  match Instr.decode p.image s.pc with
  | .error e => .error e.runFault
  | .ok (x, next) =>
    match perform p limits s next x with
    | .error e => .error e
    | .ok e => .ok (s.apply next e)

def runFrom (p : Program) (limits : Limits) (fuel steps : Nat) (s : State) : Run :=
  match fuel with
  | 0 => s.ended .unfinished steps s.depth
  | fuel + 1 =>
    match Instr.decode p.image s.pc with
    | .error e => s.ended (.failed (.step s.pc e.runFault)) steps s.depth
    | .ok (x, next) =>
      match perform p limits s next x with
      | .error e => s.ended (.failed (.step s.pc e)) (steps + 1) s.depth
      | .ok e =>
        match s.apply next e with
        | .running s => runFrom p limits fuel (steps + 1) s
        | .returned value s => s.ended (.returned value) (steps + 1) 0

def run (limits : Limits) (image : Image) (fuel : Nat) : Run :=
  match start limits image with
  | .error e => { ending := .failed e }
  | .ok (p, s) => runFrom p limits fuel 0 s

end Interpreter

def Fetched.ofDecoded : Except DecodeError (Instr × Nat) → Except RunFault Fetched
  | .ok (x, next) => .ok ⟨x.opcode, x.type, next⟩
  | .error e => .error e.runFault

theorem type_operands {image : Image} {op : Opcode} {t : RegType} {i : Nat}
    (ht : op.isTyped = false → t = .s8) : (Instr.operands image op t i).type = t := by
  cases op with
  | set | cmp | push | pop | add | sub | mul | div | mod => rfl
  | func | call | ret | mov | jmp | jl | jg | je | jne | jz | jnz | unknown => exact (ht rfl).symm

/-- The machine reads an instruction exactly where decoding gives one. -/
theorem fetch_eq_ofDecoded (image : Image) (pc : Nat) :
    fetch image pc = Fetched.ofDecoded (Instr.decodeAt image pc) := by
  unfold fetch Instr.decodeAt
  dsimp only
  have hcode := Opcode.code_ofCode (image.number 2 pc).toUInt16
  generalize hop : Opcode.ofCode (image.number 2 pc).toUInt16 = op at hcode ⊢
  generalize ht : (if op.isTyped then RegType.ofCode (image.getD (pc + 2) 0) else .s8) = t
  have hs8 : op.isTyped = false → t = .s8 := by
    intro htyped
    rw [← ht, htyped]
    rfl
  by_cases h2 : image.size < pc + 2
  · rw [if_pos h2, if_pos h2]
    rfl
  rw [if_neg h2, if_neg h2]
  have hlt : image.size < pc + 3 ↔ image.size ≤ pc + 2 := Nat.lt_succ_iff
  simp only [hlt]
  -- decoding asks first whether the operation is known and the machine last, but only an operation
  -- that is known has a type, so no other error can come between
  cases hknown : op.isKnown with
  | false =>
    obtain ⟨htyped, hsize⟩ : op.isTyped = false ∧ op.operandSize? t = none := by
      cases op <;> first | exact ⟨rfl, rfl⟩ | cases hknown
    simp [htyped, hsize, hcode, Fetched.ofDecoded, DecodeError.runFault]
  | true =>
    obtain ⟨n, hn⟩ : ∃ n, op.operandSize? t = some n := by
      cases op <;> first | exact ⟨_, rfl⟩ | cases hknown
    rw [hn, Option.getD_some, if_neg (by simp : ¬ ((!true) = true))]
    split
    · rfl
    split
    · rfl
    dsimp only
    split
    · rfl
    · simp only [Fetched.ofDecoded, Instr.opcode_operands, type_operands hs8]

theorem effect_of_decodeAt {p : Program} {s : State} {x : Instr} {next : Nat}
    (h : Instr.decodeAt p.image s.pc = .ok (x, next)) (limits : Limits) :
    effect p limits s ⟨x.opcode, x.type, next⟩ = perform p limits s next x := by
  obtain ⟨i, hf, hknown, rfl, rfl⟩ := fetch_of_decodeAt h
  rw [fetch_eq_ofDecoded, h] at hf
  rw [Except.ok.inj hf]
  exact effect_eq_perform p limits s i hknown

theorem step_eq_interpreter (p : Program) (limits : Limits) (s : State) :
    step p limits s = Interpreter.step p limits s := by
  unfold step Interpreter.step
  rw [fetch_eq_ofDecoded, Instr.decode_natCast]
  cases h : Instr.decodeAt p.image s.pc with
  | error e => rfl
  | ok r =>
    obtain ⟨x, next⟩ := r
    simp only [Fetched.ofDecoded, bind, Except.bind, effect_of_decodeAt h]
    cases perform p limits s next x <;> rfl

theorem runFrom_eq_interpreter (p : Program) (limits : Limits) (fuel steps : Nat) (s : State) :
    runFrom p limits fuel steps s = Interpreter.runFrom p limits fuel steps s := by
  induction fuel generalizing steps s with
  | zero => rfl
  | succ fuel ih =>
    unfold runFrom Interpreter.runFrom
    rw [fetch_eq_ofDecoded, Instr.decode_natCast]
    cases h : Instr.decodeAt p.image s.pc with
    | error e => rfl
    | ok r =>
      obtain ⟨x, next⟩ := r
      simp only [Fetched.ofDecoded, effect_of_decodeAt h]
      cases perform p limits s next x with
      | error e => rfl
      | ok e =>
        dsimp only
        cases s.apply next e with
        | running s' => exact ih (steps + 1) s'
        | returned value s' => rfl

/-- What is read of an instruction is what decoding gives, or both fail in the same way. -/
def ReadsAlike (decoded : Except DecodeError (Instr × Nat)) (fetched : Except RunFault Fetched) : Prop :=
  match decoded, fetched with
  | .ok (x, next), .ok i => i.op = x.opcode ∧ i.type = x.type ∧ i.next = next
  | .error e, .error e' => e'.fault = e.fault
  | _, _ => False

/-- The machine and decoding read the same language. At every offset of all bytes they fail alike or
give the same operation, type and next offset; a step from any state is that of the interpreter, which
takes the operands of the decoded instruction; and so are all runs. -/
theorem runs_as_decoded (image : Image) :
    (∀ pc : Nat, ReadsAlike (Instr.decode image pc) (fetch image pc)) ∧
    (∀ functions labels limits s, step ⟨image, functions, labels⟩ limits s =
      Interpreter.step ⟨image, functions, labels⟩ limits s) ∧
    (∀ functions labels limits fuel steps s,
      runFrom ⟨image, functions, labels⟩ limits fuel steps s =
        Interpreter.runFrom ⟨image, functions, labels⟩ limits fuel steps s) ∧
    ∀ limits fuel, run limits image fuel = Interpreter.run limits image fuel := by
  refine ⟨fun pc => ?_, fun _ _ _ _ => step_eq_interpreter _ _ _,
    fun _ _ _ _ _ _ => runFrom_eq_interpreter _ _ _ _ _, fun limits fuel => ?_⟩
  · rw [fetch_eq_ofDecoded, Instr.decode_natCast]
    cases Instr.decodeAt image pc with
    | error e => exact e.fault_runFault
    | ok r => exact ⟨rfl, rfl, rfl⟩
  · unfold run Interpreter.run
    cases start limits image with
    | error e => rfl
    | ok r => exact runFrom_eq_interpreter _ _ _ _ _

end Machine

end RegisterLang
