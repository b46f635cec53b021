/-!
# Faults of images and runs

Whatever is wrong with an image, found on reading it or on running it, is one of these.
-/
namespace RegisterLang

inductive Fault where
  | badMagic
  | truncated
  | badIndex
  | unknownOpcode
  | badRegType
  | functionIndex
  | labelIndex
  | registerOverflow
  | frameOverflow
  | stackOverflow
  | stackUnderflow
  | divisionByZero
  deriving DecidableEq, Repr

def Fault.text : Fault → String
  | badMagic => "bad magic"
  | truncated => "truncated bytecode"
  | badIndex => "table index out of range"
  | unknownOpcode => "unknown opcode"
  | badRegType => "bad register type"
  | functionIndex => "function index out of range"
  | labelIndex => "label index out of range"
  | registerOverflow => "register window overflow"
  | frameOverflow => "call frame overflow"
  | stackOverflow => "stack overflow"
  | stackUnderflow => "stack underflow"
  | divisionByZero => "integer division by zero"

end RegisterLang
