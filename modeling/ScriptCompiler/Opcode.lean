/-!
# Opcodes and their static description

Every instruction starts with one opcode byte. The description of an opcode
fixes the length of its instruction, its effect on the operand stack and the
layout of its operands. Jumps and switches come in two widths: the narrow form
carries 16-bit offsets and the wide twin 32-bit ones, both relative to the
opcode byte itself. Wide forms are never emitted directly, they only replace
narrow ones whose offsets have outgrown 16 bits.
-/

namespace ScriptCompiler

/-- The instruction set, in the order of the opcode bytes. -/
inductive Opcode where
  | nop
  | push
  | pop
  | popN
  | dup
  | dup2
  | null
  | pushTrue
  | pushFalse
  | zero
  | one
  | int8
  | uint16
  | int32
  | double
  | string
  | name
  | setName
  | getLocal
  | setLocal
  | setLocalPop
  | getProp
  | setProp
  | getElem
  | setElem
  | add
  | sub
  | mul
  | div
  | mod
  | bitOr
  | bitXor
  | bitAnd
  | lsh
  | rsh
  | ursh
  | eq
  | ne
  | strictEq
  | strictNe
  | lt
  | le
  | gt
  | ge
  | inObject
  | instanceOf
  | not
  | bitNot
  | neg
  | pos
  | typeOf
  | void
  | call
  | new
  | lambda
  | defFun
  | defVar
  | returnTop
  | setRval
  | retRval
  | stop
  | throwTop
  | tryMark
  | finallyMark
  | retSub
  | exception
  | enterWith
  | leaveWith
  | enterBlock
  | leaveBlock
  | iter
  | iterNext
  | moreIter
  | endIter
  | condSwitch
  | goto
  | ifEq
  | ifNe
  | or
  | and
  | gosub
  | case
  | default
  | backpatch
  | backpatchPop
  | tableSwitch
  | lookupSwitch
  | gotoX
  | ifEqX
  | ifNeX
  | orX
  | andX
  | gosubX
  | caseX
  | defaultX
  | tableSwitchX
  | lookupSwitchX
  deriving DecidableEq, Repr, Inhabited

/-- Layout of the bytes after the opcode. -/
inductive Format where
  /-- No operand. -/
  | plain
  /-- One unsigned byte. -/
  | uint8
  /-- A 16-bit count or local slot. -/
  | uint16
  /-- A 16-bit index into the literal table. -/
  | literal
  /-- A 16-bit index into the nested functions. -/
  | function
  /-- A signed 32-bit value. -/
  | int32
  /-- A 16-bit jump offset. -/
  | jump
  /-- A 32-bit jump offset. -/
  | jumpX
  /-- Default offset, low and high key, then one offset for each key. -/
  | tableSwitch
  /-- A table switch with 32-bit offsets. -/
  | tableSwitchX
  /-- Default offset, pair count, then pairs of literal index and offset. -/
  | lookupSwitch
  /-- A lookup switch with 32-bit offsets. -/
  | lookupSwitchX
  deriving DecidableEq, Repr

namespace Format

/-- Width in bytes of each jump offset, for the formats that hold offsets. -/
def jumpLen : Format → Option Nat
  | jump | tableSwitch | lookupSwitch => some 2
  | jumpX | tableSwitchX | lookupSwitchX => some 4
  | _ => none

/-- The formats whose length depends on a table in the operands. -/
def isSwitch : Format → Bool
  | tableSwitch | tableSwitchX | lookupSwitch | lookupSwitchX => true
  | _ => false

/-- The switch formats keyed by a range of integers. -/
def isTable : Format → Bool
  | tableSwitch | tableSwitchX => true
  | _ => false

end Format

/-- Static description of an opcode. -/
structure OpSpec where
  /-- Length of the whole instruction; absent when a table decides it. -/
  length : Option Nat
  /-- Values popped; absent when the first operand gives the count. -/
  uses : Option Nat
  /-- Values pushed; absent when the emitter supplies the count. -/
  defs : Option Nat
  /-- Layout of the operands. -/
  format : Format
  /-- Extra stack slots needed while the instruction runs. -/
  scratch : Nat
  /-- Whether the opcode only holds the place of a jump in a pending chain. -/
  placeholder : Bool
  deriving DecidableEq, Repr

namespace Opcode

/-- Description of a fixed-length opcode that needs no scratch slots. -/
def fixedSpec (length uses defs : Nat) (format : Format) : OpSpec :=
  ⟨some length, some uses, some defs, format, 0, false⟩

/-- The static description table. -/
def spec : Opcode → OpSpec
  | nop => fixedSpec 1 0 0 .plain
  | push | null | pushTrue | pushFalse | zero | one => fixedSpec 1 0 1 .plain
  | pop => fixedSpec 1 1 0 .plain
  | popN => ⟨some 3, none, some 0, .uint16, 0, false⟩
  | dup => fixedSpec 1 1 2 .plain
  | dup2 => fixedSpec 1 2 4 .plain
  | int8 => fixedSpec 2 0 1 .uint8
  | uint16 => fixedSpec 3 0 1 .uint16
  | int32 => fixedSpec 5 0 1 .int32
  | double | string | name => fixedSpec 3 0 1 .literal
  | setName | getProp => fixedSpec 3 1 1 .literal
  | getLocal => fixedSpec 3 0 1 .uint16
  | setLocal => fixedSpec 3 1 1 .uint16
  | setLocalPop => fixedSpec 3 1 0 .uint16
  | setProp => fixedSpec 3 2 1 .literal
  | getElem => fixedSpec 1 2 1 .plain
  | setElem => fixedSpec 1 3 1 .plain
  | add | sub | mul | div | mod | bitOr | bitXor | bitAnd | lsh | rsh | ursh
  | eq | ne | strictEq | strictNe | lt | le | gt | ge | inObject | instanceOf =>
    fixedSpec 1 2 1 .plain
  | not | bitNot | neg | pos | typeOf | void => fixedSpec 1 1 1 .plain
  | call | new => ⟨some 3, none, some 1, .uint16, 0, false⟩
  | lambda => fixedSpec 3 0 1 .function
  | defFun => fixedSpec 3 0 0 .function
  | defVar => fixedSpec 3 0 0 .literal
  | returnTop | setRval | throwTop => fixedSpec 1 1 0 .plain
  | retRval | stop | tryMark | condSwitch => fixedSpec 1 0 0 .plain
  | finallyMark => fixedSpec 1 0 2 .plain
  | retSub => fixedSpec 1 2 0 .plain
  | exception => fixedSpec 1 0 1 .plain
  | enterWith => fixedSpec 1 1 1 .plain
  | leaveWith | endIter => fixedSpec 1 1 0 .plain
  | enterBlock => ⟨some 3, some 0, none, .uint16, 0, false⟩
  | leaveBlock => ⟨some 3, none, some 0, .uint16, 0, false⟩
  | iter => fixedSpec 2 1 1 .uint8
  | iterNext => ⟨some 1, some 1, some 2, .plain, 1, false⟩
  | moreIter => fixedSpec 1 1 2 .plain
  | goto | gosub => fixedSpec 3 0 0 .jump
  | ifEq | ifNe | or | and | default => fixedSpec 3 1 0 .jump
  | case => fixedSpec 3 2 1 .jump
  | backpatch => ⟨some 3, some 0, some 0, .jump, 0, true⟩
  | backpatchPop => ⟨some 3, some 1, some 0, .jump, 0, true⟩
  | tableSwitch => ⟨none, some 1, some 0, .tableSwitch, 0, false⟩
  | lookupSwitch => ⟨none, some 1, some 0, .lookupSwitch, 0, false⟩
  | gotoX | gosubX => fixedSpec 5 0 0 .jumpX
  | ifEqX | ifNeX | orX | andX | defaultX => fixedSpec 5 1 0 .jumpX
  | caseX => fixedSpec 5 2 1 .jumpX
  | tableSwitchX => ⟨none, some 1, some 0, .tableSwitchX, 0, false⟩
  | lookupSwitchX => ⟨none, some 1, some 0, .lookupSwitchX, 0, false⟩

/-- Layout of the operands of an opcode. -/
def format (op : Opcode) : Format := op.spec.format

/-- The wide twin that takes over when an offset no longer fits 16 bits.
Placeholders and opcodes that are already wide have none. -/
def widened : Opcode → Option Opcode
  | goto => some gotoX
  | ifEq => some ifEqX
  | ifNe => some ifNeX
  | or => some orX
  | and => some andX
  | gosub => some gosubX
  | case => some caseX
  | default => some defaultX
  | tableSwitch => some tableSwitchX
  | lookupSwitch => some lookupSwitchX
  | _ => none

/-- Whether the opcode carries 32-bit jump offsets. -/
def isWide (op : Opcode) : Bool := op.format.jumpLen == some 4

/-- All opcodes; the position of an opcode is its byte. -/
def all : Array Opcode := #[
  nop, push, pop, popN, dup, dup2, null, pushTrue, pushFalse, zero, one, int8, uint16, int32,
  double, string, name, setName, getLocal, setLocal, setLocalPop, getProp, setProp, getElem,
  setElem, add, sub, mul, div, mod, bitOr, bitXor, bitAnd, lsh, rsh, ursh, eq, ne, strictEq,
  strictNe, lt, le, gt, ge, inObject, instanceOf, not, bitNot, neg, pos, typeOf, void, call, new,
  lambda, defFun, defVar, returnTop, setRval, retRval, stop, throwTop, tryMark, finallyMark,
  retSub, exception, enterWith, leaveWith, enterBlock, leaveBlock, iter, iterNext, moreIter,
  endIter, condSwitch, goto, ifEq, ifNe, or, and, gosub, case, default, backpatch, backpatchPop,
  tableSwitch, lookupSwitch, gotoX, ifEqX, ifNeX, orX, andX, gosubX, caseX, defaultX,
  tableSwitchX, lookupSwitchX]

/-- The byte that encodes an opcode. -/
def toByte (op : Opcode) : UInt8 := UInt8.ofNat op.ctorIdx

/-- The opcode a byte encodes, if it encodes one. -/
def ofByte? (byte : UInt8) : Option Opcode := all[byte.toNat]?

/-- Reading back the byte of an opcode gives that opcode. -/
@[simp] theorem ofByte?_toByte (op : Opcode) : ofByte? op.toByte = some op := by
  cases op <;> rfl

/-- A widened opcode carries 32-bit offsets. -/
theorem isWide_of_widened {op twin : Opcode} (h : op.widened = some twin) :
    twin.isWide = true := by
  cases op <;> simp only [widened, Option.some.injEq, reduceCtorEq] at h <;> subst h <;> rfl

/-- The name of an opcode in listings. -/
def mnemonic : Opcode → String
  | nop => "nop"
  | push => "push"
  | pop => "pop"
  | popN => "popn"
  | dup => "dup"
  | dup2 => "dup2"
  | null => "null"
  | pushTrue => "true"
  | pushFalse => "false"
  | zero => "zero"
  | one => "one"
  | int8 => "int8"
  | uint16 => "uint16"
  | int32 => "int32"
  | double => "double"
  | string => "string"
  | name => "name"
  | setName => "setname"
  | getLocal => "getlocal"
  | setLocal => "setlocal"
  | setLocalPop => "setlocalpop"
  | getProp => "getprop"
  | setProp => "setprop"
  | getElem => "getelem"
  | setElem => "setelem"
  | add => "add"
  | sub => "sub"
  | mul => "mul"
  | div => "div"
  | mod => "mod"
  | bitOr => "bitor"
  | bitXor => "bitxor"
  | bitAnd => "bitand"
  | lsh => "lsh"
  | rsh => "rsh"
  | ursh => "ursh"
  | eq => "eq"
  | ne => "ne"
  | strictEq => "stricteq"
  | strictNe => "strictne"
  | lt => "lt"
  | le => "le"
  | gt => "gt"
  | ge => "ge"
  | inObject => "in"
  | instanceOf => "instanceof"
  | not => "not"
  | bitNot => "bitnot"
  | neg => "neg"
  | pos => "pos"
  | typeOf => "typeof"
  | void => "void"
  | call => "call"
  | new => "new"
  | lambda => "lambda"
  | defFun => "deffun"
  | defVar => "defvar"
  | returnTop => "return"
  | setRval => "setrval"
  | retRval => "retrval"
  | stop => "stop"
  | throwTop => "throw"
  | tryMark => "try"
  | finallyMark => "finally"
  | retSub => "retsub"
  | exception => "exception"
  | enterWith => "enterwith"
  | leaveWith => "leavewith"
  | enterBlock => "enterblock"
  | leaveBlock => "leaveblock"
  | iter => "iter"
  | iterNext => "iternext"
  | moreIter => "moreiter"
  | endIter => "enditer"
  | condSwitch => "condswitch"
  | goto => "goto"
  | ifEq => "ifeq"
  | ifNe => "ifne"
  | or => "or"
  | and => "and"
  | gosub => "gosub"
  | case => "case"
  | default => "default"
  | backpatch => "backpatch"
  | backpatchPop => "backpatchpop"
  | tableSwitch => "tableswitch"
  | lookupSwitch => "lookupswitch"
  | gotoX => "gotox"
  | ifEqX => "ifeqx"
  | ifNeX => "ifnex"
  | orX => "orx"
  | andX => "andx"
  | gosubX => "gosubx"
  | caseX => "casex"
  | defaultX => "defaultx"
  | tableSwitchX => "tableswitchx"
  | lookupSwitchX => "lookupswitchx"

/-- The opcode with a given listing name. -/
def ofMnemonic? (text : String) : Option Opcode := all.find? (·.mnemonic == text)

end Opcode

end ScriptCompiler
