/-!
# FactorMachine — the instruction set

Each opcode is numbered, and its number is the index of the prime that stands for it in a
chunk. The numbering is the order of `Opcode.all` and is stated only there.
-/

namespace FactorMachine

inductive Opcode where
  | push
  | add
  | print
  | halt
  | jump
  | pokeChunk
  | buildChunk
  | dup
  | swap
  | drop
  | call
  | ret
  | peekChunk
  | factorize
  | getPrime
  | getPrimeIndex
  | compareEq
  | jumpIfZero
  | nop
  | mod
  | input
  | random
  | sub
  deriving DecidableEq, Repr

namespace Opcode

/-- All opcodes in the order of their numbers. -/
def all : List Opcode :=
  [push, add, print, halt, jump, pokeChunk, buildChunk, dup, swap, drop, call, ret, peekChunk,
   factorize, getPrime, getPrimeIndex, compareEq, jumpIfZero, nop, mod, input, random, sub]

/-- The opcode with the given number. -/
def ofIndex? (i : Nat) : Option Opcode := all[i]?

/-- The number of an opcode. -/
def index (op : Opcode) : Nat := all.idxOf op

def name : Opcode → String
  | push => "PUSH"
  | add => "ADD"
  | print => "PRINT"
  | halt => "HALT"
  | jump => "JUMP"
  | pokeChunk => "POKE_CHUNK"
  | buildChunk => "BUILD_CHUNK"
  | dup => "DUP"
  | swap => "SWAP"
  | drop => "DROP"
  | call => "CALL"
  | ret => "RETURN"
  | peekChunk => "PEEK_CHUNK"
  | factorize => "FACTORIZE"
  | getPrime => "GET_PRIME"
  | getPrimeIndex => "GET_PRIME_IDX"
  | compareEq => "COMPARE_EQ"
  | jumpIfZero => "JUMP_IF_ZERO"
  | nop => "NOP"
  | mod => "MOD"
  | input => "INPUT"
  | random => "RANDOM"
  | sub => "SUB"

/-- The opcode with the given name. -/
def ofName? (name : String) : Option Opcode := all.find? (·.name == name)

/-- How many words must be on the operand stack before the opcode is dispatched.
`buildChunk` asks for more once it knows its count. -/
def pops : Opcode → Nat
  | add | sub | mod | compareEq | swap | pokeChunk | jumpIfZero => 2
  | print | drop | dup | peekChunk | getPrime | getPrimeIndex | random | buildChunk
  | factorize | jump | call => 1
  | push | ret | halt | nop | input => 0

end Opcode

end FactorMachine
