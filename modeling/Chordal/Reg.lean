/-
# Registers

The general registers of the machine, those that values may be kept in, and
which of these a function has taken.

Some registers never hold a value for long: `rax`, `rcx` and `rdx` because
division, shifts and results need them, `rsp` and `rbp` because they hold the
stack, and `r11` because it is the scratch register through which values in
memory are worked on.

Key definitions: `Reg`, `RegSet`, `Reg.pool`, `RegFile`.
-/
namespace Chordal

/-- A general register. -/
inductive Reg where
  | rax | rcx | rdx | rbx | rsp | rbp | rsi | rdi
  | r8 | r9 | r10 | r11 | r12 | r13 | r14 | r15
deriving DecidableEq, Repr, Inhabited

namespace Reg

/-- All registers in the order of their numbers. -/
def all : List Reg :=
  [rax, rcx, rdx, rbx, rsp, rbp, rsi, rdi, r8, r9, r10, r11, r12, r13, r14, r15]

/-- The number of a register. -/
def number : Reg → Nat
  | rax => 0
  | rcx => 1
  | rdx => 2
  | rbx => 3
  | rsp => 4
  | rbp => 5
  | rsi => 6
  | rdi => 7
  | r8 => 8
  | r9 => 9
  | r10 => 10
  | r11 => 11
  | r12 => 12
  | r13 => 13
  | r14 => 14
  | r15 => 15

/-- The register that the low four bits of a number name. -/
def ofNumber (n : Nat) : Reg := (all[n % 16]?).getD rax

/-- The name of all 64 bits of a register. -/
def name : Reg → String
  | rax => "rax"
  | rcx => "rcx"
  | rdx => "rdx"
  | rbx => "rbx"
  | rsp => "rsp"
  | rbp => "rbp"
  | rsi => "rsi"
  | rdi => "rdi"
  | r8 => "r8"
  | r9 => "r9"
  | r10 => "r10"
  | r11 => "r11"
  | r12 => "r12"
  | r13 => "r13"
  | r14 => "r14"
  | r15 => "r15"

/-- The name of the low 32 bits of a register. -/
def name32 : Reg → String
  | rax => "eax"
  | rcx => "ecx"
  | rdx => "edx"
  | rbx => "ebx"
  | rsp => "esp"
  | rbp => "ebp"
  | rsi => "esi"
  | rdi => "edi"
  | r => r.name ++ "d"

/-- The name of the low byte of a register. -/
def name8 : Reg → String
  | rax => "al"
  | rcx => "cl"
  | rdx => "dl"
  | rbx => "bl"
  | rsp => "spl"
  | rbp => "bpl"
  | rsi => "sil"
  | rdi => "dil"
  | r => r.name ++ "b"

/-- The text of a register. -/
def text (r : Reg) : String := "%" ++ r.name

/-- Whether a function has to leave the register as it found it. -/
def isCalleeSaved : Reg → Bool
  | rbx => true
  | rbp => true
  | r12 => true
  | r13 => true
  | r14 => true
  | r15 => true
  | _ => false

/-- Whether a function has to save the register with this number. No number
beyond fifteen counts, although its low four bits name a register. -/
def isCalleeSavedNumber (n : Nat) : Bool := decide (n < 16) && (ofNumber n).isCalleeSaved

/-- The registers for values, in the order of the colours they stand for. -/
def pool : List Reg := [rbx, rsi, rdi, r8, r9, r10, r12, r13, r14, r15]

/-- The register for work on values that are in memory. -/
def scratch : Reg := r11

end Reg

/-- A set of registers. -/
structure RegSet where
  members : List Reg
deriving Repr

namespace RegSet

/-- The set without members. -/
def empty : RegSet := ⟨[]⟩

/-- Whether a register is in the set. -/
def contains (s : RegSet) (r : Reg) : Bool := s.members.contains r

/-- The set with `r` in it. -/
def insert (s : RegSet) (r : Reg) : RegSet := if s.contains r then s else ⟨r :: s.members⟩

/-- The members in the order of their numbers. -/
def toList (s : RegSet) : List Reg := Reg.all.filter s.contains

/-- The number of members. -/
def size (s : RegSet) : Nat := s.toList.length

/-- The members that a function has to save, in the order of their numbers. -/
def calleeSaved (s : RegSet) : List Reg := s.toList.filter Reg.isCalleeSaved

end RegSet

/-- The registers that a function may take, and those it has taken. -/
structure RegFile where
  pool : List Reg
  used : RegSet
deriving Repr

namespace RegFile

/-- The whole pool, or the start of it if there is a limit; nothing is taken. -/
def ofLimit (limit : Option Nat) : RegFile :=
  ⟨match limit with
    | some n => Reg.pool.take n
    | none => Reg.pool, .empty⟩

/-- The register of a colour, which is then taken. Colours beyond the pool have
none. -/
def assign (file : RegFile) (color : Nat) : Option Reg × RegFile :=
  match file.pool[color]? with
  | some r => (some r, { file with used := file.used.insert r })
  | none => (none, file)

/-- The file with nothing taken. -/
def reset (file : RegFile) : RegFile := { file with used := .empty }

end RegFile
end Chordal
