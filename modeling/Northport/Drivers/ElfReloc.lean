/-
# Relocations of a driver's image (`ElfLoader.cpp`, `Elf.cpp`)

An image is loaded at a base address, and then the words that its relocations name are patched:
first those of the RELA table, then those of the REL table, then those of the PLT.  A relocation
adds an addend to the base or to the value of a symbol; the addend is in the entry or, in a table
without addends, in the word itself.

A word of the machine is copied from and to the image byte by byte, in the order of the bytes of
the architecture.
-/
import Northport.Lib.ByteMem
import Mathlib.Algebra.BigOperators.Intervals

namespace Northport.Drivers

open Lib

/-! ### Architectures -/

inductive Arch where
  | x86_64
  | riscv64
  | m68k
deriving DecidableEq, Repr

namespace Arch

/-- `sizeof(uintptr_t)`. -/
def wordBytes : Arch → ℕ
  | x86_64 => 8
  | riscv64 => 8
  | m68k => 4

def wordSize (arch : Arch) : ℕ := 256 ^ arch.wordBytes

/-- The digit that is the byte `k` of a number of `n` bytes. -/
def digit (arch : Arch) (n k : ℕ) : ℕ :=
  match arch with
  | x86_64 | riscv64 => k
  | m68k => n - 1 - k

end Arch

/-! ### Types of relocations -/

@[match_pattern] def R_X86_64_64 : ℕ := 1
@[match_pattern] def R_X86_64_GLOB_DAT : ℕ := 6
@[match_pattern] def R_X86_64_JUMP_SLOT : ℕ := 7
@[match_pattern] def R_X86_64_RELATIVE : ℕ := 8
@[match_pattern] def R_X86_64_32 : ℕ := 10

@[match_pattern] def R_RISCV_32 : ℕ := 1
@[match_pattern] def R_RISCV_64 : ℕ := 2
@[match_pattern] def R_RISCV_RELATIVE : ℕ := 3
@[match_pattern] def R_RISCV_JUMP_SLOT : ℕ := 5

@[match_pattern] def R_68K_32 : ℕ := 1
@[match_pattern] def R_68K_16 : ℕ := 2
@[match_pattern] def R_68K_8 : ℕ := 3
@[match_pattern] def R_68K_PC32 : ℕ := 4
@[match_pattern] def R_68K_PC16 : ℕ := 5
@[match_pattern] def R_68K_PC8 : ℕ := 6
@[match_pattern] def R_68K_GLOB_DAT : ℕ := 20
@[match_pattern] def R_68K_JMP_SLOT : ℕ := 21
@[match_pattern] def R_68K_RELATIVE : ℕ := 22

structure ComputedReloc where
  value : ℕ
  length : ℕ
  usedSymbol : Bool
deriving DecidableEq, Repr

/-- `ComputeRelocation`: addend, base, symbol and place. -/
def computeRelocation (arch : Arch) (type a b s p : ℕ) : ComputedReloc :=
  let add (x y : ℕ) := (x + y) % arch.wordSize
  let sub (x y : ℕ) := (x + (arch.wordSize - y % arch.wordSize)) % arch.wordSize
  match arch, type with
  | .x86_64, R_X86_64_64 => ⟨add a s, 8, true⟩
  | .x86_64, R_X86_64_32 => ⟨add a s, 4, true⟩
  | .x86_64, R_X86_64_RELATIVE => ⟨add b a, 8, false⟩
  | .x86_64, R_X86_64_JUMP_SLOT => ⟨s, 8, true⟩
  | .x86_64, R_X86_64_GLOB_DAT => ⟨s, 8, true⟩
  | .riscv64, R_RISCV_64 => ⟨add a s, 8, true⟩
  | .riscv64, R_RISCV_32 => ⟨add a s, 4, true⟩
  | .riscv64, R_RISCV_RELATIVE => ⟨add b a, 8, false⟩
  | .riscv64, R_RISCV_JUMP_SLOT => ⟨s, 8, true⟩
  | .m68k, R_68K_32 => ⟨add s a, 4, true⟩
  | .m68k, R_68K_16 => ⟨add s a, 2, true⟩
  | .m68k, R_68K_8 => ⟨add s a, 1, true⟩
  | .m68k, R_68K_PC32 => ⟨sub (add s a) p, 4, true⟩
  | .m68k, R_68K_PC16 => ⟨sub (add s a) p, 2, true⟩
  | .m68k, R_68K_PC8 => ⟨sub (add s a) p, 1, true⟩
  | .m68k, R_68K_GLOB_DAT => ⟨s, 4, true⟩
  | .m68k, R_68K_JMP_SLOT => ⟨s, 4, true⟩
  | .m68k, R_68K_RELATIVE => ⟨add b a, 4, false⟩
  | _, _ => ⟨0, 0, false⟩

/-- What a relocation of an absolute type puts into the word. -/
inductive RelocKind where
  | symbolAddend
  | symbol
  | relative
deriving DecidableEq, Repr

/-- The supported absolute types: the kind, and the length of the word. -/
def relocKind : Arch → ℕ → Option (RelocKind × ℕ)
  | .x86_64, R_X86_64_64 => some (.symbolAddend, 8)
  | .x86_64, R_X86_64_32 => some (.symbolAddend, 4)
  | .x86_64, R_X86_64_RELATIVE => some (.relative, 8)
  | .x86_64, R_X86_64_JUMP_SLOT => some (.symbol, 8)
  | .x86_64, R_X86_64_GLOB_DAT => some (.symbol, 8)
  | .riscv64, R_RISCV_64 => some (.symbolAddend, 8)
  | .riscv64, R_RISCV_32 => some (.symbolAddend, 4)
  | .riscv64, R_RISCV_RELATIVE => some (.relative, 8)
  | .riscv64, R_RISCV_JUMP_SLOT => some (.symbol, 8)
  | .m68k, R_68K_32 => some (.symbolAddend, 4)
  | .m68k, R_68K_16 => some (.symbolAddend, 2)
  | .m68k, R_68K_8 => some (.symbolAddend, 1)
  | .m68k, R_68K_GLOB_DAT => some (.symbol, 4)
  | .m68k, R_68K_JMP_SLOT => some (.symbol, 4)
  | .m68k, R_68K_RELATIVE => some (.relative, 4)
  | _, _ => none

namespace RelocKind

def value (arch : Arch) (a b s : ℕ) : RelocKind → ℕ
  | symbolAddend => (a + s) % arch.wordSize
  | symbol => s
  | relative => (b + a) % arch.wordSize

def usesSymbol : RelocKind → Bool
  | symbolAddend | symbol => true
  | relative => false

end RelocKind

/-- `ComputeRelocation` on the absolute types. -/
lemma computeRelocation_eq {arch : Arch} {type n : ℕ} {kind : RelocKind}
    (h : relocKind arch type = some (kind, n)) (a b s p : ℕ) :
    computeRelocation arch type a b s p = ⟨kind.value arch a b s, n, kind.usesSymbol⟩ := by
  unfold relocKind at h
  split at h
  all_goals cases h
  all_goals simp [computeRelocation, RelocKind.value, RelocKind.usesSymbol, add_comm]

lemma relocKind_length {arch : Arch} {type n : ℕ} {kind : RelocKind}
    (h : relocKind arch type = some (kind, n)) :
    0 < n ∧ n ≤ arch.wordBytes ∧ (kind = .relative → n = arch.wordBytes) := by
  unfold relocKind at h
  split at h
  all_goals cases h
  all_goals simp [Arch.wordBytes]

/-! ### Images -/

structure ElfSym where
  st_name : ℕ
  st_value : ℕ
  st_shndx : ℕ
  /-- What the string table has at `st_name`. -/
  name : List UInt8

/-- The symbol is defined in the module. -/
def ElfSym.Defined (sym : ElfSym) : Prop := sym.st_shndx ≠ 0

instance (sym : ElfSym) : Decidable sym.Defined := inferInstanceAs (Decidable (_ ≠ _))

/-- An entry of a table of relocations.  Without addends in the table, the addend is not read. -/
structure ElfRela where
  r_offset : ℕ
  type : ℕ
  sym : ℕ
  r_addend : ℕ

structure DynamicElfInfo where
  symTable : ℕ → ElfSym
  relaEntries : List ElfRela
  relEntries : List ElfRela
  pltRelocs : List ElfRela
  pltUsesRela : Bool

variable (arch : Arch) (kernel : List UInt8 → Option ℕ) (dynInfo : DynamicElfInfo)

/-- The value of the symbol; symbols without a value are looked up in the kernel. -/
def symbolValue (rela : ElfRela) (allowLookup : Bool) : ℕ :=
  let sym := dynInfo.symTable rela.sym
  if sym.st_value ≠ 0 ∨ allowLookup = false ∨ sym.st_name = 0 then sym.st_value
  else (kernel sym.name).getD 0

section

variable (m : ByteMem)

/-- `memcopy` of `n` bytes from the image into a word that is zero. -/
def loadWord (p n : ℕ) : ℕ :=
  ∑ k ∈ Finset.range n, 256 ^ arch.digit arch.wordBytes k * (m (p + k)).toNat

/-- `memcopy` of `n` bytes of a word into the image. -/
def storeWord (p v n : ℕ) : ByteMem := fun x =>
  if p ≤ x ∧ x < p + n then BitVec.ofNat 8 (v / 256 ^ arch.digit arch.wordBytes (x - p)) else m x

/-- The addend, from the entry or from the word itself. -/
def relocAddend (rela : ElfRela) (isRela : Bool) (b s p : ℕ) : Option ℕ :=
  if isRela then some rela.r_addend
  else
    let opLength := (computeRelocation arch rela.type 0 b s p).length
    if opLength = 0 then none
    else if opLength ≤ arch.wordBytes then some (loadWord arch m p opLength)
    else none

/-- `ApplyRelocation`: whether it succeeds, and the memory afterwards. -/
def applyRelocation (rela : ElfRela) (isRela : Bool) (base : ℕ)
    (allowLookup : Bool) : Bool × ByteMem :=
  let p := (base + rela.r_offset) % arch.wordSize
  let s := symbolValue kernel dynInfo rela allowLookup
  match relocAddend arch m rela isRela base s p with
  | none => (false, m)
  | some a =>
    let computed := computeRelocation arch rela.type a base s p
    if computed.usedSymbol ∧ s = 0 then (false, m)
    else if computed.length = 0 then (false, m)
    else (true, storeWord arch m p computed.value computed.length)

/-- One entry of a table after the other: how many have failed, and the memory. -/
def applyTable (isRela : Bool) (base : ℕ) (allowLookup : Bool) (table : List ElfRela)
    (state : ℕ × ByteMem) : ℕ × ByteMem :=
  table.foldl (fun state rela =>
    let result := applyRelocation arch kernel dynInfo state.2 rela isRela base allowLookup
    (if result.1 then state.1 else state.1 + 1, result.2)) state

/-- The entries for the part of the image that is loaded. -/
def inRange (offset limit : ℕ) (rel : ElfRela) : Bool :=
  !decide (rel.r_offset < offset ∨ rel.r_offset > (offset + limit) % arch.wordSize)

/-- `DoRelocations` on a buffer at `raw`. -/
def doRelocations (raw offset limit : ℕ) (isDriver : Bool) : Bool × ByteMem :=
  let base := (raw + (arch.wordSize - offset % arch.wordSize)) % arch.wordSize
  let state := applyTable arch kernel dynInfo true base isDriver
    (dynInfo.relaEntries.filter (inRange arch offset limit)) (0, m)
  let state := applyTable arch kernel dynInfo false base isDriver
    (dynInfo.relEntries.filter (inRange arch offset limit)) state
  (state.1 == 0, state.2)

/-- `LinkPlt`. -/
def linkPlt (raw : ℕ) (isDriver : Bool) : Bool × ByteMem :=
  let state := applyTable arch kernel dynInfo dynInfo.pltUsesRela raw isDriver dynInfo.pltRelocs
    (0, m)
  (state.1 == 0, state.2)

/-- The part of `LoadElf` that relocates the image at `loadBase`. -/
def relocateImage (loadBase : ℕ) (isDriver : Bool) : Option ByteMem :=
  let done := doRelocations arch kernel dynInfo m loadBase 0 (arch.wordSize - 1) isDriver
  if done.1 then
    let linked := linkPlt arch kernel dynInfo done.2 loadBase isDriver
    if linked.1 then some linked.2 else none
  else none

end

end Northport.Drivers
