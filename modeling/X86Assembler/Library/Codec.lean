import Mathlib.Logic.Equiv.Defs
import X86Assembler.Library.LittleEndian

namespace X86Assembler

open CString (Byte)
open LittleEndian

/-- A type whose values take the same number of bytes in a file each. -/
structure Codec (α : Type) where
  size : Nat
  write : α → List Byte
  read : List Byte → α
  write_length : ∀ a, (write a).length = size
  read_write : ∀ a, read (write a) = a

namespace Codec

variable {α β : Type}

attribute [simp] write_length read_write

def le (w n : Nat) (h : w ≤ 8 * n) : Codec (BitVec w) where
  size := n
  write := leBytes n
  read := ofLeBytes w
  write_length := leBytes_length n
  read_write := ofLeBytes_leBytes h

def u16 : Codec (BitVec 16) := le 16 2 (Nat.le_refl _)
def u32 : Codec (BitVec 32) := le 32 4 (Nat.le_refl _)
def u64 : Codec (BitVec 64) := le 64 8 (Nat.le_refl _)

def bytes (n : Nat) : Codec (Vector Byte n) where
  size := n
  write := Vector.toList
  read := fun bs => Vector.ofFn fun i => bs.getD i 0
  write_length := fun v => v.length_toList
  read_write := by
    intro v
    apply Vector.ext
    intro i hi
    have hlen : i < v.toList.length := by rwa [Vector.length_toList]
    rw [Vector.getElem_ofFn, List.getD_eq_getElem?_getD, List.getElem?_eq_getElem hlen,
      Option.getD_some, Vector.getElem_toList]

def seq (c : Codec α) (d : Codec β) : Codec (α × β) where
  size := c.size + d.size
  write := fun p => c.write p.1 ++ d.write p.2
  read := fun bs => (c.read (bs.take c.size), d.read (bs.drop c.size))
  write_length := by
    intro p
    rw [List.length_append, c.write_length, d.write_length]
  read_write := by
    intro p
    have htake : (c.write p.1 ++ d.write p.2).take c.size = c.write p.1 := by
      rw [← c.write_length p.1, List.take_left]
    have hdrop : (c.write p.1 ++ d.write p.2).drop c.size = d.write p.2 := by
      rw [← c.write_length p.1, List.drop_left]
    rw [htake, hdrop, c.read_write, d.read_write]

def map (c : Codec α) (e : α ≃ β) : Codec β where
  size := c.size
  write := fun b => c.write (e.symm b)
  read := fun bs => e (c.read bs)
  write_length := fun b => c.write_length _
  read_write := by
    intro b
    rw [c.read_write, e.apply_symm_apply]

variable (c : Codec α)

def writeAll (l : List α) : List Byte := l.flatMap c.write

def readAt (bs : List Byte) (i : Nat) : α := c.read (slice bs (c.size * i) c.size)

@[simp] theorem writeAll_length (l : List α) : (c.writeAll l).length = c.size * l.length := by
  induction l with
  | nil => rfl
  | cons a l ih =>
      rw [writeAll, List.flatMap_cons, List.length_append, c.write_length, List.length_cons,
        Nat.mul_succ, Nat.add_comm, ← ih, writeAll]

theorem readAt_writeAll {l : List α} {i : Nat} {a : α} (h : l[i]? = some a) :
    c.readAt (c.writeAll l) i = a := by
  induction l generalizing i with
  | nil => cases h
  | cons b l ih =>
      rw [readAt, writeAll, List.flatMap_cons]
      cases i with
      | zero =>
          cases h
          have hslice := @slice_append_exact [] (c.write a) (l.flatMap c.write)
          rw [List.nil_append, c.write_length] at hslice
          rw [Nat.mul_zero, ← List.length_nil, hslice, c.read_write]
      | succ i =>
          rw [Nat.mul_succ, Nat.add_comm, ← c.write_length b, slice_append_right, c.write_length]
          exact ih h

end Codec

end X86Assembler
