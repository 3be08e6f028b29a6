import Mathlib

/-!
# Constants of the i386 build

The page geometry of `include/i386/pages.h` and the width of the machine
words.  `sizeof (unsigned long)` is four and `size_t` is `unsigned long`.
The `dummy` port is built with `-m32` and has the same sizes.  The error codes
are those of `include/khui/errno.h`.
-/

namespace Koowaldah

def PAGE_SHIFT : Nat := 12

def PAGE_SIZE : Nat := 4096

/-- `NOPAGE_ADDR`, the address no page has. -/
def NOPAGE_ADDR : Nat := 0xffffffff

/-- `USERMEM_START`.  Below it every mapping is the identity on physical memory. -/
def USERMEM_START : Nat := 0x40000000

/-- Addresses, `size_t` and `u32` values are below this. -/
def WORD_RANGE : Nat := 2 ^ 32

def addWord (a b : Nat) : Nat := (a + b) % WORD_RANGE

def subWord (a b : Nat) : Nat := (a + (WORD_RANGE - b)) % WORD_RANGE

theorem subWord_lt (a b : Nat) : subWord a b < WORD_RANGE := Nat.mod_lt _ (by decide)

theorem subWord_of_le {a b : Nat} (hle : b ≤ a) (ha : a < WORD_RANGE) : subWord a b = a - b := by
  have hsum : a + (WORD_RANGE - b) = a - b + WORD_RANGE := by omega
  unfold subWord
  rw [hsum, Nat.add_mod_right, Nat.mod_eq_of_lt (by omega)]

def EBADF : Int := 9

def EAGAIN : Int := 11

def ENOMEM : Int := 12

def EBUSY : Int := 16

def EINVAL : Int := 22

def ENOSYS : Int := 78

end Koowaldah
