import Mathlib.Tactic

/-!
# Shared constants

The part of `abi/crius/abi.h` that the modelled code uses: error numbers, signal numbers
and flags.
-/
namespace Crius.Abi

def EPERM : Int := 1
def ENOENT : Int := 2
def ESRCH : Int := 3
def EIO : Int := 5
def E2BIG : Int := 7
def ECHILD : Int := 10
def EFAULT : Int := 14
def EBUSY : Int := 16
def EEXIST : Int := 17
def ENOTDIR : Int := 18
def EISDIR : Int := 19
def ENODEV : Int := 20
def EINVAL : Int := 22
def ENOSPC : Int := 28
def ENOTEMPTY : Int := 39

def SIGKILL : Int := 9
def SIGSEGV : Int := 11

/-- `options & WNOHANG` -/
def wnohang (options : Int) : Bool := options % 2 ≠ 0

/-- `flags & O_CREAT` -/
def oCreat (flags : Int) : Bool := flags / 4 % 2 ≠ 0

/-- `flags & O_APPEND` -/
def oAppend (flags : Int) : Bool := flags / 8 % 2 ≠ 0

/-- `flags & O_TRUNC` -/
def oTrunc (flags : Int) : Bool := flags / 16 % 2 ≠ 0

def MAX_ARGS : Nat := 16
def MAX_ARG_LEN : Nat := 255

end Crius.Abi
