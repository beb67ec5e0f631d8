import Mathlib.Data.List.Basic
/-!
# Basic — what every system call module shares: the saved registers, the error numbers, the task states, `MAX_FD`

`include/syscall.h`, `include/errno.h` and the enumeration of `include/task.h`.
-/
namespace EterOS

/-- `task_state_t`, in the order of its encoding: `TASK_READY` is 0. -/
inductive TaskState where
  | ready | running | blocked | sleeping | stopped | dead
  deriving DecidableEq

namespace Syscall

def EPERM : Int := 1
def ENOENT : Int := 2
def ESRCH : Int := 3
def EIO : Int := 5
def EBADF : Int := 9
def ENOMEM : Int := 12
def EACCES : Int := 13
def EFAULT : Int := 14
def EEXIST : Int := 17
def ENOTDIR : Int := 20
def EISDIR : Int := 21
def EINVAL : Int := 22
def EMFILE : Int := 24
def ENAMETOOLONG : Int := 36
def ELOOP : Int := 40

def maxFd : Nat := 256

structure SyscallRegs where
  r15 : UInt64 := 0
  r14 : UInt64 := 0
  r13 : UInt64 := 0
  r12 : UInt64 := 0
  r11 : UInt64 := 0
  r10 : UInt64 := 0
  r9 : UInt64 := 0
  r8 : UInt64 := 0
  rbp : UInt64 := 0
  rdi : UInt64 := 0
  rsi : UInt64 := 0
  rdx : UInt64 := 0
  rcx : UInt64 := 0
  rbx : UInt64 := 0
  rax : UInt64 := 0

end Syscall
end EterOS
