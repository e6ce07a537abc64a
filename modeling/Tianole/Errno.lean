import Mathlib.Data.Int.Notation

/-! Error numbers of `include/tianole/errno.h` that drivers and file systems return. -/
namespace Tianole.Errno

def noent : ℤ := 2
def again : ℤ := 11
def busy : ℤ := 16
def notdir : ℤ := 20
def isdir : ℤ := 21
def inval : ℤ := 22
def nospc : ℤ := 28
def nametoolong : ℤ := 36

end Tianole.Errno
