import Mathlib.Data.Nat.Notation

namespace Xv6

def NPROC : ℕ := 64
def KSTACKSIZE : ℕ := 4096
def NOFILE : ℕ := 16
def NFILE : ℕ := 100
def NINODE : ℕ := 50
def MAXARG : ℕ := 32
def MAXOPBLOCKS : ℕ := 10
def LOGSIZE : ℕ := MAXOPBLOCKS * 3
def NBUF : ℕ := MAXOPBLOCKS * 3
def FSSIZE : ℕ := 1000

end Xv6
