/-
# What the file systems and the VFS share (`filesystem/Filesystem.h`, `interfaces/driver`)

A node is known to the VFS by the id of its driver and the handle that this driver gave it.
A string of the driver interface is a pointer with a length; `none` is a null pointer.
-/
import Northport.Syslib.Strings

namespace Northport.Filesystem

inductive NodeType where
  | file
  | directory
  | link
deriving DecidableEq, Repr

structure VfsId where
  driverId : ℕ
  vnodeId : ℕ
deriving DecidableEq, Repr

/-- `VfsId {}`. -/
def VfsId.null : VfsId := ⟨0, 0⟩

structure MountOptions where
  writable : Bool
  uncachable : Bool
deriving DecidableEq, Repr

abbrev NpkString := Option (List UInt8)

/-- `NPK_INVALID_HANDLE`. -/
def npkInvalidHandle : ℕ := 0

/-- The names that `find_child` does not look for among the children. -/
def dot : List UInt8 := [46]

def dotDot : List UInt8 := [46, 46]

/-- What `get_attribs` returns and `set_attribs` takes. -/
structure NpkFsAttribs where
  size : ℕ
  name : List UInt8
deriving DecidableEq, Repr

end Northport.Filesystem
