import Mathlib.Data.Nat.Notation
import Tianole.Errno

/-! Path lookup of `fs/vfs.c` over the nodes of `fs/ramfs/ramfs.c`. -/
namespace Tianole.Fs

/-- A NUL-terminated string: the bytes before the terminator. -/
structure CString where
  bytes : List UInt8
  noNul : 0 ∉ bytes
  deriving DecidableEq

/-- `text[index]`, for an index up to that of the terminator. -/
def CString.get (text : CString) (index : ℕ) : UInt8 := text.bytes.getD index 0

def CString.strlen (text : CString) : ℕ := text.bytes.length

def slash : UInt8 := 0x2f
def dot : UInt8 := 0x2e

def vfsNameMax : ℕ := 64
def vfsPathMax : ℕ := 256

/-! ### Objects -/

/-- Address of a `struct ramfs_node`, which is also that of the inode at its beginning. -/
abbrev NodePtr := ℕ

inductive NodeType where
  | regular | directory
  deriving DecidableEq, Repr

/-- Which methods a `struct vfs_inode_operations` has; all of them are those of ramfs. -/
structure InodeOps where
  lookup : Bool
  parent : Bool
  deriving DecidableEq, Repr

/-- Which methods a `struct vfs_file_operations` has. -/
structure FileOps where
  read : Bool
  readdir : Bool
  close : Bool
  deriving DecidableEq, Repr

def ramfsDirIops : InodeOps := ⟨true, true⟩
def ramfsFileFops : FileOps := ⟨true, false, false⟩
def ramfsDirFops : FileOps := ⟨false, true, false⟩

/-- `struct ramfs_node` with its embedded inode. -/
structure RamfsNode where
  type : NodeType
  iOps : Option InodeOps
  fOps : Option FileOps
  privateData : Option NodePtr
  children : List (CString × Option NodePtr)
  parent : Option NodePtr

structure VfsFile where
  inode : Option NodePtr
  offset : ℕ
  fOps : Option FileOps
  privateData : Option ℕ
  deriving DecidableEq, Repr

/-- The globals of `fs/vfs.c`, and the nodes. -/
structure Vfs where
  node : NodePtr → RamfsNode
  root : Option NodePtr
  ready : Bool

/-! ### ramfs -/

def ramfsParent (fs : Vfs) (inode : NodePtr) : Except ℤ NodePtr :=
  match (fs.node inode).privateData with
  | none => .error (-Errno.inval)
  | some node =>
      match (fs.node node).parent with
      | none => .error (-Errno.inval)
      | some parent => .ok parent

/-- `right` is a position in a path, so only its first `rightLen` bytes count. -/
def ramfsNameEqual (left : CString) (right : ℕ → UInt8) (rightLen : ℕ) : Bool :=
  left.strlen = rightLen && (List.range rightLen).all fun index => left.get index = right index

/-- The search loop of `ramfs_lookup`. -/
def lookupEntry (name : ℕ → UInt8) (nameLen : ℕ) :
    List (CString × Option NodePtr) → Except ℤ (Option NodePtr)
  | [] => .error (-Errno.noent)
  | (entry, node) :: rest =>
      if ramfsNameEqual entry name nameLen then .ok node else lookupEntry name nameLen rest

def ramfsLookup (fs : Vfs) (dir : NodePtr) (name : ℕ → UInt8) (nameLen : ℕ) :
    Except ℤ (Option NodePtr) :=
  match (fs.node dir).privateData with
  | none => .error (-Errno.inval)
  | some node => lookupEntry name nameLen (fs.node node).children

/-! ### The path walker -/

def vfsSegmentIsDot (name : ℕ → UInt8) (nameLen : ℕ) : Bool := nameLen = 1 && name 0 = dot

def vfsSegmentIsDotdot (name : ℕ → UInt8) (nameLen : ℕ) : Bool :=
  nameLen = 2 && name 0 = dot && name 1 = dot

def vfsLookupChild (fs : Vfs) (dir : NodePtr) (name : ℕ → UInt8) (nameLen : ℕ) :
    Except ℤ (Option NodePtr) :=
  if (fs.node dir).type ≠ .directory then .error (-Errno.notdir)
  else match (fs.node dir).iOps with
    | none => .error (-Errno.notdir)
    | some ops =>
        if ops.lookup = false then .error (-Errno.notdir) else ramfsLookup fs dir name nameLen

def vfsLookupParent (fs : Vfs) (inode : NodePtr) : Except ℤ NodePtr :=
  if (fs.node inode).type ≠ .directory then .error (-Errno.notdir)
  else if some inode = fs.root then .ok inode
  else match (fs.node inode).iOps with
    | none => .error (-Errno.inval)
    | some ops => if ops.parent = false then .error (-Errno.inval) else ramfsParent fs inode

/-- One component, once it has been cut out of the path. -/
def walkSegment (fs : Vfs) (current : NodePtr) (name : ℕ → UInt8) (nameLen : ℕ) :
    Except ℤ NodePtr :=
  if nameLen = 0 ∨ vfsNameMax ≤ nameLen then .error (-Errno.nametoolong)
  else if vfsSegmentIsDot name nameLen then
    if (fs.node current).type ≠ .directory then .error (-Errno.notdir) else .ok current
  else if vfsSegmentIsDotdot name nameLen then vfsLookupParent fs current
  else match vfsLookupChild fs current name nameLen with
    | .error ret => .error ret
    | .ok none => .error (-Errno.noent)
    | .ok (some next) => .ok next

/-- The loop over slashes. The terminator ends it, so that `n` rounds are enough when `n` bytes
are left. -/
def skipSlashes (path : CString) : ℕ → ℕ → ℕ
  | 0, index => index
  | n + 1, index => if path.get index = slash then skipSlashes path n (index + 1) else index

/-- The loop over the bytes of a component. -/
def segmentEnd (path : CString) (length : ℕ) : ℕ → ℕ → ℕ
  | 0, index => index
  | n + 1, index =>
      if index < length ∧ path.get index ≠ slash then segmentEnd path length n (index + 1) else index

/-- Ways in which the walk ends without an inode: an error number, or a loop that does not end
within the given number of rounds. -/
inductive WalkStop where
  | error (ret : ℤ)
  | hang
  deriving DecidableEq, Repr

/-- The main loop of `vfs_open`. -/
def walkLoop (fs : Vfs) (path : CString) (length : ℕ) :
    ℕ → ℕ → NodePtr → Except WalkStop NodePtr
  | 0, index, current => if index < length then .error .hang else .ok current
  | n + 1, index, current =>
      if index < length then
        let start := skipSlashes path length index
        if length ≤ start then .ok current
        else
          let index := segmentEnd path length length start
          match walkSegment fs current (fun i => path.get (start + i)) (index - start) with
          | .error ret => .error (.error ret)
          | .ok next => walkLoop fs path length n index next
      else .ok current

def clearedFile : VfsFile := ⟨none, 0, none, none⟩

/-- `vfs_open` returns a status beside the new contents of the caller's file object; null
pointers are `none`. -/
def vfsOpen (fs : Vfs) (path : Option CString) (file : Option VfsFile) :
    Except WalkStop (ℤ × Option VfsFile) :=
  match path, file, fs.root with
  | some path, some _, some root =>
      if fs.ready = false then .ok (-Errno.inval, file)
      else
        let length := path.strlen
        if length = 0 ∨ vfsPathMax ≤ length ∨ path.get 0 ≠ slash then
          .ok (-Errno.inval, some clearedFile)
        else match walkLoop fs path length length 1 root with
          | .error (.error ret) => .ok (ret, some clearedFile)
          | .error .hang => .error .hang
          | .ok inode => .ok (0, some ⟨some inode, 0, (fs.node inode).fOps, none⟩)
  | _, _, _ => .ok (-Errno.inval, file)

end Tianole.Fs
