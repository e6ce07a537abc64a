import Mathlib.Data.List.GetD
import Mathlib.Logic.Function.Basic
import Mathlib.Tactic.SplitIfs
import Tianole.Fs.PathWalk
import Tianole.Lib.Runs

/-! Open file objects: `vfs_read`, `vfs_readdir` and `vfs_close`, and what a sequence of calls on
several objects returns. -/
namespace Tianole.Fs

/-- The nodes with the fields that only file operations read: `inode.size` and `data`. -/
structure Ramfs extends Vfs where
  size : NodePtr → ℕ
  data : NodePtr → Option (ℕ → UInt8)

/-! ### Reading a regular file -/

/-- What a read leaves behind: its status, the file object, the buffer and `*read_size`. -/
structure ReadReply where
  ret : ℤ
  file : Option VfsFile
  buffer : Option (ℕ → UInt8)
  readSize : Option ℕ

/-- The copy loop of `ramfs_read`, from `index` on with `n` bytes to go. -/
def readLoop (data : ℕ → UInt8) (offset : ℕ) : ℕ → ℕ → (ℕ → UInt8) → ℕ → UInt8
  | 0, _, bytes => bytes
  | n + 1, index, bytes =>
      readLoop data offset n (index + 1) (Function.update bytes index (data (offset + index)))

/-- The offset never passes the size, a 64-bit number, so that its sums stay below `2 ^ 64`. -/
def ramfsRead (fs : Ramfs) (file : VfsFile) (inode : NodePtr) (buffer : ℕ → UInt8) (size : ℕ)
    (readSize : ℕ) : ReadReply :=
  match (fs.node inode).privateData with
  | none => ⟨-Errno.inval, some file, some buffer, some readSize⟩
  | some node =>
      match fs.data node with
      | none => ⟨-Errno.inval, some file, some buffer, some readSize⟩
      | some data =>
          if fs.size node ≤ file.offset then ⟨0, some file, some buffer, some 0⟩
          else
            let available := fs.size node - file.offset
            let count := if size < available then size else available
            ⟨0, some { file with offset := file.offset + count },
              some (readLoop data file.offset count 0 buffer), some count⟩

/-- Null arguments are `none`. -/
def vfsRead (fs : Ramfs) (file : Option VfsFile) (buffer : Option (ℕ → UInt8)) (size : ℕ)
    (readSize : Option ℕ) : ReadReply :=
  let readSize := readSize.map fun _ => 0
  match file, buffer, readSize with
  | some open_, some bytes, some count =>
      match open_.inode with
      | none => ⟨-Errno.inval, file, buffer, readSize⟩
      | some inode =>
          if (fs.node inode).type ≠ .regular then ⟨-Errno.isdir, file, buffer, readSize⟩
          else match open_.fOps with
            | none => ⟨-Errno.inval, file, buffer, readSize⟩
            | some ops =>
                if ops.read = false then ⟨-Errno.inval, file, buffer, readSize⟩
                else ramfsRead fs open_ inode bytes size count
  | _, _, _ => ⟨-Errno.inval, file, buffer, readSize⟩

/-! ### Enumerating a directory -/

/-- `struct vfs_dirent`. -/
structure VfsDirent where
  name : ℕ → UInt8
  type : NodeType
  size : ℕ

/-- The loop of `ramfs_copy_name`, with `n` bytes of room before the terminator. -/
def copyNameLoop (src : CString) : ℕ → ℕ → (ℕ → UInt8) → ℕ → UInt8
  | 0, index, dest => Function.update dest index 0
  | n + 1, index, dest =>
      if src.get index ≠ 0 then
        copyNameLoop src n (index + 1) (Function.update dest index (src.get index))
      else Function.update dest index 0

def ramfsCopyName (dest : ℕ → UInt8) (src : CString) : ℕ → UInt8 :=
  copyNameLoop src (vfsNameMax - 1) 0 dest

/-- A status beside the file object and the directory entry. Entries of the table always have a
node: a null one is never followed. -/
def ramfsReaddir (fs : Ramfs) (file : VfsFile) (inode : NodePtr) (dirent : VfsDirent) :
    ℤ × VfsFile × VfsDirent :=
  match (fs.node inode).privateData with
  | none => (-Errno.inval, file, dirent)
  | some node =>
      match (fs.node node).children[file.offset]? with
      | some (name, some child) =>
          (0, { file with offset := file.offset + 1 },
            ⟨ramfsCopyName dirent.name name, (fs.node child).type, fs.size child⟩)
      | _ => (-Errno.noent, file, dirent)

def vfsReaddir (fs : Ramfs) (file : Option VfsFile) (dirent : Option VfsDirent) :
    ℤ × Option VfsFile × Option VfsDirent :=
  match file, dirent with
  | some open_, some entry =>
      match open_.inode with
      | none => (-Errno.inval, file, dirent)
      | some inode =>
          if (fs.node inode).type ≠ .directory then (-Errno.notdir, file, dirent)
          else match open_.fOps with
            | none => (-Errno.notdir, file, dirent)
            | some ops =>
                if ops.readdir = false then (-Errno.notdir, file, dirent)
                else
                  let reply := ramfsReaddir fs open_ inode entry
                  (reply.1, some reply.2.1, some reply.2.2)
  | _, _ => (-Errno.inval, file, dirent)

/-- No file operations of ramfs have a `close` method, so that closing only clears the object. -/
def vfsClose (file : Option VfsFile) : Option VfsFile :=
  file.map fun file => if file.inode = none then file else clearedFile

/-! ### Calls on several objects -/

abbrev FilePtr := ℕ

/-- The file objects of the callers, which are the state that calls change. -/
abbrev Files := FilePtr → VfsFile

inductive FileCall where
  | vfsOpen (path : Option CString)
  | vfsRead (buffer : Option (ℕ → UInt8)) (size : ℕ) (readSize : Option ℕ)
  | vfsReaddir (dirent : Option VfsDirent)
  | vfsClose

/-- What the caller gets back: a status, and what was written through its other pointers. -/
inductive FileReply where
  | opened (ret : ℤ)
  | read (ret : ℤ) (buffer : Option (ℕ → UInt8)) (readSize : Option ℕ)
  | entry (ret : ℤ) (dirent : Option VfsDirent)
  | closed

/-- One call on one object. -/
def serve (fs : Ramfs) (file : VfsFile) : FileCall → Except WalkStop (VfsFile × FileReply)
  | .vfsOpen path =>
      (vfsOpen fs.toVfs path (some file)).map fun r => (r.2.getD file, .opened r.1)
  | .vfsRead buffer size readSize =>
      let r := vfsRead fs (some file) buffer size readSize
      .ok (r.file.getD file, .read r.ret r.buffer r.readSize)
  | .vfsReaddir dirent =>
      let r := vfsReaddir fs (some file) dirent
      .ok (r.2.1.getD file, .entry r.1 r.2.2)
  | .vfsClose => .ok ((vfsClose (some file)).getD file, .closed)

/-- Calls in any order on any objects, with the replies in that order. -/
def serveAll (fs : Ramfs) (files : Files) :
    List (FilePtr × FileCall) → Except WalkStop (Files × List (FilePtr × FileReply))
  | [] => .ok (files, [])
  | (f, call) :: rest =>
      (serve fs (files f) call).bind fun r =>
        (serveAll fs (Function.update files f r.1) rest).map fun all =>
          (all.1, (f, r.2) :: all.2)

/-- No object has been opened. -/
def noneOpen : Files := fun _ => clearedFile

/-- The bytes received through an object since it was last opened. -/
def receive (bytes : List UInt8) : FileReply → List UInt8
  | .opened ret => if ret = 0 then [] else bytes
  | .read _ (some buffer) (some count) => bytes ++ (List.range count).map buffer
  | _ => bytes

/-- The calls, or the replies, that concern one object. -/
def ofFile {α : Type} (f : FilePtr) (l : List (FilePtr × α)) : List (FilePtr × α) :=
  l.filter (·.1 = f)

def received (f : FilePtr) (replies : List (FilePtr × FileReply)) : List UInt8 :=
  ((ofFile f replies).map Prod.snd).foldl receive []

/-- A regular file of ramfs that holds `contents`. -/
structure RegularFile (fs : Ramfs) (inode : NodePtr) (contents : List UInt8) : Prop where
  type : (fs.node inode).type = .regular
  fOps : (fs.node inode).fOps = some ramfsFileFops
  privateData : (fs.node inode).privateData = some inode
  size : fs.size inode = contents.length
  data : ∃ data, fs.data inode = some data ∧ ∀ i < contents.length, data i = contents.getD i 0

/-! ### Every call returns -/

section
variable {fs : Ramfs} {file file' : VfsFile} {call : FileCall} {reply : FileReply}

theorem walkLoop_returns (fs : Vfs) (path : CString) {n index : ℕ} {current : NodePtr}
    (hn : path.bytes.length - index ≤ n) :
    walkLoop fs path path.bytes.length n index current ≠ .error .hang := by
  induction n generalizing index current with
  | zero =>
    rw [walkLoop, if_neg (by omega)]
    simp
  | succ n ih =>
    rw [walkLoop]
    split_ifs with hlt
    · obtain ⟨hle, -, hslash, hgrow⟩ := skipSlashes_spec (Nat.le_of_lt hlt)
        (Nat.sub_le path.bytes.length index)
      generalize skipSlashes path path.bytes.length index = start at hle hslash hgrow
      dsimp only
      split_ifs with hstart
      · simp
      · obtain ⟨name, hseg, -, -, hstop⟩ := segmentEnd_spec hle
          (Nat.sub_le path.bytes.length start)
        -- A component has at least one byte, so that every round makes progress.
        have hpos : name.length ≠ 0 := by
          intro hzero
          rw [hzero, Nat.add_zero] at hstop
          exact hstop.elim (fun h => hstart (Nat.le_of_eq h.symm)) hslash
        rw [hseg]
        split
        · simp
        · exact ih (by omega)
    · simp

theorem vfsOpen_returns (fs : Vfs) (path : Option CString) (file : Option VfsFile) :
    ∃ r, vfsOpen fs path file = .ok r := by
  unfold vfsOpen
  split
  · split_ifs with hready
    · exact ⟨_, rfl⟩
    · dsimp only
      split_ifs with hbad
      · exact ⟨_, rfl⟩
      · split
        · exact ⟨_, rfl⟩
        next hhang => exact absurd hhang (walkLoop_returns _ _ (Nat.sub_le _ _))
        · exact ⟨_, rfl⟩
  · exact ⟨_, rfl⟩

theorem serve_returns (fs : Ramfs) (file : VfsFile) (call : FileCall) :
    ∃ r, serve fs file call = .ok r := by
  cases call with
  | vfsOpen path =>
    obtain ⟨r, hr⟩ := vfsOpen_returns fs.toVfs path (some file)
    exact ⟨_, by rw [serve, hr]; rfl⟩
  | _ => exact ⟨_, rfl⟩

theorem serveAll_returns (fs : Ramfs) (files : Files) (calls : List (FilePtr × FileCall)) :
    ∃ r, serveAll fs files calls = .ok r := by
  induction calls generalizing files with
  | nil => exact ⟨_, rfl⟩
  | cons entry rest ih =>
    obtain ⟨f, call⟩ := entry
    obtain ⟨r, hr⟩ := serve_returns fs (files f) call
    obtain ⟨all, hall⟩ := ih (Function.update files f r.1)
    exact ⟨_, by rw [serveAll, hr, Except.bind, hall]; rfl⟩

/-! ### What one call does -/

theorem readLoop_apply {data bytes : ℕ → UInt8} {offset n index i : ℕ} :
    readLoop data offset n index bytes i =
      if index ≤ i ∧ i < index + n then data (offset + i) else bytes i := by
  induction n generalizing index bytes with
  | zero => rw [readLoop, if_neg (by omega)]
  | succ n ih =>
    rw [readLoop, ih]
    by_cases hi : i = index
    · subst hi
      rw [if_neg (by omega), if_pos (by omega), Function.update_self]
    · rw [Function.update_of_ne hi]
      by_cases hin : index + 1 ≤ i ∧ i < index + 1 + n
      · rw [if_pos hin, if_pos (by omega)]
      · rw [if_neg hin, if_neg (by omega)]

/-- The bytes that a read of `size` from `offset` on copies over a buffer. -/
def copied (contents : List UInt8) (offset n : ℕ) (buffer : ℕ → UInt8) (i : ℕ) : UInt8 :=
  if i < n then contents.getD (offset + i) 0 else buffer i

theorem ramfsRead_eq {inode : NodePtr} {contents : List UInt8}
    (hfile : RegularFile fs inode contents) (hoff : file.offset ≤ contents.length)
    (buffer : ℕ → UInt8) (size count : ℕ) :
    ramfsRead fs file inode buffer size count =
      ⟨0, some { file with offset := file.offset + min size (contents.length - file.offset) },
        some (copied contents file.offset (min size (contents.length - file.offset)) buffer),
        some (min size (contents.length - file.offset))⟩ := by
  obtain ⟨data, hdata, hbytes⟩ := hfile.data
  simp only [ramfsRead, hfile.privateData, hdata, hfile.size]
  by_cases hend : contents.length ≤ file.offset
  · have hnone : contents.length - file.offset = 0 := by omega
    have hbuffer : copied contents file.offset 0 buffer = buffer := funext fun i => by simp [copied]
    rw [if_pos hend, hnone, Nat.min_zero, hbuffer, Nat.add_zero]
  · have hmin : (if size < contents.length - file.offset then size
        else contents.length - file.offset) = min size (contents.length - file.offset) := by
      split_ifs <;> omega
    rw [if_neg hend, hmin]
    congr 2
    funext i
    rw [readLoop_apply, copied]
    by_cases hi : i < min size (contents.length - file.offset)
    · rw [if_pos (by omega), if_pos hi, hbytes _ (by omega)]
    · rw [if_neg (by omega), if_neg hi]

/-- A read from an object on a regular file, at any offset up to the end. -/
theorem vfsRead_eq {inode : NodePtr} {contents : List UInt8} (hfile : RegularFile fs inode contents)
    (hinode : file.inode = some inode) (hops : file.fOps = some ramfsFileFops)
    (hoff : file.offset ≤ contents.length) (buffer : ℕ → UInt8) (size count : ℕ) :
    vfsRead fs (some file) (some buffer) size (some count) =
      ⟨0, some { file with offset := file.offset + min size (contents.length - file.offset) },
        some (copied contents file.offset (min size (contents.length - file.offset)) buffer),
        some (min size (contents.length - file.offset))⟩ := by
  rw [← ramfsRead_eq hfile hoff buffer size 0]
  simp [vfsRead, hinode, hfile.type, hops, ramfsFileFops]

/-- What has been received through an object is what its file has before the offset. -/
structure Sound (fs : Ramfs) (file : VfsFile) (bytes : List UInt8) : Prop where
  fOps : ∀ inode, file.inode = some inode → file.fOps = (fs.node inode).fOps
  offset : ∀ inode contents, file.inode = some inode → RegularFile fs inode contents →
    file.offset ≤ contents.length ∧ bytes = contents.take file.offset

theorem Sound.cleared (bytes : List UInt8) : Sound fs clearedFile bytes := ⟨nofun, nofun⟩

theorem Sound.opened (inode : NodePtr) :
    Sound fs ⟨some inode, 0, (fs.node inode).fOps, none⟩ [] := by
  refine ⟨fun inode' h => ?_, fun inode' contents h _ => ⟨Nat.zero_le _, by simp⟩⟩
  obtain rfl := Option.some.inj h
  rfl

/-- The arguments and the state that `vfs_open` accepts before it clears the object. -/
def OpenAccepted (v : Vfs) (path : Option CString) : Prop :=
  path ≠ none ∧ v.ready = true ∧ v.root ≠ none

/-- What `vfs_open` leaves in the object: what was there, nothing, or the beginning of a file. -/
theorem vfsOpen_cases {v : Vfs} {path : Option CString} {r : ℤ × Option VfsFile}
    (h : vfsOpen v path (some file) = .ok r) :
    ¬OpenAccepted v path ∧ r = (-Errno.inval, some file) ∨
      OpenAccepted v path ∧ (r.2 = some clearedFile ∨
        ∃ inode, r = (0, some ⟨some inode, 0, (v.node inode).fOps, none⟩)) := by
  unfold vfsOpen at h
  split at h
  next path' _ root hroot =>
    split_ifs at h with hready
    · exact .inl ⟨fun hacc => by simp [hacc.2.1] at hready, (Except.ok.inj h).symm⟩
    · refine .inr ⟨⟨by simp, by simpa using hready, by simp [hroot]⟩, ?_⟩
      dsimp only at h
      split_ifs at h
      · exact .inl (by rw [← Except.ok.inj h])
      · split at h
        · exact .inl (by rw [← Except.ok.inj h])
        · cases h
        next inode _ => exact .inr ⟨inode, (Except.ok.inj h).symm⟩
  next hnull =>
    refine .inl ⟨?_, (Except.ok.inj h).symm⟩
    rintro ⟨hpath, -, hroot⟩
    obtain ⟨path', rfl⟩ := Option.ne_none_iff_exists'.mp hpath
    obtain ⟨root, hroot⟩ := Option.ne_none_iff_exists'.mp hroot
    exact hnull path' file root rfl rfl hroot

/-- Only the offset of an object moves when it is read from. -/
theorem vfsRead_file (fs : Ramfs) (file : VfsFile) (buffer : Option (ℕ → UInt8)) (size : ℕ)
    (readSize : Option ℕ) :
    ∃ offset, (vfsRead fs (some file) buffer size readSize).file = some { file with offset } := by
  unfold vfsRead
  cases buffer with
  | none => exact ⟨file.offset, rfl⟩
  | some bytes =>
    cases readSize with
    | none => exact ⟨file.offset, rfl⟩
    | some count =>
      dsimp only [Option.map_some]
      split
      · exact ⟨file.offset, rfl⟩
      · split_ifs
        · exact ⟨file.offset, rfl⟩
        · split
          · exact ⟨file.offset, rfl⟩
          · split_ifs
            · exact ⟨file.offset, rfl⟩
            · unfold ramfsRead
              split
              · exact ⟨file.offset, rfl⟩
              · split
                · exact ⟨file.offset, rfl⟩
                · split_ifs
                  · exact ⟨file.offset, rfl⟩
                  · exact ⟨_, rfl⟩

theorem vfsReaddir_file (fs : Ramfs) (file : VfsFile) (dirent : Option VfsDirent) :
    ∃ offset, (vfsReaddir fs (some file) dirent).2.1 = some { file with offset } ∧
      ∀ inode, file.inode = some inode → (fs.node inode).type = .regular →
        offset = file.offset := by
  unfold vfsReaddir
  cases dirent with
  | none => exact ⟨file.offset, rfl, fun _ _ _ => rfl⟩
  | some entry =>
    dsimp only
    split
    · exact ⟨file.offset, rfl, fun _ _ _ => rfl⟩
    next inode hinode =>
      split_ifs with htype
      · exact ⟨file.offset, rfl, fun _ _ _ => rfl⟩
      · have hdir (inode' : NodePtr) (h : file.inode = some inode')
            (hreg : (fs.node inode').type = .regular) (n : ℕ) : n = file.offset := by
          obtain rfl := Option.some.inj (hinode.symm.trans h)
          rw [hreg] at htype
          exact absurd (nofun : NodeType.regular ≠ .directory) htype
        split
        · exact ⟨file.offset, rfl, fun _ _ _ => rfl⟩
        · split_ifs
          · exact ⟨file.offset, rfl, fun _ _ _ => rfl⟩
          · unfold ramfsReaddir
            split
            · exact ⟨file.offset, rfl, fun _ _ _ => rfl⟩
            · split
              · exact ⟨_, rfl, fun inode' h hreg => hdir inode' h hreg _⟩
              · exact ⟨file.offset, rfl, fun _ _ _ => rfl⟩

theorem map_copied {contents : List UInt8} {offset n : ℕ} (h : n ≤ contents.length - offset)
    (buffer : ℕ → UInt8) : (List.range n).map (copied contents offset n buffer) =
      (contents.drop offset).take n := by
  refine List.ext_getElem (by simp; omega) fun i h₁ h₂ => ?_
  have hi : i < n := by simpa using h₁
  have hlen : offset + i < contents.length := by omega
  simp [copied, hi, hlen]

/-- One call keeps what has been received in step with the offset. -/
theorem Sound.serve {bytes : List UInt8} (h : Sound fs file bytes)
    (hserve : serve fs file call = .ok (file', reply)) : Sound fs file' (receive bytes reply) := by
  cases call with
  | vfsOpen path =>
    obtain ⟨r, hopen, hr⟩ := Runs.map_ok hserve
    obtain ⟨rfl, rfl⟩ := Prod.mk.inj hr
    rcases vfsOpen_cases hopen with ⟨-, rfl⟩ | ⟨-, hcleared | ⟨inode, rfl⟩⟩
    · exact h
    · rw [hcleared]
      exact .cleared _
    · exact .opened inode
  | vfsRead buffer size readSize =>
    obtain ⟨rfl, rfl⟩ := Prod.mk.inj (Except.ok.inj hserve)
    obtain ⟨offset, hafter⟩ := vfsRead_file fs file buffer size readSize
    refine ⟨fun inode hinode => ?_, fun inode contents hinode hfile => ?_⟩
    · simp only [hafter, Option.getD_some] at hinode ⊢
      exact h.fOps inode hinode
    · replace hinode : file.inode = some inode := by
        simpa only [hafter, Option.getD_some] using hinode
      obtain ⟨hoff, hbytes⟩ := h.offset inode contents hinode hfile
      cases buffer with
      | none => exact ⟨hoff, hbytes⟩
      | some buffer =>
        cases readSize with
        | none => exact ⟨hoff, hbytes⟩
        | some count =>
          have hops : file.fOps = some ramfsFileFops := (h.fOps inode hinode).trans hfile.fOps
          simp only [vfsRead_eq hfile hinode hops hoff, Option.getD_some, receive, hbytes]
          rw [map_copied (Nat.min_le_right _ _), ← List.take_add]
          exact ⟨by omega, rfl⟩
  | vfsReaddir dirent =>
    obtain ⟨rfl, rfl⟩ := Prod.mk.inj (Except.ok.inj hserve)
    obtain ⟨offset, hafter, hsame⟩ := vfsReaddir_file fs file dirent
    rw [hafter]
    refine ⟨h.fOps, fun inode contents hinode hfile => ?_⟩
    rw [Option.getD_some, hsame inode hinode hfile.type]
    exact h.offset inode contents hinode hfile
  | vfsClose =>
    obtain ⟨rfl, rfl⟩ := Prod.mk.inj (Except.ok.inj hserve)
    by_cases hnone : file.inode = none
    · simpa [vfsClose, hnone, receive] using h
    · simpa [vfsClose, hnone] using .cleared _

/-! ### Sequences of calls -/

theorem ofFile_cons_self {α : Type} (f : FilePtr) (x : α) (l : List (FilePtr × α)) :
    ofFile f ((f, x) :: l) = (f, x) :: ofFile f l := by simp [ofFile]

theorem ofFile_cons_of_ne {α : Type} {f g : FilePtr} (h : g ≠ f) (x : α) (l : List (FilePtr × α)) :
    ofFile f ((g, x) :: l) = ofFile f l := by simp [ofFile, h]

/-- The first call and the rest. -/
theorem serveAll_cons {files files' : Files} {f : FilePtr} {calls : List (FilePtr × FileCall)}
    {replies : List (FilePtr × FileReply)}
    (h : serveAll fs files ((f, call) :: calls) = .ok (files', replies)) :
    ∃ file reply others, serve fs (files f) call = .ok (file, reply) ∧
      serveAll fs (Function.update files f file) calls = .ok (files', others) ∧
      replies = (f, reply) :: others := by
  obtain ⟨⟨file, reply⟩, hserve, hall⟩ := Runs.bind_ok h
  obtain ⟨⟨last, others⟩, hrest, hpair⟩ := Runs.map_ok hall
  obtain ⟨rfl, rfl⟩ := Prod.mk.inj hpair
  exact ⟨file, reply, others, hserve, hrest, rfl⟩

/-- A sequence of calls seen from one object: the calls on the others might as well not be there. -/
theorem serveAll_ofFile {files files' rest : Files} {calls : List (FilePtr × FileCall)}
    {replies : List (FilePtr × FileReply)} {f : FilePtr}
    (h : serveAll fs files calls = .ok (files', replies)) (hf : rest f = files f) :
    ∃ rest', serveAll fs rest (ofFile f calls) = .ok (rest', ofFile f replies) ∧
      rest' f = files' f := by
  induction calls generalizing files rest replies with
  | nil =>
    obtain ⟨rfl, rfl⟩ := Prod.mk.inj (Except.ok.inj h)
    exact ⟨rest, rfl, hf⟩
  | cons entry calls ih =>
    obtain ⟨g, call⟩ := entry
    obtain ⟨file, reply, others, hserve, hrest, rfl⟩ := serveAll_cons h
    by_cases hg : g = f
    · subst hg
      obtain ⟨rest', hrun, hlast⟩ := @ih _ (Function.update rest g file) _ hrest (by simp)
      refine ⟨rest', ?_, hlast⟩
      rw [ofFile_cons_self, ofFile_cons_self, serveAll, hf, hserve, Except.bind, hrun]
      rfl
    · have hkeep : rest f = Function.update files g file f := by
        rw [Function.update_of_ne (Ne.symm hg), hf]
      obtain ⟨rest', hrun, hlast⟩ := ih hrest hkeep
      refine ⟨rest', ?_, hlast⟩
      rw [ofFile_cons_of_ne hg, ofFile_cons_of_ne hg, hrun]

/-- What every object has received after a sequence of calls. -/
theorem Sound.serveAll {files files' : Files} {calls : List (FilePtr × FileCall)}
    {replies : List (FilePtr × FileReply)} {bytes : FilePtr → List UInt8}
    (h : ∀ f, Sound fs (files f) (bytes f))
    (hall : serveAll fs files calls = .ok (files', replies)) (f : FilePtr) :
    Sound fs (files' f) (((ofFile f replies).map Prod.snd).foldl receive (bytes f)) := by
  induction calls generalizing files bytes replies with
  | nil =>
    obtain ⟨rfl, rfl⟩ := Prod.mk.inj (Except.ok.inj hall)
    exact h f
  | cons entry calls ih =>
    obtain ⟨g, call⟩ := entry
    obtain ⟨file, reply, others, hserve, hrest, rfl⟩ := serveAll_cons hall
    have hnext (f : FilePtr) : Sound fs (Function.update files g file f)
        (Function.update bytes g (receive (bytes g) reply) f) := by
      by_cases hf : f = g
      · subst hf
        rw [Function.update_self, Function.update_self]
        exact (h f).serve hserve
      · rw [Function.update_of_ne hf, Function.update_of_ne hf]
        exact h f
    have hlast := ih hnext hrest
    by_cases hf : f = g
    · subst hf
      rw [Function.update_self] at hlast
      rwa [ofFile_cons_self]
    · rw [Function.update_of_ne hf] at hlast
      rwa [ofFile_cons_of_ne (Ne.symm hf)]

end

/-- Any calls on any objects return. Through an object on a regular file, the bytes received since
it was opened are those of the file before its offset, and the next read returns the bytes that
follow, as many as were asked for and are left, leaving the rest of the buffer alone. The replies
on an object and its state are those of its own calls alone. -/
theorem reads_reassemble (fs : Ramfs) (calls : List (FilePtr × FileCall)) :
    ∃ files replies, serveAll fs noneOpen calls = .ok (files, replies) ∧ ∀ f,
      (∃ alone, serveAll fs noneOpen (ofFile f calls) = .ok (alone, ofFile f replies) ∧
        alone f = files f) ∧
      ∀ inode contents, (files f).inode = some inode → RegularFile fs inode contents →
        (files f).offset ≤ contents.length ∧
        received f replies = contents.take (files f).offset ∧
        ∀ buffer size readSize, ∃ count, count = min size (contents.length - (files f).offset) ∧
          vfsRead fs (some (files f)) (some buffer) size (some readSize) =
            ⟨0, some { files f with offset := (files f).offset + count },
              some fun i => if i < count then contents.getD ((files f).offset + i) 0 else buffer i,
              some count⟩ := by
  obtain ⟨⟨files, replies⟩, hrun⟩ := serveAll_returns fs noneOpen calls
  refine ⟨files, replies, hrun, fun f => ⟨serveAll_ofFile hrun rfl, fun inode contents hi hfile => ?_⟩⟩
  have hsound : Sound fs (files f) (received f replies) :=
    Sound.serveAll (fun _ => .cleared []) hrun f
  obtain ⟨hoff, hbytes⟩ := hsound.offset inode contents hi hfile
  refine ⟨hoff, hbytes, fun buffer size readSize => ⟨_, rfl, ?_⟩⟩
  exact vfsRead_eq hfile hi ((hsound.fOps inode hi).trans hfile.fOps) hoff buffer size readSize

/-! ### The built-in files -/

def helloData : List UInt8 := cstring "hello from ramfs\n"
def configData : List UInt8 := cstring "rootfs=ramfs\nstage=06-storage-vfs\n"

/-- The built-in nodes with their sizes and payloads. -/
def ramfs : Ramfs where
  toVfs := ramfsInit
  size
    | 1 => 2
    | 2 => helloData.length
    | 3 => 1
    | _ => configData.length
  data
    | 1 => none
    | 2 => some fun i => helloData.getD i 0
    | 3 => none
    | _ => some fun i => configData.getD i 0

theorem ramfs_hello : RegularFile ramfs 2 helloData :=
  ⟨rfl, rfl, rfl, rfl, _, rfl, fun _ _ => rfl⟩

def helloPath : CString := ⟨cstring "/hello.txt", by decide⟩

/-- Two objects on one file: what the first has received is not what the second will get. -/
theorem reads_reassemble_hello : ∃ files replies,
    serveAll ramfs noneOpen [(0, .vfsOpen (some helloPath)), (1, .vfsOpen (some helloPath)),
      (0, .vfsRead (some fun _ => 0) 5 (some 0))] = .ok (files, replies) ∧
    received 0 replies = cstring "hello" ∧ received 1 replies = [] := by
  obtain ⟨files, replies, hrun, h⟩ := reads_reassemble ramfs
    [(0, .vfsOpen (some helloPath)), (1, .vfsOpen (some helloPath)),
      (0, .vfsRead (some fun _ => 0) 5 (some 0))]
  have hfiles : (files 0 = ⟨some 2, 5, some ramfsFileFops, none⟩) ∧
      files 1 = ⟨some 2, 0, some ramfsFileFops, none⟩ := by
    obtain ⟨rfl, -⟩ := Prod.mk.inj (Except.ok.inj hrun)
    exact ⟨rfl, rfl⟩
  obtain ⟨-, hfirst, -⟩ := (h 0).2 2 helloData (by rw [hfiles.1]) ramfs_hello
  obtain ⟨-, hsecond, -⟩ := (h 1).2 2 helloData (by rw [hfiles.2]) ramfs_hello
  refine ⟨files, replies, hrun, ?_, ?_⟩
  · rw [hfirst, hfiles.1]
    rfl
  · rw [hsecond, hfiles.2]
    rfl

/-! ### Opens that fail -/

/-- The closed state, with what the calls that may follow do in it. -/
structure Closed (file : VfsFile) : Prop where
  inode : file.inode = none
  fOps : file.fOps = none
  privateData : file.privateData = none
  offset : file.offset = 0
  read : ∀ fs buffer size readSize,
    (vfsRead fs (some file) buffer size readSize).ret = -Errno.inval ∧
      (vfsRead fs (some file) buffer size readSize).file = some file
  readdir : ∀ fs dirent, vfsReaddir fs (some file) dirent = (-Errno.inval, some file, dirent)
  close : vfsClose (some file) = some file

theorem closed_clearedFile : Closed clearedFile where
  inode := rfl
  fOps := rfl
  privateData := rfl
  offset := rfl
  read fs buffer size readSize := by cases buffer <;> cases readSize <;> exact ⟨rfl, rfl⟩
  readdir fs dirent := by cases dirent <;> rfl
  close := rfl

theorem Closed.eq_clearedFile {file : VfsFile} (h : Closed file) : file = clearedFile := by
  obtain ⟨inode, offset, fOps, privateData⟩ := file
  obtain ⟨rfl, rfl, rfl, rfl, -, -, -⟩ := h
  rfl

/-- `vfs_open` returns, and when it fails leaves a closed object, exactly if the path is not null
and a root is mounted, or the object was closed before. -/
theorem failed_open_closes_iff (fs : Vfs) (path : Option CString) (file : VfsFile) :
    (∃ ret after, vfsOpen fs path (some file) = .ok (ret, some after) ∧ (ret ≠ 0 → Closed after)) ↔
      path ≠ none ∧ fs.ready = true ∧ fs.root ≠ none ∨ file = clearedFile := by
  obtain ⟨⟨ret, after⟩, hopen⟩ := vfsOpen_returns fs path (some file)
  have hcases := vfsOpen_cases hopen
  constructor
  · rintro ⟨ret', after', hopen', hclosed⟩
    obtain ⟨rfl, rfl⟩ := Prod.mk.inj (Except.ok.inj (hopen.symm.trans hopen'))
    rcases hcases with ⟨-, hkept⟩ | ⟨haccepted, -⟩
    · obtain ⟨rfl, hafter⟩ := Prod.mk.inj hkept
      obtain rfl := Option.some.inj hafter
      exact .inr (hclosed (by decide)).eq_clearedFile
    · exact .inl haccepted
  · intro hcond
    rcases hcases with ⟨hrefused, hkept⟩ | ⟨-, hcleared | ⟨inode, hnew⟩⟩
    · obtain ⟨rfl, rfl⟩ := Prod.mk.inj hkept
      obtain rfl := hcond.resolve_left hrefused
      exact ⟨_, _, hopen, fun _ => closed_clearedFile⟩
    · obtain rfl : after = some clearedFile := hcleared
      exact ⟨_, _, hopen, fun _ => closed_clearedFile⟩
    · obtain ⟨rfl, rfl⟩ := Prod.mk.inj hnew
      exact ⟨_, _, hopen, fun hne => absurd rfl hne⟩

/-- An object on `/hello.txt` at offset 5 is opened again with a null path: the call fails, and the
object can still be read. -/
theorem null_path_leaves_open :
    vfsOpen ramfs.toVfs none (some ⟨some 2, 5, some ramfsFileFops, none⟩) =
        .ok (-Errno.inval, some ⟨some 2, 5, some ramfsFileFops, none⟩) ∧
      (vfsRead ramfs (some ⟨some 2, 5, some ramfsFileFops, none⟩) (some fun _ => 0) 4 (some 0)).ret =
        0 ∧
      ¬Closed ⟨some 2, 5, some ramfsFileFops, none⟩ :=
  ⟨rfl, rfl, fun h => absurd h.offset (by decide)⟩

end Tianole.Fs
