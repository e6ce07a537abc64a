import Mathlib.Data.List.Basic
import Mathlib.Data.List.Nodup
import Mathlib.Tactic.SplitIfs
import Tianole.Fs.File

/-! Enumerating a directory and opening what was enumerated. -/
namespace Tianole.Fs

/-- The string in the name buffer of an entry. -/
def VfsDirent.text (dirent : VfsDirent) : List UInt8 :=
  ((List.range vfsNameMax).map dirent.name).takeWhile (· ≠ 0)

/-- Repeated `vfs_readdir` on one object, each call with an entry of its own to fill. -/
def readdirAll (fs : Ramfs) (file : VfsFile) : List VfsDirent → List (ℤ × VfsDirent)
  | [] => []
  | dirent :: rest =>
      let r := vfsReaddir fs (some file) (some dirent)
      (r.1, r.2.2.getD dirent) :: readdirAll fs (r.2.1.getD file) rest

/-- The path `dir/name`. -/
def CString.below (dir name : CString) : CString where
  bytes := dir.bytes ++ slash :: name.bytes
  noNul := by
    simp only [List.mem_append, List.mem_cons, not_or]
    exact ⟨dir.noNul, by decide, name.noNul⟩

/-- A mounted tree whose directories can be enumerated and whose names fit into an entry. -/
structure Browsable (fs : Ramfs) (root : Tree) (addr : List Name → NodePtr) : Prop
    extends Mounted fs.toVfs root addr where
  dirFops : ∀ pos entries, root.get pos = some (.dir entries) →
    (fs.node (addr pos)).fOps = some ramfsDirFops
  names : ∀ pos entries, root.get pos = some (.dir entries) → ∀ name ∈ entries.map Prod.fst,
    name.length ≤ 63 ∧ name ≠ [dot] ∧ name ≠ [dot, dot]

section
variable {fs : Ramfs} {root : Tree} {addr : List Name → NodePtr} {pos : List Name} {name : Name}
  {path : CString} {src : CString}

/-! ### Names in entries -/

theorem CString.ext {a b : CString} (h : a.bytes = b.bytes) : a = b := by
  cases a
  cases b
  cases h
  rfl

theorem CString.get_ne_zero {index : ℕ} : src.get index ≠ 0 ↔ index < src.bytes.length := by
  constructor
  · intro hne
    by_contra hge
    exact hne (get_of_length_le (Nat.not_lt.mp hge))
  · intro hlt hzero
    refine src.noNul (hzero ▸ ?_)
    simp [CString.get, hlt]

/-- The terminator goes where the name ends. -/
theorem update_terminator {i : ℕ} {dest : ℕ → UInt8} :
    Function.update dest src.bytes.length 0 i = if i < src.bytes.length then dest i
      else if i ≤ src.bytes.length then src.get i else dest i := by
  by_cases hi : i = src.bytes.length
  · rw [hi, Function.update_self, if_neg (Nat.lt_irrefl _), if_pos (Nat.le_refl _),
      get_of_length_le (Nat.le_refl _)]
  · rw [Function.update_of_ne hi]
    split_ifs <;> first | rfl | omega

theorem copyNameLoop_apply {n index i : ℕ} {dest : ℕ → UInt8}
    (hfit : src.bytes.length ≤ index + n) (hindex : index ≤ src.bytes.length) :
    copyNameLoop src n index dest i = if i < index then dest i
      else if i ≤ src.bytes.length then src.get i else dest i := by
  induction n generalizing index dest with
  | zero =>
    obtain rfl : index = src.bytes.length := by omega
    exact update_terminator
  | succ n ih =>
    rw [copyNameLoop]
    by_cases hlt : index < src.bytes.length
    · rw [if_pos (CString.get_ne_zero.mpr hlt), ih (by omega) (by omega)]
      by_cases hi : i = index
      · subst hi
        rw [if_pos (by omega), Function.update_self, if_neg (by omega), if_pos hindex]
      · rw [Function.update_of_ne hi]
        split_ifs <;> first | rfl | omega
    · obtain rfl : index = src.bytes.length := by omega
      rw [if_neg fun h => hlt (CString.get_ne_zero.mp h)]
      exact update_terminator

/-- A name of up to 63 bytes survives the copy into an entry. -/
theorem text_copyName (hlen : src.bytes.length ≤ 63) (dest : ℕ → UInt8) (type : NodeType)
    (size : ℕ) : VfsDirent.text ⟨ramfsCopyName dest src, type, size⟩ = src.bytes := by
  have hcopy (i : ℕ) (hi : i ≤ src.bytes.length) : ramfsCopyName dest src i = src.get i := by
    rw [ramfsCopyName, copyNameLoop_apply (by simpa [vfsNameMax] using hlen) (Nat.zero_le _),
      if_neg (Nat.not_lt_zero i), if_pos hi]
  -- The buffer is the name, the terminator and what was there before.
  have hsplit : vfsNameMax = src.bytes.length + 1 + (63 - src.bytes.length) := by
    simp only [vfsNameMax]
    omega
  have hname : (List.range src.bytes.length).map (ramfsCopyName dest src) = src.bytes := by
    refine List.ext_getElem (by simp) fun i h₁ h₂ => ?_
    simp [hcopy i (Nat.le_of_lt h₂), CString.get, h₂]
  have hzero : ramfsCopyName dest src src.bytes.length = 0 := by
    rw [hcopy _ (Nat.le_refl _), get_of_length_le (Nat.le_refl _)]
  have hall : ∀ b ∈ src.bytes, decide (b ≠ 0) = true := by
    intro b hb
    exact decide_eq_true fun h => src.noNul (h ▸ hb)
  rw [VfsDirent.text, hsplit, List.range_add, List.range_succ, List.append_assoc, List.map_append,
    hname, List.takeWhile_append_of_pos hall, List.map_append, List.map_singleton]
  simp [hzero]

/-! ### Enumeration -/

theorem ramfsReaddir_eq {inode : NodePtr} (hdata : (fs.node inode).privateData = some inode)
    {listing : List (CString × NodePtr)}
    (htable : (fs.node inode).children = listing.map fun e => (e.1, some e.2)) (file : VfsFile)
    (dirent : VfsDirent) :
    ramfsReaddir fs file inode dirent = match listing[file.offset]? with
      | some (name, child) => (0, { file with offset := file.offset + 1 },
          ⟨ramfsCopyName dirent.name name, (fs.node child).type, fs.size child⟩)
      | none => (-Errno.noent, file, dirent) := by
  simp only [ramfsReaddir, hdata, htable, List.getElem?_map]
  cases listing[file.offset]? with
  | none => rfl
  | some e => rfl

/-- An object on a directory with the table `listing`. -/
structure OnDirectory (fs : Ramfs) (file : VfsFile) (listing : List (CString × NodePtr)) :
    Prop where
  fOps : file.fOps = some ramfsDirFops
  inode : ∃ inode, file.inode = some inode ∧ (fs.node inode).type = .directory ∧
    (fs.node inode).privateData = some inode ∧
    (fs.node inode).children = listing.map fun e => (e.1, some e.2)

theorem vfsReaddir_eq {file : VfsFile} {listing : List (CString × NodePtr)}
    (hon : OnDirectory fs file listing) (dirent : VfsDirent) :
    vfsReaddir fs (some file) (some dirent) = match listing[file.offset]? with
      | some (name, child) => (0, some { file with offset := file.offset + 1 },
          some ⟨ramfsCopyName dirent.name name, (fs.node child).type, fs.size child⟩)
      | none => (-Errno.noent, some file, some dirent) := by
  obtain ⟨inode, hinode, htype, hdata, htable⟩ := hon.inode
  have hcall : vfsReaddir fs (some file) (some dirent) =
      ((ramfsReaddir fs file inode dirent).1, some (ramfsReaddir fs file inode dirent).2.1,
        some (ramfsReaddir fs file inode dirent).2.2) := by
    simp [vfsReaddir, hinode, htype, hon.fOps, ramfsDirFops]
  rw [hcall, ramfsReaddir_eq hdata htable]
  cases listing[file.offset]? with
  | none => rfl
  | some e => rfl

/-- What the `i`-th of several calls returns: the next entry of the table while there is one. -/
theorem readdirAll_getElem? {file : VfsFile} {listing : List (CString × NodePtr)}
    (hon : OnDirectory fs file listing) (dirents : List VfsDirent) (i : ℕ) :
    (readdirAll fs file dirents)[i]? = dirents[i]?.map fun dirent =>
      match listing[file.offset + i]? with
      | some (name, child) =>
          (0, ⟨ramfsCopyName dirent.name name, (fs.node child).type, fs.size child⟩)
      | none => (-Errno.noent, dirent) := by
  induction dirents generalizing file i with
  | nil => rfl
  | cons dirent rest ih =>
    rw [readdirAll, vfsReaddir_eq hon]
    cases hnext : listing[file.offset]? with
    | none =>
      cases i with
      | zero => simp [hnext]
      | succ i =>
        -- The end of the table is not passed.
        have hend : listing[file.offset + (i + 1)]? = none := by
          rw [List.getElem?_eq_none_iff] at hnext ⊢
          omega
        have hend' : listing[file.offset + i]? = none := by
          rw [List.getElem?_eq_none_iff] at hnext ⊢
          omega
        simp only [List.getElem?_cons_succ, Option.getD_some, ih hon, hend, hend']
    | some e =>
      cases i with
      | zero => simp [hnext]
      | succ i =>
        have hon' : OnDirectory fs { file with offset := file.offset + 1 } listing :=
          ⟨hon.fOps, hon.inode⟩
        simp only [List.getElem?_cons_succ, Option.getD_some, ih hon', Nat.add_assoc,
          Nat.add_comm 1 i]

/-! ### Opening what lies below a directory -/

theorem components_concat (l : List UInt8) (hslash : slash ∉ name) (hne : name ≠ []) :
    components (l ++ slash :: name) = components l ++ [name] := by
  have hname : components name = [name] := by
    simpa [components] using components_append (l := []) hslash hne (.inl rfl)
  rw [components, List.splitOnP_append_cons l name (by simp), List.filter_append]
  exact congrArg _ hname

theorem resolve_concat (pos names : List Name) (name : Name) :
    resolve root pos (names ++ [name]) =
      (resolve root pos names).bind fun pos => resolveStep root pos name := by
  induction names generalizing pos with
  | nil =>
    change (resolveStep root pos name).bind _ = resolveStep root pos name
    cases resolveStep root pos name <;> rfl
  | cons first names ih =>
    simp only [List.cons_append, resolve]
    cases resolveStep root pos first with
    | error ret => rfl
    | ok pos => exact ih pos

theorem resolve_isSome {names pos' : List Name} (h : (root.get pos).isSome)
    (hr : resolve root pos names = .ok pos') : (root.get pos').isSome := by
  induction names generalizing pos with
  | nil => exact Except.ok.inj hr ▸ h
  | cons name names ih =>
    obtain ⟨next, hstep, hrest⟩ := Runs.bind_ok hr
    exact ih (resolveStep_isSome h hstep) hrest

theorem resolve_error_ne_zero {names : List Name} {ret : ℤ}
    (hr : resolve root pos names = .error ret) : ret ≠ 0 := by
  induction names generalizing pos with
  | nil => cases hr
  | cons name names ih =>
    rcases Runs.bind_error hr with hstep | ⟨next, -, hrest⟩
    · unfold resolveStep at hstep
      split at hstep
      · cases hstep
        decide
      · split at hstep
        · split_ifs at hstep
          cases hstep
          decide
        · cases hstep
          decide
    · exact ih hrest

/-- A path that was opened is not refused and leads to a node of the tree. -/
theorem vfsOpen_ok (hm : Browsable fs root addr) {old file : VfsFile}
    (h : vfsOpen fs.toVfs (some path) (some old) = .ok (0, some file)) :
    path.bytes.head? = some slash ∧ ∃ pos, (root.get pos).isSome ∧
      resolve root [] (components path.bytes) = .ok pos ∧
      file = ⟨some (addr pos), 0, (fs.node (addr pos)).fOps, none⟩ := by
  by_cases hbad : path.bytes.head? ≠ some slash ∨ 256 ≤ path.bytes.length
  · rw [vfsOpen_refused hm.toMounted hbad] at h
    exact absurd (congrArg Prod.fst (Except.ok.inj h)) (by decide : (-Errno.inval : ℤ) ≠ 0)
  · obtain ⟨hhead, hshort⟩ := not_or.mp hbad
    have hhead := not_not.mp hhead
    rw [vfsOpen_walk hm.toMounted hhead (Nat.not_le.mp hshort)] at h
    cases hres : resolve root [] (components path.bytes) with
    | error ret =>
      rw [hres] at h
      exact absurd (congrArg Prod.fst (Except.ok.inj h)) (resolve_error_ne_zero hres)
    | ok pos =>
      rw [hres] at h
      have hfile := Option.some.inj (congrArg Prod.snd (Except.ok.inj h))
      exact ⟨hhead, pos, resolve_isSome rfl hres, rfl, hfile.symm⟩

/-- Opening `path/name` takes one more step than opening `path`. -/
theorem vfsOpen_below (hm : Browsable fs root addr) (hhead : path.bytes.head? = some slash)
    (hres : resolve root [] (components path.bytes) = .ok pos) {name : CString}
    (hslash : slash ∉ name.bytes) (hne : name.bytes ≠ []) (hshort : (path.below name).strlen < 256)
    (old : VfsFile) :
    vfsOpen fs.toVfs (some (path.below name)) (some old) =
      .ok (match resolveStep root pos name.bytes with
        | .error ret => (ret, some clearedFile)
        | .ok pos => (0, some ⟨some (addr pos), 0, (fs.node (addr pos)).fOps, none⟩)) := by
  have hhead' : (path.below name).bytes.head? = some slash := by
    obtain ⟨rest, hbytes⟩ := List.head?_eq_some_iff.mp hhead
    simp [CString.below, hbytes]
  have hcomp : components (path.below name).bytes = components path.bytes ++ [name.bytes] :=
    components_concat path.bytes hslash hne
  rw [vfsOpen_walk hm.toMounted hhead' hshort, hcomp, resolve_concat, hres]
  rfl

theorem resolveStep_name {entries : List (Name × Tree)} (hget : root.get pos = some (.dir entries))
    (hlen : name.length ≤ 63) (hdot : name ≠ [dot]) (hdotdot : name ≠ [dot, dot]) :
    resolveStep root pos name = if name ∈ entries.map Prod.fst then .ok (pos ++ [name])
      else .error (-Errno.noent) := by
  rw [resolveStep, if_neg (by simp only [vfsNameMax]; omega), hget]
  simp only [hdot, hdotdot, if_false]

/-- `listing` is the table of the directory at `pos`, with the nodes that it names. -/
structure Lists (fs : Ramfs) (addr : List Name → NodePtr) (pos : List Name)
    (entries : List (Name × Tree)) (listing : List (CString × NodePtr)) : Prop where
  table : (fs.node (addr pos)).children = listing.map (fun e => (e.1, some e.2))
  names : (listing.map fun e => e.1.bytes) = entries.map Prod.fst
  nodes : ∀ e ∈ listing, e.2 = addr (pos ++ [e.1.bytes])

theorem exists_listing (hm : Browsable fs root addr) {entries : List (Name × Tree)}
    (hget : root.get pos = some (.dir entries)) :
    ∃ listing, Lists fs addr pos entries listing := by
  obtain ⟨-, -, htable⟩ := hm.dir pos entries hget
  refine ⟨(fs.node (addr pos)).children.map fun e => (e.1, addr (pos ++ [e.1.bytes])),
    ?_, ?_, ?_⟩
  · have hnode : ∀ e ∈ (fs.node (addr pos)).children, e.2 = some (addr (pos ++ [e.1.bytes])) := by
      intro e he
      have hmem : (e.1.bytes, e.2) ∈
          (fs.node (addr pos)).children.map fun e => (e.1.bytes, e.2) := List.mem_map_of_mem he
      rw [htable] at hmem
      obtain ⟨f, -, hf⟩ := List.mem_map.mp hmem
      obtain ⟨hname, hchild⟩ := Prod.mk.inj hf
      rw [← hchild, hname]
    rw [List.map_map]
    conv_lhs => rw [← List.map_id (fs.node (addr pos)).children]
    exact List.map_congr_left fun e he => Prod.ext rfl (hnode e he)
  · have hnames := congrArg (List.map Prod.fst) htable
    simpa [List.map_map, Function.comp_def] using hnames
  · intro e he
    obtain ⟨c, -, rfl⟩ := List.mem_map.mp he
    rfl

theorem child_injective (hm : Browsable fs root addr) {entries : List (Name × Tree)}
    (hget : root.get pos = some (.dir entries)) {a b : Name} (ha : a ∈ entries.map Prod.fst)
    (hb : b ∈ entries.map Prod.fst) (h : addr (pos ++ [a]) = addr (pos ++ [b])) : a = b := by
  have hchild (name : Name) (hname : name ∈ entries.map Prod.fst) :
      (root.get (pos ++ [name])).isSome := by
    obtain ⟨hlen, hdot, hdotdot⟩ := hm.names pos entries hget name hname
    have hstep := resolveStep_name hget hlen hdot hdotdot
    rw [if_pos hname] at hstep
    exact resolveStep_isSome (by rw [hget]; rfl) hstep
  have hpos := hm.injective _ _ (hchild a ha) (hchild b hb) h
  simpa using hpos

namespace Lists
variable {entries : List (Name × Tree)} {listing : List (CString × NodePtr)} {entry : CString}
  {node : NodePtr}

theorem mem (h : Lists fs addr pos entries listing) (he : (entry, node) ∈ listing) :
    entry.bytes ∈ entries.map Prod.fst := by
  rw [← h.names]
  exact List.mem_map_of_mem he

theorem not_mem (h : Lists fs addr pos entries listing) (hout : entry ∉ listing.map Prod.fst) :
    entry.bytes ∉ entries.map Prod.fst := by
  rw [← h.names]
  intro hin
  obtain ⟨e, he, hbytes⟩ := List.mem_map.mp hin
  exact hout (CString.ext hbytes ▸ List.mem_map_of_mem he)

theorem nodup_names (h : Lists fs addr pos entries listing) (hn : (entries.map Prod.fst).Nodup) :
    (listing.map Prod.fst).Nodup := by
  have hcomp : (listing.map Prod.fst).map CString.bytes = entries.map Prod.fst := by
    rw [List.map_map]
    exact h.names
  exact (hcomp ▸ hn).of_map _

/-- Distinct names lead to distinct nodes. -/
theorem nodup_nodes (h : Lists fs addr pos entries listing) (hm : Browsable fs root addr)
    (hget : root.get pos = some (.dir entries)) (hn : (entries.map Prod.fst).Nodup) :
    (listing.map Prod.snd).Nodup := by
  have hmap : listing.map Prod.snd =
      (entries.map Prod.fst).map fun name => addr (pos ++ [name]) := by
    rw [← h.names, List.map_map]
    exact List.map_congr_left fun e he => h.nodes e he
  rw [hmap]
  exact hn.map_on fun a ha b hb => child_injective hm hget ha hb

/-- Every entry can be opened below the path of the directory. -/
theorem open_entry (h : Lists fs addr pos entries listing) (hm : Browsable fs root addr)
    (hget : root.get pos = some (.dir entries)) (hhead : path.bytes.head? = some slash)
    (hres : resolve root [] (components path.bytes) = .ok pos) (he : (entry, node) ∈ listing)
    (hshort : (path.below entry).strlen < 256) (old : VfsFile) :
    vfsOpen fs.toVfs (some (path.below entry)) (some old) =
      .ok (0, some ⟨some node, 0, (fs.node node).fOps, none⟩) := by
  have hmem := h.mem he
  obtain ⟨-, hvalid⟩ := hm.valid pos entries hget
  obtain ⟨hne, hslash⟩ := hvalid entry.bytes hmem
  obtain ⟨hlen, hdot, hdotdot⟩ := hm.names pos entries hget entry.bytes hmem
  have hnode : node = addr (pos ++ [entry.bytes]) := h.nodes _ he
  rw [vfsOpen_below hm hhead hres hslash hne hshort, resolveStep_name hget hlen hdot hdotdot,
    if_pos hmem, hnode]

end Lists

end

/-- Repeated `vfs_readdir` on an opened directory returns every entry of its table once and in
order, and then `-ENOENT`. The entries are the names that can be opened below the path: those
lead to distinct nodes, with the type and size of the entry, and any other name to `-ENOENT`. -/
theorem readdir_agrees_with_open {fs : Ramfs} {root : Tree} {addr : List Name → NodePtr}
    (hm : Browsable fs root addr) {path : CString} {old file : VfsFile} {inode : NodePtr}
    (hopen : vfsOpen fs.toVfs (some path) (some old) = .ok (0, some file))
    (hinode : file.inode = some inode) (hdir : (fs.node inode).type = .directory) :
    ∃ listing : List (CString × NodePtr),
      (fs.node inode).children = listing.map (fun e => (e.1, some e.2)) ∧
      (listing.map Prod.fst).Nodup ∧ (listing.map Prod.snd).Nodup ∧
      (∀ dirents i, i < dirents.length → ∀ name node, listing[i]? = some (name, node) →
        ∃ dirent : VfsDirent, (readdirAll fs file dirents)[i]? = some (0, dirent) ∧
          dirent.text = name.bytes ∧ dirent.type = (fs.node node).type ∧
          dirent.size = fs.size node) ∧
      (∀ dirents i dirent, dirents[i]? = some dirent → listing.length ≤ i →
        (readdirAll fs file dirents)[i]? = some (-Errno.noent, dirent)) ∧
      (∀ name node, (name, node) ∈ listing → (path.below name).strlen < 256 → ∀ old,
        vfsOpen fs.toVfs (some (path.below name)) (some old) =
          .ok (0, some ⟨some node, 0, (fs.node node).fOps, none⟩)) ∧
      ∀ name : CString, name ∉ listing.map Prod.fst → 1 ≤ name.strlen → name.strlen ≤ 63 →
        slash ∉ name.bytes → name.bytes ≠ [dot] → name.bytes ≠ [dot, dot] →
        (path.below name).strlen < 256 → ∀ old,
        vfsOpen fs.toVfs (some (path.below name)) (some old) =
          .ok (-Errno.noent, some clearedFile) := by
  obtain ⟨hhead, pos, hsome, hres, rfl⟩ := vfsOpen_ok hm hopen
  obtain rfl := Option.some.inj hinode
  -- The node is a directory of the tree.
  obtain ⟨entries, hget⟩ : ∃ entries, root.get pos = some (.dir entries) := by
    cases hget : root.get pos with
    | none => simp [hget] at hsome
    | some t =>
      cases t with
      | file contents => exact absurd (hdir.symm.trans (hm.file pos contents hget)) nofun
      | dir entries => exact ⟨entries, rfl⟩
  obtain ⟨listing, hlists⟩ := exists_listing hm hget
  obtain ⟨hnodup, -⟩ := hm.valid pos entries hget
  have hon : OnDirectory fs ⟨some (addr pos), 0, (fs.node (addr pos)).fOps, none⟩ listing :=
    ⟨hm.dirFops pos entries hget, addr pos, rfl, hdir, hm.privateData pos hsome, hlists.table⟩
  refine ⟨listing, hlists.table, hlists.nodup_names hnodup, hlists.nodup_nodes hm hget hnodup,
    ?_, ?_, ?_, ?_⟩
  · intro dirents i hi name node hnode
    refine ⟨_, ?_, text_copyName ?_ dirents[i].name _ _, rfl, rfl⟩
    · rw [readdirAll_getElem? hon, List.getElem?_eq_getElem hi, Nat.zero_add, hnode]
      rfl
    · exact (hm.names pos entries hget name.bytes (hlists.mem (List.mem_of_getElem? hnode))).1
  · intro dirents i dirent hdirent hi
    rw [readdirAll_getElem? hon, hdirent, Nat.zero_add, List.getElem?_eq_none hi]
    rfl
  · intro name node he hshort old
    exact hlists.open_entry hm hget hhead hres he hshort old
  · intro name hout hpos hlen hslash hdot hdotdot hshort old
    have hne : name.bytes ≠ [] := List.length_pos_iff.mp hpos
    rw [vfsOpen_below hm hhead hres hslash hne hshort, resolveStep_name hget hlen hdot hdotdot,
      if_neg (hlists.not_mem hout)]

theorem ramfs_browsable : Browsable ramfs ramfsTree ramfsAddr := by
  have hdir {pos : List Name} {entries : List (Name × Tree)}
      (h : ramfsTree.get pos = some (.dir entries)) : (pos = [] ∨ pos = [etcName.bytes]) := by
    rcases ramfs_positions (by rw [h]; rfl) with rfl | rfl | rfl | rfl
    · exact .inl rfl
    · cases Option.some.inj h
    · exact .inr rfl
    · cases Option.some.inj h
  refine ⟨ramfs_mounted, fun pos entries h => ?_, fun pos entries h => ?_⟩
  · rcases hdir h with rfl | rfl <;> rfl
  · rcases hdir h with rfl | rfl <;>
      · obtain rfl := Tree.dir.inj (Option.some.inj h)
        decide

def rootPath : CString := ⟨[slash], by decide⟩

/-- The entry `etc` of the root directory, opened as `//etc`. -/
theorem readdir_agrees_with_open_etc :
    vfsOpen ramfs.toVfs (some (rootPath.below etcName)) (some clearedFile) =
      .ok (0, some ⟨some 3, 0, some ramfsDirFops, none⟩) := by
  obtain ⟨listing, htable, -, -, -, -, hopen, -⟩ :=
    @readdir_agrees_with_open _ _ _ ramfs_browsable rootPath clearedFile _ _ rfl rfl rfl
  have hmem : (etcName, some 3) ∈ (ramfs.node 1).children := by decide
  rw [htable] at hmem
  obtain ⟨e, he, heq⟩ := List.mem_map.mp hmem
  obtain ⟨hname, hnode⟩ := Prod.mk.inj heq
  obtain rfl : e = (etcName, 3) := Prod.ext hname (Option.some.inj hnode)
  exact hopen etcName 3 he (by decide) clearedFile

end Tianole.Fs
