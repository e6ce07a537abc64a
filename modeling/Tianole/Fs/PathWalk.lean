import Mathlib.Data.List.Basic
import Mathlib.Data.List.GetD
import Mathlib.Tactic.SplitIfs
import Tianole.Fs.Vfs

/-! What paths mean, and that `vfs_open` gives them that meaning on every mounted tree. -/
namespace Tianole.Fs

/-! ### Trees and paths -/

abbrev Name := List UInt8

inductive Tree where
  | file (contents : List UInt8)
  | dir (entries : List (Name × Tree))

namespace Tree

def child : Tree → Name → Option Tree
  | file _, _ => none
  | dir entries, name => entries.lookup name

/-- The node that is reached from the root by a list of names. -/
def get (t : Tree) : List Name → Option Tree
  | [] => some t
  | name :: rest => (t.child name).bind fun t => t.get rest

/-- Names are distinct within a directory, not empty, and without slashes. -/
def Valid (root : Tree) : Prop :=
  ∀ pos entries, root.get pos = some (dir entries) → (entries.map Prod.fst).Nodup ∧
    ∀ name ∈ entries.map Prod.fst, name ≠ [] ∧ slash ∉ name

end Tree

/-- The maximal parts of a path without slashes. -/
def components (path : List UInt8) : List Name :=
  (path.splitOnP (· == slash)).filter (· ≠ [])

/-- Where one component leads from a node, or why it does not. -/
def resolveStep (root : Tree) (pos : List Name) (name : Name) : Except ℤ (List Name) :=
  if vfsNameMax ≤ name.length then .error (-Errno.nametoolong)
  else match root.get pos with
    | some (.dir entries) =>
        if name = [dot] then .ok pos
        else if name = [dot, dot] then .ok pos.dropLast
        else if name ∈ entries.map Prod.fst then .ok (pos ++ [name])
        else .error (-Errno.noent)
    | _ => .error (-Errno.notdir)

/-- Components are taken from left to right; the first that fails decides. -/
def resolve (root : Tree) (pos : List Name) : List Name → Except ℤ (List Name)
  | [] => .ok pos
  | name :: rest => (resolveStep root pos name).bind fun pos => resolve root pos rest

/-- The meaning of a path: a node of the tree or an error number. -/
def openPath (root : Tree) (path : CString) : Except ℤ (List Name) :=
  if path.bytes = [] ∨ path.bytes.head? ≠ some slash ∨ 256 ≤ path.bytes.length then
    .error (-Errno.inval)
  else resolve root [] (components path.bytes)

/-- The nodes of `fs` are those of the tree `root`, each at its own address. -/
structure Mounted (fs : Vfs) (root : Tree) (addr : List Name → NodePtr) : Prop where
  valid : root.Valid
  directory : ∃ entries, root = .dir entries
  ready : fs.ready = true
  rootAddr : fs.root = some (addr [])
  injective : ∀ pos pos', (root.get pos).isSome → (root.get pos').isSome → addr pos = addr pos' →
    pos = pos'
  privateData : ∀ pos, (root.get pos).isSome → (fs.node (addr pos)).privateData = some (addr pos)
  parent : ∀ pos, (root.get pos).isSome → (fs.node (addr pos)).parent = some (addr pos.dropLast)
  file : ∀ pos contents, root.get pos = some (.file contents) → (fs.node (addr pos)).type = .regular
  dir : ∀ pos entries, root.get pos = some (.dir entries) →
    (fs.node (addr pos)).type = .directory ∧ (fs.node (addr pos)).iOps = some ramfsDirIops ∧
      ((fs.node (addr pos)).children.map fun e => (e.1.bytes, e.2)) =
        entries.map fun e => (e.1, some (addr (pos ++ [e.1])))

section
variable {fs : Vfs} {root : Tree} {addr : List Name → NodePtr} {pos : List Name} {name : Name}
  {text : ℕ → UInt8} {path : CString}

theorem Tree.get_append (t : Tree) (p q : List Name) :
    t.get (p ++ q) = (t.get p).bind fun t => t.get q := by
  induction p generalizing t with
  | nil => rfl
  | cons name p ih =>
    rw [List.cons_append, get, get]
    cases t.child name with
    | none => rfl
    | some u => exact ih u

theorem Tree.get_dropLast (h : (root.get pos).isSome) : (root.get pos.dropLast).isSome := by
  rcases List.eq_nil_or_concat' pos with rfl | ⟨front, last, rfl⟩
  · exact h
  · rw [List.dropLast_concat]
    rw [Tree.get_append] at h
    cases hf : root.get front with
    | none => simp [hf] at h
    | some t => rfl

theorem lookup_isSome {entries : List (Name × Tree)} (h : name ∈ entries.map Prod.fst) :
    (entries.lookup name).isSome := by
  induction entries with
  | nil => simp at h
  | cons e entries ih =>
    rw [List.lookup_cons]
    cases hb : name == e.1 with
    | true => rfl
    | false =>
      have hne : name ≠ e.1 := by simpa using hb
      simp only [List.map_cons, List.mem_cons, hne, false_or] at h
      exact ih h

/-- A step stays within the tree. -/
theorem resolveStep_isSome {pos' : List Name} (h : (root.get pos).isSome)
    (hs : resolveStep root pos name = .ok pos') : (root.get pos').isSome := by
  unfold resolveStep at hs
  split at hs
  · cases hs
  · split at hs
    next entries hget =>
      split_ifs at hs with h₁ h₂ h₃
      · obtain rfl := Except.ok.inj hs
        exact h
      · obtain rfl := Except.ok.inj hs
        exact Tree.get_dropLast h
      · obtain rfl := Except.ok.inj hs
        rw [Tree.get_append, hget]
        have hl := lookup_isSome h₃
        simp only [Option.bind_some, Tree.get, Tree.child]
        cases hc : entries.lookup name with
        | none => simp [hc] at hl
        | some t => rfl
    next => cases hs

/-! ### One component -/

/-- The text that starts somewhere in a path begins with the component. -/
def Begins (text : ℕ → UInt8) (name : Name) : Prop := ∀ i < name.length, text i = name.getD i 0

theorem ramfsNameEqual_iff (h : Begins text name) (entry : CString) :
    ramfsNameEqual entry text name.length = true ↔ entry.bytes = name := by
  simp only [ramfsNameEqual, Bool.and_eq_true, decide_eq_true_eq, List.all_eq_true, List.mem_range]
  simp only [CString.strlen, CString.get]
  constructor
  · rintro ⟨hlen, hall⟩
    refine List.ext_getElem hlen fun i h₁ h₂ => ?_
    have := (hall i h₂).trans (h i h₂)
    simpa [List.getD_eq_getElem?_getD, h₁, h₂] using this
  · rintro rfl
    exact ⟨rfl, fun i hi => (h i hi).symm⟩

theorem lookupEntry_eq (h : Begins text name) (target : Name → NodePtr)
    {children : List (CString × Option NodePtr)} {entries : List (Name × Tree)}
    (hc : (children.map fun e => (e.1.bytes, e.2)) = entries.map fun e => (e.1, some (target e.1))) :
    lookupEntry text name.length children =
      if name ∈ entries.map Prod.fst then .ok (some (target name)) else .error (-Errno.noent) := by
  induction children generalizing entries with
  | nil =>
    obtain rfl : entries = [] := by simpa using hc.symm
    rfl
  | cons e children ih =>
    cases entries with
    | nil => simp at hc
    | cons f entries =>
      simp only [List.map_cons, List.cons.injEq, Prod.mk.injEq] at hc
      obtain ⟨⟨hname, hnode⟩, hrest⟩ := hc
      simp only [lookupEntry, List.map_cons, List.mem_cons]
      by_cases he : e.1.bytes = name
      · rw [if_pos ((ramfsNameEqual_iff h e.1).mpr he), if_pos (.inl (he.symm.trans hname)), hnode,
          ← hname, he]
      · rw [if_neg fun hb => he ((ramfsNameEqual_iff h e.1).mp hb), ih hrest]
        have hne : name ≠ f.1 := fun hn => he (hname.trans hn.symm)
        simp only [hne, false_or]

theorem isDot_iff (h : Begins text name) :
    vfsSegmentIsDot text name.length = true ↔ name = [dot] := by
  simp only [vfsSegmentIsDot, Bool.and_eq_true, decide_eq_true_eq]
  constructor
  · rintro ⟨hlen, hd⟩
    obtain ⟨a, rfl⟩ := List.length_eq_one_iff.mp hlen
    rw [h 0 (by simp)] at hd
    simpa using hd
  · rintro rfl
    exact ⟨rfl, h 0 (by simp)⟩

theorem isDotdot_iff (h : Begins text name) :
    vfsSegmentIsDotdot text name.length = true ↔ name = [dot, dot] := by
  simp only [vfsSegmentIsDotdot, Bool.and_eq_true, decide_eq_true_eq]
  constructor
  · rintro ⟨⟨hlen, hd⟩, hd'⟩
    obtain ⟨a, b, rfl⟩ := List.length_eq_two.mp hlen
    rw [h 0 (by simp)] at hd
    rw [h 1 (by simp)] at hd'
    simpa using ⟨hd, hd'⟩
  · rintro rfl
    exact ⟨⟨rfl, h 0 (by simp)⟩, h 1 (by simp)⟩

theorem vfsLookupParent_eq (hm : Mounted fs root addr) {entries : List (Name × Tree)}
    (hget : root.get pos = some (.dir entries)) :
    vfsLookupParent fs (addr pos) = .ok (addr pos.dropLast) := by
  have hsome : (root.get pos).isSome := by rw [hget]; rfl
  obtain ⟨htype, hops, -⟩ := hm.dir pos entries hget
  unfold vfsLookupParent
  rw [if_neg (not_not.mpr htype), hm.rootAddr]
  by_cases hroot : addr pos = addr []
  · obtain rfl := hm.injective pos [] hsome rfl hroot
    rw [if_pos rfl]
    rfl
  · rw [if_neg fun he => hroot (Option.some.inj he), hops]
    simp [ramfsDirIops, ramfsParent, hm.privateData pos hsome, hm.parent pos hsome]

theorem vfsLookupChild_eq (hm : Mounted fs root addr) (hb : Begins text name)
    {entries : List (Name × Tree)} (hget : root.get pos = some (.dir entries)) :
    vfsLookupChild fs (addr pos) text name.length = if name ∈ entries.map Prod.fst then
      .ok (some (addr (pos ++ [name]))) else .error (-Errno.noent) := by
  have hsome : (root.get pos).isSome := by rw [hget]; rfl
  obtain ⟨htype, hops, hchildren⟩ := hm.dir pos entries hget
  rw [vfsLookupChild, if_neg (not_not.mpr htype), hops]
  simp only [ramfsDirIops, Bool.true_eq_false, if_false, ramfsLookup, hm.privateData pos hsome]
  exact lookupEntry_eq hb (fun name => addr (pos ++ [name])) hchildren

/-- The code does to a component what it means. -/
theorem walkSegment_eq (hm : Mounted fs root addr) (hsome : (root.get pos).isSome)
    (hb : Begins text name) (hne : name ≠ []) : walkSegment fs (addr pos) text name.length =
      (resolveStep root pos name).map addr := by
  have hlen : name.length ≠ 0 := fun h => hne (List.length_eq_zero_iff.mp h)
  unfold walkSegment resolveStep
  by_cases hlong : vfsNameMax ≤ name.length
  · rw [if_pos (.inr hlong), if_pos hlong]
    rfl
  · rw [if_neg (by simp [hlen, hlong]), if_neg hlong]
    cases hget : root.get pos with
    | none => rw [hget] at hsome; cases hsome
    | some t =>
      cases t with
      | file contents =>
        -- Every kind of component is refused on a regular file.
        have htype := hm.file pos contents hget
        simp [htype, vfsLookupParent, vfsLookupChild, Except.map]
      | dir entries =>
        have htype := (hm.dir pos entries hget).1
        by_cases hd : name = [dot]
        · rw [if_pos ((isDot_iff hb).mpr hd)]
          simp [htype, hd, Except.map]
        · rw [if_neg fun h => hd ((isDot_iff hb).mp h)]
          by_cases hdd : name = [dot, dot]
          · rw [if_pos ((isDotdot_iff hb).mpr hdd), vfsLookupParent_eq hm hget]
            simp [hdd, Except.map]
          · rw [if_neg fun h => hdd ((isDotdot_iff hb).mp h), vfsLookupChild_eq hm hb hget]
            simp only [hd, hdd, if_false]
            by_cases hmem : name ∈ entries.map Prod.fst
            · simp only [if_pos hmem]
              rfl
            · simp only [if_neg hmem]
              rfl

/-! ### The loops -/

theorem components_slash (l : List UInt8) : components (slash :: l) = components l := by
  simp [components, List.splitOnP_cons_eq_if_modifyHead]

theorem components_append {l : List UInt8} (hn : slash ∉ name) (hne : name ≠ [])
    (hl : l = [] ∨ ∃ rest, l = slash :: rest) : components (name ++ l) = name :: components l := by
  have hall : ∀ x ∈ name, (x == slash) = false := by
    intro x hx
    rw [beq_eq_false_iff_ne]
    rintro rfl
    exact hn hx
  rcases hl with rfl | ⟨rest, rfl⟩
  · rw [List.append_nil, components, List.splitOnP_eq_singleton hall]
    simp [hne, components]
  · rw [components, List.splitOnP_append_cons_of_forall_mem hall slash (by simp), components_slash]
    simp [hne, components]

theorem drop_get {index : ℕ} (h : index < path.bytes.length) :
    path.bytes.drop index = path.get index :: path.bytes.drop (index + 1) := by
  rw [List.drop_eq_getElem_cons h, CString.get, List.getD_eq_getElem?_getD,
    List.getElem?_eq_getElem h]
  rfl

theorem get_of_length_le {index : ℕ} (h : path.bytes.length ≤ index) : path.get index = 0 := by
  simp [CString.get, List.getElem?_eq_none h]

/-- After the slashes stands the next component, or the end. -/
theorem skipSlashes_spec {n index : ℕ} (hi : index ≤ path.bytes.length)
    (hn : path.bytes.length - index ≤ n) :
    skipSlashes path n index ≤ path.bytes.length ∧
      components (path.bytes.drop (skipSlashes path n index)) =
        components (path.bytes.drop index) ∧
      path.get (skipSlashes path n index) ≠ slash ∧ index ≤ skipSlashes path n index := by
  induction n generalizing index with
  | zero =>
    refine ⟨hi, rfl, ?_, Nat.le_refl _⟩
    rw [skipSlashes, get_of_length_le (by omega)]
    decide
  | succ n ih =>
    rw [skipSlashes]
    by_cases hs : path.get index = slash
    · have hlt : index < path.bytes.length := by
        by_contra hge
        rw [get_of_length_le (by omega)] at hs
        exact absurd hs (by decide)
      obtain ⟨h₁, h₂, h₃, h₄⟩ := @ih (index + 1) (by omega) (by omega)
      rw [if_pos hs]
      refine ⟨h₁, ?_, h₃, by omega⟩
      rw [h₂, drop_get hlt, hs, components_slash]
    · rw [if_neg hs]
      exact ⟨hi, rfl, hs, Nat.le_refl _⟩

/-- A component ends before a slash or at the end of the path. -/
theorem segmentEnd_spec {n start : ℕ} (hs : start ≤ path.bytes.length)
    (hn : path.bytes.length - start ≤ n) :
    ∃ name, segmentEnd path path.bytes.length n start = start + name.length ∧
      path.bytes.drop start = name ++ path.bytes.drop (start + name.length) ∧ slash ∉ name ∧
      (start + name.length = path.bytes.length ∨ path.get (start + name.length) = slash) := by
  induction n generalizing start with
  | zero => exact ⟨[], rfl, rfl, by simp, .inl (by simp; omega)⟩
  | succ n ih =>
    rw [segmentEnd]
    by_cases hgo : start < path.bytes.length ∧ path.get start ≠ slash
    · obtain ⟨name, hend, hdrop, hslash, hstop⟩ := @ih (start + 1) (by omega) (by omega)
      have hshift : start + (path.get start :: name).length = start + 1 + name.length := by
        simp only [List.length_cons]
        omega
      rw [if_pos hgo]
      refine ⟨path.get start :: name, by rw [hend, hshift], ?_, ?_, by rw [hshift]; exact hstop⟩
      · rw [hshift, drop_get hgo.1, hdrop, List.cons_append, ← hdrop]
      · simp only [List.mem_cons, not_or]
        exact ⟨fun h => hgo.2 h.symm, hslash⟩
    · rw [if_neg hgo]
      refine ⟨[], rfl, rfl, by simp, ?_⟩
      by_cases hlt : start < path.bytes.length
      · exact .inr (not_not.mp fun h => hgo ⟨hlt, h⟩)
      · exact .inl (by simp; omega)

/-- Behind the slashes the segment is the next component, and the walk goes on after it. -/
theorem nextComponent_spec {n start : ℕ} (hstart : start < path.bytes.length)
    (hslash : path.get start ≠ slash) (hn : path.bytes.length - start ≤ n) :
    ∃ name, segmentEnd path path.bytes.length n start = start + name.length ∧ name ≠ [] ∧
      start + name.length ≤ path.bytes.length ∧
      components (path.bytes.drop start) =
        name :: components (path.bytes.drop (start + name.length)) ∧
      Begins (fun i => path.get (start + i)) name := by
  obtain ⟨name, hseg, hdrop, hname, hstop⟩ := segmentEnd_spec (Nat.le_of_lt hstart) hn
  have hne : name ≠ [] := by
    rintro rfl
    rcases hstop with h | h
    · exact Nat.ne_of_lt hstart h
    · exact hslash h
  have hstay : start + name.length ≤ path.bytes.length := by
    have := congrArg List.length hdrop
    simp only [List.length_drop, List.length_append] at this
    omega
  refine ⟨name, hseg, hne, hstay, ?_, fun i hlen => ?_⟩
  · -- What follows the component is nothing or a slash.
    conv => lhs; rw [hdrop]
    refine components_append hname hne ?_
    by_cases he : start + name.length = path.bytes.length
    · exact .inl (List.drop_eq_nil_of_le (by omega))
    · rw [drop_get (by omega), hstop.resolve_left he]
      exact .inr ⟨_, rfl⟩
  · have hgetD : path.get (start + i) = (path.bytes.drop start).getD i 0 := by
      simp [CString.get, List.getElem?_drop]
    simp only [hgetD, hdrop]
    rw [List.getD_append _ _ _ _ hlen]

/-- The walk from any point of the path onwards. -/
theorem walkLoop_eq (hm : Mounted fs root addr) {n index : ℕ} (hi : index ≤ path.bytes.length)
    (hn : path.bytes.length - index ≤ n) (hsome : (root.get pos).isSome) :
    walkLoop fs path path.bytes.length n index (addr pos) =
      match resolve root pos (components (path.bytes.drop index)) with
      | .error ret => .error (.error ret)
      | .ok pos => .ok (addr pos) := by
  have hend (index : ℕ) (h : path.bytes.length ≤ index) :
      components (path.bytes.drop index) = [] := by
    rw [List.drop_eq_nil_of_le h]
    rfl
  induction n generalizing index pos with
  | zero =>
    have hge : path.bytes.length ≤ index := by omega
    rw [hend index hge, walkLoop, if_neg (by omega)]
    rfl
  | succ n ih =>
    rw [walkLoop]
    by_cases hlt : index < path.bytes.length
    · obtain ⟨hle, hcomp, hslash, hgrow⟩ := skipSlashes_spec hi
        (Nat.sub_le path.bytes.length index)
      simp only [hlt, if_true]
      generalize skipSlashes path path.bytes.length index = start at hle hcomp hslash hgrow
      rw [← hcomp]
      by_cases hstart : path.bytes.length ≤ start
      · rw [if_pos hstart, hend start hstart]
        rfl
      · obtain ⟨name, hseg, hne, hstay, hrest, hbegins⟩ := nextComponent_spec
          (Nat.lt_of_not_le hstart) hslash (Nat.sub_le path.bytes.length start)
        have hpos : 0 < name.length := List.length_pos_iff.mpr hne
        rw [if_neg hstart, hseg, Nat.add_sub_cancel_left,
          walkSegment_eq hm hsome hbegins hne, hrest, resolve]
        cases hstep : resolveStep root pos name with
        | error ret => rfl
        | ok pos' => exact ih hstay (by omega) (resolveStep_isSome hsome hstep)
    · rw [if_neg hlt, hend index (by omega)]
      rfl

/-- A path that is not refused at once is walked. -/
theorem vfsOpen_walk (hm : Mounted fs root addr) (hhead : path.bytes.head? = some slash)
    (hshort : path.bytes.length < 256) (file : VfsFile) :
    vfsOpen fs (some path) (some file) = .ok (match resolve root [] (components path.bytes) with
      | .error ret => (ret, some clearedFile)
      | .ok pos => (0, some ⟨some (addr pos), 0, (fs.node (addr pos)).fOps, none⟩)) := by
  obtain ⟨rest, hbytes⟩ := List.head?_eq_some_iff.mp hhead
  obtain ⟨entries, hroot⟩ := hm.directory
  have hpos : 0 < path.bytes.length := by simp [hbytes]
  have hslash : path.get 0 = slash := by simp [CString.get, hbytes]
  have hcomp : components (path.bytes.drop 1) = components path.bytes := by
    rw [hbytes, List.drop_one, List.tail_cons, components_slash]
  have hwalk : walkLoop fs path path.bytes.length path.bytes.length 1 (addr []) = _ :=
    walkLoop_eq hm hpos (Nat.sub_le _ _) rfl
  rw [hcomp] at hwalk
  have hok : ¬(path.bytes.length = 0 ∨ 256 ≤ path.bytes.length ∨ path.get 0 ≠ slash) := by
    simp only [hslash, ne_eq, not_true_eq_false, or_false]
    omega
  simp only [vfsOpen, hm.rootAddr, hm.ready, Bool.true_eq_false, if_false, CString.strlen,
    vfsPathMax, hok, hwalk]
  cases resolve root [] (components path.bytes) <;> rfl

theorem vfsOpen_refused (hm : Mounted fs root addr)
    (hbad : path.bytes.head? ≠ some slash ∨ 256 ≤ path.bytes.length) (file : VfsFile) :
    vfsOpen fs (some path) (some file) = .ok (-Errno.inval, some clearedFile) := by
  have hcond : path.bytes.length = 0 ∨ 256 ≤ path.bytes.length ∨ path.get 0 ≠ slash := by
    cases hbytes : path.bytes with
    | nil => exact .inl rfl
    | cons a l =>
      rw [hbytes] at hbad
      rcases hbad with hhead | hlong
      · exact .inr (.inr (by simpa [CString.get, hbytes] using hhead))
      · exact .inr (.inl hlong)
  simp only [vfsOpen, hm.rootAddr, hm.ready, Bool.true_eq_false, if_false, CString.strlen,
    vfsPathMax, hcond, if_true]

end

/-- On every mounted tree and for every path, `vfs_open` returns the error of the path's
meaning, or 0 with the node that the path means. -/
theorem vfsOpen_resolves {fs : Vfs} {root : Tree} {addr : List Name → NodePtr}
    (hm : Mounted fs root addr) (path : CString) (file : VfsFile) :
    vfsOpen fs (some path) (some file) = .ok (match openPath root path with
      | .error ret => (ret, some clearedFile)
      | .ok pos => (0, some ⟨some (addr pos), 0, (fs.node (addr pos)).fOps, none⟩)) := by
  unfold openPath
  by_cases hbad : path.bytes.head? ≠ some slash ∨ 256 ≤ path.bytes.length
  · rw [vfsOpen_refused hm hbad, if_pos (.inr hbad)]
  · obtain ⟨hhead, hshort⟩ := not_or.mp hbad
    have hne : path.bytes ≠ [] := by
      intro hnil
      rw [hnil] at hhead
      exact hhead nofun
    rw [vfsOpen_walk hm (not_not.mp hhead) (Nat.not_le.mp hshort), if_neg (not_or.mpr ⟨hne, hbad⟩)]

/-! ### The built-in ramfs -/

def cstring (text : String) : List UInt8 := text.toList.map fun c => UInt8.ofNat c.toNat

def helloName : CString := ⟨cstring "hello.txt", by decide⟩
def etcName : CString := ⟨cstring "etc", by decide⟩
def configName : CString := ⟨cstring "config.txt", by decide⟩

/-- `ramfs_root`, `ramfs_hello`, `ramfs_etc` and `ramfs_config` after `ramfs_init`. -/
def ramfsInit : Vfs where
  node
    | 1 => ⟨.directory, some ramfsDirIops, some ramfsDirFops, some 1,
        [(helloName, some 2), (etcName, some 3)], some 1⟩
    | 2 => ⟨.regular, none, some ramfsFileFops, some 2, [], some 1⟩
    | 3 => ⟨.directory, some ramfsDirIops, some ramfsDirFops, some 3, [(configName, some 4)], some 1⟩
    | _ => ⟨.regular, none, some ramfsFileFops, some 4, [], some 3⟩
  root := some 1
  ready := true

def ramfsTree : Tree := .dir
  [(helloName.bytes, .file (cstring "hello from ramfs\n")),
   (etcName.bytes, .dir
    [(configName.bytes, .file (cstring "rootfs=ramfs\nstage=06-storage-vfs\n"))])]

def ramfsAddr (pos : List Name) : NodePtr :=
  if pos = [] then 1
  else if pos = [helloName.bytes] then 2
  else if pos = [etcName.bytes] then 3
  else 4

theorem ramfs_positions {pos : List Name} (h : (ramfsTree.get pos).isSome) : pos = [] ∨
    pos = [helloName.bytes] ∨ pos = [etcName.bytes] ∨ pos = [etcName.bytes, configName.bytes] := by
  have hleaf {contents : List UInt8} {rest : List Name}
      (hr : ((Tree.file contents).get rest).isSome) : rest = [] := by
    cases rest with
    | nil => rfl
    | cons name rest => cases hr
  cases pos with
  | nil => exact .inl rfl
  | cons name rest =>
    right
    simp only [ramfsTree, Tree.get, Tree.child, List.lookup_cons, List.lookup_nil] at h
    by_cases hh : name = helloName.bytes
    · subst hh
      simp only [beq_self_eq_true] at h
      rw [hleaf h]
      exact .inl rfl
    · by_cases he : name = etcName.bytes
      · subst he
        have hne : (etcName.bytes == helloName.bytes) = false := by decide
        simp only [hne, beq_self_eq_true, Option.bind_some] at h
        cases rest with
        | nil => exact .inr (.inl rfl)
        | cons name rest =>
          simp only [Tree.get, Tree.child, List.lookup_cons, List.lookup_nil] at h
          by_cases hc : name = configName.bytes
          · subst hc
            simp only [beq_self_eq_true] at h
            rw [hleaf h]
            exact .inr (.inr rfl)
          · rw [beq_eq_false_iff_ne.mpr hc] at h
            cases h
      · rw [beq_eq_false_iff_ne.mpr hh, beq_eq_false_iff_ne.mpr he] at h
        cases h

theorem ramfs_mounted : Mounted ramfsInit ramfsTree ramfsAddr := by
  have hpos {pos : List Name} {t : Tree} (h : ramfsTree.get pos = some t) :=
    @ramfs_positions pos (by rw [h]; rfl)
  refine ⟨fun pos entries h => ?_, ⟨_, rfl⟩, rfl, rfl, fun pos pos' h h' he => ?_, fun pos h => ?_,
    fun pos h => ?_, fun pos contents h => ?_, fun pos entries h => ?_⟩
  · rcases hpos h with rfl | rfl | rfl | rfl
    · obtain rfl := Tree.dir.inj (Option.some.inj h)
      decide
    · cases Option.some.inj h
    · obtain rfl := Tree.dir.inj (Option.some.inj h)
      decide
    · cases Option.some.inj h
  · rcases ramfs_positions h with rfl | rfl | rfl | rfl <;>
      rcases ramfs_positions h' with rfl | rfl | rfl | rfl <;> first | rfl | (revert he; decide)
  · rcases ramfs_positions h with rfl | rfl | rfl | rfl <;> decide
  · rcases ramfs_positions h with rfl | rfl | rfl | rfl <;> decide
  · rcases hpos h with rfl | rfl | rfl | rfl
    · cases Option.some.inj h
    · rfl
    · cases Option.some.inj h
    · rfl
  · rcases hpos h with rfl | rfl | rfl | rfl
    · obtain rfl := Tree.dir.inj (Option.some.inj h)
      exact ⟨rfl, rfl, by decide⟩
    · cases Option.some.inj h
    · obtain rfl := Tree.dir.inj (Option.some.inj h)
      exact ⟨rfl, rfl, by decide⟩
    · cases Option.some.inj h

/-- The path `//etc/../etc/./config.txt`. -/
theorem vfsOpen_resolves_config :
    vfsOpen ramfsInit (some ⟨cstring "//etc/../etc/./config.txt", by decide⟩) (some clearedFile) =
      .ok (0, some ⟨some 4, 0, some ramfsFileFops, none⟩) := by
  rw [vfsOpen_resolves ramfs_mounted]
  rfl

end Tianole.Fs
