import Crius.Fs.Mount
import Crius.Fs.PathNormal
import Crius.Fs.RamfsTree
import Mathlib.Data.List.Find
import Mathlib.Data.List.TakeWhile

/-!
# Names in the ramfs

`ramfs_mkdir` and `create_entry` copy the part of the path before the last slash into a buffer
of their own and the name into the inode. The second copy is cut to its field, the first one is
not cut at all.

A name is looked up whole when it is created, is stored cut to 31 bytes and is cut to 31 bytes
when a path is resolved. So a longer name is never found to exist, and it hides behind an
earlier entry with the same first 31 bytes.
-/
namespace Crius.Fs

open Lib Lib.Separated Function List Option
open Ramfs (slash dot lastName parentLength components)

/-! ## The copies -/

/-- Bytes by their offset from the start of a buffer. -/
abbrev Memory := Nat → UInt8

/-- `for (i = 0; i < n; i++) dst[i] = src[i]` -/
def copyBytes (src : List UInt8) : Nat → Memory → Memory
  | 0, dst => dst
  | n + 1, dst => Function.update (copyBytes src n dst) n (src.getD n 0)

/-- The copy of the first bytes and a zero behind them. -/
def copyString (src : List UInt8) (n : Nat) (dst : Memory) : Memory :=
  Function.update (copyBytes src n dst) n 0

/-- What `ramfs_mkdir` and `create_entry` write to `parent_path`. -/
def copyParent (path : List UInt8) (parentPath : Memory) : Memory :=
  if slash ∈ path then
    if parentLength path = 0 then copyString [slash] 1 parentPath
    else copyString path (parentLength path) parentPath
  else parentPath

/-- What they write to the `name` of the inode. -/
def copyName (path : List UInt8) (name : Memory) : Memory :=
  copyString (lastName path) (min (lastName path).length (maxName - 1)) name

/-- A path as the file system in a mount gets it. -/
def pathDown (cwd : Option (List UInt8)) (path : List UInt8) (m : Mount) : List UInt8 :=
  stripMount (resolveAbs 256 cwd path) m.path

/-- A creation writes only inside `parent_path[MAX_NAME * 4]` and `name[MAX_NAME]`. -/
def WritesInside (path : List UInt8) : Prop :=
  (∀ parentPath k, maxName * 4 ≤ k → copyParent path parentPath k = parentPath k) ∧
    ∀ name k, maxName ≤ k → copyName path name k = name k

theorem copyString_outside {src : List UInt8} {n k : Nat} (dst : Memory) (hk : n < k) :
    copyString src n dst k = dst k := by
  have hbytes : ∀ m ≤ n, copyBytes src m dst k = dst k := by
    intro m hm
    induction m with
    | zero => rfl
    | succ m ih => rw [copyBytes, update_of_ne (by omega), ih (by omega)]
  rw [copyString, update_of_ne (by omega), hbytes n (Nat.le_refl n)]

variable {path : List UInt8}

theorem lastName_of_not_mem (h : slash ∉ path) : lastName path = path := by
  have hall : path.reverse.takeWhile (· ≠ slash) = path.reverse := by
    rw [takeWhile_eq_self_iff]
    intro c hc
    exact decide_eq_true fun heq => h (heq ▸ mem_reverse.mp hc)
  rw [lastName, hall, reverse_reverse]

theorem parentLength_of_not_mem (h : slash ∉ path) : parentLength path = 0 := by
  rw [parentLength, lastName_of_not_mem h]
  omega

theorem writesInside_iff (path : List UInt8) : WritesInside path ↔ FitsParentPath path := by
  unfold FitsParentPath
  constructor
  · intro h
    by_contra hlong
    have hslash : slash ∈ path := by
      by_contra hnot
      rw [parentLength_of_not_mem hnot] at hlong
      exact hlong (by decide)
    have hpos : parentLength path ≠ 0 := by
      intro hzero
      rw [hzero] at hlong
      exact hlong (by decide)
    -- the zero behind the copy shows on a buffer without zeros
    have hzero := h.1 (fun _ => 1) (parentLength path) (by omega)
    rw [copyParent, if_pos hslash, if_neg hpos, copyString, update_self] at hzero
    exact absurd hzero (by decide)
  · intro hfits
    constructor
    · intro parentPath k hk
      unfold copyParent
      split
      · split
        · have h128 : 1 < maxName * 4 := by decide
          exact copyString_outside parentPath (by omega)
        · exact copyString_outside parentPath (by omega)
      · rfl
    · intro name k hk
      apply copyString_outside
      omega

/-- For every path that comes down through a mount, a creation writes only inside its two
buffers exactly when the part before the last slash is shorter than `parent_path`. -/
theorem creation_writes_inside (cwd : Option (List UInt8)) (path : List UInt8) (m : Mount) :
    WritesInside (pathDown cwd path m) ↔ parentLength (pathDown cwd path m) < maxName * 4 :=
  writesInside_iff _

/-- `"/aa…a/b"` with 130 times the letter. -/
def longParent : List UInt8 := slash :: List.replicate 130 97 ++ [slash, 98]

/-- The path comes down as it is, and the byte behind the copy lies outside `parent_path`. -/
theorem longParent_overruns :
    longParent.length = 133 ∧ pathDown none longParent rootMount = longParent ∧
      copyParent (pathDown none longParent rootMount) (fun _ => 1) 131 = 0 ∧
      ¬WritesInside (pathDown none longParent rootMount) := by
  have hdown : pathDown none longParent rootMount = longParent := by decide +kernel
  have hwrite : copyParent longParent (fun _ => 1) 131 = 0 := by decide +kernel
  rw [hdown]
  refine ⟨by decide +kernel, rfl, hwrite, ?_⟩
  intro h
  have hsame := h.1 (fun _ => 1) 131 (by decide)
  rw [hwrite] at hsame
  exact absurd hsame (by decide)

/-! ## The last name -/

section Split

variable {path : List UInt8}

/-- A path with a slash is its parent part, a slash and its last name. -/
theorem split_lastName (h : slash ∈ path) :
    path = path.take (parentLength path) ++ slash :: lastName path := by
  have hcut := takeWhile_append_dropWhile (p := fun c => decide (c ≠ slash)) (l := path.reverse)
  have hne : path.reverse.dropWhile (· ≠ slash) ≠ [] := by
    intro hnil
    rw [dropWhile_eq_nil_iff] at hnil
    exact absurd (hnil slash (mem_reverse.mpr h)) (by simp)
  obtain ⟨c, rest, hdrop⟩ := exists_cons_of_ne_nil hne
  have hc : c = slash := by
    have hhead := head?_dropWhile_not (fun c => decide (c ≠ slash)) path.reverse
    rw [hdrop] at hhead
    simpa using hhead
  rw [hdrop, hc] at hcut
  have hpath : path = rest.reverse ++ slash :: lastName path := by
    have hrev := congrArg reverse hcut
    rw [reverse_append, reverse_cons, append_assoc, reverse_reverse,
      singleton_append] at hrev
    exact hrev.symm
  have hlen : parentLength path = rest.reverse.length := by
    have hl := congrArg length hpath
    rw [length_append, length_cons] at hl
    rw [parentLength]
    omega
  have htake : (rest.reverse ++ slash :: lastName path).take rest.reverse.length = rest.reverse :=
    take_left' rfl
  rw [← hpath] at htake
  rw [hlen, htake]
  exact hpath

theorem slash_not_mem_lastName (path : List UInt8) : slash ∉ lastName path := by
  intro h
  have hall := mem_takeWhile_imp (mem_reverse.mp h)
  simp at hall

theorem components_eq (hname : lastName path ≠ []) :
    components path = components (path.take (parentLength path)) ++ [lastName path] := by
  by_cases h : slash ∈ path
  · have hlast : components (lastName path) = [lastName path] :=
      parts_of_whole ⟨hname, slash_not_mem_lastName path⟩
    rw [← hlast]
    conv_lhs => rw [split_lastName h]
    rw [components, splitOn_append_cons_self, filter_append]
    rfl
  · have hself := lastName_of_not_mem h
    rw [parentLength_of_not_mem h, hself]
    rw [hself] at hname
    exact parts_of_whole ⟨hname, h⟩

end Split

/-! ## Creation and resolution -/

namespace Ramfs

/-- The name is too long to be stored whole, and its directory has an entry with the bytes
that would be stored. -/
def CutNameTaken (t : Ramfs) (path : List UInt8) : Prop :=
  maxName ≤ (lastName path).length ∧ ∃ d i, t.parentDir path = .ok d ∧ i ∈ (t d).entries ∧
    (t i).used = true ∧ (t i).name = (lastName path).take (maxName - 1)

/-- A name that resolves to what is stored under it. -/
def Storable (t : Ramfs) (path : List UInt8) : Prop :=
  lastName path ≠ [dot] ∧ lastName path ≠ [dot, dot] ∧ ¬CutNameTaken t path

/-- The path resolves to the new inode, and before nothing resolved to the inode and the path
resolved to nothing. -/
def ResolvesNew (t : Ramfs) (path : List UInt8) (idx : InodeId) (t' : Ramfs) : Prop :=
  t'.resolvePath path = .ok idx ∧ (∀ p, t.resolvePath p ≠ .ok idx) ∧
    ∀ j, t.resolvePath path ≠ .ok j

/-- No directory has two entries with the same name. -/
def UniqueNames (t : Ramfs) : Prop :=
  ∀ d, t.IsDir d → ∀ i ∈ (t d).entries, ∀ j ∈ (t d).entries, (t i).name = (t j).name → i = j

/-- What a successful creation leaves: one more inode, at the end of its directory. -/
structure Made (t : Ramfs) (path : List UInt8) (idx d : InodeId) (t' : Ramfs) : Prop where
  parent : t.parentDir path = .ok d
  name_ne : lastName path ≠ []
  absent : ∀ i ∈ (t d).entries, (t i).used = true → (t i).name ≠ lastName path
  free : (t idx).used = false
  used : (t' idx).used = true
  name : (t' idx).name = (lastName path).take (maxName - 1)
  idx_entries : (t' idx).entries = []
  dir : t' d = { t d with entries := (t d).entries ++ [idx] }
  other : ∀ i, i ≠ idx → i ≠ d → t' i = t i

variable {t t' : Ramfs} {path name : List UInt8} {idx d i : InodeId} {type : InodeType}
  {dev : DevFns}

theorem dirFind_eq_ok (htype : (t d).type = .dir) :
    t.dirFind d name = .ok i ↔
      (t d).entries.find? (fun i => (t i).used && (t i).name == name) = some i := by
  unfold dirFind
  rw [if_neg (not_not.mpr htype)]
  cases (t d).entries.find? fun i => (t i).used && (t i).name == name with
  | none => simp
  | some j => simp

theorem dirFind_absent (htype : (t d).type = .dir) :
    (∀ i, t.dirFind d name ≠ .ok i) ↔
      ∀ i ∈ (t d).entries, (t i).used = true → (t i).name ≠ name := by
  have hnone : (∀ i, t.dirFind d name ≠ .ok i) ↔
      (t d).entries.find? (fun i => (t i).used && (t i).name == name) = none := by
    simp only [Ne, dirFind_eq_ok htype, eq_none_iff_forall_ne_some]
  rw [hnone, find?_eq_none]
  simp

/-- The last steps of a creation. -/
theorem made_of_ok (htree : RamfsTree t) (h : t.makeNode path type dev = (.ok idx, t')) :
    ∃ d, Made t path idx d t' := by
  rcases t.makeNode_cases h with ⟨e, hr, -⟩ |
    ⟨new, d, node, hr, hd, hnode, hadd, hname, ⟨e, hfind⟩, hstored⟩
  · cases hr
  obtain rfl := Except.ok.inj hr
  have hdir := htree.parentDir_isDir hd
  obtain ⟨hne, rfl⟩ := htree.linked hdir hnode.free hadd
  refine ⟨d, hd, hname, ?_, hnode.free, ?_, ?_, ?_, update_self .., ?_⟩
  · apply (dirFind_absent hdir.2).mp
    intro i hi
    rw [hfind] at hi
    cases hi
  · rw [update_of_ne hne.symm, update_self, hnode.used]
  · rw [update_of_ne hne.symm, update_self, hstored]
  · rw [update_of_ne hne.symm, update_self, hnode.entries]
  · intro i hi hid
    rw [update_of_ne hid, update_of_ne hi]

theorem walk_append (cs ds : List (List UInt8)) (cur : InodeId) :
    t.walk (cs ++ ds) cur = (t.walk cs cur).bind (t.walk ds) := by
  induction cs generalizing cur with
  | nil => rfl
  | cons c cs ih =>
    rw [cons_append, walk, walk]
    split
    · exact ih cur
    · split
      · exact ih _
      · cases t.dirFind cur (c.take (maxName - 1)) with
        | error e => rfl
        | ok next => exact ih next

/-- The walk to the directory of a new name. -/
theorem walk_parent (h : t.parentDir path = .ok d) :
    t.walk (components (path.take (parentLength path))) rootInode = .ok d := by
  unfold parentDir at h
  split at h
  · split at h
    · cases h
    · rename_i parent hparent
      have hd : parent = d := by
        split at h
        · cases h
        · exact Except.ok.inj h
      rw [← hd, ← hparent]
      split
      · rename_i hzero
        rw [hzero]
        rfl
      · rfl
  · rename_i hslash
    rw [parentLength_of_not_mem hslash, ← h]
    rfl

/-- A path resolves in two steps, to the directory and to the last name in it. -/
theorem resolvePath_eq (h : t.parentDir path = .ok d) (hname : lastName path ≠ []) :
    t.resolvePath path = t.walk [lastName path] d := by
  rw [resolvePath, components_eq hname, walk_append, walk_parent h]
  rfl

theorem walk_singleton {c : List UInt8} (hdot : c ≠ [dot]) (hdots : c ≠ [dot, dot]) :
    t.walk [c] d = t.dirFind d (c.take (maxName - 1)) := by
  rw [walk, if_neg hdot, if_neg hdots]
  cases t.dirFind d (c.take (maxName - 1)) with
  | error e => rfl
  | ok next => rfl

namespace Made

variable (h : Made t path idx d t') (htree : RamfsTree t)

include h in
theorem old_ne (hi : (t i).used = true) : i ≠ idx := by
  intro heq
  rw [heq, h.free] at hi
  cases hi

include h in
/-- An inode in use keeps all but its entries. -/
theorem old (hi : (t i).used = true) : (t' i).used = (t i).used ∧ (t' i).type = (t i).type ∧
    (t' i).name = (t i).name ∧ (t' i).parent = (t i).parent := by
  by_cases hid : i = d
  · rw [hid, h.dir]
    exact ⟨rfl, rfl, rfl, rfl⟩
  · rw [h.other i (h.old_ne hi) hid]
    exact ⟨rfl, rfl, rfl, rfl⟩

include h htree in
/-- The entries that were there are looked up as before. -/
theorem find_old (hcur : t.IsDir i) (name : List UInt8) :
    (t i).entries.find? (fun j => (t' j).used && (t' j).name == name) =
      (t i).entries.find? fun j => (t j).used && (t j).name == name := by
  apply find?_congr
  intro j hj
  obtain ⟨hused, -, hname, -⟩ := h.old (htree.child i hcur j hj).1
  rw [hused, hname]

include h htree in
theorem dirFind_old {name : List UInt8} {next : InodeId} (hcur : (t i).used = true)
    (hfind : t.dirFind i name = .ok next) : t'.dirFind i name = .ok next := by
  have htype := (dirFind_ok hfind).1
  rw [dirFind_eq_ok htype] at hfind
  rw [dirFind_eq_ok ((h.old hcur).2.1.trans htype)]
  have hold := h.find_old htree ⟨hcur, htype⟩ name
  by_cases hid : i = d
  · subst hid
    rw [h.dir]
    rw [find?_append, hold, hfind, some_or]
  · rw [h.other i (h.old_ne hcur) hid, hold, hfind]

include h htree in
/-- A walk that ends among the old inodes is not changed. -/
theorem walk_old {cs : List (List UInt8)} {cur : InodeId} (hcur : (t cur).used = true)
    (hw : t.walk cs cur = .ok i) : t'.walk cs cur = .ok i := by
  induction cs generalizing cur with
  | nil => exact hw
  | cons c cs ih =>
    unfold walk at hw ⊢
    by_cases hdot : c = [dot]
    · rw [if_pos hdot] at hw ⊢
      exact ih hcur hw
    · rw [if_neg hdot] at hw ⊢
      by_cases hdots : c = [dot, dot]
      · rw [if_pos hdots] at hw ⊢
        rw [(h.old hcur).2.2.2]
        apply ih _ hw
        split
        · exact hcur
        · rename_i hroot
          exact htree.parent_used hcur hroot
      · rw [if_neg hdots] at hw ⊢
        cases hfind : t.dirFind cur (c.take (maxName - 1)) with
        | error e =>
          rw [hfind] at hw
          cases hw
        | ok next =>
          rw [hfind] at hw
          rw [h.dirFind_old htree hcur hfind]
          exact ih (dirFind_ok hfind).2.2 hw

include h htree in
theorem isDir : t.IsDir d := htree.parentDir_isDir h.parent

include h htree in
/-- In the new state the path resolves in its directory, too. -/
theorem resolvePath_new : t'.resolvePath path = t'.walk [lastName path] d := by
  have hroot := h.walk_old htree htree.root.1 (walk_parent h.parent)
  rw [resolvePath, components_eq h.name_ne, walk_append, hroot]
  rfl

include h htree in
/-- The stored name leads to the new inode if no entry has it yet. -/
theorem dirFind_new : t'.dirFind d ((lastName path).take (maxName - 1)) = .ok idx ↔
    ∀ i ∈ (t d).entries, (t i).used = true → (t i).name ≠ (lastName path).take (maxName - 1) := by
  have hdir := h.isDir htree
  have hnot : idx ∉ (t d).entries := fun hmem => h.old_ne (htree.child d hdir idx hmem).1 rfl
  rw [dirFind_eq_ok ((h.old hdir.1).2.1.trans hdir.2), h.dir, ← dirFind_absent hdir.2]
  rw [find?_append, h.find_old htree hdir]
  constructor
  · intro hfind j hj
    rw [dirFind_eq_ok hdir.2] at hj
    rw [hj, some_or, some.injEq] at hfind
    exact hnot (hfind ▸ mem_of_find?_eq_some hj)
  · intro habsent
    have hnone : (t d).entries.find? (fun i => (t i).used &&
        (t i).name == (lastName path).take (maxName - 1)) = none := by
      rw [eq_none_iff_forall_ne_some]
      intro j hj
      exact habsent j ((dirFind_eq_ok hdir.2).mpr hj)
    rw [hnone, none_or, find?_singleton, h.used, h.name]
    simp

include h in
/-- No entry has the stored name unless the name was cut. -/
theorem absent_cut (hfree : ¬CutNameTaken t path) : ∀ i ∈ (t d).entries, (t i).used = true →
    (t i).name ≠ (lastName path).take (maxName - 1) := by
  intro i hi hused hname
  by_cases hlong : maxName ≤ (lastName path).length
  · exact hfree ⟨hlong, d, i, h.parent, hi, hused, hname⟩
  · rw [take_of_length_le (by omega)] at hname
    exact h.absent i hi hused hname

include h htree in
/-- The new name resolves to the new inode, and did not resolve before, exactly if it can be
stored. -/
theorem resolvesNew_iff : ResolvesNew t path idx t' ↔ Storable t path := by
  have hdir := h.isDir htree
  have hnew := h.resolvePath_new htree
  have hold := resolvePath_eq h.parent h.name_ne
  constructor
  · intro hnewest
    obtain ⟨hres, -, hbefore⟩ := hnewest
    rw [hnew] at hres
    have hdot : lastName path ≠ [dot] := by
      intro heq
      rw [heq, walk, if_pos rfl] at hres
      exact h.old_ne hdir.1 (Except.ok.inj hres)
    have hdots : lastName path ≠ [dot, dot] := by
      intro heq
      rw [hold, heq, walk, if_neg (by decide), if_pos rfl] at hbefore
      exact hbefore _ rfl
    refine ⟨hdot, hdots, ?_⟩
    intro ⟨_, d', i, hd', hi, hused, hname⟩
    rw [h.parent] at hd'
    obtain rfl := Except.ok.inj hd'
    rw [walk_singleton hdot hdots] at hres
    exact (h.dirFind_new htree).mp hres i hi hused hname
  · intro ⟨hdot, hdots, hfree⟩
    have habsent := h.absent_cut hfree
    refine ⟨?_, ?_, ?_⟩
    · rw [hnew, walk_singleton hdot hdots]
      exact (h.dirFind_new htree).mpr habsent
    · intro p hp
      exact h.old_ne (htree.resolve_used hp) rfl
    · intro j hj
      rw [hold, walk_singleton hdot hdots] at hj
      exact (dirFind_absent hdir.2).mpr habsent j hj

end Made

/-! ## Unique names -/

/-- The names of the inodes in use are unique if they were before. -/
theorem UniqueNames.congr (h : UniqueNames t) (hback : ∀ d, t'.IsDir d → t.IsDir d ∧
    ∀ i ∈ (t' d).entries, i ∈ (t d).entries ∧ (t' i).name = (t i).name) : UniqueNames t' := by
  intro d hd i hi j hj hname
  obtain ⟨hdir, hkeep⟩ := hback d hd
  obtain ⟨hi', hiname⟩ := hkeep i hi
  obtain ⟨hj', hjname⟩ := hkeep j hj
  exact h d hdir i hi' j hj' (by rw [← hiname, ← hjname, hname])

theorem Made.uniqueNames (h : Made t path idx d t') (htree : RamfsTree t) (hunique : UniqueNames t)
    (hfree : ¬CutNameTaken t path) : UniqueNames t' := by
  have hdir := h.isDir htree
  have hold {e i : InodeId} (he : t.IsDir e) (hi : i ∈ (t e).entries) :=
    (h.old (htree.child e he i hi).1).2.2.1
  have hnew (i : InodeId) (hi : i ∈ (t d).entries) : (t' i).name ≠ (t' idx).name := by
    rw [hold hdir hi, h.name]
    exact h.absent_cut hfree i hi (htree.child d hdir i hi).1
  intro e he i hi j hj hname
  by_cases hidx : e = idx
  · rw [hidx, h.idx_entries] at hi
    cases hi
  · by_cases hed : e = d
    · rw [hed, h.dir, mem_append, mem_singleton] at hi hj
      rcases hi with hi | rfl <;> rcases hj with hj | rfl
      · rw [hold hdir hi, hold hdir hj] at hname
        exact hunique d hdir i hi j hj hname
      · exact absurd hname (hnew i hi)
      · exact absurd hname.symm (hnew j hj)
      · rfl
    · have hsame := h.other e hidx hed
      rw [hsame] at hi hj
      have hedir : t.IsDir e := by
        unfold IsDir at he ⊢
        rwa [hsame] at he
      rw [hold hedir hi, hold hedir hj] at hname
      exact hunique e hedir i hi j hj hname

theorem UniqueNames.makeNode {r : Except Int InodeId} (htree : RamfsTree t) (h : UniqueNames t)
    (hfree : ¬CutNameTaken t path) (hm : t.makeNode path type dev = (r, t')) : UniqueNames t' := by
  cases r with
  | ok idx =>
    obtain ⟨d, hmade⟩ := made_of_ok htree hm
    exact hmade.uniqueNames htree h hfree
  | error e =>
    rcases t.makeNode_cases hm with ⟨e', -, hfail⟩ | ⟨idx, d, node, hr, _⟩
    · apply h.congr
      intro d hd
      have hdu : (t d).used = true := (hfail.used d).symm.trans hd.1
      have hsame := hfail.same d hdu
      have hdir : t.IsDir d := ⟨hdu, by rw [← hsame]; exact hd.2⟩
      refine ⟨hdir, ?_⟩
      intro i hi
      rw [hsame] at hi
      exact ⟨hi, by rw [hfail.same i (htree.child d hdir i hi).1]⟩
    · cases hr

theorem UniqueNames.delete (htree : RamfsTree t) (h : UniqueNames t) (path : List UInt8) :
    UniqueNames (t.delete path).2 := by
  rcases t.delete_cases path with heq | ⟨idx, hr, hroot, -, hdel⟩
  · rwa [heq]
  obtain ⟨hparent, hmem⟩ := htree.listed idx (htree.resolve_used hr) hroot
  apply h.congr
  intro d hd
  have hne : d ≠ idx := by
    rintro rfl
    cases hd.1.symm.trans hdel.used
  unfold IsDir at hd
  rw [hdel.other d hne] at hd
  refine ⟨hd, ?_⟩
  intro i hi
  rw [hdel.other d hne] at hi
  dsimp only at hi
  obtain ⟨hi, hii⟩ : i ∈ (t d).entries ∧ i ≠ idx := by
    split_ifs at hi with hdp
    · rw [hdp] at hi
      rw [hdp]
      exact ((swapRemove_nodup (htree.nodup _ hparent) hmem).2 i).mp hi
    · refine ⟨hi, ?_⟩
      rintro rfl
      exact hdp (htree.child d hd i hi).2.2.symm
  exact ⟨hi, by rw [hdel.other i hii]⟩

end Ramfs

/-! ## Runs -/

/-- The names of all creations in a run can be stored. -/
def StorableOp (t : Ramfs) (op : RamfsOp) : Prop := ∀ path ∈ op.created, t.Storable path

theorem ramfsStep_uniqueNames {t t' : Ramfs} {op : RamfsOp} (htree : RamfsTree t)
    (h : t.UniqueNames) (hop : StorableOp t op) (hs : ramfsStep t op = some t') :
    t'.UniqueNames := by
  refine ramfsStep_rule (fun path hpath hm => h.makeNode htree (hop path hpath).2.2 hm)
    (h.delete htree) ?_ h hs
  intro u u' hu hsame
  apply hu.congr
  intro d hd
  have hentries : (u' d).entries = (u d).entries := (congrArg Inode.entries (hsame d) :)
  refine ⟨⟨(congrArg Inode.used (hsame d) :).symm.trans hd.1,
    (congrArg Inode.type (hsame d) :).symm.trans hd.2⟩, ?_⟩
  intro i hi
  rw [hentries] at hi
  exact ⟨hi, (congrArg Inode.name (hsame i) :)⟩

theorem ramfsInit_uniqueNames : ramfsInit.UniqueNames := fun _ _ _ hi => absurd hi not_mem_nil

/-- In every state that a run reaches, a new path resolves to its new inode, and did not
resolve before, exactly when its last name is none of `"."` and `".."` and was not cut to that
of another entry. In a run whose names can all be stored, they are unique. -/
theorem ramfs_names {ops : List RamfsOp} {t : Ramfs}
    (hr : Run.run ramfsStep ramfsInit ops = some t) :
    (∀ path idx t', FitsParentPath path →
      t.mkdir path = (.ok idx, t') ∨ t.create path = (.ok idx, t') →
        (t.ResolvesNew path idx t' ↔ t.Storable path)) ∧
      (Run.Along ramfsStep StorableOp ramfsInit ops → t.UniqueNames) := by
  constructor
  · intro path idx t' _ hmade
    have htree : RamfsTree t := Run.run_invariant ramfsStep (fun s op s' hs => ramfsStep_tree hs)
      ramfsInit_tree hr
    obtain ⟨d, hmade⟩ : ∃ d, Ramfs.Made t path idx d t' :=
      hmade.elim (Ramfs.made_of_ok htree) (Ramfs.made_of_ok htree)
    exact hmade.resolvesNew_iff htree
  · intro hall
    have hkeep (s : Ramfs) (op : RamfsOp) (s' : Ramfs) (hinv : RamfsTree s ∧ s.UniqueNames)
        (hop : StorableOp s op) (hs : ramfsStep s op = some s') : RamfsTree s' ∧ s'.UniqueNames :=
      ⟨ramfsStep_tree hinv.1 hs, ramfsStep_uniqueNames hinv.1 hinv.2 hop hs⟩
    exact (Run.run_invariant_along ramfsStep hkeep ⟨ramfsInit_tree, ramfsInit_uniqueNames⟩ hall hr).2

/-- Two directories, and in the first of them a file that is deleted and made once more. -/
def twoDirs : List RamfsOp :=
  [.mkdir [47, 97], .mkdir [47, 98], .create [47, 97, 47, 98], .create [47, 97, 47, 99],
    .delete [47, 97, 47, 98], .create [47, 97, 47, 98]]

/-- The names are short, and two entries have the same name in different directories. -/
theorem ramfs_names_twoDirs : ∃ t, Run.run ramfsStep ramfsInit twoDirs = some t ∧
    (t rootInode).entries.map (fun i => (t i).name) = [[97], [98]] ∧
    (t ⟨1, by decide⟩).entries.map (fun i => (t i).name) = [[99], [98]] ∧ t.UniqueNames := by
  have hnames : (Run.run ramfsStep ramfsInit twoDirs).map (fun t =>
      ((t rootInode).entries.map (fun i => (t i).name),
        (t ⟨1, by decide⟩).entries.map fun i => (t i).name)) =
        some ([[97], [98]], [[99], [98]]) := by
    decide +kernel
  have hshort : ∀ op ∈ twoDirs, ∀ path ∈ op.created, lastName path ≠ [dot] ∧
      lastName path ≠ [dot, dot] ∧ (lastName path).length < maxName := by
    decide +kernel
  have hstorable (t : Ramfs) : ∀ op ∈ twoDirs, StorableOp t op := by
    intro op hop path hpath
    obtain ⟨hdot, hdots, hlen⟩ := hshort op hop path hpath
    exact ⟨hdot, hdots, fun htaken => absurd htaken.1 (Nat.not_le.mpr hlen)⟩
  obtain ⟨t, hrun, hentries⟩ := map_eq_some_iff.mp hnames
  obtain ⟨hroot, hdir⟩ := Prod.mk.inj hentries
  exact ⟨t, hrun, hroot, hdir,
    (ramfs_names hrun).2 (Run.along_of_forall ramfsStep hstorable ramfsInit)⟩

/-- `"/aa…a"` with 32 times the letter. -/
def longName : List UInt8 := slash :: List.replicate 32 97

/-- The ramfs with a directory of the long name. -/
def oneLongName : Ramfs := (ramfsInit.mkdir longName).2

/-- The same directory is made a second time. The path still leads to the first one, and the
root has two entries with one name. -/
theorem longName_made_twice :
    Run.run ramfsStep ramfsInit [.mkdir longName] = some oneLongName ∧
      FitsParentPath longName ∧
      (oneLongName.mkdir longName).1.toOption.map Fin.val = some 2 ∧
      ((oneLongName.mkdir longName).2.resolvePath longName).toOption.map Fin.val = some 1 ∧
      (oneLongName.resolvePath longName).toOption.map Fin.val = some 1 ∧
      (∀ idx, ¬oneLongName.ResolvesNew longName idx (oneLongName.mkdir longName).2) ∧
      ¬(oneLongName.mkdir longName).2.UniqueNames := by
  have hbefore : (oneLongName.resolvePath longName).toOption.map Fin.val = some 1 := by
    decide +kernel
  refine ⟨rfl, by decide, by decide +kernel, by decide +kernel, hbefore, ?_, ?_⟩
  · intro idx h
    obtain ⟨i, hi, -⟩ := map_eq_some_iff.mp hbefore
    cases hres : oneLongName.resolvePath longName with
    | error e =>
      rw [hres] at hi
      cases hi
    | ok j => exact h.2.2 j hres
  · intro h
    have heq := h rootInode (by unfold Ramfs.IsDir; decide +kernel) ⟨1, by decide⟩
      (by decide +kernel) ⟨2, by decide⟩ (by decide +kernel) (by decide +kernel)
    exact absurd heq (by decide)

end Crius.Fs
