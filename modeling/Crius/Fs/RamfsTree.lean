import Crius.Fs.Ramfs
import Crius.Lib.Run

/-!
# The ramfs tree

The directories of the ramfs form a tree: each inode in use is listed once, in the
directory that it names as its parent, and the parents lead to the root. A new inode hangs
below a directory in use, and only an inode without entries is deleted.
-/
namespace Crius.Fs

open Lib Function List Option

/-- An inode in use that is a directory. -/
def Ramfs.IsDir (t : Ramfs) (d : InodeId) : Prop := (t d).used = true ∧ (t d).type = .dir

structure RamfsTree (t : Ramfs) : Prop where
  root : t.IsDir rootInode
  nodup : ∀ d, t.IsDir d → (t d).entries.Nodup
  child : ∀ d, t.IsDir d → ∀ i ∈ (t d).entries,
    (t i).used = true ∧ i ≠ rootInode ∧ (t i).parent = d
  listed : ∀ i, (t i).used = true → i ≠ rootInode →
    t.IsDir (t i).parent ∧ i ∈ (t (t i).parent).entries
  reaches : ∀ i, (t i).used = true → ∃ n, (fun j => (t j).parent)^[n] i = rootInode

/-! ## Directory entries -/

variable {d : InodeId}

namespace Ramfs

variable {i : InodeId} {l : List InodeId}

theorem swapRemove_perm (h : i ∈ l) : (i :: swapRemove l i).Perm l := by
  obtain ⟨l', last, rfl⟩ : ∃ l' last, l = l' ++ [last] :=
    ⟨l.dropLast, l.getLast (ne_nil_of_mem h),
      (dropLast_append_getLast (ne_nil_of_mem h)).symm⟩
  simp only [swapRemove, getLast?_append, getLast?_singleton, some_or, if_pos h]
  by_cases hi : i ∈ l'
  · -- the removed entry is not the last one, which takes its place
    have hlt : l'.idxOf i < l'.length := idxOf_lt_length_iff.mpr hi
    rw [idxOf_append_of_mem hi, set_append_left _ _ hlt, dropLast_concat]
    have hsplit : l' = l'.take (l'.idxOf i) ++ i :: l'.drop (l'.idxOf i + 1) := by
      conv_lhs => rw [← take_append_drop (l'.idxOf i) l', drop_eq_getElem_cons hlt]
      simp
    rw [set_eq_take_append_cons_drop, if_pos hlt]
    conv_rhs => rw [hsplit]
    refine (perm_middle (a := last)).cons i |>.trans ?_
    refine (List.Perm.swap last i _).trans ?_
    refine (List.Perm.cons last perm_middle.symm).trans ?_
    exact perm_append_singleton last _ |>.symm
  · obtain rfl : i = last := by
      simpa [hi] using h
    rw [idxOf_append_of_notMem hi]
    simp
    exact (perm_append_singleton i l').symm

theorem swapRemove_nodup (hl : l.Nodup) (h : i ∈ l) :
    (swapRemove l i).Nodup ∧ ∀ j, j ∈ swapRemove l i ↔ j ∈ l ∧ j ≠ i := by
  have hperm := swapRemove_perm h
  have hnodup := hperm.nodup_iff.mpr hl
  rw [nodup_cons] at hnodup
  refine ⟨hnodup.2, fun j => ?_⟩
  rw [← hperm.mem_iff, mem_cons]
  constructor
  · intro hj
    refine ⟨.inr hj, ?_⟩
    rintro rfl
    exact hnodup.1 hj
  · rintro ⟨rfl | hj, hne⟩
    · exact absurd rfl hne
    · exact hj

/-! ## Paths -/

theorem dirFind_ok {t : Ramfs} {name : List UInt8} (h : dirFind t d name = .ok i) :
    (t d).type = .dir ∧ i ∈ (t d).entries ∧ (t i).used = true := by
  unfold dirFind at h
  split at h
  · cases h
  · next htype =>
    split at h
    · next j hj =>
      obtain rfl := Except.ok.inj h
      have hp := find?_some hj
      simp only [Bool.and_eq_true] at hp
      exact ⟨not_not.mp htype, mem_of_find?_eq_some hj, hp.1⟩
    · cases h

end Ramfs

namespace RamfsTree

variable {t t' : Ramfs} {i idx : InodeId} {path : List UInt8}

section

variable (h : RamfsTree t)

include h

theorem parent_used (hi : (t i).used = true) (hne : i ≠ rootInode) :
    (t (t i).parent).used = true := (h.listed i hi hne).1.1

theorem walk_used {cs : List (List UInt8)} {cur : InodeId} (hcur : (t cur).used = true)
    (hw : t.walk cs cur = .ok i) : (t i).used = true := by
  induction cs generalizing cur with
  | nil =>
    obtain rfl := Except.ok.inj hw
    exact hcur
  | cons c cs ih =>
    unfold Ramfs.walk at hw
    split at hw
    · exact ih hcur hw
    · split at hw
      · refine ih ?_ hw
        split
        · exact hcur
        · next hne => exact h.parent_used hcur hne
      · split at hw
        · cases hw
        · next next hfind => exact ih (Ramfs.dirFind_ok hfind).2.2 hw

theorem resolve_used (hr : t.resolvePath path = .ok i) :
    (t i).used = true := h.walk_used h.root.1 hr

theorem parentDir_isDir (hp : t.parentDir path = .ok d) : t.IsDir d := by
  unfold Ramfs.parentDir at hp
  split at hp
  · split at hp
    · cases hp
    · next parent hr =>
      split at hp
      · cases hp
      · next htype =>
        obtain rfl := Except.ok.inj hp
        exact ⟨h.resolve_used hr, not_not.mp htype⟩
  · obtain rfl := Except.ok.inj hp
    exact h.root

/-- Following parents stays among the inodes in use, so only their parents matter. -/
theorem iterate_parent (hp : ∀ i, (t i).used = true → (t' i).parent = (t i).parent)
    (hi : (t i).used = true) (n : ℕ) (hn : (fun j => (t j).parent)^[n] i = rootInode) :
    ∃ m, (fun j => (t' j).parent)^[m] i = rootInode := by
  induction n generalizing i with
  | zero => exact ⟨0, hn⟩
  | succ n ih =>
    by_cases hir : i = rootInode
    · exact ⟨0, hir⟩
    · obtain ⟨m, hm⟩ := ih (h.parent_used hi hir) hn
      refine ⟨m + 1, ?_⟩
      rw [Function.iterate_succ_apply, hp i hi]
      exact hm

/-- The tree is read off the inodes in use. -/
theorem congr (hused : ∀ i, (t' i).used = (t i).used)
    (hsame : ∀ i, (t i).used = true → (t' i).type = (t i).type ∧
      (t' i).parent = (t i).parent ∧ (t' i).entries = (t i).entries) : RamfsTree t' := by
  have hdir (d : InodeId) : t'.IsDir d ↔ t.IsDir d := by
    unfold Ramfs.IsDir
    rw [hused]
    exact and_congr_right fun hd => by rw [(hsame d hd).1]
  refine ⟨(hdir _).mpr h.root, fun d hd => ?_, fun d hd i hi => ?_, fun i hi hne => ?_,
    fun i hi => ?_⟩
  · rw [hdir] at hd
    rw [(hsame d hd.1).2.2]
    exact h.nodup d hd
  · rw [hdir] at hd
    rw [(hsame d hd.1).2.2] at hi
    obtain ⟨hiu, hir, hip⟩ := h.child d hd i hi
    rw [hused, (hsame i hiu).2.1]
    exact ⟨hiu, hir, hip⟩
  · rw [hused] at hi
    obtain ⟨hd, hmem⟩ := h.listed i hi hne
    rw [(hsame i hi).2.1, hdir, (hsame _ hd.1).2.2]
    exact ⟨hd, hmem⟩
  · rw [hused] at hi
    obtain ⟨n, hn⟩ := h.reaches i hi
    exact h.iterate_parent (fun j hj => (hsame j hj).2.1) hi n hn

/-- A slot that was free becomes the last entry of a directory. -/
theorem attach {node : Inode} (hd : t.IsDir d) (hfree : (t idx).used = false)
    (hused : node.used = true) (hparent : node.parent = d) (hentries : node.entries = [])
    (ht' : t' = Function.update (Function.update t idx node) d
      { t d with entries := (t d).entries ++ [idx] }) :
    RamfsTree t' := by
  have hold (i : InodeId) (hi : (t i).used = true) : i ≠ idx := by
    rintro rfl
    rw [hi] at hfree
    cases hfree
  have hnode : t' idx = node := by
    rw [ht', update_of_ne (hold d hd.1).symm, update_self]
  have hdir : t' d = { t d with entries := (t d).entries ++ [idx] } := by
    rw [ht', update_self]
  have hother (i : InodeId) (hi : i ≠ idx) (hid : i ≠ d) : t' i = t i := by
    rw [ht', update_of_ne hid, update_of_ne hi]
  rw [← hnode] at hused hparent hentries
  have hsame (i : InodeId) (hi : i ≠ idx) : (t' i).used = (t i).used ∧
      (t' i).type = (t i).type ∧ (t' i).parent = (t i).parent := by
    by_cases hid : i = d
    · subst hid
      rw [hdir]
      exact ⟨rfl, rfl, rfl⟩
    · rw [hother i hi hid]
      exact ⟨rfl, rfl, rfl⟩
  have hidx : idx ≠ rootInode := fun h0 => hold rootInode h.root.1 h0.symm
  have hkeep (i : InodeId) (hi : t.IsDir i) : t'.IsDir i := by
    obtain ⟨hu, ht, -⟩ := hsame i (hold i hi.1)
    exact ⟨hu.trans hi.1, ht.trans hi.2⟩
  have hback (i : InodeId) (hi : t'.IsDir i) (hii : i ≠ idx) : t.IsDir i := by
    obtain ⟨hu, ht, -⟩ := hsame i hii
    exact ⟨hu.symm.trans hi.1, ht.symm.trans hi.2⟩
  have hlist (i : InodeId) (hi : i ≠ idx) : (t' i).entries = (t i).entries ∨
      i = d ∧ (t' i).entries = (t i).entries ++ [idx] := by
    by_cases hid : i = d
    · subst hid
      exact .inr ⟨rfl, by rw [hdir]⟩
    · rw [hother i hi hid]
      exact .inl rfl
  have hchildOld (i : InodeId) (hi : t.IsDir i) (j : InodeId) (hj : j ∈ (t i).entries) :
      (t' j).used = true ∧ j ≠ rootInode ∧ (t' j).parent = i := by
    obtain ⟨hju, hjr, hjp⟩ := h.child i hi j hj
    obtain ⟨hu, -, hp⟩ := hsame j (hold j hju)
    exact ⟨hu.trans hju, hjr, hp.trans hjp⟩
  refine ⟨hkeep _ h.root, fun i hi => ?_, fun i hi j hj => ?_, fun i hi hir => ?_, fun i hi => ?_⟩
  · by_cases hii : i = idx
    · rw [hii, hentries]
      exact nodup_nil
    · have hid := hback i hi hii
      rcases hlist i hii with heq | ⟨-, heq⟩
      · rw [heq]
        exact h.nodup i hid
      · rw [heq, nodup_append]
        refine ⟨h.nodup i hid, nodup_singleton _, fun a ha b hb hab => ?_⟩
        rw [mem_singleton.mp hb] at hab
        exact hold a (h.child i hid a ha).1 hab
  · by_cases hii : i = idx
    · rw [hii, hentries] at hj
      cases hj
    · have hid := hback i hi hii
      rcases hlist i hii with heq | ⟨rfl, heq⟩
      · rw [heq] at hj
        exact hchildOld i hid j hj
      · rw [heq, mem_append, mem_singleton] at hj
        rcases hj with hj | rfl
        · exact hchildOld i hid j hj
        · exact ⟨hused, hidx, hparent⟩
  · by_cases hii : i = idx
    · subst hii
      rw [hparent, hdir]
      exact ⟨hkeep d hd, mem_append_right _ (mem_singleton_self i)⟩
    · obtain ⟨hu, -, hp⟩ := hsame i hii
      rw [hu] at hi
      obtain ⟨hpd, hmem⟩ := h.listed i hi hir
      rw [hp]
      refine ⟨hkeep _ hpd, ?_⟩
      rcases hlist _ (hold _ hpd.1) with heq | ⟨-, heq⟩
      · rw [heq]
        exact hmem
      · rw [heq]
        exact mem_append_left _ hmem
  · have hchain (i : InodeId) (hi : (t i).used = true) :
        ∃ m, (fun j => (t' j).parent)^[m] i = rootInode := by
      obtain ⟨n, hn⟩ := h.reaches i hi
      exact h.iterate_parent (fun j hj => (hsame j (hold j hj)).2.2) hi n hn
    by_cases hii : i = idx
    · obtain ⟨m, hm⟩ := hchain d hd.1
      refine ⟨m + 1, ?_⟩
      rw [Function.iterate_succ_apply, hii, hparent]
      exact hm
    · rw [(hsame i hii).1] at hi
      exact hchain i hi

/-- A new inode is linked behind the other entries of its directory. -/
theorem linked {node : Inode} (hd : t.IsDir d) (hfree : (t idx).used = false)
    (hadd : Ramfs.dirAdd (update t idx node) d idx = some t') : d ≠ idx ∧
      t' = update (update t idx node) d { t d with entries := (t d).entries ++ [idx] } := by
  have hne : d ≠ idx := by
    rintro rfl
    cases hd.1.symm.trans hfree
  rw [← update_of_ne hne node t]
  rcases Ramfs.dirAdd_cases _ hadd with ⟨hin, -⟩ | ⟨-, heq⟩
  · rw [update_of_ne hne] at hin
    cases (h.child d hd idx hin).1.symm.trans hfree
  · exact ⟨hne, heq⟩

theorem makeNode {type : InodeType} {dev : DevFns} {r : Except Int InodeId}
    (hm : t.makeNode path type dev = (r, t')) : RamfsTree t' := by
  rcases t.makeNode_cases hm with ⟨e, -, hf⟩ | ⟨idx, d, node, -, hd, hnode, hadd, -⟩
  · refine h.congr hf.used fun i hi => ?_
    rw [hf.same i hi]
    exact ⟨rfl, rfl, rfl⟩
  · have hdir := h.parentDir_isDir hd
    obtain ⟨-, rfl⟩ := h.linked hdir hnode.free hadd
    exact h.attach hdir hnode.free hnode.used hnode.parent hnode.entries rfl

/-- An inode without entries leaves the tree. -/
theorem detach (hidx : (t idx).used = true) (hne : idx ≠ rootInode)
    (hleaf : (t idx).type = .dir → (t idx).entries = []) (hused : (t' idx).used = false)
    (hparents : ∀ i, (t' i).parent = (t i).parent)
    (hdir : (t' (t idx).parent).entries = Ramfs.swapRemove (t (t idx).parent).entries idx)
    (hrest : ∀ i, i ≠ idx → (t' i).used = (t i).used ∧ (t' i).type = (t i).type)
    (hentries : ∀ i, i ≠ idx → i ≠ (t idx).parent → (t' i).entries = (t i).entries) :
    RamfsTree t' := by
  obtain ⟨hpd, hmem⟩ := h.listed idx hidx hne
  have hback (i : InodeId) (hi : t'.IsDir i) : i ≠ idx ∧ t.IsDir i := by
    have hii : i ≠ idx := by
      rintro rfl
      have := hi.1
      rw [hused] at this
      cases this
    obtain ⟨hu, ht⟩ := hrest i hii
    exact ⟨hii, hu.symm.trans hi.1, ht.symm.trans hi.2⟩
  -- nothing hangs below the removed inode
  have hno (i : InodeId) (hi : (t i).used = true) (hir : i ≠ rootInode) : (t i).parent ≠ idx := by
    intro hp
    obtain ⟨hd, hin⟩ := h.listed i hi hir
    rw [hp] at hd hin
    rw [hleaf hd.2] at hin
    cases hin
  have hlist (i : InodeId) (hi : t.IsDir i) (hii : i ≠ idx) : (t' i).entries.Nodup ∧
      ∀ j, j ∈ (t' i).entries ↔ j ∈ (t i).entries ∧ j ≠ idx := by
    by_cases hip : i = (t idx).parent
    · rw [hip, hdir]
      exact Ramfs.swapRemove_nodup (h.nodup _ hpd) hmem
    · rw [hentries i hii hip]
      refine ⟨h.nodup i hi, fun j => ⟨fun hj => ⟨hj, ?_⟩, fun hj => hj.1⟩⟩
      rintro rfl
      exact hip (h.child i hi j hj).2.2.symm
  refine ⟨?_, fun i hi => ?_, fun i hi j hj => ?_, fun i hi hir => ?_, fun i hi => ?_⟩
  · obtain ⟨hu, ht⟩ := hrest _ hne.symm
    exact ⟨hu.trans h.root.1, ht.trans h.root.2⟩
  · obtain ⟨hii, hid⟩ := hback i hi
    exact (hlist i hid hii).1
  · obtain ⟨hii, hid⟩ := hback i hi
    obtain ⟨hj, hji⟩ := ((hlist i hid hii).2 j).mp hj
    obtain ⟨hju, hjr, hjp⟩ := h.child i hid j hj
    exact ⟨(hrest j hji).1.trans hju, hjr, (hparents j).trans hjp⟩
  · have hii : i ≠ idx := by
      rintro rfl
      rw [hused] at hi
      cases hi
    rw [(hrest i hii).1] at hi
    obtain ⟨hd, hin⟩ := h.listed i hi hir
    have hpi := hno i hi hir
    obtain ⟨hu, ht⟩ := hrest _ hpi
    rw [hparents]
    exact ⟨⟨hu.trans hd.1, ht.trans hd.2⟩, ((hlist _ hd hpi).2 i).mpr ⟨hin, hii⟩⟩
  · have hii : i ≠ idx := by
      rintro rfl
      rw [hused] at hi
      cases hi
    rw [(hrest i hii).1] at hi
    have hfun : (fun j => (t' j).parent) = fun j => (t j).parent := funext hparents
    rw [hfun]
    exact h.reaches i hi

theorem delete (path : List UInt8) : RamfsTree (t.delete path).2 := by
  rcases t.delete_cases path with heq | ⟨idx, hr, hne, hleaf, hdel⟩
  · rwa [heq]
  have hidx := h.resolve_used hr
  have hp : (t idx).parent ≠ idx := by
    intro hp
    obtain ⟨hd, hin⟩ := h.listed idx hidx hne
    rw [hp] at hd hin
    exact ne_nil_of_mem hin (hleaf hd.2)
  refine h.detach hidx hne hleaf hdel.used (fun i => ?_) ?_ (fun i hi => ?_) fun i hi hip => ?_
  · by_cases hi : i = idx
    · rw [hi, hdel.parent]
    · rw [hdel.other i hi]
  · rw [hdel.other _ hp, if_pos rfl]
  · rw [hdel.other i hi]
    exact ⟨rfl, rfl⟩
  · rw [hdel.other i hi, if_neg hip]

end

end RamfsTree

/-! ## Runs -/

/-- The operations that change the inode table. A write names its inode by the index that
its descriptor holds, also when that inode has been deleted. -/
inductive RamfsOp where
  | mkdir (path : List UInt8)
  | create (path : List UInt8)
  | createDev (path : List UInt8) (dev : DevFns)
  | createDevStream (path : List UInt8) (dev : DevFns)
  | delete (path : List UInt8)
  | truncate (idx : InodeId)
  | writeAt (idx : InodeId) (offset : Nat) (bytes : List UInt8)

/-- A creation with a longer path would overrun the buffer, so it has no next state. -/
def ramfsStep (t : Ramfs) : RamfsOp → Option Ramfs
  | .mkdir path => if FitsParentPath path then some (t.mkdir path).2 else none
  | .create path => if FitsParentPath path then some (t.create path).2 else none
  | .createDev path dev => if FitsParentPath path then some (t.createDev path dev).2 else none
  | .createDevStream path dev =>
    if FitsParentPath path then some (t.createDevStream path dev).2 else none
  | .delete path => some (t.delete path).2
  | .truncate idx => some (t.truncate idx)
  | .writeAt idx offset bytes => (ramfsWriteAt t idx offset bytes).map (·.2)

/-- The path of a creation. -/
def RamfsOp.created : RamfsOp → Option (List UInt8)
  | .mkdir path | .create path | .createDev path _ | .createDevStream path _ => some path
  | .delete _ | .truncate _ | .writeAt _ _ _ => none

/-- An inode without its contents. -/
def Inode.place (node : Inode) : Inode :=
  { node with size := 0, data := fun _ => 0, dev := ⟨0, 0, 0⟩, stream := false }

/-- What a creation and a deletion keep and what does not depend on the contents of files, every
step keeps. -/
theorem ramfsStep_rule {P : Ramfs → Prop} {t t' : Ramfs} {op : RamfsOp}
    (hmake : ∀ {type dev r u} path, path ∈ op.created → t.makeNode path type dev = (r, u) → P u)
    (hdelete : ∀ path, P (t.delete path).2)
    (hplace : ∀ u u', P u → (∀ i, (u' i).place = (u i).place) → P u') (h : P t)
    (hs : ramfsStep t op = some t') : P t' := by
  have hguard {path : List UInt8} {u : Ramfs} (hu : P u)
      (hg : (if FitsParentPath path then some u else none) = some t') : P t' := by
    split at hg
    · rwa [← some.inj hg]
    · cases hg
  have hupdate {u : Ramfs} {idx : InodeId} {node : Inode} (hu : P u)
      (hnode : node.place = (u idx).place) : P (update u idx node) := by
    refine hplace u _ hu fun i => ?_
    by_cases hi : i = idx
    · rw [hi, update_self, hnode]
    · rw [update_of_ne hi]
  cases op with
  | mkdir path => exact hguard (hmake path rfl rfl) hs
  | create path => exact hguard (hmake path rfl rfl) hs
  | createDev path dev => exact hguard (hmake path rfl rfl) hs
  | createDevStream path dev =>
    refine hguard ?_ hs
    unfold Ramfs.createDevStream
    split
    · next e t1 hm => exact hmake path rfl hm
    · next idx t1 hm =>
      have h1 := hmake path rfl hm
      split
      · exact h1
      · exact hupdate h1 rfl
  | delete path =>
    rw [← some.inj hs]
    exact hdelete path
  | truncate idx =>
    rw [← some.inj hs]
    exact hupdate h rfl
  | writeAt idx offset bytes =>
    obtain ⟨⟨r, t1⟩, hw, rfl⟩ := map_eq_some_iff.mp hs
    unfold ramfsWriteAt at hw
    dsimp only at hw
    split_ifs at hw
    · cases hw
      exact h
    · obtain ⟨-, rfl⟩ := Prod.mk.inj (some.inj hw)
      exact hupdate h rfl

theorem ramfsInit_tree : RamfsTree ramfsInit := by
  have hroot (i : InodeId) (hi : (ramfsInit i).used = true) : i = rootInode := by
    simpa [ramfsInit] using hi
  refine ⟨⟨rfl, rfl⟩, fun d _ => nodup_nil, fun d _ i hi => ?_, fun i hi hne => ?_,
    fun i hi => ⟨0, hroot i hi⟩⟩
  · cases hi
  · exact absurd (hroot i hi) hne

theorem ramfsStep_tree {t t' : Ramfs} {op : RamfsOp} (h : RamfsTree t)
    (hs : ramfsStep t op = some t') : RamfsTree t' := by
  refine ramfsStep_rule (fun path _ hm => h.makeNode hm) h.delete (fun u u' hu hsame => ?_) h hs
  exact hu.congr (fun i => (congrArg Inode.used (hsame i) :)) fun i _ =>
    ⟨(congrArg Inode.type (hsame i) :), (congrArg Inode.parent (hsame i) :),
      (congrArg Inode.entries (hsame i) :)⟩

/-- After any run the inodes in use form a tree below the root: a directory lists distinct
inodes in use that name it as their parent, every inode in use but the root is listed in
exactly one directory, and the parents lead to the root. -/
theorem ramfs_forms_tree {ops : List RamfsOp} {t : Ramfs}
    (hr : Run.run ramfsStep ramfsInit ops = some t) :
    t.IsDir rootInode ∧
      (∀ d, t.IsDir d → (t d).entries.Nodup ∧
        ∀ i ∈ (t d).entries, (t i).used = true ∧ i ≠ rootInode ∧ (t i).parent = d) ∧
      (∀ i, (t i).used = true → i ≠ rootInode → t.IsDir (t i).parent ∧
        ∀ d, t.IsDir d → (i ∈ (t d).entries ↔ d = (t i).parent)) ∧
      ∀ i, (t i).used = true → ∃ n, (fun j => (t j).parent)^[n] i = rootInode := by
  have h : RamfsTree t := Run.run_invariant ramfsStep (fun s op s' hs => ramfsStep_tree hs)
    ramfsInit_tree hr
  refine ⟨h.root, fun d hd => ⟨h.nodup d hd, h.child d hd⟩, fun i hi hne => ?_, h.reaches⟩
  obtain ⟨hd, hmem⟩ := h.listed i hi hne
  refine ⟨hd, fun d hdir => ⟨fun hin => (h.child d hdir i hin).2.2.symm, ?_⟩⟩
  rintro rfl
  exact hmem

/-- `mkdir /a`, `create /a/b`, a write to the new file, and `unlink /a/b`. -/
def smallRun : List RamfsOp :=
  [.mkdir [47, 97], .create [47, 97, 47, 98], .writeAt ⟨2, by decide⟩ 0 [1, 2],
    .delete [47, 97, 47, 98]]

theorem ramfs_forms_tree_small :
    ∃ t, Run.run ramfsStep ramfsInit smallRun = some t ∧ t.IsDir rootInode := by
  have hsome : (Run.run ramfsStep ramfsInit smallRun).isSome = true := by decide +kernel
  obtain ⟨t, ht⟩ := isSome_iff_exists.mp hsome
  exact ⟨t, ht, (ramfs_forms_tree ht).1⟩

end Crius.Fs
