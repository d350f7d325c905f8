import Crius.Mm.Guard
import Crius.Process.ElfConfined

/-!
# Loading into a new address space

The loader on a space that is being built. For a file whose segments lie in the user half it
maps user pages only, and both its outcomes leave a space that can be given up as a whole.
-/
namespace Crius.Elf

open Mm Lib Multiset Option

variable {vm₀ vm : Vm} {roots loose : Multiset Addr} {reserved heap : Addr → Prop} {r : Addr}
  {elf : Buffer} {seg : Phdr} {p : Nat} {s : Loader}

theorem present_flags (seg : Phdr) : present seg.flags = true := by
  unfold Phdr.flags
  cases seg.writes <;> cases seg.runs <;> decide

theorem leafAddr_flags (seg : Phdr) : leafAddr seg.flags = 0 := by
  unfold Phdr.flags
  cases seg.writes <;> cases seg.runs <;> decide

/-- The walk without present checks ends where the checked one does. -/
theorem pageTable_of_findPt {cr3 virt pt : Addr} (h : findPt vm cr3 virt = some pt) :
    pageTable cr3 vm virt = pt := by
  simp only [findPt, tableUnder, bind_eq_bind, bind_eq_some_iff,
    ite_none_right_eq_some, some.injEq] at h
  obtain ⟨pdpt, ⟨-, rfl⟩, pd, ⟨-, rfl⟩, -, rfl⟩ := h
  rfl

/-- An address that `vmm_get_phys` finds. -/
theorem vmmGetPhys_ne_zero {cr3 virt : Addr} (h : vmmGetPhys vm cr3 virt ≠ 0) :
    ∃ pt, findPt vm cr3 virt = some pt ∧ present (vm.mem pt (tableIndex virt 12)) = true ∧
      vmmGetPhys vm cr3 virt = leafAddr (vm.mem pt (tableIndex virt 12)) := by
  unfold vmmGetPhys at h ⊢
  cases hpt : findPt vm cr3 virt with
  | none =>
    rw [hpt] at h
    exact absurd rfl h
  | some pt =>
    rw [hpt] at h
    by_cases hp : present (vm.mem pt (tableIndex virt 12)) = true
    · exact ⟨pt, rfl, hp, if_pos hp⟩
    · simp only [if_neg hp] at h
      exact absurd rfl h

theorem building_loadPage (elf : Buffer) (hv : seg.page p < userAddrMax)
    (h : Building vm₀ roots reserved heap r 0 s.vm) :
    Building vm₀ roots reserved heap r 0 (loadPage r elf seg p s).2.vm := by
  have hlow := tableIndex_lt hv
  have hself := Building.root_mem r roots
  simp only [loadPage]
  split
  · rename_i hexists
    obtain ⟨pt, hpt, hp, hphys⟩ := vmmGetPhys_ne_zero hexists
    generalize vmmGetPhys s.vm r (seg.page p) = phys at *
    obtain ⟨page, hcopy⟩ := copyFile_vm elf seg (seg.page p) phys s
    generalize copyFile elf seg (seg.page p) phys s = s1 at *
    have hframe := h.forest.roots_frame r hself
    have hleaf : 0 < rootLeaves s.vm.mem r phys := by
      have hfind : leafAt s.vm.mem r (pagePath (seg.page p)) =
          some (s.vm.mem pt (tableIndex (seg.page p) 12)) := by
        rw [leafAt_pagePath hframe hlow, hpt, bind_some, if_pos hp]
      rw [hphys]
      exact Radix.leafCount_pos hfind
    have hcopied := h.setLeaf hleaf page
    rw [← hcopy] at hcopied
    split
    · -- the page is not a table, so the walk after the copy ends at the same entry
      have htable (x : Addr) {k : ℕ} (hx : Radix.Below shape s.vm.mem 4 (rootWord r) x k) :
          s1.vm.mem x = s.vm.mem x := by
        rw [hcopy]
        apply s.vm.setPage_mem_of_ne
        rintro rfl
        have hpos := treeTables_pos hself hx
        have hle : rootLeaves s.vm.mem r x ≤ treeLeaves s.vm.mem (r ::ₘ roots) x :=
          rootLeaves_le hself x
        have hsingle := h.forest.accounts.single x
        omega
      rw [findPt_eq_locate hframe hlow] at hpt
      have hpt' : findPt s1.vm r (seg.page p) = some pt := by
        rw [findPt_eq_locate hframe hlow, ← hpt]
        exact Radix.locate_congr (fun x k hx => htable x hx) _
      have hp' : present (s1.vm.mem pt (tableIndex (seg.page p) 12)) = true := by
        rw [htable pt (Radix.below_of_locate (k := 0) hpt rfl)]
        exact hp
      simp only [allowWrite, pageTable_of_findPt hpt']
      apply hcopied.rewrite hlow hpt' hp'
      · rw [present_or_writable]
        exact hp'
      · exact leafAddr_or_writable _
    · exact hcopied
  · rename_i hnone
    rcases halloc : s.vm.allocPage with ⟨phys, vm1⟩
    rcases h.alloc halloc with ⟨rfl, rfl⟩ | ⟨hphys, h1⟩
    · rw [if_pos rfl]
      exact h
    · rw [if_neg hphys]
      have h2 := h1.setLoose (mem_cons_self phys 0) fun _ => 0
      obtain ⟨page, hcopy⟩ := copyFile_vm elf seg (seg.page p) phys
        ⟨vm1.setPage phys fun _ => 0, s.log⟩
      have h3 := h2.setLoose (mem_cons_self phys 0) page
      rw [← hcopy] at h3
      unfold mapNew
      rcases hmap : vmmMapPage r (seg.page p) phys seg.flags
        (copyFile elf seg (seg.page p) phys ⟨vm1.setPage phys fun _ => 0, s.log⟩).vm with ⟨ok, vm2⟩
      rcases h3.map hlow (present_flags seg) (leafAddr_flags seg) hmap with
        ⟨rfl, h4⟩ | ⟨rfl, h4⟩
      · exact h4.free
      · exact h4

/-- The segments that the loader reaches lie in the user half. -/
def Buffer.UserOnly (elf : Buffer) : Prop :=
  ∀ i < elf.ePhnum.toNat, elf.Reaches i → (elf.phdr i).isLoad = true → (elf.phdr i).Accepted →
    (elf.phdr i).InUserRange

theorem building_elfLoadToTask {elfData : Option Buffer}
    (huser : ∀ elf, elfData = some elf → elf.HeaderOk → elf.UserOnly)
    (h : Building vm₀ roots reserved heap r 0 vm) :
    Building vm₀ roots reserved heap r 0 (elfLoadToTask r elfData vm).2.vm := by
  cases elfData with
  | none => exact h
  | some elf =>
    rw [elfLoadToTask]
    by_cases hsize : elf.size < 64
    · rw [if_pos hsize]
      exact h
    · rw [if_neg hsize]
      by_cases hmagic : elf.hasMagic = false
      · rw [if_pos hmagic]
        exact h
      · rw [if_neg hmagic]
        by_cases hmachine : elf.eMachine ≠ 0x3E
        · rw [if_pos hmachine]
          exact h
        · rw [if_neg hmachine]
          by_cases hend : elf.size < elf.ePhoff + elf.ePhnum.setWidth 64 * 56
          · rw [if_pos hend]
            exact h
          · rw [if_neg hend]
            have hok : elf.HeaderOk := ⟨BitVec.not_lt.mp hsize,
              Bool.eq_true_of_not_eq_false hmagic, not_not.mp hmachine, BitVec.not_lt.mp hend⟩
            have hsegments := huser elf rfl hok
            have hinv : Invariant r elf fun s => Building vm₀ roots reserved heap r 0 s.vm := by
              refine ⟨fun _ _ _ hs => hs, fun _ _ _ _ _ _ hs => hs, fun i hi p hp s hs => ?_⟩
              have hrange := hsegments i hi.index hi.reached hi.load hi.accepted
              exact building_loadPage elf (page_lt (hrange.below hi.accepted hp)) hs
            have hload := hinv.loadSegments elf.ePhnum.toNat 0 (by omega)
              (fun j hj => absurd hj (Nat.not_lt_zero j))
              (s := ((((⟨vm, []⟩ : Loader).note (.read 0 4)).note (.read 18 2)).note
                (.read 32 8)).note (.read 56 2)) h
            split
            · rename_i s hrun
              rw [hrun] at hload
              exact hload
            · rename_i s hrun
              rw [hrun] at hload
              exact hload

end Crius.Elf
