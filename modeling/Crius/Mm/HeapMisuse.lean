import Crius.Mm.HeapSeparation

/-!
# Pointers and sizes at the edge

What `kfree` does with a pointer that it has just freed, as `task_cleanup` passes it when
`kernel_stack` and `stack` are the same, and what `kmalloc` does with sizes near the top of
`size_t`, in every state that the heap can reach.
-/
namespace Crius.Mm

open Lib.Run Function

variable {h : Heap} {lay : Layout} {b : Blk} {s : HeapState} {mem : Nat → Nat} {hhdm : Nat}
  {answer : PageAnswer} {ops : List HeapOp}

theorem heapInv_run (hgrant : GrantOk (Heap.empty mem hhdm) pageSize answer)
    (hrun : run heapStep (bootHeap mem hhdm answer) ops = some s) : ∃ lay, HeapInv s lay := by
  have hkeep (s : HeapState) (op : HeapOp) (s' : HeapState) (hinv : ∃ lay, HeapInv s lay)
      (hstep : heapStep s op = some s') : ∃ lay, HeapInv s' lay := by
    obtain ⟨lay, hi⟩ := hinv
    obtain ⟨t, lay', hstep', hi', -⟩ := heapStep_spec hi (heapStep_enabled hstep)
    cases hstep.symm.trans hstep'
    exact ⟨lay', hi'⟩
  obtain ⟨lay, hi, -⟩ := heapInv_boot hgrant
  exact run_invariant heapStep hkeep ⟨lay, hi⟩ hrun

/-! ## A pointer that is freed twice -/

theorem kfree_ignored {ptr : Nat} (hcond : findPageRun h (ptr - headerSize) = none ∨
    h.free (ptr - headerSize) = true) : kfree h ptr = some (none, h) := by
  unfold kfree
  split
  · rfl
  · dsimp only
    split
    · rfl
    · next i hi =>
      have hfree := hcond.resolve_left (by rw [hi]; exact Option.some_ne_none i)
      split
      · rfl
      · rw [if_pos hfree]

/-- The second call finds no run, or the flag that the first one has set: it is still there
when the header has become a part of the block in front. -/
theorem kfree_twice (hs : Sound h lay) (hb : Used h.runs lay b) :
    ∃ released h', kfree h (b.addr + headerSize) = some (released, h') ∧
      kfree h' (b.addr + headerSize) = some (none, h') := by
  obtain ⟨⟨r, hr, hbr⟩, hused⟩ := hb
  obtain ⟨xs, ys, hlay⟩ := List.append_of_mem hbr
  obtain ⟨h3, i, d, pre, fs, gs, rest, hcalled, hruns3, hi, hc, hs3, -, hfree⟩ :=
    kfree_coalesces hs hr hlay hused
  obtain ⟨-, -, hend⟩ := releaseRun_spec hs3 (by rw [hruns3]; exact hi)
    (update_self ..) hc.joint_free
  refine ⟨(releaseRun h3 i r d.addr).1, (releaseRun h3 i r d.addr).2, hcalled, kfree_ignored ?_⟩
  rw [Nat.add_sub_cancel]
  rcases hend with ⟨-, -, hruns⟩ | ⟨-, heq⟩
  · left
    rw [findPageRun, List.findIdx?_eq_none_iff]
    intro t ht
    obtain ⟨ht, hne⟩ := (hruns t).mp ht
    rw [hruns3] at ht
    have hin := hs.laid.block_in_run hr hbr
    have hsize := hs.laid.size_ge ⟨r, hr, hbr⟩
    have hstop : b.stop = b.addr + b.size := rfl
    have hapart : r.stop ≤ t.virt ∨ t.stop ≤ r.virt :=
      (hs.laid.runs_apart hr ht).resolve_left hne.symm
    rw [decide_eq_false_iff_not]
    omega
  · right
    rw [heq]
    exact hfree

/-- In every state that the heap reaches, freeing a live pointer a second time returns and
changes nothing: neither the heap nor, by a call of `pmm_free_pages`, the page allocator. -/
theorem repeated_kfree (hgrant : GrantOk (Heap.empty mem hhdm) pageSize answer)
    (hrun : run heapStep (bootHeap mem hhdm answer) ops = some s) {a : Alloc} (ha : a ∈ s.live) :
    ∃ released h', kfree s.heap a.ptr = some (released, h') ∧
      kfree h' a.ptr = some (none, h') := by
  obtain ⟨lay, hi⟩ := heapInv_run hgrant hrun
  obtain ⟨c, hc, hp⟩ := (hi.live a.ptr).mp ⟨a, ha, rfl⟩
  rw [hp]
  exact kfree_twice hi.sound hc

/-- The second of three blocks, after the first one has been freed: the first call merges it
with the block in front. -/
theorem repeated_kfree_merged : ∃ s released h', threeBlocks [.kfree 0x1020] = some s ∧
    kfree s.heap 0x1058 = some (released, h') ∧ kfree h' 0x1058 = some (none, h') := by
  have hlive : ((threeBlocks [.kfree 0x1020]).map fun s => s.live) =
      some [⟨0x1090, 16⟩, ⟨0x1058, 16⟩] := by decide +kernel
  obtain ⟨s, hrun, hs⟩ := Option.map_eq_some_iff.mp hlive
  obtain ⟨released, h', hfirst, hagain⟩ := repeated_kfree (a := ⟨0x1058, 16⟩) (by decide +kernel)
    hrun (by rw [hs]; simp)
  exact ⟨s, released, h', hrun, hfirst, hagain⟩

/-! ## Sizes near the top -/

theorem Allocated.room_iff {size p : Nat} {h' : Heap} {lay' : Layout} (hsize : size < 2 ^ 64)
    (hall : Allocated h lay size p h' lay') :
    (p = 0 ∨ p + size ≤ h'.payloadEnd p) ↔ (p = 0 ∨ size + 47 < 2 ^ 64) := by
  rcases hall.result with ⟨rfl, -⟩ | ⟨u, rfl, htotal, hused, -⟩
  · simp
  · obtain ⟨hu, -⟩ := (hused u).mpr (.inl rfl)
    obtain ⟨r, hr, hur⟩ := hu
    have hl := hall.sound.laid
    have hin := hl.block_in_run hr hur
    have hle := (hl.granted r hr).stop_le
    have hpos := (hl.granted r hr).virt_ne_zero
    obtain ⟨n, hn⟩ := (hl.granted r hr).aligned
    have hstop : u.stop = u.addr + u.size := rfl
    rw [hl.payloadEnd_eq ⟨r, hr, hur⟩]
    refine or_congr_right ⟨fun hroom => ?_, fun hsized => ?_⟩
    · by_contra hwrap
      unfold headerSize footerSize pageSize at *
      omega
    · have hge := blockTotal_ge hsized
      unfold headerSize footerSize
      omega

/-- The heap has no block to give: the free list is empty, and no page is granted or the table of
runs is full. -/
def Exhausted (h : Heap) (next : PageAnswer) : Prop :=
  h.freeList = 0 ∧ (maxPageRuns ≤ h.runs.length ∨ next = ⟨0, 0⟩)

/-- A size that wraps is a request for the smallest block. -/
theorem blockTotal_wraps {size : Nat} (hsize : size < 2 ^ 64) (hwrap : 2 ^ 64 ≤ size + 47) :
    blockTotal size = minBlock := by
  unfold blockTotal
  apply if_pos
  unfold headerSize footerSize minBlock headerSize footerSize
  omega

/-- Every block is large enough for the smallest request, so only an empty list has none. -/
theorem findFit_minBlock (hs : Sound h lay) (hlist : h.freeList ≠ 0) :
    findFit h minBlock = some (some h.freeList) := by
  obtain ⟨⟨c, hc, hfree, haddr⟩, -⟩ :=
    hs.list.linked.head_ok h.freeList (ptr_eq_some.mpr ⟨rfl, hlist⟩)
  have hflag := hs.laid.mem_free hc
  have hsize := hs.laid.mem_size hc
  have hmin := hs.laid.size_ge hc
  rw [haddr] at hflag hsize
  rw [findFit, findFitFrom, if_neg hlist, if_pos]
  rw [hflag, hfree, hsize]
  exact ⟨rfl, hmin⟩

theorem grantedRun_eq_none {hhdm needed : Nat} {next : PageAnswer} :
    grantedRun hhdm needed next = none ↔ next = ⟨0, 0⟩ := by
  obtain ⟨many, one⟩ := next
  unfold grantedRun
  split_ifs with hmany hone <;> simp_all

/-- A request that wraps is refused by an exhausted heap only. -/
theorem kmalloc_wrapped_eq_zero (hs : Sound h lay) (hcalm : Calm h.runs lay) {size p : Nat}
    {h' : Heap} {next : PageAnswer} (hnext : GrantOk h (blockTotal size) next)
    (hsize : size < 2 ^ 64) (hwrap : 2 ^ 64 ≤ size + 47)
    (hcall : kmalloc h size next = some (p, h')) : p = 0 ↔ Exhausted h next := by
  have hzero : size ≠ 0 := by omega
  rw [blockTotal_wraps hsize hwrap] at hnext
  rw [kmalloc, if_neg hzero, blockTotal_wraps hsize hwrap] at hcall
  dsimp only at hcall
  by_cases hlist : h.freeList = 0
  · have hnone : findFit h minBlock = some none := by
      rw [findFit, findFitFrom, if_pos hlist]
    rw [hnone] at hcall
    dsimp only [newPageRun] at hcall
    by_cases hfull : maxPageRuns ≤ h.runs.length
    · rw [if_pos hfull] at hcall
      cases hcall
      exact iff_of_true rfl ⟨hlist, .inl hfull⟩
    rw [if_neg hfull] at hcall
    cases hr : grantedRun h.hhdm minBlock next with
    | none =>
      rw [hr] at hcall
      cases hcall
      exact iff_of_true rfl ⟨hlist, .inr (grantedRun_eq_none.mp hr)⟩
    | some r =>
      obtain ⟨hrok, hapart⟩ := hnext r hr
      obtain ⟨hs1, -⟩ := newRun_spec hs hcalm hrok hapart
      have hlist1 : (freeListInsert (initRun h r) r.virt).freeList = r.virt := rfl
      rw [hr] at hcall
      dsimp only at hcall
      rw [findFit_minBlock hs1 (hlist1 ▸ hrok.virt_ne_zero)] at hcall
      cases hcall
      refine iff_of_false (Nat.succ_ne_zero _) ?_
      rintro ⟨-, hfull' | hnull⟩
      · exact hfull hfull'
      · rw [grantedRun_eq_none.mpr hnull] at hr
        cases hr
  · rw [findFit_minBlock hs hlist] at hcall
    cases hcall
    simp [Exhausted, hlist, headerSize]

/-- In every state that the heap reaches and for every value of `size_t`, `kmalloc` returns. It
returns NULL or a block with that many bytes before its footer if and only if the size is more than
47 below the top or the heap was exhausted. -/
theorem kmalloc_capacity_iff (hgrant : GrantOk (Heap.empty mem hhdm) pageSize answer)
    (hrun : run heapStep (bootHeap mem hhdm answer) ops = some s) {size : Nat}
    (hsize : size < 2 ^ 64) {next : PageAnswer} (hnext : GrantOk s.heap (blockTotal size) next) :
    ∃ p h', kmalloc s.heap size next = some (p, h') ∧
      ((p = 0 ∨ p + size ≤ h'.payloadEnd p) ↔ (size + 47 < 2 ^ 64 ∨ Exhausted s.heap next)) := by
  obtain ⟨lay, hi⟩ := heapInv_run hgrant hrun
  obtain ⟨p, h', lay', hcall, hall⟩ := kmalloc_spec hi.sound hi.calm size hnext
  refine ⟨p, h', hcall, (hall.room_iff hsize).trans ?_⟩
  by_cases hwrap : 2 ^ 64 ≤ size + 47
  · have hnull := kmalloc_wrapped_eq_zero hi.sound hi.calm hnext hsize hwrap hcall
    simp only [hnull, Nat.not_lt.mpr hwrap, or_false, false_or]
  · simp only [Nat.not_le.mp hwrap, or_true, true_or]

/-- The free block behind three others is given out, and has the 100 bytes. -/
theorem kmalloc_capacity_iff_hundred : ∃ s p h', threeBlocks [] = some s ∧
    kmalloc s.heap 100 ⟨0, 0⟩ = some (p, h') ∧ p ≠ 0 ∧ p + 100 ≤ h'.payloadEnd p := by
  have hcalled : ((threeBlocks []).map fun s => (decide (GrantOk s.heap (blockTotal 100) ⟨0, 0⟩),
      (kmalloc s.heap 100 ⟨0, 0⟩).map Prod.fst)) = some (true, some 0x10c8) := by decide +kernel
  obtain ⟨s, hrun, hs⟩ := Option.map_eq_some_iff.mp hcalled
  obtain ⟨hnext, hp⟩ := Prod.mk.inj hs
  obtain ⟨p, h', hcall, hiff⟩ := kmalloc_capacity_iff (by decide +kernel) hrun (by decide)
    (of_decide_eq_true hnext)
  rw [hcall, Option.map_some, Option.some_inj] at hp
  have hne : p ≠ 0 := by
    rw [show p = 0x10c8 from hp]
    decide
  exact ⟨s, p, h', hrun, hcall, hne, (hiff.mpr (.inl (by decide))).resolve_left hne⟩

/-- A request for `2^64 - 40` bytes is given the smallest block, with room for 16. -/
theorem kmalloc_wraps : ((kmalloc (bootHeap (fun _ => 0) 0 ⟨0x1000, 0⟩).heap (2 ^ 64 - 40)
    ⟨0, 0⟩).map fun (p, h') => (p, h'.payloadEnd p)) = some (0x1020, 0x1030) := by decide +kernel

end Crius.Mm
