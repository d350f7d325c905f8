import Crius.Mm.HeapCalls

/-!
# `kmalloc` on layouts

The search of the free list ends because the list does; the block found is taken off the
list, cut if the rest can be a block of its own, and marked. A new page run is a layout of
one free block.
-/
namespace Crius.Mm

open Lib.DList Lib.Tiling Lib.Chain Function List

variable {h h' : Heap} {lay : Layout} {r : PageRun} {b n : Blk} {xs ys : List Blk}
  {F : Nat → Prop} {total : Nat}

/-! ## `find_fit` -/

theorem findFitFrom_chain {l : List Nat} {x : Nat} (hl : IsChain h.nextNode (ptr x) l)
    {fuel : Nat} (hfuel : l.length < fuel) :
    findFitFrom h total fuel x = some (l.find? fun b => h.free b ∧ total ≤ h.size b) := by
  induction l generalizing x fuel with
  | nil =>
    obtain ⟨fuel, rfl⟩ := Nat.exists_eq_succ_of_ne_zero (show fuel ≠ 0 by omega)
    rw [findFitFrom, if_pos (ptr_eq_none.mp hl)]
    rfl
  | cons a l ih =>
    obtain ⟨fuel, rfl⟩ := Nat.exists_eq_succ_of_ne_zero (show fuel ≠ 0 by omega)
    obtain ⟨rfl, hx⟩ := ptr_eq_some.mp hl.1
    rw [findFitFrom, if_neg hx, find?_cons]
    split_ifs with hfit
    · simp [hfit]
    · rw [ih hl.2 (by rw [length_cons] at hfuel; omega)]
      simp [hfit]

/-- The list of a sound heap ends after at most as many nodes as the heap has bytes. -/
theorem Sound.exists_chain (hs : Sound h lay) :
    ∃ l, IsChain h.nextNode h.headNode l ∧ l.length ≤ h.capacity := by
  have hmem (x : Nat) (hx : Free h.runs lay x) :
      x ∈ h.runs.flatMap fun r => (lay r.virt).map Blk.addr := by
    obtain ⟨c, ⟨r, hr, hc⟩, -, rfl⟩ := hx
    exact mem_flatMap.mpr ⟨r, hr, mem_map_of_mem hc⟩
  obtain ⟨l, hl⟩ := hs.list.linked.exists_chain _ hmem
  refine ⟨l, hl, ?_⟩
  have hsub : l.Subperm (h.runs.flatMap fun r => (lay r.virt).map Blk.addr) :=
    subperm_of_subset (isChain_nodup hl) fun x hx => hmem x (hs.list.linked.chain_mem hl x hx)
  refine Nat.le_trans hsub.length_le ?_
  rw [length_flatMap]
  refine sum_le_sum fun r hr => ?_
  have hlen := tiles_length (hs.laid.tiles r hr)
  have hstop : r.stop = r.virt + r.pageCount * pageSize := rfl
  rw [length_map]
  omega

/-- `find_fit` returns, and a block that it returns is free and large enough. -/
theorem findFit_spec (hs : Sound h lay) (total : Nat) :
    ∃ found, findFit h total = some found ∧
      ∀ x, found = some x → ∃ c, InHeap h.runs lay c ∧ c.free = true ∧ c.addr = x ∧
        total ≤ c.size := by
  obtain ⟨l, hl, hlen⟩ := hs.exists_chain
  refine ⟨_, findFitFrom_chain hl (Nat.lt_succ_of_le hlen), fun x hx => ?_⟩
  obtain ⟨c, hc, hfree, rfl⟩ := hs.list.linked.chain_mem hl x (mem_of_find?_eq_some hx)
  have hfit := find?_some hx
  simp only [decide_eq_true_eq, hs.laid.mem_size hc] at hfit
  exact ⟨c, hc, hfree, rfl, hfit.2⟩

/-! ## `split_block` -/

theorem cutBlock_mem {b s : Nat} (hsize : h.size b = s) (htotal : 56 ≤ total)
    (hroom : total + 56 ≤ s) (w : Nat) :
    (cutBlock h b total).mem w =
      if w = b + total - 8 then total else if w = b + s - 8 then s - total
      else if w = b then total else if w = b + total + 24 ∨ w = b + total + 16 then 0
      else if w = b + total + 8 then 1 else if w = b + total then s - total else h.mem w := by
  have hb : h.mem b = s := hsize
  unfold cutBlock
  -- the heap before the two footers
  have hbefore (w : Nat) : ((((((h.write (b + total) (h.size b - total)).setFree (b + total)
      true).write (b + total + 16) 0).write (b + total + 24) 0).write b total)).mem w =
        if w = b then total else if w = b + total + 24 ∨ w = b + total + 16 then 0
        else if w = b + total + 8 then 1 else if w = b + total then s - total else h.mem w := by
    simp only [Heap.setFree, Heap.write_mem, Heap.size, hb, if_true]
    split_ifs <;> first | rfl | omega
  simp only
  generalize ((((((h.write (b + total) (h.size b - total)).setFree (b + total)
      true).write (b + total + 16) 0).write (b + total + 24) 0).write b total)) = h1 at hbefore ⊢
  have hn : h1.size (b + total) = s - total := by
    rw [Heap.size, hbefore]
    split_ifs <;> first | rfl | omega
  have hb1 : (h1.setFooter (b + total)).size b = total := by
    rw [Heap.setFooter, hn, Heap.size, Heap.write_mem, hbefore, if_pos rfl]
    split
    · unfold footerSize at *
      omega
    · rfl
  rw [Heap.setFooter, hb1, Heap.write_mem, Heap.setFooter, hn, Heap.write_mem, hbefore]
  have hfoot : b + total + (s - total) - footerSize = b + s - 8 := by
    unfold footerSize
    omega
  rw [hfoot]
  rfl

@[simp] theorem cutBlock_runs (h : Heap) (b total : Nat) : (cutBlock h b total).runs = h.runs := rfl

/-- The part of a block behind `total` bytes, free. -/
abbrev Blk.rest (b : Blk) (total : Nat) : Blk := ⟨b.addr + total, b.size - total, true⟩

section Block

variable (hr : r ∈ h.runs) (hlay : lay r.virt = xs ++ b :: ys)

include hr hlay

/-- A block is cut in two; the part behind is free. -/
theorem Laid.cut (hl : Laid h lay) (htotal : 56 ≤ total) (haligned : 8 ∣ total)
    (hroom : total + 56 ≤ b.size) :
    Laid (cutBlock h b.addr total) (update lay r.virt
      (xs ++ ⟨b.addr, total, b.free⟩ :: b.rest total :: ys)) := by
  have hbin : b ∈ lay r.virt := by rw [hlay]; simp
  have hok := hl.ok r hr b hbin
  have hmem := cutBlock_mem (hl.mem_size ⟨r, hr, hbin⟩) htotal hroom
  have hstop : b.stop = b.addr + b.size := rfl
  have hnew : Tiles Blk.addr Blk.stop b.addr b.stop
      [⟨b.addr, total, b.free⟩, b.rest total] := by
    refine ⟨rfl, ?_, rfl, ?_, ?_⟩
    · show b.addr < b.addr + total
      omega
    · show b.addr + total < b.addr + total + (b.size - total)
      omega
    · show b.addr + total + (b.size - total) = b.stop
      omega
  refine hl.retile hr hlay (tiles_one (show 0 < b.size by omega)) (cons_ne_nil b []) hnew
    rfl ?_ ?_
  · intro w hw
    rw [hmem]
    split_ifs <;> first | rfl | omega
  · intro c hc
    rcases mem_cons.mp hc with rfl | hc
    · refine ⟨?_, ?_, ?_, htotal, haligned⟩
      · show (cutBlock h b.addr total).mem b.addr = total
        rw [hmem, if_neg (by omega), if_neg (by omega), if_pos rfl]
      · show (cutBlock h b.addr total).mem (b.addr + 8) = if b.free then 1 else 0
        rw [hmem, ← hok.flag]
        split_ifs <;> first | rfl | omega
      · show (cutBlock h b.addr total).mem (b.addr + total - 8) = total
        rw [hmem, if_pos rfl]
    · obtain rfl := mem_singleton.mp hc
      refine ⟨?_, ?_, ?_, ?_, ?_⟩
      · show (cutBlock h b.addr total).mem (b.addr + total) = b.size - total
        rw [hmem]
        split_ifs <;> first | rfl | omega
      · show (cutBlock h b.addr total).mem (b.addr + total + 8) = 1
        rw [hmem]
        split_ifs <;> first | rfl | omega
      · show (cutBlock h b.addr total).mem (b.addr + total + (b.size - total) - 8) =
          b.size - total
        rw [hmem, if_neg (by omega), if_pos (by omega)]
      · show 56 ≤ b.size - total
        omega
      · exact Nat.dvd_sub hok.aligned haligned

/-! ## Taking a block -/

/-- What a successful `kmalloc` does: the block `u` is new in use, and no block in use
started at its address. -/
structure Taken (h : Heap) (lay : Layout) (h' : Heap) (lay' : Layout) (u : Blk) : Prop where
  sound : Sound h' lay'
  calm : Calm h'.runs lay'
  used : ∀ c, Used h'.runs lay' c ↔ c = u ∨ Used h.runs lay c
  fresh : ∀ c, Used h.runs lay c → c.addr ≠ u.addr
  listed : Listed h lay → Listed h' lay'

/-- The blocks in use after a free block has been replaced. -/
theorem used_take {u : Blk} (rest : List Blk) (hb : b.free = true) (hu : u.free = false)
    (hrest : ∀ c ∈ rest, c.free = true) (c : Blk) :
    Used h.runs (update lay r.virt (xs ++ u :: (rest ++ ys))) c ↔
      c = u ∨ Used h.runs lay c := by
  have hmem (c : Blk) (hc : c.free = false) :
      c ∈ xs ++ u :: (rest ++ ys) ↔ c = u ∨ c ∈ lay r.virt := by
    have hcb : c ≠ b := by
      rintro rfl
      rw [hb] at hc
      cases hc
    have hcrest : c ∉ rest := by
      intro hin
      rw [hrest c hin] at hc
      cases hc
    rw [hlay]
    simp only [mem_append, mem_cons, hcb, hcrest, false_or]
    tauto
  constructor
  · rintro ⟨⟨s, hs, hc⟩, hfree⟩
    by_cases hv : s.virt = r.virt
    · rw [hv, update_self] at hc
      rcases (hmem c hfree).mp hc with heq | hc
      · exact .inl heq
      · exact .inr ⟨⟨r, hr, hc⟩, hfree⟩
    · rw [update_of_ne hv] at hc
      exact .inr ⟨⟨s, hs, hc⟩, hfree⟩
  · rintro (rfl | ⟨⟨s, hs, hc⟩, hfree⟩)
    · refine ⟨⟨r, hr, ?_⟩, hu⟩
      rw [update_self]
      simp
    · refine ⟨⟨s, hs, ?_⟩, hfree⟩
      by_cases hv : s.virt = r.virt
      · rw [hv, update_self]
        rw [hv] at hc
        exact (hmem c hfree).mpr (.inr hc)
      · rw [update_of_ne hv]
        exact hc

/-- A free block in a calm run has no free neighbours. -/
theorem Calm.neighbours (hcalm : Calm h.runs lay) (hb : b.free = true) :
    (∀ p ∈ xs.getLast?, p.free = false) ∧ (∀ n ∈ ys.head?, n.free = false) := by
  have hchain := hcalm r hr
  rw [hlay] at hchain
  obtain ⟨-, hback, hjoin⟩ := isChain_append.mp hchain
  constructor
  · intro p hp
    have := hjoin p hp b rfl
    simpa [hb] using this
  · intro n hn
    have := (isChain_cons.mp hback).1 n hn
    simpa [hb] using this

theorem Calm.take {u : Blk} (hcalm : Calm h.runs lay) (hb : b.free = true) (hu : u.free = false) :
    Calm h.runs (update lay r.virt (xs ++ u :: ys)) ∧
      Calm h.runs (update lay r.virt (xs ++ u :: n :: ys)) := by
  have hchain := hcalm r hr
  have hafter := (hcalm.neighbours hr hlay hb).2
  rw [hlay] at hchain
  obtain ⟨hfront, hback, -⟩ := isChain_append.mp hchain
  have hys := (isChain_cons.mp hback).2
  have hother (l : List Blk) (hl : l.IsChain fun b c => ¬(b.free = true ∧ c.free = true)) :
      Calm h.runs (update lay r.virt (xs ++ u :: l)) := by
    intro s hs
    by_cases hv : s.virt = r.virt
    · rw [hv, update_self]
      refine isChain_append.mpr ⟨hfront, isChain_cons.mpr ⟨?_, hl⟩, ?_⟩
      · simp [hu]
      · rintro p - c hc ⟨-, hfree⟩
        obtain rfl : u = c := by simpa using hc
        rw [hu] at hfree
        cases hfree
    · rw [update_of_ne hv]
      exact hcalm s hs
  refine ⟨hother ys hys, hother (n :: ys) (isChain_cons.mpr ⟨?_, hys⟩)⟩
  rintro c hc ⟨-, hfree⟩
  rw [hafter c hc] at hfree
  cases hfree

/-- The free blocks after the free block `b` has been replaced by one in use and `rest`. -/
theorem Laid.free_take {u : Blk} (rest : List Blk) (hl : Laid h lay) (hu : u.free = false)
    (hrest : ∀ c ∈ rest, c.free = true) (x : Nat) :
    Free h.runs (update lay r.virt (xs ++ u :: (rest ++ ys))) x ↔
      (∃ c ∈ rest, c.addr = x) ∨ x ≠ b.addr ∧ Free h.runs lay x := by
  have hsize := hl.size_ge ⟨r, hr, (by rw [hlay]; simp : b ∈ lay r.virt)⟩
  refine (hl.free_retile hr hlay (tiles_one (show 0 < b.size by omega)) (cons_ne_nil b [])
    (u :: rest) x).trans (or_congr ?_ ?_)
  · constructor
    · rintro ⟨c, hc, hfree, hx⟩
      rcases mem_cons.mp hc with rfl | hc
      · rw [hu] at hfree
        cases hfree
      · exact ⟨c, hc, hx⟩
    · rintro ⟨c, hc, hx⟩
      exact ⟨c, mem_cons_of_mem u hc, hrest c hc, hx⟩
  · constructor
    · rintro ⟨hfree, hout⟩
      exact ⟨fun heq => hout b (mem_singleton_self b) heq.symm, hfree⟩
    · rintro ⟨hne, hfree⟩
      refine ⟨hfree, fun c hc heq => hne ?_⟩
      rw [← heq, mem_singleton.mp hc]

omit hr hlay in
theorem Laid.fresh_take (hl : Laid h lay) (hbin : InHeap h.runs lay b) (hb : b.free = true)
    (c : Blk) (hc : Used h.runs lay c) : c.addr ≠ b.addr := by
  intro heq
  have hused := hc.2
  rw [hl.eq_of_addr hc.1 hbin heq, hb] at hused
  cases hused

/-- The block found, too small to be cut. -/
theorem Sound.take (hs : Sound h lay) (hcalm : Calm h.runs lay) (hb : b.free = true) :
    Taken h lay ((freeListRemove h b.addr).setFree b.addr false)
      (update lay r.virt (xs ++ { b with free := false } :: ys))
      { b with free := false } := by
  have hbin : InHeap h.runs lay b := ⟨r, hr, by rw [hlay]; simp⟩
  have hF : Free h.runs lay b.addr := ⟨b, hbin, hb, rfl⟩
  have hl := hs.remove hF
  obtain ⟨-, hlist, hwhole⟩ := hs.list.remove hF
  have hruns : ((freeListRemove h b.addr).setFree b.addr false).runs = h.runs :=
    freeListRemove_runs h b.addr
  have hr1 : r ∈ (freeListRemove h b.addr).runs := by rw [freeListRemove_runs]; exact hr
  have hbin1 : InHeap (freeListRemove h b.addr).runs lay b := by
    rw [freeListRemove_runs]
    exact hbin
  obtain ⟨hlist', hwhole'⟩ := hlist.setFree hl
    (fun x hx => by rw [freeListRemove_runs]; exact hx.2.inHeap) hbin1 false
  have hset (x : Nat) : Free h.runs
      (update lay r.virt (xs ++ { b with free := false } :: ys)) x ↔
        x ≠ b.addr ∧ Free h.runs lay x := by
    refine (hs.laid.free_take hr hlay [] rfl (by simp) x).trans ?_
    simp
  refine ⟨⟨hl.setFree hr1 hlay false, ?_⟩, ?_, ?_,
    fun c hc => hs.laid.fresh_take hbin hb c hc, fun hw => ?_⟩
  · rw [hruns]
    exact hlist'.set_congr hset
  · rw [hruns]
    exact (hcalm.take hr hlay hb rfl (n := b)).1
  · rw [hruns]
    exact used_take hr hlay [] hb rfl (by simp)
  · unfold Listed
    rw [hruns]
    exact (hwhole' (hwhole hw)).set_congr hset

/-- Cutting a block that is not on the list: the links of the others lie outside of it. -/
theorem FreeList.cut (hf : FreeList h F) (hl : Laid h lay)
    (hF : ∀ x, F x → x ≠ b.addr ∧ ∃ c, InHeap h.runs lay c ∧ c.addr = x)
    (htotal : 56 ≤ total) (hroom : total + 56 ≤ b.size) :
    FreeList (cutBlock h b.addr total) F ∧ (Whole h F → Whole (cutBlock h b.addr total) F) := by
  have hbin : InHeap h.runs lay b := ⟨r, hr, by rw [hlay]; simp⟩
  refine hf.congr (fun w hw => ?_) rfl
  obtain ⟨x, hx, hlink⟩ := hw
  obtain ⟨hxb, c, hc, rfl⟩ := hF x hx
  have hsize := hl.size_ge hc
  have hout : w < b.addr ∨ b.addr + b.size ≤ w := by
    rcases hl.sep hc hbin with rfl | hsep | hsep
    · exact absurd rfl hxb
    · unfold Blk.stop at hsep
      omega
    · unfold Blk.stop at hsep
      omega
  rw [cutBlock_mem (hl.mem_size hbin) htotal hroom]
  split_ifs <;> first | rfl | omega

/-- The block found, cut: the part behind goes on the list. -/
theorem Sound.takeCut (hs : Sound h lay) (hcalm : Calm h.runs lay) (hb : b.free = true)
    (htotal : 56 ≤ total) (haligned : 8 ∣ total) (hroom : total + 56 ≤ b.size) :
    Taken h lay ((freeListInsert (cutBlock (freeListRemove h b.addr) b.addr total)
        (b.addr + total)).setFree b.addr false)
      (update lay r.virt (xs ++ ⟨b.addr, total, false⟩ ::
        b.rest total :: ys)) ⟨b.addr, total, false⟩ := by
  have hbin : InHeap h.runs lay b := ⟨r, hr, by rw [hlay]; simp⟩
  have hF : Free h.runs lay b.addr := ⟨b, hbin, hb, rfl⟩
  have hl := hs.remove hF
  obtain ⟨-, hlist, hwhole⟩ := hs.list.remove hF
  have hr1 : r ∈ (freeListRemove h b.addr).runs := by rw [freeListRemove_runs]; exact hr
  have hl2 := hl.cut hr1 hlay htotal haligned hroom
  set g := freeListInsert (cutBlock (freeListRemove h b.addr) b.addr total) (b.addr + total) with hg
  have hruns : (g.setFree b.addr false).runs = h.runs := by
    show g.runs = h.runs
    rw [hg, freeListInsert_runs, cutBlock_runs, freeListRemove_runs]
  obtain ⟨hlist2, hwhole2⟩ := hlist.cut hr1 hlay hl
    (fun x hx => by rw [freeListRemove_runs]; exact ⟨hx.1, hx.2.inHeap⟩) htotal hroom
  have hset2 (x : Nat) (hx : x = b.addr + total ∨ x ≠ b.addr ∧ Free h.runs lay x) :
      Free (cutBlock (freeListRemove h b.addr) b.addr total).runs (update lay r.virt
        (xs ++ ⟨b.addr, total, b.free⟩ :: b.rest total :: ys)) x := by
    rw [cutBlock_runs, freeListRemove_runs]
    refine (hs.laid.free_retile hr hlay (tiles_one (show 0 < b.size by omega)) (cons_ne_nil b [])
      [⟨b.addr, total, b.free⟩, b.rest total] x).mpr ?_
    rcases hx with rfl | ⟨hne, hfree⟩
    · exact .inl ⟨b.rest total, by simp, rfl, rfl⟩
    · refine .inr ⟨hfree, fun c hc heq => hne ?_⟩
      rw [← heq, mem_singleton.mp hc]
  have hnot : ¬(b.addr + total ≠ b.addr ∧ Free h.runs lay (b.addr + total)) := by
    rintro ⟨-, c, hc, -, haddr⟩
    rcases hs.laid.sep hc hbin with rfl | hsep | hsep
    · omega
    · unfold Blk.stop at hsep
      omega
    · unfold Blk.stop at hsep
      omega
  obtain ⟨hlist3, hwhole3⟩ := hlist2.insert hnot (hl2.nodes.mono hset2)
  have hl3 := hl2.insert hlist2 fun x hx => (hset2 x hx).inHeap
  have hr3 : r ∈ (g.setFree b.addr false).runs := hruns ▸ hr
  have hl4 := hl3.setFree hr3 (update_self ..) false
  rw [update_idem] at hl4
  have hin3 : InHeap g.runs (update lay r.virt (xs ++ ⟨b.addr, total, b.free⟩ ::
      b.rest total :: ys)) ⟨b.addr, total, b.free⟩ := by
    refine ⟨r, hr3, ?_⟩
    rw [update_self]
    exact mem_append_right xs mem_cons_self
  obtain ⟨hlist4, hwhole4⟩ := hlist3.setFree hl3
    (fun x hx => by rw [freeListInsert_runs]; exact (hset2 x hx).inHeap) hin3 false
  have hset4 (x : Nat) : Free h.runs (update lay r.virt (xs ++ ⟨b.addr, total, false⟩ ::
      b.rest total :: ys)) x ↔
        x = b.addr + total ∨ x ≠ b.addr ∧ Free h.runs lay x := by
    refine (hs.laid.free_take hr hlay [b.rest total] rfl (by simp) x).trans (or_congr ?_ Iff.rfl)
    simp [eq_comm]
  refine ⟨⟨hl4, ?_⟩, ?_, ?_, fun c hc => hs.laid.fresh_take hbin hb c hc, fun hw => ?_⟩
  · rw [hruns]
    exact hlist4.set_congr hset4
  · rw [hruns]
    exact (hcalm.take hr hlay hb rfl).2
  · rw [hruns]
    exact used_take hr hlay [b.rest total] hb rfl (by simp)
  · unfold Listed
    rw [hruns]
    exact (hwhole4 (hwhole3 (hwhole2 (hwhole hw)))).set_congr hset4

end Block

/-- The end of `kmalloc`, for a block that `find_fit` can have returned. -/
theorem takeBlock_spec (hs : Sound h lay) (hcalm : Calm h.runs lay) (hbin : InHeap h.runs lay b)
    (hb : b.free = true) (htotal : 56 ≤ total) (haligned : 8 ∣ total) (hfit : total ≤ b.size) :
    ∃ lay' u, (takeBlock h b.addr total).1 = u.addr + headerSize ∧ total ≤ u.size ∧
      Taken h lay (takeBlock h b.addr total).2 lay' u := by
  obtain ⟨r, hr, hin⟩ := hbin
  obtain ⟨xs, ys, hlay⟩ := append_of_mem hin
  -- the blocks lie below 2⁶⁴ and not in the first page, so the sum does not wrap
  have hbound : total + minBlock < 2 ^ 64 := by
    have hstop := (hs.laid.granted r hr).stop_le
    have hfirst := Nat.le_of_dvd (Nat.pos_of_ne_zero (hs.laid.granted r hr).virt_ne_zero)
      (hs.laid.granted r hr).aligned
    have := hs.laid.block_in_run hr hin
    unfold Blk.stop at this
    unfold pageSize at hfirst
    rw [minBlock_eq]
    omega
  have hF : Free h.runs lay b.addr := ⟨b, ⟨r, hr, hin⟩, hb, rfl⟩
  have hl := hs.remove hF
  have hsize : (freeListRemove h b.addr).size b.addr = b.size :=
    hl.mem_size ⟨r, by rw [freeListRemove_runs]; exact hr, hin⟩
  unfold takeBlock splitBlock
  rw [hsize, Nat.mod_eq_of_lt hbound]
  split_ifs with hcut
  · exact ⟨_, { b with free := false }, rfl, hfit, hs.take hr hlay hcalm hb⟩
  · rw [minBlock_eq] at hcut
    exact ⟨_, ⟨b.addr, total, false⟩, rfl, Nat.le_refl total,
      hs.takeCut hr hlay hcalm hb htotal haligned (by omega)⟩

/-! ## `new_page_run` -/

/-- The page allocator hands out whole pages that no run of the heap covers. -/
def GrantOk (h : Heap) (needed : Nat) (answer : PageAnswer) : Prop :=
  ∀ r ∈ grantedRun h.hhdm needed answer, r.Ok ∧ ∀ s ∈ h.runs, s.Apart r

/-- The one block of a new run. -/
def PageRun.first (r : PageRun) : Blk := ⟨r.virt, r.pageCount * pageSize, true⟩

theorem initRun_mem (h : Heap) (r : PageRun) (w : Nat) :
    (initRun h r).mem w =
      if w = r.stop - 8 then r.pageCount * pageSize
      else if w = r.virt + 24 ∨ w = r.virt + 16 then 0 else if w = r.virt + 8 then 1
      else if w = r.virt then r.pageCount * pageSize else h.mem w := by
  have hbefore (w : Nat) : ((((h.write r.virt (r.pageCount * pageSize)).setFree r.virt
      true).write (r.virt + 16) 0).write (r.virt + 24) 0).mem w =
        if w = r.virt + 24 ∨ w = r.virt + 16 then 0 else if w = r.virt + 8 then 1
        else if w = r.virt then r.pageCount * pageSize else h.mem w := by
    simp only [Heap.setFree, Heap.write_mem, if_true]
    split_ifs <;> first | rfl | omega
  have hsize : ((((h.write r.virt (r.pageCount * pageSize)).setFree r.virt
      true).write (r.virt + 16) 0).write (r.virt + 24) 0).size r.virt =
        r.pageCount * pageSize := by
    rw [Heap.size, hbefore, if_neg (by omega), if_neg (by omega), if_pos rfl]
  show (Heap.setFooter _ r.virt).mem w = _
  rw [Heap.setFooter, hsize, Heap.write_mem, hbefore]
  rfl

theorem PageRun.Ok.virt_ne {s : PageRun} (hr : r.Ok) (hs : s.Ok) (hapart : s.Apart r) :
    s.virt ≠ r.virt := by
  have := hs.lt_stop
  have := hr.lt_stop
  rcases hapart with h1 | h1 <;> omega

theorem Laid.initRun (hl : Laid h lay) (hr : r.Ok) (hapart : ∀ s ∈ h.runs, s.Apart r) :
    Laid (initRun h r) (update lay r.virt [r.first]) := by
  have hbytes : 4096 ≤ r.pageCount * pageSize := Nat.le_mul_of_pos_left _ hr.pages_pos
  have hstop : r.stop = r.virt + r.pageCount * pageSize := rfl
  have hmem := initRun_mem h r
  have hruns : (Mm.initRun h r).runs = h.runs ++ [r] := rfl
  have hne (s : PageRun) (hs : s ∈ h.runs) := hr.virt_ne (hl.granted s hs) (hapart s hs)
  refine ⟨?_, ?_, ?_, ?_⟩ <;> rw [hruns]
  · intro s hs
    rcases mem_append.mp hs with hs | hs
    · exact hl.granted s hs
    · rw [mem_singleton.mp hs]
      exact hr
  · refine pairwise_append.mpr ⟨hl.apart, pairwise_singleton _ _, fun s hs t ht => ?_⟩
    rw [mem_singleton.mp ht]
    exact hapart s hs
  · intro s hs
    rcases mem_append.mp hs with hs | hs
    · rw [update_of_ne (hne s hs)]
      exact hl.tiles s hs
    · rw [mem_singleton.mp hs, update_self]
      exact ⟨rfl, hr.lt_stop, rfl⟩
  · intro s hs c hc
    rcases mem_append.mp hs with hs | hs
    · rw [update_of_ne (hne s hs)] at hc
      have hin := hl.block_in_run hs hc
      have hsize := hl.size_ge ⟨s, hs, hc⟩
      have hcs : c.stop = c.addr + c.size := rfl
      refine (hl.ok s hs c hc).congr fun w hw => ?_
      have hout : w < r.virt ∨ r.stop ≤ w := by
        unfold Blk.IsTag at hw
        rcases hapart s hs with h1 | h1 <;> omega
      rw [hmem, if_neg (by omega), if_neg (by omega), if_neg (by omega), if_neg (by omega)]
    · rw [mem_singleton.mp hs, update_self, mem_singleton] at hc
      subst hc
      refine ⟨?_, ?_, ?_, ?_, ?_⟩
      · show (Mm.initRun h r).mem r.virt = r.pageCount * pageSize
        rw [hmem, if_neg (by omega), if_neg (by omega), if_neg (by omega), if_pos rfl]
      · show (Mm.initRun h r).mem (r.virt + 8) = 1
        rw [hmem, if_neg (by omega), if_neg (by omega), if_pos rfl]
      · show (Mm.initRun h r).mem (r.stop - 8) = r.pageCount * pageSize
        rw [hmem, if_pos rfl]
      · show 56 ≤ r.pageCount * pageSize
        omega
      · exact Dvd.dvd.mul_left (by decide) r.pageCount

/-- A successful `new_page_run`: one more free block, on the list. -/
theorem newRun_spec (hs : Sound h lay) (hcalm : Calm h.runs lay) (hr : r.Ok)
    (hapart : ∀ s ∈ h.runs, s.Apart r) :
    Sound (freeListInsert (initRun h r) r.virt) (update lay r.virt [r.first]) ∧
      Calm (freeListInsert (initRun h r) r.virt).runs (update lay r.virt [r.first]) ∧
      (∀ c, Used (freeListInsert (initRun h r) r.virt).runs
        (update lay r.virt [r.first]) c ↔ Used h.runs lay c) ∧
      (Listed h lay → Listed (freeListInsert (initRun h r) r.virt)
        (update lay r.virt [r.first])) := by
  have hl := hs.laid.initRun hr hapart
  have hruns : (initRun h r).runs = h.runs ++ [r] := rfl
  have hne (s : PageRun) (hsr : s ∈ h.runs) := hr.virt_ne (hs.laid.granted s hsr) (hapart s hsr)
  have hin (c : Blk) : InHeap (h.runs ++ [r]) (update lay r.virt [r.first]) c ↔
      c = r.first ∨ InHeap h.runs lay c := by
    constructor
    · rintro ⟨s, hsr, hc⟩
      rcases mem_append.mp hsr with hsr | hsr
      · rw [update_of_ne (hne s hsr)] at hc
        exact .inr ⟨s, hsr, hc⟩
      · rw [mem_singleton.mp hsr, update_self] at hc
        exact .inl (mem_singleton.mp hc)
    · rintro (rfl | ⟨s, hsr, hc⟩)
      · exact ⟨r, by simp, by rw [update_self]; exact mem_singleton_self _⟩
      · refine ⟨s, by simp [hsr], ?_⟩
        rw [update_of_ne (hne s hsr)]
        exact hc
  have hset (x : Nat) : Free (h.runs ++ [r]) (update lay r.virt [r.first]) x ↔
      x = r.virt ∨ Free h.runs lay x := by
    constructor
    · rintro ⟨c, hc, hfree, rfl⟩
      rcases (hin c).mp hc with rfl | hc
      · exact .inl rfl
      · exact .inr ⟨c, hc, hfree, rfl⟩
    · rintro (rfl | ⟨c, hc, hfree, rfl⟩)
      · exact ⟨r.first, (hin _).mpr (.inl rfl), rfl, rfl⟩
      · exact ⟨c, (hin c).mpr (.inr hc), hfree, rfl⟩
  have hout (x : Nat) (hx : Free h.runs lay x) : x + 56 ≤ r.virt ∨ r.stop ≤ x := by
    obtain ⟨c, ⟨s, hsr, hc⟩, -, rfl⟩ := hx
    have hsize := hs.laid.size_ge ⟨s, hsr, hc⟩
    have hbounds := hs.laid.block_in_run hsr hc
    unfold Blk.stop at hbounds
    rcases hapart s hsr with h1 | h1 <;> omega
  have hnot : ¬Free h.runs lay r.virt := by
    intro hx
    have := hr.lt_stop
    have := hout _ hx
    omega
  have hbytes : 4096 ≤ r.pageCount * pageSize := Nat.le_mul_of_pos_left _ hr.pages_pos
  have hstop : r.stop = r.virt + r.pageCount * pageSize := rfl
  have hkept (w : Nat) (hw : IsLink (Free h.runs lay) w) : (initRun h r).mem w = h.mem w := by
    obtain ⟨x, hx, hlink⟩ := hw
    have := hout x hx
    rw [initRun_mem, if_neg (by omega), if_neg (by omega), if_neg (by omega),
      if_neg (by omega)]
  obtain ⟨hlist, hwhole⟩ := hs.list.congr hkept rfl
  have hnodes : Nodes fun x => x = r.virt ∨ Free h.runs lay x :=
    hl.nodes.mono fun x hx => (hset x).mpr hx
  obtain ⟨hlist', hwhole'⟩ := hlist.insert hnot hnodes
  rw [freeListInsert_runs, hruns]
  refine ⟨⟨hl.insert hlist fun x hx => ((hset x).mpr hx).inHeap, ?_⟩, ?_, ?_, fun hw => ?_⟩
  · rw [freeListInsert_runs, hruns]
    exact hlist'.set_congr hset
  · intro s hsr
    rcases mem_append.mp hsr with hsr | hsr
    · rw [update_of_ne (hne s hsr)]
      exact hcalm s hsr
    · rw [mem_singleton.mp hsr, update_self]
      exact isChain_singleton _
  · intro c
    constructor
    · rintro ⟨hc, hfree⟩
      rcases (hin c).mp hc with rfl | hc
      · cases hfree
      · exact ⟨hc, hfree⟩
    · exact fun hc => ⟨(hin c).mpr (.inr hc.1), hc.2⟩
  · unfold Listed
    rw [freeListInsert_runs, hruns]
    exact (hwhole' (hwhole hw)).set_congr hset

/-! ## `kmalloc` -/

theorem blockTotal_spec (size : Nat) : 56 ≤ blockTotal size ∧ 8 ∣ blockTotal size := by
  unfold blockTotal
  dsimp only
  generalize ((size + headerSize + footerSize) % 2 ^ 64 + 7) % 2 ^ 64 / 8 = words
  split_ifs with hsmall
  · decide
  · exact ⟨Nat.not_lt.mp hsmall, Nat.dvd_mul_left 8 words⟩

/-- What a call of `kmalloc` leaves: nothing new in use if it returned `NULL`, and
otherwise one block of the size computed for the request. -/
structure Allocated (h : Heap) (lay : Layout) (size p : Nat) (h' : Heap) (lay' : Layout) :
    Prop where
  sound : Sound h' lay'
  calm : Calm h'.runs lay'
  listed : Listed h lay → Listed h' lay'
  result : p = 0 ∧ (∀ c, Used h'.runs lay' c ↔ Used h.runs lay c) ∨
    ∃ u, p = u.addr + headerSize ∧ blockTotal size ≤ u.size ∧
      (∀ c, Used h'.runs lay' c ↔ c = u ∨ Used h.runs lay c) ∧
      ∀ c, Used h.runs lay c → c.addr ≠ u.addr

theorem Taken.allocated {u : Blk} {lay' : Layout} {size p : Nat} (ht : Taken h lay h' lay' u)
    (hp : p = u.addr + headerSize) (hsize : blockTotal size ≤ u.size) :
    Allocated h lay size p h' lay' :=
  ⟨ht.sound, ht.calm, ht.listed, .inr ⟨u, hp, hsize, ht.used, ht.fresh⟩⟩

theorem kmalloc_spec (hs : Sound h lay) (hcalm : Calm h.runs lay) (size : Nat)
    {answer : PageAnswer} (hgrant : GrantOk h (blockTotal size) answer) :
    ∃ p h' lay', kmalloc h size answer = some (p, h') ∧ Allocated h lay size p h' lay' := by
  have hnothing : Allocated h lay size 0 h lay :=
    ⟨hs, hcalm, id, .inl ⟨rfl, fun _ => Iff.rfl⟩⟩
  obtain ⟨htotal, haligned⟩ := blockTotal_spec size
  unfold kmalloc
  by_cases hzero : size = 0
  · rw [if_pos hzero]
    exact ⟨0, h, lay, rfl, hnothing⟩
  rw [if_neg hzero]
  obtain ⟨found, hfound, hfit⟩ := findFit_spec hs (blockTotal size)
  simp only [hfound]
  cases found with
  | some x =>
    obtain ⟨c, hc, hfree, rfl, hroom⟩ := hfit x rfl
    obtain ⟨lay', u, hu, husize, htaken⟩ :=
      takeBlock_spec hs hcalm hc hfree htotal haligned hroom
    exact ⟨_, _, lay', rfl, htaken.allocated hu husize⟩
  | none =>
    unfold newPageRun
    by_cases hfull : maxPageRuns ≤ h.runs.length
    · rw [if_pos hfull]
      exact ⟨0, h, lay, rfl, hnothing⟩
    rw [if_neg hfull]
    cases hr : grantedRun h.hhdm (blockTotal size) answer with
    | none => exact ⟨0, h, lay, rfl, hnothing⟩
    | some r =>
      obtain ⟨hrok, hapart⟩ := hgrant r hr
      obtain ⟨hs1, hcalm1, hused1, hw1⟩ := newRun_spec hs hcalm hrok hapart
      obtain ⟨found1, hfound1, hfit1⟩ := findFit_spec hs1 (blockTotal size)
      simp only [hfound1]
      cases found1 with
      | none => exact ⟨0, _, _, rfl, hs1, hcalm1, hw1, .inl ⟨rfl, hused1⟩⟩
      | some x =>
        obtain ⟨c, hc, hfree, rfl, hroom⟩ := hfit1 x rfl
        obtain ⟨lay', u, hu, husize, htaken⟩ :=
          takeBlock_spec hs1 hcalm1 hc hfree htotal haligned hroom
        refine ⟨_, _, lay', rfl, htaken.sound, htaken.calm, fun hw => htaken.listed (hw1 hw),
          .inr ⟨u, hu, husize, fun c => ?_, fun c hc => htaken.fresh c ((hused1 c).mpr hc)⟩⟩
        exact (htaken.used c).trans (or_congr Iff.rfl (hused1 c))

end Crius.Mm
