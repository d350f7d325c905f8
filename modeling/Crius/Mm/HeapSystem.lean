import Crius.Lib.Run
import Crius.Mm.HeapAlloc

/-!
# Runs of the heap

The heap under any sequence of calls. A call frees only pointers that are live; between
calls every word may change that lies in the payload of a live block or outside all page
runs. The page allocator may fail or answer with any pages that the heap does not hold.
-/
namespace Crius.Mm

open Lib.DList Lib.Tiling Lib.Chain Lib.Run List Heap Option

/-- A pointer that `kmalloc` returned, with the size that was asked for. -/
structure Alloc where
  ptr : Nat
  size : Nat
  deriving DecidableEq, Repr

structure HeapState where
  heap : Heap
  live : List Alloc

inductive HeapOp where
  | kmalloc (size : Nat) (answer : PageAnswer)
  | kfree (ptr : Nat)
  | store (addr value : Nat)

/-- The words that code outside the allocator may write. -/
def HeapState.Writable (s : HeapState) (addr : Nat) : Prop :=
  8 ∣ addr ∧ ((∃ a ∈ s.live, a.ptr ≤ addr ∧
      addr + 8 ≤ a.ptr - headerSize + s.heap.size (a.ptr - headerSize) - footerSize) ∨
    ∀ r ∈ s.heap.runs, addr < r.virt ∨ r.stop ≤ addr)

def HeapState.Enabled (s : HeapState) : HeapOp → Prop
  | .kmalloc size answer => size < 2 ^ 64 ∧ GrantOk s.heap (blockTotal size) answer
  | .kfree ptr => ∃ a ∈ s.live, a.ptr = ptr
  | .store addr _ => s.Writable addr

instance (h : Heap) (needed : Nat) (answer : PageAnswer) : Decidable (GrantOk h needed answer) :=
  inferInstanceAs (Decidable (∀ r ∈ grantedRun h.hhdm needed answer, _))

instance (s : HeapState) (op : HeapOp) : Decidable (s.Enabled op) :=
  match op with
  | .kmalloc _ _ => inferInstanceAs (Decidable (_ ∧ _))
  | .kfree _ => inferInstanceAs (Decidable (∃ a ∈ _, _))
  | .store _ _ => inferInstanceAs (Decidable (_ ∧ (_ ∨ _)))

def heapStep (s : HeapState) (op : HeapOp) : Option HeapState :=
  if s.Enabled op then
    match op with
    | .kmalloc size answer => (kmalloc s.heap size answer).map fun (p, h) =>
        ⟨h, if p = 0 then s.live else ⟨p, size⟩ :: s.live⟩
    | .kfree ptr => (kfree s.heap ptr).map fun (_, h) => ⟨h, s.live.filter (·.ptr ≠ ptr)⟩
    | .store addr value => some { s with heap := s.heap.write addr value }
  else none

/-- The statics of `kmalloc.c` before `kmalloc_init`. -/
def Heap.empty (mem : Nat → Nat) (hhdm : Nat) : Heap := ⟨hhdm, mem, [], 0⟩

def bootHeap (mem : Nat → Nat) (hhdm : Nat) (answer : PageAnswer) : HeapState :=
  ⟨kmallocInit mem hhdm answer, []⟩

/-- The block headers of a run, from one to the next by the size. -/
def Heap.blocksFrom (h : Heap) (stop : Nat) : Nat → Nat → List Nat
  | 0, _ => []
  | fuel + 1, b => if stop ≤ b then [] else b :: h.blocksFrom stop fuel (b + h.size b)

def Heap.blocks (h : Heap) (r : PageRun) : List Nat :=
  h.blocksFrom r.stop (r.pageCount * pageSize) r.virt

/-- The list that starts at `free_list`, by the `next` words and back by the `prev` words. -/
structure Heap.IsFreeList (h : Heap) (l : List Nat) : Prop where
  forward : IsChain h.nextNode h.headNode l
  backward : IsChain h.prevNode l.getLast? l.reverse

/-- The free blocks are the nodes of the list, each once. -/
def Heap.FreeListExact (h : Heap) : Prop :=
  ∃ l, h.IsFreeList l ∧ l.Nodup ∧
    ∀ b, b ∈ l ↔ ∃ r ∈ h.runs, b ∈ h.blocks r ∧ h.free b = true

/-- No free block lies right before block `b` of its run; or all other blocks of the run
are free, and no other run has a free block. -/
def Heap.NoBackwardMerge (h : Heap) (b : Nat) : Prop :=
  ∀ r ∈ h.runs, b ∈ h.blocks r →
    (∀ p ∈ h.blocks r, p + h.size p = b → h.free p = false) ∨
      (∀ c ∈ h.blocks r, c ≠ b → h.free c = true) ∧
        ∀ s ∈ h.runs, s ≠ r → ∀ c ∈ h.blocks s, h.free c = false

def HeapState.Harmless (s : HeapState) : HeapOp → Prop
  | .kfree ptr => s.heap.NoBackwardMerge (ptr - headerSize)
  | _ => True

instance (h : Heap) (b : Nat) : Decidable (h.NoBackwardMerge b) :=
  inferInstanceAs (Decidable (∀ r ∈ h.runs, _ → (_ ∨ _ ∧ _)))

instance (s : HeapState) (op : HeapOp) : Decidable (s.Harmless op) :=
  match op with
  | .kfree _ => inferInstanceAs (Decidable (Heap.NoBackwardMerge _ _))
  | .kmalloc _ _ | .store _ _ => isTrue trivial

/-! ## Reading a layout off the memory -/

variable {h : Heap} {lay : Layout} {r : PageRun}

theorem blocksFrom_eq {bs : List Blk} {lo hi fuel : Nat} (ht : Tiles Blk.addr Blk.stop lo hi bs)
    (hsize : ∀ b ∈ bs, h.size b.addr = b.size) (hfuel : bs.length ≤ fuel) :
    h.blocksFrom hi fuel lo = bs.map Blk.addr := by
  induction bs generalizing lo fuel with
  | nil =>
    cases fuel with
    | zero => rfl
    | succ fuel =>
      rw [blocksFrom, if_pos (Nat.le_of_eq ht.symm)]
      rfl
  | cons b bs ih =>
    obtain ⟨fuel, rfl⟩ := Nat.exists_eq_succ_of_ne_zero
      (show fuel ≠ 0 by rw [length_cons] at hfuel; omega)
    have hend := tiles_le ht.2.2
    have hlt := ht.2.1
    rw [blocksFrom, if_neg (by omega), map_cons, ← ht.1,
      hsize b mem_cons_self]
    congr 1
    exact ih ht.2.2 (fun c hc => hsize c (mem_cons_of_mem b hc))
      (by rw [length_cons] at hfuel; omega)

theorem Laid.blocks_eq (hl : Laid h lay) (hr : r ∈ h.runs) :
    h.blocks r = (lay r.virt).map Blk.addr := by
  have ht := hl.tiles r hr
  have hlen := tiles_length ht
  have hstop : r.stop = r.virt + r.pageCount * pageSize := rfl
  exact blocksFrom_eq ht (fun b hb => hl.mem_size ⟨r, hr, hb⟩) (by omega)

theorem Laid.mem_blocks (hl : Laid h lay) (b : Nat) :
    (∃ r ∈ h.runs, b ∈ h.blocks r ∧ h.free b = true) ↔ Free h.runs lay b := by
  constructor
  · rintro ⟨r, hr, hb, hfree⟩
    rw [hl.blocks_eq hr] at hb
    obtain ⟨c, hc, rfl⟩ := mem_map.mp hb
    rw [hl.mem_free ⟨r, hr, hc⟩] at hfree
    exact ⟨c, ⟨r, hr, hc⟩, hfree, rfl⟩
  · rintro ⟨c, ⟨r, hr, hc⟩, hfree, rfl⟩
    refine ⟨r, hr, ?_, ?_⟩
    · rw [hl.blocks_eq hr]
      exact mem_map_of_mem hc
    · rw [hl.mem_free ⟨r, hr, hc⟩, hfree]

/-- A complete list is exact: its nodes are free blocks in any case. -/
theorem Sound.freeListExact (hs : Sound h lay) (hw : Listed h lay) : h.FreeListExact := by
  obtain ⟨l, hl, hall⟩ := hw
  refine ⟨l, ⟨hl, hs.list.linked.chain_back hl⟩, isChain_nodup hl, fun b => ?_⟩
  rw [hs.laid.mem_blocks b]
  exact ⟨hs.list.linked.chain_mem hl b, hall b⟩

/-- The condition on the memory words, read on the layout. -/
theorem Laid.keepsList {b : Blk} {xs ys : List Blk} (hl : Laid h lay) (hr : r ∈ h.runs)
    (hlay : lay r.virt = xs ++ b :: ys) (hcond : h.NoBackwardMerge b.addr) :
    KeepsList h.runs lay r xs ys := by
  have hin (c : Blk) (hc : c ∈ lay r.virt) : c.addr ∈ h.blocks r := by
    rw [hl.blocks_eq hr]
    exact mem_map_of_mem hc
  have hb : b ∈ lay r.virt := by rw [hlay]; simp
  rcases hcond r hr (hin b hb) with hprev | ⟨hall, hothers⟩
  · left
    intro p hp
    have hmem : p ∈ xs := mem_of_getLast? hp
    have hplay : p ∈ lay r.virt := by rw [hlay]; simp [hmem]
    obtain ⟨xs', hxs⟩ : ∃ xs', xs = xs' ++ [p] := by
      obtain ⟨xs', hxs⟩ := getLast?_eq_some_iff.mp hp
      exact ⟨xs', hxs⟩
    have hnext : b.addr = p.stop := hl.next_addr hr (show lay r.virt = xs' ++ p :: b :: ys by
      rw [hlay, hxs, append_assoc, singleton_append])
    have hfree := hprev p.addr (hin p hplay) (by rw [hl.mem_size ⟨r, hr, hplay⟩]; exact hnext.symm)
    rwa [hl.mem_free ⟨r, hr, hplay⟩] at hfree
  · right
    constructor
    · intro c hc
      have hclay : c ∈ lay r.virt := by
        rw [hlay]
        simp only [mem_append, mem_cons] at hc ⊢
        tauto
      obtain ⟨hnx, hny⟩ := hl.not_mem_middle hr hlay
      have hne : c.addr ≠ b.addr := by
        intro heq
        obtain rfl := hl.eq_of_addr ⟨r, hr, hclay⟩ ⟨r, hr, hb⟩ heq
        rcases mem_append.mp hc with hcx | hcy
        · exact hnx hcx
        · exact hny hcy
      have hfree := hall c.addr (hin c hclay) hne
      rwa [hl.mem_free ⟨r, hr, hclay⟩] at hfree
    · intro s hs hne c hc
      have hfree := hothers s hs hne c.addr (by
        rw [hl.blocks_eq hs]
        exact mem_map_of_mem hc)
      rwa [hl.mem_free ⟨s, hs, hc⟩] at hfree

/-! ## The invariant -/

/-- In every state: a layout with a list of free blocks, no two neighbours free, and the
live pointers are those to the blocks in use. -/
structure HeapInv (s : HeapState) (lay : Layout) : Prop where
  sound : Sound s.heap lay
  calm : Calm s.heap.runs lay
  live : ∀ p, (∃ a ∈ s.live, a.ptr = p) ↔ ∃ c, Used s.heap.runs lay c ∧ p = c.addr + headerSize

variable {s s' : HeapState} {op : HeapOp}

/-- A word that no tag and no link occupies may change. -/
theorem Sound.store {a v : Nat} (hs : Sound h lay) (hout : ∀ c, InHeap h.runs lay c → a < c.addr ∨
      c.free = false ∧ c.addr + headerSize ≤ a ∧ a + 8 ≤ c.stop - footerSize ∨ c.stop ≤ a) :
    Sound (h.write a v) lay ∧ (Listed h lay → Listed (h.write a v) lay) := by
  have hlink (w : Nat) (hw : IsLink (Free h.runs lay) w) : (h.write a v).mem w = h.mem w := by
    obtain ⟨x, ⟨c, hc, hfree, rfl⟩, hlink⟩ := hw
    have hsize := hs.laid.size_ge hc
    rw [write_mem, if_neg]
    rcases hout c hc with h1 | ⟨h1, -, -⟩ | h1
    · omega
    · rw [hfree] at h1
      cases h1
    · unfold Blk.stop at h1
      omega
  have htag (c : Blk) (hc : InHeap h.runs lay c) (w : Nat) (hw : c.IsTag w) :
      (h.write a v).mem w = h.mem w := by
    have hsize := hs.laid.size_ge hc
    have hstop : c.stop = c.addr + c.size := rfl
    rw [write_mem, if_neg]
    unfold Blk.IsTag at hw
    rcases hout c hc with h1 | ⟨-, h1, h2⟩ | h1
    · omega
    · unfold headerSize footerSize at *
      omega
    · omega
  obtain ⟨hlist, hwhole⟩ := hs.list.congr hlink rfl
  exact ⟨⟨hs.laid.frame rfl htag, hlist⟩, hwhole⟩

theorem HeapInv.outside {a : Nat} (hi : HeapInv s lay) (hw : s.Writable a) (c : Blk)
    (hc : InHeap s.heap.runs lay c) : a < c.addr ∨
      c.free = false ∧ c.addr + headerSize ≤ a ∧ a + 8 ≤ c.stop - footerSize ∨ c.stop ≤ a := by
  have hl := hi.sound.laid
  rcases hw.2 with ⟨p, hp, hlow, hhigh⟩ | hrun
  · obtain ⟨u, hu, hptr⟩ := (hi.live p.ptr).mp ⟨p, hp, rfl⟩
    rw [hptr, Nat.add_sub_cancel, hl.mem_size hu.1] at hhigh
    rw [hptr] at hlow
    rcases hl.sep hc hu.1 with rfl | hsep | hsep
    · exact .inr (.inl ⟨hu.2, hlow, hhigh⟩)
    · exact .inr (.inr (by unfold headerSize at hlow; omega))
    · refine .inl ?_
      unfold Blk.stop at hsep
      omega
  · obtain ⟨r, hr, hcr⟩ := hc
    have hin := hl.block_in_run hr hcr
    have := hrun r hr
    omega

theorem heapInv_boot {mem : Nat → Nat} {hhdm : Nat} {answer : PageAnswer}
    (hgrant : GrantOk (empty mem hhdm) pageSize answer) :
    ∃ lay, HeapInv (bootHeap mem hhdm answer) lay ∧ Listed (bootHeap mem hhdm answer).heap lay := by
  have hempty : Sound (empty mem hhdm) fun _ => [] := by
    refine ⟨⟨by simp [empty], List.Pairwise.nil, by simp [empty],
      by simp [empty]⟩, ⟨⟨?_, ?_⟩, ⟨?_, ?_, ?_⟩⟩⟩
    all_goals simp [Free, InHeap, empty, headNode]
  have hlisted : Listed (empty mem hhdm) fun _ => [] :=
    hempty.listed_of_none (by simp [Free, InHeap, empty])
  have hunused (c : Blk) : ¬Used (empty mem hhdm).runs (fun _ => []) c := by
    simp [Used, InHeap, empty]
  have hcalm : Calm (empty mem hhdm).runs fun _ => [] := by simp [Calm, empty]
  have hroom : ¬maxPageRuns ≤ (empty mem hhdm).runs.length := by
    show ¬256 ≤ 0
    decide
  show ∃ lay, HeapInv ⟨(newPageRun (empty mem hhdm) pageSize answer).2, []⟩ lay ∧
    Listed (newPageRun (empty mem hhdm) pageSize answer).2 lay
  unfold newPageRun
  rw [if_neg hroom]
  cases hr : grantedRun (empty mem hhdm).hhdm pageSize answer with
  | none =>
    refine ⟨_, ⟨hempty, hcalm, fun p => ?_⟩, hlisted⟩
    simp [hunused]
  | some r =>
    obtain ⟨hrok, hapart⟩ := hgrant r hr
    obtain ⟨hs, hcalm', hused, hw⟩ := newRun_spec hempty hcalm hrok hapart
    refine ⟨_, ⟨hs, hcalm', fun p => ?_⟩, hw hlisted⟩
    simp only [hused, hunused]
    simp

section

variable {runs runs' : List PageRun} {lay' : Layout} {live : List Alloc} {u : Blk}

theorem live_cons {size : Nat}
    (hlive : ∀ p, (∃ a ∈ live, a.ptr = p) ↔ ∃ c, Used runs lay c ∧ p = c.addr + headerSize)
    (hused : ∀ c, Used runs' lay' c ↔ c = u ∨ Used runs lay c) (p : Nat) :
    (∃ a ∈ ⟨u.addr + headerSize, size⟩ :: live, a.ptr = p) ↔
      ∃ c, Used runs' lay' c ∧ p = c.addr + headerSize := by
  constructor
  · rintro ⟨a, ha, rfl⟩
    rcases mem_cons.mp ha with rfl | ha
    · exact ⟨u, (hused u).mpr (.inl rfl), rfl⟩
    · obtain ⟨c, hc, hp⟩ := (hlive a.ptr).mp ⟨a, ha, rfl⟩
      exact ⟨c, (hused c).mpr (.inr hc), hp⟩
  · rintro ⟨c, hc, rfl⟩
    rcases (hused c).mp hc with rfl | hc
    · exact ⟨_, mem_cons_self, rfl⟩
    · obtain ⟨a, ha, hp⟩ := (hlive _).mpr ⟨c, hc, rfl⟩
      exact ⟨a, mem_cons_of_mem _ ha, hp⟩

theorem live_filter
    (hlive : ∀ p, (∃ a ∈ live, a.ptr = p) ↔ ∃ c, Used runs lay c ∧ p = c.addr + headerSize)
    (hused : ∀ c, Used runs' lay' c ↔ c ≠ u ∧ Used runs lay c)
    (huniq : ∀ c, Used runs lay c → c.addr = u.addr → c = u) (p : Nat) :
    (∃ a ∈ live.filter (·.ptr ≠ u.addr + headerSize), a.ptr = p) ↔
      ∃ c, Used runs' lay' c ∧ p = c.addr + headerSize := by
  constructor
  · rintro ⟨a, ha, rfl⟩
    obtain ⟨hin, hne⟩ := mem_filter.mp ha
    obtain ⟨c, hc, hp⟩ := (hlive a.ptr).mp ⟨a, hin, rfl⟩
    refine ⟨c, (hused c).mpr ⟨?_, hc⟩, hp⟩
    rintro rfl
    simp [hp] at hne
  · rintro ⟨c, hc, rfl⟩
    obtain ⟨hne, hc⟩ := (hused c).mp hc
    obtain ⟨a, ha, hp⟩ := (hlive _).mpr ⟨c, hc, rfl⟩
    refine ⟨a, mem_filter.mpr ⟨ha, ?_⟩, hp⟩
    rw [decide_eq_true_eq, hp]
    exact fun heq => hne (huniq c hc (by omega))

end

/-- Every enabled operation returns and keeps the invariant; the list stays complete
unless the operation is a `kfree` that merges backwards. -/
theorem heapStep_spec (hi : HeapInv s lay) (hen : s.Enabled op) :
    ∃ s' lay', heapStep s op = some s' ∧ HeapInv s' lay' ∧
      (Listed s.heap lay → s.Harmless op → Listed s'.heap lay') := by
  unfold heapStep
  rw [if_pos hen]
  cases op with
  | kmalloc size answer =>
    obtain ⟨p, h', lay', hcall, hall⟩ := kmalloc_spec hi.sound hi.calm size hen.2
    simp only [hcall, map_some]
    refine ⟨_, lay', rfl, ⟨hall.sound, hall.calm, fun q => ?_⟩, fun hw _ => hall.listed hw⟩
    rcases hall.result with ⟨rfl, hused⟩ | ⟨u, rfl, -, hused, -⟩
    · rw [if_pos rfl, hi.live q]
      simp only [hused]
    · rw [if_neg (by unfold headerSize; omega)]
      exact live_cons hi.live hused q
  | kfree ptr =>
    obtain ⟨c, hc, rfl⟩ := (hi.live ptr).mp hen
    obtain ⟨r, hr, hcr⟩ := hc.1
    obtain ⟨xs, ys, hlay⟩ := append_of_mem hcr
    obtain ⟨released, h', lay', hcall, hs', hcalm', hused, hw⟩ :=
      kfree_spec hi.sound hi.calm hr hlay hc.2
    simp only [hcall, map_some]
    refine ⟨_, lay', rfl, ⟨hs', hcalm', ?_⟩, fun hw0 hcond => hw hw0 ?_⟩
    · exact live_filter hi.live hused
        fun d hd heq => hi.sound.laid.eq_of_addr hd.1 hc.1 heq
    · have hcond' : s.heap.NoBackwardMerge (c.addr + headerSize - headerSize) := hcond
      rw [Nat.add_sub_cancel] at hcond'
      exact hi.sound.laid.keepsList hr hlay hcond'
  | store addr value =>
    obtain ⟨hs', hw⟩ := hi.sound.store (v := value) (hi.outside hen)
    exact ⟨_, lay, rfl, ⟨hs', hi.calm, hi.live⟩, fun hw0 _ => hw hw0⟩

theorem heapStep_enabled (hstep : heapStep s op = some s') : s.Enabled op := by
  unfold heapStep at hstep
  by_contra hen
  rw [if_neg hen] at hstep
  cases hstep

/-- From `kmalloc_init` on, as long as no `kfree` merges its block with a free block before
it (other than to give back the last run with free blocks), a block is free exactly if it
is on the free list, where it is once. Every call returns. -/
theorem free_list_exact {mem : Nat → Nat} {hhdm : Nat} {answer : PageAnswer} {ops : List HeapOp}
    {s : HeapState} (hgrant : GrantOk (Heap.empty mem hhdm) pageSize answer)
    (hcond : Along heapStep HeapState.Harmless (bootHeap mem hhdm answer) ops)
    (hrun : run heapStep (bootHeap mem hhdm answer) ops = some s) :
    s.heap.FreeListExact ∧ ∀ op, s.Enabled op → (heapStep s op).isSome := by
  have hkeep (s : HeapState) (op : HeapOp) (s' : HeapState)
      (hinv : ∃ lay, HeapInv s lay ∧ Listed s.heap lay) (hop : s.Harmless op)
      (hstep : heapStep s op = some s') : ∃ lay, HeapInv s' lay ∧ Listed s'.heap lay := by
    obtain ⟨lay, hi, hw⟩ := hinv
    obtain ⟨t, lay', hstep', hi', hw'⟩ := heapStep_spec hi (heapStep_enabled hstep)
    cases hstep.symm.trans hstep'
    exact ⟨lay', hi', hw' hw hop⟩
  obtain ⟨lay, hi, hw⟩ := run_invariant_along heapStep hkeep (heapInv_boot hgrant) hcond hrun
  refine ⟨hi.sound.freeListExact hw, fun op hen => ?_⟩
  obtain ⟨s', -, hstep, -⟩ := heapStep_spec hi hen
  rw [hstep]
  rfl

/-- The first page of the heap and three blocks at its start. -/
def threeBlocks (frees : List HeapOp) : Option HeapState :=
  run heapStep (bootHeap (fun _ => 0) 0 ⟨0x1000, 0⟩)
    ([.kmalloc 16 ⟨0, 0⟩, .kmalloc 16 ⟨0, 0⟩, .kmalloc 16 ⟨0, 0⟩] ++ frees)

/-- The second block is freed and then the first. -/
theorem free_list_exact_forward :
    ∃ s, threeBlocks [.kfree 0x1058, .kfree 0x1020] = some s ∧ s.heap.FreeListExact := by
  have hsome : (threeBlocks [.kfree 0x1058, .kfree 0x1020]).isSome := by decide +kernel
  exact ⟨_, (some_get hsome).symm,
    (free_list_exact (by decide +kernel) (by decide +kernel) (some_get hsome).symm).1⟩

/-- The other way round the second block is merged into the first, which is then free and
off the list: only the rest of the page is there. -/
def lostBlock : HeapState :=
  (threeBlocks [.kfree 0x1020, .kfree 0x1058]).getD (bootHeap (fun _ => 0) 0 ⟨0, 0⟩)

theorem free_list_loses_block :
    threeBlocks [.kfree 0x1020, .kfree 0x1058] = some lostBlock ∧
      (∃ r ∈ lostBlock.heap.runs, 0x1000 ∈ lostBlock.heap.blocks r ∧
        lostBlock.heap.free 0x1000 = true) ∧
      IsChain lostBlock.heap.nextNode lostBlock.heap.headNode [0x10a8] ∧
      ¬lostBlock.heap.FreeListExact := by
  have hsome : (threeBlocks [.kfree 0x1020, .kfree 0x1058]).isSome := by decide +kernel
  have hblock : ∃ r ∈ lostBlock.heap.runs, 0x1000 ∈ lostBlock.heap.blocks r ∧
      lostBlock.heap.free 0x1000 = true := by decide +kernel
  have hlist : IsChain lostBlock.heap.nextNode lostBlock.heap.headNode [0x10a8] := by
    have hhead : lostBlock.heap.headNode = some 0x10a8 := by decide +kernel
    have hnext : lostBlock.heap.nextNode 0x10a8 = none := by decide +kernel
    exact ⟨hhead, hnext⟩
  refine ⟨?_, hblock, hlist, ?_⟩
  · unfold lostBlock
    rw [← get_eq_getD (h := hsome), some_get]
  · rintro ⟨l, hl, -, hexact⟩
    have hmem := (hexact 0x1000).mpr hblock
    rw [isChain_unique hl.forward hlist] at hmem
    exact absurd hmem (by decide)

end Crius.Mm
