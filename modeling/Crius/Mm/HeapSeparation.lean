import Crius.Mm.HeapSystem

/-!
# Layout and separation of the heap

What the layout invariant says in terms of the memory words, in every state that calls of
`kmalloc` and `kfree` reach. None of it depends on the free list being complete: a block
that has fallen off the list still lies in its place, so the layout holds in every run.
-/
namespace Crius.Mm

open Lib.DList Lib.Tiling Lib.Chain Lib.Run List Option Heap

/-- The request does not wrap in the arithmetic of `size_t`. -/
def HeapOp.Sized : HeapOp → Prop
  | .kmalloc size _ => size + 47 < 2 ^ 64
  | _ => True

instance (op : HeapOp) : Decidable op.Sized :=
  match op with
  | .kmalloc _ _ => inferInstanceAs (Decidable (_ < _))
  | .kfree _ | .store _ _ => isTrue trivial

namespace Heap

variable (h : Heap)

/-- The address after block `b`. -/
def blockEnd (b : Nat) : Nat := b + h.size b

/-- The address after the payload of a pointer. -/
def payloadEnd (ptr : Nat) : Nat := h.blockEnd (ptr - headerSize) - footerSize

/-- The runs and their blocks as the memory words describe them. -/
structure LaidOut : Prop where
  apart : h.runs.Pairwise PageRun.Apart
  mapped : ∀ r ∈ h.runs, r.virt = h.hhdm + r.phys
  tiled : ∀ r ∈ h.runs, Tiles id h.blockEnd r.virt r.stop (h.blocks r)
  footers : ∀ r ∈ h.runs, ∀ b ∈ h.blocks r, h.mem (h.blockEnd b - footerSize) = h.size b
  coalesced : ∀ r ∈ h.runs, (h.blocks r).IsChain fun b c => ¬(h.free b = true ∧ h.free c = true)

/-- Neither the header nor the footer of block `b` meets the payload of `ptr`. -/
def Clear (ptr b : Nat) : Prop :=
  (b + headerSize ≤ ptr ∨ h.payloadEnd ptr ≤ b) ∧
    (h.blockEnd b ≤ ptr ∨ h.payloadEnd ptr ≤ h.blockEnd b - footerSize)

/-- The outcome of a `kfree` of the block `b` of run `r`: the frames of the run go back if
everything else in it is free, and no frame does otherwise. -/
def Releases (ptr : Nat) (r : PageRun) : Prop :=
  ∃ released h', kfree h ptr = some (released, h') ∧
    if ∀ c ∈ h.blocks r, c ≠ ptr - headerSize → h.free c = true then
      released = some (r.phys, r.pageCount) ∧ ∀ s, s ∈ h'.runs ↔ s ∈ h.runs ∧ s ≠ r
    else released = none ∧ h'.runs = h.runs

end Heap

/-- The live payloads are apart from each other and from all headers and footers, and hold
what was asked for. -/
structure HeapState.Separated (s : HeapState) : Prop where
  used : ∀ a ∈ s.live, ∃ r ∈ s.heap.runs, a.ptr - headerSize ∈ s.heap.blocks r ∧
    s.heap.free (a.ptr - headerSize) = false
  room : ∀ a ∈ s.live, a.ptr + a.size ≤ s.heap.payloadEnd a.ptr
  apart : s.live.Pairwise fun a b =>
    s.heap.payloadEnd a.ptr ≤ b.ptr ∨ s.heap.payloadEnd b.ptr ≤ a.ptr
  tags : ∀ a ∈ s.live, ∀ r ∈ s.heap.runs, ∀ b ∈ s.heap.blocks r, s.heap.Clear a.ptr b

/-! ## From the layout to the words -/

section Words

variable {h : Heap} {lay : Layout} {r : PageRun} {b c : Blk}

theorem Laid.tiles_blocks (hl : Laid h lay) (hr : r ∈ h.runs) :
    Tiles id h.blockEnd r.virt r.stop (h.blocks r) := by
  have hmap {lo hi : Nat} {bs : List Blk} (ht : Tiles Blk.addr Blk.stop lo hi bs)
      (hsize : ∀ b ∈ bs, h.size b.addr = b.size) :
      Tiles id h.blockEnd lo hi (bs.map Blk.addr) := by
    induction bs generalizing lo with
    | nil => exact ht
    | cons b bs ih =>
      obtain ⟨hlo, hlt, hrest⟩ := ht
      have hend : h.blockEnd b.addr = b.stop := by
        rw [blockEnd, hsize b mem_cons_self]
        rfl
      rw [map_cons, tiles_cons, hend]
      exact ⟨hlo, hlt, ih hrest fun c hc => hsize c (mem_cons_of_mem b hc)⟩
  rw [hl.blocks_eq hr]
  exact hmap (hl.tiles r hr) fun b hb => hl.mem_size ⟨r, hr, hb⟩

theorem Laid.exists_block (hl : Laid h lay) (hr : r ∈ h.runs) {x : Nat} (hx : x ∈ h.blocks r) :
    ∃ b ∈ lay r.virt, b.addr = x := by
  rw [hl.blocks_eq hr] at hx
  exact mem_map.mp hx

theorem Laid.blockEnd_eq (hl : Laid h lay) (hb : InHeap h.runs lay b) :
    h.blockEnd b.addr = b.stop := by
  rw [blockEnd, hl.mem_size hb]
  rfl

theorem Laid.payloadEnd_eq (hl : Laid h lay) (hb : InHeap h.runs lay b) :
    h.payloadEnd (b.addr + headerSize) = b.stop - footerSize := by
  rw [payloadEnd, Nat.add_sub_cancel, hl.blockEnd_eq hb]

theorem Calm.blocks (hcalm : Calm h.runs lay) (hl : Laid h lay) (hr : r ∈ h.runs) :
    (h.blocks r).IsChain fun b c => ¬(h.free b = true ∧ h.free c = true) := by
  rw [hl.blocks_eq hr, isChain_map]
  have hsame (b : Blk) (hb : b ∈ lay r.virt) : h.free b.addr = b.free := hl.mem_free ⟨r, hr, hb⟩
  exact (hcalm r hr).imp_of_mem_imp fun b c hb hc hbc => by
    rw [hsame b hb, hsame c hc]
    exact hbc

/-- A used block and any block: the same, or apart. -/
theorem Laid.clear (hl : Laid h lay) (hb : InHeap h.runs lay b) (hc : InHeap h.runs lay c) :
    h.Clear (b.addr + headerSize) c.addr := by
  have hcstop : c.stop = c.addr + c.size := rfl
  rw [Heap.Clear, hl.payloadEnd_eq hb, hl.blockEnd_eq hc]
  unfold headerSize footerSize
  rcases hl.sep hb hc with rfl | hsep | hsep
  · omega
  · omega
  · omega

end Words

/-! ## The release of a run -/

variable {h h' : Heap} {b : Nat} {s s' : HeapState} {op : HeapOp} {lay : Layout}

theorem kfree_releases {lay : Layout} {r : PageRun} {b : Blk} {xs ys : List Blk} (hs : Sound h lay)
    (hr : r ∈ h.runs) (hlay : lay r.virt = xs ++ b :: ys) (hb : b.free = false) :
    h.Releases (b.addr + headerSize) r := by
  have hl := hs.laid
  have hbin : b ∈ lay r.virt := by rw [hlay]; simp
  obtain ⟨h3, i, d, pre, fs, gs, rest, hcalled, hruns3, hi, hc, hs3, -⟩ :=
    kfree_coalesces hs hr hlay hb
  obtain ⟨-, -, hend⟩ := releaseRun_spec hs3 (by rw [hruns3]; exact hi)
    (Function.update_self ..) hc.joint_free
  have hwhole : (∀ c ∈ h.blocks r, c ≠ b.addr → h.free c = true) ↔ pre = [] ∧ rest = [] := by
    constructor
    · intro hall
      apply hc.whole
      intro c hcin
      obtain ⟨hnx, hny⟩ := hl.not_mem_middle hr hlay
      have hclay : c ∈ lay r.virt := by
        rw [hlay]
        simp only [mem_append, mem_cons] at hcin ⊢
        tauto
      have hne : c.addr ≠ b.addr := by
        intro heq
        obtain rfl := hl.eq_of_addr ⟨r, hr, hclay⟩ ⟨r, hr, hbin⟩ heq
        rcases mem_append.mp hcin with hcx | hcy
        · exact hnx hcx
        · exact hny hcy
      have hfree := hall c.addr (by rw [hl.blocks_eq hr]; exact mem_map_of_mem hclay) hne
      rwa [hl.mem_free ⟨r, hr, hclay⟩] at hfree
    · rintro ⟨hpre, hrest⟩ x hx hne
      obtain ⟨c, hclay, rfl⟩ := hl.exists_block hr hx
      rw [hl.mem_free ⟨r, hr, hclay⟩]
      rw [hlay, hc.front, hc.back, hpre, hrest, nil_append, append_nil] at hclay
      rcases mem_append.mp hclay with hin | hin
      · exact hc.front_free c hin
      · rcases mem_cons.mp hin with rfl | hin
        · exact absurd rfl hne
        · exact hc.back_free c hin
  refine ⟨(releaseRun h3 i r d.addr).1, (releaseRun h3 i r d.addr).2, hcalled, ?_⟩
  rw [Nat.add_sub_cancel]
  rcases hend with ⟨hall, hout, hruns⟩ | ⟨hnot, hout⟩
  · rw [if_pos (hwhole.mpr hall)]
    refine ⟨hout, fun s => ?_⟩
    rw [hruns s, hruns3]
  · rw [if_neg (fun hall => hnot (hwhole.mp hall)), hout]
    exact ⟨rfl, hruns3⟩

/-! ## Runs keep their frames -/

/-- Every run is seen through the direct map. -/
def Heap.Mapped (h : Heap) : Prop := ∀ r ∈ h.runs, r.virt = h.hhdm + r.phys

/-- The same table of runs. -/
def Heap.SameRuns (h h' : Heap) : Prop := h'.runs = h.runs ∧ h'.hhdm = h.hhdm

theorem Heap.SameRuns.mapped (hsame : h.SameRuns h') (hm : h.Mapped) : h'.Mapped := by
  unfold Mapped
  rw [hsame.1, hsame.2]
  exact hm

theorem sameRuns_takeBlock (h : Heap) (b total : Nat) : h.SameRuns (takeBlock h b total).2 := by
  unfold takeBlock splitBlock cutBlock Heap.SameRuns
  split
  · simp [setFree]
  · simp [setFree, setFooter]

theorem sameRuns_mergeForward {fuel : Nat} (hcall : mergeForward b fuel h = some h') :
    h.SameRuns h' := by
  induction fuel generalizing h with
  | zero => cases hcall
  | succ fuel ih =>
    rw [mergeForward] at hcall
    split at hcall
    · cases hcall
      exact ⟨rfl, rfl⟩
    · dsimp only at hcall
      split at hcall
      · cases hcall
        exact ⟨rfl, rfl⟩
      · split at hcall
        · cases hcall
          exact ⟨rfl, rfl⟩
        · obtain ⟨hruns, hhdm⟩ := ih hcall
          simp only [setFooter, write_runs, write_hhdm, freeListRemove_runs,
            freeListRemove_hhdm] at hruns hhdm
          exact ⟨hruns, hhdm⟩

theorem sameRuns_mergeBackward {c fuel : Nat} (hcall : mergeBackward fuel h b = some (c, h')) :
    h.SameRuns h' := by
  induction fuel generalizing h b with
  | zero => cases hcall
  | succ fuel ih =>
    rw [mergeBackward] at hcall
    have hdone (hret : some (b, h) = some (c, h')) : h.SameRuns h' := by
      cases hret
      exact ⟨rfl, rfl⟩
    split at hcall
    · exact hdone hcall
    · dsimp only at hcall
      split at hcall
      · exact hdone hcall
      · split at hcall
        · exact hdone hcall
        · split at hcall
          · exact hdone hcall
          · obtain ⟨hruns, hhdm⟩ := ih hcall
            simp only [setFooter, write_runs, write_hhdm, freeListRemove_runs,
              freeListRemove_hhdm] at hruns hhdm
            exact ⟨hruns, hhdm⟩

theorem mapped_newPageRun (hm : h.Mapped) (needed : Nat) (answer : PageAnswer) :
    (newPageRun h needed answer).2.Mapped := by
  unfold newPageRun
  split
  · exact hm
  · split
    · exact hm
    · rename_i r hr
      have hnew : r.virt = h.hhdm + r.phys := by
        unfold grantedRun at hr
        split at hr
        · cases hr
          rfl
        · split at hr
          · cases hr
            rfl
          · cases hr
      intro t ht
      simp only [freeListInsert_runs, freeListInsert_hhdm, initRun, setFooter, setFree,
        write_runs, write_hhdm, mem_append, mem_singleton] at ht ⊢
      rcases ht with ht | rfl
      · exact hm t ht
      · exact hnew

theorem mapped_kmalloc {size p : Nat} {answer : PageAnswer}
    (hcall : kmalloc h size answer = some (p, h')) (hm : h.Mapped) : h'.Mapped := by
  unfold kmalloc at hcall
  have hnew := mapped_newPageRun hm (blockTotal size) answer
  split at hcall
  · cases hcall
    exact hm
  · dsimp only at hcall
    split at hcall
    · cases hcall
    · rename_i b hfit
      rw [← (Prod.mk.inj (some.inj hcall)).2]
      exact (sameRuns_takeBlock h b _).mapped hm
    · split at hcall
      · rename_i h1 hrun
        cases hcall
        rwa [hrun] at hnew
      · rename_i h1 hrun
        rw [hrun] at hnew
        split at hcall
        · cases hcall
        · cases hcall
          exact hnew
        · rename_i b hfit
          rw [← (Prod.mk.inj (some.inj hcall)).2]
          exact (sameRuns_takeBlock h1 b _).mapped hnew

theorem mapped_releaseRun {i : Nat} {r : PageRun} (hi : r ∈ h.runs) (hm : h.Mapped) :
    (releaseRun h i r b).2.Mapped := by
  unfold releaseRun
  split
  · intro t ht
    simp only [dropRun, freeListRemove_runs, freeListRemove_hhdm] at ht ⊢
    apply hm
    rcases mem_or_eq_of_mem_set (mem_of_mem_dropLast ht) with ht | rfl
    · exact ht
    · cases hlast : h.runs.getLast? with
      | none => exact hi
      | some x => exact mem_of_getLast? hlast
  · exact hm

theorem mapped_kfree {ptr : Nat} {released : Option (Nat × Nat)}
    (hcall : kfree h ptr = some (released, h')) (hm : h.Mapped) : h'.Mapped := by
  have hdone (hret : some (none, h) = some (released, h')) : h'.Mapped := by
    cases hret
    exact hm
  unfold kfree at hcall
  split at hcall
  · exact hdone hcall
  · dsimp only at hcall
    split at hcall
    · exact hdone hcall
    · split at hcall
      · exact hdone hcall
      · rename_i r hr
        split at hcall
        · exact hdone hcall
        · split at hcall
          · cases hcall
          · rename_i h1 hforward
            split at hcall
            · cases hcall
            · rename_i b h2 hbackward
              have h₁same := sameRuns_mergeForward hforward
              have h₂same := sameRuns_mergeBackward hbackward
              simp only [Heap.SameRuns, freeListInsert_runs, freeListInsert_hhdm, setFree,
                setFooter, write_runs, write_hhdm] at h₁same h₂same
              have hsame : h.SameRuns h2 :=
                ⟨h₂same.1.trans h₁same.1, h₂same.2.trans h₁same.2⟩
              have hlast : (releaseRun h2 _ r b).2 = h' :=
                congrArg Prod.snd (some.inj hcall)
              rw [← hlast]
              apply mapped_releaseRun
              · rw [hsame.1]
                exact mem_of_getElem? hr
              · exact hsame.mapped hm

/-! ## The invariant -/

theorem blockTotal_ge {size : Nat} (h : size + 47 < 2 ^ 64) : size + 40 ≤ blockTotal size := by
  unfold blockTotal headerSize footerSize
  dsimp only
  rw [minBlock_eq]
  split <;> omega

/-- The layout, and for every live pointer a block that is large enough. -/
structure LayoutInv (s : HeapState) (lay : Layout) : Prop extends HeapInv s lay where
  mapped : s.heap.Mapped
  distinct : s.live.Pairwise fun a b => a.ptr ≠ b.ptr
  room : ∀ a ∈ s.live, ∀ c, Used s.heap.runs lay c → a.ptr = c.addr + headerSize →
    a.size + 40 ≤ c.size

theorem LayoutInv.step (hi : LayoutInv s lay) (hsized : op.Sized)
    (hstep : heapStep s op = some s') : ∃ lay', LayoutInv s' lay' := by
  have hen := heapStep_enabled hstep
  unfold heapStep at hstep
  rw [if_pos hen] at hstep
  cases op with
  | kmalloc size answer =>
    obtain ⟨p, h', lay', hcall, hall⟩ := kmalloc_spec hi.sound hi.calm size hen.2
    have hmapped := mapped_kmalloc hcall hi.mapped
    simp only [hcall, map_some, some.injEq] at hstep
    subst hstep
    rcases hall.result with ⟨rfl, hused⟩ | ⟨u, rfl, hsize, hused, hfresh⟩
    · rw [if_pos rfl]
      refine ⟨lay', ⟨hall.sound, hall.calm, fun q => ?_⟩, hmapped, hi.distinct, ?_⟩
      · rw [hi.live q]
        simp only [hused]
      · intro a ha c hc
        exact hi.room a ha c ((hused c).mp hc)
    · rw [if_neg (by unfold headerSize; omega)]
      have hptr (a : Alloc) (ha : a ∈ s.live) : a.ptr ≠ u.addr + headerSize := by
        intro heq
        obtain ⟨c, hc, hp⟩ := (hi.live a.ptr).mp ⟨a, ha, rfl⟩
        exact hfresh c hc (by omega)
      refine ⟨lay', ⟨hall.sound, hall.calm, live_cons hi.live hused⟩, hmapped, ?_, ?_⟩
      · exact pairwise_cons.mpr ⟨fun a ha => (hptr a ha).symm, hi.distinct⟩
      · intro a ha c hc hp
        rcases mem_cons.mp ha with rfl | hold
        · have hcu : c = u := by
            apply hall.sound.laid.eq_of_addr hc.1 ((hused u).mpr (Or.inl rfl)).1
            have hp' : u.addr + headerSize = c.addr + headerSize := hp
            omega
          rw [hcu]
          exact (blockTotal_ge hsized).trans hsize
        · rcases (hused c).mp hc with rfl | hc
          · exact absurd hp (hptr a hold)
          · exact hi.room a hold c hc hp
  | kfree ptr =>
    obtain ⟨c, hc, rfl⟩ := (hi.live ptr).mp hen
    obtain ⟨r, hr, hcr⟩ := hc.1
    obtain ⟨xs, ys, hlay⟩ := append_of_mem hcr
    obtain ⟨released, h', lay', hcall, hs', hcalm', hused, -⟩ :=
      kfree_spec hi.sound hi.calm hr hlay hc.2
    have hmapped := mapped_kfree hcall hi.mapped
    simp only [hcall, map_some, some.injEq] at hstep
    subst hstep
    refine ⟨lay', ⟨hs', hcalm', ?_⟩, hmapped, hi.distinct.filter _, ?_⟩
    · exact live_filter hi.live hused
        fun d hd heq => hi.sound.laid.eq_of_addr hd.1 hc.1 heq
    · intro a ha d hd
      exact hi.room a (mem_of_mem_filter ha) d ((hused d).mp hd).2
  | store addr value =>
    obtain ⟨hs', -⟩ := hi.sound.store (v := value) (hi.outside hen)
    cases hstep
    exact ⟨lay, ⟨hs', hi.calm, hi.live⟩, hi.mapped, hi.distinct, hi.room⟩

theorem LayoutInv.laidOut (hi : LayoutInv s lay) : s.heap.LaidOut := by
  have hl := hi.sound.laid
  constructor
  · exact hl.apart
  · exact hi.mapped
  · exact fun r hr => hl.tiles_blocks hr
  · intro r hr x hx
    obtain ⟨b, hb, rfl⟩ := hl.exists_block hr hx
    have hin : InHeap s.heap.runs lay b := ⟨r, hr, hb⟩
    rw [hl.blockEnd_eq hin, hl.mem_footer hin, hl.mem_size hin]
  · exact fun r hr => hi.calm.blocks hl hr

theorem LayoutInv.separated (hi : LayoutInv s lay) : s.Separated := by
  have hl := hi.sound.laid
  have hblock (a : Alloc) (ha : a ∈ s.live) :
      ∃ c, Used s.heap.runs lay c ∧ a.ptr = c.addr + headerSize :=
    (hi.live a.ptr).mp ⟨a, ha, rfl⟩
  constructor
  · intro a ha
    obtain ⟨c, ⟨⟨r, hr, hcr⟩, hfree⟩, hp⟩ := hblock a ha
    rw [hp, Nat.add_sub_cancel, hl.mem_free ⟨r, hr, hcr⟩]
    refine ⟨r, hr, ?_, hfree⟩
    rw [hl.blocks_eq hr]
    exact mem_map_of_mem hcr
  · intro a ha
    obtain ⟨c, hc, hp⟩ := hblock a ha
    have hroom := hi.room a ha c hc hp
    have hstop : c.stop = c.addr + c.size := rfl
    rw [hp, hl.payloadEnd_eq hc.1]
    unfold headerSize footerSize
    omega
  · apply hi.distinct.imp_of_mem
    intro a b ha hb hne
    obtain ⟨c, hc, hpa⟩ := hblock a ha
    obtain ⟨d, hd, hpb⟩ := hblock b hb
    rw [hpa, hpb] at hne
    rw [hpa, hpb, hl.payloadEnd_eq hc.1, hl.payloadEnd_eq hd.1]
    rcases hl.sep hc.1 hd.1 with rfl | hsep | hsep
    · exact absurd rfl hne
    · left
      omega
    · right
      omega
  · intro a ha r hr x hx
    obtain ⟨c, hc, hp⟩ := hblock a ha
    obtain ⟨b, hb, rfl⟩ := hl.exists_block hr hx
    rw [hp]
    exact hl.clear hc.1 ⟨r, hr, hb⟩

/-- In every state that `kmalloc_init` and calls of `kmalloc` and `kfree` reach, the blocks
tile their runs, neighbours are merged, live payloads are apart, and a `kfree` gives a run
back exactly if everything else in it is free. -/
theorem heap_laid_out {mem : Nat → Nat} {hhdm : Nat} {answer : PageAnswer} {ops : List HeapOp}
    (hgrant : GrantOk (Heap.empty mem hhdm) pageSize answer)
    (hsized : ∀ op ∈ ops, op.Sized)
    (hrun : run heapStep (bootHeap mem hhdm answer) ops = some s) :
    s.heap.LaidOut ∧ s.Separated ∧
      ∀ a ∈ s.live, ∀ r ∈ s.heap.runs, a.ptr - headerSize ∈ s.heap.blocks r →
        s.heap.Releases a.ptr r := by
  have hboot : ∃ lay, LayoutInv (bootHeap mem hhdm answer) lay := by
    obtain ⟨lay, hi, -⟩ := heapInv_boot hgrant
    have hempty : (empty mem hhdm).Mapped := fun r hr => by cases hr
    exact ⟨lay, hi, mapped_newPageRun hempty _ _, List.Pairwise.nil, fun a ha => by cases ha⟩
  have hkeep (s : HeapState) (op : HeapOp) (s' : HeapState) (hinv : ∃ lay, LayoutInv s lay)
      (hop : op.Sized) (hstep : heapStep s op = some s') : ∃ lay, LayoutInv s' lay := by
    obtain ⟨lay, hi⟩ := hinv
    exact hi.step hop hstep
  obtain ⟨lay, hi⟩ := run_invariant_along heapStep hkeep hboot
    (along_of_forall heapStep (fun _ => hsized) _) hrun
  refine ⟨hi.laidOut, hi.separated, fun a ha r hr hin => ?_⟩
  obtain ⟨c, hc, hp⟩ := (hi.live a.ptr).mp ⟨a, ha, rfl⟩
  rw [hp, Nat.add_sub_cancel] at hin
  obtain ⟨b, hb, hbc⟩ := hi.sound.laid.exists_block hr hin
  obtain rfl := hi.sound.laid.eq_of_addr ⟨r, hr, hb⟩ hc.1 hbc
  obtain ⟨xs, ys, hlay⟩ := append_of_mem hb
  rw [hp]
  exact kfree_releases hi.sound hr hlay hc.2

/-- Also after the `kfree` that loses a block of the free list. -/
theorem heap_laid_out_lost :
    lostBlock.heap.LaidOut ∧ lostBlock.Separated ∧ lostBlock.live = [⟨0x1090, 16⟩] := by
  have hsome : (threeBlocks [.kfree 0x1020, .kfree 0x1058]).isSome := by decide +kernel
  have hrun : threeBlocks [.kfree 0x1020, .kfree 0x1058] = some lostBlock := by
    unfold lostBlock
    rw [← get_eq_getD (h := hsome), some_get]
  obtain ⟨hlaid, hsep, -⟩ := heap_laid_out (by decide +kernel) (by decide) hrun
  exact ⟨hlaid, hsep, by decide +kernel⟩

end Crius.Mm
