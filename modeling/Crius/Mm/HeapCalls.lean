import Crius.Mm.HeapLayout

/-!
# The heap operations on layouts

What each function of `kmalloc.c` does to a layout and its free list. Each edit of the
layout replaces some neighbouring blocks of one run by others over the same addresses
(`Laid.retile`): a flag changes, a block is split, two blocks are joined.
-/
namespace Crius.Mm

open Lib.DList Lib.Tiling Lib.Chain Function List Heap

variable {h h' : Heap} {lay : Layout} {r : PageRun} {b n c : Blk} {xs ys old new : List Blk}
  {lo hi a i : Nat} {F : Nat → Prop}

namespace Laid

theorem frame (hl : Laid h lay) (hruns : h'.runs = h.runs)
    (hmem : ∀ b, InHeap h.runs lay b → ∀ w, b.IsTag w → h'.mem w = h.mem w) : Laid h' lay := by
  refine ⟨?_, ?_, ?_, ?_⟩ <;> rw [hruns]
  · exact hl.granted
  · exact hl.apart
  · exact hl.tiles
  · intro r hr b hb
    exact (hl.ok r hr b hb).congr (hmem b ⟨r, hr, hb⟩)

theorem insert (hl : Laid h lay) (hf : FreeList h F)
    (hF : ∀ x, x = a ∨ F x → ∃ c, InHeap h.runs lay c ∧ c.addr = x) :
    Laid (freeListInsert h a) lay :=
  hl.frame (freeListInsert_runs h a) fun _ hb _ hw =>
    hf.insert_mem (hl.tag_not_link hF hb hw)

theorem remove (hl : Laid h lay) (hf : FreeList h F) (ha : F a)
    (hF : ∀ x, F x → ∃ c, InHeap h.runs lay c ∧ c.addr = x) : Laid (freeListRemove h a) lay :=
  hl.frame (freeListRemove_runs h a) fun _ hb _ hw =>
    hf.remove_mem ha (hl.tag_not_link hF hb hw)

section Retile

variable (hl : Laid h lay) (hr : r ∈ h.runs) (hlay : lay r.virt = xs ++ (old ++ ys))
  (hold : Tiles Blk.addr Blk.stop lo hi old) (hne : old ≠ [])

include hl hr hlay hold hne

/-- The three parts of a run around the blocks `old`. -/
theorem parts : Tiles Blk.addr Blk.stop r.virt lo xs ∧ Tiles Blk.addr Blk.stop hi r.stop ys := by
  have htiles := hl.tiles r hr
  rw [hlay] at htiles
  obtain ⟨lo', hxs, hrest⟩ := tiles_append.mp htiles
  obtain ⟨hi', hold', hys⟩ := tiles_append.mp hrest
  obtain ⟨rfl, rfl⟩ := tiles_interval hold hold' hne
  exact ⟨hxs, hys⟩

/-- The blocks after `old` has been replaced by `new`. -/
theorem inHeap_retile (new : List Blk) (c : Blk) :
    InHeap h.runs (update lay r.virt (xs ++ (new ++ ys))) c ↔
      c ∈ new ∨ InHeap h.runs lay c ∧ (c.stop ≤ lo ∨ hi ≤ c.addr) := by
  obtain ⟨hxs, hys⟩ := hl.parts hr hlay hold hne
  have hlo := tiles_le hxs
  have hhi := tiles_le hys
  constructor
  · rintro ⟨s, hs, hc⟩
    by_cases hv : s.virt = r.virt
    · obtain rfl := hl.run_unique hs hr hv
      rw [update_self] at hc
      have hin (hc' : c ∈ xs ++ (old ++ ys)) : InHeap h.runs lay c := ⟨s, hs, hlay ▸ hc'⟩
      simp only [mem_append] at hc
      rcases hc with hc | hc | hc
      · exact .inr ⟨hin (by simp [hc]), .inl (tiles_mem hxs hc).2.2⟩
      · exact .inl hc
      · exact .inr ⟨hin (by simp [hc]), .inr (tiles_mem hys hc).1⟩
    · rw [update_of_ne hv] at hc
      have hin := hl.block_in_run hs hc
      refine .inr ⟨⟨s, hs, hc⟩, ?_⟩
      rcases hl.runs_apart hs hr with rfl | hsr | hsr
      · exact absurd rfl hv
      · exact .inl (by omega)
      · exact .inr (by omega)
  · rintro (hc | ⟨⟨s, hs, hc⟩, hout⟩)
    · refine ⟨r, hr, ?_⟩
      rw [update_self]
      simp [hc]
    · refine ⟨s, hs, ?_⟩
      by_cases hv : s.virt = r.virt
      · obtain rfl := hl.run_unique hs hr hv
        rw [hlay] at hc
        rw [update_self]
        simp only [mem_append] at hc ⊢
        rcases hc with hc | hc | hc
        · exact .inl hc
        · have := tiles_mem hold hc
          omega
        · exact .inr (.inr hc)
      · rw [update_of_ne hv]
        exact hc

theorem free_retile (new : List Blk) (x : Nat) :
    Free h.runs (update lay r.virt (xs ++ (new ++ ys))) x ↔
      (∃ c ∈ new, c.free = true ∧ c.addr = x) ∨
        Free h.runs lay x ∧ ∀ c ∈ old, c.addr ≠ x := by
  constructor
  · rintro ⟨c, hc, hfree, rfl⟩
    rcases (hl.inHeap_retile hr hlay hold hne new c).mp hc with hnew | ⟨hin, hout⟩
    · exact .inl ⟨c, hnew, hfree, rfl⟩
    · refine .inr ⟨⟨c, hin, hfree, rfl⟩, fun d hd heq => ?_⟩
      have hd' : InHeap h.runs lay d := ⟨r, hr, by rw [hlay]; simp [hd]⟩
      obtain rfl := hl.eq_of_addr hd' hin heq
      have := tiles_mem hold hd
      omega
  · rintro (⟨c, hc, hfree, rfl⟩ | ⟨⟨c, hin, hfree, rfl⟩, hout⟩)
    · exact ⟨c, (hl.inHeap_retile hr hlay hold hne new c).mpr (.inl hc), hfree, rfl⟩
    · refine ⟨c, (hl.inHeap_retile hr hlay hold hne new c).mpr (.inr ⟨hin, ?_⟩), hfree, rfl⟩
      -- `c` is none of the old blocks, so it lies outside the interval they tile
      obtain ⟨hxs, hys⟩ := hl.parts hr hlay hold hne
      obtain ⟨s, hs, hc⟩ := hin
      rcases hl.runs_apart hs hr with rfl | hsr
      · rw [hlay] at hc
        simp only [mem_append] at hc
        rcases hc with hc | hc | hc
        · exact .inl (tiles_mem hxs hc).2.2
        · exact absurd rfl (hout c hc)
        · exact .inr (tiles_mem hys hc).1
      · have hin := hl.block_in_run hs hc
        have := tiles_le hxs
        have := tiles_le hys
        have := tiles_le hold
        rcases hsr with hsr | hsr
        · exact .inl (by omega)
        · exact .inr (by omega)

/-- Replacing neighbouring blocks by others over the same addresses. -/
theorem retile (hnew : Tiles Blk.addr Blk.stop lo hi new) (hruns : h'.runs = h.runs)
    (hmem : ∀ w, w < lo ∨ hi ≤ w → h'.mem w = h.mem w) (hok : ∀ c ∈ new, c.Ok h'.mem) :
    Laid h' (update lay r.virt (xs ++ (new ++ ys))) := by
  obtain ⟨hxs, hys⟩ := hl.parts hr hlay hold hne
  refine ⟨?_, ?_, ?_, ?_⟩ <;> rw [hruns]
  · exact hl.granted
  · exact hl.apart
  · intro s hs
    by_cases hv : s.virt = r.virt
    · obtain rfl := hl.run_unique hs hr hv
      rw [update_self]
      exact tiles_append.mpr ⟨lo, hxs, tiles_append.mpr ⟨hi, hnew, hys⟩⟩
    · rw [update_of_ne hv]
      exact hl.tiles s hs
  · intro s hs c hc
    rcases (hl.inHeap_retile hr hlay hold hne new c).mp ⟨s, hs, hc⟩ with hc | ⟨hin, hout⟩
    · exact hok c hc
    · have hsize := hl.size_ge hin
      obtain ⟨s', hs', hc'⟩ := hin
      refine (hl.ok s' hs' c hc').congr fun w hw => hmem w ?_
      unfold Blk.IsTag at hw
      unfold Blk.stop at hw hout
      omega

end Retile

end Laid

/-! ## Blocks that change their flag or their size -/

/-- A heap whose list is made of blocks that the layout has free. -/
structure Sound (h : Heap) (lay : Layout) : Prop where
  laid : Laid h lay
  list : FreeList h (Free h.runs lay)

/-- All free blocks are on the list. -/
def Listed (h : Heap) (lay : Layout) : Prop := Whole h (Free h.runs lay)

theorem Free.inHeap {runs : List PageRun} {x : Nat} (hx : Free runs lay x) :
    ∃ c, InHeap runs lay c ∧ c.addr = x := by
  obtain ⟨c, hc, -, rfl⟩ := hx
  exact ⟨c, hc, rfl⟩

theorem Sound.remove (hs : Sound h lay) (ha : Free h.runs lay a) : Laid (freeListRemove h a) lay :=
  hs.laid.remove hs.list ha fun _ => Free.inHeap

theorem setFooter_mem (h : Heap) (a s w : Nat) : ((h.write a s).setFooter a).mem w =
    if w = a + s - 8 then s else if w = a then s else h.mem w := by
  simp [setFooter, size, footerSize]

/-- A block and the one behind it as one. -/
abbrev Blk.join (b n : Blk) : Blk := ⟨b.addr, b.size + n.size, b.free⟩

/-- The tags of a block that takes over the one behind it. -/
abbrev Heap.join (h : Heap) (b n : Blk) : Heap :=
  (h.write b.addr (b.size + n.size)).setFooter b.addr

theorem tiles_one (hc : 0 < c.size) : Tiles Blk.addr Blk.stop c.addr c.stop [c] := by
  have : c.addr < c.stop := by
    unfold Blk.stop
    omega
  exact ⟨rfl, this, rfl⟩

/-- The flag of a block is set to `f`. -/
theorem Laid.setFree (hl : Laid h lay) (hr : r ∈ h.runs) (hlay : lay r.virt = xs ++ b :: ys)
    (f : Bool) : Laid (h.setFree b.addr f)
      (update lay r.virt (xs ++ { b with free := f } :: ys)) := by
  have hb : b ∈ lay r.virt := by rw [hlay]; simp
  have hok := hl.ok r hr b hb
  have hmin : 56 ≤ b.size := hok.min
  have htile := tiles_one (show 0 < b.size by omega)
  have hnew : Tiles Blk.addr Blk.stop b.addr b.stop [{ b with free := f }] := htile
  refine hl.retile hr hlay htile (cons_ne_nil b []) hnew rfl ?_ ?_
  · intro w hw
    unfold Blk.stop at hw
    simp only [Heap.setFree, Heap.write_mem]
    rw [if_neg (by omega)]
  · intro c hc
    obtain rfl := mem_singleton.mp hc
    have hstop : b.stop = b.addr + b.size := rfl
    refine ⟨?_, ?_, ?_, hok.min, hok.aligned⟩
    · show (h.write (b.addr + 8) _).mem b.addr = b.size
      rw [Heap.write_mem, if_neg (by omega), hok.size]
    · show (h.write (b.addr + 8) _).mem (b.addr + 8) = _
      rw [Heap.write_mem, if_pos rfl]
    · show (h.write (b.addr + 8) _).mem (b.stop - 8) = b.size
      rw [Heap.write_mem, if_neg (by omega), hok.footer]

section

variable (hf : FreeList h F) (hl : Laid h lay)
  (hF : ∀ x, F x → ∃ c, InHeap h.runs lay c ∧ c.addr = x)

include hf hl hF

/-- Writes to tags of blocks leave the list alone. -/
theorem FreeList.tags (hmem : ∀ w, (∀ c, InHeap h.runs lay c → ¬c.IsTag w) → h'.mem w = h.mem w)
    (hhead : h'.freeList = h.freeList) : FreeList h' F ∧ (Whole h F → Whole h' F) := by
  refine hf.congr (fun w hw => hmem w fun c hc htag => ?_) hhead
  exact hl.tag_not_link hF hc htag hw

theorem FreeList.setFree (hb : InHeap h.runs lay b) (f : Bool) :
    FreeList (h.setFree b.addr f) F ∧ (Whole h F → Whole (h.setFree b.addr f) F) := by
  refine hf.tags hl hF (fun w hw => ?_) rfl
  have hne : w ≠ b.addr + 8 := fun heq => hw b hb (.inr (.inl heq))
  rw [Heap.setFree, Heap.write_mem, if_neg hne]

end

namespace Laid

variable (hl : Laid h lay) (hr : r ∈ h.runs) (hlay : lay r.virt = xs ++ b :: n :: ys)

include hl hr hlay

theorem next_addr : n.addr = b.stop := by
  have htiles := hl.tiles r hr
  rw [hlay] at htiles
  exact (tiles_middle.mp htiles).2.2.1

/-- Two neighbours in a run. -/
theorem neighbours :
    InHeap h.runs lay b ∧ InHeap h.runs lay n ∧ n.addr = b.addr + b.size ∧ 56 ≤ b.size ∧
      56 ≤ n.size ∧ Tiles Blk.addr Blk.stop b.addr n.stop [b, n] := by
  have hb : InHeap h.runs lay b := ⟨r, hr, by rw [hlay]; simp⟩
  have hn : InHeap h.runs lay n := ⟨r, hr, by rw [hlay]; simp⟩
  have hbmin := hl.size_ge hb
  have hnmin := hl.size_ge hn
  have hnext : n.addr = b.addr + b.size := hl.next_addr hr hlay
  refine ⟨hb, hn, hnext, hbmin, hnmin, rfl, ?_, hnext, ?_, rfl⟩ <;> unfold Blk.stop <;> omega

/-- A block takes over the one behind it. -/
theorem join : Laid (h.join b n) (update lay r.virt (xs ++ b.join n :: ys)) := by
  have hbok := hl.ok r hr b (by rw [hlay]; simp)
  have hnok := hl.ok r hr n (by rw [hlay]; simp)
  obtain ⟨-, -, hnext, hbmin, hnmin, hold⟩ := hl.neighbours hr hlay
  have hnew : Tiles Blk.addr Blk.stop b.addr n.stop [b.join n] := by
    refine ⟨rfl, ?_, ?_⟩
    · unfold Blk.stop
      dsimp only
      omega
    · show b.addr + (b.size + n.size) = n.stop
      unfold Blk.stop
      omega
  refine hl.retile hr hlay hold (cons_ne_nil b [n]) hnew rfl ?_ ?_
  · intro w hw
    unfold Blk.stop at hw
    rw [setFooter_mem, if_neg (by omega), if_neg (by omega)]
  · intro c hc
    obtain rfl := mem_singleton.mp hc
    refine ⟨?_, ?_, ?_, ?_, ?_⟩
    · rw [setFooter_mem, if_neg (by dsimp only; omega), if_pos rfl]
    · rw [setFooter_mem, if_neg (by dsimp only; omega), if_neg (by dsimp only; omega)]
      exact hbok.flag
    · rw [setFooter_mem, if_pos]
      rfl
    · show 56 ≤ b.size + n.size
      omega
    · exact Nat.dvd_add hbok.aligned hnok.aligned

/-- The free blocks after two neighbours have been joined, the first of them free. -/
theorem free_join (hb : b.free = true) (x : Nat) :
    Free h.runs (update lay r.virt (xs ++ b.join n :: ys)) x ↔
      x ≠ n.addr ∧ Free h.runs lay x := by
  obtain ⟨hbin, hnin, hnext, hbmin, hnmin, hold⟩ := hl.neighbours hr hlay
  refine (hl.free_retile hr hlay hold (cons_ne_nil b [n]) [b.join n] x).trans ⟨?_, ?_⟩
  · rintro (⟨c, hc, -, rfl⟩ | ⟨hfree, hout⟩)
    · obtain rfl := mem_singleton.mp hc
      refine ⟨?_, b, hbin, hb, rfl⟩
      dsimp only
      omega
    · exact ⟨fun heq => hout n (by simp) heq.symm, hfree⟩
  · rintro ⟨hxn, hfree⟩
    by_cases hxb : x = b.addr
    · exact .inl ⟨_, mem_singleton_self _, hb, hxb.symm⟩
    · refine .inr ⟨hfree, fun c hc heq => ?_⟩
      rcases mem_cons.mp hc with rfl | hc
      · exact hxb heq.symm
      · obtain rfl := mem_singleton.mp hc
        exact hxn heq.symm

/-- Joining two blocks makes no new tags. -/
theorem tag_join {w : Nat} (hc : InHeap h.runs (update lay r.virt (xs ++ b.join n :: ys)) c)
    (hw : c.IsTag w) : ∃ d, InHeap h.runs lay d ∧ d.IsTag w := by
  obtain ⟨hbin, hnin, hnext, hbmin, hnmin, hold⟩ := hl.neighbours hr hlay
  rcases (hl.inHeap_retile hr hlay hold (cons_ne_nil b [n]) [b.join n] c).mp hc with
    hc | ⟨hc, -⟩
  · obtain rfl := mem_singleton.mp hc
    rcases hw with rfl | rfl | rfl
    · exact ⟨b, hbin, .inl rfl⟩
    · exact ⟨b, hbin, .inr (.inl rfl)⟩
    · refine ⟨n, hnin, .inr (.inr ?_)⟩
      unfold Blk.stop
      dsimp only
      omega
  · exact ⟨c, hc, hw⟩

end Laid

theorem FreeList.join (hf : FreeList h F) (hl : Laid h lay)
    (hF : ∀ x, F x → ∃ c, InHeap h.runs lay c ∧ c.addr = x) (hr : r ∈ h.runs)
    (hlay : lay r.virt = xs ++ b :: n :: ys) :
    FreeList (h.join b n) F ∧ (Whole h F → Whole (h.join b n) F) := by
  obtain ⟨hb, hn, hnext, -⟩ := hl.neighbours hr hlay
  refine hf.tags hl hF (fun w hw => ?_) rfl
  have hne : w ≠ b.addr := fun heq => hw b hb (.inl heq)
  have hfoot : w ≠ b.addr + (b.size + n.size) - 8 := by
    refine fun heq => hw n hn (.inr (.inr ?_))
    unfold Blk.stop
    omega
  rw [setFooter_mem, if_neg hfoot, if_neg hne]

/-! ## Coalescing -/

/-- One round of `merge_forward`: the next block leaves the list and joins this one. -/
theorem Sound.absorbNext (hs : Sound h lay) (hr : r ∈ h.runs)
    (hlay : lay r.virt = xs ++ b :: n :: ys) (hb : b.free = true) (hn : n.free = true) :
    Sound ((freeListRemove h n.addr).join b n) (update lay r.virt (xs ++ b.join n :: ys)) ∧
      (Listed h lay → Listed ((freeListRemove h n.addr).join b n)
        (update lay r.virt (xs ++ b.join n :: ys))) := by
  have hF : Free h.runs lay n.addr := ⟨n, ⟨r, hr, by rw [hlay]; simp⟩, hn, rfl⟩
  have hruns := freeListRemove_runs h n.addr
  have hl := hs.remove hF
  obtain ⟨-, hlist, hwhole⟩ := hs.list.remove hF
  rw [← hruns] at hr hlist hwhole
  obtain ⟨hlist', hwhole'⟩ := hlist.join hl (fun x hx => hx.2.inHeap) hr hlay
  have hset := hl.free_join hr hlay hb
  refine ⟨⟨hl.join hr hlay, hlist'.set_congr hset⟩, fun hw => ?_⟩
  unfold Listed at hw
  rw [← hruns] at hw
  exact (hwhole' (hwhole hw)).set_congr hset

/-- `merge_forward` joins the block with all free blocks right behind it. -/
theorem mergeForward_spec (fuel : Nat) (hs : Sound h lay) (hr : r ∈ h.runs)
    (hlay : lay r.virt = xs ++ b :: ys) (hb : b.free = true) (hfuel : ys.length ≤ fuel) :
    ∃ h' c fs rest, mergeForward b.addr (fuel + 1) h = some h' ∧ c.addr = b.addr ∧ c.free = true ∧
      ys = fs ++ rest ∧ (∀ f ∈ fs, f.free = true) ∧ (∀ n ∈ rest.head?, n.free = false) ∧
      h'.runs = h.runs ∧ Sound h' (update lay r.virt (xs ++ c :: rest)) ∧
      (Listed h lay → Listed h' (update lay r.virt (xs ++ c :: rest))) := by
  induction ys generalizing h lay b fuel with
  | nil =>
    have hin : b ∈ lay r.virt := by rw [hlay]; simp
    have hstop : b.stop = r.stop := by
      have htiles := hs.laid.tiles r hr
      rw [hlay] at htiles
      exact (tiles_middle.mp htiles).2.2
    have hsame : update lay r.virt (xs ++ [b]) = lay := by
      rw [← hlay, update_eq_self]
    refine ⟨h, b, [], [], ?_, rfl, hb, rfl, by simp, by simp, rfl, hsame.symm ▸ hs,
      fun hw => hsame.symm ▸ hw⟩
    rw [mergeForward, hs.laid.run_eq hr hin]
    simp only [hs.laid.mem_size ⟨r, hr, hin⟩]
    rw [if_pos (by unfold Blk.stop at hstop; omega)]
  | cons n ys ih =>
    have hin : b ∈ lay r.virt := by rw [hlay]; simp
    have hnin : n ∈ lay r.virt := by rw [hlay]; simp
    have hnext : n.addr = b.addr + b.size := hs.laid.next_addr hr hlay
    have hstop := hs.laid.block_in_run hr hnin
    have hnsize := hs.laid.size_ge ⟨r, hr, hnin⟩
    have hinside : ¬r.stop ≤ b.addr + b.size := by
      unfold Blk.stop at hstop
      omega
    cases hfree : n.free with
    | false =>
      have hsame : update lay r.virt (xs ++ b :: n :: ys) = lay := by
        rw [← hlay, update_eq_self]
      refine ⟨h, b, [], n :: ys, ?_, rfl, hb, rfl, by simp, by simpa using hfree, rfl,
        hsame.symm ▸ hs, fun hw => hsame.symm ▸ hw⟩
      rw [mergeForward, hs.laid.run_eq hr hin]
      simp only [hs.laid.mem_size ⟨r, hr, hin⟩]
      rw [if_neg hinside, ← hnext, hs.laid.mem_free ⟨r, hr, hnin⟩, hfree]
      rfl
    | true =>
      obtain ⟨hs1, hw1⟩ := hs.absorbNext hr hlay hb hfree
      have hr1 : r ∈ (freeListRemove h n.addr).runs := by rw [freeListRemove_runs]; exact hr
      rw [length_cons] at hfuel
      obtain ⟨fuel, rfl⟩ := Nat.exists_eq_add_of_le' (show 1 ≤ fuel by omega)
      obtain ⟨h', c, fs, rest, hrun, hc, hcfree, rfl, hfs, hrest, hruns, hs', hw'⟩ :=
        ih fuel hs1 hr1 (update_self ..) hb (by omega)
      rw [update_idem] at hs' hw'
      refine ⟨h', c, n :: fs, rest, ?_, hc, hcfree, rfl, by simpa [hfree] using hfs, hrest, ?_, hs',
        fun hw => hw' (hw1 hw)⟩
      · have hF : Free h.runs lay n.addr := ⟨n, ⟨r, hr, hnin⟩, hfree, rfl⟩
        have hl := hs.remove hF
        rw [mergeForward, hs.laid.run_eq hr hin]
        simp only [hs.laid.mem_size ⟨r, hr, hin⟩]
        rw [if_neg hinside, ← hnext, hs.laid.mem_free ⟨r, hr, hnin⟩, hfree,
          hl.mem_size ⟨r, hr1, hin⟩, hl.mem_size ⟨r, hr1, hnin⟩]
        exact hrun
      · rw [hruns]
        exact freeListRemove_runs h n.addr

/-- The words between the tags of a block, without its links. -/
def Blk.Inner (b : Blk) (w : Nat) : Prop :=
  b.addr < w ∧ w < b.stop - 8 ∧ w ≠ b.addr + 16 ∧ w ≠ b.addr + 24

theorem Laid.inner_not_link (hl : Laid h lay) (hb : InHeap h.runs lay b) {w : Nat}
    (hw : b.Inner w) : ¬IsLink (Free h.runs lay) w := by
  rintro ⟨x, ⟨c, hc, -, rfl⟩, hlink⟩
  have hsize := hl.size_ge hc
  obtain ⟨hlow, hhigh, h1, h2⟩ := hw
  have hstop : c.stop = c.addr + c.size := rfl
  rcases hl.sep hb hc with rfl | hsep | hsep <;> omega

/-- One round of `merge_backward`. Both blocks leave the list: the one in front, which
stays a block, and then the one that has become part of it. Inside the latter only the
links and the footer change. -/
theorem Sound.absorbPrev {p : Blk} (hs : Sound h lay) (hr : r ∈ h.runs)
    (hlay : lay r.virt = xs ++ p :: b :: ys) (hp : p.free = true) (hb : b.free = true) :
    Sound (freeListRemove ((freeListRemove h p.addr).join p b) b.addr)
      (update lay r.virt (xs ++ p.join b :: ys)) ∧
      ∀ w, b.Inner w →
        (freeListRemove ((freeListRemove h p.addr).join p b) b.addr).mem w = h.mem w := by
  have hbin : InHeap h.runs lay b := ⟨r, hr, by rw [hlay]; simp⟩
  have hnext := hs.laid.next_addr hr hlay
  have hFp : Free h.runs lay p.addr := ⟨p, ⟨r, hr, by rw [hlay]; simp⟩, hp, rfl⟩
  have hFb : Free h.runs lay b.addr := ⟨b, hbin, hb, rfl⟩
  have hruns := freeListRemove_runs h p.addr
  have hl := hs.remove hFp
  have hinner (w : Nat) (hw : b.Inner w) := hs.laid.inner_not_link hbin hw
  have hremove (w : Nat) (hw : b.Inner w) := hs.list.remove_mem hFp (hinner w hw)
  obtain ⟨hlist, -, -⟩ := hs.list.remove hFp
  rw [← hruns] at hr hlist hFb hinner
  obtain ⟨hlist1, -⟩ := hlist.join hl (fun x hx => hx.inHeap) hr hlay
  have hl1 := hl.join hr hlay
  obtain ⟨-, hlist2, -⟩ := hlist1.remove hFb
  refine ⟨⟨hl1.frame (freeListRemove_runs _ _) fun c hc w hw => ?_, ?_⟩, fun w hw => ?_⟩
  · obtain ⟨d, hd, hdw⟩ := hl.tag_join hr hlay hc hw
    exact hlist1.remove_mem hFb (hl.tag_not_link (fun x hx => hx.inHeap) hd hdw)
  · rw [freeListRemove_runs]
    exact hlist2.set_congr (hl.free_join hr hlay hp)
  · rw [hlist1.remove_mem hFb (hinner w hw), setFooter_mem, if_neg, if_neg, hremove w hw]
    all_goals
      unfold Blk.Inner Blk.stop at *
      omega

/-- `merge_backward` joins the block with all free blocks right before it. What its header
held stays there. -/
theorem mergeBackward_spec (fuel : Nat) (hs : Sound h lay) (hr : r ∈ h.runs)
    (hlay : lay r.virt = xs ++ b :: ys) (hb : b.free = true) (hfuel : xs.length ≤ fuel) :
    ∃ h' c pre fs, mergeBackward (fuel + 1) h b.addr = some (c.addr, h') ∧ c.free = true ∧
      xs = pre ++ fs ∧ (∀ f ∈ fs, f.free = true) ∧ (∀ p ∈ pre.getLast?, p.free = false) ∧
      h'.runs = h.runs ∧ Sound h' (update lay r.virt (pre ++ c :: ys)) ∧
      (fs = [] → h' = h ∧ c = b) ∧ ∀ w, b.Inner w → h'.mem w = h.mem w := by
  induction xs using reverseRecOn generalizing h lay b fuel with
  | nil =>
    have hin : b ∈ lay r.virt := by rw [hlay]; simp
    have hstart : b.addr = r.virt := by
      have htiles := hs.laid.tiles r hr
      rw [hlay] at htiles
      exact htiles.1
    have hsame : update lay r.virt ([] ++ b :: ys) = lay := by
      rw [← hlay, update_eq_self]
    refine ⟨h, b, [], [], ?_, hb, rfl, by simp, by simp, rfl, hsame.symm ▸ hs, fun _ => ⟨rfl, rfl⟩,
      fun _ _ => rfl⟩
    rw [mergeBackward, hs.laid.run_eq hr hin]
    simp only
    rw [if_pos (by omega)]
  | append_singleton xs p ih =>
    rw [append_assoc, singleton_append] at hlay
    have hin : b ∈ lay r.virt := by rw [hlay]; simp
    have hpin : p ∈ lay r.virt := by rw [hlay]; simp
    have hnext : b.addr = p.addr + p.size := hs.laid.next_addr hr hlay
    have hpsize := hs.laid.size_ge ⟨r, hr, hpin⟩
    have hprun := hs.laid.block_in_run hr hpin
    have hfooter : h.mem (b.addr - footerSize) = p.size := by
      rw [hnext]
      exact hs.laid.mem_footer ⟨r, hr, hpin⟩
    have hback : b.addr - p.size = p.addr := by omega
    have hfirst : ¬b.addr ≤ r.virt + footerSize := by
      unfold footerSize
      omega
    cases hfree : p.free with
    | false =>
      have hsame : update lay r.virt ((xs ++ [p]) ++ b :: ys) = lay := by
        rw [append_assoc, singleton_append, ← hlay, update_eq_self]
      refine ⟨h, b, xs ++ [p], [], ?_, hb, by simp, by simp, by simpa using hfree, rfl,
        hsame.symm ▸ hs, fun _ => ⟨rfl, rfl⟩, fun _ _ => rfl⟩
      rw [mergeBackward, hs.laid.run_eq hr hin]
      simp only [hfooter, hback]
      rw [if_neg hfirst, if_neg (by omega), hs.laid.mem_free ⟨r, hr, hpin⟩, hfree]
      rfl
    | true =>
      obtain ⟨hs1, hmem1⟩ := hs.absorbPrev hr hlay hfree hb
      have hruns1 := freeListRemove_runs ((freeListRemove h p.addr).join p b) b.addr
      have hruns0 := freeListRemove_runs h p.addr
      have hr1 : r ∈ (freeListRemove h p.addr).runs := by rw [hruns0]; exact hr
      rw [length_append, length_singleton] at hfuel
      obtain ⟨fuel, rfl⟩ := Nat.exists_eq_add_of_le' (show 1 ≤ fuel by omega)
      obtain ⟨h', c, pre, fs, hrun, hcfree, rfl, hfs, hpre, hruns, hs', -, hmem⟩ :=
        ih fuel hs1 (by rw [hruns1]; exact hr1) (update_self ..) hfree (by omega)
      rw [update_idem] at hs'
      refine ⟨h', c, pre, fs ++ [p], ?_, hcfree, by simp, ?_, hpre, ?_, hs', by simp, ?_⟩
      · have hF : Free h.runs lay p.addr := ⟨p, ⟨r, hr, hpin⟩, hfree, rfl⟩
        have hl := hs.remove hF
        rw [mergeBackward, hs.laid.run_eq hr hin]
        simp only [hfooter, hback]
        rw [if_neg hfirst, if_neg (by omega), hs.laid.mem_free ⟨r, hr, hpin⟩, hfree,
          hl.mem_size ⟨r, hr1, hin⟩, hl.mem_size ⟨r, hr1, hpin⟩]
        exact hrun
      · intro f hf
        rcases mem_append.mp hf with hf | hf
        · exact hfs f hf
        · rw [mem_singleton.mp hf, hfree]
      · rw [hruns, hruns1]
        exact hruns0
      · intro w hw
        rw [hmem, hmem1 w hw]
        unfold Blk.Inner Blk.stop at *
        dsimp only
        omega

/-! ## The release of a run -/

/-- Filling the gap with the last entry loses exactly the entry that was there. -/
theorem swapLast_perm {α : Type} {l : List α} {x : α} (hi : l[i]? = some x) (d : α) :
    (x :: (l.set i (l.getLast?.getD d)).dropLast).Perm l := by
  rcases List.eq_nil_or_concat l with rfl | ⟨l', z, rfl⟩
  · cases hi
  rw [List.concat_eq_append] at hi ⊢
  obtain ⟨hlt, rfl⟩ := List.getElem?_eq_some_iff.mp hi
  rw [List.getLast?_concat, Option.getD_some]
  by_cases hlast : i < l'.length
  · rw [List.set_append_left _ _ hlast, List.dropLast_concat, List.getElem_append_left hlast]
    refine (List.Perm.cons _ (List.set_perm_cons_eraseIdx hlast z)).trans ?_
    refine (List.Perm.swap z _ _).trans ?_
    refine (List.Perm.cons z (List.getElem_cons_eraseIdx_perm hlast)).trans ?_
    exact (List.perm_append_singleton z l').symm
  · have hend : i = l'.length := by
      rw [List.length_append, List.length_singleton] at hlt
      omega
    subst hend
    rw [List.set_append_right _ _ (Nat.le_refl _), Nat.sub_self]
    simpa using (List.perm_append_singleton z l').symm

theorem Laid.dropRun (hl : Laid h lay) (hi : h.runs[i]? = some r) :
    Laid (dropRun h i r) lay ∧ ∀ s, s ∈ (dropRun h i r).runs ↔ s ∈ h.runs ∧ s ≠ r := by
  have hperm : (r :: (Mm.dropRun h i r).runs).Perm h.runs := swapLast_perm hi r
  have hmem_runs (s : PageRun) : s ∈ h.runs ↔ s = r ∨ s ∈ (Mm.dropRun h i r).runs := by
    rw [← hperm.mem_iff, mem_cons]
  have hsub (s : PageRun) (hs : s ∈ (Mm.dropRun h i r).runs) : s ∈ h.runs :=
    (hmem_runs s).mpr (.inr hs)
  have hapart : (r :: (Mm.dropRun h i r).runs).Pairwise PageRun.Apart :=
    (hperm.pairwise_iff fun {_ _} => PageRun.Apart.symm).mpr hl.apart
  have hgone (s : PageRun) (hs : s ∈ (Mm.dropRun h i r).runs) : s ≠ r := by
    rintro rfl
    have hself := (pairwise_cons.mp hapart).1 s hs
    have := (hl.granted s (hsub s hs)).lt_stop
    rcases hself with h1 | h1 <;> omega
  refine ⟨⟨?_, ?_, ?_, ?_⟩, fun s => ?_⟩
  · exact fun s hs => hl.granted s (hsub s hs)
  · exact (pairwise_cons.mp hapart).2
  · exact fun s hs => hl.tiles s (hsub s hs)
  · exact fun s hs => hl.ok s (hsub s hs)
  · constructor
    · exact fun hs => ⟨hsub s hs, hgone s hs⟩
    · rintro ⟨hs, hne⟩
      exact ((hmem_runs s).mp hs).resolve_left hne

/-- A block of the size of its run is the only block there. -/
theorem Laid.only_block (hl : Laid h lay) (hr : r ∈ h.runs) (hlay : lay r.virt = xs ++ b :: ys)
    (hsize : b.size = r.pageCount * pageSize) (haddr : b.addr = r.virt) : xs = [] ∧ ys = [] := by
  have htiles := hl.tiles r hr
  rw [hlay] at htiles
  obtain ⟨hxs, -, hys⟩ := tiles_middle.mp htiles
  have hstop : b.stop = r.stop := by
    unfold Blk.stop PageRun.stop
    rw [hsize, haddr]
  have hx := tiles_length hxs
  have hy := tiles_length hys
  exact ⟨length_eq_zero_iff.mp (by omega), length_eq_zero_iff.mp (by omega)⟩

/-- The end of `kfree` for a block that is the whole run, and for one that is not. -/
theorem releaseRun_spec (hs : Sound h lay) (hi : h.runs[i]? = some r)
    (hlay : lay r.virt = xs ++ b :: ys) (hb : b.free = true) :
    Sound (releaseRun h i r b.addr).2 lay ∧
      (Listed h lay → Listed (releaseRun h i r b.addr).2 lay) ∧
      ((xs = [] ∧ ys = []) ∧ (releaseRun h i r b.addr).1 = some (r.phys, r.pageCount) ∧
          (∀ s, s ∈ (releaseRun h i r b.addr).2.runs ↔ s ∈ h.runs ∧ s ≠ r) ∨
        ¬(xs = [] ∧ ys = []) ∧ releaseRun h i r b.addr = (none, h)) := by
  have hr : r ∈ h.runs := mem_of_getElem? hi
  have hbin : InHeap h.runs lay b := ⟨r, hr, by rw [hlay]; simp⟩
  unfold releaseRun
  rw [hs.laid.mem_size hbin]
  split_ifs with hcover
  · obtain ⟨rfl, rfl⟩ := hs.laid.only_block hr hlay hcover.1 hcover.2
    have hF : Free h.runs lay b.addr := ⟨b, hbin, hb, rfl⟩
    have hl := hs.remove hF
    obtain ⟨-, hlist, hwhole⟩ := hs.list.remove hF
    obtain ⟨hl', hruns⟩ := hl.dropRun (by rw [freeListRemove_runs]; exact hi)
    rw [freeListRemove_runs] at hruns
    have hset (x : Nat) : Free (dropRun (freeListRemove h b.addr) i r).runs lay x ↔
        x ≠ b.addr ∧ Free h.runs lay x := by
      constructor
      · rintro ⟨c, ⟨s, hs', hc⟩, hfree, rfl⟩
        obtain ⟨hsr, hne⟩ := (hruns s).mp hs'
        refine ⟨fun heq => hne ?_, c, ⟨s, hsr, hc⟩, hfree, rfl⟩
        obtain rfl := hs.laid.eq_of_addr ⟨s, hsr, hc⟩ hbin heq
        exact hs.laid.run_of_block hsr hr hc (by rw [hlay]; simp)
      · rintro ⟨hne, c, ⟨s, hs', hc⟩, hfree, rfl⟩
        refine ⟨c, ⟨s, (hruns s).mpr ⟨hs', ?_⟩, hc⟩, hfree, rfl⟩
        rintro rfl
        rw [hlay, nil_append, mem_singleton] at hc
        exact hne (by rw [hc])
    refine ⟨⟨hl', ?_⟩, ?_, .inl ⟨⟨rfl, rfl⟩, rfl, hruns⟩⟩
    · have hlist' : FreeList (dropRun (freeListRemove h b.addr) i r)
          (fun x => x ≠ b.addr ∧ Free h.runs lay x) := ⟨hlist.nodes, hlist.linked⟩
      exact hlist'.set_congr hset
    · exact fun hw => Complete.set_congr (hwhole hw) hset
  · refine ⟨hs, id, .inr ⟨?_, rfl⟩⟩
    rintro ⟨rfl, rfl⟩
    have htiles := hs.laid.tiles r hr
    rw [hlay] at htiles
    obtain ⟨hstart, -, hstop⟩ := htiles
    refine hcover ⟨?_, hstart⟩
    have hstop' : b.addr + b.size = r.virt + r.pageCount * pageSize := hstop
    omega

/-! ## `kfree` -/

/-- No two neighbouring blocks of a run are both free. -/
def Calm (runs : List PageRun) (lay : Layout) : Prop :=
  ∀ r ∈ runs, (lay r.virt).IsChain fun b c => ¬(b.free = true ∧ c.free = true)

/-- A block in use. -/
def Used (runs : List PageRun) (lay : Layout) (b : Blk) : Prop :=
  InHeap runs lay b ∧ b.free = false

theorem Laid.setFooter_eq (hl : Laid h lay) (hb : InHeap h.runs lay b) :
    h.setFooter b.addr = h := by
  have hfoot : h.mem (b.addr + b.size - footerSize) = b.size := hl.mem_footer hb
  unfold setFooter
  rw [hl.mem_size hb]
  unfold write
  rw [show update h.mem (b.addr + b.size - footerSize) b.size = h.mem by
    rw [update_eq_self_iff]; exact hfoot.symm]

/-- The first part of `kfree`: the block is marked and put on the list. -/
theorem Sound.mark (hs : Sound h lay) (hr : r ∈ h.runs) (hlay : lay r.virt = xs ++ b :: ys)
    (hb : b.free = false) :
    Sound (freeListInsert (h.setFree b.addr true) b.addr)
        (update lay r.virt (xs ++ { b with free := true } :: ys)) ∧
      (Listed h lay → Listed (freeListInsert (h.setFree b.addr true) b.addr)
        (update lay r.virt (xs ++ { b with free := true } :: ys))) := by
  have hbin : InHeap h.runs lay b := ⟨r, hr, by rw [hlay]; simp⟩
  have hl := hs.laid.setFree hr hlay true
  obtain ⟨hlist, hwhole⟩ := hs.list.setFree hs.laid (fun x hx => hx.inHeap) hbin true
  have hsize := hs.laid.size_ge hbin
  have hset (x : Nat) :
      Free h.runs (update lay r.virt (xs ++ { b with free := true } :: ys)) x ↔
        x = b.addr ∨ Free h.runs lay x := by
    refine (hs.laid.free_retile hr hlay (tiles_one (show 0 < b.size by omega)) (cons_ne_nil b [])
      [{ b with free := true }] x).trans ⟨?_, ?_⟩
    · rintro (⟨c, hc, -, rfl⟩ | ⟨hfree, -⟩)
      · exact .inl (by rw [mem_singleton.mp hc])
      · exact .inr hfree
    · rintro (rfl | hfree)
      · exact .inl ⟨_, mem_singleton_self _, rfl, rfl⟩
      · by_cases hxb : b.addr = x
        · exact .inl ⟨_, mem_singleton_self _, rfl, hxb⟩
        · exact .inr ⟨hfree, fun c hc => by rwa [mem_singleton.mp hc]⟩
  have hnot : ¬Free h.runs lay b.addr := by
    rintro ⟨c, hc, hfree, haddr⟩
    rw [hs.laid.eq_of_addr hc hbin haddr, hb] at hfree
    cases hfree
  have hnodes : Nodes fun x => x = b.addr ∨ Free h.runs lay x :=
    hl.nodes.mono fun x hx => (hset x).mpr hx
  obtain ⟨hlist', hwhole'⟩ := hlist.insert hnot hnodes
  refine ⟨⟨hl.insert hlist fun x hx => ((hset x).mpr hx).inHeap, ?_⟩, fun hw => ?_⟩
  · rw [freeListInsert_runs]
    exact hlist'.set_congr hset
  · unfold Listed
    rw [freeListInsert_runs]
    exact (hwhole' (hwhole hw)).set_congr hset

section

variable (hl : Laid h lay) (hr : r ∈ h.runs)

include hl hr

/-- A run has no more blocks than the heap has bytes. -/
theorem Laid.length_le_capacity : (lay r.virt).length ≤ h.capacity := by
  have hlen := tiles_length (hl.tiles r hr)
  have hstop : r.stop = r.virt + r.pageCount * pageSize := rfl
  have hsum : r.pageCount * pageSize ≤ h.capacity :=
    le_sum_of_mem (mem_map_of_mem hr)
  omega

theorem Laid.not_mem_middle (hlay : lay r.virt = xs ++ b :: ys) : b ∉ xs ∧ b ∉ ys := by
  have hnodup := List.Nodup.of_map _ (tiles_nodup (hl.tiles r hr))
  rw [hlay, nodup_middle, nodup_cons] at hnodup
  simpa using hnodup.1

/-- Free blocks of one run and the block `b` give way to free blocks. -/
theorem Laid.used_update (hb : b ∈ lay r.virt)
    (hnew : ∀ c, c.free = false → (c ∈ new ↔ c ∈ lay r.virt ∧ c ≠ b)) (c : Blk) :
    Used h.runs (update lay r.virt new) c ↔ c ≠ b ∧ Used h.runs lay c := by
  constructor
  · rintro ⟨⟨s, hs, hc⟩, hfree⟩
    by_cases hv : s.virt = r.virt
    · rw [hv, update_self] at hc
      obtain ⟨hin, hne⟩ := (hnew c hfree).mp hc
      exact ⟨hne, ⟨r, hr, hin⟩, hfree⟩
    · rw [update_of_ne hv] at hc
      refine ⟨?_, ⟨s, hs, hc⟩, hfree⟩
      rintro rfl
      exact hv (by rw [hl.run_of_block hs hr hc hb])
  · rintro ⟨hne, ⟨s, hs, hc⟩, hfree⟩
    refine ⟨⟨s, hs, ?_⟩, hfree⟩
    by_cases hv : s.virt = r.virt
    · rw [hv, update_self]
      rw [hv] at hc
      exact (hnew c hfree).mpr ⟨hc, hne⟩
    · rw [update_of_ne hv]
      exact hc

end

/-- The condition under which `kfree` of the block `b` keeps the list complete: it has no
free block in front of it to merge with, or the run goes back and nothing else is free. -/
def KeepsList (runs : List PageRun) (lay : Layout) (r : PageRun) (xs ys : List Blk) : Prop :=
  (∀ p ∈ xs.getLast?, p.free = false) ∨
    (∀ c ∈ xs ++ ys, c.free = true) ∧ ∀ s ∈ runs, s ≠ r → ∀ c ∈ lay s.virt, c.free = false

/-- The blocks `fs` before and `gs` behind a block that its joint block `d` has taken over. -/
structure Coalesced (xs ys : List Blk) (d : Blk) (pre fs gs rest : List Blk) : Prop where
  front : xs = pre ++ fs
  back : ys = gs ++ rest
  front_free : ∀ f ∈ fs, f.free = true
  back_free : ∀ f ∈ gs, f.free = true
  front_used : ∀ p ∈ pre.getLast?, p.free = false
  back_used : ∀ n ∈ rest.head?, n.free = false
  joint_free : d.free = true

namespace Coalesced

variable {d : Blk} {pre fs gs rest : List Blk}

section

variable (hc : Coalesced xs ys d pre fs gs rest)

include hc

theorem calm (hcalm : (xs ++ b :: ys).IsChain fun b c => ¬(b.free = true ∧ c.free = true)) :
    (pre ++ d :: rest).IsChain fun b c => ¬(b.free = true ∧ c.free = true) := by
  rw [hc.front, hc.back] at hcalm
  obtain ⟨hfront, hback, -⟩ := isChain_append.mp hcalm
  obtain ⟨hp, -, -⟩ := isChain_append.mp hfront
  obtain ⟨-, hr, -⟩ := isChain_append.mp (isChain_cons.mp hback).2
  refine isChain_append.mpr ⟨hp, isChain_cons.mpr ⟨?_, hr⟩, ?_⟩
  · rintro n hn ⟨-, hfree⟩
    rw [hc.back_used n hn] at hfree
    cases hfree
  · rintro p hp' n - ⟨hfree, -⟩
    rw [hc.front_used p hp'] at hfree
    cases hfree

/-- The blocks in use are those of before without `b`. -/
theorem mem_iff (hb : b ∉ xs ∧ b ∉ ys) (hused : c.free = false) :
    c ∈ pre ++ d :: rest ↔ c ∈ xs ++ b :: ys ∧ c ≠ b := by
  have hnot (f : Blk) (hf : f.free = true) : c ≠ f := by
    rintro rfl
    rw [hf] at hused
    cases hused
  simp only [mem_append, mem_cons]
  constructor
  · rintro (hin | hin | hin)
    · have hxs : c ∈ xs := by rw [hc.front]; simp [hin]
      exact ⟨.inl hxs, fun heq => hb.1 (heq ▸ hxs)⟩
    · exact absurd hin (hnot d hc.joint_free)
    · have hys : c ∈ ys := by rw [hc.back]; simp [hin]
      exact ⟨.inr (.inr hys), fun heq => hb.2 (heq ▸ hys)⟩
  · rintro ⟨hin | hin | hin, hne⟩
    · rw [hc.front] at hin
      rcases mem_append.mp hin with hin | hin
      · exact .inl hin
      · exact absurd rfl (hnot c (hc.front_free c hin))
    · exact absurd hin hne
    · rw [hc.back] at hin
      rcases mem_append.mp hin with hin | hin
      · exact absurd rfl (hnot c (hc.back_free c hin))
      · exact .inr (.inr hin)

theorem front_nil (hlast : ∀ p ∈ xs.getLast?, p.free = false) : fs = [] := by
  rcases eq_nil_or_concat fs with hnil | ⟨fs', f, hfs⟩
  · exact hnil
  · have hfree := hc.front_free f (by simp [hfs])
    rw [hlast f (by simp [hc.front, hfs])] at hfree
    cases hfree

theorem whole (hall : ∀ c ∈ xs ++ ys, c.free = true) : pre = [] ∧ rest = [] := by
  constructor
  · rcases eq_nil_or_concat pre with hnil | ⟨pre', p, hpre⟩
    · exact hnil
    · have hfree := hall p (by simp [hc.front, hpre])
      rw [hc.front_used p (by simp [hpre])] at hfree
      cases hfree
  · cases hrest : rest with
    | nil => rfl
    | cons n rest' =>
      have hfree := hall n (by simp [hc.back, hrest])
      rw [hc.back_used n (by simp [hrest])] at hfree
      cases hfree

end

end Coalesced

/-- An empty set of free blocks is all on the list. -/
theorem Sound.listed_of_none (hs : Sound h lay) (hnone : ∀ x, ¬Free h.runs lay x) :
    Listed h lay := by
  refine ⟨[], ?_, fun x hx => absurd hx (hnone x)⟩
  cases hhead : h.headNode with
  | none => rfl
  | some x => exact absurd (hs.list.linked.head_ok x hhead).1 (hnone x)

/-- `kfree` up to the release of the run. -/
theorem kfree_coalesces (hs : Sound h lay) (hr : r ∈ h.runs)
    (hlay : lay r.virt = xs ++ b :: ys) (hb : b.free = false) :
    ∃ h3 i d pre fs gs rest, kfree h (b.addr + headerSize) = some (releaseRun h3 i r d.addr) ∧
      h3.runs = h.runs ∧ h.runs[i]? = some r ∧ Coalesced xs ys d pre fs gs rest ∧
      Sound h3 (update lay r.virt (pre ++ d :: rest)) ∧
      (fs = [] → Listed h lay → Listed h3 (update lay r.virt (pre ++ d :: rest))) ∧
      h3.free b.addr = true := by
  have hbin : b ∈ lay r.virt := by rw [hlay]; simp
  obtain ⟨i, hfind, hi⟩ := hs.laid.findPageRun_eq hr hbin
  have hlen := hs.laid.length_le_capacity hr
  rw [hlay, length_append, length_cons] at hlen
  -- marked and inserted
  obtain ⟨hs1, hw1⟩ := hs.mark hr hlay hb
  set h1 := freeListInsert (h.setFree b.addr true) b.addr with hh1
  have hruns1 : h1.runs = h.runs := freeListInsert_runs _ _
  -- merged with the blocks behind
  obtain ⟨h2, c, gs, rest, hforward, hc, hcfree, hys, hgs, hrest, hruns2, hs2, hw2⟩ :=
    mergeForward_spec h.capacity hs1 (by rw [hruns1]; exact hr)
      (update_self ..) rfl (by omega)
  rw [update_idem] at hs2 hw2
  rw [hruns1] at hruns2
  have hcin : InHeap h2.runs (update lay r.virt (xs ++ c :: rest)) c := by
    refine ⟨r, by rw [hruns2]; exact hr, ?_⟩
    rw [update_self]
    simp
  have hfooter : h2.setFooter b.addr = h2 := by
    rw [← hc]
    exact hs2.laid.setFooter_eq hcin
  have hcap : h2.capacity = h.capacity := by unfold capacity; rw [hruns2]
  -- merged with the blocks before
  obtain ⟨h3, d, pre, fs, hbackward, hdfree, hxs, hfs, hpre, hruns3, hs3, hnone, hmem⟩ :=
    mergeBackward_spec h2.capacity hs2 (by rw [hruns2]; exact hr)
      (update_self ..) hcfree (by omega)
  rw [update_idem] at hs3
  refine ⟨h3, i, d, pre, fs, gs, rest, ?_, hruns3.trans hruns2, hi,
    ⟨hxs, hys, hfs, hgs, hpre, hrest, hdfree⟩, hs3, ?_, ?_⟩
  · unfold kfree
    rw [if_neg (by unfold headerSize; omega), Nat.add_sub_cancel]
    simp only [hfind, hi, hs.laid.mem_free ⟨r, hr, hbin⟩, hb]
    rw [hc] at hbackward
    have hforward' : mergeForward b.addr (h.capacity + 1) h1 = some h2 := hforward
    rw [← hh1, hforward']
    simp only [hfooter, hbackward]
    rfl
  · intro hfs' hw
    obtain ⟨rfl, rfl⟩ := hnone hfs'
    have hw' := hw2 (hw1 hw)
    rwa [hxs, hfs', append_nil] at hw'
  · have hfree := hs2.laid.mem_free hcin
    have hsize := hs2.laid.size_ge hcin
    unfold free at hfree ⊢
    rwa [← hc, hmem, hfree]
    unfold Blk.Inner Blk.stop
    omega

theorem kfree_spec (hs : Sound h lay) (hcalm : Calm h.runs lay) (hr : r ∈ h.runs)
    (hlay : lay r.virt = xs ++ b :: ys) (hb : b.free = false) :
    ∃ released h' lay', kfree h (b.addr + headerSize) = some (released, h') ∧ Sound h' lay' ∧
      Calm h'.runs lay' ∧ (∀ c, Used h'.runs lay' c ↔ c ≠ b ∧ Used h.runs lay c) ∧
      (Listed h lay → KeepsList h.runs lay r xs ys → Listed h' lay') := by
  have hbin : b ∈ lay r.virt := by rw [hlay]; simp
  obtain ⟨h3, i, d, pre, fs, gs, rest, hcalled, hruns3, hi, hc, hs3, hw3, -⟩ :=
    kfree_coalesces hs hr hlay hb
  obtain ⟨hs4, hw4, hend⟩ := releaseRun_spec hs3 (by rw [hruns3]; exact hi)
    (update_self ..) hc.joint_free
  have hsub (s : PageRun) (hs' : s ∈ (releaseRun h3 i r d.addr).2.runs) : s ∈ h.runs := by
    rw [← hruns3]
    rcases hend with ⟨-, -, hruns4⟩ | ⟨-, heq⟩
    · exact ((hruns4 s).mp hs').1
    · rwa [heq] at hs'
  have hused := hs.laid.used_update hr hbin fun c hfree => by
    rw [hlay]
    exact hc.mem_iff (hs.laid.not_mem_middle hr hlay) hfree
  refine ⟨(releaseRun h3 i r d.addr).1, (releaseRun h3 i r d.addr).2, _, hcalled, hs4, ?_, ?_, ?_⟩
  · intro s hsr
    by_cases hv : s.virt = r.virt
    · rw [hv, update_self]
      exact hc.calm (hlay ▸ hcalm r hr)
    · rw [update_of_ne hv]
      exact hcalm s (hsub s hsr)
  · intro c
    rw [← hused c]
    refine ⟨fun ⟨⟨s, hsr, hc⟩, hfree⟩ => ⟨⟨s, hsub s hsr, hc⟩, hfree⟩, ?_⟩
    rintro ⟨⟨s, hsr, hcs⟩, hfree⟩
    refine ⟨⟨s, ?_, hcs⟩, hfree⟩
    rcases hend with ⟨⟨hpre, hrest⟩, -, hruns4⟩ | ⟨-, heq⟩
    · refine (hruns4 s).mpr ⟨hruns3 ▸ hsr, ?_⟩
      rintro rfl
      rw [update_self, hpre, hrest, nil_append, mem_singleton] at hcs
      rw [hcs, hc.joint_free] at hfree
      cases hfree
    · rw [heq]
      exact hruns3 ▸ hsr
  · rintro hw (hlast | ⟨hall, hothers⟩)
    · -- no free block in front: the backward loop does nothing
      exact hw4 (hw3 (hc.front_nil hlast) hw)
    · -- everything merges into one block, the run goes back and no free block is left
      refine hs4.listed_of_none ?_
      rcases hend with ⟨-, -, hruns4⟩ | ⟨hnot, -⟩
      · rintro x ⟨c, ⟨s, hsr, hcs⟩, hfree, -⟩
        have hne := ((hruns4 s).mp hsr).2
        have hv : s.virt ≠ r.virt := fun hv => hne (hs.laid.run_unique (hsub s hsr) hr hv)
        rw [update_of_ne hv] at hcs
        rw [hothers s (hsub s hsr) hne c hcs] at hfree
        cases hfree
      · exact absurd (hc.whole hall) hnot

end Crius.Mm
