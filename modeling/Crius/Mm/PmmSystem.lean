import Crius.Lib.Run
import Crius.Mm.Pmm

/-!
# Runs of the physical page allocator

From `pmm_init` on, any sequence of allocations, references and frees. The state keeps, next
to the statics of `pmm.c`, how often each page has been acquired (by an allocation or by
`pmm_incref`) and released; the bitmap, the counts and `pages_free` are compared with that
history.
-/
namespace Crius.Mm

open Lib.Run Function List

/-- The number of clear bits of the bitmap. -/
def Pmm.clearBits (p : Pmm) : Nat :=
  ((Finset.range maxPages).filter fun i => p.bitmap i = false).card

/-- The allocator with the history of each page. -/
structure PmmState where
  pmm : Pmm
  acquired : Nat → Nat
  released : Nat → Nat

/-- One more event at page `i`. -/
def bump (f : Nat → Nat) (i : Nat) : Nat → Nat := Function.update f i (f i + 1)

inductive PmmOp where
  | allocPage
  | allocPages (count : Nat)
  | incref (phys : Addr)
  | freePage (phys : Addr)
  | freePages (phys : Addr) (count : Nat)

namespace PmmState

/-- The address names `count` pages of the window, each with a reference that has not been
given back. -/
def Holds (s : PmmState) (phys : Addr) (count : Nat) : Prop :=
  s.pmm.address (s.pmm.index phys) = phys ∧ s.pmm.index phys + count ≤ maxPages ∧
    ∀ i ∈ List.range' (s.pmm.index phys) count, s.released i < s.acquired i

instance (s : PmmState) (phys : Addr) (count : Nat) : Decidable (s.Holds phys count) :=
  inferInstanceAs (Decidable (_ ∧ _ ∧ _))

/-- The result of an allocation of `count` pages, recorded unless it is 0. -/
def handOut (s : PmmState) (count : Nat) (r : Addr × Pmm) : PmmState where
  pmm := r.2
  acquired :=
    if r.1 = 0 then s.acquired
    else (List.range' (s.pmm.index r.1) count).foldl bump s.acquired
  released := s.released

end PmmState

/-- One call. Increfs and frees name frames that are allocated, and no count passes 255. -/
def pmmStep (s : PmmState) : PmmOp → Option PmmState
  | .allocPage => some (s.handOut 1 (pmmAllocPage s.pmm))
  | .allocPages count => some (s.handOut count (pmmAllocPages s.pmm count))
  | .incref phys =>
    let i := s.pmm.index phys
    if s.Holds phys 1 ∧ s.acquired i - s.released i < 255 then
      some ⟨pmmIncref s.pmm phys, bump s.acquired i, s.released⟩
    else none
  | .freePage phys =>
    if s.Holds phys 1 then
      some ⟨pmmFreePage s.pmm phys, s.acquired, bump s.released (s.pmm.index phys)⟩
    else none
  | .freePages phys count =>
    if s.Holds phys count then
      some ⟨pmmFreePages s.pmm phys count, s.acquired,
        (List.range' (s.pmm.index phys) count).foldl bump s.released⟩
    else none

def pmmBoot (memmap : List MemmapEntry) : PmmState where
  pmm := pmmInit memmap
  acquired := fun _ => 0
  released := fun _ => 0

/-- The page at `x` lies wholly in a usable entry. -/
def Usable (memmap : List MemmapEntry) (x : Addr) : Prop :=
  ∃ e ∈ memmap, e.usable = true ∧ e.base ≤ x.toNat ∧ x.toNat + pageSize ≤ e.base + e.length

/-- Two entries do not overlap, if both are usable. -/
def MemmapEntry.Apart (a b : MemmapEntry) : Prop :=
  a.usable = true → b.usable = true → a.base + a.length ≤ b.base ∨ b.base + b.length ≤ a.base

/-! ## The bitmap -/

section Bits

variable {p p' : Pmm} {i : Nat}

theorem clearBits_set (hi : i < maxPages) (hbit : p.bitmap i = false)
    (hmap : p'.bitmap = update p.bitmap i true) : p'.clearBits + 1 = p.clearBits := by
  have hset : (Finset.range maxPages).filter (fun j => p'.bitmap j = false) =
      ((Finset.range maxPages).filter fun j => p.bitmap j = false).erase i := by
    ext j
    by_cases hj : j = i
    · simp [hj, hmap]
    · simp [hj, hmap]
  rw [Pmm.clearBits, hset]
  exact Finset.card_erase_add_one (by simp [hi, hbit])

theorem clearBits_clear (hi : i < maxPages) (hbit : p.bitmap i = true)
    (hmap : p'.bitmap = update p.bitmap i false) : p'.clearBits = p.clearBits + 1 := by
  refine (clearBits_set hi ?_ ?_).symm
  · rw [hmap, update_self]
  · rw [hmap, update_idem, ← hbit, update_eq_self]

/-- What the loop of `pmm_alloc_pages` finds from page `i` on, when the `run` pages before
`i` are free. -/
theorem scanRun_spec (bitmap : Nat → Bool) (count n : Nat) :
    ∀ i run start, run < count → run ≤ i → (0 < run → start = i - run) →
      (∀ j, i - run ≤ j → j < i → bitmap j = false) →
      (∀ a, scanRun bitmap count (range' i n) run start = some a →
        a + count ≤ i + n ∧ ∀ k < count, bitmap (a + k) = false) ∧
      (scanRun bitmap count (range' i n) run start = none →
        ∀ a, i - run ≤ a → a + count ≤ i + n → ∃ k < count, bitmap (a + k) = true) := by
  induction n with
  | zero =>
    intro i run start hrun hle _ _
    refine ⟨nofun, fun _ a ha hlast => ?_⟩
    omega
  | succ n ih =>
    intro i run start hrun hle hstart hfree
    rw [range'_succ, scanRun]
    by_cases hbit : bitmap i = false
    · have hstart' : (if run = 0 then i else start) = i - run := by
        split
        · omega
        · exact hstart (by omega)
      have hfree' (j : Nat) (hlow : i - run ≤ j) (hhigh : j < i + 1) : bitmap j = false := by
        by_cases hj : j = i
        · rw [hj, hbit]
        · exact hfree j hlow (by omega)
      rw [if_pos hbit]
      rw [hstart']
      split_ifs with hdone
      · refine ⟨fun a ha => ?_, nofun⟩
        cases ha
        exact ⟨by omega, fun k hk => hfree' _ (by omega) (by omega)⟩
      · have hrec := ih (i + 1) (run + 1) (i - run) (by omega) (by omega) (by omega)
          (fun j hlow hhigh => hfree' j (by omega) hhigh)
        rw [show i + 1 - (run + 1) = i - run by omega, show i + 1 + n = i + (n + 1) by omega]
          at hrec
        exact hrec
    · -- a run that would start in the free pages before `i` has to pass over `i`
      rw [if_neg hbit]
      have hrec := ih (i + 1) 0 start (by omega) (by omega) (by omega) (by omega)
      refine ⟨fun a ha => ?_, fun hnone a hlow hlast => ?_⟩
      · obtain ⟨hlast, hall⟩ := hrec.1 a ha
        exact ⟨by omega, hall⟩
      · by_cases hpast : i + 1 ≤ a
        · exact hrec.2 hnone a (by omega) (by omega)
        · refine ⟨i - a, by omega, ?_⟩
          rw [show a + (i - a) = i by omega]
          exact Bool.eq_true_of_not_eq_false hbit

end Bits

/-! ## The history of the pages -/

theorem foldl_bump (l : List Nat) (f : Nat → Nat) (j : Nat) :
    l.foldl bump f j = f j + l.count j := by
  induction l generalizing f with
  | nil => rfl
  | cons i l ih =>
    rw [foldl_cons, ih, bump, update_apply, count_cons]
    by_cases hji : j = i
    · subst hji
      rw [if_pos rfl, if_pos (beq_self_eq_true j)]
      omega
    · rw [if_neg hji, if_neg (by simpa using Ne.symm hji)]
      omega

/-- Bitmap, counts and `pages_free` agree with the history. The pages of the window that lie
in no usable entry stay marked and have no history. -/
structure Tracks (memmap : List MemmapEntry) (s : PmmState) : Prop where
  scan_le : s.pmm.lastScan ≤ maxPages
  counted : s.pmm.pagesFree = s.pmm.clearBits
  refs : ∀ i < maxPages, s.pmm.pageRefs i + s.released i = s.acquired i
  bit : ∀ i < maxPages,
    s.pmm.bitmap i = false ↔ Usable memmap (s.pmm.address i) ∧ s.pmm.pageRefs i = 0
  rest : ∀ i < maxPages, ¬Usable memmap (s.pmm.address i) → s.pmm.pageRefs i = 0

namespace Tracks

variable {memmap : List MemmapEntry} {p : Pmm} {acq rel : Nat → Nat} {i : Nat}

/-- A page whose count changes to `n`, with the bit that says whether `n` is positive. -/
theorem update {p' : Pmm} {acq' rel' : Nat → Nat} {n : Nat} (h : Tracks memmap ⟨p, acq, rel⟩)
    (husable : Usable memmap (p.address i)) (hbase : p'.pagesBase = p.pagesBase)
    (hscan : p'.lastScan ≤ maxPages) (hcounted : p'.pagesFree = p'.clearBits)
    (hmap : p'.bitmap = update p.bitmap i (decide (n ≠ 0)))
    (hrefs : p'.pageRefs = update p.pageRefs i n)
    (hself : n + rel' i = acq' i) (hacq : ∀ j ≠ i, acq' j = acq j) (hrel : ∀ j ≠ i, rel' j = rel j) :
    Tracks memmap ⟨p', acq', rel'⟩ := by
  have haddr (j : Nat) : p'.address j = p.address j := by rw [Pmm.address, Pmm.address, hbase]
  refine ⟨hscan, hcounted, fun j hj => ?_, fun j hj => ?_, fun j hj hno => ?_⟩
  · show p'.pageRefs j + rel' j = acq' j
    rw [hrefs]
    by_cases hji : j = i
    · rw [hji, update_self, hself]
    · rw [update_of_ne hji, hacq j hji, hrel j hji]
      exact h.refs j hj
  · show p'.bitmap j = false ↔ Usable memmap (p'.address j) ∧ p'.pageRefs j = 0
    rw [hmap, hrefs, haddr]
    by_cases hji : j = i
    · subst hji
      simp [husable]
    · rw [update_of_ne hji, update_of_ne hji]
      exact h.bit j hj
  · have hno : ¬Usable memmap (p.address j) := haddr j ▸ hno
    have hji : j ≠ i := by
      rintro rfl
      exact hno husable
    rw [hrefs, update_of_ne hji]
    exact h.rest j hj hno

theorem bump_of_ne (f : Nat → Nat) (j : Nat) (hji : j ≠ i) : bump f i j = f j :=
  update_of_ne hji _ _

variable (h : Tracks memmap ⟨p, acq, rel⟩)

include h

theorem take (hi : i < maxPages) (hbit : p.bitmap i = false) :
    Tracks memmap ⟨p.take i, bump acq i, rel⟩ := by
  obtain ⟨husable, hzero⟩ := (h.bit i hi).mp hbit
  have hclear : (p.take i).clearBits + 1 = p.clearBits := clearBits_set hi hbit rfl
  have hcount : p.pagesFree = p.clearBits := h.counted
  have href : p.pageRefs i + rel i = acq i := h.refs i hi
  refine h.update husable rfl hi ?_ rfl rfl ?_ (bump_of_ne acq) (fun _ _ => rfl)
  · show p.pagesFree - 1 = (p.take i).clearBits
    omega
  · have hzero : p.pageRefs i = 0 := hzero
    rw [bump, update_self]
    omega

theorem takes (l : List Nat) (hl : l.Nodup) (hfree : ∀ i ∈ l, i < maxPages ∧ p.bitmap i = false) :
    Tracks memmap ⟨l.foldl Pmm.take p, l.foldl bump acq, rel⟩ := by
  induction l generalizing p acq with
  | nil => exact h
  | cons i l ih =>
    obtain ⟨hi, hbit⟩ := hfree i mem_cons_self
    obtain ⟨hnotin, hl⟩ := nodup_cons.mp hl
    refine ih (h.take hi hbit) hl fun j hj => ?_
    obtain ⟨hjlt, hjbit⟩ := hfree j (mem_cons_of_mem i hj)
    have hji : j ≠ i := by
      rintro rfl
      exact hnotin hj
    refine ⟨hjlt, ?_⟩
    show Function.update p.bitmap i true j = false
    rw [Function.update_of_ne hji, hjbit]

section

variable (hi : i < maxPages) (hheld : rel i < acq i)

include hi hheld

/-- A page with a reference that has not been given back is usable and marked. -/
theorem held : Usable memmap (p.address i) ∧ p.bitmap i = true ∧ 0 < p.pageRefs i := by
  have href : p.pageRefs i + rel i = acq i := h.refs i hi
  have hpos : 0 < p.pageRefs i := by omega
  have husable : Usable memmap (p.address i) := by
    by_contra hno
    have : p.pageRefs i = 0 := h.rest i hi hno
    omega
  refine ⟨husable, Bool.eq_true_of_not_eq_false fun hbit => ?_, hpos⟩
  have : p.pageRefs i = 0 := ((h.bit i hi).mp hbit).2
  omega

theorem incref (hroom : acq i - rel i < 255) :
    Tracks memmap ⟨pmmIncref p (p.address i), bump acq i, rel⟩ := by
  have href : p.pageRefs i + rel i = acq i := h.refs i hi
  obtain ⟨husable, hbit, hpos⟩ := h.held hi hheld
  have hlt : p.pageRefs i < 255 := by omega
  unfold pmmIncref
  simp only [Pmm.index_address hi, if_neg (Nat.not_le_of_lt hi), if_pos hlt]
  refine h.update husable rfl h.scan_le h.counted ?_ rfl ?_ (bump_of_ne acq) (fun _ _ => rfl)
  · show p.bitmap = Function.update p.bitmap i (decide (p.pageRefs i + 1 ≠ 0))
    rw [decide_eq_true (Nat.succ_ne_zero _), ← hbit, Function.update_eq_self]
  · rw [bump, Function.update_self]
    omega

theorem free :
    Tracks memmap ⟨pmmFreePage p (p.address i), acq, bump rel i⟩ ∧
      (pmmFreePage p (p.address i)).pagesBase = p.pagesBase := by
  have href : p.pageRefs i + rel i = acq i := h.refs i hi
  have hscan : p.lastScan ≤ maxPages := h.scan_le
  have hcount : p.pagesFree = p.clearBits := h.counted
  obtain ⟨husable, hbit, hpos⟩ := h.held hi hheld
  have hself {n : Nat} (hn : n + 1 = p.pageRefs i) : n + bump rel i i = acq i := by
    rw [bump, Function.update_self]
    omega
  unfold pmmFreePage
  simp only [Pmm.index_address hi, if_neg (Nat.not_le_of_lt hi), hbit, Bool.true_eq_false, if_false]
  split_ifs with hmany
  · refine ⟨h.update husable rfl hscan hcount ?_ rfl (hself (by omega)) (fun _ _ => rfl)
      (bump_of_ne rel), rfl⟩
    show p.bitmap = Function.update p.bitmap i (decide (p.pageRefs i - 1 ≠ 0))
    rw [decide_eq_true (by omega), ← hbit, Function.update_eq_self]
  · refine ⟨h.update husable rfl ?_ ?_ rfl rfl (hself (by omega)) (fun _ _ => rfl)
      (bump_of_ne rel), rfl⟩
    · show (if i < p.lastScan then i else p.lastScan) ≤ maxPages
      split <;> omega
    · have hclear : (p.drop i).clearBits = p.clearBits + 1 := clearBits_clear hi hbit rfl
      show p.pagesFree + 1 = (p.drop i).clearBits
      omega

end

theorem frees {start : Nat} (count : Nat) (hlast : start + count ≤ maxPages)
    (hheld : ∀ i ∈ range' start count, rel i < acq i) :
    Tracks memmap ⟨pmmFreePages p (p.address start) count, acq,
      (range' start count).foldl bump rel⟩ ∧
      (pmmFreePages p (p.address start) count).pagesBase = p.pagesBase := by
  induction count with
  | zero => exact ⟨h, rfl⟩
  | succ count ih =>
    rw [range'_1_concat] at hheld ⊢
    obtain ⟨ih, hbase⟩ := ih (by omega) fun i hi => hheld i (mem_append_left _ hi)
    have hnext : (range' start count).foldl bump rel (start + count) < acq (start + count) := by
      have hnotin : start + count ∉ range' start count := by
        rw [mem_range'_1]
        omega
      rw [foldl_bump, count_eq_zero_of_not_mem hnotin]
      exact hheld _ (mem_append_right _ mem_cons_self)
    have haddr : p.address start + BitVec.ofNat 64 (count * pageSize) =
        (pmmFreePages p (p.address start) count).address (start + count) := by
      show _ = _ + BitVec.ofNat 64 ((start + count) * pageSize)
      rw [hbase, Nat.add_mul, BitVec.ofNat_add, ← BitVec.add_assoc]
      rfl
    have hfold : pmmFreePages p (p.address start) (count + 1) =
        pmmFreePage (pmmFreePages p (p.address start) count)
          (p.address start + BitVec.ofNat 64 (count * pageSize)) := by
      rw [pmmFreePages, range_succ, foldl_append]
      rfl
    rw [hfold, haddr, foldl_append]
    obtain ⟨hfree, hsame⟩ := ih.free (i := start + count) (by omega) hnext
    exact ⟨hfree, hsame.trans hbase⟩

end Tracks

/-! ## The memory map -/

section Init

variable {memmap : List MemmapEntry} {e : MemmapEntry} {a : Nat}

theorem MemmapEntry.mem_pages :
    a ∈ e.pages ↔ a % pageSize = 0 ∧ e.base ≤ a ∧ a + pageSize ≤ e.base + e.length := by
  rw [MemmapEntry.pages, mem_map]
  unfold MemmapEntry.start MemmapEntry.stop pageSize
  constructor
  · rintro ⟨k, hk, rfl⟩
    rw [mem_range] at hk
    omega
  · intro h
    refine ⟨(a - (e.base + 4096 - 1) / 4096 * 4096) / 4096, ?_, ?_⟩
    · rw [mem_range]
      omega
    · omega

theorem MemmapEntry.nodup_pages (e : MemmapEntry) : e.pages.Nodup := by
  refine List.Nodup.map (fun i j hij => ?_) nodup_range
  unfold pageSize at hij
  omega

/-- Entries that do not overlap have no page in common. -/
theorem nodup_flatMap_pages (hapart : memmap.Pairwise MemmapEntry.Apart) :
    ((memmap.filter (·.usable)).flatMap MemmapEntry.pages).Nodup := by
  refine nodup_flatMap.mpr ⟨fun e _ => e.nodup_pages, ?_⟩
  refine (List.Pairwise.filter _ hapart).imp_of_mem fun {d e} hd he hde => ?_
  intro a had hae
  have hd := (mem_filter.mp hd).2
  have he := (mem_filter.mp he).2
  obtain ⟨-, hlow, hhigh⟩ := MemmapEntry.mem_pages.mp had
  obtain ⟨-, hlow', hhigh'⟩ := MemmapEntry.mem_pages.mp hae
  have hpos : 0 < pageSize := by decide
  rcases hde hd he with h | h <;> omega

/-- The loops of `pmm_init` over the pages `l`, none of which is met twice. -/
theorem addPages_spec {base : Addr} (hbase : base.toNat % pageSize = 0) (l : List Nat)
    (hl : l.Nodup) (hpage : ∀ a ∈ l, a % pageSize = 0 ∧ base.toNat ≤ a ∧ a < 2 ^ 64) :
    (l.foldl Pmm.addPage (.blank base)).pagesBase = base ∧
      (l.foldl Pmm.addPage (.blank base)).lastScan = 0 ∧
      (l.foldl Pmm.addPage (.blank base)).pageRefs = (fun _ => 0) ∧
      (l.foldl Pmm.addPage (.blank base)).pagesFree =
        (l.foldl Pmm.addPage (.blank base)).clearBits ∧
      ∀ i < maxPages, (l.foldl Pmm.addPage (.blank base)).bitmap i = false ↔
        base.toNat + i * pageSize ∈ l := by
  induction l using reverseRecOn with
  | nil =>
    refine ⟨rfl, rfl, rfl, ?_, fun i _ => ?_⟩
    · show 0 = _
      rw [Pmm.clearBits, eq_comm, Finset.card_eq_zero, Finset.filter_eq_empty_iff]
      intro i _
      simp [Pmm.blank]
    · simp [Pmm.blank]
  | append_singleton l a ih =>
    obtain ⟨hl, -, hnew⟩ := nodup_append.mp hl
    obtain ⟨hb, hscan, hrefs, hcount, hbit⟩ :=
      ih hl fun b hb => hpage b (mem_append_left _ hb)
    obtain ⟨halign, hle, hlt⟩ := hpage a (mem_append_right _ mem_cons_self)
    rw [foldl_append, foldl_cons, foldl_nil]
    generalize l.foldl Pmm.addPage (.blank base) = p at *
    have hidx : p.index (BitVec.ofNat 64 a) = (a - base.toNat) / pageSize := by
      rw [Pmm.index, hb, BitVec.toNat_sub, BitVec.toNat_ofNat]
      have := base.isLt
      congr 1
      omega
    have haddr : base.toNat + (a - base.toNat) / pageSize * pageSize = a := by
      unfold pageSize at *
      omega
    rw [Pmm.addPage, hidx]
    split_ifs with hin
    · have hmarked : p.bitmap ((a - base.toNat) / pageSize) = true := by
        refine Bool.eq_true_of_not_eq_false fun hfree => ?_
        have hmem := (hbit _ hin).mp hfree
        rw [haddr] at hmem
        exact hnew a hmem a mem_cons_self rfl
      refine ⟨hb, hscan, hrefs, ?_, fun i hi => ?_⟩
      · rw [clearBits_clear hin hmarked rfl, ← hcount]
      · rw [mem_append, mem_singleton]
        dsimp only
        by_cases hii : i = (a - base.toNat) / pageSize
        · subst hii
          simp [haddr]
        · rw [update_of_ne hii, hbit i hi]
          have hne : ¬base.toNat + i * pageSize = a := by
            unfold pageSize at *
            omega
          simp [hne]
    · refine ⟨hb, hscan, hrefs, hcount, fun i hi => ?_⟩
      have hne : ¬base.toNat + i * pageSize = a := by
        unfold pageSize at *
        omega
      rw [hbit i hi, mem_append, mem_singleton]
      simp [hne]

/-- The page at index `i` is usable exactly if the loops of `pmm_init` visit it. -/
theorem usable_address_iff {lowest i : Nat} (p : Pmm)
    (hmin : ((memmap.filter (·.usable)).map MemmapEntry.start).min? = some lowest)
    (hbase : p.pagesBase = BitVec.ofNat 64 lowest) (hi : i < maxPages) :
    p.pagesBase.toNat % pageSize = 0 ∧ p.pagesBase.toNat = lowest ∧
    (Usable memmap (p.address i) ↔
      p.pagesBase.toNat + i * pageSize ∈ (memmap.filter (·.usable)).flatMap MemmapEntry.pages) := by
  obtain ⟨hmem, hleast⟩ := min?_eq_some_iff.mp hmin
  obtain ⟨first, hfirst, rfl⟩ := mem_map.mp hmem
  have hfits := first.fits
  have hlow : first.start < 2 ^ 64 ∧ first.start % pageSize = 0 := by
    unfold MemmapEntry.start pageSize at *
    omega
  have hnat : p.pagesBase.toNat = first.start := by
    rw [hbase, BitVec.toNat_ofNat, Nat.mod_eq_of_lt hlow.1]
  refine ⟨hnat ▸ hlow.2, hnat, ?_⟩
  have haddr : (p.address i).toNat = (first.start + i * pageSize) % 2 ^ 64 := by
    rw [Pmm.address, BitVec.toNat_add, hnat, BitVec.toNat_ofNat, Nat.add_mod_mod]
  have hsmall : i * pageSize < 2 ^ 64 := by
    unfold maxPages pageSize at *
    omega
  have hmod : (first.start + i * pageSize) % pageSize = 0 := by
    rw [Nat.add_mul_mod_self_right]
    exact hlow.2
  rw [hnat, mem_flatMap, Usable, haddr]
  constructor
  · rintro ⟨e, he, husable, hle, hlast⟩
    have heu : e ∈ memmap.filter (·.usable) := mem_filter.mpr ⟨he, husable⟩
    have hstart : first.start ≤ e.start := hleast _ (mem_map.mpr ⟨e, heu, rfl⟩)
    -- an address that wrapped would lie below the first usable page
    have hnowrap : first.start + i * pageSize < 2 ^ 64 := by
      by_contra hwrap
      unfold MemmapEntry.start pageSize at *
      omega
    rw [Nat.mod_eq_of_lt hnowrap] at hle hlast
    exact ⟨e, heu, MemmapEntry.mem_pages.mpr ⟨hmod, hle, hlast⟩⟩
  · rintro ⟨e, heu, hpage⟩
    obtain ⟨he, husable⟩ := mem_filter.mp heu
    obtain ⟨-, hle, hlast⟩ := MemmapEntry.mem_pages.mp hpage
    have hefits := e.fits
    have hpos : 0 < pageSize := by decide
    rw [Nat.mod_eq_of_lt (by omega)]
    exact ⟨e, he, husable, hle, hlast⟩

theorem tracks_pmmBoot (hapart : memmap.Pairwise MemmapEntry.Apart) :
    Tracks memmap (pmmBoot memmap) := by
  have hpages (a : Nat) (ha : a ∈ (memmap.filter (·.usable)).flatMap MemmapEntry.pages) :
      a % pageSize = 0 ∧ a < 2 ^ 64 ∧ ∃ e ∈ memmap.filter (·.usable), e.start ≤ a := by
    obtain ⟨e, he, hpage⟩ := mem_flatMap.mp ha
    obtain ⟨hmod, hle, hlast⟩ := MemmapEntry.mem_pages.mp hpage
    have hfits := e.fits
    have hpos : 0 < pageSize := by decide
    refine ⟨hmod, by omega, e, he, ?_⟩
    unfold MemmapEntry.start pageSize at *
    omega
  have hstart : (pmmBoot memmap).pmm = pmmInit memmap := rfl
  unfold pmmInit at hstart
  dsimp only at hstart
  split at hstart
  · next hmin =>
    -- no usable entry: no bit is ever cleared
    have hnone : memmap.filter (·.usable) = [] := by simpa using hmin
    have hno (x : Addr) : ¬Usable memmap x := by
      rintro ⟨e, he, husable, -⟩
      have hmem : e ∈ memmap.filter (·.usable) := mem_filter.mpr ⟨he, husable⟩
      rw [hnone] at hmem
      exact not_mem_nil hmem
    obtain ⟨-, -, -, hcount, -⟩ :=
      addPages_spec (show (0 : Addr).toNat % pageSize = 0 from rfl) [] nodup_nil
        fun _ ha => absurd ha not_mem_nil
    refine ⟨?_, ?_, fun i _ => ?_, fun i _ => ?_, fun i _ _ => ?_⟩
    · rw [hstart]
      exact Nat.zero_le _
    · rw [hstart]
      exact hcount
    · rw [hstart]
      rfl
    · rw [hstart]
      simp [hno, Pmm.blank]
    · rw [hstart]
      rfl
  · next lowest hmin =>
    obtain ⟨-, hleast⟩ := min?_eq_some_iff.mp hmin
    have husable := fun i (hi : i < maxPages) =>
      usable_address_iff (.blank (BitVec.ofNat 64 lowest)) hmin rfl hi
    obtain ⟨halign, hnat, -⟩ := husable 0 (by decide)
    obtain ⟨hbase, hscan, hrefs, hcount, hbit⟩ :=
      addPages_spec halign _ (nodup_flatMap_pages hapart) fun a ha => by
        obtain ⟨hmod, hlt, e, he, hle⟩ := hpages a ha
        have := hleast _ (mem_map.mpr ⟨e, he, rfl⟩)
        exact ⟨hmod, by omega, hlt⟩
    rw [show (Pmm.blank (BitVec.ofNat 64 lowest)).pagesBase = BitVec.ofNat 64 lowest from rfl]
      at hbase hscan hrefs hcount hbit
    rw [← hstart] at hbase hscan hrefs hcount hbit
    have haddr (i : Nat) : (pmmBoot memmap).pmm.address i =
        (Pmm.blank (BitVec.ofNat 64 lowest)).address i := by
      rw [Pmm.address, hbase]
      rfl
    refine ⟨?_, hcount, fun i _ => ?_, fun i hi => ?_, fun i _ _ => ?_⟩
    · rw [hscan]
      exact Nat.zero_le _
    · rw [hrefs]
      rfl
    · rw [hbit i hi, haddr, (husable i hi).2.2, hrefs]
      simp only [and_true]
      rfl
    · rw [hrefs]

end Init

/-! ## Allocation -/

section Calls

variable {memmap : List MemmapEntry} {s s' : PmmState} {op : PmmOp} {count : Nat}

/-- `pmm_alloc_pages` takes the first run of clear bits, or there is none. -/
theorem pmmAllocPages_cases {p : Pmm} (hscan : p.lastScan ≤ maxPages) (hpos : 0 < count) :
    (pmmAllocPages p count = (0, p) ∧
      ∀ start, start + count ≤ maxPages → ∃ k < count, p.bitmap (start + k) = true) ∨
    ∃ start, start + count ≤ maxPages ∧ (∀ k < count, p.bitmap (start + k) = false) ∧
      pmmAllocPages p count = (p.address start,
        { (range' start count).foldl Pmm.take p with lastScan := start + count }) := by
  unfold pmmAllocPages
  rw [if_neg (by omega)]
  by_cases hone : count = 1
  · subst hone
    rw [if_pos rfl, pmmAllocPage]
    cases h : p.scan with
    | none =>
      refine .inl ⟨rfl, fun start hlast => ⟨0, by decide, ?_⟩⟩
      exact Pmm.scan_eq_none h (by omega)
    | some i =>
      obtain ⟨hi, hbit⟩ := Pmm.scan_eq_some hscan h
      refine .inr ⟨i, hi, fun k hk => ?_, rfl⟩
      obtain rfl : k = 0 := by omega
      exact hbit
  · rw [if_neg hone]
    have hspec := scanRun_spec p.bitmap count maxPages 0 0 0 hpos (by omega) (by omega) (by omega)
    rw [← range_eq_range'] at hspec
    cases h : scanRun p.bitmap count (range maxPages) 0 0 with
    | none =>
      exact .inl ⟨rfl, fun start hlast => hspec.2 h start (by omega) (by omega)⟩
    | some start =>
      obtain ⟨hlast, hfree⟩ := hspec.1 start h
      exact .inr ⟨start, by omega, hfree, rfl⟩

theorem Tracks.allocPages (h : Tracks memmap s) (hlow : ¬Usable memmap 0) :
    Tracks memmap (s.handOut count (pmmAllocPages s.pmm count)) := by
  rcases Nat.eq_zero_or_pos count with rfl | hpos
  · exact h
  rcases pmmAllocPages_cases h.scan_le hpos with ⟨hres, -⟩ | ⟨start, hlast, hfree, hres⟩
  · rw [hres]
    exact h
  · have hfirst := (h.bit start (by omega)).mp (hfree 0 hpos)
    have hne : s.pmm.address start ≠ 0 := by
      intro hzero
      exact hlow (hzero ▸ hfirst.1)
    have htake := Tracks.takes (p := s.pmm) h (range' start count) nodup_range'
      fun i hi => by
        rw [mem_range'_1] at hi
        have hbit := hfree (i - start) (by omega)
        rw [show start + (i - start) = i by omega] at hbit
        exact ⟨by omega, hbit⟩
    rw [hres, PmmState.handOut, if_neg hne, Pmm.index_address (by omega)]
    exact ⟨hlast, htake.counted, htake.refs, htake.bit, htake.rest⟩

theorem pmmStep_tracks (hlow : ¬Usable memmap 0) (h : Tracks memmap s)
    (hs : pmmStep s op = some s') : Tracks memmap s' := by
  cases op with
  | allocPage =>
    cases hs
    exact h.allocPages hlow
  | allocPages count =>
    cases hs
    exact h.allocPages hlow
  | incref phys =>
    rw [pmmStep] at hs
    split at hs
    · next hguard =>
      cases hs
      obtain ⟨⟨haddr, hlast, hheld⟩, hroom⟩ := hguard
      have := Tracks.incref (p := s.pmm) h hlast (hheld _ mem_cons_self) hroom
      rw [haddr] at this
      exact this
    · cases hs
  | freePage phys =>
    rw [pmmStep] at hs
    split at hs
    · next hguard =>
      cases hs
      obtain ⟨haddr, hlast, hheld⟩ := hguard
      have := (Tracks.free (p := s.pmm) h hlast (hheld _ mem_cons_self)).1
      rw [haddr] at this
      exact this
    · cases hs
  | freePages phys count =>
    rw [pmmStep] at hs
    split at hs
    · next hguard =>
      cases hs
      obtain ⟨haddr, hlast, hheld⟩ := hguard
      have := (Tracks.frees (p := s.pmm) h count hlast hheld).1
      rw [haddr] at this
      exact this
    · cases hs

/-- What an allocation of `count` pages in state `s` may return: 0 if no `count` consecutive
pages are free, and otherwise such pages, usable and with every reference given back. -/
def Supplies (memmap : List MemmapEntry) (s : PmmState) (count : Nat) (x : Addr) : Prop :=
  (x = 0 → ∀ start, start + count ≤ maxPages → ∃ k < count, s.pmm.bitmap (start + k) = true) ∧
  (x ≠ 0 → ∃ start, start + count ≤ maxPages ∧ x = s.pmm.address start ∧
    ∀ k < count, s.pmm.bitmap (start + k) = false ∧ Usable memmap (s.pmm.address (start + k)) ∧
      s.released (start + k) = s.acquired (start + k))

theorem Tracks.free_iff {i : Nat} (h : Tracks memmap s) (hi : i < maxPages) :
    s.pmm.bitmap i = false ↔
      Usable memmap (s.pmm.address i) ∧ s.released i = s.acquired i := by
  have href := h.refs i hi
  rw [h.bit i hi]
  constructor
  · rintro ⟨husable, hzero⟩
    exact ⟨husable, by omega⟩
  · rintro ⟨husable, heq⟩
    exact ⟨husable, by omega⟩

theorem Tracks.supplies (h : Tracks memmap s) (hlow : ¬Usable memmap 0) (hpos : 0 < count) :
    Supplies memmap s count (pmmAllocPages s.pmm count).1 := by
  rcases pmmAllocPages_cases h.scan_le hpos with ⟨hres, hnone⟩ | ⟨start, hlast, hfree, hres⟩
  · rw [hres]
    exact ⟨fun _ => hnone, fun hne => absurd rfl hne⟩
  · have hpage (k : Nat) (hk : k < count) := (h.free_iff (i := start + k) (by omega)).mp (hfree k hk)
    rw [hres]
    refine ⟨fun hzero => ?_, fun _ => ⟨start, hlast, rfl, fun k hk => ?_⟩⟩
    · have hzero : s.pmm.address (start + 0) = 0 := hzero
      exact absurd (hzero ▸ (hpage 0 hpos).1) hlow
    · exact ⟨hfree k hk, hpage k hk⟩

end Calls

/-- In every run from `pmm_init`: `pages_free` counts the clear bits; a page is free exactly
when it is usable and its frees match its allocations and increfs; and the allocators supply
free pages while there are any. -/
theorem pmm_accounts_pages {memmap : List MemmapEntry} {ops : List PmmOp} {s : PmmState}
    (hapart : memmap.Pairwise MemmapEntry.Apart) (hlow : ¬Usable memmap 0)
    (hr : run pmmStep (pmmBoot memmap) ops = some s) :
    s.pmm.pagesFree = s.pmm.clearBits ∧
      (∀ i < maxPages, s.pmm.bitmap i = false ↔
        Usable memmap (s.pmm.address i) ∧ s.released i = s.acquired i) ∧
      Supplies memmap s 1 (pmmAllocPage s.pmm).1 ∧
      ∀ count, 0 < count → Supplies memmap s count (pmmAllocPages s.pmm count).1 := by
  have h : Tracks memmap s :=
    run_invariant pmmStep (fun _ _ _ => pmmStep_tracks hlow) (tracks_pmmBoot hapart) hr
  have hone : Supplies memmap s 1 (pmmAllocPages s.pmm 1).1 := h.supplies hlow (by decide)
  exact ⟨h.counted, fun i hi => h.free_iff hi, hone, fun count hpos => h.supplies hlow hpos⟩

/-- One usable entry that is not aligned, and a reserved one that overlaps it. -/
def smallMap : List MemmapEntry :=
  [⟨5000, 20000, true, by decide⟩, ⟨6000, 9000, false, by decide⟩]

/-- A page is allocated, shared, and given back by both holders. -/
def sharedPage : List PmmOp :=
  [.allocPage, .incref 8192, .allocPage, .freePage 8192, .freePages 8192 1]

theorem pmm_accounts_pages_small :
    ∃ s, run pmmStep (pmmBoot smallMap) sharedPage = some s ∧ s.pmm.pagesFree = 3 ∧
      s.pmm.pagesFree = s.pmm.clearBits ∧ Supplies smallMap s 1 (pmmAllocPage s.pmm).1 := by
  have hapart : smallMap.Pairwise MemmapEntry.Apart := by
    simp [smallMap, MemmapEntry.Apart]
  have hlow : ¬Usable smallMap 0 := by
    simp [smallMap, Usable]
  refine ⟨_, rfl, rfl, ?_⟩
  obtain ⟨hcount, -, hone, -⟩ := pmm_accounts_pages hapart hlow
    (show run pmmStep (pmmBoot smallMap) sharedPage = some _ from rfl)
  exact ⟨hcount, hone⟩

end Crius.Mm
