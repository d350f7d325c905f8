import Crius.Process.ElfConfined
import Crius.Process.PageBytes
import Crius.Mm.PageMap

/-!
# The image of a file

The pages that a file asks for, without tables, frames and allocations. The loader visits the
pages of its segments in the order of the program headers; the first visit of a page makes it,
and each later one copies its own data over it and may make it writable. What a page holds in
the end is read off the list of its visits.
-/
namespace Crius.Elf

open Mm List Function Phdr

/-- What a program sees of a mapped page. -/
structure Cell where
  page : Page
  writable : Bool
  noExec : Bool

/-- The pages of an address space by their paths. -/
abbrev Image := List (Fin 512) → Option Cell

/-- The header belongs to a segment that is loaded. -/
def Buffer.Segment (elf : Buffer) (i : ℕ) : Prop :=
  i < elf.ePhnum.toNat ∧ (elf.phdr i).isLoad = true

namespace Phdr

variable (elf : Buffer) (seg : Phdr)

/-- The address is one of the segment. -/
def Has (a : ℕ) : Prop := seg.pVaddr.toNat ≤ a ∧ a < seg.pVaddr.toNat + seg.pMemsz.toNat

/-- The segment has an address on the page. -/
def Meets (page : Addr) : Prop := ∃ a, seg.Has a ∧ page.toNat ≤ a ∧ a < page.toNat + 4096

/-- The byte of the file for an address. -/
def dataAt (a : ℕ) : Option Byte :=
  if seg.pVaddr.toNat ≤ a ∧ a < seg.pVaddr.toNat + seg.pFilesz.toNat then
    some (elf.byte (seg.pOffset + BitVec.ofNat 64 (a - seg.pVaddr.toNat)))
  else none

def fillFrom (segPageOff fileOff : Addr) (page : Page) : Page :=
  if fileOff < seg.pFilesz then
    copyIn page segPageOff.toNat (min (seg.pFilesz - fileOff).toNat (0x1000 - segPageOff).toNat)
      fun k => elf.byte (seg.pOffset + fileOff + BitVec.ofNat 64 k)
  else page

/-- The page at `virt` after the file data of the segment has been copied to it. -/
def fill (virt : Addr) (page : Page) : Page :=
  if 0 < seg.pFilesz then
    if seg.pVaddr ≤ virt then seg.fillFrom elf 0 (virt - seg.pVaddr) page
    else seg.fillFrom elf seg.pageOff 0 page
  else page

end Phdr

section Visits

variable (elf : Buffer)

/-- Header `v.1` at its page `v.2`. -/
def visitPage (v : ℕ × ℕ) : Addr := (elf.phdr v.1).page v.2

def segVisits (i : ℕ) : List (ℕ × ℕ) :=
  if (elf.phdr i).isLoad then (List.range (elf.phdr i).pageCount).map (Prod.mk i) else []

/-- All rounds of the loader's loops. -/
def visits : List (ℕ × ℕ) := (List.range elf.ePhnum.toNat).flatMap (segVisits elf)

/-- The page after a visit. -/
def visit (v : ℕ × ℕ) : Option Cell → Cell
  | none => ⟨(elf.phdr v.1).fill elf (visitPage elf v) fun _ => 0, (elf.phdr v.1).writes,
      !(elf.phdr v.1).runs⟩
  | some c => ⟨(elf.phdr v.1).fill elf (visitPage elf v) c.page,
      c.writable || (elf.phdr v.1).writes, c.noExec⟩

def loadCell (img : Image) (v : ℕ × ℕ) : Image :=
  Function.update img (pagePath (visitPage elf v))
    (some (visit elf v (img (pagePath (visitPage elf v)))))

/-- The image of the file. -/
def elfImage : Image := (visits elf).foldl (loadCell elf) fun _ => none

/-- The visits of one page. -/
def visitsAt (page : Addr) : List (ℕ × ℕ) :=
  (visits elf).filter fun v => pagePath (visitPage elf v) = pagePath page

/-- What becomes of a page. -/
def cellOf (l : List (ℕ × ℕ)) : Option Cell := l.foldl (fun c v => some (visit elf v c)) none

end Visits

variable {elf : Buffer} {seg : Phdr} {v : ℕ × ℕ} {l : List (ℕ × ℕ)} {page : Addr} {c : Cell}
  {i k p : ℕ}

theorem mem_visits : v ∈ visits elf ↔ elf.Segment v.1 ∧ v.2 < (elf.phdr v.1).pageCount := by
  obtain ⟨i, p⟩ := v
  simp only [visits, segVisits, mem_flatMap, mem_range, Buffer.Segment]
  constructor
  · rintro ⟨j, hj, hmem⟩
    split_ifs at hmem with hload
    · rw [mem_map] at hmem
      obtain ⟨q, hq, heq⟩ := hmem
      cases heq
      exact ⟨⟨hj, hload⟩, mem_range.mp hq⟩
    · cases hmem
  · rintro ⟨⟨hi, hload⟩, hp⟩
    refine ⟨i, hi, ?_⟩
    rw [if_pos hload]
    exact mem_map_of_mem (mem_range.mpr hp)

theorem mem_visitsAt : v ∈ visitsAt elf page ↔ (elf.Segment v.1 ∧ v.2 < (elf.phdr v.1).pageCount) ∧
    pagePath (visitPage elf v) = pagePath page := by
  rw [visitsAt, mem_filter, mem_visits, decide_eq_true_eq]

/-! ## A page and its visits -/

/-- Updates at keys, seen at one key. -/
theorem foldl_update {α β γ : Type} [DecidableEq β] (key : α → β) (g : α → γ → γ) (l : List α)
    (f : β → γ) (b : β) :
    l.foldl (fun f v => update f (key v) (g v (f (key v)))) f b =
      (l.filter fun v => key v = b).foldl (fun c v => g v c) (f b) := by
  induction l generalizing f with
  | nil => rfl
  | cons v l ih =>
    rw [foldl_cons, ih]
    by_cases hv : key v = b
    · rw [filter_cons_of_pos (by simpa using hv), foldl_cons, ← hv, update_self]
    · rw [filter_cons_of_neg (by simpa using hv), update_of_ne (Ne.symm hv)]

theorem elfImage_pagePath : elfImage elf (pagePath page) = cellOf elf (visitsAt elf page) :=
  foldl_update (fun v => pagePath (visitPage elf v)) (fun v c => some (visit elf v c)) _ _ _

theorem cellOf_nil : cellOf elf [] = none := rfl

theorem cellOf_concat (l : List (ℕ × ℕ)) (v : ℕ × ℕ) :
    cellOf elf (l ++ [v]) = some (visit elf v (cellOf elf l)) := by
  rw [cellOf, foldl_append]
  rfl

theorem cellOf_eq_none : cellOf elf l = none ↔ l = [] := by
  induction l using reverseRecOn with
  | nil => exact iff_of_true cellOf_nil rfl
  | append_singleton l v _ =>
    rw [cellOf_concat]
    exact iff_of_false (Option.some_ne_none _) (append_ne_nil_of_right_ne_nil _ (by simp))

/-- A page is writable when one of its segments is. -/
theorem cellOf_writable (h : cellOf elf l = some c) :
    c.writable = l.any fun v => (elf.phdr v.1).writes := by
  induction l using reverseRecOn generalizing c with
  | nil => cases h
  | append_singleton l v ih =>
    rw [cellOf_concat] at h
    obtain rfl := Option.some.inj h
    rw [any_append]
    cases hl : cellOf elf l with
    | none =>
      rw [cellOf_eq_none.mp hl]
      simp [visit]
    | some c =>
      rw [← ih hl]
      simp [visit]

/-- Whether a page is executable is decided by its first segment. -/
theorem cellOf_noExec (h : cellOf elf (v :: l) = some c) : c.noExec = !(elf.phdr v.1).runs := by
  induction l using reverseRecOn generalizing c with
  | nil =>
    rw [← nil_append [v], cellOf_concat, cellOf_nil] at h
    obtain rfl := Option.some.inj h
    rw [visit]
  | append_singleton l u ih =>
    rw [← cons_append, cellOf_concat] at h
    cases h
    cases hl : cellOf elf (v :: l) with
    | none => exact absurd (cellOf_eq_none.mp hl) (cons_ne_nil v l)
    | some c =>
      have hfirst := ih hl
      rw [visit]
      exact hfirst

/-! ## Bytes -/

section Fill

variable (elf) (seg)

/-- Data that begins at offset `a` of a page, or before the page at its start. -/
theorem pageByte_fillFrom (a b : Addr) (page : Page) {base : ℕ} (hk : k < 4096)
    (ha : a.toNat ≤ 4096) (hzero : a.toNat = 0 ∨ b.toNat = 0)
    (hbase : base + a.toNat = seg.pVaddr.toNat + b.toNat) :
    pageByte (seg.fillFrom elf a b page) k =
      (seg.dataAt elf (base + k)).getD (pageByte page k) := by
  rw [fillFrom, dataAt]
  have hlimit : (0x1000 - a).toNat = 4096 - a.toNat := by
    rw [BitVec.toNat_sub_of_le (by rw [BitVec.le_def]; exact ha)]
    rfl
  by_cases hmore : b < seg.pFilesz
  · have hsub : (seg.pFilesz - b).toNat = seg.pFilesz.toNat - b.toNat :=
      BitVec.toNat_sub_of_le (BitVec.le_of_lt hmore)
    rw [BitVec.lt_def] at hmore
    rw [if_pos (BitVec.lt_def.mpr hmore), pageByte_copyIn _ _ _ _ hk, hlimit, hsub]
    by_cases hin : seg.pVaddr.toNat ≤ base + k ∧ base + k < seg.pVaddr.toNat + seg.pFilesz.toNat
    · rw [if_pos hin, if_pos (by omega), Option.getD_some, BitVec.add_assoc]
      refine congrArg (fun x => elf.byte (seg.pOffset + x)) (BitVec.eq_of_toNat_eq ?_)
      rw [BitVec.toNat_add, BitVec.toNat_ofNat, BitVec.toNat_ofNat]
      omega
    · rw [if_neg hin, if_neg (by omega), Option.getD_none]
  · rw [if_neg hmore]
    rw [BitVec.lt_def] at hmore
    rw [if_neg (by omega), Option.getD_none]

/-- The visit of a page stores the file's byte for each address that has one. -/
theorem pageByte_fill (page : Page) (hp : seg.firstPage.toNat + p * 4096 < 2 ^ 64) (hk : k < 4096) :
    pageByte (seg.fill elf (seg.page p) page) k =
      (seg.dataAt elf ((seg.page p).toNat + k)).getD (pageByte page k) := by
  have hpage := page_toNat hp
  have hfirst := firstPage_toNat seg
  have hoff := pageOff_toNat seg
  rw [fill]
  by_cases hfile : 0 < seg.pFilesz
  · rw [if_pos hfile]
    split_ifs with hle
    · refine pageByte_fillFrom elf seg 0 (seg.page p - seg.pVaddr) page hk (Nat.zero_le _)
        (.inl rfl) ?_
      rw [BitVec.toNat_sub_of_le hle]
      rw [BitVec.le_def] at hle
      show _ + 0 = _
      omega
    · rw [BitVec.le_def] at hle
      refine pageByte_fillFrom elf seg seg.pageOff 0 page hk (by omega) (.inr rfl) ?_
      show _ = _ + 0
      omega
  · rw [if_neg hfile, dataAt]
    rw [BitVec.lt_def] at hfile
    have hnone : seg.pFilesz.toNat = 0 := Nat.eq_zero_of_not_pos hfile
    rw [if_neg (by omega), Option.getD_none]

end Fill

/-- The last segment with data for an address has the say. -/
theorem cellOf_byte (hk : k < 4096) (hl : ∀ v ∈ l, visitPage elf v = page ∧
      (elf.phdr v.1).firstPage.toNat + v.2 * 4096 < 2 ^ 64) (h : cellOf elf l = some c) :
    pageByte c.page k =
      (l.filterMap fun v => (elf.phdr v.1).dataAt elf (page.toNat + k)).getLast?.getD 0 := by
  induction l using reverseRecOn generalizing c with
  | nil => cases h
  | append_singleton l v ih =>
    obtain ⟨hpage, hlt⟩ := hl v (mem_append_right l mem_cons_self)
    have hrest := fun u hu => hl u (mem_append_left [v] hu)
    rw [cellOf_concat] at h
    cases h
    have hvisit (old : Option Cell) : pageByte (visit elf v old).page k =
        ((elf.phdr v.1).dataAt elf (page.toNat + k)).getD
          (pageByte ((old.map Cell.page).getD fun _ => 0) k) := by
      rw [← hpage]
      have hfill (old : Page) := pageByte_fill elf (elf.phdr v.1) old hlt hk
      cases old with
      | none =>
        rw [visit, visitPage, hfill, Option.map_none, Option.getD_none]
      | some c =>
        rw [visit, visitPage, hfill, Option.map_some, Option.getD_some]
    have hold : pageByte (((cellOf elf l).map Cell.page).getD fun _ => 0) k =
        (l.filterMap fun v => (elf.phdr v.1).dataAt elf (page.toNat + k)).getLast?.getD 0 := by
      cases hcell : cellOf elf l with
      | none =>
        rw [cellOf_eq_none.mp hcell]
        exact pageByte_zero k
      | some c => exact ih hrest hcell
    rw [hvisit, hold, filterMap_append]
    cases hdata : (elf.phdr v.1).dataAt elf (page.toNat + k) with
    | none => simp [hdata]
    | some b => simp [hdata]

/-! ## Well-formed files -/

/-- The segments of a file that fit: into themselves, into the file and into the user half,
with no address in two of them. -/
structure Buffer.WellFormed (elf : Buffer) : Prop where
  sizes : ∀ i, elf.Segment i → (elf.phdr i).pFilesz.toNat ≤ (elf.phdr i).pMemsz.toNat
  inFile : ∀ i, elf.Segment i →
    (elf.phdr i).pOffset.toNat + (elf.phdr i).pFilesz.toNat ≤ elf.size.toNat
  inUser : ∀ i, elf.Segment i →
    (elf.phdr i).pVaddr.toNat + (elf.phdr i).pMemsz.toNat ≤ userAddrMax.toNat
  apart : ∀ i j, elf.Segment i → elf.Segment j → i ≠ j →
    ∀ a, ¬((elf.phdr i).Has a ∧ (elf.phdr j).Has a)

section WellFormed

variable (huser : seg.pVaddr.toNat + seg.pMemsz.toNat ≤ 2 ^ 47)

include huser

theorem pageCount_of_user :
    seg.pageCount = (seg.pMemsz.toNat + seg.pVaddr.toNat % 4096 + 4095) / 4096 := by
  rw [pageCount_eq]
  omega

/-- A page of the segment is a user page. -/
theorem page_of_user (hp : p < seg.pageCount) :
    seg.firstPage.toNat + p * 4096 < 2 ^ 47 ∧ (seg.page p).toNat = seg.firstPage.toNat + p * 4096 ∧
      IsPage (seg.page p) := by
  have hfirst := firstPage_toNat seg
  rw [pageCount_of_user huser] at hp
  have hlt : seg.firstPage.toNat + p * 4096 < 2 ^ 47 := by omega
  have hpage : (seg.page p).toNat = seg.firstPage.toNat + p * 4096 := page_toNat (by omega)
  refine ⟨hlt, hpage, ?_, ?_⟩
  · rw [hpage]
    omega
  · omega

/-- The pages of a segment that is not empty are the pages that it has addresses on. -/
theorem meets_page (hp : p < seg.pageCount) (hsize : 0 < seg.pMemsz.toNat) : seg.Meets (seg.page p) := by
  have hfirst := firstPage_toNat seg
  obtain ⟨hlt, hpage, -⟩ := page_of_user huser hp
  rw [pageCount_of_user huser] at hp
  rw [Phdr.Meets, hpage]
  by_cases hzero : p = 0
  · refine ⟨seg.pVaddr.toNat, ⟨Nat.le_refl _, by omega⟩, by omega, by omega⟩
  · refine ⟨seg.firstPage.toNat + p * 4096, ⟨by omega, by omega⟩, Nat.le_refl _, by omega⟩

/-- An address of the segment lies on one of its pages. -/
theorem exists_page {a : ℕ} (ha : seg.Has a) :
    ∃ p < seg.pageCount, (seg.page p).toNat = a - a % 4096 := by
  obtain ⟨hle, hlt⟩ := ha
  have hfirst := firstPage_toNat seg
  have hp : (a - seg.firstPage.toNat) / 4096 < seg.pageCount := by
    rw [pageCount_of_user huser]
    omega
  refine ⟨_, hp, ?_⟩
  rw [(page_of_user huser hp).2.1]
  omega

/-- An empty segment has a page when it is not aligned. -/
theorem pageCount_empty (hsize : seg.pMemsz.toNat = 0) :
    0 < seg.pageCount ↔ seg.pVaddr.toNat % 4096 ≠ 0 := by
  rw [pageCount_of_user huser]
  omega

end WellFormed

end Crius.Elf
