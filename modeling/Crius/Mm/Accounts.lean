import Crius.Mm.Pmm

/-!
# Accounts of page references

The reference counts of the page allocator against the uses of each page. A page that is a
table, or that the kernel holds while it builds an address space, has one use. A page that
is mapped has one use for each entry that maps it. Pages that other parts of the kernel
hold are not accounted for one by one. `lost` is the part of a count that went missing when
`pmm_incref` met a full counter.
-/
namespace Crius.Mm

open List Pmm

structure Accounts (p : Pmm) (sole shared lost : Addr → ℕ) (held : Addr → Prop) : Prop where
  ok : p.Ok
  owned : ∀ x, 0 < sole x + shared x →
    p.Managed x ∧ p.used x = true ∧ 0 < p.count x ∧ p.count x + lost x = sole x + shared x
  single : ∀ x, 0 < sole x → sole x + shared x = 1
  settled : ∀ x, sole x + shared x = 0 → lost x = 0
  covered : ∀ x, p.Managed x → p.used x = true → 0 < sole x + shared x ∨ held x
  apart : ∀ x, held x → p.Managed x ∧ p.used x = true ∧ sole x + shared x = 0

namespace Pmm

/-- Frees of a list of pages, each at most as often as it is counted. -/
theorem freeAll_spec {p : Pmm} {l : List Addr} (ok : p.Ok)
    (h : ∀ x ∈ l, p.Managed x ∧ p.used x = true ∧ l.count x ≤ p.count x) :
    (l.foldl pmmFreePage p).Ok ∧ (l.foldl pmmFreePage p).pagesBase = p.pagesBase ∧
      (∀ y, p.Managed y → ((l.foldl pmmFreePage p).used y = true ↔
        p.used y = true ∧ (y ∈ l → l.count y < p.count y))) ∧
      ∀ y, p.Managed y → (l.foldl pmmFreePage p).count y = p.count y - l.count y := by
  induction l generalizing p with
  | nil => simp [ok]
  | cons x l ih =>
    obtain ⟨hx, hxused, hxcount⟩ := h x mem_cons_self
    rw [count_cons_self] at hxcount
    obtain ⟨ok1, hbase1, hused1, hcount1⟩ := pmmFreePage_spec ok hx hxused
    have hm (y : Addr) : (pmmFreePage p x).Managed y ↔ p.Managed y := by
      simp only [Managed, address, hbase1]
    obtain ⟨ok', hbase', hused', hcount'⟩ := ih ok1 fun y hy => by
      obtain ⟨hym, hyused, hycount⟩ := h y (mem_cons_of_mem _ hy)
      rw [hm, hused1 y hym, hcount1 y hym]
      have hpos := count_pos_iff.mpr hy
      by_cases hyx : y = x
      · subst hyx
        rw [if_pos rfl, if_pos rfl]
        exact ⟨hym, by simp; omega, by omega⟩
      · rw [count_cons_of_ne (Ne.symm hyx)] at hycount
        rw [if_neg hyx, if_neg hyx]
        exact ⟨hym, hyused, hycount⟩
    refine ⟨ok', hbase'.trans hbase1, fun y hy => ?_, fun y hy => ?_⟩
    · have hmem := count_pos_iff (a := y) (l := l)
      rw [foldl_cons, hused' y ((hm y).mpr hy), hused1 y hy, hcount1 y hy]
      by_cases hyx : y = x
      · subst hyx
        rw [if_pos rfl, if_pos rfl, count_cons_self]
        simp only [hxused, decide_eq_true_eq, mem_cons, true_or, forall_const, true_and]
        grind
      · rw [if_neg hyx, if_neg hyx, count_cons_of_ne (Ne.symm hyx), mem_cons]
        simp [hyx]
    · rw [foldl_cons, hcount' y ((hm y).mpr hy), hcount1 y hy]
      split_ifs with hyx
      · rw [hyx, count_cons_self]
        omega
      · rw [count_cons_of_ne (Ne.symm hyx)]

end Pmm

namespace Pmm

theorem managed_congr {p p' : Pmm} (hbase : p'.pagesBase = p.pagesBase) (x : Addr) :
    p'.Managed x ↔ p.Managed x := by
  simp only [Managed, address, hbase]

end Pmm

/-- Pages have been taken, and references to pages in use added. -/
structure Grown (p : Pmm) (new : List Addr) (add : Addr → ℕ) (p' : Pmm) : Prop where
  ok : p'.Ok
  base : p'.pagesBase = p.pagesBase
  fresh : ∀ x ∈ new, p.Managed x ∧ p.used x = false
  nodup : new.Nodup
  used : ∀ y, p.Managed y → (p'.used y = true ↔ p.used y = true ∨ y ∈ new)
  count_new : ∀ y ∈ new, p'.count y = 1
  count : ∀ y, p.Managed y → y ∉ new → p'.count y = min 255 (p.count y + add y)

namespace Grown

variable {p p₁ p' : Pmm} {new new' : List Addr} {add add' : Addr → ℕ} {x : Addr}

theorem refl (ok : p.Ok) : Grown p [] (fun _ => 0) p := by
  refine ⟨ok, rfl, by simp, nodup_nil, by simp, by simp, fun y _ _ => ?_⟩
  have hle : p.count y ≤ 255 := ok.refs_le _
  omega

theorem take (h : p.Taken x p') : Grown p [x] (fun _ => 0) p' := by
  refine ⟨h.ok, h.base, fun y hy => ?_, nodup_singleton x, fun y hy => ?_, fun y hy => ?_,
    fun y hy hne => ?_⟩
  · rw [mem_singleton.mp hy]
    exact ⟨h.managed, h.free⟩
  · rw [h.used y hy, mem_singleton]
  · rw [mem_singleton.mp hy]
    exact h.count_self
  · rw [mem_singleton] at hne
    rw [← h.count y hy hne]
    have hle : p'.count y ≤ 255 := h.ok.refs_le _
    omega

theorem incref (ok : p.Ok) (hx : p.Managed x) :
    Grown p [] (fun y => if x = y then 1 else 0) (pmmIncref p x) := by
  obtain ⟨ok', hbase, hused, hcount⟩ := pmmIncref_spec ok hx
  refine ⟨ok', hbase, by simp, nodup_nil, fun y _ => by simp [hused y], by simp,
    fun y hy _ => ?_⟩
  rw [hcount y hy]
  by_cases hyx : y = x
  · rw [if_pos hyx, if_pos hyx.symm, hyx]
  · have hle : p.count y ≤ 255 := ok.refs_le _
    rw [if_neg hyx, if_neg (Ne.symm hyx)]
    omega

section

variable (h : Grown p new add p')

include h

theorem managed (y : Addr) : p'.Managed y ↔ p.Managed y :=
  managed_congr h.base y

theorem inUse (hx : p.InUse x) : p'.InUse x :=
  ⟨(h.managed x).mpr hx.1, (h.used x hx.1).mpr (.inl hx.2)⟩

theorem inUse_new (hx : x ∈ new) : p'.InUse x :=
  ⟨(h.managed x).mpr (h.fresh x hx).1, (h.used x (h.fresh x hx).1).mpr (.inr hx)⟩

theorem not_mem_new (hx : p.InUse x) : x ∉ new := by
  intro hnew
  have hfree := (h.fresh x hnew).2
  rw [hx.2] at hfree
  cases hfree

end

/-- One growth after another. No reference is added to a page that was just taken. -/
theorem trans (h : Grown p new add p₁) (h' : Grown p₁ new' add' p')
    (hnew : ∀ y ∈ new, add' y = 0) : Grown p (new ++ new') (fun y => add y + add' y) p' := by
  have hfresh (y : Addr) (hy : y ∈ new') : p.Managed y ∧ p.used y = false ∧ y ∉ new := by
    obtain ⟨hym, hyfree⟩ := h'.fresh y hy
    rw [h.managed] at hym
    have hused := h.used y hym
    refine ⟨hym, ?_, fun hyn => ?_⟩
    · cases hu : p.used y with
      | false => rfl
      | true => rw [hused.mpr (.inl hu)] at hyfree; cases hyfree
    · rw [hused.mpr (.inr hyn)] at hyfree
      cases hyfree
  refine ⟨h'.ok, h'.base.trans h.base, fun y hy => ?_, ?_, fun y hy => ?_, fun y hy => ?_,
    fun y hy hyn => ?_⟩
  · rcases mem_append.mp hy with hy | hy
    · exact h.fresh y hy
    · exact ⟨(hfresh y hy).1, (hfresh y hy).2.1⟩
  · refine nodup_append.mpr ⟨h.nodup, h'.nodup, fun a ha b hb hab => ?_⟩
    rw [hab] at ha
    exact (hfresh b hb).2.2 ha
  · rw [h'.used y ((h.managed y).mpr hy), h.used y hy, mem_append, or_assoc]
  · by_cases hyn : y ∈ new
    · have hy' : y ∉ new' := fun h0 => (hfresh y h0).2.2 hyn
      rw [h'.count y ((h.managed y).mpr (h.fresh y hyn).1) hy', h.count_new y hyn, hnew y hyn]
      rfl
    · exact h'.count_new y ((mem_append.mp hy).resolve_left hyn)
  · rw [mem_append, not_or] at hyn
    rw [h'.count y ((h.managed y).mpr hy) hyn.2, h.count y hy hyn.1]
    omega

end Grown

namespace Accounts

variable {p p' : Pmm} {sole shared lost sole' shared' : Addr → ℕ} {held : Addr → Prop} {x : Addr}

section

variable (h : Accounts p sole shared lost held)

include h

theorem congr (hsole : ∀ y, sole' y = sole y) (hshared : ∀ y, shared' y = shared y) :
    Accounts p sole' shared' lost held := by
  rw [funext hsole, funext hshared]
  exact h

/-- A page that is not in use has no uses. -/
theorem unused (hx : p.used x = false) : sole x = 0 ∧ shared x = 0 ∧ ¬held x := by
  have hzero : ¬0 < sole x + shared x := fun hpos => by
    rw [(h.owned x hpos).2.1] at hx
    cases hx
  refine ⟨by omega, by omega, fun hheld => ?_⟩
  rw [(h.apart x hheld).2.1] at hx
  cases hx

/-- A page with one use is mapped. -/
theorem move (hsole : ∀ y, sole' y + (if x = y then 1 else 0) = sole y)
    (hshared : ∀ y, shared' y = shared y + if x = y then 1 else 0) :
    Accounts p sole' shared' lost held := by
  have htotal (y : Addr) : sole' y + shared' y = sole y + shared y := by
    have h1 := hsole y
    have h2 := hshared y
    omega
  refine ⟨h.ok, fun y hy => ?_, fun y hy => ?_, fun y hy => ?_, fun y hy hyused => ?_, fun y hy => ?_⟩
  · rw [htotal] at *
    exact h.owned y hy
  · rw [htotal]
    have h1 := hsole y
    exact h.single y (by omega)
  · rw [htotal] at hy
    exact h.settled y hy
  · rw [htotal]
    exact h.covered y hy hyused
  · rw [htotal]
    exact h.apart y hy

/-- Growth that goes with new uses. -/
theorem grow {new : List Addr} {add : Addr → ℕ} (hg : Grown p new add p')
    (hadd : ∀ y, add y ≤ shared y) (hsole : ∀ y, sole' y = sole y + new.count y)
    (hshared : ∀ y, shared' y = shared y + add y) :
    Accounts p' sole' shared' (fun y => lost y + (p.count y + add y - 255)) held := by
  have hle (y : Addr) : p.count y ≤ 255 := h.ok.refs_le _
  have hcounts (y : Addr) (hy : y ∈ new) : new.count y = 1 := count_eq_one_of_mem hg.nodup hy
  have hnew (y : Addr) (hy : y ∈ new) := h.unused (hg.fresh y hy).2
  refine ⟨hg.ok, fun y hy => ?_, fun y hy => ?_, fun y hy => ?_, fun y hy hyused => ?_,
    fun y hy => ?_⟩
  · rw [hsole, hshared] at hy ⊢
    rw [hg.managed]
    have hadd' := hadd y
    have hle' := hle y
    by_cases hyn : y ∈ new
    · obtain ⟨hs0, hsh0, -⟩ := hnew y hyn
      have hlost := h.settled y (by omega)
      obtain ⟨hym, -⟩ := hg.fresh y hyn
      rw [hg.used y hym, hg.count_new y hyn, hcounts y hyn]
      exact ⟨hym, .inr hyn, by omega, by omega⟩
    · rw [count_eq_zero_of_not_mem hyn] at hy ⊢
      obtain ⟨hym, hyused, hypos, hysum⟩ := h.owned y (by omega)
      rw [hg.used y hym, hg.count y hym hyn]
      exact ⟨hym, .inl hyused, by omega, by omega⟩
  · rw [hsole, hshared] at *
    have hadd' := hadd y
    by_cases hyn : y ∈ new
    · obtain ⟨hs0, hsh0, -⟩ := hnew y hyn
      rw [hcounts y hyn]
      omega
    · rw [count_eq_zero_of_not_mem hyn] at *
      have hone := h.single y (by omega)
      omega
  · rw [hsole, hshared] at hy
    have hlost := h.settled y (by omega)
    have hle' := hle y
    omega
  · rw [hg.managed] at hy
    rw [hsole, hshared]
    rcases (hg.used y hy).mp hyused with hold | hyn
    · rcases h.covered y hy hold with hpos | hheld
      · exact .inl (by omega)
      · exact .inr hheld
    · rw [hcounts y hyn]
      exact .inl (by omega)
  · obtain ⟨hym, hyused, hzero⟩ := h.apart y hy
    have hadd' := hadd y
    have hyn : y ∉ new := fun hyn => (hnew y hyn).2.2 hy
    rw [hg.managed, hg.used y hym, hsole, hshared, count_eq_zero_of_not_mem hyn]
    exact ⟨hym, .inl hyused, by omega⟩

theorem take (ht : p.Taken x p') (hsole : ∀ y, sole' y = sole y + if x = y then 1 else 0)
    (hshared : ∀ y, shared' y = shared y) : Accounts p' sole' shared' lost held := by
  have hlost : (fun y => lost y + (p.count y + 0 - 255)) = lost := by
    funext y
    have hle : p.count y ≤ 255 := h.ok.refs_le _
    omega
  rw [← hlost]
  refine h.grow (.take ht) (fun y => Nat.zero_le _) (fun y => ?_) hshared
  rw [hsole, count_singleton]
  simp only [beq_iff_eq]

/-- Frees that go with the uses of the freed pages. A page that is still used keeps a
reference. -/
theorem freeAll {l : List Addr} (hsum : ∀ y, sole' y + shared' y + l.count y = sole y + shared y)
    (hsole : ∀ y, sole' y ≤ sole y)
    (hkeep : ∀ y ∈ l, (lost y = 0 ∨ 0 < sole' y + shared' y) ∧ l.count y ≤ p.count y ∧
      (0 < sole' y + shared' y → l.count y < p.count y)) :
    Accounts (l.foldl pmmFreePage p) sole' shared' lost held := by
  have hmem (y : Addr) (hy : y ∈ l) : 0 < sole y + shared y := by
    have hpos := count_pos_iff.mpr hy
    have := hsum y
    omega
  obtain ⟨ok', hbase, hused, hcount⟩ := freeAll_spec h.ok fun y hy =>
    ⟨(h.owned y (hmem y hy)).1, (h.owned y (hmem y hy)).2.1, (hkeep y hy).2.1⟩
  have hm (y : Addr) := managed_congr hbase y
  refine ⟨ok', fun y hy => ?_, fun y hy => ?_, fun y hy => ?_, fun y hy hyused => ?_, fun y hy => ?_⟩
  · have hy' := hsum y
    obtain ⟨hym, hyused, hypos, hylost⟩ := h.owned y (by omega)
    have hlt : l.count y < p.count y := by
      by_cases hyl : y ∈ l
      · exact (hkeep y hyl).2.2 hy
      · rw [count_eq_zero_of_not_mem hyl]
        exact hypos
    rw [hm, hused y hym, hcount y hym]
    exact ⟨hym, ⟨hyused, fun _ => hlt⟩, by omega, by omega⟩
  · have hle := hsole y
    have hone := h.single y (by omega)
    have := hsum y
    omega
  · by_cases hyl : y ∈ l
    · rcases (hkeep y hyl).1 with hlost | hpos
      · exact hlost
      · omega
    · have hy' := hsum y
      rw [count_eq_zero_of_not_mem hyl] at hy'
      exact h.settled y (by omega)
  · rw [hm] at hy
    obtain ⟨hyold, hlt⟩ := (hused y hy).mp hyused
    rcases h.covered y hy hyold with hpos | hheld
    · left
      by_cases hyl : y ∈ l
      · have hsum' := hsum y
        have := hlt hyl
        obtain ⟨-, -, -, hylost⟩ := h.owned y hpos
        omega
      · have hsum' := hsum y
        rw [count_eq_zero_of_not_mem hyl] at hsum'
        omega
    · exact .inr hheld
  · obtain ⟨hym, hyused, hzero⟩ := h.apart y hy
    have hsum' := hsum y
    have hyl : y ∉ l := fun hyl => by
      have := hmem y hyl
      omega
    rw [hm, hused y hym]
    exact ⟨hym, ⟨hyused, fun hyl' => absurd hyl' hyl⟩, by omega⟩

end

end Accounts

end Crius.Mm
