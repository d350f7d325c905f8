import Mathlib.Data.Nat.Digits.Defs
import Crius.Ext2.Healthy

/-!
# The block map of an inode

`get_block_from_inode` follows a path of indices from one of the pointers of the inode. It does
not look whether a pointer on the way is 0, and reads device block 0 as a table then.
-/
namespace Crius.Ext2

open Option List Prod Bytes

/-- The pointer of the inode and the indices in the tables that lead to a logical block. -/
def blockPath (bs logical : ℕ) : Option (ℕ × List ℕ) :=
  let pb := bs / 4
  if logical < 12 then some (logical, [])
  else if logical - 12 < pb then some (12, [logical - 12])
  else if logical - 12 - pb < pb * pb then
    some (13, [(logical - 12 - pb) / pb, (logical - 12 - pb) % pb])
  else if logical - 12 - pb - pb * pb < pb * pb * pb then
    some (14, [(logical - 12 - pb - pb * pb) / (pb * pb),
      (logical - 12 - pb - pb * pb) % (pb * pb) / pb,
      (logical - 12 - pb - pb * pb) % (pb * pb) % pb])
  else none

/-- Follow the indices from a table, as the code does. -/
def follow (disk : Bytes) (bs : ℕ) : ℕ → List ℕ → ℕ
  | block, [] => block
  | block, k :: ks => follow disk bs (wordAt disk bs block k) ks

/-- Follow the indices from a table that may not be there. -/
def followMap (disk : Bytes) (bs : ℕ) : ℕ → List ℕ → ℕ
  | block, [] => block
  | block, k :: ks => if block = 0 then 0 else followMap disk bs (wordAt disk bs block k) ks

/-- What `get_block_from_inode` finds. -/
def foundBlock (disk : Bytes) (bs : ℕ) (inode : Bytes) (logical : ℕ) : ℕ :=
  match blockPath bs logical with
  | none => 0
  | some (r, ks) => follow disk bs (iBlock inode r) ks

/-- The block that the map of the inode gives to a logical block, with 0 for none. -/
def mappedBlock (disk : Bytes) (bs : ℕ) (inode : Bytes) (logical : ℕ) : ℕ :=
  match blockPath bs logical with
  | none => 0
  | some (r, ks) => followMap disk bs (iBlock inode r) ks

/-! ## Paths in the tree of an inode -/

/-- A node of the tree of an inode: the pointers 12, 13 and 14 have one, two and three levels. -/
def IsNode (bs r : ℕ) (ks : List ℕ) : Prop :=
  r ≤ 14 ∧ ks.length ≤ r - 11 ∧ ∀ k ∈ ks, k < bs / 4

/-- A node that is a table of pointers. -/
def IsTable (bs r : ℕ) (ks : List ℕ) : Prop := IsNode bs r ks ∧ ks.length < r - 11

/-- No block is at two nodes of the tree. -/
def TreeSeparate (disk : Bytes) (bs : ℕ) (inode : Bytes) : Prop :=
  ∀ r ks r' ks', IsNode bs r ks → IsNode bs r' ks' → (r, ks) ≠ (r', ks') →
    followMap disk bs (iBlock inode r) ks ≠ 0 →
    followMap disk bs (iBlock inode r) ks ≠ followMap disk bs (iBlock inode r') ks'

/-- No pointer to a table is 0. -/
def TreeSolid (disk : Bytes) (bs : ℕ) (inode : Bytes) : Prop :=
  ∀ r ks, IsTable bs r ks → followMap disk bs (iBlock inode r) ks ≠ 0

/-- The two disks differ in block 0 only. -/
def SameTables (bs : ℕ) (disk disk₀ : Bytes) : Prop :=
  ∀ block k, block ≠ 0 → 4 * k + 4 ≤ bs → wordAt disk₀ bs block k = wordAt disk bs block k

section Follow

variable {disk disk₀ : Bytes} {bs block : ℕ} {ks : List ℕ}

theorem followMap_zero (ks : List ℕ) : followMap disk bs 0 ks = 0 := by
  cases ks with
  | nil => rfl
  | cons k ks => rw [followMap, if_pos rfl]

theorem followMap_cons_of_ne (h : block ≠ 0) (k : ℕ) (ks : List ℕ) :
    followMap disk bs block (k :: ks) = followMap disk bs (wordAt disk bs block k) ks := by
  rw [followMap, if_neg h]

theorem followMap_append (block : ℕ) (ks ks' : List ℕ) :
    followMap disk bs block (ks ++ ks') =
      followMap disk bs (followMap disk bs block ks) ks' := by
  induction ks generalizing block with
  | nil => rfl
  | cons k ks ih =>
    by_cases hzero : block = 0
    · rw [hzero, followMap_zero, followMap_zero, followMap_zero]
    · rw [cons_append, followMap_cons_of_ne hzero, followMap_cons_of_ne hzero, ih]

theorem follow_append (block : ℕ) (ks ks' : List ℕ) :
    follow disk bs block (ks ++ ks') = follow disk bs (follow disk bs block ks) ks' := by
  induction ks generalizing block with
  | nil => rfl
  | cons k ks ih => exact ih _

/-- Where every table on the way is there, the code finds what the map gives, whatever block 0
contains. -/
theorem follow_eq_followMap (hsame : SameTables bs disk disk₀) (hks : ∀ k ∈ ks, 4 * k + 4 ≤ bs)
    (htables : ∀ ks1 k ks2, ks = ks1 ++ k :: ks2 → followMap disk bs block ks1 ≠ 0) :
    follow disk₀ bs block ks = followMap disk bs block ks := by
  induction ks generalizing block with
  | nil => rfl
  | cons k ks ih =>
    have hblock : block ≠ 0 := htables [] k ks rfl
    rw [followMap_cons_of_ne hblock, follow, hsame block k hblock (hks k mem_cons_self)]
    apply ih
    · intro k' hk'
      exact hks k' (mem_cons_of_mem k hk')
    · intro ks1 k' ks2 heq
      rw [← followMap_cons_of_ne hblock]
      exact htables (k :: ks1) k' ks2 (by rw [heq, cons_append])

/-- Where a table on the way is missing, the code comes to block 0. -/
theorem follow_reaches_zero (hsame : SameTables bs disk disk₀) (hks : ∀ k ∈ ks, 4 * k + 4 ≤ bs)
    (hzero : followMap disk bs block ks = 0) :
    ∃ ks1 ks2, ks = ks1 ++ ks2 ∧ followMap disk bs block ks1 = 0 ∧
      follow disk₀ bs block ks1 = 0 := by
  induction ks generalizing block with
  | nil => exact ⟨[], [], rfl, hzero, hzero⟩
  | cons k ks ih =>
    by_cases hblock : block = 0
    · exact ⟨[], k :: ks, rfl, hblock, hblock⟩
    · rw [followMap_cons_of_ne hblock] at hzero
      obtain ⟨ks1, ks2, rfl, hmap, hfollow⟩ :=
        ih (fun k' hk' => hks k' (mem_cons_of_mem k hk')) hzero
      refine ⟨k :: ks1, ks2, rfl, ?_, ?_⟩
      · rw [followMap_cons_of_ne hblock, hmap]
      · rw [follow, hsame block k hblock (hks k mem_cons_self), hfollow]

/-- A path along a disk with other words where it does not pass. -/
theorem follow_congr (h : ∀ ks1 k ks2, ks = ks1 ++ k :: ks2 →
      wordAt disk₀ bs (follow disk bs block ks1) k = wordAt disk bs (follow disk bs block ks1) k) :
    follow disk₀ bs block ks = follow disk bs block ks := by
  induction ks generalizing block with
  | nil => rfl
  | cons k ks ih =>
    have hword : wordAt disk₀ bs block k = wordAt disk bs block k := h [] k ks rfl
    rw [follow, follow, hword]
    apply ih
    intro ks1 k' ks2 heq
    exact h (k :: ks1) k' ks2 (by rw [heq, cons_append])

/-- Block 0 with 1 as its second word, and no other. -/
def oneWord : Bytes := Function.update Bytes.zero 4 1

theorem sameTables_blit (block0 : Bytes) : SameTables bs disk (disk.blit 0 block0 bs) := by
  intro block k hblock hk
  have h : wordAt (disk.blit (0 * bs) block0 bs) bs block k = _ := wordAt_blit_of_ne hblock hk
  rwa [Nat.zero_mul] at h

theorem follow_oneWord (hbs : 8 ≤ bs) (m : ℕ) :
    follow (disk.blit 0 oneWord bs) bs 0 (replicate m 0 ++ [1]) = 1 := by
  have hword (k : ℕ) (hk : 4 * k + 4 ≤ bs) :
      wordAt (disk.blit 0 oneWord bs) bs 0 k = oneWord.u32At (4 * k) := by
    have h : wordAt (disk.blit (0 * bs) oneWord bs) bs 0 k = _ := wordAt_blit hk
    rwa [Nat.zero_mul] at h
  induction m with
  | zero =>
    change wordAt (disk.blit 0 oneWord bs) bs 0 1 = 1
    rw [hword 1 (by omega)]
    decide
  | succ m ih =>
    rw [replicate_succ, cons_append, follow, hword 0 (by omega)]
    exact ih

end Follow

/-! ## The paths of the logical blocks -/

variable {k : ℕ}

section Paths

variable {bs logical r : ℕ} {ks : List ℕ}

theorem blockPath_direct (h : logical < 12) : blockPath bs logical = some (logical, []) := if_pos h

theorem blockPath_single (hk : k < bs / 4) : blockPath bs (12 + k) = some (12, [k]) := by
  unfold blockPath
  rw [if_neg (by omega), if_pos (by omega), Nat.add_sub_cancel_left]

/-- A path is that of a direct block, of one of the single indirect blocks, or one behind the
other two pointers. -/
theorem blockPath_cases (h : blockPath bs logical = some (r, ks)) :
    (logical < 12 ∧ r = logical ∧ ks = []) ∨
      (∃ k < bs / 4, logical = 12 + k ∧ r = 12 ∧ ks = [k]) ∨ 12 < r := by
  unfold blockPath at h
  dsimp only at h
  split at h
  · rename_i hlt
    simp only [some.injEq, mk.injEq] at h
    exact .inl ⟨hlt, h.1.symm, h.2.symm⟩
  split at h
  · rename_i hdirect hlt
    simp only [some.injEq, mk.injEq] at h
    exact .inr (.inl ⟨logical - 12, hlt, by omega, h.1.symm, h.2.symm⟩)
  split at h
  · simp only [some.injEq, mk.injEq] at h
    exact .inr (.inr (by omega))
  split at h
  · simp only [some.injEq, mk.injEq] at h
    exact .inr (.inr (by omega))
  · cases h

/-- The path of a logical block goes to the leaves, inside the tables. -/
theorem blockPath_node (hbs : 0 < bs / 4) (h : blockPath bs logical = some (r, ks)) :
    IsNode bs r ks ∧ ks.length = r - 11 := by
  have hsquare : 0 < bs / 4 * (bs / 4) := Nat.mul_pos hbs hbs
  unfold blockPath at h
  dsimp only at h
  split at h
  · cases h
    exact ⟨⟨by omega, by simp, by simp⟩, by rw [length_nil]; omega⟩
  split at h
  · rename_i hlt
    cases h
    exact ⟨⟨by omega, by simp, by simpa using hlt⟩, rfl⟩
  split at h
  · rename_i hlt
    cases h
    have h1 := (Nat.div_lt_iff_lt_mul hbs).mpr hlt
    have h2 := Nat.mod_lt (logical - 12 - bs / 4) hbs
    exact ⟨⟨by omega, by simp, by simp [h1, h2]⟩, rfl⟩
  split at h
  · rename_i hlt
    cases h
    have h1 := (Nat.div_lt_iff_lt_mul hsquare).mpr (Nat.mul_assoc _ _ _ ▸ hlt)
    have h2 := (Nat.div_lt_iff_lt_mul hbs).mpr
      (Nat.mod_lt (logical - 12 - bs / 4 - bs / 4 * (bs / 4)) hsquare)
    have h3 := Nat.mod_lt ((logical - 12 - bs / 4 - bs / 4 * (bs / 4)) % (bs / 4 * (bs / 4))) hbs
    have hall : ∀ k ∈ _, k < bs / 4 :=
      forall_mem_cons.mpr ⟨h1, forall_mem_cons.mpr ⟨h2, forall_mem_singleton.mpr h3⟩⟩
    exact ⟨⟨by omega, by simp, hall⟩, rfl⟩
  · cases h

theorem row_lt {a b m n : ℕ} (ha : a < n) (hb : b < m) : b + a * m < n * m := by
  have h := Nat.mul_le_mul_right m (Nat.succ_le_iff.mpr ha)
  rw [Nat.succ_mul] at h
  omega

theorem row_div_mod {a b m : ℕ} (hb : b < m) : (b + a * m) / m = a ∧ (b + a * m) % m = b := by
  rw [Nat.add_mul_div_right _ _ (by omega), Nat.add_mul_mod_self_right, Nat.div_eq_of_lt hb,
    Nat.mod_eq_of_lt hb, Nat.zero_add]
  exact ⟨rfl, rfl⟩

theorem blockPath_double {a b : ℕ} (ha : a < bs / 4) (hb : b < bs / 4) :
    blockPath bs (12 + bs / 4 + (b + a * (bs / 4))) = some (13, [a, b]) := by
  have hlt := row_lt ha hb
  obtain ⟨hdiv, hmod⟩ := row_div_mod (a := a) hb
  unfold blockPath
  generalize bs / 4 = pb at *
  have hrest : 12 + pb + (b + a * pb) - 12 - pb = b + a * pb := by omega
  rw [if_neg (by omega), if_neg (by omega), hrest, if_pos hlt, hdiv, hmod]

theorem blockPath_triple {a b c : ℕ} (ha : a < bs / 4) (hb : b < bs / 4) (hc : c < bs / 4) :
    blockPath bs (12 + bs / 4 + bs / 4 * (bs / 4) +
      ((c + b * (bs / 4)) + a * (bs / 4 * (bs / 4)))) = some (14, [a, b, c]) := by
  have hinner := row_lt hb hc
  have hlt := row_lt ha hinner
  obtain ⟨hdiv, hmod⟩ := row_div_mod (a := a) hinner
  obtain ⟨hdiv', hmod'⟩ := row_div_mod (a := b) hc
  unfold blockPath
  dsimp only
  generalize bs / 4 = pb at *
  generalize pb * pb = sq at *
  generalize hidx : c + b * pb + a * sq = idx at *
  have hrest : 12 + pb + sq + idx - 12 - pb - sq = idx := by omega
  rw [if_neg (by omega), if_neg (by omega), if_neg (by omega), hrest, if_pos, hdiv, hmod, hdiv', hmod']
  rwa [Nat.mul_comm]

/-- Every path to a leaf behind a table is that of a logical block. -/
theorem exists_blockPath (hr : 12 ≤ r) (h : IsNode bs r ks) (hlen : ks.length = r - 11) :
    ∃ logical, blockPath bs logical = some (r, ks) := by
  obtain ⟨hr', -, hks⟩ := h
  obtain rfl | rfl | rfl : r = 12 ∨ r = 13 ∨ r = 14 := by omega
  · obtain ⟨k, rfl⟩ := length_eq_one_iff.mp hlen
    exact ⟨_, blockPath_single (hks k (by simp))⟩
  · obtain ⟨a, b, rfl⟩ := length_eq_two.mp hlen
    exact ⟨_, blockPath_double (hks a (by simp)) (hks b (by simp))⟩
  · obtain ⟨a, b, c, rfl⟩ := length_eq_three.mp hlen
    exact ⟨_, blockPath_triple (hks a (by simp)) (hks b (by simp)) (hks c (by simp))⟩

/-- The nodes above a node are tables. -/
theorem IsNode.table {ks1 ks2 : List ℕ} (h : IsNode bs r ks) (heq : ks = ks1 ++ k :: ks2) :
    IsTable bs r ks1 := by
  obtain ⟨hr, hlen, hks⟩ := h
  subst heq
  rw [length_append, length_cons] at hlen
  exact ⟨⟨hr, by omega, fun j hj => hks j (mem_append_left _ hj)⟩, by omega⟩

end Paths

namespace Healthy

variable {g : Geo} {v : Vol} (h : Healthy g v)

include h

theorem perBlock : g.blockSize / 4 * 4 = g.blockSize ∧ 256 ≤ g.blockSize / 4 ∧
    g.blockSize / 4 ≤ 1024 := by
  rcases h.size with hs | hs | hs <;> omega

/-- The products of the index arithmetic fit 32 bits. -/
theorem products : u32 (g.blockSize / 4 * (g.blockSize / 4)) = g.blockSize / 4 * (g.blockSize / 4) ∧
    u32 (g.blockSize / 4 * (g.blockSize / 4) * (g.blockSize / 4)) =
      g.blockSize / 4 * (g.blockSize / 4) * (g.blockSize / 4) := by
  rcases h.size with hs | hs | hs <;> rw [hs] <;> decide

theorem getBlockFromInode (inode : Bytes) (logical : ℕ) :
    Yields (getBlockFromInode inode logical) g v
      (foundBlock v.disk g.blockSize inode logical) v := by
  obtain ⟨hpb, hlow, hhigh⟩ := h.perBlock
  obtain ⟨h2, h3⟩ := h.products
  have hpos : 0 < g.blockSize / 4 := by omega
  have hindex {k : ℕ} (hk : k < g.blockSize / 4) : 4 * k + 4 ≤ g.blockSize := by omega
  unfold Ext2.getBlockFromInode foundBlock blockPath
  dsimp only
  by_cases hdirect : logical < 12
  · rw [if_pos hdirect, if_pos hdirect]
    exact Yields.pure
  rw [if_neg hdirect, if_neg hdirect]
  apply Yields.read
  rw [h2, h3]
  by_cases hsingle : logical - 12 < g.blockSize / 4
  · rw [if_pos hsingle, if_pos hsingle]
    dsimp only
    apply Yields.bind h.working.kmalloc
    apply Yields.bind (h.working.indirect _ (hindex hsingle))
    exact Yields.pure_of_eq (by rw [getD_some, follow, follow])
  rw [if_neg hsingle, if_neg hsingle]
  generalize hx : logical - 12 - g.blockSize / 4 = x
  by_cases hdouble : x < g.blockSize / 4 * (g.blockSize / 4)
  · rw [if_pos hdouble, if_pos hdouble]
    dsimp only
    apply Yields.bind h.working.kmalloc
    apply Yields.bind h.working.kmalloc
    apply Yields.bind (h.working.indirect _ (hindex ((Nat.div_lt_iff_lt_mul hpos).mpr hdouble)))
    apply Yields.bind (h.working.indirect _ (hindex (Nat.mod_lt _ hpos)))
    exact Yields.pure_of_eq (by rw [getD_some, follow, follow, follow])
  rw [if_neg hdouble, if_neg hdouble]
  generalize hy : x - g.blockSize / 4 * (g.blockSize / 4) = y
  by_cases htriple : y < g.blockSize / 4 * (g.blockSize / 4) * (g.blockSize / 4)
  · have hsquare : 0 < g.blockSize / 4 * (g.blockSize / 4) := Nat.mul_pos hpos hpos
    rw [if_pos htriple, if_pos htriple]
    dsimp only
    apply Yields.bind h.working.kmalloc
    apply Yields.bind h.working.kmalloc
    apply Yields.bind h.working.kmalloc
    apply Yields.bind (Yields.div (Nat.ne_of_gt hsquare))
    apply Yields.bind (h.working.indirect _ (hindex ((Nat.div_lt_iff_lt_mul hsquare).mpr
      (by rwa [Nat.mul_comm]))))
    apply Yields.bind (h.working.indirect _ (hindex ((Nat.div_lt_iff_lt_mul hpos).mpr
      (Nat.mod_lt _ hsquare))))
    apply Yields.bind (h.working.indirect _ (hindex (Nat.mod_lt _ hpos)))
    exact Yields.pure_of_eq (by rw [getD_some, follow, follow, follow, follow])
  rw [if_neg htriple, if_neg htriple]
  exact Yields.pure

theorem of_oracle {v' : Vol} (hv : v'.oracle = v.oracle) : Healthy g v' :=
  ⟨h.mounted, h.device, h.size, fun n => by rw [hv, h.oracle]⟩

/-- The setter writes a single indirect pointer into the table, if it is there. -/
theorem setBlockInInode_single {inode : Bytes} (phys : ℕ) (hk : k < g.blockSize / 4)
    (htable : iBlock inode 12 ≠ 0) : ∃ buf : Bytes,
      (∀ j < g.blockSize / 4, buf.u32At (4 * j) =
        if j = k then phys % 2 ^ 32 else wordAt v.disk g.blockSize (iBlock inode 12) j) ∧
      Yields (setBlockInInode inode (12 + k) phys) g v (true, inode)
        { v with disk := v.disk.blit (iBlock inode 12 * g.blockSize) buf g.blockSize } := by
  obtain ⟨hpb, -, -⟩ := h.perBlock
  refine ⟨(v.junk.blit 0 (v.disk.shift (iBlock inode 12 * g.blockSize)) g.blockSize).put32
    (4 * k) phys, ?_, ?_⟩
  · intro j hj
    split_ifs with hjk
    · rw [hjk, u32At_put32]
    · rw [u32At_put32_of_ne (by omega)]
      apply u32At_eq
      intro i hi
      rw [blit_inside (by omega), shift_apply]
      congr 1
      omega
  · unfold Ext2.setBlockInInode
    apply Yields.ite_neg (by omega)
    apply Yields.read
    apply Yields.bind h.working.kmalloc
    rw [Nat.add_sub_cancel_left]
    apply Yields.ite_pos hk
    apply Yields.ite_neg htable
    apply Yields.bind (h.working.readBlock _ _)
    exact Yields.bind (h.working.writeBlock _ _) Yields.pure

end Healthy

/-! ## The map of an inode -/

/-- `get_block_from_inode` returns this block. -/
def Gets (g : Geo) (v : Vol) (inode : Bytes) (logical block : ℕ) : Prop :=
  ∃ v' n, getBlockFromInode inode logical g v = some (block, v', n)

/-- The volume with other contents of device block 0. -/
def Vol.withBlock0 (v : Vol) (bs : ℕ) (block0 : Bytes) : Vol :=
  { v with disk := v.disk.blit 0 block0 bs }

/-- The setter and `get_block_from_inode` work like those of a finite map: what is set is found
and nothing else changes, and for what is not mapped the result is 0, whatever block 0 contains. -/
def IsFiniteMap (g : Geo) (v : Vol) (inode : Bytes) (logical phys : ℕ) : Prop :=
  (∀ inode' v' n, setBlockInInode inode logical phys g v = some ((true, inode'), v', n) →
    Gets g v' inode' logical phys ∧
      ∀ l, l ≠ logical → ∀ block, Gets g v inode l block → Gets g v' inode' l block) ∧
  ∀ block0 l, mappedBlock v.disk g.blockSize inode l = 0 →
    Gets g (v.withBlock0 g.blockSize block0) inode l 0

section FiniteMap

variable {g : Geo} {v : Vol} {inode disk : Bytes} {logical l block bs : ℕ}

theorem Healthy.gets (h : Healthy g v) :
    Gets g v inode l block ↔ block = foundBlock v.disk g.blockSize inode l := by
  have hget := h.getBlockFromInode inode l
  constructor
  · intro hgets
    obtain ⟨v', n, hrun⟩ := hgets
    exact (hget.result hrun).1
  · intro heq
    obtain ⟨c, n, hrun⟩ := hget v.clock
    exact ⟨_, n, heq ▸ hrun⟩

theorem index_fits (h : k < bs / 4) : 4 * k + 4 ≤ bs := by omega

/-- With all tables there, what is found is what is mapped, whatever block 0 contains. -/
theorem TreeSolid.found {disk₀ : Bytes} (h : TreeSolid disk bs inode)
    (hsame : SameTables bs disk disk₀) (hbs : 0 < bs / 4) :
    foundBlock disk₀ bs inode l = mappedBlock disk bs inode l := by
  unfold foundBlock mappedBlock
  cases hpath : blockPath bs l with
  | none => rfl
  | some p =>
    obtain ⟨r, ks⟩ := p
    obtain ⟨hnode, -⟩ := blockPath_node hbs hpath
    apply follow_eq_followMap hsame
    · exact fun k hk => index_fits (hnode.2.2 k hk)
    · exact fun ks1 k ks2 heq => h r ks1 (hnode.table heq)

/-- A table that is missing can be seen: some block is not mapped and yet found, for some contents
of block 0. -/
theorem exists_found_of_not_solid (hbs : 2 ≤ bs / 4) (h : ¬TreeSolid disk bs inode) :
    ∃ l, mappedBlock disk bs inode l = 0 ∧
      foundBlock (disk.blit 0 oneWord bs) bs inode l = 1 := by
  simp only [TreeSolid, not_forall, not_not] at h
  obtain ⟨r, ks, ⟨⟨hr, hlen, hks⟩, htable⟩, hzero⟩ := h
  obtain ⟨ks1, ks2, rfl, hmap, hfollow⟩ := follow_reaches_zero (sameTables_blit oneWord)
    (fun k hk => index_fits (hks k hk)) hzero
  rw [length_append] at htable
  -- from the missing table go down along the first entries, to the second entry of the last one
  have hdown : ∀ k ∈ ks1 ++ (replicate (r - 12 - ks1.length) 0 ++ [1]), k < bs / 4 := by
    intro k hk
    simp only [mem_append, mem_replicate, mem_singleton] at hk
    obtain hk | ⟨-, rfl⟩ | rfl := hk
    · exact hks k (mem_append_left _ hk)
    · omega
    · omega
  have hdepth : (ks1 ++ (replicate (r - 12 - ks1.length) 0 ++ [1])).length = r - 11 := by
    simp only [length_append, length_replicate, length_singleton]
    omega
  obtain ⟨l, hpath⟩ := exists_blockPath (by omega) ⟨hr, Nat.le_of_eq hdepth, hdown⟩ hdepth
  refine ⟨l, ?_, ?_⟩
  · simp only [mappedBlock, hpath, followMap_append _ ks1, hmap, followMap_zero]
  · simp only [foundBlock, hpath, follow_append _ ks1, hfollow]
    exact follow_oneWord (by omega) _

/-- A direct block is set in the inode. -/
theorem foundBlock_setBlock {phys : ℕ} (hlogical : logical < 12) :
    foundBlock disk bs (setBlock inode logical phys) l =
      if l = logical then phys % 2 ^ 32 else foundBlock disk bs inode l := by
  split_ifs with hl
  · rw [foundBlock, hl, blockPath_direct hlogical]
    dsimp only
    rw [follow, iBlock_setBlock]
  · rw [foundBlock, foundBlock]
    cases hpath : blockPath bs l with
    | none => rfl
    | some p =>
      obtain ⟨r, ks⟩ := p
      have hr : r ≠ logical := by
        rcases blockPath_cases hpath with ⟨-, rfl, -⟩ | ⟨k, -, -, rfl, -⟩ | hr
        · exact hl
        · omega
        · omega
      simp only [iBlock_setBlock_of_ne hr]

/-- A write to the table of the single indirect blocks changes the entries that differ in it. -/
theorem foundBlock_blit {buf : Bytes} {phys : ℕ} (hbs : 0 < bs / 4)
    (hsolid : TreeSolid disk bs inode) (hsep : TreeSeparate disk bs inode)
    (hbuf : ∀ j < bs / 4, buf.u32At (4 * j) =
      if j = k then phys else wordAt disk bs (iBlock inode 12) j) :
    foundBlock (disk.blit (iBlock inode 12 * bs) buf bs) bs inode l =
      if l = 12 + k ∧ k < bs / 4 then phys else foundBlock disk bs inode l := by
  unfold foundBlock
  cases hpath : blockPath bs l with
  | none =>
    rw [if_neg]
    intro hl
    rw [hl.1, blockPath_single hl.2] at hpath
    exact some_ne_none _ hpath
  | some p =>
    obtain ⟨r, ks⟩ := p
    rcases blockPath_cases hpath with ⟨hl, rfl, rfl⟩ | ⟨j, hj, rfl, rfl, rfl⟩ | hr
    · rw [if_neg (by omega)]
      dsimp only
      rw [follow, follow]
    · -- an entry of the table that was written
      dsimp only
      rw [follow, follow, follow, follow, wordAt_blit (index_fits hj), hbuf j hj]
      by_cases hjk : j = k
      · rw [if_pos hjk, if_pos ⟨by omega, by omega⟩]
      · rw [if_neg hjk, if_neg (by omega)]
    · -- the tables on the way are others
      obtain ⟨hnode, -⟩ := blockPath_node hbs hpath
      have hother : ¬(l = 12 + k ∧ k < bs / 4) := by
        intro hl
        rw [hl.1, blockPath_single hl.2, some.injEq, mk.injEq] at hpath
        omega
      rw [if_neg hother]
      apply follow_congr
      intro ks1 j ks2 heq
      have htable := hnode.table heq
      have hfollow : follow disk bs (iBlock inode r) ks1 = followMap disk bs (iBlock inode r) ks1 := by
        apply follow_eq_followMap (fun _ _ _ _ => rfl)
        · exact fun i hi => index_fits (htable.1.2.2 i hi)
        · exact fun ks3 i ks4 heq' => hsolid r ks3 (htable.1.table heq')
      have hne : followMap disk bs (iBlock inode r) ks1 ≠ iBlock inode 12 :=
        hsep r ks1 12 [] htable.1 ⟨by omega, by simp, by simp⟩
          (fun heq' => absurd (congrArg fst heq') (by dsimp only; omega)) (hsolid r ks1 htable)
      have hj : j < bs / 4 := hnode.2.2 j (by rw [heq]; simp)
      rw [hfollow]
      exact wordAt_blit_of_ne hne (index_fits hj)

/-- On a volume on which nothing fails, for every inode whose tree has no block twice and every
logical block that the setter handles: the block map is a finite map, whatever block 0 contains,
exactly if no pointer to a table is 0. -/
theorem blockMap_finite (g : Geo) (v : Vol) (inode : Bytes) (logical : ℕ) (phys : UInt32)
    (h : Healthy g v) (hsep : TreeSeparate v.disk g.blockSize inode)
    (hlogical : logical < 12 + g.blockSize / 4) :
    IsFiniteMap g v inode logical phys.toNat ↔ TreeSolid v.disk g.blockSize inode := by
  obtain ⟨hpb, hlow, -⟩ := h.perBlock
  have hphys : phys.toNat % 2 ^ 32 = phys.toNat := Nat.mod_eq_of_lt phys.toNat_lt
  have hblock0 (block0 : Bytes) : Healthy g (v.withBlock0 g.blockSize block0) := h.of_oracle rfl
  constructor
  · intro hmap
    by_contra hsolid
    obtain ⟨l, hzero, hone⟩ := exists_found_of_not_solid (by omega) hsolid
    have hgets := (hblock0 oneWord).gets.mp (hmap.2 oneWord l hzero)
    rw [Vol.withBlock0, hone] at hgets
    omega
  · intro hsolid
    constructor
    · intro inode' v' n hrun
      by_cases hdirect : logical < 12
      · have hset : Yields (setBlockInInode inode logical phys.toNat) g v
            (true, setBlock inode logical phys.toNat) v := by
          unfold setBlockInInode
          exact Yields.ite_pos hdirect Yields.pure
        obtain ⟨hinode, hv'⟩ := hset.result hrun
        rw [mk.injEq] at hinode
        obtain ⟨-, rfl⟩ := hinode
        have hhealthy : Healthy g v' := h.of_oracle (by rw [hv'])
        have hdisk : v'.disk = v.disk := by rw [hv']
        constructor
        · rw [hhealthy.gets, foundBlock_setBlock hdirect, if_pos rfl, hphys]
        · intro l hl block hgets
          rw [h.gets] at hgets
          rw [hhealthy.gets, foundBlock_setBlock hdirect, if_neg hl, hdisk, hgets]
      · obtain ⟨k, rfl⟩ : ∃ k, logical = 12 + k := ⟨logical - 12, by omega⟩
        have hk : k < g.blockSize / 4 := by omega
        have htable : iBlock inode 12 ≠ 0 := hsolid 12 [] ⟨⟨by omega, by simp, by simp⟩, by simp⟩
        obtain ⟨buf, hbuf, hset⟩ := h.setBlockInInode_single phys.toNat hk htable
        obtain ⟨hinode, hv'⟩ := hset.result hrun
        rw [mk.injEq] at hinode
        obtain ⟨-, rfl⟩ := hinode
        have hhealthy : Healthy g v' := h.of_oracle (by rw [hv'])
        have hdisk : v'.disk =
          v.disk.blit (iBlock inode' 12 * g.blockSize) buf g.blockSize := by rw [hv']
        rw [hphys] at hbuf
        have hfound (l : ℕ) := foundBlock_blit (l := l) (by omega) hsolid hsep hbuf
        constructor
        · rw [hhealthy.gets, hdisk, hfound, if_pos ⟨rfl, hk⟩]
        · intro l hl block hgets
          rw [h.gets] at hgets
          rw [hhealthy.gets, hdisk, hfound, if_neg (fun hand => hl hand.1), hgets]
    · intro block0 l hzero
      rw [(hblock0 block0).gets, ← hzero]
      exact (hsolid.found (sameTables_blit block0) (by omega)).symm

/-- A volume with blocks of 2048 bytes, whose block 0 holds the superblock: 32 inodes. -/
def largeGeo : Geo where
  mounted := true
  hasBd := true
  blockSize := 2048
  blocksPerGroup := 16384
  inodesPerGroup := 32
  inodeSize := 128
  numGroups := 1
  firstDataBlock := 0

def largeVolume : Vol where
  sb := Bytes.zero
  bgds := Bytes.zero
  disk := Bytes.zero.put32 1024 32
  oracle _ := true
  clock := 0
  junk := Bytes.zero

/-- Word `m` of these bytes is `m`. -/
def counting : Bytes := fun i => UInt8.ofNat (i / 4 / 256 ^ (i % 4))

theorem counting_u32At {m : ℕ} (hm : m < 2 ^ 32) : counting.u32At (4 * m) = m := by
  have hbyte {j : ℕ} (hj : j < 4) : (counting (4 * m + j)).toNat = m / 256 ^ j % 256 := by
    rw [counting, show (4 * m + j) / 4 = m by omega, show (4 * m + j) % 4 = j by omega]
    exact UInt8.toNat_ofNat'
  have h0 := hbyte (j := 0) (by decide)
  have h3 := hbyte (j := 3) (by decide)
  rw [Nat.pow_zero, Nat.div_one, Nat.add_zero] at h0
  rw [u32At, u16At, u16At, h0, hbyte (by decide), hbyte (by decide), h3]
  omega

/-- On a disk with these bytes, the digits of a block's number to the base 256 are the indices on
the way to it. -/
theorem followMap_counting {ks ds : List ℕ} (hks : ∀ d ∈ ks, d < 256) (hds : ∀ d ∈ ds, d < 256)
    (hlen : ks.length + ds.length ≤ 4) (hpos : 0 < Nat.ofDigits 256 ds) :
    followMap counting 1024 (Nat.ofDigits 256 ds) ks = Nat.ofDigits 256 (ks.reverse ++ ds) ∧
      followMap counting 1024 (Nat.ofDigits 256 ds) ks ≠ 0 := by
  induction ks generalizing ds with
  | nil => exact ⟨rfl, hpos.ne'⟩
  | cons k ks ih =>
    obtain ⟨hk, hks⟩ := forall_mem_cons.mp hks
    rw [length_cons] at hlen
    have hds' : ∀ d ∈ k :: ds, d < 256 := forall_mem_cons.mpr ⟨hk, hds⟩
    have hfit : Nat.ofDigits 256 (k :: ds) < 256 ^ 4 :=
      (Nat.ofDigits_lt_base_pow_length (by decide) hds').trans_le
        (Nat.pow_le_pow_right (by decide) (by rw [length_cons]; omega))
    have hword : wordAt counting 1024 (Nat.ofDigits 256 ds) k = Nat.ofDigits 256 (k :: ds) := by
      rw [wordAt, ← counting_u32At hfit, Nat.ofDigits_cons]
      congr 1
      ring
    rw [followMap_cons_of_ne hpos.ne', hword, reverse_cons, append_assoc]
    exact ih hks hds' (by rw [length_cons]; omega) (by rw [Nat.ofDigits_cons]; omega)

/-- The tree of an inode with these bytes has all its blocks. -/
theorem counting_node {r : ℕ} {ks : List ℕ} (h : IsNode 1024 r ks) :
    Nat.digits 256 (followMap counting 1024 (iBlock counting r) ks) = ks.reverse ++ [10 + r] ∧
      followMap counting 1024 (iBlock counting r) ks ≠ 0 := by
  obtain ⟨hr, hlen, hks⟩ := h
  have hroot : iBlock counting r = Nat.ofDigits 256 [10 + r] := by
    rw [iBlock, show 40 + 4 * r = 4 * (10 + r) by ring, counting_u32At (by omega),
      Nat.ofDigits_singleton]
  have hlast : ∀ d ∈ [10 + r], d < 256 := forall_mem_singleton.mpr (by omega)
  obtain ⟨heq, hne⟩ := followMap_counting hks hlast (by rw [length_singleton]; omega)
    (by rw [Nat.ofDigits_singleton]; omega)
  rw [hroot, heq] at *
  refine ⟨Nat.digits_ofDigits _ (by decide) _ ?_ (by simp), hne⟩
  exact forall_mem_append.mpr ⟨fun d hd => hks d (mem_reverse.mp hd), hlast⟩

theorem blockMap_finite_counting : IsFiniteMap { largeGeo with blockSize := 1024 }
    { largeVolume with disk := counting } counting 12 (7 : UInt32).toNat := by
  refine (blockMap_finite _ _ counting 12 7 ⟨rfl, rfl, .inl rfl, fun _ => rfl⟩ ?_ (by decide)).mpr
    fun r ks h => (counting_node h.1).2
  intro r ks r' ks' h h' hne _ heq
  have hdigits := (counting_node h).1
  dsimp only at heq
  rw [heq, (counting_node h').1] at hdigits
  obtain ⟨hks, hr⟩ := append_inj' hdigits rfl
  have hks : ks' = ks := reverse_inj.mp hks
  have hr : 10 + r' = 10 + r := singleton_inj.mp hr
  exact hne (Prod.ext (by omega) hks.symm)

/-- Block 268 of a file without an indirect block is not mapped. It is found in the superblock, as
the number of inodes. -/
theorem superblock_found : mappedBlock largeVolume.disk 2048 Bytes.zero 268 = 0 ∧
    (getBlockFromInode Bytes.zero 268 largeGeo largeVolume).map (·.1) = some 32 := by
  decide +kernel

end FiniteMap

end Crius.Ext2
