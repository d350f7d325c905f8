import Crius.Ext2.InodeSlots
import Crius.Ext2.Bitmaps
import Crius.Lib.RefCount

/-!
# Blocks that the map does not record

`ext2_write_at` and `add_dirent` take a block with `ext2_alloc_block` and hand it to
`set_block_in_inode`, whose result they do not look at. The traced functions below are the
same code, which notes beside its result the blocks that it took. None of the two frees a block.
-/
namespace Crius.Ext2

open Abi Prod

/-- A block that was taken for a logical block, and whether the map has recorded it. -/
structure Taken where
  logical : ℕ
  block : ℕ
  recorded : Bool
  deriving DecidableEq, Repr

/-! ## The traced write -/

/-- The table that the setter has taken for a logical block. -/
def tableTaken (inode inode' : Bytes) (logical : ℕ) : List Taken :=
  if 12 ≤ logical ∧ iBlock inode 12 = 0 ∧ iBlock inode' 12 ≠ 0 then
    [⟨logical, iBlock inode' 12, true⟩]
  else []

/-- `blockForWrite` -/
def tracedBlock (inode : Bytes) (logical offInBlk chunk : ℕ) (blockBuf : Bytes) :
    M (Option (ℕ × Bytes × Bytes) × List Taken) := do
  let phys ← getBlockFromInode inode logical
  if phys = 0 then
    let phys ← allocBlock
    if phys = 0 then return (none, [])
    else
      let (ok, inode') ← setBlockInInode inode logical phys
      return (some (phys, inode', Bytes.zero), ⟨logical, phys, ok⟩ :: tableTaken inode inode' logical)
  else if 0 < offInBlk ∨ chunk < (← read).blockSize then
    let (_, blockBuf) ← readBlock phys blockBuf
    return (some (phys, inode, blockBuf), [])
  else return (some (phys, inode, Bytes.zero), [])

/-- `writeLoop` -/
def tracedLoop (buf : Bytes) (len : ℕ) : ℕ → ℕ → ℕ → Bytes → Bytes →
    M (Option (ℕ × ℕ × Bytes) × List Taken)
  | 0, pos, fileOffset, _, inode => return (some (pos, fileOffset, inode), [])
  | fuel + 1, pos, fileOffset, blockBuf, inode => do
    if len ≤ pos then return (some (pos, fileOffset, inode), [])
    else
      let bs := (← read).blockSize
      let logical := u32 (← div fileOffset bs)
      let offInBlk := fileOffset % bs
      let chunk := min (bs - offInBlk) (len - pos)
      match ← tracedBlock inode logical offInBlk chunk blockBuf with
      | (none, taken) => return (none, taken)
      | (some (phys, inode, blockBuf), taken) =>
        let blockBuf := blockBuf.blit offInBlk (buf.shift pos) chunk
        let _ ← writeBlock phys blockBuf
        let (r, rest) ← tracedLoop buf len fuel (pos + chunk) (fileOffset + chunk) blockBuf inode
        return (r, taken ++ rest)

/-- `ext2_write_at` -/
def tracedWriteAt (ino offset : ℕ) (buf : Bytes) (len : ℕ) : M (Int × List Taken) := do
  match ← readInode ino with
  | none => return (-ENOENT, [])
  | some inode =>
    if fileType inode ≠ sIfreg then return (-ENOENT, [])
    else
      match ← kmalloc with
      | none => return (-ENOENT, [])
      | some blockBuf =>
        match ← tracedLoop buf len len 0 offset blockBuf inode with
        | (none, taken) => return (-ENOENT, taken)
        | (some (pos, fileOffset, inode), taken) =>
          if ← writeInode ino (← grow inode fileOffset) then return (asInt pos, taken)
          else return (- Abi.EIO, taken)

theorem blockForWrite_eq_traced (inode : Bytes) (logical offInBlk chunk : ℕ) (blockBuf : Bytes) :
    blockForWrite inode logical offInBlk chunk blockBuf =
      fst <$> tracedBlock inode logical offInBlk chunk blockBuf := by
  unfold blockForWrite tracedBlock
  simp only [map_bind, apply_ite (fst <$> ·), map_pure]

theorem writeLoop_eq_traced (buf : Bytes) (len fuel pos fileOffset : ℕ) (blockBuf inode : Bytes) :
    writeLoop buf len fuel pos fileOffset blockBuf inode =
      fst <$> tracedLoop buf len fuel pos fileOffset blockBuf inode := by
  induction fuel generalizing pos fileOffset blockBuf inode with
  | zero => rw [writeLoop, tracedLoop, map_pure]
  | succ fuel ih =>
    rw [writeLoop, tracedLoop]
    simp only [map_bind, apply_ite (fst <$> ·), map_pure, blockForWrite_eq_traced,
      bind_map_left]
    split
    · rfl
    apply bind_congr
    intro g
    apply bind_congr
    intro q
    apply bind_congr
    intro p
    obtain ⟨r, taken⟩ := p
    cases r with
    | none => rfl
    | some r =>
      obtain ⟨phys, inode', blockBuf'⟩ := r
      simp only [map_bind, ih, bind_pure_comp, Functor.map_map]

/-- The trace changes nothing. -/
theorem writeAt_eq_traced (ino offset : ℕ) (buf : Bytes) (len : ℕ) :
    writeAt ino offset buf len = fst <$> tracedWriteAt ino offset buf len := by
  unfold writeAt tracedWriteAt
  simp only [map_bind]
  apply bind_congr
  intro r
  cases r with
  | none => rfl
  | some inode =>
    simp only [apply_ite (fst <$> ·), map_pure, map_bind]
    split
    · rfl
    apply bind_congr
    intro r
    cases r with
    | none => rfl
    | some blockBuf =>
      simp only [map_bind, writeLoop_eq_traced, bind_map_left]
      apply bind_congr
      intro p
      obtain ⟨r, taken⟩ := p
      cases r with
      | none => rfl
      | some r =>
        obtain ⟨pos, fileOffset, inode'⟩ := r
        simp only [map_bind, apply_ite (fst <$> ·), map_pure]

/-! ## The traced growth of a directory -/

/-- `add_dirent` -/
def tracedAddDirent (dirIno child : ℕ) (name : List UInt8) (type : ℕ) : M (Bool × List Taken) := do
  match ← readInode dirIno with
  | none => return (false, [])
  | some inode =>
    match ← kmalloc with
    | none => return (false, [])
    | some buf =>
      match ← placeLoop inode child name type placeRounds (iSize inode) 0 buf with
      | none => return (false, [])
      | some (.inl (phys, buf)) =>
        let _ ← writeBlock phys buf
        return (true, [])
      | some (.inr logical) =>
        let newBlock ← allocBlock
        if newBlock = 0 then return (false, [])
        else
          let bs := (← read).blockSize
          let _ ← writeBlock newBlock ((putRecord Bytes.zero 0 child name type).put16 4 bs)
          let (ok, inode') ← setBlockInInode inode logical newBlock
          let _ ← writeInode dirIno
            (setBlocks (setSize inode' (iSize inode' + bs)) (iBlocks inode' + bs / 512))
          return (true, ⟨logical, newBlock, ok⟩ :: tableTaken inode inode' logical)

/-- The trace changes nothing. -/
theorem addDirent_eq_traced (dirIno child : ℕ) (name : List UInt8) (type : ℕ) :
    addDirent dirIno child name type = fst <$> tracedAddDirent dirIno child name type := by
  unfold addDirent tracedAddDirent
  simp only [map_bind]
  apply bind_congr
  intro r
  cases r with
  | none => rfl
  | some inode =>
    simp only [map_bind]
    apply bind_congr
    intro r
    cases r with
    | none => rfl
    | some buf =>
      simp only [map_bind]
      apply bind_congr
      intro r
      cases r with
      | none => rfl
      | some place =>
        cases place with
        | inl p => simp only [map_bind, map_pure]
        | inr logical => simp only [map_bind, apply_ite (fst <$> ·), map_pure]

/-! ## The blocks that stay allocated -/

/-- The number of free blocks, by the descriptors of the groups. -/
def freeTotal (g : Geo) (v : Vol) : ℕ :=
  ∑ group ∈ Finset.range g.numGroups, freeCount blockBitmap v group

instance (g : Geo) : Described (freeTotal g) where

section Spent

variable {g : Geo} {v v' : Vol} {n : ℕ} (hbd : g.hasBd = true) (hsectors : 512 ∣ g.blockSize)

/-- A free bit that is taken is counted. -/
theorem Allocates.freeTotal {group idx : ℕ} (h : Allocates blockBitmap g v group idx v') :
    freeTotal g v = freeTotal g v' + 1 := by
  have hcount (a : ℕ) : freeCount blockBitmap v' a =
      if a = group then freeCount blockBitmap v group - 1 else freeCount blockBitmap v a := by
    unfold freeCount
    rw [h.bgds]
    split
    · rename_i heq
      have hlt : freeCount blockBitmap v group < 2 ^ 16 := Bytes.u16At_lt _ _
      have hpos := h.free.counted
      rw [heq, Bytes.u16At_put16]
      change dec16 (freeCount blockBitmap v group) % 2 ^ 16 = freeCount blockBitmap v group - 1
      unfold dec16
      omega
    · apply Bytes.u16At_congr
      intro i h1 h2
      simp only [blockBitmap, bgdSize] at *
      exact Bytes.put16_outside (by omega)
  have hmem := Finset.mem_range.mpr h.free.inGroups
  unfold Ext2.freeTotal
  have hsum := Lib.RefCount.sum_exchange hmem fun a _ ha => (hcount a).trans (if_neg ha)
  rw [hcount group, if_pos rfl] at hsum
  have := h.free.counted
  omega

include hbd hsectors

theorem allocBlock_spent {block : ℕ} (h : allocBlock g v = some (block, v', n)) :
    block < 2 ^ 32 ∧ freeTotal g v' + (if block = 0 then 0 else 1) ≤ freeTotal g v := by
  rcases allocBlock_cases hbd hsectors h with ⟨rfl, hsame⟩ | ⟨group, idx, rfl, hall⟩
  · have hbgds : v'.bgds = v.bgds := congrArg (fun c : Bytes × Bytes × Bytes => c.2.1) hsame
    refine ⟨by decide, Nat.le_of_eq ?_⟩
    unfold freeTotal freeCount
    rw [hbgds]
    rfl
  · have htotal := hall.freeTotal
    refine ⟨Nat.mod_lt _ (by decide), ?_⟩
    split <;> omega

theorem setBlockInInode_spent {inode inode' : Bytes} {logical phys : ℕ} {ok : Bool}
    (h : setBlockInInode inode logical phys g v = some ((ok, inode'), v', n)) :
    iSize inode' = iSize inode ∧
      freeTotal g v' + (tableTaken inode inode' logical).length ≤ freeTotal g v := by
  have hset (k x : ℕ) : iSize (setBlock inode k x) = iSize inode :=
    Bytes.u32At_put32_of_ne (by omega)
  have hnone {w : Vol} {ok' : Bool} {k : ℕ} (hw : freeTotal g w = freeTotal g v)
      (h : (pure (ok', inode) : M (Bool × Bytes)) g w = some ((ok, inode'), v', k)) :
      iSize inode' = iSize inode ∧
        freeTotal g v' + (tableTaken inode inode' logical).length ≤ freeTotal g v := by
    cases h
    refine ⟨rfl, Nat.le_of_eq ?_⟩
    rw [tableTaken, if_neg (by tauto), hw]
    rfl
  unfold setBlockInInode at h
  split at h
  · cases h
    refine ⟨hset _ _, Nat.le_of_eq ?_⟩
    rw [tableTaken, if_neg (by omega)]
    rfl
  rename_i hlogical
  rw [M.read_bind_apply] at h
  obtain ⟨r, v₁, _, hv₁, h⟩ := Steady.of_bind (f := freeTotal g) h
  cases r with
  | none => exact hnone hv₁ h
  | some buf =>
    dsimp only at h
    split at h
    · split at h
      · rename_i hin hzero
        obtain ⟨block, v₂, n₃, n₄, halloc, h⟩ := M.of_bind h
        obtain ⟨hsmall, hspent⟩ := allocBlock_spent hbd hsectors halloc
        have htable : iBlock (setBlock inode 12 block) 12 = block := by
          rw [iBlock_setBlock, Nat.mod_eq_of_lt hsmall]
        split at h
        · rename_i hblock
          cases h
          rw [hblock] at htable
          refine ⟨hset _ _, ?_⟩
          rw [tableTaken, if_neg (by simp [htable]), ← hv₁]
          rwa [if_pos hblock] at hspent
        · rename_i hblock
          obtain ⟨_, v₃, _, hv₃, h⟩ := Steady.of_bind (f := freeTotal g) h
          cases h
          refine ⟨hset _ _, ?_⟩
          rw [tableTaken, htable, if_pos ⟨by omega, hzero, hblock⟩, ← hv₁, hv₃]
          rwa [if_neg hblock] at hspent
      · obtain ⟨p, v₂, _, hv₂, h⟩ := Steady.of_bind (f := freeTotal g) h
        obtain ⟨_, v₃, _, hv₃, h⟩ := Steady.of_bind (f := freeTotal g) h
        exact hnone (hv₃.trans (hv₂.trans hv₁)) h
    · exact hnone hv₁ h

theorem tracedBlock_spent {inode blockBuf : Bytes} {logical offInBlk chunk : ℕ}
    {r : Option (ℕ × Bytes × Bytes)} {taken : List Taken}
    (h : tracedBlock inode logical offInBlk chunk blockBuf g v = some ((r, taken), v', n)) :
    freeTotal g v' + taken.length ≤ freeTotal g v ∧ ∀ x ∈ r, iSize x.2.1 = iSize inode := by
  unfold tracedBlock at h
  obtain ⟨phys, v₁, _, hv₁, h⟩ := Steady.of_bind (f := freeTotal g) h
  rw [← hv₁]
  split at h
  · obtain ⟨block, v₂, n₃, n₄, halloc, h⟩ := M.of_bind h
    obtain ⟨-, hspent⟩ := allocBlock_spent hbd hsectors halloc
    split at h
    · rename_i hblock
      cases h
      rw [if_pos hblock] at hspent
      exact ⟨hspent, by simp⟩
    · rename_i hblock
      obtain ⟨p, v₃, _, _, hset, h⟩ := M.of_bind h
      obtain ⟨ok, inode'⟩ := p
      cases h
      rw [if_neg hblock] at hspent
      rw [List.length_cons]
      obtain ⟨hsize, hset⟩ := setBlockInInode_spent hbd hsectors hset
      exact ⟨by omega, by simpa using hsize⟩
  · rw [M.read_bind_apply] at h
    split at h
    · obtain ⟨p, v₂, _, hv₂, h⟩ := Steady.of_bind (f := freeTotal g) h
      cases h
      exact ⟨hv₂.le, by simp⟩
    · cases h
      exact ⟨le_rfl, by simp⟩

/-- A loop that is not stopped by a failed allocation writes everything, whether or not the blocks
that it takes are recorded. -/
theorem tracedLoop_spent {buf blockBuf inode : Bytes} {len fuel pos fileOffset : ℕ}
    {r : Option (ℕ × ℕ × Bytes)} {taken : List Taken} (hpos : pos ≤ len) (hfuel : len ≤ pos + fuel)
    (h : tracedLoop buf len fuel pos fileOffset blockBuf inode g v = some ((r, taken), v', n)) :
    freeTotal g v' + taken.length ≤ freeTotal g v ∧
      ∀ x ∈ r, x.1 = len ∧ x.2.1 = fileOffset + (len - pos) ∧ iSize x.2.2 = iSize inode := by
  induction fuel generalizing pos fileOffset blockBuf inode taken v n with
  | zero =>
    cases h
    exact ⟨le_rfl, by simp; omega⟩
  | succ fuel ih =>
    rw [tracedLoop] at h
    split at h
    · cases h
      exact ⟨le_rfl, by simp; omega⟩
    rw [M.read_bind_apply] at h
    obtain ⟨q, v₁, _, _, hdiv, h⟩ := M.of_bind h
    rw [div_apply] at hdiv
    split at hdiv
    · cases hdiv
    rename_i hbs
    cases hdiv
    obtain ⟨p, v₂, _, _, hblock, h⟩ := M.of_bind h
    obtain ⟨r₁, here⟩ := p
    obtain ⟨hspent, hsize⟩ := tracedBlock_spent hbd hsectors hblock
    cases r₁ with
    | none =>
      cases h
      exact ⟨hspent, by simp⟩
    | some r₁ =>
      obtain ⟨ok, v₃, _, hv₃, h⟩ := Steady.of_bind (f := freeTotal g) h
      obtain ⟨p, v₄, _, _, hrest, h⟩ := M.of_bind h
      obtain ⟨r₂, rest⟩ := p
      cases h
      have hmod := Nat.mod_lt fileOffset (Nat.pos_of_ne_zero hbs)
      have hchunk : 1 ≤ min (g.blockSize - fileOffset % g.blockSize) (len - pos) := by omega
      obtain ⟨hlater, hend⟩ := ih (by omega) (by omega) hrest
      rw [List.length_append]
      refine ⟨by omega, fun x hx => ?_⟩
      obtain ⟨h₁, h₂, h₃⟩ := hend x hx
      exact ⟨h₁, by omega, by rw [h₃, hsize _ rfl]⟩

omit hbd hsectors in
/-- A write ends before its loop, in the loop, or behind it with the inode. -/
theorem tracedWriteAt_cases {ino offset len : ℕ} {buf : Bytes} {r : Int} {taken : List Taken}
    (h : tracedWriteAt ino offset buf len g v = some ((r, taken), v', n)) :
    r = -ENOENT ∧ taken = [] ∧ v' = { v with clock := v'.clock } ∨
    ∃ inode blockBuf w p v₁ n₁ n₂, (∃ v₀ n₀, readInode ino g v = some (some inode, v₀, n₀)) ∧
      w = { v with clock := w.clock } ∧
      tracedLoop buf len len 0 offset blockBuf inode g w = some ((p, taken), v₁, n₁) ∧
      (p = none ∧ r = -ENOENT ∧ v' = v₁ ∨ ∃ pos fileOffset inode' ok,
        p = some (pos, fileOffset, inode') ∧ (grow inode' fileOffset >>= writeInode ino) g v₁ =
          some (ok, v', n₂) ∧ r = if ok then asInt pos else - Abi.EIO) := by
  have herror {w : Vol} {k : ℕ} (hw : w = { v with clock := w.clock })
      (h : (pure (-ENOENT, []) : M (Int × List Taken)) g w = some ((r, taken), v', k)) :
      r = -ENOENT ∧ taken = [] ∧ v' = { v with clock := v'.clock } := by
    simp only [M.pure_apply, Option.some.injEq, mk.injEq] at h
    obtain ⟨⟨rfl, rfl⟩, rfl, -⟩ := h
    exact ⟨rfl, rfl, hw⟩
  unfold tracedWriteAt at h
  obtain ⟨r₁, v₁, n₁, n₂, hread, h⟩ := M.of_bind h
  have hv₁ := Steady.later hread
  cases r₁ with
  | none => exact .inl (herror hv₁ h)
  | some inode =>
    dsimp only at h
    split at h
    · exact .inl (herror hv₁ h)
    obtain ⟨r₂, v₂, _, _, hmem, h⟩ := M.of_bind h
    have hv₂ : v₂ = { v with clock := v₂.clock } := by
      rw [Steady.later hmem, hv₁]
    cases r₂ with
    | none => exact .inl (herror hv₂ h)
    | some blockBuf =>
      obtain ⟨p, v₃, n₅, _, hloop, h⟩ := M.of_bind h
      obtain ⟨p, taken'⟩ := p
      cases p with
      | none =>
        simp only [M.pure_apply, Option.some.injEq, mk.injEq] at h
        obtain ⟨⟨rfl, rfl⟩, rfl, -⟩ := h
        exact .inr ⟨inode, blockBuf, v₂, none, v₃, n₅, 0, ⟨v₁, n₁, hread⟩, hv₂, hloop,
          .inl ⟨rfl, rfl, rfl⟩⟩
      | some p =>
        obtain ⟨pos, fileOffset, inode'⟩ := p
        obtain ⟨inode₁, v₄, n₇, _, hgrow, h⟩ := M.of_bind h
        obtain ⟨ok, v₅, n₉, _, hwrite, h⟩ := M.of_bind h
        have hlast : (grow inode' fileOffset >>= writeInode ino) g v₃ = some (ok, v₅, n₇ + n₉) :=
          M.bind_eq_some.mpr ⟨inode₁, v₄, n₇, n₉, hgrow, hwrite, rfl⟩
        refine .inr ⟨inode, blockBuf, v₂, some (pos, fileOffset, inode'), v₃, n₅, n₇ + n₉,
          ⟨v₁, n₁, hread⟩, hv₂, ?_⟩
        cases ok <;>
          simp only [Bool.false_eq_true, if_true, if_false, M.pure_apply, Option.some.injEq,
            mk.injEq] at h <;>
          obtain ⟨⟨rfl, rfl⟩, rfl, -⟩ := h <;>
          exact ⟨hloop, .inr ⟨pos, fileOffset, inode', _, rfl, hlast, by simp⟩⟩

/-- A write that does not end with an error returns `(int)len`, whether or not its blocks are
recorded. -/
theorem tracedWriteAt_spent {ino offset len : ℕ} {buf : Bytes} {r : Int} {taken : List Taken}
    (h : tracedWriteAt ino offset buf len g v = some ((r, taken), v', n)) :
    freeTotal g v' + taken.length ≤ freeTotal g v ∧
      (r = -ENOENT ∨ r = - Abi.EIO ∨ r = asInt len) := by
  rcases tracedWriteAt_cases h with ⟨rfl, rfl, hv'⟩ |
    ⟨inode, blockBuf, w, p, v₁, n₁, n₂, -, hw, hloop, hend⟩
  · rw [hv']
    exact ⟨le_rfl, .inl rfl⟩
  obtain ⟨hspent, hall⟩ := tracedLoop_spent hbd hsectors (by omega) (by omega) hloop
  have hstart : freeTotal g w = freeTotal g v := by rw [hw]; rfl
  rw [hstart] at hspent
  rcases hend with ⟨-, hr, rfl⟩ | ⟨pos, fileOffset, inode', ok, rfl, hlast, hr⟩
  · exact ⟨hspent, .inl hr⟩
  have hsame : freeTotal g v' = freeTotal g v₁ := by
    unfold grow at hlast
    exact Steady.same hlast
  have hpos : pos = len := (hall _ rfl).1
  rw [hr, hsame, hpos]
  refine ⟨hspent, .inr ?_⟩
  split
  · exact .inr rfl
  · exact .inl rfl

theorem tracedAddDirent_spent {dirIno child type : ℕ} {name : List UInt8} {ok : Bool}
    {taken : List Taken}
    (h : tracedAddDirent dirIno child name type g v = some ((ok, taken), v', n)) :
    freeTotal g v' + taken.length ≤ freeTotal g v ∧ (taken ≠ [] → ok = true) := by
  have hnone {b : Bool} {w : Vol} {k : ℕ} (hw : freeTotal g w = freeTotal g v)
      (h : (pure (b, []) : M (Bool × List Taken)) g w = some ((ok, taken), v', k)) :
      freeTotal g v' + taken.length ≤ freeTotal g v ∧ (taken ≠ [] → ok = true) := by
    cases h
    exact ⟨hw.le, fun hne => absurd rfl hne⟩
  unfold tracedAddDirent at h
  obtain ⟨r₁, v₁, _, hv₁, h⟩ := Steady.of_bind (f := freeTotal g) h
  cases r₁ with
  | none => exact hnone hv₁ h
  | some inode =>
    obtain ⟨r₂, v₂, _, hv₂, h⟩ := Steady.of_bind (f := freeTotal g) h
    rw [hv₁] at hv₂
    cases r₂ with
    | none => exact hnone hv₂ h
    | some buf =>
      obtain ⟨r₃, v₃, _, hv₃, h⟩ := Steady.of_bind (f := freeTotal g) h
      rw [hv₂] at hv₃
      obtain _ | p | logical := r₃
      · exact hnone hv₃ h
      · obtain ⟨b, v₄, _, hv₄, h⟩ := Steady.of_bind (f := freeTotal g) h
        exact hnone (hv₄.trans hv₃) h
      · obtain ⟨block, v₄, n₇, n₈, halloc, h⟩ := M.of_bind h
        obtain ⟨-, hspent⟩ := allocBlock_spent hbd hsectors halloc
        rw [hv₃] at hspent
        split at h
        · rename_i hblock
          cases h
          rw [if_pos hblock] at hspent
          exact ⟨hspent, fun hne => absurd rfl hne⟩
        · rename_i hblock
          rw [M.read_bind_apply] at h
          obtain ⟨b, v₅, _, hv₅, h⟩ := Steady.of_bind (f := freeTotal g) h
          obtain ⟨p, v₆, _, _, hset, h⟩ := M.of_bind h
          obtain ⟨b', v₇, _, hv₇, h⟩ := Steady.of_bind (f := freeTotal g) h
          obtain ⟨ok', inode'⟩ := p
          cases h
          rw [if_neg hblock] at hspent
          obtain ⟨-, hset⟩ := setBlockInInode_spent hbd hsectors hset
          refine ⟨?_, fun _ => rfl⟩
          dsimp only [List.length_cons]
          omega

end Spent

/-! ## The file that was written -/

instance : Uncounted inodeTable where
  count _ _ _ _ hoff := funext fun _ => u32At_count (by omega) hoff

instance (g : Geo) : Uncounted fun v => bitmapAt g v blockBitmap.block where
  count _ _ _ _ hoff := funext fun _ => congrArg (· * g.blockSize) (u32At_count (by decide) hoff)

section Uncounted

variable {γ : Type} {f : Vol → γ} [Uncounted f]

instance (inode : Bytes) (logical offInBlk chunk : ℕ) (blockBuf : Bytes) :
    Steady f (tracedBlock inode logical offInBlk chunk blockBuf) := by
  unfold tracedBlock
  repeat' first | infer_instance | refine .bind ?_ fun _ => ?_ | split

instance (buf : Bytes) (len fuel pos fileOffset : ℕ) (blockBuf inode : Bytes) :
    Steady f (tracedLoop buf len fuel pos fileOffset blockBuf inode) := by
  induction fuel generalizing pos fileOffset blockBuf inode with
  | zero =>
    unfold tracedLoop
    infer_instance
  | succ fuel ih =>
    unfold tracedLoop
    repeat' first | exact ih _ _ _ _ | infer_instance | refine .bind ?_ fun _ => ?_ | split

end Uncounted

/-- An inode on the disk. -/
def inodeOn (g : Geo) (v : Vol) (ino : ℕ) : Bytes := v.disk.shift (inodeSlot g v ino)

section Written

variable {g : Geo} {v v' : Vol} {n ino offset len : ℕ} {buf : Bytes} {r : Int} {taken : List Taken}
  (hw : Working g v) (ht : InodeTables g v) (hi : HasInode g ino)

theorem iSize_grow {inode inode' : Bytes} {fileOffset : ℕ}
    (h : grow inode fileOffset g v = some (inode', v', n)) :
    v' = v ∧ (fileOffset < 2 ^ 32 → iSize inode' = max (iSize inode) fileOffset) := by
  unfold grow at h
  rw [M.read_bind_apply] at h
  obtain ⟨q, v₁, _, _, hdiv, h⟩ := M.of_bind h
  rw [div_apply] at hdiv
  split at hdiv
  · cases hdiv
  cases hdiv
  cases h
  refine ⟨rfl, fun hsmall => ?_⟩
  have hset (i : Bytes) (x : ℕ) : iSize (setBlocks i x) = iSize i :=
    Bytes.u32At_put32_of_ne (by omega)
  rw [hset]
  split
  · rename_i hlt
    rw [Nat.max_eq_right (by omega)]
    exact (Bytes.u32At_put32 _ _ _).trans (Nat.mod_eq_of_lt hsmall)
  · rename_i hlt
    exact (Nat.max_eq_left (by omega)).symm

include hw ht hi

/-- The loop leaves the tables in their places, and the inode is written behind it. -/
theorem written_inode {inode blockBuf inode' : Bytes} {w v₁ : Vol} {fileOffset n₁ n₂ : ℕ}
    {p : Option (ℕ × ℕ × Bytes)} {ok : Bool} (hstart : w = { v with clock := w.clock })
    (hloop : tracedLoop buf len len 0 offset blockBuf inode g w = some ((p, taken), v₁, n₁))
    (hlast : (grow inode' fileOffset >>= writeInode ino) g v₁ = some (ok, v', n₂)) :
    ∃ inode₁ n₃, grow inode' fileOffset g v₁ = some (inode₁, v₁, n₃) ∧ ok = true ∧
      v'.bgds = v₁.bgds ∧ inodeSlot g v₁ ino = inodeSlot g v ino ∧
      v'.disk = v₁.disk.blit (inodeSlot g v ino) inode₁ inodeBytes := by
  obtain ⟨inode₁, v₂, n₃, _, hgrow, hwrite⟩ := M.of_bind hlast
  obtain ⟨rfl, -⟩ := iSize_grow hgrow
  have htable : inodeTable v₂ = inodeTable v := by
    rw [Steady.same (f := inodeTable) hloop, hstart]
    rfl
  have horacle : v₂.oracle = v.oracle := by
    rw [Steady.same (f := Vol.oracle) hloop, hstart]
  have hw₂ : Working g v₂ := ⟨hw.mounted, hw.device, hw.sectors, by simpa [horacle] using hw.oracle⟩
  have ht₂ : InodeTables g v₂ := ht.congr fun a => by rw [htable]
  have hslot : inodeSlot g v₂ ino = inodeSlot g v ino :=
    inodeSlot_congr (fun a => by rw [htable]) ino
  obtain ⟨hok, hv'⟩ := (ht₂.writeInode hw₂ hi inode₁).result hwrite
  rw [hslot] at hv'
  exact ⟨inode₁, n₃, hgrow, hok, by rw [hv'], hslot, by rw [hv']⟩

/-- A write that does not fail reports all of its bytes, and the file ends behind them. -/
theorem tracedWriteAt_size (hsmall : offset + len < 2 ^ 32)
    (h : tracedWriteAt ino offset buf len g v = some ((r, taken), v', n)) (hr : r ≠ -ENOENT) :
    r = asInt len ∧ iSize (inodeOn g v' ino) = max (iSize (inodeOn g v ino)) (offset + len) := by
  rcases tracedWriteAt_cases h with ⟨hfail, -⟩ |
    ⟨inode, blockBuf, w, p, v₁, n₁, n₂, ⟨v₀, n₀, hread⟩, hstart, hloop, hend⟩
  · exact absurd hfail hr
  rcases hend with ⟨-, hfail, -⟩ | ⟨pos, fileOffset, inode', ok, rfl, hlast, rfl⟩
  · exact absurd hfail hr
  obtain ⟨-, hall⟩ := tracedLoop_spent hw.device hw.sectors (by omega) (by omega) hloop
  have hpos : pos = len := (hall _ rfl).1
  have hoffset : fileOffset = offset + len := (hall _ rfl).2.1
  have hsize : iSize inode' = iSize inode := (hall _ rfl).2.2
  subst hpos hoffset
  obtain ⟨inode₁, n₃, hgrow, rfl, hbgds, hslot, hdisk⟩ := written_inode hw ht hi hstart hloop hlast
  obtain ⟨hinode, -⟩ := (ht.readInode hw hi).result hread
  have hold : iSize inode = iSize (inodeOn g v ino) := by
    rw [Option.some.inj hinode]
    apply Bytes.u32At_congr
    intro i h1 h2
    rw [Bytes.blit_inside ⟨by omega, by simp only [inodeBytes]; omega⟩]
    rfl
  have hnew : iSize (inodeOn g v' ino) = iSize inode₁ := by
    have hslot' : inodeSlot g v' ino = inodeSlot g v ino := by
      rw [← hslot]
      exact inodeSlot_congr (fun _ => by rw [inodeTable, hbgds, inodeTable]) ino
    apply Bytes.u32At_congr
    intro i h1 h2
    rw [inodeOn, hslot', hdisk, Bytes.shift_apply,
      Bytes.blit_inside ⟨by omega, by simp only [inodeBytes]; omega⟩, Nat.add_sub_cancel_left]
  refine ⟨if_pos rfl, ?_⟩
  rw [hnew, (iSize_grow hgrow).2 hsmall, hsize, hold]

omit hw ht hi

theorem tracedLoop_done {fuel pos fileOffset : ℕ} {blockBuf inode : Bytes} (h : len ≤ pos) :
    tracedLoop buf len fuel pos fileOffset blockBuf inode =
      pure (some (pos, fileOffset, inode), []) := by
  cases fuel with
  | zero => rw [tracedLoop]
  | succ fuel => rw [tracedLoop, if_pos h]

/-- Behind the single indirect blocks nothing is recorded. -/
theorem setBlockInInode_far {inode : Bytes} {logical phys : ℕ} {p : Bool × Bytes}
    (hfar : 12 + g.blockSize / 4 ≤ logical)
    (h : setBlockInInode inode logical phys g v = some (p, v', n)) :
    p = (false, inode) ∧ v' = { v with clock := v'.clock } := by
  unfold setBlockInInode at h
  rw [if_neg (by omega), M.read_bind_apply] at h
  obtain ⟨r, v₁, _, _, hmem, h⟩ := M.of_bind h
  have hv₁ := Steady.later hmem
  cases r with
  | none =>
    cases h
    exact ⟨rfl, hv₁⟩
  | some buf =>
    dsimp only at h
    rw [if_neg (by omega)] at h
    cases h
    exact ⟨rfl, hv₁⟩

/-- The block of a bit. -/
def bitBlock (g : Geo) (group idx : ℕ) : ℕ := u32 (g.firstDataBlock + group * g.blocksPerGroup + idx)

/-- The byte of a free bit is not among those that a write to its block and to an inode replaces. -/
def BitsApart (g : Geo) (v : Vol) (ino : ℕ) : Prop :=
  ∀ group idx, FreeBit blockBitmap g v group idx →
    ¬Synced g (bitmapAt g v blockBitmap.block group + idx / 8) ∧
    ¬InBlock g (bitBlock g group idx) (bitmapAt g v blockBitmap.block group + idx / 8) ∧
    (bitmapAt g v blockBitmap.block group + idx / 8 < inodeSlot g v ino ∨
      inodeSlot g v ino + inodeBytes ≤ bitmapAt g v blockBitmap.block group + idx / 8)

theorem tracedBlock_far {inode blockBuf : Bytes} {logical offInBlk chunk : ℕ}
    {p : Option (ℕ × Bytes × Bytes)} (hbd : g.hasBd = true) (hsectors : 512 ∣ g.blockSize)
    (hfar : 12 + g.blockSize / 4 ≤ logical)
    (h : tracedBlock inode logical offInBlk chunk blockBuf g v = some ((p, taken), v', n)) :
    taken = [] ∨ ∃ group idx w w', taken = [⟨logical, bitBlock g group idx, false⟩] ∧
      p = some (bitBlock g group idx, inode, Bytes.zero) ∧ w = { v with clock := w.clock } ∧
      Allocates blockBitmap g w group idx w' ∧ v' = { w' with clock := v'.clock } := by
  unfold tracedBlock at h
  obtain ⟨phys, v₁, _, _, hget, h⟩ := M.of_bind h
  have hv₁ := Steady.later hget
  split at h
  · obtain ⟨block, v₂, n₃, n₄, halloc, h⟩ := M.of_bind h
    split at h
    · cases h
      exact .inl rfl
    rename_i hblock
    obtain ⟨q, v₃, _, _, hset, h⟩ := M.of_bind h
    obtain ⟨rfl, hv₃⟩ := setBlockInInode_far hfar hset
    rcases allocBlock_cases hbd hsectors halloc with ⟨hzero, -⟩ | ⟨group, idx, rfl, hall⟩
    · exact absurd hzero hblock
    have htable : tableTaken inode inode logical = [] := if_neg (by tauto)
    dsimp only at h
    rw [htable] at h
    cases h
    exact .inr ⟨group, idx, v₁, v₂, rfl, rfl, hv₁, hall, hv₃⟩
  · left
    rw [M.read_bind_apply] at h
    split at h
    · obtain ⟨q, v₂, n₃, n₄, -, h⟩ := M.of_bind h
      cases h
      rfl
    · cases h
      rfl

/-- A write to one block behind the single indirect blocks takes a bit. -/
theorem tracedLoop_far {inode blockBuf : Bytes} {p : Option (ℕ × ℕ × Bytes)} (hw : Working g v)
    (hoffset : offset < 2 ^ 32) (hone : offset % g.blockSize + len ≤ g.blockSize)
    (hfar : 12 + g.blockSize / 4 ≤ offset / g.blockSize) (hapart : BitsApart g v ino)
    (h : tracedLoop buf len len 0 offset blockBuf inode g v = some ((p, taken), v', n))
    (htaken : taken ≠ []) :
    ∃ group idx, taken = [⟨offset / g.blockSize, bitBlock g group idx, false⟩] ∧
      FreeBit blockBitmap g v group idx ∧ bitAt g v' blockBitmap.block group idx = true := by
  have hbitmap (group : ℕ) : bitmapAt g v' blockBitmap.block group =
      bitmapAt g v blockBitmap.block group :=
    congrFun (Steady.same (f := fun v => bitmapAt g v blockBitmap.block) h) group
  cases len with
  | zero =>
    rw [tracedLoop_done (by omega)] at h
    cases h
    exact absurd rfl htaken
  | succ fuel =>
    have hlogical : u32 (offset / g.blockSize) = offset / g.blockSize :=
      Nat.mod_eq_of_lt (Nat.lt_of_le_of_lt (Nat.div_le_self _ _) hoffset)
    have hchunk : min (g.blockSize - offset % g.blockSize) (fuel + 1 - 0) = fuel + 1 := by omega
    rw [tracedLoop, if_neg (by omega), M.read_bind_apply] at h
    obtain ⟨q, v₁, _, _, hdiv, h⟩ := M.of_bind h
    rw [div_apply, if_neg (by omega)] at hdiv
    cases hdiv
    dsimp only at h
    rw [hlogical, hchunk] at h
    obtain ⟨q, v₂, _, _, hblock, h⟩ := M.of_bind h
    obtain ⟨q, here⟩ := q
    rcases tracedBlock_far hw.device hw.sectors hfar hblock with
      rfl | ⟨group, idx, w, w', rfl, rfl, hstart, hall, hv₂⟩
    · -- nothing was taken for the block, and there is no other
      cases q with
      | none =>
        cases h
        exact absurd rfl htaken
      | some q =>
        obtain ⟨_, v₃, n₅, n₆, -, h⟩ := M.of_bind h
        rw [tracedLoop_done (by omega)] at h
        cases h
        exact absurd rfl htaken
    obtain ⟨_, v₃, n₅, n₆, hwrite, h⟩ := M.of_bind h
    rw [tracedLoop_done (by omega)] at h
    cases h
    have hfree : FreeBit blockBitmap g v group idx :=
      hall.free.congr (by rw [hstart]; rfl) (by rw [hstart]; rfl) (by rw [hstart])
    obtain ⟨hsynced, hblock, -⟩ := hapart group idx hfree
    obtain ⟨c, hdisk⟩ := hall.disk
    refine ⟨group, idx, rfl, hfree, ?_⟩
    have hkeep := (Frame.writeBlock hw.sectors hblock _).keeps hwrite
    have hbyte := hdisk _ hsynced
    rw [hstart] at hbyte
    simp only [hw.oracle, if_true] at hbyte
    have hset : w'.disk (bitmapAt g v blockBitmap.block group + idx / 8) = UInt8.ofNat
        ((v.disk (bitmapAt g v blockBitmap.block group + idx / 8)).toNat + 2 ^ (idx % 8)) :=
      hbyte.trans (Function.update_self ..)
    rw [bitAt, hbitmap, hkeep, hv₂]
    exact (restored (Nat.mod_lt _ (by decide)) hfree.clear (hset.trans (if_pos rfl).symm)).1

/-- The bit is still set behind the write of the inode. -/
theorem tracedWriteAt_far (hw : Working g v) (ht : InodeTables g v) (hi : HasInode g ino)
    (hsmall : offset + len < 2 ^ 32)
    (hone : offset % g.blockSize + len ≤ g.blockSize)
    (hfar : 12 + g.blockSize / 4 ≤ offset / g.blockSize) (hapart : BitsApart g v ino)
    (h : tracedWriteAt ino offset buf len g v = some ((r, taken), v', n)) (htaken : taken ≠ []) :
    ∃ group idx, taken = [⟨offset / g.blockSize, bitBlock g group idx, false⟩] ∧
      bitAt g v blockBitmap.block group idx = false ∧
      bitAt g v' blockBitmap.block group idx = true := by
  rcases tracedWriteAt_cases h with ⟨-, hnone, -⟩ |
    ⟨inode, blockBuf, w, p, v₁, n₁, n₂, -, hstart, hloop, hend⟩
  · exact absurd hnone htaken
  have hw' : Working g w := ⟨hw.mounted, hw.device, hw.sectors, by rw [hstart]; exact hw.oracle⟩
  have hslot : inodeSlot g w ino = inodeSlot g v ino := by rw [hstart]; rfl
  have hbitmap : bitmapAt g w = bitmapAt g v := by rw [hstart]; rfl
  have hfree {group idx : ℕ} (hfree : FreeBit blockBitmap g w group idx) :
      FreeBit blockBitmap g v group idx :=
    hfree.congr (by rw [hstart]; rfl) (by rw [hstart]; rfl) (by rw [hstart])
  have hapart' : BitsApart g w ino := by
    intro group idx hbit
    rw [hbitmap, hslot]
    exact hapart group idx (hfree hbit)
  obtain ⟨group, idx, htaken, hbit, hset⟩ :=
    tracedLoop_far hw' (by omega) hone hfar hapart' hloop htaken
  refine ⟨group, idx, htaken, (hfree hbit).clear, ?_⟩
  rcases hend with ⟨-, -, rfl⟩ | ⟨pos, fileOffset, inode', ok, -, hlast, -⟩
  · exact hset
  obtain ⟨inode₁, n₃, -, -, hbgds, -, hdisk⟩ := written_inode hw ht hi hstart hloop hlast
  obtain ⟨-, -, hout⟩ := hapart group idx (hfree hbit)
  have hplace : bitmapAt g v' blockBitmap.block group = bitmapAt g v₁ blockBitmap.block group := by
    rw [bitmapAt, hbgds, bitmapAt]
  have hloopPlace : bitmapAt g v₁ blockBitmap.block group =
      bitmapAt g v blockBitmap.block group := by
    rw [← hbitmap]
    exact congrFun (Steady.same (f := fun v => bitmapAt g v blockBitmap.block) hloop) group
  rw [bitAt, hplace, hloopPlace, hdisk, Bytes.blit_outside hout, ← hloopPlace]
  exact hset

end Written

/-! ## What a refused block leads to -/

/-- The map has not recorded some block that was taken. -/
def Refused (taken : List Taken) : Prop := ∃ t ∈ taken, t.recorded = false

/-- As many blocks are allocated as the map has recorded. -/
def AllLinked (g : Geo) (v v' : Vol) (taken : List Taken) : Prop :=
  freeTotal g v = freeTotal g v' + taken.countP (·.recorded)

theorem Refused.ne_nil {taken : List Taken} (h : Refused taken) : taken ≠ [] := by
  obtain ⟨t, ht, -⟩ := h
  exact List.ne_nil_of_mem ht

theorem Refused.not_allLinked {g : Geo} {v v' : Vol} {taken : List Taken} (h : Refused taken)
    (hspent : freeTotal g v' + taken.length ≤ freeTotal g v) : ¬AllLinked g v v' taken := by
  obtain ⟨t, ht, hrefused⟩ := h
  have hlt : taken.countP (·.recorded) < taken.length := by
    apply List.countP_lt_length_iff.mpr
    exact ⟨t, ht, by simp [hrefused]⟩
  unfold AllLinked
  omega

/-- The bytes of a volume of 64 blocks that are not zero: the superblock, the group descriptor, the
two bitmaps and inode 12, which is an empty file. -/
def fileVolume : List (ℕ × UInt8) :=
  [(1028, 64), (1036, 57), (1040, 5), (1044, 1), (1057, 32), (1064, 16),
    (2048, 3), (2052, 4), (2056, 5), (2060, 57), (2062, 5),
    (3072, 0x7F), (4096, 0xFF), (4097, 0x0F), (6528, 0xA4), (6529, 0x81), (6554, 1)]

def fileGeo : Geo where
  mounted := true
  hasBd := true
  blockSize := 1024
  blocksPerGroup := 8192
  inodesPerGroup := 16
  inodeSize := 128
  numGroups := 1
  firstDataBlock := 1

def fileVol : Vol where
  sb i := (fileVolume.lookup (1024 + i)).getD 0
  bgds i := (fileVolume.lookup (2048 + i)).getD 0
  disk i := (fileVolume.lookup i).getD 0
  oracle _ := true
  clock := 0
  junk := Bytes.zero

theorem fileVol_tables : InodeTables fileGeo fileVol :=
  ⟨by decide, by decide, by decide, by decide, by decide, fun a ha b hb hne => by
    have ha' : a < 1 := ha
    have hb' : b < 1 := hb
    omega⟩

/-- The blocks of the superblock, the descriptors and the bitmap itself are taken. -/
theorem fileVol_bitsApart : BitsApart fileGeo fileVol 12 := by
  intro group idx hfree
  have hgroup : group < 1 := hfree.inGroups
  have hidx : idx < 8 * 1024 := hfree.inBitmap
  obtain rfl : group = 0 := by omega
  have hbitmap : bitmapAt fileGeo fileVol blockBitmap.block 0 = 3072 := by decide +kernel
  have hslot : inodeSlot fileGeo fileVol 12 = 6528 := by decide +kernel
  have htaken : ∀ i < 7, bitAt fileGeo fileVol blockBitmap.block 0 i = true := by decide +kernel
  have hidx' : 7 ≤ idx := by
    by_contra hlt
    have hset := htaken idx (by omega)
    rw [hfree.clear] at hset
    cases hset
  have hblock : bitBlock fileGeo 0 idx = 1 + idx := by
    simp only [bitBlock, fileGeo, u32]
    omega
  rw [hbitmap, hslot, hblock]
  refine ⟨?_, ?_, by simp only [inodeBytes]; omega⟩
  · rintro (hsb | ⟨m, hm, hin⟩)
    · omega
    · simp only [fileGeo, bgdSize, u32, InBlock] at hm hin
      omega
  · simp only [InBlock, fileGeo]
    omega

end Crius.Ext2
