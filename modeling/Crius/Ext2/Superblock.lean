import Crius.Ext2.UsedDirs

/-!
# What a mount checks

`ext2_do_mount` compares the magic number and takes every other field of the superblock as it is.
A superblock is sound if the geometry that it describes can be computed with.
-/
namespace Crius.Ext2

open Option Bytes

/-- The superblock of a device. -/
def superblockOf (disk : Bytes) : Bytes := Bytes.zero.blit 0 (disk.shift 1024) sbSize

/-- A geometry with usual sizes, whose table of descriptors holds all groups of the volume. -/
structure SoundGeometry (g : Globals) : Prop where
  size : g.blockSize = 1024 ∨ g.blockSize = 2048 ∨ g.blockSize = 4096
  blocks : 0 < g.blocksPerGroup ∧ g.blocksPerGroup ≤ 8 * g.blockSize
  inodes : 0 < g.inodesPerGroup ∧ g.inodesPerGroup ≤ 8 * g.blockSize
  inodeSize : 128 ≤ g.inodeSize ∧ g.inodeSize ∣ g.blockSize
  first : g.firstDataBlock < g.sb.u32At 4
  groups : g.numGroups =
    (g.sb.u32At 4 - g.firstDataBlock + g.blocksPerGroup - 1) / g.blocksPerGroup
  table : u32 (g.numGroups * bgdSize) = g.numGroups * bgdSize

/-- The superblock describes such a geometry. -/
def SoundSuperblock (sb : Bytes) : Prop :=
  ∃ g₀ g, Driver.geometry g₀ sb = some g ∧ SoundGeometry g

/-- The later computations with a geometry: nothing is divided by zero, and what is looked up lies
inside the table of `u32 (numGroups * bgdSize)` bytes, a bitmap or a block buffer. -/
structure Computes (g : Geo) : Prop where
  blockSize : g.blockSize ≠ 0 ∧ g.blockSize / 512 ≠ 0
  perBlock : g.blockSize / 4 ≠ 0 ∧ u32 (g.blockSize / 4 * (g.blockSize / 4)) ≠ 0
  place : ∀ ino v, ∃ place, inodePlace ino g v = some (place, v, 0) ∧
    ∀ p ∈ place, (ino - 1) / g.inodesPerGroup * bgdSize + bgdSize ≤ u32 (g.numGroups * bgdSize) ∧
      p.2 + inodeBytes ≤ g.blockSize
  inodeBit : ∀ ino, (ino - 1) % g.inodesPerGroup / 8 < g.blockSize
  blockBit : g.blocksPerGroup ≠ 0 ∧ ∀ block, block % g.blocksPerGroup / 8 < g.blockSize
  word : ∀ k < g.blockSize / 4, 4 * k + 4 ≤ g.blockSize

/-- A mount fails, or leaves a geometry that can be computed with. -/
def MountChecks (bd : Nat) (s : Driver) : Prop :=
  ∃ ok s', s.doMount bd = some (ok, s') ∧
    (ok = true → SoundGeometry s'.vars ∧ Computes s'.vars.geo)

/-- Memory for the table of descriptors, memory for a block, or one of the reads that the loop over
`u32 (numGroups * bgdSize)` bytes comes to is refused; `k` is bounded by itself for blocks of no
bytes, over which the loop does not end. -/
def TableRefused (blockSize numGroups : Nat) (oracle : Nat → Bool) (clock : Nat) : Prop :=
  oracle clock = false ∨ oracle (clock + 1) = false ∨ ∃ k < u32 (numGroups * bgdSize),
    k * blockSize < u32 (numGroups * bgdSize) ∧ oracle (clock + 2 + k) = false

/-- The mounts that are refused. -/
inductive MountRefused (bd : Nat) (s : Driver) : Prop
  | mounted (h : s.vars.mounted = true)
  | memory (h : s.oracle s.clock = false)
  | transfer (h : s.oracle (s.clock + 1) = false)
  | magic (h : (superblockOf (s.disks bd)).u16At 56 ≠ Driver.magic)
  | table {g : Globals} (hgeo : Driver.geometry s.vars (superblockOf (s.disks bd)) = some g)
      (h : TableRefused g.blockSize g.numGroups s.oracle (s.clock + 2))

/-! ## The consequences of a sound geometry -/

theorem SoundGeometry.computes {g : Globals} (h : SoundGeometry g) : Computes g.geo := by
  have hsize : g.geo.blockSize = 1024 ∨ g.geo.blockSize = 2048 ∨ g.geo.blockSize = 4096 := h.size
  have hblocks : g.geo.blocksPerGroup ≤ 8 * g.geo.blockSize := h.blocks.2
  have hinodes : g.geo.inodesPerGroup ≤ 8 * g.geo.blockSize := h.inodes.2
  have hbit {a n : Nat} (hn : 0 < n) (hle : n ≤ 8 * g.geo.blockSize) :
      a % n / 8 < g.geo.blockSize := by
    have := Nat.mod_lt a hn
    omega
  refine ⟨by omega, ?_, ?_, fun ino => hbit h.inodes.1 hinodes,
    ⟨Nat.ne_of_gt h.blocks.1, fun block => hbit h.blocks.1 hblocks⟩, fun k hk => by omega⟩
  · rcases hsize with hs | hs | hs <;> rw [hs] <;> decide
  · intro ino v
    have hipg : g.geo.inodesPerGroup ≠ 0 := Nat.ne_of_gt h.inodes.1
    rw [inodePlace_apply, if_neg hipg]
    split
    · exact ⟨none, rfl, by simp⟩
    rename_i hgroup
    rw [if_neg (show g.geo.blockSize ≠ 0 by omega)]
    refine ⟨_, rfl, ?_⟩
    intro p hp
    cases hp
    constructor
    · have htable : u32 (g.geo.numGroups * bgdSize) = g.geo.numGroups * bgdSize := h.table
      have hrow := Nat.mul_le_mul_right bgdSize (Nat.succ_le_of_lt (Nat.lt_of_not_le hgroup))
      rw [Nat.succ_mul] at hrow
      omega
    · -- the offset is a multiple of the size of an inode, below the size of a block
      have hdvd : g.inodeSize ∣ g.geo.blockSize := h.inodeSize.2
      have hpow : g.geo.blockSize ∣ 2 ^ 32 := by
        rcases hsize with hs | hs | hs <;> rw [hs] <;> decide
      have hrow : g.inodeSize ∣
          u32 ((ino - 1) % g.geo.inodesPerGroup * g.geo.inodeSize) % g.geo.blockSize :=
        (Nat.dvd_mod_iff hdvd).mpr ((Nat.dvd_mod_iff (Nat.dvd_trans hdvd hpow)).mpr
          (Nat.dvd_mul_left _ _))
      have hlt := Nat.mod_lt (u32 ((ino - 1) % g.geo.inodesPerGroup * g.geo.inodeSize))
        (show 0 < g.geo.blockSize by omega)
      have hroom := Nat.le_of_dvd (Nat.sub_pos_of_lt hlt) (Nat.dvd_sub hdvd hrow)
      have hmin := h.inodeSize.1
      simp only [inodeBytes]
      omega

/-! ## Mounting -/

section Mounting

variable {g : Geo} {v : Vol} (hbd : g.hasBd = true)

include hbd

/-- The superblock is read, or memory or the transfer fails. -/
theorem loadSuperblock_cases :
    (v.oracle v.clock = false ∨ v.oracle (v.clock + 1) = false) ∧
      (∃ v' n, Driver.loadSuperblock g v = some (none, v', n)) ∨
    v.oracle v.clock = true ∧ v.oracle (v.clock + 1) = true ∧ Driver.loadSuperblock g v =
      some (some (superblockOf v.disk), { v with clock := v.clock + 2 }, 1) := by
  unfold Driver.loadSuperblock
  rw [M.bind_of_quiet kmalloc_apply]
  cases v.oracle v.clock with
  | false => exact .inl ⟨.inl rfl, _, 0, rfl⟩
  | true =>
    have hread := readSectorsOff_apply (v := { v with clock := v.clock + 1 }) hbd 2 2 v.junk
    cases hnext : v.oracle (v.clock + 1) with
    | false =>
      simp only [hnext] at hread
      exact .inl ⟨.inr rfl, _, 1, M.bind_eq_some.mpr ⟨_, _, 1, 0, hread, rfl, rfl⟩⟩
    | true =>
      simp only [hnext] at hread
      refine .inr ⟨rfl, rfl, M.bind_eq_some.mpr ⟨_, _, 1, 0, hread, ?_, rfl⟩⟩
      have hsb : Bytes.zero.blit 0 (v.junk.blit 0 (v.disk.shift (2 * 512)) (2 * 512)) sbSize =
          superblockOf v.disk := by
        funext i
        unfold superblockOf sbSize
        by_cases hi : i < 204
        · rw [blit_inside (by omega), blit_inside (by omega), blit_inside (by omega)]
          rfl
        · rw [blit_outside (by omega), blit_outside (by omega)]
      rw [← hsb]
      rfl

theorem readBlock_tries (block : Nat) (buf : Bytes) : ∃ buf', readBlock block buf g v =
    some ((v.oracle v.clock, buf'), { v with clock := v.clock + 1 }, 1) := by
  have hspb : secPerBlock g v = some (g.blockSize / 512, v, 0) := rfl
  unfold readBlock
  rw [M.bind_of_quiet hspb, readSectorsOff_apply hbd]
  exact ⟨_, rfl⟩

/-- The loop over the descriptors fails if one of the reads does that it comes to. -/
theorem loadBgdsLoop_fails (fuel remaining offset block : Nat) (buf bgds : Bytes) :
    (∃ v' n, Driver.loadBgdsLoop fuel remaining offset block buf bgds g v = some (none, v', n)) ↔
      ∃ k < fuel, k * g.blockSize < remaining ∧ v.oracle (v.clock + k) = false := by
  induction fuel generalizing remaining offset block buf bgds v with
  | zero =>
    rw [Driver.loadBgdsLoop]
    split <;> simp [crash]
  | succ fuel ih =>
    rw [Driver.loadBgdsLoop]
    by_cases hdone : remaining = 0
    · simp [hdone]
    obtain ⟨buf', hread⟩ := readBlock_tries (v := v) hbd block buf
    rw [if_neg hdone, M.bind_gives hread]
    cases hnow : v.oracle v.clock with
    | false => exact iff_of_true ⟨_, _, rfl⟩ ⟨0, by omega, by omega, hnow⟩
    | true =>
      dsimp only
      rw [M.read_bind_apply, ih]
      -- the read numbered `k` of the rest is the one numbered `k + 1` of all
      constructor
      · intro hrest
        obtain ⟨k, hk, hbytes, hfails⟩ := hrest
        dsimp only at hfails
        refine ⟨k + 1, by omega, ?_, by rwa [← Nat.add_assoc, Nat.add_right_comm]⟩
        rw [Nat.succ_mul]
        omega
      · intro hall
        obtain ⟨k, hk, hbytes, hfails⟩ := hall
        cases k with
        | zero =>
          rw [Nat.add_zero, hnow] at hfails
          cases hfails
        | succ k =>
          rw [Nat.succ_mul] at hbytes
          exact ⟨k, by omega, by omega, by rwa [Nat.add_right_comm]⟩

/-- The loop over the descriptors ends, unless a block has no bytes. -/
theorem loadBgdsLoop_some (hbs : g.blockSize ≠ 0) {fuel remaining : Nat} (hfuel : remaining ≤ fuel)
    (offset block : Nat) (buf bgds : Bytes) :
    ∃ r, Driver.loadBgdsLoop fuel remaining offset block buf bgds g v = some r := by
  induction fuel generalizing remaining offset block buf bgds v with
  | zero =>
    rw [Driver.loadBgdsLoop, if_pos (by omega)]
    exact ⟨_, rfl⟩
  | succ fuel ih =>
    rw [Driver.loadBgdsLoop]
    split
    · exact ⟨_, rfl⟩
    obtain ⟨buf', hread⟩ := readBlock_tries (v := v) hbd block buf
    cases hnow : v.oracle v.clock with
    | false =>
      rw [hnow] at hread
      exact ⟨_, M.bind_eq_some.mpr ⟨_, _, 1, 0, hread, rfl, rfl⟩⟩
    | true =>
      rw [hnow] at hread
      have hless : remaining - min remaining g.blockSize ≤ fuel := by omega
      obtain ⟨⟨r, v', n⟩, hrest⟩ := ih (v := { v with clock := v.clock + 1 }) hless
        (u32 (offset + min remaining g.blockSize)) (u32 (block + 1)) buf'
        (bgds.blit offset buf' (min remaining g.blockSize))
      refine ⟨(r, v', 1 + n), M.bind_eq_some.mpr ⟨_, _, 1, n, hread, ?_, rfl⟩⟩
      dsimp only
      rw [M.read_bind_apply]
      exact hrest

theorem loadBgds_some (hbs : g.blockSize ≠ 0) : ∃ r, Driver.loadBgds g v = some r := by
  unfold Driver.loadBgds
  rw [M.read_bind_apply, M.bind_of_quiet kmalloc_apply]
  cases v.oracle v.clock with
  | false => exact ⟨_, rfl⟩
  | true =>
    simp only [if_true]
    rw [M.bind_of_quiet kmalloc_apply]
    cases v.oracle (v.clock + 1) with
    | false => exact ⟨_, rfl⟩
    | true => exact loadBgdsLoop_some hbd hbs (Nat.le_refl _) _ _ _ _

/-- Memory for the descriptors or for a block, or the read of one, fails. -/
theorem loadBgds_fails : (∃ v' n, Driver.loadBgds g v = some (none, v', n)) ↔
    TableRefused g.blockSize g.numGroups v.oracle v.clock := by
  unfold Driver.loadBgds TableRefused
  rw [M.read_bind_apply, M.bind_of_quiet kmalloc_apply]
  cases v.oracle v.clock with
  | false => exact iff_of_true ⟨_, _, rfl⟩ (.inl rfl)
  | true =>
    simp only [if_true]
    rw [M.bind_of_quiet kmalloc_apply]
    cases v.oracle (v.clock + 1) with
    | false => exact iff_of_true ⟨_, _, rfl⟩ (.inr (.inl rfl))
    | true =>
      simp only [if_true]
      rw [loadBgdsLoop_fails hbd]
      simp

end Mounting

instance (fuel remaining offset block : ℕ) (buf bgds : Bytes) :
    Steady contents (Driver.loadBgdsLoop fuel remaining offset block buf bgds) := by
  induction fuel generalizing remaining offset block buf bgds with
  | zero =>
    unfold Driver.loadBgdsLoop
    split <;> infer_instance
  | succ fuel ih =>
    unfold Driver.loadBgdsLoop
    repeat' first | exact ih _ _ _ _ _ | infer_instance | refine .bind ?_ fun _ => ?_ | split

instance : Steady contents Driver.loadBgds := by
  unfold Driver.loadBgds
  repeat' first | infer_instance | refine .bind ?_ fun _ => ?_ | split

/-- The table of descriptors is refused, is read for ever, or is read. -/
theorem Driver.loadBgds_cases {s : Driver} (hbd : s.vars.geo.hasBd = true) :
    TableRefused s.vars.blockSize s.vars.numGroups s.oracle s.clock ∧
      (∃ s', s.exec loadBgds = some (none, s')) ∨
    ¬TableRefused s.vars.blockSize s.vars.numGroups s.oracle s.clock ∧
      (s.exec loadBgds = none ∧ s.vars.blockSize = 0 ∨
        ∃ bgds s', s.exec loadBgds = some (some bgds, s') ∧ s'.vars = s.vars) := by
  have hfails := loadBgds_fails (v := s.vol) hbd
  change _ ↔ TableRefused s.vars.blockSize s.vars.numGroups s.oracle s.clock at hfails
  unfold exec
  rw [← hfails]
  cases hrun : loadBgds s.vars.geo s.vol with
  | none =>
    refine .inr ⟨by simp, .inl ⟨rfl, ?_⟩⟩
    by_contra hbs
    obtain ⟨r, hr⟩ := loadBgds_some (v := s.vol) hbd hbs
    rw [hrun] at hr
    cases hr
  | some p =>
    obtain ⟨r, v, n⟩ := p
    cases r with
    | none => exact .inl ⟨⟨v, n, rfl⟩, _, rfl⟩
    | some bgds =>
      refine .inr ⟨by simp, .inr ⟨bgds, _, rfl, ?_⟩⟩
      have hsame : contents v = contents s.vol := Steady.same hrun
      have hsb : v.sb = s.vars.sb := congrArg Prod.fst hsame
      simp only [update, hsb]

theorem geometry_some {g g' : Globals} {sb : Bytes} (h : Driver.geometry g sb = some g')
    (g0 : Globals) : ∃ g1, Driver.geometry g0 sb = some g1 := by
  unfold Driver.geometry at *
  dsimp only at *
  split at h
  · cases h
  · rename_i hbpg
    rw [if_neg hbpg]
    exact ⟨_, rfl⟩

/-- The geometry depends on the superblock only. -/
theorem geometry_same {g0 g1 g g' : Globals} {sb : Bytes} (h : Driver.geometry g0 sb = some g)
    (h' : Driver.geometry g1 sb = some g') :
    g' = { g with mounted := g1.mounted, curBd := g1.curBd, bgds := g1.bgds } := by
  unfold Driver.geometry at h h'
  dsimp only at h h'
  split at h
  · cases h
  rename_i hbpg
  rw [if_neg hbpg] at h'
  cases h
  cases h'
  rfl

theorem geometry_sound {g0 g : Globals} {sb : Bytes} (h : Driver.geometry g0 sb = some g)
    (mounted : Bool) (bgds : ℕ) :
    SoundGeometry { g with mounted := mounted, bgds := bgds } ↔ SoundSuperblock sb := by
  constructor
  · intro hsound
    obtain ⟨h1, h2, h3, h4, h5, h6, h7⟩ := hsound
    exact ⟨g0, g, h, h1, h2, h3, h4, h5, h6, h7⟩
  · intro hsound
    obtain ⟨g1, g2, hg, h1, h2, h3, h4, h5, h6, h7⟩ := hsound
    rw [geometry_same hg h]
    exact ⟨h1, h2, h3, h4, h5, h6, h7⟩

/-- A mount is refused, crashes on the superblock, or is done with the geometry of the
superblock. -/
theorem doMount_cases (bd : Nat) (s : Driver) :
    MountRefused bd s ∧ (∃ s', s.doMount bd = some (false, s')) ∨
    ¬MountRefused bd s ∧
      (s.doMount bd = none ∧ ¬SoundSuperblock (superblockOf (s.disks bd)) ∨
        ∃ s', s.doMount bd = some (true, s') ∧
          (SoundGeometry s'.vars ↔ SoundSuperblock (superblockOf (s.disks bd)))) := by
  have hstart := Driver.doMount.eq_1 bd s
  split at hstart
  · rename_i hmounted
    exact .inl ⟨.mounted hmounted, _, hstart⟩
  rename_i hmounted
  rcases loadSuperblock_cases (g := (s.setBd (some bd)).vars.geo) (v := (s.setBd (some bd)).vol) rfl
    with ⟨hrefused, v, n, hload⟩ | ⟨hbuf, hread, hload⟩ <;> rw [Driver.exec, hload] at hstart
  · exact .inl ⟨hrefused.elim .memory .transfer, _, hstart⟩
  change s.oracle s.clock = true at hbuf
  change s.oracle (s.clock + 1) = true at hread
  rw [show (s.setBd (some bd)).vol.disk = s.disks bd from rfl] at hstart
  dsimp only at hstart
  split at hstart
  · rename_i hmagic
    exact .inl ⟨.magic hmagic, _, hstart⟩
  rename_i hmagic
  have hlater : MountRefused bd s ↔
      ∃ g, Driver.geometry s.vars (superblockOf (s.disks bd)) = some g ∧
        TableRefused g.blockSize g.numGroups s.oracle (s.clock + 2) := by
    constructor
    · intro h
      cases h with
      | mounted h => exact absurd h hmounted
      | memory h => simp [hbuf] at h
      | transfer h => simp [hread] at h
      | magic h => exact absurd h hmagic
      | table hgeo h => exact ⟨_, hgeo, h⟩
    · intro h
      obtain ⟨g, hgeo, htable⟩ := h
      exact .table hgeo htable
  generalize hs1 : (s.setBd (some bd)).update _ 1 = s1 at hstart
  have hs1' : s1.oracle = s.oracle ∧ s1.clock = s.clock + 2 ∧ s1.vars.curBd = some bd := by
    rw [← hs1]
    exact ⟨rfl, rfl, rfl⟩
  cases hgeo : Driver.geometry s1.vars (superblockOf (s.disks bd)) with
  | none =>
    rw [hgeo] at hstart
    have hnone (g0 g : Globals) : Driver.geometry g0 (superblockOf (s.disks bd)) ≠ some g := by
      intro hg
      obtain ⟨g1, hg1⟩ := geometry_some hg s1.vars
      rw [hgeo] at hg1
      cases hg1
    refine .inr ⟨by simp [hlater, hnone], .inl ⟨hstart, ?_⟩⟩
    intro hsound
    obtain ⟨g0, g, hg, -⟩ := hsound
    exact hnone g0 g hg
  | some vars =>
    rw [hgeo] at hstart
    dsimp only at hstart
    generalize hs2 : ({ s1 with vars := { vars with bgds := s1.next }, next := s1.next + 1 } :
      Driver) = s2 at hstart
    have hvars : s2.vars = { vars with bgds := s1.next } := by rw [← hs2]
    have hhas : s2.vars.geo.hasBd = true := by
      rw [hvars, geometry_same hgeo hgeo]
      change s1.vars.curBd.isSome = true
      rw [hs1'.2.2]
      rfl
    have hrefused : MountRefused bd s ↔
        TableRefused s2.vars.blockSize s2.vars.numGroups s2.oracle s2.clock := by
      rw [hlater, ← hs2, hs1'.1, hs1'.2.1]
      constructor
      · intro h
        obtain ⟨g, hg, htable⟩ := h
        rwa [geometry_same hg hgeo]
      · intro htable
        obtain ⟨g, hg⟩ := geometry_some hgeo s.vars
        exact ⟨g, hg, by rwa [geometry_same hgeo hg]⟩
    rcases Driver.loadBgds_cases hhas
      with ⟨htable, s', hrun⟩ | ⟨htable, ⟨hrun, hbs⟩ | ⟨bgds, s', hrun, hs'⟩⟩
      <;> rw [hrun] at hstart
    · exact .inl ⟨hrefused.mpr htable, _, hstart⟩
    · refine .inr ⟨mt hrefused.mp htable, .inl ⟨hstart, ?_⟩⟩
      intro hsound
      have hsize := ((geometry_sound hgeo vars.mounted s1.next).mpr hsound).size
      rw [← hvars, hbs] at hsize
      omega
    · refine .inr ⟨mt hrefused.mp htable, .inr ⟨_, hstart, ?_⟩⟩
      dsimp only
      rw [hs', hvars]
      exact geometry_sound hgeo true s1.next

/-- A device with the magic number and zeros. -/
def zeroDriver : Driver where
  vars := ⟨false, none, 0, 0, 0, 0, 0, 0, Bytes.zero, 0⟩
  bgdMem _ := Bytes.zero
  ctxs _ := none
  next := 1
  disks _ i := if i = 1080 then 0x53 else if i = 1081 then 0xEF else 0
  oracle _ := true
  clock := 0
  junk := Bytes.zero
  log := []

end Crius.Ext2
