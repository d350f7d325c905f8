import Crius.Ext2.BlockMap
import Crius.Ext2.Driver

/-!
# The counts of directories

`ext2_alloc_inode` adds a new directory to the count of its group, and nothing takes one away
again. So a directory that is removed is still counted, and so is one whose creation has failed.

`Steady f m` says that `m` leaves what `f` sees of the volume as it is. The instances follow the
constructs of the monad and the functions of the driver, one for each.
-/
namespace Crius.Ext2

open Option Prod

/-- The number of directories in a group. -/
def usedDirs (group : ℕ) (v : Vol) : ℕ := v.bgds.u16At (group * bgdSize + 16)

/-- What a volume holds, in memory and on the device. -/
def contents (v : Vol) : Bytes × Bytes × Bytes := (v.sb, v.bgds, v.disk)

/-- A view of the volume that does not depend on the clock. -/
class Timeless {γ : Type} (f : Vol → γ) : Prop where
  clock : ∀ v c, f { v with clock := c } = f v := by intros; rfl

instance : Timeless contents := ⟨fun _ _ => rfl⟩

instance : Timeless fun v : Vol => { v with clock := 0 } := ⟨fun _ _ => rfl⟩

class Steady {α γ : Type} (f : Vol → γ) (m : M α) : Prop where
  same : ∀ {g v a v' n}, m g v = some (a, v', n) → f v' = f v

section Rules

variable {α β γ : Type} {f : Vol → γ} {m : M α} {k : α → M β}

instance (a : α) : Steady f (pure a) where
  same h := by
    simp only [M.pure_apply, Option.some.injEq, Prod.mk.injEq] at h
    rw [h.2.1]

theorem Steady.bind (hm : Steady f m) (hk : ∀ a, Steady f (k a)) : Steady f (m >>= k) where
  same h := by
    obtain ⟨a, v1, _, _, h1, h2⟩ := M.of_bind h
    rw [(hk a).same h2, hm.same h1]

instance [hm : Steady f m] [hk : ∀ a, Steady f (k a)] : Steady f (m >>= k) := hm.bind hk

/-- The first part of a run, where the view stays, and the rest of it. -/
theorem Steady.of_bind {g : Geo} {v v' : Vol} {b : β} {n : ℕ} [hm : Steady f m]
    (h : (m >>= k) g v = some (b, v', n)) :
    ∃ a v₁ n₁, f v₁ = f v ∧ k a g v₁ = some (b, v', n₁) := by
  obtain ⟨a, v₁, _, n₁, h₁, h₂⟩ := M.of_bind h
  exact ⟨a, v₁, n₁, hm.same h₁, h₂⟩

instance : Steady f (crash : M α) := ⟨fun h => absurd h.symm (Option.some_ne_none _)⟩

instance : Steady f (read : M Geo) where
  same h := by rw [(Prod.mk.inj (Prod.mk.inj (Option.some.inj h)).2).1]

instance : Steady f (get : M Vol) where
  same h := by rw [(Prod.mk.inj (Prod.mk.inj (Option.some.inj h)).2).1]

instance : Steady f touch where
  same h := by rw [(Prod.mk.inj (Prod.mk.inj (Option.some.inj h)).2).1]

instance (a b : ℕ) : Steady f (div a b) := by
  unfold div
  split <;> infer_instance

/-- Only time passes. -/
theorem Steady.later {g : Geo} {v w : Vol} {a : α} {n : ℕ}
    [h : Steady (fun v : Vol => { v with clock := 0 }) m] (hrun : m g v = some (a, w, n)) :
    w = { v with clock := w.clock } :=
  congrArg (fun x : Vol => { x with clock := w.clock }) (h.same hrun)

theorem Steady.modify {u : Vol → Vol} (h : ∀ v, f (u v) = f v) : Steady f (modify u : M PUnit) where
  same hrun := by rw [← (mk.inj (mk.inj (some.inj hrun)).2).1, h]

end Rules

/-! ## Reading -/

section Reading

variable {γ : Type} {f : Vol → γ} [Timeless f]

instance : Steady f draw where
  same h := by
    rw [draw_apply, Option.some.injEq, Prod.mk.injEq, Prod.mk.injEq] at h
    rw [← h.2.1]
    exact Timeless.clock _ _

instance : Steady f kmalloc := by
  unfold kmalloc
  repeat' first | infer_instance | refine .bind ?_ fun _ => ?_ | split

instance (lba count : ℕ) (buf : Bytes) : Steady f (readSectorsOff lba count buf) := by
  unfold readSectorsOff
  repeat' first | infer_instance | refine .bind ?_ fun _ => ?_ | split

instance (block : ℕ) (buf : Bytes) : Steady f (readBlock block buf) := by
  unfold readBlock secPerBlock
  infer_instance

instance (ino : ℕ) : Steady f (inodePlace ino) := by
  unfold inodePlace inoToGroup inoToIndex
  repeat' first | infer_instance | refine .bind ?_ fun _ => ?_ | split

instance (ino : ℕ) : Steady f (readInode ino) := by
  unfold readInode
  repeat' first | infer_instance | refine .bind ?_ fun _ => ?_ | split

instance (inode : Bytes) (logical : ℕ) : Steady f (getBlockFromInode inode logical) := by
  unfold getBlockFromInode indirect
  repeat' first | infer_instance | refine .bind ?_ fun _ => ?_ | split | dsimp only

instance (inode : Bytes) : Steady f (dirBlocks inode) := by
  unfold dirBlocks
  infer_instance

instance (inode : Bytes) (name : List UInt8) (left logical : ℕ) (buf : Bytes) :
    Steady f (lookupLoop inode name left logical buf) := by
  induction left generalizing logical buf with
  | zero =>
    unfold lookupLoop
    infer_instance
  | succ left ih =>
    unfold lookupLoop
    repeat' first | exact ih _ _ | infer_instance | refine .bind ?_ fun _ => ?_ | split | dsimp only

instance (dirIno : ℕ) (name : List UInt8) : Steady f (lookup dirIno name) := by
  unfold lookup
  repeat' first | infer_instance | refine .bind ?_ fun _ => ?_ | split

instance (inode : Bytes) (child : ℕ) (name : List UInt8)
    (type fuel remaining logical : ℕ) (buf : Bytes) :
    Steady f (placeLoop inode child name type fuel remaining logical buf) := by
  induction fuel generalizing remaining logical buf with
  | zero =>
    unfold placeLoop
    infer_instance
  | succ fuel ih =>
    unfold placeLoop
    repeat' first
      | exact ih _ _ _
      | infer_instance
      | refine .bind ?_ fun _ => ?_
      | split
      | dsimp only

end Reading

/-! ## Writing -/

/-- A view of the descriptors in memory. -/
class Described {γ : Type} (f : Vol → γ) : Prop extends Timeless f where
  disk : ∀ v disk, f { v with disk := disk } = f v := by intros; rfl
  sb : ∀ v sb, f { v with sb := sb } = f v := by intros; rfl

/-- A view that does not depend on the free counts either. -/
class Uncounted {γ : Type} (f : Vol → γ) : Prop extends Described f where
  count : ∀ v i x {off}, 12 ≤ off ∧ off ≤ 14 →
    f { v with bgds := v.bgds.put16 (i * bgdSize + off) x } = f v

/-- The free counts lie in front of the counts of directories. -/
instance (group : ℕ) : Uncounted (usedDirs group) where
  count v i x off hoff := by
    apply Bytes.u16At_congr
    intro j h1 h2
    unfold bgdSize at *
    exact Bytes.put16_outside (by omega)

instance : Uncounted Vol.oracle where
  count _ _ _ _ _ := rfl

section Writing

variable {γ : Type} {f : Vol → γ} {k : BitmapKind}

section Described

variable [Described f]

instance (lba count : ℕ) (buf : Bytes) : Steady f (writeSectorsOff lba count buf) := by
  unfold writeSectorsOff
  repeat' first
    | infer_instance
    | exact Steady.modify fun _ => Described.disk _ _
    | refine .bind ?_ fun _ => ?_
    | split

instance (block : ℕ) (buf : Bytes) : Steady f (writeBlock block buf) := by
  unfold writeBlock secPerBlock
  infer_instance

instance (ino : ℕ) (inode : Bytes) : Steady f (writeInode ino inode) := by
  unfold writeInode
  repeat' first | infer_instance | refine .bind ?_ fun _ => ?_ | split

instance (off : ℕ) (u : ℕ → ℕ) : Steady f (setSbField off u) :=
  Steady.modify fun _ => Described.sb _ _

instance : Steady f syncSuperblock := by
  unfold syncSuperblock
  repeat' first | infer_instance | refine .bind ?_ fun _ => ?_ | split

instance (fuel remaining offset block : ℕ) (buf : Bytes) :
    Steady f (syncBgdsLoop fuel remaining offset block buf) := by
  induction fuel generalizing remaining offset block buf with
  | zero =>
    unfold syncBgdsLoop
    split <;> infer_instance
  | succ fuel ih =>
    unfold syncBgdsLoop
    repeat' first | exact ih _ _ _ _ | infer_instance | refine .bind ?_ fun _ => ?_ | split

instance : Steady f syncBgds := by
  unfold syncBgds
  repeat' first | infer_instance | refine .bind ?_ fun _ => ?_ | split

end Described

variable [Uncounted f]

theorem Steady.setBgdField {off : ℕ} (hoff : 12 ≤ off ∧ off ≤ 14) (i x : ℕ) :
    Steady f (setBgdField i off x) :=
  Steady.modify fun v => Uncounted.count v i x hoff

instance (i off : ℕ) : Steady f (bgdField i off) := by
  unfold bgdField
  infer_instance

theorem Steady.takeBit (hk : 12 ≤ k.freeCount ∧ k.freeCount ≤ 14) (left i : ℕ) (bitmap : Bytes) :
    Steady f (takeBit k left i bitmap) := by
  induction left generalizing i bitmap with
  | zero =>
    unfold Ext2.takeBit
    infer_instance
  | succ left ih =>
    unfold Ext2.takeBit
    repeat' first
      | exact ih _ _
      | infer_instance
      | exact Steady.setBgdField hk _ _
      | refine .bind ?_ fun _ => ?_
      | split

instance : Steady f allocBlock := by
  unfold allocBlock
  repeat' first
    | exact Steady.takeBit (by decide) _ _ _
    | infer_instance
    | refine .bind ?_ fun _ => ?_
    | split

theorem Steady.dropBit (hk : 12 ≤ k.freeCount ∧ k.freeCount ≤ 14) (i idx : ℕ) :
    Steady f (dropBit k i idx) := by
  unfold Ext2.dropBit
  repeat' first
    | infer_instance
    | exact Steady.setBgdField hk _ _
    | refine .bind ?_ fun _ => ?_
    | split

instance (block : ℕ) : Steady f (freeBlock block) := by
  unfold freeBlock
  repeat' first
    | infer_instance
    | exact Steady.dropBit (by decide) _ _
    | refine .bind ?_ fun _ => ?_
    | split

instance (ino : ℕ) : Steady f (freeInode ino) := by
  unfold freeInode inoToGroup inoToIndex
  repeat' first
    | infer_instance
    | exact Steady.dropBit (by decide) _ _
    | refine .bind ?_ fun _ => ?_
    | split

instance (inode : Bytes) (left logical : ℕ) :
    Steady f (freeMapped inode left logical) := by
  induction left generalizing logical with
  | zero =>
    unfold freeMapped
    infer_instance
  | succ left ih =>
    unfold freeMapped
    repeat' first | exact ih _ | infer_instance | refine .bind ?_ fun _ => ?_ | split

instance (blocks : List ℕ) : Steady f (freeAll blocks) := by
  induction blocks with
  | nil =>
    unfold freeAll
    infer_instance
  | cons block blocks ih =>
    unfold freeAll
    repeat' first | exact ih | infer_instance | refine .bind ?_ fun _ => ?_ | split

instance (inode : Bytes) : Steady f (freeInodeData inode) := by
  unfold freeInodeData
  repeat' first | infer_instance | refine .bind ?_ fun _ => ?_ | split

instance (inode : Bytes) (ino left b : ℕ) (buf : Bytes) :
    Steady f (removeLoop inode ino left b buf) := by
  induction left generalizing b buf with
  | zero =>
    unfold removeLoop
    infer_instance
  | succ left ih =>
    unfold removeLoop
    repeat' first | exact ih _ _ | infer_instance | refine .bind ?_ fun _ => ?_ | split | dsimp only

instance (ino : ℕ) : Steady f (dropLink ino) := by
  unfold dropLink
  repeat' first | split | dsimp only | infer_instance | refine .bind ?_ fun _ => ?_

instance (dirIno : ℕ) (name : List UInt8) : Steady f (unlink dirIno name) := by
  unfold unlink
  repeat' first | infer_instance | refine .bind ?_ fun _ => ?_ | split

instance (inode : Bytes) (logical phys : ℕ) :
    Steady f (setBlockInInode inode logical phys) := by
  unfold setBlockInInode
  repeat' first | infer_instance | refine .bind ?_ fun _ => ?_ | split

instance (dirIno child : ℕ) (name : List UInt8) (type : ℕ) :
    Steady f (addDirent dirIno child name type) := by
  unfold addDirent
  repeat' first | infer_instance | refine .bind ?_ fun _ => ?_ | split

end Writing

end Crius.Ext2
