import Crius.Ext2.Bytes
import Crius.Ext2.File

/-!
# A volume on which nothing fails

`Yields m g v a v'` says what code gives on a mounted volume whose transfers and allocations of
memory all succeed. What it gives then does not depend on the clock.
-/
namespace Crius.Ext2

open Abi

/-- A mounted volume with one of the usual block sizes, on which nothing fails. -/
structure Healthy (g : Geo) (v : Vol) : Prop where
  mounted : g.mounted = true
  device : g.hasBd = true
  size : g.blockSize = 1024 ∨ g.blockSize = 2048 ∨ g.blockSize = 4096
  oracle : ∀ n, v.oracle n = true

/-- A mounted volume of whole sectors on which nothing fails. -/
structure Working (g : Geo) (v : Vol) : Prop where
  mounted : g.mounted = true
  device : g.hasBd = true
  sectors : 512 ∣ g.blockSize
  oracle : ∀ n, v.oracle n = true

theorem Healthy.working {g : Geo} {v : Vol} (h : Healthy g v) : Working g v where
  mounted := h.mounted
  device := h.device
  sectors := by rcases h.size with hs | hs | hs <;> rw [hs] <;> decide
  oracle := h.oracle

/-- At any time the code gives `a` and leaves `v'`. -/
def Yields {α : Type} (m : M α) (g : Geo) (v : Vol) (a : α) (v' : Vol) : Prop :=
  ∀ c, ∃ c' n, m g { v with clock := c } = some (a, { v' with clock := c' }, n)

section Rules

variable {α β : Type} {g : Geo} {v v₁ v₂ : Vol} {m : M α} {f : α → M β} {a : α} {b : β}

theorem Yields.pure : Yields (Pure.pure a : M α) g v a v := fun c => ⟨c, 0, rfl⟩

/-- The equation spares the unifier a look inside of the result. -/
theorem Yields.pure_of_eq {a' : α} (h : a' = a) : Yields (Pure.pure a' : M α) g v a v := by
  rw [h]
  exact Yields.pure

theorem Yields.bind (hm : Yields m g v a v₁) (hf : Yields (f a) g v₁ b v₂) :
    Yields (m >>= f) g v b v₂ := by
  intro c
  obtain ⟨c1, n1, h1⟩ := hm c
  obtain ⟨c2, n2, h2⟩ := hf c1
  exact ⟨c2, n1 + n2, M.bind_eq_some.mpr ⟨a, _, n1, n2, h1, h2, rfl⟩⟩

theorem Yields.read {k : Geo → M β} (h : Yields (k g) g v b v₁) :
    Yields ((MonadReader.read : M Geo) >>= k) g v b v₁ := by
  intro c
  rw [M.read_bind_apply]
  exact h c

theorem Yields.get {k : Vol → M β} (h : ∀ c, Yields (k { v with clock := c }) g v b v₁) :
    Yields ((MonadState.get : M Vol) >>= k) g v b v₁ := by
  intro c
  rw [M.get_bind_apply]
  exact h c c

theorem Yields.div {a b : ℕ} (hb : b ≠ 0) : Yields (div a b) g v (a / b) v := by
  intro c
  rw [div_apply, if_neg hb]
  exact ⟨c, 0, rfl⟩

theorem Yields.ite_pos {c : Prop} [Decidable c] {m1 m2 : M α} (hc : c)
    (h : Yields m1 g v a v₁) : Yields (if c then m1 else m2) g v a v₁ := by
  rw [if_pos hc]
  exact h

theorem Yields.ite_neg {c : Prop} [Decidable c] {m1 m2 : M α} (hc : ¬c)
    (h : Yields m2 g v a v₁) : Yields (if c then m1 else m2) g v a v₁ := by
  rw [if_neg hc]
  exact h

/-- The code gives one result. -/
theorem Yields.result {r : α} {w : Vol} {n : ℕ} (h : Yields m g v a v₁)
    (hrun : m g v = some (r, w, n)) : r = a ∧ w = { v₁ with clock := w.clock } := by
  obtain ⟨c', n', h'⟩ := h v.clock
  have hv : ({ v with clock := v.clock } : Vol) = v := rfl
  rw [hv, hrun] at h'
  cases h'
  exact ⟨rfl, rfl⟩

end Rules

namespace Working

variable {g : Geo} {v : Vol} (h : Working g v)

include h

theorem place (block : ℕ) : block * (g.blockSize / 512) * 512 = block * g.blockSize ∧
    g.blockSize / 512 * 512 = g.blockSize := by
  rw [Nat.mul_assoc, Nat.div_mul_cancel h.sectors]
  exact ⟨rfl, rfl⟩

theorem kmalloc : Yields kmalloc g v (some v.junk) v := by
  intro c
  rw [kmalloc_apply]
  simp only [h.oracle, if_true]
  exact ⟨c + 1, 0, rfl⟩

theorem draw : Yields draw g v true v := by
  intro c
  rw [draw_apply]
  simp only [h.oracle]
  exact ⟨c + 1, 0, rfl⟩

omit h in
theorem touch : Yields touch g v () v := fun c => ⟨c, 1, rfl⟩

theorem readSectorsOff (lba count : ℕ) (buf : Bytes) :
    Yields (readSectorsOff lba count buf) g v
      (true, buf.blit 0 (v.disk.shift (lba * 512)) (count * 512)) v := by
  unfold Ext2.readSectorsOff
  apply Yields.read
  apply Yields.ite_neg (by simp [h.device])
  apply Yields.bind touch
  apply Yields.bind h.draw
  apply Yields.ite_pos rfl
  apply Yields.get
  intro c
  exact Yields.pure

theorem writeSectorsOff (lba count : ℕ) (buf : Bytes) :
    Yields (writeSectorsOff lba count buf) g v true
      { v with disk := v.disk.blit (lba * 512) buf (count * 512) } := by
  unfold Ext2.writeSectorsOff
  apply Yields.read
  apply Yields.ite_neg (by simp [h.device])
  apply Yields.bind touch
  apply Yields.bind h.draw
  apply Yields.ite_pos rfl
  have hset : Yields (modify fun v => { v with disk := v.disk.blit (lba * 512) buf (count * 512) })
      g v PUnit.unit { v with disk := v.disk.blit (lba * 512) buf (count * 512) } :=
    fun c => ⟨c, 0, rfl⟩
  exact Yields.bind hset Yields.pure

theorem readBlock (block : ℕ) (buf : Bytes) :
    Yields (readBlock block buf) g v
      (true, buf.blit 0 (v.disk.shift (block * g.blockSize)) g.blockSize) v := by
  obtain ⟨hplace, hsize⟩ := h.place block
  have hread := h.readSectorsOff (block * (g.blockSize / 512)) (g.blockSize / 512) buf
  rw [hplace, hsize] at hread
  unfold Ext2.readBlock secPerBlock
  apply Yields.bind (Yields.read Yields.pure) hread

theorem writeBlock (block : ℕ) (buf : Bytes) :
    Yields (writeBlock block buf) g v true
      { v with disk := v.disk.blit (block * g.blockSize) buf g.blockSize } := by
  obtain ⟨hplace, hsize⟩ := h.place block
  have hwrite := h.writeSectorsOff (block * (g.blockSize / 512)) (g.blockSize / 512) buf
  rw [hplace, hsize] at hwrite
  unfold Ext2.writeBlock secPerBlock
  apply Yields.bind (Yields.read Yields.pure) hwrite

theorem indirect {block k : ℕ} (buf : Bytes) (hk : 4 * k + 4 ≤ g.blockSize) :
    Yields (indirect block k buf) g v (some (wordAt v.disk g.blockSize block k)) v := by
  unfold Ext2.indirect
  apply Yields.bind (h.readBlock block buf)
  have hword : (buf.blit 0 (v.disk.shift (block * g.blockSize)) g.blockSize).u32At (4 * k) =
      wordAt v.disk g.blockSize block k := by
    apply Bytes.u32At_eq
    intro i hi
    rw [Bytes.blit_inside (by omega), Bytes.shift_apply]
    congr 1
    omega
  rw [← hword]
  exact Yields.pure

end Working

end Crius.Ext2
