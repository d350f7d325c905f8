import Crius.Drivers.BlockDevice

/-!
# The contents of transfers

What a request leaves in the buffer and on the drives when no wait of the driver fails. The
request is cut into batches; the result is that of one call for each sector.
-/
namespace Crius.Ide

open Function

/-- The effect of a request for the `n` sectors from `lba` on: a read fills the start of the
buffer and changes no sector, a write changes these sectors alone. -/
structure Contents (drv : Drive) (cmd : Cmd) (lba n : Nat) (h h' : Hw) : Prop where
  status : h'.status = h.status
  buf : ∀ k, h'.buf k =
    if cmd = .read ∧ k < n then h.media drv.bus drv.isSlave (lba + k) else h.buf k
  media : ∀ bus slave x, h'.media bus slave x =
    if cmd = .write ∧ bus = drv.bus ∧ slave = drv.isSlave ∧ lba ≤ x ∧ x < lba + n then
      h.buf (x - lba)
    else h.media bus slave x

/-- A request as `n` calls for one sector each; the buffer pointer of each call is one sector
after that of the call before. -/
def oneByOne (drives : Drives) (cmd : Cmd) (driveIdx : Nat) (lba : BitVec 64) : Nat → Hw → Hw
  | 0, h => h
  | n + 1, h =>
    let h := oneByOne drives cmd driveIdx lba n h
    let r := accessSectorsDev drives cmd driveIdx (lba + BitVec.ofNat 64 n) 1
      { h with buf := fun k => h.buf (n + k) }
    { r.2 with buf := fun k => if k < n then h.buf k else r.2.buf (k - n) }

variable {drives : Drives} {driveIdx count n : Nat} {drv : Drive} {cmd : Cmd} {lba : BitVec 64}
  {h : Hw}

theorem contents_zero (lba : Nat) : Contents drv cmd lba 0 h h :=
  ⟨rfl, fun k => by simp, fun bus slave x => by rw [if_neg (by omega)]⟩

theorem store_media (b slave : Bool) (n : Nat) (data : Sector) (h : Hw) (bus s : Bool) (x : Nat) :
    (h.store b slave n data).media bus s x =
      if bus = b ∧ s = slave ∧ x = n then data else h.media bus s x := by
  by_cases hb : bus = b
  · by_cases hs : s = slave
    · simp [Hw.store, hb, hs, update_apply]
    · simp [Hw.store, hb, hs]
  · simp [Hw.store, hb]

theorem rule_contents (drv : Drive) (cmd : Cmd) (lba : Nat) (h : Hw) :
    Rule (Contents drv cmd lba · h) drv.bus cmd drv.isSlave (lba + ·) := by
  refine ⟨fun _ _ _ hg => ⟨hg.status, hg.buf, hg.media⟩,
    fun _ _ _ hg => ⟨hg.status, hg.buf, hg.media⟩, fun k g n hg htr => ?_⟩
  obtain ⟨hstatus, hbuf, hmedia⟩ := hg
  cases cmd with
  | read =>
    refine ⟨?_, fun i => ?_, fun bus slave x => ?_⟩ <;>
      simp [Hw.moveSector, htr, Hw.setChannel, hstatus, hbuf, hmedia, update_apply]
    grind
  | write =>
    refine ⟨?_, fun i => ?_, fun bus slave x => ?_⟩
    · simp [Hw.moveSector, htr, Hw.setChannel, Hw.store, hstatus]
    · simp [Hw.moveSector, htr, Hw.setChannel, Hw.store, hbuf]
    · simp [Hw.moveSector, htr, Hw.setChannel, store_media, hbuf, hmedia]
      grind

theorem accessSectorsDev_contents (hdrv : drives[driveIdx]? = some drv)
    (hpresent : drv.present = true) (hcount : count ≠ 0) (hlba : lba.toNat + count ≤ 2 ^ 28)
    (hok : h.NoError) (cmd : Cmd) :
    (accessSectorsDev drives cmd driveIdx lba count h).1 = true ∧
      Contents drv cmd lba.toNat count h (accessSectorsDev drives cmd driveIdx lba count h).2 := by
  have haddr (i : Nat) (hi : i < count) : lba.toNat + i = sectorAddr lba i := by
    rw [sectorAddr, BitVec.toNat_add, BitVec.toNat_ofNat]
    omega
  obtain ⟨⟨m, -, hm, hall⟩, hwaits⟩ := (rule_contents drv cmd lba.toNat h).accessSectorsDev hdrv
    hpresent hcount haddr (contents_zero _)
  have hdone := hwaits fun k g hg => hok g hg.status
  rw [hall hdone, Nat.zero_add] at hm
  exact ⟨hdone, hm⟩

theorem oneByOne_contents (hdrv : drives[driveIdx]? = some drv) (hpresent : drv.present = true)
    (hlba : lba.toNat + n ≤ 2 ^ 28) (hok : h.NoError) (cmd : Cmd) :
    Contents drv cmd lba.toNat n h (oneByOne drives cmd driveIdx lba n h) := by
  induction n with
  | zero => exact contents_zero _
  | succ n ih =>
    have hnext : (lba + BitVec.ofNat 64 n).toNat = lba.toNat + n := by
      rw [BitVec.toNat_add, BitVec.toNat_ofNat]
      omega
    rw [oneByOne]
    generalize oneByOne drives cmd driveIdx lba n h = g at ih
    obtain ⟨hstatus, hbuf, hmedia⟩ := ih (by omega)
    obtain ⟨-, hone⟩ := accessSectorsDev_contents hdrv hpresent Nat.one_ne_zero
      (show (lba + BitVec.ofNat 64 n).toNat + 1 ≤ 2 ^ 28 by omega)
      (show Hw.NoError { g with buf := fun k => g.buf (n + k) } by
        unfold Hw.NoError
        rwa [hstatus]) cmd
    rw [hnext] at hone
    generalize accessSectorsDev drives cmd driveIdx _ 1 _ = r at hone
    obtain ⟨hstatus', hbuf', hmedia'⟩ := hone
    refine ⟨hstatus'.trans hstatus, fun k => ?_, fun bus slave x => ?_⟩
    · simp only [hbuf', hbuf, hmedia]
      grind
    · simp only [hmedia', hbuf, hmedia]
      grind

/-- Without a device error a request moves the sectors that it names, each at its place, and it
leaves what one call for each sector leaves. -/
theorem batched_eq_single (hdrv : drives[driveIdx]? = some drv) (hpresent : drv.present = true)
    (hcount : 1 ≤ count) (hlba : lba.toNat + count ≤ 2 ^ 28) (hok : h.NoError) (cmd : Cmd) :
    (accessSectorsDev drives cmd driveIdx lba count h).1 = true ∧
      Contents drv cmd lba.toNat count h (accessSectorsDev drives cmd driveIdx lba count h).2 ∧
      (accessSectorsDev drives cmd driveIdx lba count h).2.buf =
        (oneByOne drives cmd driveIdx lba count h).buf ∧
      (accessSectorsDev drives cmd driveIdx lba count h).2.media =
        (oneByOne drives cmd driveIdx lba count h).media := by
  obtain ⟨hdone, hall⟩ := accessSectorsDev_contents hdrv hpresent
    (Nat.one_le_iff_ne_zero.mp hcount) hlba hok cmd
  have hsingle := oneByOne_contents hdrv hpresent hlba hok cmd
  refine ⟨hdone, hall, funext fun k => ?_, funext fun bus => funext fun slave => funext fun x => ?_⟩
  · rw [hall.buf, hsingle.buf]
  · rw [hall.media, hsingle.media]

/-- A write of 300 sectors, which takes two batches. -/
theorem batched_eq_single_two_batches :
    (accessSectorsDev [smallDisk] .write 0 5 300 readyHw).1 = true ∧
      Contents smallDisk .write 5 300 readyHw
        (accessSectorsDev [smallDisk] .write 0 5 300 readyHw).2 := by
  have hready : readyHw.Ready := fun _ => rfl
  have hall := batched_eq_single (show [smallDisk][0]? = some smallDisk from rfl) rfl
    (show 1 ≤ 300 by decide) (show (5 : BitVec 64).toNat + 300 ≤ 2 ^ 28 by decide)
    hready.noError .write
  exact ⟨hall.1, hall.2.1⟩

end Crius.Ide
