import Crius.Drivers.Ide

/-!
# Block devices

`drivers/block_device.c` and the block devices of `drivers/ide.c`: a disk, and each of its
partitions, as a range of sectors that requests are relative to. Requests come from the
file systems, through `bd->read` and `bd->write`, and from user space, through the
`ioctl` of `/dev/hda`.

Nothing compares a request with the size of its device. A request stays on the device
exactly when it ends within `sector_count` and its last batch starts below sector `2^28`.
-/
namespace Crius.Ide

open Option BitVec List

/-- `struct block_device` with its `struct ide_bd_priv`; `part_idx` is `none` for -1. -/
structure BlockDevice where
  name : List UInt8
  sectorCount : BitVec 64
  driveIdx : Nat
  partIdx : Option (Fin ideMaxPartitions)
  deriving DecidableEq

/-- `MAX_BLOCK_DEVICES` -/
def maxBlockDevices : Nat := 8

def wholeDisk (d : Nat) (drv : Drive) : BlockDevice :=
  ⟨drv.name.take 31, drv.sectorCount, d, none⟩

/-- The name of a partition ends in its number. -/
def partitionDevice (d : Nat) (drv : Drive) (p : Fin ideMaxPartitions) (part : Partition) :
    BlockDevice :=
  ⟨drv.name.take 31 ++ [UInt8.ofNat (48 + p.val + 1)], part.sectorCount, d, some p⟩

def drvDevices (d : Nat) (drv : Drive) : List BlockDevice :=
  if drv.present then
    wholeDisk d drv ::
      (List.finRange ideMaxPartitions).filterMap fun p =>
        (drv.partitions p).map (partitionDevice d drv p)
  else []

/-- `registered[]` after `ide_register_block_devices`; what does not fit is dropped. -/
def registered (drives : Drives) : List BlockDevice :=
  (drives.zipIdx.flatMap fun (drv, d) => drvDevices d drv).take maxBlockDevices

def blockDeviceFind (drives : Drives) (name : List UInt8) : Option BlockDevice :=
  (registered drives).find? (·.name == name)

/-- `ide_bd_read` and `ide_bd_write` -/
def bdAccess (drives : Drives) (cmd : Cmd) (bd : BlockDevice) (sector : BitVec 64)
    (count : BitVec 32) (h : Hw) : Bool × Hw :=
  match bd.partIdx with
  | some p => accessPartition drives cmd bd.driveIdx p sector count.toNat h
  | none => accessSectorsDev drives cmd bd.driveIdx sector count.toNat h

/-- `"hda"` -/
def hdaName : List UInt8 := [104, 100, 97]

/-- A call of `bd->read` or `bd->write`, or an `ioctl` of `/dev/hda`. -/
inductive Request where
  | device (i : Nat) (sector : BitVec 64) (count : BitVec 32)
  | ioctl (lba count : BitVec 64)

namespace Request

variable (drives : Drives) (req : Request)

def bd : Option BlockDevice :=
  match req with
  | .device i _ _ => (registered drives)[i]?
  | .ioctl _ _ => blockDeviceFind drives hdaName

def sector : BitVec 64 :=
  match req with
  | .device _ sector _ => sector
  | .ioctl lba _ => lba

/-- The number of sectors that the caller asks for. -/
def asked : Nat :=
  match req with
  | .device _ _ count => count.toNat
  | .ioctl _ count => count.toNat

/-- The `count` that reaches the driver; the `size_t` of an `ioctl` loses its high half. -/
def count : BitVec 32 :=
  match req with
  | .device _ _ count => count
  | .ioctl _ count => count.setWidth 32

/-- Execute a request; without its device it fails. -/
def issue (cmd : Cmd) (h : Hw) : Bool × Hw :=
  match req.bd drives with
  | none => (false, h)
  | some bd => bdAccess drives cmd bd req.sector req.count h

end Request

/-- The first sector of a device on its disk. -/
def BlockDevice.start (drives : Drives) (bd : BlockDevice) : BitVec 64 :=
  match bd.partIdx with
  | none => 0
  | some p => ((drives[bd.driveIdx]?).bind (·.partitions p)).elim 0 (·.startLba)

/-- The accesses of a request for `asked` sectors from `sector` on: they go to the drive of
the device and to the range that was asked for, within the device, and a sector number of
`2^28` or more does not become a lower one. -/
structure OnDevice (drv : Drive) (start sector asked size : Nat) (accesses : List Access) :
    Prop where
  own : ∀ a ∈ accesses, a.bus = drv.bus ∧ a.slave = drv.isSlave
  inside : ∀ a ∈ accesses, ∃ s, sector ≤ s ∧ s < sector + asked ∧ s < size ∧ a.sector = start + s
  unwrapped : ∀ i a, accesses[i]? = some a → 2 ^ 28 ≤ start + sector + i → 2 ^ 28 ≤ a.sector

/-- Every access that the request makes is on its device. -/
def Request.Confined (drives : Drives) (req : Request) (cmd : Cmd) (h : Hw) : Prop :=
  ∃ accesses, (req.issue drives cmd h).2.log = h.log ++ accesses ∧
    ∀ bd drv, req.bd drives = some bd → drives[bd.driveIdx]? = some drv →
      OnDevice drv (bd.start drives).toNat req.sector.toNat req.asked bd.sectorCount.toNat accesses

/-- The request ends within a device of `size` sectors, and its last batch starts at a
sector that 28 bits can name. -/
def FitsDevice (start sector count size : Nat) : Prop :=
  sector + count ≤ size ∧ start + sector + (count - 1) / 256 * 256 < 2 ^ 28

def Request.Fits (drives : Drives) (req : Request) : Prop :=
  req.count = 0 ∨ ∀ bd, req.bd drives = some bd →
    FitsDevice (bd.start drives).toNat req.sector.toNat req.count.toNat bd.sectorCount.toNat

section Addresses

variable {start sector : BitVec 64} {count asked size : Nat} {drv : Drive} {cmd : Cmd}

theorem sectorAddr_add (start sector : BitVec 64) (i : Nat) :
    sectorAddr (start + sector) i =
      (start.toNat + sector.toNat + i / 256 * 256) % 2 ^ 28 + i % 256 := by
  rw [sectorAddr, toNat_add, toNat_add, toNat_ofNat]
  omega

/-- The batches of a request that fits start where they should. -/
theorem sectorAddr_of_fits (hfit : FitsDevice start.toNat sector.toNat count size) {i : Nat}
    (hi : i < count) : sectorAddr (start + sector) i = start.toNat + sector.toNat + i := by
  have hbatch : i / 256 * 256 ≤ (count - 1) / 256 * 256 :=
    Nat.mul_le_mul_right 256 (Nat.div_le_div_right (by omega))
  have hlow : start.toNat + sector.toNat + i / 256 * 256 < 2 ^ 28 :=
    lt_of_le_of_lt (Nat.add_le_add_left hbatch _) hfit.2
  rw [sectorAddr_add, Nat.mod_eq_of_lt hlow]
  omega

theorem onDevice_of_fits (hfit : FitsDevice start.toNat sector.toNat count size)
    (hasked : count ≤ asked) {k : Nat} (hk : k ≤ count) :
    OnDevice drv start.toNat sector.toNat asked size
      ((List.range k).map fun i => ⟨drv.bus, drv.isSlave, cmd, sectorAddr (start + sector) i⟩) := by
  have hend := hfit.1
  constructor
  · intro a ha
    obtain ⟨i, -, rfl⟩ := List.mem_map.mp ha
    exact ⟨rfl, rfl⟩
  · intro a ha
    obtain ⟨i, hi, rfl⟩ := List.mem_map.mp ha
    have hlt := List.mem_range.mp hi
    have haddr := sectorAddr_of_fits hfit (lt_of_lt_of_le hlt hk)
    exact ⟨sector.toNat + i, by omega, by omega, by omega, by simp only [haddr]; omega⟩
  · intro i a hget hbig
    rw [List.getElem?_map, map_eq_some_iff] at hget
    obtain ⟨j, hj, rfl⟩ := hget
    obtain ⟨hlt, rfl⟩ := List.getElem?_eq_some_iff.mp hj
    rw [List.length_range] at hlt
    simp only [List.getElem_range, sectorAddr_of_fits hfit (lt_of_lt_of_le hlt hk)]
    exact hbig

/-- If all sectors of a request are moved and lie on the device, the request fits. -/
theorem fits_of_onDevice (hcount : 0 < count)
    (hon : OnDevice drv start.toNat sector.toNat asked size
      ((range count).map fun i =>
        ⟨drv.bus, drv.isSlave, cmd, sectorAddr (start + sector) i⟩)) :
    FitsDevice start.toNat sector.toNat count size := by
  have hget {i : Nat} (hi : i < count) :
      ((range count).map fun i => (⟨drv.bus, drv.isSlave, cmd,
        sectorAddr (start + sector) i⟩ : Access))[i]? =
        some ⟨drv.bus, drv.isSlave, cmd, sectorAddr (start + sector) i⟩ := by
    rw [getElem?_map, getElem?_range hi, map_some]
  have hlast : start.toNat + sector.toNat + (count - 1) / 256 * 256 < 2 ^ 28 := by
    -- the first sector of the last batch has a number below 2^28
    by_contra hge
    have hwrap := hon.unwrapped _ _ (hget (i := (count - 1) / 256 * 256) (by omega)) (by omega)
    simp only [sectorAddr_add] at hwrap
    omega
  refine ⟨?_, hlast⟩
  have hlt : count - 1 < count := by omega
  obtain ⟨s, hs, -, hsize, haddr⟩ := hon.inside _ (mem_of_getElem? (hget hlt))
  simp only [sectorAddr_add] at haddr
  rw [Nat.mod_eq_of_lt hlast] at haddr
  omega

end Addresses

section Requests

variable {drives : Drives} {bd : BlockDevice} {drv : Drive} {req : Request}

/-- A registered device belongs to a drive that is present, as a whole or as a partition
in use. -/
theorem registered_drive (hbd : bd ∈ registered drives) :
    ∃ drv, drives[bd.driveIdx]? = some drv ∧ drv.present = true ∧
      ∀ p, bd.partIdx = some p → ∃ part, drv.partitions p = some part := by
  obtain ⟨⟨drv, d⟩, hmem, hin⟩ := mem_flatMap.mp (mem_of_mem_take hbd)
  have hdrv : drives[d]? = some drv := mem_zipIdx_iff_getElem?.mp hmem
  simp only [drvDevices] at hin
  split_ifs at hin with hpresent
  · rcases mem_cons.mp hin with rfl | hpart
    · exact ⟨drv, hdrv, hpresent, fun p hp => absurd hp (some_ne_none p).symm⟩
    · obtain ⟨p, -, hp⟩ := mem_filterMap.mp hpart
      obtain ⟨part, hused, rfl⟩ := map_eq_some_iff.mp hp
      refine ⟨drv, hdrv, hpresent, fun q hq => ⟨part, ?_⟩⟩
      rw [← some.inj hq]
      exact hused
  · exact absurd hin not_mem_nil

theorem Request.bd_registered (hbd : req.bd drives = some bd) : bd ∈ registered drives := by
  cases req with
  | device i sector count => exact mem_of_getElem? hbd
  | ioctl lba count => exact mem_of_find?_eq_some hbd

theorem Request.count_le_asked (req : Request) : req.count.toNat ≤ req.asked := by
  cases req with
  | device i sector count => exact le_rfl
  | ioctl lba count =>
    simp only [Request.count, Request.asked, toNat_setWidth]
    exact Nat.mod_le _ _

/-- A request to a device is an access to the drive from the start of the device on. -/
theorem bdAccess_eq (hbd : bd ∈ registered drives) (cmd : Cmd) (sector : BitVec 64)
    (count : BitVec 32) (h : Hw) :
    bdAccess drives cmd bd sector count h =
      accessSectorsDev drives cmd bd.driveIdx (bd.start drives + sector) count.toNat h := by
  obtain ⟨drv, hdrv, -, hparts⟩ := registered_drive hbd
  cases hp : bd.partIdx with
  | none => simp only [bdAccess, BlockDevice.start, hp, BitVec.ofNat_eq_ofNat, BitVec.zero_add]
  | some p =>
    obtain ⟨part, hused⟩ := hparts p hp
    simp only [bdAccess, BlockDevice.start, accessPartition, hp, hdrv, hused, bind_some,
      elim_some]

/-- What a request for at least one sector moves. -/
theorem moved_accessSectorsDev {driveIdx : Nat} (hdrv : drives[driveIdx]? = some drv)
    (hpresent : drv.present = true) {count : Nat} (hcount : count ≠ 0) (cmd : Cmd)
    (lba : BitVec 64) (h : Hw) :
    Moved h (accessSectorsDev drives cmd driveIdx lba count h).2
      (accessSectorsDev drives cmd driveIdx lba count h).1 count
      fun i => ⟨drv.bus, drv.isSlave, cmd, sectorAddr lba i⟩ := by
  have R : Rule (fun k g => g.log = h.log ++ (range k).map (fun i =>
      ⟨drv.bus, drv.isSlave, cmd, sectorAddr lba i⟩) ∧ g.status = h.status) drv.bus cmd
      drv.isSlave (sectorAddr lba) := by
    refine ⟨fun _ _ _ hg => hg, fun _ _ _ hg => hg, fun k g n hg htr => ?_⟩
    cases cmd <;> simp [Hw.moveSector, htr, Hw.setChannel, Hw.store, range_succ, hg.1, hg.2]
  obtain ⟨⟨m, hm, ⟨hlog, hstatus⟩, hall⟩, hwaits⟩ :=
    R.accessSectorsDev hdrv hpresent hcount (fun _ _ => rfl) ⟨(append_nil _).symm, rfl⟩
  rw [zero_add] at hlog
  exact ⟨⟨m, hm, hlog, hall⟩, hstatus, fun hready => hwaits fun k g hg => hready.noError g hg.2⟩

/-- The log after a request for at least one sector. -/
theorem Request.issue_log (hbd : req.bd drives = some bd) (hdrv : drives[bd.driveIdx]? = some drv)
    (hcount : req.count ≠ 0) (cmd : Cmd) (h : Hw) :
    ∃ k ≤ req.count.toNat, (req.issue drives cmd h).2.log =
      h.log ++ (range k).map (fun i =>
        ⟨drv.bus, drv.isSlave, cmd, sectorAddr (bd.start drives + req.sector) i⟩) ∧
      (h.Ready → k = req.count.toNat) := by
  have hreg := Request.bd_registered hbd
  obtain ⟨drv', hdrv', hpresent, -⟩ := registered_drive hreg
  rw [hdrv, some.injEq] at hdrv'
  subst hdrv'
  have hne : req.count.toNat ≠ 0 := fun hz => hcount (eq_of_toNat_eq hz)
  have hmoved := moved_accessSectorsDev hdrv hpresent hne cmd (bd.start drives + req.sector) h
  obtain ⟨k, hk, hlog, hall⟩ := hmoved.log
  refine ⟨k, hk, ?_, fun hr => hall (hmoved.ready hr)⟩
  simp only [Request.issue, hbd, bdAccess_eq hreg]
  exact hlog

/-- A request that the driver rejects moves nothing. -/
theorem Request.confined_of_log (cmd : Cmd) (h : Hw)
    (hlog : (req.issue drives cmd h).2.log = h.log) : req.Confined drives cmd h := by
  refine ⟨[], by rw [hlog, append_nil], fun bd drv _ _ => ⟨?_, ?_, ?_⟩⟩
  · exact fun a ha => absurd ha not_mem_nil
  · exact fun a ha => absurd ha not_mem_nil
  · intro i a hi
    rw [getElem?_nil] at hi
    exact absurd hi.symm (some_ne_none a)

theorem Request.confined_of_fits (hfits : req.Fits drives) (cmd : Cmd) (h : Hw) :
    req.Confined drives cmd h := by
  cases hbd : req.bd drives with
  | none =>
    apply Request.confined_of_log
    simp only [Request.issue, hbd]
  | some bd =>
    have hreg := Request.bd_registered hbd
    obtain ⟨drv, hdrv, -⟩ := registered_drive hreg
    by_cases hcount : req.count = 0
    · apply Request.confined_of_log
      simp only [Request.issue, hbd, bdAccess_eq hreg, accessSectorsDev, hdrv, hcount,
        ofNat_eq_ofNat, toNat_zero, true_or, if_true]
    · obtain ⟨k, hk, hlog, -⟩ := Request.issue_log hbd hdrv hcount cmd h
      refine ⟨_, hlog, fun bd' drv' hbd' hdrv' => ?_⟩
      rw [hbd, some.injEq] at hbd'
      subst hbd'
      rw [hdrv, some.injEq] at hdrv'
      subst hdrv'
      exact onDevice_of_fits (hfits.resolve_left hcount bd hbd) req.count_le_asked hk

/-- Two buses with drives that are always ready. -/
def readyHw : Hw where
  channels _ := ⟨0, 0, 0, 0, 0, none⟩
  media _ _ _ _ := 0
  status _ := 0x08
  polls := 0
  buf _ _ := 0
  log := []

/-- Drives that are always ready move every sector of a request. -/
theorem Request.fits_of_confined {cmd : Cmd} (hconf : req.Confined drives cmd readyHw) :
    req.Fits drives := by
  by_cases hcount : req.count = 0
  · exact .inl hcount
  · refine .inr fun bd hbd => ?_
    obtain ⟨drv, hdrv, -⟩ := registered_drive (Request.bd_registered hbd)
    obtain ⟨accesses, hlog, hon⟩ := hconf
    obtain ⟨k, -, hlog', hall⟩ := Request.issue_log hbd hdrv hcount cmd readyHw
    rw [hlog', hall fun _ => rfl] at hlog
    have hdev := hon bd drv hbd hdrv
    rw [← append_cancel_left hlog] at hdev
    exact fits_of_onDevice (Nat.pos_of_ne_zero fun hz => hcount (eq_of_toNat_eq hz)) hdev

end Requests

/-- For every set of drives and partitions and every request: whatever the drives answer,
the request stays on its device, if and only if it fits. -/
theorem block_requests_stay_on_device (drives : Drives) (req : Request) (cmd : Cmd) :
    (∀ h, req.Confined drives cmd h) ↔ req.Fits drives :=
  ⟨fun hall => Request.fits_of_confined (hall readyHw),
    fun hfits h => Request.confined_of_fits hfits cmd h⟩

/-- A disk of 1000 sectors with one partition of 10 sectors, from sector 100 on. -/
def smallDisk : Drive where
  present := true
  sectorCount := 1000
  name := hdaName
  bus := false
  isSlave := false
  partitions p := if p.val = 0 then some ⟨100, 10⟩ else none

/-- The partition is the second device. A write to its sector 10, the first one behind
its end, goes to sector 110 of the disk, and the write succeeds. -/
theorem partition_write_overruns :
    ((registered [smallDisk])[1]?.map fun bd => (bd.partIdx, bd.sectorCount)) =
        some (some ⟨0, by decide⟩, 10) ∧
      ((Request.device 1 10 1).issue [smallDisk] .write readyHw).1 = true ∧
      ((Request.device 1 10 1).issue [smallDisk] .write readyHw).2.log =
        [⟨false, false, .write, 110⟩] ∧
      ¬(Request.device 1 10 1).Confined [smallDisk] .write readyHw := by
  have hfits : ¬(Request.device 1 10 1).Fits [smallDisk] := by
    intro hfits
    have h := (hfits.resolve_left (by decide) _ rfl).1
    revert h
    decide
  exact ⟨by decide, by decide +kernel, by decide +kernel,
    fun hconf => hfits (Request.fits_of_confined hconf)⟩

end Crius.Ide
