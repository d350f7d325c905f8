import Mathlib.Tactic

/-!
# The IDE driver

The transfers of `drivers/ide.c` over an ATA controller that follows the register
protocol. A command takes the 28 bit sector number and the sector count, where 0 stands
for 256, from the registers of its bus and then moves one sector after the other. What
the status register says at each poll is arbitrary, so a transfer can fail at any point.

The controller keeps a log of the sectors that were moved.
-/
namespace Crius.Ide

open List Nat

/-- `IDE_MAX_PARTITIONS` -/
def ideMaxPartitions : Nat := 4

/-- `ATA_CMD_READ_PIO` and `ATA_CMD_WRITE_PIO` -/
inductive Cmd where
  | read
  | write
  deriving DecidableEq, Repr

/-- The 256 words of a sector. -/
abbrev Sector := Fin 256 → BitVec 16

/-- A command that is being executed: the drive, the next sector and how many are left. -/
structure Transfer where
  cmd : Cmd
  slave : Bool
  next : Nat
  left : Nat
  deriving DecidableEq, Repr

/-- The registers of a bus, at the offsets 6 and 2 to 5 from its base. -/
structure Channel where
  select : BitVec 8
  count : BitVec 8
  lbaLo : BitVec 8
  lbaMid : BitVec 8
  lbaHi : BitVec 8
  transfer : Option Transfer
  deriving DecidableEq, Repr

namespace Channel

variable (c : Channel)

/-- The sector number in the registers. -/
def lba28 : Nat :=
  (c.select &&& 0x0F).toNat * 2 ^ 24 + c.lbaHi.toNat * 2 ^ 16 + c.lbaMid.toNat * 2 ^ 8 +
    c.lbaLo.toNat

def sectors : Nat := if c.count = 0 then 256 else c.count.toNat

/-- A write to the command register. -/
def issue (cmd : Cmd) : Channel :=
  { c with transfer := some ⟨cmd, c.select.getLsbD 4, c.lba28, c.sectors⟩ }

end Channel

/-- One sector that a drive read or wrote. -/
structure Access where
  bus : Bool
  slave : Bool
  cmd : Cmd
  sector : Nat
  deriving DecidableEq, Repr

/-- The two buses with up to two drives each, the answers to the polls of the status
registers and the buffer of the request, sector by sector. -/
structure Hw where
  channels : Bool → Channel
  media : Bool → Bool → Nat → Sector
  status : Nat → BitVec 8
  polls : Nat
  buf : Nat → Sector
  log : List Access

namespace Hw

def setChannel (b : Bool) (c : Channel) (h : Hw) : Hw :=
  { h with channels := Function.update h.channels b c }

def store (b slave : Bool) (n : Nat) (data : Sector) (h : Hw) : Hw :=
  let drive := Function.update (h.media b slave) n data
  let bus := Function.update (h.media b) slave drive
  { h with media := Function.update h.media b bus }

def inStatus (h : Hw) : BitVec 8 × Hw := (h.status h.polls, { h with polls := h.polls + 1 })

/-- The 256 `inw` or `outw` of a sector, from or to position `k` of the buffer. -/
def moveSector (b : Bool) (cmd : Cmd) (k : Nat) (h : Hw) : Hw :=
  match (h.channels b).transfer with
  | none => h
  | some tr =>
    if tr.cmd ≠ cmd ∨ tr.left = 0 then h
    else
      let h := h.setChannel b
        { h.channels b with transfer := some { tr with next := tr.next + 1, left := tr.left - 1 } }
      let h := { h with log := h.log ++ [(⟨b, tr.slave, cmd, tr.next⟩ : Access)] }
      match cmd with
      | .read => { h with buf := Function.update h.buf k (h.media b tr.slave tr.next) }
      | .write => h.store b tr.slave tr.next (h.buf k)

end Hw

/-- `ata_wait_busy` -/
def ataWaitBusy : Nat → Hw → Bool × Hw
  | 0, h => (false, h.inStatus.2)
  | timeout + 1, h =>
    if h.inStatus.1.getLsbD 7 then ataWaitBusy timeout h.inStatus.2 else (true, h.inStatus.2)

/-- `ata_wait_drq`; an error or a device fault ends it at once. -/
def ataWaitDrq : Nat → Hw → Bool × Hw
  | 0, h => (false, h.inStatus.2)
  | timeout + 1, h =>
    if h.inStatus.1.getLsbD 0 || h.inStatus.1.getLsbD 5 then (false, h.inStatus.2)
    else if h.inStatus.1.getLsbD 3 then (true, h.inStatus.2)
    else ataWaitDrq timeout h.inStatus.2

/-- The initial value of `timeout`. -/
def ataTimeout : Nat := 100000

/-- `struct ide_partition` -/
structure Partition where
  startLba : BitVec 64
  sectorCount : BitVec 64
  deriving DecidableEq, Repr

/-- `struct ide_drive`; a partition that is not used is `none`. -/
structure Drive where
  present : Bool
  sectorCount : BitVec 64
  name : List UInt8
  bus : Bool
  isSlave : Bool
  partitions : Fin ideMaxPartitions → Option Partition

/-- The high bits of the drive register, which select the drive and sector numbers. -/
def driveBits (slave : Bool) : BitVec 8 := if slave then 0xF0 else 0xE0

/-- The registers of one batch: the drive, the count and the sector, then the command. -/
def startBatch (drv : Drive) (cmd : Cmd) (lba : BitVec 64) (batch : Nat) (h : Hw) : Hw :=
  h.setChannel drv.bus <| Channel.issue
    { h.channels drv.bus with
      select := driveBits drv.isSlave ||| ((lba >>> 24).setWidth 8 &&& 0x0F)
      count := BitVec.ofNat 8 batch
      lbaLo := lba.setWidth 8
      lbaMid := (lba >>> 8).setWidth 8
      lbaHi := (lba >>> 16).setWidth 8 } cmd

/-- The inner loop over the sectors of a batch; `k` is the position in the buffer. -/
def moveSectors (b : Bool) (cmd : Cmd) : Nat → Nat → Hw → Bool × Hw
  | 0, _, h => (true, h)
  | n + 1, k, h =>
    match ataWaitBusy ataTimeout h with
    | (false, h) => (false, h)
    | (true, h) =>
      match ataWaitDrq ataTimeout h with
      | (false, h) => (false, h)
      | (true, h) => moveSectors b cmd n (k + 1) (h.moveSector b cmd k)

/-- The loop over the batches, of at most 256 sectors each. Every batch moves at least
one sector, so `count` rounds are enough. -/
def moveBatches (drv : Drive) (cmd : Cmd) : Nat → BitVec 64 → Nat → Nat → Hw → Bool × Hw
  | 0, _, _, _, h => (true, h)
  | fuel + 1, lba, done, left, h =>
    if left = 0 then (true, h)
    else
      let batch := min left 256
      match moveSectors drv.bus cmd batch done (startBatch drv cmd lba batch h) with
      | (false, h) => (false, h)
      | (true, h) =>
        moveBatches drv cmd fuel (lba + BitVec.ofNat 64 batch) (done + batch) (left - batch) h

/-- The drives that were found, `drives[0]` to `drives[drive_count - 1]`. -/
abbrev Drives := List Drive

/-- After the last batch a write sends the command `0xE6`, which moves no data; then both
wait, with a result that does not count. -/
def finish (drv : Drive) (cmd : Cmd) (h : Hw) : Hw :=
  match cmd with
  | .read => (ataWaitBusy ataTimeout h).2
  | .write =>
    (ataWaitBusy ataTimeout
      (h.setChannel drv.bus { h.channels drv.bus with transfer := none })).2

/-- `ide_read_sectors_dev` and `ide_write_sectors_dev`, with false for -1. -/
def accessSectorsDev (drives : Drives) (cmd : Cmd) (driveIdx : Nat) (lba : BitVec 64)
    (count : Nat) (h : Hw) : Bool × Hw :=
  match drives[driveIdx]? with
  | none => (false, h)
  | some drv =>
    if count = 0 ∨ drv.present = false then (false, h)
    else
      match moveBatches drv cmd count lba 0 count h with
      | (false, h) => (false, h)
      | (true, h) => (true, finish drv cmd h)

def ideReadSectorsDev (drives : Drives) := accessSectorsDev drives .read
def ideWriteSectorsDev (drives : Drives) := accessSectorsDev drives .write

/-- `ide_read_partition` and `ide_write_partition` -/
def accessPartition (drives : Drives) (cmd : Cmd) (driveIdx : Nat)
    (partIdx : Fin ideMaxPartitions) (lba : BitVec 64) (count : Nat) (h : Hw) : Bool × Hw :=
  match drives[driveIdx]? with
  | none => (false, h)
  | some drv =>
    match drv.partitions partIdx with
    | none => (false, h)
    | some part => accessSectorsDev drives cmd driveIdx (part.startLba + lba) count h

def ideReadPartition (drives : Drives) := accessPartition drives .read
def ideWritePartition (drives : Drives) := accessPartition drives .write

/-! ## The sectors that a request moves -/

/-- Every poll finds the drive ready to transfer. -/
def Hw.Ready (h : Hw) : Prop := ∀ n, h.status n = 0x08

/-- From `h` to `h'` the first sectors of a request for `count` sectors were moved, all of
them if it did not fail, and it fails only on a drive that is not ready. -/
structure Moved (h h' : Hw) (ok : Bool) (count : Nat) (access : Nat → Access) : Prop where
  log : ∃ k ≤ count, h'.log = h.log ++ (List.range k).map access ∧ (ok = true → k = count)
  status : h'.status = h.status
  ready : h.Ready → ok = true

section Waits

variable {h : Hw} {t : Nat}

theorem ataWaitBusy_polls (t : Nat) (h : Hw) :
    ∃ n, (ataWaitBusy t h).2 = { h with polls := n } := by
  induction t generalizing h with
  | zero => exact ⟨_, rfl⟩
  | succ t ih =>
    rw [ataWaitBusy]
    split
    · exact ih h.inStatus.2
    · exact ⟨_, rfl⟩

theorem ataWaitDrq_polls (t : Nat) (h : Hw) : ∃ n, (ataWaitDrq t h).2 = { h with polls := n } := by
  induction t generalizing h with
  | zero => exact ⟨_, rfl⟩
  | succ t ih =>
    rw [ataWaitDrq]
    split
    · exact ⟨_, rfl⟩
    · split
      · exact ⟨_, rfl⟩
      · exact ih h.inStatus.2

theorem ataTimeout_eq : ataTimeout = 99999 + 1 := rfl

theorem ataWaitBusy_ready (h : Hw) (hready : h.Ready) : (ataWaitBusy ataTimeout h).1 = true := by
  have hfree : ¬h.inStatus.1.getLsbD 7 = true := by
    rw [show h.inStatus.1 = 0x08 from hready _]
    decide
  rw [ataTimeout_eq, ataWaitBusy, if_neg hfree]

theorem ataWaitDrq_ready (h : Hw) (hready : h.Ready) : (ataWaitDrq ataTimeout h).1 = true := by
  have hstatus : h.inStatus.1 = 0x08 := hready _
  have hgood : ¬(h.inStatus.1.getLsbD 0 || h.inStatus.1.getLsbD 5) = true := by
    rw [hstatus]
    decide
  have hdrq : h.inStatus.1.getLsbD 3 = true := by
    rw [hstatus]
    decide
  rw [ataTimeout_eq, ataWaitDrq, if_neg hgood, if_pos hdrq]

end Waits

section Batches

/-- Both waits of the driver end well from here on. -/
def Hw.Waits (h : Hw) : Prop :=
  (ataWaitBusy ataTimeout h).1 = true ∧ (ataWaitDrq ataTimeout h).1 = true

/-- No device error: with these answers of the status register no wait fails, wherever it
starts. -/
def Hw.NoError (h : Hw) : Prop := ∀ g : Hw, g.status = h.status → g.Waits

theorem Hw.Ready.noError {h : Hw} (hready : h.Ready) : h.NoError := by
  intro g hg
  have hr : g.Ready := by
    unfold Hw.Ready
    rwa [hg]
  exact ⟨ataWaitBusy_ready g hr, ataWaitDrq_ready g hr⟩

/-- `P k` can be kept as what holds after `k` sectors of a request, where the `k`-th one is at
`addr k` on the drive and at `k` in the buffer. -/
structure Rule (P : Nat → Hw → Prop) (b : Bool) (cmd : Cmd) (slave : Bool)
    (addr : Nat → Nat) : Prop where
  polls : ∀ k h n, P k h → P k { h with polls := n }
  channel : ∀ k h c, P k h → P k (h.setChannel b c)
  move : ∀ k h n, P k h → (h.channels b).transfer = some ⟨cmd, slave, addr k, n + 1⟩ →
    P (k + 1) (h.moveSector b cmd k)

/-- After the first `k` sectors some of the next `n` were moved, all of them if the call did
not fail, and it fails only where a wait does. -/
structure Kept (P : Nat → Hw → Prop) (k n : Nat) (r : Bool × Hw) : Prop where
  moved : ∃ m ≤ n, P (k + m) r.2 ∧ (r.1 = true → m = n)
  waits : (∀ k h, P k h → h.Waits) → r.1 = true

variable {P : Nat → Hw → Prop} {h : Hw} {b : Bool} {cmd : Cmd} {slave : Bool}
  {addr : Nat → Nat} {next left k n : Nat}

theorem Kept.still (hP : P k h) : Kept P k 0 (true, h) :=
  ⟨⟨0, le_rfl, hP, fun _ => rfl⟩, fun _ => rfl⟩

theorem Kept.failed (hP : P k h) (hno : ¬∀ k h, P k h → h.Waits) : Kept P k n (false, h) :=
  ⟨⟨0, zero_le n, hP, fun hok => by cases hok⟩, fun hwaits => absurd hwaits hno⟩

theorem Kept.append {r : Bool × Hw} (hP : Kept P (k + n) left r) : Kept P k (n + left) r := by
  obtain ⟨⟨m, hm, hPm, hall⟩, hwaits⟩ := hP
  exact ⟨⟨n + m, by omega, add_assoc k n m ▸ hPm, fun hok => by rw [hall hok]⟩, hwaits⟩

/-- The command after one of its sectors has been moved. -/
theorem moveSector_transfer (k : Nat)
    (htr : (h.channels b).transfer = some ⟨cmd, slave, next, left + 1⟩) :
    ((h.moveSector b cmd k).channels b).transfer = some ⟨cmd, slave, next + 1, left⟩ := by
  have hgo : ¬(cmd ≠ cmd ∨ left + 1 = 0) := by simp
  cases cmd <;>
  · simp only [Hw.moveSector, htr, if_neg hgo, Hw.setChannel, Hw.store, Function.update_self]
    rfl

/-- The sectors of a batch follow each other, from the number that the command took. -/
theorem Rule.moveSectors (R : Rule P b cmd slave addr)
    (htr : (h.channels b).transfer = some ⟨cmd, slave, next, n⟩)
    (haddr : ∀ i < n, addr (k + i) = next + i) (hP : P k h) :
    Kept P k n (moveSectors b cmd n k h) := by
  induction n generalizing h k next with
  | zero => exact .still hP
  | succ n ih =>
    obtain ⟨p, hp⟩ := ataWaitBusy_polls ataTimeout h
    have hbusy := R.polls k h p hP
    rw [Ide.moveSectors]
    rcases hw : ataWaitBusy ataTimeout h with ⟨ok, h₁⟩
    obtain rfl : h₁ = { h with polls := p } := by rw [← hp, hw]
    cases ok with
    | false => exact .failed hbusy fun hwaits => by simpa [hw] using (hwaits k h hP).1
    | true =>
      obtain ⟨q, hq⟩ := ataWaitDrq_polls ataTimeout { h with polls := p }
      have hdrq := R.polls k h q hP
      dsimp only
      rcases hw2 : ataWaitDrq ataTimeout { h with polls := p } with ⟨ok, h₂⟩
      obtain rfl : h₂ = { h with polls := q } := by rw [← hq, hw2]
      cases ok with
      | false => exact .failed hdrq fun hwaits => by simpa [hw2] using (hwaits k _ hbusy).2
      | true =>
        have htr2 : (Hw.channels { h with polls := q } b).transfer =
          some ⟨cmd, slave, next, n + 1⟩ := htr
        have hone := R.move k _ n hdrq (by rw [htr2, show addr k = next from haddr 0 (by omega)])
        rw [add_comm n 1]
        refine .append (ih (moveSector_transfer k htr2) (fun i hi => ?_) hone)
        rw [add_assoc, haddr (1 + i) (by omega), add_assoc]

theorem lowNibble (x : BitVec 8) (slave : Bool) :
    (driveBits slave ||| (x &&& 0x0F)) &&& 0x0F = x &&& 0x0F ∧
      (driveBits slave ||| (x &&& 0x0F)).getLsbD 4 = slave := by
  revert x slave
  decide

/-- The registers hold the low 28 bits of the sector number. -/
theorem registers_lba (lba : BitVec 64) :
    ((lba >>> 24).setWidth 8 &&& (0x0F : BitVec 8)).toNat * 2 ^ 24 +
      ((lba >>> 16).setWidth 8).toNat * 2 ^ 16 + ((lba >>> 8).setWidth 8).toNat * 2 ^ 8 +
        (lba.setWidth 8).toNat = lba.toNat % 2 ^ 28 := by
  have hmask (x : Nat) : x &&& 15 = x % 16 := and_two_pow_sub_one_eq_mod x 4
  simp only [BitVec.toNat_and, BitVec.toNat_setWidth, BitVec.toNat_ushiftRight,
    shiftRight_eq_div_pow, BitVec.ofNat_eq_ofNat, BitVec.toNat_ofNat, reducePow,
    reduceMod, hmask]
  omega

/-- A count of 256 is written as 0 and means 256. -/
theorem register_count {batch : Nat} (hpos : 0 < batch) (hle : batch ≤ 256) :
    (if BitVec.ofNat 8 batch = 0 then 256 else (BitVec.ofNat 8 batch).toNat) = batch := by
  have hval : (BitVec.ofNat 8 batch).toNat = batch % 256 := BitVec.toNat_ofNat batch 8
  by_cases hfull : batch = 256
  · subst hfull
    rfl
  · have hne : BitVec.ofNat 8 batch ≠ 0 := by
      intro hzero
      rw [hzero] at hval
      change 0 = batch % 256 at hval
      omega
    rw [if_neg hne, hval]
    omega

/-- The drive takes the low 28 bits of the sector number and the count as it was meant. -/
theorem startBatch_transfer (drv : Drive) (cmd : Cmd) (lba : BitVec 64) {batch : Nat}
    (hpos : 0 < batch) (hle : batch ≤ 256) (h : Hw) :
    ((startBatch drv cmd lba batch h).channels drv.bus).transfer =
      some ⟨cmd, drv.isSlave, lba.toNat % 2 ^ 28, batch⟩ := by
  obtain ⟨hlow, hslave⟩ := lowNibble ((lba >>> 24).setWidth 8) drv.isSlave
  simp only [startBatch, Hw.setChannel, Function.update_self, Channel.issue, Channel.lba28,
    Channel.sectors, hlow, hslave, registers_lba, register_count hpos hle]

/-- The disk sector of the `i`-th sector of a request: every batch starts anew with 28
bits of the sector number. -/
def sectorAddr (lba : BitVec 64) (i : Nat) : Nat :=
  (lba + BitVec.ofNat 64 (i / 256 * 256)).toNat % 2 ^ 28 + i % 256

theorem sectorAddr_batch (lba : BitVec 64) {i : Nat} (hi : i < 256) :
    sectorAddr lba i = lba.toNat % 2 ^ 28 + i := by
  rw [sectorAddr, Nat.div_eq_of_lt hi, Nat.mod_eq_of_lt hi, Nat.zero_mul, BitVec.add_zero]

theorem sectorAddr_next (lba : BitVec 64) (i : Nat) :
    sectorAddr (lba + BitVec.ofNat 64 256) i = sectorAddr lba (256 + i) := by
  have hdiv : (256 + i) / 256 * 256 = 256 + i / 256 * 256 := by omega
  rw [sectorAddr, sectorAddr, hdiv, add_mod_left, BitVec.ofNat_add, BitVec.add_assoc]

section

variable {drv : Drive} (R : Rule P drv.bus cmd drv.isSlave addr)

include R

theorem Rule.moveBatches (fuel : Nat) (lba : BitVec 64) (hfuel : left ≤ fuel)
    (haddr : ∀ i < left, addr (k + i) = sectorAddr lba i) (hP : P k h) :
    Kept P k left (moveBatches drv cmd fuel lba k left h) := by
  induction fuel generalizing lba k left h with
  | zero =>
    obtain rfl : left = 0 := by omega
    exact .still hP
  | succ fuel ih =>
    by_cases hleft : left = 0
    · subst hleft
      exact .still hP
    · rw [Ide.moveBatches, if_neg hleft]
      have htr := startBatch_transfer drv cmd lba (show 0 < min left 256 by omega) (by omega) h
      have hbatch := R.moveSectors (k := k) htr (fun i hi => by
        rw [haddr i (by omega), sectorAddr_batch lba (by omega)]) (R.channel k h _ hP)
      dsimp only
      generalize Ide.moveSectors drv.bus cmd (min left 256) k _ = r at hbatch
      obtain ⟨⟨m, hm, hPm, hall⟩, hwaits⟩ := hbatch
      obtain ⟨ok, h₁⟩ := r
      cases ok with
      | false =>
        exact ⟨⟨m, hm.trans (min_le_left _ _), hPm, fun hok => by cases hok⟩, hwaits⟩
      | true =>
        obtain rfl := hall rfl
        have hrest := (ih (lba + BitVec.ofNat 64 (min left 256))
          (show left - min left 256 ≤ fuel by omega) (fun i hi => by
            -- a batch that is not the last one has 256 sectors
            rw [add_assoc, haddr _ (by omega), show min left 256 = 256 by omega,
              sectorAddr_next]) hPm).append
        rwa [show min left 256 + (left - min left 256) = left by omega] at hrest

theorem Rule.finish (hP : P k h) : P k (finish drv cmd h) := by
  cases cmd with
  | read =>
    obtain ⟨n, hn⟩ := ataWaitBusy_polls ataTimeout h
    rw [Ide.finish, hn]
    exact R.polls k h n hP
  | write =>
    obtain ⟨n, hn⟩ := ataWaitBusy_polls ataTimeout
      (h.setChannel drv.bus { h.channels drv.bus with transfer := none })
    rw [Ide.finish, hn]
    exact R.polls k _ n (R.channel k h _ hP)

end

/-- What holds after a request for at least one sector. -/
theorem Rule.accessSectorsDev {drives : Drives} {driveIdx count : Nat} {drv : Drive}
    {lba : BitVec 64} (R : Rule P drv.bus cmd drv.isSlave addr)
    (hdrv : drives[driveIdx]? = some drv) (hpresent : drv.present = true) (hcount : count ≠ 0)
    (haddr : ∀ i < count, addr i = sectorAddr lba i) (hP : P 0 h) :
    Kept P 0 count (accessSectorsDev drives cmd driveIdx lba count h) := by
  have hgo : ¬(count = 0 ∨ drv.present = false) := by simp [hcount, hpresent]
  have hbatches := R.moveBatches count lba le_rfl (fun i hi => by rw [zero_add, haddr i hi]) hP
  simp only [Ide.accessSectorsDev, hdrv, if_neg hgo]
  generalize Ide.moveBatches drv cmd count lba 0 count h = r at hbatches
  obtain ⟨ok, h₁⟩ := r
  cases ok with
  | false => exact hbatches
  | true =>
    obtain ⟨⟨m, hm, hPm, hall⟩, hwaits⟩ := hbatches
    exact ⟨⟨m, hm, R.finish hPm, hall⟩, hwaits⟩

end Batches

end Crius.Ide
