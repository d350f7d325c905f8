import Crius.Lib.Run
import Mathlib.Data.Fintype.Card

/-!
# PCI enumeration

`pci_init` of `drivers/pci.c`. The answers to reads of the configuration space are arbitrary, and
may change from one read to the next.
-/
namespace Crius.Pci

open Lib.Run List

/-- `PCI_MAX_DEVICES` -/
def maxDevices : Nat := 64

structure Device where
  bus : UInt8
  dev : UInt8
  func : UInt8
  vendorId : UInt16
  deviceId : UInt16
  classCode : UInt8
  subclass : UInt8
  progIf : UInt8
  revision : UInt8
  headerType : UInt8
  interruptLine : UInt8
  bars : List UInt32

/-- `pci_devices` up to `pci_device_count`, and the buses with `bus_visited` set, the one whose scan
began last in front. -/
structure Found where
  devices : List Device
  visited : List UInt8

structure Scan extends Found where
  reads : Nat

def makeAddr (bus dev func offset : UInt8) : UInt32 :=
  (0x80000000 : UInt32) ||| bus.toUInt32 <<< 16 ||| (dev &&& 0x1F).toUInt32 <<< 11 |||
    (func &&& 0x07).toUInt32 <<< 8 ||| (offset &&& 0xFC).toUInt32

variable (config : Nat → UInt32 → UInt32)

/-- `config n a` is the answer to the read with number `n`, of the address `a`. -/
def readConfig32 (bus dev func offset : UInt8) : StateM Scan UInt32 := fun s =>
  (config s.reads (makeAddr bus dev func offset), { s with reads := s.reads + 1 })

def readConfig16 (bus dev func offset : UInt8) : StateM Scan UInt16 := do
  let val ← readConfig32 config bus dev func (offset &&& 0xFC)
  return (val >>> ((offset &&& 2) * 8).toUInt32).toUInt16

def readConfig8 (bus dev func offset : UInt8) : StateM Scan UInt8 := do
  let val ← readConfig32 config bus dev func (offset &&& 0xFC)
  return (val >>> ((offset &&& 3) * 8).toUInt32).toUInt8

/-- The fields of a new entry of `pci_devices`. -/
def readDevice (bus dev func : UInt8) : StateM Scan Device := do
  let vendorId ← readConfig16 config bus dev func 0x00
  let deviceId ← readConfig16 config bus dev func 0x02
  let cls ← readConfig32 config bus dev func 0x08
  let header ← readConfig8 config bus dev func 0x0E
  let interruptLine ← readConfig8 config bus dev func 0x3C
  let bars ← [0, 1, 2, 3, 4, 5].mapM fun b => readConfig32 config bus dev func (0x10 + b * 4)
  return { bus, dev, func, vendorId, deviceId, interruptLine, bars, revision := cls.toUInt8
           progIf := (cls >>> 8).toUInt8, subclass := (cls >>> 16).toUInt8
           classCode := (cls >>> 24).toUInt8, headerType := header &&& 0x7F }

def addDevice (bus dev func : UInt8) (s : Scan) : Option Device × Scan :=
  if maxDevices ≤ s.devices.length then (none, s)
  else
    let d := readDevice config bus dev func s
    (some d.1, { d.2 with devices := s.devices ++ [d.1] })

/-- One function of a device; `scan` scans a bus behind a bridge. -/
def scanFunc (scan : Scan → UInt8 → Option Scan) (bus dev : UInt8) (s : Scan) (func : UInt8) :
    Option Scan :=
  -- the vendor of function 0 was read before the loop
  let vendor := if func = 0 then (0, s) else readConfig16 config bus dev func 0x00 s
  if vendor.1 = 0xFFFF then some vendor.2
  else
    match addDevice config bus dev func vendor.2 with
    | (none, s) => some s
    | (some d, s) =>
      if d.headerType = 1 then
        let secondary := readConfig8 config bus dev func 0x19 s
        let subordinate := readConfig8 config bus dev func 0x1A secondary.2
        if secondary.1 ≠ bus ∧ secondary.1 ≠ 0 ∧ secondary.1 ≤ subordinate.1 ∧ subordinate.1 < 255 then
          run scan subordinate.2 ((range (subordinate.1.toNat + 1 - secondary.1.toNat)).map fun i =>
            secondary.1 + .ofNat i)
        else some subordinate.2
      else some s

def scanDev (scan : Scan → UInt8 → Option Scan) (bus : UInt8) (s : Scan) (dev : UInt8) :
    Option Scan :=
  let vendor := readConfig16 config bus dev 0 0x00 s
  if vendor.1 = 0xFFFF then some vendor.2
  else
    let header := readConfig8 config bus dev 0 0x0E vendor.2
    let functions := if header.1 &&& 0x80 ≠ 0 then 8 else 1
    run (scanFunc config scan bus dev) header.2 ((range functions).map .ofNat)

/-- `pci_scan_bus`, to a depth of recursion. -/
def scanBus : Nat → Scan → UInt8 → Option Scan
  | 0, _, _ => none
  | depth + 1, s, bus =>
    if bus ∈ s.visited ∨ maxDevices ≤ s.devices.length then some s
    else run (scanDev config (scanBus depth) bus) { s with visited := bus :: s.visited }
      ((range 32).map .ofNat)

def pciInit (depth : Nat) : Option Scan := scanBus config depth ⟨⟨[], []⟩, 0⟩ 0

/-! ## What a scan keeps -/

def Device.place (d : Device) : UInt8 × UInt8 × UInt8 := (d.bus, d.dev, d.func)

structure Ok (f : Found) : Prop where
  scanned : f.visited.Nodup
  room : f.devices.length ≤ maxDevices
  distinct : (f.devices.map Device.place).Nodup
  known : ∀ d ∈ f.devices, d.bus ∈ f.visited

/-- New devices are on buses that had not been visited. -/
structure Grown (f f' : Found) : Prop where
  ok : Ok f'
  visited : f.visited <:+ f'.visited
  devices : ∀ d ∈ f'.devices, d ∈ f.devices ∨ d.bus ∉ f.visited

/-- In the scan of `bus` that began with `f₀`, the places before `n` have been looked at. -/
structure Reached (f₀ : Found) (bus : UInt8) (n : Nat) (f : Found) : Prop extends Grown f₀ f where
  marked : bus :: f₀.visited <:+ f.visited
  slots : ∀ d ∈ f.devices, d.bus = bus → d.dev.toNat * 8 + d.func.toNat < n

variable {config} {f₀ f f' : Found} {s : Scan} {bus : UInt8} {dev func n m : Nat}

theorem Ok.visited_length (h : Ok f) : f.visited.length ≤ 256 := by
  have hfin := h.scanned.map fun _ _ => UInt8.toFin_inj.mp
  simpa using hfin.length_le_card

theorem addDevice_cases (config : Nat → UInt32 → UInt32) (bus dev func : UInt8) (s : Scan) :
    addDevice config bus dev func s = (none, s) ∨ s.devices.length < maxDevices ∧ ∃ d reads,
      addDevice config bus dev func s = (some d, ⟨⟨s.devices ++ [d], s.visited⟩, reads⟩) ∧
        d.bus = bus ∧ d.dev = dev ∧ d.func = func := by
  unfold addDevice
  split_ifs with hfull
  · exact .inl rfl
  · exact .inr ⟨not_le.mp hfull, _, _, rfl, rfl, rfl, rfl⟩

namespace Reached

theorem mono (h : Reached f₀ bus n f) (hle : n ≤ m) : Reached f₀ bus m f :=
  ⟨h.toGrown, h.marked, fun d hd hbus => (h.slots d hd hbus).trans_le hle⟩

/-- A device at a place that has not been looked at. -/
theorem add (h : Reached f₀ bus n f) (hnew : bus ∉ f₀.visited) {d : Device} (hbus : d.bus = bus)
    (hslot : d.dev.toNat * 8 + d.func.toNat = n) (hroom : f.devices.length < maxDevices) :
    Reached f₀ bus (n + 1) ⟨f.devices ++ [d], f.visited⟩ := by
  refine ⟨⟨⟨h.ok.scanned, ?_, ?_, forall_mem_append.mpr ⟨h.ok.known, ?_⟩⟩, h.visited,
    forall_mem_append.mpr ⟨h.devices, ?_⟩⟩, h.marked, forall_mem_append.mpr ⟨fun d' hd' hb => ?_, ?_⟩⟩
  · rw [length_append]
    exact hroom
  · rw [map_append, nodup_append]
    refine ⟨h.ok.distinct, nodup_singleton _, ?_⟩
    intro a ha b hb hab
    obtain ⟨d', hd', rfl⟩ := mem_map.mp ha
    obtain rfl := mem_singleton.mp hb
    have heq := Prod.mk.inj hab
    have hlt := h.slots d' hd' (heq.1.trans hbus)
    rw [(Prod.mk.inj heq.2).1, (Prod.mk.inj heq.2).2] at hlt
    omega
  · rw [forall_mem_singleton, hbus]
    exact h.marked.subset mem_cons_self
  · rw [forall_mem_singleton, hbus]
    exact .inr hnew
  · exact Nat.lt_succ_of_lt (h.slots d' hd' hb)
  · rw [forall_mem_singleton]
    omega

/-- The scan of another bus. -/
theorem grown (h : Reached f₀ bus n f) (hg : Grown f f') : Reached f₀ bus n f' := by
  refine ⟨⟨hg.ok, h.visited.trans hg.visited, fun d hd => ?_⟩, h.marked.trans hg.visited,
    fun d hd hb => ?_⟩
  · rcases hg.devices d hd with hd | hd
    · exact h.devices d hd
    · exact .inr fun hin => hd (h.visited.subset hin)
  · rcases hg.devices d hd with hd | hd
    · exact h.slots d hd hb
    · exact absurd (h.marked.subset (hb ▸ mem_cons_self)) hd

variable {scan : Scan → UInt8 → Option Scan} (hnew : bus ∉ f₀.visited) (hdev : dev < 32)
  (hscan : ∀ n (s : Scan) b, Reached f₀ bus n s.toFound →
    ∃ s', scan s b = some s' ∧ Grown s.toFound s'.toFound)

include hnew hdev hscan

theorem scanFunc (h : Reached f₀ bus (dev * 8 + func) s.toFound) (hfunc : func < 8) :
    ∃ s', Pci.scanFunc config scan bus (.ofNat dev) s (.ofNat func) = some s' ∧
      Reached f₀ bus (dev * 8 + (func + 1)) s'.toFound := by
  unfold Pci.scanFunc
  generalize hvendor : (if UInt8.ofNat func = 0 then (0, s)
    else readConfig16 config bus (.ofNat dev) (.ofNat func) 0x00 s) = vendor
  have h1 : Reached f₀ bus (dev * 8 + func) vendor.2.toFound := by
    rw [← hvendor]
    split_ifs <;> exact h
  dsimp only
  split_ifs
  · exact ⟨_, rfl, h1.mono (by omega)⟩
  rcases addDevice_cases config bus (.ofNat dev) (.ofNat func) vendor.2 with
    heq | ⟨hroom, d, reads, heq, hbus, hd, hf⟩
  · rw [heq]
    exact ⟨_, rfl, h1.mono (by omega)⟩
  rw [heq]
  have hslot : d.dev.toNat * 8 + d.func.toNat = dev * 8 + func := by
    rw [hd, hf, UInt8.toNat_ofNat', UInt8.toNat_ofNat']
    omega
  have h2 := h1.add hnew hbus hslot hroom
  dsimp only
  split_ifs
  · refine run_range scan (fun _ s => Reached f₀ bus (dev * 8 + (func + 1)) s.toFound) _
      (fun _ _ s hs => ?_) h2
    obtain ⟨s', hs', hgrown⟩ := hscan _ s _ hs
    exact ⟨s', hs', hs.grown hgrown⟩
  · exact ⟨_, rfl, h2⟩
  · exact ⟨_, rfl, h2⟩

theorem scanDev (h : Reached f₀ bus (dev * 8) s.toFound) :
    ∃ s', Pci.scanDev config scan bus s (.ofNat dev) = some s' ∧
      Reached f₀ bus ((dev + 1) * 8) s'.toFound := by
  have hfuncs (s : Scan) (h : Reached f₀ bus (dev * 8) s.toFound) (k : Nat) (hk : k ≤ 8) :
      ∃ s', run (Pci.scanFunc config scan bus (.ofNat dev)) s ((range k).map .ofNat) = some s' ∧
        Reached f₀ bus ((dev + 1) * 8) s'.toFound := by
    obtain ⟨s', hrun, hs'⟩ := run_range (Pci.scanFunc config scan bus (.ofNat dev))
      (fun func s => Reached f₀ bus (dev * 8 + func) s.toFound) .ofNat
      (fun func hfunc s hs => hs.scanFunc hnew hdev hscan (hfunc.trans_le hk)) h
    exact ⟨s', hrun, hs'.mono (by omega)⟩
  unfold Pci.scanDev
  dsimp only
  split_ifs
  · exact ⟨_, rfl, h.mono (by omega)⟩
  · exact hfuncs _ (by exact h) 8 le_rfl
  · exact hfuncs _ (by exact h) 1 (by decide)

end Reached

/-- The buses that have not been visited bound the depth of the recursion. -/
theorem scanBus_grown (config : Nat → UInt32 → UInt32) (depth : Nat) (s : Scan) (bus : UInt8)
    (h : Ok s.toFound) (hdepth : 256 < s.visited.length + depth) :
    ∃ s', scanBus config depth s bus = some s' ∧ Grown s.toFound s'.toFound := by
  induction depth generalizing s bus with
  | zero =>
    have hle := h.visited_length
    omega
  | succ depth ih =>
    unfold scanBus
    split_ifs with hdone
    · exact ⟨s, rfl, h, suffix_rfl, fun d hd => .inl hd⟩
    · obtain ⟨hnew, hroom⟩ := not_or.mp hdone
      have hstart : Reached s.toFound bus 0 { s with visited := bus :: s.visited }.toFound := by
        refine ⟨⟨⟨h.scanned.cons hnew, h.room, h.distinct, fun d hd => ?_⟩, suffix_cons _ _,
          fun d hd => .inl hd⟩, suffix_rfl, fun d hd hb => ?_⟩
        · exact mem_cons_of_mem _ (h.known d hd)
        · exact absurd (hb ▸ h.known d hd) hnew
      have hscan (n : Nat) (s' : Scan) (b : UInt8) (hs' : Reached s.toFound bus n s'.toFound) :
          ∃ s'', scanBus config depth s' b = some s'' ∧ Grown s'.toFound s''.toFound := by
        refine ih s' b hs'.ok ?_
        have hle := hs'.marked.length_le
        rw [length_cons] at hle
        omega
      obtain ⟨s', hrun, hs'⟩ := run_range (scanDev config (scanBus config depth) bus)
        (fun dev s' => Reached s.toFound bus (dev * 8) s'.toFound) .ofNat (n := 32)
        (fun dev hdev s' hs' => hs'.scanDev hnew hdev hscan) hstart
      exact ⟨s', hrun, hs'.toGrown⟩

/-- Whatever the configuration space answers, `pci_init` ends, begins the scan of no bus twice, and
finds at most `PCI_MAX_DEVICES` devices, at different places. -/
theorem pciInit_ends (config : Nat → UInt32 → UInt32) (extra : Nat) :
    ∃ s, pciInit config (257 + extra) = some s ∧ s.visited.Nodup ∧
      s.devices.length ≤ maxDevices ∧ (s.devices.map Device.place).Nodup := by
  have hstart : Ok ⟨[], []⟩ := ⟨nodup_nil, Nat.zero_le _, nodup_nil, fun d hd => by cases hd⟩
  obtain ⟨s, hrun, hs⟩ := scanBus_grown config (257 + extra) ⟨⟨[], []⟩, 0⟩ 0 hstart (by
    rw [length_nil]
    omega)
  exact ⟨s, hrun, hs.ok.scanned, hs.ok.room, hs.ok.distinct⟩

end Crius.Pci
