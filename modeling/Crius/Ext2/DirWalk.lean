import Crius.Ext2.BlockMap
import Crius.Ext2.Driver

/-!
# Walks over directory blocks

`ext2_list_dir`, `ext2_lookup`, `add_dirent` and `ext2_unlink` follow the lengths of the records
of a block. Each loop is given here by what it does with one record. A record length of 0 ends it,
so that it always ends; but nothing else is checked, and a record near the end of the block is used
as if it were whole.
-/
namespace Crius.Ext2

open List Yields

/-- What a loop does with a record after it has read the length: the parts of the buffer that it
reads or writes, each with its number of bytes, and whether it stops there. -/
structure Visit where
  parts : List (ℕ × ℕ)
  stops : Bool

/-- The loop of `ext2_list_dir`. -/
def listVisit (buf : Bytes) (o : ℕ) (_ : Option ℕ) : Visit where
  parts := (o, 4) :: if deInode buf o = 0 then [] else
    (o + 6, 1) :: if deNameLen buf o = 0 then [] else
      [(o + 8, min (deNameLen buf o) 254), (o + 7, 1)]
  stops := false

/-- The number of bytes of the name that `local_memcmp` reads. -/
def compared (buf : Bytes) (o : ℕ) (name : List UInt8) : ℕ :=
  min name.length
    (((List.range name.length).takeWhile fun i => buf (o + 8 + i) = name.getD i 0).length + 1)

/-- The loop of `ext2_lookup`. -/
def lookupVisit (name : List UInt8) (buf : Bytes) (o : ℕ) (_ : Option ℕ) : Visit where
  parts := (o, 4) :: if deInode buf o = 0 then [] else
    (o + 6, 1) :: if deNameLen buf o = name.length then [(o + 8, compared buf o name)] else []
  stops := deInode buf o ≠ 0 ∧ deName buf o (deNameLen buf o) = name

/-- The record is unused and long enough. -/
def reused (name : List UInt8) (buf : Bytes) (o : ℕ) : Bool :=
  deInode buf o = 0 ∧ recordLen name.length ≤ deRecLen buf o

/-- There is room behind the name of the record. -/
def divided (name : List UInt8) (buf : Bytes) (o : ℕ) : Bool :=
  recordLen (deNameLen buf o) + recordLen name.length < deRecLen buf o

/-- The loop of `add_dirent`. -/
def addVisit (name : List UInt8) (buf : Bytes) (o : ℕ) (_ : Option ℕ) : Visit where
  parts := (o + 6, 1) :: (o, 4) ::
    if reused name buf o then [(o + 7, 1), (o + 8, name.length)]
    else if divided name buf o then
      [(o + recordLen (deNameLen buf o), 8), (o + recordLen (deNameLen buf o) + 8, name.length)]
    else []
  stops := reused name buf o || divided name buf o

/-- The loop of `ext2_unlink`, which knows the record before. -/
def unlinkVisit (ino : ℕ) (buf : Bytes) (o : ℕ) (prev : Option ℕ) : Visit where
  parts := (o, 4) :: if deInode buf o = ino then (prev.map fun p => (p + 4, 2)).toList else []
  stops := deInode buf o = ino

/-- The records that a loop comes to, each with the one before it. -/
def visited (visit : ℕ → Option ℕ → Visit) (buf : Bytes) (size : ℕ) :
    ℕ → ℕ → Option ℕ → List (ℕ × Option ℕ)
  | 0, _, _ => []
  | fuel + 1, o, prev =>
    if size ≤ o then []
    else if deRecLen buf o = 0 ∨ (visit o prev).stops then [(o, prev)]
    else (o, prev) :: visited visit buf size fuel (o + deRecLen buf o) (some o)

/-- The parts of the buffer that the loop uses at a record. -/
def usedParts (visit : ℕ → Option ℕ → Visit) (buf : Bytes) (r : ℕ × Option ℕ) : List (ℕ × ℕ) :=
  (r.1 + 4, 2) :: if deRecLen buf r.1 = 0 then [] else (visit r.1 r.2).parts

/-- The loop ends, and what it reads and writes is inside of the buffer. -/
def Harmless (visit : ℕ → Option ℕ → Visit) (buf : Bytes) (size : ℕ) : Prop :=
  (∀ fuel, size ≤ fuel →
    visited visit buf size fuel 0 none = visited visit buf size size 0 none) ∧
  ∀ r ∈ visited visit buf size size 0 none, ∀ part ∈ usedParts visit buf r,
    ∀ i < part.2, part.1 + i < size

section Walk

variable {visit : ℕ → Option ℕ → Visit} {buf : Bytes} {size fuel o : ℕ} {prev : Option ℕ}

/-- The walk is over after as many rounds as there are bytes left: more change nothing. -/
theorem visited_enough {fuel' : ℕ} (h : size - o ≤ fuel) (h' : size - o ≤ fuel') :
    visited visit buf size fuel o prev = visited visit buf size fuel' o prev := by
  induction fuel generalizing fuel' o prev with
  | zero =>
    cases fuel' with
    | zero => rfl
    | succ fuel' => rw [visited, visited, if_pos (by omega)]
  | succ fuel ih =>
    cases fuel' with
    | zero => rw [visited, visited, if_pos (by omega)]
    | succ fuel' =>
      rw [visited, visited]
      split_ifs with hend hstop
      · rfl
      · rfl
      · have hlen : deRecLen buf o ≠ 0 := fun h0 => hstop (.inl h0)
        exact congrArg _ (ih (by omega) (by omega))

/-- The record before is one that the loop has come to, or the one that it started with. -/
theorem visited_prev {r : ℕ × Option ℕ} {p : ℕ} (h : r ∈ visited visit buf size fuel o prev)
    (hp : r.2 = some p) : prev = some p ∨ ∃ q, (p, q) ∈ visited visit buf size fuel o prev := by
  induction fuel generalizing o prev with
  | zero => exact absurd h not_mem_nil
  | succ fuel ih =>
    rw [visited] at h ⊢
    split_ifs at h ⊢ with hend hstop
    · exact absurd h not_mem_nil
    · rw [mem_singleton.mp h] at hp
      exact .inl hp
    · rcases mem_cons.mp h with rfl | h
      · exact .inl hp
      · rcases ih h with hsome | ⟨q, hq⟩
        · obtain rfl := Option.some.inj hsome
          exact .inr ⟨prev, mem_cons_self⟩
        · exact .inr ⟨q, mem_cons_of_mem _ hq⟩

/-- `walkRecords` tries the records that the loop comes to. -/
theorem walkRecords_eq {α : Type} {f : ℕ → Option α}
    (h : ∀ o prev, (visit o prev).stops = (f o).isSome) :
    walkRecords f buf size fuel o = (visited visit buf size fuel o prev).findSome? fun r =>
      if deRecLen buf r.1 = 0 then none else f r.1 := by
  induction fuel generalizing o prev with
  | zero => rfl
  | succ fuel ih =>
    rw [walkRecords, visited]
    by_cases hend : size ≤ o
    · rw [if_pos (.inl hend), if_pos hend, findSome?_nil]
    by_cases hlen : deRecLen buf o = 0
    · rw [if_pos (.inr hlen), if_neg hend, if_pos (.inl hlen)]
      simp [hlen]
    rw [if_neg (by tauto), if_neg hend]
    cases hf : f o with
    | some a =>
      rw [if_pos (.inr (by rw [h, hf]; rfl))]
      simp [hlen, hf]
    | none =>
      rw [if_neg (by simp [hlen, h, hf])]
      simp only [findSome?_cons, hlen, hf, if_false]
      exact ih

/-- `ext2_unlink` takes the first record with the inode that its loop comes to. -/
theorem recordOf_eq {ino : ℕ} : recordOf buf size ino fuel o prev =
    (visited (unlinkVisit ino buf) buf size fuel o prev).find? fun r =>
      deRecLen buf r.1 ≠ 0 ∧ deInode buf r.1 = ino := by
  induction fuel generalizing o prev with
  | zero => rfl
  | succ fuel ih =>
    rw [recordOf, visited]
    by_cases hend : size ≤ o
    · rw [if_pos (.inl hend), if_pos hend, find?_nil]
    by_cases hlen : deRecLen buf o = 0
    · rw [if_pos (.inr hlen), if_neg hend, if_pos (.inl hlen)]
      simp [hlen]
    rw [if_neg (by tauto), if_neg hend]
    by_cases hino : deInode buf o = ino
    · rw [if_pos hino, if_pos (by simp [unlinkVisit, hino])]
      simp [hlen, hino]
    · rw [if_neg hino, if_neg (by simp [hlen, unlinkVisit, hino]), ih]
      simp [hino]

/-- `ext2_list_dir` reports, record by record, what its loop comes to. -/
theorem listedRecords_eq : listedRecords buf size fuel o =
    (visited (listVisit buf) buf size fuel o prev).flatMap
      fun r => listedRecords buf size 1 r.1 := by
  induction fuel generalizing o prev with
  | zero => rfl
  | succ fuel ih =>
    rw [visited]
    by_cases hend : size ≤ o
    · rw [listedRecords, if_pos (.inl hend), if_pos hend, flatMap_nil]
    by_cases hlen : deRecLen buf o = 0
    · rw [if_neg hend, if_pos (.inl hlen)]
      simp [listedRecords, hlen]
    · have hgo : ¬(deRecLen buf o = 0 ∨ (listVisit buf o prev).stops = true) := by
        simp [hlen, listVisit]
      rw [if_neg hend, if_neg hgo, flatMap_cons, ← ih]
      simp only [listedRecords, hend, hlen, or_self, if_false]
      split_ifs <;> rfl

end Walk

/-- The loop of `add_dirent` over the blocks ends behind the last block that the map can hold, if
not before. -/
theorem Healthy.placeLoop {g : Geo} {v : Vol} (h : Healthy g v) (inode : Bytes) (child : ℕ)
    (name : List UInt8) (type fuel : ℕ) {logical : ℕ} (hfuel : 2 ^ 31 ≤ fuel + logical)
    (hlogical : logical ≤ 2 ^ 31) (remaining : ℕ) (buf : Bytes) :
    ∃ r, Yields (placeLoop inode child name type (fuel + 1) remaining logical buf) g v r v := by
  have hlast : blockPath g.blockSize (2 ^ 31) = none := by
    unfold blockPath
    rcases h.size with hs | hs | hs <;> rw [hs] <;> rfl
  have hhole {fuel remaining logical : ℕ} {buf : Bytes}
      (hfound : foundBlock v.disk g.blockSize inode logical = 0) : ∃ r, Yields
        (Ext2.placeLoop inode child name type (fuel + 1) remaining logical buf) g v r v := by
    unfold Ext2.placeLoop
    by_cases hremaining : remaining = 0
    · exact ⟨_, ite_pos hremaining pure⟩
    · exact ⟨_, ite_neg hremaining (bind (h.getBlockFromInode inode logical)
        (ite_pos hfound pure))⟩
  induction fuel generalizing logical remaining buf with
  | zero =>
    obtain rfl : logical = 2 ^ 31 := by omega
    exact hhole (by rw [foundBlock, hlast])
  | succ fuel ih =>
    by_cases hfound : foundBlock v.disk g.blockSize inode logical = 0
    · exact hhole hfound
    have hlt : logical < 2 ^ 31 := by
      by_contra hge
      obtain rfl : logical = 2 ^ 31 := by omega
      exact hfound (by rw [foundBlock, hlast])
    have hnext : u32 (logical + 1) = logical + 1 := Nat.mod_eq_of_lt (by omega)
    unfold Ext2.placeLoop
    by_cases hremaining : remaining = 0
    · exact ⟨_, ite_pos hremaining pure⟩
    refine Exists.imp (fun r hrest => ite_neg hremaining
      (bind (h.getBlockFromInode inode logical)
        (ite_neg hfound (bind (h.working.readBlock _ buf) (read hrest))))) ?_
    dsimp only
    split
    · exact ⟨_, pure⟩
    · rw [hnext]
      exact ih (by omega) hlt _ _

/-- The bytes of a part are inside. -/
theorem part_inside {a n size : ℕ} : (∀ i < n, a + i < size) ↔ n = 0 ∨ a + n ≤ size := by
  constructor
  · intro h
    by_cases hn : n = 0
    · exact .inl hn
    · have := h (n - 1) (by omega)
      omega
  · intro h i hi
    omega

/-- For every contents of a block of every size: each of the four loops ends, and it stays inside
of the buffer exactly if, at every record that it comes to, the length and the fields and bytes that
it goes on to use are inside. On a volume on which nothing fails `add_dirent` comes to the end of
its blocks too, whatever the size of the directory. -/
theorem harmless_iff (buf : Bytes) (size : ℕ) (name : List UInt8) (ino : ℕ) :
    (Harmless (listVisit buf) buf size ↔
      ∀ r ∈ visited (listVisit buf) buf size size 0 none, r.1 + 6 ≤ size ∧
        (deRecLen buf r.1 ≠ 0 → deInode buf r.1 ≠ 0 → r.1 + 7 ≤ size ∧
          (deNameLen buf r.1 ≠ 0 → r.1 + 8 + min (deNameLen buf r.1) 254 ≤ size))) ∧
    (Harmless (lookupVisit name buf) buf size ↔
      ∀ r ∈ visited (lookupVisit name buf) buf size size 0 none, r.1 + 6 ≤ size ∧
        (deRecLen buf r.1 ≠ 0 → deInode buf r.1 ≠ 0 → r.1 + 7 ≤ size ∧
          (deNameLen buf r.1 = name.length → name ≠ [] →
            r.1 + 8 + compared buf r.1 name ≤ size))) ∧
    (Harmless (addVisit name buf) buf size ↔
      ∀ r ∈ visited (addVisit name buf) buf size size 0 none, r.1 + 6 ≤ size ∧
        (deRecLen buf r.1 ≠ 0 → r.1 + 7 ≤ size ∧
          (reused name buf r.1 → r.1 + 8 + name.length ≤ size) ∧
          (¬reused name buf r.1 → divided name buf r.1 →
            r.1 + recordLen (deNameLen buf r.1) + 8 + name.length ≤ size))) ∧
    (Harmless (unlinkVisit ino buf) buf size ↔
      ∀ r ∈ visited (unlinkVisit ino buf) buf size size 0 none, r.1 + 6 ≤ size) ∧
    ∀ g v, Healthy g v → ∀ inode child type remaining blockBuf, ∃ r,
      Yields (placeLoop inode child name type placeRounds remaining 0 blockBuf) g v r v := by
  have hends {visit : ℕ → Option ℕ → Visit} (fuel : ℕ) (h : size ≤ fuel) :
      visited visit buf size fuel 0 none = visited visit buf size size 0 none :=
    visited_enough h (Nat.le_refl _)
  have hsplit (visit : ℕ → Option ℕ → Visit) : Harmless visit buf size ↔
      ∀ r ∈ visited visit buf size size 0 none, r.1 + 6 ≤ size ∧ (deRecLen buf r.1 ≠ 0 →
        ∀ part ∈ (visit r.1 r.2).parts, part.2 = 0 ∨ part.1 + part.2 ≤ size) := by
    unfold Harmless usedParts
    rw [and_iff_right hends]
    refine forall₂_congr fun r _ => ?_
    simp only [part_inside, forall_mem_cons]
    refine and_congr (by omega) ?_
    split_ifs with hlen
    · simp [hlen]
    · simp [hlen]
  refine ⟨?_, ?_, ?_, ?_, fun g v h inode child type remaining blockBuf =>
    h.placeLoop inode child name type (2 ^ 32) (by omega) (Nat.zero_le _) remaining blockBuf⟩
  · rw [hsplit]
    refine forall₂_congr fun r _ => and_congr_right fun hr => forall_congr' fun _ => ?_
    unfold listVisit
    by_cases hino : deInode buf r.1 = 0
    · simp [hino]
      omega
    · by_cases hname : deNameLen buf r.1 = 0
      · simp [hino, hname]
        omega
      · simp [hino, hname]
        omega
  · rw [hsplit]
    refine forall₂_congr fun r _ => and_congr_right fun hr => forall_congr' fun _ => ?_
    unfold lookupVisit
    by_cases hino : deInode buf r.1 = 0
    · simp [hino]
      omega
    · by_cases hname : deNameLen buf r.1 = name.length
      · have hzero : compared buf r.1 name = 0 ↔ name = [] := by
          rw [← length_eq_zero_iff, compared]
          omega
        by_cases hnil : name = []
        · simp [hino, hname, hnil, compared]
          omega
        · simp [hino, hname, hzero, hnil]
          omega
      · simp [hino, hname]
        omega
  · rw [hsplit]
    refine forall₂_congr fun r _ => and_congr_right fun hr => forall_congr' fun _ => ?_
    unfold addVisit
    by_cases hreused : reused name buf r.1
    · simp [hreused, -length_eq_zero_iff]
      omega
    · by_cases hdivided : divided name buf r.1
      · simp [hreused, hdivided, -length_eq_zero_iff]
        omega
      · simp [hreused, hdivided]
        omega
  · rw [hsplit]
    constructor
    · intro h r hr
      exact (h r hr).1
    · intro h r hr
      have hfits := h r hr
      refine ⟨hfits, fun _ part hpart => .inr ?_⟩
      rcases mem_cons.mp hpart with rfl | hpart
      · dsimp only
        omega
      · split_ifs at hpart
        · obtain ⟨p, hp, rfl⟩ : ∃ p, r.2 = some p ∧ (p + 4, 2) = part := by simpa using hpart
          rcases visited_prev hr hp with hnone | ⟨q, hq⟩
          · cases hnone
          · exact h (p, q) hq
        · cases hpart

/-- A block whose first record leaves four bytes at the end. -/
def shortTail : Bytes := (Bytes.zero.put32 0 2).put16 4 1020

/-- A block of records of 500 bytes with long names, and a record of 20000 bytes in the rest. -/
def longTail : Bytes := [0, 500, 1000].foldl (fun b o =>
  ((b.put32 o 2).put16 (o + 4) (if o = 1000 then 20000 else 500)).put8 (o + 6)
    (if o = 1000 then 0 else 255)) Bytes.zero

/-- The length of a record is read behind the end of the block, and a new record with a name of 250
bytes is written there. -/
theorem tails_outside : ¬Harmless (listVisit shortTail) shortTail 1024 ∧
    ¬Harmless (lookupVisit [97] shortTail) shortTail 1024 ∧
    ¬Harmless (unlinkVisit 5 shortTail) shortTail 1024 ∧
    ¬Harmless (addVisit (List.replicate 250 97) longTail) longTail 1024 := by
  have hread {visit : ℕ → Option ℕ → Visit}
      (h : (1020, some 0) ∈ visited visit shortTail 1024 1024 0 none) :
      ¬Harmless visit shortTail 1024 := by
    intro hall
    have := hall.2 _ h (1024, 2) mem_cons_self 0 (by decide)
    omega
  refine ⟨hread (by decide +kernel), hread (by decide +kernel), hread (by decide +kernel), ?_⟩
  intro hall
  have := hall.2 (1000, some 500) (by decide +kernel) (1016, 250) (by decide +kernel) 249 (by decide)
  omega

end Crius.Ext2
