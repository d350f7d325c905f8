import Crius.Fs.RamfsFiles

/-!
# What descriptors on the ramfs can reach

Three properties of reads and writes through open files. A write stays inside `data[]`
exactly when it starts at or below `MAX_FILESIZE`; the offset of a descriptor can pass that
limit, since it advances by the number of bytes asked for. A descriptor stays with the file
it was opened on as long as no file is unlinked while it is open, since it holds a bare
inode index. A read returns only what was written since the last truncation as long as no
write starts beyond the end of the file, since truncation leaves the old bytes in place.
-/
namespace Crius.Fs

open Abi Lib Function Option

/-- The state after `ramfs_init`, with no file open. -/
def ramfsBoot : RamfsState := ⟨ramfsInit, fun _ => .empty, []⟩

/-! ## Bounds -/

/-- A part of `data[]`. -/
structure Span where
  start : Nat
  len : Nat

/-- What a write of `count` bytes through `f` stores to, and the value it returns. -/
def writeSpan (s : RamfsState) (f : FileId) (count : Nat) : Span × Int :=
  match writeStart s f with
  | none => (⟨0, 0⟩, -ENOENT)
  | some start =>
    if (s.inodes (inodeOf (s.files f))).type = .file then
      (⟨start, writeLength start count⟩, toInt32 (writeLength start count))
    else (⟨0, 0⟩, -EISDIR)

/-- What a read through `f` loads from, and the value it returns. -/
def readSpan (s : RamfsState) (f : FileId) (count : Nat) : Span × Int :=
  (⟨(s.files f).offset, (ramfsFileRead s f count).2.1.length⟩, (ramfsFileRead s f count).1)

/-- All indices are below the limit, and there are no more of them than the call returns. -/
def Span.Within (a : Span × Int) (limit : Nat) : Prop :=
  (∀ i < a.1.len, a.1.start + i < limit) ∧ a.1.len ≤ a.2.toNat

/-- The write starts at or below the limit of a file. -/
def StartsInside (s : RamfsState) (f : FileId) : Prop :=
  ∀ start, writeStart s f = some start → (s.inodes (inodeOf (s.files f))).type = .file →
    start ≤ maxFilesize

/-- No file is larger than its array. -/
def SizesBounded (s : RamfsState) : Prop := ∀ i, (s.inodes i).size ≤ maxFilesize

theorem toInt32_of_le {n : Nat} (h : n ≤ maxFilesize) : toInt32 n = n := by
  unfold maxFilesize at h
  unfold toInt32
  exact Int.bmod_eq_of_le (by omega) (by omega)

variable {start count : Nat} {s s' : RamfsState} {bytes : List UInt8} {op : RamfsFileOp}
  {f : FileId}

theorem writeLength_inside (hs : start ≤ maxFilesize) (hc : count < 2 ^ 31) :
    start + writeLength start count ≤ maxFilesize := by
  unfold writeLength maxFilesize at *
  split <;> omega

theorem writeLength_outside (hs : maxFilesize < start) (hlt : start < 2 ^ 64) (hc : 0 < count) :
    0 < writeLength start count := by
  unfold writeLength maxFilesize at *
  split <;> omega

theorem SizesBounded.touch (hb : SizesBounded s) (h : Touch s s') : SizesBounded s' := by
  induction h with
  | refl => exact hb
  | @made s1 r _ hc ih =>
    have hsize (i : InodeId) : (r.2 i).size ≤ maxFilesize := by
      rcases hc.size i with heq | hzero
      · rw [heq]
        exact ih i
      · omega
    rcases r with ⟨_ | _, t⟩
    · exact hsize
    · exact hsize
  | @truncate s1 _ idx ih =>
    intro i
    by_cases hi : i = idx
    · simp [hi, RamfsState.truncate, Ramfs.truncate]
    · simp only [RamfsState.truncate, Ramfs.truncate, update_of_ne hi]
      exact ih i

section

variable {t t' : Ramfs} {idx : InodeId} {offset : Nat} {ret : Int}

theorem ramfsWriteAt_size (htype : (t idx).type = .file)
    (h : ramfsWriteAt t idx offset bytes = some (ret, t')) :
    offset + writeLength offset bytes.length ≤ maxFilesize ∧
      (t' idx).size = max (t idx).size (offset + writeLength offset bytes.length) ∧
      (∀ i, i ≠ idx → t' i = t i) ∧ (t' idx).data =
        copyIn (t idx).data offset (bytes.take (writeLength offset bytes.length)) := by
  unfold ramfsWriteAt at h
  rw [if_neg (not_not.mpr htype)] at h
  dsimp only at h
  split at h
  · cases h
  · next hle =>
    obtain ⟨-, rfl⟩ := Prod.mk.inj (some.inj h)
    exact ⟨by omega, by rw [update_self], fun i hi => update_of_ne hi _ _, by rw [update_self]⟩

theorem ramfsWriteAt_used (h : ramfsWriteAt t idx offset bytes = some (ret, t')) (i : InodeId) :
    (t' i).used = (t i).used := by
  unfold ramfsWriteAt at h
  split at h
  · cases h
    rfl
  · dsimp only at h
    split at h
    · cases h
    · obtain ⟨-, rfl⟩ := Prod.mk.inj (some.inj h)
      by_cases hi : i = idx
      · rw [hi, update_self]
      · rw [update_of_ne hi]

end

theorem SizesBounded.step (hb : SizesBounded s) (h : ramfsFileStep s op = some s') :
    SizesBounded s' := by
  cases ramfsFileStep_effect h with
  | touched htouch hinodes =>
    intro i
    rw [hinodes]
    exact hb.touch htouch i
  | opened htouch _ _ hstate =>
    rw [hstate]
    exact fun i => hb.touch htouch i
  | @wrote f bytes start ret t _ _ _ htype hwrite hstate =>
    obtain ⟨hle, hsize, hother, -⟩ := ramfsWriteAt_size htype hwrite
    rw [hstate]
    intro i
    by_cases hi : i = inodeOf (s.files f)
    · have := hb i
      show (t i).size ≤ maxFilesize
      rw [hi] at this ⊢
      omega
    · show (t i).size ≤ maxFilesize
      rw [hother i hi]
      exact hb i
  | @deleted path _ hstate =>
    rw [hstate]
    intro i
    rcases (s.inodes.delete_spec path).1 i with ⟨heq, -⟩ | hzero
    · show ((s.inodes.delete path).2 i).size ≤ maxFilesize
      rw [heq]
      exact hb i
    · show ((s.inodes.delete path).2 i).size ≤ maxFilesize
      omega

theorem readSpan_within (s : RamfsState) (f : FileId) (count : Nat) :
    Span.Within (readSpan s f count) (s.inodes (inodeOf (s.files f))).size := by
  unfold Span.Within readSpan ramfsFileRead
  dsimp only
  split
  · exact ⟨fun i hi => absurd hi (Nat.not_lt_zero i), Nat.zero_le _⟩
  · split
    · exact ⟨fun i hi => absurd hi (Nat.not_lt_zero i), Nat.zero_le _⟩
    · simp only [List.length_map, List.length_range]
      refine ⟨fun i hi => by omega, ?_⟩
      omega

theorem writeStart_lt (hb : SizesBounded s) (h : writeStart s f = some start) : start < 2 ^ 64 := by
  unfold writeStart at h
  dsimp only at h
  split at h
  · split at h
    · cases h
      have := hb (inodeOf (s.files f))
      unfold maxFilesize at this
      omega
    · cases h
  · cases h
    exact Nat.mod_lt _ (by decide)

/-- A write stays inside the file exactly when it starts inside. -/
theorem writeSpan_within_iff (hb : SizesBounded s) (hpos : 0 < count) (hc : count < 2 ^ 31) :
    Span.Within (writeSpan s f count) maxFilesize ↔ StartsInside s f := by
  unfold StartsInside writeSpan
  cases hstart : writeStart s f with
  | none => simp [Span.Within]
  | some start =>
    by_cases htype : (s.inodes (inodeOf (s.files f))).type = .file
    · simp only [if_pos htype, some.injEq]
      constructor
      · rintro ⟨hin, -⟩ start' rfl -
        by_contra hout
        have hlt := writeStart_lt hb hstart
        have := hin 0 (writeLength_outside (by omega) hlt hpos)
        dsimp only at this
        omega
      · intro hin
        have hle := writeLength_inside (hin start rfl htype) hc
        refine ⟨fun i hi => ?_, ?_⟩
        · dsimp only at hi ⊢
          omega
        · dsimp only
          rw [toInt32_of_le (by omega)]
          omega
    · simp [htype, Span.Within]

/-- `ramfs_file_write` leaves `data[]` if the span does, and otherwise it returns the value of the
span and copies the bytes there. -/
theorem ramfsFileWrite_span (s : RamfsState) (f : FileId) (bytes : List UInt8) :
    let a := writeSpan s f bytes.length
    (ramfsFileWrite s f bytes = none ↔ maxFilesize < a.1.start + a.1.len) ∧
      ∀ ret s', ramfsFileWrite s f bytes = some (ret, s') → ret = a.2 ∧
        ∀ i, (s'.inodes i).data = if i = inodeOf (s.files f) then
          copyIn (s.inodes i).data a.1.start (bytes.take a.1.len) else (s.inodes i).data := by
  have hnothing (i : InodeId) : (s.inodes i).data = if i = inodeOf (s.files f) then
      copyIn (s.inodes i).data 0 (bytes.take 0) else (s.inodes i).data := by
    split_ifs
    · funext k
      simp [copyIn]
    · rfl
  dsimp only
  rw [writeSpan, ramfsFileWrite]
  cases hstart : writeStart s f with
  | none =>
    refine ⟨by simp, fun ret s' h => ?_⟩
    cases h
    exact ⟨rfl, hnothing⟩
  | some start =>
    dsimp only
    by_cases htype : (s.inodes (inodeOf (s.files f))).type = .file
    · simp only [ramfsWriteAt, htype, ne_eq, not_true_eq_false, if_false, if_true]
      split_ifs with hmax
      · exact ⟨by simp [hmax], fun ret s' h => by cases h⟩
      · refine ⟨by simp [hmax], fun ret s' h => ?_⟩
        obtain ⟨rfl, rfl⟩ := Prod.mk.inj (some.inj h)
        refine ⟨rfl, fun i => ?_⟩
        dsimp only
        split_ifs with hi
        · rw [hi, update_self]
        · rw [update_of_ne hi]
    · simp only [ramfsWriteAt, htype, ne_eq, not_false_eq_true, if_true, if_false]
      refine ⟨by simp, fun ret s' h => ?_⟩
      cases h
      exact ⟨rfl, hnothing⟩

/-- In every state after a run: no file is larger than `MAX_FILESIZE`, a read loads only
indices below the size and no more bytes than it returns, and a write of any positive count
stores only indices below `MAX_FILESIZE`, no more than it returns, exactly when it starts at
or below that limit. -/
theorem ramfs_data_in_bounds {ops : List RamfsFileOp} {s : RamfsState}
    (hr : Run.run ramfsFileStep ramfsBoot ops = some s) :
    (∀ i, (s.inodes i).size ≤ maxFilesize) ∧
      (∀ f count, Span.Within (readSpan s f count) (s.inodes (inodeOf (s.files f))).size) ∧
      ∀ f count, 0 < count → count < 2 ^ 31 →
        (Span.Within (writeSpan s f count) maxFilesize ↔ StartsInside s f) := by
  have hboot : SizesBounded ramfsBoot := fun i => Nat.zero_le _
  have hb : SizesBounded s :=
    Run.run_invariant ramfsFileStep (fun s op s' hs => hs.step) hboot hr
  exact ⟨hb, readSpan_within s, fun f count hpos hc => writeSpan_within_iff hb hpos hc⟩

/-- `open("/a", O_CREAT)` and a write of one byte. -/
def oneByte : List RamfsFileOp := [.open [47, 97] 4 0, .write firstFile [7]]

theorem ramfs_data_in_bounds_small : ∃ s, Run.run ramfsFileStep ramfsBoot oneByte = some s ∧
    Span.Within (readSpan s ⟨0, by decide⟩ 1)
      (s.inodes (inodeOf (s.files ⟨0, by decide⟩))).size := by
  have hsome : (Run.run ramfsFileStep ramfsBoot oneByte).isSome = true := by decide +kernel
  obtain ⟨s, hs⟩ := isSome_iff_exists.mp hsome
  exact ⟨s, hs, (ramfs_data_in_bounds hs).2.1 _ 1⟩

/-- Writing to a regular file moves the offset by the number of bytes asked for. -/
theorem write_offset (bytes : List UInt8) (ho : IsOpen s f .ramfsFile)
    (hflags : oAppend (s.files f).flags = false)
    (htype : (s.inodes (inodeOf (s.files f))).type = .file) (hzero : (s.files f).offset = 0)
    (hlen : bytes.length < 2 ^ 31) :
    ∃ s', ramfsFileStep s (.write f bytes) = some s' ∧ (s'.files f).offset = bytes.length ∧
      (s'.files f).flags = (s.files f).flags ∧ inodeOf (s'.files f) = inodeOf (s.files f) ∧
      (s'.inodes (inodeOf (s.files f))).type = .file := by
  have hstart : writeStart s f = some 0 := by
    simp [writeStart, hflags, hzero]
  have hin : ¬maxFilesize < 0 + writeLength 0 bytes.length := by
    have := writeLength_inside (Nat.zero_le maxFilesize) hlen
    omega
  have hmod : (0 + bytes.length) % 2 ^ 64 = bytes.length := by omega
  simp only [ramfsFileStep, if_pos ho, ramfsFileWrite, hstart, ramfsWriteAt, htype, ne_eq,
    not_true_eq_false, if_false, if_neg hin, if_true, hmod, map_some]
  refine ⟨_, rfl, ?_, ?_, ?_, ?_⟩
  · dsimp only
    rw [update_self]
  · dsimp only
    rw [update_self]
  · dsimp only
    rw [update_self]
    rfl
  · dsimp only
    rw [update_self]

/-- `open("/a", O_CREAT)`, then one write of `MAX_FILESIZE + 1` bytes. -/
def pastTheEnd : List RamfsFileOp :=
  [.open [47, 97] 4 0, .write firstFile (List.replicate (maxFilesize + 1) 0)]

/-- After that, a write of one byte starts beyond the limit and runs out of `data[]`. -/
theorem ramfs_write_past_end : ∃ s, Run.run ramfsFileStep ramfsBoot pastTheEnd = some s ∧
    ¬Span.Within (writeSpan s ⟨0, by decide⟩ 1) maxFilesize := by
  have hopen : IsOpen (openRamfs ramfsBoot [47, 97] 4 0) ⟨0, by decide⟩ .ramfsFile := by
    decide +kernel
  obtain ⟨s, hs, hoffset, hflags, hinode, htype⟩ := write_offset
    (List.replicate (maxFilesize + 1) 0) hopen
    (by decide +kernel) (by decide +kernel) (by decide +kernel)
    (by rw [List.length_replicate]; decide)
  refine ⟨s, ?_, fun hw => ?_⟩
  · have hfits : OpenFits ramfsBoot [47, 97] 4 := by decide +kernel
    rw [pastTheEnd, Run.run_cons, ramfsFileStep, if_pos hfits, bind_some, Run.run_cons, hs, bind_some,
      Run.run_nil]
  · have hstart : writeStart s ⟨0, by decide⟩ = some (maxFilesize + 1) := by
      rw [List.length_replicate] at hoffset
      have happend : oAppend (s.files ⟨0, by decide⟩).flags = false := by
        rw [hflags]
        decide +kernel
      simp only [writeStart, happend, hoffset]
      rfl
    have hspan : writeSpan s ⟨0, by decide⟩ 1 =
        (⟨maxFilesize + 1, writeLength (maxFilesize + 1) 1⟩,
          toInt32 (writeLength (maxFilesize + 1) 1)) := by
      simp only [writeSpan, hstart, hinode, htype, if_true]
    rw [hspan] at hw
    have := hw.1 0 (by decide)
    dsimp only at this
    omega

/-! ## Identity -/

/-- The object holds an inode: it is an open regular file or device. -/
def HoldsInode (s : RamfsState) (f : FileId) : Prop :=
  (s.files f).used = true ∧ ((s.files f).ops = some .ramfsFile ∨ (s.files f).ops = some .ramfsDev)

instance (s : RamfsState) (f : FileId) : Decidable (HoldsInode s f) :=
  inferInstanceAs (Decidable (_ ∧ _))

/-- Since `f` was last opened, on inode `idx`, no file was created in that inode. -/
def sameFile (f : FileId) (idx : InodeId) : List RamfsEvent → Bool
  | [] => false
  | .opened g j :: log => if g = f then decide (j = idx) else sameFile f idx log
  | .created j :: log => decide (j ≠ idx) && sameFile f idx log
  | .truncated _ :: log | .wrote _ _ _ :: log => sameFile f idx log

/-- Nothing is unlinked that is open. -/
def UnlinksClosed (s : RamfsState) : RamfsFileOp → Prop
  | .unlink path => ∀ f, HoldsInode s f →
      s.inodes.resolvePath path ≠ .ok (inodeOf (s.files f))
  | _ => True

/-- Every object that holds an inode holds the one it was opened on. -/
def Faithful (s : RamfsState) : Prop :=
  ∀ f, HoldsInode s f → (s.inodes (inodeOf (s.files f))).used = true ∧
    sameFile f (inodeOf (s.files f)) s.log = true

theorem inodeOf_val (i : InodeId) (o : File) (h : o.priv = i.val) : inodeOf o = i := by
  rw [inodeOf, h]
  exact Fin.ext (Nat.mod_eq_of_lt i.isLt)

/-- Creations and truncations leave the inodes in use to their files. -/
theorem Touch.same (h : Touch s s') (f : FileId) (i : InodeId) (hused : (s.inodes i).used = true)
    (hsame : sameFile f i s.log = true) :
    (s'.inodes i).used = true ∧ sameFile f i s'.log = true := by
  induction h with
  | refl => exact ⟨hused, hsame⟩
  | @made s1 r _ hc ih =>
    have hu := hc.used i ih.1
    rcases r with ⟨e | idx, t⟩
    · exact ⟨hu, ih.2⟩
    · refine ⟨hu, ?_⟩
      have hne : idx ≠ i := by
        rintro rfl
        have := (hc.new idx rfl).1
        rw [ih.1] at this
        cases this
      simpa [RamfsState.made, sameFile, hne] using ih.2
  | @truncate s1 _ idx ih =>
    refine ⟨?_, ih.2⟩
    by_cases hi : i = idx
    · subst hi
      simpa [RamfsState.truncate, Ramfs.truncate] using ih.1
    · simpa [RamfsState.truncate, Ramfs.truncate, hi] using ih.1

theorem Faithful.step (hs : Faithful s)
    (hc : UnlinksClosed s op) (h : ramfsFileStep s op = some s') : Faithful s' := by
  cases ramfsFileStep_effect h with
  | touched htouch hinodes hlog hfiles =>
    rintro f ⟨hu, hops⟩
    rcases hfiles f hu with hdir | hdir | ⟨hold, hops', hpriv⟩
    · rw [hdir] at hops
      simp at hops
    · rw [hdir] at hops
      simp at hops
    · rw [htouch.files] at hold hops' hpriv
      rw [hops'] at hops
      obtain ⟨hused, hsame⟩ := hs f ⟨hold, hops⟩
      have hidx : inodeOf (s'.files f) = inodeOf (s.files f) := by
        rw [inodeOf, hpriv]
        rfl
      rw [hidx, hinodes, hlog]
      exact htouch.same f _ hused hsame
  | @opened s1 g i flags ops htouch hused hfree hstate =>
    rw [hstate]
    rintro f ⟨hu, hops⟩
    by_cases hfg : f = g
    · subst hfg
      have hidx : inodeOf ((s1.setFile f ⟨true, 1, flags, 0, some ops, i.val⟩).files f) = i := by
        refine inodeOf_val i _ ?_
        simp [RamfsState.setFile]
      rw [hidx]
      exact ⟨hused, by simp [sameFile]⟩
    · have hfile : (s1.setFile g ⟨true, 1, flags, 0, some ops, i.val⟩).files f = s.files f := by
        rw [← htouch.files]
        exact update_of_ne hfg _ _
      rw [hfile] at hu hops ⊢
      obtain ⟨hold, hsame⟩ := hs f ⟨hu, hops⟩
      obtain ⟨hu1, hsame1⟩ := htouch.same f _ hold hsame
      exact ⟨hu1, by simpa [sameFile, Ne.symm hfg] using hsame1⟩
  | @wrote g bytes start ret t _ _ _ _ hwrite hstate =>
    rw [hstate]
    rintro f ⟨hu, hops⟩
    have hobject : ((update s.files g { s.files g with
          offset := (start + bytes.length) % 2 ^ 64 }) f).used = (s.files f).used ∧
        ((update s.files g { s.files g with
          offset := (start + bytes.length) % 2 ^ 64 }) f).ops = (s.files f).ops ∧
        inodeOf ((update s.files g { s.files g with
          offset := (start + bytes.length) % 2 ^ 64 }) f) = inodeOf (s.files f) := by
      by_cases hfg : f = g
      · subst hfg
        rw [update_self]
        exact ⟨rfl, rfl, rfl⟩
      · rw [update_of_ne hfg]
        exact ⟨rfl, rfl, rfl⟩
    rw [hobject.1] at hu
    rw [hobject.2.1] at hops
    rw [hobject.2.2]
    obtain ⟨hused, hsame⟩ := hs f ⟨hu, hops⟩
    exact ⟨(ramfsWriteAt_used hwrite _).trans hused, hsame⟩
  | @deleted path hop hstate =>
    subst hop
    rw [hstate]
    rintro f hf
    obtain ⟨hused, hsame⟩ := hs f hf
    exact ⟨(s.inodes.delete_spec path).2 _ hused (hc f hf), hsame⟩

/-- A read depends on the inode of the descriptor alone. -/
theorem ramfsFileRead_congr (hf : s'.files f = s.files f)
    (hi : s'.inodes (inodeOf (s.files f)) = s.inodes (inodeOf (s.files f))) (count : Nat) :
    (ramfsFileRead s' f count).2.1 = (ramfsFileRead s f count).2.1 := by
  unfold ramfsFileRead
  rw [hf]
  dsimp only
  rw [hi]
  split
  · rfl
  · split <;> rfl

/-- A write changes the inode of the descriptor alone. -/
theorem write_inodes (h : ramfsFileStep s (.write f bytes) = some s') {i : InodeId}
    (hi : i ≠ inodeOf (s.files f)) : s'.inodes i = s.inodes i := by
  simp only [ramfsFileStep] at h
  split at h
  · obtain ⟨⟨ret, s1⟩, hw, rfl⟩ := map_eq_some_iff.mp h
    unfold ramfsFileWrite at hw
    dsimp only at hw
    split at hw
    · cases hw
      rfl
    · split at hw
      · cases hw
      · next start _ ret' t hwrite =>
        split at hw
        · next htype =>
          cases hw
          exact (ramfsWriteAt_size htype hwrite).2.2.1 i hi
        · cases hw
          rfl
  · cases h
    rfl

/-- In every run in which nothing is unlinked that is open, a descriptor stays with the file
it was opened on: its inode has not been given to another file since, its reads depend on
that inode alone, and its writes change no other. -/
theorem ramfs_descriptor_identity {ops : List RamfsFileOp} {s : RamfsState}
    (hc : Run.Along ramfsFileStep UnlinksClosed ramfsBoot ops)
    (hr : Run.run ramfsFileStep ramfsBoot ops = some s) (f : FileId) (hf : HoldsInode s f) :
    sameFile f (inodeOf (s.files f)) s.log = true ∧
      (∀ s₁ count, s₁.files f = s.files f →
        s₁.inodes (inodeOf (s.files f)) = s.inodes (inodeOf (s.files f)) →
        (ramfsFileRead s₁ f count).2.1 = (ramfsFileRead s f count).2.1) ∧
      ∀ bytes s', ramfsFileStep s (.write f bytes) = some s' →
        ∀ i, i ≠ inodeOf (s.files f) → s'.inodes i = s.inodes i := by
  have hboot : Faithful ramfsBoot := by
    rintro f ⟨hu, -⟩
    cases hu
  have hfaith : Faithful s :=
    Run.run_invariant_along ramfsFileStep (fun s op s' hs hc => hs.step hc) hboot hc hr
  exact ⟨(hfaith f hf).2, fun s₁ count hfile hi => ramfsFileRead_congr hfile hi count,
    fun bytes s' hw i hi => write_inodes hw hi⟩

/-- `open("/a", O_CREAT)`, `unlink("/a")`, `open("/b", O_CREAT)` and a write to `/b`. -/
def reusedInode : List RamfsFileOp :=
  [.open [47, 97] 4 0, .unlink [47, 97], .open [47, 98] 4 0, .write secondFile [7]]

/-- The first descriptor, opened on `/a`, now reads the byte that was written to `/b`. -/
theorem ramfs_descriptor_reads_other_file :
    (Run.run ramfsFileStep ramfsBoot reusedInode).map (fun s =>
      (decide (HoldsInode s ⟨0, by decide⟩),
        sameFile ⟨0, by decide⟩ (inodeOf (s.files ⟨0, by decide⟩)) s.log,
        (ramfsFileRead s ⟨0, by decide⟩ 1).2.1)) = some (true, false, [7]) := by
  decide +kernel

instance decidableUnlinksClosed (s : RamfsState) :
    (op : RamfsFileOp) → Decidable (UnlinksClosed s op)
  | .unlink path => inferInstanceAs (Decidable (∀ f, HoldsInode s f →
      s.inodes.resolvePath path ≠ .ok (inodeOf (s.files f))))
  | .open _ _ _ | .close _ | .share _ | .read _ _ _ | .write _ _ | .mkdir _ | .create _
  | .truncate _ => isTrue trivial

/-- A file is removed before another one is opened. -/
def unlinkedFirst : List RamfsFileOp :=
  [.create [47, 98], .unlink [47, 98], .open [47, 97] 4 0]

theorem ramfs_descriptor_identity_small : ∃ s, Run.run ramfsFileStep ramfsBoot unlinkedFirst =
    some s ∧ HoldsInode s ⟨0, by decide⟩ ∧
      sameFile ⟨0, by decide⟩ (inodeOf (s.files ⟨0, by decide⟩)) s.log = true := by
  have hsome : (Run.run ramfsFileStep ramfsBoot unlinkedFirst).any
      (fun s => decide (HoldsInode s ⟨0, by decide⟩)) = true := by
    decide +kernel
  obtain ⟨s, hs, hf⟩ := (any_eq_true _ _).mp hsome
  have hholds := of_decide_eq_true hf
  exact ⟨s, hs, hholds, (ramfs_descriptor_identity (by decide +kernel) hs _ hholds).1⟩

/-! ## Contents -/

/-- The byte that was last written at `i` since inode `idx` was created or truncated. -/
def writtenSince (idx : InodeId) (i : Nat) : List RamfsEvent → Option UInt8
  | [] => none
  | .wrote j start bytes :: log =>
    if j = idx ∧ start ≤ i ∧ i < start + bytes.length then bytes[i - start]?
    else writtenSince idx i log
  | .created j :: log | .truncated j :: log => if j = idx then none else writtenSince idx i log
  | .opened _ _ :: log => writtenSince idx i log

/-- A write starts at or below the end of the file. -/
def StartsInFile (s : RamfsState) : RamfsFileOp → Prop
  | .write f _ => IsOpen s f .ramfsFile → ∀ start, writeStart s f = some start →
      start ≤ (s.inodes (inodeOf (s.files f))).size
  | _ => True

/-- Every byte of a file is the one that was last written there since it was created or truncated. -/
def Backed (s : RamfsState) : Prop :=
  ∀ idx i, i < (s.inodes idx).size → writtenSince idx i s.log = some ((s.inodes idx).data i)

theorem Backed.touch (hb : Backed s) (h : Touch s s') : Backed s' := by
  induction h with
  | refl => exact hb
  | @made s1 r _ hc ih =>
    intro idx i hi
    have hsize : (r.2 idx).size = (s1.inodes idx).size ∨ (r.2 idx).size = 0 := hc.size idx
    have hdata := congrFun (hc.data idx) i
    rcases r with ⟨e | new, t⟩
    · have hi' : i < (t idx).size := hi
      exact (ih idx i (by dsimp only at hsize; omega)).trans (congrArg some hdata.symm)
    · have hi' : i < (t idx).size := hi
      have hne : new ≠ idx := by
        rintro rfl
        have := (hc.new new rfl).2
        dsimp only at this
        omega
      have hold := ih idx i (by dsimp only at hsize; omega)
      show (if new = idx then none else writtenSince idx i s1.log) = some ((t idx).data i)
      rw [if_neg hne, hold]
      exact congrArg some hdata.symm
  | @truncate s1 _ j ih =>
    intro idx i hi
    by_cases hj : idx = j
    · simp [hj, RamfsState.truncate, Ramfs.truncate] at hi
    · have hold := ih idx i (by simpa [RamfsState.truncate, Ramfs.truncate, hj] using hi)
      simpa [RamfsState.truncate, Ramfs.truncate, writtenSince, hj, Ne.symm hj] using hold

/-- A write that stays inside has all the bytes that it stores. -/
theorem length_take_writeLength (h : start + writeLength start bytes.length ≤ maxFilesize) :
    (bytes.take (writeLength start bytes.length)).length = writeLength start bytes.length := by
  rw [List.length_take, Nat.min_eq_left]
  unfold writeLength maxFilesize at *
  split at h <;> split <;> omega

theorem Backed.step (hb : Backed s) (hc : StartsInFile s op) (h : ramfsFileStep s op = some s') :
    Backed s' := by
  cases ramfsFileStep_effect h with
  | touched htouch hinodes hlog =>
    intro idx i hi
    rw [hinodes] at hi ⊢
    rw [hlog]
    exact hb.touch htouch idx i hi
  | opened htouch _ _ hstate =>
    rw [hstate]
    exact fun idx i hi => hb.touch htouch idx i hi
  | @wrote f bytes start ret t hop ho hstart htype hwrite hstate =>
    subst hop
    have hle := hc ho start hstart
    obtain ⟨hmax, hsize, hother, hdata⟩ := ramfsWriteAt_size htype hwrite
    have hlen := length_take_writeLength hmax
    rw [hstate]
    intro idx i hi
    dsimp only at hi ⊢
    rw [writtenSince]
    by_cases hidx : idx = inodeOf (s.files f)
    · subst hidx
      rw [hsize, ← hlen] at hi
      rw [hdata, copyIn]
      generalize bytes.take (writeLength start bytes.length) = written at hi
      by_cases hin : start ≤ i ∧ i < start + written.length
      · rw [if_pos ⟨rfl, hin⟩, if_pos hin, List.getD_eq_getElem?_getD,
          List.getElem?_eq_getElem (show i - start < written.length by omega)]
        rfl
      · rw [if_neg fun h => hin h.2, if_neg hin]
        apply hb
        rcases lt_max_iff.mp hi with hlt | hlt
        · exact hlt
        · omega
    · rw [if_neg fun h => hidx h.1.symm, hother idx hidx]
      rw [hother idx hidx] at hi
      exact hb idx i hi
  | @deleted path _ hstate =>
    rw [hstate]
    intro idx i hi
    dsimp only at hi ⊢
    rcases (s.inodes.delete_spec path).1 idx with ⟨heq, hdata⟩ | hzero
    · rw [heq] at hi
      rw [hdata]
      exact hb idx i hi
    · omega

/-- A read returns bytes of the file below its size. -/
theorem ramfsFileRead_byte {i : Nat} {byte : UInt8}
    (h : (ramfsFileRead s f count).2.1[i]? = some byte) :
    (s.files f).offset + i < (s.inodes (inodeOf (s.files f))).size ∧
      (s.inodes (inodeOf (s.files f))).data ((s.files f).offset + i) = byte := by
  obtain ⟨hi, hbyte⟩ := List.getElem?_eq_some_iff.mp h
  refine ⟨(readSpan_within s f count).1 i hi, ?_⟩
  revert hi
  unfold ramfsFileRead
  dsimp only
  split
  · simp
  · split
    · simp
    · intro hi hbyte
      rw [← hbyte, List.getElem_map, List.getElem_range]

/-- In every run in which each write starts at or below the end of its file, every byte that a read
returns is the one that was last written at its place, since the file was last created or
truncated. -/
theorem ramfs_reads_written {ops : List RamfsFileOp}
    (hc : Run.Along ramfsFileStep StartsInFile ramfsBoot ops)
    (hr : Run.run ramfsFileStep ramfsBoot ops = some s) (f : FileId) (count : Nat) :
    ∀ i byte, (ramfsFileRead s f count).2.1[i]? = some byte →
      writtenSince (inodeOf (s.files f)) ((s.files f).offset + i) s.log = some byte := by
  have hboot : Backed ramfsBoot := fun idx i hi => absurd hi (Nat.not_lt_zero i)
  have hb : Backed s :=
    Run.run_invariant_along ramfsFileStep (fun s op s' hs hc => hs.step hc) hboot hc hr
  intro i byte hbyte
  obtain ⟨hlt, hdata⟩ := ramfsFileRead_byte hbyte
  rw [hb _ _ hlt, hdata]

/-- A second descriptor reads the byte that was written through the first. -/
theorem ramfs_reads_written_reopened : ∃ (s : RamfsState) (f : FileId),
    (ramfsFileRead s f 3).2.1 = [7] ∧ ∀ i byte, (ramfsFileRead s f 3).2.1[i]? = some byte →
      writtenSince (inodeOf (s.files f)) ((s.files f).offset + i) s.log = some byte := by
  have hread : (Run.run ramfsFileStep ramfsBoot (oneByte ++ [.open [47, 97] 0 0])).map
      (fun s => (ramfsFileRead s ⟨1, by decide⟩ 3).2.1) = some [7] := by decide +kernel
  have hstart : (ramfsFileStep ramfsBoot (.open [47, 97] 4 0)).map (writeStart · firstFile) =
      some (some 0) := by decide +kernel
  have hc : Run.Along ramfsFileStep StartsInFile ramfsBoot (oneByte ++ [.open [47, 97] 0 0]) := by
    refine ⟨trivial, fun s₁ h₁ => ⟨fun _ start h => ?_, fun _ _ => ⟨trivial, fun _ _ => trivial⟩⟩⟩
    rw [h₁] at hstart
    cases (some.inj hstart).symm.trans h
    exact Nat.zero_le _
  obtain ⟨s, hrun, hbytes⟩ := map_eq_some_iff.mp hread
  exact ⟨s, _, hbytes, ramfs_reads_written hc hrun _ 3⟩

end Crius.Fs
