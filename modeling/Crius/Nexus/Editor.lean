import Crius.Fs.RamfsSafety

/-!
# The editor

The keys of `nexus/editor/editor.c` and its save to a file of the ramfs. What is drawn on the
screen is left out. The cursor is at most the length of the text, so that no index is negative.
-/
namespace Crius.Nexus

open Abi Fs Lib.Run Function

/-- `MAX_FILESIZE` of the editor. -/
def editSize : Nat := 4096

/-- `edit_buf`, `edit_len` and `edit_cursor` -/
structure Editor where
  buf : Nat → UInt8
  len : Nat
  cursor : Nat

/-- `while (p > 0 && edit_buf[p - 1] != '\n') p--` -/
def lineStart (buf : Nat → UInt8) : Nat → Nat
  | 0 => 0
  | p + 1 => if buf p ≠ 10 then lineStart buf p else p + 1

/-- `while (p < edit_len && edit_buf[p] != '\n') p++` -/
def lineEnd (buf : Nat → UInt8) (len p : Nat) : Nat :=
  if p < len ∧ buf p ≠ 10 then lineEnd buf len (p + 1) else p
termination_by len - p

/-- The loop that makes room at `p`, from `i` down. -/
def shiftUp (p : Nat) : Nat → (Nat → UInt8) → Nat → UInt8
  | 0, buf => buf
  | i + 1, buf => if p < i + 1 then shiftUp p i (update buf (i + 1) (buf i)) else buf

/-- The loop that closes the gap, from `i` up to `len`. -/
def shiftDown (len i : Nat) (buf : Nat → UInt8) : Nat → UInt8 :=
  if i < len then shiftDown len (i + 1) (update buf (i - 1) (buf i)) else buf
termination_by len - i

namespace Editor

variable (e : Editor)

def insert (c : UInt8) : Editor :=
  if e.len < editSize then
    ⟨update (shiftUp e.cursor e.len e.buf) e.cursor c, e.len + 1, e.cursor + 1⟩
  else e

def up : Nat :=
  let curStart := lineStart e.buf e.cursor
  if 0 < curStart then
    let prevStart := lineStart e.buf (curStart - 1)
    min (prevStart + (e.cursor - curStart)) (prevStart + (curStart - 1 - prevStart))
  else 0

def down : Nat :=
  let curEnd := lineEnd e.buf e.len e.cursor
  if curEnd < e.len then
    min (curEnd + 1 + (e.cursor - lineStart e.buf e.cursor)) (lineEnd e.buf e.len (curEnd + 1))
  else e.cursor

/-- `edit_handle_char`, but for the keys that end the session. -/
def handleChar (c : UInt8) : Editor :=
  if c = 0x82 then { e with cursor := e.cursor - 1 }
  else if c = 0x83 then { e with cursor := if e.cursor < e.len then e.cursor + 1 else e.cursor }
  else if c = 0x84 then { e with cursor := lineStart e.buf e.cursor }
  else if c = 0x85 then { e with cursor := lineEnd e.buf e.len e.cursor }
  else if c = 0x80 then { e with cursor := e.up }
  else if c = 0x81 then { e with cursor := e.down }
  else if c = 8 then
    if 0 < e.cursor then ⟨shiftDown e.len e.cursor e.buf, e.len - 1, e.cursor - 1⟩ else e
  else if c = 10 ∨ 0x20 ≤ c ∧ c < 0x80 then e.insert c
  else e

/-- The newline that a save puts at the end. -/
def endLine : Editor :=
  if e.len < editSize ∧ (e.len = 0 ∨ e.buf (e.len - 1) ≠ 10) then
    { e with buf := update e.buf e.len 10, len := e.len + 1 }
  else e

def text : List UInt8 := (List.range e.len).map e.buf

end Editor

/-- `edit_init` with the bytes that it read, over a buffer with the contents `old`. -/
def editInit (old : Nat → UInt8) (bytes : List UInt8) : Editor :=
  let buf := fun i => bytes.getD i (old i)
  let len := if 0 < bytes.length ∧ buf (bytes.length - 1) = 10 then bytes.length - 1
    else bytes.length
  ⟨buf, len, len⟩

/-- `open(path, O_WRONLY | O_CREAT)`, `write` and `close`; nothing is written if the open fails. -/
def saveFile (s : RamfsState) (path bytes : List UInt8) : Option RamfsState :=
  match fileAlloc s.files with
  | none => some s
  | some (f, _) =>
    let s := openRamfs s path 5 0
    if Fs.IsOpen s f .ramfsFile then
      (ramfsFileWrite s f bytes).map fun r => { r.2 with files := (filePut f r.2.files).2 }
    else some s

/-- The loop of `edit_main`: Escape and Ctrl-S save, Ctrl-X gives up. -/
def editMain (path : List UInt8) : List UInt8 → Editor → RamfsState → Option (Editor × RamfsState)
  | [], e, s => some (e, s)
  | c :: keys, e, s =>
    if c = 0x1B ∨ c = 0x13 then (saveFile s path e.endLine.text).map (e.endLine, ·)
    else if c = 0x18 then some (e, s)
    else editMain path keys (e.handleChar c) s

/-! ## What a save leaves in the file -/

/-- A regular file, and a free file object to open it with. -/
structure Editable (s : RamfsState) (path : List UInt8) (idx : InodeId) : Prop where
  found : s.inodes.resolvePath path = .ok idx
  used : (s.inodes idx).used = true
  file : (s.inodes idx).type = .file
  free : (fileAlloc s.files).isSome

def contents (s : RamfsState) (idx : InodeId) : List UInt8 :=
  (List.range (s.inodes idx).size).map (s.inodes idx).data

variable {s : RamfsState} {path bytes : List UInt8} {idx : InodeId} {e : Editor}

theorem openRamfs_found {f : FileId} {pool : FilePool} (h : Editable s path idx)
    (hf : fileAlloc s.files = some (f, pool)) : openRamfs s path 5 0 =
      { s.setFile f ⟨true, 1, 5, 0, some .ramfsFile, idx.val⟩ with
        log := .opened f idx :: s.log } := by
  have htrunc : oTrunc 5 = false := by decide
  unfold openRamfs
  rw [hf]
  dsimp only
  unfold ramfsFsOpen
  rw [h.found]
  dsimp only
  unfold openInode
  rw [if_pos h.used, h.file, htrunc]
  rfl

/-- Without `O_TRUNC` the text takes the place of the first bytes only. -/
theorem saveFile_inode (h : Editable s path idx) (hlen : bytes.length ≤ editSize) :
    ∃ s', saveFile s path bytes = some s' ∧ s'.inodes idx =
      { s.inodes idx with
        data := copyIn (s.inodes idx).data 0 bytes
        size := max (s.inodes idx).size (0 + bytes.length) } := by
  unfold editSize at hlen
  obtain ⟨⟨f, pool⟩, halloc⟩ := Option.isSome_iff_exists.mp h.free
  have hinode : inodeOf ⟨true, 1, 5, 0, some .ramfsFile, idx.val⟩ = idx := inodeOf_val idx _ rfl
  have happend : oAppend 5 = false := by decide
  have hwhole : writeLength 0 bytes.length = bytes.length := by
    unfold writeLength maxFilesize
    rw [if_neg (by omega)]
  have hin : ¬maxFilesize < 0 + bytes.length := by
    unfold maxFilesize
    omega
  unfold saveFile
  rw [halloc]
  dsimp only
  rw [openRamfs_found h halloc]
  simp only [RamfsState.setFile, Fs.IsOpen, update_self, and_self, if_true, ramfsFileWrite,
    writeStart, happend, Bool.false_eq_true, if_false, Nat.zero_mod, hinode, ramfsWriteAt, hwhole,
    hin, h.file, List.take_length, ne_eq, not_true_eq_false, Option.map_some]
  exact ⟨_, rfl, update_self ..⟩

theorem ramfsFileRead_whole {f : FileId} {count : Nat}
    (hused : (s.inodes (inodeOf (s.files f))).used = true) (hoffset : (s.files f).offset = 0)
    (hcount : (s.inodes (inodeOf (s.files f))).size ≤ count) :
    (ramfsFileRead s f count).2.1 = contents s (inodeOf (s.files f)) := by
  unfold ramfsFileRead contents
  dsimp only
  rw [if_neg (by simp [hused]), hoffset, Nat.sub_zero, Nat.min_eq_left hcount]
  split
  · next hzero => rw [Nat.le_zero.mp hzero]; rfl
  · simp

theorem copyIn_eq_iff (data : Nat → UInt8) (size : Nat) :
    (List.range (max size (0 + bytes.length))).map (copyIn data 0 bytes) = bytes ↔
      size ≤ bytes.length := by
  constructor
  · intro heq
    have hlength := congrArg List.length heq
    simp only [List.length_map, List.length_range] at hlength
    omega
  · intro hle
    apply List.ext_getElem
    · simpa using hle
    · intro i hi hi'
      simp [copyIn, hi']

theorem handleChar_len_le (h : e.len ≤ editSize) (c : UInt8) : (e.handleChar c).len ≤ editSize := by
  unfold Editor.handleChar Editor.insert
  split_ifs <;> first | exact h | (dsimp only; omega)

theorem lineStart_le (buf : Nat → UInt8) (p : Nat) : lineStart buf p ≤ p := by
  fun_induction lineStart <;> grind

theorem lineEnd_le {buf : Nat → UInt8} {len p : Nat} (h : p ≤ len) : lineEnd buf len p ≤ len := by
  fun_induction lineEnd <;> grind

theorem handleChar_cursor_le (h : e.cursor ≤ e.len) (c : UInt8) :
    (e.handleChar c).cursor ≤ (e.handleChar c).len := by
  have hstart := lineStart_le e.buf
  unfold Editor.handleChar Editor.insert Editor.up Editor.down
  grind [lineEnd_le]

theorem shiftUp_apply (p i j : Nat) (buf : Nat → UInt8) :
    shiftUp p i buf j = if p < j ∧ j ≤ i then buf (j - 1) else buf j := by
  fun_induction shiftUp p i buf with
  | case1 buf => rw [if_neg (by omega)]
  | case2 i buf hlt ih => grind [update_apply]
  | case3 i buf hge => rw [if_neg (by omega)]

theorem shiftDown_apply {len i : Nat} {buf : Nat → UInt8} (j : Nat) (hi : 0 < i) :
    shiftDown len i buf j = if i ≤ j + 1 ∧ j + 1 < len then buf (j + 1) else buf j := by
  fun_induction shiftDown len i buf with
  | case1 i buf hlt ih => grind [update_apply]
  | case2 i buf hge => rw [if_neg (by omega)]

/-- A key that does not end the session. -/
def EditKey : Type := { c : UInt8 // c ≠ 0x1B ∧ c ≠ 0x13 ∧ c ≠ 0x18 }

/-- After any keys the cursor is in the text and the text in the buffer. The next key deletes the
character before the cursor, inserts one there, or leaves the text as it is. -/
theorem keys_edit_text (old : Nat → UInt8) (bytes : List UInt8) (keys : List EditKey) :
    let e := keys.foldl (fun e k => e.handleChar k.1) (editInit old (bytes.take editSize))
    e.cursor ≤ e.len ∧ e.len ≤ editSize ∧ ∀ c : EditKey, (e.handleChar c.1).text =
      if c.1 = 8 ∧ 0 < e.cursor then e.text.eraseIdx (e.cursor - 1)
      else if (c.1 = 10 ∨ 0x20 ≤ c.1 ∧ c.1 < 0x80) ∧ e.len < editSize then
        e.text.insertIdx e.cursor c.1
      else e.text := by
  intro e
  obtain ⟨hcursor, hlen⟩ : e.cursor ≤ e.len ∧ e.len ≤ editSize :=
    List.foldlRecOn (motive := fun e : Editor => e.cursor ≤ e.len ∧ e.len ≤ editSize) keys _
      ⟨le_rfl, by grind [editInit]⟩ fun _ h k _ =>
        ⟨handleChar_cursor_le h.1 k.1, handleChar_len_le h.2 k.1⟩
  refine ⟨hcursor, hlen, fun c => ?_⟩
  unfold Editor.handleChar Editor.insert Editor.text
  split_ifs <;> first | grind | apply List.ext_getElem
  · grind
  · grind [shiftDown_apply]
  · grind
  · grind [shiftUp_apply, update_apply]

theorem endLine_len_le (h : e.len ≤ editSize) : e.endLine.len ≤ editSize := by
  unfold Editor.endLine
  split
  · next hroom => exact hroom.1
  · exact h

/-- Keys that do not end the session are handled one after the other. -/
theorem editMain_save (s : RamfsState) (path : List UInt8) {keys : List UInt8} {c : UInt8}
    (hkeys : ∀ k ∈ keys, k ≠ 0x1B ∧ k ≠ 0x13 ∧ k ≠ 0x18) (hc : c = 0x1B ∨ c = 0x13)
    (he : e.len ≤ editSize) : ∃ e' : Editor, e'.len ≤ editSize ∧
      editMain path (keys ++ [c]) e s = (saveFile s path e'.text).map (e', ·) := by
  induction keys generalizing e with
  | nil => exact ⟨e.endLine, endLine_len_le he, if_pos hc⟩
  | cons k keys ih =>
    obtain ⟨hk, hrest⟩ := List.forall_mem_cons.mp hkeys
    have hstep : editMain path (k :: keys ++ [c]) e s =
        editMain path (keys ++ [c]) (e.handleChar k) s := by
      simp [editMain, hk]
    rw [hstep]
    exact ih hrest (handleChar_len_le he k)

/-- The file `/a` of three bytes, closed. -/
def abcFile : RamfsState :=
  (run ramfsFileStep ramfsBoot
    [.open [47, 97] 4 0, .write firstFile [97, 98, 99], .close firstFile]).getD ramfsBoot

def abcInode : InodeId := ⟨1, by decide⟩

end Crius.Nexus
