import Crius.Process.Machine
import Crius.Process.PageBytes

/-!
# The argument page

`SYS_EXEC` accepts at most `MAX_ARGS` strings, each with its zero within `MAX_ARG_LEN` bytes.
`do_exec` puts pointers and strings into one page, the strings one after the other from
offset 256. Up to fifteen strings always fit; the last one is cut where the page ends.
-/
namespace Crius.Process

open Mm Elf Function List Nat

/-! ## The checks of `SYS_EXEC` -/

/-- What `SYS_EXEC` finds at `argv + i`; a string is given by the bytes that can be read
from its pointer on. -/
inductive UserSlot where
  | fault
  | null
  | text (bytes : List UInt8)

/-- `validate_user_string` -/
def validateUserString (bytes : List UInt8) (maxlen : ℕ) : Bool := (bytes.take maxlen).contains 0

/-- `n` rounds of the loop over `argv` from `i` on, and the check of the entry after them. -/
def checkArgs (argv : ℕ → UserSlot) : (n i : ℕ) → Except Int (List (List UInt8))
  | 0, i =>
    match argv i with
    | .fault => .error (-Abi.EFAULT)
    | .null => .ok []
    | .text _ => .error (-Abi.E2BIG)
  | n + 1, i =>
    match argv i with
    | .fault => .error (-Abi.EFAULT)
    | .null => .ok []
    | .text bytes =>
      if validateUserString bytes Abi.MAX_ARG_LEN then
        (checkArgs argv n (i + 1)).map (bytes.takeWhile (· ≠ 0) :: ·)
      else .error (-Abi.EFAULT)

/-- The strings that `SYS_EXEC` hands to `do_exec`. -/
def sysExecArgs (argv : ℕ → UserSlot) : Except Int (List (List UInt8)) :=
  checkArgs argv Abi.MAX_ARGS 0

variable {n i off : ℕ} {argv : List (List UInt8)}

theorem takeWhile_length_lt {bytes : List UInt8} (h : validateUserString bytes n = true) :
    (bytes.takeWhile (· ≠ 0)).length < n := by
  rw [validateUserString, contains_iff_mem] at h
  induction bytes generalizing n with
  | nil => simp at h
  | cons b bytes ih =>
    cases n with
    | zero => simp at h
    | succ n =>
      by_cases hb : b = 0
      · rw [takeWhile_cons_of_neg (by simpa using hb)]
        exact succ_pos n
      · rw [take_succ_cons, mem_cons] at h
        rw [takeWhile_cons_of_pos (by simpa using hb), length_cons]
        exact succ_lt_succ (ih (h.resolve_left fun h0 => hb h0.symm))

theorem checkArgs_spec {slots : ℕ → UserSlot} (h : checkArgs slots n i = .ok argv) :
    argv.length ≤ n ∧ ArgsOk argv := by
  induction n generalizing i argv with
  | zero =>
    cases hslot : slots i with
    | null =>
      simp only [checkArgs, hslot] at h
      cases h
      exact ⟨le_refl 0, fun _ hmem => absurd hmem not_mem_nil⟩
    | fault => simp [checkArgs, hslot] at h
    | text bytes => simp [checkArgs, hslot] at h
  | succ n ih =>
    cases hslot : slots i with
    | fault => simp [checkArgs, hslot] at h
    | null =>
      simp only [checkArgs, hslot] at h
      cases h
      exact ⟨zero_le _, fun _ hmem => absurd hmem not_mem_nil⟩
    | text bytes =>
      simp only [checkArgs, hslot] at h
      split at h
      · next hvalid =>
        cases hrest : checkArgs slots n (i + 1) with
        | error e => simp [hrest, Except.map] at h
        | ok rest =>
          rw [hrest] at h
          cases h
          obtain ⟨hlen, hok⟩ := ih hrest
          refine ⟨succ_le_succ hlen, fun arg hmem => ?_⟩
          rcases mem_cons.mp hmem with rfl | hmem
          · exact takeWhile_length_lt hvalid
          · exact hok arg hmem
      · cases h

/-! ## Reading the page back -/

/-- The page holds a string and its zero at the given offset. -/
structure HoldsString (page : Page) (off : ℕ) (text : List UInt8) : Prop where
  inside : off + text.length < 4096
  bytes : ∀ k (hk : k < text.length), pageByte page (off + k) = text[k].toBitVec
  zero : pageByte page (off + text.length) = 0

/-- The entry `i` of the pointer array. -/
def argSlot (i : ℕ) : Fin 512 := Fin.ofNat 512 (4 + i)

/-- The process finds its arguments in full. -/
structure Delivered (page : Page) (argv : List (List UInt8)) : Prop where
  argc : page 0 = BitVec.ofNat 64 argv.length
  vector : page 1 = argAddr 32
  null : page (argSlot argv.length) = 0
  strings : ∀ i (hi : i < argv.length), ∃ off, page (argSlot i) = argAddr off ∧
    HoldsString page off argv[i]

/-- The room that strings take with their zeros. -/
def packedLength (argv : List (List UInt8)) : ℕ := (argv.map (·.length + 1)).sum

theorem packedLength_cons (arg : List UInt8) (argv : List (List UInt8)) :
    packedLength (arg :: argv) = arg.length + 1 + packedLength argv := by
  rw [packedLength, map_cons, sum_cons, packedLength]

theorem argSlot_val (hi : i < 508) : (argSlot i).val = 4 + i :=
  mod_eq_of_lt (by omega)

theorem argAddr_inj {a b : ℕ} (ha : a < 4096) (hb : b < 4096) (h : argAddr a = argAddr b) : a = b := by
  have hnat := congrArg BitVec.toNat h
  rw [argAddr, argAddr, BitVec.toNat_ofNat, BitVec.toNat_ofNat] at hnat
  unfold argPageBase at hnat
  omega

theorem HoldsString.congr {page page' : Page} {text : List UInt8} (h : HoldsString page off text)
    (hsame : ∀ k, off ≤ k → k ≤ off + text.length → pageByte page' k = pageByte page k) :
    HoldsString page' off text where
  inside := h.inside
  bytes k hk := (hsame (off + k) (by omega) (by omega)).trans (h.bytes k hk)
  zero := (hsame (off + text.length) (by omega) (by omega)).trans h.zero

/-! ## One argument -/

section Fill

variable {vm : Vm} {argPhys : Addr} (hframe : IsFrame argPhys)

include hframe

theorem storeByte_mem {off : ℕ} (hoff : off < 4096) (b : Byte) :
    (storeByte vm (argPhys + BitVec.ofNat 64 off) b).mem argPhys =
      copyIn (vm.mem argPhys) off 1 fun _ => b := by
  have haligned := tableAddr_toNat argPhys
  rw [hframe.tableAddr] at haligned
  have hlow : ((argPhys + BitVec.ofNat 64 off) &&& 0xFFF).toNat = off := by
    rw [BitVec.toNat_and]
    refine (and_two_pow_sub_one_eq_mod _ 12).trans ?_
    rw [BitVec.toNat_add, BitVec.toNat_ofNat]
    omega
  rw [storeByte, tableAddr_add hframe off hoff, hlow, Vm.setPage_mem_self]

theorem pageByte_storeByte {off k : ℕ} (hoff : off < 4096) (hk : k < 4096) (b : Byte) :
    pageByte ((storeByte vm (argPhys + BitVec.ofNat 64 off) b).mem argPhys) k =
      if k = off then b else pageByte (vm.mem argPhys) k := by
  rw [storeByte_mem hframe hoff, pageByte_copyIn _ _ _ _ hk]
  by_cases heq : k = off
  · rw [if_pos heq, if_pos (by omega)]
  · rw [if_neg heq, if_neg (by omega)]

theorem copyArg_outside (arg : List UInt8) {off k : ℕ} (hoff : off ≤ 0xFFF) (hk : k < 4096)
    (hout : k < off ∨ min (off + arg.length) 0xFFF ≤ k) :
    pageByte ((copyArg argPhys arg off vm).2.mem argPhys) k = pageByte (vm.mem argPhys) k := by
  induction arg generalizing off vm with
  | nil => rfl
  | cons c cs ih =>
    rw [copyArg]
    by_cases hlt : off < 0x1000 - 1
    · rw [length_cons] at hout
      rw [if_pos hlt, ih (by omega) (by omega), pageByte_storeByte hframe (by omega) hk,
        if_neg (by omega)]
    · rw [if_neg hlt]

theorem copyArg_inside (arg : List UInt8) {off j : ℕ} (hoff : off ≤ 0xFFF) (hj : j < arg.length)
    (hfit : off + j < 0xFFF) :
    pageByte ((copyArg argPhys arg off vm).2.mem argPhys) (off + j) = arg[j].toBitVec := by
  induction arg generalizing off j vm with
  | nil => exact absurd hj (not_lt_zero j)
  | cons c cs ih =>
    have hlt : off < 0x1000 - 1 := by omega
    rw [copyArg, if_pos hlt]
    cases j with
    | zero =>
      rw [copyArg_outside hframe cs (by omega) (by omega) (.inl (by omega)),
        pageByte_storeByte hframe (by omega) (by omega), if_pos (add_zero off)]
      rfl
    | succ j =>
      rw [show off + (j + 1) = off + 1 + j by omega]
      exact ih (by omega) (lt_of_succ_lt_succ hj) (by omega)

/-- What one round of the loop has done to the page. -/
structure Added (page page' : Page) (i off : ℕ) (arg : List UInt8) : Prop where
  pointer : page' (argSlot i) = argAddr off
  words : ∀ w : Fin 512, w.val < 32 → w ≠ argSlot i → page' w = page w
  before : ∀ k, 256 ≤ k → k < off → pageByte page' k = pageByte page k
  text : HoldsString page' off (arg.take (0xFFF - off))

omit hframe in
theorem addArg_eq (argPhys : Addr) (arg : List UInt8) {i off : ℕ} (hlow : 256 ≤ off)
    (hoff : off ≤ 0xFFF) : addArg argPhys (i, off, vm) arg = (i + 1, min (off + arg.length) 0xFFF + 1,
      storeByte (copyArg argPhys arg off (vm.write argPhys (argSlot i) (argAddr off))).2
        (argPhys + BitVec.ofNat 64 (min (off + arg.length) 0xFFF)) 0) := by
  rw [← (copyStores_inside arg off hlow hoff).1, copyArg_eq_stores, addArg, copyArg_eq_stores]
  rfl

theorem added_addArg (vm : Vm) (arg : List UInt8) {i off : ℕ} (hi : i < 28) (hlow : 256 ≤ off)
    (hoff : off ≤ 0xFFF) :
    Added (vm.mem argPhys) ((addArg argPhys (i, off, vm) arg).2.2.mem argPhys) i off arg := by
  have hslot : (argSlot i).val = 4 + i := argSlot_val (by omega)
  rw [addArg_eq argPhys arg hlow hoff]
  generalize hstop : min (off + arg.length) 0xFFF = stop
  generalize hwritten : vm.write argPhys (argSlot i) (argAddr off) = vm1
  have hpage : vm1.mem argPhys = update (vm.mem argPhys) (argSlot i) (argAddr off) := by
    rw [← hwritten]
    exact vm.write_mem_self ..
  have houtside (k : ℕ) (hk : k < 4096) (hout : k < off ∨ stop < k) :
      pageByte ((storeByte (copyArg argPhys arg off vm1).2 (argPhys + BitVec.ofNat 64 stop) 0).mem
        argPhys) k = pageByte (vm1.mem argPhys) k := by
    rw [pageByte_storeByte hframe (by omega) hk, if_neg (by omega)]
    exact copyArg_outside hframe arg hoff hk (by omega)
  -- the pointer array lies before the strings
  have hword (w : Fin 512) (hw : w.val < 32) :
      (storeByte (copyArg argPhys arg off vm1).2 (argPhys + BitVec.ofNat 64 stop) 0).mem argPhys w =
        vm1.mem argPhys w := word_ext fun r hr => houtside _ (by omega) (.inl (by omega))
  constructor
  · show (storeByte _ _ _).mem argPhys _ = _
    rw [hword _ (by omega), hpage, update_self]
  · intro w hw hne
    rw [hword w hw, hpage, update_of_ne hne]
  · intro k hk hlt
    rw [houtside k (by omega) (.inl hlt), hpage, pageByte_update _ _ _ (by omega) (by omega)]
  · have hlen : (arg.take (0xFFF - off)).length = stop - off := by
      rw [length_take]
      omega
    constructor
    · omega
    · intro k hk
      rw [pageByte_storeByte hframe (by omega) (by omega), if_neg (by omega),
        copyArg_inside hframe arg hoff (by omega) (by omega), getElem_take]
    · show pageByte ((storeByte _ _ _).mem argPhys) _ = _
      rw [pageByte_storeByte hframe (by omega) (by omega), if_pos (by omega)]

end Fill

/-! ## All arguments -/

/-- The page holds the arguments from `i` on, the strings from offset `off` on. -/
def Packed (page : Page) : ℕ → ℕ → List (List UInt8) → Prop
  | _, _, [] => True
  | i, off, arg :: rest =>
    page (argSlot i) = argAddr off ∧ HoldsString page off (arg.take (0xFFF - off)) ∧
      Packed page (i + 1) (off + arg.length + 1) rest

theorem Packed.get {page : Page} {args : List (List UInt8)} (h : Packed page i off args) {j : ℕ}
    (hj : j < args.length) : page (argSlot (i + j)) = argAddr (off + packedLength (args.take j)) ∧
      HoldsString page (off + packedLength (args.take j))
        (args[j].take (0xFFF - (off + packedLength (args.take j)))) := by
  induction args generalizing i off j with
  | nil => exact absurd hj (not_lt_zero j)
  | cons arg rest ih =>
    obtain ⟨hptr, htext, hrest⟩ := h
    cases j with
    | zero => exact ⟨hptr, htext⟩
    | succ j =>
      have hlast := ih hrest (lt_of_succ_lt_succ hj)
      rw [take_succ_cons, packedLength_cons, add_succ i j, ← succ_add i j,
        getElem_cons_succ]
      rw [show off + (arg.length + 1 + packedLength (rest.take j)) =
        off + arg.length + 1 + packedLength (rest.take j) by omega]
      exact hlast

section Fill

variable {vm : Vm} {argPhys : Addr} (hframe : IsFrame argPhys)

include hframe

/-- The loop over the arguments. All but the last of them end inside of the page. -/
theorem packed_addArgs {n : ℕ} (args : List (List UInt8)) (i off : ℕ) (vm : Vm)
    (hargs : ∀ arg ∈ args, arg.length < n) (hi : i + args.length ≤ 28) (hlow : 256 ≤ off)
    (hfit : off + (args.length - 1) * n ≤ 0xFFF) :
    Packed ((args.foldl (addArg argPhys) (i, off, vm)).2.2.mem argPhys) i off args ∧
      (∀ w : Fin 512, w.val < 32 → w.val < 4 + i ∨ 4 + i + args.length ≤ w.val →
        (args.foldl (addArg argPhys) (i, off, vm)).2.2.mem argPhys w = vm.mem argPhys w) ∧
      ∀ k, 256 ≤ k → k < off →
        pageByte ((args.foldl (addArg argPhys) (i, off, vm)).2.2.mem argPhys) k =
          pageByte (vm.mem argPhys) k := by
  induction args generalizing i off vm with
  | nil => exact ⟨trivial, fun _ _ _ => rfl, fun _ _ _ => rfl⟩
  | cons arg rest ih =>
    have harg := hargs arg mem_cons_self
    rw [length_cons] at hi hfit
    have hadded := added_addArg hframe vm arg (i := i) (by omega) hlow (by omega)
    have hslot : (argSlot i).val = 4 + i := argSlot_val (by omega)
    have hne (w : Fin 512) (hw : w.val ≠ 4 + i) : w ≠ argSlot i := fun heq => hw (heq ▸ hslot)
    rw [foldl_cons]
    rcases hround : addArg argPhys (i, off, vm) arg with ⟨i', off', vm1⟩
    rw [addArg_eq argPhys arg hlow (by omega)] at hround
    obtain ⟨rfl, hrest⟩ := Prod.mk.inj hround
    obtain ⟨hoff', hvm1⟩ := Prod.mk.inj hrest
    rw [addArg_eq argPhys arg hlow (by omega)] at hadded
    simp only [hvm1] at hadded
    cases rest with
    | nil =>
      refine ⟨⟨hadded.pointer, hadded.text, trivial⟩, fun w hw hout => ?_, hadded.before⟩
      rw [length_cons, length_nil] at hout
      exact hadded.words w hw (hne w (by omega))
    | cons arg' rest =>
      rw [length_cons] at hi hfit
      have hnext : off' = off + arg.length + 1 := by
        rw [Nat.add_sub_cancel, Nat.succ_mul] at hfit
        omega
      subst hnext
      obtain ⟨hpacked, hwords, hbefore⟩ := ih (i + 1) (off + arg.length + 1) vm1
        (fun a ha => hargs a (mem_cons_of_mem arg ha)) (by rw [length_cons]; omega)
        (by omega) (by
          rw [Nat.add_sub_cancel, Nat.succ_mul] at hfit
          rw [length_cons, Nat.add_sub_cancel]
          omega)
      have htext := hadded.text
      have hshort : (arg.take (0xFFF - off)).length ≤ arg.length := length_take_le' _ _
      refine ⟨⟨?_, ?_, hpacked⟩, fun w hw hout => ?_, fun k hk hlt => ?_⟩
      · rw [hwords _ (by omega) (by omega)]
        exact hadded.pointer
      · exact htext.congr fun k hk hle => hbefore k (by omega) (by omega)
      · rw [length_cons, length_cons] at hout
        rw [hwords w hw (by rw [length_cons]; omega)]
        exact hadded.words w hw (hne w (by omega))
      · rw [hbefore k hk (by omega)]
        exact hadded.before k hk hlt

/-- The page after `do_exec` has filled it. -/
theorem packed_fillArgs (vm : Vm) {argv : List (List UInt8)} (hlen : argv.length ≤ Abi.MAX_ARGS)
    (hargs : ArgsOk argv) :
    Packed ((fillArgs argPhys argv vm).mem argPhys) 0 256 argv ∧
      (fillArgs argPhys argv vm).mem argPhys 0 = BitVec.ofNat 64 argv.length ∧
      (fillArgs argPhys argv vm).mem argPhys 1 = argAddr 32 ∧
      (fillArgs argPhys argv vm).mem argPhys (argSlot argv.length) = 0 := by
  have hmax : argv.length ≤ 16 := hlen
  have hfit : 256 + (argv.length - 1) * Abi.MAX_ARG_LEN ≤ 0xFFF := by
    unfold Abi.MAX_ARG_LEN
    omega
  rw [fillArgs]
  generalize hvm1 : vm.setPage argPhys (fun _ => 0) = vm1
  generalize hvm3 : (vm1.write argPhys 0 (BitVec.ofNat 64 argv.length)).write argPhys 1
    (BitVec.ofNat 64 (argPageBase + 32)) = vm3
  have hpage : vm3.mem argPhys = update (update (fun _ => 0) 0
      (BitVec.ofNat 64 argv.length)) 1 (argAddr 32) := by
    rw [← hvm3, ← hvm1, Vm.write_mem_self, Vm.write_mem_self, Vm.setPage_mem_self]
    rfl
  have hslot : (argSlot argv.length).val = 4 + argv.length := argSlot_val (by omega)
  obtain ⟨hpacked, hwords, -⟩ := packed_addArgs hframe argv 0 256 vm3 hargs
    (by omega) (le_refl 256) hfit
  refine ⟨hpacked, ?_, ?_, ?_⟩
  · rw [hwords 0 (by decide) (.inl (by decide)), hpage, update_of_ne (by decide),
      update_self]
  · rw [hwords 1 (by decide) (.inl (by decide)), hpage, update_self]
  · have hne (c : Fin 512) (hc : c.val < 4) : argSlot argv.length ≠ c := fun heq => by
      rw [← heq, hslot] at hc
      omega
    rw [hwords _ (by omega) (.inr (by omega)), hpage, update_of_ne (hne 1 (by decide)),
      update_of_ne (hne 0 (by decide))]

end Fill

theorem packedLength_take_le (hi : i < argv.length) :
    packedLength (argv.take i) + argv[i].length + 1 ≤ packedLength argv := by
  induction argv generalizing i with
  | nil => exact absurd hi (not_lt_zero i)
  | cons arg argv ih =>
    rw [packedLength_cons]
    cases i with
    | zero =>
      rw [take_zero, getElem_cons_zero]
      show 0 + _ + 1 ≤ _
      omega
    | succ i =>
      have hrest := ih (lt_of_succ_lt_succ hi)
      rw [take_succ_cons, packedLength_cons, getElem_cons_succ]
      omega

theorem packedLength_take_last (hi : i + 1 = argv.length) :
    packedLength (argv.take i) + argv[i].length + 1 = packedLength argv := by
  induction argv generalizing i with
  | nil => cases hi
  | cons arg argv ih =>
    rw [packedLength_cons]
    cases i with
    | zero =>
      obtain rfl : argv = [] := eq_nil_of_length_eq_zero (by simpa using hi.symm)
      rw [take_zero, getElem_cons_zero]
      omega
    | succ i =>
      have hrest := ih (succ.inj hi)
      rw [take_succ_cons, packedLength_cons, getElem_cons_succ]
      omega

theorem packedLength_take_bound (hargs : ∀ arg ∈ argv, arg.length < n) (hi : i ≤ argv.length) :
    packedLength (argv.take i) ≤ i * n := by
  induction argv generalizing i with
  | nil =>
    rw [take_nil]
    exact zero_le _
  | cons arg argv ih =>
    cases i with
    | zero => exact zero_le _
    | succ i =>
      have harg := hargs arg mem_cons_self
      have hrest := ih (fun a ha => hargs a (mem_cons_of_mem arg ha)) (le_of_succ_le_succ hi)
      rw [take_succ_cons, packedLength_cons, succ_mul]
      omega

/-- The string of the last argument starts inside of the page. -/
theorem start_le (hlen : argv.length ≤ Abi.MAX_ARGS) (hargs : ArgsOk argv) (hi : i < argv.length) :
    256 + packedLength (argv.take i) ≤ 0xFFF := by
  have hbound := packedLength_take_bound hargs (le_of_lt hi)
  unfold Abi.MAX_ARG_LEN at hbound
  unfold Abi.MAX_ARGS at hlen
  omega

theorem delivered_iff {argPhys : Addr} (hlen : argv.length ≤ Abi.MAX_ARGS) (hargs : ArgsOk argv)
    (hframe : IsFrame argPhys) (vm : Vm) :
    Delivered ((fillArgs argPhys argv vm).mem argPhys) argv ↔ 256 + packedLength argv ≤ 4096 := by
  obtain ⟨hpacked, hargc, hvector, hnull⟩ := packed_fillArgs hframe vm hlen hargs
  generalize (fillArgs argPhys argv vm).mem argPhys = page at *
  constructor
  · intro hall
    rcases Nat.eq_zero_or_pos argv.length with hzero | hpos
    · rw [eq_nil_of_length_eq_zero hzero]
      exact Nat.le_of_ble_eq_true rfl
    · -- the last string ends where the strings end
      have hlast : argv.length - 1 < argv.length := by omega
      obtain ⟨off, hptr, htext⟩ := hall.strings _ hlast
      have hpacked' := (hpacked.get hlast).1
      have hstart := start_le hlen hargs hlast
      rw [Nat.zero_add] at hpacked'
      have hinside := htext.inside
      have hoff := argAddr_inj (by omega) (by omega) (hptr.symm.trans hpacked')
      have hsum := packedLength_take_last (by omega : argv.length - 1 + 1 = argv.length)
      omega
  · intro hfits
    refine ⟨hargc, hvector, hnull, fun i hi => ?_⟩
    obtain ⟨hptr, htext⟩ := hpacked.get hi
    have hsum := packedLength_take_le hi
    have hwhole : argv[i].take (0xFFF - (256 + packedLength (argv.take i))) = argv[i] :=
      take_of_length_le (by omega)
    rw [hwhole] at htext
    rw [Nat.zero_add] at hptr
    exact ⟨_, hptr, htext⟩

/-- The arguments that `SYS_EXEC` accepts arrive in full if and only if they fit into the page
behind the 256 bytes of the header. -/
theorem fillArgs_delivered_iff (slots : ℕ → UserSlot) {argv : List (List UInt8)} {argPhys : Addr}
    (haccept : sysExecArgs slots = .ok argv) (hframe : IsFrame argPhys) (vm : Vm) :
    Delivered ((fillArgs argPhys (argv.take Abi.MAX_ARGS) vm).mem argPhys) argv ↔
      256 + packedLength argv ≤ 4096 := by
  obtain ⟨hlen, hargs⟩ := checkArgs_spec haccept
  rw [take_of_length_le hlen]
  exact delivered_iff hlen hargs hframe vm

/-- Sixteen strings of `n` bytes. -/
def sixteenArgs (n : ℕ) : ℕ → UserSlot := fun i =>
  if i < 16 then .text (List.replicate n 65 ++ [0]) else .null

theorem fillArgs_short_delivered :
    Delivered ((fillArgs 0x101000 ((List.replicate 16 [65]).take Abi.MAX_ARGS) emptyVm).mem 0x101000)
      (List.replicate 16 [65]) :=
  (fillArgs_delivered_iff (sixteenArgs 1) rfl (by decide) emptyVm).mpr (by decide)

/-- The last of sixteen strings of 254 bytes is cut. -/
theorem fillArgs_long_cut :
    sysExecArgs (sixteenArgs 254) = .ok (List.replicate 16 (List.replicate 254 65)) ∧
      ¬Delivered ((fillArgs 0x101000 ((List.replicate 16 (List.replicate 254 65)).take Abi.MAX_ARGS)
        emptyVm).mem 0x101000) (List.replicate 16 (List.replicate 254 65)) := by
  refine ⟨by decide +kernel, fun hall => ?_⟩
  have hfits := (delivered_iff (by decide +kernel) (by decide +kernel) (by decide) emptyVm).mp hall
  exact absurd hfits (by decide +kernel)

/-! ## The stores -/

/-- No store leaves the argument page, no pointer is stored where the strings are, and each
stored pointer leads to a string that ends in the page. -/
theorem fillArgs_never_overruns (slots : ℕ → UserSlot) {argv : List (List UInt8)} (argPhys : Addr)
    (haccept : sysExecArgs slots = .ok argv) (hframe : IsFrame argPhys) (vm : Vm) :
    fillArgs argPhys (argv.take Abi.MAX_ARGS) vm =
        (argStores (argv.take Abi.MAX_ARGS)).foldl (Store.run argPhys)
          (vm.setPage argPhys fun _ => 0) ∧
      (∀ s ∈ argStores (argv.take Abi.MAX_ARGS), s.Inside) ∧
      ∀ i < argv.length, ∃ off text, 256 ≤ off ∧
        (fillArgs argPhys (argv.take Abi.MAX_ARGS) vm).mem argPhys (argSlot i) = argAddr off ∧
        HoldsString ((fillArgs argPhys (argv.take Abi.MAX_ARGS) vm).mem argPhys) off text := by
  obtain ⟨hlen, hargs⟩ := checkArgs_spec haccept
  rw [take_of_length_le hlen]
  refine ⟨fillArgs_eq_stores argPhys argv vm, argStores_inside hlen hargs, fun i hi => ?_⟩
  obtain ⟨hptr, htext⟩ := (packed_fillArgs hframe vm hlen hargs).1.get hi
  rw [zero_add] at hptr
  exact ⟨_, _, le_add_right 256 _, hptr, htext⟩

theorem fillArgs_long_inside :
    sysExecArgs (sixteenArgs 254) = .ok (List.replicate 16 (List.replicate 254 65)) ∧
      ∀ s ∈ argStores ((List.replicate 16 (List.replicate 254 65)).take Abi.MAX_ARGS), s.Inside := by
  have haccept : sysExecArgs (sixteenArgs 254) = .ok (replicate 16 (replicate 254 65)) := by
    decide +kernel
  exact ⟨haccept, (fillArgs_never_overruns (sixteenArgs 254) 0x101000 haccept (by decide) emptyVm).2.1⟩

end Crius.Process
