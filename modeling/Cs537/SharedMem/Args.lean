/-
# `Cs537.SharedMem.Args` — system-call arguments (p3/xv6, `syscall.c`)

`fetchint`, `fetchstr`, `argint`, `argptr` and `argstr`, over 32-bit
addresses.  A user process owns two regions, `[0, sz)` and
`[shm_sz, USERTOP)`; the check that an argument lies in one of them was
written as four flags, two about the first byte and two about the address
one past the last byte, all in 32-bit arithmetic.

The flags never look at what lies between the two ends.  So a range that
starts in the low region and ends in the high one is accepted together with
the gap between them, and so is a range whose end wraps around to an address
that the flags accept.  `argCheck_iff` says that these are the only two ways
in which the check and its purpose differ.

`fetchstr` scans byte by byte inside the region of the first byte, and is
right as it stands.
-/
import Cs537.SharedMem.Machine
import Mathlib.Data.BitVec

namespace Cs537.SharedMem

/-- What the argument functions read of the calling process: its two sizes,
in the order that the kernel keeps, its stack pointer, and its memory. -/
structure UserView where
  sz : BitVec 32
  shmSz : BitVec 32
  /-- `proc->tf->esp` -/
  esp : BitVec 32
  mem : BitVec 32 → BitVec 8
  sz_le : sz ≤ shmSz
  shmSz_le : shmSz ≤ BitVec.ofNat 32 usertop

namespace UserView

/-- `USERTOP` as a 32-bit constant. -/
def top : BitVec 32 := BitVec.ofNat 32 usertop

/-- The four flags of `fetchint` and `argptr` for the address `addr` and the
size `size`: `true` when none of them is set. -/
def argCheck (u : UserView) (addr size : BitVec 32) : Bool :=
  let f1 := decide (addr ≥ u.sz) && decide (addr < u.shmSz)
  let f2 := decide (addr ≥ top)
  let f3 := decide (addr + size > u.sz) && decide (addr + size ≤ u.shmSz)
  let f4 := decide (addr + size > top)
  !(f1 || f2 || f3 || f4)

/-- `*(int*)(addr)`. -/
def readInt (u : UserView) (addr : BitVec 32) : BitVec 32 :=
  u.mem (addr + 3) ++ u.mem (addr + 2) ++ u.mem (addr + 1) ++ u.mem addr

/-- `fetchint`; `none` is the return value `-1`. -/
def fetchint (u : UserView) (addr : BitVec 32) : Option (BitVec 32) :=
  if u.argCheck addr 4 then some (u.readInt addr) else none

/-- `for(s = *pp; s < ep; s++) if(*s == 0) return s - *pp`, with `s - *pp`
counted in `len`. -/
def scanStr (u : UserView) (addr : BitVec 32) : Nat → Nat → Option Nat
  | 0, _ => none
  | fuel + 1, len =>
      if u.mem (addr + BitVec.ofNat 32 len) = 0 then some len
      else scanStr u addr fuel (len + 1)

/-- `fetchstr`: the length of the string at `addr`. -/
def fetchstr (u : UserView) (addr : BitVec 32) : Option Nat :=
  let f1 := decide (addr ≥ u.sz) && decide (addr < u.shmSz)
  let f2 := decide (addr ≥ top)
  if f1 || f2 then none
  else
    let ep := if addr < u.sz then u.sz else top
    u.scanStr addr (ep.toNat - addr.toNat) 0

def argint (u : UserView) (n : BitVec 32) : Option (BitVec 32) :=
  u.fetchint (u.esp + 4 + 4 * n)

def argptr (u : UserView) (n size : BitVec 32) : Option (BitVec 32) :=
  (u.argint n).bind fun i => if u.argCheck i size then some i else none

def argstr (u : UserView) (n : BitVec 32) : Option Nat :=
  (u.argint n).bind u.fetchstr

/-! ## What the checks are for -/

/-- The `size` bytes from `addr`, without wrap-around, all lie in one of the
two regions of the process. -/
def InRegion (u : UserView) (addr size : Nat) : Prop :=
  addr + size ≤ u.sz.toNat ∨ (u.shmSz.toNat ≤ addr ∧ addr + size ≤ usertop)

/-- The range starts in the low region and ends, without wrap-around, in the
high one. -/
def Straddles (u : UserView) (addr size : Nat) : Prop :=
  addr < u.sz.toNat ∧ u.shmSz.toNat < addr + size ∧ addr + size ≤ usertop

/-- The range starts in one of the regions, runs past `2 ^ 32`, and the
wrapped end is not in the gap. -/
def Wraps (u : UserView) (addr size : Nat) : Prop :=
  2 ^ 32 ≤ addr + size ∧ addr < usertop ∧
    (addr < u.sz.toNat ∨ u.shmSz.toNat ≤ addr) ∧
    (addr + size - 2 ^ 32 ≤ u.sz.toNat ∨ u.shmSz.toNat < addr + size - 2 ^ 32)

/-! ## The check against its purpose -/

@[simp] theorem top_toNat : top.toNat = usertop := rfl

theorem shmSz_le_usertop (u : UserView) : u.shmSz.toNat ≤ usertop := by
  have h : u.shmSz.toNat ≤ top.toNat := u.shmSz_le
  exact h

theorem sz_le_shmSz (u : UserView) : u.sz.toNat ≤ u.shmSz.toNat := by
  simpa [BitVec.le_def] using u.sz_le

/-- The flags, over the naturals: `e` is the 32-bit end of the range. -/
theorem argCheck_eq_true (u : UserView) (addr size : BitVec 32) :
    u.argCheck addr size = true ↔
      ¬ (u.sz.toNat ≤ addr.toNat ∧ addr.toNat < u.shmSz.toNat) ∧ addr.toNat < usertop ∧
      ¬ (u.sz.toNat < (addr.toNat + size.toNat) % 2 ^ 32 ∧
          (addr.toNat + size.toNat) % 2 ^ 32 ≤ u.shmSz.toNat) ∧
      (addr.toNat + size.toNat) % 2 ^ 32 ≤ usertop := by
  simp only [argCheck, Bool.not_eq_true', Bool.or_eq_false_iff, Bool.and_eq_false_iff,
    decide_eq_false_iff_not, ge_iff_le, gt_iff_lt, BitVec.le_def, BitVec.lt_def,
    BitVec.toNat_add, top_toNat]
  omega

/-- The check accepts exactly the ranges inside a region, those that straddle
the gap, and those that wrap around. -/
theorem argCheck_iff (u : UserView) (addr size : BitVec 32) (h : size ≠ 0) :
    u.argCheck addr size = true ↔
      u.InRegion addr.toNat size.toNat ∨ u.Straddles addr.toNat size.toNat ∨
        u.Wraps addr.toNat size.toNat := by
  have hpos : 0 < size.toNat := by
    rcases Nat.eq_zero_or_pos size.toNat with h0 | h0
    · exact absurd (BitVec.eq_of_toNat_eq (by simpa using h0)) h
    · exact h0
  have hs := size.isLt
  have hz := u.sz_le_shmSz
  have ht := u.shmSz_le_usertop
  have hu : usertop < 2 ^ 32 := by decide
  rw [argCheck_eq_true]
  simp only [InRegion, Straddles, Wraps]
  by_cases hw : addr.toNat + size.toNat < 2 ^ 32
  · rw [Nat.mod_eq_of_lt hw]
    omega
  · have hlt := addr.isLt
    have hmod : (addr.toNat + size.toNat) % 2 ^ 32 = addr.toNat + size.toNat - 2 ^ 32 := by
      rw [Nat.mod_eq_sub_mod (by omega), Nat.mod_eq_of_lt (by omega)]
    rw [hmod]
    omega

/-- The three kinds of accepted range exclude each other. -/
theorem not_inRegion_of_straddles {u : UserView} {addr size : Nat}
    (h : u.Straddles addr size) : ¬ u.InRegion addr size := by
  have hz := u.sz_le_shmSz
  simp only [Straddles, InRegion] at *
  omega

theorem not_inRegion_of_wraps {u : UserView} {addr size : Nat}
    (h : u.Wraps addr size) : ¬ u.InRegion addr size := by
  have hz := u.sz_le_shmSz
  have ht := u.shmSz_le_usertop
  have hu : usertop < 2 ^ 32 := by decide
  simp only [Wraps, InRegion] at *
  omega

/-- The check does what it is for exactly on the ranges that neither straddle
the gap nor wrap around. -/
theorem argCheck_right_iff (u : UserView) (addr size : BitVec 32) (h : size ≠ 0) :
    (u.argCheck addr size = true ↔ u.InRegion addr.toNat size.toNat) ↔
      ¬ u.Straddles addr.toNat size.toNat ∧ ¬ u.Wraps addr.toNat size.toNat := by
  rw [argCheck_iff u addr size h]
  constructor
  · intro hr
    exact ⟨fun hs => not_inRegion_of_straddles hs (hr.mp (.inr (.inl hs))),
      fun hw => not_inRegion_of_wraps hw (hr.mp (.inr (.inr hw)))⟩
  · rintro ⟨hs, hw⟩
    constructor
    · rintro (hin | h' | h')
      · exact hin
      · exact absurd h' hs
      · exact absurd h' hw
    · exact .inl

/-- A four-byte range that starts below `USERTOP` does not wrap. -/
theorem not_wraps_four (u : UserView) (addr : Nat) : ¬ u.Wraps addr 4 := by
  have hu : usertop = 0xA0000 := rfl
  simp only [Wraps]
  omega

/-! ## The functions -/

theorem fetchint_isSome (u : UserView) (addr : BitVec 32) :
    (u.fetchint addr).isSome ↔ u.argCheck addr 4 = true := by
  unfold fetchint
  split <;> simp_all

theorem argptr_isSome {u : UserView} {n v : BitVec 32} (h : u.argint n = some v)
    (size : BitVec 32) : (u.argptr n size).isSome ↔ u.argCheck v size = true := by
  simp only [argptr, h, Option.bind_some]
  split <;> simp_all

/-- The scan stops at the first NUL, before the end of the region. -/
theorem scanStr_spec (u : UserView) (addr : BitVec 32) :
    ∀ {fuel len l : Nat}, u.scanStr addr fuel len = some l →
      len ≤ l ∧ l < len + fuel ∧ u.mem (addr + BitVec.ofNat 32 l) = 0 ∧
        ∀ i, len ≤ i → i < l → u.mem (addr + BitVec.ofNat 32 i) ≠ 0
  | 0, _, _, h => by simp [scanStr] at h
  | fuel + 1, len, l, h => by
      simp only [scanStr] at h
      split at h
      · rename_i h0
        obtain rfl : len = l := by simpa using h
        exact ⟨le_refl _, by omega, h0, fun i h1 h2 => by omega⟩
      · rename_i h0
        obtain ⟨h1, h2, h3, h4⟩ := scanStr_spec u addr h
        refine ⟨by omega, by omega, h3, fun i hi hl => ?_⟩
        rcases Nat.eq_or_lt_of_le hi with rfl | hlt
        · exact h0
        · exact h4 i hlt hl

/-- What `fetchstr` accepts: a NUL-terminated string, terminator included,
inside one region. -/
theorem fetchstr_spec {u : UserView} {addr : BitVec 32} {len : Nat}
    (h : u.fetchstr addr = some len) :
    u.InRegion addr.toNat (len + 1) ∧ u.mem (addr + BitVec.ofNat 32 len) = 0 ∧
      ∀ i < len, u.mem (addr + BitVec.ofNat 32 i) ≠ 0 := by
  simp only [fetchstr] at h
  split at h
  · cases h
  · rename_i hf
    obtain ⟨-, hl, h0, hne⟩ := scanStr_spec u addr h
    refine ⟨?_, h0, fun i hi => hne i (Nat.zero_le _) hi⟩
    simp only [Bool.or_eq_true, Bool.and_eq_true, decide_eq_true_eq, ge_iff_le,
      BitVec.le_def, BitVec.lt_def, top_toNat] at hf
    simp only [InRegion]
    split at hl
    · omega
    · rename_i hlow
      simp only [BitVec.lt_def] at hlow
      simp only [top_toNat] at hl
      omega

/-- The argument checks, against their purpose.  `fetchint` and `argptr`
accept exactly the ranges inside a region, unless the range straddles the gap
between the regions or wraps around; `fetchstr` is right for every address. -/
theorem argument_checks (u : UserView) :
    (∀ addr, ((u.fetchint addr).isSome ↔ u.InRegion addr.toNat 4) ↔
      ¬ u.Straddles addr.toNat 4) ∧
    (∀ n v size, u.argint n = some v → size ≠ 0 →
      (((u.argptr n size).isSome ↔ u.InRegion v.toNat size.toNat) ↔
        ¬ u.Straddles v.toNat size.toNat ∧ ¬ u.Wraps v.toNat size.toNat)) ∧
    (∀ addr len, u.fetchstr addr = some len →
      u.InRegion addr.toNat (len + 1) ∧ u.mem (addr + BitVec.ofNat 32 len) = 0 ∧
        ∀ i < len, u.mem (addr + BitVec.ofNat 32 i) ≠ 0) := by
  refine ⟨fun addr => ?_, fun n v size hv hsize => ?_, fun addr len h => fetchstr_spec h⟩
  · rw [fetchint_isSome]
    have h4 := argCheck_right_iff u addr 4 (by decide)
    simpa [not_wraps_four] using h4
  · rw [argptr_isSome hv]
    exact argCheck_right_iff u v size hsize

/-- A process of one page with one shared page attached at the top of its
address space, and all-zero memory. -/
def onePage : UserView where
  sz := 0x1000
  shmSz := 0x9F000
  esp := 0x800
  mem := fun _ => 0
  sz_le := by decide
  shmSz_le := by decide

theorem argument_checks_onePage :
    ((onePage.argptr 0 16).isSome ↔ onePage.InRegion 0 16) ∧
      (onePage.fetchstr 0 = some 0 → onePage.InRegion 0 1) :=
  ⟨((argument_checks onePage).2.1 0 0 16 (by decide) (by decide)).mpr
      ⟨by simp [Straddles, onePage, usertop], by simp [Wraps, onePage, usertop]⟩,
    fun h => ((argument_checks onePage).2.2 0 0 h).1⟩

/-- What the checks are meant to be: exact for every address and every
non-zero size. -/
def ChecksExact (u : UserView) : Prop :=
  (∀ addr, (u.fetchint addr).isSome ↔ u.InRegion addr.toNat 4) ∧
  (∀ n v size, u.argint n = some v → size ≠ 0 →
    ((u.argptr n size).isSome ↔ u.InRegion v.toNat size.toNat)) ∧
  (∀ addr len, u.fetchstr addr = some len →
    u.InRegion addr.toNat (len + 1) ∧ u.mem (addr + BitVec.ofNat 32 len) = 0 ∧
      ∀ i < len, u.mem (addr + BitVec.ofNat 32 i) ≠ 0)

/-- `sys_read(fd, 16, -1)`: the first argument word holds 16, an address in
the low region, and the length `-1` is the size `2 ^ 32 - 1`, whose end wraps
around to 15. -/
theorem not_checksExact_minus_one :
    ¬ ChecksExact { onePage with mem := fun a => if a = 0x804 then 16 else 0 } := by
  intro h
  have h1 := (h.2.1 0 16 0xFFFFFFFF (by decide) (by decide)).mp (by decide)
  simp [InRegion, onePage, usertop] at h1

end UserView

end Cs537.SharedMem
