/-
# `Cs537.Fscheck.Spec` — what the checker accepts

`fscheck` is a chain of loops of checks, so it ends without a message exactly
when every check passes in the state that the loops have reached there
(`Lib.Guard`).  Those states are known: `u_blocks` marks the addresses read so
far, `uind_table` the used inodes, and `uind_dir` counts the entries.  What is
left is a statement about the image alone, `Clean` (`fscheck_ok_iff`).
-/
import Mathlib.Data.List.Nodup
import Cs537.Lib.Guard
import Cs537.Fscheck.Check

namespace Cs537.Fscheck

open Cs537.Lib

variable {img : Image} {junk s t : Tables} {i k n lo : Nat} {u : Nat → Nat} {l : List Nat}

/-! ## Checks and loops -/

theorem check_ok_iff {p : Prop} [Decidable p] {m : Message} {x : Unit} :
    check p m = .ok x ↔ p := by
  rw [check]
  split
  · next h => exact iff_of_true rfl h
  · next h => exact iff_of_false nofun h

theorem check_error {p : Prop} [Decidable p] {m : Message} {e : Stop} (h : check p m = .error e) :
    ¬ p ∧ e = .error m := by
  rw [check] at h
  split at h
  · cases h
  · next hp => exact ⟨hp, (Except.error.inj h).symm⟩

theorem bind_of_ok {σ τ : Type} {x : Except Stop σ} {u : σ} {f : σ → Except Stop τ} (h : x = .ok u) :
    (x >>= f) = f u := by
  rw [h]
  rfl

/-- A check that passes. -/
theorem check_bind {σ : Type} {p : Prop} [Decidable p] {m : Message} {f : Unit → Except Stop σ}
    (hp : p) : (check p m >>= f) = f () := bind_of_ok (check_ok_iff.mpr hp)

/-- A message comes from the check, or from what is after it. -/
theorem check_bind_error {σ : Type} {p : Prop} [Decidable p] {m m' : Message}
    {f : Unit → Except Stop σ} : (check p m >>= f) = .error (.error m') ↔
      ¬ p ∧ m = m' ∨ p ∧ f () = .error (.error m') := by
  by_cases hp : p
  · rw [check_bind hp]
    exact ⟨fun h => .inr ⟨hp, h⟩, fun h => h.elim (fun h => absurd hp h.1) And.right⟩
  · have hcheck : (check p m >>= f) = .error (.error m) := by
      rw [check, if_neg hp]
      rfl
    rw [hcheck, Except.error.injEq, Stop.error.injEq]
    exact ⟨fun h => .inl ⟨hp, h⟩, fun h => h.elim And.right fun h => absurd h.1 hp⟩

theorem forInt_ok_iff {σ : Type} {f : σ → Nat → Except Stop σ} {s t : σ} :
    forInt lo n f s = .ok t ↔ n < 2 ^ 31 ∧ (List.range' lo (n - lo)).foldlM f s = .ok t := by
  rw [forInt, bind_ok_iff]
  by_cases hn : 2 ^ 31 ≤ n
  · simp only [if_pos hn]
    exact iff_of_false (fun h => nomatch h.choose_spec.2) fun h => by omega
  · have hmin : min n (2 ^ 31) = n := by omega
    simp only [if_neg hn, hmin]
    constructor
    · rintro ⟨u, hu, ht⟩
      cases ht
      exact ⟨by omega, hu⟩
    · rintro ⟨-, ht⟩
      exact ⟨t, ht, rfl⟩

theorem forInt_error {σ : Type} {f : σ → Nat → Except Stop σ} {s : σ} {m : Message}
    (h : forInt lo n f s = .error (.error m)) :
    ∃ k t, lo ≤ k ∧ k < n ∧ (List.range' lo (k - lo)).foldlM f s = .ok t ∧
      f t k = .error (.error m) := by
  rw [forInt] at h
  rcases bind_error_iff.mp h with h | ⟨u, -, h⟩
  · obtain ⟨k, t, hreach, hk⟩ := foldlM_error h
    obtain ⟨hlow, hhigh, hpre⟩ := reaches_range'_iff.mp hreach
    exact ⟨k, t, hlow, by omega, hpre, hk⟩
  · split at h <;> cases h

theorem foldl_same {σ α : Type*} {s : σ} {l : List α} : l.foldl (fun s _ => s) s = s := by
  induction l with
  | nil => rfl
  | cons a l ih => exact ih

theorem along_same {σ α : Type*} {P : σ → α → Prop} {s : σ} {l : List α} :
    Along P (fun s _ => s) s l ↔ ∀ a ∈ l, P s a := by
  induction l with
  | nil => exact iff_of_true trivial nofun
  | cons a l ih => rw [Along, ih, List.forall_mem_cons]

/-! ## The addresses -/

/-- An address is a data block, in use. -/
structure Good (img : Image) (a : Nat) : Prop where
  start : b_start img ≤ a
  size : a < size img
  bit : bit img a = true
  index : a - b_start img < nblocks img

/-- What is checked of an address, given the marks. -/
def NewGood (img : Image) (u : Nat → Nat) (a : Nat) : Prop :=
  a ≠ 0 → Good img a ∧ u (a - b_start img) ≠ 1

/-- `u_blocks` after the address `a`. -/
def mark (img : Image) (u : Nat → Nat) (a : Nat) : Nat → Nat :=
  if a = 0 then u else Function.update u (a - b_start img) 1

theorem guards_checkAddr :
    Guards (checkAddr img) (NewGood img) (mark img) := by
  intro u a t
  rw [checkAddr, NewGood, mark]
  by_cases h0 : a = 0
  · rw [if_pos h0, if_pos h0, Except.ok.injEq]
    exact ⟨fun h => ⟨fun hne => absurd h0 hne, h.symm⟩, fun h => h.2.symm⟩
  rw [if_neg h0, if_neg h0]
  have hne : a ≠ 0 := h0
  simp only [hne, ne_eq, not_false_eq_true, true_imp_iff]
  by_cases hrange : a < b_start img ∨ a ≥ size img
  · rw [if_pos hrange]
    refine iff_of_false nofun fun h => ?_
    have h1 := h.1.1.start
    have h2 := h.1.1.size
    omega
  rw [if_neg hrange]
  by_cases hbit : bit img a = false
  · rw [if_pos hbit]
    refine iff_of_false nofun fun h => ?_
    rw [h.1.1.bit] at hbit
    cases hbit
  rw [if_neg hbit]
  by_cases hidx : a - b_start img ≥ nblocks img
  · rw [if_pos hidx]
    refine iff_of_false nofun fun h => ?_
    have := h.1.1.index
    omega
  rw [if_neg hidx]
  by_cases hu : u (a - b_start img) = 1
  · rw [if_pos hu]
    exact iff_of_false nofun fun h => h.1.2 hu
  · rw [if_neg hu, Except.ok.injEq]
    have hgood : Good img a := ⟨by omega, by omega, by simpa using hbit, by omega⟩
    exact ⟨fun h => ⟨⟨hgood, hu⟩, h.symm⟩, fun h => h.2.symm⟩

/-- The addresses of a list that are not 0. -/
def nonzero (l : List Nat) : List Nat := l.filter (· ≠ 0)

theorem mem_nonzero {a : Nat} : a ∈ nonzero l ↔ a ∈ l ∧ a ≠ 0 := by
  rw [nonzero, List.mem_filter, decide_eq_true_eq]

theorem nonzero_append (l l' : List Nat) : nonzero (l ++ l') = nonzero l ++ nonzero l' :=
  List.filter_append ..

/-- The blocks that are marked. -/
theorem foldl_mark : l.foldl (mark img) u k =
    if ∃ a ∈ nonzero l, a - b_start img = k then 1 else u k := by
  induction l generalizing u with
  | nil => exact (if_neg fun h => by simp [nonzero] at h).symm
  | cons a l ih =>
      rw [List.foldl_cons, ih, mark]
      by_cases h0 : a = 0
      · rw [if_pos h0]
        have hsame : nonzero (a :: l) = nonzero l := List.filter_cons_of_neg (by simp [h0])
        rw [hsame]
      · have hcons : nonzero (a :: l) = a :: nonzero l := List.filter_cons_of_pos (by simp [h0])
        rw [if_neg h0, hcons]
        by_cases hl : ∃ a ∈ nonzero l, a - b_start img = k
        · obtain ⟨c, hc, hk⟩ := hl
          rw [if_pos ⟨c, hc, hk⟩, if_pos ⟨c, List.mem_cons_of_mem _ hc, hk⟩]
        · rw [if_neg hl]
          by_cases hk : a - b_start img = k
          · rw [if_pos ⟨a, List.mem_cons_self .., hk⟩, hk, Function.update_self]
          · rw [Function.update_of_ne (Ne.symm hk), if_neg]
            rintro ⟨c, hc, hck⟩
            rcases List.mem_cons.mp hc with rfl | hc
            · exact hk hck
            · exact hl ⟨c, hc, hck⟩

/-- The checks of the addresses in a list: they are good, and new. -/
theorem along_checkAddr :
    Along (NewGood img) (mark img) u l ↔
      (∀ a ∈ nonzero l, Good img a ∧ u (a - b_start img) ≠ 1) ∧ (nonzero l).Nodup := by
  induction l generalizing u with
  | nil => exact iff_of_true trivial ⟨nofun, List.nodup_nil⟩
  | cons a l ih =>
      rw [Along, ih, NewGood, mark]
      by_cases h0 : a = 0
      · have hsame : nonzero (a :: l) = nonzero l := List.filter_cons_of_neg (by simp [h0])
        rw [if_pos h0, hsame]
        exact ⟨fun h => h.2, fun h => ⟨fun hne => absurd h0 hne, h⟩⟩
      have hcons : nonzero (a :: l) = a :: nonzero l := List.filter_cons_of_pos (by simp [h0])
      rw [if_neg h0, hcons, List.forall_mem_cons, List.nodup_cons, imp_iff_right h0]
      constructor
      · rintro ⟨ha, hl, hnd⟩
        have hne : ∀ c ∈ nonzero l, c ≠ a := by
          rintro c hc rfl
          exact (hl c hc).2 (Function.update_self ..)
        refine ⟨⟨ha, fun c hc => ⟨(hl c hc).1, fun hu => ?_⟩⟩, fun hmem => hne a hmem rfl, hnd⟩
        have h1 := ha.1.start
        have h2 := (hl c hc).1.start
        have := hne c hc
        refine (hl c hc).2 ?_
        rw [Function.update_of_ne (by omega)]
        exact hu
      · rintro ⟨⟨ha, hl⟩, hmem, hnd⟩
        refine ⟨ha, fun c hc => ⟨(hl c hc).1, ?_⟩, hnd⟩
        have h1 := ha.1.start
        have h2 := (hl c hc).1.start
        have hne : c ≠ a := fun he => hmem (he ▸ hc)
        rw [Function.update_of_ne (by omega)]
        exact (hl c hc).2

/-! ## The entries -/

/-- `uind_dir` after the entry at `o`. -/
def tally (img : Image) (dir : Nat → Nat) (o : Nat) : Nat → Nat :=
  if Skipped img o then dir else Function.update dir (inum img o) (dir (inum img o) + 1)

theorem guards_countEntry :
    Guards (countEntry img) (fun _ o => ¬ Skipped img o → inum img o < ninodes img) (tally img) := by
  intro dir o t
  rw [countEntry, tally]
  by_cases hs : Skipped img o
  · rw [if_pos hs, if_pos hs, Except.ok.injEq]
    exact ⟨fun h => ⟨fun hn => absurd hs hn, h.symm⟩, fun h => h.2.symm⟩
  rw [if_neg hs, if_neg hs]
  by_cases hi : inum img o ≥ ninodes img
  · rw [if_pos hi]
    refine iff_of_false nofun fun h => ?_
    have := h.1 hs
    omega
  · rw [if_neg hi, Except.ok.injEq]
    exact ⟨fun h => ⟨fun _ => by omega, h.symm⟩, fun h => h.2.symm⟩

/-- The inode numbers in the entries that are not passed by. -/
def inums (img : Image) (l : List Nat) : List Nat :=
  (l.filter fun o => ¬ Skipped img o).map (inum img)

theorem foldl_tally : l.foldl (tally img) u k = u k + (inums img l).count k := by
  induction l generalizing u with
  | nil => rfl
  | cons o l ih =>
      rw [List.foldl_cons, ih, tally]
      by_cases hs : Skipped img o
      · have hsame : inums img (o :: l) = inums img l := by
          rw [inums, List.filter_cons_of_neg (by simpa using hs), inums]
        rw [if_pos hs, hsame]
      · have hcons : inums img (o :: l) = inum img o :: inums img l := by
          rw [inums, List.filter_cons_of_pos (by simpa using hs), List.map_cons, inums]
        rw [if_neg hs, hcons, List.count_cons]
        by_cases hk : inum img o = k
        · subst hk
          rw [Function.update_self, if_pos (by simp)]
          omega
        · rw [Function.update_of_ne (Ne.symm hk), if_neg (by simpa using hk)]
          omega

/-! ## The pass over the inodes -/

/-- What an iteration checks of the inode alone. -/
structure Sane (img : Image) (i : Nat) : Prop where
  typeOk : TypeOk img i
  format : type img i = T_DIR → FormatOk img i
  root : i = ROOTINO → RootOk img i
  inside : ∀ o ∈ usedDirents img i, ¬ Skipped img o → inum img o < ninodes img
  parent : type img i = T_DIR → i ≠ 1 → ParentOk img i

/-- The tables after an iteration. -/
def nextInode (img : Image) (s : Tables) (i : Nat) : Tables :=
  ⟨(usedRefs img i).foldl (mark img) s.u_blocks, countInode img s.uind_table i,
    (usedDirents img i).foldl (tally img) s.uind_dir⟩

theorem guards_checkInode : Guards (checkInode img)
    (fun s i => Along (NewGood img) (mark img) s.u_blocks (usedRefs img i) ∧ Sane img i)
    (nextInode img) := by
  intro s i t
  simp only [checkInode, bind_ok_iff, check_ok_iff, foldlM_ok_iff guards_checkAddr,
    foldlM_ok_iff guards_countEntry, along_const]
  constructor
  · rintro ⟨_, htype, u, ⟨haddrs, rfl⟩, _, hformat, _, hroot, dir, ⟨hinside, rfl⟩, _, hparent, ht⟩
    exact ⟨⟨haddrs, htype, hformat, hroot, hinside, hparent⟩, (Except.ok.inj ht).symm⟩
  · rintro ⟨⟨haddrs, h⟩, rfl⟩
    exact ⟨(), h.typeOk, _, ⟨haddrs, rfl⟩, (), h.format, (), h.root, _, ⟨h.inside, rfl⟩, (),
      h.parent, rfl⟩

/-- The tables when the inodes below `n` have been checked. -/
def tablesAt (img : Image) (junk : Tables) (n : Nat) : Tables :=
  (List.range' 0 n).foldl (nextInode img) (cleared img junk)

/-- The addresses read for the inodes below `n`. -/
def refsBelow (img : Image) (n : Nat) : List Nat := (List.range' 0 n).flatMap (usedRefs img)

/-- The entries counted for the inodes below `n`. -/
def direntsBelow (img : Image) (n : Nat) : List Nat := (List.range' 0 n).flatMap (usedDirents img)

theorem u_blocks_tablesAt :
    (tablesAt img junk n).u_blocks = (refsBelow img n).foldl (mark img) fun _ => 0 := by
  rw [refsBelow, List.foldl_flatMap]
  exact foldl_part (p := Tables.u_blocks) fun _ _ => rfl

theorem uind_dir_tablesAt :
    (tablesAt img junk n).uind_dir k =
      (cleared img junk).uind_dir k + (inums img (direntsBelow img n)).count k := by
  have hpart : (tablesAt img junk n).uind_dir =
      (direntsBelow img n).foldl (tally img) (cleared img junk).uind_dir := by
    rw [direntsBelow, List.foldl_flatMap]
    exact foldl_part (p := Tables.uind_dir) fun _ _ => rfl
  rw [hpart, foldl_tally]

theorem tablesAt_succ : tablesAt img junk (n + 1) = nextInode img (tablesAt img junk n) n := by
  rw [tablesAt, List.range'_concat, List.foldl_append, Nat.zero_add, Nat.one_mul]
  rfl

theorem uind_table_tablesAt :
    (tablesAt img junk n).uind_table k =
      (cleared img junk).uind_table k + if k < n ∧ type img k ≠ 0 then 1 else 0 := by
  induction n with
  | zero =>
      have hno : ¬ (k < 0 ∧ type img k ≠ 0) := fun h => Nat.not_lt_zero k h.1
      rw [if_neg hno]
      rfl
  | succ n ih =>
      rw [tablesAt_succ]
      show countInode img (tablesAt img junk n).uind_table n k = _
      rw [countInode]
      by_cases ht : type img n ≠ 0
      · rw [if_pos ht]
        by_cases hk : k = n
        · subst hk
          rw [Function.update_self, ih, if_neg (by omega), if_pos ⟨by omega, ht⟩]
        · rw [Function.update_of_ne hk, ih]
          congr 1
          exact if_congr (by omega) rfl rfl
      · rw [if_neg ht, ih]
        congr 1
        refine if_congr ⟨fun h => ⟨by omega, h.2⟩, fun h => ⟨?_, h.2⟩⟩ rfl rfl
        have : k ≠ n := fun he => ht (he ▸ h.2)
        omega

/-- The pass over the inodes succeeds when each of them is sane, and the
addresses of all of them together are good and different. -/
theorem inodes_ok_iff :
    (List.range' 0 n).foldlM (checkInode img) (cleared img junk) = .ok t ↔
      ((∀ a ∈ nonzero (refsBelow img n), Good img a) ∧ (nonzero (refsBelow img n)).Nodup ∧
        ∀ i < n, Sane img i) ∧ t = tablesAt img junk n := by
  have haddrs : Along (fun s i => Along (NewGood img) (mark img) (Tables.u_blocks s) (usedRefs img i))
      (nextInode img) (cleared img junk) (List.range' 0 n) ↔
      Along (NewGood img) (mark img) (fun _ => 0) (refsBelow img n) := by
    rw [refsBelow, ← along_flatMap]
    exact along_part (p := Tables.u_blocks)
      (Q := fun u i => Along (NewGood img) (mark img) u (usedRefs img i))
      (h := fun u i => (usedRefs img i).foldl (mark img) u) fun _ _ => rfl
  have hsane : (∀ i ∈ List.range' 0 n, Sane img i) ↔ ∀ i < n, Sane img i :=
    forall_congr' fun i => by simp
  rw [foldlM_ok_iff guards_checkInode, along_and, haddrs, along_const, hsane, along_checkAddr]
  have hzero : ∀ a, (Good img a ∧ (fun _ => 0 : Nat → Nat) (a - b_start img) ≠ 1) ↔ Good img a :=
    fun a => and_iff_left Nat.zero_ne_one
  simp only [hzero, and_assoc]
  rfl

/-! ## The program -/

/-- What an accepted image is like. -/
structure Clean (img : Image) (junk : Tables) : Prop where
  small : nblocks img < 2 ^ 31 ∧ ninodes img < 2 ^ 31 ∧ (b_start img + nblocks img) % 2 ^ 32 < 2 ^ 31
  good : ∀ a ∈ nonzero (refsBelow img (ninodes img)), Good img a
  nodup : (nonzero (refsBelow img (ninodes img))).Nodup
  sane : ∀ i < ninodes img, Sane img i
  marked : ∀ l, b_start img ≤ l → l < (b_start img + nblocks img) % 2 ^ 32 → bit img l = true →
    (tablesAt img junk (ninodes img)).u_blocks (l - b_start img) ≠ 0
  found : ∀ l, 2 ≤ l → l < ninodes img →
    ((tablesAt img junk (ninodes img)).uind_table l ≠ 0 ↔
      (tablesAt img junk (ninodes img)).uind_dir l ≠ 0)
  files : ∀ i < ninodes img, type img i = T_FILE →
    links img i = (tablesAt img junk (ninodes img)).uind_dir i
  dirs : ∀ i < ninodes img, type img i = T_DIR → i ≠ 1 →
    (tablesAt img junk (ninodes img)).uind_dir i = 1

/-- A check that changes nothing. -/
theorem check_same_iff {p : Prop} [Decidable p] {m : Message} :
    (do check p m; .ok s) = Except.ok t ↔ p ∧ t = s := by
  rw [bind_ok_iff]
  constructor
  · rintro ⟨_, hp, ht⟩
    exact ⟨check_ok_iff.mp hp, (Except.ok.inj ht).symm⟩
  · rintro ⟨hp, rfl⟩
    exact ⟨(), check_ok_iff.mpr hp, rfl⟩

theorem guards_checkBit : Guards (checkBit img)
    (fun s l => bit img l = true → s.u_blocks (l - b_start img) ≠ 0) fun s _ => s :=
  fun _ _ _ => check_same_iff

theorem guards_checkFound :
    Guards checkFound (fun s l => s.uind_table l ≠ 0 → s.uind_dir l ≠ 0) fun s _ => s :=
  fun _ _ _ => check_same_iff

theorem guards_checkUsed :
    Guards checkUsed (fun s l => s.uind_dir l ≠ 0 → s.uind_table l ≠ 0) fun s _ => s :=
  fun _ _ _ => check_same_iff

theorem guards_checkLinks : Guards (checkLinks img)
    (fun s i => (type img i = T_FILE → links img i = s.uind_dir i) ∧
      (type img i = T_DIR → i ≠ 1 → s.uind_dir i = 1)) fun s _ => s := by
  intro s i t
  rw [checkLinks, bind_ok_iff]
  constructor
  · rintro ⟨_, hfile, ht⟩
    obtain ⟨hdir, ht⟩ := check_same_iff.mp ht
    exact ⟨⟨check_ok_iff.mp hfile, hdir⟩, ht⟩
  · rintro ⟨⟨hfile, hdir⟩, ht⟩
    exact ⟨(), check_ok_iff.mpr hfile, check_same_iff.mpr ⟨hdir, ht⟩⟩

/-- A loop of checks that change nothing. -/
theorem forInt_same_iff {f : Tables → Nat → Except Stop Tables} {P : Tables → Nat → Prop}
    (h : Guards f P fun s _ => s) :
    forInt lo n f s = .ok t ↔ n < 2 ^ 31 ∧ (∀ l, lo ≤ l → l < n → P s l) ∧ t = s := by
  have hrange : (∀ l ∈ List.range' lo (n - lo), P s l) ↔ ∀ l, lo ≤ l → l < n → P s l := by
    refine forall_congr' fun l => ?_
    rw [List.mem_range'_1]
    exact ⟨fun hl h1 h2 => hl ⟨h1, by omega⟩, fun hl h12 => hl h12.1 (by omega)⟩
  rw [forInt_ok_iff, foldlM_ok_iff h, along_same, hrange, foldl_same]

theorem fscheck_ok_iff : fscheck img junk = .ok () ↔ Clean img junk := by
  rw [fscheck]
  by_cases hnb : nblocks img ≥ 2 ^ 31
  · rw [if_pos hnb]
    refine iff_of_false nofun fun h => ?_
    have := h.small
    omega
  rw [if_neg hnb]
  simp only [bind_ok_iff, forInt_ok_iff (f := checkInode img), Nat.sub_zero, inodes_ok_iff,
    forInt_same_iff guards_checkBit, forInt_same_iff guards_checkFound,
    forInt_same_iff guards_checkUsed, forInt_same_iff guards_checkLinks]
  constructor
  · rintro ⟨s, ⟨hni, ⟨hgood, hnd, hsane⟩, rfl⟩, _, ⟨hb, hmarked, rfl⟩, _, ⟨-, hfound, rfl⟩, _,
      ⟨-, hused, rfl⟩, _, ⟨-, hlinks, rfl⟩, -⟩
    exact ⟨⟨by omega, hni, hb⟩, hgood, hnd, hsane, hmarked,
      fun l h2 hl => ⟨hfound l h2 hl, hused l h2 hl⟩,
      fun i hi => (hlinks i (Nat.zero_le i) hi).1, fun i hi => (hlinks i (Nat.zero_le i) hi).2⟩
  · intro h
    obtain ⟨-, hni, hb⟩ := h.small
    exact ⟨_, ⟨hni, ⟨h.good, h.nodup, h.sane⟩, rfl⟩, _, ⟨hb, h.marked, rfl⟩, _,
      ⟨hni, fun l h2 hl => (h.found l h2 hl).mp, rfl⟩, _,
      ⟨hni, fun l h2 hl => (h.found l h2 hl).mpr, rfl⟩, _,
      ⟨hni, fun i _ hi => ⟨h.files i hi, h.dirs i hi⟩, rfl⟩, trivial⟩

end Cs537.Fscheck
