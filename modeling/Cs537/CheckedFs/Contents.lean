/-
# `Cs537.CheckedFs.Contents` — `writei` and `readi` serve a file

`Stores d ip file`: the inode `ip` on the disk `d` holds the bytes `file`.
`writei` and `readi` then do what `Cs537.Lib.File` says of a file with at most
`maxsize` bytes and 32-bit addresses (`Stores.doCall`), whether or not the
inode has checksums, as long as the disk has the blocks that the file needs.
-/
import Cs537.Lib.File
import Cs537.CheckedFs.Writei

namespace Cs537.CheckedFs

open Cs537.Lib

/-! ## Calls -/

/-- `ip` holds the bytes `file`. -/
structure Stores (d : Disk) (ip : Inode) (file : List Byte) : Prop where
  image : Image d
  inum : ip.inum < sbNinodes d
  ordinary : ip.type ≠ tDev
  size : ip.size.toNat = file.length
  blocks : Blocks d ip.toDinode
  bytes : ∀ p, p < file.length → file[p]? = some (byteOf d ip.toDinode (nblk file.length) p)
  tags : ip.type = tChecked → Tagged d ip.toDinode (nblk file.length)

inductive Call where
  | write (off n : BitVec 32) (src : Nat → Byte)
  | read (off n : BitVec 32)

/-- The call as one on a list of bytes. -/
def Call.abs : Call → FileCall Byte
  | .write off n src => .write off.toNat ((List.range n.toNat).map src)
  | .read off n => .read off.toNat n.toNat

/-- A call of `writei` or `readi`: its return value and the bytes it delivers. -/
def doCall (dev : Devsw) (d : Disk) (ip : Inode) :
    Call → Option ((Int × List Byte) × Disk × Inode)
  | .write off n src => (writei dev d ip src off n).map fun (r, d, ip) => ((r, []), d, ip)
  | .read off n => (readi dev d ip off n).map fun (r, out, d, ip) => ((r, out), d, ip)

/-- The file after a call. -/
def serveCall (file : List Byte) (c : Call) : (Int × List Byte) × List Byte :=
  fileStep maxsize (2 ^ 32) file c.abs

/-- The disk has the blocks that the file needs for `c`. -/
def Room (d : Disk) (file : List Byte) (c : Call) : Prop :=
  blocksFor (nblk (serveCall file c).2.length) ≤ blocksFor (nblk file.length) + freeCount d

instance (d : Disk) (file : List Byte) (c : Call) : Decidable (Room d file c) := Nat.decLe _ _

/-- What a call does to the inode and the disk. -/
structure Served (d : Disk) (ip : Inode) (file : List Byte) (d' : Disk) (ip' : Inode)
    (file' : List Byte) : Prop where
  stores : Stores d' ip' file'
  rest : ip' = { ip with size := ip'.size, addrs := ip'.addrs }
  free : freeCount d' + blocksFor (nblk file'.length) = freeCount d + blocksFor (nblk file.length)
  shadow : Shadows (dinode d ip.inum) ip.toDinode → Shadows (dinode d' ip.inum) ip'.toDinode

section

variable {d : Disk} {ip : Inode} {file : List Byte}

theorem Stores.served (h : Stores d ip file) : Served d ip file d ip file := ⟨h, rfl, rfl, id⟩

theorem serveCall_write {off n : BitVec 32} {src : Nat → Byte}
    (hacc : Accepts (2 ^ 32) file (Call.write off n src).abs) :
    serveCall file (.write off n src) =
      ((((min n.toNat (maxsize - off.toNat) : Nat) : Int), []),
        splice file off.toNat ((List.range (min n.toNat (maxsize - off.toNat))).map src)) := by
  rw [serveCall, fileStep, if_pos hacc, Call.abs, serve]
  simp only [← List.map_take, List.take_range, List.length_map, List.length_range,
    Nat.min_comm (maxsize - off.toNat)]

theorem Stores.doWrite (h : Stores d ip file) (dev : Devsw) {off n : BitVec 32} {src : Nat → Byte}
    (hacc : Accepts (2 ^ 32) file (Call.write off n src).abs)
    (hroom : Room d file (.write off n src)) :
    ∃ d' ip', doCall dev d ip (.write off n src)
        = some ((serveCall file (.write off n src)).1, d', ip') ∧
      Served d ip file d' ip' (serveCall file (.write off n src)).2 := by
  obtain ⟨m, hm⟩ : ∃ m, m = min n.toNat (maxsize - off.toNat) := ⟨_, rfl⟩
  have hoff : off.toNat ≤ file.length := hacc.1
  have hn : off.toNat + n.toNat < 2 ^ 32 := by
    simpa [Call.abs, FileCall.off, FileCall.len] using hacc.2
  have hlen : (splice file off.toNat ((List.range m).map src)).length
      = max file.length (off.toNat + m) := by
    rw [length_splice hoff, List.length_map, List.length_range]
  rw [Room, serveCall_write hacc, ← hm, hlen] at hroom
  obtain ⟨d', ip', hwrite, hr⟩ := writei_effect dev src h.image h.blocks h.ordinary
    h.inum (by rwa [h.size]) hn hm (by rwa [h.size])
  have hsize := hr.size
  have hbytes := hr.bytes
  have htags := hr.tags
  have hfree := hr.free
  rw [h.size] at hsize
  rw [hsize, h.size] at hbytes htags hfree
  have htype : ip'.type = ip.type := by rw [hr.rest]
  rw [serveCall_write hacc, ← hm]
  refine ⟨d', ip', by rw [CheckedFs.doCall, hwrite, Option.map_some],
    ⟨hr.image, ?_, ?_, ?_, hr.blocks, fun p hp => ?_, fun hc => ?_⟩, hr.rest, ?_, hr.shadow⟩
  · rw [sbNinodes_eq hr.sb, hr.rest]
    exact h.inum
  · rw [htype]
    exact h.ordinary
  · rw [hsize, hlen]
  · rw [hlen] at hp ⊢
    rw [hbytes, getElem?_splice hoff, List.length_map, List.length_range]
    by_cases hin : off.toNat ≤ p ∧ p < off.toNat + m
    · rw [if_pos hin, if_pos hin, List.getElem?_map, List.getElem?_range (by omega), Option.map_some]
    · rw [if_neg hin, if_neg hin]
      exact h.bytes p (by omega)
  · rw [htype] at hc
    rw [hlen]
    exact htags hc (h.tags hc)
  · rw [hlen]
    exact hfree

theorem Stores.doRead (h : Stores d ip file) (dev : Devsw) {off n : BitVec 32}
    (hacc : Accepts (2 ^ 32) file (Call.read off n).abs) :
    doCall dev d ip (.read off n) = some ((serveCall file (.read off n)).1, d, ip) := by
  obtain ⟨m, hm⟩ : ∃ m, m = min n.toNat (file.length - off.toNat) := ⟨_, rfl⟩
  have hoff : off.toNat ≤ file.length := hacc.1
  have hn : off.toNat + n.toNat < 2 ^ 32 := hacc.2
  have hwf := h.blocks.wf
  have hle := h.blocks.le
  rw [h.size] at hwf hle
  have hms : maxsize = 71680 := rfl
  -- `n` cut off at the end of the file
  obtain ⟨n', hn'⟩ : ∃ n', n' = if ip.size < off + n then ip.size - off else n := ⟨_, rfl⟩
  have hn'm : n'.toNat = m := by
    rw [hn', hm]
    by_cases hlt : ip.size < off + n
    · rw [if_pos hlt, BitVec.toNat_sub_of_le (by rw [BitVec.le_def, h.size]; exact hoff), h.size]
      rw [BitVec.lt_def, range_of_accepted hn, h.size] at hlt
      omega
    · rw [if_neg hlt]
      rw [BitVec.lt_def, range_of_accepted hn, h.size] at hlt
      omega
  have hout : (file.drop off.toNat).take n.toNat
      = (List.range m).map fun i => byteOf d ip.toDinode (nblk file.length) (off.toNat + i) := by
    refine List.ext_getElem? fun i => ?_
    rw [List.getElem?_take, List.getElem?_drop, List.getElem?_map]
    by_cases hi : i < m
    · rw [if_pos (by omega), h.bytes _ (by omega), List.getElem?_range hi, Option.map_some]
    · rw [List.getElem?_eq_none (l := List.range m) (by rw [List.length_range]; omega),
        Option.map_none]
      by_cases hin : i < n.toNat
      · rw [if_pos hin, List.getElem?_eq_none (by omega)]
      · rw [if_neg hin]
  have hacc' : ¬ (ip.size < off ∨ off + n < off) := by
    rw [refused_iff, h.size]
    exact fun hno => hno ⟨hoff, hn⟩
  have hlast : off.toNat + (m - 0) ≤ bsize * nblk file.length := by
    simp only [nblk, bsize]
    omega
  rw [serveCall, fileStep, if_pos hacc, Call.abs, serve, CheckedFs.doCall, readi,
    if_neg h.ordinary, if_neg hacc']
  simp only [← hn', hn'm, hout, List.length_map, List.length_range]
  rw [readiLoop_spec hwf h.tags (Nat.zero_le m) hlast (fun _ => Nat.le_add_left _ _) (by omega)]
  rfl

/-- `writei` and `readi` serve the file. -/
theorem Stores.doCall (h : Stores d ip file) (dev : Devsw) (c : Call) (hroom : Room d file c) :
    ∃ d' ip', CheckedFs.doCall dev d ip c = some ((serveCall file c).1, d', ip') ∧
      Served d ip file d' ip' (serveCall file c).2 := by
  by_cases hacc : Accepts (2 ^ 32) file c.abs
  · cases c with
    | write off n src => exact h.doWrite dev hacc hroom
    | read off n =>
        have hsame : (serveCall file (.read off n)).2 = file := by
          rw [serveCall, fileStep, if_pos hacc, Call.abs, serve]
        rw [hsame]
        exact ⟨d, ip, h.doRead dev hacc, h.served⟩
  · have hsame : serveCall file c = ((-1, []), file) := by
      rw [serveCall, fileStep, if_neg hacc]
    rw [hsame]
    refine ⟨d, ip, ?_, h.served⟩
    cases c with
    | write off n src =>
        have hno : ¬ (off.toNat ≤ ip.size.toNat ∧ off.toNat + n.toNat < 2 ^ 32) := by
          rw [h.size]
          simpa [Accepts, Call.abs, FileCall.off, FileCall.len] using hacc
        rw [CheckedFs.doCall, writei_refused h.ordinary hno, Option.map_some]
    | read off n =>
        have hno : ¬ (off.toNat ≤ ip.size.toNat ∧ off.toNat + n.toNat < 2 ^ 32) := hacc ∘ by
          rw [h.size]
          exact id
        rw [CheckedFs.doCall, readi, if_neg h.ordinary, if_pos (refused_iff.mpr hno),
          Option.map_some]

end

end Cs537.CheckedFs
