/-
# `Cs537.CheckedFs.Agree` — checked and ordinary files agree

As long as an inode stays in the cache, a file with checksums and one without
serve the same calls alike: both serve them as a list of bytes.
-/
import Cs537.CheckedFs.Contents
import Cs537.CheckedFs.Mkfs

namespace Cs537.CheckedFs

open Cs537.Lib

/-- A list of calls, with their results. -/
def runCalls (dev : Devsw) :
    Disk → Inode → List Call → Option (List (Int × List Byte) × Disk × Inode)
  | d, ip, [] => some ([], d, ip)
  | d, ip, c :: cs =>
      (doCall dev d ip c).bind fun (r, d, ip) =>
        (runCalls dev d ip cs).map fun (rs, d, ip) => (r :: rs, d, ip)

/-- The same on a list of bytes. -/
def serveCalls (file : List Byte) (cs : List Call) : List (Int × List Byte) × List Byte :=
  fileRun maxsize (2 ^ 32) file (cs.map Call.abs)

section

variable {d : Disk} {ip : Inode} {file : List Byte}

theorem serveCalls_cons (file : List Byte) (c : Call) (cs : List Call) :
    serveCalls file (c :: cs) =
      ((serveCall file c).1 :: (serveCalls (serveCall file c).2 cs).1,
        (serveCalls (serveCall file c).2 cs).2) := rfl

theorem Served.trans {d' d'' : Disk} {ip' ip'' : Inode} {file' file'' : List Byte}
    (h : Served d ip file d' ip' file') (h' : Served d' ip' file' d'' ip'' file'') :
    Served d ip file d'' ip'' file'' where
  stores := h'.stores
  rest := by rw [h'.rest, h.rest]
  free := by rw [h'.free, h.free]
  shadow hs := by
    have hinum : ip'.inum = ip.inum := by rw [h.rest]
    have hs' := h.shadow hs
    rw [← hinum] at hs' ⊢
    exact h'.shadow hs'

/-- With the blocks that the final file needs, every call is served. -/
theorem Stores.runCalls (dev : Devsw) : ∀ {d : Disk} {ip : Inode} {file : List Byte} (cs : List Call),
    Stores d ip file →
    blocksFor (nblk (serveCalls file cs).2.length) ≤ blocksFor (nblk file.length) + freeCount d →
    ∃ d' ip', runCalls dev d ip cs = some ((serveCalls file cs).1, d', ip') ∧
      Served d ip file d' ip' (serveCalls file cs).2
  | d, ip, _, [], h, _ => ⟨d, ip, rfl, h.served⟩
  | d, _, file, c :: cs, h, hroom => by
      simp only [serveCalls_cons] at hroom ⊢
      have hgrow : (serveCall file c).2.length ≤ (serveCalls (serveCall file c).2 cs).2.length :=
        length_le_fileRun _ _
      have hroom₁ : Room d file c := (blocksFor_mono (nblk_mono hgrow)).trans hroom
      obtain ⟨d₁, ip₁, hcall, hs⟩ := h.doCall dev c hroom₁
      have hfree := hs.free
      obtain ⟨d₂, ip₂, hcalls, hs'⟩ := Stores.runCalls dev cs hs.stores (by omega)
      refine ⟨d₂, ip₂, ?_, hs.trans hs'⟩
      simp only [CheckedFs.runCalls, hcall, Option.bind_some, hcalls, Option.map_some]

end

/-! ## The empty inode -/

/-- An empty inode on a consistent image. -/
structure EmptyInode (d : Disk) (ip : Inode) : Prop where
  image : Image d
  inum : ip.inum < sbNinodes d
  size : ip.size = 0
  addrs : ip.addrs = fun _ => 0

theorem EmptyInode.stores {d : Disk} {ip : Inode} (h : EmptyInode d ip) (hdev : ip.type ≠ tDev) :
    Stores d ip [] where
  image := h.image
  inum := h.inum
  ordinary := hdev
  size := by rw [h.size]; rfl
  blocks := blocks_empty h.size h.addrs
  bytes := nofun
  tags _ := nofun

section

variable {d e : Disk} {ip iq : Inode}

/-- The calls on an empty `T_FILE` inode and on an empty `T_CHECKED` inode have
the same results, those of a list of bytes; in particular every byte that a
read delivers is the one last written there. -/
theorem checked_agrees (dev : Devsw) (cs : List Call) (hd : EmptyInode d ip) (hfile : ip.type = tFile)
    (he : EmptyInode e iq) (hchecked : iq.type = tChecked)
    (hroomd : blocksFor (nblk (serveCalls [] cs).2.length) ≤ freeCount d)
    (hroome : blocksFor (nblk (serveCalls [] cs).2.length) ≤ freeCount e) :
    ∃ rs d' ip' e' iq', runCalls dev d ip cs = some (rs, d', ip') ∧
      runCalls dev e iq cs = some (rs, e', iq') ∧ ip'.size = iq'.size ∧
      rs = (serveCalls [] cs).1 ∧ iq'.size.toNat = (serveCalls [] cs).2.length ∧
      ∀ i off n, cs[i]? = some (.read off n) → ∃ r, rs[i]? = some r ∧
        ∀ j, j < r.2.length → r.2[j]? =
          lastWritten maxsize (2 ^ 32) [] ((cs.map Call.abs).take i) (off.toNat + j) := by
  have h0 : blocksFor (nblk ([] : List Byte).length) = 0 := rfl
  obtain ⟨d', ip', hrun, hs⟩ := Stores.runCalls dev cs (hd.stores (by rw [hfile]; decide))
    (by rwa [h0, Nat.zero_add])
  obtain ⟨e', iq', hrun', hs'⟩ := Stores.runCalls dev cs (he.stores (by rw [hchecked]; decide))
    (by rwa [h0, Nat.zero_add])
  refine ⟨_, d', ip', e', iq', hrun, hrun', ?_, rfl, hs'.stores.size, fun i off n hi => ?_⟩
  · apply BitVec.eq_of_toNat_eq
    rw [hs.stores.size, hs'.stores.size]
  · obtain ⟨r, hr, hbytes⟩ := read_lastWritten maxsize (2 ^ 32) []
      (show (cs.map Call.abs)[i]? = some (.read off.toNat n.toNat) by
        rw [List.getElem?_map, hi]
        rfl)
    refine ⟨r, hr, fun j hj => ?_⟩
    rw [hbytes j hj, List.getElem?_nil, Option.or_none]

/-- An inode just made, on the disk of `mkfs`. -/
def newInode (type : BitVec 16) : Inode := ⟨⟨type, 0, 0, 1, 0, fun _ => 0⟩, 2, 1, true⟩

theorem emptyInode_smallDisk (type : BitVec 16) : EmptyInode smallDisk (newInode type) where
  image := mkfs_image mkfs_smallDisk (by decide)
  inum := show 2 < sbNinodes smallDisk by decide +kernel
  size := rfl
  addrs := rfl

def noDev : Devsw := ⟨fun _ => none, fun _ => none⟩

/-- Two writes that overlap at the end of the first block, a read across it,
and one past the end. -/
def overlap : List Call :=
  [.write 0 600 (fun i => BitVec.ofNat 8 i), .write 510 4 (fun _ => 7), .read 508 8, .read 601 1]

theorem checked_agrees_overlap :
    ∃ rs d' ip' e' iq', runCalls noDev smallDisk (newInode tFile) overlap = some (rs, d', ip') ∧
      runCalls noDev smallDisk (newInode tChecked) overlap = some (rs, e', iq') ∧
      rs = [(600, []), (4, []), (8, [252, 253, 7, 7, 7, 7, 2, 3]), (-1, [])] := by
  obtain ⟨rs, d', ip', e', iq', h1, h2, -, h3, -⟩ :=
    checked_agrees noDev overlap (emptyInode_smallDisk tFile) rfl (emptyInode_smallDisk tChecked) rfl
      (by decide +kernel) (by decide +kernel)
  refine ⟨rs, d', ip', e', iq', h1, h2, h3.trans ?_⟩
  decide +kernel

end

end Cs537.CheckedFs
