/-
# `Cs537.Mkfs.Room` — trees that there is room for

`Roomy`: no file of a tree is too long, and the blocks of all of them are in the
image.  The loop of `add_dir` comes to its end then (`addEntries_ok`); with
`addEntries_spec`, which counts the blocks, `mkfs` does so on these trees only.
-/
import Cs537.Mkfs.Tree

namespace Cs537.Mkfs

open Cs537.Lib

variable {s s' : St} {B : Nat → Nat → Nat} {n i m cur parent : Nat} {p : List UInt8}

/-! ## Appending -/

namespace Good

theorem iappend_ok (h : Good s B) (hs : Sized s (filed s) n) (hn : n < s.freeinode)
    (hroom : s.freeinode ≤ room) (hfits : Fits s (filed s) n p) : ∃ s', s.iappend n p = some s' := by
  obtain ⟨s', -, heq, -⟩ := h.ready.iappend_ok hs (Nat.lt_of_lt_of_le hn hroom) hfits
  exact ⟨s', heq⟩

theorem reads_ok (h : Good s B) (hs : Sized s (filed s) n) (hn : n < s.freeinode)
    (hroom : s.freeinode ≤ room) (bufs : List (List UInt8))
    (hfits : Fits s (filed s) n bufs.flatten) :
    ∃ s', bufs.foldlM (fun s buf => s.iappend n buf) s = some s' := by
  induction bufs generalizing s B with
  | nil => exact ⟨s, rfl⟩
  | cons buf bufs ih =>
      rw [List.flatten_cons] at hfits
      have hfits₁ := hfits.take buf.length
      rw [List.take_left] at hfits₁
      obtain ⟨s₁, happ⟩ := h.iappend_ok hs hn hroom hfits₁
      obtain ⟨B₁, hgood₁, hsized₁, hfiled₁, -, hfi₁, hfb₁⟩ := h.iappend hs hn hroom happ
      obtain ⟨hlen, hblocks⟩ := hfits
      rw [List.length_append, ← Nat.add_assoc] at hlen hblocks
      obtain ⟨s', hrest⟩ := ih hgood₁ hsized₁ (hfi₁ ▸ hn) (hfi₁ ▸ hroom)
        (by rw [Fits, hfiled₁, extend_self, List.length_append]; exact ⟨hlen, by omega⟩)
      exact ⟨s', by rw [List.foldlM_cons, happ]; exact hrest⟩

end Good

/-! ## The loop of `add_dir` -/

/-- There is room for what is made for entries of `cur`, and for their bytes. -/
structure Roomy (s : St) (cur : Nat) (es : List (Nat × List UInt8)) (l : List Made) : Prop where
  short : ∀ m ∈ l, m.bytes.length ≤ MAXFILE * 512
  self : (filed s cur).length + (entryBytes es).length ≤ MAXFILE * 512
  blocks : s.freeblock + blocksOf l + blocksFor ((filed s cur).length + (entryBytes es).length) ≤
    size + blocksFor (filed s cur).length

theorem entryBytes_cons {name : List UInt8} {es : List (Nat × List UInt8)} :
    entryBytes ((i, name) :: es) = dirent i name ++ entryBytes es := List.flatMap_cons

def EntriesOk (d : Dir) : Prop :=
  ∀ {cur s B}, Good s B → Sized s (filed s) cur → cur < s.freeinode →
    s.freeinode + d.nodes ≤ room → Roomy s cur (listing d s.freeinode) (made d cur s.freeinode) →
    ∃ s', St.addEntries d cur s = some s'

/-- The entry for what has been made, and the others. -/
theorem entry_ok {rest : Dir} {s₂ : St} {B₂ : Nat → Nat → Nat} {l : List Made} {name : List UInt8}
    (ih : EntriesOk rest) (hs : Sized s (filed s) cur) (hcur : cur < s.freeinode)
    (hgood : Good s₂ B₂) (hkeeps : ∀ i < s.freeinode, Keeps s s₂ i)
    (hfi : s₂.freeinode = s.freeinode + m) (hfb : s₂.freeblock = s.freeblock + blocksOf l)
    (hroom : s.freeinode + m + rest.nodes ≤ room)
    (hroomy : Roomy s cur ((s.freeinode, name) :: listing rest (s.freeinode + m))
      (l ++ made rest cur (s.freeinode + m))) :
    ∃ s₃ s', s₂.iappend cur (dirent s.freeinode name) = some s₃ ∧
      St.addEntries rest cur s₃ = some s' := by
  obtain ⟨hshort, hself, hblocks⟩ := hroomy
  rw [entryBytes_cons, List.length_append] at hself hblocks
  rw [blocksOf_append] at hblocks
  have hsame := (hkeeps cur hcur).1
  have hmono : blocksFor ((filed s cur).length + (dirent s.freeinode name).length) ≤
      blocksFor ((filed s cur).length + ((dirent s.freeinode name).length +
        (entryBytes (listing rest (s.freeinode + m))).length)) := blocksFor_mono (by omega)
  obtain ⟨s₃, happ⟩ := hgood.iappend_ok (p := dirent s.freeinode name) ((hkeeps cur hcur).sized hs)
    (by omega) (by omega) ⟨by rw [hsame]; omega, by rw [hsame]; omega⟩
  obtain ⟨B₃, hgood₃, hsized₃, hfiled₃, -, hfi₃, hfb₃⟩ :=
    hgood.iappend ((hkeeps cur hcur).sized hs) (by omega) (by omega) happ
  have hfi' : s₃.freeinode = s.freeinode + m := hfi₃.trans hfi
  have hlen : (filed s₃ cur).length = (filed s cur).length + (dirent s.freeinode name).length := by
    rw [hfiled₃, extend_self, hsame, List.length_append]
  rw [hsame] at hfb₃
  obtain ⟨s', hrest⟩ := ih hgood₃ hsized₃ (by omega) (by omega)
    ⟨fun x hx => hshort x (List.mem_append_right _ (hfi' ▸ hx)), by rw [hlen, hfi']; omega,
      by rw [hlen, hfi', Nat.add_assoc (filed s cur).length]; omega⟩
  exact ⟨s₃, s', happ, hrest⟩

/-- A new directory gets its entries. -/
theorem inDir_ok {dir : Dir} (parent : Nat) (hdir : EntriesOk dir) (h : Good s B)
    (hs : Sized s (filed s) n) (hn : n < s.freeinode) (hempty : filed s n = [])
    (hroom : s.freeinode + dir.nodes ≤ room)
    (hshort : ∀ m ∈ made dir n s.freeinode, m.bytes.length ≤ MAXFILE * 512)
    (hself : (entryBytes (allEntries dir n parent s.freeinode)).length ≤ MAXFILE * 512)
    (hblocks : s.freeblock + blocksOf (made dir n s.freeinode) +
      blocksFor (entryBytes (allEntries dir n parent s.freeinode)).length ≤ size) :
    ∃ s', St.inDir (St.addEntries dir n) n parent s = some s' := by
  have hroom' : s.freeinode ≤ room := by omega
  rw [allEntries, entryBytes_cons, entryBytes_cons, List.length_append, List.length_append]
    at hself hblocks
  have hmono₁ : blocksFor (dirent n dot).length ≤ blocksFor ((dirent n dot).length +
      ((dirent parent dotdot).length + (entryBytes (listing dir s.freeinode)).length)) :=
    blocksFor_mono (by omega)
  have hmono₂ : blocksFor ((dirent n dot).length + (dirent parent dotdot).length) ≤
      blocksFor ((dirent n dot).length +
        ((dirent parent dotdot).length + (entryBytes (listing dir s.freeinode)).length)) :=
    blocksFor_mono (by omega)
  obtain ⟨s₁, hdot⟩ := h.iappend_ok (p := dirent n dot) hs hn hroom'
    ⟨by rw [hempty, List.length_nil]; omega,
      by rw [hempty, List.length_nil, Nat.zero_add, blocksFor_zero]; omega⟩
  obtain ⟨B₁, hgood₁, hsized₁, hfiled₁, -, hfi₁, hfb₁⟩ := h.iappend hs hn hroom' hdot
  have hlen₁ : (filed s₁ n).length = (dirent n dot).length := by
    rw [hfiled₁, extend_self, hempty, List.nil_append]
  rw [hempty, List.length_nil, Nat.zero_add, blocksFor_zero] at hfb₁
  obtain ⟨s₂, hdotdot⟩ := hgood₁.iappend_ok (p := dirent parent dotdot) hsized₁ (hfi₁ ▸ hn)
    (hfi₁ ▸ hroom') ⟨by rw [hlen₁]; omega, by rw [hlen₁]; omega⟩
  obtain ⟨B₂, hgood₂, hsized₂, hfiled₂, -, hfi₂, hfb₂⟩ :=
    hgood₁.iappend hsized₁ (hfi₁ ▸ hn) (hfi₁ ▸ hroom') hdotdot
  have hfi := hfi₂.trans hfi₁
  have hlen₂ : (filed s₂ n).length = (dirent n dot).length + (dirent parent dotdot).length := by
    rw [hfiled₂, extend_self, List.length_append, hlen₁]
  rw [hlen₁] at hfb₂
  obtain ⟨s₃, hent⟩ := hdir hgood₂ hsized₂ (hfi ▸ hn) (hfi ▸ hroom)
    ⟨fun m hm => hshort m (hfi ▸ hm), by rw [hlen₂, hfi]; omega,
      by rw [hlen₂, hfi, Nat.add_assoc (dirent n dot).length]; omega⟩
  obtain ⟨B₃, hadded⟩ := addEntries_spec dir hgood₂ hsized₂ (hfi ▸ hn) (hfi ▸ hroom) hent
  have hholds := hadded.good.ready.holds
  have hn' : n < room := by omega
  refine ⟨Holds.withInode s₃ n
    ((table s₃.img n).setSize (((table s₃.img n).size / BSIZE + 1) * BSIZE)), ?_⟩
  rw [St.inDir, hdot]
  simp only [Option.bind_eq_bind, Option.bind_some, hdotdot, hent, St.fixSize, hholds.rinode hn',
    Holds.winode hholds.sectors hn']

theorem addEntries_ok (d : Dir) : EntriesOk d := by
  induction d with
  | nil => exact fun _ _ _ _ _ => ⟨_, rfl⟩
  | file name bufs rest ih =>
      intro cur s B h hs hcur hroom hroomy
      rw [St.addEntries]
      rw [Dir.nodes] at hroom
      rw [listing, made] at hroomy
      by_cases hname : Passed name
      · rw [if_pos hname] at hroom
        rw [if_pos hname, if_pos hname] at hroomy
        rw [if_pos hname]
        exact ih h hs hcur (by omega) hroomy
      · rw [if_neg hname] at hroom
        rw [if_neg hname, if_neg hname] at hroomy
        rw [if_neg hname]
        have hialloc := h.ready.ialloc_eq (t := T_FILE) (show s.freeinode < room by omega)
        obtain ⟨-, B₁, hgood₁, hsized₁, hfiled₁, hfi₁, hfb₁, hkeeps₁, -, -, -⟩ :=
          h.ialloc (by omega) (by decide) hialloc
        have hempty : filed (s.allocated T_FILE) s.freeinode = [] := by
          rw [hfiled₁, h.unused _ (Nat.le_refl _)]
        have hblocks := hroomy.blocks
        have hmono := blocksFor_mono (Nat.le_add_right (filed s cur).length
          (entryBytes ((s.freeinode, name) :: listing rest (s.freeinode + 1))).length)
        rw [blocksOf_file] at hblocks
        obtain ⟨s₂, hreads⟩ := hgood₁.reads_ok hsized₁ (by omega) (by omega) bufs
          ⟨by
            rw [hempty, List.length_nil, Nat.zero_add]
            exact hroomy.short _ List.mem_cons_self, by
            rw [hempty, List.length_nil, Nat.zero_add, blocksFor_zero, hfb₁]
            exact Nat.le_trans (Nat.add_le_add_left (Nat.le_add_right _ _) _)
              (Nat.le_of_add_le_add_right (Nat.le_trans (Nat.add_le_add_left hmono _) hblocks))⟩
        obtain ⟨B₂, hgood₂, -, -, hgrew₂, hfi₂, hfb₂⟩ :=
          hgood₁.reads hsized₁ (by omega) (by omega) hreads
        rw [hempty, List.length_nil, Nat.zero_add, blocksFor_zero, Nat.add_zero, hfb₁] at hfb₂
        obtain ⟨s₃, s', happ, hrest⟩ := entry_ok ih hs hcur hgood₂
          (fun i hi => (hkeeps₁ i hi).trans (hgrew₂.others i (by omega) (by omega)))
          (hfi₂.trans hfi₁) (l := [⟨s.freeinode, .file bufs.flatten⟩]) hfb₂ (by omega) hroomy
        refine ⟨s', ?_⟩
        rw [hialloc]
        simp only [Option.bind_eq_bind, Option.bind_some, hreads, happ, hrest]
  | sub name dir rest ihd ih =>
      intro cur s B h hs hcur hroom hroomy
      rw [St.addEntries]
      rw [Dir.nodes] at hroom
      rw [listing, made] at hroomy
      by_cases hname : Passed name
      · rw [if_pos hname] at hroom
        rw [if_pos hname, if_pos hname] at hroomy
        rw [if_pos hname]
        exact ih h hs hcur (by omega) hroomy
      · rw [if_neg hname] at hroom
        rw [if_neg hname, if_neg hname,
          show s.freeinode + 1 + dir.nodes = s.freeinode + (dir.nodes + 1) by omega] at hroomy
        rw [if_neg hname]
        have hialloc := h.ready.ialloc_eq (t := T_DIR) (show s.freeinode < room by omega)
        obtain ⟨-, B₁, hgood₁, hsized₁, hfiled₁, hfi₁, hfb₁, hkeeps₁, -, -, -⟩ :=
          h.ialloc (by omega) (by decide) hialloc
        have hempty : filed (s.allocated T_DIR) s.freeinode = [] := by
          rw [hfiled₁, h.unused _ (Nat.le_refl _)]
        have hblocks := hroomy.blocks
        have hmono := blocksFor_mono (Nat.le_add_right (filed s cur).length
          (entryBytes ((s.freeinode, name) :: listing rest (s.freeinode + (dir.nodes + 1)))).length)
        rw [blocksOf_append, blocksOf_dir] at hblocks
        obtain ⟨s₂, hdir⟩ := inDir_ok cur ihd hgood₁ hsized₁ (by omega) hempty (by omega)
          (fun m hm => hroomy.short m (List.mem_append_left _ (List.mem_cons_of_mem _ (hfi₁ ▸ hm))))
          (by rw [hfi₁]; exact hroomy.short _ (List.mem_append_left _ List.mem_cons_self))
          (by rw [hfi₁, hfb₁]; omega)
        obtain ⟨B₂, hgood₂, hgrew₂, hfi₂, hbytes₂, -, hfb₂, -⟩ :=
          inDir_spec (addEntries_spec dir) hgood₁ hsized₁ (by omega) hempty (by omega) hdir
        rw [hfi₁] at hbytes₂ hfb₂ hfi₂
        obtain ⟨s₃, s', happ, hrest⟩ := entry_ok ih hs hcur hgood₂
          (fun i hi => (hkeeps₁ i hi).trans (hgrew₂.others i (by omega) (by omega)))
          (m := dir.nodes + 1) (by omega)
          (l := ⟨s.freeinode, .dir (allEntries dir s.freeinode cur (s.freeinode + 1))⟩ ::
            made dir s.freeinode (s.freeinode + 1))
          (by rw [hfb₂, hfb₁, hbytes₂, blocksOf_dir, Nat.add_assoc, Nat.add_comm (blocksOf _)])
          (by omega) hroomy
        refine ⟨s', ?_⟩
        rw [hialloc]
        simp only [Option.bind_eq_bind, Option.bind_some, hdir, happ, hrest]

end Cs537.Mkfs
