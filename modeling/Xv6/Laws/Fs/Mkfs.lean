import Xv6.Laws.Fs.Append

/-!
# The images that `mkfs` makes

What `iappend` has appended the kernel reads back, as long as the file needs no more than the direct
and the singly indirect blocks. A finished image is consistent but for one thing: `fixRoot` rounds
the size of the root directory up to the next block and adds a whole block when the entries fill
their blocks already, and this block has no address.
-/

namespace Xv6

open Function Xv6.Lib

namespace MkFs

variable {m m' m₀ : MkFs} {i : Inum} {b : Nat} {type : BitVec 16}

/-! ## Allocating inodes -/

theorem init_blk (h : b ≠ 1) : init.blk b = Bytes.zero := by
  unfold init
  simp only [update_of_ne h]

theorem init_inodes : init.inodes i = {} := by
  have hne : IBLOCK i ≠ 1 := by
    have := (IBLOCK_range i.isLt).1
    simp only [LOGSIZE, MAXOPBLOCKS] at this
    omega
  show (init.blk (IBLOCK i)).dinode (i % IPB) = _
  rw [init_blk hne, Block.dinode_zero]

theorem init_formed : Formed init := by
  have hroot : ∀ r, (init.vol init.inodes).root r = 0 := by
    intro r
    show (if (init.inodes r.1).type = 0 then 0 else _) = 0
    rw [init_inodes, if_pos rfl]
  refine ⟨⟨?_, by decide, ?_⟩, ?_, ?_, ?_, ?_, ?_⟩
  · refine Vol.sound_of_empty hroot fun b _ => ?_
    show decide (b < nmeta) = true ↔ _
    rw [decide_eq_true_eq]
  · intro b hb _
    have : 1 < nmeta := by decide
    have hb : nmeta ≤ b := hb
    exact init_blk (by omega)
  · intro i htype
    exact absurd (show (init.inodes i).type = 0 by rw [init_inodes]) htype
  · intro i bn hne
    obtain ⟨k, js, hp⟩ := Vol.exists_path hne
    rw [Vol.lookup_eq hp] at hne
    exact absurd (show follow _ _ js = 0 by rw [hroot, follow_zero]) hne
  · intro i h1 h2
    have h2 : i.val < 1 := h2
    omega
  · intro i _
    exact init_inodes
  · intro b hb _
    have : 1 < mkfs.bmapstart := by decide
    exact init_blk (by omega)

/-- A new inode is an empty file. -/
theorem ialloc_spec (hF : Formed m) (h : m.ialloc type = some (i.val, m'))
    (htype : type = T_DIR ∨ type = T_FILE) :
    i.val = m.freeinode ∧ Formed m' ∧ m'.inodes = update m.inodes i { type, nlink := 1 } ∧
      m'.image.area = m.image.area ∧ m'.freeinode = m.freeinode + 1 ∧ m'.freeblock = m.freeblock ∧
      (m'.vol m'.inodes).addr = (m.vol m.inodes).addr ∧ ∀ k, (m'.vol m'.inodes).root (i, k) = 0 := by
  obtain ⟨m₁, hw, heq⟩ := Option.map_eq_some_iff.mp h
  obtain ⟨hi, rfl⟩ := Prod.mk.inj heq
  rw [hi] at hw
  obtain ⟨hin, hvol, hblk, hfi, hfb⟩ := winode_spec hw
  have hin : m₁.inodes = update m.inodes i { type, nlink := 1 } := hin
  have hfi : m₁.freeinode = m.freeinode + 1 := by
    rw [hi]
    exact hfi
  have hfb : m₁.freeblock = m.freeblock := hfb
  have hold : m.inodes i = {} := hF.fresh i (by omega)
  have hV : ∀ cur, m₁.vol cur = m.vol cur := hvol
  have harea : m₁.image.area = m.image.area := congrArg Vol.area (hV m.inodes)
  have hroot : (m₁.vol m₁.inodes).root = (m.vol m.inodes).root := by
    funext r
    show (if (m₁.inodes r.1).type = 0 then 0 else ((m₁.inodes r.1).addrs r.2).toNat) =
      if (m.inodes r.1).type = 0 then 0 else ((m.inodes r.1).addrs r.2).toNat
    rw [hin]
    by_cases hr : r.1 = i
    · rw [hr, update_self, hold, if_pos rfl]
      split <;> rfl
    · rw [update_of_ne hr]
  have haddr : (m₁.vol m₁.inodes).addr = (m.vol m.inodes).addr := Vol.addr_congr hroot harea
  have hlook : (m₁.vol m₁.inodes).lookup = (m.vol m.inodes).lookup := by
    funext j bn
    unfold Vol.lookup
    rw [haddr]
  have hnull : ∀ k, (m₁.vol m₁.inodes).root (i, k) = 0 := by
    intro k
    rw [hroot]
    show (if (m.inodes i).type = 0 then 0 else _) = 0
    rw [hold, if_pos rfl]
  refine ⟨hi.symm, ⟨⟨?_, ?_, ?_⟩, ?_, ?_, ?_, ?_, ?_⟩, hin, harea, hfi, hfb, haddr, hnull⟩
  · refine hF.good.sound.congr hroot harea fun b _ => ?_
    show decide (b < m₁.freeblock) = decide (b < m.freeblock)
    rw [hfb]
  · rw [hfb]
    exact hF.good.le
  · intro b hb hb'
    rw [hfb] at hb
    have := hF.good.nmeta_le
    have := (IBLOCK_range i.isLt).2
    have := bmapstart_le_nmeta
    rw [hblk b (by omega)]
    exact hF.good.zero b hb hb'
  · intro j hj bn hbn
    rw [hlook]
    have hj : (m₁.inodes j).type ≠ 0 := hj
    have hbn : bn * BSIZE < (m₁.inodes j).size.toNat := hbn
    by_cases hji : j = i
    · rw [hin, hji, update_self] at hbn
      exact absurd hbn (Nat.not_lt_zero _)
    · rw [hin, update_of_ne hji] at hj hbn
      exact hF.mapped j hj bn hbn
  · intro j bn hne
    rw [hlook] at hne
    have hlt := hF.tight j bn hne
    by_cases hji : j = i
    · rw [hji, hold] at hlt
      exact absurd hlt (Nat.not_lt_zero _)
    · rw [hin, update_of_ne hji]
      exact hlt
  · intro j hj hj'
    by_cases hji : j = i
    · rw [hin, hji, update_self]
      exact htype
    · have : j.val ≠ i.val := fun e => hji (Fin.ext e)
      rw [hin, update_of_ne hji]
      exact hF.kinds j hj (by omega)
  · intro j hj
    have hji : j ≠ i := by
      rintro rfl
      omega
    rw [hin, update_of_ne hji]
    exact hF.fresh j (by omega)
  · intro b hb hb'
    have := (IBLOCK_range i.isLt).2
    rw [hblk b (by omega)]
    exact hF.clean b hb hb'

theorem ialloc_total (hi : m.freeinode = i.val) : ∃ m', m.ialloc type = some (i.val, m') := by
  unfold ialloc
  rw [hi, winode_eq]
  exact ⟨_, rfl⟩

/-- The images that `ialloc` and `iappend` make out of the empty one, called as `main` does: for
files and directories, and for inodes that exist. -/
inductive Made : MkFs → Prop
  | init : Made init
  | ialloc {m m' : MkFs} {type : BitVec 16} {i : Inum} : Made m → type = T_DIR ∨ type = T_FILE →
      m.ialloc type = some (i.val, m') → Made m'
  | iappend {m m' : MkFs} {i : Inum} {bytes : List Byte} : Made m → 0 < i.val →
      i.val < m.freeinode → m.iappend i bytes = some m' → Made m'

theorem kind_ne_zero (h : type = T_DIR ∨ type = T_FILE) : type ≠ 0 ∧ type ≠ T_DEV := by
  rcases h with rfl | rfl <;> exact ⟨by decide, by decide⟩

theorem Made.formed (h : Made m) : Formed m := by
  induction h with
  | init => exact init_formed
  | ialloc _ htype h ih => exact (ialloc_spec ih h htype).2.1
  | iappend _ h0 hlt h ih => exact (iappend_spec ih (kind_ne_zero (ih.kinds _ h0 hlt)).1 h).formed

/-! ## The kernel reads what was appended -/

/-- The blocks of a new file are new, and only they and the inode's own block have changed. -/
theorem Extended.fresh {bytes : List Byte} (h : Extended i bytes m₀ m') (hF : Formed m₀)
    (hempty : ∀ k, (m₀.vol m₀.inodes).root (i, k) = 0) (hne : b ≠ IBLOCK i)
    (hchanged : m'.blk b ≠ m₀.blk b) :
    (∃ k p, p.length ≤ Vol.depth (i, k) ∧ (m'.vol m'.inodes).addr (i, k) p = b) ∧
      m₀.freeblock ≤ b ∧ b < m'.freeblock := by
  have hdata : nmeta ≤ b ∧ b < FSSIZE := by
    by_contra hout
    exact hchanged (h.outside b (by omega) hne)
  have hb0 : b ≠ 0 := by
    have : 0 < nmeta := by decide
    omega
  have htree : ∃ k p, p.length ≤ Vol.depth (i, k) ∧ (m'.vol m'.inodes).addr (i, k) p = b := by
    by_contra hno
    have harea : m'.image.area b = m₀.image.area b :=
      h.frame b hb0 fun k p hp e => hno ⟨k, p, hp, e⟩
    rw [FsImage.area_of_mem hdata.1 hdata.2, FsImage.area_of_mem hdata.1 hdata.2] at harea
    exact hchanged harea
  refine ⟨htree, ?_, ?_⟩
  · obtain ⟨k, p, hp, he⟩ := htree
    -- an older block belongs to another inode, and keeps doing so
    by_contra hlt
    have hused : (m₀.vol m₀.inodes).used b = true := decide_eq_true (Nat.lt_of_not_le hlt)
    rcases (hF.good.sound.bits b hdata.2).1 hused with hmeta | ⟨r, q, hq, hr⟩
    · omega
    · have hkeep := h.keep r q hq (show (m₀.vol m₀.inodes).addr r q ≠ 0 by
        rw [show (m₀.vol m₀.inodes).addr r q = b from hr]
        exact hb0)
      have hr' : (m'.vol m'.inodes).addr r q = b := hkeep.trans hr
      obtain ⟨rfl, rfl⟩ := h.formed.good.sound.forest.inj r (i, k) q p hq hp
        (show (m'.vol m'.inodes).addr r q ≠ 0 by rw [hr']; exact hb0) (hr'.trans he.symm)
      rw [hempty k, follow_zero] at hr
      exact hb0 hr.symm
  · obtain ⟨k, p, hp, he⟩ := htree
    exact of_decide_eq_true ((h.formed.good.sound.bits b hdata.2).2 (.inr ⟨(i, k), p, hp, he⟩))

/-- **The kernel and `mkfs` agree on the layout of files up to the singly indirect blocks.** A byte
string of at most `MAXFILE` blocks that fits on the image is appended to a new inode in pieces of
any sizes. The kernel's `readi` then returns exactly string, and the only blocks written are
those allocated for the inode and the one that it lies in, if and only if the string needs no double
indirect block. -/
theorem iappend_reads_back (hm : Made m) (pieces : List (List Byte))
    (htype : type = T_DIR ∨ type = T_FILE) (ha : m.ialloc type = some (i.val, m₀))
    (hlen : pieces.flatten.length ≤ MAXFILE * BSIZE)
    (hfit : m.freeblock + (FsImage.ways i 0 pieces.flatten.length).card ≤ FSSIZE) :
    (∃ m', pieces.foldlM (fun m p => m.iappend i p) m₀ = some m' ∧
      m'.image.readi (m'.image.dinode i) 0 (.ofNat 32 pieces.flatten.length) =
        some (.done pieces.flatten, m'.image, m'.image.dinode i) ∧
      ∀ b, m'.blk b ≠ m₀.blk b → b ≠ IBLOCK i →
        (∃ k p, p.length ≤ Vol.depth (i, k) ∧ (m'.vol m'.inodes).addr (i, k) p = b) ∧
          m₀.freeblock ≤ b ∧ b < m'.freeblock) ↔
    pieces.flatten.length ≤ (NDIRECT + NINDIRECT) * BSIZE := by
  obtain ⟨hi, hF, hin, -, -, hfb, -, hempty⟩ := ialloc_spec hm.formed ha htype
  have hnew : m₀.inodes i = { type, nlink := 1 } := by rw [hin, update_self]
  have hsize : (m₀.inodes i).size.toNat = 0 := by rw [hnew]; rfl
  obtain ⟨ht0, htd⟩ := kind_ne_zero htype
  have ht : (m₀.inodes i).type ≠ 0 := by rw [hnew]; exact ht0
  constructor
  · rintro ⟨m', h, -, -⟩
    have hext := appends_spec hF ht h
    by_cases hz : pieces.flatten = []
    · rw [hz]
      exact Nat.zero_le _
    · have := hext.short hz
      have := hext.size
      omega
  · intro hshort
    have hroom : (m₀.vol m₀.inodes).Room (FsImage.ways i 0 pieces.flatten.length) := by
      unfold Vol.Room
      rw [card_free, hfb]
      have := Finset.card_le_card (Finset.filter_subset
        (fun x => (m₀.vol m₀.inodes).addr x.1 x.2 = 0) (FsImage.ways i 0 pieces.flatten.length))
      unfold Vol.gap
      omega
    have htotal : ∃ m', pieces.foldlM (fun m p => m.iappend i p) m₀ = some m' :=
      appends_total FsImage.paths_ways hF ht hroom (by omega) fun o h1 h2 =>
        FsImage.places_subset_ways (Nat.zero_le o) (by omega)
    obtain ⟨m', h⟩ := htotal
    have hext := appends_spec hF ht h
    refine ⟨m', h, ?_, fun b hb hne => hext.fresh hF hempty hne hb⟩
    have htype' : (m'.image.dinode i).type = type := hext.type.trans (by rw [hnew])
    have hcont : (m'.vol m'.inodes).contents i = pieces.flatten := by
      have hnil : (m₀.vol m₀.inodes).contents i = [] := by
        apply List.eq_nil_of_length_eq_zero
        rw [Vol.length_contents]
        exact hsize
      rw [hext.contents, hnil, List.nil_append]
    have hcur : (m'.vol m'.inodes).cur i = m'.image.dinode i := rfl
    have hread := FsImage.readi_spec (s := m'.image) hext.formed.consistent rfl hcur
      (by rw [htype']; exact ht0) (by rw [htype']; exact htd) 0 (.ofNat 32 pieces.flatten.length)
    have hn : (BitVec.ofNat 32 pieces.flatten.length).toNat = pieces.flatten.length := by
      have : MAXFILE * BSIZE < 2 ^ 32 := by decide
      rw [BitVec.toNat_ofNat, Nat.mod_eq_of_lt (by omega)]
    rw [hread, if_neg (by simp), hcont, hn]
    simp

/-- Two pieces for the first inode of an empty image. -/
theorem iappend_reads_back_two : ∃ m₀ m', init.ialloc T_FILE = some (1, m₀) ∧
    [[1#8], [2#8, 3#8]].foldlM (fun m p => m.iappend 1 p) m₀ = some m' ∧
    m'.image.readi (m'.image.dinode 1) 0 3 = some (.done [1, 2, 3], m'.image, m'.image.dinode 1) := by
  obtain ⟨m₀, ha⟩ := ialloc_total (m := init) (i := ⟨1, by decide⟩) rfl
  have hcard := FsImage.card_ways_le (i := ⟨1, by decide⟩) (n := 3) (m := 1) (by decide)
  have hfit : init.freeblock + (FsImage.ways ⟨1, by decide⟩ 0 3).card ≤ FSSIZE :=
    Nat.le_trans (Nat.add_le_add_left hcard _) (by decide)
  obtain ⟨m', h, hread, -⟩ := (iappend_reads_back .init [[1], [2, 3]] (.inr rfl) ha (by decide)
    hfit).2 (by decide)
  exact ⟨m₀, m', ha, h, hread⟩

/-- One byte too many for the singly indirect block: the write leaves the array `indirect`. -/
theorem iappend_long_fails : ∃ m₀, init.ialloc T_FILE = some (1, m₀) ∧
    (List.replicate 70657 1#8).length ≤ MAXFILE * BSIZE ∧
    init.freeblock + (FsImage.ways ⟨1, by decide⟩ 0 70657).card ≤ FSSIZE ∧
    m₀.iappend 1 (List.replicate 70657 1#8) = none := by
  obtain ⟨m₀, ha⟩ := ialloc_total (m := init) (i := ⟨1, by decide⟩) rfl
  have hcard := FsImage.card_ways_le (i := ⟨1, by decide⟩) (n := 70657) (m := 139) (by decide)
  obtain ⟨-, hF, hin, -⟩ := ialloc_spec init_formed ha (.inr rfl)
  refine ⟨m₀, ha, ?_, Nat.le_trans (Nat.add_le_add_left hcard _) (by decide), ?_⟩
  · rw [List.length_replicate]
    decide
  · cases h : m₀.iappend 1 (List.replicate 70657 1#8) with
    | none => rfl
    | some m' =>
      have hext := iappend_spec (i := ⟨1, by decide⟩) hF
        (by rw [hin, update_self]; exact by decide) h
      have hsize := hext.size
      have hshort := hext.short (by rw [List.replicate_succ]; exact List.cons_ne_nil _ _)
      rw [List.length_replicate] at hsize
      have : (NDIRECT + NINDIRECT) * BSIZE < 70657 := by decide
      omega

/-! ## The finished image -/

/-- The root directory. -/
def rootInum : Inum := ⟨ROOTINO, by decide⟩

/-- The image while `main` runs, with `e` entries in the root directory: itself twice, and then one
for each inode. -/
structure Rooted (e : Nat) (m : MkFs) : Prop where
  formed : Formed m
  type : (m.inodes rootInum).type = T_DIR
  size : (m.inodes rootInum).size.toNat = 16 * e
  freeinode : m.freeinode = e

theorem length_dirent {inum : Nat} {name : List Byte} : (dirent inum name).length = 16 := by
  unfold dirent
  rw [List.length_append, List.length_map, List.length_range]
  rfl

/-- An entry is appended to the root directory. -/
theorem Rooted.entry {e inum : Nat} {name : List Byte} (hF : Formed m)
    (htype : (m.inodes rootInum).type = T_DIR) (hsize : (m.inodes rootInum).size.toNat = 16 * e)
    (h : m.iappend ROOTINO (dirent inum name) = some m') :
    Extended rootInum (dirent inum name) m m' ∧ (m'.inodes rootInum).type = T_DIR ∧
      (m'.inodes rootInum).size.toNat = 16 * (e + 1) := by
  have hext := iappend_spec (i := rootInum) hF (by rw [htype]; decide) h
  refine ⟨hext, hext.type.trans htype, ?_⟩
  rw [hext.size, hsize, length_dirent]
  omega

theorem makeRoot_spec (h : makeRoot = some m) : Rooted 2 m := by
  obtain ⟨⟨ino, m₀⟩, ha, h⟩ := Option.bind_eq_some_iff.mp h
  simp only at h
  split at h
  next hino =>
    subst hino
    obtain ⟨-, hF, hin, -, hfi, -⟩ := ialloc_spec (i := rootInum) init_formed ha (.inl rfl)
    have hnew : m₀.inodes rootInum = { type := T_DIR, nlink := 1 } := by
      rw [hin, update_self]
    obtain ⟨m₁, h₁, h⟩ := Option.bind_eq_some_iff.mp h
    obtain ⟨hx₁, ht₁, hs₁⟩ := Rooted.entry (e := 0) hF (by rw [hnew]) (by rw [hnew]; rfl) h₁
    obtain ⟨hx₂, ht₂, hs₂⟩ := Rooted.entry hx₁.formed ht₁ hs₁ h
    refine ⟨hx₂.formed, ht₂, hs₂, ?_⟩
    rw [hx₂.freeinode, hx₁.freeinode, hfi]
    rfl
  next => cases h

theorem addFile_spec {e : Nat} {file : HostFile} (hm : Rooted e m) (he : 2 ≤ e) (hnum : e < NINODES)
    (h : m.addFile file = some m') : Rooted (e + 1) m' := by
  unfold addFile at h
  split at h
  next => cases h
  next =>
    obtain ⟨⟨inum, m₀⟩, ha, h⟩ := Option.bind_eq_some_iff.mp h
    simp only at h
    obtain ⟨m₁, h₁, h⟩ := Option.bind_eq_some_iff.mp h
    have hinum : inum = m.freeinode := by
      obtain ⟨_, -, heq⟩ := Option.map_eq_some_iff.mp ha
      exact (Prod.mk.inj heq).1.symm
    obtain ⟨i, rfl⟩ : ∃ i : Inum, i.val = inum := ⟨⟨inum, by rw [hinum, hm.freeinode]; exact hnum⟩, rfl⟩
    have hir : rootInum ≠ i := by
      rintro rfl
      rw [hm.freeinode] at hinum
      have : rootInum.val = 1 := rfl
      omega
    obtain ⟨-, hF, hin, -, hfi, -⟩ := ialloc_spec hm.formed ha (.inr rfl)
    have hroot : m₀.inodes rootInum = m.inodes rootInum := by
      rw [hin, update_of_ne hir]
    obtain ⟨hx₁, ht₁, hs₁⟩ := Rooted.entry hF (by rw [hroot]; exact hm.type)
      (by rw [hroot]; exact hm.size) h₁
    have hi : (m₁.inodes i).type ≠ 0 := by
      rw [hx₁.others i (Ne.symm hir), hin, update_self]
      exact by decide
    have hx₂ := appends_spec hx₁.formed hi h
    have hroot₂ := hx₂.others rootInum hir
    refine ⟨hx₂.formed, ?_, ?_, ?_⟩
    · rw [hroot₂]
      exact ht₁
    · rw [hroot₂]
      exact hs₁
    · rw [hx₂.freeinode, hx₁.freeinode, hfi, hm.freeinode]

theorem addFiles_spec : ∀ {files : List HostFile} {e : Nat} {m : MkFs}, Rooted e m → 2 ≤ e →
    e + files.length ≤ NINODES → files.foldlM addFile m = some m' →
    Rooted (e + files.length) m' := by
  intro files
  induction files with
  | nil =>
    intro e m hm _ _ h
    cases h
    exact hm
  | cons file files ih =>
    intro e m hm he hnum h
    rw [List.length_cons] at hnum ⊢
    obtain ⟨m₁, h₁, h⟩ := Option.bind_eq_some_iff.mp h
    have := ih (addFile_spec hm he (by omega) h₁) (by omega) (by omega) h
    rwa [Nat.add_right_comm, Nat.add_assoc] at this

/-- The volume of a finished image: as before the end of `main`, but for the root's size. -/
theorem finish_vol {e : Nat} (hm : Rooted e m) (h : m.fixRoot.bind balloc = some m') :
    (m'.image.vol fun i => m'.image.dinode i).Sound ∧
      (m'.image.vol fun i => m'.image.dinode i).cur = update m.inodes rootInum
        { m.inodes rootInum with size := .ofNat 32 ((e / 32 + 1) * BSIZE) } ∧
      (m'.image.vol fun i => m'.image.dinode i).lookup = (m.vol m.inodes).lookup ∧
      (m'.image.vol fun i => m'.image.dinode i).free.Nonempty := by
  obtain ⟨m₁, hfix, h⟩ := Option.bind_eq_some_iff.mp h
  unfold fixRoot at hfix
  rw [show ROOTINO = rootInum.val from rfl, rinode_eq, Option.bind_some] at hfix
  obtain ⟨hin, hvol, hblk, -, hfb⟩ := winode_spec hfix
  have hdiv : 16 * e / BSIZE = e / 32 := by
    simp only [BSIZE]
    omega
  rw [hm.size, hdiv] at hin
  unfold balloc at h
  split at h
  next hlt =>
    cases h
    have hbm : mkfs.bmapstart < nmeta := by decide
    -- the bitmap lies outside inodes and data
    have hinodes : ∀ i : Inum, (m₁.wsect mkfs.bmapstart (bitmap m₁.freeblock)).image.dinode i =
        m₁.inodes i := by
      intro i
      have := (IBLOCK_range i.isLt).2
      show ((m₁.wsect mkfs.bmapstart (bitmap m₁.freeblock)).blk (IBLOCK i)).dinode (i % IPB) = _
      rw [blk_wsect_ne (by omega)]
      rfl
    have harea : (m₁.wsect mkfs.bmapstart (bitmap m₁.freeblock)).image.area = m.image.area := by
      have hfirst : (m₁.wsect mkfs.bmapstart (bitmap m₁.freeblock)).image.area = m₁.image.area :=
        FsImage.area_logWrite_meta (s := m₁.image) hbm
      exact hfirst.trans (congrArg Vol.area (hvol m.inodes))
    have hcur : ((m₁.wsect mkfs.bmapstart (bitmap m₁.freeblock)).image.vol fun i =>
        (m₁.wsect mkfs.bmapstart (bitmap m₁.freeblock)).image.dinode i).cur =
        ((m.vol m.inodes).setSize rootInum (.ofNat 32 ((e / 32 + 1) * BSIZE))).cur := by
      show (fun i : Inum => (m₁.wsect mkfs.bmapstart (bitmap m₁.freeblock)).image.dinode i) = _
      rw [funext hinodes, hin]
      rfl
    have hroot := (Vol.root_congr hcur).trans Vol.root_setSize
    have haddr := Vol.addr_congr hroot harea
    have hbit : ∀ b, b < FSSIZE →
        (m₁.wsect mkfs.bmapstart (bitmap m₁.freeblock)).image.bit b = decide (b < m₁.freeblock) := by
      have hfirst : (m₁.wsect mkfs.bmapstart (bitmap m₁.freeblock)).image.blk mkfs.bmapstart =
          bitmap m₁.freeblock := by
        show (m₁.wsect mkfs.bmapstart (bitmap m₁.freeblock)).blk mkfs.bmapstart = _
        rw [blk_wsect_self]
      have hrest : ∀ c, mkfs.bmapstart < c → c < nmeta →
          (m₁.wsect mkfs.bmapstart (bitmap m₁.freeblock)).image.blk c = Bytes.zero := by
        intro c hc hc'
        have := (IBLOCK_range rootInum.isLt).2
        show (m₁.wsect mkfs.bmapstart (bitmap m₁.freeblock)).blk c = _
        rw [blk_wsect_ne (by omega), hblk c (by omega)]
        exact hm.formed.clean c (by omega) hc'
      intro b hb
      exact FsImage.bit_of_bitmap (Nat.le_of_lt hlt) hfirst fun h => hrest _ h (BBLOCK_range hb).2
    refine ⟨?_, hcur, ?_, ?_⟩
    · refine hm.formed.good.sound.congr hroot harea fun b hb => ?_
      rw [FsImage.used_vol hb, hbit b hb, hfb]
      rfl
    · funext j bn
      unfold Vol.lookup
      rw [haddr]
    · have hsmall : BSIZE * 8 < FSSIZE := by decide
      refine ⟨BSIZE * 8, Finset.mem_filter.2 ⟨Finset.mem_range.2 hsmall, ?_⟩⟩
      rw [FsImage.used_vol hsmall, hbit _ hsmall]
      exact decide_eq_false (Nat.lt_asymm hlt)
  next => cases h

/-- The block that the rounding adds to the root directory has an address unless the entries fill
their blocks. -/
theorem finish_mapped {e : Nat} (hm : Rooted e m) (he : e < NINODES + 2)
    (h : m.fixRoot.bind balloc = some m') :
    (∀ i, (m'.image.vol fun i => m'.image.dinode i).Mapped i) ↔ e % 32 ≠ 0 := by
  obtain ⟨-, hcur, hlook, -⟩ := finish_vol hm h
  have he : e < 202 := he
  have hsz : (BitVec.ofNat 32 ((e / 32 + 1) * BSIZE)).toNat = (e / 32 + 1) * 512 := by
    rw [BitVec.toNat_ofNat]
    simp only [BSIZE]
    omega
  have hsize := hm.size
  constructor
  · intro hmap hz
    have hroot := hmap rootInum
    unfold Vol.Mapped at hroot
    rw [hcur, update_self, hlook] at hroot
    have hlt : e / 32 * BSIZE < (BitVec.ofNat 32 ((e / 32 + 1) * BSIZE)).toNat := by
      rw [hsz]
      simp only [BSIZE]
      omega
    have hne := hroot (by rw [hm.type]; decide) (e / 32) hlt
    have := hm.formed.tight rootInum (e / 32) hne
    simp only [BSIZE] at this
    omega
  · intro hz i
    unfold Vol.Mapped
    rw [hcur, hlook]
    by_cases hi : i = rootInum
    · subst hi
      rw [update_self]
      intro ht bn hbn
      have hbn : bn * BSIZE < (BitVec.ofNat 32 ((e / 32 + 1) * BSIZE)).toNat := hbn
      rw [hsz] at hbn
      simp only [BSIZE] at hbn
      refine hm.formed.mapped rootInum ht bn ?_
      show bn * BSIZE < (m.inodes rootInum).size.toNat
      simp only [BSIZE]
      omega
    · rw [update_of_ne hi]
      exact hm.formed.mapped i

/-- A freshly made image is consistent, and reading it allocates nothing. -/
def Consistent (s : FsImage) : Prop :=
  (s.vol fun i => s.dinode i).Consistent ∧
    ∀ i : Inum, (s.dinode i).type ≠ 0 → ∀ off n, ∃ r, s.readi (s.dinode i) off n = some (r, s, s.dinode i)

theorem consistent_of_vol {s : FsImage} (h : (s.vol fun i => s.dinode i).Consistent) :
    Consistent s := by
  refine ⟨h, fun i htype off n => ?_⟩
  by_cases hdev : (s.dinode i).type = T_DEV
  · exact ⟨.device, by unfold FsImage.readi; rw [if_pos hdev]⟩
  · have hread := FsImage.readi_spec h rfl (show (s.vol fun i => s.dinode i).cur i = s.dinode i from rfl)
      htype hdev off n
    split at hread
    next => exact ⟨_, hread⟩
    next => exact ⟨_, hread⟩

/-! ## `mkfs` comes to its end -/

theorem Extended.freeblock_le {bytes : List Byte} (h : Extended i bytes m m') :
    m'.freeblock ≤ m.freeblock + 4 * bytes.length := by
  have hbal := h.balance (FsImage.ways i (m.inodes i).size.toNat bytes.length) FsImage.paths_ways
    fun o h1 h2 => FsImage.places_subset_ways h1 h2
  have hgap : ((m.vol m.inodes).gap (FsImage.ways i (m.inodes i).size.toNat bytes.length)).card ≤
      bytes.length * 4 :=
    Nat.le_trans (Finset.card_le_card (Finset.filter_subset _ _)) FsImage.card_ways_le_mul
  have hle := h.formed.good.le
  rw [card_free, card_free] at hbal
  omega

/-- There is room for bytes if there are four blocks for each of them. -/
theorem room_of_le {off n : Nat} (h : m.freeblock + 4 * n ≤ FSSIZE) :
    (m.vol m.inodes).Room (FsImage.ways i off n) := by
  have hgap : ((m.vol m.inodes).gap (FsImage.ways i off n)).card ≤ n * 4 :=
    Nat.le_trans (Finset.card_le_card (Finset.filter_subset _ _)) FsImage.card_ways_le_mul
  unfold Vol.Room
  rw [card_free]
  omega

theorem entry_total {e : Nat} (inum : Nat) (name : List Byte) (hF : Formed m)
    (htype : (m.inodes rootInum).type = T_DIR) (hsize : (m.inodes rootInum).size.toNat = 16 * e)
    (he : e < 4000) (hfit : m.freeblock + 64 ≤ FSSIZE) :
    ∃ m', m.iappend ROOTINO (dirent inum name) = some m' := by
  have hlen : (dirent inum name).length = 16 := length_dirent
  have hshort : 70656 ≤ (NDIRECT + NINDIRECT) * BSIZE := by decide
  exact iappend_total (i := rootInum) (S := FsImage.ways rootInum (16 * e) 16) hF
    (by rw [htype]; decide) FsImage.paths_ways (room_of_le (by omega)) (by omega) fun o h1 h2 =>
      FsImage.places_subset_ways (by omega) (by omega)

theorem makeRoot_total : ∃ m, makeRoot = some m ∧ m.freeblock ≤ nmeta + 128 := by
  obtain ⟨m₀, ha⟩ := ialloc_total (m := init) (i := rootInum) rfl
  obtain ⟨-, hF, hin, -, -, hfb, -⟩ := ialloc_spec init_formed ha (.inl rfl)
  have hnew : m₀.inodes rootInum = { type := T_DIR, nlink := 1 } := by
    rw [hin, update_self]
  have hsmall : nmeta + 128 + 64 ≤ FSSIZE := by decide
  have hfb : m₀.freeblock = nmeta := hfb
  obtain ⟨m₁, h₁⟩ := entry_total (e := 0) ROOTINO [0x2e] hF (by rw [hnew])
    (by rw [hnew]; rfl) (by omega) (by omega)
  obtain ⟨hx₁, ht₁, hs₁⟩ := Rooted.entry (e := 0) hF (by rw [hnew]) (by rw [hnew]; rfl) h₁
  have hle₁ := hx₁.freeblock_le
  rw [length_dirent] at hle₁
  obtain ⟨m₂, h₂⟩ := entry_total ROOTINO [0x2e, 0x2e] hx₁.formed ht₁ hs₁
    (by omega) (by omega)
  obtain ⟨hx₂, -, -⟩ := Rooted.entry hx₁.formed ht₁ hs₁ h₂
  have hle₂ := hx₂.freeblock_le
  rw [length_dirent] at hle₂
  refine ⟨m₂, ?_, by omega⟩
  unfold makeRoot
  rw [show init.ialloc T_DIR = some (ROOTINO, m₀) from ha]
  simp only [Option.bind_some, if_true, h₁, h₂]

/-- A bound for the blocks that a file takes, its entry included. -/
def cost (file : HostFile) : Nat := 4 * (16 + file.reads.flatten.length)

theorem addFile_total {e : Nat} {file : HostFile} (hm : Rooted e m) (he : 2 ≤ e) (hnum : e < NINODES)
    (hname : 0x2f ∉ file.name) (hfit : m.freeblock + cost file ≤ BSIZE * 8) :
    ∃ m', m.addFile file = some m' ∧ m'.freeblock ≤ m.freeblock + cost file := by
  unfold cost at hfit ⊢
  have hconst : BSIZE * 8 + 0 ≤ FSSIZE ∧ BSIZE * 8 ≤ (NDIRECT + NINDIRECT) * BSIZE := by decide
  have hnum' : NINODES = 200 := rfl
  obtain ⟨i, hi⟩ : ∃ i : Inum, i.val = e := ⟨⟨e, hnum⟩, rfl⟩
  have hir : rootInum ≠ i := by
    rintro rfl
    have : rootInum.val = 1 := rfl
    omega
  obtain ⟨m₀, ha⟩ := ialloc_total (hm.freeinode.trans hi.symm)
  obtain ⟨-, hF, hin, -, -, hfb, -⟩ := ialloc_spec hm.formed ha (.inr rfl)
  have hroot : m₀.inodes rootInum = m.inodes rootInum := by rw [hin, update_of_ne hir]
  obtain ⟨m₁, h₁⟩ := entry_total i (skipUnderscore file.name) hF
    (by rw [hroot]; exact hm.type) (by rw [hroot]; exact hm.size) (by omega) (by omega)
  obtain ⟨hx₁, -, -⟩ := Rooted.entry hF (by rw [hroot]; exact hm.type)
    (by rw [hroot]; exact hm.size) h₁
  have hle₁ := hx₁.freeblock_le
  rw [length_dirent] at hle₁
  have hnew : m₁.inodes i = { type := T_FILE, nlink := 1 } := by
    rw [hx₁.others i (Ne.symm hir), hin, update_self]
  have hsize : (m₁.inodes i).size.toNat = 0 := by rw [hnew]; rfl
  have htype : (m₁.inodes i).type ≠ 0 := by rw [hnew]; exact by decide
  have htotal : ∃ m', file.reads.foldlM (fun m buf => m.iappend i buf) m₁ = some m' :=
    appends_total (S := FsImage.ways i 0 file.reads.flatten.length) FsImage.paths_ways hx₁.formed htype
      (room_of_le (by omega)) (by omega) fun o h1 h2 =>
        FsImage.places_subset_ways (Nat.zero_le o) (by omega)
  obtain ⟨m₂, h₂⟩ := htotal
  have hle₂ := (appends_spec hx₁.formed htype h₂).freeblock_le
  refine ⟨m₂, ?_, by omega⟩
  unfold addFile
  rw [if_neg hname, ha]
  simp only [Option.bind_some, h₁]
  exact h₂

theorem addFiles_total : ∀ {files : List HostFile} {e : Nat} {m : MkFs}, Rooted e m → 2 ≤ e →
    e + files.length ≤ NINODES → (∀ file ∈ files, 0x2f ∉ file.name) →
    m.freeblock + (files.map cost).sum ≤ BSIZE * 8 →
    ∃ m', files.foldlM addFile m = some m' ∧ m'.freeblock ≤ m.freeblock + (files.map cost).sum := by
  intro files
  induction files with
  | nil =>
    intro e m _ _ _ _ _
    exact ⟨m, rfl, Nat.le_refl _⟩
  | cons file files ih =>
    intro e m hm he hnum hnames hfit
    rw [List.length_cons] at hnum
    rw [List.map_cons, List.sum_cons] at hfit ⊢
    obtain ⟨m₁, h₁, hle₁⟩ := addFile_total hm he (by omega) (hnames file List.mem_cons_self)
      (by omega)
    obtain ⟨m', h, hle⟩ := ih (addFile_spec hm he (by omega) h₁) (by omega) (by omega)
      (fun f hf => hnames f (List.mem_cons_of_mem _ hf)) (by omega)
    refine ⟨m', ?_, by omega⟩
    rw [List.foldlM_cons, h₁]
    exact h

/-- Names without a slash, few inodes and few blocks: `main` comes to its end. -/
theorem main_total {files : List HostFile} (hnum : files.length + 1 < NINODES)
    (hnames : ∀ file ∈ files, 0x2f ∉ file.name)
    (hfit : nmeta + 128 + (files.map cost).sum < BSIZE * 8) : ∃ m, main files = some m := by
  obtain ⟨m₀, h₀, hle₀⟩ := makeRoot_total
  obtain ⟨m₁, h₁, hle₁⟩ := addFiles_total (makeRoot_spec h₀) (Nat.le_refl 2) (by omega) hnames
    (by omega)
  unfold main
  rw [h₀, Option.bind_some, h₁, Option.bind_some]
  unfold fixRoot
  rw [show ROOTINO = rootInum.val from rfl, rinode_eq, Option.bind_some, winode_eq, Option.bind_some]
  unfold balloc
  rw [if_pos]
  · exact ⟨_, rfl⟩
  · show m₁.freeblock < BSIZE * 8
    omega

/-- A program of two reads and a short text. -/
def twoFiles : List HostFile :=
  [{ name := [0x5f, 0x6c, 0x73], reads := [List.replicate 512 7, [8, 9]] },
    { name := [0x61], reads := [[1, 2, 3]] }]

theorem twoFiles_total : ∃ m, main twoFiles = some m :=
  main_total (by decide) (by decide) (by decide +kernel)

/-! ## Consistency -/

/-- **`mkfs` makes a consistent image unless the entries of the root directory fill its blocks.** -/
theorem image_consistent_iff {files : List HostFile} (hnum : files.length + 1 < NINODES)
    (h : main files = some m) : Consistent m.image ↔ (2 + files.length) % 32 ≠ 0 := by
  obtain ⟨m₀, hroot, h⟩ := Option.bind_eq_some_iff.mp h
  obtain ⟨m₁, hfiles, h⟩ := Option.bind_eq_some_iff.mp h
  have hm := addFiles_spec (makeRoot_spec hroot) (Nat.le_refl 2) (by omega) hfiles
  rw [← finish_mapped hm (by omega) h]
  constructor
  · intro hc
    exact hc.1.mapped
  · intro hmap
    exact consistent_of_vol ⟨(finish_vol hm h).1, hmap⟩

/-- An image with two files. -/
theorem image_consistent_iff_two : ∃ m, main twoFiles = some m ∧ Consistent m.image := by
  obtain ⟨m, h⟩ := twoFiles_total
  exact ⟨m, h, (image_consistent_iff (by decide) h).2 (by decide)⟩

/-- Thirty empty files: with its entries for itself the root directory has 32, two blocks by its
size and one by its addresses. -/
def thirty : List HostFile := List.replicate 30 { name := [0x61], reads := [] }

theorem thirty_total : ∃ m, main thirty = some m := by
  refine main_total (by decide) ?_ (by decide)
  intro file hfile
  rw [List.eq_of_mem_replicate hfile]
  exact by decide

theorem thirty_inconsistent : ∃ m, main thirty = some m ∧ ¬ Consistent m.image := by
  obtain ⟨m, h⟩ := thirty_total
  refine ⟨m, h, fun hc => ?_⟩
  obtain ⟨m₀, hroot, h⟩ := Option.bind_eq_some_iff.mp h
  obtain ⟨m₁, hfiles, h⟩ := Option.bind_eq_some_iff.mp h
  have hm := addFiles_spec (makeRoot_spec hroot) (Nat.le_refl 2) (by decide) hfiles
  exact (finish_mapped hm (by decide) h).1 hc.1.mapped rfl

end MkFs

end Xv6
