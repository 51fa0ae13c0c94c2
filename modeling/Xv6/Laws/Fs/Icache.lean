import Xv6.Lib.Machine
import Xv6.Laws.Fs.Dir
import Xv6.Laws.Fs.Mkfs
import Xv6.Laws.Fs.Trunc

/-!
# The inode cache

`Kept` is what every call keeps: the volume that the inodes on disk describe is consistent, and a
valid copy of an inode in use is the inode on disk. `bmap` writes to the copy alone, so a copy falls
behind unless `iupdate` follows; `writei` calls it when the size grows, and only then. In a
consistent volume nothing below the size is missing: an allocation is always one that makes the file
longer, and `readi` allocates nothing.

The image that `mkfs` makes of 30 files is not consistent, and there the first read of the root
directory's second block takes a block that the disk does not know of.
-/

namespace Xv6

open Function Xv6.Lib

namespace Vol

variable {V V' : Vol} {i : Inum}

theorem lookup_congr (htype : (V'.cur i).type = (V.cur i).type)
    (haddrs : (V'.cur i).addrs = (V.cur i).addrs) (harea : V'.area = V.area) :
    V'.lookup i = V.lookup i := by
  have haddr : ∀ k p, V'.addr (i, k) p = V.addr (i, k) p := by
    intro k p
    unfold addr ptr root
    rw [htype, haddrs, harea]
  funext bn
  unfold lookup
  simp only [haddr]

theorem Mapped.congr (h : V.Mapped i) (htype : (V'.cur i).type = (V.cur i).type)
    (hsize : (V'.cur i).size = (V.cur i).size) (haddrs : (V'.cur i).addrs = (V.cur i).addrs)
    (harea : V'.area = V.area) : V'.Mapped i := by
  unfold Mapped
  rw [htype, hsize, lookup_congr htype haddrs harea]
  exact h

end Vol

namespace FsImage

variable {s s' : FsImage} {ip ip' : Dinode} {i : Inum} {src : Nat → Byte} {off n : Word}

/-- The volume as the disk has it. -/
abbrev onDisk (s : FsImage) : Vol := s.vol fun i : Inum => s.dinode i

theorem update_onDisk (hip : s.dinode i = ip) :
    update (fun j : Inum => s.dinode j) i ip = fun j : Inum => s.dinode j := by
  rw [← hip]
  exact update_eq_self i fun j : Inum => s.dinode j

/-- The volume on disk, when one inode has changed and the disk has it. -/
theorem onDisk_of_update (hself : s'.dinode i = ip')
    (hothers : ∀ j : Inum, j ≠ i → s'.dinode j = s.dinode j) :
    s'.onDisk = s'.vol (update (fun j : Inum => s.dinode j) i ip') := by
  have hcur : (fun j : Inum => s'.dinode j) =
      update (fun j : Inum => s.dinode j) i ip' := by
    funext j
    by_cases hj : j = i
    · rw [hj, update_self]
      exact hself
    · rw [update_of_ne hj]
      exact hothers j hj
  rw [onDisk, hcur]

/-- What a call that holds the lock of inode `i` does to the disk, and to the copy it has. -/
structure WrittenBack (s : FsImage) (i : Inum) (ip : Dinode) (s' : FsImage) (ip' : Dinode) :
    Prop where
  consistent : s'.onDisk.Consistent
  self : s'.dinode i = ip'
  others : ∀ j : Inum, j ≠ i → s'.dinode j = s.dinode j
  type : ip'.type = ip.type

/-- A device or a range that is refused: nothing is done. -/
theorem writei_cases {r : Io Nat} (h : s.writei i ip src off n = some (r, s', ip')) :
    (s' = s ∧ ip' = ip) ∨ ∃ m, r = .done m := by
  unfold writei at h
  split at h
  · cases h
    exact .inl ⟨rfl, rfl⟩
  · split at h
    · cases h
      exact .inl ⟨rfl, rfl⟩
    · split at h
      · cases h
        exact .inl ⟨rfl, rfl⟩
      · obtain ⟨⟨s₁, ip₁, off₁⟩, -, h⟩ := Option.map_eq_some_iff.mp h
        dsimp only at h
        split at h
        · cases h
          exact .inr ⟨_, rfl⟩
        · cases h
          exact .inr ⟨_, rfl⟩

section Disk

variable (hV : s.onDisk.Consistent)

include hV

/-- `ialloc` takes an inode that is free on disk. -/
theorem ialloc_spec {type : BitVec 16} {inum : Nat}
    (h : s.ialloc type = some (inum, s')) : (s.dinode inum).type = 0 ∧ ∀ hlt : inum < NINODES,
      s'.onDisk.Consistent ∧ ∀ j : Inum, j ≠ ⟨inum, hlt⟩ → s'.dinode j = s.dinode j := by
  obtain ⟨i, hfind, heq⟩ := Option.map_eq_some_iff.mp h
  obtain ⟨rfl, rfl⟩ := Prod.mk.inj heq
  have hfree : (s.dinode i).type = 0 := by
    have hp := List.find?_some hfind
    rw [Bool.and_eq_true, beq_iff_eq] at hp
    exact hp.2
  refine ⟨hfree, fun hlt => ?_⟩
  have hothers : ∀ j : Inum, j ≠ ⟨i, hlt⟩ → (s.iupdate i { type }).dinode j = s.dinode j :=
    fun j hj => dinode_iupdate_ne fun he => hj (Fin.ext he)
  refine ⟨?_, hothers⟩
  have hvol : (s.iupdate i { type }).onDisk =
      s.vol (update (fun j : Inum => s.dinode j) ⟨i, hlt⟩ { type }) := by
    rw [onDisk_of_update dinode_iupdate_self hothers]
    exact vol_iupdate (i := ⟨i, hlt⟩)
  have hroot : (s.iupdate i { type }).onDisk.root = s.onDisk.root := by
    funext r
    unfold Vol.root
    rw [hvol]
    show (if (update (fun j : Inum => s.dinode j) ⟨i, hlt⟩ { type } r.1).type = 0 then 0
      else ((update (fun j : Inum => s.dinode j) ⟨i, hlt⟩ { type } r.1).addrs r.2).toNat) =
      if (s.dinode r.1).type = 0 then 0 else ((s.dinode r.1).addrs r.2).toNat
    by_cases hr : r.1 = ⟨i, hlt⟩
    · rw [hr, update_self, if_pos hfree]
      exact ite_self 0
    · rw [update_of_ne hr]
  have harea : (s.iupdate i { type }).onDisk.area = s.onDisk.area := by
    rw [hvol]
    rfl
  refine ⟨hV.toSound.congr hroot harea fun b _ => ?_, fun j => ?_⟩
  · rw [hvol]
    rfl
  · by_cases hj : j = ⟨i, hlt⟩
    · intro _ bn hbn
      have hcur : (s.iupdate i { type }).onDisk.cur j = { type } := by
        rw [hj]
        exact dinode_iupdate_self
      rw [hcur] at hbn
      exact absurd hbn (Nat.not_lt_zero _)
    · have hcur : (s.iupdate i { type }).onDisk.cur j = s.onDisk.cur j := hothers j hj
      exact (hV.mapped j).congr (by rw [hcur]) (by rw [hcur]) (by rw [hcur]) harea

variable (hip : s.dinode i = ip)

include hip

theorem WrittenBack.refl : WrittenBack s i ip s ip :=
  ⟨hV, hip, fun _ _ => rfl, rfl⟩

theorem writei_writtenBack {r : Io Nat}
    (htype : ip.type ≠ 0) (h : s.writei i ip src off n = some (r, s', ip')) :
    WrittenBack s i ip s' ip' := by
  rcases writei_cases h with ⟨rfl, rfl⟩ | ⟨m, rfl⟩
  · exact .refl hV hip
  · have hV' : (s.vol (update (fun j : Inum => s.dinode j) i ip)).Consistent := by
      rw [update_onDisk hip]
      exact hV
    obtain ⟨-, hst⟩ := writei_spec paths_ways hV' htype (fun o => places_subset_ways) h
    obtain ⟨size, addrs, hsame⟩ := hst.same
    refine ⟨?_, hst.through hip, hst.disk, by rw [hsame]⟩
    rw [onDisk_of_update (hst.through hip) hst.disk]
    exact hst.consistent

theorem readi_same {r : Io (List Byte)}
    (htype : ip.type ≠ 0) (h : s.readi ip off n = some (r, s', ip')) : s' = s ∧ ip' = ip := by
  by_cases hdev : ip.type = T_DEV
  · unfold readi at h
    rw [if_pos hdev] at h
    cases h
    exact ⟨rfl, rfl⟩
  · rw [readi_spec hV rfl hip htype hdev] at h
    split at h
    · cases h
      exact ⟨rfl, rfl⟩
    · cases h
      exact ⟨rfl, rfl⟩

/-- Looking through a directory changes nothing. -/
theorem dirScan_same {p : List Byte → Bool}
    (htype : ip.type ≠ 0) : ∀ (fuel off : Nat) {found : Option (List Byte)} {off' : Nat},
    s.dirScan p ip fuel off = some (found, off', s', ip') → s' = s ∧ ip' = ip := by
  intro fuel
  induction fuel with
  | zero =>
    intro off found off' h
    cases h
    exact ⟨rfl, rfl⟩
  | succ fuel ih =>
    intro off found off' h
    unfold dirScan at h
    split at h
    · obtain ⟨⟨r, s₁, ip₁⟩, hread, h⟩ := Option.bind_eq_some_iff.mp h
      obtain ⟨rfl, rfl⟩ := readi_same hV hip htype hread
      cases r with
      | done de =>
        dsimp only at h
        split at h
        · split at h
          · cases h
            exact ⟨rfl, rfl⟩
          · exact ih (off + 16) h
        · cases h
      | _ => cases h
    · cases h
      exact ⟨rfl, rfl⟩

theorem writeEntry_writtenBack {de : List Byte} {off : Nat} (htype : ip.type ≠ 0) (h : s.writeEntry i ip de off = some (s', ip')) :
    WrittenBack s i ip s' ip' := by
  obtain ⟨⟨r, s₁, ip₁⟩, hwrite, h⟩ := Option.bind_eq_some_iff.mp h
  have hback := writei_writtenBack hV hip htype hwrite
  cases r with
  | done m =>
    dsimp only at h
    split at h
    · cases h
      exact hback
    · cases h
  | _ => cases h

theorem dirlookup_same {name : List Byte} {found : Option (Nat × Nat)}
    (h : s.dirlookup ip name = some (found, s', ip')) : ip.type = T_DIR ∧ s' = s ∧ ip' = ip := by
  unfold dirlookup at h
  split at h
  · cases h
  · rename_i hdir
    have htype : ip.type ≠ 0 := by
      rw [not_not.mp hdir]
      decide
    obtain ⟨⟨de, off, s₁, ip₁⟩, hscan, h⟩ := Option.map_eq_some_iff.mp h
    cases h
    exact ⟨not_not.mp hdir, dirScan_same hV hip htype _ _ hscan⟩

theorem addEntry_writtenBack {name : List Byte} {inum : Nat} (htype : ip.type ≠ 0)
    (h : s.addEntry i ip name inum = some (s', ip')) : WrittenBack s i ip s' ip' := by
  obtain ⟨⟨free, off, s₂, ip₂⟩, hscan, hwrite⟩ := Option.bind_eq_some_iff.mp h
  obtain ⟨rfl, rfl⟩ := dirScan_same hV hip htype _ _ hscan
  exact writeEntry_writtenBack hV hip htype hwrite

/-- `iupdate` of an inode with the same type, size and addresses. -/
theorem iupdate_writtenBack
    (htype : ip'.type = ip.type) (hsize : ip'.size = ip.size) (haddrs : ip'.addrs = ip.addrs) :
    WrittenBack s i ip (s.iupdate i ip') ip' := by
  have hothers : ∀ j : Inum, j ≠ i → (s.iupdate i ip').dinode j = s.dinode j := fun j hj =>
    dinode_iupdate_ne fun h => hj (Fin.ext h)
  have hvol : (s.iupdate i ip').onDisk =
      s.vol (update (fun j : Inum => s.dinode j) i ip') := by
    rw [onDisk_of_update dinode_iupdate_self hothers, vol_iupdate]
  have hcur : ∀ j, ((s.iupdate i ip').onDisk.cur j).type = (s.onDisk.cur j).type ∧
      ((s.iupdate i ip').onDisk.cur j).size = (s.onDisk.cur j).size ∧
      ((s.iupdate i ip').onDisk.cur j).addrs = (s.onDisk.cur j).addrs := by
    intro j
    show ((s.iupdate i ip').dinode j).type = (s.dinode j).type ∧
      ((s.iupdate i ip').dinode j).size = (s.dinode j).size ∧
      ((s.iupdate i ip').dinode j).addrs = (s.dinode j).addrs
    by_cases hj : j = i
    · rw [hj, dinode_iupdate_self, hip]
      exact ⟨htype, hsize, haddrs⟩
    · rw [hothers j hj]
      exact ⟨rfl, rfl, rfl⟩
  have hroot : (s.iupdate i ip').onDisk.root = s.onDisk.root := by
    funext r
    unfold Vol.root
    rw [(hcur r.1).1, (hcur r.1).2.2]
  have harea : (s.iupdate i ip').onDisk.area = s.onDisk.area := by
    rw [hvol]
    rfl
  refine ⟨⟨hV.toSound.congr hroot harea fun b hb => ?_, fun j => ?_⟩, dinode_iupdate_self, hothers,
    htype⟩
  · rw [hvol]
    rfl
  · obtain ⟨ht, hs, ha⟩ := hcur j
    exact (hV.mapped j).congr ht hs ha harea

/-- An inode is truncated and freed. -/
theorem itrunc_free (htype : ip.type ≠ 0) : ∃ s' ip', s.itrunc i ip = some (s', ip') ∧
      (s'.iupdate i { ip' with type := 0 }).onDisk.Consistent ∧
      (∀ j : Inum, j ≠ i → (s'.iupdate i { ip' with type := 0 }).dinode j = s.dinode j) ∧
      ((s'.iupdate i { ip' with type := 0 }).dinode i).type = 0 ∧
      (s'.iupdate i { ip' with type := 0 }).area = s.area := by
  have hV' : (s.vol (update (fun j : Inum => s.dinode j) i ip)).Consistent := by
    rw [update_onDisk hip]
    exact hV
  obtain ⟨s', htr, harea, hdisk, -, hbits⟩ := itrunc_spec hV'.toSound htype
  refine ⟨s', _, htr, ?_⟩
  rw [update_onDisk hip] at hbits
  generalize { ip with addrs := fun _ => 0, size := 0 } = ip'
  have hothers : ∀ j : Inum, j ≠ i →
      (s'.iupdate i { ip' with type := 0 }).dinode j = s.dinode j := by
    intro j hj
    rw [dinode_iupdate_ne fun he => hj (Fin.ext he)]
    exact hdisk j hj
  have harea' : (s'.iupdate i { ip' with type := 0 }).onDisk.area = s.onDisk.area :=
    (area_iupdate i.isLt).trans harea
  have htype' : ((s'.iupdate i { ip' with type := 0 }).onDisk.cur i).type = 0 := by
    show ((s'.iupdate i { ip' with type := 0 }).dinode i).type = 0
    rw [dinode_iupdate_self]
  refine ⟨?_, hothers, htype', harea'⟩
  have hroot : ∀ k, (s'.iupdate i { ip' with type := 0 }).onDisk.root (i, k) = 0 := fun k =>
    if_pos htype'
  have hused : ∀ c, c < FSSIZE → ((s'.iupdate i { ip' with type := 0 }).onDisk.used c = true ↔
      s.onDisk.used c = true ∧ ¬ s.onDisk.InTree i c) := by
    intro c hc
    rw [used_vol hc, used_vol hc, bit_iupdate i.isLt hc]
    exact hbits c hc
  refine ⟨hV.toSound.drop harea' hothers hroot hused, fun j => ?_⟩
  by_cases hj : j = i
  · intro ht
    rw [hj] at ht
    exact absurd htype' ht
  · have hcur : (s'.iupdate i { ip' with type := 0 }).onDisk.cur j = s.onDisk.cur j := hothers j hj
    exact (hV.mapped j).congr (by rw [hcur]) (by rw [hcur]) (by rw [hcur]) harea'

end Disk

theorem bmapPath_direct {bn : Nat} (hbn : bn < NDIRECT) :
    bmapPath bn = some (⟨bn, lt_slots hbn⟩, []) := dif_pos hbn

/-- The first blocks of a file have their addresses in the inode. -/
theorem lookup_direct {bn : Nat} (htype : (s.dinode i).type ≠ 0) (hbn : bn < NDIRECT) :
    s.onDisk.lookup i bn = ((s.dinode i).addrs ⟨bn, lt_slots hbn⟩).toNat := by
  unfold Vol.lookup
  rw [bmapPath_direct hbn]
  exact if_neg htype

/-- A block below the size is missing: `readi` takes one, and tells the disk nothing. -/
theorem readi_takes {cur : Inum → Dinode} {bn : Nat} (hs : (s.vol cur).Sound)
    (hroom : (s.vol cur).free.Nonempty) (hdev : ip.type ≠ T_DEV) (hbn : bn < NDIRECT)
    (hsize : bn * BSIZE < ip.size.toNat) (h0 : ip.addrs ⟨bn, lt_slots hbn⟩ = 0) :
    ∃ r s' ip', s.readi ip (.ofNat 32 (bn * BSIZE)) 1 = some (r, s', ip') ∧ ip' ≠ ip ∧
      ∀ j : Inum, s'.dinode j = s.dinode j := by
  obtain ⟨b, s', hb⟩ := balloc_total hroom
  obtain ⟨⟨hlt, hfree⟩, -, hdisk⟩ := balloc_spec hs hb
  have hsmall : bn * BSIZE < 5120 := by
    have hbn : bn < 10 := hbn
    simp only [BSIZE]
    omega
  have hoff : (BitVec.ofNat 32 (bn * BSIZE)).toNat = bn * BSIZE := by
    rw [BitVec.toNat_ofNat]
    omega
  have hnext : (BitVec.ofNat 32 (bn * BSIZE) + 1).toNat = bn * BSIZE + 1 := by
    rw [BitVec.toNat_add, hoff]
    show (bn * BSIZE + 1) % 2 ^ 32 = bn * BSIZE + 1
    omega
  have hbmap : s.bmap ip bn = some (b, s',
      { ip with addrs := update ip.addrs ⟨bn, lt_slots hbn⟩ (.ofNat 32 b) }) := by
    unfold bmap loadAddr
    rw [bmapPath_direct hbn, Option.bind_some]
    dsimp only
    rw [if_pos h0, hb]
    rfl
  obtain ⟨bytes, hloop⟩ : ∃ bytes, s.readLoop ip 1 (bn * BSIZE) 1 = some (bytes, s',
      { ip with addrs := update ip.addrs ⟨bn, lt_slots hbn⟩ (.ofNat 32 b) }) := by
    unfold readLoop
    rw [if_neg Nat.one_ne_zero, Nat.mul_div_cancel _ (by decide), hbmap, Option.bind_some]
    dsimp only
    rw [show 1 - min 1 (BSIZE - bn * BSIZE % BSIZE) = 0 by
      rw [Nat.mul_mod_left]
      rfl]
    exact ⟨_, rfl⟩
  refine ⟨.done bytes, s',
    { ip with addrs := update ip.addrs ⟨bn, lt_slots hbn⟩ (.ofNat 32 b) }, ?_, ?_,
    fun j => hdisk j j.isLt⟩
  · unfold readi
    rw [if_neg hdev, if_neg, if_neg]
    · show (s.readLoop ip 1 (BitVec.ofNat 32 (bn * BSIZE)).toNat 1).map _ = _
      rw [hoff, hloop]
      rfl
    · rw [BitVec.lt_def, hnext]
      omega
    · rw [BitVec.lt_def, BitVec.lt_def, hnext, hoff]
      omega
  · intro heq
    have haddr := congrArg (fun d : Dinode => d.addrs ⟨bn, lt_slots hbn⟩) heq
    dsimp only at haddr
    rw [update_self, h0] at haddr
    have hzero := congrArg BitVec.toNat haddr
    have hmeta := (hs.fresh hlt hfree).1
    have hpos : 0 < nmeta := by decide
    have hmax : FSSIZE < 2 ^ 32 := by decide
    rw [BitVec.toNat_ofNat, Nat.mod_eq_of_lt (by omega)] at hzero
    have hzero : b = 0 := hzero
    omega

end FsImage

namespace ISys

variable {s s' : ISys} {i : Inum} {ip ip' : Dinode} {img img' : FsImage} {e : IEntry} {a : IAct}

structure Kept (s : ISys) : Prop where
  consistent : s.img.onDisk.Consistent
  through : ∀ i ip, 0 < (s.icache i).ref → (s.icache i).copy = some ip →
    s.img.dinode i = ip ∧ ip.type ≠ 0
  locked : ∀ i, (s.icache i).locked = true → 0 < (s.icache i).ref

/-- A call that changes one entry, and on disk one inode. -/
theorem Kept.updated (h : Kept s) (himg : img.onDisk.Consistent)
    (hothers : ∀ j : Inum, j ≠ i → img.dinode j = s.img.dinode j)
    (he : ∀ ip, 0 < e.ref → e.copy = some ip → img.dinode i = ip ∧ ip.type ≠ 0)
    (hl : e.locked = true → 0 < e.ref) : Kept { s.setEntry i e with img } := by
  refine ⟨himg, fun j ip => ?_, fun j => ?_⟩
  · show 0 < (update s.icache i e j).ref →
      (update s.icache i e j).copy = some ip → img.dinode j = ip ∧ ip.type ≠ 0
    by_cases hj : j = i
    · rw [hj, update_self]
      exact he ip
    · rw [update_of_ne hj, hothers j hj]
      exact h.through j ip
  · show (update s.icache i e j).locked = true → 0 < (update s.icache i e j).ref
    by_cases hj : j = i
    · rw [hj, update_self]
      exact hl
    · rw [update_of_ne hj]
      exact h.locked j

theorem Kept.setEntry (h : Kept s)
    (he : ∀ ip, 0 < e.ref → e.copy = some ip → s.img.dinode i = ip ∧ ip.type ≠ 0)
    (hl : e.locked = true → 0 < e.ref) : Kept (s.setEntry i e) :=
  h.updated h.consistent (fun _ _ => rfl) he hl

/-- The inode that a caller has locked is the one on disk. -/
theorem Kept.held (h : Kept s) (hh : s.held i = some ip) :
    0 < (s.icache i).ref ∧ (s.icache i).copy = some ip ∧ s.img.dinode i = ip ∧ ip.type ≠ 0 := by
  unfold ISys.held at hh
  split at hh
  · rename_i hlock
    exact ⟨h.locked i hlock, hh, h.through i ip (h.locked i hlock) hh⟩
  · cases hh

theorem Kept.store (h : Kept s) (hh : s.held i = some ip)
    (hback : FsImage.WrittenBack s.img i ip img ip') : Kept (s.store i img ip') := by
  obtain ⟨href, -, -, htype⟩ := h.held hh
  refine h.updated hback.consistent hback.others ?_ (h.locked i)
  intro ip₁ _ heq
  cases heq
  exact ⟨hback.self, by rw [hback.type]; exact htype⟩

theorem Kept.iget (h : Kept s) (hs : s.iget i = some s') : Kept s' := by
  unfold ISys.iget at hs
  split at hs
  · rename_i href
    cases hs
    exact h.setEntry (fun ip _ => h.through i ip href) fun _ => Nat.succ_pos _
  · obtain ⟨-, hs⟩ := Option.ite_none_right_eq_some.mp hs
    cases hs
    exact h.setEntry (fun ip _ heq => by cases heq) fun _ => Nat.succ_pos _

theorem Kept.ilock (h : Kept s) (hs : s.ilock i = some s') : Kept s' := by
  unfold ISys.ilock at hs
  split at hs
  · rename_i hok
    cases hc : (s.icache i).copy with
    | some ip₀ =>
      rw [hc] at hs
      cases hs
      exact h.setEntry (fun ip _ heq => h.through i ip hok.1 heq) fun _ => hok.1
    | none =>
      rw [hc] at hs
      dsimp only at hs
      split at hs
      · cases hs
      · rename_i htype
        cases hs
        refine h.setEntry (fun ip _ heq => ?_) fun _ => hok.1
        cases heq
        exact ⟨rfl, htype⟩
  · cases hs

/-- A reference is dropped. -/
theorem Kept.drop (h : Kept s) (hlock : (s.icache i).locked = false) :
    Kept (s.setEntry i { s.icache i with ref := (s.icache i).ref - 1 }) := by
  refine h.setEntry (fun ip href heq => h.through i ip ?_ heq) fun hl => ?_
  · have href : 0 < (s.icache i).ref - 1 := href
    omega
  · have hl : (s.icache i).locked = true := hl
    rw [hlock] at hl
    cases hl

/-- `iput` of a reference comes to its end: no block is freed twice. -/
theorem Kept.iput_returns (h : Kept s) (href : 0 < (s.icache i).ref)
    (hlock : (s.icache i).locked = false) : ∃ s', s.iput i = some s' ∧ Kept s' := by
  unfold iput
  rw [if_pos ⟨href, hlock⟩]
  cases hc : (s.icache i).copy with
  | none => exact ⟨_, rfl, h.drop hlock⟩
  | some ip =>
    dsimp only
    split
    · obtain ⟨hip, htype⟩ := h.through i ip href hc
      obtain ⟨img, ip', htr, hcons, hothers, -⟩ := FsImage.itrunc_free h.consistent hip htype
      rw [htr]
      refine ⟨_, rfl, h.updated hcons hothers ?_ ?_⟩
      · intro _ hpos
        exact absurd hpos (Nat.lt_irrefl 0)
      · intro hl
        have hl : (s.icache i).locked = true := hl
        rw [hlock] at hl
        cases hl
    · exact ⟨_, rfl, h.drop hlock⟩

theorem Kept.ialloc {type : BitVec 16} (h : Kept s)
    (hs : s.step (.ialloc type) = some s') : Kept s' := by
  obtain ⟨⟨inum, img⟩, halloc, hs⟩ := Option.bind_eq_some_iff.mp hs
  obtain ⟨hfree, hnew⟩ := FsImage.ialloc_spec h.consistent halloc
  dsimp only at hs
  split at hs
  · rename_i hlt
    obtain ⟨hcons, hothers⟩ := hnew hlt
    -- a valid copy of an inode in use is not of type 0, so there is none
    have hkept : Kept { s with img } := by
      refine ⟨hcons, fun j ip href hc => ?_, h.locked⟩
      obtain ⟨hip, htype⟩ := h.through j ip href hc
      have hj : j ≠ ⟨inum, hlt⟩ := by
        rintro rfl
        rw [← hip] at htype
        exact htype hfree
      exact ⟨(hothers j hj).trans hip, htype⟩
    exact hkept.iget hs
  · cases hs

theorem Kept.iput (h : Kept s) (hs : s.iput i = some s') : Kept s' := by
  have hok : 0 < (s.icache i).ref ∧ (s.icache i).locked = false := by
    by_contra hno
    unfold ISys.iput at hs
    rw [if_neg hno] at hs
    cases hs
  obtain ⟨s₁, heq, hkept⟩ := h.iput_returns hok.1 hok.2
  obtain rfl : s₁ = s' := Option.some.inj (heq.symm.trans hs)
  exact hkept

theorem Kept.dirlink {name : List Byte} {inum : Nat} {ret : Int} (h : Kept s)
    (hs : s.dirlink i name inum = some (ret, s')) : Kept s' := by
  obtain ⟨dp, hh, hs⟩ := Option.bind_eq_some_iff.mp hs
  obtain ⟨⟨found, img, dp'⟩, hlook, hs⟩ := Option.bind_eq_some_iff.mp hs
  obtain ⟨-, -, hip, htype⟩ := h.held hh
  obtain ⟨-, rfl, rfl⟩ := FsImage.dirlookup_same h.consistent hip hlook
  cases found with
  | none =>
    obtain ⟨⟨img, dp⟩, hadd, heq⟩ := Option.map_eq_some_iff.mp hs
    cases heq
    exact h.store hh (FsImage.addEntry_writtenBack h.consistent hip htype hadd)
  | some x =>
    obtain ⟨s₁, htouch, heq⟩ := Option.map_eq_some_iff.mp hs
    cases heq
    rw [store_held hh] at htouch
    unfold touch at htouch
    split at htouch
    · obtain ⟨s₂, hget, hput⟩ := Option.bind_eq_some_iff.mp htouch
      exact (h.iget hget).iput hput
    · obtain ⟨-, heq⟩ := Option.ite_none_right_eq_some.mp htouch
      cases heq
      exact h

/-- One call, one case for each. -/
theorem Kept.step (h : Kept s) (hs : s.step a = some s') : Kept s' := by
  cases a with
  | iget i => exact h.iget hs
  | ilock i => exact h.ilock hs
  | iunlock i =>
    obtain ⟨ip, hh, rfl⟩ := Option.map_eq_some_iff.mp hs
    obtain ⟨href, hc, hip⟩ := h.held hh
    refine h.setEntry (fun ip' _ heq => h.through i ip' href heq) fun hl => ?_
    cases hl
  | readi i off n =>
    obtain ⟨ip, hh, hs⟩ := Option.bind_eq_some_iff.mp hs
    obtain ⟨⟨r, img, ip'⟩, hread, rfl⟩ := Option.map_eq_some_iff.mp hs
    obtain ⟨-, -, hip, htype⟩ := h.held hh
    obtain ⟨rfl, rfl⟩ := FsImage.readi_same h.consistent hip htype hread
    exact h.store hh (.refl h.consistent hip)
  | writei i src off n =>
    obtain ⟨ip, hh, hs⟩ := Option.bind_eq_some_iff.mp hs
    obtain ⟨⟨r, img, ip'⟩, hwrite, rfl⟩ := Option.map_eq_some_iff.mp hs
    obtain ⟨-, -, hip, htype⟩ := h.held hh
    exact h.store hh (FsImage.writei_writtenBack h.consistent hip htype hwrite)
  | dirlink i name inum =>
    obtain ⟨⟨ret, s₁⟩, hlink, rfl⟩ := Option.map_eq_some_iff.mp hs
    exact h.dirlink hlink
  | clearEntry i off =>
    obtain ⟨ip, hh, hs⟩ := Option.bind_eq_some_iff.mp hs
    obtain ⟨⟨img, ip'⟩, hwrite, rfl⟩ := Option.map_eq_some_iff.mp hs
    obtain ⟨-, -, hip, htype⟩ := h.held hh
    exact h.store hh (FsImage.writeEntry_writtenBack h.consistent hip htype hwrite)
  | relink i major minor nlink =>
    obtain ⟨ip, hh, rfl⟩ := Option.map_eq_some_iff.mp hs
    obtain ⟨-, -, hip, -⟩ := h.held hh
    exact h.store hh (FsImage.iupdate_writtenBack h.consistent hip rfl rfl rfl)
  | ialloc type => exact h.ialloc hs
  | iput i => exact h.iput hs

/-- The states reached from an image, with an empty cache. -/
abbrev Runs (img : FsImage) (s : ISys) : Prop := Reaches ISys.step (fun _ _ => True) { img } s

theorem Runs.kept (himg : img.onDisk.Consistent) (h : Runs img s) : Kept s := by
  refine h.invariant ⟨himg, ?_, ?_⟩ fun _ _ _ hk _ hs => hk.step hs
  · intro i ip href
    exact absurd href (Nat.lt_irrefl 0)
  · intro i hl
    cases hl

/-! ## Blocks -/

/-- The inode as the kernel has it: the copy in the cache where there is one. -/
def inode (s : ISys) (i : Inum) : Dinode :=
  if 0 < (s.icache i).ref then (s.icache i).copy.getD (s.img.dinode i) else s.img.dinode i

theorem Kept.inode (h : Kept s) : s.inode = fun i : Inum => s.img.dinode i := by
  funext i
  unfold ISys.inode
  split
  · rename_i href
    cases hc : (s.icache i).copy with
    | none => rfl
    | some ip => exact (h.through i ip href hc).1.symm
  · rfl

theorem mkfs_onDisk {files : List HostFile} {m : MkFs} (hnum : files.length + 1 < NINODES)
    (h : MkFs.main files = some m) (he : (2 + files.length) % 32 ≠ 0) :
    m.image.onDisk.Consistent := by
  obtain ⟨m₀, hroot, h⟩ := Option.bind_eq_some_iff.mp h
  obtain ⟨m₁, hfiles, h⟩ := Option.bind_eq_some_iff.mp h
  have hm := MkFs.addFiles_spec (MkFs.makeRoot_spec hroot) (Nat.le_refl 2) (by omega) hfiles
  exact ⟨(MkFs.finish_vol hm h).1, (MkFs.finish_mapped hm (by omega) h).2 he⟩

/-- **From a consistent image on, no block has two owners, and the bitmap says which have one.** The
block that `balloc` finds has none, no `iput` panics, and `itrunc` frees the blocks of its inode and
no others. -/
theorem blocks_owned_once (himg : img.onDisk.Consistent) (h : Runs img s) :
    (s.img.vol s.inode).Sound ∧
      (∀ b img', s.img.balloc = some (b, img') →
        (nmeta ≤ b ∧ b < FSSIZE) ∧ ¬ (s.img.vol s.inode).Holds b) ∧
      (∀ i, 0 < (s.icache i).ref → (s.icache i).locked = false → ∃ s', s.iput i = some s') ∧
      ∀ i, (s.inode i).type ≠ 0 → ∃ img', s.img.itrunc i (s.inode i) =
          some (img', { s.inode i with addrs := fun _ => 0, size := 0 }) ∧
        ∀ c, c < FSSIZE → (img'.bit c = true ↔
          s.img.bit c = true ∧ ¬ (s.img.vol s.inode).InTree i c) := by
  have hk := Runs.kept himg h
  have hsound : (s.img.vol s.inode).Sound := by
    rw [hk.inode]
    exact hk.consistent.toSound
  refine ⟨hsound, fun b img' hb => ?_, fun i href hlock => ?_, fun i htype => ?_⟩
  · obtain ⟨⟨hlt, hfree⟩, -⟩ := FsImage.balloc_spec hsound hb
    obtain ⟨hmeta, hnot⟩ := hsound.fresh hlt hfree
    exact ⟨⟨hmeta, hlt⟩, hnot⟩
  · obtain ⟨s', heq, -⟩ := hk.iput_returns href hlock
    exact ⟨s', heq⟩
  · have hup : update s.inode i (s.inode i) = s.inode := update_eq_self i s.inode
    have hsound' : (s.img.vol (update s.inode i (s.inode i))).Sound := by
      rw [hup]
      exact hsound
    obtain ⟨img', htr, -, -, -, hbits⟩ := FsImage.itrunc_spec hsound' htype
    rw [hup] at hbits
    exact ⟨img', htr, hbits⟩

theorem blank_onDisk : FsImage.blank.onDisk.Consistent := by
  apply FsImage.blank_consistent
  intro i
  rw [FsImage.blank_dinode]
  exact ⟨rfl, fun _ => rfl⟩

/-- Two inodes are allocated and written, each of which takes a block, and the first is dropped and
freed. -/
def blocksRun : List IAct :=
  [.ialloc T_FILE, .ilock 1, .writei 1 (fun _ => 7) 0 1,
    .iunlock 1, .ialloc T_FILE, .ilock 2,
    .writei 2 (fun _ => 8) 0 1, .iunlock 2, .iput 1]

theorem blocks_owned_once_two : ∃ s, Runs FsImage.blank s ∧
    ((s.img.bit nmeta = false ∧ s.img.bit (nmeta + 1) = true) ∧ (s.icache 2).ref = 1) ∧
    (s.img.vol s.inode).Sound ∧ ∃ s', s.iput 2 = some s' := by
  have hrun : ∃ s, Runs FsImage.blank s ∧ ((s.img.bit nmeta = false ∧ s.img.bit (nmeta + 1) = true) ∧
      (s.icache 2).ref = 1) ∧ (s.icache 2).locked = false :=
    exists_reaches blocksRun (fun s : ISys => ((s.img.bit nmeta = false ∧
      s.img.bit (nmeta + 1) = true) ∧ (s.icache 2).ref = 1) ∧
      (s.icache 2).locked = false) (by decide +kernel)
  obtain ⟨s, hs, hfacts, hlock⟩ := hrun
  obtain ⟨hsound, -, hput, -⟩ := blocks_owned_once blank_onDisk hs
  exact ⟨s, hs, hfacts, hsound, hput 2 (by rw [hfacts.2]; decide) hlock⟩

/-! ## Write-through -/

/-- The copy of an inode that nobody has locked is the inode on disk. -/
def WriteThrough (s : ISys) : Prop :=
  ∀ i ip, 0 < (s.icache i).ref → (s.icache i).copy = some ip → (s.icache i).locked = false →
    s.img.dinode i = ip

/-- A first read of an inode: `iget`, `ilock`, `readi`, `iunlock`. -/
theorem runs_read {r : Io (List Byte)} {off n : Word} (htype : (img.dinode i).type ≠ 0)
    (hread : img.readi (img.dinode i) off n = some (r, img', ip)) :
    ∃ s, Runs img s ∧ s.icache i = { ref := 1, copy := some ip } ∧ s.img = img' := by
  have h₁ : Runs img (setEntry { img } i { ref := 1 }) := .tail (a := .iget i) .refl trivial rfl
  obtain ⟨s₂, hs₂, he₂, hi₂⟩ : ∃ s₂, (setEntry { img } i { ref := 1 }).ilock i = some s₂ ∧
      s₂.icache i = { ref := 1, copy := some (img.dinode i), locked := true } ∧ s₂.img = img := by
    unfold ilock
    rw [icache_setEntry_self, if_pos ⟨Nat.one_pos, rfl⟩]
    exact ⟨_, if_neg htype, icache_setEntry_self, rfl⟩
  have hheld : s₂.held i = some (img.dinode i) := by
    unfold held
    rw [he₂]
    rfl
  have h₃ : Runs img (s₂.store i img' ip) := by
    refine .tail (a := .readi i off n) (.tail (a := .ilock i) h₁ trivial hs₂) trivial ?_
    show (s₂.held i).bind _ = _
    rw [hheld, Option.bind_some, hi₂, hread]
    rfl
  have he₃ : (s₂.store i img' ip).icache i = { ref := 1, copy := some ip, locked := true } := by
    show (s₂.setEntry i { s₂.icache i with copy := some ip }).icache i = _
    rw [icache_setEntry_self, he₂]
  refine ⟨(s₂.store i img' ip).setEntry i { (s₂.store i img' ip).icache i with locked := false },
    .tail (a := .iunlock i) h₃ trivial ?_, ?_, rfl⟩
  · show ((s₂.store i img' ip).held i).map _ = _
    unfold held
    rw [he₃]
    rfl
  · rw [icache_setEntry_self, he₃]

/-- The root directory that fills its blocks: the copy gets a block that the disk does not know. -/
theorem root_falls_behind {e : Nat} {m m' : MkFs} (hm : MkFs.Rooted e m) (he : e < NINODES + 2)
    (hz : e % 32 = 0) (h : m.fixRoot.bind MkFs.balloc = some m') :
    ∃ s, Runs m'.image s ∧ ¬ WriteThrough s := by
  obtain ⟨hsound, hcur, hlook, hroom⟩ := MkFs.finish_vol hm h
  have he : e < 202 := he
  have hbn : e / 32 < NDIRECT := by
    have hten : NDIRECT = 10 := rfl
    omega
  have hroot : m'.image.dinode MkFs.rootInum =
      { m.inodes MkFs.rootInum with size := .ofNat 32 ((e / 32 + 1) * BSIZE) } := by
    have heq := congrFun hcur MkFs.rootInum
    rw [update_self] at heq
    exact heq
  have htype : (m'.image.dinode MkFs.rootInum).type = T_DIR := by
    rw [hroot]
    exact hm.type
  have hsize : e / 32 * BSIZE < (m'.image.dinode MkFs.rootInum).size.toNat := by
    rw [hroot]
    show e / 32 * BSIZE < (BitVec.ofNat 32 ((e / 32 + 1) * BSIZE)).toNat
    rw [BitVec.toNat_ofNat]
    simp only [BSIZE]
    omega
  have haddr : (m'.image.dinode MkFs.rootInum).addrs ⟨e / 32, lt_slots hbn⟩ = 0 := by
    -- no entry is behind the end of the directory, where the size was rounded up
    have hnone : m'.image.onDisk.lookup MkFs.rootInum (e / 32) = 0 := by
      by_contra hne
      have hne : (m'.image.vol fun i => m'.image.dinode i).lookup MkFs.rootInum (e / 32) ≠ 0 := hne
      rw [hlook] at hne
      have htight := hm.formed.tight MkFs.rootInum (e / 32) hne
      have hs := hm.size
      simp only [BSIZE] at htight
      omega
    rw [FsImage.lookup_direct (by rw [htype]; decide) hbn] at hnone
    exact BitVec.eq_of_toNat_eq hnone
  obtain ⟨r, img, ip, hread, hne, hdisk⟩ := FsImage.readi_takes hsound hroom
    (by rw [htype]; decide) hbn hsize haddr
  obtain ⟨s, hrun, hcopy, himg⟩ := runs_read (by rw [htype]; decide) hread
  refine ⟨s, hrun, fun hthrough => hne ?_⟩
  have hsame := hthrough MkFs.rootInum ip (by rw [hcopy]; exact Nat.one_pos) (by rw [hcopy])
    (by rw [hcopy])
  rw [himg, hdisk] at hsame
  exact hsame.symm

/-- **The inode cache of an image that `mkfs` made is write-through, unless the entries of the root
directory fill its blocks.** -/
theorem write_through_iff {files : List HostFile} {m : MkFs} (hnum : files.length + 1 < NINODES)
    (h : MkFs.main files = some m) :
    (∀ s, Runs m.image s → WriteThrough s) ↔ (2 + files.length) % 32 ≠ 0 := by
  constructor
  · intro hall hz
    obtain ⟨m₀, hroot, h⟩ := Option.bind_eq_some_iff.mp h
    obtain ⟨m₁, hfiles, h⟩ := Option.bind_eq_some_iff.mp h
    have hm := MkFs.addFiles_spec (MkFs.makeRoot_spec hroot) (Nat.le_refl 2) (by omega) hfiles
    obtain ⟨s, hrun, hnot⟩ := root_falls_behind hm (by omega) hz h
    exact hnot (hall s hrun)
  · intro he s hrun i ip href hcopy _
    exact ((Runs.kept (mkfs_onDisk hnum h he) hrun).through i ip href hcopy).1

/-- An image with two files. -/
theorem write_through_two : ∃ m, MkFs.main MkFs.twoFiles = some m ∧
    ∀ s, Runs m.image s → WriteThrough s := by
  obtain ⟨m, hm⟩ := MkFs.twoFiles_total
  exact ⟨m, hm, (write_through_iff (by decide) hm).2 (by decide)⟩

/-- Thirty empty files. -/
theorem read_not_written_back : ∃ m s, MkFs.main MkFs.thirty = some m ∧ Runs m.image s ∧
    ¬ WriteThrough s := by
  obtain ⟨m, hm⟩ := MkFs.thirty_total
  obtain ⟨m₀, hroot, h⟩ := Option.bind_eq_some_iff.mp hm
  obtain ⟨m₁, hfiles, h⟩ := Option.bind_eq_some_iff.mp h
  have hm₁ := MkFs.addFiles_spec (MkFs.makeRoot_spec hroot) (Nat.le_refl 2) (by decide) hfiles
  obtain ⟨s, hrun, hnot⟩ := root_falls_behind hm₁ (by decide) rfl h
  exact ⟨m, s, hm, hrun, hnot⟩

end ISys

end Xv6
