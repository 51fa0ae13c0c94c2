import Xv6.Laws.Fs.Volume

/-!
# The block map of the kernel

`balloc`, `loadAddr`, `loadEntry` and `bmap` as changes of the volume. Each either finds an address
or fills one null place with a free block; so `bmap` returns the of the block it is asked
for, in a volume whose trees have grown on the way to it and are otherwise as before. It fails only
if the disk has fewer free blocks than the way has null places, or for a block number that the map
does not reach.
-/

namespace Xv6

open Function Xv6.Lib

namespace FsImage

/-- The volume of an image, with inodes `cur`. -/
def vol (s : FsImage) (cur : Inum → Dinode) : Vol where
  cur := cur
  area := s.area
  used b := decide (b < FSSIZE) && s.bit b

variable {s s' s'' : FsImage} {cur cur' cur'' : Inum → Dinode} {ip ip' : Dinode} {i : Inum}
  {k : Slot} {r : Inum × Slot} {q js : List Nat} {a b j bn : Nat} {S : Finset Place} {v : Block}

theorem used_vol (hb : b < FSSIZE) : (s.vol cur).used b = s.bit b := by
  show (decide (b < FSSIZE) && s.bit b) = s.bit b
  rw [decide_eq_true hb, Bool.true_and]

theorem free_vol : (s.vol cur).free.card = s.free := by
  refine congrArg Finset.card (Finset.filter_congr fun b hb => ?_)
  rw [used_vol (Finset.mem_range.1 hb)]

/-- Whatever volume has the image's data blocks has its addresses. -/
theorem ptr_area {V : Vol} (harea : V.area = s.area) (ha : nmeta ≤ a) (ha' : a < FSSIZE) :
    V.ptr a j = s.ptr a j := by
  show (V.area a).word j = (s.blk a).word j
  rw [harea, area_of_mem ha ha']

theorem ptr_vol (ha : nmeta ≤ a) (ha' : a < FSSIZE) : (s.vol cur).ptr a j = s.ptr a j :=
  ptr_area rfl ha ha'

/-- A data block is written. -/
theorem vol_logWrite (hb : nmeta ≤ b) (hb' : b < FSSIZE) :
    (s.logWrite b v).vol cur = (s.vol cur).put b v := by
  have hused : ((s.logWrite b v).vol cur).used = (s.vol cur).used := by
    funext c
    by_cases hc : c < FSSIZE
    · rw [used_vol hc, used_vol hc, bit_logWrite hb hc]
    · simp only [vol, decide_eq_false hc, Bool.false_and]
  show Vol.mk cur (s.logWrite b v).area ((s.logWrite b v).vol cur).used = _
  rw [hused, area_logWrite hb hb']
  rfl

/-- An inode is written back. -/
theorem vol_iupdate : (s.iupdate i ip).vol cur = s.vol cur := by
  have hused : ((s.iupdate i ip).vol cur).used = (s.vol cur).used := by
    funext c
    by_cases hc : c < FSSIZE
    · rw [used_vol hc, used_vol hc, bit_iupdate i.isLt hc]
    · simp only [vol, decide_eq_false hc, Bool.false_and]
  show Vol.mk cur (s.iupdate i ip).area ((s.iupdate i ip).vol cur).used = _
  rw [hused, area_iupdate i.isLt]
  rfl

/-! ## Allocation -/

/-- `balloc` takes a free block, if the volume is sound. -/
theorem balloc_spec (hs : (s.vol cur).Sound) (h : s.balloc = some (b, s')) :
    (b < FSSIZE ∧ (s.vol cur).used b = false) ∧ (∀ cur, s'.vol cur = (s.vol cur).take b) ∧
      ∀ j, j < NINODES → s'.dinode j = s.dinode j := by
  obtain ⟨c, hc, heq⟩ := Option.map_eq_some_iff.mp h
  obtain ⟨rfl, rfl⟩ := Prod.mk.inj heq
  have hlt : c < FSSIZE := by
    have hmem := List.mem_of_find?_eq_some hc
    rwa [List.mem_range] at hmem
  have hclear : s.bit c = false := by
    have := List.find?_some hc
    simpa using this
  have hfree : (s.vol cur).used c = false := by
    rw [used_vol hlt]
    exact hclear
  have hmeta := (hs.fresh hlt hfree).1
  refine ⟨⟨hlt, hfree⟩, fun cur => ?_, fun j hj => ?_⟩
  · have hused : ((s.logWrite (BBLOCK c) ((s.blk (BBLOCK c)).setBit (c % BPB))).vol cur).used =
        update (s.vol cur).used c true := by
      funext d
      by_cases hd : d < FSSIZE
      · rw [used_vol hd, bit_mark]
        by_cases hdc : d = c
        · subst hdc
          rw [update_self, decide_eq_true rfl, Bool.or_true]
        · rw [update_of_ne hdc, used_vol hd, decide_eq_false hdc, Bool.or_false]
      · have hdc : d ≠ c := by omega
        rw [update_of_ne hdc]
        simp only [vol, decide_eq_false hd, Bool.false_and]
    unfold bzero
    rw [vol_logWrite hmeta hlt]
    show Vol.mk cur (update _ c Bytes.zero) _ = Vol.mk cur (update s.area c Bytes.zero) _
    rw [hused]
    show Vol.mk cur (update (s.logWrite (BBLOCK c) _).area c Bytes.zero) _ = _
    rw [area_logWrite_meta (BBLOCK_range hlt).2]
  · unfold bzero
    rw [dinode_logWrite hmeta hj, dinode_logWrite_bitmap hlt hj]

/-- `balloc` returns as long as a block is free. -/
theorem balloc_total (h : (s.vol cur).free.Nonempty) : ∃ b s', s.balloc = some (b, s') := by
  obtain ⟨b, hb⟩ := h
  obtain ⟨hlt, hfree⟩ := Finset.mem_filter.1 hb
  have hlt' : b < FSSIZE := Finset.mem_range.1 hlt
  rw [used_vol hlt'] at hfree
  cases hf : s.firstFree with
  | none =>
    have := List.find?_eq_none.1 hf b (List.mem_range.2 hlt')
    simp [hfree] at this
  | some c =>
    unfold balloc
    rw [hf]
    exact ⟨_, _, rfl⟩

/-! ## The way to a block -/

/-- The tree of inode `i` has grown; the inodes on disk are as before. -/
structure Grew (i : Inum) (S : Finset Place) (s : FsImage) (cur : Inum → Dinode) (s' : FsImage)
    (cur' : Inum → Dinode) : Prop where
  sound : (s'.vol cur').Sound
  grows : Vol.Grows i S (s.vol cur) (s'.vol cur')
  disk : ∀ j, j < NINODES → s'.dinode j = s.dinode j

theorem Grew.refl (h : (s.vol cur).Sound) : Grew i S s cur s cur :=
  ⟨h, .refl, fun _ _ => rfl⟩

theorem Grew.trans (h : Grew i S s cur s' cur') (h' : Grew i S s' cur' s'' cur'') :
    Grew i S s cur s'' cur'' :=
  ⟨h'.sound, h.grows.trans h'.grows, fun j hj => (h'.disk j hj).trans (h.disk j hj)⟩

/-- One place has been filled. -/
theorem grew_filled (hs : (s.vol cur).Sound) (hS : Vol.Paths S) (hmem : (r, q) ∈ S)
    (hfill : Vol.Filled (s.vol cur) (s'.vol cur') r q b)
    (hdisk : ∀ j, j < NINODES → s'.dinode j = s.dinode j) :
    Grew r.1 S s cur s' cur' ∧ (s'.vol cur').addr r q = b ∧ b ≠ 0 := by
  refine ⟨⟨hfill.sound hs, hfill.grows hs hmem hS, hdisk⟩, hfill.addr_self, ?_⟩
  rintro rfl
  exact absurd (hs.fresh hfill.fresh.1 hfill.fresh.2).1 (by decide)

theorem loadEntry_spec (hs : (s.vol cur).Sound) (hS : Vol.Paths S) (hmem : (r, q ++ [j]) ∈ S)
    (ha : (s.vol cur).addr r q = a) (ha0 : a ≠ 0) (hj : j < NINDIRECT)
    (h : s.loadEntry a j = some (b, s')) :
    Grew r.1 S s cur s' cur ∧ (s'.vol cur).addr r (q ++ [j]) = b ∧ b ≠ 0 := by
  have hlen : (q ++ [j]).length ≤ Vol.depth r := hS _ hmem
  obtain ⟨-, hmeta, hsize⟩ := hs.entry_range hlen ha ha0
  unfold loadEntry at h
  split at h
  next h0 =>
    obtain ⟨⟨c, s₁⟩, hc, heq⟩ := Option.map_eq_some_iff.mp h
    obtain ⟨rfl, rfl⟩ := Prod.mk.inj heq
    obtain ⟨⟨hlt, hfree⟩, htake, hdisk⟩ := balloc_spec hs hc
    have hptr : (s.vol cur).ptr a j = 0 := (ptr_vol hmeta hsize).trans h0
    have hfill := hs.fillEntry hlen ha ha0 hj hptr hlt hfree
    have hvol : (s₁.logWrite a ((s₁.blk a).setWord j c)).vol cur =
        (s.vol cur).fillEntry a j c := by
      have harea : s₁.blk a = ((s.vol cur).take c).area a := by
        rw [← htake cur]
        exact (area_of_mem hmeta hsize).symm
      rw [vol_logWrite hmeta hsize, htake, harea]
      rfl
    refine grew_filled hs hS hmem (hvol ▸ hfill) fun m hm => ?_
    rw [dinode_logWrite hmeta hm, hdisk m hm]
  next h0 =>
    cases h
    refine ⟨.refl hs, ?_, h0⟩
    rw [Vol.addr_snoc, ha, if_neg ha0, ptr_vol hmeta hsize]

theorem loadEntry_total (hs : (s.vol cur).Sound) (hS : Vol.Paths S) (hr : (s.vol cur).Room S)
    (hmem : (r, q ++ [j]) ∈ S) (ha : (s.vol cur).addr r q = a) (ha0 : a ≠ 0) :
    ∃ b s', s.loadEntry a j = some (b, s') := by
  have hlen : (q ++ [j]).length ≤ Vol.depth r := hS _ hmem
  obtain ⟨-, hmeta, hsize⟩ := hs.entry_range hlen ha ha0
  unfold loadEntry
  by_cases h0 : s.ptr a j = 0
  · have hnull : (s.vol cur).addr r (q ++ [j]) = 0 := by
      rw [Vol.addr_snoc, ha, if_neg ha0, ptr_vol hmeta hsize, h0]
    obtain ⟨b, s', hb⟩ := balloc_total (hr.free hmem hnull)
    rw [if_pos h0, hb]
    exact ⟨_, _, rfl⟩
  · rw [if_neg h0]
    exact ⟨_, _, rfl⟩

/-- The places below `q` on the way `js` are in `S`. -/
def Way (S : Finset Place) (r : Inum × Slot) (q js : List Nat) : Prop :=
  ∀ p, p ≠ [] → p <+: js → (r, q ++ p) ∈ S

theorem Way.head (h : Way S r q (j :: js)) : (r, q ++ [j]) ∈ S :=
  h [j] (by simp) ⟨js, rfl⟩

theorem Way.tail (h : Way S r q (j :: js)) : Way S r (q ++ [j]) js := by
  intro p hp hpre
  have := h (j :: p) (by simp) (List.cons_prefix_cons.2 ⟨rfl, hpre⟩)
  rwa [List.append_assoc]

theorem loadPath_spec (hS : Vol.Paths S) : ∀ {js q} {s : FsImage} {a}, (s.vol cur).Sound → Way S r q js →
    (s.vol cur).addr r q = a → a ≠ 0 → (∀ j ∈ js, j < NINDIRECT) →
    s.loadPath a js = some (b, s') →
    Grew r.1 S s cur s' cur ∧ (s'.vol cur).addr r (q ++ js) = b ∧ b ≠ 0 := by
  intro js
  induction js with
  | nil =>
    intro q s a hs _ ha ha0 _ h
    cases h
    exact ⟨.refl hs, by rw [List.append_nil]; exact ha, ha0⟩
  | cons j js ih =>
    intro q s a hs hway ha ha0 hjs h
    obtain ⟨⟨c, s₁⟩, hc, hrest⟩ := Option.bind_eq_some_iff.mp h
    obtain ⟨hgrew, hc', hc0⟩ := loadEntry_spec hs hS hway.head ha ha0 (hjs j (by simp)) hc
    obtain ⟨hgrew', hb, hb0⟩ := ih hgrew.sound hway.tail hc' hc0
      (fun m hm => hjs m (List.mem_cons_of_mem j hm)) hrest
    rw [List.append_assoc] at hb
    exact ⟨hgrew.trans hgrew', hb, hb0⟩

theorem loadPath_total (hS : Vol.Paths S) : ∀ {js q} {s : FsImage} {a}, (s.vol cur).Sound → (s.vol cur).Room S →
    Way S r q js → (s.vol cur).addr r q = a → a ≠ 0 → (∀ j ∈ js, j < NINDIRECT) →
    ∃ b s', s.loadPath a js = some (b, s') := by
  intro js
  induction js with
  | nil =>
    intro q s a _ _ _ _ _ _
    exact ⟨a, s, rfl⟩
  | cons j js ih =>
    intro q s a hs hr hway ha ha0 hjs
    obtain ⟨c, s₁, hc⟩ := loadEntry_total hs hS hr hway.head ha ha0
    obtain ⟨hgrew, hc', hc0⟩ := loadEntry_spec hs hS hway.head ha ha0 (hjs j (by simp)) hc
    obtain ⟨b, s', hb⟩ := ih hgrew.sound (hgrew.grows.room hr) hway.tail hc' hc0
      fun m hm => hjs m (List.mem_cons_of_mem j hm)
    refine ⟨b, s', ?_⟩
    simp only [loadPath, hc, Option.bind_some, hb]

theorem addr_root (htype : ip.type ≠ 0) :
    (s.vol (update cur i ip)).addr (i, k) [] = (ip.addrs k).toNat := by
  show (if (update cur i ip i).type = 0 then 0 else
    ((update cur i ip i).addrs k).toNat) = _
  rw [update_self, if_neg htype]

theorem loadAddr_spec (hs : (s.vol (update cur i ip)).Sound) (hS : Vol.Paths S)
    (hmem : ((i, k), []) ∈ S) (htype : ip.type ≠ 0) (h : s.loadAddr ip k = some (a, s', ip')) :
    Grew i S s (update cur i ip) s' (update cur i ip') ∧
      (s'.vol (update cur i ip')).addr (i, k) [] = a ∧ a ≠ 0 ∧
      ∃ addrs, ip' = { ip with addrs := addrs } := by
  unfold loadAddr at h
  split at h
  next h0 =>
    obtain ⟨⟨c, s₁⟩, hc, heq⟩ := Option.map_eq_some_iff.mp h
    cases heq
    obtain ⟨⟨hlt, hfree⟩, htake, hdisk⟩ := balloc_spec hs hc
    have hself : (s.vol (update cur i ip)).cur i = ip := update_self _ _ _
    have hfill := hs.fillRoot (i := i) (k := k) (hself.symm ▸ htype) (hself.symm ▸ h0) hlt hfree
    have hvol : s'.vol (update cur i { ip with
        addrs := update ip.addrs k (.ofNat 32 a) }) =
        (s.vol (update cur i ip)).fillRoot i k a := by
      rw [htake]
      unfold Vol.fillRoot
      rw [hself]
      show Vol.mk _ _ _ = Vol.mk (update (update cur i ip) i _) _ _
      rw [update_idem]
      rfl
    obtain ⟨hgrew, haddr, ha0⟩ := grew_filled hs hS hmem (hvol ▸ hfill) hdisk
    exact ⟨hgrew, haddr, ha0, ⟨_, rfl⟩⟩
  next h0 =>
    cases h
    refine ⟨.refl hs, addr_root htype, fun e => h0 ?_, ⟨_, rfl⟩⟩
    exact BitVec.eq_of_toNat_eq e

theorem loadAddr_total (hr : (s.vol (update cur i ip)).Room S) (hmem : ((i, k), []) ∈ S)
    (htype : ip.type ≠ 0) : ∃ a s' ip', s.loadAddr ip k = some (a, s', ip') := by
  unfold loadAddr
  by_cases h0 : ip.addrs k = 0
  · have hnull : (s.vol (update cur i ip)).addr (i, k) [] = 0 := by
      rw [addr_root htype, h0]
      rfl
    obtain ⟨b, s', hb⟩ := balloc_total (hr.free hmem hnull)
    rw [if_pos h0, hb]
    exact ⟨_, _, _, rfl⟩
  · rw [if_neg h0]
    exact ⟨_, _, _, rfl⟩

theorem way_places (hpath : bmapPath bn = some (k, js)) :
    ((i, k), []) ∈ Vol.places i bn ∧ Way (Vol.places i bn) (i, k) [] js :=
  ⟨(Vol.mem_places hpath).2 ⟨rfl, List.nil_prefix⟩, fun _ _ hp =>
    (Vol.mem_places hpath).2 ⟨rfl, hp⟩⟩

/-- `bmap` returns the address of the block, and grows the tree to have it. -/
theorem bmap_spec (hs : (s.vol (update cur i ip)).Sound) (htype : ip.type ≠ 0)
    (h : s.bmap ip bn = some (b, s', ip')) :
    Grew i (Vol.places i bn) s (update cur i ip) s' (update cur i ip') ∧
      (s'.vol (update cur i ip')).lookup i bn = b ∧ b ≠ 0 ∧
      ∃ addrs, ip' = { ip with addrs := addrs } := by
  obtain ⟨⟨k, js⟩, hpath, h⟩ := Option.bind_eq_some_iff.mp h
  obtain ⟨⟨a, s₁, ip₁⟩, ha, h⟩ := Option.bind_eq_some_iff.mp h
  obtain ⟨⟨c, s₂⟩, hc, heq⟩ := Option.map_eq_some_iff.mp h
  cases heq
  obtain ⟨hroot, hway⟩ := way_places (i := i) hpath
  obtain ⟨hgrew, ha', ha0, haddrs⟩ := loadAddr_spec hs Vol.paths_places hroot htype ha
  obtain ⟨hgrew', hb, hb0⟩ := loadPath_spec Vol.paths_places hgrew.sound hway ha' ha0
    (Vol.bmapPath_spec hpath).2 hc
  exact ⟨hgrew.trans hgrew', (Vol.lookup_eq hpath).trans hb, hb0, haddrs⟩

theorem bmap_total (hs : (s.vol (update cur i ip)).Sound) (htype : ip.type ≠ 0)
    (hr : (s.vol (update cur i ip)).Room (Vol.places i bn)) (hbn : (bmapPath bn).isSome) :
    ∃ b s' ip', s.bmap ip bn = some (b, s', ip') := by
  obtain ⟨⟨k, js⟩, hpath⟩ := Option.isSome_iff_exists.mp hbn
  obtain ⟨hroot, hway⟩ := way_places (i := i) hpath
  obtain ⟨a, s₁, ip₁, ha⟩ := loadAddr_total hr hroot htype
  obtain ⟨hgrew, ha', ha0, -⟩ := loadAddr_spec hs Vol.paths_places hroot htype ha
  obtain ⟨b, s₂, hb⟩ := loadPath_total Vol.paths_places hgrew.sound (hgrew.grows.room hr) hway ha' ha0
    (Vol.bmapPath_spec hpath).2
  refine ⟨b, s₂, ip₁, ?_⟩
  simp only [bmap, hpath, ha, hb, Option.bind_some, Option.map_some]

/-! ## A block that has an address

Nothing is allocated here, so the bitmap plays no part: `V` is any sound volume with the data blocks
of the image. -/

theorem loadPath_mapped {V : Vol} (hs : V.Sound) (harea : V.area = s.area) : ∀ {js q a},
    (q ++ js).length ≤ Vol.depth r → V.addr r q = a → V.addr r (q ++ js) ≠ 0 →
    s.loadPath a js = some (V.addr r (q ++ js), s) := by
  intro js
  induction js with
  | nil =>
    intro q a _ ha _
    rw [List.append_nil, ha]
    rfl
  | cons j js ih =>
    intro q a hlen ha h0
    have happ : q ++ j :: js = q ++ [j] ++ js := by simp
    rw [happ] at hlen h0 ⊢
    have hj0 : V.addr r (q ++ [j]) ≠ 0 := follow_ne_zero_of_append h0
    have ha0 : V.addr r q ≠ 0 := follow_ne_zero_of_append hj0
    have hq : q.length ≤ Vol.depth r := by
      simp only [List.length_append] at hlen
      omega
    obtain ⟨hmeta, hsize⟩ := hs.addr_range hq ha0
    have hj : s.ptr a j = V.addr r (q ++ [j]) := by
      rw [Vol.addr_snoc, if_neg ha0, ptr_area harea hmeta hsize, ha]
    have hload : s.loadEntry a j = some (V.addr r (q ++ [j]), s) := by
      unfold loadEntry
      rw [if_neg (hj ▸ hj0), hj]
    show (s.loadEntry a j).bind _ = _
    rw [hload]
    exact ih hlen rfl h0

/-- `bmap` only looks up what is there. -/
theorem bmap_mapped {V : Vol} (hs : V.Sound) (harea : V.area = s.area) (hcur : V.cur i = ip)
    (h0 : V.lookup i bn ≠ 0) : s.bmap ip bn = some (V.lookup i bn, s, ip) := by
  obtain ⟨k, js, hpath⟩ := Vol.exists_path h0
  rw [Vol.lookup_eq hpath] at h0 ⊢
  have hroot : V.addr (i, k) [] ≠ 0 := follow_ne_zero_of_append (q := js) h0
  have htype : ip.type ≠ 0 := by
    intro e
    apply hroot
    show (if (V.cur i).type = 0 then 0 else ((V.cur i).addrs k).toNat) = 0
    rw [hcur, if_pos e]
  have hk : V.addr (i, k) [] = (ip.addrs k).toNat := by
    show (if (V.cur i).type = 0 then 0 else ((V.cur i).addrs k).toNat) = _
    rw [hcur, if_neg htype]
  have haddr : s.loadAddr ip k = some ((ip.addrs k).toNat, s, ip) := by
    unfold loadAddr
    rw [if_neg]
    intro e
    apply hroot
    rw [hk, e]
    rfl
  have hlen : ([] ++ js).length ≤ Vol.depth (i, k) := Nat.le_of_eq (Vol.bmapPath_spec hpath).1
  have hload := loadPath_mapped hs harea hlen hk h0
  rw [List.nil_append] at hload
  simp only [bmap, hpath, haddr, hload, Option.bind_some, Option.map_some]

end FsImage

end Xv6
