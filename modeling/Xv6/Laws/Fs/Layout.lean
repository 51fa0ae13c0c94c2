import Mathlib.Data.Finset.Card
import Xv6.Fs.Mkfs

/-!
# What a write to a block leaves alone

The inodes, the bitmap and the data lie in different blocks, and an inode and a bit in their own
part of a block. So each of the three views of the disk (`dinode`, `bit`, `area`) moves at one place
when one thing is written: the lemmas of this module, which are all that the others know of the
bytes.
-/

namespace Xv6

open Function Xv6.Lib

/-! ## Records in a block -/

namespace Block

variable {b : Block} {d : Dinode} {i j k : Nat}

theorem bit_setBit (hi : i < BPB) :
    bit (setBit b i) j = (bit b j || decide (j = i)) := by
  simp only [BPB, BSIZE] at hi
  simp only [bit, setBit, Bytes.byte_write]
  by_cases h : j / 8 = i / 8
  · rw [if_pos (by simp only [BSIZE]; omega), h, BitVec.getLsbD_or, BitVec.getLsbD_shiftLeft]
    have hone : (decide (j % 8 < 8) && !decide (j % 8 < i % 8) && (1#8).getLsbD (j % 8 - i % 8)) =
        decide (j = i) := by
      rw [Bool.eq_iff_iff]
      simp only [Bool.and_eq_true, decide_eq_true_eq, Bool.not_eq_true', decide_eq_false_iff_not,
        BitVec.getLsbD_one]
      omega
    rw [hone]
  · rw [if_neg (by omega), decide_eq_false (by omega), Bool.or_false]

theorem bit_clearBit (hi : i < BPB) :
    bit (clearBit b i) j = (bit b j && !decide (j = i)) := by
  simp only [BPB, BSIZE] at hi
  simp only [bit, clearBit, Bytes.byte_write]
  by_cases h : j / 8 = i / 8
  · rw [if_pos (by simp only [BSIZE]; omega), h, BitVec.getLsbD_and, BitVec.getLsbD_not,
      BitVec.getLsbD_shiftLeft]
    have hone : (decide (j % 8 < 8) && !(decide (j % 8 < 8) && !decide (j % 8 < i % 8) &&
        (1#8).getLsbD (j % 8 - i % 8))) = !decide (j = i) := by
      rw [Bool.eq_iff_iff]
      simp only [Bool.and_eq_true, decide_eq_true_eq, Bool.not_eq_true', decide_eq_false_iff_not,
        Bool.and_eq_false_iff, Bool.not_eq_false', BitVec.getLsbD_one]
      omega
    rw [hone]
  · rw [if_neg (by omega), decide_eq_false (by omega), Bool.not_false, Bool.and_true]

@[simp] theorem bit_zero : bit Bytes.zero j = false := by
  unfold bit
  rw [Bytes.byte_zero]
  exact BitVec.getLsbD_zero

theorem bit_bitmap {used : Nat} (h : used ≤ BPB) : bit (bitmap used) j = decide (j < used) := by
  induction used with
  | zero =>
    show bit Bytes.zero j = _
    rw [bit_zero, decide_eq_false (Nat.not_lt_zero j)]
  | succ used ih =>
    have hstep : bitmap (used + 1) = setBit (bitmap used) used := by
      unfold bitmap
      rw [List.range_succ, List.foldl_append]
      rfl
    rw [hstep, bit_setBit (by omega), ih (by omega), Bool.eq_iff_iff]
    simp only [Bool.or_eq_true, decide_eq_true_eq]
    omega

/-- A number of the record is read back, if the record has its digits there. -/
theorem field_setDinode {o w v : Nat} (hk : k < IPB) (ho : o + w ≤ 64) (hv : v < 256 ^ w)
    (h : ∀ m, m < w → d.byte (o + m) = digit v m) :
    Bytes.field (setDinode b k d) (64 * k + o) w = v := by
  simp only [IPB, BSIZE] at hk
  rw [Bytes.field_digits (v := v), Nat.mod_eq_of_lt hv]
  intro m hm
  unfold setDinode
  rw [Bytes.byte_write, if_pos (by simp only [BSIZE]; omega),
    show 64 * k + o + m - 64 * k = o + m by omega]
  exact h m hm

theorem ofNat_field_setDinode {o w n : Nat} {v : BitVec n} (hk : k < IPB) (ho : o + w ≤ 64)
    (hw : 2 ^ n = 256 ^ w) (h : ∀ m, m < w → d.byte (o + m) = digit v.toNat m) :
    BitVec.ofNat n (Bytes.field (setDinode b k d) (64 * k + o) w) = v := by
  rw [field_setDinode hk ho (hw ▸ v.isLt) h, BitVec.ofNat_toNat, BitVec.setWidth_eq]

theorem dinode_setDinode (hk : k < IPB) : dinode (setDinode b k d) k = d := by
  have haddrs : (dinode (setDinode b k d) k).addrs = d.addrs := by
    funext s
    show BitVec.ofNat 32 (Bytes.field (setDinode b k d) (64 * k + 12 + 4 * s.val) 4) = d.addrs s
    rw [Nat.add_assoc]
    refine ofNat_field_setDinode hk (by omega) (by decide) fun m hm => ?_
    have hs : (12 + 4 * s.val + m - 12) / 4 = s.val := by omega
    have hm' : (12 + 4 * s.val + m - 12) % 4 = m := by omega
    unfold Dinode.byte
    rw [if_neg (by omega), if_neg (by omega), if_neg (by omega), if_neg (by omega),
      if_neg (by omega), dif_pos (by rw [hs]; exact s.isLt), hm']
    simp only [hs]
  have htype : (dinode (setDinode b k d) k).type = d.type :=
    ofNat_field_setDinode (o := 0) hk (by decide) (by decide) fun m hm => by
      rw [Nat.zero_add]
      simp only [Dinode.byte, if_pos hm]
  have hmajor : (dinode (setDinode b k d) k).major = d.major :=
    ofNat_field_setDinode hk (by decide) (by decide) fun m hm => by
      unfold Dinode.byte
      rw [if_neg (by omega), if_pos (by omega), Nat.add_sub_cancel_left]
  have hminor : (dinode (setDinode b k d) k).minor = d.minor :=
    ofNat_field_setDinode hk (by decide) (by decide) fun m hm => by
      unfold Dinode.byte
      rw [if_neg (by omega), if_neg (by omega), if_pos (by omega), Nat.add_sub_cancel_left]
  have hnlink : (dinode (setDinode b k d) k).nlink = d.nlink :=
    ofNat_field_setDinode hk (by decide) (by decide) fun m hm => by
      unfold Dinode.byte
      rw [if_neg (by omega), if_neg (by omega), if_neg (by omega), if_pos (by omega),
        Nat.add_sub_cancel_left]
  have hsize : (dinode (setDinode b k d) k).size = d.size :=
    ofNat_field_setDinode hk (by decide) (by decide) fun m hm => by
      unfold Dinode.byte
      rw [if_neg (by omega), if_neg (by omega), if_neg (by omega), if_neg (by omega),
        if_pos (by omega), Nat.add_sub_cancel_left]
  show Dinode.mk _ _ _ _ _ _ = d
  cases d
  exact congr (congr (congr (congr (congr (congrArg Dinode.mk htype) hmajor) hminor) hnlink) hsize)
    haddrs

@[simp] theorem dinode_zero : dinode Bytes.zero k = {} := by
  unfold dinode
  simp only [Bytes.field_zero]
  rfl

theorem dinode_setDinode_ne (h : j ≠ k) : dinode (setDinode b k d) j = dinode b j := by
  have hf : ∀ o w, o + w ≤ 64 →
      Bytes.field (setDinode b k d) (64 * j + o) w = Bytes.field b (64 * j + o) w := fun o w ho =>
    Bytes.field_write_ne (by omega)
  have haddrs : ∀ s : Slot, Bytes.field (setDinode b k d) (64 * j + 12 + 4 * s.val) 4 =
      Bytes.field b (64 * j + 12 + 4 * s.val) 4 := fun s => by
    rw [Nat.add_assoc]
    exact hf _ _ (by omega)
  have htype := hf 0 2 (by decide)
  rw [Nat.add_zero] at htype
  simp only [dinode, htype, hf 2 2 (by decide), hf 4 2 (by decide), hf 6 2 (by decide),
    hf 8 4 (by decide), haddrs]

end Block

/-! ## The areas of the disk -/

theorem IBLOCK_range {i : Nat} (hi : i < NINODES) :
    2 + LOGSIZE ≤ IBLOCK i ∧ IBLOCK i < mkfs.bmapstart := by
  simp only [NINODES] at hi
  simp only [IBLOCK, mkfs, IPB, BSIZE, LOGSIZE, MAXOPBLOCKS, NINODES]
  omega

theorem BBLOCK_range {b : Nat} (hb : b < FSSIZE) : mkfs.bmapstart ≤ BBLOCK b ∧ BBLOCK b < nmeta := by
  simp only [FSSIZE] at hb
  simp only [BBLOCK, mkfs, nmeta, IPB, BPB, BSIZE, LOGSIZE, MAXOPBLOCKS, NINODES, FSSIZE]
  omega

theorem bmapstart_le_nmeta : mkfs.bmapstart ≤ nmeta := by decide

namespace FsImage

variable {s : FsImage} {b c i j : Nat} {v : Block} {ip : Dinode}

@[simp] theorem blk_logWrite_self : (s.logWrite b v).blk b = v := by
  show update s.blk b v b = v
  rw [update_self]

theorem blk_logWrite_ne (h : c ≠ b) : (s.logWrite b v).blk c = s.blk c := by
  show update s.blk b v c = s.blk c
  rw [update_of_ne h]

/-- The data blocks. -/
def area (s : FsImage) (b : Nat) : Block :=
  if nmeta ≤ b ∧ b < FSSIZE then s.blk b else Bytes.zero

/-- The views read the blocks only. -/
theorem dinode_congr {s' : FsImage} (h : s.blk = s'.blk) : s.dinode i = s'.dinode i := by
  unfold dinode
  rw [h]

theorem area_congr {s' : FsImage} (h : s.blk = s'.blk) : s.area = s'.area := by
  funext b
  unfold area
  rw [h]

theorem area_of_mem (hb : nmeta ≤ b) (hb' : b < FSSIZE) : s.area b = s.blk b :=
  if_pos ⟨hb, hb'⟩

/-- A data block is written. -/
theorem area_logWrite (hb : nmeta ≤ b) (hb' : b < FSSIZE) :
    (s.logWrite b v).area = update s.area b v := by
  funext c
  unfold area
  by_cases hc : c = b
  · subst hc
    rw [if_pos ⟨hb, hb'⟩, blk_logWrite_self, update_self]
  · rw [blk_logWrite_ne hc, update_of_ne hc]

theorem bit_logWrite (hb : nmeta ≤ b) (hc : c < FSSIZE) : (s.logWrite b v).bit c = s.bit c := by
  have := (BBLOCK_range hc).2
  unfold bit
  rw [blk_logWrite_ne (by omega)]

theorem dinode_logWrite (hb : nmeta ≤ b) (hi : i < NINODES) :
    (s.logWrite b v).dinode i = s.dinode i := by
  have := (IBLOCK_range hi).2
  have := bmapstart_le_nmeta
  unfold dinode
  rw [blk_logWrite_ne (by omega)]

/-- A metadata block is written. -/
theorem area_logWrite_meta (hb : b < nmeta) : (s.logWrite b v).area = s.area := by
  funext c
  unfold area
  by_cases hc : nmeta ≤ c ∧ c < FSSIZE
  · rw [if_pos hc, if_pos hc, blk_logWrite_ne (by omega)]
  · rw [if_neg hc, if_neg hc]

/-- A bit is written. -/
theorem bit_mark {sb : Superblock} :
    (s.logWrite (BBLOCK b sb) ((s.blk (BBLOCK b sb)).setBit (b % BPB))).bit c sb =
      (s.bit c sb || decide (c = b)) := by
  unfold bit
  by_cases h : BBLOCK c sb = BBLOCK b sb
  · rw [h, blk_logWrite_self,
      Block.bit_setBit (Nat.mod_lt _ (by decide))]
    have : c % BPB = b % BPB ↔ c = b := by
      simp only [BBLOCK, BPB, BSIZE] at h ⊢
      omega
    simp only [this]
  · have hne : c ≠ b := fun e => h (e ▸ rfl)
    rw [blk_logWrite_ne h, decide_eq_false hne, Bool.or_false]

theorem bit_clear :
    (s.logWrite (BBLOCK b) ((s.blk (BBLOCK b)).clearBit (b % BPB))).bit c =
      (s.bit c && !decide (c = b)) := by
  unfold bit
  by_cases h : BBLOCK c = BBLOCK b
  · rw [h, blk_logWrite_self,
      Block.bit_clearBit (Nat.mod_lt _ (by decide))]
    have : c % BPB = b % BPB ↔ c = b := by
      simp only [BBLOCK, BPB, BSIZE] at h ⊢
      omega
    simp only [this]
  · have hne : c ≠ b := fun e => h (e ▸ rfl)
    rw [blk_logWrite_ne h, decide_eq_false hne, Bool.not_false, Bool.and_true]

theorem dinode_logWrite_bitmap (hb : b < FSSIZE) (hi : i < NINODES) :
    (s.logWrite (BBLOCK b) v).dinode i = s.dinode i := by
  have := (IBLOCK_range hi).2
  have := (BBLOCK_range hb).1
  unfold dinode
  rw [blk_logWrite_ne (by omega)]

/-- A disk whose first block of the bitmap is as `mkfs` writes it, with zeros in the others. -/
theorem bit_of_bitmap {sb : Superblock} {used : Nat} (hused : used ≤ BPB)
    (hfirst : s.blk sb.bmapstart = bitmap used)
    (hrest : sb.bmapstart < BBLOCK b sb → s.blk (BBLOCK b sb) = Bytes.zero) :
    s.bit b sb = decide (b < used) := by
  unfold bit
  by_cases h : b < BPB
  · have hblk : BBLOCK b sb = sb.bmapstart := by
      unfold BBLOCK
      rw [Nat.div_eq_of_lt h, Nat.zero_add]
    rw [hblk, hfirst, Block.bit_bitmap hused, Nat.mod_eq_of_lt h]
  · have hblk : sb.bmapstart < BBLOCK b sb := by
      have := Nat.div_pos (Nat.le_of_not_lt h) (show 0 < BPB by decide)
      unfold BBLOCK
      omega
    rw [hrest hblk, Block.bit_zero, decide_eq_false (by omega)]

/-- The number of free blocks. -/
def free (s : FsImage) (sb : Superblock := mkfs) : Nat :=
  ((Finset.range sb.size).filter fun b => s.bit b sb = false).card

theorem free_of_bits {sb : Superblock} {used : Nat} (h : ∀ b, s.bit b sb = decide (b < used)) :
    sb.size - used ≤ s.free sb := by
  have hsub : (Finset.range sb.size) \ (Finset.range used) ⊆
      (Finset.range sb.size).filter fun b => s.bit b sb = false := by
    intro b hb
    obtain ⟨h1, h2⟩ := Finset.mem_sdiff.1 hb
    rw [Finset.mem_range] at h2
    refine Finset.mem_filter.2 ⟨h1, ?_⟩
    rw [h, decide_eq_false h2]
  have hle := (Finset.le_card_sdiff _ _).trans (Finset.card_le_card hsub)
  rwa [Finset.card_range, Finset.card_range] at hle

/-- An inode is written. -/
theorem dinode_iupdate_self : (s.iupdate i ip).dinode i = ip := by
  unfold dinode iupdate
  rw [blk_logWrite_self, Block.dinode_setDinode (Nat.mod_lt _ (by decide))]

theorem dinode_iupdate_ne (h : j ≠ i) : (s.iupdate i ip).dinode j = s.dinode j := by
  unfold dinode iupdate
  by_cases hb : IBLOCK j = IBLOCK i
  · rw [hb, blk_logWrite_self, Block.dinode_setDinode_ne]
    simp only [IBLOCK, IPB, BSIZE] at hb ⊢
    omega
  · rw [blk_logWrite_ne hb]

theorem area_iupdate (hi : i < NINODES) : (s.iupdate i ip).area = s.area :=
  area_logWrite_meta (Nat.lt_of_lt_of_le (IBLOCK_range hi).2 bmapstart_le_nmeta)

theorem bit_iupdate (hi : i < NINODES) (hc : c < FSSIZE) : (s.iupdate i ip).bit c = s.bit c := by
  have := (IBLOCK_range hi).2
  have := (BBLOCK_range hc).1
  unfold bit iupdate
  rw [blk_logWrite_ne (by omega)]

end FsImage

end Xv6
