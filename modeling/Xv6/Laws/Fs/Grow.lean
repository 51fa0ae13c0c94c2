import Mathlib.Order.Interval.Finset.Nat
import Xv6.Laws.Fs.Content

/-!
# How far a file can grow

`bmap` is a stable injection: over any calls, in any order, each block number has one address, which
is no index block and stays. The calls grow one tree, so this is read off the volume at their end.

`writei` lets a file grow to `MAXFILE` blocks, the sum of what the four levels of the map can hold.
`bmap` subtracts `NDIRECT` only before it compares the block number with the capacity of each level,
so the map ends at `NDIRECT + NTINDIRECT` blocks. A write that reaches behind that panics, on every
disk that has the blocks for it.
-/

namespace Xv6

open Function Xv6.Lib

/-! ## Calls of bmap -/

/-- Block `b` is an index block of inode `i`. -/
def Vol.Index (V : Vol) (i : Inum) (b : Nat) : Prop :=
  b ≠ 0 ∧ ∃ k p, p.length < Vol.depth (i, k) ∧ V.addr (i, k) p = b

/-- The address of a block of a file is not that of an index block. -/
theorem Vol.Sound.not_index {V : Vol} {i : Inum} {bn : Nat} (h : V.Sound) :
    ¬ V.Index i (V.lookup i bn) := by
  rintro ⟨h0, k', p, hp, he⟩
  obtain ⟨k, js, hpath⟩ := Vol.exists_path h0
  rw [Vol.lookup_eq hpath] at h0 he
  have hlen := (Vol.bmapPath_spec hpath).1
  obtain ⟨hr, rfl⟩ := h.forest.inj (i, k) (i, k') js p (Nat.le_of_eq hlen) (Nat.le_of_lt hp) h0 he.symm
  obtain ⟨-, rfl⟩ := Prod.mk.inj hr
  exact Nat.lt_irrefl _ (hlen ▸ hp)

namespace FsImage

variable {s s' : FsImage} {cur : Inum → Dinode} {ip ip' : Dinode} {i : Inum} {bns bs : List Nat}
  {S : Finset Place}

/-- The addresses that a number of calls return are those in the volume at their end. -/
theorem bmaps_spec (hS : Vol.Paths S) (htype : ip.type ≠ 0)
    (hs : (s.vol (update cur i ip)).Sound) (hreach : ∀ bn ∈ bns, Vol.places i bn ⊆ S)
    (h : s.bmaps ip bns = some (bs, s', ip')) :
    Grew i S s (update cur i ip) s' (update cur i ip') ∧
      bs = bns.map ((s'.vol (update cur i ip')).lookup i) ∧ 0 ∉ bs := by
  induction bns generalizing s ip bs with
  | nil =>
    cases h
    exact ⟨.refl hs, rfl, List.not_mem_nil⟩
  | cons bn bns ih =>
    obtain ⟨⟨b, s₁, ip₁⟩, hb, h⟩ := Option.bind_eq_some_iff.mp h
    obtain ⟨⟨cs, s₂, ip₂⟩, hcs, heq⟩ := Option.map_eq_some_iff.mp h
    cases heq
    obtain ⟨hgrew, hlook, hb0, addrs, rfl⟩ := bmap_spec hs htype hb
    have htype' : ({ ip with addrs } : Dinode).type ≠ 0 := htype
    obtain ⟨hrest, hmap, hcs0⟩ := ih htype' hgrew.sound
      (fun m hm => hreach m (List.mem_cons_of_mem bn hm)) hcs
    have hfirst := hgrew.grows.mono (hreach bn List.mem_cons_self) hS
    refine ⟨⟨hrest.sound, hfirst.trans hrest.grows, fun j hj => ?_⟩, ?_, ?_⟩
    · exact (hrest.disk j hj).trans (hgrew.disk j hj)
    · -- the calls that follow keep the address
      have hne : (s₁.vol (update cur i { ip with addrs })).lookup i bn ≠ 0 := by
        rw [hlook]
        exact hb0
      rw [List.map_cons, (hrest.grows.lookup hne).1, hlook, ← hmap]
    · intro h0
      rcases List.mem_cons.mp h0 with h0 | h0
      · exact hb0 h0.symm
      · exact hcs0 h0

theorem bmaps_total (hS : Vol.Paths S) (htype : ip.type ≠ 0)
    (hs : (s.vol (update cur i ip)).Sound) (hr : (s.vol (update cur i ip)).Room S)
    (hreach : ∀ bn ∈ bns, Vol.places i bn ⊆ S ∧ bn < NDIRECT + NTINDIRECT) :
    ∃ r, s.bmaps ip bns = some r := by
  induction bns generalizing s ip with
  | nil => exact ⟨_, rfl⟩
  | cons bn bns ih =>
    obtain ⟨hsub, hlt⟩ := hreach bn List.mem_cons_self
    obtain ⟨b, s₁, ip₁, hb⟩ := bmap_total hs htype (hr.mono hsub) (bmapPath_isSome hlt)
    obtain ⟨hgrew, -, -, addrs, rfl⟩ := bmap_spec hs htype hb
    have hrest : ∃ r, s₁.bmaps { ip with addrs } bns = some r :=
      ih htype hgrew.sound ((hgrew.grows.mono hsub hS).room hr)
        fun m hm => hreach m (List.mem_cons_of_mem bn hm)
    obtain ⟨r, hr⟩ := hrest
    simp only [bmaps, hb, hr, Option.bind_some, Option.map_some]
    exact ⟨_, rfl⟩

/-- The places on the way to the blocks `bns` of a file. -/
def reach (i : Inum) (bns : List Nat) : Finset Place := bns.toFinset.biUnion (Vol.places i)

theorem places_subset_reach {bn : Nat} (h : bn ∈ bns) : Vol.places i bn ⊆ reach i bns :=
  Finset.subset_biUnion_of_mem (Vol.places i) (List.mem_toFinset.2 h)

theorem paths_reach : Vol.Paths (reach i bns) := by
  intro x hx
  obtain ⟨bn, -, hx⟩ := Finset.mem_biUnion.1 hx
  exact Vol.paths_places x hx

/-- **`bmap` is a stable injection.** On a sound volume, any calls of `bmap` on an inode with block
numbers that the map reaches return as long as there are free blocks. Two of them return the same
block if and only if they ask for the same block number. No block that is returned is an index
block, no index is outside its index block, and the addresses that the tree had before and those
that were returned are its addresses at the end. -/
theorem bmap_stable_injection (hs : (s.vol cur).Sound) (htype : (cur i).type ≠ 0) (bns : List Nat)
    (hbns : ∀ bn ∈ bns, bn < NDIRECT + NTINDIRECT) :
    ((s.vol cur).Room (reach i bns) → ∃ r, s.bmaps (cur i) bns = some r) ∧
    ∀ bs s' ip', s.bmaps (cur i) bns = some (bs, s', ip') →
      (s'.vol (update cur i ip')).Sound ∧
      bs.length = bns.length ∧
      (∀ m n, m < bns.length → n < bns.length → (bs[m]? = bs[n]? ↔ bns[m]? = bns[n]?)) ∧
      (∀ b ∈ bs, b ≠ 0 ∧ ¬ (s'.vol (update cur i ip')).Index i b) ∧
      (∀ bn ∈ bns, ∃ k js, bmapPath bn = some (k, js) ∧ js.length = slotDepth k ∧
        ∀ j ∈ js, j < NINDIRECT) ∧
      (∀ m : Nat, bns[m]?.map ((s'.vol (update cur i ip')).lookup i) = bs[m]?) ∧
      ∀ bn, (s.vol cur).lookup i bn ≠ 0 →
        (s'.vol (update cur i ip')).lookup i bn = (s.vol cur).lookup i bn := by
  have hcur : update cur i (cur i) = cur := update_eq_self i cur
  have hs' : (s.vol (update cur i (cur i))).Sound := by rwa [hcur]
  refine ⟨fun hr => ?_, fun bs s' ip' h => ?_⟩
  · have hr' : (s.vol (update cur i (cur i))).Room (reach i bns) := by rwa [hcur]
    exact bmaps_total paths_reach htype hs' hr' fun bn hbn => ⟨places_subset_reach hbn, hbns bn hbn⟩
  · obtain ⟨hgrew, hmap, h0⟩ := bmaps_spec paths_reach htype hs'
      (fun bn => places_subset_reach) h
    refine ⟨hgrew.sound, by rw [hmap, List.length_map], fun m n hm hn => ?_, fun b hb => ?_,
      fun bn hbn => ?_, fun m => ?_, fun bn hbn => ?_⟩
    · rw [hmap, List.getElem?_map, List.getElem?_map, List.getElem?_eq_getElem hm,
        List.getElem?_eq_getElem hn, Option.map_some, Option.map_some, Option.some_inj,
        Option.some_inj]
      constructor
      · intro he
        refine (hgrew.sound.lookup_inj (fun hz => h0 ?_) he).2
        rw [hmap]
        exact List.mem_map.2 ⟨_, List.getElem_mem hm, hz⟩
      · intro he
        rw [he]
    · obtain ⟨bn, -, rfl⟩ := List.mem_map.1 (hmap ▸ hb)
      exact ⟨fun hz => h0 (hz ▸ hb), hgrew.sound.not_index⟩
    · obtain ⟨⟨k, js⟩, hpath⟩ := Option.isSome_iff_exists.mp (bmapPath_isSome (hbns bn hbn))
      exact ⟨k, js, hpath, Vol.bmapPath_spec hpath⟩
    · rw [hmap, List.getElem?_map]
    · have hgrows := hgrew.grows
      rw [hcur] at hgrows
      exact (hgrows.lookup hbn).1

/-- A direct block, a block behind the double index block, and the first again. -/
theorem bmap_stable_injection_three : (blank.vol oneFile).Sound ∧
    ∃ bs s' ip', blank.bmaps (oneFile ⟨1, by decide⟩) [3, 2000, 3] = some (bs, s', ip') ∧
      bs.length = 3 ∧ bs[0]? = bs[2]? ∧ bs[0]? ≠ bs[1]? := by
  have hsound : (blank.vol oneFile).Sound := oneFile_consistent.toSound
  have hmain := bmap_stable_injection (i := ⟨1, by decide⟩) hsound (by decide) [3, 2000, 3]
    (by decide)
  obtain ⟨⟨bs, s', ip'⟩, hr⟩ := hmain.1 (blank_room (by decide))
  obtain ⟨-, hlen, hiff, -⟩ := hmain.2 bs s' ip' hr
  refine ⟨hsound, bs, s', ip', hr, hlen, ?_, ?_⟩
  · exact (hiff 0 2 (by decide) (by decide)).2 rfl
  · intro he
    have := (hiff 0 1 (by decide) (by decide)).1 he
    simp at this

end FsImage

/-! ## The end of the map -/

/-- `bmap` has no way to a block behind the triple index block. -/
theorem bmapPath_eq_none {bn : Nat} (h : NDIRECT + NTINDIRECT ≤ bn) : bmapPath bn = none := by
  cases hp : bmapPath bn with
  | none => rfl
  | some x =>
    have e1 : NDIRECT + NTINDIRECT = 2097162 := rfl
    rcases Vol.bmapPath_cases hp with h1 | h1 | h1 | h1 <;> omega

namespace FsImage

variable {sb : Superblock} {s s' : FsImage} {ip : Dinode} {src : Nat → Byte}
  {L L' : Nat → Nat → Prop} {a b c d j m n : Nat} {v : Block}

/-- `L b d`: block `b` is `d` levels above the data of a file. Index blocks point one level down, and
no block of the file is in the bitmap or free. -/
structure Levels (s : FsImage) (sb : Superblock) (L : Nat → Nat → Prop) : Prop where
  size : sb.size ≤ 2 ^ 32
  /-- the bitmap is in use itself -/
  bitmap : ∀ c < sb.size, BBLOCK c sb < sb.size → s.bit (BBLOCK c sb) sb = true
  inj : ∀ b d d', L b d → L b d' → d = d'
  data : ∀ b d, L b d → (∀ c < sb.size, BBLOCK c sb ≠ b) ∧ (b < sb.size → s.bit b sb = true)
  down : ∀ b d j, L b (d + 1) → j < NINDIRECT → s.ptr b j ≠ 0 → L (s.ptr b j) d

/-- The addresses of the inode are blocks of the file. -/
def Roots (L : Nat → Nat → Prop) (ip : Dinode) : Prop :=
  ∀ k, ip.addrs k ≠ 0 → L (ip.addrs k).toNat (slotDepth k)

/-- The file has got blocks, at most `n` of them. -/
structure Enlarged (sb : Superblock) (s : FsImage) (L : Nat → Nat → Prop) (n : Nat) (s' : FsImage)
    (L' : Nat → Nat → Prop) : Prop where
  levels : s'.Levels sb L'
  keep : L ≤ L'
  free : s.free sb ≤ s'.free sb + n

theorem Levels.refl (h : s.Levels sb L) : Enlarged sb s L n s L := ⟨h, le_rfl, Nat.le_add_right _ _⟩

theorem Enlarged.trans {s'' : FsImage} {L'' : Nat → Nat → Prop} (h : Enlarged sb s L m s' L')
    (h' : Enlarged sb s' L' n s'' L'') : Enlarged sb s L (m + n) s'' L'' :=
  ⟨h'.levels, h.keep.trans h'.keep, by have := h.free; have := h'.free; omega⟩

theorem Roots.mono (h : Roots L ip) (hL : L ≤ L') : Roots L' ip := fun k hk => hL _ _ (h k hk)

/-- A write outside the bitmap. -/
theorem bit_write (hb : ∀ c < sb.size, BBLOCK c sb ≠ b) (hc : c < sb.size) :
    (s.logWrite b v).bit c sb = s.bit c sb := by
  unfold bit
  rw [blk_logWrite_ne (hb c hc)]

/-- A block of the file is written; an index block points to blocks of the file. -/
theorem Levels.write (h : s.Levels sb L) (ha : L a d)
    (hv : ∀ e j, d = e + 1 → j < NINDIRECT → v.word j ≠ 0 → L (v.word j) e) :
    Enlarged sb s L 0 (s.logWrite a v) L := by
  have hbit : ∀ {c}, c < sb.size → (s.logWrite a v).bit c sb = s.bit c sb := bit_write (h.data a d ha).1
  refine ⟨⟨h.size, fun c hc hb => ?_, h.inj, fun b e hb => ?_, fun b e j hb hj => ?_⟩, le_rfl, ?_⟩
  · rw [hbit hb]
    exact h.bitmap c hc hb
  · refine ⟨(h.data b e hb).1, fun hlt => ?_⟩
    rw [hbit hlt]
    exact (h.data b e hb).2 hlt
  · unfold ptr
    by_cases hba : b = a
    · subst hba
      rw [blk_logWrite_self]
      exact hv e j (h.inj b d (e + 1) ha hb) hj
    · rw [blk_logWrite_ne hba]
      exact h.down b e j hb hj
  · refine Nat.le_of_eq (congrArg Finset.card (Finset.filter_congr fun c hc => ?_))
    rw [hbit (Finset.mem_range.1 hc)]

/-- While there is a free block, `balloc` returns one and it can have any level. -/
theorem Levels.balloc (h : s.Levels sb L) (hs : 0 < s.free sb) :
    ∃ b s' L', s.balloc sb = some (b, s') ∧ b < 2 ^ 32 ∧ Enlarged sb s L 1 s' L' ∧ L' b d := by
  obtain ⟨x, hx⟩ := Finset.card_pos.1 hs
  obtain ⟨hlt, hfree⟩ := Finset.mem_filter.1 hx
  unfold FsImage.balloc
  cases hf : s.firstFree sb with
  | none =>
    have := List.find?_eq_none.1 hf x (List.mem_range.2 (Finset.mem_range.1 hlt))
    simp [hfree] at this
  | some b =>
    have hb : b < sb.size := List.mem_range.1 (List.mem_of_find?_eq_some hf)
    have hclear : s.bit b sb = false := by simpa using List.find?_some hf
    -- a free block is not in the bitmap, and in no file
    have hout : ∀ c < sb.size, BBLOCK c sb ≠ b := by
      rintro c hc rfl
      exact Bool.false_ne_true (hclear.symm.trans (h.bitmap c hc hb))
    have hnew : ∀ e, ¬ L b e := fun e he =>
      Bool.false_ne_true (hclear.symm.trans ((h.data b e he).2 hb))
    have hbit : ∀ c < sb.size, ((s.logWrite (BBLOCK b sb)
        ((s.blk (BBLOCK b sb)).setBit (b % BPB))).bzero b).bit c sb = (s.bit c sb || decide (c = b)) :=
      fun c hc => (bit_write hout hc).trans bit_mark
    refine ⟨b, _, fun x e => L x e ∨ x = b ∧ e = d, rfl, hb.trans_le h.size,
      ⟨⟨h.size, fun c hc hm => ?_, fun x e e' he he' => ?_, fun x e he => ?_, fun x e j he hj hp => ?_⟩,
        fun x e => .inl, ?_⟩, .inr ⟨rfl, rfl⟩⟩
    · rw [hbit _ hm, h.bitmap c hc hm, Bool.true_or]
    · rcases he with he | ⟨rfl, rfl⟩ <;> rcases he' with he' | ⟨hx, rfl⟩
      · exact h.inj x e e' he he'
      · exact absurd (hx ▸ he) (hnew e)
      · exact absurd he' (hnew e')
      · rfl
    · rcases he with he | ⟨rfl, -⟩
      · refine ⟨(h.data x e he).1, fun hx => ?_⟩
        rw [hbit x hx, (h.data x e he).2 hx, Bool.true_or]
      · refine ⟨hout, fun hx => ?_⟩
        rw [hbit x hx, decide_eq_true rfl, Bool.or_true]
    · unfold ptr bzero at hp ⊢
      rcases he with he | ⟨rfl, -⟩
      · have hxb : x ≠ b := fun e => hnew _ (e ▸ he)
        rw [blk_logWrite_ne hxb, blk_logWrite_ne ((h.data x _ he).1 b hb).symm] at hp ⊢
        exact .inl (h.down x e j he hj hp)
      · rw [blk_logWrite_self, Block.word_zero] at hp
        exact absurd rfl hp
    · have hsub : ((Finset.range sb.size).filter fun c => s.bit c sb = false).erase b ⊆
          (Finset.range sb.size).filter fun c => ((s.logWrite (BBLOCK b sb)
            ((s.blk (BBLOCK b sb)).setBit (b % BPB))).bzero b).bit c sb = false := by
        intro c hc
        obtain ⟨hne, hc⟩ := Finset.mem_erase.1 hc
        obtain ⟨hr, hc⟩ := Finset.mem_filter.1 hc
        refine Finset.mem_filter.2 ⟨hr, ?_⟩
        rw [hbit c (Finset.mem_range.1 hr), hc, decide_eq_false hne]
        rfl
      have hle := Nat.le_trans Finset.pred_card_le_card_erase (Finset.card_le_card hsub)
      exact Nat.sub_le_iff_le_add.1 hle

theorem Levels.loadAddr (h : s.Levels sb L) (hip : Roots L ip) (k : Slot) (hs : 0 < s.free sb) :
    ∃ a s' addrs L', s.loadAddr ip k sb = some (a, s', { ip with addrs }) ∧ Enlarged sb s L 1 s' L' ∧
      Roots L' { ip with addrs } ∧ L' a (slotDepth k) := by
  unfold FsImage.loadAddr
  split
  next =>
    obtain ⟨b, s', L', hb, hlt, hgrew, hlev⟩ := h.balloc hs
    rw [hb]
    refine ⟨b, s', _, L', rfl, hgrew, fun m hm => ?_, hlev⟩
    dsimp only at hm ⊢
    by_cases hmk : m = k
    · subst hmk
      rw [update_self, BitVec.toNat_ofNat, Nat.mod_eq_of_lt hlt]
      exact hlev
    · rw [update_of_ne hmk] at hm ⊢
      exact hgrew.keep _ _ (hip m hm)
  next h0 => exact ⟨_, s, ip.addrs, L, rfl, h.refl, hip, hip k h0⟩

theorem Levels.loadEntry (h : s.Levels sb L) (ha : L a (d + 1)) (hj : j < NINDIRECT)
    (hs : 0 < s.free sb) :
    ∃ b s' L', s.loadEntry a j sb = some (b, s') ∧ Enlarged sb s L 1 s' L' ∧ L' b d := by
  unfold FsImage.loadEntry
  split
  next =>
    obtain ⟨b, s', L', hb, hlt, hgrew, hlev⟩ := h.balloc hs
    rw [hb]
    refine ⟨b, _, L', rfl, hgrew.trans (hgrew.levels.write (hgrew.keep _ _ ha) ?_), hlev⟩
    rintro e i he hi hne
    obtain rfl : d = e := Nat.succ.inj he
    by_cases hij : i = j
    · subst hij
      rwa [Block.word_setWord hi hlt]
    · rw [Block.word_setWord_ne hij] at hne ⊢
      exact hgrew.levels.down a d i (hgrew.keep _ _ ha) hi hne
  next h0 => exact ⟨_, s, L, rfl, h.refl, h.down a d j ha hj h0⟩

theorem Levels.loadPath (js : List Nat) : ∀ {s : FsImage} {L : Nat → Nat → Prop} {a},
    s.Levels sb L → L a js.length → (∀ j ∈ js, j < NINDIRECT) → js.length ≤ s.free sb →
    ∃ b s' L', s.loadPath a js sb = some (b, s') ∧ Enlarged sb s L js.length s' L' ∧ L' b 0 := by
  induction js with
  | nil =>
    intro s L a h ha _ _
    exact ⟨a, s, L, rfl, h.refl, ha⟩
  | cons j js ih =>
    intro s L a h ha hjs hs
    rw [List.length_cons] at hs
    obtain ⟨b, s₁, L₁, hb, hgrew, hlev⟩ := h.loadEntry ha (hjs j List.mem_cons_self) (by omega)
    have hfree := hgrew.free
    obtain ⟨c, s₂, L₂, hc, hgrew', hlev'⟩ := ih hgrew.levels hlev
      (fun i hi => hjs i (List.mem_cons_of_mem j hi)) (by omega)
    refine ⟨c, s₂, L₂, ?_, ?_, hlev'⟩
    · unfold FsImage.loadPath
      rw [hb]
      exact hc
    · rw [List.length_cons, Nat.add_comm]
      exact hgrew.trans hgrew'

/-- With four free blocks `bmap` returns, for every block number in its range. -/
theorem Levels.bmap (h : s.Levels sb L) (hip : Roots L ip) {bn : Nat} (hs : 4 ≤ s.free sb)
    (hbn : bn < NDIRECT + NTINDIRECT) :
    ∃ b s' addrs L', s.bmap ip bn sb = some (b, s', { ip with addrs }) ∧ Enlarged sb s L 4 s' L' ∧
      Roots L' { ip with addrs } ∧ L' b 0 := by
  obtain ⟨⟨k, js⟩, hpath⟩ := Option.isSome_iff_exists.mp (bmapPath_isSome hbn)
  obtain ⟨hlen, hjs⟩ := Vol.bmapPath_spec hpath
  have hdepth : slotDepth k ≤ 3 := by
    unfold slotDepth
    omega
  obtain ⟨a, s₁, addrs, L₁, ha, hgrew, hroots, hlev⟩ := h.loadAddr hip k (by omega)
  have hfree := hgrew.free
  obtain ⟨b, s₂, L₂, hb, hgrew', hlev'⟩ :=
    Levels.loadPath js hgrew.levels (hlen ▸ hlev) hjs (by omega)
  have hfree' := hgrew'.free
  refine ⟨b, s₂, addrs, L₂, ?_, ⟨hgrew'.levels, hgrew.keep.trans hgrew'.keep, by omega⟩,
    hroots.mono hgrew'.keep, hlev'⟩
  unfold FsImage.bmap
  rw [hpath]
  simp only [ha, Option.bind_some, hb, Option.map_some]

/-- The loop of `writei` comes to its end if and only if it stays in the range of `bmap`. -/
theorem Levels.writeLoop (src : Nat → Byte) {n : Nat} : ∀ fuel tot off {s : FsImage}
    {L : Nat → Nat → Prop} {ip : Dinode}, s.Levels sb L → Roots L ip → n - tot ≤ fuel →
    4 * (n - tot) ≤ s.free sb →
    (off + (n - tot) ≤ (NDIRECT + NTINDIRECT) * BSIZE →
      ∃ r, s.writeLoop src n ip fuel tot off sb = some r) ∧
    (tot < n → (NDIRECT + NTINDIRECT) * BSIZE < off + (n - tot) →
      s.writeLoop src n ip fuel tot off sb = none) := by
  have hrange : (NDIRECT + NTINDIRECT) * BSIZE = 1073746944 := rfl
  have hblocks : NDIRECT + NTINDIRECT = 2097162 := rfl
  have hsize : BSIZE = 512 := rfl
  intro fuel
  induction fuel with
  | zero =>
    intro tot off s L ip _ _ hfuel _
    exact ⟨fun _ => ⟨_, rfl⟩, fun hlt => by omega⟩
  | succ fuel ih =>
    intro tot off s L ip h hip hfuel hs
    have hdiv : off / BSIZE = off / 512 := rfl
    have hmod : off % BSIZE = off % 512 := rfl
    unfold FsImage.writeLoop
    by_cases hlt : tot < n
    · rw [if_pos hlt]
      by_cases hbn : off / BSIZE < NDIRECT + NTINDIRECT
      · obtain ⟨b, s₁, addrs, L₁, hb, hgrew, hroots, hlev⟩ := h.bmap hip (by omega) hbn
        have hm : min (n - tot) (BSIZE - off % BSIZE) ≤ n - tot := Nat.min_le_left _ _
        have hpos : 0 < min (n - tot) (BSIZE - off % BSIZE) := by omega
        have hm' : off % BSIZE + min (n - tot) (BSIZE - off % BSIZE) ≤ BSIZE := by omega
        simp only [hb, Option.bind_some]
        generalize min (n - tot) (BSIZE - off % BSIZE) = m at hm hpos hm' ⊢
        have hwrite := hgrew.trans (hgrew.levels.write hlev
          (v := (s₁.blk b).write (off % BSIZE) m fun k => src (tot + k))
          fun e _ he => absurd he e.succ_ne_zero.symm)
        have hfree := hwrite.free
        obtain ⟨hin, hout⟩ := ih (tot + m) (off + m) hwrite.levels hroots (by omega) (by omega)
        have hend : off + m + (n - (tot + m)) = off + (n - tot) := by omega
        rw [hend] at hin hout
        -- a block that is written ends inside the range, so bytes are left
        exact ⟨hin, fun _ hgt => hout (by omega) hgt⟩
      · have hnone := bmapPath_eq_none (Nat.le_of_not_lt hbn)
        refine ⟨fun hle => by omega, fun _ _ => ?_⟩
        unfold FsImage.bmap
        rw [hnone]
        rfl
    · rw [if_neg hlt]
      exact ⟨fun _ => ⟨_, rfl⟩, fun h' => absurd h' hlt⟩

/-- The write is empty or ends inside the map. -/
def InMap (off n : Word) : Prop :=
  n = 0 ∨ off.toNat + n.toNat ≤ (NDIRECT + NTINDIRECT) * BSIZE

instance (off n : Word) : Decidable (InMap off n) := inferInstanceAs (Decidable (_ ∨ _))

/-- What `writei` lets through. -/
def Accepts (ip : Dinode) (off n : Word) : Prop :=
  ip.type ≠ T_DEV ∧ off ≤ ip.size ∧ off.toNat + n.toNat < 2 ^ 32 ∧
    off.toNat + n.toNat ≤ MAXFILE * BSIZE

theorem Accepts.writei {off n : Word} (h : Accepts ip off n) (i : Nat) :
    s.writei i ip src off n sb =
      (s.writeLoop src n.toNat ip n.toNat 0 off.toNat sb).map fun (s, ip, off) =>
        if 0 < n.toNat ∧ ip.size.toNat < off then
          (.done n.toNat, s.iupdate i { ip with size := .ofNat 32 off } sb,
            { ip with size := .ofNat 32 off })
        else (.done n.toNat, s, ip) := by
  obtain ⟨hdev, hoff, hwrap, hmax⟩ := h
  have hadd : (off + n).toNat = off.toNat + n.toNat := toNat_add_of_lt hwrap
  unfold FsImage.writei
  rw [if_neg hdev, if_neg, if_neg (by rw [hadd]; omega)]
  rw [BitVec.le_def] at hoff
  rw [BitVec.lt_def, BitVec.lt_def, hadd]
  omega

theorem Levels.writei (h : s.Levels sb L) (hip : Roots L ip) {off n : Word}
    (hacc : Accepts ip off n) (i : Nat) (src : Nat → Byte) (hs : 4 * n.toNat ≤ s.free sb) :
    ((∃ s' ip', s.writei i ip src off n sb = some (.done n.toNat, s', ip')) ↔ InMap off n) ∧
    (s.writei i ip src off n sb = none ↔ ¬ InMap off n) := by
  obtain ⟨hin, hout⟩ := Levels.writeLoop src n.toNat 0 off.toNat h hip (Nat.sub_le n.toNat 0)
    (by omega)
  have hdone : InMap off n →
      ∃ s' ip', s.writei i ip src off n sb = some (.done n.toNat, s', ip') := by
    intro hr
    have hloop : ∃ r, s.writeLoop src n.toNat ip n.toNat 0 off.toNat sb = some r := by
      rcases hr with rfl | hr
      · exact ⟨_, rfl⟩
      · exact hin (by omega)
    obtain ⟨⟨s', ip', off'⟩, hloop⟩ := hloop
    rw [hacc.writei, hloop]
    simp only [Option.map_some]
    split
    · exact ⟨_, _, rfl⟩
    · exact ⟨_, _, rfl⟩
  have hpanic : ¬ InMap off n → s.writei i ip src off n sb = none := by
    intro hr
    obtain ⟨hn, hgt⟩ := not_or.1 hr
    have hpos : 0 < n.toNat := Nat.pos_of_ne_zero fun e => hn (BitVec.eq_of_toNat_eq e)
    rw [hacc.writei, hout hpos (by omega)]
    rfl
  refine ⟨⟨fun ⟨s', ip', hw⟩ => ?_, hdone⟩, ⟨fun hw hr => ?_, hpanic⟩⟩
  · by_contra hr
    cases (hpanic hr).symm.trans hw
  · obtain ⟨s', ip', hok⟩ := hdone hr
    cases hok.symm.trans hw

/-! ## Sound volumes -/

section Sound

variable {cur : Inum → Dinode} {i : Inum}

/-- The blocks of a sound volume have levels. -/
def level (V : Vol) (b d : Nat) : Prop :=
  b ≠ 0 ∧ ∃ r p, p.length + d = Vol.depth r ∧ V.addr r p = b

theorem levels_of_sound (hs : (s.vol cur).Sound) : s.Levels mkfs (level (s.vol cur)) where
  size := by decide
  bitmap c hc _ := by
    have hrange := BBLOCK_range hc
    have hlt : BBLOCK c < FSSIZE := hrange.2.trans (by decide)
    exact (used_vol hlt).symm.trans ((hs.bits _ hlt).2 (.inl hrange.2))
  inj := by
    rintro b d d' ⟨h0, r, p, hp, rfl⟩ ⟨-, r', p', hp', he⟩
    obtain ⟨rfl, rfl⟩ := hs.forest.inj r r' p p' (by omega) (by omega) h0 he.symm
    omega
  data := by
    rintro b d ⟨h0, r, p, hp, rfl⟩
    obtain ⟨hmeta, hlt⟩ := hs.addr_range (by omega) h0
    refine ⟨fun c hc he => ?_, fun _ => ?_⟩
    · exact absurd (BBLOCK_range hc).2 (Nat.not_lt.2 (hmeta.trans_eq he.symm))
    · exact (used_vol hlt).symm.trans ((hs.bits _ hlt).2 (.inr ⟨r, p, by omega, rfl⟩))
  down := by
    rintro b d j ⟨h0, r, p, hp, rfl⟩ _ hne
    obtain ⟨hmeta, hlt⟩ := hs.addr_range (by omega) h0
    refine ⟨hne, r, p ++ [j], by rw [List.length_append, List.length_singleton]; omega, ?_⟩
    rw [Vol.addr_snoc, if_neg h0, ptr_vol hmeta hlt]

theorem roots_of_sound (htype : (cur i).type ≠ 0) :
    Roots (level (s.vol cur)) (cur i) := by
  intro k hk
  refine ⟨fun h => hk (BitVec.eq_of_toNat_eq h), (i, k), [], Nat.zero_add _, ?_⟩
  show (if (cur i).type = 0 then 0 else ((cur i).addrs k).toNat) = _
  rw [if_neg htype]

end Sound

/-- A disk of four million blocks, laid out as `mkfs` does it: the bitmap has 1024 blocks. -/
def large : Superblock := { mkfs with size := 2 ^ 22 }

/-- Nothing is stored on it. -/
def largeBlank : FsImage := empty large (large.bmapstart + 1024)

theorem largeBlank_bit (b : Nat) : largeBlank.bit b large = decide (b < large.bmapstart + 1024) :=
  empty_bit large (by decide +kernel)

theorem largeBlank_levels : largeBlank.Levels large fun _ _ => False where
  size := by decide
  bitmap c hc _ := by
    have hc' : c < 1024 * 4096 := hc
    rw [largeBlank_bit, decide_eq_true_eq]
    show c / 4096 + large.bmapstart < _
    omega
  inj _ _ _ := nofun
  data _ _ := nofun
  down _ _ _ := nofun

theorem largeBlank_free : 4 * (1 : Word).toNat ≤ largeBlank.free large :=
  Nat.le_trans (by decide +kernel) (free_of_bits largeBlank_bit)

/-- A file of the size of the map. -/
def fullFile : Dinode := { type := T_FILE, size := .ofNat 32 ((NDIRECT + NTINDIRECT) * BSIZE) }

theorem fullFile_roots : Roots (fun _ _ => False) fullFile := fun _ hk => hk rfl

end FsImage

end Xv6
