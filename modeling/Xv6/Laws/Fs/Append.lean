import Mathlib.Order.Interval.Finset.Nat
import Xv6.Laws.Fs.Content

/-!
# Appending to a file of an image

`iappend` grows the tree of an inode just as `bmap` does, with a counter in place of the bitmap, and
so the laws of `Volume` apply to it: the blocks in use are those below `freeblock`. `Extended` is
what one call, or any number of them, do to the image. The array of addresses that `iappend` works
with ends where the double indirect blocks begin, and with it the files it can make.
-/

namespace Xv6

open Function Xv6.Lib

namespace MkFs

/-- The volume of an image in the making, with inodes `cur`. -/
def vol (m : MkFs) (cur : Inum → Dinode) : Vol where
  cur := cur
  area := m.image.area
  used b := decide (b < m.freeblock)

/-- The inodes on the image. -/
def inodes (m : MkFs) (i : Inum) : Dinode := m.image.dinode i

/-- The trees are sound, and the blocks that are not handed out yet are zero. -/
structure Good (m : MkFs) (cur : Inum → Dinode) : Prop where
  sound : (m.vol cur).Sound
  le : m.freeblock ≤ FSSIZE
  zero : ∀ b, m.freeblock ≤ b → b < FSSIZE → m.blk b = Bytes.zero

variable {m m' m'' : MkFs} {cur cur' cur'' : Inum → Dinode} {din din' din'' : Dinode} {i : Inum}
  {k : Slot} {r : Inum × Slot} {q : List Nat} {a b j fbn x : Nat} {S : Finset Place}
  {lo mid hi off off' : Nat} {f : Nat → Byte}

theorem Good.nmeta_le (h : Good m cur) : nmeta ≤ m.freeblock := by
  by_contra hlt
  have hused := (h.sound.bits m.freeblock (Nat.lt_trans (Nat.lt_of_not_le hlt) (by decide))).2
    (.inl (Nat.lt_of_not_le hlt))
  exact Nat.lt_irrefl _ (of_decide_eq_true hused)

theorem card_free : (m.vol cur).free.card = FSSIZE - m.freeblock := by
  have heq : (m.vol cur).free = Finset.Ico m.freeblock FSSIZE := by
    ext b
    simp only [Vol.free, vol, Finset.mem_filter, Finset.mem_range, decide_eq_false_iff_not,
      Finset.mem_Ico]
    omega
  rw [heq, Nat.card_Ico]

/-! ## Handing out blocks -/

/-- The counter moves on: its block is in use, and it is zero. -/
theorem vol_next (h : Good m cur') (hb : m.freeblock < FSSIZE) :
    ({ m with freeblock := m.freeblock + 1 } : MkFs).vol cur = (m.vol cur).take m.freeblock := by
  have hzero : m.image.area m.freeblock = Bytes.zero := by
    rw [FsImage.area_of_mem h.nmeta_le hb]
    exact h.zero _ (Nat.le_refl _) hb
  have harea : update m.image.area m.freeblock Bytes.zero = m.image.area := by
    rw [← hzero]
    exact update_eq_self _ _
  have hused : (fun b => decide (b < m.freeblock + 1)) =
      update (fun b => decide (b < m.freeblock)) m.freeblock true := by
    funext c
    by_cases hc : c = m.freeblock
    · rw [hc, update_self, decide_eq_true (Nat.lt_succ_self _)]
    · rw [update_of_ne hc]
      exact decide_eq_decide.2 (by omega)
  show Vol.mk cur m.image.area _ = Vol.mk cur (update m.image.area m.freeblock _) _
  rw [harea, hused]
  rfl

@[simp] theorem blk_wsect_self {v : Block} : (m.wsect b v).blk b = v := by
  unfold wsect
  simp only [update_self]

theorem blk_wsect_ne {v : Block} (h : x ≠ b) : (m.wsect b v).blk x = m.blk x := by
  unfold wsect
  simp only [update_of_ne h]

/-- A data block is written. -/
theorem vol_wsect {v : Block} (hb : nmeta ≤ b) (hb' : b < FSSIZE) :
    (m.wsect b v).vol cur = (m.vol cur).put b v := by
  show Vol.mk cur (m.image.logWrite b v).area _ = _
  rw [FsImage.area_logWrite hb hb']
  rfl

/-- The tree of inode `i` has grown; outside the data blocks nothing has changed. -/
structure Grew (i : Inum) (S : Finset Place) (m : MkFs) (cur : Inum → Dinode) (m' : MkFs)
    (cur' : Inum → Dinode) : Prop where
  good : Good m' cur'
  grows : Vol.Grows i S (m.vol cur) (m'.vol cur')
  outside : ∀ b, b < nmeta ∨ FSSIZE ≤ b → m'.blk b = m.blk b
  freeinode : m'.freeinode = m.freeinode

theorem Grew.refl (h : Good m cur) : Grew i S m cur m cur :=
  ⟨h, .refl, fun _ _ => rfl, rfl⟩

theorem Grew.trans (h : Grew i S m cur m' cur') (h' : Grew i S m' cur' m'' cur'') :
    Grew i S m cur m'' cur'' :=
  ⟨h'.good, h.grows.trans h'.grows, fun b hb => (h'.outside b hb).trans (h.outside b hb),
    h'.freeinode.trans h.freeinode⟩

theorem loadAddr_spec (hg : Good m (update cur i din)) (hS : Vol.Paths S)
    (hmem : ((i, k), []) ∈ S) (htype : din.type ≠ 0) (h : m.loadAddr din k = (a, m', din'))
    (ha : a < FSSIZE) :
    Grew i S m (update cur i din) m' (update cur i din') ∧
      (m'.vol (update cur i din')).addr (i, k) [] = a ∧ a ≠ 0 ∧
      ∃ addrs, din' = { din with addrs := addrs } := by
  have hself : (m.vol (update cur i din)).cur i = din := update_self _ _ _
  unfold loadAddr at h
  split at h
  next h0 =>
    cases h
    have hfree : (m.vol (update cur i din)).used m.freeblock = false :=
      decide_eq_false (Nat.lt_irrefl _)
    have hfill := hg.sound.fillRoot (i := i) (k := k) (hself.symm ▸ htype) (hself.symm ▸ h0) ha hfree
    have hvol : ({ m with freeblock := m.freeblock + 1 } : MkFs).vol (update cur i { din with
        addrs := update din.addrs k (.ofNat 32 m.freeblock) }) =
        (m.vol (update cur i din)).fillRoot i k m.freeblock := by
      rw [vol_next hg ha]
      unfold Vol.fillRoot
      rw [hself]
      show Vol.mk _ _ _ = Vol.mk (update (update cur i din) i _) _ _
      rw [update_idem]
      rfl
    refine ⟨⟨⟨?_, ha, ?_⟩, ?_, fun _ _ => rfl, rfl⟩, ?_, ?_, ⟨_, rfl⟩⟩
    · rw [hvol]
      exact hfill.sound hg.sound
    · intro b hb hb'
      exact hg.zero b (Nat.le_of_succ_le hb) hb'
    · rw [hvol]
      exact hfill.grows hg.sound hmem hS
    · rw [hvol]
      exact hfill.addr_self
    · have := hg.nmeta_le
      have : 0 < nmeta := by decide
      omega
  next h0 =>
    cases h
    refine ⟨.refl hg, ?_, fun e => h0 (BitVec.eq_of_toNat_eq e), ⟨_, rfl⟩⟩
    show (if (update cur i din i).type = 0 then 0 else
      ((update cur i din i).addrs k).toNat) = _
    rw [update_self, if_neg htype]

theorem loadEntry_spec (hg : Good m cur) (hS : Vol.Paths S) (hmem : (r, q ++ [j]) ∈ S)
    (ha : (m.vol cur).addr r q = a) (ha0 : a ≠ 0) (h : m.loadEntry a j = some (x, m'))
    (hx : x < FSSIZE) :
    Grew r.1 S m cur m' cur ∧ (m'.vol cur).addr r (q ++ [j]) = x ∧ x ≠ 0 := by
  have hlen : (q ++ [j]).length ≤ Vol.depth r := hS _ hmem
  obtain ⟨hq, hmeta, hsize⟩ := hg.sound.entry_range hlen ha ha0
  unfold loadEntry rsect at h
  rw [if_pos hsize, Option.bind_some] at h
  have hptr : (m.vol cur).ptr a j = (m.blk a).word j := FsImage.ptr_area (s := m.image) rfl hmeta hsize
  split at h
  next hj =>
    split at h
    next h0 =>
      cases h
      have hfree : (m.vol cur).used m.freeblock = false := decide_eq_false (Nat.lt_irrefl _)
      have hfill := hg.sound.fillEntry hlen ha ha0 hj (hptr.trans h0) hx hfree
      have hvol : (({ m with freeblock := m.freeblock + 1 } : MkFs).wsect a
          ((m.blk a).setWord j m.freeblock)).vol cur = (m.vol cur).fillEntry a j m.freeblock := by
        have harea : m.blk a = ((m.vol cur).take m.freeblock).area a := by
          rw [← vol_next hg hx]
          exact (FsImage.area_of_mem (s := m.image) hmeta hsize).symm
        rw [vol_wsect hmeta hsize, vol_next hg hx, harea]
        rfl
      have haused : a < m.freeblock := by
        have := (hg.sound.bits a hsize).2 (.inr ⟨r, q, hq, ha⟩)
        exact of_decide_eq_true this
      refine ⟨⟨⟨?_, hx, ?_⟩, ?_, ?_, rfl⟩, ?_, ?_⟩
      · rw [hvol]
        exact hfill.sound hg.sound
      · intro b hb hb'
        have hb : m.freeblock + 1 ≤ b := hb
        rw [blk_wsect_ne (by omega)]
        exact hg.zero b (by omega) hb'
      · rw [hvol]
        exact hfill.grows hg.sound hmem hS
      · intro b hb
        rw [blk_wsect_ne (by omega)]
      · rw [hvol]
        exact hfill.addr_self
      · have := hg.nmeta_le
        have : 0 < nmeta := by decide
        omega
    next h0 =>
      cases h
      refine ⟨.refl hg, ?_, h0⟩
      rw [Vol.addr_snoc, ha, if_neg ha0, hptr]
  next => cases h

/-- The ways that `iappend` knows. -/
theorem bmapPath_direct (h : fbn < NDIRECT) :
    bmapPath fbn = some (⟨fbn, Nat.lt_of_lt_of_le h (by decide)⟩, []) := by
  unfold bmapPath
  rw [dif_pos h]

theorem bmapPath_indirect (h : ¬ fbn < NDIRECT) (h' : fbn - NDIRECT < NINDIRECT) :
    bmapPath fbn = some (10, [fbn - NDIRECT]) := by
  unfold bmapPath
  rw [dif_neg h]
  simp only
  rw [if_pos h']

/-- The array of addresses ends where the double indirect blocks begin. -/
theorem fileBlock_lt (h : m.fileBlock din fbn = some (x, m', din')) : fbn < NDIRECT + NINDIRECT := by
  unfold fileBlock at h
  split at h
  next hlt => exact Nat.lt_of_lt_of_le hlt (by decide)
  next hge =>
    obtain ⟨⟨y, m₁⟩, hy, -⟩ := Option.map_eq_some_iff.mp h
    obtain ⟨buf, -, hy⟩ := Option.bind_eq_some_iff.mp hy
    split at hy
    next hj => omega
    next => cases hy

/-- The block for `fbn` is the one that the kernel's map has, and the tree grows to have it. -/
theorem fileBlock_spec (hg : Good m (update cur i din)) (htype : din.type ≠ 0)
    (h : m.fileBlock din fbn = some (x, m', din')) (hx : x < FSSIZE) :
    Grew i (Vol.places i fbn) m (update cur i din) m' (update cur i din') ∧
      (m'.vol (update cur i din')).lookup i fbn = x ∧ x ≠ 0 ∧
      ∃ addrs, din' = { din with addrs := addrs } := by
  have hlt := fileBlock_lt h
  unfold fileBlock at h
  split at h
  next hd =>
    have hpath := bmapPath_direct hd
    obtain ⟨hgrew, ha, ha0, hsame⟩ := loadAddr_spec hg Vol.paths_places
      ((Vol.mem_places hpath).2 ⟨rfl, List.nil_prefix⟩) htype (Option.some.inj h) hx
    exact ⟨hgrew, (Vol.lookup_eq hpath).trans ha, ha0, hsame⟩
  next hd =>
    have hpath := bmapPath_indirect hd (by omega)
    generalize hl : m.loadAddr din 10 = l at h
    obtain ⟨a, m₁, din₁⟩ := l
    obtain ⟨⟨y, m₂⟩, hy, heq⟩ := Option.map_eq_some_iff.mp h
    cases heq
    have ha : a < FSSIZE := by
      unfold loadEntry rsect at hy
      split at hy
      next hlt => exact hlt
      next => cases hy
    obtain ⟨hgrew, ha', ha0, hsame⟩ := loadAddr_spec hg Vol.paths_places
      ((Vol.mem_places hpath).2 ⟨rfl, List.nil_prefix⟩) htype hl ha
    obtain ⟨hgrew', hx', hx0⟩ := loadEntry_spec hgrew.good Vol.paths_places
      ((Vol.mem_places hpath).2 ⟨rfl, List.prefix_refl _⟩) ha' ha0 hy hx
    exact ⟨hgrew.trans hgrew', (Vol.lookup_eq hpath).trans hx', hx0, hsame⟩

/-! ## Appending -/

/-- Bytes `lo` to `hi` of file `i` have been appended, and hold `f`. -/
structure Appended (i : Inum) (cur : Inum → Dinode) (lo hi : Nat) (f : Nat → Byte) (m : MkFs)
    (din : Dinode) (m' : MkFs) (din' : Dinode) : Prop where
  good : Good m' (update cur i din')
  wrote : Vol.Wrote i lo hi f (m.vol (update cur i din))
    (m'.vol (update cur i din'))
  same : ∃ addrs, din' = { din with addrs := addrs }
  outside : ∀ b, b < nmeta ∨ FSSIZE ≤ b → m'.blk b = m.blk b
  freeinode : m'.freeinode = m.freeinode
  short : lo < hi → hi ≤ (NDIRECT + NINDIRECT) * BSIZE
  balance : ∀ S, Vol.Paths S → (∀ o, lo ≤ o → o < hi → Vol.places i (o / BSIZE) ⊆ S) →
    ((m.vol (update cur i din)).gap S).card + (m'.vol (update cur i din')).free.card =
      ((m'.vol (update cur i din')).gap S).card + (m.vol (update cur i din)).free.card

theorem Appended.refl (h : Good m (update cur i din)) : Appended i cur lo lo f m din m din where
  good := h
  wrote := .refl h.sound
  same := ⟨din.addrs, rfl⟩
  outside _ _ := rfl
  freeinode := rfl
  short hlt := absurd hlt (Nat.lt_irrefl lo)
  balance _ _ _ := rfl

theorem Appended.trans (h : Appended i cur lo mid f m din m' din')
    (h' : Appended i cur mid hi f m' din' m'' din'') (hle : lo < mid) (hle' : mid ≤ hi) :
    Appended i cur lo hi f m din m'' din'' where
  good := h'.good
  wrote := h.wrote.trans h'.wrote (Nat.le_of_lt hle) hle'
  same := by
    obtain ⟨x, hx⟩ := h.same
    obtain ⟨y, hy⟩ := h'.same
    exact ⟨y, by rw [hy, hx]⟩
  outside b hb := (h'.outside b hb).trans (h.outside b hb)
  freeinode := h'.freeinode.trans h.freeinode
  short _ := by
    by_cases hlt : mid < hi
    · exact h'.short hlt
    · have := h.short hle
      omega
  balance S hS hsub := by
    have := h.balance S hS fun o h1 h2 => hsub o h1 (by omega)
    have := h'.balance S hS fun o h1 h2 => hsub o (by omega) h2
    omega

/-- One turn of the loop of `iappend`. -/
theorem Appended.turn (hg : Good m (update cur i din)) (htype : din.type ≠ 0)
    (h : m.fileBlock din (lo / BSIZE) = some (x, m', din')) (hx : x < FSSIZE) {n : Nat} (hn0 : 0 < n)
    (hn : lo % BSIZE + n ≤ BSIZE) {g : Nat → Byte} (hfg : ∀ k, k < n → g k = f (lo + k)) :
    Appended i cur lo (lo + n) f m din (m'.wsect x ((m'.blk x).write (lo % BSIZE) n g)) din' := by
  obtain ⟨hgrew, hlook, hx0, hsame⟩ := fileBlock_spec hg htype h hx
  have hmeta := (hgrew.good.sound.lookup_range (by rw [hlook]; exact hx0)).1
  rw [hlook] at hmeta
  have hvol : (m'.wsect x ((m'.blk x).write (lo % BSIZE) n g)).vol (update cur i din') =
      (m'.vol (update cur i din')).put x
        (((m'.vol (update cur i din')).area x).write (lo % BSIZE) n g) := by
    rw [vol_wsect hmeta hx]
    show _ = Vol.put _ x (Bytes.write (m'.image.area x) _ _ _)
    rw [FsImage.area_of_mem hmeta hx]
    rfl
  have hput := hgrew.grows.wrote hgrew.good.sound hlook hx0 hn0 hn hfg
  rw [← hvol] at hput
  have hused : x < m'.freeblock := by
    obtain ⟨k, js, hpath⟩ := Vol.exists_path (by rw [hlook]; exact hx0)
    have hlen : js.length ≤ Vol.depth (i, k) := Nat.le_of_eq (Vol.bmapPath_spec hpath).1
    exact of_decide_eq_true ((hgrew.good.sound.bits x hx).2
      (.inr ⟨(i, k), js, hlen, (Vol.lookup_eq hpath).symm.trans hlook⟩))
  refine ⟨⟨hput.sound, hgrew.good.le, ?_⟩, hput, hsame, ?_, hgrew.freeinode, ?_, ?_⟩
  · intro b hb hb'
    have hb : m'.freeblock ≤ b := hb
    rw [blk_wsect_ne (by omega)]
    exact hgrew.good.zero b hb hb'
  · intro b hb
    rw [blk_wsect_ne (by omega)]
    exact hgrew.outside b hb
  · intro _
    have hlt := fileBlock_lt h
    have hdiv := Nat.div_add_mod lo BSIZE
    have hend : lo + n ≤ (lo / BSIZE + 1) * BSIZE := by
      rw [Nat.add_mul, Nat.mul_comm]
      omega
    exact Nat.le_trans hend (Nat.mul_le_mul_right _ hlt)
  · intro S hS hsub
    have hgap : ((m'.wsect x ((m'.blk x).write (lo % BSIZE) n g)).vol
        (update cur i din')).gap S = (m'.vol (update cur i din')).gap S := by
      rw [hvol]
      apply Finset.filter_congr
      intro y hy
      rw [hgrew.good.sound.addr_put hlook (hS y hy) hx0]
    rw [hgap]
    exact (hgrew.grows.mono (hsub lo (Nat.le_refl lo) (by omega)) hS).balance

/-- One turn of the loop writes at least a byte, and none beyond the block. -/
theorem turn_bounds {len : Nat} (h : len ≠ 0) : off - off / BSIZE * BSIZE = off % BSIZE ∧
    min len ((off / BSIZE + 1) * BSIZE - off) ≤ len ∧
    off % BSIZE + min len ((off / BSIZE + 1) * BSIZE - off) ≤ BSIZE ∧
    0 < min len ((off / BSIZE + 1) * BSIZE - off) := by
  have hdiv := Nat.div_add_mod' off BSIZE
  have hmod : off % BSIZE < BSIZE := Nat.mod_lt off (by decide)
  have hnext : (off / BSIZE + 1) * BSIZE = off / BSIZE * BSIZE + BSIZE := by
    rw [Nat.add_mul, Nat.one_mul]
  omega

theorem appendLoop_spec : ∀ fuel {off bytes m din}, bytes.length ≤ fuel →
    Good m (update cur i din) → din.type ≠ 0 →
    (∀ k, k < bytes.length → bytes.getD k 0 = f (off + k)) →
    m.appendLoop din fuel off bytes = some (m', din', off') →
    off' = off + bytes.length ∧ Appended i cur off (off + bytes.length) f m din m' din' := by
  intro fuel
  induction fuel with
  | zero =>
    intro off bytes m din hfuel hg _ _ h
    cases h
    obtain hz : bytes.length = 0 := by omega
    rw [hz]
    exact ⟨rfl, .refl hg⟩
  | succ fuel ih =>
    intro off bytes m din hfuel hg htype hf h
    unfold appendLoop at h
    split at h
    next hz =>
      cases h
      rw [hz]
      exact ⟨rfl, .refl hg⟩
    next hz =>
      split at h
      next => cases h
      next =>
        obtain ⟨⟨x, m₁, din₁⟩, hx, h⟩ := Option.bind_eq_some_iff.mp h
        simp only at h
        obtain ⟨buf, hbuf, h⟩ := Option.bind_eq_some_iff.mp h
        unfold rsect at hbuf
        split at hbuf
        next hlt =>
          cases hbuf
          obtain ⟨hoff, hn, hn', hpos⟩ := turn_bounds hz
          generalize min bytes.length ((off / BSIZE + 1) * BSIZE - off) = n at hn hn' hpos h
          rw [hoff] at h
          have hturn : Appended i cur off (off + n) f m din _ din₁ := .turn hg htype hx hlt hpos hn'
            (g := fun k => bytes.getD k 0) fun k hk => hf k (by omega)
          obtain ⟨addrs, rfl⟩ := hturn.same
          obtain ⟨hoff', hrest⟩ := ih (by rw [List.length_drop]; omega) hturn.good htype
            (fun k hk => by
              rw [List.length_drop] at hk
              have := hf (n + k) (by omega)
              rw [← Nat.add_assoc] at this
              rw [← this, List.getD_eq_getElem?_getD, List.getElem?_drop,
                List.getD_eq_getElem?_getD]) h
          rw [List.length_drop] at hoff' hrest
          have hend : off + n + (bytes.length - n) = off + bytes.length := by omega
          rw [hend] at hoff' hrest
          exact ⟨hoff', hturn.trans hrest (by omega) (by omega)⟩
        next => cases hbuf

/-! ## Appending comes to its end -/

theorem lt_of_free (h : (m.vol cur).free.Nonempty) : m.freeblock < FSSIZE := by
  have := Finset.card_pos.2 h
  rw [card_free] at this
  omega

theorem loadAddr_lt (hg : Good m (update cur i din))
    (hr : (m.vol (update cur i din)).Room S) (hmem : ((i, k), []) ∈ S)
    (htype : din.type ≠ 0) : (m.loadAddr din k).1 < FSSIZE := by
  have haddr : (m.vol (update cur i din)).addr (i, k) [] = (din.addrs k).toNat := by
    show (if (update cur i din i).type = 0 then 0 else
      ((update cur i din i).addrs k).toNat) = _
    rw [update_self, if_neg htype]
  unfold loadAddr
  by_cases h0 : din.addrs k = 0
  · rw [if_pos h0]
    exact lt_of_free (hr.free hmem (by rw [haddr, h0]; rfl))
  · rw [if_neg h0]
    have hne : (m.vol (update cur i din)).addr (i, k) [] ≠ 0 := by
      rw [haddr]
      exact fun e => h0 (BitVec.eq_of_toNat_eq e)
    have := (hg.sound.addr_range (Nat.zero_le _) hne).2
    rwa [haddr] at this

theorem loadEntry_total (hg : Good m cur) (hS : Vol.Paths S) (hr : (m.vol cur).Room S)
    (hmem : (r, q ++ [j]) ∈ S) (ha : (m.vol cur).addr r q = a) (ha0 : a ≠ 0) (hj : j < NINDIRECT) :
    ∃ x m', m.loadEntry a j = some (x, m') ∧ x < FSSIZE := by
  have hlen : (q ++ [j]).length ≤ Vol.depth r := hS _ hmem
  obtain ⟨hq, hmeta, hsize⟩ := hg.sound.entry_range hlen ha ha0
  have hptr : (m.vol cur).addr r (q ++ [j]) = (m.blk a).word j := by
    rw [Vol.addr_snoc, ha, if_neg ha0]
    exact FsImage.ptr_area (s := m.image) rfl hmeta hsize
  unfold loadEntry rsect
  rw [if_pos hsize, Option.bind_some, if_pos hj]
  by_cases h0 : (m.blk a).word j = 0
  · rw [if_pos h0]
    exact ⟨_, _, rfl, lt_of_free (hr.free hmem (hptr.trans h0))⟩
  · rw [if_neg h0]
    refine ⟨_, _, rfl, ?_⟩
    have := (hg.sound.addr_range hlen (by rw [hptr]; exact h0)).2
    rwa [hptr] at this

theorem fileBlock_total (hg : Good m (update cur i din)) (htype : din.type ≠ 0)
    (hr : (m.vol (update cur i din)).Room (Vol.places i fbn))
    (hfbn : fbn < NDIRECT + NINDIRECT) :
    ∃ x m' din', m.fileBlock din fbn = some (x, m', din') ∧ x < FSSIZE := by
  unfold fileBlock
  by_cases hd : fbn < NDIRECT
  · rw [dif_pos hd]
    have hmem : ((i, _), []) ∈ Vol.places i fbn :=
      (Vol.mem_places (bmapPath_direct hd)).2 ⟨rfl, List.nil_prefix⟩
    exact ⟨_, _, _, rfl, loadAddr_lt hg hr hmem htype⟩
  · rw [dif_neg hd]
    have hpath := bmapPath_indirect hd (by omega)
    have hmem : ((i, _), []) ∈ Vol.places i fbn :=
      (Vol.mem_places hpath).2 ⟨rfl, List.nil_prefix⟩
    have hlt := loadAddr_lt hg hr hmem htype
    generalize hl : m.loadAddr din 10 = l at hlt
    obtain ⟨a, m₁, din₁⟩ := l
    obtain ⟨hgrew, ha, ha0, -⟩ := loadAddr_spec hg Vol.paths_places hmem htype hl hlt
    obtain ⟨x, m₂, hx, hlt'⟩ := loadEntry_total hgrew.good Vol.paths_places (hgrew.grows.room hr)
      ((Vol.mem_places hpath).2 ⟨rfl, List.prefix_refl _⟩) ha ha0 (show fbn - NDIRECT < NINDIRECT by omega)
    simp only [hx]
    exact ⟨x, m₂, din₁, rfl, hlt'⟩

theorem appendLoop_total (hS : Vol.Paths S) : ∀ fuel {off bytes} {m : MkFs} {din : Dinode},
    Good m (update cur i din) → din.type ≠ 0 →
    (m.vol (update cur i din)).Room S →
    off + bytes.length ≤ (NDIRECT + NINDIRECT) * BSIZE →
    (∀ o, off ≤ o → o < off + bytes.length → Vol.places i (o / BSIZE) ⊆ S) →
    ∃ x, m.appendLoop din fuel off bytes = some x := by
  have hmax : NDIRECT + NINDIRECT ≤ MAXFILE := by decide
  intro fuel
  induction fuel with
  | zero =>
    intro off bytes m din _ _ _ _ _
    exact ⟨_, rfl⟩
  | succ fuel ih =>
    intro off bytes m din hg htype hr hend hsub
    unfold appendLoop
    by_cases hz : bytes.length = 0
    · rw [if_pos hz]
      exact ⟨_, rfl⟩
    · have hfirst := hsub off (Nat.le_refl off) (by omega)
      have hfbn : off / BSIZE < NDIRECT + NINDIRECT :=
        Nat.div_lt_of_lt_mul (by rw [Nat.mul_comm]; omega)
      obtain ⟨x, m₁, din₁, hx, hlt⟩ := fileBlock_total hg htype (hr.mono hfirst) hfbn
      obtain ⟨hoff, hn, hn', hpos⟩ := turn_bounds hz
      rw [if_neg hz, if_neg (by omega), hx, Option.bind_some]
      simp only
      unfold rsect
      rw [if_pos hlt, Option.bind_some, hoff]
      generalize min bytes.length ((off / BSIZE + 1) * BSIZE - off) = n at hn hn' hpos ⊢
      have hturn : Appended i cur off (off + n) (fun o => bytes.getD (o - off) 0) m din _ din₁ :=
        .turn hg htype hx hlt hpos hn' (g := fun k => bytes.getD k 0) fun k _ => by
          rw [Nat.add_sub_cancel_left]
      obtain ⟨addrs, rfl⟩ := hturn.same
      have hroom := hturn.balance S hS fun o h1 h2 => hsub o h1 (by omega)
      refine ih hturn.good htype ?_ (by rw [List.length_drop]; omega) fun o h1 h2 => ?_
      · unfold Vol.Room at hr ⊢
        omega
      · rw [List.length_drop] at h2
        exact hsub o (by omega) (by omega)

/-! ## Inodes on the image -/

theorem IBLOCK_lt : IBLOCK i < FSSIZE := by
  have := (IBLOCK_range i.isLt).2
  have : mkfs.bmapstart < FSSIZE := by decide
  omega

theorem rinode_eq : m.rinode i = some (m.inodes i) := by
  unfold rinode rsect
  rw [if_pos IBLOCK_lt]
  rfl

theorem winode_eq : m.winode i din =
    some (m.wsect (IBLOCK i) ((m.blk (IBLOCK i)).setDinode (i % IPB) din)) := by
  unfold winode rsect
  rw [if_pos IBLOCK_lt]
  rfl

/-- What writing an inode changes. -/
theorem winode_spec (h : m.winode i din = some m') : m'.inodes = update m.inodes i din ∧
    (∀ cur, m'.vol cur = m.vol cur) ∧ (∀ b, b ≠ IBLOCK i → m'.blk b = m.blk b) ∧
    m'.freeinode = m.freeinode ∧ m'.freeblock = m.freeblock := by
  rw [winode_eq] at h
  obtain rfl := Option.some.inj h
  have hblk : (m.wsect (IBLOCK i) ((m.blk (IBLOCK i)).setDinode (i % IPB) din)).image.blk =
      (m.image.iupdate i din).blk := rfl
  refine ⟨?_, ?_, ?_, rfl, rfl⟩
  · funext j
    unfold inodes
    rw [FsImage.dinode_congr hblk]
    by_cases hj : j = i
    · rw [hj, update_self, FsImage.dinode_iupdate_self]
    · rw [update_of_ne hj, FsImage.dinode_iupdate_ne fun e => hj (Fin.ext e)]
  · intro cur
    unfold vol
    rw [FsImage.area_congr hblk, FsImage.area_iupdate i.isLt]
    rfl
  · intro b hb
    exact blk_wsect_ne hb

/-- The images between two calls of `ialloc` and `iappend`: consistent, with no block behind the end
of a file, with files and directories only, and with zeros where no inode is yet and in the
bitmap. -/
structure Formed (m : MkFs) : Prop where
  good : Good m m.inodes
  mapped : ∀ i, (m.vol m.inodes).Mapped i
  tight : ∀ i bn, (m.vol m.inodes).lookup i bn ≠ 0 → bn * BSIZE < (m.inodes i).size.toNat
  kinds : ∀ i : Inum, 0 < i.val → i.val < m.freeinode →
    (m.inodes i).type = T_DIR ∨ (m.inodes i).type = T_FILE
  fresh : ∀ i : Inum, m.freeinode ≤ i.val → m.inodes i = {}
  clean : ∀ b, mkfs.bmapstart ≤ b → b < nmeta → m.blk b = Bytes.zero

theorem Formed.consistent (h : Formed m) : (m.vol m.inodes).Consistent := ⟨h.good.sound, h.mapped⟩

/-- `bytes` have been appended to file `i`. -/
structure Extended (i : Inum) (bytes : List Byte) (m m' : MkFs) : Prop
    extends Vol.Extends i (m.vol m.inodes) (m'.vol m'.inodes) where
  formed : Formed m'
  contents : (m'.vol m'.inodes).contents i = (m.vol m.inodes).contents i ++ bytes
  same : ∃ size addrs, m'.inodes i = { m.inodes i with size := size, addrs := addrs }
  outside : ∀ b, b < nmeta ∨ FSSIZE ≤ b → b ≠ IBLOCK i → m'.blk b = m.blk b
  freeinode : m'.freeinode = m.freeinode
  short : bytes ≠ [] → (m'.inodes i).size.toNat ≤ (NDIRECT + NINDIRECT) * BSIZE
  balance : ∀ S, Vol.Paths S → (∀ o, (m.inodes i).size.toNat ≤ o →
      o < (m.inodes i).size.toNat + bytes.length → Vol.places i (o / BSIZE) ⊆ S) →
    ((m.vol m.inodes).gap S).card + (m'.vol m'.inodes).free.card =
      ((m'.vol m'.inodes).gap S).card + (m.vol m.inodes).free.card

theorem Extended.others {bytes : List Byte} (h : Extended i bytes m m') :
    ∀ j, j ≠ i → m'.inodes j = m.inodes j := h.cur

/-- The size of the file grows by the number of bytes. -/
theorem Extended.size {bytes : List Byte} (h : Extended i bytes m m') :
    (m'.inodes i).size.toNat = (m.inodes i).size.toNat + bytes.length := by
  have := congrArg List.length h.contents
  rwa [Vol.length_contents, List.length_append, Vol.length_contents] at this

theorem splice_end {l bytes : List Byte} : Vol.splice l l.length bytes = l ++ bytes := by
  unfold Vol.splice
  rw [List.take_length, List.drop_eq_nil_of_le (Nat.le_add_right _ _), List.append_nil]

theorem iappend_spec {bytes : List Byte} (hF : Formed m) (htype : (m.inodes i).type ≠ 0)
    (h : m.iappend i bytes = some m') : Extended i bytes m m' := by
  have hcur : update m.inodes i (m.inodes i) = m.inodes := update_eq_self _ _
  unfold iappend at h
  rw [rinode_eq, Option.bind_some] at h
  obtain ⟨⟨m₁, din₁, off₁⟩, hloop, hw⟩ := Option.bind_eq_some_iff.mp h
  have hgood : Good m (update m.inodes i (m.inodes i)) := by rw [hcur]; exact hF.good
  obtain ⟨rfl, happ⟩ := appendLoop_spec (f := fun o => bytes.getD (o - (m.inodes i).size.toNat) 0)
    bytes.length (Nat.le_refl _) hgood htype (fun k _ => by rw [Nat.add_sub_cancel_left]) hloop
  obtain ⟨hin, hvol, hblk, hfi, hfb⟩ := winode_spec hw
  obtain ⟨addrs, hsame⟩ := happ.same
  -- the inodes on the image were not touched by the loop
  have hdisk : m₁.inodes = m.inodes := by
    funext j
    show (m₁.blk (IBLOCK j)).dinode _ = (m.blk (IBLOCK j)).dinode _
    rw [happ.outside _ (.inl (Nat.lt_of_lt_of_le (IBLOCK_range j.isLt).2 bmapstart_le_nmeta))]
  have hV : m'.vol m'.inodes = (m₁.vol (update m.inodes i din₁)).setSize i
      (.ofNat 32 ((m.inodes i).size.toNat + bytes.length)) := by
    rw [hvol, hin, hdisk]
    show _ = Vol.mk (update (update m.inodes i din₁) i
      { update m.inodes i din₁ i with size := _ }) _ _
    rw [update_self, update_idem]
    rfl
  have hwrote := happ.wrote
  rw [hcur] at hwrote
  have hfit : (m.inodes i).size.toNat + bytes.length < 2 ^ 32 := by
    by_cases hz : bytes.length = 0
    · rw [hz]
      exact (m.inodes i).size.isLt
    · have := happ.short (by omega)
      have : (NDIRECT + NINDIRECT) * BSIZE < 2 ^ 32 := by decide
      omega
  have hsz : (BitVec.ofNat 32 ((m.inodes i).size.toNat + bytes.length)).toNat =
      (m.inodes i).size.toNat + bytes.length := by
    rw [BitVec.toNat_ofNat, Nat.mod_eq_of_lt hfit]
  have hmax : (BitVec.ofNat 32 ((m.inodes i).size.toNat + bytes.length)).toNat =
      max ((m.vol m.inodes).cur i).size.toNat ((m.inodes i).size.toNat + bytes.length) := by
    rw [hsz]
    exact (Nat.max_eq_right (Nat.le_add_right _ _)).symm
  obtain ⟨hcons, hcont, hoth⟩ := hwrote.resize hF.consistent htype (Nat.le_refl _) hmax
  rw [← hV] at hcons hcont hoth
  have haddr : (m'.vol m'.inodes).addr = (m₁.vol (update m.inodes i din₁)).addr := by
    rw [hV]
    exact Vol.addr_congr Vol.root_setSize rfl
  have hself : m'.inodes i = { m.inodes i with
      size := .ofNat 32 ((m.inodes i).size.toNat + bytes.length), addrs := addrs } := by
    rw [hin, update_self, hsame]
  have hothers : ∀ j, j ≠ i → m'.inodes j = m.inodes j := fun j hj => by
    rw [hin, update_of_ne hj, hdisk]
  refine ⟨⟨hothers, ?_, ?_⟩, ⟨⟨hcons.toSound, ?_, ?_⟩, hcons.mapped, ?_, ?_, ?_, ?_⟩, ?_,
    ⟨_, _, hself⟩, ?_, ?_, ?_, ?_⟩
  · intro r p hp h0
    rw [haddr]
    exact hwrote.keep r p hp h0
  · intro c h0 hc
    rw [haddr] at hc
    have := hwrote.frame c h0 hc
    show (m'.vol m'.inodes).area c = _
    rw [hV]
    exact this
  · rw [hfb]
    exact happ.good.le
  · intro b hb hb'
    rw [hfb] at hb
    have := (happ.good.nmeta_le)
    have := (IBLOCK_range i.isLt).2
    have := bmapstart_le_nmeta
    rw [hblk b (by omega)]
    exact happ.good.zero b hb hb'
  · intro j bn hne
    rw [hV, Vol.lookup_setSize] at hne
    by_cases hin' : j = i ∧ (m.inodes i).size.toNat < (bn + 1) * BSIZE ∧
        bn * BSIZE < (m.inodes i).size.toNat + bytes.length
    · rw [hin'.1, hself, hsz]
      exact hin'.2.2
    · rw [hwrote.stay j bn hin'] at hne
      have hold := hF.tight j bn hne
      by_cases hj : j = i
      · subst hj
        rw [hself, hsz]
        omega
      · rw [hothers j hj]
        exact hold
  · intro j hj hj'
    rw [hfi, happ.freeinode] at hj'
    have hkind := hF.kinds j hj hj'
    by_cases hji : j = i
    · subst hji
      rw [hself]
      exact hkind
    · rw [hothers j hji]
      exact hkind
  · intro j hj
    have hfree : m.freeinode ≤ j.val := by
      rw [hfi, happ.freeinode] at hj
      exact hj
    have hji : j ≠ i := by
      rintro rfl
      rw [hF.fresh j hfree] at htype
      exact htype rfl
    rw [hothers j hji]
    exact hF.fresh j hfree
  · intro b hb hb'
    have := (IBLOCK_range i.isLt).2
    rw [hblk b (by omega), happ.outside b (.inl hb')]
    exact hF.clean b hb hb'
  · rw [hcont]
    have hlen : (m.inodes i).size.toNat = ((m.vol m.inodes).contents i).length := by
      rw [Vol.length_contents]
      rfl
    have hbytes : (List.range bytes.length).map (fun k =>
        bytes.getD ((m.inodes i).size.toNat + k - (m.inodes i).size.toNat) 0) = bytes := by
      apply List.ext_getElem?
      intro k
      rw [List.getElem?_map]
      by_cases hk : k < bytes.length
      · rw [List.getElem?_range hk, Option.map_some, Nat.add_sub_cancel_left,
          List.getD_eq_getElem?_getD, List.getElem?_eq_getElem hk]
        rfl
      · rw [List.getElem?_eq_none (by simp; omega), List.getElem?_eq_none (by omega)]
        rfl
    rw [hbytes, hlen]
    exact splice_end
  · intro b hb hne
    rw [hblk b hne]
    exact happ.outside b hb
  · rw [hfi]
    exact happ.freeinode
  · intro hne
    have hpos : 0 < bytes.length := List.length_pos_iff.2 hne
    rw [hself, hsz]
    exact happ.short (by omega)
  · intro S hS hsub
    have hbal := happ.balance S hS hsub
    rw [hcur] at hbal
    have hgap : (m'.vol m'.inodes).gap S = (m₁.vol (update m.inodes i din₁)).gap S := by
      unfold Vol.gap
      rw [haddr]
    rw [hgap, hV]
    exact hbal

theorem Extended.refl (h : Formed m) : Extended i [] m m where
  toExtends := .refl
  formed := h
  contents := (List.append_nil _).symm
  same := ⟨(m.inodes i).size, (m.inodes i).addrs, rfl⟩
  outside _ _ _ := rfl
  freeinode := rfl
  short hne := absurd rfl hne
  balance _ _ _ := rfl

theorem Extended.trans {bytes rest : List Byte} (h : Extended i bytes m m')
    (h' : Extended i rest m' m'') : Extended i (bytes ++ rest) m m'' where
  toExtends := h.toExtends.trans h'.toExtends
  formed := h'.formed
  contents := by rw [h'.contents, h.contents, List.append_assoc]
  same := by
    obtain ⟨_, _, hx⟩ := h.same
    obtain ⟨z, w, hz⟩ := h'.same
    exact ⟨z, w, by rw [hz, hx]⟩
  outside b hb hne := (h'.outside b hb hne).trans (h.outside b hb hne)
  freeinode := h'.freeinode.trans h.freeinode
  short hne := by
    by_cases hrest : rest = []
    · have hsize := h'.size
      rw [hrest, List.length_nil, Nat.add_zero] at hsize
      rw [hsize]
      exact h.short fun hb => hne (by rw [hb, hrest]; rfl)
    · exact h'.short hrest
  balance S hS hsub := by
    rw [List.length_append] at hsub
    have hsize := h.size
    have := h.balance S hS fun o h1 h2 => hsub o h1 (by omega)
    have := h'.balance S hS fun o h1 h2 => hsub o (by omega) (by omega)
    omega

theorem Extended.type {bytes : List Byte} (h : Extended i bytes m m') :
    (m'.inodes i).type = (m.inodes i).type := by
  obtain ⟨_, _, hsame⟩ := h.same
  rw [hsame]

/-- A file is appended piece by piece. -/
theorem appends_spec : ∀ {pieces : List (List Byte)} {m : MkFs}, Formed m →
    (m.inodes i).type ≠ 0 → pieces.foldlM (fun m p => m.iappend i p) m = some m' →
    Extended i pieces.flatten m m' := by
  intro pieces
  induction pieces with
  | nil =>
    intro m hF _ h
    cases h
    exact .refl hF
  | cons p pieces ih =>
    intro m hF htype h
    obtain ⟨m₁, h₁, h⟩ := Option.bind_eq_some_iff.mp h
    have hfirst := iappend_spec hF htype h₁
    exact hfirst.trans (ih hfirst.formed (by rw [hfirst.type]; exact htype) h)

theorem iappend_total {bytes : List Byte} (hF : Formed m) (htype : (m.inodes i).type ≠ 0)
    (hS : Vol.Paths S) (hr : (m.vol m.inodes).Room S)
    (hend : (m.inodes i).size.toNat + bytes.length ≤ (NDIRECT + NINDIRECT) * BSIZE)
    (hsub : ∀ o, (m.inodes i).size.toNat ≤ o → o < (m.inodes i).size.toNat + bytes.length →
      Vol.places i (o / BSIZE) ⊆ S) : ∃ m', m.iappend i bytes = some m' := by
  have hcur : update m.inodes i (m.inodes i) = m.inodes := update_eq_self _ _
  have hgood : Good m (update m.inodes i (m.inodes i)) := by rw [hcur]; exact hF.good
  obtain ⟨⟨m₁, din₁, off₁⟩, hloop⟩ := appendLoop_total hS bytes.length hgood htype
    (by rw [hcur]; exact hr) hend hsub
  unfold iappend
  rw [rinode_eq, Option.bind_some, hloop, Option.bind_some]
  exact ⟨_, winode_eq⟩

theorem appends_total (hS : Vol.Paths S) : ∀ {pieces : List (List Byte)} {m : MkFs}, Formed m →
    (m.inodes i).type ≠ 0 → (m.vol m.inodes).Room S →
    (m.inodes i).size.toNat + pieces.flatten.length ≤ (NDIRECT + NINDIRECT) * BSIZE →
    (∀ o, (m.inodes i).size.toNat ≤ o → o < (m.inodes i).size.toNat + pieces.flatten.length →
      Vol.places i (o / BSIZE) ⊆ S) →
    ∃ m', pieces.foldlM (fun m p => m.iappend i p) m = some m' := by
  intro pieces
  induction pieces with
  | nil =>
    intro m _ _ _ _ _
    exact ⟨m, rfl⟩
  | cons p pieces ih =>
    intro m hF htype hr hend hsub
    rw [List.flatten_cons, List.length_append] at hend hsub
    have hone : ∃ m₁, m.iappend i p = some m₁ := iappend_total hF htype hS hr (by omega)
      fun o h1 h2 => hsub o h1 (by omega)
    obtain ⟨m₁, h₁⟩ := hone
    have hfirst := iappend_spec hF htype h₁
    have hsize := hfirst.size
    have hbal := hfirst.balance S hS fun o h1 h2 => hsub o h1 (by omega)
    have hroom : (m₁.vol m₁.inodes).Room S := by
      unfold Vol.Room at hr ⊢
      omega
    obtain ⟨m', hm'⟩ := ih hfirst.formed (by rw [hfirst.type]; exact htype) hroom (by omega)
      fun o h1 h2 => hsub o (by omega) (by omega)
    refine ⟨m', ?_⟩
    rw [List.foldlM_cons, h₁]
    exact hm'

end MkFs

end Xv6
