import Xv6.Laws.Fs.Bmap

/-!
# Truncation

The nested loops of `itrunc` free the blocks of a tree one after another, in the order of
`Lib.below`: a run of `bfree` over a list. In a sound volume the list has every data and index block
of the inode once, and all of them are in use, so no `bfree` panics, and afterwards exactly these
blocks are free.
-/

namespace Xv6

open Function Xv6.Lib

namespace FsImage

variable {s s' : FsImage} {cur : Inum → Dinode} {ip : Dinode} {i : Inum} {a b c : Nat}
  {l : List Nat} {A : Nat → Block}

theorem bfree_area (hb : b < FSSIZE) (h : s.bfree b = some s') : s'.area = s.area := by
  unfold bfree at h
  split at h
  next =>
    cases h
    exact area_logWrite_meta (BBLOCK_range hb).2
  next => cases h

theorem bfrees_area : ∀ {l : List Nat} {s : FsImage}, (∀ b ∈ l, b < FSSIZE) →
    l.foldlM bfree s = some s' → s'.area = s.area := by
  intro l
  induction l with
  | nil =>
    intro s _ h
    cases h
    rfl
  | cons b l ih =>
    intro s hl h
    obtain ⟨s₁, h₁, h⟩ := Option.bind_eq_some_iff.mp h
    rw [ih (fun c hc => hl c (List.mem_cons_of_mem b hc)) h]
    exact bfree_area (hl b List.mem_cons_self) h₁

/-- Freeing blocks that are in use, each once. -/
theorem bfrees_spec : ∀ {l : List Nat} {s : FsImage}, l.Nodup →
    (∀ b ∈ l, b < FSSIZE ∧ s.bit b = true) →
    ∃ s', l.foldlM bfree s = some s' ∧ s'.area = s.area ∧
      (∀ j, j < NINODES → s'.dinode j = s.dinode j) ∧
      ∀ c, s'.bit c = (s.bit c && !decide (c ∈ l)) := by
  intro l
  induction l with
  | nil =>
    intro s _ _
    exact ⟨s, rfl, rfl, fun _ _ => rfl, fun c => by simp⟩
  | cons b l ih =>
    intro s hnd hl
    obtain ⟨hb, hbit⟩ := hl b List.mem_cons_self
    obtain ⟨hnot, hnd⟩ := List.nodup_cons.1 hnd
    have hfree : s.bfree b =
        some (s.logWrite (BBLOCK b) ((s.blk (BBLOCK b)).clearBit (b % BPB))) := if_pos hbit
    obtain ⟨s', h, harea, hdisk, hbits⟩ := ih (s := s.logWrite (BBLOCK b)
      ((s.blk (BBLOCK b)).clearBit (b % BPB))) hnd fun c hc => by
        obtain ⟨hlt, hset⟩ := hl c (List.mem_cons_of_mem b hc)
        have hcb : c ≠ b := by
          rintro rfl
          exact hnot hc
        refine ⟨hlt, ?_⟩
        rw [bit_clear, hset, decide_eq_false hcb]
        rfl
    refine ⟨s', ?_, ?_, ?_, ?_⟩
    · rw [List.foldlM_cons, hfree]
      exact h
    · rw [harea]
      exact area_logWrite_meta (BBLOCK_range hb).2
    · intro j hj
      rw [hdisk j hj, dinode_logWrite_bitmap hb hj]
    · intro c
      rw [hbits, bit_clear, Bool.eq_iff_iff]
      simp only [Bool.and_eq_true, Bool.not_eq_true', decide_eq_false_iff_not, List.mem_cons, not_or]
      constructor
      · rintro ⟨⟨h1, h2⟩, h3⟩
        exact ⟨h1, h2, h3⟩
      · rintro ⟨h1, h2, h3⟩
        exact ⟨⟨h1, h2⟩, h3⟩

/-- The pointers in data blocks `A`. -/
def ptrs (A : Nat → Block) (a j : Nat) : Nat := (A a).word j

/-- The loops of `itrunc` below one address. -/
theorem freeTree_eq : ∀ {d a : Nat} {s : FsImage}, s.area = A → a ≠ 0 →
    (∀ b ∈ below (ptrs A) NINDIRECT d a, nmeta ≤ b ∧ b < FSSIZE) →
    freeTree d s a = (below (ptrs A) NINDIRECT d a).foldlM bfree s := by
  intro d
  induction d with
  | zero =>
    intro a s _ _ _
    show s.bfree a = (s.bfree a).bind some
    rw [Option.bind_fun_some]
  | succ d ih =>
    intro a s hA ha hrange
    have harange := hrange a (List.mem_append_right _ (List.mem_singleton.2 rfl))
    have hptr : ∀ {s : FsImage} {j : Nat}, s.area = A → s.ptr a j = ptrs A a j := by
      intro s j hs
      show (s.blk a).word j = (A a).word j
      rw [← hs, area_of_mem harange.1 harange.2]
    -- the loop over the entries, for any part of them
    have hloop : ∀ (js : List Nat) (s : FsImage), s.area = A → (∀ j ∈ js, j < NINDIRECT) →
        js.foldlM (fun s j => if s.ptr a j = 0 then some s else freeTree d s (s.ptr a j)) s =
          (js.flatMap fun j => if ptrs A a j = 0 then []
            else below (ptrs A) NINDIRECT d (ptrs A a j)).foldlM bfree s := by
      intro js
      induction js with
      | nil =>
        intro s _ _
        rfl
      | cons j js ihj =>
        intro s hs hjs
        rw [List.foldlM_cons, List.flatMap_cons, List.foldlM_append, hptr hs]
        have hrest : ∀ j ∈ js, j < NINDIRECT := fun m hm => hjs m (List.mem_cons_of_mem j hm)
        by_cases h0 : ptrs A a j = 0
        · rw [if_pos h0, if_pos h0]
          exact ihj s hs hrest
        · have hsub : ∀ b ∈ below (ptrs A) NINDIRECT d (ptrs A a j), nmeta ≤ b ∧ b < FSSIZE := by
            intro b hb
            refine hrange b (List.mem_append_left _ (List.mem_flatMap.2
              ⟨j, List.mem_range.2 (hjs j List.mem_cons_self), ?_⟩))
            rw [if_neg h0]
            exact hb
          rw [if_neg h0, if_neg h0, ih hs h0 hsub]
          cases hf : (below (ptrs A) NINDIRECT d (ptrs A a j)).foldlM bfree s with
          | none => rfl
          | some s₁ => exact ihj s₁ ((bfrees_area (fun b hb => (hsub b hb).2) hf).trans hs) hrest
    show Option.bind _ _ = _
    rw [hloop _ s hA fun j hj => List.mem_range.1 hj]
    show _ = (_ ++ [a]).foldlM bfree s
    rw [List.foldlM_append]
    congr 1
    funext s₁
    show s₁.bfree a = (s₁.bfree a).bind some
    rw [Option.bind_fun_some]

/-- The blocks below an entry of `addrs`. -/
def slotBlocks (A : Nat → Block) (ip : Dinode) (k : Slot) : List Nat :=
  if ip.addrs k = 0 then [] else below (ptrs A) NINDIRECT (slotDepth k) (ip.addrs k).toNat

theorem truncSlots_eq : ∀ {ks : List Slot} {s : FsImage}, s.area = A →
    (∀ k ∈ ks, ∀ b ∈ slotBlocks A ip k, nmeta ≤ b ∧ b < FSSIZE) →
    s.truncSlots ip ks = (ks.flatMap (slotBlocks A ip)).foldlM bfree s := by
  intro ks
  induction ks with
  | nil =>
    intro s _ _
    rfl
  | cons k ks ih =>
    intro s hA hrange
    have hrest := fun m hm => hrange m (List.mem_cons_of_mem k hm)
    have hk := hrange k List.mem_cons_self
    rw [List.flatMap_cons, List.foldlM_append]
    unfold truncSlots
    unfold slotBlocks at hk ⊢
    by_cases h0 : ip.addrs k = 0
    · rw [if_pos h0, if_pos h0]
      exact ih hA hrest
    · rw [if_neg h0] at hk
      have hne : (ip.addrs k).toNat ≠ 0 := fun e => h0 (BitVec.eq_of_toNat_eq e)
      rw [if_neg h0, if_neg h0, freeTree_eq hA hne hk]
      cases hf : (below (ptrs A) NINDIRECT (slotDepth k) (ip.addrs k).toNat).foldlM bfree s with
      | none => rfl
      | some s₁ => exact ih ((bfrees_area (fun b hb => (hk b hb).2) hf).trans hA) hrest

end FsImage

namespace Vol

variable {V : Vol} {ip : Dinode} {i : Inum} {a b c : Nat} {k : Slot}

/-- Block `b` is a data or index block of inode `i`. -/
def InTree (V : Vol) (i : Inum) (b : Nat) : Prop :=
  b ≠ 0 ∧ ∃ k p, p.length ≤ depth (i, k) ∧ V.addr (i, k) p = b

/-- All blocks of an inode, in the order in which `itrunc` frees them. -/
def treeBlocks (V : Vol) (ip : Dinode) : List Nat :=
  (List.finRange 13).flatMap (FsImage.slotBlocks V.area ip)

theorem word_out {v : Block} {j : Nat} (h : NINDIRECT ≤ j) : v.word j = 0 := by
  have hj : 128 ≤ j := h
  have hzero : Bytes.field v (4 * j) 4 = Bytes.field (Bytes.zero : Block) (4 * j) 4 := by
    apply Bytes.field_congr
    intro m _
    rw [Bytes.byte_zero]
    unfold Bytes.byte
    rw [dif_neg (by simp only [BSIZE]; omega)]
  exact hzero.trans (Bytes.field_zero _ _)

theorem root_self (hcur : V.cur i = ip) (htype : ip.type ≠ 0) : V.root (i, k) = (ip.addrs k).toNat := by
  unfold root
  rw [hcur, if_neg htype]

theorem mem_slotBlocks (hcur : V.cur i = ip) (htype : ip.type ≠ 0) :
    b ∈ FsImage.slotBlocks V.area ip k ↔
      b ≠ 0 ∧ ∃ p, p.length ≤ depth (i, k) ∧ V.addr (i, k) p = b := by
  unfold FsImage.slotBlocks addr
  rw [root_self hcur htype]
  by_cases h0 : ip.addrs k = 0
  · rw [if_pos h0, h0]
    constructor
    · intro h
      exact absurd h List.not_mem_nil
    · rintro ⟨hb, p, -, he⟩
      rw [show ((0 : Word)).toNat = 0 from rfl, follow_zero] at he
      exact absurd he.symm hb
  · have hne : (ip.addrs k).toNat ≠ 0 := fun e => h0 (BitVec.eq_of_toNat_eq e)
    rw [if_neg h0]
    constructor
    · exact exists_path_of_mem_below hne
    · rintro ⟨hb, p, hp, he⟩
      exact mem_below_of_path (fun a j hj => word_out hj) hp he hb

theorem mem_treeBlocks (hcur : V.cur i = ip) (htype : ip.type ≠ 0) :
    b ∈ V.treeBlocks ip ↔ V.InTree i b := by
  unfold treeBlocks InTree
  rw [List.mem_flatMap]
  constructor
  · rintro ⟨k, -, hb⟩
    obtain ⟨hb0, p, hp, he⟩ := (mem_slotBlocks hcur htype).1 hb
    exact ⟨hb0, k, p, hp, he⟩
  · rintro ⟨hb0, k, p, hp, he⟩
    exact ⟨k, List.mem_finRange k, (mem_slotBlocks hcur htype).2 ⟨hb0, p, hp, he⟩⟩

theorem Sound.nodup_treeBlocks (h : V.Sound) (hcur : V.cur i = ip) (htype : ip.type ≠ 0) :
    (V.treeBlocks ip).Nodup := by
  refine List.nodup_flatMap.2 ⟨fun k _ => ?_, ?_⟩
  · unfold FsImage.slotBlocks
    split
    next => exact List.nodup_nil
    next h0 =>
      refine nodup_below (fun e => h0 (BitVec.eq_of_toNat_eq e)) fun p p' hp hp' hne he => ?_
      have hroot := root_self (k := k) hcur htype
      rw [← hroot] at hne he
      exact (h.forest.inj (i, k) (i, k) p p' hp hp' hne he).2
  · refine (List.nodup_finRange 13).imp ?_
    intro k k' hkk' b hb hb'
    obtain ⟨hb0, p, hp, he⟩ := (mem_slotBlocks hcur htype).1 hb
    obtain ⟨-, p', hp', he'⟩ := (mem_slotBlocks hcur htype).1 hb'
    obtain ⟨hr, -⟩ := h.forest.inj (i, k) (i, k') p p' hp hp'
      (show V.addr (i, k) p ≠ 0 by rw [he]; exact hb0) (he.trans he'.symm)
    exact hkk' (Prod.mk.inj hr).2

/-- An inode without blocks: what remains is sound if exactly its blocks are freed. -/
theorem Sound.drop (h : V.Sound) {V' : Vol} (harea : V'.area = V.area)
    (hcur : ∀ j, j ≠ i → V'.cur j = V.cur j) (hempty : ∀ k, V'.root (i, k) = 0)
    (hused : ∀ c, c < FSSIZE → (V'.used c = true ↔ V.used c = true ∧ ¬ V.InTree i c)) :
    V'.Sound := by
  have hroot : ∀ r : Inum × Slot, r.1 ≠ i → V'.root r = V.root r := by
    intro r hr
    unfold root
    rw [hcur r.1 hr]
  have hptr : V'.ptr = V.ptr := by
    funext a j
    unfold ptr
    rw [harea]
  have haddr : ∀ r p, V'.addr r p ≠ 0 → r.1 ≠ i ∧ V'.addr r p = V.addr r p := by
    intro r p hne
    have hr : r.1 ≠ i := by
      intro e
      apply hne
      obtain ⟨j, k⟩ := r
      obtain rfl : j = i := e
      show follow V'.ptr (V'.root (j, k)) p = 0
      rw [hempty, follow_zero]
    refine ⟨hr, ?_⟩
    unfold addr
    rw [hroot r hr, hptr]
  have hholds : ∀ c, c ≠ 0 → (V'.Holds c ↔ V.Holds c ∧ ¬ V.InTree i c) := by
    intro c hc
    constructor
    · rintro ⟨r, p, hp, he⟩
      obtain ⟨hr, heq⟩ := haddr r p (show V'.addr r p ≠ 0 by
        rw [show V'.addr r p = c from he]
        exact hc)
      have he' : V.addr r p = c := heq.symm.trans he
      refine ⟨⟨r, p, hp, he'⟩, ?_⟩
      rintro ⟨-, k, p', hp', hk⟩
      obtain ⟨rfl, -⟩ := h.forest.inj r (i, k) p p' hp hp'
        (show V.addr r p ≠ 0 by rw [he']; exact hc) (he'.trans hk.symm)
      exact hr rfl
    · rintro ⟨⟨⟨j, k⟩, p, hp, he⟩, hno⟩
      have hj : j ≠ i := by
        rintro rfl
        exact hno ⟨hc, k, p, hp, he⟩
      refine ⟨(j, k), p, hp, ?_⟩
      rw [hroot (j, k) hj, hptr]
      exact he
  constructor
  · constructor
    intro r r' p p' hp hp' hne heq
    obtain ⟨-, e⟩ := haddr r p hne
    obtain ⟨-, e'⟩ := haddr r' p' (show V'.addr r' p' ≠ 0 by
      rw [show V'.addr r' p' = V'.addr r p from heq.symm]
      exact hne)
    refine h.forest.inj r r' p p' hp hp' (show V.addr r p ≠ 0 by rw [← e]; exact hne) ?_
    exact e.symm.trans (heq.trans e')
  · intro c hc h0
    exact h.range c ((hholds c h0).1 hc).1 h0
  · intro c hc
    rw [hused c hc, h.bits c hc]
    by_cases h0 : c = 0
    · subst h0
      exact iff_of_true ⟨.inl (by decide), fun ht => ht.1 rfl⟩ (.inl (by decide))
    · rw [hholds c h0]
      constructor
      · rintro ⟨hmeta | hold, hno⟩
        · exact .inl hmeta
        · exact .inr ⟨hold, hno⟩
      · rintro (hmeta | ⟨hold, hno⟩)
        · refine ⟨.inl hmeta, ?_⟩
          rintro ⟨-, k, p, hp, he⟩
          have := (h.range c ⟨(i, k), p, hp, he⟩ h0).1
          omega
        · exact ⟨.inr hold, hno⟩

end Vol

namespace FsImage

variable {s : FsImage} {cur : Inum → Dinode} {ip : Dinode} {i : Inum}

/-- `itrunc` frees the data and index blocks of the inode and nothing else, and never panics. -/
theorem itrunc_spec (hs : (s.vol (update cur i ip)).Sound) (htype : ip.type ≠ 0) :
    ∃ s', s.itrunc i ip = some (s', { ip with addrs := fun _ => 0, size := 0 }) ∧
      s'.area = s.area ∧ (∀ j : Inum, j ≠ i → s'.dinode j = s.dinode j) ∧
      s'.dinode i = { ip with addrs := fun _ => 0, size := 0 } ∧
      ∀ c, c < FSSIZE → (s'.bit c = true ↔
        s.bit c = true ∧ ¬ (s.vol (update cur i ip)).InTree i c) := by
  have hcur : (s.vol (update cur i ip)).cur i = ip := update_self _ _ _
  have hmem : ∀ b, b ∈ (s.vol (update cur i ip)).treeBlocks ip ↔
      (s.vol (update cur i ip)).InTree i b := fun b => Vol.mem_treeBlocks hcur htype
  have hin : ∀ b, (s.vol (update cur i ip)).InTree i b →
      (nmeta ≤ b ∧ b < FSSIZE) ∧ s.bit b = true := by
    rintro b ⟨hb0, k, p, hp, he⟩
    have hrange := hs.range b ⟨(i, k), p, hp, he⟩ hb0
    refine ⟨hrange, ?_⟩
    have hused := (hs.bits b hrange.2).2 (.inr ⟨(i, k), p, hp, he⟩)
    rwa [used_vol hrange.2] at hused
  obtain ⟨s₁, hfree, harea, hdisk, hbits⟩ := bfrees_spec (hs.nodup_treeBlocks hcur htype) fun b hb =>
    ⟨(hin b ((hmem b).1 hb)).1.2, (hin b ((hmem b).1 hb)).2⟩
  have hslots : s.truncSlots ip (List.finRange 13) = some s₁ := by
    rw [truncSlots_eq rfl fun k _ b hb =>
      (hin b ((hmem b).1 (List.mem_flatMap.2 ⟨k, List.mem_finRange k, hb⟩))).1]
    exact hfree
  refine ⟨s₁.iupdate i { ip with addrs := fun _ => 0, size := 0 }, ?_, ?_, ?_, ?_, ?_⟩
  · unfold itrunc
    rw [hslots]
    rfl
  · rw [area_iupdate i.isLt, harea]
  · intro j hj
    rw [dinode_iupdate_ne fun e => hj (Fin.ext e), hdisk j j.isLt]
  · exact dinode_iupdate_self
  · intro c hc
    rw [bit_iupdate i.isLt hc, hbits, Bool.and_eq_true, Bool.not_eq_true', decide_eq_false_iff_not,
      hmem c]

end FsImage

end Xv6
