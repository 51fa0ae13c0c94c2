import Mathlib.Data.Finset.Card
import Mathlib.Data.Finset.Prod
import Xv6.Lib.Forest
import Xv6.Laws.Fs.Layout

/-!
# The volume: inodes, data blocks and which blocks are in use

What the kernel and `mkfs` both make of a disk: inodes with thirteen addresses each, index blocks
and data blocks behind them, and a set of blocks in use. The trees of all inodes are one forest of
`Lib.Forest`; `Sound` says that they share no block and that the blocks in use are the metadata and
those of the trees.

Both programs change a volume in three ways only: a null address gets a fresh block (`fillRoot`,
`fillEntry`) and a block at the end of a path is written (`put`). `Wrote` is what any number of
such changes amount to for the contents of files.
-/

namespace Xv6

open Function Xv6.Lib

structure Vol where
  /-- the inodes as the program has them: a copy in memory counts, not the one on disk -/
  cur : Inum → Dinode
  /-- the data blocks -/
  area : Nat → Block
  used : Nat → Bool

/-- A place for an address: an entry of an inode's `addrs`, and indices in index blocks. -/
abbrev Place := (Inum × Slot) × List Nat

namespace Vol

def depth (r : Inum × Slot) : Nat := slotDepth r.2

/-- An inode of type 0 is free, and its addresses mean nothing. -/
def root (V : Vol) (r : Inum × Slot) : Nat :=
  if (V.cur r.1).type = 0 then 0 else ((V.cur r.1).addrs r.2).toNat

def ptr (V : Vol) (a j : Nat) : Nat := (V.area a).word j

/-- The address at a place. -/
def addr (V : Vol) (r : Inum × Slot) (p : List Nat) : Nat := follow V.ptr (V.root r) p

/-- The address of block `bn` of a file, and 0 if it has none. -/
def lookup (V : Vol) (i : Inum) (bn : Nat) : Nat :=
  ((bmapPath bn).map fun (k, js) => V.addr (i, k) js).getD 0

/-- The places on the way to block `bn` of a file. -/
def places (i : Inum) (bn : Nat) : Finset Place :=
  match bmapPath bn with
  | none => ∅
  | some (k, js) => (js.inits.map fun p => ((i, k), p)).toFinset

/-- Byte `o` of a file. -/
def byteAt (V : Vol) (i : Inum) (o : Nat) : Byte :=
  (V.area (V.lookup i (o / BSIZE))).byte (o % BSIZE)

/-- Block `b` is a data or index block of some inode. -/
def Holds (V : Vol) (b : Nat) : Prop := Occurs depth V.root V.ptr b

structure Sound (V : Vol) : Prop where
  forest : Forest depth V.root V.ptr
  range : ∀ b, V.Holds b → b ≠ 0 → nmeta ≤ b ∧ b < FSSIZE
  bits : ∀ b, b < FSSIZE → (V.used b = true ↔ b < nmeta ∨ V.Holds b)

/-- Every block below the size of an inode in use has an address. -/
def Mapped (V : Vol) (i : Inum) : Prop :=
  (V.cur i).type ≠ 0 → ∀ bn, bn * BSIZE < (V.cur i).size.toNat → V.lookup i bn ≠ 0

structure Consistent (V : Vol) : Prop extends V.Sound where
  mapped : ∀ i, V.Mapped i

/-- A file is a string of bytes. -/
def contents (V : Vol) (i : Inum) : List Byte :=
  (List.range (V.cur i).size.toNat).map (V.byteAt i)

/-- The blocks that can be allocated. -/
def free (V : Vol) : Finset Nat := (Finset.range FSSIZE).filter fun b => V.used b = false

/-- The places of `S` that have no block. -/
def gap (V : Vol) (S : Finset Place) : Finset Place := S.filter fun x => V.addr x.1 x.2 = 0

/-- There are blocks for all the places of `S`. -/
def Room (V : Vol) (S : Finset Place) : Prop := (V.gap S).card ≤ V.free.card

variable {V V' V'' : Vol} {i : Inum} {k : Slot} {r : Inum × Slot} {p q js : List Nat}
  {a b j bn : Nat} {S : Finset Place} {v : Block}

theorem addr_snoc : V.addr r (q ++ [j]) = if V.addr r q = 0 then 0 else V.ptr (V.addr r q) j :=
  follow_snoc _ _ _

theorem Sound.addr_range (h : V.Sound) (hp : p.length ≤ depth r) (h0 : V.addr r p ≠ 0) :
    nmeta ≤ V.addr r p ∧ V.addr r p < FSSIZE :=
  h.range _ ⟨r, p, hp, rfl⟩ h0

/-- The same for a block with an entry that is a place. -/
theorem Sound.entry_range (h : V.Sound) (hp : (p ++ [j]).length ≤ depth r) (ha : V.addr r p = a)
    (ha0 : a ≠ 0) : p.length ≤ depth r ∧ nmeta ≤ a ∧ a < FSSIZE := by
  rw [List.length_append] at hp
  exact ⟨by omega, h.range a ⟨r, p, by omega, ha⟩ ha0⟩

/-- A block that is free is a data block, and at no place. -/
theorem Sound.fresh (h : V.Sound) (hb : b < FSSIZE) (hfree : V.used b = false) :
    nmeta ≤ b ∧ ¬ V.Holds b := by
  have hiff := h.bits b hb
  rw [hfree] at hiff
  constructor
  · by_contra hlt
    exact Bool.false_ne_true (hiff.2 (.inl (Nat.lt_of_not_le hlt)))
  · intro hh
    exact Bool.false_ne_true (hiff.2 (.inr hh))

/-- A volume without a block in a tree is sound if its metadata is in use. -/
theorem sound_of_empty (hroot : ∀ r, V.root r = 0)
    (hbits : ∀ b, b < FSSIZE → (V.used b = true ↔ b < nmeta)) : V.Sound := by
  have hnull : ∀ r p, follow V.ptr (V.root r) p = 0 := fun r p => by rw [hroot, follow_zero]
  have hholds : ∀ b, V.Holds b → b = 0 := by
    rintro b ⟨r, p, -, rfl⟩
    exact hnull r p
  constructor
  · exact ⟨fun r _ p _ _ _ hne _ => absurd (hnull r p) hne⟩
  · intro b hb h0
    exact absurd (hholds b hb) h0
  · intro b hb
    rw [hbits b hb]
    constructor
    · exact .inl
    · rintro (hlt | hocc)
      · exact hlt
      · rw [hholds b hocc]
        decide

/-! ## The block map -/

section Path

variable (h : bmapPath bn = some (k, js))

include h

/-- The four ranges of block numbers. -/
theorem bmapPath_cases :
    (bn < 10 ∧ k.val = bn ∧ js = []) ∨ (10 ≤ bn ∧ bn < 138 ∧ k.val = 10 ∧ js = [bn - 10]) ∨
    (138 ≤ bn ∧ bn < 16394 ∧ k.val = 11 ∧ js = [(bn - 10) / 128, (bn - 10) % 128]) ∨
    (16394 ≤ bn ∧ bn < 2097162 ∧ k.val = 12 ∧
      js = [(bn - 10) / 16384, (bn - 10) % 16384 / 128, (bn - 10) % 128]) := by
  have e1 : NDIRECT = 10 := rfl
  have e2 : NINDIRECT = 128 := rfl
  have e3 : NDINDIRECT = 16384 := rfl
  have e4 : NTINDIRECT = 2097152 := rfl
  unfold bmapPath at h
  simp only [e1, e2, e3, e4] at h
  split at h
  next hlt => cases h; exact .inl ⟨hlt, rfl, rfl⟩
  next =>
    split at h
    next => cases h; exact .inr (.inl ⟨by omega, by omega, rfl, rfl⟩)
    next =>
      split at h
      next => cases h; exact .inr (.inr (.inl ⟨by omega, by omega, rfl, rfl⟩))
      next =>
        split at h
        next => cases h; exact .inr (.inr (.inr ⟨by omega, by omega, rfl, rfl⟩))
        next => cases h

/-- `bmap`'s way to a block is as deep as its entry of `addrs`, with indices inside index
blocks. -/
theorem bmapPath_spec : js.length = slotDepth k ∧ ∀ j ∈ js, j < NINDIRECT := by
  have e : NINDIRECT = 128 := rfl
  unfold slotDepth
  rw [e]
  rcases bmapPath_cases h with ⟨h1, h2, rfl⟩ | ⟨h1, h2, h3, rfl⟩ | ⟨h1, h2, h3, rfl⟩ | ⟨h1, h2, h3, rfl⟩
  · exact ⟨by simp only [List.length_nil]; omega, by simp⟩
  · exact ⟨by simp [h3], by simp; omega⟩
  · exact ⟨by simp [h3], by simp; omega⟩
  · exact ⟨by simp [h3], by simp; omega⟩

/-- Two blocks of a file are at two places. -/
theorem bmapPath_inj {bn' : Nat} (h' : bmapPath bn' = some (k, js)) : bn = bn' := by
  have hlen := (bmapPath_spec h).1
  rcases bmapPath_cases h with ⟨h1, h2, hj⟩ | ⟨h1, h2, h3, hj⟩ | ⟨h1, h2, h3, hj⟩ | ⟨h1, h2, h3, hj⟩ <;>
    rcases bmapPath_cases h' with ⟨g1, g2, gj⟩ | ⟨g1, g2, g3, gj⟩ | ⟨g1, g2, g3, gj⟩ | ⟨g1, g2, g3, gj⟩ <;>
    rw [hj] at gj <;> simp only [List.cons.injEq, reduceCtorEq, and_false, and_true] at gj <;> omega

theorem lookup_eq : V.lookup i bn = V.addr (i, k) js := by
  unfold lookup
  rw [h]
  rfl

theorem mem_places {x : Place} : x ∈ places i bn ↔ x.1 = (i, k) ∧ x.2 <+: js := by
  unfold places
  rw [h]
  simp only [List.mem_toFinset, List.mem_map, List.mem_inits]
  constructor
  · rintro ⟨p, hp, rfl⟩
    exact ⟨rfl, hp⟩
  · rintro ⟨hr, hp⟩
    exact ⟨x.2, hp, by rw [← hr]⟩

end Path

/-- Places that paths can have. -/
def Paths (S : Finset Place) : Prop := ∀ x ∈ S, x.2.length ≤ depth x.1

theorem paths_places : Paths (places i bn) := by
  intro x hx
  cases hp : bmapPath bn with
  | none =>
    unfold places at hx
    rw [hp] at hx
    exact absurd hx (Finset.notMem_empty x)
  | some y =>
    obtain ⟨k, js⟩ := y
    obtain ⟨hr, hpre⟩ := (mem_places hp).1 hx
    rw [hr]
    exact Nat.le_trans hpre.length_le (Nat.le_of_eq (bmapPath_spec hp).1)

/-- A block with an address is at the place of `bmap`'s way to it. -/
theorem exists_path (h : V.lookup i bn ≠ 0) : ∃ k js, bmapPath bn = some (k, js) := by
  cases hp : bmapPath bn with
  | none =>
    unfold lookup at h
    rw [hp] at h
    exact absurd rfl h
  | some x => exact ⟨x.1, x.2, rfl⟩

theorem Sound.lookup_range (h : V.Sound) (h0 : V.lookup i bn ≠ 0) :
    nmeta ≤ V.lookup i bn ∧ V.lookup i bn < FSSIZE := by
  obtain ⟨k, js, hp⟩ := exists_path h0
  rw [lookup_eq hp] at h0 ⊢
  exact h.addr_range (Nat.le_of_eq (bmapPath_spec hp).1) h0

/-- Different blocks of files have different addresses. -/
theorem Sound.lookup_inj (h : V.Sound) {i' : Inum} {bn' : Nat} (h0 : V.lookup i bn ≠ 0)
    (heq : V.lookup i bn = V.lookup i' bn') : i = i' ∧ bn = bn' := by
  obtain ⟨k, js, hp⟩ := exists_path h0
  obtain ⟨k', js', hp'⟩ := exists_path (heq ▸ h0)
  rw [lookup_eq hp] at h0
  rw [lookup_eq hp, lookup_eq hp'] at heq
  obtain ⟨hr, rfl⟩ := h.forest.inj (i, k) (i', k') js js' (Nat.le_of_eq (bmapPath_spec hp).1)
    (Nat.le_of_eq (bmapPath_spec hp').1) h0 heq
  obtain ⟨rfl, rfl⟩ := Prod.mk.inj hr
  exact ⟨rfl, bmapPath_inj hp hp'⟩

/-! ## Growing -/

/-- A block is allocated: it is zeroed and in use. -/
def take (V : Vol) (b : Nat) : Vol :=
  { V with area := update V.area b Bytes.zero, used := update V.used b true }

/-- Entry `k` of an inode's addresses is a new block. -/
def fillRoot (V : Vol) (i : Inum) (k : Slot) (b : Nat) : Vol :=
  { V.take b with
    cur := update V.cur i { V.cur i with
      addrs := update (V.cur i).addrs k (.ofNat 32 b) } }

/-- Entry `j` of index block `a` is a new block. -/
def fillEntry (V : Vol) (a j b : Nat) : Vol :=
  { V.take b with
    area := update (V.take b).area a (((V.take b).area a).setWord j b) }

/-- One block of the tree of inode `i` is new: that at the place `(r, p)`. -/
structure Filled (V V' : Vol) (r : Inum × Slot) (p : List Nat) (b : Nat) : Prop where
  len : p.length ≤ depth r
  null : V.addr r p = 0
  fresh : b < FSSIZE ∧ V.used b = false
  grown : Grown depth V.root V.ptr V'.root V'.ptr r p b
  used : V'.used = update V.used b true
  cur : ∀ j, j ≠ r.1 → V'.cur j = V.cur j
  self : ∃ addrs, V'.cur r.1 = { V.cur r.1 with addrs := addrs }
  area : ∀ c, c ≠ b → (∀ q, q.length < p.length → V.addr r q ≠ c) → V'.area c = V.area c

/-- Inode `i` keeps its blocks and may have more; the other inodes, and the blocks that are not its,
stay. -/
structure Extends (i : Inum) (V V' : Vol) : Prop where
  cur : ∀ j, j ≠ i → V'.cur j = V.cur j
  keep : ∀ r p, p.length ≤ depth r → V.addr r p ≠ 0 → V'.addr r p = V.addr r p
  frame : ∀ c, c ≠ 0 → (∀ k p, p.length ≤ depth (i, k) → V'.addr (i, k) p ≠ c) → V'.area c = V.area c

theorem Extends.refl : Extends i V V := ⟨fun _ _ => rfl, fun _ _ _ _ => rfl, fun _ _ _ => rfl⟩

theorem Extends.trans (h : Extends i V V') (h' : Extends i V' V'') : Extends i V V'' where
  cur j hj := (h'.cur j hj).trans (h.cur j hj)
  keep r p hp h0 := by
    have e := h.keep r p hp h0
    rw [← e] at h0 ⊢
    exact h'.keep r p hp h0
  frame c h0 hc := by
    refine (h'.frame c h0 hc).trans (h.frame c h0 fun k p hp e => ?_)
    exact hc k p hp ((h'.keep (i, k) p hp (e ▸ h0)).trans e)

/-- The trees of inode `i` have grown, at places of `S` only. -/
structure Grows (i : Inum) (S : Finset Place) (V V' : Vol) : Prop extends Extends i V V' where
  self : ∃ addrs, V'.cur i = { V.cur i with addrs := addrs }
  other : ∀ r p, p.length ≤ depth r → (r, p) ∉ S → V'.addr r p = V.addr r p
  leaf : ∀ r p, p.length = depth r → V.addr r p ≠ 0 → V'.area (V.addr r p) = V.area (V.addr r p)
  balance : (V.gap S).card + V'.free.card = (V'.gap S).card + V.free.card

theorem Room.mono {T : Finset Place} (hr : V.Room T) (hST : S ⊆ T) : V.Room S :=
  Nat.le_trans (Finset.card_le_card (Finset.filter_subset_filter _ hST)) hr

theorem Room.free (hr : V.Room S) (hmem : (r, q) ∈ S) (h0 : V.addr r q = 0) :
    V.free.Nonempty := by
  apply Finset.card_pos.1
  have hpos : 0 < (V.gap S).card := Finset.card_pos.2 ⟨(r, q), Finset.mem_filter.2 ⟨hmem, h0⟩⟩
  unfold Room at hr
  omega

theorem Grows.room (h : Grows i S V V') (hr : V.Room S) : V'.Room S := by
  have := h.balance
  unfold Room at hr ⊢
  omega

theorem Grows.refl : Grows i S V V where
  toExtends := .refl
  self := ⟨(V.cur i).addrs, rfl⟩
  other _ _ _ _ := rfl
  leaf _ _ _ _ := rfl
  balance := rfl

theorem Grows.trans (h : Grows i S V V') (h' : Grows i S V' V'') : Grows i S V V'' where
  toExtends := h.toExtends.trans h'.toExtends
  self := by
    obtain ⟨x, hx⟩ := h.self
    obtain ⟨y, hy⟩ := h'.self
    exact ⟨y, by rw [hy, hx]⟩
  other r p hp hout := (h'.other r p hp hout).trans (h.other r p hp hout)
  leaf r p hp h0 := by
    have e := h.keep r p (Nat.le_of_eq hp) h0
    have e' := h'.leaf r p hp (e ▸ h0)
    rw [e] at e'
    exact e'.trans (h.leaf r p hp h0)
  balance := by
    have := h.balance
    have := h'.balance
    omega

theorem Grows.mono {T : Finset Place} (h : Grows i S V V') (hST : S ⊆ T) (hT : Paths T) :
    Grows i T V V' where
  toExtends := h.toExtends
  self := h.self
  other r p hp hout := h.other r p hp fun hmem => hout (hST hmem)
  leaf := h.leaf
  balance := by
    -- outside `S` the null places are the same
    have hsplit : ∀ W : Vol, (W.gap T).card = (W.gap S).card + (W.gap (T \ S)).card := by
      intro W
      unfold gap
      rw [← Finset.card_union_of_disjoint
        (Finset.disjoint_filter_filter Finset.disjoint_sdiff), ← Finset.filter_union,
        Finset.union_sdiff_of_subset hST]
    have hrest : V'.gap (T \ S) = V.gap (T \ S) := by
      apply Finset.filter_congr
      intro x hx
      obtain ⟨hxT, hxS⟩ := Finset.mem_sdiff.1 hx
      rw [h.other x.1 x.2 (hT x hxT) hxS]
    rw [hsplit V, hsplit V', hrest]
    have := h.balance
    omega

section Filling

variable (h : Filled V V' r p b)

include h

theorem Filled.addr_self : V'.addr r p = b := by
  rcases h.grown r p h.len with ⟨-, e⟩ | ⟨hne, -⟩
  · exact e
  · exact absurd ⟨rfl, rfl⟩ hne

theorem Filled.addr_ne {r' : Inum × Slot} {p' : List Nat}
    (hp' : p'.length ≤ depth r') (hne : ¬ (r' = r ∧ p' = p)) : V'.addr r' p' = V.addr r' p' := by
  rcases h.grown r' p' hp' with ⟨heq, -⟩ | ⟨-, e⟩
  · exact absurd heq hne
  · exact e

theorem Filled.keep {r' : Inum × Slot} {p' : List Nat}
    (hp' : p'.length ≤ depth r') (h0 : V.addr r' p' ≠ 0) : V'.addr r' p' = V.addr r' p' := by
  refine h.addr_ne hp' ?_
  rintro ⟨rfl, rfl⟩
  exact h0 h.null

theorem Filled.sound (hs : V.Sound) : V'.Sound := by
  obtain ⟨hmeta, hfresh⟩ := hs.fresh h.fresh.1 h.fresh.2
  have hocc : ∀ c, c ≠ 0 → (V'.Holds c ↔ V.Holds c ∨ c = b) := fun c hc =>
    h.grown.occurs h.len h.null hc
  constructor
  · exact hs.forest.grown h.grown hfresh
  · intro c hc h0
    rcases (hocc c h0).1 hc with hold | rfl
    · exact hs.range c hold h0
    · exact ⟨hmeta, h.fresh.1⟩
  · intro c hc
    rw [h.used]
    by_cases hcb : c = b
    · subst hcb
      rw [update_self]
      exact iff_of_true rfl (.inr ⟨r, p, h.len, h.addr_self⟩)
    · rw [update_of_ne hcb, hs.bits c hc]
      by_cases h0 : c = 0
      · subst h0
        exact iff_of_true (.inl (by decide)) (.inl (by decide))
      · rw [hocc c h0]
        simp only [hcb, or_false]

theorem Filled.free : V'.free.card + 1 = V.free.card := by
  have hmem : b ∈ V.free := Finset.mem_filter.2 ⟨Finset.mem_range.2 h.fresh.1, h.fresh.2⟩
  have heq : V'.free = V.free.erase b := by
    ext c
    simp only [Vol.free, h.used, Finset.mem_filter, Finset.mem_range, Finset.mem_erase]
    by_cases hcb : c = b
    · simp [hcb]
    · simp [hcb]
  rw [heq]
  exact Finset.card_erase_add_one hmem

theorem Filled.gap (hs : V.Sound) (hmem : (r, p) ∈ S)
    (hS : Paths S) : (V'.gap S).card + 1 = (V.gap S).card := by
  have hb0 : b ≠ 0 := by
    rintro rfl
    exact absurd (hs.fresh h.fresh.1 h.fresh.2).1 (by decide)
  have heq : V'.gap S = (V.gap S).erase (r, p) := by
    ext ⟨r', p'⟩
    simp only [Vol.gap, Finset.mem_filter, Finset.mem_erase]
    by_cases hrp : r' = r ∧ p' = p
    · obtain ⟨rfl, rfl⟩ := hrp
      simp [h.addr_self, hb0]
    · have hne : (r', p') ≠ (r, p) := fun e => hrp (Prod.mk.inj e)
      constructor
      · rintro ⟨hm, hz⟩
        exact ⟨hne, hm, h.addr_ne (hS _ hm) hrp ▸ hz⟩
      · rintro ⟨-, hm, hz⟩
        exact ⟨hm, (h.addr_ne (hS _ hm) hrp).trans hz⟩
  rw [heq]
  exact Finset.card_erase_add_one (Finset.mem_filter.2 ⟨hmem, h.null⟩)

theorem Filled.grows (hs : V.Sound) (hmem : (r, p) ∈ S) (hS : Paths S) : Grows r.1 S V V' where
  cur := h.cur
  self := h.self
  keep r' p' hp' h0 := h.keep hp' h0
  other r' p' hp' hout := h.addr_ne hp' fun e => hout (by rw [e.1, e.2]; exact hmem)
  leaf r' p' hp' h0 := by
    refine h.area _ ?_ fun q hq e => ?_
    · intro e
      exact (hs.fresh h.fresh.1 h.fresh.2).2 ⟨r', p', Nat.le_of_eq hp', e⟩
    · have hlen := h.len
      obtain ⟨rfl, rfl⟩ := hs.forest.inj r' r p' q (Nat.le_of_eq hp') (by omega) h0 e.symm
      omega
  frame c h0 hc := by
    refine h.area c ?_ fun q hq e => ?_
    · rintro rfl
      exact hc r.2 p h.len h.addr_self
    · have hlen := h.len
      have hq' : q.length ≤ depth r := by omega
      exact hc r.2 q hq' ((h.keep hq' (e ▸ h0)).trans e)
  balance := by
    have := h.free
    have := h.gap hs hmem hS
    omega

end Filling

/-- A null entry of `addrs` gets a block. -/
theorem Sound.fillRoot (h : V.Sound) (htype : (V.cur i).type ≠ 0) (h0 : (V.cur i).addrs k = 0)
    (hb : b < FSSIZE) (hfree : V.used b = false) :
    Filled V (V.fillRoot i k b) (i, k) [] b := by
  obtain ⟨hmeta, hfresh⟩ := h.fresh hb hfree
  have hsize : FSSIZE ≤ 2 ^ 32 := by decide
  have htype' : ∀ j, ((V.fillRoot i k b).cur j).type = (V.cur j).type := by
    intro j
    show (update V.cur i _ j).type = _
    by_cases hj : j = i
    · subst hj
      rw [update_self]
    · rw [update_of_ne hj]
  have hnull : V.root (i, k) = 0 := by
    show (if (V.cur i).type = 0 then 0 else ((V.cur i).addrs k).toNat) = 0
    rw [if_neg htype, h0]
    rfl
  refine ⟨Nat.zero_le _, hnull, ⟨hb, hfree⟩, ?_, rfl, ?_, ?_, ?_⟩
  · refine Forest.growRoot hnull hfresh ?_ ?_ ?_ ?_
    · show (if (update V.cur i _ i).type = 0 then 0 else
        ((update V.cur i _ i).addrs k).toNat) = b
      rw [update_self, if_neg htype]
      show (update (V.cur i).addrs k (BitVec.ofNat 32 b) k).toNat = b
      rw [update_self, BitVec.toNat_ofNat]
      omega
    · intro r' hr'
      unfold root
      rw [htype']
      by_cases hj : r'.1 = i
      · have hk : r'.2 ≠ k := fun e => hr' (Prod.ext hj e)
        have hcur : ((V.fillRoot i k b).cur r'.1).addrs r'.2 = (V.cur r'.1).addrs r'.2 := by
          show (update V.cur i _ r'.1).addrs r'.2 = _
          rw [hj, update_self]
          exact update_of_ne hk _ _
        rw [hcur]
      · have hcur : (V.fillRoot i k b).cur r'.1 = V.cur r'.1 := update_of_ne hj _ _
        rw [hcur]
    · intro m
      show (update V.area b Bytes.zero b).word m = 0
      rw [update_self]
      exact Block.word_zero m
    · intro c m hc
      show (update V.area b Bytes.zero c).word m = _
      rw [update_of_ne hc]
      rfl
  · intro j hj
    exact update_of_ne hj _ _
  · exact ⟨_, update_self _ _ _⟩
  · intro c hc _
    exact update_of_ne hc _ _

/-- A null entry of an index block gets a block. -/
theorem Sound.fillEntry (h : V.Sound) (hlen : (q ++ [j]).length ≤ depth r) (ha : V.addr r q = a)
    (ha0 : a ≠ 0) (hj : j < NINDIRECT) (h0 : V.ptr a j = 0) (hb : b < FSSIZE)
    (hfree : V.used b = false) : Filled V (V.fillEntry a j b) r (q ++ [j]) b := by
  obtain ⟨hmeta, hfresh⟩ := h.fresh hb hfree
  have hsize : FSSIZE ≤ 2 ^ 32 := by decide
  have hq : q.length < (q ++ [j]).length := by simp
  have hab : a ≠ b := by
    rintro rfl
    exact hfresh ⟨r, q, by omega, ha⟩
  have hne : ∀ c, c ≠ a → c ≠ b → (V.fillEntry a j b).area c = V.area c := by
    intro c hca hcb
    show update (update V.area b Bytes.zero) a _ c = _
    rw [update_of_ne hca, update_of_ne hcb]
  have hself : (V.fillEntry a j b).area a = (V.area a).setWord j b := by
    show update (update V.area b Bytes.zero) a
      ((update V.area b Bytes.zero a).setWord j b) a = _
    rw [update_self, update_of_ne hab]
  refine ⟨hlen, ?_, ⟨hb, hfree⟩, ?_, rfl, fun _ _ => rfl, ⟨(V.cur r.1).addrs, rfl⟩, ?_⟩
  · show follow V.ptr (V.root r) (q ++ [j]) = 0
    rw [follow_snoc, show follow V.ptr (V.root r) q = a from ha, if_neg ha0, h0]
  · refine h.forest.grow hlen ha ha0 h0 hfresh ?_ ?_ ?_
    · show ((V.fillEntry a j b).area a).word j = b
      rw [hself]
      exact Block.word_setWord hj (by omega)
    · intro m
      show ((V.fillEntry a j b).area b).word m = 0
      have hb' : (V.fillEntry a j b).area b = Bytes.zero := by
        show update (update V.area b Bytes.zero) a _ b = _
        rw [update_of_ne (Ne.symm hab), update_self]
      rw [hb']
      exact Block.word_zero m
    · intro c m hcb hor
      show ((V.fillEntry a j b).area c).word m = (V.area c).word m
      by_cases hca : c = a
      · subst hca
        rw [hself]
        exact Block.word_setWord_ne (hor.resolve_left fun h => h rfl)
      · rw [hne c hca hcb]
  · intro c hcb hc
    refine hne c ?_ hcb
    rintro rfl
    exact hc q hq ha

/-! ## Writing -/

theorem root_congr (h : V'.cur = V.cur) : V'.root = V.root := by
  funext r
  unfold root
  rw [h]

/-- Volumes with the same addresses in their inodes and the same blocks. -/
theorem addr_congr (hroot : V'.root = V.root) (harea : V'.area = V.area) : V'.addr = V.addr := by
  funext r p
  unfold addr ptr
  rw [hroot, harea]

/-- The addresses and the blocks in use decide it. -/
theorem Sound.of_addr (h : V.Sound) (haddr : ∀ r p, p.length ≤ depth r → V'.addr r p = V.addr r p)
    (hused : ∀ b, b < FSSIZE → V'.used b = V.used b) : V'.Sound := by
  have hholds : ∀ c, V'.Holds c ↔ V.Holds c := by
    intro c
    constructor
    · rintro ⟨r, p, hp, e⟩
      exact ⟨r, p, hp, (haddr r p hp).symm.trans e⟩
    · rintro ⟨r, p, hp, e⟩
      exact ⟨r, p, hp, (haddr r p hp).trans e⟩
  refine ⟨⟨fun r r' p p' hp hp' hne heq => ?_⟩, fun c hc => h.range c ((hholds c).1 hc),
    fun c hc => ?_⟩
  · have e := haddr r p hp
    unfold addr at e
    rw [e] at hne heq
    exact h.forest.inj r r' p p' hp hp' hne (heq.trans (haddr r' p' hp'))
  · rw [hholds, hused c hc]
    exact h.bits c hc

theorem Sound.congr (h : V.Sound) (hroot : V'.root = V.root) (harea : V'.area = V.area)
    (hused : ∀ b, b < FSSIZE → V'.used b = V.used b) : V'.Sound :=
  h.of_addr (fun r p _ => congrFun (congrFun (addr_congr hroot harea) r) p) hused

theorem lookup_of_addr (haddr : ∀ r p, p.length ≤ depth r → V'.addr r p = V.addr r p) :
    V'.lookup i bn = V.lookup i bn := by
  cases hp : bmapPath bn with
  | none =>
    unfold lookup
    rw [hp]
    rfl
  | some x =>
    rw [lookup_eq hp, lookup_eq hp]
    exact haddr _ _ (Nat.le_of_eq (bmapPath_spec hp).1)

/-- A data block is written. -/
def put (V : Vol) (b : Nat) (v : Block) : Vol := { V with area := update V.area b v }

@[simp] theorem area_put_self : (V.put b v).area b = v := by
  show update V.area b v b = v
  rw [update_self]

theorem area_put_ne {c : Nat} (h : c ≠ b) : (V.put b v).area c = V.area c := by
  show update V.area b v c = V.area c
  rw [update_of_ne h]

/-- Writing a block of a file moves no address. -/
theorem Sound.addr_put (h : V.Sound) (hb : V.lookup i bn = b) (hp : p.length ≤ depth r) (h0 : b ≠ 0) :
    (V.put b v).addr r p = V.addr r p := by
  obtain ⟨k, js, hpath⟩ := exists_path (hb ▸ h0)
  rw [lookup_eq hpath] at hb
  refine h.forest.leaf (bmapPath_spec hpath).1 hb (fun c m hc => ?_) r p hp
  show (update V.area b v c).word m = _
  rw [update_of_ne hc]
  rfl

theorem Sound.put (h : V.Sound) (hb : V.lookup i bn = b) (h0 : b ≠ 0) : (V.put b v).Sound :=
  h.of_addr (fun _ _ hp => h.addr_put hb hp h0) fun _ _ => rfl

/-- Bytes `lo` to `hi` of file `i` have been written, and hold `f` now. -/
structure Wrote (i : Inum) (lo hi : Nat) (f : Nat → Byte) (V V' : Vol) : Prop
    extends Extends i V V' where
  sound : V'.Sound
  self : ∃ addrs, V'.cur i = { V.cur i with addrs := addrs }
  stay : ∀ j bn, ¬ (j = i ∧ lo < (bn + 1) * BSIZE ∧ bn * BSIZE < hi) → V'.lookup j bn = V.lookup j bn
  mapped : ∀ o, lo ≤ o → o < hi → V'.lookup i (o / BSIZE) ≠ 0
  written : ∀ o, lo ≤ o → o < hi → V'.byteAt i o = f o
  unwritten : ∀ j o, V.lookup j (o / BSIZE) ≠ 0 → ¬ (j = i ∧ lo ≤ o ∧ o < hi) →
    V'.byteAt j o = V.byteAt j o

variable {lo mid hi : Nat} {f : Nat → Byte}

theorem Wrote.refl (h : V.Sound) : Wrote i lo lo f V V where
  toExtends := .refl
  sound := h
  self := ⟨(V.cur i).addrs, rfl⟩
  stay _ _ _ := rfl
  mapped _ _ _ := by omega
  written _ _ _ := by omega
  unwritten _ _ _ _ := rfl

/-- A block that has an address keeps it. -/
theorem Extends.lookup (h : Extends i V V') {i' : Inum} (h0 : V.lookup i' bn ≠ 0) :
    V'.lookup i' bn = V.lookup i' bn := by
  obtain ⟨k, js, hp⟩ := exists_path h0
  rw [lookup_eq hp] at h0
  rw [lookup_eq hp, lookup_eq hp]
  exact h.keep _ _ (Nat.le_of_eq (bmapPath_spec hp).1) h0

theorem Grows.lookup (h : Grows i S V V') {i' : Inum} (h0 : V.lookup i' bn ≠ 0) :
    V'.lookup i' bn = V.lookup i' bn ∧ V'.area (V.lookup i' bn) = V.area (V.lookup i' bn) := by
  refine ⟨h.toExtends.lookup h0, ?_⟩
  obtain ⟨k, js, hp⟩ := exists_path h0
  rw [lookup_eq hp] at h0 ⊢
  exact h.leaf _ _ (bmapPath_spec hp).1 h0

/-- Growth on the way to one block gives no other block an address. -/
theorem Grows.lookup_ne (h : Grows i (places i bn) V V') {i' : Inum} {bn' : Nat}
    (hne : ¬ (i' = i ∧ bn' = bn)) : V'.lookup i' bn' = V.lookup i' bn' := by
  cases hp' : bmapPath bn' with
  | none =>
    unfold Vol.lookup
    rw [hp']
    rfl
  | some y =>
    obtain ⟨k', js'⟩ := y
    rw [lookup_eq hp', lookup_eq hp']
    refine h.other _ _ (Nat.le_of_eq (bmapPath_spec hp').1) fun hmem => hne ?_
    cases hp : bmapPath bn with
    | none =>
      unfold places at hmem
      rw [hp] at hmem
      exact absurd hmem (Finset.notMem_empty _)
    | some x =>
      obtain ⟨k, js⟩ := x
      obtain ⟨hr, hpre⟩ := (mem_places hp).1 hmem
      obtain ⟨rfl, rfl⟩ := Prod.mk.inj hr
      -- a way is as deep as its entry of `addrs`, so it is no proper part of another
      have hlen : js'.length = js.length := (bmapPath_spec hp').1.trans (bmapPath_spec hp).1.symm
      obtain rfl : js' = js := hpre.eq_of_length hlen
      exact ⟨rfl, bmapPath_inj hp' hp⟩

theorem Wrote.trans (h : Wrote i lo mid f V V') (h' : Wrote i mid hi f V' V'') (hle : lo ≤ mid)
    (hle' : mid ≤ hi) : Wrote i lo hi f V V'' where
  toExtends := h.toExtends.trans h'.toExtends
  sound := h'.sound
  self := by
    obtain ⟨x, hx⟩ := h.self
    obtain ⟨y, hy⟩ := h'.self
    exact ⟨y, by rw [hy, hx]⟩
  stay j bn hout := by
    rw [h'.stay j bn fun hin => hout ⟨hin.1, by omega, hin.2.2⟩]
    exact h.stay j bn fun hin => hout ⟨hin.1, hin.2.1, by omega⟩
  mapped o hlo hhi := by
    by_cases hm : o < mid
    · rw [h'.lookup (h.mapped o hlo hm)]
      exact h.mapped o hlo hm
    · exact h'.mapped o (by omega) hhi
  written o hlo hhi := by
    by_cases hm : o < mid
    · rw [h'.unwritten i o (h.mapped o hlo hm) (by omega)]
      exact h.written o hlo hm
    · exact h'.written o (by omega) hhi
  unwritten j o h0 hout := by
    have h0' : V'.lookup j (o / BSIZE) ≠ 0 := by
      rw [h.lookup h0]
      exact h0
    rw [h'.unwritten j o h0' fun hin => hout ⟨hin.1, by omega, hin.2.2⟩]
    exact h.unwritten j o h0 fun hin => hout ⟨hin.1, hin.2.1, by omega⟩

theorem Sound.lookup_put (h : V.Sound) (hb : V.lookup i bn = b) (h0 : b ≠ 0) (i' : Inum) (bn' : Nat) :
    (V.put b v).lookup i' bn' = V.lookup i' bn' :=
  lookup_of_addr fun _ _ hp => h.addr_put hb hp h0

/-- Bytes from `lo` on are written, inside one block. -/
theorem Sound.byteAt_put (h : V.Sound) (hb : V.lookup i (lo / BSIZE) = b) (h0 : b ≠ 0) {m : Nat}
    (hm : lo % BSIZE + m ≤ BSIZE) {g : Nat → Byte} (hg : ∀ k, k < m → g k = f (lo + k))
    (i' : Inum) (o : Nat) :
    (V.put b ((V.area b).write (lo % BSIZE) m g)).byteAt i' o =
      if i' = i ∧ lo ≤ o ∧ o < lo + m then f o else V.byteAt i' o := by
  have hmod : o % BSIZE < BSIZE := Nat.mod_lt o (by decide)
  unfold byteAt
  rw [h.lookup_put hb h0]
  by_cases hl : V.lookup i' (o / BSIZE) = b
  · obtain ⟨rfl, hbn⟩ := h.lookup_inj (hl ▸ h0) (hl.trans hb.symm)
    have hdiv := Nat.div_add_mod o BSIZE
    have hdiv' := Nat.div_add_mod lo BSIZE
    rw [hbn] at hdiv
    rw [hl, area_put_self, Bytes.byte_write]
    by_cases hin : lo ≤ o ∧ o < lo + m
    · rw [if_pos (by omega), if_pos ⟨rfl, hin⟩, hg _ (by omega),
        show lo + (o % BSIZE - lo % BSIZE) = o by omega]
    · rw [if_neg (by omega), if_neg fun h => hin h.2]
  · rw [area_put_ne hl, if_neg]
    rintro ⟨rfl, hlo, hhi⟩
    have hbn : o / BSIZE = lo / BSIZE := by
      simp only [BSIZE] at hm ⊢
      omega
    exact hl (hbn ▸ hb)

/-- One turn of a write loop: a block is found, or the tree grows to have it, and bytes inside that
block are written. -/
theorem Grows.wrote (h : Grows i (places i (lo / BSIZE)) V V') (hs : V'.Sound)
    (hb : V'.lookup i (lo / BSIZE) = b) (h0 : b ≠ 0) {m : Nat} (hm0 : 0 < m)
    (hm : lo % BSIZE + m ≤ BSIZE) {g : Nat → Byte}
    (hg : ∀ k, k < m → g k = f (lo + k)) :
    Wrote i lo (lo + m) f V (V'.put b ((V'.area b).write (lo % BSIZE) m g)) := by
  refine ⟨⟨h.cur, ?_, ?_⟩, hs.put hb h0, h.self, ?_, ?_, ?_, ?_⟩
  · intro r p hp hne
    exact (hs.addr_put hb hp h0).trans (h.keep r p hp hne)
  · intro c hc0 hc
    have hne : V'.lookup i (lo / BSIZE) ≠ 0 := by
      rw [hb]
      exact h0
    obtain ⟨k, js, hpath⟩ := exists_path hne
    have hcb : c ≠ b := by
      intro e
      have hlen : js.length ≤ depth (i, k) := Nat.le_of_eq (bmapPath_spec hpath).1
      apply hc k js hlen
      rw [hs.addr_put hb hlen h0, ← lookup_eq hpath, hb, e]
    rw [area_put_ne hcb]
    exact h.frame c hc0 fun k p hp e => hc k p hp ((hs.addr_put hb hp h0).trans e)
  · intro j bn hout
    rw [hs.lookup_put hb h0]
    apply h.lookup_ne
    rintro ⟨rfl, rfl⟩
    have := Nat.div_add_mod lo BSIZE
    have := Nat.mod_lt lo (show 0 < BSIZE by decide)
    refine hout ⟨rfl, ?_, ?_⟩
    · rw [Nat.add_mul, Nat.mul_comm]
      omega
    · rw [Nat.mul_comm]
      omega
  · intro o hlo hhi
    have hbn : o / BSIZE = lo / BSIZE := by
      simp only [BSIZE] at hm ⊢
      omega
    rw [hs.lookup_put hb h0, hbn, hb]
    exact h0
  · intro o hlo hhi
    rw [hs.byteAt_put hb h0 hm hg, if_pos ⟨rfl, hlo, hhi⟩]
  · intro j o hne hout
    rw [hs.byteAt_put hb h0 hm hg, if_neg hout]
    unfold byteAt
    rw [(h.lookup hne).1, (h.lookup hne).2]

/-! ## Contents -/

/-- The bytes from `off` on are `bytes`. -/
def splice (l : List Byte) (off : Nat) (bytes : List Byte) : List Byte :=
  l.take off ++ bytes ++ l.drop (off + bytes.length)

@[simp] theorem length_contents : (V.contents i).length = (V.cur i).size.toNat := by
  simp [contents]

theorem getElem?_contents {o : Nat} :
    (V.contents i)[o]? = if o < (V.cur i).size.toNat then some (V.byteAt i o) else none := by
  unfold contents
  rw [List.getElem?_map]
  split
  next h => rw [List.getElem?_range h, Option.map_some]
  next h => rw [List.getElem?_eq_none (by simp; omega), Option.map_none]

theorem getElem?_splice {l bytes : List Byte} {off o : Nat} (h : off ≤ l.length) :
    (splice l off bytes)[o]? =
      if off ≤ o ∧ o < off + bytes.length then bytes[o - off]? else l[o]? := by
  unfold splice
  have htake : (l.take off).length = off := List.length_take_of_le h
  rw [List.append_assoc, List.getElem?_append, htake]
  by_cases ho : o < off
  · rw [if_pos ho, if_neg (by omega), List.getElem?_take_of_lt ho]
  · rw [if_neg ho, List.getElem?_append]
    by_cases hb : o - off < bytes.length
    · rw [if_pos hb, if_pos (by omega)]
    · rw [if_neg hb, if_neg (by omega), List.getElem?_drop]
      congr 1
      omega

theorem length_splice {l bytes : List Byte} {off : Nat} (h : off ≤ l.length) :
    (splice l off bytes).length = max l.length (off + bytes.length) := by
  unfold splice
  simp only [List.length_append, List.length_take, List.length_drop]
  omega

/-- Two adjacent writes are one. -/
theorem splice_splice {l first rest : List Byte} {off : Nat} (h : off ≤ l.length) :
    splice (splice l off first) (off + first.length) rest = splice l off (first ++ rest) := by
  have hlen : (splice l off first).length = max l.length (off + first.length) := length_splice h
  apply List.ext_getElem?
  intro o
  rw [getElem?_splice (by omega), getElem?_splice h, getElem?_splice h, List.length_append,
    List.getElem?_append]
  by_cases h1 : off + first.length ≤ o ∧ o < off + first.length + rest.length
  · rw [if_pos h1, if_pos (by omega), if_neg (by omega)]
    congr 1
    omega
  · rw [if_neg h1]
    by_cases h2 : off ≤ o ∧ o < off + first.length
    · rw [if_pos h2, if_pos (by omega), if_pos (by omega)]
    · rw [if_neg h2, if_neg (by omega)]

/-- The inode's size is set. -/
def setSize (V : Vol) (i : Inum) (size : Word) : Vol :=
  { V with cur := update V.cur i { V.cur i with size } }

theorem cur_setSize_self {size : Word} : (V.setSize i size).cur i = { V.cur i with size } := by
  show update V.cur i _ i = _
  rw [update_self]

theorem cur_setSize_ne {size : Word} {i' : Inum} (h : i' ≠ i) :
    (V.setSize i size).cur i' = V.cur i' := by
  show update V.cur i _ i' = _
  rw [update_of_ne h]

theorem root_setSize {size : Word} : (V.setSize i size).root = V.root := by
  funext r
  unfold root
  by_cases h : r.1 = i
  · rw [h, cur_setSize_self]
  · rw [cur_setSize_ne h]

theorem lookup_setSize {size : Word} : (V.setSize i size).lookup = V.lookup := by
  have haddr : (V.setSize i size).addr = V.addr := addr_congr root_setSize rfl
  funext j bn
  unfold lookup
  rw [haddr]

theorem byteAt_setSize {size : Word} : (V.setSize i size).byteAt = V.byteAt := by
  funext j o
  unfold byteAt
  rw [lookup_setSize]
  rfl

theorem Consistent.lookup_byte (h : V.Consistent) (htype : (V.cur i).type ≠ 0) {o : Nat}
    (ho : o < (V.cur i).size.toNat) : V.lookup i (o / BSIZE) ≠ 0 := by
  have := Nat.div_mul_le_self o BSIZE
  exact h.mapped i htype _ (by omega)

/-- A write inside or at the end of a file: its bytes and its size, and no other file. -/
theorem Wrote.resize {off n : Nat} {size : Word} (h : Wrote i off (off + n) f V V')
    (hV : V.Consistent) (ht : (V.cur i).type ≠ 0) (hoff : off ≤ (V.cur i).size.toNat)
    (hsize : size.toNat = max (V.cur i).size.toNat (off + n)) :
    (V'.setSize i size).Consistent ∧
      (V'.setSize i size).contents i = splice (V.contents i) off ((List.range n).map fun k => f (off + k)) ∧
      ∀ j, j ≠ i → (V.cur j).type ≠ 0 → (V'.setSize i size).contents j = V.contents j := by
  refine ⟨⟨h.sound.congr root_setSize rfl fun _ _ => rfl, ?_⟩, ?_, ?_⟩
  · intro j hj bn hbn
    rw [lookup_setSize]
    by_cases hji : j = i
    · subst hji
      rw [cur_setSize_self] at hj hbn
      simp only [hsize] at hbn
      by_cases hold : bn * BSIZE < (V.cur j).size.toNat
      · have h0 := hV.mapped j ht bn hold
        rw [h.lookup h0]
        exact h0
      · have := h.mapped (bn * BSIZE) (by omega) (by omega)
        rwa [Nat.mul_div_cancel bn (by decide)] at this
    · rw [cur_setSize_ne hji, h.cur j hji] at hj hbn
      have h0 := hV.mapped j hj bn hbn
      rw [h.lookup h0]
      exact h0
  · apply List.ext_getElem?
    intro o
    rw [getElem?_splice (by rw [length_contents]; exact hoff), getElem?_contents,
      getElem?_contents, cur_setSize_self, byteAt_setSize]
    simp only [hsize, List.length_map, List.length_range]
    by_cases hin : off ≤ o ∧ o < off + n
    · rw [if_pos (by omega), if_pos hin, h.written o hin.1 hin.2, List.getElem?_map,
        List.getElem?_range (by omega), Option.map_some, show off + (o - off) = o by omega]
    · rw [if_neg hin]
      by_cases hold : o < (V.cur i).size.toNat
      · rw [if_pos (by omega), if_pos hold,
          h.unwritten i o (hV.lookup_byte ht hold) fun hw => hin hw.2]
      · rw [if_neg (by omega), if_neg hold]
  · intro j hji hj
    unfold contents
    rw [cur_setSize_ne hji, h.cur j hji, byteAt_setSize]
    apply List.map_congr_left
    intro o ho
    exact h.unwritten j o (hV.lookup_byte hj (List.mem_range.1 ho)) fun hw => hji hw.1

end Vol

end Xv6
