import Mathlib.Data.Fintype.Card
import Mathlib.Data.List.FinRange
import Xv6.Fs.Bio

/-!
# What the buffer cache keeps

Through the cache a block has one content: that of its buffer, or that of the disk if it has
none. `Good` says that the cache is coherent, and each call of `bio.c` is described by what it
does to the disk, to the contents and to the set of dirty blocks. A dirty block keeps its
buffer, so there are no more dirty blocks than buffers.
-/

namespace Xv6

open Xv6.Lib

/-- A call that returns has gone through its first part. -/
theorem bind_ok {α β : Type} {x : Except FsPanic α} {f : α → Except FsPanic β} {r : β}
    (h : (x >>= f) = .ok r) : ∃ y, x = .ok y ∧ f y = .ok r := by
  cases x with
  | ok y => exact ⟨y, rfl, h⟩
  | error e => cases h

theorem Buf.holds_iff {x : Buf} {b : Nat} : x.holds b ↔ x.dev = ROOTDEV ∧ x.blockno = b := by
  simp [Buf.holds]

/-- A buffer that was just read. -/
def Buf.fresh (t : ThdPtr) (b : Nat) (data : Block) : Buf :=
  { dev := ROOTDEV, blockno := b, valid := true, dirty := false, owner := some t, data := data }

theorem Buf.unused_iff {x : Buf} : x.unused ↔ x.owner = none ∧ x.dirty = false := by
  simp [Buf.unused]

theorem Buf.holds_inj {x : Buf} {a b : Nat} (ha : x.holds a) (hb : x.holds b) : a = b :=
  (Buf.holds_iff.mp ha).2.symm.trans (Buf.holds_iff.mp hb).2

namespace Bio

variable {s s' s₁ : Bio} {t : ThdPtr} {a b k : Nat} {i j : Fin NBUF} {f : Buf → Buf} {v : Block}

@[simp] theorem setBuf_buf : (s.setBuf i f).buf j = if j = i then f (s.buf i) else s.buf j := rfl

@[simp] theorem setBuf_disk : (s.setBuf i f).disk = s.disk :=
  rfl

@[simp] theorem setBuf_order : (s.setBuf i f).order = s.order := rfl

theorem setBuf_setBuf (f g : Buf → Buf) :
    (s.setBuf i f).setBuf i g = s.setBuf i fun x => g (f x) := by
  unfold setBuf
  congr 1
  funext j
  by_cases hj : j = i
  · simp only [if_pos hj, if_pos trivial]
  · simp only [if_neg hj]

/-- The cache is coherent. -/
structure Good (s : Bio) : Prop where
  full : ∀ i, i ∈ s.order
  one : ∀ i j b, (s.buf i).holds b → (s.buf j).holds b → i = j
  valid : ∀ i b, (s.buf i).holds b → (s.buf i).valid = true ∧ b < FSSIZE
  clean : ∀ i b, (s.buf i).holds b → (s.buf i).dirty = false → (s.buf i).data = s.disk b
  used : ∀ i, (s.buf i).unused = false → (s.buf i).dev = ROOTDEV

/-- What a block holds, as `bread` sees it. -/
def content (s : Bio) (b : Nat) : Block :=
  match s.cached b with
  | some i => (s.buf i).data
  | none => s.disk b

/-- The block waits in the cache for its commit. -/
def Dirty (s : Bio) (b : Nat) : Prop := ∃ i, (s.buf i).holds b ∧ (s.buf i).dirty = true

theorem Good.cached_some (h : Good s) (hi : (s.buf i).holds b) : s.cached b = some i := by
  cases hc : s.cached b with
  | none =>
    have hnone := List.find?_eq_none.mp hc i (h.full i)
    exact absurd hi hnone
  | some j =>
    have hj := List.find?_some hc
    rw [h.one i j b hi hj]

theorem holds_of_cached (h : s.cached b = some i) : (s.buf i).holds b :=
  List.find?_some (p := fun i => (s.buf i).holds b) h

theorem Good.not_holds (h : Good s) (hc : s.cached b = none) : ¬ (s.buf i).holds b := by
  intro hi
  rw [h.cached_some hi] at hc
  cases hc

theorem Good.content_of_holds (h : Good s) (hi : (s.buf i).holds b) :
    s.content b = (s.buf i).data := by
  unfold content
  rw [h.cached_some hi]

theorem content_of_none (hc : s.cached b = none) : s.content b = s.disk b := by
  unfold content
  rw [hc]

/-- A block that is not dirty is on the disk. -/
theorem Good.content_clean (h : Good s) (hb : ¬ s.Dirty b) : s.content b = s.disk b := by
  cases hc : s.cached b with
  | none => exact content_of_none hc
  | some i =>
    have hi := holds_of_cached hc
    rw [h.content_of_holds hi]
    apply h.clean i b hi
    rw [← Bool.not_eq_true]
    exact fun hd => hb ⟨i, hi, hd⟩

theorem Good.dirty_iff (h : Good s) (hi : (s.buf i).holds b) :
    s.Dirty b ↔ (s.buf i).dirty = true := by
  constructor
  · rintro ⟨j, hj, hd⟩
    rwa [h.one i j b hi hj]
  · intro hd
    exact ⟨i, hi, hd⟩

theorem Good.owned (h : Good s) (ho : (s.buf i).owner ≠ none) : (s.buf i).dev = ROOTDEV := by
  apply h.used i
  rw [← Bool.not_eq_true, Buf.unused_iff]
  exact fun hu => ho hu.1

/-- There are no more cached blocks than buffers. -/
theorem Good.length_le {l : List Nat} (hnd : l.Nodup) (hl : ∀ b ∈ l, ∃ i, (s.buf i).holds b) :
    l.length ≤ NBUF := by
  choose! g hg using hl
  have hinj : (l.map g).Nodup := by
    apply List.Nodup.map_on _ hnd
    intro x hx y hy hxy
    exact Buf.holds_inj (hg x hx) (hxy ▸ hg y hy)
  have := hinj.length_le_card
  rwa [List.length_map, Fintype.card_fin] at this

/-! ## Changing one buffer -/

/-- The contents depend on what the buffers hold. -/
theorem Good.content_congr (h : Good s) (h' : Good s') (hdisk : s'.disk b = s.disk b)
    (hholds : ∀ i, (s'.buf i).holds b ↔ (s.buf i).holds b)
    (hdata : ∀ i, (s.buf i).holds b → (s'.buf i).data = (s.buf i).data) :
    s'.content b = s.content b := by
  cases hc : s.cached b with
  | none =>
    have hc' : s'.cached b = none := by
      cases hc' : s'.cached b with
      | none => rfl
      | some i => exact absurd ((hholds i).mp (holds_of_cached hc')) (h.not_holds hc)
    rw [content_of_none hc, content_of_none hc', hdisk]
  | some i =>
    have hi := holds_of_cached hc
    rw [h.content_of_holds hi, h'.content_of_holds ((hholds i).mpr hi), hdata i hi]

/-- What a call leaves alone: the disk, the contents and the dirty blocks. -/
structure Still (s s' : Bio) : Prop where
  good : Good s'
  disk : s'.disk = s.disk
  content : ∀ b, s'.content b = s.content b
  dirty : ∀ b, s'.Dirty b ↔ s.Dirty b

theorem Still.trans (h : Still s s₁) (h' : Still s₁ s') : Still s s' where
  good := h'.good
  disk := h'.disk.trans h.disk
  content b := (h'.content b).trans (h.content b)
  dirty b := (h'.dirty b).trans (h.dirty b)

theorem Still.refl (h : Good s) : Still s s := ⟨h, rfl, fun _ => rfl, fun _ => .rfl⟩

/-- Buffers keep what they hold, their data and their flags. -/
theorem Good.still (h : Good s) (horder : ∀ i, i ∈ s'.order) (hdisk : s'.disk = s.disk)
    (hbuf : ∀ i, (s'.buf i).dev = (s.buf i).dev ∧ (s'.buf i).blockno = (s.buf i).blockno ∧
      (s'.buf i).valid = (s.buf i).valid ∧ (s'.buf i).dirty = (s.buf i).dirty ∧
      (s'.buf i).data = (s.buf i).data)
    (hused : ∀ i, (s'.buf i).unused = false → (s.buf i).dev = ROOTDEV) : Still s s' := by
  have hholds : ∀ i b, (s'.buf i).holds b ↔ (s.buf i).holds b := by
    intro i b
    rw [Buf.holds_iff, Buf.holds_iff, (hbuf i).1, (hbuf i).2.1]
  have hgood : Good s' := by
    refine ⟨horder, fun i j b hi hj => ?_, fun i b hi => ?_, fun i b hi hd => ?_, fun i ho => ?_⟩
    · exact h.one i j b ((hholds i b).mp hi) ((hholds j b).mp hj)
    · rw [(hbuf i).2.2.1]
      exact h.valid i b ((hholds i b).mp hi)
    · rw [(hbuf i).2.2.2.2, hdisk]
      rw [(hbuf i).2.2.2.1] at hd
      exact h.clean i b ((hholds i b).mp hi) hd
    · rw [(hbuf i).1]
      exact hused i ho
  refine ⟨hgood, hdisk, fun b => ?_, fun b => ?_⟩
  · apply h.content_congr hgood (by rw [hdisk]) (fun i => hholds i b)
    intro i _
    exact (hbuf i).2.2.2.2
  · unfold Dirty
    simp only [hholds, (hbuf _).2.2.2.1]

/-- Only the owner of buffer `i` changes. -/
theorem Good.setOwner (h : Good s) {o : Option ThdPtr} (horder : ∀ i, i ∈ s'.order)
    (hdisk : s'.disk = s.disk)
    (hbuf : ∀ j, s'.buf j = if j = i then { s.buf i with owner := o } else s.buf j)
    (hused : (s'.buf i).unused = false → (s.buf i).dev = ROOTDEV) : Still s s' := by
  refine h.still horder hdisk (fun j => ?_) fun j hj => ?_
  · rw [hbuf]
    split
    · rename_i hji
      rw [hji]
      exact ⟨rfl, rfl, rfl, rfl, rfl⟩
    · exact ⟨rfl, rfl, rfl, rfl, rfl⟩
  · by_cases hji : j = i
    · rw [hji] at hj ⊢
      exact hused hj
    · rw [hbuf, if_neg hji] at hj
      exact h.used j hj

/-! ## The calls -/

/-- `bread` gives the block's buffer, and takes no buffer that is owned or dirty. -/
structure Read (s s' : Bio) (t : ThdPtr) (b : Nat) (i : Fin NBUF) : Prop extends Still s s' where
  holds : (s'.buf i).holds b
  data : (s'.buf i).data = s.content b
  owner : (s'.buf i).owner = some t
  other : ∀ j, j ≠ i → s'.buf j = s.buf j
  was : (s.buf i).holds b ∨ (s.buf i).owner = none

theorem Good.bread_hit (h : Good s) (hi : (s.buf i).holds b) :
    Read s (s.setBuf i fun x => { x with owner := some t }) t b i := by
  have hstill : Still s (s.setBuf i fun x => { x with owner := some t }) :=
    h.setOwner h.full rfl (fun _ => rfl) fun _ => (Buf.holds_iff.mp hi).1
  refine ⟨hstill, ?_, ?_, ?_, fun j hj => ?_, .inl hi⟩
  · rw [setBuf_buf, if_pos rfl]
    exact hi
  · rw [setBuf_buf, if_pos rfl, h.content_of_holds hi]
  · rw [setBuf_buf, if_pos rfl]
  · rw [setBuf_buf, if_neg hj]

theorem Good.bread_miss (h : Good s) (hb : b < FSSIZE) (hc : s.cached b = none)
    (hi : (s.buf i).unused) : Read s (s.setBuf i fun _ => Buf.fresh t b (s.disk b)) t b i := by
  obtain ⟨howner, hclean⟩ := Buf.unused_iff.mp hi
  generalize hs' : (s.setBuf i fun _ => Buf.fresh t b (s.disk b)) = s'
  have hself : s'.buf i = Buf.fresh t b (s.disk b) := by
    rw [← hs', setBuf_buf, if_pos rfl]
  have hother : ∀ j, j ≠ i → s'.buf j = s.buf j := by
    intro j hj
    rw [← hs', setBuf_buf, if_neg hj]
  have hdisk : s'.disk = s.disk := by rw [← hs', setBuf_disk]
  have horder : s'.order = s.order := by rw [← hs', setBuf_order]
  have hholds : (s'.buf i).holds b := by
    rw [hself]
    exact Buf.holds_iff.mpr ⟨rfl, rfl⟩
  -- who holds a block afterwards: `i` for `b`, and the others what they held
  have hwho : ∀ j k, (s'.buf j).holds k → j = i ∧ k = b ∨ j ≠ i ∧ (s.buf j).holds k := by
    intro j k hj
    by_cases hji : j = i
    · subst hji
      exact .inl ⟨rfl, Buf.holds_inj hj hholds⟩
    · rw [hother j hji] at hj
      exact .inr ⟨hji, hj⟩
  have hgood : Good s' := by
    refine ⟨by rw [horder]; exact h.full, fun j j' k hj hj' => ?_, fun j k hj => ?_,
      fun j k hj hd => ?_, fun j ho => ?_⟩
    · rcases hwho j k hj with ⟨rfl, rfl⟩ | ⟨hji, hj⟩ <;> rcases hwho j' _ hj' with ⟨e, e'⟩ | ⟨_, hj'⟩
      · exact e.symm
      · exact absurd hj' (h.not_holds hc)
      · subst e'
        exact absurd hj (h.not_holds hc)
      · exact h.one j j' k hj hj'
    · rcases hwho j k hj with ⟨rfl, rfl⟩ | ⟨hji, hj⟩
      · rw [hself]
        exact ⟨rfl, hb⟩
      · rw [hother j hji]
        exact h.valid j k hj
    · rw [hdisk]
      rcases hwho j k hj with ⟨rfl, rfl⟩ | ⟨hji, hj⟩
      · rw [hself]
        rfl
      · rw [hother j hji] at hd ⊢
        exact h.clean j k hj hd
    · by_cases hji : j = i
      · rw [hji, hself]
        rfl
      · rw [hother j hji] at ho ⊢
        exact h.used j ho
  have hstill : Still s s' := by
    refine ⟨hgood, hdisk, fun k => ?_, fun k => ?_⟩
    · by_cases hki : (s.buf i).holds k
      · -- the recycled buffer was clean, so its block is read from the disk from now on
        have hkb : k ≠ b := by
          rintro rfl
          exact h.not_holds hc hki
        have hnone : s'.cached k = none := by
          cases hk : s'.cached k with
          | none => rfl
          | some j =>
            rcases hwho j k (holds_of_cached hk) with ⟨_, e⟩ | ⟨hji, hj⟩
            · exact absurd e hkb
            · exact absurd (h.one j i k hj hki) hji
        rw [content_of_none hnone, hdisk, h.content_of_holds hki]
        exact (h.clean i k hki hclean).symm
      · by_cases hkb : k = b
        · rw [hkb, hgood.content_of_holds hholds, hself, content_of_none hc]
          rfl
        · apply h.content_congr hgood (by rw [hdisk])
          · intro j
            constructor
            · intro hj
              rcases hwho j k hj with ⟨_, e⟩ | ⟨_, hj⟩
              · exact absurd e hkb
              · exact hj
            · intro hj
              rw [hother j (by rintro rfl; exact hki hj)]
              exact hj
          · intro j hj
            rw [hother j (by rintro rfl; exact hki hj)]
    · constructor
      · rintro ⟨j, hj, hd⟩
        rcases hwho j k hj with ⟨rfl, _⟩ | ⟨hji, hj⟩
        · rw [hself] at hd
          cases hd
        · rw [hother j hji] at hd
          exact ⟨j, hj, hd⟩
      · rintro ⟨j, hj, hd⟩
        have hji : j ≠ i := by
          rintro rfl
          rw [hclean] at hd
          cases hd
        exact ⟨j, by rw [hother j hji]; exact hj, by rw [hother j hji]; exact hd⟩
  refine ⟨hstill, hholds, ?_, ?_, hother, .inr howner⟩
  · rw [hself, content_of_none hc]
    rfl
  · rw [hself]
    rfl

theorem Good.bread (h : Good s) (hr : s.bread t b = .ok (i, s')) : Read s s' t b i := by
  unfold Bio.bread bget at hr
  cases hc : s.cached b with
  | some j =>
    have hj := holds_of_cached hc
    simp only [hc, bind, Except.bind, setBuf_buf, if_true, (h.valid j b hj).1, pure, Except.pure,
      Except.ok.injEq, Prod.mk.injEq] at hr
    obtain ⟨rfl, rfl⟩ := hr
    exact h.bread_hit hj
  | none =>
    simp only [hc] at hr
    cases hf : s.order.reverse.find? fun i => (s.buf i).unused with
    | none =>
      simp only [hf] at hr
      cases hr
    | some j =>
      have hj := List.find?_some hf
      by_cases hb : FSSIZE ≤ b
      · simp [hf, bind, Except.bind, iderw, hb] at hr
      · have hread := h.bread_miss (t := t) (Nat.not_le.mp hb) hc hj
        have hfill : (s.setBuf j fun _ => Buf.fresh t b (s.disk b)) = s' ∧ j = i := by
          simp only [hf, bind, Except.bind, iderw, setBuf_buf, if_pos trivial, if_neg hb, pure,
            Except.pure, Bool.false_eq_true, if_false, setBuf_setBuf, Except.ok.injEq,
            Prod.mk.injEq] at hr
          exact ⟨hr.2, hr.1⟩
        exact hfill.2 ▸ hfill.1 ▸ hread

/-- New data `v` for the block `b` that buffer `i` holds; `d` says whether the disk has yet to
get it. -/
structure Put (s s' : Bio) (i : Fin NBUF) (b : Nat) (v : Block) (d : Bool) : Prop where
  good : Good s'
  disk : s'.disk = if d then s.disk else fun k => if k = b then v else s.disk k
  content : ∀ k, s'.content k = if k = b then v else s.content k
  dirty : ∀ k, s'.Dirty k ↔ if k = b then d = true else s.Dirty k
  holds : ∀ j k, (s'.buf j).holds k ↔ (s.buf j).holds k
  owner : ∀ j, (s'.buf j).owner = (s.buf j).owner

theorem Good.put (h : Good s) (hi : (s.buf i).holds b) {d : Bool} (horder : s'.order = s.order)
    (hdisk : s'.disk = if d then s.disk else fun k => if k = b then v else s.disk k)
    (hself : s'.buf i = { s.buf i with data := v, valid := true, dirty := d })
    (hother : ∀ j, j ≠ i → s'.buf j = s.buf j) : Put s s' i b v d := by
  have hholds : ∀ j k, (s'.buf j).holds k ↔ (s.buf j).holds k := by
    intro j k
    by_cases hj : j = i
    · rw [hj, hself]
      exact Iff.rfl
    · rw [hother j hj]
  have howner : ∀ j, (s'.buf j).owner = (s.buf j).owner := by
    intro j
    by_cases hj : j = i
    · rw [hj, hself]
    · rw [hother j hj]
  have hne : ∀ k, k ≠ b → s'.disk k = s.disk k := by
    intro k hk
    rw [hdisk]
    split
    · rfl
    · exact if_neg hk
  have hkb : ∀ j k, (s.buf j).holds k → j ≠ i → k ≠ b := by
    rintro j k hj hji rfl
    exact hji (h.one j i k hj hi)
  have hji : ∀ j k, (s.buf j).holds k → k ≠ b → j ≠ i := by
    rintro j k hj hk rfl
    exact hk (Buf.holds_inj hj hi)
  have hgood : Good s' := by
    refine ⟨by rw [horder]; exact h.full, fun j j' k hj hj' => ?_, fun j k hj => ?_,
      fun j k hj hd => ?_, fun j ho => ?_⟩
    · exact h.one j j' k ((hholds j k).mp hj) ((hholds j' k).mp hj')
    · rw [hholds] at hj
      by_cases hji : j = i
      · rw [hji, hself]
        exact ⟨rfl, (h.valid j k hj).2⟩
      · rw [hother j hji]
        exact h.valid j k hj
    · rw [hholds] at hj
      by_cases hji : j = i
      · subst hji
        rw [hself] at hd ⊢
        rw [Buf.holds_inj hj hi, hdisk, if_neg (by simpa using hd)]
        exact (if_pos rfl).symm
      · rw [hother j hji] at hd ⊢
        rw [hne k (hkb j k hj hji)]
        exact h.clean j k hj hd
    · by_cases hji : j = i
      · rw [hji, hself]
        exact (Buf.holds_iff.mp hi).1
      · rw [hother j hji] at ho ⊢
        exact h.used j ho
  refine ⟨hgood, hdisk, fun k => ?_, fun k => ?_, hholds, howner⟩
  · by_cases hk : k = b
    · rw [hk, if_pos rfl, hgood.content_of_holds ((hholds i b).mpr hi), hself]
    · rw [if_neg hk]
      apply h.content_congr hgood (hne k hk) (fun j => hholds j k)
      intro j hj
      rw [hother j (hji j k hj hk)]
  · by_cases hk : k = b
    · rw [hk, if_pos rfl, hgood.dirty_iff ((hholds i b).mpr hi), hself]
    · rw [if_neg hk]
      constructor
      · rintro ⟨j, hj, hd⟩
        rw [hholds] at hj
        rw [hother j (hji j k hj hk)] at hd
        exact ⟨j, hj, hd⟩
      · rintro ⟨j, hj, hd⟩
        exact ⟨j, (hholds j k).mpr hj, by rw [hother j (hji j k hj hk)]; exact hd⟩

/-- `bwrite` of a buffer with new data goes through to the disk. -/
theorem Good.bwrite (h : Good s) (hi : (s.buf i).holds b) (v : Block) :
    ∃ s', (s.setBuf i fun x => { x with data := v }).bwrite i = .ok s' ∧ Put s s' i b v false := by
  have hno : ¬ FSSIZE ≤ b := Nat.not_le.mpr (h.valid i b hi).2
  refine ⟨{ s with disk := fun k => if k = b then v else s.disk k }.setBuf i fun x =>
    { x with data := v, valid := true, dirty := false }, ?_, ?_⟩
  · unfold Bio.bwrite iderw
    rw [setBuf_setBuf]
    simp only [setBuf_buf, if_pos trivial, if_neg hno, (Buf.holds_iff.mp hi).2]
    congr 1
    unfold setBuf
    congr 1
    funext j
    by_cases hj : j = i
    · simp only [if_pos hj, if_pos trivial]
    · simp only [if_neg hj]
  · exact h.put hi rfl rfl (if_pos rfl) fun j hj => if_neg hj

/-- The update of `log_write`. -/
theorem Good.pin (h : Good s) (hi : (s.buf i).holds b) (v : Block) :
    Put s (s.setBuf i fun x => { x with data := v, dirty := true }) i b v true := by
  refine h.put hi rfl (by simp) ?_ fun j hj => by simp [hj]
  simp [(h.valid i b hi).1]

/-- `brelse` only gives up the lock. -/
theorem Good.brelse (h : Good s) (i : Fin NBUF) : Still s (s.brelse i) := by
  refine h.setOwner (fun j => ?_) rfl (fun _ => rfl) fun hi => ?_
  · by_cases hj : j = i
    · rw [hj]
      exact List.mem_cons_self
    · exact List.mem_cons_of_mem _ ((List.mem_erase_of_ne hj).mpr (h.full j))
  · -- an unlocked buffer is in use only if it is dirty
    have hbuf : (s.brelse i).buf i = { s.buf i with owner := none } := if_pos rfl
    apply h.used i
    rw [← Bool.not_eq_true, Buf.unused_iff] at hi ⊢
    rw [hbuf] at hi
    exact fun hu => hi ⟨rfl, hu.2⟩

theorem brelse_buf (hj : j ≠ i) : (s.brelse i).buf j = s.buf j := if_neg hj

theorem brelse_self : ((s.brelse i).buf i).owner = none := congrArg Buf.owner (if_pos rfl)

/-- The cache after a boot is empty. -/
theorem binit_holds (disk : Nat → Block) : ¬ ((binit disk).buf i).holds b := by
  simp [binit, Buf.holds, ROOTDEV]

theorem good_binit (disk : Nat → Block) : Good (binit disk) where
  full i := List.mem_reverse.mpr (List.mem_finRange i)
  one i _ _ hi := absurd hi (binit_holds disk)
  valid i _ hi := absurd hi (binit_holds disk)
  clean i _ hi := absurd hi (binit_holds disk)
  used _ hu := absurd hu (by simp [binit, Buf.unused])

theorem not_dirty_binit (disk : Nat → Block) : ¬ (binit disk).Dirty b := by
  rintro ⟨i, hi, _⟩
  exact binit_holds disk hi

/-- `bread` succeeds when a buffer is free. -/
theorem Good.bread_ok (h : Good s) (hb : b < FSSIZE) (hfree : ∃ i, (s.buf i).unused) (t : ThdPtr) :
    ∃ i s', s.bread t b = .ok (i, s') := by
  unfold Bio.bread bget
  cases hc : s.cached b with
  | some j =>
    simp [bind, Except.bind, (h.valid j b (holds_of_cached hc)).1, pure, Except.pure]
  | none =>
    cases hf : s.order.reverse.find? fun i => (s.buf i).unused with
    | none =>
      obtain ⟨i, hi⟩ := hfree
      have := List.find?_eq_none.mp hf i (List.mem_reverse.mpr (h.full i))
      exact absurd hi this
    | some j =>
      simp [bind, Except.bind, iderw, Nat.not_le.mpr hb, pure, Except.pure]

end Bio

end Xv6
