import Mathlib.Data.List.Count
import Xv6.Fs.Bcache
import Xv6.Lib.Machine

/-!
# The integrity of the buffer cache

`Kept` is what every step keeps: the list visits every buffer once, `refcnt` counts the calls on a
buffer, a call's buffer is still for the block it asked for, and one call at a time has a buffer's
lock. Two calls for the same block are then on one buffer, since no two buffers are for one block.

A buffer is recycled by `bget` alone, and there only with `refcnt` 0 and without `B_DIRTY`
(`step_block`). What `log_write` has marked stays marked until the disk has written it: the disk
clears the flag of a buffer that it reads, but such a buffer is not dirty.
-/

namespace Xv6.Bcache

open Function Xv6.Lib

namespace Cache

variable {s s' : Cache} {i j : Fin NBUF} {c d : Call} {a : Act} {f : Buf → Buf} {ph ph' : Phase}
  {dev blockno : Word}

theorem setBuf_self : (s.setBuf i f).buf i = f (s.buf i) := update_self ..

theorem setBuf_ne (h : j ≠ i) : (s.setBuf i f).buf j = s.buf j := update_of_ne h ..

/-- The block that a buffer is for. -/
def block (s : Cache) (i : Fin NBUF) : Word × Word := ((s.buf i).dev, (s.buf i).blockno)

/-- The number of calls on a buffer, and of those that have its lock. -/
def uses (l : List Call) (i : Fin NBUF) : Nat := l.countP fun c => c.buf = i
def locks (l : List Call) (i : Fin NBUF) : Nat := l.countP fun c => c.buf = i ∧ c.phase.locks

structure Kept (s : Cache) : Prop where
  circle : ∃ l : List (Fin NBUF), s.links.Circle none (l.map some) ∧ l.Perm (List.finRange NBUF)
  one : ∀ i j, (s.buf i).dev ≠ 0 → s.block i = s.block j → i = j
  count : ∀ i, (s.buf i).refcnt = uses s.calls i
  names : ∀ c ∈ s.calls, s.block c.buf = (c.dev, c.blockno) ∧ c.dev ≠ 0
  excl : ∀ i, locks s.calls i = if (s.buf i).locked then 1 else 0
  held : ∀ c ∈ s.calls, c.phase = .hold ∨ c.phase = .write → (s.buf c.buf).valid = true
  reading : ∀ c ∈ s.calls, c.phase = .read → (s.buf c.buf).valid = false
  clean : ∀ i, (s.buf i).dirty = true → (s.buf i).valid = true

theorem binit_kept : Kept binit where
  circle := by
    refine ⟨(List.finRange NBUF).reverse, ?_, List.reverse_perm _⟩
    have hnil : Links.Circle ({ next := fun _ => none, prev := fun _ => none } : Links BufPtr) none [] :=
      .nil rfl rfl
    have hnd : ((List.finRange NBUF).map (some : Fin NBUF → BufPtr)).Nodup :=
      (List.nodup_finRange NBUF).map (Option.some_injective _)
    have hall := hnil.links hnd fun b hb hm => by
      obtain ⟨i, -, rfl⟩ := List.mem_map.1 hb
      simp at hm
    rw [List.append_nil, ← List.map_reverse] at hall
    exact hall
  one i _ hdev _ := absurd rfl hdev
  count _ := rfl
  names c hc := absurd hc List.not_mem_nil
  excl _ := rfl
  held c hc := absurd hc List.not_mem_nil
  reading c hc := absurd hc List.not_mem_nil
  clean i h := by cases h

/-! ## The loops of bget -/

/-- A loop of `bget` finds a buffer that passes its test. -/
theorem Kept.scan_next (h : s.Kept) (p : Buf → Bool) :
    (∃ i, Links.scan s.links.next none (s.test p) (NBUF + 1) (s.links.next none) = some (some i) ∧
      p (s.buf i) = true) ∨
    (Links.scan s.links.next none (s.test p) (NBUF + 1) (s.links.next none) = none ∧
      ∀ i, p (s.buf i) = false) := by
  obtain ⟨l, hcircle, hperm⟩ := h.circle
  have hlen : (l.map (some : Fin NBUF → BufPtr)).length < NBUF + 1 := by
    rw [List.length_map, hperm.length_eq, List.length_finRange]
    exact Nat.lt_succ_self _
  rw [hcircle.scan_next hlen]
  cases hf : (l.map (some : Fin NBUF → BufPtr)).find? (s.test p) with
  | some x =>
    obtain ⟨i, -, rfl⟩ := List.mem_map.1 (List.mem_of_find?_eq_some hf)
    have hp : s.test p (some i) = true := List.find?_some hf
    exact .inl ⟨i, rfl, hp⟩
  | none =>
    refine .inr ⟨rfl, fun i => ?_⟩
    have hi := List.find?_eq_none.1 hf (some i)
      (List.mem_map.2 ⟨i, hperm.mem_iff.2 (List.mem_finRange i), rfl⟩)
    simpa [test] using hi

theorem Kept.scan_prev (h : s.Kept) (p : Buf → Bool) {x : BufPtr}
    (hx : Links.scan s.links.prev none (s.test p) (NBUF + 1) (s.links.prev none) = some x) :
    ∃ i, x = some i ∧ p (s.buf i) = true := by
  obtain ⟨l, hcircle, hperm⟩ := h.circle
  have hlen : (l.map (some : Fin NBUF → BufPtr)).length < NBUF + 1 := by
    rw [List.length_map, hperm.length_eq, List.length_finRange]
    exact Nat.lt_succ_self _
  rw [hcircle.scan_prev hlen] at hx
  obtain ⟨i, -, rfl⟩ := List.mem_map.1 (List.mem_reverse.1 (List.mem_of_find?_eq_some hx))
  have hp : s.test p (some i) = true := List.find?_some hx
  exact ⟨i, rfl, hp⟩

/-- What `bget` does: one more call on the buffer of the block, or a free buffer is recycled. -/
theorem Kept.bget_cases (h : s.Kept) (hs : s.bget dev blockno = some s') : ∃ i,
    s'.links = s.links ∧ s'.calls = ⟨dev, blockno, i, .lock⟩ :: s.calls ∧
    (∀ j, j ≠ i → s'.buf j = s.buf j) ∧
    ((s.block i = (dev, blockno) ∧
        s'.buf i = { s.buf i with refcnt := (s.buf i).refcnt + 1 }) ∨
      ((∀ j, s.block j ≠ (dev, blockno)) ∧ (s.buf i).refcnt = 0 ∧ (s.buf i).dirty = false ∧
        s'.buf i = { s.buf i with dev, blockno, valid := false, dirty := false, refcnt := 1 })) := by
  unfold bget at hs
  simp only at hs
  rcases h.scan_next fun b => b.dev == dev && b.blockno == blockno with ⟨i, hi, hp⟩ | ⟨hi, hp⟩
  · rw [hi] at hs
    cases hs
    have hblock : s.block i = (dev, blockno) := by simpa [block] using hp
    refine ⟨i, rfl, rfl, fun j hj => by simp only [setBuf, update_of_ne hj], .inl ⟨hblock, ?_⟩⟩
    simp only [setBuf, update_self]
  · rw [hi] at hs
    simp only at hs
    cases hf : Links.scan s.links.prev none (s.test fun b => b.refcnt == 0 && !b.dirty) (NBUF + 1)
        (s.links.prev none) with
    | none =>
      rw [hf] at hs
      cases hs
    | some x =>
      obtain ⟨i, rfl, hfree⟩ := h.scan_prev _ hf
      rw [hf] at hs
      cases hs
      obtain ⟨h0, hd⟩ : (s.buf i).refcnt = 0 ∧ (s.buf i).dirty = false := by simpa using hfree
      refine ⟨i, rfl, rfl, fun j hj => by simp only [setBuf, update_of_ne hj], .inr ⟨fun j hj => ?_, h0, hd, ?_⟩⟩
      · have hpj := hp j
        obtain ⟨h1, h2⟩ := Prod.mk.inj hj
        simp [h1, h2] at hpj
      · simp only [setBuf, update_self]

/-! ## One step -/

theorem uses_cons (l : List Call) : uses (c :: l) i = uses l i + if c.buf = i then 1 else 0 := by
  unfold uses
  rw [List.countP_cons]
  simp

theorem locks_cons (l : List Call) :
    locks (c :: l) i = locks l i + if c.buf = i ∧ c.phase.locks then 1 else 0 := by
  unfold locks
  rw [List.countP_cons]
  simp

theorem uses_erase (hc : c ∈ s.calls) (i : Fin NBUF) :
    uses s.calls i = uses (s.calls.erase c) i + if c.buf = i then 1 else 0 := by
  rw [← uses_cons]
  exact (List.perm_cons_erase hc).countP_eq _

theorem locks_erase (hc : c ∈ s.calls) (i : Fin NBUF) :
    locks s.calls i = locks (s.calls.erase c) i + if c.buf = i ∧ c.phase.locks then 1 else 0 := by
  rw [← locks_cons]
  exact (List.perm_cons_erase hc).countP_eq _

/-- A buffer in use has a positive count. -/
theorem Kept.refcnt_pos (h : s.Kept) (hc : c ∈ s.calls) : 0 < (s.buf c.buf).refcnt := by
  rw [h.count]
  exact List.countP_pos_iff.2 ⟨c, hc, by simp⟩

/-- While a call has the lock of a buffer no other one has it. -/
theorem Kept.alone (h : s.Kept) (hc : c ∈ s.calls) (hlock : c.phase.locks = true)
    (hd : d ∈ s.calls.erase c) (hbuf : d.buf = c.buf) : d.phase.locks = false := by
  rw [← Bool.not_eq_true]
  intro hd'
  have hpos : 0 < locks (s.calls.erase c) c.buf := List.countP_pos_iff.2 ⟨d, hd, by simp [hbuf, hd']⟩
  have htotal := locks_erase hc c.buf
  rw [if_pos ⟨rfl, hlock⟩, h.excl] at htotal
  split at htotal <;> omega

/-- A phase in which the buffer's `valid` matters has its lock. -/
theorem Phase.locks_of_valid {ph : Phase} (h : (ph = .hold ∨ ph = .write) ∨ ph = .read) :
    ph.locks = true := by
  rcases h with (rfl | rfl) | rfl <;> rfl

/-- A call goes on: `f` leaves the block and the count alone and fits the new phase. -/
theorem Kept.advance (h : s.Kept) (hs : s.advance c ph ph' f = some s')
    (hblock : ∀ b, (f b).dev = b.dev ∧ (f b).blockno = b.blockno ∧ (f b).refcnt = b.refcnt)
    (hlock : (if (f (s.buf c.buf)).locked then 1 else 0) + (if ph.locks then 1 else 0) =
      (if (s.buf c.buf).locked then 1 else 0) + (if ph'.locks then 1 else 0))
    (hvalid : (f (s.buf c.buf)).valid = (s.buf c.buf).valid ∨ ph.locks = true)
    (hheld : ph' = .hold ∨ ph' = .write → (f (s.buf c.buf)).valid = true)
    (hread : ph' = .read → (f (s.buf c.buf)).valid = false)
    (hclean : (f (s.buf c.buf)).dirty = true → (f (s.buf c.buf)).valid = true) : s'.Kept := by
  unfold Cache.advance at hs
  split at hs
  next hpre =>
    obtain ⟨hc, rfl⟩ := hpre
    cases hs
    have hbuf : ∀ i, ((s.setBuf c.buf f).buf i).dev = (s.buf i).dev ∧
        ((s.setBuf c.buf f).buf i).blockno = (s.buf i).blockno ∧
        ((s.setBuf c.buf f).buf i).refcnt = (s.buf i).refcnt := by
      intro i
      by_cases hi : i = c.buf
      · subst hi
        rw [setBuf_self]
        exact hblock _
      · rw [setBuf_ne hi]
        exact ⟨rfl, rfl, rfl⟩
    have hblk : ∀ i, block { s.setBuf c.buf f with
        calls := { c with phase := ph' } :: s.calls.erase c } i = s.block i := fun i =>
      Prod.ext (hbuf i).1 (hbuf i).2.1
    -- the other calls on the buffer, as far as they look at `valid`
    have hother : ∀ d ∈ s.calls.erase c, (d.phase = .hold ∨ d.phase = .write) ∨ d.phase = .read →
        ((s.setBuf c.buf f).buf d.buf).valid = (s.buf d.buf).valid := by
      intro d hd hph
      by_cases hdc : d.buf = c.buf
      · rcases hvalid with hv | hl
        · rw [hdc, setBuf_self]
          exact hv
        · have hd' := Phase.locks_of_valid hph
          rw [h.alone hc hl hd hdc] at hd'
          cases hd'
      · rw [setBuf_ne hdc]
    refine ⟨h.circle, fun i j hdev hij => ?_, fun i => ?_, fun d hd => ?_, fun i => ?_,
      fun d hd hph => ?_, fun d hd hph => ?_, fun i hi => ?_⟩
    · rw [hblk, hblk] at hij
      exact h.one i j (fun e => hdev ((hbuf i).1.trans e)) hij
    · show ((s.setBuf c.buf f).buf i).refcnt = uses ({ c with phase := ph' } :: s.calls.erase c) i
      rw [(hbuf i).2.2, h.count, uses_erase hc, uses_cons]
    · rw [hblk]
      rcases List.mem_cons.1 hd with rfl | hd
      · exact h.names c hc
      · exact h.names d (List.mem_of_mem_erase hd)
    · show locks ({ c with phase := ph' } :: s.calls.erase c) i =
        if ((s.setBuf c.buf f).buf i).locked then 1 else 0
      have htotal := locks_erase hc i
      rw [h.excl] at htotal
      rw [locks_cons]
      by_cases hi : i = c.buf
      · subst hi
        rw [setBuf_self]
        simp only [true_and] at htotal ⊢
        omega
      · have hne : ¬ c.buf = i := fun e => hi e.symm
        rw [setBuf_ne hi]
        simp only [hne, false_and, if_false] at htotal ⊢
        omega
    · rcases List.mem_cons.1 hd with rfl | hd
      · show ((s.setBuf c.buf f).buf c.buf).valid = true
        rw [setBuf_self]
        exact hheld hph
      · show ((s.setBuf c.buf f).buf d.buf).valid = true
        rw [hother d hd (.inl hph)]
        exact h.held d (List.mem_of_mem_erase hd) hph
    · rcases List.mem_cons.1 hd with rfl | hd
      · show ((s.setBuf c.buf f).buf c.buf).valid = false
        rw [setBuf_self]
        exact hread hph
      · show ((s.setBuf c.buf f).buf d.buf).valid = false
        rw [hother d hd (.inr hph)]
        exact h.reading d (List.mem_of_mem_erase hd) hph
    · by_cases hic : i = c.buf
      · subst hic
        rw [show (buf { s.setBuf c.buf f with
          calls := { c with phase := ph' } :: s.calls.erase c } c.buf) = f (s.buf c.buf) from
          setBuf_self] at hi ⊢
        exact hclean hi
      · rw [show (buf { s.setBuf c.buf f with
          calls := { c with phase := ph' } :: s.calls.erase c } i) = s.buf i from
          setBuf_ne hic] at hi ⊢
        exact h.clean i hi
  next => cases hs

theorem Kept.bget (h : s.Kept) (hdev : dev ≠ 0) (hs : s.bget dev blockno = some s') : s'.Kept := by
  obtain ⟨i, hlinks, hcalls, hne, hcase⟩ := h.bget_cases hs
  have hblk : ∀ j, j ≠ i → s'.block j = s.block j := by
    intro j hj
    unfold block
    rw [hne j hj]
  -- what the two cases have in common; no call is on a buffer that is recycled
  obtain ⟨hblki, hno, hold, href, hlock, hvalid, hclean⟩ : s'.block i = (dev, blockno) ∧
      (∀ j, j ≠ i → s.block j ≠ (dev, blockno)) ∧
      (∀ d ∈ s.calls, d.buf = i → s.block i = (dev, blockno)) ∧
      (s'.buf i).refcnt = (s.buf i).refcnt + 1 ∧ (s'.buf i).locked = (s.buf i).locked ∧
      (∀ d ∈ s.calls, d.buf = i → (s'.buf i).valid = (s.buf i).valid) ∧
      ((s'.buf i).dirty = true → (s'.buf i).valid = true) := by
    rcases hcase with ⟨hi, hbuf⟩ | ⟨hno, h0, hd, hbuf⟩
    · have hdevi : (s.buf i).dev ≠ 0 := by
        rw [(Prod.mk.inj hi).1]
        exact hdev
      refine ⟨?_, fun j hj he => ?_, fun _ _ _ => hi, by rw [hbuf], by rw [hbuf],
        fun _ _ _ => by rw [hbuf], ?_⟩
      · unfold block
        rw [hbuf]
        exact hi
      · exact hj (h.one i j hdevi (hi.trans he.symm)).symm
      · rw [hbuf]
        exact h.clean i
    · have hfree : ∀ d ∈ s.calls, d.buf ≠ i := by
        rintro d hmem rfl
        have := h.refcnt_pos hmem
        omega
      refine ⟨?_, fun j _ => hno j, fun d hd he => absurd he (hfree d hd), ?_, by rw [hbuf],
        fun d hd he => absurd he (hfree d hd), ?_⟩
      · unfold block
        rw [hbuf]
      · rw [hbuf, h0]
      · rw [hbuf]
        exact fun he => by cases he
  refine ⟨?_, fun j k hj hjk => ?_, fun j => ?_, fun d hd => ?_, fun j => ?_, fun d hd hph => ?_,
    fun d hd hph => ?_, fun j hj => ?_⟩
  · rw [hlinks]
    exact h.circle
  · by_cases hji : j = i
    · by_cases hki : k = i
      · rw [hji, hki]
      · rw [hji, hblki, hblk k hki] at hjk
        exact absurd hjk.symm (hno k hki)
    · by_cases hki : k = i
      · rw [hki, hblki, hblk j hji] at hjk
        exact absurd hjk (hno j hji)
      · rw [hblk j hji, hblk k hki] at hjk
        rw [hne j hji] at hj
        exact h.one j k hj hjk
  · rw [hcalls, uses_cons, ← h.count]
    by_cases hji : j = i
    · rw [hji, href, if_pos rfl]
    · rw [hne j hji, if_neg fun e => hji e.symm, Nat.add_zero]
  · rw [hcalls] at hd
    rcases List.mem_cons.1 hd with rfl | hd
    · exact ⟨hblki, hdev⟩
    · obtain ⟨hn, hd0⟩ := h.names d hd
      refine ⟨?_, hd0⟩
      by_cases hdi : d.buf = i
      · rw [hdi, hblki, ← hold d hd hdi, ← hdi]
        exact hn
      · rw [hblk d.buf hdi]
        exact hn
  · rw [hcalls, locks_cons]
    simp only [Phase.locks, Bool.false_eq_true, and_false, if_false, Nat.add_zero]
    by_cases hji : j = i
    · rw [hji, hlock]
      exact h.excl i
    · rw [hne j hji]
      exact h.excl j
  · rw [hcalls] at hd
    rcases List.mem_cons.1 hd with rfl | hd
    · rcases hph with hph | hph <;> cases hph
    · by_cases hdi : d.buf = i
      · rw [hdi, hvalid d hd hdi, ← hdi]
        exact h.held d hd hph
      · rw [hne d.buf hdi]
        exact h.held d hd hph
  · rw [hcalls] at hd
    rcases List.mem_cons.1 hd with rfl | hd
    · cases hph
    · by_cases hdi : d.buf = i
      · rw [hdi, hvalid d hd hdi, ← hdi]
        exact h.reading d hd hph
      · rw [hne d.buf hdi]
        exact h.reading d hd hph
  · by_cases hji : j = i
    · rw [hji] at hj ⊢
      exact hclean hj
    · rw [hne j hji] at hj ⊢
      exact h.clean j hj

/-- What the section of `brelse` does to everything but the list. -/
theorem drop_cases (hs : s.drop c = some s') : c ∈ s.calls ∧ c.phase = .release ∧
    s'.calls = s.calls.erase c ∧
    (∀ i, s'.buf i = { s.buf i with refcnt := (s.buf i).refcnt - if c.buf = i then 1 else 0 }) ∧
    (s'.links = s.links ∨
      s'.links = (s.links.unlink (some c.buf)).link none (some c.buf)) := by
  unfold drop at hs
  split at hs
  next hpre =>
    have hbuf : ∀ i, (s.setBuf c.buf fun b => { b with refcnt := b.refcnt - 1 }).buf i =
        { s.buf i with refcnt := (s.buf i).refcnt - if c.buf = i then 1 else 0 } := by
      intro i
      by_cases hi : i = c.buf
      · subst hi
        rw [setBuf_self, if_pos rfl]
      · rw [setBuf_ne hi, if_neg fun e => hi e.symm]
        rfl
    simp only at hs
    split at hs
    next =>
      cases hs
      exact ⟨hpre.1, hpre.2, rfl, hbuf, .inr rfl⟩
    next =>
      cases hs
      exact ⟨hpre.1, hpre.2, rfl, hbuf, .inl rfl⟩
  next => cases hs

theorem Kept.drop (h : s.Kept) (hs : s.drop c = some s') : s'.Kept := by
  obtain ⟨hc, hph, hcalls, hbuf, hlinks⟩ := drop_cases hs
  have hblk : ∀ i, s'.block i = s.block i := by
    intro i
    unfold block
    rw [hbuf]
  refine ⟨?_, fun i j hdev hij => ?_, fun i => ?_, fun d hd => ?_, fun i => ?_, fun d hd hp => ?_,
    fun d hd hp => ?_, fun i hi => ?_⟩
  · obtain ⟨l, hcircle, hperm⟩ := h.circle
    rcases hlinks with hl | hl
    · rw [hl]
      exact ⟨l, hcircle, hperm⟩
    · obtain ⟨l₁, l₂, rfl⟩ := List.append_of_mem (hperm.mem_iff.2 (List.mem_finRange c.buf))
      refine ⟨c.buf :: (l₁ ++ l₂), ?_, List.perm_middle.symm.trans hperm⟩
      rw [List.map_append, List.map_cons] at hcircle
      rw [hl, List.map_cons, List.map_append]
      exact hcircle.moveFront
  · rw [hblk, hblk] at hij
    rw [hbuf] at hdev
    exact h.one i j hdev hij
  · rw [hbuf, hcalls]
    have := uses_erase hc i
    rw [← h.count] at this
    show (s.buf i).refcnt - _ = _
    omega
  · rw [hcalls] at hd
    rw [hblk]
    exact h.names d (List.mem_of_mem_erase hd)
  · rw [hcalls, hbuf]
    have := locks_erase hc i
    rw [h.excl, hph] at this
    simp only [Phase.locks, Bool.false_eq_true, and_false, if_false, Nat.add_zero] at this
    exact this.symm
  · rw [hcalls] at hd
    rw [hbuf]
    exact h.held d (List.mem_of_mem_erase hd) hp
  · rw [hcalls] at hd
    rw [hbuf]
    exact h.reading d (List.mem_of_mem_erase hd) hp
  · rw [hbuf] at hi ⊢
    exact h.clean i hi

/-- The call that goes on, and what is left of the other buffers. -/
theorem advance_pre (hs : s.advance c ph ph' f = some s') : c ∈ s.calls ∧ c.phase = ph := by
  unfold advance at hs
  split at hs
  next hpre => exact hpre
  next => cases hs

theorem advance_buf (hs : s.advance c ph ph' f = some s') :
    s'.buf c.buf = f (s.buf c.buf) ∧ ∀ i, i ≠ c.buf → s'.buf i = s.buf i := by
  unfold advance at hs
  split at hs
  next =>
    cases hs
    exact ⟨setBuf_self, fun i hi => setBuf_ne hi⟩
  next => cases hs

theorem Kept.step (h : s.Kept) (hok : OnDisk a) (hs : s.step a = some s') : s'.Kept := by
  cases a with
  | bread dev blockno => exact h.bget hok hs
  | acquiresleep c =>
    simp only [step] at hs
    split at hs
    next => cases hs
    next hfree =>
      refine h.advance hs (fun _ => ⟨rfl, rfl, rfl⟩) ?_ (.inl rfl) (fun hph => ?_) (fun hph => ?_)
        (h.clean c.buf)
      · simp [Phase.locks, hfree]
      · rcases hph with hph | hph <;> cases hph
      · cases hph
  | test c =>
    simp only [step] at hs
    split at hs
    next hv =>
      exact h.advance hs (fun _ => ⟨rfl, rfl, rfl⟩) rfl (.inl rfl) (fun _ => hv)
        (fun hph => by cases hph) (h.clean c.buf)
    next hv =>
      exact h.advance hs (fun _ => ⟨rfl, rfl, rfl⟩) rfl (.inl rfl)
        (fun hph => by rcases hph with hph | hph <;> cases hph) (fun _ => by simpa using hv)
        (h.clean c.buf)
  | ideintr c =>
    have hlocks : (if c.phase = .write then Phase.write else .read).locks = true := by
      split <;> rfl
    refine h.advance hs (fun _ => ⟨rfl, rfl, rfl⟩) ?_ (.inr hlocks) (fun _ => rfl)
      (fun hph => by cases hph) (fun hd => by cases hd)
    rw [hlocks]
    rfl
  | bwrite c =>
    obtain ⟨hc, hph⟩ := advance_pre hs
    have hvalid := h.held c hc (.inl hph)
    exact h.advance hs (fun _ => ⟨rfl, rfl, rfl⟩) rfl (.inl rfl) (fun _ => hvalid)
      (fun hph => by cases hph) (fun _ => hvalid)
  | logWrite c =>
    obtain ⟨hc, hph⟩ := advance_pre hs
    have hvalid := h.held c hc (.inl hph)
    exact h.advance hs (fun _ => ⟨rfl, rfl, rfl⟩) rfl (.inl rfl) (fun _ => hvalid)
      (fun hph => by cases hph) (fun _ => hvalid)
  | brelse c =>
    have hpre := advance_pre hs
    refine h.advance hs (fun _ => ⟨rfl, rfl, rfl⟩) ?_ (.inl rfl) (fun hph => ?_) (fun hph => ?_)
      (h.clean c.buf)
    · -- the call has the lock, so it is taken
      have htotal := locks_erase hpre.1 c.buf
      rw [h.excl, hpre.2] at htotal
      simp only [Phase.locks, and_self, if_true] at htotal ⊢
      split at htotal <;> simp_all
    · rcases hph with hph | hph <;> cases hph
    · cases hph
  | drop c => exact h.drop hs

/-- The steps that keep the blocks of all buffers: every one but that of `bget`. -/
theorem advance_block (hs : s.advance c ph ph' f = some s')
    (hblock : ∀ b, (f b).dev = b.dev ∧ (f b).blockno = b.blockno) :
    s'.block i = s.block i := by
  obtain ⟨hself, hne⟩ := advance_buf hs
  unfold block
  by_cases hi : i = c.buf
  · rw [hi, hself, (hblock _).1, (hblock _).2]
  · rw [hne i hi]

/-- A buffer in use, or marked by the log, stays for its block. -/
theorem Kept.step_block (h : s.Kept) (hs : s.step a = some s')
    (hi : 0 < (s.buf i).refcnt ∨ (s.buf i).dirty = true) : s'.block i = s.block i := by
  cases a with
  | bread dev blockno =>
    obtain ⟨k, -, -, hne, hcase⟩ := h.bget_cases hs
    unfold block
    by_cases hik : i = k
    · subst hik
      rcases hcase with ⟨-, hbuf⟩ | ⟨-, h0, hd, -⟩
      · rw [hbuf]
      · rw [hd] at hi
        rcases hi with hi | hi
        · omega
        · cases hi
    · rw [hne i hik]
  | acquiresleep c =>
    simp only [Cache.step] at hs
    split at hs
    next => cases hs
    next => exact advance_block hs (fun _ => ⟨rfl, rfl⟩)
  | test c =>
    simp only [Cache.step] at hs
    split at hs
    next => exact advance_block hs (fun _ => ⟨rfl, rfl⟩)
    next => exact advance_block hs (fun _ => ⟨rfl, rfl⟩)
  | ideintr c => exact advance_block hs (fun _ => ⟨rfl, rfl⟩)
  | bwrite c => exact advance_block hs (fun _ => ⟨rfl, rfl⟩)
  | logWrite c => exact advance_block hs (fun _ => ⟨rfl, rfl⟩)
  | brelse c => exact advance_block hs (fun _ => ⟨rfl, rfl⟩)
  | drop c =>
    obtain ⟨-, -, -, hbuf, -⟩ := drop_cases hs
    unfold block
    rw [hbuf]

theorem advance_dirty (hs : s.advance c ph ph' f = some s')
    (hdirty : (s.buf c.buf).dirty = true → (f (s.buf c.buf)).dirty = true)
    (hi : (s.buf i).dirty = true) : (s'.buf i).dirty = true := by
  obtain ⟨hself, hne⟩ := advance_buf hs
  by_cases hic : i = c.buf
  · subst hic
    rw [hself]
    exact hdirty hi
  · rw [hne i hic]
    exact hi

/-- The mark of the log goes only when the disk has written the buffer. -/
theorem Kept.step_dirty (h : s.Kept) (hs : s.step a = some s') (hi : (s.buf i).dirty = true) :
    (s'.buf i).dirty = true ∨ ∃ c, a = .ideintr c ∧ c.phase = .write ∧ c.buf = i := by
  cases a with
  | bread dev blockno =>
    obtain ⟨k, -, -, hne, hcase⟩ := h.bget_cases hs
    by_cases hik : i = k
    · subst hik
      rcases hcase with ⟨-, hbuf⟩ | ⟨-, -, hd, -⟩
      · rw [hbuf]
        exact .inl hi
      · rw [hd] at hi
        cases hi
    · rw [hne i hik]
      exact .inl hi
  | acquiresleep c =>
    simp only [Cache.step] at hs
    split at hs
    next => cases hs
    next => exact .inl (advance_dirty hs id hi)
  | test c =>
    simp only [Cache.step] at hs
    split at hs
    next => exact .inl (advance_dirty hs id hi)
    next => exact .inl (advance_dirty hs id hi)
  | ideintr c =>
    obtain ⟨hc, hph⟩ := advance_pre hs
    by_cases hw : c.phase = .write
    · by_cases hic : c.buf = i
      · exact .inr ⟨c, rfl, hw, hic⟩
      · rw [(advance_buf hs).2 i fun e => hic e.symm]
        exact .inl hi
    · -- a buffer that is read is not valid yet, so it is not dirty
      rw [if_neg hw] at hph
      refine .inl (advance_dirty hs (fun hd => ?_) hi)
      have hv := h.clean c.buf hd
      rw [h.reading c hc hph] at hv
      cases hv
  | bwrite c => exact .inl (advance_dirty hs (fun _ => rfl) hi)
  | logWrite c => exact .inl (advance_dirty hs (fun _ => rfl) hi)
  | brelse c => exact .inl (advance_dirty hs id hi)
  | drop c =>
    obtain ⟨-, -, -, hbuf, -⟩ := drop_cases hs
    rw [hbuf]
    exact .inl hi

/-! ## Runs -/

/-- The invariant, with the history of `log_write`. -/
structure Held (x : Cache × List (Word × Word)) : Prop where
  kept : x.1.Kept
  pinned : ∀ y ∈ x.2, ∃ i, x.1.block i = y ∧ (x.1.buf i).dirty = true

theorem Held.step {x y : Cache × List (Word × Word)} (h : Held x) (hok : OnDisk a)
    (hs : recorded Cache.step logged x a = some y) : Held y := by
  obtain ⟨hs, hl⟩ := recorded_eq_some.1 hs
  refine ⟨h.kept.step hok hs, fun z hz => ?_⟩
  rw [hl] at hz
  -- a block that was logged before
  have hold : z ∈ x.2 → (∀ c, a = .ideintr c → c.phase = .write → x.1.block c.buf ≠ z) →
      ∃ i, y.1.block i = z ∧ (y.1.buf i).dirty = true := by
    intro hz hother
    obtain ⟨i, hi, hd⟩ := h.pinned z hz
    refine ⟨i, (h.kept.step_block hs (.inr hd)).trans hi, ?_⟩
    rcases h.kept.step_dirty hs hd with hd' | ⟨c, hc, hw, rfl⟩
    · exact hd'
    · exact absurd hi (hother c hc hw)
  cases a with
  | logWrite c =>
    rcases List.mem_cons.1 hz with rfl | hz
    · refine ⟨c.buf, advance_block hs (fun _ => ⟨rfl, rfl⟩), ?_⟩
      rw [(advance_buf hs).1]
    · exact hold hz fun c hc => by cases hc
  | ideintr c =>
    simp only [logged] at hz
    split at hz
    next hw =>
      obtain ⟨hz, hne⟩ := List.mem_filter.1 hz
      refine hold hz fun d hd _ => ?_
      cases hd
      have hne' := bne_iff_ne.1 hne
      exact fun e => hne' e.symm
    next hw =>
      refine hold hz fun d hd hd' => ?_
      cases hd
      exact absurd hd' hw
  | bread dev blockno => exact hold hz fun c hc => by cases hc
  | acquiresleep c => exact hold hz fun c hc => by cases hc
  | test c => exact hold hz fun c hc => by cases hc
  | bwrite c => exact hold hz fun c hc => by cases hc
  | brelse c => exact hold hz fun c hc => by cases hc
  | drop c => exact hold hz fun c hc => by cases hc

/-- The list of buffers visits each buffer once, in both directions, and comes back to its head. -/
theorem Kept.visits (h : s.Kept) :
    (∀ x, s.links.prev (s.links.next x) = x ∧ s.links.next (s.links.prev x) = x) ∧
    ∃ l : List (Fin NBUF), l.Perm (List.finRange NBUF) ∧
      List.iterate s.links.next (s.links.next none) (NBUF + 1) = l.map some ++ [none] ∧
      List.iterate s.links.prev (s.links.prev none) (NBUF + 1) = l.reverse.map some ++ [none] := by
  obtain ⟨l, hcircle, hperm⟩ := h.circle
  have hlen : (l.map (some : Fin NBUF → BufPtr)).length = NBUF := by
    rw [List.length_map, hperm.length_eq, List.length_finRange]
  refine ⟨fun x => hcircle.inverse ?_, l, hperm, ?_, ?_⟩
  · cases x with
    | none => exact List.mem_cons_self
    | some i =>
      exact List.mem_cons_of_mem _ (List.mem_map.2 ⟨i, hperm.mem_iff.2 (List.mem_finRange i), rfl⟩)
  · have := hcircle.forward
    rwa [hlen] at this
  · have := hcircle.backward
    rwa [hlen, ← List.map_reverse] at this

/-- **The integrity of the buffer cache.** In every state that calls on devices other than 0 lead to
from `binit`, whatever the number of threads and the interleaving: `next` and `prev` are inverse and
the list visits each buffer once; no two buffers are for one block; two calls for one block are on
one buffer, which is for that block, and at most one of them has its lock; no step makes a buffer
that is in use or dirty one for another block; and each block that was handed to `log_write` and not
written since is in a dirty buffer. -/
theorem bcache_integrity {l : List (Word × Word)}
    (h : Reaches (recorded Cache.step logged) (fun _ a => OnDisk a) (binit, []) (s, l)) :
    ((∀ x, s.links.prev (s.links.next x) = x ∧ s.links.next (s.links.prev x) = x) ∧
      ∃ l : List (Fin NBUF), l.Perm (List.finRange NBUF) ∧
        List.iterate s.links.next (s.links.next none) (NBUF + 1) = l.map some ++ [none] ∧
        List.iterate s.links.prev (s.links.prev none) (NBUF + 1) = l.reverse.map some ++ [none]) ∧
    (∀ i j, (s.buf i).dev ≠ 0 → s.block i = s.block j → i = j) ∧
    (∀ c ∈ s.calls, s.block c.buf = (c.dev, c.blockno) ∧
      ∀ d ∈ s.calls, d.dev = c.dev → d.blockno = c.blockno → d.buf = c.buf) ∧
    (∀ i, locks s.calls i ≤ 1) ∧
    (∀ a s' i, s.step a = some s' → 0 < (s.buf i).refcnt ∨ (s.buf i).dirty = true →
      s'.block i = s.block i) ∧
    ∀ x ∈ l, ∃ i, s.block i = x ∧ (s.buf i).dirty = true := by
  have hheld : Held (s, l) := by
    refine h.invariant (motive := Held) ⟨binit_kept, fun y hy => absurd hy List.not_mem_nil⟩ ?_
    intro x a y hx hok hs
    exact hx.step hok hs
  have hkept := hheld.kept
  refine ⟨hkept.visits, hkept.one, fun c hc => ⟨(hkept.names c hc).1, fun d hd hdev hno => ?_⟩,
    fun i => ?_, fun a s' i hs hi => hkept.step_block hs hi, hheld.pinned⟩
  · obtain ⟨hn, h0⟩ := hkept.names d hd
    refine hkept.one d.buf c.buf ?_ ?_
    · rw [(Prod.mk.inj hn).1]
      exact h0
    · rw [hn, (hkept.names c hc).1, hdev, hno]
  · rw [hkept.excl]
    split <;> omega

/-- A block is read, handed to the log and released: its buffer is pinned. -/
theorem bcache_integrity_pinned : ∃ x : Cache × List (Word × Word),
    Reaches (recorded Cache.step logged) (fun _ a => OnDisk a) (binit, []) x ∧
      x.1.calls = [] ∧ ∃ i, x.1.block i = (1, 7) ∧ (x.1.buf i).dirty = true := by
  have hrun : ∃ x, Reaches (recorded step logged) (fun _ a => OnDisk a) (binit, []) x ∧
      (x.1.calls = [] ∧ x.2 = [(1, 7)]) :=
    exists_reaches [.bread 1 7, .acquiresleep ⟨1, 7, 0, .lock⟩, .test ⟨1, 7, 0, .check⟩,
      .ideintr ⟨1, 7, 0, .read⟩, .logWrite ⟨1, 7, 0, .hold⟩, .brelse ⟨1, 7, 0, .hold⟩,
      .drop ⟨1, 7, 0, .release⟩]
      (fun x : Cache × List (Word × Word) => x.1.calls = [] ∧ x.2 = [(1, 7)]) (by decide +kernel)
  obtain ⟨⟨s, l⟩, hr, hcalls, rfl⟩ := hrun
  obtain ⟨-, -, -, -, -, hpin⟩ := bcache_integrity hr
  exact ⟨_, hr, hcalls, hpin (1, 7) List.mem_cons_self⟩

end Cache

end Xv6.Bcache
