import Xv6.Fs.Log
import Xv6.Laws.Fs.Bio
import Xv6.Lib.Machine

/-!
# What the log keeps

`Recoverable` is about the disk alone: the blocks named in the log's header have their durable
content in the log, and all other home blocks have it at home. It holds in every state, so a
crash needs no argument of its own. `LogInv` adds what the cache and the places of `commit` and
`initlog` contribute: what `bread` sees, which blocks are pinned, and what has been copied.
-/

namespace Xv6

open Xv6.Lib

/-! ## The header -/

theorem word_putBlocks_lt {xs : List Nat} : ∀ {b : Block} {i j : Nat}, j < 1 + i →
    (putBlocks b i xs).word j = b.word j := by
  induction xs with
  | nil =>
    intro b i j _
    rfl
  | cons x xs ih =>
    intro b i j hj
    show (putBlocks (b.setWord (1 + i) x) (i + 1) xs).word j = _
    rw [ih (by omega), Block.word_setWord_ne (by omega)]

theorem word_putBlocks {xs : List Nat} : ∀ {b : Block} {i : Nat}, i + xs.length ≤ 127 →
    (∀ x ∈ xs, x < 2 ^ 32) → ∀ j x, xs[j]? = some x → (putBlocks b i xs).word (1 + (i + j)) = x := by
  induction xs with
  | nil =>
    intro b i _ _ j x hx
    simp at hx
  | cons y xs ih =>
    intro b i hlen hlt j x hx
    rw [List.length_cons] at hlen
    show (putBlocks (b.setWord (1 + i) y) (i + 1) xs).word (1 + (i + j)) = x
    cases j with
    | zero =>
      obtain rfl : y = x := by simpa using hx
      rw [word_putBlocks_lt (by omega)]
      exact Block.word_setWord (by omega) (hlt y List.mem_cons_self)
    | succ j =>
      have hrest := ih (b := b.setWord (1 + i) y) (i := i + 1) (by omega)
        (fun x hx => hlt x (List.mem_cons_of_mem _ hx)) j x (by simpa using hx)
      rwa [show i + 1 + j = i + (j + 1) by omega] at hrest

/-- What `write_head` stores, `read_head` finds. -/
theorem getHead_putHead {lh : List Nat} (hlen : lh.length ≤ 127) (hlt : ∀ b ∈ lh, b < 2 ^ 32)
    (b : Block) : getHead (putHead lh b) = lh := by
  have hn : (putHead lh b).word 0 = lh.length := by
    unfold putHead
    rw [word_putBlocks_lt (by omega), Block.word_setWord (by omega) (by omega)]
  apply List.ext_getElem?
  intro j
  unfold getHead
  rw [hn]
  by_cases hj : j < lh.length
  · have hx : lh[j]? = some lh[j] := List.getElem?_eq_getElem hj
    have hword := word_putBlocks (b := b.setWord 0 lh.length) (i := 0) (by omega) hlt j _ hx
    rw [Nat.zero_add] at hword
    rw [hx, List.getElem?_map, List.getElem?_range hj, Option.map_some]
    exact congrArg some hword
  · rw [List.getElem?_eq_none (by simpa using hj), List.getElem?_eq_none (by omega)]

theorem getHead_zero {b : Block} (h : b.word 0 = 0) : getHead b = [] := by
  unfold getHead
  rw [h]
  rfl

namespace Bio

variable {s s' s₁ s₂ : Bio} {t : ThdPtr} {a b tail : Nat} {i j : Fin NBUF} {lh : List Nat}

/-! ## Rounds of log.c -/

/-- Who owns a buffer afterwards has owned it for the same block before. -/
def OwnersKept (s s' : Bio) : Prop := ∀ k b, (s'.buf k).owner ≠ none → (s'.buf k).holds b →
  (s.buf k).owner ≠ none ∧ (s.buf k).holds b

/-- Block `dst` gets the content `v`, in the cache and on the disk. -/
structure Stored (s s' : Bio) (dst : Nat) (v : Block) : Prop where
  good : Good s'
  disk : ∀ k, s'.disk k = if k = dst then v else s.disk k
  content : ∀ k, s'.content k = if k = dst then v else s.content k
  dirty : ∀ k, s'.Dirty k ↔ s.Dirty k ∧ k ≠ dst
  owners : OwnersKept s s'

/-- Two blocks are read and both buffers stay. -/
theorem Good.bread_two (h : Good s) (hab : a ≠ b) (h₁ : s.bread t a = .ok (i, s₁))
    (h₂ : s₁.bread t b = .ok (j, s₂)) :
    Still s s₂ ∧ i ≠ j ∧ ((s₂.buf i).holds a ∧ (s₂.buf i).data = s.content a) ∧
      ((s₂.buf j).holds b ∧ (s₂.buf j).data = s.content b) ∧
      ∀ k, k ≠ i → k ≠ j → s₂.buf k = s.buf k := by
  have hr₁ := h.bread h₁
  have hr₂ := hr₁.good.bread h₂
  -- the first buffer is owned by now, so the second `bget` does not take it
  have hij : i ≠ j := by
    rintro rfl
    rcases hr₂.was with hb | ho
    · exact hab (Buf.holds_inj hr₁.holds hb)
    · rw [hr₁.owner] at ho
      cases ho
  refine ⟨hr₁.toStill.trans hr₂.toStill, hij, ?_, ⟨hr₂.holds, ?_⟩, fun k hki hkj => ?_⟩
  · rw [hr₂.other i hij]
    exact ⟨hr₁.holds, hr₁.data⟩
  · rw [hr₂.data, hr₁.content]
  · rw [hr₂.other k hkj, hr₁.other k hki]

/-- New data goes through to the disk, and the buffers in use are released. -/
theorem Still.stored (h : Still s s₁) {v : Block} (hput : Put s₁ s₂ i b v false)
    (hrel : Still s₂ s') (howners : OwnersKept s s') : Stored s s' b v where
  good := hrel.good
  disk k := by
    rw [hrel.disk, hput.disk, if_neg (by simp), h.disk]
  content k := by
    rw [hrel.content, hput.content, h.content]
  dirty k := by
    rw [hrel.dirty, hput.dirty, ← h.dirty]
    by_cases hk : k = b
    · simp [hk]
    · simp [hk]
  owners := howners

/-- The one buffer whose owner was new is given back. -/
theorem ownersKept_brelse (h : ∀ k b, k ≠ i → (s₁.buf k).owner ≠ none → (s₁.buf k).holds b →
    (s.buf k).owner ≠ none ∧ (s.buf k).holds b) : OwnersKept s (s₁.brelse i) := by
  intro k b ho hk
  have hki : k ≠ i := by
    rintro rfl
    exact ho brelse_self
  rw [brelse_buf hki] at ho hk
  exact h k b hki ho hk

/-- Both buffers of a round are given back. -/
theorem ownersKept_round {v : Block} {b' : Nat} {l : Fin NBUF} (hput : Put s₁ s₂ l b' v false)
    (hother : ∀ k, k ≠ i → k ≠ j → s₁.buf k = s.buf k) : OwnersKept s ((s₂.brelse i).brelse j) := by
  refine ownersKept_brelse fun k b hkj ho hk => ?_
  have hki : k ≠ i := by
    rintro rfl
    exact ho brelse_self
  rw [brelse_buf hki] at ho hk
  rw [hput.owner, hother k hki hkj] at ho
  rw [hput.holds, hother k hki hkj] at hk
  exact ⟨ho, hk⟩

theorem Good.writeLog (h : Good s) (hb : b ≠ mkfs.logstart + tail + 1)
    (hr : s.writeLog t tail b = .ok s') :
    Stored s s' (mkfs.logstart + tail + 1) (s.content b) ∧
      ∀ l : List Nat, l.Nodup → (∀ k ∈ l, s.Dirty k) → mkfs.logstart + tail + 1 ∉ l →
        l.length < NBUF := by
  unfold Bio.writeLog at hr
  obtain ⟨⟨i, s₁⟩, h₁, hr⟩ := bind_ok hr
  obtain ⟨⟨j, s₂⟩, h₂, hr⟩ := bind_ok hr
  obtain ⟨hstill, hij, ⟨hi, _⟩, ⟨_, hdata⟩, hother⟩ := h.bread_two hb.symm h₁ h₂
  obtain ⟨s₃, hs₃, hput⟩ := hstill.good.bwrite hi (s₂.buf j).data
  simp only [bind, Except.bind, hs₃, pure, Except.pure, Except.ok.injEq] at hr
  subst hr
  rw [hdata] at hput
  refine ⟨hstill.stored hput ((hput.good.brelse j).trans (hput.good.brelse j |>.good.brelse i))
    (ownersKept_round hput fun k hkj hki => hother k hki hkj), fun l hnd hl ha => ?_⟩
  have hr₁ := h.bread h₁
  refine Good.length_le (s := s₁) (l := (mkfs.logstart + tail + 1) :: l)
    (List.nodup_cons.mpr ⟨ha, hnd⟩) fun k hk => ?_
  rcases List.mem_cons.mp hk with rfl | hk
  · exact ⟨i, hr₁.holds⟩
  · obtain ⟨i', hi', _⟩ := (hr₁.dirty k).mpr (hl k hk)
    exact ⟨i', hi'⟩

theorem Good.installTrans (h : Good s) (hb : b ≠ mkfs.logstart + tail + 1)
    (hr : s.installTrans t tail b = .ok s') :
    Stored s s' b (s.content (mkfs.logstart + tail + 1)) := by
  unfold Bio.installTrans at hr
  obtain ⟨⟨i, s₁⟩, h₁, hr⟩ := bind_ok hr
  obtain ⟨⟨j, s₂⟩, h₂, hr⟩ := bind_ok hr
  obtain ⟨hstill, hij, ⟨_, hdata⟩, ⟨hj, _⟩, hother⟩ := h.bread_two hb.symm h₁ h₂
  obtain ⟨s₃, hs₃, hput⟩ := hstill.good.bwrite hj (s₂.buf i).data
  simp only [bind, Except.bind, hs₃, pure, Except.pure, Except.ok.injEq] at hr
  subst hr
  rw [hdata] at hput
  exact hstill.stored hput ((hput.good.brelse i).trans (hput.good.brelse i |>.good.brelse j))
    (ownersKept_round hput hother)

theorem Good.writeHead (h : Good s) (hr : s.writeHead t lh = .ok s') :
    Stored s s' mkfs.logstart (putHead lh (s.content mkfs.logstart)) := by
  unfold Bio.writeHead at hr
  obtain ⟨⟨i, s₁⟩, h₁, hr⟩ := bind_ok hr
  have hread := h.bread h₁
  obtain ⟨s₂, hs₂, hput⟩ := hread.good.bwrite hread.holds (putHead lh (s₁.buf i).data)
  have hset : (s₁.setBuf i fun x => { x with data := putHead lh x.data }) =
      s₁.setBuf i fun x => { x with data := putHead lh (s₁.buf i).data } := by
    unfold setBuf
    rfl
  simp only [bind, Except.bind, hset, hs₂, pure, Except.pure, Except.ok.injEq] at hr
  subst hr
  rw [hread.data] at hput
  refine hread.toStill.stored hput (hput.good.brelse i) (ownersKept_brelse fun k c hki ho hk => ?_)
  rw [hput.owner, hread.other k hki] at ho
  rw [hput.holds, hread.other k hki] at hk
  exact ⟨ho, hk⟩

theorem Good.readHead (h : Good s) {l : List Nat} (hr : s.readHead t = .ok (l, s')) :
    l = getHead (s.content mkfs.logstart) ∧ Still s s' ∧ OwnersKept s s' := by
  unfold Bio.readHead at hr
  obtain ⟨⟨i, s₁⟩, h₁, hr⟩ := bind_ok hr
  have hread := h.bread h₁
  simp only [pure, Except.pure, Except.ok.injEq, Prod.mk.injEq] at hr
  obtain ⟨rfl, rfl⟩ := hr
  refine ⟨by rw [hread.data], hread.toStill.trans (hread.good.brelse i),
    ownersKept_brelse fun k c hki ho hk => ?_⟩
  rw [hread.other k hki] at ho hk
  exact ⟨ho, hk⟩

end Bio

namespace LogSys

variable {s s' : LogSys} {bio : Bio} {t : ThdPtr} {a b tail : Nat} {i : Fin NBUF}

/-! ## The invariant -/

/-- What `bread` of a home block gives: with the changes of the transaction, unless a crash has
undone them. -/
def view (s : LogSys) : Nat → Block := if s.lost then s.before else s.after

/-- The list in the header on the disk. -/
def header (s : LogSys) : List Nat := getHead (s.bio.disk mkfs.logstart)

/-- The logged blocks that are not at home yet. -/
def stale (s : LogSys) : List Nat :=
  match s.pc with
  | .idle | .writeLog _ | .writeHead | .clear | .finish | .reclear => s.lh
  | .install tail | .reinstall tail => s.lh.drop tail
  | .readHead => s.header

/-- The disk alone gives every home block its durable content. -/
structure Recoverable (s : LogSys) : Prop where
  room : s.header.length < mkfs.nlog
  nodup : s.header.Nodup
  home : ∀ b ∈ s.header, ¬ InLog b ∧ b < FSSIZE
  copies : ∀ j b, s.header[j]? = some b → s.bio.disk (mkfs.logstart + j + 1) = s.durable b
  rest : ∀ b, ¬ InLog b → b ∉ s.header → s.bio.disk b = s.durable b
  why : s.header ≠ [] → s.committed = true

/-- What holds at each place of `commit` and `initlog`. -/
def Phase (s : LogSys) : Prop :=
  match s.pc with
  | .idle => s.header = [] ∧ s.committing = none ∧ (s.outstanding = 0 → s.lh = []) ∧
      (s.outstanding ≠ 0 → s.committed = false ∧ s.lost = false)
  | .writeLog tail => s.committing ≠ none ∧ s.header = [] ∧ s.outstanding = 0 ∧
      s.committed = false ∧ s.lost = false ∧ s.lh ≠ [] ∧ (0 < tail → s.lh.length < mkfs.nlog) ∧
      ∀ j b, j < tail → s.lh[j]? = some b → s.bio.disk (mkfs.logstart + j + 1) = s.view b
  | .writeHead => s.committing ≠ none ∧ s.header = [] ∧ s.outstanding = 0 ∧
      s.committed = false ∧ s.lost = false ∧ s.lh.length < mkfs.nlog ∧
      ∀ j b, s.lh[j]? = some b → s.bio.disk (mkfs.logstart + j + 1) = s.view b
  | .install _ => s.committing ≠ none ∧ s.header = s.lh ∧ s.outstanding = 0 ∧
      s.committed = true ∧ s.lost = false
  | .clear => s.committing ≠ none ∧ s.lh = [] ∧ s.outstanding = 0 ∧ s.committed = true ∧
      s.lost = false
  | .finish => s.committing ≠ none ∧ s.lh = [] ∧ s.header = [] ∧ s.outstanding = 0
  | .readHead => s.lh = [] ∧ s.outstanding = 0 ∧ s.committing = none ∧ s.lost = !s.committed
  | .reinstall _ => s.header = s.lh ∧ s.outstanding = 0 ∧ s.committing = none ∧
      s.lost = !s.committed
  | .reclear => s.lh = [] ∧ s.outstanding = 0 ∧ s.committing = none ∧ s.lost = !s.committed

/-- The number of operations between `begin_op` and `end_op`. -/
def active (s : LogSys) : Nat := (Finset.univ.filter fun t => (s.op t).isSome).card

structure LogInv (s : LogSys) : Prop where
  good : s.bio.Good
  recoverable : s.Recoverable
  nodup : s.lh.Nodup
  home : ∀ b ∈ s.lh, ¬ InLog b ∧ b < FSSIZE
  /-- the other blocks are at home -/
  fresh : ∀ b, ¬ InLog b → b ∉ s.stale → s.bio.disk b = s.view b
  view : s.pc.up = true → ∀ b, ¬ InLog b → s.bio.content b = s.view b
  pinned : s.pc.up = true → ∀ b ∈ s.stale, s.bio.Dirty b
  /-- only logged blocks are dirty -/
  dirty : ∀ b, s.bio.Dirty b → s.pc.up = true ∧ b ∈ s.stale
  owners : ∀ i b, (s.bio.buf i).owner ≠ none → (s.bio.buf i).holds b → s.pc.up = true ∧ ¬ InLog b
  phase : s.Phase
  counted : s.outstanding = s.active

theorem inLog_logstart : InLog mkfs.logstart := by decide

/-- The blocks of the log behind its header. -/
theorem inLog_copy {j : Nat} (hj : j + 1 < mkfs.nlog) : InLog (mkfs.logstart + j + 1) := by
  unfold InLog
  omega

theorem ne_of_inLog {a b : Nat} (ha : InLog a) (hb : ¬ InLog b) : b ≠ a := by
  rintro rfl
  exact hb ha

/-- With an empty header, everything is at home. -/
theorem recoverable_nil (hnil : s.header = []) (hrest : ∀ b, ¬ InLog b → s.bio.disk b = s.durable b) :
    s.Recoverable where
  room := by
    rw [hnil]
    decide
  nodup := by
    rw [hnil]
    exact List.nodup_nil
  home b hb := by
    rw [hnil] at hb
    cases hb
  copies j b hb := by
    rw [hnil] at hb
    cases hb
  rest b hb _ := hrest b hb
  why h := absurd hnil h

theorem Recoverable.home_of_nil (h : s.Recoverable) (hnil : s.header = []) (hb : ¬ InLog b) :
    s.bio.disk b = s.durable b := by
  apply h.rest b hb
  rw [hnil]
  exact List.not_mem_nil

/-- The disk and the history decide it. -/
theorem Recoverable.congr (h : s.Recoverable) (hdisk : s'.bio.disk = s.bio.disk)
    (hdur : s'.durable = s.durable) (hcom : s'.committed = s.committed) : s'.Recoverable := by
  have hhead : s'.header = s.header := by
    unfold header
    rw [hdisk]
  refine ⟨hhead ▸ h.room, hhead ▸ h.nodup, hhead ▸ h.home, ?_, ?_, ?_⟩
  · rw [hhead, hdisk, hdur]
    exact h.copies
  · rw [hhead, hdisk, hdur]
    exact h.rest
  · rw [hhead, hcom]
    exact h.why

theorem durable_of_not (h : s.committed = false) : s.durable = s.before := by
  unfold durable
  rw [if_neg (by simp [h])]

theorem durable_of_committed (h : s.committed = true) : s.durable = s.after := by
  unfold durable
  rw [if_pos h]

theorem view_of_not (h : s.lost = false) : s.view = s.after := by
  unfold view
  rw [if_neg (by simp [h])]

/-- After a crash, what the disk gives is what is read. -/
theorem view_eq_durable (h : s.lost = !s.committed) : s.view = s.durable := by
  unfold view durable
  rw [h]
  cases s.committed <;> rfl

/-- A block of the log is read from the disk. -/
theorem LogInv.content_log (h : LogInv s) (hstale : ∀ b ∈ s.stale, ¬ InLog b) (ha : InLog a) :
    s.bio.content a = s.bio.disk a := by
  apply h.good.content_clean
  intro hd
  exact hstale a (h.dirty a hd).2 ha

/-- A round of `install_trans`, in `commit` or in `initlog`. -/
theorem Recoverable.install (s' : LogSys) (h : s.Recoverable) (hb : b ∈ s.header)
    (hst : Bio.Stored s.bio bio b (s.durable b)) (hbio : s'.bio = bio)
    (hdur : s'.durable = s.durable) (hcom : s'.committed = s.committed) :
    s'.header = s.header ∧ s'.Recoverable := by
  have hlog : ∀ k, InLog k → s'.bio.disk k = s.bio.disk k := by
    intro k hk
    rw [hbio, hst.disk, if_neg]
    rintro rfl
    exact (h.home k hb).1 hk
  have hhead : s'.header = s.header := by
    unfold header
    rw [hlog _ inLog_logstart]
  refine ⟨hhead, hhead ▸ h.room, hhead ▸ h.nodup, hhead ▸ h.home, fun j c hj => ?_,
    fun c hc hnot => ?_, fun hne => ?_⟩
  · rw [hhead] at hj
    have hlen : j < s.header.length := (List.getElem?_eq_some_iff.mp hj).1
    have hroom := h.room
    rw [hlog _ (inLog_copy (by omega)), hdur]
    exact h.copies j c hj
  · rw [hhead] at hnot
    have hcb : c ≠ b := by
      rintro rfl
      exact hnot hb
    rw [hbio, hst.disk, if_neg hcb, hdur]
    exact h.rest c hc hnot
  · rw [hhead] at hne
    rw [hcom]
    exact h.why hne

/-! ## Crashes and recovery -/

section Keep

variable (h : LogInv s) (hstale : s'.stale = s.stale) (hview : s'.view = s.view)
  (hphase : s'.Phase) (hcount : s'.outstanding = s'.active)

include h hstale hview hphase hcount

/-- A step that leaves the disk, the contents and the dirty blocks alone. -/
theorem LogInv.keep (hstill : Bio.Still s.bio s'.bio) (hnodup : s'.lh.Nodup)
    (hhome : ∀ b ∈ s'.lh, ¬ InLog b ∧ b < FSSIZE) (hup : s'.pc.up = s.pc.up)
    (hdur : s'.durable = s.durable) (hcom : s'.committed = s.committed)
    (howners : ∀ i b, (s'.bio.buf i).owner ≠ none → (s'.bio.buf i).holds b →
      s.pc.up = true ∧ ¬ InLog b) : LogInv s' where
  good := hstill.good
  recoverable := h.recoverable.congr hstill.disk hdur hcom
  nodup := hnodup
  home := hhome
  fresh := by
    rw [hstill.disk, hstale, hview]
    exact h.fresh
  view hu b hb := by
    rw [hstill.content, hview]
    exact h.view (hup ▸ hu) b hb
  pinned hu b hb := (hstill.dirty b).mpr (h.pinned (hup ▸ hu) b (hstale ▸ hb))
  dirty b hd := by
    rw [hup, hstale]
    exact h.dirty b ((hstill.dirty b).mp hd)
  owners i b ho hb := by
    rw [hup]
    exact howners i b ho hb
  phase := hphase
  counted := hcount

/-- A step that leaves the cache and the list alone. -/
theorem LogInv.moves (hbio : s'.bio = s.bio) (hlh : s'.lh = s.lh) (hup : s'.pc.up = s.pc.up)
    (hdur : s'.durable = s.durable) (hcom : s'.committed = s.committed) : LogInv s' := by
  refine h.keep hstale hview hphase hcount ?_ (hlh ▸ h.nodup) (hlh ▸ h.home) hup hdur hcom ?_
  · rw [hbio]
    exact .refl h.good
  · rw [hbio]
    exact h.owners

/-- A step that stores a block of the log. -/
theorem LogInv.stores {dst : Nat} {v : Block} (hst : Bio.Stored s.bio s'.bio dst v)
    (hdst : InLog dst) (hlh : s'.lh = s.lh) (hup : s'.pc.up = true)
    (hpinned : ∀ b ∈ s.stale, ¬ InLog b ∧ s.bio.Dirty b)
    (hread : ∀ b, ¬ InLog b → s.bio.content b = s.view b) (hrec : s'.Recoverable) : LogInv s' where
  good := hst.good
  recoverable := hrec
  nodup := hlh ▸ h.nodup
  home := hlh ▸ h.home
  fresh b hb hnot := by
    rw [hst.disk, if_neg (ne_of_inLog hdst hb), hview]
    exact h.fresh b hb (hstale ▸ hnot)
  view _ b hb := by
    rw [hst.content, if_neg (ne_of_inLog hdst hb), hview]
    exact hread b hb
  pinned _ b hb := by
    obtain ⟨hhome, hd⟩ := hpinned b (hstale ▸ hb)
    exact (hst.dirty b).mpr ⟨hd, ne_of_inLog hdst hhome⟩
  dirty b hd := by
    rw [hstale]
    exact ⟨hup, (h.dirty b ((hst.dirty b).mp hd).1).2⟩
  owners i b ho hb := by
    obtain ⟨ho, hb⟩ := hst.owners i b ho hb
    exact ⟨hup, (h.owners i b ho hb).2⟩
  phase := hphase
  counted := hcount

end Keep

theorem LogInv.halt (h : LogInv s) (e : FsPanic) : LogInv (s.halt e) :=
  h.moves rfl rfl h.phase h.counted rfl rfl rfl rfl rfl

/-- A call that panics leaves everything as it is. -/
theorem LogInv.andThen {α : Type} {r : Except FsPanic α} {k : α → LogSys} (h : LogInv s)
    (hok : ∀ x, r = .ok x → LogInv (k x)) : LogInv (s.andThen r k) := by
  unfold LogSys.andThen
  cases r with
  | ok x => exact hok x rfl
  | error e => exact h.halt e

theorem LogInv.crash (h : LogInv s) : LogInv s.crash := by
  have hview : s.crash.view = s.durable := view_eq_durable (s := s.crash) rfl
  refine ⟨Bio.good_binit _, h.recoverable.congr rfl rfl rfl, List.nodup_nil,
    fun b hb => absurd hb List.not_mem_nil, fun b hb hnot => ?_, fun hup => ?_, fun hup => ?_,
    fun b hd => absurd hd (Bio.not_dirty_binit _), fun i b ho => absurd rfl ho,
    ⟨rfl, rfl, rfl, rfl⟩, ?_⟩
  · rw [hview]
    exact h.recoverable.rest b hb hnot
  · cases hup
  · cases hup
  · simp [active, LogSys.crash]

/-- The boot of a machine whose disk `mkfs` has made, or whose log was cleared. -/
theorem boot_inv (disk : Nat → Block) (hclean : (disk mkfs.logstart).word 0 = 0) :
    LogInv (boot disk) := by
  have hnil : (boot disk).header = [] := getHead_zero hclean
  refine ⟨Bio.good_binit _, recoverable_nil hnil fun b _ => rfl, List.nodup_nil,
    fun b hb => absurd hb List.not_mem_nil, fun b hb hnot => rfl, fun hup => ?_, fun hup => ?_,
    fun b hd => absurd hd (Bio.not_dirty_binit _), fun i b ho => absurd rfl ho,
    ⟨rfl, rfl, rfl, rfl⟩, ?_⟩
  · cases hup
  · cases hup
  · simp [active, boot]

/-- `initlog` reads the header. -/
theorem LogInv.readHead (h : LogInv s) (hpc : s.pc = .readHead) {r : List Nat × Bio}
    (hr : s.bio.readHead t = .ok r) :
    LogInv { s with bio := r.2, lh := r.1, pc := .reinstall 0 } := by
  obtain ⟨l, bio⟩ := r
  have hdown : s.pc.up = false := by rw [hpc]; rfl
  obtain ⟨hl, hstill, howners⟩ := h.good.readHead hr
  have hphase := h.phase
  simp only [Phase, hpc] at hphase
  obtain ⟨-, hout, hcom, hlost⟩ := hphase
  have hnd : ∀ b, ¬ s.bio.Dirty b := fun b hd => by
    rw [(h.dirty b hd).1] at hdown
    cases hdown
  have hlh : l = s.header := by
    rw [hl, h.good.content_clean (hnd _)]
    rfl
  have hhead : header { s with bio := bio, lh := l, pc := .reinstall 0 } = s.header := by
    unfold header
    rw [hstill.disk]
  have hrec := h.recoverable
  refine h.keep ?_ rfl ⟨hhead.trans hlh.symm, hout, hcom, hlost⟩ h.counted hstill (hlh ▸ hrec.nodup)
    (hlh ▸ hrec.home) hdown.symm rfl rfl fun k b ho hk => ?_
  · simp only [stale, hpc, List.drop_zero]
    exact hlh
  · obtain ⟨ho, hk⟩ := howners k b ho hk
    exact h.owners k b ho hk

/-- The two callers of `install_trans`. -/
def Installs (s : LogSys) (tail : Nat) (next : LogPc) : Prop :=
  s.pc = .install tail ∧ next = .install (tail + 1) ∨
    s.pc = .reinstall tail ∧ next = .reinstall (tail + 1)

theorem Installs.stale {next : LogPc} (h : s.Installs tail next) : s.stale = s.lh.drop tail := by
  rcases h with ⟨hpc, _⟩ | ⟨hpc, _⟩ <;> simp only [LogSys.stale, hpc]

/-- While `install_trans` runs, the header names the logged blocks and reads are durable. -/
theorem LogInv.installs {next : LogPc} (h : LogInv s) (hpc : s.Installs tail next) :
    s.header = s.lh ∧ s.view = s.durable := by
  have hphase := h.phase
  rcases hpc with ⟨hpc, _⟩ | ⟨hpc, _⟩
  · simp only [Phase, hpc] at hphase
    obtain ⟨-, hhead, -, hcom, hlost⟩ := hphase
    exact ⟨hhead, (view_of_not hlost).trans (durable_of_committed hcom).symm⟩
  · simp only [Phase, hpc] at hphase
    obtain ⟨hhead, -, -, hlost⟩ := hphase
    exact ⟨hhead, view_eq_durable hlost⟩

theorem mem_drop_succ {l : List Nat} {k : Nat} (hnd : l.Nodup) (hb : l[tail]? = some b) :
    k ∈ l.drop (tail + 1) ↔ k ∈ l.drop tail ∧ k ≠ b := by
  obtain ⟨hlt, rfl⟩ := List.getElem?_eq_some_iff.mp hb
  have hnd' : (l.drop tail).Nodup := hnd.sublist (List.drop_sublist tail l)
  rw [List.drop_eq_getElem_cons hlt] at hnd' ⊢
  obtain ⟨hnot, -⟩ := List.nodup_cons.mp hnd'
  constructor
  · intro hk
    refine ⟨List.mem_cons_of_mem _ hk, ?_⟩
    rintro rfl
    exact hnot hk
  · rintro ⟨hk, hne⟩
    exact (List.mem_cons.mp hk).resolve_left hne

section Rounds

variable (h : LogInv s)

include h

/-- A round of `install_trans` brings one block home. -/
theorem LogInv.installTrans {next : LogPc} (hpc : s.Installs tail next)
    (hb : s.lh[tail]? = some b) (hr : s.bio.installTrans t tail b = .ok bio) :
    LogInv { s with bio := bio, pc := next } := by
  obtain ⟨hhead, hview⟩ := h.installs hpc
  have hrec := h.recoverable
  have hroom := hrec.room
  have hmem : b ∈ s.lh := List.mem_of_getElem? hb
  have hlen : tail < s.lh.length := (List.getElem?_eq_some_iff.mp hb).1
  rw [hhead] at hroom
  have hlog : InLog (mkfs.logstart + tail + 1) := inLog_copy (by omega)
  have hhome := (h.home b hmem).1
  have hdrop : ∀ k ∈ s.stale, ¬ InLog k := by
    intro k hk
    rw [hpc.stale] at hk
    exact (h.home k (List.mem_of_mem_drop hk)).1
  have hcopy : s.bio.content (mkfs.logstart + tail + 1) = s.durable b := by
    rw [h.content_log hdrop hlog]
    exact hrec.copies tail b (by rw [hhead]; exact hb)
  have hst := h.good.installTrans (ne_of_inLog hlog hhome) hr
  rw [hcopy] at hst
  obtain ⟨hhead', hrec'⟩ := hrec.install { s with bio := bio, pc := next }
    (by rw [hhead]; exact hmem) hst rfl rfl rfl
  have hstale' : stale { s with bio := bio, pc := next } = s.lh.drop (tail + 1) := by
    rcases hpc with ⟨_, rfl⟩ | ⟨_, rfl⟩ <;> rfl
  have hup : next.up = s.pc.up := by
    rcases hpc with ⟨hp, rfl⟩ | ⟨hp, rfl⟩ <;> rw [hp] <;> rfl
  refine ⟨hst.good, hrec', h.nodup, h.home, fun k hk hnot => ?_, fun hup' k hk => ?_,
    fun hup' k hk => ?_, fun k hd => ?_, fun j k ho hk => ?_, ?_, h.counted⟩
  · show bio.disk k = s.view k
    rw [hst.disk]
    by_cases hkb : k = b
    · rw [if_pos hkb, hkb, hview]
    · rw [if_neg hkb]
      refine h.fresh k hk fun hin => hnot ?_
      rw [hpc.stale] at hin
      rw [hstale', mem_drop_succ h.nodup hb]
      exact ⟨hin, hkb⟩
  · show bio.content k = s.view k
    rw [hst.content]
    by_cases hkb : k = b
    · rw [if_pos hkb, hkb, hview]
    · rw [if_neg hkb]
      exact h.view (hup ▸ hup') k hk
  · rw [hstale', mem_drop_succ h.nodup hb] at hk
    refine (hst.dirty k).mpr ⟨h.pinned (hup ▸ hup') k ?_, hk.2⟩
    rw [hpc.stale]
    exact hk.1
  · obtain ⟨hd, hkb⟩ := (hst.dirty k).mp hd
    obtain ⟨hup', hin⟩ := h.dirty k hd
    rw [hpc.stale] at hin
    refine ⟨hup.trans hup', ?_⟩
    rw [hstale', mem_drop_succ h.nodup hb]
    exact ⟨hin, hkb⟩
  · obtain ⟨ho, hk⟩ := hst.owners j k ho hk
    exact ⟨hup.trans (h.owners j k ho hk).1, (h.owners j k ho hk).2⟩
  · have hphase := h.phase
    rcases hpc with ⟨hp, rfl⟩ | ⟨hp, rfl⟩
    · simp only [Phase, hp] at hphase
      exact ⟨hphase.1, hhead'.trans hhead, hphase.2.2⟩
    · simp only [Phase, hp] at hphase
      exact ⟨hhead'.trans hhead, hphase.2⟩

/-- `install_trans` is done. -/
theorem LogInv.installed {next : LogPc}
    (hpc : s.pc = .install tail ∧ next = .clear ∨ s.pc = .reinstall tail ∧ next = .reclear)
    (hend : s.lh[tail]? = none) : LogInv { s with lh := [], pc := next } := by
  have hdrop : s.lh.drop tail = [] := List.drop_eq_nil_of_le (List.getElem?_eq_none_iff.mp hend)
  have hstale : s.stale = [] := by
    rcases hpc with ⟨hp, _⟩ | ⟨hp, _⟩ <;> simp only [stale, hp, hdrop]
  have hstale' : stale { s with lh := [], pc := next } = [] := by
    rcases hpc with ⟨_, rfl⟩ | ⟨_, rfl⟩ <;> rfl
  have hup : next.up = s.pc.up := by
    rcases hpc with ⟨hp, rfl⟩ | ⟨hp, rfl⟩ <;> rw [hp] <;> rfl
  refine h.keep (hstale'.trans hstale.symm) rfl ?_ h.counted (.refl h.good) List.nodup_nil
    (fun b hb => absurd hb List.not_mem_nil) hup rfl rfl h.owners
  have hphase := h.phase
  rcases hpc with ⟨hp, rfl⟩ | ⟨hp, rfl⟩
  · simp only [Phase, hp] at hphase
    exact ⟨hphase.1, rfl, hphase.2.2⟩
  · simp only [Phase, hp] at hphase
    exact ⟨rfl, hphase.2⟩

/-- `write_head` of an empty list clears the log. -/
theorem LogInv.cleared {next : LogPc}
    (hpc : s.pc = .clear ∧ next = .finish ∨ s.pc = .reclear ∧ next = .idle)
    (hr : s.bio.writeHead t s.lh = .ok bio) : LogInv { s with bio := bio, pc := next } := by
  have hst := h.good.writeHead hr
  have hphase := h.phase
  have hlh : s.lh = [] ∧ s.view = s.durable := by
    rcases hpc with ⟨hp, _⟩ | ⟨hp, _⟩
    · simp only [Phase, hp] at hphase
      exact ⟨hphase.2.1, (view_of_not hphase.2.2.2.2).trans
        (durable_of_committed hphase.2.2.2.1).symm⟩
    · simp only [Phase, hp] at hphase
      exact ⟨hphase.1, view_eq_durable hphase.2.2.2⟩
  obtain ⟨hlh, hview⟩ := hlh
  rw [hlh] at hst
  have hstale : s.stale = [] := by
    rcases hpc with ⟨hp, _⟩ | ⟨hp, _⟩ <;> simp only [stale, hp, hlh]
  have hstale' : stale { s with bio := bio, pc := next } = [] := by
    rcases hpc with ⟨_, rfl⟩ | ⟨_, rfl⟩ <;> exact hlh
  have hnd : ∀ b, ¬ s.bio.Dirty b := by
    intro b hd
    have := (h.dirty b hd).2
    rw [hstale] at this
    cases this
  have hdisk : ∀ b, ¬ InLog b → s.bio.disk b = s.view b := fun b hb =>
    h.fresh b hb (by rw [hstale]; exact List.not_mem_nil)
  have hhead : header { s with bio := bio, pc := next } = [] := by
    show getHead (bio.disk mkfs.logstart) = []
    rw [hst.disk, if_pos rfl]
    exact getHead_putHead (by decide) (by simp) _
  refine h.stores (hstale'.trans hstale.symm) rfl ?_ h.counted hst inLog_logstart rfl ?_
    (fun b hb => ?_) (fun b hb => ?_) (recoverable_nil hhead fun b hb => ?_)
  · rcases hpc with ⟨hp, rfl⟩ | ⟨hp, rfl⟩
    · simp only [Phase, hp] at hphase
      exact ⟨hphase.1, hlh, hhead, hphase.2.2.1⟩
    · simp only [Phase, hp] at hphase
      exact ⟨hhead, hphase.2.2.1, fun _ => hlh, fun hout => absurd hphase.2.1 hout⟩
  · rcases hpc with ⟨_, rfl⟩ | ⟨_, rfl⟩ <;> rfl
  · rw [hstale] at hb
    cases hb
  · rw [h.good.content_clean (hnd b), hdisk b hb]
  · show bio.disk b = s.durable b
    rw [hst.disk, if_neg (ne_of_inLog inLog_logstart hb), hdisk b hb, hview]

/-! ## Commit -/

/-- A round of `write_log` touches the log only: when all buffers are pinned, `bget` panics in
the first round, before a copy can leave the log's area. -/
theorem LogInv.writeLog (hpc : s.pc = .writeLog tail) (hb : s.lh[tail]? = some b)
    (hr : s.bio.writeLog t tail b = .ok bio) :
    LogInv { s with bio := bio, pc := .writeLog (tail + 1) } := by
  have hphase := h.phase
  simp only [Phase, hpc] at hphase
  obtain ⟨hthd, hhead, hout, hcom, hlost, hne, hroom, hcopies⟩ := hphase
  have hstale : s.stale = s.lh := by simp only [stale, hpc]
  have hup : s.pc.up = true := by rw [hpc]; rfl
  have hhome := (h.home b (List.mem_of_getElem? hb)).1
  have hlen : tail < s.lh.length := (List.getElem?_eq_some_iff.mp hb).1
  have hpinned : ∀ k ∈ s.lh, s.bio.Dirty k := by
    intro k hk
    exact h.pinned hup k (by rw [hstale]; exact hk)
  have hshort : s.lh.length < mkfs.nlog := by
    cases tail with
    | zero =>
      have hlog : InLog (mkfs.logstart + 0 + 1) := by decide
      obtain ⟨-, hfit⟩ := h.good.writeLog (by exact ne_of_inLog hlog hhome) hr
      exact hfit s.lh h.nodup hpinned fun hin => (h.home _ hin).1 hlog
    | succ tail => exact hroom (Nat.succ_pos tail)
  have hlog : InLog (mkfs.logstart + tail + 1) := inLog_copy (by omega)
  obtain ⟨hst, -⟩ := h.good.writeLog (ne_of_inLog hlog hhome) hr
  rw [h.view hup b hhome] at hst
  have hhead' : header { s with bio := bio, pc := .writeLog (tail + 1) } = [] := by
    show getHead (bio.disk mkfs.logstart) = []
    rw [hst.disk, if_neg (by omega)]
    exact hhead
  refine h.stores hstale.symm rfl ⟨hthd, hhead', hout, hcom, hlost, hne, fun _ => hshort,
    fun j k hj hk => ?_⟩ h.counted hst hlog rfl rfl (fun k hk => ?_) (h.view hup)
    (recoverable_nil hhead' fun k hk => ?_)
  · show bio.disk (mkfs.logstart + j + 1) = s.view k
    rw [hst.disk]
    by_cases hjt : j = tail
    · subst hjt
      rw [if_pos rfl, Option.some.inj (hb.symm.trans hk)]
    · rw [if_neg (by omega)]
      exact hcopies j k (by omega) hk
  · rw [hstale] at hk
    exact ⟨(h.home k hk).1, hpinned k hk⟩
  · show bio.disk k = s.durable k
    rw [hst.disk, if_neg (ne_of_inLog hlog hk)]
    exact h.recoverable.home_of_nil hhead hk

theorem LogInv.wroteLog (hpc : s.pc = .writeLog tail) (hend : s.lh[tail]? = none) :
    LogInv { s with pc := .writeHead } := by
  have hphase := h.phase
  simp only [Phase, hpc] at hphase
  obtain ⟨hthd, hhead, hout, hcom, hlost, hne, hroom, hcopies⟩ := hphase
  have hstale : s.stale = s.lh := by simp only [stale, hpc]
  have hup : s.pc.up = true := by rw [hpc]; rfl
  have hle : s.lh.length ≤ tail := List.getElem?_eq_none_iff.mp hend
  have hpos : 0 < s.lh.length := List.length_pos_of_ne_nil hne
  refine h.moves hstale.symm rfl ⟨hthd, hhead, hout, hcom, hlost, hroom (by omega),
    fun j b hj => ?_⟩ h.counted rfl rfl hup.symm rfl rfl
  have hlt : j < s.lh.length := (List.getElem?_eq_some_iff.mp hj).1
  exact hcopies j b (by omega) hj

/-- The real commit. -/
theorem LogInv.writeHead (hpc : s.pc = .writeHead) (hr : s.bio.writeHead t s.lh = .ok bio) :
    LogInv { s with bio := bio, pc := .install 0, committed := true } := by
  have hphase := h.phase
  simp only [Phase, hpc] at hphase
  obtain ⟨hthd, hhead, hout, hcom, hlost, hroom, hcopies⟩ := hphase
  have hstale : s.stale = s.lh := by simp only [stale, hpc]
  have hup : s.pc.up = true := by rw [hpc]; rfl
  have hst := h.good.writeHead hr
  have hview : s.view = s.after := view_of_not hlost
  have hdisk : ∀ k, k ≠ mkfs.logstart → bio.disk k = s.bio.disk k := by
    intro k hk
    rw [hst.disk, if_neg hk]
  have hhead' : getHead (bio.disk mkfs.logstart) = s.lh := by
    rw [hst.disk, if_pos rfl]
    apply getHead_putHead
    · have : mkfs.nlog = 30 := rfl
      omega
    · intro b hb
      have hlt : b < FSSIZE := (h.home b hb).2
      exact lt_trans hlt (by decide)
  have hdur : durable { s with bio := bio, pc := .install 0, committed := true } = s.after :=
    durable_of_committed rfl
  refine h.stores hstale.symm rfl ⟨hthd, hhead', hout, rfl, hlost⟩ h.counted hst inLog_logstart rfl
    rfl (fun b hb => ⟨?_, h.pinned hup b hb⟩) (h.view hup)
    ⟨?_, ?_, ?_, fun j b hj => ?_, fun b hb hnot => ?_, fun _ => rfl⟩
  · rw [hstale] at hb
    exact (h.home b hb).1
  · rw [header, hhead']
    exact hroom
  · rw [header, hhead']
    exact h.nodup
  · rw [header, hhead']
    exact h.home
  · rw [header, hhead'] at hj
    show bio.disk (mkfs.logstart + j + 1) = _
    rw [hdur, hdisk _ (by omega), ← hview]
    exact hcopies j b hj
  · rw [header, hhead'] at hnot
    show bio.disk b = _
    rw [hdur, hdisk b (ne_of_inLog inLog_logstart hb), ← hview]
    exact h.fresh b hb (hstale ▸ hnot)

theorem LogInv.finish (hpc : s.pc = .finish) :
    LogInv { s with committing := none, pc := .idle } := by
  have hphase := h.phase
  simp only [Phase, hpc] at hphase
  obtain ⟨-, hlh, hhead, hout⟩ := hphase
  have hstale : s.stale = s.lh := by simp only [stale, hpc]
  have hup : s.pc.up = true := by rw [hpc]; rfl
  exact h.moves hstale.symm rfl ⟨hhead, rfl, fun _ => hlh, fun hne => absurd hout hne⟩ h.counted rfl
    rfl hup.symm rfl rfl

theorem LogInv.commit (hs : s.commit t = some s') : LogInv s' := by
  unfold LogSys.commit at hs
  split at hs
  · rename_i tail hpc
    split at hs
    · rename_i b hb
      split at hs
      · cases hs
      · cases hs
        exact h.andThen fun bio hr => h.writeLog hpc hb hr
    · rename_i hend
      cases hs
      exact h.wroteLog hpc hend
  · rename_i hpc
    split at hs
    · cases hs
    · cases hs
      exact h.andThen fun bio hr => h.writeHead hpc hr
  · rename_i tail hpc
    split at hs
    · rename_i b hb
      split at hs
      · cases hs
      · cases hs
        exact h.andThen fun bio hr => h.installTrans (.inl ⟨hpc, rfl⟩) hb hr
    · rename_i hend
      cases hs
      exact h.installed (.inl ⟨hpc, rfl⟩) hend
  · rename_i hpc
    split at hs
    · cases hs
    · cases hs
      exact h.andThen fun bio hr => h.cleared (.inl ⟨hpc, rfl⟩) hr
  · rename_i hpc
    cases hs
    exact h.finish hpc
  · cases hs

theorem LogInv.recover (hs : s.recover = some s') : LogInv s' := by
  unfold LogSys.recover at hs
  split at hs
  · rename_i hpc
    cases hs
    exact h.andThen fun r hr => h.readHead hpc hr
  · rename_i tail hpc
    split at hs
    · rename_i b hb
      cases hs
      exact h.andThen fun bio hr => h.installTrans (.inr ⟨hpc, rfl⟩) hb hr
    · rename_i hend
      cases hs
      exact h.installed (.inr ⟨hpc, rfl⟩) hend
  · rename_i hpc
    cases hs
    exact h.andThen fun bio hr => h.cleared (.inr ⟨hpc, rfl⟩) hr
  · cases hs

end Rounds

/-! ## Operations -/

@[simp] theorem setOp_op (t u : ThdPtr) (o : Option LogOp) :
    (s.setOp t o).op u = if u = t then o else s.op u := rfl

/-- The threads with an operation. -/
theorem mem_active {u : ThdPtr} :
    u ∈ (Finset.univ.filter fun t => (s.op t).isSome) ↔ (s.op u).isSome = true := by
  rw [Finset.mem_filter]
  exact and_iff_right (Finset.mem_univ u)

theorem active_begin {o : LogOp} (hop : s.op t = none) : (s.setOp t (some o)).active = s.active + 1 := by
  have hset : (Finset.univ.filter fun u => ((s.setOp t (some o)).op u).isSome) =
      insert t (Finset.univ.filter fun u => (s.op u).isSome) := by
    ext u
    rw [mem_active, Finset.mem_insert, mem_active, setOp_op]
    by_cases hu : u = t
    · simp [hu]
    · simp [hu]
  unfold active
  rw [hset, Finset.card_insert_of_notMem]
  rw [mem_active, hop]
  exact Bool.false_ne_true

theorem active_end {o : LogOp} (hop : s.op t = some o) : (s.setOp t none).active + 1 = s.active := by
  have hset : (Finset.univ.filter fun u => (s.op u).isSome) =
      insert t (Finset.univ.filter fun u => ((s.setOp t none).op u).isSome) := by
    ext u
    rw [mem_active, Finset.mem_insert, mem_active, setOp_op]
    by_cases hu : u = t
    · simp [hu, hop]
    · simp [hu]
  unfold active
  rw [hset, Finset.card_insert_of_notMem]
  rw [mem_active, setOp_op, if_pos rfl]
  exact Bool.false_ne_true

theorem active_keep {o : LogOp} (o' : LogOp) (hop : s.op t = some o) :
    (s.setOp t (some o')).active = s.active := by
  unfold active
  congr 1
  ext u
  rw [mem_active, mem_active, setOp_op]
  by_cases hu : u = t
  · simp [hu, hop]
  · simp [hu]

/-- Between `begin_op` and `end_op` nothing commits. -/
theorem LogInv.idle_of_op (h : LogInv s) {o : LogOp} (hop : s.op t = some o) :
    s.outstanding ≠ 0 ∧ s.pc = .idle ∧ s.header = [] ∧ s.committing = none ∧
      s.committed = false ∧ s.lost = false := by
  have hout : s.outstanding ≠ 0 := by
    rw [h.counted, ← active_end hop]
    exact Nat.succ_ne_zero _
  have hphase := h.phase
  unfold Phase at hphase
  split at hphase
  · rename_i hpc
    exact ⟨hout, hpc, hphase.1, hphase.2.1, hphase.2.2.2 hout⟩
  · exact absurd hphase.2.2.1 hout
  · exact absurd hphase.2.2.1 hout
  · exact absurd hphase.2.2.1 hout
  · exact absurd hphase.2.2.1 hout
  · exact absurd hphase.2.2.2 hout
  · exact absurd hphase.2.1 hout
  · exact absurd hphase.2.1 hout
  · exact absurd hphase.2.1 hout

/-- With `log.committing` clear, the log is idle. -/
theorem LogInv.idle_of_up (h : LogInv s) (hup : s.pc.up = true) (hc : s.committing = none) :
    s.pc = .idle := by
  have hphase := h.phase
  unfold Phase at hphase
  split at hphase
  · assumption
  · exact absurd hc hphase.1
  · exact absurd hc hphase.1
  · exact absurd hc hphase.1
  · exact absurd hc hphase.1
  · exact absurd hc hphase.1
  all_goals
    rename_i hpc
    rw [hpc] at hup
    cases hup

theorem LogInv.beginOp (h : LogInv s) (hup : s.pc.up = true) (hop : s.op t = none)
    (hs : s.beginOp t = some s') : LogInv s' := by
  unfold LogSys.beginOp at hs
  split at hs
  · cases hs
  · rename_i hcom
    have hcom : s.committing = none := by simpa using hcom
    split at hs
    · cases hs
    · have hpc := h.idle_of_up hup hcom
      have hphase := h.phase
      simp only [Phase, hpc] at hphase
      obtain ⟨hhead, -, hlh, hrun⟩ := hphase
      have hstale : s.stale = s.lh := by simp only [stale, hpc]
      have hcount : s.outstanding + 1 = (s.setOp t (some {})).active := by
        rw [active_begin hop, h.counted]
      have hrec := h.recoverable
      split at hs
      · -- a new transaction, over what the disk holds
        rename_i hzero
        cases hs
        have hdisk : ∀ b, ¬ InLog b → s.bio.disk b = s.durable b := fun b hb =>
          hrec.home_of_nil hhead hb
        have hnil : s.stale = [] := hstale.trans (hlh hzero)
        refine ⟨h.good, recoverable_nil hhead fun b hb => hdisk b hb, h.nodup, h.home,
          fun b hb _ => hdisk b hb, fun _ b hb => ?_, fun _ b hb => ?_, fun b hd => ⟨hup, ?_⟩,
          fun j b ho hk => ⟨hup, (h.owners j b ho hk).2⟩, ?_, hcount⟩
        · show s.bio.content b = s.durable b
          rw [h.view hup b hb, ← hdisk b hb]
          exact (h.fresh b hb (by rw [hnil]; exact List.not_mem_nil)).symm
        · exact h.pinned hup b hb
        · exact (h.dirty b hd).2
        · simp only [Phase, setOp, hpc]
          exact ⟨hhead, hcom, fun h0 => absurd h0 (Nat.succ_ne_zero _), fun _ => ⟨trivial, trivial⟩⟩
      · rename_i hzero
        cases hs
        refine h.moves rfl rfl ?_ hcount rfl rfl rfl rfl rfl
        simp only [Phase, setOp, hpc]
        exact ⟨hhead, hcom, fun h0 => absurd h0 (Nat.succ_ne_zero _), fun _ => hrun hzero⟩

theorem LogInv.bread (h : LogInv s) (hup : s.pc.up = true) (hb : ¬ InLog b) {r : Fin NBUF × Bio}
    (hr : s.bio.bread t b = .ok r) : LogInv { s with bio := r.2 } := by
  obtain ⟨i, bio⟩ := r
  have hread := h.good.bread hr
  have hhead : header { s with bio := bio } = s.header := by
    show getHead (bio.disk mkfs.logstart) = _
    rw [hread.disk]
    rfl
  refine h.keep ?_ rfl ?_ h.counted hread.toStill h.nodup h.home rfl rfl rfl
    fun j k ho hk => ⟨hup, ?_⟩
  · unfold stale
    rw [hhead]
  · have hphase := h.phase
    unfold Phase at hphase ⊢
    simp only [hhead, hread.disk] at hphase ⊢
    exact hphase
  · by_cases hj : j = i
    · rw [hj] at hk
      rw [Buf.holds_inj hk hread.holds]
      exact hb
    · rw [show LogSys.bio { s with bio := bio } = bio from rfl, hread.other j hj] at ho hk
      exact (h.owners j k ho hk).2

theorem LogInv.brelse (h : LogInv s) (i : Fin NBUF) : LogInv { s with bio := s.bio.brelse i } := by
  have howners : Bio.OwnersKept s.bio (s.bio.brelse i) :=
    Bio.ownersKept_brelse fun _ _ _ ho hk => ⟨ho, hk⟩
  refine h.keep rfl rfl h.phase h.counted (h.good.brelse i) h.nodup h.home rfl rfl rfl
    fun j b ho hk => ?_
  obtain ⟨ho, hk⟩ := howners j b ho hk
  exact h.owners j b ho hk

section Operation

variable {o : LogOp} (h : LogInv s) (hop : s.op t = some o)

include h hop

/-- An operation moves on. -/
theorem LogInv.setOp {o' : LogOp} : LogInv (s.setOp t (some o')) :=
  h.moves rfl rfl h.phase ((active_keep o' hop).symm ▸ h.counted) rfl rfl rfl rfl rfl

theorem LogInv.check : LogInv (s.check t o) := by
  unfold LogSys.check
  split
  · exact h.halt _
  · split
    · exact h.halt _
    · exact h.setOp hop

/-- `log_write` pins the block it changes, and the disk does not see it. -/
theorem LogInv.logWrite
    (howner : (s.bio.buf i).owner = some t) (data : Block) : LogInv (s.logWrite t o i data) := by
  obtain ⟨hout, hpc, hhead, hthd, hcom, hlost⟩ := h.idle_of_op hop
  have hup : s.pc.up = true := by rw [hpc]; rfl
  have hstale : s.stale = s.lh := by simp only [stale, hpc]
  have hview : s.view = s.after := view_of_not hlost
  have howned : (s.bio.buf i).owner ≠ none := by simp [howner]
  have hi : (s.bio.buf i).holds (s.bio.buf i).blockno :=
    Buf.holds_iff.mpr ⟨h.good.owned howned, rfl⟩
  have hhome := (h.owners i _ howned hi).2
  have hsize := (h.good.valid i _ hi).2
  have hput := h.good.pin hi data
  generalize hb : (s.bio.buf i).blockno = b at hi hhome hsize hput
  have hlh : (s.logWrite t o i data).lh = if b ∈ s.lh then s.lh else s.lh ++ [b] := by
    rw [← hb]
    rfl
  have hmem : ∀ k, k ∈ (s.logWrite t o i data).lh ↔ k ∈ s.lh ∨ k = b := by
    intro k
    rw [hlh]
    split
    · rename_i hin
      constructor
      · exact Or.inl
      · rintro (hk | rfl)
        · exact hk
        · exact hin
    · rw [List.mem_append, List.mem_singleton]
  have hbio : (s.logWrite t o i data).bio =
      s.bio.setBuf i fun x => { x with data := data, dirty := true } := rfl
  have hafter : ∀ k, (s.logWrite t o i data).view k = if k = b then data else s.view k := by
    intro k
    rw [hview, ← hb]
    have : (s.logWrite t o i data).view = (s.logWrite t o i data).after := view_of_not hlost
    rw [this]
    rfl
  have hstale' : (s.logWrite t o i data).stale = (s.logWrite t o i data).lh := by
    unfold stale
    rw [show (s.logWrite t o i data).pc = s.pc from rfl, hpc]
  have hdisk : (s.logWrite t o i data).bio.disk = s.bio.disk := rfl
  refine ⟨hput.good, recoverable_nil hhead fun k hk => ?_, ?_, fun k hk => ?_, fun k hk hnot => ?_,
    fun _ k hk => ?_, fun _ k hk => ?_, fun k hd => ⟨hup, ?_⟩, fun j k ho hk => ⟨hup, ?_⟩, ?_, ?_⟩
  · have hdur : (s.logWrite t o i data).durable = s.durable := by
      rw [durable_of_not hcom]
      exact durable_of_not hcom
    rw [hdisk, hdur]
    exact h.recoverable.home_of_nil hhead hk
  · rw [hlh]
    split
    · exact h.nodup
    · rename_i hnot
      exact List.nodup_append.mpr ⟨h.nodup, List.nodup_singleton b, by
        intro x hx y hy hxy
        rw [List.mem_singleton] at hy
        exact hnot (hy ▸ hxy ▸ hx)⟩
  · rcases (hmem k).mp hk with hk | rfl
    · exact h.home k hk
    · exact ⟨hhome, hsize⟩
  · rw [hstale', hmem, not_or] at hnot
    rw [hdisk, hafter, if_neg hnot.2]
    exact h.fresh k hk (by rw [hstale]; exact hnot.1)
  · rw [hbio, hput.content, hafter, h.view hup k hk]
  · rw [hstale', hmem] at hk
    rw [hbio, hput.dirty]
    by_cases hkb : k = b
    · rw [if_pos hkb]
    · rw [if_neg hkb]
      exact h.pinned hup k (by rw [hstale]; exact hk.resolve_right hkb)
  · rw [hbio, hput.dirty] at hd
    rw [hstale', hmem]
    by_cases hkb : k = b
    · exact .inr hkb
    · rw [if_neg hkb] at hd
      have := (h.dirty k hd).2
      rw [hstale] at this
      exact .inl this
  · rw [hbio, hput.owner] at ho
    rw [hbio, hput.holds] at hk
    exact (h.owners j k ho hk).2
  · unfold Phase
    rw [show (s.logWrite t o i data).pc = s.pc from rfl, hpc]
    exact ⟨hhead, hthd, fun h0 => absurd h0 hout, fun _ => ⟨hcom, hlost⟩⟩
  · have hcount := h.counted
    rw [← active_keep { blocks := if b ∈ o.blocks then o.blocks else b :: o.blocks } hop,
      ← hb] at hcount
    exact hcount

theorem LogInv.endOp : LogInv (s.endOp t) := by
  obtain ⟨hout, hpc, hhead, hthd, hcom, hlost⟩ := h.idle_of_op hop
  have hup : s.pc.up = true := by rw [hpc]; rfl
  have hstale : s.stale = s.lh := by simp only [stale, hpc]
  have hcount : s.outstanding - 1 = (s.setOp t none).active := by
    rw [h.counted, ← active_end hop]
    rfl
  unfold LogSys.endOp
  rw [hthd, if_neg (by simp)]
  split
  · rename_i hzero
    by_cases hnil : s.lh = []
    · rw [show s.lh.isEmpty = true by simp [hnil]]
      exact h.moves hstale.symm rfl ⟨by simp, hnil, hhead, hzero⟩ hcount rfl rfl hup.symm rfl rfl
    · rw [show s.lh.isEmpty = false by simpa using hnil]
      exact h.moves hstale.symm rfl ⟨by simp, hhead, hzero, hcom, hlost, hnil,
        fun h0 => absurd h0 (lt_irrefl 0), fun j b hj => absurd hj (Nat.not_lt_zero j)⟩ hcount rfl rfl
        hup.symm rfl rfl
  · rename_i hzero
    refine h.moves rfl rfl ?_ hcount rfl rfl rfl rfl rfl
    unfold Phase
    simp only [LogSys.setOp, hpc]
    exact ⟨hhead, trivial, fun h0 => absurd h0 hzero, fun _ => ⟨hcom, hlost⟩⟩

end Operation

/-! ## Every step -/

theorem LogInv.step {a : LogAct} (h : LogInv s) (hs : s.step a = some s') : LogInv s' := by
  unfold LogSys.step at hs
  split at hs
  · cases hs
  · cases a with
    | crash =>
      cases hs
      exact h.crash
    | recover => exact h.recover hs
    | beginOp t =>
      obtain ⟨⟨hup, hop⟩, hs⟩ := Option.ite_none_right_eq_some.mp hs
      exact h.beginOp hup hop hs
    | bread t b =>
      obtain ⟨⟨hup, hb, -⟩, hs⟩ := Option.ite_none_right_eq_some.mp hs
      cases hs
      exact h.andThen fun r hr => h.bread hup hb hr
    | brelse t i =>
      obtain ⟨-, hs⟩ := Option.ite_none_right_eq_some.mp hs
      cases hs
      exact h.brelse i
    | check t =>
      simp only [act] at hs
      split at hs
      · rename_i o hop
        split at hs
        · cases hs
        · cases hs
          exact h.check hop
      · cases hs
    | logWrite t i data =>
      simp only [act] at hs
      split at hs
      · rename_i o hop
        obtain ⟨⟨-, howner⟩, hs⟩ := Option.ite_none_right_eq_some.mp hs
        cases hs
        exact h.logWrite hop howner data
      · cases hs
    | endOp t =>
      simp only [act] at hs
      split at hs
      · rename_i o hop
        split at hs
        · cases hs
        · cases hs
          exact h.endOp hop
      · cases hs
    | commit t =>
      obtain ⟨-, hs⟩ := Option.ite_none_right_eq_some.mp hs
      exact h.commit hs

end LogSys

end Xv6
