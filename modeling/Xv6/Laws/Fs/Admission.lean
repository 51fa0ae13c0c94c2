import Mathlib.Algebra.BigOperators.Ring.Finset
import Mathlib.Algebra.Order.BigOperators.Group.Finset
import Xv6.Laws.Fs.Crash

/-!
# Log admission

`begin_op` reserves `MAXOPBLOCKS` blocks for each operation against `LOGSIZE`, but the log of
`mkfs` has one block less for data, and `log_write` wants one block more free before it looks
whether the block is already logged. Operations of at most nine distinct blocks fit whatever
their order (`log_admission`); with ten, three operations reach the panic of `log_write`, or go
past the log's area when two of them make its unlocked test at the same time.
-/

namespace Xv6

open Xv6.Lib

/-! ## The cache raises other panics -/

/-- The call does not panic as `log_write` does. -/
def Small {α : Type} (r : Except FsPanic α) : Prop := r ≠ .error .tooBig

theorem Small.bind {α β : Type} {r : Except FsPanic α} {f : α → Except FsPanic β} (hr : Small r)
    (hf : ∀ x, Small (f x)) : Small (r >>= f) := by
  cases r with
  | ok x => exact hf x
  | error e =>
    intro h
    apply hr
    cases h
    rfl

theorem small_ok {α : Type} (x : α) : Small (.ok x) := by
  intro h
  cases h

namespace Bio

theorem small_iderw (s : Bio) (i : Fin NBUF) : Small (s.iderw i) := by
  unfold Small iderw
  intro h
  simp only at h
  split at h
  · cases h
  · split at h
    · cases h
    · cases h

theorem small_bread (s : Bio) (t : ThdPtr) (b : Nat) : Small (s.bread t b) := by
  apply Small.bind
  · unfold Small bget
    intro h
    split at h
    · cases h
    · split at h
      · cases h
      · cases h
  · rintro ⟨i, s⟩
    simp only
    split
    · exact small_ok _
    · exact (small_iderw s i).bind fun _ => small_ok _

theorem small_writeLog (s : Bio) (t : ThdPtr) (tail b : Nat) : Small (s.writeLog t tail b) :=
  (small_bread _ _ _).bind fun _ => (small_bread _ _ _).bind fun _ => (small_iderw _ _).bind fun _ =>
    small_ok _

theorem small_installTrans (s : Bio) (t : ThdPtr) (tail b : Nat) : Small (s.installTrans t tail b) :=
  (small_bread _ _ _).bind fun _ => (small_bread _ _ _).bind fun _ => (small_iderw _ _).bind fun _ =>
    small_ok _

theorem small_writeHead (s : Bio) (t : ThdPtr) (lh : List Nat) : Small (s.writeHead t lh) :=
  (small_bread _ _ _).bind fun _ => (small_iderw _ _).bind fun _ => small_ok _

theorem small_readHead (s : Bio) (t : ThdPtr) : Small (s.readHead t) :=
  (small_bread _ _ _).bind fun _ => small_ok _

end Bio

/-! ## The reservation -/

namespace LogSys

variable {s s' : LogSys} {a : LogAct} {t : ThdPtr} {i : Fin NBUF} {b tail : Nat} {m : Nat}

/-- The blocks of an operation after one more `log_write`. -/
def logged (o : LogOp) (b : Nat) : List Nat := if b ∈ o.blocks then o.blocks else b :: o.blocks

/-- No operation logs more than `m` distinct blocks. -/
def AtMost (m : Nat) (s : LogSys) : LogAct → Prop
  | .logWrite t i _ => ∀ o ∈ s.op t, (logged o (s.bio.buf i).blockno).length ≤ m
  | _ => True

instance (m : Nat) (s : LogSys) : DecidablePred (AtMost m s)
  | .logWrite t _ _ => (s.op t).decidableForallMem
  | .beginOp _ | .bread .. | .brelse .. | .check _ | .endOp _ | .commit _ | .crash | .recover =>
    inferInstanceAs (Decidable True)

/-- What an operation may still log, of nine blocks. -/
def left : Option LogOp → Nat
  | some o => 9 - o.blocks.length
  | none => 0

/-- What all operations may still log. -/
def reserve (s : LogSys) : Nat := ∑ t, left (s.op t)

theorem reserve_setOp (s : LogSys) (t : ThdPtr) (o : Option LogOp) :
    (s.setOp t o).reserve + left (s.op t) = s.reserve + left o := by
  have hrest : ∑ u ∈ Finset.univ.erase t, left ((s.setOp t o).op u) =
      ∑ u ∈ Finset.univ.erase t, left (s.op u) := by
    apply Finset.sum_congr rfl
    intro u hu
    rw [setOp_op, if_neg (Finset.ne_of_mem_erase hu)]
  have hold := Finset.sum_erase_add Finset.univ (fun u => left (s.op u)) (Finset.mem_univ t)
  have hnew := Finset.sum_erase_add Finset.univ (fun u => left ((s.setOp t o).op u))
    (Finset.mem_univ t)
  have hat : (s.setOp t o).op t = o := if_pos rfl
  rw [hrest] at hnew
  simp only [hat] at hnew
  unfold reserve
  omega

/-- What an operation has reserved is there for it. -/
structure Admitted (s : LogSys) : Prop where
  room : s.pc.up = true → s.lh.length + s.reserve ≤ 28
  blocks : ∀ t o, s.op t = some o → o.blocks.length ≤ 9 ∧ ∀ b ∈ o.blocks, b ∈ s.lh
  panic : s.panic ≠ some .tooBig

/-- A step that leaves the operations alone and does not lengthen the list. -/
theorem Admitted.frame (h : Admitted s) (hop : s'.op = s.op)
    (hlen : s'.pc.up = true → s.pc.up = true ∧ s'.lh.length ≤ s.lh.length)
    (hlh : (∃ t, (s.op t).isSome) → s'.lh = s.lh) (hp : s'.panic ≠ some .tooBig) : Admitted s' where
  room hup := by
    obtain ⟨hup, hle⟩ := hlen hup
    have := h.room hup
    unfold reserve at this ⊢
    rw [hop]
    omega
  blocks t o ho := by
    rw [hop] at ho
    rw [hlh ⟨t, by rw [ho]; rfl⟩]
    exact h.blocks t o ho
  panic := hp

/-- A call of the cache returns or panics. -/
theorem Admitted.andThen {α : Type} {r : Except FsPanic α} {k : α → LogSys} (h : Admitted s)
    (hr : Small r) (hok : ∀ x, Admitted (k x)) : Admitted (s.andThen r k) := by
  unfold LogSys.andThen
  cases r with
  | ok x => exact hok x
  | error e =>
    refine h.frame rfl (fun hup => ⟨hup, le_rfl⟩) (fun _ => rfl) fun he => ?_
    cases he
    exact hr rfl

theorem reserve_le (h : LogInv s) : s.reserve ≤ 9 * s.outstanding := by
  rw [h.counted]
  unfold reserve active
  rw [Finset.card_eq_sum_ones, Finset.sum_filter, Finset.mul_sum]
  apply Finset.sum_le_sum
  intro t _
  cases hop : s.op t with
  | none => simp [left]
  | some o =>
    simp [left]

theorem Admitted.beginOp (hinv : LogInv s) (h : Admitted s) (hup : s.pc.up = true)
    (hop : s.op t = none) (hs : s.beginOp t = some s') : Admitted s' := by
  unfold LogSys.beginOp at hs
  split at hs
  · cases hs
  · rename_i hcom
    split at hs
    · cases hs
    · rename_i hadmit
      have hpc := hinv.idle_of_up hup (by simpa using hcom)
      have hphase := hinv.phase
      simp only [Phase, hpc] at hphase
      have hres := reserve_setOp s t (some {})
      have hle := reserve_le hinv
      have hleft : left (some {}) = 9 := rfl
      rw [hop, hleft, show left none = 0 from rfl] at hres
      have hten : MAXOPBLOCKS = 10 := rfl
      have hthirty : LOGSIZE = 30 := rfl
      rw [hten, hthirty] at hadmit
      -- with others running, the test of `begin_op` has counted one block more for each
      have hroom : s.lh.length + (s.setOp t (some {})).reserve ≤ 28 := by
        by_cases hzero : s.outstanding = 0
        · rw [hphase.2.2.1 hzero]
          simp only [List.length_nil]
          omega
        · omega
      have hblocks : ∀ u o, (s.setOp t (some {})).op u = some o →
          o.blocks.length ≤ 9 ∧ ∀ b ∈ o.blocks, b ∈ s.lh := by
        intro u o ho
        rw [setOp_op] at ho
        split at ho
        · cases ho
          exact ⟨by decide, fun b hb => absurd hb List.not_mem_nil⟩
        · exact h.blocks u o ho
      split at hs
      · cases hs
        exact ⟨fun _ => hroom, hblocks, h.panic⟩
      · cases hs
        exact ⟨fun _ => hroom, hblocks, h.panic⟩

theorem Admitted.check (h : Admitted s) {o : LogOp} (hinv : LogInv s) (hop : s.op t = some o) :
    Admitted (s.check t o) := by
  obtain ⟨-, hpc, -⟩ := hinv.idle_of_op hop
  have hroom := h.room (by rw [hpc]; rfl)
  unfold LogSys.check
  rw [if_neg (by have : LOGSIZE = 30 := rfl; have : mkfs.nlog = 30 := rfl; omega)]
  split
  · exact h.frame rfl (fun hup => ⟨hup, le_rfl⟩) (fun _ => rfl) fun he => by cases he
  · have hres := reserve_setOp s t (some { o with checked := true })
    rw [hop, show left (some { o with checked := true }) = left (some o) from rfl] at hres
    refine ⟨fun _ => ?_, fun u o' ho => ?_, h.panic⟩
    · show s.lh.length + _ ≤ 28
      omega
    · rw [setOp_op] at ho
      split at ho
      · cases ho
        exact h.blocks t o hop
      · exact h.blocks u o' ho

theorem Admitted.logWrite (h : Admitted s) {o : LogOp} (hinv : LogInv s) (hop : s.op t = some o)
    (data : Block) (hm : (logged o (s.bio.buf i).blockno).length ≤ 9) :
    Admitted (s.logWrite t o i data) := by
  obtain ⟨-, hpc, -⟩ := hinv.idle_of_op hop
  have hroom := h.room (by rw [hpc]; rfl)
  obtain ⟨hlen, hsub⟩ := h.blocks t o hop
  generalize hb : (s.bio.buf i).blockno = b at hm
  have hlh : (s.logWrite t o i data).lh = if b ∈ s.lh then s.lh else s.lh ++ [b] := by
    rw [← hb]
    rfl
  have hmem : ∀ k, k ∈ s.lh ∨ k = b → k ∈ (s.logWrite t o i data).lh := by
    intro k hk
    rw [hlh]
    split
    · rename_i hin
      rcases hk with hk | rfl
      · exact hk
      · exact hin
    · rw [List.mem_append, List.mem_singleton]
      exact hk
  have hres : (s.logWrite t o i data).reserve + left (some o) =
      s.reserve + (9 - (logged o b).length) := by
    have := reserve_setOp s t (some { blocks := logged o b })
    rw [hop] at this
    rw [← hb] at this ⊢
    exact this
  refine ⟨fun _ => ?_, fun u o' ho => ?_, h.panic⟩
  · -- a block that is new to the list is new to the operation
    have hleft : left (some o) = 9 - o.blocks.length := rfl
    rw [hlh]
    unfold logged at hres hm
    by_cases hin : b ∈ s.lh
    · rw [if_pos hin]
      split at hres
      · omega
      · rw [List.length_cons] at hres
        omega
    · have hnot : b ∉ o.blocks := fun hbo => hin (hsub b hbo)
      rw [if_neg hnot, List.length_cons] at hres hm
      rw [if_neg hin, List.length_append, List.length_singleton]
      omega
  · have ho' : (if u = t then some { blocks := logged o b } else s.op u) = some o' := by
      rw [← hb]
      exact ho
    split at ho'
    · cases ho'
      refine ⟨hm, fun k hk => hmem k ?_⟩
      unfold logged at hk
      split at hk
      · exact .inl (hsub k hk)
      · rcases List.mem_cons.mp hk with rfl | hk
        · exact .inr rfl
        · exact .inl (hsub k hk)
    · obtain ⟨h1, h2⟩ := h.blocks u o' ho'
      exact ⟨h1, fun k hk => hmem k (.inl (h2 k hk))⟩

theorem Admitted.endOp (h : Admitted s) {o : LogOp} (hinv : LogInv s) (hop : s.op t = some o) :
    Admitted (s.endOp t) := by
  obtain ⟨-, hpc, -⟩ := hinv.idle_of_op hop
  have hroom := h.room (by rw [hpc]; rfl)
  have hres := reserve_setOp s t none
  rw [show left none = 0 from rfl] at hres
  have hroom' : s.lh.length + (s.setOp t none).reserve ≤ 28 := by omega
  have hblocks : ∀ u o', (s.setOp t none).op u = some o' →
      o'.blocks.length ≤ 9 ∧ ∀ b ∈ o'.blocks, b ∈ s.lh := by
    intro u o' ho
    rw [setOp_op] at ho
    split at ho
    · cases ho
    · exact h.blocks u o' ho
  unfold LogSys.endOp
  simp only
  split
  · exact ⟨fun _ => hroom', hblocks, fun he => by cases he⟩
  · split <;> exact ⟨fun _ => hroom', hblocks, h.panic⟩

/-- Where `commit` and `initlog` run, no operation does. -/
theorem LogInv.no_op (h : LogInv s) (hpc : s.pc ≠ .idle) : ¬ ∃ t, (s.op t).isSome := by
  rintro ⟨t, ht⟩
  obtain ⟨o, ho⟩ := Option.isSome_iff_exists.mp ht
  exact hpc (h.idle_of_op ho).2.1

theorem Admitted.commit (hinv : LogInv s) (h : Admitted s) (hs : s.commit t = some s') :
    Admitted s' := by
  unfold LogSys.commit at hs
  have hmove : ∀ (s' : LogSys), s'.op = s.op → s'.lh = s.lh → s'.panic = s.panic → s.pc.up = true →
      Admitted s' := by
    intro s' hop hlh hp hup
    refine h.frame hop (fun _ => ⟨hup, by rw [hlh]⟩) (fun _ => hlh) ?_
    rw [hp]
    exact h.panic
  split at hs
  · rename_i tail hpc
    have hup : s.pc.up = true := by rw [hpc]; rfl
    split at hs
    · split at hs
      · cases hs
      · cases hs
        exact h.andThen (Bio.small_writeLog _ _ _ _) fun bio => hmove _ rfl rfl rfl hup
    · cases hs
      exact hmove _ rfl rfl rfl hup
  · rename_i hpc
    split at hs
    · cases hs
    · cases hs
      exact h.andThen (Bio.small_writeHead _ _ _) fun bio => hmove _ rfl rfl rfl (by rw [hpc]; rfl)
  · rename_i tail hpc
    have hup : s.pc.up = true := by rw [hpc]; rfl
    split at hs
    · split at hs
      · cases hs
      · cases hs
        exact h.andThen (Bio.small_installTrans _ _ _ _) fun bio => hmove _ rfl rfl rfl hup
    · cases hs
      refine h.frame rfl (fun _ => ⟨hup, Nat.zero_le _⟩) (fun hex => ?_) h.panic
      exact absurd hex (hinv.no_op (by rw [hpc]; simp))
  · rename_i hpc
    split at hs
    · cases hs
    · cases hs
      exact h.andThen (Bio.small_writeHead _ _ _) fun bio => hmove _ rfl rfl rfl (by rw [hpc]; rfl)
  · rename_i hpc
    cases hs
    exact hmove _ rfl rfl rfl (by rw [hpc]; rfl)
  · cases hs

theorem Admitted.recover (hinv : LogInv s) (h : Admitted s) (hs : s.recover = some s') :
    Admitted s' := by
  -- no operation runs, so only the panic matters until the log is up with an empty list
  have hdown : ∀ (s' : LogSys), s.pc ≠ .idle → s'.op = s.op → s'.panic = s.panic →
      (s'.pc.up = true → s'.lh = []) → Admitted s' := by
    intro s' hpc hop hp hlh
    have hno := hinv.no_op hpc
    refine ⟨fun hup => ?_, fun t o ho => ?_, by rw [hp]; exact h.panic⟩
    · rw [hlh hup]
      have hzero : s'.reserve = 0 := by
        unfold reserve
        rw [hop]
        apply Finset.sum_eq_zero
        intro t _
        cases ho : s.op t with
        | none => rfl
        | some o => exact absurd ⟨t, by rw [ho]; rfl⟩ hno
      rw [hzero]
      decide
    · rw [hop] at ho
      exact absurd ⟨t, by rw [ho]; rfl⟩ hno
  unfold LogSys.recover at hs
  split at hs
  · rename_i hpc
    cases hs
    exact h.andThen (Bio.small_readHead _ _) fun r =>
      hdown _ (by rw [hpc]; simp) rfl rfl fun hup => by cases hup
  · rename_i tail hpc
    split at hs
    · cases hs
      exact h.andThen (Bio.small_installTrans _ _ _ _) fun bio =>
        hdown _ (by rw [hpc]; simp) rfl rfl fun hup => by cases hup
    · cases hs
      exact hdown _ (by rw [hpc]; simp) rfl rfl fun _ => rfl
  · rename_i hpc
    cases hs
    have hphase := hinv.phase
    simp only [Phase, hpc] at hphase
    exact h.andThen (Bio.small_writeHead _ _ _) fun bio =>
      hdown _ (by rw [hpc]; simp) rfl rfl fun _ => hphase.1
  · cases hs

theorem Admitted.step (hinv : LogInv s) (h : Admitted s) (hm : AtMost 9 s a)
    (hs : s.step a = some s') : Admitted s' := by
  unfold LogSys.step at hs
  split at hs
  · cases hs
  · cases a with
    | crash =>
      cases hs
      exact ⟨fun hup => (by cases hup), fun t o ho => (by cases ho), fun he => (by cases he)⟩
    | recover => exact h.recover hinv hs
    | beginOp t =>
      obtain ⟨⟨hup, hop⟩, hs⟩ := Option.ite_none_right_eq_some.mp hs
      exact h.beginOp hinv hup hop hs
    | bread t b =>
      obtain ⟨-, hs⟩ := Option.ite_none_right_eq_some.mp hs
      cases hs
      exact h.andThen (Bio.small_bread _ _ _) fun r =>
        h.frame rfl (fun hup => ⟨hup, le_rfl⟩) (fun _ => rfl) h.panic
    | brelse t i =>
      obtain ⟨-, hs⟩ := Option.ite_none_right_eq_some.mp hs
      cases hs
      exact h.frame rfl (fun hup => ⟨hup, le_rfl⟩) (fun _ => rfl) h.panic
    | check t =>
      simp only [act] at hs
      split at hs
      · rename_i o hop
        split at hs
        · cases hs
        · cases hs
          exact h.check hinv hop
      · cases hs
    | logWrite t i data =>
      simp only [act] at hs
      split at hs
      · rename_i o hop
        obtain ⟨-, hs⟩ := Option.ite_none_right_eq_some.mp hs
        cases hs
        exact h.logWrite hinv hop data (hm o hop)
      · cases hs
    | endOp t =>
      simp only [act] at hs
      split at hs
      · rename_i o hop
        split at hs
        · cases hs
        · cases hs
          exact h.endOp hinv hop
      · cases hs
    | commit t =>
      obtain ⟨-, hs⟩ := Option.ite_none_right_eq_some.mp hs
      exact h.commit hinv hs

/-! ## Every run -/

/-- In every run in which each operation logs at most nine distinct blocks, `log_write` does not
reach its panic, its tests pass whenever an operation is in progress, and the list is never
longer than the data blocks of the log's area. -/
theorem log_admission {disk : Nat → Block} (hclean : (disk mkfs.logstart).word 0 = 0)
    (h : Reaches LogSys.step (AtMost (MAXOPBLOCKS - 1)) (boot disk) s) :
    s.panic ≠ some .tooBig ∧
    (∀ t o, s.op t = some o → s.lh.length < LOGSIZE ∧ s.lh.length < mkfs.nlog - 1) ∧
    s.lh.length ≤ mkfs.nlog - 1 := by
  have hinv : LogInv s ∧ Admitted s := by
    refine h.invariant (motive := fun s => LogInv s ∧ Admitted s) ⟨boot_inv disk hclean, ?_⟩ ?_
    · exact ⟨fun hup => (by cases hup), fun t o ho => (by cases ho), fun he => (by cases he)⟩
    · rintro s a s' ⟨hinv, h⟩ hm hs
      exact ⟨hinv.step hs, h.step hinv hm hs⟩
  obtain ⟨hinv, h⟩ := hinv
  have hnlog : mkfs.nlog = 30 := rfl
  have hlog : LOGSIZE = 30 := rfl
  refine ⟨h.panic, fun t o hop => ?_, ?_⟩
  · have hroom := h.room (by rw [(hinv.idle_of_op hop).2.1]; rfl)
    omega
  · cases hup : s.pc.up with
    | true =>
      have hroom := h.room hup
      omega
    | false =>
      -- `initlog` works on the list in the header, which fits
      have hphase := hinv.phase
      have hroom := hinv.recoverable.room
      unfold Phase at hphase
      split at hphase
      case h_8 => rw [hphase.1] at hroom; omega
      case h_7 => rw [hphase.1]; exact Nat.zero_le _
      case h_9 => rw [hphase.1]; exact Nat.zero_le _
      all_goals
        rename_i hpc
        rw [hpc] at hup
        cases hup

/-- Thread `t` logs the blocks `100 + k` for `first ≤ k < first + n`. In the runs below, the `k`th
block read after `initlog` is in the buffer behind the one of the header and those before it. -/
def logs (t : ThdPtr) (first n : Nat) : List LogAct :=
  (List.range' first n).flatMap fun k =>
    [.bread t (100 + k), .check t, .logWrite t (Fin.ofNat NBUF (k + 1)) Bytes.zero,
      .brelse t (Fin.ofNat NBUF (k + 1))]

/-- Three operations begin, on the threads 0, 1 and 2. -/
def threeBegin : List LogAct :=
  [.recover, .recover, .recover, .beginOp 0, .beginOp 1, .beginOp 2]

/-- With three operations of nine blocks, all have logged theirs. -/
theorem log_admission_three : ∃ s, Reaches LogSys.step (AtMost (MAXOPBLOCKS - 1)) (boot zeroDisk) s ∧
    s.outstanding = 3 ∧ s.lh.length = 27 ∧ s.panic ≠ some .tooBig ∧
    s.lh.length < LOGSIZE ∧ s.lh.length < mkfs.nlog - 1 := by
  obtain ⟨s, hreach, hout, hlen, hop⟩ := boot_run zeroDisk (AtMost (MAXOPBLOCKS - 1))
    (threeBegin ++ logs 0 0 9 ++ logs 1 9 9 ++ logs 2 18 9)
    (fun s => s.outstanding = 3 ∧ s.lh.length = 27 ∧ (s.op 0).isSome) (by decide +kernel)
  obtain ⟨o, hop⟩ := Option.isSome_iff_exists.mp hop
  obtain ⟨hpanic, htest, -⟩ := log_admission (Block.word_zero 0) hreach
  exact ⟨s, hreach, hout, hlen, hpanic, htest 0 o hop⟩

/-- With three operations of ten blocks, `log_write` panics on the last block. -/
def panicRun : List LogAct :=
  threeBegin ++ logs 0 0 10 ++ logs 1 10 10 ++ logs 2 20 9 ++ [.bread 2 129, .check 2]

/-- Two operations pass the test of `log_write` with one block free, and both take it. -/
def raceRun : List LogAct :=
  threeBegin ++ logs 0 0 10 ++ logs 1 10 9 ++ logs 2 19 9 ++
    [.bread 1 128, .bread 2 129, .check 1, .check 2, .logWrite 1 29 Bytes.zero,
      .logWrite 2 0 Bytes.zero]

/-- Neither holds of operations that log `MAXOPBLOCKS` blocks. -/
theorem ten_blocks_overrun :
    (∃ s, Reaches LogSys.step (AtMost MAXOPBLOCKS) (boot zeroDisk) s ∧ s.panic = some .tooBig) ∧
    ∃ s, Reaches LogSys.step (AtMost MAXOPBLOCKS) (boot zeroDisk) s ∧ s.panic = none ∧
      mkfs.nlog - 1 < s.lh.length :=
  ⟨boot_run zeroDisk (AtMost MAXOPBLOCKS) panicRun (fun s => s.panic = some .tooBig)
      (by decide +kernel),
    boot_run zeroDisk (AtMost MAXOPBLOCKS) raceRun
      (fun s => s.panic = none ∧ mkfs.nlog - 1 < s.lh.length) (by decide +kernel)⟩

end LogSys

end Xv6
