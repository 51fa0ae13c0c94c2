import Xv6.Laws.Fs.Log

/-!
# Crash atomicity

A crash can come at any step of a run, of `commit` and of `initlog`. The home blocks then hold
the state before the transaction until `write_head` has put its list on the disk, and what
`initlog` leaves is that state or the one after the transaction, for all blocks together.
Recovery always comes to its end, however often a crash has cut it short.
-/

namespace Xv6

open Xv6.Lib

namespace Bio

variable {s s' : Bio} {t : ThdPtr} {a b tail : Nat} {i : Fin NBUF} {lh : List Nat}

/-! ## An unused cache never runs out of buffers -/

theorem exists_ne : ∃ j, j ≠ i := by
  by_cases hi : i = 0
  · exact ⟨1, by rw [hi]; decide⟩
  · exact ⟨0, fun e => hi e.symm⟩

theorem Good.readHead_ok (h : Good s) (hall : ∀ i, (s.buf i).unused) (t : ThdPtr) :
    ∃ r, s.readHead t = .ok r := by
  obtain ⟨i, s₁, h₁⟩ := h.bread_ok (b := mkfs.logstart) (by decide) ⟨0, hall 0⟩ t
  refine ⟨(getHead (s₁.buf i).data, s₁.brelse i), ?_⟩
  unfold Bio.readHead
  simp only [h₁, bind, Except.bind, pure, Except.pure]

theorem Good.writeHead_ok (h : Good s) (hall : ∀ i, (s.buf i).unused) (t : ThdPtr) (lh : List Nat) :
    ∃ s', s.writeHead t lh = .ok s' := by
  obtain ⟨i, s₁, h₁⟩ := h.bread_ok (b := mkfs.logstart) (by decide) ⟨0, hall 0⟩ t
  have hread := h.bread h₁
  obtain ⟨s₂, hs₂, -⟩ := hread.good.bwrite hread.holds (putHead lh (s₁.buf i).data)
  have hset : (s₁.setBuf i fun x => { x with data := putHead lh x.data }) =
      s₁.setBuf i fun x => { x with data := putHead lh (s₁.buf i).data } := rfl
  refine ⟨s₂.brelse i, ?_⟩
  unfold Bio.writeHead
  simp only [h₁, bind, Except.bind, hset, hs₂, pure, Except.pure]

theorem Good.installTrans_ok (h : Good s) (hall : ∀ i, (s.buf i).unused)
    (ha : mkfs.logstart + tail + 1 < FSSIZE) (hb : b < FSSIZE) (hne : b ≠ mkfs.logstart + tail + 1)
    (t : ThdPtr) : ∃ s', s.installTrans t tail b = .ok s' := by
  obtain ⟨i, s₁, h₁⟩ := h.bread_ok ha ⟨0, hall 0⟩ t
  have hr₁ := h.bread h₁
  obtain ⟨j, hji⟩ := exists_ne
  obtain ⟨k, s₂, h₂⟩ := hr₁.good.bread_ok hb ⟨j, by rw [hr₁.other j hji]; exact hall j⟩ t
  obtain ⟨hstill, -, -, ⟨hk, -⟩, -⟩ := h.bread_two hne.symm h₁ h₂
  obtain ⟨s₃, hs₃, -⟩ := hstill.good.bwrite hk (s₂.buf i).data
  refine ⟨(s₃.brelse i).brelse k, ?_⟩
  unfold Bio.installTrans
  simp only [h₁, h₂, bind, Except.bind, hs₃, pure, Except.pure]

end Bio

/-- The steps of a machine that does not come up. -/
def LogAct.recovers : LogAct → Bool
  | .crash | .recover => true
  | _ => false

/-- The steps of a recovery that no crash cuts short. -/
def LogAct.isRecover : LogAct → Bool
  | .recover => true
  | _ => false

namespace LogSys

variable {s s' : LogSys} {tail : Nat}

/-- While `initlog` runs, no buffer is in use. -/
theorem LogInv.unused (h : LogInv s) (hdown : s.pc.up = false) (i : Fin NBUF) :
    (s.bio.buf i).unused := by
  by_contra hu
  have hdev := h.good.used i (by simpa using hu)
  have hholds : (s.bio.buf i).holds (s.bio.buf i).blockno := Buf.holds_iff.mpr ⟨hdev, rfl⟩
  rw [Buf.unused_iff, not_and_or] at hu
  rcases hu with ho | hd
  · have := (h.owners i _ ho hholds).1
    rw [hdown] at this
    cases this
  · have := (h.dirty _ ⟨i, hholds, by simpa using hd⟩).1
    rw [hdown] at this
    cases this

/-- Neither a crash nor recovery changes what has happened. -/
theorem step_recovers {a : LogAct} (ha : a.recovers) (hs : s.step a = some s') :
    s'.before = s.before ∧ s'.after = s.after ∧ s'.committed = s.committed := by
  unfold step at hs
  split at hs
  · cases hs
  · cases a with
    | crash =>
      cases hs
      exact ⟨rfl, rfl, rfl⟩
    | recover =>
      have hand : ∀ {α : Type} (r : Except FsPanic α) (k : α → LogSys),
          (∀ x, (k x).before = s.before ∧ (k x).after = s.after ∧ (k x).committed = s.committed) →
          (s.andThen r k).before = s.before ∧ (s.andThen r k).after = s.after ∧
            (s.andThen r k).committed = s.committed := by
        intro α r k hk
        unfold andThen
        cases r with
        | ok x => exact hk x
        | error e => exact ⟨rfl, rfl, rfl⟩
      simp only [act, recover] at hs
      split at hs
      · cases hs
        exact hand _ _ fun _ => ⟨rfl, rfl, rfl⟩
      · split at hs
        · cases hs
          exact hand _ _ fun _ => ⟨rfl, rfl, rfl⟩
        · cases hs
          exact ⟨rfl, rfl, rfl⟩
      · cases hs
        exact hand _ _ fun _ => ⟨rfl, rfl, rfl⟩
      · cases hs
    | beginOp t => cases ha
    | bread t b => cases ha
    | brelse t i => cases ha
    | check t => cases ha
    | logWrite t i data => cases ha
    | endOp t => cases ha
    | commit t => cases ha

/-! ## Recovery comes to its end -/

/-- The run consists of steps of `initlog`. -/
abbrev Recovers (s s' : LogSys) : Prop := Reaches LogSys.step (fun _ a => a.isRecover) s s'

theorem step_recover (hp : s.panic = none) (hs : s.recover = some s') : Recovers s s' := by
  refine .tail .refl (a := .recover) rfl ?_
  unfold step
  rw [hp]
  simpa [act] using hs

theorem LogInv.reclear_idle (h : LogInv s) (hpc : s.pc = .reclear) (hp : s.panic = none) :
    ∃ s', Recovers s s' ∧ s'.pc = .idle ∧ s'.panic = none := by
  obtain ⟨bio, hbio⟩ := h.good.writeHead_ok (h.unused (by rw [hpc]; rfl)) 0 s.lh
  refine ⟨{ s with bio := bio, pc := .idle }, step_recover hp ?_, rfl, hp⟩
  simp only [LogSys.recover, hpc, LogSys.andThen, hbio]

/-- By induction on the blocks that are left to install. -/
theorem LogInv.reinstall_idle (n : Nat) : ∀ {s : LogSys} {tail : Nat}, LogInv s →
    s.pc = .reinstall tail → s.panic = none → s.lh.length - tail = n →
    ∃ s', Recovers s s' ∧ s'.pc = .idle ∧ s'.panic = none := by
  induction n with
  | zero =>
    intro s tail h hpc hp hn
    have hend : s.lh[tail]? = none := List.getElem?_eq_none (by omega)
    have hs : s.recover = some { s with lh := [], pc := .reclear } := by
      simp only [LogSys.recover, hpc, hend]
    obtain ⟨s', hrun, hidle⟩ := (h.recover hs).reclear_idle rfl hp
    exact ⟨s', (step_recover hp hs).trans hrun, hidle⟩
  | succ n ih =>
    intro s tail h hpc hp hn
    have hlt : tail < s.lh.length := by omega
    have hb : s.lh[tail]? = some s.lh[tail] := List.getElem?_eq_getElem hlt
    have hmem : s.lh[tail] ∈ s.lh := List.getElem_mem hlt
    have hroom := h.recoverable.room
    rw [(h.installs (.inr ⟨hpc, rfl⟩)).1] at hroom
    have hlog : InLog (mkfs.logstart + tail + 1) := inLog_copy (by omega)
    have hsize : mkfs.logstart + tail + 1 < FSSIZE := by
      have : mkfs.logstart + mkfs.nlog < FSSIZE := by decide
      exact lt_trans hlog.2 this
    obtain ⟨bio, hbio⟩ := h.good.installTrans_ok (h.unused (by rw [hpc]; rfl)) hsize
      (h.home _ hmem).2 (ne_of_inLog hlog (h.home _ hmem).1) 0
    have hs : s.recover = some { s with bio := bio, pc := .reinstall (tail + 1) } := by
      simp only [LogSys.recover, hpc, hb, LogSys.andThen, hbio]
    have hleft : s.lh.length - (tail + 1) = n := by omega
    obtain ⟨s', hrun, hidle⟩ := ih (h.recover hs) rfl hp hleft
    exact ⟨s', (step_recover hp hs).trans hrun, hidle⟩

/-- After a crash, `initlog` returns. -/
theorem LogInv.crash_idle (h : LogInv s) :
    ∃ s', Recovers s.crash s' ∧ s'.pc = .idle ∧ s'.panic = none := by
  have hc := h.crash
  obtain ⟨r, hr⟩ := hc.good.readHead_ok (hc.unused rfl) 0
  have hs : s.crash.recover = some { s.crash with bio := r.2, lh := r.1, pc := .reinstall 0 } := by
    have hpc : s.crash.pc = .readHead := rfl
    simp only [LogSys.recover, hpc, LogSys.andThen, hr]
  obtain ⟨s', hrun, hidle⟩ := LogInv.reinstall_idle _ (hc.recover hs) rfl rfl rfl
  exact ⟨s', (step_recover rfl hs).trans hrun, hidle⟩

/-! ## Every run -/

/-- What the home blocks hold in a state that keeps the invariant. -/
theorem LogInv.home_disk (h : LogInv s) :
    (s.committed = false → ∀ b, ¬ InLog b → s.bio.disk b = s.before b) ∧
      (s.committed = true → s.pc = .idle → ∀ b, ¬ InLog b → s.bio.disk b = s.after b) := by
  refine ⟨fun hcom b hb => ?_, fun hcom hpc b hb => ?_⟩
  · have hnil : s.header = [] := by
      by_contra hne
      rw [h.recoverable.why hne] at hcom
      cases hcom
    rw [h.recoverable.home_of_nil hnil hb, durable_of_not hcom]
  · have hphase := h.phase
    simp only [Phase, hpc] at hphase
    rw [h.recoverable.home_of_nil hphase.1 hb, durable_of_committed hcom]

/-- In every run from a disk whose log is clear, in every state: until `write_head` has put the
list of the transaction on the disk, every home block holds the state before the transaction;
once it has and `commit` is done, every home block holds the state after it. After a crash in
that state, and as many more as there may be during recovery, `initlog` leaves for all blocks
the state after the transaction if the list was on the disk, and for all blocks the state
before it if not; and `initlog` does return. -/
theorem crash_atomic {disk : Nat → Block} (hclean : (disk mkfs.logstart).word 0 = 0)
    (h : Reaches LogSys.step (fun _ _ => True) (boot disk) s) :
    (s.committed = false → ∀ b, ¬ InLog b → s.bio.disk b = s.before b) ∧
    (s.committed = true → s.pc = .idle → ∀ b, ¬ InLog b → s.bio.disk b = s.after b) ∧
    (∀ s', Reaches LogSys.step (fun _ a => a.recovers) s.crash s' → s'.pc = .idle →
      (s.committed = true → ∀ b, ¬ InLog b → s'.bio.disk b = s.after b) ∧
      (s.committed = false → ∀ b, ¬ InLog b → s'.bio.disk b = s.before b)) ∧
    ∃ s', Recovers s.crash s' ∧ s'.pc = .idle ∧ s'.panic = none := by
  have hinv : LogInv s := h.invariant (boot_inv disk hclean) fun _ _ _ hi _ hs => hi.step hs
  refine ⟨hinv.home_disk.1, hinv.home_disk.2, fun s' hrun hidle => ?_, hinv.crash_idle⟩
  have hrec : LogInv s' ∧ s'.before = s.before ∧ s'.after = s.after ∧ s'.committed = s.committed := by
    refine hrun.invariant (motive := fun s' => LogInv s' ∧ s'.before = s.before ∧
      s'.after = s.after ∧ s'.committed = s.committed) ⟨hinv.crash, rfl, rfl, rfl⟩ ?_
    rintro s₁ a s₂ ⟨hi, hb, ha, hc⟩ hok hs
    obtain ⟨hb', ha', hc'⟩ := step_recovers hok hs
    exact ⟨hi.step hs, hb'.trans hb, ha'.trans ha, hc'.trans hc⟩
  obtain ⟨hi, hb, ha, hc⟩ := hrec
  refine ⟨fun hcom b hhome => ?_, fun hcom b hhome => ?_⟩
  · rw [← ha]
    exact hi.home_disk.2 (hc.trans hcom) hidle b hhome
  · rw [← hb]
    exact hi.home_disk.1 (hc.trans hcom) b hhome

/-- A disk of zeros, as `mkfs` starts from. -/
def zeroDisk : Nat → Block := fun _ => Bytes.zero

/-- A state that a concrete run reaches. -/
theorem boot_run (disk : Nat → Block) (ok : LogSys → LogAct → Prop) [∀ s a, Decidable (ok s a)]
    (as : List LogAct) (P : LogSys → Prop) [DecidablePred P]
    (h : (runIf LogSys.step ok (boot disk) as).any fun s => P s) :
    ∃ s, Reaches LogSys.step ok (boot disk) s ∧ P s :=
  exists_reaches as P h

/-- One operation changes block 100 and ends; its commit gets as far as `write_head`. -/
def commitRun : List LogAct :=
  [.recover, .recover, .recover, .beginOp 0, .bread 0 100, .check 0,
    .logWrite 0 1 (fun _ => 1#8), .brelse 0 1, .endOp 0, .commit 0, .commit 0, .commit 0]

/-- The home block is old, the list is on the disk, and recovery brings the new one home. -/
theorem crash_atomic_mid_commit : ∃ s s', Reaches LogSys.step (fun _ _ => True) (boot zeroDisk) s ∧
    s.committed = true ∧ (s.bio.disk 100).byte 0 = 0#8 ∧ Recovers s.crash s' ∧
    (s'.bio.disk 100).byte 0 = 1#8 := by
  obtain ⟨s, hreach, hcom, hold, hnew⟩ := boot_run zeroDisk (fun _ _ => True) commitRun
    (fun s => s.committed = true ∧ (s.bio.disk 100).byte 0 = 0#8 ∧ (s.after 100).byte 0 = 1#8)
    (by decide +kernel)
  obtain ⟨-, -, hall, s', hrun, hidle, -⟩ := crash_atomic (Block.word_zero 0) hreach
  have hrun' : Reaches step (fun _ a => a.recovers) s.crash s' := by
    apply hrun.mono
    intro _ a ha
    cases a <;> first | rfl | cases ha
  refine ⟨s, s', hreach, hcom, hold, hrun, ?_⟩
  rw [(hall s' hrun' hidle).1 hcom 100 (by decide), hnew]

end LogSys

end Xv6
