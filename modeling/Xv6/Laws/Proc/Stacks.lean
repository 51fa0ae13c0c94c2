import Xv6.Laws.Proc.SlotsRun
import Xv6.Laws.Proc.State

/-!
# The stack a CPU takes its traps on

`switchuvm` loads `esp0` with the kernel stack of the thread the process's cursor names. The
scheduler calls it right after it has moved the cursor to the thread it starts, so there it is
the right stack. `growproc` and `exec` call it in a running thread, and the cursor may name
another one: a thread that a second CPU picked last, whose slot may even be free by now.

`PinsCaller` asks that these two calls find the cursor at their own thread; `exec` always does
when it comes from a sleep, since the scan that woke it moved the cursor and the lock has been
held since. Then every CPU has the stack of its thread in every state reached.
-/

namespace Xv6

open Xv6.Lib

namespace Kernel

variable {s s' : Kernel} {a : Act} {p q : ProcPtr} {t u n : ThdPtr} {c : CpuId}

/-- Where `growproc` and `exec` call `switchuvm`, the cursor of the process names the caller. -/
def PinsCaller (s : Kernel) : Act → Prop
  | .work c .grow => ∀ pt ∈ s.onCpu c, (s.proc pt.1).pin = some pt.2
  | .kstep c ok page => ∀ pt ∈ s.onCpu c, s.label pt.1 pt.2 (.kstep c ok page) = .commits →
      (s.proc pt.1).pin = some pt.2
  | _ => True

theorem step_resume_lock (hs : s.step (.resume c) = some s') : s.lock = some c := by
  cases steps hs with
  | resume _ hlock => exact hlock

/-! ## One change -/

theorem Stacked.setPc (h : Stacked s) (t : ThdPtr) (k : Pc) : Stacked (s.setPc t k) :=
  h.frame rfl (fun _ _ _ => rfl) (fun _ _ _ _ _ => rfl) (fun _ => id) id

theorem Stacked.setProc (h : Stacked s) {f : Proc → Proc} (hf : (f (s.proc q)).pin = (s.proc q).pin) :
    Stacked (s.setProc q f) :=
  h.frame rfl (fun _ _ _ => rfl) (fun r _ _ _ _ => (near_setProc hf).pin r) (fun _ => id) id

theorem Stacked.setstate (h : Stacked s) (st : ProcState) : Stacked (s.setstate p t st) := by
  refine h.frame setstate_cpu (fun d u _ => ?_) (fun _ _ _ _ _ => setstate_pin) (fun d hd => ?_)
    fun hp => ?_
  · rw [setstate_thread]
    split
    · rename_i hu
      rw [hu]
    · rfl
  · rw [setstate_lock] at hd
    exact hd
  · rw [setstate_panic] at hp
    exact hp

/-- A slot changes that no CPU runs, or keeps its kernel stack. -/
theorem Stacked.setThd (h : Stacked s) {g : Thread → Thread}
    (hn : (∀ c, (s.cpu c).thd ≠ some n) ∨ (g (s.thread n)).kstack = (s.thread n).kstack) :
    Stacked (s.setThd n g) := by
  refine h.frame rfl (fun d u hu => ?_) (fun _ _ _ _ _ => rfl) (fun _ => id) id
  rw [setThd_thread]
  split
  · rename_i hun
    subst hun
    rcases hn with h0 | h0
    · exact absurd hu (h0 d)
    · exact h0
  · rfl

section OnCpu

variable (h : Slots none s) (hpanic : s.panic = none) (hs : Stacked s)

include h hpanic

theorem Slots.not_onCpu (hn : (s.thread n).state ≠ .running) (c : CpuId) : (s.cpu c).thd ≠ some n :=
  fun hc => hn ((h.cpus hpanic).running c n (by simp) hc).1

include hs

theorem Stacked.freeThd (hz : (s.thread u).state = .zombie) : Stacked (s.freeThd u) := by
  rw [freeThd_eq (h.stack u (.inr hz))]
  exact hs.setThd (.inl (h.not_onCpu hpanic (by rw [hz]; decide)))

theorem Stacked.freeAll {P : ThdPtr → Thread → Prop} [∀ u, DecidablePred (P u)]
    (hP : ∀ u, P u (s.thread u) → (s.thread u).state = .zombie) : Stacked (s.freeAll P) := by
  refine hs.frame (freeAll_cpu P s) (fun d u hu => ?_) (fun q _ _ _ _ => by rw [freeAll_proc])
    (fun d hd => ?_) fun hp => (freeAll_panic_iff (by decide)).mp hp
  · rw [freeAll_thread, if_neg fun h0 => h.not_onCpu hpanic (by rw [hP u h0]; decide) d hu]
  · exact freeAll_induct P (motive := fun s' => s'.lock = some d → s.lock = some d) id
      (fun s' v hs' _ hl => hs' (by unfold Kernel.freeThd Kernel.kfree at hl; split at hl <;> exact hl)) hd

theorem Stacked.reap (hall : s.AllZombie q) : Stacked (s.reap q) := by
  have hfree := hs.freeAll h hpanic (P := fun _ r => r.mp = some q) hall
  have hcpu := freeAll_cpu (fun _ r => r.mp = some q) s
  rw [reap_eq]
  generalize s.freeAll (fun _ r => r.mp = some q) = w at hfree hcpu
  refine hfree.frame rfl (fun _ _ _ => rfl) (fun r d u hr hu => ?_) (fun _ => id) id
  rw [hcpu] at hr hu
  have hrq : r ≠ q := by
    rintro rfl
    obtain ⟨hrun, hmp⟩ := (h.cpus hpanic).running d u (by simp) hu
    have hz := hall u (hmp.symm.trans hr)
    rw [hrun] at hz
    cases hz
  rw [setProc_proc, if_neg hrq]

/-- `switchuvm` on behalf of the thread that the cursor names. -/
theorem Stacked.switchuvm (hthd : (s.cpu c).thd = some t) (hpin : (s.proc p).pin = some t) :
    Stacked (s.switchuvm c p) := by
  have hrun := ((h.cpus hpanic).running c t (by simp) hthd).1
  have hk : (s.thread t).kstack ≠ none := h.stack t (.inl (by rw [hrun]; decide))
  obtain ⟨stack, hstack⟩ := Option.ne_none_iff_exists'.mp hk
  rw [switchuvm_of_pin hpin hstack]
  refine ⟨fun d u hu => ?_, fun d r u hl hr hu => ?_, hs.found⟩
  · rw [setCpu_cpu] at hu ⊢
    split at hu
    · rename_i hdc
      rw [if_pos hdc]
      change (s.cpu c).thd = some u at hu
      obtain rfl : t = u := Option.some.inj (hthd.symm.trans hu)
      exact hstack.symm
    · rename_i hdc
      rw [if_neg hdc]
      exact hs.esp0 d u hu
  · rw [setCpu_cpu] at hr hu
    split at hu
    · rename_i hdc
      rw [if_pos hdc] at hr
      rw [hdc] at hl
      exact hs.cursor c r u hl hr hu
    · rename_i hdc
      rw [if_neg hdc] at hr
      exact hs.cursor d r u hl hr hu

end OnCpu

/-! ## Runs -/

theorem Stacked.asleep (h : Stacked s) (chan : Chan) (k : Pc) : Stacked (s.asleep p t chan k) :=
  ((h.setThd (n := t) (g := fun x => { x with chan := some chan }) (.inr rfl)).setstate _).setPc t k

theorem Stacked.dead (h : Stacked s) : Stacked (s.dead p t) := (h.setstate _).setPc t _

/-- A stretch keeps the stacks, if a `switchuvm` in it finds the cursor at its thread. -/
theorem Stretch.stacked (h : Slots none s) (hpanic : s.panic = none) (hon : s.onCpu c = some (p, t))
    (hs : Stacked s) (hgrow : a = .work c .grow → (s.proc p).pin = some t)
    (hcommit : s.label p t a = .commits → (s.proc p).pin = some t) (hst : Stretch s a c p t s') :
    Stacked s' := by
  have hthd := (onCpu_iff.mp hon).2
  have hslot : ∀ n, (s.pc t).hold.slot = some n → ∀ d, (s.cpu d).thd ≠ some n := fun n hn =>
    h.not_onCpu hpanic (by rw [(h.slot t n hn).1]; decide)
  cases hst with
  | quiet hl hq => exact hq.stacked hs
  | move hl hk hx hhold hq => exact hq.stacked (hs.setPc t _)
  | begins hl ha heq =>
    rw [heq]
    exact hs.setPc t _
  | sleep hl hk hx hj hc hq => exact hq.stacked (hs.asleep _ _)
  | await hl hpc hwoke hq => exact hq.stacked ((hs.setProc rfl).asleep _ _)
  | back hl hpc hq => exact hq.stacked ((hs.setProc rfl).setPc t _)
  | commit hl hpc hsib hq =>
    have hset : Slots none (s.setExited p false) := h.setProc_same rfl
    have hfree := (hs.setProc (q := p) (f := fun q => { q with exited := false }) rfl).freeAll hset hpanic
      (P := fun u r => u ≠ t ∧ r.mp = some p ∧ r.state = .zombie) fun u hu => hu.2.2
    have hslots := hset.freeAll (P := fun u r => u ≠ t ∧ r.mp = some p ∧ r.state = .zombie)
      (fun u hu => hu.2.2) fun u r hu => by
        rw [hu.2.1]
        simp
    have hp : ((s.setExited p false).freeAll fun u r =>
        u ≠ t ∧ r.mp = some p ∧ r.state = .zombie).panic = none := by
      rw [Option.eq_none_iff_forall_ne_some]
      intro m hm
      by_cases hm' : m = .kfree
      · exact hslots.kfree (hm' ▸ hm)
      · have h0 := (freeAll_panic_iff hm').mp hm
        rw [setProc_panic, hpanic] at h0
        cases h0
    have hthd' : (((s.setExited p false).freeAll fun u r =>
        u ≠ t ∧ r.mp = some p ∧ r.state = .zombie).cpu c).thd = some t := by
      rw [freeAll_cpu]
      exact hthd
    refine hq.stacked ((hfree.switchuvm hslots hp hthd' ?_).setPc t _)
    rw [freeAll_proc, setProc_proc, if_pos rfl]
    exact hcommit hl
  | finish hl hsib h₁ hnear hq => exact hq.stacked (h₁.stacked (hs.setProc rfl)).dead
  | die hl heax hwoke hq => exact hq.stacked hs.dead
  | kill hl hpc hwoke hq => exact hq.stacked ((hs.setProc rfl).setPc t _)
  | misbehave hl hpc hq => exact hq.stacked ((hs.setProc rfl).setPc t _)
  | join hl hu hpc hq =>
    have hz := List.find?_some hu
    simp only [decide_eq_true_eq] at hz
    exact hq.stacked ((hs.freeThd h hpanic hz.2.2).setPc t _)
  | reap hl hz hall hq => exact hq.stacked ((hs.reap h hpanic hall).setPc t _)
  | allocproc hl hnp hq => exact hq.stacked ((hs.setProc rfl).setPc t _)
  | forkFail hl hnp howned hq => exact hq.stacked ((hs.setProc rfl).setPc t _)
  | @alloc n k hl hpc hn heq =>
    rw [heq]
    have hset : Stacked (s.setThd n fun x => { x with state := .embryo, tid := s.nexttid }) :=
      hs.setThd (.inr rfl)
    exact ⟨hset.esp0, hset.cursor, hset.found⟩
  | stack hl hpc heq =>
    rw [heq]
    exact (hs.setThd (.inl (hslot _ (by rw [hpc]; rfl)))).setPc t _
  | own hl ha hpc heq =>
    rw [heq, allocOwner_eq]
    exact ((hs.setPc _ _).setThd (.inr rfl)).setPc t _
  | fail hl hslot' hq => exact hq.stacked ((hs.setThd (.inl (hslot _ hslot'))).setPc t _)
  | failFork hl hslot' hnp howned hq =>
    exact hq.stacked (((hs.setThd (.inl (hslot _ hslot'))).setProc rfl).setPc t _)
  | start hl hslot' howned hstacked hplaced hmpn hq =>
    exact hq.stacked (((hs.setThd (.inr rfl)).setProc rfl).setPc t _)
  | grow hl ha heq =>
    rw [heq]
    exact hs.switchuvm h hpanic hthd (hgrow ha)

theorem Stacked.step (h : Slots none s) (hs : Stacked s) (hok : ReapsDead s a) (hpins : PinsCaller s a)
    (hstep : s.step a = some s') : Stacked s' := by
  rcases h.step_cases hok hstep with ⟨hq, -⟩ | ⟨c, p, t, s₁, ha, hon, hq, hnear, h₁, hp₁, hon₁, hst⟩
  · exact hq.stacked hs
  · refine hst.stacked h₁ hp₁ hon₁ (hq.stacked hs) (fun hgrow => ?_) fun hcommit => ?_
    · subst hgrow
      rw [hnear.pin]
      exact hpins (p, t) hon
    · rcases label_commits hcommit with ⟨d, ok, page, rfl, -⟩ | ⟨d, rfl, -⟩
      · cases ha
        rw [hnear.pin]
        exact hpins (p, t) hon ((hq.label p t _).symm.trans hcommit)
      · cases ha
        -- the lock has been held since the cursor moved to this thread
        refine (hq.stacked hs).cursor c p t ?_ (onCpu_iff.mp hon₁).1 (onCpu_iff.mp hon₁).2
        rw [hnear.lock, step_resume_lock hstep]

theorem boot_stacked : Stacked boot :=
  ⟨fun _ _ h => (by cases h), fun _ _ _ h => (by cases h), fun h => by cases h⟩

/-- In every run in which `growproc` and `exec` find the cursor of their process at their own
thread, each CPU takes its traps on the kernel stack of the thread it runs, and `switchuvm` finds
a kernel stack. -/
theorem traps_on_own_stack (h : Reaches Kernel.step (fun s a => ReapsDead s a ∧ PinsCaller s a) boot s) :
    (∀ c t, (s.cpu c).thd = some t → (s.cpu c).esp0 = (s.thread t).kstack) ∧
      (s.panic = none → ∀ c t, (s.cpu c).thd = some t → (s.cpu c).esp0 ≠ none) ∧
      s.panic ≠ some .switchuvmNoKstack := by
  have hboth : Slots none s ∧ Stacked s := by
    refine h.invariant (motive := fun s => Slots none s ∧ Stacked s) ⟨boot_slots, boot_stacked⟩ ?_
    rintro s a s' ⟨hslots, hstacked⟩ ⟨hreap, hpins⟩ hstep
    exact ⟨hslots.step hreap hstep, hstacked.step hslots hreap hpins hstep⟩
  obtain ⟨hslots, hstacked⟩ := hboth
  refine ⟨hstacked.esp0, fun hpanic c t ht => ?_, hstacked.found⟩
  have hrun := ((hslots.cpus hpanic).running c t (by simp) ht).1
  rw [hstacked.esp0 c t ht]
  exact hslots.stack t (.inl (by rw [hrun]; decide))

instance (s : Kernel) (a : Act) : Decidable (s.PinsCaller a) :=
  match a with
  | .work c .grow => (s.onCpu c).decidableForallMem
  | .kstep c _ _ => (s.onCpu c).decidableForallMem
  | .work _ (.sleep _) | .work _ (.wakeup _) | .work _ .path | .work _ (.chdir _)
  | .work _ (.ofile _ _) | .work _ (.done _) => inferInstanceAs (Decidable True)
  | .dispatch _ | .resume _ | .preempt _ | .intrWakeup _ | .trap _ _ | .syscall _ _ =>
    inferInstanceAs (Decidable True)

/-- `init` starts a second thread on another CPU. -/
def pairRun : List Act :=
  [.dispatch 0, .resume 0, .syscall 0 .threadCreate] ++ ksteps 0 7 ++ [.dispatch 1, .resume 1]

/-- The thread on CPU `c` calls `sbrk`. -/
def sbrkActs (c : CpuId) : List Act := [.syscall c .other, .work c .grow, .work c (.done 0)] ++ ksteps c 1

/-- The second thread leaves and the first one joins it. -/
def joinActs : List Act :=
  [.syscall 1 (.threadExit 0)] ++ ksteps 1 2 ++ [.syscall 0 (.threadJoin 2)] ++ ksteps 0 2

/-- The second thread calls `sbrk`, while the cursor is at it. -/
theorem traps_on_own_stack_sbrk :
    ∃ s, Reaches Kernel.step (fun s a => ReapsDead s a ∧ PinsCaller s a) boot s ∧
      (s.cpu 1).esp0 = (s.thread 1).kstack ∧ s.pc 1 = .user := by
  obtain ⟨s, hreach, hthd, hpc⟩ := boot_reaches (fun s a => ReapsDead s a ∧ PinsCaller s a)
    (pairRun ++ sbrkActs 1) (fun s => (s.cpu 1).thd = some 1 ∧ s.pc 1 = .user) (by decide +kernel)
  exact ⟨s, hreach, (traps_on_own_stack hreach).1 1 1 hthd, hpc⟩

/-- The first thread calls `sbrk` after the scheduler has picked the second one: it returns to user
mode with the second one's kernel stack for its traps. When the second thread has left and has been
joined, `switchuvm` finds no stack at all, in `sbrk` and in `exec`. -/
theorem switchuvm_at_cursor :
    (∃ s, Reaches Kernel.step ReapsDead boot s ∧ (s.cpu 0).thd = some 0 ∧ s.pc 0 = .user ∧
      (s.cpu 1).thd = some 1 ∧ (s.cpu 0).esp0 = (s.thread 1).kstack ∧
      (s.cpu 0).esp0 ≠ (s.thread 0).kstack) ∧
    (∃ s, Reaches Kernel.step ReapsDead boot s ∧ (s.cpu 0).thd = some 0 ∧
      s.panic = some .switchuvmNoKstack ∧ s.pc 0 = .kernel) ∧
    ∃ s, Reaches Kernel.step ReapsDead boot s ∧ (s.cpu 0).thd = some 0 ∧
      s.panic = some .switchuvmNoKstack ∧ s.pc 0 = .sysret := by
  refine ⟨?_, ?_, ?_⟩
  · exact boot_reaches _ (pairRun ++ sbrkActs 0) (fun s => (s.cpu 0).thd = some 0 ∧ s.pc 0 = .user ∧
      (s.cpu 1).thd = some 1 ∧ (s.cpu 0).esp0 = (s.thread 1).kstack ∧
      (s.cpu 0).esp0 ≠ (s.thread 0).kstack) (by decide +kernel)
  · exact boot_reaches _ (pairRun ++ joinActs ++ [.syscall 0 .other, .work 0 .grow])
      (fun s => (s.cpu 0).thd = some 0 ∧ s.panic = some .switchuvmNoKstack ∧ s.pc 0 = .kernel)
      (by decide +kernel)
  · exact boot_reaches _ (pairRun ++ joinActs ++ [.syscall 0 (.exec false)] ++ ksteps 0 2)
      (fun s => (s.cpu 0).thd = some 0 ∧ s.panic = some .switchuvmNoKstack ∧ s.pc 0 = .sysret)
      (by decide +kernel)

end Kernel

end Xv6
