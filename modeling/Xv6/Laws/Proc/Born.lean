import Xv6.Laws.Proc.Block

/-!
# The flags a new process is born with

`fork` does not write `killed` and `exited`: it relies on the slot it finds. `wait` clears
`killed` when it reaps the previous owner, and `allthdexit` clears `exited` before its caller
dies. `kill` looks at the pid alone, so an UNUSED slot, or one that a `fork` is filling in, can be
struck as well (`KillsStarted` says that it is not). `Unmarked` is what `fork` then relies on.
-/

namespace Xv6

open Xv6.Lib

/-- Asleep in `allthdexit`. -/
def Pc.awaits : Pc → Bool
  | .exitSleep _ | .execSleep => true
  | _ => false

namespace Kernel

variable {s s' m : Kernel} {a : Act} {x y : Option CpuId} {p q np : ProcPtr} {t u n : ThdPtr}
  {c : CpuId} {k : Pc} {pid : Word}

/-- The slots `fork` takes its processes from have no flag set, and neither have the processes it
is filling in; who has set `exited` is still there to clear it. -/
structure Unmarked (s : Kernel) : Prop where
  vacant : ∀ q, (s.proc q).state = .unused → (s.proc q).killed = false ∧ (s.proc q).exited = false
  child : ∀ t np, (s.pc t).hold.np = some np →
    (s.proc np).killed = false ∧ (s.proc np).exited = false
  ends : ∀ q, (s.proc q).exited = true → ∃ t, (s.thread t).mp = some q ∧ (s.pc t).awaits

/-- The process that `kill` finds is neither UNUSED nor still being made by `fork`. -/
def KillsStarted (s : Kernel) (a : Act) : Prop :=
  ∀ q ∈ s.killTarget a, (s.proc q).state ≠ .unused ∧ (s.proc q).state ≠ .embryo

instance (s : Kernel) : DecidablePred s.KillsStarted :=
  fun a => inferInstanceAs (Decidable (∀ q ∈ s.killTarget a, _))

/-! ## What a stretch does to a process -/

theorem Quiet.unused (h : Quiet x y s s') (hq : (s'.proc q).state = .unused) :
    (s.proc q).state = .unused := by
  rcases h.proc q with e | ⟨hne, -⟩
  · exact e.symm.trans hq
  · exact absurd hq hne

theorem Quiet.unmarked (h : Quiet x y s s') (hc : Unmarked s) : Unmarked s' where
  vacant q hq := by
    rw [(h.flags q).1, (h.flags q).2]
    exact hc.vacant q (h.unused hq)
  child t np hnp := by
    rw [h.pc] at hnp
    rw [(h.flags np).1, (h.flags np).2]
    exact hc.child t np hnp
  ends q hq := by
    rw [(h.flags q).2] at hq
    obtain ⟨t, hmp, hw⟩ := hc.ends q hq
    exact ⟨t, (h.thd t).mp.trans hmp, by rw [h.pc]; exact hw⟩

/-- What a stretch of thread `t` of `p` does to the flags of process `q`, and whether it frees its
slot. -/
inductive Fate (s : Kernel) (p : ProcPtr) (t : ThdPtr) (s' : Kernel) (q : ProcPtr) : Prop
  | kept (hk : (s'.proc q).killed = (s.proc q).killed) (he : (s'.proc q).exited = (s.proc q).exited)
      (hu : (s'.proc q).state = .unused → (s.proc q).state = .unused ∨ (s.pc t).hold.np = some q)
  | struck {pid : Word} (hpc : s.pc t = .kill pid) (he : (s'.proc q).exited = (s.proc q).exited)
      (hu : (s'.proc q).state = .unused → (s.proc q).state = .unused)
  | own (hq : q = p) (he : (s'.proc q).exited = true → (s.proc q).exited = true ∨ (s'.pc t).awaits)
  | reaped (hk : (s'.proc q).killed = false) (he : (s'.proc q).exited = (s.proc q).exited)
      (hall : s.AllZombie q)

/-- Scheduling after the state `m`, in which `q` is as it was. -/
theorem Fate.quiet (h : Quiet x y m s') (hm : m.proc q = s.proc q) : Fate s p t s' q := by
  refine .kept ?_ ?_ fun hu => .inl ?_
  · rw [(h.flags q).1, hm]
  · rw [(h.flags q).2, hm]
  · rw [← hm]
    exact h.unused hu

theorem Fate.same (h : s'.proc = s.proc) : Fate s p t s' q :=
  .quiet (.refl none s') (congrFun h q)

theorem switchuvm_proc : (s.switchuvm c p).proc = s.proc := by
  unfold switchuvm
  split
  · rfl
  · split <;> rfl

theorem setstate_other {st : ProcState} (hq : q ≠ p) : (s.setstate p t st).proc q = s.proc q := by
  unfold setstate
  dsimp only
  split <;> rw [setProc_proc, if_neg hq] <;> rfl

/-- `fork` gives its process back. -/
theorem Fate.dropped (hnp : (s.pc t).hold.np = some np)
    (h : Quiet x y m s') (hm : m.proc = (s.setProc np fun r => { r with state := .unused }).proc) :
    Fate s p t s' q := by
  by_cases hq : q = np
  · subst hq
    refine .kept ?_ ?_ fun _ => .inr hnp
    · rw [(h.flags q).1, hm, setProc_proc, if_pos rfl]
    · rw [(h.flags q).2, hm, setProc_proc, if_pos rfl]
  · refine .quiet h ?_
    rw [hm, setProc_proc, if_neg hq]

/-- A process starts to be made, or to run. -/
theorem Fate.raised (st : ProcState) (hst : st ≠ .unused) (h : Quiet x y m s')
    (hm : m.proc = (s.setProc np fun r => { r with state := st }).proc) : Fate s p t s' q := by
  by_cases hq : q = np
  · subst hq
    refine .kept ?_ ?_ fun hu => absurd (h.unused hu) ?_
    · rw [(h.flags q).1, hm, setProc_proc, if_pos rfl]
    · rw [(h.flags q).2, hm, setProc_proc, if_pos rfl]
    · rw [hm, setProc_proc, if_pos rfl]
      exact hst
  · refine .quiet h ?_
    rw [hm, setProc_proc, if_neg hq]

theorem Stretch.fate (hst : Stretch s a c p t s') (q : ProcPtr) : Fate s p t s' q := by
  cases hst with
  | quiet hl hq | move hl hk hx hhold hq => exact .quiet hq rfl
  | begins hl ha heq | alloc hl hpc hn heq | stack hl hpc heq => exact .same (heq ▸ rfl)
  | grow hl ha heq => exact .same (by rw [heq, switchuvm_proc])
  | @own n k _ _ hl ha hpc heq => exact .same (by rw [heq]; cases k <;> rfl)
  | join hl hu hpc hq => exact .quiet hq (by rw [setPc_proc, freeThd_proc])
  | fail hl hslot hq => exact .quiet hq rfl
  | forkFail hl hnp howned hq => exact .dropped hnp hq rfl
  | failFork hl hslot hnp howned hq => exact .dropped hnp hq rfl
  | allocproc hl hnp hq => exact .raised .embryo (by decide) hq rfl
  | start hl hslot howned hstacked hplaced hmp hq => exact .raised .runnable (by decide) hq rfl
  | @reap r hl hz hall hq =>
    by_cases hqr : q = r
    · subst hqr
      refine .reaped ?_ ?_ hall
      · rw [(hq.flags q).1, setPc_proc, reap_eq, setProc_proc, if_pos rfl]
        rfl
      · rw [(hq.flags q).2, setPc_proc, reap_eq, setProc_proc, if_pos rfl, freeAll_proc]
        rfl
    · refine .quiet hq ?_
      rw [setPc_proc, reap_eq, setProc_proc, if_neg hqr, freeAll_proc]
  | @kill r pid hl hpc hwoke hq =>
    refine .struck hpc ?_ fun hu => ?_
    · rw [(hq.flags q).2, setPc_proc, setProc_proc]
      split
      · rename_i hqr
        rw [hqr]
      · rfl
    · have hu' := hq.unused hu
      rw [setPc_proc, setProc_proc] at hu'
      split at hu'
      · rename_i hqr
        rw [hqr]
        exact hu'
      · exact hu'
  | misbehave hl hpc hq =>
    by_cases hqp : q = p
    · subst hqp
      refine .own rfl fun he => .inl ?_
      rw [(hq.flags q).2, setPc_proc, setProc_proc, if_pos rfl] at he
      exact he
    · refine .quiet hq ?_
      rw [setPc_proc, setProc_proc, if_neg hqp]
  | sleep hl hk hx hj hc hq =>
    by_cases hqp : q = p
    · subst hqp
      refine .own rfl fun he => .inl ?_
      rw [(hq.flags q).2, Kernel.asleep, setPc_proc, setstate_flags.2] at he
      exact he
    · refine .quiet hq ?_
      rw [Kernel.asleep, setPc_proc, setstate_other hqp]
      rfl
  | await hl hpc hwoke hq =>
    by_cases hqp : q = p
    · subst hqp
      refine .own rfl fun _ => .inr ?_
      rw [hq.pc, Kernel.asleep, setPc_pc, if_pos rfl]
      rcases hpc with ⟨-, rfl⟩ | ⟨-, rfl⟩ <;> rfl
    · refine .quiet hq ?_
      rw [Kernel.asleep, setPc_proc, setstate_other hqp, setThd_proc, setProc_proc, if_neg hqp]
  | back hl hpc hq =>
    by_cases hqp : q = p
    · subst hqp
      refine .own rfl fun he => ?_
      rw [(hq.flags q).2, setPc_proc, setProc_proc, if_pos rfl] at he
      cases he
    · refine .quiet hq ?_
      rw [setPc_proc, setProc_proc, if_neg hqp]
  | commit hl hpc hsib hq =>
    by_cases hqp : q = p
    · subst hqp
      refine .own rfl fun he => ?_
      rw [(hq.flags q).2, setPc_proc, switchuvm_proc, freeAll_proc, setProc_proc, if_pos rfl] at he
      cases he
    · refine .quiet hq ?_
      rw [setPc_proc, switchuvm_proc, freeAll_proc, setProc_proc, if_neg hqp]
  | @finish s₁ hl hsib h₁ hnear hq =>
    by_cases hqp : q = p
    · subst hqp
      refine .own rfl fun he => ?_
      rw [(hq.flags q).2, dead, setPc_proc, setstate_flags.2, (h₁.flags q).2, setProc_proc,
        if_pos rfl] at he
      cases he
    · have hproc : (s₁.dead p t).proc q = s₁.proc q := by
        rw [dead, setPc_proc, setstate_other hqp]
      have hset : (s.setExited p false).proc q = s.proc q := by
        rw [setProc_proc, if_neg hqp]
      refine .kept ?_ ?_ fun hu => .inl ?_
      · rw [(hq.flags q).1, hproc, (h₁.flags q).1, hset]
      · rw [(hq.flags q).2, hproc, (h₁.flags q).2, hset]
      · rw [← hset]
        exact h₁.unused (hproc ▸ hq.unused hu)
  | die hl heax hwoke hq =>
    by_cases hqp : q = p
    · subst hqp
      refine .own rfl fun he => .inl ?_
      rw [(hq.flags q).2, dead, setPc_proc, setstate_flags.2] at he
      exact he
    · refine .quiet hq ?_
      rw [dead, setPc_proc, setstate_other hqp]

/-- Who is filling in a process after a stretch did so before, or has just taken an UNUSED slot. -/
theorem Stretch.filling (hst : Stretch s a c p t s') (hnp : (s'.pc u).hold.np = some np) :
    (s.pc u).hold.np = some np ∨ (s.proc np).state = .unused := by
  by_cases hu : u = t
  · subst hu
    cases hst.lands with
    | same _ _ hhold =>
      rcases hhold with h0 | ⟨h0, -⟩
      · rw [h0] at hnp
        cases hnp
      · exact .inl (h0.symm.trans hnp)
    | sleep _ hold | clear hold =>
      rw [hold] at hnp
      cases hnp
    | allocproc hpc hvacant =>
      rw [hpc] at hnp
      cases hnp
      exact .inr hvacant
    | filling hkeep => exact .inl (hkeep.symm.trans hnp)
  · rcases hst.pc_other hu with h0 | ⟨h0, -⟩
    · rw [h0] at hnp
      exact .inl hnp
    · rw [h0] at hnp
      cases hnp

/-! ## Two steps in particular -/

/-- The end of `exit` leaves the flag as it is. -/
theorem exitFinish_exited (hm : Slots none m) (hcpu : m.onCpu c = some (p, t)) :
    ((m.exitFinish c p t).proc p).exited = (m.proc p).exited := by
  have hwake : Quiet none none m (m.wakeup1 ((m.proc p).parent.map .proc)) := quiet_wakeup1 _
  obtain ⟨hquiet, hnear⟩ := (hwake.slots hm).abandon p (List.finRange NPROC)
  have hnear' := (hm.wakeup1_near ((m.proc p).parent.map .proc)).trans hnear
  have hflags := (hwake.trans hquiet).flags p
  have heq : m.exitFinish c p t = (((List.finRange NPROC).foldl (abandon p)
      (m.wakeup1 ((m.proc p).parent.map .proc))).dead p t).sched c p t := rfl
  rw [heq]
  generalize (List.finRange NPROC).foldl (abandon p) _ = w at hflags hnear'
  have hpark : Quiet (some c) none (w.dead p t) ((w.dead p t).sched c p t) := by
    refine quiet_park hcpu ?_
    show (w.setstate p t .zombie).cpu = m.cpu
    rw [setstate_cpu, hnear'.cpu]
  rw [(hpark.flags p).2, dead, setPc_proc, setstate_flags.2]
  exact hflags.2

theorem sleep_pc {chan : Chan} (hcpu : m.onCpu c = some (p, t)) :
    (m.sleep c p t chan k).pc t = k := by
  have hq : Quiet (some c) none (m.asleep p t chan k) (m.sleep c p t chan k) :=
    quiet_park hcpu (by simp [asleep])
  rw [hq.pc, asleep, setPc_pc, if_pos rfl]

/-- A round of `allthdexit` in `exit`. -/
theorem exitRound_awaits (hm : Slots none m) (hcpu : m.onCpu c = some (p, t)) (e : ExitCaller) :
    ((exitRound c p t e (m.allthdRound p t)).proc p).exited = false ∨
      ((exitRound c p t e (m.allthdRound p t)).pc t).awaits := by
  obtain ⟨-, heq⟩ | ⟨-, heq⟩ | ⟨-, heq⟩ := allthdRound_cases
  · rw [heq]
    refine .inl ?_
    unfold exitRound
    rw [exitFinish_exited (hm.setProc_same rfl) hcpu, setProc_proc, if_pos rfl]
  · rw [heq]
    refine .inl ?_
    unfold exitRound
    rw [release_proc]
    cases e <;> simp [exitReturn, ret]
  · rw [heq]
    refine .inr ?_
    show ((m.sleep c p t (.proc p) (.exitSleep e)).pc t).awaits
    rw [sleep_pc hcpu]
    rfl

/-- A round of `allthdexit` in `exec`. -/
theorem execRound_awaits (hcpu : m.onCpu c = some (p, t)) :
    ((execRound c p t (m.allthdRound p t)).proc p).exited = false ∨
      ((execRound c p t (m.allthdRound p t)).pc t).awaits := by
  obtain ⟨-, heq⟩ | ⟨-, heq⟩ | ⟨-, heq⟩ := allthdRound_cases
  · rw [heq]
    refine .inl ?_
    have hfree := freeAll_proc (s := m.setExited p false)
      (P := fun u r => u ≠ t ∧ r.mp = some p ∧ r.state = .zombie)
    unfold execRound execFinish ret
    rw [release_proc, setPc_proc, setThd_proc, switchuvm_proc]
    refine (congrArg Proc.exited (congrFun hfree p)).trans ?_
    rw [setProc_proc, if_pos rfl]
  · rw [heq]
    refine .inl ?_
    show ((m.setExited p false).proc p).exited = false
    rw [setProc_proc, if_pos rfl]
  · rw [heq]
    refine .inr ?_
    show ((m.sleep c p t (.proc p) .execSleep).pc t).awaits
    rw [sleep_pc hcpu]
    rfl

theorem killTarget_kstep {ok : Bool} {page : Option Nat} (hon : s.onCpu c = some (p, t))
    (hpc : s.pc t = .kill pid) : s.killTarget (.kstep c ok page) =
      (List.finRange NPROC).find? fun q => (s.proc q).pid = pid := by
  unfold killTarget
  simp only [hon, Option.bind_some, hpc, Pc.killPid]

section Step

variable (h : Slots none s) (hs : s.step a = some s') (ha : a.cpu = some c)
  (hon : s.onCpu c = some (p, t))

include hs ha hon

include h

/-- `kill` strikes the process that it finds. -/
theorem Slots.kill_strikes (hpc : s.pc t = .kill pid) (hk : (s'.proc q).killed = true) :
    (s.proc q).killed = true ∨ s.killTarget a = some q := by
  have hpanic := step_panic hs
  rcases step_inside hs ha hon (by simp [hpc]) (by simp [hpc])
    with ⟨ok, page, rfl, hkill⟩ | ⟨rfl, hres⟩ | ⟨hrun, hyield⟩
  · unfold kstep at hkill
    simp only [hpc, Option.ite_none_right_eq_some, Option.some.injEq] at hkill
    rw [killTarget_kstep hon hpc]
    rw [← hkill.2] at hk
    unfold kill at hk
    split at hk
    · rename_i r hfind
      rw [ret, setPc_proc, setThd_proc] at hk
      have hq := quiet_wakeThds (x := none) (s := s.setProc r fun x => { x with killed := true }) r
      rw [(hq.flags q).1, setProc_proc] at hk
      split at hk
      · rename_i hqr
        exact .inr (by rw [hqr, hfind])
      · exact .inl hk
    · exact .inl hk
  · unfold resume at hres
    simp only [hpc] at hres
    rw [← hres] at hk
    exact .inl hk
  · obtain ⟨hproc, hthd⟩ := onCpu_iff.mp hon
    have hq := quiet_yield hproc hthd (h.onCpu hpanic hon).2 hrun
    rw [← hyield, (hq.flags q).1] at hk
    exact .inl hk

/-- Who is woken in `allthdexit` clears the flag, or goes back to sleep. -/
theorem Slots.awaits_step (hw : (s.pc t).awaits) :
    (s'.proc p).exited = false ∨ (s'.pc t).awaits := by
  have hpanic := step_panic hs
  rcases step_inside hs ha hon (fun h0 => by rw [h0] at hw; cases hw)
    (fun _ _ h0 => by rw [h0] at hw; cases hw) with ⟨ok, page, rfl, hk⟩ | ⟨rfl, hres⟩ | ⟨hrun, hyield⟩
  · -- the thread does not go on with its call
    unfold kstep at hk
    cases hpc : s.pc t
    all_goals rw [hpc] at hw hk
    case exitSleep e => cases hk
    case execSleep => cases hk
    all_goals cases hw
  · have hquiet := quiet_awake h hpanic hon
    have hslots := hquiet.slots h
    have hon' : (s.setThd t fun x => { x with chan := none }).onCpu c = some (p, t) := hon
    rw [← hres]
    unfold resume
    dsimp only
    generalize s.setThd t (fun x => { x with chan := none }) = m at hslots hon'
    cases hpc : s.pc t
    case exitSleep e => exact exitRound_awaits hslots hon' e
    case execSleep => exact execRound_awaits hon'
    all_goals
      rw [hpc] at hw
      cases hw
  · obtain ⟨hproc, hthd⟩ := onCpu_iff.mp hon
    have hq := quiet_yield hproc hthd (h.onCpu hpanic hon).2 hrun
    rw [← hyield, hq.pc]
    exact .inr hw

end Step

/-! ## Runs -/

/-- The process of the thread that acts is neither vacant nor being made. -/
theorem Slots.acting (h : Slots none s) (hpanic : s.panic = none) (hon : s.onCpu c = some (p, t)) :
    (s.proc p).state ≠ .unused ∧ ∀ u, (s.pc u).hold.np ≠ some p := by
  obtain ⟨hrun, hmp⟩ := h.onCpu hpanic hon
  refine ⟨fun hu => h.vacant p hu t hmp, fun u hnp => ?_⟩
  have hslot := ((h.child u p hnp).2 t hmp).1
  rw [(h.slot u t hslot).1] at hrun
  cases hrun

theorem Slots.live_of_awaits (h : Slots none s) (hw : (s.pc t).awaits) :
    .embryo < (s.thread t).state := by
  refine h.awake t ?_ ?_
  · intro h0
    rw [h0] at hw
    cases hw
  · intro h0
    rw [h0] at hw
    cases hw

/-- A step keeps the slots clean, if `kill` strikes only processes that `fork` has finished. -/
theorem Unmarked.step (hc : Unmarked s) (h : Slots none s) (hok : ReapsDead s a) (hkill : KillsStarted s a)
    (hs : s.step a = some s') : Unmarked s' := by
  rcases h.step_cases hok hs with ⟨hq, -⟩ | ⟨c, p, t, s₁, ha, hon, hq, -, h₁, hp₁, hon₁, hst⟩
  · exact hq.unmarked hc
  have hc₁ := hq.unmarked hc
  obtain ⟨hused, hmade⟩ := h₁.acting hp₁ hon₁
  -- `kill` does not reach the slots in question
  have hstrike : ∀ q pid, s₁.pc t = .kill pid →
      (s₁.proc q).state = .unused ∨ (∃ u, (s₁.pc u).hold.np = some q) →
      (s₁.proc q).killed = false → (s'.proc q).killed = false := by
    intro q pid hpc hwhere hclear
    rw [← Bool.not_eq_true]
    intro hk
    rcases h.kill_strikes hs ha hon (by rw [← hq.pc]; exact hpc) hk with h0 | h0
    · rw [(hq.flags q).1, h0] at hclear
      cases hclear
    · obtain ⟨hne, hne'⟩ := hkill q h0
      rcases hwhere with hu | ⟨u, hnp⟩
      · exact hne (hq.unused hu)
      · rw [hq.pc] at hnp
        exact hne' (h.child u q hnp).1
  refine ⟨fun q hu => ?_, fun u np hnp => ?_, fun q he => ?_⟩
  · rcases hst.fate q with ⟨hk, he, hwas⟩ | ⟨hpc, he, hwas⟩ | ⟨hqp, -⟩ | ⟨hk, he, hall⟩
    · rw [hk, he]
      rcases hwas hu with h0 | h0
      · exact hc₁.vacant q h0
      · exact hc₁.child t q h0
    · obtain ⟨hk₁, he₁⟩ := hc₁.vacant q (hwas hu)
      exact ⟨hstrike q _ hpc (.inl (hwas hu)) hk₁, he.trans he₁⟩
    · -- the process that acts keeps its thread
      subst hqp
      obtain ⟨hrun, hmp⟩ := h₁.onCpu hp₁ hon₁
      have hmp' := (hst.mp_live h₁ (u := t) (by rw [hrun]; decide)).trans hmp
      exact absurd hmp' ((h.step hok hs).vacant q hu t)
    · refine ⟨hk, he.trans ?_⟩
      rw [← Bool.not_eq_true]
      intro hex
      obtain ⟨u, hmp, hw⟩ := hc₁.ends q hex
      have hlive := h₁.live_of_awaits hw
      rw [hall u hmp] at hlive
      exact absurd hlive (by decide)
  · have hwhere := hst.filling hnp
    have hclear : (s₁.proc np).killed = false ∧ (s₁.proc np).exited = false := by
      rcases hwhere with h0 | h0
      · exact hc₁.child u np h0
      · exact hc₁.vacant np h0
    rcases hst.fate np with ⟨hk, he, -⟩ | ⟨hpc, he, -⟩ | ⟨hnpp, -⟩ | ⟨hk, he, -⟩
    · rw [hk, he]
      exact hclear
    · refine ⟨hstrike np _ hpc ?_ hclear.1, he.trans hclear.2⟩
      exact hwhere.symm.imp id fun h0 => ⟨u, h0⟩
    · subst hnpp
      rcases hwhere with h0 | h0
      · exact absurd h0 (hmade u)
      · exact absurd h0 hused
    · exact ⟨hk, he.trans hclear.2⟩
  · have hold : (s₁.proc q).exited = true ∨ q = p ∧ (s'.pc t).awaits := by
      rcases hst.fate q with ⟨-, he', -⟩ | ⟨-, he', -⟩ | ⟨hqp, he'⟩ | ⟨-, he', -⟩
      · exact .inl (he'.symm.trans he)
      · exact .inl (he'.symm.trans he)
      · exact (he' he).imp id fun h0 => ⟨hqp, h0⟩
      · exact .inl (he'.symm.trans he)
    obtain ⟨hrun, hmp⟩ := h₁.onCpu hp₁ hon₁
    have hmp' := (hst.mp_live h₁ (u := t) (by rw [hrun]; decide)).trans hmp
    rcases hold with hex | ⟨rfl, hw⟩
    · obtain ⟨u, hu, hw⟩ := hc₁.ends q hex
      have hlive := h₁.live_of_awaits hw
      by_cases hut : u = t
      · -- the thread that waits has acted
        subst hut
        obtain rfl : p = q := Option.some.inj (hmp.symm.trans hu)
        rcases h.awaits_step hs ha hon (by rw [← hq.pc]; exact hw) with h0 | h0
        · rw [h0] at he
          cases he
        · exact ⟨u, hmp', h0⟩
      · refine ⟨u, (hst.mp_live h₁ hlive).trans hu, ?_⟩
        rcases hst.pc_other hut with h0 | ⟨-, hslot⟩
        · rw [h0]
          exact hw
        · rw [(h₁.slot t u hslot).1] at hlive
          exact absurd hlive (by decide)
    · exact ⟨t, hmp', hw⟩

theorem boot_unmarked : Unmarked boot := by
  have hflags : ∀ q, (boot.proc q).killed = false ∧ (boot.proc q).exited = false := by
    intro q
    unfold boot
    dsimp only
    split <;> exact ⟨rfl, rfl⟩
  refine ⟨fun q _ => hflags q, fun _ q _ => hflags q, fun q hq => ?_⟩
  rw [(hflags q).2] at hq
  cases hq

/-- The steps of a run in which `kill` strikes only processes that `fork` has finished, and `wait`
reaps only processes without a live thread. -/
def StrikesStarted (s : Kernel) (a : Act) : Prop := ReapsDead s a ∧ KillsStarted s a

instance (s : Kernel) : DecidablePred s.StrikesStarted :=
  fun a => inferInstanceAs (Decidable (ReapsDead s a ∧ KillsStarted s a))

theorem unmarked_of_reaches (h : Reaches Kernel.step StrikesStarted boot s) :
    Unmarked s ∧ Slots none s :=
  h.invariant (motive := fun s => Unmarked s ∧ Slots none s) ⟨boot_unmarked, boot_slots⟩
    fun _ _ _ hx hok hs => ⟨hx.1.step hx.2 hok.1 hok.2 hs, hx.2.step hok.1 hs⟩

/-- The last section of `fork`. -/
theorem kstep_forkRun {ok : Bool} {page : Option Nat} (hpc : s.pc t = .forkRun np n)
    (hk : s.kstep c p t ok page = some s') : (s'.proc np).state = .runnable ∧
      (s'.proc np).killed = (s.proc np).killed ∧ (s'.proc np).exited = (s.proc np).exited := by
  unfold kstep at hk
  simp only [hpc, Option.ite_none_right_eq_some, Option.some.injEq] at hk
  rw [← hk.2]
  show ((s.setProc np fun q => { q with state := .runnable }).proc np).state = .runnable ∧
    ((s.setProc np fun q => { q with state := .runnable }).proc np).killed = (s.proc np).killed ∧
    ((s.setProc np fun q => { q with state := .runnable }).proc np).exited = (s.proc np).exited
  rw [setProc_proc, if_pos rfl]
  exact ⟨rfl, rfl, rfl⟩

/-- `kill` returns 0 when it has found a process. -/
theorem kstep_kill {ok : Bool} {page : Option Nat} (hon : s.onCpu c = some (p, t))
    (hpc : s.pc t = .kill pid) (hk : s.kstep c p t ok page = some s')
    (hret : (s'.thread t).eax = 0) :
    ∃ q, s.killTarget (.kstep c ok page) = some q ∧ (s.proc q).pid = pid := by
  unfold kstep at hk
  simp only [hpc, Option.ite_none_right_eq_some, Option.some.injEq] at hk
  rw [killTarget_kstep hon hpc]
  rw [← hk.2] at hret
  unfold kill at hret
  split at hret
  · rename_i q hfind
    have hpid := List.find?_some hfind
    simp only [decide_eq_true_eq] at hpid
    exact ⟨q, hfind, hpid⟩
  · change ((s.setThd t fun x => { x with eax := -1 }).thread t).eax = 0 at hret
    rw [setThd_thread, if_pos rfl] at hret
    have hne : (-1 : Word) ≠ 0 := by decide
    exact absurd hret hne

/-- In every run in which `kill` finds only processes that `fork` has finished, a process that `fork`
makes RUNNABLE has neither flag set; and `kill` returns 0 for the pid of a process that is not
UNUSED. -/
theorem no_process_born_killed (h : Reaches Kernel.step StrikesStarted boot s) :
    (∀ c ok page p t np n s', s.onCpu c = some (p, t) → s.pc t = .forkRun np n →
      s.step (.kstep c ok page) = some s' → (s'.proc np).state = .runnable ∧
        (s'.proc np).killed = false ∧ (s'.proc np).exited = false) ∧
    ∀ c ok page p t pid s', StrikesStarted s (.kstep c ok page) → s.onCpu c = some (p, t) →
      s.pc t = .kill pid → s.step (.kstep c ok page) = some s' → (s'.thread t).eax = 0 →
        ∃ q, (s.proc q).pid = pid ∧ (s.proc q).state ≠ .unused := by
  obtain ⟨hclean, hslots⟩ := unmarked_of_reaches h
  refine ⟨fun c ok page p t np n s' hon hpc hs => ?_,
    fun c ok page p t pid s' hok hon hpc hs hret => ?_⟩
  · obtain ⟨hstate, hk, he⟩ := kstep_forkRun hpc (step_kstep hon hs)
    obtain ⟨hk₀, he₀⟩ := hclean.child t np (by rw [hpc]; rfl)
    exact ⟨hstate, hk.trans hk₀, he.trans he₀⟩
  · obtain ⟨q, htarget, hpid⟩ := kstep_kill hon hpc (step_kstep hon hs) hret
    exact ⟨q, hpid, (hok.2 q htarget).1⟩

/-- `init` forks, kills its child and forks again; the second child is about to be RUNNABLE. -/
def killedSiblingRun : List Act :=
  [.dispatch 0, .resume 0] ++ forkActs 0 ++ [.syscall 0 (.kill 2)] ++ ksteps 0 2 ++
    [.syscall 0 .fork] ++ ksteps 0 23

theorem no_process_born_killed_sibling :
    ∃ s s', Reaches Kernel.step StrikesStarted boot s ∧ (s.proc 1).killed = true ∧
      s.step (.kstep 0 true none) = some s' ∧ (s'.proc 2).state = .runnable ∧
      (s'.proc 2).killed = false ∧ (s'.proc 2).exited = false := by
  obtain ⟨s, hreach, hon, hpc, hkilled, hsome⟩ := boot_reaches StrikesStarted killedSiblingRun
    (fun s => s.onCpu 0 = some (0, 0) ∧ s.pc 0 = .forkRun 2 2 ∧ (s.proc 1).killed = true ∧
      (s.step (.kstep 0 true none)).isSome) (by decide +kernel)
  obtain ⟨s', hs⟩ := Option.isSome_iff_exists.mp hsome
  exact ⟨s, s', hreach, hkilled, hs,
    (no_process_born_killed hreach).1 0 true none 0 0 2 2 s' hon hpc hs⟩

/-- `init` calls `kill(0)`, which finds a slot that was never used, and then forks. -/
def killZeroRun : List Act := [.dispatch 0, .resume 0, .syscall 0 (.kill 0)]

/-- `kill(0)` returns 0 with all processes of pid 0 UNUSED, and the next child is born killed. -/
theorem kill_zero_marks_vacant :
    (∃ s s', Reaches Kernel.step ReapsDead boot s ∧ s.onCpu 0 = some (0, 0) ∧ s.pc 0 = .kill 0 ∧
      (∀ q, (s.proc q).pid = 0 → (s.proc q).state = .unused) ∧
      s.step (.kstep 0 true none) = some s' ∧ (s'.thread 0).eax = 0) ∧
    ∃ s s', Reaches Kernel.step ReapsDead boot s ∧ s.onCpu 0 = some (0, 0) ∧
      s.pc 0 = .forkRun 1 1 ∧ s.step (.kstep 0 true none) = some s' ∧
      (s'.proc 1).state = .runnable ∧ (s'.proc 1).killed = true := by
  constructor
  · obtain ⟨s, hreach, hon, hpc, hvacant, hany⟩ := boot_reaches ReapsDead killZeroRun
      (fun s => s.onCpu 0 = some (0, 0) ∧ s.pc 0 = .kill 0 ∧
        (∀ q, (s.proc q).pid = 0 → (s.proc q).state = .unused) ∧
        (s.step (.kstep 0 true none)).any fun s' => (s'.thread 0).eax = 0) (by decide +kernel)
    obtain ⟨s', hs, hret⟩ := (Option.any_eq_true _ _).mp hany
    exact ⟨s, s', hreach, hon, hpc, hvacant, hs, by simpa using hret⟩
  · obtain ⟨s, hreach, hon, hpc, hany⟩ := boot_reaches ReapsDead
      (killZeroRun ++ ksteps 0 2 ++ [.syscall 0 .fork] ++ ksteps 0 23)
      (fun s => s.onCpu 0 = some (0, 0) ∧ s.pc 0 = .forkRun 1 1 ∧
        (s.step (.kstep 0 true none)).any fun s' =>
          (s'.proc 1).state = .runnable ∧ (s'.proc 1).killed = true) (by decide +kernel)
    obtain ⟨s', hs, hflags⟩ := (Option.any_eq_true _ _).mp hany
    exact ⟨s, s', hreach, hon, hpc, hs, by simpa using hflags⟩

end Kernel

end Xv6
