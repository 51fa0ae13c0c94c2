import Mathlib.Logic.Function.Basic
import Xv6.Laws.Proc.SlotsRun
import Xv6.Laws.Proc.State

/-!
# One `exec` per process image

`allthdexit` returns 0 a thread when the scan has found every other slot of the process ZOMBIE.
A thread inside `exec` is alive, so when one `exec` commits no sibling is inside another: at most
one `exec` of a process image commits.

To say so, `ExecLog` remembers the number of the image a process runs, the image each thread has
called `exec` under, and the commits made so far. A second commit under one image would be a
second entry of the list.
-/

namespace Xv6

open Function Xv6.Lib

/-- What is remembered of the calls of `exec`. -/
structure ExecLog where
  /-- how many images the slot of the process has committed to -/
  image : ProcPtr → Nat := fun _ => 0
  /-- the image under which the thread has called `exec` last -/
  began : ThdPtr → Nat := fun _ => 0
  /-- for each commit, the process and the image under which `exec` was called -/
  commits : List (ProcPtr × Nat) := []

namespace Kernel

variable {s s' : Kernel} {a : Act} {p : ProcPtr} {t u : ThdPtr} {c : CpuId}

/-- Records a call of `exec`, or its commit. -/
def logExec (s : Kernel) (a : Act) (_ : Kernel) (l : ExecLog) : ExecLog :=
  match a.cpu.bind s.onCpu with
  | some (p, t) =>
    match s.label p t a with
    | .begins => { l with began := update l.began t (l.image p) }
    | .commits => { l with
        image := update l.image p (l.image p + 1)
        commits := (p, l.began t) :: l.commits }
    | _ => l
  | none => l

theorem logExec_of (ha : a.cpu = some c) (hon : s.onCpu c = some (p, t)) (l : ExecLog) :
    logExec s a s' l = match s.label p t a with
      | .begins => { l with began := update l.began t (l.image p) }
      | .commits => { l with
          image := update l.image p (l.image p + 1)
          commits := (p, l.began t) :: l.commits }
      | _ => l := by
  unfold logExec
  rw [ha, Option.bind_some, hon]

/-- A step without a label leaves no trace. -/
theorem logExec_plain (h : ∀ c p t, s.onCpu c = some (p, t) → s.label p t a = .plain) (l : ExecLog) :
    logExec s a s' l = l := by
  unfold logExec
  cases hb : a.cpu.bind s.onCpu with
  | none => rfl
  | some pt =>
    obtain ⟨c, -, hon⟩ := Option.bind_eq_some_iff.mp hb
    simp only [h c pt.1 pt.2 hon]

/-! ## What `exec` returns -/

/-- The rounds of `allthdexit` end with 0 only when every other slot of the process is ZOMBIE. -/
theorem allthdRound_done (hr : (s.allthdRound p t).1 = .done) :
    ¬ s.Sibling p t ∧ ∀ u, u ≠ t → ((s.allthdRound p t).2.thread u).mp = some p →
      ((s.allthdRound p t).2.thread u).state = .zombie := by
  obtain ⟨hno, heq⟩ | ⟨-, heq⟩ | ⟨-, heq⟩ := allthdRound_cases
  · refine ⟨hno, fun u hu hmp => ?_⟩
    rw [heq] at hmp ⊢
    by_contra hz
    exact hno ⟨u, hu, hmp, hz⟩
  · rw [heq] at hr
    cases hr
  · rw [heq] at hr
    cases hr

theorem allthdexit_done (hr : (s.allthdexit p t).1 = .done) :
    ((s.proc p).exited = false ∧ ¬ s.Sibling p t) ∧
      ∀ u, u ≠ t → ((s.allthdexit p t).2.thread u).mp = some p →
        ((s.allthdexit p t).2.thread u).state = .zombie := by
  cases hex : (s.proc p).exited with
  | true =>
    unfold allthdexit at hr
    rw [if_pos hex] at hr
    cases hr
  | false =>
    obtain ⟨w, heq, hquiet, -, -, -⟩ := allthdexit_roused (t := t) hex
    rw [heq] at hr ⊢
    obtain ⟨hno, hall⟩ := allthdRound_done hr
    exact ⟨⟨rfl, fun hsib => hno ((hquiet.sibling p t).mpr hsib)⟩, hall⟩

/-- Behind `allthdexit`, `exec` returns 0 only if that did. -/
theorem execRound_zero {r : Round × Kernel} (hon : s.onCpu c = some (p, t)) (hcpu : r.2.cpu = s.cpu)
    (hpc : (execRound c p t r).pc t = .sysret) (heax : ((execRound c p t r).thread t).eax = 0) :
    r.1 = .done := by
  obtain ⟨round, w⟩ := r
  cases round with
  | done => rfl
  | failed =>
    have hret : ((execRound c p t (.failed, w)).thread t).eax = -1 :=
      congrArg Thread.eax (if_pos rfl)
    rw [hret] at heax
    exact absurd heax (by decide)
  | sleeps =>
    have hq : Quiet (some c) none (w.asleep p t (.proc p) .execSleep) (execRound c p t (.sleeps, w)) :=
      quiet_park hon (by rw [asleep, setPc_cpu, setstate_cpu]; exact hcpu)
    rw [hq.pc, asleep, setPc_pc, if_pos rfl] at hpc
    cases hpc

/-- The section of `exec` returns 0 only when it commits. -/
theorem kstep_exec_zero {ok : Bool} {page : Option Nat} (hon : s.onCpu c = some (p, t))
    (hs : s.kstep c p t ok page = some s') (hx : (s.pc t).inExec) (hpc : s'.pc t = .sysret)
    (heax : (s'.thread t).eax = 0) : s.callLabel p t (s.pc t) = .commits := by
  unfold kstep at hs
  cases hk : s.pc t
  case exec relative =>
    simp only [hk, Option.some.injEq] at hs
    rw [← hs] at hpc heax
    unfold execPath at hpc heax
    split at hpc
    · rw [halt_pc, hk] at hpc
      cases hpc
    · rename_i hcwd
      rw [if_neg hcwd] at heax
      split at hpc
      · rw [setPc_pc, if_pos rfl] at hpc
        cases hpc
      · rename_i hloads
        have hret : ((s.ret t (-1)).thread t).eax = -1 := congrArg Thread.eax (if_pos rfl)
        rw [if_neg hloads, hret] at heax
        exact absurd heax (by decide)
  case execThds =>
    simp only [hk, Option.ite_none_right_eq_some, Option.some.injEq] at hs
    rw [← hs.2] at hpc heax
    obtain ⟨⟨hex, hno⟩, -⟩ := allthdexit_done (execRound_zero hon allthdexit_cpu hpc heax)
    show (bif (s.proc p).exited || s.havethds p t then Label.plain else .commits) = .commits
    have hnot : s.havethds p t = false := Bool.eq_false_iff.mpr fun hh => hno (havethds_iff.mp hh)
    rw [hex, hnot]
    rfl
  case execSleep =>
    simp only [hk] at hs
    cases hs
  all_goals
    rw [hk] at hx
    cases hx

/-- So does the end of a sleep in it. -/
theorem resume_exec_zero (hon : s.onCpu c = some (p, t)) (hx : (s.pc t).inExec)
    (hpc : (s.resume c p t).pc t = .sysret) (heax : ((s.resume c p t).thread t).eax = 0) :
    s.wakeLabel p t (s.pc t) = .commits := by
  unfold resume at hpc heax
  cases hk : s.pc t
  case execSleep =>
    simp only [hk] at hpc heax
    have hon' : (s.setThd t fun x => { x with chan := none }).onCpu c = some (p, t) := hon
    obtain ⟨hno, -⟩ := allthdRound_done (execRound_zero hon' allthdRound_cpu hpc heax)
    show (bif s.havethds p t then Label.plain else .commits) = .commits
    have hnot : s.havethds p t = false := by
      refine Bool.eq_false_iff.mpr fun hh => hno ?_
      obtain ⟨u, hu, hmp, hz⟩ := havethds_iff.mp hh
      refine ⟨u, hu, ?_⟩
      rw [setThd_thread, if_neg hu]
      exact ⟨hmp, hz⟩
    rw [hnot]
    rfl
  all_goals
    simp only [hk, release_pc] at hpc
    rw [hk] at hx
    cases hx <;> cases hpc

/-- A thread that returns 0 from `exec` has committed. -/
theorem Slots.exec_zero (h : Slots none s) (hok : ReapsDead s a) (hs : s.step a = some s')
    (hx : (s.pc t).inExec) (hpc : s'.pc t = .sysret) (heax : (s'.thread t).eax = 0) :
    ∃ c p, a.cpu = some c ∧ s.onCpu c = some (p, t) ∧ s.label p t a = .commits := by
  have hplace : ∀ k, k.inExec = false → s.pc t ≠ k := by
    rintro k hk rfl
    rw [hk] at hx
    cases hx
  have hmoved : s'.pc t ≠ s.pc t := by
    rw [hpc]
    exact (hplace .sysret rfl).symm
  obtain ⟨c, p, hon, ⟨ok, page, rfl, hk⟩ | ⟨rfl, hr⟩⟩ := h.moves hok hs (hplace .user rfl)
    (fun _ _ _ _ _ => hplace .kernel rfl) (h.awake t (hplace .dead rfl) (hplace .forkret rfl)) hmoved
  · exact ⟨c, p, rfl, hon, kstep_exec_zero hon hk hx hpc heax⟩
  · rw [← hr] at hpc heax
    exact ⟨c, p, rfl, hon, resume_exec_zero hon hx hpc heax⟩

/-! ## The history -/

/-- A thread inside `exec` has called it under the image its process runs now, and no commit is of
that image. -/
structure Images (x : Kernel × ExecLog) : Prop where
  slots : Slots none x.1
  current : ∀ t p, (x.1.pc t).inExec → (x.1.thread t).mp = some p → x.2.began t = x.2.image p
  past : ∀ e ∈ x.2.commits, e.2 < x.2.image e.1
  nodup : x.2.commits.Nodup

/-- Inside `exec` a thread is alive. -/
theorem Slots.live_of_inExec (h : Slots none s) (hx : (s.pc u).inExec) : .embryo < (s.thread u).state := by
  refine h.awake u ?_ ?_ <;> intro h0 <;> rw [h0] at hx <;> cases hx

/-- The threads inside `exec` after a stretch: they were inside before, or the caller enters it. -/
theorem Stretch.inExec (h : Slots none s) (hpanic : s.panic = none) (hon : s.onCpu c = some (p, t))
    (hst : Stretch s a c p t s') (hx : (s'.pc u).inExec) :
    (s'.thread u).mp = (s.thread u).mp ∧ ((s.pc u).inExec ∧ (u = t → s.label p t a = .plain) ∨
      u = t ∧ s.label p t a = .begins) := by
  by_cases hu : u = t
  · subst hu
    have hlive : .embryo < (s.thread u).state := by
      rw [(h.onCpu hpanic hon).1]
      decide
    refine ⟨hst.mp_live h hlive, ?_⟩
    rcases hst.inExec_self hx with ⟨h0, hl⟩ | hl
    · exact .inl ⟨h0, fun _ => hl⟩
    · exact .inr ⟨rfl, hl⟩
  · rcases hst.pc_other hu with h0 | ⟨h0, -⟩
    · rw [h0] at hx
      exact ⟨hst.mp_live h (h.live_of_inExec hx), .inl ⟨hx, fun h1 => absurd h1 hu⟩⟩
    · rw [h0] at hx
      cases hx

theorem Images.step {x y : Kernel × ExecLog} (h : Images x) (hok : ReapsDead x.1 a)
    (hs : recorded Kernel.step logExec x a = some y) : Images y := by
  obtain ⟨hstep, hlog⟩ := recorded_eq_some.mp hs
  have hslots := h.slots.step hok hstep
  rcases h.slots.step_cases hok hstep with ⟨hq, hplain⟩ | ⟨c, p, t, s₁, ha, hon, hq, -, h₁, hp₁, hon₁, hst⟩
  · rw [logExec_plain hplain] at hlog
    refine ⟨hslots, fun t p hx hmp => ?_, by rw [hlog]; exact h.past, by rw [hlog]; exact h.nodup⟩
    rw [hq.pc] at hx
    rw [(hq.thd t).mp] at hmp
    rw [hlog]
    exact h.current t p hx hmp
  · have hlabel := hq.label p t a
    have hmp₁ := (h₁.onCpu hp₁ hon₁).2
    -- what a thread inside `exec` was before the step
    have hback : ∀ u r, (y.1.pc u).inExec → (y.1.thread u).mp = some r →
        (x.1.thread u).mp = some r ∧ ((x.1.pc u).inExec ∧ (u = t → x.1.label p t a = .plain) ∨
          u = t ∧ x.1.label p t a = .begins) := by
      intro u r hx hr
      obtain ⟨hmp, hin⟩ := hst.inExec h₁ hp₁ hon₁ hx
      rw [hmp, (hq.thd u).mp] at hr
      rw [hq.pc, hlabel] at hin
      exact ⟨hr, hin⟩
    rw [logExec_of ha hon] at hlog
    cases hl : x.1.label p t a with
    | begins =>
      rw [hl] at hlog
      refine ⟨hslots, fun u r hx hr => ?_, by rw [hlog]; exact h.past, by rw [hlog]; exact h.nodup⟩
      obtain ⟨hr', hin⟩ := hback u r hx hr
      rw [hlog]
      by_cases hu : u = t
      · subst hu
        obtain rfl : p = r := by
          rw [← (hq.thd u).mp, hmp₁] at hr'
          exact Option.some.inj hr'
        exact update_self ..
      · have hin' := hin.resolve_right fun h0 => hu h0.1
        exact (update_of_ne hu _ _).trans (h.current u r hin'.1 hr')
    | commits =>
      rw [hl] at hlog
      have hx : (x.1.pc t).inExec := by
        rcases label_commits hl with ⟨-, -, -, -, h0⟩ | ⟨-, -, h0⟩ <;> rw [h0] <;> rfl
      have hnow := h.current t p hx (by rw [← (hq.thd t).mp]; exact hmp₁)
      refine ⟨hslots, fun u r hx hr => ?_, fun e he => ?_, ?_⟩
      · obtain ⟨hr', hin⟩ := hback u r hx hr
        rw [hl] at hin
        have hu : u ≠ t := by
          rintro rfl
          rcases hin with ⟨-, h0⟩ | ⟨-, h0⟩
          · cases h0 rfl
          · cases h0
        have hin' := hin.resolve_right fun h0 => hu h0.1
        -- a sibling inside `exec` would have stopped the commit
        have hrp : r ≠ p := by
          rintro rfl
          have hlive := h.slots.live_of_inExec hin'.1
          have hno := (hst.commits (hlabel.trans hl)).1
          refine hno ((hq.sibling r t).mpr ⟨u, hu, hr', fun hz => ?_⟩)
          rw [hz] at hlive
          exact absurd hlive (by decide)
        rw [hlog]
        exact (h.current u r hin'.1 hr').trans (update_of_ne hrp _ _).symm
      · rw [hlog] at he ⊢
        rcases List.mem_cons.mp he with rfl | he'
        · show x.2.began t < update x.2.image p (x.2.image p + 1) p
          rw [update_self, hnow]
          exact Nat.lt_succ_self _
        · refine lt_of_lt_of_le (h.past e he') ?_
          by_cases hep : e.1 = p
          · rw [hep]
            show x.2.image p ≤ update x.2.image p (x.2.image p + 1) p
            rw [update_self]
            exact Nat.le_succ _
          · exact (update_of_ne hep _ _).ge
      · rw [hlog]
        refine List.nodup_cons.mpr ⟨fun hmem => ?_, h.nodup⟩
        have hlt := h.past _ hmem
        rw [hnow] at hlt
        exact absurd hlt (lt_irrefl _)
    | plain | joins u | dies v =>
      rw [hl] at hlog hback
      refine ⟨hslots, fun u r hx hr => ?_, by rw [hlog]; exact h.past, by rw [hlog]; exact h.nodup⟩
      obtain ⟨hr', hin⟩ := hback u r hx hr
      have hin' : (x.1.pc u).inExec := by
        rcases hin with ⟨h0, -⟩ | ⟨-, h0⟩
        · exact h0
        · cases h0
      rw [hlog]
      exact h.current u r hin' hr'

theorem boot_images : Images (boot, {}) := by
  refine ⟨boot_slots, fun t p hx => ?_, fun e he => (by cases he), .nil⟩
  have hlive := boot_slots.live_of_inExec hx
  have hpc : boot.pc t = .forkret ∨ boot.pc t = .dead := by
    by_cases ht : t = 0
    · exact .inl (if_pos ht)
    · exact .inr (if_neg ht)
  rcases hpc with h0 | h0 <;> rw [h0] at hx <;> cases hx

/-- After a commit the caller has its process to itself, and the other slots have been freed. -/
theorem Stretch.alone (h : Slots none s) (hpanic : s.panic = none) (hon : s.onCpu c = some (p, t))
    (hst : Stretch s a c p t s') (hl : s.label p t a = .commits) :
    (∀ u, (s'.thread u).mp = some p ↔ u = t) ∧
      ∀ u, u ≠ t → (s.thread u).mp = some p → (s.thread u).state = .zombie ∧
        (s'.thread u).state = .unused ∧ (s'.thread u).kstack = none := by
  obtain ⟨hno, hq⟩ := hst.commits hl
  have hz : ∀ u, u ≠ t → (s.thread u).mp = some p → (s.thread u).state = .zombie := by
    intro u hu hmp
    by_contra h0
    exact hno ⟨u, hu, hmp, h0⟩
  have hmid : ∀ u, ((((s.setExited p false).freeAll
      fun u r => u ≠ t ∧ r.mp = some p ∧ r.state = .zombie).switchuvm c p).setPc t .sysret).thread u =
      if u ≠ t ∧ (s.thread u).mp = some p then
        { s.thread u with kstack := none, state := .unused, tid := 0, mp := none } else s.thread u := by
    intro u
    rw [setPc_thread, switchuvm_thread, freeAll_thread]
    by_cases hu : u ≠ t ∧ (s.thread u).mp = some p
    · rw [if_pos hu, if_pos ⟨hu.1, hu.2, hz u hu.1 hu.2⟩]
      rfl
    · rw [if_neg hu, if_neg fun h0 => hu ⟨h0.1, h0.2.1⟩]
      rfl
  refine ⟨fun u => ?_, fun u hu hmp => ⟨hz u hu hmp, ?_⟩⟩
  · rw [(hq.thd u).mp, hmid]
    by_cases hu : u = t
    · rw [if_neg fun h0 => h0.1 hu, hu]
      exact iff_of_true (h.onCpu hpanic hon).2 rfl
    · by_cases hmp : (s.thread u).mp = some p
      · rw [if_pos ⟨hu, hmp⟩]
        exact iff_of_false (fun h0 => by cases h0) hu
      · rw [if_neg fun h0 => hmp h0.2]
        exact iff_of_false hmp hu
  · have hslot := hq.thd u
    rw [hmid, if_pos ⟨hu, hmp⟩] at hslot
    refine ⟨hslot.low ?_, hslot.kstack⟩
    show ¬ ProcState.embryo < .unused
    decide

/-- `allthdexit` returns 0 only with every other slot of the process ZOMBIE. In every run at most one
`exec` of each process image commits, and a thread that returns 0 from `exec` is alone: every other
slot of its process was a ZOMBIE with a kernel stack, and has been freed. -/
theorem exec_is_exclusive {x : Kernel × ExecLog}
    (h : Reaches (recorded Kernel.step logExec) (fun x a => ReapsDead x.1 a) (boot, {}) x) :
    (∀ (s : Kernel) p t u, u ≠ t →
      ((s.allthdexit p t).1 = .done → ((s.allthdexit p t).2.thread u).mp = some p →
        ((s.allthdexit p t).2.thread u).state = .zombie) ∧
      ((s.allthdRound p t).1 = .done → ((s.allthdRound p t).2.thread u).mp = some p →
        ((s.allthdRound p t).2.thread u).state = .zombie)) ∧
    x.2.commits.Nodup ∧
    x.1.panic ≠ some .kfree ∧
    ∀ a y, ReapsDead x.1 a → recorded Kernel.step logExec x a = some y →
      ∀ t, (x.1.pc t).inExec → y.1.pc t = .sysret → (y.1.thread t).eax = 0 →
        ∃ p, (x.1.thread t).mp = some p ∧ x.2.began t = x.2.image p ∧
          y.2.commits = (p, x.2.began t) :: x.2.commits ∧ y.2.image p = x.2.image p + 1 ∧
          (∀ u, (y.1.thread u).mp = some p ↔ u = t) ∧
          ∀ u, u ≠ t → (x.1.thread u).mp = some p →
            ((x.1.thread u).state = .zombie ∧ (x.1.thread u).kstack ≠ none) ∧
            (y.1.thread u).state = .unused ∧ (y.1.thread u).kstack = none := by
  have himages : Images x := h.invariant boot_images fun _ _ _ hx hok hs => hx.step hok hs
  refine ⟨fun s p t u hu => ⟨fun hr hmp => (allthdexit_done hr).2 u hu hmp,
    fun hr hmp => (allthdRound_done hr).2 u hu hmp⟩, himages.nodup, himages.slots.kfree,
    fun a y hok hs t hx hpc heax => ?_⟩
  obtain ⟨hstep, hlog⟩ := recorded_eq_some.mp hs
  obtain ⟨c, p, ha, hon, hl⟩ := himages.slots.exec_zero hok hstep hx hpc heax
  rw [logExec_of ha hon, hl] at hlog
  rcases himages.slots.step_cases hok hstep with
    ⟨-, hplain⟩ | ⟨c', p', t', s₁, ha', hon', hq, -, h₁, hp₁, hon₁, hst⟩
  · rw [hplain c p t hon] at hl
    cases hl
  · rw [ha] at ha'
    cases ha'
    rw [hon] at hon'
    cases hon'
    obtain ⟨honly, hfreed⟩ := hst.alone h₁ hp₁ hon₁ ((hq.label p t a).trans hl)
    have hmp : (x.1.thread t).mp = some p := by
      rw [← (hq.thd t).mp]
      exact (h₁.onCpu hp₁ hon₁).2
    refine ⟨p, hmp, himages.current t p hx hmp, by rw [hlog], ?_, honly, fun u hu hup => ?_⟩
    · rw [hlog]
      exact update_self ..
    · obtain ⟨hz, hfree⟩ := hfreed u hu (by rw [(hq.thd u).mp]; exact hup)
      have hz' := (hq.thd u).zombie.mp hz
      exact ⟨⟨hz', himages.slots.stack u (.inr hz')⟩, hfree⟩

/-- Two threads of a process call `exec`. The first waits for the second, which is refused and
leaves; then the first commits. -/
def execRaceRun : List Act :=
  siblingsRun ++ [.syscall 1 (.exec false)] ++ ksteps 1 1 ++ [.syscall 2 (.exec false)] ++ ksteps 2 1 ++
    ksteps 1 1 ++ ksteps 2 4 ++ [.resume 2]

theorem exec_is_exclusive_race :
    ∃ x, Reaches (recorded Kernel.step logExec) (fun x a => ReapsDead x.1 a) (boot, {}) x ∧
      x.2.commits.Nodup ∧ x.2.commits = [(1, 0)] ∧ x.2.began 1 = 0 ∧ x.2.began 2 = 0 ∧ x.2.image 1 = 1 ∧
      x.1.pc 1 = .sysret := by
  have hrun : ∃ x, Reaches (recorded step logExec) (fun x a => ReapsDead x.1 a) (boot, {}) x ∧
      x.2.commits = [(1, 0)] ∧ x.2.began 1 = 0 ∧ x.2.began 2 = 0 ∧ x.2.image 1 = 1 ∧
      x.1.pc 1 = .sysret :=
    exists_reaches execRaceRun (fun x : Kernel × ExecLog =>
      x.2.commits = [(1, 0)] ∧ x.2.began 1 = 0 ∧ x.2.began 2 = 0 ∧
      x.2.image 1 = 1 ∧ x.1.pc 1 = .sysret) (by decide +kernel)
  obtain ⟨x, hreach, hx⟩ := hrun
  exact ⟨x, hreach, (exec_is_exclusive hreach).2.1, hx⟩

end Kernel

end Xv6
