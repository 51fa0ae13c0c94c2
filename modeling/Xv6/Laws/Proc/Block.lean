import Xv6.Proc.Block
import Xv6.Laws.Proc.State
import Xv6.Laws.Proc.Turn

/-!
# Threads of a dying process that sleep

The blocking loops test `killed` and `exited` before they sleep, under a lock of their own; `kill`
and `allthdexit` set the flags under `ptable.lock` and wake the sleepers in the same section. A
thread that stands between its test and the section of its `sleep` when the flag is set is not
asleep yet, so nobody wakes it, and it goes to sleep behind the flag.

`Struck` remembers which flags `kill` and `allthdexit` have set and which of those are still set. In
the runs in which they never act while a thread of the process stands behind its test, no thread
of a struck process sleeps in one of the loops.
-/

namespace Xv6

open Xv6.Lib

def Pc.killPid : Pc → Option Word
  | .kill pid => some pid
  | _ => none

/-- Before the section that starts with `allthdexit`. -/
def Pc.endsThds : Pc → Bool
  | .exitThds _ | .execThds => true
  | _ => false

namespace Kernel

variable {s s' s₁ : Kernel} {a : Act} {p q : ProcPtr} {t u n : ThdPtr} {c : CpuId}

/-! ## Who sleeps -/

section Step

variable (h : Slots none s) (hok : ReapsDead s a) (hs : s.step a = some s')

include h hok hs

/-- A thread that sleeps after a step slept before, or has acted. -/
theorem Slots.asleep_step (hsl : (s'.thread u).state = .sleeping) :
    (s'.thread u).mp = (s.thread u).mp ∧
      ((s.thread u).state = .sleeping ∧ (s'.thread u).chan = (s.thread u).chan ∨
        ∃ c p ch, a.cpu = some c ∧ s.onCpu c = some (p, u) ∧ (s'.thread u).chan = some ch ∧
          (ch = .proc p ∨ ∃ d, a = .work d (.sleep ch))) := by
  rcases h.step_cases hok hs with ⟨hq, -⟩ | ⟨c, p, t, s₁, ha, hon, hq, -, h₁, -, -, hst⟩
  · exact ⟨(hq.thd u).mp, .inl ((hq.thd u).asleep hsl)⟩
  · rcases hst.asleep h₁ hsl with hsame | ⟨rfl, hmp, ch, hch, hwho⟩
    · have hall := (hq.thd u).trans hsame
      exact ⟨hall.mp, .inl (hall.asleep hsl)⟩
    · exact ⟨hmp.trans (hq.thd u).mp, .inr ⟨c, p, ch, ha, hon, hch, hwho⟩⟩

/-- A live thread keeps its process. -/
theorem Slots.mp_step (hu : .embryo < (s.thread u).state) : (s'.thread u).mp = (s.thread u).mp := by
  rcases h.step_cases hok hs with ⟨hq, -⟩ | ⟨c, p, t, s₁, -, -, hq, -, h₁, -, -, hst⟩
  · exact (hq.thd u).mp
  · rw [hst.mp_live h₁ ((hq.thd u).live.mpr hu)]
    exact (hq.thd u).mp

/-- A thread in a call that leaves the tables alone stays there, unless it takes a step of that call. -/
theorem Slots.kernel_step (hpc : s.pc u = .kernel ∨ s.pc u = .slept)
    (hwork : ∀ c p w, a = .work c w → s.onCpu c ≠ some (p, u)) :
    s'.pc u = .kernel ∨ s'.pc u = .slept := by
  have hlive : .embryo < (s.thread u).state := by
    refine h.awake u ?_ ?_ <;> rcases hpc with h0 | h0 <;> rw [h0] <;> exact fun h1 => by cases h1
  by_contra hno
  have hmoved : s'.pc u ≠ s.pc u := fun h0 => hno (h0 ▸ hpc)
  obtain ⟨c, p, hon, ⟨ok, page, rfl, hk⟩ | ⟨rfl, hr⟩⟩ := h.moves hok hs
    (by rcases hpc with h0 | h0 <;> rw [h0] <;> exact fun h1 => by cases h1)
    (fun c p w ha hon => absurd hon (hwork c p w ha)) hlive hmoved
  · unfold kstep at hk
    rcases hpc with h0 | h0 <;> simp only [h0] at hk <;> cases hk
  · unfold resume at hr
    rcases hpc with h0 | h0
    · simp only [h0] at hr
      rw [← hr, release_pc, h0] at hmoved
      exact hmoved rfl
    · simp only [h0] at hr
      rw [← hr, release_pc, setPc_pc, if_pos rfl] at hno
      exact hno (.inl rfl)

end Step

/-! ## Who sets the flags -/

/-- The process that the step kills with `kill`. -/
def killTarget (s : Kernel) : Act → Option ProcPtr
  | .kstep c _ _ => (s.onCpu c).bind fun pt => (s.pc pt.2).killPid.bind fun pid =>
      (List.finRange NPROC).find? fun q => (s.proc q).pid = pid
  | _ => none

/-- The process whose other threads the step asks to leave, with `allthdexit`. -/
def endTarget (s : Kernel) : Act → Option ProcPtr
  | .kstep c _ _ => (s.onCpu c).bind fun pt =>
      if (s.pc pt.2).endsThds && !(s.proc pt.1).exited then some pt.1 else none
  | _ => none

/-- The section of `kill` wakes every thread of the process. -/
theorem killTarget_wakes (hk : s.killTarget a = some q) (hs : s.step a = some s')
    (hmp : (s'.thread u).mp = some q) : (s'.thread u).state ≠ .sleeping := by
  cases a
  case kstep c ok page =>
    obtain ⟨⟨p, t⟩, hon, hk⟩ := Option.bind_eq_some_iff.mp hk
    obtain ⟨pid, hpid, hfind⟩ := Option.bind_eq_some_iff.mp hk
    have hpc : s.pc t = .kill pid := by
      change (s.pc t).killPid = some pid at hpid
      cases h0 : s.pc t
      all_goals
        rw [h0] at hpid
        cases hpid
      rfl
    have hkill := step_kstep hon hs
    unfold kstep at hkill
    simp only [hpc, Option.ite_none_right_eq_some, Option.some.injEq] at hkill
    have heq : s.kill t pid = ((s.setKilled q).wakeThds q).ret t 0 := by
      unfold kill
      rw [hfind]
    have hthd : (s'.thread u).mp =
          (((s.setKilled q).wakeThds q).thread u).mp ∧
        (s'.thread u).state =
          (((s.setKilled q).wakeThds q).thread u).state := by
      rw [← hkill.2, heq]
      generalize (s.setKilled q).wakeThds q = w
      unfold ret
      rw [setPc_thread, setThd_thread]
      split
      · rename_i hut
        rw [hut]
        exact ⟨rfl, rfl⟩
      · exact ⟨rfl, rfl⟩
    rw [hthd.2]
    exact wakeThds_woke (hthd.1.symm.trans hmp)
  all_goals cases hk

/-- The section of `allthdexit` leaves only its caller asleep. -/
theorem Slots.endTarget_wakes (h : Slots none s) (he : s.endTarget a = some q) (hs : s.step a = some s')
    (hmp : (s'.thread u).mp = some q) (hsl : (s'.thread u).state = .sleeping) :
    (s'.thread u).chan = some (.proc q) := by
  cases a
  case kstep c ok page =>
    obtain ⟨⟨p, t⟩, hon, he⟩ := Option.bind_eq_some_iff.mp he
    obtain ⟨hcond, hpq⟩ := Option.ite_none_right_eq_some.mp he
    obtain rfl : q = p := (Option.some.inj hpq).symm
    rw [Bool.and_eq_true, Bool.not_eq_true'] at hcond
    have hpanic := step_panic hs
    have hrouses : Rouses s (.kstep c ok page) c q t s' := by
      have hk := step_kstep hon hs
      unfold kstep at hk
      cases hpc : s.pc t
      case exitThds e =>
        simp only [hpc, Option.ite_none_right_eq_some, Option.some.injEq] at hk
        rw [← hk.2]
        refine exitThds_rouses h hpanic hon ?_ hpc
        show s.callLabel q t (s.pc t) = .plain
        rw [hpc]
        rfl
      case execThds =>
        simp only [hpc, Option.ite_none_right_eq_some, Option.some.injEq] at hk
        rw [← hk.2]
        refine execThds_rouses h hpanic hon ?_ hpc
        show s.callLabel q t (s.pc t) = _
        rw [hpc]
        rfl
      all_goals
        have h0 := hcond.1
        change (s.pc t).endsThds = true at h0
        rw [hpc] at h0
        cases h0
    obtain ⟨s₁, ⟨hq, -, hst⟩, hwoke⟩ := hrouses
    rcases hst.asleep (hq.slots h) hsl with hsame | ⟨rfl, -, ch, hch, rfl | ⟨d, hd⟩⟩
    · exact absurd (hsame.asleep hsl).1 (hwoke hcond.2 u (hsame.mp.symm.trans hmp))
    · exact hch
    · cases hd
  all_goals cases he

end Kernel

/-! ## The runs -/

/-- The flags that `kill` and `allthdexit` have set and that are still set. -/
structure Struck where
  killed : ProcPtr → Bool := fun _ => false
  exited : ProcPtr → Bool := fun _ => false

namespace BlockSys

open Kernel

variable {x y : BlockSys} {b : BlockCall} {st : Stage} {p q : ProcPtr} {t u : ThdPtr} {c : CpuId}
  {byte : Byte} {past : Stage → Bool} {a : Act}

/-- The process that an action kills, or whose threads it asks to leave. -/
def killTarget (x : BlockSys) : BlockAct → Option ProcPtr
  | .kern a => x.kernel.killTarget a
  | _ => none

def endTarget (x : BlockSys) : BlockAct → Option ProcPtr
  | .kern a => x.kernel.endTarget a
  | _ => none

/-- Records who has been struck. -/
def logStruck (x : BlockSys) (a : BlockAct) (y : BlockSys) (l : Struck) : Struck where
  killed q := (l.killed q || x.killTarget a = some q) && (y.kernel.proc q).killed
  exited q := (l.exited q || x.endTarget a = some q) && (y.kernel.proc q).exited

/-- No thread of `q` has passed the tests of its loop. -/
def Clear (x : BlockSys) (q : ProcPtr) (past : Stage → Bool) : Prop :=
  ∀ t, (x.kernel.thread t).mp = some q → ∀ b ∈ x.call t, past b.2 = false

instance (x : BlockSys) (q : ProcPtr) (past : Stage → Bool) : Decidable (x.Clear q past) :=
  inferInstanceAs (Decidable (∀ t, (x.kernel.thread t).mp = some q → ∀ b ∈ x.call t, past b.2 = false))

/-- `wait` reaps only dead processes. -/
def ReapsDead (x : BlockSys) : BlockAct → Prop
  | .kern a => x.kernel.ReapsDead a
  | _ => True

instance (x : BlockSys) (a : BlockAct) : Decidable (x.ReapsDead a) :=
  match a with
  | .kern a => inferInstanceAs (Decidable (x.kernel.ReapsDead a))
  | .enter _ _ | .block _ _ | .tick | .other _ _ => inferInstanceAs (Decidable True)

/-- `kill` and `allthdexit` strike a process only while none of its threads stands between its test of
the flag and its sleep. -/
def StrikesClear (x : BlockSys) (a : BlockAct) : Prop :=
  (∀ q ∈ x.killTarget a, x.Clear q Stage.pastKilled) ∧ ∀ q ∈ x.endTarget a, x.Clear q Stage.pastExited

instance (x : BlockSys) (a : BlockAct) : Decidable (x.StrikesClear a) :=
  inferInstanceAs (Decidable ((∀ q ∈ x.killTarget a, _) ∧ ∀ q ∈ x.endTarget a, _))

/-- Nobody of `q` sleeps in a loop or is past its tests. -/
structure Held (x : BlockSys) (q : ProcPtr) (past : Stage → Bool) : Prop where
  awake : ∀ t, (x.kernel.thread t).mp = some q → (x.kernel.thread t).state = .sleeping →
    ∀ ch, (x.kernel.thread t).chan = some ch → ch.blocks = false
  clear : x.Clear q past

/-- The invariant: a struck process is held. -/
structure Blocks (x : BlockSys × Struck) : Prop where
  slots : Slots none x.1.kernel
  place : ∀ t, x.1.call t ≠ none → x.1.kernel.pc t = .kernel ∨ x.1.kernel.pc t = .slept
  killed : ∀ q, x.2.killed q = true → (x.1.kernel.proc q).killed = true ∧ x.1.Held q Stage.pastKilled
  exited : ∀ q, x.2.exited q = true → (x.1.kernel.proc q).exited = true ∧ x.1.Held q Stage.pastExited

/-! ## One step of a loop -/

@[simp] theorem setHolder_kernel (o : Option ThdPtr) :
    (x.setHolder o b).kernel = x.kernel := by cases b <;> rfl
@[simp] theorem setHolder_call (o : Option ThdPtr) :
    (x.setHolder o b).call = x.call := by cases b <;> rfl
@[simp] theorem setCall_kernel (o : Option (BlockCall × Stage)) : (x.setCall t o).kernel = x.kernel := rfl
@[simp] theorem setCall_call (o : Option (BlockCall × Stage)) :
    (x.setCall t o).call u = if u = t then o else x.call u := rfl

/-- What a step of a loop leaves of the kernel and of the calls. -/
structure Blocked (x : BlockSys) (c : CpuId) (p : ProcPtr) (t : ThdPtr) (st : Stage) (y : BlockSys) :
    Prop where
  kernel : y.kernel = x.kernel ∨ ∃ w, x.kernel.step (.work c w) = some y.kernel ∧
    ((∃ ch, w = .wakeup ch) ∨ (∃ ch, w = .sleep ch) ∧ st = .sleep ∨ (∃ r, w = .done r) ∧ y.call t = none)
  call : ∀ u, u ≠ t → y.call u = x.call u
  pastKilled : ∀ b ∈ y.call t, b.2.pastKilled →
    st.pastKilled ∨ (x.kernel.proc p).killed = false
  pastExited : ∀ b ∈ y.call t, b.2.pastExited →
    st.pastExited ∨ (x.kernel.proc p).exited = false

theorem kstep_eq_some {w : Act} : x.kstep w = some y ↔
    ∃ k, x.kernel.step w = some k ∧ y = { x with kernel := k } := by
  unfold kstep
  rw [Option.map_eq_some_iff]
  simp only [eq_comm]

theorem map_kstep_eq_some {β : Type} {f : BlockSys → β} {z : β} {w : Act} :
    (x.kstep w).map f = some z ↔ ∃ k, x.kernel.step w = some k ∧ f { x with kernel := k } = z := by
  rw [kstep, Option.map_map, Option.map_eq_some_iff]
  rfl

theorem guarded_kstep {β : Type} {f : BlockSys → β} {z : β} {w : Act} {P : Prop} [Decidable P]
    (hs : (if P then (x.kstep w).map f else none) = some z) :
    ∃ k, x.kernel.step w = some k ∧ f { x with kernel := k } = z :=
  map_kstep_eq_some.mp (Option.ite_none_right_eq_some.mp hs).2

/-- A step that only moves the thread, to a place before the tests. -/
theorem Blocked.moves {b' : BlockCall} {st' : Stage} (hk : y.kernel = x.kernel)
    (hc : ∀ u, y.call u = if u = t then some (b', st') else x.call u)
    (ho : st'.pastKilled = false ∧ st'.pastExited = false) : x.Blocked c p t st y where
  kernel := .inl hk
  call u hu := (hc u).trans (if_neg hu)
  pastKilled b hb h0 := by
    rw [hc, if_pos rfl] at hb
    cases hb
    rw [ho.1] at h0
    cases h0
  pastExited b hb h0 := by
    rw [hc, if_pos rfl] at hb
    cases hb
    rw [ho.2] at h0
    cases h0

theorem test_blocked : x.Blocked c p t .test (x.test t byte b) := by
  cases b with
  | piperead i n k =>
    refine .moves rfl (fun u => rfl) ?_
    split <;> exact ⟨rfl, rfl⟩
  | sleep n ticks0 =>
    refine .moves rfl (fun u => rfl) ?_
    split <;> exact ⟨rfl, rfl⟩
  | pipewrite i n k =>
    simp only [test]
    split
    · split
      · refine .moves rfl (fun u => rfl) ?_
        split <;> exact ⟨rfl, rfl⟩
      · exact .moves rfl (fun u => rfl) ⟨rfl, rfl⟩
    · exact .moves rfl (fun u => rfl) ⟨rfl, rfl⟩

theorem copy_blocked : x.Blocked c p t .copy (x.copy t b) := by
  unfold copy
  split
  · split
    · exact .moves rfl (fun u => rfl) ⟨rfl, rfl⟩
    · exact .moves rfl (fun u => rfl) ⟨rfl, rfl⟩
  · exact .moves rfl (fun u => rfl) ⟨rfl, rfl⟩

/-- Every step of a loop. -/
theorem block_blocked (hs : x.block c p t byte b st = some y) : x.Blocked c p t st y := by
  cases st with
  | acquire =>
    obtain ⟨-, hs⟩ := Option.ite_none_right_eq_some.mp hs
    cases hs
    exact .moves (setHolder_kernel _) (fun u => by rw [setCall_call, setHolder_call]) ⟨rfl, rfl⟩
  | slept =>
    obtain ⟨-, hs⟩ := Option.ite_none_right_eq_some.mp hs
    cases hs
    exact .moves (setHolder_kernel _) (fun u => by rw [setCall_call, setHolder_call]) ⟨rfl, rfl⟩
  | test =>
    cases hs
    exact test_blocked
  | copy =>
    cases hs
    exact copy_blocked
  | killed =>
    cases hs
    refine ⟨.inl rfl, fun u hu => if_neg hu, ?_, ?_⟩
    · rintro b' hb h0
      rw [setCall_call, if_pos rfl] at hb
      cases hb
      cases hk : (x.kernel.proc p).killed with
      | false => exact .inr rfl
      | true =>
        rw [hk] at h0
        cases h0
    · rintro b' hb h0
      rw [setCall_call, if_pos rfl] at hb
      cases hb
      split at h0 <;> cases h0
  | exited =>
    cases hs
    refine ⟨.inl rfl, fun u hu => if_neg hu, fun _ _ _ => .inl rfl, ?_⟩
    rintro b' hb h0
    rw [setCall_call, if_pos rfl] at hb
    cases hb
    cases hk : (x.kernel.proc p).exited with
    | false => exact .inr rfl
    | true =>
      rw [hk] at h0
      cases h0
  | poke =>
    obtain ⟨k, hk, rfl⟩ := map_kstep_eq_some.mp hs
    exact ⟨.inr ⟨_, hk, .inl ⟨_, rfl⟩⟩, fun u hu => if_neg hu, fun _ _ _ => .inl rfl, fun _ _ _ => .inl rfl⟩
  | sleep =>
    obtain ⟨k, hk, rfl⟩ := guarded_kstep hs
    refine ⟨.inr ⟨.sleep b.chan, ?_, .inr (.inl ⟨⟨_, rfl⟩, rfl⟩)⟩, fun u hu => ?_, fun _ _ _ => .inl rfl,
      fun _ _ _ => .inl rfl⟩
    · rw [setCall_kernel, setHolder_kernel]
      exact hk
    · rw [setCall_call, if_neg hu, setHolder_call]
  | wakeup =>
    unfold block at hs
    dsimp only at hs
    split at hs
    · obtain ⟨k, hk, rfl⟩ := map_kstep_eq_some.mp hs
      refine ⟨.inr ⟨_, hk, .inl ⟨_, rfl⟩⟩, fun u hu => if_neg hu, ?_, ?_⟩ <;>
      · rintro b' hb h0
        rw [setCall_call, if_pos rfl] at hb
        cases hb
        cases h0
    · cases hs
      exact .moves rfl (fun u => rfl) ⟨rfl, rfl⟩
  | leave r =>
    obtain ⟨k, hk, rfl⟩ := guarded_kstep hs
    have hnone : (((({ x with kernel := k } : BlockSys).setHolder none b).setCall t none).call t) = none :=
      if_pos rfl
    refine ⟨.inr ⟨.done r, ?_, .inr (.inr ⟨⟨_, rfl⟩, hnone⟩)⟩, fun u hu => ?_, ?_, ?_⟩
    · rw [setCall_kernel, setHolder_kernel]
      exact hk
    · rw [setCall_call, if_neg hu, setHolder_call]
    · rintro b' hb h0
      rw [hnone] at hb
      cases hb
    · rintro b' hb h0
      rw [hnone] at hb
      cases hb

/-! ## One step of the system -/

/-- A thread in a blocking call is alive. -/
theorem live_of_call (hs : Slots none x.kernel)
    (hplace : ∀ t, x.call t ≠ none → x.kernel.pc t = .kernel ∨ x.kernel.pc t = .slept)
    (ht : x.call t ≠ none) : .embryo < (x.kernel.thread t).state := by
  refine hs.awake t ?_ ?_ <;> rcases hplace t ht with h0 | h0 <;> rw [h0] <;> exact fun h1 => by cases h1

/-- A step of the kernel keeps a process held, if no thread of it enters a loop's sleep. -/
theorem Held.kstep (hs : Slots none x.kernel)
    (hplace : ∀ t, x.call t ≠ none → x.kernel.pc t = .kernel ∨ x.kernel.pc t = .slept)
    (hok : x.kernel.ReapsDead a) (hstep : x.kernel.step a = some y.kernel)
    (hsleep : ∀ d ch p t, a = .work d (.sleep ch) → x.kernel.onCpu d = some (p, t) →
      ch.blocks = true → (x.kernel.thread t).mp ≠ some q)
    (hcall : ∀ t, (x.kernel.thread t).mp = some q → ∀ b ∈ y.call t, past b.2 = true → b ∈ x.call t)
    (hnew : ∀ t, y.call t ≠ none → x.call t ≠ none)
    (h : x.Held q past) : y.Held q past where
  awake t hmp hsl ch hch := by
    obtain ⟨hmp', hold | ⟨c, p, ch', ha, hon, hch', hwho⟩⟩ := hs.asleep_step hok hstep hsl
    · exact h.awake t (hmp'.symm.trans hmp) hold.1 ch (hold.2.symm.trans hch)
    · obtain rfl := Option.some.inj (hch.symm.trans hch')
      rcases hwho with rfl | ⟨d, rfl⟩
      · rfl
      · cases ha
        by_contra hb
        exact hsleep c ch p t rfl hon (Bool.not_eq_false _ ▸ hb) (hmp'.symm.trans hmp)
  clear t hmp b hb := by
    have hlive := live_of_call hs hplace (hnew t (by rw [hb]; exact fun h0 => by cases h0))
    have hmp' : (x.kernel.thread t).mp = some q := (hs.mp_step hok hstep hlive).symm.trans hmp
    by_contra hpast
    have hpast' : past b.2 = true := Bool.not_eq_false _ ▸ hpast
    exact hpast (h.clear t hmp' b (hcall t hmp' b hb hpast'))

/-- So does a step beside the kernel. -/
theorem Held.beside (hk : y.kernel = x.kernel)
    (hcall : ∀ t, (x.kernel.thread t).mp = some q → ∀ b ∈ y.call t, past b.2 = true → b ∈ x.call t)
    (h : x.Held q past) : y.Held q past where
  awake t hmp hsl ch hch := by
    rw [hk] at hmp hsl hch
    exact h.awake t hmp hsl ch hch
  clear t hmp b hb := by
    rw [hk] at hmp
    by_contra hpast
    have hpast' : past b.2 = true := Bool.not_eq_false _ ▸ hpast
    exact hpast (h.clear t hmp b (hcall t hmp b hb hpast'))

/-- What a step of the system is. -/
inductive Does (x : BlockSys) (b : BlockAct) (y : BlockSys) : Prop
  | kern {a : Act} (hb : b = .kern a) (ha : x.admits a = true) (hk : x.kernel.step a = some y.kernel)
      (hc : y.call = x.call)
  | tick (hb : b = .tick) (hk : x.kernel.step (.intrWakeup ticksChan) = some y.kernel)
      (hc : y.call = x.call)
  | other {i : PipePtr} {r : Pipe} (hb : b = .other i r) (hk : y.kernel = x.kernel) (hc : y.call = x.call)
  | enter {c : CpuId} {e : BlockEntry} {p : ProcPtr} {t : ThdPtr} (hb : b = .enter c e)
      (hr : x.runs c = some (p, t)) (hk : y.kernel = x.kernel)
      (hc : ∀ u, y.call u = if u = t then some (e.call, .acquire) else x.call u)
  | block {c : CpuId} {byte : Byte} {p : ProcPtr} {t : ThdPtr} {e : BlockCall} {st : Stage}
      (hb : b = .block c byte) (hr : x.runs c = some (p, t)) (ht : x.call t = some (e, st))
      (hs : x.Blocked c p t st y)

theorem step_does {b : BlockAct} (hs : x.step b = some y) : x.Does b y := by
  cases b with
  | kern a =>
    obtain ⟨ha, hs⟩ := Option.ite_none_right_eq_some.mp hs
    obtain ⟨k, hk, rfl⟩ := kstep_eq_some.mp hs
    exact .kern rfl ha hk rfl
  | tick =>
    obtain ⟨k, hk, rfl⟩ := guarded_kstep hs
    exact .tick rfl hk rfl
  | other i r =>
    obtain ⟨-, hs⟩ := Option.ite_none_right_eq_some.mp hs
    cases hs
    exact .other rfl rfl rfl
  | enter c e =>
    unfold step at hs
    dsimp only at hs
    split at hs
    · rename_i p t hr
      obtain ⟨-, hs⟩ := Option.ite_none_right_eq_some.mp hs
      cases hs
      exact .enter rfl hr rfl fun u => rfl
    · cases hs
  | block c byte =>
    unfold step at hs
    dsimp only at hs
    split at hs
    · rename_i p t hr
      split at hs
      · rename_i e st ht
        exact .block rfl hr ht (block_blocked hs)
      · cases hs
    · cases hs

theorem runs_eq_some (hr : x.runs c = some (p, t)) :
    x.kernel.onCpu c = some (p, t) ∧ x.kernel.panic = none ∧ x.kernel.pc t = .kernel := by
  unfold runs at hr
  split at hr
  · rename_i p' t' hon
    obtain ⟨hcond, hr⟩ := Option.ite_none_right_eq_some.mp hr
    cases hr
    exact ⟨hon, hcond.1, hcond.2.1⟩
  · cases hr

/-- Only threads without a blocking call take steps of other calls, and they sleep elsewhere. -/
theorem admits_work {w : Work} (ha : x.admits (.work c w) = true) (hon : x.kernel.onCpu c = some (p, t)) :
    x.call t = none ∧ ∀ ch, w = .sleep ch → ch.blocks = false := by
  unfold admits at ha
  simp only [hon, Bool.and_eq_true, Option.isNone_iff_eq_none] at ha
  refine ⟨ha.1, ?_⟩
  rintro ch rfl
  simpa using ha.2

section Step

variable {b : BlockAct} (hslots : Slots none x.kernel)
  (hplace : ∀ t, x.call t ≠ none → x.kernel.pc t = .kernel ∨ x.kernel.pc t = .slept)
  (hok : x.ReapsDead b)

include hslots hplace hok

/-- A held process stays so, if the tests of its threads see the flag. -/
theorem Held.step (hs : x.step b = some y) (hsleep : past .sleep = true) (hacq : past .acquire = false)
    (htest : ∀ {c p t e st}, x.runs c = some (p, t) → x.call t = some (e, st) → p = q →
      x.Blocked c p t st y → past st = false → ∀ b' ∈ y.call t, past b'.2 = false)
    (h : x.Held q past) : y.Held q past := by
  cases step_does hs with
  | kern hb ha hk hc =>
    subst hb
    refine h.kstep hslots hplace hok hk (fun d ch p t ha' hon hbl => ?_) (fun t _ b' hb' _ => hc ▸ hb')
      fun t ht => hc ▸ ht
    subst ha'
    rw [(admits_work ha hon).2 ch rfl] at hbl
    cases hbl
  | tick hb hk hc =>
    exact h.kstep (a := .intrWakeup ticksChan) hslots hplace trivial hk
      (fun d ch p t ha' => by cases ha') (fun t _ b' hb' _ => hc ▸ hb')
      fun t ht => hc ▸ ht
  | other hb hk hc => exact h.beside hk fun t _ b' hb' _ => hc ▸ hb'
  | @enter c e p t hb hr hk hc =>
    refine h.beside hk fun u _ b' hb' hpast => ?_
    rw [hc] at hb'
    split at hb'
    · cases hb'
      rw [hacq] at hpast
      cases hpast
    · exact hb'
  | @block c byte p t e st hb hr ht hbl =>
    obtain ⟨hon, hpanic, hpc⟩ := runs_eq_some hr
    have hmp := (hslots.onCpu hpanic hon).2
    have hcall : ∀ u, (x.kernel.thread u).mp = some q → ∀ b' ∈ y.call u, past b'.2 = true → b' ∈ x.call u := by
      intro u hu b' hb' hpast
      by_cases hut : u = t
      · subst hut
        have hpq : p = q := Option.some.inj (hmp.symm.trans hu)
        rw [htest hr ht hpq hbl (h.clear u hu _ ht) b' hb'] at hpast
        cases hpast
      · rw [hbl.call u hut] at hb'
        exact hb'
    rcases hbl.kernel with hk | ⟨w, hk, hw⟩
    · exact h.beside hk hcall
    · refine h.kstep (a := .work c w) hslots hplace trivial hk
        (fun d ch r u ha' hon' _ hu => ?_) hcall fun u hu => ?_
      · cases ha'
        rw [hon] at hon'
        cases hon'
        rcases hw with ⟨_, h0⟩ | ⟨-, rfl⟩ | ⟨⟨_, h0⟩, -⟩
        · cases h0
        · rw [h.clear t hu _ ht] at hsleep
          cases hsleep
        · cases h0
      · by_cases hut : u = t
        · rw [hut, ht]
          exact fun h0 => by cases h0
        · rw [← hbl.call u hut]
          exact hu

/-- The threads in blocking calls stay at their place in the kernel. -/
theorem place_step (hs : x.step b = some y) (hu : y.call u ≠ none) :
    y.kernel.pc u = .kernel ∨ y.kernel.pc u = .slept := by
  cases step_does hs with
  | kern hb ha hk hc =>
    subst hb
    rw [hc] at hu
    refine hslots.kernel_step hok hk (hplace u hu) fun c p w ha' hon => ?_
    subst ha'
    exact hu (admits_work ha hon).1
  | tick hb hk hc =>
    rw [hc] at hu
    exact hslots.kernel_step (a := .intrWakeup ticksChan) trivial hk (hplace u hu) fun c p w ha' => by cases ha'
  | other hb hk hc =>
    rw [hk]
    exact hplace u (hc ▸ hu)
  | @enter c e p t hb hr hk hc =>
    rw [hk]
    by_cases hut : u = t
    · rw [hut]
      exact .inl (runs_eq_some hr).2.2
    · rw [hc, if_neg hut] at hu
      exact hplace u hu
  | @block c byte p t e st hb hr ht hbl =>
    obtain ⟨hon, hpanic, hpc⟩ := runs_eq_some hr
    rcases hbl.kernel with hk | ⟨w, hk, hw⟩
    · rw [hk]
      by_cases hut : u = t
      · rw [hut]
        exact .inl hpc
      · rw [hbl.call u hut] at hu
        exact hplace u hu
    · by_cases hut : u = t
      · subst hut
        unfold Kernel.step at hk
        rw [if_neg (by simp [hpanic])] at hk
        simp only [hon, Option.ite_none_right_eq_some] at hk
        rcases hw with ⟨ch, rfl⟩ | ⟨⟨ch, rfl⟩, -⟩ | ⟨-, h0⟩
        · simp only [Kernel.work, Option.ite_none_right_eq_some, Option.some.injEq] at hk
          rw [← hk.2.2, (quiet_wakeup1 (x := none) _).pc]
          exact .inl hpc
        · simp only [Kernel.work, Option.ite_none_right_eq_some, Option.some.injEq] at hk
          have hq : Quiet (some c) none (x.kernel.asleep p u ch .slept) (x.kernel.sleep c p u ch .slept) :=
            quiet_park hon (by rw [Kernel.asleep, setPc_cpu, setstate_cpu]; rfl)
          rw [← hk.2.2, hq.pc, Kernel.asleep, setPc_pc, if_pos rfl]
          exact .inr rfl
        · exact absurd h0 hu
      · rw [hbl.call u hut] at hu
        refine hslots.kernel_step (a := .work c w) trivial hk (hplace u hu) fun d r w' ha' hon' => ?_
        cases ha'
        rw [hon] at hon'
        cases hon'
        exact hut rfl

omit hplace in
theorem slots_step (hs : x.step b = some y) : Slots none y.kernel := by
  cases step_does hs with
  | kern hb ha hk hc =>
    subst hb
    exact hslots.step hok hk
  | tick hb hk hc => exact hslots.step (a := .intrWakeup ticksChan) trivial hk
  | other hb hk hc => exact hk ▸ hslots
  | enter hb hr hk hc => exact hk ▸ hslots
  | @block c byte p t e st hb hr ht hbl =>
    rcases hbl.kernel with hk | ⟨w, hk, -⟩
    · exact hk ▸ hslots
    · exact hslots.step (a := .work c w) trivial hk

/-- The section of `kill` leaves the process held. -/
theorem held_of_kill (hs : x.step b = some y) (hq : x.killTarget b = some q)
    (hclear : x.Clear q Stage.pastKilled) : y.Held q Stage.pastKilled := by
  cases step_does hs with
  | kern hb ha hk hc =>
    subst hb
    refine ⟨fun t hmp hsl => absurd hsl (killTarget_wakes hq hk hmp), fun t hmp b' hb' => ?_⟩
    rw [hc] at hb'
    have hlive := live_of_call hslots hplace (t := t) (by rw [hb']; exact fun h0 => by cases h0)
    exact hclear t ((hslots.mp_step hok hk hlive).symm.trans hmp) b' hb'
  | tick hb | other hb | enter hb | block hb =>
    subst hb
    cases hq

/-- So does that of `allthdexit`. -/
theorem held_of_end (hs : x.step b = some y) (hq : x.endTarget b = some q)
    (hclear : x.Clear q Stage.pastExited) : y.Held q Stage.pastExited := by
  cases step_does hs with
  | kern hb ha hk hc =>
    subst hb
    refine ⟨fun t hmp hsl ch hch => ?_, fun t hmp b' hb' => ?_⟩
    · rw [hslots.endTarget_wakes hq hk hmp hsl] at hch
      cases hch
      rfl
    · rw [hc] at hb'
      have hlive := live_of_call hslots hplace (t := t) (by rw [hb']; exact fun h0 => by cases h0)
      exact hclear t ((hslots.mp_step hok hk hlive).symm.trans hmp) b' hb'
  | tick hb | other hb | enter hb | block hb =>
    subst hb
    cases hq

end Step

/-- The runs in which the flags are set at the right time. -/
def StrikesInTime (x : BlockSys × Struck) (a : BlockAct) : Prop := x.1.ReapsDead a ∧ x.1.StrikesClear a

instance (x : BlockSys × Struck) (a : BlockAct) : Decidable (StrikesInTime x a) :=
  inferInstanceAs (Decidable (_ ∧ _))

/-- The system with its record of the flags. -/
def blockStep : BlockSys × Struck → BlockAct → Option (BlockSys × Struck) :=
  recorded step logStruck

theorem Blocks.step {x y : BlockSys × Struck} {b : BlockAct} (h : Blocks x) (hok : StrikesInTime x b)
    (hs : blockStep x b = some y) : Blocks y := by
  obtain ⟨hstep, hlog⟩ := recorded_eq_some.mp hs
  refine ⟨slots_step h.slots hok.1 hstep, fun t ht => place_step h.slots h.place hok.1 hstep ht,
    fun q hq => ?_, fun q hq => ?_⟩
  · rw [hlog] at hq
    simp only [logStruck, Bool.and_eq_true, Bool.or_eq_true, decide_eq_true_eq] at hq
    refine ⟨hq.2, ?_⟩
    rcases hq.1 with hold | hnew
    · obtain ⟨hflag, hheld⟩ := h.killed q hold
      refine hheld.step h.slots h.place hok.1 hstep rfl rfl fun {c p t e st} hr ht hpq hbl hpast b' hb' => ?_
      by_contra h0
      rcases hbl.pastKilled b' hb' (Bool.not_eq_false _ ▸ h0) with h1 | h1
      · rw [hpast] at h1
        cases h1
      · rw [hpq, hflag] at h1
        cases h1
    · exact held_of_kill h.slots h.place hok.1 hstep hnew (hok.2.1 q hnew)
  · rw [hlog] at hq
    simp only [logStruck, Bool.and_eq_true, Bool.or_eq_true, decide_eq_true_eq] at hq
    refine ⟨hq.2, ?_⟩
    rcases hq.1 with hold | hnew
    · obtain ⟨hflag, hheld⟩ := h.exited q hold
      refine hheld.step h.slots h.place hok.1 hstep rfl rfl fun {c p t e st} hr ht hpq hbl hpast b' hb' => ?_
      by_contra h0
      rcases hbl.pastExited b' hb' (Bool.not_eq_false _ ▸ h0) with h1 | h1
      · rw [hpast] at h1
        cases h1
      · rw [hpq, hflag] at h1
        cases h1
    · exact held_of_end h.slots h.place hok.1 hstep hnew (hok.2.2 q hnew)

theorem boot_blocks : Blocks (boot, {}) :=
  ⟨boot_slots, fun t ht => absurd rfl ht, fun q hq => (by cases hq), fun q hq => (by cases hq)⟩

/-- In every run in which `kill` and `allthdexit` never strike a process while one of its threads is
between its test of the flag and its sleep, no thread of a process whose flag they have set sleeps on
a pipe or on the clock, as long as the flag is set. -/
theorem dying_threads_awake {x : BlockSys × Struck}
    (h : Reaches blockStep StrikesInTime (boot, {}) x) (hq : x.2.killed q ∨ x.2.exited q)
    (hmp : (x.1.kernel.thread t).mp = some q) (hsl : (x.1.kernel.thread t).state = .sleeping) :
    (∀ i, (x.1.kernel.thread t).chan ≠ some (nreadChan i) ∧
      (x.1.kernel.thread t).chan ≠ some (nwriteChan i)) ∧
    (x.1.kernel.thread t).chan ≠ some ticksChan := by
  have hblocks : Blocks x := h.invariant boot_blocks fun _ _ _ hx hok hs => hx.step hok hs
  have hawake : ∀ ch, (x.1.kernel.thread t).chan = some ch → ch.blocks = false := by
    rcases hq with hq | hq
    · exact (hblocks.killed q hq).2.awake t hmp hsl
    · exact (hblocks.exited q hq).2.awake t hmp hsl
  have hne : ∀ ch, ch.blocks = true → (x.1.kernel.thread t).chan ≠ some ch := by
    intro ch hch h0
    rw [hawake ch h0] at hch
    cases hch
  refine ⟨fun i => ⟨hne _ ?_, hne _ ?_⟩, hne _ rfl⟩
  · simp [nreadChan, Chan.blocks, Nat.add_mod]
  · simp [nwriteChan, Chan.blocks, Nat.add_mod]

/-! ## Two runs -/

/-- The thread on CPU `c` makes a blocking call and takes `n` steps of it. -/
def blockActs (c : CpuId) (e : BlockEntry) (n : Nat) : List BlockAct :=
  [.kern (.syscall c .other), .enter c e] ++ List.replicate n (.block c 0)

/-- The second thread of process 1 calls `exit`, up to its first sleep in `allthdexit`. -/
def exitActs : List BlockAct := (.syscall 2 .exit :: ksteps 2 21).map .kern

/-- The first thread sleeps in `piperead`; `exit` wakes it. -/
def wokenRun : List BlockAct := siblingsRun.map .kern ++ blockActs 1 (.piperead 0 1) 5 ++ exitActs

theorem dying_threads_awake_exit :
    ∃ x, Reaches blockStep StrikesInTime (boot, {}) x ∧
      (x.2.exited 1 ∧ (x.1.kernel.thread 2).mp = some 1 ∧ (x.1.kernel.thread 2).state = .sleeping) ∧
      (x.1.kernel.thread 2).chan ≠ some ticksChan := by
  have hrun : ∃ x, Reaches blockStep StrikesInTime (boot, {}) x ∧
      x.2.exited 1 ∧ (x.1.kernel.thread 2).mp = some 1 ∧ (x.1.kernel.thread 2).state = .sleeping :=
    exists_reaches wokenRun (fun x : BlockSys × Struck => x.2.exited 1 ∧
      (x.1.kernel.thread 2).mp = some 1 ∧ (x.1.kernel.thread 2).state = .sleeping) (by decide +kernel)
  obtain ⟨x, hreach, hx⟩ := hrun
  exact ⟨x, hreach, hx, (dying_threads_awake hreach (.inr hx.1) hx.2.1 hx.2.2).2⟩

/-- The first thread tests the flags in `piperead`, then `exit` sets `exited`, and then the first
thread goes to sleep. -/
def lateRun : List BlockAct :=
  siblingsRun.map .kern ++ blockActs 1 (.piperead 0 1) 4 ++ exitActs ++ [.block 1 0]

/-- The same with `sys_sleep` and `kill`. -/
def lateKillRun : List BlockAct :=
  siblingsRun.map .kern ++ blockActs 1 (.sleep 100) 4 ++
    (Act.syscall 0 (.kill 2) :: ksteps 0 1).map .kern ++ [.block 1 0]

/-- A thread of a dying process is left asleep on a pipe, with the exiting thread waiting for it, and
one on the clock. -/
theorem asleep_behind_the_flag :
    (∃ x, Reaches blockStep (fun x a => x.1.ReapsDead a) (boot, {}) x ∧
      (x.2.exited 1 ∧ (x.1.kernel.proc 1).exited = true) ∧
      ((x.1.kernel.thread 1).mp = some 1 ∧ (x.1.kernel.thread 1).state = .sleeping ∧
        (x.1.kernel.thread 1).chan = some (nreadChan 0)) ∧
      (x.1.kernel.pc 2 = .exitSleep .sysExit ∧ (x.1.kernel.thread 2).state = .sleeping)) ∧
    ∃ x, Reaches blockStep (fun x a => x.1.ReapsDead a) (boot, {}) x ∧
      (x.2.killed 1 ∧ (x.1.kernel.proc 1).killed = true) ∧
      (x.1.kernel.thread 1).mp = some 1 ∧ (x.1.kernel.thread 1).state = .sleeping ∧
        (x.1.kernel.thread 1).chan = some ticksChan := by
  constructor
  · exact exists_reaches lateRun (fun x : BlockSys × Struck => (x.2.exited 1 ∧
      (x.1.kernel.proc 1).exited = true) ∧ ((x.1.kernel.thread 1).mp = some 1 ∧
      (x.1.kernel.thread 1).state = .sleeping ∧ (x.1.kernel.thread 1).chan = some (nreadChan 0)) ∧
      (x.1.kernel.pc 2 = .exitSleep .sysExit ∧ (x.1.kernel.thread 2).state = .sleeping))
      (by decide +kernel)
  · exact exists_reaches lateKillRun (fun x : BlockSys × Struck => (x.2.killed 1 ∧
      (x.1.kernel.proc 1).killed = true) ∧ (x.1.kernel.thread 1).mp = some 1 ∧
      (x.1.kernel.thread 1).state = .sleeping ∧ (x.1.kernel.thread 1).chan = some ticksChan)
      (by decide +kernel)

end BlockSys

end Xv6
