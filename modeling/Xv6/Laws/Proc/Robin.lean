import Xv6.Laws.Proc.Loop
import Xv6.Laws.Proc.State

/-!
# Whose turn it is

`getmlfqproc` looks for a RUNNABLE MLFQ process behind the cursor `mlfq.pin`, and `nextthd` for a
RUNNABLE thread of a process behind its `pin`. Neither looks at anything else. Both are therefore
round robin: between two picks of one slot every other slot that stayed ready is picked
(`picks_in_turn`). And the queues of MLFQ play no part: a process of a lower queue is picked before
one of an upper queue when it is the nearer one (`prefersUpper_iff`).
-/

namespace Xv6

open Xv6.Lib

/-- `qlev` as a number; the upper queues have the smaller ones. -/
def Level.rank : Level → Nat
  | .hqlev => 0
  | .mqlev => 1
  | .lqlev => 2

namespace Kernel

variable {s s' : Kernel} {c : CpuId} {p q : ProcPtr} {t u : ThdPtr} {a : Act}

/-- A RUNNABLE MLFQ process. -/
def MlfqReady (s : Kernel) (p : ProcPtr) : Prop :=
  (s.proc p).stype = .mlfq ∧ (s.proc p).state = .runnable

instance (s : Kernel) : DecidablePred s.MlfqReady := fun _ => inferInstanceAs (Decidable (_ ∧ _))

theorem getmlfqproc_eq_some : s.getmlfqproc = some p ↔
    s.MlfqReady p ∧ ∀ q, s.MlfqReady q → turn s.mlfq.pin p ≤ turn s.mlfq.pin q := by
  unfold getmlfqproc
  rw [find?_scanFrom_eq_some]
  simp only [decide_eq_true_eq]
  rfl

theorem getmlfqproc_eq_none : s.getmlfqproc = none ↔ ∀ q, ¬ s.MlfqReady q := by
  unfold getmlfqproc
  rw [← Option.not_isSome_iff_eq_none, find?_scanFrom_isSome, not_exists]
  simp only [decide_eq_true_eq]
  rfl

/-! ## The queues -/

/-- A process of the upmost queue in use. -/
def Upmost (s : Kernel) (p : ProcPtr) : Prop :=
  s.MlfqReady p ∧ ∀ q, s.MlfqReady q → (s.proc p).qlev.rank ≤ (s.proc q).qlev.rank

instance (s : Kernel) : DecidablePred s.Upmost := fun _ => inferInstanceAs (Decidable (_ ∧ _))

/-- A queue is served only while the queues above it are empty. -/
def PrefersUpper (s : Kernel) : Prop :=
  (∀ p, s.getmlfqproc = some p → s.Upmost p) ∧ (s.getmlfqproc = none ↔ ∀ q, ¬ s.MlfqReady q)

/-- The queues are respected exactly when nobody of a lower queue stands between the cursor and the
first process of the upmost one. -/
theorem prefersUpper_iff (s : Kernel) : s.PrefersUpper ↔
    ∀ q, s.MlfqReady q → ∃ p, s.Upmost p ∧ turn s.mlfq.pin p ≤ turn s.mlfq.pin q := by
  constructor
  · rintro ⟨hsome, hnone⟩ q hq
    cases hget : s.getmlfqproc with
    | none => exact absurd hq (hnone.mp hget q)
    | some p => exact ⟨p, hsome p hget, (getmlfqproc_eq_some.mp hget).2 q hq⟩
  · intro hfirst
    refine ⟨fun p hp => ?_, getmlfqproc_eq_none⟩
    obtain ⟨hready, hmin⟩ := getmlfqproc_eq_some.mp hp
    obtain ⟨r, hr, hle⟩ := hfirst p hready
    have hpr : p = r := turn_inj (Nat.le_antisymm (hmin r hr.1) hle)
    exact hpr ▸ hr

/-- A process of the lowest queue right behind the cursor, one of the highest queue after it. -/
def lowFirst : Kernel :=
  { boot with proc := fun p =>
      if p = 1 then { state := .runnable, stype := .mlfq, qlev := .lqlev }
      else if p = 2 then { state := .runnable, stype := .mlfq, qlev := .hqlev }
      else {} }

theorem lower_queue_first : lowFirst.getmlfqproc = some 1 ∧ lowFirst.Upmost 2 ∧
    ¬ lowFirst.Upmost 1 ∧ ¬ lowFirst.PrefersUpper := by
  have hget : lowFirst.getmlfqproc = some 1 := by decide +kernel
  have hlow : ¬ lowFirst.Upmost 1 := by decide +kernel
  exact ⟨hget, by decide +kernel, hlow, fun h => hlow (h.1 1 hget)⟩

/-! ## The cursor of MLFQ -/

theorem reduce_boost_pin : s.reduce.boost.mlfq.pin = s.mlfq.pin := by
  obtain ⟨_, _, _, _, heq⟩ := reduce_boost_eq s
  rw [heq]

/-- What comes before the choice makes nobody ready. -/
theorem boost_reduce_mlfqReady : s.reduce.boost.MlfqReady p ↔ s.MlfqReady p := by
  unfold MlfqReady
  rw [(reduce_boost_keeps).1, (reduce_boost_keeps).2]

/-- The MLFQ process that `getschedproc` picks, if it picks one. -/
def mlfqChoice (s : Kernel) : Option ProcPtr :=
  s.getschedproc.1.filter fun p => (s.proc p).stype = .mlfq

/-- What is chosen in MLFQ is what `getmlfqproc` finds. -/
theorem mlfqChoice_spec (h : s.mlfqChoice = some p) :
    s.getmlfqproc = some p ∧ s.getschedproc.1 = some p := by
  obtain ⟨hsched, htype⟩ := Option.filter_eq_some_iff.mp h
  have htype : (s.proc p).stype = .mlfq := of_decide_eq_true htype
  refine ⟨?_, hsched⟩
  have hchoice : s.schedChoice = some p := by
    unfold getschedproc at hsched
    split at hsched
    · split at hsched
      · rename_i heq
        exact heq.trans hsched
      · exact hsched
    · exact hsched
  have hstride : s.getstrideproc ≠ some p := by
    intro h0
    rw [((getstrideproc_least s).1 p h0).1] at htype
    cases htype
  unfold schedChoice at hchoice
  split at hchoice
  · rename_i h1 h2
    split at hchoice
    · exact absurd (h1.trans hchoice) hstride
    · exact h2.trans hchoice
  · rename_i h1 h2
    exact absurd (h1.trans hchoice) hstride
  · rename_i h1 h2
    exact h2.trans hchoice
  · cases hchoice

/-- `getschedproc` moves the cursor to the MLFQ process it picks. -/
theorem getschedproc_pin (s : Kernel) :
    s.getschedproc.2.mlfq.pin = s.mlfqChoice.getD s.mlfq.pin := by
  cases hc : s.mlfqChoice with
  | some p =>
    obtain ⟨hget, hsched⟩ := mlfqChoice_spec hc
    unfold getschedproc at hsched ⊢
    rw [hget] at hsched ⊢
    dsimp only at hsched ⊢
    split
    · rfl
    · rename_i hne
      rw [if_neg hne] at hsched
      exact absurd hsched hne
  | none =>
    unfold mlfqChoice at hc
    cases hget : s.getmlfqproc with
    | none =>
      unfold getschedproc
      rw [hget]
      rfl
    | some p =>
      have htype := (getmlfqproc_eq_some.mp hget).1.1
      unfold getschedproc at hc ⊢
      rw [hget] at hc ⊢
      dsimp only at hc ⊢
      split
      · rename_i heq
        rw [if_pos heq, Option.filter_some, if_pos (decide_eq_true htype)] at hc
        cases hc
      · rfl

/-! ### Nobody else moves it -/

theorem withNext_pin {m : Panic} {k : Kernel → ThdPtr → Kernel}
    (hk : ∀ s t, (k s t).mlfq.pin = s.mlfq.pin) :
    (s.withNext p m k).mlfq.pin = s.mlfq.pin := by
  unfold withNext
  split
  · rfl
  · split
    · rfl
    · rw [hk]
      rfl

theorem switchuvm_mlfq : (s.switchuvm c p).mlfq = s.mlfq := by
  unfold switchuvm
  split
  · rfl
  · split <;> rfl

theorem leaveCpu_pin : (s.leaveCpu c p).mlfq.pin = s.mlfq.pin := by
  have hcharge : ∀ s : Kernel, (s.charge p).mlfq.pin = s.mlfq.pin := by
    intro s
    unfold charge
    split
    · split <;> rfl
    · split <;> rfl
  have hdemote : ∀ s : Kernel, (s.demote p).mlfq.pin = s.mlfq.pin := by
    intro s
    unfold demote
    split
    · split <;> rfl
    · rfl
  unfold leaveCpu
  rw [release_mlfq, hdemote, hcharge]
  rfl

@[simp] theorem sched_pin : (s.sched c p t).mlfq.pin = s.mlfq.pin := by
  unfold sched
  split
  · rfl
  · dsimp only
    split
    · rw [withNext_pin fun s u => ?_]
      · rfl
      · split
        · simp
        · simp
    · rw [leaveCpu_pin]
      rfl

@[simp] theorem cpuShare_pin (share : Word) : (s.cpuShare p share).mlfq.pin = s.mlfq.pin := by
  obtain ⟨_, hm⟩ := setCpuShare_mlfq s.mlfq (s.proc p) share
  unfold cpuShare
  rw [hm]

@[simp] theorem sleep_pin (chan : Chan)
    (k : Pc) : (s.sleep c p t chan k).mlfq.pin = s.mlfq.pin := by
  simp [sleep]

@[simp] theorem allthdRound_pin : (s.allthdRound p t).2.mlfq.pin = s.mlfq.pin := by
  unfold allthdRound
  split
  · rfl
  · split <;> rfl

@[simp] theorem allthdexit_pin : (s.allthdexit p t).2.mlfq.pin = s.mlfq.pin := by
  unfold allthdexit
  split
  · rfl
  · rw [allthdRound_pin, wakeThds_eq]
    simp

@[simp] theorem abandon_pin : (abandon p s q).mlfq.pin = s.mlfq.pin := by
  unfold abandon
  split
  · dsimp only
    split
    · rw [wakeup1_eq, wakeAll_mlfq]
      rfl
    · rfl
  · rfl

@[simp] theorem exitFinish_pin : (s.exitFinish c p t).mlfq.pin = s.mlfq.pin := by
  have hfold : ∀ (l : List ProcPtr) (s : Kernel),
      (l.foldl (abandon p) s).mlfq.pin = s.mlfq.pin := by
    intro l
    induction l with
    | nil => intro s; rfl
    | cons q l ih =>
      intro s
      rw [List.foldl_cons, ih, abandon_pin]
  unfold exitFinish
  simp [hfold, wakeup1_eq]

@[simp] theorem exitRound_pin (k : ExitCaller)
    (x : Round × Kernel) : (exitRound c p t k x).mlfq.pin = x.2.mlfq.pin := by
  obtain ⟨r, s⟩ := x
  cases r with
  | done =>
    unfold exitRound
    rw [exitFinish_pin]
  | failed => cases k <;> rfl
  | sleeps =>
    unfold exitRound
    rw [sleep_pin]

@[simp] theorem execRound_pin (x : Round × Kernel) :
    (execRound c p t x).mlfq.pin = x.2.mlfq.pin := by
  obtain ⟨r, s⟩ := x
  cases r with
  | done =>
    have hfree := freeAll_mlfq s (P := fun u x => u ≠ t ∧ x.mp = some p ∧ x.state = .zombie)
    simp only [execRound, execFinish, release_mlfq, ret, setPc_mlfq, setThd_mlfq, switchuvm_mlfq]
    exact congrArg Mlfq.pin hfree
  | failed => rfl
  | sleeps =>
    unfold execRound
    rw [sleep_pin]

@[simp] theorem waitRound_pin : (s.waitRound c p t).mlfq.pin = s.mlfq.pin := by
  unfold waitRound
  split
  · rw [reap_eq, release_mlfq]
    unfold ret
    rw [setPc_mlfq, setThd_mlfq, setProc_mlfq, freeAll_mlfq]
  · split
    · rfl
    · rw [sleep_pin]

@[simp] theorem joinRound_pin (tid : Word) : (s.joinRound c p t tid).mlfq.pin = s.mlfq.pin := by
  unfold joinRound
  split
  · simp [ret]
  · split
    · rfl
    · rw [sleep_pin]

theorem resume_pin : (s.resume c p t).mlfq.pin = s.mlfq.pin := by
  unfold resume
  dsimp only
  cases s.pc t
  case waitSleep => rw [waitRound_pin, setThd_mlfq]
  case joinSleep tid => rw [joinRound_pin, setThd_mlfq]
  case exitSleep k => rw [exitRound_pin, allthdRound_pin, setThd_mlfq]
  case execSleep => rw [execRound_pin, allthdRound_pin, setThd_mlfq]
  all_goals rfl

theorem allocFail_pin (k : AllocCaller) : (s.allocFail t k).mlfq.pin = s.mlfq.pin := by
  cases k <;> rfl

theorem work_pin {w : Work} (h : s.work c p t w = some s') : s'.mlfq.pin = s.mlfq.pin := by
  cases w
  all_goals
    simp only [work, Option.ite_none_right_eq_some, Option.some.injEq] at h
    first | subst h | obtain ⟨-, rfl⟩ := h
  case sleep => rw [sleep_pin]
  case wakeup => rw [wakeup1_eq, wakeAll_mlfq]
  case path | chdir => split <;> rfl
  case grow => rw [switchuvm_mlfq]
  case ofile | done => rfl

/-- The calls that do more than write to a table. -/
theorem kstep_pin {ok : Bool} {page : Option Nat} (h : s.kstep c p t ok page = some s') :
    s'.mlfq.pin = s.mlfq.pin := by
  unfold kstep at h
  cases hpc : s.pc t
  all_goals
    simp only [hpc, Option.ite_none_right_eq_some, Option.some.injEq, reduceCtorEq] at h
    first | subst h | obtain ⟨-, rfl⟩ := h | skip
  case setCpuShare share => exact cpuShare_pin share
  case kill =>
    unfold kill
    split
    · rw [ret, setPc_mlfq, setThd_mlfq, wakeThds_eq, wakeAll_mlfq, setProc_mlfq]
    · rfl
  case wait => rw [waitRound_pin]
  case threadJoin => rw [joinRound_pin]
  case threadExitDie =>
    unfold threadExitDie
    rw [sched_pin, setPc_mlfq, setstate_mlfq, wakeup1_eq, wakeAll_mlfq, setThd_mlfq]
  case exitShare => rw [setPc_mlfq, cpuShare_pin]
  case exitThds => rw [exitRound_pin, allthdexit_pin]
  case execThds => rw [execRound_pin, allthdexit_pin]
  case threadExit | fork | exitEntry | exitClear | exitPut | forkCwd =>
    simp only [threadExit, allocproc, exitEntry, exitClear, exitNextFd, exitPut, forkCwd]
    split <;> rfl
  case allocthd k | allocStack k _ =>
    simp only [allocthd, allocStack]
    split
    · rfl
    · exact allocFail_pin k
  case allocOwner k n => cases k <;> rfl
  case exitClose | exec =>
    simp only [exitClose, exitNextFd, execPath]
    split
    · rfl
    · split <;> rfl
  case forkFile =>
    unfold forkFile
    dsimp only
    split <;> split <;> rfl
  case createStack | createArgs =>
    split
    · rfl
    · simp [createFail, ret]
  case forkCopy => split <;> rfl
  case sysret | chdirSet | exitCwd | forkInit | forkRun | createRun => rfl

/-- The MLFQ process that a step picks. -/
def mlfqPick (s : Kernel) : Act → Option ProcPtr
  | .dispatch _ => s.reduce.boost.mlfqChoice
  | _ => none

/-- Every step leaves the cursor at the MLFQ process it picks, or where it was. -/
theorem step_pin (h : s.step a = some s') : s'.mlfq.pin = (s.mlfqPick a).getD s.mlfq.pin := by
  cases steps h with
  | @dispatch c =>
    show (s.scheduler c).mlfq.pin = s.reduce.boost.mlfqChoice.getD s.mlfq.pin
    have hpin := getschedproc_pin s.reduce.boost
    rw [reduce_boost_pin] at hpin
    unfold scheduler
    split
    · rename_i heq
      rw [heq] at hpin
      exact hpin
    · rename_i heq
      rw [heq] at hpin
      rw [withNext_pin fun s u => ?_]
      · exact hpin
      · simp [switchuvm_mlfq]
  | resume => exact resume_pin ..
  | preempt =>
    unfold yield
    rw [sched_pin, setstate_mlfq]
    rfl
  | intrWakeup =>
    rw [wakeup1_eq, wakeAll_mlfq]
    rfl
  | trap _ _ h₁ =>
    subst h₁
    split <;> split <;> rfl
  | syscall => rfl
  | kstep _ hk => exact kstep_pin hk
  | work _ _ hw => exact work_pin hw

/-! ## Round robin -/

/-- `nextthd(p)` from the cursor that the process has. -/
def thdPick (s : Kernel) (p : ProcPtr) : Option ThdPtr := (s.proc p).pin.bind (s.nextthd p)

/-- A RUNNABLE thread of `p`. -/
def ThdReady (s : Kernel) (p : ProcPtr) (t : ThdPtr) : Prop :=
  (s.thread t).mp = some p ∧ (s.thread t).state = .runnable

instance (s : Kernel) (p : ProcPtr) : DecidablePred (s.ThdReady p) :=
  fun _ => inferInstanceAs (Decidable (_ ∧ _))

variable {run call : Nat → Kernel} {act : Nat → Act} {m n : Nat} {i j : ProcPtr}

/-- MLFQ in a run of the kernel. -/
theorem mlfq_in_turn (hmn : m < n)
    (hrun : ∀ k, m ≤ k → k < n → (run k).step (act k) = some (run (k + 1)))
    (hm : (run m).mlfqPick (act m) = some i) (hn : (run n).mlfqPick (act n) = some i) (hj : j ≠ i)
    (hready : ∀ k, m ≤ k → k ≤ n → (run k).mlfqPick (act k) ≠ none → (run k).MlfqReady j) :
    ∃ k, m < k ∧ k < n ∧ (run k).mlfqPick (act k) = some j := by
  refine round_robin (fun k => (run k).mlfq.pin) (fun k p => decide ((run k).MlfqReady p))
    hmn ?_ ?_ hm hn hj ?_
  · intro k hmk hkn
    exact step_pin (hrun k hmk hkn)
  · intro k x hmk hkn hpick
    cases hact : act k with
    | dispatch c =>
      rw [hact] at hpick
      obtain ⟨hget, -⟩ := mlfqChoice_spec hpick
      obtain ⟨hx, hfirst⟩ := getmlfqproc_eq_some.mp hget
      rw [reduce_boost_pin] at hfirst
      simp only [boost_reduce_mlfqReady] at hx hfirst
      rw [find?_scanFrom_eq_some]
      simpa only [decide_eq_true_eq] using ⟨hx, hfirst⟩
    | resume | preempt | intrWakeup | trap | syscall | kstep | work =>
      rw [hact] at hpick
      cases hpick
  · intro k x hmk hkn hpick
    refine decide_eq_true (hready k hmk hkn ?_)
    rw [hpick]
    exact nofun

/-- The threads of `p` in a run of calls of `nextthd(p)`. -/
theorem thds_in_turn (hmn : m < n)
    (hcall : ∀ k, m ≤ k → k < n →
      ((call (k + 1)).proc p).pin = ((call k).thdPick p).or ((call k).proc p).pin)
    (hm : (call m).thdPick p = some t) (hn : (call n).thdPick p = some t) (hu : u ≠ t)
    (hready : ∀ k, m ≤ k → k ≤ n → (call k).thdPick p ≠ none → (call k).ThdReady p u) :
    ∃ k, m < k ∧ k < n ∧ (call k).thdPick p = some u := by
  -- the cursor stays set
  have hpin : ∀ k, m ≤ k → k ≤ n → ∃ x, ((call k).proc p).pin = some x := by
    intro k hmk
    induction k, hmk using Nat.le_induction with
    | base =>
      intro _
      obtain ⟨x, hx, -⟩ := Option.bind_eq_some_iff.mp hm
      exact ⟨x, hx⟩
    | succ k hmk ih =>
      intro hkn
      obtain ⟨x, hx⟩ := ih (by omega)
      rw [hcall k hmk (by omega), hx]
      cases (call k).thdPick p with
      | none => exact ⟨x, rfl⟩
      | some y => exact ⟨y, rfl⟩
  refine round_robin (fun k => ((call k).proc p).pin.getD 0)
    (fun k v => decide ((call k).ThdReady p v)) hmn ?_ ?_ hm hn hu ?_
  · intro k hmk hkn
    obtain ⟨x, hx⟩ := hpin k hmk (by omega)
    rw [hcall k hmk hkn, hx]
    cases (call k).thdPick p <;> rfl
  · intro k v hmk hkn hpick
    obtain ⟨x, hx, hnext⟩ := Option.bind_eq_some_iff.mp hpick
    rw [hx]
    exact hnext
  · intro k v hmk hkn hpick
    refine decide_eq_true (hready k hmk hkn ?_)
    rw [hpick]
    exact nofun

/-- Between two picks of one MLFQ process every other one that stays ready is picked; and between
two picks of one thread of `p` every other thread of it that stays ready. Between two calls of
`nextthd(p)` anything may change but the cursor. -/
theorem picks_in_turn :
    (∀ (run : Nat → Kernel) (act : Nat → Act) (m n : Nat) (i j : ProcPtr), m < n →
      (∀ k, m ≤ k → k < n → (run k).step (act k) = some (run (k + 1))) →
      (run m).mlfqPick (act m) = some i → (run n).mlfqPick (act n) = some i → j ≠ i →
      (∀ k, m ≤ k → k ≤ n → (run k).mlfqPick (act k) ≠ none → (run k).MlfqReady j) →
      ∃ k, m < k ∧ k < n ∧ (run k).mlfqPick (act k) = some j) ∧
    (∀ (call : Nat → Kernel) (p : ProcPtr) (m n : Nat) (t u : ThdPtr), m < n →
      (∀ k, m ≤ k → k < n →
        ((call (k + 1)).proc p).pin = ((call k).thdPick p).or ((call k).proc p).pin) →
      (call m).thdPick p = some t → (call n).thdPick p = some t → u ≠ t →
      (∀ k, m ≤ k → k ≤ n → (call k).thdPick p ≠ none → (call k).ThdReady p u) →
      ∃ k, m < k ∧ k < n ∧ (call k).thdPick p = some u) :=
  ⟨fun _ _ _ _ _ _ hmn hrun hm hn hj hready => mlfq_in_turn hmn hrun hm hn hj hready,
    fun _ _ _ _ _ _ hmn hcall hm hn hu hready => thds_in_turn hmn hcall hm hn hu hready⟩

/-- Two processes with one thread each, both ready. -/
def twoReady : Kernel :=
  { boot with
    proc := fun p =>
      if p = 0 then { state := .runnable, stype := .mlfq, pin := some 0 }
      else if p = 1 then { state := .runnable, stype := .mlfq, pin := some 1 }
      else {}
    thread := fun t =>
      if t = 0 then { kstack := some 0, state := .runnable, tid := 1, mp := some 0 }
      else if t = 1 then { kstack := some 1, state := .runnable, tid := 2, mp := some 1 }
      else {}
    pc := fun _ => .forkret }

/-- A slice of five ticks on CPU 0. -/
def sliceActs : List Act :=
  .dispatch 0 :: .resume 0 :: (List.replicate 4 [.preempt 0, .resume 0]).flatten ++ [.preempt 0]

def roundActs (k : Nat) : Act := sliceActs.getD (k % 11) (.dispatch 0)

/-- The two processes take turns. -/
def roundRun : Nat → Kernel
  | 0 => twoReady
  | k + 1 => ((roundRun k).step (roundActs k)).getD (roundRun k)

theorem roundRun_step (k : Nat) (hk : k < 22) :
    (roundRun k).step (roundActs k) = some (roundRun (k + 1)) := by
  have hsome : ∀ k < 22, ((roundRun k).step (roundActs k)).isSome := by decide +kernel
  obtain ⟨s, hs⟩ := Option.isSome_iff_exists.mp (hsome k hk)
  rw [roundRun, hs]
  rfl

/-- One process with two threads, before its call of `nextthd` number `k`. -/
def twoThds (k : Nat) : Kernel :=
  { boot with
    proc := fun _ =>
      { state := .runnable, stype := .mlfq, pin := some (if k % 2 = 0 then 0 else 1) }
    thread := fun t => if t < 2 then { state := .runnable, mp := some 0 } else {} }

/-- Two processes take turns, and so do two threads. -/
theorem two_in_turn :
    (∃ k, 0 < k ∧ k < 22 ∧ (roundRun k).mlfqPick (roundActs k) = some 0) ∧
    ∃ k, 0 < k ∧ k < 2 ∧ (twoThds k).thdPick 0 = some 0 := by
  refine ⟨picks_in_turn.1 roundRun roundActs 0 22 1 0 (by decide) ?_ (by decide +kernel)
      (by decide +kernel) (by decide) ?_,
    picks_in_turn.2 twoThds 0 0 2 1 0 (by decide) ?_ (by decide +kernel) (by decide +kernel)
      (by decide) ?_⟩
  · intro k _ hk
    exact roundRun_step k hk
  · have hready : ∀ k < 23,
        (roundRun k).mlfqPick (roundActs k) ≠ none → (roundRun k).MlfqReady 0 := by
      decide +kernel
    intro k _ hk
    exact hready k (by omega)
  · have hcursor : ∀ k < 2,
        ((twoThds (k + 1)).proc 0).pin = ((twoThds k).thdPick 0).or ((twoThds k).proc 0).pin := by
      decide +kernel
    intro k _ hk
    exact hcursor k hk
  · intro k _ _ _
    exact ⟨rfl, rfl⟩

end Kernel

end Xv6
