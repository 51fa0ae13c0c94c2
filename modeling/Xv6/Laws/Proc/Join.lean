import Mathlib.Logic.Function.Basic
import Mathlib.Data.List.Nodup
import Xv6.Laws.Proc.Turn
import Xv6.Laws.Proc.Stacks

/-!
# The contract of `thread_join`

`JoinLog` keeps beside the kernel what the contract speaks of: the user stack of each slot
(`t->usp`), and, by tid, which threads were made for which process, what `thread_exit` was called
with, what the joins returned, and which kernel and user stacks were given back. An entry of a
list is a call; a list without a tid twice says that the call was made once.

The word that comes with an action is the answer of `ualloc` in `thread_create`, and the size of
the new image in `exec`.

A ZOMBIE slot that a join can still find has its `thread_exit` in the log: a thread that ends in
`exit` leaves a process in which every slot is ZOMBIE, so nobody is left to join it.
-/

namespace Xv6

open Function Xv6.Lib

/-- The user stacks, and what is remembered of the threads of a run. -/
structure JoinLog where
  /-- `t->usp` -/
  usp : ThdPtr → Word := fun _ => 0
  /-- the process and the tid of each thread made -/
  created : List (ProcPtr × Word) := [(0, 1)]
  /-- the tid and the user stack, each time a thread is given one -/
  given : List (Word × Word) := [(1, 0)]
  /-- `thread_exit(v)`: the process, the tid and `v` -/
  exited : List (ProcPtr × Word × Word) := []
  /-- a join that returned 0: the process, the tid and the value -/
  joined : List (ProcPtr × Word × Word) := []
  /-- the tids whose kernel stack was given back -/
  kfreed : List Word := []
  /-- the tids whose user stack was given back, with the stack -/
  ufreed : List (Word × Word) := []

namespace Kernel

variable {s s' s₁ : Kernel} {a : Act} {p q : ProcPtr} {t u v n : ThdPtr} {c : CpuId} {l : JoinLog}
  {sp : Word}

/-- The kernel stack of slot `u` is given back. -/
def Loses (s s' : Kernel) (u : ThdPtr) : Prop := (s.thread u).kstack ≠ none ∧ (s'.thread u).kstack = none

instance (s s' : Kernel) (u : ThdPtr) : Decidable (s.Loses s' u) :=
  inferInstanceAs (Decidable (_ ∧ _))

/-- The tids of the slots whose kernel stack is given back. -/
def freedTids (s s' : Kernel) : List Word :=
  ((List.finRange NTHREAD).filter fun u => s.Loses s' u).map fun u => (s.thread u).tid

/-- Records what a step does for a thread that is being made. -/
def logMaking (s : Kernel) (p : ProcPtr) (t : ThdPtr) (sp : Word) (old l : JoinLog) : Making → JoinLog
  | .nothing => l
  | .owns k n => { l with created := ((AllocCaller.next k p n).1, (s.thread n).tid) :: l.created }
  | .places n => { l with
      usp := update l.usp n sp
      given := ((s.thread n).tid, sp) :: l.given }
  | .inherits n => { l with
      usp := update l.usp n (l.usp t)
      given := ((s.thread n).tid, l.usp t) :: l.given }
  | .drops n => { l with ufreed := ((s.thread n).tid, old.usp n) :: l.ufreed }

/-- Records a stretch of thread `t` of `p`. -/
def logStretch (s : Kernel) (p : ProcPtr) (t : ThdPtr) (a : Act) (sp : Word) (old l : JoinLog) : JoinLog :=
  match s.label p t a with
  | .dies retval => { l with exited := (p, (s.thread t).tid, retval) :: l.exited }
  | .joins u => { l with
      joined := (p, (s.thread u).tid, (s.thread u).eax) :: l.joined
      ufreed := ((s.thread u).tid, old.usp u) :: l.ufreed }
  | .commits => { l with
      usp := update l.usp t sp
      given := ((s.thread t).tid, sp) :: l.given }
  | .begins => l
  | .plain => s.logMaking p t sp old l (a.making (s.pc t))

/-- What every step does to the user stacks and the log: a slot that is freed has no stacks. -/
def logFrees (s s' : Kernel) (l : JoinLog) : JoinLog :=
  { l with
    usp := fun u => if s.Loses s' u then 0 else l.usp u
    kfreed := s.freedTids s' ++ l.kfreed }

/-- Records a step. -/
def logJoin (s : Kernel) (b : Act × Word) (s' : Kernel) (l : JoinLog) : JoinLog :=
  match b.1.cpu.bind s.onCpu with
  | some (p, t) => s.logStretch p t b.1 b.2 l (s.logFrees s' l)
  | none => s.logFrees s' l

/-- The invariant of the kernel and its log. -/
structure Joins (s : Kernel) (l : JoinLog) : Prop where
  tids : Tids s
  created : ∀ u q, (s.thread u).state.started → (s.thread u).mp = some q →
    (q, (s.thread u).tid) ∈ l.created
  owned : ∀ v n q, (s.pc v).hold.slot = some n → (s.pc v).hold.owned = true →
    (s.thread n).mp = some q → (q, (s.thread n).tid) ∈ l.created
  given : ∀ u, (s.thread u).state.started → ((s.thread u).tid, l.usp u) ∈ l.given
  placed : ∀ v n, (s.pc v).hold.slot = some n → (s.pc v).placed →
    ((s.thread n).tid, l.usp n) ∈ l.given
  exited : ∀ u q, (s.thread u).state = .zombie → (s.thread u).mp = some q →
    (q, (s.thread u).tid, (s.thread u).eax) ∈ l.exited ∨ s.AllZombie q
  /-- nobody sleeps for a ZOMBIE -/
  waits : ∀ v i q, s.pc v = .joinSleep i → (s.thread v).state = .sleeping → (s.thread v).mp = some q →
    (s.thread v).chan = some (.proc q) ∧ s.joinTarget q i = none
  retired : ∀ i ∈ l.kfreed, i.toNat < s.nexttid.toNat ∧
    ∀ u, (s.thread u).state ≠ .unused → (s.thread u).tid ≠ i
  kfreed : l.kfreed.Nodup
  ufreed : ∀ e ∈ l.ufreed, e.1 ∈ l.kfreed ∧ e ∈ l.given
  ufreed_nodup : (l.ufreed.map Prod.fst).Nodup
  joined : ∀ e ∈ l.joined, e ∈ l.exited ∧ (e.1, e.2.1) ∈ l.created ∧ e.2.1 ∈ l.ufreed.map Prod.fst
  joined_nodup : (l.joined.map fun e => e.2.1).Nodup

/-! ## Scheduling -/

theorem Joins.quiet {x y : Option CpuId} (h : Joins s l) (hq : Quiet x y s s') : Joins s' l where
  tids := h.tids.quiet hq
  created u q hu hmp := by
    rw [(hq.thd u).tid]
    exact h.created u q ((SameSlot.started (hq.thd u)).mp hu) ((hq.thd u).mp.symm.trans hmp)
  owned v n q hn howned hmp := by
    rw [hq.pc] at hn howned
    rw [(hq.thd n).tid]
    exact h.owned v n q hn howned ((hq.thd n).mp.symm.trans hmp)
  given u hu := by
    rw [(hq.thd u).tid]
    exact h.given u ((SameSlot.started (hq.thd u)).mp hu)
  placed v n hn hplaced := by
    rw [hq.pc] at hn hplaced
    rw [(hq.thd n).tid]
    exact h.placed v n hn hplaced
  exited u q hz hmp := by
    have hz' := (hq.thd u).zombie.mp hz
    rw [(hq.thd u).tid, (hq.thd u).eax hz']
    refine (h.exited u q hz' ((hq.thd u).mp.symm.trans hmp)).imp id fun hall w hw => ?_
    exact (hq.thd w).zombie.mpr (hall w ((hq.thd w).mp.symm.trans hw))
  waits v i q hpc hsl hmp := by
    rw [hq.pc] at hpc
    obtain ⟨hsl', hchan⟩ := (hq.thd v).asleep hsl
    rw [hchan, hq.joinTarget]
    exact h.waits v i q hpc hsl' ((hq.thd v).mp.symm.trans hmp)
  retired i hi := by
    obtain ⟨h1, h2⟩ := h.retired i hi
    rw [hq.nexttid]
    refine ⟨h1, fun u hu => ?_⟩
    rw [(hq.thd u).tid]
    exact h2 u fun h0 => hu ((SameSlot.unused (hq.thd u)).mpr h0)
  kfreed := h.kfreed
  ufreed := h.ufreed
  ufreed_nodup := h.ufreed_nodup
  joined := h.joined
  joined_nodup := h.joined_nodup

theorem Quiet.loses {x y : Option CpuId} (hq : Quiet x y s s₁) (u : ThdPtr) :
    s₁.Loses s' u ↔ s.Loses s' u := by
  unfold Loses
  rw [(hq.thd u).kstack]

theorem Quiet.freedTids {x y : Option CpuId} (hq : Quiet x y s s₁) (s' : Kernel) :
    s₁.freedTids s' = s.freedTids s' := by
  unfold Kernel.freedTids
  have hfilter : (fun u => decide (s₁.Loses s' u)) = fun u => decide (s.Loses s' u) := by
    funext u
    simp only [hq.loses]
  have hmap : (fun u => (s₁.thread u).tid) = fun u => (s.thread u).tid := by
    funext u
    exact (hq.thd u).tid
  rw [hfilter, hmap]

/-- Scheduling frees nothing. -/
theorem Quiet.logFrees {x y : Option CpuId} (hq : Quiet x y s s') (l : JoinLog) :
    s.logFrees s' l = l := by
  have hkeeps : ∀ u, ¬ s.Loses s' u := fun u h0 => h0.1 ((hq.thd u).kstack.symm.trans h0.2)
  have hnone : s.freedTids s' = [] := by
    unfold Kernel.freedTids
    rw [List.map_eq_nil_iff, List.filter_eq_nil_iff]
    exact fun u _ h0 => hkeeps u (of_decide_eq_true h0)
  unfold Kernel.logFrees
  rw [hnone]
  simp only [hkeeps, ↓reduceIte, List.nil_append]

/-! ## What a stretch says of its thread -/

/-- The stretch that ends a join. -/
theorem Stretch.joins (hst : Stretch s a c p t s') (hl : s.label p t a = .joins u) :
    ((s.thread u).mp = some p ∧ (s.thread u).state = .zombie) ∧ (s'.thread u).kstack = none := by
  cases hst with
  | @join w i hl' hw hpc hq =>
    obtain rfl : w = u := Label.joins.inj (hl'.symm.trans hl)
    have hw := List.find?_some hw
    simp only [decide_eq_true_eq] at hw
    refine ⟨⟨hw.1, hw.2.2⟩, ?_⟩
    rw [(hq.thd w).kstack, setPc_thread, freeThd_thread, if_pos rfl]
    rfl
  | begins hl' | die hl' | commit hl' | quiet hl' | move hl' | sleep hl' | await hl' | back hl'
  | finish hl' | kill hl' | misbehave hl' | reap hl' | allocproc hl' | forkFail hl' | alloc hl'
  | stack hl' | own hl' | fail hl' | failFork hl' | start hl' | grow hl' =>
    rw [hl] at hl'
    cases hl'

/-- What the acting thread has reserved after a stretch. -/
theorem Stretch.hold_self (hst : Stretch s a c p t s') (hn : (s'.pc t).hold.slot = some n) :
    ((s.pc t).hold.slot = some n ∧ (s'.pc t).hold.owned = (s.pc t).hold.owned ∧
        SameSlot (s.thread n) (s'.thread n) ∧
        ((s'.pc t).placed → (s.pc t).placed ∨ s.label p t a = .plain ∧ (a.making (s.pc t)).stacks)) ∨
      ((s'.pc t).hold.owned = false ∧ (s'.pc t).placed = false) ∨
      ∃ k, s.label p t a = .plain ∧ a.making (s.pc t) = .owns k n ∧
        (s'.thread n).mp = some (AllocCaller.next k p n).1 ∧ (s'.thread n).tid = (s.thread n).tid ∧
        (s'.pc t).placed = false := by
  cases hst.lands with
  | same hl _ hhold hthd =>
    rcases hhold with h0 | ⟨-, h2, h3, h5⟩
    · rw [h0] at hn
      cases hn
    · exact .inl ⟨h2.symm.trans hn, h3, hthd n, fun hp => (h5 hp).imp id fun hm => ⟨hl, hm⟩⟩
  | sleep _ hold | clear hold =>
    rw [hold] at hn
    cases hn
  | allocproc hpc =>
    rw [hpc] at hn
    cases hn
  | filling _ _ _ hplaced howned =>
    rcases howned with h0 | ⟨m, k, hm, hl, hmaking, hmp, htid⟩
    · exact .inr (.inl ⟨h0, hplaced⟩)
    · cases hm.symm.trans hn
      exact .inr (.inr ⟨k, hl, hmaking, hmp, htid, hplaced⟩)

/-- A thread that has fallen asleep in `thread_join` sleeps on its process, and found no ZOMBIE. -/
theorem Stretch.joinSleep_self {i : Word} (hrun : (s.thread t).state = .running)
    (hmp : (s.thread t).mp = some p) (hst : Stretch s a c p t s') (hpc : s'.pc t = .joinSleep i)
    (hsl : (s'.thread t).state = .sleeping) :
    (s'.thread t).chan = some (.proc p) ∧ (s'.thread t).mp = some p ∧ s.joinTarget p i = none := by
  cases hst.lands with
  | same _ _ _ hthd =>
    have hawake := ((hthd t).asleep hsl).1
    rw [hrun] at hawake
    cases hawake
  | sleep _ _ _ hj hthd =>
    obtain ⟨hchan, htarget⟩ := hj i hpc
    refine ⟨?_, hthd.mp.trans hmp, htarget⟩
    rw [(hthd.asleep hsl).2, hchan]
  | clear _ _ hj | filling _ _ hj => exact absurd hpc (hj i)
  | allocproc hpc' => cases hpc.symm.trans hpc'

/-! ## What the log keeps -/

section Log

variable (s s' p t a sp l)

/-- The log after a stretch of thread `t` of `p`. -/
def logged : JoinLog := s.logStretch p t a sp l (s.logFrees s' l)

theorem logged_grows :
    (∀ e ∈ l.created, e ∈ (s.logged s' a p t l sp).created) ∧
      (∀ e ∈ l.given, e ∈ (s.logged s' a p t l sp).given) ∧
      (∀ e ∈ l.exited, e ∈ (s.logged s' a p t l sp).exited) ∧
      (s.logged s' a p t l sp).kfreed = s.freedTids s' ++ l.kfreed := by
  unfold logged logStretch
  cases s.label p t a with
  | plain =>
    dsimp only
    cases a.making (s.pc t) <;>
      exact ⟨fun e he => by simp [logMaking, logFrees, he], fun e he => by simp [logMaking, logFrees, he],
        fun e he => by simp [logMaking, logFrees, he], rfl⟩
  | begins | joins w | dies w | commits =>
    exact ⟨fun e he => by simp [logFrees, he], fun e he => by simp [logFrees, he],
      fun e he => by simp [logFrees, he], rfl⟩

variable {s s' p t a sp l}

theorem logged_owns {k : AllocCaller} (hl : s.label p t a = .plain) (hm : a.making (s.pc t) = .owns k n) :
    ((AllocCaller.next k p n).1, (s.thread n).tid) ∈ (s.logged s' a p t l sp).created := by
  unfold logged logStretch
  rw [hl, hm]
  exact List.mem_cons_self

theorem logged_dies {retval : Word} (hl : s.label p t a = .dies retval) :
    (p, (s.thread t).tid, retval) ∈ (s.logged s' a p t l sp).exited := by
  unfold logged logStretch
  rw [hl]
  exact List.mem_cons_self

theorem logged_commits (hl : s.label p t a = .commits) :
    ((s.thread t).tid, (s.logged s' a p t l sp).usp t) ∈ (s.logged s' a p t l sp).given := by
  unfold logged logStretch
  rw [hl]
  simp

/-- The thread that gets a user stack in the step. -/
def Making.slot : Making → Option ThdPtr
  | .places n | .inherits n => some n
  | _ => none

theorem logged_stacks (hl : s.label p t a = .plain) (hm : Making.slot (a.making (s.pc t)) = some n) :
    ((s.thread n).tid, (s.logged s' a p t l sp).usp n) ∈ (s.logged s' a p t l sp).given := by
  unfold logged logStretch
  rw [hl]
  dsimp only
  cases hk : a.making (s.pc t) <;> rw [hk] at hm <;> cases hm <;> simp [logMaking]

/-- A slot that is neither freed nor given a user stack keeps the one it has. -/
theorem logged_usp (hloses : ¬ s.Loses s' u) (hcommit : s.label p t a = .commits → u ≠ t)
    (hmaking : s.label p t a = .plain → Making.slot (a.making (s.pc t)) ≠ some u) :
    (s.logged s' a p t l sp).usp u = l.usp u := by
  have hkeep : (s.logFrees s' l).usp u = l.usp u := if_neg hloses
  unfold logged logStretch
  cases hl : s.label p t a with
  | plain =>
    dsimp only
    cases hk : a.making (s.pc t) with
    | nothing => exact hkeep
    | owns k n => exact hkeep
    | drops n => exact hkeep
    | places n =>
      rw [hk] at hmaking
      have hun : u ≠ n := fun h0 => hmaking hl (by rw [h0]; rfl)
      exact (update_of_ne hun _ _).trans hkeep
    | inherits n =>
      rw [hk] at hmaking
      have hun : u ≠ n := fun h0 => hmaking hl (by rw [h0]; rfl)
      exact (update_of_ne hun _ _).trans hkeep
  | commits => exact (update_of_ne (hcommit hl) _ _).trans hkeep
  | begins => exact hkeep
  | joins w => exact hkeep
  | dies w => exact hkeep

/-- The calls of `ufree` and the joins that a step makes. -/
theorem logged_frees :
    ((s.logged s' a p t l sp).ufreed = l.ufreed ∧ (s.logged s' a p t l sp).joined = l.joined) ∨
      (∃ n, s.label p t a = .plain ∧ a.making (s.pc t) = .drops n ∧
        (s.logged s' a p t l sp).ufreed = ((s.thread n).tid, l.usp n) :: l.ufreed ∧
        (s.logged s' a p t l sp).joined = l.joined) ∨
      ∃ u, s.label p t a = .joins u ∧
        (s.logged s' a p t l sp).ufreed = ((s.thread u).tid, l.usp u) :: l.ufreed ∧
        (s.logged s' a p t l sp).joined =
          (p, (s.thread u).tid, (s.thread u).eax) :: l.joined := by
  unfold logged logStretch
  cases s.label p t a with
  | plain =>
    dsimp only
    cases a.making (s.pc t) with
    | drops n => exact .inr (.inl ⟨n, rfl, rfl, rfl, rfl⟩)
    | nothing | owns k n | places n | inherits n => exact .inl ⟨rfl, rfl⟩
  | joins u => exact .inr (.inr ⟨u, rfl, rfl, rfl⟩)
  | begins | dies w | commits => exact .inl ⟨rfl, rfl⟩

end Log

/-- A thread that gets a user stack is one that its maker holds, and has none yet. -/
theorem making_slot (hm : Making.slot (a.making (s.pc t)) = some n) :
    (s.pc t).hold.slot = some n ∧ (s.pc t).placed = false := by
  unfold Act.making at hm
  split at hm
  · cases hm
  · rename_i hk
    cases hm
    rw [hk]
    exact ⟨rfl, rfl⟩
  · rename_i d ok page m hk
    rw [hk]
    cases ok <;> cases hm
    exact ⟨rfl, rfl⟩
  · rename_i d ok page m hk
    cases ok <;> cases hm
  · cases hm

theorem making_drops (hm : a.making (s.pc t) = .drops n) :
    (∃ d page, a = .kstep d false page) ∧ s.pc t = .createArgs n := by
  unfold Act.making at hm
  split at hm
  · cases hm
  · cases hm
  · rename_i d ok page m hk
    cases ok <;> cases hm
  · rename_i d ok page m hk
    cases ok <;> cases hm
    exact ⟨⟨_, _, rfl⟩, hk⟩
  · cases hm

theorem stacks_slot {m : Making} (hm : m.stacks) : ∃ n, Making.slot m = some n := by
  cases m <;> first | exact ⟨_, rfl⟩ | cases hm

/-! ## One stretch -/

section OneStretch

variable (hs : Slots none s) (hpanic : s.panic = none) (hon : s.onCpu c = some (p, t))
  (hst : Stretch s a c p t s')

include hs hst hpanic hon

/-- A slot that another thread holds is left alone. -/
theorem Stretch.held_other (hv : v ≠ t) (hn : (s.pc v).hold.slot = some n) :
    SameSlot (s.thread n) (s'.thread n) := by
  have hemb := (hs.slot v n hn).1
  have hself : n ≠ t := by
    rintro rfl
    rw [(hs.onCpu hpanic hon).1] at hemb
    cases hemb
  have hheld : (s.pc t).hold.slot ≠ some n := fun h0 => hv (hs.slot_inj v t n hn h0)
  rcases hst.slot hs n with hturn | ⟨h0, -⟩
  · cases hturn with
    | same h0 => exact h0
    | sleeps h0 => exact absurd h0 hself
    | dies h0 => exact absurd h0 hself
    | freed h0 =>
      rw [hemb] at h0
      cases h0
    | stacked h0 => exact absurd h0 hheld
    | owned h0 => exact absurd (by rw [h0]; rfl) hheld
    | gaveBack h0 => exact absurd h0 hheld
    | started h0 => exact absurd h0 hheld
  · rw [hemb] at h0
    cases h0

/-- A thread that is alive or ZOMBIE was so before, or its maker has just started it. -/
theorem Stretch.started (hu : (s'.thread u).state.started) :
    ((s.thread u).state.started ∨ (s.pc t).hold.slot = some u ∧ (s.pc t).hold.owned = true ∧
      (s.pc t).placed = true) ∧ (s'.thread u).mp = (s.thread u).mp ∧
      (s'.thread u).tid = (s.thread u).tid ∧ (s'.thread u).kstack = (s.thread u).kstack := by
  have hself : u = t → (s.thread u).state.started := by
    rintro rfl
    rw [(hs.onCpu hpanic hon).1]
    exact .inl (by decide)
  obtain ⟨hne, hne'⟩ := (ProcState.started_iff _).mp hu
  rcases hst.slot hs u with hturn | ⟨-, h0, -⟩
  · cases hturn with
    | same h0 => exact ⟨.inl ((SameSlot.started h0).mp hu), h0.mp, h0.tid, h0.kstack⟩
    | sleeps h0 hmp htid hk => exact ⟨.inl (hself h0), hmp, htid, hk⟩
    | dies h0 hmp htid hk => exact ⟨.inl (hself h0), hmp, htid, hk⟩
    | freed _ h0 => exact absurd h0 hne
    | stacked _ _ _ h0 => exact absurd h0 hne'
    | owned _ _ _ _ h0 => exact absurd h0 hne'
    | gaveBack _ _ h0 => exact absurd h0 hne
    | started hslot howned hplaced hmp htid hk => exact ⟨.inr ⟨hslot, howned, hplaced⟩, hmp, htid, hk⟩
  · exact absurd h0 hne'

/-- A ZOMBIE was one before, or the thread itself has died. -/
theorem Stretch.zombie (hz : (s'.thread u).state = .zombie) :
    SameSlot (s.thread u) (s'.thread u) ∧ (s.thread u).state = .zombie ∨
      u = t ∧ (s'.thread u).mp = some p ∧ (s'.thread u).tid = (s.thread u).tid ∧
        (s.label p t a = .dies (s'.thread u).eax ∧
            (∀ v, (s.thread v).state = .sleeping → (s.thread v).chan ≠ some (.proc p)) ∨
          ¬ s.Sibling p t) := by
  rcases hst.slot hs u with hturn | ⟨-, h0, -⟩
  · cases hturn with
    | same h0 => exact .inl ⟨h0, h0.zombie.mp hz⟩
    | dies hut hmp htid hk _ hend =>
      subst hut
      exact .inr ⟨rfl, hmp.trans (hs.onCpu hpanic hon).2, htid, hend.imp id And.right⟩
    | sleeps _ _ _ _ h0 =>
      rw [hz] at h0
      exact absurd h0 (by decide)
    | started _ _ _ _ _ _ h0 =>
      rw [hz] at h0
      exact absurd h0 (by decide)
    | freed _ h0 | gaveBack _ _ h0 | stacked _ _ _ h0 | owned _ _ _ _ h0 =>
      rw [hz] at h0
      cases h0
  · rw [hz] at h0
    cases h0

omit hpanic hon in
/-- The other slots of a process that are ZOMBIE stay so, and it gets no new ones, unless the thread
is making one for it. -/
theorem Stretch.zombies (hv : v ≠ t) (hmp : (s'.thread v).mp = some q)
    (hall : ∀ w, w ≠ t → (s.thread w).mp = some q → (s.thread w).state = .zombie)
    (hown : ∀ k, s.pc t = .allocOwner k v → s'.thread t = s.thread t → (AllocCaller.next k p v).1 ≠ q) :
    (s'.thread v).state = .zombie := by
  have hemb : (s.pc t).hold.slot = some v → (s'.thread v).mp = (s.thread v).mp → False := by
    intro hslot hsame
    have h0 := hall v hv (hsame.symm.trans hmp)
    rw [(hs.slot t v hslot).1] at h0
    cases h0
  rcases hst.slot hs v with hturn | ⟨hst0, -, hsame⟩
  · cases hturn with
    | same h0 => exact h0.zombie.mpr (hall v hv (h0.mp.symm.trans hmp))
    | sleeps h0 => exact absurd h0 hv
    | dies h0 => exact absurd h0 hv
    | freed _ _ h0 =>
      rw [hmp] at h0
      cases h0
    | stacked hslot hsame => exact (hemb hslot hsame).elim
    | gaveBack hslot hsame => exact (hemb hslot hsame).elim
    | started hslot _ _ hsame => exact (hemb hslot hsame).elim
    | owned hpc hmp' _ _ _ hself =>
      exact absurd (Option.some.inj (hmp'.symm.trans hmp)) (hown _ hpc (hself hv.symm))
  · have h0 := hall v hv (hsame.symm.trans hmp)
    rw [hst0] at h0
    cases h0

omit hs hpanic hon hst in
/-- A slot that keeps its kernel stack and is given no user stack keeps the one it has. -/
theorem logged_keeps (hk : (s'.thread u).kstack = (s.thread u).kstack)
    (hmaking : Making.slot (a.making (s.pc t)) ≠ some u) (hu : s.label p t a = .commits → u ≠ t) :
    (s.logged s' a p t l sp).usp u = l.usp u := by
  refine logged_usp (fun h0 => ?_) hu fun _ => hmaking
  exact h0.1 (hk.symm.trans h0.2)

variable (hj : Joins s l)

include hj

theorem Joins.created_step {q : ProcPtr} (hu : (s'.thread u).state.started)
    (hmp : (s'.thread u).mp = some q) :
    (q, (s'.thread u).tid) ∈ (s.logged s' a p t l sp).created := by
  obtain ⟨hstarted, hmp', htid, -⟩ := hst.started hs hpanic hon hu
  rw [hmp'] at hmp
  rw [htid]
  refine (logged_grows s s' a p t l sp).1 _ ?_
  rcases hstarted with h0 | ⟨hslot, howned, -⟩
  · exact hj.created u q h0 hmp
  · exact hj.owned t u q hslot howned hmp

theorem Joins.owned_step {q : ProcPtr} (hn : (s'.pc v).hold.slot = some n)
    (howned : (s'.pc v).hold.owned = true) (hmp : (s'.thread n).mp = some q) :
    (q, (s'.thread n).tid) ∈ (s.logged s' a p t l sp).created := by
  by_cases hv : v = t
  · subst hv
    rcases hst.hold_self hn with ⟨hn', howned', hsame, -⟩ | ⟨h0, -⟩ | ⟨k, hl, hm, hmp', htid, -⟩
    · rw [hsame.mp] at hmp
      rw [hsame.tid]
      exact (logged_grows s s' a p v l sp).1 _ (hj.owned v n q hn' (howned'.symm.trans howned) hmp)
    · rw [h0] at howned
      cases howned
    · obtain rfl := Option.some.inj (hmp'.symm.trans hmp)
      rw [htid]
      exact logged_owns hl hm
  · have hpc : s'.pc v = s.pc v := by
      rcases hst.pc_other hv with h0 | ⟨h0, -⟩
      · exact h0
      · rw [h0] at hn
        cases hn
    rw [hpc] at hn howned
    have hsame := hst.held_other hs hpanic hon hv hn
    rw [hsame.mp] at hmp
    rw [hsame.tid]
    exact (logged_grows s s' a p t l sp).1 _ (hj.owned v n q hn howned hmp)

theorem Joins.given_step (hu : (s'.thread u).state.started) :
    ((s'.thread u).tid, (s.logged s' a p t l sp).usp u) ∈ (s.logged s' a p t l sp).given := by
  obtain ⟨hstarted, -, htid, hk⟩ := hst.started hs hpanic hon hu
  rw [htid]
  by_cases hcommit : s.label p t a = .commits ∧ u = t
  · rw [hcommit.2]
    exact logged_commits hcommit.1
  · have hmaking : Making.slot (a.making (s.pc t)) ≠ some u := by
      intro hm
      obtain ⟨hslot, hplaced⟩ := making_slot hm
      rcases hstarted with h0 | ⟨-, -, h0⟩
      · exact ((ProcState.started_iff _).mp h0).2 (hs.slot t u hslot).1
      · rw [hplaced] at h0
        cases h0
    rw [logged_keeps hk hmaking fun hl hut => hcommit ⟨hl, hut⟩]
    refine (logged_grows s s' a p t l sp).2.1 _ ?_
    rcases hstarted with h0 | ⟨hslot, -, hplaced⟩
    · exact hj.given u h0
    · exact hj.placed t u hslot hplaced

theorem Joins.placed_step (hn : (s'.pc v).hold.slot = some n) (hplaced : (s'.pc v).placed) :
    ((s'.thread n).tid, (s.logged s' a p t l sp).usp n) ∈ (s.logged s' a p t l sp).given := by
  have hne : ∀ w, (s.pc w).hold.slot = some n → n ≠ t := by
    rintro w hw rfl
    have hemb := (hs.slot w n hw).1
    rw [(hs.onCpu hpanic hon).1] at hemb
    cases hemb
  by_cases hv : v = t
  · subst hv
    rcases hst.hold_self hn with ⟨hn', -, hsame, hp⟩ | ⟨-, h0⟩ | ⟨k, -, -, -, -, h0⟩
    · rw [hsame.tid]
      rcases hp hplaced with h0 | ⟨hl, h0⟩
      · have hmaking : Making.slot (a.making (s.pc v)) ≠ some n := by
          intro hm
          rw [(making_slot hm).2] at h0
          cases h0
        rw [logged_keeps hsame.kstack hmaking fun _ => hne v hn']
        exact (logged_grows s s' a p v l sp).2.1 _ (hj.placed v n hn' h0)
      · obtain ⟨m, hm⟩ := stacks_slot h0
        obtain rfl : m = n := Option.some.inj ((making_slot hm).1.symm.trans hn')
        exact logged_stacks hl hm
    · rw [h0] at hplaced
      cases hplaced
    · rw [h0] at hplaced
      cases hplaced
  · have hpc : s'.pc v = s.pc v := by
      rcases hst.pc_other hv with h0 | ⟨h0, -⟩
      · exact h0
      · rw [h0] at hn
        cases hn
    rw [hpc] at hn hplaced
    have hsame := hst.held_other hs hpanic hon hv hn
    have hmaking : Making.slot (a.making (s.pc t)) ≠ some n :=
      fun hm => hv (hs.slot_inj v t n hn (making_slot hm).1)
    rw [hsame.tid, logged_keeps hsame.kstack hmaking fun _ => hne v hn]
    exact (logged_grows s s' a p t l sp).2.1 _ (hj.placed v n hn hplaced)

theorem Joins.exited_step {q : ProcPtr} (hz : (s'.thread u).state = .zombie)
    (hmp : (s'.thread u).mp = some q) :
    (q, (s'.thread u).tid, (s'.thread u).eax) ∈ (s.logged s' a p t l sp).exited ∨ s'.AllZombie q := by
  obtain ⟨hrun, hmpt⟩ := hs.onCpu hpanic hon
  rcases hst.zombie hs hpanic hon hz with ⟨hsame, hz'⟩ | ⟨rfl, hmp', htid, hend⟩
  · rw [hsame.mp] at hmp
    rw [hsame.tid, hsame.eax hz']
    refine (hj.exited u q hz' hmp).imp ((logged_grows s s' a p t l sp).2.2.1 _) fun hall v hv => ?_
    -- the thread is not of `q`
    have hqp : q ≠ p := by
      rintro rfl
      have h0 := hall t hmpt
      rw [hrun] at h0
      cases h0
    have hvt : v ≠ t := by
      rintro rfl
      have hlive : .embryo < (s.thread v).state := by
        rw [hrun]
        decide
      rw [hst.mp_live hs hlive, hmpt] at hv
      exact hqp (Option.some.inj hv).symm
    refine hst.zombies hs hvt hv (fun w _ hw => hall w hw) fun k hpc _ hnext => ?_
    cases k with
    | create => exact hqp hnext.symm
    | fork np =>
      have hnp : (s.pc t).hold.np = some q := by
        rw [hpc]
        exact congrArg some hnext
      have h0 := ((hs.child t q hnp).2 u hmp).2
      rw [hpc] at h0
      cases h0
  · obtain rfl := Option.some.inj (hmp'.symm.trans hmp)
    rcases hend with ⟨hl, -⟩ | hno
    · rw [htid]
      exact .inl (logged_dies hl)
    · refine .inr fun v hv => ?_
      by_cases hvt : v = u
      · rw [hvt]
        exact hz
      · refine hst.zombies hs hvt hv (fun w hw hwp => ?_) fun k _ hself _ => ?_
        · by_contra h0
          exact hno ⟨w, hw, hwp, h0⟩
        · rw [hself, hrun] at hz
          cases hz

theorem Joins.waits_step {i : Word} {q : ProcPtr} (hpc : s'.pc v = .joinSleep i)
    (hsl : (s'.thread v).state = .sleeping) (hmp : (s'.thread v).mp = some q) :
    (s'.thread v).chan = some (.proc q) ∧ s'.joinTarget q i = none := by
  obtain ⟨hrun, hmpt⟩ := hs.onCpu hpanic hon
  have hnone : ∀ {r : Kernel} {q : ProcPtr}, r.joinTarget q i = none ↔
      ∀ w, ¬ ((r.thread w).mp = some q ∧ (r.thread w).tid = i ∧ (r.thread w).state = .zombie) := by
    intro r q
    unfold joinTarget
    rw [List.find?_eq_none]
    simp
  by_cases hv : v = t
  · subst hv
    obtain ⟨hchan, hmp', htarget⟩ := hst.joinSleep_self hrun hmpt hpc hsl
    obtain rfl := Option.some.inj (hmp'.symm.trans hmp)
    refine ⟨hchan, hnone.mpr fun w hw => ?_⟩
    rcases hst.zombie hs hpanic hon hw.2.2 with ⟨hsame, hz⟩ | ⟨rfl, -⟩
    · exact hnone.mp htarget w ⟨hsame.mp.symm.trans hw.1, hsame.tid.symm.trans hw.2.1, hz⟩
    · rw [hw.2.2] at hsl
      cases hsl
  · have hpc' : s.pc v = .joinSleep i := by
      rcases hst.pc_other hv with h0 | ⟨h0, -⟩
      · exact h0.symm.trans hpc
      · rw [hpc] at h0
        cases h0
    have hlive : .embryo < (s.thread v).state := by
      refine hs.awake v ?_ ?_ <;> rw [hpc'] <;> exact fun h0 => by cases h0
    have hsame := hst.live_other hs hv hlive
    obtain ⟨hsl', hchan⟩ := hsame.asleep hsl
    rw [hsame.mp] at hmp
    obtain ⟨hchan', htarget⟩ := hj.waits v i q hpc' hsl' hmp
    refine ⟨hchan.trans hchan', hnone.mpr fun w hw => ?_⟩
    rcases hst.zombie hs hpanic hon hw.2.2 with ⟨hsame, hz⟩ | ⟨rfl, hmpw, -, hend⟩
    · exact hnone.mp htarget w ⟨hsame.mp.symm.trans hw.1, hsame.tid.symm.trans hw.2.1, hz⟩
    · -- the dying thread has woken the sleepers of its process
      obtain rfl := Option.some.inj (hmpw.symm.trans hw.1)
      rcases hend with ⟨-, hwoke⟩ | hno
      · exact hwoke v hsl' hchan'
      · exact hno ⟨v, hv, hmp, by rw [hsl']; decide⟩

variable (hroom : s.nexttid.toNat ≤ 2 ^ 31)

include hroom

omit hj in
/-- A slot in use was in use under the same tid, or has just been handed the next one. -/
theorem Stretch.used : s.nexttid.toNat ≤ s'.nexttid.toNat ∧ ∀ w, (s'.thread w).state ≠ .unused →
    (s.thread w).state ≠ .unused ∧ (s'.thread w).tid = (s.thread w).tid ∨
      (s'.thread w).tid = s.nexttid ∧ (s.thread w).state = .unused := by
  rcases hst.turn hs with ⟨hnext, hturn⟩ | ⟨n, k, hpc, hn, heq⟩
  · refine ⟨le_of_eq (congrArg BitVec.toNat hnext.symm), fun w hw => .inl ?_⟩
    exact (hturn w).used hs (hs.onCpu hpanic hon).1 hw
  · constructor
    · rw [heq]
      show s.nexttid.toNat ≤ (s.nexttid + 1).toNat
      rw [BitVec.toNat_add]
      show s.nexttid.toNat ≤ (s.nexttid.toNat + 1) % 2 ^ 32
      omega
    · intro w hw
      have hthd : s'.thread w =
          if w = n then { s.thread n with state := .embryo, tid := s.nexttid } else s.thread w := by
        rw [heq]
        rfl
      rw [hthd] at hw ⊢
      by_cases hwn : w = n
      · rw [if_pos hwn, hwn]
        exact .inr ⟨rfl, hn⟩
      · rw [if_neg hwn] at hw ⊢
        exact .inl ⟨hw, rfl⟩

omit hpanic hon hroom in
/-- A slot whose kernel stack is given back was in use and is UNUSED now. -/
theorem Joins.loses (hl : s.Loses s' u) :
    (s.thread u).state ≠ .unused ∧ (s'.thread u).state = .unused := by
  refine ⟨fun h0 => hl.1 (hj.tids.bare u h0), ?_⟩
  rcases hst.turn hs with ⟨-, hturn⟩ | ⟨n, k, hpc, hn, heq⟩
  · exact (hturn u).loses hl.1 hl.2
  · have hk : (s'.thread u).kstack = (s.thread u).kstack := by
      have hthd : s'.thread u =
          if u = n then { s.thread n with state := .embryo, tid := s.nexttid } else s.thread u := by
        rw [heq]
        rfl
      rw [hthd]
      split
      · rename_i hun
        rw [hun]
      · rfl
    exact absurd (hk.symm.trans hl.2) hl.1

omit hs hpanic hon hst hj hroom in
theorem mem_freedTids {i : Word} : i ∈ s.freedTids s' ↔ ∃ u, s.Loses s' u ∧ (s.thread u).tid = i := by
  unfold freedTids
  rw [List.mem_map]
  constructor
  · rintro ⟨u, hu, rfl⟩
    exact ⟨u, of_decide_eq_true (List.mem_filter.mp hu).2, rfl⟩
  · rintro ⟨u, hu, rfl⟩
    exact ⟨u, List.mem_filter.mpr ⟨List.mem_finRange u, decide_eq_true hu⟩, rfl⟩

theorem Joins.retired_step {i : Word} (hi : i ∈ s.freedTids s' ++ l.kfreed) :
    i.toNat < s'.nexttid.toNat ∧ ∀ w, (s'.thread w).state ≠ .unused → (s'.thread w).tid ≠ i := by
  obtain ⟨hle, hused⟩ := hst.used hs hpanic hon hroom
  -- the tid was handed out, and the slots that keep theirs do not have it
  have hold : i.toNat < s.nexttid.toNat ∧ ∀ w, (s.thread w).state ≠ .unused →
      (s'.thread w).state ≠ .unused → (s.thread w).tid ≠ i := by
    rcases List.mem_append.mp hi with hi | hi
    · obtain ⟨u, hu, rfl⟩ := mem_freedTids.mp hi
      obtain ⟨hu1, hu2⟩ := hj.loses hs hst hu
      refine ⟨hj.tids.lt u hu1, fun w hw hw' htid => hw' ?_⟩
      rw [hj.tids.inj w u hw hu1 htid]
      exact hu2
    · obtain ⟨h1, h2⟩ := hj.retired i hi
      exact ⟨h1, fun w hw _ => h2 w hw⟩
  refine ⟨hold.1.trans_le hle, fun w hw htid => ?_⟩
  rcases hused w hw with ⟨hw', hsame⟩ | ⟨hnext, -⟩
  · exact hold.2 w hw' hw (hsame.symm.trans htid)
  · rw [← htid, hnext] at hold
    exact absurd hold.1 (lt_irrefl _)

omit hpanic hon hroom in
theorem Joins.kfreed_step : (s.freedTids s' ++ l.kfreed).Nodup := by
  refine List.nodup_append.mpr ⟨?_, hj.kfreed, fun i hi j hij hne => ?_⟩
  · refine List.Nodup.map_on (fun u hu v hv htid => ?_) ((List.nodup_finRange NTHREAD).filter _)
    have hu' := of_decide_eq_true (List.mem_filter.mp hu).2
    have hv' := of_decide_eq_true (List.mem_filter.mp hv).2
    exact hj.tids.inj u v (hj.loses hs hst hu').1 (hj.loses hs hst hv').1 htid
  · obtain ⟨u, hu, htid⟩ := mem_freedTids.mp hi
    rw [← hne] at hij
    exact (hj.retired i hij).2 u (hj.loses hs hst hu).1 htid

omit hs hpanic hon hst hroom in
/-- A slot in use has a tid that no call has freed anything for. -/
theorem Joins.fresh (hu : (s.thread u).state ≠ .unused) :
    (s.thread u).tid ∉ l.kfreed ∧ (s.thread u).tid ∉ l.ufreed.map Prod.fst ∧
      (s.thread u).tid ∉ l.joined.map fun e => e.2.1 := by
  have hk : (s.thread u).tid ∉ l.kfreed := fun h0 => (hj.retired _ h0).2 u hu rfl
  have huf : (s.thread u).tid ∉ l.ufreed.map Prod.fst := by
    intro h0
    obtain ⟨e, he, htid⟩ := List.mem_map.mp h0
    exact hk (htid ▸ (hj.ufreed e he).1)
  refine ⟨hk, huf, fun h0 => ?_⟩
  obtain ⟨e, he, htid⟩ := List.mem_map.mp h0
  exact huf (htid ▸ (hj.joined e he).2.2)

variable (hdrops : s.label p t a = .plain → ∀ n, a.making (s.pc t) = .drops n → (s'.thread n).kstack = none)

include hdrops

omit hpanic hon hroom in
/-- The slots for which a step calls `ufree`: their kernel stack goes too, and the user stack is the
one they were given. -/
theorem Joins.ufree_step (hu : s.label p t a = .joins u ∨ s.label p t a = .plain ∧
      a.making (s.pc t) = .drops u) :
    s.Loses s' u ∧ ((s.thread u).tid, l.usp u) ∈ l.given := by
  rcases hu with hl | ⟨hl, hm⟩
  · obtain ⟨⟨-, hz⟩, hk⟩ := hst.joins hl
    exact ⟨⟨hs.stack u (.inr hz), hk⟩, hj.given u (.inr hz)⟩
  · obtain ⟨-, hpc⟩ := making_drops hm
    have hslot : (s.pc t).hold.slot = some u := by
      rw [hpc]
      rfl
    refine ⟨⟨(hs.slot t u hslot).2.2 ?_, hdrops hl u hm⟩, hj.placed t u hslot ?_⟩ <;> rw [hpc] <;> rfl

omit hpanic hon hroom in
/-- The user stack of a slot is given back once, and belongs to its thread. -/
theorem Joins.ufreed_step {l' : JoinLog} (hu : s.label p t a = .joins u ∨ s.label p t a = .plain ∧
      a.making (s.pc t) = .drops u) (hl' : l' = s.logged s' a p t l sp)
    (heq : l'.ufreed = ((s.thread u).tid, l.usp u) :: l.ufreed) :
    (∀ e ∈ l'.ufreed, e.1 ∈ l'.kfreed ∧ e ∈ l'.given) ∧ (l'.ufreed.map Prod.fst).Nodup := by
  obtain ⟨-, hgiven, -, hkfreed⟩ := logged_grows s s' a p t l sp
  rw [← hl'] at hgiven hkfreed
  obtain ⟨hloses, hg⟩ := hj.ufree_step hs hst hdrops hu
  rw [heq, hkfreed]
  constructor
  · intro e he
    rcases List.mem_cons.mp he with rfl | he
    · exact ⟨List.mem_append_left _ (mem_freedTids.mpr ⟨u, hloses, rfl⟩), hgiven _ hg⟩
    · exact ⟨List.mem_append_right _ (hj.ufreed e he).1, hgiven e (hj.ufreed e he).2⟩
  · exact List.nodup_cons.mpr ⟨(hj.fresh (hj.loses hs hst hloses).1).2.1, hj.ufreed_nodup⟩

omit hroom hdrops in
/-- What a join returns is what the thread exited with. -/
theorem Joins.joined_step (hl : s.label p t a = .joins u) :
    (p, (s.thread u).tid, (s.thread u).eax) ∈ l.exited ∧ (p, (s.thread u).tid) ∈ l.created := by
  obtain ⟨⟨hmp, hz⟩, -⟩ := hst.joins hl
  refine ⟨?_, hj.created u p (.inr hz) hmp⟩
  rcases hj.exited u p hz hmp with h0 | hall
  · exact h0
  · obtain ⟨hrun, hmpt⟩ := hs.onCpu hpanic hon
    have hzt := hall t hmpt
    rw [hrun] at hzt
    cases hzt

/-- A stretch keeps the invariant. -/
theorem Joins.stretch : Joins s' (s.logged s' a p t l sp) := by
  obtain ⟨hcreated, hgiven, hexited, hkfreed⟩ := logged_grows s s' a p t l sp
  have hfree : (∀ e ∈ (s.logged s' a p t l sp).ufreed, e.1 ∈ (s.logged s' a p t l sp).kfreed ∧
      e ∈ (s.logged s' a p t l sp).given) ∧ ((s.logged s' a p t l sp).ufreed.map Prod.fst).Nodup := by
    rcases logged_frees (s := s) (a := a) (p := p) (t := t) (l := l) with
      ⟨heq, -⟩ | ⟨u, hl, hm, heq, -⟩ | ⟨u, hl, heq, -⟩
    · rw [heq, hkfreed]
      refine ⟨fun e he => ?_, hj.ufreed_nodup⟩
      exact ⟨List.mem_append_right _ (hj.ufreed e he).1, hgiven e (hj.ufreed e he).2⟩
    · exact hj.ufreed_step hs hst hdrops (.inr ⟨hl, hm⟩) rfl heq
    · exact hj.ufreed_step hs hst hdrops (.inl hl) rfl heq
  have hjoin : (∀ e ∈ (s.logged s' a p t l sp).joined, e ∈ (s.logged s' a p t l sp).exited ∧
      (e.1, e.2.1) ∈ (s.logged s' a p t l sp).created ∧
      e.2.1 ∈ (s.logged s' a p t l sp).ufreed.map Prod.fst) ∧
      ((s.logged s' a p t l sp).joined.map fun e => e.2.1).Nodup := by
    have hold : ∀ e ∈ l.joined, e ∈ (s.logged s' a p t l sp).exited ∧
        (e.1, e.2.1) ∈ (s.logged s' a p t l sp).created ∧ e.2.1 ∈ l.ufreed.map Prod.fst := fun e he =>
      ⟨hexited _ (hj.joined e he).1, hcreated _ (hj.joined e he).2.1, (hj.joined e he).2.2⟩
    rcases logged_frees (s := s) (a := a) (p := p) (t := t) (l := l) with
      ⟨hu, heq⟩ | ⟨u, -, -, hu, heq⟩ | ⟨u, hl, hu, heq⟩
    · rw [heq, hu]
      exact ⟨hold, hj.joined_nodup⟩
    · rw [heq, hu, List.map_cons]
      exact ⟨fun e he => ⟨(hold e he).1, (hold e he).2.1, List.mem_cons_of_mem _ (hold e he).2.2⟩,
        hj.joined_nodup⟩
    · obtain ⟨hex, hcr⟩ := hj.joined_step hs hpanic hon hst hl
      have hfresh := hj.fresh (hj.loses hs hst (hj.ufree_step hs hst hdrops (.inl hl)).1).1
      rw [heq, hu, List.map_cons]
      refine ⟨fun e he => ?_, List.nodup_cons.mpr ⟨hfresh.2.2, hj.joined_nodup⟩⟩
      rcases List.mem_cons.mp he with rfl | he
      · exact ⟨hexited _ hex, hcreated _ hcr, List.mem_cons_self⟩
      · exact ⟨(hold e he).1, (hold e he).2.1, List.mem_cons_of_mem _ (hold e he).2.2⟩
  exact {
    tids := hj.tids.stretch hs (hs.onCpu hpanic hon).1 hroom hst
    created := fun u q hu hmp => hj.created_step hs hpanic hon hst hu hmp
    owned := fun v n q hn howned hmp => hj.owned_step hs hpanic hon hst hn howned hmp
    given := fun u hu => hj.given_step hs hpanic hon hst hu
    placed := fun v n hn hplaced => hj.placed_step hs hpanic hon hst hn hplaced
    exited := fun u q hz hmp => hj.exited_step hs hpanic hon hst hz hmp
    waits := fun v i q hpc hsl hmp => hj.waits_step hs hpanic hon hst hpc hsl hmp
    retired := fun i hi => hj.retired_step hs hpanic hon hst hroom (hkfreed ▸ hi)
    kfreed := hkfreed ▸ hj.kfreed_step hs hst
    ufreed := hfree.1
    ufreed_nodup := hfree.2
    joined := hjoin.1
    joined_nodup := hjoin.2 }

end OneStretch

/-! ## Every run -/

/-- When `copyout` has failed, `thread_create` gives the kernel stack back too. -/
theorem step_drops (hs : s.step a = some s') (ha : a.cpu = some c) (hon : s.onCpu c = some (p, t))
    (hm : a.making (s.pc t) = .drops n) : (s'.thread n).kstack = none := by
  obtain ⟨⟨d, page, rfl⟩, hpc⟩ := making_drops hm
  cases ha
  have hfail := step_kstep hon hs
  unfold kstep at hfail
  simp only [hpc, Bool.false_eq_true, ↓reduceIte, Option.some.injEq] at hfail
  have hfreed : (((s.kfree (s.thread n).kstack).unalloc n).thread n).kstack = none :=
    congrArg Thread.kstack (if_pos rfl)
  rw [← hfail, createFail, ret, setPc_thread, setThd_thread]
  split
  · rename_i hnt
    subst hnt
    exact hfreed
  · exact hfreed

/-- The log does not see scheduling. -/
theorem Quiet.logged {x y : Option CpuId} (hq : Quiet x y s s₁) (hst : Stretch s₁ a c p t s') :
    s₁.logged s' a p t l sp = s.logged s' a p t l sp := by
  have hfrees : s₁.logFrees s' l = s.logFrees s' l := by
    unfold Kernel.logFrees
    rw [hq.freedTids]
    simp only [hq.loses]
  unfold Kernel.logged logStretch
  rw [hfrees, hq.label]
  cases hl : s.label p t a with
  | plain =>
    dsimp only
    rw [hq.pc]
    cases a.making (s.pc t) <;> simp only [logMaking, (hq.thd _).tid]
  | joins u =>
    have hz := (hq.thd u).zombie.mp (hst.joins ((hq.label p t a).trans hl)).1.2
    simp only [(hq.thd u).tid, (hq.thd u).eax hz]
  | dies w => simp only [(hq.thd t).tid]
  | commits => simp only [(hq.thd t).tid]
  | begins => rfl

/-- A step keeps the invariant. -/
theorem Joins.step {b : Act × Word} (h : Slots none s) (hj : Joins s l) (hok : ReapsDead s b.1)
    (hroom : s.nexttid.toNat ≤ 2 ^ 31) (hs : s.step b.1 = some s') : Joins s' (s.logJoin b s' l) := by
  have hpanic := step_panic hs
  unfold logJoin
  rcases h.step_cases hok hs with ⟨hq, hplain⟩ | ⟨c, p, t, s₁, ha, hon, hq, -, h₁, hp₁, hon₁, hst⟩
  · cases hb : b.1.cpu.bind s.onCpu with
    | none =>
      dsimp only
      rw [hq.logFrees]
      exact hj.quiet hq
    | some pt =>
      obtain ⟨c, ha, hon⟩ := Option.bind_eq_some_iff.mp hb
      exact hj.stretch h hpanic hon (.quiet (hplain c _ _ hon) hq) hroom fun _ _ hm => step_drops hs ha hon hm
  · rw [ha, Option.bind_some, hon]
    have hstretch : Joins s' (s₁.logged s' b.1 p t l b.2) :=
      (hj.quiet hq).stretch h₁ hp₁ hon₁ hst (by rw [hq.nexttid]; exact hroom)
        fun _ n hm => step_drops hs ha hon (by rw [← hq.pc]; exact hm)
    rw [hq.logged hst] at hstretch
    exact hstretch

theorem boot_joins : Joins boot {} := by
  have hpc : ∀ v, (boot.pc v).hold.slot = none := by
    intro v
    by_cases hv : v = 0
    · rw [show boot.pc v = .forkret from if_pos hv]
      rfl
    · rw [show boot.pc v = .dead from if_neg hv]
      rfl
  have hstarted : ∀ u, (boot.thread u).state.started → u = 0 := by
    intro u hu
    by_contra h0
    rw [show boot.thread u = {} from if_neg h0] at hu
    exact ProcState.not_started_unused hu
  refine ⟨boot_tids, fun u q hu hmp => ?_, fun v n q hn => ?_, fun u hu => ?_, fun v n hn => ?_,
    fun u q hz => ?_, fun v i q hk => ?_, fun i hi => (by cases hi), .nil, fun e he => (by cases he), .nil,
    fun e he => (by cases he), .nil⟩
  · rw [hstarted u hu] at hmp ⊢
    cases hmp
    decide
  · rw [hpc v] at hn
    cases hn
  · rw [hstarted u hu]
    decide
  · rw [hpc v] at hn
    cases hn
  · have h0 := hstarted u (.inr hz)
    subst h0
    cases hz
  · by_cases hv : v = 0
    · rw [show boot.pc v = .forkret from if_pos hv] at hk
      cases hk
    · rw [show boot.pc v = .dead from if_neg hv] at hk
      cases hk

/-- A round of `thread_join` returns 0 only if it has found its thread. -/
theorem joinRound_zero {tid : Word} (hon : s.onCpu c = some (p, t))
    (hpc : (s.joinRound c p t tid).pc t = .sysret) (heax : ((s.joinRound c p t tid).thread t).eax = 0) :
    ∃ u, s.joinTarget p tid = some u := by
  cases htarget : s.joinTarget p tid with
  | some u => exact ⟨u, rfl⟩
  | none =>
    have hfind : (List.finRange NTHREAD).find? (fun u => (s.thread u).mp = some p ∧
        (s.thread u).tid = tid ∧ (s.thread u).state = .zombie) = none := htarget
    unfold joinRound at hpc heax
    rw [hfind] at hpc heax
    dsimp only at hpc heax
    split at hpc
    · rename_i hcond
      have hret : ((s.ret t (-1)).release.thread t).eax = -1 := congrArg Thread.eax (if_pos rfl)
      rw [if_pos hcond, hret] at heax
      exact absurd heax (by decide)
    · have hq : Quiet (some c) none (s.asleep p t (.proc p) (.joinSleep tid))
          (s.sleep c p t (.proc p) (.joinSleep tid)) :=
        quiet_park hon (by rw [asleep, setPc_cpu, setstate_cpu]; rfl)
      rw [hq.pc, asleep, setPc_pc, if_pos rfl] at hpc
      cases hpc

/-- A thread that returns 0 from `thread_join` has found its thread. -/
theorem Slots.join_zero {tid : Word} (h : Slots none s) (hok : ReapsDead s a) (hs : s.step a = some s')
    (hj : s.pc t = .threadJoin tid ∨ s.pc t = .joinSleep tid) (hpc : s'.pc t = .sysret)
    (heax : (s'.thread t).eax = 0) :
    ∃ c p u, a.cpu = some c ∧ s.onCpu c = some (p, t) ∧ s.joinTarget p tid = some u ∧
      s.label p t a = .joins u := by
  have hplace : ∀ k, (∀ i, k ≠ .threadJoin i) → (∀ i, k ≠ .joinSleep i) → s.pc t ≠ k := by
    intro k h1 h2 h0
    rcases hj with h3 | h3
    · exact h1 tid (h0.symm.trans h3)
    · exact h2 tid (h0.symm.trans h3)
  have hmoved : s'.pc t ≠ s.pc t := by
    rw [hpc]
    exact (hplace .sysret (fun i h0 => by cases h0) fun i h0 => by cases h0).symm
  obtain ⟨c, p, hon, ⟨ok, page, rfl, hk⟩ | ⟨rfl, hr⟩⟩ := h.moves hok hs
    (hplace .user (fun i h0 => by cases h0) fun i h0 => by cases h0)
    (fun _ _ _ _ _ => hplace .kernel (fun i h0 => by cases h0) fun i h0 => by cases h0)
    (h.awake t (hplace .dead (fun i h0 => by cases h0) fun i h0 => by cases h0)
      (hplace .forkret (fun i h0 => by cases h0) fun i h0 => by cases h0)) hmoved
  · unfold kstep at hk
    rcases hj with hj | hj
    · simp only [hj, Option.ite_none_right_eq_some, Option.some.injEq] at hk
      rw [← hk.2] at hpc heax
      obtain ⟨u, hu⟩ := joinRound_zero hon hpc heax
      refine ⟨c, p, u, rfl, hon, hu, ?_⟩
      show s.callLabel p t (s.pc t) = .joins u
      rw [hj]
      show s.joinLabel p tid = .joins u
      rw [joinLabel, hu]
    · simp only [hj] at hk
      cases hk
  · unfold resume at hr
    rcases hj with hj | hj
    · simp only [hj] at hr
      rw [← hr, release_pc, hj] at hpc
      cases hpc
    · simp only [hj] at hr
      rw [← hr] at hpc heax
      have hawake := quiet_awake h (step_panic hs) hon
      obtain ⟨u, hu⟩ := joinRound_zero (s := s.setThd t fun x => { x with chan := none }) hon hpc heax
      rw [hawake.joinTarget] at hu
      refine ⟨c, p, u, rfl, hon, hu, ?_⟩
      show s.wakeLabel p t (s.pc t) = .joins u
      rw [hj]
      show s.joinLabel p tid = .joins u
      rw [joinLabel, hu]

/-- The runs of the contract: `wait` reaps only dead processes, and tids do not run out. -/
def JoinsApply (x : Kernel × JoinLog) (b : Act × Word) : Prop :=
  ReapsDead x.1 b.1 ∧ x.1.nexttid.toNat ≤ 2 ^ 31

instance (x : Kernel × JoinLog) (b : Act × Word) : Decidable (JoinsApply x b) :=
  inferInstanceAs (Decidable (_ ∧ _))

/-- The kernel with the log of its threads. -/
def joinStep : Kernel × JoinLog → Act × Word → Option (Kernel × JoinLog) :=
  recorded (fun s b => s.step b.1) logJoin

theorem joins_of_reaches {x : Kernel × JoinLog} (h : Reaches joinStep JoinsApply (boot, {}) x) :
    Slots none x.1 ∧ Joins x.1 x.2 := by
  refine h.invariant (motive := fun x => Slots none x.1 ∧ Joins x.1 x.2) ⟨boot_slots, boot_joins⟩
    fun x b y hx hok hs => ?_
  obtain ⟨hstep, hlog⟩ := recorded_eq_some.mp hs
  refine ⟨hx.1.step hok.1 hstep, ?_⟩
  rw [hlog]
  exact hx.2.step hx.1 hok.1 hok.2 hstep

/-- The join that a step ends, in the log and in the thread table. -/
theorem Joins.join_step {b : Act × Word} {tid : Word} (h : Slots none s) (hj : Joins s l)
    (hok : ReapsDead s b.1) (hs : s.step b.1 = some s')
    (hk : s.pc t = .threadJoin tid ∨ s.pc t = .joinSleep tid) (hpc : s'.pc t = .sysret)
    (heax : (s'.thread t).eax = 0) :
    ∃ p u, (s.thread t).mp = some p ∧ ((s.thread u).mp = some p ∧ (s.thread u).tid = tid ∧
        (s.thread u).state = .zombie ∧ (s.thread u).kstack ≠ none) ∧
      ((s'.thread u).state = .unused ∧ (s'.thread u).kstack = none) ∧
      (s.logJoin b s' l).joined = (p, tid, (s.thread u).eax) :: l.joined ∧
      (s.logJoin b s' l).ufreed = (tid, l.usp u) :: l.ufreed ∧
      tid ∉ l.kfreed ∧ tid ∈ (s.logJoin b s' l).kfreed := by
  obtain ⟨c, p, u, ha, hon, hu, hl⟩ := h.join_zero hok hs hk hpc heax
  have hfound := List.find?_some hu
  simp only [decide_eq_true_eq] at hfound
  obtain ⟨hmp, rfl, hz⟩ := hfound
  have hstack := h.stack u (.inr hz)
  obtain ⟨hlose, hgone⟩ : s.Loses s' u ∧ (s'.thread u).state = .unused := by
    rcases h.step_cases hok hs with ⟨-, hplain⟩ | ⟨c', p', t', s₁, ha', hon', hq, -, h₁, -, -, hst⟩
    · rw [hplain c p t hon] at hl
      cases hl
    · rw [ha] at ha'
      cases ha'
      rw [hon] at hon'
      cases hon'
      have hlose : s.Loses s' u := ⟨hstack, (hst.joins ((hq.label p t b.1).trans hl)).2⟩
      exact ⟨hlose, ((hj.quiet hq).loses h₁ hst ((hq.loses u).mpr hlose)).2⟩
  have hlog : s.logJoin b s' l = s.logged s' b.1 p t l b.2 := by
    unfold logJoin logged
    rw [ha, Option.bind_some, hon]
  have hjoined : (s.logged s' b.1 p t l b.2).joined = (p, (s.thread u).tid, (s.thread u).eax) :: l.joined ∧
      (s.logged s' b.1 p t l b.2).ufreed = ((s.thread u).tid, l.usp u) :: l.ufreed := by
    unfold logged logStretch
    rw [hl]
    exact ⟨rfl, rfl⟩
  have hused : (s.thread u).state ≠ .unused := by
    rw [hz]
    exact fun h0 => by cases h0
  rw [hlog]
  refine ⟨p, u, (h.onCpu (step_panic hs) hon).2, ⟨hmp, rfl, hz, hstack⟩, ⟨hgone, hlose.2⟩, hjoined.1,
    hjoined.2, (hj.fresh hused).1, ?_⟩
  rw [(logged_grows s s' b.1 p t l b.2).2.2.2]
  exact List.mem_append_left _ (mem_freedTids.mpr ⟨u, hlose, rfl⟩)

/-- The contract of `thread_join`, in every run in which fewer than 2^31 threads are made. A join that
has returned 0 returned what the thread of that tid, made for the same process, called `thread_exit`
with; no tid is joined twice, and the kernel stack and the user stack of a joined thread are given
back, once each. With the lock free nobody sleeps in a join for a ZOMBIE. The last part says that
`joined` holds what the calls return: a join that is about to return 0 adds its entry, frees the
slot of the thread it found and calls `kfree` and `ufree` for it. -/
theorem join_contract {x : Kernel × JoinLog} (h : Reaches joinStep JoinsApply (boot, {}) x) :
    (∀ p tid v, (p, tid, v) ∈ x.2.joined →
      ((p, tid) ∈ x.2.created ∧ (p, tid, v) ∈ x.2.exited) ∧ tid ∈ x.2.kfreed ∧
      (∃ usp, (tid, usp) ∈ x.2.ufreed ∧ (tid, usp) ∈ x.2.given) ∧
      ∀ u, (x.1.thread u).state ≠ .unused → (x.1.thread u).tid ≠ tid) ∧
    ((x.2.joined.map fun e => e.2.1).Nodup ∧ x.2.kfreed.Nodup ∧ (x.2.ufreed.map Prod.fst).Nodup) ∧
    (x.1.lock = none → ∀ t tid p, x.1.pc t = .joinSleep tid → (x.1.thread t).state = .sleeping →
      (x.1.thread t).mp = some p → ∀ u, ¬ ((x.1.thread u).mp = some p ∧ (x.1.thread u).tid = tid ∧
        (x.1.thread u).state = .zombie)) ∧
    ∀ b y, JoinsApply x b → joinStep x b = some y → ∀ t tid,
      x.1.pc t = .threadJoin tid ∨ x.1.pc t = .joinSleep tid → y.1.pc t = .sysret →
      (y.1.thread t).eax = 0 →
      ∃ p u, (x.1.thread t).mp = some p ∧ ((x.1.thread u).mp = some p ∧ (x.1.thread u).tid = tid ∧
          (x.1.thread u).state = .zombie ∧ (x.1.thread u).kstack ≠ none) ∧
        ((y.1.thread u).state = .unused ∧ (y.1.thread u).kstack = none) ∧
        y.2.joined = (p, tid, (x.1.thread u).eax) :: x.2.joined ∧
        y.2.ufreed = (tid, x.2.usp u) :: x.2.ufreed ∧ tid ∉ x.2.kfreed ∧ tid ∈ y.2.kfreed := by
  obtain ⟨hslots, hj⟩ := joins_of_reaches h
  refine ⟨fun p tid v hv => ?_, ⟨hj.joined_nodup, hj.kfreed, hj.ufreed_nodup⟩,
    fun _ t tid p hpc hsl hmp u hu => ?_,
    fun b y hok hs t tid hk hpc heax => ?_⟩
  · obtain ⟨hex, hcr, hfreed⟩ := hj.joined _ hv
    obtain ⟨e, he, rfl⟩ := List.mem_map.mp hfreed
    obtain ⟨hkf, hgiven⟩ := hj.ufreed e he
    exact ⟨⟨hcr, hex⟩, hkf, ⟨e.2, he, hgiven⟩, (hj.retired _ hkf).2⟩
  · have hnone := (hj.waits t tid p hpc hsl hmp).2
    have hu' := List.find?_eq_none.mp hnone u (List.mem_finRange u)
    simp only [decide_eq_true_eq] at hu'
    exact hu' hu
  · obtain ⟨hstep, hlog⟩ := recorded_eq_some.mp hs
    rw [hlog]
    exact hj.join_step hslots hok.1 hstep hk hpc heax

/-- The second thread calls `thread_exit(5)` and is joined. -/
def joinRun : List Act :=
  pairRun ++ [.syscall 1 (.threadExit 5)] ++ ksteps 1 2 ++ [.syscall 0 (.threadJoin 2)] ++ ksteps 0 2

theorem join_contract_once :
    ∃ x, Reaches joinStep JoinsApply (boot, {}) x ∧
      (x.2.joined.map fun e => e.2.1).Nodup ∧ x.2.joined = [(0, 2, 5)] := by
  have hrun : ∃ x, Reaches joinStep JoinsApply (boot, {}) x ∧ x.2.joined = [(0, 2, 5)] :=
    exists_reaches (joinRun.map fun a => (a, 8192)) (fun x : Kernel × JoinLog => x.2.joined = [(0, 2, 5)])
      (by decide +kernel)
  obtain ⟨x, hreach, hx⟩ := hrun
  exact ⟨x, hreach, (join_contract hreach).2.1.1, hx⟩

end Kernel

end Xv6
