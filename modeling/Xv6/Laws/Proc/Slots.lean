import Xv6.Laws.Proc.Quiet
import Xv6.Laws.Proc.CoreSlots

/-!
# The life of a thread slot

`Slots` is the part of the thread table's invariant that needs no promise about the states of
the processes, and so survives a `thread_create` that gives its slot back with `mp` still set:
a thread that is alive or ZOMBIE has an owner and a kernel stack, a reserved slot is EMBRYO and
has one holder, and an UNUSED process owns no slot.

`Slots.setPc_hold`, `Slots.setThd` and `Slots.setProc` say when one slot, one thread's place or
one process may change; a step that moves several at once is taken apart into such changes.
-/

namespace Xv6

open Xv6.Lib

/-- The places behind `kalloc` in `allocthd`, up to the end of the call. -/
def Pc.stacked : Pc → Bool
  | .allocOwner .. => true
  | k => k.hold.owned

/-- The new thread has its user stack. -/
def Pc.placed : Pc → Bool
  | .createArgs _ | .createRun _ | .forkFile .. | .forkCwd .. | .forkRun .. => true
  | _ => false

/-- Inside `sleep`. -/
def Pc.rests : Pc → Bool
  | .slept | .waitSleep | .joinSleep _ | .exitSleep _ | .execSleep => true
  | _ => false

/-- The places a running thread can move on to. -/
def Pc.goesOn : Pc → Bool
  | .dead | .forkret => false
  | k => !k.rests

/-- Inside `exec`, before it commits. -/
def Pc.inExec : Pc → Bool
  | .exec _ | .execThds | .execSleep => true
  | _ => false

/-- Alive or ZOMBIE. -/
def ProcState.started (st : ProcState) : Prop := .embryo < st ∨ st = .zombie

theorem ProcState.started_iff (st : ProcState) : st.started ↔ st ≠ .unused ∧ st ≠ .embryo := by
  unfold ProcState.started
  cases st <;> decide

theorem ProcState.not_started_unused : ¬ ProcState.unused.started := fun h =>
  ((started_iff _).mp h).1 rfl

theorem ProcState.not_started_embryo : ¬ ProcState.embryo.started := fun h =>
  ((started_iff _).mp h).2 rfl

namespace Kernel

variable {s s' : Kernel} {x y : Option CpuId} {p q np : ProcPtr} {t u n : ThdPtr} {c : CpuId} {k : Pc}

structure Slots (x : Option CpuId) (s : Kernel) : Prop where
  cpus : s.panic = none → Cpus x s
  owner : ∀ t, (s.thread t).state.started → (s.thread t).mp ≠ none
  stack : ∀ t, (s.thread t).state.started → (s.thread t).kstack ≠ none
  awake : ∀ t, s.pc t ≠ .dead → s.pc t ≠ .forkret → .embryo < (s.thread t).state
  slot : ∀ t n, (s.pc t).hold.slot = some n → (s.thread n).state = .embryo ∧
    ((s.pc t).hold.owned = true → (s.thread n).mp = (s.pc t).hold.np.or (s.thread t).mp) ∧
    ((s.pc t).stacked = true → (s.thread n).kstack ≠ none)
  slot_inj : ∀ t u n, (s.pc t).hold.slot = some n → (s.pc u).hold.slot = some n → t = u
  child : ∀ t np, (s.pc t).hold.np = some np → (s.proc np).state = .embryo ∧
    ∀ u, (s.thread u).mp = some np → (s.pc t).hold.slot = some u ∧ (s.pc t).hold.owned = true
  child_inj : ∀ t u np, (s.pc t).hold.np = some np → (s.pc u).hold.np = some np → t = u
  vacant : ∀ q, (s.proc q).state = .unused → ∀ u, (s.thread u).mp ≠ some q
  kfree : s.panic ≠ some .kfree

/-! ## Scheduling -/

theorem SameSlot.started {r r' : Thread} (h : SameSlot r r') :
    r'.state.started ↔ r.state.started := by
  unfold ProcState.started
  rw [h.live, h.zombie]

theorem Quiet.slots (hq : Quiet x y s s') (h : Slots x s) : Slots y s' where
  cpus hp := hq.cpus hp (h.cpus (hq.panic hp))
  owner t ht := by
    rw [(hq.thd t).mp]
    exact h.owner t (SameSlot.started (hq.thd t) |>.mp ht)
  stack t ht := by
    rw [(hq.thd t).kstack]
    exact h.stack t (SameSlot.started (hq.thd t) |>.mp ht)
  awake t h1 h2 := by
    rw [hq.pc] at h1 h2
    exact (hq.thd t).live.mpr (h.awake t h1 h2)
  slot t n hn := by
    rw [hq.pc] at hn ⊢
    obtain ⟨h1, h2, h3⟩ := h.slot t n hn
    rw [(hq.thd n).mp, (hq.thd t).mp, (hq.thd n).kstack]
    refine ⟨?_, h2, h3⟩
    rw [(hq.thd n).low (by rw [h1]; decide), h1]
  slot_inj t u n h1 h2 := by
    rw [hq.pc] at h1 h2
    exact h.slot_inj t u n h1 h2
  child t np hnp := by
    rw [hq.pc] at hnp ⊢
    obtain ⟨h1, h2⟩ := h.child t np hnp
    refine ⟨?_, fun u hu => h2 u (by rw [← (hq.thd u).mp]; exact hu)⟩
    rcases hq.proc np with e | ⟨-, u, hu, hlive⟩
    · rw [e, h1]
    · -- the only thread of `np` is the reserved slot
      rw [(h.slot t u (h2 u hu).1).1] at hlive
      exact absurd hlive (by decide)
  child_inj t u np h1 h2 := by
    rw [hq.pc] at h1 h2
    exact h.child_inj t u np h1 h2
  vacant q hs u hu := by
    rcases hq.proc q with e | ⟨hne, -⟩
    · exact h.vacant q (e ▸ hs) u (by rw [← (hq.thd u).mp]; exact hu)
    · exact hne hs
  kfree hp := h.kfree (hq.kfree hp)

/-! ## One change -/

section Change

variable (h : Slots x s)

include h

/-- A thread moves on to a place with other reservations, which no other thread has. -/
theorem Slots.setPc_hold (t : ThdPtr)
    (hlive : k ≠ .dead → k ≠ .forkret → .embryo < (s.thread t).state)
    (hslot : ∀ n, k.hold.slot = some n → (s.thread n).state = .embryo ∧
      (k.hold.owned = true → (s.thread n).mp = k.hold.np.or (s.thread t).mp) ∧
      (k.stacked = true → (s.thread n).kstack ≠ none))
    (hslot' : ∀ n u, k.hold.slot = some n → u ≠ t → (s.pc u).hold.slot ≠ some n)
    (hchild : ∀ np, k.hold.np = some np → (s.proc np).state = .embryo ∧
      ∀ u, (s.thread u).mp = some np → k.hold.slot = some u ∧ k.hold.owned = true)
    (hchild' : ∀ np u, k.hold.np = some np → u ≠ t → (s.pc u).hold.np ≠ some np) :
    Slots x (s.setPc t k) where
  cpus hp := ⟨(h.cpus hp).running, (h.cpus hp).alone⟩
  owner := h.owner
  stack := h.stack
  awake u h1 h2 := by
    by_cases hu : u = t <;> simp only [setPc_pc, hu, ↓reduceIte] at h1 h2 ⊢
    · exact hlive h1 h2
    · exact h.awake u h1 h2
  slot u n hn := by
    by_cases hu : u = t <;> simp only [setPc_pc, hu, ↓reduceIte] at hn ⊢
    · exact hslot n hn
    · exact h.slot u n hn
  slot_inj := inj_setPc (f := fun k => k.hold.slot) h.slot_inj hslot'
  child u np hnp := by
    by_cases hu : u = t <;> simp only [setPc_pc, hu, ↓reduceIte] at hnp ⊢
    · exact hchild np hnp
    · exact h.child u np hnp
  child_inj := inj_setPc (f := fun k => k.hold.np) h.child_inj hchild'
  vacant := h.vacant
  kfree := h.kfree

/-- A thread that holds nothing afterwards moves on. -/
theorem Slots.setPc (t : ThdPtr) (hk : k.hold = {})
    (hlive : k ≠ .dead → k ≠ .forkret → .embryo < (s.thread t).state) : Slots x (s.setPc t k) :=
  h.setPc_hold t hlive (by simp [hk]) (by simp [hk]) (by simp [hk]) (by simp [hk])

/-- A thread that keeps its reservations moves on. -/
theorem Slots.setPc_keep (t : ThdPtr)
    (hlive : k ≠ .dead → k ≠ .forkret → .embryo < (s.thread t).state)
    (hnp : k.hold.np = (s.pc t).hold.np) (hslot : k.hold.slot = (s.pc t).hold.slot)
    (howned : k.hold.owned = (s.pc t).hold.owned) (hstacked : k.stacked = (s.pc t).stacked) :
    Slots x (s.setPc t k) := by
  refine h.setPc_hold t hlive (fun n hn => ?_) (fun n u hn hu hun => ?_) (fun q hq => ?_)
    fun q u hq hu huq => ?_
  · rw [hslot] at hn
    rw [howned, hnp, hstacked]
    exact h.slot t n hn
  · rw [hslot] at hn
    exact hu (h.slot_inj u t n hun hn)
  · rw [hnp] at hq
    rw [hslot, howned]
    exact h.child t q hq
  · rw [hnp] at hq
    exact hu (h.child_inj u t q huq hq)

/-- A slot that nobody holds and no CPU runs changes. -/
theorem Slots.setThd {g : Thread → Thread} (hrun : (s.thread n).state ≠ .running ∨
      (s.panic = none → ∀ c, x ≠ some c → (s.cpu c).thd ≠ some n))
    (hnobody : ∀ u, (s.pc u).hold.slot ≠ some n)
    (hhold : (s.pc n).hold.slot = none ∨ (g (s.thread n)).mp = (s.thread n).mp)
    (howner : (g (s.thread n)).state.started → (g (s.thread n)).mp ≠ none)
    (hstack : (g (s.thread n)).state.started → (g (s.thread n)).kstack ≠ none)
    (hlive : s.pc n ≠ .dead → s.pc n ≠ .forkret → .embryo < (g (s.thread n)).state)
    (hmp : ∀ q, (g (s.thread n)).mp = some q → (s.thread n).mp = some q ∨
      (s.proc q).state ≠ .unused ∧ ∀ u, (s.pc u).hold.np ≠ some q) : Slots x (s.setThd n g) where
  cpus hp := by
    have hc := h.cpus hp
    have hne : ∀ c u, x ≠ some c → (s.cpu c).thd = some u → u ≠ n := by
      rintro c u hx hu rfl
      exact hrun.elim (fun e => e (hc.running c u hx hu).1) fun e => e hp c hx hu
    refine ⟨fun c u hx hu => ?_, hc.alone⟩
    rw [setThd_thread, if_neg (hne c u hx hu)]
    exact hc.running c u hx hu
  owner u hu := by
    rw [setThd_thread] at hu ⊢
    split at hu
    · rename_i hun
      rw [if_pos hun]
      exact howner hu
    · rename_i hun
      rw [if_neg hun]
      exact h.owner u hu
  stack u hu := by
    rw [setThd_thread] at hu ⊢
    split at hu
    · rename_i hun
      rw [if_pos hun]
      exact hstack hu
    · rename_i hun
      rw [if_neg hun]
      exact h.stack u hu
  awake u h1 h2 := by
    rw [setThd_thread]
    split
    · rename_i hun
      subst hun
      exact hlive h1 h2
    · exact h.awake u h1 h2
  slot u m hm := by
    have hmn : m ≠ n := by
      rintro rfl
      exact hnobody u hm
    have hmp' : ((s.setThd n g).thread u).mp = (s.thread u).mp := by
      rw [setThd_thread]
      split
      · rename_i hun
        subst hun
        rcases hhold with h0 | h0
        · rw [setThd_pc, h0] at hm
          cases hm
        · exact h0
      · rfl
    rw [setThd_thread, if_neg hmn, hmp']
    exact h.slot u m hm
  slot_inj := h.slot_inj
  child u np hnp := by
    obtain ⟨h1, h2⟩ := h.child u np hnp
    refine ⟨h1, fun v hv => ?_⟩
    rw [setThd_thread] at hv
    split at hv
    · rename_i hvn
      rcases hmp np hv with h0 | ⟨-, h0⟩
      · rw [hvn]
        exact h2 n h0
      · exact absurd hnp (h0 u)
    · exact h2 v hv
  child_inj := h.child_inj
  vacant q hq u hu := by
    rw [setThd_thread] at hu
    split at hu
    · rcases hmp q hu with h0 | ⟨h0, -⟩
      · exact h.vacant q hq n h0
      · exact h0 hq
    · exact h.vacant q hq u hu
  kfree := h.kfree

/-- A process that nobody holds changes; it becomes UNUSED only with no slots. -/
theorem Slots.setProc {f : Proc → Proc}
    (hheld : (∀ u, (s.pc u).hold.np ≠ some q) ∨ (f (s.proc q)).state = (s.proc q).state)
    (hvacant : (f (s.proc q)).state = .unused → ∀ u, (s.thread u).mp ≠ some q) :
    Slots x (s.setProc q f) where
  cpus hp := ⟨(h.cpus hp).running, (h.cpus hp).alone⟩
  owner := h.owner
  stack := h.stack
  awake := h.awake
  slot := h.slot
  slot_inj := h.slot_inj
  child u np hnp := by
    obtain ⟨h1, h2⟩ := h.child u np hnp
    refine ⟨?_, h2⟩
    rw [setProc_proc]
    split
    · rename_i heq
      subst heq
      rcases hheld with h0 | h0
      · exact absurd hnp (h0 u)
      · rw [h0, h1]
    · exact h1
  child_inj := h.child_inj
  vacant r hr u hu := by
    rw [setProc_proc] at hr
    split at hr
    · rename_i heq
      rw [heq] at hu
      exact hvacant hr u hu
    · exact h.vacant r hr u hu
  kfree := h.kfree

/-- A flag of a process, or another field that is not its state. -/
theorem Slots.setProc_same {f : Proc → Proc}
    (hf : (f (s.proc q)).state = (s.proc q).state) : Slots x (s.setProc q f) :=
  h.setProc (.inr hf) fun h0 => h.vacant q (hf ▸ h0)

/-- A panic other than that of `kfree`. -/
theorem Slots.halt {m : Panic} (hm : m ≠ .kfree) : Slots y (s.halt m) where
  cpus hp := absurd hp halt_panic_ne
  owner := h.owner
  stack := h.stack
  awake := h.awake
  slot := h.slot
  slot_inj := h.slot_inj
  child := h.child
  child_inj := h.child_inj
  vacant := h.vacant
  kfree hp := by
    rw [halt_panic, Option.or_eq_some_iff] at hp
    rcases hp with hp | ⟨-, hp⟩
    · exact h.kfree hp
    · exact hm (Option.some.inj hp)

/-- A CPU gets another stack for its traps. -/
theorem Slots.setEsp0 (v : Option Nat) : Slots x (s.setCpu c fun r => { r with esp0 := v }) := by
  have hcpu : ∀ d, ((s.setCpu c fun r => { r with esp0 := v }).cpu d).thd = (s.cpu d).thd ∧
      ((s.setCpu c fun r => { r with esp0 := v }).cpu d).proc = (s.cpu d).proc := by
    intro d
    rw [setCpu_cpu]
    split
    · rename_i hd
      rw [hd]
      exact ⟨rfl, rfl⟩
    · exact ⟨rfl, rfl⟩
  refine ⟨fun hp => ⟨fun d u hd hu => ?_, fun d e u hd he h1 h2 => ?_⟩, h.owner, h.stack, h.awake,
    h.slot, h.slot_inj, h.child, h.child_inj, h.vacant, h.kfree⟩
  · rw [(hcpu d).1] at hu
    rw [(hcpu d).2]
    exact (h.cpus hp).running d u hd hu
  · rw [(hcpu d).1] at h1
    rw [(hcpu e).1] at h2
    exact (h.cpus hp).alone d e u hd he h1 h2

theorem Slots.switchuvm (c : CpuId) (p : ProcPtr) : Slots x (s.switchuvm c p) := by
  unfold Kernel.switchuvm
  split
  · exact h.halt (by decide)
  · split
    · exact h.halt (by decide)
    · exact h.setEsp0 _

/-! ## Freeing -/

/-- A thread that is alive or ZOMBIE is nobody's reservation. -/
theorem Slots.slot_ne (hn : (s.thread n).state ≠ .embryo) (u : ThdPtr) :
    (s.pc u).hold.slot ≠ some n :=
  fun hu => hn (h.slot u n hu).1

/-- A thread that is not alive holds nothing. -/
theorem Slots.hold_of_low (hn : ¬ .embryo < (s.thread n).state) : (s.pc n).hold = {} := by
  by_contra hne
  refine hn (h.awake n ?_ ?_) <;> intro hpc <;> rw [hpc] at hne <;> exact hne rfl

theorem Slots.place_of_low (hn : ¬ .embryo < (s.thread n).state) :
    s.pc n = .dead ∨ s.pc n = .forkret := by
  by_contra hne
  rw [not_or] at hne
  exact hn (h.awake n hne.1 hne.2)

/-- A reserved thread is not alive. -/
theorem Slots.slot_low (hn : (s.pc t).hold.slot = some n) : ¬ .embryo < (s.thread n).state := by
  rw [(h.slot t n hn).1]
  decide

/-- A slot that nobody holds is filled in, and its thread does not start. -/
theorem Slots.fill {g : Thread → Thread} (hlow : ¬ .embryo < (s.thread n).state)
    (hnobody : ∀ u, (s.pc u).hold.slot ≠ some n) (hst : ¬ (g (s.thread n)).state.started)
    (hmp : ∀ q, (g (s.thread n)).mp = some q → (s.thread n).mp = some q) :
    Slots x (s.setThd n g) := by
  refine h.setThd (.inl fun h0 => ?_) hnobody (.inl ?_) (fun h0 => absurd h0 hst)
    (fun h0 => absurd h0 hst) (fun h1 h2 => ?_) fun q hq => .inl (hmp q hq)
  · rw [h0] at hlow
    exact hlow (by decide)
  · rw [h.hold_of_low hlow]
  · exact absurd (h.place_of_low hlow) (not_or.mpr ⟨h1, h2⟩)

end Change

theorem freeThd_eq (hk : (s.thread u).kstack ≠ none) :
    s.freeThd u = s.setThd u fun r => { r with kstack := none, state := .unused, tid := 0, mp := none } := by
  unfold freeThd kfree
  rw [if_neg hk]

/-- A ZOMBIE slot is freed. -/
theorem Slots.freeThd (h : Slots x s) (hz : (s.thread u).state = .zombie) : Slots x (s.freeThd u) := by
  rw [freeThd_eq (h.stack u (.inr hz))]
  refine h.fill ?_ (h.slot_ne ?_) ProcState.not_started_unused fun q hq => by cases hq
  · rw [hz]
    decide
  · rw [hz]
    decide

theorem Slots.freeAll (h : Slots x s) {P : ThdPtr → Thread → Prop} [∀ u, DecidablePred (P u)]
    (hP : ∀ u, P u (s.thread u) → (s.thread u).state = .zombie) (hmp : ∀ u r, P u r → r.mp ≠ none) :
    Slots x (s.freeAll P) := by
  have hkeep : Slots x (s.freeAll P) ∧ ∀ u, (s.freeAll P).thread u = s.thread u ∨
      ((s.freeAll P).thread u).mp = none := by
    refine freeAll_induct P (motive := fun s' => Slots x s' ∧ ∀ u, s'.thread u = s.thread u ∨
      (s'.thread u).mp = none) ⟨h, fun _ => .inl rfl⟩ ?_
    rintro s' u ⟨h', hsame⟩ hu
    have heq : s'.thread u = s.thread u := (hsame u).resolve_right (hmp u _ hu)
    rw [heq] at hu
    refine ⟨h'.freeThd (by rw [heq]; exact hP u hu), fun v => ?_⟩
    rw [freeThd_thread]
    split
    · exact .inr rfl
    · exact hsame v
  exact hkeep.1

/-- All slots of `q` are ZOMBIE. -/
def AllZombie (s : Kernel) (q : ProcPtr) : Prop :=
  ∀ u, (s.thread u).mp = some q → (s.thread u).state = .zombie

instance (s : Kernel) (q : ProcPtr) : Decidable (s.AllZombie q) :=
  inferInstanceAs (Decidable (∀ u, (s.thread u).mp = some q → (s.thread u).state = .zombie))

/-- `wait` frees a child all of whose slots are ZOMBIE. -/
theorem Slots.reap (h : Slots x s) (hz : (s.proc q).state = .zombie) (hall : s.AllZombie q) :
    Slots x (s.reap q) := by
  rw [reap_eq]
  have hfree := h.freeAll (P := fun _ r => r.mp = some q) hall fun _ _ hr => by rw [hr]; simp
  refine hfree.setProc (.inl fun u hu => ?_) fun _ u hu => ?_
  · rw [freeAll_pc] at hu
    rw [(h.child u q hu).1] at hz
    cases hz
  · rw [freeAll_thread] at hu
    split at hu
    · cases hu
    · rename_i hne
      exact hne hu

/-! ## A thread gives up its CPU -/

/-- A process with a live thread is nobody's reservation. -/
theorem Slots.child_ne (h : Slots x s) (hmp : (s.thread t).mp = some p)
    (hlive : .embryo < (s.thread t).state) (u : ThdPtr) : (s.pc u).hold.np ≠ some p := by
  intro hu
  rw [(h.slot u t ((h.child u p hu).2 t hmp).1).1] at hlive
  exact absurd hlive (by decide)

/-- The thread a CPU runs falls asleep or dies, at a place where it holds nothing; its CPU is left
out until `sched`. -/
theorem Slots.park (h : Slots none s) {st : ProcState} (hthd : (s.cpu c).thd = some t)
    (hmp : (s.thread t).mp = some p) (hrun : (s.thread t).state = .running) (hst : st.started)
    (hk : k.hold = {}) (hlive : k ≠ .dead → k ≠ .forkret → .embryo < st) :
    Slots (some c) ((s.setstate p t st).setPc t k) := by
  have hpc : (s.setPc t k).pc t = k := by simp
  have hstarted : (s.thread t).state.started := by
    rw [hrun]
    exact .inl (by decide)
  have hleave : Slots (some c) s :=
    { h with cpus := fun hp => ⟨fun d u _ => (h.cpus hp).running d u (by simp),
        fun d e u _ _ => (h.cpus hp).alone d e u (by simp) (by simp)⟩ }
  have hmove : Slots (some c) (s.setPc t k) := hleave.setPc t hk fun _ _ => by rw [hrun]; decide
  have hset := hmove.setThd (n := t) (g := fun r => { r with state := st })
    (.inr fun hp d hd hdt =>
      hd (congrArg some ((h.cpus hp).alone c d t (by simp) (by simp) hthd hdt)))
    (hmove.slot_ne (by rw [setPc_thread, hrun]; decide)) (.inr rfl) (fun _ => h.owner t hstarted)
    (fun _ => h.stack t hstarted) (by rw [hpc]; exact hlive) fun q hq => .inl hq
  have hchild : ∀ u, ((s.setPc t k).pc u).hold.np ≠ some p :=
    hmove.child_ne (t := t) hmp (by rw [setPc_thread, hrun]; decide)
  have hcomm : (s.setstate p t st).setPc t k = (s.setPc t k).setstate p t st := by
    rw [setstate_eq, setstate_eq]
    rfl
  rw [hcomm, setstate_eq]
  refine hset.setProc (.inl hchild) fun hused => ?_
  refine absurd ?_ (setstate_used (s := s.setPc t k) hmp ((st.started_iff).mp hst).1)
  rw [setstate_eq, setProc_proc, if_pos rfl]
  exact hused

end Kernel

end Xv6
