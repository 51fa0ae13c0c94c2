import Xv6.Laws.Proc.Effects

/-!
# The thread table's invariant

`Core` relates the two tables, the CPUs and the calls in progress. Its heart is that a
process's state is the largest of its threads' states: no thread is above its process
(`le_proc`), and a process that is neither UNUSED nor EMBRYO has a thread at its level
(`attained`). A thread in the middle of `fork` or `thread_create` has reserved slots
(`Pc.hold`); the reservations are EMBRYO, and no two threads hold the same one.

The parameter `x` is a CPU between two states: while its thread is leaving, the clauses about
the CPUs leave that CPU out, and `Core.restore` puts it back.
-/

namespace Xv6

open Xv6.Lib

/-- What a thread in the middle of `fork` or `thread_create` has reserved. -/
structure Hold where
  np : Option ProcPtr := none
  slot : Option ThdPtr := none
  /-- the slot's `mp` is set -/
  owned : Bool := false
  /-- the new process's `pin` is set -/
  pinned : Bool := false
  deriving DecidableEq

def AllocCaller.np : AllocCaller → Option ProcPtr
  | .fork np => some np
  | .create => none

def Pc.hold : Pc → Hold
  | .forkCopy np => { np := some np }
  | .allocthd k => { np := k.np }
  | .allocStack k n => { np := k.np, slot := some n }
  | .allocOwner k n => { np := k.np, slot := some n }
  | .forkInit np n => { np := some np, slot := some n, owned := true }
  | .forkFile np n _ => { np := some np, slot := some n, owned := true, pinned := true }
  | .forkCwd np n => { np := some np, slot := some n, owned := true, pinned := true }
  | .forkRun np n => { np := some np, slot := some n, owned := true, pinned := true }
  | .createStack n => { slot := some n, owned := true }
  | .createArgs n => { slot := some n, owned := true }
  | .createRun n => { slot := some n, owned := true }
  | _ => {}

namespace Kernel

/-- What holds of the two tables and the calls in progress. -/
structure Tables (s : Kernel) : Prop where
  le_proc : ∀ t p, (s.thread t).mp = some p → (s.thread t).state ≤ (s.proc p).state
  attained : ∀ p, (s.proc p).state ≠ .unused → (s.proc p).state ≠ .embryo →
    ∃ t, (s.thread t).mp = some p ∧ (s.thread t).state = (s.proc p).state
  owner : ∀ t, (s.thread t).state ≠ .unused → (s.thread t).state ≠ .embryo → (s.thread t).mp ≠ none
  free : ∀ t, (s.thread t).state = .unused → (s.thread t).mp = none
  pinned : ∀ p, .embryo < (s.proc p).state → (s.proc p).pin ≠ none
  slot : ∀ t n, (s.pc t).hold.slot = some n → (s.thread n).state = .embryo ∧
    (s.thread n).mp =
      if (s.pc t).hold.owned then (s.pc t).hold.np.or (s.thread t).mp else none
  slot_inj : ∀ t u n, (s.pc t).hold.slot = some n → (s.pc u).hold.slot = some n → t = u
  child : ∀ t np, (s.pc t).hold.np = some np → (s.proc np).state = .embryo ∧
    (∀ u, (s.thread u).mp = some np → (s.pc t).hold.slot = some u ∧ (s.pc t).hold.owned = true) ∧
    ((s.pc t).hold.pinned = true → (s.proc np).pin ≠ none)
  child_inj : ∀ t u np, (s.pc t).hold.np = some np → (s.pc u).hold.np = some np → t = u
  /-- whoever holds a reservation can run -/
  holder : ∀ t, (s.pc t).hold ≠ {} →
    (s.thread t).state = .running ∨ (s.thread t).state = .runnable
  /-- neither search for a thread has failed -/
  found : s.panic ≠ some .noThreadScheduler ∧ s.panic ≠ some .noThreadSched

/-- What holds of the CPUs, all but `x`. -/
structure Cpus (x : Option CpuId) (s : Kernel) : Prop where
  /-- a CPU runs a RUNNING thread of its process -/
  running : ∀ c t, x ≠ some c → (s.cpu c).thd = some t →
    (s.thread t).state = .running ∧ (s.cpu c).proc = (s.thread t).mp
  /-- no thread runs on two CPUs -/
  alone : ∀ c d t, x ≠ some c → x ≠ some d → (s.cpu c).thd = some t → (s.cpu d).thd = some t → c = d

structure Core (x : Option CpuId) (s : Kernel) : Prop extends Tables s, Cpus x s

variable {s s' : Kernel} {x : Option CpuId} {p q : ProcPtr} {t u n : ThdPtr} {c d : CpuId}
  {st : ProcState} {k : Pc}

/-! ## Steps that the invariant does not see -/

/-- The invariant reads states, owners, cursors, reservations and CPUs, and nothing else. -/
theorem Core.congr (h : Core x s)
    (hproc : ∀ p, (s'.proc p).state = (s.proc p).state)
    (hpin : ∀ p, (s.proc p).pin ≠ none → (s'.proc p).pin ≠ none)
    (hthd : ∀ t, (s'.thread t).state = (s.thread t).state ∧ (s'.thread t).mp = (s.thread t).mp)
    (hpc : ∀ t, (s'.pc t).hold = (s.pc t).hold)
    (hcpu : ∀ c, (s'.cpu c).thd = (s.cpu c).thd ∧ (s'.cpu c).proc = (s.cpu c).proc)
    (hpanic : s'.panic ≠ some .noThreadScheduler ∧ s'.panic ≠ some .noThreadSched) : Core x s' where
  running c t hx ht := by
    rw [(hcpu c).1] at ht
    rw [(hthd t).1, (hcpu c).2, (hthd t).2]
    exact h.running c t hx ht
  alone c d t hc hd h1 h2 := h.alone c d t hc hd ((hcpu c).1 ▸ h1) ((hcpu d).1 ▸ h2)
  le_proc t p hp := by
    rw [(hthd t).1, hproc]
    exact h.le_proc t p ((hthd t).2 ▸ hp)
  attained p h1 h2 := by
    rw [hproc] at h1 h2
    obtain ⟨t, ht, hst⟩ := h.attained p h1 h2
    exact ⟨t, (hthd t).2.trans ht, by rw [(hthd t).1, hproc, hst]⟩
  owner t h1 h2 := by
    rw [(hthd t).1] at h1 h2
    rw [(hthd t).2]
    exact h.owner t h1 h2
  free t h1 := (hthd t).2.trans (h.free t ((hthd t).1 ▸ h1))
  pinned p h1 := hpin p (h.pinned p (hproc p ▸ h1))
  slot t n hn := by
    rw [hpc] at hn ⊢
    rw [(hthd n).1, (hthd n).2, (hthd t).2]
    exact h.slot t n hn
  slot_inj t u n h1 h2 := h.slot_inj t u n (hpc t ▸ h1) (hpc u ▸ h2)
  child t np hnp := by
    rw [hpc] at hnp ⊢
    obtain ⟨h1, h2, h3⟩ := h.child t np hnp
    exact ⟨(hproc np).trans h1, fun u hu => h2 u ((hthd u).2 ▸ hu), fun hp => hpin np (h3 hp)⟩
  child_inj t u np h1 h2 := h.child_inj t u np (hpc t ▸ h1) (hpc u ▸ h2)
  holder t ht := by
    rw [(hthd t).1]
    exact h.holder t (hpc t ▸ ht)
  found := hpanic

theorem Core.setProc (h : Core x s) (p : ProcPtr) {f : Proc → Proc}
    (hst : (f (s.proc p)).state = (s.proc p).state)
    (hpin : (s.proc p).pin ≠ none → (f (s.proc p)).pin ≠ none) : Core x (s.setProc p f) := by
  refine h.congr (setProc_keeps Proc.state hst) (fun q hq => ?_) (fun _ => ⟨rfl, rfl⟩)
    (fun _ => rfl) (fun _ => ⟨rfl, rfl⟩) h.found
  simp only [setProc_proc]
  split
  · rename_i hqp
    exact hpin (hqp ▸ hq)
  · exact hq

theorem Core.setThd (h : Core x s) (t : ThdPtr) {g : Thread → Thread}
    (hst : (g (s.thread t)).state = (s.thread t).state) (hmp : (g (s.thread t)).mp = (s.thread t).mp) :
    Core x (s.setThd t g) := by
  refine h.congr (fun _ => rfl) (fun _ hq => hq) (fun u => ?_) (fun _ => rfl)
    (fun _ => ⟨rfl, rfl⟩) h.found
  simp only [setThd_thread]
  split
  · rename_i hut
    rw [hst, hmp, hut]
    exact ⟨rfl, rfl⟩
  · exact ⟨rfl, rfl⟩

/-- A panic other than the two of the searches. -/
theorem Core.halt (h : Core x s) {m : Panic} (h1 : m ≠ .noThreadScheduler) (h2 : m ≠ .noThreadSched) :
    Core x (s.halt m) := by
  refine h.congr (fun _ => rfl) (fun _ hq => hq) (fun _ => ⟨rfl, rfl⟩) (fun _ => rfl)
    (fun _ => ⟨rfl, rfl⟩) ?_
  rw [halt_panic]
  cases hp : s.panic with
  | none => simpa using ⟨h1, h2⟩
  | some m' => simpa [hp] using h.found

theorem Core.release (h : Core x s) : Core x s.release :=
  h.congr (fun _ => rfl) (fun _ hq => hq) (fun _ => ⟨rfl, rfl⟩) (fun _ => rfl)
    (fun _ => ⟨rfl, rfl⟩) h.found

theorem Core.handOver (h : Core x s) (c : CpuId) : Core x (s.handOver c) :=
  h.congr (fun _ => rfl) (fun _ hq => hq) (fun _ => ⟨rfl, rfl⟩) (fun _ => rfl)
    (fun _ => ⟨rfl, rfl⟩) h.found

theorem Core.setMlfq (h : Core x s) (m : Mlfq) : Core x { s with mlfq := m } :=
  h.congr (fun _ => rfl) (fun _ hq => hq) (fun _ => ⟨rfl, rfl⟩) (fun _ => rfl)
    (fun _ => ⟨rfl, rfl⟩) h.found

/-- A reservation that only one thread has: it moves on to one that no other thread has. -/
theorem inj_setPc {β : Type} {f : Pc → Option β}
    (hinj : ∀ u v b, f (s.pc u) = some b → f (s.pc v) = some b → u = v)
    (hnew : ∀ b u, f k = some b → u ≠ t → f (s.pc u) ≠ some b) (u v : ThdPtr) (b : β)
    (h1 : f ((s.setPc t k).pc u) = some b) (h2 : f ((s.setPc t k).pc v) = some b) : u = v := by
  by_cases hu : u = t <;> by_cases hv : v = t
  · rw [hu, hv]
  · simp only [setPc_pc, hu, hv, ↓reduceIte] at h1 h2
    exact absurd h2 (hnew b v h1 hv)
  · simp only [setPc_pc, hu, hv, ↓reduceIte] at h1 h2
    exact absurd h1 (hnew b u h2 hu)
  · simp only [setPc_pc, hu, hv, ↓reduceIte] at h1 h2
    exact hinj u v b h1 h2

/-- A thread moves on to a place with other reservations, which no other thread has. -/
theorem Core.setPc_hold (h : Core x s) (t : ThdPtr)
    (hslot : ∀ n, k.hold.slot = some n → (s.thread n).state = .embryo ∧
      (s.thread n).mp = if k.hold.owned then k.hold.np.or (s.thread t).mp else none)
    (hslot' : ∀ n u, k.hold.slot = some n → u ≠ t → (s.pc u).hold.slot ≠ some n)
    (hchild : ∀ np, k.hold.np = some np → (s.proc np).state = .embryo ∧
      (∀ u, (s.thread u).mp = some np → k.hold.slot = some u ∧ k.hold.owned = true) ∧
      (k.hold.pinned = true → (s.proc np).pin ≠ none))
    (hchild' : ∀ np u, k.hold.np = some np → u ≠ t → (s.pc u).hold.np ≠ some np)
    (hholder : k.hold ≠ {} → (s.thread t).state = .running ∨ (s.thread t).state = .runnable) :
    Core x (s.setPc t k) where
  running := h.running
  alone := h.alone
  le_proc := h.le_proc
  attained := h.attained
  owner := h.owner
  free := h.free
  pinned := h.pinned
  slot u n hn := by
    by_cases hu : u = t <;> simp only [setPc_pc, hu, ↓reduceIte] at hn ⊢
    · exact hslot n hn
    · exact h.slot u n hn
  slot_inj := inj_setPc (f := fun k => k.hold.slot) h.slot_inj hslot'
  child u np hnp := by
    by_cases hu : u = t <;> simp only [setPc_pc, hu, ↓reduceIte] at hnp ⊢
    · exact hchild np hnp
    · exact h.child u np hnp
  child_inj := inj_setPc (f := fun k => k.hold.np) h.child_inj hchild'
  holder u hu' := by
    by_cases hu : u = t <;> simp only [setPc_pc, hu, ↓reduceIte] at hu'
    · rw [hu]
      exact hholder hu'
    · exact h.holder u hu'
  found := h.found

/-- A thread that holds nothing afterwards moves on. -/
theorem Core.setPc (h : Core x s) (t : ThdPtr) (hk : k.hold = {}) : Core x (s.setPc t k) :=
  h.setPc_hold t (by simp [hk]) (by simp [hk]) (by simp [hk]) (by simp [hk]) (fun hne => absurd hk hne)

/-- A thread that keeps what it holds moves on. -/
theorem Core.setPc_keep (h : Core x s) (t : ThdPtr) (hk : k.hold = (s.pc t).hold) :
    Core x (s.setPc t k) := by
  refine h.congr (fun _ => rfl) (fun _ hq => hq) (fun _ => ⟨rfl, rfl⟩) (fun u => ?_)
    (fun _ => ⟨rfl, rfl⟩) h.found
  simp only [setPc_pc]
  split
  · rename_i hu
    rw [hk, hu]
  · rfl

theorem Core.ret (h : Core x s) (t : ThdPtr) (r : Word) : Core x (s.ret t r) := by
  refine Core.setPc ?_ t rfl
  exact h.setThd t rfl rfl

/-! ## CPUs between two states -/

theorem Core.leave (h : Core none s) (c : CpuId) : Core (some c) s :=
  ⟨h.toTables, fun d t _ => h.running d t (by simp), fun d e t _ _ => h.alone d e t (by simp) (by simp)⟩

/-- A CPU that runs nothing, or a RUNNING thread no other CPU runs, is back. -/
theorem Core.restore (h : Core (some c) s)
    (hc : ∀ t, (s.cpu c).thd = some t → (s.thread t).state = .running ∧
      (s.cpu c).proc = (s.thread t).mp ∧ ∀ d, d ≠ c → (s.cpu d).thd ≠ some t) : Core none s := by
  refine ⟨h.toTables, fun d t _ ht => ?_, fun d e t _ _ h1 h2 => ?_⟩
  · by_cases hd : d = c
    · subst hd
      exact ⟨(hc t ht).1, (hc t ht).2.1⟩
    · exact h.running d t (by simpa using Ne.symm hd) ht
  · by_cases hd : d = c
    · subst hd
      by_contra hne
      exact (hc t h1).2.2 e (Ne.symm hne) h2
    · by_cases he : e = c
      · subst he
        exact absurd h1 ((hc t h2).2.2 d hd)
      · exact h.alone d e t (by simpa using Ne.symm hd) (by simpa using Ne.symm he) h1 h2

/-- What a CPU that is left out runs does not matter. -/
theorem Core.setCpu (h : Core (some c) s) (f : Cpu → Cpu) : Core (some c) (s.setCpu c f) := by
  have hcpu : ∀ d, (some c : Option CpuId) ≠ some d → (s.setCpu c f).cpu d = s.cpu d := by
    intro d hd
    have hne : d ≠ c := fun e => hd (by rw [e])
    simp [hne]
  refine ⟨⟨h.le_proc, h.attained, h.owner, h.free, h.pinned, h.slot, h.slot_inj, h.child,
    h.child_inj, h.holder, h.found⟩, fun d t hd ht => ?_, fun d e t hd he h1 h2 => ?_⟩
  · rw [hcpu d hd] at ht ⊢
    exact h.running d t hd ht
  · rw [hcpu d hd] at h1
    rw [hcpu e he] at h2
    exact h.alone d e t hd he h1 h2

/-! ## A thread changes its state -/

/-- Threads `U` and processes `Q` change. Nobody has reserved them, no CPU runs them, and those of
them that hold a reservation keep their owner and can run. -/
structure Change (x : Option CpuId) (s s' : Kernel) (U : ThdPtr → Prop) (Q : ProcPtr → Prop) :
    Prop where
  thread : ∀ u, ¬ U u → s'.thread u = s.thread u
  proc : ∀ q, ¬ Q q → s'.proc q = s.proc q
  pc : s'.pc = s.pc
  cpu : s'.cpu = s.cpu
  slot : ∀ u v, U u → (s.pc v).hold.slot ≠ some u
  child : ∀ q v, Q q → (s.pc v).hold.np ≠ some q
  off : ∀ u c, U u → x ≠ some c → (s.cpu c).thd ≠ some u
  holder : ∀ u, U u → (s.pc u).hold ≠ {} → (s'.thread u).mp = (s.thread u).mp ∧
    ((s'.thread u).state = .running ∨ (s'.thread u).state = .runnable)

/-- Such a change leaves to see to the states and owners of what has changed. -/
theorem Core.change (h : Core x s) {U : ThdPtr → Prop} {Q : ProcPtr → Prop} (hc : Change x s s' U Q)
    (hle : ∀ u q, U u ∨ Q q → (s'.thread u).mp = some q → (s'.thread u).state ≤ (s'.proc q).state)
    (hleft : ∀ u q, U u → ¬ Q q → (s.thread u).mp = some q → (s.thread u).state ≠ (s.proc q).state)
    (hatt : ∀ q, Q q → (s'.proc q).state ≠ .unused → (s'.proc q).state ≠ .embryo →
      ∃ t, (s'.thread t).mp = some q ∧ (s'.thread t).state = (s'.proc q).state)
    (howner : ∀ u, U u → (s'.thread u).state ≠ .unused → (s'.thread u).state ≠ .embryo →
      (s'.thread u).mp ≠ none)
    (hfree : ∀ u, U u → (s'.thread u).state = .unused → (s'.thread u).mp = none)
    (hpin : ∀ q, Q q → .embryo < (s'.proc q).state → (s'.proc q).pin ≠ none)
    (hnew : ∀ u q, U u → (s'.thread u).mp = some q →
      (s.thread u).mp = some q ∨ ∀ v, (s.pc v).hold.np ≠ some q)
    (hfound : s'.panic ≠ some .noThreadScheduler ∧ s'.panic ≠ some .noThreadSched) : Core x s' where
  le_proc u q hu := by
    by_cases hUQ : U u ∨ Q q
    · exact hle u q hUQ hu
    · rw [not_or] at hUQ
      rw [hc.thread u hUQ.1] at hu ⊢
      rw [hc.proc q hUQ.2]
      exact h.le_proc u q hu
  attained q h1 h2 := by
    by_cases hQ : Q q
    · exact hatt q hQ h1 h2
    · rw [hc.proc q hQ] at h1 h2 ⊢
      obtain ⟨u, hu, hst⟩ := h.attained q h1 h2
      refine ⟨u, ?_⟩
      rw [hc.thread u fun hU => hleft u q hU hQ hu hst]
      exact ⟨hu, hst⟩
  owner u h1 h2 := by
    by_cases hU : U u
    · exact howner u hU h1 h2
    · rw [hc.thread u hU] at h1 h2 ⊢
      exact h.owner u h1 h2
  free u h1 := by
    by_cases hU : U u
    · exact hfree u hU h1
    · rw [hc.thread u hU] at h1 ⊢
      exact h.free u h1
  pinned q hq := by
    by_cases hQ : Q q
    · exact hpin q hQ hq
    · rw [hc.proc q hQ] at hq ⊢
      exact h.pinned q hq
  slot u n hn := by
    rw [hc.pc] at hn ⊢
    have hmp : (s'.thread u).mp = (s.thread u).mp := by
      by_cases hU : U u
      · exact (hc.holder u hU fun e => by simp [e] at hn).1
      · rw [hc.thread u hU]
    rw [hc.thread n fun hU => hc.slot n u hU hn, hmp]
    exact h.slot u n hn
  slot_inj := hc.pc ▸ h.slot_inj
  child u np hnp := by
    rw [hc.pc] at hnp ⊢
    obtain ⟨h1, h2, h3⟩ := h.child u np hnp
    rw [hc.proc np fun hQ => hc.child np u hQ hnp]
    refine ⟨h1, fun v hv => h2 v ?_, h3⟩
    by_cases hU : U v
    · exact (hnew v np hU hv).resolve_right fun e => e u hnp
    · exact hc.thread v hU ▸ hv
  child_inj := hc.pc ▸ h.child_inj
  holder u hu := by
    rw [hc.pc] at hu
    by_cases hU : U u
    · exact (hc.holder u hU hu).2
    · rw [hc.thread u hU]
      exact h.holder u hu
  found := hfound
  running c u hx hu := by
    rw [hc.cpu] at hu ⊢
    rw [hc.thread u fun hU => hc.off u c hU hx hu]
    exact h.running c u hx hu
  alone := hc.cpu ▸ h.alone

/-- `setstate` on a thread of `p` that no CPU runs and nobody has reserved, to ZOMBIE or to a
live state. -/
theorem Core.setstate_free (h : Core x s) (hmp : (s.thread t).mp = some p)
    (hpin : (s.proc p).pin ≠ none) (hst : st = .zombie ∨ .embryo < st)
    (hslot : ∀ u, (s.pc u).hold.slot ≠ some t) (hchild : ∀ u, (s.pc u).hold.np ≠ some p)
    (hoff : ∀ c, x ≠ some c → (s.cpu c).thd ≠ some t)
    (hhold : (s.pc t).hold ≠ {} → st = .running ∨ st = .runnable) : Core x (s.setstate p t st) := by
  have hmp' : ∀ u, ((s.setstate p t st).thread u).mp = (s.thread u).mp := by
    intro u
    simp only [setstate_thread]
    split
    · rename_i hu; rw [hu]
    · rfl
  have hself : ((s.setstate p t st).thread t).state = st := by simp
  have hne : st ≠ .unused := by
    rcases hst with rfl | hst
    · decide
    · exact bot_lt_iff_ne_bot.mp (bot_le.trans_lt hst)
  refine h.change (U := (· = t)) (Q := (· = p))
    ⟨fun u hu => by rw [setstate_thread, if_neg hu], fun q hq => setstate_proc_of_ne hq, setstate_pc,
      setstate_cpu, fun u v hu => hu ▸ hslot v, fun q v hq => hq ▸ hchild v,
      fun u c hu => hu ▸ hoff c, fun u hu hne => ⟨hmp' u, by subst hu; rw [hself]; exact hhold hne⟩⟩
    (fun u q hq hu => ?_) (fun u q hu hq huq => ?_) (fun q hq h1 h2 => ?_) (fun u hu _ _ => ?_)
    (fun u hu h1 => ?_) (fun q hq _ => ?_) (fun u q _ hu => .inl (hmp' u ▸ hu)) (by simpa using h.found)
  · rw [hmp'] at hu
    obtain rfl : q = p := hq.elim (fun e => Option.some.inj ((e ▸ hu).symm.trans hmp)) id
    rw [setstate_eq]
    simp only [setProc_proc, setThd_proc, setProc_thread, ↓reduceIte]
    by_cases hle : (s.proc q).state ≤ st
    · rw [if_pos hle]
      simp only [setThd_thread]
      split
      · exact le_refl st
      · exact (h.le_proc u q hu).trans hle
    · rw [if_neg hle]
      refine maxThd_le_iff.mp le_rfl u ?_
      simp only [setThd_thread]
      split
      · rename_i e; rw [← e]; exact hu
      · exact hu
  · subst hu
    exact absurd (Option.some.inj (huq.symm.trans hmp)) hq
  · subst hq
    rw [setstate_eq] at h1 h2 ⊢
    simp only [setProc_proc, setThd_proc, setProc_thread, ↓reduceIte] at h1 h2 ⊢
    by_cases hle : (s.proc q).state ≤ st
    · refine ⟨t, ?_, ?_⟩
      · simpa using hmp
      · simp [hle]
    · rw [if_neg hle] at h1 h2 ⊢
      exact (maxThd_attained).resolve_left h1
  · subst hu
    rw [hmp', hmp]
    simp
  · subst hu
    exact absurd (hself.symm.trans h1) hne
  · rw [setstate_pin, hq]
    exact hpin

/-- A live thread is nobody's reservation. -/
theorem Core.slot_ne (h : Core x s) (hlive : (s.thread t).state ≠ .embryo) (u : ThdPtr) :
    (s.pc u).hold.slot ≠ some t :=
  fun hu => hlive (h.slot u t hu).1

/-- A process with a live thread is nobody's reservation. -/
theorem Core.child_ne (h : Core x s) (hmp : (s.thread t).mp = some p)
    (hlive : .embryo < (s.thread t).state) (u : ThdPtr) : (s.pc u).hold.np ≠ some p := by
  intro hu
  exact absurd ((h.child u p hu).1 ▸ h.le_proc t p hmp) (not_le.mpr hlive)

/-- `setstate` on a live thread. -/
theorem Core.setstate (h : Core x s) (hmp : (s.thread t).mp = some p)
    (hlive : .embryo < (s.thread t).state) (hst : st = .zombie ∨ .embryo < st)
    (hoff : ∀ c, x ≠ some c → (s.cpu c).thd ≠ some t)
    (hhold : (s.pc t).hold ≠ {} → st = .running ∨ st = .runnable) : Core x (s.setstate p t st) :=
  h.setstate_free hmp (h.pinned p (hlive.trans_le (h.le_proc t p hmp))) hst
    (h.slot_ne hlive.ne') (h.child_ne hmp hlive) hoff hhold

end Kernel

end Xv6
