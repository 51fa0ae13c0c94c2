import Xv6.Laws.Proc.CoreSched

/-!
# What scheduling leaves of the thread table

`Quiet x y s s'` says that `s'` differs from `s` by scheduling, as seen from the thread table:
a slot keeps its owner, its tid and its kernel stack, a live thread stays alive, nobody falls
asleep and no flag of a process changes. It asks nothing of the states of the processes, so it
also holds after a `thread_create` that failed. `x` and `y` are the CPU left out of the clauses
about CPUs before and after, while its thread is leaving it.

`Stacked` is what the traps of a CPU rely on: the stack that takes them belongs to the thread
the CPU runs.
-/

namespace Xv6

open Xv6.Lib

/-- What scheduling leaves of a thread slot `x`, which becomes `y`. -/
structure SameSlot (x y : Thread) : Prop where
  mp : y.mp = x.mp
  tid : y.tid = x.tid
  kstack : y.kstack = x.kstack
  /-- a live thread stays alive, and any other keeps its state -/
  state : y.state = x.state ∨ .embryo < x.state ∧ .embryo < y.state
  asleep : y.state = .sleeping → x.state = .sleeping ∧ y.chan = x.chan
  eax : x.state = .zombie → y.eax = x.eax

namespace SameSlot

variable {x y z : Thread}

theorem refl (x : Thread) : SameSlot x x := ⟨rfl, rfl, rfl, .inl rfl, fun h => ⟨h, rfl⟩, fun _ => rfl⟩

theorem zombie (h : SameSlot x y) : y.state = .zombie ↔ x.state = .zombie := by
  rcases h.state with e | ⟨h1, h2⟩
  · rw [e]
  · constructor
    · intro hz
      rw [hz] at h2
      exact absurd h2 (by decide)
    · intro hz
      rw [hz] at h1
      exact absurd h1 (by decide)

theorem live (h : SameSlot x y) : .embryo < y.state ↔ .embryo < x.state := by
  rcases h.state with e | ⟨h1, h2⟩
  · rw [e]
  · exact ⟨fun _ => h1, fun _ => h2⟩

/-- A slot below the live states has not changed its state. -/
theorem low (h : SameSlot x y) (hx : ¬ .embryo < x.state) : y.state = x.state := by
  rcases h.state with e | ⟨h1, _⟩
  · exact e
  · exact absurd h1 hx

theorem trans (h : SameSlot x y) (h' : SameSlot y z) : SameSlot x z where
  mp := h'.mp.trans h.mp
  tid := h'.tid.trans h.tid
  kstack := h'.kstack.trans h.kstack
  state := by
    rcases h'.state with e' | ⟨h1', h2'⟩ <;> rcases h.state with e | ⟨h1, h2⟩
    · exact .inl (e'.trans e)
    · exact .inr ⟨h1, e' ▸ h2⟩
    · exact .inr ⟨e ▸ h1', h2'⟩
    · exact .inr ⟨h1, h2'⟩
  asleep hz := by
    obtain ⟨h1, h2⟩ := h'.asleep hz
    obtain ⟨h3, h4⟩ := h.asleep h1
    exact ⟨h3, h2.trans h4⟩
  eax hx := (h'.eax (h.zombie.mpr hx)).trans (h.eax hx)

end SameSlot

namespace Kernel

variable {s s' s₁ s₂ s₃ : Kernel} {x y z : Option CpuId} {p q : ProcPtr} {t u : ThdPtr} {c d : CpuId}
  {st : ProcState} {m : Panic}

/-- Each CPU takes its traps on the stack of the thread it runs, and while a CPU holds the lock
the cursor of its process names that thread. -/
structure Stacked (s : Kernel) : Prop where
  esp0 : ∀ c t, (s.cpu c).thd = some t → (s.cpu c).esp0 = (s.thread t).kstack
  cursor : ∀ c p t, s.lock = some c → (s.cpu c).proc = some p → (s.cpu c).thd = some t →
    (s.proc p).pin = some t
  found : s.panic ≠ some .switchuvmNoKstack

/-- The CPUs are as they were, and so are the kernel stacks of the threads they run and the cursors
of the processes they run. -/
theorem Stacked.frame (h : Stacked s) (hcpu : s'.cpu = s.cpu)
    (hthd : ∀ c t, (s.cpu c).thd = some t → (s'.thread t).kstack = (s.thread t).kstack)
    (hpin : ∀ q c t, (s.cpu c).proc = some q → (s.cpu c).thd = some t →
      (s'.proc q).pin = (s.proc q).pin)
    (hlock : ∀ c, s'.lock = some c → s.lock = some c)
    (hpanic : s'.panic = some .switchuvmNoKstack → s.panic = some .switchuvmNoKstack) : Stacked s' := by
  refine ⟨fun c t ht => ?_, fun c p t hl hp ht => ?_, fun hp => h.found (hpanic hp)⟩
  · rw [hcpu] at ht ⊢
    rw [hthd c t ht]
    exact h.esp0 c t ht
  · rw [hcpu] at hp ht
    rw [hpin p c t hp ht]
    exact h.cursor c p t (hlock c hl) hp ht

/-- `s'` differs from `s` by scheduling only. -/
structure Quiet (x y : Option CpuId) (s s' : Kernel) : Prop where
  thd : ∀ u, SameSlot (s.thread u) (s'.thread u)
  pc : s'.pc = s.pc
  nexttid : s'.nexttid = s.nexttid
  flags : ∀ q, (s'.proc q).killed = (s.proc q).killed ∧ (s'.proc q).exited = (s.proc q).exited
  /-- only a process with a live thread changes its state -/
  proc : ∀ q, (s'.proc q).state = (s.proc q).state ∨ (s'.proc q).state ≠ .unused ∧
    ∃ u, (s.thread u).mp = some q ∧ .embryo < (s.thread u).state
  panic : s'.panic = none → s.panic = none
  cpus : s'.panic = none → Cpus x s → Cpus y s'
  stacked : Stacked s → Stacked s'
  kfree : s'.panic = some .kfree → s.panic = some .kfree

theorem Quiet.refl (x : Option CpuId) (s : Kernel) : Quiet x x s s :=
  ⟨fun _ => .refl _, rfl, rfl, fun _ => ⟨rfl, rfl⟩, fun _ => .inl rfl, id, fun _ => id, id, id⟩

theorem Quiet.trans (h : Quiet x y s₁ s₂) (h' : Quiet y z s₂ s₃) : Quiet x z s₁ s₃ where
  thd u := (h.thd u).trans (h'.thd u)
  pc := h'.pc.trans h.pc
  nexttid := h'.nexttid.trans h.nexttid
  flags q := ⟨(h'.flags q).1.trans (h.flags q).1, (h'.flags q).2.trans (h.flags q).2⟩
  proc q := by
    rcases h'.proc q with e' | ⟨hne, u, hmp, hu⟩
    · rcases h.proc q with e | ⟨hne, hlive⟩
      · exact .inl (e'.trans e)
      · exact .inr ⟨e' ▸ hne, hlive⟩
    · exact .inr ⟨hne, u, by rw [← (h.thd u).mp]; exact hmp, (h.thd u).live.mp hu⟩
  panic hp := h.panic (h'.panic hp)
  cpus hp hc := h'.cpus hp (h.cpus (h'.panic hp) hc)
  stacked hs := h'.stacked (h.stacked hs)
  kfree hp := h.kfree (h'.kfree hp)

/-! ## Steps that leave the CPUs alone -/

/-- A step that writes no CPU, takes no thread off its CPU and leaves the cursors of the processes
that run. -/
theorem Quiet.frame (hthd : ∀ u, SameSlot (s.thread u) (s'.thread u))
    (hrun : ∀ u, (s.thread u).state = .running → (s'.thread u).state = .running)
    (hproc : ∀ q, (s'.proc q).state = (s.proc q).state ∨ (s'.proc q).state ≠ .unused ∧
      ∃ u, (s.thread u).mp = some q ∧ .embryo < (s.thread u).state)
    (hflags : ∀ q, (s'.proc q).killed = (s.proc q).killed ∧ (s'.proc q).exited = (s.proc q).exited)
    (hpin : ∀ q c t, (s.cpu c).proc = some q → (s.cpu c).thd = some t →
      (s'.proc q).pin = (s.proc q).pin)
    (hpc : s'.pc = s.pc) (hnext : s'.nexttid = s.nexttid) (hcpu : s'.cpu = s.cpu)
    (hlock : ∀ c, s'.lock = some c → s.lock = some c)
    (hhalt : s'.panic = none → s.panic = none)
    (hpanic : ∀ m, m = .switchuvmNoKstack ∨ m = .kfree → s'.panic = some m → s.panic = some m) :
    Quiet x x s s' where
  thd := hthd
  pc := hpc
  nexttid := hnext
  flags := hflags
  proc := hproc
  panic := hhalt
  cpus _ h := by
    refine ⟨fun c t hx ht => ?_, fun c d t hx hy h1 h2 => ?_⟩
    · rw [hcpu] at ht ⊢
      obtain ⟨h1, h2⟩ := h.running c t hx ht
      exact ⟨hrun t h1, by rw [(hthd t).mp]; exact h2⟩
    · rw [hcpu] at h1 h2
      exact h.alone c d t hx hy h1 h2
  stacked h := h.frame hcpu (fun _ t _ => (hthd t).kstack) hpin hlock (hpanic _ (.inl rfl))
  kfree := hpanic _ (.inr rfl)

/-- A process changes what neither the flags nor the cursor are. -/
theorem quiet_setProc {f : Proc → Proc} (hst : (f (s.proc p)).state = (s.proc p).state)
    (hflags : (f (s.proc p)).killed = (s.proc p).killed ∧ (f (s.proc p)).exited = (s.proc p).exited)
    (hpin : (f (s.proc p)).pin = (s.proc p).pin) : Quiet x x s (s.setProc p f) :=
  .frame (fun _ => .refl _) (fun _ => id) (fun q => .inl (setProc_keeps Proc.state hst q))
    (fun q => ⟨setProc_keeps Proc.killed hflags.1 q, setProc_keeps Proc.exited hflags.2 q⟩)
    (fun q _ _ _ _ => setProc_keeps Proc.pin hpin q) rfl rfl rfl (fun _ => id) id (fun _ _ => id)

/-- A thread slot changes what scheduling does not look at. -/
theorem quiet_setThd {g : Thread → Thread} (hg : SameSlot (s.thread t) (g (s.thread t)))
    (hst : (g (s.thread t)).state = (s.thread t).state) : Quiet x x s (s.setThd t g) := by
  refine .frame (fun u => ?_) (fun u hu => ?_) (fun _ => .inl rfl) (fun _ => ⟨rfl, rfl⟩)
    (fun _ _ _ _ _ => rfl) rfl rfl rfl (fun _ => id) id (fun _ _ => id)
  · rw [setThd_thread]
    split
    · rename_i hut
      rw [hut]
      exact hg
    · exact .refl _
  · rw [setThd_thread]
    split
    · rename_i hut
      rw [hst, ← hut]
      exact hu
    · exact hu

theorem quiet_halt (h1 : m ≠ .switchuvmNoKstack) (h2 : m ≠ .kfree) : Quiet x x s (s.halt m) := by
  refine .frame (fun _ => .refl _) (fun _ => id) (fun _ => .inl rfl) (fun _ => ⟨rfl, rfl⟩)
    (fun _ _ _ _ _ => rfl) rfl rfl rfl (fun _ => id) (fun hp => ?_) (fun m' hm' hp => ?_)
  · exact absurd hp halt_panic_ne
  rw [halt_panic, Option.or_eq_some_iff] at hp
  rcases hp with hp | ⟨-, hp⟩
  · exact hp
  · cases hp
    rcases hm' with rfl | rfl
    · exact absurd rfl h1
    · exact absurd rfl h2

theorem quiet_release : Quiet x x s s.release :=
  .frame (fun _ => .refl _) (fun _ => id) (fun _ => .inl rfl) (fun _ => ⟨rfl, rfl⟩)
    (fun _ _ _ _ _ => rfl) rfl rfl rfl (fun _ h => by cases h) id (fun _ _ => id)

theorem quiet_setMlfq (m : Mlfq) : Quiet x x s { s with mlfq := m } :=
  .frame (fun _ => .refl _) (fun _ => id) (fun _ => .inl rfl) (fun _ => ⟨rfl, rfl⟩)
    (fun _ _ _ _ _ => rfl) rfl rfl rfl (fun _ => id) id (fun _ _ => id)

/-! ## A live thread changes its state -/

theorem sameSlot_state {r : Thread} (hlive : .embryo < r.state) (hst : .embryo < st)
    (hsleep : st ≠ .sleeping) : SameSlot r { r with state := st } :=
  ⟨rfl, rfl, rfl, .inr ⟨hlive, hst⟩, fun h => absurd h hsleep, fun _ => rfl⟩

/-- What `setstate` on a live thread changes, up to the CPUs. -/
theorem setstate_sameSlot (hlive : .embryo < (s.thread t).state) (hst : .embryo < st)
    (hsleep : st ≠ .sleeping) (u : ThdPtr) :
    SameSlot (s.thread u) ((s.setstate p t st).thread u) := by
  rw [setstate_thread]
  split
  · rename_i hut
    rw [hut]
    exact sameSlot_state hlive hst hsleep
  · exact .refl _

theorem setstate_flags : ((s.setstate p t st).proc q).killed = (s.proc q).killed ∧
    ((s.setstate p t st).proc q).exited = (s.proc q).exited := by
  rw [setstate_eq]
  exact ⟨setProc_keeps Proc.killed rfl q, setProc_keeps Proc.exited rfl q⟩

@[simp] theorem setstate_nexttid : (s.setstate p t st).nexttid = s.nexttid := by rw [setstate_eq]; rfl

/-- `setstate` never makes a process UNUSED. -/
theorem setstate_used (hmp : (s.thread t).mp = some p) (hst : st ≠ .unused) :
    ((s.setstate p t st).proc p).state ≠ .unused := by
  rw [setstate_eq]
  simp only [setProc_proc, setThd_proc, ↓reduceIte]
  split
  · exact hst
  · have hle : st ≤ (s.setThd t fun x => { x with state := st }).maxThd p := by
      have h := maxThd_le_iff.mp (le_refl ((s.setThd t fun x => { x with state := st }).maxThd p)) t
        (by simpa using hmp)
      simpa using h
    intro h0
    rw [h0] at hle
    exact hst (le_bot_iff.mp hle)

/-- What `setstate` does to the states of the processes. -/
theorem setstate_procs (hmp : (s.thread t).mp = some p) (hlive : .embryo < (s.thread t).state)
    (hst : st ≠ .unused) (q : ProcPtr) : ((s.setstate p t st).proc q).state = (s.proc q).state ∨
      ((s.setstate p t st).proc q).state ≠ .unused ∧
        ∃ u, (s.thread u).mp = some q ∧ .embryo < (s.thread u).state := by
  by_cases hq : q = p
  · subst hq
    exact .inr ⟨setstate_used hmp hst, t, hmp, hlive⟩
  · rw [setstate_proc_of_ne hq]
    exact .inl rfl

/-- A live thread that no CPU runs becomes RUNNABLE or RUNNING. -/
theorem quiet_setstate (hmp : (s.thread t).mp = some p) (hlive : .embryo < (s.thread t).state)
    (hrun : (s.thread t).state ≠ .running) (hst : .embryo < st) (hsleep : st ≠ .sleeping) :
    Quiet x x s (s.setstate p t st) := by
  refine .frame (setstate_sameSlot hlive hst hsleep) (fun u hu => ?_)
    (setstate_procs hmp hlive (fun h => by rw [h] at hst; exact absurd hst (by decide)))
    (fun _ => setstate_flags) (fun _ _ _ _ _ => setstate_pin) setstate_pc setstate_nexttid setstate_cpu
    (fun _ h => by rwa [setstate_lock] at h) (fun h => by rwa [setstate_panic] at h)
    (fun _ _ h => by rwa [setstate_panic] at h)
  rw [setstate_thread, if_neg]
  · exact hu
  · rintro rfl
    exact hrun hu

/-- The thread of a CPU is RUNNABLE again; its CPU is left out until `sched`. -/
theorem quiet_lower (hthd : (s.cpu c).thd = some t)
    (hmp : (s.thread t).mp = some p) (hrun : (s.thread t).state = .running) :
    Quiet none (some c) s (s.setstate p t .runnable) where
  thd := setstate_sameSlot (by rw [hrun]; decide) (by decide) (by decide)
  pc := setstate_pc
  nexttid := setstate_nexttid
  flags _ := setstate_flags
  proc := setstate_procs hmp (by rw [hrun]; decide) (by decide)
  panic h := by rwa [setstate_panic] at h
  cpus _ h := by
    refine ⟨fun d u hd hu => ?_, fun d e u hd he h1 h2 => ?_⟩
    · rw [setstate_cpu] at hu ⊢
      have hut : u ≠ t := by
        rintro rfl
        exact hd (congrArg some (h.alone c d u (by simp) (by simp) hthd hu))
      rw [setstate_thread, if_neg hut]
      exact h.running d u (by simp) hu
    · rw [setstate_cpu] at h1 h2
      exact h.alone d e u (by simp) (by simp) h1 h2
  stacked h := by
    refine ⟨fun d u hu => ?_, fun d r u hl hr hu => ?_, by rw [setstate_panic]; exact h.found⟩
    · rw [setstate_cpu] at hu ⊢
      rw [(setstate_sameSlot (by rw [hrun]; decide) (by decide) (by decide) u).kstack]
      exact h.esp0 d u hu
    · rw [setstate_cpu] at hr hu
      rw [setstate_lock] at hl
      rw [setstate_pin]
      exact h.cursor d r u hl hr hu
  kfree h := by rwa [setstate_panic] at h

/-! ## Waking -/

/-- A loop that wakes sleepers. -/
theorem quiet_wakeAll {P : Thread → Prop} [DecidablePred P] (hP : ∀ r, P r → r.state = .sleeping) :
    Quiet x x s (s.wakeAll P) := by
  refine wakeAll_induct P (motive := fun s' => Quiet x x s s') (.refl _ _) ?_ ?_
  · intro s' u q h hu hmp
    have hsl := hP _ hu
    refine h.trans (quiet_setstate hmp ?_ ?_ (by decide) (by decide)) <;> rw [hsl] <;> decide
  · intro s' u h _ _
    exact h.trans (quiet_halt (by decide) (by decide))

theorem quiet_wakeup1 (chan : Option Chan) : Quiet x x s (s.wakeup1 chan) := by
  rw [wakeup1_eq]
  exact quiet_wakeAll fun _ h => h.1

theorem quiet_wakeThds (p : ProcPtr) : Quiet x x s (s.wakeThds p) := by
  rw [wakeThds_eq]
  exact quiet_wakeAll fun _ h => h.2

/-! ## Leaving and taking a CPU -/

theorem quiet_charge : Quiet x x s (s.charge p) := by
  unfold charge
  split
  · split
    · exact quiet_halt (by decide) (by decide)
    · exact quiet_setProc rfl ⟨rfl, rfl⟩ rfl
  · split
    · exact quiet_halt (by decide) (by decide)
    · exact quiet_setMlfq _

theorem quiet_demote : Quiet x x s (s.demote p) := by
  unfold demote
  split
  · split
    · exact quiet_setProc rfl ⟨rfl, rfl⟩ rfl
    · exact .refl _ _
  · exact .refl _ _

/-- A CPU that was left out runs nothing. -/
theorem quiet_idle : Quiet (some c) none s (s.setCpu c fun r => { r with proc := none, thd := none }) where
  thd _ := .refl _
  pc := rfl
  nexttid := rfl
  flags _ := ⟨rfl, rfl⟩
  proc _ := .inl rfl
  panic := id
  cpus _ h := by
    have hother : ∀ d u, ((s.setCpu c fun r => { r with proc := none, thd := none }).cpu d).thd = some u →
        (some c : Option CpuId) ≠ some d ∧ (s.cpu d).thd = some u ∧
        (s.setCpu c fun r => { r with proc := none, thd := none }).cpu d = s.cpu d := by
      intro d u hu
      rw [setCpu_cpu] at hu ⊢
      split at hu
      · cases hu
      · rename_i hd
        exact ⟨by simpa using Ne.symm hd, hu, if_neg hd⟩
    refine ⟨fun d u _ hu => ?_, fun d e u _ _ h1 h2 => ?_⟩
    · obtain ⟨hd, hu', heq⟩ := hother d u hu
      rw [heq]
      exact h.running d u hd hu'
    · obtain ⟨hd, h1', -⟩ := hother d u h1
      obtain ⟨he, h2', -⟩ := hother e u h2
      exact h.alone d e u hd he h1' h2'
  stacked h := by
    refine ⟨fun d u hu => ?_, fun d r u hl hr hu => ?_, h.found⟩
    · rw [setCpu_cpu] at hu ⊢
      split at hu
      · cases hu
      · rename_i hd
        rw [if_neg hd]
        exact h.esp0 d u hu
    · rw [setCpu_cpu] at hr hu
      split at hu
      · cases hu
      · rename_i hd
        rw [if_neg hd] at hr
        exact h.cursor d r u hl hr hu
  kfree := id

theorem quiet_leaveCpu : Quiet (some c) none s (s.leaveCpu c p) :=
  ((quiet_idle.trans quiet_charge).trans quiet_demote).trans quiet_release

/-- A RUNNABLE thread is put on CPU `c`, which ran nothing or was left out: what has to be true
of the next state. -/
theorem Quiet.putOn (hx : x = none ∧ (s.cpu c).thd = none ∨ x = some c)
    (hmp : (s.thread u).mp = some p) (hst : (s.thread u).state = .runnable)
    (hthd : ∀ v, s'.thread v = if v = u then { s.thread u with state := .running } else s.thread v)
    (hproc : (∀ q, ((s'.proc q).killed = (s.proc q).killed ∧ (s'.proc q).exited = (s.proc q).exited) ∧
      (q ≠ p → s'.proc q = s.proc q)) ∧ (s'.proc p).state ≠ .unused)
    (hpin : (s'.proc p).pin = some u) (hpc : s'.pc = s.pc) (hnext : s'.nexttid = s.nexttid)
    (hcpu : ∀ d, d ≠ c → s'.cpu d = s.cpu d) (hcp : (s'.cpu c).proc = some p)
    (hct : (s'.cpu c).thd = some u) (hesp : Stacked s → (s'.cpu c).esp0 = (s.thread u).kstack)
    (hlock : s'.lock = some c) (hpanic : s'.panic = s.panic) : Quiet x none s s' where
  thd v := by
    rw [hthd]
    split
    · rename_i hv
      rw [hv]
      exact sameSlot_state (by rw [hst]; decide) (by decide) (by decide)
    · exact .refl _
  pc := hpc
  nexttid := hnext
  flags q := (hproc.1 q).1
  proc q := by
    by_cases hq : q = p
    · subst hq
      exact .inr ⟨hproc.2, u, hmp, by rw [hst]; decide⟩
    · rw [(hproc.1 q).2 hq]
      exact .inl rfl
  panic h := hpanic ▸ h
  cpus _ h := by
    have hother : ∀ d v, d ≠ c → (s'.cpu d).thd = some v → x ≠ some d ∧ (s.cpu d).thd = some v ∧ v ≠ u := by
      intro d v hd hv
      rw [hcpu d hd] at hv
      have hxd : x ≠ some d := by
        rcases hx with ⟨rfl, -⟩ | rfl
        · simp
        · simpa using Ne.symm hd
      refine ⟨hxd, hv, ?_⟩
      rintro rfl
      rw [(h.running d v hxd hv).1] at hst
      cases hst
    refine ⟨fun d v _ hv => ?_, fun d e v _ _ h1 h2 => ?_⟩
    · by_cases hd : d = c
      · subst hd
        obtain rfl : u = v := Option.some.inj (hct.symm.trans hv)
        rw [hthd, if_pos rfl, hcp]
        exact ⟨rfl, hmp.symm⟩
      · obtain ⟨hxd, hv', hne⟩ := hother d v hd hv
        rw [hthd, if_neg hne, hcpu d hd]
        exact h.running d v hxd hv'
    · by_cases hd : d = c <;> by_cases he : e = c
      · rw [hd, he]
      · subst hd
        exact absurd (Option.some.inj (hct.symm.trans h1)).symm (hother e v he h2).2.2
      · subst he
        exact absurd (Option.some.inj (hct.symm.trans h2)).symm (hother d v hd h1).2.2
      · exact h.alone d e v (hother d v hd h1).1 (hother e v he h2).1 (hother d v hd h1).2.1
          (hother e v he h2).2.1
  stacked h := by
    have hk : ∀ v, (s'.thread v).kstack = (s.thread v).kstack := by
      intro v
      rw [hthd]
      split
      · rename_i hv
        rw [hv]
      · rfl
    refine ⟨fun d v hv => ?_, fun d r v hl hr hv => ?_, by rw [hpanic]; exact h.found⟩
    · rw [hk]
      by_cases hd : d = c
      · subst hd
        obtain rfl : u = v := Option.some.inj (hct.symm.trans hv)
        exact hesp h
      · rw [hcpu d hd] at hv ⊢
        exact h.esp0 d v hv
    · obtain rfl : c = d := Option.some.inj (hlock.symm.trans hl)
      obtain rfl : p = r := Option.some.inj (hcp.symm.trans hr)
      obtain rfl : u = v := Option.some.inj (hct.symm.trans hv)
      exact hpin
  kfree h := hpanic ▸ h

/-- What choosing a thread of `p` does to the processes, of which `r` has changed `p` alone. -/
theorem chosen_procs {r : Kernel} {f : Proc → Proc} (hr : r.proc = (s.setProc p f).proc)
    (hflags : (f (s.proc p)).killed = (s.proc p).killed ∧ (f (s.proc p)).exited = (s.proc p).exited)
    (hmp : (r.thread u).mp = some p) :
    (∀ q, (((r.setstate p u .running).proc q).killed = (s.proc q).killed ∧
        ((r.setstate p u .running).proc q).exited = (s.proc q).exited) ∧
      (q ≠ p → (r.setstate p u .running).proc q = s.proc q)) ∧
    ((r.setstate p u .running).proc p).state ≠ .unused := by
  refine ⟨fun q => ⟨?_, fun hq => ?_⟩, setstate_used hmp (by decide)⟩
  · rw [setstate_flags.1, setstate_flags.2, hr]
    exact ⟨setProc_keeps Proc.killed hflags.1 q, setProc_keeps Proc.exited hflags.2 q⟩
  · rw [setstate_proc_of_ne hq, hr, setProc_proc, if_neg hq]

/-- The search for a thread of `p` goes on with a RUNNABLE one, or the kernel halts. -/
theorem withNext_cases (k : Kernel → ThdPtr → Kernel) :
    s.withNext p m k = s.halt .nullThread ∨ s.withNext p m k = s.halt m ∨
    ∃ u, (s.thread u).mp = some p ∧ (s.thread u).state = .runnable ∧
      s.withNext p m k = k (s.setProc p fun q => { q with pin := some u }) u := by
  cases hpin : (s.proc p).pin with
  | none =>
    refine .inl ?_
    simp only [withNext, hpin]
  | some pin =>
    refine .inr ?_
    cases hu : s.nextthd p pin with
    | none =>
      refine .inl ?_
      simp only [withNext, hpin, hu]
    | some u =>
      refine .inr ⟨u, (nextthd_spec hu).1, (nextthd_spec hu).2, ?_⟩
      simp only [withNext, hpin, hu]

/-- A CPU whose thread is leaving stops with the kernel. -/
theorem quiet_stop (h1 : m ≠ .switchuvmNoKstack) (h2 : m ≠ .kfree) : Quiet x y s (s.halt m) := by
  have h : Quiet x x s (s.halt m) := quiet_halt h1 h2
  exact ⟨h.thd, h.pc, h.nexttid, h.flags, h.proc, h.panic, fun hp => absurd hp halt_panic_ne,
    h.stacked, h.kfree⟩

/-- `sched()` by a thread that is no longer RUNNING. -/
theorem quiet_sched (hproc : (s.cpu c).proc = some p) (hthd : (s.cpu c).thd = some t) :
    Quiet (some c) none s (s.sched c p t) := by
  unfold sched
  split
  · exact quiet_stop (by decide) (by decide)
  dsimp only
  refine Quiet.trans (quiet_setProc (p := p) (f := fun q => { q with
    ticks := q.ticks + 1, pass := if q.stype = .mlfq then q.pass + 1 else q.pass }) rfl ⟨rfl, rfl⟩ rfl) ?_
  generalize hs₁ : s.setProc p (fun q => { q with
    ticks := q.ticks + 1, pass := if q.stype = .mlfq then q.pass + 1 else q.pass }) = s₁
  have hcpu : s₁.cpu = s.cpu := by rw [← hs₁]; rfl
  rw [← hcpu] at hproc hthd
  split
  · rcases withNext_cases (fun s u =>
      if t = u then (s.setstate p u .running).handOver c
      else ((s.setstate p u .running).handOver c).setCpu c fun r =>
        { r with thd := some u, esp0 := (((s.setstate p u .running).handOver c).thread u).kstack })
      with h | h | ⟨u, hmp, hst, h⟩
    · rw [h]
      exact quiet_stop (by decide) (by decide)
    · rw [h]
      exact quiet_stop (by decide) (by decide)
    · rw [h]
      split
      · rename_i htu
        subst htu
        refine Quiet.putOn (c := c) (.inr rfl) hmp hst (fun v => by simp) (chosen_procs rfl ⟨rfl, rfl⟩ hmp)
          (by simp) (by simp) setstate_nexttid (fun d _ => by simp) (by simpa using hproc)
          (by simpa using hthd)
          (fun hs => ?_) rfl (by simp)
        rw [handOver_cpu, setstate_cpu]
        exact hs.esp0 c t hthd
      · exact Quiet.putOn (c := c) (.inr rfl) hmp hst (fun v => by simp) (chosen_procs rfl ⟨rfl, rfl⟩ hmp)
          (by simp) (by simp) setstate_nexttid (fun d hd => by simp [hd]) (by simpa using hproc) (by simp)
          (fun _ => by simp) rfl (by simp)
  · exact quiet_leaveCpu

theorem quiet_yield (hproc : (s.cpu c).proc = some p) (hthd : (s.cpu c).thd = some t)
    (hmp : (s.thread t).mp = some p) (hrun : (s.thread t).state = .running) :
    Quiet none none s (s.yield c p t) := by
  refine (quiet_lower hthd hmp hrun).trans (quiet_sched ?_ ?_)
  · rw [setstate_cpu]
    exact hproc
  · rw [setstate_cpu]
    exact hthd

/-! ## An idle CPU -/

theorem quiet_reduce_boost : Quiet x x s s.reduce.boost := by
  obtain ⟨_, _, _, _, heq⟩ := reduce_boost_eq s
  rw [heq]
  exact .frame (fun _ => .refl _) (fun _ => id) (fun _ => .inl rfl) (fun _ => ⟨rfl, rfl⟩)
    (fun _ _ _ _ _ => rfl) rfl rfl rfl (fun _ => id) id (fun _ _ => id)

/-- `switchuvm(p)` when the cursor's thread has a stack. -/
theorem switchuvm_of_pin {stack : Nat} (hpin : (s.proc p).pin = some u)
    (hstack : (s.thread u).kstack = some stack) :
    s.switchuvm c p = s.setCpu c fun r => { r with esp0 := some stack } := by
  unfold switchuvm
  simp only [hpin, hstack]

/-- The loop body of `scheduler()` on a CPU that runs nothing. -/
theorem quiet_scheduler (hidle : (s.cpu c).thd = none)
    (hstack : ∀ u, .embryo < (s.thread u).state → (s.thread u).kstack ≠ none) :
    Quiet none none s (s.scheduler c) := by
  obtain ⟨⟨m, hm⟩, -⟩ := getschedproc_spec s.reduce.boost
  have h₁ : Quiet none none s (getschedproc s.reduce.boost).2 := by
    rw [hm]
    exact quiet_reduce_boost.trans (quiet_setMlfq _)
  have hcpu : (getschedproc s.reduce.boost).2.cpu = s.cpu := by
    obtain ⟨_, _, _, _, heq⟩ := reduce_boost_eq s
    rw [hm, heq]
  unfold scheduler
  split
  · rename_i heq
    rw [heq] at h₁
    exact h₁
  · rename_i p s₁ heq
    rw [heq] at h₁ hcpu
    dsimp only at h₁ hcpu
    rcases withNext_cases (fun s t =>
      ((((s.setCpu c fun x => { x with proc := some p, thd := some t }).switchuvm c p).setProc p
        fun q => { q with ticks := 0 }).setstate p t .running).handOver c)
      with h | h | ⟨u, hmp, hst, h⟩
    · rw [h]
      exact h₁.trans (quiet_halt (by decide) (by decide))
    · rw [h]
      exact h₁.trans (quiet_halt (by decide) (by decide))
    · rw [h]
      have hk : (s₁.thread u).kstack ≠ none := by
        rw [(h₁.thd u).kstack]
        refine hstack u ((h₁.thd u).live.mp ?_)
        rw [hst]
        decide
      obtain ⟨stack, hstack'⟩ := Option.ne_none_iff_exists'.mp hk
      have hpin : (((s₁.setProc p fun q => { q with pin := some u }).setCpu c fun r =>
          { r with proc := some p, thd := some u }).proc p).pin = some u := by simp
      rw [switchuvm_of_pin hpin (by simpa using hstack')]
      refine h₁.trans (Quiet.putOn (c := c) (.inl ⟨rfl, ?_⟩) hmp hst (fun v => by simp) ?_ (by simp) (by simp)
        setstate_nexttid (fun d hd => by simp [hd]) (by simp) (by simp) (fun _ => by simp [hstack']) rfl
        (by simp))
      · rw [hcpu]
        exact hidle
      · refine chosen_procs (f := fun q => { q with pin := some u, ticks := 0 }) ?_ ⟨rfl, rfl⟩
          (by simpa using hmp)
        funext q
        by_cases hq : q = p
        · simp [hq]
        · simp [hq]

end Kernel

end Xv6
