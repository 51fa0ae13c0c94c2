import Xv6.Proc.Step

/-!
# What the primitives change

One lemma for each primitive of the process model: which slots it writes and with what. The
loops over the thread table are slotwise, so `wakeAll_thread` and `freeAll_thread` describe a
whole loop at once.
-/

namespace Xv6

open Xv6.Lib

theorem le_runnable (st : ProcState) : st ≤ .runnable := by cases st <;> decide

namespace Kernel

/-! Three stores that several calls make. -/

abbrev setExited (s : Kernel) (p : ProcPtr) (b : Bool) : Kernel :=
  s.setProc p fun q => { q with exited := b }

abbrev setKilled (s : Kernel) (p : ProcPtr) : Kernel := s.setProc p fun q => { q with killed := true }

/-- A reserved slot is given back. -/
abbrev unalloc (s : Kernel) (n : ThdPtr) : Kernel :=
  s.setThd n fun x => { x with kstack := none, state := .unused }

variable {s s' : Kernel} {p q : ProcPtr} {t u : ThdPtr} {c : CpuId} {st : ProcState}

theorem halt_panic_ne {m : Panic} : (s.halt m).panic ≠ none := by
  simp

/-- `set_cpu_share` writes the scheduling class of its process and nothing else. -/
theorem setCpuShare_proc (m : Mlfq) (q : Proc) (share : Word) :
    ∃ stype qlev share' pass, (Xv6.setCpuShare m q share).2.2 =
      { q with stype := stype, qlev := qlev, share := share', pass := pass } := by
  unfold setCpuShare
  split
  · split
    · exact ⟨_, _, _, _, rfl⟩
    · exact ⟨q.stype, q.qlev, q.share, q.pass, rfl⟩
  · extract_lets new
    split
    · exact ⟨q.stype, q.qlev, q.share, q.pass, rfl⟩
    · exact ⟨_, _, _, _, rfl⟩

/-- Of MLFQ it writes the share. -/
theorem setCpuShare_mlfq (m : Mlfq) (q : Proc) (share : Word) :
    ∃ share', (Xv6.setCpuShare m q share).2.1 = { m with share := share' } := by
  unfold setCpuShare
  split
  · split
    · exact ⟨_, rfl⟩
    · exact ⟨m.share, rfl⟩
  · extract_lets new
    split
    · exact ⟨m.share, rfl⟩
    · exact ⟨_, rfl⟩

/-! ## The largest thread state -/

/-- The loop of `setstate`, over any part of the table and from any value. -/
theorem foldl_max_le (l : List ThdPtr) : ∀ m : ProcState, l.foldl (fun m u =>
        if (s.thread u).mp = some p ∧ m < (s.thread u).state then (s.thread u).state else m) m ≤ st ↔
      m ≤ st ∧ ∀ u ∈ l, (s.thread u).mp = some p → (s.thread u).state ≤ st := by
  induction l with
  | nil => intro m; simp
  | cons a l ih =>
    intro m
    rw [List.foldl_cons, ih]
    by_cases ha : (s.thread a).mp = some p ∧ m < (s.thread a).state
    · rw [if_pos ha]
      simp only [List.forall_mem_cons]
      constructor
      · rintro ⟨h1, h2⟩
        exact ⟨(le_of_lt ha.2).trans h1, fun _ => h1, h2⟩
      · rintro ⟨_, h1, h2⟩
        exact ⟨h1 ha.1, h2⟩
    · rw [if_neg ha]
      simp only [List.forall_mem_cons]
      constructor
      · rintro ⟨h1, h2⟩
        exact ⟨h1, fun hmp => (not_lt.mp fun hlt => ha ⟨hmp, hlt⟩).trans h1, h2⟩
      · rintro ⟨h1, _, h2⟩
        exact ⟨h1, h2⟩

theorem maxThd_le_iff : s.maxThd p ≤ st ↔ ∀ u, (s.thread u).mp = some p → (s.thread u).state ≤ st := by
  unfold maxThd
  rw [foldl_max_le]
  constructor
  · rintro ⟨_, h⟩ u
    exact h u (List.mem_finRange u)
  · intro h
    exact ⟨bot_le, fun u _ => h u⟩

/-- The largest state is some thread's state, if the process has a thread at all. -/
theorem maxThd_attained :
    s.maxThd p = .unused ∨ ∃ u, (s.thread u).mp = some p ∧ (s.thread u).state = s.maxThd p := by
  unfold maxThd
  refine List.foldlRecOn (motive := fun m => m = .unused ∨
    ∃ u, (s.thread u).mp = some p ∧ (s.thread u).state = m) _ _ (.inl rfl) ?_
  intro m hm u _
  split
  · rename_i h
    exact .inr ⟨u, h.1, rfl⟩
  · exact hm

/-! ## setstate -/

theorem setThd_mp {g : Thread → Thread} (hg : (g (s.thread t)).mp = (s.thread t).mp) :
    ((s.setThd t g).thread u).mp = (s.thread u).mp := by
  rw [setThd_thread]
  split
  · rename_i hut
    rw [hut, hg]
  · rfl

theorem setstate_eq : s.setstate p t st =
      (s.setThd t fun x => { x with state := st }).setProc p fun q =>
        { q with state := if (s.proc p).state ≤ st then st
            else (s.setThd t fun x => { x with state := st }).maxThd p } := by
  unfold setstate
  by_cases h : (s.proc p).state ≤ st <;> simp only [setThd_proc, h, ↓reduceIte]

@[simp] theorem setstate_thread :
    (s.setstate p t st).thread u =
      if u = t then { s.thread t with state := st } else s.thread u := by
  rw [setstate_eq]; rfl

theorem setstate_proc_of_ne (h : q ≠ p) : (s.setstate p t st).proc q = s.proc q := by
  rw [setstate_eq]
  simp [h]

/-- What `scheduler` does before it chooses writes queues and pass values, and nothing else of a
process. -/
theorem reduce_boost_eq (s : Kernel) : ∃ (qlev : ProcPtr → Level) (pass : ProcPtr → Word) (m b : Word),
    s.reduce.boost = { s with
      proc := fun p => { s.proc p with qlev := qlev p, pass := pass p }
      mlfq := { s.mlfq with pass := m, boosted := b } } := by
  have hreduce : s.reduce = { s with
      proc := fun p => { s.proc p with pass := (s.reduce.proc p).pass }
      mlfq := { s.mlfq with pass := s.reduce.mlfq.pass } } := by
    unfold reduce
    split
    · rfl
    · split
      · rfl
      · congr 1
        funext p
        dsimp only
        split <;> rfl
  refine ⟨fun p => (s.reduce.boost.proc p).qlev, fun p => (s.reduce.boost.proc p).pass,
    s.reduce.boost.mlfq.pass, s.reduce.boost.mlfq.boosted, ?_⟩
  rw [hreduce]
  unfold boost
  split
  · rfl
  · congr 1
    funext p
    dsimp only
    split <;> rfl

/-- What a write to `p` keeps of `p`, it keeps of every process. -/
theorem setProc_keeps {β : Type} (o : Proc → β) {f : Proc → Proc}
    (hf : o (f (s.proc p)) = o (s.proc p)) (q : ProcPtr) :
    o ((s.setProc p f).proc q) = o (s.proc q) := by
  rw [setProc_proc]
  split
  · rename_i hq
    rw [hf, hq]
  · rfl

@[simp] theorem setstate_pin : ((s.setstate p t st).proc q).pin = (s.proc q).pin := by
  rw [setstate_eq]
  exact setProc_keeps Proc.pin rfl q

@[simp] theorem setstate_pc : (s.setstate p t st).pc = s.pc := by rw [setstate_eq]; rfl
@[simp] theorem setstate_cpu : (s.setstate p t st).cpu = s.cpu := by rw [setstate_eq]; rfl
@[simp] theorem setstate_lock : (s.setstate p t st).lock = s.lock := by rw [setstate_eq]; rfl
@[simp] theorem setstate_mlfq : (s.setstate p t st).mlfq = s.mlfq := by rw [setstate_eq]; rfl
@[simp] theorem setstate_initproc : (s.setstate p t st).initproc = s.initproc := by
  rw [setstate_eq]; rfl
@[simp] theorem setstate_panic : (s.setstate p t st).panic = s.panic := by rw [setstate_eq]; rfl
@[simp] theorem setstate_drops : (s.setstate p t st).drops = s.drops := by rw [setstate_eq]; rfl

/-- Nothing is above RUNNABLE, so `setstate` never scans for it. -/
theorem setstate_runnable : s.setstate p t .runnable =
      (s.setThd t fun x => { x with state := .runnable }).setProc p fun q =>
        { q with state := .runnable } := by
  rw [setstate_eq]
  simp only [le_runnable, ↓reduceIte]

/-! ## Waking loops -/

/-- The loop over the thread table that makes RUNNABLE the threads that meet `P`. -/
def wakeAll (P : Thread → Prop) [DecidablePred P] (s : Kernel) : Kernel :=
  (List.finRange NTHREAD).foldl
    (fun s u => if P (s.thread u) then
      match (s.thread u).mp with
      | some p => s.setstate p u .runnable
      | none => s.halt .nullProc
    else s) s

theorem wakeup1_eq (chan : Option Chan) :
    s.wakeup1 chan = s.wakeAll fun x => x.state = .sleeping ∧ x.chan = chan := rfl

theorem wakeThds_eq : s.wakeThds p = s.wakeAll fun x => x.mp = some p ∧ x.state = .sleeping := by
  unfold wakeThds wakeAll
  congr 1
  funext s u
  by_cases h : (s.thread u).mp = some p ∧ (s.thread u).state = .sleeping
  · simp only [h, and_self, ↓reduceIte]
  · rw [if_neg h, if_neg h]

section WakeAll

variable (P : Thread → Prop) [DecidablePred P]

theorem wakeAll_thread : (s.wakeAll P).thread u =
      if P (s.thread u) ∧ (s.thread u).mp ≠ none then { s.thread u with state := .runnable }
      else s.thread u := by
  refine foldl_slotwise (fun s u => s.thread u)
    (fun _ x => if P x ∧ x.mp ≠ none then { x with state := .runnable } else x) ?_ ?_ s u
  · intro s i
    by_cases h : P (s.thread i)
    · cases hmp : (s.thread i).mp <;> simp [h, hmp]
    · simp [h]
  · intro s i j hj
    by_cases h : P (s.thread i)
    · cases hmp : (s.thread i).mp <;> simp [h, hj]
    · simp [h]

/-- What one round of a waking loop keeps, the loop keeps. -/
theorem wakeAll_induct {motive : Kernel → Prop} (h0 : motive s)
    (hset : ∀ s u p, motive s → P (s.thread u) → (s.thread u).mp = some p →
      motive (s.setstate p u .runnable))
    (hhalt : ∀ s u, motive s → P (s.thread u) → (s.thread u).mp = none → motive (s.halt .nullProc)) :
    motive (s.wakeAll P) := by
  refine List.foldlRecOn _ _ h0 ?_
  intro s hs u _
  by_cases h : P (s.thread u)
  · cases hmp : (s.thread u).mp with
    | none => simpa [h] using hhalt s u hs h hmp
    | some p => simpa [h] using hset s u p hs h hmp
  · simpa [h] using hs

/-- A waking loop changes no process but in its state. -/
theorem wakeAll_proc (s : Kernel) (q : ProcPtr) :
    ∃ st, (s.wakeAll P).proc q = { s.proc q with state := st } := by
  refine wakeAll_induct P (motive := fun s' => ∃ st, s'.proc q = { s.proc q with state := st })
    ⟨_, rfl⟩ ?_ ?_
  · rintro s' u p ⟨st, hst⟩ _ _
    rw [setstate_runnable]
    by_cases hq : q = p
    · subst hq
      exact ⟨.runnable, by simp [hst]⟩
    · exact ⟨st, by simp [hq, hst]⟩
  · rintro s' u ⟨st, hst⟩ _ _
    exact ⟨st, hst⟩

@[simp] theorem wakeAll_pc : (s.wakeAll P).pc = s.pc :=
  wakeAll_induct P (motive := fun s' => s'.pc = s.pc) rfl (fun _ _ _ h _ _ => by simpa using h)
    (fun _ _ h _ _ => h)

@[simp] theorem wakeAll_cpu : (s.wakeAll P).cpu = s.cpu :=
  wakeAll_induct P (motive := fun s' => s'.cpu = s.cpu) rfl (fun _ _ _ h _ _ => by simpa using h)
    (fun _ _ h _ _ => h)

@[simp] theorem wakeAll_mlfq : (s.wakeAll P).mlfq = s.mlfq :=
  wakeAll_induct P (motive := fun s' => s'.mlfq = s.mlfq) rfl (fun _ _ _ h _ _ => by simpa using h)
    (fun _ _ h _ _ => h)

end WakeAll

/-! ## Freeing loops -/

@[simp] theorem kfree_proc (v : Option Nat) : (s.kfree v).proc = s.proc := by
  unfold kfree; split <;> rfl
@[simp] theorem kfree_thread (v : Option Nat) : (s.kfree v).thread = s.thread := by
  unfold kfree; split <;> rfl
@[simp] theorem kfree_pc (v : Option Nat) : (s.kfree v).pc = s.pc := by
  unfold kfree; split <;> rfl
@[simp] theorem kfree_cpu (v : Option Nat) : (s.kfree v).cpu = s.cpu := by
  unfold kfree; split <;> rfl
@[simp] theorem kfree_mlfq (v : Option Nat) : (s.kfree v).mlfq = s.mlfq := by
  unfold kfree; split <;> rfl
@[simp] theorem kfree_initproc (v : Option Nat) : (s.kfree v).initproc = s.initproc := by
  unfold kfree; split <;> rfl
@[simp] theorem kfree_drops (v : Option Nat) : (s.kfree v).drops = s.drops := by
  unfold kfree; split <;> rfl

/-- A free thread slot. -/
def Thread.freed (x : Thread) : Thread := { x with kstack := none, state := .unused, tid := 0, mp := none }

@[simp] theorem freeThd_thread :
    (s.freeThd t).thread u = if u = t then Thread.freed (s.thread t) else s.thread u := by
  simp only [freeThd, setThd_thread, kfree_thread]
  rfl

@[simp] theorem freeThd_proc : (s.freeThd t).proc = s.proc := by simp [freeThd]
@[simp] theorem freeThd_pc : (s.freeThd t).pc = s.pc := by simp [freeThd]
@[simp] theorem freeThd_cpu : (s.freeThd t).cpu = s.cpu := by simp [freeThd]
@[simp] theorem freeThd_mlfq : (s.freeThd t).mlfq = s.mlfq := by simp [freeThd]
@[simp] theorem freeThd_initproc : (s.freeThd t).initproc = s.initproc := by simp [freeThd]
@[simp] theorem freeThd_drops : (s.freeThd t).drops = s.drops := by simp [freeThd]

/-- The loop over the thread table that frees the slots that meet `P`. -/
def freeAll (P : ThdPtr → Thread → Prop) [∀ u, DecidablePred (P u)] (s : Kernel) : Kernel :=
  (List.finRange NTHREAD).foldl (fun s u => if P u (s.thread u) then s.freeThd u else s) s

section FreeAll

variable (P : ThdPtr → Thread → Prop) [∀ u, DecidablePred (P u)]

theorem freeAll_thread :
    (s.freeAll P).thread u = if P u (s.thread u) then Thread.freed (s.thread u) else s.thread u := by
  refine foldl_slotwise (fun s u => s.thread u)
    (fun u x => if P u x then Thread.freed x else x) ?_ ?_ s u
  · intro s i
    by_cases h : P i (s.thread i) <;> simp [h]
  · intro s i j hj
    by_cases h : P i (s.thread i) <;> simp [h, hj]

theorem freeAll_induct {motive : Kernel → Prop} (h0 : motive s)
    (hfree : ∀ s u, motive s → P u (s.thread u) → motive (s.freeThd u)) : motive (s.freeAll P) := by
  refine List.foldlRecOn _ _ h0 ?_
  intro s hs u _
  by_cases h : P u (s.thread u)
  · simpa [h] using hfree s u hs h
  · simpa [h] using hs

@[simp] theorem freeAll_proc : (s.freeAll P).proc = s.proc :=
  freeAll_induct P (motive := fun s' => s'.proc = s.proc) rfl (fun _ _ h _ => by simpa using h)
@[simp] theorem freeAll_pc : (s.freeAll P).pc = s.pc :=
  freeAll_induct P (motive := fun s' => s'.pc = s.pc) rfl (fun _ _ h _ => by simpa using h)
@[simp] theorem freeAll_cpu (s : Kernel) : (s.freeAll P).cpu = s.cpu :=
  freeAll_induct P (motive := fun s' => s'.cpu = s.cpu) rfl (fun _ _ h _ => by simpa using h)
@[simp] theorem freeAll_mlfq (s : Kernel) : (s.freeAll P).mlfq = s.mlfq :=
  freeAll_induct P (motive := fun s' => s'.mlfq = s.mlfq) rfl (fun _ _ h _ => by simpa using h)
@[simp] theorem freeAll_initproc : (s.freeAll P).initproc = s.initproc :=
  freeAll_induct P (motive := fun s' => s'.initproc = s.initproc) rfl
    (fun _ _ h _ => by simpa using h)
@[simp] theorem freeAll_drops : (s.freeAll P).drops = s.drops :=
  freeAll_induct P (motive := fun s' => s'.drops = s.drops) rfl (fun _ _ h _ => by simpa using h)

end FreeAll

end Kernel

end Xv6
