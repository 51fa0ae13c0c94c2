import Xv6.Laws.Proc.Calm
import Xv6.Laws.Proc.State

/-!
# What one step can do

`Effect` lists everything a thread's step can do to the resources of a process, up to
scheduling: each constructor names the state in the middle, and `Calm` leads from there to the
next state. `step_effect` says that there is nothing else, so an invariant about resources is proved
by cases over `Effect` and never looks into a call.
-/

namespace Xv6

open Xv6.Lib

/-- The places outside `exit`, behind its first check, and outside the sleep of `exec`. -/
def Pc.ordinary : Pc → Bool
  | .dead | .exitClose .. | .exitClear .. | .exitPut _ | .exitCwd _ | .exitShare _ | .exitThds _
  | .exitSleep _ | .execSleep => false
  | _ => true

/-- The ordinary places at which nothing is promised. -/
def Pc.plain : Pc → Bool
  | .waitSleep | .forkRun .. | .threadExitDie _ => false
  | k => k.ordinary

/-- The places inside `thread_create`. -/
def Pc.creating : Pc → Bool
  | .allocthd .create | .allocStack .create _ | .allocOwner .create _ | .createStack _
  | .createArgs _ | .createRun _ => true
  | _ => false

/-- The places whose next stretch uses `myproc()->cwd`. -/
def Pc.usesCwd : Pc → Bool
  | .exitPut _ | .forkCwd .. | .kernel | .exec _ => true
  | _ => false

/-- Where `exit` returns to. -/
def ExitCaller.back : ExitCaller → Pc
  | .sysExit => .sysret
  | .threadExit retval => .threadExitDie retval

/-- Where `exit` goes on behind descriptor `fd`. -/
def ExitCaller.behind (k : ExitCaller) (fd : Fin NOFILE) : Pc :=
  match nextSlot fd with
  | some fd' => .exitClose k fd'
  | none => .exitPut k

namespace Kernel

/-- Thread `t` of `p` goes to sleep at `k`, before it leaves its CPU. -/
def asleep (s : Kernel) (p : ProcPtr) (t : ThdPtr) (chan : Chan) (k : Pc) : Kernel :=
  ((s.setThd t fun x => { x with chan := some chan }).setstate p t .sleeping).setPc t k

/-- Thread `t` of `p` dies, before it leaves its CPU. -/
def dead (s : Kernel) (p : ProcPtr) (t : ThdPtr) : Kernel :=
  (s.setstate p t .zombie).setPc t .dead

/-- `exit` passes the children of `p` to `initproc`. -/
def adopt (s : Kernel) (p : ProcPtr) : Kernel :=
  { s with proc := fun q =>
      if (s.proc q).parent = some p then { s.proc q with parent := some s.initproc } else s.proc q }

/-- Another thread of the process is not ZOMBIE: what `allthdexit` waits for. -/
def Sibling (s : Kernel) (p : ProcPtr) (t : ThdPtr) : Prop :=
  ∃ u, u ≠ t ∧ (s.thread u).mp = some p ∧ (s.thread u).state ≠ .zombie

/-- What a step by thread `t` of `p` on CPU `c` can do, up to scheduling. -/
inductive Effect (s : Kernel) (a : Act) (c : CpuId) (p : ProcPtr) (t : ThdPtr) (s' : Kernel) : Prop
  | calm (h : Calm s s')
  /-- the thread moves on, outside `exit` -/
  | move {k : Pc} (hpc : (s.pc t).ordinary) (hk : k.plain)
      (hc : k.creating → (s.pc t).creating ∨ a = .syscall c .threadCreate)
      (h : Calm (s.setPc t k) s')
  /-- `thread_exit` leaves its process to another thread -/
  | threadExit {retval : Word} (hpc : s.pc t = .threadExit retval) (hsib : s.Sibling p t)
      (h : Calm (s.setPc t (.threadExitDie retval)) s')
  /-- a null directory is used -/
  | nullInode (hpc : (s.pc t).usesCwd) (hcwd : (s.proc p).cwd = none) (h : s' = s.halt .nullInode)
  /-- the thread falls asleep outside `exit` and `exec`; in `wait`, with no ZOMBIE child -/
  | sleep {k : Pc} {chan : Chan} (hpc : (s.pc t).ordinary) (hk : k = .waitSleep ∨ k.plain)
      (hc : k.creating = false) (hw : k = .waitSleep → chan = .proc p ∧
        ∀ q, (s.proc q).parent = some p → (s.proc q).state ≠ .zombie)
      (h : Calm (s.asleep p t chan k) s')
  | exitEnter {e : ExitCaller} (ha : ∃ ok page, a = .kstep c ok page) (hpc : s.pc t = .exitEntry e)
      (hp : p ≠ s.initproc) (h : Calm (s.setPc t (.exitClose e 0)) s')
  | exitClose {e : ExitCaller} {fd : Fin NOFILE} (hpc : s.pc t = .exitClose e fd)
      (h : Calm (s.setPc t (.exitClear e fd)) s')
  /-- descriptor `fd` is clear -/
  | exitNext {e : ExitCaller} {fd : Fin NOFILE}
      (hpc : s.pc t = .exitClose e fd ∧ (s.proc p).ofile fd = none ∨ s.pc t = .exitClear e fd)
      (h : Calm ((s.setProc p fun q =>
        { q with ofile := fun i => if i = fd then none else q.ofile i }).setPc t (e.behind fd)) s')
  | exitPut {e : ExitCaller} (hpc : s.pc t = .exitPut e) (hcwd : (s.proc p).cwd ≠ none)
      (h : Calm ({ s with drops := fun q => if q = p then s.drops p + 1 else s.drops q }.setPc t
        (.exitCwd e)) s')
  | exitCwd {e : ExitCaller} (hpc : s.pc t = .exitCwd e)
      (h : Calm ((s.setProc p fun q => { q with cwd := none }).setPc t (.exitShare e)) s')
  | exitShare {e : ExitCaller} (hpc : s.pc t = .exitShare e)
      (h : Calm ((s.cpuShare p 0).setPc t (.exitThds e)) s')
  /-- `allthdexit` goes to sleep for the first time -/
  | await {e : ExitCaller} {k : Pc}
      (hpc : s.pc t = .exitThds e ∧ k = .exitSleep e ∨ s.pc t = .execThds ∧ k = .execSleep)
      (hex : (s.proc p).exited = false) (hsib : s.Sibling p t)
      (h : Calm ((s.setExited p true).asleep p t (.proc p) k) s')
  /-- `allthdexit` goes to sleep again -/
  | awaitAgain {e : ExitCaller} (hpc : s.pc t = .exitSleep e ∨ s.pc t = .execSleep)
      (hsib : s.Sibling p t) (h : Calm (s.asleep p t (.proc p) (s.pc t)) s')
  /-- `exit` returns -/
  | exitBack {e : ExitCaller} {b : Bool} (hpc : s.pc t = .exitThds e ∨ s.pc t = .exitSleep e)
      (hwhy : (s.proc p).exited = true ∧ s.pc t = .exitThds e ∨ s.Sibling p t)
      (h : Calm ((s.setExited p b).setPc t e.back) s')
  /-- `exec` returns from its sleep without success -/
  | execBack (hpc : s.pc t = .execSleep)
      (h : Calm ((s.setExited p false).setPc t .sysret) s')
  /-- `exec` frees the other threads -/
  | execDone (hpc : s.pc t = .execThds ∧ (s.proc p).exited = false ∨ s.pc t = .execSleep)
      (hsib : ¬ s.Sibling p t)
      (h : Calm (((s.setExited p false).freeAll fun u x =>
        u ≠ t ∧ x.mp = some p ∧ x.state = .zombie).setPc t .sysret) s')
  /-- the end of `exit`: `s₁` is the state before the thread dies, with everybody woken -/
  | exitFinish {e : ExitCaller} {s₁ : Kernel}
      (hpc : s.pc t = .exitThds e ∧ (s.proc p).exited = false ∨ s.pc t = .exitSleep e)
      (hsib : ¬ s.Sibling p t) (hcore : Core none s₁)
      (h₁ : Calm ((s.setExited p false).adopt p) s₁)
      (hparent : ∀ q u, (s.proc p).parent = some q → (s₁.thread u).state = .sleeping →
        (s₁.thread u).chan ≠ some (.proc q))
      (hinit : ∀ q u, (s.proc q).parent = some p → (s.proc q).state = .zombie →
        (s₁.thread u).state = .sleeping → (s₁.thread u).chan ≠ some (.proc s.initproc))
      (h : Calm (s₁.dead p t) s')
  /-- the end of `thread_exit` -/
  | die {retval : Word} {s₁ : Kernel} (ha : ∃ ok page, a = .kstep c ok page)
      (hpc : s.pc t = .threadExitDie retval) (hcore : Core none s₁) (h₁ : Calm s s₁)
      (h : Calm (s₁.dead p t) s')
  | join {u : ThdPtr} (hpc : (s.pc t).ordinary) (hmp : (s.thread u).mp = some p)
      (hz : (s.thread u).state = .zombie) (h : Calm ((s.freeThd u).setPc t .sysret) s')
  | reap {q : ProcPtr} {s₁ : Kernel} (hpc : (s.pc t).ordinary) (h₁ : Calm s s₁)
      (hparent : (s₁.proc q).parent = some p) (hz : (s₁.proc q).state = .zombie)
      (h : Calm ((s₁.reap q).setPc t .sysret) s')
  | cpuShare {share : Word} (ha : ∃ ok page, a = .kstep c ok page) (hpc : s.pc t = .setCpuShare share)
      (h : Calm ((s.cpuShare p share).setPc t .sysret) s')
  | allocproc {np : ProcPtr} (hpc : s.pc t = .fork) (hnp : (s.proc np).state = .unused)
      (h : Calm ({ s.setProc np fun q => { q with state := .embryo } with
        drops := fun q => if q = np then 0 else s.drops q }.setPc t (.forkCopy np)) s')
  | forkFail {np : ProcPtr} (hpc : (s.pc t).ordinary) (hnp : (s.pc t).hold.np = some np)
      (h : Calm ((s.setProc np fun q => { q with state := .unused }).setPc t .sysret) s')
  /-- a new thread gets its process: the caller's, or the one `fork` makes -/
  | allocOwner {n : ThdPtr} {q : ProcPtr} {k : Pc} (hpc : (s.pc t).ordinary) (hk : k.plain)
      (hn : (s.thread n).state = .embryo) (hmp : (s.thread n).mp = none)
      (hq : (s.pc t).hold.np = some q ∧ (s.pc t).hold.owned = false ∨ q = p ∧ (s.pc t).creating)
      (hc : k.creating → (s.pc t).creating)
      (h : Calm (((s.setPc n .forkret).setThd n fun x => { x with mp := some q }).setPc t k) s')
  | forkInit {np : ProcPtr} {n : ThdPtr} (hpc : s.pc t = .forkInit np n)
      (h : Calm ((s.setProc np fun q => { q with parent := some p, stype := .mlfq }).setPc t
        (.forkFile np n 0)) s')
  | forkFile {np : ProcPtr} {n : ThdPtr} {fd : Fin NOFILE} {f : FilePtr} {k : Pc}
      (hpc : s.pc t = .forkFile np n fd) (hk : k.plain) (hc : k.creating = false)
      (h : Calm ((s.setProc np fun q =>
        { q with ofile := fun i => if i = fd then some f else q.ofile i }).setPc t k) s')
  | forkCwd {np : ProcPtr} {n : ThdPtr} {ip : InodePtr} (hpc : s.pc t = .forkCwd np n)
      (h : Calm ((s.setProc np fun q => { q with cwd := some ip }).setPc t (.forkRun np n)) s')
  | forkRun {np : ProcPtr} {n : ThdPtr} (hpc : s.pc t = .forkRun np n)
      (h : Calm ((s.setstate np n .runnable).setPc t .sysret) s')
  | chdirSet {ip : InodePtr} (ha : ∃ ok page, a = .kstep c ok page) (hpc : s.pc t = .chdirSet ip)
      (h : Calm ((s.setProc p fun q => { q with cwd := some ip }).setPc t .sysret) s')
  | ofile {fd : Fin NOFILE} {f : Option FilePtr} (ha : a = .work c (.ofile fd f))
      (hpc : s.pc t = .kernel)
      (h : Calm (s.setProc p fun q =>
        { q with ofile := fun i => if i = fd then f else q.ofile i }) s')

variable {s s' s₁ : Kernel} {a : Act} {p q np : ProcPtr} {t u n : ThdPtr} {c : CpuId} {k : Pc}
  {e : ExitCaller} {fd : Fin NOFILE} {ok : Bool} {page : Option Nat} {chan : Chan}

/-! ## Calm under an update -/

/-- `r` has what `s` has outside the two tables, up to a panic of `kfree`. -/
structure SameRest (s r : Kernel) : Prop where
  initproc : r.initproc = s.initproc
  drops : r.drops = s.drops
  share : r.mlfq.share = s.mlfq.share
  panic : ∀ m, m ≠ .kfree → (r.panic = some m ↔ s.panic = some m)

/-- An update of the tables goes through a calm step if it does so for each thread and process. -/
theorem Calm.map {r r' : Kernel} (h : Calm s s') (hthd : ∀ u, CalmThread (r.thread u) (r'.thread u))
    (hproc : ∀ q, (r'.proc q).still = (r.proc q).still)
    (hlive : ∀ q, (r'.proc q).state = (r.proc q).state ∨
      .embryo < (r.proc q).state ∧ .embryo < (r'.proc q).state)
    (hshare : ∀ q, (r.proc q).stype = (s.proc q).stype ∧ (r.proc q).share = (s.proc q).share)
    (hpc : r'.pc = r.pc) (hs : SameRest s r) (hs' : SameRest s' r') : Calm r r' where
  proc := hproc
  live := hlive
  mp u := (hthd u).mp
  zombie u := (hthd u).zombie
  embryo u := (hthd u).embryo
  asleep u := (hthd u).asleep
  pc := hpc
  initproc := hs'.initproc.trans (h.initproc.trans hs.initproc.symm)
  drops := hs'.drops.trans (h.drops.trans hs.drops.symm)
  share := hs'.share.trans (h.share.trans hs.share.symm)
  null hp := (hs.panic _ (by decide)).mpr (h.null ((hs'.panic _ (by decide)).mp hp))
  div hp := by
    rcases h.div ((hs'.panic _ (by decide)).mp hp) with hp | hp | ⟨q, h1, h2⟩
    · exact .inl ((hs.panic _ (by decide)).mpr hp)
    · exact .inr (.inl (hs.share.trans hp))
    · exact .inr (.inr ⟨q, (hshare q).1.trans h1, (hshare q).2.trans h2⟩)

/-- An update of resources that scheduling does not look at goes through a calm step. -/
theorem Calm.setProc_congr (h : Calm s s') {f : Proc → Proc}
    (hf : ∀ a b : Proc, a.still = b.still → (f a).still = (f b).still)
    (hst : (∀ a : Proc, (f a).state = a.state) ∨ ∃ st, ∀ a : Proc, (f a).state = st)
    (hshare : ∀ a : Proc, (f a).stype = a.stype ∧ (f a).share = a.share) :
    Calm (s.setProc p f) (s'.setProc p f) := by
  refine h.map h.thread (fun q => ?_) (fun q => ?_) (fun q => ?_) h.pc ⟨rfl, rfl, rfl, fun _ _ => .rfl⟩
    ⟨rfl, rfl, rfl, fun _ _ => .rfl⟩
  · by_cases hq : q = p
    · simpa [hq] using hf _ _ (h.proc p)
    · simpa [hq] using h.proc q
  · by_cases hq : q = p
    · rcases hst with hst | ⟨st, hst⟩
      · simpa [hq, hst] using h.live p
      · simp [hq, hst]
    · simpa [hq] using h.live q
  · by_cases hq : q = p <;> simp [hq, hshare]

theorem still_exited {a b : Proc} (v : Bool) (h : a.still = b.still) :
    ({ a with exited := v } : Proc).still = ({ b with exited := v } : Proc).still :=
  congrArg (fun q : Proc => { q with exited := v }) h

theorem Calm.setExited (h : Calm s s') {b : Bool} :
    Calm (s.setExited p b) (s'.setExited p b) :=
  h.setProc_congr (fun _ _ => still_exited _) (.inl fun _ => rfl) fun _ => ⟨rfl, rfl⟩

theorem still_parent {a b : Proc} (v : Option ProcPtr) (h : a.still = b.still) :
    ({ a with parent := v } : Proc).still = ({ b with parent := v } : Proc).still :=
  congrArg (fun q : Proc => { q with parent := v }) h

theorem setProc_self {f : Proc → Proc} (hf : f (s.proc p) = s.proc p) : s.setProc p f = s := by
  unfold setProc
  congr 1
  funext q
  split
  · rename_i hq
    rw [hf, hq]
  · rfl

theorem setProc_exited_self {b : Bool} (hb : (s.proc p).exited = b) :
    (s.setExited p b) = s :=
  setProc_self (by rw [← hb])

theorem exitNextFd_eq : s.exitNextFd t e fd = s.setPc t (e.behind fd) := by
  unfold exitNextFd ExitCaller.behind
  cases nextSlot fd <;> rfl

theorem setProc_exited_setProc (b b' : Bool) :
    ((s.setExited p b).setExited p b') =
      s.setExited p b' := by
  simp only [setProc, mk.injEq, and_self, and_true]
  funext q
  split <;> simp_all

theorem Calm.setPc_congr (h : Calm s s') : Calm (s.setPc t k) (s'.setPc t k) :=
  { h with pc := by funext u; simp [h.pc] }

theorem calm_ret (hrun : (s.thread t).state ≠ .sleeping) (r : Word) :
    Calm (s.setPc t .sysret) (s.ret t r) :=
  calm_setThd (s := s.setPc t .sysret) (t := t) (g := fun x => { x with eax := r }) rfl rfl hrun

/-- Who runs does not fall asleep. -/
theorem Calm.awake (h : Calm s s') (hrun : (s.thread t).state = .running) :
    (s'.thread t).state ≠ .sleeping := fun hsl => by
  rw [(h.asleep t hsl).1] at hrun
  cases hrun

theorem Effect.goes (hpc : (s.pc t).ordinary) (hk : k.plain) (hc : k.creating = false)
    (h : Calm (s.setPc t k) s') : Effect s a c p t s' :=
  .move hpc hk (by simp [hc]) h

theorem sleep_calm : Calm (s.asleep p t chan k) (s.sleep c p t chan k) := calm_sched

/-- Falling asleep goes through a calm step. -/
theorem Calm.asleep_congr (h : Calm s s') (hmp : (s.thread t).mp = some p) :
    Calm (s.asleep p t chan k) (s'.asleep p t chan k) := by
  have hlive : ∀ r : Kernel, (r.thread t).mp = some p →
      .embryo < ((r.asleep p t chan k).proc p).state := by
    intro r hr
    have hr' : ((r.setThd t fun x => { x with chan := some chan }).thread t).mp = some p := by
      simpa using hr
    exact lt_of_lt_of_le (by decide) (le_setstate hr')
  have hstill : ∀ (r : Kernel) q, ((r.asleep p t chan k).proc q).still = (r.proc q).still := by
    intro r q
    simp [Kernel.asleep]
  have hrest : ∀ r : Kernel, SameRest r (r.asleep p t chan k) := fun r =>
    ⟨by simp [Kernel.asleep], by simp [Kernel.asleep], by simp [Kernel.asleep],
      fun m _ => by simp [Kernel.asleep]⟩
  refine h.map (fun u => ?_) (fun q => ?_) (fun q => ?_) (fun q => ?_) ?_ (hrest s) (hrest s')
  · by_cases hu : u = t
    · subst hu
      refine ⟨?_, fun _ => ?_, fun _ => ?_, fun _ => ?_⟩
      · simpa [Kernel.asleep] using h.mp u
      all_goals simp [Kernel.asleep]
    · simpa [Kernel.asleep, hu] using h.thread u
  · rw [hstill, hstill]
    exact h.proc q
  · by_cases hq : q = p
    · subst hq
      exact .inr ⟨hlive s hmp, hlive s' ((h.mp t).trans hmp)⟩
    · simpa [Kernel.asleep, setstate_proc_of_ne hq] using h.live q
  · have htype := congrArg Proc.stype (hstill s q)
    have hshare := congrArg Proc.share (hstill s q)
    exact ⟨htype, hshare⟩
  · funext u
    simp [Kernel.asleep, h.pc]

/-- Freeing a slot goes through a calm step. -/
theorem Calm.freeThd_congr (h : Calm s s') : Calm (s.freeThd u) (s'.freeThd u) := by
  refine h.map (fun v => ?_) (by simpa using h.proc) (by simpa using h.live) (by simp)
    (by simpa using h.pc) ⟨by simp, by simp, by simp, fun _ => freeThd_panic_iff⟩
    ⟨by simp, by simp, by simp, fun _ => freeThd_panic_iff⟩
  by_cases hvu : v = u
  · subst hvu
    constructor <;> simp [Thread.freed]
  · simpa [hvu] using h.thread v

/-- So does a loop that frees slots by owner and by being ZOMBIE. -/
theorem Calm.freeAll_congr (h : Calm s s') {P : ThdPtr → Thread → Prop} [∀ u, DecidablePred (P u)]
    (hP : ∀ u x y, x.mp = y.mp → (x.mp ≠ none → (x.state = .zombie ↔ y.state = .zombie)) →
      (P u x ↔ P u y)) :
    Calm (s.freeAll P) (s'.freeAll P) := by
  have key : ∀ (l : List ThdPtr) (s s' : Kernel), Calm s s' →
      Calm (l.foldl (fun s u => if P u (s.thread u) then s.freeThd u else s) s)
        (l.foldl (fun s u => if P u (s.thread u) then s.freeThd u else s) s') := by
    intro l
    induction l with
    | nil => exact fun _ _ h => h
    | cons u l ih =>
      intro s s' h
      have hu : P u (s'.thread u) ↔ P u (s.thread u) :=
        hP u _ _ (h.mp u) fun hmp => h.zombie u (by rwa [h.mp] at hmp)
      rw [List.foldl_cons, List.foldl_cons]
      by_cases hs : P u (s.thread u)
      · rw [if_pos hs, if_pos (hu.mpr hs)]
        exact ih _ _ (h.freeThd_congr)
      · rw [if_neg hs, if_neg fun h' => hs (hu.mp h')]
        exact ih _ _ h
  exact key _ _ _ h

/-! ## The waiting of allthdexit -/

theorem havethds_iff : s.havethds p t = true ↔ s.Sibling p t := by
  unfold havethds Sibling
  rw [List.any_eq_true]
  constructor
  · rintro ⟨u, _, hu⟩
    exact ⟨u, by simpa using hu⟩
  · rintro ⟨u, hu⟩
    exact ⟨u, List.mem_finRange u, by simpa using hu⟩

theorem Calm.sibling (h : Calm s s') : s'.Sibling p t ↔ s.Sibling p t := by
  unfold Sibling
  refine exists_congr fun u => and_congr_right fun _ => ?_
  rw [h.mp]
  refine and_congr_right fun hu => not_congr (h.zombie u (by simp [hu]))

/-- The outcomes of one round. -/
theorem allthdRound_cases : (¬ s.Sibling p t ∧ s.allthdRound p t = (.done, s.setExited p false)) ∨
    (s.Sibling p t ∧
      s.allthdRound p t = (.failed, s.setExited p false)) ∨
    (s.Sibling p t ∧ s.allthdRound p t = (.sleeps, s)) := by
  unfold allthdRound
  by_cases hsib : s.Sibling p t
  · have hhave := havethds_iff.mpr hsib
    by_cases hk : (s.proc p).killed
    · exact .inr (.inl ⟨hsib, by simp [hhave, hk]⟩)
    · exact .inr (.inr ⟨hsib, by simp [hhave, hk]⟩)
  · have hhave : s.havethds p t ≠ true := fun hh => hsib (havethds_iff.mp hh)
    exact .inl ⟨hsib, by simp [hhave]⟩

/-- The outcomes of a call: it is refused, or a round follows the waking of the siblings. -/
theorem allthdexit_cases (h : Core none s) :
    ((s.proc p).exited = true ∧ s.allthdexit p t = (.failed, s)) ∨
    ((s.proc p).exited = false ∧ ∃ s₁, Core none s₁ ∧
      Calm (s.setExited p true) s₁ ∧ s₁.cpu = s.cpu ∧
      s.allthdexit p t = s₁.allthdRound p t) := by
  unfold allthdexit
  by_cases hex : (s.proc p).exited
  · exact .inl ⟨hex, by simp [hex]⟩
  · have h1 : Core none (s.setExited p true) := h.setProc p rfl id
    refine .inr ⟨by simpa using hex, _, h1.wakeThds p, calm_wakeThds h1, by simp, ?_⟩
    simp [hex]

/-! ## The end of exit -/

/-- After `wakeup1` nobody sleeps on the channel. -/
theorem wakeup1_done {o : Option Chan}
    (hown : (s.thread u).state = .sleeping → (s.thread u).mp ≠ none)
    (hu : ((s.wakeup1 o).thread u).state = .sleeping) : ((s.wakeup1 o).thread u).chan ≠ o := by
  rw [wakeup1_eq, wakeAll_thread] at hu ⊢
  split at hu
  · cases hu
  · rename_i hno
    rw [if_neg hno]
    exact fun hchan => hno ⟨⟨hu, hchan⟩, hown hu⟩

theorem Core.wakeup1_done {o : Option Chan} (h : Core none s) :
    ((s.wakeup1 o).thread u).state = .sleeping → ((s.wakeup1 o).thread u).chan ≠ o :=
  Kernel.wakeup1_done fun hu => h.owner u (by rw [hu]; decide) (by rw [hu]; decide)

/-- One round of the loop over the children, without its waking. -/
def adoptOne (p : ProcPtr) (s : Kernel) (q : ProcPtr) : Kernel :=
  if (s.proc q).parent = some p then
    s.setProc q fun x => { x with parent := some s.initproc } else s

theorem foldl_adoptOne (l : List ProcPtr) : ∀ s : Kernel, l.foldl (adoptOne p) s =
    { s with proc := fun q => if q ∈ l ∧ (s.proc q).parent = some p then
        { s.proc q with parent := some s.initproc } else s.proc q } := by
  induction l with
  | nil => intro s; simp
  | cons r l ih =>
    intro s
    rw [List.foldl_cons, ih]
    unfold adoptOne
    by_cases hr : (s.proc r).parent = some p
    · simp only [hr, ↓reduceIte, setProc, mk.injEq, and_self, and_true]
      funext q
      by_cases hq : q = r
      · subst hq
        simp [hr]
      · simp [hq]
    · simp only [hr, ↓reduceIte, mk.injEq, and_self, and_true]
      funext q
      by_cases hq : q = r
      · subst hq
        simp [hr]
      · simp [hq]

theorem foldl_adoptOne_thread (l : List ProcPtr) : (l.foldl (adoptOne p) s).thread = s.thread := by
  rw [foldl_adoptOne]

@[simp] theorem adopt_thread : (s.adopt p).thread = s.thread := rfl

theorem foldl_adoptOne_eq : (List.finRange NPROC).foldl (adoptOne p) s = s.adopt p := by
  rw [foldl_adoptOne]
  simp [adopt, List.mem_finRange]

/-- The loop over the children, from two states that scheduling tells apart. -/
theorem foldl_abandon (l : List ProcPtr) : ∀ s s' : Kernel, Core none s' → Calm s s' →
    Calm (l.foldl (adoptOne p) s) (l.foldl (abandon p) s') ∧
    ∀ q ∈ l, (s.proc q).parent = some p → (s.proc q).state = .zombie → ∀ u,
      ((l.foldl (abandon p) s').thread u).state = .sleeping →
      ((l.foldl (abandon p) s').thread u).chan ≠ some (.proc s.initproc) := by
  induction l with
  | nil =>
    intro s s' _ h
    exact ⟨h, by simp⟩
  | cons r l ih =>
    intro s s' hcore h
    rw [List.foldl_cons, List.foldl_cons]
    by_cases hr : (s.proc r).parent = some p
    · have hr' : (s'.proc r).parent = some p := by rw [h.parent, hr]
      have h1 : Core none (s'.setProc r fun x => { x with parent := some s'.initproc }) :=
        hcore.setProc r rfl id
      have h2 : Calm (adoptOne p s r) (s'.setProc r fun x => { x with parent := some s'.initproc }) := by
        rw [h.initproc, adoptOne, if_pos hr]
        exact h.setProc_congr (fun _ _ => still_parent _) (.inl fun _ => rfl) fun _ => ⟨rfl, rfl⟩
      have hinit : (adoptOne p s r).initproc = s.initproc := by
        rw [adoptOne, if_pos hr, setProc_initproc]
      have hother : ∀ q, q ≠ r → (adoptOne p s r).proc q = s.proc q := by
        intro q hq
        rw [adoptOne, if_pos hr, setProc_proc, if_neg hq]
      by_cases hz : (s'.proc r).state = .zombie
      · -- a ZOMBIE child: `initproc` is woken, and stays awake for the rest of the loop
        have hab : abandon p s' r = (s'.setProc r fun x =>
            { x with parent := some s'.initproc }).wakeup1 (some (.proc s'.initproc)) := by
          simp [abandon, hr', hz]
        have h3 := h2.trans (calm_wakeup1 h1 (some (.proc s'.initproc)))
        obtain ⟨h4, h5⟩ := ih _ _ (h1.wakeup1 (some (.proc s'.initproc))) h3
        obtain ⟨h6, _⟩ := ih _ _ (h1.wakeup1 (some (.proc s'.initproc))) (.refl _)
        rw [hab]
        refine ⟨h4, fun q hq hq1 hq2 u hu => ?_⟩
        by_cases hqr : q = r
        · obtain ⟨hsl, hch⟩ := h6.asleep u hu
          rw [foldl_adoptOne_thread] at hsl hch
          rw [hch, ← h.initproc]
          exact h1.wakeup1_done hsl
        · rw [← hinit]
          refine h5 q ((List.mem_cons.mp hq).resolve_left hqr) ?_ ?_ u hu
          · rw [hother q hqr]; exact hq1
          · rw [hother q hqr]; exact hq2
      · have hab : abandon p s' r = s'.setProc r fun x => { x with parent := some s'.initproc } := by
          simp [abandon, hr', hz]
        obtain ⟨h4, h5⟩ := ih _ _ h1 h2
        rw [hab]
        refine ⟨h4, fun q hq hq1 hq2 u hu => ?_⟩
        have hqr : q ≠ r := by
          rintro rfl
          have := h.live q
          rw [hq2] at this
          rcases this with e | ⟨e, _⟩
          · exact hz e
          · exact absurd e (by decide)
        rw [← hinit]
        refine h5 q ((List.mem_cons.mp hq).resolve_left hqr) ?_ ?_ u hu
        · rw [hother q hqr]; exact hq1
        · rw [hother q hqr]; exact hq2
    · have hr' : (s'.proc r).parent ≠ some p := by rw [h.parent]; exact hr
      rw [adoptOne, if_neg hr, abandon, if_neg hr']
      obtain ⟨h4, h5⟩ := ih s s' hcore h
      refine ⟨h4, fun q hq hq1 hq2 u hu => ?_⟩
      have hqr : q ≠ r := by
        rintro rfl
        exact hr hq1
      exact h5 q ((List.mem_cons.mp hq).resolve_left hqr) hq1 hq2 u hu

/-- The end of `exit`, for a thread whose siblings are gone. -/
theorem exitFinish_effect (h : Core none s₁)
    (hpc : s.pc t = .exitThds e ∧ (s.proc p).exited = false ∨ s.pc t = .exitSleep e)
    (hsib : ¬ s.Sibling p t) (h₁ : Calm (s.setExited p false) s₁) :
    Effect s a c p t (s₁.exitFinish c p t) := by
  have hparent : (s₁.proc p).parent = (s.proc p).parent := by rw [h₁.parent]; simp
  have hcore := h.wakeup1 ((s₁.proc p).parent.map .proc)
  obtain ⟨h2, h3⟩ := foldl_abandon (p := p) (List.finRange NPROC) _ _ hcore
    (h₁.trans (calm_wakeup1 h _))
  obtain ⟨h4, _⟩ := foldl_abandon (p := p) (List.finRange NPROC) _ _ hcore (.refl _)
  rw [foldl_adoptOne_eq] at h2 h4
  have h5 := (Core.abandon_loop (p := p) hcore).1
  refine .exitFinish hpc hsib h5 h2 (fun q u hq hu => ?_) (fun q u hq hz hu => ?_) calm_sched
  · obtain ⟨hsl, hch⟩ := h4.asleep u hu
    rw [adopt_thread] at hsl hch
    have hchan : (s₁.proc p).parent.map Chan.proc = some (.proc q) := by rw [hparent, hq]; rfl
    rw [hch, ← hchan]
    exact h.wakeup1_done hsl
  · refine h3 q (List.mem_finRange q) ?_ ?_ u hu
    · by_cases hqp : q = p
      · subst hqp
        simpa using hq
      · simpa [hqp] using hq
    · by_cases hqp : q = p
      · subst hqp
        simpa using hz
      · simpa [hqp] using hz

/-! ## The calls -/

section OnCpu

variable (h : Core none s) (hon : s.onCpu c = some (p, t))

include h hon

theorem onCpu_running : (s.thread t).state = .running ∧ (s.thread t).mp = some p := by
  obtain ⟨hproc, hthd⟩ := onCpu_iff.mp hon
  obtain ⟨hrun, hmp⟩ := h.running c t (by simp) hthd
  exact ⟨hrun, hmp.symm.trans hproc⟩

/-- A call returns. -/
theorem ret_effect (h₁ : Calm s s₁) (hpc : (s.pc t).ordinary) {r : Word}
    (h₂ : Calm (s₁.ret t r) s') : Effect s a c p t s' :=
  .goes hpc rfl rfl
    (h₁.setPc_congr.trans ((calm_ret (h₁.awake (onCpu_running h hon).1) r).trans h₂))

theorem calm_awake : Calm s (s.setThd t fun x => { x with chan := none }) := by
  refine calm_setThd rfl rfl ?_
  rw [(onCpu_running h hon).1]
  decide

/-- One round of `wait`, from the call or from a sleep. -/
theorem waitRound_effect (h₁ : Calm s s₁) (hpc : (s.pc t).ordinary) :
    Effect s a c p t (s₁.waitRound c p t) := by
  obtain ⟨hrun, hmp⟩ := onCpu_running h hon
  have hrun₁ := h₁.awake hrun
  unfold waitRound
  split
  · rename_i q hfind
    have hq := List.find?_some hfind
    simp only [decide_eq_true_eq] at hq
    have hrun₂ : ((s₁.reap q).thread t).state ≠ .sleeping := by
      rw [reap_eq, setProc_thread, freeAll_thread]
      split
      · simp [Thread.freed]
      · exact hrun₁
    exact .reap hpc h₁ hq.1 hq.2 ((calm_ret hrun₂ _).trans calm_release)
  · rename_i hnone
    split
    · exact ret_effect h hon h₁ hpc calm_release
    · refine .sleep hpc (.inl rfl) rfl (fun _ => ⟨rfl, fun q hq hz => ?_⟩)
        ((h₁.asleep_congr hmp).trans sleep_calm)
      have hno := List.find?_eq_none.mp hnone q (List.mem_finRange q)
      refine hno (decide_eq_true ⟨(h₁.parent q).trans hq, ?_⟩)
      rcases h₁.live q with e | ⟨e, _⟩
      · exact e.trans hz
      · rw [hz] at e
        exact absurd e (by decide)

/-- One round of `thread_join`. -/
theorem joinRound_effect (h₁ : Calm s s₁) (hpc : (s.pc t).ordinary) (tid : Word) :
    Effect s a c p t (s₁.joinRound c p t tid) := by
  obtain ⟨hrun, hmp⟩ := onCpu_running h hon
  have hrun₁ := h₁.awake hrun
  unfold joinRound
  split
  · rename_i u hfind
    have hu := List.find?_some hfind
    simp only [decide_eq_true_eq] at hu
    have hmpu : (s.thread u).mp = some p := (h₁.mp u).symm.trans hu.1
    have hrun₂ : ((s₁.freeThd u).thread t).state ≠ .sleeping := by
      rw [freeThd_thread]
      split
      · simp [Thread.freed]
      · exact hrun₁
    refine .join hpc hmpu ((h₁.zombie u (by simp [hmpu])).mp hu.2.2) ?_
    exact (Calm.setPc_congr (h₁.freeThd_congr)).trans ((calm_ret hrun₂ _).trans calm_release)
  · split
    · exact ret_effect h hon h₁ hpc calm_release
    · exact .sleep hpc (.inr rfl) rfl (by simp) ((h₁.asleep_congr hmp).trans sleep_calm)

omit h hon in
theorem calm_exitReturn (hrun : (s.thread t).state ≠ .sleeping) :
    Calm (s.setPc t e.back) (s.exitReturn t e) := by
  cases e with
  | sysExit => exact calm_ret hrun 0
  | threadExit retval => exact .refl _

/-- What `exit` does after a round of `allthdexit`; `hsleep` is what it does on going to sleep. -/
theorem exitRound_effect (hcore : Core none s₁)
    (hpc : s.pc t = .exitThds e ∧ (s.proc p).exited = false ∨ s.pc t = .exitSleep e)
    (hsib : s₁.Sibling p t ↔ s.Sibling p t)
    (hset : Calm (s.setExited p false)
      (s₁.setExited p false))
    (hsleep : s.Sibling p t → Effect s a c p t (s₁.sleep c p t (.proc p) (.exitSleep e))) :
    Effect s a c p t (exitRound c p t e (s₁.allthdRound p t)) := by
  obtain ⟨hrun, hmp⟩ := onCpu_running h hon
  obtain ⟨hno, heq⟩ | ⟨hyes, heq⟩ | ⟨hyes, heq⟩ := allthdRound_cases
  · rw [heq]
    refine exitFinish_effect ?_ hpc (fun hs => hno (hsib.mpr hs)) hset
    exact hcore.setProc p rfl id
  · rw [heq]
    refine .exitBack (hpc.imp And.left id) (.inr (hsib.mp hyes)) ?_ (b := false)
    exact hset.setPc_congr.trans ((calm_exitReturn (hset.awake hrun)).trans calm_release)
  · rw [heq]
    exact hsleep (hsib.mp hyes)

/-- What `exec` does after a round of `allthdexit`. -/
theorem execRound_effect
    (hpc : s.pc t = .execThds ∧ (s.proc p).exited = false ∨ s.pc t = .execSleep)
    (hsib : s₁.Sibling p t ↔ s.Sibling p t)
    (hset : Calm (s.setExited p false)
      (s₁.setExited p false))
    (hsleep : s.Sibling p t → Effect s a c p t (s₁.sleep c p t (.proc p) .execSleep)) :
    Effect s a c p t (execRound c p t (s₁.allthdRound p t)) := by
  obtain ⟨hrun, hmp⟩ := onCpu_running h hon
  have hawake := hset.awake (t := t) hrun
  obtain ⟨hno, heq⟩ | ⟨hyes, heq⟩ | ⟨hyes, heq⟩ := allthdRound_cases
  · rw [heq]
    refine .execDone hpc (fun hs => hno (hsib.mpr hs)) ?_
    have hfree := hset.freeAll_congr (P := fun u x => u ≠ t ∧ x.mp = some p ∧ x.state = .zombie)
      fun u x y hxy hz => by
        rw [hxy] at hz ⊢
        refine and_congr_right fun _ => and_congr_right fun hy => hz (by simp [hy])
    refine hfree.setPc_congr.trans ?_
    refine (Calm.setPc_congr (calm_switchuvm (c := c) (p := p))).trans ((calm_ret ?_ 0).trans calm_release)
    rw [switchuvm_thread, freeAll_thread]
    split
    · simp [Thread.freed]
    · exact hawake
  · rw [heq]
    have hback : Calm ((s.setExited p false).setPc t .sysret)
        (((s₁.setExited p false).ret t (-1)).release) :=
      hset.setPc_congr.trans ((calm_ret hawake _).trans calm_release)
    rcases hpc with ⟨hpc, hex⟩ | hpc
    · rw [setProc_exited_self hex] at hback
      exact .goes (by rw [hpc]; rfl) rfl rfl hback
    · exact .execBack hpc hback
  · rw [heq]
    exact hsleep (hsib.mp hyes)

omit hon in
/-- A call of `allthdexit` is refused, or a round follows the waking of the siblings. -/
theorem allthdexit_effect {f : Round × Kernel → Kernel}
    (hfail : (s.proc p).exited = true → Effect s a c p t (f (.failed, s)))
    (hround : ∀ s₁, (s.proc p).exited = false → Core none s₁ →
      Calm (s.setExited p true) s₁ →
      Calm (s.setExited p false)
        (s₁.setExited p false) →
      Effect s a c p t (f (s₁.allthdRound p t))) : Effect s a c p t (f (s.allthdexit p t)) := by
  obtain ⟨hex, heq⟩ | ⟨hex, s₁, hcore, h₁, _, heq⟩ := allthdexit_cases (p := p) (t := t) h
  · rw [heq]
    exact hfail hex
  · rw [heq]
    refine hround s₁ hex hcore h₁ ?_
    rw [← setProc_exited_setProc (s := s) true]
    exact h₁.setExited

/-- The section of `exit` that starts with `allthdexit`. -/
theorem exitThds_effect (hpc : s.pc t = .exitThds e) :
    Effect s a c p t (exitRound c p t e (s.allthdexit p t)) := by
  obtain ⟨hrun, hmp⟩ := onCpu_running h hon
  refine allthdexit_effect h (fun hex => ?_) fun s₁ hex hcore h₁ hset => ?_
  · refine .exitBack (b := true) (.inl hpc) (.inl ⟨hex, hpc⟩) ?_
    rw [setProc_exited_self hex]
    exact (calm_exitReturn (by rw [hrun]; decide)).trans calm_release
  · refine exitRound_effect h hon hcore (.inl ⟨hpc, hex⟩) h₁.sibling hset fun hsib => ?_
    exact .await (.inl ⟨hpc, rfl⟩) hex hsib ((h₁.asleep_congr hmp).trans sleep_calm)

theorem execThds_effect (hpc : s.pc t = .execThds) :
    Effect s a c p t (execRound c p t (s.allthdexit p t)) := by
  obtain ⟨hrun, hmp⟩ := onCpu_running h hon
  refine allthdexit_effect h (fun _ => ?_) fun s₁ hex _ h₁ hset => ?_
  · exact ret_effect h hon (.refl s) (by rw [hpc]; rfl) calm_release
  · refine execRound_effect h hon (.inl ⟨hpc, hex⟩) h₁.sibling hset fun hsib => ?_
    exact .await (e := .sysExit) (.inr ⟨hpc, rfl⟩) hex hsib ((h₁.asleep_congr hmp).trans sleep_calm)

/-- A thread switched to goes on. -/
theorem resume_effect : Effect s a c p t (s.resume c p t) := by
  obtain ⟨hrun, hmp⟩ := onCpu_running h hon
  have h₁ := calm_awake h hon
  have hcore : Core none (s.setThd t fun x => { x with chan := none }) := h.setThd t rfl rfl
  have hset := h₁.setExited (p := p) (b := false)
  unfold resume
  dsimp only
  cases hpc : s.pc t
  case forkret => exact .goes (k := .user) (by rw [hpc]; rfl) rfl rfl calm_release
  case slept =>
    exact .goes (k := .kernel) (by rw [hpc]; rfl) rfl rfl (h₁.setPc_congr.trans calm_release)
  case waitSleep => exact waitRound_effect h hon h₁ (by rw [hpc]; rfl)
  case joinSleep tid => exact joinRound_effect h hon h₁ (by rw [hpc]; rfl) tid
  case exitSleep e =>
    refine exitRound_effect h hon hcore (.inr hpc) h₁.sibling hset fun hsib => ?_
    refine .awaitAgain (.inl hpc) hsib ?_
    rw [hpc]
    exact (h₁.asleep_congr hmp).trans sleep_calm
  case execSleep =>
    refine execRound_effect h hon (.inr hpc) h₁.sibling hset fun hsib => ?_
    refine .awaitAgain (e := .sysExit) (.inr hpc) hsib ?_
    rw [hpc]
    exact (h₁.asleep_congr hmp).trans sleep_calm
  all_goals exact .calm calm_release

theorem forkFail_effect (hpc : (s.pc t).ordinary) (hnp : (s.pc t).hold.np = some np) (h₁ : Calm s s₁) :
    Effect s a c p t (s₁.forkFail t np) := by
  obtain ⟨hrun, hmp⟩ := onCpu_running h hon
  have hset := h₁.setProc_congr (p := np) (f := fun q => { q with state := .unused })
    (fun _ _ => id) (.inr ⟨_, fun _ => rfl⟩) fun _ => ⟨rfl, rfl⟩
  exact .forkFail hpc hnp (hset.setPc_congr.trans (calm_ret (hset.awake hrun) _))

theorem allocFail_effect {k : AllocCaller} (hpc : (s.pc t).ordinary)
    (hhold : (s.pc t).hold.np = k.np) (h₁ : Calm s s₁) : Effect s a c p t (s₁.allocFail t k) := by
  cases k with
  | fork np => exact forkFail_effect h hon hpc hhold h₁
  | create => exact ret_effect h hon h₁ hpc (.refl _)

/-- The next stretch of a call. -/
theorem kstep_effect (hok : (s.pc t).fills → ok = true) (hs : s.kstep c p t ok page = some s') :
    Effect s (.kstep c ok page) c p t s' := by
  obtain ⟨hrun, hmp⟩ := onCpu_running h hon
  have hns : (s.thread t).state ≠ .sleeping := by rw [hrun]; decide
  have hlive : .embryo < (s.proc p).state :=
    lt_of_lt_of_le (by rw [hrun]; decide) (h.le_proc t p hmp)
  unfold kstep at hs
  cases hpc : s.pc t
  all_goals
    have hhold := congrArg Pc.hold hpc
    have hord := congrArg Pc.ordinary hpc
    simp only [hpc, Option.ite_none_right_eq_some, Option.some.injEq, reduceCtorEq] at hs
    -- under the lock or not, `hs` names the next state
    first | subst hs | obtain ⟨-, rfl⟩ := hs | skip
  case sysret =>
    refine .move hord ?_ (fun hc => ?_) (.refl _)
    · split <;> rfl
    · split at hc <;> cases hc
  case chdirSet ip =>
    refine .chdirSet ⟨_, _, rfl⟩ hpc (calm_ret ?_ 0)
    exact hns
  case setCpuShare share =>
    refine .cpuShare ⟨ok, page, rfl⟩ hpc (calm_ret ?_ _)
    exact hns
  case kill pid =>
    unfold kill
    split
    · rename_i q _
      have h1 : Core none (s.setKilled q) := h.setProc q rfl id
      have h2 : Calm s ((s.setKilled q).wakeThds q) :=
        Calm.trans (calm_setProc rfl rfl) (calm_wakeThds h1)
      exact ret_effect h hon h2 hord (.refl _)
    · exact ret_effect h hon (.refl s) hord (.refl _)
  case wait =>
    exact waitRound_effect h hon (.refl s) hord
  case threadJoin tid =>
    exact joinRound_effect h hon (.refl s) hord tid
  case threadExit retval =>
    unfold threadExit
    split
    · rename_i hany
      obtain ⟨u, _, hu⟩ := List.any_eq_true.mp hany
      simp only [decide_eq_true_eq] at hu
      exact .threadExit hpc ⟨u, hu.2.1, hu.1, hu.2.2.ne'⟩ (.refl _)
    · exact .goes hord rfl rfl (.refl _)
  case threadExitDie retval =>
    have h1 : Core none (s.setThd t fun x => { x with eax := retval }) := h.setThd t rfl rfl
    refine .die ⟨ok, page, rfl⟩ hpc (h1.wakeup1 _) ?_ calm_sched
    exact Calm.trans (calm_setThd rfl rfl hns) (calm_wakeup1 h1 _)
  case exitEntry e =>
    unfold exitEntry
    split
    · exact .calm (calm_halt (by decide) (by decide))
    · rename_i hp
      exact .exitEnter ⟨ok, page, rfl⟩ hpc hp (.refl _)
  case exitClose e fd =>
    unfold exitClose
    split
    · exact .exitClose hpc (.refl _)
    · rename_i hnone
      refine .exitNext (.inl ⟨hpc, hnone⟩) ?_
      have hsame : (fun i => if i = fd then none else (s.proc p).ofile i) = (s.proc p).ofile := by
        funext i
        split
        · rename_i hi
          rw [hi, hnone]
        · rfl
      rw [exitNextFd_eq, setProc_self]
      · exact .refl _
      · rw [hsame]
  case exitClear e fd =>
    refine .exitNext (.inr hpc) ?_
    rw [exitClear, exitNextFd_eq]
    exact .refl _
  case exitPut e =>
    unfold exitPut
    split
    · rename_i hnone
      exact .nullInode (by rw [hpc]; rfl) hnone rfl
    · rename_i hsome
      exact .exitPut hpc (by simp [hsome]) (.refl _)
  case exitCwd e =>
    exact .exitCwd hpc (.refl _)
  case exitShare e =>
    exact .exitShare hpc (.refl _)
  case exitThds e =>
    exact exitThds_effect h hon hpc
  case fork =>
    unfold allocproc
    split
    · rename_i np hfind
      have hnp : (s.proc np).state = .unused := by simpa using List.find?_some hfind
      refine .allocproc hpc hnp
        { Calm.refl _ with proc := fun q => ?_, live := fun q => .inl ?_, div := .inl }
      · by_cases hq : q = np <;> simp [hq, Proc.still]
      · by_cases hq : q = np <;> simp [hq]
    · exact ret_effect h hon (.refl s) hord (.refl _)
  case forkCopy np =>
    split
    · exact .goes hord rfl rfl (.refl _)
    · exact forkFail_effect h hon hord (by rw [hhold]; rfl) (.refl s)
  case allocthd k =>
    unfold allocthd
    split
    · rename_i n hfind
      have hn : (s.thread n).state = .unused := by simpa using List.find?_some hfind
      have hmpn := h.free n hn
      have h1 : Calm s (s.setThd n fun x => { x with state := .embryo, tid := s.nexttid }) :=
        calm_setThd_free hmpn hmpn (by simp)
      refine .move hord (k := .allocStack k n) rfl (fun hc => .inl ?_) (h1.setPc_congr.trans ?_)
      · rw [hpc]
        cases k <;> exact hc
      · exact { Calm.refl _ with }
    · exact allocFail_effect h hon hord (by rw [hhold]; rfl) (.refl s)
  case allocStack k n =>
    obtain ⟨hst, hmpn⟩ := h.slot t n (by rw [hhold]; rfl)
    rw [hhold] at hmpn
    cases page with
    | some page =>
      refine .move hord (k := .allocOwner k n) rfl (fun hc => .inl ?_) (Calm.setPc_congr ?_)
      · rw [hpc]
        cases k <;> exact hc
      · exact calm_setThd rfl rfl (by rw [hst]; decide)
    | none =>
      refine allocFail_effect h hon hord (by rw [hhold]; rfl) ?_
      exact calm_setThd_free hmpn hmpn (by simp)
  case allocOwner k n =>
    obtain ⟨hst, hmpn⟩ := h.slot t n (by rw [hhold]; rfl)
    rw [hhold] at hmpn
    rw [allocOwner_eq]
    refine .allocOwner hord ?_ hst hmpn ?_ ?_ (.refl _)
    · cases k <;> rfl
    · cases k with
      | fork np => exact .inl (by rw [hhold]; exact ⟨rfl, rfl⟩)
      | create => exact .inr ⟨rfl, by rw [hpc]; rfl⟩
    · rw [hpc]
      cases k <;> exact id
  case forkInit np n =>
    have hst := (h.slot t n (by rw [hhold]; rfl)).1
    have h1 : Calm (s.setProc np fun q => { q with parent := some p, stype := .mlfq })
        (s.setProc np fun q =>
          { q with pin := some n, parent := some p, stype := .mlfq, qlev := .hqlev, pass := 0 }) := by
      refine { Calm.refl _ with proc := fun q => ?_, live := fun q => .inl ?_, div := .inl }
      · by_cases hq : q = np <;> simp [hq, Proc.still]
      · by_cases hq : q = np <;> simp [hq]
    refine .forkInit hpc (Calm.setPc_congr (h1.trans ?_))
    exact calm_setThd rfl rfl (by rw [setProc_thread, hst]; decide)
  case forkFile np n fd =>
    unfold forkFile
    cases hf : (s.proc p).ofile fd with
    | none =>
      dsimp only
      split <;> exact .goes hord rfl rfl (.refl _)
    | some f =>
      dsimp only
      split <;> exact .forkFile hpc rfl rfl (.refl _)
  case forkCwd np n =>
    unfold forkCwd
    split
    · rename_i hnone
      exact .nullInode (by rw [hpc]; rfl) hnone rfl
    · exact .forkCwd hpc (.refl _)
  case forkRun np n =>
    refine .forkRun hpc ?_
    rw [setstate_runnable]
    refine calm_ret (s := (s.setThd n fun x => { x with state := .runnable }).setProc np fun q =>
      { q with state := .runnable }) ?_ _
    by_cases htn : t = n
    · simp [htn]
    · simpa [htn] using hns
  case createStack n =>
    rw [hok (by rw [hpc]; rfl)]
    exact .move hord rfl (fun _ => .inl (by rw [hpc]; rfl)) (.refl _)
  case createArgs n =>
    rw [hok (by rw [hpc]; rfl)]
    exact .move hord rfl (fun _ => .inl (by rw [hpc]; rfl)) (.refl _)
  case createRun n =>
    obtain ⟨hst, hmpn⟩ := h.slot t n (by rw [hhold]; rfl)
    rw [hhold] at hmpn
    have h1 : Calm s (s.setstate p n .runnable) :=
      calm_setstate (hmpn.trans hmp) (by rw [hst]; decide) hlive (by decide)
    refine .goes hord (k := .sysret) rfl rfl (h1.setPc_congr.trans ?_)
    rw [setstate_runnable]
    refine calm_ret (s := (s.setThd n fun x => { x with state := .runnable }).setProc p fun q =>
      { q with state := .runnable }) ?_ _
    by_cases htn : t = n
    · simp [htn]
    · simpa [htn] using hns
  case exec relative =>
    unfold execPath
    split
    · rename_i hnone
      exact .nullInode (by rw [hpc]; rfl) hnone.2 rfl
    · split
      · exact .goes hord rfl rfl (.refl _)
      · exact ret_effect h hon (.refl s) hord (.refl _)
  case execThds =>
    exact execThds_effect h hon hpc

/-- A step of a call that leaves the tables alone. -/
theorem work_effect {w : Work} (hpc : s.pc t = .kernel) (hs : s.work c p t w = some s') :
    Effect s (.work c w) c p t s' := by
  have hord := congrArg Pc.ordinary hpc
  cases w
  all_goals
    simp only [work, Option.ite_none_right_eq_some, Option.some.injEq] at hs
    first | subst hs | obtain ⟨-, rfl⟩ := hs
  case sleep chan =>
    exact .sleep hord (k := .slept) (.inr rfl) rfl (by simp) sleep_calm
  case wakeup chan =>
    exact .calm (calm_wakeup1 h _)
  case path =>
    split
    · rename_i hnone
      exact .nullInode (by rw [hpc]; rfl) hnone rfl
    · exact .calm (.refl _)
  case chdir ip =>
    split
    · rename_i hnone
      exact .nullInode (by rw [hpc]; rfl) hnone rfl
    · exact .goes hord rfl rfl (.refl _)
  case ofile fd f =>
    exact .ofile rfl hpc (.refl _)
  case grow =>
    exact .calm calm_switchuvm
  case done r =>
    exact ret_effect h hon (.refl s) hord (.refl _)

end OnCpu

/-- Every step is scheduling, or has one of the effects. -/
theorem step_effect (h : Core none s) (hok : CreatesSlots s a) (hs : s.step a = some s') :
    Calm s s' ∨ ∃ c p t, s.onCpu c = some (p, t) ∧ Effect s a c p t s' := by
  cases steps hs with
  | dispatch => exact .inl calm_scheduler
  | intrWakeup => exact .inl (calm_wakeup1 h _)
  | resume hon => exact .inr ⟨_, _, _, hon, resume_effect h hon⟩
  | preempt hon =>
    obtain ⟨hproc, hthd⟩ := onCpu_iff.mp hon
    exact .inl (calm_yield h hproc hthd)
  | @trap c p t bad s₁ hon hpc h₁ =>
    have hcalm : Calm s s₁ := by
      rw [h₁]
      split
      · exact calm_setProc rfl rfl
      · exact .refl s
    split
    · exact .inr ⟨c, p, t, hon,
        .goes (k := .threadExit 0) (by rw [hpc]; rfl) rfl rfl hcalm.setPc_congr⟩
    · exact .inl hcalm
  | @syscall c p t call hon hpc =>
    refine .inr ⟨c, p, t, hon, .move (by rw [hpc]; rfl) ?_ (fun hc => .inr ?_) (.refl _)⟩
    · split
      · rfl
      · cases call <;> rfl
    · split at hc
      · cases hc
      · cases call <;> first | rfl | cases hc
  | kstep hon hk => exact .inr ⟨_, _, _, hon, kstep_effect h hon (hok _ hon) hk⟩
  | work hon hpc hw => exact .inr ⟨_, _, _, hon, work_effect h hon hpc hw⟩

end Kernel

end Xv6
