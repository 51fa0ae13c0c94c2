import Xv6.Laws.Proc.Exit

/-!
# No ZOMBIE without exit

A ZOMBIE process has been through `exit`: its files are closed, its directory is dropped, its
children have another parent and its own parent does not sleep in `wait`. `Clean` carries what
`exit` has done so far along with the places of the threads in it. The process dies with its
last thread, so this needs that the last one dies in `exit` and not in `thread_exit`
(`LeavesLive`).
-/

namespace Xv6

open Xv6.Lib

/-- The descriptors `exit` has cleared. -/
def Pc.cleared (k : Pc) (i : Fin NOFILE) : Prop :=
  match k with
  | .exitClose _ fd | .exitClear _ fd => i < fd
  | .exitPut _ | .exitCwd _ | .exitShare _ | .exitThds _ | .exitSleep _ => True
  | _ => False

/-- About to set the directory. -/
def Pc.setsCwd : Pc → Bool
  | .chdirSet _ => true
  | _ => false

theorem Pc.stage_of_cleared {k : Pc} {i : Fin NOFILE} (h : k.cleared i) : k.stage ≠ 0 := by
  cases k <;> first | (cases h; done) | simp [Pc.stage]

theorem Pc.cleared_behind {e : ExitCaller} {fd i : Fin NOFILE} (h : (e.behind fd).cleared i) :
    i ≤ fd := by
  unfold ExitCaller.behind nextSlot at h
  split at h
  · rename_i fd' hfd
    split at hfd
    · cases hfd
      exact Nat.lt_succ_iff.mp h
    · cases hfd
  · rename_i hfd
    split at hfd
    · cases hfd
    · rename_i hlast
      have := i.isLt
      exact Fin.le_def.mpr (by omega)

namespace Kernel

variable {s s' s₁ : Kernel} {a : Act} {p q : ProcPtr} {t u n : ThdPtr} {c : CpuId} {k : Pc}

/-- What `exit` leaves of a process. -/
structure Buried (s : Kernel) (p : ProcPtr) : Prop where
  files : ∀ i, (s.proc p).ofile i = none
  cwd : (s.proc p).cwd = none
  childless : ∀ q, (s.proc q).parent ≠ some p
  /-- nobody in the parent sleeps in `wait` -/
  heard : ∀ q u, (s.proc p).parent = some q → (s.thread u).mp = some q →
    (s.thread u).state = .sleeping → s.pc u ≠ .waitSleep

/-- What the threads in `exit` have done so far, and what a ZOMBIE has behind it. -/
structure Clean (s : Kernel) : Prop where
  fresh : ∀ t p, (s.thread t).mp = some p → (s.thread t).state = .embryo → (s.pc t).stage = 0
  files : ∀ t p i, (s.thread t).mp = some p → (s.pc t).cleared i → (s.proc p).ofile i = none
  gone : ∀ t p, (s.thread t).mp = some p → (s.pc t).stage = 3 → (s.proc p).cwd = none
  notInit : ∀ t p, (s.thread t).mp = some p → (s.pc t).stage ≠ 0 → p ≠ s.initproc
  init : .embryo < (s.proc s.initproc).state ∧ (s.proc s.initproc).parent = none
  parent : ∀ p, (s.proc p).parent ≠ some p
  waits : ∀ u q, (s.thread u).mp = some q → (s.thread u).state = .sleeping → s.pc u = .waitSleep →
    (s.thread u).chan = some (.proc q)
  zombie : ∀ p, (s.proc p).state = .zombie → Buried s p

/-- What a step by thread `t` leaves alone: descriptors and directories are only given up,
nobody gets another parent, and no process dies. -/
structure Tidy (s s' : Kernel) (t : ThdPtr) : Prop extends Peers s s' t where
  ofile : ∀ q i, (s.proc q).ofile i = none → (s'.proc q).ofile i = none
  cwd : ∀ q, (s.proc q).cwd = none → (s'.proc q).cwd = none
  parent : ∀ q, (s'.proc q).parent = (s.proc q).parent ∨ (s'.proc q).parent = none
  initproc : s'.initproc = s.initproc
  dies : ∀ q, (s'.proc q).state = .zombie → (s.proc q).state = .zombie
  alive : .embryo < (s.proc s.initproc).state → .embryo < (s'.proc s.initproc).state

theorem Tidy.parent_some (h : Tidy s s' t) {r : ProcPtr} (hq : (s'.proc q).parent = some r) :
    (s.proc q).parent = some r := by
  rcases h.parent q with e | e
  · exact e ▸ hq
  · cases e.symm.trans hq

theorem Tidy.trans (h : Tidy s s₁ t) (h' : Tidy s₁ s' t) : Tidy s s' t where
  toPeers := h.toPeers.trans h'.toPeers
  ofile q i hq := h'.ofile q i (h.ofile q i hq)
  cwd q hq := h'.cwd q (h.cwd q hq)
  parent q := by
    rcases h'.parent q with e' | e'
    · rw [e']
      exact h.parent q
    · exact .inr e'
  initproc := h'.initproc.trans h.initproc
  dies q hq := h.dies q (h'.dies q hq)
  alive hi := by
    have := h'.alive (h.initproc ▸ h.alive hi)
    rwa [h.initproc] at this

theorem Calm.tidy (hc : Calm s s') : Tidy s s' t where
  toPeers := hc.peers
  ofile q i hq := by rw [hc.ofile, hq]
  cwd q hq := by rw [hc.cwd, hq]
  parent q := .inl (hc.parent q)
  initproc := hc.initproc
  dies q hq := (hc.low (by rw [hq]; decide)).trans hq
  alive hi := by
    rcases hc.live s.initproc with e | ⟨_, e⟩
    · exact e ▸ hi
    · exact e

theorem Tidy.refl (s : Kernel) : Tidy s s t := (Calm.refl s).tidy

theorem Peers.tidy (h : Peers s s' t) (hproc : s'.proc = s.proc) (hinit : s'.initproc = s.initproc) :
    Tidy s s' t where
  toPeers := h
  ofile q i hq := by rw [hproc, hq]
  cwd q hq := by rw [hproc, hq]
  parent q := .inl (by rw [hproc])
  initproc := hinit
  dies q hq := by rwa [hproc] at hq
  alive hi := by rwa [hproc]

theorem tidy_setPc : Tidy s (s.setPc t k) t := peers_setPc.tidy rfl rfl

/-- A process changes, but gets no file, directory or parent and does not die. -/
theorem tidy_setProc {f : Proc → Proc}
    (hfile : ∀ i, (s.proc q).ofile i = none → (f (s.proc q)).ofile i = none)
    (hcwd : (s.proc q).cwd = none → (f (s.proc q)).cwd = none)
    (hparent : (f (s.proc q)).parent = (s.proc q).parent ∨ (f (s.proc q)).parent = none)
    (hdies : (f (s.proc q)).state = .zombie → (s.proc q).state = .zombie)
    (halive : q = s.initproc → .embryo < (s.proc q).state → .embryo < (f (s.proc q)).state) :
    Tidy s (s.setProc q f) t := by
  refine ⟨peers_setProc, fun r i hr => ?_, fun r hr => ?_, fun r => ?_, rfl, fun r hr => ?_,
    fun hi => ?_⟩
  all_goals rw [setProc_proc] at *
  · split
    · rename_i e
      exact hfile i (e ▸ hr)
    · exact hr
  · split
    · rename_i e
      exact hcwd (e ▸ hr)
    · exact hr
  · split
    · rename_i e
      exact e ▸ hparent
    · exact .inl rfl
  · split at hr
    · rename_i e
      exact e ▸ hdies hr
    · exact hr
  · split
    · rename_i e
      exact halive e.symm (e ▸ hi)
    · exact hi

theorem tidy_cpuShare (s : Kernel) (share : Word) : Tidy s (s.cpuShare p share) t := by
  obtain ⟨_, _, _, _, heq⟩ := setCpuShare_proc s.mlfq (s.proc p) share
  have hk : Tidy s (s.setProc p fun r => (setCpuShare s.mlfq r share).2.2) t :=
    tidy_setProc (fun i hi => by rw [heq]; exact hi) (fun hi => by rw [heq]; exact hi)
      (.inl (by rw [heq])) (fun hi => by rw [heq] at hi; exact hi) (fun _ hi => by rw [heq]; exact hi)
  exact ⟨peers_of_eq rfl fun _ _ => rfl, hk.ofile, hk.cwd, hk.parent, rfl, hk.dies, hk.alive⟩

/-- A thread changes its state and its process is alive then. -/
theorem tidy_setstate {st : ProcState} (hlive : .embryo < ((s.setstate p u st).proc p).state)
    (hpeers : Peers s (s.setstate p u st) t) : Tidy s (s.setstate p u st) t := by
  have hstill : ∀ q, ((s.setstate p u st).proc q).still = (s.proc q).still := fun q => setstate_still
  refine ⟨hpeers, fun q i hq => ?_, fun q hq => ?_, fun q => ?_, by simp, fun q hq => ?_, fun hi => ?_⟩
  · have hfile := congrArg Proc.ofile (hstill q)
    exact (congrFun hfile i).trans hq
  · have hcwd := congrArg Proc.cwd (hstill q)
    exact hcwd.trans hq
  · have hparent := congrArg Proc.parent (hstill q)
    exact .inl hparent
  · by_cases hqp : q = p
    · subst hqp
      rw [hq] at hlive
      exact absurd hlive (by decide)
    · rwa [setstate_proc_of_ne hqp] at hq
  · by_cases hqp : s.initproc = p
    · rw [hqp]
      exact hlive
    · rwa [setstate_proc_of_ne hqp]

theorem tidy_asleep {chan : Chan} (hmp : (s.thread t).mp = some p) :
    Tidy s (s.asleep p t chan k) t := by
  have h₁ : Tidy s (s.setThd t fun x => { x with chan := some chan }) t :=
    (peers_setThd rfl).tidy rfl rfl
  refine h₁.trans ((tidy_setstate ?_ peers_setstate).trans tidy_setPc)
  refine lt_of_lt_of_le (by decide : ProcState.embryo < .sleeping) (le_setstate ?_)
  simpa using hmp

/-- A new thread starts. -/
theorem peers_start (hn : (s.thread n).state = .embryo) :
    Peers s (s.setstate p n .runnable) t := by
  have hthd : ∀ u, u ≠ n → (s.setstate p n .runnable).thread u = s.thread u := fun u hu => by
    rw [setstate_thread, if_neg hu]
  have hself : ((s.setstate p n .runnable).thread n).mp = (s.thread n).mp ∧
      ((s.setstate p n .runnable).thread n).state = .runnable := by
    rw [setstate_thread, if_pos rfl]
    exact ⟨rfl, rfl⟩
  have hmp : ∀ u, ((s.setstate p n .runnable).thread u).mp = (s.thread u).mp := by
    intro u
    by_cases hu : u = n
    · rw [hu, hself.1]
    · rw [hthd u hu]
  refine ⟨fun u q hu => hmp u ▸ hu, fun u q hu hu' => absurd ((hmp u).trans hu) hu', fun u q _ _ => ?_,
    fun u q _ _ he => ?_, fun u _ hsl => ?_, fun u _ => by rw [setstate_pc]⟩
  all_goals by_cases hu : u = n
  · rw [hu, hself.2, hn]
    decide
  · rw [hthd u hu]
  · rw [hu, hn]
  · rwa [hthd u hu] at he
  · rw [hu, hself.2] at hsl
    cases hsl
  · rw [hthd u hu] at hsl ⊢
    exact ⟨hsl, rfl⟩

/-- A thread of `q` is where it was, and is unborn or asleep only if it was. -/
structure Stays (s s' : Kernel) (u : ThdPtr) (q : ProcPtr) : Prop where
  mp : (s.thread u).mp = some q
  pc : s'.pc u = s.pc u
  embryo : (s'.thread u).state = .embryo → (s.thread u).state = .embryo
  asleep : (s'.thread u).state = .sleeping →
    (s.thread u).state = .sleeping ∧ (s'.thread u).chan = (s.thread u).chan

/-- A thread of `q` has come to a place that fits what its process has left. -/
structure Arrives (s' : Kernel) (u : ThdPtr) (q : ProcPtr) : Prop where
  fresh : (s'.thread u).state = .embryo → (s'.pc u).stage = 0
  files : ∀ i, (s'.pc u).cleared i → (s'.proc q).ofile i = none
  gone : (s'.pc u).stage = 3 → (s'.proc q).cwd = none
  notInit : (s'.pc u).stage ≠ 0 → q ≠ s'.initproc
  waits : (s'.thread u).state = .sleeping → s'.pc u = .waitSleep →
    (s'.thread u).chan = some (.proc q) ∧
    ∀ r, (s'.proc r).parent = some q → (s'.proc r).state ≠ .zombie

theorem Peers.stays (h : Peers s s' t) (hut : u ≠ t) (hu : (s'.thread u).mp = some q) :
    Stays s s' u q :=
  ⟨h.mp u q hu, h.pc u hut, h.embryo u q hut hu, h.asleep u hut⟩

theorem Calm.stays (hc : Calm s s') (hu : (s'.thread u).mp = some q) : Stays s s' u q := by
  rw [hc.mp] at hu
  exact ⟨hu, congrFun hc.pc u, hc.embryo u (by simp [hu]), hc.asleep u⟩

theorem arrives_outside (hst : (s'.pc u).stage = 0) (hw : s'.pc u ≠ .waitSleep) : Arrives s' u q :=
  ⟨fun _ => hst, fun _ hi => absurd hst (Pc.stage_of_cleared hi), fun e => (nomatch hst.symm.trans e),
    fun e => absurd hst e, fun _ e => absurd e hw⟩

/-- Threads stay or come to a fitting place. A process gives up files and directory, or gets some
while no thread of it is in `exit`; one that dies is buried. -/
theorem Clean.congr (h : Clean s) (hinit : s'.initproc = s.initproc)
    (hthd : ∀ u q, (s'.thread u).mp = some q → Stays s s' u q ∨ Arrives s' u q)
    (hproc : ∀ r, ((∀ i, (s.proc r).ofile i = none → (s'.proc r).ofile i = none) ∧
        ((s.proc r).cwd = none → (s'.proc r).cwd = none)) ∨
      (∀ u, (s.thread u).mp = some r → (s.pc u).stage = 0) ∧ (s'.proc r).state ≠ .zombie)
    (halive : .embryo < (s'.proc s.initproc).state ∧ (s'.proc s.initproc).parent = none)
    (hparent : ∀ r, (s'.proc r).parent ≠ some r)
    (hzombie : ∀ r, (s'.proc r).state = .zombie → Buried s' r ∨ (s.proc r).state = .zombie ∧
      (∀ q, (s'.proc q).parent = some r → (s.proc q).parent = some r) ∧
      ∀ q, (s'.proc r).parent = some q → (s.proc r).parent = some q) : Clean s' where
  fresh u q hu he := by
    rcases hthd u q hu with hs | ha
    · rw [hs.pc]
      exact h.fresh u q hs.mp (hs.embryo he)
    · exact ha.fresh he
  files u q i hu hi := by
    rcases hthd u q hu with hs | ha
    · rw [hs.pc] at hi
      rcases hproc q with hgive | ⟨hno, _⟩
      · exact hgive.1 i (h.files u q i hs.mp hi)
      · exact absurd (hno u hs.mp) (Pc.stage_of_cleared hi)
    · exact ha.files i hi
  gone u q hu hst := by
    rcases hthd u q hu with hs | ha
    · rw [hs.pc] at hst
      rcases hproc q with hgive | ⟨hno, _⟩
      · exact hgive.2 (h.gone u q hs.mp hst)
      · cases (hno u hs.mp).symm.trans hst
    · exact ha.gone hst
  notInit u q hu hst := by
    rcases hthd u q hu with hs | ha
    · rw [hs.pc] at hst
      exact hinit ▸ h.notInit u q hs.mp hst
    · exact ha.notInit hst
  init := hinit ▸ halive
  parent := hparent
  waits u q hu hsl hpc := by
    rcases hthd u q hu with hs | ha
    · obtain ⟨hsl', hchan⟩ := hs.asleep hsl
      exact hchan.trans (h.waits u q hs.mp hsl' (hs.pc.symm.trans hpc))
    · exact (ha.waits hsl hpc).1
  zombie r hr := by
    rcases hzombie r hr with hb | ⟨hz, hchild, hpar⟩
    · exact hb
    · have hb := h.zombie r hz
      have hgive := (hproc r).resolve_right fun e => e.2 hr
      refine ⟨fun i => hgive.1 i (hb.files i), hgive.2 hb.cwd,
        fun q hq => hb.childless q (hchild q hq), fun q u hq hu hsl hpc => ?_⟩
      rcases hthd u q hu with hs | ha
      · exact hb.heard q u (hpar q hq) hs.mp (hs.asleep hsl).1 (hs.pc.symm.trans hpc)
      · exact (ha.waits hsl hpc).2 r hq hr

/-- A tidy step leaves to see to where its threads are. -/
theorem Tidy.congr (hk : Tidy s s' t) (h : Clean s)
    (hthd : ∀ u q, (s'.thread u).mp = some q → Stays s s' u q ∨ Arrives s' u q) : Clean s' :=
  h.congr hk.initproc hthd (fun r => .inl ⟨hk.ofile r, hk.cwd r⟩)
    ⟨hk.alive h.init.1, (hk.parent s.initproc).elim (fun e => e.trans h.init.2) id⟩
    (fun r hr => h.parent r (hk.parent_some hr))
    fun r hr => .inr ⟨hk.dies r hr, fun _ => hk.parent_some, fun _ => hk.parent_some⟩

theorem Tidy.clean (hk : Tidy s s' t) (h : Clean s) (hmp : (s.thread t).mp = some p)
    (hborn : (s'.thread t).state ≠ .embryo)
    (hfiles : ∀ i, (s'.pc t).cleared i → (s'.proc p).ofile i = none)
    (hgone : (s'.pc t).stage = 3 → (s'.proc p).cwd = none)
    (hinit : (s'.pc t).stage ≠ 0 → p ≠ s.initproc)
    (hwait : (s'.thread t).state = .sleeping → s'.pc t = .waitSleep →
      (s'.thread t).chan = some (.proc p) ∧
      ∀ q, (s.proc q).parent = some p → (s.proc q).state ≠ .zombie) : Clean s' := by
  refine hk.congr h fun u q hu => ?_
  by_cases hut : u = t
  · subst hut
    obtain rfl : q = p := Option.some.inj ((hk.mp u q hu).symm.trans hmp)
    exact .inr ⟨fun he => absurd he hborn, hfiles, hgone, hk.initproc ▸ hinit, fun hsl hpc =>
      ⟨(hwait hsl hpc).1, fun r hr hz => (hwait hsl hpc).2 r (hk.parent_some hr) (hk.dies r hz)⟩⟩
  · exact .inl (hk.stays hut hu)

theorem Calm.clean (hc : Calm s s') (h : Clean s) : Clean s' :=
  (hc.tidy (t := 0)).congr h fun _ _ hu => .inl (hc.stays hu)

theorem Clean.ne_initproc (h : Clean s) (hz : (s.proc q).state = .zombie) : q ≠ s.initproc := by
  rintro rfl
  exact absurd (hz ▸ h.init.1) (by decide)

/-! ## Steps that are not tidy -/

/-- A process none of whose threads is in `exit` gets a file or a directory. -/
theorem Clean.setProc (h : Clean s) {f : Proc → Proc} (hq : (s.proc q).state ≠ .zombie)
    (hno : ∀ u, (s.thread u).mp = some q → (s.pc u).stage = 0)
    (hst : (f (s.proc q)).state = (s.proc q).state)
    (hparent : (f (s.proc q)).parent = (s.proc q).parent) : Clean (s.setProc q f) := by
  have hstate := setProc_keeps Proc.state hst
  have hpar := setProc_keeps Proc.parent hparent
  refine h.congr rfl (fun u r hu => .inl ⟨hu, rfl, id, fun hsl => ⟨hsl, rfl⟩⟩) (fun r => ?_)
    ⟨hstate _ ▸ h.init.1, (hpar _).trans h.init.2⟩ (fun r => by rw [hpar]; exact h.parent r)
    fun r hr => .inr ⟨(hstate r).symm.trans hr, fun x hx => (hpar x).symm.trans hx,
      fun x hx => (hpar r).symm.trans hx⟩
  by_cases hr : r = q
  · subst hr
    exact .inr ⟨hno, by rwa [hstate]⟩
  · rw [setProc_proc, if_neg hr]
    exact .inl ⟨fun _ => id, id⟩

/-- `fork` makes the caller the parent of its new process. -/
theorem Clean.setParent (h : Clean s) {np : ProcPtr} {f : Proc → Proc}
    (hnp : (s.proc np).state = .embryo) (hp : (s.proc p).state ≠ .zombie) (hne : np ≠ p)
    (hf : ∀ x, (f x).state = x.state ∧ (f x).ofile = x.ofile ∧ (f x).cwd = x.cwd ∧
      (f x).parent = some p) : Clean (s.setProc np f) := by
  have hsame : ∀ r, ((s.setProc np f).proc r).state = (s.proc r).state ∧
      ((s.setProc np f).proc r).ofile = (s.proc r).ofile ∧
      ((s.setProc np f).proc r).cwd = (s.proc r).cwd := fun r =>
    ⟨setProc_keeps Proc.state (hf _).1 r, setProc_keeps Proc.ofile (hf _).2.1 r,
      setProc_keeps Proc.cwd (hf _).2.2.1 r⟩
  have hother : ∀ r, r ≠ np → (s.setProc np f).proc r = s.proc r := fun r hr => by
    rw [setProc_proc, if_neg hr]
  have hself : ((s.setProc np f).proc np).parent = some p := by
    rw [setProc_proc, if_pos rfl, (hf _).2.2.2]
  have hinit : s.initproc ≠ np := by
    rintro rfl
    have := h.init.1
    rw [hnp] at this
    exact absurd this (lt_irrefl _)
  refine h.congr rfl (fun u r hu => .inl ⟨hu, rfl, id, fun hsl => ⟨hsl, rfl⟩⟩) (fun r => .inl ?_)
    ⟨(hsame _).1 ▸ h.init.1, by rw [hother _ hinit]; exact h.init.2⟩ (fun r => ?_) fun r hr => .inr ?_
  · rw [(hsame r).2.1, (hsame r).2.2]
    exact ⟨fun _ => id, id⟩
  · by_cases hr : r = np
    · rw [hr, hself]
      exact fun e => hne (Option.some.inj e).symm
    · rw [hother r hr]
      exact h.parent r
  · rw [(hsame r).1] at hr
    have hrn : r ≠ np := by
      rintro rfl
      cases hnp.symm.trans hr
    refine ⟨hr, fun x hx => ?_, fun x hx => hother r hrn ▸ hx⟩
    by_cases hxn : x = np
    · rw [hxn, hself] at hx
      exact absurd (Option.some.inj hx ▸ hr) hp
    · exact hother x hxn ▸ hx

/-- A new thread gets its process. -/
theorem Clean.setOwner (h : Clean s) :
    Clean ((s.setPc n .forkret).setThd n fun x => { x with mp := some q }) := by
  refine h.congr rfl (fun u r hu => ?_) (fun r => .inl ⟨fun _ => id, id⟩) h.init h.parent
    fun r hr => .inr ⟨hr, fun _ => id, fun _ => id⟩
  by_cases hun : u = n
  · subst hun
    exact .inr (arrives_outside (by simp [Pc.stage]) (by simp))
  · have hthd : ((s.setPc n .forkret).setThd n fun x => { x with mp := some q }).thread u =
        s.thread u := by simp [hun]
    rw [hthd] at hu
    exact .inl ⟨hu, by simp [hun], fun he => hthd ▸ he, fun hsl => ⟨hthd ▸ hsl, by rw [hthd]⟩⟩

/-- The end of `exit`: the process has nothing left, and those who wait for it are awake. -/
theorem Clean.finish (h : Clean s) (hmp : (s.thread t).mp = some p) (hstage : (s.pc t).stage = 3)
    (hall : ∀ i, (s.pc t).cleared i)
    (h₁ : Calm ((s.setExited p false).adopt p) s₁)
    (hparent : ∀ q u, (s.proc p).parent = some q → (s₁.thread u).state = .sleeping →
      (s₁.thread u).chan ≠ some (.proc q))
    (hinit : ∀ q u, (s.proc q).parent = some p → (s.proc q).state = .zombie →
      (s₁.thread u).state = .sleeping → (s₁.thread u).chan ≠ some (.proc s.initproc)) :
    Clean (s₁.dead p t) := by
  have hpi : p ≠ s.initproc := h.notInit t p hmp (by rw [hstage]; decide)
  have hstill : ∀ q, ((s₁.dead p t).proc q).still = (s₁.proc q).still := by simp [dead]
  -- the records in between
  have hrec : ∀ q, (((s.setExited p false).adopt p).proc q).ofile =
      (s.proc q).ofile ∧
      (((s.setExited p false).adopt p).proc q).cwd = (s.proc q).cwd ∧
      (((s.setExited p false).adopt p).proc q).state =
        (s.proc q).state ∧
      (((s.setExited p false).adopt p).proc q).parent =
        if (s.proc q).parent = some p then some s.initproc else (s.proc q).parent := by
    intro q
    by_cases hq : q = p
    · subst hq
      by_cases hqp : (s.proc q).parent = some q <;> simp [adopt, hqp]
    · by_cases hqp : (s.proc q).parent = some p <;> simp [adopt, hq, hqp]
  have hofile : ∀ q, ((s₁.dead p t).proc q).ofile = (s.proc q).ofile := fun q =>
    have hq := congrArg Proc.ofile (hstill q)
    Eq.trans hq ((h₁.ofile q).trans (hrec q).1)
  have hcwd : ∀ q, ((s₁.dead p t).proc q).cwd = (s.proc q).cwd := fun q =>
    have hq := congrArg Proc.cwd (hstill q)
    Eq.trans hq ((h₁.cwd q).trans (hrec q).2.1)
  have hpar : ∀ q, ((s₁.dead p t).proc q).parent =
      if (s.proc q).parent = some p then some s.initproc else (s.proc q).parent := fun q =>
    have hq := congrArg Proc.parent (hstill q)
    Eq.trans hq ((h₁.parent q).trans (hrec q).2.2.2)
  have hini : (s₁.dead p t).initproc = s.initproc := by
    rw [dead, setPc_initproc, setstate_initproc, h₁.initproc]
    rfl
  have hpc : ∀ u, u ≠ t → (s₁.dead p t).pc u = s.pc u := by
    intro u hu
    rw [dead, setPc_pc, if_neg hu, setstate_pc, h₁.pc]
    rfl
  have hdead : (s₁.dead p t).pc t = .dead := by simp [dead]
  have hsame : ∀ u, u ≠ t → (s₁.dead p t).thread u = s₁.thread u := fun u hu => by
    simp [dead, hu]
  have hstays : ∀ u q, u ≠ t → ((s₁.dead p t).thread u).mp = some q →
      Stays s (s₁.dead p t) u q := by
    intro u q hut hu
    rw [hsame u hut, h₁.mp] at hu
    have hsome : (s.thread u).mp ≠ none := Option.ne_none_iff_exists'.mpr ⟨q, hu⟩
    refine ⟨hu, hpc u hut, fun he => ?_, fun hsl => ?_⟩
    · rw [hsame u hut] at he
      exact h₁.embryo u hsome he
    · rw [hsame u hut] at hsl ⊢
      exact h₁.asleep u hsl
  refine h.congr hini (fun u q hu => ?_) (fun r => ?_) ⟨?_, ?_⟩ (fun q hq => ?_) fun r hr => .inl ?_
  · by_cases hut : u = t
    · subst hut
      exact .inr (arrives_outside (by rw [hdead]; rfl) (by rw [hdead]; decide))
    · exact .inl (hstays u q hut hu)
  · rw [hofile, hcwd]
    exact .inl ⟨fun _ => id, id⟩
  · rw [dead, setPc_proc, setstate_proc_of_ne hpi.symm]
    rcases h₁.live s.initproc with e | ⟨_, e⟩
    · rw [e, (hrec _).2.2.1]
      exact h.init.1
    · exact e
  · rw [hpar, h.init.2]
    simp
  · rw [hpar] at hq
    split at hq
    · rename_i hqp
      rw [← Option.some.inj hq, h.init.2] at hqp
      cases hqp
    · exact h.parent q hq
  · -- who sleeps in `wait` for `q` sleeps on `q`
    have hchan : ∀ q u, ((s₁.dead p t).thread u).mp = some q →
        ((s₁.dead p t).thread u).state = .sleeping → (s₁.dead p t).pc u = .waitSleep →
        Stays s (s₁.dead p t) u q ∧ (s₁.thread u).state = .sleeping ∧
        (s₁.thread u).chan = some (.proc q) := by
      intro q u hu hsl hw
      have hut : u ≠ t := by
        rintro rfl
        cases hdead.symm.trans hw
      have hs := hstays u q hut hu
      have hsl₁ : (s₁.thread u).state = .sleeping := hsame u hut ▸ hsl
      obtain ⟨h1, h2⟩ := h₁.asleep u hsl₁
      exact ⟨hs, hsl₁, h2.trans (h.waits u q hs.mp h1 (hs.pc.symm.trans hw))⟩
    by_cases hrp : r = p
    · subst hrp
      refine ⟨fun i => ?_, ?_, fun q hq => ?_, fun q u hq hu hsl hw => ?_⟩
      · rw [hofile]
        exact h.files t r i hmp (hall i)
      · rw [hcwd]
        exact h.gone t r hmp hstage
      · rw [hpar] at hq
        split at hq
        · exact hpi (Option.some.inj hq).symm
        · exact absurd hq ‹_›
      · rw [hpar, if_neg (h.parent r)] at hq
        obtain ⟨-, h1, h2⟩ := hchan q u hu hsl hw
        exact hparent q u hq h1 h2
    · have hz : (s.proc r).state = .zombie := by
        rw [dead, setPc_proc, setstate_proc_of_ne hrp] at hr
        rw [← (hrec r).2.2.1]
        exact (h₁.low (by rw [hr]; decide)).trans hr
      have hb := h.zombie r hz
      refine ⟨by rw [hofile]; exact hb.files, by rw [hcwd]; exact hb.cwd, fun q hq => ?_,
        fun q u hq hu hsl hw => ?_⟩
      · rw [hpar] at hq
        split at hq
        · exact h.ne_initproc hz (Option.some.inj hq).symm
        · exact hb.childless q hq
      · obtain ⟨hs, h1, h2⟩ := hchan q u hu hsl hw
        rw [hpar] at hq
        split at hq
        · rename_i hrpar
          rw [← Option.some.inj hq] at h2
          exact hinit r u hrpar hz h1 h2
        · exact hb.heard q u hq hs.mp (hs.asleep hsl).1 (hs.pc.symm.trans hw)

/-! ## Every step -/

/-- Some thread of the process is in `exit`. -/
def InExit (s : Kernel) (p : ProcPtr) : Prop := ∃ u, (s.thread u).mp = some p ∧ (s.pc u).stage ≠ 0

instance (s : Kernel) (p : ProcPtr) : Decidable (s.InExit p) :=
  inferInstanceAs (Decidable (∃ u, (s.thread u).mp = some p ∧ (s.pc u).stage ≠ 0))

/-- A process one of whose threads is in `exit` gets no new file and no new directory. -/
def Undisturbed (s : Kernel) : Act → Prop
  | .kstep c _ _ => ∀ pt ∈ s.onCpu c, (s.pc pt.2).setsCwd → ¬ s.InExit pt.1
  | .work c (.ofile _ f) => ∀ pt ∈ s.onCpu c, f ≠ none → ¬ s.InExit pt.1
  | _ => True

instance (s : Kernel) : DecidablePred s.Undisturbed := fun a => by
  induction a using Act.casesOn with
  | work c w =>
    induction w using Work.casesOn <;>
      first | exact (s.onCpu _).decidableForallMem | exact isTrue trivial
  | _ => first | exact (s.onCpu _).decidableForallMem | exact isTrue trivial

theorem Clean.effect (hcore : Core none s) (h : Clean s) (hleave : LeavesLive s a)
    (hquiet : Undisturbed s a) (hon : s.onCpu c = some (p, t)) (heff : Effect s a c p t s') :
    Clean s' := by
  obtain ⟨hrun, hmp⟩ := onCpu_running hcore hon
  have hlive : .embryo < (s.proc p).state :=
    lt_of_lt_of_le (by rw [hrun]; decide) (hcore.le_proc t p hmp)
  have hpz : (s.proc p).state ≠ .zombie := fun e => by
    rw [e] at hlive
    exact absurd hlive (by decide)
  have hnp : ∀ np, (s.pc t).hold.np = some np → np ≠ p := fun np =>
    child_ne_running hcore hrun hmp
  -- `t` moves on outside `exit`
  have hgo : ∀ (r s₁ : Kernel) (k : Pc), Clean r → (r.thread t).mp = some p → Tidy r s₁ t →
      ((s₁.thread t).state ≠ .embryo ∧ (s₁.thread t).state ≠ .sleeping) → k.stage = 0 →
      Calm (s₁.setPc t k) s' → Clean s' := by
    intro r s₁ k hr hmpr hk hst hk0 hc
    have hpck : (s₁.setPc t k).pc t = k := by simp
    refine hc.clean ((hk.trans tidy_setPc).clean hr hmpr hst.1 (fun i hi => ?_) ?_ ?_
      fun hsl _ => absurd hsl hst.2)
    · rw [hpck] at hi
      exact absurd hk0 (Pc.stage_of_cleared hi)
    · rw [hpck, hk0]
      exact fun e => absurd e (by decide)
    · rw [hpck, hk0]
      exact fun e => absurd rfl e
  have hst : (s.thread t).state ≠ .embryo ∧ (s.thread t).state ≠ .sleeping := by
    rw [hrun]
    exact ⟨by decide, by decide⟩
  -- `t` moves on inside `exit`, with what it has cleared so far
  have hin : ∀ (s₁ : Kernel) (k : Pc), Tidy s s₁ t → s₁.thread t = s.thread t →
      (∀ i, k.cleared i → (s₁.proc p).ofile i = none) → (k.stage = 3 → (s₁.proc p).cwd = none) →
      p ≠ s.initproc → Calm (s₁.setPc t k) s' → Clean s' := by
    intro s₁ k hk hthd hfiles hgone hpi hc
    have hpck : (s₁.setPc t k).pc t = k := by simp
    refine hc.clean ((hk.trans tidy_setPc).clean h hmp ?_ ?_ ?_ (fun _ => hpi) fun hsl => ?_)
    · rw [setPc_thread, hthd]
      exact hst.1
    · rw [hpck]
      exact hfiles
    · rw [hpck]
      exact hgone
    · rw [setPc_thread, hthd] at hsl
      exact absurd hsl hst.2
  -- `t` falls asleep, inside `exit` with what it has cleared so far
  have hsleeps : ∀ (s₁ : Kernel) (k : Pc) (chan : Chan), Tidy s s₁ t → (s₁.thread t).mp = some p →
      (∀ i, k.cleared i → (s₁.proc p).ofile i = none) → (k.stage = 3 → (s₁.proc p).cwd = none) →
      (k.stage ≠ 0 → p ≠ s.initproc) →
      (k = .waitSleep → chan = .proc p ∧
        ∀ q, (s.proc q).parent = some p → (s.proc q).state ≠ .zombie) →
      Calm (s₁.asleep p t chan k) s' → Clean s' := by
    intro s₁ k chan hk hmp₁ hfiles hgone hpi hwait hc
    have hpck : (s₁.asleep p t chan k).pc t = k := by simp [asleep]
    have hstill := asleep_still (s := s₁) (p := p) (t := t) (k := k) chan p
    refine hc.clean ((hk.trans (tidy_asleep hmp₁)).clean h hmp (by simp [asleep]) ?_ ?_ ?_ ?_)
    · rw [hpck]
      intro i hi
      have hfile := congrArg Proc.ofile hstill
      exact (congrFun hfile i).trans (hfiles i hi)
    · rw [hpck]
      intro hk3
      have hcwd := congrArg Proc.cwd hstill
      exact hcwd.trans (hgone hk3)
    · rw [hpck]
      exact hpi
    · rw [hpck]
      intro _ hkw
      obtain ⟨rfl, hz⟩ := hwait hkw
      exact ⟨by simp [asleep], hz⟩
  have hord : ∀ {k : Pc}, k.ordinary → k.stage = 0 := Pc.stage_of_ordinary
  -- the process a `fork` makes has no thread in `exit`
  have hchild : ∀ np, (s.pc t).hold.np = some np →
      (s.proc np).state ≠ .zombie ∧ ∀ u, (s.thread u).mp = some np → (s.pc u).stage = 0 := by
    intro np hhold
    obtain ⟨hembryo, hthds, _⟩ := hcore.child t np hhold
    refine ⟨by rw [hembryo]; decide, fun u hu => ?_⟩
    exact h.fresh u np hu (hcore.slot t u (hthds u hu).1).1
  cases heff with
  | calm hc => exact hc.clean h
  | move _ hk _ hc => exact hgo s s _ h hmp (.refl s) hst (hord (Pc.ordinary_of_plain hk)) hc
  | threadExit _ _ hc => exact hgo s s _ h hmp (.refl s) hst rfl hc
  | nullInode _ _ hs' =>
    subst hs'
    exact ⟨h.fresh, h.files, h.gone, h.notInit, h.init, h.parent, h.waits, fun r hr =>
      ⟨(h.zombie r hr).files, (h.zombie r hr).cwd, (h.zombie r hr).childless, (h.zombie r hr).heard⟩⟩
  | @sleep k chan _ hk _ hw hc =>
    have hk0 : k.stage = 0 := by
      rcases hk with rfl | hk
      · rfl
      · exact hord (Pc.ordinary_of_plain hk)
    refine hsleeps s k chan (.refl s) hmp (fun i hi => absurd hk0 (Pc.stage_of_cleared hi)) ?_ ?_ hw hc
    · rw [hk0]
      exact fun e => absurd e (by decide)
    · rw [hk0]
      exact fun e => absurd rfl e
  | exitEnter _ _ hp hc =>
    refine hin s _ (.refl s) rfl (fun i hi => ?_) ?_ hp hc
    · exact absurd hi (Fin.not_lt_zero i)
    · simp [Pc.stage]
  | exitClose hpc hc =>
    refine hin s _ (.refl s) rfl (fun i hi => h.files t p i hmp (by rw [hpc]; exact hi)) ?_
      (h.notInit t p hmp (by simp [hpc, Pc.stage])) hc
    simp [Pc.stage]
  | @exitNext e fd hpc hc =>
    have hbefore : ∀ i, i < fd → (s.proc p).ofile i = none := fun i hi =>
      h.files t p i hmp (by rcases hpc with ⟨hpc, _⟩ | hpc <;> rw [hpc] <;> exact hi)
    refine hin _ _ (tidy_setProc (fun i hi => ?_) id (.inl rfl) id fun _ => id) rfl (fun i hi => ?_) ?_
      (h.notInit t p hmp (by rcases hpc with ⟨hpc, _⟩ | hpc <;> simp [hpc, Pc.stage])) hc
    · show (if i = fd then none else _) = none
      split
      · rfl
      · exact hi
    · rw [setProc_proc, if_pos rfl]
      show (if i = fd then none else _) = none
      split
      · rfl
      · rename_i hne
        exact hbefore i (lt_of_le_of_ne (Pc.cleared_behind hi) hne)
    · unfold ExitCaller.behind
      split <;> simp [Pc.stage]
  | exitPut hpc _ hc =>
    have hk : Tidy s { s with drops := fun q => if q = p then s.drops p + 1 else s.drops q } t :=
      Peers.tidy (peers_of_eq rfl fun _ _ => rfl) rfl rfl
    refine hin _ _ hk rfl (fun i _ => h.files t p i hmp (by rw [hpc]; trivial)) ?_
      (h.notInit t p hmp (by simp [hpc, Pc.stage])) hc
    simp [Pc.stage]
  | exitCwd hpc hc =>
    refine hin _ _ (tidy_setProc (fun _ => id) (fun _ => rfl) (.inl rfl) id fun _ => id) rfl
      (fun i _ => ?_) (fun _ => by simp) (h.notInit t p hmp (by simp [hpc, Pc.stage])) hc
    rw [setProc_proc, if_pos rfl]
    exact h.files t p i hmp (by rw [hpc]; trivial)
  | exitShare hpc hc =>
    have hk := tidy_cpuShare (p := p) (t := t) s 0
    refine hin _ _ hk rfl (fun i _ => hk.ofile p i (h.files t p i hmp (by rw [hpc]; trivial)))
      (fun _ => hk.cwd p (h.gone t p hmp (by rw [hpc]; rfl)))
      (h.notInit t p hmp (by simp [hpc, Pc.stage])) hc
  | @await e k hpc _ _ hc =>
    have hk : Tidy s (s.setExited p true) t :=
      tidy_setProc (fun _ => id) id (.inl rfl) id fun _ => id
    rcases hpc with ⟨hpc, rfl⟩ | ⟨hpc, rfl⟩
    · refine hsleeps _ _ _ hk hmp (fun i _ => hk.ofile p i (h.files t p i hmp (by rw [hpc]; trivial)))
        (fun _ => hk.cwd p (h.gone t p hmp (by rw [hpc]; rfl)))
        (fun _ => h.notInit t p hmp (by simp [hpc, Pc.stage])) (by simp) hc
    · exact hsleeps _ _ _ hk hmp (fun i hi => absurd rfl (Pc.stage_of_cleared hi)) (by simp [Pc.stage])
        (by simp [Pc.stage]) (by simp) hc
  | awaitAgain hpc _ hc =>
    refine hsleeps s _ _ (.refl s) hmp (fun i => h.files t p i hmp) (h.gone t p hmp)
      (h.notInit t p hmp) ?_ hc
    rcases hpc with hpc | hpc <;> simp [hpc]
  | @exitBack e b _ _ hc =>
    refine hgo s _ _ h hmp (tidy_setProc (fun _ => id) id (.inl rfl) id fun _ => id) hst ?_ hc
    cases e <;> rfl
  | execBack _ hc =>
    exact hgo s _ _ h hmp (tidy_setProc (fun _ => id) id (.inl rfl) id fun _ => id) hst rfl hc
  | execDone _ _ hc =>
    have hk : Tidy s (s.setExited p false) t :=
      tidy_setProc (fun _ => id) id (.inl rfl) id fun _ => id
    refine hgo s _ _ h hmp (hk.trans ((peers_freeAll fun u hu => ⟨hu.1, hu.2.2⟩).tidy (by simp)
      (by simp))) ?_ rfl hc
    rw [freeAll_thread, if_neg (by simp)]
    exact hst
  | exitFinish hpc _ _ h₁ hparent hinit hc =>
    refine hc.clean (h.finish hmp ?_ (fun i => ?_) h₁ hparent hinit)
    · rcases hpc with ⟨hpc, _⟩ | hpc <;> rw [hpc] <;> rfl
    · rcases hpc with ⟨hpc, _⟩ | hpc <;> rw [hpc] <;> trivial
  | die ha hpc hcore₁ h₁ hc =>
    obtain ⟨ok, page, rfl⟩ := ha
    have hlive₁ := (hleave (p, t) hon (by rw [hpc]; rfl)).dead h₁ hcore₁
    rw [dead, setPc_proc] at hlive₁
    exact hgo s _ _ h hmp (h₁.tidy.trans (tidy_setstate hlive₁ peers_setstate)) (by simp) rfl hc
  | @join u _ _ hz hc =>
    have hut : u ≠ t := by
      rintro rfl
      cases hrun.symm.trans hz
    refine hgo s _ _ h hmp ((peers_freeThd hut hz).tidy (by simp) (by simp)) ?_ rfl hc
    rw [freeThd_thread, if_neg hut.symm]
    exact hst
  | @reap q s₁ _ h₁ _ hz hc =>
    have hz₀ : (s.proc q).state = .zombie := (h₁.low (by rw [hz]; decide)).trans hz
    have hqp : p ≠ q := by
      rintro rfl
      exact hpz hz₀
    have hqi := h.ne_initproc hz₀
    have hk : Tidy s₁ (s₁.freeAll fun _ x => x.mp = some q) t := by
      refine (peers_freeAll fun u hu => ⟨?_, ?_⟩).tidy (by simp) (by simp)
      · rintro rfl
        rw [h₁.mp, hmp] at hu
        exact hqp (Option.some.inj hu)
      · rw [h₁.mp] at hu
        exact (h₁.zombie u (by simp [hu])).mpr (hcore.zombie_threads hz₀ hu)
    have hreset : ∀ r : Kernel, r.initproc = s.initproc → Tidy r (r.setProc q Proc.reaped) t :=
      fun r hr => tidy_setProc (fun _ => id) id (.inr rfl) (by simp [Proc.reaped]) fun e =>
        absurd (e.trans hr) hqi
    rw [reap_eq] at hc
    refine hgo s _ _ h hmp (h₁.tidy.trans (hk.trans (hreset _ ?_))) ?_ rfl hc
    · rw [hk.initproc, h₁.initproc]
    · rw [setProc_thread, freeAll_thread, h₁.mp, hmp, if_neg (by simpa using hqp)]
      exact ⟨fun e => hst.1 (h₁.embryo t (by simp [hmp]) e), fun e => hst.2 (h₁.asleep t e).1⟩
  | cpuShare _ _ hc => exact hgo s _ _ h hmp (tidy_cpuShare s _) hst rfl hc
  | @allocproc np _ hnp' hc =>
    have hk : Tidy s (s.setProc np fun q => { q with state := .embryo }) t :=
      tidy_setProc (fun _ => id) id (.inl rfl) (by simp) fun e => by
        rw [hnp']
        exact fun e => absurd e (by decide)
    have hk' : Tidy s { s.setProc np fun q => { q with state := .embryo } with
        drops := fun q => if q = np then 0 else s.drops q } t :=
      ⟨hk.toPeers.trans (peers_of_eq rfl fun _ _ => rfl), hk.ofile, hk.cwd, hk.parent, rfl, hk.dies, hk.alive⟩
    exact hgo s _ _ h hmp hk' hst rfl hc
  | @forkFail np _ hhold hc =>
    have hst' := (hcore.child t np hhold).1
    refine hgo s _ _ h hmp (tidy_setProc (fun _ => id) id (.inl rfl) (by simp) fun _ => ?_) hst rfl hc
    rw [hst']
    exact fun e => absurd e (lt_irrefl _)
  | @allocOwner n q k _ hk hn hno _ _ hc =>
    have hnt : t ≠ n := by
      rintro rfl
      cases hno.symm.trans hmp
    refine hgo _ _ _ h.setOwner ?_ (.refl _) ?_ (hord (Pc.ordinary_of_plain hk)) hc
    · simpa [hnt] using hmp
    · simpa [hnt] using hst
  | @forkInit np n hpc hc =>
    have hhold : (s.pc t).hold.np = some np := by
      rw [hpc]
      rfl
    refine hgo _ _ _ (h.setParent (hcore.child t np hhold).1 hpz (hnp np hhold) ?_) hmp (.refl _) hst
      rfl hc
    exact fun _ => ⟨rfl, rfl, rfl, rfl⟩
  | @forkFile np n fd f k hpc hk _ hc =>
    obtain ⟨hz, hno⟩ := hchild np (by rw [hpc]; rfl)
    refine hgo _ _ _ (h.setProc hz hno ?_ ?_) hmp (.refl _) hst (hord (Pc.ordinary_of_plain hk)) hc <;>
      rfl
  | @forkCwd np n ip hpc hc =>
    obtain ⟨hz, hno⟩ := hchild np (by rw [hpc]; rfl)
    refine hgo _ _ _ (h.setProc hz hno ?_ ?_) hmp (.refl _) hst rfl hc <;> rfl
  | @forkRun np n hpc hc =>
    have hhold : (s.pc t).hold.np = some np := by
      rw [hpc]
      rfl
    obtain ⟨hn, hmpn⟩ := hcore.slot t n (by rw [hpc]; rfl)
    have hmpn' : (s.thread n).mp = some np := by
      rw [hmpn, hpc]
      rfl
    have hnt : t ≠ n := by
      rintro rfl
      exact hnp np hhold (Option.some.inj (hmpn'.symm.trans hmp))
    have hlive : .embryo < ((s.setstate np n .runnable).proc np).state :=
      lt_of_lt_of_le (by decide : ProcState.embryo < .runnable) (le_setstate hmpn')
    refine hgo s _ _ h hmp (tidy_setstate hlive (peers_start hn)) ?_ rfl hc
    rw [setstate_thread, if_neg hnt]
    exact hst
  | chdirSet ha hpc hc =>
    obtain ⟨ok, page, rfl⟩ := ha
    have hno := hquiet (p, t) hon (by rw [hpc]; rfl)
    refine hgo _ _ _ (h.setProc hpz (fun u hu => ?_) ?_ ?_) hmp (.refl _) hst rfl hc
    · by_contra hstu
      exact hno ⟨u, hu, hstu⟩
    all_goals rfl
  | @ofile fd f ha hpc hc =>
    subst ha
    refine hc.clean ?_
    cases f with
    | none =>
      refine (tidy_setProc (fun i hi => ?_) id (.inl rfl) id fun _ => id).clean h hmp hst.1 ?_ ?_ ?_
        fun hsl => absurd hsl hst.2
      · show (if i = fd then none else _) = none
        split
        · rfl
        · exact hi
      all_goals simp [hpc, Pc.stage, Pc.cleared]
    | some f =>
      have hno := hquiet (p, t) hon (by simp)
      refine h.setProc hpz (fun u hu => ?_) rfl rfl
      by_contra hstu
      exact hno ⟨u, hu, hstu⟩

theorem Clean.step (hcore : Core none s) (h : Clean s) (hcreate : CreatesSlots s a)
    (hleave : LeavesLive s a) (hquiet : Undisturbed s a) (hs : s.step a = some s') : Clean s' := by
  rcases step_effect hcore hcreate hs with hcalm | ⟨c, p, t, hon, heff⟩
  · exact hcalm.clean h
  · exact h.effect hcore hleave hquiet hon heff

theorem boot_clean : Clean boot := by
  have hpc : ∀ t, (boot.pc t).stage = 0 := by
    intro t
    by_cases ht : t = 0 <;> simp [boot, ht, Pc.stage]
  have hparent : ∀ p, (boot.proc p).parent = none := by
    intro p
    by_cases hp : p = 0 <;> simp [boot, hp]
  refine ⟨fun t p _ _ => hpc t, fun t p i _ hi => absurd (hpc t) (Pc.stage_of_cleared hi),
    fun t p _ hst => ?_, fun t p _ hst => absurd (hpc t) hst, ⟨by simp only [boot]; decide, hparent _⟩,
    fun p => by simp [hparent], fun t p _ hsl => ?_, fun p hp => ?_⟩
  · rw [hpc] at hst
    cases hst
  · by_cases ht : t = 0 <;> simp [boot, ht] at hsl
  · by_cases hp0 : p = 0 <;> simp [boot, hp0] at hp

/-! ## Whole runs -/

/-- In every run in which `thread_exit` leaves a live thread behind, and a process gets no file
or directory while one of its threads is in `exit`: a ZOMBIE has no file, no directory and no
child, and no thread of its parent sleeps in `wait`. -/
theorem zombie_has_exited (h : Reaches Kernel.step
      (fun s a => CreatesSlots s a ∧ LeavesLive s a ∧ Undisturbed s a) boot s) :
    ∀ p, (s.proc p).state = .zombie → (∀ i, (s.proc p).ofile i = none) ∧ (s.proc p).cwd = none ∧
      (∀ q, (s.proc q).parent ≠ some p) ∧
      ∀ q u, (s.proc p).parent = some q → (s.thread u).mp = some q →
        (s.thread u).state = .sleeping → s.pc u ≠ .waitSleep := by
  have hinv : Core none s ∧ Clean s := by
    refine h.invariant (motive := fun s => Core none s ∧ Clean s) ⟨boot_core, boot_clean⟩ ?_
    rintro s a s' ⟨hcore, hclean⟩ ⟨hcreate, hleave, hquiet⟩ hs
    exact ⟨hcore.step hcreate hs, hclean.step hcore hcreate hleave hquiet hs⟩
  intro p hp
  obtain ⟨hfiles, hcwd, hchildless, hheard⟩ := hinv.2.zombie p hp
  exact ⟨hfiles, hcwd, hchildless, hheard⟩

/-- A child's two threads leave one after the other, the second through `exit`. -/
def inTurnRun : List Act := lastExitRun ++ ksteps 2 2

theorem zombie_has_exited_in_turn :
    ∃ s, Reaches Kernel.step (fun s a => CreatesSlots s a ∧ LeavesLive s a ∧ Undisturbed s a) boot s ∧
      (s.proc 1).state = .zombie ∧ (s.proc 1).cwd = none := by
  obtain ⟨s, hreach, hz⟩ := boot_reaches
    (fun s a => CreatesSlots s a ∧ LeavesLive s a ∧ Undisturbed s a) inTurnRun
    (fun s => (s.proc 1).state = .zombie) (by decide +kernel)
  exact ⟨s, hreach, hz, (zombie_has_exited hreach 1 hz).2.1⟩

/-- `init` waits for its child. Both threads of the child are in `thread_exit` at once: each has
found the other alive before either dies. -/
def bothLeaveRun : List Act :=
  siblingsRun ++ [.syscall 0 .wait] ++ ksteps 0 1 ++
    [.syscall 1 (.threadExit 0), .syscall 2 (.threadExit 0)] ++ ksteps 1 1 ++
    ksteps 2 1 ++ ksteps 1 1 ++ ksteps 2 1

/-- The child is a ZOMBIE with its directory, nobody has called `exit`, and `init` sleeps. -/
theorem both_leave_run :
    ∃ s, Reaches Kernel.step (fun s a => CreatesSlots s a ∧ Undisturbed s a) boot s ∧
      (s.proc 1).state = .zombie ∧ (s.proc 1).cwd ≠ none ∧ (s.proc 1).parent = some 0 ∧
      (s.thread 0).mp = some 0 ∧ (s.thread 0).state = .sleeping ∧ s.pc 0 = .waitSleep :=
  boot_reaches _ bothLeaveRun (fun s => (s.proc 1).state = .zombie ∧ (s.proc 1).cwd ≠ none ∧
    (s.proc 1).parent = some 0 ∧ (s.thread 0).mp = some 0 ∧ (s.thread 0).state = .sleeping ∧
    s.pc 0 = .waitSleep) (by decide +kernel)

end Kernel

end Xv6
