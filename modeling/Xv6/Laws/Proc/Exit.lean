import Xv6.Laws.Proc.Share

/-!
# What exit gives up, and when

`exit` closes the files, drops the directory and gives the share back before `allthdexit` tells
it whether it may exit at all. If its caller is the last thread of the process (`LastExits`),
nobody is left to see the process without its directory: the thread in `exit` stays alone, is
never refused and dies, and the directory is dropped once. `Pc.stage` is how far `exit` has got
with the directory.
-/

namespace Xv6

open Xv6.Lib

/-- How far a thread is in `exit`: not behind its first check, with the directory in place, with
the directory dropped and still named, with none. -/
def Pc.stage : Pc → Nat
  | .exitClose .. | .exitClear .. | .exitPut _ => 1
  | .exitCwd _ => 2
  | .exitShare _ | .exitThds _ | .exitSleep _ => 3
  | _ => 0

/-- At the entry of `exit`. -/
def Pc.entersExit : Pc → Bool
  | .exitEntry _ => true
  | _ => false

theorem Pc.stage_of_ordinary {k : Pc} (hk : k.ordinary) : k.stage = 0 := by
  cases k <;> first | rfl | cases hk

theorem Pc.ne_of_ordinary {k : Pc} (hk : k.ordinary) : k ≠ .dead ∧ ∀ e, k ≠ .exitSleep e := by
  constructor
  · rintro rfl
    cases hk
  · rintro e rfl
    cases hk

theorem Pc.stage_of_usesCwd {k : Pc} (hk : k.usesCwd) : k.stage ≠ 3 ∧ k ≠ .dead := by
  cases k <;> first | (cases hk; done) | simp [Pc.stage]

namespace Kernel

variable {s s' s₁ : Kernel} {a : Act} {p q : ProcPtr} {t u n : ThdPtr} {c : CpuId} {k : Pc}

/-- Who is in `exit` is the last thread of its process, and the directory is in place unless
that thread has dropped it. -/
structure Exits (s : Kernel) : Prop where
  /-- the dead are ZOMBIE -/
  corpse : ∀ t p, (s.thread t).mp = some p → ((s.thread t).state = .zombie ↔ s.pc t = .dead)
  /-- the unborn are not in `exit` -/
  fresh : ∀ t p, (s.thread t).mp = some p → (s.thread t).state = .embryo → (s.pc t).stage = 0
  alone : ∀ t u p, (s.thread t).mp = some p → (s.thread u).mp = some p → (s.pc t).stage ≠ 0 →
    u ≠ t → s.pc u = .dead
  /-- `exit` never waits for other threads -/
  awake : ∀ t e, s.pc t ≠ .exitSleep e
  /-- `exited` is set by an `exec` that waits -/
  exited : ∀ p, (s.proc p).exited = true → ∃ t, (s.thread t).mp = some p ∧ s.pc t = .execSleep
  gone : ∀ t p, (s.thread t).mp = some p → (s.pc t).stage = 3 → (s.proc p).cwd = none
  here : ∀ p, .embryo < (s.proc p).state → (s.proc p).cwd = none →
    ∃ t, (s.thread t).mp = some p ∧ (s.pc t).stage = 3
  forked : ∀ t np n, s.pc t = .forkRun np n → (s.proc np).cwd ≠ none
  dropped : ∀ t p, (s.thread t).mp = some p → 2 ≤ (s.pc t).stage → s.drops p = 1
  kept : ∀ p, .zombie < (s.proc p).state →
    (∀ t, (s.thread t).mp = some p → (s.pc t).stage < 2) → s.drops p = 0
  zombie : ∀ p, (s.proc p).state = .zombie → (s.proc p).cwd = none ∧ s.drops p = 1
  null : s.panic ≠ some .nullInode

/-- Process `q` keeps its directory and the count of its drops, and stays alive or not. -/
structure SameDir (s s' : Kernel) (q : ProcPtr) : Prop where
  cwd : (s'.proc q).cwd = (s.proc q).cwd
  drops : s'.drops q = s.drops q
  state : (s'.proc q).state = (s.proc q).state ∨
    .embryo < (s.proc q).state ∧ .embryo < (s'.proc q).state

/-- Process `q` is being made, or comes to life with a directory: no thread of it is in `exit`. -/
structure NewDir (s s' : Kernel) (q : ProcPtr) : Prop where
  idle : ∀ u, (s.thread u).mp = some q → (s.pc u).stage = 0
  state : (s'.proc q).state ≠ .zombie
  drops : s'.drops q = 0
  cwd : .embryo < (s'.proc q).state → (s'.proc q).cwd ≠ none
  keeps : (s.proc q).cwd ≠ none → (s'.proc q).cwd ≠ none

/-- A thread keeps its owner and its place, stays dead or not and is not unborn again. -/
structure SameThread (s s' : Kernel) (u : ThdPtr) : Prop where
  mp : (s'.thread u).mp = (s.thread u).mp
  pc : s'.pc u = s.pc u
  zombie : (s.thread u).mp ≠ none →
    ((s'.thread u).state = .zombie ↔ (s.thread u).state = .zombie)
  embryo : (s.thread u).mp ≠ none → (s'.thread u).state = .embryo → (s.thread u).state = .embryo

/-- A slot becomes an unborn thread of a process none of whose threads is in `exit`. -/
structure NewThread (s s' : Kernel) (u : ThdPtr) : Prop where
  free : (s.thread u).mp = none
  pc : s'.pc u = .forkret
  state : (s'.thread u).state = .embryo
  idle : ∀ q v, (s'.thread u).mp = some q → (s.thread v).mp = some q → (s.pc v).stage = 0

/-- A change at which no thread moves keeps the invariant. -/
theorem Exits.congr (h : Exits s) (hthd : ∀ u, SameThread s s' u ∨ NewThread s s' u)
    (hproc : ∀ q, SameDir s s' q ∨ NewDir s s' q)
    (hexited : ∀ q, (s'.proc q).exited = true → (s.proc q).exited = true)
    (hnull : s'.panic = some .nullInode → s.panic = some .nullInode) : Exits s' := by
  have hkeep : ∀ u q, (s.thread u).mp = some q → (s'.thread u).mp = some q ∧ s'.pc u = s.pc u := by
    intro u q hu
    rcases hthd u with hs | hn
    · exact ⟨hs.mp.trans hu, hs.pc⟩
    · cases hn.free.symm.trans hu
  have hold : ∀ u q, (s'.thread u).mp = some q → (s'.pc u).stage ≠ 0 →
      (s.thread u).mp = some q ∧ s'.pc u = s.pc u := by
    intro u q hu hst
    rcases hthd u with hs | hn
    · exact ⟨hs.mp.symm.trans hu, hs.pc⟩
    · rw [hn.pc] at hst
      exact absurd rfl hst
  refine ⟨fun u q hu => ?_, fun u q hu he => ?_, fun u v q hu hv hst hvu => ?_, fun u e => ?_,
    fun q hq => ?_, fun u q hu hst => ?_, fun q hq hcwd => ?_, fun u np n hu => ?_,
    fun u q hu hst => ?_, fun q hq hlow => ?_, fun q hq => ?_, fun hp => h.null (hnull hp)⟩
  · rcases hthd u with hs | hn
    · rw [hs.mp] at hu
      rw [hs.zombie (by simp [hu]), hs.pc]
      exact h.corpse u q hu
    · rw [hn.pc, hn.state]
      simp
  · rcases hthd u with hs | hn
    · rw [hs.mp] at hu
      rw [hs.pc]
      exact h.fresh u q hu (hs.embryo (by simp [hu]) he)
    · rw [hn.pc]
      rfl
  · obtain ⟨hu₀, hpc⟩ := hold u q hu hst
    rw [hpc] at hst
    rcases hthd v with hs | hn
    · rw [hs.pc]
      exact h.alone u v q hu₀ (hs.mp.symm.trans hv) hst hvu
    · exact absurd (hn.idle q u hv hu₀) hst
  · rcases hthd u with hs | hn
    · rw [hs.pc]
      exact h.awake u e
    · simp [hn.pc]
  · obtain ⟨u, hu, hpc⟩ := h.exited q (hexited q hq)
    obtain ⟨hu', hpc'⟩ := hkeep u q hu
    exact ⟨u, hu', hpc'.trans hpc⟩
  · obtain ⟨hu₀, hpc⟩ := hold u q hu (by rw [hst]; decide)
    rw [hpc] at hst
    rcases hproc q with hs | hn
    · exact hs.cwd.trans (h.gone u q hu₀ hst)
    · cases (hn.idle u hu₀).symm.trans hst
  · rcases hproc q with hs | hn
    · have hlive : .embryo < (s.proc q).state := hs.state.elim (fun e => e ▸ hq) And.left
      obtain ⟨u, hu, hst⟩ := h.here q hlive (hs.cwd.symm.trans hcwd)
      obtain ⟨hu', hpc⟩ := hkeep u q hu
      exact ⟨u, hu', hpc ▸ hst⟩
    · exact absurd hcwd (hn.cwd hq)
  · rcases hthd u with hs | hn
    · rw [hs.pc] at hu
      rcases hproc np with hd | hd
      · rw [hd.cwd]
        exact h.forked u np n hu
      · exact hd.keeps (h.forked u np n hu)
    · cases hn.pc.symm.trans hu
  · obtain ⟨hu₀, hpc⟩ := hold u q hu (by omega)
    rw [hpc] at hst
    rcases hproc q with hs | hn
    · exact hs.drops.trans (h.dropped u q hu₀ hst)
    · rw [hn.idle u hu₀] at hst
      exact absurd hst (by decide)
  · rcases hproc q with hs | hn
    · rw [hs.drops]
      refine h.kept q (hs.state.elim (fun e => e ▸ hq) fun e => lt_trans (by decide) e.1) fun u hu => ?_
      obtain ⟨hu', hpc⟩ := hkeep u q hu
      exact hpc ▸ hlow u hu'
    · exact hn.drops
  · rcases hproc q with hs | hn
    · rw [hs.cwd, hs.drops]
      rcases hs.state with e | ⟨_, e⟩
      · exact h.zombie q (e.symm.trans hq)
      · rw [hq] at e
        exact absurd e (by decide)
    · exact absurd hq hn.state

theorem Calm.exits (hc : Calm s s') (h : Exits s) : Exits s' :=
  h.congr (fun u => .inl ⟨hc.mp u, congrFun hc.pc u, hc.zombie u, hc.embryo u⟩)
    (fun q => .inl ⟨hc.cwd q, congrFun hc.drops q, hc.live q⟩)
    (fun q hq => (hc.exited q).symm.trans hq) hc.null

/-! ## What a step leaves alone -/

/-- A step by thread `t`: the other threads go on where they were, stay dead or not, are not
born and do not fall asleep; a corpse may be freed. -/
structure Peers (s s' : Kernel) (t : ThdPtr) : Prop where
  mp : ∀ u q, (s'.thread u).mp = some q → (s.thread u).mp = some q
  freed : ∀ u q, (s.thread u).mp = some q → (s'.thread u).mp ≠ some q →
    u ≠ t ∧ (s.thread u).state = .zombie
  zombie : ∀ u q, u ≠ t → (s'.thread u).mp = some q →
    ((s'.thread u).state = .zombie ↔ (s.thread u).state = .zombie)
  embryo : ∀ u q, u ≠ t → (s'.thread u).mp = some q → (s'.thread u).state = .embryo →
    (s.thread u).state = .embryo
  asleep : ∀ u, u ≠ t → (s'.thread u).state = .sleeping →
    (s.thread u).state = .sleeping ∧ (s'.thread u).chan = (s.thread u).chan
  pc : ∀ u, u ≠ t → s'.pc u = s.pc u

theorem Peers.trans (h : Peers s s₁ t) (h' : Peers s₁ s' t) : Peers s s' t where
  mp u q hu := h.mp u q (h'.mp u q hu)
  freed u q hu hu' := by
    by_cases hmid : (s₁.thread u).mp = some q
    · obtain ⟨hut, hz⟩ := h'.freed u q hmid hu'
      exact ⟨hut, (h.zombie u q hut hmid).mp hz⟩
    · exact h.freed u q hu hmid
  zombie u q hut hu := (h'.zombie u q hut hu).trans (h.zombie u q hut (h'.mp u q hu))
  embryo u q hut hu he := h.embryo u q hut (h'.mp u q hu) (h'.embryo u q hut hu he)
  asleep u hut hu := by
    obtain ⟨h1, h2⟩ := h'.asleep u hut hu
    obtain ⟨h3, h4⟩ := h.asleep u hut h1
    exact ⟨h3, h2.trans h4⟩
  pc u hut := (h'.pc u hut).trans (h.pc u hut)

theorem Calm.peers (hc : Calm s s') : Peers s s' t where
  mp u q hu := by rwa [hc.mp] at hu
  freed u q hu hu' := absurd ((hc.mp u).trans hu) hu'
  zombie u q _ hu := hc.zombie u (by rw [← hc.mp, hu]; simp)
  embryo u q _ hu := hc.embryo u (by rw [← hc.mp, hu]; simp)
  asleep u _ := hc.asleep u
  pc u _ := by rw [hc.pc]

theorem peers_of_eq (hthd : s'.thread = s.thread) (hpc : ∀ u, u ≠ t → s'.pc u = s.pc u) :
    Peers s s' t where
  mp u q hu := by rwa [hthd] at hu
  freed u q hu hu' := absurd (by rw [hthd]; exact hu) hu'
  zombie u q _ _ := by rw [hthd]
  embryo u q _ _ := by rw [hthd]; exact id
  asleep u _ hu := by
    rw [hthd] at hu ⊢
    exact ⟨hu, rfl⟩
  pc := hpc

theorem peers_setPc : Peers s (s.setPc t k) t :=
  peers_of_eq rfl fun u hu => by rw [setPc_pc, if_neg hu]

theorem peers_setProc {f : Proc → Proc} : Peers s (s.setProc q f) t := peers_of_eq rfl fun _ _ => rfl

/-- Thread `t` changes, but not its process. -/
theorem peers_setThd {g : Thread → Thread} (hg : (g (s.thread t)).mp = (s.thread t).mp) :
    Peers s (s.setThd t g) t := by
  have hmp : ∀ u, ((s.setThd t g).thread u).mp = (s.thread u).mp := by
    intro u
    by_cases hut : u = t
    · subst hut
      simpa using hg
    · simp [hut]
  exact ⟨fun u q hu => (hmp u) ▸ hu, fun u q hu hu' => absurd ((hmp u).trans hu) hu',
    fun u q hut _ => by simp [hut], fun u q hut _ => by simp [hut],
    fun u hut hu => by simpa [hut] using hu, fun _ _ => rfl⟩

theorem peers_setstate {st : ProcState} : Peers s (s.setstate p t st) t := by
  have h₁ : Peers s (s.setThd t fun x => { x with state := st }) t := peers_setThd rfl
  rw [setstate_eq]
  exact h₁.trans peers_setProc

/-- Corpses are freed. -/
theorem peers_freed {P : ThdPtr → Prop} [DecidablePred P]
    (hthd : ∀ u, s'.thread u = if P u then Thread.freed (s.thread u) else s.thread u) (hpc : s'.pc = s.pc)
    (hP : ∀ u, P u → u ≠ t ∧ (s.thread u).state = .zombie) : Peers s s' t := by
  have hsame : ∀ u q, (s'.thread u).mp = some q → s'.thread u = s.thread u := by
    intro u q hu
    rw [hthd] at hu ⊢
    split at hu
    · cases hu
    · rename_i h
      exact if_neg h
  refine ⟨fun u q hu => hsame u q hu ▸ hu, fun u q hu hu' => ?_, fun u q _ hu => by rw [hsame u q hu],
    fun u q _ hu => by rw [hsame u q hu]; exact id, fun u _ hu => ?_, fun u _ => by rw [hpc]⟩
  · by_cases h : P u
    · exact hP u h
    · rw [hthd, if_neg h] at hu'
      exact absurd hu hu'
  · rw [hthd] at hu ⊢
    split at hu
    · cases hu
    · rename_i h
      rw [if_neg h]
      exact ⟨hu, rfl⟩

/-- What a step by thread `t` of `p` leaves alone in the other processes: they keep their
directory and the count of its drops, and none comes to life. -/
structure Keeps (s s' : Kernel) (p : ProcPtr) (t : ThdPtr) : Prop extends Peers s s' t where
  cwd : ∀ q, q ≠ p → (s'.proc q).cwd = (s.proc q).cwd
  drops : ∀ q, q ≠ p → s'.drops q = s.drops q
  state : ∀ q, q ≠ p → (s'.proc q).state = (s.proc q).state ∨
    .embryo < (s.proc q).state ∧ .embryo < (s'.proc q).state ∨ (s'.proc q).state = .unused
  null : s'.panic = some .nullInode → s.panic = some .nullInode

theorem Keeps.live (h : Keeps s s' p t) (hqp : q ≠ p) (hq : .zombie < (s'.proc q).state) :
    .zombie < (s.proc q).state ∧ (.embryo < (s'.proc q).state → .embryo < (s.proc q).state) := by
  rcases h.state q hqp with e | ⟨e, _⟩ | e
  · exact ⟨e ▸ hq, fun hl => e ▸ hl⟩
  · exact ⟨lt_trans (by decide) e, fun _ => e⟩
  · rw [e] at hq
    exact absurd hq (by decide)

/-- Whoever is not dead keeps its process. -/
theorem Keeps.mp_of_ne_dead (hk : Keeps s s' p t) (h : Exits s) (hu : (s.thread u).mp = some q)
    (hpc : s.pc u ≠ .dead) : (s'.thread u).mp = some q := by
  by_contra hne
  exact hpc ((h.corpse u q hu).mp (hk.freed u q hu hne).2)

theorem Keeps.trans (h : Keeps s s₁ p t) (h' : Keeps s₁ s' p t) : Keeps s s' p t where
  toPeers := h.toPeers.trans h'.toPeers
  cwd q hq := (h'.cwd q hq).trans (h.cwd q hq)
  drops q hq := (h'.drops q hq).trans (h.drops q hq)
  state q hq := by
    rcases h'.state q hq with e' | ⟨h1', h2'⟩ | e' <;> rcases h.state q hq with e | ⟨h1, h2⟩ | e
    · exact .inl (e'.trans e)
    · exact .inr (.inl ⟨h1, e' ▸ h2⟩)
    · exact .inr (.inr (e'.trans e))
    · exact .inr (.inl ⟨e ▸ h1', h2'⟩)
    · exact .inr (.inl ⟨h1, h2'⟩)
    · rw [e] at h1'
      exact absurd h1' (by decide)
    all_goals exact .inr (.inr e')
  null hp := h.null (h'.null hp)

theorem Calm.keeps (hc : Calm s s') : Keeps s s' p t where
  toPeers := hc.peers
  cwd q _ := hc.cwd q
  drops q _ := by rw [hc.drops]
  state q _ := (hc.live q).imp_right .inl
  null := hc.null

theorem Keeps.refl (s : Kernel) : Keeps s s p t := (Calm.refl s).keeps

/-- Threads change, the processes stay. -/
theorem Peers.keeps (h : Peers s s' t) (hproc : s'.proc = s.proc) (hdrops : s'.drops = s.drops)
    (hnull : s'.panic = some .nullInode → s.panic = some .nullInode) : Keeps s s' p t where
  toPeers := h
  cwd q _ := by rw [hproc]
  drops q _ := by rw [hdrops]
  state q _ := .inl (by rw [hproc])
  null := hnull

theorem keeps_setPc : Keeps s (s.setPc t k) p t := peers_setPc.keeps rfl rfl id

/-- Another process changes neither its directory nor its state, or is given up. -/
theorem keeps_setProc {f : Proc → Proc} (hf : q ≠ p → (f (s.proc q)).cwd = (s.proc q).cwd ∧
    ((f (s.proc q)).state = (s.proc q).state ∨ (f (s.proc q)).state = .unused)) :
    Keeps s (s.setProc q f) p t where
  toPeers := peers_setProc
  cwd r hr := by
    by_cases hrq : r = q
    · subst hrq
      simpa using (hf hr).1
    · simp [hrq]
  drops _ _ := rfl
  state r hr := by
    by_cases hrq : r = q
    · subst hrq
      simpa using (hf hr).2.imp_right .inr
    · simp [hrq]
  null := id

theorem keeps_cpuShare (share : Word) : Keeps s (s.cpuShare p share) p t := by
  have hk : Keeps s (s.setProc p fun r => (setCpuShare s.mlfq r share).2.2) p t :=
    keeps_setProc fun h => absurd rfl h
  exact ⟨peers_of_eq rfl fun _ _ => rfl, hk.cwd, hk.drops, hk.state, hk.null⟩

theorem keeps_adopt : Keeps s (s.adopt p) p t where
  toPeers := peers_of_eq rfl fun _ _ => rfl
  cwd q _ := by
    unfold adopt
    dsimp only
    split <;> rfl
  drops _ _ := rfl
  state q _ := .inl (adopt_share).2.2
  null := id

theorem keeps_setstate {st : ProcState} : Keeps s (s.setstate p t st) p t where
  toPeers := peers_setstate
  cwd q hq := by rw [setstate_proc_of_ne hq]
  drops q _ := by rw [setstate_drops]
  state q hq := .inl (by rw [setstate_proc_of_ne hq])
  null := by simp

theorem keeps_asleep {chan : Chan} : Keeps s (s.asleep p t chan k) p t := by
  have h₁ : Keeps s (s.setThd t fun x => { x with chan := some chan }) p t :=
    (peers_setThd rfl).keeps rfl rfl id
  exact h₁.trans (keeps_setstate.trans keeps_setPc)

theorem peers_freeAll {P : ThdPtr → Thread → Prop} [∀ u, DecidablePred (P u)]
    (hP : ∀ u, P u (s.thread u) → u ≠ t ∧ (s.thread u).state = .zombie) :
    Peers s (s.freeAll P) t :=
  peers_freed (fun _ => freeAll_thread ..) (by simp) hP

theorem peers_freeThd (hut : u ≠ t) (hz : (s.thread u).state = .zombie) :
    Peers s (s.freeThd u) t := by
  refine peers_freed (P := (· = u)) (fun v => ?_) (by simp) fun v hv => hv ▸ ⟨hut, hz⟩
  by_cases hv : v = u <;> simp [hv]

theorem keeps_freeAll {P : ThdPtr → Thread → Prop} [∀ u, DecidablePred (P u)]
    (hP : ∀ u, P u (s.thread u) → u ≠ t ∧ (s.thread u).state = .zombie) :
    Keeps s (s.freeAll P) p t :=
  (peers_freeAll hP).keeps (by simp) (by simp) (freeAll_panic_iff (by decide)).mp

theorem keeps_freeThd (hut : u ≠ t) (hz : (s.thread u).state = .zombie) :
    Keeps s (s.freeThd u) p t :=
  (peers_freeThd hut hz).keeps (by simp) (by simp) (freeThd_panic_iff (by decide)).mp

/-! ## Steps of a thread -/

/-- A live process with thread `t` on a CPU: the directory is where `t` has left it. -/
structure Placed (s : Kernel) (p : ProcPtr) (t : ThdPtr) : Prop where
  live : .embryo < (s.proc p).state
  cwd : (s.proc p).cwd = none ↔ (s.pc t).stage = 3
  drops : s.drops p = if 2 ≤ (s.pc t).stage then 1 else 0

section OnCpu

/-! Thread `t` of `p` is on a CPU. -/

variable (hcore : Core none s) (h : Exits s) (hrun : (s.thread t).state = .running)
  (hmp : (s.thread t).mp = some p)
include h hrun hmp

theorem Exits.not_dead : s.pc t ≠ .dead := fun hpc => by
  have := (h.corpse t p hmp).mpr hpc
  rw [hrun] at this
  cases this

/-- No other thread of the process is in `exit`. -/
theorem Exits.stage_other (hu : (s.thread u).mp = some p) (hut : u ≠ t) : (s.pc u).stage = 0 := by
  by_contra hst
  exact h.not_dead hrun hmp (h.alone u t p hu hmp hst hut.symm)

omit hrun hmp in
/-- The last thread's siblings are dead. -/
theorem Exits.dead_of_last (hsib : ¬ s.Sibling p t) (hu : (s.thread u).mp = some p) (hut : u ≠ t) :
    s.pc u = .dead := by
  refine (h.corpse u p hu).mp ?_
  by_contra hz
  exact hsib ⟨u, hut, hu, hz⟩

omit hrun in
/-- Who is in `exit` has no siblings, and its process is not marked. -/
theorem Exits.last_of_stage (hst : (s.pc t).stage ≠ 0) :
    ¬ s.Sibling p t ∧ (s.proc p).exited = false := by
  constructor
  · rintro ⟨u, hut, hu, hz⟩
    exact hz ((h.corpse u p hu).mpr (h.alone t u p hmp hu hst hut))
  · by_contra hex
    obtain ⟨u, hu, hpc⟩ := h.exited p (by simpa using hex)
    have hut : u ≠ t := by
      rintro rfl
      rw [hpc] at hst
      exact hst rfl
    have := h.alone t u p hmp hu hst hut
    rw [hpc] at this
    cases this

include hcore in
theorem Exits.placed : Placed s p t := by
  have hlive : .embryo < (s.proc p).state :=
    lt_of_lt_of_le (by rw [hrun]; decide) (hcore.le_proc t p hmp)
  refine ⟨hlive, ⟨fun hcwd => ?_, h.gone t p hmp⟩, ?_⟩
  · obtain ⟨u, hu, hst⟩ := h.here p hlive hcwd
    by_cases hut : u = t
    · rw [← hut, hst]
    · rw [h.stage_other hrun hmp hu hut] at hst
      cases hst
  · split
    · rename_i hst
      exact h.dropped t p hmp hst
    · rename_i hst
      refine h.kept p (lt_trans (by decide) hlive) fun u hu => ?_
      by_cases hut : u = t
      · rw [hut]
        exact not_le.mp hst
      · rw [h.stage_other hrun hmp hu hut]
        decide

/-- A step of `t` that keeps the others: what is left to see to is `t` and its process. -/
theorem Keeps.exits (hk : Keeps s s' p t) (hborn : (s'.thread t).state ≠ .embryo)
    (hcorpse : (s'.thread t).state = .zombie ↔ s'.pc t = .dead)
    (hlast : (s'.pc t).stage ≠ 0 → (s.pc t).stage ≠ 0 ∨ ¬ s.Sibling p t)
    (hsleep : ∀ e, s'.pc t ≠ .exitSleep e)
    (hfork : ∀ np n, s'.pc t = .forkRun np n → (s'.proc np).cwd ≠ none)
    (hnp : ∀ u np n, s.pc u = .forkRun np n → np ≠ p)
    (hexited : ∀ q, (s'.proc q).exited = true →
      (s.proc q).exited = true ∧ (q = p → s.pc t = .execSleep → s'.pc t = .execSleep) ∨
      q = p ∧ s'.pc t = .execSleep)
    (hproc : Placed s' p t ∨ (s'.proc p).state = .zombie ∧ (s'.proc p).cwd = none ∧
      s'.drops p = 1 ∧ (s'.pc t).stage = 0) : Exits s' := by
  have hlive := h.not_dead hrun hmp
  have hmp' := hk.mp_of_ne_dead h hmp hlive
  have hown : ∀ q, (s'.thread t).mp = some q → q = p := fun q hq =>
    Option.some.inj (hq.symm.trans hmp')
  -- another thread of `p` is not in `exit`, and its place is the old one
  have hother : ∀ u q, (s'.thread u).mp = some q → u ≠ t → (s'.pc u).stage ≠ 0 → q ≠ p := by
    rintro u q hu hut hst rfl
    rw [hk.pc u hut] at hst
    exact hst (h.stage_other hrun hmp (hk.mp u q hu) hut)
  refine ⟨fun u q hu => ?_, fun u q hu he => ?_, fun u v q hu hv hst hvu => ?_, fun u e => ?_,
    fun q hq => ?_, fun u q hu hst => ?_, fun q hq hcwd => ?_, fun u np n hu => ?_,
    fun u q hu hst => ?_, fun q hq hlow => ?_, fun q hq => ?_, fun hp => h.null (hk.null hp)⟩
  · by_cases hut : u = t
    · rw [hut]
      exact hcorpse
    · rw [hk.zombie u q hut hu, hk.pc u hut]
      exact h.corpse u q (hk.mp u q hu)
  · have hut : u ≠ t := fun e => hborn (e ▸ he)
    rw [hk.pc u hut]
    exact h.fresh u q (hk.mp u q hu) (hk.embryo u q hut hu he)
  · by_cases hut : u = t
    · subst hut
      obtain rfl := hown q hu
      rw [hk.pc v hvu]
      rcases hlast hst with hst | hsib
      · exact h.alone u v q hmp (hk.mp v q hv) hst hvu
      · exact h.dead_of_last hsib (hk.mp v q hv) hvu
    · rw [hk.pc u hut] at hst
      have hdead := h.alone u v q (hk.mp u q hu) (hk.mp v q hv) hst hvu
      rw [hk.pc v fun e => hlive (e ▸ hdead)]
      exact hdead
  · by_cases hut : u = t
    · rw [hut]
      exact hsleep e
    · rw [hk.pc u hut]
      exact h.awake u e
  · rcases hexited q hq with ⟨hq, hstay⟩ | ⟨rfl, hpc⟩
    · obtain ⟨u, hu, hpc⟩ := h.exited q hq
      refine ⟨u, hk.mp_of_ne_dead h hu (by rw [hpc]; decide), ?_⟩
      by_cases hut : u = t
      · subst hut
        exact hstay (Option.some.inj (hu.symm.trans hmp)) hpc
      · rw [hk.pc u hut]
        exact hpc
    · exact ⟨t, hmp', hpc⟩
  · by_cases hut : u = t
    · subst hut
      obtain rfl := hown q hu
      rcases hproc with hpl | ⟨_, hcwd, _⟩
      · exact hpl.cwd.mpr hst
      · exact hcwd
    · rw [hk.cwd q (hother u q hu hut (by rw [hst]; decide))]
      rw [hk.pc u hut] at hst
      exact h.gone u q (hk.mp u q hu) hst
  · by_cases hqp : q = p
    · subst hqp
      rcases hproc with hpl | ⟨hz, _⟩
      · exact ⟨t, hmp', hpl.cwd.mp hcwd⟩
      · rw [hz] at hq
        exact absurd hq (by decide)
    · rw [hk.cwd q hqp] at hcwd
      obtain ⟨u, hu, hst⟩ := h.here q ((hk.live hqp (lt_trans (by decide) hq)).2 hq) hcwd
      have hut : u ≠ t := fun e => hqp (Option.some.inj (hu.symm.trans (e ▸ hmp)))
      refine ⟨u, hk.mp_of_ne_dead h hu (fun e => ?_), by rw [hk.pc u hut]; exact hst⟩
      rw [e] at hst
      cases hst
  · by_cases hut : u = t
    · exact hfork np n (hut ▸ hu)
    · rw [hk.pc u hut] at hu
      rw [hk.cwd np (hnp u np n hu)]
      exact h.forked u np n hu
  · by_cases hut : u = t
    · subst hut
      obtain rfl := hown q hu
      rcases hproc with hpl | ⟨_, _, _, h0⟩
      · rw [hpl.drops, if_pos hst]
      · rw [h0] at hst
        exact absurd hst (by decide)
    · rw [hk.drops q (hother u q hu hut (by omega))]
      rw [hk.pc u hut] at hst
      exact h.dropped u q (hk.mp u q hu) hst
  · by_cases hqp : q = p
    · subst hqp
      rcases hproc with hpl | ⟨hz, _⟩
      · rw [hpl.drops, if_neg (not_le.mpr (hlow t hmp'))]
      · rw [hz] at hq
        exact absurd hq (lt_irrefl _)
    · rw [hk.drops q hqp]
      refine h.kept q (hk.live hqp hq).1 fun u hu => ?_
      have hut : u ≠ t := fun e => hqp (Option.some.inj (hu.symm.trans (e ▸ hmp)))
      by_cases hpc : s.pc u = .dead
      · rw [hpc]
        decide
      · rw [← hk.pc u hut]
        exact hlow u (hk.mp_of_ne_dead h hu hpc)
  · by_cases hqp : q = p
    · subst hqp
      rcases hproc with hpl | ⟨_, hcwd, hdrops, _⟩
      · have := hpl.live
        rw [hq] at this
        exact absurd this (by decide)
      · exact ⟨hcwd, hdrops⟩
    · rw [hk.cwd q hqp, hk.drops q hqp]
      rcases hk.state q hqp with e | ⟨_, e⟩ | e
      · exact h.zombie q (e ▸ hq)
      · rw [hq] at e
        exact absurd e (by decide)
      · rw [hq] at e
        cases e

/-- A step of `t` after which its process is where it was, and `t` is at `k`. -/
theorem Exits.goes (hnp : ∀ u np n, s.pc u = .forkRun np n → np ≠ p) (hpl : Placed s p t)
    (hk : Keeps s s₁ p t) (hpc₁ : s₁.pc t = k)
    (hst : (s₁.thread t).state ≠ .zombie ∧ (s₁.thread t).state ≠ .embryo)
    (hp : .embryo < (s₁.proc p).state ∧ (s₁.proc p).cwd = (s.proc p).cwd ∧ s₁.drops p = s.drops p)
    (hkst : k.stage = (s.pc t).stage) (hkdead : k ≠ .dead ∧ ∀ e, k ≠ .exitSleep e)
    (hfork : ∀ np n, k = .forkRun np n → (s₁.proc np).cwd ≠ none)
    (hexited : ∀ q, (s₁.proc q).exited = true →
      (s.proc q).exited = true ∧ (q = p → s.pc t = .execSleep → k = .execSleep) ∨
      q = p ∧ k = .execSleep) : Exits s₁ := by
  subst hpc₁
  refine hk.exits h hrun hmp hst.2 ?_ (fun hne => .inl (hkst ▸ hne)) hkdead.2 hfork hnp hexited
    (.inl ⟨hp.1, ?_, ?_⟩)
  · exact iff_of_false hst.1 hkdead.1
  · rw [hp.2.1, hkst]
    exact hpl.cwd
  · rw [hp.2.2, hkst]
    exact hpl.drops

end OnCpu

/-! ## New processes and threads -/

theorem SameThread.of_eq (hthd : s'.thread u = s.thread u) (hpc : s'.pc u = s.pc u) :
    SameThread s s' u :=
  ⟨by rw [hthd], hpc, fun _ => by rw [hthd], fun _ => by rw [hthd]; exact id⟩

theorem SameDir.of_eq (hproc : s'.proc q = s.proc q) (hdrops : s'.drops q = s.drops q) :
    SameDir s s' q :=
  ⟨by rw [hproc], hdrops, .inl (by rw [hproc])⟩

/-- A process that is not ZOMBIE and none of whose threads is in `exit` has its directory. -/
theorem Exits.idle_drops (h : Exits s) (hq : .zombie < (s.proc q).state)
    (hno : ∀ u, (s.thread u).mp = some q → (s.pc u).stage = 0) : s.drops q = 0 :=
  h.kept q hq fun u hu => by rw [hno u hu]; decide

/-- `allocproc` takes a slot without threads. -/
theorem Exits.newProc (h : Exits s) {np : ProcPtr} (hno : ∀ u, (s.thread u).mp ≠ some np) :
    Exits { s.setProc np fun q => { q with state := .embryo } with
      drops := fun q => if q = np then 0 else s.drops q } := by
  refine h.congr (fun u => .inl (.of_eq rfl rfl)) (fun q => ?_) (fun q hq => ?_) id
  · by_cases hqn : q = np
    · subst hqn
      exact .inr ⟨fun u hu => absurd hu (hno u), by simp, by simp, by simp, by simp⟩
    · exact .inl (.of_eq (by simp [hqn]) (if_neg hqn))
  · by_cases hqn : q = np <;> simpa [hqn] using hq

/-- `allocthd` gives a new thread to a process none of whose threads is in `exit`. -/
theorem Exits.setOwner (h : Exits s) (hn : (s.thread n).state = .embryo)
    (hno : (s.thread n).mp = none) (hq : ∀ u, (s.thread u).mp = some q → (s.pc u).stage = 0) :
    Exits ((s.setPc n .forkret).setThd n fun x => { x with mp := some q }) := by
  refine h.congr (fun u => ?_) (fun r => .inl (.of_eq rfl rfl)) (fun _ => id) id
  by_cases hun : u = n
  · subst hun
    refine .inr ⟨hno, by simp, by simpa using hn, fun r v hr hv => hq v ?_⟩
    simp only [setThd_thread, ↓reduceIte] at hr
    rw [hv, ← hr]
  · exact .inl (.of_eq (by simp [hun]) (by simp [hun]))

/-- `fork` gives its new process a directory. -/
theorem Exits.setCwd (h : Exits s) {np : ProcPtr} (hnp : (s.proc np).state = .embryo)
    (hno : ∀ u, (s.thread u).mp = some np → (s.pc u).stage = 0) (ip : InodePtr) :
    Exits (s.setProc np fun q => { q with cwd := some ip }) := by
  refine h.congr (fun u => .inl (.of_eq rfl rfl)) (fun q => ?_) (fun q hq => ?_) id
  · by_cases hqn : q = np
    · subst hqn
      exact .inr ⟨hno, by simp [hnp], h.idle_drops (by rw [hnp]; decide) hno, by simp, by simp⟩
    · exact .inl (.of_eq (by simp [hqn]) rfl)
  · by_cases hqn : q = np <;> simpa [hqn] using hq

/-- `fork` starts its new process, which has a directory. -/
theorem Exits.start (h : Exits s) {np : ProcPtr} (hnp : (s.proc np).state = .embryo)
    (hcwd : (s.proc np).cwd ≠ none) (hn : (s.thread n).state = .embryo)
    (hno : ∀ u, (s.thread u).mp = some np → (s.pc u).stage = 0) :
    Exits (s.setstate np n .runnable) := by
  have hstill : ∀ q, ((s.setstate np n .runnable).proc q).still = (s.proc q).still :=
    fun q => setstate_still
  have hcwd' : ((s.setstate np n .runnable).proc np).cwd ≠ none := fun e =>
    hcwd ((congrArg Proc.cwd (hstill np)).symm.trans e)
  refine h.congr (fun u => .inl ?_) (fun q => ?_) (fun q hq => ?_) (by simp)
  · by_cases hun : u = n
    · subst hun
      exact ⟨by simp, by simp, fun _ => by simp [hn], fun _ => by simp⟩
    · exact .of_eq (by simp [hun]) (by simp)
  · by_cases hqn : q = np
    · subst hqn
      refine .inr ⟨hno, ?_, ?_, fun _ => hcwd', fun _ => hcwd'⟩
      · rw [setstate_runnable]
        simp
      · rw [setstate_drops]
        exact h.idle_drops (by rw [hnp]; decide) hno
    · exact .inl (.of_eq (setstate_proc_of_ne hqn) (by rw [setstate_drops]))
  · exact (congrArg Proc.exited (hstill q)).symm.trans hq

/-! ## Every step -/

instance (s : Kernel) (p : ProcPtr) (t : ThdPtr) : Decidable (s.Sibling p t) :=
  inferInstanceAs (Decidable (∃ u, u ≠ t ∧ (s.thread u).mp = some p ∧ (s.thread u).state ≠ .zombie))

/-- `exit` is entered by the last thread of its process. -/
def LastExits (s : Kernel) : Act → Prop
  | .kstep c _ _ => ∀ pt ∈ s.onCpu c, (s.pc pt.2).entersExit → ¬ s.Sibling pt.1 pt.2
  | _ => True

instance (s : Kernel) : DecidablePred s.LastExits := fun a => by
  induction a using Act.casesOn <;>
    first | exact (s.onCpu _).decidableForallMem | exact isTrue trivial

/-- `thread_exit` ends a thread only while another thread of the process is alive. -/
def LeavesLive (s : Kernel) : Act → Prop
  | .kstep c _ _ => ∀ pt ∈ s.onCpu c, (s.pc pt.2).dies → s.LiveSibling pt.1 pt.2
  | _ => True

instance (s : Kernel) : DecidablePred s.LeavesLive := fun a => by
  induction a using Act.casesOn <;>
    first | exact (s.onCpu _).decidableForallMem | exact isTrue trivial

/-- The last live thread's death makes the process a ZOMBIE. -/
theorem dead_zombie (hmp : (s.thread t).mp = some p) (hlive : .embryo < (s.proc p).state)
    (hsib : ∀ u, u ≠ t → (s.thread u).mp = some p → (s.thread u).state = .zombie) :
    ((s.dead p t).proc p).state = .zombie := by
  refine le_antisymm ?_ (le_setstate hmp)
  unfold dead
  rw [setPc_proc, setstate_eq]
  simp only [setProc_proc, setThd_proc, ↓reduceIte]
  rw [if_neg (not_le.mpr (lt_trans (by decide) hlive)), maxThd_le_iff]
  intro u hu
  by_cases hut : u = t
  · simp [hut]
  · rw [setThd_thread, if_neg hut] at hu ⊢
    rw [hsib u hut hu]

theorem cpuShare_keeps (share : Word) : (((s.cpuShare p share).proc p).state = (s.proc p).state ∧
      ((s.cpuShare p share).proc p).cwd = (s.proc p).cwd) ∧
    ∀ q, ((s.cpuShare p share).proc q).exited = (s.proc q).exited := by
  obtain ⟨_, _, _, _, heq⟩ := setCpuShare_proc s.mlfq (s.proc p) share
  refine ⟨?_, fun q => ?_⟩
  · simp [cpuShare, heq]
  · by_cases hq : q = p <;> simp [cpuShare, hq, heq]

theorem adopt_exited : ((s.adopt p).proc q).exited = (s.proc q).exited := by
  unfold adopt
  dsimp only
  split <;> rfl

theorem asleep_still (c : Chan) (q : ProcPtr) :
    ((s.asleep p t c k).proc q).still = (s.proc q).still := by
  simp [asleep]

theorem asleep_live {chan : Chan} (hmp : (s.thread t).mp = some p) :
    .embryo < ((s.asleep p t chan k).proc p).state := by
  refine lt_of_lt_of_le (by decide : ProcState.embryo < .sleeping) ?_
  exact le_setstate (s := s.setThd t fun x => { x with chan := some chan }) (by simpa using hmp)

section OnCpu

variable (hcore : Core none s) (h : Exits s) (hrun : (s.thread t).state = .running)
  (hmp : (s.thread t).mp = some p)
include hcore h hrun hmp

omit h in
/-- Who runs is not being forked. -/
theorem child_ne_running {np : ProcPtr} (hnp : (s.pc u).hold.np = some np) : np ≠ p := by
  rintro rfl
  have hle := hcore.le_proc t np hmp
  rw [hrun, (hcore.child u np hnp).1] at hle
  exact absurd hle (by decide)

omit h in
theorem forkRun_ne_running : ∀ u np n, s.pc u = .forkRun np n → np ≠ p := fun u np n hu =>
  child_ne_running (u := u) hcore hrun hmp (by rw [hu]; rfl)

/-- A step outside `exit` and the waiting of `exec`, or inside `exit` with the directory as it
was. -/
theorem Exits.moves (hk : Keeps s s₁ p t)
    (hst : (s₁.thread t).state ≠ .zombie ∧ (s₁.thread t).state ≠ .embryo)
    (hp : .embryo < (s₁.proc p).state ∧ (s₁.proc p).cwd = (s.proc p).cwd ∧ s₁.drops p = s.drops p)
    (hex : ∀ q, (s₁.proc q).exited = true → (s.proc q).exited = true ∧ (q = p → s.pc t ≠ .execSleep))
    (hkst : k.stage = (s.pc t).stage) (hkd : k ≠ .dead ∧ ∀ e, k ≠ .exitSleep e)
    (hfork : ∀ np n, k = .forkRun np n → (s₁.proc np).cwd ≠ none) : Exits (s₁.setPc t k) := by
  refine h.goes hrun hmp (forkRun_ne_running hcore hrun hmp) (h.placed hcore hrun hmp)
    (hk.trans keeps_setPc) (by simp) hst hp hkst hkd hfork fun q hq => .inl ?_
  obtain ⟨h1, h2⟩ := hex q hq
  exact ⟨h1, fun hqp he => absurd he (h2 hqp)⟩

/-- `t` falls asleep. -/
theorem Exits.asleep {chan : Chan} (hk : Keeps s s₁ p t) (hmp₁ : (s₁.thread t).mp = some p)
    (hp : (s₁.proc p).cwd = (s.proc p).cwd ∧ s₁.drops p = s.drops p)
    (hex : ∀ q, (s₁.proc q).exited = true →
      (s.proc q).exited = true ∧ (q = p → s.pc t = .execSleep → k = .execSleep) ∨
      q = p ∧ k = .execSleep)
    (hkst : k.stage = (s.pc t).stage) (hkd : k ≠ .dead ∧ ∀ e, k ≠ .exitSleep e)
    (hfork : ∀ np n, k ≠ .forkRun np n) : Exits (s₁.asleep p t chan k) := by
  have hpl := h.placed hcore hrun hmp
  have hcwd : ((s₁.asleep p t chan k).proc p).cwd = (s₁.proc p).cwd := by
    have := congrArg Proc.cwd (asleep_still (s := s₁) (p := p) (t := t) (k := k) chan p)
    exact this
  refine h.goes hrun hmp (forkRun_ne_running hcore hrun hmp) hpl (hk.trans keeps_asleep)
    (by simp [Kernel.asleep]) (by simp [Kernel.asleep]) ⟨asleep_live hmp₁, hcwd.trans hp.1, ?_⟩
    hkst hkd (fun np n e => absurd e (hfork np n)) fun q hq => hex q ?_
  · simpa [Kernel.asleep] using hp.2
  · have := congrArg Proc.exited (asleep_still (s := s₁) (p := p) (t := t) (k := k) chan q)
    exact this.symm.trans hq

/-- `t` moves to another stage of `exit`, or changes the directory outside `exit`. -/
theorem Exits.advance (hk : Keeps s s₁ p t) (hthd : s₁.thread t = s.thread t)
    (hex : ∀ q, (s₁.proc q).exited = (s.proc q).exited) (hsleep : s.pc t ≠ .execSleep)
    (hlast : k.stage ≠ 0 → (s.pc t).stage ≠ 0 ∨ ¬ s.Sibling p t)
    (hkd : k ≠ .dead ∧ (∀ e, k ≠ .exitSleep e) ∧ ∀ np n, k ≠ .forkRun np n)
    (hlive : .embryo < (s₁.proc p).state) (hcwd : (s₁.proc p).cwd = none ↔ k.stage = 3)
    (hdrops : s₁.drops p = if 2 ≤ k.stage then 1 else 0) : Exits (s₁.setPc t k) := by
  have hpc : (s₁.setPc t k).pc t = k := by simp
  refine (hk.trans keeps_setPc).exits h hrun hmp ?_ ?_ ?_ ?_ (fun np n e => ?_)
    (forkRun_ne_running hcore hrun hmp) (fun q hq => .inl ⟨(hex q).symm.trans hq, fun _ he => ?_⟩)
    (.inl ⟨hlive, ?_, ?_⟩)
  · rw [setPc_thread, hthd, hrun]
    decide
  · rw [setPc_thread, hthd, hrun, hpc]
    exact iff_of_false (by decide) hkd.1
  · rw [hpc]
    exact hlast
  · rw [hpc]
    exact hkd.2.1
  · exact absurd (hpc.symm.trans e) (hkd.2.2 np n)
  · exact absurd he hsleep
  · rw [hpc]
    exact hcwd
  · rw [hpc]
    exact hdrops

/-- `exit` is entered by the last thread. -/
theorem Exits.enter {e : ExitCaller} (hpc : s.pc t = .exitEntry e) (hsib : ¬ s.Sibling p t) :
    Exits (s.setPc t (.exitClose e 0)) := by
  have hpl := h.placed hcore hrun hmp
  refine h.advance hcore hrun hmp (.refl s) rfl (fun _ => rfl) (by simp [hpc]) (fun _ => .inr hsib)
    (by simp) hpl.live ?_ ?_
  · simpa [hpc, Pc.stage] using hpl.cwd
  · simpa [hpc, Pc.stage] using hpl.drops

/-- `exit` drops the directory: it has not done so before. -/
theorem Exits.put {e : ExitCaller} (hpc : s.pc t = .exitPut e) :
    Exits ({ s with drops := fun q => if q = p then s.drops p + 1 else s.drops q }.setPc t
      (.exitCwd e)) := by
  have hpl := h.placed hcore hrun hmp
  have hk : Keeps s { s with drops := fun q => if q = p then s.drops p + 1 else s.drops q } p t :=
    { Keeps.refl s with drops := fun q hq => if_neg hq }
  refine h.advance hcore hrun hmp hk rfl (fun _ => rfl) (by simp [hpc]) (fun _ => .inl ?_) (by simp)
    hpl.live ?_ ?_
  · simp [hpc, Pc.stage]
  · simpa [hpc, Pc.stage] using hpl.cwd
  · simpa [hpc, Pc.stage] using hpl.drops

/-- `exit` forgets the directory. -/
theorem Exits.forget {e : ExitCaller} (hpc : s.pc t = .exitCwd e) :
    Exits ((s.setProc p fun q => { q with cwd := none }).setPc t (.exitShare e)) := by
  have hpl := h.placed hcore hrun hmp
  refine h.advance hcore hrun hmp (keeps_setProc fun hne => absurd rfl hne) rfl (setProc_keeps Proc.exited rfl)
    (by simp [hpc]) (fun _ => .inl ?_) (by simp) ?_ ?_ ?_
  · simp [hpc, Pc.stage]
  · simpa using hpl.live
  · simp [Pc.stage]
  · simpa [hpc, Pc.stage] using hpl.drops

/-- A directory is set, outside `exit`. -/
theorem Exits.chdir {ip : InodePtr} (hpc : s.pc t = .chdirSet ip) :
    Exits ((s.setProc p fun q => { q with cwd := some ip }).setPc t .sysret) := by
  have hpl := h.placed hcore hrun hmp
  refine h.advance hcore hrun hmp (keeps_setProc fun hne => absurd rfl hne) rfl (setProc_keeps Proc.exited rfl)
    (by simp [hpc]) (absurd rfl) (by simp) ?_ ?_ ?_
  · simpa using hpl.live
  · simp [Pc.stage]
  · simpa [hpc, Pc.stage] using hpl.drops

/-- `t` dies, and leaves its process alive or a ZOMBIE without a directory. -/
theorem Exits.dies (hk : Keeps s s₁ p t)
    (hex : ∀ q, (s₁.proc q).exited = true → (s.proc q).exited = true) (hsleep : s.pc t ≠ .execSleep)
    (hproc : .embryo < ((s₁.dead p t).proc p).state ∧ (s₁.proc p).cwd ≠ none ∧ s₁.drops p = 0 ∨
      ((s₁.dead p t).proc p).state = .zombie ∧ (s₁.proc p).cwd = none ∧ s₁.drops p = 1) :
    Exits (s₁.dead p t) := by
  have hstill : ∀ q, ((s₁.dead p t).proc q).still = (s₁.proc q).still := by simp [dead]
  have hcwd : ((s₁.dead p t).proc p).cwd = (s₁.proc p).cwd := by
    have := congrArg Proc.cwd (hstill p)
    exact this
  have hdrops : (s₁.dead p t).drops = s₁.drops := by simp [dead]
  have hpc : (s₁.dead p t).pc t = .dead := by simp [dead]
  refine (hk.trans (keeps_setstate.trans keeps_setPc)).exits h hrun hmp (by simp [dead])
    (by simp [dead]) (fun hne => absurd (congrArg Pc.stage hpc) hne) (by simp [dead])
    (by simp [dead]) (forkRun_ne_running hcore hrun hmp)
    (fun q hq => .inl ⟨hex q ?_, fun _ he => absurd he hsleep⟩) (hproc.imp (fun hp => ?_) fun hp => ?_)
  · have := congrArg Proc.exited (hstill q)
    exact this.symm.trans hq
  · refine ⟨hp.1, ?_, ?_⟩
    · rw [hcwd, hpc]
      exact iff_of_false hp.2.1 (by decide)
    · rw [hdrops, hpc]
      exact hp.2.2
  · exact ⟨hp.1, hcwd.trans hp.2.1, (congrFun hdrops p).trans hp.2.2, congrArg Pc.stage hpc⟩

/-- The thread in `exit` dies: it was the last one. -/
theorem Exits.finish (hstage : (s.pc t).stage = 3) (hsib : ¬ s.Sibling p t)
    (h₁ : Calm ((s.setExited p false).adopt p) s₁) :
    Exits (s₁.dead p t) := by
  have hpl := h.placed hcore hrun hmp
  have hk : Keeps s ((s.setExited p false).adopt p) p t :=
    (keeps_setProc fun hne => absurd rfl hne).trans (keeps_adopt)
  have hproc₀ : (((s.setExited p false).adopt p).proc p).state =
      (s.proc p).state ∧ (((s.setExited p false).adopt p).proc p).cwd =
      (s.proc p).cwd := by
    simp only [adopt, setProc_proc, ↓reduceIte]
    split <;> exact ⟨rfl, rfl⟩
  have hlive₁ : .embryo < (s₁.proc p).state := by
    rcases h₁.live p with e | ⟨_, e⟩
    · rw [e, hproc₀.1]
      exact hpl.live
    · exact e
  refine h.dies hcore hrun hmp (hk.trans h₁.keeps) (fun q hq => ?_) (fun he => ?_) (.inr ⟨?_, ?_, ?_⟩)
  · rw [h₁.exited, adopt_exited, setProc_proc] at hq
    split at hq
    · cases hq
    · exact hq
  · rw [he] at hstage
    cases hstage
  · refine dead_zombie ((h₁.mp t).trans hmp) hlive₁ fun u hut hu => ?_
    by_contra hz
    refine hsib (h₁.sibling.mp ⟨u, hut, hu, hz⟩)
  · rw [h₁.cwd, hproc₀.2]
    exact hpl.cwd.mpr hstage
  · rw [h₁.drops]
    exact (hpl.drops).trans (by rw [hstage]; rfl)

/-- The thread dies in `thread_exit` and leaves a live one behind. -/
theorem Exits.die {retval : Word} (hpc : s.pc t = .threadExitDie retval) (hsib : s.LiveSibling p t)
    (hcore₁ : Core none s₁) (h₁ : Calm s s₁) : Exits (s₁.dead p t) := by
  have hpl := h.placed hcore hrun hmp
  refine h.dies hcore hrun hmp h₁.keeps (fun q hq => (h₁.exited q).symm.trans hq) (by simp [hpc])
    (.inl ⟨hsib.dead h₁ hcore₁, ?_, ?_⟩)
  · rw [h₁.cwd]
    simpa [hpc, Pc.stage] using hpl.cwd
  · rw [h₁.drops]
    simpa [hpc, Pc.stage] using hpl.drops

end OnCpu

/-- Every step of a thread keeps the invariant. -/
theorem Exits.effect (hcore : Core none s) (h : Exits s) (hlast : LastExits s a)
    (hleave : LeavesLive s a) (hon : s.onCpu c = some (p, t)) (heff : Effect s a c p t s') :
    Exits s' := by
  obtain ⟨hrun, hmp⟩ := onCpu_running hcore hon
  have hpl := h.placed hcore hrun hmp
  have hnp : ∀ np, (s.pc t).hold.np = some np → np ≠ p := fun np =>
    child_ne_running hcore hrun hmp
  have hforks : ∀ u np n, s.pc u = .forkRun np n → np ≠ p := forkRun_ne_running hcore hrun hmp
  have hst : (s.thread t).state ≠ .zombie ∧ (s.thread t).state ≠ .embryo := by
    rw [hrun]
    exact ⟨by decide, by decide⟩
  have hsame : .embryo < (s.proc p).state ∧ (s.proc p).cwd = (s.proc p).cwd ∧
      s.drops p = s.drops p := ⟨hpl.live, rfl, rfl⟩
  -- the process's own record, or another one, changes in fields `exit` leaves alone
  have hself : ∀ f : Proc → Proc, (f (s.proc p)).state = (s.proc p).state →
      (f (s.proc p)).cwd = (s.proc p).cwd →
      .embryo < ((s.setProc p f).proc p).state ∧ ((s.setProc p f).proc p).cwd = (s.proc p).cwd ∧
        (s.setProc p f).drops p = s.drops p := by
    intro f h1 h2
    rw [setProc_proc, if_pos rfl, h1]
    exact ⟨hpl.live, h2, rfl⟩
  have hother : ∀ np, np ≠ p → ∀ f : Proc → Proc,
      .embryo < ((s.setProc np f).proc p).state ∧ ((s.setProc np f).proc p).cwd = (s.proc p).cwd ∧
        (s.setProc np f).drops p = s.drops p := by
    intro np hne f
    rw [setProc_proc, if_neg hne.symm]
    exact hsame
  -- a step outside `exit` and outside the waiting of `exec`
  have hgo : ∀ (s₁ : Kernel) (k : Pc), Keeps s s₁ p t →
      ((s₁.thread t).state ≠ .zombie ∧ (s₁.thread t).state ≠ .embryo) →
      (.embryo < (s₁.proc p).state ∧ (s₁.proc p).cwd = (s.proc p).cwd ∧ s₁.drops p = s.drops p) →
      (∀ q, (s₁.proc q).exited = (s.proc q).exited) → (s.pc t).ordinary → k.plain →
      Calm (s₁.setPc t k) s' → Exits s' := by
    intro s₁ k hk hst₁ hp hex hpc hkp hc
    have ho := Pc.ordinary_of_plain hkp
    refine hc.exits (h.moves hcore hrun hmp hk hst₁ hp (fun q hq => ⟨hex q ▸ hq, fun _ he => ?_⟩)
      ?_ (Pc.ne_of_ordinary ho) ?_)
    · rw [he] at hpc
      cases hpc
    · rw [Pc.stage_of_ordinary ho, Pc.stage_of_ordinary hpc]
    · rintro np n rfl
      cases hkp
  -- the same from a state that differs from `s` in another process or an unborn thread
  have hfrom : ∀ (r : Kernel) (k : Pc), Exits r → r.thread t = s.thread t → r.pc t = s.pc t →
      (∀ u np n, r.pc u = .forkRun np n → np ≠ p) → r.proc p = s.proc p → r.drops p = s.drops p →
      (s.pc t).ordinary → k.ordinary → (∀ np n, k = .forkRun np n → (r.proc np).cwd ≠ none) →
      Calm (r.setPc t k) s' → Exits s' := by
    intro r k hr hthd hpct hforkr hproc hdrops hpc ho hfork hc
    have hplr : Placed r p t := by
      refine ⟨by rw [hproc]; exact hpl.live, ?_, ?_⟩
      · rw [hproc, hpct]
        exact hpl.cwd
      · rw [hdrops, hpct]
        exact hpl.drops
    refine hc.exits (hr.goes (hthd ▸ hrun) (hthd ▸ hmp) hforkr hplr keeps_setPc (by simp)
      (by rw [setPc_thread, hthd]; exact hst) ⟨hplr.live, rfl, rfl⟩ ?_ (Pc.ne_of_ordinary ho) hfork
      fun q hq => .inl ⟨hq, fun _ he => ?_⟩)
    · rw [hpct, Pc.stage_of_ordinary ho, Pc.stage_of_ordinary hpc]
    · rw [hpct] at he
      rw [he] at hpc
      cases hpc
  cases heff with
  | calm hc => exact hc.exits h
  | move hpc hk _ hc => exact hgo s _ (.refl s) hst hsame (fun _ => rfl) hpc hk hc
  | threadExit hpc _ hc =>
    refine hc.exits (h.moves hcore hrun hmp (.refl s) hst hsame (fun q hq => ⟨hq, fun _ => ?_⟩) ?_
      ⟨by simp, by simp⟩ (by simp))
    · simp [hpc]
    · rw [hpc]
      rfl
  | nullInode hpc hcwd _ => exact absurd (hpl.cwd.mp hcwd) (Pc.stage_of_usesCwd hpc).1
  | @sleep k chan hpc hk _ _ hc =>
    have ho : k.ordinary ∧ ∀ np n, k ≠ .forkRun np n := by
      rcases hk with rfl | hk
      · exact ⟨rfl, by simp⟩
      · refine ⟨Pc.ordinary_of_plain hk, ?_⟩
        rintro np n rfl
        cases hk
    refine hc.exits (h.asleep hcore hrun hmp (.refl s) hmp ⟨rfl, rfl⟩
      (fun q hq => .inl ⟨hq, fun _ he => ?_⟩) ?_ (Pc.ne_of_ordinary ho.1) ho.2)
    · rw [he] at hpc
      cases hpc
    · rw [Pc.stage_of_ordinary ho.1, Pc.stage_of_ordinary hpc]
  | exitEnter ha hpc _ hc =>
    obtain ⟨ok, page, rfl⟩ := ha
    exact hc.exits (h.enter hcore hrun hmp hpc (hlast (p, t) hon (by rw [hpc]; rfl)))
  | exitClose hpc hc =>
    refine hc.exits (h.moves hcore hrun hmp (.refl s) hst hsame (fun q hq => ⟨hq, fun _ => ?_⟩) ?_
      ⟨by simp, by simp⟩ (by simp))
    · simp [hpc]
    · rw [hpc]
      rfl
  | @exitNext e fd hpc hc =>
    have hbehind : (e.behind fd).stage = 1 ∧ (e.behind fd ≠ .dead ∧
        ∀ e', e.behind fd ≠ .exitSleep e') ∧ ∀ np n, e.behind fd ≠ .forkRun np n := by
      unfold ExitCaller.behind
      split <;> simp [Pc.stage]
    have hpc' : (s.pc t).stage = 1 ∧ s.pc t ≠ .execSleep := by
      rcases hpc with ⟨hpc, _⟩ | hpc <;> simp [hpc, Pc.stage]
    refine hc.exits (h.moves hcore hrun hmp (keeps_setProc fun hne => absurd rfl hne) hst
      (hself _ rfl rfl) (fun q hq => ⟨?_, fun _ => hpc'.2⟩) (hbehind.1.trans hpc'.1.symm) hbehind.2.1
      fun np n e => absurd e (hbehind.2.2 np n))
    rwa [setProc_keeps Proc.exited rfl] at hq
  | exitPut hpc _ hc => exact hc.exits (h.put hcore hrun hmp hpc)
  | exitCwd hpc hc => exact hc.exits (h.forget hcore hrun hmp hpc)
  | exitShare hpc hc =>
    obtain ⟨hkeep, hex⟩ := cpuShare_keeps 0
    refine hc.exits (h.moves hcore hrun hmp (keeps_cpuShare 0) hst ⟨?_, hkeep.2, rfl⟩
      (fun q hq => ⟨(hex q).symm.trans hq, fun _ => by simp [hpc]⟩) ?_ ⟨by simp, by simp⟩ (by simp))
    · rw [hkeep.1]
      exact hpl.live
    · rw [hpc]
      rfl
  | await hpc _ hsib hc =>
    rcases hpc with ⟨hpc, _⟩ | ⟨hpc, rfl⟩
    · exact absurd hsib (h.last_of_stage hmp (by simp [hpc, Pc.stage])).1
    · refine hc.exits (h.asleep hcore hrun hmp (keeps_setProc fun hne => absurd rfl hne) hmp
        (hself _ rfl rfl).2 (fun q hq => ?_) (by rw [hpc]; rfl) ⟨by simp, by simp⟩ (by simp))
      by_cases hqp : q = p
      · exact .inr ⟨hqp, rfl⟩
      · rw [setProc_proc, if_neg hqp] at hq
        exact .inl ⟨hq, fun e => absurd e hqp⟩
  | awaitAgain hpc _ hc =>
    rcases hpc with hpc | hpc
    · exact absurd hpc (h.awake t _)
    · refine hc.exits (h.asleep hcore hrun hmp (.refl s) hmp ⟨rfl, rfl⟩
        (fun q hq => .inl ⟨hq, fun _ he => he⟩) rfl ?_ ?_)
      · rw [hpc]
        exact ⟨by simp, by simp⟩
      · simp [hpc]
  | exitBack hpc hwhy _ =>
    obtain ⟨hsib, hex⟩ := h.last_of_stage (t := t) hmp (by
      rcases hpc with hpc | hpc <;> simp [hpc, Pc.stage])
    rcases hwhy with ⟨hex', _⟩ | hsib'
    · cases hex.symm.trans hex'
    · exact absurd hsib' hsib
  | execBack hpc hc =>
    refine hc.exits (h.moves hcore hrun hmp (keeps_setProc fun hne => absurd rfl hne) hst
      (hself _ rfl rfl) (fun q hq => ?_) (by rw [hpc]; rfl) ⟨by simp, by simp⟩ (by simp))
    by_cases hqp : q = p
    · simp [hqp] at hq
    · rw [setProc_proc, if_neg hqp] at hq
      exact ⟨hq, fun e => absurd e hqp⟩
  | execDone hpc _ hc =>
    have hk : Keeps s (s.setExited p false) p t :=
      keeps_setProc fun hne => absurd rfl hne
    refine hc.exits (h.moves hcore hrun hmp (hk.trans (keeps_freeAll fun u hu => ⟨hu.1, hu.2.2⟩)) ?_
      ?_ (fun q hq => ?_) ?_ ⟨by simp, by simp⟩ (by simp))
    · rw [freeAll_thread, if_neg (by simp)]
      exact hst
    · rw [freeAll_proc, freeAll_drops]
      exact hself _ rfl rfl
    · rw [freeAll_proc] at hq
      by_cases hqp : q = p
      · simp [hqp] at hq
      · rw [setProc_proc, if_neg hqp] at hq
        exact ⟨hq, fun e => absurd e hqp⟩
    · rcases hpc with ⟨hpc, _⟩ | hpc <;> rw [hpc] <;> rfl
  | exitFinish hpc hsib _ h₁ _ _ hc =>
    refine hc.exits (h.finish hcore hrun hmp ?_ hsib h₁)
    rcases hpc with ⟨hpc, _⟩ | hpc <;> rw [hpc] <;> rfl
  | die ha hpc hcore₁ h₁ hc =>
    obtain ⟨ok, page, rfl⟩ := ha
    exact hc.exits (h.die hcore hrun hmp hpc (hleave (p, t) hon (by rw [hpc]; rfl)) hcore₁ h₁)
  | @join u hpc _ hz hc =>
    have hut : u ≠ t := by
      rintro rfl
      exact hst.1 hz
    refine hgo _ _ (keeps_freeThd hut hz) ?_ ?_ (fun q => by simp) hpc rfl hc
    · rw [freeThd_thread, if_neg hut.symm]
      exact hst
    · rw [freeThd_proc, freeThd_drops]
      exact hsame
  | @reap q s₁ hpc h₁ _ hz hc =>
    have hz₀ : (s.proc q).state = .zombie := (h₁.low (by rw [hz]; decide)).trans hz
    have hqp : p ≠ q := by
      rintro rfl
      have := hpl.live
      rw [hz₀] at this
      exact absurd this (by decide)
    have hk : Keeps s₁ (s₁.freeAll fun _ x => x.mp = some q) p t := by
      refine keeps_freeAll fun u hu => ⟨?_, ?_⟩
      · rintro rfl
        rw [h₁.mp, hmp] at hu
        exact hqp (Option.some.inj hu)
      · rw [h₁.mp] at hu
        exact (h₁.zombie u (by simp [hu])).mpr (hcore.zombie_threads hz₀ hu)
    have hreset : ∀ r : Kernel, Keeps r (r.setProc q Proc.reaped) p t ∧
        ∀ x, ((r.setProc q Proc.reaped).proc x).exited = (r.proc x).exited :=
      fun r => ⟨keeps_setProc fun _ => ⟨rfl, .inr rfl⟩, setProc_keeps Proc.exited rfl⟩
    rw [reap_eq] at hc
    refine hgo _ _ (h₁.keeps.trans (hk.trans (hreset _).1)) ?_ ?_ (fun r => ?_) hpc rfl hc
    · rw [setProc_thread, freeAll_thread, h₁.mp, hmp, if_neg (by simpa using hqp)]
      exact ⟨fun e => hst.1 ((h₁.zombie t (by simp [hmp])).mp e),
        fun e => hst.2 (h₁.embryo t (by simp [hmp]) e)⟩
    · rw [setProc_proc, if_neg hqp, freeAll_proc, setProc_drops, freeAll_drops, h₁.cwd, h₁.drops]
      refine ⟨?_, rfl, rfl⟩
      rcases h₁.live p with e | ⟨_, e⟩
      · rw [e]
        exact hpl.live
      · exact e
    · rw [(hreset _).2, freeAll_proc]
      exact h₁.exited r
  | cpuShare _ hpc hc =>
    obtain ⟨hkeep, hex⟩ := cpuShare_keeps _
    refine hgo _ _ (keeps_cpuShare _) hst ⟨?_, hkeep.2, rfl⟩ hex (by rw [hpc]; rfl) rfl hc
    rw [hkeep.1]
    exact hpl.live
  | @allocproc np hpc hnp' hc =>
    have hno : ∀ u, (s.thread u).mp ≠ some np := fun u hu => by
      have hle := hcore.le_proc u np hu
      rw [hnp'] at hle
      rw [hcore.free u (le_antisymm hle bot_le)] at hu
      cases hu
    have hne : p ≠ np := fun e => hno t (e ▸ hmp)
    refine hfrom _ _ (h.newProc hno) rfl rfl hforks ?_ ?_
      (by rw [hpc]; rfl) rfl (by simp) hc
    · simp [hne]
    · exact if_neg hne
  | @forkFail np hpc hhold hc =>
    have hne := hnp np hhold
    refine hgo _ _ (keeps_setProc fun _ => ⟨rfl, .inr rfl⟩) hst (hother np hne _)
      (setProc_keeps Proc.exited rfl) hpc rfl hc
  | @allocOwner n q k hpc hk hn hno hq _ hc =>
    have hnt : t ≠ n := by
      rintro rfl
      cases hno.symm.trans hmp
    have hthds : ∀ u, (s.thread u).mp = some q → (s.pc u).stage = 0 := by
      intro u hu
      rcases hq with ⟨hhold, howned⟩ | ⟨rfl, _⟩
      · cases ((hcore.child t q hhold).2.1 u hu).2.symm.trans howned
      · by_cases hut : u = t
        · rw [hut]
          exact Pc.stage_of_ordinary hpc
        · exact h.stage_other hrun hmp hu hut
    refine hfrom _ _ (h.setOwner hn hno hthds) (by simp [hnt]) (by simp [hnt]) (fun u np m hu => ?_) rfl
      rfl hpc (Pc.ordinary_of_plain hk) ?_ hc
    · by_cases hun : u = n
      · simp [hun] at hu
      · exact hforks u np m (by simpa [hun] using hu)
    · rintro np m rfl
      cases hk
  | @forkInit np n hpc hc =>
    have hne := hnp np (by rw [hpc]; rfl)
    exact hgo _ _ (keeps_setProc fun _ => ⟨rfl, .inl rfl⟩) hst (hother np hne _) (setProc_keeps Proc.exited rfl)
      (by rw [hpc]; rfl) rfl hc
  | @forkFile np n fd f k hpc hk _ hc =>
    have hne := hnp np (by rw [hpc]; rfl)
    exact hgo _ _ (keeps_setProc fun _ => ⟨rfl, .inl rfl⟩) hst (hother np hne _) (setProc_keeps Proc.exited rfl)
      (by rw [hpc]; rfl) hk hc
  | @forkCwd np n ip hpc hc =>
    have hhold : (s.pc t).hold.np = some np := by
      rw [hpc]
      rfl
    have hne := hnp np hhold
    obtain ⟨hnp', hthds, _⟩ := hcore.child t np hhold
    refine hfrom _ _ (h.setCwd hnp' (fun u hu => ?_) ip) rfl rfl hforks ?_
      rfl (by rw [hpc]; rfl) rfl ?_ hc
    · exact h.fresh u np hu (hcore.slot t u (hthds u hu).1).1
    · simp [hne.symm]
    · rintro np' n' ⟨⟩
      simp
  | @forkRun np n hpc hc =>
    have hhold : (s.pc t).hold.np = some np := by
      rw [hpc]
      rfl
    have hne := hnp np hhold
    obtain ⟨hnp', hthds, _⟩ := hcore.child t np hhold
    obtain ⟨hn, _⟩ := hcore.slot t n (by rw [hpc]; rfl)
    have hnt : t ≠ n := by
      rintro rfl
      exact hst.2 hn
    refine hfrom _ _ (h.start hnp' (h.forked t np n hpc) hn fun u hu => ?_) ?_ ?_ ?_ ?_ ?_
      (by rw [hpc]; rfl) rfl (by simp) hc
    · exact h.fresh u np hu (hcore.slot t u (hthds u hu).1).1
    · rw [setstate_thread, if_neg hnt]
    · rw [setstate_pc]
    · rw [setstate_pc]
      exact hforks
    · exact setstate_proc_of_ne hne.symm
    · rw [setstate_drops]
  | chdirSet _ hpc hc => exact hc.exits (h.chdir hcore hrun hmp hpc)
  | ofile _ hpc hc =>
    refine hc.exits (h.goes hrun hmp hforks hpl
      (keeps_setProc fun hne => absurd rfl hne) rfl hst (hself _ rfl rfl) rfl ?_ ?_ fun q hq => .inl ⟨?_, ?_⟩)
    · rw [setProc_pc, hpc]
      exact ⟨by simp, by simp⟩
    · rw [setProc_pc, hpc]
      simp
    · rwa [setProc_keeps Proc.exited rfl] at hq
    · exact fun _ he => he

/-! ## Whole runs -/

/-- A thread stays where it is while others run. -/
theorem Effect.pc_other (heff : Effect s a c p t s') (hut : u ≠ t) (hu : (s.thread u).mp ≠ none) :
    s'.pc u = s.pc u := by
  have hmove : ∀ (s₁ : Kernel) (k : Pc), Calm (s₁.setPc t k) s' → s₁.pc u = s.pc u →
      s'.pc u = s.pc u := by
    intro s₁ k hc h₁
    rw [hc.pc, setPc_pc, if_neg hut, h₁]
  cases heff with
  | calm hc => rw [hc.pc]
  | nullInode _ _ hs' =>
    subst hs'
    rfl
  | move _ _ _ hc | threadExit _ _ hc | exitEnter _ _ _ hc | exitClose _ hc | exitNext _ hc
  | exitPut _ _ hc | exitCwd _ hc | exitShare _ hc | exitBack _ _ hc | execBack _ hc
  | cpuShare _ _ hc | allocproc _ _ hc | forkFail _ _ hc | forkInit _ hc | forkFile _ _ _ hc
  | forkCwd _ hc | chdirSet _ _ hc => exact hmove _ _ hc rfl
  | sleep _ _ _ _ hc | awaitAgain _ _ hc | await _ _ _ hc =>
    rw [hc.pc]
    simp [asleep, hut]
  | execDone _ _ hc => exact hmove _ _ hc (by rw [freeAll_pc]; rfl)
  | exitFinish _ _ _ h₁ _ _ hc =>
    rw [hc.pc, dead, setPc_pc, if_neg hut, setstate_pc, h₁.pc]
    rfl
  | die _ _ _ h₁ hc => rw [hc.pc, dead, setPc_pc, if_neg hut, setstate_pc, h₁.pc]
  | join _ _ _ hc => exact hmove _ _ hc (by rw [freeThd_pc])
  | reap _ h₁ _ _ hc =>
    rw [reap_eq] at hc
    exact hmove _ _ hc (by rw [setProc_pc, freeAll_pc, h₁.pc])
  | @allocOwner n _ _ _ _ _ hno _ _ hc =>
    have hun : u ≠ n := by
      rintro rfl
      exact hu hno
    exact hmove _ _ hc (by simp [hun])
  | forkRun _ hc => exact hmove _ _ hc (by rw [setstate_pc])
  | ofile _ _ hc =>
    rw [hc.pc]
    rfl

/-- Who is in `exit` leaves it by dying. -/
theorem Exits.stays (hcore : Core none s) (h : Exits s) (hon : s.onCpu c = some (p, t))
    (heff : Effect s a c p t s') (hst : (s.pc t).stage ≠ 0) :
    (s'.pc t).stage ≠ 0 ∨ (s'.thread t).state = .zombie := by
  obtain ⟨hrun, hmp⟩ := onCpu_running hcore hon
  obtain ⟨hsib, hex⟩ := h.last_of_stage hmp hst
  have hord : (s.pc t).ordinary → (s'.pc t).stage ≠ 0 ∨ (s'.thread t).state = .zombie :=
    fun ho => absurd (Pc.stage_of_ordinary ho) hst
  have hgo : ∀ (s₁ : Kernel) (k : Pc), Calm (s₁.setPc t k) s' → k.stage ≠ 0 →
      (s'.pc t).stage ≠ 0 ∨ (s'.thread t).state = .zombie := by
    intro s₁ k hc hk
    rw [hc.pc, setPc_pc, if_pos rfl]
    exact .inl hk
  cases heff with
  | calm hc =>
    rw [hc.pc]
    exact .inl hst
  | move hpc | sleep hpc | join hpc | reap hpc | forkFail hpc | allocOwner hpc => exact hord hpc
  | threadExit hpc | exitEnter _ hpc | cpuShare _ hpc | allocproc hpc | forkInit hpc | forkFile hpc
  | forkCwd hpc | forkRun hpc | chdirSet _ hpc | ofile _ hpc | die _ hpc =>
    exact hord (by rw [hpc]; rfl)
  | nullInode _ _ hs' =>
    subst hs'
    exact .inl hst
  | exitClose _ hc => exact hgo _ _ hc (by simp [Pc.stage])
  | exitNext _ hc =>
    refine hgo _ _ hc ?_
    unfold ExitCaller.behind
    split <;> simp [Pc.stage]
  | exitPut _ _ hc => exact hgo _ _ hc (by simp [Pc.stage])
  | exitCwd _ hc => exact hgo _ _ hc (by simp [Pc.stage])
  | exitShare _ hc => exact hgo _ _ hc (by simp [Pc.stage])
  | await _ _ hsib' => exact absurd hsib' hsib
  | awaitAgain _ hsib' => exact absurd hsib' hsib
  | exitBack _ hwhy =>
    rcases hwhy with ⟨hex', _⟩ | hsib'
    · cases hex.symm.trans hex'
    · exact absurd hsib' hsib
  | execBack hpc =>
    rw [hpc] at hst
    exact absurd rfl hst
  | execDone hpc =>
    rcases hpc with ⟨hpc, _⟩ | hpc
    all_goals
      rw [hpc] at hst
      exact absurd rfl hst
  | exitFinish _ _ _ h₁ _ _ hc =>
    refine .inr ((hc.zombie t ?_).mpr (by simp [dead]))
    have hmp₁ := (h₁.mp t).trans hmp
    simp [dead, hmp₁]

theorem Exits.step (hcore : Core none s) (h : Exits s) (hcreate : CreatesSlots s a)
    (hlast : LastExits s a) (hleave : LeavesLive s a) (hs : s.step a = some s') : Exits s' := by
  rcases step_effect hcore hcreate hs with hcalm | ⟨c, p, t, hon, heff⟩
  · exact hcalm.exits h
  · exact h.effect hcore hlast hleave hon heff

theorem boot_exits : Exits boot := by
  have hpc : ∀ t, (boot.pc t).stage = 0 := by
    intro t
    by_cases ht : t = 0 <;> simp [boot, ht, Pc.stage]
  have hmp : ∀ t p, (boot.thread t).mp = some p → t = 0 ∧ p = 0 := by
    intro t p ht
    by_cases ht0 : t = 0
    · exact ⟨ht0, by simpa [boot, ht0, eq_comm] using ht⟩
    · simp [boot, ht0] at ht
  have hstate : ∀ p, .zombie < (boot.proc p).state → p = 0 := by
    intro p hp
    by_contra hne
    simp only [boot, hne, ↓reduceIte] at hp
    exact absurd hp (by decide)
  refine ⟨fun t p ht => ?_, fun t p _ _ => hpc t, fun t _ p _ _ hst => absurd (hpc t) hst,
    fun t e => ?_, fun p hp => ?_, fun t p _ hst => ?_, fun p hp hcwd => ?_, fun t np n ht => ?_,
    fun t p _ hst => ?_, fun _ _ _ => rfl, fun p hp => ?_, by simp [boot]⟩
  · obtain ⟨rfl, rfl⟩ := hmp t p ht
    simp [boot]
  · by_cases ht : t = 0 <;> simp [boot, ht]
  · by_cases hp0 : p = 0 <;> simp [boot, hp0] at hp
  · rw [hpc] at hst
    cases hst
  · obtain rfl := hstate p (lt_trans (by decide) hp)
    simp [boot] at hcwd
  · by_cases ht0 : t = 0 <;> simp [boot, ht0] at ht
  · rw [hpc] at hst
    exact absurd hst (by decide)
  · by_cases hp0 : p = 0 <;> simp [boot, hp0] at hp

/-- In every run in which `exit` is entered by the last thread of its process, and
`thread_exit` leaves a live thread behind: a process without a directory has no thread but one
in `exit`, so no null directory is used; the directory is dropped at most once, and once when
the process is a ZOMBIE; and who is in `exit` leaves it only by dying, so that `exit` never
returns. -/
theorem exit_releases_last (h : Reaches Kernel.step
      (fun s a => CreatesSlots s a ∧ LastExits s a ∧ LeavesLive s a) boot s) :
    (∀ p t u, (s.proc p).state ≠ .embryo → (s.proc p).cwd = none →
      (s.thread t).mp = some p → (s.thread t).state ≠ .zombie →
      (s.thread u).mp = some p → (s.thread u).state ≠ .zombie → t = u ∧ (s.pc t).stage = 3) ∧
    s.panic ≠ some .nullInode ∧
    (∀ p, .zombie < (s.proc p).state → s.drops p ≤ 1) ∧
    (∀ p, (s.proc p).state = .zombie → s.drops p = 1) ∧
    ∀ a s' t, CreatesSlots s a → LastExits s a → LeavesLive s a → s.step a = some s' →
      (s.thread t).mp ≠ none → (s.pc t).stage ≠ 0 →
      (s'.pc t).stage ≠ 0 ∨ (s'.thread t).state = .zombie := by
  have hinv : Core none s ∧ Exits s := by
    refine h.invariant (motive := fun s => Core none s ∧ Exits s) ⟨boot_core, boot_exits⟩ ?_
    rintro s a s' ⟨hcore, hex⟩ ⟨hcreate, hlast, hleave⟩ hs
    exact ⟨hcore.step hcreate hs, hex.step hcore hcreate hlast hleave hs⟩
  obtain ⟨hcore, hex⟩ := hinv
  refine ⟨fun p t u hp hcwd ht htz hu huz => ?_, hex.null, fun p hp => ?_,
    fun p hp => (hex.zombie p hp).2, fun a s' t hcreate hlast hleave hs ht hst => ?_⟩
  · -- the process is alive, so a thread in `exit` has taken the directory
    have hlive : .embryo < (s.proc p).state := by
      have hle := hcore.le_proc t p ht
      cases hst : (s.proc p).state
      · rw [hst] at hle
        rw [hcore.free t (le_antisymm hle bot_le)] at ht
        cases ht
      · exact absurd (hcore.zombie_threads hst ht) htz
      · exact absurd hst hp
      all_goals decide
    obtain ⟨v, hv, hstv⟩ := hex.here p hlive hcwd
    have hall : ∀ w, (s.thread w).mp = some p → (s.thread w).state ≠ .zombie → w = v := by
      intro w hw hwz
      by_contra hne
      exact hwz ((hex.corpse w p hw).mpr (hex.alone v w p hv hw (by rw [hstv]; decide) hne))
    rw [hall t ht htz, hall u hu huz]
    exact ⟨rfl, hstv⟩
  · by_cases hall : ∀ t, (s.thread t).mp = some p → (s.pc t).stage < 2
    · rw [hex.kept p hp hall]
      decide
    · obtain ⟨t, ht⟩ := not_forall.mp hall
      obtain ⟨ht, hst⟩ := Classical.not_imp.mp ht
      rw [hex.dropped t p ht (not_lt.mp hst)]
  · rcases step_effect hcore hcreate hs with hcalm | ⟨c, p, u, hon, heff⟩
    · rw [hcalm.pc]
      exact .inl hst
    · by_cases htu : t = u
      · subst htu
        exact hex.stays hcore hon heff hst
      · rw [heff.pc_other htu ht]
        exact .inl hst

/-- A child starts a thread and leaves with `thread_exit`; the thread is the last one then, and
its `thread_exit` is `exit`. -/
def lastExitRun : List Act :=
  siblingsRun ++ [.syscall 1 (.threadExit 0)] ++ ksteps 1 2 ++ [.syscall 2 (.threadExit 0)] ++
    ksteps 2 20

theorem exit_releases_last_thread :
    ∃ s, Reaches Kernel.step (fun s a => CreatesSlots s a ∧ LastExits s a ∧ LeavesLive s a) boot s ∧
      (s.proc 1).cwd = none ∧ (s.thread 2).mp = some 1 ∧ (s.pc 2).stage = 3 ∧ s.drops 1 = 1 := by
  obtain ⟨s, hreach, h1, h2, h3, h4, h5⟩ := boot_reaches
    (fun s a => CreatesSlots s a ∧ LastExits s a ∧ LeavesLive s a) lastExitRun
    (fun s => (s.proc 1).cwd = none ∧ (s.thread 2).mp = some 1 ∧ (s.thread 2).state = .running ∧
      (s.proc 1).state = .running ∧ s.drops 1 = 1) (by decide +kernel)
  obtain ⟨halone, -⟩ := exit_releases_last hreach
  have hz : (s.thread 2).state ≠ .zombie := by
    rw [h3]
    decide
  exact ⟨s, hreach, h1, h2, (halone 1 2 2 (by rw [h4]; decide) h1 h2 hz h2 hz).2, h5⟩

/-- A child starts a thread, and the first thread calls `exit` and gets as far as `allthdexit`. -/
def earlyExitRun : List Act := siblingsRun ++ [.syscall 1 .exit] ++ ksteps 1 20

/-- The directory is gone while the second thread runs in user mode; that thread's next
relative path is looked up from a null directory; and `exit` returns when process is killed. -/
theorem early_exit_run :
    (∃ s, Reaches Kernel.step CreatesSlots boot s ∧ (s.proc 1).cwd = none ∧
      (s.thread 2).mp = some 1 ∧ (s.thread 2).state = .running ∧ s.pc 2 = .user) ∧
    (∃ s, Reaches Kernel.step CreatesSlots boot s ∧ s.panic = some .nullInode) ∧
    ∃ s, Reaches Kernel.step CreatesSlots boot s ∧ (s.thread 1).mp = some 1 ∧ s.pc 1 = .sysret ∧
      (s.proc 1).cwd = none := by
  refine ⟨?_, ?_, ?_⟩
  · exact boot_reaches _ earlyExitRun (fun s => (s.proc 1).cwd = none ∧
      (s.thread 2).mp = some 1 ∧ (s.thread 2).state = .running ∧ s.pc 2 = .user) (by decide +kernel)
  · exact boot_reaches _ (earlyExitRun ++ [.syscall 2 .other, .work 2 .path])
      (fun s => s.panic = some .nullInode) (by decide +kernel)
  · exact boot_reaches _ (earlyExitRun ++ [.syscall 0 (.kill 2)] ++ ksteps 0 1 ++ ksteps 1 1)
      (fun s => (s.thread 1).mp = some 1 ∧ s.pc 1 = .sysret ∧ (s.proc 1).cwd = none)
      (by decide +kernel)

end Kernel

end Xv6
