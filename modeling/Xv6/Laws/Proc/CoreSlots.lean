import Xv6.Laws.Proc.CoreSched

/-!
# Taking and freeing slots keeps the invariant

`fork` and `thread_create` take their slots in several stretches, each of which changes the
table and the reservation together. Every proof here first drops the reservation (the slots
are then nobody's), changes the table, and takes the new reservation.
-/

namespace Xv6

open Xv6.Lib

/-- What `wait` leaves of a process. -/
def Proc.reaped (x : Proc) : Proc :=
  { x with
    pid := 0, parent := none, killed := false, state := .unused, stype := .none, qlev := .hqlev
    ticks := 0, share := 0, pass := 0, pin := none }

namespace Kernel

variable {s s' : Kernel} {x : Option CpuId} {p q np : ProcPtr} {t u n : ThdPtr} {c d : CpuId}
  {k : AllocCaller}

/-! ## Freeing -/

theorem Core.kfree (h : Core x s) (v : Option Nat) : Core x (s.kfree v) := by
  unfold Kernel.kfree
  split
  · exact h.halt (by decide) (by decide)
  · exact h

/-- A slot with no owner is nobody's business but its reserver's. -/
theorem Core.free_hold (h : Core x s) (hrun : (s.thread u).state ≠ .running)
    (hrun' : (s.thread u).state ≠ .runnable) : (s.pc u).hold = {} := by
  by_contra hne
  rcases h.holder u hne with hu | hu
  · exact hrun hu
  · exact hrun' hu

/-- A ZOMBIE thread is freed while its process lives on. -/
theorem Core.freeThd (h : Core x s) (hz : (s.thread u).state = .zombie)
    (hlive : ∀ q, (s.thread u).mp = some q → (s.proc q).state ≠ .zombie) : Core x (s.freeThd u) := by
  have hhold : (s.pc u).hold = {} := h.free_hold (by rw [hz]; decide) (by rw [hz]; decide)
  have hself : (s.freeThd u).thread u = Thread.freed (s.thread u) := by simp
  refine h.change (U := (· = u)) (Q := fun _ => False)
    ⟨fun v hv => by simp [hv], fun _ _ => by simp, freeThd_pc, freeThd_cpu,
      fun v w hv => hv ▸ h.slot_ne (by rw [hz]; decide) w, fun _ _ e => e.elim,
      fun v c hv => hv ▸ h.off_cpu (by rw [hz]; decide), fun v hv hne => absurd (hv ▸ hhold) hne⟩
    ?_ ?_ (fun _ e => e.elim) ?_ ?_ (fun _ e => e.elim) ?_ (h.kfree _).found
  · rintro _ q (rfl | e) hv
    · rw [hself] at hv
      cases hv
    · exact e.elim
  · rintro _ q rfl _ hv hst
    exact hlive q hv (hst.symm.trans hz)
  · rintro _ rfl h1
    rw [hself] at h1
    exact absurd rfl h1
  · rintro _ rfl _
    rw [hself]
    rfl
  · rintro _ q rfl hv
    rw [hself] at hv
    cases hv

/-- The loop of `exec`. -/
theorem Core.freeAll (h : Core x s) {P : ThdPtr → Thread → Prop} [∀ u, DecidablePred (P u)]
    (hz : ∀ u x, P u x → x.state = .zombie)
    (hlive : ∀ u x q, P u x → x.mp = some q → (s.proc q).state ≠ .zombie) :
    Core x (s.freeAll P) := by
  have key : Core x (s.freeAll P) ∧ (s.freeAll P).proc = s.proc := by
    refine freeAll_induct P (motive := fun s' => Core x s' ∧ s'.proc = s.proc) ⟨h, rfl⟩ ?_
    rintro s' u ⟨hs', hproc⟩ hu
    refine ⟨hs'.freeThd (hz u _ hu) fun q hq => ?_, by rw [freeThd_proc, hproc]⟩
    rw [hproc]
    exact hlive u _ q hu hq
  exact key.1

theorem freeThd_panic : (s.freeThd u).panic =
    if (s.thread u).kstack = none then s.panic.or (some .kfree) else s.panic := by
  unfold freeThd kfree
  split <;> rfl

theorem freeThd_panic_iff {m : Panic} (hm : m ≠ .kfree) :
    (s.freeThd u).panic = some m ↔ s.panic = some m := by
  rw [freeThd_panic]
  split
  · cases s.panic <;> simp [hm.symm]
  · rfl

theorem freeAll_panic_iff {m : Panic} (hm : m ≠ .kfree) {P : ThdPtr → Thread → Prop}
    [∀ u, DecidablePred (P u)] : (s.freeAll P).panic = some m ↔ s.panic = some m :=
  freeAll_induct P (motive := fun s' => s'.panic = some m ↔ s.panic = some m) .rfl
    fun _ _ ih _ => (freeThd_panic_iff hm).trans ih

theorem reap_eq : s.reap q = (s.freeAll fun _ x => x.mp = some q).setProc q Proc.reaped := rfl

/-- The threads of a ZOMBIE process are ZOMBIE. -/
theorem Core.zombie_threads (h : Core x s) (hq : (s.proc q).state = .zombie)
    (hu : (s.thread u).mp = some q) : (s.thread u).state = .zombie := by
  have hle : (s.thread u).state ≤ .zombie := hq ▸ h.le_proc u q hu
  have hne : (s.thread u).state ≠ .unused := fun he => by simp [h.free u he] at hu
  cases hst : (s.thread u).state
  · exact absurd hst hne
  · rfl
  all_goals rw [hst] at hle; exact absurd hle (by decide)

/-- `wait` frees a ZOMBIE child with all its threads. -/
theorem Core.reap (h : Core x s) (hq : (s.proc q).state = .zombie) : Core x (s.reap q) := by
  have hkeep : ∀ v, (s.thread v).mp ≠ some q → (s.reap q).thread v = s.thread v := fun v hv => by
    rw [reap_eq, setProc_thread, freeAll_thread, if_neg hv]
  have hfreed : ∀ v, (s.thread v).mp = some q → (s.reap q).thread v = Thread.freed (s.thread v) :=
    fun v hv => by rw [reap_eq, setProc_thread, freeAll_thread, if_pos hv]
  have hself : ((s.reap q).proc q).state = .unused := by
    rw [reap_eq, setProc_proc, if_pos rfl, Proc.reaped]
  have hz : ∀ v, (s.thread v).mp = some q → (s.thread v).state = .zombie := fun v => h.zombie_threads hq
  have hfound : ∀ m, m ≠ .kfree → s.panic ≠ some m → (s.reap q).panic ≠ some m := fun m hm hp => by
    rwa [reap_eq, setProc_panic, ne_eq, freeAll_panic_iff hm]
  refine h.change (U := fun v => (s.thread v).mp = some q) (Q := (· = q))
    ⟨hkeep, fun p hp => by rw [reap_eq, setProc_proc, if_neg hp, freeAll_proc],
      by rw [reap_eq, setProc_pc, freeAll_pc], by rw [reap_eq, setProc_cpu, freeAll_cpu],
      fun v w hv => h.slot_ne (by rw [hz v hv]; decide) w, ?_,
      fun v c hv => h.off_cpu (by rw [hz v hv]; decide),
      fun v hv hne => absurd (h.free_hold (by rw [hz v hv]; decide) (by rw [hz v hv]; decide)) hne⟩
    ?_ (fun v p hv hp hvp => absurd (Option.some.inj (hvp.symm.trans hv)) hp) ?_ ?_ ?_ ?_ ?_
    ⟨hfound _ (by decide) h.found.1, hfound _ (by decide) h.found.2⟩
  · rintro _ v rfl hv
    rw [(h.child v _ hv).1] at hq
    cases hq
  · rintro v p hvp hv
    by_cases hvq : (s.thread v).mp = some q
    · rw [hfreed v hvq] at hv
      cases hv
    · rw [hkeep v hvq] at hv
      exact absurd (hvp.resolve_left hvq ▸ hv) hvq
  · rintro _ rfl h1
    exact absurd hself h1
  · intro v hv h1
    rw [hfreed v hv] at h1
    exact absurd rfl h1
  · intro v hv _
    rw [hfreed v hv]
    rfl
  · rintro _ rfl hp
    rw [hself] at hp
    exact absurd hp (by decide)
  · intro v p hv hvp
    rw [hfreed v hv] at hvp
    cases hvp

/-! ## Slots that are nobody's -/

@[simp] theorem setPc_setPc (s : Kernel) (t : ThdPtr) (k k' : Pc) :
    (s.setPc t k).setPc t k' = s.setPc t k' := by
  simp only [setPc, mk.injEq, true_and, and_true]
  funext u
  split <;> rfl

@[simp] theorem ret_setPc (s : Kernel) (t : ThdPtr) (k : Pc) (r : Word) :
    (s.setPc t k).ret t r = s.ret t r :=
  setPc_setPc (s.setThd t fun x => { x with eax := r }) t k .sysret

/-- With its reservation dropped, a thread's new process is nobody's. -/
theorem Core.child_fresh (h : Core x s) (hnp : (s.pc t).hold.np = some np) (u : ThdPtr) :
    ((s.setPc t .user).pc u).hold.np ≠ some np := by
  by_cases hu : u = t
  · simp [hu, Pc.hold]
  · simp only [setPc_pc, hu, ↓reduceIte]
    exact fun hu' => hu (h.child_inj u t np hu' hnp)

/-- With its reservation dropped, a thread's new thread slot is nobody's. -/
theorem Core.slot_fresh (h : Core x s) (hn : (s.pc t).hold.slot = some n) (u : ThdPtr) :
    ((s.setPc t .user).pc u).hold.slot ≠ some n := by
  by_cases hu : u = t
  · simp [hu, Pc.hold]
  · simp only [setPc_pc, hu, ↓reduceIte]
    exact fun hu' => hu (h.slot_inj u t n hu' hn)

/-- A process slot without threads becomes EMBRYO or UNUSED. -/
theorem Core.setProc_free (h : Core x s) {f : Proc → Proc} (hthd : ∀ u, (s.thread u).mp ≠ some np)
    (hchild : ∀ u, (s.pc u).hold.np ≠ some np)
    (hst : (f (s.proc np)).state = .unused ∨ (f (s.proc np)).state = .embryo) :
    Core x (s.setProc np f) := by
  have hself : (s.setProc np f).proc np = f (s.proc np) := by simp
  refine h.change (U := fun _ => False) (Q := (· = np))
    ⟨fun _ _ => rfl, fun q hq => by rw [setProc_proc, if_neg hq], rfl, rfl, fun _ _ e => e.elim,
      fun q v hq => hq ▸ hchild v, fun _ _ e => e.elim, fun _ e => e.elim⟩
    ?_ (fun _ _ e => e.elim) ?_ (fun _ e => e.elim) (fun _ e => e.elim) ?_ (fun _ _ e => e.elim) h.found
  · rintro u q (e | rfl) hu
    · exact e.elim
    · exact absurd hu (hthd u)
  · rintro _ rfl h1 h2
    rw [hself] at h1 h2
    exact absurd hst (not_or.mpr ⟨h1, h2⟩)
  · rintro _ rfl hq
    rw [hself] at hq
    rcases hst with e | e <;> rw [e] at hq <;> exact absurd hq (by decide)

/-- A thread slot that is not live, and stays so, is rewritten. -/
theorem Core.setThd_free (h : Core x s) {g : Thread → Thread}
    (hslot : ∀ u, (s.pc u).hold.slot ≠ some n)
    (hold : (s.thread n).state = .unused ∨ (s.thread n).state = .embryo)
    (hmp : (s.thread n).mp = none)
    (hnew : (g (s.thread n)).state = .unused ∧ (g (s.thread n)).mp = none ∨
      (g (s.thread n)).state = .embryo ∧
        ∀ q, (g (s.thread n)).mp = some q → .embryo ≤ (s.proc q).state ∧
          ∀ u, (s.pc u).hold.np ≠ some q) : Core x (s.setThd n g) := by
  have hhold : (s.pc n).hold = {} := by
    refine h.free_hold ?_ ?_ <;> rcases hold with e | e <;> rw [e] <;> decide
  have hself : (s.setThd n g).thread n = g (s.thread n) := by simp
  refine h.change (U := (· = n)) (Q := fun _ => False)
    ⟨fun u hu => by simp [hu], fun _ _ => rfl, rfl, rfl, fun u v hu => hu ▸ hslot v,
      fun _ _ e => e.elim, fun u c hu => hu ▸ h.off_cpu ?_,
      fun u hu hne => absurd (hu ▸ hhold) hne⟩
    ?_ ?_ (fun _ e => e.elim) ?_ ?_ (fun _ e => e.elim) ?_ h.found
  · rcases hold with e | e <;> rw [e] <;> decide
  · rintro _ q (rfl | e) hu
    · rw [hself] at hu ⊢
      rcases hnew with ⟨_, e⟩ | ⟨e, hq⟩
      · cases e.symm.trans hu
      · rw [e]
        exact (hq q hu).1
    · exact e.elim
  · rintro _ q rfl _ hq
    cases hmp.symm.trans hq
  · rintro _ rfl h1 h2
    rw [hself] at h1 h2
    rcases hnew with ⟨e, _⟩ | ⟨e, _⟩
    · exact absurd e h1
    · exact absurd e h2
  · rintro _ rfl h1
    rw [hself] at h1 ⊢
    rcases hnew with ⟨_, e⟩ | ⟨e, _⟩
    · exact e
    · cases e.symm.trans h1
  · rintro _ q rfl hu
    rw [hself] at hu
    rcases hnew with ⟨_, e⟩ | ⟨_, hq⟩
    · cases e.symm.trans hu
    · exact .inr (hq q hu).2

/-! ## fork and thread_create, stretch by stretch -/

theorem Core.allocproc (h : Core x s) (hrun : (s.thread t).state = .running) :
    Core x (s.allocproc t) := by
  unfold Kernel.allocproc
  split
  · rename_i np hfind
    have hnp : (s.proc np).state = .unused := by simpa using List.find?_some hfind
    have hthd : ∀ u, (s.thread u).mp ≠ some np := by
      intro u hu
      have hle : (s.thread u).state ≤ .unused := hnp ▸ h.le_proc u np hu
      rw [h.free u (le_bot_iff.mp hle)] at hu
      cases hu
    have hchild : ∀ u, (s.pc u).hold.np ≠ some np := by
      intro u hu
      rw [(h.child u np hu).1] at hnp
      cases hnp
    have h1 := h.setProc_free (f := fun q => { q with state := .embryo, pid := s.nextpid })
      hthd hchild (.inr rfl)
    have h2 : Core x { s.setProc np fun q => { q with state := .embryo, pid := s.nextpid } with
        nextpid := s.nextpid + 1
        drops := fun q => if q = np then 0 else s.drops q } :=
      h1.congr (fun _ => rfl) (fun _ hq => hq) (fun _ => ⟨rfl, rfl⟩) (fun _ => rfl)
        (fun _ => ⟨rfl, rfl⟩) h1.found
    refine h2.setPc_hold t (by simp [Pc.hold]) (by simp [Pc.hold]) ?_ ?_ fun _ => .inl hrun
    · rintro _ ⟨⟩
      refine ⟨by simp, fun u hu => absurd hu (hthd u), by simp [Pc.hold]⟩
    · rintro _ u ⟨⟩ _
      exact hchild u
  · exact h.ret t _

theorem Core.forkFail (h : Core x s) (hhold : (s.pc t).hold = { np := some np }) :
    Core x (s.forkFail t np) := by
  have hnp : (s.pc t).hold.np = some np := by rw [hhold]
  have h1 := (h.setPc t (k := .user) rfl).setProc_free (f := fun q => { q with state := .unused })
    (fun u hu => ?_) (h.child_fresh hnp) (.inl rfl)
  · unfold Kernel.forkFail
    rw [← ret_setPc _ t .user]
    exact h1.ret t (-1)
  · have hu' := ((h.child t np hnp).2.1 u hu).1
    rw [hhold] at hu'
    cases hu'

theorem Core.allocFail (h : Core x s) (hhold : (s.pc t).hold = { np := k.np }) :
    Core x (s.allocFail t k) := by
  cases k with
  | fork np => exact h.forkFail hhold
  | create => exact h.ret t (-1)

theorem Core.allocthd (h : Core x s) (hrun : (s.thread t).state = .running)
    (hhold : (s.pc t).hold = { np := k.np }) : Core x (s.allocthd t k) := by
  unfold Kernel.allocthd
  split
  · rename_i n hfind
    have hn : (s.thread n).state = .unused := by simpa using List.find?_some hfind
    have hslot : ∀ u, (s.pc u).hold.slot ≠ some n := h.slot_ne (by rw [hn]; decide)
    have hmp : (s.thread n).mp = none := h.free n hn
    have h1 := h.setThd_free (g := fun x => { x with state := .embryo, tid := s.nexttid }) hslot
      (.inl hn) hmp (.inr ⟨rfl, fun q hq => by simp [hmp] at hq⟩)
    have h2 : Core x { s.setThd n fun x => { x with state := .embryo, tid := s.nexttid } with
        nexttid := s.nexttid + 1 } :=
      h1.congr (fun _ => rfl) (fun _ hq => hq) (fun _ => ⟨rfl, rfl⟩) (fun _ => rfl)
        (fun _ => ⟨rfl, rfl⟩) h1.found
    have htn : t ≠ n := by
      rintro rfl
      rw [hn] at hrun
      cases hrun
    refine h2.setPc_hold t ?_ ?_ ?_ ?_ fun _ => .inl (by simpa [htn] using hrun)
    · rintro _ ⟨⟩
      exact ⟨by simp, by simpa [Pc.hold] using hmp⟩
    · rintro _ u ⟨⟩ _
      exact hslot u
    · intro np hnp
      have hnp' : (s.pc t).hold.np = some np := by rw [hhold]; exact hnp
      obtain ⟨h3, h4, _⟩ := h.child t np hnp'
      refine ⟨h3, fun u hu => ?_, by simp [Pc.hold]⟩
      have hun : u ≠ n := by
        rintro rfl
        simp [hmp] at hu
      have hu' := (h4 u (by simpa [hun] using hu)).1
      rw [hhold] at hu'
      cases hu'
    · intro np u hnp hu hu'
      have hnp' : (s.pc t).hold.np = some np := by rw [hhold]; exact hnp
      exact hu (h.child_inj u t np hu' hnp')
  · exact h.allocFail hhold

theorem allocFail_setPc (s : Kernel) (t : ThdPtr) (k : AllocCaller) (k' : Pc) :
    (s.setPc t k').allocFail t k = s.allocFail t k := by
  cases k with
  | fork np => exact ret_setPc (s.setProc np fun q => { q with state := .unused }) t k' (-1)
  | create => exact ret_setPc s t k' (-1)

theorem Core.allocStack (h : Core x s) (hrun : (s.thread t).state = .running)
    (hhold : (s.pc t).hold = { np := k.np, slot := some n }) (page : Option Nat) :
    Core x (s.allocStack t k n page) := by
  have hn : (s.pc t).hold.slot = some n := by rw [hhold]
  obtain ⟨hst, hmp⟩ := h.slot t n hn
  rw [hhold] at hmp
  have htn : t ≠ n := by
    rintro rfl
    rw [hst] at hrun
    cases hrun
  cases page with
  | some page =>
    have h1 : Core x (s.setThd n fun x => { x with kstack := some page }) := h.setThd n rfl rfl
    refine h1.setPc_keep t ?_
    rw [setThd_pc, hhold]
    rfl
  | none =>
    -- the reservation shrinks to the process, then the slot is free
    have hchild : ∀ np, k.np = some np → (s.pc t).hold.np = some np := fun np hnp => by
      rw [hhold]
      exact hnp
    have h1 : Core x (s.setPc t (.allocthd k)) := by
      refine h.setPc_hold t (by simp [Pc.hold]) (by simp [Pc.hold]) ?_ ?_ fun _ => .inl hrun
      · intro np hnp
        obtain ⟨h2, h3, _⟩ := h.child t np (hchild np hnp)
        refine ⟨h2, fun u hu => ?_, by simp [Pc.hold]⟩
        have hu' := (h3 u hu).2
        rw [hhold] at hu'
        cases hu'
      · intro np u hnp hu hu'
        exact hu (h.child_inj u t np hu' (hchild np hnp))
    have h2 := h1.setThd_free (n := n) (g := fun x => { x with kstack := none, state := .unused })
      ?_ (.inr hst) hmp (.inl ⟨rfl, hmp⟩)
    · unfold Kernel.allocStack
      rw [← allocFail_setPc _ t k (.allocthd k)]
      refine h2.allocFail ?_
      simp [Pc.hold]
    · intro u
      by_cases hu : u = t
      · simp [hu, Pc.hold]
      · simp only [setPc_pc, hu, ↓reduceIte]
        exact fun hu' => hu (h.slot_inj u t n hu' hn)

/-- The process a new thread will belong to, and where its maker goes on. -/
def AllocCaller.next (k : AllocCaller) (p : ProcPtr) (n : ThdPtr) : ProcPtr × Pc :=
  match k with
  | .fork np => (np, .forkInit np n)
  | .create => (p, .createStack n)

theorem Core.setOwner (h : Core x s) (hrun : (s.thread t).state = .running)
    (hp : (s.thread t).mp = some p) (hhold : (s.pc t).hold = { np := k.np, slot := some n }) :
    Core x ((s.setThd n fun x => { x with mp := some (AllocCaller.next k p n).1 }).setPc t
      (AllocCaller.next k p n).2) := by
  have hn : (s.pc t).hold.slot = some n := by rw [hhold]
  obtain ⟨hst, hmp⟩ := h.slot t n hn
  rw [hhold] at hmp
  have htn : t ≠ n := by
    rintro rfl
    rw [hst] at hrun
    cases hrun
  have hdrop := h.setPc t (k := .user) rfl
  have hslot : ∀ m u, some n = some m → u ≠ t → (s.pc u).hold.slot ≠ some m := by
    rintro m u ⟨⟩ hu hu'
    exact hu (h.slot_inj u t n hu' hn)
  cases k with
  | fork np =>
    have hnp : (s.pc t).hold.np = some np := by rw [hhold]; rfl
    obtain ⟨h1, h2, _⟩ := h.child t np hnp
    have h3 := hdrop.setThd_free (n := n) (g := fun x => { x with mp := some np })
      (h.slot_fresh hn) (.inr hst) hmp (.inr ⟨hst, ?_⟩)
    · have h4 := h3.setPc_hold t (k := .forkInit np n) ?_ ?_ ?_ ?_ fun _ => .inl ?_
      · rw [← setPc_setPc _ t .user]
        exact h4
      · rintro _ ⟨⟩
        exact ⟨by simpa using hst, by simp [Pc.hold]⟩
      · rintro m u ⟨⟩ hu
        simpa [hu] using hslot n u rfl hu
      · rintro _ ⟨⟩
        refine ⟨h1, fun u hu => ?_, by simp [Pc.hold]⟩
        by_cases hun : u = n
        · exact ⟨by rw [hun]; rfl, rfl⟩
        · have hu' := (h2 u (by simpa [hun] using hu)).2
          rw [hhold] at hu'
          cases hu'
      · rintro _ u ⟨⟩ hu
        exact h.child_fresh hnp u
      · simpa [htn] using hrun
    · rintro _ ⟨⟩
      exact ⟨by simp [h1], h.child_fresh hnp⟩
  | create =>
    have hlive : .embryo < (s.thread t).state := by rw [hrun]; decide
    have h3 := hdrop.setThd_free (n := n) (g := fun x => { x with mp := some p })
      (h.slot_fresh hn) (.inr hst) hmp (.inr ⟨hst, ?_⟩)
    · have h4 := h3.setPc_hold t (k := .createStack n) ?_ ?_ (by simp [Pc.hold]) (by simp [Pc.hold])
        fun _ => .inl ?_
      · rw [← setPc_setPc _ t .user]
        exact h4
      · rintro _ ⟨⟩
        exact ⟨by simpa using hst, by simp [Pc.hold, htn, hp]⟩
      · rintro m u ⟨⟩ hu
        simpa [hu] using hslot n u rfl hu
      · simpa [htn] using hrun
    · rintro _ ⟨⟩
      refine ⟨hlive.le.trans (h.le_proc t p hp), hdrop.child_ne (t := t) hp hlive⟩

theorem allocOwner_eq : s.allocOwner p t k n = (((s.setPc n .forkret).setThd n fun x =>
      { x with mp := some (AllocCaller.next k p n).1 }).setPc t (AllocCaller.next k p n).2) := by
  cases k <;> rfl

theorem Core.allocOwner (h : Core x s) (hrun : (s.thread t).state = .running)
    (hp : (s.thread t).mp = some p) (hhold : (s.pc t).hold = { np := k.np, slot := some n }) :
    Core x (s.allocOwner p t k n) := by
  have hst := (h.slot t n (by rw [hhold])).1
  have htn : t ≠ n := by
    rintro rfl
    rw [hst] at hrun
    cases hrun
  rw [allocOwner_eq]
  refine (h.setPc n (k := .forkret) rfl).setOwner hrun hp ?_
  rw [setPc_pc, if_neg htn, hhold]

theorem Core.forkInit (h : Core x s) (hhold : (s.pc t).hold = (Pc.forkInit np n).hold) :
    Core x (s.forkInit p t np n) := by
  have h1 : Core x (s.setProc np fun q =>
      { q with pin := some n, parent := some p, stype := .mlfq, qlev := .hqlev, pass := 0 }) :=
    h.setProc np rfl (by simp)
  have h2 := h1.setThd n (g := fun x => { x with eax := 0 }) rfl rfl
  have hnp : (s.pc t).hold.np = some np := by rw [hhold]; rfl
  have hslot : (s.pc t).hold.slot = some n := by rw [hhold]; rfl
  refine h2.setPc_hold t ?_ ?_ ?_ ?_ fun _ => h2.holder t fun he => ?_
  · rintro _ ⟨⟩
    have h3 := h2.slot t n hslot
    simp only [setThd_pc, setProc_pc, hhold] at h3
    exact h3
  · rintro m u ⟨⟩ hu hu'
    exact hu (h.slot_inj u t n hu' hslot)
  · rintro _ ⟨⟩
    obtain ⟨h3, h4, _⟩ := h2.child t np hnp
    simp only [setThd_pc, setProc_pc, hhold] at h4
    exact ⟨h3, h4, by simp⟩
  · rintro _ u ⟨⟩ hu hu'
    exact hu (h.child_inj u t np hu' hnp)
  · cases hhold.symm.trans he

theorem Core.forkFile (h : Core x s) {fd : Fin NOFILE}
    (hhold : (s.pc t).hold = (Pc.forkFile np n fd).hold) : Core x (s.forkFile p t np n fd) := by
  -- with the file copied or not, the call goes on and holds what it held
  have hnext : ∀ s₁ : Kernel, Core x s₁ → (s₁.pc t).hold = (Pc.forkFile np n fd).hold →
      ∀ k : Pc, k.hold = (Pc.forkFile np n fd).hold → Core x (s₁.setPc t k) :=
    fun s₁ h1 hhold₁ k hk => h1.setPc_keep t (hk.trans hhold₁.symm)
  unfold Kernel.forkFile
  cases (s.proc p).ofile fd with
  | none =>
    dsimp only
    split <;> exact hnext _ h hhold _ rfl
  | some f =>
    have h1 := h.setProc (f := fun q =>
      { q with ofile := fun i => if i = fd then some f else q.ofile i }) np rfl id
    dsimp only
    split <;> exact hnext _ h1 hhold _ rfl

theorem Core.forkCwd (h : Core x s) (hhold : (s.pc t).hold = (Pc.forkCwd np n).hold) :
    Core x (s.forkCwd p t np n) := by
  unfold Kernel.forkCwd
  split
  · exact h.halt (by decide) (by decide)
  · refine Core.setPc_keep ?_ t hhold.symm
    exact h.setProc np rfl id

theorem Core.forkRun (h : Core x s) (hhold : (s.pc t).hold = (Pc.forkRun np n).hold) :
    Core x (s.forkRun t np n) := by
  have hnp : (s.pc t).hold.np = some np := by rw [hhold]; rfl
  have hslot : (s.pc t).hold.slot = some n := by rw [hhold]; rfl
  obtain ⟨hst, hmp⟩ := h.slot t n hslot
  have hpin := (h.child t np hnp).2.2
  rw [hhold] at hmp hpin
  have h1 := (h.setPc t (k := .user) rfl).setstate_free (t := n) (p := np) hmp (hpin rfl)
    (.inr (by decide)) (h.slot_fresh hslot) (h.child_fresh hnp)
    (fun c hx => h.off_cpu (by rw [hst]; decide) hx) (fun _ => .inr rfl)
  rw [setstate_runnable] at h1
  unfold Kernel.forkRun
  dsimp only
  rw [← ret_setPc _ t .user]
  exact h1.ret t _

theorem Core.createRun (h : Core x s) (hrun : (s.thread t).state = .running)
    (hp : (s.thread t).mp = some p) (hhold : (s.pc t).hold = (Pc.createRun n).hold) :
    Core x (s.createRun p t n) := by
  have hslot : (s.pc t).hold.slot = some n := by rw [hhold]; rfl
  have hlive : .embryo < (s.thread t).state := by rw [hrun]; decide
  obtain ⟨hst, hmp⟩ := h.slot t n hslot
  rw [hhold] at hmp
  have hdrop := h.setPc t (k := .user) rfl
  have h1 := hdrop.setstate_free (t := n) (p := p) (hmp.trans hp)
    (h.pinned p (hlive.trans_le (h.le_proc t p hp))) (.inr (by decide)) (h.slot_fresh hslot)
    (hdrop.child_ne (t := t) hp hlive)
    (fun c hx => h.off_cpu (by rw [hst]; decide) hx) (fun _ => .inr rfl)
  rw [setstate_runnable] at h1
  unfold Kernel.createRun
  dsimp only
  rw [← ret_setPc _ t .user]
  exact h1.ret t _

end Kernel

end Xv6
