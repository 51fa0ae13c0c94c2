import Xv6.Laws.Proc.Stretch

/-!
# The thread table along a run

Every stretch keeps `Slots`. A stretch that changes a reserved slot is taken apart: its thread
lets go of what it holds, the slot changes while nobody holds it, and the thread takes hold of
it again.

`Slots.step_cases` is the form in which later invariants use a step.
-/

namespace Xv6

open Xv6.Lib

namespace Kernel

variable {s s' : Kernel} {a : Act} {p q np : ProcPtr} {t u n : ThdPtr} {c : CpuId} {k : Pc}
  {chan : Chan}

theorem rests_hold {k : Pc} (hk : k.rests) : k.hold = {} := by
  cases k
  case slept => rfl
  case waitSleep => rfl
  case joinSleep => rfl
  case exitSleep => rfl
  case execSleep => rfl
  all_goals cases hk

section OnCpu

variable (h : Slots none s) (hpanic : s.panic = none) (hon : s.onCpu c = some (p, t))

include h hpanic hon

theorem Slots.asleep (hk : k.rests) : Slots (some c) (s.asleep p t chan k) := by
  obtain ⟨hrun, hmp⟩ := h.onCpu hpanic hon
  have hset : Quiet none none s (s.setThd t fun x => { x with chan := some chan }) :=
    quiet_setThd (sameSlot_running hrun rfl rfl rfl rfl) rfl
  refine (hset.slots h).park (onCpu_iff.mp hon).2 ?_ ?_ (.inl (by decide)) (rests_hold hk)
    fun _ _ => by decide
  · simpa using hmp
  · simpa using hrun

theorem Slots.dead : Slots (some c) (s.dead p t) := by
  obtain ⟨hrun, hmp⟩ := h.onCpu hpanic hon
  exact h.park (onCpu_iff.mp hon).2 hmp hrun (.inr rfl) rfl fun h0 => absurd rfl h0

omit hpanic hon in
/-- A thread that lets go of a reserved slot leaves it to nobody. -/
theorem Slots.nobody (hn : (s.pc t).hold.slot = some n) (u : ThdPtr) :
    ((s.setPc t .sysret).pc u).hold.slot ≠ some n := by
  intro hu
  rw [setPc_pc] at hu
  split at hu
  · cases hu
  · rename_i hut
    exact hut (h.slot_inj u t n hu hn)

omit hpanic hon in
theorem Slots.nobody_np (hnp : (s.pc t).hold.np = some np) (u : ThdPtr) :
    ((s.setPc t .sysret).pc u).hold.np ≠ some np := by
  intro hu
  rw [setPc_pc] at hu
  split at hu
  · cases hu
  · rename_i hut
    exact hut (h.child_inj u t np hu hnp)

/-- The state with the reservations of `t` given up. -/
theorem Slots.letGo : Slots none (s.setPc t .sysret) :=
  h.setPc t rfl fun _ _ => by
    rw [(h.onCpu hpanic hon).1]
    decide

/-- `exec` frees the other threads. -/
theorem Slots.commit : Slots none ((((s.setExited p false).freeAll
    fun u r => u ≠ t ∧ r.mp = some p ∧ r.state = .zombie).switchuvm c p).setPc t .sysret) := by
  have hset : Slots none (s.setExited p false) := h.setProc_same rfl
  have hfree := hset.freeAll (P := fun u r => u ≠ t ∧ r.mp = some p ∧ r.state = .zombie)
    (fun u hu => hu.2.2) fun u r hu => by
      rw [hu.2.1]
      simp
  refine (hfree.switchuvm c p).setPc t rfl fun _ _ => ?_
  rw [switchuvm_thread, freeAll_thread, if_neg fun h0 => h0.1 rfl]
  show ProcState.embryo < (s.thread t).state
  rw [(h.onCpu hpanic hon).1]
  decide

/-- `thread_join` frees a ZOMBIE slot. -/
theorem Slots.join (hz : (s.thread u).state = .zombie) :
    Slots none ((s.freeThd u).setPc t .sysret) := by
  obtain ⟨hrun, -⟩ := h.onCpu hpanic hon
  refine (h.freeThd hz).setPc t rfl fun _ _ => ?_
  have htu : t ≠ u := by
    rintro rfl
    rw [hrun] at hz
    cases hz
  rw [freeThd_thread, if_neg htu, hrun]
  decide

theorem Slots.reapChild (hz : (s.proc q).state = .zombie) (hall : s.AllZombie q) :
    Slots none ((s.reap q).setPc t .sysret) := by
  obtain ⟨hrun, -⟩ := h.onCpu hpanic hon
  refine (h.reap hz hall).setPc t rfl fun _ _ => ?_
  have htq : (s.thread t).mp ≠ some q := by
    intro hmp
    have hst := hall t hmp
    rw [hrun] at hst
    cases hst
  rw [reap_eq, setProc_thread, freeAll_thread, if_neg htq, hrun]
  decide

/-- `allocproc` takes a process. -/
theorem Slots.allocproc (hnp : (s.proc np).state = .unused) :
    Slots none ((s.setProc np fun q => { q with state := .embryo }).setPc t (.forkCopy np)) := by
  have hne : ∀ u, (s.pc u).hold.np ≠ some np := by
    intro u hu
    rw [(h.child u np hu).1] at hnp
    cases hnp
  have hset : Slots none (s.setProc np fun q => { q with state := .embryo }) :=
    h.setProc (.inl hne) fun h0 => by cases h0
  refine hset.setPc_hold t (fun _ _ => ?_) (fun n hn => ?_) (fun n u hn => ?_) (fun r hr => ?_)
    fun r u hr _ => ?_
  · show ProcState.embryo < (s.thread t).state
    rw [(h.onCpu hpanic hon).1]
    decide
  · cases hn
  · cases hn
  · cases hr
    refine ⟨?_, fun u hu => absurd hu (h.vacant np hnp u)⟩
    rw [setProc_proc, if_pos rfl]
  · cases hr
    exact hne u

/-- `fork` gives its process back before a thread belongs to it. -/
theorem Slots.forkFail (hnp : (s.pc t).hold.np = some np) (howned : (s.pc t).hold.owned = false) :
    Slots none ((s.setProc np fun q => { q with state := .unused }).setPc t .sysret) := by
  have hfree := h.letGo hpanic hon
  refine Slots.setProc (s := s.setPc t .sysret) (f := fun q => { q with state := .unused }) hfree
    (.inl (h.nobody_np hnp)) fun _ u hu => ?_
  have h0 := ((h.child t np hnp).2 u hu).2
  rw [howned] at h0
  cases h0

/-- `allocthd` takes a slot. -/
theorem Slots.alloc {k : AllocCaller} (hpc : s.pc t = .allocthd k) (hn : (s.thread n).state = .unused)
    (tid next : Word) :
    Slots none ({ s.setThd n fun x => { x with state := .embryo, tid := tid } with
      nexttid := next }.setPc t (.allocStack k n)) := by
  obtain ⟨hrun, -⟩ := h.onCpu hpanic hon
  have htn : t ≠ n := by
    rintro rfl
    rw [hrun] at hn
    cases hn
  have hlow : ¬ .embryo < (s.thread n).state := by
    rw [hn]
    decide
  have hnone : ∀ u, (s.pc u).hold.slot ≠ some n := h.slot_ne (by rw [hn]; decide)
  have hset : Slots none (s.setThd n fun x => { x with state := .embryo, tid := tid }) :=
    h.fill hlow hnone ProcState.not_started_embryo fun _ hq => hq
  have hnp : (s.pc t).hold.np = k.np := by
    rw [hpc]
    rfl
  suffices hkeep : Slots none ((s.setThd n fun x => { x with state := .embryo, tid := tid }).setPc t
      (.allocStack k n)) from
    ⟨fun hp => ⟨(hkeep.cpus hp).running, (hkeep.cpus hp).alone⟩, hkeep.owner, hkeep.stack, hkeep.awake,
      hkeep.slot, hkeep.slot_inj, hkeep.child, hkeep.child_inj, hkeep.vacant, hkeep.kfree⟩
  refine hset.setPc_hold t (fun _ _ => ?_) (fun m hm => ?_) (fun m u hm _ => ?_) (fun r hr => ?_)
    fun r u hr hut hu => ?_
  · rw [setThd_thread, if_neg htn, hrun]
    decide
  · cases hm
    rw [setThd_thread, if_pos rfl]
    exact ⟨rfl, fun h0 => (by cases h0), fun h0 => (by cases h0)⟩
  · cases hm
    exact hnone u
  · have hr' : (s.pc t).hold.np = some r := hnp.trans hr
    obtain ⟨h1, h2⟩ := h.child t r hr'
    refine ⟨h1, fun u hu => ?_⟩
    rw [setThd_mp rfl] at hu
    have h0 := (h2 u hu).1
    rw [hpc] at h0
    cases h0
  · exact hut (h.child_inj u t r hu (hnp.trans hr))

/-- `kalloc` gives the new thread its kernel stack. -/
theorem Slots.allocStack {k : AllocCaller} (hpc : s.pc t = .allocStack k n) (page : Nat) :
    Slots none ((s.setThd n fun x => { x with kstack := some page }).setPc t (.allocOwner k n)) := by
  obtain ⟨hrun, -⟩ := h.onCpu hpanic hon
  have hslot : (s.pc t).hold.slot = some n := by
    rw [hpc]
    rfl
  have hnp : (s.pc t).hold.np = k.np := by
    rw [hpc]
    rfl
  have hst := (h.slot t n hslot).1
  have hset : Slots none ((s.setPc t .sysret).setThd n fun x => { x with kstack := some page }) :=
    (h.letGo hpanic hon).fill (h.slot_low hslot) (h.nobody hslot)
      (hst ▸ ProcState.not_started_embryo) fun _ hq => hq
  rw [← setPc_setPc _ t .sysret]
  refine hset.setPc_hold t (fun _ _ => ?_) (fun m hm => ?_) (fun m u hm _ => ?_) (fun r hr => ?_)
    fun r u hr _ => ?_
  · rw [setThd_thread, if_neg (h.slot_ne_self hpanic hon hslot), setPc_thread, hrun]
    decide
  · cases hm
    rw [setThd_thread, if_pos rfl]
    exact ⟨hst, fun h0 => (by cases h0), fun _ h0 => (by cases h0)⟩
  · cases hm
    exact h.nobody hslot u
  · obtain ⟨h1, h2⟩ := h.child t r (hnp.trans hr)
    refine ⟨h1, fun u hu => ?_⟩
    rw [setThd_mp rfl] at hu
    have h0 := (h2 u hu).2
    rw [hpc] at h0
    cases h0
  · exact h.nobody_np (hnp.trans hr) u

/-- `allocthd` makes the new thread one of its process. -/
theorem Slots.allocOwner {k : AllocCaller} (hpc : s.pc t = .allocOwner k n) :
    Slots none (s.allocOwner p t k n) := by
  obtain ⟨hrun, hmp⟩ := h.onCpu hpanic hon
  have hlive : .embryo < (s.thread t).state := by
    rw [hrun]
    decide
  have hslot : (s.pc t).hold.slot = some n := by
    rw [hpc]
    rfl
  have hnp : (s.pc t).hold.np = k.np := by
    rw [hpc]
    rfl
  obtain ⟨hst, -, hstack⟩ := h.slot t n hslot
  have htn := h.slot_ne_self hpanic hon hslot
  have hfree : Slots none ((s.setPc t .sysret).setPc n .forkret) :=
    (h.letGo hpanic hon).setPc n rfl fun _ h0 => absurd rfl h0
  have hnobody : ∀ u, (((s.setPc t .sysret).setPc n .forkret).pc u).hold.slot ≠ some n := by
    intro u hu
    rw [setPc_pc] at hu
    split at hu
    · cases hu
    · exact h.nobody hslot u hu
  -- nobody else has reserved the process
  have hother : ∀ u, (((s.setPc t .sysret).setPc n .forkret).pc u).hold.np ≠
      some (AllocCaller.next k p n).1 := by
    intro u hu
    rw [setPc_pc] at hu
    split at hu
    · cases hu
    · cases k with
      | fork np => exact h.nobody_np hnp u hu
      | create => exact (h.letGo hpanic hon).child_ne hmp hlive u hu
  have hused : (s.proc (AllocCaller.next k p n).1).state ≠ .unused := by
    cases k with
    | fork np =>
      intro h0
      have h1 := (h.child t np hnp).1
      rw [show (AllocCaller.next (.fork np) p n).1 = np from rfl, h1] at h0
      cases h0
    | create => exact fun h0 => h.vacant p h0 t hmp
  have hset : Slots none (((s.setPc t .sysret).setPc n .forkret).setThd n fun x =>
      { x with mp := some (AllocCaller.next k p n).1 }) := by
    refine hfree.setThd (.inl (by rw [setPc_thread, setPc_thread, hst]; decide)) hnobody (.inl ?_)
      (fun h0 => ?_) (fun h0 => ?_) (fun _ h2 => ?_) fun q hq => ?_
    · rw [setPc_pc, if_pos rfl]
      rfl
    · exact absurd h0 (hst ▸ ProcState.not_started_embryo)
    · exact absurd h0 (hst ▸ ProcState.not_started_embryo)
    · rw [setPc_pc, if_pos rfl] at h2
      exact absurd rfl h2
    · cases hq
      exact .inr ⟨hused, hother⟩
  have hcomm : ((s.setPc n .forkret).setThd n fun x => { x with mp := some (AllocCaller.next k p n).1 }).setPc t
      (AllocCaller.next k p n).2 = (((s.setPc t .sysret).setPc n .forkret).setThd n fun x =>
      { x with mp := some (AllocCaller.next k p n).1 }).setPc t (AllocCaller.next k p n).2 := by
    unfold Kernel.setPc Kernel.setThd
    congr 1
    funext u
    by_cases hu : u = t <;> simp only [hu, ↓reduceIte]
  rw [allocOwner_eq, hcomm]
  refine hset.setPc_hold t (fun _ _ => ?_) (fun m hm => ?_) (fun m u hm _ => ?_) (fun r hr => ?_)
    fun r u hr _ => ?_
  · rw [setThd_thread, if_neg htn, setPc_thread, setPc_thread]
    exact hlive
  · have hm' : n = m := by
      cases k <;> cases hm <;> rfl
    subst hm'
    rw [setThd_thread, if_pos rfl, setThd_thread, if_neg htn]
    refine ⟨hst, fun _ => ?_, fun _ => hstack (by rw [hpc]; rfl)⟩
    cases k with
    | fork np => rfl
    | create => exact hmp.symm
  · have hm' : n = m := by
      cases k <;> cases hm <;> rfl
    subst hm'
    exact hnobody u
  · cases k with
    | fork np =>
      obtain rfl : np = r := Option.some.inj hr
      obtain ⟨h1, h2⟩ := h.child t np hnp
      refine ⟨h1, fun u hu => ?_⟩
      by_cases hun : u = n
      · rw [hun]
        exact ⟨rfl, rfl⟩
      · rw [setThd_thread, if_neg hun] at hu
        have h0 := (h2 u hu).2
        rw [hpc] at h0
        cases h0
    | create => cases hr
  · cases k with
    | fork np =>
      cases hr
      exact hother u
    | create => cases hr

/-- A reserved slot is given back. -/
theorem Slots.giveBack (hslot : (s.pc t).hold.slot = some n) :
    Slots none ((s.unalloc n).setPc t .sysret) := by
  exact Slots.fill (s := s.setPc t .sysret)
    (g := fun x => { x with kstack := none, state := .unused }) (h.letGo hpanic hon)
    (h.slot_low hslot) (h.nobody hslot) ProcState.not_started_unused fun _ hq => hq

/-- A reserved slot and a reserved process are given back. -/
theorem Slots.giveBackFork (hslot : (s.pc t).hold.slot = some n) (hnp : (s.pc t).hold.np = some np)
    (howned : (s.pc t).hold.owned = false) :
    Slots none (((s.unalloc n).setProc np fun q =>
      { q with state := .unused }).setPc t .sysret) := by
  refine Slots.setProc (s := (s.unalloc n).setPc t .sysret)
    (f := fun q => { q with state := .unused }) (h.giveBack hpanic hon hslot)
    (.inl (h.nobody_np hnp)) fun _ u hu => ?_
  rw [setPc_thread, setThd_mp rfl] at hu
  have h0 := ((h.child t np hnp).2 u hu).2
  rw [howned] at h0
  cases h0

/-- A reserved thread becomes RUNNABLE. -/
theorem Slots.start (hslot : (s.pc t).hold.slot = some n) (hstacked : (s.pc t).stacked = true)
    (hmpn : (s.thread n).mp = some q) :
    Slots none (((s.setThd n fun x => { x with state := .runnable }).setProc q fun x =>
      { x with state := .runnable }).setPc t .sysret) := by
  obtain ⟨hst, -, hstack⟩ := h.slot t n hslot
  have hset : Slots none ((s.setPc t .sysret).setThd n fun x => { x with state := .runnable }) := by
    refine (h.letGo hpanic hon).setThd (.inl (by rw [setPc_thread, hst]; decide)) (h.nobody hslot) (.inr rfl)
      (fun _ => ?_) (fun _ => hstack hstacked) (fun _ _ => ?_) fun r hr => .inl hr
    · rw [setPc_thread, hmpn]
      simp
    · show ProcState.embryo < .runnable
      decide
  refine Slots.setProc (s := (s.setPc t .sysret).setThd n fun x => { x with state := .runnable })
    (f := fun x => { x with state := .runnable }) hset (.inl fun u hu => ?_) fun h0 => by cases h0
  -- the holder of `q` holds `n`
  have hu' := ((h.letGo hpanic hon).child u q hu).2 n hmpn
  exact h.nobody hslot u hu'.1

/-- Every stretch keeps the invariant. -/
theorem Stretch.slots (hs : Stretch s a c p t s') : Slots none s' := by
  obtain ⟨hrun, hmp⟩ := h.onCpu hpanic hon
  have hlive : .embryo < (s.thread t).state := by rw [hrun]; decide
  cases hs with
  | quiet hl hq => exact hq.slots h
  | move hl hk hx hhold hq =>
    rcases hhold with hhold | ⟨h1, h2, h3, h4, -⟩
    · exact hq.slots (h.setPc t hhold fun _ _ => hlive)
    · exact hq.slots (h.setPc_keep t (fun _ _ => hlive) h1 h2 h3 h4)
  | begins hl ha heq =>
    rw [heq]
    exact h.setPc t rfl fun _ _ => hlive
  | sleep hl hk hx hj hc hq => exact hq.slots (h.asleep hpanic hon hk)
  | await hl hpc hwoke hq =>
    refine hq.slots (Slots.asleep (h.setProc_same rfl) hpanic hon ?_)
    rcases hpc with ⟨-, rfl⟩ | ⟨-, rfl⟩ <;> rfl
  | back hl hpc hq =>
    refine hq.slots ((h.setProc_same rfl).setPc t ?_ fun _ _ => hlive)
    rcases hpc with ⟨-, rfl⟩ | ⟨-, rfl⟩
    · rename_i e
      cases e <;> rfl
    · rfl
  | commit hl hpc hsib hq => exact hq.slots (h.commit hpanic hon)
  | finish hl hsib h₁ hnear hq =>
    refine hq.slots ((h₁.slots (h.setProc_same rfl)).dead ?_ ?_)
    · rw [hnear.panic, hpanic]
    · rw [hnear.onCpu, hon]
  | die hl heax hwoke hq => exact hq.slots (h.dead hpanic hon)
  | kill hl hpc hwoke hq => exact hq.slots ((h.setProc_same rfl).setPc t rfl fun _ _ => hlive)
  | misbehave hl hpc hq => exact hq.slots ((h.setProc_same rfl).setPc t rfl fun _ _ => hlive)
  | join hl hu hpc hq =>
    have hz := List.find?_some hu
    simp only [decide_eq_true_eq] at hz
    exact hq.slots (h.join hpanic hon hz.2.2)
  | reap hl hz hall hq => exact hq.slots (h.reapChild hpanic hon hz hall)
  | allocproc hl hnp hq => exact hq.slots (h.allocproc hpanic hon hnp)
  | forkFail hl hnp howned hq => exact hq.slots (h.forkFail hpanic hon hnp howned)
  | alloc hl hpc hn heq =>
    rw [heq]
    exact h.alloc hpanic hon hpc hn _ _
  | stack hl hpc heq =>
    rw [heq]
    exact h.allocStack hpanic hon hpc _
  | own hl ha hpc heq =>
    rw [heq]
    exact h.allocOwner hpanic hon hpc
  | fail hl hslot hq => exact hq.slots (h.giveBack hpanic hon hslot)
  | failFork hl hslot hnp howned hq => exact hq.slots (h.giveBackFork hpanic hon hslot hnp howned)
  | start hl hslot howned hstacked hplaced hmpn hq => exact hq.slots (h.start hpanic hon hslot hstacked hmpn)
  | grow hl ha heq =>
    rw [heq]
    exact h.switchuvm c p

end OnCpu

/-! ## Places and owners -/

theorem asleep_thread : (s.asleep p t chan k).thread u =
    if u = t then { s.thread t with state := .sleeping, chan := some chan } else s.thread u := by
  rw [asleep, setPc_thread, setstate_thread]
  by_cases hu : u = t <;> simp [hu]

theorem dead_thread : (s.dead p t).thread u =
    if u = t then { s.thread t with state := .zombie } else s.thread u := by
  rw [dead, setPc_thread, setstate_thread]

theorem asleep_pc : (s.asleep p t chan k).pc u = if u = t then k else s.pc u := by
  rw [asleep, setPc_pc, setstate_pc]
  rfl

theorem dead_pc : (s.dead p t).pc u = if u = t then .dead else s.pc u := by
  rw [dead, setPc_pc, setstate_pc]

theorem asleep_mp : ((s.asleep p t chan k).thread u).mp = (s.thread u).mp := by
  rw [asleep_thread]
  split
  · rename_i hut
    rw [hut]
  · rfl

theorem dead_mp : ((s.dead p t).thread u).mp = (s.thread u).mp := by
  rw [dead_thread]
  split
  · rename_i hut
    rw [hut]
  · rfl

/-- The other threads stay where they are; a new thread's first place is `forkret`. -/
theorem Stretch.pc_other (hst : Stretch s a c p t s') (hu : u ≠ t) :
    s'.pc u = s.pc u ∨ s'.pc u = .forkret ∧ (s.pc t).hold.slot = some u := by
  cases hst with
  | own hl ha hpc heq =>
    rw [heq, allocOwner_eq, setPc_pc, if_neg hu, setThd_pc, setPc_pc]
    split
    · rename_i hun
      rw [hun, hpc]
      exact .inr ⟨rfl, rfl⟩
    · exact .inl rfl
  | quiet _ hq => exact .inl (by rw [hq.pc])
  | grow _ _ heq => exact .inl (by rw [heq, switchuvm_pc])
  | begins _ _ heq => exact .inl (by rw [heq, setPc_pc, if_neg hu])
  | alloc _ _ _ heq | stack _ _ heq => exact .inl (by rw [heq, setPc_pc, if_neg hu]; rfl)
  | finish _ _ h₁ _ hq => exact .inl (by rw [hq.pc, dead_pc, if_neg hu, h₁.pc]; rfl)
  | die _ _ _ hq => exact .inl (by rw [hq.pc, dead_pc, if_neg hu])
  | sleep _ _ _ _ _ hq => exact .inl (by rw [hq.pc, asleep_pc, if_neg hu])
  | await _ _ _ hq => exact .inl (by rw [hq.pc, asleep_pc, if_neg hu]; rfl)
  | commit _ _ _ hq =>
    refine .inl ?_
    rw [hq.pc, setPc_pc, if_neg hu, switchuvm_pc, freeAll_pc]
    rfl
  | reap _ _ _ hq =>
    refine .inl ?_
    rw [hq.pc, setPc_pc, if_neg hu, reap_eq, setProc_pc, freeAll_pc]
  | join _ _ _ hq => exact .inl (by rw [hq.pc, setPc_pc, if_neg hu, freeThd_pc])
  | move _ _ _ _ hq => exact .inl (by rw [hq.pc, setPc_pc, if_neg hu])
  | back | kill | misbehave | allocproc | forkFail | fail | failFork | start =>
    rename_i hq
    exact .inl (by rw [hq.pc, setPc_pc, if_neg hu]; rfl)

/-- Where a stretch of thread `t` of `p` takes it. -/
inductive Lands (s : Kernel) (a : Act) (p : ProcPtr) (t : ThdPtr) (s' : Kernel) : Prop
  /-- it stays, or moves on with the reservations it had or with none; no slot changes -/
  | same (hl : s.label p t a = .plain) (hx : (s'.pc t).inExec → (s.pc t).inExec)
      (hhold : (s'.pc t).hold = {} ∨ (s'.pc t).hold.np = (s.pc t).hold.np ∧
        (s'.pc t).hold.slot = (s.pc t).hold.slot ∧ (s'.pc t).hold.owned = (s.pc t).hold.owned ∧
        ((s'.pc t).placed → (s.pc t).placed ∨ (a.making (s.pc t)).stacks))
      (hthd : ∀ n, SameSlot (s.thread n) (s'.thread n))
  | sleep {chan : Chan} (hl : s.label p t a = .plain) (hold : (s'.pc t).hold = {})
      (hx : (s'.pc t).inExec → (s.pc t).inExec)
      (hj : ∀ i, s'.pc t = .joinSleep i → chan = .proc p ∧ s.joinTarget p i = none)
      (hthd : SameSlot { s.thread t with state := .sleeping, chan := some chan } (s'.thread t))
  | clear (hold : (s'.pc t).hold = {})
      (hx : (s'.pc t).inExec → (s.pc t).inExec ∧ s.label p t a = .plain ∨ s.label p t a = .begins)
      (hj : ∀ i, s'.pc t ≠ .joinSleep i)
  | allocproc {np : ProcPtr} (hpc : s'.pc t = .forkCopy np) (hnp : (s.proc np).state = .unused)
  /-- it goes on with a new thread, that `allocthd` has just made one of a process or not yet -/
  | filling (hnp : (s'.pc t).hold.np = (s.pc t).hold.np) (hx : (s'.pc t).inExec = false)
      (hj : ∀ i, s'.pc t ≠ .joinSleep i) (hplaced : (s'.pc t).placed = false)
      (howned : (s'.pc t).hold.owned = false ∨ ∃ n k, (s'.pc t).hold.slot = some n ∧
        s.label p t a = .plain ∧ a.making (s.pc t) = .owns k n ∧
        (s'.thread n).mp = some (AllocCaller.next k p n).1 ∧ (s'.thread n).tid = (s.thread n).tid)

theorem Lands.of_pc (hpc : s'.pc t = k) (hold : k.hold = {}) (hx : k.inExec = false)
    (hj : ∀ i, k ≠ .joinSleep i) : Lands s a p t s' := by
  subst hpc
  exact .clear hold (fun h0 => by rw [hx] at h0; cases h0) hj

theorem Stretch.lands (hst : Stretch s a c p t s') : Lands s a p t s' := by
  cases hst with
  | quiet hl hq =>
    have hpc := congrFun hq.pc t
    exact .same hl (by rw [hpc]; exact id) (.inr (by rw [hpc]; exact ⟨rfl, rfl, rfl, .inl⟩)) hq.thd
  | grow hl ha heq =>
    have hpc : s'.pc t = s.pc t := by rw [heq, switchuvm_pc]
    refine .same hl (by rw [hpc]; exact id) (.inr (by rw [hpc]; exact ⟨rfl, rfl, rfl, .inl⟩)) fun n => ?_
    rw [heq, switchuvm_thread]
    exact .refl _
  | @move k hl hk hx hhold hq =>
    obtain rfl : s'.pc t = k := by rw [hq.pc, setPc_pc, if_pos rfl]
    exact .same hl hx (hhold.imp id fun h0 => ⟨h0.1, h0.2.1, h0.2.2.1, h0.2.2.2.2⟩) hq.thd
  | @sleep k chan hl hk hx hj hc hq =>
    obtain rfl : s'.pc t = k := by rw [hq.pc, asleep_pc, if_pos rfl]
    have hthd := hq.thd t
    rw [asleep_thread, if_pos rfl] at hthd
    exact .sleep hl (rests_hold hk) hx hj hthd
  | @await e k hl hpc hwoke hq =>
    obtain rfl : s'.pc t = k := by rw [hq.pc, asleep_pc, if_pos rfl]
    rcases hpc with ⟨-, hk⟩ | ⟨hpc, hk⟩
    · exact .of_pc hk rfl rfl nofun
    · refine .clear (by rw [hk]; rfl) (fun _ => .inl ⟨by rw [hpc]; rfl, hl⟩) fun i h0 => ?_
      cases hk.symm.trans h0
  | @back e k hl hpc hq =>
    obtain rfl : s'.pc t = k := by rw [hq.pc, setPc_pc, if_pos rfl]
    rcases hpc with ⟨-, hk⟩ | ⟨-, hk⟩
    · cases e <;> exact .of_pc hk rfl rfl nofun
    · exact .of_pc hk rfl rfl nofun
  | begins hl ha heq =>
    have hpc := congrFun (congrArg pc heq) t
    rw [setPc_pc, if_pos rfl] at hpc
    refine .clear (by rw [hpc]; rfl) (fun _ => .inr hl) fun i h0 => ?_
    cases hpc.symm.trans h0
  | allocproc hl hnp hq => exact .allocproc (by rw [hq.pc, setPc_pc, if_pos rfl]) hnp
  | alloc _ hpc _ heq | stack _ hpc heq =>
    have hpc' := congrFun (congrArg pc heq) t
    rw [setPc_pc, if_pos rfl] at hpc'
    refine .filling ?_ ?_ (fun i h0 => ?_) ?_ (.inl ?_)
    · rw [hpc', hpc]
      rfl
    · rw [hpc']
      rfl
    · cases hpc'.symm.trans h0
    · rw [hpc']
      rfl
    · rw [hpc']
      rfl
  | @own n k _ _ hl ha hpc heq =>
    have hpc' : s'.pc t = (AllocCaller.next k p n).2 := by
      rw [heq, allocOwner_eq, setPc_pc, if_pos rfl]
    have hthd : s'.thread n = { s.thread n with mp := some (AllocCaller.next k p n).1 } := by
      rw [heq, allocOwner_eq, setPc_thread, setThd_thread, if_pos rfl]
      rfl
    have hown : a.making (s.pc t) = .owns k n := by
      rw [ha, hpc]
      rfl
    refine .filling ?_ ?_ (fun i h0 => ?_) ?_
      (.inr ⟨n, k, ?_, hl, hown, by rw [hthd], by rw [hthd]⟩)
    · rw [hpc', hpc]
      cases k <;> rfl
    · rw [hpc']
      cases k <;> rfl
    · cases k <;> cases hpc'.symm.trans h0
    · rw [hpc']
      cases k <;> rfl
    · rw [hpc']
      cases k <;> rfl
  | finish | die =>
    rename_i hq
    exact .of_pc (k := .dead) (by rw [hq.pc, dead_pc, if_pos rfl]) rfl rfl nofun
  | misbehave _ _ hq =>
    exact .of_pc (by rw [hq.pc, setPc_pc, if_pos rfl]) rfl rfl fun _ h0 => by cases h0
  | commit | join | reap | kill | forkFail | fail | failFork | start =>
    rename_i hq
    exact .of_pc (k := .sysret) (by rw [hq.pc, setPc_pc, if_pos rfl]) rfl rfl nofun

/-- The call of `exec` is the only way into it. -/
theorem Stretch.inExec_self (hst : Stretch s a c p t s') (hx : (s'.pc t).inExec) :
    (s.pc t).inExec ∧ s.label p t a = .plain ∨ s.label p t a = .begins := by
  cases hst.lands with
  | same hl hx' | sleep hl _ hx' => exact .inl ⟨hx' hx, hl⟩
  | clear _ hx' => exact hx' hx
  | allocproc hpc =>
    rw [hpc] at hx
    cases hx
  | filling _ hx' =>
    rw [hx'] at hx
    cases hx

/-- A stretch with that label is the end of `exec`. -/
theorem Stretch.commits (hst : Stretch s a c p t s') (hl : s.label p t a = .commits) :
    ¬ s.Sibling p t ∧ Quiet none none ((((s.setExited p false).freeAll
      fun u r => u ≠ t ∧ r.mp = some p ∧ r.state = .zombie).switchuvm c p).setPc t .sysret) s' := by
  cases hst with
  | commit _ _ hsib hq => exact ⟨hsib, hq⟩
  | begins hl' | die hl' | join hl' | quiet hl' | move hl' | sleep hl' | await hl' | back hl' | finish hl'
  | kill hl' | misbehave hl' | reap hl' | allocproc hl' | forkFail hl' | alloc hl' | stack hl' | own hl'
  | fail hl' | failFork hl' | start hl' | grow hl' =>
    rw [hl] at hl'
    cases hl'

/-- A live thread keeps its process. -/
theorem Stretch.mp_live (h : Slots none s) (hst : Stretch s a c p t s')
    (hu : .embryo < (s.thread u).state) : (s'.thread u).mp = (s.thread u).mp := by
  have hz : (s.thread u).state ≠ .zombie := by
    intro h0
    rw [h0] at hu
    exact absurd hu (by decide)
  have hheld : ∀ n, (s.pc t).hold.slot = some n → u ≠ n := by
    rintro n hn rfl
    exact h.slot_low hn hu
  cases hst with
  | quiet hl hq => rw [(hq.thd u).mp]
  | begins hl ha heq => rw [heq, setPc_thread]
  | grow hl ha heq => rw [heq, switchuvm_thread]
  | sleep hl hk hx hj hc hq => rw [(hq.thd u).mp, asleep_mp]
  | await hl hpc hwoke hq =>
    rw [(hq.thd u).mp, asleep_mp]
    rfl
  | finish hl hsib h₁ hnear hq =>
    rw [(hq.thd u).mp, dead_mp, (h₁.thd u).mp]
    rfl
  | die hl heax hwoke hq => rw [(hq.thd u).mp, dead_mp]
  | own hl ha hpc heq =>
    rw [heq, allocOwner_eq, setPc_thread, setThd_thread, if_neg (hheld _ (by rw [hpc]; rfl))]
    rfl
  | @alloc n k hl hpc hn heq =>
    have hun : u ≠ n := by
      rintro rfl
      rw [hn] at hu
      exact absurd hu (by decide)
    rw [heq]
    exact congrArg Thread.mp (if_neg hun)
  | stack hl hpc heq =>
    rw [heq, setPc_thread, setThd_thread, if_neg (hheld _ (by rw [hpc]; rfl))]
  | commit hl hpc hsib hq =>
    rw [(hq.thd u).mp, setPc_thread, switchuvm_thread, freeAll_thread, if_neg fun h0 => hz h0.2.2]
    rfl
  | join hl hu' hpc hq =>
    have huu := List.find?_some hu'
    simp only [decide_eq_true_eq] at huu
    rw [(hq.thd u).mp, setPc_thread, freeThd_thread, if_neg]
    rintro rfl
    exact hz huu.2.2
  | reap hl hz' hall hq =>
    rw [(hq.thd u).mp, setPc_thread, reap_eq, setProc_thread, freeAll_thread,
      if_neg fun h0 => hz (hall u h0)]
  | fail hl hslot hq =>
    rw [(hq.thd u).mp, setPc_thread, setThd_thread, if_neg (hheld _ hslot)]
  | failFork _ hslot _ _ hq | start _ hslot _ _ _ _ hq =>
    rw [(hq.thd u).mp, setPc_thread, setProc_thread, setThd_thread, if_neg (hheld _ hslot)]
  | move | back | kill | misbehave | allocproc | forkFail =>
    rename_i hq
    rw [(hq.thd u).mp]
    rfl

/-! ## Runs -/

/-- A step is scheduling, or scheduling that leads to a state `s₁` in which the thread on the CPU
does one of its stretches. -/
theorem Slots.step_cases (h : Slots none s) (hok : ReapsDead s a) (hs : s.step a = some s') :
    (Quiet none none s s' ∧ ∀ c p t, s.onCpu c = some (p, t) → s.label p t a = .plain) ∨
      ∃ c p t s₁, a.cpu = some c ∧ s.onCpu c = some (p, t) ∧ Quiet none none s s₁ ∧ Near s s₁ ∧
        Slots none s₁ ∧ s₁.panic = none ∧ s₁.onCpu c = some (p, t) ∧ Stretch s₁ a c p t s' := by
  rcases step_does h hok hs with hq | ⟨c, p, t, ha, hon, s₁, hq, hnear, hst⟩
  · exact .inl hq
  · refine .inr ⟨c, p, t, s₁, ha, hon, hq, hnear, hq.slots h, ?_, ?_, hst⟩
    · rw [hnear.panic, step_panic hs]
    · rw [hnear.onCpu, hon]

theorem Slots.step (h : Slots none s) (hok : ReapsDead s a) (hs : s.step a = some s') :
    Slots none s' := by
  rcases h.step_cases hok hs with ⟨hq, -⟩ | ⟨c, p, t, s₁, -, -, -, -, h₁, hp, hon, hst⟩
  · exact hq.slots h
  · exact hst.slots h₁ hp hon

/-- What a thread inside the kernel does: it goes on with its call, or behind the switch that it
comes back from, or is preempted. -/
theorem step_inside (hs : s.step a = some s') (ha : a.cpu = some c) (hon : s.onCpu c = some (p, t))
    (huser : s.pc t ≠ .user) (hwork : ∀ w, a = .work c w → s.pc t ≠ .kernel) :
    (∃ ok page, a = .kstep c ok page ∧ s.kstep c p t ok page = some s') ∨
      (a = .resume c ∧ s.resume c p t = s') ∨
      (s.thread t).state = .running ∧ s.yield c p t = s' := by
  cases steps hs with
  | dispatch | intrWakeup => cases ha
  | resume hon' =>
    cases ha
    cases hon.symm.trans hon'
    exact .inr (.inl ⟨rfl, rfl⟩)
  | preempt hon' hrun =>
    cases ha
    cases hon.symm.trans hon'
    exact .inr (.inr ⟨hrun, rfl⟩)
  | trap hon' hpc | syscall hon' hpc =>
    cases ha
    cases hon.symm.trans hon'
    exact absurd hpc huser
  | kstep hon' hk =>
    cases ha
    cases hon.symm.trans hon'
    exact .inl ⟨_, _, rfl, hk⟩
  | work hon' hpc =>
    cases ha
    cases hon.symm.trans hon'
    exact absurd hpc (hwork _ rfl)

/-- A thread that a step moves on inside a system call moved itself: with the next stretch of the
call, or behind a sleep. -/
theorem Slots.moves (h : Slots none s) (hok : ReapsDead s a) (hs : s.step a = some s')
    (huser : s.pc t ≠ .user) (hwork : ∀ c p w, a = .work c w → s.onCpu c = some (p, t) → s.pc t ≠ .kernel)
    (hlive : .embryo < (s.thread t).state) (hmoved : s'.pc t ≠ s.pc t) :
    ∃ c p, s.onCpu c = some (p, t) ∧
      ((∃ ok page, a = .kstep c ok page ∧ s.kstep c p t ok page = some s') ∨
        a = .resume c ∧ s.resume c p t = s') := by
  have hpanic := step_panic hs
  rcases h.step_cases hok hs with ⟨hq, -⟩ | ⟨c, p, v, s₁, ha, hon, hq, -, h₁, -, -, hst⟩
  · exact absurd (congrFun hq.pc t) hmoved
  · obtain rfl : v = t := by
      by_contra hne
      rcases hst.pc_other (Ne.symm hne) with h0 | ⟨-, hslot⟩
      · exact hmoved (h0.trans (congrFun hq.pc t))
      · -- a slot that is being filled in is EMBRYO
        exact h₁.slot_low hslot ((hq.thd t).live.mpr hlive)
    refine ⟨c, p, hon, ?_⟩
    rcases step_inside hs ha hon huser fun w hw => hwork c p w hw hon with hk | hres | ⟨hrun, rfl⟩
    · exact .inl hk
    · exact .inr hres
    · obtain ⟨hproc, hthd⟩ := onCpu_iff.mp hon
      have hyield := quiet_yield hproc hthd (h.onCpu hpanic hon).2 hrun
      exact absurd (congrFun hyield.pc v) hmoved

theorem boot_slots : Slots none boot := by
  have hthd : ∀ t, boot.thread t = if t = 0 then
      { kstack := some 0, state := .runnable, tid := 1, mp := some 0 } else {} := fun _ => rfl
  have hpc : ∀ t, boot.pc t = .forkret ∨ boot.pc t = .dead := by
    intro t
    by_cases ht : t = 0
    · exact .inl (if_pos ht)
    · exact .inr (if_neg ht)
  have hhold : ∀ t, (boot.pc t).hold = {} := by
    intro t
    rcases hpc t with h | h <;> rw [h] <;> rfl
  have hstarted : ∀ t, (boot.thread t).state.started → t = 0 := by
    intro t ht
    by_contra h0
    rw [hthd, if_neg h0] at ht
    exact absurd ht ProcState.not_started_unused
  refine ⟨fun _ => ⟨fun d u _ hu => (by cases hu), fun d e u _ _ hu => (by cases hu)⟩, fun t ht => ?_,
    fun t ht => ?_, fun t h1 h2 => ?_, fun t n hn => ?_, fun t u n hn => ?_, fun t np hn => ?_,
    fun t u np hn => ?_, fun q hq u hu => ?_, fun h => (by cases h)⟩
  · rw [hstarted t ht, hthd, if_pos rfl]
    exact fun h => by cases h
  · rw [hstarted t ht, hthd, if_pos rfl]
    exact fun h => by cases h
  · rcases hpc t with h | h
    · exact absurd h h2
    · exact absurd h h1
  · rw [hhold] at hn
    cases hn
  · rw [hhold] at hn
    cases hn
  · rw [hhold] at hn
    cases hn
  · rw [hhold] at hn
    cases hn
  · rw [hthd] at hu
    split at hu
    · cases hu
      cases hq
    · cases hu

/-- The thread table is in order in every state that a run from boot reaches. -/
theorem slots_of_reaches {ok : Kernel → Act → Prop} (hok : ∀ s a, ok s a → ReapsDead s a)
    (h : Reaches Kernel.step ok boot s) : Slots none s :=
  h.invariant boot_slots fun s a _ hs hok' hstep => hs.step (hok s a hok') hstep

/-- In every run, on any number of CPUs, in which `wait` reaps only dead children: a CPU runs a RUNNING
thread of its process, with a kernel stack, that no other CPU runs, and no two calls of `fork` and
`thread_create` are making one thread or one process, which is EMBRYO as long as they are. -/
theorem cpus_and_slots_exclusive (h : Reaches Kernel.step ReapsDead boot s) :
    (s.panic = none → ∀ c t, (s.cpu c).thd = some t → (s.thread t).state = .running ∧
      (s.cpu c).proc = (s.thread t).mp ∧ (s.thread t).kstack ≠ none ∧
      ∀ d, (s.cpu d).thd = some t → d = c) ∧
    (∀ t n, (s.pc t).hold.slot = some n → (s.thread n).state = .embryo ∧
      ∀ u, (s.pc u).hold.slot = some n → u = t) ∧
    ∀ t np, (s.pc t).hold.np = some np → (s.proc np).state = .embryo ∧
      ∀ u, (s.pc u).hold.np = some np → u = t := by
  have hslots := slots_of_reaches (fun _ _ => id) h
  refine ⟨fun hpanic c t hc => ?_, fun t n hn => ⟨(hslots.slot t n hn).1, fun u hu => ?_⟩,
    fun t np hnp => ⟨(hslots.child t np hnp).1, fun u hu => ?_⟩⟩
  · obtain ⟨hrun, hproc⟩ := (hslots.cpus hpanic).running c t nofun hc
    have hstack := hslots.stack t (.inl (by rw [hrun]; decide))
    exact ⟨hrun, hproc, hstack, fun d hd => (hslots.cpus hpanic).alone d c t nofun nofun hd hc⟩
  · exact hslots.slot_inj u t n hu hn
  · exact hslots.child_inj u t np hu hnp

/-- A `thread_create` takes slot 1. -/
def slotRun : List Act := [.dispatch 0, .resume 0, .syscall 0 .threadCreate, .kstep 0 true none]

theorem cpus_and_slots_exclusive_creating : ∃ s, Reaches Kernel.step ReapsDead boot s ∧
    (s.pc 0).hold.slot = some 1 ∧ ∀ u, (s.pc u).hold.slot = some 1 → u = 0 := by
  have hrun : ∃ s, Reaches step ReapsDead boot s ∧ (s.pc 0).hold.slot = some 1 :=
    exists_reaches slotRun (fun s : Kernel => (s.pc 0).hold.slot = some 1) (by decide +kernel)
  obtain ⟨s, hreach, hs⟩ := hrun
  exact ⟨s, hreach, hs, ((cpus_and_slots_exclusive hreach).2.1 0 1 hs).2⟩

end Kernel

end Xv6
