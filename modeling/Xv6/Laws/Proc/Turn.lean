import Xv6.Laws.Proc.SlotsRun

/-!
# What a stretch does to one slot

`Turn` is the life cycle of a thread slot as one thread's stretch can advance it; `Stretch.turn`
reads it off the stretches once. Only `allocthd` takes an UNUSED slot, and `Stretch.turn` keeps
that case apart, because it also hands out a tid.

`Tids` is what the tids of a run are good for: slots in use have different ones, and none of
them will be handed out again until the counter wraps.
-/

namespace Xv6

open Xv6.Lib

namespace Kernel

variable {s s' s₁ : Kernel} {a : Act} {p q : ProcPtr} {t u n : ThdPtr} {c : CpuId}

/-- What the stretch of thread `t` of `p` from `s` to `s'` does to slot `u`. -/
inductive Turn (s : Kernel) (a : Act) (p : ProcPtr) (t : ThdPtr) (s' : Kernel) (u : ThdPtr) : Prop
  | same (h : SameSlot (s.thread u) (s'.thread u))
  /-- the thread itself falls asleep, on its process or on what a system call has named -/
  | sleeps (hu : u = t) (hmp : (s'.thread u).mp = (s.thread u).mp)
      (htid : (s'.thread u).tid = (s.thread u).tid) (hk : (s'.thread u).kstack = (s.thread u).kstack)
      (hlive : .embryo < (s'.thread u).state)
      (hchan : (s'.thread u).state = .sleeping → ∃ ch, (s'.thread u).chan = some ch ∧
        (ch = .proc p ∨ ∃ d, a = .work d (.sleep ch)))
  /-- the thread itself dies: at the end of `thread_exit`, or at that of `exit` -/
  | dies (hu : u = t) (hmp : (s'.thread u).mp = (s.thread u).mp)
      (htid : (s'.thread u).tid = (s.thread u).tid) (hk : (s'.thread u).kstack = (s.thread u).kstack)
      (hz : (s'.thread u).state = .zombie)
      (hend : s.label p t a = .dies (s'.thread u).eax ∧
          (∀ v, (s.thread v).state = .sleeping → (s.thread v).chan ≠ some (.proc p)) ∨
        s.label p t a = .plain ∧ ¬ s.Sibling p t)
  /-- a ZOMBIE slot is freed, by `thread_join`, by `exec` or by `wait` -/
  | freed (hz : (s.thread u).state = .zombie) (hst : (s'.thread u).state = .unused)
      (hmp : (s'.thread u).mp = none) (hk : (s'.thread u).kstack = none)
  /-- a reserved slot gets its kernel stack -/
  | stacked (hslot : (s.pc t).hold.slot = some u) (hmp : (s'.thread u).mp = (s.thread u).mp)
      (htid : (s'.thread u).tid = (s.thread u).tid) (hst : (s'.thread u).state = .embryo)
      (hk : (s'.thread u).kstack ≠ none)
  /-- a reserved slot gets its process -/
  | owned {k : AllocCaller} (hpc : s.pc t = .allocOwner k u)
      (hmp : (s'.thread u).mp = some (AllocCaller.next k p u).1)
      (htid : (s'.thread u).tid = (s.thread u).tid) (hk : (s'.thread u).kstack = (s.thread u).kstack)
      (hst : (s'.thread u).state = .embryo) (hself : t ≠ u → s'.thread t = s.thread t)
  /-- a reserved slot is given back -/
  | gaveBack (hslot : (s.pc t).hold.slot = some u) (hmp : (s'.thread u).mp = (s.thread u).mp)
      (hst : (s'.thread u).state = .unused) (hk : (s'.thread u).kstack = none)
  /-- a reserved slot becomes RUNNABLE -/
  | started (hslot : (s.pc t).hold.slot = some u) (howned : (s.pc t).hold.owned = true)
      (hplaced : (s.pc t).placed = true) (hmp : (s'.thread u).mp = (s.thread u).mp)
      (htid : (s'.thread u).tid = (s.thread u).tid) (hk : (s'.thread u).kstack = (s.thread u).kstack)
      (hlive : .embryo < (s'.thread u).state) (hawake : (s'.thread u).state ≠ .sleeping)

theorem switchuvm_nexttid : (s.switchuvm c p).nexttid = s.nexttid := by
  unfold switchuvm
  split
  · rfl
  · split <;> rfl

theorem freeThd_nexttid : (s.freeThd u).nexttid = s.nexttid := by
  unfold freeThd kfree
  split <;> rfl

theorem freeAll_nexttid {P : ThdPtr → Thread → Prop} [∀ u, DecidablePred (P u)] :
    (s.freeAll P).nexttid = s.nexttid :=
  freeAll_induct P (motive := fun s' => s'.nexttid = s.nexttid) rfl
    fun _ _ hs _ => freeThd_nexttid.trans hs

theorem setProc_nexttid (f : Proc → Proc) : (s.setProc q f).nexttid = s.nexttid := rfl
theorem setPc_nexttid (k : Pc) : (s.setPc t k).nexttid = s.nexttid := rfl

theorem reap_nexttid : (s.reap q).nexttid = s.nexttid := by
  rw [reap_eq, setProc_nexttid, freeAll_nexttid]

/-- The slots when thread `t` has gone to sleep. -/
theorem turn_asleep {m : Kernel} {x y : Option CpuId} {chan : Chan} {k : Pc} (hm : m.thread = s.thread)
    (hc : chan = .proc p ∨ ∃ d, a = .work d (.sleep chan)) (hq : Quiet x y (m.asleep p t chan k) s')
    (u : ThdPtr) : Turn s a p t s' u := by
  have hslot := hq.thd u
  rw [asleep_thread] at hslot
  split at hslot
  · rename_i hut
    subst hut
    rw [hm] at hslot
    refine .sleeps rfl hslot.mp hslot.tid hslot.kstack (hslot.live.mpr ?_) fun hsl => ?_
    · show ProcState.embryo < .sleeping
      decide
    · exact ⟨chan, (hslot.asleep hsl).2, hc⟩
  · rw [hm] at hslot
    exact .same hslot

/-- The slots when thread `t` has died. -/
theorem turn_dead {m : Kernel} {x y : Option CpuId} (hm : ∀ u, SameSlot (s.thread u) (m.thread u))
    (hq : Quiet x y (m.dead p t) s')
    (hend : s.label p t a = .dies (m.thread t).eax ∧
        (∀ v, (s.thread v).state = .sleeping → (s.thread v).chan ≠ some (.proc p)) ∨
      s.label p t a = .plain ∧ ¬ s.Sibling p t) (u : ThdPtr) : Turn s a p t s' u := by
  have hslot := hq.thd u
  rw [dead_thread] at hslot
  split at hslot
  · rename_i hut
    subst hut
    refine .dies rfl (hslot.mp.trans (hm u).mp) (hslot.tid.trans (hm u).tid)
      (hslot.kstack.trans (hm u).kstack) (hslot.zombie.mpr rfl) ?_
    rw [hslot.eax rfl]
    exact hend
  · exact .same ((hm u).trans hslot)

/-- A ZOMBIE slot that has been freed. -/
theorem turn_freed {m : Kernel} {x y : Option CpuId} (hz : (s.thread u).state = .zombie)
    (hm : m.thread u = Thread.freed (s.thread u))
    (hq : Quiet x y m s') : Turn s a p t s' u := by
  have hslot := hq.thd u
  rw [hm] at hslot
  refine .freed hz (hslot.low ?_) hslot.mp hslot.kstack
  show ¬ ProcState.embryo < .unused
  decide

/-- A reserved slot that has been given back. -/
theorem turn_gaveBack {m : Kernel} {x y : Option CpuId} (hslot : (s.pc t).hold.slot = some n)
    (hq : Quiet x y m s')
    (hm : ∀ u, m.thread u = (s.unalloc n).thread u)
    (u : ThdPtr) : Turn s a p t s' u := by
  have hthd := hq.thd u
  rw [hm, setThd_thread] at hthd
  split at hthd
  · rename_i hun
    subst hun
    refine .gaveBack hslot hthd.mp (hthd.low ?_) hthd.kstack
    show ¬ ProcState.embryo < .unused
    decide
  · exact .same hthd

/-- The slots after a stretch: `allocthd` takes one and hands out a tid, every other stretch is a
turn of each slot. -/
theorem Stretch.turn (h : Slots none s) (hst : Stretch s a c p t s') :
    (s'.nexttid = s.nexttid ∧ ∀ u, Turn s a p t s' u) ∨
      ∃ n k, s.pc t = .allocthd k ∧ (s.thread n).state = .unused ∧
        s' = { s.setThd n fun x => { x with state := .embryo, tid := s.nexttid } with
          nexttid := s.nexttid + 1 }.setPc t (.allocStack k n) := by
  -- a slot that the middle state has as it was
  have hsame : ∀ {m : Kernel} {u}, Quiet none none m s' → m.thread u = s.thread u →
      Turn s a p t s' u := fun hq heq => .same (heq ▸ hq.thd _)
  cases hst with
  | alloc hl hpc hn heq => exact .inr ⟨_, _, hpc, hn, heq⟩
  | quiet hl hq => exact .inl ⟨hq.nexttid, fun u => .same (hq.thd u)⟩
  | begins hl ha heq =>
    rw [heq]
    exact .inl ⟨rfl, fun u => .same (.refl _)⟩
  | grow hl ha heq =>
    rw [heq]
    refine .inl ⟨?_, fun u => .same ?_⟩
    · exact switchuvm_nexttid
    · rw [switchuvm_thread]
      exact .refl _
  | move hl hk hx hhold hq => exact .inl ⟨hq.nexttid, fun u => hsame hq rfl⟩
  | back hl hpc hq => exact .inl ⟨hq.nexttid, fun u => hsame hq rfl⟩
  | kill hl hpc hwoke hq => exact .inl ⟨hq.nexttid, fun u => hsame hq rfl⟩
  | misbehave hl hpc hq => exact .inl ⟨hq.nexttid, fun u => hsame hq rfl⟩
  | allocproc hl hnp hq => exact .inl ⟨hq.nexttid, fun u => hsame hq rfl⟩
  | forkFail hl hnp howned hq => exact .inl ⟨hq.nexttid, fun u => hsame hq rfl⟩
  | sleep hl hk hx hj hc hq =>
    refine .inl ⟨hq.nexttid.trans ?_, turn_asleep rfl (hc.imp id fun h0 => ⟨_, h0⟩) hq⟩
    rw [asleep]
    exact setstate_nexttid
  | await hl hpc hwoke hq =>
    refine .inl ⟨hq.nexttid.trans ?_, turn_asleep (setProc_thread _ _ _) (.inl rfl) hq⟩
    rw [asleep]
    exact setstate_nexttid
  | finish hl hsib h₁ hnear hq =>
    refine .inl ⟨?_, turn_dead (fun u => h₁.thd u) hq (.inr ⟨hl, hsib⟩)⟩
    rw [hq.nexttid, dead]
    exact setstate_nexttid.trans h₁.nexttid
  | die hl heax hwoke hq =>
    refine .inl ⟨?_, turn_dead (fun u => .refl _) hq (.inl ⟨?_, hwoke⟩)⟩
    · rw [hq.nexttid, dead]
      exact setstate_nexttid
    · rw [heax]
      exact hl
  | commit hl hpc hsib hq =>
    refine .inl ⟨?_, fun u => ?_⟩
    · rw [hq.nexttid]
      exact switchuvm_nexttid.trans freeAll_nexttid
    · by_cases hu : u ≠ t ∧ (s.thread u).mp = some p ∧ (s.thread u).state = .zombie
      · refine turn_freed hu.2.2 ?_ hq
        rw [setPc_thread, switchuvm_thread, freeAll_thread, setProc_thread, if_pos hu]
      · refine hsame hq ?_
        rw [setPc_thread, switchuvm_thread, freeAll_thread, setProc_thread, if_neg hu]
  | @join v tid hl hv hpc hq =>
    have hz := List.find?_some hv
    simp only [decide_eq_true_eq] at hz
    refine .inl ⟨hq.nexttid.trans freeThd_nexttid, fun u => ?_⟩
    by_cases hu : u = v
    · rw [hu]
      refine turn_freed hz.2.2 ?_ hq
      rw [setPc_thread, freeThd_thread, if_pos rfl]
    · refine hsame hq ?_
      rw [setPc_thread, freeThd_thread, if_neg hu]
  | @reap q hl hz hall hq =>
    refine .inl ⟨?_, fun u => ?_⟩
    · rw [hq.nexttid, setPc_nexttid, reap_nexttid]
    · by_cases hu : (s.thread u).mp = some q
      · refine turn_freed (hall u hu) ?_ hq
        rw [setPc_thread, reap_eq, setProc_thread, freeAll_thread, if_pos hu]
      · refine hsame hq ?_
        rw [setPc_thread, reap_eq, setProc_thread, freeAll_thread, if_neg hu]
  | @stack n k page hl hpc heq =>
    have hslot : (s.pc t).hold.slot = some n := by
      rw [hpc]
      rfl
    refine .inl ⟨by rw [heq]; rfl, fun u => ?_⟩
    have hthd : s'.thread u = if u = n then { s.thread n with kstack := some page } else s.thread u := by
      rw [heq]
      rfl
    by_cases hu : u = n
    · subst hu
      rw [if_pos rfl] at hthd
      have hst := (h.slot t u hslot).1
      refine .stacked hslot ?_ ?_ ?_ ?_ <;> rw [hthd]
      · exact hst
      · simp
    · rw [if_neg hu] at hthd
      exact .same (hthd ▸ .refl _)
  | @own n k _ _ hl ha hpc heq =>
    have hslot : (s.pc t).hold.slot = some n := by
      rw [hpc]
      rfl
    have hthd : ∀ u, s'.thread u =
        if u = n then { s.thread n with mp := some (AllocCaller.next k p n).1 } else s.thread u := by
      intro u
      rw [heq, allocOwner_eq]
      rfl
    refine .inl ⟨by rw [heq, allocOwner_eq]; rfl, fun u => ?_⟩
    by_cases hu : u = n
    · subst hu
      have hthd' := hthd u
      rw [if_pos rfl] at hthd'
      refine .owned hpc ?_ ?_ ?_ ?_ fun htu => ?_
      · rw [hthd']
      · rw [hthd']
      · rw [hthd']
      · rw [hthd']
        exact (h.slot t u hslot).1
      · rw [hthd, if_neg htu]
    · refine .same ?_
      rw [hthd, if_neg hu]
      exact .refl _
  | fail hl hslot hq => exact .inl ⟨hq.nexttid, turn_gaveBack hslot hq fun _ => rfl⟩
  | failFork hl hslot hnp howned hq => exact .inl ⟨hq.nexttid, turn_gaveBack hslot hq fun _ => rfl⟩
  | @start n q hl hslot howned hstacked hplaced hmp hq =>
    refine .inl ⟨hq.nexttid, fun u => ?_⟩
    have hthd := hq.thd u
    rw [setPc_thread, setProc_thread, setThd_thread] at hthd
    split at hthd
    · rename_i hun
      subst hun
      refine .started hslot howned hplaced hthd.mp hthd.tid hthd.kstack (hthd.live.mpr ?_) fun hsl => ?_
      · show ProcState.embryo < .runnable
        decide
      · cases (hthd.asleep hsl).1
    · exact .same hthd

/-- What becomes of a slot: a turn, or `allocthd` takes it. -/
theorem Stretch.slot (hs : Slots none s) (hst : Stretch s a c p t s') (u : ThdPtr) :
    Turn s a p t s' u ∨ (s.thread u).state = .unused ∧
    (s'.thread u).state = .embryo ∧ (s'.thread u).mp = (s.thread u).mp := by
  rcases hst.turn hs with ⟨-, hturn⟩ | ⟨n, k, hpc, hn, heq⟩
  · exact .inl (hturn u)
  · by_cases hu : u = n
    · subst hu
      have hthd : s'.thread u = { s.thread u with state := .embryo, tid := s.nexttid } := by
        rw [heq, setPc_thread]
        exact if_pos rfl
      exact .inr ⟨hn, by rw [hthd], by rw [hthd]⟩
    · refine .inl (.same ?_)
      have hthd : s'.thread u = s.thread u := by
        rw [heq, setPc_thread]
        exact if_neg hu
      rw [hthd]
      exact .refl _

/-- Another thread that is alive is left alone. -/
theorem Stretch.live_other (hs : Slots none s) (hst : Stretch s a c p t s') (hu : u ≠ t)
    (hlive : .embryo < (s.thread u).state) :
    SameSlot (s.thread u) (s'.thread u) := by
  have hheld : (s.pc t).hold.slot ≠ some u := by
    intro h0
    rw [(hs.slot t u h0).1] at hlive
    exact absurd hlive (by decide)
  rcases hst.slot hs u with hturn | ⟨h0, -⟩
  · cases hturn with
    | same h0 => exact h0
    | sleeps h0 => exact absurd h0 hu
    | dies h0 => exact absurd h0 hu
    | freed h0 =>
      rw [h0] at hlive
      exact absurd hlive (by decide)
    | stacked h0 => exact absurd h0 hheld
    | owned h0 => exact absurd (by rw [h0]; rfl) hheld
    | gaveBack h0 => exact absurd h0 hheld
    | started h0 => exact absurd h0 hheld
  · rw [h0] at hlive
    exact absurd hlive (by decide)

/-- A thread that sleeps after a stretch slept before, or is the one that acts. -/
theorem Stretch.asleep (hs : Slots none s) (hst : Stretch s a c p t s')
    (hsl : (s'.thread u).state = .sleeping) :
    SameSlot (s.thread u) (s'.thread u) ∨ u = t ∧ (s'.thread u).mp = (s.thread u).mp ∧
      ∃ ch, (s'.thread u).chan = some ch ∧ (ch = .proc p ∨ ∃ d, a = .work d (.sleep ch)) := by
  rcases hst.slot hs u with hturn | ⟨-, h0, -⟩
  · cases hturn with
    | same h0 => exact .inl h0
    | sleeps hu hmp htid hk hlive hchan => exact .inr ⟨hu, hmp, hchan hsl⟩
    | started hslot howned hplaced hmp htid hk hlive hawake => exact absurd hsl hawake
    | dies hu hmp htid hk h0 =>
      rw [h0] at hsl
      cases hsl
    | freed hz h0 =>
      rw [h0] at hsl
      cases hsl
    | stacked hslot hmp htid h0 =>
      rw [h0] at hsl
      cases hsl
    | owned hpc hmp htid hk h0 =>
      rw [h0] at hsl
      cases hsl
    | gaveBack hslot hmp h0 =>
      rw [h0] at hsl
      cases hsl
  · rw [h0] at hsl
    cases hsl

/-! ## Tids -/

/-- Slots in use have different tids, below the next one to be handed out. -/
structure Tids (s : Kernel) : Prop where
  bare : ∀ u, (s.thread u).state = .unused → (s.thread u).kstack = none
  inj : ∀ u v, (s.thread u).state ≠ .unused → (s.thread v).state ≠ .unused →
    (s.thread u).tid = (s.thread v).tid → u = v
  lt : ∀ u, (s.thread u).state ≠ .unused → (s.thread u).tid.toNat < s.nexttid.toNat

theorem SameSlot.unused {r r' : Thread} (h : SameSlot r r') : r'.state = .unused ↔ r.state = .unused := by
  rcases h.state with e | ⟨h1, h2⟩
  · rw [e]
  · refine iff_of_false (fun h0 => ?_) fun h0 => ?_
    · rw [h0] at h2
      exact absurd h2 (by decide)
    · rw [h0] at h1
      exact absurd h1 (by decide)

theorem Tids.quiet {x y : Option CpuId} (h : Tids s) (hq : Quiet x y s s') : Tids s' where
  bare u hu := by
    rw [(hq.thd u).kstack]
    exact h.bare u ((SameSlot.unused (hq.thd u)).mp hu)
  inj u v hu hv htid := by
    rw [(hq.thd u).tid, (hq.thd v).tid] at htid
    exact h.inj u v (fun h0 => hu ((SameSlot.unused (hq.thd u)).mpr h0))
      (fun h0 => hv ((SameSlot.unused (hq.thd v)).mpr h0)) htid
  lt u hu := by
    rw [(hq.thd u).tid, hq.nexttid]
    exact h.lt u fun h0 => hu ((SameSlot.unused (hq.thd u)).mpr h0)

section Turns

variable (h : Slots none s) (hrun : (s.thread t).state = .running)

include h hrun

/-- A slot in use after a turn was in use before, under the same tid. -/
theorem Turn.used (hturn : Turn s a p t s' u) (hu : (s'.thread u).state ≠ .unused) :
    (s.thread u).state ≠ .unused ∧ (s'.thread u).tid = (s.thread u).tid := by
  have hheld : (s.pc t).hold.slot = some u → (s.thread u).state ≠ .unused := by
    intro hslot
    rw [(h.slot t u hslot).1]
    decide
  have hself : u = t → (s.thread u).state ≠ .unused := by
    rintro rfl
    rw [hrun]
    decide
  cases hturn with
  | same hs => exact ⟨fun h0 => hu ((SameSlot.unused hs).mpr h0), hs.tid⟩
  | sleeps hut hmp htid => exact ⟨hself hut, htid⟩
  | dies hut hmp htid => exact ⟨hself hut, htid⟩
  | freed hz hst => exact absurd hst hu
  | stacked hslot hmp htid => exact ⟨hheld hslot, htid⟩
  | owned hpc hmp htid => exact ⟨hheld (by rw [hpc]; rfl), htid⟩
  | gaveBack hslot hmp hst => exact absurd hst hu
  | started hslot howned hplaced hmp htid => exact ⟨hheld hslot, htid⟩

omit h hrun in
/-- A slot loses its kernel stack only when it becomes UNUSED. -/
theorem Turn.loses (hturn : Turn s a p t s' u) (hk : (s.thread u).kstack ≠ none)
    (hk' : (s'.thread u).kstack = none) : (s'.thread u).state = .unused := by
  cases hturn with
  | same hs => exact absurd (hs.kstack.symm.trans hk') hk
  | sleeps _ _ _ hsame => exact absurd (hsame.symm.trans hk') hk
  | dies _ _ _ hsame => exact absurd (hsame.symm.trans hk') hk
  | freed _ hst => exact hst
  | stacked _ _ _ _ hne => exact absurd hk' hne
  | owned _ _ _ hsame => exact absurd (hsame.symm.trans hk') hk
  | gaveBack _ _ hst => exact hst
  | started _ _ _ _ _ hsame => exact absurd (hsame.symm.trans hk') hk

omit h hrun in
theorem Turn.bare (hturn : Turn s a p t s' u)
    (hbare : (s.thread u).state = .unused → (s.thread u).kstack = none)
    (hu : (s'.thread u).state = .unused) : (s'.thread u).kstack = none := by
  cases hturn with
  | same hs =>
    rw [hs.kstack]
    exact hbare ((SameSlot.unused hs).mp hu)
  | sleeps _ _ _ _ hlive | started _ _ _ _ _ _ hlive =>
    rw [hu] at hlive
    exact absurd hlive (by decide)
  | dies _ _ _ _ hz =>
    rw [hu] at hz
    cases hz
  | freed _ _ _ hk => exact hk
  | stacked _ _ _ hst | owned _ _ _ _ hst =>
    rw [hu] at hst
    cases hst
  | gaveBack _ _ _ hk => exact hk

/-- The tids stay apart, as long as the counter does not wrap. -/
theorem Tids.stretch (ht : Tids s) (hroom : s.nexttid.toNat ≤ 2 ^ 31) (hst : Stretch s a c p t s') :
    Tids s' := by
  rcases hst.turn h with ⟨hnext, hturn⟩ | ⟨n, k, hpc, hn, heq⟩
  · refine ⟨fun u hu => (hturn u).bare (ht.bare u) hu, fun u v hu hv htid => ?_, fun u hu => ?_⟩
    · obtain ⟨hu', hut⟩ := (hturn u).used h hrun hu
      obtain ⟨hv', hvt⟩ := (hturn v).used h hrun hv
      rw [hut, hvt] at htid
      exact ht.inj u v hu' hv' htid
    · obtain ⟨hu', hut⟩ := (hturn u).used h hrun hu
      rw [hut, hnext]
      exact ht.lt u hu'
  · have hthd : ∀ u, s'.thread u =
        if u = n then { s.thread n with state := .embryo, tid := s.nexttid } else s.thread u := by
      intro u
      rw [heq]
      rfl
    have hnext : s'.nexttid.toNat = s.nexttid.toNat + 1 := by
      rw [heq]
      show (s.nexttid + 1).toNat = _
      rw [BitVec.toNat_add]
      show (s.nexttid.toNat + 1) % 2 ^ 32 = _
      omega
    refine ⟨fun u hu => ?_, fun u v hu hv htid => ?_, fun u hu => ?_⟩
    · rw [hthd] at hu ⊢
      split at hu
      · cases hu
      · rename_i hun
        rw [if_neg hun]
        exact ht.bare u hu
    · rw [hthd] at hu hv
      rw [hthd, hthd] at htid
      by_cases hun : u = n <;> by_cases hvn : v = n
      · rw [hun, hvn]
      · rw [if_neg hvn] at hv
        rw [if_pos hun, if_neg hvn] at htid
        have hlt := ht.lt v hv
        rw [← htid] at hlt
        exact absurd hlt (lt_irrefl _)
      · rw [if_neg hun] at hu
        rw [if_neg hun, if_pos hvn] at htid
        have hlt := ht.lt u hu
        rw [htid] at hlt
        exact absurd hlt (lt_irrefl _)
      · rw [if_neg hun] at hu
        rw [if_neg hvn] at hv
        rw [if_neg hun, if_neg hvn] at htid
        exact ht.inj u v hu hv htid
    · rw [hthd] at hu ⊢
      rw [hnext]
      split at hu
      · rename_i hun
        rw [if_pos hun]
        exact Nat.lt_succ_self _
      · rename_i hun
        rw [if_neg hun]
        exact (ht.lt u hu).trans (Nat.lt_succ_self _)

end Turns

theorem boot_tids : Tids boot := by
  have hused : ∀ u, (boot.thread u).state ≠ .unused → u = 0 := by
    intro u hu
    by_contra h0
    exact hu (congrArg Thread.state (if_neg h0))
  refine ⟨fun u hu => ?_, fun u v hu hv _ => (hused u hu).trans (hused v hv).symm, fun u hu => ?_⟩
  · by_cases h0 : u = 0
    · subst h0
      cases hu
    · exact congrArg Thread.kstack (if_neg h0)
  · rw [hused u hu]
    decide

/-- From `s` to `s'` no tid was given a second time: whoever has an old one had it in `s`. -/
structure Since (s s' : Kernel) : Prop where
  tids : Tids s'
  next : s.nexttid.toNat ≤ s'.nexttid.toNat
  kept : ∀ u, (s'.thread u).state ≠ .unused → (s'.thread u).tid.toNat < s.nexttid.toNat →
    (s.thread u).state ≠ .unused ∧ (s'.thread u).tid = (s.thread u).tid

theorem Since.trans (h : Since s s₁) (h' : Since s₁ s') : Since s s' := by
  refine ⟨h'.tids, h.next.trans h'.next, fun u hu hlt => ?_⟩
  obtain ⟨hu₁, htid⟩ := h'.kept u hu (hlt.trans_le h.next)
  rw [htid] at hlt ⊢
  exact h.kept u hu₁ hlt

theorem Since.quiet {x y : Option CpuId} (ht : Tids s) (hq : Quiet x y s s') : Since s s' :=
  ⟨ht.quiet hq, hq.nexttid.symm ▸ le_rfl,
    fun u hu _ => ⟨mt (SameSlot.unused (hq.thd u)).mpr hu, (hq.thd u).tid⟩⟩

theorem Since.stretch (h : Slots none s) (hrun : (s.thread t).state = .running) (ht : Tids s)
    (hroom : s.nexttid.toNat ≤ 2 ^ 31) (hst : Stretch s a c p t s') : Since s s' := by
  have ht' := ht.stretch h hrun hroom hst
  rcases hst.turn h with ⟨hnext, hturn⟩ | ⟨n, k, -, -, rfl⟩
  · exact ⟨ht', hnext ▸ le_rfl, fun u hu _ => (hturn u).used h hrun hu⟩
  · refine ⟨ht', ?_, fun u hu hlt => ?_⟩
    · exact le_of_lt (by simpa using ht'.lt n)
    · rw [setPc_thread] at hu hlt ⊢
      by_cases hun : u = n
      · exact absurd hlt (by simp [hun])
      · simpa [hun] using hu

/-- `wait` reaps only dead children, and the counter has room. -/
abbrev HasTids (s : Kernel) (a : Act) : Prop := ReapsDead s a ∧ s.nexttid.toNat ≤ 2 ^ 31

theorem since_of_reaches (hs : Slots none s) (ht : Tids s) (h : Reaches Kernel.step HasTids s s') :
    Slots none s' ∧ Since s s' := by
  refine h.invariant (motive := fun s' => Slots none s' ∧ Since s s')
    ⟨hs, ht, le_rfl, fun _ hu _ => ⟨hu, rfl⟩⟩ fun x a y ⟨hx, hsince⟩ hok hstep => ?_
  refine ⟨hx.step hok.1 hstep, hsince.trans ?_⟩
  rcases hx.step_cases hok.1 hstep with ⟨hq, -⟩ | ⟨c, p, t, x₁, -, -, hq, -, h₁, hp, hon, hst⟩
  · exact .quiet hsince.tids hq
  · have hq' := Since.quiet hsince.tids hq
    exact hq'.trans (.stretch h₁ (h₁.onCpu hp hon).1 hq'.tids (hq.nexttid.symm ▸ hok.2) hst)

/-- A tid names one thread for all time: who has, at any later point of a run in which fewer than
2^31 threads are made, the tid that a thread has now, is in the same slot, and that slot has been in
use with that tid at every point between. -/
theorem tids_never_reused (h : Reaches Kernel.step HasTids boot s)
    (h₁ : Reaches Kernel.step HasTids s s₁) (h' : Reaches Kernel.step HasTids s₁ s')
    (hu : (s.thread u).state ≠ .unused) (hn : (s'.thread n).state ≠ .unused)
    (htid : (s'.thread n).tid = (s.thread u).tid) :
    n = u ∧ (s₁.thread u).state ≠ .unused ∧ (s₁.thread u).tid = (s.thread u).tid := by
  obtain ⟨hslots, hboot⟩ := since_of_reaches boot_slots boot_tids h
  obtain ⟨hslots₁, hbefore⟩ := since_of_reaches hslots hboot.tids h₁
  obtain ⟨-, hsince⟩ := since_of_reaches hslots₁ hbefore.tids h'
  have hold : (s'.thread n).tid.toNat < s.nexttid.toNat := htid ▸ hboot.tids.lt u hu
  obtain ⟨hn₁, hsame₁⟩ := hsince.kept n hn (hold.trans_le hbefore.next)
  obtain ⟨hn₀, hsame₀⟩ := hbefore.kept n hn₁ (hsame₁ ▸ hold)
  obtain rfl := hboot.tids.inj n u hn₀ hu (hsame₀.symm.trans (hsame₁.symm.trans htid))
  exact ⟨rfl, hn₁, hsame₀⟩

/-- The second thread of process 1 exits and is joined, and a new one gets its slot, while the first
thread keeps its own. -/
theorem tids_never_reused_slot : ∃ s s₁ s', (Reaches Kernel.step HasTids boot s ∧
      Reaches Kernel.step HasTids s s₁ ∧ Reaches Kernel.step HasTids s₁ s') ∧
    ((s.thread 2).tid = 3 ∧ (s₁.thread 2).state = .unused ∧ (s'.thread 2).tid = 4) ∧
    (s₁.thread 1).state ≠ .unused ∧ (s₁.thread 1).tid = (s.thread 1).tid := by
  obtain ⟨s, h, ⟨htid, hu⟩, hrest⟩ := boot_reaches HasTids siblingsRun
    (fun s => ((s.thread 2).tid = 3 ∧ (s.thread 1).state ≠ .unused) ∧
      (runIf step HasTids s (.syscall 2 (.threadExit 0) :: ksteps 2 2 ++
        .syscall 1 (.threadJoin 3) :: ksteps 1 2)).any fun s₁ => (s₁.thread 2).state = .unused ∧
      (runIf step HasTids s₁ (.syscall 1 .threadCreate :: ksteps 1 7)).any fun s' =>
        (s'.thread 2).tid = 4 ∧ (s'.thread 1).state ≠ .unused ∧
          (s'.thread 1).tid = (s.thread 1).tid) (by decide +kernel)
  obtain ⟨s₁, h₁, hfree, hrest⟩ := exists_reaches _ _ hrest
  obtain ⟨s', h', hnew, hn, hsame⟩ := exists_reaches _ _ hrest
  exact ⟨s, s₁, s', ⟨h, h₁, h'⟩, ⟨htid, hfree, hnew⟩, (tids_never_reused h h₁ h' hu hn hsame).2⟩

end Kernel

end Xv6
