import Mathlib.Algebra.Order.BigOperators.Group.Finset
import Xv6.Laws.Proc.Share

/-!
# The CPU-share guarantee

Where no process starts a second thread (`Single`), nothing comes between the
`set_cpu_share(0)` of an `exit` and its end, and `thread_exit` is `exit`. The sum of all
shares, read as natural numbers, is then 100 and MLFQ keeps at least 20 of them, as long as
nobody asks for more than MLFQ would have with the caller's own share back: the new share of
MLFQ is computed without a sign, and a larger request wraps around and is granted.
-/

namespace Xv6

open Xv6.Lib

/-- The places behind a scan that found another thread of the process. -/
def Pc.foundSibling : Pc → Bool
  | .threadExitDie _ | .exitSleep _ | .execSleep => true
  | _ => false

/-- The places a thread without siblings can be at. -/
def Pc.single (k : Pc) : Bool := !k.creating && !k.foundSibling

theorem Pc.foundSibling_of_plain {k : Pc} (hk : k.plain) : k.foundSibling = false := by
  cases k <;> first | rfl | cases hk

theorem Pc.single_of_plain {k : Pc} (hk : k.plain) (hc : k.creating = false) : k.single := by
  simp [Pc.single, hc, Pc.foundSibling_of_plain hk]

theorem Pc.foundSibling_of_dies {k : Pc} (hk : k.dies) : k.foundSibling := by
  cases k <;> first | rfl | cases hk

theorem Pc.gaveBack_of_asks {k : Pc} (hk : k.asks) : k.gaveBack = false := by
  cases k <;> first | rfl | cases hk

theorem Pc.creating_of_fills {k : Pc} (hk : k.fills) : k.creating := by
  cases k <;> first | rfl | cases hk

/-- What a `set_cpu_share` asks for; a request for nothing, or for less, gives the share back. -/
def Pc.request : Pc → Nat
  | .setCpuShare share => share.toInt.toNat
  | _ => 0

namespace Kernel

variable {s s' s₁ : Kernel} {a : Act} {p q : ProcPtr} {t u : ThdPtr} {c : CpuId} {k : Pc}
  {share : Word}

/-! ## Processes with one thread -/

/-- No process has two threads, and none waits for its threads to end. -/
structure Single (s : Kernel) : Prop where
  one : ∀ t u p, (s.thread t).mp = some p → (s.thread u).mp = some p → t = u
  exited : ∀ p, (s.proc p).exited = false
  pc : ∀ t, (s.pc t).single

section Single

variable (h : Single s)

include h

theorem Single.no_sibling (hmp : (s.thread t).mp = some p) : ¬ s.Sibling p t :=
  fun ⟨u, hut, hu, _⟩ => hut (h.one u t p hu hmp)

/-- A step that gives no thread a process and marks none as exited. -/
theorem Single.frame (hmp : ∀ u q, (s'.thread u).mp = some q → (s.thread u).mp = some q)
    (hex : ∀ q, (s'.proc q).exited = false) (hpc : ∀ u, (s'.pc u).single) : Single s' where
  one t u p ht hu := h.one t u p (hmp t p ht) (hmp u p hu)
  exited := hex
  pc := hpc

theorem Single.calm (hcalm : Calm s s') : Single s' := by
  refine h.frame (fun u q hu => ?_) (fun q => ?_) fun u => ?_
  · rwa [hcalm.mp] at hu
  · rw [hcalm.exited]
    exact h.exited q
  · rw [hcalm.pc]
    exact h.pc u

theorem Single.setPc (hk : k.single) : Single (s.setPc t k) := by
  refine h.frame (fun u q hu => hu) h.exited fun u => ?_
  rw [setPc_pc]
  split
  · exact hk
  · exact h.pc u

theorem Single.setProc {f : Proc → Proc} (hf : (f (s.proc q)).exited = false) :
    Single (s.setProc q f) := by
  refine h.frame (fun u r hu => hu) (fun r => ?_) h.pc
  rw [setProc_proc]
  split
  · exact hf
  · exact h.exited r

theorem Single.freeAll {P : ThdPtr → Thread → Prop} [∀ u, DecidablePred (P u)] :
    Single (s.freeAll P) := by
  refine h.frame (fun u q hu => ?_) (by simpa using h.exited) (by simpa using h.pc)
  rw [freeAll_thread] at hu
  split at hu
  · cases hu
  · exact hu

theorem Single.freeThd (v : ThdPtr) : Single (s.freeThd v) := by
  refine h.frame (fun u q hu => ?_) (by simpa using h.exited) (by simpa using h.pc)
  rw [freeThd_thread] at hu
  split at hu
  · cases hu
  · exact hu

/-- A thread changes, but not its process. -/
theorem Single.setThd {g : Thread → Thread}
    (hg : (g (s.thread u)).mp = (s.thread u).mp) : Single (s.setThd u g) := by
  refine h.frame (fun v r hv => ?_) h.exited h.pc
  rw [setThd_thread] at hv
  split at hv
  · rename_i hvu
    subst hvu
    exact hg ▸ hv
  · exact hv

theorem Single.cpuShare (p : ProcPtr) (share : Word) : Single (s.cpuShare p share) := by
  refine h.frame (fun v r hv => hv) (fun r => ?_) h.pc
  obtain ⟨_, _, _, _, heq⟩ := setCpuShare_proc s.mlfq (s.proc p) share
  by_cases hr : r = p
  · simpa [Kernel.cpuShare, hr, heq] using h.exited p
  · simpa [Kernel.cpuShare, hr] using h.exited r

/-- A thread changes its state. -/
theorem Single.setstate {st : ProcState} : Single (s.setstate q u st) := by
  refine h.frame (fun v r hv => ?_) (fun r => ?_) (by simpa using h.pc)
  · rw [setstate_thread] at hv
    split at hv
    · rename_i hvu
      subst hvu
      exact hv
    · exact hv
  · have hstill : ((s.setstate q u st).proc r).still = (s.proc r).still := setstate_still
    exact (congrArg Proc.exited hstill).trans (h.exited r)

theorem Single.adopt (p : ProcPtr) : Single (s.adopt p) := by
  refine h.frame (fun u q hu => hu) (fun q => ?_) h.pc
  unfold Kernel.adopt
  dsimp only
  split <;> exact h.exited q

/-- A new process gets its first thread. -/
theorem Single.setOwner (hq : ∀ u, (s.thread u).mp ≠ some q) (n : ThdPtr) :
    Single ((s.setPc n .forkret).setThd n fun x => { x with mp := some q }) where
  one t u p ht hu := by
    simp only [setThd_thread, setPc_thread] at ht hu
    by_cases htn : t = n <;> by_cases hun : u = n
    · exact htn.trans hun.symm
    · simp only [htn, hun, ↓reduceIte, Option.some.injEq] at ht hu
      exact absurd (ht ▸ hu) (hq u)
    · simp only [htn, hun, ↓reduceIte, Option.some.injEq] at ht hu
      exact absurd (hu ▸ ht) (hq t)
    · simp only [htn, hun, ↓reduceIte] at ht hu
      exact h.one t u p ht hu
  exited := h.exited
  pc := (h.setPc (t := n) (k := .forkret) rfl).pc

end Single

/-- Every step of a thread, `thread_create` apart, leaves processes with one thread. -/
theorem Single.effect (hcore : Core none s) (h : Single s) (ha : a ≠ .syscall c .threadCreate)
    (hon : s.onCpu c = some (p, t)) (heff : Effect s a c p t s') : Single s' := by
  obtain ⟨_, hmp⟩ := onCpu_running hcore hon
  have halone := h.no_sibling hmp
  have hpct := h.pc t
  have hcreating : (s.pc t).creating = false := by
    simp only [Pc.single, Bool.and_eq_true, Bool.not_eq_eq_eq_not, Bool.not_true] at hpct
    exact hpct.1
  have hmove : ∀ (s₁ : Kernel) (k : Pc), Single s₁ → Calm (s₁.setPc t k) s' → k.single → Single s' :=
    fun s₁ k h₁ hc hk => (h₁.setPc hk).calm hc
  cases heff with
  | calm hc => exact h.calm hc
  | move _ hk hcr hc =>
    refine hmove s _ h hc (Pc.single_of_plain hk ?_)
    by_contra hk'
    rcases hcr (by simpa using hk') with h' | h'
    · rw [hcreating] at h'
      cases h'
    · exact ha h'
  | threadExit _ hsib _ => exact absurd hsib halone
  | nullInode _ _ hs' =>
    subst hs'
    exact ⟨h.one, h.exited, h.pc⟩
  | sleep _ hk hcr _ hc =>
    refine Single.calm (Single.setPc (Single.setstate (h.setThd rfl)) ?_) hc
    rcases hk with rfl | hk
    · rfl
    · exact Pc.single_of_plain hk hcr
  | exitEnter _ _ _ hc => exact hmove s _ h hc rfl
  | exitClose _ hc => exact hmove s _ h hc rfl
  | exitNext _ hc =>
    refine hmove _ _ (h.setProc (h.exited p)) hc ?_
    unfold ExitCaller.behind
    split <;> rfl
  | exitPut _ _ hc =>
    refine hmove _ _ ?_ hc rfl
    exact ⟨h.one, h.exited, h.pc⟩
  | exitCwd _ hc => exact hmove _ _ (h.setProc (h.exited p)) hc rfl
  | exitShare _ hc => exact hmove _ _ (h.cpuShare p 0) hc rfl
  | await _ _ hsib _ => exact absurd hsib halone
  | awaitAgain _ hsib _ => exact absurd hsib halone
  | exitBack _ hwhy _ =>
    rcases hwhy with ⟨hex, _⟩ | hsib
    · rw [h.exited p] at hex
      cases hex
    · exact absurd hsib halone
  | execBack hpc _ =>
    rw [hpc] at hpct
    cases hpct
  | execDone _ _ hc => exact hmove _ _ (Single.freeAll (h.setProc rfl)) hc rfl
  | exitFinish _ _ _ h₁ _ _ hc =>
    have h₂ := ((h.setProc (q := p) (f := fun q => { q with exited := false }) rfl).adopt p).calm h₁
    exact (h₂.setstate.setPc rfl).calm hc
  | die _ hpc _ _ _ =>
    rw [hpc] at hpct
    cases hpct
  | join _ _ _ hc => exact hmove _ _ (h.freeThd _) hc rfl
  | reap _ h₁ _ _ hc =>
    have h₂ := h.calm h₁
    rw [reap_eq] at hc
    refine hmove _ _ (h₂.freeAll.setProc ?_) hc rfl
    simpa [Proc.reaped] using h₂.exited _
  | cpuShare _ _ hc => exact hmove _ _ (h.cpuShare p _) hc rfl
  | @allocproc np _ _ hc =>
    have h₁ := h.setProc (f := fun q => { q with state := .embryo }) (h.exited np)
    refine hmove _ _ ?_ hc rfl
    exact ⟨h₁.one, h₁.exited, h₁.pc⟩
  | forkFail _ _ hc => exact hmove _ _ (h.setProc (h.exited _)) hc rfl
  | allocOwner _ hk _ _ hq hcr hc =>
    rcases hq with ⟨hnp, hown⟩ | ⟨_, hcr'⟩
    · have hfree : ∀ u, (s.thread u).mp ≠ some _ := fun u hu => by
        have := ((hcore.child t _ hnp).2.1 u hu).2
        rw [hown] at this
        cases this
      refine hmove _ _ (h.setOwner hfree _) hc (Pc.single_of_plain hk ?_)
      by_contra hk'
      have := hcr (by simpa using hk')
      rw [hcreating] at this
      cases this
    · rw [hcreating] at hcr'
      cases hcr'
  | forkInit _ hc => exact hmove _ _ (h.setProc (h.exited _)) hc rfl
  | forkFile _ hk hcr hc => exact hmove _ _ (h.setProc (h.exited _)) hc (Pc.single_of_plain hk hcr)
  | forkCwd _ hc => exact hmove _ _ (h.setProc (h.exited _)) hc rfl
  | forkRun _ hc => exact hmove _ _ h.setstate hc rfl
  | chdirSet _ _ hc => exact hmove _ _ (h.setProc (h.exited p)) hc rfl
  | ofile _ _ hc => exact (h.setProc (h.exited p)).calm hc

/-! ## Requests within the guarantee -/

section Request

variable {m : Mlfq} {r : Proc} (h : m.share.toNat + r.held.toNat ≤ 100)

include h

theorem toNat_grant_le : (m.share + r.held).toNat = m.share.toNat + r.held.toNat := by
  rw [BitVec.toNat_add]
  omega

variable (hreq : share.toInt.toNat ≤ m.share.toNat + r.held.toNat)

include hreq

/-- What a request that MLFQ can afford leaves to MLFQ. -/
theorem toNat_new (hpos : 0 < share.toInt) :
    (m.share + r.held - share).toNat = m.share.toNat + r.held.toNat - share.toNat ∧
      share.toInt.toNat = share.toNat := by
  have hshare : share.toInt.toNat = share.toNat := by
    rw [BitVec.toInt_eq_toNat_cond] at hpos ⊢
    split at hpos
    · rename_i hlt
      rw [if_pos hlt]
      rfl
    · omega
  refine ⟨?_, hshare⟩
  rw [hshare] at hreq
  rw [BitVec.toNat_sub, toNat_grant_le h]
  omega

/-- The reply: −1 exactly when the grant would leave MLFQ with less than 20. -/
theorem setCpuShare_reply (h20 : 20 ≤ m.share.toNat) :
    m.share.toNat + r.held.toNat < 20 + share.toInt.toNat ∧
        Xv6.setCpuShare m r share = (-1, m, r) ∨
      20 + share.toInt.toNat ≤ m.share.toNat + r.held.toNat ∧
        (Xv6.setCpuShare m r share).1 = 0 := by
  by_cases hneg : share.toInt ≤ 0
  · have hzero : share.toInt.toNat = 0 := Int.toNat_of_nonpos hneg
    refine .inr ⟨by omega, ?_⟩
    by_cases hr : r.stype = .stride
    · rw [setCpuShare_stride hneg hr]
    · rw [setCpuShare_other hneg hr]
  · have hpos := not_le.mp hneg
    obtain ⟨hnew, hshare⟩ := toNat_new h hreq hpos
    rw [setCpuShare_pos m r hpos]
    split
    · rename_i hlt
      have hlt' : (m.share + r.held - share).toNat < 20 := hlt
      exact .inl ⟨by omega, rfl⟩
    · rename_i hge
      have hge' : ¬ (m.share + r.held - share).toNat < 20 := hge
      exact .inr ⟨by omega, rfl⟩

/-- The shares after the request, as natural numbers. -/
theorem setCpuShare_guarantee
    (h20 : 20 ≤ m.share.toNat) (hone : ∀ w, r.grant = some w → 1 ≤ w.toNat) :
    (Xv6.setCpuShare m r share).2.1.share.toNat + (Xv6.setCpuShare m r share).2.2.held.toNat =
        m.share.toNat + r.held.toNat ∧
      20 ≤ (Xv6.setCpuShare m r share).2.1.share.toNat ∧
      ∀ w, (Xv6.setCpuShare m r share).2.2.grant = some w → 1 ≤ w.toNat := by
  by_cases hneg : share.toInt ≤ 0
  · by_cases hr : r.stype = .stride
    · have hheld : r.held = r.share := by simp [Proc.held, Proc.grant, hr]
      rw [hheld] at h ⊢
      have hadd := toNat_grant_le (m := m) (r := r) (by rwa [hheld])
      rw [hheld] at hadd
      rw [setCpuShare_stride hneg hr]
      refine ⟨?_, ?_, by simp [Proc.grant]⟩
      · simpa [Proc.held, Proc.grant] using hadd
      · simp only
        omega
    · rw [setCpuShare_other hneg hr]
      exact ⟨rfl, h20, hone⟩
  · have hpos := not_le.mp hneg
    obtain ⟨hnew, hshare⟩ := toNat_new h hreq hpos
    rw [setCpuShare_pos m r hpos]
    split
    · exact ⟨rfl, h20, hone⟩
    · rename_i hge
      have hge' : ¬ (m.share + r.held - share).toNat < 20 := hge
      refine ⟨?_, ?_, fun w hw => ?_⟩
      · have hheld : ({ r with stype := .stride, qlev := .hqlev, share, pass := m.pass } : Proc).held
            = share := by simp [Proc.held, Proc.grant]
        rw [hheld, hnew]
        omega
      · simp only
        omega
      · simp only [Proc.grant, ↓reduceIte, Option.some.injEq] at hw
        rw [← hw, ← hshare]
        omega

end Request

/-! ## Division by zero -/

/-- A charge for a slice would divide by zero. -/
def ZeroShare (s : Kernel) : Prop :=
  s.mlfq.share = 0 ∨ ∃ p, (s.proc p).stype = .stride ∧ (s.proc p).share = 0

theorem Calm.zeroShare (h : Calm s s') : s'.ZeroShare ↔ s.ZeroShare := by
  simp only [ZeroShare, h.share, h.stype, h.pshare]

/-- A step that divides by zero has a class without a share before it or behind it. -/
theorem Effect.div (heff : Effect s a c p t s') (hp : s'.panic = some .divideByZero) :
    s.panic = some .divideByZero ∨ s.ZeroShare ∨ s'.ZeroShare := by
  have hcalm : ∀ s₁ : Kernel, Calm s₁ s' → (s₁.panic = some .divideByZero →
      s.panic = some .divideByZero ∨ s.ZeroShare ∨ s'.ZeroShare) →
      s.panic = some .divideByZero ∨ s.ZeroShare ∨ s'.ZeroShare := by
    intro s₁ hc hs₁
    rcases hc.div hp with h | h
    · exact hs₁ h
    · exact .inr (.inr (hc.zeroShare.mpr h))
  cases heff with
  | calm hc | move _ _ _ hc | threadExit _ _ hc | exitEnter _ _ _ hc | exitClose _ hc | exitNext _ hc
  | exitPut _ _ hc | exitCwd _ hc | exitShare _ hc | exitBack _ _ hc | execBack _ hc
  | cpuShare _ _ hc | allocproc _ _ hc | forkFail _ _ hc | allocOwner _ _ _ _ _ _ hc
  | forkInit _ hc | forkFile _ _ _ hc | forkCwd _ hc | chdirSet _ _ hc | ofile _ _ hc =>
    exact hcalm _ hc .inl
  | nullInode _ _ hs' =>
    subst hs'
    refine .inl ?_
    rw [halt_panic] at hp
    cases hs : s.panic <;> simp_all
  | sleep _ _ _ _ hc | awaitAgain _ _ hc =>
    exact hcalm _ hc fun h => .inl (by simpa [asleep] using h)
  | await _ _ _ hc =>
    exact hcalm _ hc fun h => .inl (by simpa [asleep] using h)
  | execDone _ _ hc =>
    refine hcalm _ hc fun h => ?_
    rw [setPc_panic, freeAll_panic_iff (by decide)] at h
    exact .inl h
  | exitFinish _ _ _ h₁ _ _ hc =>
    refine hcalm _ hc fun h => ?_
    rcases h₁.div (by simpa [dead] using h) with h | h
    · exact .inl h
    · refine .inr (.inl (h.imp_right ?_))
      rintro ⟨r, hr⟩
      refine ⟨r, ?_⟩
      rw [(adopt_share).1, (adopt_share).2.1, setProc_proc] at hr
      split at hr
      · rename_i hrp
        exact hrp ▸ hr
      · exact hr
  | die _ _ _ h₁ hc =>
    refine hcalm _ hc fun h => ?_
    rcases h₁.div (by simpa [dead] using h) with h | h
    · exact .inl h
    · exact .inr (.inl h)
  | join _ _ _ hc => exact hcalm _ hc fun h => .inl ((freeThd_panic_iff (by decide)).mp h)
  | reap _ h₁ _ _ hc =>
    refine hcalm _ hc fun h => ?_
    rw [reap_eq, setPc_panic, setProc_panic, freeAll_panic_iff (by decide)] at h
    rcases h₁.div h with h | h
    · exact .inl h
    · exact .inr (.inl h)
  | forkRun _ hc => exact hcalm _ hc fun h => .inl (by simpa using h)

/-! ## Runs -/

/-- The guarantee, as natural numbers. -/
structure Guaranteed (s : Kernel) : Prop where
  sum : s.mlfq.share.toNat + ∑ p, (s.proc p).held.toNat = 100
  mlfq : 20 ≤ s.mlfq.share.toNat
  stride : ∀ p w, (s.proc p).grant = some w → 1 ≤ w.toNat

theorem Unmoved.guaranteed (h : Unmoved s s') (hs : Guaranteed s) : Guaranteed s' where
  sum := by
    rw [h.mlfq, Finset.sum_congr rfl fun p _ => congrArg BitVec.toNat (h.held p)]
    exact hs.sum
  mlfq := h.mlfq ▸ hs.mlfq
  stride p w hw := hs.stride p w (h.grant p ▸ hw)

/-- No process holds more than the whole. -/
theorem Guaranteed.le (h : Guaranteed s) (p : ProcPtr) :
    s.mlfq.share.toNat + (s.proc p).held.toNat ≤ 100 := by
  have hle := Finset.single_le_sum (f := fun q => (s.proc q).held.toNat)
    (fun q _ => Nat.zero_le _) (Finset.mem_univ p)
  have := h.sum
  omega

theorem Moved.guaranteed (h : Moved s s' p share) (hs : Guaranteed s)
    (hreq : share.toInt.toNat ≤ s.mlfq.share.toNat + (s.proc p).held.toNat) : Guaranteed s' := by
  obtain ⟨hsum, h20, hone⟩ := setCpuShare_guarantee (hs.le p) hreq hs.mlfq (hs.stride p)
  obtain ⟨r, hf, hg⟩ := sum_slot (p := p) (f := fun q => (s.proc q).held.toNat)
    (g := fun q => (s'.proc q).held.toNat) fun q hq => congrArg BitVec.toNat (h.other q hq)
  refine ⟨?_, h.mlfq ▸ h20, fun q w hw => ?_⟩
  · have htotal := hs.sum
    rw [hf] at htotal
    rw [hg, h.mlfq, h.self]
    omega
  · rw [h.grant] at hw
    split at hw
    · exact hone w hw
    · exact hs.stride q w hw

theorem Guaranteed.not_zeroShare (h : Guaranteed s) : ¬ s.ZeroShare := by
  rintro (hm | ⟨p, hp, hzero⟩)
  · have := h.mlfq
    rw [hm] at this
    exact absurd this (by decide)
  · have := h.stride p (s.proc p).share (by simp [Proc.grant, hp])
    rw [hzero] at this
    exact absurd this (by decide)

/-- No process starts a second thread. -/
def NoCreate : Act → Prop
  | .syscall _ call => call ≠ .threadCreate
  | _ => True

instance : DecidablePred NoCreate
  | .syscall _ call => inferInstanceAs (Decidable (call ≠ .threadCreate))
  | .dispatch _ | .resume _ | .preempt _ | .intrWakeup _ | .trap .. | .kstep .. | .work .. =>
    inferInstanceAs (Decidable True)

/-- No request exceeds what MLFQ would have with the caller's own share back. -/
def Affordable (s : Kernel) : Act → Prop
  | .kstep c _ _ => ∀ pt ∈ s.onCpu c,
      (s.pc pt.2).request ≤ s.mlfq.share.toNat + (s.proc pt.1).held.toNat
  | _ => True

instance (s : Kernel) : DecidablePred s.Affordable := fun a => by
  induction a using Act.casesOn <;>
    first | exact (s.onCpu _).decidableForallMem | exact isTrue trivial

theorem Single.createsSlots (h : Single s) (a : Act) : CreatesSlots s a := by
  cases a with
  | kstep c ok page =>
    intro pt _ hfills
    have hpc := h.pc pt.2
    rw [Pc.single, Pc.creating_of_fills hfills] at hpc
    cases hpc
  | _ => trivial

/-- Without siblings nobody asks for a share behind an `exit`, and nobody dies in `thread_exit`. -/
theorem Single.keepsShares (hcore : Core none s) (h : Single s) : KeepsShares s a := by
  cases a with
  | kstep c ok page =>
    rintro ⟨p, t⟩ hon
    obtain ⟨_, hmp⟩ := onCpu_running hcore hon
    refine ⟨fun hasks u hu => ?_, fun hdies => ?_⟩
    · rw [h.one u t p hu hmp, Pc.gaveBack_of_asks hasks]
      exact Bool.false_ne_true
    · have hpc := h.pc t
      rw [Pc.single, Pc.foundSibling_of_dies hdies, Bool.not_true, Bool.and_false] at hpc
      cases hpc
  | _ => trivial

/-- What holds in every state of a run without a second thread and without such a request. -/
structure Guard (s : Kernel) : Prop where
  core : Core none s
  single : Single s
  settled : Settled s
  guaranteed : Guaranteed s
  div : s.panic ≠ some .divideByZero

theorem Guard.step (h : Guard s) (hno : NoCreate a) (hok : Affordable s a)
    (hs : s.step a = some s') : Guard s' := by
  have hcreate := h.single.createsSlots a
  have hcore' := h.core.step hcreate hs
  obtain ⟨hset', hshare⟩ := h.settled.step h.core hcreate (h.single.keepsShares h.core) hs
  have hgot : Guaranteed s' := by
    rcases hshare with hu | ⟨c, p, t, hon, hu | ⟨share, hm, hwhy⟩⟩
    · exact hu.guaranteed h.guaranteed
    · exact hu.guaranteed h.guaranteed
    · refine hm.guaranteed h.guaranteed ?_
      rcases hwhy with ⟨⟨ok, page, rfl⟩, hpc⟩ | rfl
      · have := hok (p, t) hon
        simpa only [hpc, Pc.request] using this
      · exact Nat.zero_le _
  rcases step_effect h.core hcreate hs with hcalm | ⟨c, p, t, hon, heff⟩
  · refine ⟨hcore', h.single.calm hcalm, hset', hgot, fun hp => ?_⟩
    rcases hcalm.div hp with hp | hz
    · exact h.div hp
    · exact h.guaranteed.not_zeroShare hz
  · refine ⟨hcore', h.single.effect h.core ?_ hon heff, hset', hgot, fun hp => ?_⟩
    · rintro rfl
      exact hno rfl
    · rcases heff.div hp with hp | hz | hz
      · exact h.div hp
      · exact h.guaranteed.not_zeroShare hz
      · exact hgot.not_zeroShare hz

theorem boot_guard : Guard boot where
  core := boot_core
  single := by
    refine ⟨fun t u p ht hu => ?_, fun p => ?_, fun t => ?_⟩
    · by_cases ht0 : t = 0 <;> by_cases hu0 : u = 0 <;> simp_all [boot]
    · by_cases hp : p = 0 <;> simp [boot, hp]
    · by_cases ht : t = 0 <;> simp [boot, ht] <;> rfl
  settled := boot_settled
  guaranteed := by
    have hgrant : ∀ p, (boot.proc p).grant = none := by
      intro p
      by_cases hp : p = 0 <;> simp [boot, hp, Proc.grant]
    refine ⟨?_, by decide, fun p w hw => ?_⟩
    · rw [Finset.sum_eq_zero fun p _ => by simp [Proc.held, hgrant]]
      rfl
    · rw [hgrant] at hw
      cases hw
  div := by simp [boot]

/-- A `set_cpu_share` replies −1 exactly when its grant would leave MLFQ with less than 20, and
then it has changed nothing. -/
theorem Guaranteed.reply (h : Guaranteed s) {ok : Bool} {page : Option Nat}
    (hok : Affordable s (.kstep c ok page)) (hon : s.onCpu c = some (p, t))
    (hpc : s.pc t = .setCpuShare share) (hs : s.step (.kstep c ok page) = some s') :
    ((s'.thread t).eax = -1 ↔
      s.mlfq.share.toNat + (s.proc p).held.toNat < 20 + share.toInt.toNat) ∧
    ((s'.thread t).eax = -1 → s'.mlfq = s.mlfq ∧ s'.proc = s.proc) := by
  have hreq : share.toInt.toNat ≤ s.mlfq.share.toNat + (s.proc p).held.toNat := by
    simpa only [hpc, Pc.request] using hok (p, t) hon
  have hs' : s' = (s.cpuShare p share).ret t
      (.ofInt 32 (setCpuShare s.mlfq (s.proc p) share).1) := by
    have hk := step_kstep hon hs
    simp only [kstep, hpc, Option.ite_none_right_eq_some, Option.some.injEq] at hk
    exact hk.2.symm
  have heax : (s'.thread t).eax =
      .ofInt 32 (setCpuShare s.mlfq (s.proc p) share).1 := by
    rw [hs']
    simp [ret]
  rcases setCpuShare_reply (h.le p) hreq h.mlfq with ⟨hlt, heq⟩ | ⟨hge, hzero⟩
  · have hreply : (s'.thread t).eax = -1 := by
      rw [heax, heq]
      rfl
    refine ⟨⟨fun _ => hlt, fun _ => hreply⟩, fun _ => ?_⟩
    rw [hs']
    refine ⟨by simp [ret, cpuShare, heq], ?_⟩
    funext q
    by_cases hq : q = p <;> simp [ret, cpuShare, heq, hq]
  · have hreply : (s'.thread t).eax ≠ -1 := by
      rw [heax, hzero]
      decide
    exact ⟨⟨fun h => absurd h hreply, fun h => absurd h (not_lt.mpr hge)⟩,
      fun h => absurd h hreply⟩

theorem sum_stride :
    ∑ p with (s.proc p).stype = .stride, (s.proc p).share.toNat = ∑ p, (s.proc p).held.toNat := by
  rw [Finset.sum_filter]
  refine Finset.sum_congr rfl fun p _ => ?_
  by_cases hp : (s.proc p).stype = .stride <;> simp [Proc.held, Proc.grant, hp]

/-- In every run without a second thread and with affordable requests: the shares add up to
100, MLFQ keeps 20, every STRIDE process has a share, nothing is divided by zero, and a
request is refused, changing nothing, exactly when it would leave MLFQ with less than 20. -/
theorem cpu_share_guarantee
    (h : Reaches Kernel.step (fun s a => NoCreate a ∧ Affordable s a) boot s) :
    s.mlfq.share.toNat + ∑ p with (s.proc p).stype = .stride, (s.proc p).share.toNat = 100 ∧
    20 ≤ s.mlfq.share.toNat ∧
    (∀ p, (s.proc p).stype = .stride → 1 ≤ (s.proc p).share.toNat) ∧
    s.panic ≠ some .divideByZero ∧
    ∀ c p t share ok page s', s.onCpu c = some (p, t) → s.pc t = .setCpuShare share →
      Affordable s (.kstep c ok page) → s.step (.kstep c ok page) = some s' →
      ((s'.thread t).eax = -1 ↔
        s.mlfq.share.toNat + (s.proc p).held.toNat < 20 + share.toInt.toNat) ∧
      ((s'.thread t).eax = -1 → s'.mlfq = s.mlfq ∧ s'.proc = s.proc) := by
  have hguard : Guard s :=
    h.invariant boot_guard fun s a s' hs hok hstep => hs.step hok.1 hok.2 hstep
  have hgot := hguard.guaranteed
  refine ⟨?_, hgot.mlfq, fun p hp => ?_, hguard.div, ?_⟩
  · rw [sum_stride]
    exact hgot.sum
  · exact hgot.stride p _ (by simp [Proc.grant, hp])
  · intro c p t share ok page s' hon hpc hok hs
    exact hgot.reply hok hon hpc hs

/-- A forked child asks for 80, is granted it, and asks for 81. -/
def grantRun : List Act :=
  [.dispatch 0, .resume 0] ++ forkActs 0 ++ [.dispatch 1, .resume 1, .syscall 1 (.setCpuShare 80)] ++
    ksteps 1 2 ++ [.syscall 1 (.setCpuShare 81)]

/-- It is told −1 and keeps its 80; MLFQ keeps its 20. -/
theorem cpu_share_guarantee_refuses :
    ∃ s s', Reaches Kernel.step (fun s a => NoCreate a ∧ Affordable s a) boot s ∧
      s.mlfq.share.toNat + ∑ p with (s.proc p).stype = .stride, (s.proc p).share.toNat = 100 ∧
      (s.proc 1).stype = .stride ∧ 1 ≤ (s.proc 1).share.toNat ∧
      s.step (.kstep 1 true none) = some s' ∧ (s'.thread 1).eax = -1 ∧ s'.mlfq = s.mlfq := by
  obtain ⟨s, hreach, hmid⟩ := boot_reaches (fun s a => NoCreate a ∧ Affordable s a) grantRun
    (fun s => s.onCpu 1 = some (1, 1) ∧ s.pc 1 = .setCpuShare 81 ∧ Affordable s (.kstep 1 true none) ∧
      (s.step (.kstep 1 true none)).isSome ∧ (s.proc 1).stype = .stride ∧
      s.mlfq.share.toNat + (s.proc 1).held.toNat < 20 + (81 : Word).toInt.toNat) (by decide +kernel)
  obtain ⟨hon, hpc, hok, hstep, hstride, hlt⟩ := hmid
  obtain ⟨s', hs'⟩ := Option.isSome_iff_exists.mp hstep
  obtain ⟨hsum, _, hone, _, hreply⟩ := cpu_share_guarantee hreach
  obtain ⟨hiff, hsame⟩ := hreply 1 1 1 81 true none s' hon hpc hok hs'
  exact ⟨s, s', hreach, hsum, hstride, hone 1 hstride, hs', hiff.mpr hlt, (hsame (hiff.mpr hlt)).1⟩

/-- `init` asks for 101. -/
def wrapRun : List Act :=
  [.dispatch 0, .resume 0, .syscall 0 (.setCpuShare 101), .kstep 0 true none]

/-- The request is granted, and MLFQ has 2³² − 1 shares. -/
theorem wrap_run :
    ∃ s, Reaches Kernel.step (fun _ a => NoCreate a) boot s ∧ (s.thread 0).eax = 0 ∧
      (s.proc 0).stype = .stride ∧ (s.proc 0).share.toNat = 101 ∧
      s.mlfq.share.toNat = 2 ^ 32 - 1 :=
  boot_reaches (fun _ a => NoCreate a) wrapRun (fun s => (s.thread 0).eax = 0 ∧
      (s.proc 0).stype = .stride ∧ (s.proc 0).share.toNat = 101 ∧
      s.mlfq.share.toNat = 2 ^ 32 - 1) (by decide +kernel)

end Kernel

end Xv6
