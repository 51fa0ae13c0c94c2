import Xv6.Laws.Proc.Effects
import Xv6.Laws.Vm.Grow
import Xv6.Lib.Chain
import Xv6.Vm.System

/-!
# What a failed fork or thread_create leaves behind

Each call takes a slot, pages, and another slot, and gives up at the first of them it cannot have.
`fork` never clears the `pid` that `allocproc` has set, and drops the address space when `allocthd`
fails. `allocthd` has set `mp` when the later steps of `thread_create` fail, and nothing clears it.
What is left is therefore nothing in two cases only: no slot was found, or the first page was
missing (for `thread_create`, in a slot that had no owner before; for `fork`, with the counter of
pids at 0).
-/

namespace Xv6

open Function Xv6.Lib

/-! ## Stores keep the free list -/

namespace Ram

variable {r r' : Ram} {pd : Pgdir} {a w : Word} {len : Nat} {g : Nat → Byte}

theorem kwrite_freelist (h : r.kwrite pd a len g = some r') : r'.freelist = r.freelist := by
  unfold kwrite at h
  dsimp only at h
  split at h
  · obtain ⟨f, -, rfl⟩ := Option.map_eq_some_iff.mp h
    rfl
  · obtain ⟨f, -, h⟩ := Option.bind_eq_some_iff.mp h
    obtain ⟨f', -, rfl⟩ := Option.map_eq_some_iff.mp h
    rfl

end Ram

namespace UserMem

variable {m m' : UserMem}

theorem ufree_freelist {cur : Pgdir} {sp : Word} (h : m.ufree cur sp = some m') :
    m'.ram.freelist = m.ram.freelist := by
  unfold ufree at h
  obtain ⟨page, -, h⟩ := Option.bind_eq_some_iff.mp h
  obtain ⟨r₁, h1, h⟩ := Option.bind_eq_some_iff.mp h
  obtain ⟨r₂, h2, h⟩ := Option.bind_eq_some_iff.mp h
  obtain ⟨r₃, h3, rfl⟩ := Option.map_eq_some_iff.mp h
  show r₃.freelist = _
  rw [Ram.kwrite_freelist h3, Ram.kwrite_freelist h2, Ram.kwrite_freelist h1]

end UserMem

namespace System

variable {K : Symbols} {thread arg : Word} {c : CpuId} {p np : ProcPtr} {t n u : ThdPtr}
  {s s₁ s' : System} {d : PageDir}

theorem copyList_freelist {cur : Pgdir} : ∀ (k : Nat) (l : Word) (m : UserMem) {m' : UserMem},
    copyList cur k l m = some m' → m'.ram.freelist = m.ram.freelist := by
  intro k
  induction k with
  | zero =>
    intro l m m' h
    cases h
  | succ k ih =>
    intro l m m' h
    unfold copyList at h
    split at h
    · cases h
      rfl
    · obtain ⟨usp, -, h⟩ := Option.bind_eq_some_iff.mp h
      obtain ⟨m₁, hm₁, h⟩ := Option.bind_eq_some_iff.mp h
      obtain ⟨next, -, h⟩ := Option.bind_eq_some_iff.mp h
      rw [ih next m₁ h, UserMem.ufree_freelist hm₁]

theorem foldlM_freelist {f : UserMem → ThdPtr → Option UserMem}
    (hf : ∀ m u m', f m u = some m' → m'.ram.freelist = m.ram.freelist) :
    ∀ (l : List ThdPtr) (m : UserMem) {m' : UserMem}, l.foldlM f m = some m' →
      m'.ram.freelist = m.ram.freelist := by
  intro l
  induction l with
  | nil =>
    intro m m' h
    cases h
    rfl
  | cons u l ih =>
    intro m m' h
    rw [List.foldlM_cons] at h
    obtain ⟨m₁, hm₁, h⟩ := Option.bind_eq_some_iff.mp h
    rw [ih m₁ h, hf m u m₁ hm₁]

theorem copyThds_freelist {cur : Pgdir} {m m' : UserMem} (h : s.copyThds p t cur m = some m') :
    m'.ram.freelist = m.ram.freelist := by
  refine foldlM_freelist (fun m u m' hu => ?_) _ m h
  split at hu
  · exact UserMem.ufree_freelist hu
  · cases hu
    rfl

/-! ## One call -/

/-- Before its return a call takes a step. -/
theorem Runs.next (h : Runs K thread arg c p t s s') (hpc : s.kernel.pc t ≠ .sysret)
    (hret : s'.kernel.pc t = .sysret) :
    ∃ s₁, s.step K thread arg c p t = some s₁ ∧ Runs K thread arg c p t s₁ s' := by
  rcases Reaches.cases_head h with rfl | ⟨-, s₁, -, hs, hrest⟩
  · exact absurd hret hpc
  · exact ⟨s₁, hs, hrest⟩

/-- After its return it takes none. -/
theorem Runs.done (h : Runs K thread arg c p t s s') (hpc : s.kernel.pc t = .sysret) : s' = s := by
  rcases Reaches.cases_head h with rfl | ⟨-, s₁, hok, -, -⟩
  · rfl
  · exact absurd hpc hok

theorem Runs.snoc (h : Runs K thread arg c p t s s₁) (hpc : s₁.kernel.pc t ≠ .sysret)
    (hs : s₁.step K thread arg c p t = some s') : Runs K thread arg c p t s s' :=
  .tail (a := ()) h hpc hs

/-- The first UNUSED slot of each table. -/
def freeProc (s : System) : Option ProcPtr :=
  (List.finRange NPROC).find? fun q => (s.kernel.proc q).state = .unused

def freeThd (s : System) : Option ThdPtr :=
  (List.finRange NTHREAD).find? fun u => (s.kernel.thread u).state = .unused

/-- Thread `u` is as it was, but for the return value of the caller `t`. -/
structure KeptThd (s s' : System) (t u : ThdPtr) : Prop where
  thread : { s'.kernel.thread u with eax := (s.kernel.thread u).eax } = s.kernel.thread u
  eax : u ≠ t → (s'.kernel.thread u).eax = (s.kernel.thread u).eax
  usp : s'.usp u = s.usp u

/-- Process `q` is as it was. -/
structure KeptProc (s s' : System) (q : ProcPtr) : Prop where
  proc : s'.kernel.proc q = s.kernel.proc q
  dir : s'.dir q = s.dir q
  sz : s'.sz q = s.sz q
  fslist : s'.fslist q = s.fslist q

/-! ## fork -/

/-- All pages are free again, the slot is as if it had never been used, and the other processes and
the threads, with their memory, are as before. -/
structure ForkNoTrace (s s' : System) (t : ThdPtr) : Prop where
  pages : s'.ram.freelist.Perm s.ram.freelist
  slot : ∀ np, s.freeProc = some np → (s'.kernel.proc np).state = .unused ∧
    (s'.kernel.proc np).pid = 0 ∧ s'.dir np = none ∧ ∀ u, (s'.kernel.thread u).mp ≠ some np
  procs : ∀ q, s.freeProc ≠ some q → KeptProc s s' q
  threads : ∀ u, (s.kernel.thread u).state ≠ .unused → KeptThd s s' t u
  memory : ∀ f ∉ s.ram.freelist, s'.ram.page f = s.ram.page f

/-- `fork` has copied the memory. -/
def Copied : Pc → Prop
  | .allocthd (.fork _) | .allocStack (.fork _) _ | .allocOwner (.fork _) _ | .forkInit _ _
  | .forkFile _ _ _ | .forkCwd _ _ | .forkRun _ _ => True
  | _ => False

theorem goOn_eq {ok : Bool} {page : Option Nat} (h : s.goOn c p t ok page = some s') :
    ∃ k, s.kernel.kstep c p t ok page = some k ∧ s' = { s with kernel := k } := by
  obtain ⟨k, hk, rfl⟩ := Option.map_eq_some_iff.mp h
  exact ⟨k, hk, rfl⟩

theorem step_enabled (h : s.step K thread arg c p t = some s') : s.kernel.panic.isSome ≠ true := by
  intro h0
  unfold step at h
  rw [if_pos h0] at h
  cases h

theorem kfreeStack_kernel (h : s.kfreeStack K n = some s₁) : s₁.kernel = s.kernel := by
  obtain ⟨f, -, h⟩ := Option.bind_eq_some_iff.mp h
  obtain ⟨ram, -, rfl⟩ := Option.map_eq_some_iff.mp h
  rfl

/-- Every step is one of the process model, with the memory deciding what that model leaves open. -/
theorem step_kernel (h : s.step K thread arg c p t = some s') :
    ∃ ok page, s.kernel.kstep c p t ok page = some s'.kernel := by
  have hgo : ∀ {s₁ : System} {ok : Bool} {page : Option Nat}, s₁.goOn c p t ok page = some s' →
      s₁.kernel = s.kernel → ∃ ok page, s.kernel.kstep c p t ok page = some s'.kernel := by
    intro s₁ ok page hs hk
    obtain ⟨k, hstep, rfl⟩ := goOn_eq hs
    exact ⟨ok, page, hk ▸ hstep⟩
  unfold step at h
  rw [if_neg (step_enabled h)] at h
  split at h
  all_goals try exact hgo h rfl
  · obtain ⟨d, -, h⟩ := Option.bind_eq_some_iff.mp h
    obtain ⟨⟨ram, o⟩, -, h⟩ := Option.bind_eq_some_iff.mp h
    exact hgo h rfl
  · split at h
    · exact hgo h rfl
    · exact hgo h rfl
  · obtain ⟨cur, -, h⟩ := Option.bind_eq_some_iff.mp h
    obtain ⟨d, -, h⟩ := Option.bind_eq_some_iff.mp h
    obtain ⟨m, -, h⟩ := Option.bind_eq_some_iff.mp h
    obtain ⟨m', -, h⟩ := Option.bind_eq_some_iff.mp h
    exact hgo h rfl
  · obtain ⟨d, -, h⟩ := Option.bind_eq_some_iff.mp h
    obtain ⟨⟨sp, m⟩, -, h⟩ := Option.bind_eq_some_iff.mp h
    dsimp only at h
    split at h
    · obtain ⟨s₁, hs₁, h⟩ := Option.bind_eq_some_iff.mp h
      have hk := kfreeStack_kernel hs₁
      exact hgo h hk
    · exact hgo h rfl
  · obtain ⟨d, -, h⟩ := Option.bind_eq_some_iff.mp h
    obtain ⟨⟨ok, ram⟩, -, h⟩ := Option.bind_eq_some_iff.mp h
    dsimp only at h
    split at h
    · obtain ⟨ram', -, h⟩ := Option.bind_eq_some_iff.mp h
      exact hgo h rfl
    · obtain ⟨s₁, hs₁, h⟩ := Option.bind_eq_some_iff.mp h
      obtain ⟨m, -, h⟩ := Option.bind_eq_some_iff.mp h
      have hk := kfreeStack_kernel hs₁
      exact hgo h hk
  · cases h

theorem step_fork (hpc : s.kernel.pc t = .fork) (h : s.step K thread arg c p t = some s₁) :
    (s.freeProc = none ∧ s₁ = { s with kernel := s.kernel.ret t (-1) }) ∨
    ∃ np, s.freeProc = some np ∧ ∃ k : Kernel, s₁ = { s with kernel := k } ∧ k.pc t = .forkCopy np ∧
      k.thread = s.kernel.thread ∧ k.proc np = { s.kernel.proc np with
        state := .embryo, pid := s.kernel.nextpid } ∧ ∀ q, q ≠ np → k.proc q = s.kernel.proc q := by
  unfold step at h
  rw [if_neg (step_enabled h), hpc] at h
  obtain ⟨k, hk, rfl⟩ := goOn_eq h
  unfold Kernel.kstep at hk
  rw [hpc] at hk
  obtain ⟨-, hk⟩ := Option.ite_none_right_eq_some.mp hk
  cases hk
  unfold Kernel.allocproc
  cases hf : (List.finRange NPROC).find? fun q => (s.kernel.proc q).state = .unused with
  | none => exact .inl ⟨hf, rfl⟩
  | some np =>
    refine .inr ⟨np, hf, _, rfl, ?_, rfl, ?_, fun q hq => ?_⟩
    · simp
    · simp
    · simp [hq]

theorem step_forkCopy (hpc : s.kernel.pc t = .forkCopy np) (hd : s.dir p = some d)
    (h : s.step K thread arg c p t = some s₁) :
    (∃ ram, PageDir.copyuvm K s.ram d (s.sz p) = some (ram, none) ∧
      s₁ = { s with ram, dir := update s.dir np none, kernel := s.kernel.forkFail t np }) ∨
    ∃ ram d', PageDir.copyuvm K s.ram d (s.sz p) = some (ram, some d') ∧ s₁.ram = ram ∧
      Copied (s₁.kernel.pc t) := by
  unfold step at h
  rw [if_neg (step_enabled h), hpc] at h
  dsimp only at h
  rw [hd, Option.bind_some] at h
  obtain ⟨⟨ram, o⟩, hcopy, h⟩ := Option.bind_eq_some_iff.mp h
  obtain ⟨k, hk, rfl⟩ := goOn_eq h
  dsimp only at hk
  unfold Kernel.kstep at hk
  rw [hpc] at hk
  cases hk
  cases o with
  | none => exact .inl ⟨ram, hcopy, rfl⟩
  | some d' =>
    refine .inr ⟨ram, d', hcopy, rfl, ?_⟩
    show Copied ((s.kernel.setPc t (.allocthd (.fork np))).pc t)
    rw [Kernel.setPc_pc, if_pos rfl]
    trivial

/-- The rest of `fork` stays behind the copy until it returns. -/
theorem kstep_copied {k k' : Kernel} {ok : Bool} {page : Option Nat} (hpc : Copied (k.pc t))
    (hk : k.kstep c p t ok page = some k') : Copied (k'.pc t) ∨ k'.pc t = .sysret := by
  unfold Kernel.kstep at hk
  cases hp : k.pc t
  all_goals rw [hp] at hk hpc
  case allocthd o =>
    obtain ⟨-, hk⟩ := Option.ite_none_right_eq_some.mp hk
    cases hk
    cases o with
    | create => exact hpc.elim
    | fork np =>
      unfold Kernel.allocthd
      split
      · left
        simp [Copied]
      · right
        simp [Kernel.allocFail, Kernel.forkFail, Kernel.ret]
  case allocStack o n =>
    cases hk
    cases o with
    | create => exact hpc.elim
    | fork np =>
      unfold Kernel.allocStack
      split
      · left
        simp [Copied]
      · right
        simp [Kernel.allocFail, Kernel.forkFail, Kernel.ret]
  case allocOwner o n =>
    cases hk
    cases o with
    | create => exact hpc.elim
    | fork np =>
      left
      simp [Kernel.allocOwner, Copied]
  case forkInit np n =>
    cases hk
    left
    simp [Kernel.forkInit, Copied]
  case forkFile np n fd =>
    cases hk
    left
    simp only [Kernel.forkFile]
    split <;> simp [Copied]
  case forkCwd np n =>
    cases hk
    left
    simp only [Kernel.forkCwd]
    split <;> simp [hp, Copied]
  case forkRun np n =>
    obtain ⟨-, hk⟩ := Option.ite_none_right_eq_some.mp hk
    cases hk
    right
    simp [Kernel.forkRun, Kernel.ret]
  all_goals exact hpc.elim

/-- It gives no page back. -/
theorem step_copied (hpc : Copied (s.kernel.pc t)) (h : s.step K thread arg c p t = some s₁) :
    s₁.ram.freelist.length ≤ s.ram.freelist.length := by
  have hen := step_enabled h
  unfold step at h
  rw [if_neg hen] at h
  cases hp : s.kernel.pc t with
  | allocStack k n =>
    rw [hp] at h
    dsimp only at h
    cases hr : s.ram.kalloc with
    | none =>
      rw [hr] at h
      obtain ⟨k', -, rfl⟩ := goOn_eq h
      exact le_rfl
    | some x =>
      rw [hr] at h
      obtain ⟨k', -, rfl⟩ := goOn_eq h
      unfold Ram.kalloc at hr
      split at hr
      · cases hr
      · rename_i hl
        cases hr
        rw [hl]
        exact Nat.le_succ _
  | forkInit np n =>
    rw [hp] at h
    obtain ⟨cur, -, h⟩ := Option.bind_eq_some_iff.mp h
    obtain ⟨d, -, h⟩ := Option.bind_eq_some_iff.mp h
    obtain ⟨m, hm, h⟩ := Option.bind_eq_some_iff.mp h
    obtain ⟨m', hm', h⟩ := Option.bind_eq_some_iff.mp h
    obtain ⟨k', -, rfl⟩ := goOn_eq h
    show m'.ram.freelist.length ≤ _
    rw [copyThds_freelist hm', copyList_freelist _ _ _ hm]
    exact le_rfl
  | allocthd | allocOwner | forkFile | forkCwd | forkRun =>
    rw [hp] at h
    obtain ⟨k', -, rfl⟩ := goOn_eq h
    exact le_rfl
  | _ =>
    rw [hp] at hpc
    exact hpc.elim

theorem Runs.copied (h : Runs K thread arg c p t s s') (hpc : Copied (s.kernel.pc t)) :
    s'.ram.freelist.length ≤ s.ram.freelist.length := by
  have hinv : (Copied (s'.kernel.pc t) ∨ s'.kernel.pc t = .sysret) ∧
      s'.ram.freelist.length ≤ s.ram.freelist.length :=
    Reaches.invariant (motive := fun s' => (Copied (s'.kernel.pc t) ∨ s'.kernel.pc t = .sysret) ∧
      s'.ram.freelist.length ≤ s.ram.freelist.length) h ⟨.inl hpc, le_rfl⟩
      fun s₁ _ s₂ hs₁ hok hs => by
        have hpc₁ := hs₁.1.resolve_right hok
        obtain ⟨ok, page, hk⟩ := step_kernel hs
        exact ⟨kstep_copied hpc₁ hk, (step_copied hpc₁ hs).trans hs₁.2⟩
  exact hinv.2

theorem keptThd_ret {r : Word} (hthd : s'.kernel.thread u = if u = t then
    { s.kernel.thread t with eax := r } else s.kernel.thread u) (husp : s'.usp = s.usp) :
    KeptThd s s' t u := by
  refine ⟨?_, fun hne => ?_, by rw [husp]⟩
  · rw [hthd]
    by_cases hut : u = t
    · rw [if_pos hut, hut]
    · rw [if_neg hut]
  · rw [hthd, if_neg hne]

/-- `copyuvm` has failed: the pages are back, and `pid` stays. -/
theorem forkFail_no_trace_iff {k : Kernel} {ram : Ram} (hnp : s.freeProc = some np)
    (hthd : k.thread = s.kernel.thread)
    (hproc : k.proc np = { s.kernel.proc np with state := .embryo, pid := s.kernel.nextpid })
    (hother : ∀ q, q ≠ np → k.proc q = s.kernel.proc q) (hperm : ram.freelist.Perm s.ram.freelist)
    (hpage : ∀ f ∉ s.ram.freelist, ram.page f = s.ram.page f) :
    ForkNoTrace s { s with ram, dir := update s.dir np none, kernel := k.forkFail t np } t ↔
      s.kernel.nextpid = 0 ∧ ∀ u, (s.kernel.thread u).mp ≠ some np := by
  have hthd' : ∀ u, (k.forkFail t np).thread u = if u = t then
      { s.kernel.thread t with eax := -1 } else s.kernel.thread u := by
    intro u
    simp [Kernel.forkFail, Kernel.ret, hthd]
  have hmp : ∀ u, ((k.forkFail t np).thread u).mp = (s.kernel.thread u).mp := by
    intro u
    rw [hthd' u]
    split
    · rename_i hut
      rw [hut]
    · rfl
  have hslot : (k.forkFail t np).proc np = { s.kernel.proc np with
      state := .unused, pid := s.kernel.nextpid } := by
    simp [Kernel.forkFail, Kernel.ret, hproc]
  constructor
  · intro h
    obtain ⟨-, hpid, -, hnothd⟩ := h.slot np hnp
    refine ⟨?_, fun u => ?_⟩
    · rw [hslot] at hpid
      exact hpid
    · rw [← hmp u]
      exact hnothd u
  · rintro ⟨hpid, hnothd⟩
    refine ⟨hperm, fun q hq => ?_, fun q hq => ?_, fun u _ => keptThd_ret (hthd' u) rfl, hpage⟩
    · rw [hnp] at hq
      cases hq
      refine ⟨?_, ?_, update_self .., fun u => ?_⟩
      · rw [hslot]
      · rw [hslot]
        exact hpid
      · rw [hmp u]
        exact hnothd u
    · have hqne : q ≠ np := fun h0 => hq (h0 ▸ hnp)
      refine ⟨?_, update_of_ne hqne .., rfl, rfl⟩
      show (k.forkFail t np).proc q = _
      rw [← hother q hqne]
      simp [Kernel.forkFail, Kernel.ret, hqne]

/-- When a `fork` that returns has left nothing behind: there was no process slot, or `copyuvm` ran out
of memory while the counter of pids was 0 and no thread had the slot as its owner. -/
theorem fork_no_trace_iff (hpc : s.kernel.pc t = .fork) (hd : s.dir p = some d)
    (hmem : (s.mem p d).Sound K) (hrun : Runs K thread arg c p t s s')
    (hret : s'.kernel.pc t = .sysret) :
    ForkNoTrace s s' t ↔ s.freeProc = none ∨ ∃ np, s.freeProc = some np ∧ s.kernel.nextpid = 0 ∧
      s.ram.freelist.length < PageDir.needs (pageUp (s.sz p).toNat) ∧
      ∀ u, (s.kernel.thread u).mp ≠ some np := by
  obtain ⟨s₁, hstep, hrun⟩ := hrun.next (by rw [hpc]; exact fun h => by cases h) hret
  rcases step_fork hpc hstep with ⟨hnone, rfl⟩ | ⟨np, hnp, k, rfl, hpc₁, hthd, hproc, hother⟩
  · -- no process slot
    rw [hrun.done (by simp [Kernel.ret])]
    refine iff_of_true ⟨.refl _, fun np hnp => ?_, fun q _ => ⟨rfl, rfl, rfl, rfl⟩, fun u _ =>
      keptThd_ret (r := -1) (by simp [Kernel.ret]) rfl, fun _ _ => rfl⟩ (.inl hnone)
    rw [hnone] at hnp
    cases hnp
  · obtain ⟨s₂, hstep₂, hrun⟩ := hrun.next (by dsimp only; rw [hpc₁]; exact fun h => by cases h) hret
    have hd₁ : ({ s with kernel := k } : System).dir p = some d := hd
    have hslot : (s.freeProc = none ∨ ∃ np, s.freeProc = some np ∧ s.kernel.nextpid = 0 ∧
        s.ram.freelist.length < PageDir.needs (pageUp (s.sz p).toNat) ∧
        ∀ u, (s.kernel.thread u).mp ≠ some np) ↔ s.kernel.nextpid = 0 ∧
        s.ram.freelist.length < PageDir.needs (pageUp (s.sz p).toNat) ∧
        ∀ u, (s.kernel.thread u).mp ≠ some np := by
      simp [hnp]
    rw [hslot]
    rcases step_forkCopy hpc₁ hd₁ hstep₂ with ⟨ram, hcopy, rfl⟩ | ⟨ram, d', hcopy, hram, hcopied⟩
    · rw [hrun.done (by simp [Kernel.forkFail, Kernel.ret])]
      rcases hmem.copyuvm_cases with ⟨r', heq, hperm, hpage, hlen⟩ | ⟨r', d', heq, -⟩
      · cases heq.symm.trans hcopy
        rw [forkFail_no_trace_iff hnp hthd hproc hother hperm hpage]
        exact ⟨fun h => ⟨h.1, hlen, h.2⟩, fun h => ⟨h.1, h.2.2⟩⟩
      · cases heq.symm.trans hcopy
    · -- the pages of the copy are gone, whatever comes
      rcases hmem.copyuvm_cases with ⟨r', heq, -⟩ | ⟨r', d'', heq, hc⟩
      · cases heq.symm.trans hcopy
      · cases heq.symm.trans hcopy
        have henough : s.ram.freelist.length = ram.freelist.length +
          PageDir.needs (pageUp (s.sz p).toNat) := hc.enough
        have hleft := hrun.copied hcopied
        rw [hram] at hleft
        have hpos : 0 < PageDir.needs (pageUp (s.sz p).toNat) := by
          unfold PageDir.needs NPTENTRIES
          omega
        refine iff_of_false (fun h => ?_) fun h => ?_
        · have := h.pages.length_eq
          omega
        · have := h.2.1
          omega

/-! ## thread_create -/

/-- The page is that of a stack on the free list of `p`, or the guard page below it. -/
def OnList (s : System) (p : ProcPtr) (f : Nat) : Prop :=
  ∃ d l, s.dir p = some d ∧ Chain (s.ram.node d.flat) 0 (s.fslist p) l ∧ ∃ x ∈ l, ∃ e, e.frame = f ∧
    (d.maps (pageOf (x.2 - .ofNat 32 PGSIZE)) = some e ∨
      d.maps (pageOf (x.2 - .ofNat 32 (2 * PGSIZE))) = some e)

/-- The slots of the process are the same, the slot it used is free, without owner and kernel stack,
the other threads and processes are as before, and the pages are free or on the list of stacks. -/
structure CreateNoTrace (s s' : System) (p : ProcPtr) (t : ThdPtr) : Prop where
  owned : ∀ u, (s'.kernel.thread u).mp = some p ↔ (s.kernel.thread u).mp = some p
  slot : ∀ n, s.freeThd = some n → (s'.kernel.thread n).state = .unused ∧
    (s'.kernel.thread n).mp = none ∧ (s'.kernel.thread n).kstack = none
  threads : ∀ u, s.freeThd ≠ some u → KeptThd s s' t u
  procs : ∀ q, q ≠ p → KeptProc s s' q
  proc : s'.kernel.proc p = s.kernel.proc p
  pages : ∀ f ∈ s.ram.freelist, f ∈ s'.ram.freelist ∨ s'.OnList p f

/-- `thread_create` has its slot `n` and goes on, or it has returned. -/
def Creating (t n : ThdPtr) (k : Kernel) : Prop :=
  k.pc t = .createStack n ∨ k.pc t = .createArgs n ∨ k.pc t = .createRun n ∨ k.pc t = .sysret

theorem step_allocthd (hpc : s.kernel.pc t = .allocthd .create)
    (h : s.step K thread arg c p t = some s₁) :
    (s.freeThd = none ∧ s₁ = { s with kernel := s.kernel.ret t (-1) }) ∨
    ∃ n, s.freeThd = some n ∧ ∃ k : Kernel, s₁ = { s with kernel := k } ∧
      k.pc t = .allocStack .create n ∧ k.proc = s.kernel.proc ∧
      k.thread n = { s.kernel.thread n with state := .embryo, tid := s.kernel.nexttid } ∧
      ∀ u, u ≠ n → k.thread u = s.kernel.thread u := by
  unfold step at h
  rw [if_neg (step_enabled h), hpc] at h
  obtain ⟨k, hk, rfl⟩ := goOn_eq h
  unfold Kernel.kstep at hk
  rw [hpc] at hk
  obtain ⟨-, hk⟩ := Option.ite_none_right_eq_some.mp hk
  cases hk
  unfold Kernel.allocthd
  cases hf : (List.finRange NTHREAD).find? fun u => (s.kernel.thread u).state = .unused with
  | none => exact .inl ⟨hf, rfl⟩
  | some n =>
    refine .inr ⟨n, hf, _, rfl, ?_, rfl, ?_, fun u hu => ?_⟩
    · simp
    · simp
    · simp [hu]

theorem step_allocStack (hpc : s.kernel.pc t = .allocStack .create n)
    (h : s.step K thread arg c p t = some s₁) :
    (s.ram.freelist = [] ∧ s₁ = { s with kernel := (s.kernel.unalloc n).ret t (-1) }) ∨
    s.ram.freelist ≠ [] ∧ s₁.kernel.pc t = .allocOwner .create n := by
  unfold step at h
  rw [if_neg (step_enabled h), hpc] at h
  dsimp only at h
  unfold Ram.kalloc at h
  cases hr : s.ram.freelist with
  | nil =>
    rw [hr] at h
    obtain ⟨k, hk, rfl⟩ := goOn_eq h
    unfold Kernel.kstep at hk
    rw [hpc] at hk
    cases hk
    exact .inl ⟨rfl, rfl⟩
  | cons f rest =>
    rw [hr] at h
    obtain ⟨k, hk, rfl⟩ := goOn_eq h
    unfold Kernel.kstep at hk
    dsimp only at hk
    rw [hpc] at hk
    cases hk
    refine .inr ⟨by simp, ?_⟩
    simp [Kernel.allocStack]

theorem step_allocOwner (hpc : s.kernel.pc t = .allocOwner .create n)
    (h : s.step K thread arg c p t = some s₁) :
    Creating t n s₁.kernel ∧ (s₁.kernel.thread n).mp = some p := by
  obtain ⟨ok, page, hk⟩ := step_kernel h
  unfold Kernel.kstep at hk
  rw [hpc] at hk
  rw [← Option.some.inj hk]
  simp [Kernel.allocOwner, Creating]

/-- Behind `allocthd`, whatever fails, `mp` stays. -/
theorem step_creating (hpc : Creating t n s.kernel) (hmp : (s.kernel.thread n).mp = some p)
    (hne : s.kernel.pc t ≠ .sysret) (h : s.step K thread arg c p t = some s') :
    Creating t n s'.kernel ∧ (s'.kernel.thread n).mp = some p := by
  obtain ⟨ok, page, hk⟩ := step_kernel h
  have hfail : Creating t n (s.kernel.createFail t n) ∧
      ((s.kernel.createFail t n).thread n).mp = some p := by
    unfold Kernel.createFail Kernel.ret
    refine ⟨.inr (.inr (.inr (by simp))), ?_⟩
    by_cases hnt : n = t
    · subst hnt
      simp [hmp]
    · simp [hmp, hnt]
  unfold Kernel.kstep at hk
  rcases hpc with hpc | hpc | hpc | hpc
  · rw [hpc] at hk
    rw [← Option.some.inj hk]
    split
    · exact ⟨by simp [Creating], hmp⟩
    · exact hfail
  · rw [hpc] at hk
    rw [← Option.some.inj hk]
    split
    · exact ⟨by simp [Creating], hmp⟩
    · exact hfail
  · rw [hpc] at hk
    obtain ⟨-, hk⟩ := Option.ite_none_right_eq_some.mp hk
    rw [← Option.some.inj hk]
    unfold Kernel.createRun Kernel.ret
    refine ⟨.inr (.inr (.inr (by simp))), ?_⟩
    by_cases hnt : n = t
    · subst hnt
      simp [hmp]
    · simp [hmp, hnt]
  · exact absurd hpc hne

theorem Runs.creating (h : Runs K thread arg c p t s s') (hpc : Creating t n s.kernel)
    (hmp : (s.kernel.thread n).mp = some p) : (s'.kernel.thread n).mp = some p := by
  have hinv : Creating t n s'.kernel ∧ (s'.kernel.thread n).mp = some p :=
    Reaches.invariant (motive := fun s => Creating t n s.kernel ∧ (s.kernel.thread n).mp = some p)
      h ⟨hpc, hmp⟩ fun _ _ _ hs hok hstep => step_creating hs.1 hs.2 hok hstep
  exact hinv.2

/-- There was no page for the kernel stack: the slot is free again, with the owner it had. -/
theorem allocStack_no_trace_iff {k : Kernel} (hn : s.freeThd = some n) (hproc : k.proc = s.kernel.proc)
    (hslot : k.thread n = { s.kernel.thread n with state := .embryo, tid := s.kernel.nexttid })
    (hother : ∀ u, u ≠ n → k.thread u = s.kernel.thread u) :
    CreateNoTrace s { s with kernel := (k.unalloc n).ret t (-1) } p t ↔ (s.kernel.thread n).mp = none := by
  have hthd : ∀ u, u ≠ n → ((k.unalloc n).ret t (-1)).thread u =
        if u = t then { s.kernel.thread t with eax := -1 } else s.kernel.thread u := by
    intro u hu
    simp only [Kernel.ret, Kernel.setPc_thread, Kernel.setThd_thread, if_neg hu, hother u hu]
    split
    · rename_i hut
      rw [← hut, if_neg hu, hother u hu]
    · rfl
  have hused : (((k.unalloc n).ret t (-1)).thread n).state = .unused ∧
      (((k.unalloc n).ret t (-1)).thread n).mp = (s.kernel.thread n).mp ∧
      (((k.unalloc n).ret t (-1)).thread n).kstack = none := by
    by_cases hnt : n = t
    · subst hnt
      simp [Kernel.ret, hslot]
    · simp [Kernel.ret, hslot, hnt]
  generalize hk' : (k.unalloc n).ret t (-1) = k' at *
  have hproc' : k'.proc = s.kernel.proc := by
    rw [← hk', ← hproc]
    rfl
  constructor
  · intro h
    rw [← hused.2.1]
    exact (h.slot n hn).2.1
  · intro hmp
    refine ⟨fun u => ?_, fun n' hn' => ?_, fun u hu => ?_, fun q _ => ⟨by rw [hproc'], rfl, rfl, rfl⟩,
      by rw [hproc'], fun f hf => .inl hf⟩
    · by_cases hu : u = n
      · rw [hu]
        show (k'.thread n).mp = some p ↔ _
        rw [hused.2.1]
      · show (k'.thread u).mp = some p ↔ _
        rw [hthd u hu]
        split
        · rename_i hut
          rw [hut]
        · exact Iff.rfl
    · rw [hn] at hn'
      cases hn'
      exact ⟨hused.1, hused.2.1.trans hmp, hused.2.2⟩
    · have hne : u ≠ n := fun h0 => hu (h0 ▸ hn)
      exact keptThd_ret (hthd u hne) rfl

/-- When a `thread_create` that returns has left nothing behind: there was no thread slot, or there was
no page for the kernel stack and the slot had no owner. -/
theorem create_no_trace_iff (hpc : s.kernel.pc t = .allocthd .create)
    (hrun : Runs K thread arg c p t s s') (hret : s'.kernel.pc t = .sysret) :
    CreateNoTrace s s' p t ↔ s.freeThd = none ∨
      ∃ n, s.freeThd = some n ∧ (s.kernel.thread n).mp = none ∧ s.ram.freelist = [] := by
  obtain ⟨s₁, hstep, hrun⟩ := hrun.next (by rw [hpc]; exact fun h => by cases h) hret
  rcases step_allocthd hpc hstep with ⟨hnone, rfl⟩ | ⟨n, hn, k, rfl, hpc₁, hproc, hslot, hother⟩
  · -- no thread slot
    rw [hrun.done (by simp [Kernel.ret])]
    have hthd : ∀ u, (s.kernel.ret t (-1)).thread u =
        if u = t then { s.kernel.thread t with eax := -1 } else s.kernel.thread u := fun _ => rfl
    refine iff_of_true ⟨fun u => ?_, fun n hn => ?_, fun u _ => keptThd_ret (hthd u) rfl,
      fun q _ => ⟨rfl, rfl, rfl, rfl⟩, rfl, fun f hf => .inl hf⟩ (.inl hnone)
    · show ((s.kernel.ret t (-1)).thread u).mp = some p ↔ _
      rw [hthd u]
      split
      · rename_i hut
        rw [hut]
      · exact Iff.rfl
    · rw [hnone] at hn
      cases hn
  · have hcond : (s.freeThd = none ∨ ∃ n, s.freeThd = some n ∧ (s.kernel.thread n).mp = none ∧
        s.ram.freelist = []) ↔ (s.kernel.thread n).mp = none ∧ s.ram.freelist = [] := by
      simp [hn]
    rw [hcond]
    obtain ⟨s₂, hstep₂, hrun⟩ := hrun.next (by dsimp only; rw [hpc₁]; exact fun h => by cases h) hret
    rcases step_allocStack hpc₁ hstep₂ with ⟨hfree, rfl⟩ | ⟨hfree, hpc₂⟩
    · have hfree' : s.ram.freelist = [] := hfree
      rw [hrun.done (by simp [Kernel.ret]), allocStack_no_trace_iff hn hproc hslot hother]
      exact ⟨fun h => ⟨h, hfree'⟩, fun h => h.1⟩
    · -- `mp` is set now, and stays
      obtain ⟨s₃, hstep₃, hrun⟩ := hrun.next (by rw [hpc₂]; exact fun h => by cases h) hret
      obtain ⟨hpc₃, hmp⟩ := step_allocOwner hpc₂ hstep₃
      have hleft := hrun.creating hpc₃ hmp
      refine iff_of_false (fun h => ?_) fun h => hfree h.2
      have hmp' := (h.slot n hn).2.1
      rw [hleft] at hmp'
      cases hmp'

/-! A process of two pages calls, as the first one. -/

/-- Thread 0 of process 0 is about to run the stretch `k`. -/
def calling (k : Pc) (proc : ProcPtr → Proc) (thread : ThdPtr → Thread) (free : List Nat) : System where
  kernel := { Kernel.boot with proc, thread, pc := fun t => if t = 0 then k else .dead }
  ram := { UserMem.twoPages.ram with freelist := free }
  dir p := if p = 0 then some PageDir.twoPages else none
  sz p := if p = 0 then 8192 else 0

/-- All process slots are in use. -/
def fullProcs : System :=
  calling .fork (fun _ => { state := .runnable }) Kernel.boot.thread (List.range' 2000 100)

theorem fork_no_trace_full : ∃ s', (s'.kernel.thread 0).eax = -1 ∧ ForkNoTrace fullProcs s' 0 := by
  have hrun : ∃ s', Reaches (fun s (_ : Unit) => step PageDir.smallKernel 0 0 0 0 0 s)
      (fun s _ => s.kernel.pc 0 ≠ .sysret) fullProcs s' ∧
      s'.kernel.pc 0 = .sysret ∧ (s'.kernel.thread 0).eax = -1 :=
    exists_reaches [()] (fun s' : System => s'.kernel.pc 0 = .sysret ∧ (s'.kernel.thread 0).eax = -1)
      (by decide +kernel)
  obtain ⟨s', hrun, hret, heax⟩ := hrun
  have hfull : fullProcs.freeProc = none := by decide +kernel
  exact ⟨s', heax, (fork_no_trace_iff rfl rfl UserMem.twoPages_sound hrun hret).mpr (.inl hfull)⟩

/-- A `fork` that finds no thread slot, from its start to its return. -/
theorem fork_without_thread (hpanic : s.kernel.panic = none) (hlock : s.kernel.lock = none)
    (hpc : s.kernel.pc t = .fork) (hd : s.dir p = some d) (hmem : (s.mem p d).Sound K)
    (hnp : s.freeProc = some np) (hthd : s.freeThd = none)
    (hlen : PageDir.needs (pageUp (s.sz p).toNat) ≤ s.ram.freelist.length) :
    ∃ s', Runs K thread arg c p t s s' ∧ s'.kernel.pc t = .sysret ∧ (s'.kernel.thread t).eax = -1 ∧
      s.ram.freelist.length = s'.ram.freelist.length + PageDir.needs (pageUp (s.sz p).toNat) ∧
      (s'.kernel.proc np).state = .unused ∧ (s'.kernel.proc np).pid = s.kernel.nextpid ∧
      s'.dir np ≠ none := by
  rcases hmem.copyuvm_cases with ⟨r', -, -, -, hfew⟩ | ⟨ram, d', hcopy, hc⟩
  · exact absurd hlen (Nat.not_le.mpr hfew)
  · have hcopy' : PageDir.copyuvm K s.ram d (s.sz p) = some (ram, some d') := hcopy
    have hfind : (List.finRange NTHREAD).find? (fun u => (s.kernel.thread u).state = .unused) = none :=
      hthd
    have hproc : s.kernel.allocproc t = { s.kernel.setProc np fun q =>
        { q with state := .embryo, pid := s.kernel.nextpid } with
        nextpid := s.kernel.nextpid + 1
        drops := fun q => if q = np then 0 else s.kernel.drops q }.setPc t (.forkCopy np) := by
      unfold Kernel.allocproc
      rw [show (List.finRange NPROC).find? (fun q => (s.kernel.proc q).state = .unused) = some np from hnp]
    generalize hk : s.kernel.allocproc t = k at hproc
    have h1 : s.step K thread arg c p t = some { s with kernel := k } := by
      unfold step goOn Kernel.kstep
      simp [hpanic, hlock, hpc, hk]
    have hpc₁ : k.pc t = .forkCopy np := by
      rw [hproc]
      simp
    have hpanic₁ : k.panic = none := by
      rw [hproc]
      exact hpanic
    have hlock₁ : k.lock = none := by
      rw [hproc]
      exact hlock
    have h2 : ({ s with kernel := k } : System).step K thread arg c p t = some { s with
        ram, dir := update s.dir np (some d'), kernel := k.setPc t (.allocthd (.fork np)) } := by
      unfold step goOn Kernel.kstep
      simp [hpanic₁, hpc₁, hd, hcopy']
    have h3 : ({ s with ram, dir := update s.dir np (some d')
                        kernel := k.setPc t (.allocthd (.fork np)) } : System).step K thread arg c p t =
        some { s with ram, dir := update s.dir np (some d'),
                      kernel := (k.setPc t (.allocthd (.fork np))).forkFail t np } := by
      have hnone : (k.setPc t (.allocthd (.fork np))).allocthd t (.fork np) =
          (k.setPc t (.allocthd (.fork np))).forkFail t np := by
        unfold Kernel.allocthd
        have hsame : (k.setPc t (.allocthd (.fork np))).thread = s.kernel.thread := by
          rw [hproc]
          rfl
        rw [hsame, hfind]
        rfl
      unfold step goOn Kernel.kstep
      simp [hpanic₁, hlock₁, hnone]
    have hrun₁ : Runs K thread arg c p t s { s with kernel := k } :=
      Runs.snoc .refl (by rw [hpc]; exact fun h => by cases h) h1
    have hrun₂ := hrun₁.snoc (by dsimp only; rw [hpc₁]; exact fun h => by cases h) h2
    refine ⟨_, hrun₂.snoc (by simp) h3, ?_, ?_, hc.enough, ?_, ?_, ?_⟩
    · simp [Kernel.forkFail, Kernel.ret]
    · simp [Kernel.forkFail, Kernel.ret]
    · simp [Kernel.forkFail, Kernel.ret]
    · simp [Kernel.forkFail, Kernel.ret, hproc]
    · simp

/-- All thread slots are in use. -/
def fullThds (k : Pc) : System :=
  calling k Kernel.boot.proc (fun _ => { state := .runnable, mp := some 0 }) (List.range' 2000 100)

/-- `fork` returns -1, without the 68 pages of the copy, and with the pid of the slot set. -/
theorem fork_loses_pages : ∃ s', Runs PageDir.smallKernel 0 0 0 0 0 (fullThds .fork) s' ∧
    s'.kernel.pc 0 = .sysret ∧ (s'.kernel.thread 0).eax = -1 ∧
    100 = s'.ram.freelist.length + 68 ∧ (s'.kernel.proc 1).state = .unused ∧
    (s'.kernel.proc 1).pid = 2 ∧ s'.dir 1 ≠ none := by
  have hproc : (fullThds .fork).freeProc = some 1 := by decide +kernel
  have hthd : (fullThds .fork).freeThd = none := by decide +kernel
  have hlen : PageDir.needs (pageUp ((fullThds .fork).sz 0).toNat) ≤
      (fullThds .fork).ram.freelist.length := by decide +kernel
  exact fork_without_thread rfl rfl rfl rfl UserMem.twoPages_sound hproc hthd hlen

/-- There is a page for the kernel stack and none for the user stack: `thread_create` returns -1, and
its slot is still one of the process, so that `exit` will wait for it. -/
theorem create_keeps_owner : ∃ s', Runs PageDir.smallKernel 0 0 0 0 0
      (calling (.allocthd .create) Kernel.boot.proc Kernel.boot.thread [2000]) s' ∧
    s'.kernel.pc 0 = .sysret ∧ (s'.kernel.thread 0).eax = -1 ∧
    (s'.kernel.thread 1).state = .unused ∧ (s'.kernel.thread 1).mp = some 0 ∧
    Kernel.boot.havethds 0 0 = false ∧ s'.kernel.havethds 0 0 = true := by
  unfold Runs
  exact exists_reaches [(), (), (), ()] (fun s' : System => s'.kernel.pc 0 = .sysret ∧
    (s'.kernel.thread 0).eax = -1 ∧ (s'.kernel.thread 1).state = .unused ∧
    (s'.kernel.thread 1).mp = some 0 ∧ Kernel.boot.havethds 0 0 = false ∧
    s'.kernel.havethds 0 0 = true) (by decide +kernel)

theorem create_no_trace_full : ∃ s', (s'.kernel.thread 0).eax = -1 ∧
    CreateNoTrace (fullThds (.allocthd .create)) s' 0 0 := by
  have hrun : ∃ s', Reaches (fun s (_ : Unit) => step PageDir.smallKernel 0 0 0 0 0 s)
      (fun s _ => s.kernel.pc 0 ≠ .sysret) (fullThds (.allocthd .create)) s' ∧
      s'.kernel.pc 0 = .sysret ∧ (s'.kernel.thread 0).eax = -1 :=
    exists_reaches [()] (fun s' : System => s'.kernel.pc 0 = .sysret ∧ (s'.kernel.thread 0).eax = -1)
      (by decide +kernel)
  obtain ⟨s', hrun, hret, heax⟩ := hrun
  have hfull : (fullThds (.allocthd .create)).freeThd = none := by decide +kernel
  exact ⟨s', heax, (create_no_trace_iff rfl hrun hret).mpr (.inl hfull)⟩

end System

end Xv6
