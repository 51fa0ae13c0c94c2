import Xv6.Laws.Proc.Loop

/-!
# Whole slices

A process that is picked can use up its quantum: the run of its ticks exists in the machine, and
ends with the fee added to the pass of its client (`exists_slice`). Runs of any length are put
together from such slices.
-/

namespace Xv6

open Xv6.Lib

namespace Loop

open Kernel

variable {s s' : Loop} {p : ProcPtr} {ok : Loop → LoopAct → Prop}

/-- The rest of a slice of `p`, `k` ticks after its start. The fee is added to the pass of `r`. -/
structure Slice (r : Kernel) (s s' : Loop) (p : ProcPtr) (k : Word) : Prop
    extends SameShares s.kernel s'.kernel where
  running : s'.kernel.running = none
  panic : s'.kernel.panic = none
  state : ∀ q, (s'.kernel.proc q).state = if q = p then .runnable else (s.kernel.proc q).state
  stype : ∀ q, (s'.kernel.proc q).stype = (s.kernel.proc q).stype
  own : s'.kernel.clientPass (s.kernel.clientOf p) = r.clientPass (s.kernel.clientOf p) +
    TICKETS * k / s.kernel.clientShare (s.kernel.clientOf p)
  others : ∀ c, s.kernel.IsClient c → c ≠ s.kernel.clientOf p →
    s'.kernel.clientPass c = r.clientPass c
  given : s'.given = s.given + k.toNat
  mlfqCharged : s'.mlfqCharged = if (s.kernel.proc p).stype = .stride then s.mlfqCharged
    else s.mlfqCharged + k.toNat

theorem step_sched (hpanic : s.kernel.panic = none) (hrun : s.kernel.running = some p) :
    s.step (.sched .runnable) = some (s.sched p .runnable) := by
  unfold step
  rw [hpanic, hrun]
  rfl

theorem step_pick (hpanic : s.kernel.panic = none) (hrun : s.kernel.running = none) :
    s.step .pick = some s.pick := by
  unfold step
  rw [hpanic, hrun]
  rfl

theorem pick_panic : s.pick.kernel.panic = s.kernel.panic := by
  have hreduce : ∀ k : Kernel, k.reduce.panic = k.panic := by
    intro k
    unfold reduce
    split
    · rfl
    · split <;> rfl
  have hboost : ∀ k : Kernel, k.boost.panic = k.panic := by
    intro k
    unfold boost
    split <;> rfl
  obtain ⟨⟨pin, hpin⟩, -⟩ := getschedproc_spec s.kernel.reduce.boost
  unfold pick
  split
  all_goals
    rename_i heq
    rw [heq] at hpin
    simp only at hpin
    subst hpin
    exact (hboost _).trans (hreduce _)

/-- The last tick of a slice. -/
theorem sched_rest (hpanic : s.kernel.panic = none)
    (hshare : s.kernel.clientShare (s.kernel.clientOf p) ≠ 0) (h : s.Ends p .runnable) :
    Slice s.kernel s (s.sched p .runnable) p ((s.kernel.proc p).ticks + 1) := by
  have hl := sched_left h
  obtain ⟨hpanic', hpaid⟩ := hl.paid hshare
  refine ⟨hl.toSameShares, hl.running, hpanic'.trans hpanic, hl.state, hl.stype, hpaid,
    fun c hc hne => ?_, hl.given, hl.mlfqCharged⟩
  rcases hl.pass c hc with heq | ⟨hof, -⟩
  · exact heq
  · exact absurd hof hne

/-- The ticks that are left of a quantum. The run meets `ok` if shares are all it looks at. -/
theorem exists_rest (hok : ∀ s', SameShares s.kernel s'.kernel → ok s' (.sched .runnable))
    (hpanic : s.kernel.panic = none) (hrun : s.kernel.running = some p)
    (hshare : s.kernel.clientShare (s.kernel.clientOf p) ≠ 0) (n : Nat)
    (hn : (s.kernel.proc p).ticks.toNat + (n + 1) = (s.kernel.proc p).quan.toNat) :
    ∃ s', Reaches Loop.step ok s s' ∧ Slice s.kernel s s' p (s.kernel.proc p).quan := by
  have hquan := quan_le (s.kernel.proc p)
  have hsucc := toNat_succ (n := (s.kernel.proc p).ticks) (by omega)
  have hstep : Reaches step ok s (s.sched p .runnable) :=
    .tail .refl (hok s (SameClients.refl _).shares) (step_sched hpanic hrun)
  induction n generalizing s with
  | zero =>
    have hlast : (s.kernel.proc p).ticks + 1 = (s.kernel.proc p).quan :=
      BitVec.eq_of_toNat_eq (by omega)
    have hends : s.Ends p .runnable := by
      rintro ⟨-, hlt⟩
      rw [hlast] at hlt
      exact absurd hlt (BitVec.lt_irrefl _)
    refine ⟨_, hstep, ?_⟩
    rw [← hlast]
    exact sched_rest hpanic hshare hends
  | succ n ih =>
    have hgoes : ¬ s.Ends p .runnable := by
      refine not_not.mpr ⟨rfl, ?_⟩
      rw [BitVec.lt_def]
      omega
    have hran := sched_ran hgoes
    have heq : s.sched p .runnable = s.tick p .running := if_neg hgoes
    rw [heq] at hran hstep
    have hproc := (tick_proc s p p .running).trans (if_pos rfl)
    have hof := hran.same.clientOf p
    have hown := hran.same.client (isClient_clientOf s.kernel p)
    have hquan' : ((s.tick p .running).kernel.proc p).quan = (s.kernel.proc p).quan := by
      rw [hproc]
      rfl
    obtain ⟨s', hreach, hrest⟩ := ih (s := s.tick p .running)
      (fun s' h => hok s' (hran.same.shares.trans h)) hpanic (hran.running.trans hrun) (by rw [hof, hown.1]; exact hshare)
      (by rw [hquan', hran.ticks, hsucc]; omega)
      (by rw [hquan']; exact hquan)
      (toNat_succ (by rw [hran.ticks, hsucc]; omega))
      (.tail .refl (hok _ hran.same.shares) (step_sched hpanic (hran.running.trans hrun)))
    refine ⟨s', hstep.trans hreach, ?_⟩
    rw [hquan'] at hrest
    refine ⟨hran.same.shares.trans hrest.toSameShares, hrest.running, hrest.panic, fun q => ?_,
      fun q => (hrest.stype q).trans (hran.stype q), ?_, fun c hc hne => ?_, hrest.given, ?_⟩
    · rw [hrest.state, hran.state]
      split <;> rfl
    · have hval := hrest.own
      rw [hof, hown.2, hown.1] at hval
      exact hval
    · rw [hrest.others c (hran.same.isClient.mpr hc) (by rw [hof]; exact hne),
        (hran.same.client hc).2]
    · rw [hrest.mlfqCharged, hproc]
      rfl

/-- A process that is picked runs until its quantum is used up. -/
theorem exists_slice (ok : Loop → LoopAct → Prop) (hpick : ok s .pick)
    (hok : ∀ s', SameShares s.kernel s'.kernel → ok s' (.sched .runnable))
    (hpanic : s.kernel.panic = none) (hidle : s.kernel.running = none)
    (hp : Picked s s.pick p) (hshare : s.kernel.clientShare (s.kernel.clientOf p) ≠ 0) :
    ∃ k s', Reaches Loop.step ok s s' ∧ Slice s.kernel.reduce s s' p k ∧ 0 < k.toNat ∧ k.toNat ≤ 20 ∧
      ((s.kernel.proc p).stype = .stride → k = 5#32) := by
  have hof : s.pick.kernel.clientOf p = s.kernel.clientOf p :=
    (hp.same.clientOf p).trans (reduce_clientOf)
  have hreduce : SameShares s.kernel s.kernel.reduce :=
    ⟨fun _ => reduce_isClient, fun _ _ => reduce_clientShare⟩
  have hshares := hreduce.trans hp.same.shares
  have hown := isClient_clientOf s.kernel p
  have hstep : Reaches step ok s s.pick := .tail .refl hpick (step_pick hpanic hidle)
  have hpos : 0 < (s.pick.kernel.proc p).quan.toNat := by
    unfold Proc.quan
    split
    · decide
    · cases (s.pick.kernel.proc p).qlev <;> decide
  obtain ⟨s', hreach, hrest⟩ := exists_rest (s := s.pick) (p := p)
    (fun s' h => hok s' (hshares.trans h)) ((pick_panic).trans hpanic) hp.running
    (by rw [hof, hshares.share _ hown]; exact hshare)
    ((s.pick.kernel.proc p).quan.toNat - 1)
    (by rw [hp.ticks]; show 0 + _ = _; omega)
  have htype : (s.pick.kernel.proc p).stype = .stride ↔ (s.kernel.proc p).stype = .stride :=
    hshares.isClient (some p)
  refine ⟨(s.pick.kernel.proc p).quan, s', hstep.trans hreach, ⟨hshares.trans hrest.toSameShares,
    hrest.running, hrest.panic, fun q => ?_, fun q => (hrest.stype q).trans (hp.stype q), ?_,
    fun c hc hne => ?_, ?_, ?_⟩, hpos, quan_le _, fun hstride => ?_⟩
  · rw [hrest.state, hp.state]
    split <;> rfl
  · have hval := hrest.own
    rw [hof, (hp.same.client (reduce_isClient.mpr hown)).2, hshares.share _ hown] at hval
    exact hval
  · rw [hrest.others c ((hshares.isClient c).mpr hc) (by rw [hof]; exact hne),
      (hp.same.client (reduce_isClient.mpr hc)).2]
  · rw [hrest.given, hp.given.1]
  · rw [hrest.mlfqCharged, hp.given.2]
    by_cases hstride : (s.kernel.proc p).stype = .stride
    · rw [if_pos hstride, if_pos (htype.mpr hstride)]
    · rw [if_neg hstride, if_neg fun h => hstride (htype.mp h)]
  · unfold Proc.quan
    rw [if_pos (htype.mpr hstride)]
    rfl

end Loop

end Xv6
