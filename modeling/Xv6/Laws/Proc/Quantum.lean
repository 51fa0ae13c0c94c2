import Xv6.Laws.Proc.Loop

/-!
# Quanta, allotments and boosts

What MLFQ promises about the length of a slice, about the ticks a process may use in a queue and
about the time until the next boost, for every run of the scheduler loop on one CPU. The bounds
speak of what has happened, so a history (`SliceLog`) counts it beside the machine: the calls of
`sched()` in a slice, the ticks of each process in its queue, the ticks charged to MLFQ since the
last boost. `Tally` ties the counts to the fields `ticks`, `pass` and `boosted`, which the kernel
resets at different moments.
-/

namespace Xv6

open Xv6.Lib

/-- The queue of a process that MLFQ schedules. -/
def Proc.queue (q : Proc) : Option Level := q.place.map Prod.fst

namespace Kernel

variable {s : Kernel} {p q : ProcPtr}

/-- `set_cpu_share` changes nothing that counts here, takes a process into the highest queue, or
makes it a stride process. -/
theorem cpuShare_place (share : Word) : (s.cpuShare p share).proc p = s.proc p ∨
    ((s.proc p).stype = .stride ∧ ((s.cpuShare p share).proc p).place = some (.hqlev, 0)) ∨
    ((s.cpuShare p share).proc p).stype = .stride := by
  have hself := (cpuShare_spec (s := s) (p := p) share).1
  rw [hself]
  unfold setCpuShare
  split
  · split
    · rename_i hp
      exact .inr (.inl ⟨hp, rfl⟩)
    · exact .inl rfl
  · extract_lets new
    split
    · exact .inl rfl
    · exact .inr (.inr rfl)

theorem cpuShare_boosted (share : Word) : (s.cpuShare p share).mlfq.boosted = s.mlfq.boosted := by
  obtain ⟨_, hm⟩ := setCpuShare_mlfq s.mlfq (s.proc p) share
  rw [(cpuShare_spec share).2.2.1, hm]

end Kernel

namespace Loop

open Kernel

variable {s s' : Loop} {a : LoopAct} {p q : ProcPtr} {st : ProcState}

/-! ## What the steps do to places -/

/-- A step that is not a scheduling point: a slot keeps its place, leaves MLFQ or comes into the
highest queue. -/
structure Aside (s : Loop) (a : LoopAct) (s' : Loop) : Prop where
  other : a ≠ .pick ∧ ∀ st, a ≠ .sched st
  running : s'.kernel.running = s.kernel.running
  runs : ∀ p, s.kernel.running = some p →
    (s'.kernel.proc p).ticks = (s.kernel.proc p).ticks ∧ (s'.kernel.proc p).state ≠ .unused ∧
    ((s'.kernel.proc p).stype = (s.kernel.proc p).stype →
      (s'.kernel.proc p).quan = (s.kernel.proc p).quan)
  place : ∀ q, (s'.kernel.proc q).place = none ∨
    ((s'.kernel.proc q).place = (s.kernel.proc q).place ∧ a ≠ .fork q) ∨
    ((s'.kernel.proc q).place = some (.hqlev, 0) ∧ (a = .fork q ∨ (s.kernel.proc q).place = none))
  boosted : s'.kernel.mlfq.boosted = s.kernel.mlfq.boosted
  mlfqCharged : s'.mlfqCharged = s.mlfqCharged

theorem cpuShare_aside {share : Word} (hrun : s.kernel.running = some p)
    (hstate : (s.kernel.proc p).state ≠ .unused) :
    Aside s (.setCpuShare share) { s with kernel := s.kernel.cpuShare p share } := by
  obtain ⟨hself, hother, -, hst⟩ := cpuShare_spec share
  refine ⟨⟨nofun, nofun⟩, rfl, fun r hr => ?_, fun q => ?_, cpuShare_boosted .., rfl⟩
  · obtain rfl : p = r := Option.some.inj (hrun.symm.trans hr)
    refine ⟨?_, fun h => hstate (hst.symm.trans h), fun htype => ?_⟩
    · show ((s.kernel.cpuShare p share).proc p).ticks = _
      obtain ⟨_, _, _, _, heq⟩ := setCpuShare_proc s.kernel.mlfq (s.kernel.proc p) share
      rw [hself, heq]
    · show ((s.kernel.cpuShare p share).proc p).quan = _
      rcases cpuShare_place share with heq | ⟨hstride, hplace⟩ | hstride
      · rw [heq]
      · obtain ⟨hmlfq, -⟩ := Proc.place_eq_some.mp hplace
        cases hstride.symm.trans (htype.symm.trans hmlfq)
      · unfold Proc.quan
        rw [if_pos hstride, if_pos (htype.symm.trans hstride)]
  · show ((s.kernel.cpuShare p share).proc q).place = none ∨
      (((s.kernel.cpuShare p share).proc q).place = _ ∧ _) ∨
      (((s.kernel.cpuShare p share).proc q).place = _ ∧ _)
    by_cases hq : q = p
    · subst hq
      rcases cpuShare_place share with heq | ⟨hstride, hplace⟩ | hstride
      · rw [heq]
        exact .inr (.inl ⟨rfl, nofun⟩)
      · refine .inr (.inr ⟨hplace, .inr ?_⟩)
        unfold Proc.place
        rw [hstride]
        rfl
      · left
        unfold Proc.place
        rw [hstride]
        rfl
    · rw [hother q hq]
      exact .inr (.inl ⟨rfl, nofun⟩)

theorem fork_aside {np : ProcPtr} (hnp : (s.kernel.proc np).state = .unused)
    (hstate : ∀ p, s.kernel.running = some p → (s.kernel.proc p).state ≠ .unused) :
    Aside s (.fork np) (s.fork np) := by
  have hother : ∀ q, q ≠ np → (s.fork np).kernel.proc q = s.kernel.proc q := fun q hq => if_neg hq
  refine ⟨⟨nofun, nofun⟩, rfl, fun p hp => ?_, fun q => ?_, rfl, rfl⟩
  · have hne : p ≠ np := fun h => hstate p hp (h ▸ hnp)
    rw [hother p hne]
    exact ⟨rfl, hstate p hp, fun _ => rfl⟩
  · by_cases hq : q = np
    · subst hq
      refine .inr (.inr ⟨?_, .inl rfl⟩)
      have hself : (s.fork q).kernel.proc q = _ := if_pos rfl
      rw [hself]
      rfl
    · rw [hother q hq]
      refine .inr (.inl ⟨rfl, fun h => hq ?_⟩)
      cases h
      rfl

theorem reap_aside {r : ProcPtr} (hrun : s.kernel.running = some p) (hr : r ≠ p)
    (hstate : (s.kernel.proc p).state ≠ .unused) :
    Aside s (.reap r) { s with kernel := s.kernel.reap r } := by
  refine ⟨⟨nofun, nofun⟩, reap_running _, fun u hu => ?_, fun q => ?_, ?_, rfl⟩
  · obtain rfl : p = u := Option.some.inj (hrun.symm.trans hu)
    have hsame := (reap_proc s.kernel r p).1 (Ne.symm hr)
    show ((s.kernel.reap r).proc p).ticks = _ ∧ ((s.kernel.reap r).proc p).state ≠ _ ∧
      (_ → ((s.kernel.reap r).proc p).quan = _)
    rw [hsame]
    exact ⟨rfl, hstate, fun _ => rfl⟩
  · show ((s.kernel.reap r).proc q).place = none ∨
      (((s.kernel.reap r).proc q).place = _ ∧ _) ∨ (((s.kernel.reap r).proc q).place = _ ∧ _)
    by_cases hq : q = r
    · subst hq
      left
      unfold Proc.place
      rw [(reap_proc s.kernel q q).2.1]
      rfl
    · rw [(reap_proc s.kernel r q).1 hq]
      exact .inr (.inl ⟨rfl, nofun⟩)
  · show (s.kernel.reap r).mlfq.boosted = _
    rw [reap_mlfq]

theorem wakeup_aside (hstate : ∀ p, s.kernel.running = some p → (s.kernel.proc p).state ≠ .unused) :
    Aside s (.wakeup q) (s.wakeup q) := by
  refine ⟨⟨nofun, nofun⟩, rfl, fun p hp => ?_, fun r => .inr (.inl ⟨?_, nofun⟩), rfl, rfl⟩
  · have hproc : (s.wakeup q).kernel.proc p =
        if p = q then { s.kernel.proc q with state := .runnable } else s.kernel.proc p := rfl
    rw [hproc]
    split
    · rename_i hpq
      subst hpq
      exact ⟨rfl, nofun, fun _ => rfl⟩
    · exact ⟨rfl, hstate p hp, fun _ => rfl⟩
  · have hproc : (s.wakeup q).kernel.proc r =
        if r = q then { s.kernel.proc q with state := .runnable } else s.kernel.proc r := rfl
    rw [hproc]
    split
    · rename_i hrq
      rw [hrq]
      exact Proc.place_congr rfl fun _ => ⟨rfl, rfl⟩
    · rfl

/-- A step that is enabled, by what it does to places. -/
theorem step_places (hstate : ∀ p, s.kernel.running = some p → (s.kernel.proc p).state ≠ .unused)
    (h : s.step a = some s') :
    a = .pick ∧ Looked s s' ∧ (∀ p, s'.kernel.running = some p →
      (s'.kernel.proc p).ticks = 0 ∧ (s'.kernel.proc p).state ≠ .unused) ∨
    (∃ p st, a = .sched st ∧ s.kernel.running = some p ∧ (Left s s' p st ∨ Ran s s' p)) ∨
    Aside s a s' := by
  obtain ⟨rfl, -, ⟨p, hp⟩ | hi⟩ | ⟨p, st, rfl, hrun, -, hsched⟩ | ⟨p, share, rfl, hrun, rfl⟩ |
    ⟨p, np, rfl, -, hnp, rfl⟩ | ⟨p, q, rfl, hrun, hq, -, rfl⟩ | ⟨q, rfl, -, rfl⟩ := step_cases h
  · refine .inl ⟨rfl, hp.toLooked, fun r hr => ?_⟩
    obtain rfl : p = r := Option.some.inj (hp.running.symm.trans hr)
    rw [hp.ticks, hp.state, if_pos rfl]
    exact ⟨rfl, nofun⟩
  · refine .inl ⟨rfl, hi.toLooked, fun r hr => ?_⟩
    cases hi.running.symm.trans hr
  · exact .inr (.inl ⟨p, st, rfl, hrun, hsched.imp_left And.right⟩)
  · exact .inr (.inr (cpuShare_aside hrun (hstate p hrun)))
  · exact .inr (.inr (fork_aside hnp hstate))
  · exact .inr (.inr (reap_aside hrun hq (hstate p hrun)))
  · exact .inr (.inr (wakeup_aside hstate))

/-! ## Counting -/

end Loop

/-- What has happened. -/
structure SliceLog where
  /-- the calls of `sched()` in this slice, or in the last one -/
  points : Nat := 0
  /-- the quantum of the process when it was picked -/
  quan : Nat := 0
  /-- the process has stayed in its class since -/
  stays : Bool := true
  /-- the ticks that a process has used in the queue it is in -/
  used : ProcPtr → Nat := fun _ => 0
  /-- the ticks charged to MLFQ since the last boost -/
  charged : Nat := 0
  /-- the ticks charged to MLFQ since a process has come down from the highest queue -/
  below : ProcPtr → Nat := fun _ => 0

/-- A process in a lower queue. -/
def Proc.Below (q : Proc) : Prop := q.stype = .mlfq ∧ q.qlev ≠ .hqlev

instance (q : Proc) : Decidable q.Below := inferInstanceAs (Decidable (_ ∧ _))

namespace Loop

/-- `boost()` finds that it is time. -/
def Boosts (s : Loop) (a : LoopAct) : Prop := a = .pick ∧ ¬ s.kernel.mlfq.boosted < 200#32

instance (s : Loop) (a : LoopAct) : Decidable (s.Boosts a) := inferInstanceAs (Decidable (_ ∧ _))

/-- The running process calls `sched()`. -/
def CallsSched (s : Loop) (a : LoopAct) (p : ProcPtr) : Prop :=
  s.kernel.running = some p ∧ match a with
    | .sched _ => True
    | _ => False

instance (s : Loop) (a : LoopAct) (p : ProcPtr) : Decidable (s.CallsSched a p) :=
  match a with
  | .sched _ => inferInstanceAs (Decidable (_ ∧ True))
  | .pick | .setCpuShare _ | .fork _ | .reap _ | .wakeup _ =>
    inferInstanceAs (Decidable (_ ∧ False))

end Loop

/-- A step is entered in the history. -/
def SliceLog.record (s : Loop) (a : LoopAct) (s' : Loop) (h : SliceLog) : SliceLog where
  points := match a with
    | .pick => if s'.kernel.running.isSome then 0 else h.points
    | .sched _ => h.points + 1
    | _ => h.points
  quan := match a with
    | .pick => (s'.kernel.running.map fun p => (s'.kernel.proc p).quan.toNat).getD h.quan
    | _ => h.quan
  stays := match a with
    | .pick => s'.kernel.running.isSome || h.stays
    | _ => h.stays && s.kernel.running.all fun p =>
        decide ((s'.kernel.proc p).stype = (s.kernel.proc p).stype)
  used p :=
    if a = .fork p ∨ (s'.kernel.proc p).queue ≠ (s.kernel.proc p).queue then 0
    else if s.CallsSched a p then h.used p + 1
    else h.used p
  charged := if s.Boosts a then 0 else h.charged + (s'.mlfqCharged - s.mlfqCharged)
  below p :=
    if (s.kernel.proc p).Below ∧ (s'.kernel.proc p).Below then
      h.below p + (s'.mlfqCharged - s.mlfqCharged)
    else 0

/-! ## The counts and the fields -/

namespace Loop

open Kernel

variable {s s' : Loop} {h : SliceLog} {a : LoopAct} {p q : ProcPtr} {l : Level} {w allot : Word}

/-- The counts agree with the fields, and both are within bounds. -/
structure Tally (s : Loop) (h : SliceLog) : Prop where
  runs : ∀ p, s.kernel.running = some p → (s.kernel.proc p).ticks.toNat = h.points ∧
    h.points < 20 ∧ (s.kernel.proc p).state ≠ .unused
  inside : ∀ p, s.kernel.running = some p → h.stays →
    h.quan = (s.kernel.proc p).quan.toNat ∧ h.points < h.quan
  most : h.points ≤ 20
  quantum : h.stays → h.points ≤ h.quan
  used : ∀ p l w allot, (s.kernel.proc p).place = some (l, w) → mlfqAllot l = some allot →
    h.used p = w.toNat
  rest : ∀ p l w allot, s.kernel.running ≠ some p → (s.kernel.proc p).place = some (l, w) →
    mlfqAllot l = some allot → w.toNat < allot.toNat
  /-- the running process came with a rest and has got its points on top -/
  busy : ∀ p l w allot, s.kernel.running = some p → (s.kernel.proc p).place = some (l, w) →
    mlfqAllot l = some allot → w.toNat < allot.toNat + h.points
  /-- a process that comes back to MLFQ starts anew -/
  moved : ∀ p l w, s.kernel.running = some p → h.stays = false →
    (s.kernel.proc p).place = some (l, w) → l = .hqlev ∧ w.toNat ≤ h.points
  boosted : s.kernel.panic = none → s.kernel.mlfq.boosted.toNat = h.charged
  charged : h.charged ≤ 219
  soon : ∀ p, s.kernel.running = some p → h.charged < 200
  below : ∀ p, h.below p ≤ h.charged

theorem allot_bounds (h : mlfqAllot l = some allot) : 20 ≤ allot.toNat ∧ allot.toNat ≤ 40 := by
  cases l <;> cases h <;> decide

theorem next_ne (h : mlfqAllot l = some allot) : l.next ≠ l := by
  cases l <;> first | decide | cases h

theorem quan_pos (q : Proc) : 0 < q.quan.toNat := by
  unfold Proc.quan
  split
  · decide
  · cases q.qlev <;> decide

theorem toNat_tick (hw : w.toNat < 100) : (w + 1).toNat = w.toNat + 1 := by
  rw [BitVec.toNat_add]
  exact Nat.mod_eq_of_lt (by show w.toNat + 1 < 2 ^ 32; omega)

theorem queue_congr (h : (s'.kernel.proc q).place = (s.kernel.proc q).place) :
    (s'.kernel.proc q).queue = (s.kernel.proc q).queue := congrArg (Option.map Prod.fst) h

theorem charged_record (hno : ¬ s.Boosts a) :
    (h.record s a s').charged = h.charged + (s'.mlfqCharged - s.mlfqCharged) := if_neg hno

/-- Without a boost the ticks below stay within those charged. -/
theorem below_record (hb : ∀ p, h.below p ≤ h.charged) (hno : ¬ s.Boosts a) (p : ProcPtr) :
    (h.record s a s').below p ≤ (h.record s a s').charged := by
  rw [charged_record hno]
  show (if (s.kernel.proc p).Below ∧ (s'.kernel.proc p).Below then
    h.below p + (s'.mlfqCharged - s.mlfqCharged) else 0) ≤ _
  have := hb p
  split
  · omega
  · omega

/-- A process that keeps its place and does not call `sched()` keeps its ticks. -/
theorem used_same (hplace : (s'.kernel.proc q).place = (s.kernel.proc q).place)
    (hfork : a ≠ .fork q) (hcall : ¬ s.CallsSched a q) : (h.record s a s').used q = h.used q := by
  show (if _ then _ else if _ then _ else _) = _
  rw [if_neg, if_neg hcall]
  rintro (hf | hq)
  · exact hfork hf
  · exact hq (queue_congr hplace)

theorem Tally.looked (ht : Tally s h) (hb : Looked s s') (hpanic : s.kernel.panic = none)
    (hpicked : ∀ p, s'.kernel.running = some p →
      (s'.kernel.proc p).ticks = 0 ∧ (s'.kernel.proc p).state ≠ .unused) :
    Tally s' (h.record s .pick s') := by
  have hboosted := ht.boosted hpanic
  have hcall : ∀ q, ¬ s.CallsSched .pick q := fun q hc => hc.2
  -- a place is kept, or it is a new one in the highest queue
  have hplace : ∀ q l w, (s'.kernel.proc q).place = some (l, w) →
      (s'.kernel.proc q).place = (s.kernel.proc q).place ∨
      w = 0 ∧ (s'.kernel.proc q).queue ≠ (s.kernel.proc q).queue := by
    intro q l w hq
    rw [hb.place q] at hq
    by_cases hlt : s.kernel.mlfq.boosted < 200#32
    · rw [hb.place q, if_pos hlt]
      exact .inl rfl
    · rw [if_neg hlt] at hq
      obtain ⟨x, hx, hxe⟩ := Option.map_eq_some_iff.mp hq
      have hnew : (s'.kernel.proc q).place = some (l, w) := by
        rw [hb.place q, if_neg hlt, hx, Option.map_some, hxe]
      by_cases htop : x.1 = .hqlev
      · rw [boostPlace, if_pos htop] at hxe
        rw [hnew, hx, hxe]
        exact .inl rfl
      · rw [boostPlace, if_neg htop] at hxe
        obtain ⟨rfl, rfl⟩ := Prod.mk.inj hxe
        refine .inr ⟨rfl, fun heq => htop ?_⟩
        unfold Proc.queue at heq
        rw [hnew, hx] at heq
        exact (Option.some.inj heq).symm
  have hslot : ∀ q l w allot, (s'.kernel.proc q).place = some (l, w) → mlfqAllot l = some allot →
      (h.record s .pick s').used q = w.toNat ∧ w.toNat < allot.toNat := by
    intro q l w allot hq hallot
    rcases hplace q l w hq with hsame | ⟨rfl, hne⟩
    · have hused : (h.record s .pick s').used q = h.used q :=
        used_same hsame LoopAct.noConfusion (hcall q)
      rw [hused]
      rw [hsame] at hq
      have hidle : s.kernel.running ≠ some q := by simp [hb.idle]
      exact ⟨ht.used q l w allot hq hallot, ht.rest q l w allot hidle hq hallot⟩
    · have := (allot_bounds hallot).1
      exact ⟨if_pos (.inr hne), by show 0 < _; omega⟩
  have hcharged : s'.kernel.mlfq.boosted.toNat = (h.record s .pick s').charged ∧
      (h.record s .pick s').charged < 200 := by
    show _ = (if _ then 0 else h.charged + (s'.mlfqCharged - s.mlfqCharged)) ∧
      (if _ then 0 else h.charged + (s'.mlfqCharged - s.mlfqCharged)) < 200
    rw [hb.boosted, hb.given.2, Nat.sub_self, Nat.add_zero]
    by_cases hlt : s.kernel.mlfq.boosted < 200#32
    · rw [if_pos hlt, if_neg (fun hbo => hbo.2 hlt)]
      have : s.kernel.mlfq.boosted.toNat < 200 := hlt
      exact ⟨hboosted, by omega⟩
    · rw [if_neg hlt, if_pos ⟨rfl, hlt⟩]
      exact ⟨rfl, by decide⟩
  have hbelow : ∀ p, (h.record s .pick s').below p ≤ (h.record s .pick s').charged := by
    intro p
    by_cases hbo : s.Boosts .pick
    · have hzero : (h.record s .pick s').below p = 0 := by
        show (if _ then _ else 0) = 0
        rw [if_neg]
        rintro ⟨-, htype, hne⟩
        have hnew := hb.place p
        rw [if_neg hbo.2] at hnew
        unfold Proc.place at hnew
        rw [if_pos htype] at hnew
        obtain ⟨x, -, hx⟩ := Option.map_eq_some_iff.mp hnew.symm
        unfold boostPlace at hx
        split at hx
        · rename_i htop
          rw [hx] at htop
          exact hne htop
        · exact hne (Prod.mk.inj hx).1.symm
      omega
    · exact below_record ht.below hbo p
  cases hrun : s'.kernel.running with
  | none =>
    have hpoints : (h.record s .pick s').points = h.points := if_neg (by rw [hrun]; decide)
    have hquan : (h.record s .pick s').quan = h.quan := by
      show (s'.kernel.running.map _).getD h.quan = _
      rw [hrun]
      rfl
    have hstays : (h.record s .pick s').stays = h.stays := by
      show (s'.kernel.running.isSome || h.stays) = _
      rw [hrun]
      rfl
    refine ⟨fun p hp => ?_, fun p hp => ?_, ?_, ?_, fun p l w A hq hA => (hslot p l w A hq hA).1,
      fun p l w A _ hq hA => (hslot p l w A hq hA).2, fun p l w A hp => ?_, fun p l w hp => ?_,
      fun _ => hcharged.1, by omega, fun p hp => ?_, hbelow⟩
    all_goals first | (rw [hrun] at hp; cases hp) | skip
    · rw [hpoints]
      exact ht.most
    · rw [hpoints, hquan, hstays]
      exact ht.quantum
  | some r =>
    have hpoints : (h.record s .pick s').points = 0 := if_pos (by rw [hrun]; rfl)
    have hquan : (h.record s .pick s').quan = (s'.kernel.proc r).quan.toNat := by
      show (s'.kernel.running.map fun p => (s'.kernel.proc p).quan.toNat).getD h.quan = _
      rw [hrun]
      rfl
    have hstays : (h.record s .pick s').stays = true := by
      show (s'.kernel.running.isSome || h.stays) = _
      rw [hrun]
      rfl
    refine ⟨fun p hp => ?_, fun p hp _ => ?_, ?_, fun _ => ?_,
      fun p l w A hq hA => (hslot p l w A hq hA).1,
      fun p l w A _ hq hA => (hslot p l w A hq hA).2, fun p l w A _ hq hA => ?_,
      fun p l w _ hno => ?_, fun _ => hcharged.1, by omega, fun p _ => hcharged.2, hbelow⟩
    · obtain ⟨hticks, hst⟩ := hpicked p hp
      rw [hticks, hpoints]
      exact ⟨rfl, by decide, hst⟩
    · obtain rfl : r = p := Option.some.inj (hrun.symm.trans hp)
      rw [hpoints, hquan]
      exact ⟨rfl, quan_pos _⟩
    · rw [hpoints]
      exact Nat.zero_le _
    · rw [hpoints]
      exact Nat.zero_le _
    · rw [hpoints]
      exact (hslot p l w A hq hA).2
    · rw [hstays] at hno
      cases hno

section Sched

variable {st : ProcState} (hrun : s.kernel.running = some p)

include hrun

theorem stays_sched (htype : (s'.kernel.proc p).stype = (s.kernel.proc p).stype) :
    (h.record s (.sched st) s').stays = h.stays := by
  show (h.stays && s.kernel.running.all _) = _
  rw [hrun, Option.all_some, decide_eq_true htype, Bool.and_true]

/-- Nobody but the caller of `sched()` gets a tick. -/
theorem used_other (hq : q ≠ p) (hplace : (s'.kernel.proc q).place = (s.kernel.proc q).place) :
    (h.record s (.sched st) s').used q = h.used q := by
  refine used_same hplace nofun ?_
  rintro ⟨hr, -⟩
  exact hq (Option.some.inj (hr.symm.trans hrun))

/-- A tick in the queue it was in. -/
theorem used_tick (hqueue : (s'.kernel.proc p).queue = (s.kernel.proc p).queue) :
    (h.record s (.sched st) s').used p = h.used p + 1 := by
  show (if _ then _ else if _ then _ else _) = _
  rw [if_neg, if_pos ⟨hrun, trivial⟩]
  rintro (hf | hq)
  · cases hf
  · exact hq hqueue

theorem Tally.left (ht : Tally s h) (hp : Left s s' p st) (hpanic : s.kernel.panic = none) :
    Tally s' (h.record s (.sched st) s') := by
  have hno : ¬ s.Boosts (.sched st) := fun hbo => nomatch hbo.1
  obtain ⟨hticks, hlt, -⟩ := ht.runs p hrun
  have hsoon := ht.soon p hrun
  have hidle : ∀ r, s'.kernel.running ≠ some r := by
    intro r hr
    rw [hp.running] at hr
    cases hr
  have htick : ((s.kernel.proc p).ticks + 1).toNat = h.points + 1 := by
    rw [toNat_tick (by omega), hticks]
  have hstays : (h.record s (.sched st) s').stays = h.stays := stays_sched hrun (hp.stype p)
  have hslot : ∀ q l w allot, (s'.kernel.proc q).place = some (l, w) → mlfqAllot l = some allot →
      (h.record s (.sched st) s').used q = w.toNat ∧ w.toNat < allot.toNat := by
    intro q l w allot hq hallot
    by_cases hqp : q = p
    · subst hqp
      have hnew := hp.place q
      rw [if_pos rfl, hq] at hnew
      obtain ⟨⟨l₀, w₀⟩, hold, hx⟩ := Option.map_eq_some_iff.mp hnew.symm
      unfold demotePlace tickPlace at hx
      dsimp only at hx
      split at hx
      · rename_i allot₀ hallot₀
        have hw := ht.busy q l₀ w₀ allot₀ hrun hold hallot₀
        have hused := ht.used q l₀ w₀ allot₀ hold hallot₀
        have := allot_bounds hallot₀
        have hsucc : (w₀ + 1).toNat = w₀.toNat + 1 := toNat_tick (by omega)
        split at hx
        · -- one queue down, with nothing used there
          obtain ⟨rfl, rfl⟩ := Prod.mk.inj hx
          have hne : (s'.kernel.proc q).queue ≠ (s.kernel.proc q).queue := by
            unfold Proc.queue
            rw [hq, hold]
            intro heq
            exact next_ne hallot₀ (Option.some.inj heq)
          have hpos := (allot_bounds hallot).1
          exact ⟨if_pos (.inr hne), by show 0 < _; omega⟩
        · rename_i hle
          obtain ⟨rfl, rfl⟩ := Prod.mk.inj hx
          have hsame : (s'.kernel.proc q).queue = (s.kernel.proc q).queue := by
            unfold Proc.queue
            rw [hq, hold]
            rfl
          rw [used_tick hrun hsame, hused, hsucc]
          obtain rfl : allot₀ = allot := Option.some.inj (hallot₀.symm.trans hallot)
          have hgt : (w₀ + 1).toNat < allot₀.toNat := BitVec.not_le.mp hle
          exact ⟨rfl, by omega⟩
      · rename_i hnone
        obtain ⟨rfl, rfl⟩ := Prod.mk.inj hx
        rw [hnone] at hallot
        cases hallot
    · have hsame := hp.place q
      rw [if_neg hqp] at hsame
      have hother : s.kernel.running ≠ some q :=
        fun hr => hqp (Option.some.inj (hr.symm.trans hrun))
      rw [used_other hrun hqp hsame]
      rw [hsame] at hq
      exact ⟨ht.used q l w allot hq hallot, ht.rest q l w allot hother hq hallot⟩
  have hcharged : (h.record s (.sched st) s').charged =
      if (s.kernel.proc p).stype = .stride then h.charged else h.charged + (h.points + 1) := by
    rw [charged_record hno, hp.mlfqCharged, htick]
    split
    · omega
    · omega
  refine ⟨fun r hr => absurd hr (hidle r), fun r hr => absurd hr (hidle r), ?_, ?_,
    fun q l w A hq hA => (hslot q l w A hq hA).1, fun q l w A _ hq hA => (hslot q l w A hq hA).2,
    fun r l w A hr => absurd hr (hidle r), fun r l w hr => absurd hr (hidle r), fun hpanic' => ?_,
    ?_, fun r hr => absurd hr (hidle r), below_record ht.below hno⟩
  · show h.points + 1 ≤ 20
    omega
  · rw [hstays]
    intro hst
    exact (ht.inside p hrun hst).2
  · rw [hp.boosted hpanic', hcharged]
    have hb := ht.boosted hpanic
    split
    · exact hb
    · rw [BitVec.toNat_add, hb, htick]
      exact Nat.mod_eq_of_lt (by show _ < 2 ^ 32; omega)
  · rw [hcharged]
    split
    · omega
    · omega

theorem Tally.ran (ht : Tally s h)
    (hp : Ran s s' p) (hpanic : s.kernel.panic = none) : Tally s' (h.record s (.sched st) s') := by
  have hno : ¬ s.Boosts (.sched st) := fun hbo => nomatch hbo.1
  obtain ⟨hticks, hlt, -⟩ := ht.runs p hrun
  have hsoon := ht.soon p hrun
  have hruns := hp.running.trans hrun
  have hrun' : ∀ {r}, s'.kernel.running = some r → r = p := fun hr =>
    Option.some.inj (hr.symm.trans hruns)
  have htick : ((s.kernel.proc p).ticks + 1).toNat = h.points + 1 := by
    rw [toNat_tick (by omega), hticks]
  have hinside : h.points + 1 < (s.kernel.proc p).quan.toNat := htick ▸ hp.quan
  have hquan := quan_le (s.kernel.proc p)
  have hstays : (h.record s (.sched st) s').stays = h.stays := stays_sched hrun (hp.stype p)
  have hcharged : (h.record s (.sched st) s').charged = h.charged := by
    rw [charged_record hno, hp.given.2]
    omega
  -- the place of the running process
  have hself : ∀ l w, (s'.kernel.proc p).place = some (l, w) →
      ∃ w₀, (s.kernel.proc p).place = some (l, w₀) ∧ w = w₀ + 1 := by
    intro l w hq
    have hnew := hp.place p
    rw [if_pos rfl, hq] at hnew
    obtain ⟨⟨l₀, w₀⟩, hold, hx⟩ := Option.map_eq_some_iff.mp hnew.symm
    obtain ⟨rfl, rfl⟩ := Prod.mk.inj hx
    exact ⟨w₀, hold, rfl⟩
  have hother : ∀ q, q ≠ p → (s'.kernel.proc q).place = (s.kernel.proc q).place := by
    intro q hq
    rw [hp.place, if_neg hq]
  refine ⟨fun r hr => ?_, fun r hr hst => ?_, ?_, ?_, fun q l w A hq hA => ?_,
    fun q l w A hnr hq hA => ?_, fun r l w A hr hq hA => ?_, fun r l w hr hst hq => ?_, fun _ => ?_,
    ?_, fun _ _ => ?_, below_record ht.below hno⟩
  · obtain rfl := hrun' hr
    rw [hp.ticks, htick, hp.state, if_pos rfl]
    exact ⟨rfl, by show h.points + 1 < 20; omega, nofun⟩
  · obtain rfl := hrun' hr
    rw [hstays] at hst
    obtain ⟨hq, -⟩ := ht.inside r hrun hst
    rw [hp.quantum]
    exact ⟨hq, hq ▸ hinside⟩
  · show h.points + 1 ≤ 20
    omega
  · rw [hstays]
    intro hst
    obtain ⟨hq, hpt⟩ := ht.inside p hrun hst
    exact hpt
  · by_cases hqp : q = p
    · subst hqp
      obtain ⟨w₀, hold, rfl⟩ := hself l w hq
      have hqueue : (s'.kernel.proc q).queue = (s.kernel.proc q).queue := by
        unfold Proc.queue
        rw [hq, hold]
        rfl
      have hw := ht.busy q l w₀ A hrun hold hA
      have := allot_bounds hA
      rw [used_tick hrun hqueue, ht.used q l w₀ A hold hA, toNat_tick (by omega)]
    · rw [used_other hrun hqp (hother q hqp)]
      rw [hother q hqp] at hq
      exact ht.used q l w A hq hA
  · have hqp : q ≠ p := fun h0 => hnr (h0 ▸ hruns)
    rw [hother q hqp] at hq
    exact ht.rest q l w A (fun hr => hqp (Option.some.inj (hr.symm.trans hrun))) hq hA
  · obtain rfl := hrun' hr
    obtain ⟨w₀, hold, rfl⟩ := hself l w hq
    have hw := ht.busy r l w₀ A hrun hold hA
    have := allot_bounds hA
    rw [toNat_tick (by omega)]
    show _ < A.toNat + (h.points + 1)
    omega
  · obtain rfl := hrun' hr
    obtain ⟨w₀, hold, rfl⟩ := hself l w hq
    rw [hstays] at hst
    obtain ⟨htop, hw⟩ := ht.moved r l w₀ hrun hst hold
    refine ⟨htop, ?_⟩
    rw [toNat_tick (by omega)]
    show _ ≤ h.points + 1
    omega
  · rw [hp.boosted, hcharged]
    exact ht.boosted hpanic
  · rw [hcharged]
    exact ht.charged
  · rw [hcharged]
    exact hsoon

end Sched

theorem Tally.aside (ht : Tally s h) (hp : Aside s a s') (hpanic : s.kernel.panic = none) :
    Tally s' (h.record s a s') := by
  have hno : ¬ s.Boosts a := fun hbo => hp.other.1 hbo.1
  have hcall : ∀ q, ¬ s.CallsSched a q := by
    rintro q ⟨-, hc⟩
    split at hc
    · rename_i st
      exact hp.other.2 st rfl
    · exact hc
  have hpoints : (h.record s a s').points = h.points := by
    cases a with
    | pick => exact absurd rfl hp.other.1
    | sched st => exact absurd rfl (hp.other.2 st)
    | setCpuShare | fork | reap | wakeup => rfl
  have hquan : (h.record s a s').quan = h.quan := by
    cases a with
    | pick => exact absurd rfl hp.other.1
    | sched | setCpuShare | fork | reap | wakeup => rfl
  have hstays : ∀ {r}, s.kernel.running = some r → (h.record s a s').stays =
      (h.stays && decide ((s'.kernel.proc r).stype = (s.kernel.proc r).stype)) := by
    intro r hr
    have heq : (h.record s a s').stays = (h.stays && s.kernel.running.all fun p =>
        decide ((s'.kernel.proc p).stype = (s.kernel.proc p).stype)) := by
      cases a with
      | pick => exact absurd rfl hp.other.1
      | sched | setCpuShare | fork | reap | wakeup => rfl
    rw [heq, hr]
    rfl
  have hstays' : (h.record s a s').stays → h.stays := by
    intro hst
    cases a with
    | pick => exact absurd rfl hp.other.1
    | sched | setCpuShare | fork | reap | wakeup => exact (Bool.and_eq_true_iff.mp hst).1
  have hcharged : (h.record s a s').charged = h.charged := by
    rw [charged_record hno, hp.mlfqCharged]
    omega
  have hnew : ∀ q l w, (s'.kernel.proc q).place = some (l, w) →
      ((s.kernel.proc q).place = some (l, w) ∧ (h.record s a s').used q = h.used q) ∨
      l = .hqlev ∧ w = 0 ∧ (h.record s a s').used q = 0 := by
    intro q l w hq
    rcases hp.place q with hnone | ⟨hsame, hfork⟩ | ⟨htop, hwhy⟩
    · rw [hnone] at hq
      cases hq
    · exact .inl ⟨hsame.symm.trans hq, used_same hsame hfork (hcall q)⟩
    · obtain ⟨rfl, rfl⟩ := Prod.mk.inj (Option.some.inj (htop.symm.trans hq))
      refine .inr ⟨rfl, rfl, if_pos ?_⟩
      rcases hwhy with hfork | hnone
      · exact .inl hfork
      · right
        unfold Proc.queue
        rw [htop, hnone]
        exact nofun
  refine ⟨fun r hr => ?_, fun r hr hst => ?_, ?_, ?_, fun q l w A hq hA => ?_,
    fun q l w A hnr hq hA => ?_, fun r l w A hr hq hA => ?_, fun r l w hr hst hq => ?_, fun _ => ?_,
    ?_, fun r hr => ?_, below_record ht.below hno⟩
  · rw [hp.running] at hr
    obtain ⟨hticks, hstate, -⟩ := hp.runs r hr
    rw [hticks, hpoints]
    exact ⟨(ht.runs r hr).1, (ht.runs r hr).2.1, hstate⟩
  · rw [hp.running] at hr
    rw [hstays hr, Bool.and_eq_true_iff] at hst
    rw [hpoints, hquan, (hp.runs r hr).2.2 (of_decide_eq_true hst.2)]
    exact ht.inside r hr hst.1
  · rw [hpoints]
    exact ht.most
  · intro hst
    rw [hpoints, hquan]
    exact ht.quantum (hstays' hst)
  · rcases hnew q l w hq with ⟨hold, hused⟩ | ⟨-, rfl, hused⟩
    · rw [hused]
      exact ht.used q l w A hold hA
    · rw [hused]
      rfl
  · rw [hp.running] at hnr
    rcases hnew q l w hq with ⟨hold, -⟩ | ⟨-, rfl, -⟩
    · exact ht.rest q l w A hnr hold hA
    · have := (allot_bounds hA).1
      show 0 < _
      omega
  · rw [hp.running] at hr
    rw [hpoints]
    rcases hnew r l w hq with ⟨hold, -⟩ | ⟨-, rfl, -⟩
    · exact ht.busy r l w A hr hold hA
    · have := (allot_bounds hA).1
      show 0 < _
      omega
  · rw [hp.running] at hr
    rw [hpoints]
    rcases hnew r l w hq with ⟨hold, -⟩ | ⟨htop, rfl, -⟩
    · -- a process that keeps its place in a queue keeps its class
      have hclass : (s'.kernel.proc r).stype = (s.kernel.proc r).stype :=
        (Proc.place_eq_some.mp hq).1.trans (Proc.place_eq_some.mp hold).1.symm
      rw [hstays hr, decide_eq_true hclass, Bool.and_true] at hst
      exact ht.moved r l w hr hst hold
    · exact ⟨htop, Nat.zero_le _⟩
  · rw [hp.boosted, hcharged]
    exact ht.boosted hpanic
  · rw [hcharged]
    exact ht.charged
  · rw [hp.running] at hr
    rw [hcharged]
    exact ht.soon r hr

theorem Tally.step (ht : Tally s h) (hs : s.step a = some s') : Tally s' (h.record s a s') := by
  have hpanic := step_panic hs
  obtain ⟨rfl, hb, hpicked⟩ | ⟨p, st, rfl, hrun, hl | hr⟩ | haside :=
    step_places (fun p hp => (ht.runs p hp).2.2) hs
  · exact ht.looked hb hpanic hpicked
  · exact ht.left hrun hl hpanic
  · exact ht.ran hrun hr hpanic
  · exact ht.aside haside hpanic

/-! ## The promises of MLFQ -/

/-- The loop with its history. -/
def logged : Loop × SliceLog → LoopAct → Option (Loop × SliceLog) := recorded step SliceLog.record

/-- What holds in every state: while a slice goes on, it is inside its bounds. -/
structure Accounted (s : Loop) (h : SliceLog) : Prop where
  most : h.points ≤ 20 ∧ ∀ p, s.kernel.running = some p → h.points < 20
  quantum : h.stays →
    h.points ≤ h.quan ∧ ∀ p, s.kernel.running = some p → h.points < h.quan
  decision : s.kernel.running = none → ∀ p l allot, (s.kernel.proc p).queue = some l →
    mlfqAllot l = some allot → (s.kernel.proc p).pass < allot ∧ h.used p < allot.toNat
  charged : h.charged ≤ 219
  below : ∀ p, h.below p ≤ 219

/-- What holds of every step: when a process goes down a queue, and what a boost does. -/
structure Regular (s : Loop) (h : SliceLog) (a : LoopAct) (s' : Loop) : Prop where
  demoted : ∀ p l, (s.kernel.proc p).queue = some l → (s'.kernel.proc p).queue = some l.next →
    l.next ≠ l → ∃ allot, mlfqAllot l = some allot ∧ allot.toNat ≤ h.used p + 1 ∧
      h.used p + 1 ≤ allot.toNat + (mlfqQuan l).toNat - 1
  boosted : a = .pick → s'.kernel.mlfq.boosted < 200#32
  top : s.Boosts a → ∀ p l, (s'.kernel.proc p).queue = some l → l = .hqlev

theorem queue_eq_some : (s.kernel.proc p).queue = some l ↔
    (s.kernel.proc p).place = some (l, (s.kernel.proc p).pass) := by
  unfold Proc.queue Proc.place
  split
  · simp
  · simp

theorem Tally.accounted (ht : Tally s h) : Accounted s h := by
  refine ⟨⟨ht.most, fun p hp => (ht.runs p hp).2.1⟩,
    fun hst => ⟨ht.quantum hst, fun p hp => (ht.inside p hp hst).2⟩, fun hidle p l A hq hA => ?_,
    ht.charged, fun p => (ht.below p).trans ht.charged⟩
  have hplace := queue_eq_some.mp hq
  have hrest := ht.rest p l _ A (by rw [hidle]; exact nofun) hplace hA
  rw [ht.used p l _ A hplace hA]
  exact ⟨hrest, hrest⟩

/-- A queue is left downwards at the end of a slice only, with the allotment used. -/
theorem Tally.demoted (ht : Tally s h) (hs : s.step a = some s')
    (hq : (s.kernel.proc p).queue = some l) (hq' : (s'.kernel.proc p).queue = some l.next)
    (hne : l.next ≠ l) : ∃ allot, mlfqAllot l = some allot ∧ allot.toNat ≤ h.used p + 1 ∧
      h.used p + 1 ≤ allot.toNat + (mlfqQuan l).toNat - 1 := by
  have hold := queue_eq_some.mp hq
  have hnew := queue_eq_some.mp hq'
  have hsame : (s'.kernel.proc p).place ≠ (s.kernel.proc p).place := by
    intro heq
    rw [hold, hnew] at heq
    exact hne (Prod.mk.inj (Option.some.inj heq)).1
  have hnext : l.next ≠ .hqlev := by cases l <;> decide
  obtain ⟨rfl, hb, -⟩ | ⟨r, st, rfl, hrun, hl | hgo⟩ | haside :=
    step_places (fun p hp => (ht.runs p hp).2.2) hs
  · have hplace := hb.place p
    split at hplace
    · exact absurd hplace hsame
    · rw [hold, hnew, Option.map_some, boostPlace] at hplace
      have heq := Option.some.inj hplace
      split at heq
      · exact absurd (Prod.mk.inj heq).1 hne
      · exact absurd (Prod.mk.inj heq).1 hnext
  · have hplace := hl.place p
    by_cases hpr : p = r
    · subst hpr
      rw [if_pos rfl, hold, hnew, Option.map_some, demotePlace, tickPlace] at hplace
      have heq := Option.some.inj hplace
      dsimp only at heq
      split at heq
      · rename_i allot hallot
        refine ⟨allot, hallot, ?_⟩
        split at heq
        · rename_i hle
          have hw := ht.busy p l _ allot hrun hold hallot
          have hA := allot_bounds hallot
          obtain ⟨-, hlt, -⟩ := ht.runs p hrun
          have hused := ht.used p l _ allot hold hallot
          have hsucc : ((s.kernel.proc p).pass + 1).toNat = (s.kernel.proc p).pass.toNat + 1 :=
            toNat_tick (by omega)
          have hle' : allot.toNat ≤ ((s.kernel.proc p).pass + 1).toNat := hle
          refine ⟨by omega, ?_⟩
          cases hst : h.stays with
          | true =>
            obtain ⟨hquan, hpt⟩ := ht.inside p hrun hst
            have hmlfq := (Proc.place_eq_some.mp hold).1
            have hlev : l = (s.kernel.proc p).qlev :=
              (Prod.mk.inj (Proc.place_eq_some.mp hold).2).1
            have hq : (s.kernel.proc p).quan = mlfqQuan l := by
              unfold Proc.quan
              rw [hmlfq, hlev]
              rfl
            rw [hq] at hquan
            omega
          | false =>
            -- back in MLFQ in this slice: at most twenty ticks, all of them in the highest queue
            obtain ⟨rfl, hpass⟩ := ht.moved p l _ hrun hst hold
            have hquan : (mlfqQuan .hqlev).toNat = 5 := rfl
            omega
        · exact absurd (Prod.mk.inj heq).1 hne
      · exact absurd (Prod.mk.inj heq).1 hne
    · rw [if_neg hpr] at hplace
      exact absurd hplace hsame
  · have hplace := hgo.place p
    by_cases hpr : p = r
    · subst hpr
      rw [if_pos rfl, hold, hnew, Option.map_some, tickPlace] at hplace
      exact absurd (Prod.mk.inj (Option.some.inj hplace)).1 hne
    · rw [if_neg hpr] at hplace
      exact absurd hplace hsame
  · rcases haside.place p with hnone | ⟨heq, -⟩ | ⟨htop, -⟩
    · rw [hnone] at hnew
      cases hnew
    · exact absurd heq hsame
    · rw [htop] at hnew
      exact absurd (Prod.mk.inj (Option.some.inj hnew)).1.symm hnext

theorem Tally.regular (ht : Tally s h) (hs : s.step a = some s') : Regular s h a s' := by
  refine ⟨fun p l hq hq' hne => ht.demoted hs hq hq' hne, fun ha => ?_, fun hbo p l hq => ?_⟩
  all_goals
    obtain ⟨rfl, hb, -⟩ | ⟨r, st, rfl, -, -⟩ | haside :=
      step_places (fun p hp => (ht.runs p hp).2.2) hs
  · rw [hb.boosted]
    split
    · assumption
    · decide
  · cases ha
  · exact absurd ha haside.other.1
  · have hplace := hb.place p
    rw [if_neg hbo.2, queue_eq_some.mp hq] at hplace
    obtain ⟨x, -, hx⟩ := Option.map_eq_some_iff.mp hplace.symm
    unfold boostPlace at hx
    split at hx
    · rename_i htop
      rw [hx] at htop
      exact htop
    · exact (Prod.mk.inj hx).1.symm
  · cases hbo.1
  · exact absurd hbo.1 haside.other.1

theorem tally_boot : Tally boot {} := by
  have hidle : boot.kernel.running = none := rfl
  have hplace : ∀ p l w, (boot.kernel.proc p).place = some (l, w) → w = 0 := by
    intro p l w hp
    obtain ⟨-, heq⟩ := Proc.place_eq_some.mp hp
    obtain ⟨-, rfl⟩ := Prod.mk.inj heq
    show (if p = 0 then _ else ({} : Proc)).pass = 0
    split <;> rfl
  refine ⟨fun p hp => ?_, fun p hp => ?_, by decide, fun _ => by decide, fun p l w A hp _ => ?_,
    fun p l w A _ hp hA => ?_, fun p l w A hr => ?_, fun p l w hr => ?_, fun _ => rfl, by decide,
    fun p hp => ?_, fun _ => le_rfl⟩
  · cases hidle.symm.trans hp
  · cases hidle.symm.trans hp
  · rw [hplace p l w hp]
    rfl
  · rw [hplace p l w hp]
    have := (allot_bounds hA).1
    show 0 < _
    omega
  · cases hidle.symm.trans hr
  · cases hidle.symm.trans hr
  · cases hidle.symm.trans hp

/-- In every run of the loop on one CPU: a slice has at most 20 points, and no more than the
quantum of its process if that stays in its class; a process goes down a queue when it has used its
allotment and before it has used a quantum more; and 219 ticks at most lie between two boosts, each
of which brings everybody back up. -/
theorem mlfq_accounting {x : Loop × SliceLog}
    (h : Reaches logged (fun _ _ => True) (boot, {}) x) :
    Accounted x.1 x.2 ∧ ∀ a y, logged x a = some y → Regular x.1 x.2 a y.1 := by
  have ht : Tally x.1 x.2 := by
    refine h.invariant (motive := fun x => Tally x.1 x.2) tally_boot fun y a z hy _ hs => ?_
    obtain ⟨hstep, hlog⟩ := recorded_eq_some.mp hs
    rw [hlog]
    exact hy.step hstep
  exact ⟨ht.accounted, fun a y hs => ht.regular (recorded_eq_some.mp hs).1⟩

/-- Four slices of five ticks: the first process goes down a queue at the end of the last one. -/
theorem mlfq_accounting_first : ∃ x, Reaches logged (fun _ _ => True) (boot, {}) x ∧
    (x.2.used 0 = 19 ∧ (x.1.kernel.proc 0).queue = some .hqlev ∧
      ((logged x (.sched .runnable)).any fun y => (y.1.kernel.proc 0).queue = some .mqlev)) ∧
    Accounted x.1 x.2 ∧ ∀ a y, logged x a = some y → Regular x.1 x.2 a y.1 := by
  have hreach : ∃ x, Reaches logged (fun _ _ => True) (boot, {}) x ∧
      (x.2.used 0 = 19 ∧ (x.1.kernel.proc 0).queue = some .hqlev ∧
      ((logged x (.sched .runnable)).any fun y => (y.1.kernel.proc 0).queue = some .mqlev)) :=
    exists_reaches ((List.replicate 3 (.pick :: List.replicate 5 (.sched .runnable))).flatten ++
      .pick :: List.replicate 4 (.sched .runnable)) _ (by decide +kernel)
  obtain ⟨x, hx, hrun⟩ := hreach
  exact ⟨x, hx, hrun, mlfq_accounting hx⟩

end Loop

end Xv6
