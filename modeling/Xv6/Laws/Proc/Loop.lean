import Xv6.Proc.Loop
import Xv6.Laws.Proc.CoreSlots

/-!
# The clients of the scheduler loop

What each step of the loop does to the clients: which of them there are, their shares and their
pass values. `reduce` moves all pass values together (`reduce_cases`), `getschedproc` picks a
ready client of least pass (`schedChoice_least`), the end of a slice adds to one pass value
(`charge_client`), and everything else but `set_cpu_share` and `wait` leaves the clients alone.
Beside it stands what each step does to the place of a process in the queues of MLFQ.
-/

namespace Xv6

open Xv6.Lib

/-- What a process is as a client: nothing, or its share and its pass. -/
def Proc.stake (q : Proc) : Option (Word × Word) :=
  if q.stype = .stride then some (q.share, q.pass) else none

theorem Proc.stake_some {q : Proc} (h : q.stype = .stride) : q.stake = some (q.share, q.pass) :=
  if_pos h

theorem Proc.stake_none {q : Proc} (h : q.stype ≠ .stride) : q.stake = none := if_neg h

theorem Proc.stake_eq_none {q : Proc} : q.stake = none ↔ q.stype ≠ .stride := by
  unfold Proc.stake
  split
  · rename_i h
    simp [h]
  · rename_i h
    simp [h]

/-- A stake is kept by whoever leaves the class and, for a stride process, share and pass. -/
theorem Proc.stake_congr {q r : Proc} (htype : r.stype = q.stype)
    (hkeep : q.stype = .stride → r.share = q.share ∧ r.pass = q.pass) : r.stake = q.stake := by
  unfold Proc.stake
  rw [htype]
  split
  · rename_i h
    rw [(hkeep h).1, (hkeep h).2]
  · rfl

/-- The queue of a process and the ticks that count there; a stride process has none. -/
def Proc.place (q : Proc) : Option (Level × Word) :=
  if q.stype = .mlfq then some (q.qlev, q.pass) else none

/-- What `boost` does to a place. -/
def boostPlace (x : Level × Word) : Level × Word := if x.1 = .hqlev then x else (.hqlev, 0)

/-- What the end of a slice does to a place. -/
def demotePlace (x : Level × Word) : Level × Word :=
  match mlfqAllot x.1 with
  | some allot => if allot ≤ x.2 then (x.1.next, 0) else x
  | none => x

/-- One more tick in the queue. -/
def tickPlace (x : Level × Word) : Level × Word := (x.1, x.2 + 1)

theorem Proc.place_congr {q r : Proc} (htype : r.stype = q.stype)
    (hkeep : q.stype = .mlfq → r.qlev = q.qlev ∧ r.pass = q.pass) : r.place = q.place := by
  unfold Proc.place
  rw [htype]
  split
  · rename_i h
    rw [(hkeep h).1, (hkeep h).2]
  · rfl

theorem Proc.place_eq_some {q : Proc} {x : Level × Word} :
    q.place = some x ↔ q.stype = .mlfq ∧ x = (q.qlev, q.pass) := by
  unfold Proc.place
  rw [Option.ite_none_right_eq_some, Option.some.injEq]
  exact and_congr_right fun _ => eq_comm

namespace Kernel

variable {s s' s₁ : Kernel} {p q : ProcPtr} {c d : Option ProcPtr} {st : ProcState}

/-! ## Steps that leave the clients alone -/

/-- The clients, their shares and their pass values are the same. -/
structure SameClients (s s' : Kernel) : Prop where
  stake : ∀ p, (s'.proc p).stake = (s.proc p).stake
  share : s'.mlfq.share = s.mlfq.share
  pass : s'.mlfq.pass = s.mlfq.pass

theorem SameClients.refl (s : Kernel) : SameClients s s := ⟨fun _ => rfl, rfl, rfl⟩

theorem SameClients.isClient (h : SameClients s s') : s'.IsClient c ↔ s.IsClient c := by
  cases c with
  | none => exact Iff.rfl
  | some p =>
    have hp := h.stake p
    show (s'.proc p).stype = .stride ↔ (s.proc p).stype = .stride
    rw [← not_iff_not]
    exact (Proc.stake_eq_none.symm.trans (by rw [hp])).trans Proc.stake_eq_none

theorem SameClients.client (h : SameClients s s') (hc : s.IsClient c) :
    s'.clientShare c = s.clientShare c ∧ s'.clientPass c = s.clientPass c := by
  cases c with
  | none => exact ⟨h.share, h.pass⟩
  | some p =>
    have hp := h.stake p
    have hc' : s'.IsClient (some p) := h.isClient.mpr hc
    rw [Proc.stake_some hc', Proc.stake_some hc, Option.some.injEq, Prod.mk.injEq] at hp
    exact hp

/-- The clients and their shares are the same. -/
structure SameShares (s s' : Kernel) : Prop where
  isClient : ∀ c, s'.IsClient c ↔ s.IsClient c
  share : ∀ c, s.IsClient c → s'.clientShare c = s.clientShare c

theorem SameClients.shares (h : SameClients s s') : SameShares s s' :=
  ⟨fun _ => h.isClient, fun _ hc => (h.client hc).1⟩

theorem SameShares.trans (h : SameShares s s₁) (h' : SameShares s₁ s') : SameShares s s' where
  isClient c := (h'.isClient c).trans (h.isClient c)
  share c hc := (h'.share c ((h.isClient c).mpr hc)).trans (h.share c hc)

theorem SameClients.clientOf (h : SameClients s s') (p : ProcPtr) :
    s'.clientOf p = s.clientOf p := by
  have hp : (s'.proc p).stype = .stride ↔ (s.proc p).stype = .stride := h.isClient (c := some p)
  unfold Kernel.clientOf
  by_cases hs : (s.proc p).stype = .stride
  · rw [if_pos hs, if_pos (hp.mpr hs)]
  · rw [if_neg hs, if_neg (fun h' => hs (hp.mp h'))]

theorem isClient_clientOf (s : Kernel) (p : ProcPtr) : s.IsClient (s.clientOf p) := by
  unfold clientOf
  split
  · assumption
  · trivial

/-- A write to one process that keeps its stake. -/
theorem same_setProc {f : Proc → Proc} (hf : (f (s.proc p)).stake = (s.proc p).stake) :
    SameClients s (s.setProc p f) :=
  ⟨setProc_keeps Proc.stake hf, rfl, rfl⟩

theorem same_boost : SameClients s s.boost := by
  unfold boost
  split
  · exact .refl s
  · refine ⟨fun q => ?_, rfl, rfl⟩
    dsimp only
    split
    · rename_i hq
      refine Proc.stake_congr rfl fun h => ?_
      rw [hq.1] at h
      cases h
    · rfl

theorem reduce_boost_keeps : (s.reduce.boost.proc q).state = (s.proc q).state ∧
      (s.reduce.boost.proc q).stype = (s.proc q).stype := by
  obtain ⟨_, _, _, _, heq⟩ := reduce_boost_eq s
  rw [heq]
  exact ⟨rfl, rfl⟩

theorem same_demote : SameClients s (s.demote p) := by
  unfold demote
  split
  · split
    · rename_i hp
      apply same_setProc
      refine Proc.stake_congr rfl fun h => ?_
      rw [hp.1] at h
      cases h
    · exact .refl s
  · exact .refl s

/-! ## reduce -/

/-- `reduce` finds a client below `MAXPASS` and does nothing, or all clients have reached it and
go down together. -/
theorem reduce_cases : (s.reduce = s ∧ ∃ c, s.IsClient c ∧ s.clientPass c < MAXPASS) ∨
    ((∀ c, s.IsClient c → MAXPASS ≤ s.clientPass c ∧
      s.reduce.clientPass c = s.clientPass c - MAXPASS)) := by
  unfold reduce
  split
  · rename_i hm
    exact .inl ⟨rfl, none, trivial, hm⟩
  · rename_i hm
    split
    · rename_i hany
      obtain ⟨p, -, hp⟩ := List.any_eq_true.mp hany
      simp only [decide_eq_true_eq] at hp
      exact .inl ⟨rfl, some p, hp.1, hp.2⟩
    · rename_i hany
      refine .inr fun c hc => ?_
      cases c with
      | none => exact ⟨BitVec.not_lt.mp hm, rfl⟩
      | some p =>
        have ht : (s.proc p).stype = .stride := hc
        have hle : ¬ (s.proc p).pass < MAXPASS := by
          intro hlt
          refine hany (List.any_eq_true.mpr ⟨p, List.mem_finRange p, ?_⟩)
          exact decide_eq_true ⟨ht, hlt⟩
        refine ⟨BitVec.not_lt.mp hle, ?_⟩
        show (if (s.proc p).stype = .stride then _ else s.proc p).pass = (s.proc p).pass - MAXPASS
        rw [if_pos ht]

theorem reduce_keeps :
    (s.reduce.proc q).state = (s.proc q).state ∧ (s.reduce.proc q).stype = (s.proc q).stype ∧
      (s.reduce.proc q).share = (s.proc q).share := by
  unfold reduce
  split
  · exact ⟨rfl, rfl, rfl⟩
  · split
    · exact ⟨rfl, rfl, rfl⟩
    · dsimp only
      split <;> exact ⟨rfl, rfl, rfl⟩

theorem reduce_mlfq_share : s.reduce.mlfq.share = s.mlfq.share := by
  unfold reduce
  split
  · rfl
  · split <;> rfl

theorem reduce_isClient : s.reduce.IsClient c ↔ s.IsClient c := by
  cases c with
  | none => exact Iff.rfl
  | some p =>
    show (s.reduce.proc p).stype = .stride ↔ _
    rw [(reduce_keeps).2.1]
    rfl

theorem reduce_clientShare : s.reduce.clientShare c = s.clientShare c := by
  cases c with
  | none => exact reduce_mlfq_share
  | some p => exact (reduce_keeps).2.2

theorem reduce_clientOf : s.reduce.clientOf p = s.clientOf p := by
  unfold clientOf
  rw [(reduce_keeps).2.1]

/-- `reduce` keeps the differences between the pass values. -/
theorem reduce_difference (hc : s.IsClient c) (hd : s.IsClient d) :
    ((s.reduce.clientPass c).toNat : Int) - (s.reduce.clientPass d).toNat =
      (s.clientPass c).toNat - (s.clientPass d).toNat := by
  rcases reduce_cases with ⟨h, -⟩ | h
  · rw [h]
  · obtain ⟨hle, hpass⟩ := h c hc
    obtain ⟨hle', hpass'⟩ := h d hd
    rw [hpass, hpass', BitVec.toNat_sub_of_le hle, BitVec.toNat_sub_of_le hle']
    rw [BitVec.le_def] at hle hle'
    omega

/-! ## The choice -/

/-- The loop of `getstrideproc` has seen `l`. -/
def StrideLeast (s : Kernel) (l : List ProcPtr) (r : Option ProcPtr) : Prop :=
  (∀ p, r = some p → (s.proc p).stype = .stride ∧ (s.proc p).state = .runnable) ∧
  ∀ q ∈ l, (s.proc q).stype = .stride → (s.proc q).state = .runnable →
    ∃ p, r = some p ∧ (s.proc p).pass ≤ (s.proc q).pass

theorem getstrideproc_least (s : Kernel) : StrideLeast s (List.finRange NPROC) s.getstrideproc := by
  unfold getstrideproc
  refine foldl_seen (motive := StrideLeast s) ?_ (List.finRange NPROC) [] none ?_
  · intro seen r a h
    have hmem : ∀ q ∈ seen ++ [a], q ∈ seen ∨ q = a := by
      intro q hq
      rw [List.mem_append, List.mem_singleton] at hq
      exact hq
    by_cases ha : (s.proc a).stype = .stride ∧ (s.proc a).state = .runnable
    · rw [if_pos ha]
      cases r with
      | none =>
        refine ⟨?_, fun q hq h1 h2 => ?_⟩
        · rintro p ⟨⟩
          exact ha
        · rcases hmem q hq with hq | rfl
          · obtain ⟨p, hp, -⟩ := h.2 q hq h1 h2
            cases hp
          · exact ⟨q, rfl, BitVec.le_refl _⟩
      | some b =>
        show StrideLeast s _ (if (s.proc a).pass < (s.proc b).pass then some a else some b)
        split
        · rename_i hlt
          refine ⟨?_, fun q hq h1 h2 => ?_⟩
          · rintro p ⟨⟩
            exact ha
          · rcases hmem q hq with hq | rfl
            · obtain ⟨p, hp, hle⟩ := h.2 q hq h1 h2
              cases hp
              exact ⟨a, rfl, BitVec.le_trans (BitVec.le_of_lt hlt) hle⟩
            · exact ⟨q, rfl, BitVec.le_refl _⟩
        · rename_i hlt
          refine ⟨h.1, fun q hq h1 h2 => ?_⟩
          rcases hmem q hq with hq | rfl
          · exact h.2 q hq h1 h2
          · exact ⟨b, rfl, BitVec.not_lt.mp hlt⟩
    · rw [if_neg ha]
      refine ⟨h.1, fun q hq h1 h2 => ?_⟩
      rcases hmem q hq with hq | rfl
      · exact h.2 q hq h1 h2
      · exact absurd ⟨h1, h2⟩ ha
  · refine ⟨fun p hp => ?_, fun q hq => ?_⟩
    · cases hp
    · cases hq

theorem getmlfqproc_isSome : s.getmlfqproc.isSome ↔ s.Ready none := by
  unfold getmlfqproc
  rw [find?_scanFrom_isSome]
  simp only [decide_eq_true_eq]
  rfl

theorem getmlfqproc_spec (h : s.getmlfqproc = some p) :
    (s.proc p).stype = .mlfq ∧ (s.proc p).state = .runnable := by
  have hp := List.find?_some h
  simpa only [decide_eq_true_eq] using hp

/-- The client of the process picked is ready, and no ready client has a smaller pass. -/
theorem schedChoice_least (h : s.schedChoice = some p) :
    s.Ready (s.clientOf p) ∧
      ∀ c, s.IsClient c → s.Ready c → s.clientPass (s.clientOf p) ≤ s.clientPass c := by
  have hstride := getstrideproc_least s
  have hother : ∀ q, s.Ready (some q) → s.IsClient (some q) →
      ∃ r, s.getstrideproc = some r ∧ (s.proc r).pass ≤ (s.proc q).pass :=
    fun q h1 h2 => hstride.2 q (List.mem_finRange q) h2 h1
  have hof : ∀ r, (s.proc r).stype = .stride → s.clientOf r = some r := fun r hr => if_pos hr
  have hof' : ∀ r, (s.proc r).stype = .mlfq → s.clientOf r = none := by
    intro r hr
    unfold clientOf
    rw [hr]
    rfl
  -- the stride candidate is the least of its class
  have hcand : ∀ r, s.getstrideproc = some r → s.Ready (s.clientOf r) ∧
      ∀ q, s.IsClient (some q) → s.Ready (some q) →
        s.clientPass (s.clientOf r) ≤ s.clientPass (some q) := by
    intro r hr
    obtain ⟨ht, hrun⟩ := hstride.1 r hr
    rw [hof r ht]
    refine ⟨hrun, fun q hc hready => ?_⟩
    obtain ⟨r', hr', hle⟩ := hother q hready hc
    rw [hr] at hr'
    cases hr'
    exact hle
  unfold schedChoice at h
  cases h1 : s.getstrideproc with
  | none =>
    have hnone : ∀ q, s.IsClient (some q) → ¬ s.Ready (some q) := by
      intro q hc hready
      obtain ⟨r, hr, -⟩ := hother q hready hc
      rw [h1] at hr
      cases hr
    cases h2 : s.getmlfqproc with
    | none =>
      rw [h1, h2] at h
      cases h
    | some p2 =>
      rw [h1, h2] at h
      cases h
      have hp2 := getmlfqproc_spec h2
      rw [hof' p hp2.1]
      refine ⟨⟨p, hp2⟩, fun c hc hready => ?_⟩
      cases c with
      | none => exact BitVec.le_refl _
      | some q => exact absurd hready (hnone q hc)
  | some p1 =>
    obtain ⟨hready1, hleast⟩ := hcand p1 h1
    cases h2 : s.getmlfqproc with
    | none =>
      rw [h1, h2] at h
      cases h
      refine ⟨hready1, fun c hc hready => ?_⟩
      cases c with
      | none =>
        have := (getmlfqproc_isSome).mpr hready
        rw [h2] at this
        cases this
      | some q => exact hleast q hc hready
    | some p2 =>
      rw [h1, h2] at h
      have hp2 := getmlfqproc_spec h2
      have hp1 := hof p1 (hstride.1 p1 h1).1
      by_cases hlt : (s.proc p1).pass < s.mlfq.pass
      · simp only [if_pos hlt, Option.some.injEq] at h
        subst h
        refine ⟨hready1, fun c hc hready => ?_⟩
        cases c with
        | none =>
          rw [hp1]
          exact BitVec.le_of_lt hlt
        | some q => exact hleast q hc hready
      · simp only [if_neg hlt, Option.some.injEq] at h
        subst h
        rw [hof' p2 hp2.1]
        refine ⟨⟨p2, hp2⟩, fun c hc hready => ?_⟩
        cases c with
        | none => exact BitVec.le_refl _
        | some q =>
          have hle := hleast q hc hready
          rw [hp1] at hle
          exact BitVec.le_trans (BitVec.not_lt.mp hlt) hle

theorem getschedproc_fst (s : Kernel) : s.getschedproc.1 = s.schedChoice := by
  unfold getschedproc
  split
  · split
    · rename_i h
      exact h.symm
    · rfl
  · rfl

/-- Some client is ready exactly when a process is picked. -/
theorem schedChoice_none (h : s.schedChoice = none) (hc : s.IsClient c) : ¬ s.Ready c := by
  intro hready
  unfold schedChoice at h
  split at h
  · split at h <;> cases h
  · cases h
  · cases h
  · rename_i h1 h2
    cases c with
    | none =>
      have := (getmlfqproc_isSome).mpr hready
      rw [h2] at this
      cases this
    | some q =>
      obtain ⟨r, hr, -⟩ := (getstrideproc_least s).2 q (List.mem_finRange q) hc hready
      rw [h1] at hr
      cases hr

/-! ## charge -/

/-- What the end of a slice of `p` adds to a pass value. -/
def fee (s : Kernel) (p : ProcPtr) : Word :=
  TICKETS * (s.proc p).ticks / s.clientShare (s.clientOf p)

/-- The end of a slice adds the fee to the client of the process, or divides by zero. -/
theorem charge_client :
    ((s.charge p).IsClient c ↔ s.IsClient c) ∧ (s.charge p).clientShare c = s.clientShare c ∧
    (s.IsClient c → (s.charge p).clientPass c = s.clientPass c ∨
      c = s.clientOf p ∧ (s.charge p).clientPass c = s.clientPass c + s.fee p) := by
  unfold charge fee clientOf
  by_cases hp : (s.proc p).stype = .stride
  · rw [if_pos hp, if_pos hp]
    split
    · exact ⟨Iff.rfl, rfl, fun _ => .inl rfl⟩
    · cases c with
      | none => exact ⟨Iff.rfl, rfl, fun _ => .inl rfl⟩
      | some q =>
        simp only [IsClient, clientShare, clientPass, setProc_proc]
        by_cases hq : q = p
        · subst hq
          rw [if_pos rfl]
          exact ⟨Iff.rfl, rfl, fun _ => .inr ⟨rfl, rfl⟩⟩
        · rw [if_neg hq]
          exact ⟨Iff.rfl, rfl, fun _ => .inl rfl⟩
  · rw [if_neg hp, if_neg hp]
    split
    · exact ⟨Iff.rfl, rfl, fun _ => .inl rfl⟩
    · cases c with
      | none => exact ⟨Iff.rfl, rfl, fun _ => .inr ⟨rfl, rfl⟩⟩
      | some q => exact ⟨Iff.rfl, rfl, fun _ => .inl rfl⟩

/-- With a share, the end of a slice does not fault, and the fee is paid. -/
theorem charge_pays (hshare : s.clientShare (s.clientOf p) ≠ 0) : (s.charge p).panic = s.panic ∧
      (s.charge p).clientPass (s.clientOf p) = s.clientPass (s.clientOf p) + s.fee p := by
  unfold charge fee clientOf at *
  by_cases hp : (s.proc p).stype = .stride
  · rw [if_pos hp] at hshare ⊢
    have hne : ¬ (s.proc p).share = 0 := hshare
    rw [if_neg hne, if_pos hp]
    refine ⟨rfl, ?_⟩
    show (if p = p then _ else s.proc p).pass = _
    rw [if_pos rfl]
    rfl
  · rw [if_neg hp] at hshare ⊢
    have hne : ¬ s.mlfq.share = 0 := hshare
    rw [if_neg hne, if_neg hp]
    exact ⟨rfl, rfl⟩

theorem demote_panic : (s.demote p).panic = s.panic := by
  unfold demote
  split
  · split <;> rfl
  · rfl

theorem charge_keeps : ((s.charge p).proc q).state = (s.proc q).state ∧
      ((s.charge p).proc q).stype = (s.proc q).stype := by
  unfold charge
  split
  · split
    · exact ⟨rfl, rfl⟩
    · exact ⟨setProc_keeps Proc.state rfl q, setProc_keeps Proc.stype rfl q⟩
  · split <;> exact ⟨rfl, rfl⟩

theorem demote_keeps : ((s.demote p).proc q).state = (s.proc q).state ∧
      ((s.demote p).proc q).stype = (s.proc q).stype := by
  unfold demote
  split
  · split
    · exact ⟨setProc_keeps Proc.state rfl q, setProc_keeps Proc.stype rfl q⟩
    · exact ⟨rfl, rfl⟩
  · exact ⟨rfl, rfl⟩

/-! ## set_cpu_share -/

/-- `set_cpu_share` changes nothing, takes a process out of stride scheduling, or puts it in with
the pass of MLFQ. -/
theorem setCpuShare_cases (m : Mlfq) (q : Proc) (share : Word) :
    (Xv6.setCpuShare m q share).2 = (m, q) ∨
    (q.stype = .stride ∧ (Xv6.setCpuShare m q share).2.2.stype = .mlfq) ∨
    ((Xv6.setCpuShare m q share).2.2.stype = .stride ∧
      (Xv6.setCpuShare m q share).2.2.pass = m.pass ∧
      (Xv6.setCpuShare m q share).2.2.share ≠ 0) := by
  unfold setCpuShare
  split
  · split
    · rename_i hq
      exact .inr (.inl ⟨hq, rfl⟩)
    · exact .inl rfl
  · rename_i hpos
    have hne : share ≠ 0 := by
      rintro rfl
      exact hpos (by decide)
    extract_lets new
    split
    · exact .inl rfl
    · exact .inr (.inr ⟨rfl, rfl, hne⟩)

/-- The process that calls `set_cpu_share`, the others and MLFQ. -/
theorem cpuShare_spec (share : Word) :
    (s.cpuShare p share).proc p = (Xv6.setCpuShare s.mlfq (s.proc p) share).2.2 ∧
    (∀ q, q ≠ p → (s.cpuShare p share).proc q = s.proc q) ∧
    (s.cpuShare p share).mlfq = (Xv6.setCpuShare s.mlfq (s.proc p) share).2.1 ∧
    ((s.cpuShare p share).proc p).state = (s.proc p).state := by
  have hself : (s.cpuShare p share).proc p = (setCpuShare s.mlfq (s.proc p) share).2.2 :=
    if_pos rfl
  obtain ⟨stype, qlev, share', pass, hfields⟩ := setCpuShare_proc s.mlfq (s.proc p) share
  refine ⟨hself, fun q hq => if_neg hq, rfl, ?_⟩
  rw [hself, hfields]

/-! ## What the functions do to a place -/

theorem reduce_place : (s.reduce.proc q).place = (s.proc q).place := by
  unfold reduce
  split
  · rfl
  · split
    · rfl
    · dsimp only
      split
      · rename_i hstride
        refine Proc.place_congr rfl fun h => ?_
        rw [hstride] at h
        cases h
      · rfl

theorem reduce_boosted : s.reduce.mlfq.boosted = s.mlfq.boosted := by
  unfold reduce
  split
  · rfl
  · split <;> rfl

theorem boost_place : (s.boost.proc q).place =
    if s.mlfq.boosted < 200#32 then (s.proc q).place else (s.proc q).place.map boostPlace := by
  unfold boost
  split
  · rfl
  · dsimp only
    unfold Proc.place
    split
    · rename_i h
      rw [if_pos h.1, if_pos h.1, Option.map_some, boostPlace, if_neg h.2]
    · rename_i h
      split
      · rename_i htype
        have htop : (s.proc q).qlev = .hqlev := not_not.mp fun hne => h ⟨htype, hne⟩
        rw [Option.map_some, boostPlace, if_pos htop]
      · rfl

theorem boost_boosted : s.boost.mlfq.boosted =
    if s.mlfq.boosted < 200#32 then s.mlfq.boosted else 0 := by
  unfold boost
  split <;> rfl

theorem charge_place : ((s.charge p).proc q).place = (s.proc q).place := by
  unfold charge
  split
  · rename_i hstride
    split
    · rfl
    · rw [setProc_proc]
      split
      · rename_i hq
        rw [hq]
        refine Proc.place_congr rfl fun h => ?_
        rw [hstride] at h
        cases h
      · rfl
  · split <;> rfl

theorem demote_place : ((s.demote p).proc q).place =
    if q = p then (s.proc p).place.map demotePlace else (s.proc q).place := by
  have hstay : (∀ x, (s.proc p).place = some x → demotePlace x = x) → (s.proc q).place =
      if q = p then (s.proc p).place.map demotePlace else (s.proc q).place := by
    intro h
    split
    · rename_i hq
      rw [hq]
      cases hplace : (s.proc p).place with
      | none => rfl
      | some x => rw [Option.map_some, h x hplace]
    · rfl
  unfold demote
  split
  · rename_i allot hallot
    split
    · rename_i hdown
      rw [setProc_proc]
      split
      · have hplace : (s.proc p).place = some ((s.proc p).qlev, (s.proc p).pass) := if_pos hdown.1
        rw [hplace, Option.map_some, demotePlace, hallot]
        dsimp only
        rw [if_pos hdown.2]
        exact if_pos hdown.1
      · rfl
    · rename_i hup
      apply hstay
      intro x hx
      obtain ⟨htype, rfl⟩ := Proc.place_eq_some.mp hx
      rw [demotePlace, hallot]
      exact if_neg fun hle => hup ⟨htype, hle⟩
  · rename_i hallot
    apply hstay
    intro x hx
    obtain ⟨-, rfl⟩ := Proc.place_eq_some.mp hx
    rw [demotePlace, hallot]

theorem demote_mlfq : (s.demote p).mlfq = s.mlfq := by
  unfold demote
  split
  · split <;> rfl
  · rfl

/-- The end of a slice. -/
theorem leaveCpu_place (c : CpuId) : ((s.leaveCpu c p).proc q).place =
    if q = p then (s.proc p).place.map demotePlace else (s.proc q).place := by
  unfold leaveCpu
  rw [release_proc, demote_place, charge_place, charge_place]
  rfl

/-- The ticks of the slice count for the next boost, unless the charge divides by zero. -/
theorem leaveCpu_boosted (c : CpuId) (h : (s.leaveCpu c p).panic = none) :
    (s.leaveCpu c p).mlfq.boosted = if (s.proc p).stype = .stride then s.mlfq.boosted
      else s.mlfq.boosted + (s.proc p).ticks := by
  unfold leaveCpu at h ⊢
  rw [release_panic, demote_panic] at h
  rw [release_mlfq, demote_mlfq]
  unfold charge at h ⊢
  rw [setCpu_proc] at h ⊢
  split
  · split <;> rfl
  · rename_i hstride
    rw [if_neg hstride] at h
    split
    · rename_i hzero
      rw [if_pos hzero] at h
      exact absurd h halt_panic_ne
    · rfl

end Kernel

namespace Loop

open Kernel

variable {s s' : Loop} {p q : ProcPtr} {st : ProcState} {a : LoopAct}

/-! ## The steps -/

/-- The loop has looked for a process to run. -/
structure Looked (s s' : Loop) : Prop where
  idle : s.kernel.running = none
  same : SameClients s.kernel.reduce s'.kernel
  place : ∀ q, (s'.kernel.proc q).place = if s.kernel.mlfq.boosted < 200#32 then
    (s.kernel.proc q).place else (s.kernel.proc q).place.map boostPlace
  boosted : s'.kernel.mlfq.boosted =
    if s.kernel.mlfq.boosted < 200#32 then s.kernel.mlfq.boosted else 0
  given : s'.given = s.given ∧ s'.mlfqCharged = s.mlfqCharged
  got : s'.mlfqGiven = s.mlfqGiven

/-- The loop has picked `p`. -/
structure Picked (s s' : Loop) (p : ProcPtr) : Prop extends Looked s s' where
  running : s'.kernel.running = some p
  ticks : (s'.kernel.proc p).ticks = 0
  was : (s.kernel.proc p).state = .runnable
  state : ∀ q, (s'.kernel.proc q).state = if q = p then .running else (s.kernel.proc q).state
  stype : ∀ q, (s'.kernel.proc q).stype = (s.kernel.proc q).stype
  ready : s.kernel.Ready (s.kernel.clientOf p)
  least : ∀ c, s.kernel.IsClient c → s.kernel.Ready c →
    s.kernel.reduce.clientPass (s.kernel.clientOf p) ≤ s.kernel.reduce.clientPass c

/-- The loop has found nothing to run. -/
structure Idled (s s' : Loop) : Prop extends Looked s s' where
  running : s'.kernel.running = none
  state : ∀ q, (s'.kernel.proc q).state = (s.kernel.proc q).state
  nobody : ∀ c, s.kernel.IsClient c → ¬ s.kernel.Ready c

theorem ready_boost_reduce (s : Kernel) (c : Option ProcPtr) :
    s.reduce.boost.Ready c ↔ s.Ready c := by
  cases c with
  | none =>
    show (∃ p, (s.reduce.boost.proc p).stype = _ ∧ (s.reduce.boost.proc p).state = _) ↔ _
    simp only [reduce_boost_keeps]
    rfl
  | some p =>
    show (s.reduce.boost.proc p).state = _ ↔ _
    rw [(reduce_boost_keeps).1]
    rfl

theorem running_boost_reduce (s : Kernel) : s.reduce.boost.running = s.running := by
  obtain ⟨_, _, _, _, heq⟩ := reduce_boost_eq s
  rw [heq]
  rfl

theorem pick_cases (s : Loop) (hidle : s.kernel.running = none) :
    (∃ p, Picked s s.pick p) ∨ Idled s s.pick := by
  obtain ⟨⟨pin, hpin⟩, -⟩ := getschedproc_spec s.kernel.reduce.boost
  have hfst := getschedproc_fst s.kernel.reduce.boost
  have hsame : SameClients s.kernel.reduce s.kernel.reduce.boost := same_boost
  have hstate : ∀ q, (s.kernel.reduce.boost.proc q).state = (s.kernel.proc q).state :=
    fun q => (reduce_boost_keeps).1
  have hplace : ∀ q, (s.kernel.reduce.boost.proc q).place = if s.kernel.mlfq.boosted < 200#32 then
      (s.kernel.proc q).place else (s.kernel.proc q).place.map boostPlace := by
    intro q
    rw [boost_place, reduce_boosted, reduce_place]
  have hboosted : s.kernel.reduce.boost.mlfq.boosted =
      if s.kernel.mlfq.boosted < 200#32 then s.kernel.mlfq.boosted else 0 := by
    rw [boost_boosted, reduce_boosted]
  unfold pick
  split
  · rename_i k heq
    rw [heq] at hpin hfst
    simp only at hpin hfst
    subst hpin
    refine .inr ⟨⟨hidle, ⟨hsame.stake, hsame.share, hsame.pass⟩, hplace, hboosted, ⟨rfl, rfl⟩, rfl⟩,
      ?_, hstate, fun c hc hr => ?_⟩
    · exact (running_boost_reduce s.kernel).trans hidle
    · exact schedChoice_none hfst.symm (hsame.isClient.mpr (reduce_isClient.mpr hc))
        ((ready_boost_reduce _ _).mpr hr)
  · rename_i p k heq
    rw [heq] at hpin hfst
    simp only at hpin hfst
    subst hpin
    obtain ⟨hready, hleast⟩ := schedChoice_least hfst.symm
    rw [hsame.clientOf, reduce_clientOf] at hready hleast
    have hwas : (s.kernel.proc p).state = .runnable := by
      rw [← hstate p]
      exact schedChoice_runnable hfst.symm
    have hkeep {β : Type} (o : Proc → β)
        (ho : ∀ x : Proc, o { x with ticks := 0, state := .running } = o x) (q : ProcPtr) :
        o (if q = p then { s.kernel.reduce.boost.proc p with ticks := 0, state := .running }
          else s.kernel.reduce.boost.proc q) = o (s.kernel.reduce.boost.proc q) := by
      split
      · rename_i hq
        rw [ho, hq]
      · rfl
    refine .inl ⟨p, ⟨hidle, ⟨fun q => ?_, hsame.share, hsame.pass⟩, fun q => ?_, hboosted,
      ⟨rfl, rfl⟩, rfl⟩, rfl, ?_, hwas, fun q => ?_, fun q => ?_, ?_, fun c hc hr => ?_⟩
    · exact (hkeep Proc.stake (fun _ => Proc.stake_congr rfl fun _ => ⟨rfl, rfl⟩) q).trans
        (hsame.stake q)
    · exact (hkeep Proc.place (fun _ => Proc.place_congr rfl fun _ => ⟨rfl, rfl⟩) q).trans (hplace q)
    · show (if p = p then _ else s.kernel.reduce.boost.proc p).ticks = 0
      rw [if_pos rfl]
    · show (if q = p then _ else s.kernel.reduce.boost.proc q).state = _
      split
      · rfl
      · exact hstate q
    · exact (hkeep Proc.stype (fun _ => rfl) q).trans (reduce_boost_keeps).2
    · exact (ready_boost_reduce _ _).mp hready
    · have hle := hleast c (hsame.isClient.mpr (reduce_isClient.mpr hc))
        ((ready_boost_reduce _ _).mpr hr)
      rw [(hsame.client (reduce_isClient.mpr hc)).2,
        (hsame.client (reduce_isClient.mpr (isClient_clientOf _ p))).2] at hle
      exact hle

/-- The slice of `p` is over, after `k` ticks. -/
structure Left (s s' : Loop) (p : ProcPtr) (st : ProcState) : Prop
    extends SameShares s.kernel s'.kernel where
  running : s'.kernel.running = none
  state : ∀ q, (s'.kernel.proc q).state = if q = p then st else (s.kernel.proc q).state
  stype : ∀ q, (s'.kernel.proc q).stype = (s.kernel.proc q).stype
  pass : ∀ c, s.kernel.IsClient c → s'.kernel.clientPass c = s.kernel.clientPass c ∨
    c = s.kernel.clientOf p ∧ s'.kernel.clientPass c = s.kernel.clientPass c +
      TICKETS * ((s.kernel.proc p).ticks + 1) / s.kernel.clientShare c
  paid : s.kernel.clientShare (s.kernel.clientOf p) ≠ 0 → s'.kernel.panic = s.kernel.panic ∧
    s'.kernel.clientPass (s.kernel.clientOf p) = s.kernel.clientPass (s.kernel.clientOf p) +
      TICKETS * ((s.kernel.proc p).ticks + 1) / s.kernel.clientShare (s.kernel.clientOf p)
  given : s'.given = s.given + ((s.kernel.proc p).ticks + 1).toNat
  mlfqCharged : s'.mlfqCharged = if (s.kernel.proc p).stype = .stride then s.mlfqCharged
    else s.mlfqCharged + ((s.kernel.proc p).ticks + 1).toNat
  got : s'.mlfqGiven = if (s.kernel.proc p).stype = .stride then s.mlfqGiven else s.mlfqGiven + 1
  place : ∀ q, (s'.kernel.proc q).place = if q = p then
    (s.kernel.proc p).place.map fun x => demotePlace (tickPlace x) else (s.kernel.proc q).place
  boosted : s'.kernel.panic = none → s'.kernel.mlfq.boosted =
    if (s.kernel.proc p).stype = .stride then s.kernel.mlfq.boosted
    else s.kernel.mlfq.boosted + ((s.kernel.proc p).ticks + 1)

/-- The slice of `p` goes on. -/
structure Ran (s s' : Loop) (p : ProcPtr) : Prop where
  same : SameClients s.kernel s'.kernel
  running : s'.kernel.running = s.kernel.running
  state : ∀ q, (s'.kernel.proc q).state = if q = p then .running else (s.kernel.proc q).state
  stype : ∀ q, (s'.kernel.proc q).stype = (s.kernel.proc q).stype
  ticks : (s'.kernel.proc p).ticks = (s.kernel.proc p).ticks + 1
  quan : (s.kernel.proc p).ticks + 1 < (s.kernel.proc p).quan
  given : s'.given = s.given ∧ s'.mlfqCharged = s.mlfqCharged
  got : s'.mlfqGiven = if (s.kernel.proc p).stype = .stride then s.mlfqGiven else s.mlfqGiven + 1
  place : ∀ q, (s'.kernel.proc q).place =
    if q = p then (s.kernel.proc p).place.map tickPlace else (s.kernel.proc q).place
  quantum : (s'.kernel.proc p).quan = (s.kernel.proc p).quan
  boosted : s'.kernel.mlfq.boosted = s.kernel.mlfq.boosted

theorem tick_proc (s : Loop) (p q : ProcPtr) (st : ProcState) :
    ((s.tick p st).kernel.proc q) = if q = p then
      { s.kernel.proc p with
        ticks := (s.kernel.proc p).ticks + 1
        pass := if (s.kernel.proc p).stype = .mlfq then (s.kernel.proc p).pass + 1
          else (s.kernel.proc p).pass
        state := st } else s.kernel.proc q := rfl

theorem tick_place : ((s.tick p st).kernel.proc q).place =
      if q = p then (s.kernel.proc p).place.map tickPlace else (s.kernel.proc q).place := by
  rw [tick_proc]
  split
  · unfold Proc.place
    dsimp only
    split
    · rfl
    · rfl
  · rfl

theorem tick_same (s : Loop) (p : ProcPtr) (st : ProcState) :
    SameClients s.kernel (s.tick p st).kernel := by
  dsimp only [tick]
  apply same_setProc
  refine Proc.stake_congr rfl fun h => ⟨rfl, ?_⟩
  show (if (s.kernel.proc p).stype = .mlfq then _ else (s.kernel.proc p).pass) = _
  rw [h]
  rfl

theorem sched_left (h : s.Ends p st) : Left s (s.sched p st) p st := by
  unfold sched
  rw [if_pos h]
  have hsame := tick_same s p st
  have hp : (s.tick p st).kernel.proc p = _ := (tick_proc s p p st).trans (if_pos rfl)
  -- the CPU is given up before the charge
  have hk : (s.tick p st).kernel.leaveCpu 0 p =
      ((((s.tick p st).kernel.setCpu 0 fun x => { x with proc := none, thd := none }).charge
        p).demote p).release := rfl
  generalize hg : (s.tick p st).kernel.setCpu 0 (fun x => { x with proc := none, thd := none }) = k
    at hk
  have hkproc : k.proc = (s.tick p st).kernel.proc := by rw [← hg]; rfl
  have hkm : k.mlfq = s.kernel.mlfq := by rw [← hg]; rfl
  have hksame : SameClients s.kernel k := by
    refine ⟨fun q => ?_, by rw [hkm], by rw [hkm]⟩
    rw [hkproc]
    exact hsame.stake q
  have hdem : SameClients (k.charge p) ((k.charge p).demote p) := same_demote
  have hfee : ∀ c, c = k.clientOf p → k.fee p =
      TICKETS * ((s.kernel.proc p).ticks + 1) / k.clientShare c := by
    intro c hc
    unfold fee
    rw [← hc, hkproc, hp]
  have hcharge : SameShares k (k.charge p) := ⟨fun _ => charge_client.1, fun _ _ => charge_client.2.1⟩
  have hshares := (hksame.shares.trans hcharge).trans hdem.shares
  refine ⟨?_, ?_, fun q => ?_, fun q => ?_, fun c hc => ?_, fun hshare => ?_, ?_, ?_, rfl, fun q => ?_,
    fun hpanic => ?_⟩
  · show SameShares _ ((s.tick p st).kernel.leaveCpu 0 p)
    rw [hk]
    exact ⟨hshares.isClient, hshares.share⟩
  · show (((s.tick p st).kernel.leaveCpu 0 p).cpu 0).proc = none
    rw [hk]
    show (((k.charge p).demote p).cpu 0).proc = none
    rw [demote_cpu, charge_cpu, ← hg]
    rfl
  · show (((s.tick p st).kernel.leaveCpu 0 p).proc q).state = _
    rw [hk]
    show (((k.charge p).demote p).proc q).state = _
    rw [(demote_keeps).1, (charge_keeps).1, hkproc, tick_proc]
    split <;> rfl
  · show (((s.tick p st).kernel.leaveCpu 0 p).proc q).stype = _
    rw [hk]
    show (((k.charge p).demote p).proc q).stype = _
    rw [(demote_keeps).2, (charge_keeps).2, hkproc, tick_proc]
    split
    · rename_i hq
      rw [hq]
    · rfl
  · have hpass : ((s.tick p st).leave p).kernel.clientPass c =
        ((k.charge p).demote p).clientPass c := by
      show ((s.tick p st).kernel.leaveCpu 0 p).clientPass c = _
      rw [hk]
      rfl
    have hc' := hksame.isClient.mpr hc
    rw [hpass, (hdem.client ((charge_client).1.mpr hc')).2]
    rcases (charge_client).2.2 hc' with h | ⟨hof, h⟩
    · left
      rw [h, (hksame.client hc).2]
    · right
      refine ⟨hof.trans (hksame.clientOf p), ?_⟩
      rw [h, hfee c hof, (hksame.client hc).2, (hksame.client hc).1]
  · have hof := hksame.clientOf p
    have hown := hksame.client (isClient_clientOf s.kernel p)
    have hpays := charge_pays (by rw [hof, hown.1]; exact hshare)
    constructor
    · show ((s.tick p st).kernel.leaveCpu 0 p).panic = _
      rw [hk]
      show ((k.charge p).demote p).panic = _
      rw [demote_panic, hpays.1, ← hg]
      rfl
    · show ((s.tick p st).kernel.leaveCpu 0 p).clientPass _ = _
      rw [hk]
      show ((k.charge p).demote p).clientPass _ = _
      have hc := (charge_client (s := k) (p := p)).1.mpr (hksame.isClient.mpr (isClient_clientOf s.kernel p))
      rw [(hdem.client hc).2, ← hof, hpays.2, hfee _ rfl, hof, hown.2, hown.1]
  · show s.given + ((s.tick p st).kernel.proc p).ticks.toNat = _
    rw [hp]
  · show (if ((s.tick p st).kernel.proc p).stype = .stride then s.mlfqCharged
      else s.mlfqCharged + ((s.tick p st).kernel.proc p).ticks.toNat) = _
    rw [hp]
  · show (((s.tick p st).kernel.leaveCpu 0 p).proc q).place = _
    rw [leaveCpu_place, tick_place, tick_place, if_pos rfl, Option.map_map]
    split <;> rfl
  · have hb := leaveCpu_boosted 0 hpanic
    rw [hp] at hb
    exact hb

theorem sched_ran (h : ¬ s.Ends p st) : Ran s (s.sched p st) p := by
  unfold sched
  rw [if_neg h]
  refine ⟨tick_same s p .running, rfl, fun q => ?_, fun q => ?_, ?_, (not_not.mp h).2,
    ⟨rfl, rfl⟩, rfl, fun q => tick_place, ?_, rfl⟩
  · rw [tick_proc]
    split <;> rfl
  · rw [tick_proc]
    split
    · rename_i hq
      rw [hq]
    · rfl
  · rw [tick_proc, if_pos rfl]
  · unfold Proc.quan
    rw [tick_proc, if_pos rfl]

theorem same_wakeup : SameClients s.kernel (s.wakeup q).kernel := by
  dsimp only [wakeup]
  apply same_setProc
  exact Proc.stake_congr rfl fun _ => ⟨rfl, rfl⟩

theorem same_fork (np : ProcPtr) (h : (s.kernel.proc np).stype ≠ .stride) :
    SameClients s.kernel (s.fork np).kernel := by
  dsimp only [fork]
  apply same_setProc
  rw [Proc.stake_none h]
  apply Proc.stake_none
  simp

theorem reap_proc (s : Kernel) (q r : ProcPtr) :
    (r ≠ q → (s.reap q).proc r = s.proc r) ∧ ((s.reap q).proc q).stype = .none ∧
      ((s.reap q).proc q).state = .unused := by
  rw [reap_eq]
  refine ⟨fun hr => ?_, ?_, ?_⟩
  · rw [setProc_proc, if_neg hr, freeAll_proc]
  · rw [setProc_proc, if_pos rfl]
    rfl
  · rw [setProc_proc, if_pos rfl]
    rfl

theorem reap_mlfq (s : Kernel) : (s.reap q).mlfq = s.mlfq := by
  rw [reap_eq, setProc_mlfq, freeAll_mlfq]

theorem reap_running (s : Kernel) : (s.reap q).running = s.running := by
  unfold running
  rw [reap_eq, setProc_cpu, freeAll_cpu]

theorem step_panic (h : s.step a = some s') : s.kernel.panic = none := by
  unfold step at h
  split at h
  · cases h
  · exact Option.not_isSome_iff_eq_none.mp ‹_›

/-- One step of the loop, by what it does. -/
theorem step_cases (h : s.step a = some s') :
    (a = .pick ∧ s.kernel.running = none ∧ ((∃ p, Picked s s' p) ∨ Idled s s')) ∨
    (∃ p st, a = .sched st ∧ s.kernel.running = some p ∧ st ≠ .unused ∧
      (s.Ends p st ∧ Left s s' p st ∨ Ran s s' p)) ∨
    (∃ p share, a = .setCpuShare share ∧ s.kernel.running = some p ∧
      s' = { s with kernel := s.kernel.cpuShare p share }) ∨
    (∃ p np, a = .fork np ∧ s.kernel.running = some p ∧ (s.kernel.proc np).state = .unused ∧
      s' = s.fork np) ∨
    (∃ p q, a = .reap q ∧ s.kernel.running = some p ∧ q ≠ p ∧ (s.kernel.proc q).state = .zombie ∧
      s' = { s with kernel := s.kernel.reap q }) ∨
    ∃ q, a = .wakeup q ∧ .sleeping ≤ (s.kernel.proc q).state ∧ s' = s.wakeup q := by
  unfold step at h
  split at h
  · cases h
  · split at h
    · rename_i hrun
      cases h
      exact .inl ⟨rfl, hrun, pick_cases s hrun⟩
    · rename_i st p hrun
      split at h
      · cases h
      · rename_i hst
        cases h
        refine .inr (.inl ⟨p, st, rfl, hrun, fun he => hst (.inl he), ?_⟩)
        by_cases hends : s.Ends p st
        · exact .inl ⟨hends, sched_left hends⟩
        · exact .inr (sched_ran hends)
    · rename_i share p hrun
      cases h
      exact .inr (.inr (.inl ⟨p, share, rfl, hrun, rfl⟩))
    · rename_i np p hrun
      obtain ⟨hst, h⟩ := Option.ite_none_right_eq_some.mp h
      cases h
      exact .inr (.inr (.inr (.inl ⟨p, np, rfl, hrun, hst, rfl⟩)))
    · rename_i q p hrun
      obtain ⟨⟨hq, hst⟩, h⟩ := Option.ite_none_right_eq_some.mp h
      cases h
      exact .inr (.inr (.inr (.inr (.inl ⟨p, q, rfl, hrun, hq, hst, rfl⟩))))
    · rename_i q
      obtain ⟨hst, h⟩ := Option.ite_none_right_eq_some.mp h
      cases h
      exact .inr (.inr (.inr (.inr (.inr ⟨q, rfl, hst, rfl⟩))))
    · cases h

/-! ## Slices -/

theorem quan_le (q : Proc) : q.quan.toNat ≤ 20 := by
  unfold Proc.quan
  split
  · decide
  · cases q.qlev <;> decide

theorem toNat_succ {n : Word} (hn : n.toNat < 20) : (n + 1).toNat = n.toNat + 1 := by
  rw [BitVec.toNat_add]
  apply Nat.mod_eq_of_lt
  show n.toNat + 1 < 2 ^ 32
  omega

/-- A slice has at most twenty ticks, so the product of the fee fits. -/
theorem toNat_fee {n : Word} (hn : n.toNat < 20) (share : Word) :
    (TICKETS * (n + 1) / share).toNat = TICKETS.toNat * (n.toNat + 1) / share.toNat := by
  rw [BitVec.toNat_udiv, BitVec.toNat_mul, toNat_succ hn, Nat.mod_eq_of_lt]
  show 10000 * (n.toNat + 1) < 2 ^ 32
  omega

/-- The running process is inside its quantum. -/
def InSlice (s : Loop) : Prop := ∀ p, s.kernel.running = some p →
  (s.kernel.proc p).ticks.toNat < 20 ∧ (s.kernel.proc p).state ≠ .unused

theorem InSlice.step (h : InSlice s) (hs : s.step a = some s') : InSlice s' := by
  intro r hr
  rcases step_cases hs with ⟨-, -, ⟨p, hp⟩ | hi⟩ | ⟨p, st, -, hrun, -, ⟨-, hl⟩ | hran⟩ |
    ⟨p, share, -, hrun, rfl⟩ | ⟨p, np, -, hrun, hnp, rfl⟩ | ⟨p, q, -, hrun, hq, -, rfl⟩ |
    ⟨q, -, hst, rfl⟩
  · rw [hp.running] at hr
    cases hr
    rw [hp.ticks, hp.state, if_pos rfl]
    exact ⟨by decide, by decide⟩
  · rw [hi.running] at hr
    cases hr
  · rw [hl.running] at hr
    cases hr
  · rw [hran.running, hrun] at hr
    cases hr
    rw [hran.ticks, hran.state, if_pos rfl]
    have hquan := hran.quan
    rw [BitVec.lt_def] at hquan
    exact ⟨lt_of_lt_of_le hquan (quan_le _), by decide⟩
  · have hr' : s.kernel.running = some r := hr
    obtain rfl : p = r := Option.some.inj (hrun.symm.trans hr')
    obtain ⟨stype, qlev, share', pass, heq⟩ :=
      setCpuShare_proc s.kernel.mlfq (s.kernel.proc p) share
    have hproc : (s.kernel.cpuShare p share).proc p = _ := (if_pos rfl).trans heq
    show ((s.kernel.cpuShare p share).proc p).ticks.toNat < 20 ∧
      ((s.kernel.cpuShare p share).proc p).state ≠ .unused
    rw [hproc]
    exact h p hrun
  · have hr' : s.kernel.running = some r := hr
    have hne : r ≠ np := by
      rintro rfl
      exact (h r hr').2 hnp
    have hproc : (s.fork np).kernel.proc r = s.kernel.proc r := if_neg hne
    rw [hproc]
    exact h r hr'
  · have hr' : s.kernel.running = some r := (reap_running s.kernel).symm.trans hr
    obtain rfl : p = r := Option.some.inj (hrun.symm.trans hr')
    show ((s.kernel.reap q).proc p).ticks.toNat < 20 ∧ ((s.kernel.reap q).proc p).state ≠ .unused
    rw [(reap_proc s.kernel q p).1 (Ne.symm hq)]
    exact h p hrun
  · have hr' : s.kernel.running = some r := hr
    obtain ⟨hticks, hne⟩ := h r hr'
    show (if r = q then _ else s.kernel.proc r).ticks.toNat < 20 ∧
      (if r = q then _ else s.kernel.proc r).state ≠ .unused
    by_cases hrq : r = q
    · subst hrq
      rw [if_pos rfl]
      exact ⟨hticks, by simp⟩
    · rw [if_neg hrq]
      exact ⟨hticks, hne⟩

/-- A stride process has a share, and its slot is in use. -/
def Tidy (s : Loop) : Prop := ∀ q, (s.kernel.proc q).stype = .stride →
  (s.kernel.proc q).share ≠ 0 ∧ (s.kernel.proc q).state ≠ .unused

theorem Tidy.not_stride (h : Tidy s) (hq : (s.kernel.proc q).state = .unused) :
    (s.kernel.proc q).stype ≠ .stride := fun hs => (h q hs).2 hq

/-- A step that leaves the clients alone and frees no stride process. -/
theorem Tidy.frame {k : Kernel} (h : Tidy s) (hsame : SameClients k s'.kernel)
    (hclient : ∀ c, k.IsClient c ↔ s.kernel.IsClient c)
    (hshare : ∀ c, k.clientShare c = s.kernel.clientShare c)
    (hstate : ∀ q, (s.kernel.proc q).stype = .stride → (s.kernel.proc q).state ≠ .unused →
      (s'.kernel.proc q).state ≠ .unused) : Tidy s' := by
  intro q hq
  have hk : k.IsClient (some q) := hsame.isClient.mp hq
  have hq' : (s.kernel.proc q).stype = .stride := (hclient (some q)).mp hk
  have heq : (s'.kernel.proc q).share = (s.kernel.proc q).share :=
    (hsame.client hk).1.trans (hshare (some q))
  rw [heq]
  exact ⟨(h q hq').1, hstate q hq' (h q hq').2⟩

theorem Tidy.step (h : Tidy s) (hslice : InSlice s) (hs : s.step a = some s') : Tidy s' := by
  rcases step_cases hs with ⟨-, -, ⟨p, hp⟩ | hi⟩ | ⟨p, st, -, hrun, hst, ⟨-, hl⟩ | hran⟩ |
    ⟨p, share, -, hrun, rfl⟩ | ⟨p, np, -, hrun, hnp, rfl⟩ | ⟨p, q, -, hrun, hq, -, rfl⟩ |
    ⟨q, -, hst, rfl⟩
  · refine h.frame hp.same (fun _ => reduce_isClient) (fun _ => reduce_clientShare) fun q _ hq => ?_
    rw [hp.state]
    split
    · decide
    · exact hq
  · refine h.frame hi.same (fun _ => reduce_isClient) (fun _ => reduce_clientShare) fun q _ hq => ?_
    rw [hi.state]
    exact hq
  · intro q hq
    have hq' : (s.kernel.proc q).stype = .stride := (hl.isClient (some q)).mp hq
    have heq : (s'.kernel.proc q).share = (s.kernel.proc q).share := hl.share (some q) hq'
    rw [heq, hl.state]
    refine ⟨(h q hq').1, ?_⟩
    split
    · exact hst
    · exact (h q hq').2
  · refine h.frame hran.same (fun _ => Iff.rfl) (fun _ => rfl) fun q _ hq => ?_
    rw [hran.state]
    split
    · decide
    · exact hq
  · obtain ⟨hself, hother, -, hstate⟩ := cpuShare_spec share
    intro q hq
    show ((s.kernel.cpuShare p share).proc q).share ≠ 0 ∧
      ((s.kernel.cpuShare p share).proc q).state ≠ .unused
    have hq' : ((s.kernel.cpuShare p share).proc q).stype = .stride := hq
    by_cases hqp : q = p
    · subst hqp
      rw [hstate]
      refine ⟨?_, (hslice q hrun).2⟩
      rw [hself] at hq' ⊢
      rcases setCpuShare_cases s.kernel.mlfq (s.kernel.proc q) share with heq | ⟨-, ht⟩ |
        ⟨-, -, hne⟩
      · rw [heq] at hq' ⊢
        exact (h q hq').1
      · rw [ht] at hq'
        cases hq'
      · exact hne
    · rw [hother q hqp] at hq' ⊢
      exact h q hq'
  · have hnot := h.not_stride hnp
    refine h.frame (same_fork np hnot) (fun _ => Iff.rfl) (fun _ => rfl) fun q hq hne => ?_
    have hqnp : q ≠ np := by
      rintro rfl
      exact hnot hq
    have hproc : (s.fork np).kernel.proc q = s.kernel.proc q := if_neg hqnp
    rw [hproc]
    exact hne
  · intro r hr
    have hr' : ((s.kernel.reap q).proc r).stype = .stride := hr
    have hrq : r ≠ q := by
      rintro rfl
      rw [(reap_proc s.kernel r r).2.1] at hr'
      cases hr'
    show ((s.kernel.reap q).proc r).share ≠ 0 ∧ ((s.kernel.reap q).proc r).state ≠ .unused
    rw [(reap_proc s.kernel q r).1 hrq] at hr' ⊢
    exact h r hr'
  · refine h.frame (same_wakeup) (fun _ => Iff.rfl) (fun _ => rfl) fun r _ hne => ?_
    show (if r = q then _ else s.kernel.proc r).state ≠ _
    split
    · simp
    · exact hne

theorem boot_tidy : Tidy boot := by
  intro p hp
  by_cases h : p = 0 <;> simp [boot, Kernel.boot, h] at hp

theorem boot_inSlice : InSlice boot := by
  intro p hp
  cases hp

/-- A state that a concrete run reaches. -/
theorem loop_run (s₀ : Loop) (ok : Loop → LoopAct → Prop) [∀ s a, Decidable (ok s a)]
    (as : List LoopAct) (P : Loop → Prop) [DecidablePred P]
    (h : (runIf Loop.step ok s₀ as).any fun s => P s) :
    ∃ s, Reaches Loop.step ok s₀ s ∧ P s :=
  exists_reaches as P h

end Loop

end Xv6
