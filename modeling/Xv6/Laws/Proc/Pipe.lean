import Xv6.Lib.Ring
import Xv6.Proc.Pipe
import Xv6.Laws.Proc.Block

/-!
# A pipe is a queue of bytes

What one step of `piperead` and `pipewrite` does is said once (`Moves`), and every fact about pipes
comes from it. The lock of a pipe makes a thread at a holding stage the only one that reads or
writes it, so what the thread has seen of the pipe (`Pipe.Place`) stays true until it lets go.

`Fifo` relates a run to its history. The counters of a pipe that is not freed bound a ring
(`Xv6.Lib.Ring`) that holds exactly the bytes stored and not yet removed; `nread` and `nwrite` may
wrap around any number of times.
-/

namespace Xv6

open Xv6.Lib

/-- The pipe that a call works on. -/
def BlockCall.pipe : BlockCall → Option PipePtr
  | .piperead i _ _ | .pipewrite i _ _ => some i
  | .sleep _ _ => none

/-- `i < n` of the copy loop, and the loop variable is 0 before it. -/
def BlockCall.WithinLength : BlockCall → Prop
  | .piperead _ n j | .pipewrite _ n j => j ≤ n ∧ n < 2 ^ 31
  | .sleep _ _ => True

/-- The buffer is empty and more may come. -/
def Pipe.Waiting (q : Pipe) : Prop := q.nread = q.nwrite ∧ q.writeopen = true

/-- The buffer is full and a reader may come. -/
def Pipe.Full (q : Pipe) : Prop := q.nwrite = q.nread + .ofNat 32 PIPESIZE ∧ q.readopen = true

/-- The buffer is empty for good. -/
def Pipe.Ended (q : Pipe) : Prop := q.nread = q.nwrite ∧ q.writeopen = false

/-- What a thread at a stage of its call knows of the pipe. -/
def Pipe.Place (q : Pipe) : BlockCall → Stage → Prop
  | .piperead _ n j, st => match st with
    | .acquire | .test | .slept => j = 0
    | .killed | .exited | .sleep => j = 0 ∧ q.Waiting
    | .copy => j = 0 → ¬ q.Waiting
    | .wakeup => j = 0 → 0 < n → q.Ended
    | .leave r => r = -1 ∧ j = 0 ∨ r = .ofNat 32 j ∧ (j = 0 → 0 < n → q.Ended)
    | .poke => False
  | .pipewrite _ n j, st => match st with
    | .acquire => j = 0
    | .test | .slept => True
    | .killed | .exited | .poke | .sleep => q.Full
    | .wakeup => j = n
    | .leave r => r = .ofNat 32 n ∧ j = n ∨ r = -1
    | .copy => False
  | .sleep _ _, _ => True

/-- Without the lock a thread knows nothing of the pipe. -/
theorem Pipe.Place.free {q q' : Pipe} {b : BlockCall} {st : Stage} (hst : st.holds = false)
    (h : q.Place b st) : q'.Place b st := by
  cases b <;> cases st <;> first | exact h | cases hst

theorem nreadChan_ne_nwriteChan (i j : Nat) : nreadChan i ≠ nwriteChan j := by
  intro h
  have := Chan.obj.inj h
  omega

theorem nreadChan_inj {i j : Nat} (h : nreadChan i = nreadChan j) : i = j := by
  have := Chan.obj.inj h
  omega

theorem nwriteChan_inj {i j : Nat} (h : nwriteChan i = nwriteChan j) : i = j := by
  have := Chan.obj.inj h
  omega

namespace BlockSys

variable {x y : BlockSys} {b : BlockCall} {st : Stage} {p : ProcPtr} {t u : ThdPtr} {c : CpuId}
  {byte : Byte} {i : PipePtr}

theorem setPipe_pipe (j : PipePtr) (f : Pipe → Pipe) :
    (x.setPipe i f).pipe j = if j = i then f (x.pipe i) else x.pipe j := rfl

/-! ## The steps of a loop -/

/-- A step that reads the pipe and moves on, with the lock held. -/
inductive Goes (x : BlockSys) (p : ProcPtr) (b : BlockCall) : Stage → Stage → Prop
  | waits {i n j : Nat} (hb : b = .piperead i n j) (hw : (x.pipe i).Waiting) : Goes x p b .test .killed
  | copies {i n j : Nat} (hb : b = .piperead i n j) (hw : ¬ (x.pipe i).Waiting) : Goes x p b .test .copy
  | full {i n j : Nat} (hb : b = .pipewrite i n j) (hw : (x.pipe i).Full) : Goes x p b .test .killed
  | givesUp {i n j : Nat} (hb : b = .pipewrite i n j) (hj : j < n) (hw : x.waits b = true)
      (hr : (x.pipe i).readopen = false) : Goes x p b .test (.leave (-1))
  | stored {i n j : Nat} (hb : b = .pipewrite i n j) (hj : ¬ j < n) : Goes x p b .test .wakeup
  | killed (hk : (x.kernel.proc p).killed = true) : Goes x p b .killed (.leave (-1))
  | alive (hk : (x.kernel.proc p).killed = false) : Goes x p b .killed .exited
  | exited (hk : (x.kernel.proc p).exited = true) : Goes x p b .exited (.leave (-1))
  | stays (hk : (x.kernel.proc p).exited = false) : Goes x p b .exited (toSleep b)
  | copied {i n j : Nat} (hb : b = .piperead i n j)
      (hj : ¬ (j < n ∧ (x.pipe i).nread ≠ (x.pipe i).nwrite)) : Goes x p b .copy .wakeup

/-- What a step of a loop does. -/
inductive Moves (x : BlockSys) (c : CpuId) (p : ProcPtr) (t : ThdPtr) (byte : Byte)
    (b : BlockCall) (st : Stage) (y : BlockSys) : Prop
  | clock (hb : b.pipe = none) (hp : y.pipe = x.pipe)
      (hc : ∀ b' ∈ y.call t, b'.1.pipe = none)
      (hk : y.kernel = x.kernel ∨ ∃ w, x.kernel.step (.work c w) = some y.kernel ∧
        ∀ ch, w = .sleep ch → ch = ticksChan)
  | lock {i : PipePtr} (hb : b.pipe = some i) (hst : st = .acquire ∨ st = .slept)
      (hfree : (x.pipe i).lock = none)
      (hp : y.pipe = (x.setPipe i fun q => { q with lock := some t }).pipe)
      (hc : y.call t = some (b, .test)) (hk : y.kernel = x.kernel)
  | go {i : PipePtr} {st' : Stage} (hb : b.pipe = some i) (hgo : x.Goes p b st st')
      (hp : y.pipe = x.pipe) (hc : y.call t = some (b, st')) (hk : y.kernel = x.kernel)
  | store {i n j : Nat} (hb : b = .pipewrite i n j) (hst : st = .test) (hj : j < n)
      (hw : x.waits b = false)
      (hp : y.pipe = (x.setPipe i fun q => { q with
        data := fun k => if k.val = q.nwrite.toNat % PIPESIZE then byte else q.data k
        nwrite := q.nwrite + 1 }).pipe)
      (hc : y.call t = some (.pipewrite i n (j + 1), .test)) (hk : y.kernel = x.kernel)
  | take {i n j : Nat} (hb : b = .piperead i n j) (hst : st = .copy) (hj : j < n)
      (hne : (x.pipe i).nread ≠ (x.pipe i).nwrite)
      (hp : y.pipe = (x.setPipe i fun q => { q with nread := q.nread + 1 }).pipe)
      (hc : y.call t = some (.piperead i n (j + 1), .copy)) (hk : y.kernel = x.kernel)
  | poke {i n j : Nat} (hb : b = .pipewrite i n j) (hst : st = .poke) (hp : y.pipe = x.pipe)
      (hc : y.call t = some (b, .sleep))
      (hk : x.kernel.step (.work c (.wakeup (nreadChan i))) = some y.kernel)
  | sleep {i : PipePtr} (hb : b.pipe = some i) (hst : st = .sleep)
      (hp : y.pipe = (x.setPipe i fun q => { q with lock := none }).pipe)
      (hc : y.call t = some (b, .slept)) (hk : x.kernel.step (.work c (.sleep b.chan)) = some y.kernel)
  | wakeup {i : PipePtr} {ch : Chan} {r : Word} (hb : b.pipe = some i) (hst : st = .wakeup)
      (hlast : last b = (some ch, r)) (hp : y.pipe = x.pipe) (hc : y.call t = some (b, .leave r))
      (hk : x.kernel.step (.work c (.wakeup ch)) = some y.kernel)
  | leave {i : PipePtr} {r : Word} (hb : b.pipe = some i) (hst : st = .leave r)
      (hp : y.pipe = (x.setPipe i fun q => { q with lock := none }).pipe)
      (hc : y.call t = none) (hk : x.kernel.step (.work c (.done r)) = some y.kernel)

theorem setHolder_pipe {o : Option ThdPtr} (hb : b.pipe = some i) :
    x.setHolder o b = x.setPipe i fun q => { q with lock := o } := by
  cases b <;> first | (cases hb; rfl) | cases hb

theorem holder_pipe (hb : b.pipe = some i) : x.holder b = (x.pipe i).lock := by
  cases b <;> first | (cases hb; rfl) | cases hb

theorem started_pipe (hb : b.pipe = some i) : x.started b = b := by
  cases b <;> first | rfl | cases hb

theorem test_moves (hb : b.pipe = some i) : x.Moves c p t byte b .test (x.test t byte b) := by
  cases b with
  | sleep => cases hb
  | piperead i n j =>
    have hc : (x.test t byte (.piperead i n j)).call t =
        some (.piperead i n j, if x.waits (.piperead i n j) then .killed else .copy) := if_pos rfl
    by_cases hw : (x.pipe i).Waiting
    · have hwaits : x.waits (.piperead i n j) = true := by
        simp only [waits, hw.1, hw.2, decide_true, Bool.and_self]
      rw [if_pos hwaits] at hc
      exact .go rfl (.waits rfl hw) rfl hc rfl
    · have hwaits : ¬ x.waits (.piperead i n j) = true := by
        intro h0
        simp only [waits, Bool.and_eq_true, decide_eq_true_eq] at h0
        exact hw h0
      rw [if_neg hwaits] at hc
      exact .go rfl (.copies rfl hw) rfl hc rfl
  | pipewrite i n j =>
    simp only [test]
    by_cases hj : j < n
    · rw [if_pos hj]
      cases hw : x.waits (.pipewrite i n j) with
      | false =>
        rw [if_neg Bool.false_ne_true]
        exact .store rfl rfl hj hw rfl (if_pos rfl) rfl
      | true =>
        rw [if_pos rfl]
        cases hr : (x.pipe i).readopen with
        | true =>
          have hfull : (x.pipe i).Full := ⟨by simpa only [waits, decide_eq_true_eq] using hw, hr⟩
          exact .go rfl (.full rfl hfull) rfl (if_pos rfl) rfl
        | false => exact .go rfl (.givesUp rfl hj hw hr) rfl (if_pos rfl) rfl
    · rw [if_neg hj]
      exact .go rfl (.stored rfl hj) rfl (if_pos rfl) rfl

theorem copy_moves {n j : Nat} : x.Moves c p t byte (.piperead i n j) .copy (x.copy t (.piperead i n j)) := by
  unfold copy
  dsimp only
  by_cases hj : j < n ∧ (x.pipe i).nread ≠ (x.pipe i).nwrite
  · rw [if_pos hj]
    exact .take rfl rfl hj.1 hj.2 rfl (if_pos rfl) rfl
  · rw [if_neg hj]
    exact .go rfl (.copied rfl hj) rfl (if_pos rfl) rfl

theorem setCall_clock {z : BlockSys} {n ticks0 : Word} :
    ∀ b' ∈ (z.setCall t (some (.sleep n ticks0, st))).call t, b'.1.pipe = none := by
  rw [setCall_call, if_pos rfl]
  rintro b' ⟨⟩
  rfl

/-- A step of `sys_sleep` leaves the pipes alone. -/
theorem clock_moves {n ticks0 : Word} (hs : x.block c p t byte (.sleep n ticks0) st = some y) :
    x.Moves c p t byte (.sleep n ticks0) st y := by
  cases st with
  | acquire | slept =>
    obtain ⟨-, hs⟩ := Option.ite_none_right_eq_some.mp hs
    cases hs
    exact .clock rfl rfl setCall_clock (.inl rfl)
  | test | killed | exited | copy | wakeup =>
    cases hs
    exact .clock rfl rfl setCall_clock (.inl rfl)
  | poke =>
    obtain ⟨k, hk, rfl⟩ := map_kstep_eq_some.mp hs
    exact .clock rfl rfl setCall_clock (.inr ⟨_, hk, fun ch h0 => by cases h0⟩)
  | sleep =>
    obtain ⟨k, hk, rfl⟩ := guarded_kstep hs
    exact .clock rfl rfl setCall_clock (.inr ⟨_, hk, fun ch h0 => by cases h0; rfl⟩)
  | leave r =>
    obtain ⟨k, hk, rfl⟩ := guarded_kstep hs
    refine .clock rfl rfl ?_ (.inr ⟨_, hk, fun ch h0 => by cases h0⟩)
    rw [setCall_call, if_pos rfl]
    rintro b' ⟨⟩

/-- Every step of a loop is one of these moves. -/
theorem block_moves (hfit : (x.pipe i).Place b st) (hb : b.pipe = some i)
    (hs : x.block c p t byte b st = some y) : x.Moves c p t byte b st y := by
  cases st with
  | acquire =>
    obtain ⟨hfree, hs⟩ := Option.ite_none_right_eq_some.mp hs
    cases hs
    rw [holder_pipe hb] at hfree
    refine .lock hb (.inl rfl) hfree ?_ ?_ ?_
    · rw [setHolder_pipe hb]
      rfl
    · rw [started_pipe hb]
      exact if_pos rfl
    · rw [setHolder_pipe hb]
      rfl
  | slept =>
    obtain ⟨hfree, hs⟩ := Option.ite_none_right_eq_some.mp hs
    cases hs
    rw [holder_pipe hb] at hfree
    refine .lock hb (.inr rfl) hfree ?_ (if_pos rfl) ?_
    · rw [setHolder_pipe hb]
      rfl
    · rw [setHolder_pipe hb]
      rfl
  | test =>
    cases hs
    exact test_moves hb
  | killed =>
    cases hs
    cases hk : (x.kernel.proc p).killed with
    | true => exact .go hb (.killed hk) rfl (by simp) rfl
    | false => exact .go hb (.alive hk) rfl (by simp) rfl
  | exited =>
    cases hs
    cases hk : (x.kernel.proc p).exited with
    | true => exact .go hb (.exited hk) rfl (by simp) rfl
    | false => exact .go hb (.stays hk) rfl (by simp) rfl
  | poke =>
    obtain ⟨k, hk, rfl⟩ := map_kstep_eq_some.mp hs
    cases b with
    | sleep => cases hb
    | piperead => cases hfit
    | pipewrite => exact .poke rfl rfl rfl (if_pos rfl) hk
  | sleep =>
    obtain ⟨k, hk, rfl⟩ := guarded_kstep hs
    rw [setHolder_pipe hb]
    exact .sleep hb rfl rfl (if_pos rfl) hk
  | copy =>
    cases hs
    cases b with
    | sleep => cases hb
    | pipewrite => cases hfit
    | piperead => exact copy_moves
  | wakeup =>
    cases b with
    | sleep => cases hb
    | piperead =>
      obtain ⟨k, hk, rfl⟩ := map_kstep_eq_some.mp hs
      exact .wakeup hb rfl rfl rfl (if_pos rfl) hk
    | pipewrite =>
      obtain ⟨k, hk, rfl⟩ := map_kstep_eq_some.mp hs
      exact .wakeup hb rfl rfl rfl (if_pos rfl) hk
  | leave r =>
    obtain ⟨k, hk, rfl⟩ := guarded_kstep hs
    rw [setHolder_pipe hb]
    exact .leave hb rfl rfl (if_pos rfl) hk

/-! ## The lock of a pipe -/

/-- A thread at a holding stage has the lock, and every thread knows what it has seen. -/
structure Locks (x : BlockSys) : Prop where
  held : ∀ t b st i, x.call t = some (b, st) → b.pipe = some i → st.holds = true →
    (x.pipe i).lock = some t
  place : ∀ t b st i, x.call t = some (b, st) → b.pipe = some i →
    (x.pipe i).Place b st ∧ b.WithinLength

/-- A step by the thread that has the lock, or that finds it free, leaves what the others know. -/
theorem Locks.moved (h : Locks x) (hlock : (x.pipe i).lock = none ∨ (x.pipe i).lock = some t)
    (hother : ∀ u, u ≠ t → y.call u = x.call u) (hpipe : ∀ j, j ≠ i → y.pipe j = x.pipe j)
    (hmine : ∀ b st, y.call t = some (b, st) → b.pipe = some i ∧
      (st.holds = true → (y.pipe i).lock = some t) ∧ (y.pipe i).Place b st ∧ b.WithinLength) :
    Locks y := by
  have hidle : ∀ u b st, u ≠ t → x.call u = some (b, st) → b.pipe = some i → st.holds = false := by
    intro u b st hu hc hb
    by_contra hst
    have hmine := h.held u b st i hc hb (Bool.not_eq_false _ ▸ hst)
    rcases hlock with h0 | h0
    · rw [h0] at hmine
      cases hmine
    · exact hu (Option.some.inj (hmine.symm.trans h0))
  constructor
  · intro u b st j hc hb hst
    by_cases hu : u = t
    · subst hu
      obtain ⟨hbi, hheld, -⟩ := hmine b st hc
      obtain rfl : i = j := Option.some.inj (hbi.symm.trans hb)
      exact hheld hst
    · rw [hother u hu] at hc
      by_cases hj : j = i
      · subst hj
        rw [hidle u b st hu hc hb] at hst
        cases hst
      · rw [hpipe j hj]
        exact h.held u b st j hc hb hst
  · intro u b st j hc hb
    by_cases hu : u = t
    · subst hu
      obtain ⟨hbi, -, hplace⟩ := hmine b st hc
      obtain rfl : i = j := Option.some.inj (hbi.symm.trans hb)
      exact hplace
    · rw [hother u hu] at hc
      obtain ⟨hplace, hlen⟩ := h.place u b st j hc hb
      by_cases hj : j = i
      · subst hj
        exact ⟨hplace.free (hidle u b st hu hc hb), hlen⟩
      · rw [hpipe j hj]
        exact ⟨hplace, hlen⟩

/-- A step that only looks: the thread knows at its new stage what it has seen. -/
theorem Goes.place {st' : Stage} (hgo : x.Goes p b st st') (hb : b.pipe = some i)
    (h : (x.pipe i).Place b st) (hlen : b.WithinLength) : (x.pipe i).Place b st' := by
  cases hgo with
  | waits hb' hw =>
    subst hb'
    cases hb
    exact ⟨h, hw⟩
  | copies hb' hw =>
    subst hb'
    cases hb
    exact fun _ => hw
  | full hb' hw =>
    subst hb'
    cases hb
    exact hw
  | givesUp hb' =>
    subst hb'
    exact .inr rfl
  | stored hb' hj =>
    subst hb'
    exact Nat.le_antisymm hlen.1 (Nat.le_of_not_lt hj)
  | killed | exited =>
    cases b with
    | piperead => exact .inl ⟨rfl, h.1⟩
    | pipewrite => exact .inr rfl
    | sleep => trivial
  | alive =>
    cases b <;> exact h
  | stays =>
    cases b <;> exact h
  | copied hb' hj =>
    subst hb'
    cases hb
    intro h0 hn
    subst h0
    have hempty : (x.pipe i).nread = (x.pipe i).nwrite := by
      by_contra hne
      exact hj ⟨hn, hne⟩
    refine ⟨hempty, ?_⟩
    by_contra hopen
    exact h rfl ⟨hempty, Bool.not_eq_false _ ▸ hopen⟩

theorem Goes.holds {st' : Stage} (hgo : x.Goes p b st st') : st.holds = true ∧ st'.holds = true := by
  cases hgo <;> first | exact ⟨rfl, rfl⟩ | (cases b <;> exact ⟨rfl, rfl⟩)

/-- The last `wakeup` and the reply behind it. -/
theorem place_last {ch : Chan} {r : Word} (hlast : last b = (some ch, r))
    (h : (x.pipe i).Place b .wakeup) : (x.pipe i).Place b (.leave r) := by
  cases b with
  | piperead k n j =>
    cases hlast
    exact .inr ⟨rfl, h⟩
  | pipewrite k n j =>
    cases hlast
    exact .inl ⟨rfl, h⟩
  | sleep => trivial

/-- The mover has the lock, or takes it. -/
theorem Locks.mover (h : Locks x) (ht : x.call t = some (b, st)) (hb : b.pipe = some i)
    (hm : x.Moves c p t byte b st y) : (x.pipe i).lock = none ∨ (x.pipe i).lock = some t := by
  have hheld : st.holds = true → (x.pipe i).lock = some t := h.held t b st i ht hb
  cases hm with
  | clock hb' => cases hb.symm.trans hb'
  | lock hb' _ hfree =>
    obtain rfl := Option.some.inj (hb'.symm.trans hb)
    exact .inl hfree
  | go _ hgo => exact .inr (hheld hgo.holds.1)
  | store _ hst | take _ hst | poke _ hst | sleep _ hst | wakeup _ hst | leave _ hst =>
    subst hst
    exact .inr (hheld rfl)

/-- A move is about the pipe of its call. -/
theorem Moves.frame (hm : x.Moves c p t byte b st y) (hb : b.pipe = some i) :
    (∀ j, j ≠ i → y.pipe j = x.pipe j) ∧ ∀ b' st', y.call t = some (b', st') → b'.pipe = some i := by
  cases hm with
  | clock hb' => cases hb.symm.trans hb'
  | lock hb' _ _ hp hc | sleep hb' _ hp hc | leave hb' _ hp hc =>
    cases hb.symm.trans hb'
    refine ⟨fun j hj => by rw [hp, setPipe_pipe, if_neg hj], fun b' st' hc' => ?_⟩
    rw [hc] at hc'
    cases hc'
    try exact hb
  | store hb' _ _ _ hp hc | take hb' _ _ _ hp hc =>
    subst hb'
    cases hb
    refine ⟨fun j hj => by rw [hp, setPipe_pipe, if_neg hj], fun b' st' hc' => ?_⟩
    rw [hc] at hc'
    cases hc'
    rfl
  | go _ _ hp hc | wakeup _ _ _ hp hc | poke _ _ hp hc =>
    refine ⟨fun j _ => by rw [hp], fun b' st' hc' => ?_⟩
    rw [hc] at hc'
    cases hc'
    exact hb

/-- A step of a loop keeps the locks. -/
theorem Locks.loop (h : Locks x) (ht : x.call t = some (b, st)) (hb : b.pipe = some i)
    (hm : x.Moves c p t byte b st y) (hother : ∀ u, u ≠ t → y.call u = x.call u) : Locks y := by
  have hheld : st.holds = true → (x.pipe i).lock = some t := h.held t b st i ht hb
  obtain ⟨hplace, hlen⟩ := h.place t b st i ht hb
  obtain ⟨hpipe, hcall⟩ := hm.frame hb
  refine h.moved (h.mover ht hb hm) hother hpipe fun b' st' hc' => ⟨hcall b' st' hc', ?_⟩
  cases hm with
  | clock hb' => cases hb.symm.trans hb'
  | lock hb' hst hfree hp hc =>
    cases hb.symm.trans hb'
    cases hc.symm.trans hc'
    rw [hp, setPipe_pipe, if_pos rfl]
    refine ⟨fun _ => rfl, ?_, hlen⟩
    rcases hst with rfl | rfl <;> cases b <;> first | exact hplace | trivial
  | go _ hgo hp hc =>
    cases hc.symm.trans hc'
    rw [hp]
    exact ⟨fun _ => hheld hgo.holds.1, hgo.place hb hplace hlen, hlen⟩
  | store hb' hst hj _ hp hc =>
    subst hb' hst
    cases hb
    cases hc.symm.trans hc'
    rw [hp, setPipe_pipe, if_pos rfl]
    exact ⟨fun _ => hheld rfl, trivial, hj, hlen.2⟩
  | take hb' hst hj _ hp hc =>
    subst hb' hst
    cases hb
    cases hc.symm.trans hc'
    rw [hp, setPipe_pipe, if_pos rfl]
    exact ⟨fun _ => hheld rfl, fun h0 => absurd h0 (Nat.succ_ne_zero _), hj, hlen.2⟩
  | poke hb' hst hp hc =>
    subst hb' hst
    cases hc.symm.trans hc'
    rw [hp]
    exact ⟨fun _ => hheld rfl, hplace, hlen⟩
  | sleep hb' hst hp hc =>
    subst hst
    cases hc.symm.trans hc'
    refine ⟨fun h0 => (by cases h0), ?_, hlen⟩
    cases b with
    | piperead => exact hplace.1
    | pipewrite | sleep => trivial
  | wakeup _ hst hlast hp hc =>
    subst hst
    cases hc.symm.trans hc'
    rw [hp]
    exact ⟨fun _ => hheld rfl, place_last hlast hplace, hlen⟩
  | leave hb' _ hp hc => cases hc.symm.trans hc'

/-- A step of `sys_sleep` keeps them. -/
theorem Locks.clock (h : Locks x) (hp : y.pipe = x.pipe) (hc : ∀ b' ∈ y.call t, b'.1.pipe = none)
    (hother : ∀ u, u ≠ t → y.call u = x.call u) : Locks y := by
  have hsame : ∀ u b' st' j, y.call u = some (b', st') → b'.pipe = some j →
      x.call u = some (b', st') := by
    intro u b' st' j hc' hb'
    by_cases hu : u = t
    · subst hu
      have h0 : b'.pipe = none := hc (b', st') hc'
      rw [h0] at hb'
      cases hb'
    · rw [← hother u hu]
      exact hc'
  constructor
  · intro u b' st' j hc' hb' hst
    rw [hp]
    exact h.held u b' st' j (hsame u b' st' j hc' hb') hb' hst
  · intro u b' st' j hc' hb'
    rw [hp]
    exact h.place u b' st' j (hsame u b' st' j hc' hb') hb'

end BlockSys

/-! ## The steps of the system -/

namespace PipeSys

variable {x y : PipeSys} {a : PipeAct}

/-- What a step is. -/
inductive Does (x : PipeSys) (a : PipeAct) (y : PipeSys) : Prop
  | kern {k : Act} (ha : a = .block (.kern k) ∨ a = .block .tick ∧ k = .intrWakeup ticksChan)
      (hk : x.kernel.step k = some y.kernel)
      (hsleep : ∀ d ch q u, k = .work d (.sleep ch) → x.kernel.onCpu d = some (q, u) → ch.blocks = false)
      (hp : y.pipe = x.pipe) (hc : y.call = x.call) (hf : y.closing = x.closing ∧ y.freed = x.freed)
  | enter {c : CpuId} {e : BlockEntry} {p : ProcPtr} {t : ThdPtr} (ha : a = .block (.enter c e))
      (hr : x.runs c = some (p, t)) (hnone : x.call t = none) (hk : y.kernel = x.kernel)
      (hp : y.pipe = x.pipe) (hc : ∀ u, y.call u = if u = t then some (e.call, .acquire) else x.call u)
      (hf : y.closing = x.closing ∧ y.freed = x.freed)
  | loop {c : CpuId} {byte : Byte} {p : ProcPtr} {t : ThdPtr} {b : BlockCall} {st : Stage}
      (ha : a = .block (.block c byte)) (hr : x.runs c = some (p, t)) (ht : x.call t = some (b, st))
      (hs : x.block c p t byte b st = some y.toBlockSys)
      (hf : y.closing = x.closing ∧ y.freed = x.freed)
  | close {c : CpuId} {i : PipePtr} {w : Bool} {p : ProcPtr} {t : ThdPtr} (ha : a = .close c i w)
      (hr : x.runs c = some (p, t)) (hnone : x.call t = none) (hfree : (x.pipe i).lock = none)
      (hk : x.kernel.step (.work c (.wakeup (closeChan i w))) = some y.kernel)
      (hp : y.pipe = (x.setPipe i fun q => q.closed w).pipe) (hc : y.call = x.call)
      (hf : ∀ j, y.freed j = (x.freed j || (j = i && (x.pipe i).lastEnd w)))
      (hclosing : ∀ u, y.closing u = x.closing u ∨
        y.closing u = some (i, false) ∧ (x.pipe i).lastEnd w = true)
  | kfree {c : CpuId} {next : Word} {i : PipePtr} {t : ThdPtr} {full : Bool} {f : Pipe → Pipe}
      (ha : a = .kfree c next) (ht : x.closing t = some (i, full)) (hk : y.kernel = x.kernel)
      (hp : y.pipe = (x.setPipe i f).pipe)
      (hpage : f = (fun _ => .junk t) ∨ f = fun q => q.link t next) (hc : y.call = x.call)
      (hf : y.freed = x.freed)
      (hclosing : ∀ u, y.closing u = x.closing u ∨ ∀ o ∈ y.closing u, o.1 = i)

theorem step_does (hs : x.step a = some y) : x.Does a y := by
  cases a with
  | block a =>
    obtain ⟨hadm, hs⟩ := Option.ite_none_right_eq_some.mp hs
    obtain ⟨z, hz, rfl⟩ := Option.map_eq_some_iff.mp hs
    clear hs
    cases a with
    | other i r => cases hadm
    | kern k =>
      obtain ⟨ha, hz⟩ := Option.ite_none_right_eq_some.mp hz
      obtain ⟨k', hk, rfl⟩ := BlockSys.kstep_eq_some.mp hz
      refine .kern (.inl rfl) hk (fun d ch q u h0 hon => ?_) rfl rfl ⟨rfl, rfl⟩
      subst h0
      exact (BlockSys.admits_work ha hon).2 ch rfl
    | tick =>
      obtain ⟨-, hz⟩ := Option.ite_none_right_eq_some.mp hz
      obtain ⟨z', hz', rfl⟩ := Option.map_eq_some_iff.mp hz
      obtain ⟨k, hk, rfl⟩ := BlockSys.kstep_eq_some.mp hz'
      exact .kern (.inr ⟨rfl, rfl⟩) hk (fun d ch q u h0 => by cases h0) rfl rfl ⟨rfl, rfl⟩
    | enter c e =>
      unfold BlockSys.step at hz
      dsimp only at hz
      split at hz
      · rename_i p t hr
        obtain ⟨hnone, hz⟩ := Option.ite_none_right_eq_some.mp hz
        cases hz
        exact .enter rfl hr hnone rfl rfl (fun u => rfl) ⟨rfl, rfl⟩
      · cases hz
    | block c byte =>
      unfold BlockSys.step at hz
      dsimp only at hz
      split at hz
      · rename_i p t hr
        split at hz
        · rename_i b st ht
          exact .loop rfl hr ht hz ⟨rfl, rfl⟩
        · cases hz
      · cases hz
  | close c i w =>
    unfold step at hs
    dsimp only at hs
    split at hs
    · rename_i p t hr
      obtain ⟨hcond, hs⟩ := Option.ite_none_right_eq_some.mp hs
      obtain ⟨k, hk, rfl⟩ := BlockSys.map_kstep_eq_some.mp hs
      cases hlast : (x.pipe i).lastEnd w with
      | true =>
        rw [if_pos rfl]
        refine .close rfl hr hcond.1 hcond.2.2 hk rfl rfl (fun j => ?_) fun u => ?_
        · rw [hlast, Bool.and_true, Bool.or_comm]
        · by_cases hu : u = t
          · exact .inr ⟨if_pos hu, hlast⟩
          · exact .inl (if_neg hu)
      | false =>
        rw [if_neg Bool.false_ne_true]
        refine .close rfl hr hcond.1 hcond.2.2 hk rfl rfl (fun j => ?_) fun u => .inl rfl
        rw [hlast, Bool.and_false, Bool.or_false]
    · cases hs
  | kfree c next =>
    unfold step at hs
    dsimp only at hs
    split at hs
    · split at hs
      · rename_i t _ _ i ht
        cases hs
        refine .kfree rfl ht rfl rfl (.inl rfl) rfl rfl fun u => ?_
        by_cases hu : u = t
        · refine .inr fun o ho => ?_
          cases (if_pos hu).symm.trans ho
          rfl
        · exact .inl (if_neg hu)
      · rename_i t _ _ i ht
        cases hs
        refine .kfree rfl ht rfl rfl (.inr rfl) rfl rfl fun u => ?_
        by_cases hu : u = t
        · refine .inr fun o ho => ?_
          cases (if_pos hu).symm.trans ho
        · exact .inl (if_neg hu)
      · cases hs
    · cases hs

end PipeSys

/-! ## Orderly runs -/

/-- The length of a call's buffer. -/
def BlockEntry.len : BlockEntry → Nat
  | .piperead _ n | .pipewrite _ n => n
  | .sleep _ => 0

/-- A length is an `int`. -/
def PipeAct.IntLength : PipeAct → Prop
  | .block (.enter _ e) => e.len < 2 ^ 31
  | _ => True

instance : DecidablePred PipeAct.IntLength
  | .block (.enter _ e) => inferInstanceAs (Decidable (e.len < 2 ^ 31))
  | .block (.kern _) | .block (.block _ _) | .block .tick | .block (.other _ _) | .close _ _ _
  | .kfree _ _ => inferInstanceAs (Decidable True)

namespace PipeSys

variable {x y : PipeSys} {t : ThdPtr} {i : PipePtr} {a : PipeAct}

/-- A thread is in a `piperead` or `pipewrite` on pipe `i`. -/
def InUse (x : PipeSys) (i : PipePtr) : Prop := ∃ t, ∃ b ∈ x.call t, b.1.pipe = some i

instance (x : PipeSys) (i : PipePtr) : Decidable (x.InUse i) :=
  haveI : ∀ t, Decidable (∃ b ∈ x.call t, b.1.pipe = some i) := fun t => (x.call t).decidableExistsMem
  inferInstanceAs (Decidable (∃ t, ∃ b ∈ x.call t, b.1.pipe = some i))

/-- The second end of a pipe is closed only while no call on the pipe is in progress, and none begins
after that. -/
def ClosesIdle (x : PipeSys) : PipeAct → Prop
  | .block (.enter _ e) => ∀ i ∈ e.call.pipe, x.freed i = false
  | .close _ i w => x.freed i = false ∧ ((x.pipe i).lastEnd w = true → ¬ x.InUse i)
  | _ => True

instance (x : PipeSys) (a : PipeAct) : Decidable (x.ClosesIdle a) :=
  match a with
  | .block (.enter _ e) => e.call.pipe.decidableForallMem
  | .close _ i _ => inferInstanceAs (Decidable (x.freed i = false ∧ _))
  | .block (.kern _) | .block (.block _ _) | .block .tick | .block (.other _ _)
  | .kfree _ _ => inferInstanceAs (Decidable True)

/-- The runs in which no call meets a page that is freed. -/
def Orderly (x : PipeSys) (a : PipeAct) : Prop := a.IntLength ∧ x.ClosesIdle a

instance (x : PipeSys) (a : PipeAct) : Decidable (x.Orderly a) :=
  inferInstanceAs (Decidable (_ ∧ _))

/-- Nobody is in a call on a pipe that is freed, and only such a page is in `kfree`. -/
structure Locked (x : PipeSys) : Prop extends BlockSys.Locks x.toBlockSys where
  idle : ∀ i, x.freed i = true → ¬ x.InUse i
  closes : ∀ t o, x.closing t = some o → x.freed o.1 = true

theorem entry_place {q : Pipe} (e : BlockEntry) (hlen : e.len < 2 ^ 31) :
    q.Place e.call .acquire ∧ e.call.WithinLength := by
  cases e with
  | piperead i n => exact ⟨rfl, Nat.zero_le n, hlen⟩
  | pipewrite i n => exact ⟨rfl, Nat.zero_le n, hlen⟩
  | sleep n => exact ⟨trivial, trivial⟩

/-- Who is in a call after a step was in one on the same pipe before, or begins it. -/
theorem Locked.inUse (h : Locked x) (hs : x.step a = some y) (hu : y.InUse i) :
    x.InUse i ∨ ∃ c e, a = .block (.enter c e) ∧ e.call.pipe = some i := by
  obtain ⟨u, b', hb', hi⟩ := hu
  cases step_does hs with
  | kern _ _ _ _ hc | close _ _ _ _ _ _ hc | kfree _ _ _ _ _ hc => exact .inl ⟨u, b', hc ▸ hb', hi⟩
  | @enter c e p t ha hr hnone hk hp hc =>
    rw [hc] at hb'
    split at hb'
    · cases hb'
      exact .inr ⟨c, e, ha, hi⟩
    · exact .inl ⟨u, b', hb', hi⟩
  | @loop c byte p t b st ha hr ht hs =>
    by_cases hut : u = t
    · subst hut
      cases hb : b.pipe with
      | some j =>
        obtain rfl : j = i := Option.some.inj
          (((BlockSys.block_moves (h.place u b st j ht hb).1 hb hs).frame hb).2 b'.1 b'.2 hb' |>.symm.trans hi)
        exact .inl ⟨u, _, ht, hb⟩
      | none =>
        cases b with
        | piperead | pipewrite => cases hb
        | sleep n k =>
          cases BlockSys.clock_moves hs with
          | clock _ _ hc => cases (hc b' hb').symm.trans hi
          | lock h0 | go h0 | sleep h0 | wakeup h0 | leave h0 => cases h0
          | store h0 | take h0 | poke h0 => cases h0
    · exact .inl ⟨u, b', (BlockSys.block_blocked hs).call u hut ▸ hb', hi⟩

theorem Locked.locks_step (h : Locked x) (hlen : a.IntLength) (hs : x.step a = some y) :
    BlockSys.Locks y.toBlockSys := by
  cases step_does hs with
  | kern _ _ _ hp hc => exact ⟨by rw [hp, hc]; exact h.held, by rw [hp, hc]; exact h.place⟩
  | @enter c e p t ha hr hnone hk hp hc =>
    subst ha
    constructor
    · intro u b st j hu hb hst
      rw [hc] at hu
      split at hu
      · cases hu
        cases hst
      · rw [hp]
        exact h.held u b st j hu hb hst
    · intro u b st j hu hb
      rw [hc] at hu
      split at hu
      · cases hu
        exact entry_place e hlen
      · rw [hp]
        exact h.place u b st j hu hb
  | @loop c byte p t b st ha hr ht hs =>
    have hother := (BlockSys.block_blocked hs).call
    cases hb : b.pipe with
    | some i => exact h.loop ht hb (BlockSys.block_moves (h.place t b st i ht hb).1 hb hs) hother
    | none =>
      cases b with
      | piperead | pipewrite => cases hb
      | sleep n k =>
        cases BlockSys.clock_moves hs with
        | clock _ hp hc => exact h.clock hp hc hother
        | lock hb' | go hb' | sleep hb' | wakeup hb' | leave hb' => cases hb'
        | store hb' | take hb' | poke hb' => cases hb'
  | @close c i w p t ha hr hnone hfree hk hp hc =>
    refine h.moved (t := t) (.inl hfree) (fun u _ => by rw [hc])
      (fun j hj => by rw [hp, BlockSys.setPipe_pipe, if_neg hj]) ?_
    intro b st h0
    rw [hc, hnone] at h0
    cases h0
  | @kfree c next i t full f ha ht hk hp hpage hc =>
    -- nobody is in a call on the page
    have hne : ∀ u b st j, y.call u = some (b, st) → b.pipe = some j → j ≠ i := by
      rintro u b st j hu hb rfl
      exact h.idle j (h.closes t _ ht) ⟨u, _, hc ▸ hu, hb⟩
    constructor
    · intro u b st j hu hb
      rw [hp, BlockSys.setPipe_pipe, if_neg (hne u b st j hu hb)]
      exact h.held u b st j (hc ▸ hu) hb
    · intro u b st j hu hb
      rw [hp, BlockSys.setPipe_pipe, if_neg (hne u b st j hu hb)]
      exact h.place u b st j (hc ▸ hu) hb

theorem Locked.step (h : Locked x) (hok : x.Orderly a) (hs : x.step a = some y) : Locked y := by
  have hidle : ∀ i, x.freed i = true → ¬ y.InUse i := by
    intro i hi hu
    rcases h.inUse hs hu with h0 | ⟨c, e, rfl, he⟩
    · exact h.idle i hi h0
    · cases hi.symm.trans (hok.2 i he)
  refine { toLocks := h.locks_step hok.1 hs, idle := ?_, closes := ?_ }
  · intro i hi
    cases step_does hs with
    | kern _ _ _ _ _ hf | enter _ _ _ _ _ _ hf | loop _ _ _ _ hf => exact hidle i (hf.2 ▸ hi)
    | kfree _ _ _ _ _ _ hf => exact hidle i (hf ▸ hi)
    | @close c j w p t ha hr hnone hfree hk hp hc hf =>
      rw [hf] at hi
      cases hx : x.freed i with
      | true => exact hidle i hx
      | false =>
        rw [hx, Bool.false_or, Bool.and_eq_true] at hi
        obtain rfl := of_decide_eq_true hi.1
        subst ha
        rintro ⟨u, b, hb, hbi⟩
        exact hok.2.2 hi.2 ⟨u, b, hc ▸ hb, hbi⟩
  · intro t o ho
    cases step_does hs with
    | kern _ _ _ _ _ hf | enter _ _ _ _ _ _ hf | loop _ _ _ _ hf =>
      rw [hf.2]
      exact h.closes t o (hf.1 ▸ ho)
    | kfree _ ht _ _ _ _ hf hclosing =>
      rw [hf]
      rcases hclosing t with h0 | h0
      · exact h.closes t o (h0 ▸ ho)
      · rw [h0 o ho]
        exact h.closes _ _ ht
    | close _ _ _ _ _ _ _ hf hclosing =>
      rw [hf]
      rcases hclosing t with h0 | ⟨h0, hlast⟩
      · rw [h.closes t o (h0 ▸ ho), Bool.true_or]
      · cases h0.symm.trans ho
        rw [hlast, Bool.and_true, decide_eq_true rfl, Bool.or_true]

theorem boot_locked : Locked boot where
  held t b st i h0 := by cases h0
  place t b st i h0 := by cases h0
  idle i h0 := by cases h0
  closes t o h0 := by cases h0

end PipeSys

/-! ## The history -/

/-- The places in the buffer of call `k` that bytes of the list belong to. -/
def places (l : List PipeByte) (k : Nat) : List Nat :=
  (l.filter fun e => e.call = k).map PipeByte.index

theorem places_append (l : List PipeByte) (e : PipeByte) (k : Nat) :
    places (l ++ [e]) k = if e.call = k then places l k ++ [e.index] else places l k := by
  unfold places
  rw [List.filter_append, List.map_append]
  by_cases h : e.call = k
  · simp [h]
  · simp [h]

theorem places_eq_nil {l : List PipeByte} {k : Nat} (h : ∀ e ∈ l, e.call < k) : places l k = [] := by
  unfold places
  rw [List.map_eq_nil_iff, List.filter_eq_nil_iff]
  intro e he h0
  have hlt := h e he
  rw [of_decide_eq_true h0] at hlt
  exact Nat.lt_irrefl _ hlt

/-- How many bytes a call has moved: into a pipe, when `w`, or out of it. -/
def BlockCall.moved (w : Bool) : BlockCall → PipePtr → Nat
  | .pipewrite i _ j, k => if w = true ∧ k = i then j else 0
  | .piperead i _ j, k => if w = false ∧ k = i then j else 0
  | .sleep _ _, _ => 0

/-- Each call's bytes are in the order of its buffer. `moved` counts those of a call in progress. -/
structure InOrder (call : ThdPtr → Option (BlockCall × Stage)) (calls : Nat) (number : ThdPtr → Nat)
    (moved : BlockCall → PipePtr → Nat) (l : PipePtr → List PipeByte) : Prop where
  old : ∀ i, ∀ e ∈ l i, e.call < calls
  order : ∀ i k, ∃ m, places (l i) k = List.range m
  mine : ∀ t b st, call t = some (b, st) → number t < calls ∧
    ∀ i, places (l i) (number t) = List.range (moved b i)
  apart : ∀ t u, call t ≠ none → call u ≠ none → number t = number u → t = u

section InOrder

variable {call call' : ThdPtr → Option (BlockCall × Stage)} {calls : Nat} {number : ThdPtr → Nat}
  {moved : BlockCall → PipePtr → Nat} {l : PipePtr → List PipeByte} {t : ThdPtr} {b : BlockCall}
  {st : Stage}

/-- A thread goes on without moving a byte, or leaves. -/
theorem InOrder.go (h : InOrder call calls number moved l) (ht : call t = some (b, st))
    (hother : ∀ u, u ≠ t → call' u = call u)
    (hmine : ∀ b' st', call' t = some (b', st') → moved b' = moved b) :
    InOrder call' calls number moved l where
  old := h.old
  order := h.order
  mine u b' st' hu := by
    by_cases hut : u = t
    · subst hut
      rw [hmine b' st' hu]
      exact h.mine u b st ht
    · rw [hother u hut] at hu
      exact h.mine u b' st' hu
  apart u v hu hv := by
    have hsome : ∀ w, call' w ≠ none → call w ≠ none := by
      intro w hw
      by_cases hwt : w = t
      · rw [hwt, ht]
        exact Option.some_ne_none _
      · rw [← hother w hwt]
        exact hw
    exact h.apart u v (hsome u hu) (hsome v hv)

/-- A call begins. -/
theorem InOrder.begin (h : InOrder call calls number moved l)
    (hmoved : ∀ i, moved b i = 0) :
    InOrder (fun u => if u = t then some (b, st) else call u) (calls + 1)
      (fun u => if u = t then calls else number u) moved l where
  old i e he := Nat.lt_succ_of_lt (h.old i e he)
  order := h.order
  mine u b' st' hu := by
    by_cases hut : u = t
    · rw [if_pos hut] at hu ⊢
      cases hu
      refine ⟨Nat.lt_succ_self _, fun i => ?_⟩
      rw [hmoved, places_eq_nil (h.old i)]
      rfl
    · rw [if_neg hut] at hu ⊢
      obtain ⟨h1, h2⟩ := h.mine u b' st' hu
      exact ⟨Nat.lt_succ_of_lt h1, h2⟩
  apart u v hu hv huv := by
    have hlt : ∀ w, w ≠ t → (if w = t then some (b, st) else call w) ≠ none → number w < calls := by
      intro w hwt hw
      rw [if_neg hwt] at hw
      obtain ⟨⟨b', st'⟩, hb'⟩ := Option.ne_none_iff_exists'.mp hw
      exact (h.mine w b' st' hb').1
    by_cases hut : u = t
    · by_cases hvt : v = t
      · rw [hut, hvt]
      · have := hlt v hvt hv
        rw [if_pos hut, if_neg hvt] at huv
        omega
    · by_cases hvt : v = t
      · have := hlt u hut hu
        rw [if_neg hut, if_pos hvt] at huv
        omega
      · rw [if_neg hut] at hu
        rw [if_neg hvt] at hv
        rw [if_neg hut, if_neg hvt] at huv
        exact h.apart u v hu hv huv

/-- A call moves its next byte. -/
theorem InOrder.move {b' : BlockCall} {st' : Stage} {i : PipePtr} {j : Nat} {byte : Byte}
    (h : InOrder call calls number moved l) (ht : call t = some (b, st))
    (hother : ∀ u, u ≠ t → call' u = call u) (hmine : call' t = some (b', st'))
    (hj : moved b i = j) (hmoved : ∀ k, moved b' k = if k = i then j + 1 else moved b k) :
    InOrder call' calls number moved
      fun k => if k = i then l i ++ [⟨number t, j, byte⟩] else l k := by
  subst hj
  obtain ⟨hnum, hplaces⟩ := h.mine t b st ht
  have hnew : ∀ k n, places (if k = i then l i ++ [⟨number t, moved b i, byte⟩] else l k) n =
      if k = i ∧ number t = n then List.range (moved b i + 1) else places (l k) n := by
    intro k n
    by_cases hk : k = i
    · subst hk
      rw [if_pos rfl, places_append]
      by_cases hn : number t = n
      · subst hn
        rw [if_pos rfl, if_pos ⟨rfl, rfl⟩, hplaces, List.range_succ]
      · rw [if_neg hn, if_neg fun h0 => hn h0.2]
    · rw [if_neg hk, if_neg fun h0 => hk h0.1]
  have hsome : ∀ u, call' u ≠ none → call u ≠ none := by
    intro u hu
    by_cases hut : u = t
    · rw [hut, ht]
      exact Option.some_ne_none _
    · rw [← hother u hut]
      exact hu
  refine ⟨fun k e he => ?_, fun k n => ?_, fun u b₁ st₁ hu => ?_, fun u v hu hv =>
    h.apart u v (hsome u hu) (hsome v hv)⟩
  · by_cases hk : k = i
    · rw [if_pos hk] at he
      rcases List.mem_append.mp he with he | he
      · exact h.old i e he
      · rw [List.mem_singleton.mp he]
        exact hnum
    · rw [if_neg hk] at he
      exact h.old k e he
  · rw [hnew]
    split
    · exact ⟨_, rfl⟩
    · exact h.order k n
  · by_cases hut : u = t
    · subst hut
      rw [hmine] at hu
      cases hu
      refine ⟨hnum, fun k => ?_⟩
      rw [hnew, hmoved]
      by_cases hk : k = i
      · rw [if_pos ⟨hk, rfl⟩, if_pos hk]
      · rw [if_neg fun h0 => hk h0.1, if_neg hk]
        exact hplaces k
    · rw [hother u hut] at hu
      obtain ⟨h1, h2⟩ := h.mine u b₁ st₁ hu
      refine ⟨h1, fun k => ?_⟩
      have hne : number t ≠ number u := by
        intro h0
        refine hut (h.apart t u ?_ ?_ h0).symm
        · rw [ht]
          exact Option.some_ne_none _
        · rw [hu]
          exact Option.some_ne_none _
      rw [hnew, if_neg fun h0 => hne h0.2]
      exact h2 k

end InOrder

namespace PipeSys

open BlockSys

variable {x y : PipeSys × PipeLog} {b : BlockCall} {st : Stage} {p : ProcPtr} {t u : ThdPtr}
  {c : CpuId} {byte : Byte} {i : PipePtr} {a : PipeAct}

/-- The bytes of a history. -/
def bytes (l : List PipeByte) : List Byte := l.map PipeByte.byte

/-- What has gone into the pipes, when `w`, or come out of them. -/
def logged (l : PipeLog) (w : Bool) : PipePtr → List PipeByte :=
  bif w then l.stored else l.removed

/-- The counters of a pipe bound the bytes that are stored and not removed. -/
def Queued (x : PipeSys × PipeLog) (i : PipePtr) : Prop :=
  ∃ q, bytes (x.2.stored i) = bytes (x.2.removed i) ++ q ∧
    Ring (x.1.pipe i).data (x.1.pipe i).nread (x.1.pipe i).nwrite q

/-- The invariant: what is stored and not removed is what the counters bound, and the bytes of each
call are in order. -/
structure Fifo (x : PipeSys × PipeLog) : Prop where
  locks : Locked x.1
  ring : ∀ i, x.1.freed i = false → Queued x i
  gone : ∀ i, x.1.freed i = true → bytes (x.2.removed i) <+: bytes (x.2.stored i) ∧
    ((x.1.pipe i).nwrite - (x.1.pipe i).nread).toNat ≤ PIPESIZE
  order : ∀ w, InOrder x.1.call x.2.calls x.2.call (BlockCall.moved w) (logged x.2 w)

theorem Fifo.removed_le (h : Fifo x) : bytes (x.2.removed i) <+: bytes (x.2.stored i) := by
  cases hfreed : x.1.freed i with
  | true => exact (h.gone i hfreed).1
  | false =>
    obtain ⟨q, hq, -⟩ := h.ring i hfreed
    exact ⟨q, hq.symm⟩

theorem Fifo.count_le (h : Fifo x) :
    ((x.1.pipe i).nwrite - (x.1.pipe i).nread).toNat ≤ PIPESIZE := by
  cases hfreed : x.1.freed i with
  | true => exact (h.gone i hfreed).2
  | false =>
    obtain ⟨q, -, hring⟩ := h.ring i hfreed
    rw [hring.len]
    exact hring.le

/-- What a move has to see to: the ring of its pipe, and the order of the bytes. -/
theorem Fifo.moves (h : Fifo x) (ht : x.1.call t = some (b, st)) (hb : b.pipe = some i)
    (hm : x.1.Moves c p t byte b st y.1.toBlockSys)
    (hkept : Locked y.1 ∧ y.1.freed = x.1.freed) (helse : ∀ w j, j ≠ i → logged y.2 w j = logged x.2 w j)
    (hring : Queued x i → Queued y i)
    (horder : ∀ w, InOrder y.1.call y.2.calls y.2.call (BlockCall.moved w) (logged y.2 w)) :
    Fifo y := by
  have hstored : ∀ j, j ≠ i → y.2.stored j = x.2.stored j := helse true
  have hremoved : ∀ j, j ≠ i → y.2.removed j = x.2.removed j := helse false
  have hpipe := (hm.frame hb).1
  refine ⟨hkept.1, fun j hj => ?_, fun j hj => ?_, horder⟩
  · rw [hkept.2] at hj
    by_cases hji : j = i
    · subst hji
      exact hring (h.ring j hj)
    · unfold Queued
      rw [hpipe j hji, hstored j hji, hremoved j hji]
      exact h.ring j hj
  · rw [hkept.2] at hj
    have hji : j ≠ i := by
      rintro rfl
      exact h.locks.idle j hj ⟨t, _, ht, hb⟩
    rw [hpipe j hji, hstored j hji, hremoved j hji]
    exact h.gone j hj

theorem logBlock_lock {x : BlockSys} {l : PipeLog} (hst : st = .acquire ∨ st = .slept) :
    x.logBlock t byte l b st = l := by
  rcases hst with rfl | rfl <;> cases b <;> rfl

theorem waits_of_full {x : BlockSys} {n j : Nat} (h : (x.pipe i).Full) : x.waits (.pipewrite i n j) = true :=
  decide_eq_true h.1

theorem logBlock_go {x : BlockSys} {l : PipeLog} {st' : Stage} (hgo : x.Goes p b st st') :
    x.logBlock t byte l b st = l := by
  cases hgo with
  | waits hb | copies hb =>
    subst hb
    rfl
  | full hb hw =>
    subst hb
    refine if_neg fun h0 => ?_
    rw [waits_of_full hw] at h0
    cases h0.2
  | givesUp hb hj hw =>
    subst hb
    refine if_neg fun h0 => ?_
    rw [hw] at h0
    cases h0.2
  | stored hb hj =>
    subst hb
    exact if_neg fun h0 => hj h0.1
  | killed | alive | exited | stays => cases b <;> rfl
  | copied hb hj =>
    subst hb
    exact if_neg hj

theorem pipesize_dvd : PIPESIZE ∣ 2 ^ 32 := by decide
theorem pipesize_lt : PIPESIZE < 2 ^ 32 := by decide

section Moves

variable (h : Fifo x) (hother : ∀ u, u ≠ t → y.1.call u = x.1.call u)
  (hkept : Locked y.1 ∧ y.1.freed = x.1.freed)

include h hother hkept

/-- A move that leaves buffer and counters alone. -/
theorem Fifo.quiet (ht : x.1.call t = some (b, st)) (hb : b.pipe = some i)
    (hm : x.1.Moves c p t byte b st y.1.toBlockSys)
    (hlog : y.2 = x.2) (hsame : ∃ o, y.1.pipe i = { x.1.pipe i with lock := o })
    (hcall : ∀ b' st', y.1.call t = some (b', st') → b' = b) : Fifo y := by
  refine h.moves ht hb hm hkept (fun w j _ => by rw [hlog]) ?_ fun w => ?_
  · obtain ⟨o, ho⟩ := hsame
    unfold Queued
    rw [hlog, ho]
    exact id
  · rw [hlog]
    exact (h.order w).go ht hother fun b' st' h0 => by rw [hcall b' st' h0]

/-- A byte goes in. -/
theorem Fifo.store {n j : Nat} (ht : x.1.call t = some (.pipewrite i n j, .test))
    (hw : x.1.waits (.pipewrite i n j) = false) (hp : y.1.pipe = (x.1.setPipe i fun q => { q with
      data := fun k => if k.val = q.nwrite.toNat % PIPESIZE then byte else q.data k
      nwrite := q.nwrite + 1 }).pipe) (hc : y.1.call t = some (.pipewrite i n (j + 1), .test))
    (hm : x.1.Moves c p t byte (.pipewrite i n j) .test y.1.toBlockSys)
    (hlog : y.2 = x.2.store i ⟨x.2.call t, j, byte⟩) : Fifo y := by
  refine h.moves ht rfl hm hkept (fun w k hk => ?_) ?_ fun w => ?_
  · rw [hlog]
    cases w with
    | true => exact if_neg hk
    | false => rfl
  · rintro ⟨q, hq, hring⟩
    have hroom : q.length < PIPESIZE := by
      refine lt_of_le_of_ne hring.le fun h0 => ?_
      have hwaits : x.1.waits (.pipewrite i n j) = true :=
        decide_eq_true ((hring.full_iff pipesize_lt).mpr h0)
      cases hw.symm.trans hwaits
    refine ⟨q ++ [byte], ?_, ?_⟩
    · rw [hlog]
      show bytes (if i = i then _ else _) = bytes (x.2.removed i) ++ _
      rw [if_pos rfl, ← List.append_assoc, ← hq]
      exact List.map_append
    · rw [hp, setPipe_pipe, if_pos rfl]
      exact hring.push pipesize_dvd pipesize_lt hroom
  · rw [hlog]
    cases w with
    | true =>
      refine (h.order true).move ht hother hc (if_pos ⟨rfl, rfl⟩) fun k => ?_
      by_cases hk : k = i <;> simp [BlockCall.moved, hk]
    | false =>
      refine (h.order false).go ht hother fun b' st' h0 => ?_
      cases hc.symm.trans h0
      rfl

/-- A byte comes out. -/
theorem Fifo.take {n j : Nat} (ht : x.1.call t = some (.piperead i n j, .copy))
    (hne : (x.1.pipe i).nread ≠ (x.1.pipe i).nwrite)
    (hp : y.1.pipe = (x.1.setPipe i fun q => { q with nread := q.nread + 1 }).pipe)
    (hc : y.1.call t = some (.piperead i n (j + 1), .copy))
    (hm : x.1.Moves c p t byte (.piperead i n j) .copy y.1.toBlockSys) (hlog : y.2 = x.2.remove i
      ⟨x.2.call t, j, (x.1.pipe i).data.byte ((x.1.pipe i).nread.toNat % PIPESIZE)⟩) : Fifo y := by
  refine h.moves ht rfl hm hkept (fun w k hk => ?_) ?_ fun w => ?_
  · rw [hlog]
    cases w with
    | true => rfl
    | false => exact if_neg hk
  · rintro ⟨q, hq, hring⟩
    cases q with
    | nil => exact absurd (hring.empty_iff.mpr rfl) hne
    | cons b₀ q =>
      obtain ⟨hpop, hcell⟩ := hring.pop pipesize_dvd pipesize_lt
      have hlt : (x.1.pipe i).nread.toNat % PIPESIZE < PIPESIZE := Nat.mod_lt _ (by decide)
      have hbyte : (x.1.pipe i).data.byte ((x.1.pipe i).nread.toNat % PIPESIZE) = b₀ := by
        unfold Bytes.byte
        rw [dif_pos hlt]
        exact hcell ⟨_, hlt⟩ rfl
      refine ⟨q, ?_, ?_⟩
      · rw [hlog, hbyte]
        show bytes (x.2.stored i) = bytes (if i = i then _ else _) ++ q
        rw [if_pos rfl, hq]
        unfold bytes
        rw [List.map_append, List.append_assoc]
        rfl
      · rw [hp, setPipe_pipe, if_pos rfl]
        exact hpop
  · rw [hlog]
    cases w with
    | true =>
      refine (h.order true).go ht hother fun b' st' h0 => ?_
      cases hc.symm.trans h0
      rfl
    | false =>
      refine (h.order false).move ht hother hc (if_pos ⟨rfl, rfl⟩) fun k => ?_
      by_cases hk : k = i <;> simp [BlockCall.moved, hk]

/-- A step of a loop. -/
theorem Fifo.loop (ht : x.1.call t = some (b, st)) (hb : b.pipe = some i)
    (hm : x.1.Moves c p t byte b st y.1.toBlockSys)
    (hlog : y.2 = x.1.logBlock t byte x.2 b st) : Fifo y := by
  have hsame : ∀ {b₀ : BlockCall} {o}, y.1.call t = some (b₀, o) →
      ∀ b' st', y.1.call t = some (b', st') → b' = b₀ := by
    intro b₀ o hc b' st' h0
    rw [hc] at h0
    cases h0
    rfl
  have hm' := hm
  cases hm with
  | clock hb' => cases hb.symm.trans hb'
  | lock hb' hst hfree hp hc hk =>
    obtain rfl := Option.some.inj (hb'.symm.trans hb)
    rw [logBlock_lock hst] at hlog
    refine h.quiet hother hkept ht hb hm' hlog ⟨some t, ?_⟩ (hsame hc)
    rw [hp, setPipe_pipe, if_pos rfl]
  | go hb' hgo hp hc hk =>
    rw [logBlock_go hgo] at hlog
    exact h.quiet hother hkept ht hb hm' hlog ⟨(x.1.pipe i).lock, by rw [hp]⟩ (hsame hc)
  | store hb' hst hj hw hp hc hk =>
    subst hb' hst
    cases hb
    have hlog := hlog.trans (if_pos ⟨hj, hw⟩)
    exact h.store hother hkept ht hw hp hc hm' hlog
  | take hb' hst hj hne hp hc hk =>
    subst hb' hst
    cases hb
    have hlog := hlog.trans (if_pos ⟨hj, hne⟩)
    exact h.take hother hkept ht hne hp hc hm' hlog
  | poke hb' hst hp hc hk =>
    subst hb' hst
    exact h.quiet hother hkept ht hb hm' hlog ⟨(x.1.pipe i).lock, by rw [hp]⟩ (hsame hc)
  | sleep hb' hst hp hc hk =>
    subst hst
    obtain rfl := Option.some.inj (hb'.symm.trans hb)
    have hlog' : y.2 = x.2 := by
      rw [hlog]
      cases b <;> rfl
    refine h.quiet hother hkept ht hb hm' hlog' ⟨none, ?_⟩ (hsame hc)
    rw [hp, setPipe_pipe, if_pos rfl]
  | wakeup hb' hst hlast hp hc hk =>
    subst hst
    have hlog' : y.2 = x.2 := by
      rw [hlog]
      cases b <;> rfl
    exact h.quiet hother hkept ht hb hm' hlog' ⟨(x.1.pipe i).lock, by rw [hp]⟩
      (hsame hc)
  | leave hb' hst hp hc hk =>
    subst hst
    obtain rfl := Option.some.inj (hb'.symm.trans hb)
    have hlog' : y.2 = x.2 := by
      rw [hlog]
      cases b <;> rfl
    refine h.quiet hother hkept ht hb hm' hlog' ⟨none, ?_⟩ fun b' st' h0 => ?_
    · rw [hp, setPipe_pipe, if_pos rfl]
    · rw [hc] at h0
      cases h0

end Moves

/-- A step that lets bytes and calls alone: it may close an end, or run `kfree` on a page that is
freed. -/
theorem Fifo.aside (h : Fifo x) (hlocks : Locked y.1) (hlog : logged y.2 = logged x.2)
    (hring : ∀ i, y.1.freed i = false → x.1.freed i = false ∧
      (y.1.pipe i).data = (x.1.pipe i).data ∧ (y.1.pipe i).nread = (x.1.pipe i).nread ∧
      (y.1.pipe i).nwrite = (x.1.pipe i).nwrite)
    (hgone : ∀ i, y.1.freed i = true →
      (y.1.pipe i).nread = (x.1.pipe i).nread ∧ (y.1.pipe i).nwrite = (x.1.pipe i).nwrite ∨
      (y.1.pipe i).nread = (y.1.pipe i).nwrite)
    (horder : ∀ w, InOrder y.1.call y.2.calls y.2.call (BlockCall.moved w) (logged y.2 w)) :
    Fifo y := by
  have hstored : y.2.stored = x.2.stored := congrFun hlog true
  have hremoved : y.2.removed = x.2.removed := congrFun hlog false
  refine ⟨hlocks, fun j hj => ?_, fun j hj => ?_, horder⟩
  · obtain ⟨hj, hdata, hr, hw⟩ := hring j hj
    unfold Queued
    rw [hdata, hr, hw, hstored, hremoved]
    exact h.ring j hj
  · rw [hstored, hremoved]
    refine ⟨h.removed_le, ?_⟩
    rcases hgone j hj with ⟨hr, hw⟩ | heq
    · rw [hr, hw]
      exact h.count_le
    · rw [heq, BitVec.sub_self]
      exact Nat.zero_le _

/-- The pipes with their history. -/
def pipeLogged : PipeSys × PipeLog → PipeAct → Option (PipeSys × PipeLog) :=
  recorded step logPipe

theorem Fifo.step (h : Fifo x) (hok : x.1.Orderly a) (hs : pipeLogged x a = some y) : Fifo y := by
  obtain ⟨hstep, hlog⟩ := recorded_eq_some.mp hs
  have hlocks := h.locks.step hok hstep
  cases step_does hstep with
  | kern ha hk hsl hp hc hf =>
    have hlog' : y.2 = x.2 := by
      rcases ha with rfl | ⟨rfl, -⟩ <;> exact hlog
    refine h.aside hlocks (by rw [hlog']) (fun i hi => ?_) (fun i _ => by rw [hp]; exact .inl ⟨rfl, rfl⟩)
      (by rw [hlog', hc]; exact h.order)
    rw [hp]
    exact ⟨hf.2 ▸ hi, rfl, rfl, rfl⟩
  | @enter c e p t ha hr hnone hk hp hc hf =>
    subst ha
    simp only [logPipe, hr] at hlog
    have hzero : ∀ w k, e.call.moved w k = 0 := by
      intro w k
      cases e <;> simp [BlockEntry.call, BlockCall.moved]
    have hcall : y.1.call = fun u => if u = t then some (e.call, .acquire) else x.1.call u := funext hc
    refine h.aside hlocks (by rw [hlog]; rfl) (fun i hi => ?_)
      (fun i _ => by rw [hp]; exact .inl ⟨rfl, rfl⟩) fun w => ?_
    · rw [hp]
      exact ⟨hf.2 ▸ hi, rfl, rfl, rfl⟩
    · rw [hlog, hcall]
      exact (h.order w).begin (hzero w)
  | @loop c byte p t b st ha hr ht hblock hf =>
    subst ha
    simp only [logPipe, hr, ht] at hlog
    have hother := (block_blocked hblock).call
    cases hb : b.pipe with
    | some i =>
      exact h.loop hother ⟨hlocks, hf.2⟩ ht hb (block_moves (h.locks.place t b st i ht hb).1 hb hblock) hlog
    | none =>
      cases b with
      | piperead | pipewrite => cases hb
      | sleep n k =>
        cases clock_moves hblock with
        | clock _ hp hc =>
          have hlog' : y.2 = x.2 := hlog
          have hzero : ∀ w (b : BlockCall), b.pipe = none → ∀ k, b.moved w k = 0 := by
            intro w b hb k
            cases b <;> first | rfl | cases hb
          refine h.aside hlocks (by rw [hlog']) (fun i hi => ?_)
            (fun i _ => by rw [hp]; exact .inl ⟨rfl, rfl⟩) fun w => ?_
          · rw [hp]
            exact ⟨hf.2 ▸ hi, rfl, rfl, rfl⟩
          · rw [hlog']
            refine (h.order w).go ht hother fun b' st' h0 => funext fun k => ?_
            rw [hzero w b' (hc (b', st') h0), hzero w _ rfl]
        | lock h0 | go h0 | sleep h0 | wakeup h0 | leave h0 => cases h0
        | store h0 | take h0 | poke h0 => cases h0
  | @close c i w p t ha hr hnone hfree hk hp hc hf =>
    subst ha
    have hlog' : y.2 = x.2 := hlog
    have hpipe : ∀ j, (y.1.pipe j).data = (x.1.pipe j).data ∧ (y.1.pipe j).nread = (x.1.pipe j).nread ∧
        (y.1.pipe j).nwrite = (x.1.pipe j).nwrite := by
      intro j
      rw [hp, setPipe_pipe]
      split
      · subst j
        cases w <;> exact ⟨rfl, rfl, rfl⟩
      · exact ⟨rfl, rfl, rfl⟩
    refine h.aside hlocks (by rw [hlog']) (fun j hj => ⟨?_, hpipe j⟩) (fun j _ => .inl (hpipe j).2)
      (by rw [hlog', hc]; exact h.order)
    rw [hf, Bool.or_eq_false_iff] at hj
    exact hj.1
  | @kfree c next i t full f ha ht hk hp hpage hc hf =>
    subst ha
    have hlog' : y.2 = x.2 := hlog
    have hpipe : ∀ j, j ≠ i → y.1.pipe j = x.1.pipe j := fun j hj => by rw [hp, setPipe_pipe, if_neg hj]
    refine h.aside hlocks (by rw [hlog']) (fun j hj => ?_) (fun j _ => ?_) (by rw [hlog', hc]; exact h.order)
    · rw [hf] at hj
      have hji : j ≠ i := by
        rintro rfl
        cases hj.symm.trans (h.locks.closes t _ ht)
      rw [hpipe j hji]
      exact ⟨hj, rfl, rfl, rfl⟩
    · by_cases hji : j = i
      · subst hji
        rw [hp, setPipe_pipe, if_pos rfl]
        rcases hpage with rfl | rfl
        · exact .inr rfl
        · exact .inl ⟨rfl, rfl⟩
      · rw [hpipe j hji]
        exact .inl ⟨rfl, rfl⟩

theorem boot_fifo : Fifo (boot, {}) where
  locks := boot_locked
  ring i _ := ⟨[], rfl, .nil _ _⟩
  gone i h0 := by cases h0
  order w := by
    cases w <;> exact ⟨fun i e he => (by cases he), fun i k => ⟨0, rfl⟩,
      fun t b st h0 => (by cases h0), fun t u h0 => absurd rfl h0⟩

theorem fifo_of_reaches (h : Reaches pipeLogged (fun x a => x.1.Orderly a) (boot, {}) x) : Fifo x :=
  h.invariant boot_fifo fun _ _ _ hx hok hs => hx.step hok hs

/-- In every run, the bytes that have come out of a pipe are the first of those that went in, in the
same order; never more than `PIPESIZE` are in it; the bytes of one call, on either side, have the
order of its buffer, and a call that returns a has moved as many; and a `piperead` of at least
one byte that is about to return 0 has the lock of a pipe that is empty and closed for writing. -/
theorem pipe_is_fifo (h : Reaches pipeLogged (fun x a => x.1.Orderly a) (boot, {}) x) (i : PipePtr) :
    bytes (x.2.removed i) <+: bytes (x.2.stored i) ∧
    ((x.1.pipe i).nwrite - (x.1.pipe i).nread).toNat ≤ PIPESIZE ∧
    (∀ k, (∃ m, places (x.2.stored i) k = List.range m) ∧
      ∃ m, places (x.2.removed i) k = List.range m) ∧
    (∀ t n j r, x.1.call t = some (.pipewrite i n j, .leave r) →
      places (x.2.stored i) (x.2.call t) = List.range j ∧ (r = -1 ∨ r = .ofNat 32 n ∧ j = n)) ∧
    ∀ t n j r, x.1.call t = some (.piperead i n j, .leave r) →
      places (x.2.removed i) (x.2.call t) = List.range j ∧ (r = -1 ∧ j = 0 ∨ r = .ofNat 32 j) ∧
      (r = 0 → 0 < n → (x.1.pipe i).lock = some t ∧ (x.1.pipe i).nread = (x.1.pipe i).nwrite ∧
        (x.1.pipe i).writeopen = false) := by
  have hfifo := fifo_of_reaches h
  refine ⟨hfifo.removed_le, hfifo.count_le,
    fun k => ⟨(hfifo.order true).order i k, (hfifo.order false).order i k⟩, fun t n j r ht => ?_,
    fun t n j r ht => ?_⟩
  · have hplaces := ((hfifo.order true).mine t _ _ ht).2 i
    rw [show (BlockCall.pipewrite i n j).moved true i = j from if_pos ⟨rfl, rfl⟩] at hplaces
    refine ⟨hplaces, ?_⟩
    rcases (hfifo.locks.place t _ _ i ht rfl).1 with h0 | h0
    · exact .inr h0
    · exact .inl h0
  · have hplaces := ((hfifo.order false).mine t _ _ ht).2 i
    rw [show (BlockCall.piperead i n j).moved false i = j from if_pos ⟨rfl, rfl⟩] at hplaces
    obtain ⟨hplace, hle, hlt⟩ := hfifo.locks.place t _ _ i ht rfl
    refine ⟨hplaces, hplace.imp id And.left, fun hr hn => ⟨hfifo.locks.held t _ _ i ht rfl rfl, ?_⟩⟩
    rcases hplace with ⟨h0, -⟩ | ⟨h0, hended⟩
    · rw [hr] at h0
      cases h0
    · have hj : j = 0 := by
        have hval := congrArg BitVec.toNat (hr.symm.trans h0)
        rw [BitVec.toNat_ofNat, Nat.mod_eq_of_lt (by omega)] at hval
        exact hval.symm
      exact hended hj hn

/-- The kernel runs beside the pipes. -/
def kerns (l : List Act) : List PipeAct := l.map fun a => .block (.kern a)

/-- The thread on CPU `c` takes steps of its call, with these bytes at hand. -/
def blocks (c : CpuId) (buf : List Byte) : List PipeAct := buf.map fun b => .block (.block c b)

/-- It makes a call. -/
def enters (c : CpuId) (e : BlockEntry) : List PipeAct :=
  [.block (.kern (.syscall c .other)), .block (.enter c e)]

/-- It closes both ends of pipe `i` and frees the page. -/
def closes (c : CpuId) (i : PipePtr) (next : Word) : List PipeAct :=
  [.block (.kern (.syscall c .other)), .close c i false, .close c i true, .kfree c next, .kfree c next]

/-- One thread frees pipe 1 and returns, and writes two bytes to pipe 0; its sibling has read the
first. -/
def pipeRun : List PipeAct :=
  kerns Kernel.siblingsRun ++ closes 1 1 8 ++ kerns (.work 1 (.done 0) :: Kernel.ksteps 1 1) ++
    enters 1 (.pipewrite 0 2) ++ blocks 1 [0, 65, 66, 0, 0, 0] ++
    enters 2 (.piperead 0 1) ++ blocks 2 [0, 0, 0, 0, 0]

theorem pipe_is_fifo_two :
    ∃ x, Reaches pipeLogged (fun x a => x.1.Orderly a) (boot, {}) x ∧
      (x.1.freed 1 = true ∧ bytes (x.2.stored 0) = [65, 66] ∧ bytes (x.2.removed 0) = [65] ∧
        x.1.call 2 = some (.piperead 0 1 1, .leave 1)) ∧
      bytes (x.2.removed 0) <+: bytes (x.2.stored 0) ∧ places (x.2.removed 0) (x.2.call 2) = [0] := by
  have hrun : ∃ x, Reaches pipeLogged (fun x a => x.1.Orderly a) (boot, {}) x ∧
      x.1.freed 1 = true ∧ bytes (x.2.stored 0) = [65, 66] ∧ bytes (x.2.removed 0) = [65] ∧
        x.1.call 2 = some (.piperead 0 1 1, .leave 1) :=
    exists_reaches pipeRun (fun x : PipeSys × PipeLog => x.1.freed 1 = true ∧
      bytes (x.2.stored 0) = [65, 66] ∧ bytes (x.2.removed 0) = [65] ∧
      x.1.call 2 = some (.piperead 0 1 1, .leave 1)) (by decide +kernel)
  obtain ⟨x, hreach, hx⟩ := hrun
  have hfifo := pipe_is_fifo hreach 0
  exact ⟨x, hreach, hx, hfifo.1, (hfifo.2.2.2.2 2 1 1 1 hx.2.2.2).1⟩

/-- Three threads of one process. The first writes a byte; then it and the second stand before the
`acquire` of a `pipewrite` and a `piperead`, while the third closes both ends and frees the page, with
no page on the free list. -/
def freedRun : List PipeAct :=
  kerns (Kernel.siblingsRun ++ [.syscall 1 .threadCreate] ++ Kernel.ksteps 1 7 ++
    [.dispatch 3, .resume 3]) ++
    enters 1 (.pipewrite 0 1) ++ blocks 1 [0, 65, 0, 0, 0] ++ kerns (Kernel.ksteps 1 1) ++
    enters 1 (.pipewrite 0 1) ++ enters 2 (.piperead 0 1) ++ closes 3 0 0 ++
    blocks 1 [0, 66, 0, 0, 0] ++ blocks 2 [0, 0, 0]

/-- The read has returned the second byte, and the first is lost. -/
theorem freed_pipe_loses_byte :
    ∃ x, Reaches pipeLogged (fun _ a => a.IntLength) (boot, {}) x ∧
      bytes (x.2.stored 0) = [65, 66] ∧ bytes (x.2.removed 0) = [66] ∧
      ¬ bytes (x.2.removed 0) <+: bytes (x.2.stored 0) :=
  exists_reaches freedRun (fun x : PipeSys × PipeLog => bytes (x.2.stored 0) = [65, 66] ∧
    bytes (x.2.removed 0) = [66] ∧ ¬ bytes (x.2.removed 0) <+: bytes (x.2.stored 0)) (by decide +kernel)

end PipeSys

end Xv6
