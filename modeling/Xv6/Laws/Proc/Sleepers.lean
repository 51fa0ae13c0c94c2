import Xv6.Laws.Proc.Pipe

/-!
# Who sleeps on a pipe

A reader sleeps while the pipe is empty and open for writing, a writer while it is full and open for
reading. A thread that stores bytes owes the readers a `wakeup(&p->nread)` before it lets go of the
lock, and one that takes bytes owes the writers a `wakeup(&p->nwrite)`; `Sleepers` says that a debt is
only ever that of the thread that has the lock.

`pipewrite` pays before it sleeps and before it returns `n`, but not when it finds the pipe full and
its process killed, or the read end closed: it returns -1 at once. A reader that slept while the
pipe was empty is then left asleep beside a full pipe.
-/

namespace Xv6

open Xv6.Lib

/-- The stages at which a call may owe a wakeup: `pipewrite` to the readers of its pipe, when `w`, and
`piperead` to the writers. -/
def BlockCall.owes (w : Bool) : BlockCall → Stage → Bool
  | .pipewrite .., .test | .pipewrite .., .killed | .pipewrite .., .exited | .pipewrite .., .poke
  | .pipewrite .., .wakeup => w
  | .piperead .., .copy | .piperead .., .wakeup => !w
  | _, _ => false

/-- What the readers of a pipe wait behind, when `w`, or the writers. -/
def Pipe.Blocks (q : Pipe) (w : Bool) : Prop := if w then q.Waiting else q.Full

namespace BlockSys

open Kernel

variable {x y : BlockSys} {b : BlockCall} {st : Stage} {p : ProcPtr} {t u : ThdPtr} {c : CpuId}
  {byte : Byte} {i : PipePtr} {a : PipeAct}

/-- A thread is SLEEPING on a channel. -/
def SleepsOn (x : BlockSys) (t : ThdPtr) (ch : Chan) : Prop :=
  (x.kernel.thread t).state = .sleeping ∧ (x.kernel.thread t).chan = some ch

instance (x : BlockSys) (t : ThdPtr) (ch : Chan) : Decidable (x.SleepsOn t ch) :=
  inferInstanceAs (Decidable (_ ∧ _))

/-- A thread in a call on pipe `i` owes the readers, or the writers. -/
def Owes (x : BlockSys) (w : Bool) (t : ThdPtr) (i : PipePtr) : Prop :=
  ∃ b st, x.call t = some (b, st) ∧ b.pipe = some i ∧ b.owes w st = true

/-- `closeChan i w` is where the readers of `i` sleep, when `w`, and the writers. Nobody sleeps on a
page that is freed. -/
structure Sleepers (x : PipeSys) : Prop where
  locks : x.Locked
  slots : Slots none x.kernel
  blocked : ∀ w i t, x.SleepsOn t (closeChan i w) → (x.pipe i).Blocks w ∨ ∃ u, x.Owes w u i
  gone : ∀ w i t, x.freed i = true → ¬ x.SleepsOn t (closeChan i w)

/-! ## Steps of the kernel -/

theorem closeChan_blocks (w : Bool) : (closeChan i w).blocks = true := by
  cases w <;> simp [closeChan, nreadChan, nwriteChan, Chan.blocks, Nat.add_mod]

theorem closeChan_ne_ticks (w : Bool) : closeChan i w ≠ ticksChan := by
  cases w <;> exact fun h => by cases h

/-- A reader sleeps where `pipeclose` of the write end wakes, and a writer at the other place. -/
theorem chan_eq_closeChan {w : Bool} {j : PipePtr} (hb : b.pipe = some i)
    (h : b.chan = closeChan j w) : j = i ∧ ∃ n k, b = bif w then .piperead i n k else .pipewrite i n k := by
  cases b with
  | sleep => cases hb
  | piperead =>
    cases hb
    cases w with
    | true => exact ⟨(nreadChan_inj h).symm, _, _, rfl⟩
    | false => exact absurd h (nreadChan_ne_nwriteChan _ _)
  | pipewrite =>
    cases hb
    cases w with
    | true => exact absurd h.symm (nreadChan_ne_nwriteChan _ _)
    | false => exact ⟨(nwriteChan_inj h).symm, _, _, rfl⟩

/-- Who sleeps on a pipe after a step slept there before, or has just called `sleep`. -/
theorem sleepsOn_step {k : Act} {ch : Chan} (h : Slots none x.kernel) (hok : x.kernel.ReapsDead k)
    (hs : x.kernel.step k = some y.kernel) (hch : ch.blocks = true) (hsl : y.SleepsOn u ch) :
    x.SleepsOn u ch ∨ ∃ d q, k = .work d (.sleep ch) ∧ x.kernel.onCpu d = some (q, u) := by
  obtain ⟨-, hold | ⟨d, q, ch', hcpu, hon, hch', hwho⟩⟩ := h.asleep_step hok hs hsl.1
  · exact .inl ⟨hold.1, hold.2.symm.trans hsl.2⟩
  · obtain rfl := Option.some.inj (hsl.2.symm.trans hch')
    rcases hwho with rfl | ⟨d', rfl⟩
    · cases hch
    · cases hcpu
      exact .inr ⟨d, q, rfl, hon⟩

/-- After `wakeup(chan)` nobody sleeps there. -/
theorem wakeup_woke {ch : Chan} (h : Slots none x.kernel)
    (hs : x.kernel.step (.work c (.wakeup ch)) = some y.kernel) : ¬ y.SleepsOn u ch := by
  cases steps hs with
  | work _ _ hw =>
    obtain ⟨-, heq⟩ := Option.ite_none_right_eq_some.mp hw
    rw [SleepsOn, ← Option.some.inj heq]
    rintro ⟨hsl, hch⟩
    exact wakeup1_done (fun hu => h.owner u (by rw [hu]; exact .inl (by decide))) hsl hch

/-! ## The condition -/

/-- The pipe on which the step lets a `pipewrite` give up: it is full, and the read end is closed or
the process is on its way out. -/
def givesUp (x : BlockSys) : PipeAct → Option PipePtr
  | .block (.block c _) =>
    match x.runs c with
    | some (p, t) =>
      match x.call t with
      | some (.pipewrite i n j, .test) =>
        if j < n ∧ x.waits (.pipewrite i n j) = true ∧ (x.pipe i).readopen = false then some i else none
      | some (.pipewrite i _ _, .killed) => if (x.kernel.proc p).killed then some i else none
      | some (.pipewrite i _ _, .exited) => if (x.kernel.proc p).exited then some i else none
      | _ => none
    | none => none
  | _ => none

/-- `wait` reaps only dead processes. -/
def PipeReapsDead (x : BlockSys) : PipeAct → Prop
  | .block a => x.ReapsDead a
  | .close _ _ _ | .kfree _ _ => True

instance (x : BlockSys) (a : PipeAct) : Decidable (x.PipeReapsDead a) :=
  match a with
  | .block a => inferInstanceAs (Decidable (x.ReapsDead a))
  | .close _ _ _ | .kfree _ _ => inferInstanceAs (Decidable True)

/-- The runs in which no call meets a page that is freed, and a `pipewrite` never gives up while a
reader of its pipe sleeps. -/
def GivesUpAlone (x : PipeSys) (a : PipeAct) : Prop :=
  (x.Orderly a ∧ x.PipeReapsDead a) ∧ ∀ i ∈ x.givesUp a, ∀ t, ¬ x.SleepsOn t (nreadChan i)

instance (x : PipeSys) (a : PipeAct) : Decidable (GivesUpAlone x a) :=
  @instDecidableAnd _ _ inferInstance (x.givesUp a).decidableForallMem

/-- A call that turns to its return without a `wakeup` is a `pipewrite` that gives up. -/
theorem Goes.owes {w : Bool} {st' : Stage} (hr : x.runs c = some (p, t))
    (ht : x.call t = some (b, st)) (hb : b.pipe = some i) (hgo : x.Goes p b st st')
    (hst : b.owes w st = true) :
    b.owes w st' = true ∨ w = true ∧ x.givesUp (.block (.block c byte)) = some i := by
  cases b with
  | sleep => cases hb
  | piperead =>
    cases hgo with
    | copied => exact .inl hst
    | full h0 | givesUp h0 | stored h0 => cases h0
    | waits | copies | killed | alive | exited | stays => cases hst
  | pipewrite i n j =>
    cases hb
    cases hgo with
    | waits h0 | copies h0 | copied h0 => cases h0
    | full | stored | alive | stays => exact .inl hst
    | givesUp h0 hj hw hro =>
      cases h0
      refine .inr ⟨hst, ?_⟩
      simp only [BlockSys.givesUp, hr, ht]
      exact if_pos ⟨hj, hw, hro⟩
    | killed hk | exited hk =>
      refine .inr ⟨hst, ?_⟩
      simp only [BlockSys.givesUp, hr, ht]
      exact if_pos hk

/-! ## Steps of a loop -/

/-- A debt on the pipe of the mover is the mover's own. -/
theorem Locks.owner {b' : BlockCall} {st' : Stage} (h : Locks x) (ht : x.call t = some (b, st))
    (hb : b.pipe = some i) (hm : x.Moves c p t byte b st y) (hu : x.call u = some (b', st'))
    (hb' : b'.pipe = some i) (hst : st'.holds = true) : u = t := by
  have hlock := h.held u b' st' i hu hb' hst
  rcases h.mover ht hb hm with h0 | h0
  · rw [h0] at hlock
    cases hlock
  · exact Option.some.inj (hlock.symm.trans h0)

theorem owes_holds {w : Bool} (h : b.owes w st = true) : st.holds = true := by
  cases b <;> cases st <;> first | rfl | cases h

/-- The last `wakeup` of a call pays what the call owes. -/
theorem wakeup_chan {w : Bool} {ch : Chan} {r : Word} (hb : b.pipe = some i)
    (hw : b.owes w .wakeup = true) (hlast : last b = (some ch, r)) : closeChan i w = ch := by
  cases b <;> cases w <;> first | (cases hw; done) | (cases hb; cases hlast; rfl)

/-- Who sleeps on a pipe after a move slept there before, or is the mover. -/
theorem Moves.sleepsOn {ch : Chan} (hm : x.Moves c p t byte b st y) (h : Slots none x.kernel)
    (hb : b.pipe = some i) (hch : ch.blocks = true) (hsl : y.SleepsOn u ch) :
    x.SleepsOn u ch ∨ st = .sleep ∧ b.chan = ch := by
  have hsame : y.kernel = x.kernel → x.SleepsOn u ch ∨ st = .sleep ∧ b.chan = ch := by
    intro hk
    left
    unfold SleepsOn at hsl
    rw [hk] at hsl
    exact hsl
  have hwork : ∀ w, (∀ ch', w ≠ .sleep ch') → x.kernel.step (.work c w) = some y.kernel →
      x.SleepsOn u ch ∨ st = .sleep ∧ b.chan = ch := by
    intro w hw hk
    rcases sleepsOn_step (k := .work c w) h trivial hk hch hsl with h0 | ⟨d, q, h0, -⟩
    · exact .inl h0
    · cases h0
      exact absurd rfl (hw ch)
  cases hm with
  | clock hb' =>
    rw [hb] at hb'
    cases hb'
  | lock _ _ _ _ _ hk => exact hsame hk
  | go _ _ _ _ hk => exact hsame hk
  | store _ _ _ _ _ _ hk => exact hsame hk
  | take _ _ _ _ _ _ hk => exact hsame hk
  | poke _ _ _ _ hk => exact hwork _ (fun ch' h0 => by cases h0) hk
  | wakeup _ _ _ _ _ hk => exact hwork _ (fun ch' h0 => by cases h0) hk
  | leave _ _ _ _ hk => exact hwork _ (fun ch' h0 => by cases h0) hk
  | sleep _ hst _ _ hk =>
    rcases sleepsOn_step (k := .work c (.sleep b.chan)) h trivial hk hch hsl with h0 | ⟨d, q, h0, -⟩
    · exact .inl h0
    · cases h0
      exact .inr ⟨hst, rfl⟩

variable {x y : PipeSys}

/-- What the mover does to the threads that sleep on its pipe: they are still blocked, or somebody owes
them. -/
theorem Sleepers.here {w : Bool} (h : Sleepers x) (hr : x.runs c = some (p, t))
    (ht : x.call t = some (b, st)) (hb : b.pipe = some i) (hm : x.Moves c p t byte b st y.toBlockSys)
    (hcond : ∀ i ∈ x.givesUp (.block (.block c byte)), ∀ t, ¬ x.SleepsOn t (nreadChan i))
    (hsl : y.SleepsOn u (closeChan i w)) : (y.pipe i).Blocks w ∨ ∃ v, y.Owes w v i := by
  obtain ⟨hplace, -⟩ := h.locks.place t b st i ht hb
  -- a debt is the mover's, and a step that only sets the lock leaves the pipe as full as it was
  have hpay : (∃ v, x.Owes w v i) → b.owes w st = true := by
    rintro ⟨v, b', st', hv, hb', hst'⟩
    obtain rfl := h.locks.owner ht hb hm hv hb' (owes_holds hst')
    cases ht.symm.trans hv
    exact hst'
  have hlock : ∀ o, y.pipe = (x.setPipe i fun q => { q with lock := o }).pipe →
      (x.pipe i).Blocks w → (y.pipe i).Blocks w := by
    intro o hp hx
    rw [hp, setPipe_pipe, if_pos rfl]
    exact hx
  rcases hm.sleepsOn h.slots hb (closeChan_blocks w) hsl with hold | ⟨rfl, hch⟩
  · have hx := h.blocked w i u hold
    cases hm with
    | clock hb' => cases hb.symm.trans hb'
    | lock hb' hst hfree hp =>
      cases hb.symm.trans hb'
      refine .inl (hlock _ hp (hx.resolve_right fun h0 => ?_))
      have := hpay h0
      rcases hst with rfl | rfl <;> cases b <;> cases this
    | sleep hb' hst hp =>
      cases hb.symm.trans hb'
      subst hst
      refine .inl (hlock _ hp (hx.resolve_right fun h0 => ?_))
      have := hpay h0
      cases b <;> cases this
    | leave hb' hst hp =>
      cases hb.symm.trans hb'
      subst hst
      refine .inl (hlock _ hp (hx.resolve_right fun h0 => ?_))
      have := hpay h0
      cases b <;> cases this
    | go _ hgo hp hc =>
      rcases hx with hx | hx
      · exact .inl (by rw [hp]; exact hx)
      · rcases hgo.owes hr ht hb (hpay hx) with h1 | ⟨rfl, h1⟩
        · exact .inr ⟨t, b, _, hc, hb, h1⟩
        · exact absurd hold (hcond i h1 u)
    | store hb' hst _ hw _ hc =>
      subst hb' hst
      cases hb
      cases w with
      | true => exact .inr ⟨t, _, _, hc, rfl, rfl⟩
      | false =>
        have hfull : (x.pipe i).Full := hx.resolve_right fun h0 => by cases hpay h0
        rw [PipeSys.waits_of_full hfull] at hw
        cases hw
    | take hb' hst _ hne _ hc =>
      subst hb' hst
      cases hb
      cases w with
      | true =>
        have hwait : (x.pipe i).Waiting := hx.resolve_right fun h0 => by cases hpay h0
        exact absurd hwait.1 hne
      | false => exact .inr ⟨t, _, _, hc, rfl, rfl⟩
    | poke hb' hst hp hc hk =>
      subst hb' hst
      cases hb
      cases w with
      | true => exact absurd hsl (wakeup_woke h.slots hk)
      | false => exact .inl (by rw [hp]; exact hx.resolve_right fun h0 => by cases hpay h0)
    | wakeup hb' hst hlast hp hc hk =>
      subst hst
      by_cases hw : b.owes w .wakeup = true
      · have hchan : closeChan i w = _ := wakeup_chan hb hw hlast
        exact absurd (hchan ▸ hsl) (wakeup_woke h.slots hk)
      · exact .inl (by rw [hp]; exact hx.resolve_right fun h0 => hw (hpay h0))
  · -- the mover itself goes to sleep
    obtain ⟨-, n, j, rfl⟩ := chan_eq_closeChan hb hch
    cases hm with
    | sleep hb' _ hp =>
      cases hb.symm.trans hb'
      refine .inl (hlock _ hp ?_)
      cases w with
      | true => exact hplace.2
      | false => exact hplace
    | lock _ hst => rcases hst with h0 | h0 <;> cases h0
    | go _ hgo => cases hgo
    | clock h0 => cases hb.symm.trans h0
    | store _ h0 | take _ h0 | poke _ h0 | wakeup _ h0 | leave _ h0 => cases h0

/-- A step of a loop on a pipe. -/
theorem Sleepers.loop (h : Sleepers x) (hr : x.runs c = some (p, t)) (ht : x.call t = some (b, st))
    (hb : b.pipe = some i) (hm : x.Moves c p t byte b st y.toBlockSys)
    (hother : ∀ u, u ≠ t → y.call u = x.call u) (hlocks : y.Locked) (hslots : Slots none y.kernel)
    (hfreed : y.freed = x.freed)
    (hcond : ∀ i ∈ x.givesUp (.block (.block c byte)), ∀ t, ¬ x.SleepsOn t (nreadChan i)) :
    Sleepers y where
  locks := hlocks
  slots := hslots
  gone w k u hk hsl := by
    rw [hfreed] at hk
    rcases hm.sleepsOn h.slots hb (closeChan_blocks w) hsl with hold | ⟨-, hch⟩
    · exact h.gone w k u hk hold
    · obtain ⟨rfl, -⟩ := chan_eq_closeChan hb hch
      exact h.locks.idle k hk ⟨t, _, ht, hb⟩
  blocked w k u hsl := by
    by_cases hk : k = i
    · subst hk
      exact h.here hr ht hb hm hcond hsl
    · rw [(hm.frame hb).1 k hk]
      rcases hm.sleepsOn h.slots hb (closeChan_blocks w) hsl with hold | ⟨-, hch⟩
      · refine (h.blocked w k u hold).imp id fun ⟨v, b', st', hv, hb', hst'⟩ => ?_
        refine ⟨v, b', st', (hother v ?_).trans hv, hb', hst'⟩
        -- the mover's debts are on its own pipe
        rintro rfl
        cases ht.symm.trans hv
        exact hk (Option.some.inj (hb'.symm.trans hb))
      · exact absurd (chan_eq_closeChan hb hch).1 hk

/-- A step that puts nobody to sleep on a pipe, and moves on none but a page that is freed. -/
theorem Sleepers.aside (h : Sleepers x) (hlocks : y.Locked) (hslots : Slots none y.kernel)
    (hsleep : ∀ u ch, ch.blocks = true → ch ≠ ticksChan → y.SleepsOn u ch → x.SleepsOn u ch)
    (hfreed : y.freed = x.freed) (hp : ∀ k, x.freed k = false → y.pipe k = x.pipe k)
    (hcall : ∀ u b st, x.call u = some (b, st) → b.pipe ≠ none → y.call u = some (b, st)) :
    Sleepers y := by
  have hold : ∀ w k u, y.SleepsOn u (closeChan k w) → x.SleepsOn u (closeChan k w) := fun w k u hsl =>
    hsleep u _ (closeChan_blocks w) (closeChan_ne_ticks w) hsl
  refine ⟨hlocks, hslots, fun w k u hsl => ?_, fun w k u hk hsl =>
    h.gone w k u (hfreed ▸ hk) (hold w k u hsl)⟩
  have halive : x.freed k = false := by
    by_contra hk
    exact h.gone w k u (Bool.not_eq_false _ ▸ hk) (hold w k u hsl)
  rw [hp k halive]
  refine (h.blocked w k u (hold w k u hsl)).imp id fun ⟨v, b, st, hv, hb, hst⟩ => ⟨v, b, st, ?_, hb, hst⟩
  exact hcall v b st hv (by simp [hb])

/-- With the lock free nobody owes anything. -/
theorem Locks.settled {x : BlockSys} (h : Locks x) (hfree : (x.pipe i).lock = none) (w : Bool) :
    ¬ ∃ u, x.Owes w u i := by
  rintro ⟨u, b, st, hu, hb, hst⟩
  cases hfree.symm.trans (h.held u b st i hu hb (owes_holds hst))

/-- `pipeclose` wakes the threads that wait for the end it closes. -/
theorem Sleepers.close {w : Bool} (h : Sleepers x) (hlocks : y.Locked) (hslots : Slots none y.kernel)
    (hfree : (x.pipe i).lock = none)
    (hk : x.kernel.step (.work c (.wakeup (closeChan i w))) = some y.kernel)
    (hp : y.pipe = (x.setPipe i fun q => q.closed w).pipe) (hc : y.call = x.call)
    (hf : ∀ j, y.freed j = (x.freed j || (j = i && (x.pipe i).lastEnd w))) : Sleepers y := by
  have hold : ∀ w' k u, y.SleepsOn u (closeChan k w') → x.SleepsOn u (closeChan k w') := by
    intro w' k u hsl
    rcases sleepsOn_step (k := .work c _) h.slots trivial hk (closeChan_blocks w') hsl with
      h0 | ⟨d, q, h0, -⟩
    · exact h0
    · cases h0
  -- who still sleeps on the pipe waits for the end that stays open, so the page is not freed
  have hopen : ∀ w' u, y.SleepsOn u (closeChan i w') →
      w' ≠ w ∧ (x.pipe i).Blocks w' ∧ (x.pipe i).lastEnd w = false := by
    intro w' u hsl
    have hblocks := (h.blocked w' i u (hold w' i u hsl)).resolve_right (h.locks.settled hfree w')
    have hw : w' ≠ w := by
      rintro rfl
      exact wakeup_woke h.slots hk hsl
    refine ⟨hw, hblocks, ?_⟩
    cases w <;> cases w' <;> first | exact absurd rfl hw | exact congrArg not hblocks.2
  refine ⟨hlocks, hslots, fun w' k u hsl => ?_, fun w' k u hfreed hsl => ?_⟩
  · rw [hp, setPipe_pipe]
    by_cases hki : k = i
    · subst hki
      rw [if_pos rfl]
      left
      obtain ⟨hw, hblocks, -⟩ := hopen w' u hsl
      cases w <;> cases w' <;> first | exact absurd rfl hw | exact hblocks
    · rw [if_neg hki]
      unfold Owes
      rw [hc]
      exact h.blocked w' k u (hold w' k u hsl)
  · rw [hf, Bool.or_eq_true, Bool.and_eq_true] at hfreed
    rcases hfreed with h0 | ⟨hki, hlast⟩
    · exact h.gone w' k u h0 (hold w' k u hsl)
    · obtain rfl := of_decide_eq_true hki
      rw [(hopen w' u hsl).2.2] at hlast
      cases hlast

theorem Sleepers.step (h : Sleepers x) (hok : GivesUpAlone x a) (hs : x.step a = some y) :
    Sleepers y := by
  have hlocks := h.locks.step hok.1.1 hs
  cases PipeSys.step_does hs with
  | @kern k ha hk hsleep hp hc hf =>
    have hreaps : x.kernel.ReapsDead k := by
      rcases ha with rfl | ⟨-, rfl⟩
      · exact hok.1.2
      · trivial
    refine h.aside hlocks (h.slots.step hreaps hk) (fun u ch hch _ hsl => ?_) hf.2
      (fun _ _ => by rw [hp]) fun u b st hu _ => by rw [hc]; exact hu
    rcases sleepsOn_step h.slots hreaps hk hch hsl with h0 | ⟨d, q, h0, hon⟩
    · exact h0
    · rw [hsleep d ch q u h0 hon] at hch
      cases hch
  | @enter c e p t ha hr hnone hk hp hc hf =>
    refine h.aside hlocks (hk ▸ h.slots) (fun u ch _ _ hsl => ?_) hf.2 (fun _ _ => by rw [hp])
      fun u b st hu _ => ?_
    · unfold SleepsOn at hsl
      rw [hk] at hsl
      exact hsl
    · rw [hc, if_neg ?_]
      · exact hu
      · rintro rfl
        rw [hnone] at hu
        cases hu
  | @loop c byte p t b st ha hr ht hblock hf =>
    subst ha
    have hother := (block_blocked hblock).call
    have hslots : Slots none y.kernel := by
      rcases (block_blocked hblock).kernel with h0 | ⟨w, hw, -⟩
      · rw [h0]
        exact h.slots
      · exact h.slots.step (a := .work c w) trivial hw
    cases hb : b.pipe with
    | some i =>
      exact h.loop hr ht hb (block_moves (h.locks.place t b st i ht hb).1 hb hblock) hother hlocks
        hslots hf.2 hok.2
    | none =>
      cases b with
      | piperead | pipewrite => cases hb
      | sleep n k =>
        cases clock_moves hblock with
        | clock _ hp hc hk =>
          refine h.aside hlocks hslots (fun u ch hch htick hsl => ?_) hf.2 (fun _ _ => by rw [hp])
            fun u b st hu hne => ?_
          · rcases hk with hk | ⟨w, hk, hw⟩
            · unfold SleepsOn at hsl
              rw [hk] at hsl
              exact hsl
            · rcases sleepsOn_step (k := .work c w) h.slots trivial hk hch hsl with h0 | ⟨d, q, h0, -⟩
              · exact h0
              · cases h0
                exact absurd (hw ch rfl) htick
          · rw [hother u ?_]
            · exact hu
            · rintro rfl
              rw [ht] at hu
              cases hu
              exact hne rfl
        | lock h0 | go h0 | sleep h0 | wakeup h0 | leave h0 => cases h0
        | store h0 | take h0 | poke h0 => cases h0
  | close ha hr hnone hfree hk hp hc hf =>
    exact h.close hlocks (h.slots.step (a := .work _ _) trivial hk) hfree hk hp hc hf
  | @kfree c next i t full f ha ht hk hp _ hc hf =>
    refine h.aside hlocks (hk ▸ h.slots) (fun u ch _ _ hsl => ?_) hf (fun k halive => ?_)
      fun u b st hu _ => hc ▸ hu
    · unfold SleepsOn at hsl
      rw [hk] at hsl
      exact hsl
    · rw [hp, setPipe_pipe, if_neg]
      rintro rfl
      cases halive.symm.trans (h.locks.closes t _ ht)

theorem boot_sleepers : Sleepers .boot where
  locks := PipeSys.boot_locked
  gone _ _ _ h0 := by cases h0
  slots := boot_slots
  blocked _ _ t h0 := by
    have : ∀ t : ThdPtr, (Kernel.boot.thread t).state ≠ .sleeping := by decide +kernel
    exact absurd h0.1 (this t)

/-- In every run in which a `pipewrite` gives up on a full pipe only while no reader sleeps there, and
the second end of a pipe is closed only while no call on it is in progress, whenever the lock of a
pipe is free its sleeping readers wait for bytes and its sleeping writers for room. -/
theorem sleepers_wait (h : Reaches PipeSys.step GivesUpAlone .boot x)
    (hfree : (x.pipe i).lock = none) (hsl : (x.kernel.thread t).state = .sleeping) :
    ((x.kernel.thread t).chan = some (nreadChan i) →
      (x.pipe i).nread = (x.pipe i).nwrite ∧ (x.pipe i).writeopen = true) ∧
    ((x.kernel.thread t).chan = some (nwriteChan i) →
      (x.pipe i).nwrite = (x.pipe i).nread + .ofNat 32 PIPESIZE ∧ (x.pipe i).readopen = true) := by
  have hx : Sleepers x := h.invariant boot_sleepers fun _ _ _ hx hok hs => hx.step hok hs
  have hsettled := hx.locks.settled hfree
  exact ⟨fun hch => (hx.blocked true i t ⟨hsl, hch⟩).resolve_right (hsettled true),
    fun hch => (hx.blocked false i t ⟨hsl, hch⟩).resolve_right (hsettled false)⟩

/-- A reader of process 0 sleeps on an empty pipe. -/
def readerRun : List PipeAct :=
  (siblingsRun.map BlockAct.kern ++ blockActs 0 (.piperead 0 1) 5).map .block

theorem sleepers_wait_reader :
    ∃ x, Reaches PipeSys.step GivesUpAlone .boot x ∧ ((x.pipe 0).lock = none ∧
      (x.kernel.thread 0).state = .sleeping ∧ (x.kernel.thread 0).chan = some (nreadChan 0)) ∧
      (x.pipe 0).nread = (x.pipe 0).nwrite := by
  have hrun : ∃ x, Reaches PipeSys.step GivesUpAlone .boot x ∧ (x.pipe 0).lock = none ∧
      (x.kernel.thread 0).state = .sleeping ∧ (x.kernel.thread 0).chan = some (nreadChan 0) :=
    exists_reaches readerRun (fun x : PipeSys => (x.pipe 0).lock = none ∧
      (x.kernel.thread 0).state = .sleeping ∧ (x.kernel.thread 0).chan = some (nreadChan 0))
      (by decide +kernel)
  obtain ⟨x, hreach, hx⟩ := hrun
  exact ⟨x, hreach, hx, ((sleepers_wait hreach hx.1 hx.2.1).1 hx.2.2).1⟩

/-- Then a thread of process 1 fills the pipe, its sibling kills the process, and the thread returns
from `pipewrite` with -1. -/
def giveUpRun : List PipeAct :=
  readerRun ++ (blockActs 1 (.pipewrite 0 513) 514 ++
    (Act.syscall 2 (.kill 2) :: ksteps 2 1).map BlockAct.kern ++
    List.replicate 2 (BlockAct.block 1 0)).map .block

/-- The reader still sleeps, the pipe is full, and both locks are free. -/
theorem reader_sleeps_beside_full_pipe :
    ∃ x, Reaches PipeSys.step (fun x a => x.Orderly a ∧ x.PipeReapsDead a) .boot x ∧
      ((x.pipe 0).lock = none ∧ x.kernel.lock = none) ∧
      ((x.kernel.thread 0).state = .sleeping ∧ (x.kernel.thread 0).chan = some (nreadChan 0)) ∧
      ((x.pipe 0).nwrite = (x.pipe 0).nread + .ofNat 32 PIPESIZE ∧ (x.pipe 0).readopen = true) ∧
      x.call 1 = none ∧ (x.kernel.thread 1).eax = -1 :=
  exists_reaches giveUpRun (fun x : PipeSys => ((x.pipe 0).lock = none ∧ x.kernel.lock = none) ∧
    ((x.kernel.thread 0).state = .sleeping ∧ (x.kernel.thread 0).chan = some (nreadChan 0)) ∧
    ((x.pipe 0).nwrite = (x.pipe 0).nread + .ofNat 32 PIPESIZE ∧ (x.pipe 0).readopen = true) ∧
    x.call 1 = none ∧ (x.kernel.thread 1).eax = -1) (by decide +kernel)

end BlockSys

end Xv6
