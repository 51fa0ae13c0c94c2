import Xv6.Lib.Ring
import Xv6.Sys.Console

/-!
# The console is a line editor

`Line` is what the console is for: a line that is typed can be changed until its end is typed, and from
then on it is there to be read, once. The ring of `console.c` with its three counters, which wrap
around, is that editor in every run (`Shows`), for any number of readers that sleep and wake in
any order.
-/

namespace Xv6

open Xv6.Lib

/-- What can be read, and what is still being typed. `sent` and `got` are history: all that could
ever be read, and all that was stored by a reader. -/
structure Line where
  lines : List Byte := []
  edit : List Byte := []
  sent : List Byte := []
  got : List Byte := []

namespace Line

/-- A character that is no command. A full console takes no more, so it ends the line. -/
def add (l : Line) (c : Byte) : Line :=
  if c = NL ∨ c = EOF ∨ l.lines.length + l.edit.length + 1 = INPUT_BUF then
    { l with lines := l.lines ++ (l.edit ++ [c]), edit := [], sent := l.sent ++ (l.edit ++ [c]) }
  else { l with edit := l.edit ++ [c] }

/-- A key. -/
def key (l : Line) (c : Byte) : Line :=
  if c = 0x10#8 then l
  else if c = 0x15#8 then { l with edit := [] }
  else if c = 0x08#8 ∨ c = 0x7f#8 then { l with edit := l.edit.dropLast }
  else if c ≠ 0 ∧ l.lines.length + l.edit.length < INPUT_BUF then
    l.add (if c = 0x0d#8 then NL else c)
  else l

theorem key_got (l : Line) (c : Byte) : (l.key c).got = l.got := by
  unfold key add
  split_ifs <;> rfl

/-- What a reader with `n` of `target` bytes to go gets, and what it leaves: an end of file that is not
the first thing it meets stays for the next call. -/
def take (target : Nat) : Nat → List Byte → List Byte × List Byte
  | 0, ls => ([], ls)
  | _ + 1, [] => ([], [])
  | n + 1, c :: ls =>
    if c = EOF then ([], if n + 1 < target then c :: ls else ls)
    else if c = NL then ([c], ls)
    else (take target n ls).map (c :: ·) id

def step (l : Line) : ConsAct → Line
  | .key c => l.key c
  | .read target n => { l with
      lines := (take target n l.lines).2
      got := l.got ++ (take target n l.lines).1 }

/-- A read takes from the front, and stores all that it takes but an end of file. -/
theorem take_spec (target n : Nat) (ls : List Byte) : ∃ taken,
    ls = taken ++ (take target n ls).2 ∧ (take target n ls).1 = taken.filter (· ≠ EOF) := by
  fun_induction take target n ls with
  | case1 ls => exact ⟨[], rfl, rfl⟩
  | case2 n => exact ⟨[], rfl, rfl⟩
  | case3 n ls =>
    split
    · exact ⟨[], rfl, rfl⟩
    · exact ⟨[EOF], rfl, rfl⟩
  | case4 n ls h => exact ⟨[NL], rfl, rfl⟩
  | case5 n c ls h1 h2 ih =>
    obtain ⟨taken, hls, hgot⟩ := ih
    refine ⟨c :: taken, congrArg (c :: ·) hls, ?_⟩
    rw [List.filter_cons_of_pos (by simpa using h1), ← hgot]
    rfl

/-- What could be read was stored by a reader, or is still there. -/
def Kept (l : Line) : Prop :=
  ∃ taken, l.sent = taken ++ l.lines ∧ l.got = taken.filter (· ≠ EOF)

theorem Kept.step {l : Line} (h : l.Kept) (a : ConsAct) : (l.step a).Kept := by
  obtain ⟨taken, hsent, hgot⟩ := h
  cases a with
  | key c =>
    unfold Line.step key add
    dsimp only
    split_ifs
    all_goals refine ⟨taken, ?_, hgot⟩
    all_goals first | exact hsent | exact hsent ▸ List.append_assoc ..
  | read target n =>
    obtain ⟨more, hls, hmore⟩ := take_spec target n l.lines
    refine ⟨taken ++ more, ?_, ?_⟩
    · rw [List.append_assoc]
      exact hls ▸ hsent
    · rw [List.filter_append, ← hgot, ← hmore]
      rfl

end Line

namespace Input

variable {x : Input} {l : Line} {ls es q : List Byte} {b c : Byte}

/-- The ring holds the lines `ls` and behind them the line `es`, with `w` in between. -/
structure Shows (x : Input) (ls es : List Byte) : Prop where
  ring : Ring x.buf x.r x.e (ls ++ es)
  mark : x.w = x.r + .ofNat 32 ls.length
  unended : NL ∉ es

theorem char_eq {i : Word} (h : ∀ k : Fin INPUT_BUF, k.val = i.toNat % INPUT_BUF → x.buf k = b) :
    x.char i = b := by
  have hlt : i.toNat % INPUT_BUF < INPUT_BUF := Nat.mod_lt _ (by decide)
  exact (Bytes.byte_val x.buf ⟨_, hlt⟩).trans (h ⟨_, hlt⟩ rfl)

namespace Shows

theorem length_le (h : Shows x ls es) : ls.length + es.length ≤ INPUT_BUF := by
  rw [← List.length_append]
  exact h.ring.le

theorem edit_iff (h : Shows x ls es) : x.e = x.w ↔ es = [] := by
  have hle := h.length_le
  rw [h.mark, h.ring.tail_iff (by decide) (by omega), List.length_append, ← List.length_eq_zero_iff]
  omega

theorem lines_iff (h : Shows x ls es) : x.r = x.w ↔ ls = [] := by
  have hle := h.length_le
  rw [h.mark, (Ring.nil x.buf x.r).tail_iff (by decide) (by omega), ← List.length_eq_zero_iff]
  exact eq_comm

/-- The last character of the line is taken off. -/
theorem back (h : Shows x ls (q ++ [b])) :
    x.e ≠ x.w ∧ Shows { x with e := x.e - 1 } ls q ∧ x.char (x.e - 1) = b := by
  have hring := h.ring
  rw [← List.append_assoc] at hring
  obtain ⟨hring, hb⟩ := hring.unpush (by decide) (by decide)
  refine ⟨fun h0 => ?_, ⟨hring, h.mark, fun h0 => h.unended (List.mem_append_left _ h0)⟩, char_eq hb⟩
  exact List.append_ne_nil_of_right_ne_nil q (List.cons_ne_nil b []) (h.edit_iff.mp h0)

theorem killLine : ∀ (n : Nat) {x : Input} {es : List Byte}, Shows x ls es → es.length ≤ n →
    Shows (killLine n x) ls [] := by
  intro n
  induction n with
  | zero =>
    intro x es h hn
    rw [← List.length_eq_zero_iff.mp (Nat.le_zero.mp hn)]
    exact h
  | succ n ih =>
    intro x es h hn
    unfold Input.killLine
    rcases List.eq_nil_or_concat' es with rfl | ⟨q, b, rfl⟩
    · rw [if_neg fun h0 => h0.1 (h.edit_iff.mpr rfl)]
      exact h
    · obtain ⟨hne, hback, hb⟩ := h.back
      have hnl : b ≠ NL := fun h0 => h.unended (by rw [h0]; exact List.mem_concat_self)
      rw [List.length_append] at hn
      rw [if_pos ⟨hne, hb.symm ▸ hnl⟩]
      exact ih hback (Nat.le_of_succ_le_succ hn)

theorem put (h : Shows x l.lines l.edit) (hroom : l.lines.length + l.edit.length < INPUT_BUF) :
    Shows (x.put c) (l.add c).lines (l.add c).edit := by
  have hpush := h.ring.push (b := c) (by decide) (by decide) (by rw [List.length_append]; exact hroom)
  rw [List.append_assoc] at hpush
  have hlen : (l.lines ++ (l.edit ++ [c])).length = l.lines.length + l.edit.length + 1 := by
    rw [List.length_append, List.length_append, Nat.add_assoc]
    rfl
  have hfull := hpush.full_iff (by decide)
  rw [hlen] at hfull
  unfold Input.put Line.add
  simp only [hfull]
  split
  next =>
    refine ⟨?_, hpush.tail_eq, List.not_mem_nil⟩
    rw [List.append_nil]
    exact hpush
  next hend =>
    refine ⟨hpush, h.mark, fun h0 => ?_⟩
    rcases List.mem_append.mp h0 with h0 | h0
    · exact h.unended h0
    · exact hend (.inl (List.mem_singleton.mp h0).symm)

theorem key (h : Shows x l.lines l.edit) :
    Shows (x.consoleintr c) (l.key c).lines (l.key c).edit := by
  have hle := h.length_le
  have hroom : x.e - x.r < .ofNat 32 INPUT_BUF ↔ l.lines.length + l.edit.length < INPUT_BUF := by
    rw [BitVec.lt_def, h.ring.len, List.length_append]
    rfl
  unfold consoleintr Line.key
  simp only [hroom]
  split
  next => exact h
  next =>
    split
    next => exact h.killLine _ (by omega)
    next =>
      split
      next =>
        dsimp only
        generalize l.edit = es at h
        rcases List.eq_nil_or_concat' es with rfl | ⟨q, b, rfl⟩
        · rw [if_neg fun h0 => h0 (h.edit_iff.mpr rfl)]
          exact h
        · obtain ⟨hne, hback, -⟩ := h.back
          rw [if_pos hne, List.dropLast_concat]
          exact hback
      next =>
        split
        next hin => exact h.put hin.2
        next => exact h

theorem read (target : Nat) : ∀ (n : Nat) {x : Input} {ls : List Byte}, Shows x ls es →
    (x.consoleread target n).1 = (Line.take target n ls).1 ∧
      Shows (x.consoleread target n).2 (Line.take target n ls).2 es := by
  intro n
  induction n with
  | zero => exact fun h => ⟨rfl, h⟩
  | succ n ih =>
    intro x ls h
    unfold consoleread
    cases ls with
    | nil =>
      rw [if_pos (h.lines_iff.mpr rfl)]
      exact ⟨rfl, h⟩
    | cons c ls =>
      obtain ⟨hring, hc⟩ := h.ring.pop (by decide) (by decide)
      have hnext : Shows { x with r := x.r + 1 } ls es := by
        refine ⟨hring, h.mark.trans ?_, h.unended⟩
        rw [List.length_cons, Nat.add_comm, BitVec.ofNat_add, ← BitVec.add_assoc]
        rfl
      have hback : x.r + 1 - 1 = x.r := BitVec.add_sub_cancel _ _
      rw [if_neg fun h0 => List.cons_ne_nil c ls (h.lines_iff.mp h0)]
      unfold Line.take
      simp only [char_eq hc, hback]
      split
      next =>
        refine ⟨rfl, ?_⟩
        split
        next => exact h
        next => exact hnext
      next =>
        split
        next => exact ⟨rfl, hnext⟩
        next =>
          obtain ⟨h1, h2⟩ := ih hnext
          exact ⟨congrArg (c :: ·) h1, h2⟩

end Shows

/-- In every run the console is the line editor: the ring shows its bytes, the readers have stored what
it gave out, and that is, in order, all that was passed on, without the ends of file and without
what can still be read. -/
theorem console_edits_lines (acts : List ConsAct) :
    Shows (acts.foldl step ({}, [])).1 (acts.foldl Line.step {}).lines
        (acts.foldl Line.step {}).edit ∧
      (acts.foldl step ({}, [])).2 = (acts.foldl Line.step {}).got ∧
      (acts.foldl Line.step {}).Kept := by
  refine List.foldl_rel (r := fun (x : Input × List Byte) (l : Line) =>
    Shows x.1 l.lines l.edit ∧ x.2 = l.got ∧ l.Kept) ?_ fun a _ x l ⟨h, hgot, hkept⟩ => ?_
  · exact ⟨⟨.nil _ _, rfl, List.not_mem_nil⟩, rfl, [], rfl, rfl⟩
  · cases a with
    | key c => exact ⟨h.key, hgot.trans (Line.key_got ..).symm, hkept.step _⟩
    | read target n =>
      obtain ⟨h1, h2⟩ := h.read target n
      exact ⟨h2, congrArg₂ (· ++ ·) hgot h1, hkept.step _⟩

end Input

end Xv6
