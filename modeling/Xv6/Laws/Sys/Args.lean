import Xv6.Lib.Word
import Xv6.Sys.Args

/-!
# Stores through the user's pointers

`argptr` is sound: with `sz` below `KERNBASE` its sum cannot wrap, so a pointer it lets through has its
whole block in the caller's memory. `read`, `fstat` and `pipe` take their pointer from it and store in
that block. `thread_create` and `thread_join` fetch theirs with `argint`, and nobody checks it.
-/

namespace Xv6

open Xv6.Lib

variable {w : World} {u : Caller} {num p n size : Word} {s : Store}

/-- Every byte of a store is in the caller's memory. -/
def Caller.InMemory (u : Caller) (s : Store) : Prop :=
  ∀ k, k < s.2 → (s.1 + .ofNat 32 k).toNat < u.sz.toNat

instance (u : Caller) (s : Store) : Decidable (u.InMemory s) :=
  inferInstanceAs (Decidable (∀ k, k < s.2 → _))

/-- The pointer argument of a call, with the length of the block it names. -/
def Caller.block (u : Caller) (num : Word) : Option (Word × Int) :=
  if num = SYS_pipe then (u.argint 0).map (·, 8)
  else if num = SYS_read then (u.argint 1).bind fun p => (u.argint 2).map fun n => (p, n.toInt)
  else if num = SYS_fstat then (u.argint 1).map (·, 20)
  else if num = SYS_thread_create then (u.argint 0).map (·, 4)
  else if num = SYS_thread_join then (u.argint 1).map (·, 4)
  else none

/-- A call stores inside the caller's memory only, and when the block it is given does not lie there it
fails and stores nothing. -/
def Contained (w : World) (u : Caller) (num : Word) : Prop :=
  (∀ s ∈ (syscall w u num).2, u.InMemory s) ∧
  ∀ b ∈ u.block num, ¬ (0 ≤ b.2 ∧ b.1.toNat + b.2.toNat ≤ u.sz.toNat) → syscall w u num = (-1, [])

/-- The two unchecked pointers lie in the caller's memory, where a call stores through them. -/
def ThreadPtrOk (w : World) (u : Caller) (num : Word) : Prop :=
  (num = SYS_thread_create → w.create = true → ∀ thread f arg, u.argint 0 = some thread →
    u.argint 1 = some f → u.argint 2 = some arg → thread.toNat + 4 ≤ u.sz.toNat) ∧
  (num = SYS_thread_join → w.join = true → ∀ tid retval, u.argint 0 = some tid →
    u.argint 1 = some retval → retval.toNat + 4 ≤ u.sz.toNat)

/-! ## Stores -/

theorem inMemory_of_le {len : Nat} (h : p.toNat + len ≤ u.sz.toNat) : u.InMemory (p, len) := by
  intro k hk
  have hk : k < len := hk
  have := u.sz.isLt
  show (p + .ofNat 32 k).toNat < u.sz.toNat
  rw [toNat_add_ofNat (by omega)]
  omega

/-- A store that lies in the memory does not wrap. -/
theorem InMemory.le {len : Nat} (hsz : u.sz.toNat < KERNBASE) (h : u.InMemory (p, len)) (hlen : 0 < len) :
    p.toNat + len ≤ u.sz.toNat := by
  unfold KERNBASE at hsz
  have hfirst : p.toNat < u.sz.toNat := by
    have := h 0 hlen
    rwa [BitVec.add_zero] at this
  by_contra hno
  -- the byte at address `sz` is one of the store
  have hend : (p + .ofNat 32 (u.sz.toNat - p.toNat)).toNat < u.sz.toNat :=
    h (u.sz.toNat - p.toNat) (by show _ < len; omega)
  rw [toNat_add_ofNat (by omega)] at hend
  omega

theorem storeBytes_inMemory {k : Nat} (h : p.toNat + k ≤ u.sz.toNat) :
    ∀ s ∈ storeBytes p k, u.InMemory s := by
  intro s hs
  obtain ⟨i, hi, rfl⟩ := List.mem_map.mp hs
  rw [List.mem_range] at hi
  have := u.sz.isLt
  apply inMemory_of_le
  rw [toNat_add_ofNat (by omega)]
  omega

theorem storeBlocks_inMemory (fuel : Nat) : ∀ {dst : Word} {off tot n : Nat},
    dst.toNat + (n - tot) ≤ u.sz.toNat → ∀ s ∈ storeBlocks fuel dst off tot n, u.InMemory s := by
  induction fuel with
  | zero =>
    intro dst off tot n _ s hs
    cases hs
  | succ fuel ih =>
    intro dst off tot n h s hs
    unfold storeBlocks at hs
    split at hs
    · have hm : min (n - tot) (BSIZE - off % BSIZE) ≤ n - tot := Nat.min_le_left _ _
      rcases List.mem_cons.mp hs with rfl | hs
      · exact inMemory_of_le (Nat.le_trans (Nat.add_le_add_left hm _) h)
      · refine ih ?_ s hs
        have := u.sz.isLt
        rw [toNat_add_ofNat (by omega)]
        omega
    · cases hs

/-! ## Checked pointers -/

/-- What `argptr` lets through. -/
theorem argptr_some {i : Nat} (hsz : u.sz.toNat < KERNBASE) (h : u.argptr i size = some p) :
    u.argint i = some p ∧ 0 ≤ size.toInt ∧ p.toNat + size.toNat ≤ u.sz.toNat := by
  obtain ⟨q, hq, h⟩ := Option.bind_eq_some_iff.mp h
  obtain ⟨hcond, h⟩ := Option.ite_none_left_eq_some.mp h
  cases h
  simp only [not_or, Int.not_lt, BitVec.not_le, BitVec.not_lt] at hcond
  obtain ⟨hsize, hlt, hle⟩ := hcond
  refine ⟨hq, hsize, ?_⟩
  unfold KERNBASE at hsz
  have hsmall := (toInt_of_nonneg hsize).2
  rw [BitVec.lt_def] at hlt
  rw [BitVec.le_def, toNat_add_of_lt (by omega)] at hle
  exact hle

/-- What it does not. -/
theorem argptr_none {i : Nat} (hsz : u.sz.toNat < KERNBASE) (hp : u.argint i = some p)
    (hout : ¬ (0 ≤ size.toInt ∧ p.toNat + size.toInt.toNat ≤ u.sz.toNat)) : u.argptr i size = none := by
  cases h : u.argptr i size with
  | none => rfl
  | some q =>
    obtain ⟨hq, hsize, hle⟩ := argptr_some hsz h
    rw [hp] at hq
    cases hq
    refine absurd ⟨hsize, ?_⟩ hout
    rw [(toInt_of_nonneg hsize).1]
    exact hle

/-- `fileread` stores in the first `n` bytes behind its pointer. -/
theorem fileread_inMemory (f : Opened) (hn : 0 ≤ n.toInt) (h : p.toNat + n.toNat ≤ u.sz.toNat) :
    ∀ s ∈ (fileread f p n).2, u.InMemory s := by
  have hlen : n.toInt.toNat = n.toNat := by
    rw [(toInt_of_nonneg hn).1]
    rfl
  have hk : ∀ m, p.toNat + min n.toInt.toNat m ≤ u.sz.toNat := by
    intro m
    have := Nat.min_le_left n.toInt.toNat m
    omega
  intro s hs
  unfold fileread at hs
  split at hs
  · cases hs
  · split at hs
    · split at hs
      · cases hs
      · exact storeBytes_inMemory (hk _) s hs
    · split at hs
      · cases hs
      · exact storeBytes_inMemory (hk _) s hs
    · rename_i size off hsrc
      split at hs
      · cases hs
      · rename_i hcond
        simp only [not_or, BitVec.not_lt, BitVec.le_def] at hcond
        refine storeBlocks_inMemory _ ?_ s hs
        show p.toNat + ((if size < off + n then size - off else n).toNat - 0) ≤ _
        split
        · rename_i hlt
          -- the rest of the file is shorter than `n`
          have hsub : (size - off).toNat = size.toNat - off.toNat :=
            BitVec.toNat_sub_of_le (BitVec.le_def.mpr hcond.1)
          have hsum : (off + n).toNat ≤ off.toNat + n.toNat := by
            rw [BitVec.toNat_add]
            exact Nat.mod_le _ _
          rw [BitVec.lt_def] at hlt
          omega
        · exact h

theorem stati_inMemory (h : p.toNat + 20 ≤ u.sz.toNat) : ∀ s ∈ stati p, u.InMemory s := by
  have := u.sz.isLt
  have hfield : ∀ d len, d + len ≤ 20 → u.InMemory (p + .ofNat 32 d, len) := by
    intro d len hd
    apply inMemory_of_le
    rw [toNat_add_ofNat (by omega)]
    omega
  intro s hs
  simp only [stati, List.mem_cons, List.not_mem_nil, or_false] at hs
  rcases hs with rfl | rfl | rfl | rfl | rfl
  · exact hfield 4 4 (by decide)
  · exact hfield 8 4 (by decide)
  · exact inMemory_of_le (by omega)
  · exact hfield 12 2 (by decide)
  · exact hfield 16 4 (by decide)

/-! ## The calls -/

section Calls

variable (hsz : u.sz.toNat < KERNBASE)

include hsz

theorem sysRead_inMemory : ∀ s ∈ (sysRead w u).2, u.InMemory s := by
  intro s hs
  unfold sysRead at hs
  split at hs
  · split at hs
    · rename_i p hp
      obtain ⟨-, hn, hle⟩ := argptr_some hsz hp
      exact fileread_inMemory _ hn hle s hs
    · cases hs
  · cases hs

theorem sysFstat_inMemory : ∀ s ∈ (sysFstat w u).2, u.InMemory s := by
  intro s hs
  unfold sysFstat at hs
  split at hs
  · rename_i f st hf hp
    unfold filestat at hs
    split at hs
    · cases hs
    · exact stati_inMemory (argptr_some hsz hp).2.2 s hs
    · exact stati_inMemory (argptr_some hsz hp).2.2 s hs
  · cases hs

theorem sysPipe_inMemory : ∀ s ∈ (sysPipe w u).2, u.InMemory s := by
  intro s hs
  unfold sysPipe at hs
  split at hs
  · rename_i fd hp
    have hle : fd.toNat + 8 ≤ u.sz.toNat := (argptr_some hsz hp).2.2
    have := u.sz.isLt
    have hsecond : u.InMemory (fd + .ofNat 32 4, 4) := by
      apply inMemory_of_le
      rw [toNat_add_ofNat (by omega)]
      omega
    split at hs
    · rcases List.mem_cons.mp hs with hs | hs
      · rw [hs]
        exact inMemory_of_le (by omega)
      · rw [List.mem_singleton.mp hs]
        exact hsecond
    · cases hs
  · cases hs

/-- The three checked calls fail without a store when their block is not in the memory. -/
theorem checked_fails {b : Word × Int} (hb : b ∈ u.block num)
    (hout : ¬ (0 ≤ b.2 ∧ b.1.toNat + b.2.toNat ≤ u.sz.toNat))
    (hnum : num = SYS_pipe ∨ num = SYS_read ∨ num = SYS_fstat) : syscall w u num = (-1, []) := by
  rcases hnum with rfl | rfl | rfl
  · obtain ⟨q, hq, rfl⟩ := Option.map_eq_some_iff.mp hb
    show sysPipe w u = _
    unfold sysPipe
    have hnone : u.argptr 0 8 = none := argptr_none hsz hq hout
    rw [hnone]
  · obtain ⟨q, hq, hb⟩ := Option.bind_eq_some_iff.mp hb
    obtain ⟨n, hn, rfl⟩ := Option.map_eq_some_iff.mp hb
    show sysRead w u = _
    unfold sysRead
    rw [hn]
    split
    · rename_i f n' hf hn'
      cases hn'
      rw [argptr_none hsz hq hout]
    · rfl
  · obtain ⟨q, hq, rfl⟩ := Option.map_eq_some_iff.mp hb
    show sysFstat w u = _
    unfold sysFstat
    have hnone : u.argptr 1 20 = none := argptr_none hsz hq hout
    rw [hnone]
    split
    · rename_i h0
      cases h0
    · rfl

/-- `thread_create` stores exactly through its unchecked pointer. -/
theorem create_contained_iff : Contained w u SYS_thread_create ↔ ThreadPtrOk w u SYS_thread_create := by
  have hcall : syscall w u SYS_thread_create = sysThreadCreate w u := rfl
  have hblock : u.block SYS_thread_create = (u.argint 0).map (·, 4) := rfl
  constructor
  · rintro ⟨hin, -⟩
    refine ⟨fun _ hc thread f arg h0 h1 h2 => ?_, fun h0 => (by cases h0)⟩
    have hs : (thread, 4) ∈ (syscall w u SYS_thread_create).2 := by
      rw [hcall]
      simp only [sysThreadCreate, h0, h1, h2, hc, if_true, List.mem_singleton]
    exact InMemory.le hsz (hin _ hs) (by decide)
  · rintro ⟨hok, -⟩
    rw [Contained, hcall, hblock]
    unfold sysThreadCreate
    split
    · rename_i thread f arg h0 h1 h2
      cases hc : w.create with
      | false => exact ⟨fun s hs => (by cases hs), fun _ _ _ => rfl⟩
      | true =>
        have hle := hok rfl hc thread f arg h0 h1 h2
        refine ⟨fun s hs => ?_, fun b hb hout => ?_⟩
        · rw [List.mem_singleton.mp hs]
          exact inMemory_of_le hle
        · obtain ⟨q, hq, rfl⟩ := Option.map_eq_some_iff.mp hb
          rw [h0] at hq
          cases hq
          exact absurd ⟨Int.natCast_nonneg 4, hle⟩ hout
    · exact ⟨fun s hs => (by cases hs), fun _ _ _ => rfl⟩

theorem join_contained_iff : Contained w u SYS_thread_join ↔ ThreadPtrOk w u SYS_thread_join := by
  have hcall : syscall w u SYS_thread_join = sysThreadJoin w u := rfl
  have hblock : u.block SYS_thread_join = (u.argint 1).map (·, 4) := rfl
  constructor
  · rintro ⟨hin, -⟩
    refine ⟨fun h0 => (by cases h0), fun _ hc tid retval h0 h1 => ?_⟩
    have hs : (retval, 4) ∈ (syscall w u SYS_thread_join).2 := by
      rw [hcall]
      simp only [sysThreadJoin, h0, h1, hc, if_true, List.mem_singleton]
    exact InMemory.le hsz (hin _ hs) (by decide)
  · rintro ⟨-, hok⟩
    rw [Contained, hcall, hblock]
    unfold sysThreadJoin
    split
    · rename_i tid retval h0 h1
      cases hc : w.join with
      | false => exact ⟨fun s hs => (by cases hs), fun _ _ _ => rfl⟩
      | true =>
        have hle := hok rfl hc tid retval h0 h1
        refine ⟨fun s hs => ?_, fun b hb hout => ?_⟩
        · rw [List.mem_singleton.mp hs]
          exact inMemory_of_le hle
        · obtain ⟨q, hq, rfl⟩ := Option.map_eq_some_iff.mp hb
          rw [h1] at hq
          cases hq
          exact absurd ⟨Int.natCast_nonneg 4, hle⟩ hout
    · exact ⟨fun s hs => (by cases hs), fun _ _ _ => rfl⟩

/-- A system call stores inside the caller's memory, and fails without a store when its block does not
lie there, exactly when the pointers of `thread_create` and `thread_join` lie there. -/
theorem stores_contained_iff : Contained w u num ↔ ThreadPtrOk w u num := by
  by_cases hcreate : num = SYS_thread_create
  · rw [hcreate]
    exact create_contained_iff hsz
  by_cases hjoin : num = SYS_thread_join
  · rw [hjoin]
    exact join_contained_iff hsz
  refine ⟨fun _ => ⟨fun h0 => absurd h0 hcreate, fun h0 => absurd h0 hjoin⟩, fun _ => ?_⟩
  by_cases hchecked : num = SYS_pipe ∨ num = SYS_read ∨ num = SYS_fstat
  · refine ⟨?_, fun b hb hout => checked_fails hsz hb hout hchecked⟩
    rcases hchecked with rfl | rfl | rfl
    · exact sysPipe_inMemory hsz
    · exact sysRead_inMemory hsz
    · exact sysFstat_inMemory hsz
  · simp only [not_or] at hchecked
    obtain ⟨h1, h2, h3⟩ := hchecked
    refine ⟨fun s hs => ?_, fun b hb => ?_⟩
    · unfold syscall at hs
      rw [if_neg h1, if_neg h2, if_neg h3, if_neg hcreate, if_neg hjoin] at hs
      split at hs <;> cases hs
    · unfold Caller.block at hb
      rw [if_neg h1, if_neg h2, if_neg h3, if_neg hcreate, if_neg hjoin] at hb
      cases hb

end Calls

/-- A caller of three pages with the words `args` above its stack pointer at 0x2000. -/
def callerWith (args : Nat → Word) : Caller where
  mem a := ((args ((a.toNat - 0x2004) / 4)).extractLsb' (8 * ((a.toNat - 0x2004) % 4)) 8)
  esp := 0x2000
  sz := 0x3000

/-- A kernel in which both thread calls succeed and nothing is open. -/
def threadWorld : World where
  ofile _ := none
  pipe := none
  create := true
  join := true
  rest _ := 0

theorem stores_contained_iff_create : Contained threadWorld (callerWith fun _ => 0x1000) SYS_thread_create := by
  refine (stores_contained_iff (by decide)).mpr ⟨fun _ _ thread f arg h0 _ _ => ?_, fun h0 => by cases h0⟩
  have : (callerWith fun _ => 0x1000).argint 0 = some 0x1000 := by decide
  rw [this] at h0
  cases h0
  decide

/-- The words of `thread_create(0x80500000, 0x1000, 0x1000)`. -/
def createArgs (i : Nat) : Word := if i = 0 then 0x80500000 else 0x1000

/-- The words of `thread_join(2, 0x80500000)`. -/
def joinArgs (i : Nat) : Word := if i = 0 then 2 else 0x80500000

/-- The kernel writes a thread number, and the word a thread exited with, to a page of its own: it
maps 0x80500000, behind its text, writable. -/
theorem stores_at_kernel_address :
    syscall threadWorld (callerWith createArgs) SYS_thread_create = (0, [(0x80500000, 4)]) ∧
    syscall threadWorld (callerWith joinArgs) SYS_thread_join = (0, [(0x80500000, 4)]) ∧
    ¬ (callerWith createArgs).InMemory (0x80500000, 4) ∧
    ¬ (callerWith joinArgs).InMemory (0x80500000, 4) := by
  decide

end Xv6
